import Idmbs.BPlusTree.Insert
import Idmbs.BPlusTree.Scanner
import Idmbs.Storage.RecordFilterScan
import Idmbs.Storage.RowEncoding
import Idmbs.Storage.TxnMark

/-!
# Idmbs.Storage.TableScan

`Table::ScanRecord` and `Table::ScanRecordByIndex` (storage/table.cpp). Over the file the limit is never looked
at; over an index it counts the entries that are fetched, not the records that are read.
-/

namespace Idmbs

/-- `record_reader` with its context: the answer may depend on the records it was given before. -/
abbrev RecordReader := List Slot → Slot → List UInt8 → Re

/-- What `ScanRecord` uses of a table. `ς` is the state of an `IndexScanner`. -/
structure ScannedTable (ς : Type) where
  tableMeta : TableMeta
  recordHandler : RecordFile
  findIndexForScan : Option ConditionFilter → Option ς
  nextEntry : ς → Re × Slot × ς

namespace ScannedTable

variable {ς : Type}

/-- `txn == nullptr or txn->IsVisible(this, &record)`. -/
def isVisible (t : ScannedTable ς) (txn : Option Int) (record : List UInt8) : Bool :=
  match txn with
  | none => true
  | some txnId => TxnMark.isVisible t.tableMeta.getTxnField txnId fun i => record.getD i 0

/-- `filter == nullptr or filter->Filter(record)`. -/
def filters (filter : Option ConditionFilter) (rid : Slot) (record : List UInt8) : Bool :=
  match filter with
  | none => true
  | some f => f rid record

/-- The loop of `ScanRecord` over the record file scanner, with the records read. `record_count` is left out; it
is written only. -/
def scanFile (t : ScannedTable ς) (txn : Option Int) (filter : Option ConditionFilter) (recordReader : RecordReader)
    (fuel : Nat) : Nat → RecordPool → RecordFileScanner → List Slot → Option (Re × List Slot)
  | 0, _, _, _ => none
  | n + 1, pool, scanner, read =>
    match scanner.nextRecord with
    | none => some (.success, read)
    | some rid =>
      match RecordFileScanner.filterNext filter fuel pool scanner with
      | none => none
      | some (r, pool, scanner) =>
        if r ≠ .success then some (r, read)
        else
          let record := (pool.pageData rid.1).data rid.2
          if t.isVisible txn record then
            let r := recordReader read rid record
            if r ≠ .success then some (r, read ++ [rid])
            else scanFile t txn filter recordReader fuel n pool scanner (read ++ [rid])
          else scanFile t txn filter recordReader fuel n pool scanner read

/-- `ScanRecordByIndex`, by `limit - record_count`. -/
def scanRecordByIndex (t : ScannedTable ς) (txn : Option Int) (filter : Option ConditionFilter)
    (recordReader : RecordReader) : Nat → RecordFile → ς → List Slot → Re × List Slot
  | 0, _, _, read => (.success, read)
  | left + 1, file, scanner, read =>
    match t.nextEntry scanner with
    | (r, rid, scanner) =>
      if r = .recordEof then (.success, read)
      else if r ≠ .success then (r, read)
      else
        match file.getRecord rid with
        | (r, data, file) =>
          if r ≠ .success then (r, read)
          else
            let record := data.getD []
            if t.isVisible txn record && filters filter rid record then
              let r := recordReader read rid record
              if r ≠ .success then (r, read ++ [rid])
              else scanRecordByIndex t txn filter recordReader left file scanner (read ++ [rid])
            else scanRecordByIndex t txn filter recordReader left file scanner read

/-- `limit` as `ScanRecord` goes on with it. -/
def scanLimit (limit : Int) : Nat := if limit < 0 then 2 ^ 31 - 1 else limit.toNat

/-- `ScanRecord`: the answer and the records read. -/
def scanRecord (t : ScannedTable ς) (txn : Option Int) (filter : Option ConditionFilter) (limit : Int)
    (recordReader : Option RecordReader) (fuel : Nat) : Option (Re × List Slot) :=
  match recordReader with
  | none => some (.invalidArgument, [])
  | some recordReader =>
    if limit = 0 then some (.success, [])
    else
      match t.findIndexForScan filter with
      | some scanner => some (t.scanRecordByIndex txn filter recordReader (scanLimit limit) t.recordHandler scanner [])
      | none =>
        match RecordFileScanner.filterInit filter fuel t.recordHandler.pool with
        | none => none
        | some (r, pool, scanner) =>
          if r ≠ .success then some (r, []) else t.scanFile txn filter recordReader fuel fuel pool scanner []

/-! ## The records that match -/

/-- The record is there, visible, and passes the filter. -/
def Matches (t : ScannedTable ς) (txn : Option Int) (filter : Option ConditionFilter) (rid : Slot) : Prop :=
  ∃ record, t.recordHandler.pool.live rid = some record ∧ t.isVisible txn record = true ∧
    filters filter rid record = true

def visible (t : ScannedTable ς) (txn : Option Int) (rid : Slot) : Bool :=
  t.isVisible txn ((t.recordHandler.pool.pageData rid.1).data rid.2)

def passes (t : ScannedTable ς) (txn : Option Int) (filter : Option ConditionFilter) (rid : Slot) : Bool :=
  t.visible txn rid && filters filter rid ((t.recordHandler.pool.pageData rid.1).data rid.2)

def matching (t : ScannedTable ς) (txn : Option Int) (filter : Option ConditionFilter) : List Slot :=
  t.recordHandler.pool.rows.filter (t.passes txn filter)

section Matching

open RecordPool

variable {t : ScannedTable ς} {txn : Option Int} {filter : Option ConditionFilter} {rid : Slot}

theorem live_eq {s : RecordPool} (h : (s.live rid).isSome) : s.live rid = some ((s.pageData rid.1).data rid.2) := by
  unfold RecordPool.live at h ⊢
  split at h
  · rename_i hlive
    rw [if_pos hlive]
  · cases h

theorem matches_iff : t.Matches txn filter rid ↔
    (t.recordHandler.pool.live rid).isSome ∧ t.passes txn filter rid = true := by
  unfold Matches passes visible
  constructor
  · rintro ⟨record, hlive, hpasses⟩
    have hsome : (t.recordHandler.pool.live rid).isSome := by
      rw [hlive]
      rfl
    have heq := (live_eq hsome).symm.trans hlive
    refine ⟨hsome, ?_⟩
    rw [Option.some.inj heq, Bool.and_eq_true]
    exact hpasses
  · rintro ⟨hsome, hpasses⟩
    rw [Bool.and_eq_true] at hpasses
    exact ⟨_, live_eq hsome, hpasses⟩

theorem mem_matching (hs : Readable t.recordHandler.pool) :
    rid ∈ t.matching txn filter ↔ t.Matches txn filter rid := by
  rw [matching, List.mem_filter, mem_rows hs, matches_iff]

theorem nodup_matching : (t.matching txn filter).Nodup := nodup_rowsFrom.filter _

end Matching

/-! ## The two loops -/

/-- `NextEntry` delivers these record ids from `scanner` on, and then `RecordEof`. -/
inductive Delivers (t : ScannedTable ς) : ς → List Slot → Prop
  | eof {scanner scanner' : ς} {rid : Slot} : t.nextEntry scanner = (.recordEof, rid, scanner') →
      Delivers t scanner []
  | entry {scanner scanner' : ς} {rid : Slot} {rids : List Slot} :
      t.nextEntry scanner = (.success, rid, scanner') → Delivers t scanner' rids →
      Delivers t scanner (rid :: rids)

def slotOf (rid : RecordId) : Slot := (rid.pageId.toNat, rid.slotId.toNat)

def nextTreeEntry {α : Type} [Inhabited α] (scanner : BplusTreeScanner α) : Re × Slot × BplusTreeScanner α :=
  match scanner.nextEntry with
  | (r, rid, scanner) => (r, slotOf rid, scanner)

/-- A scan of a B+ tree that comes to its end delivers the record ids that it met. -/
theorem delivers_of_drain {α : Type} [Inhabited α] {t : ScannedTable (BplusTreeScanner α)}
    (ht : t.nextEntry = nextTreeEntry) : ∀ {fuel : Nat} {scanner scanner' : BplusTreeScanner α}
    {rids : List RecordId}, scanner.drain fuel = (.recordEof, rids, scanner') →
    t.Delivers scanner (rids.map slotOf) := by
  intro fuel
  induction fuel with
  | zero => nofun
  | succ fuel ih =>
    intro scanner scanner' rids h
    obtain ⟨r, rid, next, hnext⟩ : ∃ r rid next, scanner.nextEntry = (r, rid, next) := ⟨_, _, _, rfl⟩
    have hentry : t.nextEntry scanner = (r, slotOf rid, next) := by
      rw [ht, nextTreeEntry, hnext]
    rw [BplusTreeScanner.drain, hnext] at h
    simp only at h
    by_cases hr : r = .success
    · obtain ⟨r', rids', last, hdrain⟩ : ∃ r' rids' last, next.drain fuel = (r', rids', last) := ⟨_, _, _, rfl⟩
      rw [if_neg (not_not.mpr hr), hdrain] at h
      cases h
      rw [hr] at hentry
      exact .entry hentry (ih hdrain)
    · rw [if_pos hr] at h
      cases h
      exact .eof hentry

/-- The scanner delivers `entries`, which contain each record that passes the filter. -/
structure Covers (t : ScannedTable ς) (filter : Option ConditionFilter) (scanner : ς) (entries : List Slot) :
    Prop where
  delivers : t.Delivers scanner entries
  distinct : entries.Nodup
  live : ∀ rid ∈ entries, (t.recordHandler.pool.live rid).isSome
  complete : ∀ rid record, t.recordHandler.pool.live rid = some record → filters filter rid record = true →
    rid ∈ entries

/-- `record_reader` always returns `Success`. -/
def Accepting (recordReader : RecordReader) : Prop := ∀ read rid record, recordReader read rid record = .success

section Loops

open RecordPool RecordFileScanner

variable {t : ScannedTable ς} {txn : Option Int} {filter : Option ConditionFilter} {recordReader : RecordReader}
  {limit : Int}

theorem filter_accepted (rids : List Slot) :
    (accepted filter t.recordHandler.pool rids).filter (t.visible txn) = rids.filter (t.passes txn filter) := by
  rw [accepted, List.filter_filter]
  refine List.filter_congr fun rid _ => ?_
  unfold passes accepts filters
  cases filter with
  | none => rfl
  | some f => rfl

/-- Over the file every record that is coming and visible is read. -/
theorem scanFile_spec (hreader : Accepting recordReader) (fuel : Nat) {rids : List Slot} :
    ∀ {s : RecordPool} {scanner : RecordFileScanner} {n : Nat} {read : List Slot}, Readable s →
    s.pageData = t.recordHandler.pool.pageData → Coming filter s scanner rids → s.pagesNum < fuel → rids.length < n →
    t.scanFile txn filter recordReader fuel n s scanner read =
      some (.success, read ++ rids.filter (t.visible txn)) := by
  induction rids with
  | nil =>
    intro s scanner n read _ _ h _ hn
    obtain ⟨n, rfl⟩ := Nat.exists_eq_succ_of_ne_zero (Nat.ne_zero_of_lt hn)
    cases h with
    | done hnone =>
      rw [scanFile, hnone, List.filter_nil, List.append_nil]
  | cons rid rest ih =>
    intro s scanner n read hs hf h hfuel hn
    obtain ⟨n, rfl⟩ := Nat.exists_eq_succ_of_ne_zero (Nat.ne_zero_of_lt hn)
    have hrid : scanner.nextRecord = some rid := by
      cases h with
      | next hnext => exact hnext
    obtain ⟨-, rest', hrest, s', scanner', hrun, hback, hcoming, -⟩ := filterNext_spec fuel hs h hrid hfuel
    cases hrest
    have hdata := hback.pageData.trans hf
    have hgo : ∀ read, t.scanFile txn filter recordReader fuel n s' scanner' read =
        some (.success, read ++ rest.filter (t.visible txn)) := by
      intro read
      exact ih (hs.givesBack hback) hdata hcoming (by rw [hback.pagesNum]; exact hfuel)
        (Nat.lt_of_succ_lt_succ hn)
    have hthis : t.isVisible txn ((t.recordHandler.pool.pageData rid.1).data rid.2) = t.visible txn rid := rfl
    rw [scanFile, hrid]
    simp only [hrun, ne_eq, not_true_eq_false, if_false, hdata, hreader _ _ _, hgo, hthis]
    cases hvisible : t.visible txn rid with
    | true =>
      rw [if_pos rfl, List.filter_cons_of_pos hvisible, List.append_assoc]
      rfl
    | false =>
      rw [if_neg Bool.false_ne_true, List.filter_cons_of_neg (by rw [hvisible]; exact Bool.false_ne_true)]

theorem getRecord_live {file : RecordFile} {rid : Slot} (hs : Readable file.pool)
    (h : (file.pool.live rid).isSome) : file.getRecord rid =
      (.success, some ((file.pool.pageData rid.1).data rid.2), { file with pool := file.pool.pinned rid.1 }) := by
  have hlive : file.pool.bitmap rid.1 = true ∧ rid.1 ≠ PagePool.headerPage ∧
      rid.2 ∈ (file.pool.pageData rid.1).slots := by
    unfold RecordPool.live at h
    split at h
    · assumption
    · cases h
  obtain ⟨-, hcap, hbit⟩ := BitMap.mem_bitsFrom.mp hlive.2.2
  have hdata : (file.pool.pinned rid.1).pageData = file.pool.pageData := pinned_frees.pageData
  have hnot : ¬(file.pool.pageData rid.1).bits rid.2 = false := by
    rw [hbit]
    exact Bool.true_eq_false_eq_False
  unfold RecordFile.getRecord RecordPageHandler.getRecord
  simp only [getPage_pinned hs (hs.bounded _ hlive.1), hdata, if_neg (Nat.not_le.mpr hcap), if_neg hnot, ne_eq,
    not_true_eq_false, if_false]

/-- Over an index the records among the first `left` entries that pass are read. -/
theorem scanRecordByIndex_spec (hreader : Accepting recordReader) {left : Nat} :
    ∀ {file : RecordFile} {scanner : ς} {entries read : List Slot}, Readable file.pool →
    Frees t.recordHandler.pool file.pool → t.Delivers scanner entries →
    (∀ rid ∈ entries, (file.pool.live rid).isSome) →
    t.scanRecordByIndex txn filter recordReader left file scanner read =
      (.success, read ++ (entries.take left).filter (t.passes txn filter)) := by
  induction left with
  | zero =>
    intro file scanner entries read _ _ _ _
    rw [scanRecordByIndex, List.take_zero, List.filter_nil, List.append_nil]
  | succ left ih =>
    intro file scanner entries read hs hf h hlive
    unfold scanRecordByIndex
    cases h with
    | eof hnext =>
      simp only [hnext, if_true]
      rw [List.take_nil, List.filter_nil, List.append_nil]
    | @entry _ scanner' rid rids hnext hrest =>
      have hthis := hlive rid List.mem_cons_self
      have hgo : ∀ read, t.scanRecordByIndex txn filter recordReader left
          { file with pool := file.pool.pinned rid.1 } scanner' read =
          (.success, read ++ (rids.take left).filter (t.passes txn filter)) := by
        intro read
        refine ih (hs.givesBack (k := 0) pinned_givesBack) (hf.trans pinned_frees) hrest fun rid' hrid' => ?_
        rw [pinned_frees.live]
        exact hlive rid' (List.mem_cons_of_mem rid hrid')
      have hpasses : (t.isVisible txn ((file.pool.pageData rid.1).data rid.2) &&
          filters filter rid ((file.pool.pageData rid.1).data rid.2)) = t.passes txn filter rid := by
        rw [hf.pageData]
        rfl
      simp only [hnext, reduceCtorEq, if_false, ne_eq, not_true_eq_false, getRecord_live hs hthis, Option.getD_some,
        hpasses, hreader _ _ _, hgo, List.take_succ_cons]
      cases hp : t.passes txn filter rid with
      | true =>
        rw [if_pos rfl, List.filter_cons_of_pos hp, List.append_assoc]
        rfl
      | false =>
        rw [if_neg Bool.false_ne_true, List.filter_cons_of_neg (by rw [hp]; exact Bool.false_ne_true)]

end Loops

/-! ## The limit -/

/-- Different matching records were read, as many as the limit allows; a negative limit allows all. -/
structure Agrees (t : ScannedTable ς) (txn : Option Int) (filter : Option ConditionFilter) (limit : Int)
    (read : List Slot) : Prop where
  distinct : read.Nodup
  matching : ∀ rid ∈ read, t.Matches txn filter rid
  length : read.length = if limit < 0 then (t.matching txn filter).length
    else min limit.toNat (t.matching txn filter).length

/-- When the limit does its work. Over the file there are not more matching records than it allows. Over an index
that delivers `entries` no matching one comes behind the first `limit` entries, or all of these match. -/
def LimitWorks (t : ScannedTable ς) (txn : Option Int) (filter : Option ConditionFilter) (limit : Int)
    (entries : List Slot) : Prop :=
  match t.findIndexForScan filter with
  | none => limit ≤ 0 ∨ ((t.matching txn filter).length : Int) ≤ limit
  | some _ => (∀ rid ∈ entries.drop (scanLimit limit), t.passes txn filter rid = false) ∨
      0 ≤ limit ∧ ∀ rid ∈ entries.take (scanLimit limit), t.passes txn filter rid = true

section Limit

open RecordPool RecordFileScanner

variable {α : Type} {p : α → Bool} {k : Nat} {t : ScannedTable ς} {txn : Option Int}
  {filter : Option ConditionFilter} {recordReader : RecordReader} {limit : Int} {entries : List Slot}

theorem length_filter_take (xs : List α) :
    ((xs.take k).filter p).length + ((xs.drop k).filter p).length = (xs.filter p).length := by
  rw [← List.length_append, ← List.filter_append, List.take_append_drop]

theorem length_filter_take_eq_iff (xs : List α) :
    ((xs.take k).filter p).length = (xs.filter p).length ↔ ∀ x ∈ xs.drop k, p x = false := by
  have hsum := length_filter_take (p := p) (k := k) xs
  have hnone : ((xs.drop k).filter p).length = 0 ↔ ∀ x ∈ xs.drop k, p x = false := by
    rw [List.length_eq_zero_iff, List.filter_eq_nil_iff]
    exact forall₂_congr fun x _ => iff_of_eq (Bool.not_eq_true _)
  rw [← hnone]
  omega

theorem length_filter_take_min_iff (xs : List α) : ((xs.take k).filter p).length = min k (xs.filter p).length ↔
    (∀ x ∈ xs.drop k, p x = false) ∨ ∀ x ∈ xs.take k, p x = true := by
  have hsum := length_filter_take (p := p) (k := k) xs
  have hle := List.length_filter_le p (xs.take k)
  have hall : ((xs.take k).filter p).length = (xs.take k).length ↔ ∀ x ∈ xs.take k, p x = true :=
    List.length_filter_eq_length_iff
  rw [← length_filter_take_eq_iff, ← hall]
  have htake := List.length_take (i := k) (l := xs)
  have hdrop := List.length_filter_le p (xs.drop k)
  rw [List.length_drop] at hdrop
  omega

theorem agrees_iff {read : List Slot} (hread : read.Nodup) (hmatch : ∀ rid ∈ read, t.Matches txn filter rid) :
    t.Agrees txn filter limit read ↔ read.length = if limit < 0 then (t.matching txn filter).length
      else min limit.toNat (t.matching txn filter).length :=
  ⟨fun h => h.length, fun h => ⟨hread, hmatch, h⟩⟩

/-- The entries that pass are the matching records. -/
theorem Covers.length_filter {scanner : ς} (h : t.Covers filter scanner entries)
    (hs : Readable t.recordHandler.pool) :
    (entries.filter (t.passes txn filter)).length = (t.matching txn filter).length := by
  refine List.Perm.length_eq ((List.perm_ext_iff_of_nodup (h.distinct.filter _) nodup_matching).mpr fun rid => ?_)
  rw [mem_matching hs, List.mem_filter, matches_iff]
  constructor
  · rintro ⟨hmem, hpasses⟩
    exact ⟨h.live rid hmem, hpasses⟩
  · rintro ⟨hlive, hpasses⟩
    refine ⟨h.complete rid _ (live_eq hlive) ?_, hpasses⟩
    unfold passes at hpasses
    rw [Bool.and_eq_true] at hpasses
    exact hpasses.2

/-- `ScanRecord` over the file reads all matching records. -/
theorem scanRecord_file (hs : Readable t.recordHandler.pool) (hreader : Accepting recordReader)
    (hfind : t.findIndexForScan filter = none) (hlimit : limit ≠ 0) : ∃ n, ∀ fuel ≥ n,
    t.scanRecord txn filter limit (some recordReader) fuel = some (.success, t.matching txn filter) := by
  refine ⟨t.recordHandler.pool.pagesNum + t.recordHandler.pool.rows.length + 1, fun fuel hfuel => ?_⟩
  obtain ⟨s', scanner, hrun, hback, hcoming, -⟩ := filterInit_spec filter fuel hs (by omega)
  have hlen : (accepted filter t.recordHandler.pool t.recordHandler.pool.rows).length ≤
      t.recordHandler.pool.rows.length := List.length_filter_le _ _
  have hscan : t.scanFile txn filter recordReader fuel fuel s' scanner [] = some (.success, [] ++ _) :=
    scanFile_spec hreader fuel (hs.givesBack hback) hback.pageData hcoming (by rw [hback.pagesNum]; omega) (by omega)
  unfold scanRecord
  simp only [if_neg hlimit, hfind, hrun, ne_eq, not_true_eq_false, if_false, hscan, List.nil_append, matching,
    filter_accepted]

/-- `ScanRecord` over an index reads those of the first `limit` entries that match. -/
theorem scanRecord_index {scanner : ς} (hs : Readable t.recordHandler.pool) (hreader : Accepting recordReader)
    (hfind : t.findIndexForScan filter = some scanner) (h : t.Covers filter scanner entries) (hlimit : limit ≠ 0)
    (fuel : Nat) : t.scanRecord txn filter limit (some recordReader) fuel =
      some (.success, (entries.take (scanLimit limit)).filter (t.passes txn filter)) := by
  unfold scanRecord
  simp only [if_neg hlimit, hfind]
  rw [scanRecordByIndex_spec hreader hs .refl h.delivers h.live, List.nil_append]

/-- A table with a record on each of two pages; `found` is the scanner that `FindIndexForScan` gives. -/
def twoRows (found : Option (BplusTreeScanner Int)) : ScannedTable (BplusTreeScanner Int) where
  tableMeta := wideTable
  recordHandler := ⟨1, twoPages, []⟩
  findIndexForScan _ := found
  nextEntry := nextTreeEntry

def readAll : RecordReader := fun _ _ _ => .success

theorem accepting_readAll : Accepting readAll := fun _ _ _ => rfl

theorem rows_twoPages : twoPages.rows = [(1, 0), (2, 0)] := by decide

/-- A scan of an index that has the records in the other order. -/
def backwards : BplusTreeScanner Int :=
  let s := (BplusTreeHandler.emptyIndex 6 4).insertEntry BplusTreeHandler.numberComparator 0 ⟨2, 0⟩
  let s := s.2.insertEntry BplusTreeHandler.numberComparator 1 ⟨1, 0⟩
  ((BplusTreeScanner.new s.2).openScan (fun v1 v2 => v1 - v2) BplusTreeHandler.numberRidCompare
    (fun v _ _ => (v, false)) none 0 true none 0 true).2

theorem covers_twoRows (filter : Option ConditionFilter) :
    (twoRows (some backwards)).Covers filter backwards [(2, 0), (1, 0)] where
  delivers := by
    obtain ⟨r, rids, scanner, hdrain⟩ : ∃ r rids scanner, backwards.drain 3 = (r, rids, scanner) := ⟨_, _, _, rfl⟩
    have hr : (backwards.drain 3).1 = .recordEof := by decide +kernel
    have hrids : (backwards.drain 3).2.1 = [⟨2, 0⟩, ⟨1, 0⟩] := by decide +kernel
    rw [hdrain] at hr hrids
    obtain rfl : r = .recordEof := hr
    obtain rfl : rids = [⟨2, 0⟩, ⟨1, 0⟩] := hrids
    exact delivers_of_drain rfl hdrain
  distinct := by decide
  live := by decide
  complete := by
    intro rid record hlive _
    have hrow : rid ∈ twoPages.rows := (mem_rows readable_twoPages).mpr (Option.isSome_of_eq_some hlive)
    rw [rows_twoPages] at hrow
    exact (List.Perm.swap (2, 0) (1, 0) []).mem_iff.mp hrow

end Limit

end ScannedTable

end Idmbs
