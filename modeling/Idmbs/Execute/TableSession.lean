import Idmbs.Execute.SelectOperator
import Mathlib.Data.Multiset.Filter
import Mathlib.Data.Multiset.MapFold

/-!
# Idmbs.Execute.TableSession

The statements on one table without indexes, from the handlers of resolve/resolve_defs.cpp through
`DoInsert`, `DoDelete` and `DoSelect` (execute/execute_main.cpp) to the record file and the log, while the
file stays open and no page request fails. `CLogManager::AppendRecord` is given by its answers: it appends the
record whatever it answers, and answers `LogBufFull` when the buffer had to be flushed on the way.
-/

namespace Idmbs

open BitMap RecordPool

/-- What is appended to the log, by the arguments of `CLogManager::MakeRecord`. -/
inductive LogEntry where
  | redoInsert (txnId : Int) (rid : Slot) (data : List UInt8)
  | redoDelete (txnId : Int) (rid : Slot)
  | redoMiniTxnCommit (txnId : Int)
  deriving DecidableEq, Repr

/-- The answers of `AppendRecord`, each to a record behind those of a log. -/
abbrev AppendRecord := List LogEntry → LogEntry → Re

/-- The record file of the table, `Txn::global_txn_id` and the records of the log. -/
structure TableSession where
  file : RecordFile
  globalTxnId : Int
  log : List LogEntry

/-- A statement; the values of an INSERT go to memory that holds `heap`, and `passes` are the answers of
`PredicateOperator::Predicate`. -/
inductive TableStatement where
  | insert (values : List Value) (heap : CString.Pointer)
  | delete (passes : List UInt8 → Bool)
  | select (passes : List UInt8 → Bool) (fields : List Field)
  /-- no statement: the iterator of `free_pages_` has no order of its own -/
  | reorder (free : List PageId)

/-- What a statement answers: a code, the number of records deleted, the text of a SELECT. -/
inductive TableAnswer where
  | code (r : Re)
  | deleted (count : Nat)
  | text (response : List UInt8)

/-- `InsertStatement::Handle` on a table that there is. -/
def InsertStatement.handle (m : TableMeta) (values : List Value) : Re :=
  let fields := m.fields.drop TableMeta.sysFields.length
  if values.length = 0 then .invalidArgument
  else if values.length ≠ fields.length then .schemaFieldMissing
  else if (fields.zip values).any fun fv => fv.2.type ≠ fv.1.attrType then .schemaFieldTypeMismatch
  else .success

namespace TableSession

variable (appendRecord : AppendRecord)

/-- `Table::InsertRecord` of a transaction that has done nothing yet, on the bytes of the record; the record stays
whatever the log answers. -/
def insertRecord (x : TableSession) (txnId : Int) (bs : List UInt8) : Re × TableSession :=
  match x.file.insertRecord bs with
  | (.success, some rid, file) =>
    match Txn.insertRecord (fun _ => none) rid.recordId with
    | (r, _) =>
      if r ≠ .success then (r, { x with file := (file.deleteRecord rid).2 })
      else
        (appendRecord x.log (.redoInsert txnId rid bs),
          { x with file := file, log := x.log ++ [.redoInsert txnId rid bs] })
  | (r, _, file) => (r, { x with file := file })

/-- The commit record of `DoInsert` and `DoDelete`, and `Txn::NextCurrentId` if the log takes it. -/
def commit (x : TableSession) (txnId : Int) : Re × TableSession :=
  let y := { x with log := x.log ++ [.redoMiniTxnCommit txnId] }
  match appendRecord x.log (.redoMiniTxnCommit txnId) with
  | .success => (.success, { y with globalTxnId := TxnMark.getNextGlobalTxnId x.globalTxnId })
  | r => (r, y)

/-- An INSERT; its transaction is made before its arguments are looked at. -/
def insert (m : TableMeta) (x : TableSession) (values : List Value) (heap : CString.Pointer) :
    TableAnswer × TableSession :=
  let txnId := TxnMark.getNextGlobalTxnId x.globalTxnId
  let x := { x with globalTxnId := txnId }
  match InsertStatement.handle m values with
  | .success =>
    match m.rowBytes values heap txnId with
    -- `MakeRecord` makes the same checks again, and its code is not looked at
    | .error r => (.code r, x)
    | .ok bs =>
      match x.insertRecord appendRecord txnId bs with
      | (r, x) =>
        if r ≠ .success then (.code r, x)
        else
          match x.commit appendRecord txnId with
          | (r, x) => (.code r, x)
  | r => (.code r, x)

end TableSession

/-- A DELETE on its way: the operators, `free_pages_`, the log. -/
structure DeleteState where
  scan : ScanState
  freePages : List PageId
  log : List LogEntry

/-- `DeleteOperator::Handle` with all that the handlers below it change; the log is reached once the record file has
deleted the record. -/
def DeleteState.loop (appendRecord : AppendRecord) (fuel : Nat) (passes : List UInt8 → Bool) (txnId : Int) :
    Nat → Nat → DeleteState → Option (Re × Nat × DeleteState)
  | 0, _, _ => none
  | n + 1, deleteCount, x =>
    match x.scan.predicateLoop fuel passes fuel with
    | none => none
    | some (r, scan) =>
      if r ≠ .success then some (.success, deleteCount, { x with scan := scan })
      else
        let e := .redoDelete txnId scan.currentRecord
        match scan.deleteRecord (some txnId) (fun _ => appendRecord x.log e) scan.currentRecord with
        | (r, scan') =>
          if (RecordFileHandler.deleteRecord scan.pool scan.currentRecord).1 ≠ .success then
            some (r, deleteCount, { x with scan := scan' })
          else if r ≠ .success then
            some (r, deleteCount, ⟨scan', x.freePages.insert scan.currentRecord.1, x.log ++ [e]⟩)
          else
            DeleteState.loop appendRecord fuel passes txnId n (deleteCount + 1)
              ⟨scan', x.freePages.insert scan.currentRecord.1, x.log ++ [e]⟩

namespace TableSession

variable (appendRecord : AppendRecord)

/-- Each page and each record is met once. -/
def fuel (x : TableSession) : Nat := x.file.pool.pagesNum + (rows x.file.pool).length + 1

def delete (x : TableSession) (passes : List UInt8 → Bool) : Option (TableAnswer × TableSession) :=
  let txnId := TxnMark.getNextGlobalTxnId x.globalTxnId
  match RecordFileScanner.init x.fuel x.file.pool with
  | none => none
  -- the code that `Init` returns is lost in `Table::GetRecordFileScanner`
  | some (_, pool, c) =>
    match DeleteState.loop appendRecord x.fuel passes txnId x.fuel 0
        ⟨⟨pool, c, (0, 0), fun _ => none⟩, x.file.freePages, x.log⟩ with
    | none => none
    | some (r, deleteCount, y) =>
      let x' : TableSession := ⟨{ x.file with pool := y.scan.pool, freePages := y.freePages }, txnId, y.log⟩
      if r ≠ .success then some (.code r, x')
      else
        match x'.commit appendRecord txnId with
        | (.success, x') => some (.deleted deleteCount, x')
        | (r, x') => some (.code r, x')

def select (snprintf : List UInt8 → List UInt8) (m : TableMeta) (x : TableSession) (passes : List UInt8 → Bool)
    (fields : List Field) : Option (TableAnswer × TableSession) :=
  match selectByScan snprintf x.fuel m passes fields x.file.pool with
  | none => none
  | some (.code .success, st) => some (.text st.response, { x with file := { x.file with pool := st.pool } })
  | some (.code r, st) => some (.code r, { x with file := { x.file with pool := st.pool } })
  | some (.notImplement, _) => none

/-- One statement; `none` for an order that is none of `free_pages_`. -/
def exec (snprintf : List UInt8 → List UInt8) (m : TableMeta) (x : TableSession) :
    TableStatement → Option (TableAnswer × TableSession)
  | .insert values heap => some (x.insert appendRecord m values heap)
  | .delete passes => x.delete appendRecord passes
  | .select passes fields => x.select snprintf m passes fields
  | .reorder free =>
    if free.Perm x.file.freePages then
      some (.code .success, { x with file := { x.file with freePages := free } })
    else none

def start (m : TableMeta) : TableSession := ⟨.empty m.recordSize.toNat, 0, []⟩

/-- The answers of the statements one after the other. -/
def run (snprintf : List UInt8 → List UInt8) (m : TableMeta) : TableSession → List TableStatement →
    Option (List TableAnswer × TableSession)
  | x, [] => some ([], x)
  | x, st :: sts =>
    match x.exec appendRecord snprintf m st with
    | none => none
    | some (a, y) => (run snprintf m y sts).map fun (as, z) => (a :: as, z)

end TableSession

/-! ## The rows of a file -/

namespace RecordPool

/-- The bytes of the live records, each as often as it is stored. -/
def contents (s : RecordPool) : Multiset (List UInt8) := ((rows s).map s.bytes : List (List UInt8))

variable {s s' : RecordPool} {rid : Slot} {bs : List UInt8}

theorem bytes_of_live (h : live s rid = some bs) : s.bytes rid = bs := by
  unfold RecordPool.live at h
  split at h
  · exact Option.some.inj h
  · cases h

theorem live_of_mem (hs : Scannable s) (h : rid ∈ rows s) : live s rid = some (s.bytes rid) := by
  obtain ⟨bs, hbs⟩ := Option.isSome_iff_exists.mp ((mem_rows hs.toReadable).mp h)
  rw [bytes_of_live hbs, hbs]

theorem nodup_rows : (rows s).Nodup := nodup_rowsFrom

theorem contents_insert (hs : Scannable s) (hs' : Scannable s') (hfree : live s rid = none)
    (h : live s' = Function.update (live s) rid (some bs)) : contents s' = bs ::ₘ contents s := by
  have hnot : rid ∉ rows s := fun hmem => by
    rw [live_of_mem hs hmem] at hfree
    cases hfree
  have hrows : (rows s').Perm (rid :: rows s) := by
    refine (List.perm_ext_iff_of_nodup nodup_rows (nodup_rows.cons hnot)).mpr fun r => ?_
    rw [List.mem_cons, mem_rows hs'.toReadable, mem_rows hs.toReadable, h]
    by_cases hr : r = rid
    · simp [hr]
    · simp [hr]
  have hmap := hrows.map s'.bytes
  have hbytes : (rows s).map s'.bytes = (rows s).map s.bytes := by
    refine List.map_congr_left fun r hr => ?_
    have hne : r ≠ rid := fun he => hnot (he ▸ hr)
    refine bytes_of_live ?_
    rw [h, Function.update_of_ne hne]
    exact live_of_mem hs hr
  have hown : s'.bytes rid = bs := bytes_of_live (by rw [h, Function.update_self])
  rw [List.map_cons, hbytes, hown] at hmap
  exact Multiset.coe_eq_coe.mpr hmap

theorem contents_delete (rids : List Slot) (hs : Scannable s) (hs' : Scannable s') (hnodup : rids.Nodup)
    (hlive : ∀ rid ∈ rids, (live s rid).isSome) (h : ∀ rid, live s' rid = if rid ∈ rids then none else live s rid) :
    contents s' + (rids.map s.bytes : List (List UInt8)) = contents s := by
  have hdisjoint : List.Disjoint (rows s') rids := by
    intro rid hrid hgone
    have hsome := (mem_rows hs'.toReadable).mp hrid
    rw [h, if_pos hgone] at hsome
    cases hsome
  have hrows : (rows s).Perm (rows s' ++ rids) := by
    refine (List.perm_ext_iff_of_nodup nodup_rows (nodup_rows.append hnodup hdisjoint)).mpr fun rid => ?_
    rw [List.mem_append, mem_rows hs.toReadable, mem_rows hs'.toReadable, h]
    by_cases hrid : rid ∈ rids
    · simp [hrid, hlive rid hrid]
    · simp [hrid]
  have hbytes : (rows s').map s'.bytes = (rows s').map s.bytes := by
    refine List.map_congr_left fun rid hrid => bytes_of_live ?_
    have hkept : rid ∉ rids := fun hgone => hdisjoint hrid hgone
    have hsome := (mem_rows hs'.toReadable).mp hrid
    rw [h, if_neg hkept] at hsome ⊢
    exact live_of_mem hs ((mem_rows hs.toReadable).mpr hsome)
  have hmap := hrows.map s.bytes
  rw [List.map_append, ← hbytes] at hmap
  exact Multiset.coe_eq_coe.mpr hmap.symm

theorem contents_of_live (hs : Scannable s) (hs' : Scannable s') (h : live s' = live s) :
    contents s' = contents s := by
  have hnone := contents_delete [] hs hs' List.nodup_nil nofun fun rid => by
    rw [h, if_neg List.not_mem_nil]
  rwa [List.map_nil, Multiset.coe_nil, Multiset.add_zero] at hnone

end RecordPool

end Idmbs
