import Idmbs.Storage.RecordScan
import Idmbs.Storage.RowOps

/-!
# Idmbs.Execute.DeleteOperator

`DELETE` as it is executed: `DeleteOperator` over `PredicateOperator` over `TableScanOperator`
(execute/*.cpp), on a table without indexes. The scanner is one record ahead of the record that is deleted.
-/

namespace Idmbs

open BitMap RecordPool

/-- What the operators of one statement share. -/
structure ScanState where
  pool : RecordPool
  scanner : RecordFileScanner
  /-- `current_record_` -/
  currentRecord : Slot
  /-- of the transaction, for the table -/
  operations : Txn.OperationSet

/-- The bytes of a record, where its page has them. -/
def RecordPool.bytes (s : RecordPool) (rid : Slot) : List UInt8 := (s.pageData rid.1).data rid.2

def Slot.recordId (rid : Slot) : RecordId := ⟨rid.1, rid.2⟩

namespace Txn

/-- The transaction id with the deleted flag, the sign bit. -/
def deletedTxnId (txnId : Int) : Int := if txnId < 0 then txnId else txnId - 2 ^ 31

/-- `SetRecordTxnId` of a record just deleted; a page that was given back has no bytes any more. -/
def markDeleted (txnId : Int) (ops : OperationSet) (s : RecordPool) (rid : Slot) : RecordPool :=
  if ops rid.recordId = none ∧ s.bitmap rid.1 = true then
    s.setData rid.1 ((s.pageData rid.1).setRecordData rid.2
      (setRecordTxnId (deletedTxnId txnId) (s.bytes rid)))
  else s

end Txn

namespace ScanState

/-- `Table::DeleteRecord` on a table without indexes; `clog` is the answer of the log. -/
def deleteRecord (txn : Option Int) (clog : RecordId → Re) (x : ScanState) (rid : Slot) : Re × ScanState :=
  match RecordFileHandler.deleteRecord x.pool rid with
  | (r, pool) =>
    if r ≠ .success then (r, { x with pool := pool })
    else
      match txn with
      | none => (.success, { x with pool := pool })
      | some txnId => (clog rid.recordId, { x with
          pool := Txn.markDeleted txnId x.operations pool rid
          operations := (Txn.deleteRecord x.operations rid.recordId).2 })

def tableScan (fuel : Nat) (x : ScanState) : Option (Re × ScanState) :=
  match x.scanner.nextRecord with
  | none => some (.recordEof, x)
  | some rid =>
    match RecordFileScanner.next fuel x.pool x.scanner with
    | none => none
    | some (r, pool, c) => some (r, { x with pool := pool, scanner := c, currentRecord := rid })

/-- `PredicateOperator::Handle`; `predicate` is the answer of `Predicate` for the bytes of a record. -/
def predicateLoop (fuel : Nat) (predicate : List UInt8 → Bool) : Nat → ScanState → Option (Re × ScanState)
  | 0, _ => none
  | n + 1, x =>
    match x.tableScan fuel with
    | none => none
    | some (r, x) =>
      if r ≠ .success then some (r, x)
      else if predicate (x.pool.bytes x.currentRecord) then some (.success, x)
      else predicateLoop fuel predicate n x

/-- `DeleteOperator::Handle` with the number of records it reports. -/
def deleteLoop (fuel : Nat) (predicate : List UInt8 → Bool) (txn : Option Int) (clog : RecordId → Re) :
    Nat → Nat → ScanState → Option (Re × Nat × ScanState)
  | 0, _, _ => none
  | n + 1, deleteCount, x =>
    match x.predicateLoop fuel predicate fuel with
    | none => none
    | some (r, x) =>
      if r ≠ .success then some (.success, deleteCount, x)
      else
        match x.deleteRecord txn clog x.currentRecord with
        | (r, x) =>
          if r ≠ .success then some (r, deleteCount, x)
          else deleteLoop fuel predicate txn clog n (deleteCount + 1) x

end ScanState

/-- `Init` and `Handle` of `DeleteOperator` over its operators. -/
def deleteStatement (fuel : Nat) (predicate : List UInt8 → Bool) (txn : Option Int) (clog : RecordId → Re)
    (ops : Txn.OperationSet) (s : RecordPool) : Option (Re × Nat × ScanState) :=
  match RecordFileScanner.init fuel s with
  | none => none
  -- `Table::GetRecordFileScanner` answers `Success` whatever code `Init` returns
  | some (_, pool, c) => ScanState.deleteLoop fuel predicate txn clog fuel 0 ⟨pool, c, (0, 0), ops⟩

/-! ## What a deletion changes -/

namespace RecordPool

/-- Only the state of page `p` in the file header may differ, and the page may be freed. -/
structure Touches (s s' : RecordPool) (p : PageId) : Prop where
  pageData : s'.pageData = s.pageData
  pagesNum : s'.pagesNum = s.pagesNum
  faults : s'.faults = s.faults
  bitmap : ∀ q, q ≠ p → s'.bitmap q = s.bitmap q
  own : s'.bitmap p = s.bitmap p ∨ s'.bitmap p = false
  waiting : ∀ q, q ≠ p → s'.disposedPages q = s.disposedPages q

/-- `s'` is `s` without the record `rid`; its page may be freed, now or later, once it is empty. -/
structure Deletes (s s' : RecordPool) (rid : Slot) : Prop where
  capacity : ∀ p, (s'.pageData p).recordCapacity = (s.pageData p).recordCapacity
  bits : ∀ p slot, (p, slot) ≠ rid → (s'.pageData p).bits slot = (s.pageData p).bits slot
  cleared : (s'.pageData rid.1).bits rid.2 = false
  bytes : ∀ r, r ≠ rid → s'.bytes r = s.bytes r
  pagesNum : s'.pagesNum = s.pagesNum
  faults : s'.faults = s.faults
  bitmap : ∀ p, s'.bitmap p = s.bitmap p ∨
    (s'.bitmap p = false ∧ p = rid.1 ∧ (s'.pageData p).slots = [])
  waiting : ∀ p, s'.disposedPages p = true → s.disposedPages p = true ∨
    (p = rid.1 ∧ (s'.pageData p).slots = [])

variable {s s' s'' : RecordPool} {p : PageId} {rid : Slot} {k slot : Nat}

theorem Touches.trans (h : Touches s s' p) (h' : Touches s' s'' p) : Touches s s'' p where
  pageData := h'.pageData.trans h.pageData
  pagesNum := h'.pagesNum.trans h.pagesNum
  faults := h'.faults.trans h.faults
  bitmap q hq := (h'.bitmap q hq).trans (h.bitmap q hq)
  own := by
    rcases h'.own with he | hf
    · rw [he]
      exact h.own
    · exact .inr hf
  waiting q hq := (h'.waiting q hq).trans (h.waiting q hq)

theorem touches_disposePage : Touches s (s.disposePage p).2 p := by
  unfold PagePool.disposePage
  split
  · exact ⟨rfl, rfl, rfl, fun _ _ => rfl, .inl rfl, fun q hq => by simp [Function.update_of_ne hq]⟩
  · exact ⟨rfl, rfl, rfl, fun q hq => by simp [Function.update_of_ne hq], .inr (by simp), fun _ _ => rfl⟩

theorem touches_released : Touches s (s.released p) p :=
  ⟨rfl, rfl, rfl, fun _ _ => rfl, .inl rfl, fun _ _ => rfl⟩

theorem touches_unpinPage : Touches s (s.unpinPage p) p := by
  unfold PagePool.unpinPage
  simp only
  split
  · have h := (touches_released (s := s) (p := p)).trans touches_disposePage
    exact ⟨h.pageData, h.pagesNum, h.faults, h.bitmap, h.own, fun q hq => by
      simp only [Function.update_of_ne hq]
      exact h.waiting q hq⟩
  · exact touches_released

theorem deletes_of_touches {g : RecordPage} (hcap : g.recordCapacity = (s.pageData rid.1).recordCapacity)
    (hbits : g.bits = Function.update (s.pageData rid.1).bits rid.2 false)
    (hdata : g.data = (s.pageData rid.1).data) (h : Touches (s.setData rid.1 g) s' rid.1)
    (hslots : g.slots = [] ∨ (s'.bitmap rid.1 = s.bitmap rid.1 ∧
      (s'.disposedPages rid.1 = true → s.disposedPages rid.1 = true))) : Deletes s s' rid := by
  have hown : s'.pageData rid.1 = g := by
    rw [h.pageData]
    exact Function.update_self _ _ _
  have hother {q : PageId} (hq : q ≠ rid.1) : s'.pageData q = s.pageData q := by
    rw [h.pageData]
    exact Function.update_of_ne hq _ _
  refine ⟨fun q => ?_, fun q slot hne => ?_, ?_, fun r hne => ?_, h.pagesNum, h.faults, fun q => ?_,
    fun q hq => ?_⟩
  · by_cases hq : q = rid.1
    · rw [hq, hown, hcap]
    · rw [hother hq]
  · by_cases hq : q = rid.1
    · subst hq
      rw [hown, hbits, Function.update_of_ne]
      exact fun he => hne (Prod.ext rfl he)
    · rw [hother hq]
  · rw [hown, hbits, Function.update_self]
  · unfold RecordPool.bytes
    by_cases hq : r.1 = rid.1
    · rw [hq, hown, hdata]
    · rw [hother hq]
  · by_cases hq : q = rid.1
    · subst hq
      rcases hslots with hempty | ⟨hsame, -⟩
      · rcases h.own with he | hf
        · exact .inl he
        · exact .inr ⟨hf, rfl, by rw [hown]; exact hempty⟩
      · exact .inl hsame
    · exact .inl (h.bitmap q hq)
  · by_cases hq' : q = rid.1
    · subst hq'
      rcases hslots with hempty | ⟨-, hsame⟩
      · exact .inr ⟨rfl, by rw [hown]; exact hempty⟩
      · exact .inl (hsame hq)
    · rw [h.waiting q hq'] at hq
      exact .inl hq

theorem deleteRecord_spec (hs : Scannable s) (h : (live s rid).isSome) :
    ∃ s', RecordFileHandler.deleteRecord s rid = (.success, s') ∧ Deletes s s' rid := by
  unfold RecordPool.live at h
  split at h
  · rename_i hlive
    obtain ⟨hbit, -, hmem⟩ := hlive
    obtain ⟨-, hcap, hset⟩ := mem_bitsFrom.mp hmem
    have hget := getPage_pinned hs.toReadable (hs.bounded _ hbit)
    have hcap' : rid.2 < ((s.pinned rid.1).pageData rid.1).recordCapacity := hcap
    have hset' : ((s.pinned rid.1).pageData rid.1).bits rid.2 = true := hset
    unfold RecordFileHandler.deleteRecord RecordPageHandler.deleteRecord
    simp only [hget, ne_eq, not_true_eq_false, if_false, dif_pos hcap', dif_pos hset']
    obtain ⟨g, hg⟩ : ∃ g, ((s.pinned rid.1).pageData rid.1).clearBit rid.2 hcap' hset' = g := ⟨_, rfl⟩
    rw [hg]
    have hwritten : Touches (s.setData rid.1 g) (((s.pinned rid.1).setData rid.1 g).dirtyMark rid.1) rid.1 :=
      ⟨rfl, rfl, rfl, fun _ _ => rfl, .inl rfl, fun _ _ => rfl⟩
    split
    · rename_i hzero
      refine ⟨_, rfl, deletes_of_touches (g := g) (by rw [← hg]; rfl) (by rw [← hg]; rfl) (by rw [← hg]; rfl)
        ((hwritten.trans touches_unpinPage).trans touches_disposePage) (.inl ?_)⟩
      exact g.recordNum_eq_zero_iff.mp hzero
    · exact ⟨_, rfl, deletes_of_touches (g := g) (by rw [← hg]; rfl) (by rw [← hg]; rfl) (by rw [← hg]; rfl)
        hwritten (.inr ⟨rfl, id⟩)⟩
  · cases h

/-- Writing over the bytes of the deleted record is no further change. -/
theorem Deletes.markDeleted {txnId : Int} {ops : Txn.OperationSet} (h : Deletes s s' rid) :
    Deletes s (Txn.markDeleted txnId ops s' rid) rid := by
  unfold Txn.markDeleted
  split
  · obtain ⟨g, hg⟩ : ∃ g, (s'.pageData rid.1).setRecordData rid.2
        (Txn.setRecordTxnId (Txn.deletedTxnId txnId) (RecordPool.bytes s' rid)) = g := ⟨_, rfl⟩
    have hcap : g.recordCapacity = (s'.pageData rid.1).recordCapacity := by rw [← hg]; rfl
    have hbits : g.bits = (s'.pageData rid.1).bits := by rw [← hg]; rfl
    have hdata : ∀ slot, slot ≠ rid.2 → g.data slot = (s'.pageData rid.1).data slot := fun slot hne => by
      rw [← hg]
      exact Function.update_of_ne hne _ _
    rw [hg]
    have hpage (q : PageId) : ((s'.setData rid.1 g).pageData q).recordCapacity = (s'.pageData q).recordCapacity ∧
        ((s'.setData rid.1 g).pageData q).bits = (s'.pageData q).bits := by
      by_cases hq : q = rid.1
      · subst hq
        simp only [PagePool.setData, Function.update_self]
        exact ⟨hcap, hbits⟩
      · simp only [PagePool.setData, Function.update_of_ne hq, and_self]
    have hslots (q : PageId) : ((s'.setData rid.1 g).pageData q).slots = (s'.pageData q).slots := by
      unfold RecordPage.slots
      rw [(hpage q).1, (hpage q).2]
    refine ⟨fun q => (hpage q).1.trans (h.capacity q), fun q slot hne => ?_, ?_, fun r hne => ?_, h.pagesNum,
      h.faults, fun q => ?_, fun q hq => ?_⟩
    · rw [(hpage q).2]
      exact h.bits q slot hne
    · rw [(hpage rid.1).2]
      exact h.cleared
    · rw [← h.bytes r hne]
      unfold RecordPool.bytes
      by_cases hq : r.1 = rid.1
      · have hslot : r.2 ≠ rid.2 := fun he => hne (Prod.ext hq he)
        rw [hq]
        simp only [PagePool.setData, Function.update_self]
        exact hdata r.2 hslot
      · simp only [PagePool.setData, Function.update_of_ne hq]
    · rw [hslots q]
      exact h.bitmap q
    · rw [hslots q]
      exact h.waiting q hq
  · exact h

theorem Deletes.mem_slots (h : Deletes s s' rid) :
    slot ∈ (s'.pageData p).slots ↔ slot ∈ (s.pageData p).slots ∧ (p, slot) ≠ rid := by
  unfold RecordPage.slots
  rw [mem_bitsFrom, mem_bitsFrom, h.capacity]
  by_cases he : (p, slot) = rid
  · subst he
    simp [h.cleared]
  · simp [h.bits p slot he, he]

theorem Deletes.bit (h : Deletes s s' rid) (hp : s'.bitmap p = true) : s.bitmap p = true := by
  rcases h.bitmap p with he | ⟨hf, -, -⟩
  · rw [← he]
    exact hp
  · rw [hp] at hf
    cases hf

theorem Deletes.keeps_bit (h : Deletes s s' rid) (hp : s.bitmap p = true)
    (hmem : slot ∈ (s'.pageData p).slots) : s'.bitmap p = true := by
  rcases h.bitmap p with he | ⟨-, -, hempty⟩
  · rw [he]
    exact hp
  · rw [hempty] at hmem
    cases hmem

theorem Deletes.scannable (hs : Scannable s) (h : Deletes s s' rid) (hne : rid.1 ≠ PagePool.headerPage) :
    Scannable s' where
  faults := h.faults.trans hs.faults
  bounded p hp := by
    rw [h.pagesNum]
    exact hs.bounded p (h.bit hp)
  header := by
    rcases h.bitmap PagePool.headerPage with he | ⟨-, hp, -⟩
    · exact he.trans hs.header
    · exact absurd hp.symm hne
  waiting p hp hbit hw := by
    rcases h.waiting p hw with hold | ⟨-, hempty⟩
    · have hnil := hs.waiting p hp (h.bit hbit) hold
      refine List.eq_nil_iff_forall_not_mem.mpr fun slot hslot => ?_
      rw [h.mem_slots, hnil] at hslot
      exact absurd hslot.1 List.not_mem_nil
    · exact hempty

theorem Deletes.live (h : Deletes s s' rid) : live s' = Function.update (live s) rid none := by
  funext r
  by_cases hr : r = rid
  · subst hr
    rw [Function.update_self]
    refine if_neg fun hlive => ?_
    exact (h.mem_slots.mp hlive.2.2).2 rfl
  · rw [Function.update_of_ne hr]
    have hmem : r.2 ∈ (s'.pageData r.1).slots ↔ r.2 ∈ (s.pageData r.1).slots :=
      h.mem_slots.trans (and_iff_left hr)
    have hbytes := h.bytes r hr
    unfold RecordPool.bytes at hbytes
    unfold RecordPool.live
    rw [hbytes]
    refine if_congr ⟨fun hl => ?_, fun hl => ?_⟩ rfl rfl
    · exact ⟨h.bit hl.1, hl.2.1, hmem.mp hl.2.2⟩
    · exact ⟨h.keeps_bit hl.1 (hmem.mpr hl.2.2), hl.2.1, hmem.mpr hl.2.2⟩

theorem Deletes.bitsFrom (h : Deletes s s' rid) (hk : rid.1 = p → rid.2 < k) :
    bitsFrom (s'.pageData p).bits (s'.pageData p).recordCapacity k =
      bitsFrom (s.pageData p).bits (s.pageData p).recordCapacity k := by
  rw [h.capacity]
  refine bitsFrom_congr fun i hi _ => h.bits p i fun he => ?_
  subst he
  exact absurd (hk rfl) (Nat.not_lt.mpr hi)

theorem Deletes.rowsFrom (h : Deletes s s' rid) (hk : rid.1 < k) : rowsFrom s' k = rowsFrom s k := by
  unfold RecordPool.rowsFrom
  have hne {q : PageId} (hq : k ≤ q) : q ≠ rid.1 := Nat.ne_of_gt (Nat.lt_of_lt_of_le hk hq)
  have hpages : BitMap.bitsFrom s'.bitmap s'.pagesNum k = BitMap.bitsFrom s.bitmap s.pagesNum k := by
    rw [h.pagesNum]
    refine bitsFrom_congr fun q hq _ => ?_
    rcases h.bitmap q with he | ⟨-, he, -⟩
    · exact he
    · exact absurd he (hne hq)
  rw [hpages]
  refine List.flatMap_congr fun q hq => ?_
  unfold slotsFrom
  rw [h.bitsFrom fun he => absurd he.symm (hne (mem_bitsFrom.mp hq).1)]

/-- A record that the scanner has behind it can go. -/
theorem Deletes.ahead {c : RecordFileScanner} {rows : List Slot} (hs : Scannable s) (h : Deletes s s' rid)
    (hlive : (RecordPool.live s rid).isSome) (hrid : rid ∉ rows) (ha : RecordFileScanner.Ahead s c rows) :
    RecordFileScanner.Ahead s' c rows := by
  cases ha with
  | done hnone => exact .done hnone
  | @next p slot hnext hat hmem =>
    have hne : (p, slot) ≠ rid := fun he => hrid (he ▸ List.mem_cons_self)
    have hmem' : slot ∈ (s'.pageData p).slots := h.mem_slots.mpr ⟨hmem, hne⟩
    have hslots : rid ∈ slotsFrom s rid.1 rid.2 ∧ rid.1 < s.pagesNum ∧ s.bitmap rid.1 = true ∧
        rid.2 ∈ (s.pageData rid.1).slots := by
      unfold RecordPool.live at hlive
      split at hlive
      · rename_i hl
        exact ⟨mem_slotsFrom.mpr ⟨rfl, le_rfl, hl.2.2⟩, hs.bounded _ hl.1, hl.1, hl.2.2⟩
      · cases hlive
    have hpage : rid.1 < p + 1 := by
      by_contra hge
      refine hrid (List.mem_cons_of_mem _ (List.mem_append_right _ ?_))
      exact mem_rowsFrom.mpr ⟨Nat.le_of_not_lt hge, hslots.2⟩
    have hslot : rid.1 = p → rid.2 < slot + 1 := fun he => by
      by_contra hge
      refine hrid (List.mem_cons_of_mem _ (List.mem_append_left _ ?_))
      exact mem_slotsFrom.mpr ⟨he, Nat.le_of_not_lt hge, he ▸ hslots.2.2.2⟩
    have hlist : (p, slot) :: (slotsFrom s p (slot + 1) ++ RecordPool.rowsFrom s (p + 1)) =
        (p, slot) :: (slotsFrom s' p (slot + 1) ++ RecordPool.rowsFrom s' (p + 1)) := by
      rw [h.rowsFrom hpage]
      unfold slotsFrom
      rw [h.bitsFrom hslot]
    rw [hlist]
    refine .next hnext ⟨hat.pagesNum.trans h.pagesNum.symm, hat.current, hat.handler, hat.notHeader,
      h.keeps_bit hat.bit hmem', ?_⟩ hmem'
    rw [h.bitsFrom hslot, h.capacity]
    exact hat.iterator

end RecordPool

/-! ## The statement -/

namespace ScanState

open RecordFileScanner

variable {x : ScanState} {rid : Slot} {rest : List Slot} {clog : RecordId → Re} (fuel : Nat)
  (predicate : List UInt8 → Bool) (txn : Option Int)

theorem deleteRecord_spec (hs : Scannable x.pool) (h : (live x.pool rid).isSome)
    (hclog : ∀ rid, clog rid = .success) : ∃ x', x.deleteRecord txn clog rid = (.success, x') ∧
      Deletes x.pool x'.pool rid ∧ x'.scanner = x.scanner := by
  obtain ⟨s', hrun, hdel⟩ := RecordPool.deleteRecord_spec hs h
  unfold deleteRecord
  simp only [hrun, ne_eq, not_true_eq_false, if_false]
  cases txn with
  | none => exact ⟨_, rfl, hdel, rfl⟩
  | some txnId =>
    simp only [hclog]
    exact ⟨_, rfl, hdel.markDeleted, rfl⟩

/-- The predicate passes over the records in front of the first that it takes. -/
theorem predicateLoop_spec (n : Nat) (hs : Scannable x.pool) (ha : Ahead x.pool x.scanner rest)
    (hfuel : x.pool.pagesNum < fuel) (hn : rest.length < n) :
    ∃ r x', x.predicateLoop fuel predicate n = some (r, x') ∧ Frees x.pool x'.pool ∧
      ((r = .recordEof ∧ ∀ rid ∈ rest, predicate (x.pool.bytes rid) = false) ∨
      (r = .success ∧ ∃ pre rid post, rest = pre ++ rid :: post ∧
        (∀ rid ∈ pre, predicate (x.pool.bytes rid) = false) ∧ predicate (x.pool.bytes rid) = true ∧
        x'.currentRecord = rid ∧ Ahead x'.pool x'.scanner post)) := by
  induction n generalizing x rest with
  | zero => exact absurd hn (Nat.not_lt_zero _)
  | succ n ih =>
    cases rest with
    | nil =>
      have hend : x.scanner.nextRecord = none := by
        cases ha with
        | done h => exact h
      refine ⟨.recordEof, x, ?_, .refl, .inl ⟨rfl, fun _ h => nomatch h⟩⟩
      simp only [predicateLoop, tableScan, hend, ne_eq, reduceCtorEq, not_false_eq_true, if_true]
    | cons rid rest =>
      obtain ⟨hnext, s', c', hrun, hfrees, ha'⟩ := next_spec fuel hs ha hfuel
      obtain ⟨x1, hx1⟩ : ∃ x1 : ScanState, { x with pool := s', scanner := c', currentRecord := rid } = x1 :=
        ⟨_, rfl⟩
      have hpool : x1.pool = s' := by rw [← hx1]
      have hscanner : x1.scanner = c' := by rw [← hx1]
      have hcurrent : x1.currentRecord = rid := by rw [← hx1]
      have hbytes (r : Slot) : x1.pool.bytes r = x.pool.bytes r := by
        rw [hpool, RecordPool.bytes, hfrees.pageData]
        rfl
      have hstep : x.predicateLoop fuel predicate (n + 1) =
          if predicate (x1.pool.bytes x1.currentRecord) then some (.success, x1)
          else x1.predicateLoop fuel predicate n := by
        simp only [predicateLoop, tableScan, hnext, hrun, hx1, ne_eq, not_true_eq_false, if_false]
      rw [← hpool] at hfrees ha'
      rw [← hscanner] at ha'
      rw [hstep, hcurrent, hbytes]
      by_cases hp : predicate (x.pool.bytes rid) = true
      · rw [if_pos hp]
        refine ⟨.success, x1, rfl, hfrees, .inr ⟨rfl, [], rid, rest, rfl, ?_, hp, hcurrent, ha'⟩⟩
        intro r hr
        cases hr
      · rw [if_neg hp]
        have hfalse := eq_false_of_ne_true hp
        obtain ⟨r, x', hloop, hfrees', hcases⟩ := ih (hs.frees hfrees) ha' (by rw [hfrees.pagesNum]; exact hfuel)
          (Nat.lt_of_succ_lt_succ hn)
        refine ⟨r, x', hloop, hfrees.trans hfrees', ?_⟩
        rcases hcases with ⟨hr, hall⟩ | ⟨hr, pre, rid', post, hrest, hpre, htake, hcur, hahead⟩
        · refine .inl ⟨hr, List.forall_mem_cons.mpr ⟨hfalse, fun r hr => ?_⟩⟩
          rw [← hbytes]
          exact hall r hr
        · refine .inr ⟨hr, rid :: pre, rid', post, by rw [hrest]; rfl,
            List.forall_mem_cons.mpr ⟨hfalse, fun r hr => ?_⟩, ?_, hcur, hahead⟩
          · rw [← hbytes]
            exact hpre r hr
          · rw [← hbytes]
            exact htake

/-- The loop deletes what the predicate takes of the records that are ahead. -/
theorem deleteLoop_spec (n deleteCount : Nat) (hs : Scannable x.pool) (ha : Ahead x.pool x.scanner rest)
    (hnodup : rest.Nodup) (hlive : ∀ rid ∈ rest, (live x.pool rid).isSome)
    (hclog : ∀ rid, clog rid = .success) (hfuel : x.pool.pagesNum < fuel) (hfuel' : rest.length < fuel)
    (hn : rest.length < n) :
    ∃ x', x.deleteLoop fuel predicate txn clog n deleteCount = some (.success,
        deleteCount + (rest.filter fun rid => predicate (x.pool.bytes rid)).length, x') ∧
      live x'.pool = fun rid => if rid ∈ rest ∧ predicate (x.pool.bytes rid) then none else live x.pool rid := by
  induction n generalizing x rest deleteCount with
  | zero => exact absurd hn (Nat.not_lt_zero _)
  | succ n ih =>
    obtain ⟨r, x1, hloop, hfrees, hcases⟩ := predicateLoop_spec fuel predicate fuel hs ha hfuel hfuel'
    have hbytes1 (r : Slot) : x1.pool.bytes r = x.pool.bytes r := by
      rw [RecordPool.bytes, hfrees.pageData]
      rfl
    unfold deleteLoop
    rcases hcases with ⟨rfl, hall⟩ | ⟨rfl, pre, rid, post, rfl, hpre, htake, hcurrent, ha1⟩
    · simp only [hloop, ne_eq, reduceCtorEq, not_false_eq_true, if_true]
      have hnone : (rest.filter fun rid => predicate (x.pool.bytes rid)) = [] :=
        List.filter_eq_nil_iff.mpr fun rid hrid => by rw [hall rid hrid]; exact Bool.false_ne_true
      refine ⟨x1, by rw [hnone]; rfl, ?_⟩
      funext rid
      rw [hfrees.live, if_neg]
      rintro ⟨hmem, htake⟩
      rw [hall rid hmem] at htake
      cases htake
    · have hlive1 : (live x1.pool rid).isSome := by
        rw [hfrees.live]
        exact hlive rid (List.mem_append_right _ List.mem_cons_self)
      obtain ⟨x2, hdelete, hdel, hscanner⟩ := deleteRecord_spec txn (hs.frees hfrees) hlive1 hclog
      have hnotin : rid ∉ post := (List.nodup_cons.mp (List.nodup_append.mp hnodup).2.1).1
      have hheader : rid.1 ≠ PagePool.headerPage := by
        unfold RecordPool.live at hlive1
        split at hlive1
        · rename_i h
          exact h.2.1
        · cases hlive1
      have ha2 : Ahead x2.pool x2.scanner post := by
        rw [hscanner]
        exact hdel.ahead (hs.frees hfrees) hlive1 hnotin ha1
      have hne {r : Slot} (hr : r ∈ post) : r ≠ rid := fun he => hnotin (he ▸ hr)
      have hbytes2 {r : Slot} (hr : r ∈ post) : x2.pool.bytes r = x.pool.bytes r :=
        (hdel.bytes r (hne hr)).trans (hbytes1 r)
      have hlive2 (r : Slot) (hr : r ∈ post) : (live x2.pool r).isSome := by
        rw [hdel.live, Function.update_of_ne (hne hr), hfrees.live]
        exact hlive r (List.mem_append_right _ (List.mem_cons_of_mem _ hr))
      simp only [List.length_append, List.length_cons] at hn hfuel'
      obtain ⟨x', hrun, hfinal⟩ := ih (deleteCount + 1) (hdel.scannable (hs.frees hfrees) hheader) ha2
        (List.nodup_cons.mp (List.nodup_append.mp hnodup).2.1).2 hlive2
        (by rw [hdel.pagesNum, hfrees.pagesNum]; exact hfuel) (by omega) (by omega)
      simp only [hloop, hcurrent, hdelete, ne_eq, not_true_eq_false, if_false]
      refine ⟨x', ?_, ?_⟩
      · have hprefix : (pre.filter fun rid => predicate (x.pool.bytes rid)) = [] :=
          List.filter_eq_nil_iff.mpr fun rid hrid => by rw [hpre rid hrid]; exact Bool.false_ne_true
        have hsuffix : (post.filter fun rid => predicate (x2.pool.bytes rid)) =
            post.filter fun rid => predicate (x.pool.bytes rid) :=
          List.filter_congr fun r hr => by rw [hbytes2 hr]
        rw [hrun, hsuffix, List.filter_append, hprefix, List.nil_append, List.filter_cons, if_pos htake,
          List.length_cons]
        congr 3
        omega
      · rw [hfinal, hdel.live, hfrees.live]
        funext r
        by_cases hr : r = rid
        · subst hr
          rw [Function.update_self, ite_self]
          exact (if_pos ⟨List.mem_append_right _ List.mem_cons_self, htake⟩).symm
        · rw [Function.update_of_ne hr]
          refine if_congr ⟨fun h => ?_, fun h => ?_⟩ rfl rfl
          · rw [hbytes2 h.1] at h
            exact ⟨List.mem_append_right _ (List.mem_cons_of_mem _ h.1), h.2⟩
          · rcases List.mem_append.mp h.1 with hin | hin
            · have := h.2
              rw [hpre r hin] at this
              cases this
            · have hin := (List.mem_cons.mp hin).resolve_left hr
              rw [hbytes2 hin]
              exact ⟨hin, h.2⟩

end ScanState

/-- `DELETE` takes the records that the predicate takes, leaves the others and reports the number. -/
theorem deleteStatement_exact (s : RecordPool) (hs : Scannable s) (predicate : List UInt8 → Bool)
    (txn : Option Int) (clog : RecordId → Re) (ops : Txn.OperationSet) (hclog : ∀ rid, clog rid = .success)
    (fuel : Nat) (hfuel : s.pagesNum + (rows s).length < fuel) :
    ∃ x, deleteStatement fuel predicate txn clog ops s = some (.success,
        ((rows s).filter fun rid => predicate (s.bytes rid)).length, x) ∧
      ∀ rid, live x.pool rid = (live s rid).filter fun bs => !predicate bs := by
  obtain ⟨s', c', hinit, hfrees, ha⟩ := RecordFileScanner.init_spec fuel hs (by omega)
  have hbytes (r : Slot) : RecordPool.bytes s' r = RecordPool.bytes s r := by
    rw [RecordPool.bytes, hfrees.pageData]
    rfl
  obtain ⟨x, hrun, hfinal⟩ := ScanState.deleteLoop_spec (x := ⟨s', c', (0, 0), ops⟩) fuel predicate txn
    fuel 0 (hs.frees hfrees) ha nodup_rowsFrom
    (fun rid hrid => by rw [hfrees.live]; exact (mem_rows hs.toReadable).mp hrid) hclog
    (by rw [hfrees.pagesNum]; omega) (by omega) (by omega)
  refine ⟨x, ?_, fun rid => ?_⟩
  · unfold deleteStatement
    simp only [hinit, hrun, hbytes, Nat.zero_add]
  · rw [hfinal]
    simp only [hbytes, mem_rows hs.toReadable, hfrees.live]
    cases hl : live s rid with
    | none => simp
    | some bs =>
      have hbs : RecordPool.bytes s rid = bs := by
        unfold RecordPool.live at hl
        split at hl
        · exact Option.some.inj hl
        · cases hl
      simp only [hbs, Option.isSome_some, true_and, Option.filter_some]
      cases predicate bs <;> rfl

/-- A file with one page of two records. -/
def twoRows : RecordPool where
  pageData := fun _ => ⟨2, fun slot => slot < 2, fun slot => [UInt8.ofNat slot], 2, by decide⟩
  pinCount := fun _ => 0
  dirty := fun _ => false
  bitmap := fun p => p < 2
  pagesNum := 2
  allocatedPagesNum := 2
  disposedPages := fun _ => false
  faults := []
  noBuf := false
  aborted := false

theorem twoRows_scannable : Scannable twoRows where
  faults := rfl
  bounded _ h := of_decide_eq_true h
  header := rfl
  waiting _ _ _ h := nomatch h

/-- The second of the two records goes. -/
theorem deleteStatement_exact_twoRows :
    ∃ x, deleteStatement 5 (fun bs => bs == [1]) (some 7) (fun _ => .success) (fun _ => none) twoRows =
        some (.success, 1, x) ∧
      ∀ rid, live x.pool rid = (live twoRows rid).filter fun bs => !(bs == [1]) :=
  deleteStatement_exact twoRows twoRows_scannable (fun bs => bs == [1]) (some 7) (fun _ => .success)
    (fun _ => none) (fun _ => rfl) 5 (by decide)

end Idmbs
