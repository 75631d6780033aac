import Idmbs.Lib.Bytes
import Idmbs.Storage.CreateIndex
import Mathlib.Data.Finset.Basic

/-!
# Idmbs.Storage.RowOps

`Table::InsertRecord` and `Table::DeleteRecord` with the parts they change in turn: the record file, the
indexes, the operation set of the transaction for the table (storage/txn.cpp), the log. Each part may be
out of order and then answers every call with a code of its own. An index that fails on the way may have
changed its entries by then, as `BplusTreeHandler::InsertEntry` does behind a `Split`; the other parts change
nothing. `InsertAtomic` and `DeleteAtomic` say when a call that fails leaves everything as it was.
-/

namespace Idmbs

/-- A code other than `Success`. -/
abbrev ReError := { r : Re // r ≠ .success }

/-! ## The transaction -/

namespace Txn

inductive OperationType where
  | insert | update | delete | undefined
  deriving DecidableEq, Repr

/-- The operations of one table; a record id has one at most. -/
abbrev OperationSet := RecordId → Option OperationType

/-- `SetRecordTxnId` on the bytes of a record, whose first field is the transaction's. -/
def setRecordTxnId (txnId : Int) (data : List UInt8) : List UInt8 := Bytes.encode 4 txnId ++ data.drop 4

def insertOperation (ops : OperationSet) (t : OperationType) (rid : RecordId) : OperationSet :=
  match ops rid with
  | some _ => ops
  | none => Function.update ops rid (some t)

def deleteOperation (ops : OperationSet) (rid : RecordId) : OperationSet := Function.update ops rid none

def insertRecord (ops : OperationSet) (rid : RecordId) : Re × OperationSet :=
  match ops rid with
  | none => (.success, insertOperation ops .insert rid)
  | some .delete => (.success, insertOperation (deleteOperation ops rid) .insert rid)
  | some _ => (.genericError, ops)

def deleteRecord (ops : OperationSet) (rid : RecordId) : Re × OperationSet :=
  match ops rid with
  | none => (.success, insertOperation ops .delete rid)
  | some .insert => (.success, deleteOperation ops rid)
  | some _ => (.genericError, ops)

/-- The transaction does not take the insertion of `rid`. -/
def Refuses (ops : OperationSet) (rid : RecordId) : Prop := ops rid ≠ none ∧ ops rid ≠ some .delete

variable {ops : OperationSet} {rid : RecordId}

theorem insertRecord_refused (h : Refuses ops rid) : insertRecord ops rid = (.genericError, ops) := by
  obtain ⟨hnone, hdelete⟩ := h
  unfold insertRecord
  cases ho : ops rid with
  | none => exact absurd ho hnone
  | some t =>
    cases t with
    | delete => exact absurd ho hdelete
    | insert => rfl
    | update => rfl
    | undefined => rfl

/-- What the transaction takes it also notes down. -/
theorem insertRecord_taken (h : ¬Refuses ops rid) :
    (insertRecord ops rid).1 = .success ∧ (insertRecord ops rid).2 rid = some .insert ∧
      ops rid ≠ some .insert := by
  unfold Refuses at h
  unfold insertRecord insertOperation deleteOperation
  cases ho : ops rid with
  | none => exact ⟨rfl, by simp, by simp⟩
  | some t =>
    cases t with
    | delete => exact ⟨rfl, by simp, by simp⟩
    | insert => exact absurd ⟨by simp [ho], by simp [ho]⟩ h
    | update => exact absurd ⟨by simp [ho], by simp [ho]⟩ h
    | undefined => exact absurd ⟨by simp [ho], by simp [ho]⟩ h

end Txn

/-! ## The indexes -/

/-- What a call of an index that is out of order answers, and the entries that it leaves. -/
structure IndexFault (ε : Type) where
  code : ReError
  entries : Finset ε

/-- The entries of an index, each a key with a record id. -/
structure IndexEntries (ε : Type) where
  entries : Finset ε
  insertFault : Option (IndexFault ε)
  deleteFault : Option (IndexFault ε)

section Indexes

variable {ε : Type} [DecidableEq ε] (entryOf : FieldMeta → List UInt8 → RecordId → ε)

namespace Index

/-- The entry of a record: the key starts at the field's offset. -/
def entry (i : Index (IndexEntries ε)) (record : List UInt8) (rid : RecordId) : ε :=
  entryOf i.fieldMeta (record.drop i.fieldMeta.offset.toNat) rid

def withEntries (i : Index (IndexEntries ε)) (es : Finset ε) : Index (IndexEntries ε) :=
  { i with contents := { i.contents with entries := es } }

def insertEntry (i : Index (IndexEntries ε)) (record : List UInt8) (rid : RecordId) :
    Re × Index (IndexEntries ε) :=
  match i.contents.insertFault with
  | some f => (f.code, i.withEntries f.entries)
  | none =>
    if i.entry entryOf record rid ∈ i.contents.entries then (.recordDuplicateKey, i)
    else (.success, i.withEntries (insert (i.entry entryOf record rid) i.contents.entries))

def deleteEntry (i : Index (IndexEntries ε)) (record : List UInt8) (rid : RecordId) :
    Re × Index (IndexEntries ε) :=
  match i.contents.deleteFault with
  | some f => (f.code, i.withEntries f.entries)
  | none =>
    if i.contents.entries = ∅ then (.empty, i)
    else if i.entry entryOf record rid ∈ i.contents.entries then
      (.success, i.withEntries (i.contents.entries.erase (i.entry entryOf record rid)))
    else (.recordRecordNotExist, i)

end Index

def insertEntryOfIndexes (record : List UInt8) (rid : RecordId) :
    List (Index (IndexEntries ε)) → Re × List (Index (IndexEntries ε))
  | [] => (.success, [])
  | i :: is =>
    match i.insertEntry entryOf record rid with
    | (r, i') =>
      if r ≠ .success then (r, i' :: is)
      else
        match insertEntryOfIndexes record rid is with
        | (r, is') => (r, i' :: is')

/-- `DeleteEntryOfIndexes`; `r` is the code of the index before. -/
def deleteEntryOfIndexes (record : List UInt8) (rid : RecordId) (notExistsError : Bool) (r : Re) :
    List (Index (IndexEntries ε)) → Re × List (Index (IndexEntries ε))
  | [] => (r, [])
  | i :: is =>
    match i.deleteEntry entryOf record rid with
    | (r, i') =>
      if r ≠ .success ∧ (r ≠ .recordInvalidKey ∨ ¬notExistsError) then (r, i' :: is)
      else
        match deleteEntryOfIndexes record rid notExistsError r is with
        | (r, is') => (r, i' :: is')

end Indexes

/-! ## The table -/

/-- A table with its record file, the operations of the running transaction on it, and the log. -/
structure TableState (ε : Type) where
  indexes : List (Index (IndexEntries ε))
  /-- the live records -/
  records : RecordId → Option (List UInt8)
  recordInsertFault : Option ReError
  recordDeleteFault : Option ReError
  operations : Txn.OperationSet
  clogMakeFault : Option ReError
  clogAppendFault : Option ReError

namespace TableState

variable {ε : Type} [DecidableEq ε] (entryOf : FieldMeta → List UInt8 → RecordId → ε)

def recordDelete (s : TableState ε) (rid : RecordId) : Re × TableState ε :=
  match s.recordDeleteFault with
  | some r => (r, s)
  | none =>
    match s.records rid with
    | none => (.recordRecordNotExist, s)
    | some _ => (.success, { s with records := Function.update s.records rid none })

/-- `MakeRecord` and `AppendRecord` of the log. -/
def appendClog (s : TableState ε) : Re :=
  match s.clogMakeFault with
  | some r => r
  | none =>
    match s.clogAppendFault with
    | some r => r
    | none => .success

/-- The end of `InsertRecord`: the indexes, then the log. -/
def insertIndexed (txn : Option Int) (record : List UInt8) (rid : RecordId) (s : TableState ε) :
    Re × TableState ε :=
  match insertEntryOfIndexes entryOf record rid s.indexes with
  | (r, is) =>
    if r ≠ .success then
      let s := { s with indexes := (deleteEntryOfIndexes entryOf record rid true .success is).2 }
      (r, (s.recordDelete rid).2)
    else
      match txn with
      | none => (.success, { s with indexes := is })
      | some _ => (s.appendClog, { s with indexes := is })

/-- `InsertRecord`; `rid` is the slot that the record file finds free. -/
def insertRecord (s : TableState ε) (txn : Option Int) (record : List UInt8)
    (rid : { rid : RecordId // s.records rid = none }) : Re × TableState ε :=
  let record := match txn with
    | none => record
    | some txnId => Txn.setRecordTxnId txnId record
  match s.recordInsertFault with
  | some r => (r, s)
  | none =>
    let s' := { s with records := Function.update s.records rid (some record) }
    match txn with
    | none => s'.insertIndexed entryOf txn record rid
    | some _ =>
      match Txn.insertRecord s.operations rid with
      | (r, ops) =>
        if r ≠ .success then (r, (s'.recordDelete rid).2)
        else { s' with operations := ops }.insertIndexed entryOf txn record rid

/-- `DeleteRecord`; what the transaction answers is not looked at. -/
def deleteRecord (s : TableState ε) (txn : Option Int) (record : List UInt8) (rid : RecordId) :
    Re × TableState ε :=
  match deleteEntryOfIndexes entryOf record rid false .success s.indexes with
  | (r, is) =>
    if r ≠ .success then (r, { s with indexes := is })
    else
      match { s with indexes := is }.recordDelete rid with
      | (r, s) =>
        if r ≠ .success then (r, s)
        else
          match txn with
          | none => (.success, s)
          | some _ =>
            let s := { s with operations := (Txn.deleteRecord s.operations rid).2 }
            (s.appendClog, s)

end TableState

/-! ## What the indexes do -/

section Indexes

variable {ε : Type} [DecidableEq ε] {entryOf : FieldMeta → List UInt8 → RecordId → ε}
  {record : List UInt8} {rid : RecordId} {i : Index (IndexEntries ε)} {is : List (Index (IndexEntries ε))}

namespace Index

/-- The index takes the entry of the record. -/
def Accepts (entryOf : FieldMeta → List UInt8 → RecordId → ε) (record : List UInt8) (rid : RecordId)
    (i : Index (IndexEntries ε)) : Prop :=
  i.contents.insertFault = none ∧ i.entry entryOf record rid ∉ i.contents.entries

/-- The index gives up the entry of the record. -/
def Removes (entryOf : FieldMeta → List UInt8 → RecordId → ε) (record : List UInt8) (rid : RecordId)
    (i : Index (IndexEntries ε)) : Prop :=
  i.contents.deleteFault = none ∧ i.entry entryOf record rid ∈ i.contents.entries

/-- The entries behind `InsertEntry`, whatever it answers. -/
def inserted (entryOf : FieldMeta → List UInt8 → RecordId → ε) (record : List UInt8) (rid : RecordId)
    (i : Index (IndexEntries ε)) : Finset ε :=
  match i.contents.insertFault with
  | some f => f.entries
  | none => insert (i.entry entryOf record rid) i.contents.entries

/-- The entries behind `DeleteEntry`, whatever it answers. -/
def deleted (entryOf : FieldMeta → List UInt8 → RecordId → ε) (record : List UInt8) (rid : RecordId)
    (i : Index (IndexEntries ε)) : Finset ε :=
  match i.contents.deleteFault with
  | some f => f.entries
  | none => i.contents.entries.erase (i.entry entryOf record rid)

/-- The undoing loop goes on behind the index: its entry is out, or it answers with the one code that is passed
over. -/
def PassedOver (entryOf : FieldMeta → List UInt8 → RecordId → ε) (record : List UInt8) (rid : RecordId)
    (i : Index (IndexEntries ε)) : Prop :=
  i.Removes entryOf record rid ∨ i.contents.deleteFault.map (fun f => f.code.val) = some .recordInvalidKey

instance : Decidable (i.Accepts entryOf record rid) := inferInstanceAs (Decidable (_ ∧ _))

instance : Decidable (i.Removes entryOf record rid) := inferInstanceAs (Decidable (_ ∧ _))

instance : Decidable (i.PassedOver entryOf record rid) := inferInstanceAs (Decidable (_ ∨ _))

omit [DecidableEq ε] in
theorem withEntries_eq_self {es : Finset ε} : i.withEntries es = i ↔ es = i.contents.entries := by
  obtain ⟨indexMeta, fieldMeta, contents⟩ := i
  obtain ⟨entries, insertFault, deleteFault⟩ := contents
  simp [withEntries]

theorem insertEntry_spec (entryOf : FieldMeta → List UInt8 → RecordId → ε) (record : List UInt8) (rid : RecordId)
    (i : Index (IndexEntries ε)) :
    ∃ r, i.insertEntry entryOf record rid = (r, i.withEntries (i.inserted entryOf record rid)) ∧
      (r = .success ↔ i.Accepts entryOf record rid) := by
  unfold insertEntry inserted Accepts
  cases i.contents.insertFault with
  | some f => exact ⟨f.code, rfl, iff_of_false f.code.2 fun h => nomatch h.1⟩
  | none =>
    simp only
    split
    · rename_i hmem
      refine ⟨_, congrArg (Prod.mk _) ?_, by simp [hmem]⟩
      exact (withEntries_eq_self.mpr (Finset.insert_eq_self.mpr hmem)).symm
    · rename_i hmem
      exact ⟨_, rfl, by simp [hmem]⟩

theorem deleteEntry_spec (entryOf : FieldMeta → List UInt8 → RecordId → ε) (record : List UInt8) (rid : RecordId)
    (i : Index (IndexEntries ε)) :
    ∃ r, i.deleteEntry entryOf record rid = (r, i.withEntries (i.deleted entryOf record rid)) ∧
      (r = .success ↔ i.Removes entryOf record rid) ∧
      (r = .success ∨ r = .recordInvalidKey ↔ i.PassedOver entryOf record rid) := by
  unfold deleteEntry deleted PassedOver Removes
  cases i.contents.deleteFault with
  | some f =>
    have hr : ¬f.code.val = .success := f.code.2
    refine ⟨f.code, rfl, ?_, ?_⟩
    · simp [hr]
    · simp [hr]
  | none =>
    have hkept (hmem : i.entry entryOf record rid ∉ i.contents.entries) :
        i = i.withEntries (i.contents.entries.erase (i.entry entryOf record rid)) :=
      (withEntries_eq_self.mpr (Finset.erase_eq_self.mpr hmem)).symm
    simp only
    split
    · rename_i he
      have hmem : i.entry entryOf record rid ∉ i.contents.entries := by simp [he]
      exact ⟨_, congrArg (Prod.mk _) (hkept hmem), by simp [hmem], by simp [hmem]⟩
    · split
      · rename_i hmem
        exact ⟨_, rfl, by simp [hmem], by simp [hmem]⟩
      · rename_i hmem
        exact ⟨_, congrArg (Prod.mk _) (hkept hmem), by simp [hmem], by simp [hmem]⟩

theorem Removes.changes (h : i.Removes entryOf record rid) :
    i.deleted entryOf record rid ≠ i.contents.entries := by
  unfold deleted
  rw [h.1]
  exact fun he => Finset.erase_eq_self.mp he h.2

end Index

/-- The undoing loop leaves `is` as it is. -/
def Leaves (entryOf : FieldMeta → List UInt8 → RecordId → ε) (record : List UInt8) (rid : RecordId) :
    List (Index (IndexEntries ε)) → Prop
  | [] => True
  | i :: is => i.deleted entryOf record rid = i.contents.entries ∧
    (i.PassedOver entryOf record rid → Leaves entryOf record rid is)

/-- The first index refuses the entry and stays as it is. -/
def Untouched (entryOf : FieldMeta → List UInt8 → RecordId → ε) (record : List UInt8) (rid : RecordId) :
    List (Index (IndexEntries ε)) → Prop
  | [] => True
  | i :: _ => ¬i.Accepts entryOf record rid ∧ i.inserted entryOf record rid = i.contents.entries

/-- Behind insertions up to the first index that refuses, the deletions bring every index back to what it was: a
deletion that stops the loop leaves no index behind it that has been changed. -/
def RolledBack (entryOf : FieldMeta → List UInt8 → RecordId → ε) (record : List UInt8) (rid : RecordId) :
    List (Index (IndexEntries ε)) → Prop
  | [] => True
  | i :: is =>
    let j := i.withEntries (i.inserted entryOf record rid)
    j.deleted entryOf record rid = i.contents.entries ∧
      (i.Accepts entryOf record rid → j.PassedOver entryOf record rid → RolledBack entryOf record rid is) ∧
      (i.Accepts entryOf record rid → ¬j.PassedOver entryOf record rid → Untouched entryOf record rid is) ∧
      (¬i.Accepts entryOf record rid → j.PassedOver entryOf record rid → Leaves entryOf record rid is)

theorem insertEntryOfIndexes_cons : insertEntryOfIndexes entryOf record rid (i :: is) =
    if i.Accepts entryOf record rid then ((insertEntryOfIndexes entryOf record rid is).1,
      i.withEntries (i.inserted entryOf record rid) :: (insertEntryOfIndexes entryOf record rid is).2)
    else ((i.insertEntry entryOf record rid).1, i.withEntries (i.inserted entryOf record rid) :: is) := by
  obtain ⟨r, heq, hr⟩ := i.insertEntry_spec entryOf record rid
  rw [insertEntryOfIndexes, heq]
  by_cases h : r = .success
  · rw [if_pos (hr.mp h)]
    simp only [h, ne_eq, not_true, if_false]
  · rw [if_neg (mt hr.mpr h)]
    simp only [h, ne_eq, not_false_eq_true, if_true]

theorem insertEntryOfIndexes_success_iff :
    (insertEntryOfIndexes entryOf record rid is).1 = .success ↔
      ∀ i ∈ is, i.Accepts entryOf record rid := by
  induction is with
  | nil => simp [insertEntryOfIndexes]
  | cons i is ih =>
    obtain ⟨r, heq, hr⟩ := i.insertEntry_spec entryOf record rid
    rw [insertEntryOfIndexes_cons, heq]
    split
    · rename_i hi
      rw [ih]
      simp [hi]
    · rename_i hi
      exact iff_of_false (fun h => hi (hr.mp h)) fun h => hi (h i List.mem_cons_self)

theorem deleteEntryOfIndexes_undoes {r : Re} : (deleteEntryOfIndexes entryOf record rid true r (i :: is)).2 =
    i.withEntries (i.deleted entryOf record rid) ::
      if i.PassedOver entryOf record rid then (deleteEntryOfIndexes entryOf record rid true .success is).2 else is := by
  have hcode (r' : Re) : (deleteEntryOfIndexes entryOf record rid true r' is).2 =
      (deleteEntryOfIndexes entryOf record rid true .success is).2 := by
    cases is with
    | nil => rfl
    | cons j js => rfl
  obtain ⟨r', heq, -, hpass⟩ := i.deleteEntry_spec entryOf record rid
  rw [deleteEntryOfIndexes, heq]
  by_cases h : r' = .success ∨ r' = .recordInvalidKey
  · rw [if_pos (hpass.mp h)]
    rcases h with rfl | rfl
    · simp
    · simp [hcode .recordInvalidKey]
  · rw [if_neg (mt hpass.mpr h)]
    rw [not_or] at h
    simp [h]

theorem deleteEntryOfIndexes_leaves {r : Re} :
    (deleteEntryOfIndexes entryOf record rid true r is).2 = is ↔ Leaves entryOf record rid is := by
  induction is generalizing r with
  | nil => simp [deleteEntryOfIndexes, Leaves]
  | cons i is ih =>
    rw [deleteEntryOfIndexes_undoes, List.cons.injEq, Index.withEntries_eq_self, Leaves]
    refine and_congr_right fun _ => ?_
    split
    · rename_i hpass
      exact ih.trans ⟨fun h _ => h, fun h => h hpass⟩
    · rename_i hstop
      exact iff_of_true rfl fun hpass => absurd hpass hstop

theorem insertEntryOfIndexes_untouched (h : (insertEntryOfIndexes entryOf record rid is).1 ≠ .success) :
    (insertEntryOfIndexes entryOf record rid is).2 = is ↔ Untouched entryOf record rid is := by
  cases is with
  | nil => exact absurd rfl h
  | cons i is =>
    rw [insertEntryOfIndexes_cons, Untouched]
    by_cases hi : i.Accepts entryOf record rid
    · rw [if_pos hi]
      refine iff_of_false (fun he => ?_) fun h => h.1 hi
      have hsame := Index.withEntries_eq_self.mp (List.cons.inj he).1
      unfold Index.inserted at hsame
      rw [hi.1] at hsame
      exact hi.2 (Finset.insert_eq_self.mp hsame)
    · rw [if_neg hi, List.cons.injEq, Index.withEntries_eq_self]
      simp [hi]

theorem insertEntryOfIndexes_rolledBack {r : Re}
    (h : (insertEntryOfIndexes entryOf record rid is).1 ≠ .success) :
    (deleteEntryOfIndexes entryOf record rid true r
      (insertEntryOfIndexes entryOf record rid is).2).2 = is ↔ RolledBack entryOf record rid is := by
  induction is generalizing r with
  | nil => exact absurd rfl h
  | cons i is ih =>
    rw [insertEntryOfIndexes_cons] at h ⊢
    -- what the loop leaves of the first index, and what it does with the others
    have hhead (es : Finset ε) : (i.withEntries (i.inserted entryOf record rid)).withEntries es = i ↔
        es = i.contents.entries := Index.withEntries_eq_self (i := i)
    unfold RolledBack
    by_cases hi : i.Accepts entryOf record rid
    · rw [if_pos hi] at h ⊢
      rw [deleteEntryOfIndexes_undoes, List.cons.injEq, hhead]
      refine and_congr_right fun _ => ?_
      by_cases hpass : (i.withEntries (i.inserted entryOf record rid)).PassedOver entryOf record rid
      · rw [if_pos hpass, ih h]
        simp [hi, hpass]
      · rw [if_neg hpass, insertEntryOfIndexes_untouched h]
        simp [hi, hpass]
    · rw [if_neg hi, deleteEntryOfIndexes_undoes, List.cons.injEq, hhead]
      refine and_congr_right fun _ => ?_
      by_cases hpass : (i.withEntries (i.inserted entryOf record rid)).PassedOver entryOf record rid
      · rw [if_pos hpass, deleteEntryOfIndexes_leaves]
        simp [hi, hpass]
      · rw [if_neg hpass]
        simp [hi, hpass]

theorem deleteEntryOfIndexes_cons {r : Re} : deleteEntryOfIndexes entryOf record rid false r (i :: is) =
    if i.Removes entryOf record rid then ((deleteEntryOfIndexes entryOf record rid false .success is).1,
      i.withEntries (i.deleted entryOf record rid) :: (deleteEntryOfIndexes entryOf record rid false .success is).2)
    else ((i.deleteEntry entryOf record rid).1, i.withEntries (i.deleted entryOf record rid) :: is) := by
  obtain ⟨r', heq, hr, -⟩ := i.deleteEntry_spec entryOf record rid
  rw [deleteEntryOfIndexes, heq]
  by_cases h : r' = .success
  · rw [if_pos (hr.mp h)]
    simp only [h, ne_eq, not_true, false_and, if_false]
  · rw [if_neg (mt hr.mpr h)]
    simp only [h, ne_eq, not_false_eq_true, Bool.false_eq_true, or_true, and_self, if_true]

theorem deleteEntryOfIndexes_success_iff {r : Re} :
    (deleteEntryOfIndexes entryOf record rid false r is).1 = .success ↔
      (∀ i ∈ is, i.Removes entryOf record rid) ∧ (is = [] → r = .success) := by
  induction is generalizing r with
  | nil => simp [deleteEntryOfIndexes]
  | cons i is ih =>
    obtain ⟨r', heq, hr, -⟩ := i.deleteEntry_spec entryOf record rid
    rw [deleteEntryOfIndexes_cons, heq]
    split
    · rename_i hi
      rw [ih]
      simp [hi]
    · rename_i hi
      exact iff_of_false (fun h => hi (hr.mp h)) fun h => hi (h.1 i List.mem_cons_self)

/-- The first index decides whether a deletion changes any. -/
theorem deleteEntryOfIndexes_cons_eq_self {r : Re} :
    (deleteEntryOfIndexes entryOf record rid false r (i :: is)).2 = i :: is ↔
      i.deleted entryOf record rid = i.contents.entries := by
  rw [deleteEntryOfIndexes_cons]
  split
  · rename_i hi
    exact iff_of_false (fun he => hi.changes (Index.withEntries_eq_self.mp (List.cons.inj he).1)) hi.changes
  · rw [List.cons.injEq, Index.withEntries_eq_self, and_iff_left rfl]

end Indexes

namespace TableState

variable {ε : Type} {s : TableState ε} {record : List UInt8}

/-- A call that fails leaves the records, the entries and the operations as they were. -/
def Atomic (s : TableState ε) (out : Re × TableState ε) : Prop := out.1 ≠ .success → out.2 = s

def ClogWorks (s : TableState ε) : Prop := s.clogMakeFault = none ∧ s.clogAppendFault = none

theorem appendClog_success_iff : s.appendClog = .success ↔ s.ClogWorks := by
  unfold appendClog ClogWorks
  cases hm : s.clogMakeFault with
  | some r => exact iff_of_false r.2 fun h => nomatch h.1
  | none =>
    cases ha : s.clogAppendFault with
    | some r => exact iff_of_false r.2 fun h => nomatch h.2
    | none => exact iff_of_true rfl ⟨rfl, rfl⟩

theorem recordDelete_goes {rid : RecordId} (hf : s.recordDeleteFault = none) (hr : s.records rid ≠ none) :
    s.recordDelete rid = (.success, { s with records := Function.update s.records rid none }) := by
  unfold recordDelete
  rw [hf]
  cases h : s.records rid with
  | none => exact absurd h hr
  | some _ => rfl

theorem recordDelete_stays {rid : RecordId} (h : ¬(s.recordDeleteFault = none ∧ s.records rid ≠ none)) :
    ∃ r, r ≠ .success ∧ s.recordDelete rid = (r, s) := by
  unfold recordDelete
  cases hf : s.recordDeleteFault with
  | some r => exact ⟨r.val, r.2, rfl⟩
  | none =>
    cases hr : s.records rid with
    | none => exact ⟨.recordRecordNotExist, nofun, rfl⟩
    | some _ => exact absurd ⟨hf, by simp [hr]⟩ h

def stored (s : TableState ε) (rid : RecordId) (record : List UInt8) (ops : Txn.OperationSet) :
    TableState ε :=
  { s with records := Function.update s.records rid (some record), operations := ops }

theorem stored_live (s : TableState ε) (rid : RecordId) (record : List UInt8) (ops : Txn.OperationSet) :
    (s.stored rid record ops).records rid = some record := by
  simp [stored]

/-- The record just inserted is taken out again unless deletions fail. -/
theorem recordDelete_inserted {rid : RecordId} (hfree : s.records rid = none) (record : List UInt8)
    (is : List (Index (IndexEntries ε))) (ops : Txn.OperationSet) :
    ({ s.stored rid record ops with indexes := is }.recordDelete rid).2 = s ↔
      s.recordDeleteFault = none ∧ is = s.indexes ∧ ops = s.operations := by
  obtain ⟨indexes, records, insertFault, deleteFault, operations, makeFault, appendFault⟩ := s
  cases deleteFault with
  | some r =>
    refine iff_of_false (fun he => ?_) fun h => nomatch h.1
    have := congrFun (congrArg TableState.records he) rid
    simp only [stored, recordDelete, Function.update_self] at this
    simp only at hfree
    rw [hfree] at this
    cases this
  | none =>
    have hback : Function.update (Function.update records rid (some record)) rid none = records := by
      rw [Function.update_idem, ← hfree, Function.update_eq_self]
    rw [recordDelete_goes rfl (by simp [stored])]
    simp [stored, hback]

variable [DecidableEq ε] {entryOf : FieldMeta → List UInt8 → RecordId → ε} {txn : Option Int}

/-- When an insertion is atomic. With a transaction only its own refusal is ever undone. -/
def InsertAtomic (entryOf : FieldMeta → List UInt8 → RecordId → ε) (s : TableState ε)
    (record : List UInt8) (rid : RecordId) : Option Int → Prop
  | none => s.recordInsertFault = none →
    (∀ i ∈ s.indexes, i.Accepts entryOf record rid) ∨
      (RolledBack entryOf record rid s.indexes ∧ s.recordDeleteFault = none)
  | some txnId => s.recordInsertFault = none →
    (Txn.Refuses s.operations rid → s.recordDeleteFault = none) ∧
      (¬Txn.Refuses s.operations rid →
        (∀ i ∈ s.indexes, i.Accepts entryOf (Txn.setRecordTxnId txnId record) rid) ∧ s.ClogWorks)

/-- When a deletion is atomic: the first index stops it and stays as it is, or nothing does. -/
def DeleteAtomic (entryOf : FieldMeta → List UInt8 → RecordId → ε) (s : TableState ε)
    (txn : Option Int) (record : List UInt8) (rid : RecordId) : Prop :=
  let recordGoes := s.recordDeleteFault = none ∧ s.records rid ≠ none
  let loggedIfAny := txn = none ∨ s.ClogWorks
  match s.indexes with
  | [] => ¬recordGoes ∨ loggedIfAny
  | i :: is =>
    i.deleted entryOf record rid = i.contents.entries ∨
      ((∀ j ∈ i :: is, j.Removes entryOf record rid) ∧ recordGoes ∧ loggedIfAny)

/-- The indexes take the record, and the log has the last word. -/
theorem insertIndexed_accepted {rid : RecordId} (txn : Option Int)
    (h : ∀ i ∈ s.indexes, i.Accepts entryOf record rid) :
    (s.insertIndexed entryOf txn record rid).1 = .success ∨
      (txn ≠ none ∧ ¬s.ClogWorks ∧ (s.insertIndexed entryOf txn record rid).1 ≠ .success ∧
        (s.insertIndexed entryOf txn record rid).2.records = s.records) := by
  have hsucc := insertEntryOfIndexes_success_iff.mpr h
  unfold insertIndexed
  simp only [hsucc, ne_eq, not_true, if_false]
  cases txn with
  | none => exact .inl rfl
  | some txnId =>
    by_cases hlog : s.ClogWorks
    · exact .inl (appendClog_success_iff.mpr hlog)
    · exact .inr ⟨nofun, hlog, fun hs => hlog (appendClog_success_iff.mp hs), rfl⟩

/-- An index refuses the record, and what was done is undone, the operation apart. -/
theorem insertIndexed_refused {rid : RecordId} (hfree : s.records rid = none) {ops : Txn.OperationSet}
    (h : ¬∀ i ∈ s.indexes, i.Accepts entryOf record rid) :
    Atomic s ((s.stored rid record ops).insertIndexed entryOf txn record rid) ↔
    RolledBack entryOf record rid s.indexes ∧ s.recordDeleteFault = none ∧ ops = s.operations := by
  have hfail : (insertEntryOfIndexes entryOf record rid s.indexes).1 ≠ .success :=
    fun hs => h (insertEntryOfIndexes_success_iff.mp hs)
  have hundo := recordDelete_inserted hfree record
    (deleteEntryOfIndexes entryOf record rid true .success
      (insertEntryOfIndexes entryOf record rid s.indexes).2).2 ops
  rw [insertEntryOfIndexes_rolledBack hfail] at hundo
  unfold Atomic insertIndexed
  change (_ → _) ↔ _
  have hfail' : (insertEntryOfIndexes entryOf record rid (s.stored rid record ops).indexes).1 ≠ .success :=
    hfail
  simp only [ne_eq, hfail', not_false_eq_true, if_true, true_imp_iff]
  refine hundo.trans ⟨fun h => ⟨h.2.1, h.1, h.2.2⟩, fun h => ⟨h.2.1, h.1, h.2.2⟩⟩

/-- The record stays when the log fails. -/
theorem insertIndexed_live {rid : RecordId} (hfree : s.records rid = none) {ops : Txn.OperationSet}
    (h : ∀ i ∈ s.indexes, i.Accepts entryOf record rid) :
    Atomic s ((s.stored rid record ops).insertIndexed entryOf txn record rid) ↔ txn = none ∨ s.ClogWorks := by
  rcases insertIndexed_accepted (s := s.stored rid record ops) txn h with
    hsucc | ⟨htxn, hlog, hfail, hrecords⟩
  · refine iff_of_true (fun hne => absurd hsucc hne) ?_
    cases txn with
    | none => exact .inl rfl
    | some txnId =>
      refine .inr (appendClog_success_iff.mp ?_)
      have hacc : (insertEntryOfIndexes entryOf record rid (s.stored rid record ops).indexes).1 = .success :=
        insertEntryOfIndexes_success_iff.mpr h
      unfold insertIndexed at hsucc
      simp only [hacc, ne_eq, not_true, if_false] at hsucc
      exact hsucc
  · refine iff_of_false (fun hatomic => ?_) fun h => h.elim htxn hlog
    have := congrFun (congrArg TableState.records (hatomic hfail)) rid
    rw [hrecords, stored_live, hfree] at this
    cases this

theorem insertRecord_nullptr {rid : { rid : RecordId // s.records rid = none }}
    (hf : s.recordInsertFault = none) : s.insertRecord entryOf none record rid =
      (s.stored rid record s.operations).insertIndexed entryOf none record rid := by
  simp only [insertRecord]
  split
  · rename_i hr
    rw [hf] at hr
    cases hr
  · rfl

theorem insertRecord_refused {rid : { rid : RecordId // s.records rid = none }} {txnId : Int}
    (hf : s.recordInsertFault = none) (h : Txn.Refuses s.operations rid) :
    s.insertRecord entryOf (some txnId) record rid = (.genericError,
      ((s.stored rid (Txn.setRecordTxnId txnId record) s.operations).recordDelete rid).2) := by
  simp only [insertRecord]
  split
  · rename_i hr
    rw [hf] at hr
    cases hr
  · simp only [Txn.insertRecord_refused h]
    rfl

theorem insertRecord_taken {rid : { rid : RecordId // s.records rid = none }} {txnId : Int}
    (hf : s.recordInsertFault = none) (h : ¬Txn.Refuses s.operations rid) :
    s.insertRecord entryOf (some txnId) record rid =
      (s.stored rid (Txn.setRecordTxnId txnId record) (Txn.insertRecord s.operations rid).2).insertIndexed
        entryOf (some txnId) (Txn.setRecordTxnId txnId record) rid := by
  simp only [insertRecord]
  split
  · rename_i hr
    rw [hf] at hr
    cases hr
  · simp only [(Txn.insertRecord_taken h).1]
    rfl

theorem insertRecord_atomic_iff (rid : { rid : RecordId // s.records rid = none }) :
    Atomic s (s.insertRecord entryOf txn record rid) ↔ InsertAtomic entryOf s record rid txn := by
  obtain ⟨rid, hfree⟩ := rid
  cases hf : s.recordInsertFault with
  | some r =>
    have hstop : s.insertRecord entryOf txn record ⟨rid, hfree⟩ = (r.val, s) := by
      simp only [insertRecord, hf]
    rw [hstop]
    refine iff_of_true (fun _ => rfl) ?_
    cases txn with
    | none => exact fun h => nomatch hf.symm.trans h
    | some txnId => exact fun h => nomatch hf.symm.trans h
  | none =>
    cases txn with
    | none =>
      rw [insertRecord_nullptr hf, InsertAtomic, forall_prop_of_true hf]
      by_cases hacc : ∀ i ∈ s.indexes, i.Accepts entryOf record rid
      · rw [insertIndexed_live hfree hacc]
        exact iff_of_true (.inl rfl) (.inl hacc)
      · rw [insertIndexed_refused hfree hacc]
        exact ⟨fun h => .inr ⟨h.1, h.2.1⟩, fun h => (h.resolve_left hacc).imp_right fun hd => ⟨hd, rfl⟩⟩
    | some txnId =>
      rw [InsertAtomic, forall_prop_of_true hf]
      by_cases href : Txn.Refuses s.operations rid
      · have hundo := recordDelete_inserted hfree (Txn.setRecordTxnId txnId record) s.indexes s.operations
        rw [insertRecord_refused hf href]
        unfold Atomic
        simp only [ne_eq, reduceCtorEq, not_false_eq_true, true_imp_iff, href, not_true, false_imp_iff,
          and_true]
        exact ⟨fun h => (hundo.mp h).1, fun h => hundo.mpr ⟨h, rfl, rfl⟩⟩
      · obtain ⟨-, hnoted, hbefore⟩ := Txn.insertRecord_taken href
        rw [insertRecord_taken hf href]
        by_cases hacc : ∀ i ∈ s.indexes, i.Accepts entryOf (Txn.setRecordTxnId txnId record) rid
        · rw [insertIndexed_live hfree hacc]
          simp only [href, reduceCtorEq, false_or, false_imp_iff, not_false_eq_true, true_imp_iff, true_and]
          exact ⟨fun h => ⟨hacc, h⟩, fun h => h.2⟩
        · rw [insertIndexed_refused hfree hacc]
          refine iff_of_false (fun h => ?_) fun h => hacc (h.2 href).1
          rw [h.2.2] at hnoted
          exact hbefore hnoted

/-- The end of `DeleteRecord`, once no index stands in the way. -/
theorem deleteRecord_indexed {rid : RecordId} (txn : Option Int)
    (h : ∀ i ∈ s.indexes, i.Removes entryOf record rid) :
    ((s.recordDeleteFault = none ∧ s.records rid ≠ none) ∧
      (((txn = none ∨ s.ClogWorks) ∧ (s.deleteRecord entryOf txn record rid).1 = .success) ∨
      (¬(txn = none ∨ s.ClogWorks) ∧ (s.deleteRecord entryOf txn record rid).1 ≠ .success ∧
        (s.deleteRecord entryOf txn record rid).2.records rid = none))) ∨
    (¬(s.recordDeleteFault = none ∧ s.records rid ≠ none) ∧
      (s.deleteRecord entryOf txn record rid).1 ≠ .success ∧
      (s.deleteRecord entryOf txn record rid).2 =
        { s with indexes := (deleteEntryOfIndexes entryOf record rid false .success s.indexes).2 }) := by
  have hsucc : (deleteEntryOfIndexes entryOf record rid false .success s.indexes).1 = .success :=
    deleteEntryOfIndexes_success_iff.mpr ⟨h, fun _ => rfl⟩
  unfold deleteRecord
  simp only [hsucc, ne_eq, not_true, if_false]
  obtain ⟨s', hs'⟩ : ∃ s', { s with
    indexes := (deleteEntryOfIndexes entryOf record rid false .success s.indexes).2 } = s' := ⟨_, rfl⟩
  have hfault : s'.recordDeleteFault = s.recordDeleteFault := by rw [← hs']
  have hrecords : s'.records = s.records := by rw [← hs']
  have hclog : s'.ClogWorks ↔ s.ClogWorks := by rw [← hs']; exact Iff.rfl
  rw [hs', ← hfault, ← hrecords, ← hclog]
  by_cases hgo : s'.recordDeleteFault = none ∧ s'.records rid ≠ none
  · refine .inl ⟨hgo, ?_⟩
    simp only [recordDelete_goes hgo.1 hgo.2, not_true, if_false]
    cases txn with
    | none => exact .inl ⟨.inl rfl, rfl⟩
    | some txnId =>
      by_cases hlog : s'.ClogWorks
      · exact .inl ⟨.inr hlog, appendClog_success_iff.mpr hlog⟩
      · refine .inr ⟨fun h => h.elim nofun hlog, fun hs => hlog (appendClog_success_iff.mp hs), ?_⟩
        exact Function.update_self _ _ _
  · obtain ⟨r, hr, he⟩ := recordDelete_stays hgo
    refine .inr ⟨hgo, ?_⟩
    simp only [he, hr, not_false_eq_true, if_true, and_self]

theorem deleteRecord_stopped {rid : RecordId} (txn : Option Int)
    (h : ¬∀ i ∈ s.indexes, i.Removes entryOf record rid) :
    (s.deleteRecord entryOf txn record rid).1 ≠ .success ∧
      (s.deleteRecord entryOf txn record rid).2 =
        { s with indexes := (deleteEntryOfIndexes entryOf record rid false .success s.indexes).2 } := by
  have hfail : (deleteEntryOfIndexes entryOf record rid false .success s.indexes).1 ≠ .success :=
    fun hs => h (deleteEntryOfIndexes_success_iff.mp hs).1
  unfold deleteRecord
  simp only [hfail, ne_eq, not_false_eq_true, if_true, and_self]

theorem deleteRecord_atomic_iff (rid : RecordId) :
    Atomic s (s.deleteRecord entryOf txn record rid) ↔ DeleteAtomic entryOf s txn record rid := by
  have hsame {is : List (Index (IndexEntries ε))} : { s with indexes := is } = s ↔ is = s.indexes :=
    ⟨fun he => congrArg TableState.indexes he, fun he => by rw [he]⟩
  by_cases hrem : ∀ i ∈ s.indexes, i.Removes entryOf record rid
  · rcases deleteRecord_indexed txn hrem with ⟨hgo, ⟨hlog, hs⟩ | ⟨hlog, hs, hgone⟩⟩ | ⟨hgo, hs, he⟩
    · refine iff_of_true (fun hne => absurd hs hne) ?_
      unfold DeleteAtomic
      cases hi : s.indexes with
      | nil => exact .inr hlog
      | cons i is => exact .inr ⟨hi ▸ hrem, hgo, hlog⟩
    · refine iff_of_false (fun hatomic => hgo.2 ?_) fun h => ?_
      · rw [← hgone, hatomic hs]
      · unfold DeleteAtomic at h
        cases hi : s.indexes with
        | nil =>
          rw [hi] at h
          exact h.elim (fun h => h hgo) hlog
        | cons i is =>
          rw [hi] at h hrem
          exact h.elim (hrem i List.mem_cons_self).changes fun h => hlog h.2.2
    · unfold Atomic DeleteAtomic
      rw [he, forall_prop_of_true hs, hsame]
      cases hi : s.indexes with
      | nil => exact iff_of_true rfl (.inl hgo)
      | cons i is =>
        rw [hi] at hrem
        rw [deleteEntryOfIndexes_cons_eq_self]
        exact ⟨.inl, fun h => h.resolve_right fun h => hgo h.2.1⟩
  · obtain ⟨hs, he⟩ := deleteRecord_stopped txn hrem
    unfold Atomic DeleteAtomic
    rw [he, forall_prop_of_true hs, hsame]
    cases hi : s.indexes with
    | nil =>
      rw [hi] at hrem
      exact absurd (fun _ h => nomatch h) hrem
    | cons i is =>
      rw [hi] at hrem
      rw [deleteEntryOfIndexes_cons_eq_self]
      exact ⟨.inl, fun h => h.resolve_right fun h => hrem h.1⟩

/-- An empty table whose index has no frame left for an insertion. -/
def noFrame : TableState (List UInt8 × RecordId) :=
  ⟨[⟨⟨"i", "id"⟩, ⟨"id", .ints, 4, 4, true⟩, ⟨∅, some ⟨⟨.noMem, nofun⟩, ∅⟩, none⟩⟩], fun _ => none, none, none,
    fun _ => none, none, none⟩

end TableState

end Idmbs
