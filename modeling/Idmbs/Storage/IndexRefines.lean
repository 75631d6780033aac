import Idmbs.BPlusTree.SortedIndex
import Idmbs.Storage.IndexEntries
import Idmbs.Storage.RowOps

/-!
# Idmbs.Storage.IndexRefines

The indexes that `Table::InsertRecord` and `Table::DeleteRecord` change are B+ trees: where no page fails, the sets of
entries of `RowOps` answer as `BplusTreeHandler` does, and go on standing for its tree. `InsertEntryOfIndexes` and
`DeleteEntryOfIndexes` of a table with Ints columns are then those of its trees.
-/

namespace Idmbs

open Comparator BplusTreeHandler BplusTreeScanner CString

section OneIndex

variable {α : Type} [LinearOrder (Key α)] [DecidableEq α] [Inhabited α] {attrComparator : α → α → Int}
  {ridCompare : RecordId → RecordId → Int} {A : Set α} {R : Set RecordId} {hdr : IndexFileHeader}

omit [LinearOrder (Key α)] [Inhabited α] in
theorem Index.fieldMeta_insertEntry (i : Index (IndexEntries (Key α)))
    (entryOf : FieldMeta → List UInt8 → RecordId → Key α) (record : List UInt8) (rid : RecordId) :
    (i.insertEntry entryOf record rid).2.fieldMeta = i.fieldMeta := by
  unfold Index.insertEntry
  split
  · rfl
  · split
    · rfl
    · rfl

omit [LinearOrder (Key α)] [Inhabited α] in
theorem Index.fieldMeta_deleteEntry (i : Index (IndexEntries (Key α)))
    (entryOf : FieldMeta → List UInt8 → RecordId → Key α) (record : List UInt8) (rid : RecordId) :
    (i.deleteEntry entryOf record rid).2.fieldMeta = i.fieldMeta := by
  unfold Index.deleteEntry
  split
  · rfl
  · split
    · rfl
    · split
      · rfl
      · rfl

/-- The index `i` stands for the tree of `s`, and is in order. -/
structure StandsFor (attrComparator : α → α → Int) (ridCompare : RecordId → RecordId → Int) (A : Set α)
    (R : Set RecordId) (hdr : IndexFileHeader) (i : Index (IndexEntries (Key α))) (s : BplusTreeHandler α) : Prop where
  represents : Represents attrComparator ridCompare (keysOver A R) hdr s i.contents.entries
  insertOk : i.contents.insertFault = none
  deleteOk : i.contents.deleteFault = none

variable {i : Index (IndexEntries (Key α))} {s : BplusTreeHandler α} {entryOf : FieldMeta → List UInt8 → RecordId → Key α}
  {record : List UInt8} {rid : RecordId} {userKey : α}

omit [DecidableEq α] [Inhabited α] in
theorem StandsFor.withEntries {es : Finset (Key α)} {t : BplusTreeHandler α}
    (h : StandsFor attrComparator ridCompare A R hdr i s)
    (ht : Represents attrComparator ridCompare (keysOver A R) hdr t es) :
    StandsFor attrComparator ridCompare A R hdr (i.withEntries es) t :=
  ⟨ht, h.insertOk, h.deleteOk⟩

theorem StandsFor.insertEntry (ha : Agrees (keyComparator attrComparator ridCompare) (keysOver A R)) (hr : hdr.Roomy)
    (h : StandsFor attrComparator ridCompare A R hdr i s) (hentry : i.entry entryOf record rid = ⟨userKey, rid⟩)
    (hv : userKey ∈ A) (hrid : rid ∈ R) (hbounded : RidsBounded attrComparator ridCompare ⟨userKey, rid⟩)
    (hroom : (s.insertEntry (keyComparator attrComparator ridCompare) userKey rid).2.pool.noBuf = false) :
    (i.insertEntry entryOf record rid).1 = (s.insertEntry (keyComparator attrComparator ridCompare) userKey rid).1 ∧
      StandsFor attrComparator ridCompare A R hdr (i.insertEntry entryOf record rid).2
        (s.insertEntry (keyComparator attrComparator ridCompare) userKey rid).2 := by
  obtain ⟨hcode, htree⟩ := h.represents.insertEntry ha hr hv hrid hbounded hroom
  unfold Index.insertEntry
  rw [h.insertOk, hentry, hcode]
  simp only
  by_cases hmem : (⟨userKey, rid⟩ : Key α) ∈ i.contents.entries
  · rw [Finset.insert_eq_of_mem hmem] at htree
    simp only [if_pos hmem]
    exact ⟨trivial, htree, h.insertOk, h.deleteOk⟩
  · simp only [if_neg hmem]
    exact ⟨trivial, h.withEntries htree⟩

theorem StandsFor.deleteEntry (ha : Agrees (keyComparator attrComparator ridCompare) (keysOver A R)) (hr : hdr.Roomy)
    (h : StandsFor attrComparator ridCompare A R hdr i s) (hentry : i.entry entryOf record rid = ⟨userKey, rid⟩)
    (hv : userKey ∈ A) (hrid : rid ∈ R) :
    (i.deleteEntry entryOf record rid).1 = (s.deleteEntry (keyComparator attrComparator ridCompare) userKey rid).1 ∧
      StandsFor attrComparator ridCompare A R hdr (i.deleteEntry entryOf record rid).2
        (s.deleteEntry (keyComparator attrComparator ridCompare) userKey rid).2 := by
  obtain ⟨hmeans, htree⟩ := h.represents.deleteEntry ha hr hv hrid
  unfold Index.deleteEntry
  rw [h.deleteOk, hentry]
  simp only
  generalize (s.deleteEntry (keyComparator attrComparator ridCompare) userKey rid).1 = r at hmeans ⊢
  cases hmeans with
  | noTree hempty =>
    rw [hempty, Finset.erase_empty, ← hempty] at htree
    simp only [if_pos hempty]
    exact ⟨trivial, htree, h.insertOk, h.deleteOk⟩
  | deleted hmem =>
    have hne : i.contents.entries ≠ ∅ := Finset.ne_empty_of_mem hmem
    simp only [if_neg hne, if_pos hmem]
    exact ⟨trivial, h.withEntries htree⟩
  | notExist hmem hK =>
    rw [Finset.erase_eq_of_notMem hmem] at htree
    simp only [if_neg hK.ne_empty, if_neg hmem]
    exact ⟨trivial, htree, h.insertOk, h.deleteOk⟩

end OneIndex

/-! ## The indexes of a table -/

/-- The memory of a record. -/
def pointerTo (record : List UInt8) : Pointer := fun k => record.getD k 0

/-- The entry of a record in an index on an Ints column. -/
def intEntry (_ : FieldMeta) (key : List UInt8) (rid : RecordId) : Key Int := ⟨intAt (pointerTo key), rid⟩

section Indexes

variable [LinearOrder (Key Int)] {A : Set Int} {R : Set RecordId} {is : List (Index (IndexEntries (Key Int)))}
  {bs : List BplusTreeIndex} {record : List UInt8} {rid : RecordId}

structure StandsForTree (A : Set Int) (R : Set RecordId) (i : Index (IndexEntries (Key Int))) (b : BplusTreeIndex) :
    Prop where
  fieldMeta : i.fieldMeta = b.fieldMeta
  tree : ∃ hdr : IndexFileHeader, hdr.Roomy ∧ StandsFor compareInt RecordId.compare A R hdr i b.contents

theorem StandsForTree.entry {i : Index (IndexEntries (Key Int))} {b : BplusTreeIndex} (h : StandsForTree A R i b) :
    i.entry intEntry record rid = ⟨b.userKey (pointerTo record), rid⟩ := by
  have hkey : pointerTo (record.drop b.fieldMeta.offset.toNat) =
      Pointer.add (pointerTo record) b.fieldMeta.offset := by
    funext k
    simp [pointerTo, Pointer.add, List.getD, List.getElem?_drop]
  rw [Index.entry, intEntry, h.fieldMeta, hkey]
  rfl

theorem insertEntryOfIndexes_trees (ha : Agrees intsComparator (keysOver A R))
    (h : List.Forall₂ (StandsForTree A R) is bs) (hv : ∀ b ∈ bs, b.userKey (pointerTo record) ∈ A) (hrid : rid ∈ R)
    (hbounded : ∀ b ∈ bs, RidsBounded compareInt RecordId.compare ⟨b.userKey (pointerTo record), rid⟩)
    (hroom : ∀ b ∈ bs, IndexedTable.Room b (pointerTo record) rid) :
    (insertEntryOfIndexes intEntry record rid is).1 =
        (IndexedTable.insertEntryOfIndexes (pointerTo record) rid bs).1 ∧
      List.Forall₂ (StandsForTree A R) (insertEntryOfIndexes intEntry record rid is).2
        (IndexedTable.insertEntryOfIndexes (pointerTo record) rid bs).2 := by
  induction h with
  | nil => exact ⟨rfl, .nil⟩
  | @cons i b is bs hib hrest ih =>
    rw [List.forall_mem_cons] at hv hbounded hroom
    obtain ⟨hdr, hr, hstands⟩ := hib.tree
    have hentry : i.entry intEntry record rid = ⟨b.userKey (pointerTo record), rid⟩ := hib.entry
    obtain ⟨hcode, hstands'⟩ := hstands.insertEntry ha hr hentry hv.1 hrid hbounded.1 hroom.1
    obtain ⟨hcodes, htrees⟩ := ih hv.2 hbounded.2 hroom.2
    have hcode' : (i.insertEntry intEntry record rid).1 = (b.insertEntry (pointerTo record) rid).1 := hcode
    have hfirst : StandsForTree A R (i.insertEntry intEntry record rid).2 (b.insertEntry (pointerTo record) rid).2 :=
      ⟨(Index.fieldMeta_insertEntry ..).trans hib.fieldMeta, hdr, hr, hstands'⟩
    simp only [insertEntryOfIndexes, IndexedTable.insertEntryOfIndexes, hcode']
    split
    · exact ⟨rfl, .cons hfirst hrest⟩
    · exact ⟨hcodes, .cons hfirst htrees⟩

theorem deleteEntryOfIndexes_trees (ha : Agrees intsComparator (keysOver A R))
    (h : List.Forall₂ (StandsForTree A R) is bs) (hv : ∀ b ∈ bs, b.userKey (pointerTo record) ∈ A) (hrid : rid ∈ R)
    (notExistsError : Bool) (r : Re) :
    (deleteEntryOfIndexes intEntry record rid notExistsError r is).1 =
        (IndexedTable.deleteEntryOfIndexes (pointerTo record) rid notExistsError r bs).1 ∧
      List.Forall₂ (StandsForTree A R) (deleteEntryOfIndexes intEntry record rid notExistsError r is).2
        (IndexedTable.deleteEntryOfIndexes (pointerTo record) rid notExistsError r bs).2 := by
  induction h generalizing r with
  | nil => exact ⟨rfl, .nil⟩
  | @cons i b is bs hib hrest ih =>
    rw [List.forall_mem_cons] at hv
    obtain ⟨hdr, hr, hstands⟩ := hib.tree
    have hentry : i.entry intEntry record rid = ⟨b.userKey (pointerTo record), rid⟩ := hib.entry
    obtain ⟨hcode, hstands'⟩ := hstands.deleteEntry ha hr hentry hv.1 hrid
    have hcode' : (i.deleteEntry intEntry record rid).1 = (b.deleteEntry (pointerTo record) rid).1 := hcode
    obtain ⟨hcodes, htrees⟩ := ih hv.2 (b.deleteEntry (pointerTo record) rid).1
    have hfirst : StandsForTree A R (i.deleteEntry intEntry record rid).2 (b.deleteEntry (pointerTo record) rid).2 :=
      ⟨(Index.fieldMeta_deleteEntry ..).trans hib.fieldMeta, hdr, hr, hstands'⟩
    simp only [deleteEntryOfIndexes, IndexedTable.deleteEntryOfIndexes, hcode']
    split
    · exact ⟨rfl, .cons hfirst hrest⟩
    · exact ⟨hcodes, .cons hfirst htrees⟩

end Indexes

end Idmbs
