import Idmbs.BPlusTree.Delete
import Idmbs.BPlusTree.Insert
import Idmbs.Storage.IndexedTable

/-!
# Idmbs.Storage.IndexEntries

The indexes of a table have exactly one entry for every live row, along every run of `CreateIndex`,
`InsertRecord` and `DeleteRecord` whose keys `RecordId::Compare` can tell apart. Two rows with one value on
one page it cannot: the second is refused, and undoing its insertion deletes the entry of the first.
-/

namespace Idmbs

open Comparator CString

/-! ## One tree -/

namespace BplusTreeHandler

/-- The entries of an index, in key order. -/
def Lists (t : BplusTreeHandler Int) (es : List (Key Int × RecordId)) : Prop :=
  (IsEmptyTree t ∧ es = []) ∨ ∃ (m : Nat) (tree : IndexTree Int m), WellFormed intsComparator t tree ∧
    tree.entries = es

/-- The tree can be loaded, and all its keys are in `S`. -/
structure Keeps (S : Set (Key Int)) (t : BplusTreeHandler Int) (es : List (Key Int × RecordId)) : Prop where
  faults : t.pool.faults = []
  roomy : t.fileHeader.Roomy
  tree : (IsEmptyTree t ∧ es = []) ∨ ∃ (m : Nat) (tree : IndexTree Int m), WellFormed intsComparator t tree ∧
    (∀ k ∈ tree.keys, k ∈ S) ∧ tree.entries = es

variable {S : Set (Key Int)} {t : BplusTreeHandler Int} {es : List (Key Int × RecordId)} {v : Int} {rid : RecordId}

theorem Keeps.lists (h : Keeps S t es) : Lists t es :=
  h.tree.imp id fun ⟨m, tree, hwf, _, hes⟩ => ⟨m, tree, hwf, hes⟩

theorem Keeps.key_mem (h : Keeps S t es) {e : Key Int × RecordId} (he : e ∈ es) : e.1 ∈ S := by
  rcases h.tree with ⟨-, rfl⟩ | ⟨m, tree, -, hS, rfl⟩
  · cases he
  · exact hS _ (SearchTree.Tree.key_mem_keys (m := SearchTree.Mark.ent e.1) (SearchTree.Tree.ent_mem_marks he))

theorem Keeps.create (file : Re) : Keeps S (BplusTreeIndex.create file).2 [] := by
  obtain ⟨t, ht, hempty, hheader, hfaults⟩ :=
    create_isEmptyTree (α := Int) .ints intsInternalPageCapacity intsLeafPageCapacity
  have hcreate : BplusTreeIndex.create file = (file, t) := by
    unfold BplusTreeIndex.create
    rw [ht]
  rw [hcreate]
  refine ⟨hfaults, ?_, .inl ⟨hempty, rfl⟩⟩
  rw [hheader]
  exact ⟨by decide, by decide⟩

/-- A new key goes into the tree where there is room. -/
theorem Keeps.insertEntry (hS : StrictTotalOn intsComparator S) (h : Keeps S t es)
    (hx : (⟨v, rid⟩ : Key Int) ∈ S) (hnew : ∀ e ∈ es, e.1 ≠ ⟨v, rid⟩)
    (hroom : (t.insertEntry intsComparator v rid).2.pool.noBuf = false) :
    (t.insertEntry intsComparator v rid).1 = .success ∧ ∃ A B, es = A ++ B ∧
      Keeps S (t.insertEntry intsComparator v rid).2 (A ++ (⟨v, rid⟩, rid) :: B) := by
  obtain ⟨order, ha⟩ := exists_linearOrder hS
  have hnb : (t.insertEntry intsComparator v rid).2.pool.noBuf ≠ true := by simp [hroom]
  rcases h.tree with ⟨he, rfl⟩ | ⟨m, tree, hwf, hkeys, rfl⟩
  · have hv : View t [] t.fileHeader none t.node := ⟨h.faults, he.sound, by simp, rfl, he.stored, rfl⟩
    obtain ⟨hsucc, tree, nd, hval, hent⟩ := (insertEntry_empty intsComparator h.roomy he.root hv hx).resolve_left hnb
    refine ⟨hsucc, [], [], rfl, hval.view.faults, h.roomy.of_bounds hval.bounds_eq, .inr ⟨0, tree,
      hval.wellFormed ha, hval.keys, hent⟩⟩
  · have hval := hwf.valid ha hkeys h.roomy.wide h.faults
    rcases insertEntry_valid ha h.roomy hval hx with ⟨⟨w, hw⟩, -⟩ | ⟨-, hins⟩
    · exact absurd rfl (hnew _ hw)
    · obtain ⟨hsucc, m', tree', nd, A, B, hval', hold, hent⟩ := hins.resolve_left hnb
      exact ⟨hsucc, A, B, hold, hval'.view.faults, h.roomy.of_bounds hval'.bounds_eq, .inr ⟨m', tree',
        hval'.wellFormed ha, hval'.keys, hent⟩⟩

theorem Keeps.deleteEntry (hS : StrictTotalOn intsComparator S) (h : Keeps S t es) {w : RecordId}
    (hmem : ((⟨v, rid⟩ : Key Int), w) ∈ es) :
    (t.deleteEntry intsComparator v rid).1 = .success ∧ ∃ A w B, es = A ++ (⟨v, rid⟩, w) :: B ∧
      Keeps S (t.deleteEntry intsComparator v rid).2 (A ++ B) := by
  obtain ⟨order, ha⟩ := exists_linearOrder hS
  have hx := h.key_mem hmem
  rcases h.tree with ⟨-, rfl⟩ | ⟨m, tree, hwf, hkeys, rfl⟩
  · cases hmem
  · have hval := hwf.valid ha hkeys h.roomy.wide h.faults
    rcases deleteEntry_valid ha h.roomy hval hx with ⟨A, w, B, hent, hsucc, hrep⟩ | ⟨hnot, -⟩
    · refine ⟨hsucc, A, w, B, hent, ?_⟩
      rcases hrep with ⟨m', tree', nd, hval', hent'⟩ | ⟨hnil, nd, hv⟩
      · exact ⟨hval'.view.faults, h.roomy.of_bounds hval'.bounds_eq, .inr ⟨m', tree', hval'.wellFormed ha,
          hval'.keys, hent'⟩⟩
      · refine ⟨hv.faults, h.roomy.of_bounds ?_, .inl ⟨⟨?_, hv.stored, hv.sound⟩, hnil⟩⟩
        · exact (congrArg IndexFileHeader.bounds hv.fileHeader).trans rfl
        · exact congrArg IndexFileHeader.rootPageId hv.fileHeader
    · exact absurd rfl (hnot _ hmem)

end BplusTreeHandler

/-! ## The indexes of a table -/

namespace IndexedTable

open BplusTreeHandler

/-- One entry for every live row, and no other. -/
structure Covers (i : BplusTreeIndex) (records : RecordId → Option Pointer)
    (es : List (Key Int × RecordId)) : Prop where
  nodup : es.Nodup
  mem_iff : ∀ e, e ∈ es ↔ ∃ record, records e.2 = some record ∧ e.1 = ⟨i.userKey record, e.2⟩

/-- Each index of the table holds exactly one entry for every live row. -/
def Consistent (s : IndexedTable) : Prop :=
  ∀ i ∈ s.table.indexes, ∃ es, Lists i.contents es ∧ Covers i s.records es

/-- As `Consistent`, with the keys of each index in the set of its field. -/
def InStep (S : FieldMeta → Set (Key Int)) (records : RecordId → Option Pointer) (i : BplusTreeIndex) : Prop :=
  ∃ es, Keeps (S i.fieldMeta) i.contents es ∧ Covers i records es

variable {S : FieldMeta → Set (Key Int)} {records : RecordId → Option Pointer} {i : BplusTreeIndex}
  {is : List BplusTreeIndex} {record : Pointer} {rid : RecordId} {es : List (Key Int × RecordId)}

theorem InStep.consistent {s : IndexedTable} (h : ∀ i ∈ s.table.indexes, InStep S s.records i) : Consistent s :=
  fun i hi => (h i hi).imp fun _ hes => ⟨hes.1.lists, hes.2⟩

theorem Covers.insert {A B : List (Key Int × RecordId)} (h : Covers i records (A ++ B))
    (hfree : records rid = none) (t : BplusTreeHandler Int) :
    Covers (i.withTree t) (Function.update records rid (some record))
      (A ++ (⟨i.userKey record, rid⟩, rid) :: B) where
  nodup := by
    refine (List.perm_middle.nodup_iff).mpr (List.nodup_cons.mpr ⟨fun hmem => ?_, h.nodup⟩)
    obtain ⟨row, hrow, -⟩ := (h.mem_iff _).mp hmem
    rw [hfree] at hrow
    cases hrow
  mem_iff e := by
    rw [List.perm_middle.mem_iff, List.mem_cons, h.mem_iff]
    by_cases he : e.2 = rid
    · rw [he, Function.update_self]
      constructor
      · rintro (rfl | ⟨row, hrow, -⟩)
        · exact ⟨record, rfl, rfl⟩
        · rw [hfree] at hrow
          cases hrow
      · rintro ⟨row, hrow, hkey⟩
        cases hrow
        exact .inl (Prod.ext hkey he)
    · rw [Function.update_of_ne he]
      refine ⟨fun h => h.resolve_left fun heq => he (heq ▸ rfl), .inr⟩

theorem Covers.remove {A B : List (Key Int × RecordId)} {w : RecordId}
    (h : Covers i records (A ++ (⟨i.userKey record, rid⟩, w) :: B)) (t : BplusTreeHandler Int) :
    Covers (i.withTree t) (Function.update records rid none) (A ++ B) := by
  have hnodup := List.nodup_cons.mp (List.perm_middle.nodup_iff.mp h.nodup)
  have hw : w = rid := by
    obtain ⟨row, -, hkey⟩ := (h.mem_iff (⟨i.userKey record, rid⟩, w)).mp (by simp)
    exact (congrArg Key.rid hkey).symm
  subst hw
  refine ⟨hnodup.2, fun e => ?_⟩
  have hmem : e ∈ A ++ (⟨i.userKey record, w⟩, w) :: B ↔ e = (⟨i.userKey record, w⟩, w) ∨ e ∈ A ++ B := by
    rw [List.perm_middle.mem_iff, List.mem_cons]
  have hiff := h.mem_iff e
  rw [hmem] at hiff
  by_cases he : e.2 = w
  · rw [he, Function.update_self]
    refine iff_of_false (fun hin => ?_) fun ⟨_, hrow, _⟩ => nomatch hrow
    -- two entries of one rid are the same
    obtain ⟨row, hrow, hkey⟩ := hiff.mp (.inr hin)
    obtain ⟨row', hrow', hkey'⟩ := (h.mem_iff (⟨i.userKey record, w⟩, w)).mp (by simp)
    rw [he] at hrow hkey
    rw [hrow] at hrow'
    cases hrow'
    have heq : e = (⟨i.userKey record, w⟩, w) := Prod.ext (hkey.trans hkey'.symm) he
    exact hnodup.1 (heq ▸ hin)
  · rw [Function.update_of_ne he]
    exact Iff.trans ⟨.inr, fun h => h.resolve_left fun heq => he (heq ▸ rfl)⟩ hiff

/-- The index file has room for the entry. -/
def Room (i : BplusTreeIndex) (record : Pointer) (rid : RecordId) : Prop :=
  (i.insertEntry record rid).2.contents.pool.noBuf = false

instance : Decidable (Room i record rid) := inferInstanceAs (Decidable (_ = false))

theorem InStep.insertEntry (hS : StrictTotalOn intsComparator (S i.fieldMeta)) (h : InStep S records i)
    (hfree : records rid = none) (hx : (⟨i.userKey record, rid⟩ : Key Int) ∈ S i.fieldMeta)
    (hroom : Room i record rid) : ∃ i', i.insertEntry record rid = (.success, i') ∧
      InStep S (Function.update records rid (some record)) i' := by
  obtain ⟨es, hkeeps, hcovers⟩ := h
  obtain ⟨hsucc, A, B, rfl, hkeeps'⟩ := hkeeps.insertEntry hS hx (fun e he hkey => by
    obtain ⟨row, hrow, hkey'⟩ := (hcovers.mem_iff e).mp he
    have hrid : e.2 = rid := congrArg Key.rid (hkey'.symm.trans hkey)
    rw [hrid, hfree] at hrow
    cases hrow) hroom
  refine ⟨i.withTree (i.contents.insertEntry intsComparator (i.userKey record) rid).2, ?_, _, hkeeps',
    hcovers.insert hfree _⟩
  unfold BplusTreeIndex.insertEntry
  rw [← hsucc]

theorem InStep.deleteEntry (hS : StrictTotalOn intsComparator (S i.fieldMeta)) (h : InStep S records i)
    (hlive : records rid = some record) : ∃ i', i.deleteEntry record rid = (.success, i') ∧
      InStep S (Function.update records rid none) i' := by
  obtain ⟨es, hkeeps, hcovers⟩ := h
  have hmem : ((⟨i.userKey record, rid⟩ : Key Int), rid) ∈ es := (hcovers.mem_iff _).mpr ⟨record, hlive, rfl⟩
  obtain ⟨hsucc, A, w, B, rfl, hkeeps'⟩ := hkeeps.deleteEntry hS hmem
  refine ⟨i.withTree (i.contents.deleteEntry intsComparator (i.userKey record) rid).2, ?_, _, hkeeps',
    hcovers.remove _⟩
  unfold BplusTreeIndex.deleteEntry
  rw [← hsucc]

theorem insertEntryOfIndexes_inStep (hS : ∀ f, StrictTotalOn intsComparator (S f))
    (h : ∀ i ∈ is, InStep S records i) (hfree : records rid = none)
    (hx : ∀ i ∈ is, (⟨i.userKey record, rid⟩ : Key Int) ∈ S i.fieldMeta) (hroom : ∀ i ∈ is, Room i record rid) :
    ∃ is', insertEntryOfIndexes record rid is = (.success, is') ∧
      ∀ i ∈ is', InStep S (Function.update records rid (some record)) i := by
  induction is with
  | nil => exact ⟨[], rfl, fun _ hi => absurd hi List.not_mem_nil⟩
  | cons i is ih =>
    rw [List.forall_mem_cons] at h hx hroom
    obtain ⟨i', heq, hi'⟩ := h.1.insertEntry (hS _) hfree hx.1 hroom.1
    obtain ⟨is', heqs, his'⟩ := ih h.2 hx.2 hroom.2
    refine ⟨i' :: is', ?_, List.forall_mem_cons.mpr ⟨hi', his'⟩⟩
    simp only [insertEntryOfIndexes, heq, heqs, ne_eq, not_true_eq_false, if_false]

theorem deleteEntryOfIndexes_inStep (hS : ∀ f, StrictTotalOn intsComparator (S f))
    (h : ∀ i ∈ is, InStep S records i) (hlive : records rid = some record) (b : Bool) :
    ∃ is', deleteEntryOfIndexes record rid b .success is = (.success, is') ∧
      ∀ i ∈ is', InStep S (Function.update records rid none) i := by
  induction is with
  | nil => exact ⟨[], rfl, fun _ hi => absurd hi List.not_mem_nil⟩
  | cons i is ih =>
    rw [List.forall_mem_cons] at h
    obtain ⟨i', heq, hi'⟩ := h.1.deleteEntry (hS _) hlive
    obtain ⟨is', heqs, his'⟩ := ih h.2
    refine ⟨i' :: is', ?_, List.forall_mem_cons.mpr ⟨hi', his'⟩⟩
    simp only [deleteEntryOfIndexes, heq, heqs, ne_eq, not_true_eq_false, false_and, if_false]

/-- The new index file has room for the rows. -/
def FillRoom (offset : Int) : List (RecordId × Pointer) → BplusTreeHandler Int → Prop
  | [], _ => True
  | (rid, record) :: rows, t =>
    (t.insertEntry intsComparator (intAt (Pointer.add record offset)) rid).2.pool.noBuf = false ∧
      FillRoom offset rows (t.insertEntry intsComparator (intAt (Pointer.add record offset)) rid).2

/-- The entry of a row in an index on the field at `offset`. -/
def rowEntry (offset : Int) (row : RecordId × Pointer) : Key Int × RecordId :=
  (⟨intAt (Pointer.add row.2 offset), row.1⟩, row.1)

theorem fill_keeps {K : Set (Key Int)} {offset : Int} {rows : List (RecordId × Pointer)}
    {t : BplusTreeHandler Int} (hS : StrictTotalOn intsComparator K) (h : Keeps K t es)
    (hx : ∀ row ∈ rows, (rowEntry offset row).1 ∈ K) (hrows : (rows.map Prod.fst).Nodup)
    (hnew : ∀ e ∈ es, e.1.rid ∉ rows.map Prod.fst) (hroom : FillRoom offset rows t) :
    (BplusTreeIndex.fill offset rows t).1 = .success ∧
      ∃ es', Keeps K (BplusTreeIndex.fill offset rows t).2 es' ∧ es'.Perm (es ++ rows.map (rowEntry offset)) := by
  induction rows generalizing t es with
  | nil => exact ⟨rfl, es, h, by rw [List.map_nil, List.append_nil]⟩
  | cons row rows ih =>
    obtain ⟨rid, record⟩ := row
    rw [List.forall_mem_cons] at hx
    rw [List.map_cons, List.nodup_cons] at hrows
    obtain ⟨hsucc, A, B, rfl, hkeeps⟩ := h.insertEntry hS hx.1
      (fun e he hkey => hnew e he (by simp [hkey])) hroom.1
    have hmid : (A ++ (⟨intAt (Pointer.add record offset), rid⟩, rid) :: B).Perm
        (rowEntry offset (rid, record) :: (A ++ B)) := List.perm_middle
    have hnew' : ∀ e ∈ A ++ (⟨intAt (Pointer.add record offset), rid⟩, rid) :: B,
        e.1.rid ∉ rows.map Prod.fst := fun e he => by
      rcases List.mem_cons.mp (hmid.mem_iff.mp he) with rfl | he
      · exact hrows.1
      · exact fun hin => hnew e he (List.mem_cons_of_mem _ hin)
    obtain ⟨hrest, es', hkeeps', hperm⟩ := ih hkeeps hx.2 hrows.2 hnew' hroom.2
    have hfill : BplusTreeIndex.fill offset ((rid, record) :: rows) t = BplusTreeIndex.fill offset rows
        (t.insertEntry intsComparator (intAt (Pointer.add record offset)) rid).2 := by
      simp only [BplusTreeIndex.fill, hsucc, ne_eq, not_true_eq_false, if_false]
    rw [hfill]
    refine ⟨hrest, es', hkeeps', hperm.trans ((hmid.append_right _).trans ?_)⟩
    rw [List.map_cons, List.cons_append]
    exact List.perm_middle.symm

/-! ## Runs -/

inductive Call where
  | createIndex (indexName attrName : Option String) (file : Re) (rows : List (RecordId × Pointer))
  | insertRecord (a : Answers) (record : Pointer) (rid : RecordId)
  | deleteRecord (a : Answers) (record : Pointer) (rid : RecordId)

def step (s : IndexedTable) : Call → Re × IndexedTable
  | .createIndex indexName attrName file rows => s.createIndex indexName attrName file rows
  | .insertRecord a record rid => s.insertRecord a record rid
  | .deleteRecord a record rid => s.deleteRecord a record rid

/-- The column is an Ints column, a scan visits live rows, a row is stored in a free slot, and a row that
is deleted was read before. -/
def Possible (s : IndexedTable) : Call → Prop
  | .createIndex _ attrName _ rows =>
    (∀ name field, attrName = some name → s.table.tableMeta.getField name = some field →
      field.attrType = .ints) ∧
    (rows.map Prod.fst).Nodup ∧ ∀ row ∈ rows, s.records row.1 = some row.2
  | .insertRecord _ _ rid => s.records rid = none
  | .deleteRecord _ record rid => s.records rid = some record

/-- The keys that a call brings to an index are in the set of its field, the index file has room for them,
and the record file deletes what it is told to. A scan for a new index visits all live rows. -/
def Meets (S : FieldMeta → Set (Key Int)) (s : IndexedTable) : Call → Prop
  | .createIndex _ attrName file rows =>
    (∀ rid record, s.records rid = some record → (rid, record) ∈ rows) ∧
    ∀ name field, attrName = some name → s.table.tableMeta.getField name = some field →
      (∀ row ∈ rows, (rowEntry field.offset row).1 ∈ S field) ∧
        FillRoom field.offset rows (BplusTreeIndex.create file).2
  | .insertRecord a record rid => (a.txnInsert = .success ∨ a.recordDelete = .success) ∧
    ∀ i ∈ s.table.indexes, (⟨BplusTreeIndex.userKey i record, rid⟩ : Key Int) ∈ S i.fieldMeta ∧
      Room i record rid
  | .deleteRecord a _ _ => a.recordDelete = .success

/-- The states that calls with `P` lead to. -/
inductive Run (P : IndexedTable → Call → Prop) (s : IndexedTable) : IndexedTable → Prop
  | start : Run P s s
  | call {t : IndexedTable} {c : Call} : Run P s t → P t c → Run P s (t.step c).2

/-- No two rows with one value share their page or their slot number, and the values reach less than half
way round the 2^32 circle. -/
structure Apart (K : Set (Key Int)) : Prop where
  attr : ∀ a ∈ K, InInt32 a.attr
  rid : ∀ a ∈ K, a.rid.Valid
  within : WithinHalf (Key.attr '' K)
  rids : RidsApart Eq K

theorem Apart.strictTotalOn {K : Set (Key Int)} (h : Apart K) : StrictTotalOn intsComparator K := by
  obtain ⟨htotal, -, -⟩ := (intsKeys_iff h.attr h.rid).mpr ⟨h.within, h.rids⟩
  have hzero : ∀ a ∈ K, ∀ b ∈ K, intsComparator a b = 0 ↔ a = b := fun a ha b hb => by
    rw [intsComparator, htotal.eq_iff a ha b hb]
    exact ⟨fun ⟨hattr, hrid⟩ => by cases a; cases b; cases hattr; cases hrid; rfl, fun he => he ▸ ⟨rfl, rfl⟩⟩
  refine ⟨hzero, fun a ha b hb => (htotal.gt_iff hb ha).symm, fun a ha b hb c hc hab hbc => ?_⟩
  have hle := htotal.trans a ha b hb c hc (le_of_lt hab) (le_of_lt hbc)
  refine lt_of_le_of_ne hle fun hac => ?_
  -- `c` would be `a`, on both sides of `b`
  have he := (hzero a ha c hc).mp hac
  subst he
  have := (htotal.gt_iff hb ha).mp hbc
  exact lt_asymm hab this

variable {S : FieldMeta → Set (Key Int)} {s t : IndexedTable} {c : Call}

theorem recordDelete_live {a : Answers} {record : Pointer} {rid : RecordId} (hlive : s.records rid = some record)
    (ha : a.recordDelete = .success) : s.recordDelete a rid = (.success, s.withRow rid none) := by
  simp only [recordDelete, ha, hlive, ne_eq, not_true_eq_false, if_false]

theorem recordDelete_inserted {a : Answers} {record : Pointer} {rid : RecordId} (hfree : s.records rid = none)
    (ha : a.recordDelete = .success) : ((s.withRow rid (some record)).recordDelete a rid).2 = s := by
  have hback : Function.update (Function.update s.records rid (some record)) rid none = s.records := by
    rw [Function.update_idem, ← hfree, Function.update_eq_self]
  rw [recordDelete_live (Function.update_self rid (some record) s.records) ha]
  exact congrArg (IndexedTable.mk s.table) hback

theorem InStep.insertRecord {a : Answers} {record : Pointer} {rid : RecordId}
    (hS : ∀ f, StrictTotalOn intsComparator (S f)) (h : ∀ i ∈ s.table.indexes, InStep S s.records i)
    (hp : Possible s (.insertRecord a record rid)) (hm : Meets S s (.insertRecord a record rid)) :
    ∀ i ∈ (s.insertRecord a record rid).2.table.indexes, InStep S (s.insertRecord a record rid).2.records i := by
  have hfree : s.records rid = none := hp
  unfold IndexedTable.insertRecord
  split
  · exact h
  · simp only
    split
    · rename_i htxn
      rw [recordDelete_inserted hfree (hm.1.resolve_left htxn)]
      exact h
    · obtain ⟨is, heq, his⟩ := insertEntryOfIndexes_inStep hS h hfree (fun i hi => (hm.2 i hi).1)
        fun i hi => (hm.2 i hi).2
      have heq' : insertEntryOfIndexes record rid (s.withRow rid (some record)).table.indexes =
          (.success, is) := heq
      rw [heq']
      exact his

theorem InStep.deleteRecord {a : Answers} {record : Pointer} {rid : RecordId}
    (hS : ∀ f, StrictTotalOn intsComparator (S f)) (h : ∀ i ∈ s.table.indexes, InStep S s.records i)
    (hp : Possible s (.deleteRecord a record rid)) (hm : Meets S s (.deleteRecord a record rid)) :
    ∀ i ∈ (s.deleteRecord a record rid).2.table.indexes, InStep S (s.deleteRecord a record rid).2.records i := by
  have hlive : s.records rid = some record := hp
  have ha : a.recordDelete = .success := hm
  obtain ⟨is, heq, his⟩ := deleteEntryOfIndexes_inStep hS h hlive false
  have hgone : (s.withIndexes is).recordDelete a rid = (.success, (s.withIndexes is).withRow rid none) :=
    recordDelete_live hlive ha
  unfold IndexedTable.deleteRecord
  simp only [heq, hgone, ne_eq, not_true_eq_false, if_false]
  exact his

/-- The entries of the rows of a scan over all live rows. -/
theorem rowEntry_eq (i : BplusTreeIndex) (rid : RecordId) (record : Pointer) :
    rowEntry i.fieldMeta.offset (rid, record) = (⟨i.userKey record, rid⟩, rid) := rfl

theorem covers_of_perm {live : RecordId → Option Pointer} {i : BplusTreeIndex}
    {es : List (Key Int × RecordId)} {rows : List (RecordId × Pointer)} (hrows : (rows.map Prod.fst).Nodup)
    (hiff : ∀ rid record, (rid, record) ∈ rows ↔ live rid = some record)
    (h : es.Perm (rows.map (rowEntry i.fieldMeta.offset))) : Covers i live es where
  nodup := by
    refine h.nodup_iff.mpr (List.Nodup.of_map Prod.snd ?_)
    rw [List.map_map]
    exact hrows
  mem_iff e := by
    rw [h.mem_iff, List.mem_map]
    constructor
    · rintro ⟨⟨rid, record⟩, hrow, rfl⟩
      rw [rowEntry_eq]
      exact ⟨record, (hiff rid record).mp hrow, rfl⟩
    · rintro ⟨record, hlive, hkey⟩
      refine ⟨(e.2, record), (hiff e.2 record).mpr hlive, ?_⟩
      rw [rowEntry_eq]
      exact Prod.ext hkey.symm rfl

theorem InStep.createIndex {indexName attrName : Option String} {file : Re} {rows : List (RecordId × Pointer)}
    (hS : ∀ f, StrictTotalOn intsComparator (S f)) (h : ∀ i ∈ s.table.indexes, InStep S s.records i)
    (hp : Possible s (.createIndex indexName attrName file rows))
    (hm : Meets S s (.createIndex indexName attrName file rows)) :
    ∀ i ∈ (s.createIndex indexName attrName file rows).2.table.indexes,
      InStep S (s.createIndex indexName attrName file rows).2.records i := by
  obtain ⟨-, hnodup, hvisited⟩ := hp
  obtain ⟨hall, hkeys⟩ := hm
  unfold IndexedTable.createIndex
  rcases s.table.createIndex_built (s.indexCall indexName attrName file rows) with
    ⟨r, -, heq⟩ | ⟨name, field, m, hname, hfield, hcreate, heq⟩
  · rw [heq]
    exact h
  · rw [heq]
    have hattr : attrName = some name := hname
    have hfill : (s.indexCall indexName attrName file rows).fill = BplusTreeIndex.fill field.offset rows := by
      simp only [indexCall, hattr, Option.bind_some, hfield, Option.map_some, Option.getD_some]
    have htree : (s.indexCall indexName attrName file rows).create m field = BplusTreeIndex.create file := rfl
    obtain ⟨hin, hroom⟩ := hkeys name field hattr hfield
    obtain ⟨tree, htree'⟩ : ∃ tree, (BplusTreeIndex.create file).2 = tree := ⟨_, rfl⟩
    have hempty : Keeps (S field) tree [] := htree' ▸ Keeps.create file
    rw [hfill, htree, htree']
    rw [htree'] at hroom
    obtain ⟨-, es, hkeeps, hperm⟩ := fill_keeps (hS field) hempty hin hnodup nofun hroom
    refine List.forall_mem_append.mpr ⟨h, fun i hi => ?_⟩
    rw [List.mem_singleton.mp hi]
    exact ⟨es, hkeeps, covers_of_perm hnodup (fun rid record => ⟨hvisited (rid, record), hall rid record⟩) hperm⟩

theorem InStep.step (hS : ∀ f, StrictTotalOn intsComparator (S f))
    (h : ∀ i ∈ s.table.indexes, InStep S s.records i) (hp : Possible s c) (hm : Meets S s c) :
    ∀ i ∈ (s.step c).2.table.indexes, InStep S (s.step c).2.records i := by
  cases c with
  | createIndex indexName attrName file rows => exact InStep.createIndex hS h hp hm
  | insertRecord a record rid => exact InStep.insertRecord hS h hp hm
  | deleteRecord a record rid => exact InStep.deleteRecord hS h hp hm

theorem Run.inStep (hS : ∀ f, StrictTotalOn intsComparator (S f))
    (h : ∀ i ∈ s.table.indexes, InStep S s.records i) (hr : Run (fun s c => Possible s c ∧ Meets S s c) s t) :
    ∀ i ∈ t.table.indexes, InStep S t.records i := by
  induction hr with
  | start => exact h
  | call _ hc ih => exact InStep.step hS ih hc.1 hc.2

/-- Along calls that meet the conditions every index has exactly one entry for every live row. -/
theorem consistent_of_apart {S : FieldMeta → Set (Key Int)} (hS : ∀ f, Apart (S f)) {s t : IndexedTable}
    (hs : s.table.indexes = []) (h : Run (fun s c => Possible s c ∧ Meets S s c) s t) : Consistent t := by
  refine InStep.consistent (h.inStep (fun f => (hS f).strictTotalOn) fun i hi => ?_)
  rw [hs] at hi
  cases hi

/-- A table with one Ints column behind the transaction field, without rows and indexes. -/
def oneColumn : IndexedTable where
  table := ⟨⟨"t", [⟨"id", .ints, 4, 4, true⟩], [], 8⟩, []⟩
  records _ := none

def row (v : UInt8) : Pointer := fun k => if k = 4 then v else 0

def succeeds : Answers := ⟨.success, .success, .success, .success⟩

def createId : Call := .createIndex (some "i") (some "id") .success []

def insertAt (v : UInt8) (rid : RecordId) : Call := .insertRecord succeeds (row v) rid

theorem possible_createId : Possible oneColumn createId := by
  refine ⟨fun name field hname hfield => ?_, List.nodup_nil, fun _ h => absurd h List.not_mem_nil⟩
  cases hname
  cases hfield
  rfl

theorem meets_createId (S : FieldMeta → Set (Key Int)) : Meets S oneColumn createId := by
  refine ⟨fun rid record h => ?_, fun name field _ _ => ⟨fun _ h => absurd h List.not_mem_nil, trivial⟩⟩
  cases h

/-- Two rows with different values on one page. -/
theorem consistent_of_apart_twoRows : Consistent
    (((oneColumn.step createId).2.step (insertAt 5 ⟨1, 0⟩)).2.step (insertAt 7 ⟨1, 1⟩)).2 := by
  have hkeys : Apart {⟨5, ⟨1, 0⟩⟩, ⟨7, ⟨1, 1⟩⟩} := by
    refine ⟨?_, ?_, ⟨5, ?_⟩, ?_⟩
    · rintro a (rfl | rfl) <;> decide
    · rintro a (rfl | rfl) <;> exact ⟨by decide, by decide⟩
    · rintro _ ⟨a, rfl | rfl, rfl⟩ <;> decide
    · rintro a (rfl | rfl) b (rfl | rfl) <;> decide
  refine consistent_of_apart (S := fun _ => {⟨5, ⟨1, 0⟩⟩, ⟨7, ⟨1, 1⟩⟩}) (fun _ => hkeys) (s := oneColumn) rfl ?_
  refine .call (.call (.call .start ⟨possible_createId, meets_createId _⟩) ⟨rfl, .inl rfl, ?_⟩)
    ⟨rfl, .inl rfl, ?_⟩
  · intro i hi
    cases List.mem_singleton.mp hi
    exact ⟨.inl (by decide +kernel), by decide +kernel⟩
  · intro i hi
    cases List.mem_singleton.mp hi
    exact ⟨.inr (by decide +kernel), by decide +kernel⟩

/-- Two rows with one value on one page: the second is refused, and what is undone is the entry of the
first. -/
theorem not_consistent_same_value : ∃ s t : IndexedTable, s.table.indexes = [] ∧ Run Possible s t ∧
    t = (((s.step createId).2.step (insertAt 5 ⟨1, 0⟩)).2.step (insertAt 5 ⟨1, 1⟩)).2 ∧ ¬Consistent t := by
  have hcreated : Run Possible oneColumn (oneColumn.step createId).2 := .call .start possible_createId
  have hfirst := hcreated.call (c := insertAt 5 ⟨1, 0⟩) rfl
  have hsecond := hfirst.call (c := insertAt 5 ⟨1, 1⟩) rfl
  refine ⟨oneColumn, _, rfl, hsecond, rfl, fun h => ?_⟩
  obtain ⟨es, hlists, hcovers⟩ := h _ (List.mem_singleton.mpr rfl)
  have hmem := (hcovers.mem_iff (⟨5, ⟨1, 0⟩⟩, ⟨1, 0⟩)).mpr ⟨row 5, rfl, by decide +kernel⟩
  rcases hlists with ⟨-, rfl⟩ | ⟨m, tree, hwf, -⟩
  · cases hmem
  · exact absurd hwf.root nofun

end IndexedTable

end Idmbs
