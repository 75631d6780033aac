import Idmbs.BPlusTree.IndexRuns
import Idmbs.Storage.PageRuns

/-!
# Idmbs.BPlusTree.IndexChecks

Whether a run of calls trips over an assertion or overfills a node, for the node sizes that `Create`
computes from the length of the attribute (storage/b_plus_tree.cpp).

Up to an attribute length of 2716 an internal node has room for six children and a leaf for four
entries, and every run is safe. A leaf with room for one entry is split into an empty leaf and one
that is full when the next entry comes.
-/

namespace Idmbs

open Comparator SearchTree

def bpPageDataSize : Nat := 16380

/-- `HEADER_SIZE` of the node kind. -/
def indexNodeHeaderSize : NodeKind → Nat
  | .leaf => 20
  | .internal => 12

/-- The size of an item: the attribute, the record id in the key, and a record id or a page id. -/
def indexItemSize (attrLength : Nat) : NodeKind → Nat
  | .leaf => attrLength + 8 + 8
  | .internal => attrLength + 8 + 4

def calcInternalPageCapacity (attrLength : Nat) : Nat :=
  (bpPageDataSize - indexNodeHeaderSize .internal) / indexItemSize attrLength .internal

def calcLeafPageCapacity (attrLength : Nat) : Nat :=
  (bpPageDataSize - indexNodeHeaderSize .leaf) / indexItemSize attrLength .leaf

/-- Attributes of at most 2716 bytes are those with six children to an internal node. -/
theorem calcInternalPageCapacity_iff (attrLength : Nat) :
    6 ≤ calcInternalPageCapacity attrLength ↔ attrLength ≤ 2716 := by
  have hpos : 0 < indexItemSize attrLength .internal := Nat.succ_pos _
  rw [calcInternalPageCapacity, Nat.le_div_iff_mul_le hpos]
  simp only [bpPageDataSize, indexNodeHeaderSize, indexItemSize]
  omega

theorem four_le_calcLeafPageCapacity {attrLength : Nat} (h : attrLength ≤ 2716) :
    4 ≤ calcLeafPageCapacity attrLength := by
  have hpos : 0 < indexItemSize attrLength .leaf := Nat.succ_pos _
  rw [calcLeafPageCapacity, Nat.le_div_iff_mul_le hpos]
  simp only [bpPageDataSize, indexNodeHeaderSize, indexItemSize]
  omega

/-- Where the items of a full node end. -/
theorem capacity_inside (attrLength : Nat) (kind : NodeKind) :
    indexNodeHeaderSize kind + (match kind with
      | .leaf => calcLeafPageCapacity attrLength
      | .internal => calcInternalPageCapacity attrLength) * indexItemSize attrLength kind ≤
        bpPageDataSize := by
  cases kind with
  | leaf =>
    have := Nat.div_mul_le_self (bpPageDataSize - indexNodeHeaderSize .leaf)
      (indexItemSize attrLength .leaf)
    simp only [calcLeafPageCapacity, bpPageDataSize, indexNodeHeaderSize] at this ⊢
    omega
  | internal =>
    have := Nat.div_mul_le_self (bpPageDataSize - indexNodeHeaderSize .internal)
      (indexItemSize attrLength .internal)
    simp only [calcInternalPageCapacity, bpPageDataSize, indexNodeHeaderSize] at this ⊢
    omega

namespace BplusTreeHandler

variable {α : Type} [Inhabited α] {cmp : Key α → Key α → Int} {S : Set (Key α)}
  {s : BplusTreeHandler α} {b : Tree.Bounds}

/-- No assertion fails in the call, and no item is put into a full node. -/
def callChecks (cmp : Key α → Key α → Int) (s : BplusTreeHandler α) : IndexCall α → Prop
  | .insertEntry userKey rid => s.insertEntryChecks cmp userKey rid
  | .deleteEntry userKey rid => s.deleteEntryChecks cmp userKey rid

/-- The items of every node of the tree end inside its page. -/
def NodesFit (attrLength : Nat) (s : BplusTreeHandler α) : Prop :=
  ∀ root, s.fileHeader.rootPageId = some root → ∀ p, Relation.ReflTransGen s.Child root p →
    indexNodeHeaderSize (s.kindOf p) + (s.node p).size * indexItemSize attrLength (s.kindOf p) ≤
      bpPageDataSize

/-! ## The way down -/

/-- The search stays among the children of a node that has some. -/
theorem internalLookUp_lt (cmp : Key α → Key α → Int) {n : IndexNode α} (key : Key α) (hn : n.children ≠ []) :
    (n.internalLookUp cmp key).1 < n.children.length := by
  have hle := findLowerBound_le (fun k => cmp k key) (n.children.tail.map Prod.fst)
  have hpos := List.length_pos_of_ne_nil hn
  simp only [List.length_map, List.length_tail] at hle
  simp only [IndexNode.internalLookUp, if_neg hn]
  split_ifs with h
  · omega
  · simp only
    omega

section Tree

variable [LinearOrder (Key α)] {m : Nat} {t : IndexTree α m} {hdr : IndexFileHeader}
  {st : Option PageId} {nd : PageId → IndexNode α} {key : Key α}

omit [LinearOrder (Key α)] in
theorem findLeafLoopChecks_of_holds {h : Nat} {u : IndexTree α h} {par : Option PageId}
    {root : Bool} (hb : b.Wide) :
    ∀ {fuel : Nat} {s : BplusTreeHandler α}, View s t.pages hdr st nd → Holds nd par u →
      Tree.Sized b root u → u.pages ⊆ t.pages →
      findLeafLoopChecks cmp key fuel u.page s := by
  induction u using Tree.ind generalizing par root with
  | leaf p es =>
    intro fuel s hv hu _ _
    cases fuel with
    | zero => trivial
    | succ fuel =>
      have hleaf : (s.node p).isLeaf = true := by rw [hv.node]; exact (holds_leaf.mp hu).1
      simp only [findLeafLoopChecks, Tree.page_leaf, hleaf, if_true]
  | inner p items ih =>
    intro fuel s hv hu hz hsub
    cases fuel with
    | zero => trivial
    | succ fuel =>
      obtain ⟨⟨hleaf, -, hchildren⟩, hitems⟩ := holds_inner.mp hu
      have hleaf' : (s.node p).isLeaf = false := by rw [hv.node]; exact hleaf
      have hne : (s.node p).children ≠ [] := by
        rw [hv.node, hchildren, ← List.length_pos_iff, length_childLinks]
        exact hz.pos hb
      have hlt := internalLookUp_lt cmp key hne
      have hsize : (s.node p).size = (s.node p).children.length := by
        rw [IndexNode.size, hleaf']
        rfl
      simp only [findLeafLoopChecks, Tree.page_inner, hleaf', Bool.false_eq_true, if_false]
      refine ⟨by rw [hsize]; exact hlt, ?_⟩
      obtain ⟨i, hi⟩ : ∃ i, ((s.node p).internalLookUp cmp key).1 = i := ⟨_, rfl⟩
      rw [hi] at hlt
      rw [hv.node, hchildren, length_childLinks] at hlt
      have hit := List.getElem_mem hlt
      have hval : (s.node p).valueAt i = items[i].2.page := by
        rw [hv.node, IndexNode.valueAt, hchildren]
        simp [childLinks, hlt]
      have hpages : items[i].2.pages ⊆ t.pages := fun q hq => hsub (by
        rw [Tree.pages_inner]
        exact List.mem_cons_of_mem _ (List.mem_flatMap.mpr ⟨items[i], hit, hq⟩))
      have hget := (hv.unpinPage (p := p)).getPage (hpages items[i].2.page_mem_pages)
      simp only [hi, hval, hget, ne_eq, not_true_eq_false, if_false]
      exact ih items[i] hit ((hv.unpinPage (p := p)).pinned) (hitems items[i] hit)
        ((Tree.below_inner _ _ _).mp hz.below items[i] hit) hpages

theorem Valid.findLeafChecks (h : Valid S s hdr nd t) (hb : hdr.bounds.Wide) :
    s.findLeafChecks cmp key := by
  have hv := h.view
  have hroot : s.fileHeader.rootPageId = some t.page := by rw [hv.fileHeader]
  simp only [BplusTreeHandler.findLeafChecks, hroot, hv.getPage t.page_mem_pages, ne_eq,
    not_true_eq_false, if_false]
  exact findLeafLoopChecks_of_holds hb hv.pinned h.holds h.sized fun _ hp => hp

/-! ## One call -/

theorem Valid.insertEntryChecks (ha : Agrees cmp S) (hr : hdr.Roomy) (h : Valid S s hdr nd t)
    {userKey : α} {rid : RecordId} (hx : (⟨userKey, rid⟩ : Key α) ∈ S)
    (hroom : (s.insertEntry cmp userKey rid).2.pool.noBuf = false) :
    s.insertEntryChecks cmp userKey rid := by
  obtain ⟨c, p, es, s1, rfl, hc, hfind, hv1⟩ := findLeaf_spec ha h.keys hx h.view rfl h.holds
    h.sorted h.sized hr.wide h.nodup
  have h1 : Valid S s1 hdr nd (c.plug (.leaf p es)) := { h with view := hv1 }
  have hne : s.isEmpty = false := by simp [isEmpty, h.view.fileHeader]
  simp only [insertEntry, hne, Bool.false_eq_true, if_false, hfind, ne_eq, not_true_eq_false]
    at hroom
  simp only [BplusTreeHandler.insertEntryChecks, hne, Bool.false_eq_true, if_false, hfind, ne_eq,
    not_true_eq_false]
  refine ⟨h.findLeafChecks hr.wide, ?_⟩
  rcases insertEntryIntoLeafNode_spec (v := rid) ha hr h1 hx hc with ⟨-, -, hchecks⟩ | ⟨-, hins⟩
  · exact hchecks
  · rcases hins with hbuf | ⟨-, -, -, hchecks⟩
    · rcases hl : insertEntryIntoLeafNode cmp p ⟨userKey, rid⟩ rid s1 with ⟨r, s2⟩
      rw [hl] at hbuf hroom
      have hnb : s2.pool.noBuf = false := by
        simp only at hroom
        split_ifs at hroom with hs
        · exact hroom
        · simpa [BplusTreeHandler.unpinPage] using hroom
      exact absurd (hbuf.symm.trans hnb) (by decide)
    · exact hchecks

theorem Valid.deleteEntryChecks (ha : Agrees cmp S) (hr : hdr.Roomy) (h : Valid S s hdr nd t)
    {userKey : α} {rid : RecordId} (hx : (⟨userKey, rid⟩ : Key α) ∈ S) :
    s.deleteEntryChecks cmp userKey rid := by
  obtain ⟨c, p, es, s1, rfl, hc, hfind, hv1⟩ := findLeaf_spec ha h.keys hx h.view rfl h.holds
    h.sorted h.sized hr.wide h.nodup
  have h1 : Valid S s1 hdr nd (c.plug (.leaf p es)) := { h with view := hv1 }
  simp only [BplusTreeHandler.deleteEntryChecks, hfind, ne_eq, not_true_eq_false, if_false]
  exact ⟨h.findLeafChecks hr.wide, (deleteEntryInternal_spec ha hr h1 hx hc).2.2⟩

end Tree

/-! ## Every run -/

theorem Maintained.callChecks (hcmp : StrictTotalOn cmp S) (hr : s.fileHeader.Roomy)
    (h : Maintained cmp S b s) {c : IndexCall α} (hc : c.key ∈ S)
    (hroom : (s.call cmp c).2.pool.noBuf = false) : s.callChecks cmp c := by
  obtain ⟨order, ha⟩ := exists_linearOrder hcmp
  rcases h.tree with he | ⟨m, t, hwf, hkeys⟩
  · cases c with
    | insertEntry userKey rid =>
      have hempty : s.isEmpty = true := by simp [isEmpty, he.root]
      simp only [BplusTreeHandler.callChecks, insertEntryChecks, hempty, if_true]
      exact le_trans (show 1 ≤ 4 by decide) hr.leaf
    | deleteEntry userKey rid =>
      simp [BplusTreeHandler.callChecks, deleteEntryChecks, findLeafChecks, findLeaf,
        findLeafInternal, he.root]
  · have hval := hwf.valid ha hkeys hr.wide h.faults
    cases c with
    | insertEntry userKey rid => exact hval.insertEntryChecks ha hr hc hroom
    | deleteEntry userKey rid => exact hval.deleteEntryChecks ha hr hc

omit [Inhabited α] in
/-- The page of a node holds no more items than the largest node of its kind. -/
theorem Maintained.size_le (h : Maintained cmp S b s) {root p : PageId}
    (hroot : s.fileHeader.rootPageId = some root) (hp : Relation.ReflTransGen s.Child root p) :
    (s.node p).size ≤ s.maxSize (s.kindOf p) := by
  rcases h.tree with he | ⟨m, t, hwf, -⟩
  · rw [he.root] at hroot
    cases hroot
  · have htop : root = t.page := Option.some.inj (hroot.symm.trans hwf.root)
    subst htop
    obtain ⟨k, u, par, hu, hholds, hhi⟩ : ∃ (k : Nat) (u : IndexTree α k) (par : Option PageId),
        u.page = p ∧ Holds s.node par u ∧ u.size ≤ s.fileHeader.bounds.hi k := by
      rcases Relation.reflTransGen_iff_eq_or_transGen.mp hp with rfl | hp
      · exact ⟨m, t, none, rfl, hwf.holds, hwf.sized.hi⟩
      · obtain ⟨k, u, par, hu, hholds, hsized⟩ := Holds.below hwf.holds hwf.sized.below hp
        exact ⟨k, u, par, hu, hholds, hsized.hi⟩
    subst hu
    obtain ⟨hsize, hkind⟩ := Holds.size_eq hholds
    rw [hsize, hkind]
    cases k with
    | zero => exact hhi
    | succ k => exact hhi

/-- For attributes of at most 2716 bytes, in every run while the file has room: the items of every
node end inside its page, no assertion of a call fails and no call puts an item into a full node. -/
theorem checks_of_narrow {attrLength : Nat} (hcmp : StrictTotalOn cmp S) (hattr : attrLength ≤ 2716)
    (h : Reached cmp S (calcInternalPageCapacity attrLength) (calcLeafPageCapacity attrLength) s) :
    NodesFit attrLength s ∧ ∀ c : IndexCall α, c.key ∈ S →
      (s.call cmp c).2.pool.noBuf = false → s.callChecks cmp c := by
  have hleaf := four_le_calcLeafPageCapacity hattr
  have hinternal := (calcInternalPageCapacity_iff attrLength).mpr hattr
  have hmain := h.maintained hcmp hleaf hinternal
  obtain ⟨h1, h2⟩ := Tree.Bounds.mk.inj (show (⟨s.fileHeader.leafMaxSize,
    s.fileHeader.internalMaxSize⟩ : Tree.Bounds) = ⟨_, _⟩ from hmain.bounds)
  constructor
  · intro root hroot p hp
    have hle := hmain.size_le hroot hp
    have hinside := capacity_inside attrLength (s.kindOf p)
    refine le_trans (Nat.add_le_add_left (Nat.mul_le_mul_right _ ?_) _) hinside
    cases hk : s.kindOf p with
    | leaf =>
      rw [hk] at hle
      simpa only [maxSize, h1] using hle
    | internal =>
      rw [hk] at hle
      simpa only [maxSize, h2] using hle
  · intro c hc hroom
    exact hmain.callChecks hcmp ⟨h1 ▸ hleaf, h2 ▸ hinternal⟩ hc hroom

/-- Three inserts into an index over attributes of four bytes. -/
theorem checks_of_narrow_four : NodesFit 4 (run numberComparator (ascending 3)
      (emptyIndex (calcInternalPageCapacity 4) (calcLeafPageCapacity 4))) ∧
    (run numberComparator (ascending 3) (emptyIndex (calcInternalPageCapacity 4)
      (calcLeafPageCapacity 4))).callChecks numberComparator (.deleteEntry 1 ⟨1, 0⟩) := by
  have hnew : Reached numberComparator Set.univ (calcInternalPageCapacity 4)
      (calcLeafPageCapacity 4) (emptyIndex (calcInternalPageCapacity 4) (calcLeafPageCapacity 4)) :=
    .create (show create .ints _ _ PagePool.newFile = .ok (emptyIndex _ _) from rfl)
  have hreached := hnew.run (ascending 3) (fun _ _ => trivial) (by decide +kernel)
  have hchecks := checks_of_narrow numberComparator_strictTotal (by decide) hreached
  exact ⟨hchecks.1, hchecks.2 (.deleteEntry 1 ⟨1, 0⟩) trivial (by decide +kernel)⟩

/-- A new index file over a char column of this length. -/
def charIndex (attrLength : Nat) : BplusTreeHandler Int :=
  match create .chars (calcInternalPageCapacity attrLength) (calcLeafPageCapacity attrLength)
    PagePool.newFile with
  | .ok s => s
  | .error _ => ⟨default, PagePool.newFile⟩

/-- With attributes of 9000 bytes a leaf has room for one entry, and the second insert puts two into
the new leaf. -/
theorem not_checks_9000 : ¬∀ attrLength : Nat, 1 ≤ attrLength →
    1 ≤ PageBytes.capacityOf bpPageDataSize attrLength →
    ∀ s : BplusTreeHandler Int, Reached numberComparator Set.univ
      (calcInternalPageCapacity attrLength) (calcLeafPageCapacity attrLength) s →
      NodesFit attrLength s ∧ ∀ c : IndexCall Int, c.key ∈ Set.univ →
        (s.call numberComparator c).2.pool.noBuf = false → s.callChecks numberComparator c := by
  intro h
  have hnew : Reached numberComparator Set.univ (calcInternalPageCapacity 9000)
      (calcLeafPageCapacity 9000) (charIndex 9000) :=
    .create (show create .chars _ _ PagePool.newFile = .ok (charIndex 9000) from rfl)
  have hreached := hnew.run (ascending 2) (fun _ _ => trivial) (by decide +kernel)
  have hfit := (h 9000 (by decide) (by decide +kernel) _ hreached).1 4 (by decide +kernel) 3
    (.single ⟨by decide +kernel, by decide +kernel⟩)
  exact absurd hfit (by decide +kernel)

end BplusTreeHandler

end Idmbs
