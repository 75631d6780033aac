import Idmbs.BPlusTree.Delete
import Idmbs.BPlusTree.Insert
import Mathlib.Algebra.Group.Even
import Mathlib.Logic.Relation

/-!
# Idmbs.BPlusTree.IndexRuns

Runs of `InsertEntry` and `DeleteEntry` on a new index, and how full the nodes are along them.
`GetMinSize` rounds half of the maximum up, `MoveHalfTo` keeps half of it rounded down.
-/

namespace Idmbs

open SearchTree Comparator

inductive IndexCall (α : Type) where
  | insertEntry (userKey : α) (rid : RecordId)
  | deleteEntry (userKey : α) (rid : RecordId)

def IndexCall.key {α : Type} : IndexCall α → Key α
  | .insertEntry userKey rid => ⟨userKey, rid⟩
  | .deleteEntry userKey rid => ⟨userKey, rid⟩

namespace BplusTreeHandler

variable {α : Type} [Inhabited α]

def call (cmp : Key α → Key α → Int) (s : BplusTreeHandler α) : IndexCall α → Re × BplusTreeHandler α
  | .insertEntry userKey rid => s.insertEntry cmp userKey rid
  | .deleteEntry userKey rid => s.deleteEntry cmp userKey rid

/-- The indexes that calls lead to from a new one, while the file has room; the keys are in `S`. -/
inductive Reached (cmp : Key α → Key α → Int) (S : Set (Key α)) (internalMaxSize leafMaxSize : Nat) :
    BplusTreeHandler α → Prop
  | create {attrType : AttrType} {s : BplusTreeHandler α}
      (h : create attrType internalMaxSize leafMaxSize PagePool.newFile = .ok s) :
      Reached cmp S internalMaxSize leafMaxSize s
  | call {s : BplusTreeHandler α} (h : Reached cmp S internalMaxSize leafMaxSize s) {c : IndexCall α}
      (hc : c.key ∈ S) (hroom : (s.call cmp c).2.pool.noBuf = false) :
      Reached cmp S internalMaxSize leafMaxSize (s.call cmp c).2

/-- `q` is a child of the internal node on page `p`. -/
def Child (s : BplusTreeHandler α) (p q : PageId) : Prop :=
  (s.node p).isLeaf = false ∧ q ∈ (s.node p).children.map Prod.snd

def kindOf (s : BplusTreeHandler α) (p : PageId) : NodeKind := if (s.node p).isLeaf then .leaf else .internal

/-- Every node below the root has at least `GetMinSize` items. -/
def Occupied (s : BplusTreeHandler α) : Prop :=
  ∀ root, s.fileHeader.rootPageId = some root → ∀ p, Relation.TransGen s.Child root p →
    s.minSize (s.kindOf p) ≤ (s.node p).size

/-! ## What every run keeps -/

section Runs

variable {cmp : Key α → Key α → Int} {S : Set (Key α)} {s : BplusTreeHandler α} {b : Tree.Bounds}

/-- No call fails to load a page, and the tree is well formed or there is none. -/
structure Maintained (cmp : Key α → Key α → Int) (S : Set (Key α)) (b : Tree.Bounds) (s : BplusTreeHandler α) :
    Prop where
  faults : s.pool.faults = []
  bounds : s.fileHeader.bounds = b
  tree : IsEmptyTree s ∨ ∃ (m : Nat) (t : IndexTree α m), WellFormed cmp s t ∧ ∀ k ∈ t.keys, k ∈ S

omit [Inhabited α] in
theorem Maintained.roomy {internalMaxSize leafMaxSize : Nat} (hleaf : 4 ≤ leafMaxSize)
    (hinternal : 6 ≤ internalMaxSize) (h : Maintained cmp S ⟨leafMaxSize, internalMaxSize⟩ s) :
    s.fileHeader.Roomy := by
  obtain ⟨h1, h2⟩ := Tree.Bounds.mk.inj (show (⟨s.fileHeader.leafMaxSize, s.fileHeader.internalMaxSize⟩ :
    Tree.Bounds) = ⟨leafMaxSize, internalMaxSize⟩ from h.bounds)
  exact ⟨h1 ▸ hleaf, h2 ▸ hinternal⟩

theorem Maintained.insertEntry (hcmp : StrictTotalOn cmp S) (hr : s.fileHeader.Roomy) (h : Maintained cmp S b s)
    {userKey : α} {rid : RecordId} (hx : (⟨userKey, rid⟩ : Key α) ∈ S)
    (hroom : (s.insertEntry cmp userKey rid).2.pool.noBuf = false) :
    Maintained cmp S b (s.insertEntry cmp userKey rid).2 := by
  obtain ⟨order, ha⟩ := exists_linearOrder hcmp
  have hnb : (s.insertEntry cmp userKey rid).2.pool.noBuf ≠ true := by simp [hroom]
  rcases h.tree with he | ⟨m, t, hwf, hkeys⟩
  · have hv : View s [] s.fileHeader none s.node := ⟨h.faults, he.sound, by simp, rfl, he.stored, rfl⟩
    obtain ⟨-, t, nd, hval, -⟩ := (insertEntry_empty cmp hr he.root hv hx).resolve_left hnb
    exact ⟨hval.view.faults, hval.bounds_eq.trans h.bounds, .inr ⟨0, t, hval.wellFormed ha, hval.keys⟩⟩
  · have hval := hwf.valid ha hkeys hr.wide h.faults
    rcases insertEntry_valid ha hr hval hx with ⟨-, -, hval'⟩ | ⟨-, hins⟩
    · exact ⟨hval'.view.faults, hval'.bounds_eq.trans h.bounds, .inr ⟨m, t, hval'.wellFormed ha, hval'.keys⟩⟩
    · obtain ⟨-, m', t', nd, -, -, hval', -⟩ := hins.resolve_left hnb
      exact ⟨hval'.view.faults, hval'.bounds_eq.trans h.bounds, .inr ⟨m', t', hval'.wellFormed ha, hval'.keys⟩⟩

theorem Maintained.deleteEntry (hcmp : StrictTotalOn cmp S) (hr : s.fileHeader.Roomy) (h : Maintained cmp S b s)
    {userKey : α} {rid : RecordId} (hx : (⟨userKey, rid⟩ : Key α) ∈ S) :
    Maintained cmp S b (s.deleteEntry cmp userKey rid).2 := by
  obtain ⟨order, ha⟩ := exists_linearOrder hcmp
  rcases h.tree with he | ⟨m, t, hwf, hkeys⟩
  · have hnone : s.deleteEntry cmp userKey rid = (.empty, s) := by
      simp [BplusTreeHandler.deleteEntry, findLeaf, findLeafInternal, he.root]
    rw [hnone]
    exact h
  · have hval := hwf.valid ha hkeys hr.wide h.faults
    rcases deleteEntry_valid ha hr hval hx with ⟨A, w, B, -, -, hrep⟩ | ⟨-, -, hval'⟩
    · rcases hrep with ⟨m', t', nd, hval', -⟩ | ⟨-, nd, hv⟩
      · exact ⟨hval'.view.faults, hval'.bounds_eq.trans h.bounds, .inr ⟨m', t', hval'.wellFormed ha, hval'.keys⟩⟩
      · refine ⟨hv.faults, ?_, .inl ⟨?_, hv.stored, hv.sound⟩⟩
        · exact ((congrArg IndexFileHeader.bounds hv.fileHeader).trans rfl).trans h.bounds
        · exact congrArg IndexFileHeader.rootPageId hv.fileHeader
    · exact ⟨hval'.view.faults, hval'.bounds_eq.trans h.bounds, .inr ⟨m, t, hval'.wellFormed ha, hval'.keys⟩⟩

theorem Reached.maintained {internalMaxSize leafMaxSize : Nat} (hcmp : StrictTotalOn cmp S) (hleaf : 4 ≤ leafMaxSize)
    (hinternal : 6 ≤ internalMaxSize) (h : Reached cmp S internalMaxSize leafMaxSize s) :
    Maintained cmp S ⟨leafMaxSize, internalMaxSize⟩ s := by
  induction h with
  | @create attrType s hs =>
    obtain ⟨s', hs', he, hh, hf⟩ := create_isEmptyTree (α := α) attrType internalMaxSize leafMaxSize
    rw [hs] at hs'
    cases hs'
    exact ⟨hf, by rw [hh]; rfl, .inl he⟩
  | @call s _ c hc hroom ih =>
    have hr := ih.roomy hleaf hinternal
    cases c with
    | insertEntry userKey rid => exact ih.insertEntry hcmp hr hc hroom
    | deleteEntry userKey rid => exact ih.deleteEntry hcmp hr hc

end Runs

/-! ## Occupancy -/

section Occupancy

variable {cmp : Key α → Key α → Int} {S : Set (Key α)} {s : BplusTreeHandler α} {b : Tree.Bounds} {h : Nat}
  {par : Option PageId}

omit [Inhabited α] in
/-- The page of a node holds a node of its size and kind. -/
theorem Holds.size_eq {t : IndexTree α h} (ht : Holds s.node par t) :
    (s.node t.page).size = t.size ∧ s.kindOf t.page = if h = 0 then .leaf else .internal := by
  cases h with
  | zero =>
    obtain ⟨hleaf, -, hentries⟩ := ht
    refine ⟨?_, ?_⟩
    · rw [IndexNode.size, if_pos hleaf, hentries]
      rfl
    · rw [kindOf, if_pos hleaf]
      rfl
  | succ h =>
    obtain ⟨⟨hleaf, -, hchildren⟩, -⟩ := ht
    refine ⟨?_, ?_⟩
    · rw [IndexNode.size, if_neg (by rw [hleaf]; exact Bool.false_ne_true), hchildren, length_childLinks]
      rfl
    · rw [kindOf, if_neg (by rw [hleaf]; exact Bool.false_ne_true)]
      rfl

omit [Inhabited α] in
/-- What lies below the page of a tree are the pages of its subtrees. -/
theorem Holds.below {t : IndexTree α h} (ht : Holds s.node par t) (hb : Tree.Below b t) {p : PageId}
    (hp : Relation.TransGen s.Child t.page p) :
    ∃ (k : Nat) (u : IndexTree α k) (par' : Option PageId), u.page = p ∧ Holds s.node par' u ∧
      Tree.Sized b false u := by
  induction t using Tree.ind generalizing par with
  | leaf q es =>
    obtain ⟨r, hr, -⟩ := Relation.TransGen.head'_iff.mp hp
    have hleaf : (s.node q).isLeaf = true := ht.1
    rw [Child, Tree.page_leaf, hleaf] at hr
    cases hr.1
  | inner q items ih =>
    obtain ⟨r, hr, hrest⟩ := Relation.TransGen.head'_iff.mp hp
    obtain ⟨⟨-, -, hchildren⟩, hsub⟩ := ht
    have hmem : r ∈ (s.node (Tree.inner q items).page).children.map Prod.snd := hr.2
    rw [hchildren, childLinks_tops] at hmem
    obtain ⟨it, hit, rfl⟩ := List.mem_map.mp hmem
    have hsized := (Tree.below_inner b q items).mp hb it hit
    rcases Relation.reflTransGen_iff_eq_or_transGen.mp hrest with rfl | hrest
    · exact ⟨_, it.2, _, rfl, hsub it hit, hsized⟩
    · exact ih it hit (hsub it hit) hsized.below hrest

/-- In every run over nodes of even maximal sizes, all nodes below the root hold at least `GetMinSize` items. -/
theorem occupied_of_even {internalMaxSize leafMaxSize : Nat} (hcmp : StrictTotalOn cmp S) (hleaf : 4 ≤ leafMaxSize)
    (hinternal : 6 ≤ internalMaxSize) (hleafEven : Even leafMaxSize) (hinternalEven : Even internalMaxSize)
    (h : Reached cmp S internalMaxSize leafMaxSize s) : Occupied s := by
  have hmain := h.maintained hcmp hleaf hinternal
  intro root hroot p hp
  rcases hmain.tree with he | ⟨m, t, hwf, -⟩
  · rw [he.root] at hroot
    cases hroot
  · have htop : root = t.page := Option.some.inj (hroot.symm.trans hwf.root)
    subst htop
    obtain ⟨k, u, par, rfl, hu, hsized⟩ := Holds.below hwf.holds hwf.sized.below hp
    obtain ⟨hsize, hkind⟩ := Holds.size_eq hu
    obtain ⟨h1, h2⟩ := Tree.Bounds.mk.inj (show (⟨s.fileHeader.leafMaxSize, s.fileHeader.internalMaxSize⟩ :
      Tree.Bounds) = ⟨leafMaxSize, internalMaxSize⟩ from hmain.bounds)
    have hlo := hsized.lo
    rw [hmain.bounds] at hlo
    obtain ⟨l, rfl⟩ := hleafEven
    obtain ⟨i, rfl⟩ := hinternalEven
    rw [hsize, hkind]
    cases k with
    | zero =>
      simp only [Tree.Bounds.lo, minSize, maxSize, if_true, h1] at hlo ⊢
      omega
    | succ k =>
      simp only [Tree.Bounds.lo, minSize, maxSize, Nat.succ_ne_zero, if_false, h2] at hlo ⊢
      omega

/-! ## Runs on fixed calls -/

def run (cmp : Key α → Key α → Int) : List (IndexCall α) → BplusTreeHandler α → BplusTreeHandler α
  | [], s => s
  | c :: cs, s => run cmp cs (s.call cmp c).2

def hasRoom (cmp : Key α → Key α → Int) : List (IndexCall α) → BplusTreeHandler α → Bool
  | [], _ => true
  | c :: cs, s => !(s.call cmp c).2.pool.noBuf && hasRoom cmp cs (s.call cmp c).2

theorem Reached.run {internalMaxSize leafMaxSize : Nat} (h : Reached cmp S internalMaxSize leafMaxSize s)
    (cs : List (IndexCall α)) (hkeys : ∀ c ∈ cs, c.key ∈ S) (hroom : hasRoom cmp cs s = true) :
    Reached cmp S internalMaxSize leafMaxSize (run cmp cs s) := by
  induction cs generalizing s with
  | nil => exact h
  | cons c cs ih =>
    rw [hasRoom, Bool.and_eq_true] at hroom
    have hc : (s.call cmp c).2.pool.noBuf = false := by simpa using hroom.1
    exact ih (h.call (hkeys c List.mem_cons_self) hc) (fun c hc => hkeys c (List.mem_cons_of_mem _ hc)) hroom.2

def ascending (n : Nat) : List (IndexCall Int) := (List.range n).map fun i => .insertEntry i ⟨1, 0⟩

/-- The lower half of a leaf with five entries keeps two of them, and `GetMinSize` is three. -/
theorem not_occupied_five : ¬∀ (internalMaxSize leafMaxSize : Nat), 4 ≤ internalMaxSize → 4 ≤ leafMaxSize →
    ∀ s : BplusTreeHandler Int, Reached numberComparator Set.univ internalMaxSize leafMaxSize s → Occupied s := by
  intro h
  have hnew : Reached numberComparator Set.univ 6 5 (emptyIndex 6 5) :=
    .create (show create .ints 6 5 PagePool.newFile = .ok (emptyIndex 6 5) from rfl)
  have hreached := hnew.run (ascending 6) (fun _ _ => trivial) (by decide +kernel)
  have hocc := h 6 5 (by decide) (by decide) _ hreached 4 (by decide +kernel) 2
    (.single ⟨by decide +kernel, by decide +kernel⟩)
  exact absurd hocc (by decide +kernel)

theorem occupied_of_even_six : Occupied (run numberComparator (ascending 6) (emptyIndex 6 4)) := by
  have hnew : Reached numberComparator Set.univ 6 4 (emptyIndex 6 4) :=
    .create (show create .ints 6 4 PagePool.newFile = .ok (emptyIndex 6 4) from rfl)
  have hreached := hnew.run (ascending 6) (fun _ _ => trivial) (by decide +kernel)
  exact occupied_of_even numberComparator_strictTotal (by decide) (by decide) ⟨2, rfl⟩ ⟨3, rfl⟩ hreached

end Occupancy

end BplusTreeHandler

end Idmbs
