import Idmbs.BPlusTree.Moves
import Idmbs.Lib.Chain
import Idmbs.Lib.SearchTree
import Mathlib.Data.List.Nodup

/-!
# Idmbs.BPlusTree.WellFormed

When the pages of an index file hold a B+ tree. `IndexTree` is the tree the pages spell out, labelled
with page ids; `Holds` ties it to the pages (apart from the links between leaves), `WellFormed` adds
everything the algorithms rely on.
-/

namespace Idmbs

open SearchTree

abbrev IndexTree (α : Type) : Nat → Type := Tree PageId (Key α) RecordId

abbrev IndexPath (α : Type) : Nat → Nat → Type := Path PageId (Key α) RecordId

namespace IndexNode

variable {α : Type}

def IsLeafWith (n : IndexNode α) (parent : Option PageId) (entries : List (Key α × RecordId)) :
    Prop :=
  n.isLeaf = true ∧ n.parent = parent ∧ n.entries = entries

def IsInnerWith (n : IndexNode α) (parent : Option PageId) (children : List (Key α × PageId)) :
    Prop :=
  n.isLeaf = false ∧ n.parent = parent ∧ n.children = children

/-- Equal up to parent and brothers. -/
structure SameItems (n n' : IndexNode α) : Prop where
  isLeaf : n'.isLeaf = n.isLeaf
  entries : n'.entries = n.entries
  children : n'.children = n.children

/-- Equal up to brothers. -/
structure Same (n n' : IndexNode α) : Prop extends SameItems n n' where
  parent : n'.parent = n.parent

theorem SameItems.refl (n : IndexNode α) : SameItems n n := ⟨rfl, rfl, rfl⟩

theorem Same.refl (n : IndexNode α) : Same n n := ⟨.refl n, rfl⟩

theorem Same.of_eq {n n' : IndexNode α} (h : n' = n) : Same n n' := h ▸ .refl n

end IndexNode

open IndexNode

section Holds

variable {α : Type} {h m : Nat} {nd nd' : PageId → IndexNode α} {par par' : Option PageId}

/-- The item array of the inner node with these items. -/
def childLinks (items : List (Key α × IndexTree α h)) : List (Key α × PageId) :=
  items.map fun it => (it.1, it.2.page)

/-- The pages of `t` hold the nodes of `t`; the parent of the top one is `par`. -/
def Holds (nd : PageId → IndexNode α) : {h : Nat} → Option PageId → IndexTree α h → Prop
  | 0, par, t => (nd t.page).IsLeafWith par (Node.items t)
  | _ + 1, par, t =>
    (nd t.page).IsInnerWith par (childLinks (Node.items t)) ∧
      ∀ it ∈ Node.items t, Holds nd (some t.page) it.2

/-- The pages on and beside the path hold its nodes, with `q` as the page in the hole. -/
def PathHolds (nd : PageId → IndexNode α) : {h : Nat} → IndexPath α m h → PageId → Prop
  | _, .top, _ => True
  | _, .step p pre k post up, q =>
    (nd p).IsInnerWith up.parent (childLinks pre ++ (k, q) :: childLinks post) ∧
      (∀ it ∈ pre, Holds nd (some p) it.2) ∧ (∀ it ∈ post, Holds nd (some p) it.2) ∧
      PathHolds nd up p

@[simp] theorem childLinks_nil : childLinks ([] : List (Key α × IndexTree α h)) = [] := rfl

@[simp] theorem childLinks_cons (it : Key α × IndexTree α h) (items) :
    childLinks (it :: items) = (it.1, it.2.page) :: childLinks items := rfl

@[simp] theorem childLinks_append (xs ys : List (Key α × IndexTree α h)) :
    childLinks (xs ++ ys) = childLinks xs ++ childLinks ys := List.map_append

@[simp] theorem length_childLinks (xs : List (Key α × IndexTree α h)) :
    (childLinks xs).length = xs.length := List.length_map _

theorem childLinks_take (n : Nat) (xs : List (Key α × IndexTree α h)) :
    (childLinks xs).take n = childLinks (xs.take n) := List.map_take.symm

theorem childLinks_drop (n : Nat) (xs : List (Key α × IndexTree α h)) :
    (childLinks xs).drop n = childLinks (xs.drop n) := List.map_drop.symm

theorem childLinks_keys (xs : List (Key α × IndexTree α h)) :
    (childLinks xs).map Prod.fst = xs.map Prod.fst := by simp [childLinks]

@[simp] theorem holds_leaf {p : PageId} {es : List (Key α × RecordId)} :
    Holds nd par (Tree.leaf p es) ↔ (nd p).IsLeafWith par es := Iff.rfl

@[simp] theorem holds_inner {p : PageId} {items : List (Key α × IndexTree α h)} :
    Holds nd par (Tree.inner p items) ↔
      (nd p).IsInnerWith par (childLinks items) ∧ ∀ it ∈ items, Holds nd (some p) it.2 := Iff.rfl

theorem holds_plug (c : IndexPath α m h) (t : IndexTree α h) :
    Holds nd none (c.plug t) ↔ PathHolds nd c t.page ∧ Holds nd c.parent t := by
  induction c with
  | top => simp [Path.plug, PathHolds, Path.parent]
  | step p pre k post up ih =>
    rw [Path.plug, ih]
    simp only [holds_inner, childLinks_append, childLinks_cons, List.forall_mem_append,
      List.forall_mem_cons, PathHolds, Path.parent, Tree.page_inner]
    tauto

theorem Holds.parent_eq {t : IndexTree α h} (ht : Holds nd par t) : (nd t.page).parent = par := by
  cases h with
  | zero => exact ht.2.1
  | succ h => exact ht.1.2.1

theorem Holds.leaf_of_mem {t : IndexTree α h} (ht : Holds nd par t)
    {l : PageId × List (Key α × RecordId)} (hl : l ∈ t.leaves) :
    (nd l.1).isLeaf = true ∧ (nd l.1).entries = l.2 := by
  induction t using Tree.ind generalizing par with
  | leaf p es => rw [List.mem_singleton.mp hl]; exact ⟨ht.1, ht.2.2⟩
  | inner p items ih =>
    obtain ⟨it, hit, hl⟩ := List.mem_flatMap.mp hl
    exact ih it hit (ht.2 it hit) hl

theorem Holds.isLeaf_of_mem {t : IndexTree α h} (ht : Holds nd par t)
    {l : PageId × List (Key α × RecordId)} (hl : l ∈ t.leaves) : (nd l.1).isLeaf = true :=
  (ht.leaf_of_mem hl).1

/-- The top node may change its parent, the others only their links to brothers. -/
theorem Holds.reparent {t : IndexTree α h} (ht : Holds nd par t) (hnd : t.pages.Nodup)
    (htop : SameItems (nd t.page) (nd' t.page)) (hpar : (nd' t.page).parent = par')
    (hrest : ∀ p ∈ t.pages, p ≠ t.page → Same (nd p) (nd' p)) : Holds nd' par' t := by
  induction t using Tree.ind generalizing par par' with
  | leaf p es =>
    obtain ⟨h1, -, h3⟩ := ht
    exact ⟨htop.isLeaf.trans h1, hpar, htop.entries.trans h3⟩
  | inner p items ih =>
    obtain ⟨⟨h1, -, h3⟩, hsub⟩ := ht
    refine ⟨⟨htop.isLeaf.trans h1, hpar, htop.children.trans h3⟩, fun it hit => ?_⟩
    rw [Tree.pages_inner, List.nodup_cons] at hnd
    have hmem : ∀ q ∈ it.2.pages, q ∈ (Tree.inner p items).pages ∧ q ≠ p := fun q hq =>
      have hq' := List.mem_flatMap.mpr ⟨it, hit, hq⟩
      ⟨List.mem_cons_of_mem _ hq', fun e => hnd.1 (e ▸ hq')⟩
    have hpage := hmem _ it.2.page_mem_pages
    refine ih it hit (hsub it hit) ((List.nodup_flatMap.mp hnd.2).1 it hit)
      (hrest _ hpage.1 hpage.2).toSameItems ?_ fun q hq _ => hrest q (hmem q hq).1 (hmem q hq).2
    exact (hrest _ hpage.1 hpage.2).parent.trans (hsub it hit).parent_eq

theorem Holds.congr {t : IndexTree α h} (ht : Holds nd par t)
    (heq : ∀ p ∈ t.pages, Same (nd p) (nd' p)) : Holds nd' par t := by
  induction t using Tree.ind generalizing par with
  | leaf p es =>
    obtain ⟨h1, h2, h3⟩ := ht
    have hp := heq p (by simp)
    exact ⟨hp.isLeaf.trans h1, hp.parent.trans h2, hp.entries.trans h3⟩
  | inner p items ih =>
    obtain ⟨⟨h1, h2, h3⟩, hsub⟩ := ht
    have hp := heq p (by simp)
    refine ⟨⟨hp.isLeaf.trans h1, hp.parent.trans h2, hp.children.trans h3⟩, fun it hit =>
      ih it hit (hsub it hit) fun q hq => heq q ?_⟩
    exact List.mem_cons_of_mem _ (List.mem_flatMap.mpr ⟨it, hit, hq⟩)

/-- Subtrees that get the parent `par'` and change nowhere below their top nodes. -/
theorem holds_of_adopted (nd : PageId → IndexNode α) {items : List (Key α × IndexTree α h)}
    (hnd : (items.flatMap fun it => it.2.pages).Nodup)
    (hit : ∀ it ∈ items, ∃ par, Holds nd par it.2)
    (htop : ∀ p ∈ Tree.tops items, SameItems (nd p) (nd' p) ∧ (nd' p).parent = par')
    (hrest : ∀ it ∈ items, ∀ p ∈ it.2.pages, p ∉ Tree.tops items → Same (nd p) (nd' p)) :
    ∀ it ∈ items, Holds nd' par' it.2 := by
  intro it hmem
  obtain ⟨par, hh⟩ := hit it hmem
  obtain ⟨h1, h2⟩ := htop _ (Tree.top_mem hmem)
  refine hh.reparent ((List.nodup_flatMap.mp hnd).1 it hmem) h1 h2 fun p hp hne => ?_
  exact hrest it hmem p hp fun ht => hne (Tree.eq_page_of_mem_tops hnd hmem hp ht)

theorem childLinks_tops (xs : List (Key α × IndexTree α h)) :
    (childLinks xs).map Prod.snd = Tree.tops xs := by simp [childLinks, Tree.tops]

theorem relink_same (q : PageId) (next : Option PageId) (r : PageId) :
    Same (nd r) (BplusTreeHandler.relink nd q next r) := by
  cases next with
  | none => exact .refl _
  | some y =>
    by_cases hr : r = y
    · subst hr; simp only [BplusTreeHandler.relink, Function.update_self]; exact ⟨⟨rfl, rfl, rfl⟩, rfl⟩
    · simp only [BplusTreeHandler.relink, Function.update_of_ne hr]; exact .refl _

theorem PathHolds.congr {c : IndexPath α m h} {q : PageId} (hc : PathHolds nd c q)
    (heq : ∀ p ∈ c.pages, Same (nd p) (nd' p)) : PathHolds nd' c q := by
  induction c generalizing q with
  | top => trivial
  | step p pre k post up ih =>
    obtain ⟨⟨h1, h2, h3⟩, hpre, hpost, hup⟩ := hc
    have hp := heq p (by simp [Path.pages])
    refine ⟨⟨hp.isLeaf.trans h1, hp.parent.trans h2, hp.children.trans h3⟩, ?_, ?_, ?_⟩
    · refine fun it hit => (hpre it hit).congr fun q hq => heq q ?_
      simp only [Path.pages, List.cons_append, List.mem_cons, List.mem_append, List.mem_flatMap]
      exact .inr (.inl (.inl ⟨it, hit, hq⟩))
    · refine fun it hit => (hpost it hit).congr fun q hq => heq q ?_
      simp only [Path.pages, List.cons_append, List.mem_cons, List.mem_append, List.mem_flatMap]
      exact .inr (.inl (.inr ⟨it, hit, hq⟩))
    · exact ih hup fun q hq => heq q (by simp [Path.pages, hq])

end Holds

/-! ## Well-formed index files -/

def IndexFileHeader.bounds (hdr : IndexFileHeader) : Tree.Bounds := ⟨hdr.leafMaxSize, hdr.internalMaxSize⟩

/-- The sizes every `attr_length` up to 2716 gives. -/
structure IndexFileHeader.Roomy (hdr : IndexFileHeader) : Prop where
  leaf : 4 ≤ hdr.leafMaxSize
  internal : 6 ≤ hdr.internalMaxSize

namespace IndexFileHeader.Roomy

variable {hdr hdr' : IndexFileHeader}

theorem wide (h : hdr.Roomy) : hdr.bounds.Wide :=
  ⟨le_trans (by decide) h.leaf, le_trans (by decide) h.internal⟩

theorem four_le_hi (hr : hdr.Roomy) (h : Nat) : 4 ≤ hdr.bounds.hi h := by
  cases h with
  | zero => exact hr.leaf
  | succ h => exact le_trans (by decide) hr.internal

theorem six_le_hi (hr : hdr.Roomy) {h : Nat} (hh : h ≠ 0) : 6 ≤ hdr.bounds.hi h := by
  cases h with
  | zero => exact absurd rfl hh
  | succ h => exact hr.internal

theorem of_bounds (h : hdr.Roomy) (he : hdr'.bounds = hdr.bounds) : hdr'.Roomy := by
  injection he with hleaf hinternal
  exact ⟨hleaf ▸ h.leaf, hinternal ▸ h.internal⟩

end IndexFileHeader.Roomy

namespace BplusTreeHandler

variable {α : Type}

/-- The pages of the index file hold the tree `t`. All leaves are at one depth by the type of `t`. -/
structure WellFormed (cmp : Key α → Key α → Int) (s : BplusTreeHandler α) {m : Nat}
    (t : IndexTree α m) : Prop where
  /-- node contents and parent fields -/
  holds : Holds s.node none t
  ordered : t.Ordered fun a b => cmp a b < 0
  firstKey : t.FirstKey none
  sized : t.Sized s.fileHeader.bounds true
  /-- `prev_brother` and `next_brother` list the leaves in key order -/
  linked : Chain.Linked (fun p => (s.node p).prevBrother) (fun p => (s.node p).nextBrother)
    none (t.leaves.map Prod.fst) none
  root : s.fileHeader.rootPageId = some t.page
  stored : ∃ h, s.pool.pageData firstIndexPage = .header h ∧ h.rootPageId = some t.page
  /-- no page has two roles -/
  nodup : (PagePool.headerPage :: firstIndexPage :: t.pages).Nodup
  sound : s.pool.Sound (PagePool.headerPage :: firstIndexPage :: t.pages)

/-- The index file holds no tree. -/
structure IsEmptyTree (s : BplusTreeHandler α) : Prop where
  root : s.fileHeader.rootPageId = none
  stored : ∃ h, s.pool.pageData firstIndexPage = .header h ∧ h.rootPageId = none
  sound : s.pool.Sound [PagePool.headerPage, firstIndexPage]

theorem create_isEmptyTree (attrType : AttrType) (internalMaxSize leafMaxSize : Nat) :
    ∃ s : BplusTreeHandler α, create attrType internalMaxSize leafMaxSize PagePool.newFile = .ok s ∧
      IsEmptyTree s ∧ s.fileHeader = ⟨none, internalMaxSize, leafMaxSize, attrType⟩ ∧
      s.pool.faults = [] := by
  have hnew : (PagePool.newFile : PagePool (IndexPage α)).Sound [PagePool.headerPage] := by
    refine ⟨fun p hp => ?_, fun p hp => ?_, fun p hp => by cases hp⟩
    · rw [show p = PagePool.headerPage by simpa [PagePool.newFile] using hp]; exact Nat.one_pos
    · rw [List.mem_singleton.mp hp]; exact ⟨rfl, rfl⟩
  have hr : (PagePool.newFile : PagePool (IndexPage α)).allocatePage.1 = .success := rfl
  have hp : (PagePool.newFile : PagePool (IndexPage α)).allocatePage.2.1 = firstIndexPage := rfl
  rcases PagePool.allocatePage_spec rfl hnew with ⟨hne, -⟩ | ⟨-, -, hf, hs, -⟩
  · exact absurd hr hne
  · rcases ha : (PagePool.newFile : PagePool (IndexPage α)).allocatePage with ⟨r, p, pool⟩
    rw [ha] at hr hp hf hs
    simp only at hr hp hf hs
    subst hr hp
    refine ⟨⟨⟨none, internalMaxSize, leafMaxSize, attrType⟩, ((pool.setData firstIndexPage
      (.header ⟨none, internalMaxSize, leafMaxSize, attrType⟩)).dirtyMark firstIndexPage).unpinPage
      firstIndexPage⟩, by simp only [create, ha, ne_eq, not_true_eq_false, if_false],
      ⟨rfl, ⟨⟨none, internalMaxSize, leafMaxSize, attrType⟩, ?_, rfl⟩, ?_⟩, rfl, ?_⟩
    · simp only [PagePool.pageData_unpinPage, PagePool.pageData_dirtyMark, PagePool.setData,
        Function.update_self]
    · exact ((hs.setData _).dirtyMark.unpinPage).mono (by simp)
    · rw [PagePool.faults_unpinPage]; exact hf

/-- Everything but the order and the leaf chain, over an explicit view of the pages. -/
structure Stores (s : BplusTreeHandler α) (hdr : IndexFileHeader) (nd : PageId → IndexNode α)
    {m : Nat} (t : IndexTree α m) : Prop where
  view : View s t.pages { hdr with rootPageId := some t.page } (some t.page) nd
  nodup : t.pages.Nodup
  holds : Holds nd none t
  firstKey : t.FirstKey none
  sized : t.Sized hdr.bounds true

/-- The pages hold the whole index: a `Stores` in key order, with its chain of leaves. -/
structure Valid [LinearOrder (Key α)] (S : Set (Key α)) (s : BplusTreeHandler α)
    (hdr : IndexFileHeader) (nd : PageId → IndexNode α) {m : Nat} (t : IndexTree α m) : Prop
    extends Stores s hdr nd t where
  sorted : t.Sorted
  keys : ∀ k ∈ t.keys, k ∈ S
  linked : Chain.Linked (fun p => (nd p).prevBrother) (fun p => (nd p).nextBrother) none
    (t.leaves.map Prod.fst) none

/-- A valid index, but for the node sizes. -/
structure Loose [LinearOrder (Key α)] (S : Set (Key α)) (s : BplusTreeHandler α) (hdr : IndexFileHeader)
    (nd : PageId → IndexNode α) {m : Nat} (t : IndexTree α m) : Prop where
  view : View s t.pages { hdr with rootPageId := some t.page } (some t.page) nd
  nodup : t.pages.Nodup
  holds : Holds nd none t
  firstKey : t.FirstKey none
  sorted : t.Sorted
  keys : ∀ k ∈ t.keys, k ∈ S
  linked : Chain.Linked (fun p => (nd p).prevBrother) (fun p => (nd p).nextBrother) none
    (t.leaves.map Prod.fst) none

section Loose

variable [LinearOrder (Key α)] {S : Set (Key α)} {s s' : BplusTreeHandler α} {hdr : IndexFileHeader}
  {nd nd' : PageId → IndexNode α} {m : Nat}

theorem Valid.loose {t : IndexTree α m} (h : Valid S s hdr nd t) : Loose S s hdr nd t :=
  ⟨h.view, h.nodup, h.holds, h.firstKey, h.sorted, h.keys, h.linked⟩

theorem Loose.valid {t : IndexTree α m} (h : Loose S s hdr nd t) (hz : t.Sized hdr.bounds true) : Valid S s hdr nd t :=
  ⟨⟨h.view, h.nodup, h.holds, h.firstKey, hz⟩, h.sorted, h.keys, h.linked⟩

/-- Replacing a leaf in place. -/
theorem Loose.set_leaf {c : IndexPath α m 0} {p : PageId} {es es' : List (Key α × RecordId)}
    (h : Loose S s hdr nd (c.plug (.leaf p es)))
    (hv : View s' (c.plug (.leaf p es)).pages
      { hdr with rootPageId := some (c.plug (.leaf p es)).page } (some (c.plug (.leaf p es)).page) nd')
    (hp : nd' p = { nd p with entries := es' }) (hrest : ∀ r, r ≠ p → nd' r = nd r)
    (hs : (c.left ++ (es'.map fun e => Mark.ent e.1) ++ c.right).Pairwise (· < ·))
    (hk : ∀ k ∈ c.left ++ (es'.map fun e => Mark.ent e.1) ++ c.right, k.key ∈ S) :
    Loose S s' hdr nd' (c.plug (.leaf p es')) := by
  have hpage : (c.plug (.leaf p es')).page = (c.plug (.leaf p es)).page := c.page_plug rfl
  have hperm : (c.plug (.leaf p es')).pages.Perm (c.plug (.leaf p es)).pages :=
    (c.pages_plug _).trans (c.pages_plug (.leaf p es)).symm
  obtain ⟨hpath, ⟨h1, h2, h3⟩⟩ := (holds_plug _ _).mp h.holds
  have hnd := (c.pages_plug (.leaf p es)).nodup_iff.mp h.nodup
  have hcp : ∀ r ∈ c.pages, r ≠ p := fun r hr e =>
    (List.nodup_append.mp hnd).2.2 r hr p (by simp) e
  refine ⟨?_, hperm.nodup_iff.mpr h.nodup, ?_, ?_, Path.sorted_plug.mpr hs, ?_, ?_⟩
  · rw [hpage]; exact hv.mono fun r hr => hperm.mem_iff.mp hr
  · refine (holds_plug _ _).mpr ⟨hpath.congr fun r hr => .of_eq (hrest r (hcp r hr)), ?_⟩
    refine holds_leaf.mpr ?_
    rw [hp]
    exact ⟨h1, h2, rfl⟩
  · exact (c.firstKey_plug _).mpr ⟨((c.firstKey_plug _).mp h.firstKey).1, Tree.firstKey_leaf _ _ _⟩
  · intro k hkm
    obtain ⟨mk, hmk, rfl⟩ := List.mem_map.mp hkm
    rw [Path.marks_plug] at hmk
    exact hk mk hmk
  · have hl := h.linked
    simp only [Path.leaves_plug, Tree.leaves_leaf, List.map_append, List.map_cons,
      List.map_nil] at hl ⊢
    refine hl.congr fun r _ => ?_
    by_cases hr : r = p
    · rw [hr, hp]; exact ⟨rfl, rfl⟩
    · rw [hrest r hr]; exact ⟨rfl, rfl⟩

end Loose

end BplusTreeHandler

/-- The links between brothers agree on the pages in `ps`. -/
def SameLinks {α : Type} (nd nd' : PageId → IndexNode α) (ps : List PageId) : Prop :=
  ∀ p ∈ ps, (nd' p).prevBrother = (nd p).prevBrother ∧ (nd' p).nextBrother = (nd p).nextBrother

end Idmbs
