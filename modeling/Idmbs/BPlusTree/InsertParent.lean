import Idmbs.BPlusTree.Account
import Idmbs.BPlusTree.Checks
import Idmbs.BPlusTree.Lookup

/-!
# Idmbs.BPlusTree.InsertParent

A split leaves a subtree in two halves, of which the right one is not linked into the parent yet
(`SplitOff`). `InsertEntryIntoParent` repairs this, by induction on the path to the root: there is
no parent, the parent has room, or the parent is split in its turn.
-/

namespace Idmbs

open SearchTree SearchTree.Mark Comparator

namespace BplusTreeHandler

variable {α : Type} [LinearOrder (Key α)] [Inhabited α] {cmp : Key α → Key α → Int}
  {S : Set (Key α)} {s : BplusTreeHandler α} {hdr : IndexFileHeader} {nd : PageId → IndexNode α}
  {m h : Nat} {key : Key α}

/-- The subtree in the hole of `c` has been split: `t1` stays in its place, while `t2`, whose first
key is `key`, is not linked into the parent yet. -/
structure SplitOff (S : Set (Key α)) (s : BplusTreeHandler α) (hdr : IndexFileHeader)
    (nd : PageId → IndexNode α) {m h : Nat} (c : IndexPath α m h) (t1 : IndexTree α h) (key : Key α)
    (t2 : IndexTree α h) : Prop where
  view : View s (c.pages ++ t1.pages ++ t2.pages) hdr hdr.rootPageId nd
  root : hdr.rootPageId = some (c.plug t1).page
  nodup : (c.pages ++ t1.pages ++ t2.pages).Nodup
  path : PathHolds nd c t1.page
  left : Holds nd c.parent t1
  right : ∃ par, Holds nd par t2
  pathFirst : c.FirstKeys
  leftFirst : t1.FirstKey c.expected
  rightFirst : t2.FirstKey (some key)
  pathSized : c.Sized hdr.bounds
  leftSized : t1.Sized hdr.bounds false
  rightSized : t2.Sized hdr.bounds false
  sorted : (c.left ++ t1.marks ++ sep key :: t2.marks ++ c.right).Pairwise (· < ·)
  keys : ∀ k ∈ c.left ++ t1.marks ++ sep key :: t2.marks ++ c.right, k.key ∈ S

/-- The index holds a tree with these leaves and marks; links between old brothers are kept. -/
def Grown (hdr : IndexFileHeader) (nd : PageId → IndexNode α) (keep : List PageId)
    (leaves : List (PageId × List (Key α × RecordId))) (marks : List (Mark (Key α)))
    (s : BplusTreeHandler α) : Prop :=
  ∃ (m : Nat) (t : IndexTree α m) (nd' : PageId → IndexNode α), Stores s hdr nd' t ∧
    t.leaves = leaves ∧ t.marks = marks ∧ SameLinks nd nd' keep

/-- Linking in `t2` either finds the file full or gives the tree with both halves. -/
def Linked (s' : BplusTreeHandler α) (hdr : IndexFileHeader) (nd : PageId → IndexNode α)
    (c : IndexPath α m h) (t1 : IndexTree α h) (key : Key α) (t2 : IndexTree α h) : Prop :=
  Grown hdr nd (c.pages ++ t1.pages ++ t2.pages)
    (c.leavesLeft ++ t1.leaves ++ t2.leaves ++ c.leavesRight)
    (c.left ++ t1.marks ++ sep key :: t2.marks ++ c.right) s'

/-! ## The root was split -/

theorem insertEntryIntoParent_top {t1 t2 : IndexTree α m} {fuel : Nat}
    (hi : 2 ≤ hdr.internalMaxSize) (h : SplitOff S s hdr nd (.top : IndexPath α m m) t1 key t2) :
    (insertEntryIntoParent cmp (fuel + 1) t1.page t2.page key s).2.pool.noBuf = true ∨
    ((insertEntryIntoParent cmp (fuel + 1) t1.page t2.page key s).1 = .success ∧
      Linked (insertEntryIntoParent cmp (fuel + 1) t1.page t2.page key s).2 hdr nd .top t1 key t2 ∧
      Balanced s [t1.page, t2.page] (t1.pages ++ t2.pages)
        (insertEntryIntoParent cmp (fuel + 1) t1.page t2.page key s).2) := by
  obtain ⟨hv, hroot, hnd, -, hl, ⟨par, hr⟩, -, hlf, hrf, -, hls, hrs, -, -⟩ := h
  simp only [Path.pages, List.nil_append] at hv hnd
  have hpar : (s.node t1.page).parent = none := by rw [hv.node]; exact hl.parent_eq
  simp only [insertEntryIntoParent, hpar]
  rcases ha : s.allocatePage with ⟨r, q, s1⟩
  have hal := hv.allocatePage
  simp only [ha] at hal ⊢
  rcases hal with ⟨hne, hb⟩ | ⟨rfl, hq, n, hv1⟩
  · left; simpa only [ne_eq, hne, not_false_eq_true, if_true] using hb
  · right
    simp only [ne_eq, not_true_eq_false, if_false, true_and]
    have hm1 : t1.page ∈ t1.pages ++ t2.pages := List.mem_append_left _ t1.page_mem_pages
    have hm2 : t2.page ∈ t1.pages ++ t2.pages := List.mem_append_right _ t2.page_mem_pages
    have hv2 := ((hv1.modifyNode (p := q) (by simp) fun n =>
      (n.initEmpty .internal).createNewRoot t1.page key t2.page).modifyNode
      (List.mem_cons_of_mem _ hm1) fun n => { n with parent := some q }).modifyNode
      (List.mem_cons_of_mem _ hm2) fun n => { n with parent := some q }
    have hv3 := (((((hv2.dirtyMark (p := t1.page)).dirtyMark (p := t2.page)).unpinPage
      (p := t1.page)).unpinPage (p := t2.page)).setRoot (some q)).updateRootPageId
    have hv4 := (hv3.dirtyMark (p := q)).unpinPage (p := q)
    generalize hgen : Function.update (Function.update _ t1.page _) t2.page _ = nd' at hv4
    have hd : ∀ p ∈ t1.pages, ∀ p' ∈ t2.pages, p ≠ p' := (List.nodup_append.mp hnd).2.2
    have hd12 : t1.page ≠ t2.page := hd _ t1.page_mem_pages _ t2.page_mem_pages
    have hq1 : ∀ p ∈ t1.pages, p ≠ q := fun p hp e => hq (by simp [← e, hp])
    have hq2 : ∀ p ∈ t2.pages, p ≠ q := fun p hp e => hq (by simp [← e, hp])
    have hq1' := hq1 _ t1.page_mem_pages
    have hq2' := hq2 _ t2.page_mem_pages
    have fq : (nd' q).IsInnerWith none [(default, t1.page), (key, t2.page)] := by
      rw [← hgen]
      simp [Function.update_apply, hq1'.symm, hq2'.symm, IndexNode.createNewRoot,
        IndexNode.initEmpty, IndexNode.IsInnerWith]
    have f1 : nd' t1.page = { nd t1.page with parent := some q } := by
      rw [← hgen]; simp [Function.update_apply, hd12, hq1']
    have f2 : nd' t2.page = { nd t2.page with parent := some q } := by
      rw [← hgen]; simp [Function.update_apply, hd12.symm, hq2']
    have frest : ∀ p, p ≠ q → p ≠ t1.page → p ≠ t2.page → nd' p = nd p := by
      intro p h1 h2 h3
      rw [← hgen]; simp [Function.update_apply, h1, h2, h3]
    have hview := hv4.mono (show (Tree.inner q [(default, t1), (key, t2)]).pages ⊆
      q :: (t1.pages ++ t2.pages) by simp)
    have hholds : Holds nd' none (.inner q [(default, t1), (key, t2)]) := by
      refine holds_inner.mpr ⟨fq, ?_⟩
      simp only [List.forall_mem_cons]
      refine ⟨?_, ?_, by simp⟩
      · refine hl.reparent (List.nodup_append.mp hnd).1 (by rw [f1]; exact ⟨rfl, rfl, rfl⟩)
          (by rw [f1]) fun p hp hne => .of_eq (frest p (hq1 p hp) hne ?_)
        exact hd p hp _ t2.page_mem_pages
      · refine hr.reparent (List.nodup_append.mp hnd).2.1 (by rw [f2]; exact ⟨rfl, rfl, rfl⟩)
          (by rw [f2]) fun p hp hne => .of_eq (frest p (hq2 p hp) ?_ hne)
        exact (hd _ t1.page_mem_pages p hp).symm
    have hbalanced : Balanced s [t1.page, t2.page] (t1.pages ++ t2.pages) _ := fun n hacc => by
      have h1 := hacc.allocatePage (hv.fresh (List.forall_mem_cons.mpr ⟨hm1,
        List.forall_mem_singleton.mpr hm2⟩) n) ha
      have h2 := ((((h1.modifyNode (p := q) fun n => (n.initEmpty .internal).createNewRoot t1.page key
        t2.page).modifyNode (p := t1.page) fun n => { n with parent := some q }).modifyNode
        (p := t2.page) fun n => { n with parent := some q }).dirtyMark (p := t1.page)).dirtyMark
        (p := t2.page)
      have h3 := ((((h2.perm (List.Perm.swap _ _ _)).unpinPage.perm
        (List.Perm.swap _ _ _)).unpinPage).setRoot (some q)).updateRootPageId
      refine (h3.dirtyMark (p := q)).unpinPage.settled hview hholds fun p hp => ?_
      simp only [inUse, Tree.pages_inner, List.flatMap_cons, List.flatMap_nil, List.append_nil,
        List.mem_cons, List.mem_append] at hp ⊢
      tauto
    refine ⟨⟨m + 1, .inner q [(default, t1), (key, t2)], nd', ⟨hview, ?_, hholds, ?_, ?_⟩, ?_, ?_, ?_⟩,
      hbalanced⟩
    · simpa using ⟨by simpa using hq, hnd⟩
    · simpa [Path.expected] using ⟨hlf, hrf⟩
    · refine ⟨by simp [Tree.Bounds.lo], by simpa [Tree.Bounds.hi, IndexFileHeader.bounds] using hi, ?_⟩
      simpa using ⟨hls, hrs⟩
    · simp [Path.leavesLeft, Path.leavesRight]
    · simp [Path.left, Path.right]
    · intro p hp
      have hpq : p ≠ q := fun e => hq (e ▸ by simpa [Path.pages] using hp)
      by_cases h1 : p = t1.page
      · rw [h1, f1]; exact ⟨rfl, rfl⟩
      · by_cases h2 : p = t2.page
        · rw [h2, f2]; exact ⟨rfl, rfl⟩
        · rw [frest p hpq h1 h2]; exact ⟨rfl, rfl⟩

theorem insertEntryIntoParentChecks_top {t1 t2 : IndexTree α m} {fuel : Nat}
    (hi : 2 ≤ hdr.internalMaxSize) (h : SplitOff S s hdr nd (.top : IndexPath α m m) t1 key t2) :
    insertEntryIntoParentChecks cmp (fuel + 1) t1.page t2.page key s := by
  have hpar : (s.node t1.page).parent = none := by rw [h.view.node]; exact h.left.parent_eq
  simpa only [insertEntryIntoParentChecks, hpar, maxSize, h.view.fileHeader] using hi

/-! ## Below the root -/

section Step

variable {p : PageId} {pre post : List (Key α × IndexTree α h)} {k : Key α}
  {up : IndexPath α m (h + 1)} {t1 t2 : IndexTree α h} {fuel : Nat}

omit [Inhabited α] in
/-- The items the parent must get have increasing keys. -/
theorem SplitOff.items_sorted (h : SplitOff S s hdr nd (.step p pre k post up) t1 key t2) :
    (pre ++ (k, t1) :: (key, t2) :: post).tail.Pairwise (fun a b => a.1 < b.1) ∧
      ∀ it ∈ (pre ++ (k, t1) :: (key, t2) :: post).tail, it.1 ∈ S := by
  have hs := h.sorted
  have hk := h.keys
  rw [Path.marks_items p] at hs hk
  refine ⟨(Tree.sorted_inner.mp (Path.sorted_of_plug (Path.sorted_plug.mpr hs))).2.1,
    fun it hit => ?_⟩
  exact hk (sep it.1) (List.mem_append_left _ (List.mem_append_right _ (Tree.sep_mem_inner hit)))

/-- `Insert` puts `t2` right behind `t1`, in the whole node or in the part that holds `t1`. -/
theorem internalInsert_items (ha : Agrees cmp S) {items A B : List (Key α × IndexTree α h)}
    {n : IndexNode α} (hs : items.tail.Pairwise fun a b => a.1 < b.1)
    (hS : ∀ it ∈ items.tail, it.1 ∈ S) (hsub : (A ++ (k, t1) :: (key, t2) :: B).Sublist items)
    (hn : n.children = childLinks (A ++ (k, t1) :: B)) :
    n.internalInsert cmp key t2.page =
      { n with children := childLinks (A ++ (k, t1) :: (key, t2) :: B) } := by
  have hs' := hs.sublist hsub.tail
  have hS' := fun it hit => hS it (hsub.tail.subset hit)
  have hkey : key ∈ S := hS' (key, t2) (by cases A <;> simp)
  have hold : (A ++ (k, t1) :: B).tail.Sublist (A ++ (k, t1) :: (key, t2) :: B).tail :=
    List.Sublist.tail (List.Sublist.append_left (List.Sublist.cons_cons _
      (List.sublist_cons_self _ _)) _)
  have htl : n.children.tail = childLinks (A ++ (k, t1) :: B).tail := by
    rw [hn]; exact List.map_tail.symm
  rw [internalInsert_spec ha hkey (A := childLinks A) (B := childLinks B) (by simpa using hn)]
  · simp
  · rw [htl]
    intro it hit
    obtain ⟨it', hit', rfl⟩ := List.mem_map.mp hit
    exact hS' it' (hold.subset hit')
  · rw [htl, childLinks_keys, List.pairwise_map]
    exact hs'.sublist hold
  · intro hne
    cases A with
    | nil => simp at hne
    | cons a A =>
      simp only [List.cons_append, List.tail_cons, List.pairwise_append, List.pairwise_cons] at hs'
      exact hs'.2.1.1 (key, t2) (by simp)
  · intro it hit
    obtain ⟨it', hit', rfl⟩ := List.mem_map.mp hit
    have h2 : ((key, t2) :: B).Pairwise fun a b => a.1 < b.1 := by
      refine hs'.sublist ?_
      cases A with
      | nil => exact List.Sublist.refl _
      | cons a A => exact List.Sublist.trans (List.sublist_cons_self _ _) (List.sublist_append_right A _)
    exact (List.pairwise_cons.mp h2).1 it' hit'

/-- The node above the hole is wide enough: linking in `t2` there completes the insertion. -/
theorem insertEntryIntoParent_fits (ha : Agrees cmp S)
    (h : SplitOff S s hdr nd (.step p pre k post up) t1 key t2)
    (hfit : pre.length + 1 + post.length < hdr.internalMaxSize) :
    (insertEntryIntoParent cmp (fuel + 1) t1.page t2.page key s).1 = .success ∧
      Linked (insertEntryIntoParent cmp (fuel + 1) t1.page t2.page key s).2 hdr nd
        (.step p pre k post up) t1 key t2 ∧
      Balanced s [t1.page, t2.page] ((Path.step p pre k post up).pages ++ t1.pages ++ t2.pages)
        (insertEntryIntoParent cmp (fuel + 1) t1.page t2.page key s).2 := by
  obtain ⟨hs, hS⟩ := h.items_sorted
  obtain ⟨hv, hroot, hnd, hpath, hl, ⟨par, hr⟩, hpf, hlf, hrf, hpz, hlz, hrz, -, -⟩ := h
  obtain ⟨⟨hleaf, hparent, hchildren⟩, hpre, hpost, hup⟩ := hpath
  have hpar : (s.node t1.page).parent = some p := by rw [hv.node]; exact hl.parent_eq
  have hp : p ∈ (Path.step p pre k post up).pages ++ t1.pages ++ t2.pages := by simp [Path.pages]
  have hp2 : t2.page ∈ (Path.step p pre k post up).pages ++ t1.pages ++ t2.pages :=
    List.mem_append_right _ t2.page_mem_pages
  have hchildren' : (nd p).children = childLinks (pre ++ (k, t1) :: post) := by simpa using hchildren
  have hsize : ((s.pinned p).node p).size < (s.pinned p).maxSize .internal := by
    rw [hv.pinned.node]
    simp only [IndexNode.size, hleaf, hchildren', maxSize, hv.pinned.fileHeader, length_childLinks,
      List.length_append, List.length_cons, Bool.false_eq_true, if_false]
    omega
  simp only [insertEntryIntoParent, hpar, hv.getPage hp, ne_eq, not_true_eq_false, if_false, hsize,
    if_true, true_and]
  have hv1 := ((((((hv.pinned (p := p)).modifyNode hp
    (IndexNode.internalInsert cmp key t2.page)).modifyNode hp2 fun n =>
    { n with parent := some p }).dirtyMark (p := t1.page)).dirtyMark (p := t2.page)).dirtyMark
    (p := p))
  have hv2 := ((hv1.unpinPage (p := t1.page)).unpinPage (p := t2.page)).unpinPage (p := p)
  generalize hgen : Function.update (Function.update _ p _) t2.page _ = nd' at hv2
  have hperm := Path.pages_items p pre post k key up t1 t2
  have hnd' := hperm.nodup_iff.mp hnd
  obtain ⟨-, hndp, hdisj⟩ := List.nodup_append.mp hnd'
  obtain ⟨hpn, hndi⟩ := List.nodup_cons.mp hndp
  have hpage : ∀ it ∈ pre ++ (k, t1) :: (key, t2) :: post, ∀ r ∈ it.2.pages, r ≠ p :=
    fun it hit r hr e => hpn (e ▸ List.mem_flatMap.mpr ⟨it, hit, hr⟩)
  have ht2 : (key, t2) ∈ pre ++ (k, t1) :: (key, t2) :: post := by simp
  have hne : t2.page ≠ p := hpage _ ht2 _ t2.page_mem_pages
  have fp : nd' p = { nd p with
      children := childLinks (pre ++ (k, t1) :: (key, t2) :: post) } := by
    rw [← hgen, ← internalInsert_items ha hs hS (List.Sublist.refl _) hchildren']
    simp [Function.update_apply, hne.symm]
  have f2 : nd' t2.page = { nd t2.page with parent := some p } := by
    rw [← hgen]; simp [hne]
  have frest : ∀ r, r ≠ p → r ≠ t2.page → nd' r = nd r := by
    intro r h1 h2
    rw [← hgen]; simp [Function.update_apply, h1, h2]
  have hroot' : (up.plug (.inner p (pre ++ (k, t1) :: (key, t2) :: post))).page =
      ((Path.step p pre k post up).plug t1).page := up.page_plug rfl
  have hpages : ∀ r, r ∈ (up.plug (.inner p (pre ++ (k, t1) :: (key, t2) :: post))).pages ↔
      r ∈ (Path.step p pre k post up).pages ++ t1.pages ++ t2.pages := fun r =>
    (Path.pages_plug _ _).mem_iff.trans hperm.mem_iff.symm
  have hview := hv2.mono fun r hr => (hpages r).mp hr
  have hholds : Holds nd' none (up.plug (.inner p (pre ++ (k, t1) :: (key, t2) :: post))) := by
    refine (holds_plug _ _).mpr ⟨hup.congr fun r hr => .of_eq (frest r ?_ ?_), ?_⟩
    · exact hdisj r hr p (by simp)
    · exact hdisj r hr _ (List.mem_cons_of_mem _ (List.mem_flatMap.mpr ⟨_, ht2, t2.page_mem_pages⟩))
    · refine holds_inner.mpr ⟨by rw [fp]; exact ⟨hleaf, hparent, rfl⟩, ?_⟩
      have hold : ∀ it ∈ pre ++ (k, t1) :: (key, t2) :: post, it ≠ (key, t2) →
          Holds nd (some p) it.2 := by
        intro it hit hne2
        simp only [List.mem_append, List.mem_cons] at hit
        rcases hit with hit | rfl | rfl | hit
        · exact hpre it hit
        · exact hl
        · exact absurd rfl hne2
        · exact hpost it hit
      refine holds_of_adopted nd hndi ?_ ?_ ?_
      · intro it hit
        by_cases h2 : it = (key, t2)
        · exact ⟨par, h2 ▸ hr⟩
        · exact ⟨_, hold it hit h2⟩
      · intro r hr
        obtain ⟨it, hit, rfl⟩ := List.mem_map.mp hr
        by_cases h2 : it.2.page = t2.page
        · rw [h2, f2]; exact ⟨⟨rfl, rfl, rfl⟩, rfl⟩
        · rw [frest _ (hpage it hit _ it.2.page_mem_pages) h2]
          exact ⟨.refl _, (hold it hit fun e => h2 (e ▸ rfl)).parent_eq⟩
      · intro it hit r hr hrt
        exact .of_eq (frest r (hpage it hit r hr) fun e => hrt (e ▸ Tree.top_mem ht2))
  rw [← hroot'] at hroot
  have htop : ∀ s', View s' (up.plug (.inner p (pre ++ (k, t1) :: (key, t2) :: post))).pages hdr
      hdr.rootPageId nd' → View s' (up.plug (.inner p (pre ++ (k, t1) :: (key, t2) :: post))).pages
      { hdr with rootPageId := some (up.plug (.inner p (pre ++ (k, t1) :: (key, t2) :: post))).page }
      (some (up.plug (.inner p (pre ++ (k, t1) :: (key, t2) :: post))).page) nd' := by
    intro s' hv'
    rw [← hroot]
    exact hv'
  have hview' := htop _ hview
  refine ⟨⟨m, up.plug (.inner p (pre ++ (k, t1) :: (key, t2) :: post)), nd', ⟨hview', ?_, hholds,
    ?_, ?_⟩, ?_, ?_, ?_⟩, fun n hacc => ?_⟩
  · exact (Path.pages_plug _ _).nodup_iff.mpr hnd'
  · exact (Path.firstKey_plug _ _).mpr
      ((Path.firstKeys_items hpf hlf hrf).imp id (Tree.firstKey_inner _ _ _).mpr)
  · obtain ⟨hlo, hhi, hzpre, hzpost, hzup⟩ := hpz
    refine (Path.sized_plug _ _ _).mpr ⟨hzup, ?_, ?_, ?_⟩
    · simp only [Tree.size_inner, List.length_append, List.length_cons]; omega
    · simp only [Tree.size_inner, List.length_append, List.length_cons, Tree.Bounds.hi,
        IndexFileHeader.bounds]
      omega
    · simp only [Tree.below_inner, List.forall_mem_append, List.forall_mem_cons]
      exact ⟨hzpre, hlz, hrz, hzpost⟩
  · simp [Path.leaves_plug, Path.leavesLeft, Path.leavesRight]
  · rw [Path.marks_plug, Path.marks_items]
  · intro r _
    by_cases h1 : r = p
    · rw [h1, fp]; exact ⟨rfl, rfl⟩
    · by_cases h2 : r = t2.page
      · rw [h2, f2]; exact ⟨rfl, rfl⟩
      · rw [frest r h1 h2]; exact ⟨rfl, rfl⟩
  · have h1 := ((((((hacc.pinned (p := p)).modifyNode (p := p)
      (IndexNode.internalInsert cmp key t2.page)).modifyNode (p := t2.page) fun n =>
      { n with parent := some p }).dirtyMark (p := t1.page)).dirtyMark (p := t2.page)).dirtyMark
      (p := p)).perm (List.Perm.swap _ _ _)
    have h2 := (h1.unpinPage.perm (List.Perm.swap _ _ _)).unpinPage.unpinPage
    refine h2.settled hview' hholds fun r hr => ?_
    simp only [inUse, List.mem_cons, hpages] at hr ⊢
    exact hr

omit [Inhabited α] in
theorem SplitOff.right_pos {up : IndexPath α m (h + 1)} {t1 : IndexTree α (h + 1)} {q : PageId}
    {it : Key α × IndexTree α h} {R : List (Key α × IndexTree α h)}
    (hso : SplitOff S s hdr nd up t1 key (.inner q (it :: R))) : 0 < (s.node q).size := by
  obtain ⟨par, hr⟩ := hso.right
  obtain ⟨⟨hleaf, -, hchildren⟩, -⟩ := holds_inner.mp hr
  rw [hso.view.node, IndexNode.size, hleaf, hchildren]
  simp

theorem insertEntryIntoParentChecks_fits
    (h : SplitOff S s hdr nd (.step p pre k post up) t1 key t2)
    (hfit : pre.length + 1 + post.length < hdr.internalMaxSize) :
    insertEntryIntoParentChecks cmp (fuel + 1) t1.page t2.page key s := by
  have hv := h.view
  obtain ⟨⟨hleaf, -, hchildren⟩, -⟩ := h.path
  have hpar : (s.node t1.page).parent = some p := by rw [hv.node]; exact h.left.parent_eq
  have hp : p ∈ (Path.step p pre k post up).pages ++ t1.pages ++ t2.pages := by simp [Path.pages]
  have hsize : ((s.pinned p).node p).size < (s.pinned p).maxSize .internal := by
    rw [hv.pinned.node]
    simp only [IndexNode.size, hleaf, hchildren, maxSize, hv.pinned.fileHeader, length_childLinks,
      List.length_append, List.length_cons, Bool.false_eq_true, if_false]
    omega
  simp only [insertEntryIntoParentChecks, hpar, hv.getPage hp, ne_eq, not_true_eq_false, if_false,
    hsize, if_true]

omit [Inhabited α] in
/-- The node above the hole is split in its turn: its items, with `t2` among them, are shared out
between its own page and the new page `q`. -/
theorem SplitOff.split_parent (hso : SplitOff S s hdr nd (.step p pre k post up) t1 key t2)
    {L R : List (Key α × IndexTree α h)} {kr : Key α} {tr : IndexTree α h} {q : PageId}
    {s' : BplusTreeHandler α} {nd' : PageId → IndexNode α}
    (hitems : pre ++ (k, t1) :: (key, t2) :: post = L ++ (kr, tr) :: R) (hL : L ≠ [])
    (hq : q ∉ (Path.step p pre k post up).pages ++ t1.pages ++ t2.pages)
    (hv : View s' (q :: ((Path.step p pre k post up).pages ++ t1.pages ++ t2.pages)) hdr
      hdr.rootPageId nd')
    (fp : (nd' p).IsInnerWith up.parent (childLinks L))
    (fq : ∃ par, (nd' q).IsInnerWith par (childLinks ((kr, tr) :: R)))
    (ftl : ∀ r ∈ Tree.tops L, IndexNode.SameItems (nd r) (nd' r) ∧ (nd' r).parent = some p)
    (ftr : ∀ r ∈ Tree.tops ((kr, tr) :: R),
      IndexNode.SameItems (nd r) (nd' r) ∧ (nd' r).parent = some q)
    (frest : ∀ r, r ≠ p → r ≠ q → r ∉ Tree.tops (pre ++ (k, t1) :: (key, t2) :: post) →
      nd' r = nd r)
    (hlo : hdr.internalMaxSize / 2 ≤ L.length ∧ hdr.internalMaxSize / 2 ≤ R.length + 1)
    (hhi : L.length ≤ hdr.internalMaxSize ∧ R.length + 1 ≤ hdr.internalMaxSize) :
    SplitOff S s' hdr nd' up (.inner p L) kr (.inner q ((kr, tr) :: R)) := by
  obtain ⟨-, hroot, hnd, hpath, hl, ⟨par, hr⟩, hpf, hlf, hrf, hpz, hlz, hrz, hsorted, hkeys⟩ := hso
  obtain ⟨-, hpre, hpost, hup⟩ := hpath
  have hperm := Path.pages_items p pre post k key up t1 t2
  have hnd' := hperm.nodup_iff.mp hnd
  have hq' : q ∉ up.pages ++ (Tree.inner p (pre ++ (k, t1) :: (key, t2) :: post)).pages :=
    fun hm => hq (hperm.mem_iff.mpr hm)
  have hmarks : (Tree.inner p L).marks ++ sep kr :: (Tree.inner q ((kr, tr) :: R)).marks =
      (Tree.inner p (L ++ (kr, tr) :: R)).marks := by
    obtain ⟨a, L, rfl⟩ := List.exists_cons_of_ne_nil hL
    simp
  rw [hitems] at hnd' hq' frest
  have hpages : (up.pages ++ (Tree.inner p L).pages ++ (Tree.inner q ((kr, tr) :: R)).pages).Perm
      (q :: (up.pages ++ (Tree.inner p (L ++ (kr, tr) :: R)).pages)) := by
    classical
    simp only [Tree.pages_inner, List.flatMap_append, List.perm_iff_count, List.count_append,
      List.count_cons]
    intro a
    omega
  obtain ⟨-, hndp, hdisj⟩ := List.nodup_append.mp hnd'
  rw [Tree.pages_inner, List.nodup_cons] at hndp
  obtain ⟨hpn, hndi⟩ := hndp
  have hsub : ∀ it ∈ L ++ (kr, tr) :: R, ∃ par, Holds nd par it.2 := by
    rw [← hitems]
    simp only [List.forall_mem_append, List.forall_mem_cons]
    exact ⟨fun it hit => ⟨_, hpre it hit⟩, ⟨_, hl⟩, ⟨_, hr⟩, fun it hit => ⟨_, hpost it hit⟩⟩
  have hin : ∀ it ∈ L ++ (kr, tr) :: R, ∀ r ∈ it.2.pages, r ≠ p ∧ r ≠ q := by
    intro it hit r hr
    have hm : r ∈ (L ++ (kr, tr) :: R).flatMap fun it => it.2.pages :=
      List.mem_flatMap.mpr ⟨it, hit, hr⟩
    exact ⟨fun e => hpn (e ▸ hm), fun e =>
      hq' (e ▸ List.mem_append_right _ (List.mem_cons_of_mem _ hm))⟩
  have hsame : ∀ it ∈ L ++ (kr, tr) :: R, ∀ r ∈ it.2.pages, r ∉ Tree.tops (L ++ (kr, tr) :: R) →
      IndexNode.Same (nd r) (nd' r) := fun it hit r hr hn =>
    .of_eq (frest r (hin it hit r hr).1 (hin it hit r hr).2 hn)
  rw [List.flatMap_append] at hndi
  obtain ⟨hndL, hndR, hLR⟩ := List.nodup_append.mp hndi
  obtain ⟨hfup, hfirst⟩ := Path.firstKeys_items hpf hlf hrf
  rw [hitems, Tree.firstKeys_append hL] at hfirst
  have hsized : ∀ it ∈ L ++ (kr, tr) :: R, Tree.Sized hdr.bounds false it.2 := by
    rw [← hitems]
    simp only [List.forall_mem_append, List.forall_mem_cons]
    exact ⟨hpz.2.2.1, hlz, hrz, hpz.2.2.2.1⟩
  have hlist : up.left ++ (Tree.inner p L).marks ++ sep kr :: (Tree.inner q ((kr, tr) :: R)).marks ++
      up.right = (Path.step p pre k post up).left ++ t1.marks ++ sep key :: t2.marks ++
        (Path.step p pre k post up).right := by
    rw [Path.marks_items p, hitems, ← hmarks]
    simp
  refine ⟨hv.mono ?_, ?_, ?_, ?_, ?_, ?_, hfup, ?_, ?_, hpz.2.2.2.2, ?_, ?_, ?_, ?_⟩
  · intro r hr
    have := hpages.mem_iff.mp hr
    rw [← hitems] at this
    exact List.mem_cons.mpr ((List.mem_cons.mp this).imp_right hperm.mem_iff.mpr)
  · rw [hroot]; exact congrArg some (up.page_plug rfl)
  · exact hpages.nodup_iff.mpr (List.nodup_cons.mpr ⟨hq', hnd'⟩)
  · refine hup.congr fun r hr => .of_eq (frest r ?_ ?_ ?_)
    · exact hdisj r hr p (by simp)
    · exact fun e => hq' (e ▸ List.mem_append_left _ hr)
    · exact fun ht => hdisj r hr r (List.mem_cons_of_mem _ (Tree.tops_sub_pages _ ht)) rfl
  · refine holds_inner.mpr ⟨fp, holds_of_adopted nd hndL (fun it hit => hsub it (by simp [hit])) ftl ?_⟩
    intro it hit r hr hn
    refine hsame it (by simp [hit]) r hr fun ht => ?_
    rw [Tree.tops, List.map_append, List.mem_append] at ht
    rcases ht with ht | ht
    · exact hn ht
    · exact hLR r (List.mem_flatMap.mpr ⟨it, hit, hr⟩) r (Tree.tops_sub_pages _ ht) rfl
  · obtain ⟨par', fq⟩ := fq
    refine ⟨par', holds_inner.mpr ⟨fq, holds_of_adopted nd hndR
      (fun it hit => hsub it (List.mem_append_right _ hit)) ftr ?_⟩⟩
    intro it hit r hr hn
    refine hsame it (List.mem_append_right _ hit) r hr fun ht => ?_
    rw [Tree.tops, List.map_append, List.mem_append] at ht
    rcases ht with ht | ht
    · exact hLR r (Tree.tops_sub_pages _ ht) r (List.mem_flatMap.mpr ⟨it, hit, hr⟩) rfl
    · exact hn ht
  · exact (Tree.firstKey_inner _ _ _).mpr hfirst.1
  · exact (Tree.firstKey_inner _ _ _).mpr (Tree.firstKeys_some.mpr ⟨by simp, hfirst.2⟩)
  · exact ⟨hlo.1, hhi.1, (Tree.below_inner _ _ _).mpr fun it hit => hsized it (by simp [hit])⟩
  · exact ⟨hlo.2, hhi.2, (Tree.below_inner _ _ _).mpr fun it hit =>
      hsized it (List.mem_append_right _ hit)⟩
  · rw [hlist]; exact hsorted
  · rw [hlist]; exact hkeys

/-- `Split` has moved the items of `p` from `i` on to the new page `q`. -/
structure HalfMoved (s1 : BplusTreeHandler α) (hdr : IndexFileHeader) (nd nd1 : PageId → IndexNode α)
    (keep : List PageId) (p q : PageId) (par : Option PageId) (items : List (Key α × IndexTree α h)) (i : Nat) :
    Prop where
  view : View s1 (q :: keep) hdr hdr.rootPageId nd1
  fresh : q ∉ keep
  kept : nd1 p = { nd p with children := childLinks (items.take i) }
  moved : (nd1 q).IsInnerWith par (childLinks (items.drop i))
  others : ∀ r, r ≠ p → r ≠ q → nd1 r = adopt nd q (Tree.tops (items.drop i)) r

/-- The full node `p` has been split at item `i`, its right part moved to the new page `q`. Linking
`t2` into the one of the two that its key belongs to leaves the items `L` in `p` and `R` in `q`. -/
theorem SplitOff.link_half (hso : SplitOff S s hdr nd (.step p pre k post up) t1 key t2)
    (i : Nat) (tgt : PageId) {q : PageId} {s1 : BplusTreeHandler α} {nd1 : PageId → IndexNode α}
    {L R : List (Key α × IndexTree α h)} {kr : Key α} {tr : IndexTree α h}
    (hm : HalfMoved s1 hdr nd nd1 ((Path.step p pre k post up).pages ++ t1.pages ++ t2.pages) p q up.parent
      (pre ++ (k, t1) :: post) i)
    (hitems : pre ++ (k, t1) :: (key, t2) :: post = L ++ (kr, tr) :: R) (hL : L ≠ [])
    (htgt : (tgt = p ∧ (key, t2) ∈ L ∧ (pre ++ (k, t1) :: post).drop i = (kr, tr) :: R ∧
        ((nd1 p).internalInsert cmp key t2.page).IsInnerWith (nd p).parent (childLinks L)) ∨
      (tgt = q ∧ (key, t2) ∈ (kr, tr) :: R ∧ (pre ++ (k, t1) :: post).take i = L ∧
        ((nd1 q).internalInsert cmp key t2.page).IsInnerWith up.parent (childLinks ((kr, tr) :: R))))
    (hLs : (pre ++ (k, t1) :: post).take i ⊆ L)
    (hRs : (pre ++ (k, t1) :: post).drop i ⊆ (kr, tr) :: R)
    (hlo : hdr.internalMaxSize / 2 ≤ L.length ∧ hdr.internalMaxSize / 2 ≤ R.length + 1)
    (hhi : L.length ≤ hdr.internalMaxSize ∧ R.length + 1 ≤ hdr.internalMaxSize) :
    ∃ nd3, SplitOff S ((((s1.modifyNode tgt
        (IndexNode.internalInsert cmp key t2.page)).setParentPageId t2.page (some tgt)).unpinPage
        t1.page).unpinPage t2.page) hdr nd3 up (.inner p L) kr (.inner q ((kr, tr) :: R)) ∧
      (nd3 q).children = childLinks ((kr, tr) :: R) ∧
      SameLinks nd nd3 ((Path.step p pre k post up).pages ++ t1.pages ++ t2.pages) := by
  have hso' := hso
  obtain ⟨hv1, hq, n1p, n1q, n1r⟩ := hm
  obtain ⟨-, -, hnd, ⟨⟨hleaf, hparent, -⟩, hpre, hpost, -⟩, hl, -, -, -, -, -, -, -, -, -⟩ := hso
  have hperm := Path.pages_items p pre post k key up t1 t2
  have hndp := (List.nodup_append.mp (hperm.nodup_iff.mp hnd)).2.1
  rw [Tree.pages_inner, List.nodup_cons] at hndp
  obtain ⟨hpn, hndi⟩ := hndp
  have ht2 : (key, t2) ∈ pre ++ (k, t1) :: (key, t2) :: post := by simp
  have htopsKeep : ∀ r ∈ Tree.tops (pre ++ (k, t1) :: (key, t2) :: post), r ≠ p ∧ r ≠ q := by
    intro r hr
    have hm := Tree.tops_sub_pages _ hr
    exact ⟨fun e => hpn (e ▸ hm), fun e => hq (e ▸ hperm.mem_iff.mpr
      (List.mem_append_right _ (List.mem_cons_of_mem _ hm)))⟩
  obtain ⟨ht2p, ht2q⟩ := htopsKeep _ (Tree.top_mem ht2)
  have hpq : p ≠ q := fun e => hq (by simp [← e, Path.pages])
  have htne : tgt ≠ t2.page := by
    rcases htgt with ⟨rfl, -⟩ | ⟨rfl, -⟩
    · exact ht2p.symm
    · exact ht2q.symm
  have htmem : tgt ∈ q :: ((Path.step p pre k post up).pages ++ t1.pages ++ t2.pages) := by
    rcases htgt with ⟨rfl, -⟩ | ⟨rfl, -⟩ <;> simp [Path.pages]
  have hv3 := (((hv1.modifyNode htmem (IndexNode.internalInsert cmp key t2.page)).modifyNode
    (List.mem_cons_of_mem _ (List.mem_append_right _ t2.page_mem_pages)) fun n =>
    { n with parent := some tgt }).unpinPage (p := t1.page)).unpinPage (p := t2.page)
  generalize hg : Function.update (Function.update nd1 tgt _) t2.page _ = nd3 at hv3
  have h3t : nd3 tgt = (nd1 tgt).internalInsert cmp key t2.page := by rw [← hg]; simp [htne]
  have h32 : nd3 t2.page = { nd1 t2.page with parent := some tgt } := by
    rw [← hg]; simp [htne.symm]
  have h3r : ∀ r, r ≠ tgt → r ≠ t2.page → nd3 r = nd1 r := by
    intro r h1 h2
    rw [← hg]; simp [h1, h2]
  -- the two nodes
  have fp : (nd3 p).IsInnerWith up.parent (childLinks L) := by
    rcases htgt with ⟨rfl, -, -, hc⟩ | ⟨rfl, -, hc, -⟩
    · rw [h3t, ← hparent]; exact hc
    · rw [h3r p hpq ht2p.symm, n1p, hc]; exact ⟨hleaf, hparent, rfl⟩
  have fq : (nd3 q).IsInnerWith up.parent (childLinks ((kr, tr) :: R)) := by
    rcases htgt with ⟨rfl, -, hc, -⟩ | ⟨rfl, -, -, hc⟩
    · rw [h3r q hpq.symm ht2q.symm, ← hc]; exact n1q
    · rw [h3t]; exact hc
  -- who moved
  have htops := Tree.tops_nodup hndi
  rw [hitems, Tree.tops, List.map_append] at htops
  have hdisj : ∀ r ∈ Tree.tops L, r ∉ Tree.tops ((kr, tr) :: R) := fun r h1 h2 =>
    (List.nodup_append.mp htops).2.2 r h1 r h2 rfl
  have hmove : ∀ r, r ≠ p → r ≠ q → r ≠ t2.page →
      nd3 r = adopt nd q (Tree.tops ((pre ++ (k, t1) :: post).drop i)) r := by
    intro r h1 h2 h3
    have hne : r ≠ tgt := by rcases htgt with ⟨rfl, -⟩ | ⟨rfl, -⟩ <;> assumption
    rw [h3r r hne h3, n1r r h1 h2]
  have hsame2 : IndexNode.SameItems (nd t2.page) (nd3 t2.page) ∧
      (nd3 t2.page).parent = some tgt := by
    rw [h32, n1r _ ht2p ht2q]
    refine ⟨?_, rfl⟩
    by_cases hm : t2.page ∈ Tree.tops ((pre ++ (k, t1) :: post).drop i)
    · rw [adopt_of_mem hm]; exact ⟨rfl, rfl, rfl⟩
    · rw [adopt_of_notMem hm]; exact ⟨rfl, rfl, rfl⟩
  have hdropTops : Tree.tops ((pre ++ (k, t1) :: post).drop i) ⊆ Tree.tops ((kr, tr) :: R) :=
    List.map_subset _ hRs
  have hold : ∀ it ∈ pre ++ (k, t1) :: (key, t2) :: post, it.2.page ≠ t2.page →
      it ∈ pre ++ (k, t1) :: post ∧ (nd it.2.page).parent = some p := by
    simp only [List.forall_mem_append, List.forall_mem_cons]
    refine ⟨fun it hit _ => ⟨by simp [hit], (hpre it hit).parent_eq⟩,
      fun _ => ⟨by simp, hl.parent_eq⟩, fun hne => absurd rfl hne,
      fun it hit _ => ⟨by simp [hit], (hpost it hit).parent_eq⟩⟩
  refine ⟨nd3, hso'.split_parent hitems hL hq hv3 fp ⟨_, fq⟩ ?_ ?_ ?_ hlo hhi, fq.2.2, ?_⟩
  · intro r hr
    obtain ⟨it, hit, rfl⟩ := List.mem_map.mp hr
    have hit' : it ∈ pre ++ (k, t1) :: (key, t2) :: post := by rw [hitems]; simp [hit]
    obtain ⟨hrp, hrq⟩ := htopsKeep _ (Tree.top_mem hit')
    by_cases h2 : it.2.page = t2.page
    · rcases htgt with ⟨rfl, -⟩ | ⟨-, hm, -⟩
      · rw [h2]; exact hsame2
      · exact absurd (h2 ▸ hr) fun h => hdisj _ h (Tree.top_mem hm)
    · rw [hmove _ hrp hrq h2, adopt_of_notMem fun hm => hdisj _ hr (hdropTops hm)]
      exact ⟨.refl _, (hold it hit' h2).2⟩
  · intro r hr
    obtain ⟨it, hit, rfl⟩ := List.mem_map.mp hr
    have hit' : it ∈ pre ++ (k, t1) :: (key, t2) :: post := by
      rw [hitems]; exact List.mem_append_right _ hit
    obtain ⟨hrp, hrq⟩ := htopsKeep _ (Tree.top_mem hit')
    by_cases h2 : it.2.page = t2.page
    · rcases htgt with ⟨-, hm, -⟩ | ⟨rfl, -⟩
      · exact absurd (Tree.top_mem hm) fun h => hdisj _ h (h2 ▸ hr)
      · rw [h2]; exact hsame2
    · have hin := (hold it hit' h2).1
      rw [← List.take_append_drop i (pre ++ (k, t1) :: post), List.mem_append] at hin
      rcases hin with hin | hin
      · exact absurd hr (hdisj _ (Tree.top_mem (hLs hin)))
      · rw [hmove _ hrp hrq h2, adopt_of_mem (Tree.top_mem hin)]
        exact ⟨⟨rfl, rfl, rfl⟩, rfl⟩
  · intro r h1 h2 h3
    have hne : r ≠ t2.page := fun e => h3 (e ▸ Tree.top_mem ht2)
    rw [hmove r h1 h2 hne, adopt_of_notMem fun hm => h3 ?_]
    rw [hitems, Tree.tops, List.map_append]
    exact List.mem_append_right _ (hdropTops hm)
  · intro r hr
    have hrq : r ≠ q := fun e => hq (e ▸ hr)
    by_cases h1 : r = p
    · subst h1
      rcases htgt with ⟨rfl, -⟩ | ⟨rfl, -⟩
      · rw [h3t, n1p]; exact ⟨rfl, rfl⟩
      · rw [h3r _ hpq ht2p.symm, n1p]; exact ⟨rfl, rfl⟩
    · have hadopt : (adopt nd q (Tree.tops ((pre ++ (k, t1) :: post).drop i)) r).prevBrother =
          (nd r).prevBrother ∧ (adopt nd q (Tree.tops ((pre ++ (k, t1) :: post).drop i))
            r).nextBrother = (nd r).nextBrother := by
        unfold adopt; split <;> exact ⟨rfl, rfl⟩
      by_cases h2 : r = t2.page
      · subst h2
        rw [h32, n1r _ h1 hrq]
        exact hadopt
      · rw [hmove r h1 hrq h2]
        exact hadopt

omit [LinearOrder (Key α)] in
theorem View.keyAt_zero {keep : List PageId} {st : Option PageId} {q : PageId} {kr : Key α}
    {tr : IndexTree α h} {R : List (Key α × IndexTree α h)} (hv : View s keep hdr st nd)
    (hc : (nd q).children = childLinks ((kr, tr) :: R)) : (s.node q).keyAt 0 = kr := by
  rw [hv.node, IndexNode.keyAt, hc]
  simp

omit [LinearOrder (Key α)] in
/-- The halves of the node above the hole take over the pins of the halves below. -/
theorem split_balanced {L R : List (Key α × IndexTree α h)} {kr : Key α} {tr : IndexTree α h}
    {q target : PageId} {s1 r : BplusTreeHandler α} {st : Option PageId}
    {f : IndexNode α → IndexNode α}
    (hv : View s ((Path.step p pre k post up).pages ++ t1.pages ++ t2.pages) hdr st nd)
    (hp : p ∈ (Path.step p pre k post up).pages ++ t1.pages ++ t2.pages)
    (hp2 : t2.page ∈ (Path.step p pre k post up).pages ++ t1.pages ++ t2.pages)
    (hsplit : (s.pinned p).split .internal p = (.success, q, s1))
    (hitems : pre ++ (k, t1) :: (key, t2) :: post = L ++ (kr, tr) :: R)
    (hr : Balanced ((((s1.modifyNode target f).setParentPageId t2.page (some target)).unpinPage
      t1.page).unpinPage t2.page) [p, q]
      (up.pages ++ (Tree.inner p L).pages ++ (Tree.inner q ((kr, tr) :: R)).pages) r) :
    Balanced s [t1.page, t2.page] ((Path.step p pre k post up).pages ++ t1.pages ++ t2.pages) r := by
  intro n hacc
  have hp1 : t1.page ∈ (Path.step p pre k post up).pages ++ t1.pages ++ t2.pages :=
    List.mem_append_left _ (List.mem_append_right _ t1.page_mem_pages)
  have h1 := (hacc.pinned (p := p)).split (hv.pinned.fresh (List.forall_mem_cons.mpr ⟨hp,
    List.forall_mem_cons.mpr ⟨hp1, List.forall_mem_singleton.mpr hp2⟩⟩) n) hsplit
  have hperm : [q, p, t1.page, t2.page].Perm [t1.page, t2.page, p, q] :=
    (show ([q, p] ++ [t1.page, t2.page]).Perm _ from List.perm_append_comm).trans
      (((List.Perm.swap _ _ _).cons _).cons _)
  have h2 := (((h1.modifyNode (p := target) f).modifyNode (p := t2.page) fun n =>
    { n with parent := some target }).perm hperm).unpinPage.unpinPage
  refine hr n (h2.mono fun x hx => ?_)
  have hpages := Path.pages_items p pre post k key up t1 t2
  simp only [inUse, List.mem_cons, hpages.mem_iff] at hx ⊢
  rw [hitems] at hx
  simp only [Tree.pages_inner, List.flatMap_append, List.mem_append, List.mem_cons] at hx ⊢
  tauto

section Cut

variable {β : Type} {pre : List β} {i : Nat}

/-- A row cut in front of `a` or at it: `b`, which comes behind `a`, is on the right. -/
theorem cut_before (post : List β) (a b : β) (hi : i ≤ pre.length) :
    ∃ x F, pre.drop i ++ [a] = x :: F ∧ (pre ++ a :: post).take i = pre.take i ∧
      (pre ++ a :: post).drop i = x :: (F ++ post) ∧
      pre ++ a :: b :: post = pre.take i ++ x :: (F ++ b :: post) ∧ F.length = pre.length - i := by
  obtain ⟨x, F, hF⟩ := List.exists_cons_of_ne_nil (show pre.drop i ++ [a] ≠ [] by simp)
  refine ⟨x, F, hF, List.take_append_of_le_length hi, ?_, ?_, ?_⟩
  · rw [List.drop_append_of_le_length hi, ← List.cons_append, ← hF]
    simp
  · rw [← List.cons_append, ← hF, ← List.append_assoc, ← List.append_assoc, List.take_append_drop]
    simp
  · have hlen := congrArg List.length hF
    simpa using hlen.symm

theorem cut_after (post : List β) (a : β) (hi : pre.length < i) (hi' : i < pre.length + 1 + post.length) :
    ∃ M x R, post = M ++ x :: R ∧ (pre ++ a :: post).take i = pre ++ a :: M ∧
      (pre ++ a :: post).drop i = x :: R ∧ pre.length + 1 + M.length = i := by
  obtain ⟨j, rfl⟩ : ∃ j, i = pre.length + (j + 1) := ⟨i - pre.length - 1, by omega⟩
  obtain ⟨x, R, hR⟩ := List.exists_cons_of_ne_nil
    (show post.drop j ≠ [] by rw [ne_eq, List.drop_eq_nil_iff]; omega)
  refine ⟨post.take j, x, R, ?_, ?_, ?_, ?_⟩
  · rw [← hR, List.take_append_drop]
  · rw [List.take_length_add_append, List.take_succ_cons]
  · rw [List.drop_length_add_append, List.drop_succ_cons, hR]
  · rw [List.length_take]
    omega

end Cut

/-- `t1` went to the new page, and `t2` follows it there. -/
theorem SplitOff.follows (ha : Agrees cmp S) (hi : 6 ≤ hdr.internalMaxSize)
    (hso : SplitOff S s hdr nd (.step p pre k post up) t1 key t2)
    (hmax : pre.length + 1 + post.length = hdr.internalMaxSize) {q : PageId} {s1 : BplusTreeHandler α}
    {nd1 : PageId → IndexNode α} {i : Nat}
    (hm : HalfMoved s1 hdr nd nd1 ((Path.step p pre k post up).pages ++ t1.pages ++ t2.pages) p q up.parent
      (pre ++ (k, t1) :: post) i)
    (hhalf : hdr.internalMaxSize / 2 = i) (hside : i ≤ pre.length) :
    ∃ L kr tr R nd', pre ++ (k, t1) :: (key, t2) :: post = L ++ (kr, tr) :: R ∧ L ≠ [] ∧
      (s1.node q).keyAt 0 = kr ∧ 0 < cmp key kr ∧
      (0 < (s1.node q).size ∧ (s1.node q).size < s1.maxSize .internal) ∧
      SplitOff S ((((s1.modifyNode q (IndexNode.internalInsert cmp key t2.page)).setParentPageId t2.page
        (some q)).unpinPage t1.page).unpinPage t2.page) hdr nd' up (.inner p L) kr (.inner q ((kr, tr) :: R)) ∧
      (nd' q).children = childLinks ((kr, tr) :: R) ∧
      SameLinks nd nd' ((Path.step p pre k post up).pages ++ t1.pages ++ t2.pages) := by
  obtain ⟨hs, hS⟩ := hso.items_sorted
  obtain ⟨hqleaf, hqpar, hqchildren⟩ := hm.moved
  obtain ⟨⟨kr, tr⟩, F, hF, htake, hdrop, hitems, hlen⟩ := cut_before post (k, t1) (key, t2) hside
  have hL : pre.take i ≠ [] := by
    rw [ne_eq, List.take_eq_nil_iff, not_or]
    exact ⟨by omega, by rintro rfl; simp at hside; omega⟩
  have hkeyS : key ∈ S := hS (key, t2) (by cases pre <;> simp)
  have hkr : kr < key ∧ kr ∈ S := by
    obtain ⟨a, l, hal⟩ := List.exists_cons_of_ne_nil hL
    rw [hitems, hal, List.cons_append, List.tail_cons] at hs hS
    refine ⟨?_, hS (kr, tr) (by simp)⟩
    exact (List.pairwise_cons.mp (List.pairwise_append.mp hs).2.1).1 (key, t2) (by simp)
  have hins : ((nd1 q).internalInsert cmp key t2.page).IsInnerWith up.parent
      (childLinks ((kr, tr) :: (F ++ (key, t2) :: post))) := by
    have hcut : (kr, tr) :: (F ++ (key, t2) :: post) =
        pre.drop i ++ (k, t1) :: (key, t2) :: post := by
      rw [← List.cons_append, ← hF]; simp
    have hsub : (pre.drop i ++ (k, t1) :: (key, t2) :: post).Sublist
        (pre ++ (k, t1) :: (key, t2) :: post) := (List.drop_sublist i pre).append_right _
    rw [hcut, internalInsert_items ha hs hS hsub (by
      rw [hqchildren, List.drop_append_of_le_length hside])]
    exact ⟨hqleaf, hqpar, rfl⟩
  have hqs : (s1.node q).size = F.length + post.length + 1 := by
    rw [hm.view.node, IndexNode.size, hqleaf, hqchildren, hdrop]
    simp
  have hroom : (s1.node q).size < s1.maxSize .internal := by
    rw [hqs, maxSize, hm.view.fileHeader]
    show F.length + post.length + 1 < hdr.internalMaxSize
    omega
  have hkey : (s1.node q).keyAt 0 = kr := by
    rw [hm.view.node, IndexNode.keyAt, hqchildren, hdrop]
    simp
  obtain ⟨nd3, h3, hc3, hlinks⟩ := hso.link_half i q hm hitems hL
    (.inr ⟨rfl, by simp, htake, hins⟩) (by rw [htake]; exact fun _ hm => hm)
    (by rw [hdrop]; exact fun x hx => by simp at hx ⊢; tauto)
    (by simp; omega) (by simp; omega)
  exact ⟨pre.take i, kr, tr, F ++ (key, t2) :: post, nd3, hitems, hL, hkey,
    (ha.gt_iff key hkeyS kr hkr.2).mpr hkr.1, ⟨by omega, hroom⟩, h3, hc3, hlinks⟩

/-- `t1` stayed, and `t2` stays with it. -/
theorem SplitOff.stays (ha : Agrees cmp S) (hi : 6 ≤ hdr.internalMaxSize)
    (hso : SplitOff S s hdr nd (.step p pre k post up) t1 key t2)
    (hmax : pre.length + 1 + post.length = hdr.internalMaxSize) {q : PageId} {s1 : BplusTreeHandler α}
    {nd1 : PageId → IndexNode α} {i : Nat}
    (hm : HalfMoved s1 hdr nd nd1 ((Path.step p pre k post up).pages ++ t1.pages ++ t2.pages) p q up.parent
      (pre ++ (k, t1) :: post) i)
    (hhalf : hdr.internalMaxSize / 2 = i) (hside : pre.length < i) :
    ∃ L kr tr R nd', pre ++ (k, t1) :: (key, t2) :: post = L ++ (kr, tr) :: R ∧ L ≠ [] ∧
      (s1.node q).keyAt 0 = kr ∧ ¬0 < cmp key kr ∧
      (0 < (s1.node q).size ∧ (s1.node p).size < s1.maxSize .internal) ∧
      SplitOff S ((((s1.modifyNode p (IndexNode.internalInsert cmp key t2.page)).setParentPageId t2.page
        (some p)).unpinPage t1.page).unpinPage t2.page) hdr nd' up (.inner p L) kr (.inner q ((kr, tr) :: R)) ∧
      (nd' q).children = childLinks ((kr, tr) :: R) ∧
      SameLinks nd nd' ((Path.step p pre k post up).pages ++ t1.pages ++ t2.pages) := by
  obtain ⟨hs, hS⟩ := hso.items_sorted
  obtain ⟨⟨hleaf, -, -⟩, -⟩ := hso.path
  obtain ⟨hqleaf, hqpar, hqchildren⟩ := hm.moved
  obtain ⟨M, ⟨kr, tr⟩, R, hcut, htake, hdrop, hlen⟩ := cut_after post (k, t1) hside (by omega)
  have hitems : pre ++ (k, t1) :: (key, t2) :: post =
      (pre ++ (k, t1) :: (key, t2) :: M) ++ (kr, tr) :: R := by
    rw [hcut]; simp
  have hkeyS : key ∈ S := hS (key, t2) (by cases pre <;> simp)
  have hkr : key < kr ∧ kr ∈ S := by
    have htl : ∃ l, (pre ++ (k, t1) :: (key, t2) :: post).tail = l ++ (key, t2) :: post := by
      cases pre with
      | nil => exact ⟨[], rfl⟩
      | cons a pre => exact ⟨pre ++ [(k, t1)], by simp⟩
    obtain ⟨l, hl⟩ := htl
    have hmem : (kr, tr) ∈ post := by rw [hcut]; simp
    rw [hl] at hs hS
    refine ⟨?_, hS (kr, tr) (by simp [hmem])⟩
    exact (List.pairwise_cons.mp (List.pairwise_append.mp hs).2.1).1 (kr, tr) hmem
  have hcmp : ¬0 < cmp key kr := by
    rw [ha.gt_iff key hkeyS kr hkr.2]
    exact not_lt.mpr (le_of_lt hkr.1)
  have hins : ((nd1 p).internalInsert cmp key t2.page).IsInnerWith (nd p).parent
      (childLinks (pre ++ (k, t1) :: (key, t2) :: M)) := by
    have hM : M.Sublist post := by rw [hcut]; exact List.sublist_append_left _ _
    have hsub : (pre ++ (k, t1) :: (key, t2) :: M).Sublist (pre ++ (k, t1) :: (key, t2) :: post) :=
      ((hM.cons_cons _).cons_cons _).append_left _
    rw [internalInsert_items ha hs hS hsub (by rw [hm.kept, htake])]
    exact ⟨by rw [hm.kept]; exact hleaf, by rw [hm.kept], rfl⟩
  have hlen' : post.length = M.length + (R.length + 1) := by rw [hcut]; simp
  have hqs : (s1.node q).size = R.length + 1 := by
    rw [hm.view.node, IndexNode.size, hqleaf, hqchildren, hdrop]
    simp
  have hps : (s1.node p).size = pre.length + 1 + M.length := by
    rw [hm.view.node, hm.kept, IndexNode.size, htake]
    simp only [hleaf, Bool.false_eq_true, if_false, length_childLinks, List.length_append,
      List.length_cons]
    omega
  have hroom : (s1.node p).size < s1.maxSize .internal := by
    rw [hps, maxSize, hm.view.fileHeader]
    show pre.length + 1 + M.length < hdr.internalMaxSize
    omega
  have hkey : (s1.node q).keyAt 0 = kr := by
    rw [hm.view.node, IndexNode.keyAt, hqchildren, hdrop]
    simp
  obtain ⟨nd3, h3, hc3, hlinks⟩ := hso.link_half i p hm hitems (by simp) (.inl ⟨rfl, by simp, hdrop, hins⟩)
    (by rw [htake]; exact fun x hx => by simp at hx ⊢; tauto)
    (by rw [hdrop]; exact fun _ hm => hm)
    (by simp; omega) (by simp; omega)
  exact ⟨pre ++ (k, t1) :: (key, t2) :: M, kr, tr, R, nd3, hitems, by simp, hkey, hcmp, ⟨by omega, hroom⟩, h3, hc3,
    hlinks⟩

theorem insertEntryIntoParent_split (ha : Agrees cmp S) (hi : 6 ≤ hdr.internalMaxSize)
    (hso : SplitOff S s hdr nd (.step p pre k post up) t1 key t2)
    (hfull : hdr.internalMaxSize ≤ pre.length + 1 + post.length) :
    (insertEntryIntoParent cmp (fuel + 1) t1.page t2.page key s).2.pool.noBuf = true ∨
    ∃ L kr tr R q s' nd', pre ++ (k, t1) :: (key, t2) :: post = L ++ (kr, tr) :: R ∧ L ≠ [] ∧
      insertEntryIntoParent cmp (fuel + 1) t1.page t2.page key s =
        (.success, (insertEntryIntoParent cmp fuel p q kr s').2) ∧
      SplitOff S s' hdr nd' up (.inner p L) kr (.inner q ((kr, tr) :: R)) ∧
      SameLinks nd nd' ((Path.step p pre k post up).pages ++ t1.pages ++ t2.pages) ∧
      (∀ r, Balanced s' [p, q] (up.pages ++ (Tree.inner p L).pages ++
          (Tree.inner q ((kr, tr) :: R)).pages) r →
        Balanced s [t1.page, t2.page] ((Path.step p pre k post up).pages ++ t1.pages ++ t2.pages) r) ∧
      (insertEntryIntoParentChecks cmp fuel p q kr s' →
        insertEntryIntoParentChecks cmp (fuel + 1) t1.page t2.page key s) := by
  have hso' := hso
  obtain ⟨hv, -, hnd, ⟨⟨hleaf, hparent, hchildren⟩, -⟩, hl, -, -, -, -, hpz, -, -, -, -⟩ := hso
  have hmax : pre.length + 1 + post.length = hdr.internalMaxSize :=
    le_antisymm hpz.2.1 hfull
  have hpar : (s.node t1.page).parent = some p := by rw [hv.node]; exact hl.parent_eq
  have hchildren' : (nd p).children = childLinks (pre ++ (k, t1) :: post) := by simpa using hchildren
  have hp : p ∈ (Path.step p pre k post up).pages ++ t1.pages ++ t2.pages := by simp [Path.pages]
  have hp2 : t2.page ∈ (Path.step p pre k post up).pages ++ t1.pages ++ t2.pages :=
    List.mem_append_right _ t2.page_mem_pages
  have hsz : (nd p).size = hdr.internalMaxSize := by
    simp only [IndexNode.size, hleaf, hchildren', length_childLinks, List.length_append,
      List.length_cons, Bool.false_eq_true, if_false]
    omega
  have hsize : ¬((s.pinned p).node p).size < (s.pinned p).maxSize .internal := by
    rw [hv.pinned.node, hsz, maxSize, hv.pinned.fileHeader]
    exact lt_irrefl _
  simp only [insertEntryIntoParent, insertEntryIntoParentChecks, hpar, hv.getPage hp, ne_eq,
    not_true_eq_false, if_false, hsize]
  -- which pages are which
  have hperm := Path.pages_items p pre post k key up t1 t2
  have hnd' := hperm.nodup_iff.mp hnd
  obtain ⟨-, hndp, -⟩ := List.nodup_append.mp hnd'
  rw [Tree.pages_inner, List.nodup_cons] at hndp
  obtain ⟨hpn, -⟩ := hndp
  have hsubItems : (pre ++ (k, t1) :: post).Sublist (pre ++ (k, t1) :: (key, t2) :: post) :=
    List.Sublist.append_left (List.Sublist.cons_cons _ (List.sublist_cons_self _ _)) _
  have htopsKeep : ∀ r ∈ Tree.tops (pre ++ (k, t1) :: (key, t2) :: post),
      r ≠ p ∧ r ∈ (Path.step p pre k post up).pages ++ t1.pages ++ t2.pages := by
    intro r hr
    have hm := Tree.tops_sub_pages _ hr
    exact ⟨fun e => hpn (e ▸ hm), hperm.mem_iff.mpr
      (List.mem_append_right _ (List.mem_cons_of_mem _ hm))⟩
  have holdTops : Tree.tops (pre ++ (k, t1) :: post) ⊆
      Tree.tops (pre ++ (k, t1) :: (key, t2) :: post) := List.map_subset _ hsubItems.subset
  -- the split itself
  rcases (hv.pinned (p := p)).split_internal hp
    (by rw [hchildren', childLinks_tops]; exact fun r hr => (htopsKeep r (holdTops hr)).2)
    (by rw [hchildren', childLinks_tops]; exact fun hr => (htopsKeep p (holdTops hr)).1 rfl)
    with ⟨hne, hb⟩ | ⟨q, s1, hsplit, hq, prev, next, hv1⟩
  · left
    rcases hsp : (s.pinned p).split .internal p with ⟨r, q, s1⟩
    rw [hsp] at hne hb
    simp only at hne hb ⊢
    rw [if_pos hne]
    simpa [BplusTreeHandler.unpinPage] using hb
  · right
    rw [hsz, hchildren', childLinks_take, childLinks_drop, childLinks_tops] at hv1
    simp only [hsplit, not_true_eq_false, if_false]
    generalize hi2 : hdr.internalMaxSize / 2 = i at hv1
    have hpq : p ≠ q := fun e => hq (e ▸ hp)
    generalize hg1 : Function.update (Function.update (adopt nd q _) q _) p _ = nd1 at hv1
    have hmoved : HalfMoved s1 hdr nd nd1 ((Path.step p pre k post up).pages ++ t1.pages ++ t2.pages) p q
        up.parent (pre ++ (k, t1) :: post) i := by
      refine ⟨hv1, hq, ?_, ?_, fun r h1 h2 => ?_⟩
      · rw [← hg1]; simp
      · rw [← hg1]
        simpa [hpq.symm, hparent] using ⟨rfl, rfl, rfl⟩
      · rw [← hg1]; simp [h1, h2]
    by_cases hside : i ≤ pre.length
    · obtain ⟨L, kr, tr, R, nd3, hitems, hL, hkey0, hcmp, ⟨hpos, hroom⟩, h3, hc3, hlinks⟩ :=
        hso'.follows ha hi hmax hmoved hi2 hside
      have hkey1 := h3.view.keyAt_zero hc3
      refine ⟨L, kr, tr, R, q, _, nd3, hitems, hL, ?_, h3, hlinks,
        fun r hr => split_balanced hv hp hp2 hsplit hitems hr, ?_⟩
      · simp only [hkey0, if_pos hcmp, hkey1]
      · simp only [hkey0, if_pos hcmp, hkey1]
        exact fun hchk => ⟨hpos, hroom, h3.right_pos, hchk⟩
    · obtain ⟨L, kr, tr, R, nd3, hitems, hL, hkey0, hcmp, ⟨hpos, hroom⟩, h3, hc3, hlinks⟩ :=
        hso'.stays ha hi hmax hmoved hi2 (not_le.mp hside)
      have hkey1 := h3.view.keyAt_zero hc3
      refine ⟨L, kr, tr, R, q, _, nd3, hitems, hL, ?_, h3, hlinks,
        fun r hr => split_balanced hv hp hp2 hsplit hitems hr, ?_⟩
      · simp only [hkey0, if_neg hcmp, hkey1]
      · simp only [hkey0, if_neg hcmp, hkey1]
        exact fun hchk => ⟨hpos, hroom, h3.right_pos, hchk⟩

end Step

/-- `InsertEntryIntoParent` links in the second half, unless the file is full. -/
theorem insertEntryIntoParent_spec (ha : Agrees cmp S) (hi : 6 ≤ hdr.internalMaxSize)
    {c : IndexPath α m h} : ∀ {t1 t2 : IndexTree α h} {key : Key α} {s : BplusTreeHandler α}
      {nd : PageId → IndexNode α} {fuel : Nat}, c.depth < fuel → SplitOff S s hdr nd c t1 key t2 →
      (insertEntryIntoParent cmp fuel t1.page t2.page key s).2.pool.noBuf = true ∨
      ((insertEntryIntoParent cmp fuel t1.page t2.page key s).1 = .success ∧
        Linked (insertEntryIntoParent cmp fuel t1.page t2.page key s).2 hdr nd c t1 key t2 ∧
        Balanced s [t1.page, t2.page] (c.pages ++ t1.pages ++ t2.pages)
          (insertEntryIntoParent cmp fuel t1.page t2.page key s).2 ∧
        insertEntryIntoParentChecks cmp fuel t1.page t2.page key s) := by
  induction c with
  | top =>
    intro t1 t2 key s nd fuel hf hso
    obtain ⟨fuel, rfl⟩ := Nat.exists_eq_succ_of_ne_zero (Nat.ne_of_gt (Nat.zero_lt_of_lt hf))
    refine (insertEntryIntoParent_top (by omega) hso).imp_right ?_
    rintro ⟨h1, h2, h3⟩
    exact ⟨h1, h2, h3, insertEntryIntoParentChecks_top (by omega) hso⟩
  | step p pre k post up ih =>
    intro t1 t2 key s nd fuel hf hso
    obtain ⟨fuel, rfl⟩ := Nat.exists_eq_succ_of_ne_zero (Nat.ne_of_gt (Nat.zero_lt_of_lt hf))
    by_cases hfit : pre.length + 1 + post.length < hdr.internalMaxSize
    · obtain ⟨h1, h2, h3⟩ := insertEntryIntoParent_fits ha hso hfit
      exact .inr ⟨h1, h2, h3, insertEntryIntoParentChecks_fits hso hfit⟩
    · rcases insertEntryIntoParent_split ha hi hso (not_lt.mp hfit) with hb |
        ⟨L, kr, tr, R, q, s', nd', hitems, hL, heq, hso', hlinks, hbalanced, hchecks⟩
      · exact .inl hb
      · rw [heq]
        have hd : up.depth < fuel := by simp only [Path.depth] at hf; omega
        refine (ih hd hso').imp_right ?_
        rintro ⟨-, ⟨m', t', nd'', hst, hleaves, hmarks, hlinks'⟩, hbal, hchk⟩
        refine ⟨rfl, ⟨m', t', nd'', hst, ?_, ?_, ?_⟩, hbalanced _ hbal, hchecks hchk⟩
        · rw [hleaves, Path.leaves_items p pre post k key, hitems]
          simp
        · obtain ⟨a, L, rfl⟩ := List.exists_cons_of_ne_nil hL
          rw [hmarks, Path.marks_items p, hitems]
          simp
        · intro r hr
          have hr' : r ∈ up.pages ++ (Tree.inner p L).pages ++
              (Tree.inner q ((kr, tr) :: R)).pages := by
            have := (Path.pages_items p pre post k key up t1 t2).mem_iff.mp hr
            rw [hitems] at this
            simp only [Tree.pages_inner, List.flatMap_append, List.mem_append, List.mem_cons]
              at this ⊢
            tauto
          obtain ⟨h1, h2⟩ := hlinks r hr
          obtain ⟨h3, h4⟩ := hlinks' r hr'
          exact ⟨h3.trans h1, h4.trans h2⟩

end BplusTreeHandler

end Idmbs
