import Idmbs.BPlusTree.Validate
import Idmbs.BPlusTree.SortedIndex

/-!
# Idmbs.BPlusTree.ValidTree

`BplusTreeHandler::IsValidateTree` accepts every index that requests lead to.
-/

namespace Idmbs

open SearchTree Mark Comparator BplusTreeScanner

namespace IndexNode

variable {α : Type} [LinearOrder (Key α)] {S : Set (Key α)} {cmp : Key α → Key α → Int}

theorem keysAscend_of_sorted (ha : Agrees cmp S) {keys : List (Key α)} (hS : ∀ k ∈ keys, k ∈ S)
    (h : keys.Pairwise (· < ·)) : keysAscend cmp keys = true := by
  induction keys with
  | nil => rfl
  | cons k keys ih =>
    cases keys with
    | nil => rfl
    | cons k' keys =>
      have hlt : k < k' := (List.pairwise_cons.mp h).1 k' List.mem_cons_self
      have hcmp := (ha.lt_iff k (hS k (by simp)) k' (hS k' (by simp))).mpr hlt
      have hrest := ih (fun q hq => hS q (List.mem_cons_of_mem _ hq)) (List.pairwise_cons.mp h).2
      simp [keysAscend, hcmp, hrest]

omit [LinearOrder (Key α)] in
/-- The page of a child is looked up at the index of the child. -/
theorem getValueIndex_of_children {n : IndexNode α} {h : Nat} {pre post : List (Key α × IndexTree α h)}
    {it : Key α × IndexTree α h} (hn : n.children = childLinks (pre ++ it :: post))
    (hnd : it.2.page ∉ Tree.tops pre) : n.getValueIndex it.2.page = some pre.length := by
  have hpre : (Tree.tops pre).findIdx? (· == it.2.page) = none := by
    rw [List.findIdx?_eq_none_iff]
    intro p hp
    have hne : p ≠ it.2.page := fun heq => hnd (heq ▸ hp)
    simpa using hne
  have htops : n.children.map Prod.snd = Tree.tops pre ++ it.2.page :: Tree.tops post := by
    rw [hn, childLinks_tops]
    simp [Tree.tops]
  have hlen : (Tree.tops pre).length = pre.length := List.length_map _
  rw [getValueIndex, htops, List.findIdx?_append, hpre]
  simp [List.findIdx?_cons, hlen]

end IndexNode

namespace BplusTreeHandler

open IndexNode

section Accepts

variable {α : Type} [LinearOrder (Key α)] [Inhabited α] {S : Set (Key α)} {cmp : Key α → Key α → Int}
  {stray : PageId → Int → Key α} {s : BplusTreeHandler α} {h : Nat} {par : Option PageId}

/-- The parent has the subtree among its children, between two of its keys. -/
def Seated (S : Set (Key α)) (s : BplusTreeHandler α) (par : Option PageId) (t : IndexTree α h) : Prop :=
  ∀ q ∈ par, s.loads q = true ∧ ∃ pre k post, (s.node q).children = childLinks (pre ++ (k, t) :: post) ∧
    t.page ∉ Tree.tops pre ∧ (pre ≠ [] → k ∈ S ∧ ∀ m ∈ t.marks, sep k < m) ∧
    ∀ it ∈ post.head?, it.1 ∈ S ∧ ∀ m ∈ t.marks, m < sep it.1

theorem Seated.isValidateInParent (ha : Agrees cmp S) {t : IndexTree α h} (hseat : Seated S s par t)
    (hpar : (s.node t.page).parent = par) {first last : Mark (Key α)} (hfirst : first ∈ t.marks)
    (hlast : last ∈ t.marks) (hfS : first.key ∈ S) (hlS : last.key ∈ S) :
    s.isValidateInParent cmp t.page first.key last.key = true := by
  cases par with
  | none => simp [BplusTreeHandler.isValidateInParent, hpar]
  | some q =>
    obtain ⟨hl, pre, k, post, hch, hnot, hleft, hright⟩ := hseat q rfl
    have hindex := getValueIndex_of_children hch hnot
    simp only [BplusTreeHandler.isValidateInParent, hpar, hl, hindex, Bool.not_true, Bool.false_eq_true, if_false,
      fitsParent, Bool.and_eq_true, Bool.or_eq_true, decide_eq_true_eq]
    constructor
    · by_cases hpre : pre = []
      · exact .inl (by simp [hpre])
      · obtain ⟨hk, hlt⟩ := hleft hpre
        have hkey : (s.node q).keyAt pre.length = k := by simp [keyAt, hch, childLinks]
        rw [hkey]
        exact .inr ((ha.nonneg_iff hfS hk).mpr (le_key_of_sep_lt (hlt first hfirst)))
    · cases post with
      | nil => exact .inl (by simp [hch])
      | cons it post =>
        obtain ⟨hk, hlt⟩ := hright it rfl
        have hkey : (s.node q).keyAt (pre.length + 1) = it.1 := by simp [keyAt, hch, childLinks]
        rw [hkey]
        exact .inr ((ha.lt_iff _ hlS _ hk).mpr (key_lt_of_lt_sep (hlt last hlast)))

omit [Inhabited α] in
/-- The children of a node that holds `items` are seated in it. -/
theorem seated_of_items {p : PageId} {items : List (Key α × IndexTree α h)}
    (hch : (s.node p).children = childLinks items) (hl : s.loads p = true)
    (hnd : (items.flatMap fun it => it.2.pages).Nodup) (hsorted : (Tree.inner p items).Sorted)
    (hS : ∀ k ∈ (Tree.inner p items).keys, k ∈ S) {it : Key α × IndexTree α h} (hit : it ∈ items) :
    Seated S s (some p) it.2 := by
  intro q hq
  cases Option.mem_some_iff.mp hq
  obtain ⟨pre, post, rfl⟩ := List.append_of_mem hit
  obtain ⟨hlt, -, hge, -⟩ := Tree.sorted_inner.mp hsorted
  have hkeyS : ∀ it' ∈ (pre ++ it :: post).tail, it'.1 ∈ S := fun it' hit' =>
    hS it'.1 (Tree.key_mem_keys (Tree.sep_mem_inner hit'))
  refine ⟨hl, pre, it.1, post, hch, ?_, ?_, ?_⟩
  · have htops := Tree.tops_nodup hnd
    simp only [Tree.tops, List.map_append, List.map_cons, List.nodup_append] at htops
    exact fun hmem => htops.2.2 _ hmem _ List.mem_cons_self rfl
  · intro hpre
    have hmem : it ∈ (pre ++ it :: post).tail := by
      obtain ⟨x, pre, rfl⟩ := List.exists_cons_of_ne_nil hpre
      simp
    exact ⟨hkeyS it hmem, hge it hmem⟩
  · intro it' hit'
    cases post with
    | nil => cases hit'
    | cons x post =>
      obtain rfl := Option.mem_some_iff.mp hit'
      have hmem : x ∈ (pre ++ it :: x :: post).tail := by
        cases pre <;> simp
      have hpair := (List.pairwise_append.mp hlt).2.1
      exact ⟨hkeyS x hmem, (List.pairwise_cons.mp hpair).1 x List.mem_cons_self⟩

omit [LinearOrder (Key α)] [Inhabited α] in
theorem rawKeyAt_mem {stray : Int → Key α} {keys : List (Key α)} {i : Int} (h0 : 0 ≤ i) (hi : i < keys.length) :
    rawKeyAt stray keys i ∈ keys := by
  obtain ⟨j, rfl⟩ := Int.eq_ofNat_of_zero_le h0
  rw [rawKeyAt_of_lt (Int.ofNat_lt.mp hi)]
  exact List.getElem_mem _

theorem leafIsValidate_of_seated (ha : Agrees cmp S) (stray : PageId → Int → Key α)
    {p : PageId} {es : List (Key α × RecordId)}
    (hh : Holds s.node par (Tree.leaf p es)) (hne : es ≠ []) (hsorted : (Tree.leaf p es).Sorted)
    (hS : ∀ k ∈ (Tree.leaf p es : IndexTree α 0).keys, k ∈ S) (hseat : Seated S s par (Tree.leaf p es)) :
    s.leafIsValidate cmp stray p = true := by
  obtain ⟨hleaf, hpar, hent⟩ := holds_leaf.mp hh
  have hpos : 0 < es.length := List.length_pos_of_ne_nil hne
  have hmark : ∀ k ∈ es.map Prod.fst, ent k ∈ (Tree.leaf p es : IndexTree α 0).marks := by
    intro k hk
    obtain ⟨e, he, rfl⟩ := List.mem_map.mp hk
    exact Tree.ent_mem_marks (by simpa using he)
  have hmem : ∀ k ∈ es.map Prod.fst, k ∈ S := fun k hk => hS k (Tree.key_mem_keys (hmark k hk))
  have hsize : (s.node p).isValidate = true := by
    simp only [isValidate, size, hleaf, hent]
    split
    · simp; omega
    · rfl
  have hascend : keysAscend cmp (es.map Prod.fst) = true := by
    refine keysAscend_of_sorted ha hmem ?_
    simpa [Tree.Sorted, List.pairwise_map] using hsorted
  have hfirst : rawKeyAt (stray p) (es.map Prod.fst) 0 ∈ es.map Prod.fst :=
    rawKeyAt_mem (by omega) (by simpa using hpos)
  have hlast : rawKeyAt (stray p) (es.map Prod.fst) ((es.map Prod.fst).length - 1) ∈ es.map Prod.fst :=
    rawKeyAt_mem (by simp; omega) (by simp)
  have hparent := hseat.isValidateInParent ha hpar (hmark _ hfirst) (hmark _ hlast) (hmem _ hfirst) (hmem _ hlast)
  simp only [leafIsValidate, hent, hsize, hascend, Bool.true_and]
  exact hparent

theorem internalIsValidate_of_seated (ha : Agrees cmp S) (stray : PageId → Int → Key α)
    {p : PageId} {items : List (Key α × IndexTree α h)}
    (hh : Holds s.node par (Tree.inner p items)) (htwo : 2 ≤ items.length) (hsorted : (Tree.inner p items).Sorted)
    (hS : ∀ k ∈ (Tree.inner p items).keys, k ∈ S) (hseat : Seated S s par (Tree.inner p items)) :
    s.internalIsValidate cmp stray p = true := by
  obtain ⟨⟨hleaf, hpar, hch⟩, hsub⟩ := holds_inner.mp hh
  have hkeys : (s.node p).children.map Prod.fst = items.map Prod.fst := by rw [hch, childLinks_keys]
  have hmark : ∀ k ∈ (items.map Prod.fst).tail, sep k ∈ (Tree.inner p items).marks := by
    intro k hk
    rw [← List.map_tail] at hk
    obtain ⟨it, hit, rfl⟩ := List.mem_map.mp hk
    exact Tree.sep_mem_inner hit
  have hmem : ∀ k ∈ (items.map Prod.fst).tail, k ∈ S := fun k hk => hS k (Tree.key_mem_keys (hmark k hk))
  have hsize : (s.node p).isValidate = true := by
    simp only [isValidate, size, hleaf, hch, length_childLinks]
    split
    · simp; omega
    · rfl
  have hascend : keysAscend cmp (items.map Prod.fst).tail = true := by
    refine keysAscend_of_sorted ha hmem ?_
    rw [← List.map_tail, List.pairwise_map]
    exact (Tree.sorted_inner.mp hsorted).2.1
  have hadopted : (s.node p).children.all
      (fun item => !s.loads item.2 || decide ((s.node item.2).parent = some p)) = true := by
    rw [List.all_eq_true, hch]
    intro item hitem
    obtain ⟨it, hit, rfl⟩ := List.mem_map.mp hitem
    simp [(hsub it hit).parent_eq]
  have htail : ∀ i : Int, 1 ≤ i → i < items.length →
      rawKeyAt (stray p) (items.map Prod.fst) i ∈ (items.map Prod.fst).tail := by
    intro i h1 hi
    obtain ⟨j, rfl⟩ := Int.eq_ofNat_of_zero_le (show 0 ≤ i by omega)
    obtain ⟨j, rfl⟩ := Nat.exists_eq_add_of_le' (show 1 ≤ j by omega)
    rw [rawKeyAt_of_lt (by simp; omega)]
    refine List.mem_of_getElem? (i := j) ?_
    rw [List.getElem?_tail, List.getElem?_eq_getElem]
  have hfirst := htail 1 (by omega) (by omega)
  have hlast := htail ((items.map Prod.fst).length - 1) (by simp; omega) (by simp)
  have hparent := hseat.isValidateInParent ha hpar (hmark _ hfirst) (hmark _ hlast) (hmem _ hfirst) (hmem _ hlast)
  simp only [internalIsValidate, hkeys, hsize, hascend, hadopted, Bool.true_and]
  exact hparent

omit [LinearOrder (Key α)] [Inhabited α] in
theorem isValidateChildren_of_all {validate : PageId → Option Bool} {ps : List PageId}
    (hall : ∀ p ∈ ps, s.loads p = true ∧ validate p = some true) : s.isValidateChildren validate ps = some true := by
  induction ps with
  | nil => rfl
  | cons p ps ih =>
    obtain ⟨hl, hv⟩ := hall p List.mem_cons_self
    simp [isValidateChildren, hl, hv, ih fun q hq => hall q (List.mem_cons_of_mem _ hq)]

theorem isValidateNodeRecursive_of_holds (ha : Agrees cmp S) (stray : PageId → Int → Key α)
    {b : Tree.Bounds} {root : Bool} (hb : b.Wide)
    (hfour : 4 ≤ b.innerMax) {t : IndexTree α h} (hh : Holds s.node par t) (hz : t.Sized b root) (hsorted : t.Sorted)
    (hS : ∀ k ∈ t.keys, k ∈ S) (hnd : t.pages.Nodup) (hl : ∀ p ∈ t.pages, s.loads p = true)
    (hseat : Seated S s par t) {fuel : Nat} (hfuel : h < fuel) :
    s.isValidateNodeRecursive cmp stray fuel t.page = some true := by
  induction t using Tree.ind generalizing par root fuel with
  | leaf p es =>
    obtain ⟨fuel, rfl⟩ := Nat.exists_eq_succ_of_ne_zero (Nat.ne_of_gt hfuel)
    have hne : es ≠ [] := List.ne_nil_of_length_pos (hz.pos hb)
    have hvalid := leafIsValidate_of_seated ha stray hh hne hsorted hS hseat
    simp only [Tree.page_leaf, isValidateNodeRecursive, (holds_leaf.mp hh).1, if_true, hvalid]
  | @inner h p items ih =>
    obtain ⟨fuel, rfl⟩ := Nat.exists_eq_succ_of_ne_zero (Nat.ne_of_gt (Nat.zero_lt_of_lt hfuel))
    have htwo : 2 ≤ items.length := by
      have hlo := hz.lo
      cases root <;> simp only [Tree.Bounds.lo, Tree.size_inner] at hlo <;> omega
    have hvalid := internalIsValidate_of_seated ha stray hh htwo hsorted hS hseat
    obtain ⟨hnode, hsub⟩ := holds_inner.mp hh
    rw [Tree.pages_inner, List.nodup_cons] at hnd
    have hchildren : s.isValidateChildren (s.isValidateNodeRecursive cmp stray fuel) ((s.node p).children.map Prod.snd) =
        some true := by
      refine isValidateChildren_of_all fun q hq => ?_
      rw [hnode.2.2, childLinks_tops] at hq
      obtain ⟨it, hit, rfl⟩ := List.mem_map.mp hq
      have hpages : ∀ r ∈ it.2.pages, s.loads r = true := fun r hr =>
        hl r (List.mem_cons_of_mem _ (List.mem_flatMap.mpr ⟨it, hit, hr⟩))
      refine ⟨hpages _ it.2.page_mem_pages, ?_⟩
      exact ih it hit (hsub it hit) ((Tree.below_inner b p _).mp hz.below it hit)
        ((Tree.sorted_inner.mp hsorted).2.2.2 it hit) (fun k hk => hS k (Tree.keys_sub_inner hit hk))
        ((List.nodup_flatMap.mp hnd.2).1 it hit) hpages
        (seated_of_items hnode.2.2 (hl p (by simp)) hnd.2 hsorted hS hit) (Nat.lt_of_succ_lt_succ hfuel)
    simp only [Tree.page_inner, isValidateNodeRecursive, hnode.1, Bool.false_eq_true, if_false, hvalid, Bool.not_true]
    exact hchildren

omit [Inhabited α] in
theorem isValidateLeafLinkLoop_of_linked (ha : Agrees cmp S) {cs : List (PageId × List (Key α × RecordId))}
    {fuel : Nat} {p : PageId} {k : Key α} (hfuel : cs.length < fuel)
    (hlinked : Chain.Linked (fun p => (s.node p).prevBrother) (fun p => (s.node p).nextBrother) (some p)
      (cs.map Prod.fst) none)
    (hnode : ∀ l ∈ cs, (s.node l.1).entries = l.2 ∧ l.2 ≠ [] ∧ s.loads l.1 = true ∧ ∀ e ∈ l.2, e.1 ∈ S)
    (hk : k ∈ S) (hsorted : (cs.flatMap Prod.snd).Pairwise fun a b => a.1 < b.1)
    (hlt : ∀ e ∈ cs.flatMap Prod.snd, k < e.1) :
    s.isValidateLeafLinkLoop cmp fuel p k (cs.map Prod.fst).head? = some true := by
  induction cs generalizing fuel p k with
  | nil =>
    obtain ⟨fuel, rfl⟩ := Nat.exists_eq_succ_of_ne_zero (Nat.ne_of_gt hfuel)
    rfl
  | cons l cs ih =>
    obtain ⟨fuel, rfl⟩ := Nat.exists_eq_succ_of_ne_zero (Nat.ne_of_gt (Nat.zero_lt_of_lt hfuel))
    obtain ⟨hent, hne, hload, hmem⟩ := hnode l List.mem_cons_self
    obtain ⟨hprev, hnext, hrest⟩ := Chain.linked_cons.mp hlinked
    rw [List.flatMap_cons, List.pairwise_append] at hsorted
    have hfirst := List.head?_eq_some_head hne
    have hlast := List.getLast?_eq_some_getLast hne
    have hcmp : cmp k (l.2.head hne).1 < 0 := by
      refine (ha.lt_iff k hk _ (hmem _ (List.head_mem hne))).mpr (hlt _ ?_)
      exact List.mem_flatMap.mpr ⟨l, List.mem_cons_self, List.head_mem hne⟩
    have hloop := ih (Nat.lt_of_succ_lt_succ hfuel) hrest (fun q hq => hnode q (List.mem_cons_of_mem _ hq))
      (hmem _ (List.getLast_mem hne)) hsorted.2.1 fun e he => hsorted.2.2 _ (List.getLast_mem hne) e he
    rw [Option.or_none] at hnext
    simp only [List.map_cons, List.head?_cons, isValidateLeafLinkLoop, hload, Bool.not_true, Bool.false_eq_true,
      if_false, hent, hfirst, hlast, hprev, hcmp, and_self, if_true, hnext]
    exact hloop

omit [Inhabited α] in
theorem Valid.isValidateLeafLink {m : Nat} {hdr : IndexFileHeader} {t : IndexTree α m} (ha : Agrees cmp S)
    (hr : hdr.Roomy) (h : Valid S s hdr s.node t) : s.isValidateLeafLink cmp = some true := by
  obtain ⟨c, p, es, s', ht, hleft, hmost, -⟩ :=
    leftMostPage_spec h.view rfl h.holds h.sized hr.wide h.nodup
  have hleaves : t.leaves = (p, es) :: c.leavesRight := by
    rw [ht, Path.leaves_plug, hleft]
    rfl
  have hcs := h.leafChain hr.wide
  have hlen : t.pages.length ≤ s.pool.pagesNum := h.view.length_le h.nodup
  have hsub : t.leaves.length ≤ t.pages.length := by
    simpa using (Tree.leaves_sublist t).length_le
  have hsorted := h.sorted.entries
  have hkeys : ∀ l ∈ t.leaves, ∀ e ∈ l.2, e.1 ∈ S := fun l hl e he =>
    h.entry_mem (List.mem_flatMap.mpr ⟨l, hl, he⟩)
  have hfit : c.leavesRight.length < s.fuel := by
    rw [hleaves, List.length_cons] at hsub
    simp only [fuel]
    omega
  rw [Tree.entries, hleaves, List.flatMap_cons, List.pairwise_append] at hsorted
  rw [hleaves] at hcs hkeys
  obtain ⟨hprev, hnext, hrest⟩ := Chain.linked_cons.mp hcs.linked
  obtain ⟨-, hent⟩ := hcs.node _ List.mem_cons_self
  have hne : es ≠ [] := hcs.nonempty _ List.mem_cons_self
  have hmem := List.getLast_mem hne
  have hloop := isValidateLeafLinkLoop_of_linked ha hfit hrest
    (fun l hl => ⟨(hcs.node l (List.mem_cons_of_mem _ hl)).2, hcs.nonempty l (List.mem_cons_of_mem _ hl),
      decide_eq_true (h.view.sound.lt (by simp [hcs.keep l (List.mem_cons_of_mem _ hl)])),
      hkeys l (List.mem_cons_of_mem _ hl)⟩)
    (hkeys _ List.mem_cons_self _ hmem) hsorted.2.1 fun e he => hsorted.2.2 _ hmem e he
  have hroot : s.isEmpty = false := by simp [isEmpty, h.view.fileHeader]
  simp only [BplusTreeHandler.isValidateLeafLink, hroot, Bool.false_eq_true, if_false, hmost, hprev, hent,
    List.getLast?_eq_some_getLast hne, ne_eq, not_true_eq_false, or_self, hnext, Option.or_none]
  exact hloop

theorem Valid.isValidateTree {m : Nat} {hdr : IndexFileHeader} {nd : PageId → IndexNode α} {t : IndexTree α m}
    (ha : Agrees cmp S) (hr : hdr.Roomy) (h : Valid S s hdr nd t) : s.isValidateTree cmp stray = some true := by
  obtain rfl : s.node = nd := h.view.node
  have hroot : s.fileHeader.rootPageId = some t.page := by rw [h.view.fileHeader]
  have hloads : ∀ p ∈ t.pages, s.loads p = true := fun p hp => decide_eq_true (h.view.sound.lt (by simp [hp]))
  have hlen : t.pages.length ≤ s.pool.pagesNum := h.view.length_le h.nodup
  have hheight : m < s.fuel := by
    have hlt := Tree.height_lt_pages hr.wide h.sized
    simp only [fuel]
    omega
  have hseat : Seated S s none t := fun q hq => by cases hq
  have hnodes := isValidateNodeRecursive_of_holds ha stray hr.wide (le_trans (by decide) hr.internal)
    h.holds h.sized h.sorted h.keys h.nodup hloads hseat hheight
  simp only [BplusTreeHandler.isValidateTree, hroot, hloads _ t.page_mem_pages, Bool.not_true, Bool.false_eq_true,
    if_false, hnodes]
  exact h.isValidateLeafLink ha hr

end Accepts

section Runs

variable {α : Type} [DecidableEq α] [Inhabited α] {A : Set α} {R : Set RecordId} {s : BplusTreeHandler α}
  {K : Finset (Key α)} {attrComparator : α → α → Int} {ridCompare : RecordId → RecordId → Int}
  {fixUserKey : α → Nat → Bool → α × Bool} {internalMaxSize leafMaxSize : Nat}

/-- The program's own check of an index accepts it after any run of requests, whatever the places hold that the
check reads past the keys of a node. -/
theorem isValidateTree_served (hcmp : StrictTotalOn (keyComparator attrComparator ridCompare) (keysOver A R))
    (hmin : RecordId.min ∈ R) (hmax : RecordId.max ∈ R) (hleaf : 4 ≤ leafMaxSize) (hinternal : 6 ≤ internalMaxSize)
    (h : Served attrComparator ridCompare fixUserKey A R internalMaxSize leafMaxSize s K)
    (stray : PageId → Int → Key α) :
    s.isValidateTree (keyComparator attrComparator ridCompare) stray = some true := by
  obtain ⟨order, ha⟩ := exists_linearOrder hcmp
  have hA := attr_strictTotal hcmp hmin
  obtain ⟨hdr, hr, -, hrep⟩ := h.represents ha hA hmin hmax hleaf hinternal
  rcases hrep with ⟨-, nd, hview⟩ | ⟨-, m, t, nd, hval, -⟩
  · have hroot : s.fileHeader.rootPageId = none := by rw [hview.fileHeader]
    simp [isValidateTree, hroot]
  · exact hval.isValidateTree ha hr

end Runs

theorem isValidateTree_served_inserted : ∃ s : BplusTreeHandler Int,
    create .ints 6 4 PagePool.newFile = .ok s ∧
    (s.request (fun v1 v2 => v1 - v2) numberRidCompare (fun v _ _ => (v, false)) 2
      (.insertEntry 7 ⟨1, 0⟩)).2.2.isValidateTree numberComparator (fun _ _ => default) = some true := by
  obtain ⟨s, hs, -⟩ := create_isEmptyTree (α := Int) .ints 6 4
  exact ⟨s, hs, isValidateTree_served numberComparator_over trivial trivial (by decide) (by decide)
    (served_inserted hs) fun _ _ => default⟩

end BplusTreeHandler

end Idmbs
