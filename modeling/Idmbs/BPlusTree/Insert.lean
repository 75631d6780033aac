import Idmbs.BPlusTree.InsertParent

/-!
# Idmbs.BPlusTree.Insert

Insertion keeps an index file well formed and adds one entry, or finds the key and changes nothing.
-/

namespace Idmbs

open SearchTree SearchTree.Mark Comparator

namespace BplusTreeHandler

section Insert

variable {α : Type} [LinearOrder (Key α)] {cmp : Key α → Key α → Int}
  {S : Set (Key α)} {s : BplusTreeHandler α} {hdr : IndexFileHeader} {st : Option PageId}
  {nd : PageId → IndexNode α} {m : Nat} {x : Key α} {v : RecordId}

/-! ## The leaf has room -/

theorem Valid.leaf_insert {c : IndexPath α m 0} {p : PageId} {A B : List (Key α × RecordId)}
    (h : Valid S s hdr nd (c.plug (.leaf p (A ++ B)))) (hx : x ∈ S) (hc : c.Around x)
    (hA : ∀ e ∈ A, e.1 < x) (hB : ∀ e ∈ B, x < e.1) :
    (c.left ++ ((A ++ (x, v) :: B).map fun e => ent e.1) ++ c.right).Pairwise (· < ·) ∧
      ∀ k ∈ c.left ++ ((A ++ (x, v) :: B).map fun e => ent e.1) ++ c.right, k.key ∈ S := by
  have hs := Path.sorted_plug.mp h.sorted
  have hk : ∀ k ∈ c.left ++ (Tree.leaf p (A ++ B)).marks ++ c.right, k.key ∈ S := fun k hk =>
    h.keys _ (Tree.key_mem_keys (by rwa [Path.marks_plug]))
  simp only [Tree.marks_leaf, List.map_append, List.append_assoc, List.map_cons] at hs hk ⊢
  rw [← List.append_assoc] at hs hk ⊢
  constructor
  · refine Path.pairwise_insert hs ?_ ?_
    · intro a ha
      rcases List.mem_append.mp ha with ha | ha
      · exact hc.left a ha
      · obtain ⟨e, he, rfl⟩ := List.mem_map.mp ha
        exact ent_lt_ent.mpr (hA e he)
    · intro b hb
      rcases List.mem_append.mp hb with hb | hb
      · obtain ⟨e, he, rfl⟩ := List.mem_map.mp hb
        exact ent_lt_ent.mpr (hB e he)
      · exact hc.right b hb
  · intro k hkm
    rcases List.mem_append.mp hkm with hkm | hkm
    · exact hk k (List.mem_append_left _ hkm)
    · rcases List.mem_cons.mp hkm with rfl | hkm
      · exact hx
      · exact hk k (List.mem_append_right _ hkm)

omit [LinearOrder (Key α)] in
theorem leafInsert_append {n : IndexNode α} {A B : List (Key α × RecordId)}
    (hn : n.entries = A ++ B) :
    n.leafInsert A.length x v = { n with entries := A ++ (x, v) :: B } := by
  rw [IndexNode.leafInsert, hn, List.take_left, List.drop_left]

variable [Inhabited α]

theorem insertEntryIntoLeafNode_fits {c : IndexPath α m 0} {p : PageId}
    {A B : List (Key α × RecordId)} (h : Valid S s hdr nd (c.plug (.leaf p (A ++ B))))
    (hx : x ∈ S) (hc : c.Around x) (hA : ∀ e ∈ A, e.1 < x) (hB : ∀ e ∈ B, x < e.1)
    (hlook : (nd p).leafLookUp cmp x = (A.length, false))
    (hfit : (A ++ B).length < hdr.leafMaxSize) :
    ∃ s' nd', insertEntryIntoLeafNode cmp p x v s = (.success, s') ∧
      Valid S s' hdr nd' (c.plug (.leaf p (A ++ (x, v) :: B))) ∧
      Balanced s [p] (c.plug (.leaf p (A ++ B))).pages s' := by
  have hleaf := ((holds_plug _ _).mp h.holds).2
  obtain ⟨h1, h2, h3⟩ := holds_leaf.mp hleaf
  have hp : p ∈ (c.plug (.leaf p (A ++ B))).pages := (c.pages_plug _).mem_iff.mpr (by simp)
  have hv := h.view
  have hsz := (c.sized_plug _ _).mp h.sized
  have hv1 := ((hv.modifyNode hp (IndexNode.leafInsert A.length x v)).dirtyMark (p := p)).unpinPage
    (p := p)
  obtain ⟨hs, hk⟩ := h.leaf_insert hx hc hA hB (v := v)
  have hloose := h.loose.set_leaf hv1 (by rw [Function.update_self, leafInsert_append h3])
    (fun r hr => Function.update_of_ne hr _ _) hs hk
  have hval := hloose.valid ((c.sized_plug _ _).mpr ⟨hsz.1, ?_, ?_, Tree.below_leaf _ _ _⟩)
  · refine ⟨_, _, ?_, hval, fun n hacc => ?_⟩
    · have hsize : (s.node p).size < s.maxSize .leaf := by
        rw [hv.node, IndexNode.size, h1, h3, maxSize, hv.fileHeader]
        simpa using hfit
      simp only [insertEntryIntoLeafNode, hv.node, hlook, Bool.false_eq_true, if_false]
      rw [← hv.node, if_pos hsize]
    · refine ((hacc.modifyNode _).dirtyMark).unpinPage.settled hval.view hval.holds fun r hr => ?_
      simp only [inUse, List.mem_cons, (c.pages_plug _).mem_iff, Tree.pages_leaf] at hr ⊢
      exact hr
  · have := hsz.2.lo
    simp only [Tree.size_leaf, List.length_append, List.length_cons] at this ⊢
    omega
  · simp only [Tree.size_leaf, List.length_append, List.length_cons, Tree.Bounds.hi,
      IndexFileHeader.bounds] at hfit ⊢
    omega

/-! ## The leaf is split -/

omit [Inhabited α] in
theorem Valid.next_mem {c : IndexPath α m 0} {p : PageId} {es : List (Key α × RecordId)}
    (h : Valid S s hdr nd (c.plug (.leaf p es))) :
    ∀ y ∈ (nd p).nextBrother, y ∈ (c.plug (.leaf p es)).pages ∧ y ≠ p := by
  intro y hy
  have hl := h.linked
  have hnl := h.nodup.sublist (Tree.leaves_sublist _)
  have hsub := (Tree.leaves_sublist (c.plug (.leaf p es))).subset
  simp only [Path.leaves_plug, Tree.leaves_leaf, List.map_append, List.map_cons,
    List.append_assoc, List.cons_append, List.nil_append] at hl hnl hsub
  have hnext : (nd p).nextBrother = _ := (Chain.linked_append.mp hl).2.2.1
  rw [hnext, Option.or_none] at hy
  have hym := List.mem_of_mem_head? hy
  refine ⟨hsub (by simp [hym]), fun e => ?_⟩
  exact (List.nodup_cons.mp (List.nodup_append.mp hnl).2.1).1 (e ▸ hym)

omit [Inhabited α] in
/-- The pages after a full leaf `p` has been split into `L` and `R`, the latter on page `q`, and the
chain of leaves has been mended. -/
theorem Valid.split_leaf {c : IndexPath α m 0} {p q : PageId} {es L R : List (Key α × RecordId)}
    {s' : BplusTreeHandler α} {nd' : PageId → IndexNode α} {e l : Key α × RecordId}
    (h : Valid S s hdr nd (c.plug (.leaf p es)))
    (hq : q ∉ (c.plug (.leaf p es)).pages)
    (hv : View s' (q :: (c.plug (.leaf p es)).pages)
      { hdr with rootPageId := some (c.plug (.leaf p es)).page } (some (c.plug (.leaf p es)).page) nd')
    (hp : nd' p = { nd p with entries := L ++ [l], nextBrother := some q })
    (hn : ∃ par, nd' q = ⟨true, par, some p, (nd p).nextBrother, e :: R, []⟩)
    (hrest : ∀ r, r ≠ p → r ≠ q → nd' r = relink nd q (nd p).nextBrother r)
    (hlo : hdr.leafMaxSize / 2 ≤ L.length + 1 ∧ hdr.leafMaxSize / 2 ≤ R.length + 1)
    (hhi : L.length + 1 ≤ hdr.leafMaxSize ∧ R.length + 1 ≤ hdr.leafMaxSize)
    (hs : (c.left ++ ((L ++ l :: e :: R).map fun e => ent e.1) ++ c.right).Pairwise (· < ·))
    (hk : ∀ k ∈ c.left ++ ((L ++ l :: e :: R).map fun e => ent e.1) ++ c.right, k.key ∈ S) :
    SplitOff S s' { hdr with rootPageId := some (c.plug (.leaf p es)).page } nd' c
      (.leaf p (L ++ [l])) e.1 (.leaf q (e :: R)) ∧
    Chain.Linked (fun p => (nd' p).prevBrother) (fun p => (nd' p).nextBrother) none
      ((c.leavesLeft.map Prod.fst) ++ p :: q :: c.leavesRight.map Prod.fst) none := by
  obtain ⟨hpath, ⟨h1, h2, h3⟩⟩ := (holds_plug _ _).mp h.holds
  have hpages := c.pages_plug (.leaf p es)
  have hnd := hpages.nodup_iff.mp h.nodup
  have hqn : q ∉ c.pages ++ [p] := fun hm => hq (hpages.mem_iff.mpr hm)
  have hpq : p ≠ q := fun e => hqn (by simp [e])
  have hcp : ∀ r ∈ c.pages, r ≠ p ∧ r ≠ q := fun r hr =>
    ⟨fun e => (List.nodup_append.mp hnd).2.2 r hr p (by simp) e, fun e => hqn (by simp [← e, hr])⟩
  have hz := (c.sized_plug _ _).mp h.sized
  constructor
  · refine ⟨hv.mono ?_, congrArg some (c.page_plug rfl), ?_, ?_, ?_, ?_, ?_, Tree.firstKey_leaf _ _ _,
      Tree.firstKey_leaf _ _ _, hz.1, ?_, ?_, ?_, ?_⟩
    · intro r hr
      simp only [Tree.pages_leaf, List.mem_append, List.mem_singleton] at hr
      have := hpages.mem_iff (a := r)
      simp only [Tree.pages_leaf, List.mem_append, List.mem_singleton] at this
      rw [List.mem_cons, this]
      tauto
    · refine List.nodup_append.mpr ⟨hnd, by simp, fun r hr r' hr' e => hqn ?_⟩
      simp only [Tree.pages_leaf, List.mem_singleton] at hr'
      exact hr' ▸ e ▸ hr
    · exact hpath.congr fun r hr => by
        rw [hrest r (hcp r hr).1 (hcp r hr).2]; exact relink_same _ _ _
    · refine holds_leaf.mpr ?_
      rw [hp]; exact ⟨h1, h2, rfl⟩
    · obtain ⟨par, hn⟩ := hn
      refine ⟨par, holds_leaf.mpr ?_⟩
      rw [hn]; exact ⟨rfl, rfl, rfl⟩
    · exact ((c.firstKey_plug _).mp h.firstKey).1
    · refine ⟨?_, ?_, Tree.below_leaf _ _ _⟩ <;> rw [Tree.size_leaf, List.length_append]
      · exact hlo.1
      · exact hhi.1
    · exact ⟨hlo.2, hhi.2, Tree.below_leaf _ _ _⟩
    · have := Path.pairwise_sep (A := c.left ++ L.map fun e => ent e.1)
        (B := (R.map fun e => ent e.1) ++ c.right) (l := l.1) (k := e.1) (by simpa using hs)
      simpa using this
    · intro k hkm
      simp only [Tree.marks_leaf, List.map_append, List.map_cons, List.map_nil, List.mem_append,
        List.mem_cons, List.not_mem_nil, or_false] at hkm hk
      by_cases he : k = sep e.1
      · exact he ▸ hk (ent e.1) (by simp)
      · exact hk k (by tauto)
  · have hl := h.linked
    have hnl := h.nodup.sublist (Tree.leaves_sublist _)
    have hql : ∀ r ∈ (c.plug (.leaf p es)).leaves.map Prod.fst, r ≠ q := fun r hr e =>
      hq (e ▸ (Tree.leaves_sublist _).subset hr)
    simp only [Path.leaves_plug, Tree.leaves_leaf, List.map_append, List.map_cons,
      List.append_assoc, List.cons_append, List.nil_append] at hl hnl hql
    generalize c.leavesLeft.map Prod.fst = xs at *
    generalize c.leavesRight.map Prod.fst = ys at *
    have hnext : (nd p).nextBrother = ys.head? := by
      have := (Chain.linked_append.mp hl).2.2.1
      simpa using this
    obtain ⟨-, hn2, hdis⟩ := List.nodup_append.mp hnl
    obtain ⟨hpy, hn3⟩ := List.nodup_cons.mp hn2
    have hkeep : ∀ r ∈ xs ++ p :: ys, r ≠ p → r ∉ ys.head? → nd' r = nd r := by
      intro r hr h1 h2
      rw [hrest r h1 (hql r hr), hnext]
      cases ys with
      | nil => rfl
      | cons y ys =>
        refine Function.update_of_ne (fun e => h2 ?_) _ _
        simp [e]
    refine hl.insert ⟨by rw [hp], by rw [hp]⟩ ?_ ?_ ?_ ?_
    · obtain ⟨par, hn⟩ := hn
      rw [hn]; exact ⟨rfl, rfl⟩
    · intro y hy
      have hym : y ∈ ys := List.mem_of_mem_head? hy
      have hyp : y ≠ p := fun e => hpy (e ▸ hym)
      rw [hrest y hyp (hql y (by simp [hym])), hnext, hy]
      simp [relink]
    · intro r hr
      rw [hkeep r (by simp [hr]) (hdis r hr p (by simp)) fun hh =>
        hdis r hr r (List.mem_cons_of_mem _ (List.mem_of_mem_head? hh)) rfl]
      exact ⟨rfl, rfl⟩
    · intro r hr
      have hry : r ∈ ys := List.mem_of_mem_tail hr
      rw [hkeep r (by simp [hry]) (fun e => hpy (e ▸ hry)) fun hh => ?_]
      · exact ⟨rfl, rfl⟩
      · cases ys with
        | nil => simp at hr
        | cons y ys =>
          simp only [List.head?_cons, Option.mem_some_iff] at hh
          exact (List.nodup_cons.mp hn3).1 (hh ▸ hr)

/-- What `InsertEntryIntoLeafNode` does after a full leaf has been shared out between `p` and `q`. -/
theorem insertEntryIntoParent_leaf (ha : Agrees cmp S) (hr : hdr.Roomy) {c : IndexPath α m 0}
    {p q : PageId} {es A B : List (Key α × RecordId)} {s' : BplusTreeHandler α}
    {nd' : PageId → IndexNode α} (h : Valid S s hdr nd (c.plug (.leaf p es)))
    (hq : q ∉ (c.plug (.leaf p es)).pages)
    (hv : View s' (q :: (c.plug (.leaf p es)).pages)
      { hdr with rootPageId := some (c.plug (.leaf p es)).page } (some (c.plug (.leaf p es)).page) nd')
    (hp : nd' p = { nd p with entries := A, nextBrother := some q })
    (hn : ∃ par, nd' q = ⟨true, par, some p, (nd p).nextBrother, B, []⟩)
    (hrest : ∀ r, r ≠ p → r ≠ q → nd' r = relink nd q (nd p).nextBrother r)
    (hA : A ≠ []) (hB : B ≠ [])
    (hlo : hdr.leafMaxSize / 2 ≤ A.length ∧ hdr.leafMaxSize / 2 ≤ B.length)
    (hhi : A.length ≤ hdr.leafMaxSize ∧ B.length ≤ hdr.leafMaxSize)
    (hs : (c.left ++ ((A ++ B).map fun e => ent e.1) ++ c.right).Pairwise (· < ·))
    (hk : ∀ k ∈ c.left ++ ((A ++ B).map fun e => ent e.1) ++ c.right, k.key ∈ S) :
    (insertEntryIntoParent cmp s'.fuel p q ((s'.node q).itemKeyAt .leaf 0) s').2.pool.noBuf = true ∨
    ((insertEntryIntoParent cmp s'.fuel p q ((s'.node q).itemKeyAt .leaf 0) s').1 = .success ∧
      (∃ (m' : Nat) (t' : IndexTree α m') (nd'' : PageId → IndexNode α),
        Valid S (insertEntryIntoParent cmp s'.fuel p q ((s'.node q).itemKeyAt .leaf 0) s').2 hdr nd''
          t' ∧
        t'.entries = c.leavesLeft.flatMap Prod.snd ++ A ++ B ++ c.leavesRight.flatMap Prod.snd) ∧
      Balanced s' [p, q] (q :: (c.plug (.leaf p es)).pages)
        (insertEntryIntoParent cmp s'.fuel p q ((s'.node q).itemKeyAt .leaf 0) s').2 ∧
      insertEntryIntoParentChecks cmp s'.fuel p q ((s'.node q).itemKeyAt .leaf 0) s') := by
  obtain ⟨L, l, rfl⟩ := List.eq_nil_or_concat A |>.resolve_left hA
  obtain ⟨e, R, rfl⟩ := List.exists_cons_of_ne_nil hB
  rw [List.concat_eq_append] at *
  obtain ⟨hso, hlinked⟩ := h.split_leaf hq hv hp hn hrest (by simpa using hlo) (by simpa using hhi)
    (by simpa using hs) (by simpa using hk)
  have hkey : (s'.node q).itemKeyAt .leaf 0 = e.1 := by
    obtain ⟨par, hn⟩ := hn
    rw [hv.node, hn]
    rfl
  have hfuel : c.depth < s'.fuel := by
    have h1 := hso.view.length_le hso.nodup
    have h2 := c.depth_le_pages
    simp only [List.length_append] at h1
    simp only [fuel]
    omega
  rw [hkey]
  have hspec := insertEntryIntoParent_spec ha (by exact hr.internal) hfuel hso
  simp only [Tree.page_leaf] at hspec
  refine hspec.imp_right ?_
  rintro ⟨hsucc, ⟨m', t', nd'', hst, hleaves, hmarks, hlinks⟩, hbalanced, hchecks⟩
  refine ⟨hsucc, ⟨m', t', nd'', ?_, ?_⟩, hbalanced.of_subset fun r hr => ?_, hchecks⟩
  · refine ⟨⟨hst.view, hst.nodup, hst.holds, hst.firstKey, hst.sized⟩, ?_, ?_, ?_⟩
    · rw [Tree.Sorted, hmarks]; exact hso.sorted
    · intro k hkm
      obtain ⟨mk, hmk, rfl⟩ := List.mem_map.mp hkm
      exact hso.keys mk (hmarks ▸ hmk)
    · simp only [hleaves, Tree.leaves_leaf, List.map_append, List.map_cons, List.append_assoc,
        List.cons_append, List.nil_append]
      refine hlinked.congr fun r hr => hlinks r ?_
      have hm : r = q ∨ r ∈ (c.plug (.leaf p es)).leaves.map Prod.fst := by
        simp only [Path.leaves_plug, Tree.leaves_leaf, List.map_append, List.map_cons, List.map_nil,
          List.mem_append, List.mem_cons, List.not_mem_nil, or_false] at hr ⊢
        tauto
      rcases hm with rfl | hm
      · simp
      · have := (c.pages_plug _).mem_iff.mp ((Tree.leaves_sublist _).subset hm)
        simp only [Tree.pages_leaf, List.mem_append, List.mem_singleton] at this ⊢
        exact .inl this
  · simp [Tree.entries, hleaves]
  · rw [List.mem_cons, (c.pages_plug _).mem_iff] at hr
    simp only [Tree.pages_leaf, List.mem_append, List.mem_singleton] at hr ⊢
    tauto

/-- `Split` has moved the entries of the leaf `p` from `i` on to the new page `q`, which is linked between `p` and the
leaf behind it. -/
structure LeafMoved (s s' : BplusTreeHandler α) (hdr : IndexFileHeader) (nd nd' : PageId → IndexNode α)
    (root : PageId) (keep : List PageId) (p q : PageId) (es : List (Key α × RecordId)) (i : Nat) : Prop where
  view : View s' (q :: keep) { hdr with rootPageId := some root } (some root) nd'
  mem : p ∈ keep
  fresh : q ∉ keep
  kept : nd' p = { nd p with entries := es.take i, nextBrother := some q }
  moved : nd' q = ⟨true, (nd p).parent, some p, (nd p).nextBrother, es.drop i, []⟩
  others : ∀ r, r ≠ p → r ≠ q → nd' r = relink nd q (nd p).nextBrother r
  accounts : ∀ n, s.Accounts (headerPins n) [p] (inUse keep) →
    s'.Accounts (headerPins n) [p, q] (inUse (q :: keep))

namespace LeafMoved

variable {s' : BplusTreeHandler α} {nd' : PageId → IndexNode α} {root p q : PageId} {keep : List PageId}
  {es : List (Key α × RecordId)} {i : Nat}

omit [LinearOrder (Key α)] [Inhabited α] in
theorem ne (hm : LeafMoved s s' hdr nd nd' root keep p q es i) : p ≠ q := fun he => hm.fresh (he ▸ hm.mem)

omit [LinearOrder (Key α)] [Inhabited α] in
theorem sizes (hm : LeafMoved s s' hdr nd nd' root keep p q es i) (hleaf : (nd p).isLeaf = true) :
    (s'.node p).size = (es.take i).length ∧ (s'.node q).size = (es.drop i).length ∧
      s'.maxSize .leaf = hdr.leafMaxSize := by
  refine ⟨?_, ?_, ?_⟩
  · rw [hm.view.node, hm.kept, IndexNode.size]
    simp only [hleaf, if_true]
  · rw [hm.view.node, hm.moved, IndexNode.size]
    simp only [if_true]
  · rw [maxSize, hm.view.fileHeader]

/-- The entry goes to the old leaf. -/
theorem old (ha : Agrees cmp S) (hr : hdr.Roomy) {c : IndexPath α m 0} {A B : List (Key α × RecordId)}
    (h : Valid S s hdr nd (c.plug (.leaf p (A ++ B)))) (hx : x ∈ S) (hc : c.Around x) (hA : ∀ e ∈ A, e.1 < x)
    (hB : ∀ e ∈ B, x < e.1) (hmax : A.length + B.length = hdr.leafMaxSize)
    (hm : LeafMoved s s' hdr nd nd' (c.plug (.leaf p (A ++ B))).page (c.plug (.leaf p (A ++ B))).pages p q
      (A ++ B) i)
    (hhalf : hdr.leafMaxSize / 2 = i) (hside : A.length < i) {t : BplusTreeHandler α}
    (ht : t = s'.modifyNode p (IndexNode.leafInsert A.length x v)) :
    (insertEntryIntoParent cmp t.fuel p q ((t.node q).itemKeyAt .leaf 0) t).2.pool.noBuf = true ∨
    ((insertEntryIntoParent cmp t.fuel p q ((t.node q).itemKeyAt .leaf 0) t).1 = .success ∧
      (∃ (m' : Nat) (t' : IndexTree α m') (nd'' : PageId → IndexNode α),
        Valid S (insertEntryIntoParent cmp t.fuel p q ((t.node q).itemKeyAt .leaf 0) t).2 hdr nd'' t' ∧
        t'.entries = c.leavesLeft.flatMap Prod.snd ++ A ++ (x, v) :: B ++ c.leavesRight.flatMap Prod.snd) ∧
      Balanced s [p] (c.plug (.leaf p (A ++ B))).pages
        (insertEntryIntoParent cmp t.fuel p q ((t.node q).itemKeyAt .leaf 0) t).2 ∧
      (s'.node p).size < s'.maxSize .leaf ∧ 0 < (t.node q).size ∧
      insertEntryIntoParentChecks cmp t.fuel p q ((t.node q).itemKeyAt .leaf 0) t) := by
  obtain ⟨h1, -, -⟩ := holds_leaf.mp ((holds_plug _ _).mp h.holds).2
  obtain ⟨hps, hqs, hmax'⟩ := hm.sizes h1
  have hleaf := hr.leaf
  obtain ⟨hs, hk⟩ := h.leaf_insert hx hc hA hB (v := v)
  have htake : (A ++ B).take i = A ++ B.take (i - A.length) := by
    rw [List.take_append, List.take_of_length_le (le_of_lt hside)]
  have hdrop : (A ++ B).drop i = B.drop (i - A.length) := by
    rw [List.drop_append, List.drop_of_length_le (le_of_lt hside), List.nil_append]
  have hv := hm.view.modifyNode (List.mem_cons_of_mem _ hm.mem) (IndexNode.leafInsert A.length x v)
  have hqt : (t.node q).size = (s'.node q).size := by
    rw [ht, hv.node, Function.update_of_ne hm.ne.symm, hm.view.node]
  rw [← ht, hm.kept, leafInsert_append (n := { nd p with
    entries := (A ++ B).take i, nextBrother := some q }) htake] at hv
  have hlinked := insertEntryIntoParent_leaf (A := A ++ (x, v) :: B.take (i - A.length))
    (B := B.drop (i - A.length)) ha hr h hm.fresh hv (by simp)
    ⟨_, by rw [Function.update_of_ne hm.ne.symm, hm.moved, hdrop]⟩
    (fun r h1 h2 => by rw [Function.update_of_ne h1, hm.others r h1 h2]) (by simp)
    (by rw [ne_eq, List.drop_eq_nil_iff]; omega) (by simp; omega) (by simp; omega)
    (by simpa using hs) (by simpa using hk)
  refine hlinked.imp_right ?_
  rintro ⟨hsucc, htree, hbalanced, hchecks⟩
  refine ⟨hsucc, by simpa using htree, fun n hacc => hbalanced n ?_, ?_, ?_, hchecks⟩
  · rw [ht]
    exact (hm.accounts n hacc).modifyNode _
  · rw [hps, hmax', List.length_take]
    omega
  · rw [hqt, hqs, List.length_drop, List.length_append]
    omega

/-- The entry goes to the new leaf. -/
theorem new (ha : Agrees cmp S) (hr : hdr.Roomy) {c : IndexPath α m 0} {A B : List (Key α × RecordId)}
    (h : Valid S s hdr nd (c.plug (.leaf p (A ++ B)))) (hx : x ∈ S) (hc : c.Around x) (hA : ∀ e ∈ A, e.1 < x)
    (hB : ∀ e ∈ B, x < e.1) (hmax : A.length + B.length = hdr.leafMaxSize)
    (hm : LeafMoved s s' hdr nd nd' (c.plug (.leaf p (A ++ B))).page (c.plug (.leaf p (A ++ B))).pages p q
      (A ++ B) i)
    (hhalf : hdr.leafMaxSize / 2 = i) (hside : i ≤ A.length) {t : BplusTreeHandler α}
    (ht : t = s'.modifyNode q (IndexNode.leafInsert (A.length - i) x v)) :
    (insertEntryIntoParent cmp t.fuel p q ((t.node q).itemKeyAt .leaf 0) t).2.pool.noBuf = true ∨
    ((insertEntryIntoParent cmp t.fuel p q ((t.node q).itemKeyAt .leaf 0) t).1 = .success ∧
      (∃ (m' : Nat) (t' : IndexTree α m') (nd'' : PageId → IndexNode α),
        Valid S (insertEntryIntoParent cmp t.fuel p q ((t.node q).itemKeyAt .leaf 0) t).2 hdr nd'' t' ∧
        t'.entries = c.leavesLeft.flatMap Prod.snd ++ A ++ (x, v) :: B ++ c.leavesRight.flatMap Prod.snd) ∧
      Balanced s [p] (c.plug (.leaf p (A ++ B))).pages
        (insertEntryIntoParent cmp t.fuel p q ((t.node q).itemKeyAt .leaf 0) t).2 ∧
      (s'.node q).size < s'.maxSize .leaf ∧ 0 < (t.node q).size ∧
      insertEntryIntoParentChecks cmp t.fuel p q ((t.node q).itemKeyAt .leaf 0) t) := by
  obtain ⟨h1, -, -⟩ := holds_leaf.mp ((holds_plug _ _).mp h.holds).2
  obtain ⟨-, hqs, hmax'⟩ := hm.sizes h1
  have hleaf := hr.leaf
  obtain ⟨hs, hk⟩ := h.leaf_insert hx hc hA hB (v := v)
  have htake : (A ++ B).take i = A.take i := List.take_append_of_le_length hside
  have hdrop : (A ++ B).drop i = A.drop i ++ B := List.drop_append_of_le_length hside
  have hpos : A.length - i = (A.drop i).length := by simp
  have hv := hm.view.modifyNode List.mem_cons_self (IndexNode.leafInsert (A.length - i) x v)
  have hqt : 0 < (t.node q).size := by
    rw [ht, hv.node, Function.update_self, hm.moved]
    simp only [IndexNode.size, IndexNode.leafInsert, if_true, List.length_append, List.length_cons]
    omega
  rw [← ht, hm.moved, hpos, leafInsert_append (n := ⟨true, (nd p).parent, some p, (nd p).nextBrother,
    (A ++ B).drop i, []⟩) hdrop] at hv
  have hlinked := insertEntryIntoParent_leaf (A := A.take i) (B := A.drop i ++ (x, v) :: B) ha hr h hm.fresh hv
    (by rw [Function.update_of_ne hm.ne, hm.kept, htake]) ⟨_, by rw [Function.update_self]⟩
    (fun r h1 h2 => by rw [Function.update_of_ne h2, hm.others r h1 h2])
    (by rw [ne_eq, List.take_eq_nil_iff, not_or, ← List.length_eq_zero_iff]; omega) (by simp)
    (by simp; omega) (by simp; omega)
    (by simpa [← List.append_assoc, ← List.map_append] using hs)
    (by simpa [← List.append_assoc, ← List.map_append] using hk)
  have hcut : c.leavesLeft.flatMap Prod.snd ++ A.take i ++ (A.drop i ++ (x, v) :: B) =
      c.leavesLeft.flatMap Prod.snd ++ A ++ (x, v) :: B := by
    rw [List.append_assoc, ← List.append_assoc (A.take i), List.take_append_drop,
      ← List.append_assoc]
  rw [hcut] at hlinked
  refine hlinked.imp_right ?_
  rintro ⟨hsucc, htree, hbalanced, hchecks⟩
  refine ⟨hsucc, htree, fun n hacc => hbalanced n ?_, ?_, hqt, hchecks⟩
  · rw [ht]
    exact (hm.accounts n hacc).modifyNode _
  · rw [hqs, hmax', List.length_drop, List.length_append]
    omega

end LeafMoved

/-- `InsertEntryIntoLeafNode` on a full leaf: either some page cannot be allocated, or the tree
takes the entry. -/
theorem insertEntryIntoLeafNode_split (ha : Agrees cmp S) (hr : hdr.Roomy) {c : IndexPath α m 0}
    {p : PageId} {A B : List (Key α × RecordId)} (h : Valid S s hdr nd (c.plug (.leaf p (A ++ B))))
    (hx : x ∈ S) (hc : c.Around x) (hA : ∀ e ∈ A, e.1 < x) (hB : ∀ e ∈ B, x < e.1)
    (hlook : (nd p).leafLookUp cmp x = (A.length, false))
    (hfull : hdr.leafMaxSize ≤ (A ++ B).length) :
    (insertEntryIntoLeafNode cmp p x v s).2.pool.noBuf = true ∨
    ((insertEntryIntoLeafNode cmp p x v s).1 = .success ∧
      (∃ (m' : Nat) (t' : IndexTree α m') (nd' : PageId → IndexNode α),
        Valid S (insertEntryIntoLeafNode cmp p x v s).2 hdr nd' t' ∧
        t'.entries = c.leavesLeft.flatMap Prod.snd ++ A ++ (x, v) :: B ++
          c.leavesRight.flatMap Prod.snd) ∧
      Balanced s [p] (c.plug (.leaf p (A ++ B))).pages (insertEntryIntoLeafNode cmp p x v s).2 ∧
      insertEntryIntoLeafNodeChecks cmp p x v s) := by
  have hv := h.view
  obtain ⟨h1, h2, h3⟩ := holds_leaf.mp ((holds_plug _ _).mp h.holds).2
  have hp : p ∈ (c.plug (.leaf p (A ++ B))).pages := (c.pages_plug _).mem_iff.mpr (by simp)
  have hmax : (A ++ B).length = hdr.leafMaxSize :=
    le_antisymm ((c.sized_plug _ _).mp h.sized).2.hi hfull
  have hsz : (nd p).size = hdr.leafMaxSize := by rw [IndexNode.size, h1, h3, hmax]; rfl
  have hsize : ¬(nd p).size < s.maxSize .leaf := by
    rw [hsz, maxSize, hv.fileHeader]; exact lt_irrefl _
  simp only [insertEntryIntoLeafNode, insertEntryIntoLeafNodeChecks, hv.node, hlook,
    Bool.false_eq_true, if_false, hsize]
  rcases hv.split_leaf hp with ⟨hne, hb⟩ | ⟨q, s1, hsplit, hq, hv1⟩
  · left
    rcases hsp : s.split .leaf p with ⟨r, q, s1⟩
    rw [hsp] at hne hb
    simp only at hne hb ⊢
    rw [if_pos hne]
    exact hb
  · rw [hsz, h3] at hv1
    simp only [hsplit, ne_eq, not_true_eq_false, if_false]
    have hpq : p ≠ q := fun e => hq (e ▸ hp)
    have hnext := h.next_mem
    generalize hg1 : Function.update (Function.update nd q _) p _ = nd1 at hv1
    generalize hi : hdr.leafMaxSize / 2 = i at hg1
    -- the links of the new leaf
    have hpk : p ∈ q :: (c.plug (.leaf p (A ++ B))).pages := List.mem_cons_of_mem _ hp
    have hqk : q ∈ q :: (c.plug (.leaf p (A ++ B))).pages := by simp
    have n1p : nd1 p = { nd p with entries := (A ++ B).take i } := by rw [← hg1]; simp
    have e1 : ((s1.setPrevPage q (some p)).node p).nextBrother = (nd p).nextBrother := by
      rw [show (s1.setPrevPage q (some p)).node = _ from (hv1.modifyNode hqk _).node,
        Function.update_of_ne hpq, n1p]
    have e2 : (((s1.setPrevPage q (some p)).setNextPage q (nd p).nextBrother).node p).parent =
        (nd p).parent := by
      rw [show ((s1.setPrevPage q (some p)).setNextPage q (nd p).nextBrother).node = _ from
        ((hv1.modifyNode hqk _).modifyNode hqk _).node, Function.update_of_ne hpq,
        Function.update_of_ne hpq, n1p]
    rw [e1, e2]
    have hv2 := (((hv1.modifyNode hqk fun n => { n with prevBrother := some p }).modifyNode hqk
      fun n => { n with nextBrother := (nd p).nextBrother }).modifyNode hqk
      fun n => { n with parent := (nd p).parent }).modifyNode hpk
      fun n => { n with nextBrother := some q }
    generalize hg2 : Function.update _ p _ = nd2 at hv2
    have n2p : nd2 p = { nd p with entries := (A ++ B).take i, nextBrother := some q } := by
      rw [← hg2]; simp [n1p, hpq]
    have n2q : nd2 q = ⟨true, (nd p).parent, some p, (nd p).nextBrother, (A ++ B).drop i, []⟩ := by
      rw [← hg2, ← hg1]; simp [hpq.symm]
    have n2r : ∀ r, r ≠ p → r ≠ q → nd2 r = nd r := by
      intro r h1 h2
      rw [← hg2, ← hg1]; simp [h1, h2]
    have e3 : (((((s1.setPrevPage q (some p)).setNextPage q (nd p).nextBrother).setParentPageId q
        (nd p).parent).setNextPage p (some q)).node q).nextBrother = (nd p).nextBrother := by
      rw [show (((((s1.setPrevPage q (some p)).setNextPage q (nd p).nextBrother).setParentPageId q
        (nd p).parent).setNextPage p (some q)).node) = _ from hv2.node, n2q]
    rw [e3]
    have hnk : ∀ y ∈ (nd p).nextBrother, y ∈ q :: (c.plug (.leaf p (A ++ B))).pages :=
      fun y hy => List.mem_cons_of_mem _ (hnext y hy).1
    obtain ⟨s3, hs3, hv3⟩ := hv2.relinkNext q _ hnk
    rw [show relinkNext q (nd p).nextBrother ((((s1.setPrevPage q (some p)).setNextPage q
      (nd p).nextBrother).setParentPageId q (nd p).parent).setNextPage p (some q)) = _ from hs3]
    simp only [not_true_eq_false, if_false]
    have hacc3 : ∀ n, s.Accounts (headerPins n) [p] (inUse (c.plug (.leaf p (A ++ B))).pages) →
        s3.Accounts (headerPins n) [p, q] (inUse (q :: (c.plug (.leaf p (A ++ B))).pages)) := by
      intro n hacc
      have h1 := (hacc.split (hv.fresh (List.forall_mem_singleton.mpr hp) n) hsplit).perm
        (List.Perm.swap _ _ _)
      have h2 := ((((h1.modifyNode (p := q) fun n => { n with prevBrother := some p }).modifyNode
        (p := q) fun n => { n with nextBrother := (nd p).nextBrother }).modifyNode (p := q)
        fun n => { n with parent := (nd p).parent }).modifyNode (p := p)
        fun n => { n with nextBrother := some q }).relinkNext q (nd p).nextBrother
      rw [show relinkNext q (nd p).nextBrother _ = _ from hs3] at h2
      refine h2.mono fun r hr => ?_
      simp only [inUse, List.mem_cons] at hr ⊢
      tauto
    have hpn : p ∉ (nd p).nextBrother := fun hm => (hnext p hm).2 rfl
    have hqn : q ∉ (nd p).nextBrother := fun hm => hq (hnext q hm).1
    have n3p : relink nd2 q (nd p).nextBrother p = nd2 p := relink_of_notMem hpn
    have n3q : relink nd2 q (nd p).nextBrother q = nd2 q := relink_of_notMem hqn
    have n3r : ∀ r, r ≠ p → r ≠ q →
        relink nd2 q (nd p).nextBrother r = relink nd q (nd p).nextBrother r :=
      fun r h1 h2 => relink_congr (n2r r h1 h2)
    have hmoved : LeafMoved s s3 hdr nd (relink nd2 q (nd p).nextBrother)
        (c.plug (.leaf p (A ++ B))).page (c.plug (.leaf p (A ++ B))).pages p q (A ++ B) i :=
      ⟨hv3, hp, hq, n3p.trans n2p, n3q.trans n2q, n3r, hacc3⟩
    have hlen : A.length + B.length = hdr.leafMaxSize := by simpa using hmax
    have e4 : (s3.node p).size = i := by
      rw [(hmoved.sizes h1).1, List.length_take, List.length_append]
      omega
    rw [e4]
    by_cases hside : A.length < i
    · simp only [if_pos hside]
      exact hmoved.old ha hr h hx hc hA hB hlen hi hside rfl
    · simp only [if_neg hside]
      exact hmoved.new ha hr h hx hc hA hB hlen hi (not_lt.mp hside) rfl

/-! ## `InsertEntry` -/

theorem insertEntryIntoLeafNode_spec (ha : Agrees cmp S) (hr : hdr.Roomy) {c : IndexPath α m 0}
    {p : PageId} {es : List (Key α × RecordId)} (h : Valid S s hdr nd (c.plug (.leaf p es)))
    (hx : x ∈ S) (hc : c.Around x) :
    ((∃ w, (x, w) ∈ es) ∧ insertEntryIntoLeafNode cmp p x v s = (.recordDuplicateKey, s) ∧
      insertEntryIntoLeafNodeChecks cmp p x v s) ∨
    ((∀ e ∈ es, e.1 ≠ x) ∧
      ((insertEntryIntoLeafNode cmp p x v s).2.pool.noBuf = true ∨
      ((insertEntryIntoLeafNode cmp p x v s).1 = .success ∧
        (∃ (m' : Nat) (t' : IndexTree α m') (nd' : PageId → IndexNode α) (A B : _),
          Valid S (insertEntryIntoLeafNode cmp p x v s).2 hdr nd' t' ∧ es = A ++ B ∧
          t'.entries = c.leavesLeft.flatMap Prod.snd ++ A ++ (x, v) :: B ++
            c.leavesRight.flatMap Prod.snd) ∧
        Balanced s [p] (c.plug (.leaf p es)).pages (insertEntryIntoLeafNode cmp p x v s).2 ∧
        insertEntryIntoLeafNodeChecks cmp p x v s))) := by
  obtain ⟨h1, h2, h3⟩ := holds_leaf.mp ((holds_plug _ _).mp h.holds).2
  have hsorted := Path.sorted_of_plug h.sorted
  obtain ⟨A, B, hes, hpos, hA, hfound⟩ := leafLookUp_spec (n := nd p) ha
    (fun e he => h.keys _ (Tree.key_mem_keys (m := ent e.1) (by
      rw [Path.marks_plug]
      simp only [List.mem_append]
      exact .inl (.inr (List.mem_map.mpr ⟨e, h3 ▸ he, rfl⟩))))) hx
    (by rw [h3, List.pairwise_map]; simpa [Tree.Sorted, List.pairwise_map] using hsorted)
  rw [h3] at hes
  subst hes
  rcases hfound with ⟨hf, hB⟩ | ⟨hf, w, B', rfl, -⟩
  · right
    have hlook : (nd p).leafLookUp cmp x = (A.length, false) := Prod.ext hpos hf
    refine ⟨?_, ?_⟩
    · intro e he
      rcases List.mem_append.mp he with he | he
      · exact ne_of_lt (hA e he)
      · exact ne_of_gt (hB e he)
    · by_cases hfit : (A ++ B).length < hdr.leafMaxSize
      · obtain ⟨s', nd', heq, hval, hbalanced⟩ :=
          insertEntryIntoLeafNode_fits (v := v) h hx hc hA hB hlook hfit
        have hchecks : insertEntryIntoLeafNodeChecks cmp p x v s := by
          have hsize : (nd p).size < s.maxSize .leaf := by
            rw [IndexNode.size, h1, h3, maxSize, h.view.fileHeader]
            exact hfit
          simp only [insertEntryIntoLeafNodeChecks, h.view.node, hlook, Bool.false_eq_true, if_false,
            hsize, if_true]
        refine .inr ⟨by rw [heq], ⟨m, _, nd', A, B, by rw [heq]; exact hval, rfl, ?_⟩,
          by rw [heq]; exact hbalanced, hchecks⟩
        simp [Tree.entries, Path.leaves_plug]
      · refine (insertEntryIntoLeafNode_split (v := v) ha hr h hx hc hA hB hlook (not_lt.mp hfit)).imp_right ?_
        rintro ⟨h1, ⟨m', t', nd', hval, hent⟩, hrest⟩
        exact ⟨h1, ⟨m', t', nd', A, B, hval, rfl, hent⟩, hrest⟩
  · refine .inl ⟨⟨w, by simp⟩, ?_⟩
    have hlook : (s.node p).leafLookUp cmp x = (A.length, true) := by
      rw [h.view.node]; exact Prod.ext hpos hf
    simp [insertEntryIntoLeafNode, insertEntryIntoLeafNodeChecks, hlook]

theorem insertEntry_valid (ha : Agrees cmp S) (hr : hdr.Roomy) {t : IndexTree α m}
    (h : Valid S s hdr nd t) {userKey : α} {rid : RecordId} (hx : (⟨userKey, rid⟩ : Key α) ∈ S) :
    ((∃ w, (⟨userKey, rid⟩, w) ∈ t.entries) ∧
      (s.insertEntry cmp userKey rid).1 = .recordDuplicateKey ∧
      Valid S (s.insertEntry cmp userKey rid).2 hdr nd t) ∨
    ((∀ e ∈ t.entries, e.1 ≠ ⟨userKey, rid⟩) ∧
      ((s.insertEntry cmp userKey rid).2.pool.noBuf = true ∨
      ((s.insertEntry cmp userKey rid).1 = .success ∧
        ∃ (m' : Nat) (t' : IndexTree α m') (nd' : PageId → IndexNode α) (A B : _),
          Valid S (s.insertEntry cmp userKey rid).2 hdr nd' t' ∧ t.entries = A ++ B ∧
          t'.entries = A ++ (⟨userKey, rid⟩, rid) :: B))) := by
  have hb : hdr.bounds.Wide := hr.wide
  obtain ⟨c, p, es, s1, rfl, hc, hfind, hv1⟩ := findLeaf_spec ha h.keys hx h.view rfl h.holds
    h.sorted h.sized hb h.nodup
  have h1 : Valid S s1 hdr nd (c.plug (.leaf p es)) := { h with view := hv1 }
  have hne : s.isEmpty = false := by simp [isEmpty, h.view.fileHeader]
  have hent : (c.plug (.leaf p es)).entries =
      c.leavesLeft.flatMap Prod.snd ++ es ++ c.leavesRight.flatMap Prod.snd := by
    simp [Tree.entries, Path.leaves_plug]
  simp only [insertEntry, hne, Bool.false_eq_true, if_false, hfind, ne_eq, not_true_eq_false]
  rcases insertEntryIntoLeafNode_spec (v := rid) ha hr h1 hx hc with ⟨⟨w, hw⟩, heq, -⟩ | ⟨hnot, hins⟩
  · refine .inl ⟨⟨w, by rw [hent]; simp [hw]⟩, ?_⟩
    rw [heq]
    exact ⟨rfl, { h with view := hv1.unpinPage (p := p) }⟩
  · refine .inr ⟨?_, ?_⟩
    · intro e he
      rw [hent] at he
      simp only [List.mem_append] at he
      rcases he with (he | he) | he
      · exact hc.not_mem (.inl he)
      · exact hnot e he
      · exact hc.not_mem (.inr he)
    · rcases hl : insertEntryIntoLeafNode cmp p ⟨userKey, rid⟩ rid s1 with ⟨r, s2⟩
      rw [hl] at hins
      rcases hins with hbuf | ⟨rfl, ⟨m', t', nd', A, B, hval, rfl, hent'⟩, -⟩
      · left
        simp only at hbuf ⊢
        split
        · simpa [unpinPage] using hbuf
        · exact hbuf
      · refine .inr ⟨by simp, m', t', nd', c.leavesLeft.flatMap Prod.snd ++ A,
          B ++ c.leavesRight.flatMap Prod.snd, by simpa using hval, ?_, ?_⟩
        · rw [hent]; simp
        · rw [hent']; simp

/-- Insertion into an empty index. -/
theorem insertEntry_empty (cmp : Key α → Key α → Int) (hr : hdr.Roomy) (hroot : hdr.rootPageId = none)
    (hv : View s [] hdr st nd) {userKey : α} {rid : RecordId} (hx : (⟨userKey, rid⟩ : Key α) ∈ S) :
    (s.insertEntry cmp userKey rid).2.pool.noBuf = true ∨
    ((s.insertEntry cmp userKey rid).1 = .success ∧
      ∃ (t : IndexTree α 0) (nd' : PageId → IndexNode α),
        Valid S (s.insertEntry cmp userKey rid).2 hdr nd' t ∧
        t.entries = [(⟨userKey, rid⟩, rid)]) := by
  have he : s.isEmpty = true := by simp [isEmpty, hv.fileHeader, hroot]
  simp only [insertEntry, createNewTree, he, if_true, Bool.not_true, Bool.false_eq_true, if_false]
  rcases ha : s.allocatePage with ⟨r, q, s1⟩
  have hal := hv.allocatePage
  simp only [ha] at hal ⊢
  rcases hal with ⟨hne, hb⟩ | ⟨rfl, -, n, hv1⟩
  · left; simpa only [ne_eq, hne, not_false_eq_true, if_true] using hb
  · right
    simp only [ne_eq, not_true_eq_false, if_false, true_and]
    have hv2 := ((((hv1.modifyNode (p := q) (by simp) fun n =>
      (n.initEmpty .leaf).leafInsert 0 ⟨userKey, rid⟩ rid).setRoot (some q)).dirtyMark
      (p := q)).unpinPage (p := q)).updateRootPageId
    refine ⟨.leaf q [(⟨userKey, rid⟩, rid)], _, ⟨⟨hv2, by simp, ?_, Tree.firstKey_leaf _ _ _, ?_⟩,
      ?_, ?_, ?_⟩, Tree.entries_leaf _ _⟩
    · refine holds_leaf.mpr ?_
      rw [Function.update_self]
      exact ⟨rfl, rfl, rfl⟩
    · exact ⟨le_refl 1, le_trans (show 1 ≤ 4 by decide) hr.leaf, Tree.below_leaf _ _ _⟩
    · simp [Tree.Sorted]
    · simpa [Tree.keys] using hx
    · simp [IndexNode.leafInsert, IndexNode.initEmpty]

end Insert

/-! ## An index on numbers -/

/-- Record ids in the order meant: by page, then by slot. -/
def numberRidCompare (r1 r2 : RecordId) : Int :=
  if r1.pageId = r2.pageId then r1.slotId - r2.slotId else r1.pageId - r2.pageId

/-- Keys of an index on numbers, in the order meant: by attribute, then by record id. -/
def numberComparator : Key Int → Key Int → Int :=
  keyComparator (fun v1 v2 => v1 - v2) numberRidCompare

theorem numberComparator_strictTotal : StrictTotalOn numberComparator Set.univ := by
  refine ⟨?_, ?_, ?_⟩
  · rintro ⟨a, ap, as⟩ - ⟨b, bp, bs⟩ -
    simp only [numberComparator, numberRidCompare, keyComparator, Key.mk.injEq, RecordId.mk.injEq]
    split_ifs <;> omega
  · rintro ⟨a, ap, as⟩ - ⟨b, bp, bs⟩ -
    simp only [numberComparator, numberRidCompare, keyComparator]
    split_ifs <;> omega
  · rintro ⟨a, ap, as⟩ - ⟨b, bp, bs⟩ - ⟨c, cp, cs⟩ -
    simp only [numberComparator, numberRidCompare, keyComparator]
    split_ifs <;> omega

def emptyIndex (internalMaxSize leafMaxSize : Nat) : BplusTreeHandler Int :=
  match create .ints internalMaxSize leafMaxSize PagePool.newFile with
  | .ok s => s
  | .error _ => ⟨default, PagePool.newFile⟩

/-- The index behind `n` insertions of ascending keys. -/
def grown : Nat → BplusTreeHandler Int
  | 0 => emptyIndex 6 4
  | n + 1 => ((grown n).insertEntry numberComparator n ⟨1, n⟩).2

def numberEntry (n : Nat) : Key Int × RecordId := (⟨n, ⟨1, n⟩⟩, ⟨1, n⟩)

/-- As long as the file has room, the index holds the keys in their order. -/
theorem grown_wellFormed : ∀ n, (∀ k ≤ n, (grown (k + 1)).pool.noBuf = false) →
    (grown (n + 1)).pool.faults = [] ∧ (grown (n + 1)).fileHeader.bounds = ⟨4, 6⟩ ∧
      ∃ (m : Nat) (t : IndexTree Int m), WellFormed numberComparator (grown (n + 1)) t ∧
        t.entries = (List.range (n + 1)).map numberEntry := by
  obtain ⟨order, ha⟩ := exists_linearOrder numberComparator_strictTotal
  intro n
  induction n with
  | zero =>
    intro hroom
    obtain ⟨s, hs, he, hh, hf⟩ := create_isEmptyTree (α := Int) .ints 6 4
    have hnew : emptyIndex 6 4 = s := by
      rw [emptyIndex, hs]
    have hroom : (s.insertEntry numberComparator 0 ⟨1, 0⟩).2.pool.noBuf = false := hnew ▸ hroom 0 le_rfl
    have hr : s.fileHeader.Roomy := by
      rw [hh]
      exact ⟨by decide, by decide⟩
    have hv : View s [] s.fileHeader none s.node := ⟨hf, he.sound, by simp, rfl, he.stored, rfl⟩
    obtain ⟨-, t, nd, hval, hent⟩ := (insertEntry_empty numberComparator hr he.root hv
      (Set.mem_univ (⟨0, ⟨1, 0⟩⟩ : Key Int))).resolve_left (by rw [hroom]; exact Bool.false_ne_true)
    have hgrown : grown (0 + 1) = (s.insertEntry numberComparator 0 ⟨1, 0⟩).2 := by
      rw [grown, grown, hnew]
      rfl
    rw [hgrown]
    refine ⟨hval.view.faults, hval.bounds_eq.trans ?_, 0, t, hval.wellFormed ha, hent⟩
    rw [hh]
    rfl
  | succ n ih =>
    intro hroom
    obtain ⟨hf, hbounds, m, t, hwf, hent⟩ := ih fun k hk => hroom k (Nat.le_succ_of_le hk)
    have hroom := hroom (n + 1) le_rfl
    rw [grown] at hroom ⊢
    have hb := Tree.Bounds.mk.inj hbounds
    have hr : (grown (n + 1)).fileHeader.Roomy := ⟨hb.1.ge, hb.2.ge⟩
    have hval := hwf.valid ha (fun _ _ => Set.mem_univ _) hr.wide hf
    have hx : (⟨((n + 1 : Nat) : Int), ⟨1, (n + 1 : Nat)⟩⟩ : Key Int) ∈ Set.univ := trivial
    rcases insertEntry_valid ha hr hval hx with ⟨⟨w, hin⟩, -⟩ | ⟨-, hins⟩
    · rw [hent] at hin
      obtain ⟨k, hk, heq⟩ := List.mem_map.mp hin
      have hkey := congrArg (fun e => e.1.attr) heq
      have hlt := List.mem_range.mp hk
      simp only [numberEntry] at hkey
      omega
    · obtain ⟨-, m', t', nd, A, B, hval', hold, hnew⟩ :=
        hins.resolve_left (by rw [hroom]; exact Bool.false_ne_true)
      refine ⟨hval'.view.faults, hval'.bounds_eq.trans hbounds, m', t', hval'.wellFormed ha, ?_⟩
      -- no key of the index is greater
      have hlast : B = [] := by
        cases B with
        | nil => rfl
        | cons e B =>
          have hsorted := hval'.sorted.entries
          rw [hnew] at hsorted
          have hlt := (List.pairwise_append.mp hsorted).2.1
          have hcmp := (ha.lt_iff _ (Set.mem_univ _) _ (Set.mem_univ _)).mpr
            ((List.pairwise_cons.mp hlt).1 e List.mem_cons_self)
          have hmem : e ∈ (List.range (n + 1)).map numberEntry := by
            rw [← hent, hold]
            simp
          obtain ⟨k, hk, rfl⟩ := List.mem_map.mp hmem
          have hk := List.mem_range.mp hk
          simp only [numberComparator, numberRidCompare, keyComparator, numberEntry] at hcmp
          split_ifs at hcmp <;> omega
      rw [hlast, List.append_nil] at hold
      rw [hnew, hlast, List.range_succ, List.map_append, ← hent, hold]
      rfl

/-! ## InsertEntry -/

/-- `InsertEntry` on an empty or well-formed index, for a comparator that orders the keys in use:
if every page loads and every allocation succeeds, the index is well formed afterwards and has one
more entry, or, if the key was there, is as before. -/
theorem insertEntry_wellFormed {α : Type} [Inhabited α] {cmp : Key α → Key α → Int}
    {S : Set (Key α)} (hcmp : StrictTotalOn cmp S) (s : BplusTreeHandler α)
    (hr : s.fileHeader.Roomy) (userKey : α) (rid : RecordId) (hx : (⟨userKey, rid⟩ : Key α) ∈ S)
    (hload : s.pool.faults = [])
    (halloc : (s.insertEntry cmp userKey rid).2.pool.noBuf = false) :
    (IsEmptyTree s → (s.insertEntry cmp userKey rid).1 = .success ∧
      (s.insertEntry cmp userKey rid).2.fileHeader.bounds = s.fileHeader.bounds ∧
      ∃ t : IndexTree α 0, WellFormed cmp (s.insertEntry cmp userKey rid).2 t ∧
        t.entries = [(⟨userKey, rid⟩, rid)]) ∧
    ∀ (m : Nat) (t : IndexTree α m), WellFormed cmp s t → (∀ k ∈ t.keys, k ∈ S) →
      ((∃ w, (⟨userKey, rid⟩, w) ∈ t.entries) ∧
        (s.insertEntry cmp userKey rid).1 = .recordDuplicateKey ∧
        WellFormed cmp (s.insertEntry cmp userKey rid).2 t ∧
        (s.insertEntry cmp userKey rid).2.node = s.node) ∨
      ((∀ e ∈ t.entries, e.1 ≠ ⟨userKey, rid⟩) ∧
        (s.insertEntry cmp userKey rid).1 = .success ∧
        (s.insertEntry cmp userKey rid).2.fileHeader.bounds = s.fileHeader.bounds ∧
        ∃ (m' : Nat) (t' : IndexTree α m') (A B : List (Key α × RecordId)),
          WellFormed cmp (s.insertEntry cmp userKey rid).2 t' ∧
          t.entries = A ++ B ∧ t'.entries = A ++ (⟨userKey, rid⟩, rid) :: B) := by
  obtain ⟨order, ha⟩ := exists_linearOrder hcmp
  have hb : s.fileHeader.bounds.Wide := hr.wide
  have hnb : (s.insertEntry cmp userKey rid).2.pool.noBuf ≠ true := by simp [halloc]
  constructor
  · intro he
    have hv : View s [] s.fileHeader none s.node :=
      ⟨hload, he.sound, by simp, rfl, he.stored, rfl⟩
    obtain ⟨h1, t, nd', hval, hent⟩ := (insertEntry_empty cmp hr he.root hv hx).resolve_left hnb
    exact ⟨h1, hval.bounds_eq, t, hval.wellFormed ha, hent⟩
  · intro m t hwf hS
    have hval := hwf.valid ha hS hb hload
    rcases insertEntry_valid ha hr hval hx with ⟨hin, h1, hval'⟩ | ⟨hout, hins⟩
    · exact .inl ⟨hin, h1, hval'.wellFormed ha, hval'.view.node⟩
    · obtain ⟨h1, m', t', nd', A, B, hval', h2, h3⟩ := hins.resolve_left hnb
      exact .inr ⟨hout, h1, hval'.bounds_eq, m', t', A, B,
        hval'.wellFormed ha, h2, h3⟩

/-- An insertion that splits a leaf and the root, and one of a key that is there. -/
theorem insertEntry_wellFormed_grown :
    (∃ (m : Nat) (t : IndexTree Int m),
      WellFormed numberComparator ((grown 14).insertEntry numberComparator 14 ⟨1, 14⟩).2 t ∧ t.entries.length = 15) ∧
    ((grown 14).insertEntry numberComparator 3 ⟨1, 3⟩).1 = .recordDuplicateKey := by
  have hroom : ((grown 14).insertEntry numberComparator 14 ⟨1, 14⟩).2.pool.noBuf = false := by decide +kernel
  have hroom' : ((grown 14).insertEntry numberComparator 3 ⟨1, 3⟩).2.pool.noBuf = false := by decide +kernel
  obtain ⟨hload, hbounds, m, t, hwf, hent⟩ := grown_wellFormed 13 (by decide +kernel)
  have hlast : ∀ e ∈ t.entries, e.1 ≠ ⟨14, ⟨1, 14⟩⟩ := by
    rw [hent]
    decide
  have hfirst : (⟨3, ⟨1, 3⟩⟩, ⟨1, 3⟩) ∈ t.entries := by
    rw [hent]
    decide
  have hlen : t.entries.length = 14 := by
    rw [hent, List.length_map, List.length_range]
  generalize grown (13 + 1) = s at *
  have hb := Tree.Bounds.mk.inj hbounds
  have hr : s.fileHeader.Roomy := ⟨hb.1.ge, hb.2.ge⟩
  constructor
  · have hnew := insertEntry_wellFormed numberComparator_strictTotal s hr 14 ⟨1, 14⟩ trivial hload hroom
    rcases hnew.2 m t hwf fun _ _ => trivial with ⟨⟨w, hw⟩, -⟩ | ⟨-, -, -, m', t', A, B, hwf', hold, hnew⟩
    · exact absurd rfl (hlast _ hw)
    · refine ⟨m', t', hwf', ?_⟩
      rw [hold, List.length_append] at hlen
      rw [hnew, List.length_append, List.length_cons, ← Nat.add_assoc, hlen]
  · have hsame := insertEntry_wellFormed numberComparator_strictTotal s hr 3 ⟨1, 3⟩ trivial hload hroom'
    rcases hsame.2 m t hwf fun _ _ => trivial with ⟨-, hcode, -⟩ | ⟨hnot, -⟩
    · exact hcode
    · exact absurd rfl (hnot _ hfirst)

end BplusTreeHandler

end Idmbs
