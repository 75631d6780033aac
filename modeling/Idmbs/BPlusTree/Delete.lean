import Idmbs.BPlusTree.Coalesce
import Idmbs.BPlusTree.Checks
import Idmbs.BPlusTree.Insert

/-!
# Idmbs.BPlusTree.Delete

Deletion keeps an index file well formed and takes away one entry, or finds no entry and changes
nothing.

A removed entry can leave its leaf too small. `CoalesceOrRedistribute` repairs this, by induction on
the path to the root: either an item comes over from the neighbour, or the two nodes become one and
their parent may be too small in its turn.
-/

namespace Idmbs

open SearchTree SearchTree.Mark Comparator

/-- The handler type for nodes of this height. -/
def NodeKind.ofHeight : Nat → NodeKind
  | 0 => .leaf
  | _ + 1 => .internal

namespace BplusTreeHandler

variable {α : Type}

section Sizes

variable {nd : PageId → IndexNode α} {par : Option PageId} {h : Nat} {t : IndexTree α h}
  {s : BplusTreeHandler α} {hdr : IndexFileHeader}

theorem size_of_holds (ht : Holds nd par t) : (nd t.page).size = t.size := by
  cases h with
  | zero =>
    obtain ⟨p, es, rfl⟩ := t.exists_leaf
    obtain ⟨h1, -, h3⟩ := holds_leaf.mp ht
    simp [IndexNode.size, h1, h3]
  | succ h =>
    obtain ⟨p, items, rfl⟩ := t.exists_inner
    obtain ⟨⟨h1, -, h3⟩, -⟩ := holds_inner.mp ht
    simp [IndexNode.size, h1, h3]

theorem maxSize_ofHeight (hb : s.fileHeader.bounds = hdr.bounds) (h : Nat) :
    s.maxSize (.ofHeight h) = hdr.bounds.hi h := by
  rw [← hb]
  cases h <;> rfl

theorem lo_false (b : Tree.Bounds) (h : Nat) : b.lo false h = b.hi h / 2 := by
  cases h <;> rfl

/-- The last key of a node is a key of its subtree. -/
theorem lastKey_of_holds [Inhabited α] (ht : Holds nd par t) (hz : h = 0 → 1 ≤ t.size)
    (hz' : h ≠ 0 → 2 ≤ t.size) :
    ∃ mk ∈ t.marks, mk.key = (nd t.page).itemKeyAt (.ofHeight h) ((nd t.page).size - 1) := by
  cases h with
  | zero =>
    obtain ⟨p, es, rfl⟩ := t.exists_leaf
    obtain ⟨h1, -, h3⟩ := holds_leaf.mp ht
    have hlt : es.length - 1 < es.length := by
      have := hz rfl
      simp only [Tree.size_leaf] at this
      omega
    refine ⟨ent (es[es.length - 1]).1, List.mem_map.mpr ⟨_, List.getElem_mem hlt, rfl⟩, ?_⟩
    simp [IndexNode.itemKeyAt, NodeKind.ofHeight, IndexNode.size, h1, h3, hlt]
  | succ h =>
    obtain ⟨p, items, rfl⟩ := t.exists_inner
    obtain ⟨⟨h1, -, h3⟩, -⟩ := holds_inner.mp ht
    have hlen := hz' (Nat.succ_ne_zero h)
    simp only [Tree.size_inner] at hlen
    have hlt : items.length - 1 < items.length := by omega
    refine ⟨sep (items[items.length - 1]).1, Tree.sep_mem_inner ?_, ?_⟩
    · refine List.mem_of_getElem? (i := items.length - 2) ?_
      rw [List.getElem?_tail, show items.length - 2 + 1 = items.length - 1 by omega]
      exact List.getElem?_eq_getElem hlt
    · simp [IndexNode.itemKeyAt, NodeKind.ofHeight, IndexNode.keyAt, IndexNode.size, h1, h3,
        childLinks, hlt]

end Sizes

variable [LinearOrder (Key α)] [Inhabited α] {cmp : Key α → Key α → Int} {S : Set (Key α)}
  {s : BplusTreeHandler α} {hdr : IndexFileHeader} {st : Option PageId} {nd : PageId → IndexNode α}
  {m h : Nat}

/-- A search key that occurs below a child of `p` leads to this child. -/
theorem Loose.own_index (ha : Agrees cmp S) {p : PageId} {pre post : List (Key α × IndexTree α h)}
    {k : Key α} {up : IndexPath α m (h + 1)} {t : IndexTree α h}
    (hl : Loose S s hdr nd ((Path.step p pre k post up).plug t)) {mk : Mark (Key α)}
    (hmk : mk ∈ t.marks) : ((nd p).internalLookUp cmp mk.key).1 = pre.length := by
  obtain ⟨⟨⟨-, -, hch⟩, -⟩, -⟩ := (holds_plug _ _).mp hl.holds
  have hs : Tree.Sorted (up.plug (.inner p (pre ++ (k, t) :: post))) := hl.sorted
  have hin := Tree.sorted_inner.mp (Path.sorted_of_plug hs)
  have hin' : mk ∈ ((Path.step p pre k post up).plug t).marks := by
    rw [Path.marks_plug]; simp [hmk]
  have hkS : ∀ it ∈ (pre ++ (k, t) :: post).tail, it.1 ∈ S := fun it hit => by
    refine hl.keys _ (Tree.key_mem_keys (m := sep it.1) ?_)
    rw [Path.plug, Path.marks_plug]
    simp only [List.mem_append]
    exact .inl (.inr (Tree.sep_mem_inner hit))
  have htl : (nd p).children.tail = childLinks (pre ++ (k, t) :: post).tail := by
    rw [hch, show childLinks pre ++ (k, t.page) :: childLinks post =
      childLinks (pre ++ (k, t) :: post) by simp]
    exact List.map_tail.symm
  have hlow : childLinks pre ≠ [] → k ≤ mk.key := by
    intro hne
    have := Path.left_lt hl.sorted (Path.sep_mem_left (fun e => hne (by simp [e]))) hmk
    rcases mk.sep_or_ent with e | e <;> rw [e] at this
    · exact le_of_lt (sep_lt_sep.mp this)
    · exact sep_lt_ent.mp this
  refine (internalLookUp_spec (n := nd p) ha (hl.keys _ (Tree.key_mem_keys hin'))
    (A := childLinks pre) (B := childLinks post) (k := k) (c := t.page) hch ?_ ?_ hlow ?_).1.trans
    (length_childLinks pre)
  · rw [htl]
    intro it hit
    obtain ⟨it', hit', rfl⟩ := List.mem_map.mp hit
    exact hkS it' hit'
  · rw [htl, childLinks_keys, List.pairwise_map]; exact hin.2.1
  · intro it hit
    obtain ⟨it', hit', rfl⟩ := List.mem_map.mp hit
    have := Path.lt_right hl.sorted (Path.sep_mem_right hit') hmk
    rcases mk.sep_or_ent with e | e <;> rw [e] at this
    · exact sep_lt_sep.mp this
    · exact ent_lt_sep.mp this

/-! ## Two neighbours of any height -/

section Pair

variable {p : PageId} {pre post : List (Key α × IndexTree α h)} {ka kb : Key α}
  {up : IndexPath α m (h + 1)} {ta tb : IndexTree α h} {b : Tree.Bounds}

/-- What two neighbouring nodes become: `n` items left, `n'` right, the same entries. -/
structure Shared (b : Tree.Bounds) (ta tb ta' tb' : IndexTree α h) (n n' : Nat) : Prop where
  sizes : ta'.size = n ∧ tb'.size = n'
  below : Tree.Below b ta' ∧ Tree.Below b tb'
  entries : ta'.entries ++ tb'.entries = ta.entries ++ tb.entries

theorem Loose.redistribute_first
    (hl : Loose S s hdr nd ((Path.step p [] ka ((kb, tb) :: post) up).plug ta))
    (hza : 0 < ta.size) (hzb : 2 ≤ tb.size) (hba : Tree.Below b ta) (hbb : Tree.Below b tb) :
    ∃ s' nd' k ta' tb', redistribute (.ofHeight h) tb.page ta.page p 0 s = (.success, s') ∧
      Loose S s' hdr nd' ((Path.step p [] ka ((k, tb') :: post) up).plug ta') ∧
      Shared b ta tb ta' tb' (ta.size + 1) (tb.size - 1) ∧
      ta.pages ++ tb.pages ⊆ ta'.pages ++ tb'.pages := by
  cases h with
  | zero =>
    obtain ⟨pa, A, rfl⟩ := ta.exists_leaf
    obtain ⟨pb, B, rfl⟩ := tb.exists_leaf
    rcases B with _ | ⟨b0, _ | ⟨e, B⟩⟩
    · simp at hzb
    · simp at hzb
    · obtain ⟨s', nd', e1, hl'⟩ := hl.redistribute_first_leaf
      exact ⟨s', nd', _, _, _, e1, hl', ⟨by simp, by simp, by simp⟩, by simp⟩
  | succ h =>
    obtain ⟨pa, L, rfl⟩ := ta.exists_inner
    obtain ⟨pb, R, rfl⟩ := tb.exists_inner
    rcases R with _ | ⟨⟨k0, c0⟩, _ | ⟨⟨k, c⟩, R⟩⟩
    · simp at hzb
    · simp at hzb
    · have hL : L ≠ [] := by rintro rfl; simp at hza
      obtain ⟨s', nd', e1, hl'⟩ := hl.redistribute_first_inner hL
      refine ⟨s', nd', _, _, _, e1, hl', ⟨by simp, ?_, by simp [Tree.entries]⟩, fun r hr => ?_⟩
      · simp only [Tree.below_inner, List.forall_mem_append, List.forall_mem_cons] at hba hbb ⊢
        exact ⟨⟨hba, hbb.1, by simp⟩, hbb.2.1, hbb.2.2⟩
      · simp only [Tree.pages_inner, List.flatMap_append, List.flatMap_cons, List.flatMap_nil,
          List.mem_append, List.mem_cons, List.append_nil] at hr ⊢
        tauto

theorem Loose.redistribute_last
    (hl : Loose S s hdr nd ((Path.step p pre ka ((kb, tb) :: post) up).plug ta))
    (hza : 2 ≤ ta.size) (hzb : 0 < tb.size) (hba : Tree.Below b ta) (hbb : Tree.Below b tb) :
    ∃ s' nd' k ta' tb', redistribute (.ofHeight h) ta.page tb.page p (pre.length + 1) s =
        (.success, s') ∧
      Loose S s' hdr nd' ((Path.step p pre ka ((k, tb') :: post) up).plug ta') ∧
      Shared b ta tb ta' tb' (ta.size - 1) (tb.size + 1) ∧
      ta.pages ++ tb.pages ⊆ ta'.pages ++ tb'.pages := by
  cases h with
  | zero =>
    obtain ⟨pa, A, rfl⟩ := ta.exists_leaf
    obtain ⟨pb, B, rfl⟩ := tb.exists_leaf
    rcases List.eq_nil_or_concat A with rfl | ⟨A, e, rfl⟩
    · simp at hza
    · rw [List.concat_eq_append] at *
      have hA : A ≠ [] := by rintro rfl; simp at hza
      obtain ⟨s', nd', e1, hl'⟩ := hl.redistribute_last_leaf hA
      exact ⟨s', nd', _, _, _, e1, hl', ⟨by simp, by simp, by simp⟩, by simp⟩
  | succ h =>
    obtain ⟨pa, L, rfl⟩ := ta.exists_inner
    obtain ⟨pb, R, rfl⟩ := tb.exists_inner
    rcases List.eq_nil_or_concat L with rfl | ⟨L, ⟨k, c⟩, rfl⟩
    · simp at hza
    · rw [List.concat_eq_append] at *
      have hL : L ≠ [] := by rintro rfl; simp at hza
      have hR : R ≠ [] := by rintro rfl; simp at hzb
      obtain ⟨s', nd', e1, hl'⟩ := hl.redistribute_last_inner hL hR
      refine ⟨s', nd', _, _, _, e1, hl', ⟨by simp, ?_, by simp [Tree.entries]⟩, fun r hr => ?_⟩
      · simp only [Tree.below_inner, List.forall_mem_append, List.forall_mem_cons] at hba hbb ⊢
        exact ⟨hba.1, hba.2.1, hbb⟩
      · simp only [Tree.pages_inner, List.flatMap_append, List.flatMap_cons, List.flatMap_nil,
          List.mem_append, List.mem_cons, List.append_nil] at hr ⊢
        tauto

omit [Inhabited α] in
theorem Loose.coalesce
    (hl : Loose S s hdr nd ((Path.step p pre ka ((kb, tb) :: post) up).plug ta))
    (hza : 0 < ta.size) (hzb : 0 < tb.size) (hba : Tree.Below b ta) (hbb : Tree.Below b tb) :
    ∃ s' nd' t', Merged (.ofHeight h) ta.page tb.page p (pre.length + 1) s s' ∧
      Loose S s' hdr nd' ((Path.step p pre ka post up).plug t') ∧
      t'.size = ta.size + tb.size ∧ Tree.Below b t' ∧ t'.entries = ta.entries ++ tb.entries ∧
      (ta.pages ++ tb.pages).Perm (tb.page :: t'.pages) := by
  cases h with
  | zero =>
    obtain ⟨pa, A, rfl⟩ := ta.exists_leaf
    obtain ⟨pb, B, rfl⟩ := tb.exists_leaf
    obtain ⟨s', nd', hm, hl'⟩ := hl.coalesce_leaf
    exact ⟨s', nd', _, hm, hl', by simp, by simp, by simp,
      List.Perm.swap pb pa []⟩
  | succ h =>
    obtain ⟨pa, L, rfl⟩ := ta.exists_inner
    obtain ⟨pb, R, rfl⟩ := tb.exists_inner
    have hL : L ≠ [] := by rintro rfl; simp at hza
    have hR : R ≠ [] := by rintro rfl; simp at hzb
    obtain ⟨s', nd', hm, hl'⟩ := hl.coalesce_inner hL hR
    refine ⟨s', nd', _, hm, hl', by simp, ?_, by simp [Tree.entries], ?_⟩
    · simp only [Tree.below_inner, List.forall_mem_append] at hba hbb ⊢
      exact ⟨hba, hbb⟩
    · classical
      simp only [Tree.page_inner, Tree.pages_inner, List.flatMap_append, List.perm_iff_count,
        List.count_cons, List.count_append]
      intro a
      omega

omit [Inhabited α] in
/-- What the handler reads of the sizes of two neighbours and of their parent. -/
theorem Loose.pair_sizes (hl : Loose S s hdr nd ((Path.step p pre ka ((kb, tb) :: post) up).plug ta)) :
    (s.node ta.page).size = ta.size ∧ (s.node tb.page).size = tb.size ∧
      (s.node p).size = pre.length + 2 + post.length ∧ s.maxSize (.ofHeight h) = hdr.bounds.hi h := by
  have hv := hl.view
  obtain ⟨⟨⟨hpl, -, hch⟩, -, hpost, -⟩, hta⟩ := (holds_plug _ _).mp hl.holds
  refine ⟨?_, ?_, ?_, maxSize_ofHeight (by rw [hv.fileHeader]; rfl) h⟩
  · rw [hv.node, size_of_holds hta]
  · rw [hv.node, size_of_holds (List.forall_mem_cons.mp hpost).1]
  · rw [hv.node]
    simp only [IndexNode.size, hpl, hch, Bool.false_eq_true, if_false, List.length_append,
      List.length_cons, length_childLinks]
    omega

omit [LinearOrder (Key α)] [Inhabited α] in
theorem merged_parent {k : Key α} {t : IndexTree α h} (root : Bool)
    (hpre : ∀ it ∈ pre, Tree.Sized b false it.2) (ht : Tree.Sized b false t)
    (hpost : ∀ it ∈ post, Tree.Sized b false it.2)
    (hlo : b.lo root (h + 1) ≤ pre.length + 2 + post.length)
    (hhi : pre.length + 2 + post.length ≤ b.hi (h + 1)) :
    Tree.Below b (.inner p (pre ++ (k, t) :: post)) ∧
      Tree.size (.inner p (pre ++ (k, t) :: post)) ≤ b.hi (h + 1) ∧
      b.lo root (h + 1) ≤ Tree.size (.inner p (pre ++ (k, t) :: post)) + 1 := by
  refine ⟨?_, ?_, ?_⟩
  · exact (Tree.below_inner _ _ _).mpr
      (List.forall_mem_append.mpr ⟨hpre, List.forall_mem_cons.mpr ⟨ht, hpost⟩⟩)
  · simp only [Tree.size_inner, List.length_append, List.length_cons]
    omega
  · simp only [Tree.size_inner, List.length_append, List.length_cons]
    omega

end Pair

/-! ## The root -/

/-- The outcome of a repair: the index holds these entries, in a tree or, if there are none, in no
tree. -/
def Repaired (S : Set (Key α)) (hdr : IndexFileHeader) (es : List (Key α × RecordId))
    (r : Re × BplusTreeHandler α) : Prop :=
  r.1 = .success ∧
    ((∃ (m : Nat) (t : IndexTree α m) (nd : PageId → IndexNode α), Valid S r.2 hdr nd t ∧
        t.entries = es) ∨
      (es = [] ∧ ∃ nd, View r.2 [] { hdr with rootPageId := none } none nd))

omit [Inhabited α] in
theorem Repaired.of_valid {t : IndexTree α m} (h : Valid S s hdr nd t) :
    Repaired S hdr t.entries (.success, s) :=
  ⟨rfl, .inl ⟨m, t, nd, h, rfl⟩⟩

omit [Inhabited α] in
theorem Loose.unpinPage {t : IndexTree α m} (h : Loose S s hdr nd t) (q : PageId) :
    Loose S (s.unpinPage q) hdr nd t := { h with view := h.view.unpinPage }

omit [Inhabited α] in
theorem Loose.pinned {t : IndexTree α m} (h : Loose S s hdr nd t) (q : PageId) :
    Loose S (s.pinned q) hdr nd t := { h with view := h.view.pinned }

omit [Inhabited α] in
/-- The root gives way to its only child. -/
theorem Loose.only_child {p : PageId} {k : Key α} {t : IndexTree α h} {s' : BplusTreeHandler α}
    (hl : Loose S s hdr nd (.inner p [(k, t)]))
    (hv : View s' t.pages { hdr with rootPageId := some t.page } (some t.page)
      (Function.update nd t.page { nd t.page with parent := none })) :
    Loose S s' hdr (Function.update nd t.page { nd t.page with parent := none }) t := by
  have hnd := hl.nodup
  simp only [Tree.pages_inner, List.flatMap_cons, List.flatMap_nil, List.append_nil,
    List.nodup_cons] at hnd
  have hh := (holds_inner.mp hl.holds).2 (k, t) (by simp)
  have hmarks : (Tree.inner p [(k, t)]).marks = t.marks := by simp
  refine ⟨hv, hnd.2, hh.reparent hnd.2 ?_ ?_ ?_, ?_, ?_, ?_, ?_⟩
  · rw [Function.update_self]; exact ⟨rfl, rfl, rfl⟩
  · rw [Function.update_self]
  · intro q _ hq
    rw [Function.update_of_ne hq]
    exact .refl _
  · exact ((Tree.firstKeys_cons _ _ _).mp ((Tree.firstKey_inner _ _ _).mp hl.firstKey)).2.1
  · rw [Tree.Sorted, ← hmarks]; exact hl.sorted
  · rw [Tree.keys, ← hmarks]; exact hl.keys
  · have hlink := hl.linked
    simp only [Tree.leaves_inner, List.flatMap_cons, List.flatMap_nil, List.append_nil] at hlink
    refine hlink.congr fun r _ => ?_
    by_cases hr : r = t.page
    · rw [hr, Function.update_self]; exact ⟨rfl, rfl⟩
    · rw [Function.update_of_ne hr]; exact ⟨rfl, rfl⟩

omit [Inhabited α] in
theorem adjustRoot_spec (hr : hdr.Roomy) {t : IndexTree α m} (hl : Loose S s hdr nd t)
    (hb : Tree.Below hdr.bounds t) (hsz : t.size ≤ 1) (hlo : hdr.bounds.lo true m ≤ t.size + 1) :
    Repaired S hdr t.entries (.success, (adjustRoot t.page s).2) ∧
      Balanced s [t.page] t.pages (adjustRoot t.page s).2 := by
  have hv := hl.view
  cases m with
  | zero =>
    obtain ⟨p, es, rfl⟩ := t.exists_leaf
    have hp : p ∈ (Tree.leaf p es).pages := Tree.page_mem_pages (.leaf p es)
    obtain ⟨h1, -, h3⟩ := holds_leaf.mp hl.holds
    have hsize : (nd p).size = es.length := by simp [IndexNode.size, h1, h3]
    rcases es with _ | ⟨e, es⟩
    · have hempty : ¬((s.node p).isLeaf = true ∧ 0 < (s.node p).size) := by
        rw [hv.node, hsize]; simp
      have hv1 := ((((hv.setRoot none).updateRootPageId).unpinPage (p := p)).disposePage
        [] hp (by simp) (by simp))
      have hroot : adjustRoot p s =
          (.success, (((s.setRoot none).updateRootPageId.2).unpinPage p).disposePage p) := by
        rw [adjustRoot, if_neg hempty]
        simp only [lowerRoot, hv.node, h1, if_true, ne_eq, not_true_eq_false, if_false]
      rw [Tree.page_leaf, hroot]
      refine ⟨⟨rfl, .inr ⟨Tree.entries_leaf _ _, nd, hv1⟩⟩, fun n hacc => ?_⟩
      have h2 := ((hacc.setRoot none).updateRootPageId.unpinPage).disposePage (hv.headerPins_eq hp n)
        List.not_mem_nil
      refine h2.mono ?_
      rintro r ⟨hr, hne⟩
      simp only [inUse, List.mem_cons, Tree.pages_leaf, List.not_mem_nil, or_false] at hr
      simp only [Settled]
      tauto
    · have hfull : (s.node p).isLeaf = true ∧ 0 < (s.node p).size := by
        rw [hv.node, hsize]; exact ⟨h1, by simp⟩
      have hval : Valid S ((s.dirtyMark p).unpinPage p) hdr nd (.leaf p (e :: es)) := by
        refine Loose.valid { hl with view := hv.dirtyMark.unpinPage } ⟨?_, ?_, Tree.below_leaf _ _ _⟩
        · simp [Tree.Bounds.lo]
        · exact le_trans hsz (le_trans (by decide) hr.leaf)
      simp only [adjustRoot, Tree.page_leaf, hfull, and_self, if_true]
      exact ⟨Repaired.of_valid hval, fun n hacc =>
        hacc.dirtyMark.unpinPage.settled hval.view hval.holds fun _ hr => hr⟩
  | succ h =>
    obtain ⟨p, items, rfl⟩ := t.exists_inner
    have hp : p ∈ (Tree.inner p items).pages := Tree.page_mem_pages (.inner p items)
    obtain ⟨⟨h1, -, h3⟩, -⟩ := holds_inner.mp hl.holds
    rcases items with _ | ⟨⟨k, t⟩, _ | ⟨it, items⟩⟩
    · simp [Tree.Bounds.lo] at hlo
    · have hnd := hl.nodup
      simp only [Tree.pages_inner, List.flatMap_cons, List.flatMap_nil, List.append_nil,
        List.nodup_cons] at hnd
      have ht : t.page ∈ (Tree.inner p [(k, t)]).pages := by simp [t.page_mem_pages]
      have hleaf : ¬((s.node p).isLeaf = true ∧ 0 < (s.node p).size) := by
        rw [hv.node, h1]; simp
      have hval : (nd p).valueAt 0 = t.page := by simp [IndexNode.valueAt, h3]
      have hv1 := (((((((hv.pinned (p := t.page)).modifyNode ht fun n =>
        { n with parent := none }).unpinPage (p := t.page)).setRoot
        (some t.page)).updateRootPageId).unpinPage (p := p)).disposePage
        t.pages hp (by simp) hnd.1)
      have hl1 := hl.only_child hv1
      have hz := (Tree.below_inner _ _ _).mp hb (k, t) (by simp)
      have hval1 := hl1.valid (m := h) ⟨le_trans ?_ hz.lo, hz.hi, hz.below⟩
      · have hent : (Tree.inner p [(k, t)]).entries = t.entries := by simp [Tree.entries]
        rw [hent, Tree.page_inner, adjustRoot, if_neg hleaf]
        simp only [lowerRoot, hv.node, h1, hval, hv.getPage ht, Bool.false_eq_true, ne_eq,
          not_true_eq_false, if_false, setParentPageId]
        refine ⟨Repaired.of_valid hval1, fun n hacc => ?_⟩
        have h2 := ((((hacc.pinned (p := t.page)).modifyNode (p := t.page) fun n =>
          { n with parent := none }).unpinPage.setRoot
          (some t.page)).updateRootPageId.unpinPage).disposePage (hv.headerPins_eq hp n)
          List.not_mem_nil
        refine h2.settled hval1.view hval1.holds ?_
        rintro r ⟨hr, hne⟩
        simp only [inUse, List.mem_cons, Tree.pages_inner, List.flatMap_cons, List.flatMap_nil,
          List.append_nil] at hr ⊢
        tauto
      · have h4 := hr.leaf
        have h6 := hr.internal
        cases h <;> simp only [Tree.Bounds.lo, IndexFileHeader.bounds] <;> omega
    · simp at hsz

/-! ## Up to the root -/

omit [Inhabited α] in
/-- `Loose.valid`, with the sizes around the hole. -/
theorem Loose.plug_valid {c : IndexPath α m h} {t : IndexTree α h}
    (hl : Loose S s hdr nd (c.plug t)) (hc : c.Sized hdr.bounds) (ht : t.Sized hdr.bounds c.isTop) :
    Valid S s hdr nd (c.plug t) :=
  hl.valid ((Path.sized_plug _ _ _).mpr ⟨hc, ht⟩)

section Step

variable {p : PageId} {pre post : List (Key α × IndexTree α h)} {ka kb : Key α}
  {up : IndexPath α m (h + 1)} {ta tb : IndexTree α h}

omit [Inhabited α] in
/-- After a redistribution both nodes are large enough. -/
theorem Loose.shared_valid {ta' tb' : IndexTree α h} {k : Key α} {n n' : Nat}
    (hl : Loose S s hdr nd ((Path.step p pre ka ((k, tb') :: post) up).plug ta'))
    (hlo : hdr.bounds.lo up.isTop (h + 1) ≤ pre.length + 1 + (post.length + 1))
    (hhi : pre.length + 1 + (post.length + 1) ≤ hdr.internalMaxSize)
    (hpre : ∀ it ∈ pre, Tree.Sized hdr.bounds false it.2)
    (hpost : ∀ it ∈ post, Tree.Sized hdr.bounds false it.2) (hup : up.Sized hdr.bounds)
    (hsh : Shared hdr.bounds ta tb ta' tb' n n')
    (hn : hdr.bounds.lo false h ≤ n ∧ n ≤ hdr.bounds.hi h)
    (hn' : hdr.bounds.lo false h ≤ n' ∧ n' ≤ hdr.bounds.hi h) :
    Repaired S hdr ((Path.step p pre ka ((kb, tb) :: post) up).plug ta).entries (.success, s) := by
  have hval : Valid S s hdr nd ((Path.step p pre ka ((k, tb') :: post) up).plug ta') := by
    refine hl.plug_valid ⟨by simpa using hlo, by simpa [IndexFileHeader.bounds] using hhi, hpre,
      List.forall_mem_cons.mpr
      ⟨⟨?_, ?_, hsh.below.2⟩, hpost⟩, hup⟩ ⟨?_, ?_, hsh.below.1⟩
    · rw [hsh.sizes.2]; exact hn'.1
    · rw [hsh.sizes.2]; exact hn'.2
    · rw [hsh.sizes.1]; exact hn.1
    · rw [hsh.sizes.1]; exact hn.2
  have hent := Repaired.of_valid hval
  rw [Path.entries_pair, hsh.entries, ← Path.entries_pair p pre post ka kb up] at hent
  exact hent

end Step

omit [LinearOrder (Key α)] [Inhabited α] in
/-- An internal root that `AdjustRoot` is called for has a child. -/
theorem adjustRootChecks_of_holds {keep : List PageId} {st : Option PageId} {t : IndexTree α m}
    (hv : View s keep hdr st nd) (hh : Holds nd none t) (hlo : hdr.bounds.lo true m ≤ t.size + 1) :
    adjustRootChecks t.page s := by
  intro hleaf
  rw [hv.node] at hleaf ⊢
  rw [size_of_holds hh]
  cases m with
  | zero =>
    obtain ⟨p, es, rfl⟩ := t.exists_leaf
    rw [Tree.page_leaf, (holds_leaf.mp hh).1] at hleaf
    cases hleaf
  | succ m =>
    simp only [Tree.Bounds.lo] at hlo
    exact Nat.lt_of_succ_le (Nat.le_of_succ_le_succ hlo)

omit [Inhabited α] in
theorem Loose.balanced_unpinPage {t : IndexTree α m} {q : PageId} (hl : Loose S s hdr nd t) :
    Balanced s [q] t.pages (s.unpinPage q) := fun _ hacc =>
  hacc.unpinPage.settled hl.view.unpinPage hl.holds fun _ hr => hr

section Balance

variable {p : PageId} {pre post : List (Key α × IndexTree α h)} {ka kb : Key α}
  {up : IndexPath α m (h + 1)} {ta tb : IndexTree α h} {kind : NodeKind} {index : Nat}
  {s' r : BplusTreeHandler α} {nd' : PageId → IndexNode α}

theorem Loose.balanced_redistribute {ta' tb' : IndexTree α h} {k : Key α} {neighbor frame : PageId}
    (hl : Loose S s' hdr nd' ((Path.step p pre ka ((k, tb') :: post) up).plug ta'))
    (heq : redistribute kind neighbor frame p index s = (.success, s'))
    (hpages : ta.pages ++ tb.pages ⊆ ta'.pages ++ tb'.pages) :
    Balanced s [p, neighbor, frame] ((Path.step p pre ka ((kb, tb) :: post) up).plug ta).pages s' := by
  intro n hacc
  have h := hacc.redistribute kind index
  rw [heq] at h
  refine Accounts.settled h hl.view hl.holds fun q hq => ?_
  simp only [inUse, List.mem_cons, (Path.pages_pair p pre post ka _ up _ _).mem_iff,
    List.mem_append] at hq ⊢
  have hq' := @hpages q
  simp only [List.mem_append] at hq'
  tauto

omit [Inhabited α] [LinearOrder (Key α)] in
theorem Merged.balanced {st : Option PageId} {t : IndexTree α h}
    (hm : Merged kind ta.page tb.page p index s s')
    (hv : View s ((Path.step p pre ka ((kb, tb) :: post) up).plug ta).pages hdr st nd)
    (hb : tb.page ∈ ((Path.step p pre ka ((kb, tb) :: post) up).plug ta).pages)
    (hne : tb.page ≠ p) (hperm : (ta.pages ++ tb.pages).Perm (tb.page :: t.pages))
    (hr : Balanced s' [p] ((Path.step p pre ka post up).plug t).pages r) :
    Balanced s [ta.page, tb.page, p] ((Path.step p pre ka ((kb, tb) :: post) up).plug ta).pages r := by
  intro n hacc
  refine hr n ((hm.accounts hacc (hv.headerPins_eq hb n) hne).mono fun q ⟨hq, hqb⟩ => ?_)
  simp only [inUse, List.mem_cons, (Path.pages_merge p pre post ka kb up ta tb hperm).mem_iff]
    at hq ⊢
  tauto

end Balance

section Mend

variable {p : PageId} {pre post : List (Key α × IndexTree α h)} {k : Key α} {up : IndexPath α m (h + 1)}
  {t : IndexTree α h} {fuel : Nat}

/-- `CoalesceOrRedistribute` on the node in the hole of `c` repairs the tree, and no assertion on the way fails. -/
def Mended (cmp : Key α → Key α → Int) (S : Set (Key α)) (hdr : IndexFileHeader) (c : IndexPath α m h)
    (t : IndexTree α h) (s : BplusTreeHandler α) (fuel : Nat) : Prop :=
  Repaired S hdr (c.plug t).entries (coalesceOrRedistribute cmp fuel (.ofHeight h) t.page s) ∧
    Balanced s [t.page] (c.plug t).pages (coalesceOrRedistribute cmp fuel (.ofHeight h) t.page s).2 ∧
    coalesceOrRedistributeChecks cmp fuel (.ofHeight h) t.page s

/-- It does so for every node that may be too small by one item. -/
def Mends (cmp : Key α → Key α → Int) (S : Set (Key α)) (hdr : IndexFileHeader) (c : IndexPath α m h) : Prop :=
  ∀ {t : IndexTree α h} {s : BplusTreeHandler α} {nd : PageId → IndexNode α} {fuel : Nat},
    c.depth < fuel → Loose S s hdr nd (c.plug t) → c.Sized hdr.bounds →
    Tree.Below hdr.bounds t → t.size ≤ hdr.bounds.hi h → hdr.bounds.lo c.isTop h ≤ t.size + 1 →
    Mended cmp S hdr c t s fuel

theorem mends_top (hr : hdr.Roomy) : Mends cmp S hdr (.top : IndexPath α m m) := by
  intro t s nd fuel hf hl hc hb hhi hlo
  obtain ⟨fuel, rfl⟩ := Nat.exists_eq_succ_of_ne_zero (Nat.ne_of_gt hf)
  change Loose S s hdr nd t at hl
  have hv := hl.view
  have hpar : (s.node t.page).parent = none := by rw [hv.node]; exact hl.holds.parent_eq
  have hsz : (s.node t.page).size = t.size := by rw [hv.node]; exact size_of_holds hl.holds
  have hmax : s.maxSize (.ofHeight m) = hdr.bounds.hi m :=
    maxSize_ofHeight (by rw [hv.fileHeader]; rfl) m
  simp only [Path.isTop] at hlo
  have hlo2 : hdr.bounds.lo true m ≤ 2 := by cases m <;> simp [Tree.Bounds.lo]
  have hhi4 := hr.four_le_hi m
  simp only [Mended, Path.plug, coalesceOrRedistribute, coalesceOrRedistributeChecks, hpar, hsz, minSize, hmax]
  split_ifs with h1 h2
  · exact ⟨Repaired.of_valid (t := t) ((hl.unpinPage _).valid ⟨by omega, hhi, hb⟩),
      hl.balanced_unpinPage, trivial⟩
  · exact ⟨Repaired.of_valid (t := t) ((hl.unpinPage _).valid ⟨by omega, hhi, hb⟩),
      hl.balanced_unpinPage, trivial⟩
  · obtain ⟨hrep, hbal⟩ := adjustRoot_spec hr hl hb (not_lt.mp h2) hlo
    exact ⟨hrep, hbal, adjustRootChecks_of_holds hv hl.holds hlo⟩

/-- What `CoalesceOrRedistribute` reads of a node and its parent before it takes the neighbour. -/
structure Reads (cmp : Key α → Key α → Int) (s : BplusTreeHandler α) (hdr : IndexFileHeader)
    (pre : List (Key α × IndexTree α h)) (t : IndexTree α h) (p : PageId) : Prop where
  parent : (s.node t.page).parent = some p
  size : (s.node t.page).size = t.size
  maxSize : s.maxSize (.ofHeight h) = hdr.bounds.hi h
  getPage : s.getPage p = (.success, s.pinned p)
  index : (h = 0 → 1 ≤ t.size) → (h ≠ 0 → 2 ≤ t.size) →
    (((s.pinned p).node p).internalLookUp cmp
      ((s.node t.page).itemKeyAt (.ofHeight h) (t.size - 1))).1 = pre.length

theorem Loose.reads (ha : Agrees cmp S) (hl : Loose S s hdr nd ((Path.step p pre k post up).plug t)) :
    Reads cmp s hdr pre t p := by
  have hv := hl.view
  obtain ⟨-, hht⟩ := (holds_plug _ _).mp hl.holds
  have hp : p ∈ ((Path.step p pre k post up).plug t).pages :=
    (Path.pages_plug _ _).mem_iff.mpr (by simp [Path.pages])
  refine ⟨?_, ?_, maxSize_ofHeight (by rw [hv.fileHeader]; rfl) h, hv.getPage hp, fun hz hz' => ?_⟩
  · rw [hv.node]
    exact hht.parent_eq
  · rw [hv.node]
    exact size_of_holds hht
  · obtain ⟨mk, hmk, hkey⟩ := lastKey_of_holds hht hz hz'
    rw [size_of_holds hht] at hkey
    rw [hv.pinned.node, hv.node, ← hkey]
    exact hl.own_index ha hmk

theorem two_le_of_lo (hr : hdr.Roomy) {top : Bool} {n : Nat} (hn : hdr.bounds.lo top (h + 1) ≤ n) : 2 ≤ n := by
  have h6 := hr.internal
  refine le_trans ?_ hn
  cases top <;> simp only [Tree.Bounds.lo, IndexFileHeader.bounds] <;> omega

/-- The node is too small and the first child: the neighbour is on the right. -/
theorem Mends.first (ha : Agrees cmp S) (hr : hdr.Roomy) (ih : Mends cmp S hdr up) (hf : up.depth < fuel)
    (hl : Loose S s hdr nd ((Path.step p [] k post up).plug t))
    (hc : (Path.step p [] k post up).Sized hdr.bounds) (hb : Tree.Below hdr.bounds t)
    (hhi : t.size ≤ hdr.bounds.hi h) (hlo : hdr.bounds.lo false h ≤ t.size + 1)
    (hbig : ¬hdr.bounds.hi h - hdr.bounds.hi h / 2 ≤ t.size) :
    Mended cmp S hdr (Path.step p [] k post up) t s (fuel + 1) := by
  have h4 := hr.leaf
  have hhi4 := hr.four_le_hi h
  rw [lo_false] at hlo
  have hv := hl.view
  obtain ⟨⟨⟨-, -, hch⟩, -⟩, -⟩ := (holds_plug _ _).mp hl.holds
  obtain ⟨hpar, hsz, hmax, hget, hidx⟩ := hl.reads ha
  replace hidx := hidx (fun _ => by omega) (fun h0 => by have := hr.six_le_hi h0; omega)
  obtain ⟨hclo, hchi, hcpre, hcpost, hcup⟩ := hc
  have htwo := two_le_of_lo hr hclo
  simp only [Mended, coalesceOrRedistribute, coalesceOrRedistributeChecks, hpar, hsz, minSize, hmax, hget, ne_eq,
    not_true_eq_false, if_false, if_neg hbig, hidx]
  have hnext : NodeKind.internal = .ofHeight (h + 1) := rfl
  obtain ⟨⟨kb, tb⟩, post, rfl⟩ := List.exists_cons_of_ne_nil (l := post)
    (by rintro rfl; simp at htwo)
  have hzb : tb.Sized hdr.bounds false := (List.forall_mem_cons.mp hcpost).1
  have hzb1 := hzb.lo
  rw [lo_false] at hzb1
  have hnb : ((s.pinned p).node p).valueAt (if ([] : List (Key α × IndexTree α h)).length = 0
      then 1 else ([] : List (Key α × IndexTree α h)).length - 1) = tb.page := by
    rw [hv.pinned.node]; simp [IndexNode.valueAt, hch]
  have hbm := hl.pair.1.2.2
  have hl' := (hl.pinned p).pinned tb.page
  obtain ⟨hts, hbs, hps, hmax'⟩ := hl'.pair_sizes
  have hps1 := (hl.pinned p).pair_sizes.2.2.1
  rw [hnb]
  simp only [hv.pinned.getPage hbm, hmax', hbs, not_true_eq_false, if_false, List.length_nil,
    hps1]
  by_cases hshare : hdr.bounds.hi h < t.size + tb.size
  · simp only [if_pos hshare]
    obtain ⟨s', nd', k', ta', tb', e1, hl1, hsh, hpages⟩ :=
      hl'.redistribute_first (by omega) (by omega) hb hzb.below
    have := hzb.hi
    rw [e1]
    refine ⟨?_, (hl1.balanced_redistribute e1 hpages).of_pinned (List.Perm.swap _ _ _), by omega,
      by omega, by simp; omega, by rw [hts, hmax']; omega, by rw [hbs]; omega,
      by rw [hps, hbs]; simp; omega⟩
    refine hl1.shared_valid (by simpa using hclo)
      (by simpa [IndexFileHeader.bounds] using hchi) hcpre
      (List.forall_mem_cons.mp hcpost).2 hcup hsh ?_ ?_ <;> rw [lo_false] <;> omega
  · simp only [if_neg hshare]
    obtain ⟨s', nd', t', hm, hl1, hsz', hb', hent, hperm⟩ :=
      hl'.coalesce (by omega) (by omega) hb hzb.below
    simp only [hm.coalesce_first, not_true_eq_false, if_false]
    rw [Path.entries_pair, ← hent, ← Path.entries_plug, hnext]
    have hl2 : Loose S s' hdr nd' (up.plug (.inner p ([] ++ (k, t') :: post))) := hl1
    simp only [List.length_nil, List.length_cons] at hclo hchi
    have ht' : Tree.Sized hdr.bounds false t' := ⟨by rw [lo_false]; omega, by omega, hb'⟩
    obtain ⟨hbelow, hhi', hlo'⟩ := merged_parent (p := p) (k := k) up.isTop hcpre ht'
      (List.forall_mem_cons.mp hcpost).2 (by simp only [List.length_nil]; omega)
      (by simp only [List.length_nil, Tree.Bounds.hi, IndexFileHeader.bounds] at hchi ⊢; omega)
    obtain ⟨hrep, hbal, hchk⟩ := ih hf hl2 hcup hbelow hhi' hlo'
    refine ⟨hrep, (hm.balanced hl'.view hbm hl'.pair.2.1.2.2.symm hperm hbal).of_pinned ?_,
      by omega, by omega, by simp; omega, ⟨by rw [hps]; simp; omega, by rw [hts, hbs, hmax']; omega⟩, hchk⟩
    exact (List.reverse_perm _).symm.trans ((List.Perm.swap _ _ _).cons _)

/-- The node is too small and has a neighbour on the left, which becomes the hole. -/
theorem Mends.later {ka : Key α} {ta : IndexTree α h} (ha : Agrees cmp S) (hr : hdr.Roomy) (ih : Mends cmp S hdr up)
    (hf : up.depth < fuel) (hl : Loose S s hdr nd ((Path.step p (pre ++ [(ka, ta)]) k post up).plug t))
    (hc : (Path.step p (pre ++ [(ka, ta)]) k post up).Sized hdr.bounds) (hb : Tree.Below hdr.bounds t)
    (hhi : t.size ≤ hdr.bounds.hi h) (hlo : hdr.bounds.lo false h ≤ t.size + 1)
    (hbig : ¬hdr.bounds.hi h - hdr.bounds.hi h / 2 ≤ t.size) :
    Mended cmp S hdr (Path.step p (pre ++ [(ka, ta)]) k post up) t s (fuel + 1) := by
  have h4 := hr.leaf
  have hhi4 := hr.four_le_hi h
  rw [lo_false] at hlo
  have hv := hl.view
  obtain ⟨⟨⟨-, -, hch⟩, -⟩, -⟩ := (holds_plug _ _).mp hl.holds
  obtain ⟨hpar, hsz, hmax, hget, hidx⟩ := hl.reads ha
  replace hidx := hidx (fun _ => by omega) (fun h0 => by have := hr.six_le_hi h0; omega)
  obtain ⟨hclo, hchi, hcpre, hcpost, hcup⟩ := hc
  simp only [Mended, coalesceOrRedistribute, coalesceOrRedistributeChecks, hpar, hsz, minSize, hmax, hget, ne_eq,
    not_true_eq_false, if_false, if_neg hbig, hidx]
  have hnext : NodeKind.internal = .ofHeight (h + 1) := rfl
  have hplug : (Path.step p (pre ++ [(ka, ta)]) k post up).plug t =
      (Path.step p pre ka ((k, t) :: post) up).plug ta := by
    simp [Path.plug]
  rw [hplug] at hl hv ⊢
  simp only [List.length_append, List.length_cons, List.length_nil] at hclo hchi ⊢
  have hza : ta.Sized hdr.bounds false := hcpre (ka, ta) (by simp)
  have hza1 := hza.lo
  rw [lo_false] at hza1
  have hnb : ((s.pinned p).node p).valueAt (if pre.length + (0 + 1) = 0
      then 1 else pre.length + (0 + 1) - 1) = ta.page := by
    rw [hv.pinned.node]; simp [IndexNode.valueAt, hch]
  have ham := hl.pair.1.2.1
  have hl' := (hl.pinned p).pinned ta.page
  obtain ⟨has, hts, hps, hmax'⟩ := hl'.pair_sizes
  have hps1 := (hl.pinned p).pair_sizes.2.2.1
  rw [hnb]
  simp only [hv.pinned.getPage ham, hmax', has, not_true_eq_false, if_false, Nat.zero_add,
    hps1]
  have hcfront : ∀ it ∈ pre, Tree.Sized hdr.bounds false it.2 := fun it hit =>
    hcpre it (List.mem_append_left _ hit)
  by_cases hshare : hdr.bounds.hi h < t.size + ta.size
  · simp only [if_pos hshare]
    obtain ⟨s', nd', k', ta', tb', e1, hl1, hsh, hpages⟩ :=
      hl'.redistribute_last (by omega) (by omega) hza.below hb
    have := hza.hi
    rw [e1]
    refine ⟨?_, (hl1.balanced_redistribute e1 hpages).of_pinned (List.Perm.swap _ _ _), by omega,
      by omega, by simp; omega, by rw [hts, hmax']; omega, by rw [has]; omega,
      by rw [hps, if_neg (Nat.succ_ne_zero _)]; omega⟩
    refine hl1.shared_valid (by omega) (le_trans (by omega) hchi) hcfront hcpost hcup hsh ?_ ?_ <;>
      rw [lo_false] <;> omega
  · simp only [if_neg hshare]
    obtain ⟨s', nd', t', hm, hl1, hsz', hb', hent, hperm⟩ :=
      hl'.coalesce (by omega) (by omega) hza.below hb
    simp only [hm.coalesce_later, not_true_eq_false, if_false]
    rw [Path.entries_pair, ← hent, ← Path.entries_plug, hnext]
    have hl2 : Loose S s' hdr nd' (up.plug (.inner p (pre ++ (ka, t') :: post))) := hl1
    have ht' : Tree.Sized hdr.bounds false t' := ⟨by rw [lo_false]; omega, by omega, hb'⟩
    obtain ⟨hbelow, hhi', hlo'⟩ := merged_parent (p := p) (k := ka) up.isTop hcfront ht' hcpost
      (by omega) (by simp only [Tree.Bounds.hi, IndexFileHeader.bounds] at hchi ⊢; omega)
    obtain ⟨hrep, hbal, hchk⟩ := ih hf hl2 hcup hbelow hhi' hlo'
    exact ⟨hrep, (hm.balanced hl'.view hl.pair.1.2.2 hl'.pair.2.1.2.2.symm hperm
      hbal).of_pinned ((List.Perm.swap _ _ _).cons _), by omega, by omega, by simp; omega,
      ⟨by rw [hps, if_neg (Nat.succ_ne_zero _)]; omega, by rw [hts, has, hmax']; omega⟩,
      hchk⟩

theorem Mends.step (ha : Agrees cmp S) (hr : hdr.Roomy) (ih : Mends cmp S hdr up) :
    Mends cmp S hdr (Path.step p pre k post up) := by
  intro t s nd fuel hf hl hc hb hhi hlo
  obtain ⟨fuel, rfl⟩ := Nat.exists_eq_succ_of_ne_zero (Nat.ne_of_gt (Nat.zero_lt_of_lt hf))
  have hfuel : up.depth < fuel := by simpa [Path.depth] using hf
  by_cases hbig : hdr.bounds.hi h - hdr.bounds.hi h / 2 ≤ t.size
  · obtain ⟨-, hsz, hmax, -, -⟩ := hl.reads ha
    simp only [Mended, coalesceOrRedistribute, coalesceOrRedistributeChecks, hsz, minSize, hmax, if_pos hbig, and_true]
    refine ⟨Repaired.of_valid ((hl.unpinPage _).plug_valid hc ⟨?_, hhi, hb⟩), hl.balanced_unpinPage⟩
    simp only [Path.isTop, lo_false]
    omega
  · rcases List.eq_nil_or_concat pre with rfl | ⟨pre', ⟨ka, ta⟩, rfl⟩
    · exact ih.first ha hr hfuel hl hc hb hhi hlo hbig
    · rw [List.concat_eq_append] at *
      exact ih.later ha hr hfuel hl hc hb hhi hlo hbig

end Mend

/-- `CoalesceOrRedistribute` on a node that may be too small by one item: the tree is repaired, and no
assertion on the way fails. -/
theorem coalesceOrRedistribute_spec (ha : Agrees cmp S) (hr : hdr.Roomy) {c : IndexPath α m h} :
    ∀ {t : IndexTree α h} {s : BplusTreeHandler α} {nd : PageId → IndexNode α} {fuel : Nat},
      c.depth < fuel → Loose S s hdr nd (c.plug t) → c.Sized hdr.bounds →
      Tree.Below hdr.bounds t → t.size ≤ hdr.bounds.hi h → hdr.bounds.lo c.isTop h ≤ t.size + 1 →
      Repaired S hdr (c.plug t).entries
        (coalesceOrRedistribute cmp fuel (.ofHeight h) t.page s) ∧
      Balanced s [t.page] (c.plug t).pages
        (coalesceOrRedistribute cmp fuel (.ofHeight h) t.page s).2 ∧
      coalesceOrRedistributeChecks cmp fuel (.ofHeight h) t.page s := by
  have hmends : Mends cmp S hdr c := by
    induction c with
    | top => exact mends_top hr
    | step p pre k post up ih => exact ih.step ha hr
  intro t s nd fuel hf hl hc hb hhi hlo
  exact hmends hf hl hc hb hhi hlo

/-! ## `DeleteEntry` -/

omit [Inhabited α] in
theorem leafRemove_spec (ha : Agrees cmp S) {n : IndexNode α} {x : Key α}
    (hS : ∀ e ∈ n.entries, e.1 ∈ S) (hx : x ∈ S) (hs : (n.entries.map Prod.fst).Pairwise (· < ·)) :
    (∃ A v B, n.entries = A ++ (x, v) :: B ∧ n.leafRemove cmp x = (1, { n with entries := A ++ B })) ∨
    ((∀ e ∈ n.entries, e.1 ≠ x) ∧ n.leafRemove cmp x = (0, n)) := by
  obtain ⟨A, B, hn, hlen, hA, hB⟩ := leafLookUp_spec ha hS hx hs
  rcases hl : n.leafLookUp cmp x with ⟨i, found⟩
  rw [hl] at hlen hB
  rcases hB with ⟨hf, hB⟩ | ⟨hf, v, B', rfl, -⟩
  · refine .inr ⟨fun e he => ?_, by simp [IndexNode.leafRemove, hl, show found = false from hf]⟩
    rw [hn] at he
    rcases List.mem_append.mp he with he | he
    · exact ne_of_lt (hA e he)
    · exact ne_of_gt (hB e he)
  · refine .inl ⟨A, v, B', hn, ?_⟩
    simp only [IndexNode.leafRemove, hl, show found = true from hf, if_true, hn,
      show i = A.length from hlen, List.eraseIdx_append_of_length_le (le_refl _), Nat.sub_self,
      List.eraseIdx_cons_zero]

/-- `DeleteEntryInternal` on the leaf where the key belongs. -/
theorem deleteEntryInternal_spec (ha : Agrees cmp S) (hr : hdr.Roomy) {c : IndexPath α m 0}
    {p : PageId} {es : List (Key α × RecordId)} (h : Valid S s hdr nd (c.plug (.leaf p es)))
    {x : Key α} (hx : x ∈ S) (hc : c.Around x) :
    ((∃ A w B, es = A ++ (x, w) :: B ∧
        Repaired S hdr (c.plug (.leaf p (A ++ B))).entries (deleteEntryInternal cmp p x s)) ∨
      ((∀ e ∈ (c.plug (.leaf p es)).entries, e.1 ≠ x) ∧
        (deleteEntryInternal cmp p x s).1 = .recordRecordNotExist ∧
        Valid S (deleteEntryInternal cmp p x s).2 hdr nd (c.plug (.leaf p es)))) ∧
    Balanced s [p] (c.plug (.leaf p es)).pages (deleteEntryInternal cmp p x s).2 ∧
    deleteEntryInternalChecks cmp p x s := by
  have hv := h.view
  obtain ⟨hl1, hl2, hl3⟩ := holds_leaf.mp ((holds_plug _ _).mp h.holds).2
  have hp : p ∈ (c.plug (.leaf p es)).pages := (c.pages_plug _).mem_iff.mpr (by simp)
  have hs := Path.sorted_plug.mp h.sorted
  have hk : ∀ k ∈ c.left ++ (Tree.leaf p es).marks ++ c.right, k.key ∈ S := fun k hk =>
    h.keys _ (Tree.key_mem_keys (by rwa [Path.marks_plug]))
  have hkS : ∀ e ∈ (nd p).entries, e.1 ∈ S := fun e he =>
    hk (ent e.1) (by simp [← hl3, List.mem_map_of_mem he])
  have hsorted : ((nd p).entries.map Prod.fst).Pairwise (· < ·) := by
    rw [hl3, List.pairwise_map]
    simpa [Tree.Sorted, List.pairwise_map] using Path.sorted_of_plug h.sorted
  -- a found entry has an index in the leaf
  have hfound : ((nd p).leafLookUp cmp x).2 = true → ((nd p).leafLookUp cmp x).1 < (nd p).size := by
    intro hf
    obtain ⟨A, B, hn, hpos, -, hB⟩ := leafLookUp_spec ha hkS hx hsorted
    rcases hB with ⟨hf', -⟩ | ⟨-, v, B', rfl, -⟩
    · rw [hf] at hf'
      cases hf'
    · rw [hpos, IndexNode.size, hl1, hn]
      simp
  have hrem := leafRemove_spec (n := nd p) ha hkS hx hsorted
  rcases hrem with ⟨A, w, B, hes, hrem⟩ | ⟨hnot, hrem⟩
  · rw [hl3] at hes
    subst hes
    have hv2 := (hv.setNode hp { nd p with entries := A ++ B }).dirtyMark (p := p)
    have hsub : (c.left ++ (A ++ B).map (fun e => ent e.1) ++ c.right).Sublist
        (c.left ++ (Tree.leaf p (A ++ (x, w) :: B)).marks ++ c.right) := by
      refine List.Sublist.append_right (List.Sublist.append_left ?_ _) _
      exact (List.Sublist.append_left (List.sublist_cons_self _ _) _).map _
    have hl := h.loose.set_leaf hv2 (Function.update_self _ _ _)
      (fun r hr => Function.update_of_ne hr _ _) (hs.sublist hsub) fun k hkm => hk k (hsub.subset hkm)
    have hsz := (c.sized_plug _ _).mp h.sized
    have hlen : (A ++ B).length + 1 = (A ++ (x, w) :: B).length := by simp; omega
    have hlo := hsz.2.lo
    have hhi := hsz.2.hi
    simp only [Tree.size_leaf, ← hlen] at hlo hhi
    have hsize : (((s.setNode p { nd p with entries := A ++ B }).dirtyMark p).node p).size =
        (A ++ B).length := by
      rw [hv2.node, Function.update_self]; simp [IndexNode.size, hl1]
    have hmin : ((s.setNode p { nd p with entries := A ++ B }).dirtyMark p).minSize .leaf =
        hdr.leafMaxSize - hdr.leafMaxSize / 2 := by
      rw [minSize, maxSize, hv2.fileHeader]
    simp only [deleteEntryInternal, deleteEntryInternalChecks, hv.node, hrem, Nat.one_ne_zero,
      if_false, hsize, hmin]
    have h4 := hr.leaf
    have hremoved : ∀ r, Balanced ((s.setNode p { nd p with entries := A ++ B }).dirtyMark p) [p]
        (c.plug (.leaf p (A ++ B))).pages r →
        Balanced s [p] (c.plug (.leaf p (A ++ (x, w) :: B))).pages r := by
      intro r hr n hacc
      refine hr n (Accounts.mono (Accounts.dirtyMark (PagePool.Accounts.setData hacc _)) fun q hq => ?_)
      simp only [inUse, List.mem_cons, (c.pages_plug _).mem_iff, Tree.pages_leaf] at hq ⊢
      exact hq
    by_cases hbig : hdr.leafMaxSize - hdr.leafMaxSize / 2 ≤ (A ++ B).length
    · simp only [if_pos hbig]
      refine ⟨.inl ⟨A, w, B, rfl, Repaired.of_valid ((hl.unpinPage p).plug_valid hsz.1
        ⟨?_, ?_, Tree.below_leaf _ _ _⟩)⟩, hremoved _ hl.balanced_unpinPage, hfound, trivial⟩
      · cases c.isTop <;> simp only [Tree.Bounds.lo, IndexFileHeader.bounds, Tree.size_leaf] <;> omega
      · exact le_trans (Nat.le_succ _) hhi
    · simp only [if_neg hbig]
      have hdepth : c.depth < ((s.setNode p { nd p with entries := A ++ B }).dirtyMark p).fuel := by
        have h2 := hl.view.length_le hl.nodup
        have h3 := c.depth_le_pages
        rw [(c.pages_plug _).length_eq, List.length_append] at h2
        exact Nat.lt_succ_of_le (le_trans h3 (le_trans (Nat.le_add_right _ _) h2))
      obtain ⟨hrep, hbal, hchecks⟩ := coalesceOrRedistribute_spec (h := 0) ha hr hdepth hl hsz.1
        (Tree.below_leaf _ _ _) (le_trans (Nat.le_succ _) hhi) hlo
      exact ⟨.inl ⟨A, w, B, rfl, hrep⟩, hremoved _ hbal, hfound, hchecks⟩
  · have hv2 := (hv.setNode hp (nd p)).unpinPage (p := p)
    rw [Function.update_eq_self] at hv2
    simp only [deleteEntryInternal, deleteEntryInternalChecks, hv.node, hrem, if_true, true_and]
    refine ⟨.inr ⟨fun e he => ?_, { h with view := hv2 }⟩, fun n hacc => ?_, hfound, trivial⟩
    swap
    · exact Accounts.settled (Accounts.unpinPage (PagePool.Accounts.setData hacc _)) hv2 h.holds
        fun _ hq => hq
    simp only [Path.entries_plug, Tree.entries_leaf, List.mem_append] at he
    rcases he with (he | he) | he
    · exact hc.not_mem (.inl he)
    · exact hnot e (hl3 ▸ he)
    · exact hc.not_mem (.inr he)

theorem deleteEntry_valid (ha : Agrees cmp S) (hr : hdr.Roomy) {t : IndexTree α m}
    (h : Valid S s hdr nd t) {userKey : α} {rid : RecordId} (hx : (⟨userKey, rid⟩ : Key α) ∈ S) :
    (∃ A w B, t.entries = A ++ (⟨userKey, rid⟩, w) :: B ∧
      Repaired S hdr (A ++ B) (s.deleteEntry cmp userKey rid)) ∨
    ((∀ e ∈ t.entries, e.1 ≠ ⟨userKey, rid⟩) ∧
      (s.deleteEntry cmp userKey rid).1 = .recordRecordNotExist ∧
      Valid S (s.deleteEntry cmp userKey rid).2 hdr nd t) := by
  obtain ⟨c, p, es, s1, rfl, hc, hfind, hv1⟩ := findLeaf_spec ha h.keys hx h.view rfl h.holds
    h.sorted h.sized hr.wide h.nodup
  have h1 : Valid S s1 hdr nd (c.plug (.leaf p es)) := { h with view := hv1 }
  simp only [deleteEntry, hfind, ne_eq, not_true_eq_false, if_false]
  rcases (deleteEntryInternal_spec ha hr h1 hx hc).1 with ⟨A, w, B, rfl, hrep⟩ | hnone
  · refine .inl ⟨c.leavesLeft.flatMap Prod.snd ++ A, w, B ++ c.leavesRight.flatMap Prod.snd, ?_, ?_⟩
    · rw [Path.entries_plug, Tree.entries_leaf]
      simp
    · have hent : c.leavesLeft.flatMap Prod.snd ++ A ++ (B ++ c.leavesRight.flatMap Prod.snd) =
          (c.plug (.leaf p (A ++ B))).entries := by
        rw [Path.entries_plug, Tree.entries_leaf]; simp only [List.append_assoc]
      rw [hent]
      exact hrep
  · exact .inr hnone

/-- `DeleteEntry` on a well-formed index, for a comparator that orders the keys in use: if every page
loads, the index is well formed or empty afterwards and the entry is gone, or, if there was none, no
node has changed. -/
theorem deleteEntry_wellFormed {α : Type} [Inhabited α] {cmp : Key α → Key α → Int}
    {S : Set (Key α)} (hcmp : StrictTotalOn cmp S) (s : BplusTreeHandler α)
    (hr : s.fileHeader.Roomy) (m : Nat) (t : IndexTree α m) (hwf : WellFormed cmp s t)
    (hS : ∀ k ∈ t.keys, k ∈ S) (userKey : α) (rid : RecordId) (hx : (⟨userKey, rid⟩ : Key α) ∈ S)
    (hload : s.pool.faults = []) :
    (∃ A w B, t.entries = A ++ (⟨userKey, rid⟩, w) :: B ∧
      (s.deleteEntry cmp userKey rid).1 = .success ∧
      (s.deleteEntry cmp userKey rid).2.fileHeader.bounds = s.fileHeader.bounds ∧
      ((∃ (m' : Nat) (t' : IndexTree α m'), WellFormed cmp (s.deleteEntry cmp userKey rid).2 t' ∧
          t'.entries = A ++ B) ∨
        (A ++ B = [] ∧ IsEmptyTree (s.deleteEntry cmp userKey rid).2))) ∨
    ((∀ e ∈ t.entries, e.1 ≠ ⟨userKey, rid⟩) ∧
      (s.deleteEntry cmp userKey rid).1 = .recordRecordNotExist ∧
      WellFormed cmp (s.deleteEntry cmp userKey rid).2 t ∧
      (s.deleteEntry cmp userKey rid).2.node = s.node ∧
      (s.deleteEntry cmp userKey rid).2.fileHeader = s.fileHeader) := by
  obtain ⟨order, ha⟩ := exists_linearOrder hcmp
  have hb : s.fileHeader.bounds.Wide := hr.wide
  have hval := hwf.valid ha hS hb hload
  rcases deleteEntry_valid ha hr hval hx with ⟨A, w, B, hent, hsucc, hrep⟩ | ⟨hnot, h1, hval'⟩
  · refine .inl ⟨A, w, B, hent, hsucc, ?_⟩
    rcases hrep with ⟨m', t', nd', hval', hent'⟩ | ⟨hempty, nd', hv⟩
    · exact ⟨hval'.bounds_eq, .inl ⟨m', t', hval'.wellFormed ha, hent'⟩⟩
    · refine ⟨by rw [hv.fileHeader]; rfl, .inr ⟨hempty, ?_, hv.stored, hv.sound⟩⟩
      rw [hv.fileHeader]
  · refine .inr ⟨hnot, h1, hval'.wellFormed ha, hval'.view.node, ?_⟩
    rw [hval'.view.fileHeader, ← hwf.root]

/-- A deletion that merges two leaves, one of a key that is not there, and one of the only entry. -/
theorem deleteEntry_wellFormed_grown :
    (∃ (m : Nat) (t : IndexTree Int m),
      WellFormed numberComparator ((grown 14).deleteEntry numberComparator 0 ⟨1, 0⟩).2 t ∧ t.entries.length = 13) ∧
    ((grown 14).deleteEntry numberComparator 14 ⟨1, 14⟩).1 = .recordRecordNotExist ∧
    IsEmptyTree ((grown 1).deleteEntry numberComparator 0 ⟨1, 0⟩).2 := by
  have hmany := grown_wellFormed 13 (by decide +kernel)
  have hone := grown_wellFormed 0 (by decide +kernel)
  have hgone : ((grown (0 + 1)).deleteEntry numberComparator 0 ⟨1, 0⟩).2.fileHeader.rootPageId = none := by
    decide +kernel
  refine ⟨?_, ?_, ?_⟩
  · obtain ⟨hload, hbounds, m, t, hwf, hent⟩ := hmany
    have hin : (⟨0, ⟨1, 0⟩⟩, ⟨1, 0⟩) ∈ t.entries := by
      rw [hent]
      decide
    have hlen : t.entries.length = 14 := by
      rw [hent, List.length_map, List.length_range]
    generalize grown (13 + 1) = s at *
    have hb := Tree.Bounds.mk.inj hbounds
    rcases deleteEntry_wellFormed numberComparator_strictTotal s ⟨hb.1.ge, hb.2.ge⟩ m t hwf (fun _ _ => trivial) 0
      ⟨1, 0⟩ trivial hload with ⟨A, w, B, hAB, -, -, htree⟩ | ⟨hnot, -⟩
    · rw [hAB, List.length_append, List.length_cons, ← Nat.add_assoc, Nat.add_right_cancel_iff] at hlen
      rcases htree with ⟨m', t', hwf', hent'⟩ | ⟨hnil, -⟩
      · refine ⟨m', t', hwf', ?_⟩
        rw [hent', List.length_append]
        exact hlen
      · rw [← List.length_append, hnil] at hlen
        cases hlen
    · exact absurd rfl (hnot _ hin)
  · obtain ⟨hload, hbounds, m, t, hwf, hent⟩ := hmany
    have hout : ∀ e ∈ t.entries, e.1 ≠ ⟨14, ⟨1, 14⟩⟩ := by
      rw [hent]
      decide
    generalize grown (13 + 1) = s at *
    have hb := Tree.Bounds.mk.inj hbounds
    rcases deleteEntry_wellFormed numberComparator_strictTotal s ⟨hb.1.ge, hb.2.ge⟩ m t hwf (fun _ _ => trivial) 14
      ⟨1, 14⟩ trivial hload with ⟨A, w, B, hAB, -⟩ | ⟨-, hcode, -⟩
    · exact absurd rfl (hout (_, w) (by rw [hAB]; simp))
    · exact hcode
  · obtain ⟨hload, hbounds, m, t, hwf, hent⟩ := hone
    have hin : (⟨0, ⟨1, 0⟩⟩, ⟨1, 0⟩) ∈ t.entries := by
      rw [hent]
      decide
    generalize grown (0 + 1) = s at *
    have hb := Tree.Bounds.mk.inj hbounds
    rcases deleteEntry_wellFormed numberComparator_strictTotal s ⟨hb.1.ge, hb.2.ge⟩ m t hwf (fun _ _ => trivial) 0
      ⟨1, 0⟩ trivial hload with ⟨A, w, B, -, -, -, htree⟩ | ⟨hnot, -⟩
    · rcases htree with ⟨m', t', hwf', -⟩ | ⟨-, hempty⟩
      · rw [hwf'.root] at hgone
        cases hgone
      · exact hempty
    · exact absurd rfl (hnot _ hin)

end BplusTreeHandler

end Idmbs
