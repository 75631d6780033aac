import Idmbs.BPlusTree.Lookup
import Mathlib.Data.List.Flatten

/-!
# Idmbs.BPlusTree.Siblings

What `Redistribute` and `Coalesce` do to two neighbouring nodes `ta` and `tb` and their parent `p`.
The left node sits in the hole of the path, the right one is the first item behind the hole. Node
sizes are left out (`Loose`), since one of the nodes is too small meanwhile.
-/

namespace Idmbs

open SearchTree SearchTree.Mark Comparator

namespace BplusTreeHandler

variable {α : Type} [LinearOrder (Key α)]

section Loose

variable {S : Set (Key α)} {s s' : BplusTreeHandler α} {hdr : IndexFileHeader}
  {nd nd' : PageId → IndexNode α} {m h : Nat} {t : IndexTree α m}

/-- The pages of two neighbouring nodes, of their parent and of the rest of the tree are apart. -/
structure Apart (p : PageId) (as bs rest : List PageId) : Prop where
  left : as.Nodup
  right : bs.Nodup
  disjoint : ∀ a ∈ as, a ∉ bs
  parent : p ∉ as ∧ p ∉ bs
  others : ∀ r ∈ rest, r ≠ p ∧ r ∉ as ∧ r ∉ bs
  othersNodup : rest.Nodup

theorem Loose.apart {p : PageId} {pre post : List (Key α × IndexTree α h)} {ka kb : Key α}
    {ta tb : IndexTree α h} {up : IndexPath α m (h + 1)}
    (hl : Loose S s hdr nd ((Path.step p pre ka ((kb, tb) :: post) up).plug ta)) :
    Apart p ta.pages tb.pages (Tree.itemPages pre ++ Tree.itemPages post ++ up.pages) := by
  have hperm := Path.pages_pair p pre post ka kb up ta tb
  obtain ⟨h1, h2, h3⟩ := List.nodup_append.mp (hperm.nodup_iff.mp hl.nodup)
  obtain ⟨h4, h5⟩ := List.nodup_cons.mp h1
  obtain ⟨h6, h7, h8⟩ := List.nodup_append.mp h5
  rw [List.mem_append, not_or] at h4
  refine ⟨h6, h7, fun a ha hb => h8 a ha a hb rfl, h4, fun r hr => ⟨?_, ?_, ?_⟩, h2⟩
  · exact fun e => h3 p (by simp) r hr e.symm
  · exact fun hm => h3 r (by simp [hm]) r hr rfl
  · exact fun hm => h3 r (by simp [hm]) r hr rfl

/-- The two nodes and their parent are rewritten; `p` keeps its parent, and elsewhere at most links
between leaves change. -/
theorem Loose.rewrite {p : PageId} {pre : List (Key α × IndexTree α h)}
    {ka : Key α} {ta ta' : IndexTree α h} {rest rest' : List (Key α × IndexTree α h)}
    {up : IndexPath α m (h + 1)}
    (hl : Loose S s hdr nd ((Path.step p pre ka rest up).plug ta))
    (hv : View s' ((Path.step p pre ka rest' up).plug ta').pages
      { hdr with rootPageId := some ((Path.step p pre ka rest up).plug ta).page }
      (some ((Path.step p pre ka rest up).plug ta).page) nd')
    (hsub : ((Path.step p pre ka rest' up).plug ta').pages.Nodup)
    (fp : (nd' p).IsInnerWith up.parent (childLinks (pre ++ (ka, ta') :: rest')))
    (fup : ∀ r ∈ up.pages, IndexNode.Same (nd r) (nd' r))
    (fpre : ∀ it ∈ pre, ∀ r ∈ it.2.pages, IndexNode.Same (nd r) (nd' r))
    (fa : Holds nd' (some p) ta') (fr : ∀ it ∈ rest', Holds nd' (some p) it.2)
    (hfa : ta'.FirstKey (Path.step p pre ka rest up).expected)
    (hfr : ∀ it ∈ rest', Tree.FirstKey (some it.1) it.2)
    (hs : ((Path.step p pre ka rest' up).plug ta').Sorted)
    (hk : ∀ k ∈ ((Path.step p pre ka rest' up).plug ta').keys, k ∈ S)
    (hlink : Chain.Linked (fun p => (nd' p).prevBrother) (fun p => (nd' p).nextBrother) none
      (((Path.step p pre ka rest' up).plug ta').leaves.map Prod.fst) none) :
    Loose S s' hdr nd' ((Path.step p pre ka rest' up).plug ta') := by
  have hpage : ((Path.step p pre ka rest' up).plug ta').page =
      ((Path.step p pre ka rest up).plug ta).page := up.page_plug rfl
  obtain ⟨⟨-, hpre, -, hup⟩, -⟩ := (holds_plug _ _).mp hl.holds
  obtain ⟨⟨h1, h2, h3, -⟩, -⟩ := (Path.firstKey_plug _ _).mp hl.firstKey
  refine ⟨?_, hsub, (holds_plug _ _).mpr ⟨⟨?_, ?_, fr, hup.congr fup⟩, fa⟩,
    (Path.firstKey_plug _ _).mpr ⟨⟨h1, h2, h3, hfr⟩, ?_⟩, hs, hk, hlink⟩
  · rw [hpage]; exact hv
  · simpa using fp
  · exact fun it hit => (hpre it hit).congr (fpre it hit)
  · cases pre <;> exact hfa

end Loose

/-! ## Two leaves -/

section Leaves

variable {S : Set (Key α)} {s s' : BplusTreeHandler α} {hdr : IndexFileHeader}
  {nd nd' : PageId → IndexNode α} {m : Nat} {p pa pb : PageId}
  {pre post : List (Key α × IndexTree α 0)} {ka kb : Key α} {up : IndexPath α m 1}
  {A B A' B' : List (Key α × RecordId)} {e : Key α × RecordId}

/-- The entries of two neighbouring leaves in a row, without the separator between them. -/
theorem Loose.leaf_marks
    (hl : Loose S s hdr nd ((Path.step p pre ka ((kb, .leaf pb B) :: post) up).plug (.leaf pa A))) :
    ((Path.step p pre ka ((kb, .leaf pb B) :: post) up).left ++ (A ++ B).map (fun e => ent e.1) ++
      (Tree.itemMarks post ++ up.right)).Pairwise (· < ·) ∧
    ∀ k ∈ (Path.step p pre ka ((kb, .leaf pb B) :: post) up).left ++
      (A ++ B).map (fun e => ent e.1) ++ (Tree.itemMarks post ++ up.right), k.key ∈ S := by
  have hs := Path.sorted_plug.mp hl.sorted
  have hk : ∀ k ∈ ((Path.step p pre ka ((kb, .leaf pb B) :: post) up).plug (.leaf pa A)).marks,
      k.key ∈ S := fun k hk => hl.keys _ (Tree.key_mem_keys hk)
  rw [Path.marks_plug] at hk
  have hsub : ((Path.step p pre ka ((kb, .leaf pb B) :: post) up).left ++
      (A ++ B).map (fun e => ent e.1) ++ (Tree.itemMarks post ++ up.right)).Sublist
      ((Path.step p pre ka ((kb, .leaf pb B) :: post) up).left ++ (Tree.leaf pa A).marks ++
        (Path.step p pre ka ((kb, .leaf pb B) :: post) up).right) := by
    simp only [Path.right, Tree.itemMarks_cons, Tree.marks_leaf, List.map_append,
      List.append_assoc, List.cons_append]
    exact List.Sublist.append_left (List.Sublist.append_left (List.sublist_cons_self _ _) _) _
  exact ⟨hs.sublist hsub, fun k hkm => hk k (hsub.subset hkm)⟩

theorem Loose.share_leaves
    (hl : Loose S s hdr nd ((Path.step p pre ka ((kb, .leaf pb B) :: post) up).plug (.leaf pa A)))
    (hAB : A ++ B = A' ++ e :: B') (hA : A' ≠ [])
    (hv : View s' ((Path.step p pre ka ((kb, .leaf pb B) :: post) up).plug (.leaf pa A)).pages
      { hdr with
        rootPageId := some ((Path.step p pre ka ((kb, .leaf pb B) :: post) up).plug (.leaf pa A)).page }
      (some ((Path.step p pre ka ((kb, .leaf pb B) :: post) up).plug (.leaf pa A)).page) nd')
    (fp : nd' p = { nd p with
      children := childLinks (pre ++ (ka, .leaf pa A') :: (e.1, .leaf pb (e :: B')) :: post) })
    (fa : nd' pa = { nd pa with entries := A' }) (fb : nd' pb = { nd pb with entries := e :: B' })
    (fr : ∀ r, r ≠ p → r ≠ pa → r ≠ pb → nd' r = nd r) :
    Loose S s' hdr nd'
      ((Path.step p pre ka ((e.1, .leaf pb (e :: B')) :: post) up).plug (.leaf pa A')) := by
  have hap := hl.apart
  simp only [Tree.pages_leaf] at hap
  obtain ⟨-, -, hdis, ⟨hpa, hpb⟩, hrest, -⟩ := hap
  rw [List.mem_singleton] at hpa hpb
  have hab : pa ≠ pb := by simpa using hdis pa (by simp)
  obtain ⟨hms, hmk⟩ := hl.leaf_marks
  obtain ⟨⟨hp, hpre, hpost, hup⟩, hla⟩ := (holds_plug _ _).mp hl.holds
  have hsame : ∀ r ∈ Tree.itemPages pre ++ Tree.itemPages post ++ up.pages, IndexNode.Same (nd r) (nd' r) := fun r hr =>
    .of_eq (fr r (hrest r hr).1 (by simpa using (hrest r hr).2.1) (by simpa using (hrest r hr).2.2))
  have hpages : ((Path.step p pre ka ((e.1, .leaf pb (e :: B')) :: post) up).plug
      (.leaf pa A')).pages.Perm
      ((Path.step p pre ka ((kb, .leaf pb B) :: post) up).plug (.leaf pa A)).pages :=
    (Path.pages_pair p pre post ka e.1 up (.leaf pa A') (.leaf pb (e :: B'))).trans
      (Path.pages_pair p pre post ka kb up (.leaf pa A) (.leaf pb B)).symm
  have hpost' := List.forall_mem_cons.mp hpost
  obtain ⟨L, l, rfl⟩ := (List.eq_nil_or_concat A').resolve_left hA
  rw [List.concat_eq_append] at *
  have hlist : ((Path.step p pre ka ((e.1, .leaf pb (e :: B')) :: post) up).plug
      (.leaf pa (L ++ [l]))).marks =
      ((Path.step p pre ka ((kb, .leaf pb B) :: post) up).left ++ L.map fun e => ent e.1) ++
        ent l.1 :: sep e.1 :: ent e.1 :: ((B'.map fun e => ent e.1) ++
          (Tree.itemMarks post ++ up.right)) := by
    simp [Path.marks_plug, Path.left, Path.right]
  rw [hAB] at hms hmk
  refine hl.rewrite (hv.mono fun r hr => hpages.mem_iff.mp hr) (hpages.nodup_iff.mpr hl.nodup) ?_
    (fun r hr => hsame r (by simp [hr]))
    (fun it hit r hr => hsame r (by simpa [Tree.itemPages] using .inl ⟨_, _, hit, hr⟩)) ?_ ?_
    (Tree.firstKey_leaf _ _ _) ?_ ?_ ?_ ?_
  · rw [fp]; exact ⟨hp.1, hp.2.1, rfl⟩
  · refine holds_leaf.mpr ?_
    rw [fa]; exact ⟨hla.1, hla.2.1, rfl⟩
  · refine List.forall_mem_cons.mpr ⟨holds_leaf.mpr ?_, fun it hit => ?_⟩
    · rw [fb]; exact ⟨hpost'.1.1, hpost'.1.2.1, rfl⟩
    · refine (hpost'.2 it hit).congr fun r hr => hsame r ?_
      simpa [Tree.itemPages] using .inr (.inl ⟨_, _, hit, hr⟩)
  · obtain ⟨⟨-, -, -, hfk⟩, -⟩ := (Path.firstKey_plug _ _).mp hl.firstKey
    exact List.forall_mem_cons.mpr ⟨Tree.firstKey_leaf _ _ _, (List.forall_mem_cons.mp hfk).2⟩
  · rw [Tree.Sorted, hlist]
    exact Path.pairwise_sep (by simpa using hms)
  · intro k hkm
    obtain ⟨mk, hmk', rfl⟩ := List.mem_map.mp hkm
    rw [hlist] at hmk'
    by_cases he : mk = sep e.1
    · exact he ▸ hmk (ent e.1) (by simp)
    · refine hmk mk ?_
      simp only [List.mem_append, List.mem_cons, List.map_append, List.map_cons, List.map_nil,
        List.not_mem_nil, or_false] at hmk' ⊢
      tauto
  · have hlink := hl.linked
    simp only [Path.leaves_plug, Tree.leaves_leaf, Path.leavesLeft, Path.leavesRight,
      List.map_append, List.flatMap_cons, List.map_cons] at hlink ⊢
    refine hlink.congr fun r _ => ?_
    by_cases h1 : r = p
    · rw [h1, fp]; exact ⟨rfl, rfl⟩
    · by_cases h2 : r = pa
      · rw [h2, fa]; exact ⟨rfl, rfl⟩
      · by_cases h3 : r = pb
        · rw [h3, fb]; exact ⟨rfl, rfl⟩
        · rw [fr r h1 h2 h3]; exact ⟨rfl, rfl⟩

/-- The right leaf merged into the left one; `pb` leaves the tree. -/
theorem Loose.merge_leaves
    (hl : Loose S s hdr nd ((Path.step p pre ka ((kb, .leaf pb B) :: post) up).plug (.leaf pa A)))
    (hv : View s' ((Path.step p pre ka post up).plug (.leaf pa (A ++ B))).pages
      { hdr with
        rootPageId := some ((Path.step p pre ka ((kb, .leaf pb B) :: post) up).plug (.leaf pa A)).page }
      (some ((Path.step p pre ka ((kb, .leaf pb B) :: post) up).plug (.leaf pa A)).page) nd')
    (fp : nd' p = { nd p with
      children := childLinks (pre ++ (ka, .leaf pa (A ++ B)) :: post) })
    (fa : nd' pa = { nd pa with entries := A ++ B, nextBrother := (nd pb).nextBrother })
    (fr : ∀ r, r ≠ p → r ≠ pa → r ≠ pb → nd' r = relink nd pa (nd pb).nextBrother r) :
    Loose S s' hdr nd' ((Path.step p pre ka post up).plug (.leaf pa (A ++ B))) := by
  have hap := hl.apart
  simp only [Tree.pages_leaf] at hap
  obtain ⟨-, -, hdis, ⟨hpa, hpb⟩, hrest, -⟩ := hap
  rw [List.mem_singleton] at hpa hpb
  have hab : pa ≠ pb := by simpa using hdis pa (by simp)
  obtain ⟨hms, hmk⟩ := hl.leaf_marks
  obtain ⟨⟨hp, hpre, hpost, hup⟩, hla⟩ := (holds_plug _ _).mp hl.holds
  have hpost' := List.forall_mem_cons.mp hpost
  have hsame : ∀ r ∈ Tree.itemPages pre ++ Tree.itemPages post ++ up.pages,
      IndexNode.Same (nd r) (nd' r) := by
    intro r hr
    obtain ⟨h1, h2, h3⟩ := hrest r hr
    rw [fr r h1 (by simpa using h2) (by simpa using h3)]
    exact relink_same _ _ _
  have hpages := Path.pages_merge p pre post ka kb up (.leaf pa A) (.leaf pb B)
    (t := .leaf pa (A ++ B)) (q := pb) (List.Perm.swap pb pa [])
  have hnd := hpages.nodup_iff.mp hl.nodup
  have hlist : ((Path.step p pre ka post up).plug (.leaf pa (A ++ B))).marks =
      (Path.step p pre ka ((kb, .leaf pb B) :: post) up).left ++ (A ++ B).map (fun e => ent e.1) ++
        (Tree.itemMarks post ++ up.right) := by
    simp [Path.marks_plug, Path.left, Path.right]
  refine hl.rewrite hv (List.nodup_cons.mp hnd).2 ?_ (fun r hr => hsame r (by simp [hr]))
    (fun it hit r hr => hsame r (by simpa [Tree.itemPages] using .inl ⟨_, _, hit, hr⟩)) ?_ ?_
    (Tree.firstKey_leaf _ _ _) ?_ ?_ ?_ ?_
  · rw [fp]; exact ⟨hp.1, hp.2.1, rfl⟩
  · refine holds_leaf.mpr ?_
    rw [fa]; exact ⟨hla.1, hla.2.1, rfl⟩
  · refine fun it hit => (hpost'.2 it hit).congr fun r hr => hsame r ?_
    simpa [Tree.itemPages] using .inr (.inl ⟨_, _, hit, hr⟩)
  · obtain ⟨⟨-, -, -, hfk⟩, -⟩ := (Path.firstKey_plug _ _).mp hl.firstKey
    exact (List.forall_mem_cons.mp hfk).2
  · rw [Tree.Sorted, hlist]; exact hms
  · intro k hkm
    obtain ⟨mk, hmk', rfl⟩ := List.mem_map.mp hkm
    exact hmk mk (hlist ▸ hmk')
  · have hlink := hl.linked
    have hnl := hl.nodup.sublist (Tree.leaves_sublist _)
    have hpl : ∀ r ∈ ((Path.step p pre ka ((kb, .leaf pb B) :: post) up).plug
        (.leaf pa A)).leaves.map Prod.fst, r ≠ p := by
      intro r hr e
      obtain ⟨l, hlm, rfl⟩ := List.mem_map.mp hr
      have h1 := hl.holds.isLeaf_of_mem hlm
      rw [e, hp.1] at h1
      cases h1
    simp only [Path.leaves_plug, Tree.leaves_leaf, Path.leavesLeft, Path.leavesRight,
      List.map_append, List.flatMap_cons, List.map_cons, List.append_assoc,
      List.cons_append, List.nil_append] at hlink hnl hpl ⊢
    rw [← List.append_assoc] at hlink hnl hpl ⊢
    generalize up.leavesLeft.map Prod.fst ++ _ = xs at *
    generalize _ ++ up.leavesRight.map Prod.fst = ys at *
    obtain ⟨hnx, hny, hxy⟩ := List.nodup_append.mp hnl
    obtain ⟨hay, hny⟩ := List.nodup_cons.mp hny
    obtain ⟨hby, hny⟩ := List.nodup_cons.mp hny
    have hnext : (nd pb).nextBrother = ys.head? := by
      have := (Chain.linked_append.mp hlink).2.2.2.2.1
      simpa using this
    have hkeep : ∀ r ∈ xs ++ ys, r ∉ ys.head? → nd' r = nd r := by
      intro r hr hh
      have hm : r ∈ xs ++ pa :: pb :: ys := by
        simp only [List.mem_append, List.mem_cons] at hr ⊢
        tauto
      have h1 : r ≠ pa ∧ r ≠ pb := by
        rcases List.mem_append.mp hr with hr | hr
        · exact ⟨hxy r hr pa (by simp), hxy r hr pb (by simp)⟩
        · exact ⟨fun e => hay (by simp [← e, hr]), fun e => hby (e ▸ hr)⟩
      rw [fr r (hpl r hm) h1.1 h1.2, hnext]
      exact relink_of_notMem hh
    refine hlink.remove ⟨by rw [fa], by rw [fa]⟩ ?_ ?_ ?_
    · intro y hy
      have hym : y ∈ ys := List.mem_of_mem_head? hy
      rw [fr y (hpl y (by simp [hym])) (fun e => hay (by simp [← e, hym])) (fun e => hby (e ▸ hym)),
        hnext, hy]
      simp [relink]
    · intro r hr
      rw [hkeep r (by simp [hr]) fun hh =>
        hxy r hr r (by simp [List.mem_of_mem_head? hh]) rfl]
      exact ⟨rfl, rfl⟩
    · intro r hr
      rw [hkeep r (by simp [List.mem_of_mem_tail hr]) fun hh => ?_]
      · exact ⟨rfl, rfl⟩
      · cases ys with
        | nil => simp at hr
        | cons y ys =>
          simp only [List.head?_cons, Option.mem_some_iff] at hh
          exact (List.nodup_cons.mp hny).1 (hh ▸ hr)

end Leaves

/-! ## Two inner nodes -/

section Inner

variable {S : Set (Key α)} {s s' : BplusTreeHandler α} {hdr : IndexFileHeader}
  {nd nd' : PageId → IndexNode α} {m h : Nat} {p pa pb : PageId}
  {pre post : List (Key α × IndexTree α (h + 1))} {ka kb k : Key α} {up : IndexPath α m (h + 2)}
  {L R L' R' : List (Key α × IndexTree α h)} {c : IndexTree α h} {q : PageId} {ps : List PageId}

/-- What holds of the items of two neighbouring inner nodes in a row. -/
structure RowOf (nd : PageId → IndexNode α) (p pa pb : PageId) (e : Option (Key α))
    (rest : List PageId) (items : List (Key α × IndexTree α h)) : Prop where
  ne : pa ≠ pb
  parent : p ≠ pa ∧ p ≠ pb
  rest : ∀ r ∈ rest, r ≠ p ∧ r ≠ pa ∧ r ≠ pb ∧ r ∉ Tree.tops items
  pages : ∀ it ∈ items, ∀ r ∈ it.2.pages, r ≠ p ∧ r ≠ pa ∧ r ≠ pb
  nodup : (items.flatMap fun it => it.2.pages).Nodup
  holds : ∀ it ∈ items, ∃ par, Holds nd par it.2
  firstKeys : Tree.FirstKeys e items

theorem Loose.row (hL : L ≠ []) (hl : Loose S s hdr nd
      ((Path.step p pre ka ((kb, .inner pb R) :: post) up).plug (.inner pa L))) :
    RowOf nd p pa pb (Path.step p pre ka ((kb, Tree.inner pb R) :: post) up).expected
      (Tree.itemPages pre ++ Tree.itemPages post ++ up.pages) (L ++ R) := by
  obtain ⟨hna, hnb, hdis, ⟨hpa, hpb⟩, hrest, -⟩ := hl.apart
  obtain ⟨⟨-, -, hpost, -⟩, hla⟩ := (holds_plug _ _).mp hl.holds
  obtain ⟨⟨-, -, -, hfp⟩, hfa⟩ := (Path.firstKey_plug _ _).mp hl.firstKey
  have hlb := (List.forall_mem_cons.mp hpost).1
  have hfb := (List.forall_mem_cons.mp hfp).1
  rw [Tree.pages_inner] at hna hnb
  obtain ⟨hna, hnL⟩ := List.nodup_cons.mp hna
  obtain ⟨hnb, hnR⟩ := List.nodup_cons.mp hnb
  have hinL : ∀ it ∈ L, ∀ r ∈ it.2.pages, r ∈ L.flatMap fun it => it.2.pages :=
    fun it hit r hr => List.mem_flatMap.mpr ⟨it, hit, hr⟩
  have hinR : ∀ it ∈ R, ∀ r ∈ it.2.pages, r ∈ R.flatMap fun it => it.2.pages :=
    fun it hit r hr => List.mem_flatMap.mpr ⟨it, hit, hr⟩
  simp only [Tree.pages_inner, List.mem_cons, not_or] at hdis hpa hpb hrest
  refine ⟨fun e => (hdis pa (.inl rfl)).1 e, ⟨hpa.1, hpb.1⟩, ?_, ?_, ?_, ?_, ?_⟩
  · intro r hr
    obtain ⟨h1, h2, h3⟩ := hrest r hr
    refine ⟨h1, h2.1, h3.1, fun hm => ?_⟩
    rw [Tree.tops, List.map_append, List.mem_append] at hm
    rcases hm with hm | hm
    · exact h2.2 (Tree.tops_sub_pages L hm)
    · exact h3.2 (Tree.tops_sub_pages R hm)
  · intro it hit r hr
    rcases List.mem_append.mp hit with hit | hit
    · have hm := hinL it hit r hr
      exact ⟨fun e => hpa.2 (e ▸ hm), fun e => hna (e ▸ hm), (hdis r (.inr hm)).1⟩
    · have hm := hinR it hit r hr
      exact ⟨fun e => hpb.2 (e ▸ hm), fun e => (hdis pa (.inl rfl)).2 (e ▸ hm), fun e => hnb (e ▸ hm)⟩
  · rw [List.flatMap_append]
    exact List.nodup_append.mpr ⟨hnL, hnR, fun a ha b hb e => (hdis a (.inr ha)).2 (e ▸ hb)⟩
  · exact List.forall_mem_append.mpr ⟨fun it hit => ⟨_, hla.2 it hit⟩, fun it hit => ⟨_, hlb.2 it hit⟩⟩
  · exact (Tree.firstKeys_append hL).mpr ⟨(Tree.firstKey_inner _ _ _).mp hfa,
      (Tree.firstKeys_some.mp ((Tree.firstKey_inner _ _ _).mp hfb)).2⟩

omit [LinearOrder (Key α)] in
/-- Subtrees of a row that end up below the page `q`. -/
theorem RowOf.adopted {e : Option (Key α)} {rest : List PageId} {items X : List (Key α × IndexTree α h)}
    {q : PageId} (hrow : RowOf nd p pa pb e rest items) (hX : X.Sublist items)
    (ht : ∀ r ∈ Tree.tops X, IndexNode.SameItems (nd r) (nd' r) ∧ (nd' r).parent = some q)
    (fr : ∀ r, r ≠ p → r ≠ pa → r ≠ pb → r ∉ Tree.tops items → nd' r = nd r) :
    ∀ it ∈ X, Holds nd' (some q) it.2 := by
  have hsub : (X.flatMap fun it => it.2.pages).Sublist (items.flatMap fun it => it.2.pages) :=
    hX.flatMap _
  refine holds_of_adopted nd (hrow.nodup.sublist hsub) (fun it hit => hrow.holds it (hX.subset hit))
    ht fun it hit r hr hrt => ?_
  obtain ⟨h1, h2, h3⟩ := hrow.pages it (hX.subset hit) r hr
  refine .of_eq (fr r h1 h2 h3 fun hm => hrt ?_)
  rw [Tree.eq_page_of_mem_tops hrow.nodup (hX.subset hit) hr hm]
  exact Tree.top_mem hit

omit [LinearOrder (Key α)] in
/-- The tops of the items `X`, which are now below `x`: those in `ps` were told so, the others were
below `x` before. -/
theorem RowOf.tops_adopt {e : Option (Key α)} {rest ps : List PageId}
    {items X : List (Key α × IndexTree α h)} {q x : PageId} (hrow : RowOf nd p pa pb e rest items)
    (fo : ∀ r, r ≠ p → r ≠ pa → r ≠ pb → nd' r = adopt nd q ps r) (hX : X ⊆ items)
    (hx : ∀ it ∈ X, it.2.page ∈ ps ∧ q = x ∨ it.2.page ∉ ps ∧ Holds nd (some x) it.2) :
    ∀ r ∈ Tree.tops X, IndexNode.SameItems (nd r) (nd' r) ∧ (nd' r).parent = some x := by
  intro r hr
  obtain ⟨it, hit, rfl⟩ := List.mem_map.mp hr
  obtain ⟨h1, h2, h3⟩ := hrow.pages it (hX hit) _ it.2.page_mem_pages
  rw [fo _ h1 h2 h3]
  rcases hx it hit with ⟨hm, rfl⟩ | ⟨hm, hh⟩
  · rw [adopt_of_mem hm]; exact ⟨⟨rfl, rfl, rfl⟩, rfl⟩
  · rw [adopt_of_notMem hm]; exact ⟨.refl _, hh.parent_eq⟩

omit [LinearOrder (Key α)] in
theorem adopt_links (nd : PageId → IndexNode α) (q : PageId) (ps : List PageId) (r : PageId) :
    (adopt nd q ps r).prevBrother = (nd r).prevBrother ∧
      (adopt nd q ps r).nextBrother = (nd r).nextBrother := by
  unfold adopt
  split <;> exact ⟨rfl, rfl⟩

/-- An item moved from one inner node to its neighbour; `ps` are the moved children, `q` is where
they went. -/
theorem Loose.share_inner (L R L' R' : List (Key α × IndexTree α h)) (q : PageId) (ps : List PageId)
    (hl : Loose S s hdr nd
      ((Path.step p pre ka ((kb, .inner pb R) :: post) up).plug (.inner pa L)))
    (hLR : L ++ R = L' ++ (k, c) :: R') (hL : L ≠ []) (hR : R ≠ []) (hL' : L' ≠ [])
    (hv : View s' ((Path.step p pre ka ((kb, .inner pb R) :: post) up).plug (.inner pa L)).pages
      { hdr with
        rootPageId := some ((Path.step p pre ka ((kb, .inner pb R) :: post) up).plug (.inner pa L)).page }
      (some ((Path.step p pre ka ((kb, .inner pb R) :: post) up).plug (.inner pa L)).page) nd')
    (fp : nd' p = { nd p with
      children := childLinks (pre ++ (ka, .inner pa L') :: (k, .inner pb ((k, c) :: R')) :: post) })
    (fa : nd' pa = { nd pa with children := childLinks L' })
    (fb : nd' pb = { nd pb with children := childLinks ((k, c) :: R') })
    (fo : ∀ r, r ≠ p → r ≠ pa → r ≠ pb → nd' r = adopt nd q ps r) (hps : ps ⊆ Tree.tops (L ++ R))
    (hpl : ∀ it ∈ L', it.2.page ∈ ps ∧ q = pa ∨ it.2.page ∉ ps ∧ it ∈ L)
    (hpr : ∀ it ∈ (k, c) :: R', it.2.page ∈ ps ∧ q = pb ∨ it.2.page ∉ ps ∧ it ∈ R) :
    Loose S s' hdr nd'
      ((Path.step p pre ka ((k, .inner pb ((k, c) :: R')) :: post) up).plug (.inner pa L')) := by
  have hrow := hl.row hL
  obtain ⟨⟨hp, hpre, hpost, hup⟩, hla⟩ := (holds_plug _ _).mp hl.holds
  obtain ⟨⟨-, -, -, hfp⟩, -⟩ := (Path.firstKey_plug _ _).mp hl.firstKey
  have hpost' := List.forall_mem_cons.mp hpost
  have hfp' := List.forall_mem_cons.mp hfp
  have hlb := (holds_inner.mp hpost'.1).2
  have fr : ∀ r, r ≠ p → r ≠ pa → r ≠ pb → r ∉ Tree.tops (L ++ R) → nd' r = nd r :=
    fun r h1 h2 h3 h4 => (fo r h1 h2 h3).trans (adopt_of_notMem fun hm => h4 (hps hm))
  have ftl := hrow.tops_adopt fo (hLR ▸ List.subset_append_left _ _) fun it hit =>
    (hpl it hit).imp_right fun hi => ⟨hi.1, hla.2 it hi.2⟩
  have ftr := hrow.tops_adopt fo (hLR ▸ List.subset_append_right _ _) fun it hit =>
    (hpr it hit).imp_right fun hi => ⟨hi.1, hlb it hi.2⟩
  have hsame : ∀ r ∈ Tree.itemPages pre ++ Tree.itemPages post ++ up.pages,
      IndexNode.Same (nd r) (nd' r) := fun r hr =>
    have ⟨h1, h2, h3, h4⟩ := hrow.rest r hr
    .of_eq (fr r h1 h2 h3 h4)
  have hpages : ((Path.step p pre ka ((k, .inner pb ((k, c) :: R')) :: post) up).plug
      (.inner pa L')).pages.Perm
      ((Path.step p pre ka ((kb, .inner pb R) :: post) up).plug (.inner pa L)).pages := by
    refine ((Path.pages_pair _ _ _ _ _ _ _ _).trans (List.Perm.append_right _ ?_)).trans
      (Path.pages_pair _ _ _ _ _ _ _ _).symm
    have hcut := congrArg (List.flatMap fun it : Key α × Tree PageId (Key α) RecordId h => it.2.pages) hLR
    rw [List.flatMap_append, List.flatMap_append] at hcut
    classical
    simp only [Tree.pages_inner, List.perm_iff_count, List.count_cons, List.count_append]
    intro a
    have := congrArg (List.count a) hcut
    rw [List.count_append, List.count_append] at this
    omega
  have hfirst := hrow.firstKeys
  have hfb : (Tree.inner pb R).FirstKey (some kb) := hfp'.1
  rw [hLR, Tree.firstKeys_append hL'] at hfirst
  have hfb' : (Tree.inner pb ((k, c) :: R')).FirstKey (some k) :=
    (Tree.firstKey_inner _ _ _).mpr (Tree.firstKeys_some.mpr ⟨by simp, hfirst.2⟩)
  have hmarks : ((Path.step p pre ka ((k, .inner pb ((k, c) :: R')) :: post) up).plug
      (.inner pa L')).marks =
      ((Path.step p pre ka ((kb, .inner pb R) :: post) up).plug (.inner pa L)).marks := by
    have h1 := Tree.marks_pair (p := pa) hL hR hfb
    have h2 := Tree.marks_pair (p := pa) hL' (List.cons_ne_nil _ _) hfb'
    rw [hLR, ← h2] at h1
    simp only [Path.marks_plug, Path.left, Path.right, Tree.itemMarks_cons]
    have hcut := congrArg (fun ms => (up.left ++ (Tree.itemMarks pre ++ [sep ka]).tail) ++ ms ++
      (Tree.itemMarks post ++ up.right)) h1
    simpa only [List.append_assoc, List.cons_append] using hcut.symm
  refine hl.rewrite (hv.mono fun r hr => hpages.mem_iff.mp hr) (hpages.nodup_iff.mpr hl.nodup) ?_
    (fun r hr => hsame r (by simp [hr]))
    (fun it hit r hr => hsame r (by simpa [Tree.itemPages] using .inl ⟨_, _, hit, hr⟩)) ?_ ?_
    ((Tree.firstKey_inner _ _ _).mpr hfirst.1) (List.forall_mem_cons.mpr ⟨hfb', hfp'.2⟩) ?_ ?_ ?_
  · rw [fp]; exact ⟨hp.1, hp.2.1, rfl⟩
  · refine holds_inner.mpr ⟨?_, hrow.adopted (hLR ▸ List.sublist_append_left _ _) ftl fr⟩
    rw [fa]; exact ⟨hla.1.1, hla.1.2.1, rfl⟩
  · refine List.forall_mem_cons.mpr ⟨holds_inner.mpr ⟨?_, hrow.adopted
      (hLR ▸ List.sublist_append_right _ _) ftr fr⟩, fun it hit => ?_⟩
    · rw [fb]; exact ⟨hpost'.1.1.1, hpost'.1.1.2.1, rfl⟩
    · refine (hpost'.2 it hit).congr fun r hr => hsame r ?_
      simpa [Tree.itemPages] using .inr (.inl ⟨_, _, hit, hr⟩)
  · rw [Tree.Sorted, hmarks]; exact hl.sorted
  · rw [Tree.keys, hmarks]; exact hl.keys
  · have hleaves : ((Path.step p pre ka ((k, .inner pb ((k, c) :: R')) :: post) up).plug
        (.inner pa L')).leaves =
        ((Path.step p pre ka ((kb, .inner pb R) :: post) up).plug (.inner pa L)).leaves := by
      have hcut := congrArg (List.flatMap fun it => it.2.leaves) hLR
      rw [List.flatMap_append, List.flatMap_append] at hcut
      simp only [Path.leaves_plug, Path.leavesLeft, Path.leavesRight, Tree.leaves_inner,
        List.flatMap_cons, List.append_assoc] at hcut ⊢
      rw [← List.append_assoc (List.flatMap _ L), hcut]
      simp only [List.append_assoc]
    rw [hleaves]
    refine hl.linked.congr fun r _ => ?_
    by_cases h1 : r = p
    · rw [h1, fp]; exact ⟨rfl, rfl⟩
    · by_cases h2 : r = pa
      · rw [h2, fa]; exact ⟨rfl, rfl⟩
      · by_cases h3 : r = pb
        · rw [h3, fb]; exact ⟨rfl, rfl⟩
        · rw [fo r h1 h2 h3]; exact adopt_links nd q ps r

/-- The right inner node merged into the left one; `pb` leaves the tree. -/
theorem Loose.merge_inner
    (hl : Loose S s hdr nd
      ((Path.step p pre ka ((kb, .inner pb R) :: post) up).plug (.inner pa L)))
    (hL : L ≠ []) (hR : R ≠ [])
    (hv : View s' ((Path.step p pre ka post up).plug (.inner pa (L ++ R))).pages
      { hdr with
        rootPageId := some ((Path.step p pre ka ((kb, .inner pb R) :: post) up).plug (.inner pa L)).page }
      (some ((Path.step p pre ka ((kb, .inner pb R) :: post) up).plug (.inner pa L)).page) nd')
    (fp : nd' p = { nd p with children := childLinks (pre ++ (ka, .inner pa (L ++ R)) :: post) })
    (fa : nd' pa = { nd pa with children := childLinks (L ++ R) })
    (fb : (nd' pb).prevBrother = (nd pb).prevBrother ∧ (nd' pb).nextBrother = (nd pb).nextBrother)
    (fo : ∀ r, r ≠ p → r ≠ pa → r ≠ pb → nd' r = adopt nd pa (Tree.tops R) r) :
    Loose S s' hdr nd' ((Path.step p pre ka post up).plug (.inner pa (L ++ R))) := by
  have hrow := hl.row hL
  obtain ⟨⟨hp, hpre, hpost, hup⟩, hla⟩ := (holds_plug _ _).mp hl.holds
  obtain ⟨⟨-, -, -, hfp⟩, -⟩ := (Path.firstKey_plug _ _).mp hl.firstKey
  have hpost' := List.forall_mem_cons.mp hpost
  have hfp' := List.forall_mem_cons.mp hfp
  have hsubR : Tree.tops R ⊆ Tree.tops (L ++ R) := List.map_subset _ (List.subset_append_right _ _)
  have fr : ∀ r, r ≠ p → r ≠ pa → r ≠ pb → r ∉ Tree.tops (L ++ R) → nd' r = nd r :=
    fun r h1 h2 h3 h4 => (fo r h1 h2 h3).trans (adopt_of_notMem fun hm => h4 (hsubR hm))
  have ftop := hrow.tops_adopt (X := L ++ R) (x := pa) fo (List.Subset.refl _) fun it hit => by
    by_cases hm : it.2.page ∈ Tree.tops R
    · exact .inl ⟨hm, rfl⟩
    · exact .inr ⟨hm, hla.2 it ((List.mem_append.mp hit).resolve_right fun hr =>
        hm (Tree.top_mem hr))⟩
  have hsame : ∀ r ∈ Tree.itemPages pre ++ Tree.itemPages post ++ up.pages,
      IndexNode.Same (nd r) (nd' r) := fun r hr =>
    have ⟨h1, h2, h3, h4⟩ := hrow.rest r hr
    .of_eq (fr r h1 h2 h3 h4)
  have hpages := Path.pages_merge p pre post ka kb up (.inner pa L) (.inner pb R)
    (t := .inner pa (L ++ R)) (q := pb) (by
      classical
      simp only [Tree.pages_inner, List.flatMap_append, List.perm_iff_count, List.count_cons,
        List.count_append]
      intro a
      omega)
  have hnd := hpages.nodup_iff.mp hl.nodup
  have hmarks : ((Path.step p pre ka post up).plug (.inner pa (L ++ R))).marks =
      ((Path.step p pre ka ((kb, .inner pb R) :: post) up).plug (.inner pa L)).marks := by
    have h1 := Tree.marks_pair (p := pa) hL hR hfp'.1
    simp only [Path.marks_plug, Path.left, Path.right, Tree.itemMarks_cons, Tree.marks_inner] at h1 ⊢
    rw [← h1]
    simp only [List.append_assoc, List.cons_append]
  refine hl.rewrite hv (List.nodup_cons.mp hnd).2 ?_ (fun r hr => hsame r (by simp [hr]))
    (fun it hit r hr => hsame r (by simpa [Tree.itemPages] using .inl ⟨_, _, hit, hr⟩)) ?_ ?_
    ((Tree.firstKey_inner _ _ _).mpr hrow.firstKeys) hfp'.2 ?_ ?_ ?_
  · rw [fp]; exact ⟨hp.1, hp.2.1, rfl⟩
  · refine holds_inner.mpr ⟨?_, hrow.adopted (List.Sublist.refl _) ftop fr⟩
    rw [fa]; exact ⟨hla.1.1, hla.1.2.1, rfl⟩
  · refine fun it hit => (hpost'.2 it hit).congr fun r hr => hsame r ?_
    simpa [Tree.itemPages] using .inr (.inl ⟨_, _, hit, hr⟩)
  · rw [Tree.Sorted, hmarks]; exact hl.sorted
  · rw [Tree.keys, hmarks]; exact hl.keys
  · have hleaves : ((Path.step p pre ka post up).plug (.inner pa (L ++ R))).leaves =
        ((Path.step p pre ka ((kb, .inner pb R) :: post) up).plug (.inner pa L)).leaves := by
      simp [Path.leaves_plug, Path.leavesLeft, Path.leavesRight]
    rw [hleaves]
    refine hl.linked.congr fun r _ => ?_
    by_cases h1 : r = p
    · rw [h1, fp]; exact ⟨rfl, rfl⟩
    · by_cases h2 : r = pa
      · rw [h2, fa]; exact ⟨rfl, rfl⟩
      · by_cases h3 : r = pb
        · rw [h3]; exact fb
        · rw [fo r h1 h2 h3]; exact adopt_links nd pa _ r

end Inner

end BplusTreeHandler

end Idmbs
