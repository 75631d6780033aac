import Idmbs.BPlusTree.Siblings

/-!
# Idmbs.BPlusTree.Redistribute

`Redistribute` moves one item from a node to its neighbour and keeps everything but the sizes.
-/

namespace Idmbs

open SearchTree SearchTree.Mark Comparator

namespace IndexNode

variable {α : Type} {h : Nat} {pre post : List (Key α × IndexTree α h)} {ka kb k : Key α}
  {ta tb : IndexTree α h} {n : IndexNode α}

theorem setKeyAt_items (hn : n.children = childLinks (pre ++ (ka, ta) :: (kb, tb) :: post)) :
    n.setKeyAt (pre.length + 1) k =
      { n with children := childLinks (pre ++ (ka, ta) :: (k, tb) :: post) } := by
  have hcut : n.children = childLinks (pre ++ [(ka, ta)]) ++ (kb, tb.page) :: childLinks post := by
    simp [hn]
  have hlen : pre.length + 1 = (childLinks (pre ++ [(ka, ta)])).length := by simp
  rw [setKeyAt, hcut, hlen, List.modify_eq_take_drop, List.take_left, List.drop_left]
  simp

theorem internalRemove_items (hn : n.children = childLinks (pre ++ (ka, ta) :: (kb, tb) :: post)) :
    n.internalRemove (pre.length + 1) = { n with children := childLinks (pre ++ (ka, ta) :: post) } := by
  have hcut : n.children = childLinks (pre ++ [(ka, ta)]) ++ (kb, tb.page) :: childLinks post := by
    simp [hn]
  have hlen : pre.length + 1 = (childLinks (pre ++ [(ka, ta)])).length := by simp
  rw [internalRemove, hcut, hlen, List.eraseIdx_append_of_length_le (le_refl _)]
  simp

end IndexNode

namespace BplusTreeHandler

variable {α : Type} [LinearOrder (Key α)] [Inhabited α] {S : Set (Key α)} {s : BplusTreeHandler α}
  {hdr : IndexFileHeader} {nd : PageId → IndexNode α} {m h : Nat} {p pa pb : PageId}

omit [Inhabited α] in
/-- The three pages that are worked on are in use, and the children of `p` are as the path says. -/
theorem Loose.pair {pre post : List (Key α × IndexTree α h)} {ka kb : Key α} {ta tb : IndexTree α h}
    {up : IndexPath α m (h + 1)}
    (hl : Loose S s hdr nd ((Path.step p pre ka ((kb, tb) :: post) up).plug ta)) :
    (p ∈ ((Path.step p pre ka ((kb, tb) :: post) up).plug ta).pages ∧
      ta.page ∈ ((Path.step p pre ka ((kb, tb) :: post) up).plug ta).pages ∧
      tb.page ∈ ((Path.step p pre ka ((kb, tb) :: post) up).plug ta).pages) ∧
    (ta.page ≠ tb.page ∧ p ≠ ta.page ∧ p ≠ tb.page) ∧
    (nd p).children = childLinks (pre ++ (ka, ta) :: (kb, tb) :: post) := by
  have hmem := fun r => (Path.pages_pair p pre post ka kb up ta tb).mem_iff (a := r)
  have hap := hl.apart
  have ha := ta.page_mem_pages
  have hb := tb.page_mem_pages
  obtain ⟨⟨hp, -⟩, -⟩ := (holds_plug _ _).mp hl.holds
  refine ⟨⟨(hmem _).mpr (by simp), (hmem _).mpr (by simp [ha]), (hmem _).mpr (by simp [hb])⟩,
    ⟨fun e => hap.disjoint _ ha (e ▸ hb), fun e => hap.parent.1 (e ▸ ha),
      fun e => hap.parent.2 (e ▸ hb)⟩, ?_⟩
  simpa using hp.2.2

section Leaves

variable {pre post : List (Key α × IndexTree α 0)} {ka kb : Key α} {up : IndexPath α m 1}
  {A B : List (Key α × RecordId)} {b e : Key α × RecordId}

/-- The left leaf takes the first entry of the right one. -/
theorem Loose.redistribute_first_leaf
    (hl : Loose S s hdr nd
      ((Path.step p [] ka ((kb, .leaf pb (b :: e :: B)) :: post) up).plug (.leaf pa A))) :
    ∃ s' nd', redistribute .leaf pb pa p 0 s = (.success, s') ∧
      Loose S s' hdr nd'
        ((Path.step p [] ka ((e.1, .leaf pb (e :: B)) :: post) up).plug (.leaf pa (A ++ [b]))) := by
  obtain ⟨⟨hp, ha, hb⟩, ⟨hab, hpa, hpb⟩, hch⟩ := hl.pair
  obtain ⟨⟨-, -, hpost, -⟩, hla⟩ := (holds_plug _ _).mp hl.holds
  have hlb := (List.forall_mem_cons.mp hpost).1
  simp only [Tree.page_leaf] at ha hb hab hpa hpb
  have hea : (nd pa).entries = A := (holds_leaf.mp hla).2.2
  have heb : (nd pb).entries = b :: e :: B := (holds_leaf.mp hlb).2.2
  obtain ⟨s1, e1, hv1⟩ := hl.view.moveFirstToEnd_leaf hb ha hab.symm
  rw [hea, heb] at hv1
  have hkey : (s1.node pb).itemKeyAt .leaf 0 = e.1 := by
    rw [hv1.node, Function.update_self]; rfl
  have hv2 := ((((((hv1.modifyNode hp (IndexNode.setKeyAt 1 e.1)).dirtyMark (p := pb)).dirtyMark
    (p := pa)).dirtyMark (p := p)).unpinPage (p := p)).unpinPage (p := pb)).unpinPage (p := pa)
  generalize hgen : Function.update (Function.update _ pb _) p _ = nd' at hv2
  refine ⟨_, nd', ?_, hl.share_leaves (by simp) (by simp) hv2 ?_ ?_ ?_ ?_⟩
  · simp only [redistribute, if_true, e1, hkey]
  · rw [← hgen, ← IndexNode.setKeyAt_items (by simpa using hch)]
    simp [hpa, hpb]
  · rw [← hgen]; simp [hpa.symm, hab]
  · rw [← hgen]; simp [hpb.symm]
  · intro r h1 h2 h3
    rw [← hgen]; simp [h1, h2, h3]

/-- The right leaf takes the last entry of the left one. -/
theorem Loose.redistribute_last_leaf
    (hl : Loose S s hdr nd
      ((Path.step p pre ka ((kb, .leaf pb B) :: post) up).plug (.leaf pa (A ++ [e]))))
    (hA : A ≠ []) :
    ∃ s' nd', redistribute .leaf pa pb p (pre.length + 1) s = (.success, s') ∧
      Loose S s' hdr nd'
        ((Path.step p pre ka ((e.1, .leaf pb (e :: B)) :: post) up).plug (.leaf pa A)) := by
  obtain ⟨⟨hp, ha, hb⟩, ⟨hab, hpa, hpb⟩, hch⟩ := hl.pair
  obtain ⟨⟨-, -, hpost, -⟩, hla⟩ := (holds_plug _ _).mp hl.holds
  have hlb := (List.forall_mem_cons.mp hpost).1
  simp only [Tree.page_leaf] at ha hb hab hpa hpb
  have hea : (nd pa).entries = A ++ [e] := (holds_leaf.mp hla).2.2
  have heb : (nd pb).entries = B := (holds_leaf.mp hlb).2.2
  obtain ⟨s1, e1, hv1⟩ := hl.view.moveLastToFront_leaf (e := e) ha hb hab (by simp [hea])
  rw [hea, heb, List.dropLast_concat] at hv1
  have hkey : (s1.node pb).itemKeyAt .leaf 0 = e.1 := by
    rw [hv1.node, Function.update_of_ne hab.symm, Function.update_self]; rfl
  have hv2 := ((((((hv1.modifyNode hp (IndexNode.setKeyAt (pre.length + 1) e.1)).dirtyMark
    (p := pa)).dirtyMark (p := pb)).dirtyMark (p := p)).unpinPage (p := p)).unpinPage
    (p := pa)).unpinPage (p := pb)
  generalize hgen : Function.update (Function.update _ pa _) p _ = nd' at hv2
  refine ⟨_, nd', ?_, hl.share_leaves (by simp) hA hv2 ?_ ?_ ?_ ?_⟩
  · simp only [redistribute, Nat.succ_ne_zero, if_false, e1, hkey]
  · rw [← hgen, ← IndexNode.setKeyAt_items (by simpa using hch)]
    simp [hpa, hpb]
  · rw [← hgen]; simp [hpa.symm]
  · rw [← hgen]; simp [hpb.symm, hab.symm]
  · intro r h1 h2 h3
    rw [← hgen]; simp [h1, h2, h3]

end Leaves

section Inner

variable {pre post : List (Key α × IndexTree α (h + 1))} {ka kb k0 k : Key α}
  {up : IndexPath α m (h + 2)} {L R : List (Key α × IndexTree α h)} {c0 c : IndexTree α h}

omit [Inhabited α] in
/-- The children of an inner node are in use, and they are neither it nor its neighbour. -/
theorem Loose.child_mem {pre post : List (Key α × IndexTree α (h + 1))} {ka kb : Key α}
    {up : IndexPath α m (h + 2)} {L R : List (Key α × IndexTree α h)}
    (hl : Loose S s hdr nd ((Path.step p pre ka ((kb, .inner pb R) :: post) up).plug (.inner pa L)))
    (hL : L ≠ []) (it : Key α × IndexTree α h) (hit : it ∈ L ++ R) :
    it.2.page ∈ ((Path.step p pre ka ((kb, .inner pb R) :: post) up).plug (.inner pa L)).pages ∧
      p ≠ it.2.page ∧ pa ≠ it.2.page ∧ pb ≠ it.2.page := by
  obtain ⟨h1, h2, h3⟩ := (hl.row hL).pages it hit _ it.2.page_mem_pages
  refine ⟨(Path.pages_pair _ _ _ _ _ _ _ _).mem_iff.mpr ?_, h1.symm, h2.symm, h3.symm⟩
  simp only [Tree.pages_inner, List.mem_cons, List.mem_append, List.mem_flatMap]
  rcases List.mem_append.mp hit with hit | hit
  · exact .inl (.inr (.inl (.inr ⟨it, hit, it.2.page_mem_pages⟩)))
  · exact .inl (.inr (.inr (.inr ⟨it, hit, it.2.page_mem_pages⟩)))

/-- The left inner node takes the first item of the right one. -/
theorem Loose.redistribute_first_inner
    (hl : Loose S s hdr nd ((Path.step p [] ka
      ((kb, .inner pb ((k0, c0) :: (k, c) :: R)) :: post) up).plug (.inner pa L))) (hL : L ≠ []) :
    ∃ s' nd', redistribute .internal pb pa p 0 s = (.success, s') ∧
      Loose S s' hdr nd' ((Path.step p [] ka
        ((k, .inner pb ((k, c) :: R)) :: post) up).plug (.inner pa (L ++ [(k0, c0)]))) := by
  obtain ⟨⟨hp, ha, hb⟩, ⟨hab, hpa, hpb⟩, hch⟩ := hl.pair
  obtain ⟨⟨-, -, hpost, -⟩, hla⟩ := (holds_plug _ _).mp hl.holds
  have hlb := (List.forall_mem_cons.mp hpost).1
  have hrow := hl.row hL
  simp only [Tree.page_inner] at ha hb hab hpa hpb
  have hca : (nd pa).children = childLinks L := (holds_inner.mp hla).1.2.2
  have hcb : (nd pb).children = (k0, c0.page) :: childLinks ((k, c) :: R) :=
    (holds_inner.mp hlb).1.2.2
  obtain ⟨hm0, hp0, ha0, hb0⟩ := hl.child_mem hL (k0, c0) (by simp)
  obtain ⟨s1, e1, hv1⟩ := hl.view.moveFirstToEnd_internal (k0, c0.page) hb ha hab.symm hcb
    hm0 hb0 ha0
  rw [hca] at hv1
  have hkey : (s1.node pb).itemKeyAt .internal 0 = k := by
    rw [hv1.node, Function.update_self]; rfl
  have hv2 := ((((((hv1.modifyNode hp (IndexNode.setKeyAt 1 k)).dirtyMark (p := pb)).dirtyMark
    (p := pa)).dirtyMark (p := p)).unpinPage (p := p)).unpinPage (p := pb)).unpinPage (p := pa)
  generalize hgen : Function.update (Function.update _ pb _) p _ = nd' at hv2
  have hother : ∀ r, r ≠ p → r ≠ pa → r ≠ pb → nd' r = adopt nd pa [c0.page] r := by
    intro r h1 h2 h3
    rw [← hgen]; simp [h1, h2, h3]
  have htops : (Tree.tops (L ++ (k0, c0) :: (k, c) :: R)).Nodup := Tree.tops_nodup hrow.nodup
  rw [Tree.tops, List.map_append, List.map_cons, List.nodup_append, List.nodup_cons] at htops
  refine ⟨_, nd', ?_, hl.share_inner _ _ (L ++ [(k0, c0)]) R pa [c0.page] (by simp) hL (by simp) (by simp) hv2
    ?_ ?_ ?_ hother (by simp [Tree.tops]) ?_ ?_⟩
  · simp only [redistribute, if_true, e1, hkey]
  · rw [← hgen, ← IndexNode.setKeyAt_items (by simpa using hch)]
    simp [hpa, hpb, adopt_of_notMem, hp0]
  · rw [← hgen]; simp [hpa.symm, hab]
  · rw [← hgen]; simp [hpb.symm]
  · intro it hit
    rcases List.mem_append.mp hit with hit | hit
    · refine .inr ⟨fun hm => ?_, hit⟩
      exact htops.2.2 _ (List.mem_map_of_mem hit) c0.page (by simp) (List.mem_singleton.mp hm)
    · rw [List.mem_singleton.mp hit]; exact .inl ⟨by simp, rfl⟩
  · intro it hit
    refine .inr ⟨fun hm => htops.2.1.1 ?_, List.mem_cons_of_mem _ hit⟩
    exact List.mem_singleton.mp hm ▸ List.mem_map_of_mem hit

/-- The right inner node takes the last item of the left one. -/
theorem Loose.redistribute_last_inner
    (hl : Loose S s hdr nd ((Path.step p pre ka
      ((kb, .inner pb R) :: post) up).plug (.inner pa (L ++ [(k, c)])))) (hL : L ≠ []) (hR : R ≠ []) :
    ∃ s' nd', redistribute .internal pa pb p (pre.length + 1) s = (.success, s') ∧
      Loose S s' hdr nd' ((Path.step p pre ka
        ((k, .inner pb ((k, c) :: R)) :: post) up).plug (.inner pa L)) := by
  obtain ⟨⟨hp, ha, hb⟩, ⟨hab, hpa, hpb⟩, hch⟩ := hl.pair
  obtain ⟨⟨-, -, hpost, -⟩, hla⟩ := (holds_plug _ _).mp hl.holds
  have hlb := (List.forall_mem_cons.mp hpost).1
  have hrow := hl.row (by simp)
  simp only [Tree.page_inner] at ha hb hab hpa hpb
  have hca : (nd pa).children = childLinks L ++ [(k, c.page)] := by
    simpa using (holds_inner.mp hla).1.2.2
  have hcb : (nd pb).children = childLinks R := (holds_inner.mp hlb).1.2.2
  obtain ⟨hm0, hp0, ha0, hb0⟩ := hl.child_mem (by simp) (k, c) (by simp)
  obtain ⟨s1, e1, hv1⟩ := hl.view.moveLastToFront_internal (k, c.page) ha hb hab
    (by simp [hca]) hm0 ha0 hb0
  rw [hca, hcb, List.dropLast_concat] at hv1
  have hkey : (s1.node pb).itemKeyAt .internal 0 = k := by
    rw [hv1.node, Function.update_of_ne hab.symm, Function.update_self]; rfl
  have hv2 := ((((((hv1.modifyNode hp (IndexNode.setKeyAt (pre.length + 1) k)).dirtyMark
    (p := pa)).dirtyMark (p := pb)).dirtyMark (p := p)).unpinPage (p := p)).unpinPage
    (p := pa)).unpinPage (p := pb)
  generalize hgen : Function.update (Function.update _ pa _) p _ = nd' at hv2
  have hother : ∀ r, r ≠ p → r ≠ pa → r ≠ pb → nd' r = adopt nd pb [c.page] r := by
    intro r h1 h2 h3
    rw [← hgen]; simp [h1, h2, h3]
  have htops : (Tree.tops (L ++ [(k, c)] ++ R)).Nodup := Tree.tops_nodup hrow.nodup
  rw [List.append_assoc, Tree.tops, List.map_append, List.nodup_append] at htops
  have hcR := (List.nodup_cons.mp htops.2.1).1
  refine ⟨_, nd', ?_, hl.share_inner _ _ L R pb [c.page] (by simp) (by simp) hR hL hv2
    ?_ ?_ ?_ hother (by simp [Tree.tops]) ?_ ?_⟩
  · simp only [redistribute, Nat.succ_ne_zero, if_false, e1, hkey]
  · rw [← hgen, ← IndexNode.setKeyAt_items (by simpa using hch)]
    simp [hpa, hpb, adopt_of_notMem, hp0]
  · rw [← hgen]; simp [hpa.symm]
  · rw [← hgen]; simp [hpb.symm, hab.symm]
  · intro it hit
    refine .inr ⟨fun hm => ?_, List.mem_append_left _ hit⟩
    exact htops.2.2 _ (List.mem_map_of_mem hit) c.page (by simp) (List.mem_singleton.mp hm)
  · intro it hit
    rcases List.mem_cons.mp hit with rfl | hit
    · exact .inl ⟨by simp, rfl⟩
    · refine .inr ⟨fun hm => hcR ?_, hit⟩
      exact List.mem_map.mpr ⟨it, hit, List.mem_singleton.mp hm⟩

end Inner

end BplusTreeHandler

end Idmbs
