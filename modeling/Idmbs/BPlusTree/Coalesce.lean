import Idmbs.BPlusTree.Account
import Idmbs.BPlusTree.Redistribute

/-!
# Idmbs.BPlusTree.Coalesce

`Coalesce` merges the right of two neighbouring nodes into the left one, up to its last line, which
goes on with the parent.
-/

namespace Idmbs

open SearchTree SearchTree.Mark Comparator

namespace BplusTreeHandler

variable {α : Type} [LinearOrder (Key α)] {S : Set (Key α)} {s : BplusTreeHandler α}
  {hdr : IndexFileHeader} {nd : PageId → IndexNode α} {m h : Nat} {p pa pb : PageId}

/-- After the merge of `left` and `right` below `p`, the node `right` is disposed; `index` is where
`p` had it. -/
def Merged (kind : NodeKind) (left right p : PageId) (index : Nat) (s s' : BplusTreeHandler α) :
    Prop :=
  ∃ s1 s2, moveTo kind right left (s.modifyNode p (IndexNode.internalRemove index)) =
      (.success, s1) ∧ unlinkLeaf left right s1 = (.success, s2) ∧
    s' = ((s2.unpinPage left).unpinPage right).disposePage right

section Coalesce

omit [LinearOrder (Key α)]

variable {s' : BplusTreeHandler α} {next : PageId → BplusTreeHandler α → Re × BplusTreeHandler α}
  {kind : NodeKind} {left right : PageId}

/-- The node is the first of its parent and takes in its right neighbour. -/
theorem Merged.coalesce_first (hm : Merged kind left right p 1 s s') :
    coalesce next kind right left p 0 s = next p s' := by
  obtain ⟨s1, s2, e1, e2, rfl⟩ := hm
  simp only [coalesce, if_true, e1, e2, ne_eq, not_true_eq_false, if_false]

theorem Merged.coalesce_later {i : Nat} (hm : Merged kind left right p (i + 1) s s') :
    coalesce next kind left right p (i + 1) s = next p s' := by
  obtain ⟨s1, s2, e1, e2, rfl⟩ := hm
  simp only [coalesce, Nat.succ_ne_zero, if_false, e1, e2, ne_eq, not_true_eq_false]

/-- The right node is freed; the pin of the parent stays. -/
theorem Merged.accounts {index : Nat} {base : PageId → Nat} {used : PageId → Prop}
    (hm : Merged kind left right p index s s')
    (h : s.Accounts base [left, right, p] used) (hbase : base right = 0) (hne : right ≠ p) :
    s'.Accounts base [p] fun r => used r ∧ r ≠ right := by
  obtain ⟨s1, s2, e1, e2, rfl⟩ := hm
  have h1 := (h.modifyNode (p := p) (IndexNode.internalRemove index)).moveTo kind right left
  rw [e1] at h1
  have h2 := Accounts.unlinkLeaf h1 left right
  rw [e2] at h2
  have h3 : s2.Accounts base [left, right, p] used := h2
  exact h3.unpinPage.unpinPage.disposePage hbase (by simpa using hne)

end Coalesce

section Leaves

variable {pre post : List (Key α × IndexTree α 0)} {ka kb : Key α} {up : IndexPath α m 1}
  {A B : List (Key α × RecordId)}

/-- The leaf behind the right one of two neighbours. -/
theorem Loose.next_mem
    (hl : Loose S s hdr nd ((Path.step p pre ka ((kb, .leaf pb B) :: post) up).plug (.leaf pa A))) :
    ∀ y ∈ (nd pb).nextBrother,
      y ∈ ((Path.step p pre ka ((kb, .leaf pb B) :: post) up).plug (.leaf pa A)).pages ∧
        y ≠ p ∧ y ≠ pa ∧ y ≠ pb := by
  intro y hy
  obtain ⟨⟨hp, -⟩, -⟩ := (holds_plug _ _).mp hl.holds
  have hlink := hl.linked
  have hnl := hl.nodup.sublist (Tree.leaves_sublist _)
  have hsub := (Tree.leaves_sublist
    ((Path.step p pre ka ((kb, .leaf pb B) :: post) up).plug (.leaf pa A))).subset
  have hleaf : ∀ r ∈ ((Path.step p pre ka ((kb, .leaf pb B) :: post) up).plug
      (.leaf pa A)).leaves.map Prod.fst, r ≠ p := by
    intro r hr e
    obtain ⟨l, hlm, rfl⟩ := List.mem_map.mp hr
    have h1 := hl.holds.isLeaf_of_mem hlm
    rw [e, hp.1] at h1
    cases h1
  simp only [Path.leaves_plug, Tree.leaves_leaf, Path.leavesRight, List.map_append,
    List.flatMap_cons, List.map_cons, List.append_assoc, List.cons_append, List.nil_append]
    at hlink hnl hsub hleaf
  generalize _ ++ up.leavesRight.map Prod.fst = ys at *
  have hnext : (nd pb).nextBrother = ys.head? := by
    have := (Chain.linked_append.mp hlink).2.2.2.2.1
    simpa using this
  rw [hnext] at hy
  have hym := List.mem_of_mem_head? hy
  obtain ⟨hay, hny⟩ := List.nodup_cons.mp (List.nodup_append.mp hnl).2.1
  refine ⟨hsub (by simp [hym]), hleaf y (by simp [hym]), fun e => hay (by simp [← e, hym]), ?_⟩
  exact fun e => (List.nodup_cons.mp hny).1 (e ▸ hym)

theorem Loose.coalesce_leaf
    (hl : Loose S s hdr nd ((Path.step p pre ka ((kb, .leaf pb B) :: post) up).plug (.leaf pa A))) :
    ∃ s' nd', Merged .leaf pa pb p (pre.length + 1) s s' ∧
      Loose S s' hdr nd' ((Path.step p pre ka post up).plug (.leaf pa (A ++ B))) := by
  obtain ⟨⟨hp, ha, hb⟩, ⟨hab, hpa, hpb⟩, hch⟩ := hl.pair
  obtain ⟨⟨-, -, hpost, -⟩, hla⟩ := (holds_plug _ _).mp hl.holds
  have hlb := (List.forall_mem_cons.mp hpost).1
  have hnext := hl.next_mem
  have hperm := Path.pages_merge p pre post ka kb up (.leaf pa A) (.leaf pb B)
    (t := .leaf pa (A ++ B)) (q := pb) (List.Perm.swap pb pa [])
  simp only [Tree.page_leaf] at ha hb hab hpa hpb
  have hea : (nd pa).entries = A := (holds_leaf.mp hla).2.2
  have heb : (nd pb).entries = B := (holds_leaf.mp hlb).2.2
  have hv1 := hl.view.modifyNode hp (IndexNode.internalRemove (pre.length + 1))
  rw [IndexNode.internalRemove_items hch] at hv1
  have n1a : Function.update nd p { nd p with children := childLinks (pre ++ (ka, .leaf pa A) :: post) }
      pa = nd pa := Function.update_of_ne hpa.symm _ _
  have n1b : Function.update nd p { nd p with children := childLinks (pre ++ (ka, .leaf pa A) :: post) }
      pb = nd pb := Function.update_of_ne hpb.symm _ _
  obtain ⟨s1, e1, hv2⟩ := hv1.moveTo_leaf hb ha hab.symm (by rw [n1b]; exact fun y hy => (hnext y hy).1)
  rw [n1a, n1b, hea, heb] at hv2
  have hnp : p ∉ (nd pb).nextBrother := fun hm => (hnext p hm).2.1 rfl
  have hna : pa ∉ (nd pb).nextBrother := fun hm => (hnext pa hm).2.2.1 rfl
  have hnb : pb ∉ (nd pb).nextBrother := fun hm => (hnext pb hm).2.2.2 rfl
  generalize hg2 : relink (Function.update (Function.update _ pb _) pa _) pa _ = nd2 at hv2
  have n2p : nd2 p = { nd p with children := childLinks (pre ++ (ka, .leaf pa A) :: post) } := by
    rw [← hg2, relink_of_notMem hnp]; simp [hpa, hpb]
  have n2a : nd2 pa = { nd pa with entries := A ++ B, nextBrother := (nd pb).nextBrother } := by
    rw [← hg2, relink_of_notMem hna]; simp
  have n2b : nd2 pb = { nd pb with entries := [] } := by
    rw [← hg2, relink_of_notMem hnb]; simp [hab.symm]
  have n2r : ∀ r, r ≠ p → r ≠ pa → r ≠ pb → nd2 r = relink nd pa (nd pb).nextBrother r := by
    intro r h1 h2 h3
    rw [← hg2]
    exact relink_congr (by simp [h1, h2, h3])
  have hv3 := hv2.modifyNode ha fun n => { n with nextBrother := (nd pb).nextBrother }
  rw [n2a] at hv3
  obtain ⟨s2, e2, hv4⟩ := hv3.relinkNext pa (nd pb).nextBrother fun y hy => (hnext y hy).1
  have hleaf : (s1.node pa).isLeaf = true := by rw [hv2.node, n2a]; exact (holds_leaf.mp hla).1
  have hnx : (s1.node pb).nextBrother = (nd pb).nextBrother := by rw [hv2.node, n2b]
  have hnx' : ((s1.setNextPage pa (nd pb).nextBrother).node pb).nextBrother = (nd pb).nextBrother := by
    rw [show (s1.setNextPage pa (nd pb).nextBrother).node = _ from hv3.node,
      Function.update_of_ne hab.symm, n2b]
  have hv5 := (((hv4.unpinPage (p := pa)).unpinPage (p := pb)).disposePage
    ((Path.step p pre ka post up).plug (.leaf pa (A ++ B))).pages hb
    (fun r hr => hperm.mem_iff.mpr (List.mem_cons_of_mem _ hr))
    (List.nodup_cons.mp (hperm.nodup_iff.mp hl.nodup)).1)
  refine ⟨_, _, ⟨s1, s2, e1, ?_, rfl⟩, hl.merge_leaves hv5 ?_ ?_ ?_⟩
  · simp only [unlinkLeaf, hleaf, Bool.not_true, Bool.false_eq_true, if_false, hnx, hnx']
    exact e2
  · rw [relink_of_notMem hnp, Function.update_of_ne hpa, n2p]
    simp
  · rw [relink_of_notMem hna, Function.update_self]
  · intro r h1 h2 h3
    by_cases hr : r ∈ (nd pb).nextBrother
    · -- both the move and the unlinking turn the back link of the next leaf to `pa`
      rw [Option.mem_def.mp hr]
      have := n2r r h1 h2 h3
      rw [Option.mem_def.mp hr] at this
      simp only [relink, Function.update_self, Function.update_of_ne h2] at this ⊢
      rw [this]
    · rw [relink_of_notMem hr, Function.update_of_ne h2, n2r r h1 h2 h3]

end Leaves

section Inner

variable {pre post : List (Key α × IndexTree α (h + 1))} {ka kb : Key α}
  {up : IndexPath α m (h + 2)} {L R : List (Key α × IndexTree α h)}

theorem Loose.coalesce_inner
    (hl : Loose S s hdr nd
      ((Path.step p pre ka ((kb, .inner pb R) :: post) up).plug (.inner pa L)))
    (hL : L ≠ []) (hR : R ≠ []) :
    ∃ s' nd', Merged .internal pa pb p (pre.length + 1) s s' ∧
      Loose S s' hdr nd' ((Path.step p pre ka post up).plug (.inner pa (L ++ R))) := by
  obtain ⟨⟨hp, ha, hb⟩, ⟨hab, hpa, hpb⟩, hch⟩ := hl.pair
  obtain ⟨⟨-, -, hpost, -⟩, hla⟩ := (holds_plug _ _).mp hl.holds
  have hlb := (List.forall_mem_cons.mp hpost).1
  have hperm := Path.pages_merge p pre post ka kb up (.inner pa L) (.inner pb R)
    (t := .inner pa (L ++ R)) (q := pb) (by
      classical
      simp only [Tree.pages_inner, List.flatMap_append, List.perm_iff_count, List.count_cons,
        List.count_append]
      intro a
      omega)
  simp only [Tree.page_inner] at ha hb hab hpa hpb
  have hca : (nd pa).children = childLinks L := (holds_inner.mp hla).1.2.2
  have hcb : (nd pb).children = childLinks R := (holds_inner.mp hlb).1.2.2
  have htop : ∀ r ∈ Tree.tops R,
      r ∈ ((Path.step p pre ka ((kb, .inner pb R) :: post) up).plug (.inner pa L)).pages ∧
        p ≠ r ∧ pa ≠ r ∧ pb ≠ r := by
    intro r hr
    obtain ⟨it, hit, rfl⟩ := List.mem_map.mp hr
    exact hl.child_mem hL _ (List.mem_append_right _ hit)
  have hv1 := hl.view.modifyNode hp (IndexNode.internalRemove (pre.length + 1))
  rw [IndexNode.internalRemove_items hch] at hv1
  have n1a : Function.update nd p { nd p with
      children := childLinks (pre ++ (ka, .inner pa L) :: post) } pa = nd pa :=
    Function.update_of_ne hpa.symm _ _
  have n1b : Function.update nd p { nd p with
      children := childLinks (pre ++ (ka, .inner pa L) :: post) } pb = nd pb :=
    Function.update_of_ne hpb.symm _ _
  obtain ⟨s1, e1, hv2⟩ := hv1.moveTo_internal hb ha hab.symm
    (by rw [n1b, hcb, childLinks_tops]; exact fun r hr => (htop r hr).1)
    (by rw [n1b, hcb, childLinks_tops]; exact fun hr => (htop pb hr).2.2.2 rfl)
    (by rw [n1b, hcb, childLinks_tops]; exact fun hr => (htop pa hr).2.2.1 rfl)
  rw [n1a, n1b, hca, hcb, childLinks_tops] at hv2
  have hnp : p ∉ Tree.tops R := fun hr => (htop p hr).2.1 rfl
  generalize hg2 : Function.update (Function.update _ pa _) pb _ = nd2 at hv2
  have hleaf : (s1.node pa).isLeaf = false := by
    rw [hv2.node, ← hg2]
    simpa [hab] using (holds_inner.mp hla).1.1
  have hv3 := (((hv2.unpinPage (p := pa)).unpinPage (p := pb)).disposePage
    ((Path.step p pre ka post up).plug (.inner pa (L ++ R))).pages hb
    (fun r hr => hperm.mem_iff.mpr (List.mem_cons_of_mem _ hr))
    (List.nodup_cons.mp (hperm.nodup_iff.mp hl.nodup)).1)
  refine ⟨_, nd2, ⟨s1, s1, e1, ?_, rfl⟩, hl.merge_inner hL hR hv3 ?_ ?_ ?_ ?_⟩
  · simp only [unlinkLeaf, hleaf, Bool.not_false, if_true]
  · rw [← hg2]; simp [hpa, hpb, adopt_of_notMem hnp]
  · rw [← hg2]; simp [hab]
  · rw [← hg2]; simp
  · intro r h1 h2 h3
    rw [← hg2]; simp [h1, h2, h3, adopt]

end Inner

end BplusTreeHandler

end Idmbs
