import Idmbs.BPlusTree.WellFormed
import Idmbs.Lib.Comparator

/-!
# Idmbs.BPlusTree.Lookup

Searching: where a key belongs in a leaf and in an inner node, and which leaf `FindLeaf` reaches.

Proofs work with a linear order on keys that agrees with the comparator on the keys in use.
-/

namespace Idmbs

open SearchTree SearchTree.Mark Comparator

variable {α : Type} [LinearOrder (Key α)] {cmp : Key α → Key α → Int} {S : Set (Key α)} {x : Key α}

theorem splits_of_sorted (ha : Agrees cmp S) {ks : List (Key α)} (hS : ∀ k ∈ ks, k ∈ S)
    (hx : x ∈ S) (hs : ks.Pairwise (· < ·)) : Splits (fun k => cmp k x) ks := by
  refine hs.imp_of_mem fun {a b} hka hkb hab h0 => ?_
  rw [ha.nonneg_iff (hS a hka) hx] at h0
  exact (ha.gt_iff b (hS b hkb) x hx).mpr (lt_of_le_of_lt h0 hab)

/-! ## One node -/

section Node

variable {n : IndexNode α}

/-- `LookUp` in a leaf cuts the entries at the searched key. -/
theorem leafLookUp_spec (ha : Agrees cmp S) (hS : ∀ e ∈ n.entries, e.1 ∈ S) (hx : x ∈ S)
    (hs : (n.entries.map Prod.fst).Pairwise (· < ·)) :
    ∃ A B, n.entries = A ++ B ∧ (n.leafLookUp cmp x).1 = A.length ∧ (∀ e ∈ A, e.1 < x) ∧
      (((n.leafLookUp cmp x).2 = false ∧ ∀ e ∈ B, x < e.1) ∨
       ((n.leafLookUp cmp x).2 = true ∧ ∃ v B', B = (x, v) :: B' ∧ ∀ e ∈ B', x < e.1)) := by
  have hS' : ∀ k ∈ n.entries.map Prod.fst, k ∈ S := by simpa using fun k r he => hS (k, r) he
  obtain ⟨A, B, hAB, hlen, hlt, hge, hf⟩ := findLowerBound_spec (splits_of_sorted ha hS' hx hs)
  obtain ⟨A, B, hn, rfl, rfl⟩ := List.map_eq_append_iff.mp hAB
  have hA : ∀ e ∈ A, e.1 ∈ S := fun e he => hS e (by simp [hn, he])
  have hB : ∀ e ∈ B, e.1 ∈ S := fun e he => hS e (by simp [hn, he])
  have hge' : ∀ e ∈ B, x ≤ e.1 := fun e he =>
    (ha.nonneg_iff (hB e he) hx).mp (hge e.1 (List.mem_map_of_mem he))
  refine ⟨A, B, hn, by simpa [IndexNode.leafLookUp] using hlen, fun e he =>
    (ha.lt_iff _ (hA e he) x hx).mp (hlt e.1 (List.mem_map_of_mem he)), ?_⟩
  rcases hfound : (n.leafLookUp cmp x).2 with _ | _
  · refine .inl ⟨rfl, fun e he => lt_of_le_of_ne (hge' e he) fun e' => ?_⟩
    have := hf.mpr ⟨e.1, List.mem_map_of_mem he, (ha.eq_iff (hB e he) hx).mpr e'.symm⟩
    exact absurd (hfound.symm.trans this) (by decide)
  · refine .inr ⟨rfl, ?_⟩
    obtain ⟨k, hk, h0⟩ := hf.mp hfound
    obtain ⟨e, he, rfl⟩ := List.mem_map.mp hk
    have hex : e.1 = x := (ha.eq_iff (hB e he) hx).mp h0
    rw [hn, List.map_append, List.pairwise_append] at hs
    cases B with
    | nil => simp at he
    | cons b B =>
      have hsB := List.pairwise_cons.mp (List.map_cons ▸ hs.2.1)
      have hbx : b.1 = x := by
        rcases List.mem_cons.mp he with rfl | he
        · exact hex
        · have h1 := hsB.1 e.1 (List.mem_map_of_mem he)
          exact absurd (hge' b (by simp)) (not_le.mpr (hex ▸ h1))
      exact ⟨b.2, B, by rw [← hbx], fun e he => hbx ▸ hsB.1 e.1 (List.mem_map_of_mem he)⟩

variable [Inhabited α]

/-- `LookUp` in an inner node goes to child `c` when the key is not below its key (nothing is asked
of child 0) and below all later ones. -/
theorem internalLookUp_spec (ha : Agrees cmp S) (hx : x ∈ S) {A B : List (Key α × PageId)}
    {k : Key α} {c : PageId} (hn : n.children = A ++ (k, c) :: B)
    (hS : ∀ it ∈ n.children.tail, it.1 ∈ S)
    (hs : (n.children.tail.map Prod.fst).Pairwise (· < ·))
    (hle : A ≠ [] → k ≤ x) (hgt : ∀ it ∈ B, x < it.1) :
    (n.internalLookUp cmp x).1 = A.length ∧
      ((A ≠ [] → k < x) → (n.internalLookUp cmp x).2 = A.length + 1) := by
  have hpostS : ∀ it ∈ B, it.1 ∈ S := fun it hit => hS it (by
    rw [hn]; cases A <;> simp [hit])
  have hS' : ∀ k ∈ n.children.tail.map Prod.fst, k ∈ S := by
    intro k hk
    obtain ⟨it, hit, rfl⟩ := List.mem_map.mp hk
    exact hS it hit
  have hsp := splits_of_sorted ha hS' hx hs
  -- the child right of the found one, if any, is where the search must not go
  have hstop : n.children.length ≤ A.length + 1 ∨ cmp x (n.keyAt (A.length + 1)) < 0 := by
    cases B with
    | nil => left; simp [hn]
    | cons it B =>
      right
      have : n.keyAt (A.length + 1) = it.1 := by simp [IndexNode.keyAt, hn]
      rw [this]
      exact (ha.lt_iff x hx it.1 (hpostS it (by simp))).mpr (hgt it (by simp))
  have hpostge : ∀ b ∈ B.map Prod.fst, 0 ≤ cmp b x := by
    intro b hb
    obtain ⟨it, hit, rfl⟩ := List.mem_map.mp hb
    exact (ha.nonneg_iff (hpostS it hit) hx).mpr (le_of_lt (hgt it hit))
  have hne : n.children ≠ [] := by simp [hn]
  unfold IndexNode.internalLookUp
  simp only [hne, if_false]
  cases A with
  | nil =>
    have htail : n.children.tail.map Prod.fst = [] ++ B.map Prod.fst := by simp [hn]
    rw [htail] at hsp ⊢
    rw [findLowerBound_append hsp (by simp) hpostge]
    simp only [List.length_nil, Nat.zero_add] at hstop ⊢
    rw [if_pos hstop]
    exact ⟨rfl, fun _ => rfl⟩
  | cons it0 A =>
    have hkS : k ∈ S := hS (k, c) (by simp [hn])
    have htail : n.children.tail.map Prod.fst = A.map Prod.fst ++ k :: B.map Prod.fst := by
      simp [hn]
    have hprelt : ∀ a ∈ A.map Prod.fst, cmp a x < 0 := by
      intro a hka
      rw [htail, List.pairwise_append] at hs
      have hak : a < k := hs.2.2 a hka k (by simp)
      have haS : a ∈ S := hS' a (by rw [htail]; simp only [List.mem_append]; exact .inl hka)
      exact (ha.lt_iff a haS x hx).mpr (lt_of_lt_of_le hak (hle (by simp)))
    rcases lt_or_eq_of_le (hle (by simp)) with hkx | hkx
    · have hcut : n.children.tail.map Prod.fst =
          (A.map Prod.fst ++ [k]) ++ B.map Prod.fst := by simp [htail]
      rw [hcut] at hsp ⊢
      rw [findLowerBound_append hsp ?_ hpostge]
      · simp only [List.length_append, List.length_map, List.length_cons, List.length_nil,
          Nat.zero_add] at hstop ⊢
        rw [if_pos hstop]
        exact ⟨by simp, fun _ => rfl⟩
      · intro a hka
        rcases List.mem_append.mp hka with hka | hka
        · exact hprelt a hka
        · rw [List.mem_singleton.mp hka]
          exact (ha.lt_iff k hkS x hx).mpr hkx
    · rw [htail] at hsp ⊢
      rw [findLowerBound_append hsp hprelt ?_]
      · have hkey : n.keyAt (A.length + 1) = k := by simp [IndexNode.keyAt, hn]
        have h0 : ¬cmp x k < 0 := by rw [ha.lt_iff x hx k hkS, hkx]; exact lt_irrefl x
        simp only [List.length_map, List.length_cons, hkey, hn, List.length_append]
        rw [if_neg (by omega)]
        exact ⟨rfl, fun h1 => absurd (h1 (by simp)) (by rw [hkx]; exact lt_irrefl x)⟩
      · intro b hb
        rcases List.mem_cons.mp hb with rfl | hb
        · exact (ha.nonneg_iff hkS hx).mpr (le_of_eq hkx.symm)
        · exact hpostge b hb

theorem internalInsert_spec (ha : Agrees cmp S) (hx : x ∈ S) {A B : List (Key α × PageId)}
    {k : Key α} {c q : PageId} (hn : n.children = A ++ (k, c) :: B)
    (hS : ∀ it ∈ n.children.tail, it.1 ∈ S)
    (hs : (n.children.tail.map Prod.fst).Pairwise (· < ·))
    (hlt : A ≠ [] → k < x) (hgt : ∀ it ∈ B, x < it.1) :
    n.internalInsert cmp x q = { n with children := A ++ (k, c) :: (x, q) :: B } := by
  have hpos := (internalLookUp_spec ha hx hn hS hs (fun hne => le_of_lt (hlt hne)) hgt).2 hlt
  have hcut : n.children = (A ++ [(k, c)]) ++ B := by simp [hn]
  have hlen : A.length + 1 = (A ++ [(k, c)]).length := by simp
  simp only [IndexNode.internalInsert, hpos]
  rw [hcut, hlen, List.take_left, List.drop_left]
  simp

end Node

/-! ## From the root to a leaf -/

namespace BplusTreeHandler

section FindLeaf

variable {m : Nat} {keep : List PageId} {hdr : IndexFileHeader} {st : Option PageId}
  {nd : PageId → IndexNode α} {t : IndexTree α m} {s : BplusTreeHandler α}

omit [LinearOrder (Key α)]

/-- The pages in use are different numbers below `pages_num`. -/
theorem View.length_le (h : View s keep hdr st nd) (hnd : keep.Nodup) :
    keep.length ≤ s.pool.pagesNum := by
  have hsub : keep ⊆ List.range s.pool.pagesNum := fun p hp =>
    List.mem_range.mpr (h.sound.lt (by simp [hp]))
  simpa using hnd.length_le_of_subset hsub

/-- The walk down keeps any property of the path that each step down keeps. -/
theorem findLeafLoop_spec (childPageGetter : IndexNode α → PageId)
    (I : ∀ h : Nat, IndexPath α m h → Prop) (hh : Holds nd none t)
    (hstep : ∀ (h : Nat) (c : IndexPath α m (h + 1)) (p : PageId)
      (items : List (Key α × IndexTree α h)), t = c.plug (.inner p items) → I (h + 1) c →
      (nd p).children = childLinks items →
      ∃ pre k u post, items = pre ++ (k, u) :: post ∧ childPageGetter (nd p) = u.page ∧
        I h (.step p pre k post c)) :
    ∀ (h : Nat) (c : IndexPath α m h) (u : IndexTree α h) (fuel : Nat) (s : BplusTreeHandler α),
      t = c.plug u → I h c → h < fuel → View s t.pages hdr st nd →
      ∃ (c' : IndexPath α m 0) (p : PageId) (es : List (Key α × RecordId))
        (s' : BplusTreeHandler α), t = c'.plug (.leaf p es) ∧ I 0 c' ∧
        findLeafLoop childPageGetter fuel u.page s = (.success, p, s') ∧
        View s' t.pages hdr st nd := by
  intro h
  induction h with
  | zero =>
    intro c u fuel s ht hI hf hv
    obtain ⟨fuel, rfl⟩ := Nat.exists_eq_succ_of_ne_zero (Nat.ne_of_gt hf)
    obtain ⟨p, es, rfl⟩ := Tree.exists_leaf u
    rw [ht, holds_plug] at hh
    refine ⟨c, p, es, s, ht, hI, ?_, hv⟩
    have hleaf : (s.node p).isLeaf = true := by rw [hv.node]; exact hh.2.1
    simp [findLeafLoop, hleaf]
  | succ h ih =>
    intro c u fuel s ht hI hf hv
    obtain ⟨fuel, rfl⟩ := Nat.exists_eq_succ_of_ne_zero (Nat.ne_of_gt (Nat.zero_lt_of_lt hf))
    obtain ⟨p, items, rfl⟩ := Tree.exists_inner u
    have hp := (holds_plug c _).mp (ht ▸ hh)
    obtain ⟨⟨hleaf, -, hchildren⟩, -⟩ := holds_inner.mp hp.2
    obtain ⟨pre, k, u, post, rfl, hget, hI'⟩ := hstep h c p items ht hI hchildren
    have ht' : t = (Path.step p pre k post c).plug u := ht
    have hu : u.page ∈ t.pages := by
      rw [ht']
      exact (Path.pages_plug _ _).mem_iff.mpr (List.mem_append_right _ u.page_mem_pages)
    obtain ⟨c', q, es, s', h1, h2, h3, h4⟩ :=
      ih (.step p pre k post c) u fuel _ ht' hI' (by omega)
        ((hv.unpinPage (p := p)).pinned (p := u.page))
    refine ⟨c', q, es, s', h1, h2, ?_, h4⟩
    rw [findLeafLoop, Tree.page_inner, hv.node, hleaf, hget]
    simp only [Bool.false_eq_true, if_false, (hv.unpinPage (p := p)).getPage hu, ne_eq,
      not_true_eq_false]
    exact h3

theorem findLeafInternal_spec (childPageGetter : IndexNode α → PageId)
    (I : ∀ h : Nat, IndexPath α m h → Prop) (hv : View s t.pages hdr st nd)
    (hroot : hdr.rootPageId = some t.page) (hh : Holds nd none t) (hz : t.Sized hdr.bounds true)
    (hb : hdr.bounds.Wide) (hnd : t.pages.Nodup) (htop : I m .top)
    (hstep : ∀ (h : Nat) (c : IndexPath α m (h + 1)) (p : PageId)
      (items : List (Key α × IndexTree α h)), t = c.plug (.inner p items) → items ≠ [] →
      I (h + 1) c → (nd p).children = childLinks items →
      ∃ pre k u post, items = pre ++ (k, u) :: post ∧ childPageGetter (nd p) = u.page ∧
        I h (.step p pre k post c)) :
    ∃ (c : IndexPath α m 0) (p : PageId) (es : List (Key α × RecordId)) (s' : BplusTreeHandler α),
      t = c.plug (.leaf p es) ∧ I 0 c ∧ s.findLeafInternal childPageGetter = (.success, p, s') ∧
      View s' t.pages hdr st nd := by
  have hfuel : m < s.fuel := by
    have h1 := Tree.height_lt_pages hb hz
    have h2 := hv.length_le hnd
    simp only [fuel]
    omega
  have hget := hv.getPage t.page_mem_pages
  obtain ⟨c, p, es, s', h1, h2, h3, h4⟩ := findLeafLoop_spec childPageGetter I hh
    (fun h c p items ht hc hchildren => by
      refine hstep h c p items ht ?_ hc hchildren
      have hpos := (((Path.sized_plug _ c _).mp (ht ▸ hz)).2).pos hb
      rintro rfl
      simp at hpos)
    m .top t s.fuel (s.pinned t.page) rfl htop hfuel hv.pinned
  refine ⟨c, p, es, s', h1, h2, ?_, h4⟩
  simp only [findLeafInternal, hv.fileHeader, hroot, hget, ne_eq, not_true_eq_false, if_false]
  exact h3

theorem leftMostPage_spec (hv : View s t.pages hdr st nd) (hroot : hdr.rootPageId = some t.page)
    (hh : Holds nd none t) (hz : t.Sized hdr.bounds true) (hb : hdr.bounds.Wide)
    (hnd : t.pages.Nodup) :
    ∃ (c : IndexPath α m 0) (p : PageId) (es : List (Key α × RecordId)) (s' : BplusTreeHandler α),
      t = c.plug (.leaf p es) ∧ c.leavesLeft = [] ∧ s.leftMostPage = (.success, p, s') ∧
      View s' t.pages hdr st nd := by
  refine findLeafInternal_spec _ (fun _ c => c.leavesLeft = []) hv hroot hh hz hb hnd rfl ?_
  intro h c p items _ hne hc hchildren
  obtain ⟨⟨k, u⟩, post, rfl⟩ := List.exists_cons_of_ne_nil hne
  exact ⟨[], k, u, post, rfl, by simp [IndexNode.valueAt, hchildren], by simp [Path.leavesLeft, hc]⟩

theorem rightMostPage_spec (hv : View s t.pages hdr st nd) (hroot : hdr.rootPageId = some t.page)
    (hh : Holds nd none t) (hz : t.Sized hdr.bounds true) (hb : hdr.bounds.Wide)
    (hnd : t.pages.Nodup) :
    ∃ (c : IndexPath α m 0) (p : PageId) (es : List (Key α × RecordId)) (s' : BplusTreeHandler α),
      t = c.plug (.leaf p es) ∧ c.leavesRight = [] ∧ s.rightMostPage = (.success, p, s') ∧
      View s' t.pages hdr st nd := by
  refine findLeafInternal_spec _ (fun _ c => c.leavesRight = []) hv hroot hh hz hb hnd rfl ?_
  intro h c p items _ hne hc hchildren
  obtain ⟨pre, ⟨k, u⟩, rfl⟩ := (List.eq_nil_or_concat items).resolve_left hne
  refine ⟨pre, k, u, [], by simp, by simp [IndexNode.valueAt, hchildren], ?_⟩
  simp [Path.leavesRight, hc]

end FindLeaf

/-- `FindLeaf` reaches the leaf where the key belongs; only pins change. -/
theorem findLeaf_spec [Inhabited α] {m : Nat} {hdr : IndexFileHeader} {st : Option PageId}
    {nd : PageId → IndexNode α} {t : IndexTree α m} {s : BplusTreeHandler α} (ha : Agrees cmp S)
    (hS : ∀ k ∈ t.keys, k ∈ S) (hx : x ∈ S) (hv : View s t.pages hdr st nd)
    (hroot : hdr.rootPageId = some t.page) (hh : Holds nd none t) (hs : t.Sorted)
    (hz : t.Sized hdr.bounds true) (hb : hdr.bounds.Wide) (hnd : t.pages.Nodup) :
    ∃ (c : IndexPath α m 0) (p : PageId) (es : List (Key α × RecordId)) (s' : BplusTreeHandler α),
      t = c.plug (.leaf p es) ∧ c.Around x ∧ s.findLeaf cmp x = (.success, p, s') ∧
      View s' t.pages hdr st nd := by
  refine findLeafInternal_spec _ (fun _ c => c.Around x) hv hroot hh hz hb hnd
    ⟨by simp [Path.left], by simp [Path.right]⟩ ?_
  intro h c p items ht hne hc hchildren
  have hsp : Tree.Sorted (c.plug (.inner p items)) := ht ▸ hs
  obtain ⟨pre, k, u, post, rfl, hle, hlt, hc'⟩ := hc.exists_step hsp hne
  refine ⟨pre, k, u, post, rfl, ?_, hc'⟩
  have hin := Tree.sorted_inner.mp (Path.sorted_of_plug hsp)
  have hkS : ∀ it ∈ (pre ++ (k, u) :: post).tail, it.1 ∈ S := fun it hit => by
    refine hS _ (Tree.key_mem_keys (m := sep it.1) ?_)
    rw [ht, Path.marks_plug]
    simp only [List.mem_append]
    exact .inl (.inr (Tree.sep_mem_inner hit))
  have htl : (nd p).children.tail = childLinks (pre ++ (k, u) :: post).tail := by
    rw [hchildren]; exact List.map_tail.symm
  have hlook := (internalLookUp_spec (n := nd p) ha hx (A := childLinks pre)
    (B := childLinks post) (k := k) (c := u.page) (by simpa using hchildren)
    (by
      rw [htl]
      intro it hit
      obtain ⟨it', hit', rfl⟩ := List.mem_map.mp hit
      exact hkS it' hit')
    (by rw [htl, childLinks_keys, List.pairwise_map]; exact hin.2.1)
    (fun hne => hle (by rintro rfl; simp at hne))
    (by
      intro it hit
      obtain ⟨it', hit', rfl⟩ := List.mem_map.mp hit
      exact hlt it' hit')).1
  simp only [hlook, IndexNode.valueAt, hchildren]
  simp

/-! ## Well-formed files and valid views -/

section Valid

variable {s : BplusTreeHandler α} {m : Nat} {t : IndexTree α m} {hdr : IndexFileHeader}
  {nd : PageId → IndexNode α}

theorem WellFormed.valid (ha : Agrees cmp S) (h : WellFormed cmp s t) (hS : ∀ k ∈ t.keys, k ∈ S)
    (hb : s.fileHeader.bounds.Wide) (hf : s.pool.faults = []) : Valid S s s.fileHeader s.node t := by
  have hnd := h.nodup
  simp only [List.nodup_cons, List.mem_cons, not_or] at hnd
  have hlt := h.ordered.congr fun a hka b hkb => ha.lt_iff a (hS a hka) b (hS b hkb)
  refine ⟨⟨⟨hf, h.sound, ⟨hnd.1.2, hnd.2.1⟩, ?_, h.stored, rfl⟩, hnd.2.2, h.holds, h.firstKey,
    h.sized⟩, hlt.sorted hb h.sized, hS, h.linked⟩
  rw [← h.root]

theorem Valid.bounds_eq (h : Valid S s hdr nd t) : s.fileHeader.bounds = hdr.bounds := by
  rw [h.view.fileHeader]; rfl

theorem Valid.wellFormed (ha : Agrees cmp S) (h : Valid S s hdr nd t) : WellFormed cmp s t := by
  have hhd := h.view.fileHeader
  refine ⟨?_, ?_, h.firstKey, ?_, ?_, ?_, h.view.stored, ?_, h.view.sound⟩
  · rw [h.view.node]; exact h.holds
  · exact h.sorted.ordered.congr fun a hka b hkb =>
      (ha.lt_iff a (h.keys a hka) b (h.keys b hkb)).symm
  · rw [hhd]; exact h.sized
  · rw [h.view.node]; exact h.linked
  · rw [hhd]
  · have hap := h.view.apart
    simp only [List.nodup_cons, List.mem_cons, not_or]
    exact ⟨⟨by decide, hap.1⟩, hap.2, h.nodup⟩

end Valid

end BplusTreeHandler

end Idmbs
