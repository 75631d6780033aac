import Idmbs.BPlusTree.Insert
import Idmbs.BPlusTree.Scanner
import Idmbs.Lib.Chunks

/-!
# Idmbs.BPlusTree.Scan

A scan yields the entries inside its bounds, in key order. `Open` leaves the scanner `Ready` for the
entries between two positions of the chain of leaves; every `NextEntry` takes one of them.
-/

namespace Idmbs

open SearchTree SearchTree.Mark Comparator Chunks

/-- The leaves `cs` as the pages hold them: in a chain, and none of them empty. -/
structure LeafChain {α : Type} (nd : PageId → IndexNode α) (keep : List PageId)
    (cs : List (PageId × List (Key α × RecordId))) : Prop where
  nodup : (cs.map Prod.fst).Nodup
  linked : Chain.Linked (fun p => (nd p).prevBrother) (fun p => (nd p).nextBrother) none
    (cs.map Prod.fst) none
  node : ∀ l ∈ cs, (nd l.1).isLeaf = true ∧ (nd l.1).entries = l.2
  nonempty : ∀ l ∈ cs, l.2 ≠ []
  keep : ∀ l ∈ cs, l.1 ∈ keep

section LeafChain

variable {α : Type} {nd : PageId → IndexNode α} {keep : List PageId}
  {cs X Y : List (PageId × List (Key α × RecordId))} {p : PageId} {es : List (Key α × RecordId)}

theorem LeafChain.next_eq (h : LeafChain nd keep cs) (ha : At cs p X es Y) :
    (nd p).nextBrother = Y.head?.map Prod.fst := by
  have hl := h.linked
  rw [ha.eq, List.map_append, List.map_cons, Chain.linked_append] at hl
  simpa using hl.2.2.1

theorem LeafChain.prev_eq (h : LeafChain nd keep cs) (ha : At cs p X es Y) :
    (nd p).prevBrother = X.getLast?.map Prod.fst := by
  have hl := h.linked
  rw [ha.eq, List.map_append, List.map_cons, Chain.linked_append] at hl
  simpa using hl.2.1

theorem LeafChain.entries_eq (h : LeafChain nd keep cs) (ha : At cs p X es Y) :
    (nd p).entries = es := (h.node _ ha.mem).2

theorem LeafChain.size_eq (h : LeafChain nd keep cs) (ha : At cs p X es Y) :
    (nd p).size = es.length := by
  rw [IndexNode.size, (h.node _ ha.mem).1, h.entries_eq ha, if_pos rfl]

theorem LeafChain.length_pos (h : LeafChain nd keep cs) (ha : At cs p X es Y) : 0 < es.length :=
  List.length_pos_of_ne_nil (h.nonempty _ ha.mem)

end LeafChain

namespace BplusTreeScanner

variable {α : Type} {nd : PageId → IndexNode α} {keep : List PageId}
  {cs : List (PageId × List (Key α × RecordId))} {hdr : IndexFileHeader} {st : Option PageId}
  {sc : BplusTreeScanner α} {A M : List (Key α × RecordId)}

/-- The scanner stands behind the entries `A`, on an entry. -/
def Starts (cs : List (PageId × List (Key α × RecordId))) (sc : BplusTreeScanner α)
    (A : List (Key α × RecordId)) : Prop :=
  ∃ p X es Y, ∃ j : Nat, At cs p X es Y ∧ sc.leftFrame = some p ∧ sc.iterIndex = j ∧
    j < es.length ∧ A = items X ++ es.take j

/-- The scan ends with the last entry of `A`. -/
def Ends (cs : List (PageId × List (Key α × RecordId))) (sc : BplusTreeScanner α)
    (A : List (Key α × RecordId)) : Prop :=
  ∃ q X es Y, ∃ k : Nat, At cs q X es Y ∧ sc.rightFrame = some q ∧ sc.endIndex = k ∧
    k < es.length ∧ A = items X ++ es.take (k + 1)

/-- The scanner has yet to yield the entries `M`. -/
structure Ready (cs : List (PageId × List (Key α × RecordId))) (keep : List PageId)
    (hdr : IndexFileHeader) (st : Option PageId) (nd : PageId → IndexNode α)
    (sc : BplusTreeScanner α) (M : List (Key α × RecordId)) : Prop where
  view : sc.treeHandler.View keep hdr st nd
  range : (sc.endIndex = -1 ∧ M = []) ∨ M ≠ [] ∧ ∃ A, Starts cs sc A ∧ Ends cs sc (A ++ M)

theorem nextEntry_spec (hc : LeafChain nd keep cs) {e : Key α × RecordId}
    (hr : Ready cs keep hdr st nd sc (e :: M)) :
    ∃ sc', sc.nextEntry = (.success, e.2, sc') ∧ Ready cs keep hdr st nd sc' M := by
  obtain ⟨hv, ⟨-, hM⟩ | ⟨-, A, ⟨p, X, es, Y, j, hp, hpf, hji, hj, rfl⟩,
    ⟨q, X', es', Y', k, hq, hqf, hki, hk, hA⟩⟩⟩ := hr
  · cases hM
  obtain ⟨inited, _, _, _, _, s⟩ := sc
  subst hpf hji hqf hki
  have hne : (k : Int) ≠ -1 := by omega
  -- the entry the scanner stands on
  have hcut : es.drop j = es[j] :: es.drop (j + 1) := List.drop_eq_getElem_cons hj
  have hlen := congrArg List.length hA
  simp only [List.length_append, List.length_take, List.length_cons] at hlen
  have hpre : items X ++ es.take j ++ e :: M <+: items cs := by
    rw [hA, hq.items_eq, List.append_assoc]
    exact (List.prefix_append_right_inj _).mpr ((List.take_prefix _ _).trans (List.prefix_append _ _))
  have hej : e = es[j] := by
    rw [hp.items_eq, List.append_assoc, List.append_assoc, List.prefix_append_right_inj] at hpre
    conv at hpre => rhs; rw [← List.take_append_drop j es]
    rw [List.append_assoc, List.prefix_append_right_inj, hcut, List.cons_append,
      List.cons_prefix_cons] at hpre
    exact hpre.1
  have hrid : (es.map Prod.snd).getD j default = e.2 := by
    rw [hej]; simp [hj]
  have hnext : items X ++ es.take (j + 1) = items X ++ es.take j ++ [e] := by
    rw [List.take_succ_eq_append_getElem hj, hej, List.append_assoc]
  simp only [nextEntry, hne, if_false, leafAt, hv.node, Int.toNat_natCast, hc.entries_eq hp, hrid,
    hc.size_eq hp, Option.some.injEq, Option.getD_some]
  by_cases hpq : p = q
  · subst hpq
    obtain ⟨rfl, rfl, rfl⟩ := hp.unique hc.nodup hq
    by_cases hjk : (j : Int) = k
    · -- the last entry
      obtain rfl : j = k := by omega
      have hM : M = [] := by
        refine List.eq_nil_of_length_eq_zero ?_
        omega
      exact ⟨_, if_pos ⟨rfl, rfl⟩, hv, .inl ⟨rfl, hM⟩⟩
    · have hM : M ≠ [] := by
        rintro rfl
        simp only [List.length_nil] at hlen
        omega
      have hlt : (j : Int) < es.length - 1 := by
        have := List.length_pos_of_ne_nil hM
        omega
      refine ⟨_, (if_neg fun h => hjk h.2).trans (if_pos hlt), hv, .inr ⟨hM, _, ⟨p, X, es, Y, j + 1,
        hp, rfl, by simp, by omega, rfl⟩, ⟨p, X, es, Y, k, hq, rfl, rfl, hk, ?_⟩⟩⟩
      rw [hnext, ← hA]
      simp
  · rw [if_neg (fun h => hpq h.1)]
    -- the chunk of `p` comes before that of `q`
    obtain ⟨Z, rfl⟩ : ∃ Z, X' = X ++ (p, es) :: Z := by
      rcases hp.order hq with hZ | ⟨Z, rfl⟩ | ⟨h1, -⟩
      · exact hZ
      · simp only [items_append, items_cons, List.length_append] at hlen
        omega
      · exact absurd h1 hpq
    simp only [items_append, items_cons, List.length_append] at hlen
    have hM : M ≠ [] := by
      rintro rfl
      simp only [List.length_nil] at hlen
      omega
    have hend : items X ++ es.take (j + 1) ++ M =
        items (X ++ (p, es) :: Z) ++ es'.take (k + 1) := by
      rw [hnext, ← hA]; simp
    by_cases hlt : (j : Int) < es.length - 1
    · exact ⟨_, if_pos hlt, hv, .inr ⟨hM, _, ⟨p, X, es, Y, j + 1, hp, rfl, by simp, by omega,
        rfl⟩, ⟨q, _, es', Y', k, hq, rfl, rfl, hk, hend⟩⟩⟩
    · -- on to the next leaf
      rw [if_neg hlt, if_pos (by simpa using hpq)]
      obtain ⟨c, Y2, hY⟩ : ∃ c Y2, Y = c :: Y2 := by
        have h1 := hp.eq.symm.trans hq.eq
        rw [List.append_assoc] at h1
        have h2 := (List.cons.inj (List.append_cancel_left h1)).2
        cases Z with
        | nil => exact ⟨_, _, h2⟩
        | cons z Z => exact ⟨_, _, h2⟩
      have hpc : At cs c.1 (X ++ [(p, es)]) c.2 Y2 := ⟨by rw [hp.eq, hY]; simp⟩
      have hnx : (nd p).nextBrother = some c.1 := by rw [hc.next_eq hp, hY]; rfl
      have hkc : c.1 ∈ keep := hc.keep c hpc.mem
      simp only [hnx, (hv.unpinPage (p := p)).getPage hkc, ne_eq, not_true_eq_false, if_false]
      have hje : j + 1 = es.length := by omega
      refine ⟨_, rfl, hv.unpinPage.pinned, .inr ⟨hM, _, ⟨c.1, _, c.2, Y2, 0, hpc, rfl, rfl,
        hc.length_pos hpc, rfl⟩, ⟨q, _, es', Y', k, hq, rfl, rfl, hk, ?_⟩⟩⟩
      rw [← hend, hje]
      simp

theorem nextEntry_eof (hr : Ready cs keep hdr st nd sc []) :
    sc.nextEntry = (.recordEof, default, sc) := by
  obtain ⟨-, ⟨he, -⟩ | ⟨h, -⟩⟩ := hr
  · simp [nextEntry, he]
  · exact absurd rfl h

theorem drain_spec (hc : LeafChain nd keep cs) : ∀ {M : List (Key α × RecordId)} {fuel : Nat}
    {sc : BplusTreeScanner α}, M.length < fuel → Ready cs keep hdr st nd sc M →
    ∃ sc', sc.drain fuel = (.recordEof, M.map Prod.snd, sc') := by
  intro M
  induction M with
  | nil =>
    intro fuel sc hf hr
    obtain ⟨fuel, rfl⟩ := Nat.exists_eq_succ_of_ne_zero (Nat.ne_of_gt hf)
    exact ⟨sc, by simp [drain, nextEntry_eof hr]⟩
  | cons e M ih =>
    intro fuel sc hf hr
    obtain ⟨fuel, rfl⟩ := Nat.exists_eq_succ_of_ne_zero (Nat.ne_of_gt (Nat.zero_lt_of_lt hf))
    obtain ⟨sc1, e1, hr1⟩ := nextEntry_spec hc hr
    obtain ⟨sc2, e2⟩ := ih (show M.length < fuel by simpa using hf) hr1
    exact ⟨sc2, by simp [drain, e1, e2]⟩

/-- The end of `Open`: between the two positions lie the entries `M`. -/
theorem closeEmptyRange_spec (hc : LeafChain nd keep cs) (hv : sc.treeHandler.View keep hdr st nd)
    (hs : Starts cs sc A) (he : Ends cs sc (A ++ M)) :
    Ready cs keep hdr st nd sc.closeEmptyRange M := by
  have hs' := hs
  have he' := he
  obtain ⟨p, X, es, Y, j, hp, hpf, hji, hj, rfl⟩ := hs
  obtain ⟨q, X', es', Y', k, hq, hqf, hki, hk, hA⟩ := he
  have hlen := congrArg List.length hA
  simp only [List.length_append, List.length_take] at hlen
  obtain ⟨inited, _, _, _, _, s⟩ := sc
  subst hpf hji hqf hki
  simp only [closeEmptyRange, leafAt, hv.node, hc.prev_eq hp, Option.some.injEq]
  by_cases hM : M = []
  · subst hM
    simp only [List.length_nil] at hlen
    have hclosed : Ready cs keep hdr st nd ⟨inited, some p, some q, j, -1, s⟩ [] :=
      ⟨hv, .inl ⟨rfl, rfl⟩⟩
    rcases hp.order hq with ⟨Z, rfl⟩ | ⟨Z, rfl⟩ | ⟨rfl, rfl, rfl, rfl⟩
    · simp only [items_append, items_cons, List.length_append] at hlen
      omega
    · -- the first entry comes right behind the last one, on the next page
      simp only [items_append, items_cons, List.length_append] at hlen
      have hZ : Z = [] := by
        rcases List.eq_nil_or_concat Z with hZ | ⟨Z, c, rfl⟩
        · exact hZ
        · have := List.length_pos_of_ne_nil (hc.nonempty c (hp.mem_left (by simp)))
          rw [List.concat_eq_append, items_append, List.length_append] at hlen
          simp only [items_cons, items_nil, List.append_nil] at hlen
          omega
      subst hZ
      split
      · exact hclosed
      · simpa using hclosed
    · rw [if_pos ⟨rfl, by omega⟩]; exact hclosed
  · have hM1 := List.length_pos_of_ne_nil hM
    have h1 : ¬(p = q ∧ (k : Int) < j) := by
      rintro ⟨rfl, hkj⟩
      obtain ⟨rfl, rfl, rfl⟩ := hp.unique hc.nodup hq
      omega
    have h2 : X.getLast?.map Prod.fst ≠ some q := by
      intro hl
      rcases List.eq_nil_or_concat X with rfl | ⟨X0, c, rfl⟩
      · simp at hl
      · rw [List.concat_eq_append] at *
        obtain rfl : c.1 = q := by simpa using hl
        have hc' : At cs c.1 X0 c.2 ((p, es) :: Y) := ⟨by rw [hp.eq]; simp⟩
        obtain ⟨rfl, rfl, rfl⟩ := hc'.unique hc.nodup hq
        simp only [items_append, items_cons, items_nil, List.append_nil, List.length_append] at hlen
        omega
    rw [if_neg h1, if_neg h2]
    exact ⟨hv, .inr ⟨hM, _, hs', he'⟩⟩

end BplusTreeScanner

/-! ## The two ends of a scan -/

section Open

variable {α : Type} [LinearOrder (Key α)] {S : Set (Key α)} {s : BplusTreeHandler α}
  {hdr : IndexFileHeader} {nd : PageId → IndexNode α} {m : Nat} {t : IndexTree α m}
  {attrComparator : α → α → Int} {ridCompare : RecordId → RecordId → Int}

namespace BplusTreeHandler

theorem Valid.leafChain (h : Valid S s hdr nd t) (hb : hdr.bounds.Wide) :
    LeafChain nd t.pages t.leaves :=
  ⟨h.nodup.sublist (Tree.leaves_sublist _), h.linked, fun _ hl => h.holds.leaf_of_mem hl,
    fun _ hl => h.sized.leaf_ne_nil hb hl, fun _ hl => Tree.leaf_page_mem hl⟩

theorem Valid.entry_mem (h : Valid S s hdr nd t) {e : Key α × RecordId} (he : e ∈ t.entries) :
    e.1 ∈ S :=
  h.keys _ (Tree.key_mem_keys (Tree.ent_mem_marks he))

/-- `FindLeaf` and `LookUp` cut the chain of leaves at the searched key. -/
theorem Valid.find_cut [Inhabited α] {cmp : Key α → Key α → Int} (ha : Agrees cmp S)
    (hb : hdr.bounds.Wide) (h : Valid S s hdr nd t) {x : Key α} (hx : x ∈ S) :
    ∃ p X es Y A B s', s.findLeaf cmp x = (.success, p, s') ∧
      View s' t.pages { hdr with rootPageId := some t.page } (some t.page) nd ∧
      At t.leaves p X es Y ∧ es = A ++ B ∧ ((nd p).leafLookUp cmp x).1 = A.length ∧
      (∀ e ∈ items X ++ A, e.1 < x) ∧ ∀ e ∈ B ++ items Y, x ≤ e.1 := by
  obtain ⟨c, p, es, s', ht, hc, hfind, hv⟩ := findLeaf_spec ha h.keys hx h.view rfl h.holds h.sorted
    h.sized hb h.nodup
  have hat : At t.leaves p c.leavesLeft es c.leavesRight :=
    ⟨by rw [ht, Path.leaves_plug, Tree.leaves_leaf]; simp⟩
  have hes : (nd p).entries = es := (h.leafChain hb).entries_eq hat
  have hsorted : Tree.Sorted (.leaf p es : IndexTree α 0) := Path.sorted_of_plug (ht ▸ h.sorted)
  obtain ⟨A, B, hAB, hpos, hA, hB⟩ := leafLookUp_spec (n := nd p) ha
    (fun e he => h.entry_mem (by rw [Tree.entries, hat.eq]; simp [← hes, he])) hx
    (by rw [hes, List.pairwise_map]; simpa [Tree.Sorted, List.pairwise_map] using hsorted)
  refine ⟨p, _, es, _, A, B, s', hfind, hv, hat, hes ▸ hAB, hpos, fun e he => ?_, fun e he => ?_⟩
  · rcases List.mem_append.mp he with he | he
    · exact ent_lt_ent.mp (hc.left _ (c.ent_mem_left he))
    · exact hA e he
  · rcases List.mem_append.mp he with he | he
    · rcases hB with ⟨-, hB⟩ | ⟨-, v, B', rfl, hB⟩
      · exact le_of_lt (hB e he)
      · rcases List.mem_cons.mp he with rfl | he
        · exact le_refl _
        · exact le_of_lt (hB e he)
    · exact le_of_lt (ent_lt_ent.mp (hc.right _ (c.ent_mem_right he)))

end BplusTreeHandler

namespace BplusTreeScanner

open BplusTreeHandler

variable [Inhabited α] {fixUserKey : α → Nat → Bool → α × Bool} {sc : BplusTreeScanner α}

/-- The key `Open` searches for a bound; `up` says whether it stands behind the stored keys with the
bound's value. -/
def boundKey (up : Bool) (v : α) : Key α := ⟨v, if up then RecordId.max else RecordId.min⟩

omit [LinearOrder (Key α)] [Inhabited α] in
theorem fixedBound_eq (hty : sc.treeHandler.fileHeader.attrType ≠ .chars) (v : α) (len : Nat)
    (want incl : Bool) : sc.fixedBound fixUserKey v len want incl = (v, incl) := by
  rw [fixedBound, if_neg hty]

theorem openLeft_spec (fixUserKey : α → Nat → Bool → α × Bool) (sc : BplusTreeScanner α)
    (ha : Agrees (keyComparator attrComparator ridCompare) S)
    (hb : hdr.bounds.Wide) (h : Valid S sc.treeHandler hdr nd t)
    (hty : sc.treeHandler.fileHeader.attrType ≠ .chars) (left : Option α) (len : Nat) (incl : Bool)
    (hS : ∀ v ∈ left, boundKey (!incl) v ∈ S) :
    ∃ A B sc', t.entries = A ++ B ∧ (∀ e ∈ A, ∃ v ∈ left, e.1 < boundKey (!incl) v) ∧
      (∀ e ∈ B, ∀ v ∈ left, boundKey (!incl) v ≤ e.1) ∧
      sc.openLeft attrComparator ridCompare fixUserKey left len incl =
        (if B = [] then some .success else none, sc') ∧
      View sc'.treeHandler t.pages { hdr with rootPageId := some t.page } (some t.page) nd ∧
      sc'.endIndex = sc.endIndex ∧ (B ≠ [] → Starts t.leaves sc' A) := by
  have hch := h.leafChain hb
  cases left with
  | none =>
    obtain ⟨c, p, es, s', ht, hc, hfind, hv⟩ := leftMostPage_spec h.view rfl h.holds h.sized hb h.nodup
    have hat : At t.leaves p [] es c.leavesRight :=
      ⟨by rw [ht, Path.leaves_plug, Tree.leaves_leaf, hc]; rfl⟩
    have hne : t.entries ≠ [] := by
      have := hch.length_pos hat
      refine List.ne_nil_of_length_pos ?_
      rw [show t.entries = items t.leaves from rfl, hat.items_eq]
      simp only [items_nil, List.nil_append, List.length_append]
      omega
    refine ⟨[], t.entries, { sc with leftFrame := some p, iterIndex := 0, treeHandler := s' }, rfl,
      by simp, by simp, ?_, hv, rfl, fun _ =>
      ⟨p, [], es, _, 0, hat, rfl, rfl, hch.length_pos hat, rfl⟩⟩
    simp only [openLeft, hfind, hne, ne_eq, not_true_eq_false, if_false]
  | some v =>
    obtain ⟨p, X, es, Y, A, B, s', hfind, hv, hat, rfl, hpos, hA, hB⟩ := h.find_cut ha hb (hS v rfl)
    have hkey : (⟨v, if incl then RecordId.min else RecordId.max⟩ : Key α) = boundKey (!incl) v := by
      cases incl <;> rfl
    have hent : t.entries = (items X ++ A) ++ (B ++ items Y) := by
      rw [show t.entries = items t.leaves from rfl, hat.items_eq]; simp
    simp only [openLeft, fixedBound_eq hty, hkey, hfind, ne_eq, not_true_eq_false, if_false, hv.node,
      hpos, hch.size_eq hat, List.length_append]
    by_cases hend : B = []
    · subst hend
      rw [if_pos (by simp), hch.next_eq hat]
      cases Y with
      | nil =>
        exact ⟨items X ++ A, [], _, hent, by simpa using hA, by simp, rfl, hv, rfl,
          fun hne => absurd rfl hne⟩
      | cons c Y =>
        have hat' : At t.leaves c.1 (X ++ [(p, A ++ [])]) c.2 Y := ⟨by rw [hat.eq]; simp⟩
        have hpos' := hch.length_pos hat'
        have hne : c.2 ++ items Y ≠ [] := by simp [List.ne_nil_of_length_pos hpos']
        simp only [List.head?_cons, Option.map_some, (hv.unpinPage (p := p)).getPage
          (hch.keep c hat'.mem), not_true_eq_false, if_false]
        refine ⟨items X ++ A, c.2 ++ items Y, _, hent, by simpa using hA, by simpa using hB,
          Prod.ext (if_neg hne).symm rfl, hv.unpinPage.pinned, rfl, fun _ =>
          ⟨c.1, _, c.2, Y, 0, hat', rfl, rfl, hpos', by simp⟩⟩
    · have hlen := List.length_pos_of_ne_nil hend
      rw [if_neg (by omega)]
      refine ⟨items X ++ A, B ++ items Y, _, hent, by simpa using hA, by simpa using hB,
        Prod.ext (if_neg (by simp [hend])).symm rfl, hv, rfl, fun _ =>
        ⟨p, X, A ++ B, Y, A.length, hat, rfl, rfl, by rw [List.length_append]; omega, by simp⟩⟩

theorem openRight_spec (fixUserKey : α → Nat → Bool → α × Bool) (sc : BplusTreeScanner α)
    (ha : Agrees (keyComparator attrComparator ridCompare) S)
    (hb : hdr.bounds.Wide) (h : Valid S sc.treeHandler hdr nd t)
    (hty : sc.treeHandler.fileHeader.attrType ≠ .chars) (right : Option α) (len : Nat) (incl : Bool)
    (hS : ∀ v ∈ right, boundKey incl v ∈ S) :
    ∃ A B sc', t.entries = A ++ B ∧ (∀ e ∈ A, ∀ v ∈ right, e.1 < boundKey incl v) ∧
      (∀ e ∈ B, ∃ v ∈ right, boundKey incl v ≤ e.1) ∧
      sc.openRight attrComparator ridCompare fixUserKey right len incl =
        (if A = [] then some .success else none, sc') ∧
      View sc'.treeHandler t.pages { hdr with rootPageId := some t.page } (some t.page) nd ∧
      (A = [] → sc'.endIndex = -1) ∧ (A ≠ [] → Ends t.leaves sc' A) ∧
      ∀ A', Starts t.leaves sc A' → Starts t.leaves sc' A' := by
  have hch := h.leafChain hb
  cases right with
  | none =>
    obtain ⟨c, p, es, s', ht, hc, hfind, hv⟩ :=
      rightMostPage_spec h.view rfl h.holds h.sized hb h.nodup
    have hat : At t.leaves p c.leavesLeft es [] :=
      ⟨by rw [ht, Path.leaves_plug, Tree.leaves_leaf, hc]; simp⟩
    have hpos := hch.length_pos hat
    have hent : t.entries = items c.leavesLeft ++ es := by
      rw [show t.entries = items t.leaves from rfl, hat.items_eq]; simp
    have hne : t.entries ≠ [] := by simp [hent, List.ne_nil_of_length_pos hpos]
    refine ⟨t.entries, [], { sc with
      rightFrame := some p, endIndex := (s'.node p).size - 1, treeHandler := s' }, by simp, by simp,
      by simp, ?_, hv, fun he => absurd he hne, fun _ =>
      ⟨p, _, es, _, es.length - 1, hat, rfl, ?_, by omega, ?_⟩, fun A' hs => hs⟩
    · simp only [openRight, hfind, hne, ne_eq, not_true_eq_false, if_false]
    · simp only [hv.node, hch.size_eq hat]; omega
    · rw [hent, show es.length - 1 + 1 = es.length by omega, List.take_length]
  | some v =>
    obtain ⟨p, X, es, Y, A, B, s', hfind, hv, hat, rfl, hpos, hA, hB⟩ := h.find_cut ha hb (hS v rfl)
    have hkey : (⟨v, if incl then RecordId.max else RecordId.min⟩ : Key α) = boundKey incl v := rfl
    have hent : t.entries = (items X ++ A) ++ (B ++ items Y) := by
      rw [show t.entries = items t.leaves from rfl, hat.items_eq]; simp
    simp only [openRight, fixedBound_eq hty, hkey, hfind, ne_eq, not_true_eq_false, if_false, hv.node,
      hpos]
    by_cases hstart : A = []
    · subst hstart
      rw [if_neg (by simp), hch.prev_eq hat]
      rcases List.eq_nil_or_concat X with rfl | ⟨X, c, rfl⟩
      · exact ⟨[], B ++ items Y, _, hent, by simp, by simpa using hB, rfl, hv, fun _ => rfl,
          fun hne => absurd rfl hne, fun A' hs => hs⟩
      · rw [List.concat_eq_append] at *
        have hat' : At t.leaves c.1 X c.2 ((p, [] ++ B) :: Y) := ⟨by rw [hat.eq]; simp⟩
        have hpos' := hch.length_pos hat'
        have hne : items X ++ c.2 ≠ [] := by simp [List.ne_nil_of_length_pos hpos']
        simp only [List.getLast?_append, List.getLast?_singleton, Option.some_or, Option.map_some,
          (hv.unpinPage (p := p)).getPage (hch.keep c hat'.mem), not_true_eq_false, if_false]
        have hv2 := (hv.unpinPage (p := p)).pinned (p := c.1)
        refine ⟨items X ++ c.2, B ++ items Y, _, by simpa using hent, by simpa using hA,
          by simpa using hB, Prod.ext (if_neg hne).symm rfl, hv2, fun he => absurd he hne, fun _ =>
          ⟨c.1, X, c.2, _, c.2.length - 1, hat', rfl, ?_, by omega, ?_⟩, fun A' hs => hs⟩
        · simp only [hv2.node, hch.size_eq hat']; omega
        · rw [show c.2.length - 1 + 1 = c.2.length by omega, List.take_length]
    · have hlen := List.length_pos_of_ne_nil hstart
      rw [if_pos hlen]
      refine ⟨items X ++ A, B ++ items Y, _, hent, by simpa using hA, by simpa using hB,
        Prod.ext (if_neg (by simp [hstart])).symm rfl, hv, fun he => absurd he (by simp [hstart]),
        fun _ =>
        ⟨p, X, A ++ B, Y, A.length - 1, hat, rfl, by simp only; omega, ?_, ?_⟩, fun A' hs => hs⟩
      · rw [List.length_append]; omega
      · rw [show A.length - 1 + 1 = A.length by omega, List.take_left]

end BplusTreeScanner

end Open

/-! ## Whole scans -/

namespace BplusTreeScanner

open BplusTreeHandler

variable {α : Type} {attrComparator : α → α → Int} {ridCompare : RecordId → RecordId → Int}
  {A : Set α} {R : Set RecordId}

def aboveLeft (attrComparator : α → α → Int) (leftUserKey : Option α) (leftInclusive : Bool) (v : α) :
    Bool :=
  match leftUserKey with
  | none => true
  | some left =>
    if leftInclusive then decide (0 ≤ attrComparator v left) else decide (0 < attrComparator v left)

def belowRight (attrComparator : α → α → Int) (rightUserKey : Option α) (rightInclusive : Bool)
    (v : α) : Bool :=
  match rightUserKey with
  | none => true
  | some right =>
    if rightInclusive then decide (attrComparator v right ≤ 0)
    else decide (attrComparator v right < 0)

/-- Whether an attribute value lies between the bounds. -/
def inRange (attrComparator : α → α → Int) (leftUserKey : Option α) (leftInclusive : Bool)
    (rightUserKey : Option α) (rightInclusive : Bool) (v : α) : Bool :=
  aboveLeft attrComparator leftUserKey leftInclusive v &&
    belowRight attrComparator rightUserKey rightInclusive v

/-- Keys made of the attribute values in `A` and the record ids in `R`. -/
def keysOver (A : Set α) (R : Set RecordId) : Set (Key α) := {k | k.attr ∈ A ∧ k.rid ∈ R}

/-- Where keys are ordered, so are their attributes. -/
theorem attr_strictTotal
    (h : StrictTotalOn (keyComparator attrComparator ridCompare) (keysOver A R)) {r : RecordId}
    (hr : r ∈ R) : StrictTotalOn attrComparator A := by
  have hkey : ∀ a ∈ A, (⟨a, r⟩ : Key α) ∈ keysOver A R := fun a ha => ⟨ha, hr⟩
  have hself : ∀ a ∈ A, attrComparator a a = 0 ∧ ridCompare r r = 0 := by
    intro a ha
    have := (h.eq_iff _ (hkey a ha) _ (hkey a ha)).mpr rfl
    simp only [keyComparator] at this
    split_ifs at this with h0
    · exact absurd this h0
    · exact ⟨not_not.mp h0, this⟩
  have heq : ∀ a ∈ A, ∀ b ∈ A, attrComparator a b = 0 ↔ a = b := by
    refine fun a ha b hb => ⟨fun h0 => ?_, fun e => e ▸ (hself a ha).1⟩
    have : keyComparator attrComparator ridCompare (⟨a, r⟩ : Key α) ⟨b, r⟩ = 0 := by
      simp [keyComparator, h0, (hself a ha).2]
    exact congrArg Key.attr ((h.eq_iff _ (hkey a ha) _ (hkey b hb)).mp this)
  have hval : ∀ a ∈ A, ∀ b ∈ A,
      keyComparator attrComparator ridCompare (⟨a, r⟩ : Key α) ⟨b, r⟩ = attrComparator a b := by
    intro a ha b hb
    simp only [keyComparator]
    split_ifs with h0
    · rfl
    · rw [(hself a ha).2, not_not.mp h0]
  refine ⟨heq, fun a ha b hb => ?_, fun a ha b hb c hc => ?_⟩
  · have := h.gt_iff _ (hkey a ha) _ (hkey b hb)
    rwa [hval a ha b hb, hval b hb a ha] at this
  · have := h.trans _ (hkey a ha) _ (hkey b hb) _ (hkey c hc)
    rwa [hval a ha b hb, hval b hb c hc, hval a ha c hc] at this

section Range

variable [LinearOrder (Key α)] {s : BplusTreeHandler α} {hdr : IndexFileHeader}
  {nd : PageId → IndexNode α} {m : Nat} {t : IndexTree α m}

/-- What the scan asks of the stored keys: for their value `v` they lie from `(v, Min)` on and below
`(v, Max)`. -/
structure RidsBounded (attrComparator : α → α → Int) (ridCompare : RecordId → RecordId → Int)
    (k : Key α) : Prop where
  min : keyComparator attrComparator ridCompare ⟨k.attr, RecordId.min⟩ k ≤ 0
  max : 0 < keyComparator attrComparator ridCompare ⟨k.attr, RecordId.max⟩ k

theorem lt_boundKey (ha : Agrees (keyComparator attrComparator ridCompare) (keysOver A R))
    (hA : StrictTotalOn attrComparator A) (hmin : RecordId.min ∈ R) (hmax : RecordId.max ∈ R)
    {k : Key α} (hk : k ∈ keysOver A R) (hrid : RidsBounded attrComparator ridCompare k) {v : α}
    (hv : v ∈ A) (up : Bool) :
    k < boundKey up v ↔ if up then attrComparator k.attr v ≤ 0 else attrComparator k.attr v < 0 := by
  have hb : boundKey up v ∈ keysOver A R := ⟨hv, by cases up; exacts [hmin, hmax]⟩
  rw [← ha.lt_iff k hk _ hb]
  by_cases h0 : attrComparator k.attr v = 0
  · -- the same value: the record id decides
    obtain rfl : k.attr = v := (hA.eq_iff _ hk.1 _ hv).mp h0
    cases up
    · have h1 : 0 ≤ keyComparator attrComparator ridCompare k (boundKey false k.attr) :=
        (ha.nonneg_iff hk hb).mpr (not_lt.mp ((ha.gt_iff _ hb _ hk).not.mp (not_lt.mpr hrid.min)))
      simp only [h0, Bool.false_eq_true, if_false]
      omega
    · have h1 : keyComparator attrComparator ridCompare k (boundKey true k.attr) < 0 :=
        (ha.lt_iff _ hk _ hb).mpr ((ha.gt_iff _ hb _ hk).mp hrid.max)
      simp only [h0, if_true, le_refl, iff_true]
      exact h1
  · have hval : keyComparator attrComparator ridCompare k (boundKey up v) =
        attrComparator k.attr v := by
      simp [keyComparator, boundKey, h0]
    rw [hval]
    cases up
    · simp
    · simp only [if_true]
      omega

omit [LinearOrder (Key α)] in
/-- Bounds that `Open` accepts do not cross. -/
theorem le_of_validRange (hA : StrictTotalOn attrComparator A) {left right v : α} {li ri : Bool}
    (hl : left ∈ A) (hr : right ∈ A) (hv : v ∈ A)
    (hok : validRange attrComparator (some left) li (some right) ri = true)
    (hlt : if !li then attrComparator v left ≤ 0 else attrComparator v left < 0) :
    if ri then attrComparator v right ≤ 0 else attrComparator v right < 0 := by
  simp only [validRange, Bool.not_eq_true', Bool.or_eq_false_iff, decide_eq_false_iff_not, not_lt,
    Bool.and_eq_false_iff, beq_eq_false_iff_ne, Bool.not_eq_false'] at hok
  obtain ⟨hle, hincl⟩ := hok
  rcases Int.lt_or_eq_of_le hle with hlr | hlr
  · have hvr : attrComparator v right < 0 := by
      by_cases h0 : attrComparator v left = 0
      · rw [(hA.eq_iff _ hv _ hl).mp h0]; exact hlr
      · refine hA.trans _ hv _ hl _ hr ?_ hlr
        split at hlt
        · omega
        · exact hlt
    split
    · exact le_of_lt hvr
    · exact hvr
  · obtain ⟨rfl, rfl⟩ : li = true ∧ ri = true := by
      rcases hincl with h0 | h0
      · exact absurd hlr h0
      · exact h0
    obtain rfl := (hA.eq_iff _ hl _ hr).mp hlr
    exact le_of_lt (by simpa using hlt)

variable [Inhabited α]

/-- `Open` gets the scanner ready for the entries in range. -/
theorem openScan_spec (fixUserKey : α → Nat → Bool → α × Bool)
    (ha : Agrees (keyComparator attrComparator ridCompare) (keysOver A R))
    (hA : StrictTotalOn attrComparator A) (hmin : RecordId.min ∈ R) (hmax : RecordId.max ∈ R)
    (hb : hdr.bounds.Wide) (h : Valid (keysOver A R) s hdr nd t) (hty : s.fileHeader.attrType ≠ .chars)
    (hrid : ∀ e ∈ t.entries, RidsBounded attrComparator ridCompare e.1) {left right : Option α}
    (li ri : Bool) (leftLen rightLen : Nat) (hl : ∀ v ∈ left, v ∈ A) (hr : ∀ v ∈ right, v ∈ A)
    (hok : validRange attrComparator left li right ri = true) :
    ∃ sc, (new s).openScan attrComparator ridCompare fixUserKey left leftLen li right rightLen ri =
        (.success, sc) ∧
      Ready t.leaves t.pages { hdr with rootPageId := some t.page } (some t.page) nd sc
        (t.entries.filter fun e => inRange attrComparator left li right ri e.1.attr) := by
  have hch := h.leafChain hb
  have hkey : ∀ (up : Bool) (v : α), v ∈ A → boundKey up v ∈ keysOver A R := fun up v hv =>
    ⟨hv, by cases up; exacts [hmin, hmax]⟩
  have hlt : ∀ e ∈ t.entries, ∀ {v}, v ∈ A → ∀ up : Bool, e.1 < boundKey up v ↔
      if up then attrComparator e.1.attr v ≤ 0 else attrComparator e.1.attr v < 0 :=
    fun e he v hv => lt_boundKey ha hA hmin hmax (h.entry_mem he) (hrid e he) hv
  -- how the two bounds show in the order of keys
  have hin : ∀ e ∈ t.entries, inRange attrComparator left li right ri e.1.attr = true ↔
      (∀ v ∈ left, boundKey (!li) v ≤ e.1) ∧ ∀ v ∈ right, e.1 < boundKey ri v := by
    intro e he
    rw [inRange, Bool.and_eq_true]
    refine and_congr ?_ ?_
    · cases left with
      | none => simp [aboveLeft]
      | some v =>
        have hv := hl v rfl
        simp only [Option.mem_some_iff, forall_eq']
        rw [← not_lt, hlt e he hv]
        cases li <;> simp [aboveLeft]
    · cases right with
      | none => simp [belowRight]
      | some v =>
        have hv := hr v rfl
        simp only [Option.mem_some_iff, forall_eq']
        rw [hlt e he hv]
        cases ri <;> simp [belowRight]
  have hinited : (⟨true, none, none, -1, -1, s⟩ : BplusTreeScanner α).treeHandler = s := rfl
  obtain ⟨A0, B0, sc1, hent, hA0, hB0, e1, hv1, hend1, hst⟩ := openLeft_spec fixUserKey
    ⟨true, none, none, -1, -1, s⟩ ha hb h hty left leftLen li fun v hv => hkey _ v (hl v hv)
  by_cases hB : B0 = []
  · -- every entry is below the left bound
    subst hB
    have hnone : t.entries.filter (fun e => inRange attrComparator left li right ri e.1.attr) = [] := by
      refine List.filter_eq_nil_iff.mpr fun e he => ?_
      rw [hin e he]
      rintro ⟨h1, -⟩
      obtain ⟨v, hv, hev⟩ := hA0 e (by simpa [hent] using he)
      exact absurd (h1 v hv) (not_le.mpr hev)
    refine ⟨sc1, ?_, hv1, .inl ⟨hend1, hnone⟩⟩
    simp only [openScan, new, hok, e1, if_true, Bool.false_eq_true, if_false, Bool.not_true]
  · have h1 : Valid (keysOver A R) sc1.treeHandler hdr nd t := { h with view := hv1 }
    have hty1 : sc1.treeHandler.fileHeader.attrType ≠ .chars := by
      rw [hv1.fileHeader]
      rwa [h.view.fileHeader] at hty
    obtain ⟨A1, B1, sc2, hent1, hA1, hB1, e2, hv2, hempty, hends, hkeep⟩ := openRight_spec
      fixUserKey sc1 ha hb h1 hty1 right rightLen ri fun v hv => hkey _ v (hr v hv)
    have hopen : (new s).openScan attrComparator ridCompare fixUserKey left leftLen li right rightLen
        ri = (.success, if A1 = [] then sc2 else sc2.closeEmptyRange) := by
      simp only [openScan, new, hok, e1, e2, hB, if_false, Bool.false_eq_true, Bool.not_true]
      by_cases hA1' : A1 = [] <;> simp [hA1']
    refine ⟨_, hopen, ?_⟩
    have hwithin : ∀ e ∈ A0, ∀ v ∈ right, e.1 < boundKey ri v := by
      intro e he v hv
      obtain ⟨l, hl', hel⟩ := hA0 e he
      cases Option.mem_def.mp hl'
      cases Option.mem_def.mp hv
      have hem : e ∈ t.entries := by simp [hent, he]
      rw [hlt e hem (hl _ rfl)] at hel
      rw [hlt e hem (hr _ rfl)]
      exact le_of_validRange hA (hl _ rfl) (hr _ rfl) (h.entry_mem hem).1 hok hel
    -- the entries before the left end come before the right end
    obtain ⟨M, rfl⟩ : A0 <+: A1 := by
      rcases List.append_eq_append_iff.mp (hent.symm.trans hent1) with ⟨Z, rfl, -⟩ | ⟨Z, rfl, hZ⟩
      · exact List.prefix_append _ _
      · cases Z with
        | nil => simp
        | cons z Z =>
          obtain ⟨v, hv, hzv⟩ := hB1 z (by simp [hZ])
          exact absurd (hwithin z (by simp) v hv) (not_lt.mpr hzv)
    have hM : t.entries.filter (fun e => inRange attrComparator left li right ri e.1.attr) = M := by
      have hmem : ∀ e ∈ A0 ++ M ++ B1, e ∈ t.entries := fun e he => hent1 ▸ he
      have hB0' : B0 = M ++ B1 := by
        rw [hent, List.append_assoc] at hent1
        exact List.append_cancel_left hent1
      rw [hent1, List.filter_append, List.filter_append, List.filter_eq_nil_iff.mpr,
        List.filter_eq_self.mpr, List.filter_eq_nil_iff.mpr, List.nil_append, List.append_nil]
      · intro e he
        rw [hin e (hmem e (by simp [he]))]
        rintro ⟨-, h2⟩
        obtain ⟨v, hv, hev⟩ := hB1 e he
        exact absurd (h2 v hv) (not_lt.mpr hev)
      · intro e he
        rw [hin e (hmem e (by simp [he]))]
        exact ⟨hB0 e (by simp [hB0', he]), hA1 e (by simp [he])⟩
      · intro e he
        rw [hin e (hmem e (by simp [he]))]
        rintro ⟨h1, -⟩
        obtain ⟨v, hv, hev⟩ := hA0 e he
        exact absurd (h1 v hv) (not_le.mpr hev)
    rw [hM]
    by_cases hA1' : A0 ++ M = []
    · rw [if_pos hA1']
      exact ⟨hv2, .inl ⟨hempty hA1', (List.append_eq_nil_iff.mp hA1').2⟩⟩
    · rw [if_neg hA1']
      exact closeEmptyRange_spec hch hv2 (hkeep _ (hst hB)) (hends hA1')

end Range

/-- A scan of a well-formed index on a fixed-length attribute, for comparators that order the keys
in use and put `Min` and `Max` around the stored record ids: if every page loads, `NextEntry` yields
the record ids of the entries between bounds that `Open` accepts, in key order, and then ends. -/
theorem scan_range {α : Type} [Inhabited α] {attrComparator : α → α → Int}
    {ridCompare : RecordId → RecordId → Int} {A : Set α} {R : Set RecordId}
    (hcmp : StrictTotalOn (keyComparator attrComparator ridCompare) (keysOver A R))
    (hmin : RecordId.min ∈ R) (hmax : RecordId.max ∈ R) (fixUserKey : α → Nat → Bool → α × Bool)
    (s : BplusTreeHandler α) (hb : s.fileHeader.bounds.Wide) (hty : s.fileHeader.attrType ≠ .chars)
    (hload : s.pool.faults = []) (m : Nat) (t : IndexTree α m)
    (hwf : WellFormed (keyComparator attrComparator ridCompare) s t)
    (hS : ∀ k ∈ t.keys, k ∈ keysOver A R)
    (hrid : ∀ e ∈ t.entries, RidsBounded attrComparator ridCompare e.1) :
    (∀ (left right : Option α) (li ri : Bool) (leftLen rightLen fuel : Nat), (∀ v ∈ left, v ∈ A) →
      (∀ v ∈ right, v ∈ A) →
      ((new s).openScan attrComparator ridCompare fixUserKey left leftLen li right rightLen ri).1 =
        .success → t.entries.length < fuel →
      ∃ sc, (((new s).openScan attrComparator ridCompare fixUserKey left leftLen li right rightLen
          ri).2.drain fuel) = (.recordEof, (t.entries.filter fun e =>
            inRange attrComparator left li right ri e.1.attr).map Prod.snd, sc)) ∧
    (∀ (userKey : α) (keyLen fuel : Nat), userKey ∈ A → t.entries.length < fuel →
      ∃ s', s.getEntry attrComparator ridCompare fixUserKey fuel userKey keyLen = (.success,
        (t.entries.filter fun e => attrComparator e.1.attr userKey = 0).map Prod.snd, s')) ∧
    t.entries.Pairwise fun a b => keyComparator attrComparator ridCompare a.1 b.1 < 0 := by
  obtain ⟨order, ha⟩ := exists_linearOrder hcmp
  have hA := attr_strictTotal hcmp hmin
  have h := hwf.valid ha hS hb hload
  have hch := h.leafChain hb
  refine ⟨?_, ?_, ?_⟩
  · intro left right li ri leftLen rightLen fuel hl hr hopen hf
    have hok : validRange attrComparator left li right ri = true := by
      by_contra hno
      rw [Bool.not_eq_true] at hno
      simp [openScan, new, hno] at hopen
    obtain ⟨sc, e1, hready⟩ := openScan_spec fixUserKey ha hA hmin hmax hb h hty hrid
      li ri leftLen rightLen hl hr hok
    rw [e1]
    exact drain_spec hch (lt_of_le_of_lt (List.length_filter_le _ _) hf) hready
  · intro userKey keyLen fuel hv hf
    have hmem : ∀ v ∈ some userKey, v ∈ A := by
      rintro v hv'
      cases Option.mem_def.mp hv'
      exact hv
    have h0 : attrComparator userKey userKey = 0 := (hA.eq_iff _ hv _ hv).mpr rfl
    have hok : validRange attrComparator (some userKey) true (some userKey) true = true := by
      simp [validRange, h0]
    obtain ⟨sc, e1, hready⟩ := openScan_spec fixUserKey ha hA hmin hmax hb h hty hrid
      true true keyLen keyLen hmem hmem hok
    obtain ⟨sc', e2⟩ := drain_spec hch (lt_of_le_of_lt (List.length_filter_le _ _) hf) hready
    have hfilter : (fun e : Key α × RecordId =>
        inRange attrComparator (some userKey) true (some userKey) true e.1.attr) =
        fun e => decide (attrComparator e.1.attr userKey = 0) := by
      funext e
      simp only [inRange, aboveLeft, belowRight, if_true, ← Bool.decide_and]
      exact decide_eq_decide.mpr ⟨fun h => by omega, fun h => by omega⟩
    rw [hfilter] at e2
    exact ⟨sc'.close.treeHandler, by simp [BplusTreeHandler.getEntry, e1, e2]⟩
  · exact h.sorted.entries.imp_of_mem fun hx hy hlt =>
      (ha.lt_iff _ (h.entry_mem hx) _ (h.entry_mem hy)).mpr hlt

/-- An index of several leaves is scanned between two bounds, with the left one left out, and searched for a value
that is there and one that is not. -/
theorem scan_range_grown :
    (∃ sc, (((new (grown 14)).openScan (fun v1 v2 => v1 - v2) numberRidCompare (fun v _ _ => (v, false)) (some 3) 4
      false (some 9) 4 true).2.drain 15) =
        (.recordEof, [⟨1, 4⟩, ⟨1, 5⟩, ⟨1, 6⟩, ⟨1, 7⟩, ⟨1, 8⟩, ⟨1, 9⟩], sc)) ∧
    (∃ s, (grown 14).getEntry (fun v1 v2 => v1 - v2) numberRidCompare (fun v _ _ => (v, false)) 15 7 4 =
      (.success, [⟨1, 7⟩], s)) ∧
    ∃ s, (grown 14).getEntry (fun v1 v2 => v1 - v2) numberRidCompare (fun v _ _ => (v, false)) 15 20 4 =
      (.success, [], s) := by
  have hopen : ((new (grown (13 + 1))).openScan (fun v1 v2 => v1 - v2) numberRidCompare (fun v _ _ => (v, false))
      (some 3) 4 false (some 9) 4 true).1 = .success := by
    decide +kernel
  have hty : (grown (13 + 1)).fileHeader.attrType ≠ .chars := by decide +kernel
  obtain ⟨hload, hbounds, m, t, hwf, hent⟩ := grown_wellFormed 13 (by decide +kernel)
  have hcmp : StrictTotalOn (keyComparator (fun v1 v2 : Int => v1 - v2) numberRidCompare)
      (keysOver Set.univ Set.univ) := by
    simpa [keysOver, numberComparator] using numberComparator_strictTotal
  have hrid : ∀ e ∈ t.entries, RidsBounded (fun v1 v2 : Int => v1 - v2) numberRidCompare e.1 := by
    rw [hent]
    intro e he
    obtain ⟨k, hk, rfl⟩ := List.mem_map.mp he
    have hbounds : ∀ k ∈ List.range 14,
        keyComparator (fun v1 v2 : Int => v1 - v2) numberRidCompare ⟨k, RecordId.min⟩ (numberEntry k).1 ≤ 0 ∧
        0 < keyComparator (fun v1 v2 : Int => v1 - v2) numberRidCompare ⟨k, RecordId.max⟩ (numberEntry k).1 := by
      decide
    obtain ⟨hmin, hmax⟩ := hbounds k hk
    exact ⟨hmin, hmax⟩
  have hshort : t.entries.length < 15 := by
    rw [hent, List.length_map, List.length_range]
    decide
  generalize grown (13 + 1) = s at *
  have hb := Tree.Bounds.mk.inj hbounds
  have hr : s.fileHeader.Roomy := ⟨hb.1.ge, hb.2.ge⟩
  obtain ⟨hscan, hget, -⟩ := scan_range hcmp trivial trivial (fun v _ _ => (v, false)) s hr.wide hty hload m t hwf
    (fun _ _ => ⟨trivial, trivial⟩) hrid
  have h1 := hscan (some 3) (some 9) false true 4 4 15 (fun _ _ => trivial) (fun _ _ => trivial) hopen hshort
  have h2 := hget 7 4 15 trivial hshort
  have h3 := hget 20 4 15 trivial hshort
  rw [hent] at h1 h2 h3
  exact ⟨h1, h2, h3⟩

end BplusTreeScanner

end Idmbs
