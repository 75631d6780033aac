import Idmbs.BPlusTree.Insert

/-!
# Idmbs.BPlusTree.Validate

`BplusTreeHandler::IsValidateTree` and what it calls (storage/b_plus_tree.cpp): the check of a node
against its parent, the walk over all nodes and the walk along the leaves.

The pages are arbitrary: parents, children and brothers may be any page, and the checks read keys
where a node has none. `stray` is what such a place holds. The checks only pin and unpin, and a page
loads when the file has it. `none` stands for a check that does not answer: a failed assertion, or
child pointers or next links that go round.
-/

namespace Idmbs

namespace IndexNode

variable {α : Type}

/-- `__GetKeyAt`, which does not ask whether there is an item with this index. -/
def rawKeyAt (stray : Int → Key α) (keys : List (Key α)) (index : Int) : Key α :=
  if index < 0 then stray index else keys[index.toNat]?.getD (stray index)

def isValidate (n : IndexNode α) : Bool :=
  if n.parent = none then decide (1 ≤ n.size) && (n.isLeaf || decide (2 ≤ n.size)) else true

def getValueIndex (page : PageId) (n : IndexNode α) : Option Nat :=
  (n.children.map Prod.snd).findIdx? (· == page)

/-- The loop that compares neighbouring keys. -/
def keysAscend (cmp : Key α → Key α → Int) : List (Key α) → Bool
  | k :: k' :: ks => decide (cmp k k' < 0) && keysAscend cmp (k' :: ks)
  | _ => true

/-- The child lies between its two keys in the parent: `first` and `last` are the keys that are
compared, `index` is the index of the child. -/
def fitsParent [Inhabited α] (cmp : Key α → Key α → Int) (first last : Key α) (index : Nat)
    (parent : IndexNode α) : Bool :=
  (decide (index = 0) || decide (0 ≤ cmp first (parent.keyAt index))) &&
    (decide (parent.children.length ≤ index + 1) ||
      decide (cmp last (parent.keyAt (index + 1)) < 0))

end IndexNode

namespace BplusTreeHandler

variable {α : Type} [Inhabited α]

/-- What `GetPage` answers, as a truth value. -/
def loads (s : BplusTreeHandler α) (p : PageId) : Bool := decide (p < s.pool.pagesNum)

/-- The end of both `IsValidate`: the node on page `p` against its parent. -/
def isValidateInParent (cmp : Key α → Key α → Int) (s : BplusTreeHandler α) (p : PageId)
    (first last : Key α) : Bool :=
  match (s.node p).parent with
  | none => true
  | some parent =>
    if !s.loads parent then false
    else
      match (s.node parent).getValueIndex p with
      | none => false
      | some index => (s.node parent).fitsParent cmp first last index

def leafIsValidate (cmp : Key α → Key α → Int) (stray : PageId → Int → Key α)
    (s : BplusTreeHandler α) (p : PageId) : Bool :=
  let n := s.node p
  let keys := n.entries.map Prod.fst
  n.isValidate && IndexNode.keysAscend cmp keys &&
    s.isValidateInParent cmp p (IndexNode.rawKeyAt (stray p) keys 0)
      (IndexNode.rawKeyAt (stray p) keys (keys.length - 1))

/-- `InternalIndexNodeHandler::IsValidate`. A child that does not load is passed over, and it is the
second key that is compared with the key in the parent. -/
def internalIsValidate (cmp : Key α → Key α → Int) (stray : PageId → Int → Key α)
    (s : BplusTreeHandler α) (p : PageId) : Bool :=
  let n := s.node p
  let keys := n.children.map Prod.fst
  n.isValidate && IndexNode.keysAscend cmp keys.tail &&
    n.children.all (fun item => !s.loads item.2 || decide ((s.node item.2).parent = some p)) &&
    s.isValidateInParent cmp p (IndexNode.rawKeyAt (stray p) keys 1)
      (IndexNode.rawKeyAt (stray p) keys (keys.length - 1))

/-- The loop of `IsValidateNodeRecursive` over the children. -/
def isValidateChildren (s : BplusTreeHandler α) (validate : PageId → Option Bool) :
    List PageId → Option Bool
  | [] => some true
  | p :: ps =>
    if !s.loads p then some false
    else
      match validate p with
      | some true => isValidateChildren s validate ps
      | r => r

def isValidateNodeRecursive (cmp : Key α → Key α → Int) (stray : PageId → Int → Key α)
    (s : BplusTreeHandler α) : Nat → PageId → Option Bool
  | 0, _ => none
  | fuel + 1, p =>
    if (s.node p).isLeaf then some (s.leafIsValidate cmp stray p)
    else if !s.internalIsValidate cmp stray p then some false
    else
      s.isValidateChildren (isValidateNodeRecursive cmp stray s fuel)
        ((s.node p).children.map Prod.snd)

/-- The `while` loop of `IsValidateLeafLink`. -/
def isValidateLeafLinkLoop (cmp : Key α → Key α → Int) (s : BplusTreeHandler α) :
    Nat → PageId → Key α → Option PageId → Option Bool
  | 0, _, _, _ => none
  | _ + 1, _, _, none => some true
  | fuel + 1, prevPage, prevKey, some p =>
    if !s.loads p then some false
    else
      match (s.node p).entries.head?, (s.node p).entries.getLast? with
      | some first, some last =>
        if (s.node p).prevBrother = some prevPage ∧ cmp prevKey first.1 < 0 then
          isValidateLeafLinkLoop cmp s fuel p last.1 (s.node p).nextBrother
        else some false
      | _, _ => none

def isValidateLeafLink (cmp : Key α → Key α → Int) (s : BplusTreeHandler α) : Option Bool :=
  if s.isEmpty then some true
  else
    match s.leftMostPage with
    | (r, p, _) =>
      if r ≠ .success ∨ (s.node p).prevBrother ≠ none then some false
      else
        match (s.node p).entries.getLast? with
        | none => none
        | some last => s.isValidateLeafLinkLoop cmp s.fuel p last.1 (s.node p).nextBrother

/-- `IsValidateTree`. When the root does not load, the code of `GetPage` is returned as a `bool`. -/
def isValidateTree (cmp : Key α → Key α → Int) (stray : PageId → Int → Key α)
    (s : BplusTreeHandler α) : Option Bool :=
  match s.fileHeader.rootPageId with
  | none => some true
  | some root =>
    if !s.loads root then some true
    else
      match s.isValidateNodeRecursive cmp stray s.fuel root with
      | some true => s.isValidateLeafLink cmp
      | r => r

/-! ## Paths down to a leaf -/

/-- Child pointers lead from page `p` to the leaf on page `q`, at every node through a child that
`choose` allows. -/
inductive Descends (s : BplusTreeHandler α) (choose : IndexNode α → Nat → Prop) :
    PageId → PageId → Prop
  | leaf {p : PageId} : s.loads p = true → (s.node p).isLeaf = true → Descends s choose p p
  | child {p q : PageId} {i : Nat} : s.loads p = true → (s.node p).isLeaf = false →
      i < (s.node p).children.length → choose (s.node p) i →
      Descends s choose ((s.node p).valueAt i) q → Descends s choose p q

/-- The leaf on page `q` is reachable from page `p`. -/
def ReachesLeaf (s : BplusTreeHandler α) (p q : PageId) : Prop :=
  s.Descends (fun _ _ => True) p q

/-- Key `k` is not below key `i` of the node (nothing is asked for `i = 0`) and below the next. -/
def Encloses (cmp : Key α → Key α → Int) (k : Key α) (n : IndexNode α) (i : Nat) : Prop :=
  (i ≠ 0 → 0 ≤ cmp k (n.keyAt i)) ∧ (i + 1 < n.children.length → cmp k (n.keyAt (i + 1)) < 0)

/-- The keys of every node but the last on the way enclose `k`. -/
def EnclosedAbove (cmp : Key α → Key α → Int) (k : Key α) (s : BplusTreeHandler α) (p q : PageId) :
    Prop :=
  s.Descends (fun n i => (s.node (n.valueAt i)).isLeaf = false → Encloses cmp k n i) p q

def NextLeaf (s : BplusTreeHandler α) (p q : PageId) : Prop := (s.node p).nextBrother = some q

/-- The prev link of page `q` leads to the leaf on page `p`, which has a next link. -/
def PrevLeaf (s : BplusTreeHandler α) (root q p : PageId) : Prop :=
  s.ReachesLeaf root p ∧ (s.node q).prevBrother = some p ∧ (s.node p).nextBrother ≠ none

/-- Next links of the leaves lead to leaves, no two leaves have the same prev link, and prev links lead from
every leaf to the leaf on page `p`. Where the next links lead is not said. -/
structure Threaded (s : BplusTreeHandler α) (root p : PageId) : Prop where
  stays : ∀ q r, s.ReachesLeaf root q → s.NextLeaf q r → s.ReachesLeaf root r
  single : ∀ q r, s.ReachesLeaf root q → s.ReachesLeaf root r → (s.node q).prevBrother ≠ none →
    (s.node q).prevBrother = (s.node r).prevBrother → q = r
  back : ∀ q, s.ReachesLeaf root q → Relation.ReflTransGen (s.PrevLeaf root) q p

end BplusTreeHandler

/-! ## What the checks of one node say -/

section Node

open Comparator

variable {α : Type} [LinearOrder (Key α)] {cmp : Key α → Key α → Int} {S : Set (Key α)}

theorem IndexNode.keysAscend_sorted (ha : Agrees cmp S) {keys : List (Key α)}
    (hS : ∀ k ∈ keys, k ∈ S) (h : IndexNode.keysAscend cmp keys = true) :
    keys.Pairwise (· < ·) := by
  rw [← List.isChain_iff_pairwise]
  induction keys with
  | nil => exact .nil
  | cons k keys ih =>
    cases keys with
    | nil => exact .singleton k
    | cons k' keys =>
      simp only [IndexNode.keysAscend, Bool.and_eq_true, decide_eq_true_eq] at h
      have hlt := (ha.lt_iff k (hS k (by simp)) k' (hS k' (by simp))).mp h.1
      exact .cons_cons hlt (ih (fun k hk => hS k (by simp [hk])) h.2)

omit [LinearOrder (Key α)] in
theorem IndexNode.rawKeyAt_of_lt {stray : Int → Key α} {keys : List (Key α)} {i : Nat}
    (hi : i < keys.length) : IndexNode.rawKeyAt stray keys i = keys[i] := by
  have h0 : ¬(i : Int) < 0 := by omega
  simp [IndexNode.rawKeyAt, h0, hi]

omit [LinearOrder (Key α)] in
theorem IndexNode.getValueIndex_some [Inhabited α] {n : IndexNode α} {p : PageId} {i : Nat}
    (h : n.getValueIndex p = some i) : i < n.children.length ∧ n.valueAt i = p := by
  obtain ⟨hlt, heq, -⟩ := List.findIdx?_eq_some_iff_getElem.mp h
  rw [List.length_map] at hlt
  refine ⟨hlt, ?_⟩
  simpa [IndexNode.valueAt, hlt] using heq

end Node

namespace BplusTreeHandler

open Comparator

variable {α : Type} [Inhabited α] {cmp : Key α → Key α → Int} {stray : PageId → Int → Key α}
  {S : Set (Key α)} {s : BplusTreeHandler α} {p q : PageId} {k : Key α} {i : Nat}

/-- The keys stored on all pages are among those that `cmp` orders; key 0 of an internal node is not
looked at. -/
def KeysIn (S : Set (Key α)) (s : BplusTreeHandler α) : Prop :=
  ∀ p, (∀ e ∈ (s.node p).entries, e.1 ∈ S) ∧ ∀ item ∈ (s.node p).children.tail, item.1 ∈ S

omit [Inhabited α] in
theorem valueAt_mem {n : IndexNode α} (hi : i < n.children.length) :
    n.valueAt i ∈ n.children.map Prod.snd := by
  have hi' : i < (n.children.map Prod.snd).length := by simpa using hi
  rw [IndexNode.valueAt, List.getD_eq_getElem?_getD, List.getElem?_eq_getElem hi']
  exact List.getElem_mem hi'

omit [Inhabited α] in
theorem isValidateChildren_true {validate : PageId → Option Bool} {ps : List PageId}
    (h : s.isValidateChildren validate ps = some true) :
    ∀ p ∈ ps, s.loads p = true ∧ validate p = some true := by
  induction ps with
  | nil => simp
  | cons c ps ih =>
    rw [isValidateChildren] at h
    cases hl : s.loads c with
    | false => simp [hl] at h
    | true =>
      simp only [hl, Bool.not_true, Bool.false_eq_true, if_false] at h
      split at h
      · rename_i hc
        intro p hp
        rcases List.mem_cons.mp hp with rfl | hp
        · exact ⟨hl, hc⟩
        · exact ih h p hp
      · rename_i hne
        exact absurd h hne

theorem isValidateNodeRecursive_leaf {fuel : Nat} (hleaf : (s.node p).isLeaf = true)
    (h : s.isValidateNodeRecursive cmp stray fuel p = some true) :
    s.leafIsValidate cmp stray p = true := by
  cases fuel with
  | zero => simp [isValidateNodeRecursive] at h
  | succ fuel => simpa [isValidateNodeRecursive, hleaf] using h

theorem isValidateNodeRecursive_internal {fuel : Nat} (hleaf : (s.node p).isLeaf = false)
    (h : s.isValidateNodeRecursive cmp stray (fuel + 1) p = some true) :
    s.internalIsValidate cmp stray p = true ∧
      ∀ c ∈ (s.node p).children.map Prod.snd, s.loads c = true ∧
        s.isValidateNodeRecursive cmp stray fuel c = some true := by
  simp only [isValidateNodeRecursive, hleaf, Bool.false_eq_true, if_false] at h
  cases hv : s.internalIsValidate cmp stray p with
  | false => simp [hv] at h
  | true =>
    simp only [hv, Bool.not_true, Bool.false_eq_true, if_false] at h
    exact ⟨rfl, isValidateChildren_true h⟩

theorem internalIsValidate_parent (h : s.internalIsValidate cmp stray p = true)
    (hq : q ∈ (s.node p).children.map Prod.snd) (hl : s.loads q = true) :
    (s.node q).parent = some p := by
  simp only [internalIsValidate, Bool.and_eq_true, List.all_eq_true] at h
  obtain ⟨item, hitem, rfl⟩ := List.mem_map.mp hq
  simpa [hl] using h.1.2 item hitem

section Keys

variable [LinearOrder (Key α)]

omit [LinearOrder (Key α)] in
theorem KeysIn.keyAt (hS : KeysIn S s) (h0 : i ≠ 0) (hi : i < (s.node p).children.length) :
    (s.node p).keyAt i ∈ S := by
  obtain ⟨i, rfl⟩ := Nat.exists_eq_succ_of_ne_zero h0
  cases hc : (s.node p).children with
  | nil => simp [hc] at hi
  | cons item items =>
    simp only [hc, List.length_cons, Nat.succ_eq_add_one, Nat.add_lt_add_iff_right] at hi
    have hmem : items[i] ∈ (s.node p).children.tail := by simp [hc]
    simpa [IndexNode.keyAt, hc, hi] using (hS p).2 items[i] hmem

omit [Inhabited α] [LinearOrder (Key α)] in
theorem KeysIn.entry (hS : KeysIn S s) (hk : k ∈ (s.node p).entries.map Prod.fst) : k ∈ S := by
  obtain ⟨e, he, rfl⟩ := List.mem_map.mp hk
  exact (hS p).1 e he

theorem leafIsValidate_sorted (ha : Agrees cmp S) (hS : KeysIn S s)
    (h : s.leafIsValidate cmp stray p = true) :
    ((s.node p).entries.map Prod.fst).Pairwise (· < ·) := by
  simp only [leafIsValidate, Bool.and_eq_true] at h
  exact IndexNode.keysAscend_sorted ha (fun k hk => hS.entry hk) h.1.2

theorem internalIsValidate_sorted (ha : Agrees cmp S) (hS : KeysIn S s)
    (h : s.internalIsValidate cmp stray p = true) :
    ((s.node p).children.tail.map Prod.fst).Pairwise (· < ·) := by
  simp only [internalIsValidate, Bool.and_eq_true, List.map_tail] at h ⊢
  refine IndexNode.keysAscend_sorted ha ?_ h.1.1.2
  intro k hk
  rw [← List.map_tail] at hk
  obtain ⟨item, hitem, rfl⟩ := List.mem_map.mp hk
  exact (hS p).2 item hitem

theorem encloses_of_fitsParent (ha : Agrees cmp S) (hS : KeysIn S s) {first last : Key α}
    (hi : i < (s.node p).children.length) (hk : k ∈ S) (hfirst : first ∈ S) (hlast : last ∈ S)
    (hle : first ≤ k) (hge : k ≤ last)
    (h : (s.node p).fitsParent cmp first last i = true) : Encloses cmp k (s.node p) i := by
  simp only [IndexNode.fitsParent, Bool.and_eq_true, Bool.or_eq_true, decide_eq_true_eq] at h
  constructor
  · intro h0
    have hkey := hS.keyAt h0 hi
    have hlow := (ha.nonneg_iff hfirst hkey).mp (h.1.resolve_left h0)
    exact (ha.nonneg_iff hk hkey).mpr (le_trans hlow hle)
  · intro hlt
    have hkey := hS.keyAt (Nat.succ_ne_zero i) hlt
    have hup := (ha.lt_iff last hlast _ hkey).mp (h.2.resolve_left (Nat.not_le.mpr hlt))
    exact (ha.lt_iff k hk _ hkey).mpr (lt_of_le_of_lt hge hup)

/-- A key of a leaf is enclosed by the keys of the leaf's parent. -/
theorem leafIsValidate_encloses (ha : Agrees cmp S) (hS : KeysIn S s)
    (h : s.leafIsValidate cmp stray q = true) (hparent : (s.node q).parent = some p)
    (hk : k ∈ (s.node q).entries.map Prod.fst) :
    ∃ i, i < (s.node p).children.length ∧ (s.node p).valueAt i = q ∧
      Encloses cmp k (s.node p) i := by
  have hsorted := leafIsValidate_sorted ha hS h
  simp only [leafIsValidate, Bool.and_eq_true, isValidateInParent, hparent] at h
  have hfit := h.2
  cases hl : s.loads p with
  | false => simp [hl] at hfit
  | true =>
    simp only [hl, Bool.not_true, Bool.false_eq_true, if_false] at hfit
    cases hi : (s.node p).getValueIndex q with
    | none => simp [hi] at hfit
    | some i =>
      obtain ⟨hlt, hval⟩ := IndexNode.getValueIndex_some hi
      simp only [hi] at hfit
      refine ⟨i, hlt, hval, ?_⟩
      have hentry : ∀ k ∈ (s.node q).entries.map Prod.fst, k ∈ S := fun k hk => hS.entry hk
      generalize (s.node q).entries.map Prod.fst = keys at hfit hk hsorted hentry
      -- the compared keys are the ends of a sorted list that `k` is in
      obtain ⟨j, hj, rfl⟩ := List.getElem_of_mem hk
      have hpos : 0 < keys.length := Nat.zero_lt_of_lt hj
      have hcast : ((keys.length : Int) - 1) = ((keys.length - 1 : Nat) : Int) := by omega
      rw [hcast, IndexNode.rawKeyAt_of_lt (Nat.sub_lt hpos Nat.one_pos),
        show (0 : Int) = ((0 : Nat) : Int) from rfl, IndexNode.rawKeyAt_of_lt hpos] at hfit
      have hmono : ∀ (a b : Nat) (ha : a < keys.length) (hb : b < keys.length), a ≤ b →
          keys[a] ≤ keys[b] := by
        intro a b ha hb hab
        rcases Nat.eq_or_lt_of_le hab with rfl | hab
        · exact le_refl _
        · exact le_of_lt (List.pairwise_iff_getElem.mp hsorted a b ha hb hab)
      exact encloses_of_fitsParent ha hS hlt (hentry _ hk) (hentry _ (List.getElem_mem _))
        (hentry _ (List.getElem_mem _)) (hmono _ _ hpos hj (Nat.zero_le _))
        (hmono _ _ hj (Nat.sub_lt hpos Nat.one_pos) (by omega)) hfit

/-- `LookUp` in an internal node finds the child whose keys enclose the searched one. -/
theorem internalLookUp_of_encloses (ha : Agrees cmp S) (hS : KeysIn S s) (hk : k ∈ S)
    (h : s.internalIsValidate cmp stray p = true) (hi : i < (s.node p).children.length)
    (henc : Encloses cmp k (s.node p) i) : ((s.node p).internalLookUp cmp k).1 = i := by
  have hsorted := internalIsValidate_sorted ha hS h
  have hkey := fun j h0 hj => hS.keyAt (p := p) (i := j) h0 hj
  have htail := (hS p).2
  generalize s.node p = n at *
  obtain ⟨hlow, hup⟩ := henc
  have hcut : n.children = n.children.take i ++ (n.children[i].1, n.children[i].2) ::
      n.children.drop (i + 1) := by simp
  have hkeyAt : ∀ j (hj : j < n.children.length), n.keyAt j = n.children[j].1 := by
    intro j hj
    simp [IndexNode.keyAt, hj]
  have hlook := (internalLookUp_spec ha hk hcut htail hsorted ?_ ?_).1
  · rw [hlook, List.length_take, Nat.min_eq_left (Nat.le_of_lt hi)]
  · intro hne
    have h0 : i ≠ 0 := by rintro rfl; simp at hne
    have := (ha.nonneg_iff hk (hkey i h0 hi)).mp (hlow h0)
    rwa [hkeyAt i hi] at this
  · intro item hitem
    obtain ⟨j, hj, rfl⟩ := List.getElem_of_mem hitem
    rw [List.length_drop] at hj
    have hlt : i + 1 < n.children.length := by omega
    have hnext := (ha.lt_iff k hk _ (hkey (i + 1) (Nat.succ_ne_zero i) hlt)).mp (hup hlt)
    rw [hkeyAt _ hlt] at hnext
    rw [List.getElem_drop]
    rcases Nat.eq_zero_or_pos j with rfl | hpos
    · exact hnext
    · refine lt_trans hnext ?_
      have := List.pairwise_iff_getElem.mp hsorted i (i + j) (by simp; omega) (by simp; omega)
        (by omega)
      simpa [Nat.add_assoc, Nat.add_comm, Nat.add_left_comm] using this

end Keys

/-! ## Walks over checked nodes -/

/-- The pages of `s'` are those of `s`, and a page loads when the file has it. -/
structure SamePages (s s' : BplusTreeHandler α) : Prop where
  node : s'.node = s.node
  pagesNum : s'.pool.pagesNum = s.pool.pagesNum
  faults : s'.pool.faults = []

omit [Inhabited α] in
theorem pagesNum_unpinPage {s : BplusTreeHandler α} :
    (s.unpinPage p).pool.pagesNum = s.pool.pagesNum := by
  simp only [BplusTreeHandler.unpinPage, PagePool.unpinPage]
  split
  · simp only [PagePool.disposePage]
    split <;> rfl
  · rfl

omit [Inhabited α] in
theorem SamePages.unpinPage {s' : BplusTreeHandler α} (h : SamePages s s') :
    SamePages s (s'.unpinPage p) := by
  obtain ⟨hnode, hnum, hfaults⟩ := h
  refine ⟨?_, ?_, ?_⟩
  · funext q
    rw [← hnode]
    simp [BplusTreeHandler.node, BplusTreeHandler.unpinPage]
  · rw [← hnum]
    exact pagesNum_unpinPage
  · simpa [BplusTreeHandler.unpinPage] using hfaults

omit [Inhabited α] in
theorem SamePages.getPage {s' : BplusTreeHandler α} (h : SamePages s s') (hl : s.loads p = true) :
    ∃ s'', s'.getPage p = (.success, s'') ∧ SamePages s s'' := by
  have hlt : p < s'.pool.pagesNum := by rw [h.pagesNum]; simpa [loads] using hl
  refine ⟨s'.pinned p, ?_, ?_⟩
  · simp [BplusTreeHandler.getPage, PagePool.getPage, PagePool.takeFault, h.faults,
      BplusTreeHandler.pinned, PagePool.pinned, Nat.not_le.mpr hlt]
  · exact ⟨h.node, h.pagesNum, h.faults⟩

omit [Inhabited α] in
theorem Descends.loads {choose : IndexNode α → Nat → Prop} (h : s.Descends choose p q) :
    s.loads p = true := by
  cases h with
  | leaf hl => exact hl
  | child hl => exact hl

/-- The walk of `FindLeafInternal` over checked nodes follows a path it agrees with. It needs no more
steps than the check did. -/
theorem findLeafLoop_descends {choose : IndexNode α → Nat → Prop}
    {childPageGetter : IndexNode α → PageId}
    (hget : ∀ fuel p i, (s.node p).isLeaf = false →
      s.isValidateNodeRecursive cmp stray (fuel + 1) p = some true →
      i < (s.node p).children.length → choose (s.node p) i →
      s.Descends choose ((s.node p).valueAt i) q →
      childPageGetter (s.node p) = (s.node p).valueAt i) :
    ∀ (fuel : Nat) (p : PageId) (s' : BplusTreeHandler α), SamePages s s' →
      s.isValidateNodeRecursive cmp stray fuel p = some true → s.Descends choose p q →
      ∃ s'', findLeafLoop childPageGetter fuel p s' = (.success, q, s'') ∧ SamePages s s'' := by
  intro fuel
  induction fuel with
  | zero =>
    intro p s' _ hv
    simp [isValidateNodeRecursive] at hv
  | succ fuel ih =>
    intro p s' hs hv hd
    rw [findLeafLoop, hs.node]
    cases hd with
    | leaf _ hleaf => exact ⟨s', by rw [if_pos hleaf], hs⟩
    | child hl hleaf hi hc hd =>
      obtain ⟨s'', hload, hs''⟩ := (hs.unpinPage (p := p)).getPage hd.loads
      simp only [hleaf, Bool.false_eq_true, if_false, hget fuel p _ hleaf hv hi hc hd, hload,
        ne_eq, not_true_eq_false]
      have hcheck := (isValidateNodeRecursive_internal hleaf hv).2 _ (valueAt_mem hi)
      exact ih _ s'' hs'' hcheck.2 hd

theorem findLeafInternal_descends {choose : IndexNode α → Nat → Prop}
    {childPageGetter : IndexNode α → PageId} {root : PageId} (hfaults : s.pool.faults = [])
    (hroot : s.fileHeader.rootPageId = some root)
    (hv : s.isValidateNodeRecursive cmp stray s.fuel root = some true)
    (hd : s.Descends choose root q)
    (hget : ∀ fuel p i, (s.node p).isLeaf = false →
      s.isValidateNodeRecursive cmp stray (fuel + 1) p = some true →
      i < (s.node p).children.length → choose (s.node p) i →
      s.Descends choose ((s.node p).valueAt i) q →
      childPageGetter (s.node p) = (s.node p).valueAt i) :
    ∃ s', s.findLeafInternal childPageGetter = (.success, q, s') ∧ SamePages s s' := by
  have hs : SamePages s s := ⟨rfl, rfl, hfaults⟩
  obtain ⟨s', hload, hs'⟩ := hs.getPage hd.loads
  have hfuel : s'.fuel = s.fuel := by rw [fuel, fuel, hs'.pagesNum]
  simp only [findLeafInternal, hroot, hload, ne_eq, not_true_eq_false, if_false, hfuel]
  exact findLeafLoop_descends hget _ root s' hs' hv hd

/-- `FindLeaf` reaches the leaf of an enclosed key. At the last node above the leaf the check of the
leaf itself says where its keys belong. -/
theorem findLeaf_descends [LinearOrder (Key α)] (ha : Agrees cmp S) (hS : KeysIn S s)
    (hfaults : s.pool.faults = []) {root : PageId} (hroot : s.fileHeader.rootPageId = some root)
    (hv : s.isValidateNodeRecursive cmp stray s.fuel root = some true)
    (hd : s.EnclosedAbove cmp k root q) (hk : k ∈ (s.node q).entries.map Prod.fst) :
    ∃ s', s.findLeaf cmp k = (.success, q, s') ∧ SamePages s s' := by
  refine findLeafInternal_descends hfaults hroot hv hd ?_
  intro fuel p i hleaf hv hi henc hd
  obtain ⟨hcheck, hchildren⟩ := isValidateNodeRecursive_internal hleaf hv
  obtain ⟨hl, hchild⟩ := hchildren _ (valueAt_mem hi)
  have hparent := internalIsValidate_parent hcheck (valueAt_mem hi) hl
  have hkS := hS.entry hk
  cases hd with
  | leaf _ hleafq =>
    obtain ⟨j, hj, hval, hencj⟩ := leafIsValidate_encloses ha hS
      (isValidateNodeRecursive_leaf hleafq hchild) hparent hk
    simp only [internalLookUp_of_encloses ha hS hkS hcheck hj hencj, hval]
  | child _ hleafc =>
    simp only [internalLookUp_of_encloses ha hS hkS hcheck hi (henc hleafc)]

theorem leafLookUp_found [LinearOrder (Key α)] (ha : Agrees cmp S) (hS : KeysIn S s)
    (h : s.leafIsValidate cmp stray q = true) (hk : k ∈ (s.node q).entries.map Prod.fst) :
    ((s.node q).leafLookUp cmp k).2 = true := by
  have hkS := hS.entry hk
  obtain ⟨A, B, hn, -, hA, hB⟩ :=
    leafLookUp_spec ha (hS q).1 hkS (leafIsValidate_sorted ha hS h)
  rcases hB with ⟨-, hB⟩ | ⟨hfound, -⟩
  · obtain ⟨e, he, rfl⟩ := List.mem_map.mp hk
    rw [hn] at he
    rcases List.mem_append.mp he with he | he
    · exact absurd (hA e he) (lt_irrefl _)
    · exact absurd (hB e he) (lt_irrefl _)
  · exact hfound

theorem Descends.checked {choose : IndexNode α → Nat → Prop} (hd : s.Descends choose p q) :
    ∀ fuel, s.isValidateNodeRecursive cmp stray fuel p = some true →
      s.leafIsValidate cmp stray q = true := by
  induction hd with
  | leaf _ hleaf =>
    intro fuel h
    exact isValidateNodeRecursive_leaf hleaf h
  | child _ hleaf hi _ _ ih =>
    intro fuel h
    cases fuel with
    | zero => simp [isValidateNodeRecursive] at h
    | succ fuel => exact ih fuel ((isValidateNodeRecursive_internal hleaf h).2 _ (valueAt_mem hi)).2

/-! ## The chain of leaves -/

section Chain

open Relation

omit [Inhabited α] in
/-- A next link of a leaf that the walk along the leaves came to leads to a page that has this leaf as its
prev brother. -/
theorem isValidateLeafLinkLoop_prev {r : PageId} (hwalk : ReflTransGen s.NextLeaf p q)
    (hnext : s.NextLeaf q r) : ∀ {fuel : Nat} {prevKey : Key α},
    s.isValidateLeafLinkLoop cmp fuel p prevKey (s.node p).nextBrother = some true →
    (s.node r).prevBrother = some q := by
  -- what the loop has checked at the page behind `p`
  have hstep : ∀ {p p' : PageId} {fuel : Nat} {prevKey : Key α}, s.NextLeaf p p' →
      s.isValidateLeafLinkLoop cmp fuel p prevKey (s.node p).nextBrother = some true →
      (s.node p').prevBrother = some p ∧ ∃ fuel' key,
        s.isValidateLeafLinkLoop cmp fuel' p' key (s.node p').nextBrother = some true := by
    intro p p' fuel prevKey hp h
    rw [show (s.node p).nextBrother = some p' from hp] at h
    cases fuel with
    | zero => cases h
    | succ fuel =>
      unfold isValidateLeafLinkLoop at h
      split at h
      · cases h
      · split at h
        · split at h
          · rename_i hcheck
            exact ⟨hcheck.1, _, _, h⟩
          · cases h
        · cases h
  induction hwalk using ReflTransGen.head_induction_on with
  | refl =>
    intro fuel prevKey h
    exact (hstep hnext h).1
  | head hp _ ih =>
    intro fuel prevKey h
    obtain ⟨-, fuel', key, hrest⟩ := hstep hp h
    exact ih hrest

omit [Inhabited α] in
theorem isValidateLeafLink_true {root : PageId} (hroot : s.fileHeader.rootPageId = some root)
    (h : s.isValidateLeafLink cmp = some true) : ∃ p s' fuel key, s.leftMostPage = (.success, p, s') ∧
      s.isValidateLeafLinkLoop cmp fuel p key (s.node p).nextBrother = some true := by
  have hempty : s.isEmpty = false := by simp [isEmpty, hroot]
  obtain ⟨r, p, s', hleft⟩ : ∃ r p s', s.leftMostPage = (r, p, s') := ⟨_, _, _, rfl⟩
  simp only [isValidateLeafLink, hempty, Bool.false_eq_true, if_false, hleft] at h
  split at h
  · cases h
  · rename_i hr
    have hsuccess : r = .success := by
      by_contra hne
      exact hr (.inl hne)
    split at h
    · cases h
    · exact ⟨p, s', _, _, hsuccess ▸ hleft, h⟩

omit [Inhabited α] in
/-- The walk meets every leaf from which prev links lead back to its start: a leaf that it came to is the prev
brother of the one behind it, and of that one only. -/
theorem Threaded.visits {root : PageId} (ht : s.Threaded root p)
    (hwalk : ∀ {q r : PageId}, ReflTransGen s.NextLeaf p q → s.NextLeaf q r → (s.node r).prevBrother = some q)
    (hq : s.ReachesLeaf root q) : ReflTransGen s.NextLeaf p q := by
  have hback := ht.back q hq
  induction hback using ReflTransGen.head_induction_on with
  | refl => exact .refl
  | @head q a hprev _ ih =>
    obtain ⟨ha, hqa, hsome⟩ := hprev
    have hpa := ih ha
    obtain ⟨r, hr⟩ := Option.ne_none_iff_exists'.mp hsome
    have hra := hwalk hpa hr
    have heq : q = r := ht.single q r hq (ht.stays a r ha hr) (by rw [hqa]; exact Option.some_ne_none a)
      (hqa.trans hra.symm)
    rw [heq]
    exact hpa.tail hr

end Chain

theorem isValidateTree_true {root : PageId} (hroot : s.fileHeader.rootPageId = some root)
    (hl : s.loads root = true) (h : s.isValidateTree cmp stray = some true) :
    s.isValidateNodeRecursive cmp stray s.fuel root = some true ∧
      s.isValidateLeafLink cmp = some true := by
  simp only [isValidateTree, hroot, hl, Bool.not_true, Bool.false_eq_true, if_false] at h
  split at h
  · rename_i hnode
    exact ⟨hnode, h⟩
  · rename_i hne
    exact absurd h hne

/-- When `IsValidateTree` accepts the pages: a key of a reachable leaf is found if the nodes above
the leaf's parent enclose it, and next links visit every reachable leaf if prev links lead back from them
all. The validator looks at no node together with a node further up than its parent, and at the prev link of a
leaf only if the chain comes to it. -/
theorem isValidateTree_sound (hcmp : StrictTotalOn cmp S) (hS : KeysIn S s)
    (hload : s.pool.faults = []) {root : PageId} (hroot : s.fileHeader.rootPageId = some root)
    (h : s.isValidateTree cmp stray = some true) :
    (∀ q k, s.EnclosedAbove cmp k root q → k ∈ (s.node q).entries.map Prod.fst →
      ∃ s', s.findLeaf cmp k = (.success, q, s') ∧ ((s'.node q).leafLookUp cmp k).2 = true) ∧
    ∀ q, s.ReachesLeaf root q → ∃ p s', s.leftMostPage = (.success, p, s') ∧
      (s.Threaded root p → Relation.ReflTransGen s.NextLeaf p q) := by
  obtain ⟨order, ha⟩ := exists_linearOrder hcmp
  constructor
  · intro q k hd hk
    obtain ⟨hv, -⟩ := isValidateTree_true hroot hd.loads h
    obtain ⟨s', hfind, hsame⟩ := findLeaf_descends ha hS hload hroot hv hd hk
    refine ⟨s', hfind, ?_⟩
    rw [hsame.node]
    exact leafLookUp_found ha hS (hd.checked _ hv) hk
  · intro q hq
    obtain ⟨-, hlink⟩ := isValidateTree_true hroot hq.loads h
    obtain ⟨p, s', fuel, key, hleft, hloop⟩ := isValidateLeafLink_true hroot hlink
    refine ⟨p, s', hleft, fun ht => ht.visits (fun hwalk hnext => ?_) hq⟩
    exact isValidateLeafLinkLoop_prev hwalk hnext hloop

/-- An index file with the given nodes on the pages from 2 on, the first of them the root. -/
def ofNodes (nodes : List (IndexNode Int)) : BplusTreeHandler Int where
  fileHeader := ⟨some 2, 6, 4, .ints⟩
  pool := { (PagePool.newFile : PagePool (IndexPage Int)) with
    pageData := fun p => .node (if p < 2 then default else nodes.getD (p - 2) default)
    pagesNum := nodes.length + 2 }

def leafOf (parent : PageId) (prev next : Option PageId) (k : Int) : IndexNode Int :=
  ⟨true, some parent, prev, next, [(⟨k, ⟨1, 0⟩⟩, ⟨1, 0⟩)], []⟩

def innerOf (parent : Option PageId) (left : PageId) (k : Int) (right : PageId) : IndexNode Int :=
  ⟨false, parent, none, none, [], [(default, left), (⟨k, ⟨1, 0⟩⟩, right)]⟩

def twoLeaves : BplusTreeHandler Int :=
  ofNodes [innerOf none 3 10 4, leafOf 2 none (some 4) 1, leafOf 2 (some 3) none 12]

theorem twoLeaves_reaches {q : PageId} (h : twoLeaves.ReachesLeaf 2 q) : q = 3 ∨ q = 4 := by
  have hleaf {p : PageId} (hl : (twoLeaves.node p).isLeaf = true) (hp : twoLeaves.ReachesLeaf p q) : q = p := by
    cases hp with
    | leaf => rfl
    | child _ hinner => rw [hl] at hinner; cases hinner
  cases h with
  | leaf _ hroot => cases hroot
  | @child _ _ i _ _ hi _ hd =>
    have hlen : (twoLeaves.node 2).children.length = 2 := rfl
    rw [hlen] at hi
    rcases Nat.lt_succ_iff_lt_or_eq.mp hi with h0 | rfl
    · obtain rfl := Nat.lt_one_iff.mp h0
      exact .inl (hleaf rfl hd)
    · exact .inr (hleaf rfl hd)

theorem twoLeaves_reachesLeaf {choose : IndexNode Int → Nat → Prop} {i : Nat} (hi : i < 2)
    (h : choose (twoLeaves.node 2) i) : twoLeaves.Descends choose 2 (i + 3) := by
  refine .child (i := i) rfl rfl hi h ?_
  rcases Nat.lt_succ_iff_lt_or_eq.mp hi with h0 | rfl
  · obtain rfl := Nat.lt_one_iff.mp h0
    exact .leaf rfl rfl
  · exact .leaf rfl rfl

theorem twoLeaves_threaded : twoLeaves.Threaded 2 3 where
  stays q r hq hr := by
    rcases twoLeaves_reaches hq with rfl | rfl
    · cases hr
      exact twoLeaves_reachesLeaf (i := 1) (by decide) trivial
    · cases hr
  single q r hq hr hsome heq := by
    rcases twoLeaves_reaches hq with rfl | rfl <;> rcases twoLeaves_reaches hr with rfl | rfl
    · rfl
    · cases heq
    · cases heq
    · rfl
  back q hq := by
    rcases twoLeaves_reaches hq with rfl | rfl
    · exact .refl
    · exact .single ⟨twoLeaves_reachesLeaf (i := 0) (by decide) trivial, rfl, nofun⟩

theorem isValidateTree_sound_twoLeaves :
    (∃ s', twoLeaves.findLeaf numberComparator ⟨12, ⟨1, 0⟩⟩ = (.success, 4, s') ∧
      ((s'.node 4).leafLookUp numberComparator ⟨12, ⟨1, 0⟩⟩).2 = true) ∧
    ∃ p s', twoLeaves.leftMostPage = (.success, p, s') ∧
      Relation.ReflTransGen twoLeaves.NextLeaf p 4 := by
  have hvalid : twoLeaves.isValidateTree numberComparator (fun _ _ => default) = some true := by
    decide +kernel
  have hroot : twoLeaves.fileHeader.rootPageId = some 2 := rfl
  have hsound := isValidateTree_sound numberComparator_strictTotal
    (fun _ => ⟨fun _ _ => trivial, fun _ _ => trivial⟩) rfl hroot hvalid
  refine ⟨hsound.1 4 ⟨12, ⟨1, 0⟩⟩ (twoLeaves_reachesLeaf (i := 1) (by decide) ?_) (by decide), ?_⟩
  · intro hleaf
    cases hleaf
  · obtain ⟨p, s', hleft, hvisits⟩ := hsound.2 4 (twoLeaves_reachesLeaf (i := 1) (by decide) trivial)
    have hp : twoLeaves.leftMostPage.2.1 = 3 := by decide +kernel
    rw [hleft] at hp
    cases hp
    exact ⟨3, s', hleft, hvisits twoLeaves_threaded⟩

/-- The third leaf holds 8 although it is right of the separator 10 of the root, and the chain ends
there, before the fourth. -/
def astray : BplusTreeHandler Int :=
  ofNodes [innerOf none 3 10 4, innerOf (some 2) 5 5 6, innerOf (some 2) 7 20 8,
    leafOf 3 none (some 6) 1, leafOf 3 (some 5) (some 7) 6, leafOf 4 (some 6) none 8,
    leafOf 4 none none 25]

theorem astray_reaches : astray.ReachesLeaf 2 7 ∧ astray.ReachesLeaf 2 8 := by
  have h7 : astray.ReachesLeaf 7 7 := .leaf (by decide) (by decide)
  have h8 : astray.ReachesLeaf 8 8 := .leaf (by decide) (by decide)
  have h47 : astray.ReachesLeaf 4 7 :=
    .child (i := 0) (by decide) (by decide) (by decide) trivial h7
  have h48 : astray.ReachesLeaf 4 8 :=
    .child (i := 1) (by decide) (by decide) (by decide) trivial h8
  exact ⟨.child (i := 1) (by decide) (by decide) (by decide) trivial h47,
    .child (i := 1) (by decide) (by decide) (by decide) trivial h48⟩

theorem astray_visits {q : PageId} (h : Relation.ReflTransGen astray.NextLeaf 5 q) :
    q = 5 ∨ q = 6 ∨ q = 7 := by
  induction h with
  | refl => exact .inl rfl
  | tail _ hnext ih =>
    rcases ih with rfl | rfl | rfl
    · exact .inr (.inl (Option.some.inj hnext).symm)
    · exact .inr (.inr (Option.some.inj hnext).symm)
    · cases hnext

/-- Pages that the validator accepts although a key of a leaf is not found and a leaf is not
visited. -/
theorem not_isValidateTree_sound : ∃ (s : BplusTreeHandler Int) (root : PageId),
    s.pool.faults = [] ∧ s.fileHeader.rootPageId = some root ∧
    s.isValidateTree numberComparator (fun _ _ => default) = some true ∧
    ¬(∀ q k, s.ReachesLeaf root q → k ∈ (s.node q).entries.map Prod.fst →
      ∃ p s', s.findLeaf numberComparator k = (.success, p, s') ∧
        ((s'.node p).leafLookUp numberComparator k).2 = true) ∧
    ¬(∀ q, s.ReachesLeaf root q →
      ∃ p s', s.leftMostPage = (.success, p, s') ∧ Relation.ReflTransGen s.NextLeaf p q) := by
  refine ⟨astray, 2, rfl, rfl, by decide +kernel, ?_, ?_⟩
  · intro h
    obtain ⟨p, s', hfind, hlook⟩ := h 7 ⟨8, ⟨1, 0⟩⟩ astray_reaches.1 (by decide)
    have hno : (((astray.findLeaf numberComparator ⟨8, ⟨1, 0⟩⟩).2.2.node
        (astray.findLeaf numberComparator ⟨8, ⟨1, 0⟩⟩).2.1).leafLookUp numberComparator
        ⟨8, ⟨1, 0⟩⟩).2 = false := by decide +kernel
    rw [hfind] at hno
    exact absurd (hlook.symm.trans hno) (by decide)
  · intro h
    obtain ⟨p, s', hleft, hnext⟩ := h 8 astray_reaches.2
    have hp : astray.leftMostPage.2.1 = 5 := by decide +kernel
    rw [hleft] at hp
    rw [show p = 5 from hp] at hnext
    rcases astray_visits hnext with h8 | h8 | h8 <;> cases h8

end BplusTreeHandler

end Idmbs
