import Idmbs.BPlusTree.Node
import Idmbs.Lib.Comparator
import Mathlib.Order.Interval.Finset.Nat
import Mathlib.Order.Bounds.Basic

/-!
# Idmbs.BPlusTree.ItemSearch

`LeafIndexNodeHandler::LookUp` and `InternalIndexNodeHandler::LookUp` (storage/b_plus_tree.cpp) over the
bytes of a page: `FindLowerBound` walks from item to item with a `BinaryIterator`. `key a` is the key
whose bytes begin at address `a`.

In a page whose keys ascend the answers are exact, and an inner node is searched without its key 0. On
the page of an `IndexNode` they are the answers of its `leafLookUp` and `internalLookUp`.
-/

namespace Idmbs

open Comparator

/-- The address of an item, and how far it is to the next one. -/
structure BinaryIterator where
  itemNum : Nat
  data : Nat
  deriving DecidableEq, Repr

namespace BinaryIterator

/-- `operator+=`. -/
def advance (it : BinaryIterator) (n : Nat) : BinaryIterator := { it with data := it.data + it.itemNum * n }

/-- `operator-`. -/
def distance (left right : BinaryIterator) : Nat := (left.data - right.data) / left.itemNum

/-- The loop of `FindLowerBound` from `first` on; `comp` compares the key at an address. -/
def findLowerBoundLoop (comp : Nat → Int) : Nat → BinaryIterator → Nat → BinaryIterator × Bool
  | 0, first, _ => (first, false)
  | fuel + 1, first, lastCount =>
    if lastCount = 0 then (first, false)
    else
      let step := lastCount / 2
      let iter := first.advance step
      let result := comp iter.data
      if result = 0 then (iter, true)
      else if result < 0 then findLowerBoundLoop comp fuel (iter.advance 1) (lastCount - (step + 1))
      else findLowerBoundLoop comp fuel first step

/-- `FindLowerBound` from `first` to `last`. -/
def findLowerBound (comp : Nat → Int) (first last : BinaryIterator) : BinaryIterator × Bool :=
  let count := last.distance first
  findLowerBoundLoop comp count first count

end BinaryIterator

/-- The item array of a page: where it begins, how long an item is and how many there are. -/
structure ItemArray where
  array : Nat
  itemSize : Nat
  size : Nat
  deriving DecidableEq, Repr

namespace ItemArray

def keyAt (p : ItemArray) (index : Nat) : Nat := p.array + index * p.itemSize

/-- The items of a leaf: a key and a `RecordId`. -/
def leaf (keyLength array size : Nat) : ItemArray := ⟨array, keyLength + 8, size⟩

/-- The items of an inner node: a key and a page number. -/
def internal (keyLength array size : Nat) : ItemArray := ⟨array, keyLength + 4, size⟩

variable {κ : Type}

/-- `LookUp` of a leaf: the index and `found`. -/
def leafLookUp (cmp : κ → κ → Int) (key : Nat → κ) (x : κ) (p : ItemArray) : Nat × Bool :=
  let iterBegin : BinaryIterator := ⟨p.itemSize, p.keyAt 0⟩
  let iterEnd : BinaryIterator := ⟨p.itemSize, p.keyAt p.size⟩
  let (iter, found) := BinaryIterator.findLowerBound (fun a => cmp (key a) x) iterBegin iterEnd
  (iter.distance iterBegin, found)

/-- What `LookUp` of an inner node answers. -/
structure InternalAnswer where
  index : Nat
  found : Bool
  insertPosition : Nat
  deriving DecidableEq, Repr

/-- `LookUp` of an inner node. -/
def internalLookUp (cmp : κ → κ → Int) (key : Nat → κ) (x : κ) (p : ItemArray) : InternalAnswer :=
  if p.size = 0 then ⟨0, false, 1⟩
  else
    let iterBegin : BinaryIterator := ⟨p.itemSize, p.keyAt 1⟩
    let iterEnd : BinaryIterator := ⟨p.itemSize, p.keyAt p.size⟩
    let (iter, found) := BinaryIterator.findLowerBound (fun a => cmp (key a) x) iterBegin iterEnd
    let ret := iter.distance iterBegin + 1
    if p.size ≤ ret ∨ cmp x (key (p.keyAt ret)) < 0 then ⟨ret - 1, found, ret⟩ else ⟨ret, found, ret⟩

def keysFrom (key : Nat → κ) (p : ItemArray) (i : Nat) : List κ :=
  (List.range' i (p.size - i)).map fun j => key (p.keyAt j)

/-! ## From addresses to indices -/

section Walk

variable {key key' : Nat → κ} {cmp : κ → κ → Int} {x : κ} {p : ItemArray} {i j n : Nat}

@[simp] theorem length_keysFrom : (p.keysFrom key i).length = p.size - i := by
  rw [keysFrom, List.length_map, List.length_range']

theorem getElem_keysFrom (h : j < (p.keysFrom key i).length) :
    (p.keysFrom key i)[j] = key (p.keyAt (i + j)) := by
  simp only [keysFrom, List.getElem_map, List.getElem_range', Nat.one_mul]

theorem advance_keyAt : (⟨p.itemSize, p.keyAt i⟩ : BinaryIterator).advance n = ⟨p.itemSize, p.keyAt (i + n)⟩ := by
  simp only [BinaryIterator.advance, keyAt, Nat.add_mul, Nat.mul_comm n, Nat.add_assoc]

theorem distance_keyAt (h : 0 < p.itemSize) :
    BinaryIterator.distance ⟨p.itemSize, p.keyAt (i + n)⟩ ⟨p.itemSize, p.keyAt i⟩ = n := by
  have hdiff : p.keyAt (i + n) - p.keyAt i = n * p.itemSize := by
    unfold keyAt
    rw [Nat.add_mul]
    omega
  rw [BinaryIterator.distance, hdiff, Nat.mul_div_cancel _ h]

/-- The iterator walks as the index does in the list of keys. -/
theorem findLowerBoundLoop_keyAt {fuel first lastCount : Nat} (h : i + first + lastCount ≤ p.size) :
    BinaryIterator.findLowerBoundLoop (fun a => cmp (key a) x) fuel ⟨p.itemSize, p.keyAt (i + first)⟩ lastCount =
      (⟨p.itemSize, p.keyAt (i + (findLowerBoundLoop (fun k => cmp k x) (p.keysFrom key i) fuel first lastCount).1)⟩,
        (findLowerBoundLoop (fun k => cmp k x) (p.keysFrom key i) fuel first lastCount).2) := by
  induction fuel generalizing first lastCount with
  | zero => rfl
  | succ fuel ih =>
    rw [BinaryIterator.findLowerBoundLoop, findLowerBoundLoop]
    by_cases h0 : lastCount = 0
    · rw [if_pos h0, if_pos h0]
    · have hlt : first + lastCount / 2 < (p.keysFrom key i).length := by
        rw [length_keysFrom]
        omega
      have hat := List.getElem?_eq_getElem hlt
      rw [getElem_keysFrom, ← Nat.add_assoc] at hat
      simp only [h0, if_false, advance_keyAt, hat]
      split
      · rw [Nat.add_assoc]
      · split
        · rw [show i + first + lastCount / 2 + 1 = i + (first + lastCount / 2 + 1) by omega]
          exact ih (by omega)
        · exact ih (by omega)

theorem findLowerBound_keyAt (h : 0 < p.itemSize) (hi : i ≤ p.size) :
    BinaryIterator.findLowerBound (fun a => cmp (key a) x) ⟨p.itemSize, p.keyAt i⟩ ⟨p.itemSize, p.keyAt p.size⟩ =
      (⟨p.itemSize, p.keyAt (i + (findLowerBound (fun k => cmp k x) (p.keysFrom key i)).1)⟩,
        (findLowerBound (fun k => cmp k x) (p.keysFrom key i)).2) := by
  obtain ⟨n, hn⟩ := Nat.exists_eq_add_of_le hi
  have hcount : BinaryIterator.distance ⟨p.itemSize, p.keyAt p.size⟩ ⟨p.itemSize, p.keyAt i⟩ = n := by
    rw [hn, distance_keyAt h]
  have hlen : (p.keysFrom key i).length = n := by
    rw [length_keysFrom]
    omega
  simp only [BinaryIterator.findLowerBound]
  rw [hcount, findLowerBound, hlen]
  have hle : i + 0 + n ≤ p.size := by omega
  exact findLowerBoundLoop_keyAt hle

theorem leafLookUp_eq (h : 0 < p.itemSize) :
    p.leafLookUp cmp key x = findLowerBound (fun k => cmp k x) (p.keysFrom key 0) := by
  simp only [leafLookUp, findLowerBound_keyAt h (Nat.zero_le _), distance_keyAt h]

theorem internalLookUp_eq (h : 0 < p.itemSize) (hn : 1 ≤ p.size) :
    p.internalLookUp cmp key x =
      let r := findLowerBound (fun k => cmp k x) (p.keysFrom key 1)
      if p.size ≤ r.1 + 1 ∨ cmp x (key (p.keyAt (r.1 + 1))) < 0 then ⟨r.1, r.2, r.1 + 1⟩
      else ⟨r.1 + 1, r.2, r.1 + 1⟩ := by
  rw [internalLookUp, if_neg (by omega)]
  simp only [findLowerBound_keyAt h hn, distance_keyAt h, Nat.add_sub_cancel]

theorem keysFrom_congr (h : ∀ j, i ≤ j → j < p.size → key (p.keyAt j) = key' (p.keyAt j)) :
    p.keysFrom key i = p.keysFrom key' i := by
  refine List.map_congr_left fun j hj => ?_
  rw [List.mem_range'_1] at hj
  exact h j hj.1 (by omega)

end Walk

/-! ## Pages with ascending keys -/

/-- What `LookUp` of a leaf must answer: how many keys are less, and whether the key is there. -/
structure LeafExact (cmp : κ → κ → Int) (key : Nat → κ) (x : κ) (p : ItemArray) (r : Nat × Bool) : Prop where
  index : r.1 = ((Finset.range p.size).filter fun i => cmp (key (p.keyAt i)) x < 0).card
  found : r.2 = true ↔ ∃ i < p.size, key (p.keyAt i) = x

/-- What `LookUp` of an inner node must answer: the last item whose key is not above `x`, or item 0, and
the place behind the keys that are less. -/
structure InternalExact (cmp : κ → κ → Int) (key : Nat → κ) (x : κ) (p : ItemArray) (r : InternalAnswer) :
    Prop where
  index : IsGreatest {i | i < p.size ∧ (i = 0 ∨ cmp (key (p.keyAt i)) x ≤ 0)} r.index
  insertPosition : r.insertPosition =
    1 + ((Finset.Ico 1 p.size).filter fun i => cmp (key (p.keyAt i)) x < 0).card

/-- The keys of the items from `i` on ascend, in a set that `cmp` orders. -/
structure AscendingFrom (cmp : κ → κ → Int) (S : Set κ) (key : Nat → κ) (p : ItemArray) (i : Nat) : Prop where
  mem : ∀ j, i ≤ j → j < p.size → key (p.keyAt j) ∈ S
  lt : ∀ j k, i ≤ j → j < k → k < p.size → cmp (key (p.keyAt j)) (key (p.keyAt k)) < 0

section Exact

variable {cmp : κ → κ → Int} {S : Set κ} {key : Nat → κ} {x : κ} {p : ItemArray} {i : Nat}

theorem AscendingFrom.above (h : AscendingFrom cmp S key p i) (ht : StrictTotalOn cmp S) (hx : x ∈ S) {j k : Nat}
    (hj : i ≤ j) (hjk : j < k) (hk : k < p.size) (h0 : 0 ≤ cmp (key (p.keyAt j)) x) :
    0 < cmp (key (p.keyAt k)) x := by
  have hj' := h.mem j hj (by omega)
  have hk' := h.mem k (by omega) hk
  have hlt := h.lt j k hj hjk hk
  rw [ht.gt_iff _ hk' _ hx]
  rcases Int.lt_or_eq_of_le h0 with hpos | heq
  · exact ht.trans _ hx _ hj' _ hk' ((ht.gt_iff _ hj' _ hx).mp hpos) hlt
  · rw [← (ht.eq_iff _ hj' _ hx).mp heq.symm]
    exact hlt

theorem AscendingFrom.splits (h : AscendingFrom cmp S key p i) (ht : StrictTotalOn cmp S) (hx : x ∈ S) :
    Splits (fun k => cmp k x) (p.keysFrom key i) := by
  refine List.pairwise_map.mpr (List.Pairwise.imp_of_mem (fun {j k} hj hk hjk h0 => ?_) List.pairwise_lt_range')
  rw [List.mem_range'_1] at hj hk
  exact h.above ht hx hj.1 hjk (by omega) h0

/-- The search tells the keys from `i` on that are less from the others. -/
theorem AscendingFrom.search (h : AscendingFrom cmp S key p i) (ht : StrictTotalOn cmp S) (hx : x ∈ S) :
    ∃ n ≤ p.size - i, (findLowerBound (fun k => cmp k x) (p.keysFrom key i)).1 = n ∧
      (∀ j, i ≤ j → j < p.size → (cmp (key (p.keyAt j)) x < 0 ↔ j < i + n)) ∧
      ((findLowerBound (fun k => cmp k x) (p.keysFrom key i)).2 = true ↔
        i + n < p.size ∧ cmp (key (p.keyAt (i + n))) x = 0) := by
  have hsearch := findLowerBound_isLowerBound (h.splits ht hx)
  generalize findLowerBound (fun k => cmp k x) (p.keysFrom key i) = r at hsearch ⊢
  obtain ⟨hle, hbelow, habove, hfound⟩ := hsearch
  rw [length_keysFrom] at hle
  refine ⟨r.1, hle, rfl, fun j hij hj => ?_, ?_⟩
  · have hlen : j - i < (p.keysFrom key i).length := by
      rw [length_keysFrom]
      omega
    have hat := getElem_keysFrom hlen
    rw [show i + (j - i) = j by omega] at hat
    constructor
    · intro hlt
      by_contra hge
      have := habove (j - i) hlen (by omega)
      rw [hat] at this
      omega
    · intro hlt
      have := hbelow (j - i) hlen (by omega)
      rwa [hat] at this
  · rw [hfound]
    constructor
    · rintro ⟨hlt, h0⟩
      rw [getElem_keysFrom] at h0
      rw [length_keysFrom] at hlt
      exact ⟨by omega, h0⟩
    · rintro ⟨hlt, h0⟩
      refine ⟨by rw [length_keysFrom]; omega, ?_⟩
      rwa [getElem_keysFrom]

theorem leafLookUp_exact (hp : 0 < p.itemSize) (h : AscendingFrom cmp S key p 0) (ht : StrictTotalOn cmp S)
    (hx : x ∈ S) : LeafExact cmp key x p (p.leafLookUp cmp key x) := by
  obtain ⟨n, hn, hr, hless, hfound⟩ := h.search ht hx
  rw [leafLookUp_eq hp]
  refine ⟨?_, hfound.trans ?_⟩
  · have hfilter : ((Finset.range p.size).filter fun i => cmp (key (p.keyAt i)) x < 0) = Finset.range n := by
      ext i
      rw [Finset.mem_filter, Finset.mem_range, Finset.mem_range]
      constructor
      · rintro ⟨hi, hlt⟩
        have := (hless i (Nat.zero_le _) hi).mp hlt
        omega
      · intro hi
        have hi' : i < p.size := by omega
        exact ⟨hi', (hless i (Nat.zero_le _) hi').mpr (by omega)⟩
    rw [hr, hfilter, Finset.card_range]
  · constructor
    · rintro ⟨hlt, h0⟩
      exact ⟨_, hlt, (ht.eq_iff _ (h.mem _ (Nat.zero_le _) hlt) _ hx).mp h0⟩
    · rintro ⟨i, hi, rfl⟩
      have h0 := (ht.eq_iff _ hx _ hx).mpr rfl
      -- the search stops at the key: the ones before it are less, and it is not
      have hge : 0 + n ≤ i := by
        by_contra hlt
        have := (hless i (Nat.zero_le _) hi).mpr (by omega)
        omega
      have hle : ¬0 + n < i := by
        intro hlt
        have hn' : 0 + n < p.size := by omega
        have := (hless _ (Nat.zero_le _) hn').mp (h.lt _ i (Nat.zero_le _) hlt hi)
        omega
      have : 0 + n = i := by omega
      rw [this]
      exact ⟨hi, h0⟩

theorem internalLookUp_exact (hp : 0 < p.itemSize) (hn : 1 ≤ p.size) (h : AscendingFrom cmp S key p 1)
    (ht : StrictTotalOn cmp S) (hx : x ∈ S) : InternalExact cmp key x p (p.internalLookUp cmp key x) := by
  obtain ⟨n, hle, hr, hless, -⟩ := h.search ht hx
  have hfilter : ((Finset.Ico 1 p.size).filter fun i => cmp (key (p.keyAt i)) x < 0) = Finset.Ico 1 (1 + n) := by
    ext i
    rw [Finset.mem_filter, Finset.mem_Ico, Finset.mem_Ico]
    constructor
    · rintro ⟨hi, hlt⟩
      exact ⟨hi.1, (hless i hi.1 hi.2).mp hlt⟩
    · rintro ⟨hi, hlt⟩
      have hi' : i < p.size := by omega
      exact ⟨⟨hi, hi'⟩, (hless i hi hi').mpr hlt⟩
  have hcard : ((Finset.Ico 1 p.size).filter fun i => cmp (key (p.keyAt i)) x < 0).card = n := by
    rw [hfilter, Nat.card_Ico, Nat.add_sub_cancel_left]
  have hgt : ∀ j, 1 ≤ j → j < p.size → (0 < cmp (key (p.keyAt j)) x ↔ cmp x (key (p.keyAt j)) < 0) :=
    fun j h1 hj => ht.gt_iff _ (h.mem j h1 hj) _ hx
  rw [internalLookUp_eq hp hn]
  simp only [hr, Nat.add_comm n 1]
  have hn' : n < p.size := by omega
  split
  · rename_i hstop
    refine ⟨⟨⟨hn', ?_⟩, fun i ⟨hi, h0⟩ => show i ≤ n from ?_⟩, by rw [hcard]⟩
    · rcases Nat.eq_zero_or_pos n with rfl | hpos
      · exact .inl rfl
      · exact .inr (le_of_lt ((hless n hpos hn').mpr (by omega)))
    · by_contra hlt
      have hi0 : cmp (key (p.keyAt i)) x ≤ 0 := h0.resolve_left (by omega)
      have hstop' : cmp x (key (p.keyAt (1 + n))) < 0 := hstop.resolve_left (by omega)
      have hpos := (hgt (1 + n) (by omega) (by omega)).mpr hstop'
      rcases Nat.lt_or_eq_of_le (show 1 + n ≤ i by omega) with hlt' | heq
      · have := h.above ht hx (by omega) hlt' hi (le_of_lt hpos)
        omega
      · rw [← heq] at hi0
        omega
  · rename_i hgo
    rw [not_or, not_le] at hgo
    have hge : 0 ≤ cmp (key (p.keyAt (1 + n))) x := by
      have := (hless (1 + n) (by omega) hgo.1).not.mpr (by omega)
      omega
    have hle' : cmp (key (p.keyAt (1 + n))) x ≤ 0 := by
      have := (hgt (1 + n) (by omega) hgo.1).not.mpr hgo.2
      omega
    refine ⟨⟨⟨hgo.1, .inr hle'⟩, fun i ⟨hi, h0⟩ => show i ≤ 1 + n from ?_⟩, by rw [hcard]⟩
    by_contra hlt
    have := h.above ht hx (by omega) (show 1 + n < i by omega) hi hge
    have hi0 : cmp (key (p.keyAt i)) x ≤ 0 := h0.resolve_left (by omega)
    omega

/-- An inner node is searched without its key 0. -/
theorem internalLookUp_congr {key' : Nat → κ} (hp : 0 < p.itemSize)
    (h : ∀ i, 1 ≤ i → i < p.size → key (p.keyAt i) = key' (p.keyAt i)) :
    p.internalLookUp cmp key x = p.internalLookUp cmp key' x := by
  rcases Nat.eq_zero_or_pos p.size with h0 | hn
  · rw [internalLookUp, internalLookUp, if_pos h0, if_pos h0]
  · rw [internalLookUp_eq hp hn, internalLookUp_eq hp hn, keysFrom_congr h]
    simp only
    by_cases hlt : (findLowerBound (fun k => cmp k x) (p.keysFrom key' 1)).1 + 1 < p.size
    · rw [h _ (by omega) hlt]
    · rw [if_pos (.inl (by omega)), if_pos (.inl (by omega))]

end Exact

/-- `LookUp` in a leaf and in an inner node whose keys (key 0 of the inner node apart) ascend. -/
theorem lookUp_exact {cmp : κ → κ → Int} {S : Set κ} (ht : StrictTotalOn cmp S) (key : Nat → κ) (x : κ)
    (hx : x ∈ S) (keyLength array size : Nat) :
    (AscendingFrom cmp S key (leaf keyLength array size) 0 →
      LeafExact cmp key x (leaf keyLength array size)
        ((leaf keyLength array size).leafLookUp cmp key x)) ∧
    (1 ≤ size → AscendingFrom cmp S key (internal keyLength array size) 1 →
      InternalExact cmp key x (internal keyLength array size)
        ((internal keyLength array size).internalLookUp cmp key x)) ∧
    ∀ key' : Nat → κ,
      (∀ i, 1 ≤ i → i < size →
        key ((internal keyLength array size).keyAt i) = key' ((internal keyLength array size).keyAt i)) →
      (internal keyLength array size).internalLookUp cmp key x =
        (internal keyLength array size).internalLookUp cmp key' x :=
  ⟨fun h => leafLookUp_exact (Nat.succ_pos _) h ht hx,
    fun hn h => internalLookUp_exact (Nat.succ_pos _) hn h ht hx,
    fun _ h => internalLookUp_congr (Nat.succ_pos _) h⟩

/-- Numbers by their difference; the key at an address is the address. -/
theorem lookUp_exact_three :
    LeafExact (fun a b => a - b) (fun a => (a : Int)) 12 (leaf 4 0 3) (1, true) ∧
    InternalExact (fun a b => a - b) (fun a => (a : Int)) 12 (internal 4 0 3) ⟨1, false, 2⟩ := by
  have ht : StrictTotalOn (fun a b : Int => a - b) Set.univ :=
    ⟨fun a _ b _ => Int.sub_eq_zero, fun a _ b _ => by omega, fun a _ b _ c _ h1 h2 => by omega⟩
  have h := lookUp_exact ht (fun a => (a : Int)) 12 trivial 4 0 3
  refine ⟨h.1 ⟨fun _ _ _ => trivial, fun j k _ hjk _ => ?_⟩,
    h.2.1 (by decide) ⟨fun _ _ _ => trivial, fun j k _ hjk _ => ?_⟩⟩
  · simp only [leaf, keyAt]
    omega
  · simp only [internal, keyAt]
    omega

/-! ## The pages of the tree -/

section Page

variable {α : Type} {cmp : Key α → Key α → Int} {key : Nat → Key α} {x : Key α} {p : ItemArray} {n : IndexNode α}

theorem leafLookUp_node (hp : 0 < p.itemSize) (h : p.keysFrom key 0 = n.entries.map Prod.fst) :
    p.leafLookUp cmp key x = n.leafLookUp cmp x := by
  rw [leafLookUp_eq hp, h, IndexNode.leafLookUp]

theorem keyAt_node [Inhabited α] (h : p.keysFrom key 1 = n.children.tail.map Prod.fst) {i : Nat}
    (hi : i + 1 < p.size) : key (p.keyAt (i + 1)) = n.keyAt (i + 1) := by
  have hlen : i < (p.keysFrom key 1).length := by
    rw [length_keysFrom]
    omega
  have hat : (p.keysFrom key 1)[i]? = some (key (p.keyAt (i + 1))) := by
    rw [List.getElem?_eq_getElem hlen, getElem_keysFrom, Nat.add_comm 1 i]
  rw [h, List.map_tail, List.getElem?_tail] at hat
  rw [IndexNode.keyAt, List.getD_eq_getElem?_getD, hat]
  rfl

/-- The keys of an inner node in its page, from key 1 on. -/
theorem internalLookUp_node [Inhabited α] (hp : 0 < p.itemSize) (hsize : p.size = n.children.length)
    (h : p.keysFrom key 1 = n.children.tail.map Prod.fst) :
    ((p.internalLookUp cmp key x).index, (p.internalLookUp cmp key x).insertPosition) = n.internalLookUp cmp x := by
  rcases Nat.eq_zero_or_pos p.size with h0 | hn
  · have hnil : n.children = [] := List.eq_nil_of_length_eq_zero (hsize ▸ h0)
    rw [internalLookUp, if_pos h0, IndexNode.internalLookUp, if_pos hnil]
  · have hne : n.children ≠ [] := by
      rintro hnil
      rw [hnil] at hsize
      exact absurd hsize (Nat.ne_of_gt hn)
    rw [internalLookUp_eq hp hn, IndexNode.internalLookUp, if_neg hne, h, ← hsize]
    generalize (findLowerBound (fun k => cmp k x) (n.children.tail.map Prod.fst)) = r
    simp only [Nat.add_sub_cancel]
    have hstop : (p.size ≤ r.1 + 1 ∨ cmp x (key (p.keyAt (r.1 + 1))) < 0) ↔
        (p.size ≤ r.1 + 1 ∨ cmp x (n.keyAt (r.1 + 1)) < 0) := by
      by_cases hlt : r.1 + 1 < p.size
      · rw [keyAt_node h hlt]
      · exact iff_of_true (.inl (by omega)) (.inl (by omega))
    by_cases h0 : p.size ≤ r.1 + 1 ∨ cmp x (n.keyAt (r.1 + 1)) < 0
    · rw [if_pos (hstop.mpr h0), if_pos h0]
    · rw [if_neg (hstop.not.mpr h0), if_neg h0]

end Page

end ItemArray

end Idmbs
