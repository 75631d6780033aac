import Mathlib.Data.List.Basic
import Mathlib.Algebra.Order.Ring.Int
import Mathlib.Tactic.Common

/-!
# Idmbs.Common.LowerBound

`FindLowerBound` (common/lower_bound.h): binary search in a sorted array with a three-way
comparator. `comp x` is the comparator's answer for array element `x` against the searched value.

`Splits comp xs` is what "sorted, all elements different" means to the search: left of an element
that is not below the value everything is below it, right of it everything is above.
`findLowerBound_spec` cuts the array at the result.
-/

namespace Idmbs

variable {κ : Type}

/-- The `while` loop. `lastCount` shrinks in every pass, so `lastCount` passes of fuel suffice. -/
def findLowerBoundLoop (comp : κ → Int) (xs : List κ) : Nat → Nat → Nat → Nat × Bool
  | 0, first, _ => (first, false)
  | fuel + 1, first, lastCount =>
    if lastCount = 0 then (first, false)
    else
      let step := lastCount / 2
      match xs[first + step]? with
      | none => (first, false)
      | some x =>
        if comp x = 0 then (first + step, true)
        else if comp x < 0 then
          findLowerBoundLoop comp xs fuel (first + step + 1) (lastCount - (step + 1))
        else findLowerBoundLoop comp xs fuel first step

/-- Index of the first element not below the value, and whether it is equal to the value. -/
def findLowerBound (comp : κ → Int) (xs : List κ) : Nat × Bool :=
  findLowerBoundLoop comp xs xs.length 0 xs.length

def Splits (comp : κ → Int) (xs : List κ) : Prop :=
  xs.Pairwise fun a b => 0 ≤ comp a → 0 < comp b

section Loop

variable {comp : κ → Int} {xs : List κ}

theorem splits_lt (h : Splits comp xs) {i j : Nat} (hij : i < j) (hi : i < xs.length)
    (hj : j < xs.length) (h0 : 0 ≤ comp xs[i]) : 0 < comp xs[j] :=
  List.pairwise_iff_getElem.mp h i j hi hj hij h0

/-- The result of a search: everything before it is below the value, nothing from it on is. -/
structure IsLowerBound (comp : κ → Int) (xs : List κ) (r : Nat × Bool) : Prop where
  le : r.1 ≤ xs.length
  below : ∀ i (h : i < xs.length), i < r.1 → comp xs[i] < 0
  above : ∀ i (h : i < xs.length), r.1 ≤ i → 0 ≤ comp xs[i]
  found : r.2 = true ↔ ∃ h : r.1 < xs.length, comp xs[r.1] = 0

/-- The loop invariant: elements before `first` are below the value, elements from
`first + lastCount` on are above it. -/
theorem findLowerBoundLoop_spec (hs : Splits comp xs) :
    ∀ (fuel first lastCount : Nat), lastCount ≤ fuel → first + lastCount ≤ xs.length →
      (∀ i (h : i < xs.length), i < first → comp xs[i] < 0) →
      (∀ i (h : i < xs.length), first + lastCount ≤ i → 0 < comp xs[i]) →
      IsLowerBound comp xs (findLowerBoundLoop comp xs fuel first lastCount) := by
  have done : ∀ first : Nat, first ≤ xs.length →
      (∀ i (h : i < xs.length), i < first → comp xs[i] < 0) →
      (∀ i (h : i < xs.length), first ≤ i → 0 < comp xs[i]) →
      IsLowerBound comp xs (first, false) := by
    intro first hle hb ha
    refine ⟨hle, hb, fun i h hi => le_of_lt (ha i h hi), ?_⟩
    simp only [Bool.false_eq_true, false_iff, not_exists]
    intro h h0
    have := ha first h (le_refl _)
    omega
  intro fuel
  induction fuel with
  | zero =>
    intro first lastCount hf hle hb ha
    have : lastCount = 0 := by omega
    subst this
    exact done first (by omega) hb (by simpa using ha)
  | succ fuel ih =>
    intro first lastCount hf hle hb ha
    simp only [findLowerBoundLoop]
    split
    · rename_i h0
      subst h0
      exact done first (by omega) hb (by simpa using ha)
    · rename_i h0
      have hmid : first + lastCount / 2 < xs.length := by omega
      rw [List.getElem?_eq_getElem hmid]
      simp only
      split
      · rename_i heq
        refine ⟨Nat.le_of_lt hmid, ?_, ?_, by simpa using ⟨hmid, heq⟩⟩
        · intro i h hi
          by_contra hn
          have := splits_lt hs hi h hmid (by omega)
          simp only at this
          omega
        · intro i h hi
          rcases Nat.eq_or_lt_of_le hi with e | hlt
          · subst e; exact le_of_eq heq.symm
          · exact le_of_lt (splits_lt hs hlt hmid h (le_of_eq heq.symm))
      · split
        · rename_i hne hlt
          refine ih _ _ (by omega) (by omega) ?_ (fun i h hi => ha i h (by omega))
          intro i h hi
          by_contra hn
          rcases Nat.eq_or_lt_of_le (show i ≤ first + lastCount / 2 by omega) with e | hlt'
          · subst e; omega
          · have := splits_lt hs hlt' h hmid (by omega)
            omega
        · rename_i hne hge
          refine ih _ _ (by omega) (by omega) hb ?_
          intro i h hi
          rcases Nat.eq_or_lt_of_le hi with e | hlt'
          · subst e; omega
          · exact splits_lt hs hlt' hmid h (by omega)

theorem findLowerBound_isLowerBound (hs : Splits comp xs) :
    IsLowerBound comp xs (findLowerBound comp xs) :=
  findLowerBoundLoop_spec hs _ _ _ (le_refl _) (by omega) (fun i _ hi => absurd hi (by omega))
    (fun i h hi => absurd hi (by omega))

end Loop

/-- The result is an index of the array or its end, sorted or not. -/
theorem findLowerBoundLoop_le (comp : κ → Int) (xs : List κ) :
    ∀ fuel first lastCount : Nat,
      (findLowerBoundLoop comp xs fuel first lastCount).1 ≤ first + lastCount := by
  intro fuel
  induction fuel with
  | zero => exact fun first lastCount => Nat.le_add_right _ _
  | succ fuel ih =>
    intro first lastCount
    simp only [findLowerBoundLoop]
    split
    · exact Nat.le_add_right _ _
    · split
      · exact Nat.le_add_right _ _
      · split_ifs
        · simp only
          omega
        · have := ih (first + lastCount / 2 + 1) (lastCount - (lastCount / 2 + 1))
          omega
        · have := ih first (lastCount / 2)
          omega

theorem findLowerBound_le (comp : κ → Int) (xs : List κ) :
    (findLowerBound comp xs).1 ≤ xs.length := by
  simpa [findLowerBound] using findLowerBoundLoop_le comp xs xs.length 0 xs.length

/-- The search cuts the array in two: elements below the value, and elements at or above it. -/
theorem findLowerBound_spec {comp : κ → Int} {xs : List κ} (hs : Splits comp xs) :
    ∃ A B, xs = A ++ B ∧ (findLowerBound comp xs).1 = A.length ∧ (∀ a ∈ A, comp a < 0) ∧
      (∀ b ∈ B, 0 ≤ comp b) ∧ ((findLowerBound comp xs).2 = true ↔ ∃ b ∈ B, comp b = 0) := by
  obtain ⟨hle, hb, ha, hf⟩ := findLowerBound_isLowerBound hs
  set r := findLowerBound comp xs
  refine ⟨xs.take r.1, xs.drop r.1, (List.take_append_drop _ _).symm, by simp [hle], ?_, ?_, ?_⟩
  · intro a h
    obtain ⟨i, hi, rfl⟩ := List.mem_take_iff_getElem.mp h
    exact hb i (by omega) (by omega)
  · intro b h
    obtain ⟨i, hi, rfl⟩ := List.mem_drop_iff_getElem.mp h
    exact ha (r.1 + i) (by omega) (by omega)
  · rw [hf]
    constructor
    · rintro ⟨h, h0⟩
      exact ⟨xs[r.1], List.mem_drop_iff_getElem.mpr ⟨0, by simpa using h, by simp⟩, h0⟩
    · rintro ⟨b, h, h0⟩
      obtain ⟨i, hi, rfl⟩ := List.mem_drop_iff_getElem.mp h
      have hr : r.1 < xs.length := by omega
      refine ⟨hr, ?_⟩
      rcases Nat.eq_zero_or_pos i with e | hpos
      · subst e; simpa using h0
      · have := splits_lt hs (show r.1 < r.1 + i by omega) hr (by omega) (ha _ hr (le_refl _))
        omega

/-- A cut of the array with everything below the value on the left and above or equal on the
right is where the search ends. -/
theorem findLowerBound_append {comp : κ → Int} {A B : List κ} (hs : Splits comp (A ++ B))
    (hA : ∀ a ∈ A, comp a < 0) (hB : ∀ b ∈ B, 0 ≤ comp b) :
    (findLowerBound comp (A ++ B)).1 = A.length := by
  obtain ⟨hle, hb, ha, -⟩ := findLowerBound_isLowerBound hs
  set r := findLowerBound comp (A ++ B)
  rcases Nat.lt_trichotomy r.1 A.length with h | h | h
  · have h1 := ha r.1 (by simp; omega) (le_refl _)
    rw [List.getElem_append_left h] at h1
    have h2 := hA _ (List.getElem_mem h)
    omega
  · exact h
  · have hlt : A.length < (A ++ B).length := by omega
    have h1 := hb A.length hlt h
    rw [List.getElem_append_right (le_refl _)] at h1
    have h2 := hB _ (List.getElem_mem (l := B) (n := A.length - A.length) (by simp at hlt; simp; omega))
    omega

end Idmbs
