import Mathlib.Data.Set.Finite.Basic
import Mathlib.Order.Extension.Linear
import Mathlib.Tactic.Common

/-!
# Idmbs.Lib.Comparator

Three-way comparators that order the elements of a set. Such a comparator agrees there with a linear
order on the whole type (`exists_linearOrder`), so that a proof may use the linear order even where
the comparator is not an order outside the set.
-/

namespace Comparator

variable {κ : Type} {cmp : κ → κ → Int} {S T : Set κ} {a b : κ}

/-- `cmp` is a strict total order on the elements of `S`. -/
structure StrictTotalOn (cmp : κ → κ → Int) (S : Set κ) : Prop where
  eq_iff : ∀ a ∈ S, ∀ b ∈ S, cmp a b = 0 ↔ a = b
  gt_iff : ∀ a ∈ S, ∀ b ∈ S, 0 < cmp a b ↔ cmp b a < 0
  trans : ∀ a ∈ S, ∀ b ∈ S, ∀ c ∈ S, cmp a b < 0 → cmp b c < 0 → cmp a c < 0

/-- `cmp` answers as the linear order does, for elements of `S`. -/
structure Agrees [LinearOrder κ] (cmp : κ → κ → Int) (S : Set κ) : Prop where
  lt_iff : ∀ a ∈ S, ∀ b ∈ S, cmp a b < 0 ↔ a < b
  gt_iff : ∀ a ∈ S, ∀ b ∈ S, 0 < cmp a b ↔ b < a

section Agrees

variable [LinearOrder κ]

theorem Agrees.nonneg_iff (h : Agrees cmp S) (ha : a ∈ S) (hb : b ∈ S) : 0 ≤ cmp a b ↔ b ≤ a := by
  rw [← not_lt, ← not_lt, h.lt_iff a ha b hb]

theorem Agrees.eq_iff (h : Agrees cmp S) (ha : a ∈ S) (hb : b ∈ S) : cmp a b = 0 ↔ a = b := by
  have h1 := h.nonneg_iff ha hb
  have h2 := h.gt_iff a ha b hb
  constructor
  · intro h0
    refine le_antisymm (not_lt.mp fun hlt => ?_) (h1.mp (by omega))
    have := h2.mpr hlt
    omega
  · rintro rfl
    have h3 := h1.mpr (le_refl a)
    have h4 := mt h2.mp (lt_irrefl a)
    omega

end Agrees

/-- The order that `cmp` gives on `S` extends to a linear order. -/
theorem exists_linearOrder (h : StrictTotalOn cmp S) : ∃ _ : LinearOrder κ, Agrees cmp S := by
  classical
  have hirr : ∀ a ∈ S, ¬cmp a a < 0 := fun a ha hlt => by
    have := (h.eq_iff a ha a ha).mpr rfl
    omega
  let r : κ → κ → Prop := fun a b => a = b ∨ a ∈ S ∧ b ∈ S ∧ cmp a b < 0
  have : IsPartialOrder κ r :=
    { refl := fun a => .inl rfl
      trans := by
        rintro a b c (rfl | ⟨ha, hb, h1⟩) (rfl | ⟨hb', hc, h2⟩)
        · exact .inl rfl
        · exact .inr ⟨hb', hc, h2⟩
        · exact .inr ⟨ha, hb, h1⟩
        · exact .inr ⟨ha, hc, h.trans a ha b hb c hc h1 h2⟩
      antisymm := by
        rintro a b (rfl | ⟨ha, hb, h1⟩) (h2 | ⟨-, -, h2⟩)
        · rfl
        · rfl
        · exact h2.symm
        · exact absurd (h.trans a ha b hb a ha h1 h2) (hirr a ha) }
  obtain ⟨le, hle, hext⟩ := extend_partialOrder r
  let order : LinearOrder κ :=
    { le := le
      le_refl := hle.refl
      le_trans := hle.trans
      le_antisymm := hle.antisymm
      le_total := hle.total
      toDecidableLE := Classical.decRel _ }
  have hlt : ∀ a ∈ S, ∀ b ∈ S, cmp a b < 0 → a < b := fun a ha b hb h1 =>
    lt_of_le_of_ne (hext a b (.inr ⟨ha, hb, h1⟩)) fun e => hirr a ha (by rwa [← e] at h1)
  have hiff : ∀ a ∈ S, ∀ b ∈ S, cmp a b < 0 ↔ a < b := by
    refine fun a ha b hb => ⟨hlt a ha b hb, fun h1 => ?_⟩
    rcases Int.lt_trichotomy (cmp a b) 0 with h2 | h2 | h2
    · exact h2
    · exact absurd ((h.eq_iff a ha b hb).mp h2) (ne_of_lt h1)
    · exact absurd (hlt b hb a ha ((h.gt_iff a ha b hb).mp h2)) (lt_asymm h1)
  exact ⟨order, hiff, fun a ha b hb => (h.gt_iff a ha b hb).trans (hiff b hb a ha)⟩

section Sign

variable {same : κ → κ → Prop}

/-- The sign of `cmp` is antisymmetric and transitive on `S`, and 0 for what `same` identifies. -/
structure TotalOn (cmp : κ → κ → Int) (same : κ → κ → Prop) (S : Set κ) : Prop where
  antisymm : ∀ a ∈ S, ∀ b ∈ S, (cmp a b).sign = -(cmp b a).sign
  trans : ∀ a ∈ S, ∀ b ∈ S, ∀ c ∈ S, cmp a b ≤ 0 → cmp b c ≤ 0 → cmp a c ≤ 0
  eq_iff : ∀ a ∈ S, ∀ b ∈ S, cmp a b = 0 ↔ same a b

theorem sign_eq_neg_sign_iff {x y : Int} :
    x.sign = -y.sign ↔ (x < 0 ↔ 0 < y) ∧ (x = 0 ↔ y = 0) := by
  rcases Int.lt_trichotomy x 0 with hx | hx | hx <;> rcases Int.lt_trichotomy y 0 with hy | hy | hy <;>
    simp [hx, hy, Int.sign_eq_neg_one_of_neg, Int.sign_eq_one_of_pos] <;> omega

theorem TotalOn.gt_iff (h : TotalOn cmp same S) (ha : a ∈ S) (hb : b ∈ S) :
    cmp a b < 0 ↔ 0 < cmp b a :=
  (sign_eq_neg_sign_iff.mp (h.antisymm a ha b hb)).1

theorem TotalOn.self (h : TotalOn cmp same S) (ha : a ∈ S) : cmp a a = 0 := by
  have := h.gt_iff ha ha
  omega

theorem TotalOn.total (h : TotalOn cmp same S) (ha : a ∈ S) (hb : b ∈ S) : cmp a b ≤ 0 ∨ cmp b a ≤ 0 := by
  have := h.gt_iff ha hb
  omega

theorem TotalOn.exists_least (h : TotalOn cmp same S) (hfin : T.Finite) :
    T ⊆ S → T.Nonempty → ∃ m ∈ T, ∀ a ∈ T, cmp m a ≤ 0 := by
  induction T, hfin using Set.Finite.induction_on with
  | empty =>
    intro _ hne
    exact absurd rfl hne.ne_empty
  | @insert x T _ _ ih =>
    intro hsub _
    have hx : x ∈ S := hsub (Set.mem_insert x T)
    have hT : T ⊆ S := fun a ha => hsub (Set.mem_insert_of_mem x ha)
    rcases T.eq_empty_or_nonempty with rfl | hne
    · refine ⟨x, Set.mem_insert x ∅, fun a ha => ?_⟩
      rcases Set.mem_insert_iff.mp ha with rfl | ha
      · exact le_of_eq (h.self hx)
      · exact absurd ha (Set.notMem_empty a)
    · obtain ⟨m, hm, hleast⟩ := ih hT hne
      rcases h.total hx (hT hm) with hle | hle
      · refine ⟨x, Set.mem_insert x T, fun a ha => ?_⟩
        rcases Set.mem_insert_iff.mp ha with rfl | ha
        · exact le_of_eq (h.self hx)
        · exact h.trans x hx m (hT hm) a (hT ha) hle (hleast a ha)
      · refine ⟨m, Set.mem_insert_of_mem x hm, fun a ha => ?_⟩
        rcases Set.mem_insert_iff.mp ha with rfl | ha
        · exact hle
        · exact hleast a ha

end Sign

end Comparator
