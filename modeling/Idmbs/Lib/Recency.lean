import Mathlib.Data.List.Basic
import Mathlib.Logic.Function.Basic
import Mathlib.Tactic.Common

/-!
# Idmbs.Lib.Recency

Keys in the order of their last uses: the key used last comes first. `usedAt` is when a key was last used,
`now` the time of the next use.
-/

variable {κ α : Type} {keys l : List κ} {usedAt : κ → Nat} {now : Nat} {k : κ}

structure Recent (keys : List κ) (usedAt : κ → Nat) (now : Nat) : Prop where
  order : keys.Pairwise fun a b => usedAt b < usedAt a
  past : ∀ k ∈ keys, usedAt k < now

namespace Recent

theorem nil : Recent ([] : List κ) usedAt now := ⟨.nil, nofun⟩

theorem sublist (h : Recent keys usedAt now) (hl : l.Sublist keys) : Recent l usedAt now :=
  ⟨h.order.sublist hl, fun k hk => h.past k (hl.subset hk)⟩

theorem use [DecidableEq κ] (h : Recent l usedAt now) (hk : k ∉ l) :
    Recent (k :: l) (Function.update usedAt k now) (now + 1) := by
  have hsame : ∀ a ∈ l, Function.update usedAt k now a = usedAt a := by
    intro a ha
    refine Function.update_of_ne ?_ ..
    rintro rfl
    exact hk ha
  have hself : Function.update usedAt k now k = now := Function.update_self ..
  refine ⟨List.pairwise_cons.mpr ⟨fun a ha => ?_, ?_⟩, fun a ha => ?_⟩
  · rw [hsame a ha, hself]
    exact h.past a ha
  · refine h.order.imp_of_mem fun ha hb hab => ?_
    rwa [hsame _ ha, hsame _ hb]
  · rcases List.mem_cons.mp ha with rfl | ha
    · rw [hself]
      exact Nat.lt_succ_self now
    · rw [hsame a ha]
      exact Nat.lt_succ_of_lt (h.past a ha)

/-- A search from the end finds the item whose key was not used for the longest time. -/
theorem oldest {es : List α} {key : α → κ} {P : α → Bool} {e : α} (h : Recent (es.map key) usedAt now)
    (hfind : es.reverse.find? P = some e) :
    e ∈ es ∧ P e = true ∧ ∀ e' ∈ es, P e' = true → usedAt (key e) ≤ usedAt (key e') := by
  obtain ⟨hP, later, earlier, hsplit, hlater⟩ := List.find?_eq_some_iff_append.mp hfind
  have hes : es = earlier.reverse ++ e :: later.reverse := by
    rw [← List.reverse_reverse es, hsplit]
    simp
  refine ⟨by rw [hes]; simp, hP, fun e' he' hP' => ?_⟩
  rw [hes, List.mem_append, List.mem_cons] at he'
  rcases he' with he' | rfl | he'
  · have hpair := h.order
    rw [hes, List.map_append, List.pairwise_append] at hpair
    exact Nat.le_of_lt (hpair.2.2 _ (List.mem_map_of_mem he') _ (by simp))
  · exact Nat.le_refl _
  · have hnot := hlater e' (List.mem_reverse.mp he')
    rw [hP'] at hnot
    cases hnot

end Recent
