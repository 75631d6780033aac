import Mathlib.Data.List.Basic
import Mathlib.Data.List.Nodup
import Mathlib.Tactic.Common

/-!
# Idmbs.Lib.Chunks

A list kept in labelled chunks. `At cs p X es Y` says that the chunk `p` has the items `es`, with the
chunks `X` before it and `Y` behind it.
-/

namespace Chunks

variable {π ι : Type} {cs X Y : List (π × List ι)} {p q : π} {es : List ι}

def items (cs : List (π × List ι)) : List ι := cs.flatMap Prod.snd

@[simp] theorem items_nil : items ([] : List (π × List ι)) = [] := rfl

@[simp] theorem items_cons (c : π × List ι) (cs : List (π × List ι)) :
    items (c :: cs) = c.2 ++ items cs := rfl

@[simp] theorem items_append (xs ys : List (π × List ι)) : items (xs ++ ys) = items xs ++ items ys :=
  List.flatMap_append

structure At (cs : List (π × List ι)) (p : π) (X : List (π × List ι)) (es : List ι)
    (Y : List (π × List ι)) : Prop where
  eq : cs = X ++ (p, es) :: Y

theorem At.mem (h : At cs p X es Y) : (p, es) ∈ cs := by
  rw [h.eq]; simp

theorem At.mem_left (h : At cs p X es Y) {c : π × List ι} (hc : c ∈ X) : c ∈ cs := by
  rw [h.eq]; simp [hc]

theorem At.items_eq (h : At cs p X es Y) : items cs = items X ++ es ++ items Y := by
  rw [h.eq]; simp

theorem At.order {X' Y' : List (π × List ι)} {es' : List ι} (h : At cs p X es Y)
    (h' : At cs q X' es' Y') :
    (∃ Z, X' = X ++ (p, es) :: Z) ∨ (∃ Z, X = X' ++ (q, es') :: Z) ∨
      (p = q ∧ X = X' ∧ es = es' ∧ Y = Y') := by
  obtain ⟨rfl⟩ := h
  obtain ⟨he⟩ := h'
  rcases List.append_eq_append_iff.mp he with ⟨zs, rfl, hz⟩ | ⟨zs, rfl, hz⟩
  · cases zs with
    | nil => simp at hz; simp [hz]
    | cons z zs => obtain ⟨rfl, rfl⟩ := List.cons.inj hz; exact .inl ⟨zs, rfl⟩
  · cases zs with
    | nil => simp at hz; simp [hz]
    | cons z zs => obtain ⟨rfl, rfl⟩ := List.cons.inj hz; exact .inr (.inl ⟨zs, rfl⟩)

/-- With distinct labels a chunk stands in one place only. -/
theorem At.unique {X' Y' : List (π × List ι)} {es' : List ι} (hnd : (cs.map Prod.fst).Nodup)
    (h : At cs p X es Y) (h' : At cs p X' es' Y') : X = X' ∧ es = es' ∧ Y = Y' := by
  have twice : ∀ {X Z Y : List (π × List ι)} {es es' : List ι},
      At cs p (X ++ (p, es) :: Z) es' Y → False := by
    rintro X Z Y es es' ⟨rfl⟩
    rw [List.map_append, List.nodup_append] at hnd
    exact hnd.2.2 p (by simp) p (by simp) rfl
  rcases h.order h' with ⟨Z, rfl⟩ | ⟨Z, rfl⟩ | ⟨-, h1, h2, h3⟩
  · exact (twice h').elim
  · exact (twice h).elim
  · exact ⟨h1, h2, h3⟩

end Chunks
