import Mathlib.Data.List.Basic
import Mathlib.Tactic.Common

/-!
# Idmbs.Lib.Phrases

Phrases written as tokens: a kind of phrase is readable if its tokens, in front of a rest that does not go
on with them, tell the phrase and the rest. Lists of readable phrases with a separator are readable, and so
are phrases one after the other.
-/

namespace Phrases

variable {α τ : Type}

/-- The tokens of a phrase tell it from the others, whatever follows that is no token of `goesOn`. -/
def Readable (tokens : α → List τ) (goesOn : τ → Prop) : Prop :=
  ∀ ⦃x y rest rest'⦄, (∀ t ∈ rest.head?, ¬goesOn t) → (∀ t ∈ rest'.head?, ¬goesOn t) →
    tokens x ++ rest = tokens y ++ rest' → x = y ∧ rest = rest'

/-- Phrases, each behind a separator. -/
def separated (sep : τ) (tokens : α → List τ) (xs : List α) : List τ := xs.flatMap fun x => sep :: tokens x

/-- Phrases with a separator between them. -/
def listed (sep : τ) (tokens : α → List τ) : List α → List τ
  | [] => []
  | x :: xs => tokens x ++ separated sep tokens xs

variable {tokens : α → List τ} {goesOn : τ → Prop} {sep : τ} {xs ys : List α}

@[simp] theorem separated_nil : separated sep tokens [] = [] := rfl

@[simp] theorem separated_cons {x : α} :
    separated sep tokens (x :: xs) = sep :: (tokens x ++ separated sep tokens xs) := rfl

/-- What follows a phrase in a list: the separator, or what follows the list. -/
theorem head_separated {rest : List τ} (hsep : ¬goesOn sep) (hrest : ∀ t ∈ rest.head?, ¬(t = sep ∨ goesOn t)) :
    ∀ t ∈ (separated sep tokens xs ++ rest).head?, ¬goesOn t := by
  intro t ht
  cases xs with
  | nil => exact fun hgo => hrest t ht (.inr hgo)
  | cons x xs =>
    obtain rfl : sep = t := by simpa using ht
    exact hsep

theorem Readable.separated (h : Readable tokens goesOn) (hsep : ¬goesOn sep) :
    Readable (Phrases.separated sep tokens) fun t => t = sep ∨ goesOn t := by
  intro xs
  induction xs with
  | nil =>
    intro ys rest rest' hrest _ heq
    cases ys with
    | nil => exact ⟨rfl, heq⟩
    | cons y ys =>
      have hhead : rest.head? = some sep := by
        rw [separated_nil, List.nil_append] at heq
        simp [heq]
      exact absurd (.inl rfl) (hrest sep hhead)
  | cons x xs ih =>
    intro ys rest rest' hrest hrest' heq
    cases ys with
    | nil =>
      have hhead : rest'.head? = some sep := by
        rw [separated_nil, List.nil_append] at heq
        simp [← heq]
      exact absurd (.inl rfl) (hrest' sep hhead)
    | cons y ys =>
      simp only [separated_cons, List.cons_append, List.append_assoc, List.cons.injEq, true_and] at heq
      obtain ⟨rfl, htail⟩ := h (head_separated hsep hrest) (head_separated hsep hrest') heq
      obtain ⟨rfl, hrests⟩ := ih hrest hrest' htail
      exact ⟨rfl, hrests⟩

/-- A list whose phrases begin with tokens of `begins`. -/
theorem Readable.listed (h : Readable tokens goesOn) (hsep : ¬goesOn sep) {begins : τ → Prop}
    (hbegins : ∀ x, ∃ t l, tokens x = t :: l ∧ begins t) :
    Readable (Phrases.listed sep tokens) fun t => begins t ∨ t = sep ∨ goesOn t := by
  intro xs ys rest rest' hrest hrest' heq
  have hstop : ∀ {x : α} {xs : List α} {r r' : List τ}, (∀ t ∈ r.head?, ¬(begins t ∨ t = sep ∨ goesOn t)) →
      r ≠ Phrases.listed sep tokens (x :: xs) ++ r' := by
    intro x xs r r' hr hrr
    obtain ⟨t, l, htokens, hbegin⟩ := hbegins x
    refine hr t ?_ (.inl hbegin)
    simp [hrr, Phrases.listed, htokens]
  cases xs with
  | nil =>
    cases ys with
    | nil => exact ⟨rfl, heq⟩
    | cons y ys => exact absurd heq (hstop hrest)
  | cons x xs =>
    cases ys with
    | nil => exact absurd heq.symm (hstop hrest')
    | cons y ys =>
      have hrest2 : ∀ t ∈ rest.head?, ¬(t = sep ∨ goesOn t) := fun t ht hgo => hrest t ht (.inr hgo)
      have hrest2' : ∀ t ∈ rest'.head?, ¬(t = sep ∨ goesOn t) := fun t ht hgo => hrest' t ht (.inr hgo)
      simp only [Phrases.listed, List.append_assoc] at heq
      obtain ⟨rfl, htail⟩ := h (head_separated hsep hrest2) (head_separated hsep hrest2') heq
      obtain ⟨rfl, hrests⟩ := h.separated hsep hrest2 hrest2' htail
      exact ⟨rfl, hrests⟩

/-- Phrases that nothing goes on are told from the tokens of all of them. -/
theorem Readable.flatMap_injective (h : Readable tokens fun _ => False) (hne : ∀ x, tokens x ≠ [])
    (heq : xs.flatMap tokens = ys.flatMap tokens) : xs = ys := by
  induction xs generalizing ys with
  | nil =>
    cases ys with
    | nil => rfl
    | cons y ys =>
      have hnil : tokens y = [] := by simp [List.flatMap_cons] at heq; exact heq.1
      exact absurd hnil (hne y)
  | cons x xs ih =>
    cases ys with
    | nil =>
      have hnil : tokens x = [] := by simp [List.flatMap_cons] at heq; exact heq.1
      exact absurd hnil (hne x)
    | cons y ys =>
      rw [List.flatMap_cons, List.flatMap_cons] at heq
      obtain ⟨rfl, htail⟩ := h (fun _ _ hfalse => hfalse) (fun _ _ hfalse => hfalse) heq
      rw [ih htail]

end Phrases
