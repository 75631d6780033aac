import Mathlib.Data.List.Basic
import Mathlib.Tactic.Common

/-!
# Idmbs.Lib.Chain

Doubly linked chains. `Linked prv nxt a xs b`: following `nxt` from the head of `xs` visits `xs` and
ends at `b`, and every `prv` link points back, the first one to `a`.
-/

namespace Chain

variable {π : Type} {prv nxt prv' nxt' : π → Option π} {a b : Option π} {xs ys : List π} {p q : π}

def Linked (prv nxt : π → Option π) : Option π → List π → Option π → Prop
  | _, [], _ => True
  | a, p :: ps, b => prv p = a ∧ nxt p = ps.head?.or b ∧ Linked prv nxt (some p) ps b

@[simp] theorem linked_nil : Linked prv nxt a [] b := trivial

@[simp] theorem linked_cons : Linked prv nxt a (p :: xs) b ↔
    prv p = a ∧ nxt p = xs.head?.or b ∧ Linked prv nxt (some p) xs b := Iff.rfl

theorem linked_append : Linked prv nxt a (xs ++ ys) b ↔
    Linked prv nxt a xs (ys.head?.or b) ∧ Linked prv nxt (xs.getLast?.or a) ys b := by
  induction xs generalizing a with
  | nil => simp
  | cons p xs ih =>
    simp only [List.cons_append, linked_cons, ih, List.getLast?_cons, Option.or_some, and_assoc]
    cases xs <;> simp

theorem Linked.congr (hl : Linked prv nxt a xs b)
    (heq : ∀ x ∈ xs, prv' x = prv x ∧ nxt' x = nxt x) : Linked prv' nxt' a xs b := by
  induction xs generalizing a with
  | nil => trivial
  | cons p xs ih =>
    obtain ⟨h1, h2, h3⟩ := hl
    obtain ⟨e1, e2⟩ := heq p (by simp)
    exact ⟨e1.trans h1, e2.trans h2, ih h3 fun x hx => heq x (by simp [hx])⟩

/-- A chain with the back link of its first element turned. -/
theorem Linked.retarget {c d : Option π} (hl : Linked prv nxt c ys b)
    (hhead : ∀ y ∈ ys.head?, prv' y = d ∧ nxt' y = nxt y)
    (htail : ∀ y ∈ ys.tail, prv' y = prv y ∧ nxt' y = nxt y) :
    Linked prv' nxt' d ys b := by
  cases ys with
  | nil => trivial
  | cons y ys =>
    obtain ⟨-, h2, h3⟩ := hl
    obtain ⟨e1, e2⟩ := hhead y rfl
    exact ⟨e1, e2.trans h2, h3.congr htail⟩

theorem Linked.insert (hl : Linked prv nxt a (xs ++ p :: ys) b)
    (hp : prv' p = prv p ∧ nxt' p = some q) (hq : prv' q = some p ∧ nxt' q = nxt p)
    (hhead : ∀ y ∈ ys.head?, prv' y = some q ∧ nxt' y = nxt y)
    (hxs : ∀ x ∈ xs, prv' x = prv x ∧ nxt' x = nxt x)
    (htail : ∀ y ∈ ys.tail, prv' y = prv y ∧ nxt' y = nxt y) :
    Linked prv' nxt' a (xs ++ p :: q :: ys) b := by
  obtain ⟨h1, h2, h3, h4⟩ := linked_append.mp hl
  exact linked_append.mpr ⟨by simpa using h1.congr hxs, hp.1.trans h2, by simpa using hp.2, hq.1,
    hq.2.trans h3, h4.retarget hhead htail⟩

theorem Linked.remove (hl : Linked prv nxt a (xs ++ p :: q :: ys) b)
    (hp : prv' p = prv p ∧ nxt' p = nxt q)
    (hhead : ∀ y ∈ ys.head?, prv' y = some p ∧ nxt' y = nxt y)
    (hxs : ∀ x ∈ xs, prv' x = prv x ∧ nxt' x = nxt x)
    (htail : ∀ y ∈ ys.tail, prv' y = prv y ∧ nxt' y = nxt y) :
    Linked prv' nxt' a (xs ++ p :: ys) b := by
  obtain ⟨h1, h2, -, -, h5, h6⟩ := linked_append.mp hl
  exact linked_append.mpr ⟨by simpa using h1.congr hxs, hp.1.trans h2, hp.2.trans h5,
    h6.retarget hhead htail⟩

theorem Linked.unlink (hl : Linked prv nxt a (xs ++ p :: ys) b)
    (hlast : ∀ x ∈ xs.getLast?, prv' x = prv x ∧ nxt' x = nxt p)
    (hhead : ∀ y ∈ ys.head?, prv' y = prv p ∧ nxt' y = nxt y)
    (hxs : ∀ x ∈ xs.dropLast, prv' x = prv x ∧ nxt' x = nxt x)
    (htail : ∀ y ∈ ys.tail, prv' y = prv y ∧ nxt' y = nxt y) : Linked prv' nxt' a (xs ++ ys) b := by
  rcases List.eq_nil_or_concat' xs with rfl | ⟨xs, q, rfl⟩
  · obtain ⟨h1, -, h3⟩ := hl
    exact h3.retarget (fun y hy => ⟨(hhead y hy).1.trans h1, (hhead y hy).2⟩) htail
  · rw [List.append_assoc, List.singleton_append] at hl ⊢
    have hback : prv p = some q := (linked_append.mp hl).2.2.2.1
    refine hl.remove (hlast q (by simp)) (fun y hy => ?_) (fun x hx => hxs x (by simpa using hx)) htail
    rw [← hback]
    exact hhead y hy

theorem Linked.push (hl : Linked prv nxt a ys b) (hp : prv' p = a ∧ nxt' p = ys.head?.or b)
    (hhead : ∀ y ∈ ys.head?, prv' y = some p ∧ nxt' y = nxt y)
    (htail : ∀ y ∈ ys.tail, prv' y = prv y ∧ nxt' y = nxt y) : Linked prv' nxt' a (p :: ys) b :=
  ⟨hp.1, hp.2, hl.retarget hhead htail⟩

theorem Linked.links (hl : Linked prv nxt a (xs ++ p :: ys) b) :
    prv p = xs.getLast?.or a ∧ nxt p = ys.head?.or b := by
  obtain ⟨-, h2, h3, -⟩ := linked_append.mp hl
  exact ⟨h2, h3⟩

/-- Up to `fuel` elements along the links; `none` when the chain goes on. -/
def along (link : π → Option π) : Nat → Option π → Option (List π)
  | _, none => some []
  | 0, some _ => none
  | fuel + 1, some p => (along link fuel (link p)).map (p :: ·)

theorem Linked.along_next {n : Nat} (hl : Linked prv nxt a xs none) (hn : xs.length ≤ n) :
    along nxt n xs.head? = some xs := by
  induction xs generalizing a n with
  | nil => cases n <;> rfl
  | cons p xs ih =>
    obtain ⟨n, rfl⟩ := Nat.exists_eq_succ_of_ne_zero (Nat.ne_of_gt (Nat.zero_lt_of_lt hn))
    obtain ⟨-, h2, h3⟩ := hl
    rw [List.head?_cons, along, h2, Option.or_none, ih h3 (Nat.le_of_succ_le_succ hn)]
    rfl

theorem Linked.along_prev {n : Nat} (hl : Linked prv nxt none xs b) (hn : xs.length ≤ n) :
    along prv n xs.getLast? = some xs.reverse := by
  induction n generalizing xs b with
  | zero =>
    rw [List.length_eq_zero_iff.mp (Nat.le_zero.mp hn)]
    rfl
  | succ n ih =>
    rcases List.eq_nil_or_concat' xs with rfl | ⟨xs, p, rfl⟩
    · rfl
    · rw [List.length_append, List.length_singleton] at hn
      obtain ⟨h1, h2, -⟩ := linked_append.mp hl
      rw [List.getLast?_concat]
      rw [along, h2, Option.or_none, ih h1 (by omega), List.reverse_append]
      rfl

end Chain
