import Mathlib.Data.List.Basic
import Mathlib.Tactic.Common

/-!
# Idmbs.Lib.LongestMatch

A scanner made of rules, as scanner generators make them: the next lexeme is the longest prefix of the
text that a rule matches, of the rules that match it the first one counts, and a character that starts no
lexeme is passed over by itself. A text cut into lexemes that end where the next ones begin is scanned
into these.
-/

namespace LongestMatch

variable {σ ρ : Type}

/-- The rules in their order, each with the words it matches. -/
abbrev Rules (σ ρ : Type) := List (ρ × (List σ → Bool))

/-- The first rule that matches the word. -/
def classify (rules : Rules σ ρ) (w : List σ) : Option ρ := (rules.find? fun r => r.2 w).map Prod.fst

/-- The longest prefix of at most `n` characters that a rule matches. -/
def munchUpTo (rules : Rules σ ρ) (text : List σ) : Nat → Option (ρ × List σ)
  | 0 => none
  | n + 1 =>
    match classify rules (text.take (n + 1)) with
    | some r => some (r, text.take (n + 1))
    | none => munchUpTo rules text n

def munch (rules : Rules σ ρ) (text : List σ) : Option (ρ × List σ) := munchUpTo rules text text.length

/-- The lexemes of the text, each with its rule; at most `n` of them. -/
def scanUpTo (rules : Rules σ ρ) : Nat → List σ → List (Option ρ × List σ)
  | 0, _ => []
  | _ + 1, [] => []
  | n + 1, c :: text =>
    match munch rules (c :: text) with
    | some (r, w) => (some r, w) :: scanUpTo rules n ((c :: text).drop w.length)
    | none => (none, [c]) :: scanUpTo rules n text

def scan (rules : Rules σ ρ) (text : List σ) : List (Option ρ × List σ) := scanUpTo rules text.length text

section Munch

variable {rules : Rules σ ρ} {text w : List σ} {r : ρ} {n : Nat}

theorem classify_mem (h : classify rules w = some r) : ∃ p : List σ → Bool, (r, p) ∈ rules ∧ p w = true := by
  obtain ⟨⟨r', p⟩, hfind, rfl⟩ := Option.map_eq_some_iff.mp h
  exact ⟨p, List.mem_of_find?_eq_some hfind, by simpa using List.find?_some hfind⟩

/-- What is munched is a prefix, not empty, that a rule matches. -/
theorem munchUpTo_spec (hn : n ≤ text.length) (h : munchUpTo rules text n = some (r, w)) :
    w ≠ [] ∧ w <+: text ∧ classify rules w = some r := by
  induction n with
  | zero => cases h
  | succ n ih =>
    rw [munchUpTo] at h
    split at h
    · rename_i r' hr
      cases h
      refine ⟨?_, List.take_prefix _ _, hr⟩
      apply List.ne_nil_of_length_pos
      rw [List.length_take]
      omega
    · exact ih (by omega) h

/-- The word that a rule matches is munched if no rule matches more of the text. -/
theorem munchUpTo_eq (hw : w ≠ []) (hpre : w <+: text) (hr : classify rules w = some r) (hn : w.length ≤ n)
    (hlonger : ∀ j, w.length < j → j ≤ n → classify rules (text.take j) = none) :
    munchUpTo rules text n = some (r, w) := by
  have htake : text.take w.length = w := (List.prefix_iff_eq_take.mp hpre).symm
  induction n with
  | zero => exact absurd (List.length_eq_zero_iff.mp (Nat.le_zero.mp hn)) hw
  | succ n ih =>
    rw [munchUpTo]
    by_cases heq : w.length = n + 1
    · rw [← heq, htake, hr]
    · rw [hlonger (n + 1) (by omega) (Nat.le_refl _)]
      exact ih (by omega) fun j hlt hle => hlonger j hlt (by omega)

end Munch

section Scan

variable {rules : Rules σ ρ} {text w : List σ} {r : ρ} {n : Nat}

/-- No rule matches a word that goes on after `w` with `c`. -/
def Ends (rules : Rules σ ρ) (w : List σ) (c : σ) : Prop := ∀ u, classify rules (w ++ c :: u) = none

theorem munch_append (hw : w ≠ []) (hr : classify rules w = some r) (hends : ∀ c ∈ text.head?, Ends rules w c) :
    munch rules (w ++ text) = some (r, w) := by
  refine munchUpTo_eq hw (List.prefix_append _ _) hr (by simp) fun j hlt hle => ?_
  cases text with
  | nil => simp at hle; omega
  | cons c text =>
    obtain ⟨k, rfl⟩ := Nat.exists_eq_add_of_lt hlt
    have htake : (w ++ c :: text).take (w.length + k + 1) = w ++ c :: text.take k := by
      rw [Nat.add_assoc, List.take_length_add_append, List.take_succ_cons]
    rw [htake]
    exact hends c rfl _

theorem length_rest_le {c : σ} {m : Nat} (h : munch rules (c :: text) = some (r, w)) (hm : (c :: text).length ≤ m + 1) :
    ((c :: text).drop w.length).length ≤ m := by
  have hpos := List.length_pos_of_ne_nil (munchUpTo_spec (Nat.le_refl _) h).1
  rw [List.length_drop]
  omega

theorem scanUpTo_congr {m : Nat} (hn : text.length ≤ n) (hm : text.length ≤ m) :
    scanUpTo rules n text = scanUpTo rules m text := by
  induction n generalizing m text with
  | zero =>
    rw [List.length_eq_zero_iff.mp (Nat.le_zero.mp hn)]
    cases m <;> rfl
  | succ n ih =>
    cases text with
    | nil => cases m <;> rfl
    | cons c text =>
      obtain ⟨m, rfl⟩ := Nat.exists_eq_succ_of_ne_zero (Nat.ne_of_gt (Nat.lt_of_lt_of_le (Nat.succ_pos _) hm))
      rw [scanUpTo, scanUpTo]
      cases hmunch : munch rules (c :: text) with
      | none =>
        simp only
        rw [ih (Nat.le_of_succ_le_succ hn) (Nat.le_of_succ_le_succ hm)]
      | some lexeme =>
        simp only
        rw [ih (length_rest_le hmunch hn) (length_rest_le hmunch hm)]

theorem scan_append (hw : w ≠ []) (hr : classify rules w = some r) (hends : ∀ c ∈ text.head?, Ends rules w c) :
    scan rules (w ++ text) = (some r, w) :: scan rules text := by
  have hmunch := munch_append hw hr hends
  obtain ⟨c, w, rfl⟩ := List.exists_cons_of_ne_nil hw
  rw [scan, List.cons_append, List.length_cons, scanUpTo, ← List.cons_append, hmunch]
  have hdrop : (c :: w ++ text).drop (c :: w).length = text := List.drop_left
  simp only [hdrop]
  rw [scanUpTo_congr (by simp) (Nat.le_refl _)]
  rfl

end Scan

end LongestMatch
