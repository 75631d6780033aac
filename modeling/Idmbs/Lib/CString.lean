import Idmbs.Lib.Bytes
import Mathlib.Data.List.Lex
import Mathlib.Tactic.Common

/-!
# Idmbs.Lib.CString

`strncmp` on strings given by the bytes from a pointer on, and the text it compares: the bytes before
the first NUL, at most `n` of them. `strncmp` is the lexicographic comparison of the texts. `strcmp` is
`strncmp` with no bound but that of the address space. `strcpy` copies a text with its NUL.
-/

namespace CString

/-- The bytes from a pointer on. -/
abbrev Pointer := Nat → UInt8

def Pointer.next (a : Pointer) : Pointer := fun i => a (i + 1)

/-- The difference of the first two bytes that differ, as unsigned characters. -/
def strncmp : Pointer → Pointer → Nat → Int
  | _, _, 0 => 0
  | a, b, n + 1 =>
    if a 0 ≠ b 0 then (a 0).toNat - (b 0).toNat
    else if a 0 = 0 then 0
    else strncmp a.next b.next n

/-- The text at `a`, read up to its NUL or to `n` characters. -/
def text : Pointer → Nat → List Nat
  | _, 0 => []
  | a, n + 1 => if a 0 = 0 then [] else (a 0).toNat :: text a.next n

variable {a b c : Pointer} {n k j : Nat}

theorem text_nul (h : a 0 = 0) : text a (n + 1) = [] := if_pos h

theorem text_char (h : a 0 ≠ 0) : text a (n + 1) = (a 0).toNat :: text a.next n := if_neg h

theorem toNat_ne {x y : UInt8} (h : x ≠ y) : x.toNat ≠ y.toNat := fun he => h (UInt8.toNat_inj.mp he)

theorem strncmp_differ (h : a 0 ≠ b 0) : strncmp a b (n + 1) = (a 0).toNat - (b 0).toNat := if_pos h

theorem strncmp_end (h : a 0 = b 0) (h0 : a 0 = 0) : strncmp a b (n + 1) = 0 := by
  rw [strncmp, if_neg (not_not.mpr h), if_pos h0]

theorem strncmp_step (h : a 0 = b 0) (h0 : a 0 ≠ 0) :
    strncmp a b (n + 1) = strncmp a.next b.next n := by
  rw [strncmp, if_neg (not_not.mpr h), if_neg h0]

theorem text_lt_of_differ (h : (a 0).toNat < (b 0).toNat) : text a (n + 1) < text b (n + 1) := by
  have hb : b 0 ≠ 0 := fun h0 => by
    rw [h0] at h
    exact Nat.not_lt_zero _ h
  rw [text_char hb]
  by_cases ha : a 0 = 0
  · rw [text_nul ha]
    exact List.nil_lt_cons _ _
  · rw [text_char ha]
    exact List.cons_lt_cons_iff.mpr (.inl h)

theorem strncmp_spec (a b : Pointer) (n : Nat) :
    (strncmp a b n < 0 ∧ text a n < text b n) ∨ (strncmp a b n = 0 ∧ text a n = text b n) ∨
    (0 < strncmp a b n ∧ text b n < text a n) := by
  induction n generalizing a b with
  | zero => exact .inr (.inl ⟨rfl, rfl⟩)
  | succ n ih =>
    by_cases h : a 0 = b 0
    · by_cases h0 : a 0 = 0
      · rw [strncmp_end h h0, text_nul h0, text_nul (h ▸ h0)]
        exact .inr (.inl ⟨rfl, rfl⟩)
      · rw [strncmp_step h h0, text_char h0, text_char (h ▸ h0), h]
        rcases ih a.next b.next with ⟨h1, h2⟩ | ⟨h1, h2⟩ | ⟨h1, h2⟩
        · exact .inl ⟨h1, List.cons_lt_cons_iff.mpr (.inr ⟨rfl, h2⟩)⟩
        · exact .inr (.inl ⟨h1, congrArg _ h2⟩)
        · exact .inr (.inr ⟨h1, List.cons_lt_cons_iff.mpr (.inr ⟨rfl, h2⟩)⟩)
    · rw [strncmp_differ h]
      rcases Nat.lt_or_gt_of_ne (toNat_ne h) with hlt | hlt
      · exact .inl ⟨by omega, text_lt_of_differ hlt⟩
      · exact .inr (.inr ⟨by omega, text_lt_of_differ hlt⟩)

theorem strncmp_neg_iff : strncmp a b n < 0 ↔ text a n < text b n := by
  rcases strncmp_spec a b n with ⟨h1, h2⟩ | ⟨h1, h2⟩ | ⟨h1, h2⟩
  · exact iff_of_true h1 h2
  · exact iff_of_false (by omega) (by rw [h2]; exact lt_irrefl _)
  · exact iff_of_false (by omega) (lt_asymm h2)

theorem strncmp_eq_zero_iff : strncmp a b n = 0 ↔ text a n = text b n := by
  rcases strncmp_spec a b n with ⟨h1, h2⟩ | ⟨h1, h2⟩ | ⟨h1, h2⟩
  · exact iff_of_false (by omega) (ne_of_lt h2)
  · exact iff_of_true h1 h2
  · exact iff_of_false (by omega) (ne_of_gt h2)

theorem strncmp_pos_iff : 0 < strncmp a b n ↔ text b n < text a n := by
  rcases strncmp_spec a b n with ⟨h1, h2⟩ | ⟨h1, h2⟩ | ⟨h1, h2⟩
  · exact iff_of_false (by omega) (lt_asymm h2)
  · exact iff_of_false (by omega) (by rw [h2]; exact lt_irrefl _)
  · exact iff_of_true h1 h2

/-- A difference among the first characters decides for every longer comparison. -/
theorem strncmp_of_le {k : Nat} (hle : n ≤ k) (h : strncmp a b n ≠ 0) :
    strncmp a b k = strncmp a b n := by
  induction n generalizing a b k with
  | zero => exact absurd rfl h
  | succ n ih =>
    obtain ⟨k, rfl⟩ := Nat.exists_eq_succ_of_ne_zero (Nat.ne_zero_of_lt hle)
    by_cases hab : a 0 = b 0
    · by_cases h0 : a 0 = 0
      · exact absurd (strncmp_end hab h0) h
      · rw [strncmp_step hab h0] at h ⊢
        rw [strncmp_step hab h0]
        exact ih (Nat.le_of_succ_le_succ hle) h
    · rw [strncmp_differ hab, strncmp_differ hab]

theorem text_congr (h : ∀ i < n, a i = b i) : text a n = text b n := by
  induction n generalizing a b with
  | zero => rfl
  | succ n ih =>
    rw [text, text, h 0 n.succ_pos, ih (a := a.next) (b := b.next) fun i hi => h (i + 1) (Nat.succ_lt_succ hi)]

theorem length_text_le (a : Pointer) (n : Nat) : (text a n).length ≤ n := by
  induction n generalizing a with
  | zero => exact le_rfl
  | succ n ih =>
    rw [text]
    split
    · exact Nat.zero_le _
    · exact Nat.succ_le_succ (ih a.next)

/-- A text goes on behind characters that are not NUL. -/
theorem text_add (h : ∀ i < n, a i ≠ 0) : text a (n + k) = text a n ++ text (fun i => a (n + i)) k := by
  induction n generalizing a with
  | zero => simp [text]
  | succ n ih =>
    rw [Nat.add_right_comm, text_char (h 0 n.succ_pos), text_char (h 0 n.succ_pos), List.cons_append,
      ih (a := a.next) fun i hi => h (i + 1) (Nat.succ_lt_succ hi)]
    congr 3
    funext i
    exact congrArg a (Nat.add_right_comm n i 1)

theorem length_text_of_chars (h : ∀ i < n, a i ≠ 0) : (text a n).length = n := by
  induction n generalizing a with
  | zero => rfl
  | succ n ih =>
    rw [text_char (h 0 n.succ_pos), List.length_cons, ih (a := a.next) fun i hi => h (i + 1) (Nat.succ_lt_succ hi)]

theorem text_stop (hle : j ≤ n) (h : ∀ i < j, a i ≠ 0) (h0 : j < n → a j = 0) : text a n = text a j := by
  obtain ⟨k, rfl⟩ := Nat.exists_eq_add_of_le hle
  rw [text_add h]
  cases k with
  | zero => exact List.append_nil _
  | succ k => rw [text_nul (h0 (Nat.lt_add_of_pos_right k.succ_pos)), List.append_nil]

theorem text_snoc (h : ∀ i < n, a i ≠ 0) (hn : a n ≠ 0) : text a (n + 1) = text a n ++ [(a n).toNat] := by
  rw [text_add h, text_char hn]
  rfl

/-! ## Texts no longer than another -/

variable {x v : List Nat} {c d : Nat} {r : List Nat}

/-- Against a longer text, a text of at most `v.length` characters is decided by `v`. -/
theorem lt_append_iff (hx : x.length ≤ v.length) (hr : r ≠ []) : x < v ++ r ↔ x ≤ v := by
  induction v generalizing x with
  | nil =>
    cases List.length_eq_zero_iff.mp (Nat.le_zero.mp hx)
    cases r with
    | nil => exact absurd rfl hr
    | cons d r => exact iff_of_true (List.nil_lt_cons _ _) le_rfl
  | cons c v ih =>
    cases x with
    | nil => exact iff_of_true (List.nil_lt_cons _ _) (List.nil_lt_cons _ _).le
    | cons y x =>
      rw [List.cons_append, List.cons_lt_cons_iff, le_iff_lt_or_eq, List.cons_lt_cons_iff,
        ih (Nat.le_of_succ_le_succ hx), le_iff_lt_or_eq, List.cons.injEq, and_or_left, or_assoc]

theorem ne_append (hx : x.length ≤ v.length) (hr : r ≠ []) : x ≠ v ++ r := by
  rintro rfl
  rw [List.length_append] at hx
  exact hr (List.length_eq_zero_iff.mp (by omega))

/-- One more in the last character is the next text of that length. -/
theorem snoc_succ_le_iff (hx : x.length ≤ v.length + 1) : v ++ [c + 1] ≤ x ↔ v ++ [c] < x := by
  induction v generalizing x with
  | nil =>
    rw [List.nil_append, List.nil_append]
    cases x with
    | nil => exact iff_of_false (not_le.mpr (List.nil_lt_cons _ _)) (not_lt.mpr (List.nil_lt_cons _ _).le)
    | cons y x =>
      cases List.length_eq_zero_iff.mp (Nat.le_zero.mp (Nat.le_of_succ_le_succ hx))
      rw [le_iff_lt_or_eq, List.cons_lt_cons_iff, List.cons_lt_cons_iff, List.cons.injEq]
      simp only [lt_irrefl, and_false, or_false, and_true]
      omega
  | cons d v ih =>
    cases x with
    | nil => exact iff_of_false (not_le.mpr (List.nil_lt_cons _ _)) (not_lt.mpr (List.nil_lt_cons _ _).le)
    | cons y x =>
      rw [List.cons_append, List.cons_append, le_iff_lt_or_eq, List.cons_lt_cons_iff, List.cons_lt_cons_iff,
        ← ih (Nat.le_of_succ_le_succ hx), le_iff_lt_or_eq, List.cons.injEq, and_or_left, or_assoc]

/-! ## Texts of different length -/

variable {m : Nat}

theorem ne_zero_of_text_lt (h : text a (n + 1) < text b (n + 1)) : b 0 ≠ 0 := by
  intro h0
  rw [text_nul h0] at h
  exact absurd h (List.not_lt_nil _)

/-- Texts that differ early keep their order when more is read of them. -/
theorem text_lt_of_le (h : text a m < text b m) (hn : m ≤ n) (hk : m ≤ k) : text a n < text b k := by
  induction m generalizing a b n k with
  | zero => exact absurd h (List.not_lt_nil _)
  | succ m ih =>
    obtain ⟨n, rfl⟩ := Nat.exists_eq_succ_of_ne_zero (Nat.ne_zero_of_lt hn)
    obtain ⟨k, rfl⟩ := Nat.exists_eq_succ_of_ne_zero (Nat.ne_zero_of_lt hk)
    have hb : b 0 ≠ 0 := ne_zero_of_text_lt h
    by_cases ha : a 0 = 0
    · rw [text_nul ha, text_char hb]
      exact List.nil_lt_cons _ _
    · rw [text_char ha, text_char hb, List.cons_lt_cons_iff] at h ⊢
      cases h with
      | inl hlt => exact Or.inl hlt
      | inr heq => exact Or.inr ⟨heq.1, ih heq.2 (Nat.le_of_succ_le_succ hn) (Nat.le_of_succ_le_succ hk)⟩

/-- The `n` bytes at `a` are a text and NULs behind it. -/
def PaddedTo (a : Pointer) (n : Nat) : Prop :=
  ∃ j ≤ n, (∀ i < j, a i ≠ 0) ∧ ∀ i, j ≤ i → i < n → a i = 0

theorem PaddedTo.text_eq (h : PaddedTo a n) (hm : m < n) (h0 : a m = 0) : text a n = text a m := by
  obtain ⟨j, hj, hne, hz⟩ := h
  have hjm : j ≤ m := by
    by_contra hlt
    exact hne m (by omega) h0
  have htop : text a n = text a j := text_stop hj hne (hz j le_rfl)
  have hmid : text a m = text a j := text_stop hjm hne fun hlt => hz j le_rfl (by omega)
  rw [htop, hmid]

theorem PaddedTo.text_lt (h : PaddedTo a n) (hm : m < n) (h0 : a m ≠ 0) : text a m < text a n := by
  obtain ⟨j, hj, hne, hz⟩ := h
  have hmj : m < j := by
    by_contra hge
    exact h0 (hz m (by omega) hm)
  obtain ⟨d, rfl⟩ := Nat.exists_eq_add_of_lt hm
  rw [Nat.add_assoc, text_add fun i hi => hne i (by omega)]
  rw [lt_append_iff le_rfl]
  rw [text_char h0]
  exact List.cons_ne_nil _ _

/-! ## `strcmp` -/

/-- How many characters there can be from a pointer on. -/
def addressSpace : Nat := 2 ^ 64

def strcmp (a b : Pointer) : Int := strncmp a b addressSpace

def wholeText (a : Pointer) : List Nat := text a addressSpace

theorem strcmp_neg_iff : strcmp a b < 0 ↔ wholeText a < wholeText b := strncmp_neg_iff

theorem strcmp_eq_zero_iff : strcmp a b = 0 ↔ wholeText a = wholeText b := strncmp_eq_zero_iff

theorem strcmp_pos_iff : 0 < strcmp a b ↔ wholeText b < wholeText a := strncmp_pos_iff

/-- The texts differ among their first `n` characters: `strcmp` finds what `strncmp` finds. -/
theorem strcmp_of_text_ne (hle : n ≤ addressSpace) (h : text a n ≠ text b n) :
    strcmp a b = strncmp a b n :=
  strncmp_of_le hle fun h0 => h (strncmp_eq_zero_iff.mp h0)

/-! ## `strcpy` -/

section Copy

open Bytes

variable {dest src : Pointer} {s : List UInt8} {d : Nat}

/-- `strcpy` to address `d` of a memory: every byte before which there is no NUL. -/
def strcpy (dest : Pointer) (d : Nat) (src : Pointer) : Pointer := fun x =>
  if d ≤ x ∧ ∀ j < x - d, src j ≠ 0 then src (x - d) else dest x

/-- The C string at `a` is `s`. -/
structure IsText (a : Pointer) (s : List UInt8) : Prop where
  chars : ∀ i (h : i < s.length), a i = s[i]
  nul : a s.length = 0
  inner : (0 : UInt8) ∉ s

theorem IsText.ne_zero (h : IsText src s) {i : Nat} (hi : i < s.length) : src i ≠ 0 := by
  rw [h.chars i hi]
  exact fun h0 => h.inner (h0 ▸ List.getElem_mem hi)

theorem isText_getD (h : (0 : UInt8) ∉ s) : IsText (fun i => s.getD i 0) s :=
  ⟨fun i hi => by simp [hi], by simp, h⟩

theorem strcpy_eq (h : IsText src s) (dest : Pointer) (d : Nat) : strcpy dest d src = write dest d (s ++ [0]) := by
  funext x
  by_cases hd : d ≤ x
  · obtain ⟨i, rfl⟩ := Nat.exists_eq_add_of_le hd
    rw [strcpy, Nat.add_sub_cancel_left]
    rcases Nat.lt_trichotomy i s.length with hi | rfl | hi
    · rw [if_pos ⟨hd, fun j hj => h.ne_zero (hj.trans hi)⟩, write_at (by simp; omega),
        List.getElem_append_left hi, h.chars i hi]
    · rw [if_pos ⟨hd, fun j hj => h.ne_zero hj⟩, write_at (by simp), List.getElem_append_right (le_refl _), h.nul]
      simp
    · rw [if_neg fun hc => hc.2 s.length hi h.nul, write_of_ge (by simp; omega)]
  · rw [strcpy, if_neg fun hc => hd hc.1, write_of_lt (by omega)]

end Copy

end CString
