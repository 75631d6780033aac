import Idmbs.Storage.ConditionFilter
import Mathlib.Data.List.TakeWhile

/-!
# Idmbs.Resolve.TupleOrder

`TupleUnit::Compare` on strings against the lexicographic order of their contents. Behind the length of
the shorter unit `CompareString` answers with the next character of the longer one, whichever side that
is: `Decides` says when this has the right sign.
-/

namespace Idmbs

open CString

def RowTuple.getUnitAt (fields : List FieldMeta) (record : Pointer) (index : Int) : Except Re TupleUnit :=
  if index < 0 ∨ index ≥ fields.length then .error .invalidArgument
  else
    match fields[index.toNat]? with
    | none => .error .invalidArgument
    | some f => .ok ⟨f.attrType, f.len, Pointer.add record f.offset⟩

namespace TupleUnit

/-- The strings that are compared: a field whose content is padded, or a literal. -/
inductive Built : TupleUnit → Prop where
  | field {fields : List FieldMeta} {record : Pointer} {index : Int} {u : TupleUnit}
      (unit : RowTuple.getUnitAt fields record index = .ok u) (type : u.attrType = .chars)
      (padded : PaddedTo u.data u.length.toNat) : Built u
  | literal (s : List UInt8) : Built (Expression.getValue [] (fun _ => 0) (.ofValue (.chars s)))

/-- What the unit says, up to its length or its first NUL. -/
def content (a : TupleUnit) : List Nat := text a.data a.length.toNat

/-- `r` has the sign that the order of `s` and `t` asks for. -/
structure Ordered (r : Int) (s t : List Nat) : Prop where
  neg : r < 0 ↔ s < t
  zero : r = 0 ↔ s = t
  pos : 0 < r ↔ t < s

def Compares (a b : TupleUnit) : Prop := ∃ r, a.compare b = some r ∧ Ordered r a.content b.content

def Opposite (a b : TupleUnit) : Prop :=
  ∃ r s, a.compare b = some r ∧ b.compare a = some s ∧ (r < 0 ↔ 0 < s) ∧ (0 < r ↔ s < 0)

def Transitive (a b c : TupleUnit) : Prop :=
  ∀ r s, a.compare b = some r → b.compare c = some s → r ≤ 0 → s ≤ 0 → ∃ t, a.compare c = some t ∧ t ≤ 0

/-- The units differ within the shorter length, or have one length, or the next byte of the longer one
is an ASCII character of the first, or NUL or a high byte of the second. -/
def Decides (a b : TupleUnit) : Prop :=
  let n := a.length.toNat
  let k := b.length.toNat
  text a.data (min n k) ≠ text b.data (min n k) ∨ n = k ∨
    (k < n ∧ a.data k < 128) ∨ (n < k ∧ (b.data n = 0 ∨ 128 ≤ b.data n))

end TupleUnit

/-! ## The comparison -/

namespace TupleUnit

section Compare

variable {a b c : TupleUnit} {r : Int} {s t : List Nat}

/-- The characters in front of the NUL of a literal. -/
theorem getD_takeWhile {s : List UInt8} {i : Nat} (hi : i < (s.takeWhile (· ≠ 0)).length) :
    s.getD i 0 = (s.takeWhile (· ≠ 0))[i] := by
  have hpre : s.takeWhile (· ≠ 0) <+: s := List.takeWhile_prefix _
  have hlt : i < s.length := Nat.lt_of_lt_of_le hi hpre.length_le
  rw [List.getD_eq_getElem _ _ hlt, hpre.getElem hi]

theorem getD_takeWhile_ne {s : List UInt8} {i : Nat} (hi : i < (s.takeWhile (· ≠ 0)).length) :
    s.getD i 0 ≠ 0 := by
  have hne := List.mem_takeWhile_imp (List.getElem_mem hi)
  rw [getD_takeWhile hi]
  simpa using hne

theorem getD_takeWhile_end (s : List UInt8) : s.getD (s.takeWhile (· ≠ 0)).length 0 = 0 := by
  induction s with
  | nil => rfl
  | cons x s ih =>
    by_cases hx : x = 0
    · simp [hx]
    · rw [List.takeWhile_cons_of_pos (by simpa using hx), List.length_cons, List.getD_cons_succ]
      exact ih

theorem padded_takeWhile (s : List UInt8) :
    PaddedTo (fun i => s.getD i 0) (s.takeWhile (· ≠ 0)).length :=
  ⟨_, le_rfl, fun _ hi => getD_takeWhile_ne hi, fun i hi hi' => absurd hi' (by omega)⟩

theorem Built.chars (h : Built a) : a.attrType = .chars := by
  cases h with
  | field unit type padded => exact type
  | literal s => rfl

theorem Built.padded (h : Built a) : PaddedTo a.data a.length.toNat := by
  cases h with
  | field unit type padded => exact padded
  | literal s => exact padded_takeWhile s

theorem compare_chars (ha : Built a) (hb : Built b) :
    a.compare b = some (compareString a.data a.length.toNat b.data b.length.toNat) := by
  unfold compare
  rw [if_pos (ha.chars.trans hb.chars.symm), ha.chars]

theorem Ordered.of_neg (hr : r < 0) (h : s < t) : Ordered r s t :=
  ⟨iff_of_true hr h, iff_of_false (by omega) (ne_of_lt h), iff_of_false (by omega) (lt_asymm h)⟩

theorem Ordered.of_zero (hr : r = 0) (h : s = t) : Ordered r s t :=
  ⟨iff_of_false (by omega) (by rw [h]; exact lt_irrefl _), iff_of_true hr h,
    iff_of_false (by omega) (by rw [h]; exact lt_irrefl _)⟩

theorem Ordered.of_pos (hr : 0 < r) (h : t < s) : Ordered r s t :=
  ⟨iff_of_false (by omega) (lt_asymm h), iff_of_false (by omega) (ne_of_gt h), iff_of_true hr h⟩

theorem toInt8_of_lt {x : UInt8} (h : x < 128) : x.toInt8.toInt = x.toNat := by
  have h : x.toNat < 128 := UInt8.lt_iff_toNat_lt.mp h
  have hnat : x.toBitVec.toNat = x.toNat := rfl
  change x.toBitVec.toInt = x.toNat
  rw [BitVec.toInt_eq_toNat_cond, hnat, if_pos (by omega)]

theorem toInt8_neg {x : UInt8} (h : ¬x < 128) : x.toInt8.toInt < 0 := by
  have h : ¬x.toNat < 128 := fun hlt => h (UInt8.lt_iff_toNat_lt.mpr hlt)
  have hx := x.toNat_lt
  have hnat : x.toBitVec.toNat = x.toNat := rfl
  change x.toBitVec.toInt < 0
  rw [BitVec.toInt_eq_toNat_cond, hnat, if_neg (by omega)]
  omega

/-- Units that differ early are ordered as they should be. -/
theorem ordered_of_text_ne
    (h : text a.data (min a.length.toNat b.length.toNat) ≠ text b.data (min a.length.toNat b.length.toNat)) :
    Ordered (compareString a.data a.length.toNat b.data b.length.toNat) a.content b.content := by
  have hn : min a.length.toNat b.length.toNat ≤ a.length.toNat := Nat.min_le_left _ _
  have hk : min a.length.toNat b.length.toNat ≤ b.length.toNat := Nat.min_le_right _ _
  rw [compareString_of_text_ne h]
  rcases strncmp_spec a.data b.data (min a.length.toNat b.length.toNat) with ⟨hr, hlt⟩ | ⟨hr, heq⟩ | ⟨hr, hlt⟩
  · exact .of_neg hr (text_lt_of_le hlt hn hk)
  · exact absurd heq h
  · exact .of_pos hr (text_lt_of_le hlt hk hn)

/-- The first unit is longer: a high byte has the wrong sign. -/
theorem ordered_longer_iff (ha : PaddedTo a.data a.length.toNat)
    (hlen : b.length.toNat < a.length.toNat) (h : text a.data b.length.toNat = b.content) :
    Ordered (a.nextByte b) a.content b.content ↔ a.data b.length.toNat < 128 := by
  unfold nextByte
  rw [if_pos hlen]
  by_cases h0 : a.data b.length.toNat = 0
  · have heq : a.content = b.content := (ha.text_eq hlen h0).trans h
    rw [h0]
    exact iff_of_true (.of_zero rfl heq) (by decide)
  · have hlt : b.content < a.content := by
      rw [← h]
      exact ha.text_lt hlen h0
    by_cases hx : a.data b.length.toNat < 128
    · have hpos : 0 < (a.data b.length.toNat).toNat :=
        Nat.pos_of_ne_zero fun hz => h0 (UInt8.toNat_inj.mp hz)
      exact iff_of_true (.of_pos (by rw [toInt8_of_lt hx]; omega) hlt) hx
    · refine iff_of_false (fun ho => ?_) hx
      have hneg := toInt8_neg hx
      exact lt_asymm hlt (ho.neg.mp hneg)

/-- The second unit is longer: an ASCII character has the wrong sign. -/
theorem ordered_shorter_iff (hb : PaddedTo b.data b.length.toNat)
    (hlen : a.length.toNat < b.length.toNat) (h : text b.data a.length.toNat = a.content) :
    Ordered (a.nextByte b) a.content b.content ↔
      b.data a.length.toNat = 0 ∨ 128 ≤ b.data a.length.toNat := by
  unfold nextByte
  rw [if_neg (by omega), if_pos hlen]
  by_cases h0 : b.data a.length.toNat = 0
  · have heq : b.content = a.content := (hb.text_eq hlen h0).trans h
    rw [h0]
    exact iff_of_true (.of_zero rfl heq.symm) (Or.inl rfl)
  · have hlt : a.content < b.content := by
      rw [← h]
      exact hb.text_lt hlen h0
    by_cases hx : b.data a.length.toNat < 128
    · have hpos : 0 < (b.data a.length.toNat).toNat :=
        Nat.pos_of_ne_zero fun hz => h0 (UInt8.toNat_inj.mp hz)
      refine iff_of_false (fun ho => ?_) ?_
      · rw [toInt8_of_lt hx] at ho
        exact lt_asymm hlt (ho.pos.mp (by omega))
      · rintro (hz | hge)
        · exact h0 hz
        · exact absurd hx (UInt8.not_lt.mpr hge)
    · exact iff_of_true (.of_neg (toInt8_neg hx) hlt) (Or.inr (UInt8.not_lt.mp hx))

theorem compares_iff (ha : Built a) (hb : Built b) : a.Compares b ↔ a.Decides b := by
  have hcmp : a.Compares b ↔
      Ordered (compareString a.data a.length.toNat b.data b.length.toNat) a.content b.content := by
    unfold Compares
    rw [compare_chars ha hb]
    simp
  rw [hcmp]
  by_cases h : text a.data (min a.length.toNat b.length.toNat) =
      text b.data (min a.length.toNat b.length.toNat)
  · rw [compareString_of_text_eq h]
    rcases Nat.lt_trichotomy a.length.toNat b.length.toNat with hlt | heq | hgt
    · rw [Nat.min_eq_left (Nat.le_of_lt hlt)] at h
      rw [ordered_shorter_iff hb.padded hlt h.symm]
      unfold Decides
      simp only [Nat.min_eq_left (Nat.le_of_lt hlt), h, ne_eq, not_true, false_or, hlt, true_and,
        Nat.ne_of_lt hlt, Nat.lt_asymm hlt, false_and]
    · have hcontent : a.content = b.content := by
        rw [heq, Nat.min_self] at h
        rw [content, content, heq]
        exact h
      refine iff_of_true (.of_zero ?_ hcontent) (Or.inr (Or.inl heq))
      unfold nextByte
      rw [if_neg (by omega), if_neg (by omega)]
    · rw [Nat.min_eq_right (Nat.le_of_lt hgt)] at h
      rw [ordered_longer_iff ha.padded hgt h]
      unfold Decides
      simp only [Nat.min_eq_right (Nat.le_of_lt hgt), h, ne_eq, not_true, false_or, hgt, true_and,
        Nat.ne_of_gt hgt, Nat.lt_asymm hgt, false_and, or_false]
  · exact iff_of_true (ordered_of_text_ne h) (Or.inl h)

theorem Compares.opposite (h : a.Compares b) (h' : b.Compares a) : a.Opposite b := by
  obtain ⟨r, hr, ho⟩ := h
  obtain ⟨s, hs, ho'⟩ := h'
  exact ⟨r, s, hr, hs, ho.neg.trans ho'.pos.symm, ho.pos.trans ho'.neg.symm⟩

theorem Compares.transitive (hab : a.Compares b) (hbc : b.Compares c) (hac : a.Compares c) :
    a.Transitive b c := by
  intro r s hr hs hr0 hs0
  obtain ⟨r', hr', hab⟩ := hab
  obtain ⟨s', hs', hbc⟩ := hbc
  obtain ⟨t, ht, hac⟩ := hac
  cases hr.symm.trans hr'
  cases hs.symm.trans hs'
  have h1 : a.content ≤ b.content := not_lt.mp fun h => absurd (hab.pos.mpr h) (by omega)
  have h2 : b.content ≤ c.content := not_lt.mp fun h => absurd (hbc.pos.mpr h) (by omega)
  refine ⟨t, ht, ?_⟩
  by_contra hpos
  exact absurd (hac.pos.mp (by omega)) (not_lt.mpr (le_trans h1 h2))

/-- Two strings are compared as their contents are ordered exactly if `Decides` holds of them. -/
theorem compare_order (ha : Built a) (hb : Built b) (hc : Built c) :
    (a.Compares b ↔ a.Decides b) ∧
    (a.Decides b → b.Decides a → a.Opposite b) ∧
    (a.Decides b → b.Decides c → a.Decides c → a.Transitive b c) := by
  refine ⟨compares_iff ha hb, ?_, ?_⟩
  · intro hab hba
    exact Compares.opposite ((compares_iff ha hb).mpr hab) ((compares_iff hb ha).mpr hba)
  · intro hab hbc hac
    exact Compares.transitive ((compares_iff ha hb).mpr hab) ((compares_iff hb hc).mpr hbc)
      ((compares_iff ha hc).mpr hac)

end Compare

def shortLiteral : TupleUnit := Expression.getValue [] (fun _ => 0) (.ofValue (.chars [97, 98]))

def longField : TupleUnit := ⟨.chars, 4, Pointer.add (fun i => [97, 98, 99].getD i 0) 0⟩

theorem built_shortLiteral : Built shortLiteral := .literal [97, 98]

theorem built_longField : Built longField := by
  have hunit : RowTuple.getUnitAt [⟨"c", .chars, 0, 4, true⟩] (fun i => [97, 98, 99].getD i 0) 0 =
      .ok longField := rfl
  refine .field hunit rfl ⟨3, by decide, by decide, fun i hi hi' => ?_⟩
  obtain rfl : i = 3 := by
    have hlt : i < 4 := hi'
    omega
  rfl

theorem compare_order_short :
    (shortLiteral.Compares longField ↔ shortLiteral.Decides longField) ∧
    (shortLiteral.Decides longField → longField.Decides shortLiteral → shortLiteral.Opposite longField) ∧
    (shortLiteral.Decides longField → longField.Decides longField → shortLiteral.Decides longField →
      shortLiteral.Transitive longField longField) :=
  compare_order built_shortLiteral built_longField built_longField

/-- `'ab'` comes out behind `'abc'`, and `'abc'` behind `'ab'`. -/
theorem compare_disorder : Built shortLiteral ∧ Built longField ∧
    shortLiteral.content < longField.content ∧
    shortLiteral.compare longField = some 99 ∧ longField.compare shortLiteral = some 99 :=
  ⟨built_shortLiteral, built_longField, by decide, by decide, by decide⟩

end TupleUnit
end Idmbs
