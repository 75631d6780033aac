import Idmbs.BPlusTree.Scanner
import Idmbs.Common.CommonDefs
import Idmbs.Lib.Bytes

/-!
# Idmbs.BPlusTree.FixUserKey

`BplusTreeScanner::FixUserKey` (storage/b_plus_tree.cpp): a bound of any length on a column of characters
becomes one of the column's length. A left bound that is cut has its last character counted up, which
is the next text of that length unless the character is `0xFF`.
-/

namespace Idmbs

open CString

/-- `FixUserKey` for an attribute of `attrLength` characters; `keyBuf` is the memory that `new` returns. -/
def fixUserKey (attrLength : Nat) (keyBuf userKey : Pointer) (keyLen : Nat) (wantGreater : Bool) :
    Pointer × Bool :=
  if keyLen ≤ attrLength then
    (Bytes.zero (Bytes.write keyBuf 0 (Bytes.read userKey 0 keyLen)) keyLen (attrLength - keyLen), false)
  else
    let keyBuf := Bytes.write keyBuf 0 (Bytes.read userKey 0 attrLength)
    if userKey attrLength = 0 then (keyBuf, false)
    else if wantGreater then
      (Function.update keyBuf (attrLength - 1) (keyBuf (attrLength - 1) + 1), true)
    else (keyBuf, true)

/-- A bound lets the stored key `k` through: from the bound on if `wantGreater`, else up to it. -/
def boundAccepts (attrLength : Nat) (wantGreater : Bool) (bound : Pointer × Bool) (k : Pointer) : Prop :=
  let result := compareString k attrLength bound.1 attrLength
  if wantGreater then if bound.2 then 0 ≤ result else 0 < result
  else if bound.2 then result ≤ 0 else result < 0

/-- What the scan is asked for: the texts on the wanted side of `u`. -/
def OnSide (wantGreater inclusive : Bool) (u x : List Nat) : Prop :=
  if wantGreater then if inclusive then u ≤ x else u < x
  else if inclusive then x ≤ u else x < u

section FixUserKey

variable {n len : Nat} {buf u k : Pointer} {greater incl : Bool}

theorem boundAccepts_iff {bound : Pointer × Bool} :
    boundAccepts n greater bound k ↔ OnSide greater bound.2 (text bound.1 n) (text k n) := by
  unfold boundAccepts OnSide
  simp only [compareString_self_length]
  cases greater with
  | true =>
    cases bound.2 with
    | true => exact not_lt.symm.trans ((not_congr strncmp_neg_iff).trans not_lt)
    | false => exact strncmp_pos_iff
  | false =>
    cases bound.2 with
    | true => exact not_lt.symm.trans ((not_congr strncmp_pos_iff).trans not_lt)
    | false => exact strncmp_neg_iff

theorem write_read {i : Nat} (h : i < n) : Bytes.write buf 0 (Bytes.read u 0 n) i = u i := by
  have hi : i < (Bytes.read u 0 n).length := by rwa [Bytes.length_read]
  have := Bytes.write_at (m := buf) (a := 0) hi
  rwa [Nat.zero_add, Bytes.getElem_read hi, Nat.zero_add] at this

theorem text_write_read : text (Bytes.write buf 0 (Bytes.read u 0 n)) n = text u n :=
  text_congr fun _ hi => write_read hi

/-- A key that fits is padded with NULs. -/
theorem text_fixUserKey_short (hu : ∀ i < len, u i ≠ 0) (h : len ≤ n) :
    text (fixUserKey n buf u len greater).1 n = text u len := by
  have hcopy : ∀ i < len, (fixUserKey n buf u len greater).1 i = u i := by
    intro i hi
    rw [fixUserKey, if_pos h]
    exact (Bytes.zero_of_lt hi).trans (write_read hi)
  rw [text_stop h (fun i hi => hcopy i hi ▸ hu i hi) fun hlt => ?_]
  · exact text_congr hcopy
  · rw [fixUserKey, if_pos h]
    exact Bytes.zero_at le_rfl (by omega)

theorem fixUserKey_long (hu : ∀ i < len, u i ≠ 0) (h : n < len) :
    fixUserKey n buf u len greater = if greater then
      (Function.update (Bytes.write buf 0 (Bytes.read u 0 n)) (n - 1)
        (Bytes.write buf 0 (Bytes.read u 0 n) (n - 1) + 1), true)
      else (Bytes.write buf 0 (Bytes.read u 0 n), true) := by
  rw [fixUserKey, if_neg (Nat.not_le.mpr h)]
  simp only [if_neg (hu n h)]

theorem text_count_up (hn : 1 ≤ n) (hu : ∀ i < n, u i ≠ 0) (h : u (n - 1) ≠ 255) :
    text (Function.update (Bytes.write buf 0 (Bytes.read u 0 n)) (n - 1)
      (Bytes.write buf 0 (Bytes.read u 0 n) (n - 1) + 1)) n = text u (n - 1) ++ [(u (n - 1)).toNat + 1] := by
  obtain ⟨m, rfl⟩ := Nat.exists_eq_succ_of_ne_zero (Nat.one_le_iff_ne_zero.mp hn)
  have hlast : m < m + 1 := Nat.lt_succ_self m
  rw [Nat.succ_eq_add_one, Nat.add_sub_cancel] at h ⊢
  rw [write_read hlast]
  have hcopy : ∀ i < m, Function.update (Bytes.write buf 0 (Bytes.read u 0 (m + 1))) m (u m + 1) i = u i := by
    intro i hi
    rw [Function.update_of_ne (Nat.ne_of_lt hi), write_read (Nat.lt_succ_of_lt hi)]
  have hup : (u m + 1).toNat = (u m).toNat + 1 := by
    have hne : (u m).toNat ≠ 255 := fun he => h (UInt8.toNat_inj.mp he)
    have hlt := (u m).toNat_lt
    rw [UInt8.toNat_add]
    exact Nat.mod_eq_of_lt (show (u m).toNat + 1 < 256 by omega)
  rw [text_snoc (fun i hi => hcopy i hi ▸ hu i (Nat.lt_succ_of_lt hi)) ?_, text_congr hcopy,
    Function.update_self, hup]
  rw [Function.update_self]
  intro h0
  rw [h0] at hup
  cases hup

/-- `0xFF` is counted up to NUL, and the text ends in front of it. -/
theorem text_count_up_wraps (hn : 1 ≤ n) (hu : ∀ i < n, u i ≠ 0) (h : u (n - 1) = 255) :
    text (Function.update (Bytes.write buf 0 (Bytes.read u 0 n)) (n - 1)
      (Bytes.write buf 0 (Bytes.read u 0 n) (n - 1) + 1)) n = text u (n - 1) := by
  have hlast : n - 1 < n := Nat.sub_lt hn Nat.one_pos
  have hcopy : ∀ i < n - 1, Function.update (Bytes.write buf 0 (Bytes.read u 0 n)) (n - 1)
      (Bytes.write buf 0 (Bytes.read u 0 n) (n - 1) + 1) i = u i := by
    intro i hi
    rw [Function.update_of_ne (Nat.ne_of_lt hi), write_read (hi.trans hlast)]
  rw [text_stop (Nat.sub_le n 1) (fun i hi => hcopy i hi ▸ hu i (hi.trans hlast)) fun _ => ?_]
  · exact text_congr hcopy
  · rw [Function.update_self, write_read hlast, h]
    rfl

/-- Where the counting up wraps, the texts from the first `n - 1` characters to the first `n` are let
through too, and no others. -/
theorem fixUserKey_spec (hn : 1 ≤ n) (hu : ∀ i < len, u i ≠ 0) :
    (boundAccepts n greater ((fixUserKey n buf u len greater).1, (fixUserKey n buf u len greater).2 || incl) k ↔
      OnSide greater incl (text u len) (text k n)) ↔
    ¬(greater = true ∧ n < len ∧ u (n - 1) = 255 ∧ text u (n - 1) ≤ text k n ∧ text k n ≤ text u n) := by
  rw [boundAccepts_iff]
  by_cases hlen : n < len
  · have hun : ∀ i < n, u i ≠ 0 := fun i hi => hu i (hi.trans hlen)
    have hlong : text u len = text u n ++ text (fun i => u (n + i)) (len - n) := by
      rw [← text_add hun, Nat.add_sub_cancel' hlen.le]
    have hrest : text (fun i => u (n + i)) (len - n) ≠ [] := by
      rw [show len - n = (len - n - 1) + 1 by omega, text_char (hu n hlen)]
      exact List.cons_ne_nil _ _
    have hk : (text k n).length ≤ (text u n).length := by
      rw [length_text_of_chars hun]
      exact length_text_le k n
    -- behind the first `n` characters of the bound there is no stored text
    have hup : OnSide greater incl (text u len) (text k n) ↔
        if greater then text u n < text k n else text k n ≤ text u n := by
      have hlt := lt_append_iff hk hrest
      have hne := ne_append hk hrest
      rw [← hlong] at hlt hne
      have hle : text k n ≤ text u len ↔ text k n ≤ text u n := by
        rw [le_iff_lt_or_eq, hlt, or_iff_left hne]
      unfold OnSide
      cases greater with
      | true =>
        cases incl with
        | true => exact not_lt.symm.trans ((not_congr hlt).trans not_le)
        | false => exact not_le.symm.trans ((not_congr hle).trans not_le)
      | false =>
        cases incl with
        | true => exact hle
        | false => exact hlt
    rw [hup, fixUserKey_long hu hlen]
    cases greater with
    | false =>
      refine iff_of_true ?_ fun h => Bool.false_ne_true h.1
      simp only [Bool.false_eq_true, if_false, Bool.true_or]
      rw [text_write_read]
      exact Iff.rfl
    | true =>
      simp only [if_true, Bool.true_or, true_and, hlen]
      have hsnoc : text u n = text u (n - 1) ++ [(u (n - 1)).toNat] := by
        have h := text_snoc (n := n - 1) (fun i hi => hun i (by omega)) (hun (n - 1) (by omega))
        rwa [Nat.sub_add_cancel hn] at h
      by_cases h255 : u (n - 1) = 255
      · rw [text_count_up_wraps hn hun h255]
        simp only [h255, true_and]
        have hpre : text u (n - 1) ≤ text u n := by
          rw [hsnoc]
          exact ((lt_append_iff le_rfl (List.cons_ne_nil _ _)).mpr le_rfl).le
        rcases le_or_gt (text k n) (text u n) with hle | hgt
        · have hno : ¬text u n < text k n := not_lt.mpr hle
          exact ⟨fun h hc => hno (h.mp hc.1), fun h => iff_of_false (fun hge => h ⟨hge, hle⟩) hno⟩
        · exact iff_of_true (iff_of_true (hpre.trans hgt.le) hgt) fun h => not_le.mpr hgt h.2
      · refine iff_of_true ?_ fun h => h255 h.1
        rw [text_count_up hn hun h255, hsnoc]
        refine snoc_succ_le_iff ?_
        have hlast : (text u (n - 1)).length = n - 1 := length_text_of_chars fun i hi => hun i (by omega)
        rw [hlast, Nat.sub_add_cancel hn]
        exact length_text_le k n
  · have hle := Nat.not_lt.mp hlen
    refine iff_of_true ?_ fun h => hlen h.2.1
    rw [text_fixUserKey_short hu hle, fixUserKey, if_pos hle, Bool.false_or]

end FixUserKey

namespace BplusTreeScanner

theorem fixedBound_chars {α : Type} [Inhabited α] {fix : α → Nat → Bool → α × Bool} {sc : BplusTreeScanner α}
    (h : sc.treeHandler.fileHeader.attrType = .chars) (v : α) (len : Nat) (want incl : Bool) :
    sc.fixedBound fix v len want incl = ((fix v len want).1, (fix v len want).2 || incl) := if_pos h

/-- A bound of a scan over `Chars`, as `Open` adjusts it, lets through what it was asked for, but for the
texts between the first `n - 1` and the first `n` characters of a left bound that is cut at `0xFF`. -/
theorem fixedBound_exact_iff (sc : BplusTreeScanner Pointer) (hchars : sc.treeHandler.fileHeader.attrType = .chars)
    {n : Nat} (hn : 1 ≤ n) (buf : Pointer) {u : Pointer} {len : Nat} (hu : ∀ i < len, u i ≠ 0)
    (wantGreater inclusive : Bool) (k : Pointer) :
    (boundAccepts n wantGreater (sc.fixedBound (fixUserKey n buf) u len wantGreater inclusive) k ↔
      OnSide wantGreater inclusive (text u len) (text k n)) ↔
    ¬(wantGreater = true ∧ n < len ∧ u (n - 1) = 255 ∧ text u (n - 1) ≤ text k n ∧ text k n ≤ text u n) := by
  rw [fixedBound_chars hchars]
  exact fixUserKey_spec hn hu

/-- `FF` is no text from `FF 41` on, and the scan of a column of one character takes it for one. -/
theorem not_fixedBound_exact_at_ff :
    ¬∀ (sc : BplusTreeScanner Pointer), sc.treeHandler.fileHeader.attrType = .chars →
      ∀ n, 1 ≤ n → ∀ (buf u : Pointer) (len : Nat), (∀ i < len, u i ≠ 0) → ∀ (inclusive : Bool) (k : Pointer),
      boundAccepts n true (sc.fixedBound (fixUserKey n buf) u len true inclusive) k ↔
        OnSide true inclusive (text u len) (text k n) := by
  intro h
  have hu : ∀ i < 2, (fun i => [255, 65].getD i 0 : Pointer) i ≠ 0 := by decide
  have h1 := h (new ⟨⟨none, 4, 4, .chars⟩, PagePool.newFile⟩) rfl 1 le_rfl (fun _ => 0) _ 2 hu true
    (fun i => [255].getD i 0)
  rw [fixedBound_chars rfl] at h1
  refine (fixUserKey_spec le_rfl hu).mp h1 ⟨rfl, by decide, rfl, ?_, ?_⟩
  · decide
  · decide

/-- `ABD` is a text from `ABCE` on, in a column of three characters. -/
theorem fixedBound_exact_iff_abce :
    let u : Pointer := fun i => [65, 66, 67, 69].getD i 0
    let k : Pointer := fun i => [65, 66, 68].getD i 0
    let sc : BplusTreeScanner Pointer := new ⟨⟨none, 4, 4, .chars⟩, PagePool.newFile⟩
    (boundAccepts 3 true (sc.fixedBound (fixUserKey 3 fun _ => 0) u 4 true false) k ↔
      OnSide true false (text u 4) (text k 3)) ↔
    ¬(true = true ∧ 3 < 4 ∧ u (3 - 1) = 255 ∧ text u (3 - 1) ≤ text k 3 ∧ text k 3 ≤ text u 3) :=
  fixedBound_exact_iff (new ⟨⟨none, 4, 4, .chars⟩, PagePool.newFile⟩) rfl (by decide) _ (by decide) true false _

end BplusTreeScanner

end Idmbs
