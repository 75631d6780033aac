import Idmbs.Lib.CString
import Mathlib.Tactic.NormNum

/-!
# Idmbs.Common.CommonDefs

`CompareInt` and `CompareString` of common/common_defs.cpp, on values as they lie in memory.
-/

namespace Idmbs

open CString

/-- The 32-bit integer that is left of `v`. -/
def wrap32 (v : Int) : Int := v.bmod (2 ^ 32)

abbrev InInt32 (v : Int) : Prop := -2 ^ 31 ≤ v ∧ v < 2 ^ 31

theorem wrap32_eq (v : Int) :
    wrap32 v = if v % 4294967296 < 2147483648 then v % 4294967296 else v % 4294967296 - 4294967296 := by
  unfold wrap32
  rw [Int.bmod_def]
  norm_num

theorem wrap32_of_inInt32 {v : Int} (h : InInt32 v) : wrap32 v = v := by
  rw [wrap32_eq]
  split <;> omega

theorem inInt32_wrap32 (v : Int) : InInt32 (wrap32 v) := by
  rw [wrap32_eq]
  constructor <;> split <;> omega

def compareInt (a b : Int) : Int := wrap32 (a - b)

theorem compareInt_eq_zero_iff {a b : Int} (ha : InInt32 a) (hb : InInt32 b) :
    compareInt a b = 0 ↔ a = b := by
  rw [compareInt, wrap32_eq]
  split <;> omega

/-- `CompareString`: the longer side answers with its next character, which is a signed `char`. -/
def compareString (a : Pointer) (aMaxLength : Nat) (b : Pointer) (bMaxLength : Nat) : Int :=
  let maxLen := min aMaxLength bMaxLength
  let res := strncmp a b maxLen
  if res ≠ 0 then res
  else if aMaxLength > bMaxLength then (a maxLen).toInt8.toInt - 0
  else if aMaxLength < bMaxLength then (b maxLen).toInt8.toInt - 0
  else 0

theorem compareString_self_length (a b : Pointer) (n : Nat) :
    compareString a n b n = strncmp a b n := by
  unfold compareString
  simp only [Nat.min_self, gt_iff_lt, lt_irrefl, if_false]
  split
  · rfl
  · rename_i h
    exact (not_not.mp h).symm

end Idmbs
