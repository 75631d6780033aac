import Mathlib.Data.List.Range
import Mathlib.Data.List.Nodup
import Mathlib.Tactic.Common

/-!
# Idmbs.Storage.BitMap

`BitMap::NextSetBit` (storage/bitmap.cpp). Bit `i` of the bytes at `bit_map_` is `b i`; the bytes go on
behind the last bit of the map. The search is right when it starts at a byte's first bit or inside a byte
that is not zero.
-/

namespace Idmbs

namespace BitMap

def byteZero (b : Nat → Bool) (iter : Nat) : Bool := (List.range' (iter * 8) 8).all fun i => !b i

/-- `FindFirstSet`, with the answer counted from the first byte. -/
def findFirstSet (b : Nat → Bool) (iter start : Nat) : Option Nat :=
  (List.range' (iter * 8 + start) (8 - start)).find? b

/-- The loop of `NextSetBit`. The position in the byte is reset behind bytes that are not zero. -/
def nextSetBitLoop (b : Nat → Bool) : Nat → Nat → Nat → Option Nat
  | 0, _, _ => none
  | n + 1, iter, startInByte =>
    if byteZero b iter then nextSetBitLoop b n (iter + 1) startInByte
    else
      match findFirstSet b iter startInByte with
      | some r => some r
      | none => nextSetBitLoop b n (iter + 1) 0

/-- `NextSetBit`; the loop runs over one byte more than the map has. -/
def nextSetBit (b : Nat → Bool) (size start : Nat) : Option Nat :=
  let last := if size % 8 = 0 then size / 8 else size / 8 + 1
  match nextSetBitLoop b (last + 1 - start / 8) (start / 8) (start % 8) with
  | some r => if r ≥ size then none else some r
  | none => none

def bitsFrom (b : Nat → Bool) (size k : Nat) : List Nat := (List.range' k (size - k)).filter b

variable {b b' : Nat → Bool} {n size k iter s r : Nat}

theorem byteZero_iff : byteZero b iter = true ↔ ∀ i, iter * 8 ≤ i → i < iter * 8 + 8 → b i = false := by
  simp only [byteZero, List.all_eq_true, List.mem_range'_1, Bool.not_eq_true', and_imp]

theorem byteZero_of_bit (h : b r = true) : byteZero b (r / 8) = false := by
  cases hzero : byteZero b (r / 8) with
  | false => rfl
  | true =>
    rw [byteZero_iff.mp hzero r (by omega) (by omega)] at h
    cases h

theorem find?_range'_none (h : ∀ i, k ≤ i → i < k + n → b i = false) :
    (List.range' k n).find? b = none := by
  rw [List.find?_eq_none]
  intro i hi
  rw [List.mem_range'_1] at hi
  rw [h i hi.1 hi.2]
  exact Bool.false_ne_true

/-- From the first bit of a byte on the loop misses nothing. -/
theorem nextSetBitLoop_zero : nextSetBitLoop b n iter 0 = (List.range' (iter * 8) (8 * n)).find? b := by
  induction n generalizing iter with
  | zero => rfl
  | succ n ih =>
    have hsplit : List.range' (iter * 8) (8 * (n + 1)) =
        List.range' (iter * 8) 8 ++ List.range' ((iter + 1) * 8) (8 * n) := by
      rw [show (iter + 1) * 8 = iter * 8 + 8 by omega, List.range'_append_1,
        show 8 + 8 * n = 8 * (n + 1) by omega]
    rw [nextSetBitLoop, hsplit, List.find?_append, ih]
    split
    · rename_i hzero
      rw [find?_range'_none (byteZero_iff.mp hzero), Option.none_or]
    · unfold findFirstSet
      rw [Nat.add_zero, Nat.sub_zero]
      cases (List.range' (iter * 8) 8).find? b with
      | some r => rfl
      | none => rfl

/-- Inside a byte that is not zero it misses nothing either. -/
theorem nextSetBitLoop_inside (hs : s < 8) (h : s = 0 ∨ byteZero b iter = false) :
    nextSetBitLoop b (n + 1) iter s = (List.range' (iter * 8 + s) (8 * (n + 1) - s)).find? b := by
  rcases h with rfl | h
  · exact nextSetBitLoop_zero
  · have hsplit : List.range' (iter * 8 + s) (8 * (n + 1) - s) =
        List.range' (iter * 8 + s) (8 - s) ++ List.range' ((iter + 1) * 8) (8 * n) := by
      rw [show (iter + 1) * 8 = iter * 8 + s + (8 - s) by omega, List.range'_append_1,
        show 8 - s + 8 * n = 8 * (n + 1) - s by omega]
    rw [nextSetBitLoop, h, hsplit, List.find?_append, nextSetBitLoop_zero]
    unfold findFirstSet
    cases (List.range' (iter * 8 + s) (8 - s)).find? b with
    | some r => rfl
    | none => rfl

/-- Behind bytes that are zero the search goes on at the same position in the byte. -/
theorem nextSetBitLoop_skip {j : Nat} (h : ∀ i < j, byteZero b (iter + i) = true) :
    nextSetBitLoop b (j + n) iter s = nextSetBitLoop b n (iter + j) s := by
  induction j generalizing iter with
  | zero => rw [Nat.zero_add, Nat.add_zero]
  | succ j ih =>
    have hzero : byteZero b iter = true := h 0 (Nat.succ_pos j)
    have hrest : ∀ i < j, byteZero b (iter + 1 + i) = true := by
      intro i hi
      rw [Nat.add_assoc, Nat.add_comm 1 i]
      exact h (i + 1) (Nat.succ_lt_succ hi)
    rw [Nat.add_right_comm, nextSetBitLoop, if_pos hzero, ih hrest, Nat.add_assoc, Nat.add_comm 1 j]

theorem nextSetBit_skip {j : Nat} (h : ∀ i < j, byteZero b i = true) (hs : s < 8) (hj : 8 * j < size) :
    nextSetBit b size s = nextSetBit b size (8 * j + s) := by
  unfold nextSetBit
  simp only
  obtain ⟨last, hlast⟩ : ∃ last, (if size % 8 = 0 then size / 8 else size / 8 + 1) = last := ⟨_, rfl⟩
  have hle : j ≤ last := by
    rw [← hlast]
    split <;> omega
  have hstart : s / 8 = 0 ∧ (8 * j + s) / 8 = j ∧ s % 8 = s ∧ (8 * j + s) % 8 = s := by omega
  obtain ⟨h1, h2, h3, h4⟩ := hstart
  have hskip : nextSetBitLoop b (last + 1) 0 s = nextSetBitLoop b (last + 1 - j) j s := by
    have hloop := nextSetBitLoop_skip (n := last + 1 - j) (s := s) (fun i hi => by rw [Nat.zero_add]; exact h i hi)
    rwa [Nat.zero_add, Nat.add_sub_cancel' (Nat.le_succ_of_le hle)] at hloop
  rw [hlast, h1, h2, h3, h4, Nat.sub_zero, hskip]

/-- The bit that the search finds: the first one set, if there is one in the map. -/
theorem nextSetBit_eq_find? (h : k % 8 = 0 ∨ byteZero b (k / 8) = false) :
    nextSetBit b size k = (List.range' k (size - k)).find? b := by
  unfold nextSetBit
  simp only
  obtain ⟨last, hlast⟩ : ∃ last, (if size % 8 = 0 then size / 8 else size / 8 + 1) = last := ⟨_, rfl⟩
  have hsize : size ≤ last * 8 := by
    rw [← hlast]
    split <;> omega
  rw [hlast]
  by_cases hk : k / 8 ≤ last
  · obtain ⟨n, hn⟩ : ∃ n, last + 1 - k / 8 = n + 1 := ⟨last - k / 8, by omega⟩
    have hsplit : List.range' k (8 * (n + 1) - k % 8) =
        List.range' k (size - k) ++ List.range' (k + (size - k)) (8 * (n + 1) - k % 8 - (size - k)) := by
      rw [List.range'_append_1, show size - k + (8 * (n + 1) - k % 8 - (size - k)) =
        8 * (n + 1) - k % 8 by omega]
    rw [hn, nextSetBitLoop_inside (Nat.mod_lt _ (by decide)) h,
      show k / 8 * 8 + k % 8 = k by omega, hsplit, List.find?_append]
    cases hin : (List.range' k (size - k)).find? b with
    | some r =>
      have hmem := List.mem_range'_1.mp (List.mem_of_find?_eq_some hin)
      simp only [Option.some_or, ge_iff_le]
      exact if_neg (by omega)
    | none =>
      rw [Option.none_or]
      cases hout : (List.range' (k + (size - k)) (8 * (n + 1) - k % 8 - (size - k))).find? b with
      | some r =>
        have hmem := List.mem_range'_1.mp (List.mem_of_find?_eq_some hout)
        exact if_pos (by omega)
      | none => rfl
  · rw [show last + 1 - k / 8 = 0 by omega, show size - k = 0 by omega]
    rfl

theorem bitsFrom_of_ge (h : size ≤ k) : bitsFrom b size k = [] := by
  rw [bitsFrom, Nat.sub_eq_zero_of_le h]
  rfl

theorem bitsFrom_of_lt (h : k < size) :
    bitsFrom b size k = if b k then k :: bitsFrom b size (k + 1) else bitsFrom b size (k + 1) := by
  unfold bitsFrom
  rw [show size - k = (size - (k + 1)) + 1 by omega, List.range'_succ, List.filter_cons]

theorem mem_bitsFrom : r ∈ bitsFrom b size k ↔ k ≤ r ∧ r < size ∧ b r = true := by
  rw [bitsFrom, List.mem_filter, List.mem_range'_1, and_assoc]
  refine and_congr_right fun hk => and_congr_left fun _ => ?_
  omega

theorem bitsFrom_congr (h : ∀ i, k ≤ i → i < size → b i = b' i) : bitsFrom b size k = bitsFrom b' size k := by
  refine List.filter_congr fun i hi => ?_
  rw [List.mem_range'_1] at hi
  exact h i hi.1 (by omega)

theorem bitsFrom_find? (b : Nat → Bool) (size k : Nat) :
    ((List.range' k (size - k)).find? b = none ∧ bitsFrom b size k = []) ∨
    ∃ r, (List.range' k (size - k)).find? b = some r ∧ k ≤ r ∧ r < size ∧ b r = true ∧
      bitsFrom b size k = r :: bitsFrom b size (r + 1) := by
  obtain ⟨n, hn⟩ : ∃ n, size - k = n := ⟨_, rfl⟩
  induction n generalizing k with
  | zero =>
    refine .inl ⟨?_, bitsFrom_of_ge (by omega)⟩
    rw [hn]
    rfl
  | succ n ih =>
    rw [bitsFrom_of_lt (by omega), show size - k = (size - (k + 1)) + 1 by omega, List.range'_succ,
      List.find?_cons]
    cases hb : b k with
    | true => exact .inr ⟨k, rfl, le_rfl, by omega, hb, if_pos rfl⟩
    | false =>
      rcases ih (k + 1) (by omega) with ⟨h1, h2⟩ | ⟨r, h1, h2, h3, h4, h5⟩
      · exact .inl ⟨h1, (if_neg Bool.false_ne_true).trans h2⟩
      · exact .inr ⟨r, h1, by omega, h3, h4, (if_neg Bool.false_ne_true).trans h5⟩

/-- A search that starts right finds the first of the bits that are left. -/
theorem nextSetBit_cases (size : Nat) (h : k % 8 = 0 ∨ byteZero b (k / 8) = false) :
    (nextSetBit b size k = none ∧ bitsFrom b size k = []) ∨
    ∃ r, nextSetBit b size k = some r ∧ k ≤ r ∧ r < size ∧ b r = true ∧
      bitsFrom b size k = r :: bitsFrom b size (r + 1) := by
  rw [nextSetBit_eq_find? h]
  exact bitsFrom_find? b size k

/-- The bit before the start is set: the search starts right. -/
theorem startsRight_of_bit (h : b r = true) : (r + 1) % 8 = 0 ∨ byteZero b ((r + 1) / 8) = false := by
  by_cases h8 : (r + 1) % 8 = 0
  · exact .inl h8
  · refine .inr ?_
    rw [show (r + 1) / 8 = r / 8 by omega]
    exact byteZero_of_bit h

theorem bitsFrom_cons {rest : List Nat} (h : bitsFrom b size k = r :: rest) :
    k ≤ r ∧ r < size ∧ b r = true ∧ rest = bitsFrom b size (r + 1) := by
  rcases bitsFrom_find? b size k with ⟨-, hnil⟩ | ⟨r', -, hk, hr, hb, hcons⟩
  · rw [h] at hnil
    cases hnil
  · rw [h] at hcons
    cases hcons
    exact ⟨hk, hr, hb, rfl⟩

/-- The answer of a search that starts right is the head of the bits that are left. -/
theorem nextSetBit_eq_head? (size : Nat) (h : k % 8 = 0 ∨ byteZero b (k / 8) = false) :
    nextSetBit b size k = (bitsFrom b size k).head? := by
  rcases nextSetBit_cases size h with ⟨h1, h2⟩ | ⟨r, h1, -, -, -, h2⟩
  · rw [h1, h2]
    rfl
  · rw [h1, h2]
    rfl

theorem nodup_bitsFrom : (bitsFrom b size k).Nodup := (List.nodup_range' 1).filter _

theorem length_bitsFrom_le (b : Nat → Bool) (size k : Nat) : (bitsFrom b size k).length ≤ size - k := by
  have h : (bitsFrom b size k).length ≤ (List.range' k (size - k)).length := List.length_filter_le _ _
  rwa [List.length_range'] at h

theorem length_bitsFrom_eq_iff : (bitsFrom b size 0).length = size ↔ ∀ i < size, b i = true := by
  have h := List.length_filter_eq_length_iff (p := b) (l := List.range' 0 (size - 0))
  rw [List.length_range', Nat.sub_zero] at h
  refine h.trans ⟨fun h i hi => ?_, fun h i hi => ?_⟩
  · exact h i (List.mem_range'_1.mpr ⟨Nat.zero_le _, by omega⟩)
  · exact h i (by have := List.mem_range'_1.mp hi; omega)

theorem length_bitsFrom_clear (hr : r < size) (h : b r = true) :
    (bitsFrom (Function.update b r false) size 0).length + 1 = (bitsFrom b size 0).length := by
  have hmem : r ∈ bitsFrom b size 0 := mem_bitsFrom.mpr ⟨Nat.zero_le _, hr, h⟩
  have herase : bitsFrom (Function.update b r false) size 0 = (bitsFrom b size 0).erase r := by
    rw [nodup_bitsFrom.erase_eq_filter]
    unfold bitsFrom
    rw [List.filter_filter]
    refine List.filter_congr fun i _ => ?_
    by_cases hi : i = r
    · simp [hi]
    · simp [hi]
  rw [herase, List.length_erase_of_mem hmem]
  have := List.length_pos_of_mem hmem
  omega

theorem bitsFrom_eq_nil {b : Nat → Bool} {size k : Nat} (h : ∀ i < size, b i = false) :
    bitsFrom b size k = [] := by
  refine List.eq_nil_iff_forall_not_mem.mpr fun i hi => ?_
  obtain ⟨-, hlt, hb⟩ := mem_bitsFrom.mp hi
  rw [h i hlt] at hb
  cases hb

theorem length_bitsFrom_set {b : Nat → Bool} {size r : Nat} (hr : r < size) (h : b r = false) :
    (bitsFrom (Function.update b r true) size 0).length = (bitsFrom b size 0).length + 1 := by
  have hclear := length_bitsFrom_clear (b := Function.update b r true) hr (Function.update_self r true b)
  rw [Function.update_idem, ← h, Function.update_eq_self] at hclear
  exact hclear.symm

end BitMap

end Idmbs
