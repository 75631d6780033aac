import Mathlib.Data.List.Basic
import Mathlib.Data.Int.Basic
import Mathlib.Data.Nat.Bitwise
import Mathlib.Tactic.Common

/-!
# Idmbs.Lib.Bytes

Byte memory: blocks of bytes copied in and out, and little-endian two's complement integers of any
width stored in it. A list is cut into pieces of equal length at the end.
-/

namespace Bytes

abbrev Memory := Nat → UInt8

/-- The `n` bytes from address `a` on. -/
def read (m : Memory) (a n : Nat) : List UInt8 := (List.range n).map fun i => m (a + i)

/-- `memmove` of `bs` to address `a`. -/
def write (m : Memory) (a : Nat) (bs : List UInt8) : Memory :=
  fun x => if a ≤ x then bs.getD (x - a) (m x) else m x

/-- `memset` of `n` bytes to zero. -/
def zero (m : Memory) (a n : Nat) : Memory := fun x => if a ≤ x ∧ x < a + n then 0 else m x

/-! ## Blocks of bytes -/

section Blocks

variable {m m' : Memory} {a b n k : Nat} {bs : List UInt8}

@[simp] theorem length_read : (read m a n).length = n := by simp [read]

theorem read_congr (h : ∀ i < n, m (a + i) = m' (b + i)) : read m a n = read m' b n := by
  refine List.map_congr_left fun i hi => ?_
  exact h i (List.mem_range.mp hi)

theorem read_add : read m a (n + k) = read m a n ++ read m (a + n) k := by
  simp [read, List.range_add, Function.comp_def, Nat.add_assoc]

theorem take_read (h : k ≤ n) : (read m a n).take k = read m a k := by
  obtain ⟨j, rfl⟩ := Nat.exists_eq_add_of_le h
  rw [read_add, List.take_left' length_read]

theorem getElem_read {i : Nat} (h : i < (read m a n).length) : (read m a n)[i] = m (a + i) := by
  simp only [read, List.getElem_map, List.getElem_range]

theorem write_of_lt {x : Nat} (h : x < a) : write m a bs x = m x := by
  simp [write, Nat.not_le.mpr h]

theorem write_of_ge {x : Nat} (h : a + bs.length ≤ x) : write m a bs x = m x := by
  unfold write
  split
  · rw [List.getD_eq_getElem?_getD, List.getElem?_eq_none (by omega), Option.getD_none]
  · rfl

theorem write_at {i : Nat} (h : i < bs.length) : write m a bs (a + i) = bs[i] := by
  simp [write, h]

theorem read_write : read (write m a bs) a bs.length = bs := by
  refine List.ext_getElem (by simp) fun i hi hi' => ?_
  simp [read, write_at hi']

theorem read_write_before (h : b + n ≤ a) : read (write m a bs) b n = read m b n :=
  read_congr fun i hi => write_of_lt (by omega)

theorem zero_of_lt {x : Nat} (h : x < a) : zero m a n x = m x := if_neg (by omega)

theorem zero_at {x : Nat} (h : a ≤ x) (h' : x < a + n) : zero m a n x = 0 := if_pos ⟨h, h'⟩

theorem read_zero (h : a ≤ b) (h' : b + k ≤ a + n) :
    read (zero m a n) b k = List.replicate k 0 := by
  refine List.eq_replicate_iff.mpr ⟨length_read, fun x hx => ?_⟩
  obtain ⟨i, hi, rfl⟩ := List.mem_map.mp hx
  have := List.mem_range.mp hi
  exact zero_at (by omega) (by omega)

end Blocks

/-! ## Integers -/

/-- The lowest `n` bytes of `v`, the least significant first. -/
def encode : Nat → Int → List UInt8
  | 0, _ => []
  | n + 1, v => UInt8.ofNat (v % 256).toNat :: encode n (v / 256)

def decode : List UInt8 → Int
  | [] => 0
  | b :: bs => b.toNat + 256 * decode bs

@[simp] theorem length_encode (n : Nat) (v : Int) : (encode n v).length = n := by
  induction n generalizing v with
  | zero => rfl
  | succ n ih => rw [encode, List.length_cons, ih]

theorem emod_mul {k : Int} (hk : 0 < k) (v : Int) : v % (256 * k) = v % 256 + 256 * (v / 256 % k) := by
  have h0 : 0 ≤ v % 256 := Int.emod_nonneg _ (by decide)
  have h1 : v % 256 < 256 := Int.emod_lt_of_pos _ (by decide)
  have h2 : 0 ≤ v / 256 % k := Int.emod_nonneg _ (by omega)
  have h3 : v / 256 % k < k := Int.emod_lt_of_pos _ hk
  have hv : v = v % 256 + 256 * (v / 256 % k) + 256 * k * (v / 256 / k) := by
    have e1 := Int.emod_add_mul_ediv v 256
    have e2 := Int.emod_add_mul_ediv (v / 256) k
    rw [Int.mul_assoc, Int.add_assoc, ← Int.mul_add, e2, e1]
  conv_lhs => rw [hv]
  rw [Int.add_mul_emod_self_left, Int.emod_eq_of_lt (by omega) (by omega)]

theorem decode_encode (n : Nat) (v : Int) : decode (encode n v) = v % 256 ^ n := by
  induction n generalizing v with
  | zero => simp [encode, decode]
  | succ n ih =>
    have h0 : 0 ≤ v % 256 := Int.emod_nonneg _ (by decide)
    have h1 : v % 256 < 256 := Int.emod_lt_of_pos _ (by decide)
    have hbyte : ((UInt8.ofNat (v % 256).toNat).toNat : Int) = v % 256 := by
      rw [UInt8.toNat_ofNat', Nat.mod_eq_of_lt (by omega)]
      omega
    rw [encode, decode, ih, hbyte, Int.pow_succ, Int.mul_comm _ 256,
      emod_mul (Int.pow_pos (by decide))]

/-- The signed integer of `n` bytes at address `a`. -/
def getInt (m : Memory) (a n : Nat) : Int := (decode (read m a n)).bmod (256 ^ n)

def setInt (m : Memory) (a n : Nat) (v : Int) : Memory := write m a (encode n v)

section Integers

variable {m m' : Memory} {a b n k : Nat} {v : Int}

/-- Memory is changed at most in the `n` bytes from address `a` on. -/
theorem setInt_of_lt {x : Nat} (h : x < a) : setInt m a n v x = m x := write_of_lt h

theorem setInt_of_ge {x : Nat} (h : a + n ≤ x) : setInt m a n v x = m x :=
  write_of_ge (by rwa [length_encode])

theorem getInt_congr (h : ∀ i < n, m (a + i) = m' (b + i)) : getInt m a n = getInt m' b n := by
  rw [getInt, getInt, read_congr h]

theorem getInt_setInt : getInt (setInt m a n v) a n = v.bmod (256 ^ n) := by
  have h : read (setInt m a n v) a n = encode n v := by
    have : read (write m a (encode n v)) a (encode n v).length = encode n v := read_write
    rwa [length_encode] at this
  have hpow : ((256 ^ n : Nat) : Int) = (256 : Int) ^ n := by exact Int.natCast_pow 256 n
  rw [getInt, h, decode_encode, ← hpow, Int.emod_bmod]

theorem getInt_setInt_of_fits (h : -(256 ^ n : Nat) ≤ v * 2) (h' : v * 2 < (256 ^ n : Nat)) :
    getInt (setInt m a n v) a n = v := by
  rw [getInt_setInt, Int.bmod_eq_of_le_mul_two h h']

theorem getInt_emod (m : Memory) (a n : Nat) : getInt m a (n + 1) % 256 = (m a).toNat := by
  have hread : read m a (n + 1) = m a :: read m (a + 1) n := by
    rw [Nat.add_comm n 1, read_add]
    rfl
  have hdvd : (256 : Int) ∣ ((256 ^ (n + 1) : Nat) : Int) := by
    exact_mod_cast Dvd.intro_left (256 ^ n) rfl
  have hlt := (m a).toNat_lt
  rw [getInt, ← Int.emod_emod_of_dvd _ hdvd, Int.bmod_emod, Int.emod_emod_of_dvd _ hdvd, hread, decode]
  omega

theorem setInt_first (m : Memory) (a n : Nat) (v : Int) : ((setInt m a (n + 1) v a).toNat : Int) = v % 256 := by
  have hdvd : (256 : Int) ∣ ((256 ^ (n + 1) : Nat) : Int) := by
    exact_mod_cast Dvd.intro_left (256 ^ n) rfl
  rw [← getInt_emod, getInt_setInt, ← Int.emod_emod_of_dvd _ hdvd, Int.bmod_emod, Int.emod_emod_of_dvd _ hdvd]

theorem getInt_zero (h : a ≤ b) (h' : b + k ≤ a + n) : getInt (zero m a n) b k = 0 := by
  have hd : ∀ j, decode (List.replicate j 0) = 0 := by
    intro j
    induction j with
    | zero => rfl
    | succ j ih => rw [List.replicate_succ, decode, ih]; rfl
  rw [getInt, read_zero h h', hd, Int.zero_bmod]

end Integers

/-! ## Bits -/

section Bits

variable {x : UInt8} {i j : Nat}

/-- `bits & (1 << i)`, for `i` below 8. -/
def bit (x : UInt8) (i : Nat) : Bool := x.toNat.testBit i

theorem bit_or (hi : i < 8) :
    bit (x ||| UInt8.ofNat (1 <<< i)) j = (bit x j || decide (i = j)) := by
  have hmask : (UInt8.ofNat (1 <<< i)).toNat = 2 ^ i := by
    rw [UInt8.toNat_ofNat', Nat.one_shiftLeft]
    exact Nat.mod_eq_of_lt (Nat.pow_lt_pow_right (by decide) hi)
  rw [bit, bit, UInt8.toNat_or, Nat.testBit_or, hmask, Nat.testBit_two_pow]

theorem bit_and_not (hi : i < 8) (hj : j < 8) :
    bit (x &&& ~~~UInt8.ofNat (1 <<< i)) j = (bit x j && !decide (i = j)) := by
  have hmask : (UInt8.ofNat (1 <<< i)).toNat = 2 ^ i := by
    rw [UInt8.toNat_ofNat', Nat.one_shiftLeft]
    exact Nat.mod_eq_of_lt (Nat.pow_lt_pow_right (by decide) hi)
  have hlt : (UInt8.ofNat (1 <<< i)).toNat < 2 ^ 8 := UInt8.toNat_lt _
  rw [bit, bit, UInt8.toNat_and, Nat.testBit_and, UInt8.toNat_not]
  congr 1
  rw [show UInt8.size - 1 - (UInt8.ofNat (1 <<< i)).toNat = 2 ^ 8 - ((UInt8.ofNat (1 <<< i)).toNat + 1) from
    by rw [Nat.sub_sub, Nat.add_comm 1]; rfl, Nat.testBit_two_pow_sub_succ hlt, hmask, Nat.testBit_two_pow]
  simp only [hj, decide_true, Bool.true_and]

end Bits

/-! ## Pieces of equal length -/

variable {α : Type}

/-- The piece with number `i` of a list cut every `c` elements. -/
def piece (c : Nat) (l : List α) (i : Nat) : List α := (l.drop (c * i)).take c

theorem length_piece (c : Nat) (l : List α) (i : Nat) :
    (piece c l i).length = min c (l.length - c * i) := by
  simp [piece]

theorem pieces_eq_take (c : Nat) (l : List α) (n : Nat) :
    (List.range n).flatMap (piece c l) = l.take (c * n) := by
  induction n with
  | zero => simp
  | succ n ih =>
    rw [List.range_succ, List.flatMap_append, ih, List.flatMap_singleton, Nat.mul_succ,
      List.take_add]
    rfl

/-- Enough pieces give the list back. -/
theorem pieces_eq {c n : Nat} {l : List α} (h : l.length ≤ c * n) :
    (List.range n).flatMap (piece c l) = l := by
  rw [pieces_eq_take, List.take_of_length_le h]

theorem piece_append_of_full {c i : Nat} {l l' : List α} (h : c * (i + 1) ≤ l.length) :
    piece c (l ++ l') i = piece c l i := by
  rw [Nat.mul_succ] at h
  rw [piece, piece, List.drop_append_of_le_length (by omega), List.take_append_of_le_length]
  rw [List.length_drop]
  omega

end Bytes
