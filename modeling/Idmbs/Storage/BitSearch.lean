import Idmbs.Storage.RecordHandler
import Mathlib.Data.Nat.Find

/-!
# Idmbs.Storage.BitSearch

When `BitMap::NextSetBit` and `BitMap::NextUnsetBit` (storage/bitmap.cpp) find the bit they are asked for.
The loops run over one byte more than the map has, and behind bytes without a hit of any kind they go on
at the position in the byte that they began with.
-/

namespace Idmbs
namespace BitMap

def byteNum (size : Nat) : Nat := (size + 7) / 8

/-- The bytes that the loop of `NextSetBit` reads. -/
def loopReads (b : Nat → Bool) : Nat → Nat → Nat → List Nat
  | 0, _, _ => []
  | n + 1, iter, startInByte =>
    iter ::
      if byteZero b iter then loopReads b n (iter + 1) startInByte
      else
        match findFirstSet b iter startInByte with
        | some _ => []
        | none => loopReads b n (iter + 1) 0

/-- The bytes that `NextSetBit` reads. -/
def nextSetBitReads (b : Nat → Bool) (size start : Nat) : List Nat :=
  let last := if size % 8 = 0 then size / 8 else size / 8 + 1
  loopReads b (last + 1 - start / 8) (start / 8) (start % 8)

/-- The bytes that `NextUnsetBit` reads. -/
def nextUnsetBitReads (b : Nat → Bool) (size start : Nat) : List Nat :=
  nextSetBitReads (fun i => !b i) size start

/-- What a search for a bit with `p` must answer, and what it may read. -/
structure Exact (p : Nat → Bool) (size start : Nat) (ret : Option Nat) (reads : List Nat) : Prop where
  some_iff : ∀ i, ret = some i ↔
    start ≤ i ∧ i < size ∧ p i = true ∧ ∀ j, start ≤ j → j < i → p j = false
  none_iff : ret = none ↔ ∀ i, start ≤ i → i < size → p i = false
  reads_lt : ∀ k ∈ reads, k < byteNum size

/-- A bit that the search does not miss: the byte of `start` is not skipped, or the bit does not lie
before the position of `start` in its byte. -/
structure Seen (p : Nat → Bool) (start i : Nat) : Prop where
  bit : p i = true
  le : start ≤ i
  seen : start % 8 ≤ i % 8 ∨ byteZero p (start / 8) = false

/-- A bit is seen in the bytes of the map, and the first bit of the map from `start` on is one. -/
structure SeesFirst (p : Nat → Bool) (size start : Nat) : Prop where
  exists_seen : ∃ g < 8 * byteNum size, Seen p start g
  first : ∀ f, start ≤ f → f < size → p f = true → ∃ g ≤ f, Seen p start g

variable {p : Nat → Bool} {n size start iter s r : Nat}

theorem byteNum_eq (size : Nat) : (if size % 8 = 0 then size / 8 else size / 8 + 1) = byteNum size := by
  unfold byteNum
  split <;> omega

/-- A loop reads the byte behind its first `n` exactly when it finds nothing in these. -/
theorem loopReads_lt_iff :
    (∀ k ∈ loopReads p (n + 1) iter s, k < iter + n) ↔ ∃ r, nextSetBitLoop p n iter s = some r := by
  induction n generalizing iter s with
  | zero =>
    constructor
    · intro h
      exact absurd (h iter (List.mem_cons_self ..)) (Nat.lt_irrefl _)
    · rintro ⟨r, hr⟩
      cases hr
  | succ n ih =>
    rw [loopReads, nextSetBitLoop, List.forall_mem_cons, and_iff_right (by omega)]
    have hih : ∀ s, (∀ k ∈ loopReads p (n + 1) (iter + 1) s, k < iter + (n + 1)) ↔
        ∃ r, nextSetBitLoop p n (iter + 1) s = some r := by
      intro s
      rw [← ih, show iter + (n + 1) = iter + 1 + n by omega]
    split
    · exact hih s
    · cases findFirstSet p iter s with
      | some r => exact ⟨fun _ => ⟨r, rfl⟩, fun _ _ hk => absurd hk List.not_mem_nil⟩
      | none => exact hih 0

theorem nextSetBitLoop_succ (h : nextSetBitLoop p n iter s = some r) :
    nextSetBitLoop p (n + 1) iter s = some r := by
  induction n generalizing iter s with
  | zero => cases h
  | succ n ih =>
    rw [nextSetBitLoop] at h ⊢
    split
    · rename_i hz
      exact ih (by rwa [if_pos hz] at h)
    · rename_i hz
      rw [if_neg hz] at h
      cases hf : findFirstSet p iter s with
      | some r' => rwa [hf] at h
      | none =>
        rw [hf] at h
        exact ih h

/-- The loop over the bytes of the map from `start` on. -/
def mapLoop (p : Nat → Bool) (size start : Nat) : Option Nat :=
  nextSetBitLoop p (byteNum size - start / 8) (start / 8) (start % 8)

theorem nextSetBitLoop_sound (hs : s < 8) (h : nextSetBitLoop p n iter s = some r) :
    iter * 8 + s ≤ r ∧ r < (iter + n) * 8 ∧ p r = true := by
  induction n generalizing iter s with
  | zero => cases h
  | succ n ih =>
    rw [nextSetBitLoop] at h
    split at h
    · obtain ⟨h1, h2, h3⟩ := ih hs h
      exact ⟨by omega, by omega, h3⟩
    · cases hf : findFirstSet p iter s with
      | some r' =>
        rw [hf] at h
        cases h
        have hmem := List.mem_range'_1.mp (List.mem_of_find?_eq_some hf)
        exact ⟨hmem.1, by omega, List.find?_some hf⟩
      | none =>
        rw [hf] at h
        obtain ⟨h1, h2, h3⟩ := ih (by decide) h
        exact ⟨by omega, by omega, h3⟩

/-- `i` is the first bit from `start` on. -/
structure First (p : Nat → Bool) (start i : Nat) : Prop where
  bit : p i = true
  le : start ≤ i
  before : ∀ j, start ≤ j → j < i → p j = false

theorem First.unique {i j : Nat} (hi : First p start i) (hj : First p start j) : i = j := by
  rcases Nat.lt_trichotomy i j with h | h | h
  · exact absurd (hj.before i hi.le h) (by rw [hi.bit]; decide)
  · exact h
  · exact absurd (hi.before j hj.le h) (by rw [hj.bit]; decide)

theorem exists_first {i : Nat} (hi : start ≤ i) (hp : p i = true) : ∃ f ≤ i, First p start f := by
  have hex : ∃ j, start ≤ j ∧ p j = true := ⟨i, hi, hp⟩
  refine ⟨Nat.find hex, Nat.find_min' hex ⟨hi, hp⟩, (Nat.find_spec hex).2, (Nat.find_spec hex).1, ?_⟩
  intro j hj hlt
  have := Nat.find_min hex hlt
  rw [not_and, Bool.not_eq_true] at this
  exact this hj

/-- The search is exact when the loop ends inside the map, at the first bit or behind the bits of the map. -/
theorem exact_iff (h : start ≤ size) :
    Exact p size start (nextSetBit p size start) (nextSetBitReads p size start) ↔
      ∃ r, mapLoop p size start = some r ∧ ∀ f < size, First p start f → r = f := by
  have hfuel : byteNum size + 1 - start / 8 = byteNum size - start / 8 + 1 := by
    unfold byteNum
    omega
  have hend : start / 8 + (byteNum size - start / 8) = byteNum size := by omega
  have hreads : (∀ k ∈ nextSetBitReads p size start, k < byteNum size) ↔ ∃ r, mapLoop p size start = some r := by
    unfold nextSetBitReads mapLoop
    simp only
    rw [byteNum_eq, hfuel, ← loopReads_lt_iff, hend]
  have hret : ∀ r, mapLoop p size start = some r → nextSetBit p size start = if r ≥ size then none else some r := by
    intro r hr
    unfold nextSetBit
    simp only
    rw [byteNum_eq, hfuel, nextSetBitLoop_succ hr]
  constructor
  · intro hx
    obtain ⟨r, hr⟩ := hreads.mp hx.reads_lt
    refine ⟨r, hr, fun f hf hfirst => ?_⟩
    have := (hx.some_iff f).mpr ⟨hfirst.le, hf, hfirst.bit, hfirst.before⟩
    rw [hret r hr] at this
    split at this
    · cases this
    · exact Option.some.inj this
  · rintro ⟨r, hr, hfirst⟩
    obtain ⟨hle, -, hbit⟩ := nextSetBitLoop_sound (Nat.mod_lt _ (by decide)) hr
    have hle : start ≤ r := by omega
    obtain ⟨f, hfr, hf⟩ := exists_first hle hbit
    rw [hret r hr]
    refine ⟨fun i => ?_, ?_, hreads.mpr ⟨r, hr⟩⟩
    · constructor
      · intro hi
        split at hi
        · cases hi
        · cases hi
          have : r = f := hfirst f (by omega) hf
          subst this
          exact ⟨hle, by omega, hbit, hf.before⟩
      · rintro ⟨hsi, hi, hpi, hbefore⟩
        have : r = i := hfirst i hi ⟨hpi, hsi, hbefore⟩
        rw [if_neg (by omega), this]
    · constructor
      · intro hn i hsi hi
        by_contra hpi
        obtain ⟨f', hfi, hf'⟩ := exists_first hsi (by simpa using hpi)
        have : r = f' := hfirst f' (by omega) hf'
        rw [if_neg (by omega)] at hn
        cases hn
      · intro hn
        refine if_pos (Nat.le_of_not_lt fun hlt => ?_)
        rw [hn r hle hlt] at hbit
        cases hbit

/-! ## Where the loop ends -/

/-- The first bit of a range. -/
theorem find?_range'_first {k i : Nat} (hk : k ≤ i) (hi : i < k + n) (hp : p i = true) :
    ∃ r ≤ i, (List.range' k n).find? p = some r ∧ First p k r := by
  obtain ⟨f, hfi, hf⟩ := exists_first hk hp
  refine ⟨f, hfi, List.find?_range'_eq_some.mpr ⟨hf.bit, ?_, ?_⟩, hf⟩
  · exact List.mem_range'_1.mpr ⟨hf.le, by omega⟩
  · intro j hj hlt
    rw [hf.before j hj hlt]
    rfl

/-- The loop begins in a byte that it searches from the right position. -/
theorem mapLoop_inside (h : start % 8 = 0 ∨ byteZero p (start / 8) = false) (hstart : start / 8 < byteNum size) :
    mapLoop p size start = (List.range' start (8 * byteNum size - start)).find? p := by
  obtain ⟨n, hn⟩ : ∃ n, byteNum size - start / 8 = n + 1 := ⟨byteNum size - start / 8 - 1, by omega⟩
  rw [mapLoop, hn, nextSetBitLoop_inside (Nat.mod_lt _ (by decide)) h, show start / 8 * 8 + start % 8 = start by omega,
    show 8 * (n + 1) - start % 8 = 8 * byteNum size - start by omega]

/-- The loop begins in a byte that it skips, with the others before the byte of the first bit. -/
theorem mapLoop_skip (hz : byteZero p (start / 8) = true) {f : Nat} (hf : First p start f)
    (hmap : f < 8 * byteNum size) :
    mapLoop p size start =
      (List.range' (f / 8 * 8 + start % 8) (8 * byteNum size - (f / 8 * 8 + start % 8))).find? p := by
  have hzero : ∀ i < f / 8 - start / 8, byteZero p (start / 8 + i) = true := by
    intro i hi
    rcases Nat.eq_zero_or_pos i with rfl | hpos
    · exact hz
    · exact byteZero_iff.mpr fun j h1 h2 => hf.before j (by omega) (by omega)
  have hle := hf.le
  have hbyte : byteZero p (f / 8) = false := byteZero_of_bit hf.bit
  obtain ⟨n, hn⟩ : ∃ n, byteNum size - f / 8 = n + 1 := ⟨byteNum size - f / 8 - 1, by omega⟩
  rw [mapLoop, show byteNum size - start / 8 = f / 8 - start / 8 + (n + 1) by omega, nextSetBitLoop_skip hzero,
    show start / 8 + (f / 8 - start / 8) = f / 8 by omega,
    nextSetBitLoop_inside (Nat.mod_lt _ (by decide)) (.inr hbyte),
    show 8 * (n + 1) - start % 8 = 8 * byteNum size - (f / 8 * 8 + start % 8) by omega]

/-- Where the search begins right every bit is seen. -/
theorem mapLoop_iff_of_inside (h : start % 8 = 0 ∨ byteZero p (start / 8) = false) :
    (∃ r, mapLoop p size start = some r ∧ ∀ f < size, First p start f → r = f) ↔
      SeesFirst p size start := by
  have hseen : ∀ i, start ≤ i → p i = true → Seen p start i := by
    intro i hi hp
    refine ⟨hp, hi, h.imp_left fun h0 => ?_⟩
    rw [h0]
    exact Nat.zero_le _
  constructor
  · rintro ⟨r, hr, -⟩
    obtain ⟨hle, hlt, hp⟩ := nextSetBitLoop_sound (Nat.mod_lt _ (by decide)) hr
    refine ⟨⟨r, by omega, hseen r (by omega) hp⟩, fun f hf _ hpf => ⟨f, le_refl f, hseen f hf hpf⟩⟩
  · rintro ⟨⟨g, hg, hgs⟩, -⟩
    have hle := hgs.le
    obtain ⟨r, -, hr, hfirst⟩ := find?_range'_first hle (n := 8 * byteNum size - start) (by omega) hgs.bit
    refine ⟨r, (mapLoop_inside h (by omega)).trans hr, fun f _ hf => hfirst.unique hf⟩

/-- Where the search skips the byte of `start` it misses the bits before the position of `start` in the
byte of the first bit. -/
theorem mapLoop_iff_of_skip (hz : byteZero p (start / 8) = true) :
    (∃ r, mapLoop p size start = some r ∧ ∀ f < size, First p start f → r = f) ↔
      SeesFirst p size start := by
  have hseen : ∀ i, Seen p start i ↔ p i = true ∧ start ≤ i ∧ start % 8 ≤ i % 8 := by
    refine fun i => ⟨fun h => ⟨h.bit, h.le, ?_⟩, fun h => ⟨h.1, h.2.1, .inl h.2.2⟩⟩
    exact h.seen.resolve_right (by rw [hz]; decide)
  constructor
  · rintro ⟨r, hr, hfirst⟩
    obtain ⟨hle, hlt, hp⟩ := nextSetBitLoop_sound (Nat.mod_lt _ (by decide)) hr
    obtain ⟨f, hfr, hf⟩ := exists_first (show start ≤ r by omega) hp
    have hmap : f < 8 * byteNum size := by omega
    have hskip := (mapLoop_skip hz hf hmap).symm.trans hr
    have hmem := List.mem_range'_1.mp (List.mem_of_find?_eq_some hskip)
    have hbyte : f < size → r = f := fun h => hfirst f h hf
    have hnum : size ≤ 8 * byteNum size ∧ 8 * byteNum size < size + 8 := by
      unfold byteNum
      omega
    refine ⟨⟨r, by omega, (hseen r).mpr ⟨hp, by omega, by omega⟩⟩, fun i hi hlt' hpi => ?_⟩
    obtain ⟨f', hfi, hf'⟩ := exists_first hi hpi
    have hff := hf'.unique hf
    subst hff
    have hrf := hbyte (by omega)
    subst hrf
    exact ⟨r, hfi, (hseen r).mpr ⟨hp, by omega, by omega⟩⟩
  · rintro ⟨⟨g, hg, hgs⟩, hall⟩
    obtain ⟨hpg, hsg, hmod⟩ := (hseen g).mp hgs
    obtain ⟨f, hfg, hf⟩ := exists_first hsg hpg
    obtain ⟨r, hrg, hr, hfirst⟩ := find?_range'_first (k := f / 8 * 8 + start % 8)
      (n := 8 * byteNum size - (f / 8 * 8 + start % 8)) (by omega) (by omega) hpg
    refine ⟨r, (mapLoop_skip hz hf (by omega)).trans hr, fun f' hf's hf' => ?_⟩
    have hff := hf'.unique hf
    subst hff
    -- the first bit is seen, so the search meets it
    obtain ⟨g', hg', hgs'⟩ := hall f' hf'.le hf's hf'.bit
    obtain ⟨hpg', hsg', hmod'⟩ := (hseen g').mp hgs'
    have hgf : g' = f' := by
      by_contra hne
      exact absurd (hf'.before g' hsg' (by omega)) (by rw [hpg']; decide)
    subst hgf
    by_contra hne
    have hle := hf'.le
    have hr1 := hfirst.le
    rcases Nat.lt_or_gt_of_ne hne with h | h
    · exact absurd (hf'.before r (by omega) h) (by rw [hfirst.bit]; decide)
    · exact absurd (hfirst.before g' (by omega) h) (by rw [hpg']; decide)

theorem exact_nextSetBit_iff (h : start ≤ size) :
    Exact p size start (nextSetBit p size start) (nextSetBitReads p size start) ↔ SeesFirst p size start := by
  rw [exact_iff h]
  cases hz : byteZero p (start / 8) with
  | false => exact mapLoop_iff_of_inside (.inr hz)
  | true => exact mapLoop_iff_of_skip hz

/-- Both searches are exact when, and only when, they see a bit of their kind in the bytes of the map and
the first one from `start` on. -/
theorem nextBit_exact_iff (b : Nat → Bool) (size start : Nat) (h : start ≤ size) :
    (Exact b size start (nextSetBit b size start) (nextSetBitReads b size start) ↔
      SeesFirst b size start) ∧
    (Exact (fun i => !b i) size start (nextUnsetBit b size start) (nextUnsetBitReads b size start) ↔
      SeesFirst (fun i => !b i) size start) :=
  ⟨exact_nextSetBit_iff h, exact_nextSetBit_iff h⟩

/-- Bits 3 and 4 of a map of 16, from bit 2 on. -/
theorem nextBit_exact_iff_inside :
    Exact (fun i => i = 3 || i = 4) 16 2 (nextSetBit (fun i => i = 3 || i = 4) 16 2)
      (nextSetBitReads (fun i => i = 3 || i = 4) 16 2) :=
  (nextBit_exact_iff (fun i => i = 3 || i = 4) 16 2 (by decide)).1.mpr
    ⟨⟨3, by decide, by decide, by decide, by decide⟩,
      fun f hf _ hp => ⟨f, le_refl f, hp, hf, .inr (by decide)⟩⟩

/-- From bit 1 of a zero byte the search misses bit 8. -/
theorem not_nextBit_exact : ¬∀ (b : Nat → Bool) (size start : Nat), start ≤ size →
    Exact b size start (nextSetBit b size start) (nextSetBitReads b size start) ∧
    Exact (fun i => !b i) size start (nextUnsetBit b size start) (nextUnsetBitReads b size start) := by
  intro h
  have hx := (h (fun i => i = 8) 16 1 (by decide)).1
  exact absurd (hx.none_iff.mp (by decide) 8 (by decide) (by decide)) (by decide)

end BitMap
end Idmbs
