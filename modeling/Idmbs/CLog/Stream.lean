import Idmbs.CLog.Buffer
import Mathlib.Algebra.Order.BigOperators.Group.List
import Mathlib.Algebra.Order.Ring.Nat
import Mathlib.Tactic.Ring

/-!
# Idmbs.CLog.Stream

The log keeps the byte stream of its records: what every activation of `AppendCLogRecord` and every
flush preserves, and what follows for any sequence of `AppendRecord` calls.
-/

namespace Idmbs

open Bytes

variable {first : Nat → Nat} {L X : List UInt8} {m m' : Memory} {a a' i base k : Nat}

/-- At address `a` stands block `i` of the stream `L`. Where it is not empty its
`first_record_offset` is `first i`. -/
structure BlockIs (first : Nat → Nat) (L : List UInt8) (m : Memory) (a i : Nat) : Prop where
  offset : (CLogBlock.ofMemory m a).blockOffset = 512 * (i + 1)
  length : (CLogBlock.ofMemory m a).blockDataLen = (piece 504 L i).length
  first : piece 504 L i ≠ [] → (CLogBlock.ofMemory m a).firstRecordOffset = first i
  data : read m (a + 8) (piece 504 L i).length = piece 504 L i

theorem CLogBlock.ofMemory_congr (h : ∀ x < 512, m (a + x) = m' (a' + x)) :
    CLogBlock.ofMemory m a = CLogBlock.ofMemory m' a' := by
  have hint : ∀ d n, d + n ≤ 512 → ∀ x < n, m (a + d + x) = m' (a' + d + x) := by
    intro d n hd x hx
    rw [Nat.add_assoc, Nat.add_assoc]
    exact h _ (by omega)
  simp only [CLogBlock.ofMemory, clogBlockHeaderSize, clogBlockDataSize]
  rw [getInt_congr fun x hx => h x (by omega), getInt_congr (hint 4 2 (by decide)),
    getInt_congr (hint 6 2 (by decide)), read_congr (hint 8 504 (by decide))]

theorem length_piece_le : (piece 504 L i).length ≤ 504 := by
  rw [length_piece]
  omega

namespace BlockIs

theorem congr (h : BlockIs first L m a i) (hm : ∀ x < 512, m' (a' + x) = m (a + x)) :
    BlockIs first L m' a' i := by
  have he := CLogBlock.ofMemory_congr hm
  have hlen := length_piece_le (L := L) (i := i)
  refine ⟨by rw [he]; exact h.offset, by rw [he]; exact h.length, fun hp => ?_, ?_⟩
  · rw [he]
    exact h.first hp
  · refine (read_congr fun x hx => ?_).trans h.data
    rw [Nat.add_assoc, Nat.add_assoc]
    exact hm _ (by omega)

theorem append_of_full (h : BlockIs first L m a i) (hfull : 504 * (i + 1) ≤ L.length) :
    BlockIs first (L ++ X) m a i := by
  have he : piece 504 (L ++ X) i = piece 504 L i := piece_append_of_full hfull
  refine ⟨h.offset, ?_, ?_, ?_⟩
  · rw [he]
    exact h.length
  · rw [he]
    exact h.first
  · rw [he]
    exact h.data

theorem payload (h : BlockIs first L m a i) : (CLogBlock.ofMemory m a).payload = piece 504 L i := by
  have hlen := length_piece_le (L := L) (i := i)
  have htake : (read m (a + 8) 504).take (piece 504 L i).length = piece 504 L i := by
    rw [take_read hlen, h.data]
  rw [CLogBlock.payload, h.length, Int.toNat_natCast, CLogBlock.data_ofMemory, htake]

/-- A block that was just opened: zeros and its offset. -/
theorem opened (hL : L.length = 504 * i) (hi : i < 2 ^ 22 - 1) :
    BlockIs first L (setInt (zero m a 512) a 4 (512 * (i + 1))) a i := by
  have hnil : piece 504 L i = [] := by simp [piece, hL]
  have hzero : getInt (setInt (zero m a 512) a 4 (512 * (i + 1))) (a + 4) 2 = 0 := by
    rw [getInt_congr fun x hx => setInt_of_ge (by omega), getInt_zero (by omega) (by omega)]
  refine ⟨?_, ?_, fun h => absurd hnil h, by simp [hnil, Bytes.read]⟩
  · rw [CLogBlock.blockOffset_ofMemory, getInt_setInt_of_fits (by omega) (by omega)]
  · rw [hnil, CLogBlock.blockDataLen_ofMemory, hzero, List.length_nil, Int.natCast_zero]

/-- Bytes `X` put behind what the block holds. -/
theorem extend (h : BlockIs first L m a i) {d v : Nat} (hd : L.length = 504 * i + d)
    (hX : d + X.length ≤ 504) (hv : d = 0 → X ≠ [] → v = first i) (hv' : v < 2 ^ 15) :
    BlockIs first (L ++ X) (setInt (write (if d = 0 then setInt m (a + 6) 2 v else m) (a + 8 + d) X)
      (a + 4) 2 (d + X.length : Nat)) a i := by
  have hL : piece 504 L i = L.drop (504 * i) := by
    rw [piece, List.take_of_length_le]
    rw [List.length_drop]
    omega
  have hlen : (L.drop (504 * i)).length = d := by
    rw [List.length_drop]
    omega
  have hLX : piece 504 (L ++ X) i = L.drop (504 * i) ++ X := by
    rw [piece, List.drop_append_of_le_length (by omega), List.take_of_length_le]
    rw [List.length_append]
    omega
  obtain ⟨h1, h2, h3, h4⟩ := h
  rw [CLogBlock.blockOffset_ofMemory] at h1
  rw [CLogBlock.firstRecordOffset_ofMemory] at h3
  rw [hL] at h3 h4
  rw [hlen] at h4
  set m1 := if d = 0 then setInt m (a + 6) 2 v else m with hm1
  have hkeep : ∀ x, x < a + 6 ∨ a + 8 ≤ x → m1 x = m x := by
    intro x hx
    rw [hm1]
    split
    · rcases hx with hx | hx
      · exact setInt_of_lt hx
      · exact setInt_of_ge hx
    · rfl
  refine ⟨?_, ?_, ?_, ?_⟩
  · rw [CLogBlock.blockOffset_ofMemory, ← h1]
    refine getInt_congr fun x hx => ?_
    rw [setInt_of_lt (by omega), write_of_lt (by omega), hkeep _ (.inl (by omega))]
  · rw [CLogBlock.blockDataLen_ofMemory, getInt_setInt_of_fits (by omega) (by omega), hLX,
      List.length_append, hlen]
  · intro hne
    have hread : getInt (setInt (write m1 (a + 8 + d) X) (a + 4) 2 (d + X.length : Nat)) (a + 6) 2 =
        getInt m1 (a + 6) 2 :=
      getInt_congr fun x hx => by rw [setInt_of_ge (by omega), write_of_lt (by omega)]
    rw [CLogBlock.firstRecordOffset_ofMemory, hread]
    by_cases h0 : d = 0
    · have hX' : X ≠ [] := by
        rintro rfl
        rw [hLX, List.append_nil, ← List.length_pos_iff, hlen] at hne
        omega
      rw [hm1, if_pos h0, getInt_setInt_of_fits (by omega) (by omega), hv h0 hX']
    · rw [hm1, if_neg h0]
      exact h3 (List.ne_nil_of_length_pos (by omega))
  · rw [hLX, List.length_append, hlen, read_add]
    refine congrArg₂ (· ++ ·) ?_ ?_
    · rw [← h4]
      refine read_congr fun x hx => ?_
      rw [setInt_of_ge (by omega), write_of_lt (by omega), hkeep _ (.inr (by omega))]
    · refine (read_congr fun x hx => setInt_of_ge (by omega)).trans read_write

end BlockIs

namespace CLogBuffer

variable {b : CLogBuffer} {r : CLogRecord} {offset n v : Nat}

theorem dataLen_setFirstRecordOffset :
    (b.setFirstRecordOffset v).clogBlock.blockDataLen = b.clogBlock.blockDataLen := by
  simp only [clogBlock, setFirstRecordOffset, CLogBlock.blockDataLen_ofMemory]
  exact getInt_congr fun x hx => setInt_of_lt (by omega)

theorem buffer_copyRecord (henc : r.Encoded) (hoff : offset + n ≤ r.clogRecordLen) :
    (b.copyRecord r offset n).buffer =
      setInt (write b.buffer b.writeOffset ((r.encoding.drop offset).take n)) (b.writeBlockOffset + 4) 2
        (b.clogBlock.blockDataLen + n) := by
  simp only [copyRecord, CLogRecord.copyRecordTo_spec henc hoff]

theorem buffer_fillBlock (henc : r.Encoded) (hoff : offset + n ≤ r.clogRecordLen) {d : Nat}
    (hd : b.clogBlock.blockDataLen = d) :
    (b.fillBlock r offset n v).buffer =
      setInt (write (if d = 0 then setInt b.buffer (b.writeBlockOffset + 6) 2 v else b.buffer)
        b.writeOffset ((r.encoding.drop offset).take n)) (b.writeBlockOffset + 4) 2 (d + n : Nat) := by
  rw [fillBlock, buffer_copyRecord henc hoff]
  by_cases h0 : d = 0
  · have hz : b.clogBlock.blockDataLen = 0 := by rw [hd, h0]; rfl
    rw [if_pos hz, if_pos h0, dataLen_setFirstRecordOffset, hd, Nat.cast_add]
    rfl
  · have hz : b.clogBlock.blockDataLen ≠ 0 := by rw [hd]; exact_mod_cast h0
    rw [if_neg hz, if_neg h0, hd, Nat.cast_add]

theorem current_fillBlock : (b.fillBlock r offset n v).currentBlockOffset = b.currentBlockOffset := by
  unfold fillBlock
  split <;> rfl

theorem block_fillBlock : (b.fillBlock r offset n v).writeBlockOffset = b.writeBlockOffset := by
  unfold fillBlock
  split <;> rfl

theorem cursor_fillBlock : (b.fillBlock r offset n v).writeOffset = b.writeOffset + n := by
  unfold fillBlock
  split <;> rfl

/-- An activation that finds `d` bytes in its block. -/
theorem appendStep_eq (r : CLogRecord) (offset : Nat) (hfull : ¬clogBufferSize ≤ b.writeOffset)
    {d : Nat} (hd504 : d ≤ 504) :
    b.firstBlock.clogBlock.blockDataLen = d →
    b.appendStep r offset =
      if d = 504 then (none, b.firstBlock.nextBlock, offset)
      else if r.clogRecordLen - offset ≤ 504 - d then
        (some .success, b.firstBlock.fillBlock r offset (r.clogRecordLen - offset)
          (8 + if offset = 0 then 0 else r.clogRecordLen - offset), offset + (r.clogRecordLen - offset))
      else (none, b.firstBlock.fillBlock r offset (504 - d) 512, offset + (504 - d)) := by
  have e0 : (clogBlockDataSize : Int) = 504 := rfl
  have e1 : (d : Int) = clogBlockDataSize ↔ d = 504 := by omega
  have e2 : ((r.clogRecordLen - offset : Nat) : Int) ≤ clogBlockDataSize - d ↔
      r.clogRecordLen - offset ≤ 504 - d := by omega
  have e3 : ((clogBlockDataSize : Int) - d).toNat = 504 - d := by omega
  intro hd
  rw [appendStep, if_neg hfull]
  simp only [hd, e1, e2, e3]
  rfl

end CLogBuffer

/-- `first_record_offset` of a block in which a record of length `len` goes on at offset `off`. -/
def firstOffset (off len : Nat) : Nat :=
  if len - off ≤ 504 then 8 + if off = 0 then 0 else len - off else 512

/-- `first` is right for the blocks that begin in the record at position `pos` of the stream. -/
def Marks (first : Nat → Nat) (pos len : Nat) : Prop :=
  ∀ i, pos ≤ 504 * i → 504 * i < pos + len → first i = firstOffset (504 * i - pos) len

/-- `first` is right for the blocks that begin in records of the lengths `lens`, the first of which
starts at position `pos`. -/
def MarksAll (first : Nat → Nat) : Nat → List Nat → Prop
  | _, [] => True
  | pos, len :: lens => Marks first pos len ∧ MarksAll first (pos + len) lens

/-- The `first_record_offset` of a block that begins at position `pos` of the stream of records of
the lengths `lens`. -/
def firstAt : List Nat → Nat → Nat
  | [], _ => 8
  | len :: lens, pos => if pos < len then firstOffset pos len else firstAt lens (pos - len)

theorem firstAt_marks : ∀ (lens : List Nat) {first : Nat → Nat} {pos : Nat},
    (∀ i, pos ≤ 504 * i → first i = firstAt lens (504 * i - pos)) → MarksAll first pos lens := by
  intro lens
  induction lens with
  | nil => exact fun _ => trivial
  | cons len lens ih =>
    intro first pos h
    refine ⟨fun i hi hlt => ?_, ih fun i hi => ?_⟩
    · rw [h i hi, firstAt, if_pos (by omega)]
    · rw [h i (by omega), firstAt, if_neg (by omega), Nat.sub_sub]

theorem MarksAll.append {first : Nat → Nat} : ∀ {lens lens' : List Nat} {pos : Nat},
    MarksAll first pos (lens ++ lens') → MarksAll first pos lens ∧ MarksAll first (pos + lens.sum) lens' := by
  intro lens
  induction lens with
  | nil =>
    intro lens' pos h
    exact ⟨trivial, by simpa using h⟩
  | cons len lens ih =>
    intro lens' pos h
    obtain ⟨h1, h2⟩ := ih h.2
    refine ⟨⟨h.1, h1⟩, ?_⟩
    rwa [List.sum_cons, ← Nat.add_assoc]

/-- The log holds `L`: `base` blocks are on file and no longer in the buffer, `k` in the buffer. -/
structure Logged (first : Nat → Nat) (L : List UInt8) (base k : Nat) (b : CLogBuffer)
    (f : PersistFile) : Prop where
  onFile : ∀ i < base, BlockIs first L f.bytes (512 * (i + 1)) i
  buffered : ∀ i < k, BlockIs first L b.buffer (512 * i) (base + i)
  current : b.currentBlockOffset = 512 * (base + k)
  block : b.writeBlockOffset = 512 * (k - 1)
  cursor : b.writeOffset =
    if k = 0 then 0 else 512 * (k - 1) + 8 + (L.length - 504 * (base + k - 1))
  lower : 504 * (base + (k - 1)) ≤ L.length
  upper : L.length ≤ 504 * (base + k)
  fits : k ≤ 8192
  below : base + k < 2 ^ 22
  size : f.size = 512 * (base + 1) ∨ 0 < k ∧ f.size = 512 * (base + 2) ∧
    (CLogBlock.ofMemory f.bytes (512 * (base + 1))).blockOffset = 512 * (base + 1)
  blank : k = 0 → ∀ x < 512, b.buffer x = 0

namespace Logged

variable {b : CLogBuffer} {f : PersistFile}

theorem length_last (h : Logged first L base k b f) (hk : 0 < k) :
    (piece 504 L (base + k - 1)).length = L.length - 504 * (base + k - 1) := by
  have h1 := h.upper
  rw [length_piece]
  omega

theorem last (h : Logged first L base k b f) (hk : 0 < k) :
    BlockIs first L b.buffer b.writeBlockOffset (base + k - 1) := by
  have h1 := h.buffered (k - 1) (by omega)
  rw [h.block]
  rwa [show base + (k - 1) = base + k - 1 by omega] at h1

/-- The length field of the block that is written to. -/
theorem dataLen (h : Logged first L base k b f) (hk : 0 < k) :
    b.clogBlock.blockDataLen = (L.length - 504 * (base + k - 1) : Nat) := by
  rw [← h.length_last hk]
  exact (h.last hk).length

/-- A full log gets one more block. -/
theorem openBlock (h : Logged first L base k b f) (hfull : L.length = 504 * (base + k)) (hk : k < 8192)
    (hbelow : base + k + 1 < 2 ^ 22) :
    Logged first L base (k + 1)
      { { b with writeBlockOffset := 512 * k }.openBlock with writeOffset := 512 * k + 8 } f := by
  have hoff : (b.currentBlockOffset + 512).bmod (2 ^ 32) = 512 * ((base + k : Nat) + 1) := by
    rw [h.current, Int.bmod_eq_of_le_mul_two (by omega) (by omega)]
    push_cast
    omega
  constructor
  case onFile => exact h.onFile
  case buffered =>
    intro i hi
    simp only [CLogBuffer.openBlock, clogBlockSize, Nat.cast_ofNat, hoff]
    by_cases hik : i = k
    · subst hik
      exact BlockIs.opened hfull (by omega)
    · refine (h.buffered i (by omega)).congr fun x hx => ?_
      rw [setInt_of_lt (by omega), zero_of_lt (by omega)]
  case current =>
    simp only [CLogBuffer.openBlock, clogBlockSize, Nat.cast_ofNat, hoff]
    push_cast
    omega
  case block => rfl
  case cursor =>
    simp only [Nat.succ_ne_zero, if_false, Nat.add_sub_cancel]
    omega
  case lower => omega
  case upper => omega
  case fits => exact hk
  case below => exact hbelow
  case size =>
    rcases h.size with hs | ⟨-, hs⟩
    · exact .inl hs
    · exact .inr ⟨Nat.succ_pos k, hs⟩
  case blank => exact nofun

/-- The next `n` bytes of a record go to the last block. -/
theorem fillBlock (h : Logged first L base k b f) (hk : 0 < k) {r : CLogRecord} (henc : r.Encoded)
    (offset n v : Nat) (hn : L.length + n ≤ 504 * (base + k)) (hoff : offset + n ≤ r.clogRecordLen)
    (hv : L.length = 504 * (base + k - 1) → 0 < n → v = first (base + k - 1)) (hv' : v < 2 ^ 15) :
    Logged first (L ++ (r.encoding.drop offset).take n) base k
      (b.fillBlock r offset n v) f := by
  have hlower := h.lower
  have hupper := h.upper
  obtain ⟨d, hd⟩ : ∃ d, L.length = 504 * (base + k - 1) + d :=
    ⟨L.length - 504 * (base + k - 1), by omega⟩
  have hX : ((r.encoding.drop offset).take n).length = n := by
    rw [List.length_take, List.length_drop, henc.length]
    omega
  have hlast := h.last hk
  have hblock := h.block
  have hwo : b.writeOffset = b.writeBlockOffset + 8 + d := by
    rw [h.cursor, h.block, if_neg (by omega)]
    omega
  have hfit : d + n ≤ 504 := by omega
  have hpos : (r.encoding.drop offset).take n ≠ [] → 0 < n := by
    intro hne
    have := List.length_pos_of_ne_nil hne
    rwa [hX] at this
  have hempty : d = 0 → L.length = 504 * (base + k - 1) := by
    rintro rfl
    exact hd
  have hsub : L.length - 504 * (base + k - 1) = d := by omega
  have hlen : (L ++ (r.encoding.drop offset).take n).length = L.length + n := by
    rw [List.length_append, hX]
  have hwrite : b.writeOffset + n =
      if k = 0 then 0 else 512 * (k - 1) + 8 + (L.length + n - 504 * (base + k - 1)) := by
    rw [if_neg (by omega), hwo, h.block]
    omega
  have hmem := CLogBuffer.buffer_fillBlock (n := n) (v := v) henc hoff
    ((h.dataLen hk).trans (by rw [hsub]))
  rw [hwo] at hmem
  have hext := hlast.extend hd (by rwa [hX]) (fun h0 hne => hv (hempty h0) (hpos hne)) hv'
  rw [hX, ← hmem] at hext
  have hold : ∀ x, x < b.writeBlockOffset →
      (b.fillBlock r offset n v).buffer x = b.buffer x := by
    intro x hx
    rw [hmem, setInt_of_lt (by omega), write_of_lt (by omega)]
    split
    · exact setInt_of_lt (by omega)
    · rfl
  constructor
  case onFile => exact fun i hi => (h.onFile i hi).append_of_full (by omega)
  case buffered =>
    intro i hi
    by_cases hik : i = k - 1
    · subst hik
      rw [h.block, show base + k - 1 = base + (k - 1) by omega] at hext
      exact hext
    · exact ((h.buffered i hi).append_of_full (by omega)).congr fun x hx => hold _ (by omega)
  case current => exact CLogBuffer.current_fillBlock.trans h.current
  case block => exact CLogBuffer.block_fillBlock.trans h.block
  case cursor =>
    rw [CLogBuffer.cursor_fillBlock, hlen]
    exact hwrite
  case lower =>
    rw [hlen]
    omega
  case upper =>
    rw [hlen]
    exact hn
  case fits => exact h.fits
  case below => exact h.below
  case size => exact h.size
  case blank => exact fun h0 => absurd h0 hk.ne'

theorem firstBlock (h : Logged first L base k b f) (hbelow : base + 1 < 2 ^ 22) :
    ∃ k', 0 < k' ∧ k ≤ k' ∧ k' ≤ max k 1 ∧
      Logged first L base k' b.firstBlock f := by
  have hcur := h.cursor
  have hblk := h.block
  rcases Nat.eq_zero_or_pos k with rfl | hk
  · have hL : L.length = 504 * (base + 0) := le_antisymm h.upper h.lower
    have h1 := h.openBlock hL (by decide) hbelow
    refine ⟨1, Nat.one_pos, Nat.zero_le _, le_max_right _ _, ?_⟩
    rw [CLogBuffer.firstBlock, if_pos ⟨by simpa using hcur, by simpa using hblk⟩]
    have hself : { b with writeBlockOffset := 512 * 0 } = b := by
      rw [show 512 * 0 = b.writeBlockOffset by simpa using hblk.symm]
    rwa [hself] at h1
  · refine ⟨k, hk, le_rfl, le_max_left _ _, ?_⟩
    rw [if_neg (by omega)] at hcur
    rwa [CLogBuffer.firstBlock, if_neg (by omega)]

theorem nextBlock (h : Logged first L base k b f) (hk : 0 < k) (hfull : L.length = 504 * (base + k))
    (hfits : k < 8192) (hbelow : base + k + 1 < 2 ^ 22) :
    Logged first L base (k + 1) b.nextBlock f := by
  have h1 := h.openBlock hfull hfits hbelow
  have hcur := h.cursor
  have hblk := h.block
  rw [if_neg (by omega)] at hcur
  have e1 : b.writeBlockOffset + 512 = 512 * k := by omega
  have e2 : b.writeOffset + 8 = 512 * k + 8 := by omega
  rw [CLogBuffer.nextBlock, clogBlockSize, clogBlockHeaderSize, e1, e2]
  exact h1

variable {D : List UInt8} {r : CLogRecord} {off : Nat}

theorem append_take (n : Nat) :
    D ++ r.encoding.take off ++ (r.encoding.drop off).take n = D ++ r.encoding.take (off + n) := by
  rw [List.append_assoc, List.take_add]

/-- One activation of `AppendCLogRecord`, `off` bytes of the record being in the log. -/
theorem appendStep (h : Logged first (D ++ r.encoding.take off) base k b f) (henc : r.Encoded)
    (hoff : off < r.clogRecordLen) (hmarks : Marks first D.length r.clogRecordLen)
    (hbound : D.length + r.clogRecordLen ≤ 504 * (2 ^ 22 - 1)) :
    ∃ re b' off' k', b.appendStep r off = (re, b', off') ∧
      Logged first (D ++ r.encoding.take off') base k' b' f ∧
      ((re = some .logBufFull ∧ off' < r.clogRecordLen ∧ clogBufferSize ≤ b'.writeOffset) ∨
        (re = some .success ∧ off' = r.clogRecordLen ∧ 0 < k' ∧
          504 * (base + k' - 1) < D.length + r.clogRecordLen) ∨
        (re = none ∧ off' < r.clogRecordLen ∧ b.writeOffset < clogBufferSize ∧
          b.writeOffset < b'.writeOffset)) := by
  have hL : (D ++ r.encoding.take off).length = D.length + off := by
    rw [List.length_append, List.length_take, henc.length, Nat.min_eq_left hoff.le]
  by_cases hfull : clogBufferSize ≤ b.writeOffset
  · exact ⟨_, _, _, k, if_pos hfull, h, .inl ⟨rfl, hoff, hfull⟩⟩
  have hlow := h.lower
  have hcur := h.cursor
  obtain ⟨k1, hk1, hkk, hmax, h1⟩ := h.firstBlock (by omega)
  have hlow1 := h1.lower
  have hup1 := h1.upper
  have hcur1 := h1.cursor
  rw [if_neg (by omega)] at hcur1
  have hwo : b.writeOffset ≤ b.firstBlock.writeOffset := by
    rw [hcur, hcur1]
    split <;> omega
  obtain ⟨d, hd⟩ : ∃ d, D.length + off = 504 * (base + k1 - 1) + d :=
    ⟨D.length + off - 504 * (base + k1 - 1), by omega⟩
  have hstep := CLogBuffer.appendStep_eq r off hfull (show d ≤ 504 by omega)
    ((h1.dataLen hk1).trans (by rw [hL, hd, Nat.add_sub_cancel_left]))
  have hsize : clogBufferSize = 512 * 8192 := rfl
  have hfirst : (D ++ r.encoding.take off).length = 504 * (base + k1 - 1) → off < r.clogRecordLen →
      first (base + k1 - 1) = firstOffset off r.clogRecordLen := by
    intro hat hlt
    rw [hmarks _ (by omega) (by omega), ← hat, hL, Nat.add_sub_cancel_left]
  by_cases hd504 : d = 504
  · rw [if_pos hd504] at hstep
    have hk8 : k1 < 8192 := by
      rcases Nat.eq_zero_or_pos k with rfl | hk
      · omega
      · rw [if_neg (by omega), hL] at hcur
        omega
    have h2 := h1.nextBlock hk1 (by omega) hk8 (by omega)
    refine ⟨_, _, _, _, hstep, h2, .inr (.inr ⟨rfl, hoff, Nat.not_le.mp hfull, ?_⟩)⟩
    exact lt_of_le_of_lt hwo (Nat.lt_add_of_pos_right (by decide))
  by_cases hfit : r.clogRecordLen - off ≤ 504 - d
  · rw [if_neg hd504, if_pos hfit] at hstep
    have h2 := h1.fillBlock hk1 henc off (r.clogRecordLen - off)
      (8 + if off = 0 then 0 else r.clogRecordLen - off) (by omega) (by omega) ?_ ?_
    · rw [append_take] at h2
      exact ⟨_, _, _, _, hstep, h2, .inr (.inl ⟨rfl, by omega, hk1, by omega⟩)⟩
    · intro hat hpos
      have hle : r.clogRecordLen - off ≤ 504 := by omega
      exact ((hfirst hat (by omega)).trans (if_pos hle)).symm
    · split <;> omega
  · rw [if_neg hd504, if_neg hfit] at hstep
    have h2 := h1.fillBlock hk1 henc off (504 - d) 512 (by omega) (by omega) ?_ (by decide)
    · rw [append_take] at h2
      refine ⟨_, _, _, _, hstep, h2, .inr (.inr ⟨rfl, by omega, Nat.not_le.mp hfull, ?_⟩)⟩
      rw [CLogBuffer.cursor_fillBlock]
      omega
    · intro hat hpos
      rw [hfirst hat (by omega), firstOffset, if_neg (by omega)]

/-- `AppendCLogRecord` from any offset on; the log stays whole after every activation. -/
theorem appendLoop (henc : r.Encoded) (hmarks : Marks first D.length r.clogRecordLen)
    (hbound : D.length + r.clogRecordLen ≤ 504 * (2 ^ 22 - 1)) :
    ∀ {fuel : Nat} {b : CLogBuffer} {k off : Nat}, clogBufferSize - b.writeOffset < fuel →
    Logged first (D ++ r.encoding.take off) base k b f → off < r.clogRecordLen →
    (∃ re b' off' k', CLogBuffer.appendLoop fuel b r off = some (re, b', off') ∧
      Logged first (D ++ r.encoding.take off') base k' b' f ∧
      ((re = .success ∧ off' = r.clogRecordLen ∧ 0 < k' ∧
          504 * (base + k' - 1) < D.length + r.clogRecordLen) ∨
        (re = .logBufFull ∧ off' < r.clogRecordLen ∧ clogBufferSize ≤ b'.writeOffset))) ∧
    ∀ x ∈ CLogBuffer.appendMoments fuel b r off,
      ∃ k', Logged first (D ++ r.encoding.take x.2) base k' x.1 f := by
  intro fuel
  induction fuel with
  | zero =>
    intro b k off hfuel
    exact absurd hfuel (Nat.not_lt_zero _)
  | succ fuel ih =>
    intro b k off hfuel h hoff
    obtain ⟨re, b1, off1, k1, hstep, h1, hcase⟩ := h.appendStep henc hoff hmarks hbound
    rcases hcase with ⟨rfl, hoff1, hfull⟩ | ⟨rfl, hend⟩ | ⟨rfl, hoff1, hroom, hlt⟩
    · rw [CLogBuffer.appendLoop, CLogBuffer.appendMoments, hstep]
      refine ⟨⟨_, _, _, _, rfl, h1, .inr ⟨rfl, hoff1, hfull⟩⟩, ?_⟩
      simpa using ⟨_, h1⟩
    · rw [CLogBuffer.appendLoop, CLogBuffer.appendMoments, hstep]
      refine ⟨⟨_, _, _, _, rfl, h1, .inl ⟨rfl, hend⟩⟩, ?_⟩
      simpa using ⟨_, h1⟩
    · obtain ⟨hend, hmom⟩ := ih (by omega) h1 hoff1
      rw [CLogBuffer.appendLoop, CLogBuffer.appendMoments, hstep]
      refine ⟨hend, ?_⟩
      intro x hx
      rcases List.mem_cons.mp hx with rfl | hx
      · exact ⟨_, h1⟩
      · exact hmom x hx

/-- What `FlushBuffer` writes: afterwards every block is on file. -/
theorem writeAt (h : Logged first L base k b f) (hk : 0 < k) {f' : PersistFile}
    (hf : f' = (f.writeAt (CLogBlock.ofMemory b.buffer 0).blockOffset (read b.buffer 0 (512 * k))).2) :
    f'.size = 512 * (base + k + 1) ∧ ∀ i < base + k, BlockIs first L f'.bytes (512 * (i + 1)) i := by
  have hoff : (CLogBlock.ofMemory b.buffer 0).blockOffset = ((512 * (base + 1) : Nat) : Int) := by
    have := (h.buffered 0 hk).offset
    rw [Nat.mul_zero, Nat.add_zero] at this
    rw [this]
    push_cast
    rfl
  have hsize : 512 * (base + 1) ≤ f.size := by
    rcases h.size with hs | ⟨-, hs, -⟩ <;> omega
  rw [hoff, PersistFile.writeAt, if_neg (by omega), Int.toNat_natCast, length_read] at hf
  subst hf
  constructor
  · have := h.size
    simp only
    omega
  · intro i hi
    by_cases hib : i < base
    · refine (h.onFile i hib).congr fun x hx => ?_
      simp only
      rw [write_of_lt (by omega), zero_of_lt (by omega)]
    · obtain ⟨j, rfl⟩ := Nat.exists_eq_add_of_le (Nat.not_lt.mp hib)
      refine (h.buffered j (by omega)).congr fun x hx => ?_
      have hx' : 512 * (base + j + 1) + x = 512 * (base + 1) + (512 * j + x) := by omega
      have hlt : 512 * j + x < (read b.buffer 0 (512 * k)).length := by
        rw [length_read]
        omega
      simp only
      rw [hx', write_at hlt]
      simp [Bytes.read]

/-- `FlushBuffer`: at most the last block stays in the buffer. -/
theorem flushBuffer (h : Logged first L base k b f) (hk : 0 < k) :
    ∃ base' k', base' + k' = base + k ∧
      Logged first L base' k' (b.flushBuffer f).1 (b.flushBuffer f).2 ∧
      (clogBufferSize ≤ b.writeOffset → k' = 0) ∧
      (b.flushBuffer f).2.size = 512 * (base + k + 1) ∧
      ∀ i < base + k, BlockIs first L (b.flushBuffer f).2.bytes (512 * (i + 1)) i := by
  have hlow := h.lower
  have hup := h.upper
  have hfits := h.fits
  have hcur := h.cursor
  rw [if_neg (by omega)] at hcur
  have hblk := h.block
  have hk512 : b.writeBlockOffset + clogBlockSize = 512 * k := by
    rw [hblk, clogBlockSize]
    omega
  obtain ⟨d, hd⟩ : ∃ d, L.length = 504 * (base + k - 1) + d :=
    ⟨L.length - 504 * (base + k - 1), by omega⟩
  have hsub : L.length - 504 * (base + k - 1) = d := by omega
  have hreset : ∀ f' : PersistFile, L.length = 504 * (base + k) → f'.size = 512 * (base + k + 1) →
      (∀ i < base + k, BlockIs first L f'.bytes (512 * (i + 1)) i) →
      Logged first L (base + k) 0 b.reset f' := by
    intro f' hfull hs hi
    exact ⟨hi, fun i hi => absurd hi (Nat.not_lt_zero i), h.current, rfl, rfl, le_of_eq hfull.symm,
      le_of_eq hfull, Nat.zero_le _, h.below, .inl hs, fun _ x hx =>
        zero_at (Nat.zero_le x) (lt_of_lt_of_le hx (by decide))⟩
  obtain ⟨f', hf'⟩ : ∃ f', f' = (f.writeAt (CLogBlock.ofMemory b.buffer 0).blockOffset
    (read b.buffer 0 (512 * k))).2 := ⟨_, rfl⟩
  obtain ⟨hs, hi⟩ := h.writeAt hk hf'
  by_cases hsize : b.writeOffset = clogBufferSize
  · have hk8 : 512 * k = clogBufferSize ∧ d = 504 := by
      rw [hcur, clogBufferSize] at hsize
      rw [clogBufferSize]
      omega
    have hflush : b.flushBuffer f = (b.reset, f') := by
      rw [CLogBuffer.flushBuffer, if_pos hsize, hf', hk8.1]
    rw [hflush]
    exact ⟨base + k, 0, rfl, hreset _ (by omega) hs hi, fun _ => rfl, hs, hi⟩
  have hnotfull : ¬clogBufferSize ≤ b.writeOffset := by
    intro hle
    refine hsize (le_antisymm ?_ hle)
    rw [hcur, clogBufferSize]
    omega
  by_cases hd504 : d = 504
  · have hfull : b.clogBlock.blockDataLen = (clogBlockDataSize : Int) := by
      rw [h.dataLen hk, hsub, hd504]
      rfl
    have hflush : b.flushBuffer f = (b.reset, f') := by
      rw [CLogBuffer.flushBuffer, if_neg hsize, if_pos hfull, hf', hk512]
    rw [hflush]
    exact ⟨base + k, 0, rfl, hreset _ (by clear hfull; omega) hs hi, fun _ => rfl, hs, hi⟩
  have hmoves : k ≠ 1 → b.writeBlockOffset ≠ 0 := by
    intro hone
    omega
  have hpart : ¬b.clogBlock.blockDataLen = (clogBlockDataSize : Int) := by
    rw [h.dataLen hk, hsub]
    exact_mod_cast hd504
  by_cases hone : k = 1
  · have hflush : b.flushBuffer f = (b, f') := by
      rw [CLogBuffer.flushBuffer, if_neg hsize, if_neg hpart, if_neg (by rw [hblk, hone]; decide), hf',
        hk512]
    rw [hflush]
    clear hpart
    refine ⟨base, k, rfl, ⟨fun i hib => hi i (by omega), h.buffered, h.current, h.block, h.cursor,
      h.lower, h.upper, h.fits, h.below, .inr ⟨hk, ?_, ?_⟩, h.blank⟩,
      fun hle => absurd hle hnotfull, hs, hi⟩
    · rw [hs, hone]
    · exact (hi base (by omega)).offset
  · have hcursor : (b.clogBlock.blockDataLen + clogBlockHeaderSize).toNat = 8 + d := by
      rw [h.dataLen hk, hsub, clogBlockHeaderSize]
      omega
    have hflush : b.flushBuffer f = ({ b with
        writeOffset := 8 + d
        writeBlockOffset := 0
        buffer := zero (write b.buffer 0 (read b.buffer b.writeBlockOffset 512)) 512
          (clogBufferSize - 512) }, f') := by
      rw [CLogBuffer.flushBuffer, if_neg hsize, if_neg hpart, if_pos (hmoves hone), hf', hk512, hcursor]
      rfl
    rw [hflush]
    clear hpart hflush hcursor
    refine ⟨base + k - 1, 1, by omega, ⟨fun i hib => hi i (by omega), ?_, ?_, rfl, ?_, ?_, ?_,
      by decide, ?_, ?_, fun h0 => absurd h0 Nat.one_ne_zero⟩, fun hle => absurd hle hnotfull, hs, hi⟩
    · intro i hi1
      obtain rfl : i = 0 := by omega
      refine (h.last hk).congr fun x hx => ?_
      simp only
      rw [zero_of_lt (by omega), Nat.mul_zero, write_at (by simpa using hx)]
      simp [Bytes.read]
    · have := h.current
      simp only
      omega
    · have hbase : base + k - 1 + 1 - 1 = base + k - 1 := by omega
      rw [if_neg (by decide), hd, hbase, Nat.add_sub_cancel_left]
    · omega
    · omega
    · have := h.below
      omega
    · refine .inr ⟨Nat.one_pos, ?_, ?_⟩
      · rw [hs]
        omega
      · exact (hi _ (by omega)).offset

theorem bufferBlocks_eq (h : Logged first L base k b f) :
    CLogManager.bufferBlocks ⟨b, f⟩ = (List.range k).map fun i => .ofMemory b.buffer (512 * i) := by
  have hcur := h.cursor
  rcases Nat.eq_zero_or_pos k with rfl | hk
  · rw [CLogManager.bufferBlocks, if_pos (by simpa using hcur), List.range_zero, List.map_nil]
  · rw [if_neg (by omega)] at hcur
    have hblocks : 512 * (k - 1) / 512 + 1 = k := by omega
    have hpos : ¬b.writeOffset = 0 := by omega
    simp only [CLogManager.bufferBlocks, if_neg hpos, h.block, clogBlockSize, hblocks]

theorem logBlocks_eq (h : Logged first L base k b f) :
    CLogManager.logBlocks ⟨b, f⟩ =
      ((List.range base).map fun i => .ofMemory f.bytes (512 * (i + 1))) ++
        (List.range k).map fun i => .ofMemory b.buffer (512 * i) := by
  have hkeep : ∀ i < base, ((List.range k).map fun i => CLogBlock.ofMemory b.buffer (512 * i)).all
      (fun c' => c'.blockOffset != (CLogBlock.ofMemory f.bytes (512 * (i + 1))).blockOffset) = true := by
    intro i hi
    rw [List.all_map, List.all_eq_true]
    intro j hj
    have hj' := (h.buffered j (List.mem_range.mp hj)).offset
    have hi' := (h.onFile i hi).offset
    rw [Function.comp_apply, hj', hi', bne_iff_ne]
    clear hj' hi'
    omega
  have hfilter : ((List.range base).map fun i => CLogBlock.ofMemory f.bytes (512 * (i + 1))).filter
      (fun c => ((List.range k).map fun i => CLogBlock.ofMemory b.buffer (512 * i)).all fun c' =>
        c'.blockOffset != c.blockOffset) =
      (List.range base).map fun i => CLogBlock.ofMemory f.bytes (512 * (i + 1)) := by
    refine List.filter_eq_self.mpr fun c hc => ?_
    obtain ⟨i, hi, rfl⟩ := List.mem_map.mp hc
    exact hkeep i (List.mem_range.mp hi)
  rw [CLogManager.logBlocks, h.bufferBlocks_eq]
  refine congrArg (· ++ _) ?_
  rcases h.size with hs | ⟨hk, hs, hoff⟩
  · have hn : (512 * (base + 1) - 512) / 512 = base := by omega
    simp only [CLogManager.fileBlocks, hs, clogBlockSize, hn]
    exact hfilter
  · have hn : (512 * (base + 2) - 512) / 512 = base + 1 := by omega
    simp only [CLogManager.fileBlocks, hs, clogBlockSize, hn, List.range_succ, List.map_append,
      List.filter_append, List.map_singleton]
    have hdrop : ((List.range k).map fun i => CLogBlock.ofMemory b.buffer (512 * i)).all
        (fun c' => c'.blockOffset != (CLogBlock.ofMemory f.bytes (512 * (base + 1))).blockOffset) =
        false := by
      rw [List.all_map, List.all_eq_false]
      refine ⟨0, List.mem_range.mpr hk, ?_⟩
      have h0 := (h.buffered 0 hk).offset
      rw [Function.comp_apply, h0, hoff]
      simp
    rw [hfilter, List.filter_singleton, hdrop]
    simp

theorem exists_blocks (h : Logged first L base k b f) :
    ∃ block : Nat → CLogBlock, CLogManager.logBlocks ⟨b, f⟩ = (List.range (base + k)).map block ∧
      ∀ i < base + k, (block i).blockOffset = 512 * (i + 1) ∧
        (block i).blockDataLen = (piece 504 L i).length ∧ (block i).payload = piece 504 L i ∧
          (piece 504 L i ≠ [] → (block i).firstRecordOffset = first i) := by
  refine ⟨fun i => if i < base then .ofMemory f.bytes (512 * (i + 1))
    else .ofMemory b.buffer (512 * (i - base)), ?_, ?_⟩
  · rw [h.logBlocks_eq, List.range_add, List.map_append, List.map_map]
    refine congrArg₂ (· ++ ·) (List.map_congr_left fun i hi => ?_) (List.map_congr_left fun i hi => ?_)
    · rw [if_pos (List.mem_range.mp hi)]
    · simp
  · intro i hi
    by_cases hib : i < base
    · have hb := h.onFile i hib
      simp only [if_pos hib]
      exact ⟨hb.offset, hb.length, hb.payload, hb.first⟩
    · obtain ⟨j, rfl⟩ := Nat.exists_eq_add_of_le (Nat.not_lt.mp hib)
      have hb := h.buffered j (by omega)
      simp only [if_neg hib, Nat.add_sub_cancel_left]
      exact ⟨hb.offset, hb.length, hb.payload, hb.first⟩

theorem intact (h : Logged first L base k b f) : CLogManager.Intact ⟨b, f⟩ L := by
  obtain ⟨block, hblocks, hspec⟩ := h.exists_blocks
  have hlow := h.lower
  constructor
  case offsets =>
    rw [hblocks, List.map_map, List.length_map, List.length_range]
    refine List.map_congr_left fun i hi => ?_
    exact (hspec i (List.mem_range.mp hi)).1
  case lengths =>
    intro c hc
    rw [hblocks] at hc
    obtain ⟨i, hi, rfl⟩ := List.mem_map.mp hc
    have hle := length_piece_le (L := L) (i := i)
    rw [(hspec i (List.mem_range.mp hi)).2.1, clogBlockDataSize]
    omega
  case full =>
    intro c hc
    rw [hblocks, ← List.map_dropLast] at hc
    obtain ⟨i, hi, rfl⟩ := List.mem_map.mp hc
    have hi' : i < base + k - 1 := by
      rcases hn : base + k with _ | n
      · simp [hn] at hi
      · rw [hn, List.range_succ, List.dropLast_concat] at hi
        exact List.mem_range.mp hi
    rw [(hspec i (by omega)).2.1, length_piece, Nat.min_eq_left (by omega)]
    rfl
  case bytes =>
    rw [hblocks, List.flatMap_map]
    have hpieces : (List.range (base + k)).flatMap (fun i => (block i).payload) =
        (List.range (base + k)).flatMap (piece 504 L) := by
      refine List.flatMap_congr fun i hi => ?_
      exact (hspec i (List.mem_range.mp hi)).2.2.1
    exact hpieces.trans (pieces_eq h.upper)
  case position =>
    have hcur := h.cursor
    have hblk := h.block
    rcases Nat.eq_zero_or_pos k with rfl | hk
    · exact .inl ⟨by simpa using hcur, by simpa using hblk⟩
    · rw [if_neg (by omega)] at hcur
      simp only
      rw [h.dataLen hk, hcur, hblk, clogBlockHeaderSize]
      right
      push_cast
      rfl

/-- After a flush every block is on file, also when there was nothing to write. -/
theorem onFile_flushBuffer (h : Logged first L base k b f) :
    (b.flushBuffer f).2.size = 512 * (base + k + 1) ∧
      ∀ i < base + k, BlockIs first L (b.flushBuffer f).2.bytes (512 * (i + 1)) i := by
  rcases Nat.eq_zero_or_pos k with rfl | hk
  · -- `FlushBuffer` writes the empty buffer over the header block
    have hblk : b.writeBlockOffset = 0 := h.block
    have hcur : b.writeOffset = 0 := h.cursor
    have hzero : ∀ a n, a + n ≤ 512 → getInt b.buffer a n = 0 := by
      intro a n han
      have hz : getInt b.buffer a n = getInt (zero b.buffer 0 512) a n :=
        getInt_congr fun x hx => by rw [h.blank rfl _ (by omega), zero_at (by omega) (by omega)]
      rw [hz, getInt_zero (by omega) (by omega)]
    have hdata : ¬b.clogBlock.blockDataLen = (clogBlockDataSize : Int) := by
      rw [CLogBuffer.clogBlock, CLogBlock.blockDataLen_ofMemory, hblk, hzero _ _ (by decide)]
      decide
    have hflush : b.flushBuffer f = (b, (f.writeAt 0 (read b.buffer 0 512)).2) := by
      rw [CLogBuffer.flushBuffer, if_neg (by rw [hcur]; decide), if_neg hdata,
        if_neg (by rw [hblk]; decide), CLogBlock.blockOffset_ofMemory, hzero _ _ (by decide), hblk]
      rfl
    have hsize : f.size = 512 * (base + 1) := by
      rcases h.size with hs | ⟨hk, -⟩
      · exact hs
      · exact absurd hk (lt_irrefl 0)
    rw [hflush, PersistFile.writeAt, if_neg (lt_irrefl 0)]
    refine ⟨?_, fun i hi => (h.onFile i hi).congr fun x hx => ?_⟩
    · simp only [Int.toNat_zero, length_read, hsize]
      omega
    · simp only [Int.toNat_zero, Nat.zero_sub]
      rw [write_of_ge (by rw [length_read]; omega), zero_of_lt (by omega)]
  · obtain ⟨-, -, -, -, -, h⟩ := h.flushBuffer hk
    exact h

/-- A full buffer. -/
theorem full (h : Logged first L base k b f) (hfull : clogBufferSize ≤ b.writeOffset) :
    L.length = 504 * (base + 8192) := by
  have hcur := h.cursor
  have hup := h.upper
  have hfits := h.fits
  rw [hcur, clogBufferSize] at hfull
  split at hfull <;> omega

/-- What `AppendRecord` answers when `base` blocks were no longer in the buffer: whether there was room for the
record, and what it left on file. -/
def Answered (first : Nat → Nat) (D : List UInt8) (r : CLogRecord) (base base' k' : Nat) (re : Re)
    (f' : PersistFile) : Prop :=
  re = .success ∧ D.length + r.clogRecordLen ≤ 504 * (base + 8192) ∧
      (r.clogFlag ≠ .redoMiniTxnCommit ∧ base' = base ∨
        r.clogFlag = .redoMiniTxnCommit ∧ f'.size = 512 * (base' + k' + 1) ∧
          ∀ i < base' + k', BlockIs first (D ++ r.encoding) f'.bytes (512 * (i + 1)) i) ∨
    re = .logBufFull ∧ 504 * (base + 8192) < D.length + r.clogRecordLen ∧ f'.size = 512 * (base' + 1) ∧
      504 * base' < D.length + r.clogRecordLen

/-- `AppendRecord`, with the states it goes through. -/
theorem appendRecord (h : Logged first D base k b f) (henc : r.Encoded)
    (hfits : r.clogRecordLen ≤ clogBufferCapacity) (hmarks : Marks first D.length r.clogRecordLen)
    (hbound : D.length + r.clogRecordLen ≤ 504 * (2 ^ 22 - 1)) :
    (∃ re b' f' base' k', CLogManager.appendRecord ⟨b, f⟩ r = some (re, ⟨b', f'⟩) ∧
      Logged first (D ++ r.encoding) base' k' b' f' ∧
      504 * (base' + k' - 1) < D.length + r.clogRecordLen ∧ Answered first D r base base' k' re f') ∧
    ∀ x ∈ CLogManager.moments ⟨b, f⟩ r, ∃ base' k',
      Logged first (D ++ r.encoding.take x.2) base' k' x.1.clogBuffer x.1.clogFile := by
  have hpos : 0 < r.clogRecordLen := lt_of_lt_of_le (by decide) henc.header
  have hall : r.encoding.take r.clogRecordLen = r.encoding :=
    List.take_of_length_le (le_of_eq henc.length)
  have h0 : Logged first (D ++ r.encoding.take 0) base k b f := by simpa using h
  have hlen : ∀ off, off ≤ r.clogRecordLen → (D ++ r.encoding.take off).length = D.length + off := by
    intro off hoff
    rw [List.length_append, List.length_take, henc.length, Nat.min_eq_left hoff]
  have hfuel : ∀ b : CLogBuffer, clogBufferSize - b.writeOffset < clogBufferSize + 1 :=
    fun b => Nat.lt_succ_of_le (Nat.sub_le _ _)
  obtain ⟨⟨re, b1, off1, k1, hloop1, h1, hcase⟩, hmom1⟩ :=
    appendLoop henc hmarks hbound (hfuel b) h0 hpos
  have hsteps1 : ∀ x ∈ CLogManager.appendMoments ⟨b, f⟩ r 0, ∃ base' k',
      Logged first (D ++ r.encoding.take x.2) base' k' x.1.clogBuffer x.1.clogFile := by
    intro x hx
    obtain ⟨m, hm, rfl⟩ := List.mem_map.mp hx
    exact ⟨base, hmom1 m hm⟩
  have hroom : off1 = r.clogRecordLen → D.length + r.clogRecordLen ≤ 504 * (base + 8192) := by
    intro hend
    have hup1 := h1.upper
    rw [hlen off1 hend.le, hend] at hup1
    exact hup1.trans (Nat.mul_le_mul_left 504 (Nat.add_le_add_left h1.fits base))
  rw [← CLogBuffer.appendCLogRecord] at hloop1
  by_cases hsync : CLogManager.syncs re r
  · have hk1 : 0 < k1 := by
      rcases hcase with ⟨-, -, hk1, -⟩ | ⟨-, -, hfull⟩
      · exact hk1
      · refine Nat.pos_of_ne_zero ?_
        rintro rfl
        rw [h1.cursor, if_pos rfl] at hfull
        exact absurd hfull (by decide)
    obtain ⟨base2, k2, hsum, h2, hreset, hsize, hfile⟩ := h1.flushBuffer hk1
    obtain ⟨b2, f2, hflush⟩ : ∃ b2 f2, b1.flushBuffer f = (b2, f2) := ⟨_, _, rfl⟩
    rw [hflush] at h2 hsize hfile
    rw [← hsum] at hsize hfile
    have hs : CLogManager.sync ⟨b1, f⟩ = ⟨b2, f2⟩ := by rw [CLogManager.sync, hflush]
    rcases hcase with ⟨rfl, hend, -, htight⟩ | ⟨rfl, hoff1, hfull⟩
    · refine ⟨⟨.success, b2, f2, base2, k2, ?_, ?_, by rwa [hsum], .inl ⟨rfl, ?_, .inr ⟨?_, hsize, ?_⟩⟩⟩, ?_⟩
      · simp [CLogManager.appendRecord, hloop1, hsync, hs, hend]
      · rwa [hend, hall] at h2
      · exact hroom hend
      · simpa [CLogManager.syncs] using hsync
      · rwa [hend, hall] at hfile
      · intro x hx
        simp only [CLogManager.moments, hloop1, hsync, if_true, hs, hend, ne_eq, not_true_eq_false,
          if_false, List.mem_append, List.mem_singleton] at hx
        rcases hx with hx | rfl
        · exact hsteps1 x hx
        · exact ⟨base2, k2, hend ▸ h2⟩
    · have hlen1 := h1.full hfull
      rw [hlen off1 hoff1.le] at hlen1
      obtain rfl := hreset hfull
      have hbase : 504 * base2 < D.length + r.clogRecordLen := by
        have hlow2 := h2.lower
        rw [hlen off1 hoff1.le] at hlow2
        exact lt_of_le_of_lt hlow2 (Nat.add_lt_add_left hoff1 D.length)
      obtain ⟨⟨re3, b3, off3, k3, hloop3, h3, hcase3⟩, hmom3⟩ :=
        appendLoop henc hmarks hbound (hfuel b2) h2 hoff1
      rw [← CLogBuffer.appendCLogRecord] at hloop3
      have hend : off3 = r.clogRecordLen ∧ 504 * (base2 + k3 - 1) < D.length + r.clogRecordLen := by
        rcases hcase3 with ⟨-, hend, -, htight⟩ | ⟨-, hoff3, hfull3⟩
        · exact ⟨hend, htight⟩
        · -- the rest of the record would have filled an empty buffer
          have hlen3 := h3.full hfull3
          have hup2 := h2.upper
          have hcap : clogBufferCapacity = 504 * 8192 := rfl
          rw [hlen off3 (by omega)] at hlen3
          rw [hlen off1 (by omega)] at hup2
          omega
      refine ⟨⟨.logBufFull, b3, f2, base2, k3, ?_, ?_, hend.2, .inr ⟨rfl, by omega, hsize, hbase⟩⟩, ?_⟩
      · simp [CLogManager.appendRecord, hloop1, hsync, hs, hoff1.ne, hloop3]
      · rwa [hend.1, hall] at h3
      · intro x hx
        simp only [CLogManager.moments, hloop1, hsync, if_true, hs, hoff1.ne, ne_eq, not_false_eq_true,
          List.mem_append, List.mem_cons] at hx
        rcases hx with hx | rfl | hx
        · exact hsteps1 x hx
        · exact ⟨base2, 0, h2⟩
        · obtain ⟨m, hm, rfl⟩ := List.mem_map.mp hx
          exact ⟨base2, hmom3 m hm⟩
  · obtain ⟨rfl, hend, -, htight⟩ := hcase.resolve_right (by rintro ⟨rfl, -⟩; exact hsync rfl)
    rw [hend, hall] at h1
    have hflag : r.clogFlag ≠ .redoMiniTxnCommit := by
      intro hcommit
      exact hsync (by simp [CLogManager.syncs, hcommit])
    refine ⟨⟨.success, b1, f, base, k1, ?_, h1, htight, .inl ⟨rfl, hroom hend, .inl ⟨hflag, rfl⟩⟩⟩, ?_⟩
    · simp [CLogManager.appendRecord, hloop1, hsync]
    · intro x hx
      simp only [CLogManager.moments, hloop1, hsync, Bool.false_eq_true, if_false,
        List.append_nil] at hx
      exact hsteps1 x hx

theorem appendRecords : ∀ {rs : List CLogRecord} {D : List UInt8} {base k : Nat} {b : CLogBuffer}
    {f : PersistFile}, Logged first D base k b f →
    (∀ r ∈ rs, r.Encoded ∧ r.clogRecordLen ≤ clogBufferCapacity) →
    MarksAll first D.length (rs.map CLogRecord.clogRecordLen) →
    D.length + (rs.flatMap CLogRecord.encoding).length ≤ 504 * (2 ^ 22 - 1) →
    ∃ s base' k', CLogManager.appendRecords ⟨b, f⟩ rs = some s ∧
      Logged first (D ++ rs.flatMap CLogRecord.encoding) base' k' s.clogBuffer s.clogFile ∧
      (rs = [] ∧ base' = base ∧ k' = k ∨
        504 * (base' + k' - 1) < (D ++ rs.flatMap CLogRecord.encoding).length) := by
  intro rs
  induction rs with
  | nil =>
    intro D base k b f h _ _ _
    exact ⟨⟨b, f⟩, base, k, rfl, by simpa using h, .inl ⟨rfl, rfl, rfl⟩⟩
  | cons r rs ih =>
    intro D base k b f h hrs hmarks hbound
    obtain ⟨henc, hfits⟩ := hrs r (List.mem_cons_self ..)
    rw [List.flatMap_cons, List.length_append, henc.length] at hbound
    obtain ⟨⟨re, b1, f1, base1, k1, he, h1, htight, -⟩, -⟩ :=
      h.appendRecord henc hfits hmarks.1 (by omega)
    have hlen : (D ++ r.encoding).length = D.length + r.clogRecordLen := by
      rw [List.length_append, henc.length]
    obtain ⟨s, base2, k2, hrun, h2, hcase⟩ := ih h1
      (fun r' hr' => hrs r' (List.mem_cons_of_mem _ hr')) (by rw [hlen]; exact hmarks.2)
      (by rw [hlen]; omega)
    rw [List.flatMap_cons, ← List.append_assoc]
    refine ⟨s, base2, k2, ?_, h2, .inr ?_⟩
    · simp [CLogManager.appendRecords, he, hrun]
    · rcases hcase with ⟨rfl, rfl, rfl⟩ | hcase
      · rwa [List.flatMap_nil, List.append_nil, hlen]
      · exact hcase

theorem new : Logged first [] 0 0 CLogManager.new.clogBuffer CLogManager.new.clogFile := by
  have hsize : CLogManager.new.clogFile.size = 512 * (0 + 1) := by
    have hlen : CLogManager.fileHeaderBlock.length = 512 := by
      simp only [CLogManager.fileHeaderBlock, List.length_append, length_encode, List.length_replicate]
    rw [CLogManager.new, PersistFile.writeAt, if_neg (lt_irrefl _)]
    simp only [hlen, PersistFile.empty]
    rfl
  refine ⟨fun i hi => absurd hi (Nat.not_lt_zero i), fun i hi => absurd hi (Nat.not_lt_zero i), rfl, rfl,
    rfl, le_rfl, le_rfl, Nat.zero_le _, by decide, .inl hsize, fun _ _ _ => rfl⟩

end Logged

namespace CLogManager

/-- The log keeps the records `rs`: at the end of the run and in every state on the way. -/
def KeepsStream (rs : List CLogRecord) : Prop :=
  (∃ s, new.appendRecords rs = some s ∧ s.Intact (rs.flatMap CLogRecord.encoding)) ∧
  ∀ done r rest, rs = done ++ r :: rest →
    ∃ s, new.appendRecords done = some s ∧
      ∀ x ∈ s.moments r, x.1.Intact (done.flatMap CLogRecord.encoding ++ r.encoding.take x.2)

/-- The stream is as long as the length fields say. -/
theorem sum_clogRecordLen (rs : List CLogRecord)
    (hrs : ∀ r ∈ rs, r.Encoded ∧ r.clogRecordLen ≤ clogBufferCapacity) :
    (rs.map CLogRecord.clogRecordLen).sum = (rs.flatMap CLogRecord.encoding).length := by
  rw [List.length_flatMap]
  refine congrArg List.sum (List.map_congr_left fun r hr => ?_)
  exact (hrs r hr).1.length.symm

theorem keepsStream_of_short (rs : List CLogRecord)
    (hrs : ∀ r ∈ rs, r.Encoded ∧ r.clogRecordLen ≤ clogBufferCapacity)
    (hbound : (rs.flatMap CLogRecord.encoding).length ≤ 504 * (2 ^ 22 - 1)) : KeepsStream rs := by
  have hmarks : MarksAll (fun i => firstAt (rs.map CLogRecord.clogRecordLen) (504 * i)) 0
      (rs.map CLogRecord.clogRecordLen) := firstAt_marks _ fun i _ => rfl
  constructor
  · obtain ⟨s, base, k, hrun, h, -⟩ := Logged.new.appendRecords hrs hmarks (by simpa using hbound)
    exact ⟨s, hrun, h.intact⟩
  · rintro done r rest rfl
    rw [List.map_append, List.map_cons] at hmarks
    obtain ⟨hm1, hm2⟩ := hmarks.append
    simp only [List.flatMap_append, List.flatMap_cons, List.length_append] at hbound
    have hdone : ∀ r ∈ done, r.Encoded ∧ r.clogRecordLen ≤ clogBufferCapacity :=
      fun r' hr' => hrs r' (List.mem_append_left _ hr')
    obtain ⟨henc, hfits⟩ := hrs r (by simp)
    obtain ⟨s, base, k, hrun, h, -⟩ := Logged.new.appendRecords hdone hm1
      (by rw [List.length_nil]; omega)
    rw [List.nil_append] at h
    have hlen := henc.length
    obtain ⟨-, hmom⟩ := h.appendRecord henc hfits
      (by rw [← sum_clogRecordLen done hdone, ← Nat.zero_add (List.sum _)]; exact hm2.1) (by omega)
    refine ⟨s, hrun, fun x hx => ?_⟩
    obtain ⟨base', k', hx⟩ := hmom x hx
    exact hx.intact

/-- Block offsets are `int32_t`, so an intact log has less than `2 ^ 22` blocks. -/
theorem Intact.length_le {s : CLogManager} {stream : List UInt8} (h : s.Intact stream) :
    stream.length ≤ 504 * (2 ^ 22 - 1) := by
  have hpayload : ∀ c ∈ s.logBlocks, c.payload.length ≤ 504 := by
    intro c hc
    have hle := (h.lengths c hc).2
    rw [CLogBlock.payload, List.length_take]
    rw [clogBlockDataSize] at hle
    omega
  have hcount : s.logBlocks.length < 2 ^ 22 := by
    by_contra hlong
    have hlast : (512 * (2 ^ 22 - 1 + 1) : Int) ∈ s.logBlocks.map CLogBlock.blockOffset := by
      rw [h.offsets]
      refine List.mem_map.mpr ⟨2 ^ 22 - 1, List.mem_range.mpr (by omega), by simp [clogBlockSize]⟩
    obtain ⟨c, hc, hoff⟩ := List.mem_map.mp hlast
    have hlt : c.blockOffset < 2 ^ 31 := by
      have hmem : ∃ m a, c = CLogBlock.ofMemory m a := by
        rcases List.mem_append.mp hc with hc | hc
        · obtain ⟨i, -, rfl⟩ := List.mem_map.mp (List.mem_filter.mp hc).1
          exact ⟨_, _, rfl⟩
        · unfold bufferBlocks at hc
          split at hc
          · cases hc
          · obtain ⟨i, -, rfl⟩ := List.mem_map.mp hc
            exact ⟨_, _, rfl⟩
      obtain ⟨m, a, rfl⟩ := hmem
      rw [CLogBlock.blockOffset_ofMemory]
      exact lt_of_lt_of_le (Int.bmod_lt (by decide)) (by decide)
    rw [hoff] at hlt
    exact absurd hlt (by decide)
  rw [← h.bytes, List.length_flatMap]
  refine (List.sum_le_card_nsmul _ 504 ?_).trans ?_
  · intro n hn
    obtain ⟨c, hc, rfl⟩ := List.mem_map.mp hn
    exact hpayload c hc
  · rw [List.length_map, Nat.nsmul_eq_mul]
    omega

/-- The log keeps a sequence of records exactly when every block offset stays below `2 ^ 31`. -/
theorem keepsStream_iff (rs : List CLogRecord)
    (hrs : ∀ r ∈ rs, r.Encoded ∧ r.clogRecordLen ≤ clogBufferCapacity) :
    KeepsStream rs ↔ (rs.flatMap CLogRecord.encoding).length ≤ 504 * (2 ^ 22 - 1) :=
  ⟨fun ⟨⟨_, _, h⟩, _⟩ => h.length_le, keepsStream_of_short rs hrs⟩

/-- A record of `len` bytes that asks for no flush. -/
def deleteRecord (len : Nat) : CLogRecord := ⟨.redoDelete, len, List.replicate len 0, []⟩

/-- A log of one record. -/
theorem keepsStream_iff_short :
    KeepsStream [deleteRecord 56] ↔ ([deleteRecord 56].flatMap CLogRecord.encoding).length ≤
      504 * (2 ^ 22 - 1) :=
  keepsStream_iff [deleteRecord 56] (by
    rintro r hr
    obtain rfl := List.mem_singleton.mp hr
    exact ⟨⟨by decide, by decide, by decide⟩, by decide⟩)

/-- A log of `2 ^ 22` blocks. -/
theorem not_keepsStream_long :
    (∀ r ∈ List.replicate (2 ^ 22) (deleteRecord 504), r.Encoded ∧
      r.clogRecordLen ≤ clogBufferCapacity) ∧
    ¬KeepsStream (List.replicate (2 ^ 22) (deleteRecord 504)) := by
  have hlen : (deleteRecord 504).encoding.length = 504 := by
    rw [CLogRecord.encoding, deleteRecord, List.length_replicate]
  have hrs : ∀ r ∈ List.replicate (2 ^ 22) (deleteRecord 504), r.Encoded ∧
      r.clogRecordLen ≤ clogBufferCapacity := by
    intro r hr
    obtain ⟨-, rfl⟩ := List.mem_replicate.mp hr
    refine ⟨⟨hlen, by decide, ?_⟩, by decide⟩
    intro hflag
    cases hflag
  refine ⟨hrs, ?_⟩
  rintro ⟨⟨s, -, h⟩, -⟩
  have := h.length_le
  rw [List.length_flatMap, List.map_replicate, List.sum_replicate, hlen, Nat.nsmul_eq_mul] at this
  omega

end CLogManager

end Idmbs
