import Idmbs.CLog.RecoverObjects

/-!
# Idmbs.CLog.Returns

When `Recover` (storage/clog_manager.cpp) returns, for any whole blocks on file: the offsets that `BlockRecover`
goes through leave every block up to the first that is not full, every record that is made on the way is set, and
the side buffer never overflows.
-/

namespace Idmbs

open Bytes

namespace CLogFile.Objects

section Block

variable {s : RecoverStack} {m : Memory} {a : Nat} {d o o' : Int} {p p' : CLogRecordBuffer}

/-- What is taken for the length of the record at offset `o`. -/
def lookedUp (m : Memory) (a : Nat) (o : Int) : Int :=
  CLogRecordHeader.clogRecordLen m (a + clogRecordHeaderSize * o).toNat

/-- The block does not begin with the rest of a record, or the reader is past it. -/
def PastRest (m : Memory) (a : Nat) (o : Int) : Prop :=
  o = 8 → (CLogBlock.ofMemory m a).firstRecordOffset = 8

/-- A call of `BlockRecover` that goes through, from offset `o` and side buffer `p` on. -/
inductive Steps (s : RecoverStack) (m : Memory) (a : Nat) :
    Int → CLogRecordBuffer → Int → CLogRecordBuffer → Prop
  | rest (p : CLogRecordBuffer) (hfirst : 8 < (CLogBlock.ofMemory m a).firstRecordOffset)
    (hroom : p.writeOffset + ((CLogBlock.ofMemory m a).firstRecordOffset - 8) ≤ 4096) :
    Steps s m a 8 p (CLogBlock.ofMemory m a).firstRecordOffset
      (p.push (read m (a + 8) ((CLogBlock.ofMemory m a).firstRecordOffset - 8).toNat))
  | split (o : Int) (p : CLogRecordBuffer) (hstart : PastRest m a o)
    (hsplit : 512 - o < 16 ∨ p.writeOffset = 0 ∧ 512 - o < lookedUp m a o)
    (hroom : p.writeOffset + (512 - o) ≤ 4096) :
    Steps s m a o p 512 (p.push (read m (a + o).toNat (512 - o).toNat))
  | handed (o : Int) (p : CLogRecordBuffer) (hstart : PastRest m a o) (hlong : 16 ≤ 512 - o)
    (hp : p.writeOffset ≠ 0) (hset : CLogRecord.Set p.buffer s.sideSize 0) : Steps s m a o p o .empty
  | whole (o : Int) (p : CLogRecordBuffer) (hstart : PastRest m a o) (hlong : 16 ≤ 512 - o)
    (hp : p.writeOffset = 0) (hfits : lookedUp m a o ≤ 512 - o)
    (hset : CLogRecord.Set m s.redoSize (a + o).toNat) :
    Steps s m a o p ((o + lookedUp m a o).bmod (2 ^ 16)) p

/-- The block with `d` bytes of payload is left from offset `o` and side buffer `p` on, which is then `p'`. -/
inductive Passes (s : RecoverStack) (m : Memory) (a : Nat) (d : Int) :
    Int → CLogRecordBuffer → CLogRecordBuffer → Prop
  | out (o : Int) (p : CLogRecordBuffer) (hout : ¬(0 ≤ o ∧ o < 8 + d)) : Passes s m a d o p p
  | next (o : Int) (p : CLogRecordBuffer) {o' : Int} {q p' : CLogRecordBuffer} (hin : 0 ≤ o ∧ o < 8 + d)
    (hstep : Steps s m a o p o' q) (h : Passes s m a d o' q p') : Passes s m a d o p p'

theorem Steps.isOffset (ho : IsOffset o) (h : Steps s m a o p o' p') : IsOffset o' := by
  cases h with
  | rest => exact isOffset_first
  | split => exact ⟨by decide, by decide⟩
  | handed => exact ho
  | whole => exact isOffset_bmod _

theorem pastRest_iff : PastRest m a o ↔ ¬(o = clogBlockHeaderSize ∧
    (CLogBlock.ofMemory m a).firstRecordOffset ≠ clogBlockHeaderSize) := by
  have h8 : (clogBlockHeaderSize : Int) = 8 := rfl
  rw [h8, PastRest, not_and, not_not]

theorem blockRecover_rest (hfirst : 8 < (CLogBlock.ofMemory m a).firstRecordOffset) :
    blockRecover s m a 8 p =
      (p.pushInside (read m (a + 8) ((CLogBlock.ofMemory m a).firstRecordOffset - 8).toNat)).map
        fun p => ((CLogBlock.ofMemory m a).firstRecordOffset, p, none) := by
  have h8 : (clogBlockHeaderSize : Int) = 8 := rfl
  have hrest : True ∧ (CLogBlock.ofMemory m a).firstRecordOffset ≠ 8 := ⟨trivial, by omega⟩
  have hlen : ¬(CLogBlock.ofMemory m a).firstRecordOffset - 8 < 0 := by omega
  have hstart : ((a : Int) + 8).toNat = a + 8 := by omega
  obtain ⟨hlow, hhigh⟩ : IsOffset (CLogBlock.ofMemory m a).firstRecordOffset := isOffset_first
  have hadd : ((8 : Int) + ((CLogBlock.ofMemory m a).firstRecordOffset - 8)).bmod (2 ^ 16) =
      (CLogBlock.ofMemory m a).firstRecordOffset := by
    rw [Int.bmod_eq_of_le_mul_two (by omega) (by omega)]
    omega
  simp only [blockRecover, h8, if_pos hrest, if_neg hlen, hstart, hadd]

/-- `memmove` of a negative length. -/
theorem blockRecover_below (hfirst : (CLogBlock.ofMemory m a).firstRecordOffset < 8) :
    blockRecover s m a 8 p = none := by
  have h8 : (clogBlockHeaderSize : Int) = 8 := rfl
  have hrest : True ∧ (CLogBlock.ofMemory m a).firstRecordOffset ≠ 8 := ⟨trivial, by omega⟩
  have hlen : (CLogBlock.ofMemory m a).firstRecordOffset - 8 < 0 := by omega
  simp only [blockRecover, h8, if_pos hrest, if_pos hlen]

/-- What is left of the block goes to the side buffer. -/
theorem blockRecover_split (hstart : PastRest m a o) (ho : 0 ≤ o) (ho' : o < 512)
    (hsplit : 512 - o < 16 ∨ p.writeOffset = 0 ∧ 512 - o < lookedUp m a o) :
    blockRecover s m a o p =
      (p.pushInside (read m (a + o).toNat (512 - o).toNat)).map fun p => (512, p, none) := by
  have h512 : (clogBlockSize : Int) = 512 := rfl
  have h16 : (clogRecordHeaderSize : Int) = 16 := rfl
  have hsize : toSizeT (512 - o) = 512 - o := toSizeT_eq (by omega) (by omega)
  simp only [blockRecover, if_neg (pastRest_iff.mp hstart), h512, hsize, h16]
  by_cases hshort : 512 - o < 16
  · rw [if_pos hshort]
  · obtain ⟨hp, hlong⟩ := hsplit.resolve_left hshort
    rw [lookedUp, h16] at hlong
    rw [if_neg hshort, if_neg (not_not.mpr hp), if_neg (not_le.mpr hlong)]

theorem blockRecover_handed (hstart : PastRest m a o) (ho : 0 ≤ o) (hlong : 16 ≤ 512 - o)
    (hp : p.writeOffset ≠ 0) : blockRecover s m a o p =
      (CLogRecord.ofData p.buffer s.sideSize 0).map fun r => (o, .empty, some r) := by
  have h512 : (clogBlockSize : Int) = 512 := rfl
  have h16 : (clogRecordHeaderSize : Int) = 16 := rfl
  have hsize : toSizeT (512 - o) = 512 - o := toSizeT_eq (by omega) (by omega)
  simp only [blockRecover, if_neg (pastRest_iff.mp hstart), h512, hsize, h16, if_neg (not_lt.mpr hlong), if_pos hp]

theorem blockRecover_whole (hstart : PastRest m a o) (ho : 0 ≤ o) (hlong : 16 ≤ 512 - o)
    (hp : p.writeOffset = 0) (hfits : lookedUp m a o ≤ 512 - o) : blockRecover s m a o p =
      (CLogRecord.ofData m s.redoSize (a + o).toNat).map fun r =>
        ((o + lookedUp m a o).bmod (2 ^ 16), p, some r) := by
  have h512 : (clogBlockSize : Int) = 512 := rfl
  have h16 : (clogRecordHeaderSize : Int) = 16 := rfl
  have hsize : toSizeT (512 - o) = 512 - o := toSizeT_eq (by omega) (by omega)
  rw [lookedUp, h16] at hfits
  simp only [blockRecover, if_neg (pastRest_iff.mp hstart), h512, hsize, h16, if_neg (not_lt.mpr hlong),
    if_neg (not_not.mpr hp), if_pos hfits, lookedUp]

/-- A call goes through, and `GetLsn` after it. -/
def GoesTo (s : RecoverStack) (m : Memory) (a : Nat) (o : Int) (p : CLogRecordBuffer) (o' : Int)
    (p' : CLogRecordBuffer) : Prop :=
  ∃ r, blockRecover s m a o p = some (o', p', r) ∧ r ≠ some none

theorem goesTo_of_push {bs : List UInt8} {v : Int}
    (h : blockRecover s m a o p = (p.pushInside bs).map fun p => (v, p, none)) :
    GoesTo s m a o p o' p' ↔ p.writeOffset + bs.length ≤ 4096 ∧ v = o' ∧ p.push bs = p' := by
  unfold GoesTo
  rw [h]
  constructor
  · rintro ⟨r, hr, -⟩
    obtain ⟨q, hq, heq⟩ := Option.map_eq_some_iff.mp hr
    obtain ⟨hroom, rfl⟩ := CLogRecordBuffer.pushInside_eq_some.mp hq
    cases heq
    exact ⟨hroom, rfl, rfl⟩
  · rintro ⟨hroom, rfl, rfl⟩
    rw [CLogRecordBuffer.pushInside_eq_some.mpr ⟨hroom, rfl⟩]
    exact ⟨none, rfl, nofun⟩

theorem goesTo_of_made {m' : Memory} {size a' : Nat} {v : Int} {q : CLogRecordBuffer}
    (h : blockRecover s m a o p = (CLogRecord.ofData m' size a').map fun r => (v, q, some r)) :
    GoesTo s m a o p o' p' ↔ CLogRecord.Set m' size a' ∧ v = o' ∧ q = p' := by
  unfold GoesTo
  rw [h]
  constructor
  · rintro ⟨r, hr, hne⟩
    obtain ⟨x, hx, heq⟩ := Option.map_eq_some_iff.mp hr
    cases heq
    cases x with
    | none => exact absurd rfl hne
    | some bs => exact ⟨CLogRecord.set_of_ofData hx, rfl, rfl⟩
  · rintro ⟨hset, rfl, rfl⟩
    rw [hset.ofData]
    exact ⟨_, rfl, nofun⟩

theorem goesTo_iff (ho : 0 ≤ o) (ho' : o < 512) : GoesTo s m a o p o' p' ↔ Steps s m a o p o' p' := by
  have hlen (x : Nat) (k : Int) : ((read m x k.toNat).length : Int) = max k 0 := by
    rw [length_read, Int.toNat_eq_max]
  constructor
  · intro h
    by_cases hstart : PastRest m a o
    · by_cases hsplit : 512 - o < 16 ∨ p.writeOffset = 0 ∧ 512 - o < lookedUp m a o
      · obtain ⟨hroom, rfl, rfl⟩ := (goesTo_of_push (blockRecover_split hstart ho ho' hsplit)).mp h
        have := hlen (a + o).toNat (512 - o)
        exact .split o p hstart hsplit (by omega)
      · have hlong : 16 ≤ 512 - o := not_lt.mp fun hshort => hsplit (.inl hshort)
        by_cases hp : p.writeOffset = 0
        · have hfits : lookedUp m a o ≤ 512 - o := not_lt.mp fun hlt => hsplit (.inr ⟨hp, hlt⟩)
          obtain ⟨hset, rfl, rfl⟩ := (goesTo_of_made (blockRecover_whole hstart ho hlong hp hfits)).mp h
          exact .whole o p hstart hlong hp hfits hset
        · obtain ⟨hset, rfl, rfl⟩ := (goesTo_of_made (blockRecover_handed hstart ho hlong hp)).mp h
          exact .handed o p hstart hlong hp hset
    · obtain ⟨rfl, hne⟩ : o = 8 ∧ (CLogBlock.ofMemory m a).firstRecordOffset ≠ 8 := Classical.not_imp.mp hstart
      rcases lt_or_gt_of_ne hne with hbelow | hfirst
      · obtain ⟨r, hr, -⟩ := h
        rw [blockRecover_below hbelow] at hr
        cases hr
      · obtain ⟨hroom, rfl, rfl⟩ := (goesTo_of_push (blockRecover_rest hfirst)).mp h
        have := hlen (a + 8) ((CLogBlock.ofMemory m a).firstRecordOffset - 8)
        exact .rest p hfirst (by omega)
  · intro h
    cases h with
    | rest _ hfirst hroom =>
      have := hlen (a + 8) ((CLogBlock.ofMemory m a).firstRecordOffset - 8)
      exact (goesTo_of_push (blockRecover_rest hfirst)).mpr ⟨by omega, rfl, rfl⟩
    | split _ _ hstart hsplit hroom =>
      have := hlen (a + o).toNat (512 - o)
      exact (goesTo_of_push (blockRecover_split hstart ho ho' hsplit)).mpr ⟨by omega, rfl, rfl⟩
    | handed _ _ hstart hlong hp hset =>
      exact (goesTo_of_made (blockRecover_handed hstart ho hlong hp)).mpr ⟨hset, rfl, rfl⟩
    | whole _ _ hstart hlong hp hfits hset =>
      exact (goesTo_of_made (blockRecover_whole hstart ho hlong hp hfits)).mpr ⟨hset, rfl, rfl⟩

theorem passes_of_blockLoop (hd : 0 ≤ (CLogBlock.ofMemory m a).blockDataLen)
    (hd' : (CLogBlock.ofMemory m a).blockDataLen ≤ 504) : ∀ {fuel : Nat} {o : Int} {p : CLogRecordBuffer}
    {x : List (Option (List UInt8)) × CLogRecordBuffer}, IsOffset o → blockLoop s m a fuel o p = some x →
    Passes s m a (CLogBlock.ofMemory m a).blockDataLen o p x.2 := by
  intro fuel
  induction fuel with
  | zero =>
    intro o p x _ h
    cases h
  | succ fuel ih =>
    intro o p x ho h
    rw [blockLoop] at h
    by_cases hin : 0 ≤ o ∧ o < 8 + (CLogBlock.ofMemory m a).blockDataLen
    · rw [if_pos ((toSizeT_lt_iff ho hd hd').mpr hin)] at h
      cases hcall : blockRecover s m a o p with
      | none =>
        rw [hcall] at h
        cases h
      | some y =>
        obtain ⟨o', q, r⟩ := y
        have hstep (hne : r ≠ some none) : Steps s m a o p o' q :=
          (goesTo_iff hin.1 (by omega)).mp ⟨r, hcall, hne⟩
        rw [hcall] at h
        rcases r with _ | (_ | bs)
        · have hgoes := hstep (by simp)
          exact .next o p hin hgoes (ih (hgoes.isOffset ho) h)
        · cases h
        · have hgoes := hstep (by simp)
          obtain ⟨⟨rs, p'⟩, hy, rfl⟩ := Option.map_eq_some_iff.mp h
          have hrest := ih (hgoes.isOffset ho) hy
          exact .next o p hin hgoes hrest
    · rw [if_neg (mt (toSizeT_lt_iff ho hd hd').mp hin)] at h
      cases h
      exact .out o p hin

theorem Passes.blockLoop (h : Passes s m a d o p p') (hd : (CLogBlock.ofMemory m a).blockDataLen = d) (hd0 : 0 ≤ d)
    (hd' : d ≤ 504) : IsOffset o → ∃ rs, Ends (Objects.blockLoop s m a · o p) (rs, p') := by
  induction h with
  | out o p hout =>
    intro ho
    have hcond := mt (toSizeT_lt_iff ho hd0 hd').mp hout
    refine ⟨[], 1, fun fuel hfuel => ?_⟩
    obtain ⟨fuel, rfl⟩ := Nat.exists_eq_add_of_le' hfuel
    simp only [Objects.blockLoop, hd, if_neg hcond]
  | next o p hin hstep _ ih =>
    intro ho
    have hcond := (toSizeT_lt_iff ho hd0 hd').mpr hin
    obtain ⟨rs, N, hN⟩ := ih (hstep.isOffset ho)
    obtain ⟨r, hcall, hne⟩ := (goesTo_iff hin.1 (by omega)).mpr hstep
    refine ⟨r.toList ++ rs, N + 1, fun fuel hfuel => ?_⟩
    obtain ⟨fuel, rfl⟩ := Nat.exists_eq_add_of_le' (Nat.le_of_add_left_le hfuel)
    have hrest := hN fuel (by omega)
    simp only [Objects.blockLoop, hd, if_pos hcond, hcall]
    rcases r with _ | (_ | bs)
    · exact hrest
    · exact absurd rfl hne
    · simp only [hrest, Option.map_some]
      rfl

end Block

section Chunk

variable {s : RecoverStack} {m : Memory} {fuel : Nat}

/-- A block of a chunk is left, side buffer `p` becoming `p'`. -/
def PassesBlock (s : RecoverStack) (m : Memory) (j : Nat) (p p' : CLogRecordBuffer) : Prop :=
  Passes s m (512 * j) (dataLen m j) 8 p p'

theorem PassesBlock.blockLoop {j : Nat} {p p' : CLogRecordBuffer} (h : PassesBlock s m j p p')
    (hd : 0 ≤ dataLen m j) (hd' : dataLen m j ≤ 504) :
    ∃ rs, Ends (Objects.blockLoop s m (512 * j) · clogBlockHeaderSize p) (rs, p') :=
  Passes.blockLoop h rfl hd hd' isOffset_start

/-- A property of the blocks of a chunk, with the side buffer before each, that goes back from a block that ends the
log, and from the block after a full one. -/
structure GoesBack (s : RecoverStack) (m : Memory) (R : Nat → CLogRecordBuffer → Prop) : Prop where
  last : ∀ {j p p'}, j < 8 → dataLen m j < 504 → PassesBlock s m j p p' → (p'.lastObject s).isSome → R j p
  next : ∀ {j p p'}, j < 8 → dataLen m j = 504 → PassesBlock s m j p p' → R (j + 1) p' → R j p

/-- What a chunk that was read tells about its blocks. -/
theorem GoesBack.chunkLoop {R : Nat → CLogRecordBuffer → Prop} (hR : GoesBack s m R)
    (hm : ∀ j < 8, 0 ≤ dataLen m j ∧ dataLen m j ≤ 504) : ∀ {left : Nat} {b : CLogBuffer} {p : CLogRecordBuffer}
    {x : List (Option (List UInt8)) × CLogRecordBuffer × CLogBuffer × Bool}, left ≤ 8 →
    Objects.chunkLoop s fuel m left b p = some x →
    (x.2.2.2 = true → R (8 - left) p) ∧
      (x.2.2.2 = false → (∀ j, 8 - left ≤ j → j < 8 → dataLen m j = 504) ∧ (R 8 x.2.1 → R (8 - left) p)) := by
  intro left
  induction left with
  | zero =>
    intro b p x _ h
    cases h
    exact ⟨fun hflag => absurd hflag Bool.false_ne_true, fun _ => ⟨fun j h1 h2 => absurd h2 (Nat.not_lt.mpr h1), fun h => h⟩⟩
  | succ left ih =>
    intro b p x hleft h
    obtain ⟨hd, hd'⟩ := hm (7 - left) (by omega)
    rw [Objects.chunkLoop] at h
    cases hloop : Objects.blockLoop s m (clogBlockSize * (7 - left)) fuel clogBlockHeaderSize p with
    | none =>
      simp only [hloop] at h
      cases h
    | some y =>
      obtain ⟨rs, p'⟩ := y
      have hpass : PassesBlock s m (7 - left) p p' := passes_of_blockLoop hd hd' isOffset_start hloop
      have hat : 8 - (left + 1) = 7 - left := by omega
      rw [hat]
      simp only [hloop] at h
      split at h
      · rename_i hlast
        obtain ⟨last, hl, rfl⟩ := Option.map_eq_some_iff.mp h
        have hlen : dataLen m (7 - left) < 504 := (isLast_iff hd hd').mp hlast
        exact ⟨fun _ => hR.last (by omega) hlen hpass (by rw [hl]; rfl), fun hflag => absurd hflag.symm Bool.false_ne_true⟩
      · rename_i hlast
        have hfull : dataLen m (7 - left) = 504 := le_antisymm hd' (not_lt.mp (mt (isLast_iff hd hd').mpr hlast))
        obtain ⟨z, hz, rfl⟩ := Option.map_eq_some_iff.mp h
        obtain ⟨htrue, hfalse⟩ := ih (by omega) hz
        have hback (h : R (8 - left) p') : R (7 - left) p :=
          hR.next (by omega) hfull hpass (by rwa [show 7 - left + 1 = 8 - left by omega])
        refine ⟨fun hflag => hback (htrue hflag), fun hflag => ?_⟩
        obtain ⟨hall, hrest⟩ := hfalse hflag
        refine ⟨fun j h1 h2 => ?_, fun h => hback (hrest h)⟩
        by_cases hj : j = 7 - left
        · rw [hj]
          exact hfull
        · exact hall j (by omega) h2

section Step

variable {left : Nat} {b : CLogBuffer} {p p' : CLogRecordBuffer} {rs : List (Option (List UInt8))}

theorem chunkLoop_last (hd : 0 ≤ dataLen m (7 - left)) (hlen : dataLen m (7 - left) < 504)
    (hread : Ends (Objects.blockLoop s m (512 * (7 - left)) · clogBlockHeaderSize p) (rs, p'))
    (hlast : (p'.lastObject s).isSome) :
    ∃ rs b', Ends (fun fuel => Objects.chunkLoop s fuel m (left + 1) b p) (rs, p', b', true) := by
  obtain ⟨last, hl⟩ := Option.isSome_iff_exists.mp hlast
  have hcond := (isLast_iff hd hlen.le).mpr hlen
  unfold dataLen at hcond
  obtain ⟨N, hN⟩ := hread
  refine ⟨rs ++ last, keepLast { b with
    currentBlockOffset := (CLogBlock.ofMemory m (512 * (7 - left))).blockOffset } m (512 * (7 - left)), N,
    fun fuel hfuel => ?_⟩
  have hrun : Objects.blockLoop s m (512 * (7 - left)) fuel clogBlockHeaderSize p = some (rs, p') := hN fuel hfuel
  simp only [Objects.chunkLoop]
  rw [show clogBlockSize = 512 from rfl, hrun]
  simp only
  rw [if_pos hcond, hl, Option.map_some]

theorem chunkLoop_next (hfull : dataLen m (7 - left) = 504)
    (hread : Ends (Objects.blockLoop s m (512 * (7 - left)) · clogBlockHeaderSize p) (rs, p'))
    {flag : Bool} {q : CLogRecordBuffer}
    (hrest : ∀ b, ∃ rs b', Ends (fun fuel => Objects.chunkLoop s fuel m left b p') (rs, q, b', flag)) :
    ∃ rs b', Ends (fun fuel => Objects.chunkLoop s fuel m (left + 1) b p) (rs, q, b', flag) := by
  have hcond : ¬toSizeT (dataLen m (7 - left)) < clogBlockDataSize := by
    rw [hfull]
    decide
  unfold dataLen at hcond
  obtain ⟨N, hN⟩ := hread
  obtain ⟨rs', b', N', hN'⟩ := hrest { b with
    currentBlockOffset := (CLogBlock.ofMemory m (512 * (7 - left))).blockOffset }
  refine ⟨rs ++ rs', b', max N N', fun fuel hfuel => ?_⟩
  have h1 : Objects.blockLoop s m (512 * (7 - left)) fuel clogBlockHeaderSize p = some (rs, p') := hN fuel (by omega)
  have h2 := hN' fuel (by omega)
  simp only at h2
  simp only [Objects.chunkLoop]
  rw [show clogBlockSize = 512 from rfl, h1]
  simp only
  rw [if_neg hcond, h2, Option.map_some]

end Step

end Chunk

/-- `block_data_len` of block `i` on file, the header block not counted. -/
def payloadLen (f : PersistFile) (i : Nat) : Int := (CLogBlock.ofMemory f.bytes (512 * (i + 1))).blockDataLen

/-- From block `i` of the `n` on file on, and side buffer `p`, every block is left up to the first that is not full,
and what the side buffer then holds can be handed over. -/
inductive ReadsToEnd (s : RecoverStack) (f : PersistFile) (n : Nat) : Nat → CLogRecordBuffer → Prop
  | last (i : Nat) (p : CLogRecordBuffer) {p' : CLogRecordBuffer} (hi : i < n) (hlen : payloadLen f i < 504)
    (h : PassesBlock s (redoBuffer f s.behind (i / 8)) (i % 8) p p') (hlast : (p'.lastObject s).isSome) :
    ReadsToEnd s f n i p
  | next (i : Nat) (p : CLogRecordBuffer) {p' : CLogRecordBuffer} (hi : i < n) (hlen : payloadLen f i = 504)
    (h : PassesBlock s (redoBuffer f s.behind (i / 8)) (i % 8) p p') (hrest : ReadsToEnd s f n (i + 1) p') :
    ReadsToEnd s f n i p

section File

variable {s : RecoverStack} {f : PersistFile} {n c fuel : Nat} {b : CLogBuffer} {p : CLogRecordBuffer}

theorem ReadsToEnd.onFile {i : Nat} (h : ReadsToEnd s f n i p) : i < n := by
  cases h with
  | last _ _ hi => exact hi
  | next _ _ hi => exact hi

theorem dataLen_eq (h : WholeBlocks f n) {j : Nat} (hj : j < 8) (hin : 8 * c + j < n) :
    dataLen (redoBuffer f s.behind c) j = payloadLen f (8 * c + j) := dataLen_redoBuffer h.1 hj hin

theorem ReadsToEnd.goesBack (h : WholeBlocks f n) (hn : 8 ≤ n) (hc : 8 * c < n)
    (hbefore : ∀ i < 8 * c, payloadLen f i = 504) :
    GoesBack s (redoBuffer f s.behind c) fun j => ReadsToEnd s f n (8 * c + j) where
  last := by
    intro j p p' hj hlen hpass hlast
    by_cases hin : 8 * c + j < n
    · rw [dataLen_eq h hj hin] at hlen
      refine .last _ p hin hlen ?_ hlast
      rwa [show (8 * c + j) / 8 = c by omega, show (8 * c + j) % 8 = j by omega]
    · -- the block was seen a chunk earlier, and was full
      obtain ⟨c, rfl⟩ : ∃ c', c = c' + 1 := Nat.exists_eq_succ_of_ne_zero (by omega)
      rw [dataLen_stale h.1 hj hc (Nat.not_lt.mp hin), dataLen_eq h hj (by omega),
        hbefore _ (by omega)] at hlen
      exact absurd hlen (lt_irrefl _)
  next := by
    intro j p p' hj hlen hpass hrest
    have hin : 8 * c + j < n := Nat.lt_of_succ_lt hrest.onFile
    rw [dataLen_eq h hj hin] at hlen
    refine .next _ p hin hlen ?_ hrest
    rwa [show (8 * c + j) / 8 = c by omega, show (8 * c + j) % 8 = j by omega]

theorem chunkLoop_of_fileLoop {m : Memory} {offset size : Nat} {x : List (Option (List UInt8)) × CLogBuffer} {re : Re}
    {data : List UInt8} {outSize : Option Nat} (hsize : size ≠ 0)
    (hread : f.readAt (offset + size) clogRedoBufferSize = (re, data, outSize))
    (h : Objects.fileLoop s f (fuel + 1) offset size m b p = some x) :
    ∃ y, Objects.chunkLoop s fuel m 8 b p = some y ∧ (y.2.2.2 = false → ∃ b' x',
      Objects.fileLoop s f fuel (offset + size) (outSize.getD size) (write m 0 data) b' y.2.1 = some x') := by
  simp only [Objects.fileLoop, if_pos hsize] at h
  cases hchunk : Objects.chunkLoop s fuel m 8 b p with
  | none =>
    simp only [hchunk] at h
    cases h
  | some y =>
    obtain ⟨rs, p', b', last⟩ := y
    refine ⟨_, rfl, ?_⟩
    rintro rfl
    simp only [hchunk, hread] at h
    obtain ⟨y, hy, -⟩ := Option.map_eq_some_iff.mp h
    exact ⟨b', y, hy⟩

theorem readsToEnd_of_fileLoop (h : WholeBlocks f n) (hn : 8 ≤ n) : ∀ {fuel c : Nat} {b : CLogBuffer}
    {p : CLogRecordBuffer} {x : List (Option (List UInt8)) × CLogBuffer}, 8 * c < n →
    (∀ i < 8 * c, payloadLen f i = 504) →
    Objects.fileLoop s f fuel (512 + 4096 * c) clogRedoBufferSize (redoBuffer f s.behind c) b p = some x →
    ReadsToEnd s f n (8 * c) p := by
  intro fuel
  induction fuel with
  | zero => exact fun _ _ h => nomatch h
  | succ fuel ih =>
    intro c b p x hc hbefore hx
    have hbounds := h.dataLen_bounds hn hc s.behind
    obtain ⟨re, outSize, hread, hsize⟩ := readAt_eq f (512 + 4096 * c + clogRedoBufferSize) clogRedoBufferSize
    obtain ⟨⟨rs, p', b', last⟩, hchunk, hmore⟩ := chunkLoop_of_fileLoop (by decide) hread hx
    rw [hsize] at hmore
    obtain ⟨htrue, hfalse⟩ := (ReadsToEnd.goesBack (s := s) h hn hc hbefore).chunkLoop hbounds le_rfl hchunk
    cases last with
    | true => exact htrue rfl
    | false =>
      obtain ⟨hall, hback⟩ := hfalse rfl
      obtain ⟨b'', y, hy⟩ := hmore rfl
      by_cases hlt : 8 * (c + 1) < n
      · rw [redoBuffer_next (by rw [h.1]; omega), ← next_offset] at hy
        have hnext : ∀ i < 8 * (c + 1), payloadLen f i = 504 := by
          intro i hi
          by_cases hold : i < 8 * c
          · exact hbefore i hold
          · have hfull := hall (i - 8 * c) (Nat.zero_le _) (by omega)
            rwa [dataLen_eq h (by omega) (by omega), Nat.add_sub_cancel' (not_lt.mp hold)] at hfull
        exact hback (ih hlt hnext hy)
      · -- there is nothing left to read
        have hend : f.size ≤ 512 + 4096 * c + clogRedoBufferSize := by
          rw [h.1, clogRedoBufferSize_eq]
          omega
        obtain ⟨bss, hbytes, -⟩ := fileLoop_bytes hy
        rw [fread_behind hend, write_nil, fileLoop_stuck (fun j hj => hall j (Nat.zero_le j) hj)
          (hend.trans (Nat.le_add_right _ _))] at hbytes
        cases hbytes

theorem ReadsToEnd.chunkLoop (h : WholeBlocks f n) : ∀ {left : Nat} {p : CLogRecordBuffer}, left ≤ 8 →
    ReadsToEnd s f n (8 * c + (8 - left)) p →
      (∃ p', ∀ b, ∃ rs b', Ends (fun fuel => Objects.chunkLoop s fuel (redoBuffer f s.behind c) left b p)
        (rs, p', b', true)) ∨
      ∃ p', ReadsToEnd s f n (8 * (c + 1)) p' ∧ ∀ b, ∃ rs b',
        Ends (fun fuel => Objects.chunkLoop s fuel (redoBuffer f s.behind c) left b p) (rs, p', b', false) := by
  intro left
  induction left with
  | zero => exact fun _ hread => .inr ⟨_, hread, fun b => ⟨[], b, 0, fun _ _ => rfl⟩⟩
  | succ left ih =>
    intro p hleft hread
    have hat : 8 * c + (8 - (left + 1)) = 8 * c + (7 - left) := by omega
    rw [hat] at hread
    have hin := hread.onFile
    have hj : 7 - left < 8 := by omega
    have hdiv : (8 * c + (7 - left)) / 8 = c := by omega
    have hmod : (8 * c + (7 - left)) % 8 = 7 - left := by omega
    obtain ⟨hd, hd'⟩ := h.2 _ hin
    have hlen := dataLen_eq (s := s) h hj hin
    unfold payloadLen at hlen
    rw [← hlen] at hd hd'
    cases hread with
    | last _ _ _ hshort hpass hlast =>
      rw [hdiv, hmod] at hpass
      obtain ⟨rs, hblock⟩ := hpass.blockLoop hd hd'
      exact .inl ⟨_, fun b => chunkLoop_last hd (lt_of_eq_of_lt hlen hshort) hblock hlast⟩
    | next _ _ _ hfull hpass hrest =>
      rw [hdiv, hmod] at hpass
      obtain ⟨rs, hblock⟩ := hpass.blockLoop hd hd'
      have hfull' := hlen.trans hfull
      rw [show 8 * c + (7 - left) + 1 = 8 * c + (8 - left) by omega] at hrest
      rcases ih (by omega) hrest with ⟨q, hends⟩ | ⟨q, hread, hends⟩
      · exact .inl ⟨q, fun b => chunkLoop_next hfull' hblock hends⟩
      · exact .inr ⟨q, hread, fun b => chunkLoop_next hfull' hblock hends⟩

theorem fileLoop_last {m : Memory} {offset size : Nat} {rs : List (Option (List UInt8))} {p' : CLogRecordBuffer}
    {b' : CLogBuffer} (hsize : size ≠ 0)
    (h : Ends (fun fuel => Objects.chunkLoop s fuel m 8 b p) (rs, p', b', true)) :
    Ends (fun fuel => Objects.fileLoop s f fuel offset size m b p) (rs, b') := by
  obtain ⟨N, hN⟩ := h
  refine ⟨N + 1, fun fuel hfuel => ?_⟩
  obtain ⟨fuel, rfl⟩ := Nat.exists_eq_add_of_le' (Nat.le_of_add_left_le hfuel)
  have hrun := hN fuel (by omega)
  simp only at hrun
  simp only [Objects.fileLoop, if_pos hsize, hrun]

theorem fileLoop_next {m : Memory} {offset size : Nat} {rs : List (Option (List UInt8))} {p' : CLogRecordBuffer}
    {b' : CLogBuffer} {x : List (Option (List UInt8)) × CLogBuffer} {re : Re} {data : List UInt8}
    {outSize : Option Nat} (hsize : size ≠ 0)
    (h : Ends (fun fuel => Objects.chunkLoop s fuel m 8 b p) (rs, p', b', false))
    (hread : f.readAt (offset + size) clogRedoBufferSize = (re, data, outSize))
    (hrest : Ends (fun fuel => Objects.fileLoop s f fuel (offset + size) (outSize.getD size) (write m 0 data) b' p') x) :
    Ends (fun fuel => Objects.fileLoop s f fuel offset size m b p) (rs ++ x.1, x.2) := by
  obtain ⟨N, hN⟩ := h
  obtain ⟨N', hN'⟩ := hrest
  refine ⟨max N N' + 1, fun fuel hfuel => ?_⟩
  obtain ⟨fuel, rfl⟩ := Nat.exists_eq_add_of_le' (Nat.le_of_add_left_le hfuel)
  have h1 := hN fuel (by omega)
  have h2 := hN' fuel (by omega)
  simp only at h1 h2
  simp only [Objects.fileLoop, if_pos hsize, h1, hread, h2, Option.map_some]

/-- The outer loop over a log that is read to its end. -/
theorem ReadsToEnd.fileLoop (h : WholeBlocks f n) : ∀ {k c : Nat} {p : CLogRecordBuffer}, n ≤ 8 * c + k →
    ReadsToEnd s f n (8 * c) p → ∀ b, ∃ x, Ends (fun fuel => Objects.fileLoop s f fuel (512 + 4096 * c)
      clogRedoBufferSize (redoBuffer f s.behind c) b p) x := by
  have hne : clogRedoBufferSize ≠ 0 := by decide
  intro k
  induction k with
  | zero => exact fun hk hread => absurd hread.onFile (Nat.not_lt.mpr hk)
  | succ k ih =>
    intro c p hk hread b
    rcases hread.chunkLoop h (le_refl 8) with ⟨p', hends⟩ | ⟨p', hrest, hends⟩
    · obtain ⟨rs, b', hchunk⟩ := hends b
      exact ⟨_, fileLoop_last hne hchunk⟩
    · obtain ⟨rs, b', hchunk⟩ := hends b
      obtain ⟨x, hx⟩ := ih (c := c + 1) (by omega) hrest b'
      obtain ⟨re, outSize, hreadAt, hsize⟩ := readAt_eq f (512 + 4096 * c + clogRedoBufferSize) clogRedoBufferSize
      have hin := hrest.onFile
      refine ⟨_, fileLoop_next hne hchunk hreadAt (x := x) ?_⟩
      rw [hsize, redoBuffer_next (by rw [h.1]; omega), ← next_offset]
      exact hx

/-- A log that does not fill `redo_buffer` is not looked into. -/
theorem recover_short (hsize : f.size < 512 + 4096) (s : RecoverStack) (b : CLogBuffer) :
    Ends (fun fuel => Objects.recover fuel f s b) ([], b) := by
  have hlen := mt length_fread_first.mp (Nat.not_le.mpr hsize)
  refine ⟨1, fun fuel hfuel => ?_⟩
  obtain ⟨fuel, rfl⟩ := Nat.exists_eq_add_of_le' hfuel
  simp only [Objects.recover, PersistFile.readAt, if_pos hlen, Option.getD_none, Objects.fileLoop]
  rfl

/-- The first chunk of a log that fills `redo_buffer`. -/
theorem recover_eq (hsize : 512 + 4096 ≤ f.size) (fuel : Nat) (s : RecoverStack) (b : CLogBuffer) :
    Objects.recover fuel f s b =
      Objects.fileLoop s f fuel 512 clogRedoBufferSize (redoBuffer f s.behind 0) b .empty := by
  have hlen := not_not.mpr (length_fread_first.mpr hsize)
  simp only [Objects.recover, PersistFile.readAt, if_neg hlen, Option.getD_some]
  rw [← redoBuffer_first hsize]
  rfl

/-- `Recover` returns exactly when it reads nothing, or reads the log to its end. -/
theorem recover_returns_iff (h : WholeBlocks f n) (s : RecoverStack) (b : CLogBuffer) :
    (∃ x, Ends (fun fuel => Objects.recover fuel f s b) x) ↔ n < 8 ∨ ReadsToEnd s f n 0 .empty := by
  by_cases hn : n < 8
  · refine iff_of_true ⟨_, recover_short ?_ s b⟩ (.inl hn)
    rw [h.1]
    omega
  · have hn8 := Nat.not_lt.mp hn
    have hsize : 512 + 4096 ≤ f.size := by
      rw [h.1]
      omega
    rw [or_iff_right hn]
    constructor
    · rintro ⟨x, N, hN⟩
      have hrun := hN N le_rfl
      simp only [recover_eq hsize] at hrun
      exact readsToEnd_of_fileLoop (c := 0) h hn8 (by omega) (fun i hi => absurd hi (Nat.not_lt_zero i)) hrun
    · intro hread
      simp only [recover_eq hsize]
      exact hread.fileLoop h (c := 0) (k := n) (by omega) b

theorem ReadsToEnd.exists_notFull {i : Nat} (h : ReadsToEnd s f n i p) : ∃ j < n, payloadLen f j < 504 := by
  induction h with
  | last i _ hi hlen => exact ⟨i, hi, hlen⟩
  | next _ _ _ _ _ _ ih => exact ih

end File

/-! ## Full blocks -/

section FullBlocks

/-- A full block with one `RedoMiniTxnBegin` of 504 bytes, whose length also stands where it is looked up. -/
def fullBlock : Memory := fun x =>
  if x ∈ [4, 20, 140] then 248 else if x ∈ [5, 16, 21, 141] then 1 else if x = 6 then 8 else 0

/-- A header block, eight full blocks, and blocks without payload up to `n`. -/
def fullBlocks (n : Nat) : PersistFile := ⟨512 * (n + 1), fun x => if x < 512 * 9 then fullBlock (x % 512) else 0⟩

variable {s : RecoverStack} {n j : Nat} {stack : Memory}

theorem getInt_fullBlocks (hj : j < 8) {k l : Nat} (hk : k + l ≤ 512) :
    getInt (fullBlocks n).bytes (512 * (j + 1) + k) l = getInt fullBlock k l := by
  refine getInt_congr fun x hx => ?_
  have hin : 512 * (j + 1) + k + x < 512 * 9 := by omega
  have hmod : (512 * (j + 1) + k + x) % 512 = k + x := by omega
  simp only [fullBlocks, if_pos hin, hmod]

theorem getInt_behind (hj : 8 ≤ j) (k l : Nat) : getInt (fullBlocks n).bytes (512 * (j + 1) + k) l = 0 := by
  have hzero : getInt (zero (fun _ => 0) 0 l) 0 l = 0 := getInt_zero (Nat.zero_le 0) (Nat.le_refl (0 + l))
  refine Eq.trans (getInt_congr fun x hx => ?_) hzero
  have hout : ¬512 * (j + 1) + k + x < 512 * 9 := by omega
  simp only [fullBlocks, if_neg hout, zero, ite_self]

theorem payloadLen_fullBlocks (hj : j < 8) : payloadLen (fullBlocks n) j = 504 := by
  rw [payloadLen, CLogBlock.blockDataLen_ofMemory, getInt_fullBlocks hj (by decide)]
  decide +kernel

theorem payloadLen_behind (hj : 8 ≤ j) : payloadLen (fullBlocks n) j = 0 := by
  rw [payloadLen, CLogBlock.blockDataLen_ofMemory, getInt_behind hj]

theorem wholeBlocks_fullBlocks : WholeBlocks (fullBlocks n) n := by
  refine ⟨rfl, fun i _ => ?_⟩
  change 0 ≤ payloadLen (fullBlocks n) i ∧ payloadLen (fullBlocks n) i ≤ 504
  by_cases hi : i < 8
  · rw [payloadLen_fullBlocks hi]
    decide
  · rw [payloadLen_behind (Nat.not_lt.mp hi)]
    decide

/-- The last block of the log is full. -/
theorem not_recover_returns_full : ¬∀ (f : PersistFile) (n : Nat), WholeBlocks f n → ∀ (s : RecoverStack)
    (b : CLogBuffer), ∃ x, Ends (fun fuel => Objects.recover fuel f s b) x := by
  intro hall
  have hreturns := hall (fullBlocks 8) 8 wholeBlocks_fullBlocks ⟨fun _ => 0, 2 ^ 20, 2 ^ 20⟩ .new
  have hsize : 512 + 4096 ≤ (fullBlocks 8).size := by decide
  obtain ⟨x, N, hN⟩ := hreturns
  have hrun := hN N le_rfl
  simp only [recover_eq hsize] at hrun
  have hread := readsToEnd_of_fileLoop (c := 0) wholeBlocks_fullBlocks le_rfl (by decide)
    (fun i hi => absurd hi (Nat.not_lt_zero i)) hrun
  obtain ⟨j, hj, hlen⟩ := hread.exists_notFull
  rw [payloadLen_fullBlocks hj] at hlen
  exact absurd hlen (lt_irrefl _)

theorem getInt_redoBuffer (hn : 8 ≤ n) (hj : j < 8) {k l : Nat} (hk : k + l ≤ 512) :
    getInt (redoBuffer (fullBlocks n) stack 0) (512 * j + k) l = getInt fullBlock k l := by
  rw [← getInt_fullBlocks (n := n) hj hk]
  refine getInt_congr fun x hx => ?_
  have hlt : 512 * j + k + x < 4096 := by omega
  have hin : 512 + 4096 * 0 + (512 * j + k + x) < (fullBlocks n).size := by
    simp only [fullBlocks]
    omega
  rw [redoBuffer, if_pos hlt, redoMemory, if_pos hin]
  exact congrArg (fullBlocks n).bytes (by omega)

/-- A full block is left behind its record. -/
theorem passesBlock_fullBlocks (hn : 8 ≤ n) (hj : j < 8) :
    PassesBlock s (redoBuffer (fullBlocks n) stack 0) j .empty .empty := by
  have hlen : dataLen (redoBuffer (fullBlocks n) stack 0) j = 504 := by
    rw [dataLen, CLogBlock.blockDataLen_ofMemory, getInt_redoBuffer hn hj (by decide)]
    decide +kernel
  have hfirst : (CLogBlock.ofMemory (redoBuffer (fullBlocks n) stack 0) (512 * j)).firstRecordOffset = 8 := by
    rw [CLogBlock.firstRecordOffset_ofMemory, getInt_redoBuffer hn hj (by decide)]
    decide +kernel
  have hlook : lookedUp (redoBuffer (fullBlocks n) stack 0) (512 * j) 8 = 504 := by
    have haddr : (((512 * j : Nat) : Int) + clogRecordHeaderSize * 8).toNat = 512 * j + 128 := by
      have h16 : (clogRecordHeaderSize : Int) = 16 := rfl
      rw [h16]
      omega
    rw [lookedUp, haddr, CLogRecordHeader.clogRecordLen, Nat.add_assoc, getInt_redoBuffer hn hj (by decide)]
    decide +kernel
  have hset : CLogRecord.Set (redoBuffer (fullBlocks n) stack 0) s.redoSize (((512 * j : Nat) : Int) + 8).toNat := by
    have haddr : (((512 * j : Nat) : Int) + 8).toNat = 512 * j + 8 := by omega
    have htype : CLogType.ofCode (getInt (redoBuffer (fullBlocks n) stack 0) (512 * j + 8 + 8) 4) =
        .redoMiniTxnBegin := by
      rw [Nat.add_assoc, getInt_redoBuffer hn hj (by decide)]
      decide +kernel
    rw [haddr, CLogRecord.Set, CLogRecord.ofData, htype]
    rfl
  have hwhole := Steps.whole (s := s) 8 .empty (fun _ => hfirst) (by decide) rfl (by rw [hlook]; decide) hset
  rw [hlook] at hwhole
  rw [PassesBlock, hlen]
  exact .next 8 .empty (by decide) hwhole (.out _ _ (by decide))

/-- A log of eight full blocks and one without payload. -/
theorem recover_returns_iff_nine : ∃ x, Ends (fun fuel => Objects.recover fuel (fullBlocks 9)
    ⟨fun _ => 0, 2 ^ 20, 2 ^ 20⟩ .new) x := by
  refine (recover_returns_iff (wholeBlocks_fullBlocks (n := 9)) _ _).mpr (.inr ?_)
  have hrest : ∀ {k i : Nat}, i + k = 8 → ReadsToEnd ⟨fun _ => 0, 2 ^ 20, 2 ^ 20⟩ (fullBlocks 9) 9 i .empty := by
    intro k
    induction k with
    | zero =>
      intro i hi
      obtain rfl : i = 8 := hi
      have hlen : dataLen (redoBuffer (fullBlocks 9) (fun _ => 0) 1) 0 = 0 := by
        rw [dataLen_redoBuffer (n := 9) rfl (by decide) (by decide)]
        exact payloadLen_behind (Nat.le_refl 8)
      have hpasses : PassesBlock ⟨fun _ => 0, 2 ^ 20, 2 ^ 20⟩ (redoBuffer (fullBlocks 9) (fun _ => 0) 1) 0 .empty
          .empty := by
        rw [PassesBlock, hlen]
        exact .out _ _ (by decide)
      exact .last 8 .empty (by decide) (by rw [payloadLen_behind (Nat.le_refl 8)]; decide) hpasses rfl
    | succ k ih =>
      intro i hi
      have hi8 : i < 8 := by omega
      refine .next i .empty (by omega) (payloadLen_fullBlocks hi8) ?_ (ih (by omega))
      rw [Nat.div_eq_of_lt hi8, Nat.mod_eq_of_lt hi8]
      exact passesBlock_fullBlocks (by decide) hi8
  exact hrest (Nat.zero_add 8)

end FullBlocks

end CLogFile.Objects

end Idmbs
