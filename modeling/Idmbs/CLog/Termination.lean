import Idmbs.CLog.Recovery

/-!
# Idmbs.CLog.Termination

What a run of `Recover` (storage/clog_manager.cpp) that ends tells about the blocks on file, for any whole blocks.
A block is left when the offsets that `BlockRecover` goes through leave it; the file is left at its first block that
is not full.
-/

namespace Idmbs

open Bytes

namespace CLogFile

/-- The offset after `o`, when the side buffer is not in the way. -/
def nextOffset (m : Memory) (a : Nat) (o : Int) : Int :=
  let first := (CLogBlock.ofMemory m a).firstRecordOffset
  let len := CLogRecordHeader.clogRecordLen m (a + clogRecordHeaderSize * o).toNat
  if o = clogBlockHeaderSize ∧ first ≠ clogBlockHeaderSize then max clogBlockHeaderSize first
  else if clogBlockSize - o < clogRecordHeaderSize then clogBlockSize
  else if len ≤ clogBlockSize - o then (o + len).bmod (2 ^ 16)
  else clogBlockSize

/-- The record at `o` lies in its block by the length that is looked up for it. -/
structure Whole (m : Memory) (a : Nat) (o : Int) : Prop where
  starts : ¬(o = clogBlockHeaderSize ∧ (CLogBlock.ofMemory m a).firstRecordOffset ≠ clogBlockHeaderSize)
  header : (clogRecordHeaderSize : Int) ≤ clogBlockSize - o
  fits : CLogRecordHeader.clogRecordLen m (a + clogRecordHeaderSize * o).toNat ≤ clogBlockSize - o

/-- The offsets from `o` on leave a block with `d` bytes of payload. -/
inductive Leaves (m : Memory) (a : Nat) (d : Int) : Int → Prop
  | out (o : Int) (h : ¬(0 ≤ o ∧ o < 8 + d)) : Leaves m a d o
  | next (o : Int) (h : Leaves m a d (nextOffset m a o)) : Leaves m a d o

section Block

variable {m : Memory} {a : Nat} {d o : Int} {p : CLogRecordBuffer}

/-- Offsets are `int16_t`. -/
def IsOffset (o : Int) : Prop := -2 ^ 15 ≤ o ∧ o < 2 ^ 15

theorem isOffset_bmod (v : Int) : IsOffset (v.bmod (2 ^ 16)) :=
  ⟨Int.le_bmod (by decide), Int.bmod_lt (by decide)⟩

theorem isOffset_first : IsOffset (CLogBlock.ofMemory m a).firstRecordOffset := by
  rw [CLogBlock.firstRecordOffset_ofMemory]
  exact isOffset_bmod _

theorem isOffset_nextOffset : IsOffset (nextOffset m a o) := by
  have hfirst : IsOffset (CLogBlock.ofMemory m a).firstRecordOffset := isOffset_first
  unfold nextOffset
  simp only
  split
  · obtain ⟨h1, h2⟩ := hfirst
    refine ⟨le_trans (by decide) (le_max_left _ _), max_lt (by decide) h2⟩
  · split
    · exact ⟨by decide, by decide⟩
    · split
      · exact isOffset_bmod _
      · exact ⟨by decide, by decide⟩

theorem toSizeT_lt_iff (ho : IsOffset o) (hd : 0 ≤ d) (hd' : d ≤ 504) :
    toSizeT o < toSizeT (clogBlockHeaderSize + d) ↔ 0 ≤ o ∧ o < 8 + d := by
  obtain ⟨h1, h2⟩ := ho
  have h8 : (clogBlockHeaderSize : Int) = 8 := rfl
  rw [h8, toSizeT_eq (v := 8 + d) (by omega) (by omega), toSizeT]
  omega

theorem bmod_rest {v : Int} (h : IsOffset v) :
    ((clogBlockHeaderSize : Int) + ((v - clogBlockHeaderSize).toNat : Int)).bmod (2 ^ 16) =
      max (clogBlockHeaderSize : Int) v := by
  obtain ⟨h1, h2⟩ := h
  have h8 : (clogBlockHeaderSize : Int) = 8 := rfl
  rw [h8, Int.bmod_eq_of_le_mul_two (by omega) (by omega)]
  omega

theorem push_writeOffset_ne {bs : List UInt8} (h : bs ≠ []) : (p.push bs).writeOffset ≠ 0 := by
  have hpos := List.length_pos_of_ne_nil h
  have hadd : (p.push bs).writeOffset = p.writeOffset + bs.length := rfl
  omega

theorem read_ne_nil {k : Nat} (h : 0 < k) : read m a k ≠ [] :=
  List.ne_nil_of_length_pos (by rw [length_read]; exact h)

/-- A call moves on, and leaves the side buffer empty exactly behind a record in the block; or it hands over the
record in the side buffer and stays. -/
theorem blockRecover_moves (p : CLogRecordBuffer) (ho : 0 ≤ o) (ho' : o < 512) :
    (∃ p' r, blockRecover m a o p = (nextOffset m a o, p', r) ∧
      (nextOffset m a o ≠ o → (p'.writeOffset = 0 ↔ Whole m a o))) ∨
    p.writeOffset ≠ 0 ∧ ∃ r, blockRecover m a o p = (o, .empty, r) := by
  have h512 : (clogBlockSize : Int) = 512 := rfl
  have h16 : (clogRecordHeaderSize : Int) = 16 := rfl
  have h8 : (clogBlockHeaderSize : Int) = 8 := rfl
  have hsize : toSizeT (clogBlockSize - o) = clogBlockSize - o := by
    rw [h512]
    exact toSizeT_eq (by omega) (by omega)
  unfold blockRecover nextOffset
  simp only [hsize]
  split
  · rename_i hrest
    rw [hrest.1, bmod_rest isOffset_first]
    refine .inl ⟨_, _, rfl, fun hmoves => iff_of_false (push_writeOffset_ne (read_ne_nil ?_)) ?_⟩
    · have hbehind := le_max_left (clogBlockHeaderSize : Int) (CLogBlock.ofMemory m a).firstRecordOffset
      rw [h8] at hmoves hbehind ⊢
      omega
    · exact fun h => h.starts ⟨rfl, hrest.2⟩
  · rename_i hrest
    split
    · rename_i hshort
      refine .inl ⟨_, _, rfl, fun _ => iff_of_false (push_writeOffset_ne (read_ne_nil ?_)) ?_⟩
      · rw [h512]
        omega
      · exact fun h => absurd h.header (not_le.mpr hshort)
    · rename_i hlong
      split
      · rename_i hp
        exact .inr ⟨hp, _, rfl⟩
      · rename_i hp
        split
        · rename_i hfits
          exact .inl ⟨_, _, rfl, fun _ => iff_of_true (not_not.mp hp) ⟨hrest, not_lt.mp hlong, hfits⟩⟩
        · rename_i hfits
          refine .inl ⟨_, _, rfl, fun _ => iff_of_false (push_writeOffset_ne (read_ne_nil ?_)) ?_⟩
          · rw [h512]
            omega
          · exact fun h => hfits h.fits

/-- A call moves on, or hands over the record in the side buffer and stays. -/
theorem blockRecover_cases (p : CLogRecordBuffer) (ho : 0 ≤ o) (ho' : o < 512) :
    (∃ p' r, blockRecover m a o p = (nextOffset m a o, p', r)) ∨
      p.writeOffset ≠ 0 ∧ ∃ r, blockRecover m a o p = (o, .empty, r) := by
  cases blockRecover_moves p ho ho' with
  | inl hmoves =>
    obtain ⟨p', r, hstep, -⟩ := hmoves
    exact .inl ⟨p', r, hstep⟩
  | inr hstays => exact .inr hstays

theorem leaves_of_blockLoop (hd : 0 ≤ (CLogBlock.ofMemory m a).blockDataLen)
    (hd' : (CLogBlock.ofMemory m a).blockDataLen ≤ 504) : ∀ {fuel : Nat} {o : Int} {p : CLogRecordBuffer}
    {x : List (List UInt8) × CLogRecordBuffer}, IsOffset o → blockLoop m a fuel o p = some x →
    Leaves m a (CLogBlock.ofMemory m a).blockDataLen o := by
  intro fuel
  induction fuel with
  | zero => nofun
  | succ fuel ih =>
    intro o p x ho h
    rw [blockLoop] at h
    by_cases hin : 0 ≤ o ∧ o < 8 + (CLogBlock.ofMemory m a).blockDataLen
    · rw [if_pos ((toSizeT_lt_iff ho hd hd').mpr hin)] at h
      rcases blockRecover_cases p hin.1 (by omega) with ⟨p', r, hstep⟩ | ⟨-, r, hstep⟩
      · rw [hstep] at h
        obtain ⟨y, hy, -⟩ := Option.map_eq_some_iff.mp h
        exact .next o (ih isOffset_nextOffset hy)
      · rw [hstep] at h
        obtain ⟨y, hy, -⟩ := Option.map_eq_some_iff.mp h
        exact ih ho hy
    · exact .out o hin

end Block

/-- `block_data_len` of block `j` in memory. -/
def dataLen (m : Memory) (j : Nat) : Int := (CLogBlock.ofMemory m (512 * j)).blockDataLen

/-- The offsets leave block `j`. -/
def Left (m : Memory) (j : Nat) : Prop := Leaves m (512 * j) (dataLen m j) 8

/-- `Recover` goes through block `j`. -/
def Through (m : Memory) (j : Nat) : Prop := dataLen m j = 504 ∧ Left m j

/-- `Recover` ends with block `j`. -/
def Stops (m : Memory) (j : Nat) : Prop := dataLen m j < 504 ∧ Left m j

section Chunk

variable {m : Memory} {b : CLogBuffer} {p : CLogRecordBuffer} {fuel : Nat}

theorem isOffset_start : IsOffset 8 := by
  constructor <;> decide

theorem isLast_iff {v : Int} (h : 0 ≤ v) (h' : v ≤ 504) : toSizeT v < clogBlockDataSize ↔ v < 504 := by
  have h504 : (clogBlockDataSize : Int) = 504 := rfl
  rw [h504, toSizeT_eq h (by omega)]

/-- What a chunk that was read tells about its blocks. -/
theorem chunkLoop_some (hm : ∀ j < 8, 0 ≤ dataLen m j ∧ dataLen m j ≤ 504) : ∀ {left : Nat} {b : CLogBuffer}
    {p : CLogRecordBuffer} {x : List (List UInt8) × CLogRecordBuffer × CLogBuffer × Bool}, left ≤ 8 →
    chunkLoop fuel m left b p = some x →
    x.2.2.2 = false ∧ (∀ j, 8 - left ≤ j → j < 8 → Through m j) ∨
      x.2.2.2 = true ∧ ∃ i, 8 - left ≤ i ∧ i < 8 ∧ Stops m i ∧ ∀ j, 8 - left ≤ j → j < i → Through m j := by
  intro left
  induction left with
  | zero =>
    intro b p x _ h
    cases h
    exact .inl ⟨rfl, fun j h1 h2 => absurd h2 (Nat.not_lt.mpr h1)⟩
  | succ left ih =>
    intro b p x hleft h
    obtain ⟨hd, hd'⟩ := hm (7 - left) (by omega)
    rw [chunkLoop] at h
    cases hloop : blockLoop m (clogBlockSize * (7 - left)) fuel clogBlockHeaderSize p with
    | none =>
      simp only [hloop] at h
      cases h
    | some y =>
      have hleaves : Left m (7 - left) := leaves_of_blockLoop hd hd' isOffset_start hloop
      simp only [hloop] at h
      split at h
      · rename_i hlast
        cases h
        have hstop : dataLen m (7 - left) < 504 := (isLast_iff hd hd').mp hlast
        exact .inr ⟨rfl, 7 - left, by omega, by omega, ⟨hstop, hleaves⟩, fun j h1 h2 => absurd h2 (by omega)⟩
      · rename_i hlast
        have hfull : dataLen m (7 - left) = 504 := le_antisymm hd' (not_lt.mp (mt (isLast_iff hd hd').mpr hlast))
        obtain ⟨z, hz, rfl⟩ := Option.map_eq_some_iff.mp h
        have hstep : ∀ j, 8 - (left + 1) ≤ j → (8 - left ≤ j → Through m j) → Through m j := by
          intro j h1 h2
          by_cases hj : j = 7 - left
          · rw [hj]
            exact ⟨hfull, hleaves⟩
          · exact h2 (by omega)
        rcases ih (by omega) hz with ⟨hflag, hall⟩ | ⟨hflag, i, h1, h2, hstop, hall⟩
        · exact .inl ⟨hflag, fun j hj hj' => hstep j hj fun hj'' => hall j hj'' hj'⟩
        · exact .inr ⟨hflag, i, by omega, h2, hstop, fun j hj hj' => hstep j hj fun hj'' => hall j hj'' hj'⟩

end Chunk

/-- `redo_buffer` and the stack behind it while chunk `c` is read. -/
def redoBuffer (f : PersistFile) (stack : Memory) (c : Nat) : Memory := fun x =>
  if x < 4096 then redoMemory f c x else stack x

/-- Block `i` is the first one of `n` that is not full, and the offsets leave it and all before it. -/
structure StopsAt (f : PersistFile) (stack : Memory) (n i : Nat) : Prop where
  onFile : i < n
  stops : Stops (redoBuffer f stack (i / 8)) (i % 8)
  before : ∀ j < i, Through (redoBuffer f stack (j / 8)) (j % 8)

section File

variable {f : PersistFile} {stack m : Memory} {n c j : Nat}

theorem shows_redoBuffer : Shows (redoBuffer f stack c) f c := fun _ hx => if_pos hx

theorem redoBuffer_ext (hm : Shows m f c) (hstack : ∀ x, 4096 ≤ x → m x = stack x) :
    m = redoBuffer f stack c := by
  funext x
  by_cases hx : x < 4096
  · rw [hm x hx, redoBuffer, if_pos hx]
  · rw [hstack x (Nat.not_lt.mp hx), redoBuffer, if_neg hx]

theorem redoBuffer_first (hfull : 512 + 4096 ≤ f.size) :
    write stack 0 (f.fread 512 4096) = redoBuffer f stack 0 := by
  refine redoBuffer_ext (Shows.first hfull) fun x hx => ?_
  refine write_of_ge ?_
  rw [PersistFile.fread, length_read]
  omega

theorem redoBuffer_next (hfull : 512 + 4096 * (c + 1) ≤ f.size) :
    write (redoBuffer f stack c) 0 (f.fread (512 + 4096 * c + clogRedoBufferSize) clogRedoBufferSize) =
      redoBuffer f stack (c + 1) := by
  refine redoBuffer_ext (shows_redoBuffer.next_chunk hfull) fun x hx => ?_
  rw [write_of_ge, redoBuffer, if_neg (Nat.not_lt.mpr hx)]
  rw [PersistFile.fread, length_read, clogRedoBufferSize_eq]
  omega

theorem dataLen_redoBuffer (hsize : f.size = 512 * (n + 1)) (hj : j < 8) (hin : 8 * c + j < n) :
    dataLen (redoBuffer f stack c) j = (CLogBlock.ofMemory f.bytes (512 * (8 * c + j + 1))).blockDataLen := by
  refine congrArg CLogBlock.blockDataLen (CLogBlock.ofMemory_congr fun x hx => ?_)
  have hfile : redoMemory f c (512 * j + x) = f.bytes (512 + 4096 * c + (512 * j + x)) := if_pos (by omega)
  rw [shows_redoBuffer _ (by omega), hfile]
  exact congrArg f.bytes (by omega)

/-- Behind the last block the chunk before is still there. -/
theorem dataLen_stale (hsize : f.size = 512 * (n + 1)) (hj : j < 8) (hmore : 8 * (c + 1) < n)
    (hout : n ≤ 8 * (c + 1) + j) : dataLen (redoBuffer f stack (c + 1)) j = dataLen (redoBuffer f stack c) j := by
  refine congrArg CLogBlock.blockDataLen (CLogBlock.ofMemory_congr fun x hx => ?_)
  have hold : redoMemory f c (512 * j + x) = f.bytes (512 + 4096 * c + (512 * j + x)) := if_pos (by omega)
  have hnew : redoMemory f (c + 1) (512 * j + x) = f.bytes (512 + 4096 * (c + 1) + (512 * j + x) - 4096) :=
    if_neg (by omega)
  rw [shows_redoBuffer _ (by omega), shows_redoBuffer _ (by omega), hold, hnew]
  exact congrArg f.bytes (by omega)

/-- The lengths in the headers are in bounds. -/
def WholeBlocks (f : PersistFile) (n : Nat) : Prop :=
  f.size = 512 * (n + 1) ∧ ∀ i < n, 0 ≤ (CLogBlock.ofMemory f.bytes (512 * (i + 1))).blockDataLen ∧
    (CLogBlock.ofMemory f.bytes (512 * (i + 1))).blockDataLen ≤ 504

theorem WholeBlocks.dataLen_bounds (h : WholeBlocks f n) (hn : 8 ≤ n) (hc : 8 * c < n) (stack : Memory) :
    ∀ j < 8, 0 ≤ dataLen (redoBuffer f stack c) j ∧ dataLen (redoBuffer f stack c) j ≤ 504 := by
  intro j hj
  by_cases hin : 8 * c + j < n
  · rw [dataLen_redoBuffer h.1 hj hin]
    exact h.2 _ hin
  · obtain ⟨c, rfl⟩ : ∃ c', c = c' + 1 := Nat.exists_eq_succ_of_ne_zero (by omega)
    rw [dataLen_stale h.1 hj hc (Nat.not_lt.mp hin), dataLen_redoBuffer h.1 hj (by omega)]
    exact h.2 _ (by omega)

theorem fread_behind {offset : Nat} (h : f.size ≤ offset) (k : Nat) : f.fread offset k = [] := by
  rw [PersistFile.fread, Nat.sub_eq_zero_of_le h, Nat.min_zero]
  rfl

theorem write_nil (m : Memory) : write m 0 [] = m := funext fun x => write_of_ge (Nat.zero_le x)

/-- At the end of the file `read_size` keeps its value and `redo_buffer` its blocks. -/
theorem fileLoop_stuck (hm : Full m) : ∀ {fuel offset : Nat} {b : CLogBuffer} {p : CLogRecordBuffer},
    f.size ≤ offset + clogRedoBufferSize → fileLoop f fuel offset clogRedoBufferSize m b p = none := by
  intro fuel
  induction fuel with
  | zero => exact fun _ => rfl
  | succ fuel ih =>
    intro offset b p hend
    obtain ⟨re, outSize, hread, hsize⟩ := readAt_eq f (offset + clogRedoBufferSize) clogRedoBufferSize
    refine fileLoop_none (by decide) (fun x => hm.chunkLoop le_rfl) hread fun b' p' => ?_
    rw [hsize, fread_behind hend, write_nil]
    exact ih (hend.trans (Nat.le_add_right _ _))

theorem chunkLoop_of_fileLoop {fuel offset size : Nat} {b : CLogBuffer} {p : CLogRecordBuffer}
    {x : List (List UInt8) × CLogBuffer} {re : Re} {data : List UInt8} {outSize : Option Nat} (hsize : size ≠ 0)
    (hread : f.readAt (offset + size) clogRedoBufferSize = (re, data, outSize))
    (h : fileLoop f (fuel + 1) offset size m b p = some x) :
    ∃ y, CLogFile.chunkLoop fuel m 8 b p = some y ∧ (y.2.2.2 = false → ∃ b' p' x',
      fileLoop f fuel (offset + size) (outSize.getD size) (write m 0 data) b' p' = some x') := by
  simp only [fileLoop, if_pos hsize] at h
  cases hchunk : CLogFile.chunkLoop fuel m 8 b p with
  | none =>
    simp only [hchunk] at h
    cases h
  | some y =>
    obtain ⟨rs, p', b', last⟩ := y
    refine ⟨_, rfl, ?_⟩
    rintro rfl
    simp only [hchunk, hread] at h
    obtain ⟨y, hy, -⟩ := Option.map_eq_some_iff.mp h
    exact ⟨b', p', y, hy⟩

/-- A run of the outer loop from chunk `c` on stops at a block. -/
theorem stopsAt_of_fileLoop (h : WholeBlocks f n) (hn : 8 ≤ n) : ∀ {fuel c : Nat} {b : CLogBuffer}
    {p : CLogRecordBuffer} {x : List (List UInt8) × CLogBuffer}, 8 * c < n →
    (∀ j < 8 * c, Through (redoBuffer f stack (j / 8)) (j % 8)) →
    fileLoop f fuel (512 + 4096 * c) clogRedoBufferSize (redoBuffer f stack c) b p = some x →
    ∃ i, StopsAt f stack n i := by
  intro fuel
  induction fuel with
  | zero => nofun
  | succ fuel ih =>
    intro c b p x hc hbefore hx
    have hbounds := h.dataLen_bounds hn hc stack
    -- the blocks up to block `i` of this chunk
    have hupTo : ∀ {i}, i ≤ 8 → (∀ j, 8 - 8 ≤ j → j < i → Through (redoBuffer f stack c) j) →
        ∀ j < 8 * c + i, Through (redoBuffer f stack (j / 8)) (j % 8) := by
      intro i hi hall j hj
      by_cases hold : j < 8 * c
      · exact hbefore j hold
      · rw [show j / 8 = c by omega, show j % 8 = j - 8 * c by omega]
        exact hall _ (Nat.zero_le _) (by omega)
    obtain ⟨re, outSize, hread, hsize⟩ := readAt_eq f (512 + 4096 * c + clogRedoBufferSize) clogRedoBufferSize
    obtain ⟨y, hchunk, hmore⟩ := chunkLoop_of_fileLoop (by decide) hread hx
    rw [hsize] at hmore
    rcases chunkLoop_some hbounds le_rfl hchunk with ⟨hfalse, hall⟩ | ⟨-, i, -, hi, hstop, hall⟩
    · obtain ⟨b', p', x', hy⟩ := hmore hfalse
      by_cases hlt : 8 * (c + 1) < n
      · rw [redoBuffer_next (by rw [h.1]; omega), ← next_offset] at hy
        have hnext : ∀ j < 8 * (c + 1), Through (redoBuffer f stack (j / 8)) (j % 8) :=
          fun j hj => hupTo le_rfl hall j (by omega)
        exact ih hlt hnext hy
      · -- there is nothing left to read
        have hend : f.size ≤ 512 + 4096 * c + clogRedoBufferSize := by
          rw [h.1, clogRedoBufferSize_eq]
          omega
        rw [fread_behind hend, write_nil, fileLoop_stuck (fun j hj => (hall j (Nat.zero_le j) hj).1)
          (hend.trans (Nat.le_add_right _ _))] at hy
        cases hy
    · by_cases hin : 8 * c + i < n
      · refine ⟨8 * c + i, hin, ?_, hupTo hi.le hall⟩
        rwa [show (8 * c + i) / 8 = c by omega, show (8 * c + i) % 8 = i by omega]
      · -- the block was seen a chunk earlier, and was full
        obtain ⟨c, rfl⟩ : ∃ c', c = c' + 1 := Nat.exists_eq_succ_of_ne_zero (by omega)
        have hfull := (hbefore (8 * c + i) (by omega)).1
        rw [show (8 * c + i) / 8 = c by omega, show (8 * c + i) % 8 = i by omega] at hfull
        have hlt := hstop.1
        rw [dataLen_stale h.1 hi hc (Nat.not_lt.mp hin), hfull] at hlt
        exact absurd hlt (lt_irrefl _)

theorem stopsAt_of_recover (h : WholeBlocks f n) (hn : 8 ≤ n) {fuel : Nat} {b : CLogBuffer}
    {x : List (List UInt8) × CLogBuffer} (hx : recover fuel f stack b = some x) : ∃ i, StopsAt f stack n i := by
  have hsize : 512 + 4096 ≤ f.size := by
    rw [h.1]
    omega
  rw [recover_eq hsize, redoBuffer_first hsize] at hx
  exact stopsAt_of_fileLoop (c := 0) h hn (by omega) (fun j hj => absurd hj (Nat.not_lt_zero j)) hx

end File

end CLogFile

end Idmbs
