import Idmbs.CLog.Reader

/-!
# Idmbs.CLog.Recovery

Recovery of a log that was written by `AppendRecord` and flushed: when `Recover` hands over exactly the
records appended, and when it cannot.
-/

namespace Idmbs

open Bytes

namespace CLogFile

/-- The stream of `recs` is on file in `n` blocks. -/
structure OnFile (f : PersistFile) (recs : List (List UInt8)) (n : Nat) : Prop where
  headers : ∀ r ∈ recs, HasHeader r
  size : f.size = 512 * (n + 1)
  block : ∀ i < n, BlockIs (fun i => firstAt (recs.map List.length) (504 * i)) recs.flatten f.bytes
    (512 * (i + 1)) i
  upper : recs.flatten.length ≤ 504 * n
  lower : 0 < n → 504 * (n - 1) < recs.flatten.length

/-- `m` holds chunk `c` of the file. -/
def Shows (m : Memory) (f : PersistFile) (c : Nat) : Prop := ∀ x < 4096, m x = redoMemory f c x

section Chunks

variable {f : PersistFile} {recs E : List (List UInt8)} {n c i : Nat} {m : Memory} {W : List UInt8}
  {b : CLogBuffer} {p : CLogRecordBuffer}

/-- `ReadAt` brings the next chunk, also when the file ends in it. -/
theorem Shows.next (h : Shows m f c) (hfull : 512 + 4096 * (c + 1) ≤ f.size) :
    Shows (write m 0 (f.fread (512 + 4096 * (c + 1)) 4096)) f (c + 1) := by
  intro x hx
  rw [PersistFile.fread]
  by_cases hin : 512 + 4096 * (c + 1) + x < f.size
  · have hlt : x < (read f.bytes (512 + 4096 * (c + 1))
        (min 4096 (f.size - (512 + 4096 * (c + 1))))).length := by
      rw [length_read]
      omega
    have hw := write_at (m := m) (a := 0) hlt
    rw [Nat.zero_add] at hw
    have hnew : redoMemory f (c + 1) x = f.bytes (512 + 4096 * (c + 1) + x) := if_pos hin
    rw [hw, getElem_read, hnew]
  · have hold : redoMemory f c x = f.bytes (512 + 4096 * c + x) := if_pos (by omega)
    have hnew : redoMemory f (c + 1) x = f.bytes (512 + 4096 * (c + 1) + x - 4096) := if_neg hin
    rw [write_of_ge (by rw [length_read]; omega), h x hx, hold, hnew]
    exact congrArg f.bytes (by omega)

theorem Shows.first (hfull : 512 + 4096 ≤ f.size) : Shows (write m 0 (f.fread 512 4096)) f 0 := by
  intro x hx
  rw [PersistFile.fread]
  have hlt : x < (read f.bytes 512 (min 4096 (f.size - 512))).length := by
    rw [length_read]
    omega
  have hw := write_at (m := m) (a := 0) hlt
  rw [Nat.zero_add] at hw
  have hnew : redoMemory f 0 x = f.bytes (512 + 4096 * 0 + x) := if_pos (by omega)
  rw [hw, getElem_read, hnew]

theorem OnFile.blockRead (h : OnFile f recs n) (hm : Shows m f (i / 8)) (hi : i < n) :
    BlockRead f recs m (512 * (i % 8)) i := by
  have hsize := h.size
  refine ⟨h.headers, (h.block i hi).congr fun x hx => ?_, fun o ho => ?_⟩
  · have hfile : redoMemory f (i / 8) (512 * (i % 8) + x) =
        f.bytes (512 + 4096 * (i / 8) + (512 * (i % 8) + x)) := if_pos (by omega)
    rw [hm _ (by omega), hfile]
    exact congrArg f.bytes (by omega)
  · exact getInt_congr fun x hx => hm _ (by omega)

theorem OnFile.length_block (h : OnFile f recs n) (hi : i < n) :
    (piece 504 recs.flatten i).length = if i + 1 = n then recs.flatten.length - 504 * i else 504 := by
  have hup := h.upper
  have hlow := h.lower (by omega)
  rw [length_piece]
  split
  · omega
  · omega

theorem chunkLoop_zero : Ends (fun fuel => chunkLoop fuel m 0 b p) ([], p, b, false) :=
  ⟨0, fun _ _ => rfl⟩

section Step

variable {left d : Nat} {out : List (List UInt8)} {p1 : CLogRecordBuffer}
  {x : List (List UInt8) × CLogRecordBuffer × CLogBuffer × Bool}

theorem chunkLoop_last (hd : (CLogBlock.ofMemory m (clogBlockSize * (7 - left))).blockDataLen = d)
    (hd504 : d < 504)
    (hread : Ends (blockLoop m (clogBlockSize * (7 - left)) · clogBlockHeaderSize p) (out, p1)) :
    Ends (fun fuel => chunkLoop fuel m (left + 1) b p) (out ++ p1.last, p1,
      keepLast { b with currentBlockOffset :=
        (CLogBlock.ofMemory m (clogBlockSize * (7 - left))).blockOffset } m (clogBlockSize * (7 - left)),
      true) := by
  have hlt : toSizeT (d : Int) < clogBlockDataSize := by
    have h504 : (clogBlockDataSize : Int) = 504 := rfl
    rw [toSizeT_eq (Int.natCast_nonneg d) (by clear hd; omega), h504]
    exact_mod_cast hd504
  obtain ⟨N, hN⟩ := hread
  refine ⟨N, fun fuel hfuel => ?_⟩
  simp only [chunkLoop, hN fuel hfuel, hd, if_pos hlt]

theorem chunkLoop_next (hd : (CLogBlock.ofMemory m (clogBlockSize * (7 - left))).blockDataLen = d)
    (hd504 : d = 504)
    (hread : Ends (blockLoop m (clogBlockSize * (7 - left)) · clogBlockHeaderSize p) (out, p1))
    (hx : Ends (fun fuel => chunkLoop fuel m left { b with currentBlockOffset :=
      (CLogBlock.ofMemory m (clogBlockSize * (7 - left))).blockOffset } p1) x) :
    Ends (fun fuel => chunkLoop fuel m (left + 1) b p) (out ++ x.1, x.2) := by
  have hlt : ¬toSizeT (d : Int) < clogBlockDataSize := by
    rw [hd504]
    decide
  obtain ⟨N, hN⟩ := hread
  obtain ⟨N', hN'⟩ := hx
  refine ⟨max N N', fun fuel hfuel => ?_⟩
  have h1 := hN fuel (le_trans (le_max_left _ _) hfuel)
  have h2 := hN' fuel (le_trans (le_max_right _ _) hfuel)
  simp only at h1 h2
  simp only [chunkLoop, h1, hd, if_neg hlt, h2, Option.map_some]

end Step

/-- The buffer that is left when the last of `n` blocks was read from `m`. -/
def kept (n : Nat) (m : Memory) (b : CLogBuffer) : CLogBuffer :=
  keepLast { b with currentBlockOffset := 512 * (n : Int) } m (512 * ((n - 1) % 8))

theorem kept_offset (v : Int) : kept n m { b with currentBlockOffset := v } = kept n m b := by
  simp only [kept, keepLast]

theorem OnFile.chunkLoop (h : OnFile f recs n) (hlast : recs.flatten.length < 504 * n)
    (hm : Shows m f c) : ∀ {left i : Nat} {E : List (List UInt8)} {W : List UInt8} {b : CLogBuffer}
    {p : CLogRecordBuffer}, i + left = 8 * c + 8 → left ≤ 8 → i < n → ReadTo f recs (504 * i) E W →
    p.Has W →
    (n ≤ 8 * c + 8 ∧ ∃ out p', Ends (fun fuel => CLogFile.chunkLoop fuel m left b p)
      (out, p', kept n m b, true) ∧ E ++ out = recs) ∨
    (8 * c + 8 < n ∧ ∃ out p' b' W', Ends (fun fuel => CLogFile.chunkLoop fuel m left b p)
      (out, p', b', false) ∧ p'.Has W' ∧ ReadTo f recs (504 * (8 * c + 8)) (E ++ out) W') := by
  intro left
  induction left with
  | zero =>
    intro i E W b p hi _ hin hE hp
    refine .inr ⟨by omega, [], p, b, W, chunkLoop_zero, hp, ?_⟩
    rw [List.append_nil, ← hi]
    exact hE
  | succ left ih =>
    intro i E W b p hi hleft hin hE hp
    have hc : i / 8 = c := by omega
    have ha : clogBlockSize * (7 - left) = 512 * (i % 8) := by
      rw [clogBlockSize]
      omega
    have hb := h.blockRead (by rwa [hc]) hin
    obtain ⟨out, p1, W1, hends, hW1, hread⟩ := hb.read hE hp
    have hlen := h.length_block hin
    have hlow := h.lower (by omega)
    obtain ⟨d, hd⟩ : ∃ d, (piece 504 recs.flatten i).length = d := ⟨_, rfl⟩
    rw [hd] at hlen hread
    have hblock : (CLogBlock.ofMemory m (512 * (i % 8))).blockDataLen = d ∧
        (CLogBlock.ofMemory m (512 * (i % 8))).blockOffset = 512 * ((i : Int) + 1) :=
      ⟨by rw [hb.block.length, hd], hb.block.offset⟩
    have hread8 : Ends (blockLoop m (512 * (i % 8)) · clogBlockHeaderSize p) (out, p1) := hends
    rw [← ha] at hblock hread8
    by_cases hend : i + 1 = n
    · rw [if_pos hend] at hlen
      have hd504 : d < 504 := by clear hblock; omega
      have hin8 : i ≤ 8 * c + 7 := by clear hblock; omega
      have hat : 504 * i + d = recs.flatten.length := by clear hblock; omega
      rw [hat] at hread
      have hkept : keepLast { b with currentBlockOffset :=
          (CLogBlock.ofMemory m (clogBlockSize * (7 - left))).blockOffset } m
          (clogBlockSize * (7 - left)) = kept n m b := by
        rw [hblock.2, ha, kept, ← hend, Nat.add_sub_cancel]
        rfl
      refine .inl ⟨by clear hblock; omega, out ++ p1.last, p1, ?_, ?_⟩
      · rw [← hkept]
        exact chunkLoop_last hblock.1 hd504 hread8
      · rw [← List.append_assoc]
        exact hread.end_eq h.headers hW1
    · rw [if_neg hend] at hlen
      have hat : 504 * i + d = 504 * (i + 1) := by clear hblock; omega
      have hi1 : i + 1 + left = 8 * c + 8 := by clear hblock; omega
      have hin1 : i + 1 < n := by clear hblock; omega
      rw [hat] at hread
      have hnext := fun x => chunkLoop_next (b := b) (x := x) hblock.1 hlen hread8
      have hleft' : left ≤ 8 := Nat.le_of_succ_le hleft
      rcases ih (b := { b with currentBlockOffset :=
          (CLogBlock.ofMemory m (clogBlockSize * (7 - left))).blockOffset }) hi1 hleft' hin1 hread hW1 with
          ⟨hn, out', p', hx, hout⟩ | ⟨hn, out', p', b', W', hx, hW', hout⟩
      · rw [List.append_assoc] at hout
        rw [kept_offset] at hx
        exact .inl ⟨hn, _, _, hnext _ hx, hout⟩
      · rw [List.append_assoc] at hout
        exact .inr ⟨hn, _, _, _, _, hnext _ hx, hW', hout⟩

/-- `ReadAt` leaves `read_size` at the size of the chunks before. -/
theorem readAt_eq (f : PersistFile) (offset n : Nat) :
    ∃ re outSize, f.readAt offset n = (re, f.fread offset n, outSize) ∧ outSize.getD n = n := by
  obtain ⟨data, hdata⟩ : ∃ data, f.fread offset n = data := ⟨_, rfl⟩
  rw [PersistFile.readAt, hdata]
  by_cases hlen : data.length ≠ n
  · exact ⟨_, _, if_pos hlen, Option.getD_none⟩
  · exact ⟨_, _, if_neg hlen, Option.getD_some⟩

theorem fileLoop_next {fuel offset size : Nat} {out : List (List UInt8)} {p' : CLogRecordBuffer}
    {b' : CLogBuffer} {x : List (List UInt8) × CLogBuffer} {re : Re} {data : List UInt8}
    {outSize : Option Nat} (hsize : size ≠ 0)
    (h1 : CLogFile.chunkLoop fuel m 8 b p = some (out, p', b', false))
    (hread : f.readAt (offset + size) clogRedoBufferSize = (re, data, outSize))
    (h2 : CLogFile.fileLoop f fuel (offset + size) (outSize.getD size) (write m 0 data) b' p' = some x) :
    CLogFile.fileLoop f (fuel + 1) offset size m b p = some (out ++ x.1, x.2) := by
  simp only [CLogFile.fileLoop, if_pos hsize, h1, hread, h2, Option.map_some]

theorem fileLoop_last {fuel offset size : Nat} {out : List (List UInt8)} {p' : CLogRecordBuffer}
    {b' : CLogBuffer} (hsize : size ≠ 0)
    (h1 : CLogFile.chunkLoop fuel m 8 b p = some (out, p', b', true)) :
    CLogFile.fileLoop f (fuel + 1) offset size m b p = some (out, b') := by
  simp only [CLogFile.fileLoop, if_pos hsize, h1]

theorem next_offset (c : Nat) : 512 + 4096 * (c + 1) = 512 + 4096 * c + clogRedoBufferSize := by
  rw [clogRedoBufferSize, clogBlockSize]
  omega

theorem clogRedoBufferSize_eq : clogRedoBufferSize = 4096 := by
  decide

theorem Shows.next_chunk (h : Shows m f c) (hfull : 512 + 4096 * (c + 1) ≤ f.size) :
    Shows (write m 0 (f.fread (512 + 4096 * c + clogRedoBufferSize) clogRedoBufferSize)) f (c + 1) := by
  rw [← next_offset, clogRedoBufferSize_eq]
  exact h.next hfull

theorem OnFile.fileLoop (h : OnFile f recs n) (hlast : recs.flatten.length < 504 * n) :
    ∀ {j c : Nat} {m : Memory} {E : List (List UInt8)} {W : List UInt8} {b : CLogBuffer}
    {p : CLogRecordBuffer}, n < 8 * c + j → 8 * c < n → Shows m f c → ReadTo f recs (504 * (8 * c)) E W →
    p.Has W → ∃ out b' m',
      Ends (fun fuel => CLogFile.fileLoop f fuel (512 + 4096 * c) clogRedoBufferSize m b p)
      (out, kept n m' b') ∧ E ++ out = recs ∧ Shows m' f ((n - 1) / 8) := by
  intro j
  induction j with
  | zero =>
    intro c m E W b p hj hc
    omega
  | succ j ih =>
    intro c m E W b p hj hc hm hE hp
    have hstart : 8 * c + 8 = 8 * c + 8 := Eq.refl _
    rcases h.chunkLoop hlast hm (b := b) hstart le_rfl hc hE hp with
      ⟨hn, out, p', ⟨N, hN⟩, hout⟩ | ⟨hn, out, p', b', W', ⟨N, hN⟩, hW', hread⟩
    · refine ⟨out, b, m, ⟨N + 1, fun fuel hfuel => ?_⟩, hout, ?_⟩
      · obtain ⟨fuel, rfl⟩ := Nat.exists_eq_add_of_le' (Nat.le_of_add_left_le hfuel)
        have h1 := hN fuel (by omega)
        have hne : clogRedoBufferSize ≠ 0 := by decide
        exact fileLoop_last hne h1
      · rwa [show (n - 1) / 8 = c by omega]
    · have hsize := h.size
      have hm' := hm.next_chunk (by omega)
      obtain ⟨out', b'', m', ⟨N', hN'⟩, hout, hshow⟩ := ih (c := c + 1) (by omega) (by omega) hm'
        (by rw [show 8 * (c + 1) = 8 * c + 8 by omega]; exact hread) hW'
      refine ⟨out ++ out', b'', m', ⟨max N N' + 1, fun fuel hfuel => ?_⟩, ?_, hshow⟩
      · obtain ⟨fuel, rfl⟩ := Nat.exists_eq_add_of_le' (Nat.le_of_add_left_le hfuel)
        have h1 := hN fuel (by omega)
        have h2 := hN' fuel (by omega)
        obtain ⟨re, outSize, hreadAt, hsizeAt⟩ :=
          readAt_eq f (512 + 4096 * c + clogRedoBufferSize) clogRedoBufferSize
        rw [next_offset] at h2
        have hne : clogRedoBufferSize ≠ 0 := by decide
        refine fileLoop_next (x := (out', kept n m' b'')) hne h1 hreadAt ?_
        rw [hsizeAt]
        exact h2
      · rw [← List.append_assoc]
        exact hout

end Chunks

/-! ## From the first chunk on -/

section Log

variable {f : PersistFile} {recs : List (List UInt8)} {n : Nat} {m stack : Memory} {b : CLogBuffer}

/-- The first chunk is read in full. -/
theorem length_fread_first : (f.fread clogBlockSize clogRedoBufferSize).length = clogRedoBufferSize ↔
    512 + 4096 ≤ f.size := by
  rw [PersistFile.fread, length_read, clogRedoBufferSize_eq, clogBlockSize]
  omega

/-- A log that does not fill `redo_buffer` is not looked into. -/
theorem recover_short (hsize : f.size < 512 + 4096) (stack : Memory) (b : CLogBuffer) :
    Ends (fun fuel => recover fuel f stack b) ([], b) := by
  have hlen := mt length_fread_first.mp (Nat.not_le.mpr hsize)
  refine ⟨1, fun fuel hfuel => ?_⟩
  obtain ⟨fuel, rfl⟩ := Nat.exists_eq_add_of_le' hfuel
  simp only [recover, PersistFile.readAt, if_pos hlen, Option.getD_none, CLogFile.fileLoop]
  rfl

/-- The first chunk of a log that fills `redo_buffer`. -/
theorem recover_eq (hsize : 512 + 4096 ≤ f.size) (fuel : Nat) (stack : Memory) (b : CLogBuffer) :
    recover fuel f stack b = CLogFile.fileLoop f fuel 512 clogRedoBufferSize
      (write stack 0 (f.fread 512 4096)) b .empty := by
  have hlen := not_not.mpr (length_fread_first.mpr hsize)
  simp only [recover, PersistFile.readAt, if_neg hlen, Option.getD_some]
  rfl

theorem OnFile.recover (h : OnFile f recs n) (hlast : recs.flatten.length < 504 * n) (hn : 8 ≤ n)
    (hleg : Legible f (recs.map List.length) 0 false) (stack : Memory) (b : CLogBuffer) :
    ∃ m b', Shows m f ((n - 1) / 8) ∧
      Ends (fun fuel => CLogFile.recover fuel f stack b) (recs, kept n m b') := by
  have hsize : 512 + 4096 ≤ f.size := by
    rw [h.size]
    omega
  have hstart : ReadTo f recs (504 * (8 * 0)) [] [] := .clean [] recs rfl rfl hleg
  obtain ⟨out, b', m, ⟨N, hN⟩, hout, hshow⟩ := h.fileLoop (j := n + 1) (b := b) hlast (by omega)
    (by omega) (Shows.first (m := stack) hsize) hstart CLogRecordBuffer.has_empty
  rw [List.nil_append] at hout
  subst hout
  refine ⟨m, b', hshow, N, fun fuel hfuel => ?_⟩
  simp only [recover_eq hsize]
  exact hN fuel hfuel

/-- The log buffer is left as if the records had just been appended and flushed. -/
theorem OnFile.logged_kept (h : OnFile f recs n) (hlast : recs.flatten.length < 504 * n)
    (hn : 0 < n) (hbelow : n < 2 ^ 22) (hm : Shows m f ((n - 1) / 8)) :
    Logged (fun i => firstAt (recs.map List.length) (504 * i)) recs.flatten (n - 1) 1 (kept n m b) f := by
  have hlow := h.lower hn
  have hn1 : n - 1 < n := by omega
  have hbuffer : ∀ x < 512, (kept n m b).buffer (0 + x) = f.bytes (512 * (n - 1 + 1) + x) := by
    intro x hx
    have hlen : x < (read m (512 * ((n - 1) % 8)) clogBlockSize).length := by
      rwa [length_read, clogBlockSize]
    have hfile : redoMemory f ((n - 1) / 8) (512 * ((n - 1) % 8) + x) =
        f.bytes (512 + 4096 * ((n - 1) / 8) + (512 * ((n - 1) % 8) + x)) :=
      if_pos (by rw [h.size]; omega)
    simp only [kept, keepLast]
    rw [write_at hlen, getElem_read, hm _ (by omega), hfile]
    exact congrArg f.bytes (by omega)
  have hblock : BlockIs (fun i => firstAt (recs.map List.length) (504 * i)) recs.flatten
      (kept n m b).buffer 0 (n - 1) := (h.block (n - 1) hn1).congr hbuffer
  have hread : (CLogBlock.ofMemory m (512 * ((n - 1) % 8))).blockDataLen =
      (piece 504 recs.flatten (n - 1)).length := (h.blockRead hm hn1).block.length
  refine ⟨fun i hi => h.block i (by omega), ?_, ?_, rfl, ?_, by omega, by omega, by omega, by omega,
    .inr ⟨Nat.one_pos, ?_, ?_⟩, fun h0 => absurd h0 Nat.one_ne_zero⟩
  · intro i hi
    obtain rfl : i = 0 := by omega
    exact hblock
  · simp only [kept, keepLast]
    omega
  · simp only [kept, keepLast]
    rw [hread, clogBlockHeaderSize, length_piece]
    simp only [Nat.one_ne_zero, if_false]
    omega
  · rw [h.size]
    omega
  · rw [(h.block (n - 1) hn1).offset]

/-- The length of a record is not looked up where it begins a block and does not fit in it. -/
theorem legible_long {len : Nat} (hlen : 504 < len) : Legible f [len] 0 false := by
  have hlong : True ∧ 504 < len ∨ 512 - (8 + 0 % 504) < 16 := .inl ⟨trivial, hlen⟩
  simp only [Legible, and_self, if_pos hlong]

/-! ## A log that ends with a full block -/

/-- All blocks of `redo_buffer` are full. -/
def Full (m : Memory) : Prop := ∀ j < 8, (CLogBlock.ofMemory m (512 * j)).blockDataLen = 504

/-- There is no last block in `redo_buffer`. -/
theorem Full.chunkLoop (h : Full m) {fuel : Nat} : ∀ {left : Nat} {b : CLogBuffer}
    {p : CLogRecordBuffer} {x : List (List UInt8) × CLogRecordBuffer × CLogBuffer × Bool}, left ≤ 8 →
    CLogFile.chunkLoop fuel m left b p = some x → x.2.2.2 = false := by
  intro left
  induction left with
  | zero =>
    intro b p x _ hx
    cases hx
    rfl
  | succ left ih =>
    intro b p x hleft hx
    have hlen : ¬toSizeT (CLogBlock.ofMemory m (clogBlockSize * (7 - left))).blockDataLen <
        clogBlockDataSize := by
      rw [clogBlockSize, h (7 - left) (by omega)]
      decide
    simp only [CLogFile.chunkLoop] at hx
    split at hx
    · cases hx
    · rw [if_neg hlen] at hx
      obtain ⟨y, hy, rfl⟩ := Option.map_eq_some_iff.mp hx
      exact ih (x := y) (by omega) hy

theorem OnFile.full_next (h : OnFile f recs n) (hlast : recs.flatten.length = 504 * n) (hm : Full m)
    (q : Nat) : Full (write m 0 (f.fread (512 * (q + 1)) 4096)) := by
  intro j hj
  have hsize := h.size
  have hlen : (f.fread (512 * (q + 1)) 4096).length = min 4096 (512 * (n - q)) := by
    rw [PersistFile.fread, length_read, hsize]
    omega
  by_cases hin : j < n - q
  · have hblock := (h.block (q + j) (by omega)).length
    rw [length_piece] at hblock
    have hfull : (CLogBlock.ofMemory f.bytes (512 * (q + j + 1))).blockDataLen = 504 := by
      rw [hblock]
      omega
    rw [← hfull]
    refine congrArg CLogBlock.blockDataLen (CLogBlock.ofMemory_congr fun x hx => ?_)
    have hlt : 512 * j + x < (f.fread (512 * (q + 1)) 4096).length := by
      rw [hlen]
      omega
    have hw := write_at (m := m) (a := 0) hlt
    rw [Nat.zero_add] at hw
    rw [hw]
    simp only [PersistFile.fread, getElem_read]
    exact congrArg f.bytes (by omega)
  · rw [← hm j hj]
    refine congrArg CLogBlock.blockDataLen (CLogBlock.ofMemory_congr fun x hx => ?_)
    exact write_of_ge (by rw [hlen]; omega)

theorem fileLoop_none {fuel offset size : Nat} {re : Re} {data : List UInt8} {outSize : Option Nat}
    {p : CLogRecordBuffer} (hsize : size ≠ 0)
    (hlast : ∀ x, CLogFile.chunkLoop fuel m 8 b p = some x → x.2.2.2 = false)
    (hread : f.readAt (offset + size) clogRedoBufferSize = (re, data, outSize))
    (hnone : ∀ b' p', CLogFile.fileLoop f fuel (offset + size) (outSize.getD size) (write m 0 data) b' p' =
      none) : CLogFile.fileLoop f (fuel + 1) offset size m b p = none := by
  simp only [CLogFile.fileLoop, if_pos hsize]
  cases hx : CLogFile.chunkLoop fuel m 8 b p with
  | none => rfl
  | some x =>
    obtain ⟨out, p', b', last⟩ := x
    obtain rfl : last = false := hlast _ hx
    simp only [hread, hnone, Option.map_none]

/-- `read_size` is never `0`. -/
theorem OnFile.fileLoop_full (h : OnFile f recs n) (hlast : recs.flatten.length = 504 * n) :
    ∀ {fuel q : Nat} {m : Memory} {b : CLogBuffer} {p : CLogRecordBuffer}, Full m →
    CLogFile.fileLoop f fuel (512 * (q + 1)) clogRedoBufferSize m b p = none := by
  intro fuel
  induction fuel with
  | zero => exact fun _ => rfl
  | succ fuel ih =>
    intro q m b p hm
    obtain ⟨re, outSize, hreadAt, hsizeAt⟩ :=
      readAt_eq f (512 * (q + 1) + clogRedoBufferSize) clogRedoBufferSize
    have hne : clogRedoBufferSize ≠ 0 := by decide
    have hnext := h.full_next hlast hm (q + 8)
    have hoff : 512 * (q + 8 + 1) = 512 * (q + 1) + clogRedoBufferSize := by
      rw [clogRedoBufferSize_eq]
      omega
    rw [← clogRedoBufferSize_eq, hoff] at hnext
    refine fileLoop_none hne (fun x => hm.chunkLoop le_rfl) hreadAt fun b' p' => ?_
    rw [hsizeAt]
    have hnone := ih (q := q + 8) (b := b') (p := p') hnext
    rwa [hoff] at hnone

theorem OnFile.recover_full (h : OnFile f recs n) (hlast : recs.flatten.length = 504 * n) (hn : 8 ≤ n)
    (fuel : Nat) (stack : Memory) (b : CLogBuffer) : CLogFile.recover fuel f stack b = none := by
  have hsize : 512 + 4096 ≤ f.size := by
    rw [h.size]
    omega
  have hshow : Shows (write stack 0 (f.fread 512 4096)) f 0 := Shows.first hsize
  have hfirst : Full (write stack 0 (f.fread 512 4096)) := by
    intro j hj
    have hj0 : j / 8 = 0 := Nat.div_eq_of_lt hj
    have hread := (h.blockRead (i := j) (by rwa [hj0]) (by omega)).block.length
    rw [length_piece, Nat.mod_eq_of_lt hj] at hread
    rw [hread]
    omega
  rw [recover_eq hsize]
  exact h.fileLoop_full hlast (q := 0) hfirst

end Log

end CLogFile

theorem Logged.congr {first first' : Nat → Nat} {L : List UInt8} {base k : Nat} {b : CLogBuffer}
    {f : PersistFile} (h : Logged first L base k b f) (hf : ∀ i, 504 * i < L.length → first' i = first i) :
    Logged first' L base k b f := by
  have hblock : ∀ {m : Memory} {a i : Nat}, BlockIs first L m a i → BlockIs first' L m a i := by
    intro m a i hb
    refine ⟨hb.offset, hb.length, fun hp => ?_, hb.data⟩
    have hlt : 504 * i < L.length := by
      have hpos := List.length_pos_of_ne_nil hp
      rw [length_piece] at hpos
      omega
    rw [hb.first hp, hf i hlt]
  exact { h with
    onFile := fun i hi => hblock (h.onFile i hi)
    buffered := fun i hi => hblock (h.buffered i hi) }

theorem firstAt_append (lens' : List Nat) : ∀ {lens : List Nat} {pos : Nat}, pos < lens.sum →
    firstAt (lens ++ lens') pos = firstAt lens pos := by
  intro lens
  induction lens with
  | nil => exact fun h => absurd h (Nat.not_lt_zero _)
  | cons len lens ih =>
    intro pos h
    rw [List.sum_cons] at h
    rw [List.cons_append, firstAt, firstAt]
    by_cases hlt : pos < len
    · rw [if_pos hlt, if_pos hlt]
    · rw [if_neg hlt, if_neg hlt, ih (by omega)]

theorem firstAt_end (len : Nat) : ∀ {lens : List Nat} {pos : Nat}, lens.sum ≤ pos →
    firstAt (lens ++ [len]) pos = firstAt [len] (pos - lens.sum) := by
  intro lens
  induction lens with
  | nil => exact fun _ => rfl
  | cons l lens ih =>
    intro pos h
    rw [List.sum_cons] at h ⊢
    rw [List.cons_append, firstAt, if_neg (by omega), ih (by omega), Nat.sub_sub]

namespace CLogManager

/-- The next append goes on directly behind `stream`. -/
def Continues (s : CLogManager) (stream : List UInt8) : Prop :=
  s.Intact stream ∧ ∀ r : CLogRecord, r.Encoded → r.clogRecordLen ≤ clogBufferCapacity →
    stream.length + r.clogRecordLen ≤ 504 * (2 ^ 22 - 1) →
      ∃ re s', s.appendRecord r = some (re, s') ∧ s'.Intact (stream ++ r.encoding)

/-- `Recover` on the log of `rs` hands over `rs`, and the log can be written on. -/
def Recovers (rs : List CLogRecord) (stack : Memory) : Prop :=
  ∃ s b, new.appendRecords rs = some s ∧
    Ends (fun fuel => CLogFile.recover fuel s.sync.clogFile stack .new)
      (rs.map CLogRecord.encoding, b) ∧
    Continues ⟨b, s.sync.clogFile⟩ (rs.flatMap CLogRecord.encoding)

/-- The log of `rs` keeps its block offsets, fills `redo_buffer`, ends in a block that is not full and
is read at the right places. -/
structure Recoverable (rs : List CLogRecord) : Prop where
  short : (rs.flatMap CLogRecord.encoding).length ≤ 504 * (2 ^ 22 - 1)
  chunk : rs ≠ [] → 504 * 7 < (rs.flatMap CLogRecord.encoding).length
  last : rs ≠ [] → (rs.flatMap CLogRecord.encoding).length % 504 ≠ 0
  legible : ∀ s, new.appendRecords rs = some s →
    CLogFile.Legible s.sync.clogFile (rs.map CLogRecord.clogRecordLen) 0 false

/-- Records as the log knows them. -/
def Readable (r : CLogRecord) : Prop :=
  r.Encoded ∧ HasHeader r.encoding ∧ r.clogRecordLen ≤ clogRedoBufferSize

section Recovery

variable {rs : List CLogRecord} {s : CLogManager} {b : CLogBuffer} {f : PersistFile}

theorem continues_of_logged (rs : List CLogRecord) {base k : Nat} (lens : List Nat)
    (h : Logged (fun i => firstAt lens (504 * i)) (rs.flatMap CLogRecord.encoding) base k b f)
    (hlens : lens.sum = (rs.flatMap CLogRecord.encoding).length) :
    Continues ⟨b, f⟩ (rs.flatMap CLogRecord.encoding) := by
  refine ⟨h.intact, fun r henc hcap hbound => ?_⟩
  have h' : Logged (fun i => firstAt (lens ++ [r.clogRecordLen]) (504 * i))
      (rs.flatMap CLogRecord.encoding) base k b f :=
    h.congr fun i hi => firstAt_append _ (by rwa [hlens])
  have hmarks : MarksAll (fun i => firstAt (lens ++ [r.clogRecordLen]) (504 * i))
      (rs.flatMap CLogRecord.encoding).length [r.clogRecordLen] := by
    refine firstAt_marks _ fun i hi => ?_
    rw [firstAt_end _ (by rwa [hlens]), hlens]
  obtain ⟨⟨re, b', f', base', k', hrun, hnext, -⟩, -⟩ := h'.appendRecord henc hcap hmarks.1 hbound
  exact ⟨re, ⟨b', f'⟩, hrun, hnext.intact⟩

theorem map_length (hrs : ∀ r ∈ rs, Readable r) :
    (rs.map CLogRecord.encoding).map List.length = rs.map CLogRecord.clogRecordLen := by
  rw [List.map_map]
  exact List.map_congr_left fun r hr => (hrs r hr).1.length

/-- The log on file after a flush. -/
theorem onFile_sync (hrs : ∀ r ∈ rs, Readable r)
    (hbound : (rs.flatMap CLogRecord.encoding).length ≤ 504 * (2 ^ 22 - 1)) :
    ∃ s n, new.appendRecords rs = some s ∧ n < 2 ^ 22 ∧ (rs = [] → n = 0) ∧
      CLogFile.OnFile s.sync.clogFile (rs.map CLogRecord.encoding) n := by
  have hcap : ∀ r ∈ rs, r.Encoded ∧ r.clogRecordLen ≤ clogBufferCapacity := fun r hr =>
    ⟨(hrs r hr).1, (hrs r hr).2.2.trans (by decide)⟩
  have hmarks : MarksAll
      (fun i => firstAt ((rs.map CLogRecord.encoding).map List.length) (504 * i)) 0
      (rs.map CLogRecord.clogRecordLen) := by
    rw [map_length hrs]
    exact firstAt_marks _ fun i _ => rfl
  obtain ⟨s, base, k, hrun, h, hcase⟩ := Logged.new.appendRecords hcap hmarks (by simpa using hbound)
  rw [List.nil_append, List.flatMap_def] at h hcase
  obtain ⟨hsize, hblock⟩ := h.onFile_flushBuffer
  refine ⟨s, base + k, hrun, h.below, ?_, ?_, hsize, hblock, h.upper, fun hn => ?_⟩
  · rintro rfl
    rcases hcase with ⟨-, rfl, rfl⟩ | hcase
    · rfl
    · have hup : 504 * (base + k - 1) < 0 := hcase
      omega
  · intro x hx
    obtain ⟨r, hr, rfl⟩ := List.mem_map.mp hx
    exact (hrs r hr).2.1
  · rcases hcase with ⟨-, rfl, rfl⟩ | hcase
    · exact absurd hn (lt_irrefl 0)
    · exact hcase

theorem recovers_nil (stack : Memory) : Recovers [] stack := by
  have hrs : ∀ r ∈ ([] : List CLogRecord), Readable r := fun r hr => nomatch hr
  obtain ⟨s, n, hrun, -, hnil, hfile⟩ := onFile_sync hrs (Nat.zero_le _)
  have hsize := hfile.size
  rw [hnil rfl] at hsize
  have hlog : Logged (fun i => firstAt [] (504 * i)) [] 0 0 CLogBuffer.new s.sync.clogFile :=
    { Logged.new with
      onFile := fun i hi => absurd hi (Nat.not_lt_zero i)
      size := .inl hsize }
  exact ⟨s, .new, hrun, CLogFile.recover_short (by omega) _ _,
    continues_of_logged [] [] hlog rfl⟩

theorem Recoverable.recovers (h : Recoverable rs) (hrs : ∀ r ∈ rs, Readable r) (stack : Memory) :
    Recovers rs stack := by
  by_cases hne : rs = []
  · rw [hne]
    exact recovers_nil stack
  obtain ⟨s, n, hrun, hbelow, -, hfile⟩ := onFile_sync hrs h.short
  have hchunk := h.chunk hne
  have hlast := h.last hne
  have hleg := h.legible s hrun
  have hup := hfile.upper
  rw [List.flatMap_def] at hchunk hlast
  have hlt : (rs.map CLogRecord.encoding).flatten.length < 504 * n := by omega
  rw [← map_length hrs] at hleg
  obtain ⟨m, b, hshow, hends⟩ := hfile.recover hlt (by omega) hleg stack .new
  refine ⟨s, _, hrun, hends, ?_⟩
  have hlog := hfile.logged_kept (b := b) hlt (by omega) hbelow hshow
  rw [← List.flatMap_def] at hlog
  exact continues_of_logged rs _ hlog (by rw [List.flatMap_def, List.length_flatten])

theorem Recovers.short {stack : Memory} (h : Recovers rs stack) :
    (rs.flatMap CLogRecord.encoding).length ≤ 504 * (2 ^ 22 - 1) := by
  obtain ⟨s, b, -, -, hlog, -⟩ := h
  exact hlog.length_le

theorem Recovers.chunk {stack : Memory} (h : Recovers rs stack) (hrs : ∀ r ∈ rs, Readable r)
    (hne : rs ≠ []) : 504 * 7 < (rs.flatMap CLogRecord.encoding).length := by
  obtain ⟨s, n, hrun, -, -, hfile⟩ := onFile_sync hrs h.short
  obtain ⟨s', b, hrun', ⟨N, hN⟩, -⟩ := h
  rw [hrun] at hrun'
  cases hrun'
  by_contra hlen
  rw [List.flatMap_def] at hlen
  have hlow := hfile.lower
  obtain ⟨N', hN'⟩ := CLogFile.recover_short (f := s.sync.clogFile) (by rw [hfile.size]; omega) stack
    .new
  have h1 := hN (max N N') (le_max_left _ _)
  have h2 := hN' (max N N') (le_max_right _ _)
  rw [h1, Option.some.injEq, Prod.mk.injEq, List.map_eq_nil_iff] at h2
  exact hne h2.1

theorem Recovers.last {stack : Memory} (h : Recovers rs stack) (hrs : ∀ r ∈ rs, Readable r)
    (hne : rs ≠ []) : (rs.flatMap CLogRecord.encoding).length % 504 ≠ 0 := by
  intro hfull
  have hchunk := h.chunk hrs hne
  obtain ⟨s, n, hrun, -, -, hfile⟩ := onFile_sync hrs h.short
  obtain ⟨s', b, hrun', ⟨N, hN⟩, -⟩ := h
  rw [hrun] at hrun'
  cases hrun'
  rw [List.flatMap_def] at hfull hchunk
  have hlow := hfile.lower
  have hup := hfile.upper
  have hnone := hfile.recover_full (by omega) (by omega) N stack .new
  have hsome := hN N le_rfl
  simp only [hnone] at hsome
  cases hsome

/-- What `Recover` does with a log it can read, and the logs it never gets through. -/
theorem recovers_all (rs : List CLogRecord) (hrs : ∀ r ∈ rs, Readable r) :
    (Recoverable rs → ∀ stack, Recovers rs stack) ∧
    ((∃ stack, Recovers rs stack) → (rs.flatMap CLogRecord.encoding).length ≤ 504 * (2 ^ 22 - 1) ∧
      (rs ≠ [] → 504 * 7 < (rs.flatMap CLogRecord.encoding).length ∧
        (rs.flatMap CLogRecord.encoding).length % 504 ≠ 0)) := by
  refine ⟨fun h stack => h.recovers hrs stack, ?_⟩
  rintro ⟨stack, h⟩
  exact ⟨h.short, fun hne => ⟨h.chunk hrs hne, h.last hrs hne⟩⟩

end Recovery

/-- A record that consists of a header and zeros. -/
def zeroRecord (len : Nat) : CLogRecord :=
  ⟨.redoDelete, len, List.replicate 12 0 ++ (encode 4 len ++ List.replicate (len - 16) 0), []⟩

theorem readable_zeroRecord {len : Nat} (hlen : 16 ≤ len) (hsize : len ≤ 4096) :
    Readable (zeroRecord len) := by
  have hlength : (zeroRecord len).encoding.length = len := by
    simp only [zeroRecord, CLogRecord.encoding, List.length_append, List.length_replicate, length_encode]
    omega
  have hhead : ((zeroRecord len).encoding.drop 12).take 4 = encode 4 len := by
    simp only [zeroRecord, CLogRecord.encoding]
    rw [List.drop_left' (by rw [List.length_replicate]), List.take_left' (length_encode 4 len)]
  refine ⟨⟨hlength, hlen, ?_⟩, ⟨by rw [hlength]; exact hlen, ?_⟩, ?_⟩
  · intro hflag
    cases hflag
  · rw [hhead, hlength, decode_encode, Int.emod_eq_of_lt (by omega) (by omega),
      Int.bmod_eq_of_le_mul_two (by omega) (by omega)]
  · rw [CLogFile.clogRedoBufferSize_eq]
    exact hsize

/-- One record over nine blocks. -/
theorem recovers_all_long :
    Recoverable [zeroRecord 4096] ∧ ∀ stack, Recovers [zeroRecord 4096] stack := by
  have hrs : ∀ r ∈ [zeroRecord 4096], Readable r := by
    intro r hr
    obtain rfl := List.mem_singleton.mp hr
    exact readable_zeroRecord (by omega) le_rfl
  have hlen : ([zeroRecord 4096].flatMap CLogRecord.encoding).length = 4096 := by
    rw [List.flatMap_singleton]
    exact (hrs _ (List.mem_singleton_self _)).1.length
  have hrec : Recoverable [zeroRecord 4096] := by
    refine ⟨by rw [hlen]; omega, fun _ => by rw [hlen]; omega, fun _ => by rw [hlen]; omega, ?_⟩
    intro s _
    exact CLogFile.legible_long (show 504 < 4096 by omega)
  exact ⟨hrec, (recovers_all [zeroRecord 4096] hrs).1 hrec⟩

/-- One record in a log that does not fill `redo_buffer`. -/
theorem not_recovers_short :
    (∀ r ∈ [zeroRecord 24], Readable r) ∧ ¬∃ stack, Recovers [zeroRecord 24] stack := by
  have hrs : ∀ r ∈ [zeroRecord 24], Readable r := by
    intro r hr
    obtain rfl := List.mem_singleton.mp hr
    exact readable_zeroRecord (by decide) (by decide)
  refine ⟨hrs, ?_⟩
  rintro ⟨stack, h⟩
  have hchunk := h.chunk hrs (List.cons_ne_nil _ _)
  rw [List.flatMap_singleton, (hrs _ (List.mem_singleton_self _)).1.length] at hchunk
  exact absurd hchunk (by decide)

end CLogManager

end Idmbs
