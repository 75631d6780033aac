import Idmbs.CLog.Recover
import Idmbs.CLog.Stream

/-!
# Idmbs.CLog.Reader

One block of the log as `Recover` reads it: when the headers it consults say the right thing, the
records that begin in the block are handed over and the one that leaves it is kept.
-/

namespace Idmbs

open Bytes

/-- `g` gives `x` for every amount of fuel from some point on. -/
def Ends {β : Type} (g : Nat → Option β) (x : β) : Prop := ∃ n, ∀ fuel, n ≤ fuel → g fuel = some x

/-- A record begins with its header, and the header gives its length. -/
structure HasHeader (r : List UInt8) : Prop where
  size : clogRecordHeaderSize ≤ r.length
  length : (decode ((r.drop 12).take 4)).bmod (2 ^ 32) = r.length

theorem drop_read (m : Memory) (a i k n : Nat) (h : i + k ≤ n) :
    ((read m a n).drop i).take k = read m (a + i) k := by
  obtain ⟨j, rfl⟩ := Nat.exists_eq_add_of_le h
  rw [read_add, read_add, List.append_assoc, List.drop_left' length_read, List.take_left' length_read]

theorem recordAt_eq {m : Memory} {a n : Nat} {r tail : List UInt8} (hr : HasHeader r)
    (h : read m a n = r ++ tail) : recordAt m a = r := by
  have hlen := congrArg List.length h
  rw [length_read, List.length_append] at hlen
  have hsize := hr.size
  rw [clogRecordHeaderSize] at hsize
  have hself : read m a r.length = r := by
    rw [← take_read (show r.length ≤ n by omega), h, List.take_left' rfl]
  have hhead : read m (a + 12) 4 = (r.drop 12).take 4 := by
    conv_rhs => rw [← hself]
    rw [drop_read _ _ _ _ _ (by omega)]
  have hlen' : CLogRecordHeader.clogRecordLen m a = r.length := by
    rw [CLogRecordHeader.clogRecordLen, getInt, hhead]
    exact hr.length
  rw [recordAt, hlen', Int.toNat_natCast, hself]

namespace CLogRecordBuffer

/-- The side buffer holds the bytes `W`. -/
def Has (p : CLogRecordBuffer) (W : List UInt8) : Prop :=
  p.writeOffset = W.length ∧ read p.buffer 0 W.length = W

variable {p : CLogRecordBuffer} {W bs r tail : List UInt8}

theorem has_empty : empty.Has [] := ⟨rfl, rfl⟩

theorem Has.push (h : p.Has W) (bs : List UInt8) : (p.push bs).Has (W ++ bs) := by
  obtain ⟨h1, h2⟩ := h
  refine ⟨?_, ?_⟩
  · rw [List.length_append, ← h1]
    rfl
  · rw [List.length_append, read_add, Nat.zero_add]
    refine congrArg₂ (· ++ ·) ?_ ?_
    · rw [CLogRecordBuffer.push, h1, read_write_before (by omega), h2]
    · rw [CLogRecordBuffer.push, h1, read_write]

theorem Has.recordAt (h : p.Has (r ++ tail)) (hr : HasHeader r) : recordAt p.buffer 0 = r :=
  recordAt_eq hr h.2

end CLogRecordBuffer

namespace CLogFile

section Steps

variable {m : Memory} {a o : Nat} {p : CLogRecordBuffer}

/-- The block does not begin with the rest of a record, or the reader is past it. -/
def AtStart (m : Memory) (a o : Nat) : Prop :=
  o = 8 → (CLogBlock.ofMemory m a).firstRecordOffset = 8

theorem blockRecover_rest {v : Nat} (hfirst : (CLogBlock.ofMemory m a).firstRecordOffset = v)
    (hv : 8 < v) (hv' : v ≤ 512) :
    blockRecover m a 8 p = ((v : Int), p.push (read m (a + 8) (v - 8)), none) := by
  have h1 : (clogBlockHeaderSize : Int) = 8 := rfl
  have hrest : (8 : Int) = clogBlockHeaderSize ∧
      (CLogBlock.ofMemory m a).firstRecordOffset ≠ clogBlockHeaderSize := by
    rw [hfirst, h1]
    exact ⟨rfl, by omega⟩
  have hlen : ((v : Int) - 8).toNat = v - 8 := by omega
  have hstart : ((a : Int) + 8).toNat = a + 8 := by omega
  have hadd : ((8 : Int) + ((v - 8 : Nat) : Int)).bmod (2 ^ 16) = v := by
    rw [Int.bmod_eq_of_le_mul_two (by omega) (by omega)]
    omega
  simp only [blockRecover]
  rw [if_pos hrest, hfirst, h1, hlen, hstart, hadd]

theorem not_rest (hs : AtStart m a o) :
    ¬((o : Int) = clogBlockHeaderSize ∧
      (CLogBlock.ofMemory m a).firstRecordOffset ≠ clogBlockHeaderSize) := by
  have h1 : (clogBlockHeaderSize : Int) = 8 := rfl
  rintro ⟨ho, hne⟩
  refine hne (hs ?_)
  omega

theorem toSizeT_eq {v : Int} (h : 0 ≤ v) (h' : v < 2 ^ 64) : toSizeT v = v := Int.emod_eq_of_lt h h'

theorem blockRecover_short (hs : AtStart m a o) (ho : o ≤ 512) (hshort : 512 - o < 16) :
    blockRecover m a o p = (512, p.push (read m (a + o) (512 - o)), none) := by
  have h2 : (clogBlockSize : Int) = 512 := rfl
  have hlt : toSizeT ((clogBlockSize : Int) - o) < clogRecordHeaderSize := by
    have h3 : (clogRecordHeaderSize : Int) = 16 := rfl
    rw [h2, h3, toSizeT_eq (by omega) (by omega)]
    omega
  have hrest : ((512 : Int) - o).toNat = 512 - o := by omega
  have hstart : ((a : Int) + o).toNat = a + o := by omega
  simp only [blockRecover]
  rw [if_neg (not_rest hs), if_pos hlt, h2, hrest, hstart]

theorem not_short (ho : 16 ≤ 512 - o) : ¬toSizeT ((clogBlockSize : Int) - o) < clogRecordHeaderSize := by
  have h2 : (clogBlockSize : Int) = 512 := rfl
  have h3 : (clogRecordHeaderSize : Int) = 16 := rfl
  rw [h2, h3, toSizeT_eq (by omega) (by omega)]
  omega

theorem blockRecover_pending (hs : AtStart m a o) (ho : 16 ≤ 512 - o) (hp : p.writeOffset ≠ 0) :
    blockRecover m a o p = ((o : Int), .empty, some (recordAt p.buffer 0)) := by
  simp only [blockRecover]
  rw [if_neg (not_rest hs), if_neg (not_short ho), if_pos hp]

theorem header_eq {len : Int} (hlen : getInt m (a + 16 * o + 12) 4 = len) :
    CLogRecordHeader.clogRecordLen m ((a : Int) + clogRecordHeaderSize * o).toNat = len := by
  have h3 : (clogRecordHeaderSize : Int) = 16 := rfl
  have haddr : ((a : Int) + clogRecordHeaderSize * o).toNat = a + 16 * o := by
    rw [h3]
    omega
  rw [CLogRecordHeader.clogRecordLen, haddr, hlen]

theorem blockRecover_fits (hs : AtStart m a o) (ho : 16 ≤ 512 - o) (hp : p.writeOffset = 0)
    {len : Int} (hlen : getInt m (a + 16 * o + 12) 4 = len) (h0 : 0 ≤ len)
    (hfits : len ≤ (512 : Int) - o) :
    blockRecover m a o p = ((o : Int) + len, p, some (recordAt m (a + o))) := by
  have h2 : (clogBlockSize : Int) = 512 := rfl
  have hstart : ((a : Int) + o).toNat = a + o := by omega
  have hadd : ((o : Int) + len).bmod (2 ^ 16) = o + len := by
    rw [Int.bmod_eq_of_le_mul_two (by omega) (by omega)]
  simp only [blockRecover]
  rw [if_neg (not_rest hs), if_neg (not_short ho), if_neg (not_not.mpr hp), header_eq hlen, h2,
    if_pos hfits, hstart, hadd]

theorem blockRecover_crosses (hs : AtStart m a o) (ho : 16 ≤ 512 - o) (hp : p.writeOffset = 0)
    {len : Int} (hlen : getInt m (a + 16 * o + 12) 4 = len) (hfits : (512 : Int) - o < len) :
    blockRecover m a o p = (512, p.push (read m (a + o) (512 - o)), none) := by
  have h2 : (clogBlockSize : Int) = 512 := rfl
  have hrest : ((512 : Int) - o).toNat = 512 - o := by omega
  have hstart : ((a : Int) + o).toNat = a + o := by omega
  simp only [blockRecover]
  rw [if_neg (not_rest hs), if_neg (not_short ho), if_neg (not_not.mpr hp), header_eq hlen, h2,
    if_neg (not_le.mpr hfits), hrest, hstart]

/-! ### The loop over a block -/

variable {d : Nat}

theorem blockLoop_end (hd : (CLogBlock.ofMemory m a).blockDataLen = d) (hd' : d ≤ 504) {v : Int}
    (hv : (8 : Int) + d ≤ v) (hv' : v < 2 ^ 63) : Ends (blockLoop m a · v p) ([], p) := by
  have h1 : (clogBlockHeaderSize : Int) = 8 := rfl
  have hnot : ¬toSizeT v < toSizeT (8 + (d : Int)) := by
    rw [toSizeT_eq (by omega) (by omega), toSizeT_eq (by omega) (by omega)]
    omega
  refine ⟨1, fun fuel hfuel => ?_⟩
  obtain ⟨fuel, rfl⟩ := Nat.exists_eq_add_of_le' hfuel
  simp only [blockLoop, hd, h1, if_neg hnot]

theorem blockLoop_step (hd : (CLogBlock.ofMemory m a).blockDataLen = d) (hd' : d ≤ 504)
    (ho : o < 8 + d) {v : Int} {p' p'' : CLogRecordBuffer} {r : Option (List UInt8)}
    {rs : List (List UInt8)} (hstep : blockRecover m a o p = (v, p', r))
    (hrest : Ends (blockLoop m a · v p') (rs, p'')) :
    Ends (blockLoop m a · o p) (r.toList ++ rs, p'') := by
  have h1 : (clogBlockHeaderSize : Int) = 8 := rfl
  have hlt : toSizeT (o : Int) < toSizeT (8 + (d : Int)) := by
    rw [toSizeT_eq (by omega) (by omega), toSizeT_eq (by omega) (by omega)]
    omega
  obtain ⟨n, hn⟩ := hrest
  refine ⟨n + 1, fun fuel hfuel => ?_⟩
  obtain ⟨fuel, rfl⟩ := Nat.exists_eq_add_of_le' (Nat.le_of_add_left_le hfuel)
  have hfuel' : n ≤ fuel := by omega
  simp only [blockLoop, hd, h1, if_pos hlt, hstep, hn fuel hfuel', Option.map_some]

end Steps

/-! ### What the reader consults -/

/-- `redo_buffer` while chunk `c` is read. Behind the end of the file it still holds bytes of the
chunk before. -/
def redoMemory (f : PersistFile) (c : Nat) : Memory := fun x =>
  let y := 512 + 4096 * c + x
  if y < f.size then f.bytes y else f.bytes (y - 4096)

/-- What is taken for the length of the record that begins at `o` in block `i`. -/
def misread (f : PersistFile) (i o : Nat) : Int :=
  getInt (redoMemory f (i / 8)) (512 * (i % 8) + 16 * o + 12) 4

/-- The reader gets through records of the lengths `lens`, the first of which begins at position `pos`
of the stream. `pending` says that the side buffer still holds the record before. -/
def Legible (f : PersistFile) : List Nat → Nat → Bool → Prop
  | [], _, _ => True
  | len :: lens, pos, pending =>
    let i := pos / 504
    let o := 8 + pos % 504
    if o = 8 ∧ 504 < len ∨ 512 - o < 16 then
      -- bytes are added to the side buffer without a look at it
      pending = false ∧ Legible f lens (pos + len) true
    else
      512 * (i % 8) + 16 * o + 16 ≤ 4096 ∧
      if 512 - o < len then ((512 - o : Nat) : Int) < misread f i o ∧ Legible f lens (pos + len) true
      else if (pos + len) % 504 = 0 ∨ lens = [] then
        (len : Int) ≤ misread f i o ∧
          Legible f lens (pos + len) (decide (((512 - o : Nat) : Int) < misread f i o))
      else misread f i o = len ∧ Legible f lens (pos + len) false

/-- The reader is at position `pos` of the stream of `recs`: the records handed over and the bytes in
the side buffer. -/
inductive ReadTo (f : PersistFile) (recs : List (List UInt8)) (pos : Nat) :
    List (List UInt8) → List UInt8 → Prop
  | clean (done rest : List (List UInt8)) (hrecs : recs = done ++ rest)
      (hpos : done.flatten.length = pos) (hleg : Legible f (rest.map List.length) pos false) :
      ReadTo f recs pos done []
  | complete (done rest : List (List UInt8)) (w junk : List UInt8) (hrecs : recs = done ++ w :: rest)
      (hpos : done.flatten.length + w.length = pos) (hjunk : junk = [] ∨ rest = [])
      (hleg : Legible f (rest.map List.length) pos true) : ReadTo f recs pos done (w ++ junk)
  | inside (done rest : List (List UInt8)) (r : List UInt8) (k : Nat) (hrecs : recs = done ++ r :: rest)
      (hpos : done.flatten.length + k = pos) (hk : 0 < k) (hk' : k < r.length)
      (hleg : Legible f (rest.map List.length) (done.flatten.length + r.length) true) :
      ReadTo f recs pos done (r.take k)

/-- The block with number `i` of the stream of `recs` stands at address `a` of `redo_buffer`. -/
structure BlockRead (f : PersistFile) (recs : List (List UInt8)) (m : Memory) (a i : Nat) : Prop where
  headers : ∀ r ∈ recs, HasHeader r
  block : BlockIs (fun i => firstAt (recs.map List.length) (504 * i)) recs.flatten m a i
  length : ∀ o, 512 * (i % 8) + 16 * o + 16 ≤ 4096 → getInt m (a + 16 * o + 12) 4 = misread f i o

namespace BlockRead

variable {f : PersistFile} {recs done rest : List (List UInt8)} {r : List UInt8} {m : Memory}
  {a i t k : Nat} {p : CLogRecordBuffer}

/-- The payload of the block. -/
theorem slice (h : BlockRead f recs m a i) {t l : Nat} (ht : t + l ≤ (piece 504 recs.flatten i).length) :
    read m (a + 8 + t) l = (recs.flatten.drop (504 * i + t)).take l := by
  have hle := length_piece_le (L := recs.flatten) (i := i)
  rw [← drop_read m (a + 8) t l _ ht, h.block.data, piece, List.drop_take, List.take_take,
    List.drop_drop, Nat.min_eq_left (by omega)]

/-- The `first_record_offset` of a block that begins in record `r`. -/
theorem first (h : BlockRead f recs m a i) (hrecs : recs = done ++ r :: rest)
    (hpos : done.flatten.length + k = 504 * i) (hk : k < r.length) :
    (CLogBlock.ofMemory m a).firstRecordOffset = firstOffset k r.length := by
  have hat : ∀ lens : List Nat, firstAt (lens ++ r.length :: rest.map List.length) (lens.sum + k) =
      firstOffset k r.length := by
    intro lens
    induction lens with
    | nil => rw [List.nil_append, List.sum_nil, Nat.zero_add, firstAt, if_pos hk]
    | cons len lens ih =>
      rw [List.cons_append, List.sum_cons, firstAt, if_neg (by omega), ← ih]
      congr 1
      omega
  have hne : piece 504 recs.flatten i ≠ [] := by
    refine List.ne_nil_of_length_pos ?_
    rw [length_piece, hrecs, List.flatten_append, List.flatten_cons, List.length_append,
      List.length_append]
    omega
  rw [h.block.first hne, ← hat (done.map List.length), hrecs, List.map_append, List.map_cons,
    ← List.length_flatten, hpos]

/-- The bytes from position `t` of the block on. -/
theorem slice_rest (h : BlockRead f recs m a i) (hrecs : recs = done ++ rest)
    (hpos : done.flatten.length = 504 * i + t) {l : Nat}
    (hl : t + l ≤ (piece 504 recs.flatten i).length) :
    read m (a + (8 + t)) l = rest.flatten.take l := by
  rw [← Nat.add_assoc, h.slice hl, hrecs, List.flatten_append, List.drop_left' hpos]

theorem length_eq (hrecs : recs = done ++ r :: rest) (hpos : done.flatten.length = 504 * i + t) :
    (piece 504 recs.flatten i).length = min 504 (t + r.length + rest.flatten.length) := by
  rw [length_piece, hrecs, List.flatten_append, List.flatten_cons, List.length_append,
    List.length_append, hpos]
  congr 1
  omega

theorem atStart (h : BlockRead f recs m a i) (hrecs : recs = done ++ r :: rest)
    (hpos : done.flatten.length = 504 * i + t) (hr : t = 0 → r.length ≤ 504) :
    AtStart m a (8 + t) := by
  intro ht
  have hr0 := (h.headers r (by simp [hrecs])).size
  rw [clogRecordHeaderSize] at hr0
  rw [h.first hrecs (k := 0) (by omega) (by omega), firstOffset, if_pos (by have := hr (by omega); omega)]
  rfl

/-- The loop over the block reads on from offset `o` to the end, `done` having been handed over. -/
def Reads (f : PersistFile) (recs : List (List UInt8)) (m : Memory) (a i o : Nat)
    (done : List (List UInt8)) (p : CLogRecordBuffer) : Prop :=
  ∃ out p' W, Ends (blockLoop m a · (o : Int) p) (out, p') ∧ p'.Has W ∧
    ReadTo f recs (504 * i + (piece 504 recs.flatten i).length) (done ++ out) W

theorem reads_end (h : BlockRead f recs m a i) {o : Nat} {W : List UInt8}
    (ho : 8 + (piece 504 recs.flatten i).length ≤ o) (ho' : o < 2 ^ 63) (hp : p.Has W)
    (hread : ReadTo f recs (504 * i + (piece 504 recs.flatten i).length) done W) :
    Reads f recs m a i o done p := by
  refine ⟨[], p, W, blockLoop_end h.block.length length_piece_le (by omega) (by omega), hp, ?_⟩
  rwa [List.append_nil]

theorem reads_step (h : BlockRead f recs m a i) {o v : Nat} {p' : CLogRecordBuffer}
    {r : Option (List UInt8)} (ho : o < 8 + (piece 504 recs.flatten i).length)
    (hstep : blockRecover m a o p = ((v : Int), p', r))
    (hrest : Reads f recs m a i v (done ++ r.toList) p') : Reads f recs m a i o done p := by
  obtain ⟨out, p'', W, hends, hW, hread⟩ := hrest
  refine ⟨r.toList ++ out, p'', W, blockLoop_step h.block.length length_piece_le ho hstep hends, hW, ?_⟩
  rwa [List.append_assoc] at hread

/-- The next record reaches beyond the block: its first bytes go to the side buffer. -/
theorem reads_crossing (h : BlockRead f recs m a i) (hrecs : recs = done ++ r :: rest)
    (hpos : done.flatten.length = 504 * i + t) (ht : t < (piece 504 recs.flatten i).length)
    (hlt : 504 - t < r.length) (hp : p.Has [])
    (hstep : blockRecover m a (8 + t : Nat) p =
      (512, p.push (read m (a + (8 + t)) (512 - (8 + t))), none))
    (hleg : Legible f (rest.map List.length) (504 * i + t + r.length) true) :
    Reads f recs m a i (8 + t) done p := by
  have hd504 := length_piece_le (L := recs.flatten) (i := i)
  have hlen := length_eq hrecs hpos
  have hfull : (piece 504 recs.flatten i).length = 504 := by omega
  have hread : read m (a + (8 + t)) (512 - (8 + t)) = r.take (504 - t) := by
    rw [h.slice_rest hrecs hpos (by omega), List.flatten_cons, List.take_append_of_le_length (by omega)]
    congr 1
    omega
  rw [hread] at hstep
  refine h.reads_step (v := 512) (by omega) hstep (h.reads_end (by omega) (by decide) (hp.push _) ?_)
  rw [Option.toList_none, List.append_nil, List.nil_append, hfull]
  exact .inside done rest r _ hrecs (by omega) (by omega) hlt (by rwa [hpos])

/-- From the border of two records on, with an empty side buffer. -/
theorem clean (h : BlockRead f recs m a i) : ∀ (rest : List (List UInt8)) {done : List (List UInt8)}
    {t : Nat} {p : CLogRecordBuffer}, recs = done ++ rest → done.flatten.length = 504 * i + t →
    t ≤ (piece 504 recs.flatten i).length → Legible f (rest.map List.length) (504 * i + t) false →
    p.Has [] → Reads f recs m a i (8 + t) done p := by
  have hd504 := length_piece_le (L := recs.flatten) (i := i)
  intro rest
  induction rest with
  | nil =>
    intro done t p hrecs hpos ht hleg hp
    have htd : t = (piece 504 recs.flatten i).length := by
      rw [length_piece, hrecs, List.append_nil, hpos] at ht ⊢
      omega
    exact h.reads_end (by omega) (by omega) hp (htd ▸ .clean _ _ hrecs hpos hleg)
  | cons r rest ih =>
    intro done t p hrecs hpos ht hleg hp
    by_cases htd : t = (piece 504 recs.flatten i).length
    · exact h.reads_end (by omega) (by omega) hp (htd ▸ .clean _ _ hrecs hpos hleg)
    have hlen := length_eq hrecs hpos
    have hr := h.headers r (by simp [hrecs])
    have hr16 := hr.size
    rw [clogRecordHeaderSize] at hr16
    have hi : (504 * i + t) / 504 = i := by omega
    have hm : (504 * i + t) % 504 = t := by omega
    have hpos1 : (done ++ [r]).flatten.length = 504 * i + (t + r.length) := by
      rw [List.flatten_append, List.length_append, hpos, List.flatten_singleton]
      omega
    have hrecs1 : recs = (done ++ [r]) ++ rest := by rw [hrecs, List.append_assoc]; rfl
    have hself : read m (a + (8 + t)) r.length = r ∨ 504 - t < r.length := by
      by_cases hfits : 504 - t < r.length
      · exact .inr hfits
      · rw [h.slice_rest hrecs hpos (by omega), List.flatten_cons, List.take_left' rfl]
        exact .inl rfl
    simp only [List.map_cons, Legible, hi, hm] at hleg
    by_cases hc : 8 + t = 8 ∧ 504 < r.length ∨ 512 - (8 + t) < 16
    · rw [if_pos hc] at hleg
      refine h.reads_crossing hrecs hpos (by omega) (by omega) hp ?_ hleg.2
      by_cases hlong : t = 0 ∧ 504 < r.length
      · obtain ⟨rfl, hlong⟩ := hlong
        have hfirst : (CLogBlock.ofMemory m a).firstRecordOffset = ((512 : Nat) : Int) := by
          rw [h.first hrecs (k := 0) hpos (by omega), firstOffset, if_neg (by omega)]
        exact blockRecover_rest hfirst (by decide) le_rfl
      · exact blockRecover_short (h.atStart hrecs hpos (by omega)) (by omega) (by omega)
    rw [if_neg hc] at hleg
    obtain ⟨hbound, hleg⟩ := hleg
    have hstart := h.atStart hrecs hpos (by omega)
    have hlong : 16 ≤ 512 - (8 + t) := by omega
    obtain ⟨M, hleg, hfits, hcrosses⟩ : ∃ M : Int,
        (if 512 - (8 + t) < r.length then
          ((512 - (8 + t) : Nat) : Int) < M ∧
            Legible f (rest.map List.length) (504 * i + t + r.length) true
        else if (504 * i + t + r.length) % 504 = 0 ∨ rest.map List.length = [] then
          (r.length : Int) ≤ M ∧ Legible f (rest.map List.length) (504 * i + t + r.length)
            (decide (((512 - (8 + t) : Nat) : Int) < M))
        else M = r.length ∧ Legible f (rest.map List.length) (504 * i + t + r.length) false) ∧
        (0 ≤ M → M ≤ (512 : Int) - (8 + t : Nat) → blockRecover m a (8 + t : Nat) p =
          (((8 + t : Nat) : Int) + M, p, some (recordAt m (a + (8 + t))))) ∧
        ((512 : Int) - (8 + t : Nat) < M → blockRecover m a (8 + t : Nat) p =
          (512, p.push (read m (a + (8 + t)) (512 - (8 + t))), none)) :=
      ⟨_, hleg, blockRecover_fits hstart hlong hp.1 (h.length _ hbound),
        blockRecover_crosses hstart hlong hp.1 (h.length _ hbound)⟩
    by_cases hx : 512 - (8 + t) < r.length
    · rw [if_pos hx] at hleg
      exact h.reads_crossing hrecs hpos (by omega) (by omega) hp (hcrosses (by omega)) hleg.2
    rw [if_neg hx] at hleg
    have hself := hself.resolve_right (by omega)
    have hrec : recordAt m (a + (8 + t)) = r :=
      recordAt_eq hr (hself.trans (List.append_nil r).symm)
    by_cases hl : (504 * i + t + r.length) % 504 = 0 ∨ rest.map List.length = []
    · rw [if_pos hl] at hleg
      have hlast : t + r.length = (piece 504 recs.flatten i).length := by
        rcases hl with hl | hl
        · omega
        · rw [List.map_eq_nil_iff.mp hl, List.flatten_nil, List.length_nil] at hlen
          omega
      by_cases hfit : M ≤ (512 : Int) - (8 + t : Nat)
      · rw [decide_eq_false (by omega)] at hleg
        have hstep := hfits (by omega) hfit
        obtain ⟨v, hv⟩ : ∃ v : Nat, ((8 + t : Nat) : Int) + M = v := ⟨8 + t + M.toNat, by omega⟩
        rw [hrec, hv] at hstep
        refine h.reads_step (by omega) hstep (h.reads_end (by omega) (by omega) hp ?_)
        rw [← hlast]
        exact .clean _ _ hrecs1 hpos1 (by rw [← Nat.add_assoc]; exact hleg.2)
      · rw [decide_eq_true (by omega)] at hleg
        have hstep := hcrosses (by omega)
        refine h.reads_step (v := 512) (by omega) hstep
          (h.reads_end (by omega) (by decide) (hp.push _) ?_)
        have hsplit : 512 - (8 + t) = r.length + (504 - t - r.length) := by omega
        rw [Option.toList_none, List.append_nil, List.nil_append, hsplit, read_add, hself, ← hlast]
        refine .complete done rest r _ hrecs (by omega) ?_ (by rw [← Nat.add_assoc]; exact hleg.2)
        rcases hl with hl | hl
        · left
          rw [show 504 - t - r.length = 0 by omega]
          rfl
        · exact .inr (List.map_eq_nil_iff.mp hl)
    · rw [if_neg hl] at hleg
      have hstep := hfits (by omega) (by omega)
      rw [hrec, hleg.1, ← Nat.cast_add, Nat.add_assoc] at hstep
      refine h.reads_step (by omega) hstep (ih hrecs1 hpos1 (by omega) ?_ hp)
      rw [← Nat.add_assoc]
      exact hleg.2

/-- From the border of two records on, the first of which is in the side buffer. -/
theorem complete (h : BlockRead f recs m a i) {done rest : List (List UInt8)} {w : List UInt8}
    (junk : List UInt8) {t : Nat} {p : CLogRecordBuffer} (hrecs : recs = done ++ w :: rest)
    (hpos : done.flatten.length + w.length = 504 * i + t)
    (ht : t ≤ (piece 504 recs.flatten i).length) (hjunk : junk = [] ∨ rest = [])
    (hleg : Legible f (rest.map List.length) (504 * i + t) true) (hp : p.Has (w ++ junk)) :
    Reads f recs m a i (8 + t) done p := by
  have hd504 := length_piece_le (L := recs.flatten) (i := i)
  have hrecs1 : recs = (done ++ [w]) ++ rest := by rw [hrecs, List.append_assoc]; rfl
  have hpos1 : (done ++ [w]).flatten.length = 504 * i + t := by
    rw [List.flatten_append, List.length_append, List.flatten_singleton, hpos]
  by_cases htd : t = (piece 504 recs.flatten i).length
  · refine h.reads_end (by omega) (by omega) hp ?_
    rw [← htd]
    exact .complete done rest w junk hrecs hpos hjunk hleg
  rcases rest with _ | ⟨r, rest⟩
  · refine absurd ?_ htd
    rw [length_piece, hrecs1, List.append_nil, hpos1] at ht ⊢
    omega
  have hw := h.headers w (by simp [hrecs])
  have hw16 := hw.size
  rw [clogRecordHeaderSize] at hw16
  have hi : (504 * i + t) / 504 = i := by omega
  have hm : (504 * i + t) % 504 = t := by omega
  simp only [List.map_cons, Legible, hi, hm] at hleg
  by_cases hc : 8 + t = 8 ∧ 504 < r.length ∨ 512 - (8 + t) < 16
  · rw [if_pos hc] at hleg
    exact absurd hleg.1 (by decide)
  have hclean : Legible f ((r :: rest).map List.length) (504 * i + t) false := by
    simp only [List.map_cons, Legible, hi, hm]
    rw [if_neg hc] at hleg ⊢
    exact hleg
  have hne : p.writeOffset ≠ 0 := by
    rw [hp.1, List.length_append]
    omega
  have hstep := blockRecover_pending (h.atStart hrecs1 hpos1 (by omega)) (by omega) hne
  rw [hp.recordAt hw] at hstep
  exact h.reads_step (by omega) hstep
    (h.clean (r :: rest) hrecs1 hpos1 ht hclean CLogRecordBuffer.has_empty)

/-- A block that begins inside a record. -/
theorem inside (h : BlockRead f recs m a i) {done rest : List (List UInt8)} {r : List UInt8} {k : Nat}
    {p : CLogRecordBuffer} (hrecs : recs = done ++ r :: rest) (hpos : done.flatten.length + k = 504 * i)
    (hk : 0 < k) (hk' : k < r.length)
    (hleg : Legible f (rest.map List.length) (done.flatten.length + r.length) true)
    (hp : p.Has (r.take k)) : Reads f recs m a i 8 done p := by
  have hlen : (piece 504 recs.flatten i).length = min 504 (r.length - k + rest.flatten.length) := by
    rw [length_piece, hrecs, List.flatten_append, List.flatten_cons, List.length_append,
      List.length_append]
    congr 1
    omega
  have hslice : ∀ l, l ≤ 504 → l ≤ r.length - k → read m (a + 8) l = (r.drop k).take l := by
    intro l hl hl'
    have hdrop : recs.flatten.drop (504 * i) = r.drop k ++ rest.flatten := by
      rw [hrecs, List.flatten_append, List.flatten_cons, ← hpos, ← List.drop_drop, List.drop_left' rfl,
        List.drop_append_of_le_length hk'.le]
    rw [← Nat.add_zero (a + 8), h.slice (by omega), Nat.add_zero, hdrop, List.take_append_of_le_length]
    rw [List.length_drop]
    exact hl'
  have hfirst := h.first hrecs hpos hk'
  by_cases hfits : r.length - k ≤ 504
  · rw [firstOffset, if_pos hfits, if_neg hk.ne'] at hfirst
    have hstep := blockRecover_rest (p := p) hfirst (by omega) (by omega)
    rw [Nat.add_sub_cancel_left, hslice _ hfits le_rfl, List.take_of_length_le (by simp)] at hstep
    have hp1 := hp.push (r.drop k)
    rw [List.take_append_drop] at hp1
    have hend : 504 * i + (r.length - k) = done.flatten.length + r.length := by omega
    have hrest := h.complete [] hrecs (t := r.length - k) (by omega) (by omega) (.inl rfl)
      (by rwa [hend]) (by rwa [List.append_nil])
    refine h.reads_step (by omega) hstep ?_
    rwa [Option.toList_none, List.append_nil]
  · rw [firstOffset, if_neg hfits] at hfirst
    have hstep := blockRecover_rest (p := p) hfirst (by omega) le_rfl
    rw [hslice _ (by omega) (by omega)] at hstep
    refine h.reads_step (o := 8) (v := 512) (by omega) hstep
      (h.reads_end (by omega) (by decide) (hp.push _) ?_)
    have hd504 : (piece 504 recs.flatten i).length = 504 := by omega
    rw [Option.toList_none, List.append_nil, ← List.take_add, hd504]
    exact .inside done rest r _ hrecs (by omega) (by omega) (by omega) hleg

/-- What reading a block does. -/
theorem read (h : BlockRead f recs m a i) {E : List (List UInt8)} {W : List UInt8}
    {p : CLogRecordBuffer} (hE : ReadTo f recs (504 * i) E W) (hp : p.Has W) :
    ∃ out p' W', Ends (blockLoop m a · (8 : Nat) p) (out, p') ∧ p'.Has W' ∧
      ReadTo f recs (504 * i + (piece 504 recs.flatten i).length) (E ++ out) W' := by
  cases hE with
  | clean rest hrecs hpos hleg => exact h.clean rest (t := 0) hrecs hpos (Nat.zero_le _) hleg hp
  | complete rest w junk hrecs hpos hjunk hleg =>
    exact h.complete _ (t := 0) hrecs hpos (Nat.zero_le _) hjunk hleg hp
  | inside rest r k hrecs hpos hk hk' hleg => exact h.inside hrecs hpos hk hk' hleg hp

end BlockRead

/-- At the end of the log nothing is missing. -/
theorem ReadTo.end_eq {f : PersistFile} {recs E : List (List UInt8)} {W : List UInt8}
    {p : CLogRecordBuffer} (hrecs : ∀ r ∈ recs, HasHeader r)
    (h : ReadTo f recs recs.flatten.length E W) (hp : p.Has W) : E ++ p.last = recs := by
  have hnil : ∀ rest : List (List UInt8), (∀ r ∈ rest, HasHeader r) → rest.flatten.length = 0 →
      rest = [] := by
    intro rest hrest h0
    rcases rest with _ | ⟨r, rest⟩
    · rfl
    · have := (hrest r (List.mem_cons_self ..)).size
      rw [List.flatten_cons, List.length_append] at h0
      rw [clogRecordHeaderSize] at this
      omega
  cases h with
  | clean rest heq hpos hleg =>
    have hrest : rest = [] := by
      refine hnil rest (fun r hr => hrecs r (by simp [heq, hr])) ?_
      rw [heq, List.flatten_append, List.length_append] at hpos
      omega
    have h0 : ¬p.writeOffset ≠ 0 := not_not.mpr hp.1
    rw [CLogRecordBuffer.last, if_neg h0, List.append_nil, heq, hrest, List.append_nil]
  | complete rest w junk heq hpos hjunk hleg =>
    have hw := hrecs w (by simp [heq])
    have hw16 := hw.size
    rw [clogRecordHeaderSize] at hw16
    have hrest : rest = [] := by
      refine hnil rest (fun r hr => hrecs r (by simp [heq, hr])) ?_
      rw [heq, List.flatten_append, List.flatten_cons, List.length_append, List.length_append] at hpos
      omega
    have hne : p.writeOffset ≠ 0 := by
      rw [hp.1, List.length_append]
      omega
    rw [CLogRecordBuffer.last, if_pos hne, hp.recordAt hw, heq, hrest]
  | inside rest r k heq hpos hk hk' hleg =>
    rw [heq, List.flatten_append, List.flatten_cons, List.length_append, List.length_append] at hpos
    omega

end CLogFile

end Idmbs
