import Idmbs.CLog.Termination
import Idmbs.Common.CommonDefs
import Mathlib.Data.Int.ConditionallyCompleteOrder
import Mathlib.Order.CompletePartialOrder

/-!
# Idmbs.CLog.Lsn

`global_lsn` during `Recover`, and `GetNextLsn` after it (storage/clog_manager.cpp). The loop over a block
sets the counter behind each record it hands over; the two places that hand over what is left in the side
buffer do not.
-/

namespace Idmbs

open Bytes

/-- A record made by `CLogRecord(char *data)`: the memory and the address it was made from. -/
structure RecoveredRecord where
  data : Memory
  address : Nat

namespace RecoveredRecord

def lsn (r : RecoveredRecord) : Int := getInt r.data r.address 4

def clogRecordLen (r : RecoveredRecord) : Int := CLogRecordHeader.clogRecordLen r.data r.address

def bytes (r : RecoveredRecord) : List UInt8 := recordAt r.data r.address

/-- The log sequence numbers that belong to the record. -/
def lsnRange (r : RecoveredRecord) : Set Int := Set.Ico r.lsn (r.lsn + r.clogRecordLen)

theorem lsn_eq {r : RecoveredRecord} (h : 4 ≤ r.bytes.length) :
    r.lsn = (decode (r.bytes.take 4)).bmod (256 ^ 4) := by
  unfold bytes recordAt at h ⊢
  rw [length_read] at h
  rw [take_read h, lsn, getInt]

theorem clogRecordLen_eq {r : RecoveredRecord} (h : r.bytes ≠ []) : r.clogRecordLen = r.bytes.length := by
  have hpos := List.length_pos_of_ne_nil h
  unfold bytes recordAt at hpos ⊢
  rw [length_read] at hpos ⊢
  rw [clogRecordLen, Int.toNat_of_nonneg (by omega)]

end RecoveredRecord

/-- What is handed over when the log ends. -/
def CLogRecordBuffer.lastRecord (p : CLogRecordBuffer) : List RecoveredRecord :=
  if p.writeOffset ≠ 0 then [⟨p.buffer, 0⟩] else []

/-- The counter behind a record. -/
def CLogManager.lsnBehind (r : RecoveredRecord) : Int := wrap32 (r.lsn + r.clogRecordLen)

/-- `GetNextLsn`: the number and the counter after it. -/
def CLogManager.getNextLsn (globalLsn recLen : Int) : Int × Int := (globalLsn, wrap32 (globalLsn + recLen))

namespace CLogFile

open CLogManager

/-- The record that `BlockRecover` makes, if it makes one. -/
def recordMet (m : Memory) (a : Nat) (offset : Int) (p : CLogRecordBuffer) : RecoveredRecord :=
  if p.writeOffset ≠ 0 then ⟨p.buffer, 0⟩ else ⟨m, (a + offset).toNat⟩

/-- The inner loop of `Recover`, with `global_lsn`. -/
def blockLsnLoop (m : Memory) (a : Nat) : Nat → Int → CLogRecordBuffer → Int →
    Option (List RecoveredRecord × CLogRecordBuffer × Int)
  | 0, _, _, _ => none
  | fuel + 1, offset, p, globalLsn =>
    if toSizeT offset < toSizeT (clogBlockHeaderSize + (CLogBlock.ofMemory m a).blockDataLen) then
      match blockRecover m a offset p with
      | (offset', p', none) => blockLsnLoop m a fuel offset' p' globalLsn
      | (offset', p', some _) =>
        let r := recordMet m a offset p
        (blockLsnLoop m a fuel offset' p' (lsnBehind r)).map fun (rs, x) => (r :: rs, x)
    else some ([], p, globalLsn)

/-- The blocks of `redo_buffer` of which `left` are left, with `global_lsn`. -/
def chunkLsnLoop (fuel : Nat) (m : Memory) : Nat → CLogBuffer → CLogRecordBuffer → Int →
    Option (List RecoveredRecord × CLogRecordBuffer × CLogBuffer × Bool × Int)
  | 0, b, p, globalLsn => some ([], p, b, false, globalLsn)
  | left + 1, b, p, globalLsn =>
    let a := clogBlockSize * (7 - left)
    let c := CLogBlock.ofMemory m a
    let b := { b with currentBlockOffset := c.blockOffset }
    match blockLsnLoop m a fuel clogBlockHeaderSize p globalLsn with
    | none => none
    | some (rs, p, globalLsn) =>
      if toSizeT c.blockDataLen < clogBlockDataSize then
        some (rs ++ p.lastRecord, p, keepLast b m a, true, globalLsn)
      else (chunkLsnLoop fuel m left b p globalLsn).map fun (rs', x) => (rs ++ rs', x)

/-- The outer loop of `Recover`, with `global_lsn`. -/
def fileLsnLoop (f : PersistFile) : Nat → Nat → Nat → Memory → CLogBuffer → CLogRecordBuffer → Int →
    Option (List RecoveredRecord × CLogBuffer × Int)
  | 0, _, _, _, _, _, _ => none
  | fuel + 1, offset, readSize, m, b, p, globalLsn =>
    if readSize ≠ 0 then
      match chunkLsnLoop fuel m 8 b p globalLsn with
      | none => none
      | some (rs, _, b, true, globalLsn) => some (rs, b, globalLsn)
      | some (rs, p, b, false, globalLsn) =>
        let offset := offset + readSize
        match f.readAt offset clogRedoBufferSize with
        | (_, data, outSize) =>
          (fileLsnLoop f fuel offset (outSize.getD readSize) (write m 0 data) b p globalLsn).map
            fun (rs', x) => (rs ++ rs', x)
    else some (p.lastRecord, b, globalLsn)

/-- `Recover` with `global_lsn`: the records, the log buffer and the counter. -/
def recoverLsn (fuel : Nat) (f : PersistFile) (stack : Memory) (b : CLogBuffer) (globalLsn : Int) :
    Option (List RecoveredRecord × CLogBuffer × Int) :=
  match f.readAt clogBlockSize clogRedoBufferSize with
  | (_, data, outSize) =>
    fileLsnLoop f fuel clogBlockSize (outSize.getD 0) (write stack 0 data) b .empty globalLsn

/-! ## Without the counter -/

section Recover

variable {f : PersistFile} {stack m : Memory} {a : Nat} {b : CLogBuffer} {p : CLogRecordBuffer} {g : Int}

theorem map_bytes_lastRecord : p.lastRecord.map RecoveredRecord.bytes = p.last := by
  unfold CLogRecordBuffer.lastRecord CLogRecordBuffer.last
  split
  · rfl
  · rfl

/-- The bytes that `BlockRecover` hands over are those of the record met. -/
theorem blockRecover_bytes {o : Int} {bs : List UInt8} (h : (blockRecover m a o p).2.2 = some bs) :
    bs = (recordMet m a o p).bytes := by
  unfold blockRecover at h
  unfold recordMet
  simp only at h
  split at h
  · cases h
  · split at h
    · cases h
    · split at h
      · rename_i hp
        rw [if_pos hp]
        exact (Option.some.inj h).symm
      · rename_i hp
        rw [if_neg hp]
        split at h
        · exact (Option.some.inj h).symm
        · cases h

theorem blockLoop_eq : ∀ {fuel : Nat} {o : Int} {p : CLogRecordBuffer} {g : Int}, blockLoop m a fuel o p =
    (blockLsnLoop m a fuel o p g).map fun x => (x.1.map RecoveredRecord.bytes, x.2.1) := by
  intro fuel
  induction fuel with
  | zero => exact rfl
  | succ fuel ih =>
    intro o p g
    rw [blockLoop, blockLsnLoop]
    split
    · obtain ⟨o', p', r, hstep⟩ : ∃ o' p' r, blockRecover m a o p = (o', p', r) := ⟨_, _, _, rfl⟩
      simp only [hstep]
      cases r with
      | none =>
        rw [ih (g := g), Option.map_map]
        rfl
      | some bs =>
        rw [ih (g := lsnBehind (recordMet m a o p)), Option.map_map, Option.map_map,
          blockRecover_bytes (congrArg (fun x => x.2.2) hstep)]
        rfl
    · rfl

theorem chunkLoop_eq {fuel : Nat} : ∀ {left : Nat} {b : CLogBuffer} {p : CLogRecordBuffer} {g : Int},
    chunkLoop fuel m left b p = (chunkLsnLoop fuel m left b p g).map fun x =>
      (x.1.map RecoveredRecord.bytes, x.2.1, x.2.2.1, x.2.2.2.1) := by
  intro left
  induction left with
  | zero => exact rfl
  | succ left ih =>
    intro b p g
    rw [chunkLoop, chunkLsnLoop]
    simp only [blockLoop_eq (g := g)]
    cases blockLsnLoop m (clogBlockSize * (7 - left)) fuel clogBlockHeaderSize p g with
    | none => rfl
    | some x =>
      obtain ⟨rs, p', g'⟩ := x
      simp only [Option.map_some]
      split
      · rw [Option.map_some, List.map_append, map_bytes_lastRecord]
      · rw [ih (g := g'), Option.map_map, Option.map_map]
        refine congrArg (fun k => Option.map k _) ?_
        funext x
        simp only [Function.comp_apply, List.map_append]

theorem fileLoop_eq : ∀ {fuel offset size : Nat} {m : Memory} {b : CLogBuffer} {p : CLogRecordBuffer} {g : Int},
    fileLoop f fuel offset size m b p = (fileLsnLoop f fuel offset size m b p g).map fun x =>
      (x.1.map RecoveredRecord.bytes, x.2.1) := by
  intro fuel
  induction fuel with
  | zero => exact rfl
  | succ fuel ih =>
    intro offset size m b p g
    rw [fileLoop, fileLsnLoop]
    split
    · rw [chunkLoop_eq (g := g)]
      cases chunkLsnLoop fuel m 8 b p g with
      | none => rfl
      | some x =>
        obtain ⟨rs, p', b', last, g'⟩ := x
        cases last with
        | true => rfl
        | false =>
          simp only [Option.map_some]
          rw [ih (g := g'), Option.map_map, Option.map_map]
          refine congrArg (fun k => Option.map k _) ?_
          funext x
          simp only [Function.comp_apply, List.map_append]
    · rw [Option.map_some, map_bytes_lastRecord]

/-- The counter changes nothing that is handed over. -/
theorem recover_eq_recoverLsn (fuel : Nat) (f : PersistFile) (stack : Memory) (b : CLogBuffer) (g : Int) :
    recover fuel f stack b = (recoverLsn fuel f stack b g).map fun x =>
      (x.1.map RecoveredRecord.bytes, x.2.1) := by
  unfold recover recoverLsn
  obtain ⟨re, data, outSize⟩ := f.readAt clogBlockSize clogRedoBufferSize
  exact fileLoop_eq

end Recover

/-! ## When the side buffer is empty at the end -/

/-- The last of the offsets from `o` on at which a block with `d` bytes of payload is read is that of a record
in the block. -/
inductive EndsWhole (m : Memory) (a : Nat) (d : Int) : Int → Prop
  | last (o : Int) (hin : 0 ≤ o ∧ o < 8 + d) (hout : ¬(0 ≤ nextOffset m a o ∧ nextOffset m a o < 8 + d))
    (h : Whole m a o) : EndsWhole m a d o
  | next (o : Int) (hin : 0 ≤ o ∧ o < 8 + d) (h : EndsWhole m a d (nextOffset m a o)) : EndsWhole m a d o

/-- The last of the first `i` blocks that holds data ends with a record in the block. -/
def CleanAfter (f : PersistFile) (stack : Memory) : Nat → Prop
  | 0 => True
  | i + 1 =>
    let m := redoBuffer f stack (i / 8)
    EndsWhole m (512 * (i % 8)) (dataLen m (i % 8)) 8 ∨ dataLen m (i % 8) = 0 ∧ CleanAfter f stack i

/-- The log of `n` blocks ends so, up to its first block that is not full. -/
def EndsInBlock (f : PersistFile) (stack : Memory) (n : Nat) : Prop :=
  ∃ i, StopsAt f stack n i ∧ CleanAfter f stack (i + 1)

/-- The counter behind records that were handed over in the loop over a block. -/
def lsnAfter (globalLsn : Int) (rs : List RecoveredRecord) : Int := rs.foldl (fun _ r => lsnBehind r) globalLsn

theorem lsnAfter_append (g : Int) (rs rs' : List RecoveredRecord) :
    lsnAfter g (rs ++ rs') = lsnAfter (lsnAfter g rs) rs' := List.foldl_append

section Block

variable {m : Memory} {a : Nat} {d o : Int} {p p' : CLogRecordBuffer}

theorem EndsWhole.inside (h : EndsWhole m a d o) : 0 ≤ o ∧ o < 8 + d := by
  cases h with
  | last _ hin => exact hin
  | next _ hin => exact hin

theorem endsWhole_iff_next (hin : 0 ≤ o ∧ o < 8 + d) (hnext : 0 ≤ nextOffset m a o ∧ nextOffset m a o < 8 + d) :
    EndsWhole m a d o ↔ EndsWhole m a d (nextOffset m a o) := by
  constructor
  · intro h
    cases h with
    | last _ _ hout => exact absurd hnext hout
    | next _ _ h => exact h
  · exact .next o hin

theorem endsWhole_iff_whole (hin : 0 ≤ o ∧ o < 8 + d)
    (hout : ¬(0 ≤ nextOffset m a o ∧ nextOffset m a o < 8 + d)) : EndsWhole m a d o ↔ Whole m a o := by
  constructor
  · intro h
    cases h with
    | last _ _ _ h => exact h
    | next _ _ h => exact absurd h.inside hout
  · exact .last o hin hout

/-- A block with nothing but the rest of a record. -/
theorem not_endsWhole_of_rest (hd : 0 < d) (hfirst : (CLogBlock.ofMemory m a).firstRecordOffset = 8 + d) :
    ¬EndsWhole m a d 8 := by
  have hrest : (8 : Int) = clogBlockHeaderSize ∧
      (CLogBlock.ofMemory m a).firstRecordOffset ≠ clogBlockHeaderSize := by
    have h8 : (clogBlockHeaderSize : Int) = 8 := rfl
    rw [hfirst, h8]
    exact ⟨rfl, by omega⟩
  have hnext : nextOffset m a 8 = 8 + d := by
    have h8 : (clogBlockHeaderSize : Int) = 8 := rfl
    unfold nextOffset
    simp only
    rw [if_pos hrest, hfirst, h8]
    exact max_eq_right (by omega)
  intro h
  cases h with
  | last _ _ _ hwhole => exact hwhole.starts hrest
  | next _ _ h =>
    have hin := h.inside.2
    rw [hnext] at hin
    exact lt_irrefl _ hin

/-- One block: the counter follows the records, and what is left in the side buffer at the end. -/
theorem blockLsnLoop_spec (hd : 0 ≤ (CLogBlock.ofMemory m a).blockDataLen)
    (hd' : (CLogBlock.ofMemory m a).blockDataLen ≤ 504) : ∀ {fuel : Nat} {o : Int} {p p' : CLogRecordBuffer}
    {g g' : Int} {rs : List RecoveredRecord}, IsOffset o → blockLsnLoop m a fuel o p g = some (rs, p', g') →
    (∀ l, blockLsnLoop m a fuel o p l = some (rs, p', lsnAfter l rs)) ∧
      (p'.writeOffset = 0 ↔ EndsWhole m a (CLogBlock.ofMemory m a).blockDataLen o ∨
        ¬(0 ≤ o ∧ o < 8 + (CLogBlock.ofMemory m a).blockDataLen) ∧ p.writeOffset = 0) := by
  obtain ⟨d, hdata⟩ : ∃ d, (CLogBlock.ofMemory m a).blockDataLen = d := ⟨_, rfl⟩
  rw [hdata] at hd hd' ⊢
  intro fuel
  induction fuel with
  | zero => nofun
  | succ fuel ih =>
    intro o p p' g g' rs ho h
    by_cases hin : 0 ≤ o ∧ o < 8 + d
    · have hcond := (toSizeT_lt_iff ho hd hd').mpr hin
      -- the rest of the block, from where the call leaves off
      have hrest : ∀ {o' p1 r}, IsOffset o' → blockRecover m a o p = (o', p1, r) →
          (∀ l, blockLsnLoop m a (fuel + 1) o p l = some (rs, p', lsnAfter l rs)) ∧
          (p'.writeOffset = 0 ↔ EndsWhole m a d o' ∨ ¬(0 ≤ o' ∧ o' < 8 + d) ∧ p1.writeOffset = 0) := by
        intro o' p1 r ho' hstep
        simp only [blockLsnLoop, hdata, if_pos hcond, hstep] at h ⊢
        cases r with
        | none => exact ih ho' h
        | some bs =>
          obtain ⟨⟨rs', p2, g2⟩, hrun, hx⟩ := Option.map_eq_some_iff.mp h
          cases hx
          obtain ⟨hall, hend⟩ := ih ho' hrun
          refine ⟨fun l => ?_, hend⟩
          simp only [hall, Option.map_some, lsnAfter, List.foldl_cons]
      rcases blockRecover_moves p hin.1 (by omega) with ⟨p1, r, hstep, hpend⟩ | ⟨-, r, hstep⟩
      · obtain ⟨hall, hend⟩ := hrest isOffset_nextOffset hstep
        refine ⟨hall, ?_⟩
        by_cases hnext : 0 ≤ nextOffset m a o ∧ nextOffset m a o < 8 + d
        · rw [hend, endsWhole_iff_next hin hnext]
          exact or_congr_right (iff_of_false (fun h => h.1 hnext) fun h => h.1 hin)
        · have hmoved := hpend fun heq => hnext (heq.symm ▸ hin)
          have hnot : ¬EndsWhole m a d (nextOffset m a o) := fun h => hnext h.inside
          rw [hend, or_iff_right hnot, and_iff_right hnext, hmoved, endsWhole_iff_whole hin hnext]
          exact (or_iff_left fun h => h.1 hin).symm
      · obtain ⟨hall, hend⟩ := hrest ho hstep
        refine ⟨hall, ?_⟩
        rw [hend]
        exact or_congr_right (iff_of_false (fun h => h.1 hin) fun h => h.1 hin)
    · have hcond := mt (toSizeT_lt_iff ho hd hd').mp hin
      have hnot : ¬EndsWhole m a d o := fun h => hin h.inside
      simp only [blockLsnLoop, hdata, if_neg hcond] at h ⊢
      cases h
      exact ⟨fun _ => rfl, ((or_iff_right hnot).trans (and_iff_right hin)).symm⟩

end Block

section File

variable {f : PersistFile} {stack : Memory} {n c i j fuel : Nat} {b b' : CLogBuffer} {p p' : CLogRecordBuffer}
  {g g' : Int} {rs : List RecoveredRecord}

/-- The side buffer is empty as `CleanAfter` says. -/
def Settled (f : PersistFile) (stack : Memory) (i : Nat) (p : CLogRecordBuffer) : Prop :=
  p.writeOffset = 0 ↔ CleanAfter f stack i

theorem Settled.block (h : Settled f stack (8 * c + j) p) (hj : j < 8)
    (hd : 0 ≤ dataLen (redoBuffer f stack c) j ∧ dataLen (redoBuffer f stack c) j ≤ 504)
    (hrun : blockLsnLoop (redoBuffer f stack c) (512 * j) fuel clogBlockHeaderSize p g = some (rs, p', g')) :
    (∀ l, blockLsnLoop (redoBuffer f stack c) (512 * j) fuel clogBlockHeaderSize p l =
      some (rs, p', lsnAfter l rs)) ∧ Settled f stack (8 * c + j + 1) p' := by
  have hstart : IsOffset (clogBlockHeaderSize : Int) := isOffset_start
  obtain ⟨hall, hend⟩ := blockLsnLoop_spec hd.1 hd.2 hstart hrun
  refine ⟨hall, ?_⟩
  have hc : (8 * c + j) / 8 = c := by omega
  have hm : (8 * c + j) % 8 = j := by omega
  have h8 : (clogBlockHeaderSize : Int) = 8 := rfl
  unfold Settled at h ⊢
  rw [← dataLen, h8, h] at hend
  rw [hend, CleanAfter]
  simp only [hc, hm]
  refine or_congr_right (and_congr_left fun _ => ?_)
  obtain ⟨hd, -⟩ := hd
  omega

/-- A chunk of blocks: it is full, or the log ends in it. -/
theorem chunkLsnLoop_spec
    (hm : ∀ j < 8, 0 ≤ dataLen (redoBuffer f stack c) j ∧ dataLen (redoBuffer f stack c) j ≤ 504) :
    ∀ {left : Nat} {b b' : CLogBuffer} {p p' : CLogRecordBuffer} {g g' : Int} {rs : List RecoveredRecord}
      {last : Bool}, left ≤ 8 → Settled f stack (8 * c + (8 - left)) p →
    chunkLsnLoop fuel (redoBuffer f stack c) left b p g = some (rs, p', b', last, g') →
    ∃ inner, (∀ l, chunkLsnLoop fuel (redoBuffer f stack c) left b p l =
        some (rs, p', b', last, lsnAfter l inner)) ∧
      (last = false ∧ rs = inner ∧ (∀ j, 8 - left ≤ j → j < 8 → dataLen (redoBuffer f stack c) j = 504) ∧
          Settled f stack (8 * c + 8) p' ∨
        last = true ∧ rs = inner ++ p'.lastRecord ∧ ∃ j, 8 - left ≤ j ∧ j < 8 ∧
          dataLen (redoBuffer f stack c) j < 504 ∧
          (∀ k, 8 - left ≤ k → k < j → dataLen (redoBuffer f stack c) k = 504) ∧
          Settled f stack (8 * c + j + 1) p') := by
  intro left
  induction left with
  | zero =>
    intro b b' p p' g g' rs last _ hp h
    cases h
    exact ⟨[], fun _ => rfl, .inl ⟨rfl, rfl, fun j h1 h2 => absurd h2 (Nat.not_lt.mpr h1), hp⟩⟩
  | succ left ih =>
    intro b b' p p' g g' rs last hleft hp h
    obtain ⟨hd, hd'⟩ := hm (7 - left) (by omega)
    rw [show 8 - (left + 1) = 7 - left by omega] at hp ⊢
    rw [chunkLsnLoop] at h
    simp only [chunkLsnLoop]
    cases hloop : blockLsnLoop (redoBuffer f stack c) (clogBlockSize * (7 - left)) fuel clogBlockHeaderSize p g with
    | none =>
      simp only [hloop] at h
      cases h
    | some x =>
      obtain ⟨rs1, p1, g1⟩ := x
      obtain ⟨hall, hp1⟩ := hp.block (by omega) ⟨hd, hd'⟩ hloop
      rw [← clogBlockSize] at hall
      simp only [hloop] at h
      simp only [hall]
      split at h
      · rename_i hlast
        simp only [Option.some.injEq, Prod.mk.injEq] at h
        obtain ⟨rfl, rfl, rfl, rfl, rfl⟩ := h
        have hstop : dataLen (redoBuffer f stack c) (7 - left) < 504 := (isLast_iff hd hd').mp hlast
        simp only [if_pos hlast]
        exact ⟨rs1, fun _ => rfl, .inr ⟨trivial, rfl, 7 - left, le_rfl, by omega, hstop,
          fun k h1 h2 => absurd h2 (Nat.not_lt.mpr h1), hp1⟩⟩
      · rename_i hlast
        have hfull : dataLen (redoBuffer f stack c) (7 - left) = 504 :=
          le_antisymm hd' (not_lt.mp (mt (isLast_iff hd hd').mpr hlast))
        obtain ⟨⟨rs2, p2, b2, last2, g2⟩, hrun, hx⟩ := Option.map_eq_some_iff.mp h
        cases hx
        rw [show 8 * c + (7 - left) + 1 = 8 * c + (8 - left) by omega] at hp1
        have hfrom : ∀ {j}, 7 - left ≤ j → (8 - left ≤ j → dataLen (redoBuffer f stack c) j = 504) →
            dataLen (redoBuffer f stack c) j = 504 := by
          intro j h1 h2
          by_cases hj : j = 7 - left
          · rw [hj]
            exact hfull
          · exact h2 (by omega)
        obtain ⟨inner, hall2, hcase⟩ := ih (by omega) hp1 hrun
        simp only [if_neg hlast, hall2, Option.map_some]
        refine ⟨rs1 ++ inner, fun l => by rw [lsnAfter_append], ?_⟩
        rcases hcase with ⟨hflag, rfl, hj, hp2⟩ | ⟨hflag, rfl, j, h1, h2, hstop, hj, hp2⟩
        · exact .inl ⟨hflag, rfl, fun j h1 h2 => hfrom h1 fun h3 => hj j h3 h2, hp2⟩
        · refine .inr ⟨hflag, (List.append_assoc _ _ _).symm, j, by omega, h2, hstop, fun k h3 h4 => ?_, hp2⟩
          exact hfrom h3 fun h5 => hj k h5 h4

theorem fileLsnLoop_last {offset size : Nat} {m : Memory} (hsize : size ≠ 0)
    (h : chunkLsnLoop fuel m 8 b p g = some (rs, p', b', true, g')) :
    fileLsnLoop f (fuel + 1) offset size m b p g = some (rs, b', g') := by
  simp only [fileLsnLoop, if_pos hsize, h]

theorem fileLsnLoop_next {offset size : Nat} {m : Memory} {re : Re} {data : List UInt8} {outSize : Option Nat}
    (hsize : size ≠ 0) (h : chunkLsnLoop fuel m 8 b p g = some (rs, p', b', false, g'))
    (hread : f.readAt (offset + size) clogRedoBufferSize = (re, data, outSize)) :
    fileLsnLoop f (fuel + 1) offset size m b p g =
      (fileLsnLoop f fuel (offset + size) (outSize.getD size) (write m 0 data) b' p' g').map
        fun x => (rs ++ x.1, x.2) := by
  simp only [fileLsnLoop, if_pos hsize, h, hread]

theorem fileLsnLoop_none {offset size : Nat} {m : Memory} (hsize : size ≠ 0)
    (h : chunkLsnLoop fuel m 8 b p g = none) : fileLsnLoop f (fuel + 1) offset size m b p g = none := by
  simp only [fileLsnLoop, if_pos hsize, h]

/-- The outer loop from chunk `c` on. The counter follows all records but the one that is left in the side
buffer at the end. -/
theorem fileLsnLoop_spec (h : WholeBlocks f n) (hn : 8 ≤ n) (hstop : StopsAt f stack n i) :
    ∀ {fuel c : Nat} {b b' : CLogBuffer} {p : CLogRecordBuffer} {g g' : Int} {rs : List RecoveredRecord},
    8 * c ≤ i → Settled f stack (8 * c) p →
    fileLsnLoop f fuel (512 + 4096 * c) clogRedoBufferSize (redoBuffer f stack c) b p g = some (rs, b', g') →
    ∃ inner p', rs = inner ++ p'.lastRecord ∧ Settled f stack (i + 1) p' ∧
      ∀ l, fileLsnLoop f fuel (512 + 4096 * c) clogRedoBufferSize (redoBuffer f stack c) b p l =
        some (rs, b', lsnAfter l inner) := by
  have hin := hstop.onFile
  have hbefore : ∀ {c j}, j < 8 → 8 * c + j < i → dataLen (redoBuffer f stack c) j = 504 := by
    intro c j hj hlt
    have hb := (hstop.before _ hlt).1
    rwa [show (8 * c + j) / 8 = c by omega, show (8 * c + j) % 8 = j by omega] at hb
  have hne : clogRedoBufferSize ≠ 0 := by decide
  intro fuel
  induction fuel with
  | zero => nofun
  | succ fuel ih =>
    intro c b b' p g g' rs hc hp hrun
    cases hchunk : chunkLsnLoop fuel (redoBuffer f stack c) 8 b p g with
    | none =>
      rw [fileLsnLoop_none hne hchunk] at hrun
      cases hrun
    | some x =>
      obtain ⟨rs1, p1, b1, last, g1⟩ := x
      obtain ⟨inner, hall, hcase⟩ := chunkLsnLoop_spec (h.dataLen_bounds hn (by omega) stack) le_rfl hp hchunk
      rcases hcase with ⟨rfl, rfl, hfull, hp1⟩ | ⟨rfl, rfl, j, -, hj, hlt, hfull, hp1⟩
      · have hi : 8 * (c + 1) ≤ i := by
          by_contra hlt
          have hlast := hstop.stops.1
          rw [show i / 8 = c by omega, hfull _ (Nat.zero_le _) (Nat.mod_lt i (by decide))] at hlast
          exact lt_irrefl _ hlast
        obtain ⟨re, outSize, hread, hsize⟩ := readAt_eq f (512 + 4096 * c + clogRedoBufferSize) clogRedoBufferSize
        have hnext : write (redoBuffer f stack c) 0
            (f.fread (512 + 4096 * c + clogRedoBufferSize) clogRedoBufferSize) = redoBuffer f stack (c + 1) :=
          redoBuffer_next (by rw [h.1]; omega)
        rw [fileLsnLoop_next hne hchunk hread, hsize, hnext, ← next_offset] at hrun
        obtain ⟨⟨rs2, b2, g2⟩, hrun2, hx⟩ := Option.map_eq_some_iff.mp hrun
        simp only [Prod.mk.injEq] at hx
        obtain ⟨rfl, rfl, rfl⟩ := hx
        obtain ⟨inner2, p2, rfl, hp2, hall2⟩ := ih hi hp1 hrun2
        refine ⟨rs1 ++ inner2, p2, (List.append_assoc _ _ _).symm, hp2, fun l => ?_⟩
        rw [fileLsnLoop_next hne (hall l) hread, hsize, hnext, ← next_offset, hall2, lsnAfter_append,
          Option.map_some]
      · have hi : 8 * c + j = i := by
          refine Nat.le_antisymm (Nat.not_lt.mp fun hgt => ?_) (Nat.not_lt.mp fun hless => ?_)
          · have hlast := hstop.stops.1
            rw [show i / 8 = c by omega, hfull _ (Nat.zero_le _) (by omega)] at hlast
            exact lt_irrefl _ hlast
          · rw [hbefore hj hless] at hlt
            exact lt_irrefl _ hlt
        rw [fileLsnLoop_last hne hchunk] at hrun
        simp only [Option.some.injEq, Prod.mk.injEq] at hrun
        obtain ⟨rfl, rfl, rfl⟩ := hrun
        rw [hi] at hp1
        exact ⟨inner, p1, rfl, hp1, fun l => fileLsnLoop_last hne (hall l)⟩

theorem StopsAt.unique {i' : Nat} (h : StopsAt f stack n i) (h' : StopsAt f stack n i') : i = i' := by
  have hle : ∀ {i i'}, StopsAt f stack n i → StopsAt f stack n i' → i ≤ i' := by
    intro i i' h h'
    by_contra hlt
    have hfull := (h.before i' (Nat.not_le.mp hlt)).1
    have hstop := h'.stops.1
    rw [hfull] at hstop
    exact lt_irrefl _ hstop
  exact Nat.le_antisymm (hle h h') (hle h' h)

theorem recoverLsn_short (hsize : f.size < 512 + 4096) (h : recoverLsn fuel f stack b g = some (rs, b', g')) :
    rs = [] := by
  have hlen := mt length_fread_first.mp (Nat.not_le.mpr hsize)
  simp only [recoverLsn, PersistFile.readAt, if_pos hlen, Option.getD_none] at h
  cases fuel with
  | zero => cases h
  | succ fuel =>
    cases h
    rfl

theorem recoverLsn_eq (hsize : 512 + 4096 ≤ f.size) (fuel : Nat) (stack : Memory) (b : CLogBuffer) (g : Int) :
    recoverLsn fuel f stack b g = fileLsnLoop f fuel 512 clogRedoBufferSize
      (write stack 0 (f.fread 512 4096)) b .empty g := by
  have hlen := not_not.mpr (length_fread_first.mpr hsize)
  simp only [recoverLsn, PersistFile.readAt, if_neg hlen, Option.getD_some]
  rfl

/-- A run of `Recover` that hands over records, and what any counter is set to by it. -/
theorem recoverLsn_spec (h : WholeBlocks f n) (hrun : recoverLsn fuel f stack b g = some (rs, b', g'))
    (hne : rs ≠ []) : ∃ i inner p', StopsAt f stack n i ∧ rs = inner ++ p'.lastRecord ∧
      Settled f stack (i + 1) p' ∧ ∀ l, recoverLsn fuel f stack b l = some (rs, b', lsnAfter l inner) := by
  have hn : 8 ≤ n := by
    by_contra hlt
    refine hne (recoverLsn_short ?_ hrun)
    rw [h.1]
    omega
  have hsize : 512 + 4096 ≤ f.size := by
    rw [h.1]
    omega
  have hrec := recover_eq_recoverLsn fuel f stack b g
  rw [hrun] at hrec
  obtain ⟨i, hi⟩ := stopsAt_of_recover h hn hrec
  have hempty : Settled f stack (8 * 0) .empty := iff_of_true rfl trivial
  simp only [recoverLsn_eq hsize, redoBuffer_first hsize] at hrun ⊢
  obtain ⟨inner, p', hrs, hp, hall⟩ := fileLsnLoop_spec h hn hi (Nat.zero_le _) hempty hrun
  exact ⟨i, inner, p', hi, hrs, hp, hall⟩

end File

end CLogFile

/-! ## The numbers of records -/

/-- Records with numbers as `GetNextLsn` gives them, which an `int32_t` can hold. -/
structure Sequenced (rs : List RecoveredRecord) : Prop where
  positive : ∀ r ∈ rs, 0 < r.clogRecordLen
  fits : ∀ r ∈ rs, InInt32 (r.lsn + r.clogRecordLen)
  ascends : rs.Pairwise fun r r' => r.lsn + r.clogRecordLen ≤ r'.lsn

namespace CLogManager

/-- The numbers of records of the lengths `lens` that are made one after another. -/
def nextRanges : Int → List Int → List (Set Int)
  | _, [] => []
  | globalLsn, len :: lens =>
    match getNextLsn globalLsn len with
    | (lsn, globalLsn) => Set.Ico lsn (lsn + len) :: nextRanges globalLsn lens

/-- The counter stands behind the last record, and no number is given twice. -/
structure LsnRestored (rs : List RecoveredRecord) (globalLsn : Int) : Prop where
  last : ∃ r, rs.getLast? = some r ∧ globalLsn = r.lsn + r.clogRecordLen
  disjoint : ∀ lens : List Int, (∀ len ∈ lens, 0 ≤ len) → globalLsn + lens.sum < 2 ^ 31 →
    (rs.map RecoveredRecord.lsnRange ++ nextRanges globalLsn lens).Pairwise Disjoint

theorem nextRanges_spec : ∀ {lens : List Int} {g : Int}, -2 ^ 31 ≤ g → (∀ len ∈ lens, 0 ≤ len) →
    g + lens.sum < 2 ^ 31 →
    (∀ s ∈ nextRanges g lens, ∀ x ∈ s, g ≤ x) ∧ (nextRanges g lens).Pairwise Disjoint := by
  intro lens
  induction lens with
  | nil => exact fun _ _ _ => ⟨fun s hs => (nomatch hs), .nil⟩
  | cons len lens ih =>
    intro g hg hlens hsum
    obtain ⟨hlen, hrest⟩ := List.forall_mem_cons.mp hlens
    have hnonneg : 0 ≤ lens.sum := List.sum_nonneg hrest
    rw [List.sum_cons] at hsum
    have hnext : wrap32 (g + len) = g + len := wrap32_of_inInt32 ⟨by omega, by omega⟩
    obtain ⟨hbehind, hdisjoint⟩ := ih (g := g + len) (by omega) hrest (by omega)
    simp only [nextRanges, getNextLsn, hnext]
    refine ⟨fun s hs x hx => ?_, .cons (fun s hs => ?_) hdisjoint⟩
    · cases hs with
      | head => exact hx.1
      | tail _ hs => exact (Int.le_add_of_nonneg_right hlen).trans (hbehind s hs x hx)
    · exact Set.disjoint_left.mpr fun x hx hx' => absurd hx.2 (not_lt.mpr (hbehind s hs x hx'))

end CLogManager

section Sequenced

open CLogManager

variable {rs : List RecoveredRecord} {r : RecoveredRecord} {g : Int}

theorem lsnAfter_snoc (g : Int) (rs : List RecoveredRecord) (h : InInt32 (r.lsn + r.clogRecordLen)) :
    CLogFile.lsnAfter g (rs ++ [r]) = r.lsn + r.clogRecordLen := by
  rw [CLogFile.lsnAfter_append, CLogFile.lsnAfter, List.foldl_cons, List.foldl_nil, lsnBehind,
    wrap32_of_inInt32 h]

/-- Before the last record the counter is not behind its start. -/
theorem Sequenced.lsnAfter_le (h : Sequenced (rs ++ [r])) : CLogFile.lsnAfter r.lsn rs ≤ r.lsn := by
  cases List.eq_nil_or_concat rs with
  | inl hnil =>
    rw [hnil, CLogFile.lsnAfter, List.foldl_nil]
  | inr hsnoc =>
    obtain ⟨rs', q, rfl⟩ := hsnoc
    rw [List.concat_eq_append] at h ⊢
    have hq : q ∈ rs' ++ [q] := List.mem_append_right _ (List.mem_singleton_self q)
    rw [lsnAfter_snoc _ _ (h.fits q (List.mem_append_left _ hq))]
    exact (List.pairwise_append.mp h.ascends).2.2 q hq r (List.mem_singleton_self r)

/-- Records that are handed over in the loops over the blocks. -/
theorem Sequenced.restored (h : Sequenced rs) (hne : rs ≠ []) (g : Int) :
    LsnRestored rs (CLogFile.lsnAfter g rs) := by
  obtain ⟨rs', r, rfl⟩ := (List.eq_nil_or_concat rs).resolve_left hne
  rw [List.concat_eq_append] at h ⊢
  have hr : r ∈ rs' ++ [r] := List.mem_append_right _ (List.mem_singleton_self r)
  have hend : ∀ q ∈ rs' ++ [r], q.lsn + q.clogRecordLen ≤ r.lsn + r.clogRecordLen := by
    intro q hq
    cases List.mem_append.mp hq with
    | inl hq =>
      have hle := (List.pairwise_append.mp h.ascends).2.2 q hq r (List.mem_singleton_self r)
      exact hle.trans (Int.le_add_of_nonneg_right (h.positive r hr).le)
    | inr hq => rw [List.mem_singleton.mp hq]
  rw [lsnAfter_snoc _ _ (h.fits r hr)]
  refine ⟨⟨r, List.getLast?_concat, rfl⟩, fun lens hlens hsum => ?_⟩
  obtain ⟨hbehind, hdisjoint⟩ := nextRanges_spec (h.fits r hr).1 hlens hsum
  refine List.pairwise_append.mpr ⟨?_, hdisjoint, fun s hs s' hs' => ?_⟩
  · refine List.pairwise_map.mpr (h.ascends.imp fun hle => ?_)
    exact Set.disjoint_left.mpr fun x hx hx' => absurd hx.2 (not_lt.mpr (hle.trans hx'.1))
  · obtain ⟨q, hq, rfl⟩ := List.mem_map.mp hs
    refine Set.disjoint_left.mpr fun x hx hx' => ?_
    exact absurd hx.2 (not_lt.mpr ((hend q hq).trans (hbehind s' hs' x hx')))

end Sequenced

namespace CLogManager

/-- Whatever the counter was, `Recover` leaves it behind the last record exactly if the log ends with a record
in its block. -/
theorem recoverLsn_iff {f : PersistFile} {n : Nat} (h : CLogFile.WholeBlocks f n) {fuel : Nat} {stack : Memory}
    {b b' : CLogBuffer} {g g' : Int} {rs : List RecoveredRecord}
    (hrun : CLogFile.recoverLsn fuel f stack b g = some (rs, b', g')) (hne : rs ≠ []) (hseq : Sequenced rs) :
    (∀ l, ∃ l', CLogFile.recoverLsn fuel f stack b l = some (rs, b', l') ∧ LsnRestored rs l') ↔
      CLogFile.EndsInBlock f stack n := by
  obtain ⟨i, inner, p, hi, hrs, hp, hall⟩ := CLogFile.recoverLsn_spec h hrun hne
  by_cases hclean : p.writeOffset = 0
  · have hnil : p.lastRecord = [] := if_neg (not_not.mpr hclean)
    rw [hnil, List.append_nil] at hrs
    subst hrs
    exact iff_of_true (fun l => ⟨_, hall l, hseq.restored hne l⟩) ⟨i, hi, hp.mp hclean⟩
  · have hlast : p.lastRecord = [⟨p.buffer, 0⟩] := if_pos hclean
    refine iff_of_false (fun hrestored => ?_) fun hends => ?_
    · rw [hlast] at hrs
      subst hrs
      -- the counter is still where the records before have left it
      obtain ⟨l', hrun', ⟨r, hr, hl'⟩, -⟩ := hrestored (RecoveredRecord.lsn ⟨p.buffer, 0⟩)
      rw [hall] at hrun'
      cases hrun'
      rw [List.getLast?_concat] at hr
      cases hr
      have hle := hseq.lsnAfter_le
      have hpos := hseq.positive _ (List.mem_append_right _ (List.mem_singleton_self _))
      omega
    · obtain ⟨i', hi', hclean'⟩ := hends
      rw [hi'.unique hi] at hclean'
      exact hclean (hp.mpr hclean')

/-! ## A record over nine blocks -/

section Long

variable {f : PersistFile} {bs : List UInt8} {stack : Memory} {n : Nat}

theorem wholeBlocks_of_onFile {recs : List (List UInt8)} (h : CLogFile.OnFile f recs n) :
    CLogFile.WholeBlocks f n := by
  refine ⟨h.size, fun i hi => ?_⟩
  have hle := length_piece_le (L := recs.flatten) (i := i)
  rw [(h.block i hi).length]
  omega

/-- The last block has the end of the record only. -/
theorem not_endsInBlock_long (h : CLogFile.OnFile f [bs] 9) (hlen : bs.length = 4096) :
    ¬CLogFile.EndsInBlock f stack 9 := by
  have hread : ∀ {i}, i < 9 → CLogFile.BlockRead f [bs] (CLogFile.redoBuffer f stack (i / 8)) (512 * (i % 8)) i :=
    fun hi => h.blockRead CLogFile.shows_redoBuffer hi
  have hdata : ∀ {i}, i < 9 → CLogFile.dataLen (CLogFile.redoBuffer f stack (i / 8)) (i % 8) =
      (min 504 (4096 - 504 * i) : Nat) := by
    intro i hi
    rw [CLogFile.dataLen, (hread hi).block.length, length_piece, List.flatten_singleton, hlen]
  rintro ⟨i, hi, hclean⟩
  have hstop := hi.stops.1
  rw [hdata hi.onFile] at hstop
  obtain rfl : i = 8 := by
    have hin := hi.onFile
    omega
  have hsplit : [bs] = [] ++ bs :: [] := rfl
  have hfirst := (hread hi.onFile).first hsplit (k := 4032) rfl (by omega)
  have h64 : CLogFile.dataLen (CLogFile.redoBuffer f stack (8 / 8)) (8 % 8) = 64 := hdata hi.onFile
  rw [CLogFile.CleanAfter, h64] at hclean
  rw [hlen] at hfirst
  cases hclean with
  | inl hends => exact CLogFile.not_endsWhole_of_rest (by decide) hfirst hends
  | inr hnone => exact absurd hnone.1 (by decide)

theorem recoverLsn_long (h : CLogFile.OnFile f [bs] 9) (hlen : bs.length = 4096) (stack : Memory) :
    ∃ fuel r b', r.bytes = bs ∧
      ∀ g, ∃ g', CLogFile.recoverLsn fuel f stack .new g = some ([r], b', g') := by
  have hflat : [bs].flatten.length < 504 * 9 := by
    rw [List.flatten_singleton, hlen]
    omega
  obtain ⟨m, b', -, fuel, hends⟩ := h.recover hflat (by omega)
    (by rw [List.map_singleton, hlen]; exact CLogFile.legible_long (by omega)) stack .new
  have hrun := (CLogFile.recover_eq_recoverLsn fuel f stack .new 0).symm.trans (hends fuel le_rfl)
  obtain ⟨⟨rs, b1, g1⟩, hrun, hx⟩ := Option.map_eq_some_iff.mp hrun
  have hbytes : rs.map RecoveredRecord.bytes = [bs] := congrArg Prod.fst hx
  obtain ⟨r, rs', rfl, hr, hrs⟩ := List.map_eq_cons_iff.mp hbytes
  rw [List.map_eq_nil_iff.mp hrs] at hrun
  obtain ⟨i, inner, p', -, -, -, hall⟩ :=
    CLogFile.recoverLsn_spec (wholeBlocks_of_onFile h) hrun (List.cons_ne_nil r [])
  exact ⟨fuel, r, b1, hr, fun g => ⟨_, hall g⟩⟩

end Long

/-- An insert record of 4096 bytes, the first one of a log. -/
def longInsert : CLogRecord :=
  ⟨.redoInsert, 4096, [0, 0, 0, 0, 1, 0, 0, 0, 3, 0, 0, 0, 0, 16, 0, 0] ++ List.replicate 40 0,
    List.replicate 4040 0⟩

theorem encoding_longInsert : longInsert.encoding =
    [0, 0, 0, 0, 1, 0, 0, 0, 3, 0, 0, 0, 0, 16, 0, 0] ++ List.replicate 4080 0 := by
  have htake : ([0, 0, 0, 0, 1, 0, 0, 0, 3, 0, 0, 0, 0, 16, 0, 0] ++ List.replicate 40 0 : List UInt8).take
      clogInsertRecordNoPtrSize =
      [0, 0, 0, 0, 1, 0, 0, 0, 3, 0, 0, 0, 0, 16, 0, 0] ++ List.replicate 40 0 := List.take_of_length_le (by decide)
  simp only [longInsert, CLogRecord.encoding]
  rw [htake, List.append_assoc, List.replicate_append_replicate]

theorem length_longInsert : longInsert.encoding.length = 4096 := by
  rw [encoding_longInsert, List.length_append, List.length_replicate]
  rfl

theorem readable_longInsert : Readable longInsert := by
  have hhead : (longInsert.encoding.drop 12).take 4 = [0, 16, 0, 0] := by
    rw [encoding_longInsert, List.drop_append_of_le_length (by decide), List.take_append_of_le_length (by decide)]
    rfl
  refine ⟨⟨length_longInsert, by decide, fun _ => by decide⟩, ⟨?_, ?_⟩, ?_⟩
  · rw [length_longInsert]
    decide
  · rw [length_longInsert, hhead]
    decide
  · rw [CLogFile.clogRedoBufferSize_eq]
    exact le_refl 4096

theorem onFile_longInsert : ∃ f, CLogFile.OnFile f [longInsert.encoding] 9 := by
  have hrs : ∀ r ∈ [longInsert], Readable r := by
    intro r hr
    rw [List.mem_singleton.mp hr]
    exact readable_longInsert
  have hshort : ([longInsert].flatMap CLogRecord.encoding).length ≤ 504 * (2 ^ 22 - 1) := by
    rw [List.flatMap_singleton, length_longInsert]
    omega
  obtain ⟨s, n, -, -, -, hfile⟩ := onFile_sync hrs hshort
  rw [List.map_singleton] at hfile
  have hup := hfile.upper
  have hlow := hfile.lower
  rw [List.flatten_singleton, length_longInsert] at hup hlow
  obtain rfl : n = 9 := by omega
  exact ⟨_, hfile⟩

/-- `Recover` on the log of this record. -/
theorem recoverLsn_longInsert : ∃ f fuel r b', CLogFile.OnFile f [longInsert.encoding] 9 ∧
    (∀ g, ∃ g', CLogFile.recoverLsn fuel f (fun _ => 0) .new g = some ([r], b', g')) ∧
    r.lsn = 0 ∧ r.clogRecordLen = 4096 := by
  obtain ⟨f, hfile⟩ := onFile_longInsert
  obtain ⟨fuel, r, b', hbytes, hrun⟩ := recoverLsn_long hfile length_longInsert (fun _ => 0)
  have hlen : r.bytes.length = 4096 := by rw [hbytes, length_longInsert]
  have htake : r.bytes.take 4 = [0, 0, 0, 0] := by
    rw [hbytes, encoding_longInsert, List.take_append_of_le_length (by decide)]
    rfl
  refine ⟨f, fuel, r, b', hfile, hrun, ?_, ?_⟩
  · rw [RecoveredRecord.lsn_eq (by omega), htake]
    decide
  · rw [RecoveredRecord.clogRecordLen_eq (List.ne_nil_of_length_pos (by omega)), hlen]
    rfl

theorem sequenced_single {r : RecoveredRecord} (hlsn : r.lsn = 0) (hlen : r.clogRecordLen = 4096) :
    Sequenced [r] := by
  refine ⟨?_, ?_, List.pairwise_singleton _ _⟩
  · intro q hq
    rw [List.mem_singleton.mp hq, hlen]
    decide
  · intro q hq
    rw [List.mem_singleton.mp hq, hlsn, hlen]
    decide

theorem recoverLsn_iff_longInsert : ∃ f fuel r b', CLogFile.OnFile f [longInsert.encoding] 9 ∧
    ((∀ l, ∃ l', CLogFile.recoverLsn fuel f (fun _ => 0) .new l = some ([r], b', l') ∧ LsnRestored [r] l') ↔
      CLogFile.EndsInBlock f (fun _ => 0) 9) := by
  obtain ⟨f, fuel, r, b', hfile, hrun, hlsn, hlen⟩ := recoverLsn_longInsert
  obtain ⟨g', hrun⟩ := hrun 0
  exact ⟨f, fuel, r, b', hfile, recoverLsn_iff (wholeBlocks_of_onFile hfile) hrun (List.cons_ne_nil r [])
    (sequenced_single hlsn hlen)⟩

/-- The record is handed over from the side buffer, and the counter stays at 0. -/
theorem not_lsnRestored_longInsert : ¬∀ (f : PersistFile) (n : Nat), CLogFile.WholeBlocks f n →
    ∀ (fuel : Nat) (stack : Memory) (b b' : CLogBuffer) (g g' : Int) (rs : List RecoveredRecord),
      CLogFile.recoverLsn fuel f stack b g = some (rs, b', g') → rs ≠ [] → Sequenced rs → LsnRestored rs g' := by
  intro hall
  obtain ⟨f, fuel, r, b', hfile, hrun, hlsn, hlen⟩ := recoverLsn_longInsert
  obtain ⟨g', hrun⟩ := hrun 0
  have hblocks := wholeBlocks_of_onFile hfile
  obtain ⟨q, hq, hg'⟩ := (hall f 9 hblocks fuel _ _ _ 0 g' [r] hrun (List.cons_ne_nil r [])
    (sequenced_single hlsn hlen)).last
  rw [List.getLast?_singleton] at hq
  cases hq
  rw [hlsn, hlen] at hg'
  obtain ⟨i, inner, p, hi, hrs, hp, hrun'⟩ := CLogFile.recoverLsn_spec hblocks hrun (List.cons_ne_nil r [])
  have hpending : p.writeOffset ≠ 0 := fun hclean =>
    not_endsInBlock_long hfile length_longInsert ⟨i, hi, hp.mp hclean⟩
  have hlast : p.lastRecord = [⟨p.buffer, 0⟩] := if_pos hpending
  rw [hlast] at hrs
  have hnil : inner = [] := by
    have hlength := congrArg List.length hrs
    rw [List.length_append, List.length_singleton, List.length_singleton] at hlength
    exact List.eq_nil_of_length_eq_zero (by omega)
  have hsame := (hrun' 0).symm.trans hrun
  simp only [Option.some.injEq, Prod.mk.injEq, true_and, hnil, CLogFile.lsnAfter, List.foldl_nil] at hsame
  rw [← hsame] at hg'
  exact absurd hg' (by decide)

end CLogManager

end Idmbs
