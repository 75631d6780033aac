import Idmbs.CLog.Codec
import Idmbs.CLog.Termination

/-!
# Idmbs.CLog.RecoverObjects

`Recover` (storage/clog_manager.cpp) with the objects that it makes. `CLogRecord(char *data)` goes by the type
in the header: a type that it does not know leaves `clog_record_` unset, and `GetLsn` then follows that pointer;
an insert record gets an array of what its length leaves behind the fixed part, and as many bytes are copied
there as its `data_len` says; a name is copied up to its NUL. The side buffer ends after `CLOG_REDO_BUFFER_SIZE`
bytes. `none` says that `Recover` has not returned: a loop is still running, an exception is on its way, or a
copy has gone past the end of an object, an array or a buffer. Where it does return, it does what it does on
byte strings.
-/

namespace Idmbs

open Bytes

/-- What stands on the stack behind `redo_buffer`, and how many bytes can be read from the start of `redo_buffer`
and of the side buffer on. -/
structure RecoverStack where
  behind : Memory
  redoSize : Nat
  sideSize : Nat

namespace CLogRecord

/-- The object of a record with `nameSize` bytes from `table_name` on has room for the name at address `a`, its NUL
included. The fields behind `table_name` are written after it. -/
def NameFits (m : Memory) (a nameSize : Nat) : Prop := 0 ∈ read m a nameSize

/-- The array of an insert record has a size, and room for the data. -/
def DataFits (m : Memory) (size a : Nat) : Prop :=
  let arraySize := CLogRecordHeader.clogRecordLen m a - clogInsertRecordNoPtrSize
  let dataLen := getInt m (a + 44) 4
  0 ≤ arraySize ∧ 0 ≤ dataLen ∧ dataLen ≤ arraySize ∧ a + 48 + dataLen ≤ size

instance {m : Memory} {a nameSize : Nat} : Decidable (NameFits m a nameSize) :=
  inferInstanceAs (Decidable (0 ∈ read m a nameSize))

instance {m : Memory} {size a : Nat} : Decidable (DataFits m size a) :=
  inferInstanceAs (Decidable (_ ∧ _ ∧ _ ∧ _))

/-- The cases of `CLogRecord(char *data)` on the record at address `a`; `some none` is a record whose
`clog_record_` is not set. -/
def ofFlag (m : Memory) (size a : Nat) : CLogType → Option (Option (List UInt8))
  | .redoMiniTxnBegin | .redoMiniTxnCommit => some (some (recordAt m a))
  | .redoInsert =>
    if NameFits m (a + 16) (CLogType.redoInsert.objectSize - 24) ∧ DataFits m size a then some (some (recordAt m a))
    else none
  | .redoDelete =>
    if NameFits m (a + 16) (CLogType.redoDelete.objectSize - 24) then some (some (recordAt m a)) else none
  | _ => some none

/-- `CLogRecord(char *data)`, by the type in the header. -/
def ofData (m : Memory) (size a : Nat) : Option (Option (List UInt8)) :=
  ofFlag m size a (CLogType.ofCode (getInt m (a + 8) 4))

/-- The record is made and `clog_record_` is set. -/
def Set (m : Memory) (size a : Nat) : Prop := (ofData m size a).join.isSome

theorem ofFlag_bytes {m : Memory} {size a : Nat} {flag : CLogType} {r : Option (List UInt8)}
    (h : ofFlag m size a flag = some r) : ∀ bs ∈ r, bs = recordAt m a := by
  have hset (h : some (some (recordAt m a)) = some r) : ∀ bs ∈ r, bs = recordAt m a := by
    rw [← Option.some.inj h]
    exact fun bs hbs => (Option.mem_some.mp hbs).symm
  have hunset (h : some none = some r) : ∀ bs ∈ r, bs = recordAt m a := by
    rw [← Option.some.inj h]
    exact nofun
  cases flag with
  | redoMiniTxnBegin => exact hset h
  | redoMiniTxnCommit => exact hset h
  | redoInsert =>
    rw [ofFlag] at h
    split at h
    · exact hset h
    · cases h
  | redoDelete =>
    rw [ofFlag] at h
    split at h
    · exact hset h
    · cases h
  | redoError => exact hunset h
  | redoUpdate => exact hunset h

theorem ofData_bytes {m : Memory} {size a : Nat} {r : Option (List UInt8)} (h : ofData m size a = some r) :
    ∀ bs ∈ r, bs = recordAt m a := ofFlag_bytes h

theorem Set.ofData {m : Memory} {size a : Nat} (h : Set m size a) :
    CLogRecord.ofData m size a = some (some (recordAt m a)) := by
  obtain ⟨bs, hbs⟩ := Option.isSome_iff_exists.mp h
  have hmade := Option.join_eq_some_iff.mp hbs
  rw [hmade, ofData_bytes hmade bs rfl]

theorem set_of_ofData {m : Memory} {size a : Nat} {bs : List UInt8}
    (h : CLogRecord.ofData m size a = some (some bs)) : Set m size a := by
  unfold Set
  rw [h]
  rfl

end CLogRecord

namespace CLogRecordBuffer

/-- The copy to the side buffer, as far as it stays inside. -/
def pushInside (p : CLogRecordBuffer) (bs : List UInt8) : Option CLogRecordBuffer :=
  if p.writeOffset + bs.length ≤ clogRedoBufferSize then some (p.push bs) else none

theorem pushInside_eq_some {p p' : CLogRecordBuffer} {bs : List UInt8} :
    p.pushInside bs = some p' ↔ p.writeOffset + bs.length ≤ clogRedoBufferSize ∧ p' = p.push bs := by
  unfold pushInside
  split
  · rename_i h
    rw [Option.some.injEq, and_iff_right h, eq_comm]
  · rename_i h
    exact iff_of_false nofun fun h' => h h'.1

/-- What is handed over when the log ends; it is not looked into. -/
def lastObject (s : RecoverStack) (p : CLogRecordBuffer) : Option (List (Option (List UInt8))) :=
  if p.writeOffset ≠ 0 then (CLogRecord.ofData p.buffer s.sideSize 0).map fun r => [r] else some []

end CLogRecordBuffer

namespace CLogFile.Objects

/-- `BlockRecover` on the block at address `a`. -/
def blockRecover (s : RecoverStack) (m : Memory) (a : Nat) (offset : Int) (p : CLogRecordBuffer) :
    Option (Int × CLogRecordBuffer × Option (Option (List UInt8))) :=
  let first := (CLogBlock.ofMemory m a).firstRecordOffset
  let start := (a + offset).toNat
  let rest := (clogBlockSize - offset).toNat
  if offset = clogBlockHeaderSize ∧ first ≠ clogBlockHeaderSize then
    let writeLen := first - clogBlockHeaderSize
    if writeLen < 0 then none
    else (p.pushInside (read m start writeLen.toNat)).map fun p => ((offset + writeLen).bmod (2 ^ 16), p, none)
  else if toSizeT (clogBlockSize - offset) < clogRecordHeaderSize then
    (p.pushInside (read m start rest)).map fun p => (clogBlockSize, p, none)
  else if p.writeOffset ≠ 0 then
    (CLogRecord.ofData p.buffer s.sideSize 0).map fun r => (offset, .empty, some r)
  else
    let len := CLogRecordHeader.clogRecordLen m (a + clogRecordHeaderSize * offset).toNat
    if len ≤ clogBlockSize - offset then
      (CLogRecord.ofData m s.redoSize start).map fun r => ((offset + len).bmod (2 ^ 16), p, some r)
    else (p.pushInside (read m start rest)).map fun p => (clogBlockSize, p, none)

/-- The inner loop of `Recover`; `GetLsn` needs the record that was met to be set. -/
def blockLoop (s : RecoverStack) (m : Memory) (a : Nat) : Nat → Int → CLogRecordBuffer →
    Option (List (Option (List UInt8)) × CLogRecordBuffer)
  | 0, _, _ => none
  | fuel + 1, offset, p =>
    if toSizeT offset < toSizeT (clogBlockHeaderSize + (CLogBlock.ofMemory m a).blockDataLen) then
      match blockRecover s m a offset p with
      | none => none
      | some (_, _, some none) => none
      | some (offset, p, none) => blockLoop s m a fuel offset p
      | some (offset, p, some (some r)) =>
        (blockLoop s m a fuel offset p).map fun (rs, p) => (some r :: rs, p)
    else some ([], p)

/-- The blocks of `redo_buffer` of which `left` are left. -/
def chunkLoop (s : RecoverStack) (fuel : Nat) (m : Memory) : Nat → CLogBuffer → CLogRecordBuffer →
    Option (List (Option (List UInt8)) × CLogRecordBuffer × CLogBuffer × Bool)
  | 0, b, p => some ([], p, b, false)
  | left + 1, b, p =>
    let a := clogBlockSize * (7 - left)
    let c := CLogBlock.ofMemory m a
    let b := { b with currentBlockOffset := c.blockOffset }
    match blockLoop s m a fuel clogBlockHeaderSize p with
    | none => none
    | some (rs, p) =>
      if toSizeT c.blockDataLen < clogBlockDataSize then
        (p.lastObject s).map fun last => (rs ++ last, p, keepLast b m a, true)
      else (chunkLoop s fuel m left b p).map fun (rs', x) => (rs ++ rs', x)

/-- The outer loop of `Recover`. -/
def fileLoop (s : RecoverStack) (f : PersistFile) : Nat → Nat → Nat → Memory → CLogBuffer → CLogRecordBuffer →
    Option (List (Option (List UInt8)) × CLogBuffer)
  | 0, _, _, _, _, _ => none
  | fuel + 1, offset, readSize, m, b, p =>
    if readSize ≠ 0 then
      match chunkLoop s fuel m 8 b p with
      | none => none
      | some (rs, _, b, true) => some (rs, b)
      | some (rs, p, b, false) =>
        let offset := offset + readSize
        match f.readAt offset clogRedoBufferSize with
        | (_, data, outSize) =>
          (fileLoop s f fuel offset (outSize.getD readSize) (write m 0 data) b p).map fun (rs', b) =>
            (rs ++ rs', b)
    else (p.lastObject s).map fun last => (last, b)

/-- `Recover`: the records handed to `CLogRecordManage`, in order, and the log buffer. -/
def recover (fuel : Nat) (f : PersistFile) (s : RecoverStack) (b : CLogBuffer) :
    Option (List (Option (List UInt8)) × CLogBuffer) :=
  match f.readAt clogBlockSize clogRedoBufferSize with
  | (_, data, outSize) => fileLoop s f fuel clogBlockSize (outSize.getD 0) (write s.behind 0 data) b .empty

/-! ## On byte strings -/

/-- The objects hold these bytes, where they hold any. -/
def Hold (rs : List (Option (List UInt8))) (bss : List (List UInt8)) : Prop :=
  List.Forall₂ (fun r bs => ∀ x ∈ r, x = bs) rs bss

section Bytes

variable {s : RecoverStack} {m : Memory} {a fuel : Nat} {f : PersistFile}

theorem Hold.append {rs rs' : List (Option (List UInt8))} {bss bss' : List (List UInt8)} (h : Hold rs bss)
    (h' : Hold rs' bss') : Hold (rs ++ rs') (bss ++ bss') := List.rel_append h h'

theorem hold_lastObject {p : CLogRecordBuffer} {rs : List (Option (List UInt8))}
    (h : p.lastObject s = some rs) : Hold rs p.last := by
  unfold CLogRecordBuffer.lastObject at h
  unfold CLogRecordBuffer.last
  split at h
  · rename_i hp
    obtain ⟨r, hr, rfl⟩ := Option.map_eq_some_iff.mp h
    rw [if_pos hp]
    exact .cons (CLogRecord.ofData_bytes hr) .nil
  · rename_i hp
    cases h
    rw [if_neg hp]
    exact .nil

theorem blockRecover_bytes {o o' : Int} {p p' : CLogRecordBuffer} {r : Option (Option (List UInt8))}
    (h : blockRecover s m a o p = some (o', p', r)) :
    ∃ bs, CLogFile.blockRecover m a o p = (o', p', bs) ∧ Hold r.toList bs.toList := by
  have hpush {bs : List UInt8} {v : Int} (h : (p.pushInside bs).map (fun p => (v, p, none)) = some (o', p', r)) :
      (v, p.push bs, (none : Option (List UInt8))) = (o', p', none) ∧ r = none := by
    obtain ⟨q, hq, heq⟩ := Option.map_eq_some_iff.mp h
    cases heq
    rw [(CLogRecordBuffer.pushInside_eq_some.mp hq).2]
    exact ⟨rfl, rfl⟩
  have hmade {m : Memory} {size a : Nat} {v : Int} {q : CLogRecordBuffer}
      (h : (CLogRecord.ofData m size a).map (fun r => (v, q, some r)) = some (o', p', r)) :
      (v, q, some (recordAt m a)) = (o', p', some (recordAt m a)) ∧ Hold r.toList [recordAt m a] := by
    obtain ⟨x, hx, heq⟩ := Option.map_eq_some_iff.mp h
    cases heq
    exact ⟨rfl, .cons (CLogRecord.ofData_bytes hx) .nil⟩
  unfold blockRecover at h
  unfold CLogFile.blockRecover
  simp only at h ⊢
  split at h
  · rename_i hrest
    split at h
    · cases h
    · rename_i hlen
      rw [Int.toNat_of_nonneg (not_lt.mp hlen)]
      obtain ⟨heq, rfl⟩ := hpush h
      exact ⟨none, by rw [if_pos hrest]; exact heq, .nil⟩
  · rename_i hrest
    rw [if_neg hrest]
    split at h
    · rename_i hshort
      obtain ⟨heq, rfl⟩ := hpush h
      exact ⟨none, by rw [if_pos hshort]; exact heq, .nil⟩
    · rename_i hshort
      rw [if_neg hshort]
      split at h
      · rename_i hp
        rw [if_pos hp]
        exact ⟨_, hmade h⟩
      · rename_i hp
        rw [if_neg hp]
        split at h
        · rename_i hfits
          rw [if_pos hfits]
          exact ⟨_, hmade h⟩
        · rename_i hfits
          obtain ⟨heq, rfl⟩ := hpush h
          exact ⟨none, by rw [if_neg hfits]; exact heq, .nil⟩

theorem blockLoop_bytes : ∀ {fuel : Nat} {o : Int} {p : CLogRecordBuffer}
    {x : List (Option (List UInt8)) × CLogRecordBuffer}, blockLoop s m a fuel o p = some x →
    ∃ bss, CLogFile.blockLoop m a fuel o p = some (bss, x.2) ∧ Hold x.1 bss := by
  intro fuel
  induction fuel with
  | zero => exact fun h => nomatch h
  | succ fuel ih =>
    intro o p x h
    rw [blockLoop] at h
    rw [CLogFile.blockLoop]
    split at h
    · rename_i hin
      rw [if_pos hin]
      cases hstep : blockRecover s m a o p with
      | none =>
        rw [hstep] at h
        cases h
      | some y =>
        obtain ⟨o', p', r⟩ := y
        obtain ⟨bs, hbytes, hhold⟩ := blockRecover_bytes hstep
        rw [hstep] at h
        rw [hbytes]
        rcases r with _ | (_ | r)
        · obtain ⟨bss, hrest, hbss⟩ := ih h
          exact ⟨bs.toList ++ bss, by simp only [hrest, Option.map_some], hhold.append hbss⟩
        · cases h
        · obtain ⟨y, hy, rfl⟩ := Option.map_eq_some_iff.mp h
          obtain ⟨bss, hrest, hbss⟩ := ih hy
          exact ⟨bs.toList ++ bss, by simp only [hrest, Option.map_some], hhold.append hbss⟩
    · rename_i hout
      cases h
      rw [if_neg hout]
      exact ⟨[], rfl, .nil⟩

theorem chunkLoop_bytes : ∀ {left : Nat} {b : CLogBuffer} {p : CLogRecordBuffer}
    {x : List (Option (List UInt8)) × CLogRecordBuffer × CLogBuffer × Bool}, chunkLoop s fuel m left b p = some x →
    ∃ bss, CLogFile.chunkLoop fuel m left b p = some (bss, x.2) ∧ Hold x.1 bss := by
  intro left
  induction left with
  | zero =>
    intro b p x h
    cases h
    exact ⟨[], rfl, .nil⟩
  | succ left ih =>
    intro b p x h
    rw [chunkLoop] at h
    rw [CLogFile.chunkLoop]
    cases hblock : blockLoop s m (clogBlockSize * (7 - left)) fuel clogBlockHeaderSize p with
    | none =>
      simp only [hblock] at h
      cases h
    | some y =>
      obtain ⟨rs, p'⟩ := y
      obtain ⟨bss, hbytes, hhold⟩ := blockLoop_bytes hblock
      simp only [hblock] at h
      simp only [hbytes]
      split at h
      · rename_i hlast
        obtain ⟨last, hl, rfl⟩ := Option.map_eq_some_iff.mp h
        exact ⟨_, by rw [if_pos hlast], hhold.append (hold_lastObject hl)⟩
      · rename_i hlast
        obtain ⟨y, hy, rfl⟩ := Option.map_eq_some_iff.mp h
        obtain ⟨bss', hrest, hbss'⟩ := ih hy
        exact ⟨_, by rw [if_neg hlast, hrest, Option.map_some], hhold.append hbss'⟩

theorem fileLoop_bytes : ∀ {fuel offset size : Nat} {m : Memory} {b : CLogBuffer} {p : CLogRecordBuffer}
    {x : List (Option (List UInt8)) × CLogBuffer}, fileLoop s f fuel offset size m b p = some x →
    ∃ bss, CLogFile.fileLoop f fuel offset size m b p = some (bss, x.2) ∧ Hold x.1 bss := by
  intro fuel
  induction fuel with
  | zero => exact fun h => nomatch h
  | succ fuel ih =>
    intro offset size m b p x h
    rw [fileLoop] at h
    rw [CLogFile.fileLoop]
    split at h
    · rename_i hsize
      rw [if_pos hsize]
      cases hchunk : chunkLoop s fuel m 8 b p with
      | none =>
        rw [hchunk] at h
        cases h
      | some y =>
        obtain ⟨rs, p', b', last⟩ := y
        obtain ⟨bss, hbytes, hhold⟩ := chunkLoop_bytes hchunk
        rw [hchunk] at h
        rw [hbytes]
        cases last with
        | true =>
          cases h
          exact ⟨bss, rfl, hhold⟩
        | false =>
          obtain ⟨re, outSize, hread, -⟩ := readAt_eq f (offset + size) clogRedoBufferSize
          simp only [hread] at h ⊢
          obtain ⟨y, hy, rfl⟩ := Option.map_eq_some_iff.mp h
          obtain ⟨bss', hrest, hbss'⟩ := ih hy
          exact ⟨_, by rw [hrest, Option.map_some], hhold.append hbss'⟩
    · rename_i hsize
      rw [if_neg hsize]
      obtain ⟨last, hl, rfl⟩ := Option.map_eq_some_iff.mp h
      exact ⟨_, rfl, hold_lastObject hl⟩

/-- Where `Recover` returns, it hands over what it hands over on byte strings. -/
theorem recover_bytes {b : CLogBuffer} {x : List (Option (List UInt8)) × CLogBuffer}
    (h : recover fuel f s b = some x) :
    ∃ bss, CLogFile.recover fuel f s.behind b = some (bss, x.2) ∧ Hold x.1 bss := by
  obtain ⟨re, outSize, hread, -⟩ := readAt_eq f clogBlockSize clogRedoBufferSize
  simp only [recover, hread] at h
  simp only [CLogFile.recover, hread]
  exact fileLoop_bytes h

end Bytes

end CLogFile.Objects

end Idmbs
