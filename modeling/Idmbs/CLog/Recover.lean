import Idmbs.CLog.Buffer

/-!
# Idmbs.CLog.Recover

`CLogFile::Recover` and `BlockRecover` (storage/clog_manager.cpp). The file is read in chunks of
eight blocks; records that cross a block border are collected in a side buffer and handed over when
the next record is met, or at the end.

Lengths and offsets are `int16_t` and `int32_t`; where the code compares them with a `sizeof`, both
sides are taken modulo `2 ^ 64`. Memory behind `redo_buffer`, which the code reads from when it
looks for a header in the wrong place, is whatever stands on the stack.
-/

namespace Idmbs

open Bytes

def clogRedoBufferSize : Nat := 8 * clogBlockSize

/-- A signed integer compared as `size_t`. -/
def toSizeT (v : Int) : Int := v % 2 ^ 64

namespace CLogRecordHeader

/-- `clog_record_len` of a header at address `a`. -/
def clogRecordLen (m : Memory) (a : Nat) : Int := getInt m (a + 12) 4

end CLogRecordHeader

/-- `CLogRecord(char *data)`: the record that starts at address `a`, as many bytes as its header
says. -/
def recordAt (m : Memory) (a : Nat) : List UInt8 := read m a (CLogRecordHeader.clogRecordLen m a).toNat

structure CLogRecordBuffer where
  writeOffset : Nat
  buffer : Memory

namespace CLogRecordBuffer

def empty : CLogRecordBuffer := ⟨0, fun _ => 0⟩

def push (p : CLogRecordBuffer) (bs : List UInt8) : CLogRecordBuffer :=
  ⟨p.writeOffset + bs.length, write p.buffer p.writeOffset bs⟩

/-- What is handed over when the log ends. -/
def last (p : CLogRecordBuffer) : List (List UInt8) :=
  if p.writeOffset ≠ 0 then [recordAt p.buffer 0] else []

end CLogRecordBuffer

namespace CLogFile

/-- `BlockRecover` on the block at address `a`: the next offset, the side buffer and the record met,
if any. The header of a record at `offset` is looked for `offset` headers, not bytes, behind the
start of the block. -/
def blockRecover (m : Memory) (a : Nat) (offset : Int) (p : CLogRecordBuffer) :
    Int × CLogRecordBuffer × Option (List UInt8) :=
  let first := (CLogBlock.ofMemory m a).firstRecordOffset
  let start := (a + offset).toNat
  let rest := (clogBlockSize - offset).toNat
  if offset = clogBlockHeaderSize ∧ first ≠ clogBlockHeaderSize then
    let writeLen := (first - clogBlockHeaderSize).toNat
    ((offset + writeLen).bmod (2 ^ 16), p.push (read m start writeLen), none)
  else if toSizeT (clogBlockSize - offset) < clogRecordHeaderSize then
    (clogBlockSize, p.push (read m start rest), none)
  else if p.writeOffset ≠ 0 then
    (offset, .empty, some (recordAt p.buffer 0))
  else
    let len := CLogRecordHeader.clogRecordLen m (a + clogRecordHeaderSize * offset).toNat
    if len ≤ clogBlockSize - offset then
      ((offset + len).bmod (2 ^ 16), p, some (recordAt m start))
    else (clogBlockSize, p.push (read m start rest), none)

/-- The inner loop of `Recover`: all of one block. -/
def blockLoop (m : Memory) (a : Nat) : Nat → Int → CLogRecordBuffer →
    Option (List (List UInt8) × CLogRecordBuffer)
  | 0, _, _ => none
  | fuel + 1, offset, p =>
    if toSizeT offset < toSizeT (clogBlockHeaderSize + (CLogBlock.ofMemory m a).blockDataLen) then
      match blockRecover m a offset p with
      | (offset, p, r) => (blockLoop m a fuel offset p).map fun (rs, p) => (r.toList ++ rs, p)
    else some ([], p)

/-- The last block is kept in the log buffer, to be written on. -/
def keepLast (b : CLogBuffer) (m : Memory) (a : Nat) : CLogBuffer :=
  { b with
    writeBlockOffset := 0
    writeOffset := ((CLogBlock.ofMemory m a).blockDataLen + clogBlockHeaderSize).toNat
    buffer := write b.buffer 0 (read m a clogBlockSize) }

/-- The blocks of `redo_buffer` of which `left` are left; `true` when the last block of the log was
met. -/
def chunkLoop (fuel : Nat) (m : Memory) : Nat → CLogBuffer → CLogRecordBuffer →
    Option (List (List UInt8) × CLogRecordBuffer × CLogBuffer × Bool)
  | 0, b, p => some ([], p, b, false)
  | left + 1, b, p =>
    let a := clogBlockSize * (7 - left)
    let c := CLogBlock.ofMemory m a
    let b := { b with currentBlockOffset := c.blockOffset }
    match blockLoop m a fuel clogBlockHeaderSize p with
    | none => none
    | some (rs, p) =>
      if toSizeT c.blockDataLen < clogBlockDataSize then some (rs ++ p.last, p, keepLast b m a, true)
      else (chunkLoop fuel m left b p).map fun (rs', x) => (rs ++ rs', x)

/-- The outer loop of `Recover`; `readSize` keeps its value when `ReadAt` fails. -/
def fileLoop (f : PersistFile) : Nat → Nat → Nat → Memory → CLogBuffer → CLogRecordBuffer →
    Option (List (List UInt8) × CLogBuffer)
  | 0, _, _, _, _, _ => none
  | fuel + 1, offset, readSize, m, b, p =>
    if readSize ≠ 0 then
      match chunkLoop fuel m 8 b p with
      | none => none
      | some (rs, _, b, true) => some (rs, b)
      | some (rs, p, b, false) =>
        let offset := offset + readSize
        match f.readAt offset clogRedoBufferSize with
        | (_, data, outSize) =>
          (fileLoop f fuel offset (outSize.getD readSize) (write m 0 data) b p).map fun (rs', b) =>
            (rs ++ rs', b)
    else some (p.last, b)

/-- `Recover`: the records handed to `CLogRecordManage`, in order, and the log buffer. `none` when it
has not returned after `fuel` rounds of some loop. -/
def recover (fuel : Nat) (f : PersistFile) (stack : Memory) (b : CLogBuffer) :
    Option (List (List UInt8) × CLogBuffer) :=
  match f.readAt clogBlockSize clogRedoBufferSize with
  | (_, data, outSize) => fileLoop f fuel clogBlockSize (outSize.getD 0) (write stack 0 data) b .empty

end CLogFile

end Idmbs
