import Idmbs.CLog.Record
import Idmbs.Storage.PersistFile

/-!
# Idmbs.CLog.Buffer

`CLogBuffer` and `CLogManager::AppendRecord` (storage/clog_manager.cpp): records are cut into the
payloads of 512 byte blocks, the blocks are collected in a 4 MB buffer and written to the log file
from there.
-/

namespace Idmbs

open Bytes

def clogBufferSize : Nat := 4 * 1024 * 1024

def clogBlockSize : Nat := 512

def clogBlockHeaderSize : Nat := 8

def clogBlockDataSize : Nat := 504

/-- The bytes of records a buffer has room for. -/
def clogBufferCapacity : Nat := clogBufferSize / clogBlockSize * clogBlockDataSize

/-- `CLogBlock`; the first three fields are its header. -/
structure CLogBlock where
  blockOffset : Int
  blockDataLen : Int
  firstRecordOffset : Int
  data : List UInt8
  deriving DecidableEq, Repr

namespace CLogBlock

/-- The block in memory at address `a`. -/
def ofMemory (m : Memory) (a : Nat) : CLogBlock where
  blockOffset := getInt m a 4
  blockDataLen := getInt m (a + 4) 2
  firstRecordOffset := getInt m (a + 6) 2
  data := read m (a + clogBlockHeaderSize) clogBlockDataSize

theorem blockOffset_ofMemory (m : Memory) (a : Nat) :
    (ofMemory m a).blockOffset = getInt m a 4 := by
  simp only [ofMemory]

theorem blockDataLen_ofMemory (m : Memory) (a : Nat) :
    (ofMemory m a).blockDataLen = getInt m (a + 4) 2 := by
  simp only [ofMemory]

theorem firstRecordOffset_ofMemory (m : Memory) (a : Nat) :
    (ofMemory m a).firstRecordOffset = getInt m (a + 6) 2 := by
  simp only [ofMemory]

theorem data_ofMemory (m : Memory) (a : Nat) : (ofMemory m a).data = read m (a + 8) 504 := by
  simp only [ofMemory, clogBlockHeaderSize, clogBlockDataSize]

/-- The payload of a block: the part of `data` in use. -/
def payload (c : CLogBlock) : List UInt8 := c.data.take c.blockDataLen.toNat

end CLogBlock

structure CLogBuffer where
  currentBlockOffset : Int
  writeBlockOffset : Nat
  writeOffset : Nat
  buffer : Memory

namespace CLogBuffer

def new : CLogBuffer := ⟨0, 0, 0, fun _ => 0⟩

/-- `clog_block` in `AppendCLogRecord`: the block that is written to. -/
def clogBlock (b : CLogBuffer) : CLogBlock := .ofMemory b.buffer b.writeBlockOffset

/-- The block at `write_block_offset_` is made the next block of the log. -/
def openBlock (b : CLogBuffer) : CLogBuffer :=
  let offset := (b.currentBlockOffset + clogBlockSize).bmod (2 ^ 32)
  { b with
    currentBlockOffset := offset
    buffer := setInt (zero b.buffer b.writeBlockOffset clogBlockSize) b.writeBlockOffset 4 offset }

def setFirstRecordOffset (b : CLogBuffer) (v : Nat) : CLogBuffer :=
  { b with buffer := setInt b.buffer (b.writeBlockOffset + 6) 2 v }

/-- `copyLen` bytes of the record go behind what the block holds already. -/
def copyRecord (b : CLogBuffer) (r : CLogRecord) (offset copyLen : Nat) : CLogBuffer :=
  let buffer := match r.copyRecordTo offset copyLen with
    | (.success, bytes) => write b.buffer b.writeOffset bytes
    | _ => b.buffer
  { b with
    writeOffset := b.writeOffset + copyLen
    buffer := setInt buffer (b.writeBlockOffset + 4) 2 (b.clogBlock.blockDataLen + copyLen) }

def firstBlock (b : CLogBuffer) : CLogBuffer :=
  if b.writeOffset = 0 ∧ b.writeBlockOffset = 0 then
    { b.openBlock with writeOffset := clogBlockHeaderSize }
  else b

def nextBlock (b : CLogBuffer) : CLogBuffer :=
  { { b with writeBlockOffset := b.writeBlockOffset + clogBlockSize }.openBlock with
    writeOffset := b.writeOffset + clogBlockHeaderSize }

/-- Bytes of the record go to the block; `first` is kept as `first_record_offset` of a new block. -/
def fillBlock (b : CLogBuffer) (r : CLogRecord) (offset copyLen first : Nat) : CLogBuffer :=
  (if b.clogBlock.blockDataLen = 0 then b.setFirstRecordOffset first else b).copyRecord r offset copyLen

/-- `AppendCLogRecord` up to its end (`some`) or up to where it calls itself (`none`). -/
def appendStep (b : CLogBuffer) (r : CLogRecord) (offset : Nat) : Option Re × CLogBuffer × Nat :=
  if clogBufferSize ≤ b.writeOffset then (some .logBufFull, b, offset)
  else
    let leftLen := r.clogRecordLen - offset
    let b := b.firstBlock
    if b.clogBlock.blockDataLen = clogBlockDataSize then (none, b.nextBlock, offset)
    else if (leftLen : Int) ≤ clogBlockDataSize - b.clogBlock.blockDataLen then
      let first := clogBlockHeaderSize + if offset = 0 then 0 else leftLen
      (some .success, b.fillBlock r offset leftLen first, offset + leftLen)
    else
      -- no record starts in a block that the record fills to its end
      let dataLeftLen := (clogBlockDataSize - b.clogBlock.blockDataLen).toNat
      (none, b.fillBlock r offset dataLeftLen clogBlockSize, offset + dataLeftLen)

/-- The activations of `AppendCLogRecord`; `none` when they have not ended after `fuel` of them. -/
def appendLoop : Nat → CLogBuffer → CLogRecord → Nat → Option (Re × CLogBuffer × Nat)
  | 0, _, _, _ => none
  | fuel + 1, b, r, offset =>
    match b.appendStep r offset with
    | (some re, b, offset) => some (re, b, offset)
    | (none, b, offset) => appendLoop fuel b r offset

/-- Every activation but the last one takes at least a byte of the buffer. -/
def appendCLogRecord (b : CLogBuffer) (r : CLogRecord) (offset : Nat) :
    Option (Re × CLogBuffer × Nat) :=
  appendLoop (clogBufferSize + 1) b r offset

/-- The buffer and the offset in the record after each activation. -/
def appendMoments : Nat → CLogBuffer → CLogRecord → Nat → List (CLogBuffer × Nat)
  | 0, _, _, _ => []
  | fuel + 1, b, r, offset =>
    match b.appendStep r offset with
    | (some _, b, offset) => [(b, offset)]
    | (none, b, offset) => (b, offset) :: appendMoments fuel b r offset

def reset (b : CLogBuffer) : CLogBuffer :=
  { b with
    writeBlockOffset := 0
    writeOffset := 0
    buffer := zero b.buffer 0 clogBufferSize }

def flushBuffer (b : CLogBuffer) (f : PersistFile) : CLogBuffer × PersistFile :=
  let offset := (CLogBlock.ofMemory b.buffer 0).blockOffset
  if b.writeOffset = clogBufferSize then
    (b.reset, (f.writeAt offset (read b.buffer 0 clogBufferSize)).2)
  else
    let f := (f.writeAt offset (read b.buffer 0 (b.writeBlockOffset + clogBlockSize))).2
    if b.clogBlock.blockDataLen = clogBlockDataSize then (b.reset, f)
    else if b.writeBlockOffset ≠ 0 then
      let buffer := write b.buffer 0 (read b.buffer b.writeBlockOffset clogBlockSize)
      ({ b with
          writeOffset := (b.clogBlock.blockDataLen + clogBlockHeaderSize).toNat
          writeBlockOffset := 0
          buffer := zero buffer clogBlockSize (clogBufferSize - clogBlockSize) }, f)
    else (b, f)

end CLogBuffer

structure CLogManager where
  clogBuffer : CLogBuffer
  clogFile : PersistFile

namespace CLogManager

/-- The header block of a new log file: `file_real_offset`, `file_lsn` and padding. -/
def fileHeaderBlock : List UInt8 := encode 4 8 ++ encode 4 0 ++ List.replicate 504 0

/-- A manager on a directory without a log. -/
def new : CLogManager := ⟨.new, (PersistFile.empty.writeAt 0 fileHeaderBlock).2⟩

def sync (s : CLogManager) : CLogManager :=
  let (b, f) := s.clogBuffer.flushBuffer s.clogFile
  ⟨b, f⟩

/-- Whether `AppendRecord` flushes the buffer. -/
def syncs (re : Re) (r : CLogRecord) : Bool :=
  re == .logBufFull || r.clogFlag == .redoMiniTxnCommit

def appendRecord (s : CLogManager) (r : CLogRecord) : Option (Re × CLogManager) := do
  let (re, b, offset) ← s.clogBuffer.appendCLogRecord r 0
  let s := { s with clogBuffer := b }
  if syncs re r then
    let s := s.sync
    if offset ≠ r.clogRecordLen then
      let (_, b, _) ← s.clogBuffer.appendCLogRecord r offset
      return (re, { s with clogBuffer := b })
    else return (re, s)
  else return (re, s)

def appendRecords (s : CLogManager) : List CLogRecord → Option CLogManager
  | [] => some s
  | r :: rs => do
    let (_, s) ← s.appendRecord r
    s.appendRecords rs

/-- The states while bytes of a record from `offset` on are appended. -/
def appendMoments (s : CLogManager) (r : CLogRecord) (offset : Nat) : List (CLogManager × Nat) :=
  (s.clogBuffer.appendMoments (clogBufferSize + 1) r offset).map fun m => (⟨m.1, s.clogFile⟩, m.2)

/-- The states `AppendRecord` goes through, each with the number of bytes appended so far: after
every activation of `AppendCLogRecord` and after the flush. -/
def moments (s : CLogManager) (r : CLogRecord) : List (CLogManager × Nat) :=
  s.appendMoments r 0 ++
    match s.clogBuffer.appendCLogRecord r 0 with
    | none => []
    | some (re, b, offset) =>
      if syncs re r then
        let s := sync { s with clogBuffer := b }
        (s, offset) :: if offset ≠ r.clogRecordLen then s.appendMoments r offset else []
      else []

/-! ## The log as a whole -/

/-- The blocks on file, without the header block. -/
def fileBlocks (s : CLogManager) : List CLogBlock :=
  (List.range ((s.clogFile.size - clogBlockSize) / clogBlockSize)).map fun i =>
    .ofMemory s.clogFile.bytes (clogBlockSize * (i + 1))

def bufferBlocks (s : CLogManager) : List CLogBlock :=
  if s.clogBuffer.writeOffset = 0 then []
  else (List.range (s.clogBuffer.writeBlockOffset / clogBlockSize + 1)).map fun i =>
    .ofMemory s.clogBuffer.buffer (clogBlockSize * i)

/-- The blocks of the log: a block in the buffer stands for its older version on file. -/
def logBlocks (s : CLogManager) : List CLogBlock :=
  s.fileBlocks.filter (fun c => s.bufferBlocks.all fun c' => c'.blockOffset != c.blockOffset) ++
    s.bufferBlocks

/-- The log is intact and holds the bytes `stream`. -/
structure Intact (s : CLogManager) (stream : List UInt8) : Prop where
  offsets : s.logBlocks.map CLogBlock.blockOffset =
    (List.range s.logBlocks.length).map fun i : Nat => (clogBlockSize : Int) * (i + 1)
  lengths : ∀ c ∈ s.logBlocks, 0 ≤ c.blockDataLen ∧ c.blockDataLen ≤ clogBlockDataSize
  full : ∀ c ∈ s.logBlocks.dropLast, c.blockDataLen = clogBlockDataSize
  bytes : s.logBlocks.flatMap CLogBlock.payload = stream
  position : (s.clogBuffer.writeOffset = 0 ∧ s.clogBuffer.writeBlockOffset = 0) ∨
    (s.clogBuffer.writeOffset : Int) = s.clogBuffer.writeBlockOffset + clogBlockHeaderSize +
      s.clogBuffer.clogBlock.blockDataLen

end CLogManager

end Idmbs
