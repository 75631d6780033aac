import Idmbs.Common.Re
import Idmbs.Lib.Bytes

/-!
# Idmbs.Storage.PersistFile

`PersistFileIoHandler` (common/persist_file_io_handler.cpp) on a file that is open: a C stream in
mode `r+` or `w+`, so a write behind the end leaves a gap of zeros and a read stops at the end.
-/

namespace Idmbs

open Bytes

structure PersistFile where
  size : Nat
  bytes : Memory

namespace PersistFile

/-- A file just created. -/
def empty : PersistFile := ⟨0, fun _ => 0⟩

/-- `WriteAt`; `fseek` refuses a negative offset. -/
def writeAt (f : PersistFile) (offset : Int) (data : List UInt8) : Re × PersistFile :=
  if offset < 0 then (.fileSeek, f)
  else
    let a := offset.toNat
    (.success,
      ⟨max f.size (a + data.length), write (zero f.bytes f.size (a - f.size)) a data⟩)

/-- The bytes `fread` delivers when `size` are asked for. -/
def fread (f : PersistFile) (offset size : Nat) : List UInt8 :=
  read f.bytes offset (min size (f.size - offset))

/-- `ReadAt`. Whatever was read is in the caller's buffer, also after a short read; only a full
read stores the number of bytes, and reports the end of the file. -/
def readAt (f : PersistFile) (offset size : Nat) : Re × List UInt8 × Option Nat :=
  let data := f.fread offset size
  if data.length ≠ size then (.fileRead, data, none) else (.recordEof, data, some size)

end PersistFile

end Idmbs
