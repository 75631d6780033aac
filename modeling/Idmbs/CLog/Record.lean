import Idmbs.Common.Re
import Idmbs.Lib.Bytes

/-!
# Idmbs.CLog.Record

`CLogRecord` (storage/clog_manager.cpp) as the log sees it: a type, a length and the bytes that
`CopyRecordTo` hands out piece by piece.
-/

namespace Idmbs

open Bytes

inductive CLogType where
  | redoError | redoMiniTxnBegin | redoMiniTxnCommit | redoInsert | redoDelete | redoUpdate
  deriving DecidableEq, Repr, Inhabited

def clogRecordHeaderSize : Nat := 16

/-- `CLOG_INSERT_RECORD_NO_PTR_SIZE`: an insert record up to its data pointer. -/
def clogInsertRecordNoPtrSize : Nat := 56

/-- A record in memory: the bytes of the object `clog_record_` points to, and of the array an insert
record keeps its data in. -/
structure CLogRecord where
  clogFlag : CLogType
  clogRecordLen : Nat
  object : List UInt8
  data : List UInt8

namespace CLogRecord

def copyRecordTo (r : CLogRecord) (startOff copyLen : Nat) : Re × List UInt8 :=
  if r.clogRecordLen < startOff + copyLen then (.genericError, [])
  else
    match r.clogFlag with
    | .redoInsert =>
      if clogInsertRecordNoPtrSize < startOff then
        (.success, (r.data.drop (startOff - clogInsertRecordNoPtrSize)).take copyLen)
      else if startOff + copyLen ≤ clogInsertRecordNoPtrSize then
        (.success, (r.object.drop startOff).take copyLen)
      else
        let noPtrCopyLen := clogInsertRecordNoPtrSize - startOff
        (.success, (r.object.drop startOff).take noPtrCopyLen ++
          r.data.take (copyLen - noPtrCopyLen))
    | _ => (.success, (r.object.drop startOff).take copyLen)

/-- The encoding of a record: all its bytes, in the order they are copied. -/
def encoding (r : CLogRecord) : List UInt8 :=
  match r.clogFlag with
  | .redoInsert => r.object.take clogInsertRecordNoPtrSize ++ r.data
  | _ => r.object

/-- The length field is right and counts a `CLogRecordHeader` at least, and an insert record has all
its fields. -/
structure Encoded (r : CLogRecord) : Prop where
  length : r.encoding.length = r.clogRecordLen
  header : clogRecordHeaderSize ≤ r.clogRecordLen
  fields : r.clogFlag = .redoInsert → clogInsertRecordNoPtrSize ≤ r.object.length

theorem copyRecordTo_spec {r : CLogRecord} (h : r.Encoded) {startOff copyLen : Nat}
    (hlen : startOff + copyLen ≤ r.clogRecordLen) :
    r.copyRecordTo startOff copyLen = (.success, (r.encoding.drop startOff).take copyLen) := by
  rw [copyRecordTo, if_neg (by omega), encoding]
  cases hf : r.clogFlag with
  | redoInsert =>
    have ho : (r.object.take clogInsertRecordNoPtrSize).length = clogInsertRecordNoPtrSize := by
      rw [List.length_take, Nat.min_eq_left (h.fields hf)]
    simp only
    split_ifs with h1 h2
    · have hnil : (r.object.take clogInsertRecordNoPtrSize).drop startOff = [] :=
        List.drop_eq_nil_of_le (by omega)
      rw [List.drop_append, hnil, ho, List.nil_append]
    · rw [List.drop_append_of_le_length (by omega), List.take_append_of_le_length, List.drop_take,
        List.take_take, Nat.min_eq_left (by omega)]
      rw [List.length_drop]
      omega
    · rw [List.drop_append_of_le_length (by omega), List.take_append, List.length_drop, ho,
        List.drop_take, List.take_take, Nat.min_eq_right (by omega)]
  | _ => rfl

end CLogRecord

end Idmbs
