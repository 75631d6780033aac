import Idmbs.CLog.Buffer
import Idmbs.CLog.Codec

/-!
# Idmbs.CLog.Copy

`CopyRecordTo` (storage/clog_manager.cpp) called for the pieces of a record, one behind the other, as
`AppendCLogRecord` does when it fills one block after the other.
-/

namespace Idmbs

namespace CLogRecord

/-- `CopyRecordTo` for pieces of the given lengths, from `startOff` on. -/
def copyPieces (r : CLogRecord) : Nat → List Nat → List (Re × List UInt8)
  | _, [] => []
  | startOff, copyLen :: lens => r.copyRecordTo startOff copyLen :: copyPieces r (startOff + copyLen) lens

variable {r : CLogRecord} {startOff copyLen n : Nat} {lens : List Nat}

theorem copyPieces_spec (h : r.Encoded) (hlen : startOff + lens.sum ≤ r.clogRecordLen) :
    (∀ c ∈ r.copyPieces startOff lens, c.1 = .success) ∧
      (r.copyPieces startOff lens).flatMap Prod.snd = (r.encoding.drop startOff).take lens.sum := by
  induction lens generalizing startOff with
  | nil => exact ⟨nofun, rfl⟩
  | cons copyLen lens ih =>
    rw [List.sum_cons] at hlen
    have hrest : startOff + copyLen + lens.sum ≤ r.clogRecordLen := by omega
    have hfirst : startOff + copyLen ≤ r.clogRecordLen := by omega
    obtain ⟨hsuccess, hbytes⟩ := ih hrest
    rw [copyPieces, copyRecordTo_spec h hfirst]
    refine ⟨List.forall_mem_cons.mpr ⟨rfl, hsuccess⟩, ?_⟩
    rw [List.flatMap_cons, hbytes, List.sum_cons, List.take_add, List.drop_drop]

end CLogRecord

/-! ## The records that are made -/

namespace CLogRecordObject

open Bytes CString

section Made

variable {r : CLogRecordObject} {h : Allocation} {flag : CLogType} {lsn txnId : Int} {tableName : Pointer}
  {dataLen : Nat} {rec : Option (RecordId × Option Memory)}

/-- The object is copied, and behind it an insert record's array as far as the length says. -/
theorem encoded_of_len (hinsert : r.clogFlag = .redoInsert → clogInsertRecordNoPtrSize ≤ r.clogRecordLen)
    (hother : r.clogFlag ≠ .redoInsert → r.clogRecordLen = r.clogFlag.objectSize) : r.toRecord.Encoded := by
  have hobject : r.toRecord.object.length = r.clogFlag.objectSize := by
    simp only [toRecord, length_read]
  have hdata : r.toRecord.data.length = r.clogRecordLen.toNat - clogInsertRecordNoPtrSize := by
    simp only [toRecord, length_read]
  have hlen : r.toRecord.clogRecordLen = r.clogRecordLen.toNat := by rw [toRecord]
  have hflag : r.toRecord.clogFlag = r.clogFlag := by rw [toRecord]
  by_cases hf : r.clogFlag = .redoInsert
  · have h56 : 56 ≤ r.clogRecordLen := hinsert hf
    rw [hf] at hobject hflag
    have h64 : r.toRecord.object.length = 64 := hobject
    refine ⟨?_, ?_, fun _ => ?_⟩
    · rw [CLogRecord.encoding, hflag]
      simp only
      rw [List.length_append, List.length_take, h64, hdata, hlen]
      unfold clogInsertRecordNoPtrSize
      omega
    · rw [hlen]
      unfold clogRecordHeaderSize
      omega
    · rw [h64]
      decide
  · have hsize : r.toRecord.clogRecordLen = r.clogFlag.objectSize := by
      rw [hlen, hother hf]
      rfl
    refine ⟨?_, ?_, fun h => absurd (hflag.symm.trans h) hf⟩
    · rw [hsize, ← hobject, CLogRecord.encoding]
      split
      · rename_i h
        exact absurd (hflag.symm.trans h) hf
      · rfl
    · rw [hsize]
      cases r.clogFlag <;> decide

theorem len_of_header {o : Memory} {type len : Int}
    (hlow : ∀ x, 20 ≤ x → x < 24 → r.object x = setHeader o lsn txnId type len x)
    (hlen : InInt32 len) : r.clogRecordLen = len := by
  rw [clogRecordLen, getInt_congr fun k hk => hlow (20 + k) (by omega) (by omega), len_setHeader hlen]

theorem insertLen_bounds (hdata : dataLen + 63 < 2 ^ 31) :
    clogInsertRecordNoPtrSize ≤ insertLen dataLen ∧ insertLen dataLen < 2 ^ 31 := by
  unfold insertLen align8 clogInsertRecordNoPtrSize
  split <;> omega

theorem len_newInsert {rid : RecordId} {recData : Memory} (hdata : dataLen + 63 < 2 ^ 31) :
    (newInsert h lsn txnId tableName dataLen rid recData).clogRecordLen = insertLen dataLen := by
  obtain ⟨-, hlt⟩ := insertLen_bounds hdata
  exact len_of_header (fun x _ hx => setInt_of_lt (by omega)) ⟨by omega, by omega⟩

theorem make_encoded (hdata : dataLen + 63 < 2 ^ 31)
    (hmake : make h flag lsn txnId tableName dataLen rec = some r) : r.toRecord.Encoded := by
  cases flag with
  | redoMiniTxnBegin =>
    cases hmake
    have hlen : (newMiniTxn h .redoMiniTxnBegin lsn txnId).clogRecordLen = 24 :=
      len_of_header (fun _ _ _ => rfl) (by decide)
    exact encoded_of_len nofun fun _ => hlen
  | redoMiniTxnCommit =>
    cases hmake
    have hlen : (newMiniTxn h .redoMiniTxnCommit lsn txnId).clogRecordLen = 24 :=
      len_of_header (fun _ _ _ => rfl) (by decide)
    exact encoded_of_len nofun fun _ => hlen
  | redoInsert =>
    rcases rec with - | ⟨rid, - | recData⟩
    · cases hmake
    · cases hmake
    · cases hmake
      refine encoded_of_len (fun _ => ?_) fun hne => absurd rfl hne
      rw [len_newInsert hdata]
      exact_mod_cast (insertLen_bounds hdata).1
  | redoDelete =>
    rcases rec with - | ⟨rid, recData⟩
    · cases hmake
    · cases hmake
      have hlen : (newDelete h lsn txnId tableName rid).clogRecordLen = 56 :=
        len_of_header (fun _ _ _ => rfl) (by decide)
      exact encoded_of_len nofun fun _ => hlen
  | redoError => cases hmake
  | redoUpdate => cases hmake

end Made

end CLogRecordObject

/-! ## The pieces of `AppendCLogRecord` -/

namespace CLogBuffer

/-- The lengths of the pieces that the activations of `AppendCLogRecord` copy. -/
def appendPieces : Nat → CLogBuffer → CLogRecord → Nat → List Nat
  | 0, _, _, _ => []
  | fuel + 1, b, r, offset =>
    match b.appendStep r offset with
    | (some _, _, offset') => [offset' - offset]
    | (none, b, offset') => (offset' - offset) :: appendPieces fuel b r offset'

variable {b b' : CLogBuffer} {r : CLogRecord} {offset offset' : Nat} {fuel : Nat}

theorem appendStep_offset (h : offset ≤ r.clogRecordLen) :
    offset ≤ (b.appendStep r offset).2.2 ∧ (b.appendStep r offset).2.2 ≤ r.clogRecordLen ∧
      ((b.appendStep r offset).1 = some .success → (b.appendStep r offset).2.2 = r.clogRecordLen) := by
  unfold appendStep
  split
  · exact ⟨le_refl _, h, nofun⟩
  · simp only
    split
    · exact ⟨le_refl _, h, nofun⟩
    · split
      · simp only
        exact ⟨by omega, by omega, fun _ => by omega⟩
      · simp only
        exact ⟨by omega, by omega, nofun⟩

/-- The pieces of a record that was appended to its end are a cut of what was left of it. -/
theorem sum_appendPieces (h : offset ≤ r.clogRecordLen)
    (happ : appendLoop fuel b r offset = some (.success, b', offset')) :
    offset + (appendPieces fuel b r offset).sum = r.clogRecordLen := by
  induction fuel generalizing b offset with
  | zero => cases happ
  | succ fuel ih =>
    obtain ⟨hle, hlen, hend⟩ := appendStep_offset (b := b) h
    rw [appendLoop] at happ
    rw [appendPieces]
    rcases hstep : b.appendStep r offset with ⟨- | re, b1, offset1⟩
    · rw [hstep] at hle hlen happ
      have hrest := ih hlen happ
      simp only at hle hrest ⊢
      rw [List.sum_cons]
      omega
    · rw [hstep] at hle hend happ
      cases happ
      have hoff : offset' = r.clogRecordLen := hend rfl
      simp only [List.sum_cons, List.sum_nil] at hle ⊢
      omega

end CLogBuffer

namespace CLogRecord

/-- Cut in any way, a record is copied as it is in one piece, and so it is as `AppendCLogRecord` cuts it;
what reaches behind its end is refused. -/
theorem copyRecordTo_pieces {r : CLogRecord} (h : r.Encoded) :
    (∀ lens : List Nat, lens.sum = r.clogRecordLen → (∀ c ∈ r.copyPieces 0 lens, c.1 = .success) ∧
      r.copyRecordTo 0 r.clogRecordLen = (.success, (r.copyPieces 0 lens).flatMap Prod.snd)) ∧
    (∀ (fuel : Nat) (b b' : CLogBuffer) (offset : Nat),
      CLogBuffer.appendLoop fuel b r 0 = some (.success, b', offset) →
      (r.copyPieces 0 (CLogBuffer.appendPieces fuel b r 0)).flatMap Prod.snd = (r.copyRecordTo 0 r.clogRecordLen).2) ∧
    ∀ startOff copyLen, r.clogRecordLen < startOff + copyLen →
      r.copyRecordTo startOff copyLen = (.genericError, []) := by
  have hcut : ∀ lens : List Nat, lens.sum = r.clogRecordLen → (∀ c ∈ r.copyPieces 0 lens, c.1 = .success) ∧
      r.copyRecordTo 0 r.clogRecordLen = (.success, (r.copyPieces 0 lens).flatMap Prod.snd) := by
    intro lens hsum
    have hle : 0 + lens.sum ≤ r.clogRecordLen := by omega
    obtain ⟨hsuccess, hbytes⟩ := copyPieces_spec h hle
    refine ⟨hsuccess, ?_⟩
    rw [copyRecordTo_spec h (by omega), hbytes, hsum]
  refine ⟨hcut, fun fuel b b' offset happ => ?_, fun startOff copyLen hlong => ?_⟩
  · have hsum := CLogBuffer.sum_appendPieces (Nat.zero_le _) happ
    rw [Nat.zero_add] at hsum
    rw [(hcut _ hsum).2]
  · rw [copyRecordTo, if_pos hlong]

/-- An insert record with 8 bytes of data, cut before and behind the border of its data. -/
theorem copyRecordTo_pieces_insert : ∃ r, CLogRecordObject.make ⟨0, fun _ => 0, fun _ => 0, 0⟩ .redoInsert 0 1
    (fun i => ([116] : List UInt8).getD i 0) 8 (some (⟨1, 3⟩, some fun _ => 2)) = some r ∧
      r.toRecord.clogRecordLen = 64 ∧
      r.toRecord.copyRecordTo 0 64 = (.success, (r.toRecord.copyPieces 0 [50, 10, 4]).flatMap Prod.snd) := by
  obtain ⟨r, hr⟩ : ∃ r, CLogRecordObject.newInsert ⟨0, fun _ => 0, fun _ => 0, 0⟩ 0 1
    (fun i => ([116] : List UInt8).getD i 0) 8 ⟨1, 3⟩ (fun _ => 2) = r := ⟨_, rfl⟩
  have hmake : CLogRecordObject.make ⟨0, fun _ => 0, fun _ => 0, 0⟩ .redoInsert 0 1
      (fun i => ([116] : List UInt8).getD i 0) 8 (some (⟨1, 3⟩, some fun _ => 2)) = some r := congrArg some hr
  have hlen : r.toRecord.clogRecordLen = 64 := by
    rw [CLogRecordObject.toRecord, ← hr, CLogRecordObject.len_newInsert (by decide)]
    decide
  have hpieces := (copyRecordTo_pieces (CLogRecordObject.make_encoded (by decide) hmake)).1 [50, 10, 4] (by rw [hlen]; rfl)
  rw [hlen] at hpieces
  exact ⟨r, hmake, hlen, hpieces.2⟩

end CLogRecord

end Idmbs
