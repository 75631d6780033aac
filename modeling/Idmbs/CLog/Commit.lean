import Idmbs.CLog.Stream

/-!
# Idmbs.CLog.Commit

What `AppendRecord` (storage/clog_manager.cpp) answers, and what a commit leaves on file. Both are decided by
the room that is left in the buffer before the call.
-/

namespace Idmbs

open Bytes

/-- The bytes of records that still go into the buffer. -/
def CLogBuffer.room (b : CLogBuffer) : Nat :=
  clogBufferCapacity - if b.writeOffset = 0 then 0
    else b.writeBlockOffset / clogBlockSize * clogBlockDataSize +
      (b.writeOffset - b.writeBlockOffset - clogBlockHeaderSize)

/-- The blocks on file hold the bytes `stream`. -/
def CLogManager.OnFile (s : CLogManager) (stream : List UInt8) : Prop :=
  s.fileBlocks.flatMap CLogBlock.payload = stream

namespace Logged

variable {first : Nat → Nat} {L D : List UInt8} {base k n : Nat} {b : CLogBuffer} {f : PersistFile}
  {r : CLogRecord}

theorem room_eq (h : Logged first L base k b f) : b.room = 504 * (base + 8192) - L.length := by
  have hcur := h.cursor
  have hblk := h.block
  have hlow := h.lower
  have hup := h.upper
  have hcap : clogBufferCapacity = 504 * 8192 := rfl
  rcases Nat.eq_zero_or_pos k with rfl | hk
  · rw [if_pos rfl] at hcur
    rw [CLogBuffer.room, if_pos hcur, hcap]
    omega
  · rw [if_neg (by omega)] at hcur
    have hdiv : b.writeBlockOffset / clogBlockSize = k - 1 := by
      rw [hblk, clogBlockSize, Nat.mul_div_cancel_left _ (by decide)]
    rw [CLogBuffer.room, if_neg (by omega), hdiv, hcap, clogBlockDataSize, clogBlockHeaderSize]
    omega

theorem fileBlocks_eq (hsize : f.size = 512 * (n + 1)) :
    CLogManager.fileBlocks ⟨b, f⟩ = (List.range n).map fun i => .ofMemory f.bytes (512 * (i + 1)) := by
  have hn : (512 * (n + 1) - 512) / 512 = n := by omega
  simp only [CLogManager.fileBlocks, hsize, clogBlockSize, hn]

theorem payload_fileBlocks (hsize : f.size = 512 * (n + 1))
    (hfile : ∀ i < n, BlockIs first L f.bytes (512 * (i + 1)) i) :
    (CLogManager.fileBlocks ⟨b, f⟩).flatMap CLogBlock.payload = L.take (504 * n) := by
  rw [fileBlocks_eq hsize, List.flatMap_map, ← pieces_eq_take]
  refine List.flatMap_congr fun i hi => ?_
  exact (hfile i (List.mem_range.mp hi)).payload

theorem answered_iff {base' k' : Nat} {re : Re} {b' : CLogBuffer} {f' : PersistFile}
    (h : Logged first D base k b f) (henc : r.Encoded) (h' : Logged first (D ++ r.encoding) base' k' b' f')
    (ha : Answered first D r base base' k' re f') :
    (re = .success ↔ r.clogRecordLen ≤ b.room) ∧ (r.clogFlag = .redoMiniTxnCommit →
      (CLogManager.OnFile ⟨b', f'⟩ (D ++ r.encoding) ↔ r.clogRecordLen ≤ b.room)) := by
  have hlen : (D ++ r.encoding).length = D.length + r.clogRecordLen := by
    rw [List.length_append, henc.length]
  have hup := h.upper
  have hfits := h.fits
  rw [h.room_eq]
  rcases ha with ⟨rfl, hroom, hfile⟩ | ⟨rfl, hfull, hsize, hmore⟩
  · have hle : r.clogRecordLen ≤ 504 * (base + 8192) - D.length := by omega
    refine ⟨iff_of_true rfl hle, fun hcommit => iff_of_true ?_ hle⟩
    obtain ⟨-, hsize, hblocks⟩ := hfile.resolve_left fun hf => hf.1 hcommit
    rw [CLogManager.OnFile, payload_fileBlocks hsize hblocks, List.take_of_length_le h'.upper]
  · -- the flush came before the end of the record
    have hgt : ¬r.clogRecordLen ≤ 504 * (base + 8192) - D.length := by omega
    refine ⟨iff_of_false nofun hgt, fun _ => iff_of_false (fun hon => ?_) hgt⟩
    have hshort := congrArg List.length hon
    rw [payload_fileBlocks hsize h'.onFile, List.length_take, hlen] at hshort
    omega

/-- As long as there is room and no commit, nothing is flushed. -/
theorem appendRecords_unflushed : ∀ {rs : List CLogRecord} {D : List UInt8} {k : Nat} {b : CLogBuffer},
    Logged first D base k b f →
    (∀ r ∈ rs, r.Encoded ∧ r.clogRecordLen ≤ clogBufferCapacity ∧ r.clogFlag ≠ .redoMiniTxnCommit) →
    MarksAll first D.length (rs.map CLogRecord.clogRecordLen) →
    D.length + (rs.flatMap CLogRecord.encoding).length ≤ 504 * (2 ^ 22 - 1) →
    D.length + (rs.flatMap CLogRecord.encoding).length ≤ 504 * (base + 8192) →
    ∃ s k', CLogManager.appendRecords ⟨b, f⟩ rs = some s ∧
      Logged first (D ++ rs.flatMap CLogRecord.encoding) base k' s.clogBuffer s.clogFile := by
  intro rs
  induction rs generalizing f with
  | nil =>
    intro D k b h _ _ _ _
    exact ⟨⟨b, f⟩, k, rfl, by simpa using h⟩
  | cons r rs ih =>
    intro D k b h hrs hmarks hbound hroom
    obtain ⟨henc, hfits, hflag⟩ := hrs r (List.mem_cons_self ..)
    rw [List.flatMap_cons, List.length_append, henc.length] at hbound hroom
    have hlen : (D ++ r.encoding).length = D.length + r.clogRecordLen := by
      rw [List.length_append, henc.length]
    obtain ⟨⟨re, b1, f1, base1, k1, he, h1, -, ha⟩, -⟩ := h.appendRecord henc hfits hmarks.1 (by omega)
    obtain ⟨-, -, hkept⟩ := ha.resolve_right fun hf => absurd hf.2.1 (by omega)
    obtain ⟨-, rfl⟩ := hkept.resolve_right fun hc => hflag hc.1
    obtain ⟨s, k2, hrun, h2⟩ := ih h1 (fun r' hr' => hrs r' (List.mem_cons_of_mem _ hr'))
      (by rw [hlen]; exact hmarks.2) (by rw [hlen]; omega) (by rw [hlen]; omega)
    rw [List.flatMap_cons, ← List.append_assoc]
    exact ⟨s, k2, by simp [CLogManager.appendRecords, he, hrun], h2⟩

end Logged

namespace CLogManager

/-- Behind any sequence of appends a record is appended completely; `AppendRecord` says so, and a commit is on
file, exactly when the record fits in the room that was left. -/
theorem appendRecord_iff (rs : List CLogRecord) (r : CLogRecord)
    (hrs : ∀ r' ∈ r :: rs, r'.Encoded ∧ r'.clogRecordLen ≤ clogBufferCapacity)
    (hbound : ((rs ++ [r]).flatMap CLogRecord.encoding).length ≤ 504 * (2 ^ 22 - 1)) :
    ∃ s re s', new.appendRecords rs = some s ∧ s.appendRecord r = some (re, s') ∧
      s'.Intact ((rs ++ [r]).flatMap CLogRecord.encoding) ∧
      (re = .success ↔ r.clogRecordLen ≤ s.clogBuffer.room) ∧
      (r.clogFlag = .redoMiniTxnCommit →
        (s'.OnFile ((rs ++ [r]).flatMap CLogRecord.encoding) ↔ r.clogRecordLen ≤ s.clogBuffer.room)) := by
  obtain ⟨⟨henc, hfits⟩, hrs⟩ := List.forall_mem_cons.mp hrs
  have hmarks : MarksAll (fun i => firstAt ((rs ++ [r]).map CLogRecord.clogRecordLen) (504 * i)) 0
      ((rs ++ [r]).map CLogRecord.clogRecordLen) := firstAt_marks _ fun i _ => rfl
  rw [List.map_append, List.map_singleton] at hmarks
  obtain ⟨hmarks1, hmarks2, -⟩ := hmarks.append
  rw [Nat.zero_add, sum_clogRecordLen rs hrs] at hmarks2
  rw [List.flatMap_append, List.flatMap_singleton, List.length_append, henc.length] at hbound
  rw [List.flatMap_append, List.flatMap_singleton]
  obtain ⟨s, base, k, hrun, h, -⟩ := Logged.new.appendRecords hrs hmarks1 (by rw [List.length_nil]; omega)
  rw [List.nil_append] at h
  obtain ⟨⟨re, b', f', base', k', happ, h', -, ha⟩, -⟩ := h.appendRecord henc hfits hmarks2 hbound
  obtain ⟨hre, hcommit⟩ := h.answered_iff henc h' ha
  exact ⟨s, re, ⟨b', f'⟩, hrun, happ, h'.intact, hre, hcommit⟩

def commitRecord : CLogRecord := ⟨.redoMiniTxnCommit, 16, List.replicate 16 0, []⟩

theorem commitRecord_fits : commitRecord.Encoded ∧ commitRecord.clogRecordLen ≤ clogBufferCapacity :=
  ⟨⟨by decide, by decide, nofun⟩, by decide⟩

/-- The first record of a log is a commit. -/
theorem appendRecord_iff_first :
    ∃ s re s', new.appendRecords [] = some s ∧ s.appendRecord commitRecord = some (re, s') ∧
      s'.Intact (([] ++ [commitRecord]).flatMap CLogRecord.encoding) ∧
      (re = .success ↔ commitRecord.clogRecordLen ≤ s.clogBuffer.room) ∧
      (commitRecord.clogFlag = .redoMiniTxnCommit →
        (s'.OnFile (([] ++ [commitRecord]).flatMap CLogRecord.encoding) ↔
          commitRecord.clogRecordLen ≤ s.clogBuffer.room)) :=
  appendRecord_iff [] commitRecord (by
    rintro r hr
    obtain rfl := List.mem_singleton.mp hr
    exact commitRecord_fits) (by decide)

/-- An insert record that takes a block. -/
def blockInsertRecord : CLogRecord := ⟨.redoInsert, 504, List.replicate 56 0, List.replicate 448 0⟩

/-- A commit that finds the buffer full. -/
theorem not_appendRecord_full :
    ¬∀ (rs : List CLogRecord) (r : CLogRecord),
      (∀ r' ∈ r :: rs, r'.Encoded ∧ r'.clogRecordLen ≤ clogBufferCapacity) →
      ((rs ++ [r]).flatMap CLogRecord.encoding).length ≤ 504 * (2 ^ 22 - 1) →
      r.clogFlag = .redoMiniTxnCommit → ∀ s re s', new.appendRecords rs = some s →
        s.appendRecord r = some (re, s') →
          s'.OnFile ((rs ++ [r]).flatMap CLogRecord.encoding) ∧ re = .success := by
  intro hall
  have henc : blockInsertRecord.encoding.length = 504 := by decide +kernel
  have hrs : ∀ r ∈ List.replicate 8192 blockInsertRecord,
      r.Encoded ∧ r.clogRecordLen ≤ clogBufferCapacity ∧ r.clogFlag ≠ .redoMiniTxnCommit := by
    intro r hr
    obtain ⟨-, rfl⟩ := List.mem_replicate.mp hr
    exact ⟨⟨henc, by decide, fun _ => by decide⟩, by decide, nofun⟩
  have hlen : ((List.replicate 8192 blockInsertRecord).flatMap CLogRecord.encoding).length = 504 * 8192 := by
    rw [List.length_flatMap, List.map_replicate, List.sum_replicate, henc, Nat.nsmul_eq_mul, Nat.mul_comm]
  have hcommit : commitRecord.encoding.length = 16 := by decide
  have hmarks : MarksAll (fun i => firstAt ((List.replicate 8192 blockInsertRecord ++
      [commitRecord]).map CLogRecord.clogRecordLen) (504 * i)) 0
      ((List.replicate 8192 blockInsertRecord ++ [commitRecord]).map CLogRecord.clogRecordLen) :=
    firstAt_marks _ fun i _ => rfl
  rw [List.map_append] at hmarks
  obtain ⟨hmarks1, hmarks2, -⟩ := hmarks.append
  obtain ⟨s, k, hrun, h⟩ := Logged.new.appendRecords_unflushed hrs hmarks1
    (by rw [hlen]; decide) (by rw [hlen]; decide)
  rw [List.nil_append] at h
  rw [Nat.zero_add, sum_clogRecordLen _ fun r hr => ⟨(hrs r hr).1, (hrs r hr).2.1⟩] at hmarks2
  obtain ⟨⟨re, b', f', base', k', happ, -, -, ha⟩, -⟩ := h.appendRecord commitRecord_fits.1
    commitRecord_fits.2 hmarks2 (by rw [hlen]; decide)
  obtain ⟨-, rfl⟩ := hall _ commitRecord (by
    rintro r hr
    rcases List.mem_cons.mp hr with rfl | hr
    · exact commitRecord_fits
    · exact ⟨(hrs r hr).1, (hrs r hr).2.1⟩) (by
    rw [List.flatMap_append, List.flatMap_singleton, List.length_append, hlen, hcommit]
    decide) rfl s re ⟨b', f'⟩ hrun happ
  have hroom := (ha.resolve_right fun hf => by cases hf.1).2.1
  rw [hlen] at hroom
  exact absurd hroom (by decide)

end CLogManager

end Idmbs
