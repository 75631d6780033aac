import Idmbs.Storage.PageRuns

/-!
# Idmbs.Storage.PageRedo

`RecordPageHandler::RecoverInsertRecord` (storage/record.cpp), the redo of a logged insert: when it leaves
a page right, and what it does to a page that has the record already.
-/

namespace Idmbs

open Bytes

namespace PageBytes

open BitMap

/-- `RecoverInsertRecord`. Neither test asks whether the slot is in use. -/
def recoverInsertRecord (m : Memory) (slot : Nat) (data : Memory) : Re × Memory :=
  if recordNum m = recordCapacity m then (.recordNoMem, m)
  else if recordCapacity m ≤ slot then (.recordNoMem, m)
  else
    let m := setBit m slot
    let m := setInt m 0 4 (recordNum m + 1)
    (.success, setRecordData m slot data)

variable {recordSize c slot : Nat} {m m' data : Memory} {stored : Nat → Option (List UInt8)}

/-- `m'` is the page `m` with the record in its slot: the slot is live with the data, the live slots are
counted, and the other slots are as before. -/
structure Redone (recordSize c : Nat) (m : Memory) (slot : Nat) (data m' : Memory) : Prop where
  live : getBit m' slot = true
  bytes : read m' (slotOffset recordSize c slot) recordSize = read data 0 recordSize
  counted : recordNum m' = (bitsFrom (getBit m') c 0).length
  others : ∀ i < c, i ≠ slot → getBit m' i = getBit m i ∧
    read m' (slotOffset recordSize c i) recordSize = read m (slotOffset recordSize c i) recordSize

theorem getInt_lt {a : Nat} : getInt m a 4 < 2 ^ 31 := by
  rw [getInt]
  exact lt_of_lt_of_le (Int.bmod_lt (by decide)) (by decide)

/-- The number of records is a 32-bit integer, so one more is another number. -/
theorem recordNum_succ_ne : recordNum (setInt m 0 4 (recordNum m + 1)) ≠ recordNum m := by
  obtain ⟨n, hn⟩ : ∃ n, recordNum m = n := ⟨_, rfl⟩
  have hlow : -2 ^ 31 ≤ n := by
    rw [← hn, recordNum, getInt]
    exact le_trans (by decide) (Int.le_bmod (by decide))
  have hhigh : n < 2 ^ 31 := hn ▸ getInt_lt
  rw [hn, recordNum, getInt_setInt]
  rcases Int.lt_or_le (n + 1) (2 ^ 31) with hlt | hge
  · rw [Int.bmod_eq_of_le_mul_two (by norm_num; omega) (by norm_num; omega)]
    omega
  · have hmax : n = 2 ^ 31 - 1 := by omega
    rw [hmax]
    decide

/-- When the call succeeds: one bit is set, one record more is counted, and the data is in the slot. -/
theorem Holds.recovered (h : Holds recordSize c m stored) (hs : slot < c) (hnum : recordNum m ≠ c) (data : Memory) :
    recoverInsertRecord m slot data = (.success, write (setInt (setBit m slot) 0 4 (recordNum m + 1))
      (slotOffset recordSize c slot) (read data 0 recordSize)) := by
  have ht : Touches recordSize c slot m (setInt (setBit m slot) 0 4 (recordNum m + 1)) :=
    touches_setBit.trans (touches_setInt _)
  rw [recoverInsertRecord, if_neg (by rwa [h.capacity]), if_neg (by rw [h.capacity]; omega)]
  simp only [recordNum_setBit, h.setRecordData hs ht]

/-- A page with the fields of `m` refuses the record or counts one more. -/
theorem Holds.redo_again (h : Holds recordSize c m stored) (hs : slot < c) (ht : Touches recordSize c slot m m')
    (data : Memory) : recoverInsertRecord m' slot data ≠ (.success, m') := by
  have hcap : recordCapacity m' = c := (ht.field hs (by decide) (by decide)).trans h.capacity
  intro heq
  by_cases hnum : recordNum m' = recordCapacity m'
  · rw [recoverInsertRecord, if_pos hnum] at heq
    cases heq
  · rw [recoverInsertRecord, if_neg hnum, if_neg (by rw [hcap]; omega)] at heq
    simp only [recordNum_setBit] at heq
    have ht' : Touches recordSize c slot m (setInt (setBit m' slot) 0 4 (recordNum m' + 1)) :=
      ht.trans (touches_setBit.trans (touches_setInt _))
    rw [h.setRecordData hs ht'] at heq
    have hcount := congrArg recordNum (Prod.mk.inj heq).2
    have hsame : recordNum (setBit m' slot) = recordNum m' := recordNum_setBit
    rw [recordNum_write, ← hsame] at hcount
    exact recordNum_succ_ne hcount

theorem Holds.redone_iff (h : Holds recordSize c m stored) (hs : slot < c) (data : Memory) :
    Redone recordSize c m slot data (recoverInsertRecord m slot data).2 ↔
      getBit m slot = false ∨
        recordNum m = c ∧ read m (slotOffset recordSize c slot) recordSize = read data 0 recordSize := by
  by_cases hnum : recordNum m = c
  · -- a full page is left as it was
    have hsame : (recoverInsertRecord m slot data).2 = m := by
      rw [recoverInsertRecord, if_pos (by rw [h.capacity, hnum])]
    have hlive : getBit m slot = true := by
      rw [h.num, Int.ofNat_inj, length_bitsFrom_eq_iff] at hnum
      exact hnum slot hs
    rw [hsame]
    constructor
    · intro hredone
      exact .inr ⟨hnum, hredone.bytes⟩
    · intro hcond
      rcases hcond with hfree | ⟨-, hbytes⟩
      · rw [hlive] at hfree
        cases hfree
      · exact ⟨hlive, hbytes, h.num, fun _ _ _ => ⟨rfl, rfl⟩⟩
  · obtain ⟨m', hm'⟩ : ∃ m', write (setInt (setBit m slot) 0 4 (recordNum m + 1)) (slotOffset recordSize c slot)
        (read data 0 recordSize) = m' := ⟨_, rfl⟩
    have hresult : (recoverInsertRecord m slot data).2 = m' := by rw [h.recovered hs hnum, hm']
    have ht : Touches recordSize c slot m m' := by
      rw [← hm']
      exact (touches_setBit.trans (touches_setInt _)).trans (touches_write data)
    have hbits : ∀ i < c, getBit m' i = Function.update (getBit m) slot true i := by
      intro i hi
      rw [← hm', getBit_write hi, getBit_setInt, getBit_setBit]
    have hle := h.num_le
    have hlt : c < 2 ^ 31 := by
      have hhigh : recordCapacity m < 2 ^ 31 := getInt_lt
      rw [h.capacity] at hhigh
      omega
    have hcount : recordNum m' = recordNum m + 1 := by
      rw [← hm', recordNum_write, recordNum_setInt (by omega) (by omega)]
    have hlist : (bitsFrom (getBit m') c 0).length = (bitsFrom (Function.update (getBit m) slot true) c 0).length :=
      congrArg List.length (bitsFrom_congr fun i _ hi => hbits i hi)
    rw [hresult]
    cases hbit : getBit m slot with
    | false =>
      refine iff_of_true ⟨?_, ?_, ?_, fun i hi hne => ⟨ht.bits i hi hne, ?_⟩⟩ (.inl rfl)
      · rw [hbits slot hs, Function.update_self]
      · rw [← hm']
        exact read_write_slot
      · rw [hcount, hlist, length_bitsFrom_set hs hbit, h.num]
        push_cast
        rfl
      · rw [← take_read (le_align8 recordSize), ht.record hs hne, take_read (le_align8 recordSize)]
    | true =>
      refine iff_of_false (fun hredone => ?_) (fun hcond => ?_)
      · -- the slot was counted before
        have hcounted := hredone.counted
        rw [hlist, ← hbit, Function.update_eq_self, hcount, h.num] at hcounted
        omega
      · rcases hcond with hfree | ⟨hfull, -⟩
        · cases hfree
        · exact hnum hfull

/-- The first redo is right for a slot that is free, and for a full page that has the data; the second one
never leaves the page and succeeds. -/
theorem redo_iff (recordSize c : Nat) (m : Memory) (stored : Nat → Option (List UInt8))
    (h : Holds recordSize c m stored) (slot : Nat) (hs : slot < c) (data : Memory) :
    (Redone recordSize c m slot data (recoverInsertRecord m slot data).2 ↔ getBit m slot = false ∨
      recordNum m = c ∧ read m (slotOffset recordSize c slot) recordSize = read data 0 recordSize) ∧
    recoverInsertRecord (recoverInsertRecord m slot data).2 slot data ≠
      (.success, (recoverInsertRecord m slot data).2) := by
  refine ⟨h.redone_iff hs data, ?_⟩
  have ht : Touches recordSize c slot m (recoverInsertRecord m slot data).2 := by
    by_cases hnum : recordNum m = c
    · rw [recoverInsertRecord, if_pos (by rw [h.capacity, hnum])]
      exact ⟨fun _ _ _ _ => rfl, fun _ _ _ => rfl⟩
    · rw [h.recovered hs hnum]
      exact (touches_setBit.trans (touches_setInt _)).trans (touches_write data)
  exact h.redo_again hs ht data

/-- The first record of a new page is redone twice. -/
theorem not_redo_twice : ¬∀ (recordSize c : Nat) (m : Memory) (stored : Nat → Option (List UInt8)),
    Holds recordSize c m stored → ∀ slot < c, ∀ data : Memory,
      Redone recordSize c m slot data (recoverInsertRecord m slot data).2 ∧
        recoverInsertRecord (recoverInsertRecord m slot data).2 slot data =
          (.success, (recoverInsertRecord m slot data).2) := by
  intro hall
  have hholds := holds_initEmptyPage 8 fun _ => 0
  have hslot : 0 < capacityOf 16380 8 := by decide
  have hne : recordNum (initEmptyPage 16380 8 fun _ => 0) ≠ (capacityOf 16380 8 : Nat) := by
    rw [hholds.num, bitsFrom_eq_nil fun i hi => by rw [hholds.bits i hi]; rfl]
    decide
  obtain ⟨-, hagain⟩ := hall 8 _ _ _ hholds 0 hslot fun _ => 1
  rw [hholds.recovered hslot hne] at hagain
  exact hholds.redo_again hslot ((touches_setBit.trans (touches_setInt _)).trans (touches_write _)) _ hagain

theorem redo_iff_first :
    (Redone 8 (capacityOf 16380 8) (initEmptyPage 16380 8 fun _ => 0) 0 (fun _ => 1)
        (recoverInsertRecord (initEmptyPage 16380 8 fun _ => 0) 0 fun _ => 1).2 ↔
      getBit (initEmptyPage 16380 8 fun _ => 0) 0 = false ∨
        recordNum (initEmptyPage 16380 8 fun _ => 0) = capacityOf 16380 8 ∧
          read (initEmptyPage 16380 8 fun _ => 0) (slotOffset 8 (capacityOf 16380 8) 0) 8 = read (fun _ => 1) 0 8) ∧
    recoverInsertRecord (recoverInsertRecord (initEmptyPage 16380 8 fun _ => 0) 0 fun _ => 1).2 0 (fun _ => 1) ≠
      (.success, (recoverInsertRecord (initEmptyPage 16380 8 fun _ => 0) 0 fun _ => 1).2) :=
  redo_iff 8 (capacityOf 16380 8) _ _ (holds_initEmptyPage 8 fun _ => 0) 0 (by decide) fun _ => 1

end PageBytes

end Idmbs
