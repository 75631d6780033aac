import Idmbs.CLog.Stream

/-!
# Idmbs.CLog.FirstRecord

What `first_record_offset` of a block header says about the records of the log: `AppendCLogRecord`
(storage/clog_manager.cpp) sets it when the first bytes come to a block.
-/

namespace Idmbs

open Bytes

/-- The records of the lengths `lens`, each with the position it starts at and its length. -/
def recordSpans : Nat → List Nat → List (Nat × Nat)
  | _, [] => []
  | pos, len :: lens => (pos, len) :: recordSpans (pos + len) lens

/-- The record starts among the 504 bytes from position `pos` on. -/
def StartsIn (pos : Nat) (x : Nat × Nat) : Prop := pos ≤ x.1 ∧ x.1 < pos + clogBlockDataSize

instance (pos : Nat) (x : Nat × Nat) : Decidable (StartsIn pos x) := inferInstanceAs (Decidable (_ ∧ _))

/-- The offset in the block at position `pos` where the first record starts, or the size of a block. -/
def firstStart (spans : List (Nat × Nat)) (pos : Nat) : Nat :=
  match spans.find? (fun x => StartsIn pos x) with
  | some x => clogBlockHeaderSize + (x.1 - pos)
  | none => clogBlockSize

/-- A record that is longer than the payload of a block starts with the block. -/
def LongAtBorder (spans : List (Nat × Nat)) (pos : Nat) : Prop :=
  ∃ len, (pos, len) ∈ spans ∧ clogBlockDataSize < len

/-- The last record of the log began before the block and ends inside it. -/
def EndsInside (spans : List (Nat × Nat)) (total pos : Nat) : Prop :=
  (∀ x ∈ spans, x.1 < pos) ∧ total < pos + clogBlockDataSize

section Spans

variable {lens : List Nat} {base len pos : Nat}

theorem le_of_mem_recordSpans : ∀ {lens : List Nat} {base : Nat}, ∀ x ∈ recordSpans base lens, base ≤ x.1 := by
  intro lens
  induction lens with
  | nil => nofun
  | cons len lens ih =>
    intro base x hx
    rcases List.mem_cons.mp hx with rfl | hx
    · exact le_rfl
    · exact (Nat.le_add_right base len).trans (ih x hx)

/-- A record that is over before the block plays no part. -/
theorem firstStart_cons_of_lt (h : base < pos) :
    firstStart (recordSpans base (len :: lens)) pos = firstStart (recordSpans (base + len) lens) pos := by
  have hnot : ¬StartsIn pos (base, len) := fun hs => absurd hs.1 (Nat.not_le.mpr h)
  rw [firstStart, recordSpans, List.find?_cons_of_neg (by simpa using hnot), ← firstStart]

theorem firstStart_border :
    firstStart (recordSpans pos (len :: lens)) pos = 8 := by
  have hin : StartsIn pos (pos, len) := ⟨le_rfl, Nat.lt_add_of_pos_right (by decide)⟩
  rw [firstStart, recordSpans, List.find?_cons_of_pos (by simpa using hin)]
  simp only [Nat.sub_self]
  rfl

theorem firstStart_of_ge (h : pos + 504 ≤ base) : firstStart (recordSpans base lens) pos = 512 := by
  have hnone : (recordSpans base lens).find? (fun x => StartsIn pos x) = none := by
    refine List.find?_eq_none.mpr fun x hx => ?_
    have hle := le_of_mem_recordSpans x hx
    have hnot : ¬StartsIn pos x := fun hs => absurd hs.2 (Nat.not_lt.mpr (h.trans hle))
    simpa using hnot
  rw [firstStart, hnone]
  rfl

theorem firstStart_cons_of_ge (h : pos ≤ base) (hlt : base < pos + 504) :
    firstStart (recordSpans base (len :: lens)) pos = 8 + (base - pos) := by
  have hin : StartsIn pos (base, len) := ⟨h, hlt⟩
  rw [firstStart, recordSpans, List.find?_cons_of_pos (by simpa using hin)]
  rfl

/-- The block begins inside the first record. -/
theorem firstOffset_iff_inside (hlt : base < pos) (hin : pos < base + len) :
    firstOffset (pos - base) len = firstStart (recordSpans base (len :: lens)) pos ↔
      ¬EndsInside (recordSpans base (len :: lens)) (base + (len :: lens).sum) pos := by
  rw [firstStart_cons_of_lt hlt, firstOffset, if_neg (c := pos - base = 0) (by omega), List.sum_cons]
  by_cases hfit : base + len < pos + 504
  · rw [if_pos (by omega)]
    cases lens with
    | nil =>
      have hnone : firstStart (recordSpans (base + len) []) pos = 512 := rfl
      have hends : EndsInside (recordSpans base [len]) (base + (len + [].sum)) pos := by
        refine ⟨fun x hx => ?_, hfit⟩
        obtain rfl := List.mem_singleton.mp hx
        exact hlt
      rw [hnone]
      exact iff_of_false (by omega) (not_not.mpr hends)
    | cons len' lens =>
      rw [firstStart_cons_of_ge hin.le hfit]
      refine iff_of_true (by omega) fun hends => ?_
      have hmem : (base + len, len') ∈ recordSpans base (len :: len' :: lens) := by
        simp [recordSpans]
      exact absurd (hends.1 _ hmem) (Nat.not_lt.mpr hin.le)
  · rw [firstStart_of_ge (Nat.not_lt.mp hfit)]
    refine iff_of_true ?_ fun hends => ?_
    · split <;> omega
    · have := hends.2
      rw [clogBlockDataSize] at this
      omega

/-- The block begins with the first record. -/
theorem firstOffset_iff_border :
    firstOffset 0 len = firstStart (recordSpans pos (len :: lens)) pos ↔ len ≤ 504 := by
  rw [firstStart_border, firstOffset, if_pos rfl, Nat.sub_zero]
  split
  · simp [*]
  · simp [*]

/-- Which blocks have the offset of the first record in their header. -/
theorem firstAt_eq_iff : ∀ {lens : List Nat} {base pos : Nat}, (∀ len ∈ lens, 0 < len) → base ≤ pos →
    pos < base + lens.sum → (firstAt lens (pos - base) = firstStart (recordSpans base lens) pos ↔
      ¬LongAtBorder (recordSpans base lens) pos ∧
        ¬EndsInside (recordSpans base lens) (base + lens.sum) pos) := by
  intro lens
  induction lens with
  | nil =>
    intro base pos _ hle hlt
    exact absurd hlt (Nat.not_lt.mpr hle)
  | cons len lens ih =>
    intro base pos hpos hle hlt
    have hlen := hpos len (List.mem_cons_self ..)
    have hlater : ∀ x ∈ recordSpans (base + len) lens, base + len ≤ x.1 := le_of_mem_recordSpans
    rw [firstAt]
    by_cases hin : pos < base + len
    · rw [if_pos (by omega)]
      rcases Nat.eq_or_lt_of_le hle with rfl | hbefore
      · rw [Nat.sub_self, firstOffset_iff_border]
        have hlong : LongAtBorder (recordSpans base (len :: lens)) base ↔ 504 < len := by
          refine ⟨?_, fun h => ⟨len, List.mem_cons_self .., h⟩⟩
          rintro ⟨len', hmem, h⟩
          rcases List.mem_cons.mp hmem with heq | hmem
          · obtain rfl := (Prod.mk.inj heq).2
            exact h
          · exact absurd (hlater _ hmem) (Nat.not_le.mpr (Nat.lt_add_of_pos_right hlen))
        have hends : ¬EndsInside (recordSpans base (len :: lens)) (base + (len :: lens).sum) base :=
          fun h => absurd (h.1 (base, len) (List.mem_cons_self ..)) (lt_irrefl base)
        rw [hlong, Nat.not_lt]
        exact (and_iff_left hends).symm
      · have hlong : ¬LongAtBorder (recordSpans base (len :: lens)) pos := by
          rintro ⟨len', hmem, -⟩
          rcases List.mem_cons.mp hmem with heq | hmem
          · exact hbefore.ne' (Prod.mk.inj heq).1
          · exact absurd (hlater _ hmem) (Nat.not_le.mpr hin)
        rw [firstOffset_iff_inside hbefore hin]
        exact (and_iff_right hlong).symm
    · have hbefore : base < pos := by omega
      have hskip : ∀ x, x ∈ recordSpans base (len :: lens) ↔ x = (base, len) ∨ x ∈ recordSpans (base + len) lens :=
        fun x => List.mem_cons
      have hlong : LongAtBorder (recordSpans base (len :: lens)) pos ↔
          LongAtBorder (recordSpans (base + len) lens) pos := by
        constructor
        · rintro ⟨len', hmem, h⟩
          rcases (hskip _).mp hmem with heq | hmem
          · exact absurd (Prod.mk.inj heq).1 hbefore.ne'
          · exact ⟨len', hmem, h⟩
        · rintro ⟨len', hmem, h⟩
          exact ⟨len', (hskip _).mpr (.inr hmem), h⟩
      have hends : EndsInside (recordSpans base (len :: lens)) (base + (len :: lens).sum) pos ↔
          EndsInside (recordSpans (base + len) lens) (base + len + lens.sum) pos := by
        rw [List.sum_cons, ← Nat.add_assoc]
        refine and_congr_left fun _ => ⟨fun h x hx => h x ((hskip x).mpr (.inr hx)), fun h x hx => ?_⟩
        rcases (hskip x).mp hx with rfl | hx
        · exact hbefore
        · exact h x hx
      rw [List.sum_cons] at hlt
      rw [if_neg (by omega), firstStart_cons_of_lt hbefore, hlong, hends, Nat.sub_sub]
      exact ih (fun x hx => hpos x (List.mem_cons_of_mem _ hx)) (by omega) (by omega)

end Spans

namespace CLogManager

variable {rs : List CLogRecord}

theorem firstRecordOffset_logBlocks (hrs : ∀ r ∈ rs, r.Encoded ∧ r.clogRecordLen ≤ clogBufferCapacity)
    (hbound : (rs.flatMap CLogRecord.encoding).length ≤ 504 * (2 ^ 22 - 1)) :
    ∃ s, new.appendRecords rs = some s ∧ ∀ (i : Nat) (c : CLogBlock), s.logBlocks[i]? = some c →
      504 * i < (rs.flatMap CLogRecord.encoding).length ∧
        c.firstRecordOffset = firstAt (rs.map CLogRecord.clogRecordLen) (504 * i) := by
  have hmarks : MarksAll (fun i => firstAt (rs.map CLogRecord.clogRecordLen) (504 * i)) 0
      (rs.map CLogRecord.clogRecordLen) := firstAt_marks _ fun i _ => rfl
  obtain ⟨s, base, k, hrun, h, hnonempty⟩ := Logged.new.appendRecords hrs hmarks (by simpa using hbound)
  rw [List.nil_append] at h hnonempty
  obtain ⟨block, hblocks, hspec⟩ := h.exists_blocks
  refine ⟨s, hrun, fun i c hc => ?_⟩
  rw [hblocks, List.getElem?_map] at hc
  obtain ⟨j, hj, rfl⟩ := Option.map_eq_some_iff.mp hc
  obtain ⟨hi, rfl⟩ := List.getElem?_eq_some_iff.mp hj
  rw [List.length_range] at hi
  rw [List.getElem_range]
  have hlt : 504 * i < (rs.flatMap CLogRecord.encoding).length := by
    rcases hnonempty with ⟨rfl, rfl, rfl⟩ | hlast
    · exact absurd hi (Nat.not_lt_zero i)
    · omega
  refine ⟨hlt, (hspec i hi).2.2.2 (List.ne_nil_of_length_pos ?_)⟩
  rw [length_piece]
  omega

/-- The header of a block has the offset of the first record that starts there, except when a record of more
than 504 bytes starts with the block, and in a last block that only holds the end of a record. -/
theorem firstRecordOffset_iff (rs : List CLogRecord)
    (hrs : ∀ r ∈ rs, r.Encoded ∧ r.clogRecordLen ≤ clogBufferCapacity)
    (hbound : (rs.flatMap CLogRecord.encoding).length ≤ 504 * (2 ^ 22 - 1)) :
    ∃ s, new.appendRecords rs = some s ∧ ∀ (i : Nat) (c : CLogBlock), s.logBlocks[i]? = some c →
      (c.firstRecordOffset = firstStart (recordSpans 0 (rs.map CLogRecord.clogRecordLen)) (504 * i) ↔
        ¬LongAtBorder (recordSpans 0 (rs.map CLogRecord.clogRecordLen)) (504 * i) ∧
          ¬EndsInside (recordSpans 0 (rs.map CLogRecord.clogRecordLen))
            (rs.flatMap CLogRecord.encoding).length (504 * i)) := by
  obtain ⟨s, hrun, hfield⟩ := firstRecordOffset_logBlocks hrs hbound
  refine ⟨s, hrun, fun i c hc => ?_⟩
  obtain ⟨hlt, hfirst⟩ := hfield i c hc
  have hsum := sum_clogRecordLen rs hrs
  have hpos : ∀ len ∈ rs.map CLogRecord.clogRecordLen, 0 < len := by
    intro len hlen
    obtain ⟨r, hr, rfl⟩ := List.mem_map.mp hlen
    exact lt_of_lt_of_le (by decide) (hrs r hr).1.header
  have hiff := firstAt_eq_iff hpos (Nat.zero_le (504 * i)) (by omega)
  rw [Nat.sub_zero, Nat.zero_add, hsum] at hiff
  rw [hfirst, Nat.cast_inj]
  exact hiff

/-- A log of one short record. -/
theorem firstRecordOffset_iff_short :
    ∃ s, new.appendRecords [deleteRecord 56] = some s ∧
      ∀ (i : Nat) (c : CLogBlock), s.logBlocks[i]? = some c →
        (c.firstRecordOffset = firstStart (recordSpans 0 ([deleteRecord 56].map CLogRecord.clogRecordLen))
            (504 * i) ↔
          ¬LongAtBorder (recordSpans 0 ([deleteRecord 56].map CLogRecord.clogRecordLen)) (504 * i) ∧
            ¬EndsInside (recordSpans 0 ([deleteRecord 56].map CLogRecord.clogRecordLen))
              ([deleteRecord 56].flatMap CLogRecord.encoding).length (504 * i)) :=
  firstRecordOffset_iff [deleteRecord 56] (by
    rintro r hr
    obtain rfl := List.mem_singleton.mp hr
    exact ⟨⟨by decide, by decide, nofun⟩, by decide⟩) (by decide)

/-- An insert record of 616 bytes. -/
def longInsertRecord : CLogRecord := ⟨.redoInsert, 616, List.replicate 56 0, List.replicate 560 0⟩

/-- The first record of the log is longer than a block. -/
theorem not_firstRecordOffset_long :
    ¬∀ rs : List CLogRecord, (∀ r ∈ rs, r.Encoded ∧ r.clogRecordLen ≤ clogBufferCapacity) →
      ∀ s, new.appendRecords rs = some s → ∀ (i : Nat) (c : CLogBlock), s.logBlocks[i]? = some c →
        c.firstRecordOffset = firstStart (recordSpans 0 (rs.map CLogRecord.clogRecordLen)) (504 * i) := by
  intro h
  have henc : longInsertRecord.encoding.length = 616 := by decide +kernel
  have hrs : ∀ r ∈ [longInsertRecord], r.Encoded ∧ r.clogRecordLen ≤ clogBufferCapacity := by
    rintro r hr
    obtain rfl := List.mem_singleton.mp hr
    exact ⟨⟨henc, by decide, fun _ => by decide⟩, by decide⟩
  have hall : ([longInsertRecord].flatMap CLogRecord.encoding).length = 616 := by
    rw [List.flatMap_singleton, henc]
  obtain ⟨s, hrun, hfield⟩ := firstRecordOffset_logBlocks hrs (by rw [hall]; decide)
  obtain ⟨s', hrun', hintact⟩ := (keepsStream_of_short _ hrs (by rw [hall]; decide)).1
  obtain rfl := Option.some.inj (hrun'.symm.trans hrun)
  -- the log has a block, or it would hold no bytes
  obtain ⟨c, hc⟩ : ∃ c, s'.logBlocks[0]? = some c := by
    rcases hblocks : s'.logBlocks with _ | ⟨c, cs⟩
    · have hbytes := hintact.bytes
      rw [hblocks, List.flatMap_nil] at hbytes
      rw [← hbytes] at hall
      cases hall
    · exact ⟨c, rfl⟩
  have h8 := h _ hrs _ hrun 0 c hc
  rw [(hfield 0 c hc).2] at h8
  exact absurd h8 (by decide)

end CLogManager

end Idmbs
