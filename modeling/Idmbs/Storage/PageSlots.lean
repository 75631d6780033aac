import Idmbs.Storage.PageRuns
import Idmbs.Storage.RecordSpace

/-!
# Idmbs.Storage.PageSlots

The slots of a page, over which the record file is modelled, and the bytes of the page: every call of
`RecordPageHandler` (storage/record.cpp) answers the same on both.
-/

namespace Idmbs

open Bytes BitMap

/-- What a call answers: the slot is that of the rid, the record the bytes it points to. -/
structure PageAnswer where
  re : Re
  slot : Option Nat
  record : Option (List UInt8)

/-- One call on the bytes of a page. -/
def PageBytes.call (recordSize : Nat) (m : Memory) : PageBytes.PageCall → PageAnswer × Memory
  | .insertRecord data =>
    (⟨(insertRecord m data).1, (insertRecord m data).2.1, none⟩, (insertRecord m data).2.2)
  | .updateRecord slot data => (⟨(updateRecord m slot data).1, none, none⟩, (updateRecord m slot data).2)
  | .deleteRecord slot => (⟨(deleteRecord m slot).1, none, none⟩, (deleteRecord m slot).2.2)
  | .getRecord slot =>
    (⟨(getRecord m slot).1, none, (getRecord m slot).2.map fun a => read m a recordSize⟩, m)

def PageBytes.answers (recordSize : Nat) : Memory → List PageBytes.PageCall → List PageAnswer
  | _, [] => []
  | m, c :: cs =>
    (PageBytes.call recordSize m c).1 :: PageBytes.answers recordSize (PageBytes.call recordSize m c).2 cs

/-- The same call on the slots of page `p`. -/
def RecordPageHandler.call (recordSize : Nat) (pool : RecordPool) (p : PageId) :
    PageBytes.PageCall → PageAnswer × RecordPool
  | .insertRecord data =>
    (⟨(insertRecord pool p (read data 0 recordSize)).1,
      (insertRecord pool p (read data 0 recordSize)).2.1.map Prod.snd, none⟩,
      (insertRecord pool p (read data 0 recordSize)).2.2)
  | .updateRecord slot data =>
    (⟨(updateRecord pool (p, slot) (read data 0 recordSize)).1, none, none⟩,
      (updateRecord pool (p, slot) (read data 0 recordSize)).2)
  | .deleteRecord slot =>
    (⟨(deleteRecord pool (p, slot)).1, none, none⟩, (deleteRecord pool (p, slot)).2)
  | .getRecord slot => (⟨(getRecord pool (p, slot)).1, none, (getRecord pool (p, slot)).2⟩, pool)

def RecordPageHandler.answers (recordSize : Nat) (p : PageId) : RecordPool → List PageBytes.PageCall → List PageAnswer
  | _, [] => []
  | pool, c :: cs =>
    (RecordPageHandler.call recordSize pool p c).1 ::
      RecordPageHandler.answers recordSize p (RecordPageHandler.call recordSize pool p c).2 cs

/-- The bytes of a page show its slots. -/
structure RecordPage.Shown (recordSize : Nat) (m : Memory) (g : RecordPage) : Prop where
  capacity : g.recordCapacity = PageBytes.capacityOf 16380 recordSize
  holds : PageBytes.Holds recordSize g.recordCapacity m g.get

/-- `NextUnsetBit` from the start finds the lowest bit that is not set. -/
theorem BitMap.nextUnsetBit_lowest {b : Nat → Bool} {size slot : Nat} (h : nextUnsetBit b size 0 = some slot) :
    b slot = false ∧ ∀ j < slot, b j = true := by
  rcases nextSetBit_cases (b := fun i => !b i) size (k := 0) (.inl rfl) with
    ⟨hnone, -⟩ | ⟨r, hsome, -, hlt, hb, hcons⟩
  · rw [nextUnsetBit, hnone] at h
    cases h
  · rw [nextUnsetBit, hsome] at h
    cases h
    refine ⟨by simpa using hb, fun j hj => ?_⟩
    by_contra hclear
    have hmem : j ∈ bitsFrom (fun i => !b i) size 0 :=
      mem_bitsFrom.mpr ⟨Nat.zero_le j, Nat.lt_trans hj hlt, by simpa using hclear⟩
    rw [hcons] at hmem
    rcases List.mem_cons.mp hmem with rfl | hmem
    · exact Nat.lt_irrefl _ hj
    · have := (mem_bitsFrom.mp hmem).1
      omega

namespace RecordPage

variable {recordSize slot : Nat} {m data : Memory} {g : RecordPage} {s : RecordPool} {p : PageId}

theorem isSome_get (h : slot < g.recordCapacity) : (g.get slot).isSome = g.bits slot := by
  cases hb : g.bits slot <;> simp [get, h, hb]

theorem Shown.bit (h : g.Shown recordSize m) (hs : slot < g.recordCapacity) :
    PageBytes.getBit m slot = g.bits slot := by
  rw [h.holds.bits slot hs, isSome_get hs]

theorem Shown.capacity_lt (h : g.Shown recordSize m) : g.recordCapacity < 2 ^ 31 := by
  rw [h.capacity]
  exact (PageBytes.fields_fit recordSize).1

theorem Shown.le_iff (h : g.Shown recordSize m) : PageBytes.recordCapacity m ≤ slot ↔ g.recordCapacity ≤ slot := by
  rw [h.holds.capacity, Int.ofNat_le]

theorem Shown.full_iff (h : g.Shown recordSize m) :
    (∀ i < g.recordCapacity, PageBytes.getBit m i = true) ↔ g.isFull = true := by
  have hcounted := g.counted
  have hle := g.recordNum_le
  have hsame : bitsFrom (PageBytes.getBit m) g.recordCapacity 0 = bitsFrom g.bits g.recordCapacity 0 :=
    bitsFrom_congr fun i _ hi => h.bit hi
  rw [← length_bitsFrom_eq_iff, hsame, isFull, decide_eq_true_eq]
  omega

/-! ## One call -/

theorem Shown.insertRecord (h : (s.pageData p).Shown recordSize m) (data : Memory) : ∃ a m' s',
    PageBytes.call recordSize m (.insertRecord data) = (a, m') ∧
    RecordPageHandler.call recordSize s p (.insertRecord data) = (a, s') ∧ (s'.pageData p).Shown recordSize m' := by
  cases hfull : (s.pageData p).isFull with
  | true =>
    refine ⟨⟨.recordNoMem, none, none⟩, m, s, ?_, ?_, h⟩
    · rw [PageBytes.call, h.holds.insertRecord_full (h.full_iff.mpr hfull) data]
    · rw [RecordPageHandler.call, RecordPageHandler.insertRecord_full _ hfull]
      rfl
  | false =>
    obtain ⟨i, hi, hfree⟩ : ∃ i < (s.pageData p).recordCapacity, PageBytes.getBit m i = false := by
      by_contra hnone
      have hall : ∀ i < (s.pageData p).recordCapacity, PageBytes.getBit m i = true := by
        intro i hi
        by_contra hb
        exact hnone ⟨i, hi, eq_false_of_ne_true hb⟩
      rw [h.full_iff.mp hall] at hfull
      cases hfull
    obtain ⟨slot, m', heq, hslot, hclear, hlow, -, hholds⟩ :=
      h.holds.insertRecord_free h.capacity_lt hi hfree data
    obtain ⟨slot', hfind, hslot', hclear'⟩ := nextUnsetBit_spec hfull
    obtain ⟨-, hlow'⟩ := BitMap.nextUnsetBit_lowest hfind
    -- both are the lowest slot that is free
    have hsame : slot' = slot := by
      rcases Nat.lt_trichotomy slot' slot with hlt | heq | hlt
      · have := hlow slot' hlt
        rw [h.bit hslot', hclear'] at this
        cases this
      · exact heq
      · have := hlow' slot hlt
        rw [← h.bit hslot, hclear] at this
        cases this
    subst hsame
    have hroom : ¬(s.pageData p).recordNum = (s.pageData p).recordCapacity := by
      have : (s.pageData p).recordNum < (s.pageData p).recordCapacity := by simpa [isFull] using hfull
      omega
    obtain ⟨g, hg⟩ : ∃ g, ((s.pageData p).setBit slot' hslot' hclear').setRecordData slot' (read data 0 recordSize) =
        g := ⟨_, rfl⟩
    have hcall : RecordPageHandler.insertRecord s p (read data 0 recordSize) =
        (.success, some (p, slot'), (s.setData p g).dirtyMark p) := by
      simp only [RecordPageHandler.insertRecord, if_neg hroom, hfind, dif_pos (And.intro hslot' hclear'), hg]
    refine ⟨⟨.success, some slot', none⟩, m', (s.setData p g).dirtyMark p, ?_, ?_, ?_⟩
    · rw [PageBytes.call, heq]
    · rw [RecordPageHandler.call, hcall]
      rfl
    · have hdata : ((s.setData p g).dirtyMark p).pageData p = g := by simp [PagePool.setData]
      rw [hdata, ← hg]
      refine ⟨h.capacity, ?_⟩
      rw [get_setBit hslot' hclear']
      exact hholds

theorem Shown.updateRecord (h : (s.pageData p).Shown recordSize m) (slot : Nat) (data : Memory) : ∃ a m' s',
    PageBytes.call recordSize m (.updateRecord slot data) = (a, m') ∧
    RecordPageHandler.call recordSize s p (.updateRecord slot data) = (a, s') ∧
    (s'.pageData p).Shown recordSize m' := by
  by_cases hle : (s.pageData p).recordCapacity ≤ slot
  · refine ⟨⟨.invalidArgument, none, none⟩, m, s, ?_, ?_, h⟩
    · rw [PageBytes.call, PageBytes.updateRecord, if_pos (h.le_iff.mpr hle)]
    · simp only [RecordPageHandler.call, RecordPageHandler.updateRecord, if_pos hle]
  · have hlt := Nat.not_le.mp hle
    have hbit := h.bit hlt
    cases hb : (s.pageData p).bits slot with
    | false =>
      rw [hb] at hbit
      refine ⟨⟨.recordRecordNotExist, none, none⟩, m, s, ?_, ?_, h⟩
      · rw [PageBytes.call, PageBytes.updateRecord, if_neg (mt h.le_iff.mp hle), if_pos hbit]
      · simp only [RecordPageHandler.call, RecordPageHandler.updateRecord, if_neg hle, if_pos hb]
    | true =>
      rw [hb] at hbit
      obtain ⟨m', heq, -, hholds⟩ := h.holds.update_live hlt hbit data
      have hne : ¬(s.pageData p).bits slot = false := by simp [hb]
      obtain ⟨s', hcall, hdata⟩ : ∃ s',
          RecordPageHandler.updateRecord s (p, slot) (read data 0 recordSize) = (.success, s') ∧
          s'.pageData p = (s.pageData p).setRecordData slot (read data 0 recordSize) := by
        simp only [RecordPageHandler.updateRecord, if_neg hle, if_neg hne]
        exact ⟨_, rfl, by simp [PagePool.setData]⟩
      refine ⟨⟨.success, none, none⟩, m', s', ?_, ?_, ?_⟩
      · rw [PageBytes.call, heq]
      · rw [RecordPageHandler.call, hcall]
      · rw [hdata]
        refine ⟨h.capacity, ?_⟩
        rw [get_setRecordData hlt hb]
        exact hholds

theorem Shown.deleteRecord (h : (s.pageData p).Shown recordSize m) (slot : Nat) : ∃ a m' s',
    PageBytes.call recordSize m (.deleteRecord slot) = (a, m') ∧
    RecordPageHandler.call recordSize s p (.deleteRecord slot) = (a, s') ∧ (s'.pageData p).Shown recordSize m' := by
  by_cases hle : (s.pageData p).recordCapacity ≤ slot
  · refine ⟨⟨.invalidArgument, none, none⟩, m, s, ?_, ?_, h⟩
    · rw [PageBytes.call, PageBytes.deleteRecord, if_pos (h.le_iff.mpr hle)]
    · simp only [RecordPageHandler.call, RecordPageHandler.deleteRecord, dif_neg (Nat.not_lt.mpr hle)]
  · have hlt := Nat.not_le.mp hle
    have hbit := h.bit hlt
    cases hb : (s.pageData p).bits slot with
    | false =>
      rw [hb] at hbit
      have hne : ¬(s.pageData p).bits slot = true := by simp [hb]
      refine ⟨⟨.recordRecordNotExist, none, none⟩, m, s, ?_, ?_, h⟩
      · rw [PageBytes.call, PageBytes.deleteRecord, if_neg (mt h.le_iff.mp hle), if_neg (by simp [hbit])]
      · simp only [RecordPageHandler.call, RecordPageHandler.deleteRecord, dif_pos hlt, dif_neg hne]
    | true =>
      rw [hb] at hbit
      obtain ⟨m', heq, -, hholds⟩ := h.holds.delete_live h.capacity_lt hlt hbit
      have hshown : ((s.pageData p).clearBit slot hlt hb).Shown recordSize m' := by
        refine ⟨h.capacity, ?_⟩
        rw [get_clearBit hlt hb]
        exact hholds
      obtain ⟨s', hcall, hdata⟩ : ∃ s', RecordPageHandler.deleteRecord s (p, slot) = (.success, s') ∧
          s'.pageData p = (s.pageData p).clearBit slot hlt hb := by
        simp only [RecordPageHandler.deleteRecord, dif_pos hlt, dif_pos hb]
        split
        · exact ⟨_, rfl, by simp [RecordPageHandler.destroy, PagePool.setData]⟩
        · exact ⟨_, rfl, by simp [PagePool.setData]⟩
      refine ⟨⟨.success, none, none⟩, m', s', ?_, ?_, hdata ▸ hshown⟩
      · rw [PageBytes.call, heq]
      · rw [RecordPageHandler.call, hcall]

theorem Shown.getRecord (h : (s.pageData p).Shown recordSize m) (slot : Nat) : ∃ a m' s',
    PageBytes.call recordSize m (.getRecord slot) = (a, m') ∧
    RecordPageHandler.call recordSize s p (.getRecord slot) = (a, s') ∧ (s'.pageData p).Shown recordSize m' := by
  by_cases hle : (s.pageData p).recordCapacity ≤ slot
  · refine ⟨⟨.recordInvalidRId, none, none⟩, m, s, ?_, ?_, h⟩
    · rw [PageBytes.call, PageBytes.getRecord, if_pos (h.le_iff.mpr hle)]
      rfl
    · simp only [RecordPageHandler.call, RecordPageHandler.getRecord, if_pos hle]
  · have hlt := Nat.not_le.mp hle
    have hbit := h.bit hlt
    cases hb : (s.pageData p).bits slot with
    | false =>
      rw [hb] at hbit
      refine ⟨⟨.recordRecordNotExist, none, none⟩, m, s, ?_, ?_, h⟩
      · rw [PageBytes.call, PageBytes.getRecord, if_neg (mt h.le_iff.mp hle), if_pos hbit]
        rfl
      · simp only [RecordPageHandler.call, RecordPageHandler.getRecord, if_neg hle, if_pos hb]
    | true =>
      rw [hb] at hbit
      have hbits : ¬PageBytes.getBit m slot = false := by simp [hbit]
      have hne : ¬(s.pageData p).bits slot = false := by simp [hb]
      have hget : (s.pageData p).get slot = some ((s.pageData p).data slot) := if_pos ⟨hlt, hb⟩
      have hbytes := h.holds.bytes slot hlt _ hget
      refine ⟨⟨.success, none, some ((s.pageData p).data slot)⟩, m, s, ?_, ?_, h⟩
      · rw [PageBytes.call, PageBytes.getRecord, if_neg (mt h.le_iff.mp hle), if_neg hbits,
          h.holds.getRecordData (Nat.zero_lt_of_lt hlt)]
        simp only [Option.map_some, hbytes]
      · simp only [RecordPageHandler.call, RecordPageHandler.getRecord, if_neg hle, if_neg hne]

theorem Shown.call (h : (s.pageData p).Shown recordSize m) (c : PageBytes.PageCall) : ∃ a m' s',
    PageBytes.call recordSize m c = (a, m') ∧ RecordPageHandler.call recordSize s p c = (a, s') ∧
    (s'.pageData p).Shown recordSize m' := by
  cases c with
  | insertRecord data => exact h.insertRecord data
  | updateRecord slot data => exact h.updateRecord slot data
  | deleteRecord slot => exact h.deleteRecord slot
  | getRecord slot => exact h.getRecord slot

/-! ## Runs -/

theorem Shown.answers (h : (s.pageData p).Shown recordSize m) (cs : List PageBytes.PageCall) :
    PageBytes.answers recordSize m cs = RecordPageHandler.answers recordSize p s cs := by
  induction cs generalizing m s with
  | nil => rfl
  | cons c cs ih =>
    obtain ⟨a, m', s', hbytes, hslots, hshown⟩ := h.call c
    rw [PageBytes.answers, RecordPageHandler.answers, hbytes, hslots, ih hshown]

theorem shown_initEmpty (recordSize : Nat) (m : Memory) (g : RecordPage) :
    (g.initEmpty recordSize).Shown recordSize (PageBytes.initEmptyPage 16380 recordSize m) := by
  refine ⟨rfl, ?_⟩
  rw [get_initEmpty]
  exact PageBytes.holds_initEmptyPage recordSize m

/-- From `InitEmptyPage` on, in whatever memory, the bytes of a page and its slots answer every call the same: the
code, the slot that a record gets, and the bytes of the record that is asked for. -/
theorem bytes_answer_as_slots {s s' : RecordPool} {p : PageId} {recordSize : Nat}
    (h : RecordPageHandler.initEmptyPage s p recordSize = (.success, s')) (m : Memory)
    (cs : List PageBytes.PageCall) :
    PageBytes.answers recordSize (PageBytes.initEmptyPage 16380 recordSize m) cs =
      RecordPageHandler.answers recordSize p s' cs := by
  apply Shown.answers
  unfold RecordPageHandler.initEmptyPage at h
  simp only at h
  split at h
  · rename_i hr
    exact absurd (Prod.mk.inj h).1 hr
  · cases h
    rw [PagePool.flushPage, PagePool.setData]
    simp only [Function.update_self]
    exact shown_initEmpty recordSize m _

/-- A record of 4 bytes is inserted into the first page of a file, read and deleted. -/
theorem bytes_answer_as_slots_four : ∃ s',
    RecordPageHandler.initEmptyPage (PagePool.newFile : RecordPool) 0 4 = (.success, s') ∧
    PageBytes.answers 4 (PageBytes.initEmptyPage 16380 4 fun _ => 255)
        [.insertRecord fun _ => 7, .getRecord 0, .deleteRecord 0] =
      RecordPageHandler.answers 4 0 s' [.insertRecord fun _ => 7, .getRecord 0, .deleteRecord 0] := by
  obtain ⟨s', hs'⟩ : ∃ s', RecordPageHandler.initEmptyPage (PagePool.newFile : RecordPool) 0 4 = (.success, s') :=
    ⟨_, rfl⟩
  exact ⟨s', hs', bytes_answer_as_slots hs' _ _⟩

end RecordPage

end Idmbs
