import Idmbs.Storage.PageBytes

/-!
# Idmbs.Storage.PageRuns

Which record sizes leave all slots inside the page, and what a page holds after any calls of
`RecordPageHandler` on it.
-/

namespace Idmbs

open Bytes

namespace PageBytes

open BitMap

/-! ## Fitting the page -/

section Fitting

variable {pageDataSize recordSize slot : Nat} {m m' : Memory}

/-- The records on a page of `InitEmptyPage`. -/
def capacityOf (pageDataSize recordSize : Nat) : Nat := recordCapacityOf pageDataSize (align8 recordSize)

/-- The slots lie between the bitmap and the end of the page. -/
structure SlotsFit (pageDataSize recordSize : Nat) : Prop where
  header : 20 + pageBitmapSize (capacityOf pageDataSize recordSize) ≤
    pageHeaderSize (capacityOf pageDataSize recordSize)
  last : pageHeaderSize (capacityOf pageDataSize recordSize) +
    capacityOf pageDataSize recordSize * align8 recordSize ≤ pageDataSize

/-- A slot is not on the bitmap, on another slot or behind the page, and its bytes come back with the
bytes of the page. -/
structure SlotKept (pageDataSize recordSize slot : Nat) : Prop where
  behindBitmap : 20 + pageBitmapSize (capacityOf pageDataSize recordSize) ≤
    slotOffset recordSize (capacityOf pageDataSize recordSize) slot
  inside : slotOffset recordSize (capacityOf pageDataSize recordSize) slot + recordSize ≤ pageDataSize
  apart : ∀ i < slot, slotOffset recordSize (capacityOf pageDataSize recordSize) i + recordSize ≤
    slotOffset recordSize (capacityOf pageDataSize recordSize) slot
  reloaded : ∀ m m' : Memory, read m' 0 pageDataSize = read m 0 pageDataSize →
    read m' (slotOffset recordSize (capacityOf pageDataSize recordSize) slot) recordSize =
      read m (slotOffset recordSize (capacityOf pageDataSize recordSize) slot) recordSize

theorem SlotsFit.slot_le (h : SlotsFit pageDataSize recordSize) (hs : slot < capacityOf pageDataSize recordSize) :
    slotOffset recordSize (capacityOf pageDataSize recordSize) slot + align8 recordSize ≤ pageDataSize := by
  refine le_trans ?_ h.last
  rw [← slotOffset_succ, slotOffset, Nat.mul_comm (align8 recordSize)]
  exact Nat.add_le_add_left (Nat.mul_le_mul_right _ hs) _

theorem SlotsFit.kept (h : SlotsFit pageDataSize recordSize) (hs : slot < capacityOf pageDataSize recordSize) :
    SlotKept pageDataSize recordSize slot := by
  have hle := le_align8 recordSize
  have hslot := h.slot_le hs
  refine ⟨le_trans h.header (Nat.le_add_right _ _), by omega, fun i hi => ?_, fun m m' hm => ?_⟩
  · have := slotOffset_apart recordSize (capacityOf pageDataSize recordSize) hi
    omega
  · refine read_congr fun k hk => ?_
    obtain ⟨x, hx⟩ : ∃ x, slotOffset recordSize (capacityOf pageDataSize recordSize) slot + k = x := ⟨_, rfl⟩
    have hlt : x < pageDataSize := by omega
    have hget := getElem_read (m := m') (a := 0) (n := pageDataSize) (i := x) (by rwa [length_read])
    simp only [hm, getElem_read, Nat.zero_add] at hget
    rw [hx, hget]

theorem slotsFit_spec (h1 : 1 ≤ capacityOf pageDataSize recordSize) : SlotsFit pageDataSize recordSize ↔
    pageDataSize % 8 * 8 ≤ (pageDataSize - 20 - 1) * 8 % (align8 recordSize * 8 + 1) + 8 := by
  rw [← slots_le_iff rfl h1]
  exact ⟨fun h => h.last, fun h => ⟨bitmap_le_header _, h⟩⟩

/-- The records of a page stay inside it if the division that counts them leaves a large enough
remainder: at least 24 for a page of 16380 bytes. -/
theorem slots_fit_iff (pageDataSize recordSize : Nat) (_ : 1 ≤ recordSize)
    (h1 : 1 ≤ capacityOf pageDataSize recordSize) :
    (SlotsFit pageDataSize recordSize ∧
      ∀ slot < capacityOf pageDataSize recordSize, SlotKept pageDataSize recordSize slot) ↔
    pageDataSize % 8 * 8 ≤ (pageDataSize - 20 - 1) * 8 % (align8 recordSize * 8 + 1) + 8 := by
  have himp (h : SlotsFit pageDataSize recordSize) : ∀ slot < capacityOf pageDataSize recordSize,
      SlotKept pageDataSize recordSize slot := fun _ hs => h.kept hs
  exact (and_iff_left_of_imp himp).trans (slotsFit_spec h1)

/-- The 678 records of 24 bytes end 4 bytes behind the page. -/
theorem not_slots_fit_24 : ¬∀ pageDataSize recordSize : Nat, 1 ≤ recordSize →
    1 ≤ capacityOf pageDataSize recordSize → SlotsFit pageDataSize recordSize := by
  intro h
  have hfit := h 16380 24 (by decide) (by decide)
  exact absurd ((slotsFit_spec (by decide)).mp hfit) (by decide)

/-- Records of 32 bytes fit. -/
theorem slots_fit_iff_32 : (SlotsFit 16380 32 ∧ ∀ slot < capacityOf 16380 32, SlotKept 16380 32 slot) ↔
    16380 % 8 * 8 ≤ (16380 - 20 - 1) * 8 % (align8 32 * 8 + 1) + 8 :=
  slots_fit_iff 16380 32 (by decide) (by decide)

end Fitting

/-! ## Runs -/

section Runs

variable {recordSize c slot : Nat} {m m' data : Memory} {stored : Nat → Option (List UInt8)}

inductive PageCall
  | insertRecord (data : Memory)
  | updateRecord (slot : Nat) (data : Memory)
  | deleteRecord (slot : Nat)
  | getRecord (slot : Nat)

/-- A page with the bytes that its slots were last given, and whether `DeleteRecord` has disposed it. -/
structure PageRun where
  bytes : Memory
  stored : Nat → Option (List UInt8)
  disposed : Bool

/-- The run behind a call, by the call's answer. -/
def PageRun.inserted (st : PageRun) (bs : List UInt8) : Re × Option Nat × Memory → PageRun
  | (_, some slot, m) => { st with bytes := m, stored := Function.update st.stored slot (some bs) }
  | (_, none, m) => { st with bytes := m }

def PageRun.updated (st : PageRun) (slot : Nat) (bs : List UInt8) : Re × Memory → PageRun
  | (r, m) =>
    if r = .success then { st with bytes := m, stored := Function.update st.stored slot (some bs) }
    else { st with bytes := m }

def PageRun.deleted (st : PageRun) (slot : Nat) : Re × Bool × Memory → PageRun
  | (r, disposed, m) =>
    if r = .success then ⟨m, Function.update st.stored slot none, disposed⟩ else { st with bytes := m }

def PageRun.step (recordSize : Nat) (st : PageRun) : PageCall → PageRun
  | .insertRecord data => st.inserted (read data 0 recordSize) (insertRecord st.bytes data)
  | .updateRecord slot data => st.updated slot (read data 0 recordSize) (updateRecord st.bytes slot data)
  | .deleteRecord slot => st.deleted slot (deleteRecord st.bytes slot)
  | .getRecord _ => st

/-- The pages that calls make of a page of `InitEmptyPage`, up to its disposal. -/
inductive Reached (recordSize : Nat) : PageRun → Prop
  | init (m : Memory) : Reached recordSize ⟨initEmptyPage 16380 recordSize m, fun _ => none, false⟩
  | call {st : PageRun} (h : Reached recordSize st) (hopen : st.disposed = false) (call : PageCall) :
      Reached recordSize (st.step recordSize call)

/-- A slot of the page that is in use. -/
def Live (m : Memory) (slot : Nat) : Prop := slot < recordCapacity m ∧ getBit m slot = true

/-- The other live slots keep their bits and bytes, and nothing is written behind the page. -/
structure SparesOthers (slot : Nat) (m m' : Memory) : Prop where
  bit : ∀ i, i ≠ slot → Live m i → getBit m' i = true
  bytes : ∀ i, i ≠ slot → Live m i → ∀ k : Nat, k < PageBytes.recordSize m →
    m' (getRecordData m i + k) = m (getRecordData m i + k)
  behind : ∀ x, 16380 ≤ x → m' x = m x

/-- What each call does. -/
structure Serves (recordSize : Nat) (m : Memory) (stored : Nat → Option (List UInt8)) : Prop where
  insert_full : ∀ data, (∀ i : Nat, i < recordCapacity m → getBit m i = true) →
    insertRecord m data = (.recordNoMem, none, m)
  insert_free : ∀ data, ∀ i : Nat, i < recordCapacity m → getBit m i = false → ∃ slot m',
    insertRecord m data = (.success, some slot, m') ∧ slot < recordCapacity m ∧ getBit m slot = false ∧
    (∀ j < slot, getBit m j = true) ∧ getBit m' slot = true ∧ SparesOthers slot m m'
  update_live : ∀ slot data, Live m slot → ∃ m', updateRecord m slot data = (.success, m') ∧
    getBit m' slot = true ∧ SparesOthers slot m m'
  update_other : ∀ slot data, ¬Live m slot →
    updateRecord m slot data = (.invalidArgument, m) ∨ updateRecord m slot data = (.recordRecordNotExist, m)
  delete_live : ∀ slot, Live m slot → ∃ m', deleteRecord m slot = (.success, decide (recordNum m' = 0), m') ∧
    getBit m' slot = false ∧ SparesOthers slot m m'
  delete_other : ∀ slot, ¬Live m slot →
    deleteRecord m slot = (.invalidArgument, false, m) ∨ deleteRecord m slot = (.recordRecordNotExist, false, m)
  get_live : ∀ slot, Live m slot → ∃ a, getRecord m slot = (.success, some a) ∧
    stored slot = some (read m a recordSize)
  get_other : ∀ slot, ¬Live m slot →
    getRecord m slot = (.recordInvalidRId, none) ∨ getRecord m slot = (.recordRecordNotExist, none)

/-- The fields of a page are small enough for `int32_t`. -/
theorem fields_fit (recordSize : Nat) : capacityOf 16380 recordSize < 2 ^ 31 ∧
    pageHeaderSize (capacityOf 16380 recordSize) < 2 ^ 31 ∧
    (0 < capacityOf 16380 recordSize → recordSize < 2 ^ 31 ∧ align8 recordSize < 2 ^ 31) := by
  have hle : capacityOf 16380 recordSize ≤ (16380 - 20 - 1) * 8 := Nat.div_le_self _ _
  refine ⟨by omega, ?_, fun hc => ?_⟩
  · rw [pageHeaderSize, align8_eq, pageBitmapSize_eq]
    omega
  · have hsize := (Nat.div_pos_iff.mp hc).2
    have := le_align8 recordSize
    omega

theorem getInt_setInt_of_apart {a b : Nat} {v : Int} (h : a + 4 ≤ b ∨ b + 4 ≤ a) :
    getInt (setInt m b 4 v) a 4 = getInt m a 4 := by
  refine getInt_congr fun k hk => ?_
  cases h with
  | inl h => exact setInt_of_lt (by omega)
  | inr h => exact setInt_of_ge (by omega)

theorem getInt_setInt_natCast {a v : Nat} (h : v < 2 ^ 31) : getInt (setInt m a 4 v) a 4 = v :=
  getInt_setInt_of_fits (by norm_num; omega) (by norm_num; omega)

theorem getInt_zero_of_le {a b n : Nat} (h : a + 4 ≤ b) : getInt (zero m b n) a 4 = getInt m a 4 :=
  getInt_congr fun _ hk => zero_of_lt (by omega)

/-- The page that `InitEmptyPage` leaves holds nothing. -/
theorem holds_initEmptyPage (recordSize : Nat) (m : Memory) :
    Holds recordSize (capacityOf 16380 recordSize) (initEmptyPage 16380 recordSize m) fun _ => none := by
  obtain ⟨hcap, hfirst, hsizes⟩ := fields_fit recordSize
  have hbits : ∀ i < capacityOf 16380 recordSize, getBit (initEmptyPage 16380 recordSize m) i = false := by
    intro i hi
    have hbyte := lt_pageBitmapSize hi
    have hzero : initEmptyPage 16380 recordSize m (20 + i / 8) = 0 :=
      zero_at (Nat.le_add_right _ _) (Nat.add_lt_add_left hbyte 20)
    rw [getBit, hzero, bit]
    exact Nat.zero_testBit _
  constructor
  case capacity =>
    simp only [initEmptyPage, recordCapacity]
    rw [getInt_zero_of_le (by decide), getInt_setInt_of_apart (.inl (by decide)),
      getInt_setInt_of_apart (.inl (by decide)), getInt_setInt_of_apart (.inl (by decide))]
    exact getInt_setInt_natCast hcap
  case realSize =>
    intro hc
    simp only [initEmptyPage, recordRealSize]
    rw [getInt_zero_of_le (by decide), getInt_setInt_of_apart (.inl (by decide)),
      getInt_setInt_of_apart (.inl (by decide)), getInt_setInt_natCast (hsizes hc).1]
  case size =>
    intro hc
    simp only [initEmptyPage, PageBytes.recordSize]
    rw [getInt_zero_of_le (by decide), getInt_setInt_of_apart (.inl (by decide)),
      getInt_setInt_natCast (hsizes hc).2]
  case first =>
    intro _
    simp only [initEmptyPage, firstRecordOffset]
    rw [getInt_zero_of_le (by decide)]
    exact getInt_setInt_natCast hfirst
  case num =>
    simp only [initEmptyPage, recordNum] at hbits ⊢
    rw [bitsFrom_eq_nil hbits, getInt_zero_of_le (by decide), getInt_setInt_of_apart (.inl (by decide)),
      getInt_setInt_of_apart (.inl (by decide)), getInt_setInt_of_apart (.inl (by decide)),
      getInt_setInt_of_apart (.inl (by decide))]
    exact getInt_setInt_natCast (v := 0) (by decide)
  case bits =>
    intro i hi
    exact hbits i hi
  case bytes =>
    intro _ _ bs hbs
    cases hbs

theorem Holds.live_iff (h : Holds recordSize c m stored) : Live m slot ↔ slot < c ∧ getBit m slot = true := by
  rw [Live, h.capacity, Int.ofNat_lt]

theorem Touches.sparesOthers (hin : ∀ i < c, slotOffset recordSize c i + align8 recordSize ≤ 16380)
    (h : Holds recordSize c m stored) (hs : slot < c)
    (ht : Touches recordSize c slot m m') : SparesOthers slot m m' where
  bit i hne hi := by
    obtain ⟨hlt, hbit⟩ := h.live_iff.mp hi
    rw [ht.bits i hlt hne, hbit]
  bytes i hne hi k hk := by
    have hlt := (h.live_iff.mp hi).1
    have hc : 0 < c := Nat.zero_lt_of_lt hlt
    rw [h.size hc] at hk
    have hread := ht.record hs hne
    rw [h.getRecordData hc]
    have hk' : k < (read m' (slotOffset recordSize c i) (align8 recordSize)).length := by
      rw [length_read]
      omega
    have hget := getElem_read hk'
    simp only [hread] at hget
    rw [← hget, getElem_read]
  behind x hx := by
    have hslot := hin slot hs
    have hbit := bit_lt_slotOffset recordSize slot hs
    have hle := le_align8 recordSize
    exact ht.outside x (by omega) (by omega) (.inr (by omega))

theorem Holds.serves (hcap : c < 2 ^ 31) (hin : ∀ i < c, slotOffset recordSize c i + align8 recordSize ≤ 16380)
    (h : Holds recordSize c m stored) : Serves recordSize m stored := by
  have hother {slot : Nat} (hn : ¬Live m slot) : recordCapacity m ≤ slot ∨ ¬recordCapacity m ≤ slot ∧ getBit m slot = false := by
    by_cases hle : recordCapacity m ≤ slot
    · exact .inl hle
    · exact .inr ⟨hle, eq_false_of_ne_true fun hb => hn ⟨Int.not_le.mp hle, hb⟩⟩
  constructor
  case insert_full =>
    intro data hfull
    exact h.insertRecord_full (fun i hi => hfull i (by rw [h.capacity]; omega)) data
  case insert_free =>
    intro data i hi hfree
    rw [h.capacity] at hi ⊢
    obtain ⟨slot, m', heq, hslot, hclear, hlow, ht, hholds⟩ :=
      h.insertRecord_free hcap (Int.ofNat_lt.mp hi) hfree data
    have hbit := hholds.bits slot hslot
    rw [Function.update_self] at hbit
    exact ⟨slot, m', heq, Int.ofNat_lt.mpr hslot, hclear, hlow, hbit, ht.sparesOthers hin h hslot⟩
  case update_live =>
    intro slot data hlive
    obtain ⟨hslot, hb⟩ := h.live_iff.mp hlive
    obtain ⟨m', heq, ht, hholds⟩ := h.update_live hslot hb data
    have hbit := hholds.bits slot hslot
    rw [Function.update_self] at hbit
    exact ⟨m', heq, hbit, ht.sparesOthers hin h hslot⟩
  case update_other =>
    intro slot data hn
    cases hother hn with
    | inl hle => exact .inl (if_pos hle)
    | inr hclear =>
      refine .inr ?_
      rw [updateRecord, if_neg hclear.1, if_pos hclear.2]
  case delete_live =>
    intro slot hlive
    obtain ⟨hslot, hb⟩ := h.live_iff.mp hlive
    obtain ⟨m', heq, ht, hholds⟩ := h.delete_live hcap hslot hb
    have hbit := hholds.bits slot hslot
    rw [Function.update_self] at hbit
    exact ⟨m', heq, hbit, ht.sparesOthers hin h hslot⟩
  case delete_other =>
    intro slot hn
    cases hother hn with
    | inl hle => exact .inl (if_pos hle)
    | inr hclear =>
      refine .inr ?_
      rw [deleteRecord, if_neg hclear.1, if_neg (by rw [hclear.2]; exact Bool.false_ne_true)]
  case get_live =>
    intro slot hlive
    obtain ⟨hslot, hb⟩ := h.live_iff.mp hlive
    refine ⟨PageBytes.getRecordData m slot, ?_, ?_⟩
    · rw [getRecord, if_neg (by rw [h.capacity]; omega), if_neg (by rw [hb]; exact Bool.false_ne_true.symm)]
    · rw [h.getRecordData (Nat.zero_lt_of_lt hslot)]
      have hsome := h.bits slot hslot
      rw [hb] at hsome
      obtain ⟨bs, hbs⟩ := Option.isSome_iff_exists.mp hsome.symm
      rw [hbs, h.bytes slot hslot bs hbs]
  case get_other =>
    intro slot hn
    cases hother hn with
    | inl hle => exact .inl (if_pos hle)
    | inr hclear =>
      refine .inr ?_
      rw [getRecord, if_neg hclear.1, if_pos hclear.2]

theorem Holds.inserted (hcap : c < 2 ^ 31) {st : PageRun} (h : Holds recordSize c st.bytes st.stored)
    (data : Memory) :
    Holds recordSize c (st.inserted (read data 0 recordSize) (insertRecord st.bytes data)).bytes
      (st.inserted (read data 0 recordSize) (insertRecord st.bytes data)).stored := by
  by_cases hfull : ∀ i < c, getBit st.bytes i = true
  · rw [h.insertRecord_full hfull data]
    exact h
  · obtain ⟨i, hi⟩ := not_forall.mp hfull
    obtain ⟨hi, hclear⟩ := Classical.not_imp.mp hi
    obtain ⟨slot, m', heq, -, -, -, -, hholds⟩ := h.insertRecord_free hcap hi (eq_false_of_ne_true hclear) data
    rw [heq]
    exact hholds

theorem Holds.updated {st : PageRun} (h : Holds recordSize c st.bytes st.stored)
    (hserves : Serves recordSize st.bytes st.stored) (slot : Nat) (data : Memory) :
    Holds recordSize c (st.updated slot (read data 0 recordSize) (updateRecord st.bytes slot data)).bytes
      (st.updated slot (read data 0 recordSize) (updateRecord st.bytes slot data)).stored := by
  by_cases hlive : Live st.bytes slot
  · obtain ⟨hslot, hb⟩ := h.live_iff.mp hlive
    obtain ⟨m', heq, -, hholds⟩ := h.update_live hslot hb data
    rw [heq, PageRun.updated, if_pos rfl]
    exact hholds
  · rcases hserves.update_other slot data hlive with heq | heq
    · rw [heq, PageRun.updated, if_neg nofun]
      exact h
    · rw [heq, PageRun.updated, if_neg nofun]
      exact h

theorem Holds.deleted (hcap : c < 2 ^ 31) {st : PageRun} (h : Holds recordSize c st.bytes st.stored)
    (hserves : Serves recordSize st.bytes st.stored) (slot : Nat) :
    Holds recordSize c (st.deleted slot (deleteRecord st.bytes slot)).bytes
      (st.deleted slot (deleteRecord st.bytes slot)).stored := by
  by_cases hlive : Live st.bytes slot
  · obtain ⟨hslot, hb⟩ := h.live_iff.mp hlive
    obtain ⟨m', heq, -, hholds⟩ := h.delete_live hcap hslot hb
    rw [heq, PageRun.deleted, if_pos rfl]
    exact hholds
  · rcases hserves.delete_other slot hlive with heq | heq
    · rw [heq, PageRun.deleted, if_neg nofun]
      exact h
    · rw [heq, PageRun.deleted, if_neg nofun]
      exact h

/-- A call leaves a page that holds what the calls stored. -/
theorem Holds.step (hcap : c < 2 ^ 31) (hin : ∀ i < c, slotOffset recordSize c i + align8 recordSize ≤ 16380)
    {st : PageRun} (h : Holds recordSize c st.bytes st.stored) (call : PageCall) :
    Holds recordSize c (st.step recordSize call).bytes (st.step recordSize call).stored := by
  cases call with
  | insertRecord data => exact h.inserted hcap data
  | updateRecord slot data => exact h.updated (h.serves hcap hin) slot data
  | deleteRecord slot => exact h.deleted hcap (h.serves hcap hin) slot
  | getRecord slot => exact h

theorem Reached.holds (hfit : SlotsFit 16380 recordSize) {st : PageRun} (h : Reached recordSize st) :
    Holds recordSize (capacityOf 16380 recordSize) st.bytes st.stored := by
  induction h with
  | init m => exact holds_initEmptyPage recordSize m
  | call _ _ call ih => exact ih.step (fields_fit recordSize).1 (fun _ hs => hfit.slot_le hs) call

/-- A page counts its live slots, and until it is disposed every call does what `Serves` says. -/
theorem record_page_invariant (hfit : SlotsFit 16380 recordSize) {st : PageRun} (h : Reached recordSize st) :
    recordNum st.bytes = (bitsFrom (getBit st.bytes) (recordCapacity st.bytes).toNat 0).length ∧
      (∀ slot : Nat, slot < recordCapacity st.bytes → getBit st.bytes slot = (st.stored slot).isSome) ∧
      (st.disposed = false → Serves recordSize st.bytes st.stored) := by
  have hholds := h.holds hfit
  refine ⟨?_, fun slot hslot => ?_, fun _ => hholds.serves (fields_fit recordSize).1 fun _ hs => hfit.slot_le hs⟩
  · rw [hholds.num, hholds.capacity, Int.toNat_natCast]
  · rw [hholds.capacity] at hslot
    exact hholds.bits slot (Int.ofNat_lt.mp hslot)

/-- Two records are inserted, the first is changed and the second deleted. -/
def changedPage : PageRun :=
  [.insertRecord fun _ => 1, .insertRecord fun _ => 2, .updateRecord 0 fun _ => 3, .deleteRecord 1].foldl
    (PageRun.step 8) ⟨initEmptyPage 16380 8 fun _ => 0, fun _ => none, false⟩

theorem record_page_invariant_changed :
    recordNum changedPage.bytes = 1 ∧ (∀ slot : Nat, slot < recordCapacity changedPage.bytes →
      getBit changedPage.bytes slot = (changedPage.stored slot).isSome) ∧
      Serves 8 changedPage.bytes changedPage.stored := by
  have hreached : Reached 8 changedPage := by
    unfold changedPage
    simp only [List.foldl_cons, List.foldl_nil]
    refine .call (.call (.call (.call (.init fun _ => 0) ?_ _) ?_ _) ?_ _) ?_ _
    · rfl
    · decide +kernel
    · decide +kernel
    · decide +kernel
  have hnum : recordNum changedPage.bytes = 1 := by decide +kernel
  have hopen : changedPage.disposed = false := by decide +kernel
  obtain ⟨-, hbits, hserves⟩ := record_page_invariant ((slotsFit_spec (by decide)).mpr (by decide)) hreached
  exact ⟨hnum, hbits, hserves hopen⟩

end Runs

end PageBytes

end Idmbs
