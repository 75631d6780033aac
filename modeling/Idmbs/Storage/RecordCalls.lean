import Idmbs.Storage.PageBookkeeping
import Idmbs.Storage.RecordHandler

/-!
# Idmbs.Storage.RecordCalls

What one call of `RecordFileHandler` does to the pages, each of them a map from slots to bytes: `Writes`
says which page changed and what it holds now. The pins that the calls leave behind keep every page that
waits for its disposal, so a handler that is destroyed never frees one.
-/

namespace Idmbs

open BitMap

/-! ## Pages as maps -/

namespace RecordPage

def get (g : RecordPage) (slot : Nat) : Option (List UInt8) :=
  if slot < g.recordCapacity ∧ g.bits slot = true then some (g.data slot) else none

variable {g : RecordPage} {slot : Nat} {bs : List UInt8}

theorem mem_slots : slot ∈ g.slots ↔ (g.get slot).isSome := by
  rw [slots, mem_bitsFrom, get]
  split
  · rename_i h
    exact iff_of_true ⟨Nat.zero_le _, h⟩ rfl
  · rename_i h
    exact iff_of_false (fun hm => h hm.2) nofun

theorem get_reloaded (recordSize : Nat) :
    (g.reloaded recordSize).get slot = (g.get slot).map (List.take (slotRoom recordSize slot)) := by
  unfold get
  change (if slot < g.recordCapacity ∧ g.bits slot = true then _ else none) = _
  split
  · rfl
  · rfl

theorem get_initEmpty (recordSize : Nat) : (g.initEmpty recordSize).get = fun _ => none := by
  funext slot
  refine if_neg fun h => ?_
  have hclear : (g.initEmpty recordSize).bits slot = false := if_pos (lt_pageBitmapSize h.1)
  rw [hclear] at h
  cases h.2

theorem get_setBit (h : slot < g.recordCapacity) (hb : g.bits slot = false) :
    ((g.setBit slot h hb).setRecordData slot bs).get = Function.update g.get slot (some bs) := by
  funext k
  by_cases hk : k = slot
  · subst hk
    simp [get, setBit, setRecordData, h]
  · simp [get, setBit, setRecordData, Function.update_of_ne hk]

theorem get_setRecordData (h : slot < g.recordCapacity) (hb : g.bits slot = true) :
    (g.setRecordData slot bs).get = Function.update g.get slot (some bs) := by
  funext k
  by_cases hk : k = slot
  · subst hk
    simp [get, setRecordData, h, hb]
  · simp [get, setRecordData, Function.update_of_ne hk]

theorem get_clearBit (h : slot < g.recordCapacity) (hb : g.bits slot = true) :
    (g.clearBit slot h hb).get = Function.update g.get slot none := by
  funext k
  by_cases hk : k = slot
  · subst hk
    simp [get, clearBit]
  · simp [get, clearBit, Function.update_of_ne hk]

theorem get_eq_none_of_recordNum (h : g.recordNum = 0) : g.get = fun _ => none := by
  funext k
  have hnil := g.recordNum_eq_zero_iff.mp h
  by_contra hne
  have hmem : k ∈ g.slots := mem_slots.mpr (Option.isSome_iff_ne_none.mpr hne)
  rw [hnil] at hmem
  cases hmem

theorem recordNum_le (g : RecordPage) : g.recordNum ≤ g.recordCapacity := by
  rw [g.counted]
  have hle : (bitsFrom g.bits g.recordCapacity 0).length ≤ (List.range' 0 (g.recordCapacity - 0)).length :=
    List.length_filter_le _ _
  rw [List.length_range'] at hle
  omega

/-- A page that is not full has a slot for `NextUnsetBit` to find. -/
theorem nextUnsetBit_spec (h : g.isFull = false) : ∃ slot,
    nextUnsetBit g.bits g.recordCapacity 0 = some slot ∧ slot < g.recordCapacity ∧ g.bits slot = false := by
  rcases nextSetBit_cases (b := fun i => !g.bits i) g.recordCapacity (k := 0) (.inl rfl) with
    ⟨-, hnil⟩ | ⟨slot, hfind, -, hlt, hb, -⟩
  · have hall : bitsFrom g.bits g.recordCapacity 0 = List.range' 0 (g.recordCapacity - 0) := by
      refine List.filter_eq_self.mpr fun i hi => ?_
      by_contra hclear
      have hmem : i ∈ bitsFrom (fun i => !g.bits i) g.recordCapacity 0 :=
        List.mem_filter.mpr ⟨hi, by simpa using hclear⟩
      rw [hnil] at hmem
      cases hmem
    have hnum := g.counted
    rw [hall, List.length_range'] at hnum
    have hroom : g.recordNum < g.recordCapacity := by simpa [isFull] using h
    omega
  · exact ⟨slot, hfind, hlt, by simpa using hb⟩

end RecordPage

/-! ## The pool under the handler -/

namespace RecordPool

/-- The header page is allocated, every allocated page lies in the file, no call fails, and a page that
waits for its disposal is pinned. -/
structure Usable (s : RecordPool) : Prop where
  faults : s.faults = []
  bounded : ∀ p, s.bitmap p = true → p < s.pagesNum
  header : s.bitmap PagePool.headerPage = true
  waiting : ∀ p, s.disposedPages p = true → 0 < s.pinCount p

theorem Usable.ne_headerPage {s : RecordPool} {p : PageId} (h : Usable s) (hbit : s.bitmap p = false) :
    p ≠ PagePool.headerPage := by
  rintro rfl
  rw [h.header] at hbit
  cases hbit

/-- Every data page is allocated and pinned. -/
def Held (s : RecordPool) : Prop :=
  ∀ p, p ≠ PagePool.headerPage → p < s.pagesNum → s.bitmap p = true ∧ 0 < s.pinCount p

/-- What a record call changes: page `p` now holds `m`. -/
structure Writes (s s' : RecordPool) (p : PageId) (m : Nat → Option (List UInt8)) : Prop where
  usable : Usable s'
  pagesNum : s.pagesNum ≤ s'.pagesNum
  page : (s'.pageData p).get = m
  others : ∀ q, q ≠ p → s'.pageData q = s.pageData q
  bits : ∀ q, q ≠ p → s'.bitmap q = s.bitmap q
  held : Held s → Held s'

variable {s : RecordPool} {p : PageId} {g : RecordPage}

theorem Usable.getPage (h : Usable s) (hp : p < s.pagesNum) : s.getPage p = (.success, s.pinned p) := by
  simp [PagePool.getPage, PagePool.takeFault, PagePool.pinned, h.faults, Nat.not_le.mpr hp]

theorem Usable.getPage_past (h : Usable s) (hp : ¬p < s.pagesNum) : s.getPage p = (.ioErrRead, s) := by
  simp [PagePool.getPage, PagePool.takeFault, h.faults, Nat.not_lt.mp hp]

theorem Usable.setPin {n : Nat} (h : Usable s) (hn : s.disposedPages p = true → 0 < n) :
    Usable (s.setPin p n) where
  faults := h.faults
  bounded := h.bounded
  header := h.header
  waiting q hq := by
    by_cases he : q = p
    · subst he
      simpa [PagePool.setPin] using hn hq
    · simpa [PagePool.setPin, Function.update_of_ne he] using h.waiting q hq

theorem Usable.pinned (h : Usable s) : Usable (s.pinned p) := h.setPin fun _ => Nat.succ_pos _

theorem Usable.setData (h : Usable s) : Usable (s.setData p g) := ⟨h.faults, h.bounded, h.header, h.waiting⟩

theorem Usable.dirtyMark (h : Usable s) : Usable (s.dirtyMark p) := ⟨h.faults, h.bounded, h.header, h.waiting⟩

/-- A handler that is destroyed leaves the pool as it was. -/
theorem pinned_unpinPage (h : Usable s) : (s.pinned p).unpinPage p = s := by
  have hpin : (s.pinned p).pinCount p = s.pinCount p + 1 := by simp [PagePool.pinned, PagePool.setPin]
  rw [PagePool.unpinPage_kept (fun hc => ?_) (by omega), hpin]
  · simp [PagePool.pinned, PagePool.setPin]
  · have hw := h.waiting p hc.2
    rw [hpin] at hc
    omega

theorem Held.pinned (h : Held s) : Held (s.pinned p) := by
  intro q hne hlt
  obtain ⟨hbit, hpin⟩ := h q hne hlt
  refine ⟨hbit, ?_⟩
  by_cases he : q = p
  · subst he
    simp [PagePool.pinned, PagePool.setPin]
  · simpa [PagePool.pinned, PagePool.setPin, Function.update_of_ne he] using hpin

theorem writes_setData (h : Usable s) : Writes s (((s.pinned p).setData p g).dirtyMark p) p g.get where
  usable := h.pinned.setData.dirtyMark
  pagesNum := le_rfl
  page := by simp [PagePool.setData]
  others q hq := by simp [PagePool.setData, Function.update_of_ne hq]
  bits _ _ := rfl
  held hh := hh.pinned

theorem writes_pinned (h : Usable s) : Writes s (s.pinned p) p (s.pageData p).get :=
  ⟨h.pinned, le_rfl, rfl, fun _ _ => rfl, fun _ _ => rfl, .pinned⟩

theorem writes_refl (h : Usable s) : Writes s s p (s.pageData p).get :=
  ⟨h, le_rfl, rfl, fun _ _ => rfl, fun _ _ => rfl, id⟩

end RecordPool

open RecordPool

/-! ## One call -/

namespace RecordPageHandler

variable {s : RecordPool} {p : PageId} {rid : Slot} {bs : List UInt8}

/-- A page with room takes the record in a slot that is free. -/
theorem insertRecord_spec (bs : List UInt8) (h : (s.pageData p).isFull = false) : ∃ slot g,
    insertRecord s p bs = (.success, some (p, slot), (s.setData p g).dirtyMark p) ∧
    (s.pageData p).get slot = none ∧ g.get = Function.update (s.pageData p).get slot (some bs) := by
  obtain ⟨slot, hfind, hlt, hb⟩ := RecordPage.nextUnsetBit_spec h
  refine ⟨slot, ((s.pageData p).setBit slot hlt hb).setRecordData slot bs, ?_, ?_, RecordPage.get_setBit hlt hb⟩
  · have hroom : ¬(s.pageData p).recordNum = (s.pageData p).recordCapacity := by
      have : (s.pageData p).recordNum < (s.pageData p).recordCapacity := by simpa [RecordPage.isFull] using h
      omega
    simp only [insertRecord, if_neg hroom, hfind, dif_pos (And.intro hlt hb)]
  · exact if_neg fun hc => by simp [hb] at hc

theorem insertRecord_full (bs : List UInt8) (h : (s.pageData p).isFull = true) :
    insertRecord s p bs = (.recordNoMem, none, s) := by
  have hle := (s.pageData p).recordNum_le
  have hfull : (s.pageData p).recordNum ≥ (s.pageData p).recordCapacity := by
    simpa [RecordPage.isFull] using h
  exact if_pos (by omega)

/-- An update goes through exactly on a slot in use. -/
theorem updateRecord_spec (rid : Slot) (bs : List UInt8) :
    ((s.pageData rid.1).get rid.2 = none ∧ ∃ r, r ≠ .success ∧ updateRecord s rid bs = (r, s)) ∨
    ((s.pageData rid.1).get rid.2 ≠ none ∧ ∃ g, updateRecord s rid bs =
      (.success, (s.setData rid.1 g).dirtyMark rid.1) ∧
      g.get = Function.update (s.pageData rid.1).get rid.2 (some bs)) := by
  unfold updateRecord
  by_cases hcap : (s.pageData rid.1).recordCapacity ≤ rid.2
  · refine .inl ⟨if_neg (by omega), .invalidArgument, by decide, ?_⟩
    simp [hcap]
  · by_cases hb : (s.pageData rid.1).bits rid.2 = true
    · refine .inr ⟨?_, (s.pageData rid.1).setRecordData rid.2 bs, ?_,
        RecordPage.get_setRecordData (by omega) hb⟩
      · simp [RecordPage.get, hb, Nat.not_le.mp hcap]
      · simp [hcap, hb]
    · refine .inl ⟨if_neg (by simp [hb]), .recordRecordNotExist, by decide, ?_⟩
      simp [hcap, hb]

theorem getRecord_spec : (getRecord s rid).2 = (s.pageData rid.1).get rid.2 := by
  unfold getRecord RecordPage.get
  by_cases hcap : (s.pageData rid.1).recordCapacity ≤ rid.2
  · simp [hcap, Nat.not_lt.mpr hcap]
  · by_cases hb : (s.pageData rid.1).bits rid.2 = true
    · simp [hcap, hb, Nat.not_le.mp hcap]
    · simp [hcap, hb]

theorem deleteRecord_free (h : (s.pageData rid.1).get rid.2 = none) :
    ∃ r, r ≠ .success ∧ deleteRecord s rid = (r, s) := by
  unfold deleteRecord
  simp only
  split
  · rename_i hcap
    rw [dif_neg fun hb => ?_]
    · exact ⟨.recordRecordNotExist, by decide, rfl⟩
    · simp [RecordPage.get, hcap, hb] at h
  · exact ⟨.invalidArgument, by decide, rfl⟩

theorem deleteRecord_used (h : (s.pageData rid.1).get rid.2 ≠ none) : ∃ g : RecordPage,
    g.get = Function.update (s.pageData rid.1).get rid.2 none ∧ deleteRecord s rid = (.success,
      if g.recordNum = 0 then ((((s.setData rid.1 g).dirtyMark rid.1).unpinPage rid.1).disposePage rid.1).2
      else (s.setData rid.1 g).dirtyMark rid.1) := by
  have hslot : rid.2 < (s.pageData rid.1).recordCapacity ∧ (s.pageData rid.1).bits rid.2 = true := by
    by_contra hc
    exact h (if_neg hc)
  refine ⟨(s.pageData rid.1).clearBit rid.2 hslot.1 hslot.2, RecordPage.get_clearBit hslot.1 hslot.2, ?_⟩
  unfold deleteRecord
  simp only [dif_pos hslot.1, dif_pos hslot.2]
  split
  · rfl
  · rfl

/-- A page that was pinned before waits for its disposal; another one is freed at once. -/
theorem disposePage_spec {m : Nat → Option (List UInt8)} (h : Usable s) (hp : p ≠ PagePool.headerPage)
    (hm : (s.pageData p).get = m) :
    Writes s (s.disposePage p).2 p m := by
  by_cases hpin : 0 < s.pinCount p
  · rw [PagePool.disposePage_pinned hpin]
    refine ⟨⟨h.faults, h.bounded, h.header, fun q hq => ?_⟩, le_rfl, hm, fun _ _ => rfl, fun _ _ => rfl, id⟩
    by_cases he : q = p
    · exact he ▸ hpin
    · exact h.waiting q (by simpa [Function.update_of_ne he] using hq)
  · obtain ⟨hfreed, hpins, hwaiting⟩ := PagePool.disposePage_freed (Nat.eq_zero_of_not_pos hpin)
    refine ⟨⟨?_, fun q hq => ?_, ?_, fun q hq => ?_⟩, hfreed.pages.ge, ?_, fun q hq => ?_, fun q hq => ?_,
      fun hh q hne hlt => ?_⟩
    · exact (PagePool.faults_disposePage s p).trans h.faults
    · rw [hfreed.bitmap] at hq
      by_cases he : q = p
      · simp [he] at hq
      · rw [hfreed.pages]
        exact h.bounded q (by simpa [Function.update_of_ne he] using hq)
    · rw [hfreed.bitmap, Function.update_of_ne hp.symm]
      exact h.header
    · rw [hpins]
      exact h.waiting q (hwaiting ▸ hq)
    · rw [PagePool.pageData_disposePage]
      exact hm
    · rw [PagePool.pageData_disposePage]
    · rw [hfreed.bitmap, Function.update_of_ne hq]
    · obtain ⟨hbit, hpos⟩ := hh q hne (hfreed.pages ▸ hlt)
      have he : q ≠ p := fun he => hpin (he ▸ hpos)
      rw [hfreed.bitmap, hpins, Function.update_of_ne he]
      exact ⟨hbit, hpos⟩

end RecordPageHandler

namespace RecordFile

variable {f : RecordFile} {rid : Slot} {bs : List UInt8}

theorem getRecord_spec (h : Usable f.pool) : (f.getRecord rid).2.1 =
    if rid.1 < f.pool.pagesNum then (f.pool.pageData rid.1).get rid.2 else none := by
  unfold getRecord
  by_cases hp : rid.1 < f.pool.pagesNum
  · rw [if_pos hp, h.getPage hp]
    exact RecordPageHandler.getRecord_spec (s := f.pool.pinned rid.1)
  · rw [if_neg hp, h.getPage_past hp]
    rfl

/-- An update that goes through writes over a record of the file. -/
theorem updateRecord_spec (rid : Slot) (bs : List UInt8) (h : Usable f.pool) :
    (∃ r s', r ≠ .success ∧ f.updateRecord rid bs = (r, { f with pool := s' }) ∧
      Writes f.pool s' rid.1 (f.pool.pageData rid.1).get ∧ s'.bitmap = f.pool.bitmap) ∨
    (rid.1 < f.pool.pagesNum ∧ (f.pool.pageData rid.1).get rid.2 ≠ none ∧ ∃ s',
      f.updateRecord rid bs = (.success, { f with pool := s' }) ∧
      Writes f.pool s' rid.1 (Function.update (f.pool.pageData rid.1).get rid.2 (some bs)) ∧
      s'.bitmap = f.pool.bitmap) := by
  unfold updateRecord
  by_cases hp : rid.1 < f.pool.pagesNum
  · rw [h.getPage hp]
    simp only [ne_eq, not_true_eq_false, if_false]
    rcases RecordPageHandler.updateRecord_spec (s := f.pool.pinned rid.1) rid bs with
      ⟨-, r, hr, heq⟩ | ⟨hused, g, heq, hget⟩
    · rw [heq]
      exact .inl ⟨r, _, hr, rfl, writes_pinned h, rfl⟩
    · rw [heq]
      refine .inr ⟨hp, hused, _, rfl, ?_, rfl⟩
      have hw : Writes f.pool _ rid.1 g.get := writes_setData h
      rw [hget] at hw
      exact hw
  · rw [h.getPage_past hp]
    exact .inl ⟨.ioErrRead, f.pool, by decide, rfl, writes_refl h, rfl⟩

/-- A deletion that goes through takes a record of the file away. -/
theorem deleteRecord_spec (h : Usable f.pool) (hne : rid.1 ≠ PagePool.headerPage) :
    (∃ r s', r ≠ .success ∧ f.deleteRecord rid = (r, { f with pool := s' }) ∧
      Writes f.pool s' rid.1 (f.pool.pageData rid.1).get ∧ s'.bitmap = f.pool.bitmap) ∨
    (rid.1 < f.pool.pagesNum ∧ (f.pool.pageData rid.1).get rid.2 ≠ none ∧ ∃ s' m,
      f.deleteRecord rid = (.success, { f with pool := s', freePages := f.freePages.insert rid.1 }) ∧
      m = Function.update (f.pool.pageData rid.1).get rid.2 none ∧ Writes f.pool s' rid.1 m ∧
      (s'.bitmap rid.1 = f.pool.bitmap rid.1 ∨ m = fun _ => none)) := by
  unfold deleteRecord RecordFileHandler.deleteRecord
  by_cases hp : rid.1 < f.pool.pagesNum
  · rw [h.getPage hp]
    simp only [ne_eq, not_true_eq_false, if_false]
    by_cases hused : (f.pool.pageData rid.1).get rid.2 = none
    · obtain ⟨r, hr, heq⟩ := RecordPageHandler.deleteRecord_free (s := f.pool.pinned rid.1) hused
      rw [heq]
      exact .inl ⟨r, _, hr, by simp [hr], writes_pinned h, rfl⟩
    · obtain ⟨g, hget, heq⟩ := RecordPageHandler.deleteRecord_used (s := f.pool.pinned rid.1) hused
      rw [heq]
      refine .inr ⟨hp, hused, _, g.get, rfl, hget, ?_⟩
      split
      · rename_i hnum
        -- the pins of before keep the page, so the pool is as before the call but for the page
        have hmid : Usable ((f.pool.setData rid.1 g).dirtyMark rid.1) := h.setData.dirtyMark
        have hunpin : ((((f.pool.pinned rid.1).setData rid.1 g).dirtyMark rid.1).unpinPage rid.1) =
            (f.pool.setData rid.1 g).dirtyMark rid.1 := pinned_unpinPage hmid
        rw [hunpin]
        have hw := RecordPageHandler.disposePage_spec hmid hne (m := g.get) (by simp [PagePool.setData])
        refine ⟨⟨hw.usable, hw.pagesNum, hw.page, fun q hq => ?_, hw.bits, hw.held⟩,
          .inr (RecordPage.get_eq_none_of_recordNum hnum)⟩
        rw [hw.others q hq]
        simp [PagePool.setData, Function.update_of_ne hq]
      · exact ⟨writes_setData h, .inl rfl⟩
  · rw [h.getPage_past hp]
    exact .inl ⟨.ioErrRead, f.pool, by decide, rfl, writes_refl h, rfl⟩

/-- The page that `InsertRecord` takes from `free_pages_`: the first that is not full. -/
def offered (f : RecordFile) : Option PageId := f.freePages.find? fun p => !(f.pool.pageData p).isFull

/-- A page that `AllocatePage` returns was free; the other pages keep their bytes. -/
theorem allocatePage_fresh {s : RecordPool} (h : Usable s) :
    (∃ r s', r ≠ .success ∧ s.allocatePage = (r, 0, s') ∧ Usable s' ∧
      s'.pageData = s.pageData ∧ s'.bitmap = s.bitmap ∧ (Held s → Held s')) ∨
    ∃ p s', s.allocatePage = (.success, p, s') ∧ s.bitmap p = false ∧ p < s'.pagesNum ∧
      s.pagesNum ≤ s'.pagesNum ∧ Usable s' ∧ (Held s → Held s') ∧
      (∀ q, q ≠ p → s'.pageData q = s.pageData q) ∧ s'.bitmap = Function.update s.bitmap p true := by
  have hdata : ∀ q, q ≠ s.allocatePage.2.1 → s.allocatePage.2.2.pageData q = s.pageData q := by
    unfold PagePool.allocatePage
    cases hfree : s.firstFree with
    | some i =>
      intro q _
      simp [PagePool.getPage, PagePool.takeFault, PagePool.dirtyMark, PagePool.setPin, h.faults,
        Nat.not_le.mpr (PagePool.firstFree_spec hfree).1]
    | none =>
      simp only
      split
      · exact fun _ _ => rfl
      · intro q hq
        simp only [PagePool.takeFault, h.faults, ne_eq, not_true_eq_false, if_false] at hq ⊢
        exact Function.update_of_ne hq ..
  have husable {p : PageId} {s' : RecordPool} (ht : PagePool.Taken s p s') (hp : p < s'.pagesNum)
      (hpages : s.pagesNum ≤ s'.pagesNum)
      (hpins : ∀ q, s.disposedPages q = true → 0 < s'.pinCount q) : Usable s' := by
    refine ⟨ht.faults.trans h.faults, fun q hq => ?_, ?_, fun q hq => hpins q (ht.waiting ▸ hq)⟩
    · rw [ht.bitmap] at hq
      by_cases he : q = p
      · exact he ▸ hp
      · exact Nat.lt_of_lt_of_le (h.bounded q (by simpa [Function.update_of_ne he] using hq)) hpages
    · rw [ht.bitmap]
      by_cases he : PagePool.headerPage = p
      · rw [he, Function.update_self]
      · rw [Function.update_of_ne he]
        exact h.header
  have hheld {p : PageId} {s' : RecordPool} (ht : PagePool.Taken s p s') (hpin : 0 < s'.pinCount p)
      (hpages : ∀ q, q < s'.pagesNum → q ≠ p → q < s.pagesNum)
      (hpins : ∀ q, q ≠ p → s'.pinCount q = s.pinCount q) (hh : Held s) : Held s' := by
    intro q hne hlt
    rw [ht.bitmap]
    by_cases he : q = p
    · subst he
      exact ⟨Function.update_self .., hpin⟩
    · rw [Function.update_of_ne he, hpins q he]
      exact hh q hne (hpages q hlt he)
  rcases PagePool.allocatePage_cases h.faults with ⟨i, s', hfree, heq, ht, hpages, hpins⟩ |
    ⟨-, r, hr, heq⟩ | ⟨-, hlimit, s', heq, ht, hpages, hpins⟩
  · obtain ⟨hlt, hbit⟩ := PagePool.firstFree_spec hfree
    rw [heq] at hdata
    refine .inr ⟨i, s', heq, hbit, hpages ▸ hlt, hpages.ge, husable ht (hpages ▸ hlt) hpages.ge fun q hq => ?_,
      hheld ht ?_ (fun q hq _ => hpages ▸ hq) (fun q hq => ?_), hdata, ht.bitmap⟩
    · rw [hpins]
      by_cases he : q = i
      · simp [he]
      · rw [Function.update_of_ne he]
        exact h.waiting q hq
    · rw [hpins, Function.update_self]
      exact Nat.succ_pos _
    · rw [hpins, Function.update_of_ne hq]
  · exact .inl ⟨r, _, hr, heq, ⟨h.faults, h.bounded, h.header, h.waiting⟩, rfl, rfl, id⟩
  · have hbit : s.bitmap s.pagesNum = false := by
      by_contra hc
      exact Nat.lt_irrefl _ (h.bounded _ (Bool.eq_true_of_not_eq_false hc))
    have hp : s.pagesNum < s'.pagesNum := by rw [hpages]; exact Nat.lt_succ_self _
    rw [heq] at hdata
    refine .inr ⟨s.pagesNum, s', heq, hbit, hp, hp.le, husable ht hp hp.le fun q hq => ?_,
      hheld ht ?_ (fun q hq hne => ?_) (fun q hq => ?_), hdata, ht.bitmap⟩
    · rw [hpins]
      by_cases he : q = s.pagesNum
      · simp [he]
      · rw [Function.update_of_ne he]
        exact h.waiting q hq
    · rw [hpins, Function.update_self]
      exact Nat.one_pos
    · exact Nat.lt_of_le_of_ne (Nat.le_of_lt_succ (hq.trans_eq hpages)) hne
    · rw [hpins, Function.update_of_ne hq]

/-- A new page takes the record unless records of this size do not fit on a page. -/
theorem insertIntoNewPage_spec {s : RecordPool} (recordSize : Nat) (bs : List UInt8) (h : Usable s) :
    (∃ r s', r ≠ .success ∧ RecordFileHandler.insertIntoNewPage recordSize s bs = (r, none, s', []) ∧
      Usable s' ∧ s'.pageData = s.pageData ∧ s'.bitmap = s.bitmap ∧ (Held s → Held s')) ∨
    ∃ p s' m, s.bitmap p = false ∧ s'.bitmap p = true ∧ p < s'.pagesNum ∧ Writes s s' p m ∧
      ((∃ r, r ≠ .success ∧ m = (fun _ => none) ∧
        RecordFileHandler.insertIntoNewPage recordSize s bs = (r, none, s', [p])) ∨
      ∃ slot, m = Function.update (fun _ => none) slot (some bs) ∧
        RecordFileHandler.insertIntoNewPage recordSize s bs = (.success, some (p, slot), s', [p])) := by
  unfold RecordFileHandler.insertIntoNewPage
  rcases allocatePage_fresh h with ⟨r, s', hr, heq, hu, hdata, hbits, hheld⟩ |
    ⟨p, s', heq, hbit, hp, hpages, hu, hheld, hdata, hbits⟩
  · rw [heq]
    exact .inl ⟨r, s', hr, by simp [hr], hu, hdata, hbits, hheld⟩
  · right
    rw [heq]
    obtain ⟨g, hg⟩ : ∃ g, (s'.pageData p).initEmpty recordSize = g := ⟨_, rfl⟩
    have hget : g.get = fun _ => none := hg ▸ RecordPage.get_initEmpty recordSize
    obtain ⟨s2, hs2⟩ : ∃ s2 : RecordPool, (s'.setData p g).flushPage p = s2 := ⟨_, rfl⟩
    have hu2 : Usable s2 := hs2 ▸ ⟨hu.faults, hu.bounded, hu.header, hu.waiting⟩
    have hinit : RecordPageHandler.initEmptyPage s' p recordSize = (.success, s2.pinned p) := by
      unfold RecordPageHandler.initEmptyPage
      rw [hu.getPage hp, ← hs2, ← hg]
      rfl
    have hpage : s2.pageData p = g := by
      rw [← hs2]
      exact Function.update_self ..
    have hothers : ∀ q, q ≠ p → s2.pageData q = s.pageData q := fun q hq => by
      rw [← hs2, ← hdata q hq]
      exact Function.update_of_ne hq ..
    have hbits2 : s2.bitmap = Function.update s.bitmap p true := hs2 ▸ hbits
    simp only [ne_eq, not_true_eq_false, if_false, hinit, pinned_unpinPage hu2]
    cases hfull : (s2.pageData p).isFull with
    | true =>
      rw [RecordPageHandler.insertRecord_full bs hfull]
      refine ⟨p, s2, fun _ => none, hbit, by rw [hbits2, Function.update_self], hs2 ▸ hp,
        ⟨hu2, hs2 ▸ hpages, hpage ▸ hget, hothers, fun q hq => by rw [hbits2, Function.update_of_ne hq],
          hs2 ▸ hheld⟩,
        .inl ⟨.recordNoMem, by decide, rfl, rfl⟩⟩
    | false =>
      obtain ⟨slot, g', heq', -, hget'⟩ := RecordPageHandler.insertRecord_spec bs hfull
      rw [heq']
      rw [hpage, hget] at hget'
      refine ⟨p, _, _, hbit, ?_, hs2 ▸ hp, ⟨hu2.setData.dirtyMark, hs2 ▸ hpages, ?_, fun q hq => ?_,
        fun q hq => ?_, hs2 ▸ hheld⟩, .inr ⟨slot, hget', rfl⟩⟩
      · exact (congrFun hbits2 p).trans (Function.update_self ..)
      · exact congrArg RecordPage.get (Function.update_self ..)
      · exact (Function.update_of_ne hq ..).trans (hothers q hq)
      · exact (congrFun hbits2 q).trans (Function.update_of_ne hq ..)

/-- The loop drops full pages, which leave the pool as it was. -/
theorem insertLoop_spec {s : RecordPool} {free : List PageId} (recordSize : Nat) (bs : List UInt8)
    (h : Usable s) (hfree : ∀ p ∈ free, p < s.pagesNum) :
    (∃ p rest, free.find? (fun p => !(s.pageData p).isFull) = some p ∧ rest ⊆ free ∧
      RecordFileHandler.insertLoop recordSize bs s free =
        ((RecordPageHandler.insertRecord (s.pinned p) p bs).1,
          (RecordPageHandler.insertRecord (s.pinned p) p bs).2.1,
          (RecordPageHandler.insertRecord (s.pinned p) p bs).2.2, rest)) ∨
    (free.find? (fun p => !(s.pageData p).isFull) = none ∧
      RecordFileHandler.insertLoop recordSize bs s free =
        RecordFileHandler.insertIntoNewPage recordSize s bs) := by
  induction free with
  | nil => exact .inr ⟨rfl, rfl⟩
  | cons p free ih =>
    have hget := h.getPage (hfree p List.mem_cons_self)
    cases hfull : (s.pageData p).isFull with
    | false =>
      have hfull' : ((s.pinned p).pageData p).isFull = false := hfull
      refine .inl ⟨p, p :: free, ?_, List.Subset.refl _, ?_⟩
      · rw [List.find?_cons, hfull]
        rfl
      · simp only [RecordFileHandler.insertLoop, hget, ne_eq, not_true_eq_false, if_false, hfull', if_true]
    | true =>
      have hfull' : ((s.pinned p).pageData p).isFull = true := hfull
      have hloop : RecordFileHandler.insertLoop recordSize bs s (p :: free) =
          RecordFileHandler.insertLoop recordSize bs s free := by
        simp only [RecordFileHandler.insertLoop, hget, ne_eq, not_true_eq_false, if_false, hfull',
          Bool.true_eq_false, pinned_unpinPage h]
      rw [hloop, List.find?_cons, hfull]
      rcases ih fun q hq => hfree q (List.mem_cons_of_mem _ hq) with ⟨q, rest, hq, hsub, heq⟩ | hnew
      · exact .inl ⟨q, rest, hq, List.subset_cons_of_subset p hsub, heq⟩
      · exact .inr hnew

/-- `InsertRecord` on a page that `free_pages_` offers, or on a new one. -/
theorem insertRecord_spec (bs : List UInt8) (h : Usable f.pool)
    (hfree : ∀ p ∈ f.freePages, p < f.pool.pagesNum) :
    (∃ p rest slot s', f.offered = some p ∧ p ∈ f.freePages ∧ rest ⊆ f.freePages ∧
      f.insertRecord bs = (.success, some (p, slot), { f with pool := s', freePages := rest }) ∧
      (f.pool.pageData p).get slot = none ∧ s'.bitmap = f.pool.bitmap ∧
      Writes f.pool s' p (Function.update (f.pool.pageData p).get slot (some bs))) ∨
    (f.offered = none ∧ ∃ r s', r ≠ .success ∧
      f.insertRecord bs = (r, none, { f with pool := s', freePages := [] }) ∧
      Usable s' ∧ s'.pageData = f.pool.pageData ∧ s'.bitmap = f.pool.bitmap ∧ (Held f.pool → Held s')) ∨
    (f.offered = none ∧ ∃ p s' m, f.pool.bitmap p = false ∧ s'.bitmap p = true ∧ p < s'.pagesNum ∧
      Writes f.pool s' p m ∧
      ((∃ r, r ≠ .success ∧ m = (fun _ => none) ∧
        f.insertRecord bs = (r, none, { f with pool := s', freePages := [p] })) ∨
      ∃ slot, m = Function.update (fun _ => none) slot (some bs) ∧
        f.insertRecord bs = (.success, some (p, slot), { f with pool := s', freePages := [p] }))) := by
  unfold insertRecord offered
  rcases insertLoop_spec f.recordSize bs h hfree with ⟨p, rest, hfind, hsub, heq⟩ | ⟨hfind, heq⟩
  · left
    have hroom : ((f.pool.pinned p).pageData p).isFull = false := by
      simpa using List.find?_some hfind
    obtain ⟨slot, g, hinsert, hget, hg⟩ := RecordPageHandler.insertRecord_spec bs hroom
    rw [heq, hinsert]
    have hw : Writes f.pool _ p g.get := writes_setData h
    rw [hg] at hw
    exact ⟨p, rest, slot, _, hfind, List.mem_of_find?_eq_some hfind, hsub, rfl, hget, rfl, hw⟩
  · right
    rw [heq]
    rcases insertIntoNewPage_spec f.recordSize bs h with ⟨r, s', hr, hnew, hu⟩ |
      ⟨p, s', m, hbit, hbit', hp, hw, ⟨r, hr, hm, hnew⟩ | ⟨slot, hm, hnew⟩⟩
    · rw [hnew]
      exact .inl ⟨hfind, r, s', hr, rfl, hu⟩
    · rw [hnew]
      exact .inr ⟨hfind, p, s', m, hbit, hbit', hp, hw, .inl ⟨r, hr, hm, rfl⟩⟩
    · rw [hnew]
      exact .inr ⟨hfind, p, s', m, hbit, hbit', hp, hw, .inr ⟨slot, hm, rfl⟩⟩

/-- The search for free pages leaves the pool as it was and finds data pages of the file. -/
theorem initFreePages_spec {s : RecordPool} {p : PageId} {free : List PageId} (fuel : Nat) (h : Usable s)
    (hbit : s.bitmap p = true) (hfuel : s.pagesNum < p + fuel)
    (hfree : ∀ q ∈ free, q ≠ PagePool.headerPage ∧ q < s.pagesNum) :
    ∃ free', RecordFileHandler.initFreePages fuel s s.pagesNum p free = some (s, free') ∧
      ∀ q ∈ free', q ≠ PagePool.headerPage ∧ q < s.pagesNum := by
  induction fuel generalizing p free with
  | zero => exact absurd (h.bounded _ hbit) (Nat.lt_asymm hfuel)
  | succ fuel ih =>
    unfold RecordFileHandler.initFreePages
    rcases nextSetBit_cases s.pagesNum (startsRight_of_bit hbit) with ⟨hnone, -⟩ | ⟨q, hsome, hle, hlt, hq, -⟩
    · rw [hnone]
      exact ⟨free, rfl, hfree⟩
    · have hne : q ≠ PagePool.headerPage := fun h0 => Nat.not_succ_le_zero _ (h0 ▸ hle)
      simp only [hsome, h.getPage hlt, ne_eq, not_true_eq_false, if_false, pinned_unpinPage h]
      refine ih hq (by omega) fun k hk => ?_
      split at hk
      · exact hfree k hk
      · rcases List.mem_insert_iff.mp hk with rfl | hk
        · exact ⟨hne, hlt⟩
        · exact hfree k hk

theorem init_spec {s : RecordPool} (recordSize : Nat) (h : Usable s) :
    ∃ free, RecordFileHandler.init recordSize s = some ⟨recordSize, s, free⟩ ∧
      ∀ p ∈ free, p ≠ PagePool.headerPage ∧ p < s.pagesNum := by
  obtain ⟨free, heq, hfree⟩ := initFreePages_spec (s.pagesNum + 1) h h.header
    (Nat.lt_add_left _ (Nat.lt_succ_self _)) (List.forall_mem_nil fun q => q ≠ PagePool.headerPage ∧ q < s.pagesNum)
  exact ⟨free, congrArg (Option.map _) heq, hfree⟩

end RecordFile

end Idmbs
