import Idmbs.Storage.RecordMap

/-!
# Idmbs.Storage.RecordSpace

No room is lost: `free_pages_` of `RecordFileHandler` (storage/record.cpp) has every page with a free slot,
through deletions and when the file is opened again, so a page is added to the file only when all are full.
-/

namespace Idmbs

open BitMap RecordPool

/-- A data page of the file with a free slot. -/
def RecordPool.HasRoom (s : RecordPool) (p : PageId) : Prop :=
  p ≠ PagePool.headerPage ∧ s.bitmap p = true ∧ (s.pageData p).isFull = false

/-- No page changes its capacity, and none is allocated. -/
structure RecordPool.Keeps (s s' : RecordPool) : Prop where
  usable : Usable s'
  capacity : ∀ q, (s'.pageData q).recordCapacity = (s.pageData q).recordCapacity
  bits : ∀ q, s'.bitmap q = true → s.bitmap q = true

/-- There was no room on any page, and one page is new. -/
def RecordPool.Takes (recordSize : Nat) (s s' : RecordPool) : Prop :=
  (∀ q, ¬s.HasRoom q) ∧ ∃ p, (s'.pageData p).recordCapacity = pageRecordCapacity (align8 recordSize) ∧
    ∀ q, q ≠ p → s'.pageData q = s.pageData q ∧ s'.bitmap q = s.bitmap q

theorem PagePool.bitmap_disposePage {δ : Type} {s : PagePool δ} {p q : PageId}
    (h : (s.disposePage p).2.bitmap q = true) : s.bitmap q = true := by
  unfold disposePage at h
  split at h
  · exact h
  · by_cases hq : q = p
    · simp [hq] at h
    · simpa [Function.update_of_ne hq] using h

namespace RecordPageHandler

variable {s : RecordPool} {rid : Slot} {bs : List UInt8} {p : PageId}

theorem setData_capacity {g : RecordPage} (hg : g.recordCapacity = (s.pageData p).recordCapacity) (q : PageId) :
    ((s.setData p g).pageData q).recordCapacity = (s.pageData q).recordCapacity := by
  by_cases hq : q = p
  · subst hq
    simpa [PagePool.setData] using hg
  · simp [PagePool.setData, Function.update_of_ne hq]

theorem insertRecord_capacity (bs : List UInt8) (q : PageId) :
    ((insertRecord s p bs).2.2.pageData q).recordCapacity = (s.pageData q).recordCapacity := by
  unfold insertRecord
  simp only
  split
  · rfl
  · split
    · split
      · refine setData_capacity ?_ q
        rfl
      · rfl
    · rfl

theorem initEmptyPage_capacity {s' : RecordPool} {recordSize : Nat}
    (h : initEmptyPage s p recordSize = (.success, s')) :
    (s'.pageData p).recordCapacity = pageRecordCapacity (align8 recordSize) := by
  unfold initEmptyPage at h
  simp only at h
  split at h
  · rename_i hr
    exact absurd (Prod.mk.inj h).1 hr
  · cases h
    simp [PagePool.flushPage, PagePool.setData, RecordPage.initEmpty]

theorem insertIntoNewPage_capacity {s' : RecordPool} {recordSize : Nat} {r : Re} {rid : Option Slot}
    (h : RecordFileHandler.insertIntoNewPage recordSize s bs = (r, rid, s', [p])) :
    (s'.pageData p).recordCapacity = pageRecordCapacity (align8 recordSize) := by
  unfold RecordFileHandler.insertIntoNewPage at h
  simp only at h
  split at h
  · cases h
  · split at h
    · cases h
    · rename_i hinit
      cases h
      rw [insertRecord_capacity, PagePool.pageData_unpinPage]
      exact initEmptyPage_capacity (Prod.ext (not_not.mp hinit) rfl)

end RecordPageHandler

namespace RecordFile

variable {f : RecordFile} {s : RecordPool} {rid : Slot} {bs : List UInt8} {p : PageId} {free : List PageId}

/-- The pages that the loop of `InsertRecord` drops are full. -/
theorem insertLoop_drops (recordSize : Nat) (bs : List UInt8) (h : Usable s) (hfree : ∀ p ∈ free, p < s.pagesNum) :
    (∃ p rest slot s', p ∈ free ∧ RecordFileHandler.insertLoop recordSize bs s free =
        (.success, some (p, slot), s', p :: rest) ∧ s.Keeps s' ∧ s'.bitmap = s.bitmap ∧
      (∀ q, q ≠ p → s'.pageData q = s.pageData q) ∧ s'.pagesNum = s.pagesNum ∧
      (s.pageData p).isFull = false ∧ p :: rest ⊆ free ∧
      ∀ q ∈ free, (s.pageData q).isFull = false → q ∈ p :: rest) ∨
    ((∀ q ∈ free, (s.pageData q).isFull = true) ∧
      RecordFileHandler.insertLoop recordSize bs s free = RecordFileHandler.insertIntoNewPage recordSize s bs) := by
  induction free with
  | nil => exact .inr ⟨List.forall_mem_nil _, rfl⟩
  | cons p free ih =>
    have hget := h.getPage (hfree p List.mem_cons_self)
    rw [RecordFileHandler.insertLoop, hget]
    cases hfull : (s.pageData p).isFull with
    | false =>
      have hfull' : ((s.pinned p).pageData p).isFull = false := hfull
      obtain ⟨slot, g, hinsert, -⟩ := RecordPageHandler.insertRecord_spec bs hfull'
      simp only [ne_eq, not_true_eq_false, if_false, hfull', if_true, hinsert]
      have hcapacity := RecordPageHandler.insertRecord_capacity (s := s.pinned p) (p := p) bs
      rw [hinsert] at hcapacity
      have hkeeps : s.Keeps _ := ⟨h.pinned.setData.dirtyMark, hcapacity, fun _ hq => hq⟩
      refine .inl ⟨p, free, slot, _, List.mem_cons_self, rfl, hkeeps, rfl, fun q hq => ?_, rfl, hfull,
        List.Subset.refl _, fun q hq _ => hq⟩
      exact Function.update_of_ne hq ..
    | true =>
      have hfull' : ((s.pinned p).pageData p).isFull = true := hfull
      simp only [ne_eq, not_true_eq_false, if_false, hfull', Bool.true_eq_false, pinned_unpinPage h]
      rcases ih fun q hq => hfree q (List.mem_cons_of_mem _ hq) with
        ⟨q, rest, slot, s', hq, heq, hkeeps, hbits, hothers, hpages, hroom, hsub, hkept⟩ | ⟨hall, heq⟩
      · refine .inl ⟨q, rest, slot, s', List.mem_cons_of_mem _ hq, heq, hkeeps, hbits, hothers, hpages, hroom,
          List.subset_cons_of_subset p hsub, fun k hk hkroom => ?_⟩
        rcases List.mem_cons.mp hk with rfl | hk
        · rw [hfull] at hkroom
          cases hkroom
        · exact hkept k hk hkroom
      · refine .inr ⟨fun k hk => ?_, heq⟩
        rcases List.mem_cons.mp hk with rfl | hk
        · exact hfull
        · exact hall k hk

/-- An update leaves every page as full as it was. -/
theorem updateRecord_isFull (rid : Slot) (bs : List UInt8) (h : Usable f.pool) : ∃ r s',
    f.updateRecord rid bs = (r, { f with pool := s' }) ∧ f.pool.Keeps s' ∧ s'.bitmap = f.pool.bitmap ∧
    s'.pagesNum = f.pool.pagesNum ∧ ∀ q, (s'.pageData q).isFull = (f.pool.pageData q).isFull := by
  unfold updateRecord
  by_cases hp : rid.1 < f.pool.pagesNum
  · rw [h.getPage hp]
    simp only [ne_eq, not_true_eq_false, if_false]
    have hpinned : f.pool.Keeps (f.pool.pinned rid.1) := ⟨h.pinned, fun _ => rfl, fun _ hq => hq⟩
    unfold RecordPageHandler.updateRecord
    simp only
    split
    · exact ⟨_, _, rfl, hpinned, rfl, rfl, fun _ => rfl⟩
    · split
      · exact ⟨_, _, rfl, hpinned, rfl, rfl, fun _ => rfl⟩
      · refine ⟨_, _, rfl, ⟨h.pinned.setData.dirtyMark, fun q => ?_, fun _ hq => hq⟩, rfl, rfl, fun q => ?_⟩
        · refine RecordPageHandler.setData_capacity (s := f.pool.pinned rid.1) ?_ q
          rfl
        · by_cases hq : q = rid.1
          · subst hq
            simp [PagePool.setData, RecordPage.isFull, RecordPage.setRecordData]
          · simp [PagePool.setData, Function.update_of_ne hq]
  · rw [h.getPage_past hp]
    exact ⟨_, _, rfl, ⟨h, fun _ => rfl, fun _ hq => hq⟩, rfl, rfl, fun _ => rfl⟩

/-- A deletion takes the page out of the file at most. -/
theorem deleteRecord_keeps (h : Usable f.pool) (hne : rid.1 ≠ PagePool.headerPage) :
    f.pool.Keeps (f.deleteRecord rid).2.pool := by
  have husable : Usable (f.deleteRecord rid).2.pool := by
    rcases deleteRecord_spec h hne with ⟨r, s', -, heq, hw, -⟩ | ⟨-, -, s', m, heq, -, hw, -⟩
    · rw [heq]
      exact hw.usable
    · rw [heq]
      exact hw.usable
  unfold deleteRecord RecordFileHandler.deleteRecord at husable ⊢
  by_cases hp : rid.1 < f.pool.pagesNum
  · rw [h.getPage hp] at husable ⊢
    simp only [ne_eq, not_true_eq_false, if_false] at husable ⊢
    unfold RecordPageHandler.deleteRecord at husable ⊢
    simp only at husable ⊢
    split at husable
    · rename_i hslot
      rw [dif_pos hslot]
      split at husable
      · rename_i hbit
        rw [dif_pos hbit]
        have hcapacity := RecordPageHandler.setData_capacity (s := f.pool.pinned rid.1)
          (g := ((f.pool.pinned rid.1).pageData rid.1).clearBit rid.2 hslot hbit) rfl
        split at husable
        · rename_i hnum
          rw [if_pos hnum]
          refine ⟨husable, fun q => ?_, fun q hq => ?_⟩
          · simpa [RecordPageHandler.destroy] using hcapacity q
          · -- the pins of before keep the page, so the pool is as before the call but for the page
            have hmid : Usable ((f.pool.setData rid.1
                ((f.pool.pageData rid.1).clearBit rid.2 hslot hbit)).dirtyMark rid.1) := h.setData.dirtyMark
            have hunpin := pinned_unpinPage (p := rid.1) hmid
            have hbefore := PagePool.bitmap_disposePage hq
            rw [RecordPageHandler.destroy] at hbefore
            exact (congrArg (fun t : RecordPool => t.bitmap q) hunpin).symm.trans hbefore
        · rename_i hnum
          rw [if_neg hnum]
          exact ⟨husable, hcapacity, fun _ hq => hq⟩
      · rename_i hbit
        rw [dif_neg hbit]
        exact ⟨husable, fun _ => rfl, fun _ hq => hq⟩
    · rename_i hslot
      rw [dif_neg hslot]
      exact ⟨husable, fun _ => rfl, fun _ hq => hq⟩
  · rw [h.getPage_past hp]
    exact ⟨h, fun _ => rfl, fun _ hq => hq⟩

theorem deleteRecord_failed (h : Usable f.pool) (hr : (f.deleteRecord rid).1 ≠ .success) :
    ∃ r s', f.deleteRecord rid = (r, { f with pool := s' }) ∧ s'.pagesNum = f.pool.pagesNum ∧
      s'.pageData = f.pool.pageData := by
  unfold deleteRecord RecordFileHandler.deleteRecord at hr ⊢
  by_cases hp : rid.1 < f.pool.pagesNum
  · rw [h.getPage hp] at hr ⊢
    simp only [ne_eq, not_true_eq_false, if_false] at hr ⊢
    by_cases hused : (f.pool.pageData rid.1).get rid.2 = none
    · obtain ⟨r, hfail, heq⟩ := RecordPageHandler.deleteRecord_free (s := f.pool.pinned rid.1) hused
      rw [heq]
      simp only [if_neg hfail]
      exact ⟨r, _, rfl, rfl, rfl⟩
    · obtain ⟨g, -, heq⟩ := RecordPageHandler.deleteRecord_used (s := f.pool.pinned rid.1) hused
      rw [heq] at hr
      exact absurd rfl hr
  · rw [h.getPage_past hp]
    exact ⟨_, _, rfl, rfl, rfl⟩

/-- `InitFreePages` finds every page with room behind `p`. -/
theorem initFreePages_finds (fuel : Nat) (free : List PageId) (h : Usable s) (hbit : s.bitmap p = true)
    (hfuel : s.pagesNum < p + fuel) :
    ∃ free', RecordFileHandler.initFreePages fuel s s.pagesNum p free = some (s, free') ∧ free ⊆ free' ∧
      ∀ q, p < q → s.HasRoom q → q ∈ free' := by
  induction fuel generalizing p free with
  | zero => exact absurd (h.bounded _ hbit) (Nat.lt_asymm hfuel)
  | succ fuel ih =>
    unfold RecordFileHandler.initFreePages
    have hahead : ∀ q, p < q → s.HasRoom q → q ∈ bitsFrom s.bitmap s.pagesNum (p + 1) := fun q hlt hroom =>
      mem_bitsFrom.mpr ⟨hlt, h.bounded q hroom.2.1, hroom.2.1⟩
    rcases nextSetBit_cases s.pagesNum (startsRight_of_bit hbit) with ⟨hnone, hend⟩ | ⟨q, hsome, hle, hlt, hq, hnext⟩
    · rw [hnone]
      refine ⟨free, rfl, List.Subset.refl _, fun k hk hroom => ?_⟩
      rw [hend] at hahead
      exact absurd (hahead k hk hroom) List.not_mem_nil
    · simp only [hsome, h.getPage hlt, ne_eq, not_true_eq_false, if_false, pinned_unpinPage h]
      obtain ⟨free', heq, hsub, hfinds⟩ := ih (if (s.pageData q).isFull then free else free.insert q) hq
        (by omega)
      have hsubset : free ⊆ if (s.pageData q).isFull then free else free.insert q := by
        split
        · exact List.Subset.refl _
        · exact fun k hk => List.mem_insert_of_mem hk
      refine ⟨free', heq, List.Subset.trans hsubset hsub, fun k hk hroom => ?_⟩
      have hmem := hahead k hk hroom
      rw [hnext] at hmem
      rcases List.mem_cons.mp hmem with rfl | hmem
      · apply hsub
        rw [if_neg (by simp [hroom.2.2])]
        exact List.mem_insert_self
      · exact hfinds k (mem_bitsFrom.mp hmem).1 hroom

end RecordFile

namespace RecordSession

/-- `free_pages_` has data pages of the file, and every one with room. -/
structure Packed (x : RecordSession) : Prop where
  usable : Usable x.file.pool
  free : ∀ p ∈ x.file.freePages, p ≠ PagePool.headerPage ∧ p < x.file.pool.pagesNum
  offered : ∀ p, x.file.pool.HasRoom p → p ∈ x.file.freePages

/-- What a call does to the pages of the file. -/
def After (x y : RecordSession) : Prop :=
  y.file.recordSize = x.file.recordSize ∧
  (x.file.pool.Keeps y.file.pool ∨ x.file.pool.Takes x.file.recordSize y.file.pool)

variable {x y : RecordSession} {o : Op} {s : RecordPool} {bs : List UInt8}

/-- A new page is the only one with room when the others have none. -/
theorem packed_newPage {s' : RecordPool} {p : PageId} {n : Nat} {m : Nat → Option (List UInt8)}
    {stored : Slot → Option (List UInt8)} (h : Usable s) (hnone : ∀ q, ¬s.HasRoom q) (hw : Writes s s' p m)
    (hbit : s.bitmap p = false) (hlt : p < s'.pagesNum) : Packed ⟨⟨n, s', [p]⟩, stored⟩ := by
  refine ⟨hw.usable, fun q hq => ?_, fun q hq => ?_⟩
  · rw [List.mem_singleton.mp hq]
    exact ⟨h.ne_headerPage hbit, hlt⟩
  · by_cases he : q = p
    · exact he ▸ List.mem_singleton_self p
    · obtain ⟨hne, hbitq, hroom⟩ := hq
      exact absurd ⟨hne, (hw.bits q he).symm.trans hbitq, (hw.others q he) ▸ hroom⟩ (hnone q)

theorem Packed.insertRecord (h : Packed x) (hc : x.call (.insertRecord bs) = some y) : Packed y ∧ After x y := by
  have hpages : ∀ p ∈ x.file.freePages, p < x.file.pool.pagesNum := fun p hp => (h.free p hp).2
  rcases RecordFile.insertLoop_drops x.file.recordSize bs h.usable hpages with
    ⟨p, rest, slot, s', hp, heq, hkeeps, hbits, hothers, hnum, -, hsub, hkept⟩ | ⟨hfull, heq⟩
  · have hins : x.file.insertRecord bs =
        (.success, some (p, slot), { x.file with pool := s', freePages := p :: rest }) := by
      rw [RecordFile.insertRecord, heq]
    rw [call_inserted hins] at hc
    cases hc
    refine ⟨⟨hkeeps.usable, fun q hq => hnum ▸ h.free q (hsub hq), fun q hq => ?_⟩, rfl, .inl hkeeps⟩
    by_cases he : q = p
    · exact he ▸ List.mem_cons_self
    · obtain ⟨hne, hbit, hroom⟩ := hq
      rw [hothers q he] at hroom
      exact hkept q (h.offered q ⟨hne, hbits ▸ hbit, hroom⟩) hroom
  · -- every page is full, and the only one with room can be the new one
    have hnone : ∀ q, ¬x.file.pool.HasRoom q := by
      intro q hq
      have := hfull q (h.offered q hq)
      rw [hq.2.2] at this
      cases this
    rcases RecordFile.insertIntoNewPage_spec x.file.recordSize bs h.usable with
      ⟨r, s', hr, hnew, hu, hdata, hbits, -⟩ | ⟨p, s', m, hbit, -, hlt, hw, hnew⟩
    · have hins : x.file.insertRecord bs = (r, none, { x.file with pool := s', freePages := [] }) := by
        rw [RecordFile.insertRecord, heq, hnew]
      rw [call_notInserted hins] at hc
      cases hc
      refine ⟨⟨hu, List.forall_mem_nil _, fun q hq => absurd ?_ (hnone q)⟩, rfl,
        .inl ⟨hu, fun q => by rw [hdata], fun q hq => hbits ▸ hq⟩⟩
      obtain ⟨hne, hbit, hroom⟩ := hq
      exact ⟨hne, hbits ▸ hbit, hdata ▸ hroom⟩
    · have htakes (hcapacity : (s'.pageData p).recordCapacity = pageRecordCapacity (align8 x.file.recordSize)) :
          x.file.pool.Takes x.file.recordSize s' :=
        ⟨hnone, p, hcapacity, fun q hq => ⟨hw.others q hq, hw.bits q hq⟩⟩
      rcases hnew with ⟨r, -, -, hnew⟩ | ⟨slot, -, hnew⟩
      · have hins : x.file.insertRecord bs = (r, none, { x.file with pool := s', freePages := [p] }) := by
          rw [RecordFile.insertRecord, heq, hnew]
        rw [call_notInserted hins] at hc
        cases hc
        refine ⟨packed_newPage h.usable hnone hw hbit hlt, rfl, .inr (htakes ?_)⟩
        exact RecordPageHandler.insertIntoNewPage_capacity hnew
      · have hins : x.file.insertRecord bs =
            (.success, some (p, slot), { x.file with pool := s', freePages := [p] }) := by
          rw [RecordFile.insertRecord, heq, hnew]
        rw [call_inserted hins] at hc
        cases hc
        refine ⟨packed_newPage h.usable hnone hw hbit hlt, rfl, .inr (htakes ?_)⟩
        exact RecordPageHandler.insertIntoNewPage_capacity hnew

theorem Packed.updateRecord {rid : Slot} (h : Packed x) (hc : x.call (.updateRecord rid bs) = some y) :
    Packed y ∧ After x y := by
  obtain ⟨r, s', heq, hkeeps, hbits, hnum, hfull⟩ := RecordFile.updateRecord_isFull rid bs h.usable
  unfold call at hc
  simp only [heq] at hc
  split at hc
  · cases hc
  · cases hc
    refine ⟨⟨hkeeps.usable, fun q hq => hnum ▸ h.free q hq, fun q hq => h.offered q ?_⟩, rfl, .inl hkeeps⟩
    obtain ⟨hne, hbit, hroom⟩ := hq
    exact ⟨hne, hbits ▸ hbit, (hfull q).symm.trans hroom⟩

theorem Packed.deleteRecord {rid : Slot} (h : Packed x) (hc : x.call (.deleteRecord rid) = some y) :
    Packed y ∧ After x y := by
  unfold call at hc
  simp only at hc
  split at hc
  · cases hc
  · rename_i hne
    have hkeeps := RecordFile.deleteRecord_keeps h.usable hne
    by_cases hr : (x.file.deleteRecord rid).1 = .success
    · rcases RecordFile.deleteRecord_spec h.usable hne with ⟨r, s', hfail, heq, -⟩ | ⟨hlt, -, s', m, heq, -, hw, -⟩
      · rw [heq] at hr
        exact absurd hr hfail
      · simp only [heq] at hc hkeeps
        cases hc
        refine ⟨⟨hw.usable, fun q hq => ?_, fun q hq => ?_⟩, rfl, .inl hkeeps⟩
        · rcases List.mem_insert_iff.mp hq with rfl | hq
          · exact ⟨hne, Nat.lt_of_lt_of_le hlt hw.pagesNum⟩
          · exact ⟨(h.free q hq).1, Nat.lt_of_lt_of_le (h.free q hq).2 hw.pagesNum⟩
        · by_cases he : q = rid.1
          · exact he ▸ List.mem_insert_self
          · obtain ⟨hne, hbit, hroom⟩ := hq
            exact List.mem_insert_of_mem
              (h.offered q ⟨hne, (hw.bits q he).symm.trans hbit, (hw.others q he) ▸ hroom⟩)
    · obtain ⟨r, s', heq, hnum, hdata⟩ := RecordFile.deleteRecord_failed h.usable hr
      simp only [heq] at hc hkeeps
      cases hc
      refine ⟨⟨hkeeps.usable, fun q hq => hnum ▸ h.free q hq, fun q hq => h.offered q ?_⟩, rfl, .inl hkeeps⟩
      obtain ⟨hne, hbit, hroom⟩ := hq
      exact ⟨hne, hkeeps.bits q hbit, hdata ▸ hroom⟩

theorem packed_init {recordSize : Nat} {stored : Slot → Option (List UInt8)} (hu : Usable s)
    (hc : (RecordFileHandler.init recordSize s).map (⟨·, stored⟩) = some y) :
    Packed y ∧ y.file.recordSize = recordSize ∧ y.file.pool = s := by
  obtain ⟨free, heq, hfree⟩ := RecordFile.init_spec recordSize hu
  obtain ⟨free', hinit, -, hfinds⟩ := RecordFile.initFreePages_finds (s.pagesNum + 1) [] hu hu.header
    (Nat.lt_add_left _ (Nat.lt_succ_self _))
  have hfound : RecordFileHandler.init recordSize s = some ⟨recordSize, s, free'⟩ := congrArg (Option.map _) hinit
  rw [hfound] at heq hc
  cases heq
  cases hc
  exact ⟨⟨hu, hfree, fun q hq => hfinds q (Nat.pos_of_ne_zero hq.1) hq⟩, rfl, rfl⟩

theorem Packed.call (h : Packed x) (hc : x.call o = some y) : Packed y ∧ After x y := by
  cases o with
  | insertRecord bs => exact h.insertRecord hc
  | updateRecord rid bs => exact h.updateRecord hc
  | deleteRecord rid => exact h.deleteRecord hc
  | newHandler =>
    obtain ⟨hy, hsize, hpool⟩ := packed_init (s := x.file.pool.flushAllPages)
      ⟨h.usable.faults, h.usable.bounded, h.usable.header, h.usable.waiting⟩ hc
    refine ⟨hy, hsize, .inl ⟨hy.usable, fun q => ?_, fun q hq => ?_⟩⟩
    · rw [hpool]
      rfl
    · rw [hpool] at hq
      exact hq
  | reopen kept =>
    obtain ⟨hy, hsize, hpool⟩ := packed_init (s := x.file.reopen kept)
      ⟨h.usable.faults, h.usable.bounded, h.usable.header, nofun⟩ hc
    refine ⟨hy, hsize, .inl ⟨hy.usable, fun q => ?_, fun q hq => ?_⟩⟩
    · rw [hpool]
      unfold RecordFile.reopen
      simp only
      split
      · rfl
      · rfl
    · rw [hpool] at hq
      exact hq
  | reorder free =>
    unfold RecordSession.call at hc
    simp only at hc
    split at hc
    · rename_i hperm
      cases hc
      refine ⟨⟨h.usable, fun q hq => h.free q (hperm.mem_iff.mp hq), fun q hq => hperm.mem_iff.mpr (h.offered q hq)⟩,
        rfl, .inl ⟨h.usable, fun _ => rfl, fun _ hq => hq⟩⟩
    · cases hc

theorem Packed.calls {os : List Op} (h : Packed x) (hc : x.calls os = some y) : Packed y := by
  induction os generalizing x with
  | nil =>
    cases hc
    exact h
  | cons o os ih =>
    obtain ⟨z, hz, hrest⟩ := Option.bind_eq_some_iff.mp hc
    exact ih (h.call hz).1 hrest

theorem packed_start (recordSize : Nat) : Packed (start recordSize) := by
  have hinv := Inv.start recordSize
  refine ⟨hinv.usable, hinv.free, fun p hp => absurd ?_ hp.1⟩
  exact eq_of_beq hp.2.1

/-! ## How many pages -/

end RecordSession

/-- The allocated pages without the header. -/
def RecordPool.dataPages (s : RecordPool) : List PageId := bitsFrom s.bitmap s.pagesNum 1

section Pages

variable {s s' : RecordPool} {p : PageId} {capacity recordSize : Nat}

theorem RecordPool.mem_dataPages (h : Usable s) :
    p ∈ s.dataPages ↔ p ≠ PagePool.headerPage ∧ s.bitmap p = true := by
  rw [dataPages, mem_bitsFrom]
  constructor
  · rintro ⟨hpos, -, hbit⟩
    exact ⟨Nat.ne_of_gt hpos, hbit⟩
  · rintro ⟨hne, hbit⟩
    exact ⟨Nat.pos_of_ne_zero hne, h.bounded p hbit, hbit⟩

/-- On full pages there are as many records as slots. -/
theorem RecordPool.length_rows (hfull : ∀ p ∈ s.dataPages, (s.pageData p).isFull = true)
    (hcapacity : ∀ p ∈ s.dataPages, (s.pageData p).recordCapacity = capacity) :
    (rows s).length = s.dataPages.length * capacity := by
  have hslots : ∀ p ∈ s.dataPages, (slotsFrom s p 0).length = capacity := by
    intro p hp
    have hnum : (s.pageData p).recordNum ≥ (s.pageData p).recordCapacity := by
      simpa [RecordPage.isFull] using hfull p hp
    have hle := (s.pageData p).recordNum_le
    have hcounted := (s.pageData p).counted
    rw [slotsFrom, List.length_map]
    have := hcapacity p hp
    omega
  rw [rows, rowsFrom, List.length_flatMap]
  rw [show bitsFrom s.bitmap s.pagesNum 1 = s.dataPages from rfl, List.map_congr_left hslots, List.map_const',
    List.sum_replicate_nat]

end Pages

namespace RecordSession

variable {x y : RecordSession} {o : Op} {os : List Op} {recordSize peak : Nat} {bs : List UInt8}

/-- The data pages have the capacity that `InitEmptyPage` gives them. -/
structure Shaped (recordSize : Nat) (x : RecordSession) : Prop where
  packed : Packed x
  size : x.file.recordSize = recordSize
  capacity : ∀ p ∈ x.file.pool.dataPages,
    (x.file.pool.pageData p).recordCapacity = pageRecordCapacity (align8 recordSize)

/-- A call adds no page, or one when all are full. -/
theorem Shaped.call (h : Shaped recordSize x) (hc : x.call o = some y) : Shaped recordSize y ∧
    (y.file.pool.dataPages.length ≤ x.file.pool.dataPages.length ∨
      y.file.pool.dataPages.length ≤ x.file.pool.dataPages.length + 1 ∧
      (rows x.file.pool).length = x.file.pool.dataPages.length * pageRecordCapacity (align8 recordSize)) := by
  obtain ⟨hy, hsize, hkeeps | ⟨hnone, p, hnew, hothers⟩⟩ := h.packed.call hc
  · have hsub : y.file.pool.dataPages ⊆ x.file.pool.dataPages := by
      intro q hq
      obtain ⟨hne, hbit⟩ := (mem_dataPages hy.usable).mp hq
      exact (mem_dataPages h.packed.usable).mpr ⟨hne, hkeeps.bits q hbit⟩
    refine ⟨⟨hy, hsize.trans h.size, fun q hq => ?_⟩, .inl (nodup_bitsFrom.subperm hsub).length_le⟩
    rw [hkeeps.capacity q]
    exact h.capacity q (hsub hq)
  · have hsub : y.file.pool.dataPages ⊆ p :: x.file.pool.dataPages := by
      intro q hq
      obtain ⟨hne, hbit⟩ := (mem_dataPages hy.usable).mp hq
      by_cases he : q = p
      · exact he ▸ List.mem_cons_self
      · rw [(hothers q he).2] at hbit
        exact List.mem_cons_of_mem p ((mem_dataPages h.packed.usable).mpr ⟨hne, hbit⟩)
    refine ⟨⟨hy, hsize.trans h.size, fun q hq => ?_⟩, .inr ⟨(nodup_bitsFrom.subperm hsub).length_le, ?_⟩⟩
    · by_cases he : q = p
      · rw [he, hnew, h.size]
      · rw [(hothers q he).1]
        exact h.capacity q ((List.mem_cons.mp (hsub hq)).resolve_left he)
    · refine length_rows (fun q hq => ?_) h.capacity
      obtain ⟨hne, hbit⟩ := (mem_dataPages h.packed.usable).mp hq
      by_contra hroom
      exact hnone q ⟨hne, hbit, eq_false_of_ne_true hroom⟩

theorem shaped_start (recordSize : Nat) : Shaped recordSize (start recordSize) := by
  refine ⟨packed_start recordSize, rfl, fun p hp => ?_⟩
  obtain ⟨hne, hbit⟩ := (mem_dataPages (packed_start recordSize).usable).mp hp
  exact absurd (eq_of_beq hbit) hne

theorem Shaped.calls (h : Shaped recordSize x)
    (hpages : (x.file.pool.dataPages.length - 1) * pageRecordCapacity (align8 recordSize) ≤ peak)
    (hpeak : ∀ pre z, pre <+: os → x.calls pre = some z → (rows z.file.pool).length ≤ peak)
    (hc : x.calls os = some y) :
    (y.file.pool.dataPages.length - 1) * pageRecordCapacity (align8 recordSize) ≤ peak := by
  induction os generalizing x with
  | nil =>
    cases hc
    exact hpages
  | cons o os ih =>
    obtain ⟨z, hz, hrest⟩ := Option.bind_eq_some_iff.mp hc
    obtain ⟨hshaped, hgrown⟩ := h.call hz
    refine ih hshaped ?_ (fun pre w hpre hw => ?_) hrest
    · rcases hgrown with hle | ⟨hle, hrows⟩
      · exact Nat.le_trans (Nat.mul_le_mul_right _ (Nat.sub_le_sub_right hle 1)) hpages
      · have hnow := hpeak [] x List.nil_prefix rfl
        rw [hrows] at hnow
        exact Nat.le_trans (Nat.mul_le_mul_right _ (Nat.sub_le_iff_le_add.mpr hle)) hnow
    · exact hpeak (o :: pre) w ((List.prefix_cons_inj o).mpr hpre) (by rw [RecordSession.calls, hz]; exact hw)

/-- The file has never more pages than the most records it had at a time fill, and one: a page is added when all are
full only, in every run of calls, restarts among them. -/
theorem dataPages_le_peak
    (hpeak : ∀ pre z, pre <+: os → (start recordSize).calls pre = some z → (rows z.file.pool).length ≤ peak)
    (hc : (start recordSize).calls os = some x) :
    (x.file.pool.dataPages.length - 1) * pageRecordCapacity (align8 recordSize) ≤ peak := by
  have hnil : (start recordSize).file.pool.dataPages = [] := rfl
  refine (shaped_start recordSize).calls ?_ hpeak hc
  rw [hnil, List.length_nil, Nat.zero_sub, Nat.zero_mul]
  exact Nat.zero_le _

/-- Four records of 4000 bytes fill a page: nine go to three pages, and one that is deleted makes room for the
last. -/
theorem dataPages_le_peak_nine : ∃ x, (start 4000).calls (List.replicate 9 (.insertRecord [1]) ++
      [.deleteRecord (1, 0), .insertRecord [2]]) = some x ∧ x.file.pool.dataPages.length = 3 ∧
    (x.file.pool.dataPages.length - 1) * pageRecordCapacity (align8 4000) ≤ 9 := by
  have hall : ∀ pre ∈ List.inits (List.replicate 9 (.insertRecord [1]) ++ [.deleteRecord (1, 0), .insertRecord [2]]),
      ((start 4000).calls pre).all (fun z => (rows z.file.pool).length ≤ 9) = true := by
    decide +kernel
  obtain ⟨x, hx⟩ := Option.isSome_iff_exists.mp (show ((start 4000).calls (List.replicate 9 (.insertRecord [1]) ++
    [.deleteRecord (1, 0), .insertRecord [2]])).isSome from by decide +kernel)
  have hthree : ((start 4000).calls (List.replicate 9 (.insertRecord [1]) ++
      [.deleteRecord (1, 0), .insertRecord [2]])).map (fun z => z.file.pool.dataPages.length) = some 3 := by
    decide +kernel
  rw [hx] at hthree
  refine ⟨x, hx, Option.some.inj hthree, dataPages_le_peak (fun pre z hpre hz => ?_) hx⟩
  have hmany := hall pre ((List.mem_inits pre _).mpr hpre)
  rw [hz] at hmany
  exact of_decide_eq_true hmany

/-- `free_pages_` has every page with room, so an insertion that could use one does and goes through; one that is
offered no page that was given back and adds none went to such a page. -/
theorem insertRecord_finds_room (hc : (start recordSize).calls os = some x) (bs : List UInt8) :
    (∀ p, x.file.pool.HasRoom p → p ∈ x.file.freePages) ∧
    ((∃ p, x.file.pool.HasRoom p) →
      ∃ rid f, x.file.insertRecord bs = (.success, some rid, f) ∧ f.pool.bitmap = x.file.pool.bitmap) ∧
    (x.Meets (.insertRecord bs) → ∀ rid f, x.file.insertRecord bs = (.success, some rid, f) →
      f.pool.bitmap = x.file.pool.bitmap → x.file.pool.HasRoom rid.1) := by
  have h : Packed x := (packed_start recordSize).calls hc
  have hpages : ∀ p ∈ x.file.freePages, p < x.file.pool.pagesNum := fun p hp => (h.free p hp).2
  refine ⟨h.offered, ?_, ?_⟩
  · rintro ⟨p, hp⟩
    rcases RecordFile.insertLoop_drops x.file.recordSize bs h.usable hpages with
      ⟨q, rest, slot, s', -, heq, -, hbits, -⟩ | ⟨hfull, -⟩
    · refine ⟨(q, slot), { x.file with pool := s', freePages := q :: rest }, ?_, hbits⟩
      rw [RecordFile.insertRecord, heq]
    · have hp' := hfull p (h.offered p hp)
      rw [hp.2.2] at hp'
      cases hp'
  · intro hmeets rid f hins hsame
    rcases RecordFile.insertRecord_spec bs h.usable hpages with
      ⟨q, rest, slot, s', hoff, hq, -, heq, -⟩ | ⟨-, r, s', -, heq, -⟩ | ⟨-, q, s', m, hbit, hbit', -, -, hnew⟩
    · rw [heq] at hins
      cases hins
      refine ⟨(h.free q hq).1, hmeets q hoff, ?_⟩
      simpa using List.find?_some hoff
    · rw [heq] at hins
      cases hins
    · rcases hnew with ⟨r, -, -, heq⟩ | ⟨slot, -, heq⟩
      · rw [heq] at hins
        cases hins
      · rw [heq] at hins
        cases hins
        rw [hsame, hbit] at hbit'
        cases hbit'

/-- The file is opened again, and the next record goes to the page of the first. -/
theorem insertRecord_finds_room_reopened : ∃ x,
    (start 4000).calls [.insertRecord [1], .reopen fun _ => false] = some x ∧
    (∀ p, x.file.pool.HasRoom p → p ∈ x.file.freePages) ∧
    ((∃ p, x.file.pool.HasRoom p) →
      ∃ rid f, x.file.insertRecord [2] = (.success, some rid, f) ∧ f.pool.bitmap = x.file.pool.bitmap) ∧
    (x.Meets (.insertRecord [2]) → ∀ rid f, x.file.insertRecord [2] = (.success, some rid, f) →
      f.pool.bitmap = x.file.pool.bitmap → x.file.pool.HasRoom rid.1) := by
  obtain ⟨x, hx⟩ : ∃ x, (start 4000).calls [.insertRecord [1], .reopen fun _ => false] = some x := ⟨_, rfl⟩
  exact ⟨x, hx, insertRecord_finds_room hx [2]⟩

end RecordSession

end Idmbs
