import Idmbs.Storage.RecordHandler

/-!
# Idmbs.Storage.RecordPins

Which calls of `RecordFileHandler` (storage/record.cpp) give back the pins they take. The handler of a page
has no destructor, so its pin is lost unless the call ends before the page is loaded or empties the page.
-/

namespace Idmbs

open BitMap

namespace PagePool

variable {δ : Type} {s t u : PagePool δ} {p : PageId}

/-- Only pages of the file are pinned. -/
def PinsInFile (s : PagePool δ) : Prop := ∀ p, s.pagesNum ≤ p → s.pinCount p = 0

theorem newFile_pinsInFile [Inhabited δ] : (newFile : PagePool δ).PinsInFile := by
  intro p hp
  exact if_neg (Nat.pos_iff_ne_zero.mp hp)

/-- From `s` to `t` the file does not shrink, and new pins are on pages of the file. -/
structure PinsWithin (s t : PagePool δ) : Prop where
  pagesNum : s.pagesNum ≤ t.pagesNum
  pinCount : ∀ p, t.pagesNum ≤ p → t.pinCount p ≤ s.pinCount p

namespace PinsWithin

theorem of_eq (hpins : t.pinCount = s.pinCount) (hnum : t.pagesNum = s.pagesNum) : s.PinsWithin t :=
  ⟨le_of_eq hnum.symm, fun p _ => le_of_eq (congrFun hpins p)⟩

theorem trans (h : s.PinsWithin t) (h' : t.PinsWithin u) : s.PinsWithin u := by
  refine ⟨h.pagesNum.trans h'.pagesNum, fun p hp => ?_⟩
  exact (h'.pinCount p hp).trans (h.pinCount p (h'.pagesNum.trans hp))

theorem pinsInFile (h : s.PinsWithin t) (hs : s.PinsInFile) : t.PinsInFile := by
  intro p hp
  have hle := h.pinCount p hp
  rw [hs p (h.pagesNum.trans hp)] at hle
  exact Nat.le_zero.mp hle

end PinsWithin

theorem takeFault_pins (s : PagePool δ) :
    s.takeFault.2.pinCount = s.pinCount ∧ s.takeFault.2.pagesNum = s.pagesNum := by
  unfold takeFault
  split
  · exact ⟨rfl, rfl⟩
  · exact ⟨rfl, rfl⟩

theorem getPage_pins (s : PagePool δ) (p : PageId) :
    s.PinsWithin (s.getPage p).2 ∧
      ((s.getPage p).1 = .success ∧
          (s.getPage p).2.pinCount = Function.update s.pinCount p (s.pinCount p + 1) ∨
        (s.getPage p).1 ≠ .success ∧ (s.getPage p).2.pinCount = s.pinCount) := by
  obtain ⟨hpins, hnum⟩ := s.takeFault_pins
  unfold getPage
  rcases ht : s.takeFault with ⟨r, s'⟩
  rw [ht] at hpins hnum
  simp only at hpins hnum ⊢
  split
  · rename_i hr
    exact ⟨.of_eq hpins hnum, .inr ⟨hr, hpins⟩⟩
  · split
    · exact ⟨.of_eq hpins hnum, .inr ⟨nofun, hpins⟩⟩
    · rename_i hp
      refine ⟨⟨le_of_eq hnum.symm, fun q hq => ?_⟩, .inl ⟨rfl, by simp only [setPin, hpins]⟩⟩
      -- a page behind the end of the file is not the one that is pinned
      have hne : q ≠ p := fun e => hp (e ▸ hq)
      exact le_of_eq ((Function.update_of_ne hne _ _).trans (congrFun hpins q))

theorem pinCount_unpinned {t : PagePool δ} (h : t.pinCount = Function.update s.pinCount p (s.pinCount p + 1)) :
    (t.unpinPage p).pinCount = s.pinCount := by
  rw [pinCount_unpinPage, h, Function.update_self, Function.update_idem, Nat.add_sub_cancel, Function.update_eq_self]

theorem pinCount_kept {t : PagePool δ} (h : t.pinCount = Function.update s.pinCount p (s.pinCount p + 1)) :
    t.pinCount ≠ s.pinCount := by
  intro heq
  have hp := congrFun (heq.symm.trans h) p
  rw [Function.update_self] at hp
  omega

theorem pagesNum_unpinned (s : PagePool δ) (p : PageId) : (s.unpinPage p).pagesNum = s.pagesNum := by
  unfold unpinPage
  simp only
  split
  · simp [released, setPin]
  · rfl

theorem unpinPage_within (s : PagePool δ) (p : PageId) : s.PinsWithin (s.unpinPage p) := by
  refine ⟨le_of_eq (s.pagesNum_unpinned p).symm, fun q _ => ?_⟩
  rw [pinCount_unpinPage]
  by_cases hq : q = p
  · subst hq
    rw [Function.update_self]
    exact Nat.sub_le _ _
  · rw [Function.update_of_ne hq]

theorem allocatePage_pins [Inhabited δ] (h : s.PinsInFile) :
    s.PinsWithin s.allocatePage.2.2 ∧
      (s.allocatePage.1 = .success ∧ s.allocatePage.2.2.pinCount =
          Function.update s.pinCount s.allocatePage.2.1 (s.pinCount s.allocatePage.2.1 + 1) ∨
        s.allocatePage.1 ≠ .success ∧ s.allocatePage.2.2.pinCount = s.pinCount) := by
  unfold allocatePage
  cases s.firstFree with
  | some i =>
    obtain ⟨hwithin, hpins⟩ := getPage_pins (({ s with
      allocatedPagesNum := s.allocatedPagesNum + 1
      bitmap := Function.update s.bitmap i true } : PagePool δ).dirtyMark headerPage) i
    exact ⟨⟨hwithin.pagesNum, hwithin.pinCount⟩, hpins⟩
  | none =>
    obtain ⟨hpins, hnum⟩ := s.takeFault_pins
    simp only
    split
    · exact ⟨.of_eq rfl rfl, .inr ⟨nofun, rfl⟩⟩
    · rcases ht : s.takeFault with ⟨r, s'⟩
      rw [ht] at hpins hnum
      simp only at hpins hnum ⊢
      split
      · rename_i hr
        exact ⟨.of_eq hpins hnum, .inr ⟨hr, hpins⟩⟩
      · refine ⟨⟨hnum ▸ Nat.le_succ _, fun q hq => ?_⟩, .inl ⟨rfl, ?_⟩⟩
        · have hlt : s.pagesNum < q := hnum ▸ Nat.lt_of_succ_le hq
          exact le_of_eq ((Function.update_of_ne hlt.ne' _ _).trans (congrFun hpins q))
        · rw [h _ le_rfl, ← hpins]
          rfl

end PagePool

/-- The calls that change records. -/
inductive RecordCall
  | insertRecord (data : List UInt8)
  | updateRecord (rid : Slot) (data : List UInt8)
  | deleteRecord (rid : Slot)

namespace RecordFile

def call (f : RecordFile) : RecordCall → RecordFile
  | .insertRecord data => (f.insertRecord data).2.2
  | .updateRecord rid data => (f.updateRecord rid data).2
  | .deleteRecord rid => (f.deleteRecord rid).2

def calls (f : RecordFile) (cs : List RecordCall) : RecordFile := cs.foldl call f

/-- `InsertRecord` gets no page: the full pages of `free_pages_` are skipped, and the first other one cannot
be loaded; or no page is left there, and no new one is to be had. -/
def NoPage : RecordPool → List PageId → Prop
  | pool, [] => pool.allocatePage.1 ≠ .success ∨
      (pool.allocatePage.2.2.getPage pool.allocatePage.2.1).1 ≠ .success
  | pool, p :: free => (pool.getPage p).1 ≠ .success ∨
      ((pool.getPage p).2.pageData p).isFull = true ∧ NoPage ((pool.getPage p).2.unpinPage p) free

/-- The page of the call is not loaded, or it is deleted with its last record. -/
def EndsUnpinned (f : RecordFile) : RecordCall → Prop
  | .insertRecord _ => NoPage f.pool f.freePages
  | .updateRecord rid _ => (f.pool.getPage rid.1).1 ≠ .success
  | .deleteRecord rid => (f.pool.getPage rid.1).1 ≠ .success ∨
      ((f.pool.getPage rid.1).2.pageData rid.1).bits rid.2 = true ∧
        rid.2 < ((f.pool.getPage rid.1).2.pageData rid.1).recordCapacity ∧
          ((f.pool.getPage rid.1).2.pageData rid.1).recordNum = 1

end RecordFile

namespace RecordFileHandler

variable {pool : RecordPool} {p : PageId}

theorem insertRecord_pins (pool : RecordPool) (p : PageId) (data : List UInt8) :
    (RecordPageHandler.insertRecord pool p data).2.2.pinCount = pool.pinCount ∧
      (RecordPageHandler.insertRecord pool p data).2.2.pagesNum = pool.pagesNum := by
  unfold RecordPageHandler.insertRecord
  simp only
  split
  · exact ⟨rfl, rfl⟩
  · split
    · split
      · exact ⟨rfl, rfl⟩
      · exact ⟨rfl, rfl⟩
    · exact ⟨rfl, rfl⟩

theorem updateRecord_pins (pool : RecordPool) (rid : Slot) (data : List UInt8) :
    (RecordPageHandler.updateRecord pool rid data).2.pinCount = pool.pinCount ∧
      (RecordPageHandler.updateRecord pool rid data).2.pagesNum = pool.pagesNum := by
  unfold RecordPageHandler.updateRecord
  simp only
  split
  · exact ⟨rfl, rfl⟩
  · split
    · exact ⟨rfl, rfl⟩
    · exact ⟨rfl, rfl⟩

theorem insertIntoNewPage_pins (recordSize : Nat) (data : List UInt8) (h : pool.PinsInFile) :
    pool.PinsWithin (insertIntoNewPage recordSize pool data).2.2.1 ∧
      ((insertIntoNewPage recordSize pool data).2.2.1.pinCount = pool.pinCount ↔ RecordFile.NoPage pool []) := by
  obtain ⟨hwithin, hcase⟩ := PagePool.allocatePage_pins h
  unfold insertIntoNewPage RecordFile.NoPage
  rcases ha : pool.allocatePage with ⟨r, p, pool1⟩
  rw [ha] at hwithin hcase
  simp only at hwithin hcase ⊢
  rcases hcase with ⟨rfl, hpins⟩ | ⟨hr, hpins⟩
  · obtain ⟨hwithin1, hget⟩ := PagePool.getPage_pins pool1 p
    unfold RecordPageHandler.initEmptyPage
    rcases hg : pool1.getPage p with ⟨r, pool2⟩
    rw [hg] at hwithin1 hget
    simp only at hwithin1 hget
    simp only [ne_eq, not_true_eq_false, if_false, false_or]
    rcases hget with ⟨rfl, hpins2⟩ | ⟨hr, hpins2⟩
    · simp only [not_true_eq_false, if_false, iff_false]
      obtain ⟨hins, hinsNum⟩ := insertRecord_pins
        (((pool2.setData p ((pool2.pageData p).initEmpty recordSize)).flushPage p).unpinPage p) p data
      have hinit : pool2.PinsWithin ((pool2.setData p ((pool2.pageData p).initEmpty recordSize)).flushPage p) :=
        .of_eq rfl rfl
      refine ⟨?_, PagePool.pinCount_kept (p := p) ?_⟩
      · exact (((hwithin.trans hwithin1).trans hinit).trans (PagePool.unpinPage_within _ p)).trans
          (.of_eq hins hinsNum)
      · rw [hins, PagePool.pinCount_unpinned (show ((pool2.setData p ((pool2.pageData p).initEmpty
          recordSize)).flushPage p).pinCount = _ from hpins2), hpins]
    · simp only [hr, not_false_eq_true, if_true, iff_true]
      refine ⟨?_, ?_⟩
      · exact (hwithin.trans hwithin1).trans (PagePool.unpinPage_within pool2 p)
      · exact PagePool.pinCount_unpinned (hpins2.trans hpins)
  · simp only [if_pos hr]
    exact ⟨hwithin, iff_of_true hpins (.inl hr)⟩

theorem insertLoop_pins (recordSize : Nat) (data : List UInt8) : ∀ {free : List PageId} {pool : RecordPool},
    pool.PinsInFile → pool.PinsWithin (insertLoop recordSize data pool free).2.2.1 ∧
      ((insertLoop recordSize data pool free).2.2.1.pinCount = pool.pinCount ↔ RecordFile.NoPage pool free) := by
  intro free
  induction free with
  | nil => exact fun h => insertIntoNewPage_pins recordSize data h
  | cons p free ih =>
    intro pool h
    obtain ⟨hwithin, hget⟩ := PagePool.getPage_pins pool p
    rw [insertLoop, RecordFile.NoPage]
    rcases hg : pool.getPage p with ⟨r, pool1⟩
    rw [hg] at hwithin hget
    simp only at hwithin hget ⊢
    rcases hget with ⟨rfl, hpins⟩ | ⟨hr, hpins⟩
    · simp only [ne_eq, not_true_eq_false, if_false, false_or]
      cases hfull : (pool1.pageData p).isFull with
      | false =>
        obtain ⟨hins, hinsNum⟩ := insertRecord_pins pool1 p data
        simp only [if_true, Bool.false_eq_true, false_and, iff_false]
        exact ⟨hwithin.trans (.of_eq hins hinsNum), PagePool.pinCount_kept (hins.trans hpins)⟩
      | true =>
        have hback : (pool1.unpinPage p).pinCount = pool.pinCount := PagePool.pinCount_unpinned hpins
        have hwithin1 := hwithin.trans (PagePool.unpinPage_within pool1 p)
        obtain ⟨hwithin2, hrest⟩ := ih (hwithin1.pinsInFile h)
        rw [hback] at hrest
        simp only [Bool.true_eq_false, if_false, true_and]
        exact ⟨hwithin1.trans hwithin2, hrest⟩
    · simp only [if_pos hr]
      exact ⟨hwithin, iff_of_true hpins (.inl hr)⟩

theorem deleteRecord_pins {pool1 : RecordPool} (rid : Slot)
    (hpins : pool1.pinCount = Function.update pool.pinCount rid.1 (pool.pinCount rid.1 + 1)) :
    pool1.PinsWithin (RecordPageHandler.deleteRecord pool1 rid).2 ∧
      ((RecordPageHandler.deleteRecord pool1 rid).2.pinCount = pool.pinCount ↔
        (pool1.pageData rid.1).bits rid.2 = true ∧ rid.2 < (pool1.pageData rid.1).recordCapacity ∧
          (pool1.pageData rid.1).recordNum = 1) := by
  have hkept := PagePool.pinCount_kept hpins
  unfold RecordPageHandler.deleteRecord
  simp only
  split
  · rename_i hlt
    split
    · rename_i hbit
      have hone : ((pool1.pageData rid.1).clearBit rid.2 hlt hbit).recordNum = 0 ↔
          (pool1.pageData rid.1).recordNum = 1 := by
        rw [RecordPage.clearBit]
        simp only
        omega
      split
      · rename_i hlast
        refine ⟨?_, iff_of_true ?_ ⟨hbit, hlt, hone.mp hlast⟩⟩
        · have hclear : pool1.PinsWithin ((pool1.setData rid.1
              ((pool1.pageData rid.1).clearBit rid.2 hlt hbit)).dirtyMark rid.1) := .of_eq rfl rfl
          exact (hclear.trans (PagePool.unpinPage_within _ rid.1)).trans
            (.of_eq (PagePool.pinCount_disposePage _ _) (PagePool.pagesNum_disposePage _ _))
        · rw [PagePool.pinCount_disposePage, RecordPageHandler.destroy]
          exact PagePool.pinCount_unpinned hpins
      · rename_i hmore
        exact ⟨.of_eq rfl rfl, iff_of_false hkept fun h => hmore (hone.mpr h.2.2)⟩
    · rename_i hbit
      exact ⟨.of_eq rfl rfl, iff_of_false hkept fun h => hbit h.1⟩
  · rename_i hlt
    exact ⟨.of_eq rfl rfl, iff_of_false hkept fun h => hlt h.2.1⟩

end RecordFileHandler

namespace RecordFile

variable {f : RecordFile}

theorem call_pins (h : f.pool.PinsInFile) (c : RecordCall) :
    f.pool.PinsWithin (f.call c).pool ∧
      ((f.call c).pool.pinCount = f.pool.pinCount ↔ f.EndsUnpinned c) := by
  cases c with
  | insertRecord data => exact RecordFileHandler.insertLoop_pins f.recordSize data h
  | updateRecord rid data =>
    obtain ⟨hwithin, hget⟩ := f.pool.getPage_pins rid.1
    unfold call updateRecord EndsUnpinned
    rcases hg : f.pool.getPage rid.1 with ⟨r, pool⟩
    simp only [hg] at hwithin hget ⊢
    rcases hget with ⟨rfl, hpins⟩ | ⟨hr, hpins⟩
    · obtain ⟨hupd, hupdNum⟩ := RecordFileHandler.updateRecord_pins pool rid data
      simp only [ne_eq, not_true_eq_false, if_false, iff_false]
      exact ⟨hwithin.trans (.of_eq hupd hupdNum), PagePool.pinCount_kept (hupd.trans hpins)⟩
    · simp only [if_pos hr]
      exact ⟨hwithin, iff_of_true hpins hr⟩
  | deleteRecord rid =>
    obtain ⟨hwithin, hget⟩ := f.pool.getPage_pins rid.1
    unfold call deleteRecord RecordFileHandler.deleteRecord EndsUnpinned
    rcases hg : f.pool.getPage rid.1 with ⟨r, pool⟩
    simp only [hg] at hwithin hget ⊢
    rcases hget with ⟨rfl, hpins⟩ | ⟨hr, hpins⟩
    · obtain ⟨hdelWithin, hdel⟩ := RecordFileHandler.deleteRecord_pins rid hpins
      simp only [ne_eq, not_true_eq_false, if_false, false_or]
      exact ⟨hwithin.trans hdelWithin, hdel⟩
    · simp only [if_pos hr]
      exact ⟨hwithin, iff_of_true hpins (.inl hr)⟩

/-- Every call of the run ends unpinned. -/
def AllEndUnpinned (f : RecordFile) : List RecordCall → Prop
  | [] => True
  | c :: cs => f.EndsUnpinned c ∧ AllEndUnpinned (f.call c) cs

theorem pinsInFile_calls : ∀ {cs : List RecordCall} {f : RecordFile}, f.pool.PinsInFile →
    (f.calls cs).pool.PinsInFile := by
  intro cs
  induction cs with
  | nil => exact id
  | cons c cs ih => exact fun h => ih ((call_pins h c).1.pinsInFile h)

theorem calls_pins : ∀ {cs : List RecordCall} {f : RecordFile}, f.pool.PinsInFile → f.AllEndUnpinned cs →
    (f.calls cs).pool.pinCount = f.pool.pinCount := by
  intro cs
  induction cs with
  | nil => exact fun _ _ => rfl
  | cons c cs ih =>
    intro f h hall
    obtain ⟨hwithin, hpins⟩ := call_pins h c
    exact (ih (hwithin.pinsInFile h) hall.2).trans (hpins.mpr hall.1)

/-- After any calls, a call leaves all pins as they were exactly when its page is not loaded or goes with
its last record; a run of such calls leaves them as they were at its start. -/
theorem pins_given_back_iff (f : RecordFile) (h : f.pool.PinsInFile) :
    (∀ cs, (f.calls cs).pool.PinsInFile ∧
        ∀ c, ((f.calls cs).call c).pool.pinCount = (f.calls cs).pool.pinCount ↔ (f.calls cs).EndsUnpinned c) ∧
      ∀ cs, f.AllEndUnpinned cs → (f.calls cs).pool.pinCount = f.pool.pinCount := by
  refine ⟨fun cs => ?_, fun cs => calls_pins h⟩
  have hcs : (f.calls cs).pool.PinsInFile := pinsInFile_calls h
  exact ⟨hcs, fun c => (call_pins hcs c).2⟩

/-- A file without records. -/
theorem pins_given_back_iff_empty :
    (empty 8).pool.PinsInFile ∧ ∀ cs c, (((empty 8).calls cs).call c).pool.pinCount =
      ((empty 8).calls cs).pool.pinCount ↔ ((empty 8).calls cs).EndsUnpinned c :=
  ⟨PagePool.newFile_pinsInFile, fun cs =>
    ((pins_given_back_iff (empty 8) PagePool.newFile_pinsInFile).1 cs).2⟩

/-- The first record of a file leaves a pin on its page. -/
theorem not_pins_given_back :
    ¬∀ (f : RecordFile) (c : RecordCall), f.pool.PinsInFile → (f.call c).pool.pinCount = f.pool.pinCount := by
  intro h
  have hpins := congrFun (h (empty 8) (.insertRecord [1, 2, 3, 4, 5, 6, 7, 8]) PagePool.newFile_pinsInFile) 1
  exact absurd hpins (by decide +kernel)

end RecordFile

end Idmbs
