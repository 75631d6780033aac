import Idmbs.Execute.TableSession

/-!
# Idmbs.Execute.SessionRefines

The table as a multiset of rows, over runs of statements. While the file stays open every page keeps the pin
of the insertion that made it, so no page is given back, and a page that waits for its disposal keeps its
records.
-/

namespace Idmbs

open BitMap RecordPool

/-! ## Pins besides that of the scanner -/

namespace RecordPool

/-- Every data page is allocated and pinned, also without the pin on `o`. -/
def HeldBy (s : RecordPool) (o : Option PageId) : Prop :=
  ∀ p, p ≠ PagePool.headerPage → p < s.pagesNum →
    s.bitmap p = true ∧ (if o = some p then 1 else 0) < s.pinCount p

variable {s s' : RecordPool} {o : Option PageId} {p : PageId}

theorem heldBy_none : HeldBy s none ↔ Held s := by
  refine forall_congr' fun p => ?_
  rw [if_neg (by simp)]

theorem HeldBy.held (h : HeldBy s o) : Held s := by
  intro p hne hlt
  obtain ⟨hbit, hpin⟩ := h p hne hlt
  exact ⟨hbit, Nat.lt_of_le_of_lt (Nat.zero_le _) hpin⟩

theorem HeldBy.pinned (h : HeldBy s none) : HeldBy (s.pinned p) (some p) := by
  intro q hne hlt
  obtain ⟨hbit, hpin⟩ := h q hne hlt
  refine ⟨hbit, ?_⟩
  rw [if_neg (by simp)] at hpin
  by_cases he : q = p
  · subst he
    simp only [PagePool.pinned, PagePool.setPin, Function.update_self, if_true]
    omega
  · rw [if_neg fun hc => he (Option.some.inj hc).symm]
    simpa [PagePool.pinned, PagePool.setPin, Function.update_of_ne he] using hpin

theorem HeldBy.destroy (h : HeldBy s o) (hg : Guarded s o) : HeldBy (RecordPageHandler.destroy s o) none := by
  cases o with
  | none => exact h
  | some p =>
    have hunpin : s.unpinPage p = s.released p :=
      unpinPage_guarded fun hw => by simpa using hg p hw
    change HeldBy (s.unpinPage p) none
    rw [hunpin]
    intro q hne hlt
    obtain ⟨hbit, hpin⟩ := h q hne hlt
    refine ⟨hbit, ?_⟩
    rw [if_neg (by simp)]
    by_cases he : q = p
    · subst he
      rw [if_pos rfl] at hpin
      simp only [PagePool.pinCount_released, Function.update_self]
      omega
    · rw [if_neg fun hc => he (Option.some.inj hc).symm] at hpin
      simpa [Function.update_of_ne he] using hpin

end RecordPool

namespace RecordFileScanner

variable {s t : RecordPool} {c d : RecordFileScanner} {r : Re}

/-- What a scanner keeps of the pool that it reads. -/
structure Holds (s : RecordPool) (c : RecordFileScanner) : Prop where
  faults : s.faults = []
  guarded : Guarded s c.handlerPage
  held : HeldBy s c.handlerPage

theorem fetchPages_holds (fuel : Nat) (h : Holds s c) (hrun : fetchPages fuel s c = some (r, t, d)) :
    Holds t d := by
  induction fuel generalizing s c with
  | zero => cases hrun
  | succ fuel ih =>
    unfold fetchPages at hrun
    split at hrun
    · cases hrun
      exact ⟨h.faults, h.guarded, h.held⟩
    · rename_i p _
      obtain ⟨-, hguard, hfaults⟩ := h.guarded.destroy
      have hheld := h.held.destroy h.guarded
      rcases getPage_calm (p := p) (hfaults.trans h.faults) with ⟨-, hget⟩ | ⟨-, hget⟩
      · simp only [hget, ne_eq, reduceCtorEq, not_false_eq_true, if_true] at hrun
        cases hrun
        exact ⟨hfaults.trans h.faults, hguard, hheld⟩
      · have hhandler := handlerPage_fetchNextRecordInPage
          (s := (RecordPageHandler.destroy s c.handlerPage).pinned p)
          (c := { c with currentPageId := p, handlerPage := some p })
          (RecordPageIterator.init ((RecordPageHandler.destroy s c.handlerPage).pinned p) p)
        have hholds : Holds ((RecordPageHandler.destroy s c.handlerPage).pinned p)
            (fetchNextRecordInPage ((RecordPageHandler.destroy s c.handlerPage).pinned p)
              { c with currentPageId := p, handlerPage := some p }
              (RecordPageIterator.init ((RecordPageHandler.destroy s c.handlerPage).pinned p) p)).2 := by
          refine ⟨hfaults.trans h.faults, ?_, ?_⟩
          · rw [hhandler]
            exact hguard.pinned
          · rw [hhandler]
            exact hheld.pinned
        simp only [hget, ne_eq, not_true_eq_false, if_false] at hrun
        split at hrun
        · cases hrun
          exact hholds
        · exact ih hholds hrun

theorem fetchNextRecord_holds (fuel : Nat) (h : Holds s c) (hrun : fetchNextRecord fuel s c = some (r, t, d)) :
    Holds t d := by
  unfold fetchNextRecord at hrun
  split at hrun
  · exact fetchPages_holds fuel h hrun
  · rename_i it _
    have hhandler := handlerPage_fetchNextRecordInPage (s := s) (c := c) it
    have hholds : Holds s (fetchNextRecordInPage s c it).2 :=
      ⟨h.faults, hhandler ▸ h.guarded, hhandler ▸ h.held⟩
    simp only at hrun
    split at hrun
    · cases hrun
      exact hholds
    · exact fetchPages_holds fuel hholds hrun

theorem next_holds (fuel : Nat) (h : Holds s c) (hrun : next fuel s c = some (r, t, d)) : Holds t d := by
  unfold next at hrun
  split at hrun
  · cases hrun
  · rename_i hfetch
    cases hrun
    exact fetchNextRecord_holds fuel h hfetch

theorem init_holds (fuel : Nat) (hf : s.faults = []) (hg : Guarded s none) (hh : Held s)
    (hrun : init fuel s = some (r, t, d)) : Holds t d := by
  unfold init at hrun
  split at hrun
  · cases hrun
  · rename_i hfetch
    cases hrun
    exact fetchNextRecord_holds fuel ⟨hf, hg, heldBy_none.mpr hh⟩ hfetch

end RecordFileScanner

namespace ScanState

open RecordFileScanner

variable {x y : ScanState} {r : Re} (fuel : Nat)

abbrev Holds (x : ScanState) : Prop := RecordFileScanner.Holds x.pool x.scanner

theorem Holds.steady (h : x.Holds) : x.Steady := ⟨h.faults, h.guarded⟩

theorem tableScan_holds (h : x.Holds) (hrun : x.tableScan fuel = some (r, y)) : y.Holds := by
  unfold tableScan at hrun
  split at hrun
  · cases hrun
    exact h
  · split at hrun
    · cases hrun
    · rename_i hnext
      cases hrun
      exact next_holds fuel h hnext

theorem predicateLoop_holds (passes : List UInt8 → Bool) (n : Nat) (h : x.Holds)
    (hrun : x.predicateLoop fuel passes n = some (r, y)) : y.Holds := by
  induction n generalizing x with
  | zero => cases hrun
  | succ n ih =>
    unfold predicateLoop at hrun
    split at hrun
    · cases hrun
    · rename_i hscan
      have hnext := tableScan_holds fuel h hscan
      split at hrun
      · cases hrun
        exact hnext
      · split at hrun
        · cases hrun
          exact hnext
        · exact ih hnext hrun

end ScanState

theorem selectLoop_holds (snprintf : List UInt8 → List UInt8) (fuel : Nat) (m : TableMeta)
    (passes : List UInt8 → Bool) (fields : List Field) (n : Nat) {sstream sstream' : List UInt8} {x y : ScanState}
    {r : Re} (h : x.Holds) (hrun : selectLoop snprintf fuel m passes fields n sstream x = some (r, sstream', y)) :
    y.Holds := by
  induction n generalizing x sstream with
  | zero => cases hrun
  | succ n ih =>
    unfold selectLoop at hrun
    split at hrun
    · cases hrun
    · rename_i hloop
      have hnext := ScanState.predicateLoop_holds fuel passes fuel h hloop
      split at hrun
      · cases hrun
        exact hnext
      · split at hrun
        · cases hrun
        · exact ih hnext hrun

/-! ## A deletion -/

namespace RecordPool

variable {s s' : RecordPool} {rid : Slot} {o : Option PageId}

/-- What the deletion of a record leaves on a page that stays pinned. -/
structure DeletesHeld (s s' : RecordPool) (rid : Slot) : Prop where
  deletes : Deletes s.calm s'.calm rid
  bitmap : s'.bitmap = s.bitmap
  pins : ∀ p, s.pinCount p ≤ s'.pinCount p
  waiting : ∀ p, s'.disposedPages p = true → s.disposedPages p = true ∨ p = rid.1

theorem live_iff : (live s rid).isSome ↔ s.bitmap rid.1 = true ∧ rid.1 ≠ PagePool.headerPage ∧
    rid.2 < (s.pageData rid.1).recordCapacity ∧ (s.pageData rid.1).bits rid.2 = true := by
  have hmem : rid.2 ∈ (s.pageData rid.1).slots ↔
      rid.2 < (s.pageData rid.1).recordCapacity ∧ (s.pageData rid.1).bits rid.2 = true :=
    mem_bitsFrom.trans (and_iff_right (Nat.zero_le _))
  rw [← hmem]
  unfold RecordPool.live
  split
  · rename_i h
    exact iff_of_true rfl h
  · rename_i h
    exact iff_of_false Bool.false_ne_true h

theorem deleteRecord_held (hs : Scannable s.calm) (hpin : 0 < s.pinCount rid.1) (h : (live s rid).isSome) :
    ∃ s', RecordFileHandler.deleteRecord s rid = (.success, s') ∧ DeletesHeld s s' rid := by
  obtain ⟨hbit, -, hcap, hset⟩ := live_iff.mp h
  have hlt : rid.1 < s.pagesNum := hs.bounded _ hbit
  have hget : s.getPage rid.1 = (.success, s.pinned rid.1) := by
    have hf : s.faults = [] := hs.faults
    simp [PagePool.getPage, PagePool.takeFault, PagePool.pinned, hf, Nat.not_le.mpr hlt]
  obtain ⟨g, hg⟩ : ∃ g, (s.pageData rid.1).clearBit rid.2 hcap hset = g := ⟨_, rfl⟩
  have hwritten : Touches (s.calm.setData rid.1 g)
      (calm (((s.pinned rid.1).setData rid.1 g).dirtyMark rid.1)) rid.1 :=
    ⟨rfl, rfl, rfl, fun _ _ => rfl, .inl rfl, fun _ _ => rfl⟩
  have hdeletes : Deletes s.calm (calm (((s.pinned rid.1).setData rid.1 g).dirtyMark rid.1)) rid :=
    deletes_of_touches (g := g) (by rw [← hg]; rfl) (by rw [← hg]; rfl) (by rw [← hg]; rfl) hwritten
      (.inr ⟨rfl, id⟩)
  have hpins : ∀ p, s.pinCount p ≤ (s.pinned rid.1).pinCount p := by
    intro p
    by_cases he : p = rid.1
    · subst he
      simp [PagePool.pinned, PagePool.setPin]
    · simp [PagePool.pinned, PagePool.setPin, Function.update_of_ne he]
  unfold RecordFileHandler.deleteRecord RecordPageHandler.deleteRecord
  have hcap' : rid.2 < ((s.pinned rid.1).pageData rid.1).recordCapacity := hcap
  have hset' : ((s.pinned rid.1).pageData rid.1).bits rid.2 = true := hset
  simp only [hget, ne_eq, not_true_eq_false, if_false, dif_pos hcap', dif_pos hset']
  have hg' : ((s.pinned rid.1).pageData rid.1).clearBit rid.2 hcap' hset' = g := hg
  rw [hg']
  obtain ⟨t, ht⟩ : ∃ t : RecordPool, ((s.pinned rid.1).setData rid.1 g).dirtyMark rid.1 = t := ⟨_, rfl⟩
  have htpin : t.pinCount rid.1 = s.pinCount rid.1 + 1 := by
    rw [← ht]
    exact Function.update_self ..
  rw [ht] at hdeletes ⊢
  split
  · -- the pin of this call is given back, so the page waits for the others
    have hunpin : t.unpinPage rid.1 = t.setPin rid.1 (s.pinCount rid.1) := by
      rw [PagePool.unpinPage_kept (fun hc => by omega) (by omega), htpin]
      rfl
    have hleft : (t.setPin rid.1 (s.pinCount rid.1)).pinCount = s.pinCount := by
      rw [← ht]
      simp [PagePool.setPin, PagePool.pinned, PagePool.dirtyMark, PagePool.setData]
    have hdestroy : RecordPageHandler.destroy t (some rid.1) = t.setPin rid.1 (s.pinCount rid.1) := hunpin
    rw [hdestroy, PagePool.disposePage_pinned (by rw [hleft]; exact hpin)]
    refine ⟨_, rfl, ⟨⟨hdeletes.capacity, hdeletes.bits, hdeletes.cleared, hdeletes.bytes, hdeletes.pagesNum,
      hdeletes.faults, hdeletes.bitmap, hdeletes.waiting⟩, ?_, fun p => ?_, fun p hp => ?_⟩⟩
    · rw [← ht]
      rfl
    · exact (congrFun hleft p).ge
    · by_cases he : p = rid.1
      · exact .inr he
      · left
        rw [← ht] at hp
        change Function.update s.disposedPages rid.1 true p = true at hp
        rwa [Function.update_of_ne he] at hp
  · refine ⟨t, rfl, hdeletes, by rw [← ht]; rfl, fun p => ?_, fun p hp => ?_⟩
    · rw [← ht]
      exact hpins p
    · left
      rw [← ht] at hp
      exact hp

/-- Writing over the bytes of the deleted record is no further change. -/
theorem DeletesHeld.markDeleted (txnId : Int) (ops : Txn.OperationSet) (h : DeletesHeld s s' rid) :
    DeletesHeld s (Txn.markDeleted txnId ops s' rid) rid := by
  have hcalm : calm (Txn.markDeleted txnId ops s' rid) = Txn.markDeleted txnId ops s'.calm rid := by
    have hbit : s'.calm.bitmap = s'.bitmap := rfl
    unfold Txn.markDeleted
    rw [hbit]
    split
    · rfl
    · rfl
  have hsame : (Txn.markDeleted txnId ops s' rid).bitmap = s'.bitmap ∧
      (Txn.markDeleted txnId ops s' rid).pinCount = s'.pinCount ∧
      (Txn.markDeleted txnId ops s' rid).disposedPages = s'.disposedPages := by
    unfold Txn.markDeleted
    split
    · exact ⟨rfl, rfl, rfl⟩
    · exact ⟨rfl, rfl, rfl⟩
  refine ⟨?_, hsame.1.trans h.bitmap, fun p => ?_, fun p hp => ?_⟩
  · rw [hcalm]
    exact h.deletes.markDeleted
  · rw [hsame.2.1]
    exact h.pins p
  · rw [hsame.2.2] at hp
    exact h.waiting p hp

/-- The page of the deleted record may wait now, but other pins stay. -/
theorem DeletesHeld.guarded (h : DeletesHeld s s' rid) (hg : Guarded s o)
    (hpin : (if o = some rid.1 then 1 else 0) < s.pinCount rid.1) : Guarded s' o := by
  intro p hp
  have hle := h.pins p
  rcases h.waiting p hp with hold | he
  · exact Nat.lt_of_lt_of_le (hg p hold) hle
  · subst he
    exact Nat.lt_of_lt_of_le hpin hle

theorem DeletesHeld.heldBy (h : DeletesHeld s s' rid) (hheld : HeldBy s o) : HeldBy s' o := by
  intro p hne hlt
  have hpages : s'.pagesNum = s.pagesNum := h.deletes.pagesNum
  obtain ⟨hbit, hpin⟩ := hheld p hne (hpages ▸ hlt)
  refine ⟨?_, Nat.lt_of_lt_of_le hpin (h.pins p)⟩
  rw [h.bitmap]
  exact hbit

theorem Deletes.get_of_ne {p : PageId} (h : Deletes s s' rid) (hp : p ≠ rid.1) :
    (s'.pageData p).get = (s.pageData p).get := by
  funext slot
  have hne : (p, slot) ≠ rid := fun he => hp (congrArg Prod.fst he)
  have hdata : (s'.pageData p).data slot = (s.pageData p).data slot := h.bytes (p, slot) hne
  unfold RecordPage.get
  rw [h.capacity, h.bits p slot hne, hdata]

end RecordPool

namespace ScanState

variable {x : ScanState} {rid : Slot}

theorem deleteRecord_holds (txnId : Int) (clog : RecordId → Re) (h : x.Holds) (hs : Scannable x.pool.calm)
    (hlive : (live x.pool rid).isSome) : (RecordFileHandler.deleteRecord x.pool rid).1 = .success ∧
    ∃ x', x.deleteRecord (some txnId) clog rid = (clog rid.recordId, x') ∧
      x'.scanner = x.scanner ∧ x'.Holds ∧ DeletesHeld x.pool x'.pool rid := by
  obtain ⟨hbit, hne, -⟩ := live_iff.mp hlive
  obtain ⟨-, hpin⟩ := h.held rid.1 hne (hs.bounded _ hbit)
  obtain ⟨s', hrun, hdel⟩ := RecordPool.deleteRecord_held hs (Nat.lt_of_le_of_lt (Nat.zero_le _) hpin) hlive
  have hmarked := hdel.markDeleted txnId x.operations
  unfold deleteRecord
  simp only [hrun, ne_eq, not_true_eq_false, if_false, true_and]
  refine ⟨_, rfl, rfl, ⟨?_, hmarked.guarded h.guarded hpin, hmarked.heldBy h.held⟩, hmarked⟩
  have hfaults := hmarked.deletes.faults
  exact hfaults.trans h.faults

end ScanState

/-- The log has gone from `log` to `log'` and answered `r`, no `Success`, to its last record. -/
def AppendRecord.Refused (appendRecord : AppendRecord) (log log' : List LogEntry) (r : Re) : Prop :=
  r ≠ .success ∧ ∃ pre e, log' = pre ++ [e] ∧ log <+: pre ∧ appendRecord pre e = r

/-! ## A DELETE -/

namespace DeleteState

open RecordFileScanner

variable {x : DeleteState} {rest : List Slot} (appendRecord : AppendRecord) (fuel : Nat)
  (passes : List UInt8 → Bool) (txnId : Int)

/-- What a DELETE keeps while it goes over the file. -/
structure Ready (x : DeleteState) : Prop where
  holds : x.scan.Holds
  scannable : Scannable x.scan.pool.calm
  empty : ∀ p, x.scan.pool.bitmap p = false → (x.scan.pool.pageData p).get = fun _ => none
  free : ∀ p ∈ x.freePages, p ≠ PagePool.headerPage ∧ p < x.scan.pool.pagesNum

/-- Moving the scanner on changes nothing of that. -/
theorem Ready.scanned (scan : ScanState) (h : x.Ready) (hfrees : Frees x.scan.pool.calm scan.pool.calm)
    (hholds : scan.Holds) : Ready { x with scan := scan } where
  holds := hholds
  scannable := h.scannable.frees hfrees
  empty p hp := by
    have hdata : scan.pool.pageData = x.scan.pool.pageData := hfrees.pageData
    have hbit : scan.pool.bitmap p = false := hp
    change (scan.pool.pageData p).get = _
    rw [hdata]
    rcases hfrees.bitmap p with he | ⟨-, -, hempty⟩
    · have he : scan.pool.bitmap p = x.scan.pool.bitmap p := he
      exact h.empty p (he ▸ hbit)
    · cases hold : x.scan.pool.bitmap p with
      | false => exact h.empty p hold
      | true => exact RecordPage.get_eq_none_of_recordNum ((RecordPage.recordNum_eq_zero_iff _).mpr (hempty hold))
  free p hp := by
    have hpages : scan.pool.pagesNum = x.scan.pool.pagesNum := hfrees.pagesNum
    change p ≠ PagePool.headerPage ∧ p < scan.pool.pagesNum
    rw [hpages]
    exact h.free p hp

theorem Ready.deleted {scan : ScanState} {rid : Slot} {log : List LogEntry} (h : x.Ready)
    (hdel : DeletesHeld x.scan.pool scan.pool rid) (hholds : scan.Holds)
    (hlive : (live x.scan.pool rid).isSome) : Ready ⟨scan, x.freePages.insert rid.1, log⟩ where
  holds := hholds
  scannable := hdel.deletes.scannable h.scannable (live_iff.mp hlive).2.1
  empty p hp := by
    have hbit : x.scan.pool.bitmap p = false := hdel.bitmap ▸ hp
    have hne : p ≠ rid.1 := by
      rintro rfl
      rw [(live_iff.mp hlive).1] at hbit
      cases hbit
    exact (hdel.deletes.get_of_ne hne).trans (h.empty p hbit)
  free p hp := by
    have hpages : scan.pool.pagesNum = x.scan.pool.pagesNum := hdel.deletes.pagesNum
    change p ≠ PagePool.headerPage ∧ p < scan.pool.pagesNum
    rw [hpages]
    rcases List.mem_insert_iff.mp hp with rfl | hp
    · obtain ⟨hbit, hne, -⟩ := live_iff.mp hlive
      exact ⟨hne, h.scannable.bounded _ hbit⟩
    · exact h.free p hp

def hits (passes : List UInt8 → Bool) (x : DeleteState) (rest : List Slot) : List Slot :=
  rest.filter fun rid => passes (x.scan.pool.bytes rid)

/-- The loop has deleted and logged `gone`, a first part of the records ahead that pass. -/
structure Deleted (passes : List UInt8 → Bool) (txnId : Int) (x : DeleteState) (rest gone : List Slot)
    (y : DeleteState) : Prop where
  ready : y.Ready
  inOrder : gone <+: hits passes x rest
  live : live y.scan.pool = fun rid => if rid ∈ gone then none else live x.scan.pool rid
  log : y.log = x.log ++ gone.map (.redoDelete txnId)

/-- The record `rid` has been deleted and logged, and the scanner is behind it. -/
structure Passed (passes : List UInt8 → Bool) (txnId : Int) (x : DeleteState) (pre : List Slot) (rid : Slot)
    (post : List Slot) (z : DeleteState) : Prop where
  skipped : ∀ q ∈ pre, passes (x.scan.pool.bytes q) = false
  takes : passes (x.scan.pool.bytes rid) = true
  live : live z.scan.pool = Function.update (live x.scan.pool) rid none
  bytes : ∀ q ∈ post, z.scan.pool.bytes q = x.scan.pool.bytes q
  log : z.log = x.log ++ [.redoDelete txnId rid]

section Passed

variable {passes txnId} {pre post gone : List Slot} {rid : Slot} {y z : DeleteState}

theorem Passed.hits (h : Passed passes txnId x pre rid post z) :
    hits passes x (pre ++ rid :: post) = rid :: hits passes z post := by
  have hskipped : (pre.filter fun rid => passes (x.scan.pool.bytes rid)) = [] :=
    List.filter_eq_nil_iff.mpr fun q hq => by rw [h.skipped q hq]; exact Bool.false_ne_true
  have hbehind : (post.filter fun rid => passes (z.scan.pool.bytes rid)) =
      post.filter fun rid => passes (x.scan.pool.bytes rid) :=
    List.filter_congr fun q hq => by rw [h.bytes q hq]
  unfold DeleteState.hits
  rw [List.filter_append, hskipped, List.nil_append, List.filter_cons, if_pos h.takes, hbehind]

/-- The record that was passed, and then those of the rest of the loop. -/
theorem Passed.cons (h : Passed passes txnId x pre rid post z) (hgone : Deleted passes txnId z post gone y) :
    Deleted passes txnId x (pre ++ rid :: post) (rid :: gone) y := by
  refine ⟨hgone.ready, ?_, ?_, ?_⟩
  · rw [h.hits]
    exact List.cons_prefix_cons.mpr ⟨rfl, hgone.inOrder⟩
  · rw [hgone.live, h.live]
    funext q
    by_cases hq : q = rid
    · simp [hq]
    · simp [hq]
  · rw [hgone.log, h.log]
    simp

end Passed

theorem Ready.deletesNone (h : x.Ready) (rest : List Slot) : Deleted passes txnId x rest [] x :=
  ⟨h, List.nil_prefix, by simp, (List.append_nil _).symm⟩

/-- The loop deletes the records ahead that pass and logs each of them, up to the one that the log refuses. -/
theorem loop_spec (n deleteCount : Nat) (h : x.Ready) (ha : Ahead x.scan.pool.calm x.scan.scanner rest)
    (hnodup : rest.Nodup) (hlive : ∀ rid ∈ rest, (live x.scan.pool rid).isSome)
    (hfuel : x.scan.pool.pagesNum < fuel) (hfuel' : rest.length < fuel) (hn : rest.length < n) :
    ∃ r count y gone, loop appendRecord fuel passes txnId n deleteCount x = some (r, count, y) ∧
      Deleted passes txnId x rest gone y ∧
      (r = .success ∧ count = deleteCount + gone.length ∧ gone = hits passes x rest ∨
        appendRecord.Refused x.log y.log r) := by
  induction n generalizing x rest deleteCount with
  | zero => exact absurd hn (Nat.not_lt_zero _)
  | succ n ih =>
    obtain ⟨r, scan, hloop, -, hfrees, hcases⟩ :=
      ScanState.predicateLoop_steady fuel passes fuel h.holds.steady h.scannable ha hfuel hfuel'
    have hholds := ScanState.predicateLoop_holds fuel passes fuel h.holds hloop
    have hready := h.scanned scan hfrees hholds
    have hlive1 : live scan.pool = live x.scan.pool := hfrees.live
    have hbytes1 : scan.pool.bytes = x.scan.pool.bytes := by
      funext rid
      exact congrArg (fun d : PageId → RecordPage => (d rid.1).data rid.2) hfrees.pageData
    have hpages1 : scan.pool.pagesNum = x.scan.pool.pagesNum := hfrees.pagesNum
    unfold loop
    rcases hcases with ⟨rfl, hall⟩ | ⟨rfl, pre, rid, post, rfl, hpre, htake, hcurrent, ha1⟩
    · simp only [hloop, ne_eq, reduceCtorEq, not_false_eq_true, if_true]
      have hnone : hits passes x rest = [] :=
        List.filter_eq_nil_iff.mpr fun rid hrid => by rw [hall rid hrid]; exact Bool.false_ne_true
      refine ⟨_, _, _, [], rfl, ⟨hready, List.nil_prefix, ?_, (List.append_nil _).symm⟩, .inl ⟨rfl, rfl, hnone.symm⟩⟩
      simp [hlive1]
    · have hpost : (rid :: post).Nodup := (List.nodup_append.mp hnodup).2.1
      obtain ⟨hnotin, hpostnd⟩ := List.nodup_cons.mp hpost
      have hlive2 : (live scan.pool rid).isSome := by
        rw [hlive1]
        exact hlive rid (List.mem_append_right _ List.mem_cons_self)
      obtain ⟨hfile, scan', hdelete, hscanner, hholds', hdel⟩ := ScanState.deleteRecord_holds txnId
        (fun _ => appendRecord x.log (.redoDelete txnId rid)) hholds hready.scannable hlive2
      have hne {q : Slot} (hq : q ∈ post) : q ≠ rid := fun he => hnotin (he ▸ hq)
      obtain ⟨z, hz⟩ : ∃ z : DeleteState,
          ⟨scan', x.freePages.insert rid.1, x.log ++ [.redoDelete txnId rid]⟩ = z := ⟨_, rfl⟩
      have hpassed : Passed passes txnId x pre rid post z := by
        rw [← hz]
        refine ⟨hpre, htake, ?_, fun q hq => ?_, rfl⟩
        · rw [← hlive1]
          exact hdel.deletes.live
        · rw [← hbytes1]
          exact hdel.deletes.bytes q (hne hq)
      have hready' : z.Ready := hz ▸ hready.deleted hdel hholds' hlive2
      simp only [hloop, hcurrent, hdelete, hfile, hz, ne_eq, not_true_eq_false, if_false]
      by_cases hlogged : appendRecord x.log (.redoDelete txnId rid) = .success
      · have ha2 : Ahead z.scan.pool.calm z.scan.scanner post := by
          rw [← hz]
          change Ahead scan'.pool.calm scan'.scanner post
          rw [hscanner]
          exact hdel.deletes.ahead hready.scannable hlive2 hnotin ha1
        have hpages2 : z.scan.pool.pagesNum = x.scan.pool.pagesNum := by
          rw [← hz]
          exact hdel.deletes.pagesNum.trans hpages1
        simp only [List.length_append, List.length_cons] at hn hfuel'
        obtain ⟨r, count, y, gone, hrun, hgone, hends⟩ := ih (x := z) (deleteCount + 1) hready' ha2 hpostnd
          (fun q hq => by
            rw [hpassed.live, Function.update_of_ne (hne hq)]
            exact hlive q (List.mem_append_right _ (List.mem_cons_of_mem _ hq)))
          (hpages2 ▸ hfuel) (by omega) (by omega)
        rw [if_neg (not_not.mpr hlogged)]
        refine ⟨r, count, y, rid :: gone, hrun, hpassed.cons hgone, ?_⟩
        rcases hends with ⟨hr, hcount, hall⟩ | ⟨hr, log, e, hlast, hlog, hcode⟩
        · refine .inl ⟨hr, ?_, ?_⟩
          · rw [hcount, List.length_cons]
            omega
          · rw [hpassed.hits, hall]
        · rw [hpassed.log] at hlog
          exact .inr ⟨hr, log, e, hlast, (List.prefix_append _ _).trans hlog, hcode⟩
      · rw [if_pos hlogged]
        exact ⟨_, _, z, [rid], rfl, hpassed.cons (hready'.deletesNone passes txnId post),
          .inr ⟨hlogged, x.log, _, hpassed.log, List.prefix_rfl, rfl⟩⟩

end DeleteState

/-! ## An INSERT -/

namespace RecordPool

/-- A new page takes a record as long as the file can grow and a page has room for one. -/
theorem insertIntoNewPage_room {s : RecordPool} {recordSize : Nat} (bs : List UInt8) (h : Usable s)
    (hgrows : s.pagesNum < PagePool.maxPageNum) (hfits : 0 < pageRecordCapacity (align8 recordSize)) :
    (RecordFileHandler.insertIntoNewPage recordSize s bs).1 = .success := by
  unfold RecordFileHandler.insertIntoNewPage
  rcases RecordFile.allocatePage_fresh h with ⟨r, s', hr, heq, -⟩ | ⟨p, s', heq, -, hp, -, hu, -⟩
  · exfalso
    rcases PagePool.allocatePage_cases h.faults with ⟨i, t, -, ht, -⟩ | ⟨hfree, -⟩ | ⟨-, -, t, ht, -⟩
    · exact hr (congrArg Prod.fst (ht.symm.trans heq)).symm
    · have hroom := Nat.not_le.mpr hgrows
      unfold PagePool.allocatePage at heq
      simp only [hfree, if_neg hroom, PagePool.takeFault, h.faults, ne_eq, not_true_eq_false, if_false] at heq
      exact hr (congrArg Prod.fst heq).symm
    · exact hr (congrArg Prod.fst (ht.symm.trans heq)).symm
  · obtain ⟨g, hg⟩ : ∃ g, (s'.pageData p).initEmpty recordSize = g := ⟨_, rfl⟩
    obtain ⟨s2, hs2⟩ : ∃ s2 : RecordPool, (s'.setData p g).flushPage p = s2 := ⟨_, rfl⟩
    have hu2 : Usable s2 := hs2 ▸ ⟨hu.faults, hu.bounded, hu.header, hu.waiting⟩
    have hinit : RecordPageHandler.initEmptyPage s' p recordSize = (.success, s2.pinned p) := by
      unfold RecordPageHandler.initEmptyPage
      rw [hu.getPage hp, ← hs2, ← hg]
      rfl
    have hpage : s2.pageData p = g := by
      rw [← hs2]
      exact Function.update_self ..
    have hfull : (s2.pageData p).isFull = false := by
      rw [hpage, ← hg]
      refine decide_eq_false fun hc => ?_
      have hzero : ((pageRecordCapacity (align8 recordSize) : Nat) : Int) ≤ 0 := hc
      omega
    obtain ⟨slot, g', hinsert, -⟩ := RecordPageHandler.insertRecord_spec bs hfull
    simp only [heq, ne_eq, not_true_eq_false, if_false, hinit, pinned_unpinPage hu2, hinsert]

end RecordPool

namespace RecordFile

variable {f g : RecordFile} {bs : List UInt8} {r : Re} {o : Option Slot}

/-- An insertion fails only if the file cannot grow or no record of its size fits on a page. -/
theorem insertRecord_room (h : Usable f.pool) (hfree : ∀ p ∈ f.freePages, p < f.pool.pagesNum)
    (hins : f.insertRecord bs = (r, o, g)) (hr : r ≠ .success) :
    ¬(f.pool.pagesNum < PagePool.maxPageNum ∧ 0 < pageRecordCapacity (align8 f.recordSize)) := by
  rintro ⟨hgrows, hfits⟩
  refine hr ?_
  have hcode : (f.insertRecord bs).1 = r := by rw [hins]
  rw [← hcode]
  unfold insertRecord
  rcases insertLoop_spec f.recordSize bs h hfree with ⟨p, rest, hfind, -, heq⟩ | ⟨-, heq⟩
  · have hroom : ((f.pool.pinned p).pageData p).isFull = false := by
      simpa using List.find?_some hfind
    obtain ⟨slot, page, hinsert, -⟩ := RecordPageHandler.insertRecord_spec bs hroom
    simp only [heq, hinsert]
  · simp only [heq]
    exact insertIntoNewPage_room bs h hgrows hfits

theorem insertRecord_recordSize (hins : f.insertRecord bs = (r, o, g)) : g.recordSize = f.recordSize := by
  unfold insertRecord at hins
  cases hins
  rfl

end RecordFile

/-! ## What every statement keeps -/

theorem RecordSession.Inv.live {x : RecordSession} (h : x.Inv) : live x.file.pool = x.stored := by
  funext rid
  rw [h.stored rid]
  by_cases hne : rid.1 = PagePool.headerPage
  · rw [if_pos hne, ← Option.not_isSome_iff_eq_none]
    exact fun hc => (live_iff.mp hc).2.1 hne
  · rw [if_neg hne]
    cases hget : (x.file.pool.pageData rid.1).get rid.2 with
    | none =>
      rw [← Option.not_isSome_iff_eq_none]
      intro hc
      obtain ⟨-, -, hcap, hset⟩ := live_iff.mp hc
      unfold RecordPage.get at hget
      simp [hcap, hset] at hget
    | some bs =>
      have hbit := h.used (show (x.file.pool.pageData rid.1).get rid.2 ≠ none by rw [hget]; exact Option.some_ne_none bs)
      unfold RecordPage.get at hget
      split at hget
      · rename_i hused
        obtain ⟨hcap, hset⟩ := hused
        have hsome := live_iff.mpr ⟨hbit, hne, hcap, hset⟩
        have hlive := live_of_mem h.usable.scannable ((mem_rows h.usable.scannable.toReadable).mpr hsome)
        exact hlive.trans hget
      · cases hget

theorem selectByScan_holds {m : TableMeta} {fields : List Field} {s : RecordPool} {r : SelectRe} {st : SelectState}
    (snprintf : List UInt8 → List UInt8) (fuel : Nat) (passes : List UInt8 → Bool) (hu : Usable s) (hh : Held s)
    (hrun : selectByScan snprintf fuel m passes fields s = some (r, st)) :
    ∃ c, RecordFileScanner.Holds st.pool c := by
  unfold selectByScan at hrun
  split at hrun
  · cases hrun
  · rename_i hinit
    have hholds := RecordFileScanner.init_holds fuel hu.faults hu.guarded hh hinit
    split at hrun
    · cases hrun
    · rename_i hloop
      cases hrun
      exact ⟨_, selectLoop_holds snprintf fuel m passes fields fuel hholds hloop⟩

namespace TableSession

/-- The record file keeps its books and holds a pin on each of its pages. -/
structure Inv (m : TableMeta) (x : TableSession) : Prop where
  books : ∃ stored, RecordSession.Inv ⟨x.file, stored⟩
  held : Held x.file.pool
  size : x.file.recordSize = m.recordSize.toNat

variable {m : TableMeta} {x : TableSession} {appendRecord : AppendRecord}

theorem Inv.usable (h : x.Inv m) : Usable x.file.pool := by
  obtain ⟨stored, hbooks⟩ := h.books
  exact hbooks.usable

theorem Inv.start (m : TableMeta) : Inv m (start m) where
  books := ⟨_, RecordSession.Inv.start m.recordSize.toNat⟩
  held _ hne hlt := absurd (Nat.lt_one_iff.mp hlt) hne
  size := rfl

/-- The log and the counter of transactions are not in the file. -/
theorem Inv.of_file {y : TableSession} (h : x.Inv m) (hfile : y.file = x.file) : y.Inv m := by
  refine ⟨?_, ?_, ?_⟩
  · rw [hfile]
    exact h.books
  · rw [hfile]
    exact h.held
  · rw [hfile]
    exact h.size

theorem insertRecord_globalTxnId {txnId : Int} {bs : List UInt8} {r : Re} {y : TableSession}
    (hrun : x.insertRecord appendRecord txnId bs = (r, y)) : y.globalTxnId = x.globalTxnId := by
  unfold insertRecord at hrun
  split at hrun
  · simp only at hrun
    split at hrun
    · cases hrun
      rfl
    · cases hrun
      rfl
  · cases hrun
    rfl

/-- The operators of a statement before they are opened. -/
theorem Inv.closed (h : x.Inv m) : DeleteState.Ready ⟨⟨x.file.pool, ⟨0, x.file.pool.pagesNum, none, none, none⟩,
    (0, 0), fun _ => none⟩, x.file.freePages, x.log⟩ := by
  obtain ⟨stored, hbooks⟩ := h.books
  exact ⟨⟨hbooks.usable.faults, hbooks.usable.guarded, heldBy_none.mpr h.held⟩, hbooks.usable.scannable,
    hbooks.empty, hbooks.free⟩

def rows (x : TableSession) : Multiset (List UInt8) := x.file.pool.contents

/-- The file can grow, and a page takes a record of the table. -/
def HasRoom (m : TableMeta) (x : TableSession) : Prop :=
  x.file.pool.pagesNum < PagePool.maxPageNum ∧ 0 < pageRecordCapacity (align8 m.recordSize.toNat)

theorem insertRecord_spec {txnId : Int} {bs : List UInt8} {r : Re} {y : TableSession} (h : x.Inv m)
    (hrun : x.insertRecord appendRecord txnId bs = (r, y)) : y.Inv m ∧
      ((∃ rid, live x.file.pool rid = none ∧
        live y.file.pool = Function.update (live x.file.pool) rid (some bs) ∧
        y.log = x.log ++ [.redoInsert txnId rid bs] ∧ r = appendRecord x.log (.redoInsert txnId rid bs)) ∨
      (r ≠ .success ∧ ¬HasRoom m x ∧ live y.file.pool = live x.file.pool ∧ y.log = x.log)) := by
  obtain ⟨stored, hbooks⟩ := h.books
  have hmeets := hbooks.meets_of_held h.held (.insertRecord bs) rfl
  have hlive := hbooks.live
  obtain ⟨r', o, f, hins⟩ : ∃ r' o f, x.file.insertRecord bs = (r', o, f) := ⟨_, _, _, rfl⟩
  have hsize : f.recordSize = m.recordSize.toNat := (RecordFile.insertRecord_recordSize hins).trans h.size
  have hcases := RecordFile.insertRecord_spec bs hbooks.usable fun p hp => (hbooks.free p hp).2
  have hshape : (r' = .success ∧ ∃ rid, o = some rid) ∨ (r' ≠ .success ∧ o = none) := by
    rw [hins] at hcases
    rcases hcases with ⟨p, rest, slot, s', -, -, -, heq, -⟩ | ⟨-, r'', s', hr, heq, -⟩ |
      ⟨-, p, s', k, -, -, -, -, ⟨r'', hr, -, heq⟩ | ⟨slot, -, heq⟩⟩
    · cases heq
      exact .inl ⟨rfl, _, rfl⟩
    · cases heq
      exact .inr ⟨hr, rfl⟩
    · cases heq
      exact .inr ⟨hr, rfl⟩
    · cases heq
      exact .inl ⟨rfl, _, rfl⟩
  unfold insertRecord at hrun
  rcases hshape with ⟨rfl, rid, rfl⟩ | ⟨hr, rfl⟩
  · have hcall := RecordSession.call_inserted (x := ⟨x.file, stored⟩) hins
    obtain ⟨hbooks', hheld⟩ := hbooks.insertRecord hmeets hcall
    simp only [hins, Txn.insertRecord] at hrun
    cases hrun
    refine ⟨⟨⟨_, hbooks'⟩, hheld h.held, hsize⟩, .inl ?_⟩
    have hfree : stored rid = none := hbooks.isMap.fresh bs rid f hins
    exact ⟨rid, (congrFun hlive rid).trans hfree,
      hbooks'.live.trans (congrArg (Function.update · rid (some bs)) hlive.symm), rfl, rfl⟩
  · have hcall := RecordSession.call_notInserted (x := ⟨x.file, stored⟩) hins
    obtain ⟨hbooks', hheld⟩ := hbooks.insertRecord hmeets hcall
    have hrun' : r = r' ∧ y = { x with file := f } := by
      rw [hins] at hrun
      split at hrun
      · rename_i heq
        cases heq
      · rename_i heq
        cases heq
        cases hrun
        exact ⟨rfl, rfl⟩
    obtain ⟨rfl, rfl⟩ := hrun'
    refine ⟨⟨⟨_, hbooks'⟩, hheld h.held, hsize⟩, .inr ⟨hr, ?_, hbooks'.live.trans hlive.symm, rfl⟩⟩
    · have hroom := RecordFile.insertRecord_room hbooks.usable (fun p hp => (hbooks.free p hp).2) hins hr
      unfold HasRoom
      rw [← h.size]
      exact hroom

theorem Inv.of_ready {f : RecordFile} {globalTxnId : Int} {y : DeleteState} (h : y.Ready)
    (hsize : f.recordSize = m.recordSize.toNat) :
    Inv m ⟨{ f with pool := y.scan.pool, freePages := y.freePages }, globalTxnId, y.log⟩ where
  books := by
    refine ⟨fun rid => if rid.1 = PagePool.headerPage then none else (y.scan.pool.pageData rid.1).get rid.2,
      ⟨h.scannable.faults, h.scannable.bounded, h.scannable.header, fun p hp => ?_⟩, h.empty, h.free, fun _ => rfl⟩
    exact Nat.lt_of_le_of_lt (Nat.zero_le _) (h.holds.guarded p hp)
  held := h.holds.held.held
  size := hsize

/-- The commit is logged; the transaction is over if the log takes it. -/
theorem commit_spec (appendRecord : AppendRecord) (x : TableSession) (txnId : Int) :
    ∃ r y, x.commit appendRecord txnId = (r, y) ∧ y.file = x.file ∧
    y.log = x.log ++ [.redoMiniTxnCommit txnId] ∧ r = appendRecord x.log (.redoMiniTxnCommit txnId) ∧
    (r = .success → y.globalTxnId = TxnMark.getNextGlobalTxnId x.globalTxnId) := by
  unfold commit
  cases hcode : appendRecord x.log (.redoMiniTxnCommit txnId) with
  | success => exact ⟨_, _, rfl, rfl, rfl, rfl, fun _ => rfl⟩
  | _ =>
    refine ⟨_, _, rfl, rfl, rfl, rfl, fun hr => ?_⟩
    cases hr

/-- A DELETE has taken away the records `rids`, all of which pass. -/
structure Removes (passes : List UInt8 → Bool) (x : TableSession) (rids : List Slot) (y : TableSession) : Prop where
  nodup : rids.Nodup
  passing : ∀ rid ∈ rids, ∃ bs, live x.file.pool rid = some bs ∧ passes bs = true
  live : ∀ rid, live y.file.pool rid = if rid ∈ rids then none else live x.file.pool rid

theorem delete_spec (appendRecord : AppendRecord) (passes : List UInt8 → Bool) (h : x.Inv m) :
    ∃ (a : TableAnswer) (y : TableSession) (rids : List Slot), x.delete appendRecord passes = some (a, y) ∧ y.Inv m ∧
      Removes passes x rids y ∧
      (a = .deleted rids.length ∧ (∀ rid bs, live x.file.pool rid = some bs → passes bs = true → rid ∈ rids) ∧
        y.globalTxnId = TxnMark.getNextGlobalTxnId (TxnMark.getNextGlobalTxnId x.globalTxnId) ∧
        y.log = x.log ++ (rids.map (.redoDelete (TxnMark.getNextGlobalTxnId x.globalTxnId)) ++
          [.redoMiniTxnCommit (TxnMark.getNextGlobalTxnId x.globalTxnId)]) ∨
      ∃ r, a = .code r ∧ appendRecord.Refused x.log y.log r) := by
  have hu := h.usable
  obtain ⟨s', c', hinit, hfrees, hahead⟩ := RecordFileScanner.init_spec x.fuel hu.scannable
    (show x.file.pool.pagesNum < x.fuel by unfold fuel; omega)
  rcases RecordFileScanner.init_calm x.fuel hu.faults hu.guarded with ⟨hx, -⟩ | ⟨r, t, d, hx, hy, -⟩
  · rw [hinit] at hx
    cases hx
  · rw [hinit] at hx
    cases hx
    have hholds := RecordFileScanner.init_holds x.fuel hu.faults hu.guarded h.held hy
    have hready := h.closed.scanned ⟨t, c', (0, 0), fun _ => none⟩ hfrees hholds
    have hpages : t.pagesNum = x.file.pool.pagesNum := hfrees.pagesNum
    have hlive : RecordPool.live t = RecordPool.live x.file.pool := hfrees.live
    have hbytes : t.bytes = x.file.pool.bytes := by
      funext rid
      exact congrArg (fun d : PageId → RecordPage => (d rid.1).data rid.2) hfrees.pageData
    have hrows : ∀ rid, rid ∈ RecordPool.rows x.file.pool ↔ (RecordPool.live x.file.pool rid).isSome := fun rid =>
      mem_rows (s := x.file.pool.calm) hu.scannable.toReadable
    obtain ⟨r, count, y, gone, hrun, hdeleted, hends⟩ := DeleteState.loop_spec
      (x := ⟨⟨t, c', (0, 0), fun _ => none⟩, x.file.freePages, x.log⟩) appendRecord x.fuel passes
      (TxnMark.getNextGlobalTxnId x.globalTxnId) x.fuel 0 hready
      (show RecordFileScanner.Ahead t.calm c' (RecordPool.rows x.file.pool) from hahead) nodup_rows
      (fun rid hrid => by
        change (RecordPool.live t rid).isSome
        rw [hlive]
        exact (hrows rid).mp hrid)
      (show t.pagesNum < x.fuel by unfold fuel; omega)
      (show (RecordPool.rows x.file.pool).length < x.fuel by unfold fuel; omega)
      (show (RecordPool.rows x.file.pool).length < x.fuel by unfold fuel; omega)
    have hof {rid : Slot} (hrid : rid ∈ RecordPool.rows x.file.pool) :
        RecordPool.live x.file.pool rid = some (x.file.pool.bytes rid) :=
      live_of_mem (s := x.file.pool.calm) hu.scannable hrid
    have hhits (rid : Slot) : rid ∈ DeleteState.hits passes
        ⟨⟨t, c', (0, 0), fun _ => none⟩, x.file.freePages, x.log⟩ (RecordPool.rows x.file.pool) ↔
        rid ∈ RecordPool.rows x.file.pool ∧ passes (x.file.pool.bytes rid) = true := by
      unfold DeleteState.hits
      rw [List.mem_filter]
      simp only [hbytes]
    -- the file behind the loop, whatever the log and the counter are
    obtain ⟨z, hz⟩ : ∃ z : TableSession, ⟨{ x.file with pool := y.scan.pool, freePages := y.freePages },
        TxnMark.getNextGlobalTxnId x.globalTxnId, y.log⟩ = z := ⟨_, rfl⟩
    have hzinv : z.Inv m := hz ▸ .of_ready hdeleted.ready h.size
    have hremoves {w : TableSession} (hw : w.file = z.file) : Removes passes x gone w := by
      refine ⟨hdeleted.inOrder.sublist.nodup (nodup_rows.filter _), fun rid hrid => ?_, fun rid => ?_⟩
      · obtain ⟨hmem, htake⟩ := (hhits rid).mp (hdeleted.inOrder.subset hrid)
        exact ⟨_, hof hmem, htake⟩
      · rw [hw, ← hz]
        change RecordPool.live y.scan.pool rid = _
        rw [hdeleted.live]
        simp only [hlive]
    have hlog : z.log = x.log ++ gone.map (.redoDelete (TxnMark.getNextGlobalTxnId x.globalTxnId)) := by
      rw [← hz]
      exact hdeleted.log
    unfold delete
    simp only [hy, hrun, hz]
    rcases hends with ⟨rfl, hcount, hall⟩ | hrefused
    · obtain ⟨r, w, hcommit, hfile, hwlog, hcode, hid⟩ := commit_spec appendRecord z
        (TxnMark.getNextGlobalTxnId x.globalTxnId)
      have hzid : z.globalTxnId = TxnMark.getNextGlobalTxnId x.globalTxnId := by rw [← hz]
      have hwinv : w.Inv m := hzinv.of_file hfile
      simp only [ne_eq, not_true_eq_false, if_false, hcommit]
      by_cases hr : r = .success
      · subst hr
        refine ⟨_, w, gone, rfl, hwinv, hremoves hfile, .inl ⟨?_, fun rid bs hbs htake => ?_, ?_, ?_⟩⟩
        · rw [hcount, Nat.zero_add]
        · rw [hall, hhits]
          refine ⟨(hrows rid).mpr (by rw [hbs]; rfl), ?_⟩
          rwa [bytes_of_live hbs]
        · rw [hid rfl, hzid]
        · rw [hwlog, hlog, List.append_assoc]
      · have hrefused : appendRecord.Refused x.log w.log r := by
          refine ⟨hr, z.log, _, hwlog, ?_, hcode.symm⟩
          rw [hlog]
          exact List.prefix_append _ _
        split
        · rename_i heq
          cases heq
          exact absurd rfl hr
        · rename_i heq
          cases heq
          exact ⟨_, w, gone, rfl, hwinv, hremoves hfile, .inr ⟨r, rfl, hrefused⟩⟩
    · rw [if_pos hrefused.1]
      have hzrefused : appendRecord.Refused x.log z.log r := by
        rw [← hz]
        exact hrefused
      exact ⟨_, z, gone, rfl, hzinv, hremoves rfl, .inr ⟨r, rfl, hzrefused⟩⟩

theorem select_spec (snprintf : List UInt8 → List UInt8) (passes : List UInt8 → Bool) {fields : List Field}
    (h : x.Inv m) (hresolved : Resolved m fields) : ∃ y, x.select snprintf m passes fields =
      some (.text (printTupleHeader fields ++ selectRows snprintf m passes fields
        ((RecordPool.rows x.file.pool).map x.file.pool.bytes)), y) ∧ y.Inv m ∧
      live y.file.pool = live x.file.pool ∧ y.globalTxnId = x.globalTxnId ∧ y.log = x.log := by
  have hu := h.usable
  obtain ⟨z, hrun, -, hfrees⟩ := selectByScan_spec (s := x.file.pool) snprintf x.fuel passes hu hresolved
    (Nat.lt_succ_self _)
  obtain ⟨c, hholds⟩ := selectByScan_holds snprintf x.fuel passes hu h.held hrun
  have hready := h.closed.scanned ⟨z.pool, c, (0, 0), fun _ => none⟩ hfrees hholds
  refine ⟨{ x with file := { x.file with pool := z.pool } }, ?_, .of_ready hready h.size, hfrees.live, rfl, rfl⟩
  unfold select
  simp only [hrun]

end TableSession

/-- What a statement answers on a table that holds the rows `c`, and the rows that it leaves. The transaction
of an INSERT is `txnId`; `room` says that the file has room for one more record, and `refused` which codes the log
has answered to the last record of the statement. -/
inductive TableStatement.Means (snprintf : List UInt8 → List UInt8) (m : TableMeta) (room : Prop)
    (refused : Re → Prop) (txnId : Int) (c : Multiset (List UInt8)) :
    TableStatement → TableAnswer → Multiset (List UInt8) → Prop where
  | rejected {values : List Value} {heap : CString.Pointer} (h : InsertStatement.handle m values ≠ .success) :
      Means snprintf m room refused txnId c (.insert values heap) (.code (InsertStatement.handle m values)) c
  | inserted {values : List Value} {heap : CString.Pointer} {bs : List UInt8}
      (h : InsertStatement.handle m values = .success) (hmake : m.rowBytes values heap txnId = .ok bs) :
      Means snprintf m room refused txnId c (.insert values heap) (.code .success) (bs ::ₘ c)
  | full {values : List Value} {heap : CString.Pointer} {bs : List UInt8} {r : Re}
      (h : InsertStatement.handle m values = .success) (hmake : m.rowBytes values heap txnId = .ok bs)
      (hr : r ≠ .success) (hroom : ¬room) : Means snprintf m room refused txnId c (.insert values heap) (.code r) c
  /-- the row stays -/
  | insertUnlogged {values : List Value} {heap : CString.Pointer} {bs : List UInt8} {r : Re}
      (h : InsertStatement.handle m values = .success) (hmake : m.rowBytes values heap txnId = .ok bs)
      (hr : refused r) : Means snprintf m room refused txnId c (.insert values heap) (.code r) (bs ::ₘ c)
  | deleted {passes : List UInt8 → Bool} : Means snprintf m room refused txnId c (.delete passes)
      (.deleted (c.countP (passes · = true))) (c.filter fun bs => ¬passes bs = true)
  /-- some of the rows that pass are gone -/
  | deleteUnlogged {passes : List UInt8 → Bool} {left gone : Multiset (List UInt8)} {r : Re} (hrows : left + gone = c)
      (hgone : ∀ bs ∈ gone, passes bs = true) (hr : refused r) :
      Means snprintf m room refused txnId c (.delete passes) (.code r) left
  | selected {passes : List UInt8 → Bool} {fields : List Field} {stored : List (List UInt8)}
      (h : (stored : Multiset (List UInt8)) = c) : Means snprintf m room refused txnId c (.select passes fields)
      (.text (printTupleHeader fields ++ selectRows snprintf m passes fields stored)) c
  | reordered {free : List PageId} : Means snprintf m room refused txnId c (.reorder free) (.code .success) c

/-- The columns of a SELECT are those that `SelectStatement::Handle` leaves, and an order of `free_pages_` is
one of its pages. -/
def TableStatement.Fits (m : TableMeta) (x : TableSession) : TableStatement → Prop
  | .select _ fields => Resolved m fields
  | .reorder free => free.Perm x.file.freePages
  | _ => True

namespace TableSession

variable {m : TableMeta} {x y : TableSession} {st : TableStatement} (appendRecord : AppendRecord)
  (snprintf : List UInt8 → List UInt8)

/-- The session once the transaction of a statement is made. -/
def opened (x : TableSession) : TableSession :=
  { x with globalTxnId := TxnMark.getNextGlobalTxnId x.globalTxnId }

/-- What `InsertStatement::Handle` lets pass, `MakeRecord` makes a record of. -/
theorem rowBytes_of_handle {values : List Value} (heap : CString.Pointer) (txnId : Int)
    (h : InsertStatement.handle m values = .success) : ∃ bs, m.rowBytes values heap txnId = .ok bs := by
  unfold InsertStatement.handle at h
  unfold TableMeta.rowBytes TableMeta.makeRecord
  simp only at h ⊢
  split at h
  · cases h
  · split at h
    · cases h
    · rename_i hlength
      split at h
      · cases h
      · rename_i htypes
        rw [if_neg hlength, if_neg htypes]
        exact ⟨_, rfl⟩

theorem insert_cases (values : List Value) (heap : CString.Pointer) :
    (InsertStatement.handle m values ≠ .success ∧
      x.insert appendRecord m values heap = (.code (InsertStatement.handle m values), x.opened)) ∨
    (InsertStatement.handle m values = .success ∧ ∃ bs,
      m.rowBytes values heap (TxnMark.getNextGlobalTxnId x.globalTxnId) = .ok bs ∧ ∃ r y,
      x.opened.insertRecord appendRecord (TxnMark.getNextGlobalTxnId x.globalTxnId) bs = (r, y) ∧
      ((r ≠ .success ∧ x.insert appendRecord m values heap = (.code r, y)) ∨
      (r = .success ∧ ∃ r' z, y.commit appendRecord (TxnMark.getNextGlobalTxnId x.globalTxnId) = (r', z) ∧
        x.insert appendRecord m values heap = (.code r', z)))) := by
  unfold insert
  cases hhandle : InsertStatement.handle m values with
  | success =>
    obtain ⟨bs, hmake⟩ := rowBytes_of_handle heap (TxnMark.getNextGlobalTxnId x.globalTxnId) hhandle
    obtain ⟨r, y, hrun⟩ : ∃ r y,
        x.opened.insertRecord appendRecord (TxnMark.getNextGlobalTxnId x.globalTxnId) bs = (r, y) := ⟨_, _, rfl⟩
    have hrun' : insertRecord appendRecord { x with globalTxnId := TxnMark.getNextGlobalTxnId x.globalTxnId }
        (TxnMark.getNextGlobalTxnId x.globalTxnId) bs = (r, y) := hrun
    refine .inr ⟨rfl, bs, hmake, r, y, hrun, ?_⟩
    simp only [hmake, hrun']
    by_cases hr : r = .success
    · exact .inr ⟨hr, _, _, rfl, if_neg (not_not.mpr hr)⟩
    · exact .inl ⟨hr, if_pos hr⟩
  | _ => exact .inl ⟨by simp, rfl⟩

theorem insert_means (values : List Value) (heap : CString.Pointer) (h : x.Inv m) :
    ∃ a y, x.insert appendRecord m values heap = (a, y) ∧ y.Inv m ∧
      TableStatement.Means snprintf m (HasRoom m x) (appendRecord.Refused x.log y.log)
        (TxnMark.getNextGlobalTxnId x.globalTxnId) x.rows (.insert values heap) a y.rows := by
  have hopened : Inv m x.opened := h.of_file rfl
  rcases insert_cases (m := m) (x := x) appendRecord values heap with ⟨hhandle, heq⟩ |
    ⟨hhandle, bs, hmake, r, y, hrun, hcases⟩
  · exact ⟨_, _, heq, hopened, .rejected hhandle⟩
  · obtain ⟨hy, hstored⟩ := insertRecord_spec hopened hrun
    rcases hstored with ⟨rid, hfree, hlive, hlog, hcode⟩ | ⟨hr, hroom, hlive, -⟩
    · have hrows : contents (calm y.file.pool) = bs ::ₘ contents (calm x.file.pool) :=
        contents_insert h.usable.scannable hy.usable.scannable hfree hlive
      have hrows' : y.rows = bs ::ₘ x.rows := hrows
      rcases hcases with ⟨hr, heq⟩ | ⟨-, r', z, hcommit, heq⟩
      · refine ⟨_, _, heq, hy, ?_⟩
        rw [hrows']
        exact .insertUnlogged hhandle hmake ⟨hr, x.log, _, hlog, List.prefix_rfl, hcode.symm⟩
      · obtain ⟨r'', z', hcommit', hfile, hzlog, hzcode, -⟩ := commit_spec appendRecord y
          (TxnMark.getNextGlobalTxnId x.globalTxnId)
        rw [hcommit] at hcommit'
        cases hcommit'
        have hzrows : z.rows = bs ::ₘ x.rows := by
          rw [← hrows', rows, hfile]
          rfl
        refine ⟨_, _, heq, hy.of_file hfile, ?_⟩
        rw [hzrows]
        by_cases hr : r' = .success
        · rw [hr]
          exact .inserted hhandle hmake
        · refine .insertUnlogged hhandle hmake ⟨hr, y.log, _, hzlog, ?_, hzcode.symm⟩
          rw [hlog]
          exact List.prefix_append _ _
    · have heq := hcases.resolve_right fun hc => hr hc.1
      have hrows : contents (calm y.file.pool) = contents (calm x.file.pool) :=
        contents_of_live h.usable.scannable hy.usable.scannable hlive
      have hrows' : y.rows = x.rows := hrows
      refine ⟨_, _, heq.2, hy, ?_⟩
      rw [hrows']
      exact .full hhandle hmake hr hroom

/-- The rows of the records that a DELETE took away. -/
theorem Removes.rows {passes : List UInt8 → Bool} {rids : List Slot} (h : Removes passes x rids y) (hx : x.Inv m)
    (hy : y.Inv m) : ∃ gone : List (List UInt8), gone.length = rids.length ∧ (∀ bs ∈ gone, passes bs = true) ∧
      y.rows + (gone : Multiset (List UInt8)) = x.rows := by
  refine ⟨rids.map x.file.pool.bytes, List.length_map _, fun bs hbs => ?_, ?_⟩
  · obtain ⟨rid, hrid, rfl⟩ := List.mem_map.mp hbs
    obtain ⟨bs, hbs, htake⟩ := h.passing rid hrid
    rwa [bytes_of_live hbs]
  · have hstored : ∀ rid ∈ rids, (x.file.pool.calm.live rid).isSome := by
      intro rid hrid
      obtain ⟨bs, hbs, -⟩ := h.passing rid hrid
      exact Option.isSome_iff_exists.mpr ⟨bs, hbs⟩
    have hgone := contents_delete rids hx.usable.scannable hy.usable.scannable h.nodup hstored h.live
    exact hgone

theorem delete_means (passes : List UInt8 → Bool) (h : x.Inv m) :
    ∃ a y, x.delete appendRecord passes = some (a, y) ∧ y.Inv m ∧
      TableStatement.Means snprintf m (HasRoom m x) (appendRecord.Refused x.log y.log)
        (TxnMark.getNextGlobalTxnId x.globalTxnId) x.rows (.delete passes) a y.rows := by
  obtain ⟨a, y, rids, hrun, hy, hremoves, hcases⟩ := delete_spec appendRecord passes h
  obtain ⟨gone, hlength, hpassing, hrows⟩ := hremoves.rows h hy
  refine ⟨a, y, hrun, hy, ?_⟩
  rcases hcases with ⟨rfl, hall, -⟩ | ⟨r, rfl, hrefused⟩
  · -- what is left does not pass
    have hkept : ∀ bs ∈ y.rows, ¬passes bs = true := by
      intro bs hbs htake
      obtain ⟨rid, hrid, rfl⟩ := List.mem_map.mp (Multiset.mem_coe.mp hbs)
      have hlive : RecordPool.live y.file.pool rid = some (y.file.pool.bytes rid) :=
        live_of_mem (s := y.file.pool.calm) hy.usable.scannable hrid
      rw [hremoves.live] at hlive
      split at hlive
      · cases hlive
      · rename_i hnot
        exact hnot (hall rid _ hlive htake)
    have hleft : x.rows.filter (fun bs => ¬passes bs = true) = y.rows := by
      rw [← hrows, Multiset.filter_add, Multiset.filter_eq_self.mpr hkept,
        Multiset.filter_eq_nil.mpr fun bs hbs => not_not.mpr (hpassing bs hbs),
        Multiset.add_zero]
    have hcount : x.rows.countP (passes · = true) = rids.length := by
      rw [← hrows, Multiset.countP_add, Multiset.countP_eq_zero.mpr hkept, Multiset.countP_eq_card.mpr hpassing,
        zero_add, Multiset.coe_card, hlength]
    rw [← hleft, ← hcount]
    exact .deleted
  · exact .deleteUnlogged hrows hpassing hrefused

theorem Inv.exec (h : x.Inv m) (hst : st.Fits m x) : ∃ a y, x.exec appendRecord snprintf m st = some (a, y) ∧
    y.Inv m ∧ TableStatement.Means snprintf m (HasRoom m x) (appendRecord.Refused x.log y.log)
      (TxnMark.getNextGlobalTxnId x.globalTxnId) x.rows st a y.rows := by
  cases st with
  | insert values heap =>
    obtain ⟨a, y, hrun, hy⟩ := insert_means appendRecord snprintf values heap h
    exact ⟨a, y, congrArg some hrun, hy⟩
  | delete passes => exact delete_means appendRecord snprintf passes h
  | select passes fields =>
    obtain ⟨y, hrun, hy, hlive, -⟩ := select_spec snprintf passes h hst
    have hrows : contents (calm y.file.pool) = contents (calm x.file.pool) :=
      contents_of_live h.usable.scannable hy.usable.scannable hlive
    have hrows' : y.rows = x.rows := hrows
    refine ⟨_, y, hrun, hy, ?_⟩
    rw [hrows']
    exact .selected rfl
  | reorder free =>
    obtain ⟨stored, hbooks⟩ := h.books
    have hfree : ∀ q ∈ free, q ≠ PagePool.headerPage ∧ q < x.file.pool.pagesNum :=
      fun q hq => hbooks.free q (hst.mem_iff.mp hq)
    refine ⟨_, _, if_pos hst, ⟨⟨stored, hbooks.usable, hbooks.empty, hfree, hbooks.stored⟩, h.held, h.size⟩, ?_⟩
    exact .reordered

/-- Every statement of the run fits in the state it is made in. -/
def AllFit (m : TableMeta) : TableSession → List TableStatement → Prop
  | _, [] => True
  | x, st :: sts => st.Fits m x ∧ ∀ a y, x.exec appendRecord snprintf m st = some (a, y) → AllFit m y sts

theorem Inv.run {sts : List TableStatement} {as : List TableAnswer} (h : x.Inv m)
    (hfit : AllFit appendRecord snprintf m x sts) (hrun : x.run appendRecord snprintf m sts = some (as, y)) : y.Inv m := by
  induction sts generalizing x as with
  | nil =>
    cases hrun
    exact h
  | cons st sts ih =>
    obtain ⟨hst, hrest⟩ := hfit
    obtain ⟨a, z, hexec, hz, -⟩ := h.exec appendRecord snprintf hst
    unfold TableSession.run at hrun
    simp only [hexec] at hrun
    obtain ⟨⟨bs, w⟩, hbs, heq⟩ := Option.map_eq_some_iff.mp hrun
    cases heq
    exact ih hz (hrest a z hexec) hbs

theorem Inv.runs (sts : List TableStatement) (h : x.Inv m) (hfit : AllFit appendRecord snprintf m x sts) :
    ∃ as y, x.run appendRecord snprintf m sts = some (as, y) := by
  induction sts generalizing x with
  | nil => exact ⟨[], x, rfl⟩
  | cons st sts ih =>
    obtain ⟨hst, hrest⟩ := hfit
    obtain ⟨a, z, hexec, hz, -⟩ := h.exec appendRecord snprintf hst
    obtain ⟨as, y, hrun⟩ := ih hz (hrest a z hexec)
    refine ⟨a :: as, y, ?_⟩
    unfold TableSession.run
    simp only [hexec, hrun, Option.map_some]

/-- After any statements on a table just created, every further statement answers, and it answers what it means
for the multiset of the rows: an INSERT adds the row it makes and fails only if the file has no room for it, or the
log refused a record of it; a DELETE takes away exactly the rows that pass and counts them, unless the log refused
a record of it; a SELECT prints the rows that pass. -/
theorem exec_means (m : TableMeta) (sts : List TableStatement) (as : List TableAnswer) (x : TableSession)
    (hfit : AllFit appendRecord snprintf m (start m) sts)
    (hrun : (start m).run appendRecord snprintf m sts = some (as, x)) (st : TableStatement) (hst : st.Fits m x) :
    ∃ a y, x.exec appendRecord snprintf m st = some (a, y) ∧
      TableStatement.Means snprintf m (HasRoom m x) (appendRecord.Refused x.log y.log)
        (TxnMark.getNextGlobalTxnId x.globalTxnId) x.rows st a y.rows := by
  obtain ⟨a, y, hexec, -, hmeans⟩ :=
    ((Inv.start m).run appendRecord snprintf hfit hrun).exec appendRecord snprintf hst
  exact ⟨a, y, hexec, hmeans⟩

/-- A log that refuses its third record. -/
def refusesThird : AppendRecord := fun log _ => if log.length = 2 then .logBufFull else .success

/-- `('a', 7)` is inserted, then all rows are deleted, and the log refuses the record of the deletion. -/
theorem exec_means_inserted : ∃ as x, (start wideTable).run refusesThird id wideTable
      [.insert [.chars [97], .ints 7] fun _ => 255] = some (as, x) ∧
    ∃ a y, x.exec refusesThird id wideTable (.delete fun _ => true) = some (a, y) ∧
      TableStatement.Means id wideTable (HasRoom wideTable x) (refusesThird.Refused x.log y.log)
        (TxnMark.getNextGlobalTxnId x.globalTxnId) x.rows (.delete fun _ => true) a y.rows := by
  have hfit : AllFit refusesThird id wideTable (start wideTable) [.insert [.chars [97], .ints 7] fun _ => 255] :=
    ⟨trivial, fun _ _ _ => trivial⟩
  exact ⟨_, _, rfl, exec_means refusesThird id wideTable _ _ _ hfit rfl (.delete fun _ => true) trivial⟩

end TableSession

end Idmbs
