import Idmbs.Storage.RecordCalls
import Idmbs.Storage.RecordScan

/-!
# Idmbs.Storage.RecordMap

The record file as a map from rids to bytes, over runs of calls from an empty file. It is one as long as
`InsertRecord` is not offered a page that `DeleteRecord` gave back (such a page is still in `free_pages_`,
takes the record, and is left out by every scan) and no record that ends behind its page is loaded again.
-/

namespace Idmbs

open BitMap RecordPool

/-! ## The scan

A scanner does not see which pages wait for their disposal, as long as they stay pinned without it. -/

namespace RecordPool

/-- The pool with no page that waits for its disposal. -/
def calm (s : RecordPool) : RecordPool := { s with disposedPages := fun _ => false }

/-- The pages that wait for their disposal are pinned, also without the pin on `o`. -/
def Guarded (s : RecordPool) (o : Option PageId) : Prop :=
  ∀ p, s.disposedPages p = true → (if o = some p then 1 else 0) < s.pinCount p

variable {s s' : RecordPool} {o : Option PageId} {p : PageId}

theorem Usable.scannable (h : Usable s) : Scannable s.calm := ⟨⟨h.faults, h.bounded, h.header⟩, nofun⟩

theorem Usable.guarded (h : Usable s) : Guarded s none := h.waiting

theorem unpinPage_guarded (h : s.disposedPages p = true → 1 < s.pinCount p) :
    s.unpinPage p = s.released p := by
  unfold PagePool.unpinPage
  refine if_neg fun hc => ?_
  have hpin : s.pinCount p - 1 = 0 := by simpa using hc.1
  have := h hc.2
  omega

theorem Guarded.destroy (h : Guarded s o) :
    RecordPageHandler.destroy s.calm o = (RecordPageHandler.destroy s o).calm ∧
    Guarded (RecordPageHandler.destroy s o) none ∧ (RecordPageHandler.destroy s o).faults = s.faults := by
  cases o with
  | none => exact ⟨rfl, h, rfl⟩
  | some p =>
    have hp : s.disposedPages p = true → 1 < s.pinCount p := fun hw => by simpa using h p hw
    have hs := unpinPage_guarded hp
    have hcalm : s.calm.unpinPage p = calm (s.released p) := unpinPage_guarded nofun
    change s.calm.unpinPage p = calm (s.unpinPage p) ∧ Guarded (s.unpinPage p) none ∧
      (s.unpinPage p).faults = s.faults
    rw [hcalm, hs]
    refine ⟨rfl, fun q hq => ?_, rfl⟩
    rw [if_neg nofun]
    by_cases he : q = p
    · subst he
      have := hp hq
      simp only [PagePool.pinCount_released, Function.update_self]
      omega
    · have := h q hq
      rw [if_neg fun hc => he (Option.some.inj hc).symm] at this
      simpa [Function.update_of_ne he] using this

theorem Guarded.pinned (h : Guarded s none) : Guarded (s.pinned p) (some p) := by
  intro q hq
  have := h q hq
  by_cases he : q = p
  · subst he
    simp only [PagePool.pinned, PagePool.setPin, Function.update_self, if_true]
    omega
  · rw [if_neg fun hc => he (Option.some.inj hc).symm]
    simpa [PagePool.pinned, PagePool.setPin, Function.update_of_ne he] using this

theorem getPage_calm (hf : s.faults = []) :
    (s.calm.getPage p = (.ioErrRead, s.calm) ∧ s.getPage p = (.ioErrRead, s)) ∨
    (s.calm.getPage p = (.success, calm (s.pinned p)) ∧ s.getPage p = (.success, s.pinned p)) := by
  have hfc : s.calm.faults = [] := hf
  by_cases hp : s.pagesNum ≤ p
  · have hpc : s.calm.pagesNum ≤ p := hp
    exact .inl ⟨by simp [PagePool.getPage, PagePool.takeFault, hfc, hpc],
      by simp [PagePool.getPage, PagePool.takeFault, hf, hp]⟩
  · have hpc : ¬s.calm.pagesNum ≤ p := hp
    refine .inr ⟨?_, by simp [PagePool.getPage, PagePool.takeFault, hf, hp, PagePool.pinned]⟩
    simp only [PagePool.getPage, PagePool.takeFault, hfc, ne_eq, not_true_eq_false, if_false, if_neg hpc]
    rfl

end RecordPool

namespace RecordFileScanner

variable {s s' : RecordPool} {c : RecordFileScanner}

theorem handlerPage_fetchNextRecordInPage (it : RecordPageIterator) :
    (fetchNextRecordInPage s c it).2.handlerPage = c.handlerPage := by
  unfold fetchNextRecordInPage
  split
  · rfl
  · rfl

/-- Both answers of a scan agree, and the pages that wait stay pinned. -/
def Agree (x y : Option (Re × RecordPool × RecordFileScanner)) : Prop :=
  (x = none ∧ y = none) ∨ ∃ r t d, x = some (r, t.calm, d) ∧ y = some (r, t, d) ∧ t.faults = [] ∧
    Guarded t d.handlerPage

theorem fetchPages_calm (fuel : Nat) (hf : s.faults = []) (h : Guarded s c.handlerPage) :
    Agree (fetchPages fuel s.calm c) (fetchPages fuel s c) := by
  induction fuel generalizing s c with
  | zero => exact .inl ⟨rfl, rfl⟩
  | succ fuel ih =>
    unfold fetchPages
    have hbits : s.calm.bitmap = s.bitmap := rfl
    rw [hbits]
    cases nextSetBit s.bitmap c.pagesNum (c.currentPageId + 1) with
    | none => exact .inr ⟨_, s, _, rfl, rfl, hf, h⟩
    | some p =>
      obtain ⟨hdestroy, hguard, hfaults⟩ := h.destroy
      simp only [hdestroy]
      rcases getPage_calm (p := p) (hfaults.trans hf) with ⟨hc, hs⟩ | ⟨hc, hs⟩
      · rw [hc, hs]
        exact .inr ⟨.ioErrRead, _, _, rfl, rfl, hfaults.trans hf, hguard⟩
      · rw [hc, hs]
        obtain ⟨t, ht⟩ : ∃ t : RecordPool, (RecordPageHandler.destroy s c.handlerPage).pinned p = t := ⟨_, rfl⟩
        have htf : t.faults = [] := ht ▸ hfaults.trans hf
        have htg : Guarded t (some p) := ht ▸ hguard.pinned
        rw [ht]
        have hsame : fetchNextRecordInPage t.calm { c with currentPageId := p, handlerPage := some p }
            (RecordPageIterator.init t.calm p) =
            fetchNextRecordInPage t { c with currentPageId := p, handlerPage := some p }
              (RecordPageIterator.init t p) := rfl
        have hhandler := handlerPage_fetchNextRecordInPage (s := t)
          (c := { c with currentPageId := p, handlerPage := some p }) (RecordPageIterator.init t p)
        simp only [ne_eq, not_true_eq_false, if_false, hsame]
        split
        · exact .inr ⟨_, t, _, rfl, rfl, htf, hhandler ▸ htg⟩
        · exact ih htf (hhandler ▸ htg)

theorem fetchNextRecord_calm (fuel : Nat) (hf : s.faults = []) (h : Guarded s c.handlerPage) :
    Agree (fetchNextRecord fuel s.calm c) (fetchNextRecord fuel s c) := by
  unfold fetchNextRecord
  cases c.iterator with
  | none => exact fetchPages_calm fuel hf h
  | some it =>
    have hsame : fetchNextRecordInPage s.calm c it = fetchNextRecordInPage s c it := rfl
    have hhandler := handlerPage_fetchNextRecordInPage (s := s) (c := c) it
    simp only [hsame]
    split
    · exact .inr ⟨_, s, _, rfl, rfl, hf, hhandler ▸ h⟩
    · exact fetchPages_calm fuel hf (hhandler ▸ h)

theorem next_calm (fuel : Nat) (hf : s.faults = []) (h : Guarded s c.handlerPage) :
    Agree (next fuel s.calm c) (next fuel s c) := by
  unfold next
  rcases fetchNextRecord_calm fuel hf h with ⟨hx, hy⟩ | ⟨r, t, d, hx, hy, hrest⟩
  · rw [hx, hy]
    exact .inl ⟨rfl, rfl⟩
  · rw [hx, hy]
    exact .inr ⟨_, t, d, rfl, rfl, hrest⟩

theorem init_calm (fuel : Nat) (hf : s.faults = []) (h : Guarded s none) :
    Agree (init fuel s.calm) (init fuel s) := by
  unfold init
  have hagree := fetchNextRecord_calm (c := ⟨0, s.pagesNum, none, none, none⟩) fuel hf h
  have hpages : s.calm.pagesNum = s.pagesNum := rfl
  rw [hpages]
  rcases hagree with ⟨hx, hy⟩ | ⟨r, t, d, hx, hy, hrest⟩
  · rw [hx, hy]
    exact .inl ⟨rfl, rfl⟩
  · rw [hx, hy]
    exact .inr ⟨_, t, d, rfl, rfl, hrest⟩

end RecordFileScanner

namespace RecordFile

open RecordFileScanner

variable {s : RecordPool} {c : RecordFileScanner} {f : RecordFile} {rids : List Slot} {rid : Slot} {n : Nat}

theorem scanRest_calm (fuel : Nat) (hf : s.faults = []) (h : Guarded s c.handlerPage) :
    scanRest fuel n s.calm c = scanRest fuel n s c := by
  induction n generalizing s c with
  | zero => rfl
  | succ n ih =>
    unfold scanRest
    cases c.nextRecord with
    | none => rfl
    | some rid =>
      rcases next_calm fuel hf h with ⟨hx, hy⟩ | ⟨r, t, d, hx, hy, hft, hgt⟩
      · simp only [hx, hy]
      · simp only [hx, hy, ih hft hgt]

theorem scanRest_spec (fuel : Nat) (hs : Scannable s) (hfuel : s.pagesNum < fuel) (h : Ahead s c rids)
    (hn : rids.length < n) : scanRest fuel n s c = some rids := by
  induction rids generalizing s c n with
  | nil =>
    obtain ⟨n, rfl⟩ : ∃ m, n = m + 1 := ⟨n - 1, by omega⟩
    cases h with
    | done hnone =>
      unfold scanRest
      rw [hnone]
  | cons rid rids ih =>
    obtain ⟨n, rfl⟩ : ∃ m, n = m + 1 := ⟨n - 1, by omega⟩
    obtain ⟨hnext, s', c', hrun, hfrees, hahead⟩ := next_spec fuel hs h hfuel
    have hrest := ih (hs.frees hfrees) (hfrees.pagesNum ▸ hfuel) hahead (Nat.lt_of_succ_lt_succ hn)
    unfold scanRest
    simp only [hnext, hrun, ne_eq, not_true_eq_false, if_false, hrest, Option.map_some]

/-- A scan lists the records on the allocated pages. -/
theorem scan_spec (fuel : Nat) (h : Usable f.pool) (hfuel : f.pool.pagesNum < fuel)
    (hrows : (rows f.pool).length < fuel) : f.scan fuel = some (rows f.pool) := by
  obtain ⟨s', c', hinit, hfrees, hahead⟩ := RecordFileScanner.init_spec fuel h.scannable hfuel
  have hcalm := scanRest_spec fuel (h.scannable.frees hfrees) (hfrees.pagesNum ▸ hfuel) hahead hrows
  rcases init_calm fuel h.faults h.guarded with ⟨hx, -⟩ | ⟨r, t, d, hx, hy, hft, hgt⟩
  · rw [hinit] at hx
    cases hx
  · rw [hinit] at hx
    cases hx
    rw [scanRest_calm fuel hft hgt] at hcalm
    unfold scan
    simp only [hy, ne_eq, not_true_eq_false, if_false, hcalm]
    rfl

end RecordFile

/-! ## Runs -/

/-- A record file and the bytes last stored under each rid, by the answers of the calls. -/
structure RecordSession where
  file : RecordFile
  stored : Slot → Option (List UInt8)

namespace RecordSession

inductive Op where
  | insertRecord (bs : List UInt8)
  | updateRecord (rid : Slot) (bs : List UInt8)
  | deleteRecord (rid : Slot)
  /-- the file is flushed and a new handler set on the same buffer pool -/
  | newHandler
  /-- the file is flushed, closed and opened again, with a new handler -/
  | reopen (kept : PageId → Bool)
  /-- the iterator of `free_pages_` has no order of its own -/
  | reorder (free : List PageId)

def start (recordSize : Nat) : RecordSession := ⟨.empty recordSize, fun _ => none⟩

/-- One call; `none` for one that is not made: page 0 is the header of the file and has no records. -/
def call (x : RecordSession) : Op → Option RecordSession
  | .insertRecord bs =>
    match x.file.insertRecord bs with
    | (.success, some rid, f) => some ⟨f, Function.update x.stored rid (some bs)⟩
    | (_, _, f) => some ⟨f, x.stored⟩
  | .updateRecord rid bs =>
    if rid.1 = PagePool.headerPage then none
    else
      match x.file.updateRecord rid bs with
      | (r, f) => some ⟨f, if r = .success then Function.update x.stored rid (some bs) else x.stored⟩
  | .deleteRecord rid =>
    if rid.1 = PagePool.headerPage then none
    else
      match x.file.deleteRecord rid with
      | (r, f) => some ⟨f, if r = .success then Function.update x.stored rid none else x.stored⟩
  | .newHandler => (RecordFileHandler.init x.file.recordSize x.file.pool.flushAllPages).map (⟨·, x.stored⟩)
  | .reopen kept => (RecordFileHandler.init x.file.recordSize (x.file.reopen kept)).map (⟨·, x.stored⟩)
  | .reorder free =>
    if free.Perm x.file.freePages then some ⟨{ x.file with freePages := free }, x.stored⟩ else none

def calls : RecordSession → List Op → Option RecordSession
  | x, [] => some x
  | x, o :: os => (x.call o).bind fun y => calls y os

/-- The record file is the map from rids to the bytes stored under them. -/
structure IsMap (x : RecordSession) : Prop where
  /-- `GetRecord` returns the bytes of a live rid, and of no other -/
  get : ∀ rid, rid.1 ≠ PagePool.headerPage → (x.file.getRecord rid).2.1 = x.stored rid
  /-- a new scanner lists the live rids, each once -/
  lists : ∃ rids : List Slot, rids.Nodup ∧ (∀ rid, rid ∈ rids ↔ (x.stored rid).isSome) ∧
    ∃ n, ∀ fuel, n ≤ fuel → x.file.scan fuel = some rids
  /-- `InsertRecord` returns no rid that is live -/
  fresh : ∀ bs rid f, x.file.insertRecord bs = (.success, some rid, f) → x.stored rid = none

/-- An insertion is not offered a page that was given back, and a record whose page is loaded again ends inside
the page. -/
def Meets (x : RecordSession) : Op → Prop
  | .insertRecord _ => ∀ p, x.file.offered = some p → x.file.pool.bitmap p = true
  | .reopen kept => ∀ rid bs, kept rid.1 = false → x.stored rid = some bs →
      bs.length ≤ slotRoom x.file.recordSize rid.2
  | _ => True

/-- Every call of the run meets the condition in the state it is made in. -/
def MeetsAll : RecordSession → List Op → Prop
  | _, [] => True
  | x, o :: os => x.Meets o ∧ ∀ y, x.call o = some y → MeetsAll y os

structure Inv (x : RecordSession) : Prop where
  usable : Usable x.file.pool
  empty : ∀ p, x.file.pool.bitmap p = false → (x.file.pool.pageData p).get = fun _ => none
  free : ∀ p ∈ x.file.freePages, p ≠ PagePool.headerPage ∧ p < x.file.pool.pagesNum
  stored : ∀ rid, x.stored rid =
    if rid.1 = PagePool.headerPage then none else (x.file.pool.pageData rid.1).get rid.2

variable {x y : RecordSession} {o : Op} {p : PageId} {s : RecordPool} {m : Nat → Option (List UInt8)}

theorem Inv.start (recordSize : Nat) : Inv (start recordSize) where
  usable := by
    refine ⟨rfl, fun p hp => ?_, rfl, nofun⟩
    have hzero : p = PagePool.headerPage := eq_of_beq hp
    exact hzero ▸ Nat.one_pos
  empty _ _ := rfl
  free := nofun
  stored rid := (ite_self none).symm

/-- A write only makes the file longer, so the free pages stay in it. -/
theorem Inv.free_of_writes {q : PageId} (h : Inv x) (hw : Writes x.file.pool s p m) (hq : q ∈ x.file.freePages) :
    q ≠ PagePool.headerPage ∧ q < s.pagesNum := by
  obtain ⟨hne, hlt⟩ := h.free q hq
  exact ⟨hne, Nat.lt_of_lt_of_le hlt hw.pagesNum⟩

/-- A call that changes one page keeps the books if the page is allocated or holds nothing. -/
theorem Inv.writes {recordSize : Nat} {free : List PageId} {stored : Slot → Option (List UInt8)} (h : Inv x)
    (hp : p ≠ PagePool.headerPage) (hw : Writes x.file.pool s p m)
    (hocc : s.bitmap p = true ∨ m = fun _ => none)
    (hfree : ∀ q ∈ free, q ≠ PagePool.headerPage ∧ q < s.pagesNum)
    (hstored : ∀ rid, stored rid = if rid.1 = p then m rid.2 else x.stored rid) :
    Inv ⟨⟨recordSize, s, free⟩, stored⟩ where
  usable := hw.usable
  empty q hq := by
    by_cases he : q = p
    · subst he
      rcases hocc with hbit | hm
      · rw [hbit] at hq
        cases hq
      · exact hw.page.trans hm
    · exact (congrArg RecordPage.get (hw.others q he)).trans (h.empty q ((hw.bits q he).symm.trans hq))
  free := hfree
  stored rid := by
    refine (hstored rid).trans ?_
    split
    · rename_i he
      rw [if_neg (he ▸ hp), he]
      exact (congrFun hw.page rid.2).symm
    · rename_i he
      rw [h.stored rid]
      exact congrArg (fun g : RecordPage => if rid.1 = PagePool.headerPage then none else g.get rid.2)
        (hw.others rid.1 he).symm

theorem Inv.stored_page (h : Inv x) (hp : p ≠ PagePool.headerPage) (rid : Slot) : x.stored rid =
    if rid.1 = p then (x.file.pool.pageData p).get rid.2 else x.stored rid := by
  split
  · rename_i he
    rw [h.stored rid, if_neg (he ▸ hp), he]
  · rfl

theorem Inv.update_stored (h : Inv x) {k : Slot} (hk : k.1 ≠ PagePool.headerPage)
    (v : Option (List UInt8)) (rid : Slot) : Function.update x.stored k v rid =
      if rid.1 = k.1 then Function.update (x.file.pool.pageData k.1).get k.2 v rid.2 else x.stored rid := by
  by_cases he : rid = k
  · subst he
    simp
  · rw [Function.update_of_ne he]
    split
    · rename_i hpage
      have hslot : rid.2 ≠ k.2 := fun hs => he (Prod.ext hpage hs)
      rw [Function.update_of_ne hslot, h.stored rid, if_neg (hpage ▸ hk), hpage]
    · rfl

theorem Inv.isMap (h : Inv x) : IsMap x where
  get rid hne := by
    rw [RecordFile.getRecord_spec h.usable, h.stored rid, if_neg hne]
    split
    · rfl
    · rename_i hp
      have hbit : x.file.pool.bitmap rid.1 = false := by
        by_contra hc
        exact hp (h.usable.bounded _ (Bool.eq_true_of_not_eq_false hc))
      rw [h.empty _ hbit]
  lists := by
    refine ⟨rows x.file.pool, nodup_rowsFrom, fun rid => ?_,
      x.file.pool.pagesNum + (rows x.file.pool).length + 1, fun fuel hfuel =>
        RecordFile.scan_spec fuel h.usable (by omega) (by omega)⟩
    rw [rows, mem_rowsFrom, RecordPage.mem_slots, h.stored rid]
    by_cases hne : rid.1 = PagePool.headerPage
    · rw [if_pos hne]
      refine iff_of_false (fun hc => ?_) Bool.false_ne_true
      exact absurd (hne ▸ hc.1) (by decide)
    · rw [if_neg hne]
      refine ⟨fun hc => hc.2.2.2, fun hsome => ?_⟩
      have hbit : x.file.pool.bitmap rid.1 = true := by
        by_contra hc
        rw [h.empty _ (eq_false_of_ne_true hc)] at hsome
        cases hsome
      exact ⟨Nat.pos_of_ne_zero hne, h.usable.bounded _ hbit, hbit, hsome⟩
  fresh bs rid f heq := by
    rcases RecordFile.insertRecord_spec bs h.usable fun p hp => (h.free p hp).2 with
      ⟨p, rest, slot, s', -, hp, -, hins, hget, -, -⟩ | ⟨-, r, s', -, hins, -⟩ |
      ⟨-, p, s', m, hbit, -, -, -, ⟨r, -, -, hins⟩ | ⟨slot, -, hins⟩⟩
    · rw [hins] at heq
      cases heq
      rw [h.stored, if_neg (h.free p hp).1]
      exact hget
    · rw [hins] at heq
      cases heq
    · rw [hins] at heq
      cases heq
    · rw [hins] at heq
      cases heq
      rw [h.stored, h.empty p hbit]
      exact ite_self none

theorem call_inserted {bs : List UInt8} {rid : Slot} {f : RecordFile}
    (h : x.file.insertRecord bs = (.success, some rid, f)) :
    x.call (.insertRecord bs) = some ⟨f, Function.update x.stored rid (some bs)⟩ := by
  simp only [call, h]

theorem call_notInserted {bs : List UInt8} {r : Re} {f : RecordFile}
    (h : x.file.insertRecord bs = (r, none, f)) : x.call (.insertRecord bs) = some ⟨f, x.stored⟩ := by
  simp only [call, h]

theorem Inv.insertRecord {bs : List UInt8} (h : Inv x) (hm : x.Meets (.insertRecord bs))
    (hc : x.call (.insertRecord bs) = some y) :
    Inv y ∧ (Held x.file.pool → Held y.file.pool) := by
  rcases RecordFile.insertRecord_spec bs h.usable fun p hp => (h.free p hp).2 with
    ⟨p, rest, slot, s', hoff, hp, hsub, hins, -, hbits, hw⟩ | ⟨-, r, s', -, hins, hu, hdata, hbits, hheld⟩ |
    ⟨-, p, s', m, hbit, hbit', hlt, hw, ⟨r, -, hm, hins⟩ | ⟨slot, hm, hins⟩⟩
  · rw [call_inserted hins] at hc
    cases hc
    refine ⟨h.writes (h.free p hp).1 hw (.inl ?_)
      (fun q hq => h.free_of_writes hw (hsub hq))
      (h.update_stored (h.free p hp).1 (some bs)), hw.held⟩
    rw [hbits]
    exact hm p hoff
  · rw [call_notInserted hins] at hc
    cases hc
    refine ⟨⟨hu, fun q hq => ?_, nofun, fun rid => ?_⟩, hheld⟩
    · exact (congrArg (fun d => (d q).get) hdata).trans (h.empty q (hbits ▸ hq))
    · rw [h.stored rid]
      exact congrArg (fun d : PageId → RecordPage =>
        if rid.1 = PagePool.headerPage then none else (d rid.1).get rid.2) hdata.symm
  · rw [call_notInserted hins] at hc
    cases hc
    have hp := h.usable.ne_headerPage hbit
    refine ⟨h.writes hp hw (.inl hbit') (fun q hq => ?_) fun rid => ?_, hw.held⟩
    · rw [List.mem_singleton.mp hq]
      exact ⟨hp, hlt⟩
    · have hpage := h.stored_page hp rid
      rw [h.empty p hbit] at hpage
      rw [hm]
      exact hpage
  · rw [call_inserted hins] at hc
    cases hc
    have hp := h.usable.ne_headerPage hbit
    refine ⟨h.writes hp hw (.inl hbit') (fun q hq => ?_) fun rid => ?_, hw.held⟩
    · rw [List.mem_singleton.mp hq]
      exact ⟨hp, hlt⟩
    · rw [h.update_stored (k := (p, slot)) hp (some bs) rid, h.empty p hbit, hm]

/-- A page keeps its records allocated as long as its own state in the header stays. -/
theorem Inv.occupied (h : Inv x) (p : PageId) :
    x.file.pool.bitmap p = true ∨ (x.file.pool.pageData p).get = fun _ => none := by
  cases hbit : x.file.pool.bitmap p with
  | true => exact .inl rfl
  | false => exact .inr (h.empty p hbit)

theorem Inv.used (h : Inv x) {rid : Slot} (hused : (x.file.pool.pageData rid.1).get rid.2 ≠ none) :
    x.file.pool.bitmap rid.1 = true := by
  by_contra hc
  rw [h.empty _ (eq_false_of_ne_true hc)] at hused
  exact hused rfl

theorem Inv.updateRecord {rid : Slot} {bs : List UInt8} (h : Inv x)
    (hc : x.call (.updateRecord rid bs) = some y) : Inv y ∧ (Held x.file.pool → Held y.file.pool) := by
  unfold call at hc
  simp only at hc
  split at hc
  · cases hc
  · rename_i hp
    rcases RecordFile.updateRecord_spec rid bs h.usable with
      ⟨r, s', hr, heq, hw, hbits⟩ | ⟨-, hused, s', heq, hw, hbits⟩
    · simp only [heq, if_neg hr] at hc
      cases hc
      exact ⟨h.writes hp hw (hbits ▸ h.occupied rid.1)
        (fun _ => h.free_of_writes hw) (h.stored_page hp), hw.held⟩
    · simp only [heq, if_true] at hc
      cases hc
      exact ⟨h.writes hp hw (.inl (hbits ▸ h.used hused))
        (fun _ => h.free_of_writes hw)
        (h.update_stored hp (some bs)), hw.held⟩

theorem Inv.deleteRecord {rid : Slot} (h : Inv x) (hc : x.call (.deleteRecord rid) = some y) :
    Inv y ∧ (Held x.file.pool → Held y.file.pool) := by
  unfold call at hc
  simp only at hc
  split at hc
  · cases hc
  · rename_i hp
    rcases RecordFile.deleteRecord_spec h.usable hp with
      ⟨r, s', hr, heq, hw, hbits⟩ | ⟨hlt, hused, s', m, heq, hm, hw, hbits⟩
    · simp only [heq, if_neg hr] at hc
      cases hc
      exact ⟨h.writes hp hw (hbits ▸ h.occupied rid.1)
        (fun _ => h.free_of_writes hw) (h.stored_page hp), hw.held⟩
    · simp only [heq, if_true] at hc
      cases hc
      refine ⟨h.writes hp hw (hbits.imp_left fun hb => hb.trans (h.used hused)) (fun q hq => ?_)
        (hm ▸ h.update_stored hp none), hw.held⟩
      rcases List.mem_insert_iff.mp hq with rfl | hq
      · exact ⟨hp, Nat.lt_of_lt_of_le hlt hw.pagesNum⟩
      · exact h.free_of_writes hw hq

theorem Inv.init {s : RecordPool} (h : Inv x) (hu : Usable s) (hbits : s.bitmap = x.file.pool.bitmap)
    (hdata : ∀ p, p ≠ PagePool.headerPage → (s.pageData p).get = (x.file.pool.pageData p).get)
    (hc : (RecordFileHandler.init x.file.recordSize s).map (⟨·, x.stored⟩) = some y) :
    Inv y ∧ y.file.pool = s := by
  obtain ⟨free, heq, hfree⟩ := RecordFile.init_spec x.file.recordSize hu
  rw [heq] at hc
  cases hc
  refine ⟨⟨hu, fun q hq => ?_, hfree, fun rid => ?_⟩, rfl⟩
  · exact (hdata q (hu.ne_headerPage hq)).trans (h.empty q (hbits ▸ hq))
  · rw [h.stored rid]
    change _ = if rid.1 = PagePool.headerPage then none else (s.pageData rid.1).get rid.2
    split
    · rfl
    · rename_i hne
      rw [hdata rid.1 hne]

/-- Records that end inside the page are loaded again as they were. -/
theorem Inv.reopen_get {kept : PageId → Bool} (h : Inv x) (hm : x.Meets (.reopen kept)) {p : PageId}
    (hp : p ≠ PagePool.headerPage) :
    ((x.file.reopen kept).pageData p).get = (x.file.pool.pageData p).get := by
  unfold RecordFile.reopen
  simp only
  split
  · rfl
  · rename_i hkept
    funext slot
    rw [RecordPage.get_reloaded]
    cases hget : (x.file.pool.pageData p).get slot with
    | none => rfl
    | some bs =>
      have hstored : x.stored (p, slot) = some bs := by rw [h.stored, if_neg hp, hget]
      exact congrArg some (List.take_of_length_le (hm (p, slot) bs (eq_false_of_ne_true hkept) hstored))

/-- Only opening the file again takes the pins from the pages. -/
def Op.inOneOpening : Op → Bool
  | .reopen _ => false
  | _ => true

theorem Inv.call_held (h : Inv x) (hm : x.Meets o) (hc : x.call o = some y) :
    Inv y ∧ (o.inOneOpening = true → Held x.file.pool → Held y.file.pool) := by
  cases o with
  | insertRecord bs => exact (h.insertRecord hm hc).imp id fun hheld _ => hheld
  | updateRecord rid bs => exact (h.updateRecord hc).imp id fun hheld _ => hheld
  | deleteRecord rid => exact (h.deleteRecord hc).imp id fun hheld _ => hheld
  | newHandler =>
    obtain ⟨hy, hpool⟩ := h.init (s := x.file.pool.flushAllPages)
      ⟨h.usable.faults, h.usable.bounded, h.usable.header, h.usable.waiting⟩ rfl (fun _ _ => rfl) hc
    exact ⟨hy, fun _ hheld => hpool ▸ hheld⟩
  | reopen kept =>
    exact ⟨(h.init (s := x.file.reopen kept)
      ⟨h.usable.faults, h.usable.bounded, h.usable.header, nofun⟩ rfl (fun _ => h.reopen_get hm) hc).1, nofun⟩
  | reorder free =>
    unfold RecordSession.call at hc
    simp only at hc
    split at hc
    · rename_i hperm
      cases hc
      exact ⟨⟨h.usable, h.empty, fun q hq => h.free q (hperm.mem_iff.mp hq), h.stored⟩, fun _ hheld => hheld⟩
    · cases hc

theorem Inv.call (h : Inv x) (hm : x.Meets o) (hc : x.call o = some y) : Inv y := (h.call_held hm hc).1

theorem call_insertRecord (x : RecordSession) (bs : List UInt8) : ∃ y, x.call (.insertRecord bs) = some y := by
  unfold RecordSession.call
  simp only
  split
  · exact ⟨_, rfl⟩
  · exact ⟨_, rfl⟩

/-- A record inserted on a page that was given back is not listed. -/
theorem Inv.not_isMap {bs : List UInt8} (h : Inv x) (hm : ¬x.Meets (.insertRecord bs))
    (hc : x.call (.insertRecord bs) = some y) : ¬IsMap y := by
  intro hy
  refine hm fun p hoff => ?_
  rcases RecordFile.insertRecord_spec bs h.usable fun p hp => (h.free p hp).2 with
    ⟨p', rest, slot, s', hoff', -, -, hins, -, hbits, hw⟩ | ⟨hnone, -⟩ | ⟨hnone, -⟩
  · rw [hoff] at hoff'
    cases hoff'
    rw [call_inserted hins] at hc
    cases hc
    obtain ⟨rids, -, hmem, n, hscan⟩ := hy.lists
    obtain ⟨fuel, hfuel⟩ : ∃ fuel, fuel = n + s'.pagesNum + (rows s').length + 1 := ⟨_, rfl⟩
    have hrows := RecordFile.scan_spec (f := { x.file with pool := s', freePages := rest }) fuel hw.usable
      (show s'.pagesNum < fuel by omega) (show (rows s').length < fuel by omega)
    rw [hscan fuel (by omega)] at hrows
    have hlisted : (p, slot) ∈ rids := (hmem (p, slot)).mpr (by simp)
    rw [Option.some.inj hrows] at hlisted
    have hbit := (mem_rowsFrom.mp hlisted).2.2.1
    rwa [← hbits]
  · rw [hoff] at hnone
    cases hnone
  · rw [hoff] at hnone
    cases hnone

/-- A record that ends behind its page has lost its last bytes when the page is loaded again. -/
theorem Inv.not_isMap_reopened {kept : PageId → Bool} (h : Inv x) (hm : ¬x.Meets (.reopen kept))
    (hc : x.call (.reopen kept) = some y) : ¬IsMap y := by
  intro hy
  refine hm fun rid bs hkept hstored => ?_
  have hne : rid.1 ≠ PagePool.headerPage := by
    intro he
    rw [h.stored, if_pos he] at hstored
    cases hstored
  have husable : Usable (x.file.reopen kept) := ⟨h.usable.faults, h.usable.bounded, h.usable.header, nofun⟩
  obtain ⟨free, hinit, -⟩ := RecordFile.init_spec x.file.recordSize husable
  unfold RecordSession.call at hc
  simp only [hinit] at hc
  cases hc
  have hget := hy.get rid hne
  rw [RecordFile.getRecord_spec husable] at hget
  have hpage : ((x.file.reopen kept).pageData rid.1).get rid.2 =
      some (bs.take (slotRoom x.file.recordSize rid.2)) := by
    rw [h.stored, if_neg hne] at hstored
    have hdata : (x.file.reopen kept).pageData rid.1 = (x.file.pool.pageData rid.1).reloaded x.file.recordSize := by
      simp [RecordFile.reopen, hkept]
    rw [hdata, RecordPage.get_reloaded, hstored]
    rfl
  have hwhole : bs.take (slotRoom x.file.recordSize rid.2) = bs := by
    split at hget
    · exact Option.some.inj (hpage.symm.trans (hget.trans hstored))
    · rw [hstored] at hget
      cases hget
  rw [← hwhole, List.length_take]
  exact Nat.min_le_left _ _

theorem call_reopen (h : Inv x) (kept : PageId → Bool) : ∃ y, x.call (.reopen kept) = some y := by
  have husable : Usable (x.file.reopen kept) := ⟨h.usable.faults, h.usable.bounded, h.usable.header, nofun⟩
  obtain ⟨free, hinit, -⟩ := RecordFile.init_spec x.file.recordSize husable
  exact ⟨_, congrArg (Option.map _) hinit⟩

theorem Inv.run_iff {os : List Op} (h : Inv x) :
    (∀ pre y, pre <+: os → x.calls pre = some y → IsMap y) ↔ x.MeetsAll os := by
  induction os generalizing x with
  | nil =>
    refine ⟨fun _ => trivial, fun _ pre y hpre hy => ?_⟩
    rw [List.prefix_nil.mp hpre] at hy
    cases hy
    exact h.isMap
  | cons o os ih =>
    constructor
    · intro hall
      have hm : x.Meets o := by
        by_contra hm
        cases o with
        | insertRecord bs =>
          obtain ⟨y, hy⟩ := call_insertRecord x bs
          refine h.not_isMap hm hy (hall [.insertRecord bs] y (by simp) ?_)
          simp [calls, hy]
        | updateRecord rid bs => exact hm trivial
        | deleteRecord rid => exact hm trivial
        | newHandler => exact hm trivial
        | reopen kept =>
          obtain ⟨y, hy⟩ := call_reopen h kept
          refine h.not_isMap_reopened hm hy (hall [.reopen kept] y (by simp) ?_)
          simp [calls, hy]
        | reorder free => exact hm trivial
      refine ⟨hm, fun y hy => (ih (h.call hm hy)).mp fun pre z hpre hz => ?_⟩
      refine hall (o :: pre) z (List.prefix_cons_inj o |>.mpr hpre) ?_
      simp [calls, hy, hz]
    · rintro ⟨hm, hrest⟩ pre z hpre hz
      cases pre with
      | nil =>
        cases hz
        exact h.isMap
      | cons o' pre =>
        obtain ⟨rfl, hpre'⟩ := List.cons_prefix_cons.mp hpre
        obtain ⟨y, hy, hz⟩ := Option.bind_eq_some_iff.mp hz
        exact (ih (h.call hm hy)).mpr (hrest y hy) pre z hpre' hz

/-- An allocated page is offered as long as all pages are. -/
theorem Inv.meets_of_held (h : Inv x) (hheld : Held x.file.pool) (o : Op) (ho : o.inOneOpening = true) :
    x.Meets o := by
  cases o with
  | insertRecord bs =>
    intro p hoff
    obtain ⟨hne, hlt⟩ := h.free p (List.mem_of_find?_eq_some hoff)
    exact (hheld p hne hlt).1
  | updateRecord rid bs => trivial
  | deleteRecord rid => trivial
  | newHandler => trivial
  | reopen kept => cases ho
  | reorder free => trivial

/-- Every state of a run is the map of what was stored exactly if no insertion of the run is offered a page
that was given back and no reopening loads the page of a record that ends behind it. -/
theorem isMap_iff (recordSize : Nat) (os : List Op) :
    (∀ pre x, pre <+: os → (start recordSize).calls pre = some x → IsMap x) ↔
      (start recordSize).MeetsAll os := (Inv.start recordSize).run_iff

/-- The only record of the file is deleted after the file was opened again, which gives its page back; the
next record goes to that page. -/
theorem not_isMap_disposed : ∃ x, (start 1).calls [.insertRecord [1], .reopen fun _ => false,
    .deleteRecord (1, 0), .insertRecord [2]] = some x ∧ ¬IsMap x := by
  have hinserted := (Inv.start 1).call (o := .insertRecord [1]) (fun _ h => nomatch h) rfl
  have hfits : ∀ x : RecordSession, x.file.recordSize = 1 →
      x.stored = Function.update (fun _ => none) (1, 0) (some [1]) → x.Meets (.reopen fun _ => false) := by
    intro x hsize hx rid bs _ hstored
    rw [hx] at hstored
    rw [hsize]
    by_cases hrid : rid = (1, 0)
    · subst hrid
      cases hstored
      decide
    · rw [Function.update_of_ne hrid] at hstored
      cases hstored
  have hreopened := hinserted.call (o := .reopen fun _ => false) (hfits _ rfl rfl) rfl
  have hdeleted := hreopened.call (o := .deleteRecord (1, 0)) trivial rfl
  refine ⟨_, rfl, hdeleted.not_isMap (fun hmeets => ?_) rfl⟩
  exact absurd (hmeets 1 rfl) (by decide)

end RecordSession

end Idmbs
