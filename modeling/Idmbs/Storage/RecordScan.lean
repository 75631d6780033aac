import Idmbs.Storage.RecordFile

/-!
# Idmbs.Storage.RecordScan

What a scan of a record file still has in front of it, while pages without records are freed under it and
records behind it are deleted. `Ahead` is the invariant: the next record, then the rest of its page, then
the pages behind.
-/

namespace Idmbs

open BitMap

/-! ## The records of a file -/

namespace RecordPool

def live (s : RecordPool) (rid : Slot) : Option (List UInt8) :=
  if s.bitmap rid.1 = true ∧ rid.1 ≠ PagePool.headerPage ∧ rid.2 ∈ (s.pageData rid.1).slots then
    some ((s.pageData rid.1).data rid.2)
  else none

/-- The live records on page `p` from slot `k` on. -/
def slotsFrom (s : RecordPool) (p : PageId) (k : Nat) : List Slot :=
  (bitsFrom (s.pageData p).bits (s.pageData p).recordCapacity k).map fun slot => (p, slot)

/-- The live records from page `k` on, page by page. -/
def rowsFrom (s : RecordPool) (k : PageId) : List Slot :=
  (bitsFrom s.bitmap s.pagesNum k).flatMap fun p => slotsFrom s p 0

/-- The live records of the file in the order of the scan. -/
def rows (s : RecordPool) : List Slot := rowsFrom s 1

/-- No call fails, and the pages of the file are below `pages_num`. -/
structure Readable (s : RecordPool) : Prop where
  faults : s.faults = []
  bounded : ∀ p, s.bitmap p = true → p < s.pagesNum
  header : s.bitmap PagePool.headerPage = true

/-- No page that waits for its disposal has live records. -/
structure Scannable (s : RecordPool) : Prop extends Readable s where
  waiting : ∀ p, p ≠ PagePool.headerPage → s.bitmap p = true → s.disposedPages p = true →
    (s.pageData p).slots = []

/-- `s'` is `s` but for pages without records that were freed. -/
structure Frees (s s' : RecordPool) : Prop where
  pageData : s'.pageData = s.pageData
  pagesNum : s'.pagesNum = s.pagesNum
  faults : s'.faults = s.faults
  waiting : ∀ p, s'.disposedPages p = true → s.disposedPages p = true
  bitmap : ∀ p, s'.bitmap p = s.bitmap p ∨
    (s'.bitmap p = false ∧ p ≠ PagePool.headerPage ∧ (s.bitmap p = true → (s.pageData p).slots = []))

/-- `s'` is `s` but for pages before `k` that were given back, with the records on them. -/
structure GivesBack (k : PageId) (s s' : RecordPool) : Prop where
  pageData : s'.pageData = s.pageData
  pagesNum : s'.pagesNum = s.pagesNum
  faults : s'.faults = s.faults
  header : s'.bitmap PagePool.headerPage = s.bitmap PagePool.headerPage
  bit : ∀ p, s'.bitmap p = true → s.bitmap p = true
  behind : ∀ p, k ≤ p → s'.bitmap p = s.bitmap p

variable {s s' s'' : RecordPool} {p q : PageId} {rid : Slot} {k : Nat}

theorem GivesBack.refl : GivesBack k s s := ⟨rfl, rfl, rfl, rfl, fun _ h => h, fun _ _ => rfl⟩

theorem GivesBack.trans {j : PageId} (h : GivesBack j s s') (h' : GivesBack k s' s'') (hjk : j ≤ k) :
    GivesBack k s s'' where
  pageData := h'.pageData.trans h.pageData
  pagesNum := h'.pagesNum.trans h.pagesNum
  faults := h'.faults.trans h.faults
  header := h'.header.trans h.header
  bit p hp := h.bit p (h'.bit p hp)
  behind p hp := (h'.behind p hp).trans (h.behind p (hjk.trans hp))

theorem Readable.givesBack (hs : Readable s) (h : GivesBack k s s') : Readable s' where
  faults := h.faults.trans hs.faults
  bounded p hp := by
    rw [h.pagesNum]
    exact hs.bounded p (h.bit p hp)
  header := h.header.trans hs.header

theorem Frees.refl : Frees s s := ⟨rfl, rfl, rfl, fun _ h => h, fun _ => .inl rfl⟩

theorem Frees.trans (h : Frees s s') (h' : Frees s' s'') : Frees s s'' where
  pageData := h'.pageData.trans h.pageData
  pagesNum := h'.pagesNum.trans h.pagesNum
  faults := h'.faults.trans h.faults
  waiting p hp := h.waiting p (h'.waiting p hp)
  bitmap p := by
    rcases h'.bitmap p with he' | ⟨hfree', hp, hempty'⟩
    · rw [he']
      exact h.bitmap p
    · refine .inr ⟨hfree', hp, fun hbit => ?_⟩
      rcases h.bitmap p with he | ⟨-, -, hempty⟩
      · rw [← h.pageData]
        exact hempty' (he.trans hbit)
      · exact hempty hbit

theorem Frees.bit (h : Frees s s') (hp : s'.bitmap p = true) : s.bitmap p = true := by
  rcases h.bitmap p with he | ⟨hfree, -, -⟩
  · rw [← he]
    exact hp
  · rw [hp] at hfree
    cases hfree

theorem Scannable.frees (hs : Scannable s) (h : Frees s s') : Scannable s' where
  faults := h.faults.trans hs.faults
  bounded p hp := by
    rw [h.pagesNum]
    exact hs.bounded p (h.bit hp)
  header := by
    rcases h.bitmap PagePool.headerPage with he | ⟨-, hne, -⟩
    · exact he.trans hs.header
    · exact absurd rfl hne
  waiting p hne hp hw := by
    rw [h.pageData]
    exact hs.waiting p hne (h.bit hp) (h.waiting p hw)

theorem Frees.live (h : Frees s s') : live s' = live s := by
  funext rid
  unfold RecordPool.live
  rw [h.pageData]
  rcases h.bitmap rid.1 with he | ⟨hfree, -, hempty⟩
  · rw [he]
  · rw [if_neg (by simp [hfree]), if_neg]
    rintro ⟨hbit, -, hmem⟩
    rw [hempty hbit] at hmem
    cases hmem

theorem mem_slotsFrom : rid ∈ slotsFrom s p k ↔
    rid.1 = p ∧ k ≤ rid.2 ∧ rid.2 ∈ (s.pageData p).slots := by
  obtain ⟨p', slot⟩ := rid
  simp only [RecordPool.slotsFrom, List.mem_map, Prod.mk.injEq, RecordPage.slots, mem_bitsFrom]
  constructor
  · rintro ⟨a, ⟨hk, hcap, hbit⟩, rfl, rfl⟩
    exact ⟨rfl, hk, Nat.zero_le _, hcap, hbit⟩
  · rintro ⟨rfl, hk, -, hcap, hbit⟩
    exact ⟨slot, ⟨hk, hcap, hbit⟩, rfl, rfl⟩

theorem mem_rowsFrom : rid ∈ rowsFrom s k ↔ k ≤ rid.1 ∧ rid.1 < s.pagesNum ∧ s.bitmap rid.1 = true ∧
    rid.2 ∈ (s.pageData rid.1).slots := by
  simp only [rowsFrom, List.mem_flatMap, mem_bitsFrom, mem_slotsFrom]
  constructor
  · rintro ⟨p, ⟨hk, hlt, hbit⟩, rfl, -, hmem⟩
    exact ⟨hk, hlt, hbit, hmem⟩
  · rintro ⟨hk, hlt, hbit, hmem⟩
    exact ⟨rid.1, ⟨hk, hlt, hbit⟩, rfl, Nat.zero_le _, hmem⟩

theorem mem_rows (hs : Readable s) : rid ∈ rows s ↔ (live s rid).isSome := by
  rw [rows, mem_rowsFrom, RecordPool.live]
  split
  · rename_i h
    refine iff_of_true ⟨Nat.pos_of_ne_zero h.2.1, hs.bounded _ h.1, h.1, h.2.2⟩ rfl
  · rename_i h
    refine iff_of_false (fun hr => h ⟨hr.2.2.1, ?_, hr.2.2.2⟩) nofun
    exact Nat.ne_of_gt hr.1

theorem nodup_slotsFrom : (slotsFrom s p k).Nodup :=
  nodup_bitsFrom.map fun _ _ h => (Prod.mk.inj h).2

theorem nodup_rowsFrom : (rowsFrom s k).Nodup := by
  refine List.nodup_flatMap.mpr ⟨fun _ _ => nodup_slotsFrom, ?_⟩
  refine nodup_bitsFrom.imp fun hne => ?_
  intro rid h1 h2
  exact hne ((mem_slotsFrom.mp h1).1.symm.trans (mem_slotsFrom.mp h2).1)

theorem rowsFrom_of_bit (h : bitsFrom s.bitmap s.pagesNum k = p :: bitsFrom s.bitmap s.pagesNum (p + 1)) :
    rowsFrom s k = slotsFrom s p 0 ++ rowsFrom s (p + 1) := by
  rw [rowsFrom, h, List.flatMap_cons]
  rfl

/-! ## Pins -/

theorem unpinPage_frees (hs : Scannable s) (hp : p ≠ PagePool.headerPage) : Frees s (s.unpinPage p) := by
  unfold PagePool.unpinPage
  simp only
  split
  · rename_i hc
    unfold PagePool.disposePage
    rw [if_neg (by omega)]
    refine ⟨rfl, rfl, rfl, fun q hq => ?_, fun q => ?_⟩
    · by_cases he : q = p
      · simp [he] at hq
      · simpa [Function.update_of_ne he, PagePool.setPin] using hq
    · by_cases he : q = p
      · subst he
        exact .inr ⟨by simp, hp, fun hbit => hs.waiting q hp hbit hc.2⟩
      · exact .inl (by simp [Function.update_of_ne he])
  · exact ⟨rfl, rfl, rfl, fun _ h => h, fun _ => .inl rfl⟩

theorem GivesBack.slotsFrom (h : GivesBack k s s') : slotsFrom s' p q = slotsFrom s p q := by
  unfold RecordPool.slotsFrom
  rw [h.pageData]

theorem GivesBack.rowsFrom (h : GivesBack k s s') (hq : k ≤ q) : rowsFrom s' q = rowsFrom s q := by
  unfold RecordPool.rowsFrom
  rw [h.pagesNum, bitsFrom_congr fun p hp _ => h.behind p (hq.trans hp)]
  exact congrArg (List.flatMap · _) (funext fun p => h.slotsFrom)

theorem unpinPage_bitmap_of_ne (h : q ≠ p) : (s.unpinPage p).bitmap q = s.bitmap q := by
  unfold PagePool.unpinPage
  simp only
  split
  · unfold PagePool.disposePage
    split <;> simp [Function.update_of_ne h]
  · rfl

theorem destroy_frees {o : Option PageId} (hs : Scannable s)
    (h : ∀ p, o = some p → p ≠ PagePool.headerPage) : Frees s (RecordPageHandler.destroy s o) := by
  cases o with
  | none => exact .refl
  | some p => exact unpinPage_frees hs (h p rfl)

theorem unpinPage_givesBack (hp : p ≠ PagePool.headerPage) (hk : p < k) : GivesBack k s (s.unpinPage p) := by
  refine ⟨?_, ?_, ?_, unpinPage_bitmap_of_ne hp.symm, fun q hq => ?_, fun q hq => ?_⟩
  case refine_5 => exact unpinPage_bitmap_of_ne (Nat.ne_of_gt (Nat.lt_of_lt_of_le hk hq))
  case refine_4 =>
    by_cases he : q = p
    · subst he
      unfold PagePool.unpinPage at hq
      simp only at hq
      split at hq
      · rename_i hc
        unfold PagePool.disposePage at hq
        rw [if_neg (by omega)] at hq
        simp at hq
      · exact hq
    · rwa [unpinPage_bitmap_of_ne he] at hq
  all_goals
    unfold PagePool.unpinPage
    simp only
    split
    · unfold PagePool.disposePage
      split <;> rfl
    · rfl

theorem destroy_givesBack {o : Option PageId} (h : ∀ p, o = some p → p ≠ PagePool.headerPage ∧ p < k) :
    GivesBack k s (RecordPageHandler.destroy s o) := by
  cases o with
  | none => exact .refl
  | some p => exact unpinPage_givesBack (h p rfl).1 (h p rfl).2

theorem getPage_pinned (hs : Readable s) (hp : p < s.pagesNum) : s.getPage p = (.success, s.pinned p) := by
  simp [PagePool.getPage, PagePool.takeFault, PagePool.pinned, hs.faults, Nat.not_le.mpr hp]

theorem pinned_givesBack : GivesBack k s (s.pinned p) := ⟨rfl, rfl, rfl, rfl, fun _ h => h, fun _ _ => rfl⟩

theorem pinned_frees : Frees s (s.pinned p) := ⟨rfl, rfl, rfl, fun _ h => h, fun _ => .inl rfl⟩

end RecordPool

/-! ## The scanner -/

namespace RecordFileScanner

open RecordPool

/-- The scanner pins page `p`, and its iterator goes on with the slots from `k` on. -/
structure At (s : RecordPool) (c : RecordFileScanner) (p : PageId) (k : Nat) : Prop where
  pagesNum : c.pagesNum = s.pagesNum
  current : c.currentPageId = p
  handler : c.handlerPage = some p
  notHeader : p ≠ PagePool.headerPage
  bit : s.bitmap p = true
  iterator : c.iterator = some ⟨p,
    (bitsFrom (s.pageData p).bits (s.pageData p).recordCapacity k).head?, (s.pageData p).recordCapacity⟩

/-- What the scanner will return from here on. -/
inductive Ahead (s : RecordPool) (c : RecordFileScanner) : List Slot → Prop where
  | done : c.nextRecord = none → Ahead s c []
  | next {p : PageId} {slot : Nat} : c.nextRecord = some (p, slot) → At s c p (slot + 1) →
      slot ∈ (s.pageData p).slots →
      Ahead s c ((p, slot) :: (slotsFrom s p (slot + 1) ++ rowsFrom s (p + 1)))

variable {s s' : RecordPool} {c : RecordFileScanner} {p : PageId} {k : Nat} {it : RecordPageIterator}

/-- The slot that the iterator moves on from is still in use. -/
theorem fetchNextRecordInPage_spec (h : At s c p k) (hit : c.iterator = some it) :
    (slotsFrom s p k = [] ∧ fetchNextRecordInPage s c it = (.recordEof, { c with nextRecord := none })) ∨
    ∃ c', fetchNextRecordInPage s c it = (.success, c') ∧
      Ahead s c' (slotsFrom s p k ++ rowsFrom s (p + 1)) := by
  obtain ⟨hpages, hcurrent, hhandler, hne, hbit, hiter⟩ := h
  rw [hiter] at hit
  cases hit
  cases hslots : bitsFrom (s.pageData p).bits (s.pageData p).recordCapacity k with
  | nil =>
    refine .inl ⟨congrArg (List.map _) hslots, ?_⟩
    simp only [fetchNextRecordInPage, List.head?_nil]
    rw [hslots] at hiter
    rw [← List.head?_nil, ← hiter]
  | cons slot rest =>
    obtain ⟨-, hcap, hset, hrest⟩ := bitsFrom_cons hslots
    refine .inr ⟨_, rfl, ?_⟩
    have hlist : slotsFrom s p k ++ rowsFrom s (p + 1) =
        (p, slot) :: (slotsFrom s p (slot + 1) ++ rowsFrom s (p + 1)) := by
      rw [slotsFrom, hslots, hrest]
      rfl
    rw [hlist]
    refine .next rfl ⟨hpages, hcurrent, hhandler, hne, hbit, ?_⟩ (mem_bitsFrom.mpr ⟨Nat.zero_le _, hcap, hset⟩)
    simp only [nextSetBit_eq_head? _ (startsRight_of_bit hset)]

/-- The scanner turns to page `p`, the next one of the file. -/
structure Opens (s s2 : RecordPool) (c : RecordFileScanner) (p : PageId) : Prop where
  next : nextSetBit s.bitmap c.pagesNum (c.currentPageId + 1) = some p
  get : (RecordPageHandler.destroy s c.handlerPage).getPage p = (.success, s2)
  givesBack : GivesBack p s s2
  behind : c.currentPageId + 1 ≤ p
  pinned : 0 < s2.pinCount p
  at_ : At s2 { c with
    currentPageId := p
    handlerPage := some p
    iterator := some (RecordPageIterator.init s2 p) } p 0
  rows : rowsFrom s (c.currentPageId + 1) = slotsFrom s2 p 0 ++ rowsFrom s2 (p + 1)
  more : bitsFrom s.bitmap s.pagesNum (c.currentPageId + 1) ≠ []

/-- Behind the current page there is none, or the scanner can turn to the next one. -/
theorem opens_cases (hs : Readable s) (hpages : c.pagesNum = s.pagesNum) (hbit : s.bitmap c.currentPageId = true)
    (hhandler : ∀ p, c.handlerPage = some p → p = c.currentPageId ∧ p ≠ PagePool.headerPage) :
    (nextSetBit s.bitmap c.pagesNum (c.currentPageId + 1) = none ∧
      bitsFrom s.bitmap s.pagesNum (c.currentPageId + 1) = [] ∧ rowsFrom s (c.currentPageId + 1) = []) ∨
    ∃ p s2, Opens s s2 c p := by
  rw [hpages]
  rcases nextSetBit_cases s.pagesNum (startsRight_of_bit hbit) with ⟨hnone, hnil⟩ | ⟨p, hsome, hle, hlt, hp, hcons⟩
  · refine .inl ⟨hnone, hnil, ?_⟩
    rw [rowsFrom, hnil]
    rfl
  · have hpne : p ≠ PagePool.headerPage := fun h0 => Nat.not_succ_le_zero _ (h0 ▸ hle)
    have hdestroy : GivesBack p s (RecordPageHandler.destroy s c.handlerPage) := by
      refine destroy_givesBack fun q hq => ⟨(hhandler q hq).2, ?_⟩
      rw [(hhandler q hq).1]
      exact hle
    have hback : GivesBack p s ((RecordPageHandler.destroy s c.handlerPage).pinned p) :=
      hdestroy.trans pinned_givesBack le_rfl
    have hpast : p < (RecordPageHandler.destroy s c.handlerPage).pagesNum := by
      rw [hdestroy.pagesNum]
      exact hlt
    refine .inr ⟨p, (RecordPageHandler.destroy s c.handlerPage).pinned p, ?_⟩
    constructor
    case next => rw [hpages, hsome]
    case get => exact getPage_pinned (hs.givesBack hdestroy) hpast
    case givesBack => exact hback
    case behind => exact hle
    case pinned => simp [PagePool.pinned, PagePool.setPin]
    case at_ =>
      refine ⟨hpages.trans hback.pagesNum.symm, rfl, rfl, hpne, (hback.behind p le_rfl).trans hp, ?_⟩
      simp only [RecordPageIterator.init, nextSetBit_eq_head? _ (.inl (Nat.zero_mod 8))]
    case rows => rw [rowsFrom_of_bit hcons, hback.slotsFrom, hback.rowsFrom (Nat.le_succ p)]
    case more =>
      rw [hcons]
      exact List.cons_ne_nil _ _

/-- Where pages that wait have no records, the page that the scanner leaves had none. -/
theorem Opens.frees {s2 : RecordPool} (h : Opens s s2 c p) (hs : Scannable s)
    (hhandler : ∀ p, c.handlerPage = some p → p ≠ PagePool.headerPage) : Frees s s2 := by
  have hdestroy := destroy_frees hs hhandler
  have hlt : p < (RecordPageHandler.destroy s c.handlerPage).pagesNum := by
    rw [hdestroy.pagesNum, ← h.givesBack.pagesNum]
    have hread := hs.toReadable.givesBack h.givesBack
    exact hread.bounded p h.at_.bit
  have hget := h.get
  rw [getPage_pinned (hs.frees hdestroy).toReadable hlt] at hget
  rw [← (Prod.mk.inj hget).2]
  exact hdestroy.trans pinned_frees

/-- The page that the iterator moves on from is still allocated. -/
theorem fetchPages_spec (fuel : Nat) (hs : Scannable s) (hpages : c.pagesNum = s.pagesNum)
    (hbit : s.bitmap c.currentPageId = true)
    (hhandler : ∀ p, c.handlerPage = some p → p = c.currentPageId ∧ p ≠ PagePool.headerPage)
    (hfuel : s.pagesNum < c.currentPageId + fuel) :
    ∃ r s' c', fetchPages fuel s c = some (r, s', c') ∧ (r = .success ∨ r = .recordEof) ∧ Frees s s' ∧
      Ahead s' c' (rowsFrom s (c.currentPageId + 1)) := by
  induction fuel generalizing s c with
  | zero => exact absurd (hs.bounded _ hbit) (Nat.lt_asymm hfuel)
  | succ fuel ih =>
    unfold fetchPages
    rcases opens_cases hs.toReadable hpages hbit hhandler with ⟨hnone, -, hrows⟩ | ⟨p, s2, hopens⟩
    · rw [hnone, hrows]
      exact ⟨_, _, _, rfl, .inr rfl, .refl, .done rfl⟩
    · have hfrees := hopens.frees hs fun q hq => (hhandler q hq).2
      have hat := hopens.at_
      have hle := hopens.behind
      have hmore : s2.pagesNum < p + fuel := by
        rw [hfrees.pagesNum]
        refine Nat.lt_of_lt_of_le hfuel ?_
        rw [Nat.add_comm fuel 1, ← Nat.add_assoc]
        exact Nat.add_le_add_right hle fuel
      simp only [hopens.next, hopens.get, ne_eq, not_true_eq_false, if_false]
      rcases fetchNextRecordInPage_spec hat rfl with ⟨hnil, heof⟩ | ⟨c', hsucc, hahead⟩
      · have heof' : fetchNextRecordInPage s2 { c with currentPageId := p, handlerPage := some p }
            (RecordPageIterator.init s2 p) = (.recordEof, { c with
              currentPageId := p
              handlerPage := some p
              iterator := some (RecordPageIterator.init s2 p)
              nextRecord := none }) := by
          unfold fetchNextRecordInPage at heof ⊢
          split at heof
          · cases (Prod.mk.inj heof).1
          · rfl
        simp only [heof', not_true_eq_false, if_false]
        obtain ⟨r, s', c', hrun, hr, hfrees', hahead⟩ := ih (s := s2) (c := { c with
          currentPageId := p
          handlerPage := some p
          iterator := some (RecordPageIterator.init s2 p)
          nextRecord := none }) (hs.frees hfrees) hat.pagesNum hat.bit
          (fun q hq => ⟨(Option.some.inj hq).symm, (Option.some.inj hq) ▸ hat.notHeader⟩)
          hmore
        refine ⟨r, s', c', hrun, hr, hfrees.trans hfrees', ?_⟩
        rw [hopens.rows, hnil, List.nil_append]
        exact hahead
      · have hsucc' : fetchNextRecordInPage s2 { c with currentPageId := p, handlerPage := some p }
            (RecordPageIterator.init s2 p) = (.success, c') := by
          unfold fetchNextRecordInPage at hsucc ⊢
          split at hsucc
          · exact hsucc
          · cases (Prod.mk.inj hsucc).1
        simp only [hsucc', reduceCtorEq, not_false_eq_true, if_true]
        refine ⟨.success, s2, c', rfl, .inl rfl, hfrees, ?_⟩
        rw [hopens.rows]
        exact hahead

/-- `Next` hands out the first record of what is ahead. -/
theorem next_spec {rid : Slot} {rest : List Slot} (fuel : Nat) (hs : Scannable s)
    (h : Ahead s c (rid :: rest)) (hfuel : s.pagesNum < fuel) :
    c.nextRecord = some rid ∧ ∃ s' c', next fuel s c = some (.success, s', c') ∧ Frees s s' ∧
      Ahead s' c' rest := by
  cases h with
  | @next p slot hnext hat hmem =>
    refine ⟨hnext, ?_⟩
    unfold next fetchNextRecord
    simp only [hat.iterator]
    rcases fetchNextRecordInPage_spec hat hat.iterator with ⟨hnil, heof⟩ | ⟨c', hsucc, hahead⟩
    · simp only [heof, ne_eq, not_true_eq_false, if_false]
      obtain ⟨r, s', c', hrun, hr, hfrees, hahead⟩ := fetchPages_spec (c := { c with nextRecord := none })
        fuel hs hat.pagesNum (hat.current.symm ▸ hat.bit)
        (fun q hq => by
          have hq : q = p := Option.some.inj (hq.symm.trans hat.handler)
          exact ⟨hq.trans hat.current.symm, hq ▸ hat.notHeader⟩)
        (Nat.lt_add_left _ hfuel)
      simp only [hrun]
      rw [hnil, List.nil_append]
      rw [show ({ c with nextRecord := none } : RecordFileScanner).currentPageId = p from hat.current] at hahead
      rcases hr with rfl | rfl
      · exact ⟨s', c', rfl, hfrees, hahead⟩
      · exact ⟨s', c', rfl, hfrees, hahead⟩
    · simp only [hsucc, ne_eq, reduceCtorEq, not_false_eq_true, if_true, if_false]
      exact ⟨s, c', rfl, .refl, hahead⟩

/-- A new scanner has all live records in front of it. -/
theorem init_spec (fuel : Nat) (hs : Scannable s) (hfuel : s.pagesNum < fuel) :
    ∃ s' c', init fuel s = some (.success, s', c') ∧ Frees s s' ∧ Ahead s' c' (rows s) := by
  obtain ⟨r, s', c', hrun, hr, hfrees, hahead⟩ := fetchPages_spec (c := ⟨0, s.pagesNum, none, none, none⟩)
    fuel hs rfl hs.header (fun _ h => nomatch h) (Nat.lt_add_left _ hfuel)
  refine ⟨s', c', ?_, hfrees, hahead⟩
  unfold init fetchNextRecord
  simp only [hrun]
  rcases hr with rfl | rfl
  · rfl
  · rfl

end RecordFileScanner

end Idmbs
