import Idmbs.Storage.RecordHandler
import Idmbs.Storage.RecordScan

/-!
# Idmbs.Storage.RecordFilterScan

`RecordFileScanner` with a condition filter (storage/record.cpp). The records that the filter accepts come
in the order of pages and slots, each once. `Next` hands out the record that was fetched before and then
fetches one ahead, which may leave the page of the record handed out.
-/

namespace Idmbs

open BitMap

/-- `Filter` of a `ConditionFilter`, on the record id and the bytes of a record. -/
abbrev ConditionFilter := Slot → List UInt8 → Bool

namespace RecordFileScanner

/-- Whether the scan delivers a record. -/
def accepts (filter : Option ConditionFilter) (pool : RecordPool) (rid : Slot) : Bool :=
  match filter with
  | none => true
  | some f => f rid ((pool.pageData rid.1).data rid.2)

def filterInPage (filter : Option ConditionFilter) (pool : RecordPool) :
    Nat → RecordFileScanner → RecordPageIterator → Option (Re × RecordFileScanner)
  | 0, _, _ => none
  | fuel + 1, c, it =>
    match it.nextSlotId with
    | none => some (.recordEof, { c with iterator := some it, nextRecord := none })
    | some slot =>
      let it := { it with nextSlotId := nextSetBit (pool.pageData it.pageId).bits it.size (slot + 1) }
      let c := { c with nextRecord := some (it.pageId, slot), iterator := some it }
      if accepts filter pool (it.pageId, slot) then some (.success, c) else filterInPage filter pool fuel c it

/-- The loop of `FetchNextRecord` over the pages. -/
def filterPages (filter : Option ConditionFilter) :
    Nat → RecordPool → RecordFileScanner → Option (Re × RecordPool × RecordFileScanner)
  | 0, _, _ => none
  | fuel + 1, pool, c =>
    match nextSetBit pool.bitmap c.pagesNum (c.currentPageId + 1) with
    | none => some (.recordEof, pool, { c with nextRecord := none })
    | some p =>
      match (RecordPageHandler.destroy pool c.handlerPage).getPage p with
      | (r, pool) =>
        if r ≠ .success then some (r, pool, { c with currentPageId := p, handlerPage := none })
        else
          let it := RecordPageIterator.init pool p
          match filterInPage filter pool (it.size + 1) { c with currentPageId := p, handlerPage := some p } it with
          | none => none
          | some (r, c) => if r ≠ .recordEof then some (r, pool, c) else filterPages filter fuel pool c

def filterNextRecord (filter : Option ConditionFilter) (fuel : Nat) (pool : RecordPool) (c : RecordFileScanner) :
    Option (Re × RecordPool × RecordFileScanner) :=
  match c.iterator with
  | none => filterPages filter fuel pool c
  | some it =>
    match filterInPage filter pool (it.size + 1) c it with
    | none => none
    | some (r, c) => if r ≠ .recordEof then some (r, pool, c) else filterPages filter fuel pool c

/-- `Init` with a filter, of a scanner that was not used before. -/
def filterInit (filter : Option ConditionFilter) (fuel : Nat) (pool : RecordPool) :
    Option (Re × RecordPool × RecordFileScanner) :=
  (filterNextRecord filter fuel pool ⟨0, pool.pagesNum, none, none, none⟩).map fun (r, pool, c) =>
    (if r = .recordEof then .success else r, pool, c)

/-- `Next` without the record, which is the `next_record_` of before. -/
def filterNext (filter : Option ConditionFilter) (fuel : Nat) (pool : RecordPool) (c : RecordFileScanner) :
    Option (Re × RecordPool × RecordFileScanner) :=
  (filterNextRecord filter fuel pool c).map fun (r, pool, c) => (if r = .recordEof then .success else r, pool, c)

/-- `Next` while `HasNext`: the records and the scanner after them. -/
def filterRest (filter : Option ConditionFilter) (fuel : Nat) :
    Nat → RecordPool → RecordFileScanner → Option (List Slot × RecordFileScanner)
  | 0, _, _ => none
  | n + 1, pool, c =>
    match c.nextRecord with
    | none => some ([], c)
    | some rid =>
      match filterNext filter fuel pool c with
      | none => none
      | some (r, pool, c) =>
        if r ≠ .success then none
        else (filterRest filter fuel n pool c).map fun (rids, c) => (rid :: rids, c)

def filterScan (filter : Option ConditionFilter) (fuel : Nat) (pool : RecordPool) :
    Option (List Slot × RecordFileScanner) :=
  match filterInit filter fuel pool with
  | none => none
  | some (r, pool, c) => if r ≠ .success then none else filterRest filter fuel fuel pool c

/-! ## What the filter leaves -/

section Filter

open RecordPool

variable {filter : Option ConditionFilter} {s s' : RecordPool} {c c' : RecordFileScanner} {p q : PageId} {k : Nat}
  {it : RecordPageIterator}

def accepted (filter : Option ConditionFilter) (s : RecordPool) (rids : List Slot) : List Slot :=
  rids.filter (accepts filter s)

theorem accepts_congr (h : s'.pageData = s.pageData) : accepts filter s' = accepts filter s := by
  funext rid
  unfold accepts
  rw [h]

theorem accepted_congr (h : s'.pageData = s.pageData) (rids : List Slot) :
    accepted filter s' rids = accepted filter s rids := by
  rw [accepted, accepts_congr h]
  rfl

/-- What the scanner will deliver from here on. -/
inductive Coming (filter : Option ConditionFilter) (s : RecordPool) (c : RecordFileScanner) : List Slot → Prop where
  | done : c.nextRecord = none → Coming filter s c []
  | next {p : PageId} {slot : Nat} : c.nextRecord = some (p, slot) → At s c p (slot + 1) →
      slot ∈ (s.pageData p).slots → accepts filter s (p, slot) = true →
      Coming filter s c ((p, slot) :: accepted filter s (slotsFrom s p (slot + 1) ++ rowsFrom s (p + 1)))

theorem accepted_cons {rid : Slot} {rids : List Slot} (h : accepts filter s rid = true) :
    accepted filter s (rid :: rids) = rid :: accepted filter s rids := List.filter_cons_of_pos h

theorem accepted_cons_not {rid : Slot} {rids : List Slot} (h : accepts filter s rid = false) :
    accepted filter s (rid :: rids) = accepted filter s rids :=
  List.filter_cons_of_neg (by rw [h]; exact Bool.false_ne_true)

/-- The scanner has fetched the first accepted record of page `p` from slot `k` on. -/
structure Fetched (filter : Option ConditionFilter) (s : RecordPool) (c : RecordFileScanner) (p : PageId)
    (k slot : Nat) : Prop where
  next : c.nextRecord = some (p, slot)
  at_ : At s c p (slot + 1)
  live : slot ∈ (s.pageData p).slots
  accepts : accepts filter s (p, slot) = true
  first : accepted filter s (slotsFrom s p k) = (p, slot) :: accepted filter s (slotsFrom s p (slot + 1))

theorem Fetched.coming {slot : Nat} (h : Fetched filter s c p k slot) :
    Coming filter s c (accepted filter s (slotsFrom s p k ++ rowsFrom s (p + 1))) := by
  have hlist : accepted filter s (slotsFrom s p k ++ rowsFrom s (p + 1)) =
      (p, slot) :: accepted filter s (slotsFrom s p (slot + 1) ++ rowsFrom s (p + 1)) := by
    have hfirst := h.first
    unfold accepted at hfirst ⊢
    rw [List.filter_append, List.filter_append, hfirst]
    rfl
  rw [hlist]
  exact .next h.next h.at_ h.live h.accepts

/-- The rest of a page: no record on it is accepted, or the scanner stops at the first that is. -/
theorem filterInPage_spec (filter : Option ConditionFilter) (fuel : Nat) (h : At s c p k) (hit : c.iterator = some it)
    (hfuel : (s.pageData p).recordCapacity - k < fuel) :
    (accepted filter s (slotsFrom s p k) = [] ∧ filterInPage filter s fuel c it = some (.recordEof, { c with
      iterator := some ⟨p, none, (s.pageData p).recordCapacity⟩, nextRecord := none })) ∨
    ∃ c' slot, filterInPage filter s fuel c it = some (.success, c') ∧ Fetched filter s c' p k slot := by
  induction fuel generalizing c k it with
  | zero => exact absurd hfuel (Nat.not_lt_zero _)
  | succ fuel ih =>
    obtain ⟨hpages, hcurrent, hhandler, hne, hbit, hiter⟩ := h
    rw [hiter] at hit
    cases hit
    unfold filterInPage
    cases hslots : bitsFrom (s.pageData p).bits (s.pageData p).recordCapacity k with
    | nil =>
      refine .inl ⟨?_, rfl⟩
      rw [slotsFrom, hslots]
      rfl
    | cons slot rest =>
      obtain ⟨hk, hcap, hset, hrest⟩ := bitsFrom_cons hslots
      have hlist : slotsFrom s p k = (p, slot) :: slotsFrom s p (slot + 1) := by
        rw [slotsFrom, hslots, hrest]
        rfl
      have hmoved : nextSetBit (s.pageData p).bits (s.pageData p).recordCapacity (slot + 1) =
          (bitsFrom (s.pageData p).bits (s.pageData p).recordCapacity (slot + 1)).head? :=
        nextSetBit_eq_head? _ (startsRight_of_bit hset)
      have hat : At s { c with
          nextRecord := some (p, slot)
          iterator := some ⟨p, nextSetBit (s.pageData p).bits (s.pageData p).recordCapacity (slot + 1),
            (s.pageData p).recordCapacity⟩ } p (slot + 1) := by
        refine ⟨hpages, hcurrent, hhandler, hne, hbit, ?_⟩
        simp only [hmoved]
      simp only [List.head?_cons]
      cases hacc : accepts filter s (p, slot) with
      | true =>
        refine .inr ⟨_, slot, rfl, rfl, hat, mem_bitsFrom.mpr ⟨Nat.zero_le _, hcap, hset⟩, hacc, ?_⟩
        rw [hlist, accepted_cons hacc]
      | false =>
        rw [hlist, accepted_cons_not hacc]
        simp only [Bool.false_eq_true, if_false]
        rcases ih hat rfl (by omega) with hnone | ⟨c', slot', hrun, hfetched⟩
        · exact .inl hnone
        · refine .inr ⟨c', slot', hrun, hfetched.next, hfetched.at_, hfetched.live, hfetched.accepts, ?_⟩
          rw [hlist, accepted_cons_not hacc, hfetched.first]

/-- The iterator is written before it is read. -/
theorem filterInPage_iterator (fuel n : Nat) (h : Option PageId) (i i' : Option RecordPageIterator)
    (r : Option Slot) :
    filterInPage filter s fuel ⟨p, n, h, i, r⟩ it = filterInPage filter s fuel ⟨p, n, h, i', r⟩ it := by
  cases fuel with
  | zero => rfl
  | succ fuel =>
    unfold filterInPage
    cases it.nextSlotId with
    | none => rfl
    | some slot => rfl

theorem accepted_append {rids rids' : List Slot} :
    accepted filter s (rids ++ rids') = accepted filter s rids ++ accepted filter s rids' := List.filter_append _ _

/-- Behind the current page the scanner stops at the first page with an accepted record. If there is a page
behind it at all, the pin moves on; else it stays. -/
theorem filterPages_spec (filter : Option ConditionFilter) (fuel : Nat) (hs : Readable s) (hpages : c.pagesNum = s.pagesNum)
    (hbit : s.bitmap c.currentPageId = true)
    (hhandler : ∀ p, c.handlerPage = some p → p = c.currentPageId ∧ p ≠ PagePool.headerPage)
    (hfuel : s.pagesNum < c.currentPageId + fuel) :
    ∃ r s' c', filterPages filter fuel s c = some (r, s', c') ∧ (r = .success ∨ r = .recordEof) ∧ GivesBack s.pagesNum s s' ∧
      Coming filter s' c' (accepted filter s (rowsFrom s (c.currentPageId + 1))) ∧
      ((bitsFrom s.bitmap s.pagesNum (c.currentPageId + 1) = [] ∧ s' = s ∧ c'.handlerPage = c.handlerPage) ∨
        (bitsFrom s.bitmap s.pagesNum (c.currentPageId + 1) ≠ [] ∧ ∃ q, c'.handlerPage = some q ∧
          c.currentPageId < q ∧ 0 < s'.pinCount q)) := by
  induction fuel generalizing s c with
  | zero => exact absurd (hs.bounded _ hbit) (Nat.lt_asymm hfuel)
  | succ fuel ih =>
    unfold filterPages
    rcases opens_cases hs hpages hbit hhandler with ⟨hnone, hnil, hrows⟩ | ⟨p, s2, hopens⟩
    · rw [hnone, hrows]
      exact ⟨_, _, _, rfl, .inr rfl, .refl, .done rfl, .inl ⟨hnil, rfl, rfl⟩⟩
    · have hback := hopens.givesBack
      have hat := hopens.at_
      have hle := hopens.behind
      have hread := hs.givesBack hback
      have hpast : p ≤ s2.pagesNum := (hread.bounded p hat.bit).le
      have hmore : s2.pagesNum < p + fuel := by
        rw [hback.pagesNum]
        refine Nat.lt_of_lt_of_le hfuel ?_
        rw [Nat.add_comm fuel 1, ← Nat.add_assoc]
        exact Nat.add_le_add_right hle fuel
      simp only [hopens.next, hopens.get, ne_eq, not_true_eq_false, if_false]
      have hpage := filterInPage_spec filter ((RecordPageIterator.init s2 p).size + 1) hat rfl
        (Nat.lt_succ_self _)
      rw [filterInPage_iterator _ _ _ _ c.iterator] at hpage
      rw [← accepted_congr hback.pageData, hopens.rows, accepted_append]
      rcases hpage with ⟨hnil, heof⟩ | ⟨c', slot, hsucc, hfetched⟩
      · simp only [heof, not_true_eq_false, if_false]
        obtain ⟨r, s', c', hrun, hr, hback', hcoming, hpins⟩ := ih (s := s2) (c := { c with
          currentPageId := p
          handlerPage := some p
          iterator := some ⟨p, none, (s2.pageData p).recordCapacity⟩
          nextRecord := none }) hread hat.pagesNum hat.bit
          (fun q hq => ⟨(Option.some.inj hq).symm, (Option.some.inj hq) ▸ hat.notHeader⟩)
          hmore
        refine ⟨r, s', c', hrun, hr, hback.pagesNum ▸ hback.trans hback' hpast, ?_, .inr ⟨hopens.more, ?_⟩⟩
        · rw [hnil, List.nil_append]
          exact hcoming
        · rcases hpins with ⟨-, rfl, hh⟩ | ⟨-, q, hh, hq, hpin⟩
          · exact ⟨p, hh, hle, hopens.pinned⟩
          · exact ⟨q, hh, Nat.lt_trans hle hq, hpin⟩
      · simp only [hsucc, reduceCtorEq, not_false_eq_true, if_true]
        refine ⟨.success, s2, c', rfl, .inl rfl, hback.pagesNum ▸ hback.trans .refl hpast, ?_,
          .inr ⟨hopens.more, p, hfetched.at_.handler, hle, hopens.pinned⟩⟩
        rw [← accepted_append]
        exact hfetched.coming

/-- `Next` hands out the first record of what is coming. It keeps its pin while the page has another
accepted record, and behind the last page. -/
theorem filterNext_spec {p : PageId} {slot : Nat} (fuel : Nat) (hs : Readable s) {rids : List Slot}
    (h : Coming filter s c rids) (hnext : c.nextRecord = some (p, slot)) (hfuel : s.pagesNum < fuel) :
    c.handlerPage = some p ∧ ∃ rest, rids = (p, slot) :: rest ∧
    ∃ s' c', filterNext filter fuel s c = some (.success, s', c') ∧ GivesBack s.pagesNum s s' ∧ Coming filter s' c' rest ∧
      (((accepted filter s (slotsFrom s p (slot + 1)) ≠ [] ∨ bitsFrom s.bitmap s.pagesNum (p + 1) = []) ∧
        s' = s ∧ c'.handlerPage = some p) ∨
      ((accepted filter s (slotsFrom s p (slot + 1)) = [] ∧ bitsFrom s.bitmap s.pagesNum (p + 1) ≠ []) ∧
        ∃ q, c'.handlerPage = some q ∧ p < q ∧ 0 < s'.pinCount q)) := by
  cases h with
  | done hdone =>
    rw [hdone] at hnext
    cases hnext
  | @next p' slot' hnext' hat hmem hacc =>
    rw [hnext'] at hnext
    cases hnext
    refine ⟨hat.handler, _, rfl, ?_⟩
    unfold filterNext filterNextRecord
    simp only [hat.iterator]
    rcases filterInPage_spec filter ((s.pageData p).recordCapacity + 1) hat hat.iterator
      (Nat.lt_succ_of_le (Nat.sub_le _ _)) with ⟨hnil, heof⟩ | ⟨c', slot', hsucc, hfetched⟩
    · simp only [heof, ne_eq, not_true_eq_false, if_false]
      obtain ⟨r, s', c', hrun, hr, hback, hcoming, hpins⟩ := filterPages_spec filter (c := { c with
          iterator := some ⟨p, none, (s.pageData p).recordCapacity⟩, nextRecord := none })
        fuel hs hat.pagesNum (hat.current.symm ▸ hat.bit)
        (fun q hq => by
          have hq : q = p := Option.some.inj (hq.symm.trans hat.handler)
          exact ⟨hq.trans hat.current.symm, hq ▸ hat.notHeader⟩)
        (Nat.lt_add_left _ hfuel)
      have hcur : c.currentPageId = p := hat.current
      simp only [hcur] at hcoming hpins
      simp only [hrun]
      rw [accepted_append, hnil, List.nil_append]
      refine ⟨s', c', ?_, hback, hcoming, ?_⟩
      · rcases hr with rfl | rfl
        · rfl
        · rfl
      · rcases hpins with ⟨hlast, hs', hh⟩ | ⟨hmore, q, hh, hq, hpin⟩
        · exact .inl ⟨.inr hlast, hs', hh.trans hat.handler⟩
        · exact .inr ⟨⟨rfl, hmore⟩, q, hh, hq, hpin⟩
    · simp only [hsucc, ne_eq, reduceCtorEq, not_false_eq_true, if_true]
      refine ⟨s, c', rfl, .refl, hfetched.coming, .inl ⟨.inl ?_, rfl, hfetched.at_.handler⟩⟩
      rw [hfetched.first]
      exact List.cons_ne_nil _ _

/-- A new scanner has the accepted records of the whole file in front of it. -/
theorem filterInit_spec (filter : Option ConditionFilter) (fuel : Nat) (hs : Readable s) (hfuel : s.pagesNum < fuel) :
    ∃ s' c', filterInit filter fuel s = some (.success, s', c') ∧ GivesBack s.pagesNum s s' ∧
      Coming filter s' c' (accepted filter s (rows s)) ∧ ∀ q, c'.handlerPage = some q → 0 < s'.pinCount q := by
  obtain ⟨r, s', c', hrun, hr, hback, hcoming, hpins⟩ := filterPages_spec filter
    (c := ⟨0, s.pagesNum, none, none, none⟩) fuel hs rfl hs.header (fun _ h => nomatch h)
    (Nat.lt_add_left _ hfuel)
  refine ⟨s', c', ?_, hback, hcoming, ?_⟩
  · unfold filterInit filterNextRecord
    simp only [hrun]
    rcases hr with rfl | rfl
    · rfl
    · rfl
  · intro q hq
    rcases hpins with ⟨-, -, hh⟩ | ⟨-, q', hh, -, hpin⟩
    · rw [hh] at hq
      cases hq
    · rw [hh] at hq
      cases hq
      exact hpin

theorem filterRest_spec {rids : List Slot} (fuel n : Nat) (hs : Readable s) (h : Coming filter s c rids)
    (hfuel : s.pagesNum < fuel) (hn : rids.length < n) :
    ∃ c', filterRest filter fuel n s c = some (rids, c') ∧ c'.nextRecord = none := by
  induction rids generalizing s c n with
  | nil =>
    obtain ⟨n, rfl⟩ := Nat.exists_eq_succ_of_ne_zero (Nat.ne_zero_of_lt hn)
    cases h with
    | done hnone =>
      refine ⟨c, ?_, hnone⟩
      rw [filterRest, hnone]
  | cons rid rest ih =>
    obtain ⟨n, rfl⟩ := Nat.exists_eq_succ_of_ne_zero (Nat.ne_zero_of_lt hn)
    have hrid : c.nextRecord = some rid := by
      cases h with
      | next hnext => exact hnext
    obtain ⟨-, rest', hrest, s', c', hrun, hback, hcoming, -⟩ := filterNext_spec fuel hs h hrid hfuel
    cases hrest
    obtain ⟨c'', hruns, hnone⟩ := ih n (hs.givesBack hback) hcoming (by rw [hback.pagesNum]; exact hfuel)
      (Nat.lt_of_succ_lt_succ hn)
    refine ⟨c'', ?_, hnone⟩
    rw [filterRest, hrid]
    simp only [hrun, hruns, ne_eq, not_true_eq_false, if_false, Option.map_some]

/-! ## The order of records -/

def Before (a b : Slot) : Prop := a.1 < b.1 ∨ a.1 = b.1 ∧ a.2 < b.2

theorem pairwise_bitsFrom {b : Nat → Bool} {n : Nat} : (bitsFrom b n k).Pairwise (· < ·) :=
  (List.pairwise_lt_range' 1 Nat.one_pos).filter _

theorem pairwise_rows : (rows s).Pairwise Before := by
  unfold rows rowsFrom
  rw [List.pairwise_flatMap]
  refine ⟨fun p _ => ?_, pairwise_bitsFrom.imp fun hlt a ha b hb => ?_⟩
  · unfold slotsFrom
    rw [List.pairwise_map]
    exact pairwise_bitsFrom.imp fun hlt => .inr ⟨rfl, hlt⟩
  · rw [mem_slotsFrom] at ha hb
    exact .inl (by rw [ha.1, hb.1]; exact hlt)

/-- A scan delivers the live records that the filter accepts, in order, and comes to its end. -/
theorem filterScan_exact (filter : Option ConditionFilter) {s : RecordPool} (hs : Readable s) :
    ∃ rids : List Slot, rids.Pairwise Before ∧
      (∀ rid, rid ∈ rids ↔ ∃ bs, live s rid = some bs ∧ ∀ f, filter = some f → f rid bs = true) ∧
      ∃ n, ∀ fuel ≥ n, ∃ c, filterScan filter fuel s = some (rids, c) ∧ c.nextRecord = none := by
  refine ⟨accepted filter s (rows s), pairwise_rows.filter _, fun rid => ?_, ?_⟩
  · rw [accepted, List.mem_filter, mem_rows hs, Option.isSome_iff_exists]
    have hdata (bs : List UInt8) (h : live s rid = some bs) : (s.pageData rid.1).data rid.2 = bs := by
      unfold live at h
      split at h
      · exact Option.some.inj h
      · cases h
    constructor
    · rintro ⟨⟨bs, hbs⟩, hacc⟩
      refine ⟨bs, hbs, fun f hf => ?_⟩
      subst hf
      unfold accepts at hacc
      simp only [hdata bs hbs] at hacc
      exact hacc
    · rintro ⟨bs, hbs, hf⟩
      refine ⟨⟨bs, hbs⟩, ?_⟩
      unfold accepts
      cases filter with
      | none => rfl
      | some f =>
        simp only [hdata bs hbs]
        exact hf f rfl
  · refine ⟨s.pagesNum + (accepted filter s (rows s)).length + 1, fun fuel hfuel => ?_⟩
    obtain ⟨s', c', hrun, hback, hcoming, -⟩ := filterInit_spec filter fuel hs (by omega)
    obtain ⟨c, hruns, hnone⟩ := filterRest_spec fuel fuel (hs.givesBack hback) hcoming
      (by rw [hback.pagesNum]; omega) (by omega)
    refine ⟨c, ?_, hnone⟩
    rw [filterScan, hrun]
    simp only [hruns, ne_eq, not_true_eq_false, if_false]

/-! ## The pin of the record handed out -/

/-- What others may do between two calls of `Next`: the pin of the scanner stays, no record changes. -/
structure Meanwhile (c : RecordFileScanner) (s s' : RecordPool) : Prop where
  pageData : s'.pageData = s.pageData
  pagesNum : s'.pagesNum = s.pagesNum
  faults : s'.faults = s.faults
  bitmap : ∀ p, s'.bitmap p = s.bitmap p ∨
    (s'.bitmap p = false ∧ p ≠ PagePool.headerPage ∧ (s.bitmap p = true → (s.pageData p).slots = []))
  pinned : ∀ q, c.handlerPage = some q → 0 < s'.pinCount q

/-- A scanner and its file, after `Init` and any calls of `Next`. -/
inductive Scanning (filter : Option ConditionFilter) : RecordPool → RecordFileScanner → Prop
  | init {s s' : RecordPool} {c : RecordFileScanner} {fuel : Nat} (hs : Readable s) (hfuel : s.pagesNum < fuel)
      (h : filterInit filter fuel s = some (.success, s', c)) : Scanning filter s' c
  | next {s s' : RecordPool} {c c' : RecordFileScanner} {fuel : Nat} {rid : Slot} (h : Scanning filter s c)
      (hnext : c.nextRecord = some rid) (hfuel : s.pagesNum < fuel)
      (hrun : filterNext filter fuel s c = some (.success, s', c')) : Scanning filter s' c'
  | meanwhile {s s' : RecordPool} {c : RecordFileScanner} (h : Scanning filter s c) (hm : Meanwhile c s s') :
      Scanning filter s' c

theorem Meanwhile.readable (h : Meanwhile c s s') (hs : Readable s) : Readable s' where
  faults := h.faults.trans hs.faults
  bounded p hp := by
    rw [h.pagesNum]
    rcases h.bitmap p with he | ⟨hfree, -, -⟩
    · exact hs.bounded p (he ▸ hp)
    · rw [hp] at hfree
      cases hfree
  header := by
    rcases h.bitmap PagePool.headerPage with he | ⟨-, hne, -⟩
    · exact he.trans hs.header
    · exact absurd rfl hne

theorem At.meanwhile (h : At s c p k) (hm : Meanwhile c s s') {slot : Nat} (hlive : slot ∈ (s.pageData p).slots) :
    At s' c p k := by
  obtain ⟨hpages, hcurrent, hhandler, hne, hbit, hiter⟩ := h
  refine ⟨hpages.trans hm.pagesNum.symm, hcurrent, hhandler, hne, ?_, ?_⟩
  · rcases hm.bitmap p with he | ⟨-, -, hempty⟩
    · rw [he, hbit]
    · rw [hempty hbit] at hlive
      cases hlive
  · rw [hm.pageData]
    exact hiter

theorem Coming.meanwhile {rids : List Slot} (h : Coming filter s c rids) (hm : Meanwhile c s s') :
    ∃ rids, Coming filter s' c rids := by
  cases h with
  | done hnone => exact ⟨_, .done hnone⟩
  | next hnext hat hlive hacc =>
    refine ⟨_, .next hnext (hat.meanwhile hm hlive) ?_ ?_⟩
    · rw [hm.pageData]
      exact hlive
    · rw [accepts_congr hm.pageData]
      exact hacc

theorem Scanning.inv (h : Scanning filter s c) :
    Readable s ∧ (∃ rids, Coming filter s c rids) ∧ ∀ q, c.handlerPage = some q → 0 < s.pinCount q := by
  induction h with
  | @init s s' c fuel hs hfuel h =>
    obtain ⟨s1, c1, hrun, hback, hcoming, hpin⟩ := filterInit_spec filter fuel hs hfuel
    rw [hrun] at h
    cases h
    exact ⟨hs.givesBack hback, ⟨_, hcoming⟩, hpin⟩
  | @next s s' c c' fuel rid _ hnext hfuel hrun ih =>
    obtain ⟨hs, ⟨rids, hcoming⟩, hpin⟩ := ih
    obtain ⟨hhandler, rest, -, s1, c1, hrun', hback, hcoming', hpins⟩ := filterNext_spec fuel hs hcoming hnext hfuel
    rw [hrun'] at hrun
    cases hrun
    refine ⟨hs.givesBack hback, ⟨_, hcoming'⟩, fun q hq => ?_⟩
    rcases hpins with ⟨-, rfl, hh⟩ | ⟨-, q', hh, -, hpin'⟩
    · rw [hh] at hq
      cases hq
      exact hpin _ hhandler
    · rw [hh] at hq
      cases hq
      exact hpin'
  | meanwhile _ hm ih =>
    obtain ⟨hs, ⟨rids, hcoming⟩, -⟩ := ih
    exact ⟨hm.readable hs, hcoming.meanwhile hm, hm.pinned⟩

theorem accepted_slotsFrom_ne_nil {slot : Nat} : accepted filter s (slotsFrom s p (slot + 1)) ≠ [] ↔
    ∃ slot' > slot, slot' ∈ (s.pageData p).slots ∧ accepts filter s (p, slot') = true := by
  constructor
  · intro hne
    obtain ⟨rid, hmem⟩ := List.exists_mem_of_ne_nil _ hne
    obtain ⟨hmem, hacc⟩ := List.mem_filter.mp hmem
    obtain ⟨hp, hle, hlive⟩ := mem_slotsFrom.mp hmem
    obtain ⟨p', slot'⟩ := rid
    subst hp
    exact ⟨slot', hle, hlive, hacc⟩
  · rintro ⟨slot', hgt, hlive, hacc⟩
    exact List.ne_nil_of_mem (a := (p, slot')) (List.mem_filter.mpr ⟨mem_slotsFrom.mpr ⟨rfl, hgt, hlive⟩, hacc⟩)

theorem bitsFrom_succ_eq_nil_iff (hs : Readable s) :
    bitsFrom s.bitmap s.pagesNum (p + 1) = [] ↔ ∀ q, s.bitmap q = true → q ≤ p := by
  rw [List.eq_nil_iff_forall_not_mem]
  refine forall_congr' fun q => ?_
  rw [mem_bitsFrom]
  constructor
  · intro h hq
    by_contra hlt
    exact h ⟨Nat.not_le.mp hlt, hs.bounded q hq, hq⟩
  · rintro h ⟨hle, -, hq⟩
    exact absurd (h hq) (Nat.not_le.mpr hle)

/-- The page of the record that `Next` hands out stays pinned up to the next call exactly when the page has
another record for the scan or the file has no page behind it. -/
theorem next_keeps_pin_iff {filter : Option ConditionFilter} {s : RecordPool} {c : RecordFileScanner}
    (h : Scanning filter s c) {p : PageId} {slot : Nat} (hnext : c.nextRecord = some (p, slot)) {fuel : Nat}
    (hfuel : s.pagesNum < fuel) :
    ∃ s' c', filterNext filter fuel s c = some (.success, s', c') ∧
      ((∀ s'', Meanwhile c' s' s'' → 0 < s''.pinCount p) ↔
        (∃ slot' > slot, slot' ∈ (s.pageData p).slots ∧ accepts filter s (p, slot') = true) ∨
          ∀ q, s.bitmap q = true → q ≤ p) := by
  obtain ⟨hs, ⟨rids, hcoming⟩, -⟩ := h.inv
  obtain ⟨-, rest, -, s', c', hrun, -, -, hpins⟩ := filterNext_spec fuel hs hcoming hnext hfuel
  refine ⟨s', c', hrun, ?_⟩
  rw [← accepted_slotsFrom_ne_nil, ← bitsFrom_succ_eq_nil_iff hs]
  rcases hpins with ⟨hcond, -, hh⟩ | ⟨⟨hnil, hmore⟩, q, hh, hlt, hpin⟩
  · exact iff_of_true (fun s'' hm => hm.pinned p hh) hcond
  · refine iff_of_false (fun hall => ?_) (fun hcond => hcond.elim (fun h => h hnil) hmore)
    -- the others let go of their pins on the page
    have hm : Meanwhile c' s' { s' with pinCount := Function.update s'.pinCount p 0 } := by
      refine ⟨rfl, rfl, rfl, fun _ => .inl rfl, fun q' hq' => ?_⟩
      rw [hh] at hq'
      cases hq'
      change 0 < Function.update s'.pinCount p 0 q
      rw [Function.update_of_ne (Nat.ne_of_gt hlt)]
      exact hpin
    have hpos : 0 < Function.update s'.pinCount p 0 p := hall _ hm
    rw [Function.update_self] at hpos
    exact Nat.lt_irrefl 0 hpos

/-- A file with one record on each of the pages 1 and 2. -/
def twoPages : RecordPool := { (PagePool.newFile : RecordPool) with
  pageData := fun _ => ⟨1, fun i => i == 0, fun _ => [7], 1, rfl⟩
  bitmap := fun p => decide (p < 3)
  pagesNum := 3
  allocatedPagesNum := 3 }

theorem readable_twoPages : Readable twoPages where
  faults := rfl
  bounded _ hp := of_decide_eq_true hp
  header := rfl

theorem scanning_twoPages : Scanning none (twoPages.pinned 1) ⟨1, 3, some 1, some ⟨1, none, 1⟩, some (1, 0)⟩ :=
  .init readable_twoPages (show 3 < 4 by decide) rfl

theorem filterScan_exact_twoPages : ∃ rids : List Slot, rids.Pairwise Before ∧
    (∀ rid, rid ∈ rids ↔ ∃ bs, live twoPages rid = some bs ∧ ∀ f : ConditionFilter, none = some f → f rid bs = true) ∧
    ∃ n, ∀ fuel ≥ n, ∃ c, filterScan none fuel twoPages = some (rids, c) ∧ c.nextRecord = none :=
  filterScan_exact none readable_twoPages

theorem next_keeps_pin_iff_twoPages : ∃ s' c', filterNext none 4 (twoPages.pinned 1)
      ⟨1, 3, some 1, some ⟨1, none, 1⟩, some (1, 0)⟩ = some (.success, s', c') ∧
    ((∀ s'', Meanwhile c' s' s'' → 0 < s''.pinCount 1) ↔
      (∃ slot' > 0, slot' ∈ ((twoPages.pinned 1).pageData 1).slots ∧
        accepts none (twoPages.pinned 1) (1, slot') = true) ∨
        ∀ q, (twoPages.pinned 1).bitmap q = true → q ≤ 1) :=
  next_keeps_pin_iff scanning_twoPages rfl (show 3 < 4 by decide)

/-- The page of the only record on it is left in the call that hands the record out. -/
theorem not_next_keeps_pin : ¬∀ (s s' : RecordPool) (c c' : RecordFileScanner) (p : PageId) (slot fuel : Nat),
    Scanning none s c → c.nextRecord = some (p, slot) → filterNext none fuel s c = some (.success, s', c') →
    0 < s'.pinCount p := by
  intro h
  have hpin := h (twoPages.pinned 1) (((twoPages.pinned 1).unpinPage 1).pinned 2) _
    ⟨2, 3, some 2, some ⟨2, none, 1⟩, some (2, 0)⟩ 1 0 4 scanning_twoPages rfl rfl
  exact Nat.lt_irrefl 0 hpin

end Filter

end RecordFileScanner

end Idmbs
