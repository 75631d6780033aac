import Idmbs.Storage.PagePool
import Mathlib.Data.Finset.Card
import Mathlib.Data.Finset.Range

/-!
# Idmbs.Storage.PageBookkeeping

Runs of `AllocatePage`, `GetPage`, `UnpinPage` and `DisposePage` on one open file: the counters and the
bitmap of the header stay in step with the pages that wait for their disposal, whatever the order of the
calls. The clients' own pins are counted beside the pool; the header page has one more, taken by
`OpenFile`.
-/

namespace Idmbs

namespace PagePool

variable {δ : Type} {s : PagePool δ} {p q : PageId}

def setBits (s : PagePool δ) : Nat := ((Finset.range maxPageNum).filter fun p => s.bitmap p = true).card

structure Counted (s : PagePool δ) : Prop where
  count : s.allocatedPagesNum = s.setBits
  bounded : ∀ p, s.bitmap p = true → p < s.pagesNum
  limit : s.pagesNum ≤ maxPageNum

/-- A file that was just opened: nothing is pinned but the header, and no page waits. -/
structure Opened (s : PagePool δ) : Prop where
  counted : Counted s
  faults : s.faults = []
  header : s.bitmap headerPage = true
  pins : ∀ p, s.pinCount p = if p = headerPage then 1 else 0
  waiting : ∀ p, s.disposedPages p = false

theorem setBits_set {b : PageId → Bool} (hp : p < maxPageNum) (hbit : s.bitmap p = false)
    (hb : b = Function.update s.bitmap p true) :
    ((Finset.range maxPageNum).filter fun p => b p = true).card = s.setBits + 1 := by
  have hset : (Finset.range maxPageNum).filter (fun q => b q = true) =
      insert p ((Finset.range maxPageNum).filter fun q => s.bitmap q = true) := by
    ext q
    simp only [Finset.mem_filter, Finset.mem_insert, Finset.mem_range, hb]
    by_cases hq : q = p
    · subst hq
      simp only [Function.update_self, true_or, and_self, hp]
    · simp only [Function.update_of_ne hq, hq, false_or]
  rw [hset, Finset.card_insert_of_notMem]
  · rfl
  · intro hmem
    rw [(Finset.mem_filter.mp hmem).2] at hbit
    cases hbit

theorem setBits_clear {b : PageId → Bool} (hp : p < maxPageNum) (hbit : s.bitmap p = true)
    (hb : b = Function.update s.bitmap p false) :
    ((Finset.range maxPageNum).filter fun p => b p = true).card + 1 = s.setBits := by
  have hset : (Finset.range maxPageNum).filter (fun q => b q = true) =
      ((Finset.range maxPageNum).filter fun q => s.bitmap q = true).erase p := by
    ext q
    simp only [Finset.mem_filter, Finset.mem_erase, Finset.mem_range, hb]
    by_cases hq : q = p
    · subst hq
      simp only [Function.update_self, ne_eq, not_true_eq_false, false_and, Bool.false_eq_true, and_false]
    · simp only [Function.update_of_ne hq, ne_eq, hq, not_false_eq_true, true_and]
  rw [hset, Finset.card_erase_add_one]
  · rfl
  · exact Finset.mem_filter.mpr ⟨Finset.mem_range.mpr hp, hbit⟩

/-- Fewer bits than pages leave a page free, and the other way round. -/
theorem Counted.free_iff (h : Counted s) :
    s.allocatedPagesNum < s.pagesNum ↔ ∃ q < s.pagesNum, s.bitmap q = false := by
  have hsub : (Finset.range maxPageNum).filter (fun p => s.bitmap p = true) ⊆ Finset.range s.pagesNum :=
    fun q hq => Finset.mem_range.mpr (h.bounded q (Finset.mem_filter.mp hq).2)
  rw [h.count]
  constructor
  · intro hlt
    by_contra hno
    have hall : Finset.range s.pagesNum ⊆ (Finset.range maxPageNum).filter fun p => s.bitmap p = true := by
      intro q hq
      have hq' := Finset.mem_range.mp hq
      refine Finset.mem_filter.mpr ⟨Finset.mem_range.mpr (lt_of_lt_of_le hq' h.limit), ?_⟩
      by_contra hbit
      exact hno ⟨q, hq', Bool.eq_false_of_not_eq_true hbit⟩
    have hle : (Finset.range s.pagesNum).card ≤ s.setBits := Finset.card_le_card hall
    rw [Finset.card_range] at hle
    omega
  · rintro ⟨q, hq, hbit⟩
    have hssub : (Finset.range maxPageNum).filter (fun p => s.bitmap p = true) ⊂ Finset.range s.pagesNum := by
      refine Finset.ssubset_iff_subset_ne.mpr ⟨hsub, fun he => ?_⟩
      have hmem := Finset.mem_range.mpr hq
      rw [← he] at hmem
      rw [(Finset.mem_filter.mp hmem).2] at hbit
      cases hbit
    have hlt : s.setBits < (Finset.range s.pagesNum).card := Finset.card_lt_card hssub
    rw [Finset.card_range] at hlt
    omega

/-- While a page of the file is free, the search finds one. -/
theorem Counted.firstFree_isSome (h : Counted s) :
    s.firstFree.isSome ↔ ∃ q < s.pagesNum, s.bitmap q = false := by
  unfold firstFree
  split
  · rename_i hlt
    obtain ⟨q, hq, hbit⟩ := h.free_iff.mp hlt
    refine iff_of_true ?_ ⟨q, hq, hbit⟩
    rw [List.find?_isSome]
    exact ⟨q, List.mem_range.mpr hq, by rw [hbit]; rfl⟩
  · rename_i hlt
    exact iff_of_false (fun h => nomatch h) (mt h.free_iff.mpr hlt)

/-! ## One call -/

/-- `s'` is `s` with page `p` allocated. -/
structure Taken (s : PagePool δ) (p : PageId) (s' : PagePool δ) : Prop where
  bitmap : s'.bitmap = Function.update s.bitmap p true
  count : s'.allocatedPagesNum = s.allocatedPagesNum + 1
  waiting : s'.disposedPages = s.disposedPages
  faults : s'.faults = s.faults

/-- `AllocatePage` reuses a free page, finds the file full, or extends it. -/
theorem allocatePage_cases [Inhabited δ] (hf : s.faults = []) :
    (∃ i s', s.firstFree = some i ∧ s.allocatePage = (.success, i, s') ∧ Taken s i s' ∧
      s'.pagesNum = s.pagesNum ∧ s'.pinCount = Function.update s.pinCount i (s.pinCount i + 1)) ∨
    (s.firstFree = none ∧ ∃ r, r ≠ .success ∧ s.allocatePage = (r, 0, { s with noBuf := true })) ∨
    (s.firstFree = none ∧ s.pagesNum < maxPageNum ∧ ∃ s', s.allocatePage = (.success, s.pagesNum, s') ∧
      Taken s s.pagesNum s' ∧ s'.pagesNum = s.pagesNum + 1 ∧
      s'.pinCount = Function.update s.pinCount s.pagesNum 1) := by
  unfold allocatePage
  cases hfree : s.firstFree with
  | some i =>
    have hlt := (firstFree_spec hfree).1
    refine .inl ⟨i, { s with
      allocatedPagesNum := s.allocatedPagesNum + 1
      bitmap := Function.update s.bitmap i true
      dirty := Function.update s.dirty headerPage true
      pinCount := Function.update s.pinCount i (s.pinCount i + 1) }, rfl, ?_, ⟨rfl, rfl, rfl, rfl⟩, rfl, rfl⟩
    simp only [getPage, takeFault, PagePool.dirtyMark, hf, ne_eq, not_true_eq_false, if_false,
      Nat.not_le.mpr hlt, setPin]
  | none =>
    by_cases hfull : maxPageNum ≤ s.pagesNum
    · exact .inr (.inl ⟨rfl, .bufferPoolNoBuf, by decide, if_pos hfull⟩)
    · refine .inr (.inr ⟨rfl, Nat.not_le.mp hfull, { s with
        pageData := Function.update s.pageData s.pagesNum default
        allocatedPagesNum := s.allocatedPagesNum + 1
        pagesNum := s.pagesNum + 1
        bitmap := Function.update s.bitmap s.pagesNum true
        dirty := Function.update (Function.update s.dirty headerPage true) s.pagesNum false
        pinCount := Function.update s.pinCount s.pagesNum 1 }, ?_, ⟨rfl, rfl, rfl, rfl⟩, rfl, rfl⟩)
      simp only [if_neg hfull, takeFault, hf, ne_eq, not_true_eq_false, if_false, setPin,
        PagePool.setData]

/-- `s'` is `s` with page `p` freed. -/
structure Freed (s : PagePool δ) (p : PageId) (s' : PagePool δ) : Prop where
  bitmap : s'.bitmap = Function.update s.bitmap p false
  count : s'.allocatedPagesNum = s.allocatedPagesNum - 1
  pages : s'.pagesNum = s.pagesNum
  faults : s'.faults = s.faults

theorem disposePage_freed (h : s.pinCount p = 0) : Freed s p (s.disposePage p).2 ∧
    (s.disposePage p).2.pinCount = s.pinCount ∧ (s.disposePage p).2.disposedPages = s.disposedPages := by
  unfold disposePage
  rw [if_neg (by omega)]
  exact ⟨⟨rfl, rfl, rfl, rfl⟩, rfl, rfl⟩

theorem disposePage_pinned (h : 0 < s.pinCount p) :
    (s.disposePage p).2 = { s with disposedPages := Function.update s.disposedPages p true } := by
  unfold disposePage
  rw [if_pos h]

theorem unpinPage_freed (h : s.pinCount p = 1) (hw : s.disposedPages p = true) :
    Freed s p (s.unpinPage p) ∧ (s.unpinPage p).pinCount = Function.update s.pinCount p 0 ∧
    (s.unpinPage p).disposedPages = Function.update s.disposedPages p false := by
  have hpin : (s.released p).pinCount p = 0 := by
    simp only [pinCount_released, Function.update_self, h]
  obtain ⟨hfreed, hpins, hwaiting⟩ := disposePage_freed hpin
  have hzero : s.pinCount p - 1 = 0 := by omega
  unfold unpinPage
  rw [if_pos ⟨hpin, hw⟩]
  refine ⟨⟨hfreed.bitmap, hfreed.count, hfreed.pages, hfreed.faults⟩, ?_, ?_⟩
  · rw [hpins, pinCount_released, hzero]
  · exact congrArg (fun w => Function.update w p false) hwaiting

theorem unpinPage_kept (h : ¬(s.pinCount p = 1 ∧ s.disposedPages p = true)) (hpin : 0 < s.pinCount p) :
    s.unpinPage p = s.setPin p (s.pinCount p - 1) := by
  unfold unpinPage
  refine (if_neg ?_).trans (released_of_pinned s p hpin)
  rintro ⟨h1, h2⟩
  simp only [pinCount_released, Function.update_self] at h1
  exact h ⟨by omega, h2⟩

theorem Counted.taken {s' : PagePool δ} (h : Counted s) (ht : Taken s p s') (hbit : s.bitmap p = false)
    (hp : p < s'.pagesNum) (hpages : s.pagesNum ≤ s'.pagesNum) (hlimit : s'.pagesNum ≤ maxPageNum) :
    Counted s' := by
  refine ⟨?_, fun q hq => ?_, hlimit⟩
  · have hbits : s'.setBits = s.setBits + 1 := setBits_set (lt_of_lt_of_le hp hlimit) hbit ht.bitmap
    rw [ht.count, h.count, hbits]
    exact (Int.natCast_succ _).symm
  · rw [ht.bitmap] at hq
    by_cases he : q = p
    · rwa [he]
    · rw [Function.update_of_ne he] at hq
      exact lt_of_lt_of_le (h.bounded q hq) hpages

theorem Counted.freed {s' : PagePool δ} (h : Counted s) (hf : Freed s p s') (hbit : s.bitmap p = true) :
    Counted s' := by
  refine ⟨?_, fun q hq => ?_, by rw [hf.pages]; exact h.limit⟩
  · have hbits : s'.setBits + 1 = s.setBits :=
      setBits_clear (lt_of_lt_of_le (h.bounded p hbit) h.limit) hbit hf.bitmap
    rw [hf.count, h.count, ← hbits]
    omega
  · rw [hf.bitmap] at hq
    by_cases he : q = p
    · rw [he, Function.update_self] at hq
      cases hq
    · rw [Function.update_of_ne he] at hq
      rw [hf.pages]
      exact h.bounded q hq

/-! ## Runs -/

inductive PoolOp where
  | allocatePage
  | getPage (p : PageId)
  | unpinPage (p : PageId)
  | disposePage (p : PageId)
  deriving DecidableEq, Repr

/-- The pool with the pins that its clients hold. -/
structure Run (δ : Type) where
  pool : PagePool δ
  held : PageId → Nat

namespace Run

def hold (x : Run δ) (s : PagePool δ) (p : PageId) : Run δ :=
  ⟨s, Function.update x.held p (x.held p + 1)⟩

/-- One call of a client; `none` for a call that clients do not make: releasing a pin they do not hold,
disposing the header or a page that is not allocated. -/
def call [Inhabited δ] (x : Run δ) : PoolOp → Option (Run δ)
  | .allocatePage =>
    match x.pool.allocatePage with
    | (r, p, s) => if r = .success then some (x.hold s p) else some ⟨s, x.held⟩
  | .getPage p =>
    match x.pool.getPage p with
    | (r, s) => if r = .success then some (x.hold s p) else some ⟨s, x.held⟩
  | .unpinPage p =>
    if 0 < x.held p then some ⟨x.pool.unpinPage p, Function.update x.held p (x.held p - 1)⟩ else none
  | .disposePage p =>
    if x.pool.bitmap p = true ∧ p ≠ headerPage then some ⟨(x.pool.disposePage p).2, x.held⟩ else none

def calls [Inhabited δ] : Run δ → List PoolOp → Option (Run δ)
  | x, [] => some x
  | x, o :: os => (x.call o).bind fun y => calls y os

/-- The run starts when the file was opened. -/
def start (s : PagePool δ) : Run δ := ⟨s, fun _ => 0⟩

structure Inv (x : Run δ) : Prop where
  counted : Counted x.pool
  faults : x.pool.faults = []
  header : x.pool.bitmap headerPage = true
  pins : ∀ p, x.pool.pinCount p = x.held p + if p = headerPage then 1 else 0
  inFile : ∀ p, 0 < x.held p → p < x.pool.pagesNum
  waiting : ∀ p, x.pool.disposedPages p = true → x.pool.bitmap p = true ∧ 0 < x.held p ∧ p ≠ headerPage

variable {x y z : Run δ} {o : PoolOp} {os : List PoolOp}

theorem Inv.start (h : Opened s) : Inv (start s) where
  counted := h.counted
  faults := h.faults
  header := h.header
  pins p := (h.pins p).trans (Nat.zero_add _).symm
  inFile p hp := absurd hp (Nat.lt_irrefl 0)
  waiting p hp := by
    have := h.waiting p
    rw [Run.start] at hp
    rw [hp] at this
    cases this

theorem Inv.pinCount_pos (h : Inv x) (hp : p ≠ headerPage) : 0 < x.pool.pinCount p ↔ 0 < x.held p := by
  rw [h.pins p, if_neg hp, Nat.add_zero]

/-- What one call changes, seen from the page `p`. -/
structure Bookkept [Inhabited δ] (x : Run δ) (o : PoolOp) (y : Run δ) : Prop where
  /-- `AllocatePage` returns no page that is allocated -/
  fresh : o = .allocatePage → x.pool.allocatePage.1 = .success →
    x.pool.bitmap x.pool.allocatePage.2.1 = false ∧ y.pool.bitmap x.pool.allocatePage.2.1 = true
  /-- the file is extended only when no page of it is free -/
  reuse : o = .allocatePage → (∃ q < x.pool.pagesNum, x.pool.bitmap q = false) →
    x.pool.allocatePage.1 = .success ∧ y.pool.pagesNum = x.pool.pagesNum
  /-- a pinned page is disposed later -/
  deferred : ∀ p, o = .disposePage p → 0 < x.held p →
    y.pool.disposedPages p = true ∧ y.pool.bitmap p = true
  /-- until its last pin is released -/
  stays : ∀ p, x.pool.disposedPages p = true → ¬(o = .unpinPage p ∧ x.held p = 1) →
    y.pool.disposedPages p = true ∧ y.pool.bitmap p = true
  /-- and then it is freed -/
  freed : ∀ p, x.pool.disposedPages p = true → o = .unpinPage p → x.held p = 1 →
    y.pool.disposedPages p = false ∧ y.pool.bitmap p = false ∧
    y.pool.allocatedPagesNum = x.pool.allocatedPagesNum - 1
  /-- no other call frees a page -/
  once : ∀ p, x.pool.bitmap p = true → y.pool.bitmap p = false →
    (o = .disposePage p ∧ x.held p = 0) ∨
    (o = .unpinPage p ∧ x.held p = 1 ∧ x.pool.disposedPages p = true)

theorem Inv.free_not_waiting (h : Inv x) (hbit : x.pool.bitmap p = false) :
    x.pool.disposedPages p = false := by
  by_contra hw
  have := (h.waiting p (Bool.eq_true_of_not_eq_false hw)).1
  rw [hbit] at this
  cases this

theorem Inv.taken {s' : PagePool δ} (h : Inv x) (ht : Taken x.pool p s') (hbit : x.pool.bitmap p = false)
    (hcounted : Counted s') (hp : p < s'.pagesNum) (hpages : x.pool.pagesNum ≤ s'.pagesNum)
    (hpins : s'.pinCount = Function.update x.pool.pinCount p (x.pool.pinCount p + 1)) :
    Inv (x.hold s' p) := by
  refine ⟨hcounted, ht.faults.trans h.faults, ?_, fun q => ?_, fun q hq => ?_, fun q hq => ?_⟩
  · change s'.bitmap headerPage = true
    have hne : headerPage ≠ p := fun he => by
      rw [← he, h.header] at hbit
      cases hbit
    rw [ht.bitmap, Function.update_of_ne hne]
    exact h.header
  · change s'.pinCount q = Function.update x.held p (x.held p + 1) q + _
    rw [hpins]
    by_cases he : q = p
    · subst he
      rw [Function.update_self, Function.update_self, h.pins q]
      omega
    · rw [Function.update_of_ne he, Function.update_of_ne he, h.pins q]
  · by_cases he : q = p
    · exact he ▸ hp
    · change 0 < Function.update x.held p (x.held p + 1) q at hq
      rw [Function.update_of_ne he] at hq
      exact lt_of_lt_of_le (h.inFile q hq) hpages
  · change s'.disposedPages q = true at hq
    change s'.bitmap q = true ∧ 0 < Function.update x.held p (x.held p + 1) q ∧ _
    rw [ht.waiting] at hq
    have hne : q ≠ p := fun he => by
      rw [he, h.free_not_waiting hbit] at hq
      cases hq
    rw [ht.bitmap, Function.update_of_ne hne, Function.update_of_ne hne]
    exact h.waiting q hq

/-- Nothing changed but the pins of `p` and who holds them. -/
theorem Inv.repinned {n k : Nat} (h : Inv x) (hn : n = k + if p = headerPage then 1 else 0)
    (hfile : 0 < k → p < x.pool.pagesNum) (hw : x.pool.disposedPages p = true → 0 < k) :
    Inv ⟨x.pool.setPin p n, Function.update x.held p k⟩ := by
  refine ⟨⟨h.counted.count, h.counted.bounded, h.counted.limit⟩, h.faults, h.header, fun q => ?_,
    fun q hq => ?_, fun q hq => ?_⟩
  · change Function.update x.pool.pinCount p n q = Function.update x.held p k q + _
    by_cases he : q = p
    · subst he
      rw [Function.update_self, Function.update_self, hn]
    · rw [Function.update_of_ne he, Function.update_of_ne he, h.pins q]
  · change 0 < Function.update x.held p k q at hq
    by_cases he : q = p
    · subst he
      rw [Function.update_self] at hq
      exact hfile hq
    · rw [Function.update_of_ne he] at hq
      exact h.inFile q hq
  · obtain ⟨hbit, hheld, hne⟩ := h.waiting q hq
    refine ⟨hbit, ?_, hne⟩
    change 0 < Function.update x.held p k q
    by_cases he : q = p
    · subst he
      rw [Function.update_self]
      exact hw hq
    · rwa [Function.update_of_ne he]

theorem Inv.freed {s' : PagePool δ} (held : PageId → Nat) (h : Inv x) (hf : Freed x.pool p s')
    (hbit : x.pool.bitmap p = true) (hp : p ≠ headerPage)
    (hpins : s'.pinCount = Function.update x.pool.pinCount p 0)
    (hheld : held = Function.update x.held p 0)
    (hw : s'.disposedPages = Function.update x.pool.disposedPages p false) : Inv ⟨s', held⟩ := by
  subst hheld
  refine ⟨h.counted.freed hf hbit, hf.faults.trans h.faults, ?_, fun q => ?_, fun q hq => ?_,
    fun q hq => ?_⟩
  · change s'.bitmap headerPage = true
    rw [hf.bitmap, Function.update_of_ne hp.symm]
    exact h.header
  · change s'.pinCount q = Function.update x.held p 0 q + _
    rw [hpins]
    by_cases he : q = p
    · subst he
      rw [Function.update_self, Function.update_self, if_neg hp]
    · rw [Function.update_of_ne he, Function.update_of_ne he, h.pins q]
  · change 0 < Function.update x.held p 0 q at hq
    change q < s'.pagesNum
    rw [hf.pages]
    by_cases he : q = p
    · subst he
      rw [Function.update_self] at hq
      exact absurd hq (Nat.lt_irrefl 0)
    · rw [Function.update_of_ne he] at hq
      exact h.inFile q hq
  · change s'.disposedPages q = true at hq
    change s'.bitmap q = true ∧ 0 < Function.update x.held p 0 q ∧ _
    rw [hw] at hq
    have hne : q ≠ p := fun he => by
      rw [he, Function.update_self] at hq
      cases hq
    rw [Function.update_of_ne hne] at hq
    rw [hf.bitmap, Function.update_of_ne hne, Function.update_of_ne hne]
    exact h.waiting q hq

theorem Inv.stays (hy : Inv y) (hw : ∀ p, x.pool.disposedPages p = true → y.pool.disposedPages p = true)
    (p : PageId) (hp : x.pool.disposedPages p = true) :
    y.pool.disposedPages p = true ∧ y.pool.bitmap p = true :=
  ⟨hw p hp, (hy.waiting p (hw p hp)).1⟩

section Step

variable [Inhabited δ]

theorem Bookkept.of_getPage (hy : Inv y) (hbits : y.pool.bitmap = x.pool.bitmap)
    (hw : y.pool.disposedPages = x.pool.disposedPages) : Bookkept x (.getPage q) y := by
  refine ⟨nofun, nofun, nofun, fun p hp _ => ?_, nofun, fun p hp hp' => ?_⟩
  · exact hy.stays (fun p hp => hw ▸ hp) p hp
  · rw [hbits, hp] at hp'
    cases hp'

theorem Inv.allocatePage (h : Inv x) (hc : x.call .allocatePage = some y) :
    Inv y ∧ Bookkept x .allocatePage y := by
  unfold call at hc
  rcases allocatePage_cases h.faults with ⟨i, s', hfree, heq, ht, hpages, hpins⟩ |
    ⟨hfree, r, hr, heq⟩ | ⟨hfree, hlt, s', heq, ht, hpages, hpins⟩
  · obtain ⟨hi, hbit⟩ := firstFree_spec hfree
    rw [heq] at hc
    cases hc
    have hcounted := h.counted.taken ht hbit (hpages ▸ hi) (le_of_eq hpages.symm)
      (hpages ▸ h.counted.limit)
    have hy := h.taken ht hbit hcounted (hpages ▸ hi) (le_of_eq hpages.symm) hpins
    refine ⟨hy, fun _ _ => ?_, fun _ _ => ?_, nofun, fun p hp _ => ?_, nofun, fun p hp hp' => ?_⟩
    · rw [heq]
      exact ⟨hbit, (congrFun ht.bitmap i).trans (Function.update_self ..)⟩
    · rw [heq]
      exact ⟨rfl, hpages⟩
    · exact hy.stays (fun p hp => (congrFun ht.waiting p).trans hp) p hp
    · change s'.bitmap p = false at hp'
      rw [ht.bitmap] at hp'
      by_cases he : p = i
      · rw [he, Function.update_self] at hp'
        cases hp'
      · rw [Function.update_of_ne he, hp] at hp'
        cases hp'
  · rw [heq] at hc
    simp only [if_neg hr] at hc
    cases hc
    have hy : Inv (⟨{ x.pool with noBuf := true }, x.held⟩ : Run δ) :=
      ⟨⟨h.counted.count, h.counted.bounded, h.counted.limit⟩, h.faults, h.header, h.pins, h.inFile, h.waiting⟩
    refine ⟨hy, fun _ hs => ?_, fun _ hq => ?_, nofun, fun p hp _ => ?_, nofun, fun p hp hp' => ?_⟩
    · rw [heq] at hs
      exact absurd hs hr
    · rw [← h.counted.firstFree_isSome, hfree] at hq
      cases hq
    · exact hy.stays (fun _ hp => hp) p hp
    · rw [hp] at hp'
      cases hp'
  · have hbit : x.pool.bitmap x.pool.pagesNum = false := by
      by_contra hb
      exact absurd (h.counted.bounded _ (Bool.eq_true_of_not_eq_false hb)) (Nat.lt_irrefl _)
    have hpin : x.pool.pinCount x.pool.pagesNum = 0 := by
      have hheld : x.held x.pool.pagesNum = 0 := by
        by_contra hne
        exact absurd (h.inFile _ (Nat.pos_of_ne_zero hne)) (Nat.lt_irrefl _)
      have hne : x.pool.pagesNum ≠ headerPage := fun he => by
        rw [he, h.header] at hbit
        cases hbit
      rw [h.pins, hheld, if_neg hne]
    rw [heq] at hc
    cases hc
    have hle : x.pool.pagesNum ≤ s'.pagesNum := by omega
    have hlt' : x.pool.pagesNum < s'.pagesNum := by omega
    have hcounted := h.counted.taken ht hbit hlt' hle (by omega)
    have hy := h.taken ht hbit hcounted hlt' hle (by rw [hpins, hpin])
    refine ⟨hy, fun _ _ => ?_, fun _ hq => ?_, nofun, fun p hp _ => ?_, nofun, fun p hp hp' => ?_⟩
    · rw [heq]
      exact ⟨hbit, (congrFun ht.bitmap _).trans (Function.update_self ..)⟩
    · rw [← h.counted.firstFree_isSome, hfree] at hq
      cases hq
    · exact hy.stays (fun p hp => (congrFun ht.waiting p).trans hp) p hp
    · change s'.bitmap p = false at hp'
      rw [ht.bitmap] at hp'
      by_cases he : p = x.pool.pagesNum
      · rw [he, Function.update_self] at hp'
        cases hp'
      · rw [Function.update_of_ne he, hp] at hp'
        cases hp'

theorem Inv.getPage (h : Inv x) (hc : x.call (.getPage p) = some y) :
    Inv y ∧ Bookkept x (.getPage p) y := by
  unfold call PagePool.getPage takeFault at hc
  simp only [h.faults, ne_eq, not_true_eq_false, if_false] at hc
  by_cases hp : x.pool.pagesNum ≤ p
  · simp only [if_pos hp, reduceCtorEq, if_false] at hc
    cases hc
    exact ⟨h, .of_getPage h rfl rfl⟩
  · simp only [if_neg hp, if_true] at hc
    cases hc
    have hy := h.repinned (p := p) (n := x.pool.pinCount p + 1) (k := x.held p + 1)
      (by rw [h.pins p]; omega) (fun _ => Nat.not_le.mp hp) fun _ => Nat.succ_pos _
    exact ⟨hy, .of_getPage hy rfl rfl⟩

theorem Inv.unpinPage (h : Inv x) (hc : x.call (.unpinPage p) = some y) :
    Inv y ∧ Bookkept x (.unpinPage p) y := by
  simp only [Run.call] at hc
  split at hc
  · rename_i hheld
    cases hc
    have hpin : 0 < x.pool.pinCount p := by rw [h.pins p]; omega
    by_cases hlast : x.pool.pinCount p = 1 ∧ x.pool.disposedPages p = true
    · obtain ⟨hone, hw⟩ := hlast
      obtain ⟨hbit, -, hp⟩ := h.waiting p hw
      have hheld1 : x.held p = 1 := by
        have := h.pins p
        rw [if_neg hp] at this
        omega
      obtain ⟨hf, hpins, hwaiting⟩ := unpinPage_freed hone hw
      have hy := h.freed (Function.update x.held p (x.held p - 1)) hf hbit hp hpins
        (by rw [hheld1]) hwaiting
      refine ⟨hy, nofun, nofun, nofun, fun q hq hnot => ?_, fun q hq he hone' => ?_, fun q hq hq' => ?_⟩
      · have hne : q ≠ p := fun he => hnot ⟨by rw [he], he ▸ hheld1⟩
        have hkeep : (x.pool.unpinPage p).disposedPages q = true := by
          rw [hwaiting, Function.update_of_ne hne]
          exact hq
        exact ⟨hkeep, (hy.waiting q hkeep).1⟩
      · cases he
        refine ⟨?_, ?_, hf.count⟩
        · rw [hwaiting, Function.update_self]
        · rw [hf.bitmap, Function.update_self]
      · change (x.pool.unpinPage p).bitmap q = false at hq'
        rw [hf.bitmap] at hq'
        by_cases he : q = p
        · subst he
          exact .inr ⟨rfl, hheld1, hw⟩
        · rw [Function.update_of_ne he, hq] at hq'
          cases hq'
    · rw [unpinPage_kept hlast hpin]
      have hy := h.repinned (p := p) (n := x.pool.pinCount p - 1) (k := x.held p - 1)
        (by rw [h.pins p]; omega) (fun hpos => h.inFile p hheld) fun hw => by
          have hp := (h.waiting p hw).2.2
          have hpins := h.pins p
          rw [if_neg hp] at hpins
          have : x.pool.pinCount p ≠ 1 := fun h1 => hlast ⟨h1, hw⟩
          omega
      refine ⟨hy, nofun, nofun, nofun, fun q hq _ => ?_, fun q hq he hone => ?_, fun q hq hq' => ?_⟩
      · exact hy.stays (fun _ hp => hp) q hq
      · cases he
        have hp := (h.waiting p hq).2.2
        have hpins := h.pins p
        rw [if_neg hp] at hpins
        exact absurd ⟨by omega, hq⟩ hlast
      · change x.pool.bitmap q = false at hq'
        rw [hq] at hq'
        cases hq'
  · cases hc

theorem Inv.disposePage (h : Inv x) (hc : x.call (.disposePage p) = some y) :
    Inv y ∧ Bookkept x (.disposePage p) y := by
  simp only [Run.call] at hc
  split at hc
  · rename_i hbits
    obtain ⟨hbit, hp⟩ := hbits
    cases hc
    by_cases hheld : 0 < x.held p
    · rw [disposePage_pinned ((h.pinCount_pos hp).mpr hheld)]
      have hy : Inv (⟨{ x.pool with disposedPages := Function.update x.pool.disposedPages p true },
          x.held⟩ : Run δ) := by
        refine ⟨⟨h.counted.count, h.counted.bounded, h.counted.limit⟩, h.faults, h.header, h.pins, h.inFile,
          fun q hq => ?_⟩
        by_cases he : q = p
        · subst he
          exact ⟨hbit, hheld, hp⟩
        · change Function.update x.pool.disposedPages p true q = true at hq
          rw [Function.update_of_ne he] at hq
          exact h.waiting q hq
      refine ⟨hy, nofun, nofun, fun q he _ => ?_, fun q hq _ => ?_, nofun, fun q hq hq' => ?_⟩
      · cases he
        exact ⟨Function.update_self .., hbit⟩
      · refine hy.stays (fun q hq => ?_) q hq
        change Function.update x.pool.disposedPages p true q = true
        by_cases he : q = p
        · rw [he, Function.update_self]
        · rwa [Function.update_of_ne he]
      · change x.pool.bitmap q = false at hq'
        rw [hq] at hq'
        cases hq'
    · have hheld0 : x.held p = 0 := Nat.eq_zero_of_not_pos hheld
      have hpin : x.pool.pinCount p = 0 := by rw [h.pins p, hheld0, if_neg hp]
      have hw : x.pool.disposedPages p = false := by
        by_contra hw
        exact hheld (h.waiting p (Bool.eq_true_of_not_eq_false hw)).2.1
      obtain ⟨hf, hpins, hwaiting⟩ := disposePage_freed hpin
      have hy := h.freed x.held hf hbit hp
        (by rw [hpins, ← hpin, Function.update_eq_self]) (by rw [← hheld0, Function.update_eq_self])
        (by rw [hwaiting, ← hw, Function.update_eq_self])
      refine ⟨hy, nofun, nofun, fun q he hq => ?_, fun q hq _ => ?_, nofun, fun q hq hq' => ?_⟩
      · cases he
        exact absurd hq hheld
      · exact hy.stays (fun q hq => (congrFun hwaiting q).trans hq) q hq
      · change (x.pool.disposePage p).2.bitmap q = false at hq'
        rw [hf.bitmap] at hq'
        by_cases he : q = p
        · subst he
          exact .inl ⟨rfl, hheld0⟩
        · rw [Function.update_of_ne he, hq] at hq'
          cases hq'
  · cases hc

theorem Inv.call (h : Inv x) (hc : x.call o = some y) : Inv y ∧ Bookkept x o y := by
  cases o with
  | allocatePage => exact h.allocatePage hc
  | getPage p => exact h.getPage hc
  | unpinPage p => exact h.unpinPage hc
  | disposePage p => exact h.disposePage hc

end Step

section Runs

variable [Inhabited δ]

theorem Inv.calls (h : Inv x) (hc : x.calls os = some y) : Inv y := by
  induction os generalizing x with
  | nil =>
    cases hc
    exact h
  | cons o os ih =>
    obtain ⟨z, hz, hrest⟩ := Option.bind_eq_some_iff.mp hc
    exact ih (h.call hz).1 hrest

/-- A waiting page stays allocated through calls that never release its last pin. -/
theorem Inv.waits (h : Inv x) (hw : x.pool.disposedPages p = true) (hc : x.calls os = some y)
    (hpins : ∀ pre z, pre <+: os → x.calls pre = some z → 0 < z.held p) :
    y.pool.disposedPages p = true ∧ y.pool.bitmap p = true := by
  induction os generalizing x with
  | nil =>
    cases hc
    exact ⟨hw, (h.waiting p hw).1⟩
  | cons o os ih =>
    obtain ⟨z, hz, hrest⟩ := Option.bind_eq_some_iff.mp hc
    obtain ⟨hinv, hbook⟩ := h.call hz
    have hlast : ¬(o = .unpinPage p ∧ x.held p = 1) := by
      rintro ⟨rfl, hone⟩
      have hheld := hpins [.unpinPage p] z (by simp) (by rw [Run.calls, hz]; rfl)
      have hzero : z.held p = 0 := by
        simp only [Run.call] at hz
        split at hz
        · cases hz
          exact (Function.update_self ..).trans (by rw [hone])
        · cases hz
      omega
    refine ih hinv (hbook.stays p hw hlast).1 hrest fun pre w hpre hw' => ?_
    exact hpins (o :: pre) w (List.cons_prefix_cons.mpr ⟨rfl, hpre⟩) (by rw [Run.calls, hz]; exact hw')

end Runs

end Run

/-- The law of a file over all runs that start with `s`. -/
structure Bookkeeping [Inhabited δ] (s : PagePool δ) : Prop where
  /-- counters and bitmap agree in every state reached -/
  counted : ∀ os x, (Run.start s).calls os = some x → Counted x.pool
  /-- every call made there keeps the books -/
  bookkept : ∀ os x o y, (Run.start s).calls os = some x → x.call o = some y → Run.Bookkept x o y
  /-- a page that waits for its disposal stays allocated while it is held -/
  waits : ∀ os x p os' y, (Run.start s).calls os = some x → x.pool.disposedPages p = true →
    x.calls os' = some y → (∀ pre z, pre <+: os' → x.calls pre = some z → 0 < z.held p) →
    y.pool.disposedPages p = true ∧ y.pool.bitmap p = true

theorem bookkeeping_of_opened [Inhabited δ] (h : Opened s) : Bookkeeping s where
  counted _ _ hx := ((Run.Inv.start h).calls hx).counted
  bookkept _ _ _ _ hx hy := (((Run.Inv.start h).calls hx).call hy).2
  waits _ _ _ _ _ hx hw hy hpins := ((Run.Inv.start h).calls hx).waits hw hy hpins

theorem newFile_opened [Inhabited δ] : Opened (newFile : PagePool δ) where
  counted := by
    refine ⟨?_, fun p hp => ?_, show (1 : Nat) ≤ maxPageNum by decide⟩
    · have hset : (Finset.range maxPageNum).filter (fun p => (p == headerPage) = true) = {headerPage} := by
        ext p
        simp only [Finset.mem_filter, Finset.mem_range, beq_iff_eq, Finset.mem_singleton]
        constructor
        · exact fun h => h.2
        · rintro rfl
          exact ⟨by decide, rfl⟩
      have hcard : (newFile : PagePool δ).setBits = 1 := by
        rw [setBits]
        exact (congrArg Finset.card hset).trans (Finset.card_singleton _)
      rw [hcard]
      rfl
    · have he : p = headerPage := eq_of_beq hp
      rw [he]
      exact Nat.zero_lt_one
  faults := rfl
  header := rfl
  pins _ := rfl
  waiting _ := rfl

/-- A new file keeps its books. -/
theorem bookkeeping_of_opened_newFile : Bookkeeping (newFile : PagePool Nat) :=
  bookkeeping_of_opened newFile_opened

end PagePool

end Idmbs
