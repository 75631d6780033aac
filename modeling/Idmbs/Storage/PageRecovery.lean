import Idmbs.Storage.BitMap
import Idmbs.Storage.PagePool
import Mathlib.Data.Set.Card

/-!
# Idmbs.Storage.PageRecovery

`RecoverPage` and `BufferPoolIterator` (storage/buffer_pool.cpp): which sequences of recovered pages keep
the file header right. And `AllocatePage` when it fails.
-/

namespace Idmbs

open BitMap

namespace PagePool

variable {δ : Type}

/-- `RecoverPage`. A page that was not allocated counts as a new one, also inside the file. -/
def recoverPage (s : PagePool δ) (p : PageId) : Re × PagePool δ :=
  if s.bitmap p = false then
    (.success, { s with
      bitmap := Function.update s.bitmap p true
      allocatedPagesNum := s.allocatedPagesNum + 1
      pagesNum := s.pagesNum + 1
      dirty := Function.update s.dirty headerPage true })
  else (.success, s)

/-- `RecoverPage` of one page after the other. -/
def recoverPages (s : PagePool δ) (ps : List PageId) : PagePool δ := ps.foldl (fun s p => (s.recoverPage p).2) s

end PagePool

/-- `BufferPoolIterator`: the bitmap it looks at, `size_` of it and `current_page_id_`. -/
structure BufferPoolIterator where
  bitMap : PageId → Bool
  size : Nat
  currentPageId : PageId

namespace BufferPoolIterator

def init {δ : Type} (s : PagePool δ) (startPage : Int) : BufferPoolIterator :=
  ⟨s.bitmap, s.pagesNum, (max 0 startPage).toNat⟩

def hasNext (it : BufferPoolIterator) : Bool := (nextSetBit it.bitMap it.size (it.currentPageId + 1)).isSome

def next (it : BufferPoolIterator) : Option PageId × BufferPoolIterator :=
  match nextSetBit it.bitMap it.size (it.currentPageId + 1) with
  | some p => (some p, { it with currentPageId := p })
  | none => (none, it)

/-- `Next` while `HasNext`, at most `n` times. -/
def pages : Nat → BufferPoolIterator → List PageId
  | 0, _ => []
  | n + 1, it =>
    if it.hasNext then
      match it.next with
      | (some p, it) => p :: pages n it
      | (none, _) => []
    else []

/-- From a start in a byte that is not zero the iterator lists the pages with a set bit, in order. -/
theorem pages_eq : ∀ {n : Nat} {it : BufferPoolIterator}, it.size ≤ it.currentPageId + n →
    ((it.currentPageId + 1) % 8 = 0 ∨ byteZero it.bitMap ((it.currentPageId + 1) / 8) = false) →
    it.pages n = bitsFrom it.bitMap it.size (it.currentPageId + 1) := by
  intro n
  induction n with
  | zero =>
    intro it hsize _
    exact (bitsFrom_of_ge (by omega)).symm
  | succ n ih =>
    intro it hsize hright
    rcases nextSetBit_cases it.size hright with ⟨hnone, hnil⟩ | ⟨p, hp, hlt, -, hset, hcons⟩
    · rw [pages, hasNext, hnone, hnil]
      rfl
    · have hrest := @ih { it with currentPageId := p } (by simp only; omega) (startsRight_of_bit hset)
      simp only [pages, hasNext, next, hp, Option.isSome_some, if_true, hrest, hcons]

/-- From the header page on the iterator lists the pages with a set bit behind the first bit of the first
byte that is not zero. -/
theorem pages_start {b : PageId → Bool} {size j r : Nat} (h : ∀ q < 8 * j, b q = false) (hr : b r = true)
    (hj : r / 8 = j) (hsize : r < size) :
    (⟨b, size, 0⟩ : BufferPoolIterator).pages size = bitsFrom b size (8 * j + 1) := by
  have hzero : ∀ i < j, byteZero b i = true := fun i hi => byteZero_iff.mpr fun q _ hq => h q (by omega)
  have hbyte : byteZero b j = false := hj ▸ byteZero_of_bit hr
  have hskip := nextSetBit_skip hzero (s := 1) (by decide) (show 8 * j < size by omega)
  have hsame : (⟨b, size, 0⟩ : BufferPoolIterator).pages size =
      (⟨b, size, 8 * j⟩ : BufferPoolIterator).pages size := by
    obtain ⟨n, rfl⟩ := Nat.exists_eq_succ_of_ne_zero (Nat.ne_zero_of_lt hsize)
    cases hnext : nextSetBit b (n + 1) (8 * j + 1) with
    | none =>
      simp only [pages, hasNext, Nat.zero_add, hskip, hnext, Option.isSome_none, Bool.false_eq_true, if_false]
    | some p => simp only [pages, hasNext, next, Nat.zero_add, hskip, hnext]
  rw [hsame]
  refine pages_eq (Nat.le_add_left _ _) (.inr ?_)
  simp only
  rwa [show (8 * j + 1) / 8 = j by omega]

/-- The iterator overlooks a page only if no page before it is set and it is the first of its byte. -/
theorem mem_pages_start {b : PageId → Bool} {size p : Nat} (hp : b p = true) (hsize : p < size) (hp0 : p ≠ 0) :
    p ∈ (⟨b, size, 0⟩ : BufferPoolIterator).pages size ↔ (8 ∣ p → ∃ q < p, b q = true) := by
  have hex : ∃ q, b q = true := ⟨p, hp⟩
  have hfirst : b (Nat.find hex) = true := Nat.find_spec hex
  have hmin : ∀ q < Nat.find hex, b q = false := fun q hq => eq_false_of_ne_true (Nat.find_min hex hq)
  have hle : Nat.find hex ≤ p := Nat.find_min' hex hp
  generalize Nat.find hex = r at hfirst hmin hle
  rw [pages_start (fun q hq => hmin q (by omega)) hfirst rfl (lt_of_le_of_lt hle hsize), mem_bitsFrom]
  constructor
  · rintro ⟨hpos, -, -⟩ ⟨c, rfl⟩
    exact ⟨r, by omega, hfirst⟩
  · intro hbefore
    refine ⟨?_, hsize, hp⟩
    by_contra hlt
    have hpr : p = r := by omega
    obtain ⟨q, hq, hset⟩ := hbefore ⟨r / 8, by omega⟩
    rw [hmin q (by omega)] at hset
    cases hset

end BufferPoolIterator

namespace PagePool

variable {δ : Type} {s : PagePool δ} {p q : PageId} {ps : List PageId}

/-! ## Recovered pages -/

/-- `allocated_pages_num` counts the set bits, and every set bit is below `pages_num`. -/
structure HeaderSound (s : PagePool δ) : Prop where
  counted : s.allocatedPagesNum = ({p | s.bitmap p = true} : Set PageId).ncard
  bounded : ∀ p, s.bitmap p = true → p < s.pagesNum

/-- The pages of `ps` that were not allocated. -/
def newPages (s : PagePool δ) (ps : List PageId) : Finset PageId := ps.toFinset.filter fun p => s.bitmap p = false

theorem HeaderSound.finite (h : s.HeaderSound) : ({p | s.bitmap p = true} : Set PageId).Finite :=
  (Set.finite_lt_nat s.pagesNum).subset h.bounded

theorem recoverPages_spec : ∀ (ps : List PageId) {s : PagePool δ},
    (∀ p, (s.recoverPages ps).bitmap p = true ↔ s.bitmap p = true ∨ p ∈ ps) ∧
      (s.recoverPages ps).pagesNum = s.pagesNum + (s.newPages ps).card ∧
      (s.recoverPages ps).allocatedPagesNum = s.allocatedPagesNum + (s.newPages ps).card ∧
      (s.recoverPages ps).faults = s.faults := by
  intro ps
  induction ps with
  | nil => exact fun {s} => ⟨by simp [recoverPages], rfl, by simp [recoverPages, newPages], rfl⟩
  | cons p ps ih =>
    intro s
    obtain ⟨hbits, hpages, hcount, hfaults⟩ := @ih (s.recoverPage p).2
    rw [show s.recoverPages (p :: ps) = (s.recoverPage p).2.recoverPages ps from rfl]
    cases hbit : s.bitmap p with
    | true =>
      have hsame : (s.recoverPage p).2 = s := by rw [recoverPage, if_neg (by rw [hbit]; decide)]
      have hnew : s.newPages (p :: ps) = s.newPages ps := by
        rw [newPages, List.toFinset_cons, Finset.filter_insert, if_neg (by rw [hbit]; decide)]
        rfl
      rw [hsame] at hbits hpages hcount hfaults ⊢
      rw [hnew]
      refine ⟨fun q => ?_, hpages, hcount, hfaults⟩
      rw [hbits, List.mem_cons]
      by_cases hq : q = p
      · simp [hq, hbit]
      · simp [hq]
    | false =>
      have hnew : s.newPages (p :: ps) = insert p ((s.recoverPage p).2.newPages ps) := by
        ext q
        simp only [newPages, recoverPage, if_pos hbit, Finset.mem_filter, List.mem_toFinset, List.mem_cons,
          Finset.mem_insert]
        by_cases hq : q = p
        · simp [hq, hbit]
        · simp [hq]
      have hcard : (s.newPages (p :: ps)).card = ((s.recoverPage p).2.newPages ps).card + 1 := by
        rw [hnew, Finset.card_insert_of_notMem]
        simp [newPages, recoverPage, hbit]
      have hp : (s.recoverPage p).2.pagesNum = s.pagesNum + 1 := by rw [recoverPage, if_pos hbit]
      have ha : (s.recoverPage p).2.allocatedPagesNum = s.allocatedPagesNum + 1 := by rw [recoverPage, if_pos hbit]
      refine ⟨fun q => ?_, by omega, by rw [hcount, ha, hcard]; push_cast; omega, ?_⟩
      · rw [hbits, List.mem_cons, recoverPage, if_pos hbit]
        by_cases hq : q = p
        · simp [hq]
        · simp [hq]
      · rw [hfaults, recoverPage, if_pos hbit]

/-- The count of set bits stays right whatever is recovered. -/
theorem HeaderSound.counted_recoverPages (h : s.HeaderSound) (ps : List PageId) :
    (s.recoverPages ps).allocatedPagesNum = ({p | (s.recoverPages ps).bitmap p = true} : Set PageId).ncard := by
  obtain ⟨hbits, -, hcount, -⟩ := recoverPages_spec ps (s := s)
  have hset : ({p | (s.recoverPages ps).bitmap p = true} : Set PageId) =
      {p | s.bitmap p = true} ∪ (s.newPages ps : Set PageId) := by
    ext p
    simp only [Set.mem_ofPred_eq, hbits, newPages, Finset.coe_filter, List.mem_toFinset, Set.mem_union]
    cases s.bitmap p <;> simp
  have hdisjoint : Disjoint ({p | s.bitmap p = true} : Set PageId) (s.newPages ps : Set PageId) := by
    refine Set.disjoint_left.mpr fun p hp hnew => ?_
    rw [Finset.mem_coe, newPages, Finset.mem_filter, show s.bitmap p = true from hp] at hnew
    cases hnew.2
  rw [hset, Set.ncard_union_eq hdisjoint h.finite (Finset.finite_toSet _), Set.ncard_coe_finset, hcount, h.counted]
  push_cast
  rfl

/-- What the header is good for after a recovery: `AllocatePage` gives no recovered page away, and
`BufferPoolIterator` reaches every one behind the header page. -/
structure Recovered [Inhabited δ] (s : PagePool δ) (ps : List PageId) : Prop where
  sound : s.HeaderSound
  notTaken : s.allocatePage.1 = .success → s.allocatePage.2.1 ∉ ps
  reached : ∀ p ∈ ps, p ≠ headerPage → p ∈ (BufferPoolIterator.init s 0).pages s.pagesNum

/-- A page that `AllocatePage` takes was not allocated. -/
theorem allocatePage_bit [Inhabited δ] (hbounded : ∀ p, s.bitmap p = true → p < s.pagesNum)
    (hr : s.allocatePage.1 = .success) : s.bitmap s.allocatePage.2.1 = false := by
  unfold allocatePage at hr ⊢
  cases hfree : s.firstFree with
  | some i =>
    simp only
    exact (firstFree_spec hfree).2
  | none =>
    simp only [hfree] at hr ⊢
    split at hr
    · cases hr
    · rename_i hroom
      rw [if_neg hroom]
      have hclear : s.bitmap s.pagesNum = false := by
        by_contra hset
        exact absurd (hbounded _ (eq_true_of_ne_false hset)) (lt_irrefl _)
      split
      · rename_i hfault
        rw [if_pos hfault] at hr
        exact absurd hr hfault
      · exact hclear

/-- The header of a file is right after a sequence of recovered pages exactly when each of them is below
the number of pages there were plus the number of pages that were new, and none is the first page of all and
the first of its byte. The latter happens only where the header page is not allocated. -/
theorem recovered_iff [Inhabited δ] (s : PagePool δ) (h : s.HeaderSound) (ps : List PageId) :
    (s.recoverPages ps).Recovered ps ↔ (∀ p ∈ ps, p < s.pagesNum + (s.newPages ps).card) ∧
      ∀ p ∈ ps, p ≠ headerPage → 8 ∣ p → ∃ q < p, s.bitmap q = true ∨ q ∈ ps := by
  obtain ⟨hbits, hpages, -, -⟩ := recoverPages_spec ps (s := s)
  constructor
  · intro hrec
    have hin : ∀ p ∈ ps, p < (s.recoverPages ps).pagesNum := fun p hp =>
      hrec.sound.bounded p ((hbits p).mpr (.inr hp))
    refine ⟨fun p hp => hpages ▸ hin p hp, fun p hp hne hdvd => ?_⟩
    have hbit := (hbits p).mpr (.inr hp)
    obtain ⟨q, hq, hset⟩ :=
      (BufferPoolIterator.mem_pages_start hbit (hin p hp) hne).mp (hrec.reached p hp hne) hdvd
    exact ⟨q, hq, (hbits q).mp hset⟩
  · rintro ⟨hall, hbefore⟩
    have hbounded : ∀ p, (s.recoverPages ps).bitmap p = true → p < (s.recoverPages ps).pagesNum := by
      intro p hp
      rw [hpages]
      rcases (hbits p).mp hp with hold | hnew
      · exact Nat.lt_add_right _ (h.bounded p hold)
      · exact hall p hnew
    refine ⟨⟨h.counted_recoverPages ps, hbounded⟩, fun hr hmem => ?_, fun p hp hne => ?_⟩
    · have hclear := allocatePage_bit hbounded hr
      rw [(hbits _).mpr (.inr hmem)] at hclear
      cases hclear
    · have hbit := (hbits p).mpr (.inr hp)
      refine (BufferPoolIterator.mem_pages_start hbit (hbounded p hbit) hne).mpr fun hdvd => ?_
      obtain ⟨q, hq, hset⟩ := hbefore p hp hne hdvd
      exact ⟨q, hq, (hbits q).mpr hset⟩

theorem newFile_headerSound [Inhabited δ] : (newFile : PagePool δ).HeaderSound where
  counted := by
    have hset : ({p | (newFile : PagePool δ).bitmap p = true} : Set PageId) = {headerPage} := by
      ext p
      exact beq_iff_eq
    rw [hset, Set.ncard_singleton]
    rfl
  bounded p hp := by
    rw [show p = headerPage from beq_iff_eq.mp hp]
    exact Nat.one_pos

/-- Page 2 is recovered in a file that has only its header page. -/
theorem not_recovered_gap : ¬∀ (s : PagePool Nat) (ps : List PageId), s.HeaderSound →
    (s.recoverPages ps).Recovered ps := by
  intro h
  have hrec := h newFile [2] newFile_headerSound
  exact absurd (hrec.sound.bounded 2 (by decide)) (by decide)

/-- Pages 2 and 1 leave no gap. -/
theorem recovered_iff_two : ((newFile : PagePool Nat).recoverPages [2, 1]).Recovered [2, 1] ↔
    (∀ p ∈ [2, 1], p < (newFile : PagePool Nat).pagesNum + ((newFile : PagePool Nat).newPages [2, 1]).card) ∧
      ∀ p ∈ [2, 1], p ≠ headerPage → 8 ∣ p → ∃ q < p, (newFile : PagePool Nat).bitmap q = true ∨ q ∈ [2, 1] :=
  recovered_iff newFile newFile_headerSound [2, 1]

/-! ## Allocation that fails -/

/-- The allocation state in the file header. -/
structure SameHeader (s s' : PagePool δ) : Prop where
  bitmap : s'.bitmap = s.bitmap
  allocated : s'.allocatedPagesNum = s.allocatedPagesNum
  pages : s'.pagesNum = s.pagesNum

theorem takeFault_snd (s : PagePool δ) :
    s.takeFault.2.bitmap = s.bitmap ∧ s.takeFault.2.allocatedPagesNum = s.allocatedPagesNum ∧
      s.takeFault.2.pagesNum = s.pagesNum := by
  unfold takeFault
  split
  · exact ⟨rfl, rfl, rfl⟩
  · exact ⟨rfl, rfl, rfl⟩

theorem getPage_header (s : PagePool δ) (p : PageId) (hp : p < s.pagesNum) :
    (s.getPage p).1 = s.takeFault.1 ∧ SameHeader s (s.getPage p).2 := by
  obtain ⟨hb, ha, hn⟩ := s.takeFault_snd
  unfold getPage
  rcases ht : s.takeFault with ⟨r, s'⟩
  rw [ht] at hb ha hn
  simp only
  by_cases hr : r ≠ .success
  · rw [if_pos hr]
    exact ⟨rfl, hb, ha, hn⟩
  · rw [if_neg hr, if_neg (Nat.not_le.mpr (show p < s'.pagesNum from hn ▸ hp))]
    exact ⟨(not_not.mp hr).symm, hb, ha, hn⟩

/-- A page that is used again is reserved before it is loaded; a page that is added to the file is reserved
when its frame is there. -/
theorem allocatePage_unreserved_iff [Inhabited δ] (s : PagePool δ) :
    (s.allocatePage.1 ≠ .success → SameHeader s s.allocatePage.2.2) ↔
      ∀ i, s.firstFree = some i → s.takeFault.1 = .success := by
  cases hfree : s.firstFree with
  | some i =>
    obtain ⟨hlt, -⟩ := firstFree_spec hfree
    obtain ⟨hanswer, hsame⟩ := getPage_header (({ s with
      allocatedPagesNum := s.allocatedPagesNum + 1
      bitmap := Function.update s.bitmap i true } : PagePool δ).dirtyMark headerPage) i hlt
    have hfault : (({ s with
        allocatedPagesNum := s.allocatedPagesNum + 1
        bitmap := Function.update s.bitmap i true } : PagePool δ).dirtyMark headerPage).takeFault.1 =
        s.takeFault.1 := by
      unfold takeFault dirtyMark
      simp only
      cases s.faults with
      | nil => rfl
      | cons _ _ => rfl
    have hone : s.allocatePage.1 = s.takeFault.1 := by
      rw [← hfault, ← hanswer, allocatePage, hfree]
    have hcount : s.allocatePage.2.2.allocatedPagesNum = s.allocatedPagesNum + 1 := by
      have hcount := hsame.allocated
      rw [allocatePage, hfree]
      exact hcount
    constructor
    · intro h j _
      by_contra hne
      have hback := (h (by rw [hone]; exact hne)).allocated
      omega
    · intro h hne
      exact absurd (hone.trans (h i rfl)) hne
  | none =>
    refine ⟨fun _ i hi => (nomatch hi), fun _ hne => ?_⟩
    obtain ⟨hb, ha, hn⟩ := s.takeFault_snd
    unfold allocatePage at hne ⊢
    simp only [hfree] at hne ⊢
    split
    · exact ⟨rfl, rfl, rfl⟩
    · rename_i hroom
      rw [if_neg hroom] at hne
      split
      · exact ⟨hb, ha, hn⟩
      · rename_i hr
        rw [if_neg hr] at hne
        exact absurd rfl hne

/-- Page 1 is free and no frame is. -/
theorem not_unreserved_noMem : ¬∀ s : PagePool Nat, s.allocatePage.1 ≠ .success →
    SameHeader s s.allocatePage.2.2 := by
  intro h
  have hsame := h { (newFile : PagePool Nat) with pagesNum := 2, faults := [.noMem] } (by decide)
  exact absurd hsame.allocated (by decide)

end PagePool

end Idmbs
