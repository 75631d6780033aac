import Idmbs.BPlusTree.IndexBalance
import Idmbs.BPlusTree.IndexChecks
import Idmbs.BPlusTree.Scanner

/-!
# Idmbs.BPlusTree.InsertFailure

`InsertEntry` when some `AllocatePage` or `GetPage` fails on the way. What a search or a scan finds
is asked of the index with an environment that answers again; it depends neither on the dirty flags
nor on the allocation state.
-/

namespace Idmbs

open SearchTree Comparator

namespace PagePool

variable {δ : Type}

/-- The pool in an environment that gives these answers. -/
def answering (s : PagePool δ) (faults : List Re) : PagePool δ := { s with faults := faults }

/-- Some call between `s` and `s'` failed: the file was full, or the environment gave an error. -/
def Failed (s s' : PagePool δ) : Prop :=
  s.noBuf = false ∧ s'.noBuf = true ∨
    ∃ answers, s.faults = answers ++ s'.faults ∧ ∃ r ∈ answers, r ≠ .success

/-- Equal up to dirty flags and allocation state. -/
structure Alike (s s' : PagePool δ) : Prop where
  pageData : s'.pageData = s.pageData
  pinCount : s'.pinCount = s.pinCount
  pagesNum : s'.pagesNum = s.pagesNum
  disposedPages : s'.disposedPages = s.disposedPages
  faults : s'.faults = s.faults

section Alike

variable {s s' : PagePool δ} {p : PageId}

theorem Alike.takeFault (h : s.Alike s') :
    s'.takeFault.1 = s.takeFault.1 ∧ s.takeFault.2.Alike s'.takeFault.2 := by
  unfold PagePool.takeFault
  rw [h.faults]
  cases hf : s.faults with
  | nil => exact ⟨rfl, h⟩
  | cons r rs => exact ⟨rfl, h.pageData, h.pinCount, h.pagesNum, h.disposedPages, rfl⟩

theorem Alike.setPin (h : s.Alike s') (n : Nat) : (s.setPin p n).Alike (s'.setPin p n) := by
  refine ⟨h.pageData, ?_, h.pagesNum, h.disposedPages, h.faults⟩
  simp only [PagePool.setPin, h.pinCount]

theorem Alike.getPage (h : s.Alike s') :
    (s'.getPage p).1 = (s.getPage p).1 ∧ (s.getPage p).2.Alike (s'.getPage p).2 := by
  obtain ⟨h1, h2⟩ := h.takeFault
  unfold PagePool.getPage
  rcases ht : s.takeFault with ⟨r, t⟩
  rcases ht' : s'.takeFault with ⟨r', t'⟩
  rw [ht, ht'] at h1 h2
  simp only at h1 h2 ⊢
  subst h1
  rw [h2.pagesNum, h2.pinCount]
  split_ifs
  · exact ⟨rfl, h2⟩
  · exact ⟨rfl, h2⟩
  · exact ⟨rfl, h2.setPin _⟩

theorem Alike.unpinPage (h : s.Alike s') : (s.unpinPage p).Alike (s'.unpinPage p) := by
  have hpin : (s.released p).Alike (s'.released p) :=
    ⟨h.pageData, by rw [pinCount_released, pinCount_released, h.pinCount], h.pagesNum, h.disposedPages, h.faults⟩
  unfold PagePool.unpinPage
  simp only
  generalize s.released p = t at hpin
  generalize s'.released p = t' at hpin
  rw [hpin.pinCount, hpin.disposedPages]
  by_cases hc : t.pinCount p = 0 ∧ t.disposedPages p = true
  · have h0 : ¬0 < t.pinCount p := by omega
    have h0' : ¬0 < t'.pinCount p := by rw [hpin.pinCount]; exact h0
    rw [if_pos hc, if_pos hc, PagePool.disposePage, if_neg h0, PagePool.disposePage, if_neg h0']
    exact ⟨hpin.pageData, hpin.pinCount, hpin.pagesNum, by rw [hpin.disposedPages], hpin.faults⟩
  · rw [if_neg hc, if_neg hc]
    exact hpin

end Alike

/-- A pin that is released again leaves nothing behind. -/
theorem unpinPage_pinned {s : PagePool δ} {p : PageId} (hp : s.disposedPages p = false) :
    (s.pinned p).unpinPage p = s := by
  have hd : ¬(((s.pinned p).released p).pinCount p = 0 ∧ ((s.pinned p).released p).disposedPages p = true) := by
    rintro ⟨-, hd⟩
    exact absurd ((show s.disposedPages p = true from hd).symm.trans hp) (by decide)
  rw [unpinPage]
  simp only [if_neg hd]
  simp [released, pinned, setPin]

theorem unpinPage_answering {s : PagePool δ} {p : PageId} (f : List Re) :
    (s.unpinPage p).answering f = (s.answering f).unpinPage p := by
  unfold unpinPage
  simp only
  by_cases hc : (s.released p).pinCount p = 0 ∧ (s.released p).disposedPages p = true
  · have hc' : ((s.answering f).released p).pinCount p = 0 ∧ ((s.answering f).released p).disposedPages p = true := hc
    rw [if_pos hc, if_pos hc', disposePage, disposePage, if_neg (Nat.not_lt.mpr hc.1.le),
      if_neg (Nat.not_lt.mpr hc'.1.le)]
    rfl
  · have hc' : ¬(((s.answering f).released p).pinCount p = 0 ∧
        ((s.answering f).released p).disposedPages p = true) := hc
    rw [if_neg hc, if_neg hc']
    rfl

theorem takeFault_cases (s : PagePool δ) : ∃ answers r f, s.faults = answers ++ f ∧
    s.takeFault = (r, s.answering f) ∧ (r = .success → ∀ a ∈ answers, a = .success) := by
  unfold takeFault
  cases hf : s.faults with
  | nil =>
    refine ⟨[], .success, [], rfl, ?_, fun _ _ ha => absurd ha List.not_mem_nil⟩
    show (Re.success, s) = _
    rw [answering, ← hf]
  | cons r rs =>
    exact ⟨[r], r, rs, rfl, rfl, fun hr a ha => (List.mem_singleton.mp ha).trans hr⟩

/-- A page of the file is loaded, or the environment gave an error. -/
theorem getPage_cases {s : PagePool δ} {p : PageId} (hp : p < s.pagesNum) :
    ∃ answers f, s.faults = answers ++ f ∧
      ((∃ r, r ≠ .success ∧ s.getPage p = (r, s.answering f)) ∨
        (∀ a ∈ answers, a = .success) ∧ s.getPage p = (.success, (s.answering f).pinned p)) := by
  obtain ⟨answers, r, f, hfaults, ht, hall⟩ := s.takeFault_cases
  refine ⟨answers, f, hfaults, ?_⟩
  rw [getPage, ht]
  by_cases hr : r ≠ .success
  · exact .inl ⟨r, hr, by simp only [if_pos hr]⟩
  · refine .inr ⟨hall (not_not.mp hr), ?_⟩
    simp only [if_neg hr]
    exact if_neg (Nat.not_le.mpr hp)

/-- An `AllocatePage` that fails changes the allocation state at most. -/
theorem allocatePage_failed [Inhabited δ] {s : PagePool δ} (h : s.allocatePage.1 ≠ .success) :
    (s.answering []).Alike (s.allocatePage.2.2.answering []) := by
  unfold allocatePage at h ⊢
  cases hfree : s.firstFree with
  | some i =>
    have hlt := (firstFree_spec hfree).1
    rw [hfree] at h
    simp only at h ⊢
    obtain ⟨-, f, -, ⟨r, -, hg⟩ | ⟨-, hg⟩⟩ := getPage_cases (s := dirtyMark { s with
      allocatedPagesNum := s.allocatedPagesNum + 1
      bitmap := Function.update s.bitmap i true } headerPage) hlt
    · rw [hg]
      exact ⟨rfl, rfl, rfl, rfl, rfl⟩
    · rw [hg] at h
      exact absurd rfl h
  | none =>
    rw [hfree] at h
    simp only at h ⊢
    by_cases hfull : maxPageNum ≤ s.pagesNum
    · rw [if_pos hfull]
      exact ⟨rfl, rfl, rfl, rfl, rfl⟩
    · obtain ⟨-, r, f, -, ht, -⟩ := s.takeFault_cases
      rw [if_neg hfull, ht] at h ⊢
      by_cases hr : r ≠ .success
      · simp only [if_pos hr]
        exact ⟨rfl, rfl, rfl, rfl, rfl⟩
      · simp only [if_neg hr] at h
        exact absurd rfl h

/-- A page that `AllocatePage` yields is pinned once more than before, or is new and pinned once. -/
theorem allocatePage_pinCount [Inhabited δ] {s s' : PagePool δ} {q : PageId}
    (h : s.allocatePage = (.success, q, s')) :
    s.bitmap q = false ∧ s'.pinCount q = s.pinCount q + 1 ∨ q = s.pagesNum ∧ s'.pinCount q = 1 := by
  unfold allocatePage at h
  cases hfree : s.firstFree with
  | some i =>
    obtain ⟨hlt, hbit⟩ := firstFree_spec hfree
    rw [hfree] at h
    simp only at h
    obtain ⟨-, f, -, ⟨r, hr, hg⟩ | ⟨-, hg⟩⟩ := getPage_cases (s := dirtyMark { s with
      allocatedPagesNum := s.allocatedPagesNum + 1
      bitmap := Function.update s.bitmap i true } headerPage) hlt
    · rw [hg] at h
      cases h
      exact absurd rfl hr
    · rw [hg] at h
      cases h
      exact .inl ⟨hbit, by simp [pinned, setPin, answering, dirtyMark]⟩
  | none =>
    rw [hfree] at h
    simp only at h
    by_cases hfull : maxPageNum ≤ s.pagesNum
    · rw [if_pos hfull] at h
      cases h
    · obtain ⟨-, r, f, -, ht, -⟩ := s.takeFault_cases
      rw [if_neg hfull, ht] at h
      by_cases hr : r ≠ .success
      · simp only [if_pos hr] at h
        cases h
        exact absurd rfl hr
      · simp only [if_neg hr] at h
        cases h
        exact .inr ⟨rfl, by simp [setPin, setData]⟩

end PagePool

namespace BplusTreeHandler

variable {α : Type} [Inhabited α] {s s' : BplusTreeHandler α} {cmp : Key α → Key α → Int}
  {p q : PageId}

/-- The handler in an environment that gives these answers. -/
def answering (s : BplusTreeHandler α) (faults : List Re) : BplusTreeHandler α :=
  { s with pool := s.pool.answering faults }

/-- `PagePool.Alike` of the two files, under the same header. -/
structure Alike (s s' : BplusTreeHandler α) : Prop where
  fileHeader : s'.fileHeader = s.fileHeader
  pool : s.pool.Alike s'.pool

/-- `FindLeaf` and then `LookUp` in the leaf, in an environment that answers. -/
def entryAt (cmp : Key α → Key α → Int) (key : Key α) (s : BplusTreeHandler α) : Option RecordId :=
  match (s.answering []).findLeaf cmp key with
  | (r, leaf, s) =>
    if r ≠ .success then none
    else
      match (s.node leaf).leafLookUp cmp key with
      | (position, found) =>
        if found then ((s.node leaf).entries.map Prod.snd)[position]? else none

/-- What a scan without bounds yields, in an environment that answers. -/
def fullScan (attrComparator : α → α → Int) (ridCompare : RecordId → RecordId → Int)
    (fixUserKey : α → Nat → Bool → α × Bool) (turns : Nat) (s : BplusTreeHandler α) :
    Re × List RecordId :=
  match (BplusTreeScanner.new (s.answering [])).openScan attrComparator ridCompare fixUserKey
    none 0 true none 0 true with
  | (r, sc) =>
    if r ≠ .success then (r, [])
    else
      match sc.drain turns with
      | (r, rids, _) => (r, rids)

/-! ## What searches and scans depend on -/

section Alike

omit [Inhabited α] in
theorem Alike.node (h : Alike s s') : s'.node = s.node := node_eq_of_pageData h.pool.pageData

omit [Inhabited α] in
theorem Alike.getPage (h : Alike s s') :
    (s'.getPage p).1 = (s.getPage p).1 ∧ Alike (s.getPage p).2 (s'.getPage p).2 :=
  ⟨h.pool.getPage.1, h.fileHeader, h.pool.getPage.2⟩

omit [Inhabited α] in
theorem Alike.unpinPage (h : Alike s s') : Alike (s.unpinPage p) (s'.unpinPage p) :=
  ⟨h.fileHeader, h.pool.unpinPage⟩

omit [Inhabited α] in
theorem Alike.findLeafLoop (childPageGetter : IndexNode α → PageId) : ∀ {turns : Nat} {p : PageId}
    {s s' : BplusTreeHandler α}, Alike s s' →
      (findLeafLoop childPageGetter turns p s').1 = (findLeafLoop childPageGetter turns p s).1 ∧
      (findLeafLoop childPageGetter turns p s').2.1 = (findLeafLoop childPageGetter turns p s).2.1 ∧
      Alike (findLeafLoop childPageGetter turns p s).2.2 (findLeafLoop childPageGetter turns p s').2.2 := by
  intro turns
  induction turns with
  | zero => exact fun h => ⟨rfl, rfl, h⟩
  | succ turns ih =>
    intro p s s' h
    simp only [BplusTreeHandler.findLeafLoop, h.node]
    by_cases hleaf : (s.node p).isLeaf = true
    · simp only [if_pos hleaf]
      exact ⟨trivial, trivial, h⟩
    · simp only [if_neg hleaf]
      obtain ⟨h1, h2⟩ := (h.unpinPage (p := p)).getPage (p := childPageGetter (s.node p))
      rcases hg : (s.unpinPage p).getPage (childPageGetter (s.node p)) with ⟨r, t⟩
      rcases hg' : (s'.unpinPage p).getPage (childPageGetter (s.node p)) with ⟨r', t'⟩
      rw [hg, hg'] at h1 h2
      simp only at h1 h2 ⊢
      subst h1
      by_cases hr : r' ≠ .success
      · simp only [if_pos hr]
        exact ⟨trivial, trivial, h2⟩
      · simp only [if_neg hr]
        exact ih h2

omit [Inhabited α] in
theorem Alike.findLeafInternal (h : Alike s s') (childPageGetter : IndexNode α → PageId) :
    (s'.findLeafInternal childPageGetter).1 = (s.findLeafInternal childPageGetter).1 ∧
    (s'.findLeafInternal childPageGetter).2.1 = (s.findLeafInternal childPageGetter).2.1 ∧
    Alike (s.findLeafInternal childPageGetter).2.2 (s'.findLeafInternal childPageGetter).2.2 := by
  unfold BplusTreeHandler.findLeafInternal
  rw [h.fileHeader]
  cases s.fileHeader.rootPageId with
  | none => exact ⟨rfl, rfl, h⟩
  | some root =>
    simp only
    obtain ⟨h1, h2⟩ := h.getPage (p := root)
    rcases hg : s.getPage root with ⟨r, t⟩
    rcases hg' : s'.getPage root with ⟨r', t'⟩
    rw [hg, hg'] at h1 h2
    simp only at h1 h2 ⊢
    subst h1
    by_cases hr : r' ≠ .success
    · simp only [if_pos hr]
      exact ⟨trivial, trivial, h2⟩
    · simp only [if_neg hr]
      have hfuel : t'.fuel = t.fuel := by rw [fuel, fuel, h2.pool.pagesNum]
      rw [hfuel]
      exact h2.findLeafLoop _

theorem entryAt_congr (h : Alike (s.answering []) (s'.answering [])) (key : Key α) :
    s'.entryAt cmp key = s.entryAt cmp key := by
  obtain ⟨h1, h2, h3⟩ := h.findLeafInternal fun n => n.valueAt (n.internalLookUp cmp key).1
  unfold entryAt findLeaf
  rcases hf : (s.answering []).findLeafInternal _ with ⟨r, leaf, t⟩
  rcases hf' : (s'.answering []).findLeafInternal _ with ⟨r', leaf', t'⟩
  rw [hf, hf'] at h1 h2 h3
  simp only at h1 h2 h3 ⊢
  subst h1 h2
  rw [h3.node]

end Alike

section Scan

variable {sc : BplusTreeScanner α}

omit [Inhabited α] in
theorem Alike.leafAt [Inhabited α] (h : Alike sc.treeHandler s') (frame : Option PageId) :
    ({ sc with treeHandler := s' } : BplusTreeScanner α).leafAt frame = sc.leafAt frame := by
  cases frame with
  | none => rfl
  | some p => exact congrFun h.node p

theorem Alike.nextEntry (h : Alike sc.treeHandler s') : ∃ t,
    ({ sc with treeHandler := s' } : BplusTreeScanner α).nextEntry =
      (sc.nextEntry.1, sc.nextEntry.2.1, { sc.nextEntry.2.2 with treeHandler := t }) ∧
    Alike sc.nextEntry.2.2.treeHandler t := by
  unfold BplusTreeScanner.nextEntry
  simp only [h.leafAt]
  split_ifs with h1 h2 h3 h4
  · exact ⟨s', rfl, h⟩
  · exact ⟨s', rfl, h⟩
  · exact ⟨s', rfl, h⟩
  · cases hnext : (sc.leafAt sc.leftFrame).nextBrother with
    | none => exact ⟨_, rfl, h.unpinPage⟩
    | some next =>
      simp only
      obtain ⟨h5, h6⟩ := (h.unpinPage (p := sc.leftFrame.getD 0)).getPage (p := next)
      rcases hg : (sc.treeHandler.unpinPage (sc.leftFrame.getD 0)).getPage next with ⟨r, u⟩
      rcases hg' : (s'.unpinPage (sc.leftFrame.getD 0)).getPage next with ⟨r', u'⟩
      rw [hg, hg'] at h5 h6
      simp only at h5 h6 ⊢
      subst h5
      split_ifs
      · exact ⟨u', rfl, h6⟩
      · exact ⟨u', rfl, h6⟩
  · exact ⟨s', rfl, h⟩

theorem Alike.drain : ∀ (turns : Nat) {sc : BplusTreeScanner α} {s' : BplusTreeHandler α},
    Alike sc.treeHandler s' →
      (({ sc with treeHandler := s' } : BplusTreeScanner α).drain turns).1 = (sc.drain turns).1 ∧
      (({ sc with treeHandler := s' } : BplusTreeScanner α).drain turns).2.1 = (sc.drain turns).2.1 := by
  intro turns
  induction turns with
  | zero => exact fun _ => ⟨rfl, rfl⟩
  | succ turns ih =>
    intro sc s' h
    obtain ⟨t, h1, h2⟩ := h.nextEntry
    rcases hn : sc.nextEntry with ⟨r, rid, sc1⟩
    rw [hn] at h1 h2
    simp only [BplusTreeScanner.drain, h1, hn]
    by_cases hr : r ≠ .success
    · simp only [if_pos hr, and_self]
    · obtain ⟨h3, h4⟩ := ih h2
      simp only [if_neg hr]
      exact ⟨h3, by rw [h4]⟩

section Open

variable (attrComparator : α → α → Int) (ridCompare : RecordId → RecordId → Int)
  (fixUserKey : α → Nat → Bool → α × Bool)

theorem Alike.openLeft (sc : BplusTreeScanner α) (h : Alike sc.treeHandler s') : ∃ t,
    ({ sc with treeHandler := s' } : BplusTreeScanner α).openLeft attrComparator ridCompare fixUserKey
      none 0 true = ((sc.openLeft attrComparator ridCompare fixUserKey none 0 true).1,
        { (sc.openLeft attrComparator ridCompare fixUserKey none 0 true).2 with treeHandler := t }) ∧
    Alike (sc.openLeft attrComparator ridCompare fixUserKey none 0 true).2.treeHandler t := by
  obtain ⟨h1, h2, h3⟩ := h.findLeafInternal fun n => n.valueAt 0
  rcases hl : sc.treeHandler.leftMostPage with ⟨r, frame, t⟩
  rcases hl' : s'.leftMostPage with ⟨r', frame', t'⟩
  rw [show sc.treeHandler.findLeafInternal _ = _ from hl,
    show s'.findLeafInternal _ = _ from hl'] at h1 h2 h3
  simp only at h1 h2 h3
  subst h1 h2
  simp only [BplusTreeScanner.openLeft, hl, hl']
  by_cases hr : r' ≠ .success
  · simp only [if_pos hr]
    exact ⟨t', rfl, h3⟩
  · simp only [if_neg hr]
    exact ⟨t', rfl, h3⟩

theorem Alike.openRight (sc : BplusTreeScanner α) (h : Alike sc.treeHandler s') : ∃ t,
    ({ sc with treeHandler := s' } : BplusTreeScanner α).openRight attrComparator ridCompare fixUserKey
      none 0 true = ((sc.openRight attrComparator ridCompare fixUserKey none 0 true).1,
        { (sc.openRight attrComparator ridCompare fixUserKey none 0 true).2 with treeHandler := t }) ∧
    Alike (sc.openRight attrComparator ridCompare fixUserKey none 0 true).2.treeHandler t := by
  obtain ⟨h1, h2, h3⟩ := h.findLeafInternal fun n => n.valueAt (n.children.length - 1)
  rcases hl : sc.treeHandler.rightMostPage with ⟨r, frame, t⟩
  rcases hl' : s'.rightMostPage with ⟨r', frame', t'⟩
  rw [show sc.treeHandler.findLeafInternal _ = _ from hl,
    show s'.findLeafInternal _ = _ from hl'] at h1 h2 h3
  simp only at h1 h2 h3
  subst h1 h2
  simp only [BplusTreeScanner.openRight, hl, hl', h3.node]
  by_cases hr : r' ≠ .success
  · simp only [if_pos hr]
    exact ⟨t', rfl, h3⟩
  · simp only [if_neg hr]
    exact ⟨t', rfl, h3⟩

theorem Alike.closeEmptyRange (h : Alike sc.treeHandler s') :
    ({ sc with treeHandler := s' } : BplusTreeScanner α).closeEmptyRange =
      { sc.closeEmptyRange with treeHandler := s' } ∧
    Alike sc.closeEmptyRange.treeHandler s' := by
  unfold BplusTreeScanner.closeEmptyRange
  simp only [h.leafAt]
  split_ifs
  · exact ⟨rfl, h⟩
  · exact ⟨rfl, h⟩
  · exact ⟨rfl, h⟩

theorem Alike.openScan (sc : BplusTreeScanner α) (h : Alike sc.treeHandler s') : ∃ t,
    ({ sc with treeHandler := s' } : BplusTreeScanner α).openScan attrComparator ridCompare fixUserKey
      none 0 true none 0 true =
      ((sc.openScan attrComparator ridCompare fixUserKey none 0 true none 0 true).1,
        { (sc.openScan attrComparator ridCompare fixUserKey none 0 true none 0 true).2 with
          treeHandler := t }) ∧
    Alike (sc.openScan attrComparator ridCompare fixUserKey none 0 true none 0 true).2.treeHandler t := by
  unfold BplusTreeScanner.openScan
  simp only [BplusTreeScanner.validRange, Bool.not_true, Bool.false_eq_true, if_false]
  by_cases hinit : sc.inited = true
  · simp only [if_pos hinit]
    exact ⟨s', rfl, h⟩
  · simp only [if_neg hinit]
    obtain ⟨t, h1, h2⟩ := Alike.openLeft attrComparator ridCompare fixUserKey
      { sc with inited := true } h
    rcases hl : BplusTreeScanner.openLeft attrComparator ridCompare fixUserKey none 0 true
      { sc with inited := true } with ⟨o, sc1⟩
    rw [hl] at h1 h2
    rw [h1]
    cases o with
    | some r => exact ⟨t, rfl, h2⟩
    | none =>
      obtain ⟨u, h3, h4⟩ := Alike.openRight attrComparator ridCompare fixUserKey sc1 h2
      rcases hr : BplusTreeScanner.openRight attrComparator ridCompare fixUserKey none 0 true sc1
        with ⟨o, sc2⟩
      rw [hr] at h3 h4
      simp only [h3, hr]
      cases o with
      | some r => exact ⟨u, rfl, h4⟩
      | none =>
        obtain ⟨h5, h6⟩ := h4.closeEmptyRange
        exact ⟨u, congrArg (Prod.mk Re.success) h5, h6⟩

theorem fullScan_congr (h : Alike (s.answering []) (s'.answering [])) (turns : Nat) :
    s'.fullScan attrComparator ridCompare fixUserKey turns =
      s.fullScan attrComparator ridCompare fixUserKey turns := by
  obtain ⟨t, h1, h2⟩ := Alike.openScan attrComparator ridCompare fixUserKey
    (.new (s.answering [])) h
  rw [show { BplusTreeScanner.new (s.answering []) with treeHandler := s'.answering [] } =
    BplusTreeScanner.new (s'.answering []) from rfl] at h1
  unfold fullScan
  rcases ho : BplusTreeScanner.openScan attrComparator ridCompare fixUserKey none 0 true none 0 true
    (.new (s.answering [])) with ⟨r, sc⟩
  rw [ho] at h1 h2
  simp only [h1]
  by_cases hr : r ≠ .success
  · simp only [if_pos hr]
  · obtain ⟨h3, h4⟩ := h2.drain turns
    simp only [if_neg hr]
    rw [h3, h4]

end Open

end Scan

/-! ## Searches in an environment that may fail -/

section Search

variable {keep : List PageId} (childPageGetter : IndexNode α → PageId)

omit [Inhabited α] in
theorem getPage_answering {f : List Re} (hp : p < s.pool.pagesNum) :
    ∃ answers f', f = answers ++ f' ∧
      ((∃ r, r ≠ .success ∧ (s.answering f).getPage p = (r, s.answering f')) ∨
        (∀ a ∈ answers, a = .success) ∧
          (s.answering f).getPage p = (.success, (s.answering f').pinned p)) := by
  obtain ⟨answers, f', hf, hg⟩ := PagePool.getPage_cases (s := s.pool.answering f) hp
  refine ⟨answers, f', hf, ?_⟩
  rcases hg with ⟨r, hr, hg⟩ | ⟨hall, hg⟩
  · refine .inl ⟨r, hr, ?_⟩
    simp only [BplusTreeHandler.getPage, answering, hg]
    rfl
  · refine .inr ⟨hall, ?_⟩
    simp only [BplusTreeHandler.getPage, answering, hg]
    rfl

omit [Inhabited α] in
theorem getPage_answers (hp : p < s.pool.pagesNum) :
    (s.answering []).getPage p = (.success, (s.answering []).pinned p) := by
  have hg : (s.pool.answering []).getPage p = (.success, (s.pool.answering []).pinned p) := by
    unfold PagePool.getPage
    exact if_neg (Nat.not_le.mpr hp)
  simp only [BplusTreeHandler.getPage, answering, hg]
  rfl

omit [Inhabited α] in
theorem unpinPage_pinned (hp : s.pool.disposedPages p = false) : (s.pinned p).unpinPage p = s := by
  rw [BplusTreeHandler.unpinPage, pinned, PagePool.unpinPage_pinned hp]

omit [Inhabited α] in
/-- The way down fails and releases its frame, or it ends where it would end if all pages loaded. -/
theorem findLeafLoop_answering
    (hkeep : ∀ p ∈ keep, s.pool.disposedPages p = false ∧ p < s.pool.pagesNum)
    (hchild : ∀ p ∈ keep, (s.node p).isLeaf = false → childPageGetter (s.node p) ∈ keep) :
    ∀ (turns : Nat) {p : PageId} {f : List Re}, p ∈ keep →
      (∃ r q f', r ≠ .success ∧
        findLeafLoop childPageGetter turns p ((s.answering f).pinned p) = (r, q, s.answering f')) ∨
      ∃ r q answers f', f = answers ++ f' ∧ (∀ a ∈ answers, a = .success) ∧ q ∈ keep ∧
        findLeafLoop childPageGetter turns p ((s.answering f).pinned p) =
          (r, q, (s.answering f').pinned q) ∧
        findLeafLoop childPageGetter turns p ((s.answering []).pinned p) =
          (r, q, (s.answering []).pinned q) := by
  intro turns
  induction turns with
  | zero =>
    exact fun hp => .inr ⟨_, _, [], _, rfl, fun _ ha => absurd ha List.not_mem_nil, hp, rfl, rfl⟩
  | succ turns ih =>
    intro p f hp
    have hnode : ∀ f, ((s.answering f).pinned p).node = s.node := fun _ => rfl
    simp only [findLeafLoop, hnode]
    by_cases hleaf : (s.node p).isLeaf = true
    · simp only [if_pos hleaf]
      exact .inr ⟨_, _, [], _, rfl, fun _ ha => absurd ha List.not_mem_nil, hp, rfl, rfl⟩
    · have hc := hchild p hp (Bool.eq_false_iff.mpr hleaf)
      have hunpin : ∀ f, ((s.answering f).pinned p).unpinPage p = s.answering f := fun f =>
        unpinPage_pinned (s := s.answering f) (hkeep p hp).1
      simp only [if_neg hleaf, hunpin, getPage_answers (hkeep _ hc).2, ne_eq, not_true_eq_false, if_false]
      obtain ⟨answers, f1, rfl, ⟨r, hr, hg⟩ | ⟨hall, hg⟩⟩ := getPage_answering (f := f) (hkeep _ hc).2
      · left
        simp only [hg, hr, not_false_eq_true, if_true]
        exact ⟨r, _, f1, hr, rfl⟩
      · simp only [hg, not_true_eq_false, if_false]
        rcases ih (f := f1) hc with hfail | ⟨r, q, answers', f', rfl, hall', hq, h1, h2⟩
        · exact .inl hfail
        · refine .inr ⟨r, q, answers ++ answers', f', (List.append_assoc _ _ _).symm, fun a ha => ?_, hq,
            h1, h2⟩
          exact (List.mem_append.mp ha).elim (hall a) (hall' a)

omit [Inhabited α] in
theorem findLeafInternal_answering
    (hkeep : ∀ p ∈ keep, s.pool.disposedPages p = false ∧ p < s.pool.pagesNum)
    (hchild : ∀ p ∈ keep, (s.node p).isLeaf = false → childPageGetter (s.node p) ∈ keep)
    {root : PageId} (hroot : s.fileHeader.rootPageId = some root) (hmem : root ∈ keep) (f : List Re) :
    (∃ r q f', r ≠ .success ∧
      (s.answering f).findLeafInternal childPageGetter = (r, q, s.answering f')) ∨
    ∃ r q answers f', f = answers ++ f' ∧ (∀ a ∈ answers, a = .success) ∧ q ∈ keep ∧
      (s.answering f).findLeafInternal childPageGetter = (r, q, (s.answering f').pinned q) ∧
      (s.answering []).findLeafInternal childPageGetter = (r, q, (s.answering []).pinned q) := by
  have hr : ∀ f, (s.answering f).fileHeader.rootPageId = some root := fun _ => hroot
  have hfuel : ∀ f f', ((s.answering f).pinned root).fuel = ((s.answering f').pinned root).fuel :=
    fun _ _ => rfl
  simp only [findLeafInternal, hr, getPage_answers (hkeep _ hmem).2, ne_eq, not_true_eq_false, if_false]
  obtain ⟨answers, f1, rfl, ⟨r, hr, hg⟩ | ⟨hall, hg⟩⟩ := getPage_answering (f := f) (hkeep _ hmem).2
  · left
    simp only [hg, hr, not_false_eq_true, if_true]
    exact ⟨r, _, f1, hr, rfl⟩
  · simp only [hg, not_true_eq_false, if_false]
    rw [hfuel f1 []]
    rcases findLeafLoop_answering childPageGetter hkeep hchild ((s.answering []).pinned root).fuel
      (f := f1) hmem with hfail | ⟨r, q, answers', f', rfl, hall', hq, h1, h2⟩
    · exact .inl hfail
    · refine .inr ⟨r, q, answers ++ answers', f', (List.append_assoc _ _ _).symm, fun a ha => ?_, hq, h1, h2⟩
      exact (List.mem_append.mp ha).elim (hall a) (hall' a)

end Search

/-! ## The tree below a search -/

section Tree

variable [LinearOrder (Key α)] {S : Set (Key α)} {hdr : IndexFileHeader} {nd : PageId → IndexNode α}
  {h m : Nat} {t : IndexTree α m}

omit [Inhabited α] [LinearOrder (Key α)] in
/-- An inner node has children, and they are nodes of the tree. -/
theorem Holds.inner_children {b : Tree.Bounds} {par : Option PageId} {top : Bool} {u : IndexTree α h}
    (hu : Holds nd par u) (hz : u.Sized b top) (hb : b.Wide) (hp : p ∈ u.pages)
    (hinner : (nd p).isLeaf = false) :
    (nd p).children ≠ [] ∧ ∀ q ∈ (nd p).children.map Prod.snd, q ∈ u.pages := by
  induction u using Tree.ind generalizing par top with
  | leaf q es =>
    rw [Tree.pages_leaf, List.mem_singleton] at hp
    subst hp
    rw [(holds_leaf.mp hu).1] at hinner
    cases hinner
  | inner q items ih =>
    obtain ⟨⟨-, -, hchildren⟩, hsub⟩ := holds_inner.mp hu
    rw [Tree.pages_inner] at hp ⊢
    rcases List.mem_cons.mp hp with rfl | hp
    · rw [hchildren]
      constructor
      · rw [← List.length_pos_iff, length_childLinks]
        exact hz.pos hb
      · intro r hr
        rw [childLinks_tops] at hr
        obtain ⟨it, hit, rfl⟩ := List.mem_map.mp hr
        exact List.mem_cons_of_mem _ (List.mem_flatMap.mpr ⟨it, hit, it.2.page_mem_pages⟩)
    · obtain ⟨it, hit, hp⟩ := List.mem_flatMap.mp hp
      obtain ⟨h1, h2⟩ := ih it hit (hsub it hit) ((Tree.below_inner _ _ _).mp hz.below it hit) hp
      exact ⟨h1, fun r hr => List.mem_cons_of_mem _ (List.mem_flatMap.mpr ⟨it, hit, h2 r hr⟩)⟩

/-- What `FindLeaf` and `LookUp` find are the entries of the tree. -/
theorem Valid.entryAt_eq (ha : Agrees cmp S) (hb : hdr.bounds.Wide) (hval : Valid S s hdr nd t)
    {x : Key α} {v : RecordId} (hx : x ∈ S) (he : (x, v) ∈ t.entries) :
    s.entryAt cmp x = some v := by
  obtain ⟨c, p, es, s1, rfl, hc, hfind, hv1⟩ := findLeaf_spec ha hval.keys hx hval.view rfl hval.holds
    hval.sorted hval.sized hb hval.nodup
  obtain ⟨h1, h2, h3⟩ := holds_leaf.mp ((holds_plug _ _).mp hval.holds).2
  have hcalm : s.answering [] = s := by
    have hf := hval.view.faults
    rw [answering, PagePool.answering, ← hf]
  have hsorted := Path.sorted_of_plug hval.sorted
  have hmem : (x, v) ∈ es := by
    rw [Path.entries_plug, Tree.entries_leaf, List.mem_append, List.mem_append] at he
    rcases he with (he | he) | he
    · exact absurd rfl (hc.not_mem (.inl he))
    · exact he
    · exact absurd rfl (hc.not_mem (.inr he))
  obtain ⟨A, B, hes, hpos, hA, hfound⟩ := leafLookUp_spec (n := nd p) ha
    (fun e he => hval.keys _ (Tree.key_mem_keys (m := .ent e.1) (by
      rw [Path.marks_plug]
      simp only [List.mem_append]
      exact .inl (.inr (List.mem_map.mpr ⟨e, h3 ▸ he, rfl⟩))))) hx
    (by rw [h3, List.pairwise_map]; simpa [Tree.Sorted, List.pairwise_map] using hsorted)
  rw [← h3, hes] at hmem
  rcases hfound with ⟨-, hB⟩ | ⟨hf, w, B', rfl, hB⟩
  · rcases List.mem_append.mp hmem with hmem | hmem
    · exact absurd (hA _ hmem) (lt_irrefl _)
    · exact absurd (hB _ hmem) (lt_irrefl _)
  · have hvw : v = w := by
      rcases List.mem_append.mp hmem with hmem | hmem
      · exact absurd (hA _ hmem) (lt_irrefl _)
      · rcases List.mem_cons.mp hmem with heq | hmem
        · exact (Prod.ext_iff.mp heq).2
        · exact absurd (hB _ hmem) (lt_irrefl _)
    have hlook : (nd p).leafLookUp cmp x = (A.length, true) := Prod.ext hpos hf
    simp only [entryAt, hcalm, hfind, ne_eq, not_true_eq_false, if_false, hv1.node, hlook, if_true, hes]
    simp [hvw]

end Tree

/-! ## What a failure leaves behind -/

section Failures

omit [Inhabited α] in
theorem unpinPage_answering (f : List Re) : (s.unpinPage p).answering f = (s.answering f).unpinPage p := by
  rw [answering, BplusTreeHandler.unpinPage, PagePool.unpinPage_answering]
  rfl

omit [Inhabited α] in
theorem getPage_failed (h : (s.getPage p).1 ≠ .success) : (s.getPage p).2.pool.pinCount = s.pool.pinCount := by
  obtain ⟨-, r, f, -, ht, -⟩ := s.pool.takeFault_cases
  simp only [BplusTreeHandler.getPage, PagePool.getPage, ht] at h ⊢
  split_ifs at h ⊢
  · rfl
  · rfl
  · exact absurd rfl h

omit [Inhabited α] in
theorem getPage_loaded (h : (s.getPage p).1 = .success) :
    (s.getPage p).2.pool.pinCount = Function.update s.pool.pinCount p (s.pool.pinCount p + 1) := by
  obtain ⟨-, r, f, -, ht, -⟩ := s.pool.takeFault_cases
  simp only [BplusTreeHandler.getPage, PagePool.getPage, ht] at h ⊢
  by_cases h1 : r ≠ .success
  · simp only [if_pos h1] at h
    exact absurd h h1
  · simp only [if_neg h1] at h ⊢
    by_cases h2 : (s.pool.answering f).pagesNum ≤ p
    · simp only [if_pos h2] at h
      cases h
    · simp only [if_neg h2]
      rfl

omit [Inhabited α] in
theorem allocatePage_failed [Inhabited α] (h : s.allocatePage.1 ≠ .success) :
    Alike (s.answering []) (s.allocatePage.2.2.answering []) :=
  ⟨rfl, PagePool.allocatePage_failed h⟩

/-- When `InsertEntryIntoParent` gives an error, it has not touched a pin. -/
theorem insertEntryIntoParent_pinCount {turns : Nat} {frame newFrame : PageId} {key : Key α}
    (h : (insertEntryIntoParent cmp turns frame newFrame key s).1 ≠ .success) :
    (insertEntryIntoParent cmp turns frame newFrame key s).2.pool.pinCount = s.pool.pinCount := by
  cases turns with
  | zero => rfl
  | succ turns =>
    unfold insertEntryIntoParent at h ⊢
    cases hpar : (s.node frame).parent with
    | none =>
      rw [hpar] at h
      simp only at h ⊢
      by_cases hr : s.allocatePage.1 ≠ .success
      · simp only [if_pos hr]
        exact (allocatePage_failed hr).pool.pinCount
      · simp only [if_neg hr] at h
        exact absurd rfl h
    | some parent =>
      rw [hpar] at h
      simp only at h ⊢
      by_cases hr : (s.getPage parent).1 ≠ .success
      · simp only [if_pos hr]
        exact getPage_failed hr
      · simp only [if_neg hr] at h
        split_ifs at h <;> exact absurd rfl h

omit [Inhabited α] in
/-- `relinkNext` releases the frame of the next leaf. -/
theorem relinkNext_pinCount (prev : PageId) (next : Option PageId) :
    (relinkNext prev next s).2.pool.pinCount = s.pool.pinCount := by
  cases next with
  | none => rfl
  | some next =>
    simp only [relinkNext]
    by_cases hr : (s.getPage next).1 ≠ .success
    · simp only [if_pos hr]
      exact getPage_failed hr
    · simp only [if_neg hr]
      show (PagePool.unpinPage _ next).pinCount = _
      rw [PagePool.pinCount_unpinPage]
      have hpin := getPage_loaded (not_not.mp hr)
      simp [setPrevPage, BplusTreeHandler.modifyNode, BplusTreeHandler.setNode, PagePool.setData, hpin]

omit [Inhabited α] in
theorem split_leaf_pinCount [Inhabited α] {s1 : BplusTreeHandler α} (ha : s.allocatePage = (.success, q, s1)) :
    (s.split .leaf p).1 = .success ∧ (s.split .leaf p).2.1 = q ∧
      (s.split .leaf p).2.2.pool.pinCount = s1.pool.pinCount := by
  simp only [split, ha, ne_eq, not_true_eq_false, if_false, true_and]
  rfl

/-- A full leaf is split. Without a page for the other half nothing has happened; with one, the page
stays pinned when a later call fails. -/
theorem insertEntryIntoLeafNode_full (key : Key α) (rid : RecordId)
    (hlook : ((s.node p).leafLookUp cmp key).2 = false) (hfull : ¬(s.node p).size < s.maxSize .leaf) :
    (s.allocatePage.1 ≠ .success → insertEntryIntoLeafNode cmp p key rid s =
      (s.allocatePage.1, s.allocatePage.2.2)) ∧
    (s.allocatePage.1 = .success → (insertEntryIntoLeafNode cmp p key rid s).1 ≠ .success →
      (insertEntryIntoLeafNode cmp p key rid s).2.pool.pinCount =
        s.allocatePage.2.2.pool.pinCount) := by
  rcases hl : (s.node p).leafLookUp cmp key with ⟨position, found⟩
  rw [hl] at hlook
  simp only at hlook
  subst hlook
  rcases ha : s.allocatePage with ⟨r, q, s1⟩
  simp only [insertEntryIntoLeafNode, hl, Bool.false_eq_true, if_false, hfull]
  constructor
  · intro hr
    simp only [split, ha, if_pos hr]
  · intro hr hne
    subst hr
    obtain ⟨h1, -, hpins⟩ := split_leaf_pinCount (p := p) ha
    rcases hs : s.split .leaf p with ⟨r, q, t⟩
    rw [hs] at h1 hpins
    simp only at h1 hpins
    subst h1
    simp only [hs, ne_eq, not_true_eq_false, if_false] at hne ⊢
    -- the links of the new leaf touch no pin
    generalize hu : (((t.setPrevPage q _).setNextPage q _).setParentPageId q _).setNextPage p _ = u
      at hne ⊢
    have hup : u.pool.pinCount = s1.pool.pinCount := by rw [← hu, ← hpins]; rfl
    rw [← hup]
    have hrel := relinkNext_pinCount (s := u) q (u.node q).nextBrother
    rcases hl : relinkNext q (u.node q).nextBrother u with ⟨r, v⟩
    rw [hl] at hne hrel
    simp only at hne hrel ⊢
    by_cases hr : ¬r = .success
    · rw [if_pos hr]
      exact hrel
    · rw [if_neg hr] at hne ⊢
      rw [insertEntryIntoParent_pinCount hne]
      split_ifs <;> exact hrel

end Failures

/-! ## `InsertEntry` and its failures -/

/-- Root, pins and entries are the same. -/
structure Unchanged (cmp : Key α → Key α → Int) (s s' : BplusTreeHandler α) : Prop where
  root : s'.fileHeader.rootPageId = s.fileHeader.rootPageId
  pins : s'.pool.pinCount = s.pool.pinCount
  entries : ∀ key, s'.entryAt cmp key = s.entryAt cmp key
  scan : ∀ attrComparator ridCompare fixUserKey turns,
    s'.fullScan attrComparator ridCompare fixUserKey turns =
      s.fullScan attrComparator ridCompare fixUserKey turns

/-- `InsertEntry` takes effect as a whole or not at all, and tells which. -/
structure InsertAtomic (cmp : Key α → Key α → Int) (userKey : α) (rid : RecordId)
    (s : BplusTreeHandler α) : Prop where
  error : s.pool.Failed (s.insertEntry cmp userKey rid).2.pool →
    (s.insertEntry cmp userKey rid).1 ≠ .success
  unchanged : (s.insertEntry cmp userKey rid).1 ≠ .success →
    Unchanged cmp s (s.insertEntry cmp userKey rid).2
  found : (s.insertEntry cmp userKey rid).1 = .success →
    (s.insertEntry cmp userKey rid).2.entryAt cmp ⟨userKey, rid⟩ = some rid

/-- `InsertEntry` comes to an `AllocatePage`, and it succeeds: there is no tree, or the leaf of the
key is full and does not hold it. -/
def TakesPage (cmp : Key α → Key α → Int) (key : Key α) (s : BplusTreeHandler α) : Prop :=
  match s.fileHeader.rootPageId with
  | none => s.allocatePage.1 = .success
  | some _ =>
    match s.findLeaf cmp key with
    | (r, leaf, s) => r = .success ∧ ((s.node leaf).leafLookUp cmp key).2 = false ∧
        ¬(s.node leaf).size < s.maxSize .leaf ∧ s.allocatePage.1 = .success

theorem Alike.unchanged (h : Alike (s.answering []) (s'.answering [])) : Unchanged cmp s s' :=
  ⟨congrArg IndexFileHeader.rootPageId h.fileHeader, h.pool.pinCount, entryAt_congr h,
    fun attrComparator ridCompare fixUserKey turns =>
      fullScan_congr attrComparator ridCompare fixUserKey h turns⟩

section Outcomes

variable [LinearOrder (Key α)] {S : Set (Key α)} {hdr : IndexFileHeader} {m : Nat} {t : IndexTree α m}
  {userKey : α} {rid : RecordId}

omit [Inhabited α] [LinearOrder (Key α)] in
theorem not_failed_of_answers {f f' answers : List Re} (hf : f = answers ++ f')
    (hall : ∀ a ∈ answers, a = .success) (hs : s.pool.faults = f) (hs' : s'.pool.faults = f')
    (hbuf : s'.pool.noBuf = s.pool.noBuf) : ¬s.pool.Failed s'.pool := by
  rintro (⟨h1, h2⟩ | ⟨answers', h1, r, hr, hne⟩)
  · rw [hbuf, h1] at h2
    cases h2
  · rw [hs, hs', hf, List.append_cancel_right_eq] at h1
    exact hne (hall r (h1 ▸ hr))

/-- The child that `LookUp` takes in a page of the tree is a page of the tree. -/
theorem Valid.lookUp_mem (hval : Valid S (s.answering []) hdr s.node t) (hb : hdr.bounds.Wide) (key : Key α)
    {p : PageId} (hp : p ∈ t.pages) (hinner : (s.node p).isLeaf = false) :
    (s.node p).valueAt ((s.node p).internalLookUp cmp key).1 ∈ t.pages := by
  obtain ⟨hne, hmem⟩ := Holds.inner_children hval.holds hval.sized hb hp hinner
  refine hmem _ ?_
  have hlt := internalLookUp_lt cmp key hne
  rw [IndexNode.valueAt, List.getD_eq_getElem _ _ (by simpa using hlt)]
  exact List.getElem_mem _

omit [Inhabited α] [LinearOrder (Key α)] in
/-- A page that `AllocatePage` takes while a page in use is pinned is another one, and nobody had pinned
it. -/
theorem allocatePage_pins {u : BplusTreeHandler α} {p : PageId} (hbitmap : u.pool.bitmap = s.pool.bitmap)
    (hnum : u.pool.pagesNum = s.pool.pagesNum)
    (hpins : ∀ q, q ≠ p → u.pool.pinCount q = s.pool.pinCount q) (hbit : s.pool.bitmap p = true)
    (hlt : p < s.pool.pagesNum) (hfree : ∀ q, s.pool.pagesNum ≤ q → s.pool.pinCount q = 0)
    (hal : u.allocatePage.1 = .success) :
    u.allocatePage.2.1 ≠ p ∧
      u.allocatePage.2.2.pool.pinCount u.allocatePage.2.1 ≠ s.pool.pinCount u.allocatePage.2.1 := by
  rcases hpa : u.pool.allocatePage with ⟨r, q, pool⟩
  have hr : r = .success := by
    simpa only [BplusTreeHandler.allocatePage, hpa] using hal
  simp only [BplusTreeHandler.allocatePage, hpa]
  rcases PagePool.allocatePage_pinCount (hr ▸ hpa) with ⟨hclear, hone⟩ | ⟨hlast, hone⟩
  · have hqp : q ≠ p := by
      rintro rfl
      rw [hbitmap, hbit] at hclear
      cases hclear
    refine ⟨hqp, ?_⟩
    rw [hone, hpins q hqp]
    omega
  · have hq : q = s.pool.pagesNum := hlast.trans hnum
    have hqp : q ≠ p := by
      rintro rfl
      exact absurd hlt (by rw [hq]; exact lt_irrefl _)
    refine ⟨hqp, ?_⟩
    rw [hone, hfree q hq.ge]
    exact Nat.one_ne_zero

/-- Before its first page is allocated, `InsertEntry` fails without a trace or does not fail; when it
fails afterwards, that page stays pinned. -/
theorem insertEntry_outcomes (hwf : WellFormed cmp s t) (hval : Valid S (s.answering []) hdr s.node t) (ha : Agrees cmp S)
    (hb : hdr.bounds.Wide) (hfree : ∀ p, s.pool.pagesNum ≤ p → s.pool.pinCount p = 0)
    (hx : (⟨userKey, rid⟩ : Key α) ∈ S) :
    ((s.insertEntry cmp userKey rid).1 ≠ .success ∧ ¬s.TakesPage cmp ⟨userKey, rid⟩ ∧
      Alike (s.answering []) ((s.insertEntry cmp userKey rid).2.answering [])) ∨
    ((s.insertEntry cmp userKey rid).1 = .success ∧
      ¬s.pool.Failed (s.insertEntry cmp userKey rid).2.pool) ∨
    (s.TakesPage cmp ⟨userKey, rid⟩ ∧ ((s.insertEntry cmp userKey rid).1 ≠ .success →
      (s.insertEntry cmp userKey rid).2.pool.pinCount ≠ s.pool.pinCount)) := by
  have hsound := hwf.sound
  have hkeep : ∀ p ∈ t.pages, s.pool.disposedPages p = false ∧ p < s.pool.pagesNum := fun p hp =>
    have hmem : p ∈ PagePool.headerPage :: firstIndexPage :: t.pages := by simp [hp]
    ⟨(hsound.kept p hmem).2, hsound.lt hmem⟩
  have hchild : ∀ p ∈ t.pages, (s.node p).isLeaf = false →
      (s.node p).valueAt ((s.node p).internalLookUp cmp ⟨userKey, rid⟩).1 ∈ t.pages := fun p hp hinner =>
    hval.lookUp_mem hb ⟨userKey, rid⟩ hp hinner
  have hne : s.isEmpty = false := by simp [isEmpty, hwf.root]
  obtain ⟨c, p, es, s1, -, -, hfind, -⟩ := findLeaf_spec ha hval.keys hx hval.view rfl hval.holds
    hval.sorted hval.sized hb hval.nodup
  simp only [insertEntry, TakesPage, hwf.root, hne, Bool.false_eq_true, if_false]
  rcases findLeafInternal_answering (fun n => n.valueAt (n.internalLookUp cmp ⟨userKey, rid⟩).1) hkeep hchild
      hwf.root t.page_mem_pages s.pool.faults with
    ⟨r, q, f', hr, hf⟩ | ⟨r, q, answers, f', hans, hall, hq, hf, hcalm⟩
  · -- a page on the way down does not load
    rw [show s.findLeaf cmp ⟨userKey, rid⟩ = (r, q, s.answering f') from hf]
    simp only [if_pos hr]
    exact .inl ⟨hr, fun h => hr h.1, ⟨rfl, ⟨rfl, rfl, rfl, rfl, rfl⟩⟩⟩
  · rw [show (s.answering []).findLeafInternal _ = _ from hfind] at hcalm
    cases hcalm
    rw [show s.findLeaf cmp ⟨userKey, rid⟩ = (.success, p, (s.answering f').pinned p) from hf]
    simp only [ne_eq, not_true_eq_false, if_false, true_and]
    generalize hu : (s.answering f').pinned p = u
    have hunpin : u.unpinPage p = s.answering f' := by
      rw [← hu]
      exact unpinPage_pinned (s := s.answering f') (hkeep p hq).1
    have hself : Alike (s.answering []) ((u.unpinPage p).answering []) := by
      rw [hunpin]
      exact ⟨rfl, ⟨rfl, rfl, rfl, rfl, rfl⟩⟩
    rcases hlook : (u.node p).leafLookUp cmp ⟨userKey, rid⟩ with ⟨position, found⟩
    cases found with
    | true =>
      -- the key is there
      left
      simp only [insertEntryIntoLeafNode, hlook, if_true, reduceCtorEq, not_false_eq_true, false_and,
        true_and, not_false_eq_true, Bool.true_eq_false]
      exact hself
    | false =>
      by_cases hsize : (u.node p).size < u.maxSize .leaf
      · -- the leaf has room, and no call follows
        right; left
        simp only [insertEntryIntoLeafNode, hlook, Bool.false_eq_true, if_false, hsize, if_true,
          not_true_eq_false, true_and]
        refine not_failed_of_answers hans hall rfl ?_ ?_
        · rw [BplusTreeHandler.unpinPage, PagePool.faults_unpinPage, ← hu]
          rfl
        · rw [BplusTreeHandler.unpinPage, PagePool.noBuf_unpinPage, ← hu]
          rfl
      · obtain ⟨hnone, hsome⟩ := insertEntryIntoLeafNode_full ⟨userKey, rid⟩ rid
          (show ((u.node p).leafLookUp cmp ⟨userKey, rid⟩).2 = false by rw [hlook]) hsize
        by_cases hal : u.allocatePage.1 = .success
        · right; right
          have hbit : s.pool.bitmap p = true := (hsound.kept p (by simp [hq])).1
          have hpin : ∀ q, q ≠ p → u.pool.pinCount q = s.pool.pinCount q := by
            intro q hqp
            rw [← hu]
            exact Function.update_of_ne hqp _ _
          have hq' := allocatePage_pins (by rw [← hu]; rfl) (by rw [← hu]; rfl) hpin hbit (hkeep p hq).2
            hfree hal
          refine ⟨⟨rfl, hsize, hal⟩, ?_⟩
          intro hr hpins
          rcases hi : insertEntryIntoLeafNode cmp p ⟨userKey, rid⟩ rid u with ⟨r, v⟩
          rw [hi] at hr hpins hsome
          simp only at hr hpins hsome
          by_cases hrs : ¬r = .success
          · rw [if_pos hrs] at hpins
            have hpage := congrFun hpins u.allocatePage.2.1
            rw [show (v.unpinPage p).pool.pinCount = _ from PagePool.pinCount_unpinPage _ _,
              Function.update_of_ne hq'.1, hsome hal hrs] at hpage
            exact hq'.2 hpage
          · rw [if_neg hrs] at hr
            exact hr rfl
        · left
          rw [hnone hal]
          refine ⟨by rw [if_pos hal]; exact hal, fun h => hal h.2.2, ?_⟩
          simp only [if_pos hal]
          have hfail := (allocatePage_failed hal).unpinPage (p := p)
          rw [← unpinPage_answering, ← unpinPage_answering, hunpin] at hfail
          exact hfail

end Outcomes

theorem InsertAtomic.of_error {userKey : α} {rid : RecordId}
    (hr : (s.insertEntry cmp userKey rid).1 ≠ .success)
    (h : Alike (s.answering []) ((s.insertEntry cmp userKey rid).2.answering [])) :
    InsertAtomic cmp userKey rid s :=
  ⟨fun _ => hr, fun _ => h.unchanged, fun h => absurd h hr⟩

theorem InsertAtomic.of_success {userKey : α} {rid : RecordId} (hload : s.pool.faults = [])
    (halloc : (s.insertEntry cmp userKey rid).2.pool.noBuf = false)
    (hr : (s.insertEntry cmp userKey rid).1 = .success)
    (h : (s.insertEntry cmp userKey rid).2.entryAt cmp ⟨userKey, rid⟩ = some rid) :
    InsertAtomic cmp userKey rid s := by
  refine ⟨?_, fun h => absurd hr h, fun _ => h⟩
  rintro (⟨-, hbuf⟩ | ⟨answers, hans, r, hmem, -⟩)
  · exact absurd (halloc.symm.trans hbuf) (by decide)
  · rw [hload] at hans
    rw [(List.append_eq_nil_iff.mp hans.symm).1] at hmem
    cases hmem

omit [Inhabited α] in
theorem WellFormed.answering {m : Nat} {t : IndexTree α m} (h : WellFormed cmp s t) (f : List Re) :
    WellFormed cmp (s.answering f) t :=
  { h with sound := ⟨h.sound.bounded, h.sound.kept, h.sound.waiting⟩ }

/-- `CreateNewTree` fails without a page, and else does not look at the outcome of `UpdateRootPageId`. -/
theorem insertEntry_empty_outcomes (cmp : Key α → Key α → Int) (userKey : α) (rid : RecordId)
    (he : IsEmptyTree s) :
    ((s.insertEntry cmp userKey rid).1 ≠ .success ∧ ¬s.TakesPage cmp ⟨userKey, rid⟩ ∧
      Alike (s.answering []) ((s.insertEntry cmp userKey rid).2.answering [])) ∨
    (s.TakesPage cmp ⟨userKey, rid⟩ ∧ (s.insertEntry cmp userKey rid).1 = .success) := by
  have hempty : s.isEmpty = true := by simp [isEmpty, he.root]
  simp only [insertEntry, TakesPage, createNewTree, he.root, hempty, if_true, Bool.not_true,
    Bool.false_eq_true, if_false]
  by_cases hal : s.allocatePage.1 = .success
  · right
    simp only [hal, ne_eq, not_true_eq_false, if_false, and_self]
  · left
    rw [if_pos hal]
    exact ⟨hal, hal, allocatePage_failed hal⟩

/-- When a load or an allocation fails in an `InsertEntry` on an empty or well-formed index, the
insertion is atomic exactly if no page had been allocated before; when none fails, it is atomic. -/
theorem insertEntry_atomic_iff {α : Type} [Inhabited α] {cmp : Key α → Key α → Int} {S : Set (Key α)}
    (hcmp : StrictTotalOn cmp S) (s : BplusTreeHandler α) (hr : s.fileHeader.Roomy)
    (hwf : IsEmptyTree s ∨ ∃ (m : Nat) (t : IndexTree α m), WellFormed cmp s t ∧ ∀ k ∈ t.keys, k ∈ S)
    (hfree : ∀ p, s.pool.pagesNum ≤ p → s.pool.pinCount p = 0) (userKey : α) (rid : RecordId)
    (hx : (⟨userKey, rid⟩ : Key α) ∈ S) :
    (s.pool.Failed (s.insertEntry cmp userKey rid).2.pool →
      (InsertAtomic cmp userKey rid s ↔ ¬s.TakesPage cmp ⟨userKey, rid⟩)) ∧
    (s.pool.faults = [] → (s.insertEntry cmp userKey rid).2.pool.noBuf = false →
      InsertAtomic cmp userKey rid s) := by
  obtain ⟨order, ha⟩ := exists_linearOrder hcmp
  rcases hwf with he | ⟨m, t, hwf, hkeys⟩
  · constructor
    · intro hfailed
      rcases insertEntry_empty_outcomes cmp userKey rid he with
        ⟨hne, hno, halike⟩ | ⟨htakes, hsucc⟩
      · exact ⟨fun _ => hno, fun _ => .of_error hne halike⟩
      · exact ⟨fun h => absurd hsucc (h.error hfailed), fun h => absurd htakes h⟩
    · intro hload halloc
      have hv : View s [] s.fileHeader none s.node := ⟨hload, he.sound, by simp, rfl, he.stored, rfl⟩
      obtain ⟨hsucc, t, nd, hval, hent⟩ := (insertEntry_empty cmp hr he.root hv hx).resolve_left
        (by simp [halloc])
      refine .of_success hload halloc hsucc (hval.entryAt_eq ha hr.wide hx ?_)
      rw [hent]
      exact List.mem_singleton_self _
  · have hval0 := (hwf.answering []).valid ha hkeys hr.wide rfl
    have hout := insertEntry_outcomes hwf hval0 ha hr.wide hfree hx
    constructor
    · intro hfailed
      rcases hout with ⟨hne, hno, halike⟩ | ⟨-, hnf⟩ | ⟨htakes, hpins⟩
      · exact ⟨fun _ => hno, fun _ => .of_error hne halike⟩
      · exact absurd hfailed hnf
      · refine ⟨fun h => ?_, fun h => absurd htakes h⟩
        have hne := h.error hfailed
        exact absurd (h.unchanged hne).pins (hpins hne)
    · intro hload halloc
      have hval := hwf.valid ha hkeys hr.wide hload
      rcases insertEntry_valid ha hr hval hx with ⟨⟨w, hw⟩, hdup, -⟩ | ⟨-, hins⟩
      · rcases hout with ⟨hne, -, halike⟩ | ⟨hsucc, -⟩ | ⟨htakes, -⟩
        · exact .of_error hne halike
        · rw [hdup] at hsucc
          cases hsucc
        · -- a key of the tree is found, and no page is taken for it
          have hentry := hval.entryAt_eq ha hr.wide hx hw
          have hcalm : s.answering [] = s := by rw [answering, PagePool.answering, ← hload]
          simp only [TakesPage, hwf.root] at htakes
          simp only [entryAt, hcalm] at hentry
          rcases hf : s.findLeaf cmp ⟨userKey, rid⟩ with ⟨r, leaf, u⟩
          rw [hf] at htakes hentry
          obtain ⟨rfl, hnot, -⟩ := htakes
          simp [hnot] at hentry
      · obtain ⟨hsucc, m', t', nd, A, B, hval', -, hent⟩ := hins.resolve_left (by simp [halloc])
        refine .of_success hload halloc hsucc (hval'.entryAt_eq ha hr.wide hx ?_)
        rw [hent]
        simp

/-- An index of one full leaf, in an environment that gives these answers. -/
def fullLeaf (faults : List Re) : BplusTreeHandler Int :=
  (run numberComparator (ascending 4) (emptyIndex 6 4)).answering faults

theorem fullLeaf_wellFormed (faults : List Re) : (fullLeaf faults).fileHeader.Roomy ∧
    (IsEmptyTree (fullLeaf faults) ∨ ∃ (m : Nat) (t : IndexTree Int m),
      WellFormed numberComparator (fullLeaf faults) t ∧ ∀ k ∈ t.keys, k ∈ Set.univ) ∧
    ∀ p, (fullLeaf faults).pool.pagesNum ≤ p → (fullLeaf faults).pool.pinCount p = 0 := by
  have hnew : Reached numberComparator Set.univ 6 4 (emptyIndex 6 4) :=
    .create (show create .ints 6 4 PagePool.newFile = .ok (emptyIndex 6 4) from rfl)
  have hreached := hnew.run (ascending 4) (fun _ _ => trivial) (by decide +kernel)
  have hmain := hreached.maintained numberComparator_strictTotal (by decide) (by decide)
  have htidy := hreached.tidy numberComparator_strictTotal (by decide) (by decide)
  have hroomy := hmain.roomy (by decide) (by decide)
  refine ⟨hroomy, .inr ?_, fun p hp => htidy.pins p ?_⟩
  · rcases hmain.tree with he | ⟨m, t, hwf, hkeys⟩
    · exact absurd he.root (by decide +kernel)
    · exact ⟨m, t, hwf.answering faults, hkeys⟩
  · have hpos : 0 < (run numberComparator (ascending 4) (emptyIndex 6 4)).pool.pagesNum := by
      decide +kernel
    exact Nat.ne_of_gt (lt_of_lt_of_le hpos hp)

/-- Both halves of the split leaf are allocated, and the new root is not: an error, but the upper half
of the entries is lost. -/
theorem not_insert_atomic : ¬∀ s : BplusTreeHandler Int, s.fileHeader.Roomy →
    (IsEmptyTree s ∨ ∃ (m : Nat) (t : IndexTree Int m),
      WellFormed numberComparator s t ∧ ∀ k ∈ t.keys, k ∈ Set.univ) →
    (∀ p, s.pool.pagesNum ≤ p → s.pool.pinCount p = 0) → ∀ (userKey : Int) (rid : RecordId),
      InsertAtomic numberComparator userKey rid s := by
  intro h
  obtain ⟨hr, hwf, hfree⟩ := fullLeaf_wellFormed [.success, .success, .bufferPoolNoBuf]
  have hatomic := h _ hr hwf hfree 4 ⟨1, 0⟩
  have hentry := (hatomic.unchanged (by decide +kernel)).entries ⟨3, ⟨1, 0⟩⟩
  exact absurd hentry (by decide +kernel)

/-- Without a page for the second half nothing has happened. -/
theorem insertEntry_atomic_full :
    InsertAtomic numberComparator 4 ⟨1, 0⟩ (fullLeaf [.success, .bufferPoolNoBuf]) := by
  obtain ⟨hr, hwf, hfree⟩ := fullLeaf_wellFormed [.success, .bufferPoolNoBuf]
  have hiff := (insertEntry_atomic_iff numberComparator_strictTotal _ hr hwf hfree 4 ⟨1, 0⟩ trivial).1
  have hfailed : (fullLeaf [.success, .bufferPoolNoBuf]).pool.Failed
      ((fullLeaf [.success, .bufferPoolNoBuf]).insertEntry numberComparator 4 ⟨1, 0⟩).2.pool :=
    .inr ⟨[.success, .bufferPoolNoBuf], by decide +kernel, .bufferPoolNoBuf, by decide, by decide⟩
  exact (hiff hfailed).mpr fun htakes => absurd htakes.2.2.2 (by decide +kernel)

end BplusTreeHandler

end Idmbs
