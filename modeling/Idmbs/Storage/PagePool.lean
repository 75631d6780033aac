import Idmbs.Common.Re
import Mathlib.Logic.Function.Basic
import Mathlib.Tactic.Common

/-!
# Idmbs.Storage.PagePool

`DiskBufferPool` (storage/buffer_pool.cpp) as its clients see one open file: the pages with the
data last written through the pool, their pin counts and dirty flags, and the allocation state
kept in the file header (bitmap, `pages_num`, `allocated_pages_num`) and in `disposed_pages_`.

Which pages sit in frames at a moment and which only on disk does not show at this level: a page
that is not cached has pin count 0 and is not dirty. `faults` is what the environment answers to
the next `GetPage` and `AllocatePage` calls (no frame free, read error); once the list is used up
every call succeeds. `noBuf` records that some `AllocatePage` found the file full, and `aborted` that the
assertion of `UnpinPage`, which asks for a pin, failed.
-/

namespace Idmbs

structure PagePool (δ : Type) where
  pageData : PageId → δ
  pinCount : PageId → Nat
  dirty : PageId → Bool
  bitmap : PageId → Bool
  pagesNum : Nat
  allocatedPagesNum : Int
  disposedPages : PageId → Bool
  faults : List Re
  noBuf : Bool
  aborted : Bool

namespace PagePool

variable {δ : Type}

def headerPage : PageId := 0

def maxPageNum : Nat := (16380 - 8) * 8

/-- A file as `CreateFile` writes it, just opened: its header is the only page. -/
def newFile [Inhabited δ] : PagePool δ where
  pageData := fun _ => default
  pinCount := fun p => if p = headerPage then 1 else 0
  dirty := fun _ => false
  bitmap := fun p => p == headerPage
  pagesNum := 1
  allocatedPagesNum := 1
  disposedPages := fun _ => false
  faults := []
  noBuf := false
  aborted := false

def setData (s : PagePool δ) (p : PageId) (d : δ) : PagePool δ :=
  { s with pageData := Function.update s.pageData p d }

def dirtyMark (s : PagePool δ) (p : PageId) : PagePool δ :=
  { s with dirty := Function.update s.dirty p true }

def setPin (s : PagePool δ) (p : PageId) (n : Nat) : PagePool δ :=
  { s with pinCount := Function.update s.pinCount p n }

/-- What the environment answers to the next request for a frame or a page. -/
def takeFault (s : PagePool δ) : Re × PagePool δ :=
  match s.faults with
  | [] => (.success, s)
  | r :: rs => (r, { s with faults := rs })

/-- `GetPage`. The bitmap is not consulted: any page the file holds is loaded. -/
def getPage (s : PagePool δ) (p : PageId) : Re × PagePool δ :=
  match s.takeFault with
  | (r, s) =>
    if r ≠ .success then (r, s)
    else if s.pagesNum ≤ p then (.ioErrRead, s)
    else (.success, s.setPin p (s.pinCount p + 1))

/-- The reuse path of `AllocatePage`: the first page below `pages_num` whose bit is clear. -/
def firstFree (s : PagePool δ) : Option PageId :=
  if s.allocatedPagesNum < s.pagesNum then (List.range s.pagesNum).find? fun i => !s.bitmap i
  else none

/-- `AllocatePage`. A reused page keeps its old data; a page that extends the file is zeroed. -/
def allocatePage [Inhabited δ] (s : PagePool δ) : Re × PageId × PagePool δ :=
  match s.firstFree with
  | some i =>
    let s := { s with
      allocatedPagesNum := s.allocatedPagesNum + 1
      bitmap := Function.update s.bitmap i true }
    match (s.dirtyMark headerPage).getPage i with
    | (r, s) => (r, i, s)
  | none =>
    if maxPageNum ≤ s.pagesNum then (.bufferPoolNoBuf, 0, { s with noBuf := true })
    else
      let p := s.pagesNum
      match s.takeFault with
      | (r, s) =>
        if r ≠ .success then (r, 0, s)
        else
          let s := { s with
            allocatedPagesNum := s.allocatedPagesNum + 1
            pagesNum := s.pagesNum + 1
            bitmap := Function.update s.bitmap p true
            dirty := Function.update (Function.update s.dirty headerPage true) p false }
          (.success, p, (s.setPin p 1).setData p default)

/-- `DisposePage`: a pinned page is only remembered in `disposed_pages_`. -/
def disposePage (s : PagePool δ) (p : PageId) : Re × PagePool δ :=
  if 0 < s.pinCount p then
    (.lockedUnlock, { s with disposedPages := Function.update s.disposedPages p true })
  else
    (.success, { s with
      dirty := Function.update (Function.update s.dirty p false) headerPage true
      allocatedPagesNum := s.allocatedPagesNum - 1
      bitmap := Function.update s.bitmap p false })

/-- A pin less; there has to be one. -/
def released (s : PagePool δ) (p : PageId) : PagePool δ :=
  { s.setPin p (s.pinCount p - 1) with aborted := s.aborted || decide (s.pinCount p = 0) }

/-- `UnpinPage`: releasing the last pin of a page that waits for disposal disposes it. -/
def unpinPage (s : PagePool δ) (p : PageId) : PagePool δ :=
  let s := s.released p
  if s.pinCount p = 0 ∧ s.disposedPages p = true then
    let s := (s.disposePage p).2
    { s with disposedPages := Function.update s.disposedPages p false }
  else s

/-- `GetPage` when it succeeds. -/
def pinned (s : PagePool δ) (p : PageId) : PagePool δ := s.setPin p (s.pinCount p + 1)

/-! ## Page contents -/

section Contents

variable (s : PagePool δ) (p : PageId)

@[simp] theorem pageData_dirtyMark : (s.dirtyMark p).pageData = s.pageData := rfl

@[simp] theorem pageData_setPin (n : Nat) : (s.setPin p n).pageData = s.pageData := rfl

@[simp] theorem pageData_pinned : (s.pinned p).pageData = s.pageData := rfl

@[simp] theorem bitmap_setPin (n : Nat) : (s.setPin p n).bitmap = s.bitmap := rfl

@[simp] theorem disposedPages_setPin (n : Nat) : (s.setPin p n).disposedPages = s.disposedPages := rfl

@[simp] theorem pageData_released : (s.released p).pageData = s.pageData := rfl

@[simp] theorem pinCount_released :
    (s.released p).pinCount = Function.update s.pinCount p (s.pinCount p - 1) := rfl

@[simp] theorem dirty_released : (s.released p).dirty = s.dirty := rfl

@[simp] theorem bitmap_released : (s.released p).bitmap = s.bitmap := rfl

@[simp] theorem disposedPages_released : (s.released p).disposedPages = s.disposedPages := rfl

/-- The pin that is given back was there. -/
theorem released_of_pinned (h : 0 < s.pinCount p) : s.released p = s.setPin p (s.pinCount p - 1) := by
  simp [released, setPin, Nat.ne_of_gt h]

@[simp] theorem bitmap_setData (d : δ) : (s.setData p d).bitmap = s.bitmap := rfl

@[simp] theorem disposedPages_setData (d : δ) : (s.setData p d).disposedPages = s.disposedPages := rfl

@[simp] theorem pageData_disposePage : (s.disposePage p).2.pageData = s.pageData := by
  unfold disposePage; split <;> rfl

@[simp] theorem faults_disposePage : (s.disposePage p).2.faults = s.faults := by
  unfold disposePage; split <;> rfl

@[simp] theorem noBuf_disposePage : (s.disposePage p).2.noBuf = s.noBuf := by
  unfold disposePage; split <;> rfl

@[simp] theorem noBuf_unpinPage : (s.unpinPage p).noBuf = s.noBuf := by
  unfold unpinPage; simp only; split
  · simp [released, setPin]
  · rfl

@[simp] theorem faults_unpinPage : (s.unpinPage p).faults = s.faults := by
  unfold unpinPage; simp only; split
  · simp [released, setPin]
  · rfl

@[simp] theorem pageData_unpinPage : (s.unpinPage p).pageData = s.pageData := by
  unfold unpinPage; simp only; split <;> simp

theorem pinCount_unpinPage :
    (s.unpinPage p).pinCount = Function.update s.pinCount p (s.pinCount p - 1) := by
  unfold unpinPage
  simp only
  by_cases hc : (s.released p).pinCount p = 0 ∧ (s.released p).disposedPages p = true
  · rw [if_pos hc, disposePage, if_neg (Nat.not_lt.mpr (Nat.le_of_eq hc.1))]
    rfl
  · rw [if_neg hc]
    rfl

@[simp] theorem pinCount_disposePage : (s.disposePage p).2.pinCount = s.pinCount := by
  unfold disposePage; split <;> rfl

@[simp] theorem pagesNum_disposePage : (s.disposePage p).2.pagesNum = s.pagesNum := by
  unfold disposePage; split <;> rfl

end Contents

/-! ## Allocation -/

/-- The pages in `keep` are allocated and none of them waits for its disposal; pages that do are
still allocated, and every allocated page lies in the file. -/
structure Sound (s : PagePool δ) (keep : List PageId) : Prop where
  bounded : ∀ p, s.bitmap p = true → p < s.pagesNum
  kept : ∀ p ∈ keep, s.bitmap p = true ∧ s.disposedPages p = false
  waiting : ∀ p, s.disposedPages p = true → s.bitmap p = true

section Sound

variable {s : PagePool δ} {keep keep' : List PageId} {p : PageId}

theorem Sound.mono (h : s.Sound keep) (hsub : keep' ⊆ keep) : s.Sound keep' :=
  ⟨h.bounded, fun p hp => h.kept p (hsub hp), h.waiting⟩

theorem Sound.lt (h : s.Sound keep) (hp : p ∈ keep) : p < s.pagesNum :=
  h.bounded p (h.kept p hp).1

theorem Sound.setData (h : s.Sound keep) (d : δ) : (s.setData p d).Sound keep :=
  ⟨h.bounded, h.kept, h.waiting⟩

theorem Sound.dirtyMark (h : s.Sound keep) : (s.dirtyMark p).Sound keep :=
  ⟨h.bounded, h.kept, h.waiting⟩

theorem Sound.setPin (h : s.Sound keep) (n : Nat) : (s.setPin p n).Sound keep :=
  ⟨h.bounded, h.kept, h.waiting⟩

theorem Sound.pinned (h : s.Sound keep) : (s.pinned p).Sound keep := h.setPin _

/-- What is disposed, at once or later, is no longer kept. -/
theorem Sound.disposePage (h : s.Sound keep) (hp : p ∈ keep) (hsub : keep' ⊆ keep)
    (hn : p ∉ keep') : (s.disposePage p).2.Sound keep' := by
  have hk := (h.mono hsub).kept
  have hne : ∀ q ∈ keep', q ≠ p := fun q hq e => hn (e ▸ hq)
  unfold PagePool.disposePage
  split
  · refine ⟨h.bounded, fun q hq => ?_, fun q hq => ?_⟩
    · simpa [Function.update_of_ne (hne q hq)] using hk q hq
    · by_cases e : q = p
      · exact e ▸ (h.kept p hp).1
      · exact h.waiting q (by simpa [Function.update_of_ne e] using hq)
  · refine ⟨fun q hq => ?_, fun q hq => ?_, fun q hq => ?_⟩
    · by_cases e : q = p
      · simp [e] at hq
      · exact h.bounded q (by simpa [Function.update_of_ne e] using hq)
    · simpa [Function.update_of_ne (hne q hq)] using hk q hq
    · have e : q ≠ p := fun e => by simp [e, (h.kept p hp).2] at hq
      simpa [Function.update_of_ne e] using h.waiting q hq

theorem Sound.released (h : s.Sound keep) : (s.released p).Sound keep := ⟨h.bounded, h.kept, h.waiting⟩

/-- Only a page that waits for its disposal can lose its bit here. -/
theorem Sound.unpinPage (h : s.Sound keep) : (s.unpinPage p).Sound keep := by
  unfold PagePool.unpinPage
  simp only
  split
  · rename_i hc
    have hw : s.disposedPages p = true := hc.2
    have hne : ∀ q ∈ keep, q ≠ p := fun q hq e => by
      have := (h.kept q hq).2
      rw [e, hw] at this
      cases this
    unfold PagePool.disposePage
    rw [if_neg (by omega)]
    refine ⟨fun q hq => ?_, fun q hq => ?_, fun q hq => ?_⟩
    · by_cases e : q = p
      · simp [e] at hq
      · exact h.bounded q (by simpa [Function.update_of_ne e] using hq)
    · simpa [Function.update_of_ne (hne q hq)] using h.kept q hq
    · by_cases e : q = p
      · simp [e] at hq
      · simpa [Function.update_of_ne e] using
          h.waiting q (by simpa [Function.update_of_ne e] using hq)
  · exact h.released

theorem getPage_eq (hf : s.faults = []) (h : s.Sound keep) (hp : p ∈ keep) :
    s.getPage p = (.success, s.pinned p) := by
  have := h.lt hp
  simp [getPage, takeFault, hf, PagePool.pinned, Nat.not_le.mpr this]

theorem firstFree_spec {i : PageId} (hi : s.firstFree = some i) :
    i < s.pagesNum ∧ s.bitmap i = false := by
  unfold firstFree at hi
  split at hi
  · exact ⟨List.mem_range.mp (List.mem_of_find?_eq_some hi), by simpa using List.find?_some hi⟩
  · cases hi

/-- `AllocatePage` with frames available: the file is full, or a page comes back that was not
allocated before; no other page changes. -/
theorem allocatePage_spec [Inhabited δ] (hf : s.faults = []) (h : s.Sound keep) :
    (s.allocatePage.1 ≠ .success ∧ s.allocatePage.2.2.noBuf = true) ∨
    (s.allocatePage.1 = .success ∧ s.allocatePage.2.1 ∉ keep ∧
      s.allocatePage.2.2.faults = [] ∧ s.allocatePage.2.2.Sound (s.allocatePage.2.1 :: keep) ∧
      ∃ d, s.allocatePage.2.2.pageData = Function.update s.pageData s.allocatePage.2.1 d) := by
  unfold allocatePage
  cases hfree : s.firstFree with
  | some i =>
    obtain ⟨hlt, hbit⟩ := firstFree_spec hfree
    have hnk : i ∉ keep := fun hi => by simp [(h.kept i hi).1] at hbit
    have hnw : s.disposedPages i = false := by
      by_contra hc
      have := h.waiting i (by simpa using hc)
      simp [this] at hbit
    right
    simp only [getPage, takeFault, PagePool.dirtyMark, hf, ne_eq, not_true_eq_false, if_false,
      Nat.not_le.mpr hlt]
    refine ⟨trivial, hnk, rfl, ⟨fun q hq => ?_, fun q hq => ?_, fun q hq => ?_⟩, s.pageData i,
      (Function.update_eq_self i s.pageData).symm⟩
    · by_cases e : q = i
      · exact e ▸ hlt
      · exact h.bounded q (by simpa [Function.update_of_ne e] using hq)
    · rcases List.mem_cons.mp hq with rfl | hq
      · exact ⟨by simp, hnw⟩
      · have e : q ≠ i := fun e => hnk (e ▸ hq)
        simpa [Function.update_of_ne e] using h.kept q hq
    · by_cases e : q = i
      · simp [e]
      · simpa [Function.update_of_ne e] using h.waiting q hq
  | none =>
    simp only
    split
    · exact .inl ⟨by simp, rfl⟩
    · right
      have hnb : s.bitmap s.pagesNum = false := by
        by_contra hc
        exact absurd (h.bounded _ (by simpa using hc)) (Nat.lt_irrefl _)
      have hnk : s.pagesNum ∉ keep := fun hi => by simp [(h.kept _ hi).1] at hnb
      have hnw : s.disposedPages s.pagesNum = false := by
        by_contra hc
        have := h.waiting _ (by simpa using hc)
        simp [this] at hnb
      simp only [takeFault, hf, ne_eq, not_true_eq_false, if_false]
      refine ⟨trivial, hnk, rfl, ⟨fun q hq => ?_, fun q hq => ?_, fun q hq => ?_⟩, default, rfl⟩
      · show q < s.pagesNum + 1
        by_cases e : q = s.pagesNum
        · exact e ▸ Nat.lt_succ_self _
        · exact Nat.lt_succ_of_lt (h.bounded q (by simpa [Function.update_of_ne e] using hq))
      · rcases List.mem_cons.mp hq with rfl | hq
        · exact ⟨by simp, hnw⟩
        · have e : q ≠ s.pagesNum := fun e => hnk (e ▸ hq)
          simpa [Function.update_of_ne e] using h.kept q hq
      · by_cases e : q = s.pagesNum
        · simp [e]
        · simpa [Function.update_of_ne e] using h.waiting q hq

end Sound

end PagePool

end Idmbs
