import Idmbs.Storage.BufferLru
import Mathlib.Data.List.Find

/-!
# Idmbs.Storage.PoolRefines

The pool as the clients of one file see it (`PagePool`) is simulated by the pool with its frames, which all files
share: whatever is thrown out and whatever the clients of the other files do, there are answers of the environment
with which `PagePool` answers the same calls in the same way.
-/

namespace Idmbs

variable {δ : Type}

/-! ## The calls on one file -/

inductive PoolCall (δ : Type) where
  | getPage (p : PageId)
  | allocatePage
  | unpinPage (p : PageId)
  | disposePage (p : PageId)
  /-- the data of a page is changed, and its frame marked -/
  | writePage (p : PageId) (d : δ)

/-- A code, and the page that a call gives. -/
abbrev PoolAnswer := Re × Option PageId

/-- The page is given if the call succeeds. -/
def PoolAnswer.of (r : Re) (p : PageId) : PoolAnswer := (r, if r = .success then some p else none)

/-- What is written to the header page is read there again. -/
structure HeaderView.Faithful (H : HeaderView δ) : Prop where
  allocatedPagesNum : ∀ h d, (H.fileHeader (H.setFileHeader h d)).allocatedPagesNum = h.allocatedPagesNum
  bitmap : ∀ h d, ∀ q < PagePool.maxPageNum, (H.fileHeader (H.setFileHeader h d)).bitmap q = h.bitmap q

/-- A page that is the header and nothing else. -/
example : GlobalBufferPoolManager.Session.headerOnly.Faithful := ⟨fun _ _ => rfl, fun _ _ _ _ => rfl⟩

namespace PagePool

/-- The environment answers `faults` to the next requests. -/
def facing (s : PagePool δ) (faults : List Re) : PagePool δ := { s with faults := faults }

variable [Inhabited δ]

/-- A page is added to the file. -/
def extended (s : PagePool δ) : PagePool δ :=
  ({ s with
    allocatedPagesNum := s.allocatedPagesNum + 1
    pagesNum := s.pagesNum + 1
    bitmap := Function.update s.bitmap s.pagesNum true
    dirty := Function.update (Function.update s.dirty headerPage true) s.pagesNum false }.setPin
      s.pagesNum 1).setData s.pagesNum default

theorem allocatePage_full {s : PagePool δ} (hfree : s.firstFree = none) (hfull : maxPageNum ≤ s.pagesNum)
    (fs : List Re) :
    (s.facing fs).allocatePage = (.bufferPoolNoBuf, 0, ({ s with noBuf := true } : PagePool δ).facing fs) := by
  have hfirst : (s.facing fs).firstFree = none := hfree
  have hlimit : maxPageNum ≤ (s.facing fs).pagesNum := hfull
  unfold allocatePage
  rw [hfirst]
  simp only [if_pos hlimit]
  rfl

theorem allocatePage_extends {s : PagePool δ} (hfree : s.firstFree = none) (hroom : ¬maxPageNum ≤ s.pagesNum)
    (r : Re) (rest : List Re) : (s.facing (r :: rest)).allocatePage =
      if r = .success then (.success, s.pagesNum, s.extended.facing rest) else (r, 0, s.facing rest) := by
  have hfirst : (s.facing (r :: rest)).firstFree = none := hfree
  have hlimit : ¬maxPageNum ≤ (s.facing (r :: rest)).pagesNum := hroom
  have htake : (s.facing (r :: rest)).takeFault = (r, s.facing rest) := rfl
  unfold allocatePage
  rw [hfirst]
  simp only [if_neg hlimit, htake]
  by_cases hr : r = .success
  · simp only [hr, ne_eq, not_true_eq_false, if_false, if_true]
    rfl
  · simp only [hr, ne_eq, not_false_eq_true, if_true, if_false]

omit [Inhabited δ] in
theorem facing_disposePage (s : PagePool δ) (q : PageId) (fs : List Re) :
    (s.facing fs).disposePage q = ((s.disposePage q).1, (s.disposePage q).2.facing fs) := by
  have hcount : (s.facing fs).pinCount q = s.pinCount q := rfl
  unfold disposePage
  rw [hcount]
  split
  · rfl
  · rfl

omit [Inhabited δ] in
theorem facing_unpinPage (s : PagePool δ) (q : PageId) (fs : List Re) :
    (s.facing fs).unpinPage q = (s.unpinPage q).facing fs := by
  have hreleased : (s.facing fs).released q = (s.released q).facing fs := rfl
  have hcount : ((s.released q).facing fs).pinCount q = (s.released q).pinCount q := rfl
  have hdisposed : ((s.released q).facing fs).disposedPages q = (s.released q).disposedPages q := rfl
  unfold unpinPage
  simp only [hreleased, hcount, hdisposed, facing_disposePage]
  split
  · rfl
  · rfl

def call (s : PagePool δ) : PoolCall δ → PoolAnswer × PagePool δ
  | .getPage p =>
    match s.getPage p with
    | (r, s) => (.of r p, s)
  | .allocatePage =>
    match s.allocatePage with
    | (r, p, s) => (.of r p, s)
  | .unpinPage p => ((.success, none), s.unpinPage p)
  | .disposePage p =>
    match s.disposePage p with
    | (r, s) => ((r, none), s)
  | .writePage p d => ((.success, none), (s.setData p d).dirtyMark p)

def calls : PagePool δ → List (PoolCall δ) → List PoolAnswer × PagePool δ
  | s, [] => ([], s)
  | s, c :: cs =>
    match s.call c with
    | (a, s) =>
      match s.calls cs with
      | (as, s) => (a :: as, s)

end PagePool

namespace GlobalBufferPoolManager

/-! ## Pins -/

/-- `count` is how often the pages of a file are pinned: by the clients, and its header by `OpenFile`. -/
structure PinsShown (fd : Nat) (pins : Pins) (count : PageId → Nat) : Prop where
  held : ∀ q x, 0 < pins (⟨fd, q⟩, x) → count q = pins (⟨fd, q⟩, x) + headerPin ⟨fd, q⟩
  idle : ∀ q, (∀ x, pins (⟨fd, q⟩, x) = 0) → count q = headerPin ⟨fd, q⟩

namespace PinsShown

variable {fd x k : Nat} {q : PageId} {i : FrameId} {pins : Pins} {count : PageId → Nat}

/-- A page is in one frame at most. -/
theorem count_eq (h : PinsShown fd pins count) (hx : ∀ y, y ≠ x → pins (⟨fd, q⟩, y) = 0) :
    count q = pins (⟨fd, q⟩, x) + headerPin ⟨fd, q⟩ := by
  rcases Nat.eq_zero_or_pos (pins (⟨fd, q⟩, x)) with hzero | hpos
  · rw [hzero, Nat.zero_add]
    refine h.idle q fun y => ?_
    by_cases hy : y = x
    · rw [hy, hzero]
    · exact hx y hy
  · exact h.held q x hpos

theorem update (h : PinsShown fd pins count) (hx : ∀ y, y ≠ x → pins (⟨fd, q⟩, y) = 0) (k : Nat) :
    PinsShown fd (Function.update pins (⟨fd, q⟩, x) k) (Function.update count q (k + headerPin ⟨fd, q⟩)) := by
  constructor
  · intro p y hpos
    by_cases hp : p = q
    · subst hp
      by_cases hy : y = x
      · rw [hy, Function.update_self, Function.update_self]
      · rw [Function.update_of_ne (by simp [hy]), hx y hy] at hpos
        exact absurd hpos (Nat.lt_irrefl 0)
    · rw [Function.update_of_ne (by simp [hp])] at hpos
      rw [Function.update_of_ne hp, Function.update_of_ne (by simp [hp])]
      exact h.held p y hpos
  · intro p hzero
    by_cases hp : p = q
    · subst hp
      have hk := hzero x
      rw [Function.update_self] at hk
      rw [Function.update_self, hk, Nat.zero_add]
    · rw [Function.update_of_ne hp]
      refine h.idle p fun y => ?_
      have hy := hzero y
      rwa [Function.update_of_ne (by simp [hp])] at hy

theorem other (h : PinsShown fd pins count) (hne : i.fileDesc ≠ fd) (k : Nat) :
    PinsShown fd (Function.update pins (i, x) k) count := by
  have hsame : ∀ q y, Function.update pins (i, x) k (⟨fd, q⟩, y) = pins (⟨fd, q⟩, y) := by
    intro q y
    refine Function.update_of_ne (fun he => hne ?_) ..
    rw [← (Prod.mk.inj he).1]
  constructor
  · intro q y hpos
    rw [hsame] at hpos ⊢
    exact h.held q y hpos
  · intro q hzero
    exact h.idle q fun y => by rw [← hsame q y, hzero y]

end PinsShown

theorem Sound.pins_eq_zero {H : HeaderView δ} {s : GlobalBufferPoolManager δ} {pins : Pins} {stale : FrameId → Bool}
    {i : FrameId} {x y : Nat} (h : Sound H s pins stale) (hx : s.frameLruCache.lookup i = some x) (hne : y ≠ x) :
    pins (i, y) = 0 := by
  by_contra hpos
  have hy := (h.held (Nat.pos_of_ne_zero hpos)).1
  rw [hx] at hy
  exact hne (Option.some.inj hy).symm

/-! ## The pool of all files -/

/-- The pool, the pins its clients hold, and `disposed_pages_` of every file. -/
structure Shared (δ : Type) where
  pool : GlobalBufferPoolManager δ
  pins : Pins
  disposedPages : FrameId → Bool

/-- What a client has called, and the answer. -/
structure Event (δ : Type) where
  fileDesc : Nat
  call : PoolCall δ
  answer : PoolAnswer

namespace Shared

variable [Inhabited δ] (H : HeaderView δ)

def disposePage (S : Shared δ) (i : FrameId) : Re × Shared δ :=
  match S.pool.disposePage H i.fileDesc i.pageId with
  | (r, t) =>
    (r, { S with
      pool := t
      disposedPages := if r = .success then S.disposedPages else Function.update S.disposedPages i true })

/-- `UnpinPage` of frame `x`, which has the page `i`. -/
def unpinPage (S : Shared δ) (i : FrameId) (x : Nat) : Shared δ :=
  let S := { S with
    pool := S.pool.unpinPage x
    pins := Function.update S.pins (i, x) (S.pins (i, x) - 1) }
  if (S.pool.frame x).pinCount = 0 ∧ S.disposedPages i = true then
    let S := (S.disposePage H i).2
    { S with disposedPages := Function.update S.disposedPages i false }
  else S

/-- A call of a client of any file. It uses frames that it has pinned, and leaves the header page to the pool. -/
inductive Step : Shared δ → Event δ → Shared δ → Prop
  | getPage {S : Shared δ} {t : GlobalBufferPoolManager δ} {i : FrameId} {victims : List FrameId} {r : Re} {x : Nat}
      (hopen : S.pool.fdBufferPools i.fileDesc = true)
      (hrun : S.pool.getPage i.fileDesc i.pageId victims = (r, x, t)) :
      Step S ⟨i.fileDesc, .getPage i.pageId, .of r i.pageId⟩
        { S with pool := t, pins := Session.pinned S.pins r i x }
  | allocatePage {S : Shared δ} {t : GlobalBufferPoolManager δ} {fd : Nat} {victims : List FrameId} {r : Re}
      {x : Nat} (hopen : S.pool.fdBufferPools fd = true)
      (hrun : S.pool.allocatePage H fd victims = (r, x, t)) :
      Step S ⟨fd, .allocatePage, .of r (t.frame x).page.pageId⟩
        { S with pool := t, pins := Session.pinned S.pins r ⟨fd, (t.frame x).page.pageId⟩ x }
  | unpinPage {S : Shared δ} {i : FrameId} {x : Nat} (hpin : 0 < S.pins (i, x)) :
      Step S ⟨i.fileDesc, .unpinPage i.pageId, (.success, none)⟩ (S.unpinPage H i x)
  | disposePage {S : Shared δ} {i : FrameId} (hopen : S.pool.fdBufferPools i.fileDesc = true) :
      Step S ⟨i.fileDesc, .disposePage i.pageId, ((S.disposePage H i).1, none)⟩ (S.disposePage H i).2
  | writePage {S : Shared δ} {i : FrameId} {x : Nat} {d : δ} (hpin : 0 < S.pins (i, x))
      (hdata : i.pageId ≠ PagePool.headerPage) :
      Step S ⟨i.fileDesc, .writePage i.pageId d, (.success, none)⟩ { S with pool := S.pool.writePage x d }

inductive Run : Shared δ → List (Event δ) → Shared δ → Prop
  | nil (S : Shared δ) : Run S [] S
  | cons {S S' T : Shared δ} {e : Event δ} {es : List (Event δ)} (hstep : Step H S e S') (hrest : Run S' es T) :
      Run S (e :: es) T

end Shared

/-! ## The view of one file -/

variable {H : HeaderView δ}

/-- The header page of a file that is seen as `p`. -/
structure HeaderShown (h : BufferPoolFileHeader) (p : PagePool δ) : Prop where
  pagesNum : h.pagesNum = p.pagesNum
  allocatedPagesNum : h.allocatedPagesNum = p.allocatedPagesNum
  bitmap : ∀ q < PagePool.maxPageNum, h.bitmap q = p.bitmap q

/-- File `fd` is seen as `p`. -/
structure Shows (H : HeaderView δ) (fd : Nat) (S : Shared δ) (p : PagePool δ) : Prop where
  sound : Sound H S.pool S.pins Session.noneStale
  opened : S.pool.fdBufferPools fd = true
  header : ∃ d, S.pool.content Session.noneStale ⟨fd, PagePool.headerPage⟩ = some d ∧ HeaderShown (H.fileHeader d) p
  pages : ∀ q, q ≠ PagePool.headerPage →
    S.pool.content Session.noneStale ⟨fd, q⟩ = if q < p.pagesNum then some (p.pageData q) else none
  pins : PinsShown fd S.pins p.pinCount
  waiting : ∀ q, p.disposedPages q = S.disposedPages ⟨fd, q⟩
  bounded : 0 < p.pagesNum ∧ p.pagesNum ≤ PagePool.maxPageNum

variable {fd : Nat} {S S' : Shared δ} {p p' : PagePool δ} {q : PageId}

/-- The search for a page to be used again looks at the pages of the file only. -/
theorem HeaderShown.firstFree {h : BufferPoolFileHeader} (hh : HeaderShown h p)
    (hbound : p.pagesNum ≤ PagePool.maxPageNum) : GlobalBufferPoolManager.firstFree h = p.firstFree := by
  unfold GlobalBufferPoolManager.firstFree PagePool.firstFree
  rw [hh.pagesNum, hh.allocatedPagesNum]
  split
  · refine List.find?_congr fun q hq => ?_
    have hlt := List.mem_range.mp hq
    rw [hh.bitmap q (by omega)]
  · rfl

theorem fdBufferPools_disposePage [Inhabited δ] {s t : GlobalBufferPoolManager δ} {pins : Pins} {r : Re}
    (h : Sound H s pins Session.noneStale) (hrun : s.disposePage H fd q = (r, t)) :
    t.fdBufferPools = s.fdBufferPools := by
  unfold GlobalBufferPoolManager.disposePage at hrun
  obtain ⟨r1, u, hpurge⟩ : ∃ r1 u, s.purgePage fd q = (r1, u) := ⟨_, _, rfl⟩
  rw [← (purgePage_evicted h hpurge).opened]
  simp only [hpurge] at hrun
  split at hrun
  · cases hrun
    rfl
  · cases hrun
    rfl

namespace Shows

theorem fileHeader (h : Shows H fd S p) : HeaderShown (S.pool.fileHeader H fd) p := by
  obtain ⟨d, hd, hshown⟩ := h.header
  rw [Sound.content_cached (h.sound.header h.opened).1 rfl] at hd
  rw [GlobalBufferPoolManager.fileHeader, Option.some.inj hd]
  exact hshown

/-- A page of the view is a page that the file has. -/
theorem lt_of_content {d : δ} (h : Shows H fd S p)
    (hq : S.pool.content Session.noneStale ⟨fd, q⟩ = some d) : q < p.pagesNum := by
  by_cases hne : q = PagePool.headerPage
  · rw [hne]
    exact h.bounded.1
  · rw [h.pages q hne] at hq
    by_contra hge
    rw [if_neg hge] at hq
    cases hq

theorem lt_of_cached {x : Nat} (h : Shows H fd S p) (hx : S.pool.frameLruCache.lookup ⟨fd, q⟩ = some x) :
    q < p.pagesNum :=
  h.lt_of_content (Sound.content_cached hx rfl)

/-- How often a cached page is pinned shows at its frame. -/
theorem pinCount_cached {x : Nat} (h : Shows H fd S p) (hx : S.pool.frameLruCache.lookup ⟨fd, q⟩ = some x) :
    p.pinCount q = (S.pool.frame x).pinCount := by
  rw [h.sound.counted hx rfl]
  exact h.pins.count_eq fun y hy => h.sound.pins_eq_zero hx hy

theorem pinCount_absent (h : Shows H fd S p) (hx : S.pool.frameLruCache.lookup ⟨fd, q⟩ = none) :
    p.pinCount q = 0 := by
  have hne : q ≠ PagePool.headerPage := by
    rintro rfl
    rw [(h.sound.header h.opened).1] at hx
    cases hx
  rw [h.pins.idle q fun y => ?_, headerPin, if_neg hne]
  by_contra hpos
  rw [(h.sound.held (Nat.pos_of_ne_zero hpos)).1] at hx
  cases hx

/-- The pages and the header of the file are as before. -/
theorem frame (h : Shows H fd S p) (hsound : Sound H S'.pool S'.pins Session.noneStale)
    (hopen : S'.pool.fdBufferPools fd = true)
    (hcontent : ∀ q, S'.pool.content Session.noneStale ⟨fd, q⟩ = S.pool.content Session.noneStale ⟨fd, q⟩)
    (hpins : PinsShown fd S'.pins p'.pinCount) (hwaiting : ∀ q, p'.disposedPages q = S'.disposedPages ⟨fd, q⟩)
    (hsame : p'.pageData = p.pageData ∧ p'.bitmap = p.bitmap ∧ p'.pagesNum = p.pagesNum ∧
      p'.allocatedPagesNum = p.allocatedPagesNum) : Shows H fd S' p' := by
  obtain ⟨hdata, hbitmap, hnum, halloc⟩ := hsame
  refine ⟨hsound, hopen, ?_, fun q hq => ?_, hpins, hwaiting, ?_⟩
  · obtain ⟨d, hd, hshown⟩ := h.header
    refine ⟨d, (hcontent _).trans hd, hshown.pagesNum.trans hnum.symm, hshown.allocatedPagesNum.trans halloc.symm,
      fun q hq => ?_⟩
    rw [hbitmap]
    exact hshown.bitmap q hq
  · rw [hcontent, h.pages q hq, hnum, hdata]
  · rw [hnum]
    exact h.bounded

theorem evicted {t : GlobalBufferPoolManager δ} (h : Shows H fd S p)
    (ht : Evicted H S.pool S.pins Session.noneStale t) : Shows H fd { S with pool := t } p :=
  h.frame ht.sound (by rw [ht.opened]; exact h.opened) (fun q => congrFun ht.content _) h.pins h.waiting
    ⟨rfl, rfl, rfl, rfl⟩

theorem setFileHeader {g : BufferPoolFileHeader} (h : Shows H fd S p) (hH : H.Faithful) (hg : HeaderShown g p')
    (hnum : p'.pagesNum = p.pagesNum) (hpages : p'.pageData = p.pageData) (hpins : p'.pinCount = p.pinCount)
    (hwaiting : p'.disposedPages = p.disposedPages) :
    Shows H fd { S with pool := S.pool.setFileHeader H fd g } p' := by
  have hfits : g.pagesNum ≤ (S.pool.files fd).size := by
    rw [hg.pagesNum, hnum, ← h.fileHeader.pagesNum]
    exact h.sound.pages h.opened
  obtain ⟨hsound, hcontent⟩ := setFileHeader_spec h.sound h.opened hfits
  have hdata : ((S.pool.setFileHeader H fd g).frame ((S.pool.setFileHeader H fd g).headerFrame fd)).page.pageData =
      H.setFileHeader g (S.pool.frame (S.pool.headerFrame fd)).page.pageData := by
    simp only [GlobalBufferPoolManager.setFileHeader, writePage, setFrame, Function.update_self]
  refine ⟨hsound, h.opened, ⟨H.setFileHeader g (S.pool.frame (S.pool.headerFrame fd)).page.pageData, ?_, ?_⟩,
    fun q hq => ?_, ?_, fun q => ?_, ?_⟩
  · simp only [hcontent, withHeader, Function.update_self, hdata]
  · refine ⟨?_, ?_, fun q hq => ?_⟩
    · rw [H.pagesNum_set]
      exact hg.pagesNum
    · rw [hH.allocatedPagesNum]
      exact hg.allocatedPagesNum
    · rw [hH.bitmap g _ q hq]
      exact hg.bitmap q hq
  · have hne : (⟨fd, q⟩ : FrameId) ≠ ⟨fd, PagePool.headerPage⟩ := by simp [hq]
    simp only [hcontent, withHeader, Function.update_of_ne hne]
    rw [hnum, hpages]
    exact h.pages q hq
  · rw [hpins]
    exact h.pins
  · rw [hwaiting]
    exact h.waiting q
  · rw [hnum]
    exact h.bounded

/-- A file that has just been created is opened. -/
theorem openFile [Inhabited δ] {s t : GlobalBufferPoolManager δ} {pins : Pins} {victims : List FrameId}
    {waiting : FrameId → Bool} (hH : H.Faithful) (hs : Sound H s pins Session.noneStale)
    (hclosed : s.fdBufferPools fd = false) (hfile : s.files fd = PageFile.create H)
    (hrun : s.openFile fd victims = (.success, t)) (hwaiting : ∀ q, waiting ⟨fd, q⟩ = false) :
    Shows H fd ⟨t, pins, waiting⟩ PagePool.newFile := by
  have hformed : (s.files fd).WellFormed H := by
    rw [hfile]
    exact PageFile.create_wellFormed H
  have hidle : ∀ q x, ¬0 < pins (⟨fd, q⟩, x) := by
    intro q x hpos
    have hopen := hs.opened (hs.held hpos).1 rfl
    rw [hclosed] at hopen
    cases hopen
  rcases openFile_spec hs hclosed hformed hrun with ⟨-, hpool, hsound, hcontent⟩ | ⟨hne, -⟩
  · rw [Session.update_noneStale] at hsound hcontent
    have hbytes (q : PageId) : t.content Session.noneStale ⟨fd, q⟩ = s.fileBytes ⟨fd, q⟩ := by
      rw [hcontent]
      exact hs.content_closed hclosed
    refine ⟨hsound, ?_, ⟨((PageFile.create H).page PagePool.headerPage).pageData, ?_, ?_⟩, fun q hq => ?_,
      ⟨fun q x hpos => absurd hpos (hidle q x), fun q _ => rfl⟩, fun q => (hwaiting q).symm,
      Nat.one_pos, Nat.one_le_iff_ne_zero.mpr (by decide)⟩
    · rw [hpool]
      exact Function.update_self ..
    · rw [hbytes, fileBytes, hfile]
      rfl
    · exact ⟨H.pagesNum_set _ _, hH.allocatedPagesNum _ _, hH.bitmap _ _⟩
    · have hpos : 0 < q := Nat.pos_of_ne_zero hq
      have hge : ¬q < 1 := Nat.not_lt.mpr hpos
      rw [hbytes, fileBytes, hfile]
      exact (if_neg hge).trans (if_neg hge).symm
  · exact absurd rfl hne

/-! ## The calls on the file -/

section Calls

variable [Inhabited δ] {victims : List FrameId} {r : Re} {x : Nat} {t : GlobalBufferPoolManager δ} {d : δ}

theorem getPage (h : Shows H fd S p) (hrun : S.pool.getPage fd q victims = (r, x, t)) :
    ∃ p' : PagePool δ, (∀ rest, (p.facing (r :: rest)).getPage q = (r, p'.facing rest)) ∧
      Shows H fd { S with pool := t, pins := Session.pinned S.pins r ⟨fd, q⟩ x } p' := by
  obtain ⟨hopen, hcase⟩ := getPage_spec (i := ⟨fd, q⟩) h.sound h.opened (fun _ _ => rfl) hrun
  have hopened : t.fdBufferPools fd = true := by
    rw [hopen]
    exact h.opened
  rcases hcase with ⟨rfl, hx, hsound, hcontent⟩ | ⟨hr, hsound, hcontent⟩
  · rw [Session.update_noneStale] at hsound hcontent
    have hlt : q < p.pagesNum := by
      refine h.lt_of_content (d := (t.frame x).page.pageData) ?_
      rw [← hcontent]
      exact Sound.content_cached hx rfl
    have hothers : ∀ y, y ≠ x → S.pins (⟨fd, q⟩, y) = 0 := by
      intro y hy
      have hzero := hsound.pins_eq_zero hx hy
      rwa [Function.update_of_ne (by simp [hy])] at hzero
    have hpins := h.pins.update hothers (S.pins (⟨fd, q⟩, x) + 1)
    have hcount : S.pins (⟨fd, q⟩, x) + 1 + headerPin ⟨fd, q⟩ = p.pinCount q + 1 := by
      rw [h.pins.count_eq hothers]
      omega
    rw [hcount] at hpins
    refine ⟨p.setPin q (p.pinCount q + 1), fun rest => ?_, ?_⟩
    · have hge : ¬p.pagesNum ≤ q := Nat.not_le.mpr hlt
      simp [PagePool.getPage, PagePool.takeFault, PagePool.facing, PagePool.setPin, hge]
    · exact h.frame hsound hopened (fun q => congrFun hcontent _) hpins h.waiting ⟨rfl, rfl, rfl, rfl⟩
  · refine ⟨p, fun rest => ?_, ?_⟩
    · simp [PagePool.getPage, PagePool.takeFault, PagePool.facing, hr]
    · rw [Session.pinned, if_neg hr]
      exact h.frame hsound hopened (fun q => congrFun hcontent _) h.pins h.waiting ⟨rfl, rfl, rfl, rfl⟩

theorem disposePage (h : Shows H fd S p) (hH : H.Faithful) :
    (S.disposePage H ⟨fd, q⟩).1 = (p.disposePage q).1 ∧
      Shows H fd (S.disposePage H ⟨fd, q⟩).2 (p.disposePage q).2 := by
  have hgone {u : GlobalBufferPoolManager δ} (hu : Shows H fd { S with pool := u } p) :
      Shows H fd { S with pool := u.setFileHeader H fd { u.fileHeader H fd with
          allocatedPagesNum := (u.fileHeader H fd).allocatedPagesNum - 1
          bitmap := Function.update (u.fileHeader H fd).bitmap q false } }
        { p with
          dirty := Function.update (Function.update p.dirty q false) PagePool.headerPage true
          allocatedPagesNum := p.allocatedPagesNum - 1
          bitmap := Function.update p.bitmap q false } := by
    have hhead : HeaderShown (u.fileHeader H fd) p := hu.fileHeader
    refine hu.setFileHeader hH ⟨hhead.pagesNum, ?_, fun q' hq' => ?_⟩ rfl rfl rfl rfl
    · simp only [hhead.allocatedPagesNum]
    · by_cases he : q' = q
      · subst he
        simp only [Function.update_self]
      · simp only [Function.update_of_ne he]
        exact hhead.bitmap q' hq'
  unfold Shared.disposePage GlobalBufferPoolManager.disposePage purgePage PagePool.disposePage
  simp only
  cases hget : S.pool.getFrame fd q with
  | none =>
    have hfree : ¬0 < p.pinCount q := by
      rw [h.pinCount_absent hget]
      exact Nat.lt_irrefl 0
    simp only [if_neg hfree]
    exact ⟨rfl, hgone h⟩
  | some x =>
    simp only [h.pinCount_cached hget]
    by_cases hpin : 0 < (S.pool.frame x).pinCount
    · simp only [if_pos hpin]
      refine ⟨rfl, h.frame h.sound h.opened (fun _ => rfl) h.pins (fun q' => ?_) ⟨rfl, rfl, rfl, rfl⟩⟩
      by_cases he : q' = q
      · subst he
        simp
      · simp [he, h.waiting q']
    · simp only [if_neg hpin]
      have hevicted := purgeFrame_evicted (v := ⟨fd, q⟩) h.sound hget (Nat.eq_zero_of_not_pos hpin)
      exact ⟨rfl, hgone (h.evicted hevicted)⟩

theorem unpinPage (h : Shows H fd S p) (hH : H.Faithful) (hpin : 0 < S.pins (⟨fd, q⟩, x)) :
    Shows H fd (S.unpinPage H ⟨fd, q⟩ x) (p.unpinPage q) := by
  obtain ⟨hx, -⟩ := h.sound.held hpin
  obtain ⟨hsound, hcontent⟩ := unpinPage_spec h.sound hpin
  have hothers : ∀ y, y ≠ x → S.pins (⟨fd, q⟩, y) = 0 := fun y hy => h.sound.pins_eq_zero hx hy
  have hpins := h.pins.update hothers (S.pins (⟨fd, q⟩, x) - 1)
  have hcount : S.pins (⟨fd, q⟩, x) - 1 + headerPin ⟨fd, q⟩ = p.pinCount q - 1 := by
    rw [h.pins.count_eq hothers]
    omega
  rw [hcount] at hpins
  have hreleased : Shows H fd ⟨S.pool.unpinPage x, Function.update S.pins (⟨fd, q⟩, x) (S.pins (⟨fd, q⟩, x) - 1),
      S.disposedPages⟩ (p.released q) :=
    h.frame hsound h.opened (fun q => congrFun hcontent _) hpins h.waiting ⟨rfl, rfl, rfl, rfl⟩
  have hlast := hreleased.pinCount_cached (x := x) hx
  unfold Shared.unpinPage PagePool.unpinPage
  simp only [hlast, hreleased.waiting q]
  split
  · obtain ⟨-, hdisposed⟩ := hreleased.disposePage (q := q) hH
    refine hdisposed.frame hdisposed.sound hdisposed.opened (fun _ => rfl) hdisposed.pins (fun q' => ?_)
      ⟨rfl, rfl, rfl, rfl⟩
    by_cases he : q' = q
    · subst he
      simp
    · simp [he, hdisposed.waiting q']
  · exact hreleased

omit [Inhabited δ] in
theorem writePage (h : Shows H fd S p) (hpin : 0 < S.pins (⟨fd, q⟩, x)) (hdata : q ≠ PagePool.headerPage) :
    Shows H fd { S with pool := S.pool.writePage x d } ((p.setData q d).dirtyMark q) := by
  obtain ⟨hx, -⟩ := h.sound.held hpin
  obtain ⟨hsound, hcontent⟩ := writePage_spec (d := d) h.sound hx rfl fun hp => absurd hp hdata
  refine ⟨hsound, h.opened, ?_, fun q' hq' => ?_, h.pins, h.waiting, h.bounded⟩
  · obtain ⟨d', hd', hshown⟩ := h.header
    refine ⟨d', ?_, ⟨hshown.pagesNum, hshown.allocatedPagesNum, hshown.bitmap⟩⟩
    rw [← hd']
    simp only [hcontent]
    exact Function.update_of_ne (by simp [hdata.symm]) ..
  · simp only [hcontent]
    by_cases he : q' = q
    · subst he
      have hlt := h.lt_of_cached hx
      simp [PagePool.setData, PagePool.dirtyMark, hlt]
    · rw [Function.update_of_ne (by simp [he]), h.pages q' hq']
      simp [PagePool.setData, PagePool.dirtyMark, Function.update_of_ne he]

/-- Frame `x`, which is taken for it, gets a page that is added to the file. -/
theorem extend {u v w : GlobalBufferPoolManager δ} (h : Shows H fd S p) (hH : H.Faithful)
    (hroom : p.pagesNum < PagePool.maxPageNum) (hr : Reserved S.pool ⟨fd, p.pagesNum⟩ x t)
    (hu : u = t.setFileHeader H fd (GlobalBufferPoolManager.extend (t.fileHeader H fd)))
    (hv : v = u.setFrame x ⟨false, 1, fd, ⟨(u.fileHeader H fd).pagesNum - 1, default⟩⟩)
    (hw : w = v.flushPage fd x) :
    (w.frame x).page.pageId = p.pagesNum ∧
      Shows H fd { S with pool := w, pins := Session.pinned S.pins .success ⟨fd, (w.frame x).page.pageId⟩ x }
        p.extended := by
  have hhead := h.fileHeader
  have hth : t.fileHeader H fd = S.pool.fileHeader H fd := by
    unfold GlobalBufferPoolManager.fileHeader
    rw [hr.frame, hr.header]
  have hid : (w.frame x).page.pageId = p.pagesNum := by
    have huh : (u.fileHeader H fd).pagesNum = p.pagesNum + 1 := by
      rw [hu]
      simp only [GlobalBufferPoolManager.fileHeader, GlobalBufferPoolManager.setFileHeader,
        GlobalBufferPoolManager.writePage, setFrame, Function.update_self, H.pagesNum_set]
      rw [← hhead.pagesNum, ← hth]
      rfl
    rw [hw, hv]
    simp only [flushPage, setFrame, Function.update_self, huh, Nat.add_sub_cancel]
  obtain ⟨hsound, hpool, hcontent⟩ := extend_spec h.sound h.opened (by rw [hhead.pagesNum]; exact hr) hu hv hw
  rw [hid, Session.update_noneStale] at hsound hcontent
  rw [hhead.pagesNum] at hcontent
  refine ⟨hid, ?_⟩
  rw [hid]
  -- the page was not in the file, so nobody has pinned it
  have hnone : ∀ y, S.pins (⟨fd, p.pagesNum⟩, y) = 0 := by
    intro y
    by_contra hpos
    exact Nat.lt_irrefl _ (h.lt_of_cached (h.sound.held (Nat.pos_of_ne_zero hpos)).1)
  have hnew : p.pagesNum ≠ PagePool.headerPage := Nat.ne_of_gt h.bounded.1
  have hpins := h.pins.update (x := x) (fun y _ => hnone y) (S.pins (⟨fd, p.pagesNum⟩, x) + 1)
  have hone : S.pins (⟨fd, p.pagesNum⟩, x) + 1 + headerPin ⟨fd, p.pagesNum⟩ = 1 := by
    rw [hnone, headerPin, if_neg hnew]
  rw [hone] at hpins
  refine ⟨hsound, by rw [hpool]; exact h.opened, ?_, fun q hq => ?_, hpins, h.waiting, Nat.succ_pos _, hroom⟩
  · have hne : (⟨fd, PagePool.headerPage⟩ : FrameId) ≠ ⟨fd, p.pagesNum⟩ := by simp [hnew.symm]
    refine ⟨H.setFileHeader (GlobalBufferPoolManager.extend (S.pool.fileHeader H fd))
      (S.pool.frame (S.pool.headerFrame fd)).page.pageData, ?_, ?_, ?_, fun q hq => ?_⟩
    · simp only [hcontent, Function.update_of_ne hne, Function.update_self]
    · rw [H.pagesNum_set]
      exact congrArg (· + 1) hhead.pagesNum
    · rw [hH.allocatedPagesNum]
      exact congrArg (· + 1) hhead.allocatedPagesNum
    · rw [hH.bitmap _ _ q hq]
      simp only [GlobalBufferPoolManager.extend, hhead.pagesNum, PagePool.extended]
      by_cases he : q = p.pagesNum
      · subst he
        simp [PagePool.setData, PagePool.setPin]
      · simp [PagePool.setData, PagePool.setPin, he, hhead.bitmap q hq]
  · simp only [hcontent]
    by_cases he : q = p.pagesNum
    · subst he
      simp [PagePool.extended, PagePool.setData, PagePool.setPin]
    · have hhere : (⟨fd, q⟩ : FrameId) ≠ ⟨fd, p.pagesNum⟩ := by simp [he]
      have hthere : (⟨fd, q⟩ : FrameId) ≠ ⟨fd, PagePool.headerPage⟩ := by simp [hq]
      rw [Function.update_of_ne hhere, Function.update_of_ne hthere, h.pages q hq]
      have hlt : q < p.pagesNum + 1 ↔ q < p.pagesNum :=
        ⟨fun hle => lt_of_le_of_ne (Nat.le_of_lt_succ hle) he, Nat.lt_succ_of_lt⟩
      simp [PagePool.extended, PagePool.setData, PagePool.setPin, he, hlt]

/-- A page is used again, or one is added to the file. -/
theorem allocatePage (h : Shows H fd S p) (hH : H.Faithful) (hrun : S.pool.allocatePage H fd victims = (r, x, t)) :
    ∃ fs, ∃ p' : PagePool δ,
      (∀ rest, (p.facing (fs ++ rest)).call .allocatePage = (.of r (t.frame x).page.pageId, p'.facing rest)) ∧
      Shows H fd { S with pool := t, pins := Session.pinned S.pins r ⟨fd, (t.frame x).page.pageId⟩ x } p' := by
  have hhead := h.fileHeader
  unfold GlobalBufferPoolManager.allocatePage at hrun
  rw [hhead.firstFree h.bounded.2] at hrun
  cases hfree : p.firstFree with
  | some i =>
    simp only [hfree] at hrun
    obtain ⟨p₁, hp₁⟩ : ∃ p₁ : PagePool δ, p₁ = { p with
      allocatedPagesNum := p.allocatedPagesNum + 1
      bitmap := Function.update p.bitmap i true
      dirty := Function.update p.dirty PagePool.headerPage true } := ⟨_, rfl⟩
    have hreused : Shows H fd { S with pool := S.pool.setFileHeader H fd (reuse (S.pool.fileHeader H fd) i) } p₁ := by
      refine h.setFileHeader hH ⟨?_, ?_, fun q hq => ?_⟩ ?_ ?_ ?_ ?_
      · rw [hp₁]
        exact hhead.pagesNum
      · rw [hp₁]
        simp only [reuse, hhead.allocatedPagesNum]
      · rw [hp₁]
        by_cases he : q = i
        · subst he
          simp [reuse]
        · simp [reuse, he, hhead.bitmap q hq]
      all_goals rw [hp₁]
    obtain ⟨p', hcall, hshows⟩ := hreused.getPage hrun
    have hid : r = .success → (t.frame x).page.pageId = i := by
      rintro rfl
      have hpin : 0 < Session.pinned S.pins .success ⟨fd, i⟩ x (⟨fd, i⟩, x) := by
        rw [Session.pinned, if_pos rfl, Function.update_self]
        exact Nat.succ_pos _
      exact (hshows.sound.cached (hshows.sound.held hpin).1).2
    refine ⟨[r], p', fun rest => ?_, ?_⟩
    · have hfirst : (p.facing ([r] ++ rest)).firstFree = some i := hfree
      have hget := hcall rest
      rw [hp₁] at hget
      have hallocate : (p.facing ([r] ++ rest)).allocatePage = (r, i, p'.facing rest) := by
        unfold PagePool.allocatePage
        rw [hfirst]
        exact congrArg (fun y => (y.1, i, y.2)) hget
      simp only [PagePool.call, hallocate]
      by_cases hr : r = .success
      · rw [hid hr]
      · simp only [PoolAnswer.of, if_neg hr]
    · by_cases hr : r = .success
      · rw [hid hr]
        exact hshows
      · simp only [Session.pinned, if_neg hr] at hshows ⊢
        exact hshows
  | none =>
    simp only [hfree, hhead.pagesNum] at hrun
    by_cases hfull : PagePool.maxPageNum ≤ p.pagesNum
    · rw [if_pos hfull] at hrun
      cases hrun
      refine ⟨[], { p with noBuf := true }, fun rest => ?_, ?_⟩
      · rw [PagePool.call, List.nil_append, PagePool.allocatePage_full hfree hfull]
        rfl
      · exact h.frame h.sound h.opened (fun _ => rfl) h.pins h.waiting ⟨rfl, rfl, rfl, rfl⟩
    · rw [if_neg hfull] at hrun
      obtain ⟨r1, y, u, hres⟩ : ∃ r1 y u, S.pool.allocateFrame fd p.pagesNum victims = (r1, y, u) := ⟨_, _, _, rfl⟩
      simp only [hres] at hrun
      rcases allocateFrame_spec (i := ⟨fd, p.pagesNum⟩) h.sound hres with ⟨rfl, v, hv, hreserved⟩ | ⟨hne, hu⟩
      · simp only [ne_eq, not_true_eq_false, if_false] at hrun
        cases hrun
        obtain ⟨hid, hshows⟩ := (h.evicted hv).extend hH (Nat.not_le.mp hfull) hreserved rfl rfl rfl
        refine ⟨[.success], p.extended, fun rest => ?_, hshows⟩
        rw [PagePool.call, List.singleton_append, PagePool.allocatePage_extends hfree hfull, if_pos rfl, hid]
      · rw [if_pos hne] at hrun
        cases hrun
        refine ⟨[r], p, fun rest => ?_, ?_⟩
        · rw [PagePool.call, List.singleton_append, PagePool.allocatePage_extends hfree hfull, if_neg hne]
          simp only [PoolAnswer.of, if_neg hne]
        · simp only [Session.pinned, if_neg hne]
          exact h.evicted hu

theorem disposePage_apart {i : FrameId} (h : Shows H fd S p) (hopen : S.pool.fdBufferPools i.fileDesc = true)
    (hne : i.fileDesc ≠ fd) : Shows H fd (S.disposePage H i).2 p := by
  have hpage (q : PageId) : (⟨fd, q⟩ : FrameId) ≠ i := fun he => hne (by rw [← he])
  have hother (q : PageId) : (⟨fd, q⟩ : FrameId) ≠ ⟨i.fileDesc, PagePool.headerPage⟩ :=
    fun he => hne (by rw [← congrArg FrameId.fileDesc he])
  obtain ⟨r, t, hrun⟩ : ∃ r t, S.pool.disposePage H i.fileDesc i.pageId = (r, t) := ⟨_, _, rfl⟩
  obtain ⟨hsound, hcontent⟩ := disposePage_spec h.sound hopen hrun
  have hfd : t.fdBufferPools fd = true := by
    rw [fdBufferPools_disposePage h.sound hrun]
    exact h.opened
  unfold Shared.disposePage
  simp only [hrun]
  refine h.frame hsound hfd (fun q => ?_) h.pins (fun q => ?_) ⟨rfl, rfl, rfl, rfl⟩
  · simp only [hcontent, withHeader, Function.update_of_ne (hother q)]
  · split
    · exact h.waiting q
    · exact (h.waiting q).trans (Function.update_of_ne (hpage q) ..).symm

/-- The clients of other files may call what they like. -/
theorem apart {e : Event δ} (h : Shows H fd S p) (hstep : Shared.Step H S e S') (hne : e.fileDesc ≠ fd) :
    Shows H fd S' p := by
  have hpage {i : FrameId} (hi : i.fileDesc ≠ fd) (q : PageId) : (⟨fd, q⟩ : FrameId) ≠ i :=
    fun he => hi (by rw [← he])
  cases hstep with
  | @getPage t i victims r x hopen hrun =>
    obtain ⟨hopened, hcase⟩ := getPage_spec h.sound hopen (fun _ _ => rfl) hrun
    have hfd : t.fdBufferPools fd = true := by
      rw [hopened]
      exact h.opened
    rcases hcase with ⟨rfl, -, hsound, hcontent⟩ | ⟨hr, hsound, hcontent⟩
    · rw [Session.update_noneStale] at hsound hcontent
      exact h.frame hsound hfd (fun q => congrFun hcontent _) (h.pins.other hne _) h.waiting ⟨rfl, rfl, rfl, rfl⟩
    · rw [Session.pinned, if_neg hr]
      exact h.frame hsound hfd (fun q => congrFun hcontent _) h.pins h.waiting ⟨rfl, rfl, rfl, rfl⟩
  | @allocatePage t fd' victims r x hopen hrun =>
    obtain ⟨hopened, hcase⟩ := allocatePage_spec h.sound hopen (fun _ _ _ _ => rfl) hrun
    have hfd : t.fdBufferPools fd = true := by
      rw [hopened]
      exact h.opened
    have hsame (q : PageId) : allocated H (S.pool.content Session.noneStale) fd' r ⟨fd, q⟩ =
        S.pool.content Session.noneStale ⟨fd, q⟩ := by
      have hother (j : PageId) : (⟨fd, q⟩ : FrameId) ≠ ⟨fd', j⟩ := hpage (i := ⟨fd', j⟩) hne q
      unfold allocated
      cases S.pool.content Session.noneStale ⟨fd', PagePool.headerPage⟩ with
      | none => rfl
      | some d =>
        simp only
        cases firstFree (H.fileHeader d) with
        | some _ => exact Function.update_of_ne (hother _) ..
        | none =>
          by_cases hr : r = .success
          · simp only [if_pos hr]
            rw [Function.update_of_ne (hother _), Function.update_of_ne (hother _)]
          · simp only [if_neg hr]
    rcases hcase with ⟨rfl, hsound, hcontent⟩ | ⟨hr, hsound, hcontent⟩
    · rw [Session.update_noneStale] at hsound hcontent
      exact h.frame hsound hfd (fun q => (congrFun hcontent _).trans (hsame q)) (h.pins.other hne _) h.waiting
        ⟨rfl, rfl, rfl, rfl⟩
    · rw [Session.pinned, if_neg hr]
      exact h.frame hsound hfd (fun q => (congrFun hcontent _).trans (hsame q)) h.pins h.waiting
        ⟨rfl, rfl, rfl, rfl⟩
  | @unpinPage i x hpin =>
    obtain ⟨hx, -⟩ := h.sound.held hpin
    have hopen := h.sound.opened hx rfl
    obtain ⟨hsound, hcontent⟩ := unpinPage_spec h.sound hpin
    have hreleased : Shows H fd ⟨S.pool.unpinPage x, Function.update S.pins (i, x) (S.pins (i, x) - 1),
        S.disposedPages⟩ p :=
      h.frame hsound h.opened (fun q => congrFun hcontent _) (h.pins.other hne _) h.waiting ⟨rfl, rfl, rfl, rfl⟩
    unfold Shared.unpinPage
    simp only
    split
    · have hdisposed := hreleased.disposePage_apart (i := i) hopen hne
      refine hdisposed.frame hdisposed.sound hdisposed.opened (fun _ => rfl) hdisposed.pins (fun q => ?_)
        ⟨rfl, rfl, rfl, rfl⟩
      simp only [Function.update_of_ne (hpage hne q), hdisposed.waiting q]
    · exact hreleased
  | @disposePage i hopen => exact h.disposePage_apart hopen hne
  | @writePage i x d hpin hdata =>
    obtain ⟨hx, -⟩ := h.sound.held hpin
    obtain ⟨hsound, hcontent⟩ := writePage_spec (d := d) h.sound hx rfl fun hp => absurd hp hdata
    exact h.frame hsound h.opened (fun q => (congrFun hcontent _).trans (Function.update_of_ne (hpage hne q) ..))
      h.pins h.waiting ⟨rfl, rfl, rfl, rfl⟩

/-- A call on the file itself is answered alike. -/
theorem step {e : Event δ} (h : Shows H fd S p) (hH : H.Faithful) (hstep : Shared.Step H S e S')
    (hfd : e.fileDesc = fd) :
    ∃ fs, ∃ p' : PagePool δ, (∀ rest, (p.facing (fs ++ rest)).call e.call = (e.answer, p'.facing rest)) ∧
      Shows H fd S' p' := by
  subst hfd
  cases hstep with
  | @getPage t i victims r x hopen hrun =>
    obtain ⟨p', hcall, hshows⟩ := h.getPage hrun
    refine ⟨[r], p', fun rest => ?_, hshows⟩
    rw [List.singleton_append, PagePool.call, hcall]
  | @allocatePage t fd victims r x hopen hrun => exact h.allocatePage hH hrun
  | @unpinPage i x hpin =>
    refine ⟨[], p.unpinPage i.pageId, fun rest => ?_, h.unpinPage hH hpin⟩
    rw [List.nil_append, PagePool.call, PagePool.facing_unpinPage]
  | @disposePage i hopen =>
    obtain ⟨hanswer, hshows⟩ := h.disposePage (q := i.pageId) hH
    refine ⟨[], (p.disposePage i.pageId).2, fun rest => ?_, hshows⟩
    simp only [List.nil_append, PagePool.call, PagePool.facing_disposePage, ← hanswer]
  | @writePage i x d hpin hdata =>
    exact ⟨[], (p.setData i.pageId d).dirtyMark i.pageId, fun _ => rfl, h.writePage hpin hdata⟩

end Calls

end Shows

/-- What the clients of a file are answered in a run of the pool of all files is what its `PagePool` answers them, for
some answers of the environment. -/
theorem Shared.Run.simulated [Inhabited δ] {T : Shared δ} {es : List (Event δ)} (hrun : Shared.Run H S es T)
    (hH : H.Faithful) (h : Shows H fd S p) :
    ∃ fs, ∃ p' : PagePool δ,
      (∀ rest, (p.facing (fs ++ rest)).calls ((es.filter (·.fileDesc = fd)).map Event.call) =
        ((es.filter (·.fileDesc = fd)).map Event.answer, p'.facing rest)) ∧
      Shows H fd T p' := by
  induction hrun generalizing p with
  | nil S => exact ⟨[], p, fun _ => rfl, h⟩
  | @cons S S' T e es hstep hrest ih =>
    by_cases hfd : e.fileDesc = fd
    · obtain ⟨fs, p₁, hcall, hshows⟩ := h.step hH hstep hfd
      obtain ⟨gs, p', hcalls, hend⟩ := ih hshows
      refine ⟨fs ++ gs, p', fun rest => ?_, hend⟩
      rw [List.filter_cons_of_pos (by simp [hfd]), List.map_cons, List.map_cons, List.append_assoc, PagePool.calls,
        hcall]
      simp only [hcalls]
    · rw [List.filter_cons_of_neg (by simp [hfd])]
      exact ih (h.apart hstep hfd)

end GlobalBufferPoolManager

end Idmbs
