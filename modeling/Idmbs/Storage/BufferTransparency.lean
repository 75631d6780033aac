import Idmbs.Storage.BufferFiles
import Mathlib.Logic.Relation

/-!
# Idmbs.Storage.BufferTransparency

The cache does not show: whatever frames are thrown out on the way, every page a client gets holds what
was last written to it, and a pinned frame stays where it is. No file is closed here.
-/

namespace Idmbs

variable {δ : Type}

namespace GlobalBufferPoolManager

variable {H : HeaderView δ}

/-- The pool, the pins its clients hold, and the pages as a flat array. -/
structure Session (δ : Type) where
  pool : GlobalBufferPoolManager δ
  pins : Pins
  pages : FrameId → Option δ

namespace Session

variable {S S' : Session δ}

/-- No file is open yet; the pages are those of the files. -/
structure Fresh (S : Session δ) : Prop where
  empty : S.pool.frameLruCache = ∅
  free : S.pool.free.Nodup
  closed : ∀ fd, S.pool.fdBufferPools fd = false
  unpinned : ∀ q, S.pins q = 0
  pages : ∀ i, S.pages i =
    if i.pageId < (S.pool.files i.fileDesc).size then
      some ((S.pool.files i.fileDesc).page i.pageId).pageData
    else none

/-- One more pin after a call that succeeded. -/
def pinned (pins : Pins) (r : Re) (i : FrameId) (x : Nat) : Pins :=
  if r = .success then Function.update pins (i, x) (pins (i, x) + 1) else pins

section Runs

variable [Inhabited δ]

/-- A call of a client. It uses frames that it has pinned, and leaves `pages_num` to the pool. -/
inductive Step (H : HeaderView δ) : Session δ → Session δ → Prop
  | openFile {S : Session δ} {t : GlobalBufferPoolManager δ} {fd : Nat} {victims : List FrameId} {r : Re}
      (hclosed : S.pool.fdBufferPools fd = false) (hfile : (S.pool.files fd).WellFormed H)
      (hrun : S.pool.openFile fd victims = (r, t)) :
      Step H S { S with pool := t }
  | getPage {S : Session δ} {t : GlobalBufferPoolManager δ} {i : FrameId} {victims : List FrameId} {r : Re}
      {x : Nat} (hopen : S.pool.fdBufferPools i.fileDesc = true)
      (hrun : S.pool.getPage i.fileDesc i.pageId victims = (r, x, t)) :
      Step H S { S with pool := t, pins := pinned S.pins r i x }
  | writePage {S : Session δ} {i : FrameId} {x : Nat} {d : δ} (hpin : 0 < S.pins (i, x))
      (hheader : i.pageId = PagePool.headerPage →
        (H.fileHeader d).pagesNum = (S.pool.fileHeader H i.fileDesc).pagesNum) :
      Step H S { S with pool := S.pool.writePage x d, pages := Function.update S.pages i (some d) }
  | unpinPage {S : Session δ} {i : FrameId} {x : Nat} (hpin : 0 < S.pins (i, x)) :
      Step H S { S with
        pool := S.pool.unpinPage x
        pins := Function.update S.pins (i, x) (S.pins (i, x) - 1) }
  | allocatePage {S : Session δ} {t : GlobalBufferPoolManager δ} {fd : Nat} {victims : List FrameId} {r : Re}
      {x : Nat} (hopen : S.pool.fdBufferPools fd = true)
      (hrun : S.pool.allocatePage H fd victims = (r, x, t)) :
      Step H S ⟨t, pinned S.pins r ⟨fd, (t.frame x).page.pageId⟩ x, allocated H S.pages fd r⟩
  | flushPage {S : Session δ} {i : FrameId} {x : Nat} (hpin : 0 < S.pins (i, x)) :
      Step H S { S with pool := S.pool.flushPage i.fileDesc x }
  | flushAllPages {S : Session δ} {fd : Nat} (hopen : S.pool.fdBufferPools fd = true) :
      Step H S { S with pool := S.pool.flushAllPages fd }

def noneStale : FrameId → Bool := fun _ => false

theorem update_noneStale (i : FrameId) : Function.update noneStale i false = noneStale :=
  Function.update_eq_self i noneStale

/-- The pool is sound and shows the flat array. -/
def Refines (H : HeaderView δ) (S : Session δ) : Prop :=
  Sound H S.pool S.pins noneStale ∧ S.pool.content noneStale = S.pages

omit [Inhabited δ] in
theorem Fresh.refines (h : S.Fresh) : Refines H S := by
  have hlook : ∀ i, S.pool.frameLruCache.lookup i = none := by
    intro i
    rw [h.empty]
    exact AList.lookup_empty i
  have hnone : ∀ {i x}, S.pool.frameLruCache.lookup i = some x → False := by
    intro i x hx
    rw [hlook] at hx
    cases hx
  have hopen : ∀ {fd}, S.pool.fdBufferPools fd = true → False := by
    intro fd hfd
    rw [h.closed] at hfd
    cases hfd
  constructor
  · refine ⟨fun hx => (hnone hx).elim, fun hx => (hnone hx).elim, fun hx => (hnone hx).elim,
      fun hx => (hnone hx).elim, fun hx => (hnone hx).elim, fun hx => (hnone hx).elim, fun hpos => ?_,
      fun x _ i hx => hnone hx, h.free, fun hfd => (hopen hfd).elim, fun hfd => (hopen hfd).elim,
      fun hfd => (hopen hfd).elim⟩
    rw [h.unpinned] at hpos
    exact absurd hpos (Nat.lt_irrefl 0)
  · funext i
    rw [h.pages, content, hlook]
    rfl

theorem Step.refines (h : Refines H S) (hstep : Step H S S') : Refines H S' := by
  obtain ⟨hsound, hpages⟩ := h
  cases hstep with
  | openFile hclosed hfile hrun =>
    rcases openFile_spec hsound hclosed hfile hrun with ⟨-, -, h1, h2⟩ | ⟨-, -, h1, h2⟩
    · rw [update_noneStale] at h1 h2
      exact ⟨h1, h2.trans hpages⟩
    · exact ⟨h1, h2.trans hpages⟩
  | getPage hopen hrun =>
    rcases (getPage_spec hsound hopen (fun _ _ => rfl) hrun).2 with ⟨rfl, -, h1, h2⟩ | ⟨hr, h1, h2⟩
    · rw [update_noneStale] at h1 h2
      exact ⟨h1, h2.trans hpages⟩
    · simp only [pinned, if_neg hr]
      exact ⟨h1, h2.trans hpages⟩
  | writePage hpin hheader =>
    obtain ⟨hx, hs⟩ := hsound.held hpin
    have hopen := hsound.opened hx hs
    obtain ⟨h1, h2⟩ := writePage_spec hsound hx hs fun hp => by
      rw [hheader hp]
      exact hsound.pages hopen
    exact ⟨h1, h2.trans (by rw [hpages])⟩
  | unpinPage hpin =>
    obtain ⟨h1, h2⟩ := unpinPage_spec hsound hpin
    exact ⟨h1, h2.trans hpages⟩
  | allocatePage hopen hrun =>
    rcases (allocatePage_spec hsound hopen (fun _ _ _ _ => rfl) hrun).2 with ⟨rfl, h1, h2⟩ | ⟨hr, h1, h2⟩
    · rw [update_noneStale] at h1 h2
      exact ⟨h1, by rw [h2, hpages]⟩
    · simp only [pinned, if_neg hr]
      exact ⟨h1, by rw [h2, hpages]⟩
  | flushPage hpin =>
    obtain ⟨hx, hs⟩ := hsound.held hpin
    obtain ⟨h1, h2⟩ := hsound.flushPage hx hs
    exact ⟨h1, h2.trans hpages⟩
  | @flushAllPages fd hopen =>
    have hev : Evicted H S.pool S.pins noneStale (S.pool.flushAllPages fd) :=
      flushAllPages_spec hsound fun _ _ => rfl
    exact ⟨hev.sound, hev.content.trans hpages⟩

theorem refines_of_run (h : S.Fresh) (hrun : Relation.ReflTransGen (Step H) S S') : Refines H S' := by
  induction hrun with
  | refl => exact h.refines
  | tail _ hstep ih => exact hstep.refines ih

/-- In every run a page that is got holds what was last written to it, or the bytes of the file; the
frames that are pinned stay the frames of their pages. -/
theorem transparent (H : HeaderView δ) {S₀ S : Session δ} (h₀ : S₀.Fresh)
    (hrun : Relation.ReflTransGen (Step H) S₀ S) :
    (∀ i victims x t, S.pool.fdBufferPools i.fileDesc = true →
      S.pool.getPage i.fileDesc i.pageId victims = (.success, x, t) →
        (t.frame x).page.pageId = i.pageId ∧ S.pages i = some (t.frame x).page.pageData) ∧
    (∀ i x, 0 < S.pins (i, x) → S.pool.frameLruCache.lookup i = some x ∧
      (S.pool.frame x).fileDesc = i.fileDesc ∧ (S.pool.frame x).page.pageId = i.pageId ∧
        S.pages i = some (S.pool.frame x).page.pageData) ∧
    (∀ fd, S.pool.fdBufferPools fd = true →
      S.pool.frameLruCache.lookup ⟨fd, PagePool.headerPage⟩ = some (S.pool.headerFrame fd)) := by
  obtain ⟨hsound, hpages⟩ := refines_of_run h₀ hrun
  refine ⟨?_, ?_, fun fd hopen => (hsound.header hopen).1⟩
  · intro i victims x t hopen hget
    have hcase := (getPage_spec hsound hopen (fun _ _ => rfl) hget).2
    obtain ⟨-, hx, hsound', hcontent⟩ := hcase.resolve_right fun hne => hne.1 rfl
    rw [update_noneStale] at hsound' hcontent
    refine ⟨(hsound'.cached hx).2, ?_⟩
    rw [← hpages, ← hcontent]
    exact Sound.content_cached hx rfl
  · intro i x hpin
    obtain ⟨hx, hs⟩ := hsound.held hpin
    obtain ⟨hfd, hp⟩ := hsound.cached hx
    refine ⟨hx, hfd, hp, ?_⟩
    rw [← hpages]
    exact Sound.content_cached hx hs

end Runs

/-- A page that holds nothing but a file header. -/
def headerOnly : HeaderView BufferPoolFileHeader := ⟨fun d => d, fun h _ => h, fun _ _ => rfl⟩

/-- Two frames, and files that were just created. -/
def twoFrames : Session BufferPoolFileHeader where
  pool := ⟨∅, [0, 1], fun _ => ⟨false, 0, 0, ⟨0, default⟩⟩, fun _ => .create headerOnly, fun _ => false,
    fun _ => 0⟩
  pins := fun _ => 0
  pages := fun i => if i.pageId < 1 then some ⟨1, 1, fun p => p == PagePool.headerPage⟩ else none

/-- A file is opened, and a page added to it. -/
theorem transparent_twoFrames :
    ∃ S, Relation.ReflTransGen (Step headerOnly) twoFrames S ∧ S.pool.fdBufferPools 3 = true ∧
      ∀ i x, 0 < S.pins (i, x) → S.pool.frameLruCache.lookup i = some x ∧
        (S.pool.frame x).fileDesc = i.fileDesc ∧ (S.pool.frame x).page.pageId = i.pageId ∧
          S.pages i = some (S.pool.frame x).page.pageData := by
  have h₀ : twoFrames.Fresh := ⟨rfl, by decide, fun _ => rfl, fun _ => rfl, fun _ => rfl⟩
  obtain ⟨S, hS⟩ : ∃ S : Session BufferPoolFileHeader,
    S = { twoFrames with pool := (twoFrames.pool.openFile 3 []).2 } := ⟨_, rfl⟩
  have hopen : Step headerOnly twoFrames S := by
    rw [hS]
    exact .openFile (rfl : twoFrames.pool.fdBufferPools 3 = false)
      (PageFile.create_wellFormed headerOnly) (rfl : twoFrames.pool.openFile 3 [] = (_, _))
  have hpool : S.pool.fdBufferPools 3 = true := by
    rw [hS]
    rfl
  have hrun := Relation.ReflTransGen.single hopen
  have hadd := hrun.tail (.allocatePage hpool (rfl : S.pool.allocatePage headerOnly 3 [] = (_, _, _)))
  have hpool' := (allocatePage_spec (refines_of_run h₀ hrun).1 hpool (fun _ _ _ _ => rfl)
    (rfl : S.pool.allocatePage headerOnly 3 [] = (_, _, _))).1
  exact ⟨_, hadd, (congrFun hpool' 3).trans hpool, (transparent headerOnly h₀ hadd).2.1⟩

end Session

end GlobalBufferPoolManager

end Idmbs
