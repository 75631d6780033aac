import Idmbs.Storage.BufferPool
import Mathlib.Order.MinMax

/-!
# Idmbs.Storage.BufferSound

The invariant of the buffer pool. It ties every cached frame to its page, every clean one to the file, and counts the
pins; frames left over from files that were closed are told apart. Here: what a change to one cached frame does to it,
and to the pages as a flat array.
-/

namespace Idmbs

variable {δ : Type}

namespace PageFile

section Write

variable [Inhabited δ] {f : PageFile δ} {p q : PageId} {page : Page δ}

theorem write_size : (f.write p page).size = max f.size (p + 1) := rfl

theorem write_size_of_lt (h : p < f.size) : (f.write p page).size = f.size := by
  rw [write_size]
  exact Nat.max_eq_left h

theorem write_page : (f.write p page).page p = page := by
  simp only [write, Function.update_self]

theorem write_page_of_ne (hq : q < f.size) (h : q ≠ p) : (f.write p page).page q = f.page q := by
  unfold write
  simp only
  rw [Function.update_of_ne h, if_pos hq]

end Write

/-- A file as the pool keeps it: every page has its number, and the header counts no page that is
missing. -/
structure WellFormed (H : HeaderView δ) (f : PageFile δ) : Prop where
  ids : ∀ p < f.size, (f.page p).pageId = p
  pages : (H.fileHeader (f.page PagePool.headerPage).pageData).pagesNum ≤ f.size

theorem create_wellFormed [Inhabited δ] (H : HeaderView δ) : WellFormed H (create H) where
  ids := fun _ hp => (Nat.lt_one_iff.mp hp).symm
  pages := le_of_eq (H.pagesNum_set _ _)

end PageFile

namespace GlobalBufferPoolManager

/-- How often the clients have pinned a page, by the page and the address of the frame they were
given. -/
abbrev Pins := FrameId × Nat → Nat

/-- `OpenFile` pins the header page. -/
def headerPin (i : FrameId) : Nat := if i.pageId = PagePool.headerPage then 1 else 0

def fileBytes (s : GlobalBufferPoolManager δ) (i : FrameId) : Option δ :=
  if i.pageId < (s.files i.fileDesc).size then some ((s.files i.fileDesc).page i.pageId).pageData else none

/-- What a client reads at `i`, as long as it is not given a frame left over from a file that was closed:
`stale` says for which pages there may be one. -/
def content (s : GlobalBufferPoolManager δ) (stale : FrameId → Bool) (i : FrameId) : Option δ :=
  match s.frameLruCache.lookup i with
  | some x => if stale i then s.fileBytes i else some (s.frame x).page.pageData
  | none => s.fileBytes i

structure Sound (H : HeaderView δ) (s : GlobalBufferPoolManager δ) (pins : Pins)
    (stale : FrameId → Bool) : Prop where
  cached : ∀ {i x}, s.frameLruCache.lookup i = some x →
    (s.frame x).fileDesc = i.fileDesc ∧ (s.frame x).page.pageId = i.pageId
  inFile : ∀ {i x}, s.frameLruCache.lookup i = some x → stale i = false →
    i.pageId < (s.files i.fileDesc).size
  clean : ∀ {i x}, s.frameLruCache.lookup i = some x → stale i = false → (s.frame x).dirty = false →
    (s.files i.fileDesc).page i.pageId = (s.frame x).page
  opened : ∀ {i x}, s.frameLruCache.lookup i = some x → stale i = false →
    s.fdBufferPools i.fileDesc = true
  counted : ∀ {i x}, s.frameLruCache.lookup i = some x → stale i = false →
    (s.frame x).pinCount = pins (i, x) + headerPin i
  idle : ∀ {i x}, s.frameLruCache.lookup i = some x → stale i = true →
    (s.frame x).dirty = false ∧ (s.frame x).pinCount = 0
  held : ∀ {i x}, 0 < pins (i, x) → s.frameLruCache.lookup i = some x ∧ stale i = false
  free : ∀ x ∈ s.free, ∀ i, s.frameLruCache.lookup i ≠ some x
  nodup : s.free.Nodup
  ids : ∀ {fd}, s.fdBufferPools fd = true → ∀ p < (s.files fd).size, ((s.files fd).page p).pageId = p
  header : ∀ {fd}, s.fdBufferPools fd = true →
    s.frameLruCache.lookup ⟨fd, PagePool.headerPage⟩ = some (s.headerFrame fd) ∧
      stale ⟨fd, PagePool.headerPage⟩ = false
  pages : ∀ {fd}, s.fdBufferPools fd = true → (s.fileHeader H fd).pagesNum ≤ (s.files fd).size

def written [Inhabited δ] (s : GlobalBufferPoolManager δ) (i : FrameId) (d : δ) :
    GlobalBufferPoolManager δ :=
  { s with
    files := Function.update s.files i.fileDesc
      ((s.files i.fileDesc).write i.pageId ⟨i.pageId, d⟩) }

variable {H : HeaderView δ} {s t : GlobalBufferPoolManager δ} {pins : Pins}
  {stale : FrameId → Bool} {i i' : FrameId} {fd x y n : Nat} {p : PageId} {f : Frame δ} {d : δ}

namespace Sound

theorem inj (h : Sound H s pins stale) (hx : s.frameLruCache.lookup i = some x)
    (hx' : s.frameLruCache.lookup i' = some x) : i = i' := by
  obtain ⟨h1, h2⟩ := h.cached hx
  obtain ⟨h1', h2'⟩ := h.cached hx'
  cases i
  cases i'
  simp only at h1 h2 h1' h2'
  rw [← h1, ← h2, ← h1', ← h2']

theorem content_cached (hx : s.frameLruCache.lookup i = some x) (hs : stale i = false) :
    s.content stale i = some (s.frame x).page.pageData := by
  simp only [content, hx, hs, Bool.false_eq_true, if_false]

theorem frame_setFrame (h : Sound H s pins stale) (hx : s.frameLruCache.lookup i = some x)
    (hy : s.frameLruCache.lookup i' = some y) (hne : i' ≠ i) : (s.setFrame x f).frame y = s.frame y := by
  refine Function.update_of_ne ?_ ..
  rintro rfl
  exact hne (h.inj hy hx)

theorem content_setFrame (h : Sound H s pins stale) (hx : s.frameLruCache.lookup i = some x)
    (hs : stale i = false) :
    (s.setFrame x f).content stale = Function.update (s.content stale) i (some f.page.pageData) := by
  have hsame : (s.setFrame x f).frame x = f := Function.update_self ..
  funext i'
  by_cases he : i' = i
  · subst he
    rw [Function.update_self, content_cached (s := s.setFrame x f) (x := x) hx hs, hsame]
  · rw [Function.update_of_ne he]
    unfold content
    have hlook : (s.setFrame x f).frameLruCache = s.frameLruCache := rfl
    have hbytes : (s.setFrame x f).fileBytes = s.fileBytes := rfl
    rw [hlook, hbytes]
    cases hy : s.frameLruCache.lookup i' with
    | none => rfl
    | some y =>
      simp only
      rw [h.frame_setFrame hx hy he]

/-- A cached frame is changed; it stays the frame of its page. -/
theorem setFrame (h : Sound H s pins stale) (hx : s.frameLruCache.lookup i = some x) (hs : stale i = false)
    (hfd : f.fileDesc = i.fileDesc) (hp : f.page.pageId = i.pageId)
    (hclean : f.dirty = false → (s.files i.fileDesc).page i.pageId = f.page)
    (hpins : f.pinCount = n + headerPin i)
    (hheader : i.pageId = PagePool.headerPage →
      (H.fileHeader f.page.pageData).pagesNum ≤ (s.files i.fileDesc).size) :
    Sound H (s.setFrame x f) (Function.update pins (i, x) n) stale ∧
      (s.setFrame x f).content stale = Function.update (s.content stale) i (some f.page.pageData) := by
  have hsame : (s.setFrame x f).frame x = f := Function.update_self ..
  have hother : ∀ {i' y}, s.frameLruCache.lookup i' = some y → i' ≠ i →
      (s.setFrame x f).frame y = s.frame y := fun hy hne => h.frame_setFrame hx hy hne
  have hpins' : ∀ {i' y}, i' ≠ i → Function.update pins (i, x) n (i', y) = pins (i', y) := by
    intro i' y hne
    exact Function.update_of_ne (fun he => hne (congrArg Prod.fst he)) ..
  refine ⟨?_, h.content_setFrame hx hs⟩
  constructor
  case cached =>
    intro i' y hy
    by_cases he : i' = i
    · subst he
      obtain rfl : x = y := Option.some.inj (hx.symm.trans hy)
      rw [hsame]
      exact ⟨hfd, hp⟩
    · rw [hother hy he]
      exact h.cached hy
  case inFile => exact h.inFile
  case clean =>
    intro i' y hy hfresh hdirty
    by_cases he : i' = i
    · subst he
      obtain rfl : x = y := Option.some.inj (hx.symm.trans hy)
      rw [hsame] at hdirty ⊢
      exact hclean hdirty
    · rw [hother hy he] at hdirty ⊢
      exact h.clean hy hfresh hdirty
  case opened => exact h.opened
  case counted =>
    intro i' y hy hfresh
    by_cases he : i' = i
    · subst he
      obtain rfl : x = y := Option.some.inj (hx.symm.trans hy)
      rw [hsame, Function.update_self]
      exact hpins
    · rw [hother hy he, hpins' he]
      exact h.counted hy hfresh
  case idle =>
    intro i' y hy hstale
    have he : i' ≠ i := by
      rintro rfl
      rw [hs] at hstale
      cases hstale
    rw [hother hy he]
    exact h.idle hy hstale
  case held =>
    intro i' y hpos
    by_cases he : (i', y) = (i, x)
    · cases he
      exact ⟨hx, hs⟩
    · rw [Function.update_of_ne he] at hpos
      exact h.held hpos
  case free => exact h.free
  case nodup => exact h.nodup
  case ids => exact h.ids
  case header => exact h.header
  case pages =>
    intro fd hopen
    have hhead := (h.header hopen).1
    unfold GlobalBufferPoolManager.fileHeader
    by_cases he : (⟨fd, PagePool.headerPage⟩ : FrameId) = i
    · subst he
      obtain rfl : x = s.headerFrame fd := Option.some.inj (hx.symm.trans hhead)
      have hsame' : (s.setFrame (s.headerFrame fd) f).frame
          ((s.setFrame (s.headerFrame fd) f).headerFrame fd) = f := hsame
      rw [hsame']
      exact hheader rfl
    · have hkeep : (s.setFrame x f).frame ((s.setFrame x f).headerFrame fd) =
          s.frame (s.headerFrame fd) := hother hhead he
      rw [hkeep]
      exact h.pages hopen

end Sound

/-- `t` is `s` with the page `i`, which is in frame `x`, written to its file. -/
structure Flushed (s : GlobalBufferPoolManager δ) (i : FrameId) (x : Nat) (t : GlobalBufferPoolManager δ) : Prop where
  size : ∀ fd, (t.files fd).size = (s.files fd).size
  written : (t.files i.fileDesc).page i.pageId = (s.frame x).page
  others : ∀ fd p, p < (s.files fd).size → (⟨fd, p⟩ : FrameId) ≠ i → (t.files fd).page p = (s.files fd).page p
  frame : ∀ y, (t.frame y).page = (s.frame y).page ∧ (t.frame y).fileDesc = (s.frame y).fileDesc ∧
    (t.frame y).pinCount = (s.frame y).pinCount
  dirty : ∀ y, y ≠ x → (t.frame y).dirty = (s.frame y).dirty
  cache : t.frameLruCache = s.frameLruCache
  free : t.free = s.free
  pools : t.fdBufferPools = s.fdBufferPools
  header : t.headerFrame = s.headerFrame

theorem flushPage_flushed [Inhabited δ] (hpage : (s.frame x).page.pageId = i.pageId)
    (hlt : i.pageId < (s.files i.fileDesc).size) : Flushed s i x (s.flushPage i.fileDesc x) := by
  refine ⟨fun fd => ?_, ?_, fun fd p hp hne => ?_, fun y => ?_, fun y hy => ?_, rfl, rfl, rfl, rfl⟩
  · simp only [flushPage, hpage]
    by_cases he : fd = i.fileDesc
    · subst he
      rw [Function.update_self, PageFile.write_size_of_lt hlt]
    · rw [Function.update_of_ne he]
  · simp only [flushPage, hpage, Function.update_self, PageFile.write_page]
  · simp only [flushPage, hpage]
    by_cases he : fd = i.fileDesc
    · subst he
      rw [Function.update_self]
      refine PageFile.write_page_of_ne hp fun hpp => hne ?_
      rw [hpp]
    · rw [Function.update_of_ne he]
  · simp only [flushPage]
    by_cases he : y = x
    · subst he
      rw [Function.update_self]
      exact ⟨rfl, rfl, rfl⟩
    · rw [Function.update_of_ne he]
      exact ⟨rfl, rfl, rfl⟩
  · simp only [flushPage, Function.update_of_ne hy]

namespace Flushed

theorem page_eq (ht : Flushed s i x t) (h : Sound H s pins stale) (hx : s.frameLruCache.lookup i = some x)
    (hy : s.frameLruCache.lookup i' = some y) (hfresh : stale i' = false) (hdirty : (t.frame y).dirty = false) :
    (t.files i'.fileDesc).page i'.pageId = (s.frame y).page := by
  by_cases he : i' = i
  · subst he
    obtain rfl : x = y := Option.some.inj (hx.symm.trans hy)
    exact ht.written
  · have hyx : y ≠ x := by
      rintro rfl
      exact he (h.inj hy hx)
    rw [ht.dirty y hyx] at hdirty
    rw [ht.others _ _ (h.inFile hy hfresh) he]
    exact h.clean hy hfresh hdirty

/-- Pages that are read from the file are still there. -/
theorem fileBytes_of_ne (ht : Flushed s i x t) (hne : i' ≠ i) : t.fileBytes i' = s.fileBytes i' := by
  unfold fileBytes
  rw [ht.size]
  by_cases hp : i'.pageId < (s.files i'.fileDesc).size
  · rw [if_pos hp, if_pos hp, ht.others _ _ hp hne]
  · rw [if_neg hp, if_neg hp]

theorem content (ht : Flushed s i x t) (hx : s.frameLruCache.lookup i = some x) (hs : stale i = false) :
    t.content stale = s.content stale := by
  funext i'
  unfold GlobalBufferPoolManager.content
  rw [ht.cache]
  cases hy : s.frameLruCache.lookup i' with
  | none =>
    refine ht.fileBytes_of_ne ?_
    rintro rfl
    rw [hx] at hy
    cases hy
  | some y =>
    simp only
    rw [(ht.frame y).1]
    cases hstale : stale i' with
    | true =>
      refine ht.fileBytes_of_ne ?_
      rintro rfl
      rw [hs] at hstale
      cases hstale
    | false => rfl

theorem sound (ht : Flushed s i x t) (h : Sound H s pins stale) (hx : s.frameLruCache.lookup i = some x)
    (hs : stale i = false) : Sound H t pins stale := by
  have hcached {i' : FrameId} {y : Nat} (hy : t.frameLruCache.lookup i' = some y) :
      s.frameLruCache.lookup i' = some y := by
    rwa [ht.cache] at hy
  constructor
  case cached =>
    intro i' y hy
    rw [(ht.frame y).2.1, (ht.frame y).1]
    exact h.cached (hcached hy)
  case inFile =>
    intro i' y hy hfresh
    rw [ht.size]
    exact h.inFile (hcached hy) hfresh
  case clean =>
    intro i' y hy hfresh hdirty
    rw [(ht.frame y).1]
    exact ht.page_eq h hx (hcached hy) hfresh hdirty
  case opened =>
    intro i' y hy hfresh
    rw [ht.pools]
    exact h.opened (hcached hy) hfresh
  case counted =>
    intro i' y hy hfresh
    rw [(ht.frame y).2.2]
    exact h.counted (hcached hy) hfresh
  case idle =>
    intro i' y hy hstale
    have hyx : y ≠ x := by
      rintro rfl
      rw [h.inj (hcached hy) hx, hs] at hstale
      cases hstale
    rw [(ht.frame y).2.2, ht.dirty y hyx]
    exact h.idle (hcached hy) hstale
  case held =>
    intro i' y hpos
    rw [ht.cache]
    exact h.held hpos
  case free =>
    intro y hy i'
    rw [ht.cache]
    rw [ht.free] at hy
    exact h.free y hy i'
  case nodup =>
    rw [ht.free]
    exact h.nodup
  case ids =>
    intro fd hopen p hp
    rw [ht.pools] at hopen
    rw [ht.size] at hp
    by_cases he : (⟨fd, p⟩ : FrameId) = i
    · subst he
      have hwritten := ht.written
      simp only at hwritten
      rw [hwritten]
      exact (h.cached hx).2
    · rw [ht.others fd p hp he]
      exact h.ids hopen p hp
  case header =>
    intro fd hopen
    rw [ht.pools] at hopen
    rw [ht.cache, ht.header]
    exact h.header hopen
  case pages =>
    intro fd hopen
    rw [ht.pools] at hopen
    unfold GlobalBufferPoolManager.fileHeader
    rw [ht.size, ht.header, (ht.frame _).1]
    exact h.pages hopen

end Flushed

namespace Sound

theorem flushPage [Inhabited δ] (h : Sound H s pins stale) (hx : s.frameLruCache.lookup i = some x)
    (hs : stale i = false) : Sound H (s.flushPage i.fileDesc x) pins stale ∧
      (s.flushPage i.fileDesc x).content stale = s.content stale := by
  have ht := flushPage_flushed (h.cached hx).2 (h.inFile hx hs)
  exact ⟨ht.sound h hx hs, ht.content hx hs⟩

/-- A clean frame that nobody has pinned is given back. -/
theorem freeFrame (h : Sound H s pins stale) (hx : s.frameLruCache.lookup i = some x)
    (hpin : (s.frame x).pinCount = 0) (hdirty : (s.frame x).dirty = false) :
    Sound H (s.freeFrame i.fileDesc i.pageId x) pins stale ∧
      (s.freeFrame i.fileDesc i.pageId x).content stale = s.content stale ∧
      (s.freeFrame i.fileDesc i.pageId x).fdBufferPools = s.fdBufferPools ∧
      (s.freeFrame i.fileDesc i.pageId x).files = s.files := by
  have hcount : stale i = false → pins (i, x) + headerPin i = 0 := fun hs => (h.counted hx hs).symm.trans hpin
  have hget : s.getFrame i.fileDesc i.pageId = some x := hx
  have hkeep : ∀ {i' y}, (s.frameLruCache.erase i).lookup i' = some y →
      s.frameLruCache.lookup i' = some y ∧ i' ≠ i := by
    intro i' y hy
    by_cases he : i' = i
    · subst he
      rw [AList.lookup_erase] at hy
      cases hy
    · rw [AList.lookup_erase_ne he] at hy
      exact ⟨hy, he⟩
  rw [GlobalBufferPoolManager.freeFrame, if_pos hget]
  refine ⟨?_, ?_, rfl, rfl⟩
  · constructor
    case cached =>
      intro i' y hy
      exact h.cached (hkeep hy).1
    case inFile =>
      intro i' y hy
      exact h.inFile (hkeep hy).1
    case clean =>
      intro i' y hy
      exact h.clean (hkeep hy).1
    case opened =>
      intro i' y hy
      exact h.opened (hkeep hy).1
    case counted =>
      intro i' y hy
      exact h.counted (hkeep hy).1
    case idle =>
      intro i' y hy
      exact h.idle (hkeep hy).1
    case held =>
      intro i' y hpos
      obtain ⟨hy, hfresh⟩ := h.held hpos
      have hne : i' ≠ i := by
        rintro rfl
        obtain rfl : x = y := Option.some.inj (hx.symm.trans hy)
        have hzero := hcount hfresh
        omega
      exact ⟨(AList.lookup_erase_ne hne).trans hy, hfresh⟩
    case free =>
      intro y hy i' hlook
      obtain ⟨hold, hne⟩ := hkeep hlook
      rcases List.mem_append.mp hy with hy | hy
      · exact h.free y hy i' hold
      · obtain rfl := List.mem_singleton.mp hy
        exact hne (h.inj hold hx)
    case nodup =>
      refine List.nodup_append.mpr ⟨h.nodup, List.nodup_singleton x, ?_⟩
      intro y hy z hz he
      obtain rfl := List.mem_singleton.mp hz
      exact h.free y hy i (he ▸ hx)
    case ids => exact h.ids
    case header =>
      intro fd hopen
      obtain ⟨hhead, hfresh⟩ := h.header hopen
      have hne : (⟨fd, PagePool.headerPage⟩ : FrameId) ≠ i := by
        rintro rfl
        have hzero := hcount hfresh
        simp only [headerPin, if_true] at hzero
        omega
      exact ⟨(AList.lookup_erase_ne hne).trans hhead, hfresh⟩
    case pages => exact h.pages
  · funext i'
    unfold content fileBytes
    simp only
    by_cases he : i' = i
    · subst he
      rw [AList.lookup_erase, hx]
      simp only
      cases hs : stale i' with
      | true => rfl
      | false =>
        rw [if_pos (h.inFile hx hs), h.clean hx hs hdirty]
        rfl
    · rw [AList.lookup_erase_ne he]

end Sound

end GlobalBufferPoolManager

end Idmbs
