import Idmbs.Storage.BufferSound

/-!
# Idmbs.Storage.BufferFrames

Frames are taken for pages and given back, and pages are written behind the cache: what this does to the invariant
and to the pages as a flat array.
-/

namespace Idmbs

variable {δ : Type}

namespace GlobalBufferPoolManager

variable {H : HeaderView δ} {s t : GlobalBufferPoolManager δ} {pins : Pins}
  {stale : FrameId → Bool} {i i' : FrameId} {fd x y n : Nat} {p : PageId} {f : Frame δ} {d : δ}

/-- `t` comes from `s` by throwing out pages. -/
structure Evicted (H : HeaderView δ) (s : GlobalBufferPoolManager δ) (pins : Pins)
    (stale : FrameId → Bool) (t : GlobalBufferPoolManager δ) : Prop where
  sound : Sound H t pins stale
  content : t.content stale = s.content stale
  opened : t.fdBufferPools = s.fdBufferPools
  header : t.headerFrame = s.headerFrame
  sizes : ∀ fd, (t.files fd).size = (s.files fd).size
  closed : ∀ fd, s.fdBufferPools fd = false → t.files fd = s.files fd

/-- `t` is `s` with frame `x` taken for page `i`. -/
structure Reserved (s : GlobalBufferPoolManager δ) (i : FrameId) (x : Nat) (t : GlobalBufferPoolManager δ) :
    Prop where
  absent : s.frameLruCache.lookup i = none
  cache : t.frameLruCache = s.frameLruCache.insert i x
  free : s.free = x :: t.free
  frame : t.frame = s.frame
  files : t.files = s.files
  opened : t.fdBufferPools = s.fdBufferPools
  header : t.headerFrame = s.headerFrame

theorem alloc_reserved (h : s.alloc i.fileDesc i.pageId = some (x, t)) : Reserved s i x t := by
  unfold alloc at h
  cases hget : s.getFrame i.fileDesc i.pageId with
  | some y =>
    rw [hget] at h
    cases h
  | none =>
    rw [hget] at h
    cases hfree : s.free with
    | nil =>
      simp only [hfree] at h
      cases h
    | cons y ys =>
      simp only [hfree, Option.some.injEq, Prod.mk.injEq] at h
      obtain ⟨rfl, rfl⟩ := h
      exact ⟨hget, rfl, hfree, rfl, rfl, rfl, rfl⟩

theorem Evicted.refl (h : Sound H s pins stale) : Evicted H s pins stale s :=
  ⟨h, rfl, rfl, rfl, fun _ => rfl, fun _ _ => rfl⟩

theorem Evicted.trans {u : GlobalBufferPoolManager δ} (h : Evicted H s pins stale t) (h' : Evicted H t pins stale u) :
    Evicted H s pins stale u where
  sound := h'.sound
  content := h'.content.trans h.content
  opened := h'.opened.trans h.opened
  header := h'.header.trans h.header
  sizes := fun fd => (h'.sizes fd).trans (h.sizes fd)
  closed := fun fd hfd => (h'.closed fd (by rw [h.opened]; exact hfd)).trans (h.closed fd hfd)

section Evict

variable [Inhabited δ]

theorem Evicted.flushPage (h : Sound H s pins stale) (hx : s.frameLruCache.lookup i = some x)
    (hs : stale i = false) :
    Evicted H s pins stale (s.flushPage i.fileDesc x) := by
  obtain ⟨hsound, hcontent⟩ := h.flushPage hx hs
  have hpage := (h.cached hx).2
  have hother : ∀ fd, fd ≠ i.fileDesc → (s.flushPage i.fileDesc x).files fd = s.files fd :=
    fun fd hne => Function.update_of_ne hne ..
  refine ⟨hsound, hcontent, rfl, rfl, fun fd => ?_, fun fd hfd => hother fd ?_⟩
  · by_cases he : fd = i.fileDesc
    · subst he
      simp only [GlobalBufferPoolManager.flushPage, hpage, Function.update_self]
      exact PageFile.write_size_of_lt (h.inFile hx hs)
    · rw [hother fd he]
  · rintro rfl
    rw [h.opened hx hs] at hfd
    cases hfd

theorem evict (h : Sound H s pins stale) (hx : s.frameLruCache.lookup i = some x)
    (hpin : (s.frame x).pinCount = 0) :
    ∃ t, (if (s.frame x).dirty then s.flushFrame x else (.success, s)) = (.success, t) ∧
      Evicted H s pins stale (t.freeFrame (t.frame x).fileDesc (t.frame x).page.pageId x) := by
  obtain ⟨hfd, hpage⟩ := h.cached hx
  by_cases hdirty : (s.frame x).dirty = true
  · have hs : stale i = false := by
      cases hs : stale i with
      | false => rfl
      | true =>
        rw [(h.idle hx hs).1] at hdirty
        cases hdirty
    have hflush := Evicted.flushPage h hx hs
    obtain ⟨t, ht⟩ : ∃ t, t = s.flushPage i.fileDesc x := ⟨_, rfl⟩
    have hframe : t.frame x = { s.frame x with dirty := false } := by
      rw [ht]
      exact Function.update_self ..
    have hlook : t.frameLruCache.lookup i = some x := by
      rw [ht]
      exact hx
    rw [← ht] at hflush
    refine ⟨t, ?_, ?_⟩
    · rw [if_pos hdirty, flushFrame, hfd, if_pos (h.opened hx hs), ht]
    · obtain ⟨h1, h2, h3, h4⟩ := hflush.sound.freeFrame hlook (by rw [hframe]; exact hpin)
        (by rw [hframe])
      have hfree := hflush.sound.cached hlook
      rw [hfree.1, hfree.2]
      refine hflush.trans ⟨h1, h2, h3, ?_, fun fd => by rw [h4], fun fd _ => by rw [h4]⟩
      unfold freeFrame
      split <;> rfl
  · have hclean : (s.frame x).dirty = false := eq_false_of_ne_true hdirty
    obtain ⟨h1, h2, h3, h4⟩ := h.freeFrame hx hpin hclean
    refine ⟨s, if_neg hdirty, ?_⟩
    rw [hfd, hpage]
    refine ⟨h1, h2, h3, ?_, fun fd => by rw [h4], fun fd _ => by rw [h4]⟩
    unfold freeFrame
    split <;> rfl

/-- `AllocateFrame`: pages are thrown out, and with success a frame is taken. -/
theorem allocateFrame_spec : ∀ {victims : List FrameId} {s t : GlobalBufferPoolManager δ} {r : Re},
    Sound H s pins stale → s.allocateFrame i.fileDesc i.pageId victims = (r, x, t) →
    (r = .success ∧ ∃ u, Evicted H s pins stale u ∧ Reserved u i x t) ∨
      (r ≠ .success ∧ Evicted H s pins stale t) := by
  intro victims
  induction victims with
  | nil =>
    intro s t r h hrun
    unfold allocateFrame at hrun
    cases halloc : s.alloc i.fileDesc i.pageId with
    | none =>
      rw [halloc] at hrun
      cases hrun
      exact .inr ⟨by decide, .refl h⟩
    | some a =>
      rw [halloc] at hrun
      cases hrun
      exact .inl ⟨rfl, s, .refl h, alloc_reserved halloc⟩
  | cons v victims ih =>
    intro s t r h hrun
    unfold allocateFrame at hrun
    cases halloc : s.alloc i.fileDesc i.pageId with
    | some a =>
      rw [halloc] at hrun
      cases hrun
      exact .inl ⟨rfl, s, .refl h, alloc_reserved halloc⟩
    | none =>
      rw [halloc] at hrun
      cases hget : s.getFrame v.fileDesc v.pageId with
      | none =>
        simp only [hget] at hrun
        cases hrun
        exact .inr ⟨by decide, .refl h⟩
      | some y =>
        simp only [hget] at hrun
        by_cases hpin : (s.frame y).pinCount ≠ 0
        · rw [if_pos hpin] at hrun
          cases hrun
          exact .inr ⟨by decide, .refl h⟩
        · rw [if_neg hpin] at hrun
          obtain ⟨u, hu, hevict⟩ := evict (i := v) h hget (not_not.mp hpin)
          simp only [hu, ne_eq, not_true_eq_false, if_false] at hrun
          rcases ih hevict.sound hrun with ⟨hr, w, hw, hres⟩ | ⟨hr, ht⟩
          · exact .inl ⟨hr, w, hevict.trans hw, hres⟩
          · exact .inr ⟨hr, hevict.trans ht⟩

end Evict

/-- `t` is `s` with a page in frame `x`, which was free. -/
structure Installed (s : GlobalBufferPoolManager δ) (i : FrameId) (x : Nat) (f : Frame δ)
    (t : GlobalBufferPoolManager δ) : Prop where
  absent : s.frameLruCache.lookup i = none
  free : s.free = x :: t.free
  cache : t.frameLruCache = s.frameLruCache.insert i x
  frame : t.frame = Function.update s.frame x f
  files : t.files = s.files

namespace Installed

theorem lookup_self (ht : Installed s i x f t) : t.frameLruCache.lookup i = some x := by
  rw [ht.cache]
  exact AList.lookup_insert _

theorem lookup_of_ne (ht : Installed s i x f t) (hne : i' ≠ i) :
    t.frameLruCache.lookup i' = s.frameLruCache.lookup i' := by
  rw [ht.cache]
  exact AList.lookup_insert_ne hne

theorem frame_self (ht : Installed s i x f t) : t.frame x = f := by
  rw [ht.frame]
  exact Function.update_self ..

theorem frame_cached (ht : Installed s i x f t) (h : Sound H s pins stale)
    (hy : s.frameLruCache.lookup i' = some y) : t.frame y = s.frame y := by
  have hxfree : x ∈ s.free := by
    rw [ht.free]
    exact List.mem_cons_self
  rw [ht.frame]
  refine Function.update_of_ne ?_ ..
  rintro rfl
  exact h.free y hxfree i' hy

/-- A cached page is the new one, or it was cached before, and neither its frame nor its pins have changed. -/
theorem cases (ht : Installed s i x f t) (h : Sound H s pins stale) (hy : t.frameLruCache.lookup i' = some y) :
    i' = i ∧ y = x ∨
      s.frameLruCache.lookup i' = some y ∧ t.frame y = s.frame y ∧
        Function.update pins (i, x) n (i', y) = pins (i', y) ∧ Function.update stale i false i' = stale i' := by
  by_cases he : i' = i
  · subst he
    exact .inl ⟨rfl, Option.some.inj (hy.symm.trans ht.lookup_self)⟩
  · rw [ht.lookup_of_ne he] at hy
    exact .inr ⟨hy, ht.frame_cached h hy, Function.update_of_ne (fun hp => he (congrArg Prod.fst hp)) ..,
      Function.update_of_ne he ..⟩

theorem held (ht : Installed s i x f t) (h : Sound H s pins stale)
    (hpos : 0 < Function.update pins (i, x) n (i', y)) :
    t.frameLruCache.lookup i' = some y ∧ Function.update stale i false i' = false := by
  by_cases he : (i', y) = (i, x)
  · cases he
    exact ⟨ht.lookup_self, Function.update_self ..⟩
  · rw [Function.update_of_ne he] at hpos
    obtain ⟨hy, hs⟩ := h.held hpos
    have hne : i' ≠ i := by
      rintro rfl
      rw [ht.absent] at hy
      cases hy
    rw [ht.lookup_of_ne hne, Function.update_of_ne hne]
    exact ⟨hy, hs⟩

theorem free_absent (ht : Installed s i x f t) (h : Sound H s pins stale) :
    t.free.Nodup ∧ ∀ y ∈ t.free, ∀ i', t.frameLruCache.lookup i' ≠ some y := by
  have hnodup := h.nodup
  rw [ht.free, List.nodup_cons] at hnodup
  refine ⟨hnodup.2, fun y hy i' hlk => ?_⟩
  rcases ht.cases (n := 0) h hlk with ⟨-, rfl⟩ | ⟨hold, -⟩
  · exact hnodup.1 hy
  · refine h.free y ?_ i' hold
    rw [ht.free]
    exact List.mem_cons_of_mem _ hy

/-- The header of a file that was open stays where it is. -/
theorem header (ht : Installed s i x f t) (h : Sound H s pins stale) (hold : s.fdBufferPools fd = true)
    (hhead : t.headerFrame fd = s.headerFrame fd) :
    (t.frameLruCache.lookup ⟨fd, PagePool.headerPage⟩ = some (t.headerFrame fd) ∧
        Function.update stale i false ⟨fd, PagePool.headerPage⟩ = false) ∧
      (t.fileHeader H fd).pagesNum ≤ (t.files fd).size := by
  obtain ⟨hcached, hs⟩ := h.header hold
  have hne : (⟨fd, PagePool.headerPage⟩ : FrameId) ≠ i := by
    rintro rfl
    rw [ht.absent] at hcached
    cases hcached
  constructor
  · rw [ht.lookup_of_ne hne, hhead, Function.update_of_ne hne]
    exact ⟨hcached, hs⟩
  · unfold GlobalBufferPoolManager.fileHeader
    rw [hhead, ht.frame_cached h hcached, ht.files]
    exact h.pages hold

theorem content (ht : Installed s i x f t) (h : Sound H s pins stale) :
    t.content (Function.update stale i false) = Function.update (s.content stale) i (some f.page.pageData) := by
  funext i'
  by_cases he : i' = i
  · subst he
    rw [Function.update_self, Sound.content_cached ht.lookup_self (Function.update_self ..), ht.frame_self]
  · rw [Function.update_of_ne he]
    unfold GlobalBufferPoolManager.content fileBytes
    rw [ht.lookup_of_ne he, ht.files, Function.update_of_ne he]
    cases hy : s.frameLruCache.lookup i' with
    | none => rfl
    | some y =>
      simp only
      rw [ht.frame_cached h hy]

end Installed

namespace Sound

/-- The order of the free frames and what is in them do not matter. -/
theorem congr (h : Sound H s pins stale) (hlook : ∀ i, t.frameLruCache.lookup i = s.frameLruCache.lookup i)
    (hframe : ∀ i y, s.frameLruCache.lookup i = some y → t.frame y = s.frame y)
    (hfree : t.free.Perm s.free) (hfiles : t.files = s.files) (hopen : t.fdBufferPools = s.fdBufferPools)
    (hheader : t.headerFrame = s.headerFrame) : Sound H t pins stale ∧ t.content stale = s.content stale := by
  constructor
  · constructor
    case cached =>
      intro i y hy
      rw [hlook] at hy
      rw [hframe i y hy]
      exact h.cached hy
    case inFile =>
      intro i y hy hs
      rw [hlook] at hy
      rw [hfiles]
      exact h.inFile hy hs
    case clean =>
      intro i y hy hs hdirty
      rw [hlook] at hy
      rw [hframe i y hy] at hdirty ⊢
      rw [hfiles]
      exact h.clean hy hs hdirty
    case opened =>
      intro i y hy hs
      rw [hlook] at hy
      rw [hopen]
      exact h.opened hy hs
    case counted =>
      intro i y hy hs
      rw [hlook] at hy
      rw [hframe i y hy]
      exact h.counted hy hs
    case idle =>
      intro i y hy hs
      rw [hlook] at hy
      rw [hframe i y hy]
      exact h.idle hy hs
    case held =>
      intro i y hpos
      rw [hlook]
      exact h.held hpos
    case free =>
      intro y hy i
      rw [hlook]
      exact h.free y (hfree.mem_iff.mp hy) i
    case nodup => exact hfree.nodup_iff.mpr h.nodup
    case ids =>
      intro fd hfd
      rw [hopen] at hfd
      rw [hfiles]
      exact h.ids hfd
    case header =>
      intro fd hfd
      rw [hopen] at hfd
      rw [hlook, hheader]
      exact h.header hfd
    case pages =>
      intro fd hfd
      rw [hopen] at hfd
      unfold GlobalBufferPoolManager.fileHeader
      rw [hheader, hframe _ _ (h.header hfd).1, hfiles]
      exact h.pages hfd
  · funext i
    unfold content fileBytes
    rw [hlook, hfiles]
    cases hy : s.frameLruCache.lookup i with
    | none => rfl
    | some y =>
      simp only
      rw [hframe i y hy]

/-- A frame that was free is filled with a page, maybe the header of a file that is opened now. -/
theorem install (h : Sound H s pins stale) (ht : Installed s i x f t) (hopen : t.fdBufferPools i.fileDesc = true)
    (hpools : ∀ fd, t.fdBufferPools fd = true →
      s.fdBufferPools fd = true ∧ t.headerFrame fd = s.headerFrame fd ∨
        i = ⟨fd, PagePool.headerPage⟩ ∧ t.headerFrame fd = x ∧
          (∀ p < (s.files fd).size, ((s.files fd).page p).pageId = p) ∧
          (H.fileHeader f.page.pageData).pagesNum ≤ (s.files fd).size)
    (hmono : ∀ fd, s.fdBufferPools fd = true → t.fdBufferPools fd = true)
    (hfd : f.fileDesc = i.fileDesc) (hp : f.page.pageId = i.pageId)
    (hin : i.pageId < (s.files i.fileDesc).size)
    (hclean : f.dirty = false → (s.files i.fileDesc).page i.pageId = f.page)
    (hpins : f.pinCount = n + headerPin i) :
    Sound H t (Function.update pins (i, x) n) (Function.update stale i false) := by
  constructor
  case cached =>
    intro i' y hy
    rcases ht.cases (n := n) h hy with ⟨rfl, rfl⟩ | ⟨hy, hf, -⟩
    · rw [ht.frame_self]
      exact ⟨hfd, hp⟩
    · rw [hf]
      exact h.cached hy
  case inFile =>
    intro i' y hy hs
    rw [ht.files]
    rcases ht.cases (n := n) h hy with ⟨rfl, rfl⟩ | ⟨hy, -, -, hstale⟩
    · exact hin
    · rw [hstale] at hs
      exact h.inFile hy hs
  case clean =>
    intro i' y hy hs hdirty
    rw [ht.files]
    rcases ht.cases (n := n) h hy with ⟨rfl, rfl⟩ | ⟨hy, hf, -, hstale⟩
    · rw [ht.frame_self] at hdirty ⊢
      exact hclean hdirty
    · rw [hstale] at hs
      rw [hf] at hdirty ⊢
      exact h.clean hy hs hdirty
  case opened =>
    intro i' y hy hs
    rcases ht.cases (n := n) h hy with ⟨rfl, rfl⟩ | ⟨hy, -, -, hstale⟩
    · exact hopen
    · rw [hstale] at hs
      exact hmono _ (h.opened hy hs)
  case counted =>
    intro i' y hy hs
    rcases ht.cases (n := n) h hy with ⟨rfl, rfl⟩ | ⟨hy, hf, hcount, hstale⟩
    · rw [ht.frame_self, Function.update_self]
      exact hpins
    · rw [hstale] at hs
      rw [hf, hcount]
      exact h.counted hy hs
  case idle =>
    intro i' y hy hs
    rcases ht.cases (n := n) h hy with ⟨rfl, rfl⟩ | ⟨hy, hf, -, hstale⟩
    · rw [Function.update_self] at hs
      cases hs
    · rw [hstale] at hs
      rw [hf]
      exact h.idle hy hs
  case held => exact ht.held h
  case free => exact (ht.free_absent h).2
  case nodup => exact (ht.free_absent h).1
  case ids =>
    intro fd hfd'
    rw [ht.files]
    rcases hpools fd hfd' with ⟨hold, -⟩ | ⟨-, -, hids, -⟩
    · exact h.ids hold
    · exact hids
  case header =>
    intro fd hfd'
    rcases hpools fd hfd' with ⟨hold, hhead⟩ | ⟨he, hhead, -, -⟩
    · exact (ht.header h hold hhead).1
    · rw [hhead, ← he]
      exact ⟨ht.lookup_self, Function.update_self ..⟩
  case pages =>
    intro fd hfd'
    rcases hpools fd hfd' with ⟨hold, hhead⟩ | ⟨-, hhead, -, hpages⟩
    · exact (ht.header h hold hhead).2
    · unfold GlobalBufferPoolManager.fileHeader
      rw [ht.files, hhead, ht.frame_self]
      exact hpages

/-- A page that is not cached is written to the file, maybe as a new last page. -/
theorem written [Inhabited δ] (h : Sound H s pins stale) (habsent : s.frameLruCache.lookup i = none)
    (hle : i.pageId ≤ (s.files i.fileDesc).size) :
    Sound H (s.written i d) pins stale ∧
      (s.written i d).content stale = Function.update (s.content stale) i (some d) := by
  obtain ⟨fs, hfs⟩ : ∃ fs, fs = Function.update s.files i.fileDesc
    ((s.files i.fileDesc).write i.pageId ⟨i.pageId, d⟩) := ⟨_, rfl⟩
  unfold GlobalBufferPoolManager.written
  rw [← hfs]
  have hself : i.pageId < (fs i.fileDesc).size ∧ (fs i.fileDesc).page i.pageId = ⟨i.pageId, d⟩ := by
    rw [hfs, Function.update_self, PageFile.write_size, PageFile.write_page]
    exact ⟨lt_of_lt_of_le (Nat.lt_succ_self _) (le_max_right _ _), rfl⟩
  have hsize : ∀ fd p, (⟨fd, p⟩ : FrameId) ≠ i → (p < (fs fd).size ↔ p < (s.files fd).size) := by
    intro fd p hne
    rw [hfs]
    by_cases he : fd = i.fileDesc
    · subst he
      rw [Function.update_self, PageFile.write_size]
      have hp : p ≠ i.pageId := fun hp => hne (by rw [hp])
      constructor
      · intro hlt
        rcases lt_max_iff.mp hlt with hlt | hlt
        · exact hlt
        · exact lt_of_lt_of_le (lt_of_le_of_ne (Nat.lt_succ_iff.mp hlt) hp) hle
      · exact fun hlt => lt_of_lt_of_le hlt (le_max_left _ _)
    · rw [Function.update_of_ne he]
  have hother : ∀ fd p, p < (s.files fd).size → (⟨fd, p⟩ : FrameId) ≠ i →
      (fs fd).page p = (s.files fd).page p := by
    intro fd p hp hne
    rw [hfs]
    by_cases he : fd = i.fileDesc
    · subst he
      rw [Function.update_self]
      refine PageFile.write_page_of_ne hp fun hpp => hne ?_
      rw [hpp]
    · rw [Function.update_of_ne he]
  have hmono : ∀ fd, (s.files fd).size ≤ (fs fd).size := by
    intro fd
    rw [hfs]
    by_cases he : fd = i.fileDesc
    · subst he
      rw [Function.update_self]
      exact le_max_left _ _
    · rw [Function.update_of_ne he]
  have hne : ∀ {i' y}, s.frameLruCache.lookup i' = some y → i' ≠ i := by
    rintro i' y hy rfl
    rw [habsent] at hy
    cases hy
  constructor
  · refine ⟨h.cached, ?_, ?_, h.opened, h.counted, h.idle, h.held, h.free, h.nodup, ?_, h.header, ?_⟩
    · intro i' y hy hs
      exact (hsize _ _ (hne hy)).mpr (h.inFile hy hs)
    · intro i' y hy hs hdirty
      exact (hother _ _ (h.inFile hy hs) (hne hy)).trans (h.clean hy hs hdirty)
    · intro fd hopen p hp
      by_cases he : (⟨fd, p⟩ : FrameId) = i
      · subst he
        exact congrArg Page.pageId hself.2
      · have hp' := (hsize fd p he).mp hp
        exact (congrArg Page.pageId (hother fd p hp' he)).trans (h.ids hopen p hp')
    · intro fd hopen
      exact le_trans (h.pages hopen) (hmono fd)
  · have hbytes : ∀ i', i' ≠ i →
        fileBytes { s with files := fs } i' = s.fileBytes i' := by
      intro i' he
      unfold fileBytes
      simp only
      by_cases hp : i'.pageId < (s.files i'.fileDesc).size
      · rw [if_pos hp, if_pos ((hsize _ _ he).mpr hp), hother _ _ hp he]
      · rw [if_neg hp, if_neg (mt (hsize _ _ he).mp hp)]
    funext i'
    unfold content
    simp only
    by_cases he : i' = i
    · subst he
      rw [Function.update_self, habsent]
      simp only [fileBytes]
      rw [if_pos hself.1, hself.2]
    · rw [Function.update_of_ne he, hbytes i' he]

end Sound

end GlobalBufferPoolManager

end Idmbs
