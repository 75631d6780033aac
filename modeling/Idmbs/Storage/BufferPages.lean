import Idmbs.Storage.BufferFrames

/-!
# Idmbs.Storage.BufferPages

What every call on the pages of an open file preserves, and what it does to the pages as a flat array.
-/

namespace Idmbs

variable {δ : Type}

namespace GlobalBufferPoolManager

variable {H : HeaderView δ} {s t : GlobalBufferPoolManager δ} {pins : Pins}
  {stale : FrameId → Bool} {i i' : FrameId} {fd x y n : Nat} {p : PageId} {f : Frame δ} {d : δ}

section Calls

variable [Inhabited δ] {victims : List FrameId} {r : Re}

/-- `t` is `s` with the frame that is first in the free list made the frame of page `i`. -/
structure Fetched (H : HeaderView δ) (s : GlobalBufferPoolManager δ) (pins : Pins)
    (stale : FrameId → Bool) (i : FrameId) (x : Nat) (u t : GlobalBufferPoolManager δ) : Prop where
  evicted : Evicted H s pins stale u
  absent : u.frameLruCache.lookup i = none
  free : u.free = x :: t.free
  cache : t.frameLruCache = u.frameLruCache.insert i x
  frame : t.frame = Function.update u.frame x ⟨false, 1, i.fileDesc, (u.files i.fileDesc).page i.pageId⟩
  files : t.files = u.files
  opened : t.fdBufferPools = u.fdBufferPools
  header : t.headerFrame = u.headerFrame
  inFile : i.pageId < (u.files i.fileDesc).size

/-- A frame that was taken for a page is given back. -/
theorem purgeFrame_spec (h : Sound H s pins stale) (hr : Reserved s i x t) (hdirty : f.dirty = false) :
    Evicted H s pins stale ((t.setFrame x f).purgeFrame i.fileDesc i.pageId x) := by
  have hself : (t.setFrame x f).frame x = f := Function.update_self ..
  have hget : (t.setFrame x f).getFrame i.fileDesc i.pageId = some x := by
    unfold getFrame
    simp only [GlobalBufferPoolManager.setFrame, hr.cache]
    exact AList.lookup_insert _
  have hclean : ¬((t.setFrame x f).frame x).dirty = true := by
    rw [hself, hdirty]
    decide
  have hpurge : (t.setFrame x f).purgeFrame i.fileDesc i.pageId x =
      { t.setFrame x f with frameLruCache := t.frameLruCache.erase i, free := t.free ++ [x] } := by
    rw [purgeFrame, if_neg hclean, freeFrame, if_pos hget]
    rfl
  have hxfree : x ∈ s.free := by
    rw [hr.free]
    exact List.mem_cons_self
  have hlook : ∀ i', (t.frameLruCache.erase i).lookup i' = s.frameLruCache.lookup i' := by
    intro i'
    by_cases he : i' = i
    · subst he
      rw [AList.lookup_erase, hr.absent]
    · rw [AList.lookup_erase_ne he, hr.cache, AList.lookup_insert_ne he]
  have hframe : ∀ i' y, s.frameLruCache.lookup i' = some y → (t.setFrame x f).frame y = s.frame y := by
    intro i' y hy
    have hne : y ≠ x := by
      rintro rfl
      exact h.free y hxfree i' hy
    rw [← hr.frame]
    exact Function.update_of_ne hne ..
  have hperm : (t.free ++ [x]).Perm s.free := by
    rw [hr.free]
    exact List.perm_append_singleton x t.free
  rw [hpurge]
  obtain ⟨hsound, hcontent⟩ := h.congr
    (t := { t.setFrame x f with frameLruCache := t.frameLruCache.erase i, free := t.free ++ [x] })
    hlook hframe hperm hr.files hr.opened hr.header
  have hfiles : (t.setFrame x f).files = s.files := hr.files
  exact ⟨hsound, hcontent, hr.opened, hr.header, fun fd => by rw [hfiles], fun fd _ => by rw [hfiles]⟩

/-- A page that is not cached is loaded; a page the file does not have leaves things as they were. -/
theorem fetchPage_spec (h : Sound H s pins stale)
    (hrun : s.fetchPage i.fileDesc i.pageId victims = (r, x, t)) :
    (r = .success ∧ ∃ u, Fetched H s pins stale i x u t) ∨ (r ≠ .success ∧ Evicted H s pins stale t) := by
  unfold fetchPage at hrun
  obtain ⟨⟨r1, x1, s1⟩, hres⟩ : ∃ a, s.allocateFrame i.fileDesc i.pageId victims = a := ⟨_, rfl⟩
  simp only [hres] at hrun
  rcases allocateFrame_spec h hres with ⟨rfl, u, hu, hr⟩ | ⟨hne, hs1⟩
  · obtain ⟨s2, hs2⟩ : ∃ s2, s2 = s1.setFrame x1
      { s1.frame x1 with dirty := false, fileDesc := i.fileDesc, pinCount := 1 } := ⟨_, rfl⟩
    have hfiles : s2.files = u.files := by rw [hs2, ← hr.files]; rfl
    have hx1 : s2.frame x1 = ⟨false, 1, i.fileDesc, (s1.frame x1).page⟩ := by
      rw [hs2]
      exact Function.update_self ..
    simp only [ne_eq, not_true_eq_false, if_false, ← hs2] at hrun
    by_cases hin : i.pageId < (u.files i.fileDesc).size
    · have hload : s2.loadPage i.fileDesc i.pageId x1 = (.success, s2.setFrame x1
          { s2.frame x1 with page := (s2.files i.fileDesc).page i.pageId }) :=
        if_pos (by rwa [hfiles])
      simp only [hload, not_true_eq_false, if_false] at hrun
      cases hrun
      refine .inl ⟨rfl, u, hu, hr.absent, ?_, ?_, ?_, hfiles, ?_, ?_, hin⟩
      · rw [hr.free, hs2]
        rfl
      · rw [← hr.cache, hs2]
        rfl
      · rw [hx1, hfiles]
        simp only [GlobalBufferPoolManager.setFrame, hs2, Function.update_idem, hr.frame]
      · rw [← hr.opened, hs2]
        rfl
      · rw [← hr.header, hs2]
        rfl
    · have hload : s2.loadPage i.fileDesc i.pageId x1 = (.ioErrRead, s2) := if_neg (by rwa [hfiles])
      simp only [hload, reduceCtorEq, not_false_eq_true, if_true] at hrun
      cases hrun
      have hset : s2.setFrame x1 { s2.frame x1 with pinCount := 0 } =
          s1.setFrame x1 { s2.frame x1 with pinCount := 0 } := by
        simp only [GlobalBufferPoolManager.setFrame, hs2, Function.update_idem]
      rw [hset, hx1]
      exact .inr ⟨by decide, hu.trans (purgeFrame_spec hu.sound hr rfl)⟩
  · rw [if_pos hne] at hrun
    cases hrun
    exact .inr ⟨hne, hs1⟩

omit [Inhabited δ] in
/-- What was fetched is a page like the others, when its file is open or is opened with it. -/
theorem Fetched.sound {u : GlobalBufferPoolManager δ} (h : Fetched H s pins stale i x u t)
    (hcount : n + headerPin i = 1) (b : Nat → Bool) (hf : Nat → Nat) (hb : b i.fileDesc = true)
    (hpools : ∀ fd, b fd = true → u.fdBufferPools fd = true ∧ hf fd = u.headerFrame fd ∨
      i = ⟨fd, PagePool.headerPage⟩ ∧ hf fd = x ∧ u.fdBufferPools fd = false)
    (hmono : ∀ fd, u.fdBufferPools fd = true → b fd = true)
    (hfile : u.fdBufferPools i.fileDesc = false → (u.files i.fileDesc).WellFormed H) :
    Sound H { t with fdBufferPools := b, headerFrame := hf } (Function.update pins (i, x) n)
        (Function.update stale i false) ∧
      content { t with fdBufferPools := b, headerFrame := hf } (Function.update stale i false) =
        s.content stale := by
  have hids : ((u.files i.fileDesc).page i.pageId).pageId = i.pageId := by
    cases hopen : u.fdBufferPools i.fileDesc with
    | true => exact h.evicted.sound.ids hopen _ h.inFile
    | false => exact (hfile hopen).ids _ h.inFile
  have hinstalled : Installed u i x _ { t with fdBufferPools := b, headerFrame := hf } :=
    ⟨h.absent, h.free, h.cache, h.frame, h.files⟩
  have hsound := h.evicted.sound.install hinstalled hb
    (fun fd hfd => (hpools fd hfd).imp_right fun ⟨he, hx, hclosed⟩ => by
      subst he
      exact ⟨rfl, hx, (hfile hclosed).ids, (hfile hclosed).pages⟩)
    hmono rfl hids h.inFile (fun _ => rfl) hcount.symm
  refine ⟨hsound, ?_⟩
  rw [hinstalled.content h.evicted.sound, ← h.evicted.content]
  have hold : u.content stale i = some ((u.files i.fileDesc).page i.pageId).pageData := by
    simp only [content, fileBytes, h.absent, if_pos h.inFile]
  rw [← hold, Function.update_eq_self]

/-- `GetPage`, when it does not find a frame that is left over. -/
theorem getPage_spec (h : Sound H s pins stale) (hopen : s.fdBufferPools i.fileDesc = true)
    (hfresh : ∀ y, s.frameLruCache.lookup i = some y → stale i = false)
    (hrun : s.getPage i.fileDesc i.pageId victims = (r, x, t)) :
    t.fdBufferPools = s.fdBufferPools ∧
      (r = .success ∧ t.frameLruCache.lookup i = some x ∧
          Sound H t (Function.update pins (i, x) (pins (i, x) + 1)) (Function.update stale i false) ∧
          t.content (Function.update stale i false) = s.content stale ∨
        r ≠ .success ∧ Sound H t pins stale ∧ t.content stale = s.content stale) := by
  have hhead : ∀ {y}, i.pageId = PagePool.headerPage → s.frameLruCache.lookup i = some y →
      s.headerFrame i.fileDesc = y := by
    intro y hp hy
    have he : i = ⟨i.fileDesc, PagePool.headerPage⟩ := by rw [← hp]
    rw [he, (h.header hopen).1] at hy
    exact Option.some.inj hy
  unfold getPage at hrun
  cases hget : s.getFrame i.fileDesc i.pageId with
  | some y =>
    rw [hget] at hrun
    cases hrun
    have hx : s.frameLruCache.lookup i = some x := hget
    have hs := hfresh x hx
    have hdata := h.cached hx
    have hsame : Function.update stale i false = stale := by rw [← hs, Function.update_eq_self]
    obtain ⟨hsound, hcontent⟩ := h.setFrame (n := pins (i, x) + 1)
      (f := { s.frame x with pinCount := (s.frame x).pinCount + 1 }) hx hs hdata.1 hdata.2 (h.clean hx hs)
      (by simp only [h.counted hx hs]; omega) (fun hp => by
        have hpages := h.pages hopen
        rw [GlobalBufferPoolManager.fileHeader, hhead hp hx] at hpages
        exact hpages)
    rw [hsame]
    refine ⟨rfl, .inl ⟨rfl, hx, hsound, ?_⟩⟩
    rw [hcontent, ← Sound.content_cached hx hs, Function.update_eq_self]
  | none =>
    rw [hget] at hrun
    have habsent : s.frameLruCache.lookup i = none := hget
    rcases fetchPage_spec h hrun with ⟨rfl, u, hu⟩ | ⟨hr, ht⟩
    · have hpool : u.fdBufferPools = s.fdBufferPools := hu.evicted.opened
      have hzero : pins (i, x) = 0 := by
        by_contra hne
        rw [(h.held (Nat.pos_of_ne_zero hne)).1] at habsent
        cases habsent
      have hpin : headerPin i = 0 := by
        refine if_neg fun hp => ?_
        have he : i = ⟨i.fileDesc, PagePool.headerPage⟩ := by rw [← hp]
        rw [he, (h.header hopen).1] at habsent
        cases habsent
      obtain ⟨hsound, hcontent⟩ := hu.sound (n := 1) (by rw [hpin]) u.fdBufferPools u.headerFrame
        (by rw [hpool]; exact hopen) (fun fd hfd => .inl ⟨hfd, rfl⟩) (fun fd hfd => hfd)
        (fun hclosed => by rw [hpool, hopen] at hclosed; cases hclosed)
      have ht : ({ t with fdBufferPools := u.fdBufferPools, headerFrame := u.headerFrame } :
          GlobalBufferPoolManager δ) = t := by
        rw [← hu.opened, ← hu.header]
      rw [ht] at hsound hcontent
      refine ⟨hu.opened.trans hpool, .inl ⟨rfl, ?_, by rw [hzero]; exact hsound, hcontent⟩⟩
      rw [hu.cache]
      exact AList.lookup_insert _
    · exact ⟨ht.opened, .inr ⟨hr, ht.sound, ht.content⟩⟩

omit [Inhabited δ] in
theorem writePage_spec (h : Sound H s pins stale) (hx : s.frameLruCache.lookup i = some x)
    (hs : stale i = false)
    (hheader : i.pageId = PagePool.headerPage →
      (H.fileHeader d).pagesNum ≤ (s.files i.fileDesc).size) :
    Sound H (s.writePage x d) pins stale ∧
      (s.writePage x d).content stale = Function.update (s.content stale) i (some d) := by
  obtain ⟨hfd, hp⟩ := h.cached hx
  obtain ⟨hsound, hcontent⟩ := h.setFrame (n := pins (i, x))
    (f := { s.frame x with dirty := true, page := ⟨(s.frame x).page.pageId, d⟩ }) hx hs hfd hp nofun
    (h.counted hx hs) hheader
  rw [Function.update_eq_self] at hsound
  exact ⟨hsound, hcontent⟩

omit [Inhabited δ] in
theorem unpinPage_spec (h : Sound H s pins stale) (hpin : 0 < pins (i, x)) :
    Sound H (s.unpinPage x) (Function.update pins (i, x) (pins (i, x) - 1)) stale ∧
      (s.unpinPage x).content stale = s.content stale := by
  obtain ⟨hx, hs⟩ := h.held hpin
  obtain ⟨hfd, hp⟩ := h.cached hx
  obtain ⟨hsound, hcontent⟩ := h.setFrame (n := pins (i, x) - 1)
    (f := { s.frame x with pinCount := (s.frame x).pinCount - 1 }) hx hs hfd hp (h.clean hx hs)
    (by simp only [h.counted hx hs]; omega) (fun hp => by
      have he : i = ⟨i.fileDesc, PagePool.headerPage⟩ := by rw [← hp]
      have hopen := h.opened hx hs
      rw [he, (h.header hopen).1] at hx
      cases hx
      exact h.pages hopen)
  refine ⟨hsound, ?_⟩
  rw [← Function.update_eq_self i (s.content stale), Sound.content_cached hx hs]
  exact hcontent

/-- Frames of one file are written one after the other. -/
theorem Evicted.foldl {step : GlobalBufferPoolManager δ → FrameId → GlobalBufferPoolManager δ}
    (hnone : ∀ t i, s.frameLruCache.lookup i = none → step t i = t)
    (hsome : ∀ t i x, s.frameLruCache.lookup i = some x → step t i = t.flushPage fd x)
    (hfresh : ∀ i, i.fileDesc = fd → stale i = false) {ids : List FrameId} (hids : ∀ i ∈ ids, i.fileDesc = fd)
    (hcache : t.frameLruCache = s.frameLruCache) (ht : Evicted H s pins stale t) :
    Evicted H s pins stale (ids.foldl step t) := by
  induction ids generalizing t with
  | nil => exact ht
  | cons i ids ih =>
    rw [List.foldl_cons]
    have hrest : ∀ i' ∈ ids, i'.fileDesc = fd := fun i' hid => hids i' (List.mem_cons_of_mem _ hid)
    cases hx : s.frameLruCache.lookup i with
    | none =>
      rw [hnone t i hx]
      exact ih hrest hcache ht
    | some x =>
      rw [hsome t i x hx]
      obtain rfl := hids i List.mem_cons_self
      have hflush := Evicted.flushPage (i := i) ht.sound (by rw [hcache]; exact hx) (hfresh i rfl)
      exact ih hrest hcache (ht.trans hflush)

theorem flushAllPages_spec (h : Sound H s pins stale) (hfresh : ∀ i, i.fileDesc = fd → stale i = false) :
    Evicted H s pins stale (s.flushAllPages fd) := by
  refine Evicted.foldl (fun t i hx => ?_) (fun t i x hx => ?_) hfresh (fun i hid => ?_) rfl (.refl h)
  · simp only [hx]
  · simp only [hx]
  · exact of_decide_eq_true (List.mem_filter.mp hid).2

/-- What `AllocatePage` with the result `r` does to the pages of a flat array. -/
def allocated (H : HeaderView δ) (A : FrameId → Option δ) (fd : Nat) (r : Re) : FrameId → Option δ :=
  match A ⟨fd, PagePool.headerPage⟩ with
  | none => A
  | some d =>
    match firstFree (H.fileHeader d) with
    | some q =>
      Function.update A ⟨fd, PagePool.headerPage⟩
        (some (H.setFileHeader (reuse (H.fileHeader d) q) d))
    | none =>
      if r = .success then
        Function.update
          (Function.update A ⟨fd, PagePool.headerPage⟩ (some (H.setFileHeader (extend (H.fileHeader d)) d)))
          ⟨fd, (H.fileHeader d).pagesNum⟩ (some default)
      else A

/-- The way of `AllocatePage` that adds a page to the file. -/
theorem extend_spec (h : Sound H s pins stale) (hopen : s.fdBufferPools fd = true)
    (hr : Reserved s ⟨fd, (s.fileHeader H fd).pagesNum⟩ x t) {u v w : GlobalBufferPoolManager δ}
    (hu : u = t.setFileHeader H fd (extend (t.fileHeader H fd)))
    (hv : v = u.setFrame x ⟨false, 1, fd, ⟨(u.fileHeader H fd).pagesNum - 1, default⟩⟩)
    (hw : w = v.flushPage fd x) :
    Sound H w (Function.update pins (⟨fd, (w.frame x).page.pageId⟩, x)
        (pins (⟨fd, (w.frame x).page.pageId⟩, x) + 1))
        (Function.update stale ⟨fd, (w.frame x).page.pageId⟩ false) ∧
      w.fdBufferPools = s.fdBufferPools ∧
      w.content (Function.update stale ⟨fd, (w.frame x).page.pageId⟩ false) = Function.update
        (Function.update (s.content stale) ⟨fd, PagePool.headerPage⟩
          (some (H.setFileHeader (extend (s.fileHeader H fd)) (s.frame (s.headerFrame fd)).page.pageData)))
        ⟨fd, (s.fileHeader H fd).pagesNum⟩ (some default) := by
  obtain ⟨hhead, hheads⟩ := h.header hopen
  obtain ⟨p, hp⟩ : ∃ p, p = (s.fileHeader H fd).pagesNum := ⟨_, rfl⟩
  obtain ⟨d, hd⟩ : ∃ d, d = H.setFileHeader (extend (s.fileHeader H fd))
    (s.frame (s.headerFrame fd)).page.pageData := ⟨_, rfl⟩
  rw [← hp] at hr ⊢
  rw [← hd]
  have hth : t.fileHeader H fd = s.fileHeader H fd := by
    unfold GlobalBufferPoolManager.fileHeader
    rw [hr.frame, hr.header]
  have hdp : (H.fileHeader d).pagesNum = p + 1 := by
    rw [hd, H.pagesNum_set, hp]
    rfl
  -- the same pool, with the file made longer first
  have hle : p ≤ (s.files fd).size := by
    rw [hp]
    exact h.pages hopen
  obtain ⟨hs1, hc1⟩ := h.written (i := ⟨fd, p⟩) (d := default) hr.absent hle
  have hlonger : p + 1 ≤ ((s.written ⟨fd, p⟩ default).files fd).size := by
    simp only [GlobalBufferPoolManager.written, Function.update_self, PageFile.write_size]
    exact le_max_right _ _
  obtain ⟨hs2, hc2⟩ := writePage_spec (s := s.written ⟨fd, p⟩ default) (x := s.headerFrame fd) (d := d)
    (i := ⟨fd, PagePool.headerPage⟩) hs1 hhead hheads (fun _ => by rw [hdp]; exact hlonger)
  have huframe : u.frame = ((s.written ⟨fd, p⟩ default).writePage (s.headerFrame fd) d).frame := by
    rw [hu, setFileHeader, hth]
    simp only [GlobalBufferPoolManager.writePage, GlobalBufferPoolManager.setFrame,
      GlobalBufferPoolManager.written, hr.frame, hr.header, hd]
  have huhead : u.headerFrame = s.headerFrame := by
    rw [hu, ← hr.header]
    rfl
  have hup : (u.fileHeader H fd).pagesNum = p + 1 := by
    unfold GlobalBufferPoolManager.fileHeader
    rw [huframe, huhead, ← hdp]
    simp only [GlobalBufferPoolManager.writePage, GlobalBufferPoolManager.setFrame, Function.update_self]
  have hvframe : v.frame = Function.update u.frame x ⟨false, 1, fd, ⟨p, default⟩⟩ := by
    rw [hv, hup, Nat.add_sub_cancel]
    rfl
  have hvx : v.frame x = ⟨false, 1, fd, ⟨p, default⟩⟩ := by
    rw [hvframe]
    exact Function.update_self ..
  have hvfiles : v.files = s.files := by
    rw [hv, hu, ← hr.files]
    rfl
  have hwframe : w.frame = Function.update ((s.written ⟨fd, p⟩ default).writePage (s.headerFrame fd) d).frame
      x ⟨false, 1, fd, ⟨p, default⟩⟩ := by
    rw [hw]
    simp only [GlobalBufferPoolManager.flushPage, hvx]
    rw [hvframe, Function.update_idem, huframe]
  have hwfiles : w.files = ((s.written ⟨fd, p⟩ default).writePage (s.headerFrame fd) d).files := by
    rw [hw]
    simp only [GlobalBufferPoolManager.flushPage, hvx, hvfiles]
    rfl
  have hwopen : w.fdBufferPools = s.fdBufferPools := by
    rw [hw, hv, hu, ← hr.opened]
    rfl
  have hwhead : w.headerFrame = s.headerFrame := by
    rw [hw, hv, ← huhead]
    rfl
  have hwfree : s.free = x :: w.free := by
    rw [hw, hv, hu]
    exact hr.free
  have hwcache : w.frameLruCache = s.frameLruCache.insert ⟨fd, p⟩ x := by
    rw [hw, hv, hu]
    exact hr.cache
  have hpne : (⟨fd, p⟩ : FrameId) ≠ ⟨fd, PagePool.headerPage⟩ := by
    intro he
    have habsent := hr.absent
    rw [he, hhead] at habsent
    cases habsent
  have hp0 : headerPin ⟨fd, p⟩ = 0 :=
    if_neg fun h0 => hpne (congrArg (FrameId.mk fd) h0)
  have hzero : pins (⟨fd, p⟩, x) = 0 := by
    by_contra hne
    have hlook := h.held (Nat.pos_of_ne_zero hne)
    rw [hr.absent] at hlook
    cases hlook.1
  have hdisk : ((s.written ⟨fd, p⟩ default).files fd).page p = ⟨p, default⟩ := by
    simp only [GlobalBufferPoolManager.written, Function.update_self, PageFile.write_page]
  have hinstalled : Installed ((s.written ⟨fd, p⟩ default).writePage (s.headerFrame fd) d) ⟨fd, p⟩ x
      ⟨false, 1, fd, ⟨p, default⟩⟩ w :=
    ⟨hr.absent, hwfree, hwcache, hwframe, hwfiles⟩
  have hc3 := hinstalled.content hs2
  have hs3 := hs2.install (n := 1) hinstalled (by rw [hwopen]; exact hopen)
    (fun fd' hfd => .inl ⟨by rw [hwopen] at hfd; exact hfd, by rw [hwhead]; rfl⟩)
    (fun fd' hfd => by rw [hwopen]; exact hfd) rfl rfl hlonger (fun _ => hdisk) (by rw [hp0])
  have hwp : (w.frame x).page.pageId = p := by rw [hwframe, Function.update_self]
  refine ⟨?_, hwopen, ?_⟩
  · rw [hwp, hzero]
    exact hs3
  · rw [hwp, hc3, hc2, hc1, Function.update_comm hpne, Function.update_idem]

/-- `AllocatePage`, when the page it uses again has no frame that is left over. -/
theorem allocatePage_spec (h : Sound H s pins stale) (hopen : s.fdBufferPools fd = true)
    (hfresh : ∀ q y, firstFree (s.fileHeader H fd) = some q → s.frameLruCache.lookup ⟨fd, q⟩ = some y →
      stale ⟨fd, q⟩ = false)
    (hrun : s.allocatePage H fd victims = (r, x, t)) :
    t.fdBufferPools = s.fdBufferPools ∧
      (r = .success ∧ Sound H t (Function.update pins (⟨fd, (t.frame x).page.pageId⟩, x)
          (pins (⟨fd, (t.frame x).page.pageId⟩, x) + 1))
          (Function.update stale ⟨fd, (t.frame x).page.pageId⟩ false) ∧
          t.content (Function.update stale ⟨fd, (t.frame x).page.pageId⟩ false) =
            allocated H (s.content stale) fd r ∨
        r ≠ .success ∧ Sound H t pins stale ∧ t.content stale = allocated H (s.content stale) fd r) := by
  obtain ⟨hhead, hheads⟩ := h.header hopen
  have hdata : s.content stale ⟨fd, PagePool.headerPage⟩ =
      some (s.frame (s.headerFrame fd)).page.pageData := Sound.content_cached hhead hheads
  unfold allocatePage at hrun
  simp only [allocated, hdata]
  cases hfree : firstFree (s.fileHeader H fd) with
  | some q =>
    simp only [hfree] at hrun
    have hfree' : firstFree (H.fileHeader (s.frame (s.headerFrame fd)).page.pageData) = some q := hfree
    obtain ⟨hsound, hcontent⟩ := writePage_spec h hhead hheads
      (d := H.setFileHeader (reuse (s.fileHeader H fd) q) (s.frame (s.headerFrame fd)).page.pageData)
      (fun _ => by rw [H.pagesNum_set]; exact h.pages hopen)
    obtain ⟨hopen', hcase⟩ := getPage_spec (i := ⟨fd, q⟩) hsound hopen
      (fun y hy => hfresh q y hfree hy) hrun
    simp only [hfree']
    refine ⟨hopen', ?_⟩
    rcases hcase with ⟨hr, hx, hsound', hcontent'⟩ | ⟨hr, hsound', hcontent'⟩
    · have hp : (t.frame x).page.pageId = q := (hsound'.cached hx).2
      rw [hp]
      exact .inl ⟨hr, hsound', hcontent'.trans hcontent⟩
    · exact .inr ⟨hr, hsound', hcontent'.trans hcontent⟩
  | none =>
    have hfree' : firstFree (H.fileHeader (s.frame (s.headerFrame fd)).page.pageData) = none := hfree
    simp only [hfree] at hrun
    simp only [hfree']
    by_cases hfull : PagePool.maxPageNum ≤ (s.fileHeader H fd).pagesNum
    · rw [if_pos hfull] at hrun
      cases hrun
      exact ⟨rfl, .inr ⟨by decide, h, (if_neg (by decide)).symm⟩⟩
    · rw [if_neg hfull] at hrun
      obtain ⟨⟨r1, x1, s1⟩, hres⟩ : ∃ a, s.allocateFrame fd (s.fileHeader H fd).pagesNum victims = a :=
        ⟨_, rfl⟩
      simp only [hres] at hrun
      rcases allocateFrame_spec (i := ⟨fd, (s.fileHeader H fd).pagesNum⟩) h hres with
        ⟨rfl, u, hu, hr⟩ | ⟨hne, hs1⟩
      · simp only [ne_eq, not_true_eq_false, if_false] at hrun
        cases hrun
        have huopen : u.fdBufferPools fd = true := by rw [hu.opened]; exact hopen
        have hud : (u.frame (u.headerFrame fd)).page.pageData =
            (s.frame (s.headerFrame fd)).page.pageData := by
          have hc := Sound.content_cached (hu.sound.header huopen).1 hheads
          rw [hu.content, hdata] at hc
          exact (Option.some.inj hc).symm
        have huh : u.fileHeader H fd = s.fileHeader H fd := congrArg H.fileHeader hud
        obtain ⟨hsound, hpool, hcontent⟩ := extend_spec hu.sound huopen (by rw [huh]; exact hr) rfl rfl rfl
        refine ⟨hpool.trans hu.opened, .inl ⟨rfl, hsound, ?_⟩⟩
        rw [if_pos rfl, hcontent, huh, hud, hu.content]
        rfl
      · rw [if_pos hne] at hrun
        cases hrun
        exact ⟨hs1.opened, .inr ⟨hne, hs1.sound, hs1.content.trans (if_neg hne).symm⟩⟩

end Calls

end GlobalBufferPoolManager

end Idmbs
