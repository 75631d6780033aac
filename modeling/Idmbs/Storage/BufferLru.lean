import Idmbs.Lib.Recency
import Idmbs.Storage.BufferTransparency

/-!
# Idmbs.Storage.BufferLru

`AllocateFrame` (storage/buffer_pool.cpp) with the victims that `GetPurgeableFrame` gives it. The cache is
kept in the order of the last uses: `Get` moves a page to its front (`LruTouch`), `Put` adds it there.
-/

namespace Idmbs

variable {δ : Type}

namespace GlobalBufferPoolManager

/-- `Get` of the cache: a page that is there comes to the front. -/
def touch (s : GlobalBufferPoolManager δ) (i : FrameId) : GlobalBufferPoolManager δ :=
  match s.frameLruCache.lookup i with
  | some x => { s with frameLruCache := s.frameLruCache.insert i x }
  | none => s

/-- `FrameManager::GetPurgeableFrame`, with the name under which the frame is cached. -/
def getPurgeableFrame (s : GlobalBufferPoolManager δ) : Option (Sigma fun _ : FrameId => Nat) :=
  s.frameLruCache.entries.reverse.find? fun e => (s.frame e.2).pinCount == 0

section Loop

variable [Inhabited δ]

/-- The loop of `AllocateFrame`: the frames thrown out, and the result. `none` when it has not ended after
`fuel` rounds. -/
def allocateFrameLoop : Nat → GlobalBufferPoolManager δ → Nat → PageId →
    Option (List FrameId × Re × Nat × GlobalBufferPoolManager δ)
  | 0, _, _, _ => none
  | fuel + 1, s, fd, p =>
    let s := s.touch ⟨fd, p⟩
    match s.alloc fd p with
    | some (x, s) => some ([], .success, x, s)
    | none =>
      match s.getPurgeableFrame with
      | none => some ([], .noMem, 0, s)
      | some ⟨v, x⟩ =>
        match if (s.frame x).dirty then s.flushFrame x else (.success, s) with
        | (r, s) =>
          if r ≠ .success then some ([v], r, 0, s)
          else
            let i : FrameId := ⟨(s.frame x).fileDesc, (s.frame x).page.pageId⟩
            (allocateFrameLoop fuel ((s.touch i).freeFrame i.fileDesc i.pageId x) fd p).map
              fun (victims, a) => (v :: victims, a)

end Loop

/-! ## The order of the cache -/

variable {H : HeaderView δ} {s t u : GlobalBufferPoolManager δ} {pins : Pins} {stale : FrameId → Bool}
  {i j : FrameId} {fd x n : Nat} {p : PageId} {r : Re}

theorem touch_of_absent (h : s.frameLruCache.lookup i = none) : s.touch i = s := by
  rw [touch, h]

theorem lookup_touch : (s.touch i).frameLruCache.lookup j = s.frameLruCache.lookup j := by
  unfold touch
  cases hi : s.frameLruCache.lookup i with
  | none => rfl
  | some x =>
    simp only
    by_cases he : j = i
    · rw [he, AList.lookup_insert, hi]
    · rw [AList.lookup_insert_ne he]

theorem touch_frame : (s.touch i).frame = s.frame := by
  unfold touch
  split <;> rfl

theorem touch_free : (s.touch i).free = s.free := by
  unfold touch
  split <;> rfl

theorem touch_files : (s.touch i).files = s.files := by
  unfold touch
  split <;> rfl

theorem touch_fdBufferPools : (s.touch i).fdBufferPools = s.fdBufferPools := by
  unfold touch
  split <;> rfl

theorem touch_headerFrame : (s.touch i).headerFrame = s.headerFrame := by
  unfold touch
  split <;> rfl

theorem sound_touch (h : Sound H s pins stale) :
    Sound H (s.touch i) pins stale ∧ (s.touch i).content stale = s.content stale :=
  h.congr (fun _ => lookup_touch) (fun _ _ _ => by rw [touch_frame]) (by rw [touch_free]) touch_files
    touch_fdBufferPools touch_headerFrame

/-- With success page `i` is at the front of `t`, in frame `x`; else no page was added. -/
def Placed (i : FrameId) (s : GlobalBufferPoolManager δ) (r : Re) (x : Nat) (t : GlobalBufferPoolManager δ) :
    Prop :=
  r = .success ∧ t.frameLruCache.lookup i = some x ∧
      (∃ l, l.Sublist s.frameLruCache.keys ∧ i ∉ l ∧ t.frameLruCache.keys = i :: l) ∨
    r ≠ .success ∧ t.frameLruCache.keys.Sublist s.frameLruCache.keys

theorem Placed.of_sublist (h : Placed i s r x t) (hs : s.frameLruCache.keys.Sublist u.frameLruCache.keys) :
    Placed i u r x t := by
  rcases h with ⟨hr, hx, l, hl, hnot, hkeys⟩ | ⟨hr, hkeys⟩
  · exact .inl ⟨hr, hx, l, hl.trans hs, hnot, hkeys⟩
  · exact .inr ⟨hr, hkeys.trans hs⟩

theorem keys_alloc (h : s.alloc i.fileDesc i.pageId = some (x, t)) : Placed i s .success x t := by
  have hres := alloc_reserved h
  refine .inl ⟨rfl, ?_, s.frameLruCache.keys.erase i, List.erase_sublist .., ?_, ?_⟩
  · rw [hres.cache, AList.lookup_insert]
  · exact fun hmem => (List.Nodup.not_mem_erase s.frameLruCache.keys_nodup) hmem
  · rw [hres.cache, AList.keys_insert]

theorem keys_freeFrame : (s.freeFrame fd p x).frameLruCache.keys.Sublist s.frameLruCache.keys := by
  unfold freeFrame
  split
  · simp only [AList.keys_erase]
    exact List.erase_sublist ..
  · exact List.Sublist.refl _

section Calls

variable [Inhabited δ]

theorem cache_flushFrame : (s.flushFrame x).2.frameLruCache = s.frameLruCache := by
  unfold flushFrame
  split <;> rfl

theorem keys_allocateFrame : ∀ {victims : List FrameId} {s : GlobalBufferPoolManager δ},
    s.allocateFrame i.fileDesc i.pageId victims = (r, x, t) → Placed i s r x t := by
  intro victims
  induction victims with
  | nil =>
    intro s h
    rw [allocateFrame] at h
    cases halloc : s.alloc i.fileDesc i.pageId with
    | some a =>
      rw [halloc] at h
      cases h
      exact keys_alloc halloc
    | none =>
      rw [halloc] at h
      cases h
      exact .inr ⟨nofun, List.Sublist.refl _⟩
  | cons v victims ih =>
    intro s h
    rw [allocateFrame] at h
    cases halloc : s.alloc i.fileDesc i.pageId with
    | some a =>
      rw [halloc] at h
      cases h
      exact keys_alloc halloc
    | none =>
      rw [halloc] at h
      cases hget : s.getFrame v.fileDesc v.pageId with
      | none =>
        simp only [hget] at h
        cases h
        exact .inr ⟨nofun, List.Sublist.refl _⟩
      | some y =>
        simp only [hget] at h
        split at h
        · cases h
          exact .inr ⟨nofun, List.Sublist.refl _⟩
        · obtain ⟨r', u, hu⟩ : ∃ r' u, (if (s.frame y).dirty then s.flushFrame y else (.success, s)) = (r', u) :=
            ⟨_, _, rfl⟩
          have hcache : u.frameLruCache = s.frameLruCache := by
            split at hu
            · obtain rfl : (s.flushFrame y).2 = u := congrArg Prod.snd hu
              exact cache_flushFrame
            · obtain rfl : s = u := congrArg Prod.snd hu
              rfl
          simp only [hu] at h
          split at h
          · rename_i hr
            cases h
            exact .inr ⟨hr, by rw [hcache]⟩
          · exact (ih h).of_sublist (hcache ▸ keys_freeFrame)

/-- A page that could not be loaded is taken out again. -/
theorem keys_fetchPage {victims : List FrameId} (h : s.fetchPage i.fileDesc i.pageId victims = (r, x, t)) :
    Placed i s r x t := by
  unfold fetchPage at h
  obtain ⟨r1, y, u, halloc⟩ : ∃ r1 y u, s.allocateFrame i.fileDesc i.pageId victims = (r1, y, u) := ⟨_, _, _, rfl⟩
  simp only [halloc] at h
  rcases keys_allocateFrame halloc with ⟨rfl, hy, l, hl, hnot, hkeys⟩ | ⟨hr1, hkeys⟩
  · simp only [ne_eq, not_true_eq_false, if_false] at h
    unfold loadPage at h
    split at h
    · simp only [not_true_eq_false, if_false] at h
      cases h
      exact .inl ⟨rfl, hy, l, hl, hnot, hkeys⟩
    · simp only [reduceCtorEq, not_false_eq_true, if_true] at h
      cases h
      refine .inr ⟨nofun, ?_⟩
      unfold purgeFrame
      have herase : ∀ v : GlobalBufferPoolManager δ, v.frameLruCache = u.frameLruCache →
          (v.freeFrame i.fileDesc i.pageId y).frameLruCache.keys.Sublist s.frameLruCache.keys := by
        intro v hv
        have hget : v.getFrame i.fileDesc i.pageId = some y := by
          rw [getFrame, hv]
          exact hy
        rw [freeFrame, if_pos hget]
        simp only [AList.keys_erase, hv, hkeys, List.erase_cons_head]
        exact hl
      refine herase _ ?_
      split
      · rfl
      · rfl
  · simp only [hr1, ne_eq, not_false_eq_true, if_true] at h
    cases h
    exact .inr ⟨hr1, hkeys⟩

/-- A page that is asked for is at the front if it is cached. -/
def Fronted (i : FrameId) (s : GlobalBufferPoolManager δ) : Prop :=
  ∀ x, s.frameLruCache.lookup i = some x → ∃ l, s.frameLruCache.keys = i :: l

omit [Inhabited δ] in
theorem fronted_touch : Fronted i (s.touch i) := by
  intro x hx
  rw [lookup_touch] at hx
  refine ⟨s.frameLruCache.keys.erase i, ?_⟩
  rw [touch, hx]
  simp only [AList.keys_insert]

theorem keys_getPage {victims : List FrameId} (hfront : Fronted i s)
    (h : s.getPage i.fileDesc i.pageId victims = (r, x, t)) : Placed i s r x t := by
  unfold getPage at h
  cases hget : s.getFrame i.fileDesc i.pageId with
  | none =>
    rw [hget] at h
    exact keys_fetchPage h
  | some y =>
    rw [hget] at h
    cases h
    obtain ⟨l, hl⟩ := hfront _ hget
    have hnodup := s.frameLruCache.keys_nodup
    rw [hl, List.nodup_cons] at hnodup
    exact .inl ⟨rfl, hget, l, hl ▸ List.sublist_cons_self .., hnodup.1, hl⟩

theorem keys_openFile {victims : List FrameId} (h : s.openFile fd victims = (r, t)) :
    ∃ x, Placed ⟨fd, PagePool.headerPage⟩ s r x t := by
  unfold openFile at h
  obtain ⟨r1, y, u, hfetch⟩ : ∃ r1 y u, s.fetchPage fd PagePool.headerPage victims = (r1, y, u) := ⟨_, _, _, rfl⟩
  have hplaced := keys_fetchPage (i := ⟨fd, PagePool.headerPage⟩) hfetch
  simp only [hfetch] at h
  split at h
  · cases h
    exact ⟨y, hplaced⟩
  · rename_i hr
    cases h
    rw [not_not.mp hr] at hplaced
    exact ⟨y, hplaced⟩

/-- The page that `AllocatePage` takes, unless the file is at its limit. -/
def nextPage (H : HeaderView δ) (s : GlobalBufferPoolManager δ) (fd : Nat) : Option PageId :=
  match firstFree (s.fileHeader H fd) with
  | some i => some i
  | none => if PagePool.maxPageNum ≤ (s.fileHeader H fd).pagesNum then none else some (s.fileHeader H fd).pagesNum

theorem keys_allocatePage {victims : List FrameId} (hnext : s.nextPage H fd = some p)
    (hfront : Fronted ⟨fd, p⟩ s) (h : s.allocatePage H fd victims = (r, x, t)) : Placed ⟨fd, p⟩ s r x t := by
  unfold allocatePage at h
  unfold nextPage at hnext
  cases hfree : firstFree (s.fileHeader H fd) with
  | some q =>
    rw [hfree] at h hnext
    obtain rfl := Option.some.inj hnext
    have hplaced := keys_getPage (s := s.setFileHeader H fd (reuse (s.fileHeader H fd) q)) (i := ⟨fd, q⟩) hfront h
    exact hplaced.of_sublist (List.Sublist.refl _)
  | none =>
    rw [hfree] at h hnext
    simp only at h hnext
    split at hnext
    · cases hnext
    · rename_i hlimit
      obtain rfl := Option.some.inj hnext
      rw [if_neg hlimit] at h
      obtain ⟨r1, y, u, halloc⟩ : ∃ r1 y u,
        s.allocateFrame fd (s.fileHeader H fd).pagesNum victims = (r1, y, u) := ⟨_, _, _, rfl⟩
      have hplaced := keys_allocateFrame (i := ⟨fd, (s.fileHeader H fd).pagesNum⟩) halloc
      simp only [halloc] at h
      split at h
      · rename_i hr
        cases h
        exact .inr ⟨hr, (hplaced.resolve_left fun hf => hr hf.1).2⟩
      · rename_i hr
        cases h
        rw [not_not.mp hr] at hplaced
        exact hplaced

theorem keys_purgeFrame : (s.purgeFrame fd p x).frameLruCache.keys.Sublist s.frameLruCache.keys := by
  unfold purgeFrame
  refine keys_freeFrame.trans ?_
  split
  · exact List.Sublist.refl _
  · exact List.Sublist.refl _

theorem cache_flushAllPages : (s.flushAllPages fd).frameLruCache = s.frameLruCache := by
  unfold flushAllPages
  generalize s.frameLruCache.keys.filter (fun id => id.fileDesc = fd) = ids
  suffices h : ∀ u : GlobalBufferPoolManager δ, (ids.foldl (fun t id => match s.frameLruCache.lookup id with
      | some x => t.flushPage fd x
      | none => t) u).frameLruCache = u.frameLruCache from h s
  induction ids with
  | nil => exact fun _ => rfl
  | cons id ids ih =>
    intro u
    rw [List.foldl_cons, ih]
    split <;> rfl

end Calls

/-! ## One call of `AllocateFrame` -/

/-- There is a free frame, or one that is not pinned. -/
def HasFrame (s : GlobalBufferPoolManager δ) : Prop :=
  s.free ≠ [] ∨ ∃ j y, s.frameLruCache.lookup j = some y ∧ (s.frame y).pinCount = 0

theorem alloc_of_free {xs : List Nat} (habsent : s.frameLruCache.lookup i = none) (hfree : s.free = x :: xs) :
    s.alloc i.fileDesc i.pageId =
      some (x, { s with frameLruCache := s.frameLruCache.insert i x, free := xs }) := by
  have hget : s.getFrame i.fileDesc i.pageId = none := habsent
  rw [alloc, hget, hfree]

theorem alloc_of_full (hfree : s.free = []) : s.alloc i.fileDesc i.pageId = none := by
  rw [alloc, hfree]
  split <;> rfl

theorem getPurgeableFrame_eq_none (h : s.getPurgeableFrame = none) (hj : s.frameLruCache.lookup j = some x) :
    (s.frame x).pinCount ≠ 0 := by
  have hmem : (⟨j, x⟩ : Sigma fun _ : FrameId => Nat) ∈ s.frameLruCache.entries := AList.mem_lookup_iff.mp hj
  have hnot := List.find?_eq_none.mp h _ (List.mem_reverse.mpr hmem)
  simpa using hnot

/-- The frame found is the one that was not used for the longest time. -/
theorem getPurgeableFrame_spec {usedAt : FrameId → Nat} {now : Nat} {v : FrameId} {y : Nat}
    (hrecent : Recent s.frameLruCache.keys usedAt now) (h : s.getPurgeableFrame = some ⟨v, y⟩) :
    s.frameLruCache.lookup v = some y ∧ (s.frame y).pinCount = 0 ∧
      ∀ j z, s.frameLruCache.lookup j = some z → (s.frame z).pinCount = 0 → usedAt v ≤ usedAt j := by
  obtain ⟨hmem, hpin, holdest⟩ := hrecent.oldest h
  refine ⟨AList.mem_lookup_iff.mpr hmem, by simpa using hpin, fun j z hz hzero => ?_⟩
  exact holdest ⟨j, z⟩ (AList.mem_lookup_iff.mp hz) (by simpa using hzero)

theorem freeFrame_touch (hx : s.frameLruCache.lookup i = some x) :
    (s.touch i).freeFrame i.fileDesc i.pageId x = s.freeFrame i.fileDesc i.pageId x := by
  have herase : (s.frameLruCache.insert i x).erase i = s.frameLruCache.erase i := by
    refine AList.ext ?_
    have hentries : ((s.frameLruCache.insert i x).erase i).entries =
        List.kerase i (⟨i, x⟩ :: List.kerase i s.frameLruCache.entries) := rfl
    have hkerase : List.kerase i (⟨i, x⟩ :: List.kerase i s.frameLruCache.entries) =
        List.kerase i s.frameLruCache.entries := List.kerase_cons_eq rfl
    exact hentries.trans hkerase
  have hget : s.getFrame i.fileDesc i.pageId = some x := hx
  have hget' : (s.touch i).getFrame i.fileDesc i.pageId = some x := lookup_touch.trans hx
  rw [freeFrame, freeFrame, if_pos hget, if_pos hget']
  simp only [touch, hx, herase]

section Allocate

variable [Inhabited δ] {v : FrameId} {y : Nat}

theorem flush_eq (h : Sound H s pins Session.noneStale) (hv : s.frameLruCache.lookup v = some y) :
    ∃ w, (if (s.frame y).dirty then s.flushFrame y else (.success, s)) = (.success, w) ∧
      w = (if (s.frame y).dirty then s.flushPage v.fileDesc y else s) ∧
      w.frameLruCache = s.frameLruCache ∧ w.free = s.free ∧
      (w.frame y).fileDesc = v.fileDesc ∧ (w.frame y).page.pageId = v.pageId := by
  obtain ⟨hfd, hpage⟩ := h.cached hv
  by_cases hdirty : (s.frame y).dirty = true
  · refine ⟨s.flushPage v.fileDesc y, ?_, ?_, rfl, rfl, ?_⟩
    · rw [if_pos hdirty, flushFrame, hfd, if_pos (h.opened hv rfl)]
    · rw [if_pos hdirty]
    · simp only [flushPage, Function.update_self]
      exact ⟨hfd, hpage⟩
  · exact ⟨s, if_neg hdirty, (if_neg hdirty).symm, rfl, rfl, hfd, hpage⟩

theorem allocateFrameLoop_evict (h : Sound H s pins Session.noneStale) (habsent : s.frameLruCache.lookup i = none)
    (hfull : s.free = []) (hfound : s.getPurgeableFrame = some ⟨v, y⟩)
    (hv : s.frameLruCache.lookup v = some y) (hpin : (s.frame y).pinCount = 0) :
    ∃ t, (s.purgeFrame v.fileDesc v.pageId y).alloc i.fileDesc i.pageId = some (y, t) ∧
      (∀ fuel, s.allocateFrameLoop (fuel + 2) i.fileDesc i.pageId = some ([v], .success, y, t)) ∧
      s.allocateFrame i.fileDesc i.pageId [v] = (.success, y, t) := by
  obtain ⟨w, hflush, hw, hcache, hfree, hfd, hpage⟩ := flush_eq h hv
  have hlook : w.frameLruCache.lookup v = some y := by rw [hcache, hv]
  have hget : w.getFrame v.fileDesc v.pageId = some y := hlook
  have hpurged : s.purgeFrame v.fileDesc v.pageId y = w.freeFrame v.fileDesc v.pageId y := by rw [purgeFrame, ← hw]
  have hne : i ≠ v := by
    rintro rfl
    rw [habsent] at hv
    cases hv
  have hgone : (s.purgeFrame v.fileDesc v.pageId y).frameLruCache.lookup i = none := by
    rw [hpurged, freeFrame, if_pos hget]
    simp only [AList.lookup_erase_ne hne, hcache, habsent]
  have hone : (s.purgeFrame v.fileDesc v.pageId y).free = [y] := by
    rw [hpurged, freeFrame, if_pos hget]
    simp only [hfree, hfull, List.nil_append]
  have halloc := alloc_of_free hgone hone
  refine ⟨_, halloc, fun fuel => ?_, ?_⟩
  · have htouch : (w.touch v).freeFrame v.fileDesc v.pageId y = s.purgeFrame v.fileDesc v.pageId y := by
      rw [freeFrame_touch hlook, hpurged]
    have hid : (⟨v.fileDesc, v.pageId⟩ : FrameId) = v := rfl
    have hself : (⟨i.fileDesc, i.pageId⟩ : FrameId) = i := rfl
    rw [allocateFrameLoop]
    simp only [hself, touch_of_absent habsent, alloc_of_full hfull, hfound, hflush, hfd, hpage, hid, htouch,
      ne_eq, not_true_eq_false, if_false]
    rw [allocateFrameLoop]
    simp only [hself, touch_of_absent hgone, halloc, Option.map_some]
  · have hgets : s.getFrame v.fileDesc v.pageId = some y := hv
    rw [allocateFrame, alloc_of_full hfull]
    simp only [hgets, hpin, hflush, hfd, hpage, ← hpurged, ne_eq, not_true_eq_false, if_false]
    rw [allocateFrame, halloc]

theorem files_purgeFrame (h : Sound H s pins Session.noneStale) (hv : s.frameLruCache.lookup v = some y)
    (hdirty : (s.frame y).dirty = true) :
    ((s.purgeFrame v.fileDesc v.pageId y).files v.fileDesc).page v.pageId = (s.frame y).page := by
  have hpage := (h.cached hv).2
  have hfiles : (s.purgeFrame v.fileDesc v.pageId y).files = (s.flushPage v.fileDesc y).files := by
    rw [purgeFrame, if_pos hdirty]
    unfold freeFrame
    split <;> rfl
  rw [hfiles]
  simp only [flushPage, hpage, Function.update_self, PageFile.write_page]

end Allocate

/-! ## Pages that are given up -/

def purgePage [Inhabited δ] (s : GlobalBufferPoolManager δ) (fd : Nat) (p : PageId) :
    Re × GlobalBufferPoolManager δ :=
  match s.getFrame fd p with
  | none => (.success, s)
  | some x => if 0 < (s.frame x).pinCount then (.lockedUnlock, s) else (.success, s.purgeFrame fd p x)

/-- `DisposePage`. A page that is pinned waits for the `UnpinPage` that gives back its last pin and calls
`DisposePage` again. -/
def disposePage [Inhabited δ] (H : HeaderView δ) (s : GlobalBufferPoolManager δ) (fd : Nat) (p : PageId) :
    Re × GlobalBufferPoolManager δ :=
  match s.purgePage fd p with
  | (r, s) =>
    if r ≠ .success then (r, s)
    else
      let h := s.fileHeader H fd
      (.success, s.setFileHeader H fd { h with
        allocatedPagesNum := h.allocatedPagesNum - 1
        bitmap := Function.update h.bitmap p false })

def recoverPage (H : HeaderView δ) (s : GlobalBufferPoolManager δ) (fd : Nat) (p : PageId) :
    GlobalBufferPoolManager δ :=
  let h := s.fileHeader H fd
  if h.bitmap p then s
  else s.setFileHeader H fd ⟨h.pagesNum + 1, h.allocatedPagesNum + 1, Function.update h.bitmap p true⟩

/-- `pages` with the header of `fd` as it is in the pool. -/
def withHeader (t : GlobalBufferPoolManager δ) (fd : Nat) (pages : FrameId → Option δ) : FrameId → Option δ :=
  Function.update pages ⟨fd, PagePool.headerPage⟩ (some (t.frame (t.headerFrame fd)).page.pageData)

theorem withHeader_eq (h : Sound H t pins Session.noneStale) (hopen : t.fdBufferPools fd = true) :
    t.withHeader fd (t.content Session.noneStale) = t.content Session.noneStale := by
  have hfresh : Session.noneStale ⟨fd, PagePool.headerPage⟩ = false := rfl
  rw [withHeader, ← Sound.content_cached (h.header hopen).1 hfresh, Function.update_eq_self]

theorem setFileHeader_spec {h : BufferPoolFileHeader} (hs : Sound H s pins Session.noneStale)
    (hopen : s.fdBufferPools fd = true) (hpages : h.pagesNum ≤ (s.files fd).size) :
    Sound H (s.setFileHeader H fd h) pins Session.noneStale ∧
      (s.setFileHeader H fd h).content Session.noneStale =
        (s.setFileHeader H fd h).withHeader fd (s.content Session.noneStale) := by
  have hhead := (hs.header hopen).1
  obtain ⟨h1, h2⟩ := writePage_spec (i := ⟨fd, PagePool.headerPage⟩) hs hhead rfl
    (d := H.setFileHeader h (s.frame (s.headerFrame fd)).page.pageData)
    (fun _ => by rw [H.pagesNum_set]; exact hpages)
  refine ⟨h1, h2.trans ?_⟩
  have hdata : ((s.setFileHeader H fd h).frame ((s.setFileHeader H fd h).headerFrame fd)).page.pageData =
      H.setFileHeader h (s.frame (s.headerFrame fd)).page.pageData := by
    simp only [setFileHeader, writePage, setFrame, Function.update_self]
  rw [withHeader, hdata]

theorem purgeFrame_evicted [Inhabited δ] {v : FrameId} {y : Nat} (h : Sound H s pins Session.noneStale)
    (hv : s.frameLruCache.lookup v = some y) (hpin : (s.frame y).pinCount = 0) :
    Evicted H s pins Session.noneStale (s.purgeFrame v.fileDesc v.pageId y) := by
  obtain ⟨w, hflush, hw, -, -, hfd, hpage⟩ := flush_eq h hv
  obtain ⟨w', hflush', hevicted⟩ := evict h hv hpin
  obtain rfl : w = w' := (Prod.mk.inj (hflush.symm.trans hflush')).2
  rw [hfd, hpage] at hevicted
  rwa [purgeFrame, ← hw]

theorem purgePage_evicted [Inhabited δ] (h : Sound H s pins Session.noneStale)
    (hrun : s.purgePage fd p = (r, t)) : Evicted H s pins Session.noneStale t := by
  unfold purgePage at hrun
  cases hget : s.getFrame fd p with
  | none =>
    rw [hget] at hrun
    cases hrun
    exact .refl h
  | some y =>
    rw [hget] at hrun
    simp only at hrun
    split at hrun
    · cases hrun
      exact .refl h
    · rename_i hpin
      cases hrun
      exact purgeFrame_evicted (v := ⟨fd, p⟩) h hget (Nat.eq_zero_of_not_pos hpin)

theorem disposePage_spec [Inhabited δ] (h : Sound H s pins Session.noneStale) (hopen : s.fdBufferPools fd = true)
    (hrun : s.disposePage H fd p = (r, t)) :
    Sound H t pins Session.noneStale ∧
      t.content Session.noneStale = t.withHeader fd (s.content Session.noneStale) := by
  unfold disposePage at hrun
  obtain ⟨r1, u, hpurge⟩ : ∃ r1 u, s.purgePage fd p = (r1, u) := ⟨_, _, rfl⟩
  have hevicted := purgePage_evicted h hpurge
  have hopen' : u.fdBufferPools fd = true := by rw [hevicted.opened, hopen]
  simp only [hpurge] at hrun
  split at hrun
  · cases hrun
    rw [← hevicted.content]
    exact ⟨hevicted.sound, (withHeader_eq hevicted.sound hopen').symm⟩
  · cases hrun
    rw [← hevicted.content]
    exact setFileHeader_spec hevicted.sound hopen' (hevicted.sound.pages hopen')

theorem recoverPage_spec (h : Sound H s pins Session.noneStale) (hopen : s.fdBufferPools fd = true)
    (hfits : (s.fileHeader H fd).pagesNum + 1 ≤ (s.files fd).size) :
    Sound H (s.recoverPage H fd p) pins Session.noneStale ∧
      (s.recoverPage H fd p).content Session.noneStale =
        (s.recoverPage H fd p).withHeader fd (s.content Session.noneStale) := by
  unfold recoverPage
  simp only
  split
  · exact ⟨h, (withHeader_eq h hopen).symm⟩
  · exact setFileHeader_spec h hopen hfits

theorem cache_recoverPage : (s.recoverPage H fd p).frameLruCache = s.frameLruCache := by
  unfold recoverPage
  simp only
  split <;> rfl

theorem keys_disposePage [Inhabited δ] (hrun : s.disposePage H fd p = (r, t)) :
    t.frameLruCache.keys.Sublist s.frameLruCache.keys := by
  unfold disposePage at hrun
  obtain ⟨r1, u, hpurge⟩ : ∃ r1 u, s.purgePage fd p = (r1, u) := ⟨_, _, rfl⟩
  have hkeys : u.frameLruCache.keys.Sublist s.frameLruCache.keys := by
    unfold purgePage at hpurge
    split at hpurge
    · cases hpurge
      exact List.Sublist.refl _
    · split at hpurge
      · cases hpurge
        exact List.Sublist.refl _
      · cases hpurge
        exact keys_purgeFrame
  simp only [hpurge] at hrun
  split at hrun
  · cases hrun
    exact hkeys
  · cases hrun
    exact hkeys

/-! ## Runs -/

/-- A session, with the times of the last uses. -/
structure LruSession (δ : Type) where
  session : Session δ
  usedAt : FrameId → Nat
  now : Nat

namespace LruSession

variable {L L' L₀ : LruSession δ}

/-- Page `i` was used, and the session is `S` then. -/
def use (L : LruSession δ) (i : FrameId) (S : Session δ) : LruSession δ :=
  ⟨S, Function.update L.usedAt i L.now, L.now + 1⟩

/-- A call asks the cache for page `i`. -/
def ask (L : LruSession δ) (i : FrameId) : LruSession δ :=
  if L.session.pool.frameLruCache.lookup i = none then L
  else L.use i { L.session with pool := L.session.pool.touch i }

/-- A call that used page `i` if it succeeded. -/
def done (L : LruSession δ) (r : Re) (i : FrameId) (S : Session δ) : LruSession δ :=
  if r = .success then L.use i S else { L with session := S }

section Runs

variable [Inhabited δ]

/-- A call of a client, with its uses of pages. A file that is full is left as it is by `AllocatePage`. -/
inductive Step (H : HeaderView δ) : LruSession δ → LruSession δ → Prop
  | openFile {L : LruSession δ} {t : GlobalBufferPoolManager δ} {fd : Nat} {victims : List FrameId} {r : Re}
      (hclosed : L.session.pool.fdBufferPools fd = false) (hfile : (L.session.pool.files fd).WellFormed H)
      (hrun : L.session.pool.openFile fd victims = (r, t)) :
      Step H L (L.done r ⟨fd, PagePool.headerPage⟩ { L.session with pool := t })
  | getPage {L : LruSession δ} {t : GlobalBufferPoolManager δ} {i : FrameId} {victims : List FrameId} {r : Re}
      {x : Nat} (hopen : L.session.pool.fdBufferPools i.fileDesc = true)
      (hrun : (L.ask i).session.pool.getPage i.fileDesc i.pageId victims = (r, x, t)) :
      Step H L ((L.ask i).done r i { L.session with pool := t, pins := Session.pinned L.session.pins r i x })
  | allocatePage {L : LruSession δ} {t : GlobalBufferPoolManager δ} {fd : Nat} {p : PageId}
      {victims : List FrameId} {r : Re} {x : Nat} (hopen : L.session.pool.fdBufferPools fd = true)
      (hnext : L.session.pool.nextPage H fd = some p)
      (hrun : (L.ask ⟨fd, p⟩).session.pool.allocatePage H fd victims = (r, x, t)) :
      Step H L ((L.ask ⟨fd, p⟩).done r ⟨fd, p⟩
        ⟨t, Session.pinned L.session.pins r ⟨fd, (t.frame x).page.pageId⟩ x, allocated H L.session.pages fd r⟩)
  | writePage {L : LruSession δ} {i : FrameId} {x : Nat} {d : δ} (hpin : 0 < L.session.pins (i, x))
      (hheader : i.pageId = PagePool.headerPage →
        (H.fileHeader d).pagesNum = (L.session.pool.fileHeader H i.fileDesc).pagesNum) :
      Step H L { L with session := { L.session with
        pool := L.session.pool.writePage x d
        pages := Function.update L.session.pages i (some d) } }
  | unpinPage {L : LruSession δ} {i : FrameId} {x : Nat} (hpin : 0 < L.session.pins (i, x)) :
      Step H L { L with session := { L.session with
        pool := L.session.pool.unpinPage x
        pins := Function.update L.session.pins (i, x) (L.session.pins (i, x) - 1) } }
  | flushPage {L : LruSession δ} {i : FrameId} {x : Nat} (hpin : 0 < L.session.pins (i, x)) :
      Step H L { L with session := { L.session with pool := L.session.pool.flushPage i.fileDesc x } }
  | flushAllPages {L : LruSession δ} {fd : Nat} (hopen : L.session.pool.fdBufferPools fd = true) :
      Step H L { L with session := { L.session with pool := L.session.pool.flushAllPages fd } }
  | disposePage {L : LruSession δ} {t : GlobalBufferPoolManager δ} {fd : Nat} {p : PageId} {r : Re}
      (hopen : L.session.pool.fdBufferPools fd = true)
      (hrun : (L.ask ⟨fd, p⟩).session.pool.disposePage H fd p = (r, t)) :
      Step H L { L.ask ⟨fd, p⟩ with session := { L.session with
        pool := t
        pages := t.withHeader fd L.session.pages } }
  | recoverPage {L : LruSession δ} {fd : Nat} {p : PageId} (hopen : L.session.pool.fdBufferPools fd = true)
      -- the pages counted by the header are on file
      (hfits : (L.session.pool.fileHeader H fd).pagesNum + 1 ≤ (L.session.pool.files fd).size) :
      Step H L { L with session := { L.session with
        pool := L.session.pool.recoverPage H fd p
        pages := (L.session.pool.recoverPage H fd p).withHeader fd L.session.pages } }

/-- The pool is sound and shows the flat array; the cache is in the order of the last uses. -/
structure Ordered (H : HeaderView δ) (L : LruSession δ) : Prop where
  refines : Session.Refines H L.session
  recent : Recent L.session.pool.frameLruCache.keys L.usedAt L.now

omit [Inhabited δ] in
theorem ask_eq (L : LruSession δ) (i : FrameId) :
    (L.ask i).session = { L.session with pool := L.session.pool.touch i } := by
  unfold ask
  split
  · rename_i hnone
    rw [touch_of_absent hnone]
  · rfl

omit [Inhabited δ] in
theorem Ordered.ask (h : Ordered H L) (i : FrameId) : Ordered H (L.ask i) := by
  constructor
  · rw [ask_eq]
    obtain ⟨hsound, hcontent⟩ := sound_touch (i := i) h.refines.1
    exact ⟨hsound, hcontent.trans h.refines.2⟩
  · unfold LruSession.ask
    split
    · exact h.recent
    · rename_i hsome
      obtain ⟨x, hx⟩ := Option.ne_none_iff_exists'.mp hsome
      simp only [use, touch, hx, AList.keys_insert]
      exact (h.recent.sublist List.erase_sublist).use
        (List.Nodup.not_mem_erase L.session.pool.frameLruCache.keys_nodup)

omit [Inhabited δ] in
theorem recent_done {S : Session δ} (h : Recent L.session.pool.frameLruCache.keys L.usedAt L.now)
    (hplaced : Placed i L.session.pool r x S.pool) :
    Recent (L.done r i S).session.pool.frameLruCache.keys (L.done r i S).usedAt (L.done r i S).now := by
  unfold done
  rcases hplaced with ⟨rfl, -, l, hl, hnot, hkeys⟩ | ⟨hr, hkeys⟩
  · simp only [if_true, use, hkeys]
    exact (h.sublist hl).use hnot
  · simp only [if_neg hr]
    exact h.sublist hkeys

omit [Inhabited δ] in
theorem session_done {S : Session δ} : (L.done r i S).session = S := by
  unfold done
  split <;> rfl

omit [Inhabited δ] in
theorem nextPage_touch : (s.touch i).nextPage H fd = s.nextPage H fd := by
  have hsame : (s.touch i).fileHeader H fd = s.fileHeader H fd := by
    rw [fileHeader, fileHeader, touch_frame, touch_headerFrame]
  rw [nextPage, nextPage, hsame]

theorem Step.ordered (h : Ordered H L) (hstep : Step H L L') : Ordered H L' := by
  cases hstep with
  | openFile hclosed hfile hrun =>
    obtain ⟨x, hplaced⟩ := keys_openFile hrun
    refine ⟨?_, recent_done h.recent hplaced⟩
    rw [session_done]
    exact (Session.Step.openFile hclosed hfile hrun).refines h.refines
  | @getPage t i victims r x hopen hrun =>
    have hask := h.ask i
    rw [ask_eq] at hrun
    have hplaced := keys_getPage fronted_touch hrun
    have hopen' : (L.ask i).session.pool.fdBufferPools i.fileDesc = true := by
      rw [ask_eq, touch_fdBufferPools]
      exact hopen
    refine ⟨?_, recent_done hask.recent (by rw [ask_eq]; exact hplaced)⟩
    rw [session_done]
    have href := hask.refines
    rw [ask_eq] at href hopen'
    exact (Session.Step.getPage hopen' hrun).refines href
  | @allocatePage t fd p victims r x hopen hnext hrun =>
    have hask := h.ask ⟨fd, p⟩
    rw [ask_eq] at hrun
    have hplaced := keys_allocatePage (nextPage_touch.trans hnext) fronted_touch hrun
    have hopen' : (L.ask ⟨fd, p⟩).session.pool.fdBufferPools fd = true := by
      rw [ask_eq, touch_fdBufferPools]
      exact hopen
    refine ⟨?_, recent_done hask.recent (by rw [ask_eq]; exact hplaced)⟩
    rw [session_done]
    have href := hask.refines
    rw [ask_eq] at href hopen'
    exact (Session.Step.allocatePage hopen' hrun).refines href
  | writePage hpin hheader => exact ⟨(Session.Step.writePage hpin hheader).refines h.refines, h.recent⟩
  | unpinPage hpin => exact ⟨(Session.Step.unpinPage hpin).refines h.refines, h.recent⟩
  | flushPage hpin => exact ⟨(Session.Step.flushPage hpin).refines h.refines, h.recent⟩
  | flushAllPages hopen =>
    refine ⟨(Session.Step.flushAllPages hopen).refines h.refines, ?_⟩
    simp only [cache_flushAllPages]
    exact h.recent
  | @disposePage t fd p r hopen hrun =>
    have hask := h.ask ⟨fd, p⟩
    have hrefines := hask.refines
    have hopen' : (L.ask ⟨fd, p⟩).session.pool.fdBufferPools fd = true := by
      rw [ask_eq, touch_fdBufferPools]
      exact hopen
    obtain ⟨h1, h2⟩ := disposePage_spec hrefines.1 hopen' hrun
    rw [hrefines.2] at h2
    rw [ask_eq] at h1 h2
    exact ⟨⟨h1, h2⟩, hask.recent.sublist (keys_disposePage hrun)⟩
  | @recoverPage fd p hopen hfits =>
    obtain ⟨h1, h2⟩ := recoverPage_spec (p := p) h.refines.1 hopen hfits
    rw [h.refines.2] at h2
    refine ⟨⟨h1, h2⟩, ?_⟩
    simp only [cache_recoverPage]
    exact h.recent

theorem ordered_of_run (h : L₀.session.Fresh) (hrun : Relation.ReflTransGen (Step H) L₀ L) : Ordered H L := by
  induction hrun with
  | refl =>
    refine ⟨h.refines, ?_⟩
    rw [h.empty]
    exact .nil
  | tail _ hstep ih => exact hstep.ordered ih

/-- In every run `AllocateFrame` for a page that is not cached ends after at most two rounds. It gets a frame
exactly when one is free or not pinned; what it throws out is the page without pins that was not used for the
longest time, and that page was written to its own file first. -/
theorem allocateFrame_lru (H : HeaderView δ) {L₀ L : LruSession δ} (h₀ : L₀.session.Fresh)
    (hrun : Relation.ReflTransGen (Step H) L₀ L) (i : FrameId)
    (habsent : L.session.pool.frameLruCache.lookup i = none) :
    ∃ victims r x t,
      (∀ fuel, L.session.pool.allocateFrameLoop (fuel + 2) i.fileDesc i.pageId = some (victims, r, x, t)) ∧
      L.session.pool.allocateFrame i.fileDesc i.pageId victims = (r, x, t) ∧
      (r = .success ∧ L.session.pool.HasFrame ∧ t.frameLruCache.lookup i = some x ∨
        r = .noMem ∧ ¬L.session.pool.HasFrame) ∧
      victims.length ≤ 1 ∧ ∀ v ∈ victims, ∃ y, L.session.pool.frameLruCache.lookup v = some y ∧
        (L.session.pool.frame y).pinCount = 0 ∧
        (∀ j z, L.session.pool.frameLruCache.lookup j = some z → (L.session.pool.frame z).pinCount = 0 →
          L.usedAt v ≤ L.usedAt j) ∧
        ((L.session.pool.frame y).dirty = true →
          ((L.session.pool.purgeFrame v.fileDesc v.pageId y).files v.fileDesc).page v.pageId = (L.session.pool.frame y).page) ∧
        (L.session.pool.purgeFrame v.fileDesc v.pageId y).alloc i.fileDesc i.pageId = some (x, t) := by
  obtain ⟨⟨hsound, -⟩, hrecent⟩ := ordered_of_run h₀ hrun
  have hself : (⟨i.fileDesc, i.pageId⟩ : FrameId) = i := rfl
  cases hfree : L.session.pool.free with
  | cons x xs =>
    obtain ⟨t, halloc, hlook⟩ : ∃ t, L.session.pool.alloc i.fileDesc i.pageId = some (x, t) ∧
      t.frameLruCache.lookup i = some x := ⟨_, alloc_of_free habsent hfree, AList.lookup_insert _⟩
    refine ⟨[], .success, x, t, fun fuel => ?_, ?_, .inl ⟨rfl, .inl ?_, hlook⟩, Nat.zero_le 1, nofun⟩
    · rw [allocateFrameLoop]
      simp only [hself, touch_of_absent habsent, halloc]
    · rw [allocateFrame, halloc]
    · rw [hfree]
      exact List.cons_ne_nil x xs
  | nil =>
    have hfull := alloc_of_full (i := i) hfree
    cases hfound : L.session.pool.getPurgeableFrame with
    | none =>
      have hpinned : ¬L.session.pool.HasFrame := by
        rintro (hne | ⟨j, y, hy, hpin⟩)
        · exact hne hfree
        · exact getPurgeableFrame_eq_none hfound hy hpin
      refine ⟨[], .noMem, 0, L.session.pool, fun fuel => ?_, ?_, .inr ⟨rfl, hpinned⟩, Nat.zero_le 1, nofun⟩
      · rw [allocateFrameLoop]
        simp only [hself, touch_of_absent habsent, hfull, hfound]
      · rw [allocateFrame, hfull]
    | some e =>
      obtain ⟨v, y⟩ := e
      obtain ⟨hv, hpin, holdest⟩ := getPurgeableFrame_spec hrecent hfound
      obtain ⟨t, halloc, hloop, hrounds⟩ := allocateFrameLoop_evict hsound habsent hfree hfound hv hpin
      have hplaced := (alloc_reserved halloc).cache
      refine ⟨[v], .success, y, t, hloop, hrounds, .inl ⟨rfl, .inr ⟨v, y, hv, hpin⟩, ?_⟩, le_rfl, ?_⟩
      · rw [hplaced, AList.lookup_insert]
      · intro v' hv'
        obtain rfl := List.mem_singleton.mp hv'
        exact ⟨y, hv, hpin, holdest, files_purgeFrame hsound hv, halloc⟩

end Runs

/-- Two frames and files that were just created; no page was used yet. -/
def unused : LruSession BufferPoolFileHeader := ⟨Session.twoFrames, fun _ => 0, 0⟩

/-- A file is opened and gets a page, which is written and given back: no frame is free. -/
theorem full_of_written : ∃ L, Relation.ReflTransGen (Step Session.headerOnly) unused L ∧
    L.session.pool.free = [] ∧ L.session.pool.frameLruCache.lookup ⟨3, 1⟩ = some 1 ∧
    L.session.pool.frameLruCache.lookup ⟨3, 2⟩ = none ∧ (L.session.pool.frame 1).dirty = true ∧
    (L.session.pool.allocateFrameLoop 2 3 2).map (fun e => (e.1, e.2.1)) = some ([⟨3, 1⟩], .success) := by
  have hopen := Relation.ReflTransGen.single (Step.openFile (L := unused)
    (rfl : unused.session.pool.fdBufferPools 3 = false) (PageFile.create_wellFormed Session.headerOnly)
    (rfl : unused.session.pool.openFile 3 [] = (_, _)))
  have hadd := hopen.tail (@Step.allocatePage _ _ Session.headerOnly _ _ 3 1 [] _ _ rfl rfl rfl)
  have hwrite := hadd.tail (.writePage (i := ⟨3, 1⟩) (x := 1) (d := default) (by decide) nofun)
  exact ⟨_, hwrite.tail (.unpinPage (i := ⟨3, 1⟩) (x := 1) (by decide)), rfl, rfl, rfl, rfl, rfl⟩

/-- With no frame free, a request throws out the page that is not pinned, which is written. -/
theorem allocateFrame_lru_full :
    ∃ L, Relation.ReflTransGen (Step Session.headerOnly) unused L ∧ L.session.pool.free = [] ∧
      ((L.session.pool.purgeFrame 3 1 1).files 3).page 1 = (L.session.pool.frame 1).page ∧
      ∃ x t, (∀ fuel, L.session.pool.allocateFrameLoop (fuel + 2) 3 2 = some ([⟨3, 1⟩], .success, x, t)) ∧
        t.frameLruCache.lookup ⟨3, 2⟩ = some x := by
  have h₀ : unused.session.Fresh := ⟨rfl, by decide, fun _ => rfl, fun _ => rfl, fun _ => rfl⟩
  obtain ⟨L, hrun, hfree, hlook, habsent, hdirty, htwo⟩ := full_of_written
  obtain ⟨victims, r, x, t, hloop, -, hcase, -, hvictims⟩ :=
    allocateFrame_lru Session.headerOnly h₀ hrun ⟨3, 2⟩ habsent
  rw [hloop 0] at htwo
  obtain ⟨rfl, rfl⟩ : victims = [⟨3, 1⟩] ∧ r = .success := by simpa using htwo
  obtain ⟨y, hy, -, -, hwritten, -⟩ := hvictims _ List.mem_cons_self
  obtain rfl : 1 = y := Option.some.inj (hlook.symm.trans hy)
  have hplaced := (hcase.resolve_right fun hnomem => absurd hnomem.1 (by decide)).2.2
  exact ⟨L, hrun, hfree, hwritten hdirty, x, t, hloop, hplaced⟩

end LruSession

end GlobalBufferPoolManager

end Idmbs
