import Idmbs.Storage.BufferPages

/-!
# Idmbs.Storage.BufferFiles

`OpenFile` and `CloseFile`: the header comes into a frame and stays there until the file is closed; the other frames of
the file are left over.
-/

namespace Idmbs

variable {δ : Type}

namespace GlobalBufferPoolManager

variable {H : HeaderView δ} {s t : GlobalBufferPoolManager δ} {pins : Pins}
  {stale : FrameId → Bool} {i i' : FrameId} {fd x y n : Nat} {p : PageId} {f : Frame δ} {d : δ}

theorem openFile_spec [Inhabited δ] {victims : List FrameId} {r : Re} (h : Sound H s pins stale)
    (hclosed : s.fdBufferPools fd = false) (hfile : (s.files fd).WellFormed H) (hrun : s.openFile fd victims = (r, t)) :
    r = .success ∧ t.fdBufferPools = Function.update s.fdBufferPools fd true ∧
        Sound H t pins (Function.update stale ⟨fd, PagePool.headerPage⟩ false) ∧
        t.content (Function.update stale ⟨fd, PagePool.headerPage⟩ false) = s.content stale ∨
      r ≠ .success ∧ t.fdBufferPools = s.fdBufferPools ∧ Sound H t pins stale ∧
        t.content stale = s.content stale := by
  unfold openFile at hrun
  obtain ⟨⟨r1, x, s1⟩, hres⟩ : ∃ a, s.fetchPage fd PagePool.headerPage victims = a := ⟨_, rfl⟩
  simp only [hres] at hrun
  rcases fetchPage_spec (i := ⟨fd, PagePool.headerPage⟩) h hres with ⟨rfl, u, hu⟩ | ⟨hr, ht⟩
  · simp only [ne_eq, not_true_eq_false, if_false] at hrun
    cases hrun
    have hpool : u.fdBufferPools = s.fdBufferPools := hu.evicted.opened
    have hzero : pins (⟨fd, PagePool.headerPage⟩, x) = 0 := by
      by_contra hne
      obtain ⟨hx, hs⟩ := h.held (Nat.pos_of_ne_zero hne)
      have hop := h.opened hx hs
      rw [hclosed] at hop
      cases hop
    obtain ⟨hsound, hcontent⟩ := hu.sound (n := 0) rfl (Function.update s1.fdBufferPools fd true)
      (Function.update s1.headerFrame fd x) (Function.update_self ..) (fun fd' hfd => by
        by_cases he : fd' = fd
        · subst he
          exact .inr ⟨rfl, Function.update_self .., by rw [hpool]; exact hclosed⟩
        · rw [Function.update_of_ne he, hu.opened] at hfd
          exact .inl ⟨hfd, by rw [Function.update_of_ne he, hu.header]⟩)
      (fun fd' hfd => by
        by_cases he : fd' = fd
        · subst he
          exact Function.update_self ..
        · rw [Function.update_of_ne he, hu.opened]
          exact hfd)
      (fun _ => by
        have hsame := hu.evicted.closed fd hclosed
        simp only
        rw [hsame]
        exact hfile)
    rw [← hzero, Function.update_eq_self] at hsound
    exact .inl ⟨rfl, by rw [hu.opened, hpool], hsound, hcontent⟩
  · rw [if_pos hr] at hrun
    cases hrun
    exact .inr ⟨hr, ht.opened, ht.sound, ht.content⟩

/-- The frames of a file that is closed are left over. -/
def leave (stale : FrameId → Bool) (fd : Nat) : FrameId → Bool :=
  fun i => if i.fileDesc = fd then true else stale i

theorem leave_of_ne (h : i.fileDesc ≠ fd) : leave stale fd i = stale i := if_neg h

theorem leave_eq_false (h : leave stale fd i = false) : i.fileDesc ≠ fd ∧ stale i = false := by
  unfold leave at h
  by_cases he : i.fileDesc = fd
  · rw [if_pos he] at h
    cases h
  · rw [if_neg he] at h
    exact ⟨he, h⟩

namespace Sound

theorem setFile (h : Sound H s pins stale) (hclosed : s.fdBufferPools fd = false) (g : PageFile δ) :
    Sound H { s with files := Function.update s.files fd g } pins stale := by
  have hother : ∀ {fd'}, s.fdBufferPools fd' = true → Function.update s.files fd g fd' = s.files fd' := by
    intro fd' hopen
    refine Function.update_of_ne ?_ ..
    rintro rfl
    rw [hclosed] at hopen
    cases hopen
  refine ⟨h.cached, ?_, ?_, h.opened, h.counted, h.idle, h.held, h.free, h.nodup, ?_, h.header, ?_⟩
  · intro i x hx hs
    simp only [hother (h.opened hx hs)]
    exact h.inFile hx hs
  · intro i x hx hs hdirty
    simp only [hother (h.opened hx hs)]
    exact h.clean hx hs hdirty
  · intro fd' hopen
    simp only [hother hopen]
    exact h.ids hopen
  · intro fd' hopen
    simp only [hother hopen]
    exact h.pages hopen

/-- What a client reads of a file that is not open is on file. -/
theorem content_closed (h : Sound H s pins stale) (hclosed : s.fdBufferPools i.fileDesc = false) :
    s.content stale i = s.fileBytes i := by
  unfold content
  cases hx : s.frameLruCache.lookup i with
  | none => rfl
  | some x =>
    cases hs : stale i with
    | true => rfl
    | false =>
      rw [h.opened hx hs] at hclosed
      cases hclosed

end Sound

/-! ### A file is closed that has nothing to write -/

/-- `t` is `s` without the file `fd`, whose header is no longer in a frame. -/
structure Closed (s : GlobalBufferPoolManager δ) (fd : Nat) (t : GlobalBufferPoolManager δ) : Prop where
  cache : t.frameLruCache = s.frameLruCache.erase ⟨fd, PagePool.headerPage⟩
  free : t.free = s.free ++ [s.headerFrame fd]
  frame : ∀ y, y ≠ s.headerFrame fd → t.frame y = s.frame y
  files : t.files = s.files
  pools : t.fdBufferPools = Function.update s.fdBufferPools fd false
  header : t.headerFrame = s.headerFrame

namespace Closed

theorem lookup_of_ne (ht : Closed s fd t) (hne : i ≠ ⟨fd, PagePool.headerPage⟩) :
    t.frameLruCache.lookup i = s.frameLruCache.lookup i := by
  rw [ht.cache, AList.lookup_erase_ne hne]

theorem kept (ht : Closed s fd t) (h : Sound H s pins stale) (hopen : s.fdBufferPools fd = true)
    (hy : t.frameLruCache.lookup i = some y) :
    s.frameLruCache.lookup i = some y ∧ i ≠ ⟨fd, PagePool.headerPage⟩ ∧ t.frame y = s.frame y := by
  rw [ht.cache] at hy
  by_cases he : i = ⟨fd, PagePool.headerPage⟩
  · rw [he, AList.lookup_erase] at hy
    cases hy
  · rw [AList.lookup_erase_ne he] at hy
    refine ⟨hy, he, ht.frame y ?_⟩
    rintro rfl
    exact he (h.inj hy (h.header hopen).1)

theorem opened {fd' : Nat} (ht : Closed s fd t) (hopen : t.fdBufferPools fd' = true) :
    fd' ≠ fd ∧ s.fdBufferPools fd' = true := by
  rw [ht.pools] at hopen
  by_cases he : fd' = fd
  · rw [he, Function.update_self] at hopen
    cases hopen
  · rw [Function.update_of_ne he] at hopen
    exact ⟨he, hopen⟩

theorem fileBytes (ht : Closed s fd t) : t.fileBytes = s.fileBytes := by
  funext i
  unfold GlobalBufferPoolManager.fileBytes
  rw [ht.files]

theorem content_of_ne (ht : Closed s fd t) (h : Sound H s pins stale) (hopen : s.fdBufferPools fd = true)
    (hne : i.fileDesc ≠ fd) : t.content (leave stale fd) i = s.content stale i := by
  unfold content
  rw [ht.lookup_of_ne fun he => hne (by rw [he]), leave_of_ne hne, ht.fileBytes]
  cases hy : s.frameLruCache.lookup i with
  | none => rfl
  | some y =>
    simp only
    rw [ht.frame y]
    rintro rfl
    exact hne (congrArg FrameId.fileDesc (h.inj hy (h.header hopen).1))

theorem fileBytes_eq (ht : Closed s fd t) (h : Sound H s pins stale)
    (hclean : ∀ i x, i.fileDesc = fd → s.frameLruCache.lookup i = some x → stale i = false →
      (s.frame x).dirty = false) : t.fileBytes ⟨fd, p⟩ = s.content stale ⟨fd, p⟩ := by
  rw [ht.fileBytes]
  unfold content
  cases hy : s.frameLruCache.lookup ⟨fd, p⟩ with
  | none => rfl
  | some y =>
    cases hs : stale ⟨fd, p⟩ with
    | true => rfl
    | false =>
      have hin := h.inFile hy hs
      have hpage := h.clean hy hs (hclean _ y rfl hy hs)
      simp only [GlobalBufferPoolManager.fileBytes, Bool.false_eq_true, if_false] at hin hpage ⊢
      rw [if_pos hin, hpage]

theorem wellFormed (ht : Closed s fd t) (h : Sound H s pins stale) (hopen : s.fdBufferPools fd = true)
    (hclean : (s.frame (s.headerFrame fd)).dirty = false) : (t.files fd).WellFormed H := by
  obtain ⟨hhead, hheads⟩ := h.header hopen
  rw [ht.files]
  refine ⟨h.ids hopen, ?_⟩
  have hpage := h.clean hhead hheads hclean
  simp only at hpage
  rw [hpage]
  exact h.pages hopen

/-- Nobody holds a page of the file, so its other frames may be left over. -/
theorem idle (ht : Closed s fd t) (h : Sound H s pins stale) (hopen : s.fdBufferPools fd = true)
    (hpins : ∀ i x, i.fileDesc = fd → pins (i, x) = 0)
    (hclean : ∀ i x, i.fileDesc = fd → s.frameLruCache.lookup i = some x → stale i = false →
      (s.frame x).dirty = false)
    (hy : t.frameLruCache.lookup i = some y) (hs : leave stale fd i = true) :
    (t.frame y).dirty = false ∧ (t.frame y).pinCount = 0 := by
  obtain ⟨hold, hne, hf⟩ := ht.kept h hopen hy
  rw [hf]
  cases hfresh : stale i with
  | true => exact h.idle hold hfresh
  | false =>
    have hfd : i.fileDesc = fd := by
      by_contra hfd
      rw [leave_of_ne hfd, hfresh] at hs
      cases hs
    have hpin : headerPin i = 0 := if_neg fun hp => hne (by rw [← hfd, ← hp])
    refine ⟨hclean i y hfd hold hfresh, ?_⟩
    rw [h.counted hold hfresh, hpins i y hfd, hpin]

theorem held (ht : Closed s fd t) (h : Sound H s pins stale) (hpins : ∀ i x, i.fileDesc = fd → pins (i, x) = 0)
    (hpos : 0 < pins (i, y)) : t.frameLruCache.lookup i = some y ∧ leave stale fd i = false := by
  obtain ⟨hy, hfresh⟩ := h.held hpos
  have hfd : i.fileDesc ≠ fd := by
    intro hfd
    rw [hpins i y hfd] at hpos
    exact absurd hpos (lt_irrefl 0)
  have hne : i ≠ ⟨fd, PagePool.headerPage⟩ := fun he => hfd (by rw [he])
  rw [ht.lookup_of_ne hne, leave_of_ne hfd]
  exact ⟨hy, hfresh⟩

/-- The frame of the header is free. -/
theorem free_absent (ht : Closed s fd t) (h : Sound H s pins stale) (hopen : s.fdBufferPools fd = true) :
    t.free.Nodup ∧ ∀ y ∈ t.free, ∀ i, t.frameLruCache.lookup i ≠ some y := by
  obtain ⟨hhead, -⟩ := h.header hopen
  rw [ht.free]
  constructor
  · refine List.nodup_append.mpr ⟨h.nodup, List.nodup_singleton _, ?_⟩
    intro y hy z hz he
    rw [he, List.mem_singleton.mp hz] at hy
    exact h.free _ hy _ hhead
  · intro y hy i hlk
    obtain ⟨hold, hne, -⟩ := ht.kept h hopen hlk
    rcases List.mem_append.mp hy with hy | hy
    · exact h.free y hy i hold
    · rw [List.mem_singleton.mp hy] at hold
      exact hne (h.inj hold hhead)

theorem headers {fd' : Nat} (ht : Closed s fd t) (h : Sound H s pins stale) (hopen : s.fdBufferPools fd = true)
    (hopen' : t.fdBufferPools fd' = true) :
    (t.frameLruCache.lookup ⟨fd', PagePool.headerPage⟩ = some (t.headerFrame fd') ∧
        leave stale fd ⟨fd', PagePool.headerPage⟩ = false) ∧
      (t.fileHeader H fd').pagesNum ≤ (t.files fd').size := by
  obtain ⟨hhead, -⟩ := h.header hopen
  obtain ⟨hne, hold⟩ := ht.opened hopen'
  have hne' : (⟨fd', PagePool.headerPage⟩ : FrameId) ≠ ⟨fd, PagePool.headerPage⟩ :=
    fun he => hne (congrArg FrameId.fileDesc he)
  constructor
  · rw [ht.lookup_of_ne hne', ht.header, leave_of_ne hne]
    exact h.header hold
  · have hxne : s.headerFrame fd' ≠ s.headerFrame fd := by
      intro he
      have hhead' := (h.header hold).1
      rw [he] at hhead'
      exact hne (congrArg FrameId.fileDesc (h.inj hhead' hhead))
    unfold GlobalBufferPoolManager.fileHeader
    rw [ht.header, ht.frame _ hxne, ht.files]
    exact h.pages hold

theorem sound (ht : Closed s fd t) (h : Sound H s pins stale) (hopen : s.fdBufferPools fd = true)
    (hpins : ∀ i x, i.fileDesc = fd → pins (i, x) = 0)
    (hclean : ∀ i x, i.fileDesc = fd → s.frameLruCache.lookup i = some x → stale i = false →
      (s.frame x).dirty = false) : Sound H t pins (leave stale fd) := by
  constructor
  case cached =>
    intro i y hy
    obtain ⟨hold, -, hf⟩ := ht.kept h hopen hy
    rw [hf]
    exact h.cached hold
  case inFile =>
    intro i y hy hs
    rw [ht.files]
    exact h.inFile (ht.kept h hopen hy).1 (leave_eq_false hs).2
  case clean =>
    intro i y hy hs hdirty
    obtain ⟨hold, -, hf⟩ := ht.kept h hopen hy
    rw [hf] at hdirty ⊢
    rw [ht.files]
    exact h.clean hold (leave_eq_false hs).2 hdirty
  case opened =>
    intro i y hy hs
    obtain ⟨hne, hfresh⟩ := leave_eq_false hs
    rw [ht.pools, Function.update_of_ne hne]
    exact h.opened (ht.kept h hopen hy).1 hfresh
  case counted =>
    intro i y hy hs
    obtain ⟨hold, -, hf⟩ := ht.kept h hopen hy
    rw [hf]
    exact h.counted hold (leave_eq_false hs).2
  case idle => exact ht.idle h hopen hpins hclean
  case held => exact ht.held h hpins
  case free => exact (ht.free_absent h hopen).2
  case nodup => exact (ht.free_absent h hopen).1
  case ids =>
    intro fd' hfd
    rw [ht.files]
    exact h.ids (ht.opened hfd).2
  case header => exact fun hfd => (ht.headers h hopen hfd).1
  case pages => exact fun hfd => (ht.headers h hopen hfd).2

end Closed

/-- `CloseFile`, when the file has no page to write but its header. -/
theorem closeFile_spec [Inhabited δ] (h : Sound H s pins stale) (hopen : s.fdBufferPools fd = true)
    (hpins : ∀ i x, i.fileDesc = fd → pins (i, x) = 0)
    (hclean : ∀ i x, i.fileDesc = fd → i.pageId ≠ PagePool.headerPage →
      s.frameLruCache.lookup i = some x → (s.frame x).dirty = false) {r : Re}
    (hrun : s.closeFile fd = (r, t)) :
    r = .success ∧ t.fdBufferPools = Function.update s.fdBufferPools fd false ∧
      Sound H t pins (leave stale fd) ∧
      (∀ i, i.fileDesc ≠ fd → t.content (leave stale fd) i = s.content stale i) ∧
      (∀ p, t.fileBytes ⟨fd, p⟩ = s.content stale ⟨fd, p⟩) ∧ (t.files fd).WellFormed H := by
  obtain ⟨hhead, hheads⟩ := h.header hopen
  obtain ⟨x, hx⟩ : ∃ x, x = s.headerFrame fd := ⟨_, rfl⟩
  rw [← hx] at hhead
  have hpin : (s.frame x).pinCount = 1 := by
    rw [h.counted hhead hheads, hpins _ _ rfl]
    rfl
  -- the pin of the header is gone; the frame is as it was otherwise
  obtain ⟨u, hu⟩ : ∃ u, u = ({ s with fdBufferPools := Function.update s.fdBufferPools fd false } :
    GlobalBufferPoolManager δ).setFrame x { s.frame x with pinCount := (s.frame x).pinCount - 1 } := ⟨_, rfl⟩
  have hux : u.frame x = { s.frame x with pinCount := 0 } := by
    rw [hu, hpin]
    exact Function.update_self ..
  have hget : u.getFrame fd PagePool.headerPage = some x := by
    rw [hu]
    exact hhead
  have hidle : ¬(u.frame x).pinCount ≠ 0 := by
    rw [hux]
    exact fun hne => hne rfl
  have hclose : s.closeFile fd = (.success, u.purgeFrame fd PagePool.headerPage x) := by
    unfold closeFile
    simp only [← hx, ← hu, hget, if_neg hidle]
  rw [hclose] at hrun
  cases hrun
  -- the header is written before its frame is given back
  obtain ⟨v, hv⟩ : ∃ v, v = if (u.frame x).dirty then u.flushPage fd x else u := ⟨_, rfl⟩
  obtain ⟨w, hw⟩ : ∃ w, w = if (s.frame x).dirty then s.flushPage fd x else s := ⟨_, rfl⟩
  have hwv : Sound H w pins stale ∧ w.content stale = s.content stale ∧ (w.frame x).dirty = false ∧
      w.frameLruCache = s.frameLruCache ∧ w.free = s.free ∧ w.fdBufferPools = s.fdBufferPools ∧
      w.headerFrame = s.headerFrame ∧ v.frameLruCache = s.frameLruCache ∧ v.free = s.free ∧
      v.fdBufferPools = Function.update s.fdBufferPools fd false ∧ v.headerFrame = s.headerFrame ∧
      v.files = w.files ∧ (∀ y, y ≠ x → v.frame y = s.frame y ∧ w.frame y = s.frame y) := by
    have hother : ∀ y, y ≠ x → u.frame y = s.frame y := by
      intro y hne
      rw [hu]
      exact Function.update_of_ne hne ..
    cases hdirty : (s.frame x).dirty with
    | true =>
      have hdirty' : (u.frame x).dirty = true := by rw [hux]; exact hdirty
      rw [hdirty, if_pos rfl] at hw
      rw [hdirty', if_pos rfl] at hv
      obtain ⟨hsound, hcontent⟩ := h.flushPage hhead hheads
      have hfiles : v.files = w.files := by
        rw [hv, hw]
        simp only [flushPage, hux]
        rw [hu]
        rfl
      subst hw hv
      refine ⟨hsound, hcontent, ?_, rfl, rfl, rfl, rfl, ?_, ?_, ?_, ?_, hfiles, fun y hne => ⟨?_, ?_⟩⟩
      · simp only [flushPage, Function.update_self]
      · rw [hu]; rfl
      · rw [hu]; rfl
      · rw [hu]; rfl
      · rw [hu]; rfl
      · simp only [flushPage, Function.update_of_ne hne]
        exact hother y hne
      · simp only [flushPage, Function.update_of_ne hne]
    | false =>
      have hdirty' : (u.frame x).dirty = false := by rw [hux]; exact hdirty
      rw [hdirty, if_neg Bool.false_ne_true] at hw
      rw [hdirty', if_neg Bool.false_ne_true] at hv
      subst hw hv
      refine ⟨h, rfl, hdirty, rfl, rfl, rfl, rfl, ?_, ?_, ?_, ?_, ?_, fun y hne => ⟨hother y hne, rfl⟩⟩
      · rw [hu]; rfl
      · rw [hu]; rfl
      · rw [hu]; rfl
      · rw [hu]; rfl
      · rw [hu]; rfl
  obtain ⟨hsound, hcontent, hclean', hwcache, hwfree, hwpools, hwhead, hvcache, hvfree, hvpools, hvhead,
    hvfiles, hframes⟩ := hwv
  have hvget : v.getFrame fd PagePool.headerPage = some x := by
    unfold getFrame
    rw [hvcache]
    exact hhead
  have hpurge : u.purgeFrame fd PagePool.headerPage x =
      { v with frameLruCache := v.frameLruCache.erase ⟨fd, PagePool.headerPage⟩, free := v.free ++ [x] } := by
    rw [purgeFrame, ← hv, freeFrame, if_pos hvget]
  rw [hpurge]
  have hopen' : w.fdBufferPools fd = true := by
    rw [hwpools]
    exact hopen
  have hclosed : Closed w fd { v with
      frameLruCache := v.frameLruCache.erase ⟨fd, PagePool.headerPage⟩, free := v.free ++ [x] } := by
    refine ⟨?_, ?_, fun y hne => ?_, hvfiles, ?_, hvhead.trans hwhead.symm⟩
    · rw [hwcache, hvcache]
    · rw [hwfree, hvfree, hwhead, hx]
    · rw [hwhead, ← hx] at hne
      exact (hframes y hne).1.trans (hframes y hne).2.symm
    · rw [hwpools]
      exact hvpools
  have hwritten : ∀ i y, i.fileDesc = fd → w.frameLruCache.lookup i = some y → stale i = false →
      (w.frame y).dirty = false := by
    intro i y hfd hy hs
    rw [hwcache] at hy
    by_cases he : y = x
    · rw [he]
      exact hclean'
    · rw [(hframes y he).2]
      refine hclean i y hfd (fun hp => he ?_) hy
      have hi : i = ⟨fd, PagePool.headerPage⟩ := by rw [← hfd, ← hp]
      rw [hi, hhead] at hy
      exact (Option.some.inj hy).symm
  have hheader : (w.frame (w.headerFrame fd)).dirty = false := by
    rw [hwhead, ← hx]
    exact hclean'
  refine ⟨rfl, hvpools, hclosed.sound hsound hopen' hpins hwritten, fun i hne => ?_, fun p => ?_,
    hclosed.wellFormed hsound hopen' hheader⟩
  · rw [← hcontent]
    exact hclosed.content_of_ne hsound hopen' hne
  · rw [← hcontent]
    exact hclosed.fileBytes_eq hsound hwritten

end GlobalBufferPoolManager

end Idmbs
