import Idmbs.Storage.BufferTransparency

/-!
# Idmbs.Storage.BufferClose

Runs in which files are created, opened and closed, and a descriptor is given out again. `CloseFile` gives
back the frame of the header only: what else of the file is cached stays there under its descriptor, not
written and not told apart from the pages of the next file that gets the descriptor.
-/

namespace Idmbs

variable {δ : Type}

namespace PageFile

def image (f : PageFile δ) (p : PageId) : Option δ := if p < f.size then some (f.page p).pageData else none

end PageFile

namespace GlobalBufferPoolManager

/-- A session with files that are not open: `disk` by name, and `image` what was last written to them.
`bufferPools` says which files are open, and `stale` for which pages a frame may be left over. -/
structure FileSession (δ : Type) extends Session δ where
  stale : FrameId → Bool
  disk : String → Option (PageFile δ)
  image : String → PageId → Option δ
  bufferPools : String → Option Nat

inductive Call (δ : Type) where
  | createFile (name : String)
  | openFile (name : String) (fd : Nat) (victims : List FrameId)
  | closeFile (name : String)
  | getPage (i : FrameId) (victims : List FrameId)
  | writePage (i : FrameId) (x : Nat) (d : δ)
  | unpinPage (i : FrameId) (x : Nat)
  | allocatePage (fd : Nat) (victims : List FrameId)
  | flushPage (i : FrameId) (x : Nat)

namespace FileSession

variable {H : HeaderView δ} {S S' : FileSession δ} {c : Call δ}

/-- A page is fetched by a call with the result `r`: its frame is not one that is left over. -/
def fetched (stale : FrameId → Bool) (r : Re) (i : FrameId) : FrameId → Bool :=
  if r = .success then Function.update stale i false else stale

/-- A file is opened: its pages are those it was left with. -/
def opened (S : FileSession δ) (name : String) (fd : Nat) (t : GlobalBufferPoolManager δ) : FileSession δ where
  pool := t
  pins := S.pins
  pages := fun i => if i.fileDesc = fd then S.image name i.pageId else S.pages i
  stale := Function.update S.stale ⟨fd, PagePool.headerPage⟩ false
  disk := S.disk
  image := S.image
  bufferPools := Function.update S.bufferPools name (some fd)

def closed (S : FileSession δ) (name : String) (fd : Nat) (t : GlobalBufferPoolManager δ) : FileSession δ where
  pool := t
  pins := S.pins
  pages := S.pages
  stale := leave S.stale fd
  disk := Function.update S.disk name (some (t.files fd))
  image := Function.update S.image name fun p => S.pages ⟨fd, p⟩
  bufferPools := Function.update S.bufferPools name none

section Runs

variable [Inhabited δ]

/-- A call of a client. It uses frames that it has pinned, leaves `pages_num` to the pool, and has no page
pinned of a file it closes. The system gives any descriptor that is not in use. -/
inductive Step (H : HeaderView δ) (S : FileSession δ) : Call δ → FileSession δ → Prop
  | createFile {name : String} (hnew : S.disk name = none) :
      Step H S (.createFile name) { S with
        disk := Function.update S.disk name (some (.create H))
        image := Function.update S.image name (PageFile.create H).image }
  | createFile_exists {name : String} (hold : S.disk name ≠ none) : Step H S (.createFile name) S
  | openFile {name : String} {fd : Nat} {victims : List FrameId} {f : PageFile δ}
      {t : GlobalBufferPoolManager δ} {r : Re} (hname : S.bufferPools name = none)
      (hdisk : S.disk name = some f) (hfd : S.pool.fdBufferPools fd = false)
      (hrun : ({ S.pool with files := Function.update S.pool.files fd f } :
        GlobalBufferPoolManager δ).openFile fd victims = (r, t)) :
      Step H S (.openFile name fd victims)
        (if r = .success then S.opened name fd t else { S with pool := t })
  | openFile_refused {name : String} {fd : Nat} {victims : List FrameId}
      (h : S.bufferPools name ≠ none ∨ S.disk name = none) : Step H S (.openFile name fd victims) S
  | closeFile {name : String} {fd : Nat} {t : GlobalBufferPoolManager δ} {r : Re}
      (hname : S.bufferPools name = some fd) (hpins : ∀ i x, i.fileDesc = fd → S.pins (i, x) = 0)
      (hrun : S.pool.closeFile fd = (r, t)) : Step H S (.closeFile name) (S.closed name fd t)
  | closeFile_refused {name : String} (hname : S.bufferPools name = none) : Step H S (.closeFile name) S
  | getPage {i : FrameId} {victims : List FrameId} {t : GlobalBufferPoolManager δ} {r : Re} {x : Nat}
      (hopen : S.pool.fdBufferPools i.fileDesc = true)
      (hrun : S.pool.getPage i.fileDesc i.pageId victims = (r, x, t)) :
      Step H S (.getPage i victims) { S with
        pool := t
        pins := Session.pinned S.pins r i x
        stale := fetched S.stale r i }
  | writePage {i : FrameId} {x : Nat} {d : δ} (hpin : 0 < S.pins (i, x))
      (hheader : i.pageId = PagePool.headerPage →
        (H.fileHeader d).pagesNum = (S.pool.fileHeader H i.fileDesc).pagesNum) :
      Step H S (.writePage i x d) { S with
        pool := S.pool.writePage x d
        pages := Function.update S.pages i (some d) }
  | unpinPage {i : FrameId} {x : Nat} (hpin : 0 < S.pins (i, x)) :
      Step H S (.unpinPage i x) { S with
        pool := S.pool.unpinPage x
        pins := Function.update S.pins (i, x) (S.pins (i, x) - 1) }
  | allocatePage {fd : Nat} {victims : List FrameId} {t : GlobalBufferPoolManager δ} {r : Re} {x : Nat}
      (hopen : S.pool.fdBufferPools fd = true) (hrun : S.pool.allocatePage H fd victims = (r, x, t)) :
      Step H S (.allocatePage fd victims) { S with
        pool := t
        pins := Session.pinned S.pins r ⟨fd, (t.frame x).page.pageId⟩ x
        pages := allocated H S.pages fd r
        stale := fetched S.stale r ⟨fd, (t.frame x).page.pageId⟩ }
  | flushPage {i : FrameId} {x : Nat} (hpin : 0 < S.pins (i, x)) :
      Step H S (.flushPage i x) { S with pool := S.pool.flushPage i.fileDesc x }

/-- The call does not run into what `CloseFile` leaves behind: a file is closed with no page to write but
its header, and no frame that is left over is taken for a page. -/
def Harmless (H : HeaderView δ) (S : FileSession δ) : Call δ → Prop
  | .closeFile name => ∀ fd, S.bufferPools name = some fd → ∀ i x, i.fileDesc = fd →
      i.pageId ≠ PagePool.headerPage → S.pool.frameLruCache.lookup i = some x → (S.pool.frame x).dirty = false
  | .getPage i _ => ∀ x, S.pool.frameLruCache.lookup i = some x → S.stale i = false
  | .allocatePage fd _ => ∀ q x, firstFree (S.pool.fileHeader H fd) = some q →
      S.pool.frameLruCache.lookup ⟨fd, q⟩ = some x → S.stale ⟨fd, q⟩ = false
  | _ => True

/-- What a client has got is the page it asked for; what may be written is a page of the file it is
written to; what was written to a file that is closed has reached it. -/
structure LeavesNothing (S : FileSession δ) : Prop where
  got : ∀ i x, 0 < S.pins (i, x) → S.pool.frameLruCache.lookup i = some x ∧
    S.pages i = some (S.pool.frame x).page.pageData
  own : ∀ i x, S.pool.frameLruCache.lookup i = some x → (S.pool.frame x).dirty = true →
    S.pool.fdBufferPools i.fileDesc = true ∧ (S.pool.frame x).fileDesc = i.fileDesc ∧
      (S.pool.frame x).page.pageId = i.pageId ∧ S.pages i = some (S.pool.frame x).page.pageData
  reached : ∀ name f, S.bufferPools name = none → S.disk name = some f → f.image = S.image name

/-- Nothing is open, nothing is cached, and there is no file. -/
structure Fresh (S : FileSession δ) : Prop where
  empty : S.pool.frameLruCache = ∅
  free : S.pool.free.Nodup
  closed : ∀ fd, S.pool.fdBufferPools fd = false
  unpinned : ∀ i, S.pins i = 0
  names : ∀ name, S.bufferPools name = none
  disk : ∀ name, S.disk name = none

/-- The pool is sound, the open files are seen as they are, and the others are as they were left. -/
structure Refines (H : HeaderView δ) (S : FileSession δ) : Prop where
  sound : Sound H S.pool S.pins S.stale
  content : ∀ i, S.pool.fdBufferPools i.fileDesc = true → S.pool.content S.stale i = S.pages i
  names : ∀ {name fd}, S.bufferPools name = some fd → S.pool.fdBufferPools fd = true
  inj : ∀ {name name' fd}, S.bufferPools name = some fd → S.bufferPools name' = some fd → name = name'
  files : ∀ {name f}, S.bufferPools name = none → S.disk name = some f →
    f.WellFormed H ∧ f.image = S.image name

omit [Inhabited δ] in
theorem Fresh.refines (h : S.Fresh) : Refines H S := by
  have hnone : ∀ {i x}, S.pool.frameLruCache.lookup i = some x → False := by
    intro i x hx
    rw [h.empty, AList.lookup_empty] at hx
    cases hx
  have hopen : ∀ {fd}, S.pool.fdBufferPools fd = true → False := by
    intro fd hfd
    rw [h.closed] at hfd
    cases hfd
  refine ⟨⟨fun hx => (hnone hx).elim, fun hx => (hnone hx).elim, fun hx => (hnone hx).elim,
    fun hx => (hnone hx).elim, fun hx => (hnone hx).elim, fun hx => (hnone hx).elim, fun hpos => ?_,
    fun x _ i hx => hnone hx, h.free, fun hfd => (hopen hfd).elim, fun hfd => (hopen hfd).elim,
    fun hfd => (hopen hfd).elim⟩, fun i hi => (hopen hi).elim, fun hname => ?_, fun hname => ?_,
    fun _ hdisk => ?_⟩
  · rw [h.unpinned] at hpos
    exact absurd hpos (lt_irrefl 0)
  · rw [h.names] at hname
    cases hname
  · rw [h.names] at hname
    cases hname
  · rw [h.disk] at hdisk
    cases hdisk

omit [Inhabited δ] in
theorem Refines.leavesNothing (h : Refines H S) : LeavesNothing S := by
  refine ⟨fun i x hpin => ?_, fun i x hx hdirty => ?_, fun name f hname hdisk => (h.files hname hdisk).2⟩
  · obtain ⟨hx, hs⟩ := h.sound.held hpin
    refine ⟨hx, ?_⟩
    rw [← h.content i (h.sound.opened hx hs)]
    exact Sound.content_cached hx hs
  · have hs : S.stale i = false := by
      cases hs : S.stale i with
      | false => rfl
      | true =>
        rw [(h.sound.idle hx hs).1] at hdirty
        cases hdirty
    have hopen := h.sound.opened hx hs
    obtain ⟨hfd, hp⟩ := h.sound.cached hx
    refine ⟨hopen, hfd, hp, ?_⟩
    rw [← h.content i hopen]
    exact Sound.content_cached hx hs

omit [Inhabited δ] in
theorem image_eq (s : GlobalBufferPoolManager δ) (fd : Nat) : (s.files fd).image = fun p => s.fileBytes ⟨fd, p⟩ :=
  rfl

/-- `AllocatePage` looks at the header and changes pages one by one. -/
theorem allocated_congr {A B : FrameId → Option δ} {fd : Nat} {r : Re} {i : FrameId}
    (h0 : A ⟨fd, PagePool.headerPage⟩ = B ⟨fd, PagePool.headerPage⟩) (hi : A i = B i) :
    allocated H A fd r i = allocated H B fd r i := by
  unfold allocated
  rw [h0]
  cases B ⟨fd, PagePool.headerPage⟩ with
  | none => exact hi
  | some d =>
    cases hfree : firstFree (H.fileHeader d) with
    | some q => simp only [hfree, Function.update_apply, hi]
    | none =>
      simp only [hfree]
      by_cases hr : r = .success
      · simp only [if_pos hr, Function.update_apply, hi]
      · simp only [if_neg hr, hi]

theorem refines_createFile (h : Refines H S) (name : String) : Refines H { S with
    disk := Function.update S.disk name (some (.create H))
    image := Function.update S.image name (PageFile.create H).image } := by
  refine ⟨h.sound, h.content, h.names, h.inj, ?_⟩
  intro name' f hname hdisk
  simp only at hname hdisk ⊢
  by_cases he : name' = name
  · subst he
    rw [Function.update_self] at hdisk ⊢
    cases hdisk
    exact ⟨PageFile.create_wellFormed H, rfl⟩
  · rw [Function.update_of_ne he] at hdisk ⊢
    exact h.files hname hdisk

theorem refines_openFile (h : Refines H S) {name : String} {fd : Nat} {victims : List FrameId}
    {f : PageFile δ} {t : GlobalBufferPoolManager δ} {r : Re} (hname : S.bufferPools name = none)
    (hdisk : S.disk name = some f) (hfd : S.pool.fdBufferPools fd = false)
    (hrun : ({ S.pool with files := Function.update S.pool.files fd f } :
      GlobalBufferPoolManager δ).openFile fd victims = (r, t)) :
    Refines H (if r = .success then S.opened name fd t else { S with pool := t }) := by
  obtain ⟨hwf, himage⟩ := h.files hname hdisk
  obtain ⟨s, hs⟩ : ∃ s, s = ({ S.pool with files := Function.update S.pool.files fd f } :
    GlobalBufferPoolManager δ) := ⟨_, rfl⟩
  have hsound : Sound H s S.pins S.stale := by
    rw [hs]
    exact h.sound.setFile hfd f
  have hpools : s.fdBufferPools = S.pool.fdBufferPools := by rw [hs]
  have hself : s.files fd = f := by
    rw [hs]
    exact Function.update_self ..
  have hother : ∀ i, i.fileDesc ≠ fd → s.content S.stale i = S.pool.content S.stale i := by
    intro i hne
    rw [hs]
    unfold content fileBytes
    simp only [Function.update_of_ne hne]
  have hnew : ∀ i, i.fileDesc = fd → s.content S.stale i = S.image name i.pageId := by
    rintro i rfl
    rw [hsound.content_closed (by rw [hpools]; exact hfd), ← himage, ← hself]
    rfl
  rw [← hs] at hrun
  rcases openFile_spec hsound (by rw [hpools]; exact hfd) (by rw [hself]; exact hwf) hrun with
    ⟨hr, hopen, hsound', hcontent⟩ | ⟨hr, hopen, hsound', hcontent⟩
  · rw [if_pos hr]
    refine ⟨hsound', ?_, ?_, ?_, ?_⟩
    · intro i hi
      simp only [opened] at hi ⊢
      rw [hcontent]
      by_cases he : i.fileDesc = fd
      · rw [if_pos he]
        exact hnew i he
      · rw [hopen, Function.update_of_ne he, hpools] at hi
        rw [if_neg he, hother i he]
        exact h.content i hi
    · intro name' fd' hname'
      simp only [opened] at hname' ⊢
      rw [hopen, hpools]
      by_cases he : fd' = fd
      · rw [he]
        exact Function.update_self ..
      · rw [Function.update_of_ne he]
        by_cases hn : name' = name
        · rw [hn, Function.update_self] at hname'
          exact absurd (Option.some.inj hname').symm he
        · rw [Function.update_of_ne hn] at hname'
          exact h.names hname'
    · intro name' name'' fd' h' h''
      simp only [opened] at h' h''
      have hfresh : ∀ {n}, n ≠ name → Function.update S.bufferPools name (some fd) n ≠ some fd := by
        intro n hn heq
        rw [Function.update_of_ne hn] at heq
        rw [h.names heq] at hfd
        cases hfd
      by_cases hn' : name' = name
      · rw [hn', Function.update_self] at h'
        rw [hn']
        by_contra hne
        exact hfresh (fun he => hne he.symm) (h''.trans h'.symm)
      · by_cases hn'' : name'' = name
        · rw [hn'', Function.update_self] at h''
          exact absurd (h'.trans h''.symm) (hfresh hn')
        · rw [Function.update_of_ne hn'] at h'
          rw [Function.update_of_ne hn''] at h''
          exact h.inj h' h''
    · intro name' f' hname' hdisk'
      simp only [opened] at hname' hdisk' ⊢
      by_cases hn : name' = name
      · rw [hn, Function.update_self] at hname'
        cases hname'
      · rw [Function.update_of_ne hn] at hname'
        exact h.files hname' hdisk'
  · rw [if_neg hr]
    refine ⟨hsound', ?_, ?_, h.inj, h.files⟩
    · intro i hi
      simp only at hi ⊢
      rw [hopen, hpools] at hi
      have hne : i.fileDesc ≠ fd := by
        intro he
        rw [he, hfd] at hi
        cases hi
      rw [hcontent, hother i hne]
      exact h.content i hi
    · intro name' fd' hname'
      simp only at hname' ⊢
      rw [hopen, hpools]
      exact h.names hname'

theorem refines_closeFile (h : Refines H S) {name : String} {fd : Nat} {t : GlobalBufferPoolManager δ}
    {r : Re} (hname : S.bufferPools name = some fd) (hpins : ∀ i x, i.fileDesc = fd → S.pins (i, x) = 0)
    (hok : Harmless H S (.closeFile name)) (hrun : S.pool.closeFile fd = (r, t)) :
    Refines H (S.closed name fd t) := by
  have hopen := h.names hname
  obtain ⟨-, hpools, hsound, hcontent, hbytes, hwf⟩ :=
    closeFile_spec h.sound hopen hpins (hok fd hname) hrun
  refine ⟨hsound, ?_, ?_, ?_, ?_⟩
  · intro i hi
    simp only [closed] at hi ⊢
    rw [hpools] at hi
    by_cases he : i.fileDesc = fd
    · rw [he, Function.update_self] at hi
      cases hi
    · rw [Function.update_of_ne he] at hi
      rw [hcontent i he]
      exact h.content i hi
  · intro name' fd' hname'
    simp only [closed] at hname' ⊢
    by_cases hn : name' = name
    · rw [hn, Function.update_self] at hname'
      cases hname'
    · rw [Function.update_of_ne hn] at hname'
      have hne : fd' ≠ fd := by
        rintro rfl
        exact hn (h.inj hname' hname)
      rw [hpools, Function.update_of_ne hne]
      exact h.names hname'
  · intro name' name'' fd' h' h''
    simp only [closed] at h' h''
    by_cases hn' : name' = name
    · rw [hn', Function.update_self] at h'
      cases h'
    · by_cases hn'' : name'' = name
      · rw [hn'', Function.update_self] at h''
        cases h''
      · rw [Function.update_of_ne hn'] at h'
        rw [Function.update_of_ne hn''] at h''
        exact h.inj h' h''
  · intro name' f hname' hdisk
    simp only [closed] at hname' hdisk ⊢
    by_cases hn : name' = name
    · rw [hn, Function.update_self] at hdisk ⊢
      cases hdisk
      refine ⟨hwf, ?_⟩
      rw [image_eq]
      funext p
      rw [hbytes]
      exact h.content ⟨fd, p⟩ hopen
    · rw [Function.update_of_ne hn] at hname' hdisk ⊢
      exact h.files hname' hdisk

theorem Step.refines (h : Refines H S) (hok : Harmless H S c) (hstep : Step H S c S') : Refines H S' := by
  cases hstep with
  | createFile hnew => exact refines_createFile h _
  | createFile_exists hold => exact h
  | openFile hname hdisk hfd hrun => exact refines_openFile h hname hdisk hfd hrun
  | openFile_refused hrefused => exact h
  | closeFile hname hpins hrun => exact refines_closeFile h hname hpins hok hrun
  | closeFile_refused hname => exact h
  | getPage hopen hrun =>
    obtain ⟨hpools, hcase⟩ := getPage_spec h.sound hopen hok hrun
    rcases hcase with ⟨rfl, -, hsound, hcontent⟩ | ⟨hr, hsound, hcontent⟩
    · refine ⟨hsound, fun i hi => ?_, fun hname => ?_, h.inj, h.files⟩
      · rw [hpools] at hi
        exact (congrFun hcontent i).trans (h.content i hi)
      · rw [hpools]
        exact h.names hname
    · simp only [Session.pinned, fetched, if_neg hr]
      refine ⟨hsound, fun i hi => ?_, fun hname => ?_, h.inj, h.files⟩
      · rw [hpools] at hi
        exact (congrFun hcontent i).trans (h.content i hi)
      · rw [hpools]
        exact h.names hname
  | @writePage i x d hpin hheader =>
    obtain ⟨hx, hs⟩ := h.sound.held hpin
    have hopen := h.sound.opened hx hs
    obtain ⟨hsound, hcontent⟩ := writePage_spec h.sound hx hs fun hp => by
      rw [hheader hp]
      exact h.sound.pages hopen
    refine ⟨hsound, fun i' hi => ?_, h.names, h.inj, h.files⟩
    simp only
    rw [hcontent]
    by_cases he : i' = i
    · rw [he, Function.update_self, Function.update_self]
    · rw [Function.update_of_ne he, Function.update_of_ne he]
      exact h.content i' hi
  | unpinPage hpin =>
    obtain ⟨hsound, hcontent⟩ := unpinPage_spec h.sound hpin
    exact ⟨hsound, fun i hi => (congrFun hcontent i).trans (h.content i hi), h.names, h.inj, h.files⟩
  | @allocatePage fd victims t r x hopen hrun =>
    obtain ⟨hpools, hcase⟩ := allocatePage_spec h.sound hopen hok hrun
    have hpages : ∀ i, S.pool.fdBufferPools i.fileDesc = true →
        allocated H (S.pool.content S.stale) fd r i = allocated H S.pages fd r i :=
      fun i hi => allocated_congr (h.content _ hopen) (h.content i hi)
    rcases hcase with ⟨hr, hsound, hcontent⟩ | ⟨hr, hsound, hcontent⟩
    · simp only [Session.pinned, fetched, if_pos hr]
      refine ⟨hsound, fun i hi => ?_, fun hname => ?_, h.inj, h.files⟩
      · rw [hpools] at hi
        exact (congrFun hcontent i).trans (hpages i hi)
      · rw [hpools]
        exact h.names hname
    · simp only [Session.pinned, fetched, if_neg hr]
      refine ⟨hsound, fun i hi => ?_, fun hname => ?_, h.inj, h.files⟩
      · rw [hpools] at hi
        exact (congrFun hcontent i).trans (hpages i hi)
      · rw [hpools]
        exact h.names hname
  | flushPage hpin =>
    obtain ⟨hx, hs⟩ := h.sound.held hpin
    obtain ⟨hsound, hcontent⟩ := h.sound.flushPage hx hs
    exact ⟨hsound, fun i hi => (congrFun hcontent i).trans (h.content i hi), h.names, h.inj, h.files⟩

def Reaches (H : HeaderView δ) : FileSession δ → FileSession δ → Prop :=
  Relation.ReflTransGen fun S S' => ∃ c, Step H S c S'

/-- A run of calls that do not run into what `CloseFile` leaves behind. -/
def HarmlessRun (H : HeaderView δ) : FileSession δ → FileSession δ → Prop :=
  Relation.ReflTransGen fun S S' => ∃ c, Harmless H S c ∧ Step H S c S'

/-- A closed file leaves nothing behind in a run of such calls. -/
theorem leavesNothing_of_harmless (H : HeaderView δ) {S₀ S : FileSession δ} (h₀ : S₀.Fresh)
    (hrun : HarmlessRun H S₀ S) : LeavesNothing S := by
  have hrefines : Refines H S := by
    induction hrun with
    | refl => exact h₀.refines
    | tail _ hstep ih =>
      obtain ⟨c, hok, hstep⟩ := hstep
      exact hstep.refines ih hok
  exact hrefines.leavesNothing

end Runs

/-! ## A page that is lost -/

open Session (headerOnly)

/-- Two frames and no files. -/
def noFiles : FileSession BufferPoolFileHeader where
  pool := ⟨∅, [0, 1], fun _ => ⟨false, 0, 0, ⟨0, default⟩⟩, fun _ => .create headerOnly, fun _ => false,
    fun _ => 0⟩
  pins := fun _ => 0
  pages := fun _ => none
  stale := fun _ => false
  disk := fun _ => none
  image := fun _ _ => none
  bufferPools := fun _ => none

def created : FileSession BufferPoolFileHeader :=
  { noFiles with
    disk := Function.update noFiles.disk "a" (some (.create headerOnly))
    image := Function.update noFiles.image "a" (PageFile.create headerOnly).image }

def openedFile : FileSession BufferPoolFileHeader :=
  created.opened "a" 3 (({ created.pool with
    files := Function.update created.pool.files 3 (.create headerOnly) } :
      GlobalBufferPoolManager BufferPoolFileHeader).openFile 3 []).2

/-- It gets a page. -/
def onePage : FileSession BufferPoolFileHeader :=
  { openedFile with
    pool := (openedFile.pool.allocatePage headerOnly 3 []).2.2
    pins := Function.update openedFile.pins (⟨3, 1⟩, 1) 1
    pages := allocated headerOnly openedFile.pages 3 .success
    stale := Function.update openedFile.stale ⟨3, 1⟩ false }

/-- The page is written and released. -/
def released (d : BufferPoolFileHeader) : FileSession BufferPoolFileHeader :=
  { onePage with
    pool := (onePage.pool.writePage 1 d).unpinPage 1
    pins := Function.update onePage.pins (⟨3, 1⟩, 1) 0
    pages := Function.update onePage.pages ⟨3, 1⟩ (some d) }

theorem step_created : Step headerOnly noFiles (.createFile "a") created := .createFile rfl

theorem step_openedFile : Step headerOnly created (.openFile "a" 3 []) openedFile :=
  .openFile (t := (({ created.pool with
    files := Function.update created.pool.files 3 (.create headerOnly) } :
      GlobalBufferPoolManager BufferPoolFileHeader).openFile 3 []).2) (r := .success)
    (rfl : created.bufferPools "a" = none) (rfl : created.disk "a" = some (.create headerOnly))
    (rfl : created.pool.fdBufferPools 3 = false) rfl

theorem step_onePage : Step headerOnly openedFile (.allocatePage 3 []) onePage :=
  .allocatePage (t := (openedFile.pool.allocatePage headerOnly 3 []).2.2) (r := .success) (x := 1)
    (rfl : openedFile.pool.fdBufferPools 3 = true) rfl

def givenBack : FileSession BufferPoolFileHeader :=
  { onePage with
    pool := onePage.pool.unpinPage 1
    pins := Function.update onePage.pins (⟨3, 1⟩, 1) 0 }

/-- The file is closed, and a file `b` created. -/
def leftOver : FileSession BufferPoolFileHeader :=
  let S := givenBack.closed "a" 3 (givenBack.pool.closeFile 3).2
  { S with
    disk := Function.update S.disk "b" (some (.create headerOnly))
    image := Function.update S.image "b" (PageFile.create headerOnly).image }

/-- `b` is opened and gets the descriptor that `a` had. -/
def reused : FileSession BufferPoolFileHeader :=
  leftOver.opened "b" 3 (({ leftOver.pool with
    files := Function.update leftOver.pool.files 3 (.create headerOnly) } :
      GlobalBufferPoolManager BufferPoolFileHeader).openFile 3 []).2

theorem pins_givenBack : givenBack.pins = fun _ => 0 := by
  have hpins : givenBack.pins = Function.update (Function.update (fun _ => 0) (⟨3, 1⟩, 1) 1) (⟨3, 1⟩, 1) 0 := rfl
  rw [hpins, Function.update_idem]
  exact Function.update_eq_self _ fun _ => 0

/-- Only the header of the file is left to be written. -/
theorem harmless_closeFile : Harmless headerOnly givenBack (.closeFile "a") := by
  intro fd _ i x _ hpage hlook
  have hcache : givenBack.pool.frameLruCache =
      ((∅ : AList fun _ : FrameId => Nat).insert ⟨3, 0⟩ 0).insert ⟨3, 1⟩ 1 := rfl
  rw [hcache] at hlook
  by_cases hi : i = ⟨3, 1⟩
  · rw [hi, AList.lookup_insert] at hlook
    cases hlook
    rfl
  · rw [AList.lookup_insert_ne hi, AList.lookup_insert_ne fun he => hpage (by rw [he]; rfl),
      AList.lookup_empty] at hlook
    cases hlook

/-- A file is closed with nothing to write but its header; the descriptor is used again while a frame of the first
file is left over. -/
theorem leavesNothing_of_harmless_reused : HarmlessRun headerOnly noFiles reused ∧
    reused.pool.frameLruCache.lookup ⟨3, 1⟩ = some 1 ∧ reused.stale ⟨3, 1⟩ = true ∧ LeavesNothing reused := by
  have h₀ : noFiles.Fresh := ⟨rfl, by decide, fun _ => rfl, fun _ => rfl, fun _ => rfl, fun _ => rfl⟩
  have hnone : firstFree (openedFile.pool.fileHeader headerOnly 3) = none := rfl
  have hok : Harmless headerOnly openedFile (.allocatePage 3 []) := by
    intro q x hq
    rw [hnone] at hq
    cases hq
  have honePage : HarmlessRun headerOnly noFiles onePage :=
    ((Relation.ReflTransGen.single ⟨.createFile "a", trivial, step_created⟩).tail
      ⟨.openFile "a" 3 [], trivial, step_openedFile⟩).tail ⟨_, hok, step_onePage⟩
  have hunpin : Step headerOnly onePage (.unpinPage ⟨3, 1⟩ 1) givenBack :=
    .unpinPage (by decide)
  have hclose : Step headerOnly givenBack (.closeFile "a")
      (givenBack.closed "a" 3 (givenBack.pool.closeFile 3).2) :=
    .closeFile (r := .success) (rfl : givenBack.bufferPools "a" = some 3) (fun i x _ => by
      rw [pins_givenBack]) rfl
  have hcreate : Step headerOnly (givenBack.closed "a" 3 (givenBack.pool.closeFile 3).2) (.createFile "b") leftOver :=
    .createFile rfl
  have hopen : Step headerOnly leftOver (.openFile "b" 3 []) reused :=
    .openFile (t := (({ leftOver.pool with
      files := Function.update leftOver.pool.files 3 (.create headerOnly) } :
        GlobalBufferPoolManager BufferPoolFileHeader).openFile 3 []).2) (r := .success)
      (rfl : leftOver.bufferPools "b" = none) (rfl : leftOver.disk "b" = some (.create headerOnly))
      (rfl : leftOver.pool.fdBufferPools 3 = false) rfl
  have hrun : HarmlessRun headerOnly noFiles reused :=
    (((honePage.tail ⟨.unpinPage ⟨3, 1⟩ 1, trivial, hunpin⟩).tail ⟨_, harmless_closeFile, hclose⟩).tail
      ⟨.createFile "b", trivial, hcreate⟩).tail ⟨.openFile "b" 3 [], trivial, hopen⟩
  exact ⟨hrun, rfl, rfl, leavesNothing_of_harmless headerOnly h₀ hrun⟩

theorem reaches_released (d : BufferPoolFileHeader) : Reaches headerOnly noFiles (released d) := by
  have hcreated : Reaches headerOnly noFiles created := .single ⟨_, step_created⟩
  have hopened : Reaches headerOnly noFiles openedFile := hcreated.tail ⟨_, step_openedFile⟩
  have hrun : Reaches headerOnly noFiles onePage := hopened.tail ⟨_, step_onePage⟩
  have hpin : 0 < onePage.pins (⟨3, 1⟩, 1) := by decide
  have h1 : Step headerOnly onePage (.writePage ⟨3, 1⟩ 1 d) _ := .writePage hpin nofun
  have h2 : Step headerOnly { onePage with
      pool := onePage.pool.writePage 1 d
      pages := Function.update onePage.pages ⟨3, 1⟩ (some d) } (.unpinPage ⟨3, 1⟩ 1) (released d) :=
    .unpinPage hpin
  exact (hrun.tail ⟨_, h1⟩).tail ⟨_, h2⟩

/-- A page is written and its file closed: the page does not reach the file. -/
theorem not_leavesNothing_dirty : ∃ S, Reaches headerOnly noFiles S ∧ ¬LeavesNothing S := by
  obtain ⟨d, hd⟩ : ∃ d : BufferPoolFileHeader, d.pagesNum = 5 := ⟨⟨5, 0, fun _ => false⟩, rfl⟩
  have hpins : (released d).pins = fun _ => 0 := by
    obtain ⟨k, hk⟩ : ∃ k : FrameId × Nat, k = (⟨3, 1⟩, 1) := ⟨_, rfl⟩
    have hpins : (released d).pins = Function.update (Function.update (fun _ => 0) k 1) k 0 := by
      rw [hk]
      rfl
    rw [hpins, Function.update_idem]
    exact Function.update_eq_self k fun _ => 0
  have hclose : Step headerOnly (released d) (.closeFile "a")
      ((released d).closed "a" 3 ((released d).pool.closeFile 3).2) :=
    .closeFile (r := .success) (rfl : (released d).bufferPools "a" = some 3) (fun i x _ => by
      rw [hpins]) rfl
  refine ⟨_, (reaches_released d).tail ⟨_, hclose⟩, fun h => ?_⟩
  have himage := congrFun (h.reached "a" _ rfl rfl) 1
  have hdisk : (((released d).pool.closeFile 3).2.files 3).image 1 = some default := rfl
  have hlast : ((released d).closed "a" 3 ((released d).pool.closeFile 3).2).image "a" 1 = some d := rfl
  rw [hdisk, hlast] at himage
  have hzero : (default : BufferPoolFileHeader).pagesNum = 5 := by rw [Option.some.inj himage, hd]
  exact absurd hzero (by decide)

end FileSession

end GlobalBufferPoolManager

end Idmbs
