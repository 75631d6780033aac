import Idmbs.BPlusTree.WellFormed

/-!
# Idmbs.BPlusTree.Account

Which pins the functions of `BplusTreeHandler` hold and which pages are allocated. Moving items and
relinking leaves pin a page and release it again; what a caller has pinned changes only where a
function takes over the frames it is given.
-/

namespace Idmbs

/-- Besides `base`, the pages in `held` are pinned, each as often as it is listed; only pages in
`used` are allocated, none waits for its disposal, and no pin was given back that was not there. -/
structure PagePool.Accounts {δ : Type} (s : PagePool δ) (base : PageId → Nat) (held : List PageId)
    (used : PageId → Prop) : Prop where
  pins : ∀ p, s.pinCount p = base p + held.count p
  used : ∀ p, s.bitmap p = true → used p
  disposed : ∀ p, s.disposedPages p = false
  asserted : s.aborted = false

namespace PagePool

variable {δ : Type} {s : PagePool δ} {base : PageId → Nat} {held held' : List PageId}
  {used used' : PageId → Prop} {p : PageId}

theorem Accounts.mono (h : s.Accounts base held used) (hsub : ∀ p, used p → used' p) :
    s.Accounts base held used' :=
  ⟨h.pins, fun p hp => hsub p (h.used p hp), h.disposed, h.asserted⟩

theorem Accounts.perm (h : s.Accounts base held used) (hperm : held.Perm held') :
    s.Accounts base held' used :=
  ⟨fun p => by rw [h.pins, hperm.count_eq], h.used, h.disposed, h.asserted⟩

theorem Accounts.setData (h : s.Accounts base held used) (d : δ) :
    (s.setData p d).Accounts base held used := ⟨h.pins, h.used, h.disposed, h.asserted⟩

theorem Accounts.dirtyMark (h : s.Accounts base held used) :
    (s.dirtyMark p).Accounts base held used := ⟨h.pins, h.used, h.disposed, h.asserted⟩

theorem Accounts.pinned (h : s.Accounts base held used) :
    (s.pinned p).Accounts base (p :: held) used := by
  refine ⟨fun q => ?_, h.used, h.disposed, h.asserted⟩
  by_cases hq : q = p
  · subst hq
    simp [PagePool.pinned, setPin, h.pins, Nat.add_assoc]
  · simp [PagePool.pinned, setPin, h.pins, Function.update_of_ne hq, List.count_cons_of_ne (Ne.symm hq)]

theorem Accounts.unpinPage (h : s.Accounts base (p :: held) used) :
    (s.unpinPage p).Accounts base held used := by
  have hpos : 0 < s.pinCount p := by
    rw [h.pins, List.count_cons_self]
    omega
  have hd : ¬((s.released p).pinCount p = 0 ∧ (s.released p).disposedPages p = true) := by
    rintro ⟨-, hd⟩
    have hp : s.disposedPages p = true := hd
    rw [h.disposed p] at hp
    cases hp
  rw [PagePool.unpinPage]
  simp only [if_neg hd]
  rw [released_of_pinned s p hpos]
  refine ⟨fun q => ?_, h.used, h.disposed, h.asserted⟩
  by_cases hq : q = p
  · subst hq
    simp [setPin, h.pins]
  · simp [setPin, h.pins, Function.update_of_ne hq, List.count_cons_of_ne (Ne.symm hq)]

/-- A page that nobody holds is freed at once. -/
theorem Accounts.disposePage (h : s.Accounts base held used) (hbase : base p = 0) (hp : p ∉ held) :
    (s.disposePage p).2.Accounts base held fun q => used q ∧ q ≠ p := by
  have hpin : ¬0 < s.pinCount p := by
    rw [h.pins, hbase, List.count_eq_zero_of_not_mem hp]
    exact Nat.lt_irrefl 0
  rw [PagePool.disposePage, if_neg hpin]
  refine ⟨h.pins, fun q hq => ?_, h.disposed, h.asserted⟩
  by_cases e : q = p
  · simp [e] at hq
  · exact ⟨h.used q (by simpa [Function.update_of_ne e] using hq), e⟩

theorem Accounts.takeFault (h : s.Accounts base held used) :
    s.takeFault.2.Accounts base held used := by
  rw [PagePool.takeFault]
  split
  · exact h
  · exact ⟨h.pins, h.used, h.disposed, h.asserted⟩

theorem Accounts.getPage (h : s.Accounts base held used) :
    ((s.getPage p).1 = .success → (s.getPage p).2.Accounts base (p :: held) used) ∧
      ((s.getPage p).1 ≠ .success → (s.getPage p).2.Accounts base held used) := by
  have ht := h.takeFault
  rw [PagePool.getPage]
  rcases htake : s.takeFault with ⟨r, s1⟩
  rw [htake] at ht
  simp only at ht ⊢
  split_ifs with h1 h2
  · exact ⟨fun h0 => absurd h0 h1, fun _ => ht⟩
  · exact ⟨fun h0 => by simp at h0, fun _ => ht⟩
  · exact ⟨fun _ => ht.pinned, fun h0 => absurd rfl h0⟩

/-- A page that is allocated is pinned once. Pages behind the end of the file are not pinned. -/
theorem Accounts.allocatePage [Inhabited δ] (h : s.Accounts base held used)
    (hbase : ∀ p, s.pagesNum ≤ p → base p = 0 ∧ p ∉ held)
    (hr : s.allocatePage.1 = .success) :
    s.allocatePage.2.2.Accounts base (s.allocatePage.2.1 :: held)
      fun q => used q ∨ q = s.allocatePage.2.1 := by
  have hbits : ∀ i q, Function.update s.bitmap i true q = true → used q ∨ q = i := by
    intro i q hq
    by_cases e : q = i
    · exact .inr e
    · exact .inl (h.used q (by simpa [Function.update_of_ne e] using hq))
  unfold PagePool.allocatePage at hr ⊢
  cases hfree : s.firstFree with
  | some i =>
    rw [hfree] at hr
    simp only at hr ⊢
    have h1 : ({ s with
        allocatedPagesNum := s.allocatedPagesNum + 1
        bitmap := Function.update s.bitmap i true } : PagePool δ).Accounts base held
          fun q => used q ∨ q = i := ⟨h.pins, hbits i, h.disposed, h.asserted⟩
    exact (h1.dirtyMark.getPage).1 hr
  | none =>
    rw [hfree] at hr
    simp only at hr ⊢
    have ht := h.takeFault
    rcases htake : s.takeFault with ⟨r, s1⟩
    rw [htake] at hr ht
    simp only at hr ht ⊢
    split_ifs at hr ⊢ with hfull hne
    · exact absurd hr hne
    · refine ⟨fun q => ?_, fun q hq => ?_, ht.disposed, ht.asserted⟩
      · by_cases e : q = s.pagesNum
        · subst e
          obtain ⟨h0, hmem⟩ := hbase _ (le_refl _)
          simp [PagePool.setData, setPin, h0, List.count_eq_zero_of_not_mem hmem]
        · simp [PagePool.setData, setPin, ht.pins, Function.update_of_ne e,
            List.count_cons_of_ne (Ne.symm e)]
      · by_cases e : q = s.pagesNum
        · exact .inr e
        · refine .inl (ht.used q ?_)
          simpa [PagePool.setData, setPin, Function.update_of_ne e] using hq

end PagePool

namespace BplusTreeHandler

variable {α : Type} {s s' : BplusTreeHandler α} {base : PageId → Nat} {held : List PageId}
  {used : PageId → Prop} {p q frame newFrame parent neighbor : PageId} {kind : NodeKind} {r : Re}

/-- `PagePool.Accounts` of the handler's file. -/
def Accounts (s : BplusTreeHandler α) (base : PageId → Nat) (held : List PageId)
    (used : PageId → Prop) : Prop := s.pool.Accounts base held used

/-! ## Frames -/

theorem Accounts.mono {used' : PageId → Prop} (h : s.Accounts base held used)
    (hsub : ∀ p, used p → used' p) : s.Accounts base held used' := PagePool.Accounts.mono h hsub

theorem Accounts.perm {held' : List PageId} (h : s.Accounts base held used)
    (hperm : held.Perm held') : s.Accounts base held' used := PagePool.Accounts.perm h hperm

theorem Accounts.modifyNode (h : s.Accounts base held used) (f : IndexNode α → IndexNode α) :
    (s.modifyNode p f).Accounts base held used := PagePool.Accounts.setData h _

theorem Accounts.dirtyMark (h : s.Accounts base held used) :
    (s.dirtyMark p).Accounts base held used := PagePool.Accounts.dirtyMark h

theorem Accounts.pinned (h : s.Accounts base held used) :
    (s.pinned p).Accounts base (p :: held) used := PagePool.Accounts.pinned h

theorem Accounts.unpinPage (h : s.Accounts base (p :: held) used) :
    (s.unpinPage p).Accounts base held used := PagePool.Accounts.unpinPage h

theorem Accounts.disposePage (h : s.Accounts base held used) (hbase : base p = 0) (hp : p ∉ held) :
    (s.disposePage p).Accounts base held fun q => used q ∧ q ≠ p :=
  PagePool.Accounts.disposePage h hbase hp

theorem Accounts.setRoot (h : s.Accounts base held used) (root : Option PageId) :
    (s.setRoot root).Accounts base held used := h

theorem Accounts.getPage (h : s.Accounts base held used) (hg : s.getPage p = (r, s')) :
    (r = .success → s'.Accounts base (p :: held) used) ∧
      (r ≠ .success → s'.Accounts base held used) := by
  have hp := PagePool.Accounts.getPage (p := p) h
  rw [BplusTreeHandler.getPage] at hg
  cases hg
  exact hp

theorem Accounts.allocatePage [Inhabited α] (h : s.Accounts base held used)
    (hbase : ∀ p, s.pool.pagesNum ≤ p → base p = 0 ∧ p ∉ held)
    (ha : s.allocatePage = (.success, q, s')) :
    s'.Accounts base (q :: held) fun p => used p ∨ p = q := by
  have hp := PagePool.Accounts.allocatePage h hbase
  rw [BplusTreeHandler.allocatePage] at ha
  rcases hal : s.pool.allocatePage with ⟨r, q', pool⟩
  rw [hal] at ha hp
  cases ha
  exact hp rfl

theorem Accounts.updateRootPageId (h : s.Accounts base held used) :
    s.updateRootPageId.2.Accounts base held used := by
  rw [BplusTreeHandler.updateRootPageId]
  rcases hg : s.getPage firstIndexPage with ⟨r, s1⟩
  have h1 := h.getPage hg
  simp only
  split
  · rename_i hne
    exact h1.2 hne
  · rename_i hr
    have h2 := h1.1 (not_not.mp hr)
    have h3 : ∀ s2 : BplusTreeHandler α, s2.Accounts base (firstIndexPage :: held) used →
        ((s2.dirtyMark firstIndexPage).unpinPage firstIndexPage).Accounts base held used :=
      fun s2 h2 => h2.dirtyMark.unpinPage
    refine h3 _ ?_
    split
    · exact PagePool.Accounts.setData h2 _
    · exact h2

/-! ## Moving items -/

theorem Accounts.adoptChildren (this : PageId) (ps : List PageId) :
    ∀ {s : BplusTreeHandler α}, s.Accounts base held used →
      (adoptChildren this ps s).2.Accounts base held used := by
  induction ps with
  | nil => exact fun h => h
  | cons p ps ih =>
    intro s h
    rw [BplusTreeHandler.adoptChildren]
    rcases hg : s.getPage p with ⟨r, s1⟩
    have h1 := h.getPage hg
    simp only
    split
    · rename_i hne
      exact h1.2 hne
    · rename_i hr
      exact ih ((h1.1 (not_not.mp hr)).modifyNode _).dirtyMark.unpinPage

/-- The end that the moving functions share: if the children could be told, the node changes. -/
theorem Accounts.modifyAfter {x : Re × BplusTreeHandler α} (h : x.2.Accounts base held used)
    (f : IndexNode α → IndexNode α) :
    (if x.1 ≠ .success then x else (.success, x.2.modifyNode p f)).2.Accounts base held used := by
  split
  · exact h
  · exact h.modifyNode f

theorem Accounts.copyFrom {this : PageId} {items : List (Key α × PageId)}
    (h : s.Accounts base held used) : (copyFrom this items s).2.Accounts base held used :=
  (h.adoptChildren this (items.map Prod.snd)).modifyAfter _

theorem Accounts.preappend {this : PageId} {item : Key α × PageId}
    (h : s.Accounts base held used) : (preappend this item s).2.Accounts base held used :=
  (h.adoptChildren this [item.2]).modifyAfter _

variable {this other : PageId}

theorem Accounts.moveHalfTo (h : s.Accounts base held used) :
    (moveHalfTo kind this other s).2.Accounts base held used := by
  cases kind with
  | leaf => exact (h.modifyNode _).modifyNode _
  | internal => exact h.copyFrom.modifyAfter _

theorem Accounts.moveTo (h : s.Accounts base held used) (kind : NodeKind) (this other : PageId) :
    (moveTo kind this other s).2.Accounts base held used := by
  cases kind with
  | leaf =>
    have h1 : (((s.modifyNode other fun o => { o with entries := o.entries ++ (s.node this).entries }
      ).modifyNode this fun n => { n with entries := [] }).setNextPage other
        (s.node this).nextBrother).Accounts base held used :=
      ((h.modifyNode _).modifyNode _).modifyNode _
    simp only [BplusTreeHandler.moveTo]
    split
    · exact h1
    · rename_i next _
      rcases hg : BplusTreeHandler.getPage _ next with ⟨r, s1⟩
      have h2 := h1.getPage hg
      simp only
      split
      · rename_i hne
        exact h2.2 hne
      · rename_i hr
        exact ((h2.1 (not_not.mp hr)).modifyNode _).dirtyMark.unpinPage
  | internal => exact h.copyFrom.modifyAfter _

theorem Accounts.moveFirstToEnd (h : s.Accounts base held used) :
    (moveFirstToEnd kind this other s).2.Accounts base held used := by
  cases kind with
  | leaf => exact (h.modifyNode _).modifyNode _
  | internal => exact h.copyFrom.modifyAfter _

theorem Accounts.moveLastToFront (h : s.Accounts base held used) :
    (moveLastToFront kind this other s).2.Accounts base held used := by
  cases kind with
  | leaf =>
    simp only [BplusTreeHandler.moveLastToFront]
    split
    · exact h
    · exact (h.modifyNode _).modifyNode _
  | internal =>
    simp only [BplusTreeHandler.moveLastToFront]
    split
    · exact h
    · exact h.preappend.modifyAfter _

theorem Accounts.relinkNext (h : s.Accounts base held used) (prev : PageId)
    (next : Option PageId) : (relinkNext prev next s).2.Accounts base held used := by
  cases next with
  | none => exact h
  | some next =>
    simp only [BplusTreeHandler.relinkNext]
    rcases hg : s.getPage next with ⟨r, s1⟩
    have h1 := h.getPage hg
    simp only
    split
    · rename_i hne
      exact h1.2 hne
    · rename_i hr
      exact ((h1.1 (not_not.mp hr)).modifyNode _).unpinPage

theorem Accounts.unlinkLeaf (h : s.Accounts base held used) (left right : PageId) :
    (unlinkLeaf left right s).2.Accounts base held used := by
  simp only [BplusTreeHandler.unlinkLeaf]
  split
  · exact h
  · exact (h.modifyNode _).relinkNext _ _

/-! ## Functions that take over frames -/

/-- What `Split` has done where it succeeds. -/
theorem split_success [Inhabited α] (hs : s.split kind frame = (.success, newFrame, s')) :
    ∃ s1, s.allocatePage = (.success, newFrame, s1) ∧
      s' = (((moveHalfTo kind frame newFrame ((s1.modifyNode newFrame (IndexNode.initEmpty kind)).setParentPageId
        newFrame ((s1.modifyNode newFrame (IndexNode.initEmpty kind)).node frame).parent)).2.dirtyMark
          frame).dirtyMark newFrame) := by
  rw [BplusTreeHandler.split] at hs
  rcases ha : s.allocatePage with ⟨r, q, s1⟩
  rw [ha] at hs
  simp only at hs
  split at hs
  · rename_i hne
    cases hs
    exact absurd rfl hne
  · rename_i hr
    cases hs
    rw [not_not.mp hr]
    exact ⟨s1, rfl, rfl⟩

theorem Accounts.split [Inhabited α] (h : s.Accounts base held used)
    (hbase : ∀ p, s.pool.pagesNum ≤ p → base p = 0 ∧ p ∉ held)
    (hs : s.split kind frame = (.success, newFrame, s')) :
    s'.Accounts base (newFrame :: held) fun p => used p ∨ p = newFrame := by
  obtain ⟨s1, ha, rfl⟩ := split_success hs
  exact ((((h.allocatePage hbase ha).modifyNode _).modifyNode _).moveHalfTo).dirtyMark.dirtyMark

/-- `Redistribute` releases all three frames. -/
theorem Accounts.redistribute [Inhabited α]
    (h : s.Accounts base (parent :: neighbor :: frame :: held) used) (kind : NodeKind) (index : Nat) :
    (redistribute kind neighbor frame parent index s).2.Accounts base held used := by
  have hend : ∀ s1 : BplusTreeHandler α,
      s1.Accounts base (parent :: neighbor :: frame :: held) used →
      (((((((s1.dirtyMark neighbor).dirtyMark frame).dirtyMark parent).unpinPage parent).unpinPage
        neighbor).unpinPage frame)).Accounts base held used := fun s1 h1 =>
    h1.dirtyMark.dirtyMark.dirtyMark.unpinPage.unpinPage.unpinPage
  simp only [BplusTreeHandler.redistribute]
  refine hend _ ?_
  split
  · exact h.moveFirstToEnd.modifyNode _
  · exact h.moveLastToFront.modifyNode _

/-- What every step down keeps, the walk keeps, and it ends in a leaf. -/
theorem findLeafLoop_keeps {P : PageId → BplusTreeHandler α → Prop} {childPageGetter : IndexNode α → PageId}
    (hstep : ∀ p s child s1, P p s → (s.unpinPage p).getPage child = (.success, s1) → P child s1) :
    ∀ {fuel : Nat} {p : PageId} {s : BplusTreeHandler α}, P p s →
      findLeafLoop childPageGetter fuel p s = (.success, q, s') → P q s' ∧ (s'.node q).isLeaf = true := by
  intro fuel
  induction fuel with
  | zero =>
    intro p s _ hf
    cases hf
  | succ fuel ih =>
    intro p s h hf
    rw [BplusTreeHandler.findLeafLoop] at hf
    split at hf
    · rename_i hleaf
      cases hf
      exact ⟨h, hleaf⟩
    · rcases hg : (s.unpinPage p).getPage (childPageGetter (s.node p)) with ⟨r, s1⟩
      simp only [hg] at hf
      split at hf
      · rename_i hne
        cases hf
        exact absurd rfl hne
      · rename_i hr
        rw [not_not.mp hr] at hg
        exact ih (hstep p s _ s1 h hg) hf

/-- What holds at the root and what every step down keeps, holds at the leaf that is found. -/
theorem findLeaf_keeps [Inhabited α] {P : PageId → BplusTreeHandler α → Prop} {cmp : Key α → Key α → Int}
    {key : Key α} (hroot : ∀ root s1, s.getPage root = (.success, s1) → P root s1)
    (hstep : ∀ p s child s1, P p s → (s.unpinPage p).getPage child = (.success, s1) → P child s1)
    (hf : s.findLeaf cmp key = (.success, q, s')) : P q s' ∧ (s'.node q).isLeaf = true := by
  rw [BplusTreeHandler.findLeaf, findLeafInternal] at hf
  split at hf
  · cases hf
  · rename_i root _
    rcases hg : s.getPage root with ⟨r, s1⟩
    simp only [hg] at hf
    split at hf
    · rename_i hne
      cases hf
      exact absurd rfl hne
    · rename_i hr
      rw [not_not.mp hr] at hg
      exact findLeafLoop_keeps hstep (hroot root s1 hg) hf

/-- The steps down release each node and keep the leaf. -/
theorem Accounts.findLeaf [Inhabited α] {cmp : Key α → Key α → Int} {key : Key α}
    (h : s.Accounts base held used) (hf : s.findLeaf cmp key = (.success, q, s')) :
    s'.Accounts base (q :: held) used := by
  have hroot : ∀ root s1, s.getPage root = (.success, s1) → s1.Accounts base (root :: held) used :=
    fun root s1 hg => (h.getPage hg).1 rfl
  refine (findLeaf_keeps hroot ?_ hf).1
  intro p s child s1 hp hg
  exact (hp.unpinPage.getPage hg).1 rfl

/-! ## A whole operation -/

/-- Only the frame of the file header stays pinned, `n` times. -/
def headerPins (n : Nat) (p : PageId) : Nat := if p = PagePool.headerPage then n else 0

/-- The two header pages and these. -/
def inUse (keep : List PageId) (p : PageId) : Prop := p ∈ PagePool.headerPage :: firstIndexPage :: keep

/-- The two header pages and those of the tree, if there is one. -/
def Settled (s : BplusTreeHandler α) (p : PageId) : Prop :=
  p = PagePool.headerPage ∨ p = firstIndexPage ∨
    ∃ (m : Nat) (t : IndexTree α m), s.fileHeader.rootPageId = some t.page ∧
      Holds s.node none t ∧ p ∈ t.pages

/-- If the pages in `keep` are allocated before and those in `held` are pinned, then afterwards only
the pages of the tree are allocated and none is pinned. -/
def Balanced (s : BplusTreeHandler α) (held keep : List PageId) (s' : BplusTreeHandler α) : Prop :=
  ∀ n, s.Accounts (headerPins n) held (inUse keep) → s'.Accounts (headerPins n) [] (Settled s')

theorem Balanced.of_subset {keep keep' : List PageId} (h : Balanced s held keep s')
    (hsub : keep' ⊆ keep) : Balanced s held keep' s' := fun n hacc =>
  h n (hacc.mono fun _ hp => List.cons_subset_cons _ (List.cons_subset_cons _ hsub) hp)

theorem Balanced.of_pinned {keep : List PageId}
    (h : Balanced ((s.pinned parent).pinned neighbor) held keep s')
    (hperm : [neighbor, parent, frame].Perm held) : Balanced s [frame] keep s' :=
  fun n hacc => h n (hacc.pinned.pinned.perm hperm)

theorem View.fresh {keep : List PageId} {hdr : IndexFileHeader} {st : Option PageId}
    {nd : PageId → IndexNode α} (hv : View s keep hdr st nd) (hheld : ∀ p ∈ held, p ∈ keep)
    (n : Nat) : ∀ p, s.pool.pagesNum ≤ p → headerPins n p = 0 ∧ p ∉ held := by
  intro p hp
  have hlt : ∀ q ∈ PagePool.headerPage :: firstIndexPage :: keep, q < s.pool.pagesNum := fun q hq =>
    hv.sound.lt hq
  refine ⟨if_neg ?_, fun hmem => ?_⟩
  · rintro rfl
    exact absurd hp (Nat.not_le.mpr (hlt _ (by simp)))
  · exact absurd hp (Nat.not_le.mpr (hlt p (by simp [hheld p hmem])))

theorem View.headerPins_eq {keep : List PageId} {hdr : IndexFileHeader} {st : Option PageId}
    {nd : PageId → IndexNode α} (hv : View s keep hdr st nd) (hp : p ∈ keep) (n : Nat) :
    headerPins n p = 0 := by
  refine if_neg ?_
  rintro rfl
  exact hv.apart.1 hp

theorem Accounts.settled {m : Nat} {t : IndexTree α m} {hdr : IndexFileHeader}
    {nd : PageId → IndexNode α} {st : Option PageId} (h : s.Accounts base held used)
    (hv : View s t.pages { hdr with rootPageId := some t.page } st nd) (hh : Holds nd none t)
    (hused : ∀ p, used p → inUse t.pages p) : s.Accounts base held (Settled s) := by
  refine h.mono fun p hp => ?_
  have hp := hused p hp
  simp only [inUse, List.mem_cons] at hp
  refine hp.imp_right (Or.imp_right fun hmem => ?_)
  exact ⟨m, t, by rw [hv.fileHeader], by rw [hv.node]; exact hh, hmem⟩

end BplusTreeHandler

end Idmbs
