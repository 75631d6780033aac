import Idmbs.BPlusTree.Handler

/-!
# Idmbs.BPlusTree.View

What the tree algorithms see of a handler whose pages load: the node in every page, the two copies
of the root page id, and which pages are in use. Each page operation has one rule that says how it
changes the view; pins and dirty flags do not show.
-/

namespace Idmbs

namespace BplusTreeHandler

variable {α : Type}

/-- `keep` are the pages in use besides the two header pages, `stored` is the root page id in the
header page, `nd` the node in every page. -/
structure View (s : BplusTreeHandler α) (keep : List PageId) (hdr : IndexFileHeader)
    (stored : Option PageId) (nd : PageId → IndexNode α) : Prop where
  faults : s.pool.faults = []
  sound : s.pool.Sound (PagePool.headerPage :: firstIndexPage :: keep)
  apart : PagePool.headerPage ∉ keep ∧ firstIndexPage ∉ keep
  fileHeader : s.fileHeader = hdr
  stored : ∃ h, s.pool.pageData firstIndexPage = .header h ∧ h.rootPageId = stored
  node : s.node = nd

/-- `GetPage` when it succeeds. -/
def pinned (s : BplusTreeHandler α) (p : PageId) : BplusTreeHandler α :=
  { s with pool := s.pool.pinned p }

theorem node_setNode (s : BplusTreeHandler α) (p : PageId) (n : IndexNode α) :
    (s.setNode p n).node = Function.update s.node p n := by
  funext q
  by_cases hq : q = p
  · subst hq; simp [node, setNode, PagePool.setData]
  · simp [node, setNode, PagePool.setData, Function.update_of_ne hq]

theorem node_eq_of_pageData {s s' : BplusTreeHandler α}
    (h : s'.pool.pageData = s.pool.pageData) : s'.node = s.node := by
  funext q; simp [node, h]

section Rules

variable {s : BplusTreeHandler α} {keep keep' : List PageId} {hdr : IndexFileHeader}
  {st : Option PageId} {nd : PageId → IndexNode α} {p : PageId}

theorem View.mono (h : View s keep hdr st nd) (hsub : keep' ⊆ keep) : View s keep' hdr st nd :=
  { h with
    sound := h.sound.mono (List.cons_subset_cons _ (List.cons_subset_cons _ hsub))
    apart := ⟨fun hq => h.apart.1 (hsub hq), fun hq => h.apart.2 (hsub hq)⟩ }

theorem View.ne_first (h : View s keep hdr st nd) (hp : p ∈ keep) : p ≠ firstIndexPage :=
  fun e => h.apart.2 (e ▸ hp)

theorem View.setNode (h : View s keep hdr st nd) (hp : p ∈ keep) (n : IndexNode α) :
    View (s.setNode p n) keep hdr st (Function.update nd p n) := by
  obtain ⟨hd, hst, hr⟩ := h.stored
  refine ⟨h.faults, h.sound.setData _, h.apart, h.fileHeader, ⟨hd, ?_, hr⟩, by
    rw [node_setNode, h.node]⟩
  simpa [BplusTreeHandler.setNode, PagePool.setData,
    Function.update_of_ne (Ne.symm (h.ne_first hp))] using hst

theorem View.modifyNode (h : View s keep hdr st nd) (hp : p ∈ keep)
    (f : IndexNode α → IndexNode α) :
    View (s.modifyNode p f) keep hdr st (Function.update nd p (f (nd p))) := by
  have := h.setNode hp (f (nd p))
  rwa [← h.node] at this ⊢

theorem View.dirtyMark (h : View s keep hdr st nd) : View (s.dirtyMark p) keep hdr st nd :=
  ⟨h.faults, h.sound.dirtyMark, h.apart, h.fileHeader, h.stored, h.node⟩

theorem View.pinned (h : View s keep hdr st nd) : View (s.pinned p) keep hdr st nd :=
  ⟨h.faults, h.sound.pinned, h.apart, h.fileHeader, h.stored, h.node⟩

theorem View.unpinPage (h : View s keep hdr st nd) : View (s.unpinPage p) keep hdr st nd := by
  refine ⟨?_, h.sound.unpinPage, h.apart, h.fileHeader, ?_, ?_⟩
  · simpa [BplusTreeHandler.unpinPage] using h.faults
  · simpa [BplusTreeHandler.unpinPage] using h.stored
  · rw [← h.node]; exact node_eq_of_pageData (by simp [BplusTreeHandler.unpinPage])

theorem View.disposePage (h : View s keep hdr st nd) (keep' : List PageId) (hp : p ∈ keep)
    (hsub : keep' ⊆ keep)
    (hn : p ∉ keep') : View (s.disposePage p) keep' hdr st nd := by
  have hm := h.mono hsub
  refine ⟨?_, h.sound.disposePage (by simp [hp]) ?_ ?_, hm.apart, h.fileHeader, ?_, ?_⟩
  · simpa [BplusTreeHandler.disposePage] using h.faults
  · exact List.cons_subset_cons _ (List.cons_subset_cons _ hsub)
  · simp only [List.mem_cons, not_or]
    exact ⟨fun e => h.apart.1 (e ▸ hp), fun e => h.apart.2 (e ▸ hp), hn⟩
  · simpa [BplusTreeHandler.disposePage] using h.stored
  · rw [← h.node]; exact node_eq_of_pageData (by simp [BplusTreeHandler.disposePage])

theorem View.setRoot (h : View s keep hdr st nd) (root : Option PageId) :
    View (s.setRoot root) keep { hdr with rootPageId := root } st nd :=
  ⟨h.faults, h.sound, h.apart, by simp [BplusTreeHandler.setRoot, h.fileHeader], h.stored, h.node⟩

theorem View.getPage (h : View s keep hdr st nd) (hp : p ∈ keep) :
    s.getPage p = (.success, s.pinned p) := by
  simp [BplusTreeHandler.getPage, PagePool.getPage_eq h.faults h.sound (by simp [hp] :
    p ∈ PagePool.headerPage :: firstIndexPage :: keep), BplusTreeHandler.pinned]

theorem View.storeHeader (h : View s keep hdr st nd) (hd : IndexFileHeader) :
    View { s with pool := s.pool.setData firstIndexPage (.header hd) } keep hdr hd.rootPageId nd := by
  obtain ⟨hd', hst, -⟩ := h.stored
  refine ⟨h.faults, h.sound.setData _, h.apart, h.fileHeader,
    ⟨hd, by simp [PagePool.setData], rfl⟩, ?_⟩
  rw [← h.node]
  funext q
  by_cases hq : q = firstIndexPage
  · subst hq; simp [BplusTreeHandler.node, PagePool.setData, hst, IndexPage.asNode]
  · simp [BplusTreeHandler.node, PagePool.setData, Function.update_of_ne hq]

/-- The header page takes over the root page id of the handler. -/
theorem View.updateRootPageId (h : View s keep hdr st nd) :
    View s.updateRootPageId.2 keep hdr hdr.rootPageId nd := by
  obtain ⟨hd, hst, hr⟩ := h.stored
  have hget : s.getPage firstIndexPage = (.success, s.pinned firstIndexPage) := by
    simp [BplusTreeHandler.getPage, PagePool.getPage_eq h.faults h.sound (by simp :
      firstIndexPage ∈ PagePool.headerPage :: firstIndexPage :: keep), BplusTreeHandler.pinned]
  unfold BplusTreeHandler.updateRootPageId
  simp only [hget, ne_eq, not_true_eq_false, if_false]
  have hpin := h.pinned (p := firstIndexPage)
  rw [show (s.pinned firstIndexPage).pool.pageData firstIndexPage = .header hd from hst]
  have := hpin.storeHeader { hd with rootPageId := (s.pinned firstIndexPage).fileHeader.rootPageId }
  rw [hpin.fileHeader] at this ⊢
  exact this.dirtyMark.unpinPage

/-- `AllocatePage`: the file is full, or a page comes back that was not in use. -/
theorem View.allocatePage [Inhabited α] (h : View s keep hdr st nd) :
    (s.allocatePage.1 ≠ .success ∧ s.allocatePage.2.2.pool.noBuf = true) ∨
    (s.allocatePage.1 = .success ∧
      s.allocatePage.2.1 ∉ keep ∧ ∃ n, View s.allocatePage.2.2 (s.allocatePage.2.1 :: keep) hdr st
        (Function.update nd s.allocatePage.2.1 n)) := by
  rcases PagePool.allocatePage_spec h.faults h.sound with hfull | ⟨hr, hq, hf, hs, d, hd⟩
  · exact .inl hfull
  · refine .inr ⟨hr, fun hk => hq (by simpa using .inr (.inr hk)), d.asNode, hf,
      hs.mono ?_, ?_, h.fileHeader, ?_, ?_⟩
    · intro p hp
      simp only [List.mem_cons, BplusTreeHandler.allocatePage] at hp ⊢
      tauto
    · simp only [List.mem_cons, not_or, BplusTreeHandler.allocatePage] at hq ⊢
      exact ⟨⟨Ne.symm hq.1, h.apart.1⟩, Ne.symm hq.2.1, h.apart.2⟩
    · have hne : firstIndexPage ≠ s.pool.allocatePage.2.1 := by
        simp only [List.mem_cons, not_or] at hq
        exact Ne.symm hq.2.1
      simpa [BplusTreeHandler.allocatePage, hd, Function.update_of_ne hne] using h.stored
    · rw [← h.node]
      funext p
      by_cases hp : p = s.pool.allocatePage.2.1
      · subst hp; simp [BplusTreeHandler.node, BplusTreeHandler.allocatePage, hd]
      · simp [BplusTreeHandler.node, BplusTreeHandler.allocatePage, hd, Function.update_of_ne hp]

end Rules

end BplusTreeHandler

end Idmbs
