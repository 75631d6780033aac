import Idmbs.BPlusTree.IndexBalance

/-!
# Idmbs.BPlusTree.IndexMarks

Which pages `InsertEntry` and `DeleteEntry` change without `DirtyMark`. A clean frame may be dropped
and read again from the file, so what is not marked may be lost.
-/

namespace Idmbs

open SearchTree Comparator

namespace PagePool

variable {δ : Type}

/-- A change of the page is written back, or the page is disposed or waits for it. -/
def Covered (s : PagePool δ) (p : PageId) : Prop :=
  s.dirty p = true ∨ s.bitmap p = false ∨ s.disposedPages p = true

/-- Pages that differ from those of `s0` are covered, and so are those in `safe`, except for those in
`pending`. -/
structure Marked (s0 s : PagePool δ) (safe pending : List PageId) : Prop where
  faults : s.faults = []
  changed : ∀ p, s.pageData p ≠ s0.pageData p → s.Covered p ∨ p ∈ pending
  safe : ∀ p ∈ safe, s.Covered p ∨ p ∈ pending

/-- The pool after the clean frames in `dropped` have been dropped and read again from a file that
holds what `s0` holds. -/
def reread (s0 s : PagePool δ) (dropped : PageId → Bool) : PagePool δ :=
  { s with pageData := fun p =>
      if dropped p = true ∧ s.dirty p = false then s0.pageData p else s.pageData p }

section Marked

variable {s0 s s' : PagePool δ} {safe pending : List PageId} {p q : PageId}

theorem Marked.refl (hf : s.faults = []) : s.Marked s [] [] :=
  ⟨hf, fun _ hp => absurd rfl hp, fun _ hp => absurd hp List.not_mem_nil⟩

theorem Marked.mono {safe' pending' : List PageId} (h : s0.Marked s safe pending) (h1 : safe' ⊆ safe)
    (h2 : pending ⊆ pending') : s0.Marked s safe' pending' :=
  ⟨h.faults, fun p hp => (h.changed p hp).imp_right fun hp => h2 hp,
    fun p hp => (h.safe p (h1 hp)).imp_right fun hp => h2 hp⟩

/-- A page may wait for its mark at any time. -/
theorem Marked.wait (h : s0.Marked s safe pending) (p : PageId) :
    s0.Marked s (p :: safe) (p :: pending) := by
  refine ⟨h.faults, fun q hq => (h.changed q hq).imp_right (List.mem_cons_of_mem _), fun q hq => ?_⟩
  rcases List.mem_cons.mp hq with rfl | hq
  · exact .inr List.mem_cons_self
  · exact (h.safe q hq).imp_right (List.mem_cons_of_mem _)

theorem Marked.setData (h : s0.Marked s safe pending) (hp : p ∈ safe) (d : δ) :
    s0.Marked (s.setData p d) safe pending := by
  refine ⟨h.faults, fun q hq => ?_, h.safe⟩
  by_cases e : q = p
  · exact e ▸ h.safe p hp
  · exact h.changed q (by simpa [PagePool.setData, Function.update_of_ne e] using hq)

theorem Covered.dirtyMark (h : s.Covered q) : (s.dirtyMark p).Covered q := by
  refine h.imp_left fun hd => ?_
  by_cases e : q = p
  · simp [PagePool.dirtyMark, e]
  · simpa [PagePool.dirtyMark, Function.update_of_ne e] using hd

theorem Marked.dirtyMark (h : s0.Marked s safe (p :: pending)) :
    s0.Marked (s.dirtyMark p) safe pending := by
  have hp : (s.dirtyMark p).Covered p := .inl (by simp [PagePool.dirtyMark])
  have hall : ∀ q, s.Covered q ∨ q ∈ p :: pending → (s.dirtyMark p).Covered q ∨ q ∈ pending := by
    rintro q (hq | hq)
    · exact .inl hq.dirtyMark
    · rcases List.mem_cons.mp hq with rfl | hq
      · exact .inl hp
      · exact .inr hq
  exact ⟨h.faults, fun q hq => hall q (h.changed q hq), fun q hq => hall q (h.safe q hq)⟩

theorem Marked.of_eq (h : s0.Marked s safe pending) (hf : s'.faults = [])
    (hd : s'.pageData = s.pageData) (hc : ∀ q, s.Covered q → s'.Covered q) :
    s0.Marked s' safe pending :=
  ⟨hf, fun q hq => (h.changed q (by rwa [hd] at hq)).imp_left (hc q),
    fun q hq => (h.safe q hq).imp_left (hc q)⟩

theorem Marked.disposePage (h : s0.Marked s safe (p :: pending)) :
    s0.Marked (s.disposePage p).2 safe pending := by
  have hp : (s.disposePage p).2.Covered p := by
    unfold PagePool.disposePage
    split
    · exact .inr (.inr (by simp))
    · exact .inr (.inl (by simp))
  have hq : ∀ q, s.Covered q → (s.disposePage p).2.Covered q := by
    intro q hq
    by_cases e : q = p
    · exact e ▸ hp
    · unfold PagePool.disposePage
      split
      · exact hq.imp_right (Or.imp_right fun hw => by simpa [Function.update_of_ne e] using hw)
      · refine hq.imp (fun hd => ?_) (Or.imp_left fun hb => by simpa [Function.update_of_ne e] using hb)
        by_cases e0 : q = headerPage
        · simp [e0]
        · simpa [Function.update_of_ne e0, Function.update_of_ne e] using hd
  have hall : ∀ q, s.Covered q ∨ q ∈ p :: pending → (s.disposePage p).2.Covered q ∨ q ∈ pending := by
    rintro q (h | h)
    · exact .inl (hq q h)
    · rcases List.mem_cons.mp h with rfl | h
      · exact .inl hp
      · exact .inr h
  exact ⟨by rw [faults_disposePage, h.faults], fun q hc => hall q (h.changed q (by simpa using hc)),
    fun q hc => hall q (h.safe q hc)⟩

theorem Marked.unpinPage (h : s0.Marked s safe pending) : s0.Marked (s.unpinPage p) safe pending := by
  refine h.of_eq (by rw [faults_unpinPage, h.faults]) (pageData_unpinPage _ _) fun q hq => ?_
  unfold PagePool.unpinPage
  simp only
  split
  · rename_i hc
    have h0 : ¬0 < (s.released p).pinCount p := by omega
    rw [PagePool.disposePage, if_neg h0]
    by_cases e : q = p
    · exact .inr (.inl (by simp [e]))
    · refine hq.imp (fun hd => ?_) (Or.imp (fun hb => ?_) fun hw => ?_)
      · by_cases e0 : q = headerPage
        · simp [e0]
        · simpa [PagePool.setPin, Function.update_of_ne e0, Function.update_of_ne e] using hd
      · simpa [Function.update_of_ne e] using hb
      · simpa [Function.update_of_ne e] using hw
  · exact hq

theorem Marked.getPage (h : s0.Marked s safe pending) : s0.Marked (s.getPage p).2 safe pending := by
  unfold PagePool.getPage takeFault
  rw [h.faults]
  simp only [ne_eq, not_true_eq_false, if_false]
  split
  · exact h
  · exact ⟨h.faults, h.changed, h.safe⟩

theorem Marked.of_touched (h : s0.Marked s safe pending) (hf : s'.faults = [])
    (hd : ∀ q, q ≠ p → s'.pageData q = s.pageData q) (hc : ∀ q, q ≠ p → s.Covered q → s'.Covered q) :
    s0.Marked s' (p :: safe) (p :: pending) := by
  have hall : ∀ q, s.Covered q ∨ q ∈ pending → s'.Covered q ∨ q ∈ p :: pending := by
    rintro q (hq | hq)
    · by_cases e : q = p
      · exact .inr (e ▸ List.mem_cons_self)
      · exact .inl (hc q e hq)
    · exact .inr (List.mem_cons_of_mem _ hq)
  refine ⟨hf, fun q hq => ?_, fun q hq => ?_⟩
  · by_cases e : q = p
    · exact .inr (e ▸ List.mem_cons_self)
    · exact hall q (h.changed q (by rwa [hd q e] at hq))
  · rcases List.mem_cons.mp hq with rfl | hq
    · exact .inr List.mem_cons_self
    · exact hall q (h.safe q hq)

/-- The page that is allocated waits for its mark. -/
theorem Marked.allocatePage [Inhabited δ] (h : s0.Marked s safe pending) :
    s0.Marked s.allocatePage.2.2 (s.allocatePage.2.1 :: safe) (s.allocatePage.2.1 :: pending) := by
  have hbits : ∀ (t : PagePool δ) (i : PageId), (∀ q, q ≠ i → s.dirty q = true → t.dirty q = true) →
      t.bitmap = Function.update s.bitmap i true → t.disposedPages = s.disposedPages →
      ∀ q, q ≠ i → s.Covered q → t.Covered q := by
    intro t i hd hb hw q hq hc
    refine hc.imp (hd q hq) (Or.imp (fun hc => ?_) fun hc => ?_)
    · rw [hb, Function.update_of_ne hq, hc]
    · rw [hw, hc]
  have hheader : ∀ q, s.dirty q = true → Function.update s.dirty headerPage true q = true := by
    intro q hd
    by_cases e : q = headerPage
    · simp [e]
    · rw [Function.update_of_ne e, hd]
  unfold PagePool.allocatePage
  cases hfree : s.firstFree with
  | some i =>
    have h1 : s0.Marked ({ s with
        allocatedPagesNum := s.allocatedPagesNum + 1
        bitmap := Function.update s.bitmap i true }.dirtyMark headerPage) (i :: safe) (i :: pending) :=
      h.of_touched h.faults (fun _ _ => rfl) (hbits _ i (fun q _ => hheader q) rfl rfl)
    exact h1.getPage
  | none =>
    simp only [takeFault, h.faults, ne_eq, not_true_eq_false, if_false]
    split
    · exact (h.wait 0).of_eq rfl rfl fun _ hq => hq
    · refine h.of_touched rfl (fun q hq => Function.update_of_ne hq _ _) (hbits _ _ ?_ rfl rfl)
      intro q hq hd
      show Function.update (Function.update s.dirty headerPage true) s.pagesNum false q = true
      rw [Function.update_of_ne hq, hheader q hd]

theorem pageData_getPage (s : PagePool δ) (p : PageId) : (s.getPage p).2.pageData = s.pageData := by
  unfold PagePool.getPage takeFault
  cases s.faults with
  | nil =>
    simp only
    split_ifs <;> rfl
  | cons r rs =>
    simp only
    split_ifs <;> rfl

theorem pageData_allocatePage [Inhabited δ] (hf : s.faults = []) (hp : p ≠ s.allocatePage.2.1) :
    s.allocatePage.2.2.pageData p = s.pageData p := by
  unfold PagePool.allocatePage at hp ⊢
  cases hfree : s.firstFree with
  | some i =>
    simp only [PagePool.getPage, takeFault, PagePool.dirtyMark, hf, ne_eq, not_true_eq_false, if_false]
    split_ifs <;> rfl
  | none =>
    rw [hfree] at hp
    simp only [takeFault, hf, ne_eq, not_true_eq_false, if_false] at hp ⊢
    split_ifs at hp ⊢
    · rfl
    · exact Function.update_of_ne hp _ _

/-- With every load succeeding, only a full file makes `AllocatePage` fail. -/
theorem Marked.allocatePage_failed [Inhabited δ] (h : s0.Marked s safe pending)
    (hr : s.allocatePage.1 ≠ .success) : s0.Marked s.allocatePage.2.2 safe pending := by
  unfold PagePool.allocatePage at hr ⊢
  cases hfree : s.firstFree with
  | some i =>
    have hlt := (firstFree_spec hfree).1
    rw [hfree] at hr
    simp only [PagePool.getPage, takeFault, PagePool.dirtyMark, h.faults, ne_eq, not_true_eq_false,
      if_false, Nat.not_le.mpr hlt] at hr
  | none =>
    rw [hfree] at hr
    simp only [takeFault, h.faults, ne_eq, not_true_eq_false, if_false] at hr ⊢
    split
    · exact h.of_eq rfl rfl fun _ hq => hq
    · rename_i hroom
      rw [if_neg hroom] at hr
      exact absurd rfl hr

end Marked

end PagePool

namespace BplusTreeHandler

variable {α : Type} {s0 s s' : BplusTreeHandler α} {safe pending : List PageId}
  {p q frame newFrame parent neighbor this other : PageId} {kind : NodeKind} {r : Re}

/-- `PagePool.Marked` of the two files. -/
def Marked (s0 s : BplusTreeHandler α) (safe pending : List PageId) : Prop :=
  s0.pool.Marked s.pool safe pending

/-! ## Frames -/

theorem Marked.mono {safe' pending' : List PageId} (h : Marked s0 s safe pending) (h1 : safe' ⊆ safe)
    (h2 : pending ⊆ pending') : Marked s0 s safe' pending' := PagePool.Marked.mono h h1 h2

theorem Marked.wait (h : Marked s0 s safe pending) (p : PageId) :
    Marked s0 s (p :: safe) (p :: pending) := PagePool.Marked.wait h p

theorem Marked.modifyNode (h : Marked s0 s safe pending) (hp : p ∈ safe)
    (f : IndexNode α → IndexNode α) : Marked s0 (s.modifyNode p f) safe pending :=
  PagePool.Marked.setData h hp _

theorem Marked.dirtyMark (h : Marked s0 s safe (p :: pending)) :
    Marked s0 (s.dirtyMark p) safe pending := PagePool.Marked.dirtyMark h

theorem Marked.unpinPage (h : Marked s0 s safe pending) : Marked s0 (s.unpinPage p) safe pending :=
  PagePool.Marked.unpinPage h

theorem Marked.disposePage (h : Marked s0 s safe (p :: pending)) :
    Marked s0 (s.disposePage p) safe pending := PagePool.Marked.disposePage h

theorem Marked.setRoot (h : Marked s0 s safe pending) (root : Option PageId) :
    Marked s0 (s.setRoot root) safe pending := h

theorem Marked.getPage (h : Marked s0 s safe pending) (hg : s.getPage p = (r, s')) :
    Marked s0 s' safe pending := by
  rw [BplusTreeHandler.getPage] at hg
  cases hg
  exact PagePool.Marked.getPage h

theorem Marked.allocatePage [Inhabited α] (h : Marked s0 s safe pending)
    (ha : s.allocatePage = (r, q, s')) : Marked s0 s' (q :: safe) (q :: pending) := by
  rw [BplusTreeHandler.allocatePage] at ha
  cases ha
  exact PagePool.Marked.allocatePage h

theorem Marked.allocatePage_failed [Inhabited α] (h : Marked s0 s safe pending)
    (ha : s.allocatePage = (r, q, s')) (hr : r ≠ .success) : Marked s0 s' safe pending := by
  rw [BplusTreeHandler.allocatePage] at ha
  cases ha
  exact PagePool.Marked.allocatePage_failed h hr

theorem Marked.mark (h : Marked s0 s safe pending) : Marked s0 (s.dirtyMark p) safe pending :=
  (h.mono (List.Subset.refl _) (List.subset_cons_self p _)).dirtyMark

theorem Marked.done (h : Marked s0 s safe pending) : Marked s0 s [] pending :=
  h.mono (List.nil_subset _) (List.Subset.refl _)

/-- A page is changed, and marked before anything else. -/
theorem Marked.modify_mark (h : Marked s0 s safe pending) (p : PageId) (f : IndexNode α → IndexNode α) :
    Marked s0 ((s.modifyNode p f).dirtyMark p) (p :: safe) pending :=
  ((h.wait p).modifyNode List.mem_cons_self f).dirtyMark

theorem Marked.updateRootPageId (h : Marked s0 s safe pending) :
    Marked s0 s.updateRootPageId.2 safe pending := by
  unfold BplusTreeHandler.updateRootPageId
  rcases hg : s.getPage firstIndexPage with ⟨r, s1⟩
  have h1 := h.getPage hg
  simp only
  split
  · exact h1
  · have h2 : ∀ s2 : BplusTreeHandler α, Marked s0 s2 (firstIndexPage :: safe) (firstIndexPage :: pending) →
        Marked s0 ((s2.dirtyMark firstIndexPage).unpinPage firstIndexPage) safe pending := fun s2 h2 =>
      (h2.dirtyMark.mono (List.subset_cons_self _ _) fun _ hp => hp).unpinPage
    refine h2 _ ?_
    split
    · exact PagePool.Marked.setData (h1.wait firstIndexPage) List.mem_cons_self _
    · exact h1.wait firstIndexPage

/-! ## Moving items -/

/-- Every child that learns its new parent is marked. -/
theorem Marked.adoptChildren (this : PageId) (ps : List PageId) : ∀ {s : BplusTreeHandler α},
    Marked s0 s safe pending → Marked s0 (adoptChildren this ps s).2 safe pending := by
  induction ps with
  | nil => exact fun h => h
  | cons p ps ih =>
    intro s h
    rw [BplusTreeHandler.adoptChildren]
    rcases hg : s.getPage p with ⟨r, s1⟩
    have h1 := h.getPage hg
    simp only
    split
    · exact h1
    · exact ih ((h1.modify_mark p _).mono (List.subset_cons_self _ _) fun _ hp => hp).unpinPage

theorem Marked.modifyAfter {x : Re × BplusTreeHandler α} (h : Marked s0 x.2 safe pending)
    (hp : p ∈ safe) (f : IndexNode α → IndexNode α) :
    Marked s0 (if x.1 ≠ .success then x else (.success, x.2.modifyNode p f)).2 safe pending := by
  split
  · exact h
  · exact h.modifyNode hp f

theorem Marked.copyFrom (h : Marked s0 s safe pending) (hthis : this ∈ safe)
    (items : List (Key α × PageId)) : Marked s0 (copyFrom this items s).2 safe pending :=
  (h.adoptChildren this (items.map Prod.snd)).modifyAfter hthis _

theorem Marked.preappend (h : Marked s0 s safe pending) (hthis : this ∈ safe) (item : Key α × PageId) :
    Marked s0 (preappend this item s).2 safe pending :=
  (h.adoptChildren this [item.2]).modifyAfter hthis _

theorem Marked.moveHalfTo (h : Marked s0 s safe pending) (hthis : this ∈ safe) (hother : other ∈ safe) :
    Marked s0 (moveHalfTo kind this other s).2 safe pending := by
  cases kind with
  | leaf => exact (h.modifyNode hother _).modifyNode hthis _
  | internal => exact (h.copyFrom hother _).modifyAfter hthis _

theorem Marked.moveFirstToEnd (h : Marked s0 s safe pending) (hthis : this ∈ safe)
    (hother : other ∈ safe) : Marked s0 (moveFirstToEnd kind this other s).2 safe pending := by
  cases kind with
  | leaf => exact (h.modifyNode hother _).modifyNode hthis _
  | internal => exact (h.copyFrom hother _).modifyAfter hthis _

theorem Marked.moveLastToFront (h : Marked s0 s safe pending) (hthis : this ∈ safe)
    (hother : other ∈ safe) : Marked s0 (moveLastToFront kind this other s).2 safe pending := by
  cases kind with
  | leaf =>
    simp only [BplusTreeHandler.moveLastToFront]
    split
    · exact h
    · exact (h.modifyNode hother _).modifyNode hthis _
  | internal =>
    simp only [BplusTreeHandler.moveLastToFront]
    split
    · exact h
    · exact (h.preappend hother _).modifyAfter hthis _

/-! ## Insertion -/

theorem Marked.split [Inhabited α] (h : Marked s0 s safe pending)
    (hs : s.split kind frame = (.success, newFrame, s')) :
    Marked s0 s' (newFrame :: frame :: safe) pending := by
  obtain ⟨s1, ha, rfl⟩ := split_success hs
  have h1 := ((h.wait frame).allocatePage ha).mono (List.Subset.refl _)
    (List.Perm.swap frame newFrame pending).subset
  exact (((h1.modifyNode List.mem_cons_self _).modifyNode List.mem_cons_self _).moveHalfTo
    (List.mem_cons_of_mem _ List.mem_cons_self) List.mem_cons_self).dirtyMark.dirtyMark

theorem Marked.split_failed [Inhabited α] (h : Marked s0 s safe pending)
    (hs : s.split kind frame = (r, newFrame, s')) (hr : r ≠ .success) : Marked s0 s' safe pending := by
  rw [BplusTreeHandler.split] at hs
  rcases ha : s.allocatePage with ⟨r', q, s1⟩
  rw [ha] at hs
  simp only at hs
  split at hs
  · cases hs
    exact h.allocatePage_failed ha hr
  · cases hs
    exact absurd rfl hr

/-- `InsertEntryIntoParent` marks all it changes, given that the two halves are marked. -/
theorem Marked.insertEntryIntoParent [Inhabited α] {cmp : Key α → Key α → Int} : ∀ {turns : Nat}
    {frame newFrame : PageId} {key : Key α} {s : BplusTreeHandler α},
      Marked s0 s (newFrame :: frame :: safe) pending →
      Marked s0 (insertEntryIntoParent cmp turns frame newFrame key s).2 [] pending := by
  intro turns
  induction turns generalizing safe with
  | zero => exact fun h => h.done
  | succ turns ih =>
    intro frame newFrame key s h
    unfold BplusTreeHandler.insertEntryIntoParent
    cases hpar : (s.node frame).parent with
    | none =>
      simp only
      rcases ha : s.allocatePage with ⟨r, root, s1⟩
      simp only
      by_cases hr : r ≠ .success
      · rw [if_pos hr]
        exact (h.allocatePage_failed ha hr).done
      · rw [if_neg hr]
        have h1 := h.allocatePage ha
        have hroot : root ∈ root :: newFrame :: frame :: safe := List.mem_cons_self
        have hnew : newFrame ∈ root :: newFrame :: frame :: safe :=
          List.mem_cons_of_mem _ List.mem_cons_self
        have hframe : frame ∈ root :: newFrame :: frame :: safe :=
          List.mem_cons_of_mem _ (List.mem_cons_of_mem _ List.mem_cons_self)
        exact ((((h1.modifyNode hroot _).modifyNode hframe _).modifyNode hnew
          _).mark.mark.unpinPage.unpinPage.setRoot (some root)).updateRootPageId.dirtyMark.unpinPage.done
    | some parent =>
      simp only
      rcases hg : s.getPage parent with ⟨r, s1⟩
      have h1 := h.getPage hg
      simp only
      by_cases hr : r ≠ .success
      · rw [if_pos hr]
        exact h1.done
      · rw [if_neg hr]
        by_cases hroom : (s1.node parent).size < s1.maxSize .internal
        · rw [if_pos hroom]
          exact (((h1.wait parent).modifyNode List.mem_cons_self _).modifyNode
            (List.mem_cons_of_mem _ List.mem_cons_self)
            _).mark.mark.dirtyMark.unpinPage.unpinPage.unpinPage.done
        · rw [if_neg hroom]
          rcases hs : s1.split .internal parent with ⟨r, newParent, s2⟩
          simp only
          by_cases hr : r ≠ .success
          · rw [if_pos hr]
            exact (h1.split_failed hs hr).unpinPage.unpinPage.unpinPage.done
          · rw [if_neg hr]
            rw [not_not.mp hr] at hs
            have h2 := h1.split hs
            have hnew : newFrame ∈ newParent :: parent :: newFrame :: frame :: safe :=
              List.mem_cons_of_mem _ (List.mem_cons_of_mem _ List.mem_cons_self)
            refine ih (((h2.modifyNode ?_ _).modifyNode hnew _).unpinPage.unpinPage)
            split
            · exact List.mem_cons_self
            · exact List.mem_cons_of_mem _ List.mem_cons_self

/-! ## Deletion -/

/-- `Redistribute` marks the two nodes and their parent. -/
theorem Marked.redistribute [Inhabited α] (h : Marked s0 s safe pending) (kind : NodeKind)
    (neighbor frame parent : PageId) (index : Nat) :
    Marked s0 (redistribute kind neighbor frame parent index s).2 [] pending := by
  have h1 := ((h.wait parent).wait frame).wait neighbor
  have hn : neighbor ∈ neighbor :: frame :: parent :: safe := List.mem_cons_self
  have hf : frame ∈ neighbor :: frame :: parent :: safe := List.mem_cons_of_mem _ List.mem_cons_self
  have hp : parent ∈ neighbor :: frame :: parent :: safe :=
    List.mem_cons_of_mem _ (List.mem_cons_of_mem _ List.mem_cons_self)
  have hend : ∀ s1 : BplusTreeHandler α,
      Marked s0 s1 (neighbor :: frame :: parent :: safe) (neighbor :: frame :: parent :: pending) →
      Marked s0 ((((((s1.dirtyMark neighbor).dirtyMark frame).dirtyMark parent).unpinPage
        parent).unpinPage neighbor).unpinPage frame) [] pending := fun s1 h1 =>
    (h1.dirtyMark.dirtyMark.dirtyMark.unpinPage.unpinPage.unpinPage).mono (List.nil_subset _)
      (List.Subset.refl _)
  simp only [BplusTreeHandler.redistribute]
  refine hend _ ?_
  split
  · exact (h1.moveFirstToEnd hn hf).modifyNode hp _
  · exact (h1.moveLastToFront hn hf).modifyNode hp _

/-! ## One call -/

section Calls

variable [Inhabited α] {cmp : Key α → Key α → Int}

theorem Marked.findLeaf {key : Key α} (h : Marked s0 s safe pending)
    (hf : s.findLeaf cmp key = (.success, q, s')) :
    Marked s0 s' safe pending ∧ (s'.node q).isLeaf = true := by
  have hroot : ∀ root s1, s.getPage root = (.success, s1) → Marked s0 s1 safe pending :=
    fun root s1 hg => h.getPage hg
  refine findLeaf_keeps hroot ?_ hf
  intro p s child s1 hp hg
  exact hp.unpinPage.getPage hg

omit [Inhabited α] in
/-- A next leaf that is relinked has to be marked already. -/
theorem Marked.relinkNext (h : Marked s0 s safe pending) (prev : PageId) {next : Option PageId}
    (hn : ∀ p ∈ next, p ∈ safe) : Marked s0 (relinkNext prev next s).2 safe pending := by
  cases next with
  | none => exact h
  | some next =>
    simp only [BplusTreeHandler.relinkNext]
    rcases hg : s.getPage next with ⟨r, s1⟩
    have h1 := h.getPage hg
    simp only
    split
    · exact h1
    · exact (h1.modifyNode (hn next rfl) _).unpinPage

theorem Marked.createNewTree {key : Key α} {rid : RecordId} (h : Marked s0 s safe pending)
    (hr : (createNewTree key rid s).1 = .success) :
    Marked s0 (createNewTree key rid s).2 [] pending := by
  unfold BplusTreeHandler.createNewTree at hr ⊢
  by_cases he : s.isEmpty = true
  · simp only [he, Bool.not_true, Bool.false_eq_true, if_false] at hr ⊢
    rcases ha : s.allocatePage with ⟨r, q, s1⟩
    rw [ha] at hr
    simp only at hr ⊢
    by_cases hne : r ≠ .success
    · rw [if_pos hne] at hr
      exact absurd hr hne
    · rw [if_neg hne]
      exact (((h.allocatePage ha).modifyNode List.mem_cons_self _).setRoot
        _).dirtyMark.unpinPage.updateRootPageId.done
  · rw [Bool.not_eq_true] at he
    simp only [he, Bool.not_false, if_true] at hr ⊢
    cases hr

omit [Inhabited α] in
theorem node_allocatePage [Inhabited α] (hload : s.pool.faults = []) (ha : s.allocatePage = (r, q, s')) (hp : p ≠ q) :
    s'.node p = s.node p := by
  rw [BplusTreeHandler.allocatePage] at ha
  rcases hpool : s.pool.allocatePage with ⟨r', q', pool⟩
  rw [hpool] at ha
  cases ha
  have hdata := PagePool.pageData_allocatePage hload (p := p) (by rw [hpool]; exact hp)
  rw [hpool] at hdata
  exact congrArg IndexPage.asNode hdata

omit [Inhabited α] in
theorem node_modifyNode (s : BplusTreeHandler α) (p : PageId) (f : IndexNode α → IndexNode α) :
    (s.modifyNode p f).node = Function.update s.node p (f (s.node p)) := node_setNode _ _ _

omit [Inhabited α] in
theorem nextBrother_modifyNode {f : IndexNode α → IndexNode α}
    (hf : ∀ n, n.nextBrother = none → (f n).nextBrother = none) (h : (s.node p).nextBrother = none)
    (q : PageId) : ((s.modifyNode q f).node p).nextBrother = none := by
  rw [node_modifyNode]
  by_cases e : p = q
  · subst e
    rw [Function.update_self]
    exact hf _ h
  · rw [Function.update_of_ne e, h]

/-- The last leaf has no next leaf after its split either. -/
theorem nextBrother_split (hload : s.pool.faults = []) (h : (s.node frame).nextBrother = none)
    (hs : s.split .leaf frame = (.success, newFrame, s')) : (s'.node frame).nextBrother = none := by
  obtain ⟨s1, ha, rfl⟩ := split_success hs
  have h1 : ((s1.modifyNode newFrame (IndexNode.initEmpty .leaf)).node frame).nextBrother = none := by
    rw [node_modifyNode]
    by_cases e : frame = newFrame
    · subst e
      rw [Function.update_self]
      rfl
    · rw [Function.update_of_ne e, node_allocatePage hload ha e, h]
  have h2 := nextBrother_modifyNode (f := fun n => { n with
    parent := ((s1.modifyNode newFrame (IndexNode.initEmpty .leaf)).node frame).parent })
    (fun _ h => h) h1 newFrame
  have h3 : ((moveHalfTo .leaf frame newFrame ((s1.modifyNode newFrame
      (IndexNode.initEmpty .leaf)).setParentPageId newFrame ((s1.modifyNode newFrame
      (IndexNode.initEmpty .leaf)).node frame).parent)).2.node frame).nextBrother = none := by
    simp only [BplusTreeHandler.moveHalfTo]
    refine nextBrother_modifyNode ?_ (nextBrother_modifyNode ?_ h2 _) _
    · exact fun _ h => h
    · exact fun _ h => h
  exact h3

/-- `InsertEntryIntoLeafNode` in a leaf with room or without a next leaf. -/
theorem Marked.insertEntryIntoLeafNode {key : Key α} {rid : RecordId} (h : Marked s0 s [] [])
    (hok : (insertEntryIntoLeafNode cmp frame key rid s).1 = .success)
    (hroom : (s.node frame).size < s.maxSize .leaf ∨ (s.node frame).nextBrother = none) :
    Marked s0 (insertEntryIntoLeafNode cmp frame key rid s).2 [] [] := by
  unfold BplusTreeHandler.insertEntryIntoLeafNode at hok ⊢
  rcases hlook : (s.node frame).leafLookUp cmp key with ⟨position, found⟩
  rw [hlook] at hok
  simp only at hok ⊢
  by_cases hfound : found = true
  · rw [if_pos hfound] at hok
    cases hok
  · rw [if_neg hfound] at hok ⊢
    by_cases hsize : (s.node frame).size < s.maxSize .leaf
    · rw [if_pos hsize]
      exact (h.modify_mark frame _).unpinPage.done
    · rw [if_neg hsize] at hok ⊢
      have hlast := hroom.resolve_left hsize
      rcases hs : s.split .leaf frame with ⟨r, newFrame, s1⟩
      rw [hs] at hok
      simp only at hok ⊢
      by_cases hr : r ≠ .success
      · rw [if_pos hr] at hok
        exact absurd hok hr
      · rw [if_neg hr] at hok ⊢
        rw [not_not.mp hr] at hs
        have h1 := h.split hs
        have hnew : newFrame ∈ [newFrame, frame] := List.mem_cons_self
        have hframe : frame ∈ [newFrame, frame] := List.mem_cons_of_mem _ List.mem_cons_self
        have hnext1 := nextBrother_split h.faults hlast hs
        have hprev := nextBrother_modifyNode (f := fun n => { n with prevBrother := some frame })
          (fun _ h => h) hnext1 newFrame
        rw [show ((s1.setPrevPage newFrame (some frame)).node frame).nextBrother = none from hprev] at hok ⊢
        generalize hu : (((s1.setPrevPage newFrame (some frame)).setNextPage newFrame none).setParentPageId
          newFrame _).setNextPage frame (some newFrame) = u at hok ⊢
        have h2 : Marked s0 u [newFrame, frame] [] := by
          rw [← hu]
          exact (((h1.modifyNode hnew _).modifyNode hnew _).modifyNode hnew _).modifyNode hframe _
        have hnext : ∀ y ∈ (u.node newFrame).nextBrother, y ∈ [newFrame, frame] := by
          have hcleared : ∀ par, ((((s1.setPrevPage newFrame (some frame)).setNextPage newFrame
              none).setParentPageId newFrame par).node newFrame).nextBrother = none := by
            intro par
            refine nextBrother_modifyNode ?_ ?_ newFrame
            · exact fun _ h => h
            · rw [setNextPage, node_modifyNode, Function.update_self]
          rw [← hu, setNextPage, node_modifyNode]
          by_cases e : newFrame = frame
          · rw [e, Function.update_self]
            intro y hy
            cases hy
            exact List.mem_cons_self
          · rw [Function.update_of_ne e, hcleared]
            intro y hy
            cases hy
        have h3 := h2.relinkNext newFrame hnext
        rcases hl : BplusTreeHandler.relinkNext newFrame (u.node newFrame).nextBrother u with ⟨r, v⟩
        rw [hl] at hok h3
        simp only at hok h3 ⊢
        by_cases hr : r ≠ .success
        · rw [if_pos hr] at hok
          exact absurd hok hr
        · rw [if_neg hr]
          suffices hparent : Marked s0 _ [newFrame, frame] [] from hparent.insertEntryIntoParent
          split
          · exact h3.modifyNode hframe _
          · exact h3.modifyNode hnew _

omit [Inhabited α] in
theorem node_getPage (hg : s.getPage p = (r, s')) :
    s'.node = s.node ∧ s'.fileHeader = s.fileHeader := by
  rw [BplusTreeHandler.getPage] at hg
  rcases hpool : s.pool.getPage p with ⟨r', pool⟩
  have hdata := s.pool.pageData_getPage p
  rw [hpool] at hg hdata
  cases hg
  exact ⟨node_eq_of_pageData hdata, rfl⟩

omit [Inhabited α] in
/-- `AdjustRoot` on a leaf marks it or disposes it. -/
theorem Marked.adjustRoot_leaf (h : Marked s0 s safe pending) (hleaf : (s.node p).isLeaf = true) :
    Marked s0 (adjustRoot p s).2 [] pending := by
  unfold adjustRoot lowerRoot
  simp only [hleaf, if_true, true_and]
  split
  · exact h.mark.unpinPage.done
  · simp only [ne_eq, not_true_eq_false, if_false]
    exact (((h.setRoot none).updateRootPageId.unpinPage.mono (List.Subset.refl _)
      (List.subset_cons_self p _)).disposePage).done

/-- The neighbour that `CoalesceOrRedistribute` takes for the leaf `n` below `parent` lends an item. -/
def Borrows (cmp : Key α → Key α → Int) (s : BplusTreeHandler α) (n : IndexNode α) (parent : PageId) : Prop :=
  let index := ((s.node parent).internalLookUp cmp (n.itemKeyAt .leaf (n.size - 1))).1
  s.maxSize .leaf < n.size + (s.node ((s.node parent).valueAt (if index = 0 then 1 else index - 1))).size

/-- `CoalesceOrRedistribute` of a leaf that need not be merged. -/
theorem Marked.coalesceOrRedistribute_leaf {turns : Nat} (h : Marked s0 s safe pending)
    (hleaf : (s.node p).isLeaf = true)
    (hborrows : s.minSize .leaf ≤ (s.node p).size ∨ ∀ parent ∈ (s.node p).parent, s.Borrows cmp (s.node p) parent) :
    Marked s0 (coalesceOrRedistribute cmp turns .leaf p s).2 [] pending := by
  cases turns with
  | zero => exact h.done
  | succ turns =>
    unfold coalesceOrRedistribute
    simp only
    by_cases hmin : s.minSize .leaf ≤ (s.node p).size
    · rw [if_pos hmin]
      exact h.unpinPage.done
    · rw [if_neg hmin]
      have hborrows := hborrows.resolve_left hmin
      cases hpar : (s.node p).parent with
      | none =>
        simp only
        split
        · exact h.unpinPage.done
        · exact h.adjustRoot_leaf hleaf
      | some parent =>
        simp only
        rcases hg : s.getPage parent with ⟨r, s1⟩
        obtain ⟨hnode, hheader⟩ := node_getPage hg
        have h1 := h.getPage hg
        simp only [hnode]
        by_cases hr : r ≠ .success
        · rw [if_pos hr]
          exact h1.unpinPage.done
        · rw [if_neg hr]
          have hb := hborrows parent hpar
          simp only [Borrows] at hb
          generalize (IndexNode.internalLookUp cmp _ (s.node parent)).1 = index at hb ⊢
          rcases hg' : s1.getPage ((s.node parent).valueAt (if index = 0 then 1 else index - 1)) with ⟨r, s2⟩
          obtain ⟨hnode', hheader'⟩ := node_getPage hg'
          have h2 := h1.getPage hg'
          simp only
          by_cases hr : r ≠ .success
          · rw [if_pos hr]
            exact h2.unpinPage.unpinPage.done
          · have hshare : s2.maxSize .leaf < (s.node p).size + (s2.node ((s.node parent).valueAt
                (if index = 0 then 1 else index - 1))).size := by
              rw [hnode', hnode, maxSize, hheader', hheader]
              exact hb
            rw [if_neg hr, if_pos hshare]
            exact h2.redistribute _ _ _ _ _

/-- `c` tells no next leaf of a new neighbour, and it merges no leaf with its neighbour. -/
def MarksAll (cmp : Key α → Key α → Int) (s : BplusTreeHandler α) : IndexCall α → Prop
  | .insertEntry userKey rid =>
    match s.findLeaf cmp ⟨userKey, rid⟩ with
    | (r, leaf, s) => r = .success →
        (s.node leaf).size < s.maxSize .leaf ∨ (s.node leaf).nextBrother = none
  | .deleteEntry userKey rid =>
    match s.findLeaf cmp ⟨userKey, rid⟩ with
    | (r, leaf, s) => r = .success →
        let n := ((s.node leaf).leafRemove cmp ⟨userKey, rid⟩).2
        s.minSize .leaf ≤ n.size ∨ ∀ parent ∈ n.parent, (s.setNode leaf n).Borrows cmp n parent

theorem Marked.deleteEntryInternal {key : Key α} (h : Marked s0 s [] [])
    (hleaf : (s.node p).isLeaf = true)
    (hok : (deleteEntryInternal cmp p key s).1 = .success)
    (hborrows : s.minSize .leaf ≤ ((s.node p).leafRemove cmp key).2.size ∨
      ∀ parent ∈ ((s.node p).leafRemove cmp key).2.parent,
        (s.setNode p ((s.node p).leafRemove cmp key).2).Borrows cmp ((s.node p).leafRemove cmp key).2 parent) :
    Marked s0 (deleteEntryInternal cmp p key s).2 [] [] := by
  have hkind : ((s.node p).leafRemove cmp key).2.isLeaf = true := by
    unfold IndexNode.leafRemove
    simp only
    split
    · exact hleaf
    · exact hleaf
  unfold BplusTreeHandler.deleteEntryInternal at hok ⊢
  rcases hrem : (s.node p).leafRemove cmp key with ⟨count, n⟩
  rw [hrem] at hok hborrows hkind
  simp only at hok hborrows hkind ⊢
  by_cases hcount : count = 0
  · rw [if_pos hcount] at hok
    cases hok
  · rw [if_neg hcount]
    have hnode : ((s.setNode p n).dirtyMark p).node p = n := by
      show (s.setNode p n).node p = n
      rw [node_setNode, Function.update_self]
    have h1 : Marked s0 ((s.setNode p n).dirtyMark p) [p] [] := h.modify_mark p fun _ => n
    rw [hnode]
    split
    · exact h1.unpinPage.done
    · refine h1.coalesceOrRedistribute_leaf (by rw [hnode]; exact hkind) ?_
      rw [hnode]
      exact hborrows

/-- Whatever a call changes is marked, unless it relinks a next leaf or merges leaves. -/
theorem Marked.call {c : IndexCall α} (hload : s.pool.faults = []) (hmarks : s.MarksAll cmp c)
    (hok : (s.call cmp c).1 = .success) : Marked s (s.call cmp c).2 [] [] := by
  have h : Marked s s [] [] := PagePool.Marked.refl hload
  cases c with
  | insertEntry userKey rid =>
    simp only [BplusTreeHandler.call, insertEntry, MarksAll] at hok hmarks ⊢
    by_cases he : s.isEmpty = true
    · rw [if_pos he] at hok ⊢
      exact h.createNewTree hok
    · rw [if_neg he] at hok ⊢
      rcases hf : s.findLeaf cmp ⟨userKey, rid⟩ with ⟨r, leaf, s1⟩
      rw [hf] at hok hmarks
      simp only at hok hmarks ⊢
      by_cases hr : r ≠ .success
      · rw [if_pos hr] at hok
        exact absurd hok hr
      · rw [if_neg hr] at hok ⊢
        rw [not_not.mp hr] at hf
        have h1 := (h.findLeaf hf).1
        rcases hi : BplusTreeHandler.insertEntryIntoLeafNode cmp leaf ⟨userKey, rid⟩ rid s1 with ⟨r', s2⟩
        rw [hi] at hok
        simp only at hok ⊢
        by_cases hr' : r' ≠ .success
        · rw [if_pos hr'] at hok
          exact absurd hok hr'
        · rw [if_neg hr']
          have h2 : Marked s (BplusTreeHandler.insertEntryIntoLeafNode cmp leaf ⟨userKey, rid⟩ rid s1).2 [] [] :=
            h1.insertEntryIntoLeafNode (by rw [hi]; exact not_not.mp hr') (hmarks (not_not.mp hr))
          rw [hi] at h2
          exact h2
  | deleteEntry userKey rid =>
    simp only [BplusTreeHandler.call, deleteEntry, MarksAll] at hok hmarks ⊢
    rcases hf : s.findLeaf cmp ⟨userKey, rid⟩ with ⟨r, leaf, s1⟩
    rw [hf] at hok hmarks
    simp only at hok hmarks ⊢
    by_cases hr : r ≠ .success
    · rw [if_pos hr] at hok
      exact absurd hok hr
    · rw [if_neg hr] at hok ⊢
      rw [not_not.mp hr] at hf
      obtain ⟨h1, hleaf⟩ := h.findLeaf hf
      exact h1.deleteEntryInternal hleaf hok (hmarks (not_not.mp hr))

/-- When every page loads, an insertion that tells no next leaf of its new neighbour and a deletion
that merges no leaves lose nothing: what they change is marked or disposed, and clean frames can be
dropped and read again. -/
theorem call_marks {α : Type} [Inhabited α] {cmp : Key α → Key α → Int} (s : BplusTreeHandler α)
    (hload : s.pool.faults = []) (c : IndexCall α) (hok : (s.call cmp c).1 = .success)
    (hmarks : s.MarksAll cmp c) :
    (∀ p, (s.call cmp c).2.pool.pageData p ≠ s.pool.pageData p → (s.call cmp c).2.pool.Covered p) ∧
    ∀ (dropped : PageId → Bool) (p : PageId), (s.call cmp c).2.pool.bitmap p = true →
      (s.call cmp c).2.pool.disposedPages p = false →
      (s.pool.reread (s.call cmp c).2.pool dropped).pageData p = (s.call cmp c).2.pool.pageData p := by
  have h := Marked.call hload hmarks hok
  have hcovered : ∀ p, (s.call cmp c).2.pool.pageData p ≠ s.pool.pageData p →
      (s.call cmp c).2.pool.Covered p := fun p hp =>
    (h.changed p hp).resolve_right List.not_mem_nil
  refine ⟨hcovered, fun dropped p hbit hdisposed => ?_⟩
  simp only [PagePool.reread]
  split
  · rename_i hdrop
    by_contra hne
    rcases hcovered p (fun he => hne he.symm) with hd | hb | hw
    · exact absurd (hdrop.2.symm.trans hd) (by decide)
    · exact absurd (hbit.symm.trans hb) (by decide)
    · exact absurd (hdisposed.symm.trans hw) (by decide)
  · rfl

end Calls

/-! ## Indexes on disk -/

/-- An index whose frames have all been written. -/
def flushed (s : BplusTreeHandler α) : BplusTreeHandler α :=
  { s with pool := { s.pool with dirty := fun _ => false } }

theorem WellFormed.flushed {cmp : Key α → Key α → Int} {m : Nat} {t : IndexTree α m}
    (h : WellFormed cmp s t) : WellFormed cmp s.flushed t :=
  { h with sound := ⟨h.sound.bounded, h.sound.kept, h.sound.waiting⟩ }

/-- Two leaves with two entries each. -/
def twoByTwo : BplusTreeHandler Int :=
  (run numberComparator (ascending 5 ++ [.deleteEntry 2 ⟨1, 0⟩]) (emptyIndex 6 4)).flushed

theorem Maintained.flushed {cmp : Key α → Key α → Int} {S : Set (Key α)} {internalMaxSize leafMaxSize : Nat}
    (h : Maintained cmp S ⟨leafMaxSize, internalMaxSize⟩ s) (hleaf : 4 ≤ leafMaxSize)
    (hinternal : 6 ≤ internalMaxSize) (hroot : s.fileHeader.rootPageId ≠ none) :
    s.flushed.fileHeader.Roomy ∧ s.flushed.pool.faults = [] ∧
      ∃ (m : Nat) (t : IndexTree α m), WellFormed cmp s.flushed t := by
  have hroomy : s.fileHeader.Roomy := h.roomy hleaf hinternal
  refine ⟨hroomy, h.faults, ?_⟩
  rcases h.tree with he | ⟨m, t, hwf, -⟩
  · exact absurd he.root hroot
  · exact ⟨m, t, hwf.flushed⟩

theorem twoByTwo_wellFormed : twoByTwo.fileHeader.Roomy ∧ twoByTwo.pool.faults = [] ∧
    ∃ (m : Nat) (t : IndexTree Int m), WellFormed numberComparator twoByTwo t := by
  have hnew : Reached numberComparator Set.univ 6 4 (emptyIndex 6 4) :=
    .create (show create .ints 6 4 PagePool.newFile = .ok (emptyIndex 6 4) from rfl)
  have hreached := hnew.run (ascending 5 ++ [.deleteEntry 2 ⟨1, 0⟩]) (fun _ _ => trivial)
    (by decide +kernel)
  have hmain := hreached.maintained numberComparator_strictTotal (by decide) (by decide)
  exact hmain.flushed (by decide) (by decide) (by decide +kernel)

/-- The entry that is left of the second leaf moves to the first one, whose frame stays clean: dropped
and read again, the index has lost it. -/
theorem not_marks_merge : ¬∀ s : BplusTreeHandler Int, s.fileHeader.Roomy → s.pool.faults = [] →
    (∃ (m : Nat) (t : IndexTree Int m), WellFormed numberComparator s t) →
    (∀ p, s.pool.dirty p = false) → ∀ c : IndexCall Int, (s.call numberComparator c).1 = .success →
    ∀ p, (s.call numberComparator c).2.pool.pageData p ≠ s.pool.pageData p →
      (s.call numberComparator c).2.pool.Covered p := by
  intro h
  obtain ⟨hr, hload, hwf⟩ := twoByTwo_wellFormed
  have hcovered := h twoByTwo hr hload hwf (fun _ => rfl) (.deleteEntry 3 ⟨1, 0⟩) (by decide +kernel) 2
    (by decide +kernel)
  rcases hcovered with hd | hb | hw
  · exact absurd hd (by decide +kernel)
  · exact absurd hb (by decide +kernel)
  · exact absurd hw (by decide +kernel)

/-- After an insertion into a leaf with room every clean frame can be dropped. -/
theorem call_marks_two :
    (twoByTwo.pool.reread (twoByTwo.call numberComparator (.insertEntry 5 ⟨1, 0⟩)).2.pool
      fun _ => true).pageData 3 =
      (twoByTwo.call numberComparator (.insertEntry 5 ⟨1, 0⟩)).2.pool.pageData 3 := by
  exact (call_marks twoByTwo twoByTwo_wellFormed.2.1 (.insertEntry 5 ⟨1, 0⟩) (by decide +kernel)
    fun _ => .inl (by decide +kernel)).2 (fun _ => true) 3 (by decide +kernel) (by decide +kernel)

end BplusTreeHandler

end Idmbs
