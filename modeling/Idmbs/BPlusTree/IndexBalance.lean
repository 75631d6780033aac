import Idmbs.BPlusTree.Account
import Idmbs.BPlusTree.IndexRuns

/-!
# Idmbs.BPlusTree.IndexBalance

The pins and the allocated pages of an index file before and after a call: every pin is released, and
the file holds the two header pages and the tree.
-/

namespace Idmbs

open SearchTree Comparator

namespace BplusTreeHandler

variable {α : Type}

/-- `p` is the root of the tree or a page below it. -/
def InTree (s : BplusTreeHandler α) (p : PageId) : Prop :=
  ∃ root, s.fileHeader.rootPageId = some root ∧ Relation.ReflTransGen s.Child root p

/-- No frame but that of the file header is pinned, the allocated pages are the two header pages and those of
the tree, and every `UnpinPage` so far found the pin that it gave back. -/
structure Tidy (s : BplusTreeHandler α) : Prop where
  pins : ∀ p, p ≠ PagePool.headerPage → s.pool.pinCount p = 0
  pages : ∀ p, s.pool.bitmap p = true ↔ p = PagePool.headerPage ∨ p = firstIndexPage ∨ s.InTree p
  asserted : s.pool.aborted = false

section Reachable

variable {s : BplusTreeHandler α} {par : Option PageId} {h : Nat} {t : IndexTree α h} {p : PageId}

/-- The pages of a tree are those its links lead to. -/
theorem Holds.mem_pages_iff (ht : Holds s.node par t) :
    p ∈ t.pages ↔ Relation.ReflTransGen s.Child t.page p := by
  induction t using Tree.ind generalizing par with
  | leaf q es =>
    have hleaf : (s.node q).isLeaf = true := ht.1
    rw [Tree.pages_leaf, List.mem_singleton, Tree.page_leaf]
    constructor
    · rintro rfl
      exact .refl
    · intro hp
      rcases Relation.ReflTransGen.cases_head hp with h | ⟨r, hr, -⟩
      · exact h.symm
      · rw [Child, hleaf] at hr
        cases hr.1
  | inner q items ih =>
    obtain ⟨⟨hinner, -, hchildren⟩, hsub⟩ := ht
    rw [Tree.page_inner] at hinner hchildren
    have hchild : ∀ r, s.Child q r ↔ ∃ it ∈ items, it.2.page = r := by
      intro r
      rw [Child, hchildren, childLinks_tops]
      simp only [hinner, true_and]
      exact List.mem_map
    rw [Tree.pages_inner, List.mem_cons, List.mem_flatMap, Tree.page_inner]
    constructor
    · rintro (rfl | ⟨it, hit, hp⟩)
      · exact .refl
      · exact .head ((hchild _).mpr ⟨it, hit, rfl⟩) ((ih it hit (hsub it hit)).mp hp)
    · intro hp
      rcases Relation.ReflTransGen.cases_head hp with h | ⟨r, hr, hrest⟩
      · exact .inl h.symm
      · obtain ⟨it, hit, rfl⟩ := (hchild r).mp hr
        exact .inr ⟨it, hit, (ih it hit (hsub it hit)).mpr hrest⟩

theorem inTree_iff (hroot : s.fileHeader.rootPageId = some t.page) (ht : Holds s.node par t) :
    s.InTree p ↔ p ∈ t.pages := by
  rw [Holds.mem_pages_iff ht]
  constructor
  · rintro ⟨root, hr, hp⟩
    cases hroot.symm.trans hr
    exact hp
  · exact fun hp => ⟨_, hroot, hp⟩

end Reachable

/-! ## Between two calls -/

section Maintained

variable {cmp : Key α → Key α → Int} {S : Set (Key α)} {s s' : BplusTreeHandler α} {b b' : Tree.Bounds}

/-- Nothing is pinned by a caller and only the pages in `keep` are allocated. -/
theorem Tidy.accounts {keep : List PageId} (h : s.Tidy)
    (hsound : s.pool.Sound (PagePool.headerPage :: firstIndexPage :: keep))
    (hkeep : ∀ p, s.InTree p → p ∈ keep) :
    s.Accounts (headerPins (s.pool.pinCount PagePool.headerPage)) [] (inUse keep) := by
  have hused : ∀ p, s.pool.bitmap p = true → inUse keep p := by
    intro p hp
    rw [inUse, List.mem_cons, List.mem_cons]
    exact ((h.pages p).mp hp).imp_right (Or.imp_right (hkeep p))
  refine ⟨fun p => ?_, hused, fun p => ?_, h.asserted⟩
  · by_cases hp : p = PagePool.headerPage
    · rw [hp, headerPins, if_pos rfl]
      rfl
    · rw [headerPins, if_neg hp, h.pins p hp]
      rfl
  · -- a page that waits is still allocated, and those in use do not wait
    refine Bool.eq_false_iff.mpr fun hd => ?_
    have := (hsound.kept p (hused p (hsound.waiting p hd))).2
    rw [hd] at this
    cases this

theorem Maintained.tidy {n : Nat} (h : Maintained cmp S b s)
    (hacc : s.Accounts (headerPins n) [] (Settled s)) : s.Tidy := by
  refine ⟨?_, ?_, hacc.asserted⟩
  · intro p hp
    rw [hacc.pins p, headerPins, if_neg hp]
    rfl
  · intro p
    constructor
    · intro hp
      refine (hacc.used p hp).imp_right (Or.imp_right ?_)
      rintro ⟨m, t, hroot, ht, hmem⟩
      exact (inTree_iff hroot ht).mpr hmem
    · intro hp
      rcases h.tree with he | ⟨m, t, hwf, -⟩
      · refine (he.sound.kept p ?_).1
        rcases hp with rfl | rfl | ⟨root, hroot, -⟩
        · simp
        · simp
        · rw [he.root] at hroot
          cases hroot
      · refine (hwf.sound.kept p ?_).1
        rw [inTree_iff hwf.root hwf.holds] at hp
        simpa using hp

end Maintained

/-! ## One call -/

section Calls

variable [Inhabited α] {cmp : Key α → Key α → Int}

section Tree

variable [LinearOrder (Key α)] {S : Set (Key α)} {s : BplusTreeHandler α} {hdr : IndexFileHeader}
  {nd : PageId → IndexNode α} {m : Nat} {t : IndexTree α m} {userKey : α} {rid : RecordId}

theorem Valid.insertEntry_balanced (ha : Agrees cmp S) (hr : hdr.Roomy) (h : Valid S s hdr nd t)
    (hx : (⟨userKey, rid⟩ : Key α) ∈ S)
    (hroom : (s.insertEntry cmp userKey rid).2.pool.noBuf = false) :
    Balanced s [] t.pages (s.insertEntry cmp userKey rid).2 := by
  obtain ⟨c, p, es, s1, rfl, hc, hfind, hv1⟩ := findLeaf_spec ha h.keys hx h.view rfl h.holds
    h.sorted h.sized hr.wide h.nodup
  have h1 : Valid S s1 hdr nd (c.plug (.leaf p es)) := { h with view := hv1 }
  have hne : s.isEmpty = false := by simp [isEmpty, h.view.fileHeader]
  simp only [insertEntry, hne, Bool.false_eq_true, if_false, hfind, ne_eq, not_true_eq_false]
    at hroom ⊢
  intro n hacc
  have hacc1 := hacc.findLeaf hfind
  rcases insertEntryIntoLeafNode_spec (v := rid) ha hr h1 hx hc with ⟨-, heq, -⟩ | ⟨-, hins⟩
  · -- the key is there, and the caller releases the leaf
    rw [heq]
    exact hacc1.unpinPage.settled hv1.unpinPage h.holds fun _ hp => hp
  · rcases hl : insertEntryIntoLeafNode cmp p ⟨userKey, rid⟩ rid s1 with ⟨r, s2⟩
    rw [hl] at hins hroom
    rcases hins with hbuf | ⟨rfl, -, hbalanced, -⟩
    · have hnb : s2.pool.noBuf = false := by
        simp only at hroom
        split_ifs at hroom with hs
        · exact hroom
        · simpa [BplusTreeHandler.unpinPage] using hroom
      exact absurd (hbuf.symm.trans hnb) (by decide)
    · exact hbalanced n hacc1

theorem Valid.deleteEntry_balanced (ha : Agrees cmp S) (hr : hdr.Roomy) (h : Valid S s hdr nd t)
    (hx : (⟨userKey, rid⟩ : Key α) ∈ S) :
    Balanced s [] t.pages (s.deleteEntry cmp userKey rid).2 := by
  obtain ⟨c, p, es, s1, rfl, hc, hfind, hv1⟩ := findLeaf_spec ha h.keys hx h.view rfl h.holds
    h.sorted h.sized hr.wide h.nodup
  have h1 : Valid S s1 hdr nd (c.plug (.leaf p es)) := { h with view := hv1 }
  simp only [deleteEntry, hfind, ne_eq, not_true_eq_false, if_false]
  exact fun n hacc => (deleteEntryInternal_spec ha hr h1 hx hc).2.1 n (hacc.findLeaf hfind)

end Tree

section Empty

variable {s : BplusTreeHandler α} {hdr : IndexFileHeader} {st : Option PageId}
  {nd : PageId → IndexNode α} {userKey : α} {rid : RecordId}

/-- `CreateNewTree` takes one page and releases it. -/
theorem insertEntry_empty_balanced (hroot : hdr.rootPageId = none) (hv : View s [] hdr st nd)
    (hroom : (s.insertEntry cmp userKey rid).2.pool.noBuf = false) :
    Balanced s [] [] (s.insertEntry cmp userKey rid).2 := by
  have he : s.isEmpty = true := by simp [isEmpty, hv.fileHeader, hroot]
  intro n hacc
  simp only [insertEntry, createNewTree, he, if_true, Bool.not_true, Bool.false_eq_true, if_false]
    at hroom ⊢
  rcases hal : s.allocatePage with ⟨r, q, s1⟩
  have hview := hv.allocatePage
  simp only [hal] at hroom hview ⊢
  rcases hview with ⟨hne, hb⟩ | ⟨rfl, -, n', hv1⟩
  · simp only [ne_eq, hne, not_false_eq_true, if_true] at hroom
    exact absurd (hb.symm.trans hroom) (by decide)
  · simp only [ne_eq, not_true_eq_false, if_false]
    have hacc1 := hacc.allocatePage (hv.fresh (fun _ hp => hp) n) hal
    have hv2 := ((((hv1.modifyNode (p := q) (by simp) fun n =>
      (n.initEmpty .leaf).leafInsert 0 ⟨userKey, rid⟩ rid).setRoot (some q)).dirtyMark
      (p := q)).unpinPage (p := q)).updateRootPageId
    refine (((((hacc1.modifyNode _).setRoot _).dirtyMark).unpinPage).updateRootPageId).settled
      (t := .leaf q [(⟨userKey, rid⟩, rid)]) hv2 ?_ ?_
    · refine holds_leaf.mpr ?_
      rw [Function.update_self]
      exact ⟨rfl, rfl, rfl⟩
    · intro p hp
      simp only [inUse, Tree.pages_leaf, List.mem_cons] at hp ⊢
      tauto

end Empty

end Calls

/-! ## Every call -/

section Every

variable [Inhabited α] {cmp : Key α → Key α → Int} {S : Set (Key α)} {s : BplusTreeHandler α}
  {b : Tree.Bounds}

/-- Every call releases what it pins and leaves only the pages of the tree allocated. -/
theorem Maintained.tidy_call (hcmp : StrictTotalOn cmp S) (hr : s.fileHeader.Roomy)
    (h : Maintained cmp S b s) (ht : s.Tidy) {c : IndexCall α} (hc : c.key ∈ S)
    (hroom : (s.call cmp c).2.pool.noBuf = false) :
    (s.call cmp c).2.pool.pinCount = s.pool.pinCount ∧ (s.call cmp c).2.Tidy := by
  obtain ⟨order, ha⟩ := exists_linearOrder hcmp
  have hafter : Maintained cmp S b (s.call cmp c).2 := by
    cases c with
    | insertEntry userKey rid => exact h.insertEntry hcmp hr hc hroom
    | deleteEntry userKey rid => exact h.deleteEntry hcmp hr hc
  obtain ⟨keep, hacc, hbalanced⟩ : ∃ keep : List PageId,
      s.Accounts (headerPins (s.pool.pinCount PagePool.headerPage)) [] (inUse keep) ∧
        Balanced s [] keep (s.call cmp c).2 := by
    rcases h.tree with he | ⟨m, t, hwf, hkeys⟩
    · have hv : View s [] s.fileHeader none s.node := ⟨h.faults, he.sound, by simp, rfl, he.stored, rfl⟩
      refine ⟨[], ht.accounts he.sound ?_, ?_⟩
      · rintro p ⟨root, hroot, -⟩
        rw [he.root] at hroot
        cases hroot
      · cases c with
        | insertEntry userKey rid => exact insertEntry_empty_balanced he.root hv hroom
        | deleteEntry userKey rid =>
          have hnone : s.call cmp (.deleteEntry userKey rid) = (.empty, s) := by
            simp [call, BplusTreeHandler.deleteEntry, findLeaf, findLeafInternal, he.root]
          rw [hnone]
          exact fun n hacc => hacc.mono fun p hp => by
            simp only [inUse, List.mem_cons, List.not_mem_nil, or_false] at hp
            exact hp.imp_right .inl
    · have hval := hwf.valid ha hkeys hr.wide h.faults
      refine ⟨t.pages, ht.accounts hwf.sound fun p hp => (inTree_iff hwf.root hwf.holds).mp hp, ?_⟩
      cases c with
      | insertEntry userKey rid => exact hval.insertEntry_balanced ha hr hc hroom
      | deleteEntry userKey rid => exact hval.deleteEntry_balanced ha hr hc
  have hend := hbalanced _ hacc
  refine ⟨funext fun p => ?_, hafter.tidy hend⟩
  rw [hend.pins p, hacc.pins p]

omit [Inhabited α] in
theorem create_accounts {attrType : AttrType} {internalMaxSize leafMaxSize : Nat}
    (h : create attrType internalMaxSize leafMaxSize PagePool.newFile = .ok s) :
    s.Accounts (headerPins 1) [] (Settled s) := by
  have hnew : (PagePool.newFile : PagePool (IndexPage α)).Accounts (headerPins 1) []
      fun p => p = PagePool.headerPage :=
    ⟨fun p => rfl, fun p hp => by simpa [PagePool.newFile] using hp, fun p => rfl, rfl⟩
  have hal := hnew.allocatePage (fun p hp => ⟨if_neg ?_, List.not_mem_nil⟩) rfl
  · rw [create] at h
    rcases ha : (PagePool.newFile : PagePool (IndexPage α)).allocatePage with ⟨r, p, pool⟩
    rw [ha] at h hal
    simp only at h hal
    split_ifs at h with hr hp
    cases h
    have hend : (((pool.setData p (.header ⟨none, internalMaxSize, leafMaxSize, attrType⟩)).dirtyMark
        p).unpinPage p).Accounts (headerPins 1) [] _ := (hal.setData _).dirtyMark.unpinPage
    exact hend.mono fun q hq => hq.imp_right fun hq => .inl (hq.trans (not_not.mp hp))
  · rintro rfl
    exact Nat.not_succ_le_zero 0 hp

/-- In every run the pins and the pages of the file stay as they are in a new one. -/
theorem Reached.tidy {internalMaxSize leafMaxSize : Nat} (hcmp : StrictTotalOn cmp S)
    (hleaf : 4 ≤ leafMaxSize) (hinternal : 6 ≤ internalMaxSize)
    (h : Reached cmp S internalMaxSize leafMaxSize s) : s.Tidy := by
  induction h with
  | create hs => exact ((Reached.create hs).maintained hcmp hleaf hinternal).tidy (create_accounts hs)
  | @call s hreached c hc hroom ih =>
    have hmain := hreached.maintained hcmp hleaf hinternal
    exact (hmain.tidy_call hcmp (hmain.roomy hleaf hinternal) ih hc hroom).2

/-- `InsertEntry` and `DeleteEntry` on an empty or well-formed index whose pages all load, while the
file has room: every pin is released, none that was not taken, and exactly the header pages and the pages of
the tree are allocated. -/
theorem call_releases {α : Type} [Inhabited α] {cmp : Key α → Key α → Int} {S : Set (Key α)}
    (hcmp : StrictTotalOn cmp S) (s : BplusTreeHandler α) (hr : s.fileHeader.Roomy)
    (hwf : IsEmptyTree s ∨ ∃ (m : Nat) (t : IndexTree α m), WellFormed cmp s t ∧ ∀ k ∈ t.keys, k ∈ S)
    (htidy : s.Tidy) (c : IndexCall α) (hc : c.key ∈ S) (hload : s.pool.faults = [])
    (halloc : (s.call cmp c).2.pool.noBuf = false) :
    (s.call cmp c).2.pool.pinCount = s.pool.pinCount ∧ (s.call cmp c).2.Tidy :=
  Maintained.tidy_call hcmp hr (b := s.fileHeader.bounds) ⟨hload, rfl, hwf⟩ htidy hc halloc

/-- Six inserts make two leaves. The delete is of the only entry of a tree, which goes with it. -/
theorem call_releases_six_one :
    ((run numberComparator (ascending 6) (emptyIndex 6 4)).call numberComparator
      (.insertEntry 6 ⟨1, 0⟩)).2.Tidy ∧
    ((run numberComparator (ascending 1) (emptyIndex 6 4)).call numberComparator
      (.deleteEntry 0 ⟨1, 0⟩)).2.Tidy := by
  have hnew : Reached numberComparator Set.univ 6 4 (emptyIndex 6 4) :=
    .create (show create .ints 6 4 PagePool.newFile = .ok (emptyIndex 6 4) from rfl)
  have hcall : ∀ (n : Nat) (c : IndexCall Int),
      hasRoom numberComparator (ascending n) (emptyIndex 6 4) = true →
      ((run numberComparator (ascending n) (emptyIndex 6 4)).call numberComparator c).2.pool.noBuf
        = false →
      ((run numberComparator (ascending n) (emptyIndex 6 4)).call numberComparator c).2.Tidy := by
    intro n c hroom halloc
    have hreached := hnew.run (ascending n) (fun _ _ => trivial) hroom
    have hmain := hreached.maintained numberComparator_strictTotal (by decide) (by decide)
    exact (call_releases numberComparator_strictTotal _ (hmain.roomy (by decide) (by decide))
      hmain.tree (hreached.tidy numberComparator_strictTotal (by decide) (by decide)) c trivial
      hmain.faults halloc).2
  exact ⟨hcall 6 _ (by decide +kernel) (by decide +kernel),
    hcall 1 _ (by decide +kernel) (by decide +kernel)⟩

end Every

end BplusTreeHandler

end Idmbs
