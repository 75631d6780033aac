import Idmbs.BPlusTree.IndexRuns
import Idmbs.BPlusTree.Scan
import Mathlib.Data.Finset.Card

/-!
# Idmbs.BPlusTree.SortedIndex

The index as a finite set of keys, over runs of `InsertEntry`, `DeleteEntry`, `GetEntry` and scans.
-/

namespace Idmbs

open SearchTree Comparator BplusTreeScanner

inductive IndexRequest (α : Type) where
  | insertEntry (userKey : α) (rid : RecordId)
  | deleteEntry (userKey : α) (rid : RecordId)
  | getEntry (userKey : α) (keyLen : Nat)
  /-- `BplusTreeIndex::CreateScanner`, `NextEntry` to its end, and the destructor of the scanner. -/
  | scan (left : Option α) (leftLen : Nat) (leftInclusive : Bool) (right : Option α) (rightLen : Nat)
    (rightInclusive : Bool)

namespace BplusTreeHandler

section Request

variable {α : Type} [Inhabited α] (attrComparator : α → α → Int) (ridCompare : RecordId → RecordId → Int)
  (fixUserKey : α → Nat → Bool → α × Bool) (fuel : Nat)

/-- What a request answers: the code of the call that ended it, and record ids. -/
def request (s : BplusTreeHandler α) : IndexRequest α → Re × List RecordId × BplusTreeHandler α
  | .insertEntry userKey rid =>
    match s.insertEntry (keyComparator attrComparator ridCompare) userKey rid with
    | (r, s) => (r, [], s)
  | .deleteEntry userKey rid =>
    match s.deleteEntry (keyComparator attrComparator ridCompare) userKey rid with
    | (r, s) => (r, [], s)
  | .getEntry userKey keyLen => s.getEntry attrComparator ridCompare fixUserKey fuel userKey keyLen
  | .scan left leftLen leftInclusive right rightLen rightInclusive =>
    match (BplusTreeScanner.new s).openScan attrComparator ridCompare fixUserKey left leftLen leftInclusive
      right rightLen rightInclusive with
    | (r, sc) =>
      if r ≠ .success then (r, [], sc.close.treeHandler)
      else
        match sc.drain fuel with
        | (r, rids, sc) => (r, rids, sc.close.treeHandler)

end Request

end BplusTreeHandler

namespace IndexRequest

variable {α : Type} [DecidableEq α]

def effect (K : Finset (Key α)) : IndexRequest α → Finset (Key α)
  | .insertEntry userKey rid => insert ⟨userKey, rid⟩ K
  | .deleteEntry userKey rid => K.erase ⟨userKey, rid⟩
  | _ => K

/-- The values and record ids of a request are among those that the comparators order, and the record id of an
insertion lies between `Min` and `Max`. -/
def Fits (attrComparator : α → α → Int) (ridCompare : RecordId → RecordId → Int) (A : Set α) (R : Set RecordId) :
    IndexRequest α → Prop
  | .insertEntry userKey rid => userKey ∈ A ∧ rid ∈ R ∧
    BplusTreeScanner.RidsBounded attrComparator ridCompare ⟨userKey, rid⟩
  | .deleteEntry userKey rid => userKey ∈ A ∧ rid ∈ R
  | .getEntry userKey _ => userKey ∈ A
  | .scan left _ _ right _ _ => (∀ v ∈ left, v ∈ A) ∧ ∀ v ∈ right, v ∈ A

/-- The record ids of the keys of `K` whose value is in range, in the order of the keys. -/
def Lists (cmp : Key α → Key α → Int) (K : Finset (Key α)) (within : α → Bool) (rids : List RecordId) : Prop :=
  ∃ ks : List (Key α), rids = ks.map Key.rid ∧ (ks.Pairwise fun a b => cmp a b < 0) ∧
    ∀ k, k ∈ ks ↔ k ∈ K ∧ within k.attr = true

/-- What a request answers on an index that holds the keys `K`. -/
inductive Means (attrComparator : α → α → Int) (ridCompare : RecordId → RecordId → Int) (K : Finset (Key α)) :
    IndexRequest α → Re → List RecordId → Prop where
  | inserted {userKey : α} {rid : RecordId} (h : ⟨userKey, rid⟩ ∉ K) :
      Means attrComparator ridCompare K (.insertEntry userKey rid) .success []
  | duplicate {userKey : α} {rid : RecordId} (h : ⟨userKey, rid⟩ ∈ K) :
      Means attrComparator ridCompare K (.insertEntry userKey rid) .recordDuplicateKey []
  | deleted {userKey : α} {rid : RecordId} (h : ⟨userKey, rid⟩ ∈ K) :
      Means attrComparator ridCompare K (.deleteEntry userKey rid) .success []
  | notExist {userKey : α} {rid : RecordId} (h : ⟨userKey, rid⟩ ∉ K) (hK : K.Nonempty) :
      Means attrComparator ridCompare K (.deleteEntry userKey rid) .recordRecordNotExist []
  | noTree {userKey : α} {rid : RecordId} (hK : K = ∅) :
      Means attrComparator ridCompare K (.deleteEntry userKey rid) .empty []
  | found {userKey : α} {keyLen : Nat} {rids : List RecordId} (hK : K.Nonempty)
      (h : Lists (keyComparator attrComparator ridCompare) K (fun v => attrComparator v userKey = 0) rids) :
      Means attrComparator ridCompare K (.getEntry userKey keyLen) .success rids
  | notFound {userKey : α} {keyLen : Nat} (hK : K = ∅) :
      Means attrComparator ridCompare K (.getEntry userKey keyLen) .empty []
  | crossed {left right : Option α} {leftLen rightLen : Nat} {li ri : Bool}
      (h : BplusTreeScanner.validRange attrComparator left li right ri = false) :
      Means attrComparator ridCompare K (.scan left leftLen li right rightLen ri) .invalidArgument []
  | unopened {left right : Option α} {leftLen rightLen : Nat} {li ri : Bool}
      (h : BplusTreeScanner.validRange attrComparator left li right ri = true) (hK : K = ∅) :
      Means attrComparator ridCompare K (.scan left leftLen li right rightLen ri) .empty []
  | scanned {left right : Option α} {leftLen rightLen : Nat} {li ri : Bool} {rids : List RecordId}
      (h : BplusTreeScanner.validRange attrComparator left li right ri = true) (hK : K.Nonempty)
      (hrids : Lists (keyComparator attrComparator ridCompare) K
        (BplusTreeScanner.inRange attrComparator left li right ri) rids) :
      Means attrComparator ridCompare K (.scan left leftLen li right rightLen ri) .recordEof rids

end IndexRequest

/-! ## A scan leaves the tree -/

namespace BplusTreeScanner

open BplusTreeHandler

variable {α : Type} {nd : PageId → IndexNode α} {keep : List PageId}
  {cs : List (PageId × List (Key α × RecordId))} {hdr : IndexFileHeader} {st : Option PageId}

theorem drain_ready (hc : LeafChain nd keep cs) {M : List (Key α × RecordId)} {fuel : Nat}
    {sc : BplusTreeScanner α} (hfuel : M.length < fuel) (hr : Ready cs keep hdr st nd sc M) :
    ∃ sc', sc.drain fuel = (.recordEof, M.map Prod.snd, sc') ∧ Ready cs keep hdr st nd sc' [] := by
  induction M generalizing fuel sc with
  | nil =>
    obtain ⟨fuel, rfl⟩ := Nat.exists_eq_succ_of_ne_zero (Nat.ne_of_gt hfuel)
    exact ⟨sc, by simp [drain, nextEntry_eof hr], hr⟩
  | cons e M ih =>
    obtain ⟨fuel, rfl⟩ := Nat.exists_eq_succ_of_ne_zero (Nat.ne_of_gt (Nat.zero_lt_of_lt hfuel))
    obtain ⟨sc1, hnext, hr1⟩ := nextEntry_spec hc hr
    obtain ⟨sc2, hdrain, hr2⟩ := ih (Nat.lt_of_succ_lt_succ hfuel) hr1
    exact ⟨sc2, by simp [drain, hnext, hdrain], hr2⟩

theorem Ready.close {sc : BplusTreeScanner α} {M : List (Key α × RecordId)} (hr : Ready cs keep hdr st nd sc M) :
    View sc.close.treeHandler keep hdr st nd := by
  have hunpin : ∀ (frame : Option PageId) {s : BplusTreeHandler α}, View s keep hdr st nd →
      View (unpinFrame frame s) keep hdr st nd := by
    intro frame s hv
    cases frame with
    | none => exact hv
    | some p => exact hv.unpinPage
  exact hunpin sc.rightFrame (hunpin sc.leftFrame hr.view)

theorem openScan_empty [Inhabited α] {s : BplusTreeHandler α} (attrComparator : α → α → Int)
    (ridCompare : RecordId → RecordId → Int) (fixUserKey : α → Nat → Bool → α × Bool) (left right : Option α)
    (leftLen rightLen : Nat) (li ri : Bool) (hroot : s.fileHeader.rootPageId = none)
    (hok : validRange attrComparator left li right ri = true) :
    ∃ sc, (new s).openScan attrComparator ridCompare fixUserKey left leftLen li right rightLen ri = (.empty, sc) ∧
      sc.close.treeHandler = s := by
  cases left with
  | none =>
    simp only [openScan, new, hok, Bool.false_eq_true, if_false, Bool.not_true, openLeft, leftMostPage,
      findLeafInternal, hroot]
    exact ⟨_, rfl, rfl⟩
  | some v =>
    simp only [openScan, new, hok, Bool.false_eq_true, if_false, Bool.not_true, openLeft, findLeaf,
      findLeafInternal, hroot]
    exact ⟨_, rfl, rfl⟩

end BplusTreeScanner

/-! ## The keys of a tree -/

namespace BplusTreeHandler

section Represents

variable {α : Type} [LinearOrder (Key α)] {A : Set α} {R : Set RecordId} {s : BplusTreeHandler α}
  {hdr : IndexFileHeader} {K : Finset (Key α)} {attrComparator : α → α → Int}
  {ridCompare : RecordId → RecordId → Int}

/-- The entries of the tree are the keys of `K`, each with its record id, and scans find them between `Min` and
`Max`. -/
structure HasKeys (attrComparator : α → α → Int) (ridCompare : RecordId → RecordId → Int)
    (es : List (Key α × RecordId)) (K : Finset (Key α)) : Prop where
  mem : ∀ e, e ∈ es ↔ e.1 ∈ K ∧ e.2 = e.1.rid
  bounded : ∀ k ∈ K, BplusTreeScanner.RidsBounded attrComparator ridCompare k

/-- The index holds the keys `K`: in a tree or, if there are none, in no tree. -/
def Represents (attrComparator : α → α → Int) (ridCompare : RecordId → RecordId → Int) (S : Set (Key α))
    (hdr : IndexFileHeader) (s : BplusTreeHandler α) (K : Finset (Key α)) : Prop :=
  (K = ∅ ∧ ∃ nd, View s [] { hdr with rootPageId := none } none nd) ∨
  (K.Nonempty ∧ ∃ (m : Nat) (t : IndexTree α m) (nd : PageId → IndexNode α), Valid S s hdr nd t ∧
    HasKeys attrComparator ridCompare t.entries K)

omit [LinearOrder (Key α)] in
theorem HasKeys.mem_key {es : List (Key α × RecordId)} (h : HasKeys attrComparator ridCompare es K) {k : Key α} :
    (∃ w, (k, w) ∈ es) ↔ k ∈ K := by
  constructor
  · rintro ⟨w, hw⟩
    exact ((h.mem _).mp hw).1
  · intro hk
    exact ⟨k.rid, (h.mem _).mpr ⟨hk, rfl⟩⟩

omit [LinearOrder (Key α)] in
theorem HasKeys.nonempty {es : List (Key α × RecordId)} (h : HasKeys attrComparator ridCompare es K)
    (hes : es ≠ []) : K.Nonempty := by
  obtain ⟨e, he⟩ := List.exists_mem_of_ne_nil es hes
  exact ⟨e.1, ((h.mem e).mp he).1⟩

omit [LinearOrder (Key α)] in
theorem HasKeys.insert [DecidableEq α] {E B : List (Key α × RecordId)} {k : Key α}
    (h : HasKeys attrComparator ridCompare (E ++ B) K)
    (hk : BplusTreeScanner.RidsBounded attrComparator ridCompare k) :
    HasKeys attrComparator ridCompare (E ++ (k, k.rid) :: B) (insert k K) where
  mem e := by
    have hold := h.mem e
    rw [List.mem_append] at hold
    rw [List.mem_append, List.mem_cons, Finset.mem_insert, or_left_comm, hold]
    constructor
    · rintro (rfl | ⟨hin, hrid⟩)
      · exact ⟨.inl rfl, rfl⟩
      · exact ⟨.inr hin, hrid⟩
    · rintro ⟨heq | hin, hrid⟩
      · exact .inl (Prod.ext heq (hrid.trans (congrArg Key.rid heq)))
      · exact .inr ⟨hin, hrid⟩
  bounded q hq := by
    rcases Finset.mem_insert.mp hq with rfl | hq
    · exact hk
    · exact h.bounded q hq

theorem HasKeys.erase [DecidableEq α] {E B : List (Key α × RecordId)} {k : Key α} {w : RecordId}
    (h : HasKeys attrComparator ridCompare (E ++ (k, w) :: B) K)
    (hsorted : (E ++ (k, w) :: B).Pairwise fun a b => a.1 < b.1) :
    HasKeys attrComparator ridCompare (E ++ B) (K.erase k) where
  mem e := by
    obtain ⟨-, hright, hcross⟩ := List.pairwise_append.mp hsorted
    have hold := h.mem e
    rw [List.mem_append, List.mem_cons, or_left_comm] at hold
    rw [List.mem_append, Finset.mem_erase, and_assoc, ← hold]
    constructor
    · rintro (he | he)
      · exact ⟨(hcross e he _ List.mem_cons_self).ne, .inr (.inl he)⟩
      · exact ⟨((List.pairwise_cons.mp hright).1 e he).ne', .inr (.inr he)⟩
    · rintro ⟨hne, rfl | he⟩
      · exact absurd rfl hne
      · exact he
  bounded q hq := h.bounded q (Finset.mem_of_mem_erase hq)

theorem HasKeys.length_eq {es : List (Key α × RecordId)} (h : HasKeys attrComparator ridCompare es K)
    (hsorted : es.Pairwise fun a b => a.1 < b.1) : es.length = K.card := by
  have hnodup : (es.map Prod.fst).Nodup := List.pairwise_map.mpr (hsorted.imp fun hlt => hlt.ne)
  have hkeys : (es.map Prod.fst).toFinset = K := by
    ext k
    rw [List.mem_toFinset, ← h.mem_key]
    simp
  rw [← hkeys, List.toFinset_card_of_nodup hnodup, List.length_map]

end Represents

/-! ## One request -/

section OneRequest

variable {α : Type} [LinearOrder (Key α)] [DecidableEq α] [Inhabited α] {A : Set α} {R : Set RecordId}
  {s : BplusTreeHandler α} {hdr : IndexFileHeader} {K : Finset (Key α)} {attrComparator : α → α → Int}
  {ridCompare : RecordId → RecordId → Int}

theorem Represents.insertEntry (ha : Agrees (keyComparator attrComparator ridCompare) (keysOver A R))
    (hr : hdr.Roomy) (h : Represents attrComparator ridCompare (keysOver A R) hdr s K) {userKey : α}
    {rid : RecordId} (hv : userKey ∈ A) (hrid : rid ∈ R)
    (hbounded : RidsBounded attrComparator ridCompare ⟨userKey, rid⟩)
    (hroom : (s.insertEntry (keyComparator attrComparator ridCompare) userKey rid).2.pool.noBuf = false) :
    (s.insertEntry (keyComparator attrComparator ridCompare) userKey rid).1 =
        (if ⟨userKey, rid⟩ ∈ K then .recordDuplicateKey else .success) ∧
      Represents attrComparator ridCompare (keysOver A R) hdr
        (s.insertEntry (keyComparator attrComparator ridCompare) userKey rid).2 (insert ⟨userKey, rid⟩ K) := by
  have hnb : (s.insertEntry (keyComparator attrComparator ridCompare) userKey rid).2.pool.noBuf ≠ true := by
    simp [hroom]
  have hx : (⟨userKey, rid⟩ : Key α) ∈ keysOver A R := ⟨hv, hrid⟩
  rcases h with ⟨rfl, nd, hview⟩ | ⟨hK, m, t, nd, hval, hkeys⟩
  · have hroomy : ({ hdr with rootPageId := none } : IndexFileHeader).Roomy := ⟨hr.leaf, hr.internal⟩
    obtain ⟨hcode, t, nd', hval, hent⟩ :=
      (insertEntry_empty (keyComparator attrComparator ridCompare) hroomy rfl hview hx).resolve_left hnb
    refine ⟨by rw [if_neg (Finset.notMem_empty _)]; exact hcode, .inr ⟨Finset.insert_nonempty _ _, 0, t, nd',
      { hval with }, ?_⟩⟩
    rw [hent]
    have hnil : HasKeys attrComparator ridCompare ([] ++ []) (∅ : Finset (Key α)) :=
      ⟨by simp, fun k hk => absurd hk (Finset.notMem_empty k)⟩
    exact hnil.insert hbounded
  · rcases insertEntry_valid ha hr hval hx with ⟨hin, hcode, hval'⟩ | ⟨hout, hins⟩
    · have hmem := hkeys.mem_key.mp hin
      refine ⟨by rw [if_pos hmem]; exact hcode, .inr ⟨Finset.insert_nonempty _ _, m, t, nd, hval', ?_⟩⟩
      rw [Finset.insert_eq_of_mem hmem]
      exact hkeys
    · obtain ⟨hcode, m', t', nd', E, B, hval', hent, hent'⟩ := hins.resolve_left hnb
      have hmem : (⟨userKey, rid⟩ : Key α) ∉ K := by
        intro hmem
        obtain ⟨w, hw⟩ := hkeys.mem_key.mpr hmem
        exact hout _ hw rfl
      refine ⟨by rw [if_neg hmem]; exact hcode, .inr ⟨Finset.insert_nonempty _ _, m', t', nd', hval', ?_⟩⟩
      rw [hent']
      rw [hent] at hkeys
      exact hkeys.insert hbounded

theorem Represents.deleteEntry (ha : Agrees (keyComparator attrComparator ridCompare) (keysOver A R))
    (hr : hdr.Roomy) (h : Represents attrComparator ridCompare (keysOver A R) hdr s K) {userKey : α}
    {rid : RecordId} (hv : userKey ∈ A) (hrid : rid ∈ R) :
    IndexRequest.Means attrComparator ridCompare K (.deleteEntry userKey rid)
        (s.deleteEntry (keyComparator attrComparator ridCompare) userKey rid).1 [] ∧
      Represents attrComparator ridCompare (keysOver A R) hdr
        (s.deleteEntry (keyComparator attrComparator ridCompare) userKey rid).2 (K.erase ⟨userKey, rid⟩) := by
  rcases h with ⟨rfl, nd, hview⟩ | ⟨hK, m, t, nd, hval, hkeys⟩
  · have hnone : s.deleteEntry (keyComparator attrComparator ridCompare) userKey rid = (.empty, s) := by
      simp [BplusTreeHandler.deleteEntry, findLeaf, findLeafInternal, hview.fileHeader]
    rw [hnone, Finset.erase_empty]
    exact ⟨.noTree rfl, .inl ⟨rfl, nd, hview⟩⟩
  · rcases deleteEntry_valid ha hr hval (show (⟨userKey, rid⟩ : Key α) ∈ keysOver A R from ⟨hv, hrid⟩) with
      ⟨E, w, B, hent, hcode, hrep⟩ | ⟨hout, hcode, hval'⟩
    · have hmem : (⟨userKey, rid⟩ : Key α) ∈ K := hkeys.mem_key.mp ⟨w, by rw [hent]; simp⟩
      have hsorted := hval.sorted.entries
      rw [hent] at hkeys hsorted
      have hleft := hkeys.erase hsorted
      rw [hcode]
      refine ⟨.deleted hmem, ?_⟩
      rcases hrep with ⟨m', t', nd', hval', hent'⟩ | ⟨hempty, nd', hview⟩
      · rw [← hent'] at hleft
        exact .inr ⟨hleft.nonempty (hval'.sized.entries_ne_nil hr.wide), m', t', nd', hval', hleft⟩
      · rw [hempty] at hleft
        refine .inl ⟨?_, nd', hview⟩
        refine Finset.eq_empty_of_forall_notMem fun k hk => ?_
        obtain ⟨w', hw'⟩ := hleft.mem_key.mpr hk
        cases hw'
    · have hmem : (⟨userKey, rid⟩ : Key α) ∉ K := by
        intro hmem
        obtain ⟨w, hw⟩ := hkeys.mem_key.mpr hmem
        exact hout _ hw rfl
      rw [hcode, Finset.erase_eq_of_notMem hmem]
      exact ⟨.notExist hmem hK, .inr ⟨hK, m, t, nd, hval', hkeys⟩⟩

omit [DecidableEq α] [Inhabited α] in
theorem HasKeys.lists {es : List (Key α × RecordId)} (h : HasKeys attrComparator ridCompare es K)
    (ha : Agrees (keyComparator attrComparator ridCompare) (keysOver A R)) (hin : ∀ e ∈ es, e.1 ∈ keysOver A R)
    (hsorted : es.Pairwise fun a b => a.1 < b.1) (within : α → Bool) :
    IndexRequest.Lists (keyComparator attrComparator ridCompare) K within
      ((es.filter fun e => within e.1.attr).map Prod.snd) := by
  refine ⟨(es.filter fun e => within e.1.attr).map Prod.fst, ?_, ?_, fun k => ?_⟩
  · rw [List.map_map]
    refine List.map_congr_left fun e he => ?_
    exact ((h.mem e).mp (List.mem_of_mem_filter he)).2
  · rw [List.pairwise_map]
    refine (hsorted.filter _).imp_of_mem fun {a b} hx hy hlt => ?_
    exact (ha.lt_iff _ (hin a (List.mem_of_mem_filter hx)) _ (hin b (List.mem_of_mem_filter hy))).mpr hlt
  · rw [List.mem_map]
    constructor
    · rintro ⟨e, he, rfl⟩
      obtain ⟨hmem, hwithin⟩ := List.mem_filter.mp he
      exact ⟨((h.mem e).mp hmem).1, hwithin⟩
    · rintro ⟨hk, hwithin⟩
      exact ⟨(k, k.rid), List.mem_filter.mpr ⟨(h.mem _).mpr ⟨hk, rfl⟩, hwithin⟩, rfl⟩

omit [DecidableEq α] in
/-- A scanner between two bounds: it yields the keys of the index in range, and closing it leaves the index. -/
theorem Represents.scan (ha : Agrees (keyComparator attrComparator ridCompare) (keysOver A R))
    (hmin : RecordId.min ∈ R) (hmax : RecordId.max ∈ R)
    (hA : StrictTotalOn attrComparator A) (hb : hdr.bounds.Wide) (hty : hdr.attrType ≠ .chars)
    (h : Represents attrComparator ridCompare (keysOver A R) hdr s K) (fixUserKey : α → Nat → Bool → α × Bool)
    {left right : Option α} (li ri : Bool) (leftLen rightLen fuel : Nat) (hl : ∀ v ∈ left, v ∈ A)
    (hr : ∀ v ∈ right, v ∈ A) (hok : validRange attrComparator left li right ri = true) (hfuel : K.card < fuel) :
    ∃ r sc, (new s).openScan attrComparator ridCompare fixUserKey left leftLen li right rightLen ri = (r, sc) ∧
      ((K = ∅ ∧ r = .empty ∧ Represents attrComparator ridCompare (keysOver A R) hdr sc.close.treeHandler K) ∨
      (K.Nonempty ∧ r = .success ∧ ∃ rids sc', sc.drain fuel = (.recordEof, rids, sc') ∧
        IndexRequest.Lists (keyComparator attrComparator ridCompare) K (inRange attrComparator left li right ri) rids ∧
        Represents attrComparator ridCompare (keysOver A R) hdr sc'.close.treeHandler K)) := by
  rcases h with ⟨rfl, nd, hview⟩ | ⟨hK, m, t, nd, hval, hkeys⟩
  · obtain ⟨sc, hopen, hclose⟩ := openScan_empty attrComparator ridCompare fixUserKey left right leftLen rightLen li ri
      (congrArg IndexFileHeader.rootPageId hview.fileHeader) hok
    refine ⟨_, sc, hopen, .inl ⟨rfl, rfl, ?_⟩⟩
    rw [hclose]
    exact .inl ⟨rfl, nd, hview⟩
  · have hty' : s.fileHeader.attrType ≠ .chars := by
      rw [hval.view.fileHeader]
      exact hty
    have hrid : ∀ e ∈ t.entries, RidsBounded attrComparator ridCompare e.1 := fun e he =>
      hkeys.bounded e.1 ((hkeys.mem e).mp he).1
    obtain ⟨sc, hopen, hready⟩ := openScan_spec fixUserKey ha hA hmin hmax hb hval hty' hrid li ri leftLen rightLen
      hl hr hok
    have hlen : t.entries.length < fuel := by
      rw [hkeys.length_eq hval.sorted.entries]
      exact hfuel
    obtain ⟨sc', hdrain, hready'⟩ := drain_ready (hval.leafChain hb)
      (Nat.lt_of_le_of_lt (List.length_filter_le _ _) hlen) hready
    refine ⟨_, sc, hopen, .inr ⟨hK, rfl, _, sc', hdrain, ?_, .inr ⟨hK, m, t, nd, { hval with view := hready'.close },
      hkeys⟩⟩⟩
    exact hkeys.lists ha (fun e he => hval.entry_mem he) hval.sorted.entries _

end OneRequest

/-! ## Runs -/

section Runs

variable {α : Type} [DecidableEq α] [Inhabited α] {A : Set α} {R : Set RecordId} {s : BplusTreeHandler α}
  {K : Finset (Key α)} {attrComparator : α → α → Int} {ridCompare : RecordId → RecordId → Int}
  {fixUserKey : α → Nat → Bool → α × Bool} {internalMaxSize leafMaxSize : Nat}

/-- The indexes that requests lead to from a new one on an attribute of fixed length, while the file has room,
with the keys that were inserted and not deleted. -/
inductive Served (attrComparator : α → α → Int) (ridCompare : RecordId → RecordId → Int)
    (fixUserKey : α → Nat → Bool → α × Bool) (A : Set α) (R : Set RecordId) (internalMaxSize leafMaxSize : Nat) :
    BplusTreeHandler α → Finset (Key α) → Prop
  | create {attrType : AttrType} {s : BplusTreeHandler α} (hty : attrType ≠ .chars)
      (h : create attrType internalMaxSize leafMaxSize PagePool.newFile = .ok s) :
      Served attrComparator ridCompare fixUserKey A R internalMaxSize leafMaxSize s ∅
  | request {s : BplusTreeHandler α} {K : Finset (Key α)} {req : IndexRequest α} {fuel : Nat}
      (h : Served attrComparator ridCompare fixUserKey A R internalMaxSize leafMaxSize s K)
      (hfits : req.Fits attrComparator ridCompare A R) (hfuel : K.card < fuel)
      (hroom : (s.request attrComparator ridCompare fixUserKey fuel req).2.2.pool.noBuf = false) :
      Served attrComparator ridCompare fixUserKey A R internalMaxSize leafMaxSize
        (s.request attrComparator ridCompare fixUserKey fuel req).2.2 (req.effect K)

theorem Represents.request [LinearOrder (Key α)] {hdr : IndexFileHeader}
    (ha : Agrees (keyComparator attrComparator ridCompare) (keysOver A R))
    (hA : StrictTotalOn attrComparator A) (hmin : RecordId.min ∈ R) (hmax : RecordId.max ∈ R) (hr : hdr.Roomy)
    (hty : hdr.attrType ≠ .chars) (h : Represents attrComparator ridCompare (keysOver A R) hdr s K)
    {req : IndexRequest α} {fuel : Nat} (hfits : req.Fits attrComparator ridCompare A R) (hfuel : K.card < fuel)
    (hroom : (s.request attrComparator ridCompare fixUserKey fuel req).2.2.pool.noBuf = false) :
    req.Means attrComparator ridCompare K (s.request attrComparator ridCompare fixUserKey fuel req).1
        (s.request attrComparator ridCompare fixUserKey fuel req).2.1 ∧
      Represents attrComparator ridCompare (keysOver A R) hdr
        (s.request attrComparator ridCompare fixUserKey fuel req).2.2 (req.effect K) := by
  cases req with
  | insertEntry userKey rid =>
    obtain ⟨hv, hrid, hbounded⟩ := hfits
    obtain ⟨hcode, hrep⟩ := h.insertEntry ha hr hv hrid hbounded hroom
    refine ⟨?_, hrep⟩
    change IndexRequest.Means attrComparator ridCompare K _
      (s.insertEntry (keyComparator attrComparator ridCompare) userKey rid).1 []
    rw [hcode]
    split
    · rename_i hmem
      exact .duplicate hmem
    · rename_i hmem
      exact .inserted hmem
  | deleteEntry userKey rid =>
    obtain ⟨hv, hrid⟩ := hfits
    exact h.deleteEntry ha hr hv hrid
  | getEntry userKey keyLen =>
    have hmem : ∀ v ∈ some userKey, v ∈ A := by
      intro v hv
      cases Option.mem_def.mp hv
      exact hfits
    have hself : attrComparator userKey userKey = 0 := (hA.eq_iff _ hfits _ hfits).mpr rfl
    have hok : validRange attrComparator (some userKey) true (some userKey) true = true := by
      simp [validRange, hself]
    obtain ⟨r, sc, hopen, hcases⟩ := h.scan ha hmin hmax hA hr.wide hty fixUserKey true true keyLen keyLen fuel
      hmem hmem hok hfuel
    simp only [BplusTreeHandler.request, getEntry, hopen]
    rcases hcases with ⟨hK, rfl, hrep⟩ | ⟨hK, rfl, rids, sc', hdrain, hlists, hrep⟩
    · exact ⟨.notFound hK, hrep⟩
    · have hwithin : inRange attrComparator (some userKey) true (some userKey) true =
          fun v => decide (attrComparator v userKey = 0) := by
        funext v
        simp only [inRange, aboveLeft, belowRight, if_true, ← Bool.decide_and]
        exact decide_eq_decide.mpr ⟨fun h => by omega, fun h => by omega⟩
      rw [hwithin] at hlists
      simp only [hdrain, ne_eq, not_true_eq_false, if_false, if_true]
      exact ⟨.found hK hlists, hrep⟩
  | scan left leftLen li right rightLen ri =>
    obtain ⟨hl, hrt⟩ := hfits
    cases hok : validRange attrComparator left li right ri with
    | false =>
      have hopen : (new s).openScan attrComparator ridCompare fixUserKey left leftLen li right rightLen ri =
          (.invalidArgument, { new s with inited := true }) := by
        simp only [openScan, new, hok, Bool.not_false, if_true, Bool.false_eq_true, if_false]
      simp only [BplusTreeHandler.request, hopen]
      exact ⟨.crossed hok, h⟩
    | true =>
      obtain ⟨r, sc, hopen, hcases⟩ := h.scan ha hmin hmax hA hr.wide hty fixUserKey li ri leftLen rightLen fuel
        hl hrt hok hfuel
      simp only [BplusTreeHandler.request, hopen]
      rcases hcases with ⟨hK, rfl, hrep⟩ | ⟨hK, rfl, rids, sc', hdrain, hlists, hrep⟩
      · exact ⟨.unopened hok hK, hrep⟩
      · simp only [hdrain, ne_eq, not_true_eq_false, if_false]
        exact ⟨.scanned hok hK hlists, hrep⟩

theorem Served.represents [LinearOrder (Key α)] (ha : Agrees (keyComparator attrComparator ridCompare) (keysOver A R))
    (hA : StrictTotalOn attrComparator A) (hmin : RecordId.min ∈ R) (hmax : RecordId.max ∈ R)
    (hleaf : 4 ≤ leafMaxSize) (hinternal : 6 ≤ internalMaxSize)
    (h : Served attrComparator ridCompare fixUserKey A R internalMaxSize leafMaxSize s K) :
    ∃ hdr : IndexFileHeader, hdr.Roomy ∧ hdr.attrType ≠ .chars ∧
      Represents attrComparator ridCompare (keysOver A R) hdr s K := by
  induction h with
  | @create attrType s hty hs =>
    obtain ⟨s', hs', he, hh, hf⟩ := create_isEmptyTree (α := α) attrType internalMaxSize leafMaxSize
    rw [hs] at hs'
    cases hs'
    refine ⟨s.fileHeader, by rw [hh]; exact ⟨hleaf, hinternal⟩, by rw [hh]; exact hty, .inl ⟨rfl, s.node, ?_⟩⟩
    exact ⟨hf, he.sound, by simp, by rw [← he.root], he.stored, rfl⟩
  | request _ hfits hfuel hroom ih =>
    obtain ⟨hdr, hr, hty, hrep⟩ := ih
    exact ⟨hdr, hr, hty, (hrep.request ha hA hmin hmax hr hty hfits hfuel hroom).2⟩

/-- The index is the set of the keys that were inserted and not deleted: after any run of requests, every further
one answers what it means for that set. An insertion is refused exactly for a key that is there and a deletion for
one that is not, `GetEntry` and scans yield the record ids of the keys in range, each once and in key order, and
no request but an insertion or a deletion changes the set. -/
theorem request_means (hcmp : StrictTotalOn (keyComparator attrComparator ridCompare) (keysOver A R))
    (hmin : RecordId.min ∈ R) (hmax : RecordId.max ∈ R) (hleaf : 4 ≤ leafMaxSize) (hinternal : 6 ≤ internalMaxSize)
    (h : Served attrComparator ridCompare fixUserKey A R internalMaxSize leafMaxSize s K) (req : IndexRequest α)
    (fuel : Nat) (hfits : req.Fits attrComparator ridCompare A R) (hfuel : K.card < fuel)
    (hroom : (s.request attrComparator ridCompare fixUserKey fuel req).2.2.pool.noBuf = false) :
    req.Means attrComparator ridCompare K (s.request attrComparator ridCompare fixUserKey fuel req).1
      (s.request attrComparator ridCompare fixUserKey fuel req).2.1 := by
  obtain ⟨order, ha⟩ := exists_linearOrder hcmp
  have hA := attr_strictTotal hcmp hmin
  obtain ⟨hdr, hr, hty, hrep⟩ := h.represents ha hA hmin hmax hleaf hinternal
  exact (hrep.request ha hA hmin hmax hr hty hfits hfuel hroom).1

end Runs

theorem numberComparator_over :
    StrictTotalOn (keyComparator (fun v1 v2 : Int => v1 - v2) numberRidCompare) (keysOver Set.univ Set.univ) := by
  simpa [keysOver, numberComparator] using numberComparator_strictTotal

theorem served_inserted {s : BplusTreeHandler Int} (hs : create .ints 6 4 PagePool.newFile = .ok s) :
    Served (fun v1 v2 => v1 - v2) numberRidCompare (fun v _ _ => (v, false)) Set.univ Set.univ 6 4
      (s.request (fun v1 v2 => v1 - v2) numberRidCompare (fun v _ _ => (v, false)) 2 (.insertEntry 7 ⟨1, 0⟩)).2.2
      (insert ⟨7, ⟨1, 0⟩⟩ ∅) := by
  have hnew : Served (fun v1 v2 : Int => v1 - v2) numberRidCompare (fun v _ _ => (v, false)) Set.univ Set.univ 6 4
      s ∅ := .create (by decide) hs
  have hroom : (s.request (fun v1 v2 => v1 - v2) numberRidCompare (fun v _ _ => (v, false)) 2
      (.insertEntry 7 ⟨1, 0⟩)).2.2.pool.noBuf = false := by
    cases hs
    decide
  exact hnew.request ⟨trivial, trivial, by decide, by decide⟩ (by decide) hroom

theorem request_means_inserted : ∃ s : BplusTreeHandler Int,
    create .ints 6 4 PagePool.newFile = .ok s ∧
    IndexRequest.Means (fun v1 v2 => v1 - v2) numberRidCompare (insert ⟨7, ⟨1, 0⟩⟩ ∅) (.getEntry 7 4)
      ((s.request (fun v1 v2 => v1 - v2) numberRidCompare (fun v _ _ => (v, false)) 2
        (.insertEntry 7 ⟨1, 0⟩)).2.2.request (fun v1 v2 => v1 - v2) numberRidCompare (fun v _ _ => (v, false)) 2
        (.getEntry 7 4)).1
      ((s.request (fun v1 v2 => v1 - v2) numberRidCompare (fun v _ _ => (v, false)) 2
        (.insertEntry 7 ⟨1, 0⟩)).2.2.request (fun v1 v2 => v1 - v2) numberRidCompare (fun v _ _ => (v, false)) 2
        (.getEntry 7 4)).2.1 := by
  obtain ⟨s, hs, -⟩ := create_isEmptyTree (α := Int) .ints 6 4
  exact ⟨s, hs, request_means numberComparator_over trivial trivial (by decide) (by decide) (served_inserted hs)
    (.getEntry 7 4) 2 trivial (by decide) (by cases hs; decide)⟩

end BplusTreeHandler

end Idmbs
