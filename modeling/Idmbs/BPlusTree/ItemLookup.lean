import Idmbs.BPlusTree.ItemSearch
import Idmbs.BPlusTree.Scan

/-!
# Idmbs.BPlusTree.ItemLookup

`FindLeaf` and `LookUp` over the bytes of the pages of a tree: they reach the leaf that the search over
nodes reaches, and in a well-formed index they find a key if and only if an entry has it.
-/

namespace Idmbs

open Comparator SearchTree

variable {α : Type} {cmp : Key α → Key α → Int} {page : IndexNode α → ItemArray}
  {key : IndexNode α → Nat → Key α} {x : Key α}

/-- The items of a node `n` lie in its page as `page n` says, and `key n a` is the key whose bytes begin
at address `a` of it. Nothing is said of key 0 of an inner node. -/
structure LaidOut (page : IndexNode α → ItemArray) (key : IndexNode α → Nat → Key α) : Prop where
  itemSize_pos (n : IndexNode α) : 0 < (page n).itemSize
  leaf (n : IndexNode α) : n.isLeaf = true → (page n).keysFrom (key n) 0 = n.entries.map Prod.fst
  size_inner (n : IndexNode α) : n.isLeaf = false → (page n).size = n.children.length
  inner (n : IndexNode α) : n.isLeaf = false →
    (page n).keysFrom (key n) 1 = n.children.tail.map Prod.fst

namespace IndexNode

/-- The keys of the items, of either kind of node. -/
def itemKeys (n : IndexNode α) : List (Key α) :=
  if n.isLeaf then n.entries.map Prod.fst else n.children.map Prod.fst

/-- The item array at address `array`. -/
def itemArray (keyLength array : Nat) (n : IndexNode α) : ItemArray :=
  if n.isLeaf then .leaf keyLength array n.entries.length else .internal keyLength array n.children.length

/-- The key that begins at address `a` of the item array. -/
def keyAtAddress [Inhabited α] (keyLength array : Nat) (n : IndexNode α) (a : Nat) : Key α :=
  n.itemKeys.getD ((a - array) / (n.itemArray keyLength array).itemSize) default

variable {keyLength array : Nat}

theorem itemSize_pos (n : IndexNode α) : 0 < (n.itemArray keyLength array).itemSize := by
  unfold itemArray
  split
  · exact Nat.succ_pos _
  · exact Nat.succ_pos _

theorem size_itemArray (n : IndexNode α) : (n.itemArray keyLength array).size = n.itemKeys.length := by
  unfold itemArray itemKeys
  split
  · exact (List.length_map _).symm
  · exact (List.length_map _).symm

theorem array_itemArray (n : IndexNode α) : (n.itemArray keyLength array).array = array := by
  unfold itemArray
  split
  · rfl
  · rfl

theorem keysFrom_itemArray [Inhabited α] (n : IndexNode α) (i : Nat) :
    (n.itemArray keyLength array).keysFrom (n.keyAtAddress keyLength array) i = n.itemKeys.drop i := by
  refine List.ext_getElem ?_ fun j h1 h2 => ?_
  · rw [ItemArray.length_keysFrom, size_itemArray, List.length_drop]
  · rw [List.length_drop] at h2
    have hindex : ((n.itemArray keyLength array).keyAt (i + j) - array) /
        (n.itemArray keyLength array).itemSize = i + j := by
      rw [ItemArray.keyAt, array_itemArray, Nat.add_sub_cancel_left, Nat.mul_div_cancel _ n.itemSize_pos]
    rw [ItemArray.getElem_keysFrom, keyAtAddress, hindex, List.getElem_drop, List.getD_eq_getElem?_getD,
      List.getElem?_eq_getElem (by omega), Option.getD_some]

end IndexNode

/-- The nodes in their pages, items one behind the other. -/
theorem laidOut_itemArray [Inhabited α] (keyLength array : Nat) :
    @LaidOut α (IndexNode.itemArray keyLength array) (IndexNode.keyAtAddress keyLength array) where
  itemSize_pos n := n.itemSize_pos
  leaf n hn := by rw [IndexNode.keysFrom_itemArray, IndexNode.itemKeys, if_pos hn, List.drop_zero]
  size_inner n hn := by
    rw [IndexNode.size_itemArray, IndexNode.itemKeys, if_neg (Bool.eq_false_iff.mp hn), List.length_map]
  inner n hn := by
    rw [IndexNode.keysFrom_itemArray, IndexNode.itemKeys, if_neg (Bool.eq_false_iff.mp hn), List.drop_one,
      List.map_tail]

namespace BplusTreeHandler

/-- `FindLeaf`, with `LookUp` over the bytes of the inner nodes. -/
def findLeafOfItems (page : IndexNode α → ItemArray) (key : IndexNode α → Nat → Key α)
    (cmp : Key α → Key α → Int) (x : Key α) (s : BplusTreeHandler α) : Re × PageId × BplusTreeHandler α :=
  findLeafInternal (fun n => n.valueAt ((page n).internalLookUp cmp (key n) x).index) s

/-- The child is only looked up in an inner node. -/
theorem findLeafLoop_congr {f g : IndexNode α → PageId} (h : ∀ n : IndexNode α, n.isLeaf = false → f n = g n)
    (fuel : Nat) (p : PageId) (s : BplusTreeHandler α) :
    findLeafLoop f fuel p s = findLeafLoop g fuel p s := by
  induction fuel generalizing p s with
  | zero => rfl
  | succ fuel ih =>
    rw [findLeafLoop, findLeafLoop]
    cases hleaf : (s.node p).isLeaf with
    | true => rfl
    | false => simp only [h (s.node p) hleaf, ih]

theorem findLeafInternal_congr {f g : IndexNode α → PageId}
    (h : ∀ n : IndexNode α, n.isLeaf = false → f n = g n) (s : BplusTreeHandler α) :
    findLeafInternal f s = findLeafInternal g s := by
  simp only [findLeafInternal, findLeafLoop_congr h]

theorem findLeafOfItems_eq [Inhabited α] (h : LaidOut page key) (s : BplusTreeHandler α) :
    s.findLeafOfItems page key cmp x = s.findLeaf cmp x := by
  refine findLeafInternal_congr (fun n hn => ?_) s
  rw [← ItemArray.internalLookUp_node (h.itemSize_pos n) (h.size_inner n hn) (h.inner n hn)]

/-- In a well-formed index the search over the bytes ends in a leaf, and `found` says whether an entry
has the key. -/
theorem WellFormed.lookUp_items [Inhabited α] {S : Set (Key α)} {s : BplusTreeHandler α} {m : Nat}
    {t : IndexTree α m} (hwf : WellFormed cmp s t) (hcmp : StrictTotalOn cmp S)
    (hb : s.fileHeader.bounds.Wide) (hS : ∀ k ∈ t.keys, k ∈ S) (hx : x ∈ S) (hload : s.pool.faults = [])
    (h : LaidOut page key) :
    ∃ p s', s.findLeafOfItems page key cmp x = (.success, p, s') ∧
      (((page (s'.node p)).leafLookUp cmp (key (s'.node p)) x).2 = true ↔ ∃ e ∈ t.entries, e.1 = x) := by
  obtain ⟨order, ha⟩ := exists_linearOrder hcmp
  have hval := hwf.valid ha hS hb hload
  obtain ⟨c, p, es, s', ht, hc, hfind, hv⟩ := findLeaf_spec ha hval.keys hx hval.view rfl hval.holds
    hval.sorted hval.sized hb hval.nodup
  have hmem : (p, es) ∈ t.leaves := by
    rw [ht, Path.leaves_plug, Tree.leaves_leaf]
    simp
  obtain ⟨hkind, hes⟩ : (s.node p).isLeaf = true ∧ (s.node p).entries = es := hval.holds.leaf_of_mem hmem
  have hsorted : Tree.Sorted (.leaf p es : IndexTree α 0) := Path.sorted_of_plug (ht ▸ hval.sorted)
  have hent : t.entries = c.leavesLeft.flatMap Prod.snd ++ es ++ c.leavesRight.flatMap Prod.snd := by
    rw [ht, Path.entries_plug, Tree.entries_leaf]
  have hleaf : s.node p = s'.node p := by rw [hv.node]
  obtain ⟨A, B, hAB, -, hA, hB⟩ := leafLookUp_spec (n := s.node p) ha
    (fun e he => hval.entry_mem (by rw [hent, ← hes]; simp [he])) hx
    (by rw [hes, List.pairwise_map]; simpa [Tree.Sorted, List.pairwise_map] using hsorted)
  refine ⟨p, s', (findLeafOfItems_eq h s).trans hfind, ?_⟩
  rw [← hleaf, ItemArray.leafLookUp_node (h.itemSize_pos _) (h.leaf _ hkind)]
  have hin : (∃ e ∈ t.entries, e.1 = x) ↔ ∃ e ∈ A ++ B, e.1 = x := by
    rw [hent, ← hAB, ← hes]
    constructor
    · rintro ⟨e, he, hex⟩
      rcases List.mem_append.mp he with he | he
      · rcases List.mem_append.mp he with he | he
        · exact absurd hex (hc.not_mem (.inl he))
        · exact ⟨e, he, hex⟩
      · exact absurd hex (hc.not_mem (.inr he))
    · rintro ⟨e, he, hex⟩
      exact ⟨e, List.mem_append_left _ (List.mem_append_right _ he), hex⟩
  rw [hin]
  rcases hB with ⟨hfound, hB⟩ | ⟨hfound, v, B', rfl, -⟩
  · rw [hfound]
    refine iff_of_false Bool.false_ne_true ?_
    rintro ⟨e, he, hex⟩
    rcases List.mem_append.mp he with he | he
    · exact absurd hex (ne_of_lt (hA e he))
    · exact absurd hex (ne_of_gt (hB e he))
  · exact iff_of_true hfound ⟨(x, v), by simp, rfl⟩

/-- The key 5 in an index of several leaves, over pages whose items begin at byte 20. -/
example : ∃ p s', (grown 14).findLeafOfItems (IndexNode.itemArray 12 20) (IndexNode.keyAtAddress 12 20)
      numberComparator ⟨5, ⟨1, 5⟩⟩ = (.success, p, s') ∧
    (((s'.node p).itemArray 12 20).leafLookUp numberComparator ((s'.node p).keyAtAddress 12 20)
      ⟨5, ⟨1, 5⟩⟩).2 = true := by
  have hmany := grown_wellFormed 13 (by decide +kernel)
  obtain ⟨hload, hbounds, m, t, hwf, hent⟩ := hmany
  have hin : ∃ e ∈ t.entries, e.1 = ⟨5, ⟨1, 5⟩⟩ := by
    rw [hent]
    decide
  generalize grown (13 + 1) = s at *
  have hb := Tree.Bounds.mk.inj hbounds
  have hroomy : s.fileHeader.Roomy := ⟨hb.1.ge, hb.2.ge⟩
  obtain ⟨p, s', hfind, hiff⟩ := hwf.lookUp_items numberComparator_strictTotal hroomy.wide (fun _ _ => trivial)
    trivial hload (laidOut_itemArray 12 20)
  exact ⟨p, s', hfind, hiff.mpr hin⟩

end BplusTreeHandler

end Idmbs
