import Mathlib.Data.List.Basic
import Mathlib.Data.List.Nodup
import Mathlib.Data.List.Pairwise
import Mathlib.Data.Prod.Lex
import Mathlib.Tactic.Common

/-!
# Idmbs.Lib.SearchTree

Multiway search trees of uniform depth with labelled nodes, as used to reason about B+ trees.

A tree of height 0 is a leaf with entries; a tree of height `h + 1` is a node whose items pair a
key with a subtree of height `h`. The key of the first item separates nothing. `marks` lists the
separators and the entry keys of a tree from left to right; the tree is ordered when this list is
strictly increasing. Splitting, merging and borrowing move items between nodes but leave `marks` as
it is, which is why the order survives them.

`Path` is a tree with a hole: the way from a node up to the root with everything left and right of
it. Labels are `π`, keys `κ`, values `ν`.
-/

namespace SearchTree

structure Node (π ι : Type) where
  page : π
  items : List ι

def Tree (π κ ν : Type) : Nat → Type
  | 0 => Node π (κ × ν)
  | h + 1 => Node π (κ × Tree π κ ν h)

/-! ## Marks: separators and entry keys in one order -/

/-- A separator `k` stands just left of an entry with the same key. -/
abbrev Mark (κ : Type) := κ ×ₗ Bool

namespace Mark

variable {κ : Type}

def sep (k : κ) : Mark κ := toLex (k, false)

def ent (k : κ) : Mark κ := toLex (k, true)

def key (m : Mark κ) : κ := (ofLex m).1

@[simp] theorem key_sep (k : κ) : (sep k).key = k := rfl

@[simp] theorem key_ent (k : κ) : (ent k).key = k := rfl

theorem sep_or_ent (m : Mark κ) : m = sep m.key ∨ m = ent m.key := by
  rcases m with ⟨k, b⟩
  cases b
  · exact .inl rfl
  · exact .inr rfl

variable [LinearOrder κ] {a b : κ}

@[simp] theorem sep_lt_sep : sep a < sep b ↔ a < b := by
  simp [sep, Prod.Lex.toLex_lt_toLex]

@[simp] theorem ent_lt_ent : ent a < ent b ↔ a < b := by
  simp [ent, Prod.Lex.toLex_lt_toLex]

@[simp] theorem ent_lt_sep : ent a < sep b ↔ a < b := by
  simp [sep, ent, Prod.Lex.toLex_lt_toLex]

@[simp] theorem sep_lt_ent : sep a < ent b ↔ a ≤ b := by
  simp [sep, ent, Prod.Lex.toLex_lt_toLex, le_iff_lt_or_eq]

theorem le_key_of_sep_lt {m : Mark κ} (h : sep a < m) : a ≤ m.key := by
  rcases m.sep_or_ent with e | e
  · rw [e, sep_lt_sep] at h
    exact le_of_lt h
  · rwa [e, sep_lt_ent] at h

theorem key_lt_of_lt_sep {m : Mark κ} (h : m < sep a) : m.key < a := by
  rcases m.sep_or_ent with e | e
  · rwa [e, sep_lt_sep] at h
  · rwa [e, ent_lt_sep] at h

end Mark

open Mark

variable {π κ ν : Type} {h m : Nat}

namespace Tree

def leaf (p : π) (es : List (κ × ν)) : Tree π κ ν 0 := Node.mk p es

def inner (p : π) (items : List (κ × Tree π κ ν h)) : Tree π κ ν (h + 1) := Node.mk p items

/-- Induction on the height; the items of a node are trees of the height below. -/
theorem ind {motive : ∀ {h : Nat}, Tree π κ ν h → Prop}
    (leaf : ∀ p es, motive (leaf p es))
    (inner : ∀ {h : Nat} (p : π) (items : List (κ × Tree π κ ν h)),
      (∀ it ∈ items, motive it.2) → motive (inner p items)) :
    ∀ {h : Nat} (t : Tree π κ ν h), motive t := by
  intro h
  induction h with
  | zero => intro t; exact leaf t.page t.items
  | succ h ih => intro t; exact inner (Node.page t) (Node.items t) fun it _ => ih it.2

theorem exists_leaf (t : Tree π κ ν 0) : ∃ p es, t = leaf p es := ⟨Node.page t, Node.items t, rfl⟩

theorem exists_inner (t : Tree π κ ν (h + 1)) : ∃ p items, t = inner p items :=
  ⟨Node.page t, Node.items t, rfl⟩

def page : {h : Nat} → Tree π κ ν h → π
  | 0, t => Node.page t
  | _ + 1, t => Node.page t

/-- Number of entries of a leaf, of children of an inner node. -/
def size : {h : Nat} → Tree π κ ν h → Nat
  | 0, t => (Node.items t).length
  | _ + 1, t => (Node.items t).length

/-- All node labels. -/
def pages : {h : Nat} → Tree π κ ν h → List π
  | 0, t => [Node.page t]
  | _ + 1, t => Node.page t :: (Node.items t).flatMap fun it => pages it.2

def leaves : {h : Nat} → Tree π κ ν h → List (π × List (κ × ν))
  | 0, t => [(Node.page t, Node.items t)]
  | _ + 1, t => (Node.items t).flatMap fun it => leaves it.2

def entries (t : Tree π κ ν h) : List (κ × ν) := t.leaves.flatMap Prod.snd

/-- Separators and entry keys from left to right, without the first key of any leftmost node. -/
def marks : {h : Nat} → Tree π κ ν h → List (Mark κ)
  | 0, t => (Node.items t).map fun e => ent e.1
  | _ + 1, t => ((Node.items t).flatMap fun it => sep it.1 :: marks it.2).tail

/-- The marks of consecutive items, first key included. -/
def itemMarks (items : List (κ × Tree π κ ν h)) : List (Mark κ) :=
  items.flatMap fun it => sep it.1 :: it.2.marks

/-- The labels below consecutive items. -/
def itemPages (items : List (κ × Tree π κ ν h)) : List π := items.flatMap fun it => it.2.pages

section Equations

variable (p : π) (es : List (κ × ν)) (items : List (κ × Tree π κ ν h))

@[simp] theorem page_leaf : (leaf p es).page = p := rfl

@[simp] theorem page_inner : (inner p items).page = p := rfl

@[simp] theorem size_leaf : (leaf p es).size = es.length := rfl

@[simp] theorem size_inner : (inner p items).size = items.length := rfl

@[simp] theorem pages_leaf : (leaf p es).pages = [p] := rfl

@[simp] theorem pages_inner : (inner p items).pages = p :: items.flatMap fun it => it.2.pages := rfl

@[simp] theorem leaves_leaf : (leaf p es).leaves = [(p, es)] := rfl

@[simp] theorem leaves_inner : (inner p items).leaves = items.flatMap fun it => it.2.leaves := rfl

@[simp] theorem entries_leaf : (leaf p es).entries = es := by simp [entries]

@[simp] theorem marks_leaf : (leaf p es).marks = es.map fun e => ent e.1 := rfl

@[simp] theorem marks_inner : (inner p items).marks = (itemMarks items).tail := rfl

end Equations

@[simp] theorem itemMarks_nil : itemMarks ([] : List (κ × Tree π κ ν h)) = [] := rfl

@[simp] theorem itemMarks_cons (it : κ × Tree π κ ν h) (items : List (κ × Tree π κ ν h)) :
    itemMarks (it :: items) = sep it.1 :: it.2.marks ++ itemMarks items := rfl

@[simp] theorem itemMarks_append (xs ys : List (κ × Tree π κ ν h)) :
    itemMarks (xs ++ ys) = itemMarks xs ++ itemMarks ys := List.flatMap_append

theorem page_mem_pages (t : Tree π κ ν h) : t.page ∈ t.pages := by
  induction t using ind <;> simp

theorem leaf_page_mem {t : Tree π κ ν h} {l : π × List (κ × ν)} (hl : l ∈ t.leaves) :
    l.1 ∈ t.pages := by
  induction t using ind with
  | leaf p es => simp_all
  | inner p items ih =>
    simp only [leaves_inner, List.mem_flatMap] at hl
    obtain ⟨it, hit, hl⟩ := hl
    exact List.mem_cons_of_mem _ (List.mem_flatMap.mpr ⟨it, hit, ih it hit hl⟩)

theorem leaves_sublist (t : Tree π κ ν h) : (t.leaves.map Prod.fst).Sublist t.pages := by
  induction t using ind with
  | leaf p es => simp
  | inner p items ih =>
    refine List.Sublist.cons _ ?_
    rw [leaves_inner, List.map_flatMap]
    induction items with
    | nil => simp
    | cons it items ih' =>
      simp only [List.flatMap_cons]
      exact (ih it (by simp)).append (ih' fun it' hit' => ih it' (by simp [hit']))

/-- A label found under two items of a node belongs to one item. -/
theorem eq_of_mem_pages {items : List (κ × Tree π κ ν h)} {a b : κ × Tree π κ ν h} {q : π}
    (hnd : (items.flatMap fun it => it.2.pages).Nodup) (ha : a ∈ items) (hb : b ∈ items)
    (hqa : q ∈ a.2.pages) (hqb : q ∈ b.2.pages) : a = b := by
  rw [List.nodup_flatMap] at hnd
  have : Std.Symm fun a b : κ × Tree π κ ν h => List.Disjoint a.2.pages b.2.pages :=
    ⟨fun _ _ hd _ hb ha => hd ha hb⟩
  by_contra hne
  exact hnd.2.forall ha hb hne hqa hqb

/-- The top labels of the items of a node. -/
def tops (items : List (κ × Tree π κ ν h)) : List π := items.map fun it => it.2.page

theorem top_mem {items : List (κ × Tree π κ ν h)} {it : κ × Tree π κ ν h} (hit : it ∈ items) :
    it.2.page ∈ tops items := List.mem_map_of_mem hit

theorem tops_sub_pages (items : List (κ × Tree π κ ν h)) :
    tops items ⊆ items.flatMap fun it => it.2.pages := by
  intro q hq
  obtain ⟨it, hit, rfl⟩ := List.mem_map.mp hq
  exact List.mem_flatMap.mpr ⟨it, hit, page_mem_pages _⟩

theorem tops_nodup {items : List (κ × Tree π κ ν h)}
    (hnd : (items.flatMap fun it => it.2.pages).Nodup) : (tops items).Nodup := by
  rw [List.nodup_flatMap] at hnd
  refine List.pairwise_map.mpr (hnd.2.imp fun hd he => ?_)
  exact hd (page_mem_pages _) (he ▸ page_mem_pages _)

theorem eq_page_of_mem_tops {items : List (κ × Tree π κ ν h)} {it : κ × Tree π κ ν h} {q : π}
    (hnd : (items.flatMap fun it => it.2.pages).Nodup) (hit : it ∈ items) (hq : q ∈ it.2.pages)
    (hqt : q ∈ tops items) : q = it.2.page := by
  obtain ⟨it', hit', rfl⟩ := List.mem_map.mp hqt
  rw [eq_of_mem_pages hnd hit' hit (page_mem_pages _) hq]

theorem entries_sublist_itemMarks {items : List (κ × Tree π κ ν h)} (hsub : ∀ it ∈ items,
    (it.2.entries.map fun e => ent e.1).Sublist it.2.marks) :
    ((items.flatMap fun it => it.2.entries).map fun e => ent e.1).Sublist (itemMarks items) := by
  induction items with
  | nil => simp
  | cons it items ih =>
    rw [List.flatMap_cons, List.map_append, itemMarks_cons]
    exact ((hsub it (by simp)).cons _).append (ih fun it' hit' => hsub it' (by simp [hit']))

/-- Every entry has a mark, in the order of the entries. -/
theorem entries_sublist_marks (t : Tree π κ ν h) :
    (t.entries.map fun e => ent e.1).Sublist t.marks := by
  induction t using ind with
  | leaf p es => simp
  | inner p items ih =>
    have hent : (inner p items).entries = items.flatMap fun it => it.2.entries := by
      simp [entries, List.flatMap_assoc]
    rw [hent]
    cases items with
    | nil => simp
    | cons it items =>
      rw [List.flatMap_cons, List.map_append, marks_inner, itemMarks_cons, List.cons_append,
        List.tail_cons]
      exact (ih it (by simp)).append
        (entries_sublist_itemMarks fun it' hit' => ih it' (by simp [hit']))

theorem ent_mem_marks {t : Tree π κ ν h} {e : κ × ν} (he : e ∈ t.entries) : ent e.1 ∈ t.marks :=
  t.entries_sublist_marks.subset (List.mem_map.mpr ⟨e, he, rfl⟩)

/-! ## First keys

Off the leftmost path the first key of an inner node repeats the key its parent has for it.
-/

/-- `FirstKey e t`: the first keys of `t` are right when the parent's key for `t` is `e`; on the
leftmost path there is none. -/
def FirstKey : {h : Nat} → Option κ → Tree π κ ν h → Prop
  | 0, _, _ => True
  | _ + 1, e, t =>
    match Node.items t with
    | [] => True
    | it :: items => (∀ k ∈ e, it.1 = k) ∧ FirstKey e it.2 ∧ ∀ it ∈ items, FirstKey (some it.1) it.2

def FirstKeys (e : Option κ) : List (κ × Tree π κ ν h) → Prop
  | [] => True
  | it :: items => (∀ k ∈ e, it.1 = k) ∧ FirstKey e it.2 ∧ ∀ it ∈ items, FirstKey (some it.1) it.2

@[simp] theorem firstKey_leaf (e : Option κ) (p : π) (es : List (κ × ν)) :
    FirstKey e (leaf p es) := trivial

@[simp] theorem firstKey_inner (e : Option κ) (p : π) (items : List (κ × Tree π κ ν h)) :
    FirstKey e (inner p items) ↔ FirstKeys e items := by
  cases items <;> rfl

@[simp] theorem firstKeys_nil (e : Option κ) : FirstKeys e ([] : List (κ × Tree π κ ν h)) := trivial

@[simp] theorem firstKeys_cons (e : Option κ) (it : κ × Tree π κ ν h) (items) :
    FirstKeys e (it :: items) ↔
      (∀ k ∈ e, it.1 = k) ∧ FirstKey e it.2 ∧ ∀ it ∈ items, FirstKey (some it.1) it.2 := Iff.rfl

theorem firstKeys_append {e : Option κ} {xs ys : List (κ × Tree π κ ν h)} (hx : xs ≠ []) :
    FirstKeys e (xs ++ ys) ↔ FirstKeys e xs ∧ ∀ it ∈ ys, FirstKey (some it.1) it.2 := by
  cases xs with
  | nil => exact absurd rfl hx
  | cons x xs =>
    simp only [List.cons_append, firstKeys_cons, List.forall_mem_append]
    tauto

theorem firstKeys_some {k : κ} {xs : List (κ × Tree π κ ν h)} :
    FirstKeys (some k) xs ↔
      (∀ it ∈ xs.head?, it.1 = k) ∧ ∀ it ∈ xs, FirstKey (some it.1) it.2 := by
  cases xs with
  | nil => simp
  | cons x xs =>
    simp only [firstKeys_cons, Option.mem_some_iff, forall_eq', List.head?_cons,
      List.forall_mem_cons]
    constructor
    · rintro ⟨rfl, hx, hxs⟩
      exact ⟨rfl, hx, hxs⟩
    · rintro ⟨rfl, hx, hxs⟩
      exact ⟨rfl, hx, hxs⟩

/-- With the first key in place, the marks of the items are those of the node behind its key. -/
theorem sep_cons_marks {k : κ} {p : π} {items : List (κ × Tree π κ ν h)} (hne : items ≠ [])
    (hk : FirstKey (some k) (inner p items)) :
    sep k :: (inner p items).marks = itemMarks items := by
  cases items with
  | nil => exact absurd rfl hne
  | cons it items =>
    simp only [firstKey_inner, firstKeys_cons, Option.mem_some_iff, forall_eq'] at hk
    simp [hk.1]

/-- Two neighbouring inner nodes: their marks are those of their items in one row. -/
theorem marks_pair {k : κ} {p q : π} {xs ys : List (κ × Tree π κ ν h)} (hx : xs ≠ []) (hy : ys ≠ [])
    (hk : FirstKey (some k) (inner q ys)) :
    (inner p xs).marks ++ sep k :: (inner q ys).marks = (itemMarks (xs ++ ys)).tail := by
  rw [sep_cons_marks hy hk]
  obtain ⟨x, xs, rfl⟩ := List.exists_cons_of_ne_nil hx
  simp

/-! ## Node sizes -/

/-- Largest sizes of leaves and inner nodes. -/
structure Bounds where
  leafMax : Nat
  innerMax : Nat

namespace Bounds

/-- Smallest size: a root leaf has an entry, a root two children, other nodes are half full. -/
def lo (b : Bounds) (root : Bool) (h : Nat) : Nat :=
  match root, h with
  | true, 0 => 1
  | true, _ + 1 => 2
  | false, 0 => b.leafMax / 2
  | false, _ + 1 => b.innerMax / 2

def hi (b : Bounds) : Nat → Nat
  | 0 => b.leafMax
  | _ + 1 => b.innerMax

/-- Wide enough that no node is empty. -/
structure Wide (b : Bounds) : Prop where
  leafMax : 2 ≤ b.leafMax
  innerMax : 2 ≤ b.innerMax

theorem Wide.lo_pos {b : Bounds} (hb : b.Wide) (root : Bool) (h : Nat) : 0 < b.lo root h := by
  have h1 := hb.leafMax
  have h2 := hb.innerMax
  cases root <;> cases h <;> simp only [lo] <;> omega

end Bounds

/-- All nodes strictly below the top one are sized as inner nodes and leaves must be. -/
def Below (b : Bounds) : {h : Nat} → Tree π κ ν h → Prop
  | 0, _ => True
  | h + 1, t => ∀ it ∈ Node.items t, b.lo false h ≤ size it.2 ∧ size it.2 ≤ b.hi h ∧ Below b it.2

/-- Every node respects the bounds; the top one as a root if `root`. -/
structure Sized (b : Bounds) (root : Bool) (t : Tree π κ ν h) : Prop where
  lo : b.lo root h ≤ t.size
  hi : t.size ≤ b.hi h
  below : Below b t

@[simp] theorem below_leaf (b : Bounds) (p : π) (es : List (κ × ν)) : Below b (leaf p es) := trivial

@[simp] theorem below_inner (b : Bounds) (p : π) (items : List (κ × Tree π κ ν h)) :
    Below b (inner p items) ↔ ∀ it ∈ items, Sized b false it.2 :=
  ⟨fun hb it hit => ⟨(hb it hit).1, (hb it hit).2.1, (hb it hit).2.2⟩,
    fun hs it hit => ⟨(hs it hit).lo, (hs it hit).hi, (hs it hit).below⟩⟩

theorem Sized.pos {b : Bounds} {root : Bool} {t : Tree π κ ν h} (hb : b.Wide)
    (hs : Sized b root t) : 0 < t.size :=
  lt_of_lt_of_le (hb.lo_pos root h) hs.lo

/-- No leaf is empty. -/
theorem Sized.leaf_ne_nil {b : Bounds} {root : Bool} {t : Tree π κ ν h} (hb : b.Wide)
    (hs : Sized b root t) {l : π × List (κ × ν)} (hl : l ∈ t.leaves) : l.2 ≠ [] := by
  induction t using ind generalizing root with
  | leaf p es =>
    rw [List.mem_singleton.mp hl]
    exact List.ne_nil_of_length_pos (hs.pos hb)
  | inner p items ih =>
    obtain ⟨it, hit, hl⟩ := List.mem_flatMap.mp hl
    exact ih it hit ((below_inner b p _).mp hs.below it hit) hl

theorem Sized.entries_ne_nil {b : Bounds} {root : Bool} {t : Tree π κ ν h} (hb : b.Wide)
    (hs : Sized b root t) : t.entries ≠ [] := by
  obtain ⟨l, hl⟩ : ∃ l, l ∈ t.leaves := by
    induction t using ind generalizing root with
    | leaf p es => exact ⟨_, List.mem_singleton_self _⟩
    | inner p items ih =>
      cases items with
      | nil => exact absurd (hs.pos hb) (Nat.lt_irrefl 0)
      | cons it items =>
        obtain ⟨l, hl⟩ := ih it List.mem_cons_self ((below_inner b p _).mp hs.below it List.mem_cons_self)
        exact ⟨l, List.mem_flatMap.mpr ⟨it, List.mem_cons_self, hl⟩⟩
  obtain ⟨e, he⟩ := List.exists_mem_of_ne_nil l.2 (hs.leaf_ne_nil hb hl)
  exact List.ne_nil_of_mem (List.mem_flatMap.mpr ⟨l, hl, he⟩)

/-- A tree without empty nodes has more nodes than its height. -/
theorem height_lt_pages {b : Bounds} {root : Bool} {t : Tree π κ ν h} (hb : b.Wide)
    (hs : Sized b root t) : h < t.pages.length := by
  induction t using ind generalizing root with
  | leaf p es => simp
  | inner p items ih =>
    cases items with
    | nil => have := hs.pos hb; simp at this
    | cons it items =>
      have := ih it (by simp) ((below_inner b p _).mp hs.below it (by simp))
      simp only [pages_inner, List.flatMap_cons, List.length_cons, List.length_append]
      omega

/-! ## Order -/

/-- Entry keys and separators. -/
def keys (t : Tree π κ ν h) : List κ := t.marks.map Mark.key

/-- Keys increase in every node (from index 1 on in inner nodes), and the keys below child `i` lie
at or above key `i`, if `0 < i`, and below key `i + 1`. -/
def Ordered (lt : κ → κ → Prop) : {h : Nat} → Tree π κ ν h → Prop
  | 0, t => ((Node.items t).map Prod.fst).Pairwise lt
  | h + 1, t =>
    let items : List (κ × Tree π κ ν h) := Node.items t
    (items.tail.map Prod.fst).Pairwise lt ∧
      (∀ i it, items[i]? = some it → ∀ k ∈ it.2.keys,
        (0 < i → ¬lt k it.1) ∧ ∀ it', items[i + 1]? = some it' → lt k it'.1) ∧
      ∀ it ∈ items, Ordered lt it.2

@[simp] theorem ordered_leaf (lt : κ → κ → Prop) (p : π) (es : List (κ × ν)) :
    Ordered lt (leaf p es) ↔ (es.map Prod.fst).Pairwise lt := Iff.rfl

theorem ordered_inner (lt : κ → κ → Prop) (p : π) (items : List (κ × Tree π κ ν h)) :
    Ordered lt (inner p items) ↔ (items.tail.map Prod.fst).Pairwise lt ∧
      (∀ i it, items[i]? = some it → ∀ k ∈ it.2.keys,
        (0 < i → ¬lt k it.1) ∧ ∀ it', items[i + 1]? = some it' → lt k it'.1) ∧
      ∀ it ∈ items, Ordered lt it.2 := Iff.rfl

theorem key_mem_keys {t : Tree π κ ν h} {m : Mark κ} (hm : m ∈ t.marks) : m.key ∈ t.keys :=
  List.mem_map_of_mem hm

theorem key_mem_leaf {p : π} {es : List (κ × ν)} {e : κ × ν} (he : e ∈ es) :
    e.1 ∈ (leaf p es).keys :=
  key_mem_keys (m := ent e.1) (List.mem_map_of_mem (f := fun e : κ × ν => ent e.1) he)

theorem keys_sub_inner {p : π} {items : List (κ × Tree π κ ν h)} {it : κ × Tree π κ ν h}
    (hit : it ∈ items) {k : κ} (hk : k ∈ it.2.keys) : k ∈ (inner p items).keys := by
  obtain ⟨m, hm, rfl⟩ := List.mem_map.mp hk
  cases items with
  | nil => simp at hit
  | cons it0 items =>
    refine key_mem_keys ?_
    simp only [marks_inner, itemMarks_cons, List.cons_append, List.tail_cons, List.mem_append]
    rcases List.mem_cons.mp hit with rfl | hit
    · exact .inl hm
    · exact .inr (List.mem_flatMap.mpr ⟨it, hit, List.mem_cons_of_mem _ hm⟩)

theorem sep_mem_inner {p : π} {items : List (κ × Tree π κ ν h)} {it : κ × Tree π κ ν h}
    (hit : it ∈ items.tail) : sep it.1 ∈ (inner p items).marks := by
  cases items with
  | nil => simp at hit
  | cons it0 items =>
    simp only [marks_inner, itemMarks_cons, List.cons_append, List.tail_cons, List.mem_append]
    exact .inr (List.mem_flatMap.mpr ⟨it, hit, by simp⟩)

/-- Only the order among the keys of the tree matters. -/
theorem Ordered.congr {lt lt' : κ → κ → Prop} {t : Tree π κ ν h} (ho : Ordered lt t)
    (hlt : ∀ a ∈ t.keys, ∀ b ∈ t.keys, lt a b ↔ lt' a b) : Ordered lt' t := by
  induction t using ind with
  | leaf p es =>
    simp only [ordered_leaf, List.pairwise_map] at ho ⊢
    exact ho.imp_of_mem fun ha hb => (hlt _ (key_mem_leaf ha) _ (key_mem_leaf hb)).mp
  | inner p items ih =>
    rw [ordered_inner] at ho ⊢
    obtain ⟨hkeys, hsub, hrec⟩ := ho
    have hsep : ∀ it ∈ items.tail, it.1 ∈ (inner p items).keys := fun it hit =>
      key_mem_keys (sep_mem_inner hit)
    refine ⟨?_, ?_, ?_⟩
    · rw [List.pairwise_map] at hkeys ⊢
      exact hkeys.imp_of_mem fun ha hb => (hlt _ (hsep _ ha) _ (hsep _ hb)).mp
    · intro i it hit k hk
      have hk' := keys_sub_inner (p := p) (List.mem_of_getElem? hit) hk
      obtain ⟨h1, h2⟩ := hsub i it hit k hk
      refine ⟨fun hi hlt' => h1 hi ((hlt _ hk' _ (hsep _ ?_)).mpr hlt'), fun it' hit' =>
        (hlt _ hk' _ (hsep _ ?_)).mp (h2 it' hit')⟩
      · obtain ⟨j, rfl⟩ := Nat.exists_eq_succ_of_ne_zero (Nat.ne_of_gt hi)
        exact List.mem_of_getElem? (by rwa [List.getElem?_tail])
      · exact List.mem_of_getElem? (by rwa [List.getElem?_tail])
    · exact fun it hit => ih it hit (hrec it hit) fun a ha b hb =>
        hlt a (keys_sub_inner hit ha) b (keys_sub_inner hit hb)

/-- A tree without empty nodes starts with an entry. -/
theorem marks_eq_ent_cons {b : Bounds} {root : Bool} {t : Tree π κ ν h} (hb : b.Wide)
    (hs : Sized b root t) : ∃ k ms, t.marks = ent k :: ms := by
  induction t using ind generalizing root with
  | leaf p es =>
    cases es with
    | nil => have := hs.pos hb; simp at this
    | cons e es => exact ⟨e.1, es.map fun e => ent e.1, rfl⟩
  | inner p items ih =>
    cases items with
    | nil => have := hs.pos hb; simp at this
    | cons it items =>
      obtain ⟨k, ms, hms⟩ := ih it (by simp) ((below_inner b p _).mp hs.below it (by simp))
      exact ⟨k, ms ++ itemMarks items, by simp [hms]⟩

section Order

variable [LinearOrder κ]

/-- The marks increase strictly from left to right. -/
def Sorted (t : Tree π κ ν h) : Prop := t.marks.Pairwise (· < ·)

theorem sorted_inner {p : π} {items : List (κ × Tree π κ ν h)} :
    Sorted (inner p items) ↔
      (items.Pairwise fun a b => ∀ m ∈ a.2.marks, m < sep b.1) ∧
      (items.tail.Pairwise fun a b => a.1 < b.1) ∧
      (∀ it ∈ items.tail, ∀ m ∈ it.2.marks, sep it.1 < m) ∧ ∀ it ∈ items, Sorted it.2 := by
  cases items with
  | nil => simp [Sorted]
  | cons it0 items =>
    simp only [Sorted, marks_inner, itemMarks_cons, List.cons_append, List.tail_cons,
      List.pairwise_append, List.pairwise_cons, List.mem_cons, forall_eq_or_imp]
    simp only [itemMarks, List.pairwise_flatMap, List.pairwise_cons, List.mem_cons,
      List.mem_flatMap, forall_eq_or_imp]
    constructor
    · rintro ⟨h0, ⟨hin, hout⟩, hcross⟩
      refine ⟨⟨fun it hit m hm => hcross m hm _ ⟨it, hit, .inl rfl⟩, ?_⟩, ?_, ?_, h0, ?_⟩
      · exact hout.imp fun hab m hm => (hab.2 m hm).1
      · exact hout.imp fun hab => sep_lt_sep.mp hab.1.1
      · exact fun it hit m hm => (hin it hit).1 m hm
      · exact fun it hit => (hin it hit).2
    · rintro ⟨⟨hlt0, hlt⟩, hkeys, hge, h0, hrec⟩
      have hle : ∀ it ∈ items, ∀ b, (b = sep it.1 ∨ b ∈ it.2.marks) → sep it.1 ≤ b := by
        rintro it hit b (rfl | hb)
        · exact le_refl _
        · exact le_of_lt (hge it hit b hb)
      refine ⟨h0, ⟨fun it hit => ⟨hge it hit, hrec it hit⟩, ?_⟩, ?_⟩
      · refine (hlt.and hkeys).imp_of_mem fun {a b} ha hb hab => ?_
        have hsep : sep a.1 < sep b.1 := sep_lt_sep.mpr hab.2
        exact ⟨⟨hsep, fun m hm => lt_of_lt_of_le hsep (hle b hb m (.inr hm))⟩, fun m hm =>
          ⟨hab.1 m hm, fun m' hm' => lt_of_lt_of_le (hab.1 m hm) (hle b hb m' (.inr hm'))⟩⟩
      · rintro m hm b ⟨it, hit, hb⟩
        exact lt_of_lt_of_le (hlt0 it hit m hm) (hle it hit b hb)

theorem Sorted.ordered {t : Tree π κ ν h} (hs : Sorted t) : Ordered (· < ·) t := by
  induction t using ind with
  | leaf p es =>
    simpa [Sorted, List.pairwise_map] using hs
  | inner p items ih =>
    rw [ordered_inner]
    obtain ⟨hlt, hkeys, hge, hrec⟩ := sorted_inner.mp hs
    refine ⟨by rwa [List.pairwise_map], ?_, fun it hit => ih it hit (hrec it hit)⟩
    intro i it hit k hk
    obtain ⟨m, hm, rfl⟩ := List.mem_map.mp hk
    refine ⟨fun hi => ?_, fun it' hit' => ?_⟩
    · obtain ⟨j, rfl⟩ := Nat.exists_eq_succ_of_ne_zero (Nat.ne_of_gt hi)
      have := hge it (List.mem_of_getElem? (by rwa [List.getElem?_tail])) m hm
      rcases m.sep_or_ent with e | e <;> rw [e] at this <;> simp at this <;> simp [this]
      exact le_of_lt this
    · obtain ⟨hi', rfl⟩ := List.getElem?_eq_some_iff.mp hit'
      obtain ⟨hi, rfl⟩ := List.getElem?_eq_some_iff.mp hit
      have := List.pairwise_iff_getElem.mp hlt i (i + 1) hi hi' (Nat.lt_succ_self i) m hm
      rcases m.sep_or_ent with e | e <;> rw [e] at this <;> simpa using this

theorem Sorted.entries {t : Tree π κ ν h} (hs : Sorted t) :
    t.entries.Pairwise fun a b => a.1 < b.1 := by
  have := hs.sublist t.entries_sublist_marks
  simpa [List.pairwise_map] using this

/-- In a tree without empty nodes the bounds on the subtrees order the marks. -/
theorem Ordered.sorted {b : Bounds} {root : Bool} {t : Tree π κ ν h} (hb : b.Wide)
    (hs : Sized b root t) (ho : Ordered (· < ·) t) : Sorted t := by
  induction t using ind generalizing root with
  | leaf p es => simpa [Sorted, List.pairwise_map] using ho
  | inner p items ih =>
    rw [ordered_inner] at ho
    obtain ⟨hkeys, hsub, hrec⟩ := ho
    have hsized := (below_inner b p _).mp hs.below
    have hsorted : ∀ it ∈ items, Sorted it.2 := fun it hit => ih it hit (hsized it hit) (hrec it hit)
    rw [List.pairwise_map] at hkeys
    refine sorted_inner.mpr ⟨?_, hkeys, ?_, hsorted⟩
    · -- a key below child `i` is below key `i + 1`, hence below every later key
      refine List.pairwise_iff_getElem.mpr fun i j hi hj hij m hm => ?_
      have hi1 : i + 1 < items.length := by omega
      have h1 : m.key < (items[i + 1]).1 :=
        (hsub i _ (List.getElem?_eq_getElem hi) _ (key_mem_keys hm)).2 _
          (List.getElem?_eq_getElem hi1)
      have h2 : (items[i + 1]).1 ≤ (items[j]).1 := by
        rcases Nat.eq_or_lt_of_le (show i + 1 ≤ j by omega) with e | hlt
        · subst e; exact le_refl _
        · have := List.pairwise_iff_getElem.mp hkeys i (j - 1) (by simp; omega) (by simp; omega)
            (by omega)
          simp only [List.getElem_tail, show j - 1 + 1 = j by omega] at this
          exact le_of_lt this
      have h3 := lt_of_lt_of_le h1 h2
      rcases m.sep_or_ent with e | e <;> rw [e] <;> simpa using h3
    · intro it hit m hm
      obtain ⟨i, hi⟩ := List.getElem?_of_mem hit
      rw [List.getElem?_tail] at hi
      have hmem := List.mem_of_mem_tail hit
      have hge : ∀ k ∈ it.2.keys, it.1 ≤ k := fun k hk =>
        not_lt.mp ((hsub (i + 1) it hi k hk).1 (Nat.succ_pos i))
      obtain ⟨k, ms, hms⟩ := marks_eq_ent_cons hb (hsized it hmem)
      have h0 : it.1 ≤ k := hge k (key_mem_keys (m := ent k) (by simp [hms]))
      have hs0 : (ent k :: ms).Pairwise (· < ·) := hms ▸ hsorted it hmem
      rw [hms] at hm
      rcases List.mem_cons.mp hm with rfl | hm
      · simpa using h0
      · exact lt_trans (sep_lt_ent.mpr h0) (List.rel_of_pairwise_cons hs0 hm)

end Order

end Tree

/-! ## Paths: a tree with a hole -/

/-- The way from a hole of height `h` to the root of height `m`, bottom up. -/
inductive Path (π κ ν : Type) (m : Nat) : Nat → Type
  | top : Path π κ ν m m
  | step {h : Nat} (page : π) (pre : List (κ × Tree π κ ν h)) (key : κ)
      (post : List (κ × Tree π κ ν h)) (up : Path π κ ν m (h + 1)) : Path π κ ν m h

namespace Path

open SearchTree.Tree

def plug : {h : Nat} → Path π κ ν m h → Tree π κ ν h → Tree π κ ν m
  | _, top, t => t
  | _, step p pre k post up, t => up.plug (inner p (pre ++ (k, t) :: post))

/-- Label of the node that has the hole as a child. -/
def parent : {h : Nat} → Path π κ ν m h → Option π
  | _, top => none
  | _, step p _ _ _ _ => some p

def isTop : {h : Nat} → Path π κ ν m h → Bool
  | _, top => true
  | _, step _ _ _ _ _ => false

def pages : {h : Nat} → Path π κ ν m h → List π
  | _, top => []
  | _, step p pre _ post up =>
    p :: ((pre.flatMap fun it => it.2.pages) ++ (post.flatMap fun it => it.2.pages)) ++ up.pages

def left : {h : Nat} → Path π κ ν m h → List (Mark κ)
  | _, top => []
  | _, step _ pre k _ up => up.left ++ (itemMarks pre ++ [sep k]).tail

def right : {h : Nat} → Path π κ ν m h → List (Mark κ)
  | _, top => []
  | _, step _ _ _ post up => itemMarks post ++ up.right

def leavesLeft : {h : Nat} → Path π κ ν m h → List (π × List (κ × ν))
  | _, top => []
  | _, step _ pre _ _ up => up.leavesLeft ++ pre.flatMap fun it => it.2.leaves

def leavesRight : {h : Nat} → Path π κ ν m h → List (π × List (κ × ν))
  | _, top => []
  | _, step _ _ _ post up => (post.flatMap fun it => it.2.leaves) ++ up.leavesRight

/-- The key the hole's parent has for it, if the hole is off the leftmost path. -/
def expected : {h : Nat} → Path π κ ν m h → Option κ
  | _, top => none
  | _, step _ [] _ _ up => up.expected
  | _, step _ (_ :: _) k _ _ => some k

/-- First keys around the hole. -/
def FirstKeys : {h : Nat} → Path π κ ν m h → Prop
  | _, top => True
  | _, step _ pre k post up =>
    up.FirstKeys ∧ (pre = [] → ∀ k' ∈ up.expected, k = k') ∧ Tree.FirstKeys up.expected pre ∧
      ∀ it ∈ post, FirstKey (some it.1) it.2

/-- Every node off the hole respects the bounds. -/
def Sized (b : Bounds) : {h : Nat} → Path π κ ν m h → Prop
  | _, top => True
  | _, @step _ _ _ _ h _ pre _ post up =>
    b.lo up.isTop (h + 1) ≤ pre.length + 1 + post.length ∧
      pre.length + 1 + post.length ≤ b.innerMax ∧
      (∀ it ∈ pre, Tree.Sized b false it.2) ∧ (∀ it ∈ post, Tree.Sized b false it.2) ∧ up.Sized b

def depth : {h : Nat} → Path π κ ν m h → Nat
  | _, top => 0
  | _, step _ _ _ _ up => up.depth + 1

theorem depth_le_pages (c : Path π κ ν m h) : c.depth ≤ c.pages.length := by
  induction c with
  | top => simp [depth]
  | step p pre k post up ih =>
    simp only [depth, pages, List.length_append, List.length_cons]
    omega

theorem marks_plug (c : Path π κ ν m h) (t : Tree π κ ν h) :
    (c.plug t).marks = c.left ++ t.marks ++ c.right := by
  induction c with
  | top => simp [plug, left, right]
  | step p pre k post up ih =>
    simp only [plug, ih, marks_inner, itemMarks_append, itemMarks_cons, left, right]
    cases itemMarks pre <;> simp

theorem leaves_plug (c : Path π κ ν m h) (t : Tree π κ ν h) :
    (c.plug t).leaves = c.leavesLeft ++ t.leaves ++ c.leavesRight := by
  induction c with
  | top => simp [plug, leavesLeft, leavesRight]
  | step p pre k post up ih => simp [plug, ih, leavesLeft, leavesRight]

theorem entries_plug (c : Path π κ ν m h) (t : Tree π κ ν h) :
    (c.plug t).entries =
      c.leavesLeft.flatMap Prod.snd ++ t.entries ++ c.leavesRight.flatMap Prod.snd := by
  simp [entries, leaves_plug]

theorem entries_pair (p : π) (pre post : List (κ × Tree π κ ν h)) (ka kb : κ)
    (up : Path π κ ν m (h + 1)) (ta tb : Tree π κ ν h) :
    ((step p pre ka ((kb, tb) :: post) up).plug ta).entries =
      (step p pre ka post up).leavesLeft.flatMap Prod.snd ++ (ta.entries ++ tb.entries) ++
        (step p pre ka post up).leavesRight.flatMap Prod.snd := by
  simp [entries, leaves_plug, leavesLeft, leavesRight]

theorem pages_plug (c : Path π κ ν m h) (t : Tree π κ ν h) :
    (c.plug t).pages.Perm (c.pages ++ t.pages) := by
  induction c with
  | top => simp [plug, pages]
  | step p pre k post up ih =>
    refine (ih _).trans ?_
    classical
    simp only [pages, pages_inner, List.flatMap_append, List.flatMap_cons, List.perm_iff_count,
      List.count_append, List.count_cons]
    intro a
    omega

theorem firstKey_plug (c : Path π κ ν m h) (t : Tree π κ ν h) :
    FirstKey none (c.plug t) ↔ c.FirstKeys ∧ FirstKey c.expected t := by
  induction c with
  | top => simp [plug, FirstKeys, expected]
  | step p pre k post up ih =>
    rw [plug, ih]
    cases pre with
    | nil =>
      simp only [List.nil_append, firstKey_inner, firstKeys_cons, FirstKeys, expected,
        firstKeys_nil]
      tauto
    | cons x pre =>
      simp only [firstKey_inner, firstKeys_append (List.cons_ne_nil x pre), FirstKeys, expected,
        List.forall_mem_cons]
      simp
      tauto

theorem sized_plug (b : Bounds) (c : Path π κ ν m h) (t : Tree π κ ν h) :
    Tree.Sized b true (c.plug t) ↔ c.Sized b ∧ Tree.Sized b c.isTop t := by
  induction c with
  | top => simp [plug, Sized, isTop]
  | step p pre k post up ih =>
    rw [plug, ih]
    constructor
    · rintro ⟨hup, hlo, hhi, hb⟩
      simp only [size_inner, List.length_append, List.length_cons, Bounds.hi] at hlo hhi
      simp only [below_inner, List.forall_mem_append, List.forall_mem_cons] at hb
      exact ⟨⟨by omega, by omega, hb.1, hb.2.2, hup⟩, hb.2.1⟩
    · rintro ⟨⟨hlo, hhi, hpre, hpost, hup⟩, ht⟩
      refine ⟨hup, ?_, ?_, ?_⟩
      · simp only [size_inner, List.length_append, List.length_cons]; omega
      · simp only [size_inner, List.length_append, List.length_cons, Bounds.hi]; omega
      · simp only [below_inner, List.forall_mem_append, List.forall_mem_cons]
        exact ⟨hpre, ht, hpost⟩

theorem ent_mem_left (c : Path π κ ν m h) {e : κ × ν} (he : e ∈ c.leavesLeft.flatMap Prod.snd) :
    ent e.1 ∈ c.left := by
  induction c with
  | top => simp [leavesLeft] at he
  | step p pre k post up ih =>
    simp only [leavesLeft, List.flatMap_append, List.mem_append, left] at he ⊢
    rcases he with he | he
    · exact .inl (ih he)
    · right
      have hm := ent_mem_marks (t := inner p pre) (by simpa [entries] using he)
      cases pre with
      | nil => simp at hm
      | cons it pre =>
        simp only [marks_inner, itemMarks_cons, List.cons_append, List.tail_cons] at hm ⊢
        exact List.mem_append_left _ hm

theorem ent_mem_right (c : Path π κ ν m h) {e : κ × ν} (he : e ∈ c.leavesRight.flatMap Prod.snd) :
    ent e.1 ∈ c.right := by
  induction c with
  | top => simp [leavesRight] at he
  | step p pre k post up ih =>
    simp only [leavesRight, List.flatMap_append, List.mem_append, right] at he ⊢
    rcases he with he | he
    · left
      simp only [List.flatMap_assoc, List.mem_flatMap] at he
      obtain ⟨it, hit, he⟩ := he
      exact List.mem_flatMap.mpr ⟨it, hit, List.mem_cons_of_mem _
        (ent_mem_marks (by simpa [entries] using he))⟩
    · exact .inr (ih he)

/-- The root label does not depend on what is in the hole, but for its label. -/
theorem page_plug (c : Path π κ ν m h) {t t' : Tree π κ ν h} (ht : t.page = t'.page) :
    (c.plug t).page = (c.plug t').page := by
  induction c with
  | top => exact ht
  | step p pre k post up ih => exact ih rfl

/-- First keys of the node above a hole that gets a second subtree. -/
theorem firstKeys_items {p : π} {pre post : List (κ × Tree π κ ν h)} {k k2 : κ}
    {up : Path π κ ν m (h + 1)} {t1 t2 : Tree π κ ν h}
    (hc : (step p pre k post up).FirstKeys) (h1 : FirstKey (step p pre k post up).expected t1)
    (h2 : FirstKey (some k2) t2) :
    up.FirstKeys ∧ Tree.FirstKeys up.expected (pre ++ (k, t1) :: (k2, t2) :: post) := by
  obtain ⟨hup, hk, hpre, hpost⟩ := hc
  refine ⟨hup, ?_⟩
  cases pre with
  | nil => exact ⟨hk rfl, h1, List.forall_mem_cons.mpr ⟨h2, hpost⟩⟩
  | cons x pre =>
    exact (firstKeys_append (List.cons_ne_nil x pre)).mpr
      ⟨hpre, List.forall_mem_cons.mpr ⟨h1, List.forall_mem_cons.mpr ⟨h2, hpost⟩⟩⟩

/-- The labels when the hole gets a second subtree as its neighbour. -/
theorem pages_items (p : π) (pre post : List (κ × Tree π κ ν h)) (k k2 : κ)
    (up : Path π κ ν m (h + 1)) (t1 t2 : Tree π κ ν h) :
    ((step p pre k post up).pages ++ t1.pages ++ t2.pages).Perm
      (up.pages ++ (inner p (pre ++ (k, t1) :: (k2, t2) :: post)).pages) := by
  classical
  simp only [pages, pages_inner, List.flatMap_append, List.flatMap_cons, List.perm_iff_count,
    List.count_append, List.count_cons]
  intro a
  omega

theorem pages_pair (p : π) (pre post : List (κ × Tree π κ ν h)) (ka kb : κ)
    (up : Path π κ ν m (h + 1)) (ta tb : Tree π κ ν h) :
    ((step p pre ka ((kb, tb) :: post) up).plug ta).pages.Perm
      ((p :: (ta.pages ++ tb.pages)) ++ (itemPages pre ++ itemPages post ++ up.pages)) := by
  classical
  refine (pages_plug _ _).trans ?_
  simp only [pages, itemPages, List.flatMap_cons, List.perm_iff_count, List.count_append,
    List.count_cons]
  intro a
  omega

/-- One label fewer when two neighbouring subtrees become one. -/
theorem pages_merge (p : π) (pre post : List (κ × Tree π κ ν h)) (ka kb : κ)
    (up : Path π κ ν m (h + 1)) (ta tb : Tree π κ ν h) {t : Tree π κ ν h} {q : π}
    (hq : (ta.pages ++ tb.pages).Perm (q :: t.pages)) :
    ((step p pre ka ((kb, tb) :: post) up).plug ta).pages.Perm
      (q :: ((step p pre ka post up).plug t).pages) := by
  classical
  refine (pages_plug _ _).trans (List.Perm.trans ?_ ((pages_plug _ _).symm.cons q))
  simp only [List.perm_iff_count] at hq
  simp only [pages, List.flatMap_cons, List.perm_iff_count, List.count_append, List.count_cons]
    at hq ⊢
  intro a
  have := hq a
  omega

/-- The marks of the node above a hole that gets a second subtree. -/
theorem marks_items (p : π) (pre post : List (κ × Tree π κ ν h)) (k k2 : κ)
    (up : Path π κ ν m (h + 1)) (t1 t2 : Tree π κ ν h) :
    (step p pre k post up).left ++ t1.marks ++ sep k2 :: t2.marks ++ (step p pre k post up).right =
      up.left ++ (inner p (pre ++ (k, t1) :: (k2, t2) :: post)).marks ++ up.right := by
  cases pre <;> simp [left, right]

theorem leaves_items (p : π) (pre post : List (κ × Tree π κ ν h)) (k k2 : κ)
    (up : Path π κ ν m (h + 1)) (t1 t2 : Tree π κ ν h) :
    (step p pre k post up).leavesLeft ++ t1.leaves ++ t2.leaves ++
      (step p pre k post up).leavesRight =
      up.leavesLeft ++ (inner p (pre ++ (k, t1) :: (k2, t2) :: post)).leaves ++ up.leavesRight := by
  simp [leavesLeft, leavesRight]

/-! ## Order around the hole -/

section Insert

variable {ι : Type} [LinearOrder ι] {A B : List ι} {x : ι}

theorem pairwise_insert (hs : (A ++ B).Pairwise (· < ·)) (hA : ∀ a ∈ A, a < x)
    (hB : ∀ b ∈ B, x < b) : (A ++ x :: B).Pairwise (· < ·) := by
  obtain ⟨h1, h2, h3⟩ := List.pairwise_append.mp hs
  refine List.pairwise_append.mpr ⟨h1, List.pairwise_cons.mpr ⟨hB, h2⟩, fun a ha b hb => ?_⟩
  rcases List.mem_cons.mp hb with rfl | hb
  · exact hA a ha
  · exact h3 a ha b hb

/-- A separator fits between two entries, with the key of the second one. -/
theorem pairwise_sep [LinearOrder κ] {A B : List (Mark κ)} {l k : κ}
    (hs : (A ++ ent l :: ent k :: B).Pairwise (· < ·)) :
    (A ++ ent l :: sep k :: ent k :: B).Pairwise (· < ·) := by
  obtain ⟨h1, h2, h3⟩ := List.pairwise_append.mp hs
  obtain ⟨h4, h5⟩ := List.pairwise_cons.mp h2
  have hlk : ent l < sep k := ent_lt_sep.mpr (ent_lt_ent.mp (h4 _ (by simp)))
  have hcut : A ++ ent l :: sep k :: ent k :: B = (A ++ [ent l]) ++ sep k :: (ent k :: B) := by simp
  rw [hcut]
  refine pairwise_insert (by simpa using hs) ?_ ?_
  · intro a ha
    rcases List.mem_append.mp ha with ha | ha
    · exact lt_trans (h3 a ha _ (by simp)) hlk
    · rw [List.mem_singleton.mp ha]; exact hlk
  · intro b hb
    have hk : sep k < ent k := sep_lt_ent.mpr (le_refl k)
    rcases List.mem_cons.mp hb with rfl | hb
    · exact hk
    · exact lt_trans hk ((List.pairwise_cons.mp h5).1 b hb)

end Insert

theorem sep_mem_left {p : π} {pre post : List (κ × Tree π κ ν h)} {k : κ}
    {up : Path π κ ν m (h + 1)} (hne : pre ≠ []) : sep k ∈ (step p pre k post up).left := by
  cases pre with
  | nil => exact absurd rfl hne
  | cons it pre => simp [left]

theorem sep_mem_right {p : π} {pre post : List (κ × Tree π κ ν h)} {k : κ}
    {up : Path π κ ν m (h + 1)} {it : κ × Tree π κ ν h} (hit : it ∈ post) :
    sep it.1 ∈ (step p pre k post up).right :=
  List.mem_append.mpr (.inl (List.mem_flatMap.mpr ⟨it, hit, by simp⟩))

section Order

variable [LinearOrder κ] {c : Path π κ ν m h} {t : Tree π κ ν h} {x : κ}

theorem sorted_plug : Sorted (c.plug t) ↔ (c.left ++ t.marks ++ c.right).Pairwise (· < ·) := by
  rw [Sorted, marks_plug]

theorem sorted_of_plug (hs : Sorted (c.plug t)) : Sorted t := by
  rw [sorted_plug, List.pairwise_append, List.pairwise_append] at hs
  exact hs.1.2.1

theorem left_lt (hs : Sorted (c.plug t)) {l k : Mark κ} (hl : l ∈ c.left) (hk : k ∈ t.marks) :
    l < k := by
  rw [sorted_plug, List.pairwise_append, List.pairwise_append] at hs
  exact hs.1.2.2 l hl k hk

theorem lt_right (hs : Sorted (c.plug t)) {r k : Mark κ} (hr : r ∈ c.right) (hk : k ∈ t.marks) :
    k < r := by
  rw [sorted_plug, List.pairwise_append] at hs
  exact hs.2.2 k (by simp [hk]) r hr

/-- `x` belongs into the hole. -/
structure Around (c : Path π κ ν m h) (x : κ) : Prop where
  left : ∀ l ∈ c.left, l < ent x
  right : ∀ r ∈ c.right, ent x < r

/-- Beside the leaf where `x` belongs there is no entry with key `x`. -/
theorem Around.not_mem {c : Path π κ ν m 0} (hc : c.Around x) {e : κ × ν}
    (he : e ∈ c.leavesLeft.flatMap Prod.snd ∨ e ∈ c.leavesRight.flatMap Prod.snd) : e.1 ≠ x := by
  rcases he with he | he
  · exact ne_of_lt (ent_lt_ent.mp (hc.left _ (c.ent_mem_left he)))
  · exact ne_of_gt (ent_lt_ent.mp (hc.right _ (c.ent_mem_right he)))

/-- Among items with increasing keys there is one whose range takes `x`. -/
theorem exists_item (it0 : κ × Tree π κ ν h) (items : List (κ × Tree π κ ν h))
    (hs : items.Pairwise fun a b => a.1 < b.1) :
    ∃ pre it post, it0 :: items = pre ++ it :: post ∧ (pre ≠ [] → it.1 ≤ x) ∧
      ∀ it' ∈ post, x < it'.1 := by
  induction items generalizing it0 with
  | nil => exact ⟨[], it0, [], rfl, by simp, by simp⟩
  | cons it1 items ih =>
    obtain ⟨h1, h2⟩ := List.pairwise_cons.mp hs
    rcases le_or_gt it1.1 x with hle | hlt
    · obtain ⟨pre, it, post, heq, hpre, hpost⟩ := ih it1 h2
      refine ⟨it0 :: pre, it, post, by rw [heq]; rfl, fun _ => ?_, hpost⟩
      cases pre with
      | nil => cases heq; exact hle
      | cons it' pre => exact hpre (by simp)
    · refine ⟨[], it0, it1 :: items, rfl, by simp, fun it' hit' => ?_⟩
      rcases List.mem_cons.mp hit' with rfl | hit'
      · exact hlt
      · exact lt_trans hlt (h1 it' hit')

theorem Around.exists_step {c : Path π κ ν m (h + 1)} {p : π} {items : List (κ × Tree π κ ν h)}
    (hc : c.Around x) (hs : Sorted (c.plug (inner p items))) (hne : items ≠ []) :
    ∃ pre k t post, items = pre ++ (k, t) :: post ∧ (pre ≠ [] → k ≤ x) ∧
      (∀ it ∈ post, x < it.1) ∧ (step p pre k post c).Around x := by
  obtain ⟨it0, rest, rfl⟩ := List.exists_cons_of_ne_nil hne
  obtain ⟨pre, ⟨k, t⟩, post, heq, hpre, hpost⟩ :=
    exists_item (x := x) it0 rest (sorted_inner.mp (sorted_of_plug hs)).2.1
  rw [heq] at hs ⊢
  have hs' : Sorted ((step p pre k post c).plug t) := hs
  rw [sorted_plug, List.pairwise_append, List.pairwise_append] at hs'
  refine ⟨pre, k, t, post, rfl, hpre, hpost, fun l hl => ?_, fun r hr => ?_⟩
  · simp only [Path.left, List.mem_append] at hl
    rcases hl with hl | hl
    · exact hc.left l hl
    · cases pre with
      | nil => simp at hl
      | cons it' pre =>
        have hk : sep k < ent x := sep_lt_ent.mpr (hpre (by simp))
        have hsorted := hs'.1.1
        simp only [Path.left, itemMarks_cons, List.cons_append, List.tail_cons] at hl hsorted
        rw [← List.append_assoc, List.pairwise_append] at hsorted
        rcases List.mem_append.mp hl with hl | hl
        · exact lt_trans (hsorted.2.2 l (by simp [hl]) (sep k) (by simp)) hk
        · rw [List.mem_singleton.mp hl]; exact hk
  · simp only [Path.right, List.mem_append] at hr
    rcases hr with hr | hr
    · obtain ⟨it, hit, hr⟩ := List.mem_flatMap.mp hr
      have hk : ent x < sep it.1 := ent_lt_sep.mpr (hpost it hit)
      rcases List.mem_cons.mp hr with rfl | hr
      · exact hk
      · have hsorted := hs'.2.1
        simp only [Path.right, itemMarks, List.pairwise_append, List.pairwise_flatMap,
          List.pairwise_cons] at hsorted
        exact lt_trans hk ((hsorted.1.1 it hit).1 r hr)
    · exact hc.right r hr

end Order

end Path

end SearchTree
