import Mathlib.Data.List.Nodup
import Mathlib.Tactic.Common

/-!
# Idmbs.Common.PrefixTree

`PrefixTree` (common/prefix_tree.cpp): its nodes, `Insert`, `Delete` and `FindWord`. A pointer into the tree
is the list of positions that leads to a node. `Delete` goes down by the position of a character in the word,
and not by the child that was found for it.
-/

namespace Idmbs

inductive WordType where
  | undefined | keyWord | tableName | databaseName | attrName
  deriving DecidableEq, Repr

structure PrefixTreeNode where
  value : UInt8
  childs : List PrefixTreeNode
  height : Nat
  isEnd : Bool
  type : WordType

namespace PrefixTreeNode

def new (c : UInt8) : PrefixTreeNode := ⟨c, [], 0, false, .undefined⟩

/-- `FindChild`; `none` is -1. The callers ask for `childs.empty()` first and do then what they do for -1. -/
def findChild (n : PrefixTreeNode) (value : UInt8) : Option Nat :=
  n.childs.findIdx? fun child => value = child.value

/-- The node that a pointer leads to is changed. -/
def update (f : PrefixTreeNode → PrefixTreeNode) : List Nat → PrefixTreeNode → PrefixTreeNode
  | [], n => f n
  | i :: pos, n => { n with childs := n.childs.modify i (update f pos) }

end PrefixTreeNode

/-- A tree is its root. -/
abbrev PrefixTree := PrefixTreeNode

namespace PrefixTree

def new : PrefixTree := PrefixTreeNode.new 0

/-- `SkipPrefix`: the pointer behind it and its node, which has the answer in its `height`. -/
def skipPrefix (ptr : PrefixTreeNode) : List UInt8 → List Nat × PrefixTreeNode
  | [] => ([], ptr)
  | c :: value =>
    match ptr.findChild c with
    | none => ([], ptr)
    | some resIndex =>
      match ptr.childs[resIndex]? with
      | none => ([], ptr)
      | some child =>
        match skipPrefix child value with
        | (pos, ptr) => (resIndex :: pos, ptr)

/-- The loop of `Insert` from `ptr` on, and what follows it. -/
def insertLoop (wordType : WordType) : List UInt8 → PrefixTreeNode → PrefixTreeNode
  | [], ptr => if ptr.isEnd = false then { ptr with isEnd := true, type := wordType } else ptr
  | c :: value, ptr =>
    let newNode := { PrefixTreeNode.new c with height := ptr.height + 1 }
    { ptr with childs := ptr.childs ++ [insertLoop wordType value newNode] }

def insert (t : PrefixTree) (value : List UInt8) (wordType : WordType) : PrefixTree :=
  match skipPrefix t value with
  | (pos, ptr) => t.update (insertLoop wordType (value.drop ptr.height)) pos

/-- What becomes of the loop of `Delete`: it returns, or it ends at a node. -/
inductive Walk where
  | back
  | ends (deleteNodeIndex : Option Nat) (ptr : PrefixTreeNode)

/-- The loop of `Delete` from `i` on; `none` is a read behind the end of `childs`. -/
def deleteLoop : Nat → Option Nat → PrefixTreeNode → List UInt8 → Option Walk
  | _, deleteNodeIndex, ptr, [] => some (.ends deleteNodeIndex ptr)
  | i, deleteNodeIndex, ptr, c :: value =>
    match ptr.findChild c with
    | none => some .back
    | some res =>
      let deleteNodeIndex := if 1 < ptr.childs.length then some res else deleteNodeIndex
      match ptr.childs[i]? with
      | none => none
      | some ptr => deleteLoop (i + 1) deleteNodeIndex ptr value

/-- `Delete`; `none` where it reads behind the end of `childs`. The pointer that the loop ends at is
0, 1, 2 and so on. -/
def delete (t : PrefixTree) (value : List UInt8) : Option PrefixTree :=
  match deleteLoop 0 none t value with
  | none => none
  | some .back => some t
  | some (.ends deleteNodeIndex ptr) =>
    if ptr.isEnd = false then some t
    else if ptr.childs ≠ [] then some (t.update (fun ptr => { ptr with isEnd := false }) (List.range value.length))
    else
      match deleteNodeIndex.bind fun i => ptr.childs[i]? with
      | none => none
      | some _ =>
        some (t.update (fun ptr => { ptr with childs := ptr.childs.eraseIdx (deleteNodeIndex.getD 0) })
          (List.range value.length))

def findWord (ptr : PrefixTreeNode) : List UInt8 → Nat
  | [] => 1
  | c :: value =>
    match ptr.findChild c with
    | none => 0
    | some resIndex =>
      match ptr.childs[resIndex]? with
      | none => 0
      | some child => findWord child value

/-! ## Nodes -/

variable {t n m ptr child : PrefixTreeNode} {f g : PrefixTreeNode → PrefixTreeNode} {l : List PrefixTreeNode}
  {c : UInt8} {w v value : List UInt8} {pos : List Nat} {d i j : Nat} {wordType : WordType}

/-- A child is found by the characters of the children. -/
theorem findChild_values (n : PrefixTreeNode) (c : UInt8) :
    n.findChild c = (n.childs.map PrefixTreeNode.value).findIdx? fun x => c = x := by
  rw [PrefixTreeNode.findChild, List.findIdx?_map]
  rfl

theorem findChild_eq_none : n.findChild c = none ↔ c ∉ n.childs.map PrefixTreeNode.value := by
  rw [findChild_values, List.findIdx?_eq_none_iff]
  simp only [decide_eq_false_iff_not]
  exact ⟨fun h hc => h c hc rfl, fun h x hx he => h (he ▸ hx)⟩

theorem findChild_some (h : n.findChild c = some i) : ∃ child, n.childs[i]? = some child ∧ child.value = c := by
  rw [PrefixTreeNode.findChild, List.findIdx?_eq_some_iff_getElem] at h
  obtain ⟨hi, hc, -⟩ := h
  exact ⟨n.childs[i], List.getElem?_eq_getElem hi, (of_decide_eq_true hc).symm⟩

/-- Siblings differ, so a child is found by its character. -/
theorem findChild_value (hn : (n.childs.map PrefixTreeNode.value).Nodup) (h : n.childs[i]? = some child) :
    n.findChild child.value = some i := by
  obtain ⟨hi, rfl⟩ := List.getElem?_eq_some_iff.mp h
  rw [PrefixTreeNode.findChild, List.findIdx?_eq_some_iff_getElem]
  refine ⟨hi, decide_eq_true rfl, fun j hj he => ?_⟩
  have hinj := List.inj_on_of_nodup_map hn (List.getElem_mem hi) (List.getElem_mem (Nat.lt_trans hj hi)) (of_decide_eq_true he)
  have hij := (List.Nodup.getElem_inj_iff hn.of_map).mp hinj
  omega

theorem values_modify (hg : ∀ m, l[i]? = some m → (g m).value = m.value) :
    (l.modify i g).map PrefixTreeNode.value = l.map PrefixTreeNode.value := by
  refine List.ext_getElem? fun j => ?_
  rw [List.getElem?_map, List.getElem?_map, List.getElem?_modify]
  cases hj : l[j]? with
  | none => rfl
  | some m =>
    by_cases hij : i = j
    · subst hij
      simp [hg m hj]
    · simp [hij]

/-- The node that a pointer leads to. -/
def nodeAt (t : PrefixTreeNode) : List Nat → Option PrefixTreeNode
  | [] => some t
  | i :: pos => t.childs[i]?.bind fun child => nodeAt child pos

theorem nodeAt_append (pos pos' : List Nat) : nodeAt t (pos ++ pos') = (nodeAt t pos).bind (nodeAt · pos') := by
  induction pos generalizing t with
  | nil => rfl
  | cons i pos ih =>
    rw [List.cons_append, nodeAt, nodeAt, Option.bind_assoc]
    congr 1
    funext child
    exact ih

theorem nodeAt_cons (h : nodeAt t (i :: pos) = some m) :
    ∃ child, t.childs[i]? = some child ∧ nodeAt child pos = some m :=
  Option.bind_eq_some_iff.mp h

theorem value_update (h : nodeAt t pos = some m) (hf : (f m).value = m.value) : (t.update f pos).value = t.value := by
  cases pos with
  | nil =>
    cases h
    exact hf
  | cons i pos => rfl

theorem nodeAt_update (h : nodeAt t pos = some m) : nodeAt (t.update f pos) pos = some (f m) := by
  induction pos generalizing t with
  | nil =>
    cases h
    rfl
  | cons i pos ih =>
    obtain ⟨child, hchild, hm⟩ := nodeAt_cons h
    rw [PrefixTreeNode.update, nodeAt, List.getElem?_modify_eq, hchild]
    exact ih hm

/-- The characters below a node stay where a pointer goes further down. -/
theorem values_update (h : nodeAt t (i :: pos) = some m) (hf : (f m).value = m.value) :
    (t.update f (i :: pos)).childs.map PrefixTreeNode.value = t.childs.map PrefixTreeNode.value := by
  obtain ⟨child, hchild, hm⟩ := nodeAt_cons h
  refine values_modify fun x hx => ?_
  rw [hchild] at hx
  cases hx
  exact value_update hm hf

theorem findWord_cons : findWord n (c :: w) =
    match (n.findChild c).bind fun i => n.childs[i]? with
    | none => 0
    | some child => findWord child w := by
  rw [findWord]
  cases n.findChild c <;> rfl

/-- A word goes past the node that is changed, or down to it. -/
theorem findWord_update (h : nodeAt t (i :: pos) = some m) (hf : (f m).value = m.value)
    (hi : t.childs[i]? = some child) :
    findWord (t.update f (i :: pos)) (c :: w) =
      if t.findChild c = some i then findWord (child.update f pos) w else findWord t (c :: w) := by
  have hfind : (t.update f (i :: pos)).findChild c = t.findChild c := by
    rw [findChild_values, findChild_values, values_update h hf]
  rw [findWord_cons, findWord_cons, hfind]
  cases hc : t.findChild c with
  | none => rfl
  | some j =>
    by_cases hij : j = i
    · subst hij
      rw [if_pos rfl, Option.bind_some, PrefixTreeNode.update, List.getElem?_modify_eq, hi]
      rfl
    · have hne : i ≠ j := fun h => hij h.symm
      rw [if_neg (by simpa using hij), Option.bind_some, PrefixTreeNode.update, List.getElem?_modify_ne _ _ hne]
      rfl

/-! ## Insertion -/

/-- Siblings differ, heights are depths, and a leaf ends a word; the root may not. -/
inductive Shape : Nat → PrefixTreeNode → Prop where
  | node {d : Nat} {n : PrefixTreeNode} : n.height = d → (n.childs.map PrefixTreeNode.value).Nodup →
      (∀ child ∈ n.childs, Shape (d + 1) child) → (∀ child ∈ n.childs, child.childs = [] → child.isEnd = true) →
      Shape d n

namespace Shape

theorem height (h : Shape d n) : n.height = d := by
  cases h
  assumption

theorem nodup (h : Shape d n) : (n.childs.map PrefixTreeNode.value).Nodup := by
  cases h
  assumption

theorem childs (h : Shape d n) (hc : child ∈ n.childs) : Shape (d + 1) child := by
  cases h with
  | node _ _ hchilds _ => exact hchilds child hc

theorem leaf (h : Shape d n) (hc : child ∈ n.childs) (hleaf : child.childs = []) : child.isEnd = true := by
  cases h with
  | node _ _ _ hleaves => exact hleaves child hc hleaf

theorem nodeAt (h : Shape d t) (hm : PrefixTree.nodeAt t pos = some m) : Shape (d + pos.length) m := by
  induction pos generalizing t d with
  | nil =>
    cases hm
    exact h
  | cons i pos ih =>
    obtain ⟨child, hchild, hm⟩ := nodeAt_cons hm
    have hnext := ih (h.childs (List.mem_of_getElem? hchild)) hm
    rwa [List.length_cons, ← Nat.add_assoc, Nat.add_right_comm]

theorem leaf_nodeAt (h : Shape d t) (hm : PrefixTree.nodeAt t pos = some m) (hpos : pos ≠ []) (hleaf : m.childs = []) :
    m.isEnd = true := by
  induction pos generalizing t d with
  | nil => exact absurd rfl hpos
  | cons i pos ih =>
    obtain ⟨child, hchild, hm⟩ := nodeAt_cons hm
    have hmem := List.mem_of_getElem? hchild
    cases pos with
    | nil =>
      cases hm
      exact h.leaf hmem hleaf
    | cons j pos => exact ih (h.childs hmem) hm nofun

/-- The node that a pointer leads to is changed for one that fits there. -/
theorem update (h : Shape d t) (hm : PrefixTree.nodeAt t pos = some m) (hvalue : (f m).value = m.value)
    (hf : Shape (d + pos.length) (f m)) (hend : (f m).childs = [] → (f m).isEnd = true) :
    Shape d (t.update f pos) ∧ ((t.update f pos).childs = [] → (t.update f pos).isEnd = true) := by
  induction pos generalizing t d with
  | nil =>
    cases hm
    exact ⟨hf, hend⟩
  | cons i pos ih =>
    have hvalues := values_update hm hvalue
    obtain ⟨child, hchild, hm'⟩ := nodeAt_cons hm
    rw [List.length_cons, ← Nat.add_assoc, Nat.add_right_comm] at hf
    obtain ⟨hshape, hleaf⟩ := ih (h.childs (List.mem_of_getElem? hchild)) hm' hf
    have hmem : ∀ x ∈ (t.update f (i :: pos)).childs, x ∈ t.childs ∨ x = child.update f pos := by
      intro x hx
      obtain ⟨j, hj⟩ := List.mem_iff_getElem?.mp hx
      rw [PrefixTreeNode.update, List.getElem?_modify] at hj
      obtain ⟨y, hy, hxy⟩ := Option.map_eq_some_iff.mp hj
      by_cases hij : i = j
      · subst hij
        rw [hchild] at hy
        cases hy
        rw [if_pos rfl] at hxy
        exact .inr hxy.symm
      · rw [if_neg hij] at hxy
        rw [← hxy]
        exact .inl (List.mem_of_getElem? hy)
    refine ⟨.node h.height (by rw [hvalues]; exact h.nodup) ?_ ?_, ?_⟩
    · intro x hx
      obtain hx | rfl := hmem x hx
      · exact h.childs hx
      · exact hshape
    · intro x hx hleafx
      obtain hx | rfl := hmem x hx
      · exact h.leaf hx hleafx
      · exact hleaf hleafx
    · intro hnil
      rw [hnil, List.map_nil, eq_comm, List.map_eq_nil_iff] at hvalues
      rw [hvalues] at hchild
      cases hchild

end Shape

theorem shape_new : Shape 0 new := .node rfl .nil nofun nofun

/-- What `SkipPrefix` finds: a node, at which the next character has no child. -/
theorem skipPrefix_spec (t : PrefixTreeNode) (value : List UInt8) :
    nodeAt t (skipPrefix t value).1 = some (skipPrefix t value).2 ∧
      ∀ c rest, value.drop (skipPrefix t value).1.length = c :: rest → (skipPrefix t value).2.findChild c = none := by
  induction value generalizing t with
  | nil => exact ⟨rfl, nofun⟩
  | cons c value ih =>
    rw [skipPrefix]
    cases hfind : t.findChild c with
    | none =>
      refine ⟨rfl, fun c' rest h => ?_⟩
      cases h
      exact hfind
    | some i =>
      obtain ⟨child, hchild, -⟩ := findChild_some hfind
      obtain ⟨hat, hnone⟩ := ih child
      simp only [hchild]
      exact ⟨by rw [nodeAt, hchild]; exact hat, hnone⟩

theorem shape_insertLoop (wordType : WordType) (h : Shape d n)
    (hnone : ∀ c rest, value = c :: rest → n.findChild c = none) :
    Shape d (insertLoop wordType value n) ∧
      ((insertLoop wordType value n).childs = [] → (insertLoop wordType value n).isEnd = true) := by
  induction value generalizing n d with
  | nil =>
    rw [insertLoop]
    split
    · exact ⟨.node h.height h.nodup (fun _ => h.childs) fun _ => h.leaf, fun _ => rfl⟩
    · rename_i hend
      exact ⟨h, fun _ => by simpa using hend⟩
  | cons c value ih =>
    have hnew : Shape (d + 1) { PrefixTreeNode.new c with height := n.height + 1 } :=
      .node (by rw [← h.height]) .nil nofun nofun
    obtain ⟨hshape, hleaf⟩ := ih hnew fun _ _ _ => rfl
    have hvalue : (insertLoop wordType value { PrefixTreeNode.new c with height := n.height + 1 }).value = c := by
      cases value with
      | nil => rfl
      | cons c' value => rfl
    have hc := findChild_eq_none.mp (hnone c value rfl)
    rw [insertLoop]
    refine ⟨.node h.height ?_ ?_ ?_, fun hnil => by simp at hnil⟩
    · rw [List.map_append, List.map_singleton, hvalue]
      rw [← List.concat_eq_append]
      exact h.nodup.concat hc
    · intro x hx
      obtain hx | hx := List.mem_append.mp hx
      · exact h.childs hx
      · rw [List.mem_singleton.mp hx]
        exact hshape
    · intro x hx
      obtain hx | hx := List.mem_append.mp hx
      · exact h.leaf hx
      · rw [List.mem_singleton.mp hx]
        exact hleaf

theorem value_insertLoop : (insertLoop wordType value n).value = n.value := by
  cases value with
  | nil =>
    rw [insertLoop]
    split <;> rfl
  | cons c value => rfl

theorem insert_eq (h : Shape 0 t) : insert t value wordType =
    t.update (insertLoop wordType (value.drop (skipPrefix t value).1.length)) (skipPrefix t value).1 := by
  have hheight := (h.nodeAt (skipPrefix_spec t value).1).height
  rw [Nat.zero_add] at hheight
  rw [insert, ← hheight]

theorem shape_insert (h : Shape 0 t) : Shape 0 (insert t value wordType) := by
  obtain ⟨hat, hnone⟩ := skipPrefix_spec t value
  obtain ⟨hshape, hleaf⟩ := shape_insertLoop wordType (h.nodeAt hat) hnone
  rw [insert_eq h]
  exact (h.update hat value_insertLoop hshape hleaf).1

theorem findChild_append (n x : PrefixTreeNode) (c : UInt8) :
    { n with childs := n.childs ++ [x] }.findChild c =
      (n.findChild c).or (if c = x.value then some n.childs.length else none) := by
  rw [PrefixTreeNode.findChild, PrefixTreeNode.findChild, List.findIdx?_append]
  by_cases hc : c = x.value
  · simp [hc]
  · simp [hc]

theorem findWord_insertLoop (hnone : ∀ c rest, value = c :: rest → n.findChild c = none) :
    findWord (insertLoop wordType value n) w = 1 ↔ findWord n w = 1 ∨ w <+: value := by
  induction value generalizing n w with
  | nil =>
    rw [List.prefix_nil]
    cases w with
    | nil => simp [findWord]
    | cons c w =>
      rw [insertLoop]
      split
      · simp [findWord_cons, PrefixTreeNode.findChild]
      · simp
  | cons c value ih =>
    cases w with
    | nil => simp [findWord]
    | cons c' w =>
      have hc := hnone c value rfl
      rw [insertLoop, findWord_cons, findWord_cons, findChild_append, value_insertLoop, List.cons_prefix_cons]
      cases hfind : n.findChild c' with
      | some j =>
        have hne : c' ≠ c := by
          rintro rfl
          rw [hc] at hfind
          cases hfind
        obtain ⟨child, hchild, -⟩ := findChild_some hfind
        have hj := (List.getElem?_eq_some_iff.mp hchild).1
        rw [Option.some_or, Option.bind_some, Option.bind_some, List.getElem?_append_left hj]
        simp [hne]
      | none =>
        rw [Option.none_or, Option.bind_none]
        by_cases he : c' = c
        · subst he
          have hnew : findWord { PrefixTreeNode.new c' with height := n.height + 1 } w = 1 ↔ w = [] := by
            cases w with
            | nil => simp [findWord]
            | cons a w => simp [findWord, PrefixTreeNode.findChild, PrefixTreeNode.new]
          have hvalue : ({ PrefixTreeNode.new c' with height := n.height + 1 } : PrefixTreeNode).value = c' := rfl
          rw [if_pos hvalue.symm, Option.bind_some, List.getElem?_concat_length]
          simp only
          rw [ih fun _ _ _ => rfl, hnew]
          constructor
          · rintro (rfl | hw)
            · exact .inr ⟨trivial, List.nil_prefix⟩
            · exact .inr ⟨trivial, hw⟩
          · rintro (h0 | ⟨-, hw⟩)
            · cases h0
            · exact .inr hw
        · simp [PrefixTreeNode.new, he]

/-- Every prefix of the new word is found, and what was found before. -/
theorem findWord_insert (h : Shape 0 t) :
    findWord (insert t value wordType) w = 1 ↔ findWord t w = 1 ∨ w <+: value := by
  rw [insert_eq h]
  clear h
  induction value generalizing t w with
  | nil => exact findWord_insertLoop nofun
  | cons c value ih =>
    have hspec := skipPrefix_spec t (c :: value)
    rw [skipPrefix] at hspec ⊢
    cases hfind : t.findChild c with
    | none =>
      rw [hfind] at hspec
      exact findWord_insertLoop hspec.2
    | some i =>
      obtain ⟨child, hchild, hvalue⟩ := findChild_some hfind
      simp only [hfind, hchild] at hspec ⊢
      cases w with
      | nil => simp [findWord]
      | cons c' w =>
        rw [findWord_update hspec.1 value_insertLoop hchild, List.cons_prefix_cons]
        by_cases hc : t.findChild c' = some i
        · obtain ⟨child', hchild', hvalue'⟩ := findChild_some hc
          rw [hchild] at hchild'
          cases hchild'
          have hword : findWord t (c' :: w) = findWord child w := by
            rw [findWord_cons, hc, Option.bind_some, hchild]
          rw [if_pos hc, hword, ← hvalue', ← hvalue]
          simp only [true_and]
          exact ih
        · have hne : c' ≠ c := by
            rintro rfl
            exact hc hfind
          rw [if_neg hc]
          simp [hne]

/-! ## Deletion -/

/-- The nodes that `Delete` comes through: the root, its first child, the second child of that one and so on. -/
def onWay (t : PrefixTree) (i : Nat) : Option PrefixTreeNode := nodeAt t (List.range i)

/-- Each character of a word is found below the node of its position. -/
def Found (t : PrefixTree) (w : List UInt8) : Prop :=
  ∀ i c, w[i]? = some c → ∃ n, onWay t i = some n ∧ n.findChild c ≠ none

/-- `Delete` reads only what there is: no prefix of the word leads behind the last child, and the word itself
not to a leaf that ends a word. -/
structure Deletable (t : PrefixTree) (w : List UInt8) : Prop where
  way : ∀ p, p <+: w → Found t p → onWay t p.length ≠ none
  leaf : Found t w → ∀ n, onWay t w.length = some n → n.childs = [] → n.isEnd = false

theorem onWay_succ (t : PrefixTree) (i : Nat) : onWay t (i + 1) = (onWay t i).bind fun n => n.childs[i]? := by
  rw [onWay, onWay, List.range_succ, nodeAt_append]
  congr 1
  funext n
  rw [nodeAt]
  cases n.childs[i]? <;> rfl

theorem onWay_of_le (hij : i ≤ j) (h : onWay t j ≠ none) : onWay t i ≠ none := by
  induction hij with
  | refl => exact h
  | step _ ih =>
    refine ih fun hnone => h ?_
    rw [onWay_succ, hnone, Option.bind_none]

theorem found_append (w : List UInt8) (c : UInt8) :
    Found t (w ++ [c]) ↔ Found t w ∧ ∃ n, onWay t w.length = some n ∧ n.findChild c ≠ none := by
  constructor
  · intro h
    refine ⟨fun i c' hi => h i c' ?_, h w.length c List.getElem?_concat_length⟩
    rwa [List.getElem?_append_left (List.getElem?_eq_some_iff.mp hi).1]
  · rintro ⟨h, hc⟩ i c' hi
    by_cases hlen : i < w.length
    · rw [List.getElem?_append_left hlen] at hi
      exact h i c' hi
    · rw [List.getElem?_append_right (by omega), List.getElem?_singleton] at hi
      split at hi
      · cases hi
        have hi' : i = w.length := by omega
        rw [hi']
        exact hc
      · cases hi

theorem Found.start (h : Found t w) (hp : v <+: w) : Found t v := by
  obtain ⟨u, rfl⟩ := hp
  intro i c hi
  refine h i c ?_
  rwa [List.getElem?_append_left (List.getElem?_eq_some_iff.mp hi).1]

/-- What becomes of the loop, from the node of position `w.length` on. -/
theorem deleteLoop_spec (hw : Found t w) (hn : onWay t w.length = some n) (k : Option Nat)
    (value : List UInt8) :
    (deleteLoop w.length k n value = none ∧
      ∃ p, p <+: value ∧ Found t (w ++ p) ∧ onWay t (w ++ p).length = none) ∨
    (deleteLoop w.length k n value = some .back ∧ ¬Found t (w ++ value) ∧
      ∀ p, p <+: value → Found t (w ++ p) → onWay t (w ++ p).length ≠ none) ∨
    ∃ k' m, deleteLoop w.length k n value = some (.ends k' m) ∧ Found t (w ++ value) ∧
      onWay t (w ++ value).length = some m := by
  induction value generalizing w n k with
  | nil =>
    refine .inr (.inr ⟨k, n, rfl, ?_⟩)
    rw [List.append_nil]
    exact ⟨hw, hn⟩
  | cons c value ih =>
    have hcons : ∀ p, w ++ c :: p = (w ++ [c]) ++ p := fun p => by simp
    have hstart : onWay t (w ++ []).length ≠ none := by
      rw [List.append_nil, hn]
      nofun
    rw [deleteLoop]
    cases hfind : n.findChild c with
    | none =>
      have hnot : ∀ p, ¬Found t (w ++ c :: p) := by
        intro p hp
        rw [hcons] at hp
        obtain ⟨-, n', hn', hc⟩ := (found_append w c).mp (hp.start (List.prefix_append ..))
        rw [hn] at hn'
        cases hn'
        exact hc hfind
      refine .inr (.inl ⟨rfl, hnot value, fun p hp hf => ?_⟩)
      cases p with
      | nil => exact hstart
      | cons c' p =>
        rw [List.cons_prefix_cons] at hp
        rw [hp.1] at hf
        exact absurd hf (hnot p)
    | some res =>
      have hw' : Found t (w ++ [c]) := (found_append w c).mpr ⟨hw, n, hn, by rw [hfind]; nofun⟩
      have hlen : (w ++ [c]).length = w.length + 1 := List.length_append
      have hnext : onWay t (w ++ [c]).length = n.childs[w.length]? := by
        rw [hlen, onWay_succ, hn, Option.bind_some]
      simp only
      cases hchild : n.childs[w.length]? with
      | none =>
        rw [hchild] at hnext
        exact .inl ⟨rfl, [c], List.prefix_append [c] value, hw', hnext⟩
      | some ptr =>
        rw [hchild] at hnext
        rw [← hlen]
        simp only
        obtain ⟨hl, p, hp, hf, ho⟩ | ⟨hl, hf, hall⟩ | ⟨k', m, hl, hf, hm⟩ :=
          ih hw' hnext (if 1 < n.childs.length then some res else k)
        · refine .inl ⟨hl, c :: p, List.cons_prefix_cons.mpr ⟨rfl, hp⟩, ?_⟩
          rw [hcons]
          exact ⟨hf, ho⟩
        · refine .inr (.inl ⟨hl, by rwa [hcons], fun p hp hfp => ?_⟩)
          cases p with
          | nil => exact hstart
          | cons c' p =>
            obtain ⟨rfl, hp'⟩ := List.cons_prefix_cons.mp hp
            rw [hcons] at hfp ⊢
            exact hall p hp' hfp
        · refine .inr (.inr ⟨k', m, hl, ?_⟩)
          rw [hcons]
          exact ⟨hf, hm⟩

theorem delete_cases (t : PrefixTree) (value : List UInt8) :
    (delete t value = none ∧ ¬Deletable t value) ∨
    (delete t value = some t ∧ Deletable t value ∧
      (Found t value → ∀ n, onWay t value.length = some n → n.isEnd = false)) ∨
    ∃ n, Found t value ∧ onWay t value.length = some n ∧ n.isEnd = true ∧ n.childs ≠ [] ∧ Deletable t value ∧
      delete t value = some (t.update (fun ptr => { ptr with isEnd := false }) (List.range value.length)) := by
  have hroot : Found t [] := nofun
  unfold delete
  obtain ⟨hl, p, hp, hf, ho⟩ | ⟨hl, hf, hall⟩ | ⟨k', m, hl, hf, hm⟩ :=
    deleteLoop_spec (n := t) hroot rfl none value
  · rw [List.nil_append] at hf ho
    simp only [List.length_nil] at hl
    rw [hl]
    exact .inl ⟨rfl, fun h => h.way p hp hf ho⟩
  · simp only [List.length_nil, List.nil_append] at hl hf hall
    rw [hl]
    exact .inr (.inl ⟨rfl, ⟨hall, fun h => absurd h hf⟩, fun h => absurd h hf⟩)
  · simp only [List.length_nil, List.nil_append] at hl hf hm
    rw [hl]
    have hway : ∀ p, p <+: value → Found t p → onWay t p.length ≠ none := by
      intro p hp _
      refine onWay_of_le hp.length_le ?_
      rw [hm]
      nofun
    have hone : ∀ n, onWay t value.length = some n → n = m := by
      intro n hn
      rw [hm] at hn
      exact (Option.some.inj hn).symm
    cases hend : m.isEnd with
    | false =>
      refine .inr (.inl ⟨if_pos hend, ⟨hway, fun _ n hn _ => ?_⟩, fun _ n hn => ?_⟩)
      · rw [hone n hn, hend]
      · rw [hone n hn, hend]
    | true =>
      have hne : ¬m.isEnd = false := by simp [hend]
      by_cases hchilds : m.childs = []
      · refine .inl ⟨?_, fun h => ?_⟩
        · have hread : (k'.bind fun i => m.childs[i]?) = none := by
            rw [hchilds]
            cases k' <;> rfl
          simp only [if_neg hne, hread]
          rw [if_neg (not_not_intro hchilds)]
        · exact hne (h.leaf hf m hm hchilds)
      · refine .inr (.inr ⟨m, hf, hm, hend, hchilds, ⟨hway, fun _ n hn hnil => ?_⟩, ?_⟩)
        · rw [hone n hn] at hnil
          exact absurd hnil hchilds
        · simp only [if_neg hne]
          rw [if_pos hchilds]

theorem delete_defined : delete t value ≠ none ↔ Deletable t value := by
  obtain ⟨h, hd⟩ | ⟨h, hd, -⟩ | ⟨n, -, -, -, -, hd, h⟩ := delete_cases t value
  · rw [h]
    exact ⟨absurd rfl, fun hd' => absurd hd' hd⟩
  · rw [h]
    exact ⟨fun _ => hd, fun _ => nofun⟩
  · rw [h]
    exact ⟨fun _ => hd, fun _ => nofun⟩

theorem delete_same : delete t value = some t ↔
    Deletable t value ∧ (Found t value → ∀ n, onWay t value.length = some n → n.isEnd = false) := by
  obtain ⟨h, hd⟩ | ⟨h, hd, hsame⟩ | ⟨n, hf, hn, hend, -, hd, h⟩ := delete_cases t value
  · rw [h]
    exact ⟨nofun, fun hd' => absurd hd'.1 hd⟩
  · exact ⟨fun _ => ⟨hd, hsame⟩, fun _ => h⟩
  · have hchanged : nodeAt (t.update (fun ptr => { ptr with isEnd := false }) (List.range value.length))
        (List.range value.length) = some { n with isEnd := false } := nodeAt_update hn
    constructor
    · intro hsame
      rw [h] at hsame
      rw [Option.some.inj hsame, ← onWay, hn] at hchanged
      have hflag := congrArg PrefixTreeNode.isEnd (Option.some.inj hchanged)
      rw [hend] at hflag
      cases hflag
    · rintro ⟨-, hfalse⟩
      rw [hfalse hf n hn] at hend
      cases hend

/-- The words are found by the characters alone. -/
theorem findWord_unmark (hm : nodeAt t pos = some m) :
    findWord (t.update (fun ptr => { ptr with isEnd := false }) pos) w = findWord t w := by
  induction pos generalizing t w with
  | nil => cases w <;> rfl
  | cons i pos ih =>
    cases w with
    | nil => rfl
    | cons c w =>
      obtain ⟨child, hchild, hm'⟩ := nodeAt_cons hm
      rw [findWord_update (f := fun ptr => { ptr with isEnd := false }) hm rfl hchild, ih hm']
      split
      · rename_i hc
        rw [findWord_cons, hc, Option.bind_some, hchild]
      · rfl

/-- A deletion takes no word out of the tree, and keeps its shape. -/
theorem delete_keeps {t' : PrefixTree} (hs : Shape 0 t) (h : delete t value = some t') :
    Shape 0 t' ∧ ∀ w, findWord t' w = findWord t w := by
  obtain ⟨h', -⟩ | ⟨h', -⟩ | ⟨n, -, hn, -, hchilds, -, h'⟩ := delete_cases t value
  · rw [h'] at h
    cases h
  · rw [h'] at h
    cases h
    exact ⟨hs, fun _ => rfl⟩
  · rw [h'] at h
    cases h
    have hsn := hs.nodeAt hn
    refine ⟨(hs.update hn rfl ?_ fun hnil => absurd hnil hchilds).1, fun w => findWord_unmark hn⟩
    exact .node hsn.height hsn.nodup (fun _ => hsn.childs) fun _ => hsn.leaf

end PrefixTree
end Idmbs
