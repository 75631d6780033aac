import Idmbs.Common.Re
import Idmbs.Common.LowerBound

/-!
# Idmbs.BPlusTree.Node

Index pages and the operations of `LeafIndexNodeHandler` and `InternalIndexNodeHandler` that stay
inside one page (storage/b_plus_tree.cpp).

A page holding a node is one record: `entries` is the item array of a leaf, `children` that of an
internal node, and each list is exactly as long as the `key_num` of the page. Keys are pairs of the
attribute value and the record id (`MakeKey`); the comparator is a parameter.
-/

namespace Idmbs

/-- What `MakeKey` builds: the attribute bytes followed by the record id. -/
structure Key (α : Type) where
  attr : α
  rid : RecordId
  deriving DecidableEq, Repr, Inhabited

/-- `KeyComparator::operator()`: the attribute decides, then the record id. -/
def keyComparator {α : Type} (attrComparator : α → α → Int)
    (ridCompare : RecordId → RecordId → Int) (v1 v2 : Key α) : Int :=
  let result := attrComparator v1.attr v2.attr
  if result ≠ 0 then result else ridCompare v1.rid v2.rid

structure IndexFileHeader where
  rootPageId : Option PageId
  internalMaxSize : Nat
  leafMaxSize : Nat
  attrType : AttrType
  deriving DecidableEq, Repr, Inhabited

/-- `IndexNode` with the fields of `LeafIndexNode` and of `InternalIndexNode`. -/
structure IndexNode (α : Type) where
  isLeaf : Bool
  parent : Option PageId
  prevBrother : Option PageId
  nextBrother : Option PageId
  entries : List (Key α × RecordId)
  children : List (Key α × PageId)
  deriving DecidableEq, Repr

/-- The template argument `IndexNodeHandlerType`. -/
inductive NodeKind where
  | leaf | internal
  deriving DecidableEq, Repr

/-- A page whose bytes are all zero, read as a node. -/
instance {α : Type} : Inhabited (IndexNode α) :=
  ⟨⟨false, some 0, some 0, some 0, [], []⟩⟩

namespace IndexNode

variable {α : Type}

/-- `InitEmpty` of the handler named by `kind`. -/
def initEmpty (kind : NodeKind) (n : IndexNode α) : IndexNode α :=
  match kind with
  | .leaf => { n with isLeaf := true, parent := none, prevBrother := none, nextBrother := none,
                      entries := [], children := [] }
  | .internal => { n with isLeaf := false, parent := none, entries := [], children := [] }

def size (n : IndexNode α) : Nat := if n.isLeaf then n.entries.length else n.children.length

/-! ## `LeafIndexNodeHandler` -/

/-- `LookUp`: insert position and whether the key is there. -/
def leafLookUp (cmp : Key α → Key α → Int) (key : Key α) (n : IndexNode α) : Nat × Bool :=
  findLowerBound (fun k => cmp k key) (n.entries.map Prod.fst)

def leafInsert (index : Nat) (key : Key α) (value : RecordId) (n : IndexNode α) : IndexNode α :=
  { n with entries := n.entries.take index ++ (key, value) :: n.entries.drop index }

/-- `Remove(key, comparator)`: how many items went, and the node afterwards. -/
def leafRemove (cmp : Key α → Key α → Int) (key : Key α) (n : IndexNode α) :
    Nat × IndexNode α :=
  match n.leafLookUp cmp key with
  | (index, found) =>
    if found then (1, { n with entries := n.entries.eraseIdx index }) else (0, n)

/-! ## `InternalIndexNodeHandler` -/

section Internal

variable [Inhabited α]

def keyAt (n : IndexNode α) (index : Nat) : Key α := (n.children.map Prod.fst).getD index default

def valueAt (n : IndexNode α) (index : Nat) : PageId := (n.children.map Prod.snd).getD index 0

/-- `GetKeyAt` of the handler named by `kind`. -/
def itemKeyAt (kind : NodeKind) (n : IndexNode α) (index : Nat) : Key α :=
  match kind with
  | .leaf => (n.entries.map Prod.fst).getD index default
  | .internal => n.keyAt index

/-- `LookUp`: the index of the child the key belongs to, and the insert position. Key 0 is not
looked at. -/
def internalLookUp (cmp : Key α → Key α → Int) (key : Key α) (n : IndexNode α) : Nat × Nat :=
  if n.children = [] then (0, 1)
  else
    let ret := (findLowerBound (fun k => cmp k key) (n.children.tail.map Prod.fst)).1 + 1
    if n.children.length ≤ ret ∨ cmp key (n.keyAt ret) < 0 then (ret - 1, ret) else (ret, ret)

def internalInsert (cmp : Key α → Key α → Int) (key : Key α) (page : PageId)
    (n : IndexNode α) : IndexNode α :=
  let position := (n.internalLookUp cmp key).2
  { n with children := n.children.take position ++ (key, page) :: n.children.drop position }

/-- `CreateNewRoot`: key 0 is filled with zero bytes. -/
def createNewRoot (firstPage : PageId) (key : Key α) (page : PageId) (n : IndexNode α) :
    IndexNode α :=
  { n with children := [(default, firstPage), (key, page)] }

end Internal

def internalRemove (index : Nat) (n : IndexNode α) : IndexNode α :=
  { n with children := n.children.eraseIdx index }

def setKeyAt (index : Nat) (key : Key α) (n : IndexNode α) : IndexNode α :=
  { n with children := n.children.modify index fun item => (key, item.2) }

end IndexNode

end Idmbs
