import Idmbs.BPlusTree.Handler

/-!
# Idmbs.BPlusTree.Checks

What `InsertEntry` and `DeleteEntry` assert on their way (storage/b_plus_tree.cpp): every call of
`GetKeyAt`, `GetValueAt`, `SetKeyAt` and `Remove` asserts that its index is in range, and nothing
asserts that a node has room for the item it is given. Each `…Checks` goes through the function it is
named after, with the same pages and the same states, and collects both.
-/

namespace Idmbs

namespace BplusTreeHandler

variable {α : Type} [Inhabited α]

/-! ## Search -/

/-- The `GetValueAt` of each step down. -/
def findLeafLoopChecks (cmp : Key α → Key α → Int) (key : Key α) :
    Nat → PageId → BplusTreeHandler α → Prop
  | 0, _, _ => True
  | fuel + 1, p, s =>
    if (s.node p).isLeaf then True
    else
      let index := ((s.node p).internalLookUp cmp key).1
      index < (s.node p).size ∧
        match (s.unpinPage p).getPage ((s.node p).valueAt index) with
        | (r, s') =>
          if r ≠ .success then True
          else findLeafLoopChecks cmp key fuel ((s.node p).valueAt index) s'

def findLeafChecks (cmp : Key α → Key α → Int) (key : Key α) (s : BplusTreeHandler α) : Prop :=
  match s.fileHeader.rootPageId with
  | none => True
  | some root =>
    match s.getPage root with
    | (r, s) => if r ≠ .success then True else findLeafLoopChecks cmp key s.fuel root s

/-! ## Insertion -/

def insertEntryIntoParentChecks (cmp : Key α → Key α → Int) :
    Nat → PageId → PageId → Key α → BplusTreeHandler α → Prop
  | 0, _, _, _, _ => True
  | fuel + 1, frame, newFrame, key, s =>
    match (s.node frame).parent with
    | none => 2 ≤ s.maxSize .internal
    | some parent =>
      match s.getPage parent with
      | (r, s) =>
        if r ≠ .success then True
        else if (s.node parent).size < s.maxSize .internal then True
        else
          match s.split .internal parent with
          | (r, newParent, s) =>
            if r ≠ .success then True
            else
              let target := if 0 < cmp key ((s.node newParent).keyAt 0) then newParent else parent
              0 < (s.node newParent).size ∧ (s.node target).size < s.maxSize .internal ∧
                let s := s.modifyNode target (IndexNode.internalInsert cmp key newFrame)
                let s := s.setParentPageId newFrame (some target)
                let s := (s.unpinPage frame).unpinPage newFrame
                0 < (s.node newParent).size ∧
                  insertEntryIntoParentChecks cmp fuel parent newParent
                    ((s.node newParent).keyAt 0) s

def insertEntryIntoLeafNodeChecks (cmp : Key α → Key α → Int) (frame : PageId) (key : Key α)
    (rid : RecordId) (s : BplusTreeHandler α) : Prop :=
  match (s.node frame).leafLookUp cmp key with
  | (position, found) =>
    if found then True
    else if (s.node frame).size < s.maxSize .leaf then True
    else
      match s.split .leaf frame with
      | (r, newFrame, s) =>
        if r ≠ .success then True
        else
          let s := s.setPrevPage newFrame (some frame)
          let s := s.setNextPage newFrame (s.node frame).nextBrother
          let s := s.setParentPageId newFrame (s.node frame).parent
          let s := s.setNextPage frame (some newFrame)
          match relinkNext newFrame (s.node newFrame).nextBrother s with
          | (r, s) =>
            if r ≠ .success then True
            else
              let size := (s.node frame).size
              let target := if position < size then frame else newFrame
              (s.node target).size < s.maxSize .leaf ∧
                let s :=
                  if position < size then s.modifyNode frame (IndexNode.leafInsert position key rid)
                  else s.modifyNode newFrame (IndexNode.leafInsert (position - size) key rid)
                0 < (s.node newFrame).size ∧
                  insertEntryIntoParentChecks cmp s.fuel frame newFrame
                    ((s.node newFrame).itemKeyAt .leaf 0) s

def insertEntryChecks (cmp : Key α → Key α → Int) (userKey : α) (rid : RecordId)
    (s : BplusTreeHandler α) : Prop :=
  let key : Key α := ⟨userKey, rid⟩
  if s.isEmpty then 1 ≤ s.maxSize .leaf
  else
    findLeafChecks cmp key s ∧
      match s.findLeaf cmp key with
      | (r, frame, s) =>
        if r ≠ .success then True else insertEntryIntoLeafNodeChecks cmp frame key rid s

/-! ## Deletion -/

/-- An internal root hands over to the child that `GetValueAt(0)` gives. -/
def adjustRootChecks (root : PageId) (s : BplusTreeHandler α) : Prop :=
  (s.node root).isLeaf = false → 0 < (s.node root).size

/-- One item goes from the neighbour to `frame`. When it is the neighbour's first, the parent gets
the key of the item behind it. -/
def redistributeChecks (kind : NodeKind) (neighbor frame parent : PageId) (index : Nat)
    (s : BplusTreeHandler α) : Prop :=
  (s.node frame).size < s.maxSize kind ∧ 0 < (s.node neighbor).size ∧
    if index = 0 then index + 1 < (s.node parent).size ∧ 1 < (s.node neighbor).size
    else index < (s.node parent).size

/-- The `Remove` in the parent, and room for the items that move. -/
def coalesceChecks (kind : NodeKind) (neighbor frame parent : PageId) (index : Nat)
    (s : BplusTreeHandler α) : Prop :=
  (if index = 0 then 1 else index) < (s.node parent).size ∧
    (s.node frame).size + (s.node neighbor).size ≤ s.maxSize kind

def coalesceOrRedistributeChecks (cmp : Key α → Key α → Int) :
    Nat → NodeKind → PageId → BplusTreeHandler α → Prop
  | 0, _, _, _ => True
  | fuel + 1, kind, frame, s =>
    let n := s.node frame
    if s.minSize kind ≤ n.size then True
    else
      match n.parent with
      | none => if 1 < n.size then True else adjustRootChecks frame s
      | some parent =>
        match s.getPage parent with
        | (r, s) =>
          if r ≠ .success then True
          else
            -- `GetKeyAt(GetSize() - 1)`
            0 < n.size ∧
              let index := ((s.node parent).internalLookUp cmp (n.itemKeyAt kind (n.size - 1))).1
              let neighbor := (s.node parent).valueAt (if index = 0 then 1 else index - 1)
              index < (s.node parent).size ∧
                (if index = 0 then 1 else index - 1) < (s.node parent).size ∧
                match s.getPage neighbor with
                | (r, s) =>
                  if r ≠ .success then True
                  else if s.maxSize kind < n.size + (s.node neighbor).size then
                    redistributeChecks kind neighbor frame parent index s
                  else
                    coalesceChecks kind neighbor frame parent index s ∧
                      -- `Coalesce` goes on in the parent
                      match coalesce (fun _ s => (.success, s)) kind neighbor frame parent index s with
                      | (r, s) =>
                        if r ≠ .success then True
                        else coalesceOrRedistributeChecks cmp fuel .internal parent s

def deleteEntryInternalChecks (cmp : Key α → Key α → Int) (leaf : PageId) (key : Key α)
    (s : BplusTreeHandler α) : Prop :=
  match (s.node leaf).leafLookUp cmp key, (s.node leaf).leafRemove cmp key with
  | (index, found), (removeCount, n) =>
    (found = true → index < (s.node leaf).size) ∧
      let s := s.setNode leaf n
      if removeCount = 0 then True
      else
        let s := s.dirtyMark leaf
        if s.minSize .leaf ≤ (s.node leaf).size then True
        else coalesceOrRedistributeChecks cmp s.fuel .leaf leaf s

def deleteEntryChecks (cmp : Key α → Key α → Int) (userKey : α) (rid : RecordId)
    (s : BplusTreeHandler α) : Prop :=
  let key : Key α := ⟨userKey, rid⟩
  findLeafChecks cmp key s ∧
    match s.findLeaf cmp key with
    | (r, leaf, s) => if r ≠ .success then True else deleteEntryInternalChecks cmp leaf key s

end BplusTreeHandler

end Idmbs
