import Idmbs.BPlusTree.Node
import Idmbs.Storage.PagePool

/-!
# Idmbs.BPlusTree.Handler

`BplusTreeHandler` (storage/b_plus_tree.cpp): search, insertion and deletion over the pages of one
index file. A `Frame *` is the id of the page it holds, since a pinned frame keeps its page.

Functions return the code of the source function and the handler afterwards, also where the source
ignores the code. The two walks up the tree (`insertEntryIntoParent`, `coalesceOrRedistribute`) and
the walk down (`findLeafLoop`) follow page links, so they carry fuel; `fuel` is one more than the
number of pages in the file, which no walk without a cycle exceeds.
-/

namespace Idmbs

/-- Contents of a page of an index file: page 1 is the header, the others are nodes. -/
inductive IndexPage (α : Type) where
  | header (h : IndexFileHeader)
  | node (n : IndexNode α)
  deriving DecidableEq, Repr

instance {α : Type} : Inhabited (IndexPage α) := ⟨.node default⟩

def IndexPage.asNode {α : Type} : IndexPage α → IndexNode α
  | .node n => n
  | .header _ => default

@[simp] theorem IndexPage.asNode_node {α : Type} (n : IndexNode α) :
    (IndexPage.node n).asNode = n := rfl

def firstIndexPage : PageId := 1

structure BplusTreeHandler (α : Type) where
  fileHeader : IndexFileHeader
  pool : PagePool (IndexPage α)

namespace BplusTreeHandler

variable {α : Type} [Inhabited α]

/-! ## Pages and frames -/

section Frames

omit [Inhabited α]

def node (s : BplusTreeHandler α) (p : PageId) : IndexNode α := (s.pool.pageData p).asNode

def setNode (s : BplusTreeHandler α) (p : PageId) (n : IndexNode α) : BplusTreeHandler α :=
  { s with pool := s.pool.setData p (.node n) }

def modifyNode (s : BplusTreeHandler α) (p : PageId) (f : IndexNode α → IndexNode α) :
    BplusTreeHandler α :=
  s.setNode p (f (s.node p))

/-- `SetParentPageId` on the node in frame `p`. -/
def setParentPageId (s : BplusTreeHandler α) (p : PageId) (parent : Option PageId) :
    BplusTreeHandler α :=
  s.modifyNode p fun n => { n with parent := parent }

def setPrevPage (s : BplusTreeHandler α) (p : PageId) (prev : Option PageId) :
    BplusTreeHandler α :=
  s.modifyNode p fun n => { n with prevBrother := prev }

def setNextPage (s : BplusTreeHandler α) (p : PageId) (next : Option PageId) :
    BplusTreeHandler α :=
  s.modifyNode p fun n => { n with nextBrother := next }

def dirtyMark (s : BplusTreeHandler α) (p : PageId) : BplusTreeHandler α :=
  { s with pool := s.pool.dirtyMark p }

def unpinPage (s : BplusTreeHandler α) (p : PageId) : BplusTreeHandler α :=
  { s with pool := s.pool.unpinPage p }

def disposePage (s : BplusTreeHandler α) (p : PageId) : BplusTreeHandler α :=
  { s with pool := (s.pool.disposePage p).2 }

def getPage (s : BplusTreeHandler α) (p : PageId) : Re × BplusTreeHandler α :=
  match s.pool.getPage p with
  | (r, pool) => (r, { s with pool := pool })

def allocatePage (s : BplusTreeHandler α) : Re × PageId × BplusTreeHandler α :=
  match s.pool.allocatePage with
  | (r, p, pool) => (r, p, { s with pool := pool })

def setRoot (s : BplusTreeHandler α) (root : Option PageId) : BplusTreeHandler α :=
  { s with fileHeader := { s.fileHeader with rootPageId := root } }

def fuel (s : BplusTreeHandler α) : Nat := s.pool.pagesNum + 1

def maxSize (s : BplusTreeHandler α) : NodeKind → Nat
  | .leaf => s.fileHeader.leafMaxSize
  | .internal => s.fileHeader.internalMaxSize

def minSize (s : BplusTreeHandler α) (kind : NodeKind) : Nat :=
  s.maxSize kind - s.maxSize kind / 2

def isEmpty (s : BplusTreeHandler α) : Bool := s.fileHeader.rootPageId.isNone

def updateRootPageId (s : BplusTreeHandler α) : Re × BplusTreeHandler α :=
  match s.getPage firstIndexPage with
  | (r, s) =>
    if r ≠ .success then (r, s)
    else
      let s := match s.pool.pageData firstIndexPage with
        | .header h =>
          let h := { h with rootPageId := s.fileHeader.rootPageId }
          { s with pool := s.pool.setData firstIndexPage (.header h) }
        | .node _ => s
      (r, (s.dirtyMark firstIndexPage).unpinPage firstIndexPage)

/-- `Create`, from the point where the new file has been opened as `pool`. -/
def create (attrType : AttrType) (internalMaxSize leafMaxSize : Nat) (pool : PagePool (IndexPage α)) :
    Except Re (BplusTreeHandler α) :=
  match pool.allocatePage with
  | (r, p, pool) =>
    if r ≠ .success then .error r
    else if p ≠ firstIndexPage then .error .internal
    else
      let h : IndexFileHeader := ⟨none, internalMaxSize, leafMaxSize, attrType⟩
      .ok ⟨h, ((pool.setData p (.header h)).dirtyMark p).unpinPage p⟩

end Frames

/-! ## Moving items between nodes -/

/-- The loop of `CopyFrom` over the copied items: each child learns its new parent. -/
def adoptChildren (this : PageId) : List PageId → BplusTreeHandler α → Re × BplusTreeHandler α
  | [], s => (.success, s)
  | p :: ps, s =>
    match s.getPage p with
    | (r, s) =>
      if r ≠ .success then (r, s)
      else adoptChildren this ps (((s.setParentPageId p (some this)).dirtyMark p).unpinPage p)

/-- `CopyFrom` of an internal node. -/
def copyFrom (this : PageId) (items : List (Key α × PageId)) (s : BplusTreeHandler α) :
    Re × BplusTreeHandler α :=
  match adoptChildren this (items.map Prod.snd) s with
  | (r, s) =>
    if r ≠ .success then (r, s)
    else (.success, s.modifyNode this fun n => { n with children := n.children ++ items })

/-- `Preappend` of an internal node. -/
def preappend (this : PageId) (item : Key α × PageId) (s : BplusTreeHandler α) :
    Re × BplusTreeHandler α :=
  match adoptChildren this [item.2] s with
  | (r, s) =>
    if r ≠ .success then (r, s)
    else (.success, s.modifyNode this fun n => { n with children := item :: n.children })

/-- `MoveHalfTo`; `other` is freshly initialised. -/
def moveHalfTo (kind : NodeKind) (this other : PageId) (s : BplusTreeHandler α) :
    Re × BplusTreeHandler α :=
  let n := s.node this
  let moveIndex := n.size / 2
  match kind with
  | .leaf =>
    let s := s.modifyNode other fun o => { o with entries := n.entries.drop moveIndex }
    (.success, s.modifyNode this fun n => { n with entries := n.entries.take moveIndex })
  | .internal =>
    match copyFrom other (n.children.drop moveIndex) s with
    | (r, s) =>
      if r ≠ .success then (r, s)
      else (.success, s.modifyNode this fun n => { n with children := n.children.take moveIndex })

/-- `MoveTo`: all items go behind those of `other`; a leaf also leaves the chain of leaves. -/
def moveTo (kind : NodeKind) (this other : PageId) (s : BplusTreeHandler α) :
    Re × BplusTreeHandler α :=
  let n := s.node this
  match kind with
  | .leaf =>
    let s := s.modifyNode other fun o => { o with entries := o.entries ++ n.entries }
    let s := s.modifyNode this fun n => { n with entries := [] }
    let s := s.setNextPage other n.nextBrother
    match n.nextBrother with
    | none => (.success, s)
    | some next =>
      match s.getPage next with
      | (r, s) =>
        if r ≠ .success then (r, s)
        else (.success, ((s.setPrevPage next (some other)).dirtyMark next).unpinPage next)
  | .internal =>
    match copyFrom other n.children s with
    | (r, s) =>
      if r ≠ .success then (r, s)
      else (.success, s.modifyNode this fun n => { n with children := [] })

def moveFirstToEnd (kind : NodeKind) (this other : PageId) (s : BplusTreeHandler α) :
    Re × BplusTreeHandler α :=
  let n := s.node this
  match kind with
  | .leaf =>
    let s := s.modifyNode other fun o => { o with entries := o.entries ++ n.entries.take 1 }
    (.success, s.modifyNode this fun n => { n with entries := n.entries.tail })
  | .internal =>
    match copyFrom other (n.children.take 1) s with
    | (r, s) =>
      if r ≠ .success then (r, s)
      else (.success, s.modifyNode this fun n => { n with children := n.children.tail })

def moveLastToFront (kind : NodeKind) (this other : PageId) (s : BplusTreeHandler α) :
    Re × BplusTreeHandler α :=
  let n := s.node this
  match kind with
  | .leaf =>
    match n.entries.getLast? with
    | none => (.success, s)
    | some item =>
      let s := s.modifyNode other fun o => { o with entries := item :: o.entries }
      (.success, s.modifyNode this fun n => { n with entries := n.entries.dropLast })
  | .internal =>
    match n.children.getLast? with
    | none => (.success, s)
    | some item =>
      match preappend other item s with
      | (r, s) =>
        if r ≠ .success then (r, s)
        else (.success, s.modifyNode this fun n => { n with children := n.children.dropLast })

/-! ## Search -/

/-- The `while` loop of `FindLeafInternal`, entered with the frame `p` pinned. -/
def findLeafLoop (childPageGetter : IndexNode α → PageId) :
    Nat → PageId → BplusTreeHandler α → Re × PageId × BplusTreeHandler α
  | 0, p, s => (.genericError, p, s)
  | fuel + 1, p, s =>
    if (s.node p).isLeaf then (.success, p, s)
    else
      let child := childPageGetter (s.node p)
      match (s.unpinPage p).getPage child with
      | (r, s) => if r ≠ .success then (r, child, s) else findLeafLoop childPageGetter fuel child s

def findLeafInternal (childPageGetter : IndexNode α → PageId) (s : BplusTreeHandler α) :
    Re × PageId × BplusTreeHandler α :=
  match s.fileHeader.rootPageId with
  | none => (.empty, 0, s)
  | some root =>
    match s.getPage root with
    | (r, s) => if r ≠ .success then (r, root, s) else findLeafLoop childPageGetter s.fuel root s

def findLeaf (cmp : Key α → Key α → Int) (key : Key α) (s : BplusTreeHandler α) :
    Re × PageId × BplusTreeHandler α :=
  findLeafInternal (fun n => n.valueAt (n.internalLookUp cmp key).1) s

def leftMostPage (s : BplusTreeHandler α) : Re × PageId × BplusTreeHandler α :=
  findLeafInternal (fun n => n.valueAt 0) s

def rightMostPage (s : BplusTreeHandler α) : Re × PageId × BplusTreeHandler α :=
  findLeafInternal (fun n => n.valueAt (n.children.length - 1)) s

/-- The leaf `next`, if there is one, is told its new left neighbour. `InsertEntryIntoLeafNode` and
`Coalesce` do this; neither marks the frame of `next` dirty. -/
def relinkNext (prev : PageId) : Option PageId → BplusTreeHandler α → Re × BplusTreeHandler α
  | none, s => (.success, s)
  | some next, s =>
    match s.getPage next with
    | (r, s) =>
      if r ≠ .success then (r, s)
      else (.success, (s.setPrevPage next (some prev)).unpinPage next)

/-! ## Insertion -/

/-- `Split`: the upper half of `frame` moves to a new page. -/
def split (kind : NodeKind) (frame : PageId) (s : BplusTreeHandler α) :
    Re × PageId × BplusTreeHandler α :=
  match s.allocatePage with
  | (r, newFrame, s) =>
    if r ≠ .success then (r, newFrame, s)
    else
      let s := s.modifyNode newFrame (IndexNode.initEmpty kind)
      let s := s.setParentPageId newFrame (s.node frame).parent
      let s := (moveHalfTo kind frame newFrame s).2
      (.success, newFrame, (s.dirtyMark frame).dirtyMark newFrame)

/-- `InsertEntryIntoParent`: `newFrame` was split off `frame` at `key`. -/
def insertEntryIntoParent (cmp : Key α → Key α → Int) :
    Nat → PageId → PageId → Key α → BplusTreeHandler α → Re × BplusTreeHandler α
  | 0, _, _, _, s => (.genericError, s)
  | fuel + 1, frame, newFrame, key, s =>
    match (s.node frame).parent with
    | none =>
      match s.allocatePage with
      | (r, root, s) =>
        if r ≠ .success then (r, s)
        else
          let s := s.modifyNode root fun n => (n.initEmpty .internal).createNewRoot frame key newFrame
          let s := s.setParentPageId frame (some root)
          let s := s.setParentPageId newFrame (some root)
          let s := (((s.dirtyMark frame).dirtyMark newFrame).unpinPage frame).unpinPage newFrame
          let s := ((s.setRoot (some root)).updateRootPageId).2
          (.success, (s.dirtyMark root).unpinPage root)
    | some parent =>
      match s.getPage parent with
      | (r, s) =>
        if r ≠ .success then (r, s)
        else if (s.node parent).size < s.maxSize .internal then
          let s := s.modifyNode parent (IndexNode.internalInsert cmp key newFrame)
          let s := s.setParentPageId newFrame (some parent)
          let s := ((s.dirtyMark frame).dirtyMark newFrame).dirtyMark parent
          (.success, ((s.unpinPage frame).unpinPage newFrame).unpinPage parent)
        else
          match s.split .internal parent with
          | (r, newParent, s) =>
            if r ≠ .success then
              (.success, ((s.unpinPage frame).unpinPage newFrame).unpinPage parent)
            else
              -- the comparison with the first key of the new node picks the side
              let target := if 0 < cmp key ((s.node newParent).keyAt 0) then newParent else parent
              let s := s.modifyNode target (IndexNode.internalInsert cmp key newFrame)
              let s := s.setParentPageId newFrame (some target)
              let s := (s.unpinPage frame).unpinPage newFrame
              let key' := (s.node newParent).keyAt 0
              (.success, (insertEntryIntoParent cmp fuel parent newParent key' s).2)

def insertEntryIntoLeafNode (cmp : Key α → Key α → Int) (frame : PageId) (key : Key α)
    (rid : RecordId) (s : BplusTreeHandler α) : Re × BplusTreeHandler α :=
  match (s.node frame).leafLookUp cmp key with
  | (position, found) =>
    if found then (.recordDuplicateKey, s)
    else if (s.node frame).size < s.maxSize .leaf then
      let s := s.modifyNode frame (IndexNode.leafInsert position key rid)
      (.success, (s.dirtyMark frame).unpinPage frame)
    else
      match s.split .leaf frame with
      | (r, newFrame, s) =>
        if r ≠ .success then (r, s)
        else
          let s := s.setPrevPage newFrame (some frame)
          let s := s.setNextPage newFrame (s.node frame).nextBrother
          let s := s.setParentPageId newFrame (s.node frame).parent
          let s := s.setNextPage frame (some newFrame)
          match relinkNext newFrame (s.node newFrame).nextBrother s with
          | (r, s) =>
            if r ≠ .success then (r, s)
            else
              let size := (s.node frame).size
              let s :=
                if position < size then s.modifyNode frame (IndexNode.leafInsert position key rid)
                else s.modifyNode newFrame (IndexNode.leafInsert (position - size) key rid)
              insertEntryIntoParent cmp s.fuel frame newFrame
                ((s.node newFrame).itemKeyAt .leaf 0) s

def createNewTree (key : Key α) (rid : RecordId) (s : BplusTreeHandler α) :
    Re × BplusTreeHandler α :=
  if !s.isEmpty then (.internal, s)
  else
    match s.allocatePage with
    | (r, frame, s) =>
      if r ≠ .success then (r, s)
      else
        let s := s.modifyNode frame fun n => (n.initEmpty .leaf).leafInsert 0 key rid
        let s := (s.setRoot (some frame)).dirtyMark frame
        (.success, (s.unpinPage frame).updateRootPageId.2)

def insertEntry (cmp : Key α → Key α → Int) (userKey : α) (rid : RecordId)
    (s : BplusTreeHandler α) : Re × BplusTreeHandler α :=
  let key : Key α := ⟨userKey, rid⟩
  if s.isEmpty then createNewTree key rid s
  else
    match s.findLeaf cmp key with
    | (r, frame, s) =>
      if r ≠ .success then (r, s)
      else
        match insertEntryIntoLeafNode cmp frame key rid s with
        | (r, s) => if r ≠ .success then (r, s.unpinPage frame) else (.success, s)

/-! ## Deletion -/

/-- The middle of `AdjustRoot`: an empty leaf leaves no tree, an internal root with one child
gives way to that child. The frame of the child is not marked dirty. -/
def lowerRoot (n : IndexNode α) (s : BplusTreeHandler α) : Re × BplusTreeHandler α :=
  if n.isLeaf then (.success, s.setRoot none)
  else
    let child := n.valueAt 0
    match s.getPage child with
    | (r, s) =>
      if r ≠ .success then (r, s)
      else (.success, ((s.setParentPageId child none).unpinPage child).setRoot (some child))

def adjustRoot (root : PageId) (s : BplusTreeHandler α) : Re × BplusTreeHandler α :=
  let n := s.node root
  if n.isLeaf ∧ 0 < n.size then (.success, (s.dirtyMark root).unpinPage root)
  else
    match lowerRoot n s with
    | (r, s) =>
      if r ≠ .success then (r, s)
      else (.success, (s.updateRootPageId.2.unpinPage root).disposePage root)

/-- `Redistribute`: one item moves over from the neighbour. -/
def redistribute (kind : NodeKind) (neighbor frame parent : PageId) (index : Nat)
    (s : BplusTreeHandler α) : Re × BplusTreeHandler α :=
  let s :=
    if index = 0 then
      let s := (moveFirstToEnd kind neighbor frame s).2
      s.modifyNode parent
        (IndexNode.setKeyAt (index + 1) ((s.node neighbor).itemKeyAt kind 0))
    else
      let s := (moveLastToFront kind neighbor frame s).2
      s.modifyNode parent (IndexNode.setKeyAt index ((s.node frame).itemKeyAt kind 0))
  let s := ((s.dirtyMark neighbor).dirtyMark frame).dirtyMark parent
  (.success, ((s.unpinPage parent).unpinPage neighbor).unpinPage frame)

/-- The part of `Coalesce` for leaves: the chain skips the right node. -/
def unlinkLeaf (left right : PageId) (s : BplusTreeHandler α) : Re × BplusTreeHandler α :=
  if !(s.node left).isLeaf then (.success, s)
  else
    let s := s.setNextPage left (s.node right).nextBrother
    relinkNext left (s.node right).nextBrother s

/-- `Coalesce` up to its last line, which continues with the parent: `next`. -/
def coalesce (next : PageId → BplusTreeHandler α → Re × BplusTreeHandler α) (kind : NodeKind)
    (neighbor frame parent : PageId) (index : Nat) (s : BplusTreeHandler α) :
    Re × BplusTreeHandler α :=
  -- at index 0 the neighbour is the right one of the two
  let left := if index = 0 then frame else neighbor
  let right := if index = 0 then neighbor else frame
  let index := if index = 0 then 1 else index
  let s := s.modifyNode parent (IndexNode.internalRemove index)
  match moveTo kind right left s with
  | (r, s) =>
    if r ≠ .success then (r, s)
    else
      match unlinkLeaf left right s with
      | (r, s) =>
        if r ≠ .success then (r, ((s.unpinPage frame).unpinPage neighbor).unpinPage parent)
        else next parent (((s.unpinPage left).unpinPage right).disposePage right)

def coalesceOrRedistribute (cmp : Key α → Key α → Int) :
    Nat → NodeKind → PageId → BplusTreeHandler α → Re × BplusTreeHandler α
  | 0, _, _, s => (.genericError, s)
  | fuel + 1, kind, frame, s =>
    let n := s.node frame
    if s.minSize kind ≤ n.size then (.success, s.unpinPage frame)
    else
      match n.parent with
      | none =>
        if 1 < n.size then (.success, s.unpinPage frame) else (.success, (s.adjustRoot frame).2)
      | some parent =>
        match s.getPage parent with
        | (r, s) =>
          if r ≠ .success then (r, s.unpinPage frame)
          else
            let index := ((s.node parent).internalLookUp cmp (n.itemKeyAt kind (n.size - 1))).1
            let neighbor := (s.node parent).valueAt (if index = 0 then 1 else index - 1)
            match s.getPage neighbor with
            | (r, s) =>
              if r ≠ .success then (r, (s.unpinPage frame).unpinPage parent)
              else if s.maxSize kind < n.size + (s.node neighbor).size then
                redistribute kind neighbor frame parent index s
              else
                coalesce (coalesceOrRedistribute cmp fuel .internal) kind neighbor frame parent
                  index s

def deleteEntryInternal (cmp : Key α → Key α → Int) (leaf : PageId) (key : Key α)
    (s : BplusTreeHandler α) : Re × BplusTreeHandler α :=
  match (s.node leaf).leafRemove cmp key with
  | (removeCount, n) =>
    let s := s.setNode leaf n
    if removeCount = 0 then (.recordRecordNotExist, s.unpinPage leaf)
    else
      let s := s.dirtyMark leaf
      if s.minSize .leaf ≤ (s.node leaf).size then (.success, s.unpinPage leaf)
      else coalesceOrRedistribute cmp s.fuel .leaf leaf s

def deleteEntry (cmp : Key α → Key α → Int) (userKey : α) (rid : RecordId)
    (s : BplusTreeHandler α) : Re × BplusTreeHandler α :=
  let key : Key α := ⟨userKey, rid⟩
  match s.findLeaf cmp key with
  | (r, leaf, s) => if r ≠ .success then (r, s) else deleteEntryInternal cmp leaf key s

end BplusTreeHandler

end Idmbs
