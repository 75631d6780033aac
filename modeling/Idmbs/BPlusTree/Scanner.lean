import Idmbs.BPlusTree.Handler

/-!
# Idmbs.BPlusTree.Scanner

`BplusTreeScanner` (storage/b_plus_tree.cpp): a scan over the leaves between two positions, both of
which `Open` computes, and `BplusTreeHandler::GetEntry`.

`fixUserKey` stands for `FixUserKey`, which cuts or pads the characters of a bound and says whether
the bound becomes inclusive; it is asked for `Chars` attributes only.
-/

namespace Idmbs

structure BplusTreeScanner (α : Type) where
  inited : Bool
  leftFrame : Option PageId
  rightFrame : Option PageId
  iterIndex : Int
  endIndex : Int
  treeHandler : BplusTreeHandler α

namespace BplusTreeScanner

variable {α : Type} [Inhabited α]

def new (treeHandler : BplusTreeHandler α) : BplusTreeScanner α :=
  ⟨false, none, none, -1, -1, treeHandler⟩

/-- The node in a frame of the scanner. -/
def leafAt (sc : BplusTreeScanner α) (frame : Option PageId) : IndexNode α :=
  match frame with
  | none => default
  | some p => sc.treeHandler.node p

section Open

variable (attrComparator : α → α → Int) (ridCompare : RecordId → RecordId → Int)
  (fixUserKey : α → Nat → Bool → α × Bool)

/-- The bound that is searched for, after the adjustment of characters. -/
def fixedBound (sc : BplusTreeScanner α) (userKey : α) (len : Nat) (wantGreater inclusive : Bool) :
    α × Bool :=
  if sc.treeHandler.fileHeader.attrType = .chars then
    match fixUserKey userKey len wantGreater with
    | (key, shouldInclusive) => (key, shouldInclusive || inclusive)
  else (userKey, inclusive)

/-- The part of `Open` that finds the first entry; a code means that `Open` returns it at once. -/
def openLeft (leftUserKey : Option α) (leftLen : Nat) (leftInclusive : Bool)
    (sc : BplusTreeScanner α) : Option Re × BplusTreeScanner α :=
  match leftUserKey with
  | none =>
    match sc.treeHandler.leftMostPage with
    | (r, frame, s) =>
      if r ≠ .success then (some r, { sc with treeHandler := s })
      else (none, { sc with leftFrame := some frame, iterIndex := 0, treeHandler := s })
  | some userKey =>
    let bound := sc.fixedBound fixUserKey userKey leftLen true leftInclusive
    let leftKey : Key α := ⟨bound.1, if bound.2 then RecordId.min else RecordId.max⟩
    let cmp := keyComparator attrComparator ridCompare
    match sc.treeHandler.findLeaf cmp leftKey with
    | (r, frame, s) =>
      if r ≠ .success then (some r, { sc with treeHandler := s })
      else
        let sc := { sc with leftFrame := some frame, treeHandler := s }
        let leftNode := s.node frame
        let leftIndex := (leftNode.leafLookUp cmp leftKey).1
        if leftNode.size ≤ leftIndex then
          -- past this page; behind the last one there is nothing to scan
          match leftNode.nextBrother with
          | none => (some .success, sc)
          | some next =>
            match (s.unpinPage frame).getPage next with
            | (r, s) =>
              if r ≠ .success then (some r, { sc with treeHandler := s })
              else (none, { sc with leftFrame := some next, iterIndex := 0, treeHandler := s })
        else (none, { sc with iterIndex := leftIndex })

/-- The part of `Open` that finds the last entry. -/
def openRight (rightUserKey : Option α) (rightLen : Nat) (rightInclusive : Bool)
    (sc : BplusTreeScanner α) : Option Re × BplusTreeScanner α :=
  match rightUserKey with
  | none =>
    match sc.treeHandler.rightMostPage with
    | (r, frame, s) =>
      if r ≠ .success then (some r, { sc with treeHandler := s })
      else
        (none, { sc with
          rightFrame := some frame, endIndex := (s.node frame).size - 1, treeHandler := s })
  | some userKey =>
    let bound := sc.fixedBound fixUserKey userKey rightLen false rightInclusive
    let rightKey : Key α := ⟨bound.1, if bound.2 then RecordId.max else RecordId.min⟩
    let cmp := keyComparator attrComparator ridCompare
    match sc.treeHandler.findLeaf cmp rightKey with
    | (r, frame, s) =>
      if r ≠ .success then (some r, { sc with treeHandler := s })
      else
        let sc := { sc with rightFrame := some frame, treeHandler := s }
        let rightNode := s.node frame
        let rightIndex := (rightNode.leafLookUp cmp rightKey).1
        if 0 < rightIndex then (none, { sc with endIndex := rightIndex - 1 })
        else
          match rightNode.prevBrother with
          | none => (some .success, { sc with endIndex := -1 })
          | some prev =>
            match (s.unpinPage frame).getPage prev with
            | (r, s) =>
              if r ≠ .success then (some r, { sc with treeHandler := s })
              else
                (none, { sc with
                  rightFrame := some prev, endIndex := (s.node prev).size - 1, treeHandler := s })

/-- The end of `Open`: nothing is scanned when the first entry comes behind the last one, on the
same page or on the next page. -/
def closeEmptyRange (sc : BplusTreeScanner α) : BplusTreeScanner α :=
  if sc.leftFrame = sc.rightFrame ∧ sc.endIndex < sc.iterIndex then { sc with endIndex := -1 }
  else if (sc.leafAt sc.leftFrame).prevBrother = sc.rightFrame then { sc with endIndex := -1 }
  else sc

def validRange (leftUserKey : Option α) (leftInclusive : Bool) (rightUserKey : Option α)
    (rightInclusive : Bool) : Bool :=
  match leftUserKey, rightUserKey with
  | some left, some right =>
    let result := attrComparator left right
    !(0 < result || (result == 0 && (!leftInclusive || !rightInclusive)))
  | _, _ => true

def openScan (leftUserKey : Option α) (leftLen : Nat) (leftInclusive : Bool)
    (rightUserKey : Option α) (rightLen : Nat) (rightInclusive : Bool) (sc : BplusTreeScanner α) :
    Re × BplusTreeScanner α :=
  if sc.inited then (.internal, sc)
  else
    let sc := { sc with inited := true }
    if !validRange attrComparator leftUserKey leftInclusive rightUserKey rightInclusive then
      (.invalidArgument, sc)
    else
      match sc.openLeft attrComparator ridCompare fixUserKey leftUserKey leftLen leftInclusive with
      | (some r, sc) => (r, sc)
      | (none, sc) =>
        match sc.openRight attrComparator ridCompare fixUserKey rightUserKey rightLen
          rightInclusive with
        | (some r, sc) => (r, sc)
        | (none, sc) => (.success, sc.closeEmptyRange)

end Open

def nextEntry (sc : BplusTreeScanner α) : Re × RecordId × BplusTreeScanner α :=
  if sc.endIndex = -1 then (.recordEof, default, sc)
  else
    let node := sc.leafAt sc.leftFrame
    let rid := (node.entries.map Prod.snd).getD sc.iterIndex.toNat default
    if sc.leftFrame = sc.rightFrame ∧ sc.iterIndex = sc.endIndex then
      (.success, rid, { sc with endIndex := -1 })
    else if sc.iterIndex < node.size - 1 then
      (.success, rid, { sc with iterIndex := sc.iterIndex + 1 })
    else if sc.leftFrame ≠ sc.rightFrame then
      let s := sc.treeHandler.unpinPage (sc.leftFrame.getD 0)
      match node.nextBrother with
      | none => (.internal, rid, { sc with leftFrame := none, treeHandler := s })
      | some next =>
        match s.getPage next with
        | (r, s) =>
          if r ≠ .success then (r, rid, { sc with leftFrame := none, treeHandler := s })
          else (.success, rid, { sc with leftFrame := some next, iterIndex := 0, treeHandler := s })
    else (.internal, rid, sc)

def unpinFrame (frame : Option PageId) (s : BplusTreeHandler α) : BplusTreeHandler α :=
  match frame with
  | none => s
  | some p => s.unpinPage p

def close (sc : BplusTreeScanner α) : BplusTreeScanner α :=
  { sc with
    leftFrame := none
    rightFrame := none
    endIndex := -1
    inited := false
    treeHandler := unpinFrame sc.rightFrame (unpinFrame sc.leftFrame sc.treeHandler) }

/-- `NextEntry` again and again while it succeeds: the code that ended it and the record ids. -/
def drain : Nat → BplusTreeScanner α → Re × List RecordId × BplusTreeScanner α
  | 0, sc => (.genericError, [], sc)
  | fuel + 1, sc =>
    match sc.nextEntry with
    | (r, rid, sc) =>
      if r ≠ .success then (r, [], sc)
      else
        match drain fuel sc with
        | (r, rids, sc) => (r, rid :: rids, sc)

end BplusTreeScanner

namespace BplusTreeHandler

variable {α : Type} [Inhabited α]

/-- `GetEntry`; `fuel` bounds the number of turns of its loop. -/
def getEntry (attrComparator : α → α → Int) (ridCompare : RecordId → RecordId → Int)
    (fixUserKey : α → Nat → Bool → α × Bool) (fuel : Nat) (userKey : α) (keyLen : Nat)
    (s : BplusTreeHandler α) : Re × List RecordId × BplusTreeHandler α :=
  match (BplusTreeScanner.new s).openScan attrComparator ridCompare fixUserKey (some userKey) keyLen
    true (some userKey) keyLen true with
  | (r, sc) =>
    if r ≠ .success then (r, [], sc.close.treeHandler)
    else
      match sc.drain fuel with
      | (r, rids, sc) => (if r = .recordEof then .success else r, rids, sc.close.treeHandler)

end BplusTreeHandler

end Idmbs
