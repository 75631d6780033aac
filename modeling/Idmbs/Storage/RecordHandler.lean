import Idmbs.Storage.RecordFile

/-!
# Idmbs.Storage.RecordHandler

`RecordFileHandler` (storage/record.cpp): insertion, update and lookup over
the pages, and `free_pages_`, the pages that were not full when the handler last saw them. A page whose
last record is deleted is disposed but stays in `free_pages_`, and a page is loaded whether it is allocated
or not. The handlers of `RecordFileHandler` do not unpin the pages they worked on.
-/

namespace Idmbs

open BitMap

def align8 (size : Nat) : Nat := size / 8 * 8 + if size % 8 = 0 then 0 else 8

/-- `PageRecordCapacity` of a page of `BP_PAGE_DATA_SIZE` bytes behind a header of 20; the division by
`record_size + 0.125` is taken in eighths. -/
def pageRecordCapacity (recordSize : Nat) : Nat := (16380 - 20 - 1) * 8 / (recordSize * 8 + 1)

def pageBitmapSize (recordCapacity : Nat) : Nat :=
  recordCapacity / 8 + if recordCapacity % 8 = 0 then 0 else 1

/-- The bytes of a slot up to the end of the page; the slots begin behind the header with its bitmap. The frame of
a page has four bytes more, which a flush does not write. -/
def slotRoom (recordSize slot : Nat) : Nat :=
  16380 - (align8 (20 + pageBitmapSize (pageRecordCapacity (align8 recordSize))) + slot * align8 recordSize)

/-- The last of the slots of 24 bytes ends behind the page. -/
example : pageRecordCapacity 24 = 678 ∧ slotRoom 24 677 = 20 := by decide

/-- `NextUnsetBit`: `NextSetBit` with `0xff` for `0x00` and `FindFirstZero` for `FindFirstSet`. -/
def BitMap.nextUnsetBit (b : Nat → Bool) (size start : Nat) : Option Nat := nextSetBit (fun i => !b i) size start

theorem lt_pageBitmapSize {i capacity : Nat} (h : i < capacity) : i / 8 < pageBitmapSize capacity := by
  unfold pageBitmapSize
  split <;> omega

namespace RecordPage

/-- A page as `InitEmptyPage` leaves it: `memset` clears the bytes of the bitmap, the rest stays. -/
def initEmpty (recordSize : Nat) (g : RecordPage) : RecordPage where
  recordCapacity := pageRecordCapacity (align8 recordSize)
  bits i := if i / 8 < pageBitmapSize (pageRecordCapacity (align8 recordSize)) then false else g.bits i
  data := g.data
  recordNum := 0
  counted := by
    rw [bitsFrom_eq_nil fun i hi => if_pos (lt_pageBitmapSize hi)]
    rfl

/-- `SetBit` on the bitmap, and one record more. -/
def setBit (g : RecordPage) (slot : Nat) (h : slot < g.recordCapacity) (hb : g.bits slot = false) :
    RecordPage where
  recordCapacity := g.recordCapacity
  bits := Function.update g.bits slot true
  data := g.data
  recordNum := g.recordNum + 1
  counted := by
    rw [g.counted, length_bitsFrom_set h hb]
    rfl

def isFull (g : RecordPage) : Bool := decide (g.recordNum ≥ g.recordCapacity)

/-- A page that is loaded again: what its slots held behind the end of the page is gone. -/
def reloaded (recordSize : Nat) (g : RecordPage) : RecordPage :=
  { g with data := fun slot => (g.data slot).take (slotRoom recordSize slot) }

/-- A page that no `InitEmptyPage` has seen. -/
instance : Inhabited RecordPage := ⟨⟨0, fun _ => false, fun _ => [], 0, rfl⟩⟩

end RecordPage

/-- `FlushPage` as the clients of the pool see it. -/
def PagePool.flushPage {δ : Type} (s : PagePool δ) (p : PageId) : PagePool δ :=
  { s with dirty := Function.update s.dirty p false }

def PagePool.flushAllPages {δ : Type} (s : PagePool δ) : PagePool δ := { s with dirty := fun _ => false }

/-- The file is flushed, closed and opened again. Frames stay behind in the frame manager when a file is
closed; the pages in `kept` are those whose frames are found again, with the pins they had: none after a
restart, all when the file descriptor has the same number. -/
def PagePool.reopen {δ : Type} (kept : PageId → Bool) (s : PagePool δ) : PagePool δ :=
  { s.flushAllPages with
    pinCount p := if p = headerPage then 1 else if kept p then s.pinCount p else 0
    disposedPages := fun _ => false }

namespace RecordPageHandler

/-- `InitEmptyPage`. The handler pins the page. -/
def initEmptyPage (pool : RecordPool) (p : PageId) (recordSize : Nat) : Re × RecordPool :=
  match pool.getPage p with
  | (r, pool) =>
    if r ≠ .success then (r, pool)
    else (.success, (pool.setData p ((pool.pageData p).initEmpty recordSize)).flushPage p)

/-- `InsertRecord` on the page that the handler pins. -/
def insertRecord (pool : RecordPool) (p : PageId) (bs : List UInt8) : Re × Option Slot × RecordPool :=
  let g := pool.pageData p
  if g.recordNum = g.recordCapacity then (.recordNoMem, none, pool)
  else
    match nextUnsetBit g.bits g.recordCapacity 0 with
    | some slot =>
      if h : slot < g.recordCapacity ∧ g.bits slot = false then
        (.success, some (p, slot), (pool.setData p ((g.setBit slot h.1 h.2).setRecordData slot bs)).dirtyMark p)
      else (.recordNoMem, none, pool)
    | none => (.recordNoMem, none, pool)

/-- `UpdateRecord` on the page that the handler pins. -/
def updateRecord (pool : RecordPool) (rid : Slot) (bs : List UInt8) : Re × RecordPool :=
  let g := pool.pageData rid.1
  if g.recordCapacity ≤ rid.2 then (.invalidArgument, pool)
  else if g.bits rid.2 = false then (.recordRecordNotExist, pool)
  else (.success, (pool.setData rid.1 (g.setRecordData rid.2 bs)).dirtyMark rid.1)

/-- `GetRecord` on the page that the handler pins. -/
def getRecord (pool : RecordPool) (rid : Slot) : Re × Option (List UInt8) :=
  let g := pool.pageData rid.1
  if g.recordCapacity ≤ rid.2 then (.recordInvalidRId, none)
  else if g.bits rid.2 = false then (.recordRecordNotExist, none)
  else (.success, some (g.data rid.2))

end RecordPageHandler

/-- A buffer pool with its `RecordFileHandler`. `freePages` is `free_pages_` in the order of its iterator,
and the records are `recordSize` bytes long. -/
structure RecordFile where
  recordSize : Nat
  pool : RecordPool
  freePages : List PageId

namespace RecordFileHandler

def initFreePages : Nat → RecordPool → Nat → PageId → List PageId → Option (RecordPool × List PageId)
  | 0, _, _, _, _ => none
  | fuel + 1, pool, pagesNum, currentPageId, free =>
    match nextSetBit pool.bitmap pagesNum (currentPageId + 1) with
    | none => some (pool, free)
    | some p =>
      match pool.getPage p with
      | (r, pool) =>
        if r ≠ .success then some (pool, free)
        else initFreePages fuel (pool.unpinPage p) pagesNum p
          (if (pool.pageData p).isFull then free else free.insert p)

/-- `Init` of a new handler: the search over the pages visits each page at most once. -/
def init (recordSize : Nat) (pool : RecordPool) : Option RecordFile :=
  (initFreePages (pool.pagesNum + 1) pool pool.pagesNum 0 []).map fun (pool, free) => ⟨recordSize, pool, free⟩

/-- The part of `InsertRecord` behind the loop: a new page. -/
def insertIntoNewPage (recordSize : Nat) (pool : RecordPool) (bs : List UInt8) :
    Re × Option Slot × RecordPool × List PageId :=
  match pool.allocatePage with
  | (r, p, pool) =>
    if r ≠ .success then (r, none, pool, [])
    else
      match RecordPageHandler.initEmptyPage pool p recordSize with
      | (r, pool) =>
        if r ≠ .success then (r, none, pool.unpinPage p, [])
        else
          match RecordPageHandler.insertRecord (pool.unpinPage p) p bs with
          | (r, rid, pool) => (r, rid, pool, [p])

/-- `InsertRecord`: the loop over `free_pages_`, which drops the pages that are full. -/
def insertLoop (recordSize : Nat) (bs : List UInt8) :
    RecordPool → List PageId → Re × Option Slot × RecordPool × List PageId
  | pool, [] => insertIntoNewPage recordSize pool bs
  | pool, p :: free =>
    match pool.getPage p with
    | (r, pool) =>
      if r ≠ .success then (r, none, pool, p :: free)
      else if (pool.pageData p).isFull = false then
        match RecordPageHandler.insertRecord pool p bs with
        | (r, rid, pool) => (r, rid, pool, p :: free)
      else insertLoop recordSize bs (pool.unpinPage p) free

end RecordFileHandler

namespace RecordFile

/-- The pool of the file when it was closed and opened again; pages without a frame are loaded again. -/
def reopen (f : RecordFile) (kept : PageId → Bool) : RecordPool :=
  { f.pool.reopen kept with
    pageData p := if kept p then f.pool.pageData p else (f.pool.pageData p).reloaded f.recordSize }

/-- A file without records, with its handler. -/
def empty (recordSize : Nat) : RecordFile := ⟨recordSize, PagePool.newFile, []⟩

def insertRecord (f : RecordFile) (bs : List UInt8) : Re × Option Slot × RecordFile :=
  match RecordFileHandler.insertLoop f.recordSize bs f.pool f.freePages with
  | (r, rid, pool, free) => (r, rid, { f with pool := pool, freePages := free })

def updateRecord (f : RecordFile) (rid : Slot) (bs : List UInt8) : Re × RecordFile :=
  match f.pool.getPage rid.1 with
  | (r, pool) =>
    if r ≠ .success then (r, { f with pool := pool })
    else
      match RecordPageHandler.updateRecord pool rid bs with
      | (r, pool) => (r, { f with pool := pool })

/-- `RecordFileHandler::DeleteRecord`: the page is one with room. -/
def deleteRecord (f : RecordFile) (rid : Slot) : Re × RecordFile :=
  match RecordFileHandler.deleteRecord f.pool rid with
  | (r, pool) =>
    (r, { f with pool := pool, freePages := if r = .success then f.freePages.insert rid.1 else f.freePages })

def getRecord (f : RecordFile) (rid : Slot) : Re × Option (List UInt8) × RecordFile :=
  match f.pool.getPage rid.1 with
  | (r, pool) =>
    if r ≠ .success then (r, none, { f with pool := pool })
    else
      match RecordPageHandler.getRecord pool rid with
      | (r, bs) => (r, bs, { f with pool := pool })

/-- `HasNext` and `Next` of a scanner up to its end. -/
def scanRest (fuel : Nat) : Nat → RecordPool → RecordFileScanner → Option (List Slot)
  | 0, _, _ => none
  | n + 1, pool, c =>
    match c.nextRecord with
    | none => some []
    | some rid =>
      match RecordFileScanner.next fuel pool c with
      | none => none
      | some (r, pool, c) => if r ≠ .success then none else (scanRest fuel n pool c).map (rid :: ·)

/-- The records that a new scanner without a filter lists. -/
def scan (fuel : Nat) (f : RecordFile) : Option (List Slot) :=
  match RecordFileScanner.init fuel f.pool with
  | none => none
  | some (r, pool, c) => if r ≠ .success then none else scanRest fuel fuel pool c

end RecordFile

end Idmbs
