import Idmbs.Storage.BitMap
import Idmbs.Storage.PagePool

/-!
# Idmbs.Storage.RecordFile

Pages of records, their deletion and their scan (storage/record.cpp), over the buffer pool of the file.
`RecordPageHandler` and `RecordPageIterator` point into the frame of a page, so they see every change of
it; the scanner keeps the next record and, in its iterator, the slot after that.
-/

namespace Idmbs

open BitMap

/-- A page of records in its frame: its header, the bits of its slots and the bytes in them. -/
structure RecordPage where
  recordCapacity : Nat
  bits : Nat → Bool
  data : Nat → List UInt8
  recordNum : Int
  counted : recordNum = (bitsFrom bits recordCapacity 0).length

namespace RecordPage

/-- `ClearBit` on the bitmap, and one record less. -/
def clearBit (g : RecordPage) (slot : Nat) (h : slot < g.recordCapacity) (hb : g.bits slot = true) :
    RecordPage where
  recordCapacity := g.recordCapacity
  bits := Function.update g.bits slot false
  data := g.data
  recordNum := g.recordNum - 1
  counted := by
    have := length_bitsFrom_clear h hb
    rw [g.counted]
    omega

/-- The bytes of a slot are written over. -/
def setRecordData (g : RecordPage) (slot : Nat) (bs : List UInt8) : RecordPage :=
  { g with data := Function.update g.data slot bs }

def slots (g : RecordPage) : List Nat := bitsFrom g.bits g.recordCapacity 0

theorem recordNum_eq_zero_iff (g : RecordPage) : g.recordNum = 0 ↔ g.slots = [] := by
  rw [g.counted, ← List.length_eq_zero_iff]
  exact Int.natCast_eq_zero

end RecordPage

abbrev RecordPool := PagePool RecordPage

abbrev Slot := PageId × Nat

namespace RecordPageHandler

/-- `Destroy`: the page is unpinned if there is one. -/
def destroy (pool : RecordPool) : Option PageId → RecordPool
  | none => pool
  | some p => pool.unpinPage p

/-- `DeleteRecord` on the page that the handler pins. A page without records is disposed. -/
def deleteRecord (pool : RecordPool) (rid : Slot) : Re × RecordPool :=
  let g := pool.pageData rid.1
  if h : rid.2 < g.recordCapacity then
    if hb : g.bits rid.2 = true then
      let g' := g.clearBit rid.2 h hb
      let pool := (pool.setData rid.1 g').dirtyMark rid.1
      if g'.recordNum = 0 then (.success, ((destroy pool (some rid.1)).disposePage rid.1).2)
      else (.success, pool)
    else (.recordRecordNotExist, pool)
  else (.invalidArgument, pool)

end RecordPageHandler

/-- `RecordFileHandler::DeleteRecord`; the handler of the page is not destroyed. -/
def RecordFileHandler.deleteRecord (pool : RecordPool) (rid : Slot) : Re × RecordPool :=
  match pool.getPage rid.1 with
  | (r, pool) => if r ≠ .success then (r, pool) else RecordPageHandler.deleteRecord pool rid

structure RecordPageIterator where
  pageId : PageId
  /-- `next_slot_id_` -/
  nextSlotId : Option Nat
  /-- the size of `bitmap_` -/
  size : Nat

def RecordPageIterator.init (pool : RecordPool) (p : PageId) : RecordPageIterator :=
  ⟨p, nextSetBit (pool.pageData p).bits (pool.pageData p).recordCapacity 0, (pool.pageData p).recordCapacity⟩

/-- `RecordFileScanner` without a condition filter, as `GetRecordFileScanner` opens it. -/
structure RecordFileScanner where
  /-- `current_page_id_` and the size of the bitmap of `buffer_pool_iterator_` -/
  currentPageId : PageId
  pagesNum : Nat
  /-- the page that `record_page_handler_` pins -/
  handlerPage : Option PageId
  iterator : Option RecordPageIterator
  /-- `next_record_`; its slot is -1 at the end -/
  nextRecord : Option Slot

namespace RecordFileScanner

def fetchNextRecordInPage (pool : RecordPool) (c : RecordFileScanner) (it : RecordPageIterator) :
    Re × RecordFileScanner :=
  match it.nextSlotId with
  | some slot => (.success, { c with
      nextRecord := some (it.pageId, slot)
      iterator := some { it with
        nextSlotId := nextSetBit (pool.pageData it.pageId).bits it.size (slot + 1) } })
  | none => (.recordEof, { c with iterator := some it, nextRecord := none })

/-- The loop of `FetchNextRecord` over the pages. -/
def fetchPages : Nat → RecordPool → RecordFileScanner → Option (Re × RecordPool × RecordFileScanner)
  | 0, _, _ => none
  | fuel + 1, pool, c =>
    match nextSetBit pool.bitmap c.pagesNum (c.currentPageId + 1) with
    | none => some (.recordEof, pool, { c with nextRecord := none })
    | some p =>
      match (RecordPageHandler.destroy pool c.handlerPage).getPage p with
      | (r, pool) =>
        if r ≠ .success then some (r, pool, { c with currentPageId := p, handlerPage := none })
        else
          match fetchNextRecordInPage pool { c with currentPageId := p, handlerPage := some p }
            (RecordPageIterator.init pool p) with
          | (r, c) => if r ≠ .recordEof then some (r, pool, c) else fetchPages fuel pool c

def fetchNextRecord (fuel : Nat) (pool : RecordPool) (c : RecordFileScanner) :
    Option (Re × RecordPool × RecordFileScanner) :=
  match c.iterator with
  | none => fetchPages fuel pool c
  | some it =>
    match fetchNextRecordInPage pool c it with
    | (r, c) => if r ≠ .recordEof then some (r, pool, c) else fetchPages fuel pool c

/-- `Init` of a scanner that was not used before. -/
def init (fuel : Nat) (pool : RecordPool) : Option (Re × RecordPool × RecordFileScanner) :=
  match fetchNextRecord fuel pool ⟨0, pool.pagesNum, none, none, none⟩ with
  | none => none
  | some (r, pool, c) => some (if r = .recordEof then .success else r, pool, c)

/-- `Next` without the record, which is the `next_record_` of before. -/
def next (fuel : Nat) (pool : RecordPool) (c : RecordFileScanner) :
    Option (Re × RecordPool × RecordFileScanner) :=
  match fetchNextRecord fuel pool c with
  | none => none
  | some (r, pool, c) => some (if r = .recordEof then .success else r, pool, c)

end RecordFileScanner

end Idmbs
