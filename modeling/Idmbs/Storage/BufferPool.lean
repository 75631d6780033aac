import Idmbs.Common.Re
import Idmbs.Storage.PagePool
import Mathlib.Data.List.AList

/-!
# Idmbs.Storage.BufferPool

`FrameManager`, `DiskBufferPool` and `GlobalBufferPoolManager` (storage/buffer_pool.cpp) with their
frames: several files share one cache, and a request for a frame may throw out pages of any of them.

A file is named by its descriptor and a frame by its address. Reads and writes of a file succeed where
the file has the page. Which frames are thrown out is up to the caller of the model: `victims` lists what
`GetPurgeableFrame` returns, round by round.
-/

namespace Idmbs

structure Page (δ : Type) where
  pageId : PageId
  pageData : δ

structure Frame (δ : Type) where
  dirty : Bool
  pinCount : Nat
  fileDesc : Nat
  page : Page δ

structure FrameId where
  fileDesc : Nat
  pageId : PageId
  deriving DecidableEq, Repr

structure BufferPoolFileHeader where
  pagesNum : Nat
  allocatedPagesNum : Int
  bitmap : PageId → Bool
  deriving Inhabited

/-- The data of page 0 as a `BufferPoolFileHeader`. -/
structure HeaderView (δ : Type) where
  fileHeader : δ → BufferPoolFileHeader
  setFileHeader : BufferPoolFileHeader → δ → δ
  pagesNum_set : ∀ h d, (fileHeader (setFileHeader h d)).pagesNum = h.pagesNum

structure PageFile (δ : Type) where
  size : Nat
  page : PageId → Page δ

/-- `WriteN` at a page; a gap behind the end of the file is filled with zeros. -/
def PageFile.write {δ : Type} [Inhabited δ] (f : PageFile δ) (p : PageId) (page : Page δ) :
    PageFile δ where
  size := max f.size (p + 1)
  page := Function.update (fun q => if q < f.size then f.page q else ⟨0, default⟩) p page

/-- `GlobalBufferPoolManager::CreateFile`: a header page that counts itself. -/
def PageFile.create {δ : Type} [Inhabited δ] (H : HeaderView δ) : PageFile δ where
  size := 1
  page := fun _ => ⟨PagePool.headerPage, H.setFileHeader ⟨1, 1, fun p => p == PagePool.headerPage⟩ default⟩

/-- The frames, the files and, by descriptor, what a `DiskBufferPool` keeps: whether it is open, and
`header_frame_`. -/
structure GlobalBufferPoolManager (δ : Type) where
  frameLruCache : AList (fun _ : FrameId => Nat)
  free : List Nat
  frame : Nat → Frame δ
  files : Nat → PageFile δ
  fdBufferPools : Nat → Bool
  headerFrame : Nat → Nat

namespace GlobalBufferPoolManager

variable {δ : Type}

def setFrame (s : GlobalBufferPoolManager δ) (x : Nat) (f : Frame δ) : GlobalBufferPoolManager δ :=
  { s with frame := Function.update s.frame x f }

/-! ## FrameManager -/

def getFrame (s : GlobalBufferPoolManager δ) (fd : Nat) (p : PageId) : Option Nat :=
  s.frameLruCache.lookup ⟨fd, p⟩

def alloc (s : GlobalBufferPoolManager δ) (fd : Nat) (p : PageId) :
    Option (Nat × GlobalBufferPoolManager δ) :=
  match s.getFrame fd p with
  | some _ => none
  | none =>
    match s.free with
    | [] => none
    | x :: free => some (x, { s with frameLruCache := s.frameLruCache.insert ⟨fd, p⟩ x, free := free })

def freeFrame (s : GlobalBufferPoolManager δ) (fd : Nat) (p : PageId) (x : Nat) :
    GlobalBufferPoolManager δ :=
  if s.getFrame fd p = some x then
    { s with frameLruCache := s.frameLruCache.erase ⟨fd, p⟩, free := s.free ++ [x] }
  else s

section Flush

variable [Inhabited δ]

/-- `DiskBufferPool::FlushPage` of the pool of `fd`. -/
def flushPage (s : GlobalBufferPoolManager δ) (fd x : Nat) : GlobalBufferPoolManager δ :=
  let page := (s.frame x).page
  { s with
    files := Function.update s.files fd ((s.files fd).write page.pageId page)
    frame := Function.update s.frame x { s.frame x with dirty := false } }

def flushFrame (s : GlobalBufferPoolManager δ) (x : Nat) : Re × GlobalBufferPoolManager δ :=
  if s.fdBufferPools (s.frame x).fileDesc then (.success, s.flushPage (s.frame x).fileDesc x)
  else (.internal, s)

/-! ## DiskBufferPool -/

def allocateFrame (s : GlobalBufferPoolManager δ) (fd : Nat) (p : PageId) :
    List FrameId → Re × Nat × GlobalBufferPoolManager δ
  | [] =>
    match s.alloc fd p with
    | some (x, s) => (.success, x, s)
    | none => (.noMem, 0, s)
  | v :: victims =>
    match s.alloc fd p with
    | some (x, s) => (.success, x, s)
    | none =>
      match s.getFrame v.fileDesc v.pageId with
      | none => (.noMem, 0, s)
      | some x =>
        if (s.frame x).pinCount ≠ 0 then (.noMem, 0, s)
        else
          match if (s.frame x).dirty then s.flushFrame x else (.success, s) with
          | (r, s) =>
            if r ≠ .success then (r, 0, s)
            else (s.freeFrame (s.frame x).fileDesc (s.frame x).page.pageId x).allocateFrame fd p victims

def loadPage (s : GlobalBufferPoolManager δ) (fd : Nat) (p : PageId) (x : Nat) :
    Re × GlobalBufferPoolManager δ :=
  if p < (s.files fd).size then
    (.success, s.setFrame x { s.frame x with page := (s.files fd).page p })
  else (.ioErrRead, s)

/-- `PurgeFrame` of a frame that is not pinned. -/
def purgeFrame (s : GlobalBufferPoolManager δ) (fd : Nat) (p : PageId) (x : Nat) :
    GlobalBufferPoolManager δ :=
  (if (s.frame x).dirty then s.flushPage fd x else s).freeFrame fd p x

/-- The way to a page that is not cached, in `GetPage` and in `OpenFile`. -/
def fetchPage (s : GlobalBufferPoolManager δ) (fd : Nat) (p : PageId) (victims : List FrameId) :
    Re × Nat × GlobalBufferPoolManager δ :=
  match s.allocateFrame fd p victims with
  | (r, x, s) =>
    if r ≠ .success then (r, 0, s)
    else
      let s := s.setFrame x { s.frame x with dirty := false, fileDesc := fd, pinCount := 1 }
      match s.loadPage fd p x with
      | (r, s) =>
        if r ≠ .success then
          (r, 0, (s.setFrame x { s.frame x with pinCount := 0 }).purgeFrame fd p x)
        else (.success, x, s)

def getPage (s : GlobalBufferPoolManager δ) (fd : Nat) (p : PageId) (victims : List FrameId) :
    Re × Nat × GlobalBufferPoolManager δ :=
  match s.getFrame fd p with
  | some x => (.success, x, s.setFrame x { s.frame x with pinCount := (s.frame x).pinCount + 1 })
  | none => s.fetchPage fd p victims

/-- `GlobalBufferPoolManager::OpenFile` of a file that gets the descriptor `fd`. -/
def openFile (s : GlobalBufferPoolManager δ) (fd : Nat) (victims : List FrameId) :
    Re × GlobalBufferPoolManager δ :=
  match s.fetchPage fd PagePool.headerPage victims with
  | (r, x, s) =>
    if r ≠ .success then (r, s)
    else
      (.success, { s with
        fdBufferPools := Function.update s.fdBufferPools fd true
        headerFrame := Function.update s.headerFrame fd x })

/-- `GlobalBufferPoolManager::CloseFile` of the file with the descriptor `fd`. Of its frames only the one
of the header is given back. -/
def closeFile (s : GlobalBufferPoolManager δ) (fd : Nat) : Re × GlobalBufferPoolManager δ :=
  let x := s.headerFrame fd
  let s := { s with fdBufferPools := Function.update s.fdBufferPools fd false }
  let s := s.setFrame x { s.frame x with pinCount := (s.frame x).pinCount - 1 }
  match s.getFrame fd PagePool.headerPage with
  | none => (.success, s)
  | some y =>
    if (s.frame y).pinCount ≠ 0 then
      (.lockedUnlock, s.setFrame x { s.frame x with pinCount := (s.frame x).pinCount + 1 })
    else (.success, s.purgeFrame fd PagePool.headerPage y)

/-- A pin is given back; no page waits for its disposal. -/
def unpinPage (s : GlobalBufferPoolManager δ) (x : Nat) : GlobalBufferPoolManager δ :=
  s.setFrame x { s.frame x with pinCount := (s.frame x).pinCount - 1 }

/-- `page_data` of a pinned frame is changed, and the frame marked. -/
def writePage (s : GlobalBufferPoolManager δ) (x : Nat) (d : δ) : GlobalBufferPoolManager δ :=
  s.setFrame x { s.frame x with dirty := true, page := ⟨(s.frame x).page.pageId, d⟩ }

def flushAllPages (s : GlobalBufferPoolManager δ) (fd : Nat) : GlobalBufferPoolManager δ :=
  (s.frameLruCache.keys.filter fun id => id.fileDesc = fd).foldl
    (fun t id => match s.frameLruCache.lookup id with
      | some x => t.flushPage fd x
      | none => t) s

variable (H : HeaderView δ)

def fileHeader (s : GlobalBufferPoolManager δ) (fd : Nat) : BufferPoolFileHeader :=
  H.fileHeader (s.frame (s.headerFrame fd)).page.pageData

/-- A change of `*file_header_`, and `header_frame_->DirtyMark()`. -/
def setFileHeader (s : GlobalBufferPoolManager δ) (fd : Nat) (h : BufferPoolFileHeader) :
    GlobalBufferPoolManager δ :=
  s.writePage (s.headerFrame fd) (H.setFileHeader h (s.frame (s.headerFrame fd)).page.pageData)

/-- The search of `AllocatePage` for a page to be used again. -/
def firstFree (h : BufferPoolFileHeader) : Option PageId :=
  if h.allocatedPagesNum < h.pagesNum then (List.range h.pagesNum).find? fun i => !h.bitmap i else none

/-- The header when page `p` is used again. -/
def reuse (h : BufferPoolFileHeader) (p : PageId) : BufferPoolFileHeader :=
  { h with allocatedPagesNum := h.allocatedPagesNum + 1, bitmap := Function.update h.bitmap p true }

/-- The header when a page is added to the file. -/
def extend (h : BufferPoolFileHeader) : BufferPoolFileHeader where
  pagesNum := h.pagesNum + 1
  allocatedPagesNum := h.allocatedPagesNum + 1
  bitmap := Function.update h.bitmap h.pagesNum true

def allocatePage (s : GlobalBufferPoolManager δ) (fd : Nat) (victims : List FrameId) :
    Re × Nat × GlobalBufferPoolManager δ :=
  match firstFree (s.fileHeader H fd) with
  | some i => (s.setFileHeader H fd (reuse (s.fileHeader H fd) i)).getPage fd i victims
  | none =>
    if PagePool.maxPageNum ≤ (s.fileHeader H fd).pagesNum then (.bufferPoolNoBuf, 0, s)
    else
      let p := (s.fileHeader H fd).pagesNum
      match s.allocateFrame fd p victims with
      | (r, x, s) =>
        if r ≠ .success then (r, 0, s)
        else
          let s := s.setFileHeader H fd (extend (s.fileHeader H fd))
          let s := s.setFrame x ⟨false, 1, fd, ⟨(s.fileHeader H fd).pagesNum - 1, default⟩⟩
          (.success, x, s.flushPage fd x)

end Flush

end GlobalBufferPoolManager

end Idmbs
