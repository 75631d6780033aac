import Idmbs.BPlusTree.Handler
import Idmbs.BPlusTree.KeyOrder
import Idmbs.Resolve.Tuple
import Idmbs.Storage.CreateIndex

/-!
# Idmbs.Storage.IndexedTable

A table with its rows and its B+ tree indexes on Ints columns (storage/table.cpp, storage/b_plus_tree_index.cpp):
`CreateIndex`, `InsertRecord` and `DeleteRecord`. The other parts of a call, the record file, the transaction
and the log, answer with the codes in `Answers`. `Idmbs.Storage.RowOps` has the same calls over indexes that
are sets of entries; here they are trees, searched with the comparator of the code.
-/

namespace Idmbs

open CString

/-- The comparator of an index on an Ints column. -/
def intsComparator : Key Int → Key Int → Int := keyComparator compareInt RecordId.compare

/-- `CalcInternalPageCapacity` and `CalcLeafPageCapacity` for an Ints column. -/
def intsInternalPageCapacity : Nat := (16380 - 12) / (4 + 8 + 4)

def intsLeafPageCapacity : Nat := (16380 - 20) / (4 + 8 + 8)

abbrev BplusTreeIndex := Index (BplusTreeHandler Int)

namespace BplusTreeIndex

/-- The value at the offset of the indexed field. -/
def userKey (i : BplusTreeIndex) (record : Pointer) : Int := intAt (Pointer.add record i.fieldMeta.offset)

def withTree (i : BplusTreeIndex) (t : BplusTreeHandler Int) : BplusTreeIndex := { i with contents := t }

def insertEntry (i : BplusTreeIndex) (record : Pointer) (rid : RecordId) : Re × BplusTreeIndex :=
  match i.contents.insertEntry intsComparator (i.userKey record) rid with
  | (r, t) => (r, i.withTree t)

def deleteEntry (i : BplusTreeIndex) (record : Pointer) (rid : RecordId) : Re × BplusTreeIndex :=
  match i.contents.deleteEntry intsComparator (i.userKey record) rid with
  | (r, t) => (r, i.withTree t)

/-- `Create` for an Ints column; `file` is the answer of the file system. -/
def create (file : Re) : Re × BplusTreeHandler Int :=
  match BplusTreeHandler.create .ints intsInternalPageCapacity intsLeafPageCapacity PagePool.newFile with
  | .ok t => (file, t)
  | .error r => (r, ⟨⟨none, 0, 0, .ints⟩, PagePool.newFile⟩)

/-- `ScanRecord` with `InsertIndexRecordReaderAdapter` over the rows it visits. -/
def fill (offset : Int) : List (RecordId × Pointer) → BplusTreeHandler Int → Re × BplusTreeHandler Int
  | [], t => (.success, t)
  | (rid, record) :: rows, t =>
    match t.insertEntry intsComparator (intAt (Pointer.add record offset)) rid with
    | (r, t) => if r ≠ .success then (r, t) else fill offset rows t

end BplusTreeIndex

/-- What the parts of a call outside the indexes answer. -/
structure Answers where
  recordInsert : Re
  txnInsert : Re
  recordDelete : Re
  clog : Re

structure IndexedTable where
  table : Table (BplusTreeHandler Int)
  /-- the live rows -/
  records : RecordId → Option Pointer

namespace IndexedTable

def insertEntryOfIndexes (record : Pointer) (rid : RecordId) : List BplusTreeIndex → Re × List BplusTreeIndex
  | [] => (.success, [])
  | i :: is =>
    match BplusTreeIndex.insertEntry i record rid with
    | (r, i') =>
      if r ≠ .success then (r, i' :: is)
      else
        match insertEntryOfIndexes record rid is with
        | (r, is') => (r, i' :: is')

/-- `DeleteEntryOfIndexes`; `r` is the code of the index before. -/
def deleteEntryOfIndexes (record : Pointer) (rid : RecordId) (notExistsError : Bool) (r : Re) :
    List BplusTreeIndex → Re × List BplusTreeIndex
  | [] => (r, [])
  | i :: is =>
    match BplusTreeIndex.deleteEntry i record rid with
    | (r, i') =>
      if r ≠ .success ∧ (r ≠ .recordInvalidKey ∨ ¬notExistsError) then (r, i' :: is)
      else
        match deleteEntryOfIndexes record rid notExistsError r is with
        | (r, is') => (r, i' :: is')

def withIndexes (s : IndexedTable) (is : List BplusTreeIndex) : IndexedTable :=
  { s with table := { s.table with indexes := is } }

def withRow (s : IndexedTable) (rid : RecordId) (row : Option Pointer) : IndexedTable :=
  { s with records := Function.update s.records rid row }

def recordDelete (s : IndexedTable) (a : Answers) (rid : RecordId) : Re × IndexedTable :=
  if a.recordDelete ≠ .success then (a.recordDelete, s)
  else
    match s.records rid with
    | none => (.recordRecordNotExist, s)
    | some _ => (.success, s.withRow rid none)

/-- `InsertRecord`; `rid` is the slot that the record file finds. -/
def insertRecord (s : IndexedTable) (a : Answers) (record : Pointer) (rid : RecordId) : Re × IndexedTable :=
  if a.recordInsert ≠ .success then (a.recordInsert, s)
  else
    let s := s.withRow rid (some record)
    if a.txnInsert ≠ .success then (a.txnInsert, (s.recordDelete a rid).2)
    else
      match insertEntryOfIndexes record rid s.table.indexes with
      | (r, is) =>
        if r ≠ .success then
          (r, ((s.withIndexes (deleteEntryOfIndexes record rid true .success is).2).recordDelete a rid).2)
        else (a.clog, s.withIndexes is)

def deleteRecord (s : IndexedTable) (a : Answers) (record : Pointer) (rid : RecordId) : Re × IndexedTable :=
  match deleteEntryOfIndexes record rid false .success s.table.indexes with
  | (r, is) =>
    if r ≠ .success then (r, s.withIndexes is)
    else
      match (s.withIndexes is).recordDelete a rid with
      | (r, s) => if r ≠ .success then (r, s) else (a.clog, s)

/-- The call of `Table::CreateIndex`; `rows` are the rows in the order of its scan. -/
def indexCall (s : IndexedTable) (indexName attrName : Option String) (file : Re)
    (rows : List (RecordId × Pointer)) : CreateIndexCall (BplusTreeHandler Int) where
  indexName := indexName
  attrName := attrName
  create _ _ := BplusTreeIndex.create file
  fill := BplusTreeIndex.fill (((attrName.bind s.table.tableMeta.getField).map FieldMeta.offset).getD 0) rows

def createIndex (s : IndexedTable) (indexName attrName : Option String) (file : Re)
    (rows : List (RecordId × Pointer)) : Re × IndexedTable :=
  match s.table.createIndex (s.indexCall indexName attrName file rows) with
  | (r, table) => (r, { s with table := table })

end IndexedTable

end Idmbs
