import Idmbs.Common.Re
import Idmbs.Common.CommonDefs

/-!
# Idmbs.Storage.TableMeta

Field, index and table descriptions (storage/field.cpp, storage/index_meta.cpp, `TableMeta` of
storage/table.cpp). A `const char *` that may be null is an `Option String`.
-/

namespace Idmbs

def strBlank : Option String → Bool
  | none => true
  | some s => s.utf8ByteSize == 0

structure AttrInfo where
  attrName : Option String
  attrType : AttrType
  attrLen : Int
  deriving DecidableEq, Repr

structure FieldMeta where
  fieldName : String
  attrType : AttrType
  offset : Int
  len : Int
  visible : Bool
  deriving DecidableEq, Repr, Inhabited

def FieldMeta.init (fieldName : Option String) (attrType : AttrType) (attrOffset attrLen : Int)
    (visible : Bool) : Except Re FieldMeta :=
  match fieldName with
  | none => .error .invalidArgument
  | some name =>
    if strBlank (some name) then .error .invalidArgument
    else if attrType = .undefined ∨ attrOffset < 0 ∨ attrLen ≤ 0 then .error .invalidArgument
    else .ok ⟨name, attrType, attrOffset, attrLen, visible⟩

structure IndexMeta where
  indexName : String
  fieldName : String
  deriving DecidableEq, Repr

def IndexMeta.init (name : String) (field : FieldMeta) : Except Re IndexMeta :=
  if strBlank (some name) then .error .invalidArgument else .ok ⟨name, field.fieldName⟩

structure TableMeta where
  tableName : String
  fields : List FieldMeta
  indexes : List IndexMeta
  recordSize : Int
  deriving DecidableEq, Repr

namespace TableMeta

def tableNameMaxLen : Nat := 20

/-- `InitializeSysFields`: the field of the transaction id. -/
def sysFields : List FieldMeta := [⟨"__txn", .ints, 0, 4, false⟩]

/-- The loop of `Init` over the attributes; `fieldOffset` is an `int`. -/
def initFields : Int → List AttrInfo → Except Re (List FieldMeta × Int)
  | fieldOffset, [] => .ok ([], fieldOffset)
  | fieldOffset, a :: as =>
    match FieldMeta.init a.attrName a.attrType fieldOffset a.attrLen true with
    | .error r => .error r
    | .ok f =>
      match initFields (wrap32 (fieldOffset + a.attrLen)) as with
      | .error r => .error r
      | .ok (fs, size) => .ok (f :: fs, size)

def init (tableName : Option String) (attrInfos : List AttrInfo) : Except Re TableMeta :=
  match tableName with
  | none => .error .invalidArgument
  | some name =>
    if strBlank (some name) ∨ name.utf8ByteSize > tableNameMaxLen then .error .invalidArgument
    else if attrInfos = [] then .error .invalidArgument
    else
      match initFields 4 attrInfos with
      | .error r => .error r
      | .ok (fields, size) => .ok ⟨name, sysFields ++ fields, [], size⟩

def getField (m : TableMeta) (fieldName : String) : Option FieldMeta :=
  if fieldName.utf8ByteSize = 0 then none else m.fields.find? fun f => f.fieldName == fieldName

def getIndex (m : TableMeta) (indexName : String) : Option IndexMeta :=
  m.indexes.find? fun i => indexName == i.indexName

def getIndexByField (m : TableMeta) (fieldName : String) : Option IndexMeta :=
  m.indexes.find? fun i => fieldName == i.fieldName

end TableMeta

end Idmbs
