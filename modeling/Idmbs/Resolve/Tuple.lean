import Idmbs.Common.CommonDefs
import Idmbs.Parse.ParseDefs
import Idmbs.Storage.TableMeta

/-!
# Idmbs.Resolve.Tuple

Units of a row and the filter over them (resolve/tuple.cpp, resolve/expression.cpp, resolve/filter.h,
`PredicateOperator::Predicate`). A row is the bytes of its record.
-/

namespace Idmbs

open CString

/-- The `int` at a pointer. -/
def intAt (p : Pointer) : Int := Bytes.getInt p 0 4

def Pointer.add (p : Pointer) (offset : Int) : Pointer := fun i => p (offset.toNat + i)

structure TupleUnit where
  attrType : AttrType
  length : Int
  data : Pointer

namespace TupleUnit

/-- A unit that nothing was stored in; `data_` is null. -/
def default : TupleUnit := ⟨.undefined, -1, fun _ => 0⟩

/-- `Compare`; `none` where the source asserts, compares floats or returns nothing. -/
def compare (a b : TupleUnit) : Option Int :=
  if a.attrType = b.attrType then
    match a.attrType with
    | .ints => some (compareInt (intAt a.data) (intAt b.data))
    | .chars => some (compareString a.data a.length.toNat b.data b.length.toNat)
    | _ => none
  else none

end TupleUnit

/-- `strlen` of the string at a literal. -/
def Value.strlen : Value → Nat
  | .chars s => (s.takeWhile (· ≠ 0)).length
  | _ => 0

inductive Expression where
  | field (fieldMeta : FieldMeta)
  | value (tupleUnit : TupleUnit)

namespace Expression

/-- `ValueExpression::ValueExpression`. -/
def ofValue (v : Value) : Expression :=
  .value ⟨v.type, if v.type = .chars then v.strlen else -1, v.data⟩

/-- `RowTuple::GetUnit`: the field of that name in the schema. -/
def getUnit (fields : List FieldMeta) (record : Pointer) (field : FieldMeta) : TupleUnit :=
  match fields.find? fun f => field.fieldName == f.fieldName with
  | none => .default
  | some f => ⟨f.attrType, f.len, Pointer.add record f.offset⟩

def getValue (fields : List FieldMeta) (record : Pointer) : Expression → TupleUnit
  | field f => getUnit fields record f
  | value u => u

end Expression

structure FilterUnit where
  comp : CompOp
  left : Expression
  right : Expression

/-- The answer of an operator for the result of a comparison. -/
def CompOp.holds : CompOp → Int → Option Bool
  | equalTo, r => some (r = 0)
  | notEqual, r => some (r ≠ 0)
  | lessThan, r => some (r < 0)
  | lessEqual, r => some (r ≤ 0)
  | greatThan, r => some (r > 0)
  | greatEqual, r => some (r ≥ 0)
  | noOp, _ => none

/-- One round of `Predicate`. -/
def FilterUnit.holds (fields : List FieldMeta) (record : Pointer) (u : FilterUnit) : Option Bool :=
  match (u.left.getValue fields record).compare (u.right.getValue fields record) with
  | none => none
  | some r => u.comp.holds r

def predicate (fields : List FieldMeta) (record : Pointer) : List FilterUnit → Option Bool
  | [] => some true
  | u :: us =>
    match u.holds fields record with
    | some true => predicate fields record us
    | r => r

variable {fields : List FieldMeta} {record : Pointer} {us : List FilterUnit} {u : FilterUnit}

end Idmbs
