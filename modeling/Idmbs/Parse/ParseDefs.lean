import Idmbs.Common.Re
import Idmbs.Lib.Bytes
import Idmbs.Lib.CString

/-!
# Idmbs.Parse.ParseDefs

What the parser hands on (parse/parse_defs.h): operators, literals, attribute names and conditions.
-/

namespace Idmbs

inductive CompOp where
  | equalTo | lessEqual | notEqual | lessThan | greatEqual | greatThan | noOp
  deriving DecidableEq, Repr

/-- `Value`: the type with what `data` points to; a float is its bit pattern. -/
inductive Value where
  | undefined
  | ints (v : Int)
  | floats (bits : UInt32)
  | chars (s : List UInt8)
  | dates (s : List UInt8)
  deriving DecidableEq, Repr

namespace Value

def type : Value → AttrType
  | undefined => .undefined
  | ints _ => .ints
  | floats _ => .floats
  | chars _ => .chars
  | dates _ => .dates

/-- The bytes at `data`; a string ends with its NUL. -/
def data : Value → CString.Pointer
  | undefined => fun _ => 0
  | ints v => fun i => (Bytes.encode 4 v).getD i 0
  | floats bits => fun i => (Bytes.encode 4 bits.toNat).getD i 0
  | chars s => fun i => s.getD i 0
  | dates s => fun i => s.getD i 0

end Value

structure RelAttr where
  relName : Option String
  attrName : String
  deriving DecidableEq, Repr

/-- One side of a `Condition`: the attribute or the value, as `*_is_attr` says. -/
inductive Operand where
  | attr (a : RelAttr)
  | value (v : Value)
  deriving DecidableEq, Repr

structure Condition where
  comp : CompOp
  left : Operand
  right : Operand
  deriving DecidableEq, Repr

end Idmbs
