import Idmbs.Resolve.Tuple

/-!
# Idmbs.Resolve.Filter

`Filter::CreateFilterUnit` (resolve/filter.cpp) over one table, which is the default table and the only
one in the map of names.
-/

namespace Idmbs

def TableMeta.getTableAndField (m : TableMeta) (a : RelAttr) : Except Re FieldMeta :=
  if a.relName = none ∨ a.relName = some m.tableName then
    match m.getField a.attrName with
    | none => .error .schemaFieldNotExist
    | some f => .ok f
  else .error .schemaTableNotExist

namespace Expression

def type : Expression → AttrType
  | field f => f.attrType
  | value u => u.attrType

def isComparable (a b : Expression) : Bool :=
  if a.type = .undefined ∨ b.type = .undefined then false
  else if a.type = b.type then true
  else (a.type = .ints ∧ b.type = .floats) ∨ (a.type = .floats ∧ b.type = .ints)

/-- The expression of one side of a condition. -/
def ofOperand (m : TableMeta) : Operand → Except Re Expression
  | .attr a => (m.getTableAndField a).map field
  | .value v => .ok (ofValue v)

end Expression

def FilterUnit.create (m : TableMeta) (c : Condition) : Except Re FilterUnit := do
  if c.comp = .noOp then .error .invalidArgument
  else
    let left ← Expression.ofOperand m c.left
    let right ← Expression.ofOperand m c.right
    if Expression.isComparable left right then .ok ⟨c.comp, left, right⟩ else .error .genericError

variable {m : TableMeta} {c : Condition} {u : FilterUnit}

theorem FilterUnit.create_ok (h : FilterUnit.create m c = .ok u) :
    u.comp = c.comp ∧ Expression.ofOperand m c.left = .ok u.left ∧
      Expression.ofOperand m c.right = .ok u.right := by
  unfold FilterUnit.create at h
  split at h
  · cases h
  · cases hl : Expression.ofOperand m c.left with
    | error r => simp [hl, bind, Except.bind] at h
    | ok left =>
      cases hr : Expression.ofOperand m c.right with
      | error r => simp [hl, hr, bind, Except.bind] at h
      | ok right =>
        simp only [hl, hr, bind, Except.bind] at h
        split at h
        · cases h
          exact ⟨rfl, rfl, rfl⟩
        · cases h

end Idmbs
