import Idmbs.Resolve.Filter

/-!
# Idmbs.Storage.ConditionFilter

`DefaultConditionFilter` (storage/condition_filter.cpp) and the records it looks at, as
`Table::MakeRecord` lays them out. The same conditions are evaluated a second time by
`PredicateOperator::Predicate`: the two agree exactly on the conditions that `Agrees` describes.
-/

namespace Idmbs

open CString

/-! ## Records -/

namespace TableMeta

/-- How much of a value goes to its field: a string shorter than the field takes its NUL along. -/
def copiedLen (f : FieldMeta) (v : Value) : Int :=
  if f.attrType = .chars ∧ f.len > v.strlen + 1 then v.strlen + 1 else f.len

def copyValues : Pointer → List (FieldMeta × Value) → Pointer
  | record, [] => record
  | record, (f, v) :: rest =>
    copyValues (Bytes.write record f.offset.toNat (Bytes.read v.data 0 (copiedLen f v).toNat)) rest

/-- `MakeRecord`; `heap` is what the new array holds, and what lies after it. -/
def makeRecord (m : TableMeta) (values : List Value) (heap : Pointer) : Except Re Pointer :=
  let fields := m.fields.drop sysFields.length
  if values.length ≠ fields.length then .error .schemaFieldMissing
  else if (fields.zip values).any fun fv => fv.2.type ≠ fv.1.attrType then
    .error .schemaFieldTypeMismatch
  else .ok (copyValues heap (fields.zip values))

end TableMeta

/-! ## The filter -/

structure ConDesc where
  isAttr : Bool
  attrLength : Int
  attrOffset : Int
  value : Pointer

structure DefaultConditionFilter where
  left : ConDesc
  right : ConDesc
  attrType : AttrType
  compOp : CompOp

namespace DefaultConditionFilter

def initDescs (left right : ConDesc) (attrType : AttrType) (compOp : CompOp) :
    Except Re DefaultConditionFilter :=
  if attrType = .undefined then .error .invalidArgument
  else if compOp = .noOp then .error .invalidArgument
  else .ok ⟨left, right, attrType, compOp⟩

/-- The descriptor of one side of a condition with its type. -/
def conDesc (m : TableMeta) : Operand → Except Re (ConDesc × AttrType)
  | .attr a =>
    match m.getField a.attrName with
    | none => .error .schemaFieldMissing
    | some f => .ok (⟨true, f.len, f.offset, fun _ => 0⟩, f.attrType)
  | .value v => .ok (⟨false, 0, 0, v.data⟩, v.type)

def init (m : TableMeta) (c : Condition) : Except Re DefaultConditionFilter := do
  let left ← conDesc m c.left
  let right ← conDesc m c.right
  if left.2 ≠ right.2 then .error .schemaFieldTypeMismatch
  else initDescs left.1 right.1 left.2 c.comp

end DefaultConditionFilter

/-- `left_value` and `right_value` of `Filter`. -/
def ConDesc.valueIn (d : ConDesc) (record : Pointer) : Pointer :=
  if d.isAttr then Pointer.add record d.attrOffset else d.value

/-- `Filter`; `none` where the source compares floats or asserts. -/
def DefaultConditionFilter.filter (d : DefaultConditionFilter) (record : Pointer) : Option Bool :=
  let left := d.left.valueIn record
  let right := d.right.valueIn record
  match d.attrType with
  | .chars => d.compOp.holds (strcmp left right)
  | .ints => d.compOp.holds (wrap32 (intAt left - intAt right))
  | _ => none

/-! ## What the two look at -/

/-- The bytes of one side of a condition, with its type and its length. -/
def Operand.unit (m : TableMeta) (record : Pointer) : Operand → TupleUnit
  | .attr a =>
    match m.getField a.attrName with
    | none => .default
    | some f => ⟨f.attrType, f.len, Pointer.add record f.offset⟩
  | .value v => ⟨v.type, if v.type = .chars then v.strlen else -1, v.data⟩

variable {m : TableMeta} {c : Condition} {record : Pointer} {o : Operand} {a : RelAttr}

theorem Operand.unit_field {f : FieldMeta} (h : m.getField a.attrName = some f) :
    Operand.unit m record (.attr a) = ⟨f.attrType, f.len, Pointer.add record f.offset⟩ := by
  simp only [Operand.unit, h]

theorem getField_fieldName {f : FieldMeta} {name : String} (h : m.getField name = some f) :
    f.fieldName = name := by
  unfold TableMeta.getField at h
  split at h
  · cases h
  · have hbeq := List.find?_some h
    exact eq_of_beq hbeq

/-- The row finds the field that the schema finds. -/
theorem getUnit_getField {f : FieldMeta} {name : String} (h : m.getField name = some f) :
    Expression.getUnit m.fields record f = ⟨f.attrType, f.len, Pointer.add record f.offset⟩ := by
  have hname := getField_fieldName h
  unfold TableMeta.getField at h
  split at h
  · cases h
  · have hfind : (m.fields.find? fun g => f.fieldName == g.fieldName) = some f := by
      rw [← h, hname]
      congr 1
      funext g
      exact Bool.beq_comm
    unfold Expression.getUnit
    rw [hfind]

theorem ofOperand_unit {e : Expression} (h : Expression.ofOperand m o = .ok e) :
    e.getValue m.fields record = o.unit m record := by
  cases o with
  | value v =>
    cases h
    rfl
  | attr a =>
    change (m.getTableAndField a).map Expression.field = .ok e at h
    unfold TableMeta.getTableAndField at h
    split at h
    · cases hf : m.getField a.attrName with
      | none =>
        rw [hf] at h
        cases h
      | some f =>
        rw [hf] at h
        cases h
        rw [Operand.unit_field hf]
        exact getUnit_getField hf
    · cases h

theorem conDesc_unit {d : ConDesc} {t : AttrType} (record : Pointer)
    (h : DefaultConditionFilter.conDesc m o = .ok (d, t)) :
    (o.unit m record).data = d.valueIn record ∧ (o.unit m record).attrType = t := by
  cases o with
  | value v =>
    cases h
    exact ⟨rfl, rfl⟩
  | attr a =>
    cases hf : m.getField a.attrName with
    | none => simp [DefaultConditionFilter.conDesc, hf] at h
    | some f =>
      simp only [DefaultConditionFilter.conDesc, hf] at h
      cases h
      rw [Operand.unit_field hf]
      exact ⟨rfl, rfl⟩

namespace DefaultConditionFilter

theorem init_ok {d : DefaultConditionFilter} (h : init m c = .ok d) :
    conDesc m c.left = .ok (d.left, d.attrType) ∧ conDesc m c.right = .ok (d.right, d.attrType) ∧
      d.compOp = c.comp := by
  unfold init at h
  cases hl : conDesc m c.left with
  | error r => simp [hl, bind, Except.bind] at h
  | ok left =>
    cases hr : conDesc m c.right with
    | error r => simp [hl, hr, bind, Except.bind] at h
    | ok right =>
      simp only [hl, hr, bind, Except.bind] at h
      split at h
      · cases h
      · rename_i htype
        unfold initDescs at h
        split at h
        · cases h
        · split at h
          · cases h
          · cases h
            exact ⟨rfl, by rw [not_not.mp htype], rfl⟩

end DefaultConditionFilter

/-! ## Where they agree -/

/-- The byte of the longer operand behind the length of the shorter one, as a signed `char`. -/
def TupleUnit.nextByte (a b : TupleUnit) : Int :=
  if a.length.toNat > b.length.toNat then (a.data b.length.toNat).toInt8.toInt
  else if a.length.toNat < b.length.toNat then (b.data a.length.toNat).toInt8.toInt
  else 0

/-- The sign of `x` gives the operator the answer of the order of the texts `s` and `t`. -/
def CompOp.Fits (x : Int) (s t : List Nat) : CompOp → Prop
  | equalTo | notEqual => x = 0 ↔ s = t
  | lessThan | greatEqual => x < 0 ↔ s < t
  | lessEqual | greatThan => 0 < x ↔ t < s
  | noOp => True

/-- Two strings differ within the length of the shorter operand, or the next byte of the longer one
stands for all that `strcmp` reads from there on. -/
def CompOp.Agrees (op : CompOp) (a b : TupleUnit) : Prop :=
  a.attrType = .chars →
    text a.data (min a.length.toNat b.length.toNat) = text b.data (min a.length.toNat b.length.toNat) →
      op.Fits (a.nextByte b) (wholeText a.data) (wholeText b.data)

def Condition.Agrees (m : TableMeta) (c : Condition) (record : Pointer) : Prop :=
  c.comp.Agrees (c.left.unit m record) (c.right.unit m record)

theorem CompOp.holds_eq_iff_fits (op : CompOp) (x : Int) (a b : Pointer) :
    op.holds (strcmp a b) = op.holds x ↔ op.Fits x (wholeText a) (wholeText b) := by
  cases op with
  | equalTo =>
    simp only [CompOp.holds, CompOp.Fits, Option.some.injEq, decide_eq_decide, strcmp_eq_zero_iff]
    exact Iff.comm
  | notEqual =>
    simp only [CompOp.holds, CompOp.Fits, Option.some.injEq, decide_eq_decide, ne_eq, not_iff_not,
      strcmp_eq_zero_iff]
    exact Iff.comm
  | lessThan =>
    simp only [CompOp.holds, CompOp.Fits, Option.some.injEq, decide_eq_decide, strcmp_neg_iff]
    exact Iff.comm
  | greatEqual =>
    simp only [CompOp.holds, CompOp.Fits, Option.some.injEq, decide_eq_decide, ge_iff_le, ← not_lt,
      not_iff_not, strcmp_neg_iff]
    exact Iff.comm
  | lessEqual =>
    simp only [CompOp.holds, CompOp.Fits, Option.some.injEq, decide_eq_decide, ← not_lt,
      not_iff_not, strcmp_pos_iff]
    exact Iff.comm
  | greatThan =>
    simp only [CompOp.holds, CompOp.Fits, Option.some.injEq, decide_eq_decide, gt_iff_lt,
      strcmp_pos_iff]
    exact Iff.comm
  | noOp => exact iff_of_true rfl trivial

theorem compareString_of_text_ne {a b : TupleUnit}
    (h : text a.data (min a.length.toNat b.length.toNat) ≠ text b.data (min a.length.toNat b.length.toNat)) :
    compareString a.data a.length.toNat b.data b.length.toNat =
      strncmp a.data b.data (min a.length.toNat b.length.toNat) :=
  if_pos fun h0 => h (strncmp_eq_zero_iff.mp h0)

theorem compareString_of_text_eq {a b : TupleUnit}
    (h : text a.data (min a.length.toNat b.length.toNat) = text b.data (min a.length.toNat b.length.toNat)) :
    compareString a.data a.length.toNat b.data b.length.toNat = a.nextByte b := by
  unfold compareString TupleUnit.nextByte
  simp only [strncmp_eq_zero_iff.mpr h, ne_eq, not_true, if_false, Int.sub_zero]
  split
  · rename_i hgt
    rw [Nat.min_eq_right (Nat.le_of_lt hgt)]
  · split
    · rename_i hlt
      rw [Nat.min_eq_left (Nat.le_of_lt hlt)]
    · rfl

theorem CompOp.holds_strcmp_iff (op : CompOp) {a b : TupleUnit} (ha : a.attrType = .chars)
    (hlen : min a.length.toNat b.length.toNat ≤ addressSpace) :
    op.holds (strcmp a.data b.data) =
      op.holds (compareString a.data a.length.toNat b.data b.length.toNat) ↔ op.Agrees a b := by
  unfold CompOp.Agrees
  by_cases h : text a.data (min a.length.toNat b.length.toNat) =
      text b.data (min a.length.toNat b.length.toNat)
  · rw [compareString_of_text_eq h, CompOp.holds_eq_iff_fits]
    exact ⟨fun hfits _ _ => hfits, fun hfits => hfits ha h⟩
  · rw [compareString_of_text_ne h, strcmp_of_text_ne hlen h]
    exact iff_of_true rfl fun _ he => absurd he h

/-- Some side of the condition is a field. -/
def Condition.HasAttr (c : Condition) : Prop := ∃ a, c.left = .attr a ∨ c.right = .attr a

theorem Operand.unit_attr_length (h : ∀ f ∈ m.fields, InInt32 f.len) (a : RelAttr) :
    (Operand.unit m record (.attr a)).length.toNat ≤ addressSpace := by
  have hspace : (2 : Int) ^ 31 ≤ addressSpace := by
    unfold addressSpace
    norm_num
  cases hf : m.getField a.attrName with
  | none => simp [Operand.unit, hf, TupleUnit.default]
  | some f =>
    rw [Operand.unit_field hf]
    have hmem : f ∈ m.fields := by
      unfold TableMeta.getField at hf
      split at hf
      · cases hf
      · exact List.mem_of_find?_eq_some hf
    have := (h f hmem).2
    refine Int.toNat_le.mpr ?_
    change f.len ≤ _
    omega

theorem Condition.HasAttr.min_length (hc : c.HasAttr) (h : ∀ f ∈ m.fields, InInt32 f.len) :
    min (c.left.unit m record).length.toNat (c.right.unit m record).length.toNat ≤ addressSpace := by
  obtain ⟨a, ha | ha⟩ := hc
  · rw [ha]
    exact le_trans (Nat.min_le_left _ _) (Operand.unit_attr_length h a)
  · rw [ha]
    exact le_trans (Nat.min_le_right _ _) (Operand.unit_attr_length h a)

theorem predicate_single {fields : List FieldMeta} {u : FilterUnit} :
    predicate fields record [u] = u.holds fields record := by
  unfold predicate predicate
  split
  · rename_i h
    exact h.symm
  · rfl

/-- The two evaluators answer alike on exactly the conditions that agree with the record. -/
theorem filter_eq_predicate_iff {d : DefaultConditionFilter} {u : FilterUnit}
    (hlen : ∀ f ∈ m.fields, InInt32 f.len) (hattr : c.HasAttr)
    (hd : DefaultConditionFilter.init m c = .ok d) (hu : FilterUnit.create m c = .ok u)
    (htype : d.attrType = .ints ∨ d.attrType = .chars) (record : Pointer) :
    d.filter record = predicate m.fields record [u] ↔ c.Agrees m record := by
  obtain ⟨hcomp, hl, hr⟩ := FilterUnit.create_ok hu
  obtain ⟨hdl, hdr, hop⟩ := DefaultConditionFilter.init_ok hd
  obtain ⟨hldata, hltype⟩ := conDesc_unit record hdl
  obtain ⟨hrdata, hrtype⟩ := conDesc_unit record hdr
  rw [predicate_single, FilterUnit.holds, ofOperand_unit hl, ofOperand_unit hr, hcomp]
  unfold DefaultConditionFilter.filter TupleUnit.compare
  rw [hop, ← hldata, ← hrdata, hltype, hrtype, if_pos rfl]
  rcases htype with ht | ht
  · rw [ht]
    refine iff_of_true rfl fun hchars => ?_
    rw [hltype, ht] at hchars
    cases hchars
  · rw [ht]
    exact c.comp.holds_strcmp_iff (hltype.trans ht) (hattr.min_length hlen)

/-! ## A field that is filled -/

/-- A `char(4)` before an `int`. -/
def wideTable : TableMeta :=
  ⟨"t", TableMeta.sysFields ++ [⟨"c", .chars, 4, 4, true⟩, ⟨"n", .ints, 8, 4, true⟩], [], 12⟩

/-- The row `('abcd', 1)`. -/
def wideRecord : Pointer :=
  TableMeta.copyValues (fun _ => 0) ((wideTable.fields.drop 1).zip [.chars [97, 98, 99, 100], .ints 1])

def wideCondition : Condition := ⟨.equalTo, .attr ⟨none, "c"⟩, .value (.chars [97, 98, 99, 100])⟩

def wideFilter : DefaultConditionFilter :=
  ⟨⟨true, 4, 4, fun _ => 0⟩, ⟨false, 0, 0, (Value.chars [97, 98, 99, 100]).data⟩, .chars, .equalTo⟩

def wideUnit : FilterUnit :=
  ⟨.equalTo, .field ⟨"c", .chars, 4, 4, true⟩, .value ⟨.chars, 4, (Value.chars [97, 98, 99, 100]).data⟩⟩

theorem filter_ne_predicate :
    TableMeta.init (some "t") [⟨some "c", .chars, 4⟩, ⟨some "n", .ints, 4⟩] = .ok wideTable ∧
    wideTable.makeRecord [.chars [97, 98, 99, 100], .ints 1] (fun _ => 0) = .ok wideRecord ∧
    DefaultConditionFilter.init wideTable wideCondition = .ok wideFilter ∧
    FilterUnit.create wideTable wideCondition = .ok wideUnit ∧
    wideFilter.filter wideRecord = some false ∧
    predicate wideTable.fields wideRecord [wideUnit] = some true :=
  ⟨by decide, rfl, rfl, rfl, by decide, by decide⟩

theorem filter_eq_predicate_iff_wide :
    wideFilter.filter wideRecord = predicate wideTable.fields wideRecord [wideUnit] ↔
      wideCondition.Agrees wideTable wideRecord :=
  filter_eq_predicate_iff (c := wideCondition) (by decide) ⟨_, .inl rfl⟩ rfl rfl (.inr rfl) wideRecord

end Idmbs
