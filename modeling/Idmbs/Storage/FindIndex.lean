import Idmbs.Execute.IndexScan
import Idmbs.Storage.ConditionFilter

/-!
# Idmbs.Storage.FindIndex

`CompositeConditionFilter` and `Table::FindIndexForScan` (storage/condition_filter.cpp,
storage/table.cpp): the filter that is chosen for an index scan, and the range that the scanner is opened
with. The bounds are derived as if the field stood on the left of the operator, and `Filter` compares by a
difference that wraps around.
-/

namespace Idmbs

open CString

variable {σ : Type}

/-- A `ConditionFilter` of one of its two classes. -/
inductive ConditionFilterTree where
  | default (d : DefaultConditionFilter)
  | composite (filters : List ConditionFilterTree)

namespace ConditionFilterTree

mutual

def filter (record : Pointer) : ConditionFilterTree → Option Bool
  | .default d => d.filter record
  | .composite filters => filterAll record filters

/-- The loop of `CompositeConditionFilter::Filter`. -/
def filterAll (record : Pointer) : List ConditionFilterTree → Option Bool
  | [] => some true
  | f :: fs =>
    match f.filter record with
    | some true => filterAll record fs
    | r => r

end

end ConditionFilterTree

/-- The arguments of `CreateScanner`, with the index it is called on. -/
structure ScannerCall (σ : Type) where
  index : Index σ
  range : ScanRange
  leftLen : Nat
  rightLen : Nat

namespace TableMeta

def getFieldByOffset (m : TableMeta) (offset : Int) : Option FieldMeta := m.fields.find? fun f => f.offset == offset

end TableMeta

namespace DefaultConditionFilter

/-- The descriptors of the field and of the value. -/
def fieldAndValue (d : DefaultConditionFilter) : Option (ConDesc × ConDesc) :=
  if d.left.isAttr ∧ ¬d.right.isAttr then some (d.left, d.right)
  else if d.right.isAttr ∧ ¬d.left.isAttr then some (d.right, d.left)
  else none

def scanRange (value : Pointer) : CompOp → Option ScanRange
  | .equalTo => some ⟨some value, true, some value, true⟩
  | .lessEqual => some ⟨none, false, some value, true⟩
  | .greatEqual => some ⟨some value, true, none, false⟩
  | .lessThan => some ⟨none, false, some value, false⟩
  | .greatThan => some ⟨some value, false, none, false⟩
  | _ => none

def keyLen (attrType : AttrType) (key : Option Pointer) : Nat :=
  if attrType = .chars then
    match key with
    | none => 0
    | some p => (wholeText p).length
  else 4

/-- `FindIndexForScan`; `opens` is whether a call of `CreateScanner` gives a scanner. -/
def findIndexForScan (t : Table σ) (opens : ScannerCall σ → Bool) (d : DefaultConditionFilter) :
    Option (ScannerCall σ) :=
  match d.fieldAndValue with
  | none => none
  | some (field, value) =>
    match t.tableMeta.getFieldByOffset field.attrOffset with
    | none => none
    | some f =>
      match t.getIndexByField f.fieldName with
      | none => none
      | some index =>
        match scanRange value.value d.compOp with
        | none => none
        | some range =>
          let call := ⟨index, range, keyLen d.attrType range.left, keyLen d.attrType range.right⟩
          if opens call then some call else none

end DefaultConditionFilter

namespace ConditionFilterTree

mutual

/-- `FindIndexForScan`: the first filter of a composite that gives a scanner. -/
def findIndexForScan (t : Table σ) (opens : ScannerCall σ → Bool) : ConditionFilterTree → Option (ScannerCall σ)
  | .default d => d.findIndexForScan t opens
  | .composite filters => findFirst t opens filters

def findFirst (t : Table σ) (opens : ScannerCall σ → Bool) : List ConditionFilterTree → Option (ScannerCall σ)
  | [] => none
  | f :: fs =>
    match findIndexForScan t opens f with
    | some call => some call
    | none => findFirst t opens fs

end

mutual

/-- The comparisons that a filter is made of. -/
def leaves : ConditionFilterTree → List DefaultConditionFilter
  | .default d => [d]
  | .composite filters => leavesAll filters

def leavesAll : List ConditionFilterTree → List DefaultConditionFilter
  | [] => []
  | f :: fs => f.leaves ++ leavesAll fs

end

/-- The comparison that the scanner was opened for. -/
def chosen (t : Table σ) (opens : ScannerCall σ → Bool) (f : ConditionFilterTree) : Option DefaultConditionFilter :=
  f.leaves.find? fun d => (d.findIndexForScan t opens).isSome

end ConditionFilterTree

/-! ## What a range covers -/

/-- `v` is inside the range. -/
def ScanRange.Covers (r : ScanRange) (v : Int) : Prop :=
  (∀ l ∈ r.left, intAt l < v ∨ (r.leftInclusive = true ∧ intAt l = v)) ∧
  ∀ h ∈ r.right, v < intAt h ∨ (r.rightInclusive = true ∧ v = intAt h)

namespace DefaultConditionFilter

def fieldValue (d : DefaultConditionFilter) (record : Pointer) : Int :=
  match d.fieldAndValue with
  | none => 0
  | some (field, _) => intAt (field.valueIn record)

def literal (d : DefaultConditionFilter) : Int :=
  match d.fieldAndValue with
  | none => 0
  | some (_, value) => intAt value.value

/-- The field is tested for equality; or it stands on the left, and its difference from the literal does not
overflow; or it stands on the right, and the difference does, or the two are equal and the operator allows it. -/
def Suits (d : DefaultConditionFilter) (record : Pointer) : Prop :=
  d.compOp = .equalTo ∨
  (d.left.isAttr = true ∧ InInt32 (d.fieldValue record - d.literal)) ∨
  (d.right.isAttr = true ∧ (¬InInt32 (d.literal - d.fieldValue record) ∨
    (d.fieldValue record = d.literal ∧ (d.compOp = .lessEqual ∨ d.compOp = .greatEqual))))

end DefaultConditionFilter

/-- Every record that the filter accepts has its field inside the range of the scan. -/
def CoversCondition (t : Table σ) (opens : ScannerCall σ → Bool) (f : ConditionFilterTree) : Prop :=
  ∀ d call, f.chosen t opens = some d → f.findIndexForScan t opens = some call →
    ∀ record, f.filter record = some true → call.range.Covers (d.fieldValue record)

section Covers

variable {t : Table σ} {opens : ScannerCall σ → Bool} {d : DefaultConditionFilter} {f : ConditionFilterTree}
  {fs : List ConditionFilterTree} {record : Pointer} {call : ScannerCall σ}

theorem inInt32_intAt (p : Pointer) : InInt32 (intAt p) := by
  have hrange := inInt32_wrap32 (Bytes.decode (Bytes.read p 0 4))
  have hpow : (256 ^ 4 : Nat) = 2 ^ 32 := by norm_num
  unfold intAt Bytes.getInt
  rw [hpow]
  exact hrange

namespace ConditionFilterTree

mutual

/-- A scanner is opened for the chosen comparison. -/
theorem findIndexForScan_eq (t : Table σ) (opens : ScannerCall σ → Bool) (f : ConditionFilterTree) :
    f.findIndexForScan t opens =
      (f.leaves.find? fun d => (d.findIndexForScan t opens).isSome).bind fun d => d.findIndexForScan t opens := by
  cases f with
  | default d =>
    rw [findIndexForScan, leaves]
    cases h : d.findIndexForScan t opens with
    | none => simp [h]
    | some call => simp [h]
  | composite filters =>
    rw [findIndexForScan, leaves]
    exact findFirst_eq t opens filters

theorem findFirst_eq (t : Table σ) (opens : ScannerCall σ → Bool) (fs : List ConditionFilterTree) :
    findFirst t opens fs = ((leavesAll fs).find? fun d => (d.findIndexForScan t opens).isSome).bind fun d =>
      d.findIndexForScan t opens := by
  cases fs with
  | nil => rfl
  | cons f fs =>
    rw [findFirst, leavesAll, List.find?_append, findIndexForScan_eq t opens f, findFirst_eq t opens fs]
    cases h : f.leaves.find? fun d => (d.findIndexForScan t opens).isSome with
    | none => simp
    | some d =>
      have hfound := List.find?_some h
      have hd : (d.findIndexForScan t opens).isSome = true := hfound
      obtain ⟨call, hcall⟩ := Option.isSome_iff_exists.mp hd
      simp [hcall]

end

mutual

/-- What the whole accepts every comparison accepts. -/
theorem filter_leaves (record : Pointer) (f : ConditionFilterTree) (h : f.filter record = some true) :
    ∀ d ∈ f.leaves, d.filter record = some true := by
  cases f with
  | default d =>
    intro d' hd
    rw [leaves] at hd
    cases List.mem_singleton.mp hd
    rwa [filter] at h
  | composite filters =>
    rw [filter] at h
    rw [leaves]
    exact filterAll_leaves record filters h

theorem filterAll_leaves (record : Pointer) (fs : List ConditionFilterTree) (h : filterAll record fs = some true) :
    ∀ d ∈ leavesAll fs, d.filter record = some true := by
  cases fs with
  | nil =>
    intro d hd
    cases hd
  | cons f fs =>
    rw [filterAll] at h
    rw [leavesAll, List.forall_mem_append]
    split at h
    · rename_i hf
      exact ⟨filter_leaves record f hf, filterAll_leaves record fs h⟩
    · rename_i hne
      exact absurd h hne

end

end ConditionFilterTree

/-! ## Bounds and differences -/

/-- What the bounds of an operator let in. -/
def CompOp.Lets (v w : Int) : CompOp → Prop
  | equalTo => v = w
  | lessEqual => v ≤ w
  | greatEqual => w ≤ v
  | lessThan => v < w
  | greatThan => w < v
  | _ => False

section Bounds

variable {v w : Int} {p : Pointer} {op : CompOp} {range : ScanRange}

theorem covers_iff_lets (hr : DefaultConditionFilter.scanRange p op = some range) :
    range.Covers v ↔ op.Lets v (intAt p) := by
  cases op <;> cases hr <;> simp only [ScanRange.Covers, CompOp.Lets, Option.mem_def, Option.some.injEq,
    forall_eq', reduceCtorEq, false_implies, implies_true, true_and, and_true, Bool.false_eq_true, false_and,
    or_false] <;> omega

/-- With the field on the left a wrong record is accepted only by a difference that wraps. -/
theorem lets_left_iff (hv : InInt32 v) (hw : InInt32 w) (hne : op ≠ .notEqual) (hno : op ≠ .noOp)
    (ha : op.holds (wrap32 (v - w)) = some true) : op.Lets v w ↔ op = .equalTo ∨ InInt32 (v - w) := by
  cases op with
  | notEqual => exact absurd rfl hne
  | noOp => exact absurd rfl hno
  | _ =>
    simp only [CompOp.holds, Option.some.injEq, decide_eq_true_eq, wrap32_eq] at ha
    simp only [CompOp.Lets, reduceCtorEq, false_or, true_or, iff_true]
    split at ha <;> omega

/-- With the literal on the left a right one is let in only by a difference that wraps, or by equality. -/
theorem lets_right_iff (hv : InInt32 v) (hw : InInt32 w) (hne : op ≠ .notEqual) (hno : op ≠ .noOp)
    (ha : op.holds (wrap32 (w - v)) = some true) : op.Lets v w ↔
      op = .equalTo ∨ ¬InInt32 (w - v) ∨ (v = w ∧ (op = .lessEqual ∨ op = .greatEqual)) := by
  cases op with
  | notEqual => exact absurd rfl hne
  | noOp => exact absurd rfl hno
  | _ =>
    simp only [CompOp.holds, Option.some.injEq, decide_eq_true_eq, wrap32_eq] at ha
    simp only [CompOp.Lets, reduceCtorEq, false_or, true_or, or_true, and_true, and_false, or_false, iff_true]
    split at ha <;> omega

theorem scanRange_ne (hr : DefaultConditionFilter.scanRange p op = some range) : op ≠ .notEqual ∧ op ≠ .noOp := by
  constructor <;> rintro rfl <;> cases hr

/-- A record that a comparison accepts is inside the range that it opens exactly if it suits. -/
theorem covers_iff_suits (hints : d.attrType = .ints) (hfind : d.findIndexForScan t opens = some call)
    (haccept : d.filter record = some true) : call.range.Covers (d.fieldValue record) ↔ d.Suits record := by
  unfold DefaultConditionFilter.findIndexForScan at hfind
  unfold DefaultConditionFilter.filter at haccept
  rw [hints] at haccept
  simp only at haccept
  cases hfv : d.fieldAndValue with
  | none =>
    rw [hfv] at hfind
    cases hfind
  | some fv =>
    obtain ⟨field, value⟩ := fv
    have hvalue : d.fieldValue record = intAt (field.valueIn record) := by
      unfold DefaultConditionFilter.fieldValue
      rw [hfv]
    have hliteral : d.literal = intAt value.value := by
      unfold DefaultConditionFilter.literal
      rw [hfv]
    simp only [hfv] at hfind
    obtain ⟨range, hrange, rfl⟩ : ∃ range, DefaultConditionFilter.scanRange value.value d.compOp = some range ∧
        call.range = range := by
      split at hfind
      · cases hfind
      · split at hfind
        · cases hfind
        · split at hfind
          · cases hfind
          · rename_i range hrange
            split at hfind
            · cases hfind
              exact ⟨range, hrange, rfl⟩
            · cases hfind
    obtain ⟨hne, hno⟩ := scanRange_ne hrange
    rw [covers_iff_lets hrange, DefaultConditionFilter.Suits, hvalue, hliteral]
    unfold DefaultConditionFilter.fieldAndValue at hfv
    split at hfv
    · rename_i hside
      cases hfv
      have hright : d.right.valueIn record = d.right.value := if_neg hside.2
      rw [hright] at haccept
      rw [lets_left_iff (inInt32_intAt _) (inInt32_intAt _) hne hno haccept]
      simp only [hside.1, hside.2, Bool.false_eq_true, true_and, false_and, or_false]
    · split at hfv
      · rename_i hside
        cases hfv
        have hleft : d.left.valueIn record = d.left.value := if_neg hside.2
        rw [hleft] at haccept
        rw [lets_right_iff (inInt32_intAt _) (inInt32_intAt _) hne hno haccept]
        simp only [hside.1, hside.2, Bool.false_eq_true, true_and, false_and, false_or]
      · cases hfv

end Bounds

/-- The scan covers its condition exactly if every accepted record suits the comparison that was chosen. -/
theorem coversCondition_iff (t : Table σ) (opens : ScannerCall σ → Bool) (f : ConditionFilterTree)
    (hints : ∀ d ∈ f.leaves, d.attrType = .ints) : CoversCondition t opens f ↔
      ∀ d, f.chosen t opens = some d → ∀ record, f.filter record = some true → d.Suits record := by
  have hchosen : ∀ d, f.chosen t opens = some d → d ∈ f.leaves := fun d hd => List.mem_of_find?_eq_some hd
  have hfind : ∀ d, f.chosen t opens = some d → f.findIndexForScan t opens = d.findIndexForScan t opens := by
    intro d hd
    rw [ConditionFilterTree.findIndexForScan_eq]
    unfold ConditionFilterTree.chosen at hd
    rw [hd, Option.bind_some]
  have hone : ∀ d call record, f.chosen t opens = some d → f.findIndexForScan t opens = some call →
      f.filter record = some true → (call.range.Covers (d.fieldValue record) ↔ d.Suits record) := by
    intro d call record hd hcall haccept
    rw [hfind d hd] at hcall
    exact covers_iff_suits (hints d (hchosen d hd)) hcall
      (ConditionFilterTree.filter_leaves record f haccept d (hchosen d hd))
  constructor
  · intro h d hd record haccept
    have hfound := List.find?_some hd
    have hsome : (d.findIndexForScan t opens).isSome = true := hfound
    obtain ⟨call, hcall⟩ := Option.isSome_iff_exists.mp hsome
    rw [← hfind d hd] at hcall
    exact (hone d call record hd hcall haccept).mp (h d call hd hcall record haccept)
  · intro h d call hd hcall record haccept
    exact (hone d call record hd hcall haccept).mpr (h d hd record haccept)

end Covers

/-! ## A literal on the left -/

def scanTable : Table Unit :=
  ⟨⟨"t", TableMeta.sysFields ++ [⟨"n", .ints, 4, 4, true⟩], [⟨"i", "n"⟩], 8⟩,
    [⟨⟨"i", "n"⟩, ⟨"n", .ints, 4, 4, true⟩, ()⟩]⟩

def literalFirst : DefaultConditionFilter :=
  ⟨⟨false, 0, 0, (Value.ints 5).data⟩, ⟨true, 4, 4, fun _ => 0⟩, .ints, .lessThan⟩

/-- The row `(7)`. -/
def sevenRecord : Pointer := fun i => if i = 4 then 7 else 0

/-- The row `(7)` passes `5 < n`, and the scan for it ends below 5. -/
theorem not_coversCondition_literalFirst : literalFirst.filter sevenRecord = some true ∧
    ¬CoversCondition scanTable (fun _ => true) (.default literalFirst) := by
  have haccept : literalFirst.filter sevenRecord = some true := by decide
  refine ⟨haccept, fun h => ?_⟩
  have hcovers := h literalFirst _ rfl rfl sevenRecord haccept
  have hlt := hcovers.2 _ rfl
  revert hlt
  decide

theorem coversCondition_iff_literalFirst :
    CoversCondition scanTable (fun _ => true) (.composite [.default literalFirst]) ↔
      ∀ d, ConditionFilterTree.chosen scanTable (fun _ => true) (.composite [.default literalFirst]) = some d →
        ∀ record, ConditionFilterTree.filter record (.composite [.default literalFirst]) = some true →
          d.Suits record := by
  refine coversCondition_iff scanTable (fun _ => true) (.composite [.default literalFirst]) ?_
  intro d hd
  simp only [ConditionFilterTree.leaves, ConditionFilterTree.leavesAll, List.append_nil, List.mem_singleton] at hd
  rw [hd]
  rfl

end Idmbs
