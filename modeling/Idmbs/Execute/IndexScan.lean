import Idmbs.Resolve.Tuple
import Idmbs.Storage.CreateIndex

/-!
# Idmbs.Execute.IndexScan

The index range planned for a filter (`CreateIndexScanOperator` of execute/execute_main.cpp) and what
the operator built from it (execute/index_scan_operator.cpp) hands to `Index::CreateScanner`.
-/

namespace Idmbs

open CString

variable {σ : Type}

/-- The last six arguments of the constructor. -/
structure IndexScanArgs (σ : Type) where
  index : Index σ
  leftUnit : Option TupleUnit
  leftInclusive : Bool
  rightUnit : Option TupleUnit
  rightInclusive : Bool

/-- The indexed field and the value of a unit, in either order. -/
def FilterUnit.fieldAndValue (u : FilterUnit) : Option (FieldMeta × TupleUnit) :=
  match u.left, u.right with
  | .field f, .value v => some (f, v)
  | .value v, .field f => some (f, v)
  | _, _ => none

/-- The index a unit could use. -/
def FilterUnit.index (t : Table σ) (u : FilterUnit) : Option (Index σ) :=
  if u.comp = .notEqual then none
  else
    match u.fieldAndValue with
    | none => none
    | some (f, _) => t.getIndexByField f.fieldName

/-- The loop that looks for a unit to scan by: the first with an index, unless an equality with an index
comes after it. -/
def betterFilter (t : Table σ) : Option FilterUnit → List FilterUnit → Option FilterUnit
  | better, [] => better
  | better, u :: us =>
    if (u.index t).isNone then betterFilter t better us
    else
      match better with
      | none => betterFilter t (some u) us
      | some b => if u.comp = .equalTo then some u else betterFilter t (some b) us

/-- The operator after the operands were swapped. -/
def CompOp.swapped : CompOp → CompOp
  | lessEqual => greatThan
  | lessThan => greatEqual
  | greatEqual => lessThan
  | greatThan => lessEqual
  | c => c

/-- The bounds for `field comp value`; the flag of `<=` is never assigned. -/
def indexScanArgs (index : Index σ) (value : TupleUnit) : CompOp → IndexScanArgs σ
  | .equalTo => ⟨index, some value, true, some value, true⟩
  | .lessEqual => ⟨index, none, false, some value, false⟩
  | .lessThan => ⟨index, none, false, some value, false⟩
  | .greatEqual => ⟨index, some value, true, none, false⟩
  | .greatThan => ⟨index, some value, false, none, false⟩
  | _ => ⟨index, none, false, none, false⟩

/-- The arguments for the unit that was chosen. -/
def FilterUnit.scanArgs (t : Table σ) (u : FilterUnit) : Option (IndexScanArgs σ) :=
  match u.left, u.right with
  | .field f, .value v => (t.getIndexByField f.fieldName).map fun i => indexScanArgs i v u.comp
  | .value v, .field f => (t.getIndexByField f.fieldName).map fun i => indexScanArgs i v u.comp.swapped
  | _, _ => none

/-- What the members of an `IndexScanOperator` hold; null pointers are `none`. -/
structure IndexScanOperator (σ : Type) where
  table : Option (Table σ)
  index : Option (Index σ)
  leftUnit : TupleUnit
  rightUnit : TupleUnit
  leftInclusive : Bool
  rightInclusive : Bool

/-- `IndexScanOperator::IndexScanOperator` stores the units only; the flags keep what the memory held. -/
def IndexScanOperator.new (_table : Table σ) (args : IndexScanArgs σ) (leftInclusive rightInclusive : Bool) :
    IndexScanOperator σ :=
  ⟨none, none, args.leftUnit.getD .default, args.rightUnit.getD .default, leftInclusive, rightInclusive⟩

/-- `CreateIndexScanOperator`; the flags are what the memory of the operator held. -/
def createIndexScanOperator (t : Table σ) (units : List FilterUnit) (leftInclusive rightInclusive : Bool) :
    Option (IndexScanOperator σ) :=
  match betterFilter t none units with
  | none => none
  | some better =>
    (better.scanArgs t).map fun args => IndexScanOperator.new t args leftInclusive rightInclusive

/-- The bounds that a scanner is opened with; a null bound is open. -/
structure ScanRange where
  left : Option Pointer
  leftInclusive : Bool
  right : Option Pointer
  rightInclusive : Bool

/-- The unit's data; the null pointer of a unit that was never set is `none`. -/
def TupleUnit.bound (u : TupleUnit) : Option Pointer :=
  if u.attrType = .undefined then none else some u.data

/-- What `Init` passes to `CreateScanner`, with the index it is called on. -/
def IndexScanOperator.scannerRange (o : IndexScanOperator σ) : Option (Index σ × ScanRange) :=
  match o.table, o.index with
  | some _, some index =>
    some (index, ⟨o.leftUnit.bound, o.leftInclusive, o.rightUnit.bound, o.rightInclusive⟩)
  | _, _ => none

/-- A value inside a range, as the comparator of the index sees it. -/
def ScanRange.Contains (r : ScanRange) (v : Int) : Prop :=
  (∀ l ∈ r.left, compareInt (intAt l) v < 0 ∨ (r.leftInclusive = true ∧ compareInt (intAt l) v = 0)) ∧
  ∀ h ∈ r.right, compareInt v (intAt h) < 0 ∨ (r.rightInclusive = true ∧ compareInt v (intAt h) = 0)

def Index.fieldValue (i : Index σ) (record : Pointer) : Int := intAt (Pointer.add record i.fieldMeta.offset)

/-- A unit compares a field that has an index with a value, by another operator than `<>`. -/
def Plannable (t : Table σ) (u : FilterUnit) : Prop := (u.index t).isSome

/-- Every row that passes the filter is inside the range that the operator opens its scanner with, on the
index of one of the units. -/
def LosesNoRow (t : Table σ) (units : List FilterUnit) : Prop :=
  ∀ l r o, createIndexScanOperator t units l r = some o →
    ∀ record, predicate t.tableMeta.fields record units = some true →
      ∃ index range, o.scannerRange = some (index, range) ∧ (∃ u ∈ units, u.index t = some index) ∧
        range.Contains (index.fieldValue record)

section Plan

variable {t : Table σ} {u : FilterUnit} {us : List FilterUnit} {b : Option FilterUnit}
  {args : IndexScanArgs σ}

/-- The unit that the loop ends with is the one it had, or one that can be used. -/
theorem betterFilter_mem (h : betterFilter t b us = some u) : b = some u ∨ (u ∈ us ∧ Plannable t u) := by
  induction us generalizing b with
  | nil => exact .inl h
  | cons v us ih =>
    unfold betterFilter at h
    split at h
    · rcases ih h with hb | ⟨hu, hp⟩
      · exact .inl hb
      · exact .inr ⟨List.mem_cons_of_mem v hu, hp⟩
    · rename_i hv
      have hpv : Plannable t v := by
        rw [Plannable, ← Option.not_isNone, Bool.not_eq_true']
        exact Bool.eq_false_of_not_eq_true hv
      split at h
      · rcases ih h with hb | ⟨hu, hp⟩
        · cases hb
          exact .inr ⟨List.mem_cons_self, hpv⟩
        · exact .inr ⟨List.mem_cons_of_mem v hu, hp⟩
      · split at h
        · cases h
          exact .inr ⟨List.mem_cons_self, hpv⟩
        · rcases ih h with hb | ⟨hu, hp⟩
          · exact .inl hb
          · exact .inr ⟨List.mem_cons_of_mem v hu, hp⟩

theorem betterFilter_isSome (b : FilterUnit) (us : List FilterUnit) :
    (betterFilter t (some b) us).isSome := by
  induction us generalizing b with
  | nil => rfl
  | cons v us ih =>
    unfold betterFilter
    split
    · exact ih b
    · dsimp only
      split
      · rfl
      · exact ih b

theorem betterFilter_isSome_iff :
    (betterFilter t none us).isSome ↔ ∃ u ∈ us, Plannable t u := by
  constructor
  · intro h
    obtain ⟨u, hu⟩ := Option.isSome_iff_exists.mp h
    rcases betterFilter_mem hu with hb | hmem
    · cases hb
    · exact ⟨u, hmem⟩
  · rintro ⟨u, hu, hp⟩
    induction us with
    | nil => cases hu
    | cons v us ih =>
      unfold betterFilter
      split
      · rename_i hv
        rcases List.mem_cons.mp hu with rfl | hu
        · rw [Option.isNone_iff_eq_none] at hv
          rw [Plannable, hv] at hp
          cases hp
        · exact ih hu
      · exact betterFilter_isSome v us

theorem Plannable.scanArgs_isSome (h : Plannable t u) : (u.scanArgs t).isSome := by
  obtain ⟨comp, left, right⟩ := u
  unfold Plannable FilterUnit.index FilterUnit.fieldAndValue at h
  unfold FilterUnit.scanArgs
  cases left <;> cases right <;> simp only [Option.isSome_map] <;> split at h <;> simp_all

/-- An operator is made exactly for a filter that has a unit to plan by. -/
theorem createIndexScanOperator_isSome_iff (l r : Bool) :
    (createIndexScanOperator t us l r).isSome ↔ ∃ u ∈ us, Plannable t u := by
  rw [← betterFilter_isSome_iff, createIndexScanOperator]
  cases hb : betterFilter t none us with
  | none => exact Iff.rfl
  | some b =>
    rcases betterFilter_mem hb with hb | ⟨-, hp⟩
    · cases hb
    · rw [Option.isSome_map]
      exact iff_of_true hp.scanArgs_isSome rfl

/-- The operator never opens a scanner: its table and its index are null. -/
theorem scannerRange_none {l r : Bool} {o : IndexScanOperator σ}
    (h : createIndexScanOperator t us l r = some o) : o.scannerRange = none := by
  unfold createIndexScanOperator at h
  split at h
  · cases h
  · obtain ⟨args, -, rfl⟩ := Option.map_eq_some_iff.mp h
    rfl

/-- No row is lost if and only if no unit can be planned by, or no row passes the filter. -/
theorem losesNoRow_iff (t : Table σ) (units : List FilterUnit) :
    LosesNoRow t units ↔ (∀ u ∈ units, ¬Plannable t u) ∨
      ∀ record, predicate t.tableMeta.fields record units ≠ some true := by
  constructor
  · intro h
    by_contra hnot
    rw [not_or] at hnot
    obtain ⟨hplan, hrow⟩ := hnot
    obtain ⟨u, hu, hp⟩ : ∃ u ∈ units, Plannable t u := by
      by_contra hno
      exact hplan fun u hu hp => hno ⟨u, hu, hp⟩
    obtain ⟨record, hrecord⟩ : ∃ record, predicate t.tableMeta.fields record units = some true := by
      by_contra hno
      exact hrow fun record hr => hno ⟨record, hr⟩
    have hsome := (createIndexScanOperator_isSome_iff false false).mpr ⟨u, hu, hp⟩
    obtain ⟨o, ho⟩ := Option.isSome_iff_exists.mp hsome
    obtain ⟨index, range, hrange, -⟩ := h false false o ho record hrecord
    rw [scannerRange_none ho] at hrange
    cases hrange
  · intro h l r o ho record hrecord
    rcases h with h | h
    · have hsome : (createIndexScanOperator t units l r).isSome := by rw [ho]; rfl
      obtain ⟨u, hu, hp⟩ := (createIndexScanOperator_isSome_iff l r).mp hsome
      exact absurd hp (h u hu)
    · exact absurd hrecord (h record)

/-- `WHERE id = 1` with an index on `id`: the row is outside every range. -/
theorem not_losesNoRow_equal :
    ¬LosesNoRow (⟨⟨"t", [⟨"id", .ints, 4, 4, true⟩], [⟨"i", "id"⟩], 8⟩,
      [⟨⟨"i", "id"⟩, ⟨"id", .ints, 4, 4, true⟩, ()⟩]⟩ : Table Unit)
      [⟨.equalTo, .field ⟨"id", .ints, 4, 4, true⟩, .ofValue (.ints 1)⟩] := by
  rw [losesNoRow_iff]
  rintro (h | h)
  · exact h _ List.mem_cons_self rfl
  · exact h (fun i => if i = 4 then 1 else 0) (by decide)

end Plan

end Idmbs
