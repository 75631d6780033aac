import Idmbs.Resolve.SelectStatement
import Idmbs.Storage.RowEncoding

/-!
# Idmbs.Execute.TupleText

What a SELECT prints: `TupleUnit::ToString` and `ProjectTuple` (resolve/tuple.cpp), `PrintTupleHeader` and
`DescStrTuple` (execute/execute_main.cpp). `snprintf` stands for `%.2f` of the four bytes of a float.
-/

namespace Idmbs

open CString

/-- The bytes of a record in memory. -/
def recordPointer (bs : List UInt8) : Pointer := fun i => bs.getD i 0

def textOf (s : String) : List UInt8 := s.toList.map fun c => UInt8.ofNat c.toNat

/-- The numeral that `<<` prints of an `int`. -/
def decimal (v : Int) : List UInt8 := textOf (toString v)

/-- `Double2string` of what `snprintf` left in the buffer: without the zeros at its end, and without the dot
if it comes to stand there. -/
def double2string (buf : List UInt8) : List UInt8 :=
  let buf := buf.reverse.dropWhile (· = 48)
  (if buf.head? = some 46 then buf.tail else buf).reverse

def columnSeparator : List UInt8 := [32, 124, 32]

section Texts

variable (snprintf : List UInt8 → List UInt8)

def TupleUnit.toString (u : TupleUnit) : Option (List UInt8) :=
  match u.attrType with
  | .ints => some (decimal (intAt u.data))
  | .floats => some (double2string (snprintf (Bytes.read u.data 0 4)))
  | .chars => some u.toText
  | .dates => none
  | .undefined => some []

/-- `RowTuple::GetUnit`: the first field of that name, if the field is of this table; `none` is `NotFound`. -/
def RowTuple.getUnit (m : TableMeta) (record : Pointer) (field : Field) : Option TupleUnit :=
  if m.tableName ≠ field.table.tableName then none
  else
    match m.fields.findIdx? fun f => field.fieldMeta.fieldName == f.fieldName with
    | none => none
    | some i => (RowTuple.getUnitAt m.fields record i).toOption

/-- `PrintTupleHeader` from column `i` on; the alias of a column is the name of its field. -/
def headerNames : Nat → List Field → List UInt8
  | _, [] => []
  | i, f :: fs => (if i ≠ 0 then columnSeparator else []) ++ textOf f.fieldMeta.fieldName ++ headerNames (i + 1) fs

def printTupleHeader (fields : List Field) : List UInt8 :=
  headerNames 0 fields ++ if 0 < fields.length then [10] else []

/-- `DescStrTuple` from column `i` on: a unit that cannot be had ends the line. -/
def descStrTuple (m : TableMeta) (record : Pointer) : Nat → List Field → Option (List UInt8)
  | _, [] => some []
  | i, f :: fs =>
    match RowTuple.getUnit m record f with
    | none => some []
    | some unit =>
      match unit.toString snprintf with
      | none => none
      | some text =>
        (descStrTuple m record (i + 1) fs).map ((if i ≠ 0 then columnSeparator else []) ++ text ++ ·)

end Texts

/-! ## Lines -/

/-- Columns side by side. -/
def joinColumns : List (List UInt8) → List UInt8
  | [] => []
  | t :: ts => t ++ ts.flatMap (columnSeparator ++ ·)

section Lines

variable {snprintf : List UInt8 → List UInt8} {m : TableMeta} {record : Pointer} {fields : List Field} {i : Nat}

/-- The text of a column. -/
def Prints (snprintf : List UInt8 → List UInt8) (m : TableMeta) (record : Pointer) (field : Field)
    (text : List UInt8) : Prop :=
  ∃ unit, RowTuple.getUnit m record field = some unit ∧ unit.toString snprintf = some text

theorem descStrTuple_succ {texts : List (List UInt8)} (h : List.Forall₂ (Prints snprintf m record) fields texts) :
    descStrTuple snprintf m record (i + 1) fields = some (texts.flatMap (columnSeparator ++ ·)) := by
  induction h generalizing i with
  | nil => rfl
  | cons hf _ ih =>
    obtain ⟨unit, hunit, htext⟩ := hf
    simp only [descStrTuple, hunit, htext, ih, Option.map_some]
    rw [if_pos (Nat.succ_ne_zero i)]
    simp

theorem descStrTuple_eq {texts : List (List UInt8)} (h : List.Forall₂ (Prints snprintf m record) fields texts) :
    descStrTuple snprintf m record 0 fields = some (joinColumns texts) := by
  cases h with
  | nil => rfl
  | cons hf hfs =>
    obtain ⟨unit, hunit, htext⟩ := hf
    simp only [descStrTuple, hunit, htext, descStrTuple_succ hfs, Option.map_some]
    rw [if_neg (not_not.mpr rfl)]
    rfl

end Lines

/-! ## From the literal to the line -/

/-- What is printed of a literal that was stored in a field of `len` bytes. -/
def Value.text (snprintf : List UInt8 → List UInt8) (len : Int) : Value → List UInt8
  | .ints v => decimal v
  | .floats bits => double2string (snprintf (Bytes.encode 4 bits.toNat))
  | .chars s => (s.takeWhile (· ≠ 0)).take len.toNat
  | _ => []

/-- The bytes that `InsertRecord` of a transaction gives to the record file. -/
def TableMeta.rowBytes (m : TableMeta) (values : List Value) (heap : Pointer) (txnId : Int) :
    Except Re (List UInt8) :=
  match m.makeRecord values heap with
  | .error r => .error r
  | .ok record => .ok (Bytes.read (TxnMark.init m.getTxnField txnId record) 0 m.recordSize.toNat)

section Printed

variable {snprintf : List UInt8 → List UInt8} {m : TableMeta} {name : Option String} {as : List AttrInfo}
  {record : Pointer} {f : FieldMeta} {v : Value} {values : List Value} {i n : Nat}

theorem TupleUnit.Gives.toString {u : TupleUnit} (h : u.Gives v) :
    u.toString snprintf = some (v.text snprintf u.length) := by
  cases v with
  | ints n =>
    obtain ⟨htype, hdata⟩ := h
    simp only [TupleUnit.toString, htype, hdata, Value.text]
  | floats bits =>
    obtain ⟨htype, hdata⟩ := h
    simp only [TupleUnit.toString, htype, hdata, Value.text]
  | chars s =>
    obtain ⟨htype, hdata⟩ := h
    simp only [TupleUnit.toString, htype, hdata, Value.text]
  | dates s => exact absurd h id
  | undefined => exact absurd h id

theorem recordPointer_read (h : i < n) : recordPointer (Bytes.read record 0 n) i = record i := by
  have hlt : i < (Bytes.read record 0 n).length := by simpa using h
  unfold recordPointer
  rw [List.getD_eq_getElem _ _ hlt, Bytes.getElem_read, Nat.zero_add]

/-- Where no two fields have one name, a field is found by its name. -/
theorem getUnit_of_nodup (hnodup : (m.fields.map FieldMeta.fieldName).Nodup) (hf : m.fields[i]? = some f) :
    RowTuple.getUnit m record ⟨m, f⟩ = some ⟨f.attrType, f.len, Pointer.add record f.offset⟩ := by
  obtain ⟨hlt, hget⟩ := List.getElem?_eq_some_iff.mp hf
  have hfind : (m.fields.findIdx? fun g => f.fieldName == g.fieldName) = some i := by
    rw [List.findIdx?_eq_some_iff_getElem]
    refine ⟨hlt, by simp [hget], fun j hj => ?_⟩
    have hne := List.pairwise_iff_getElem.mp hnodup j i (by simp only [List.length_map]; omega) (by simpa using hlt) hj
    rw [List.getElem_map, List.getElem_map, hget] at hne
    simpa using hne.symm
  unfold RowTuple.getUnit
  rw [if_neg (not_not.mpr rfl)]
  simp only [hfind, getUnitAt_ok hf]
  rfl

/-- The columns of `SELECT *` print what the INSERT wrote. -/
theorem descStrTuple_inserted (snprintf : List UInt8 → List UInt8) (values : List Value) (heap : Pointer)
    (txnId : Int) (h : TableMeta.init name as = .ok m)
    (hvalid : ∀ a ∈ as, CreateTableStatement.isFieldValid a = some true)
    (hfit : 4 + (as.map AttrInfo.attrLen).sum < 2 ^ 31) (hnodup : (m.fields.map FieldMeta.fieldName).Nodup)
    (htypes : values.map Value.type = as.map AttrInfo.attrType) (hints : ∀ n, Value.ints n ∈ values → InInt32 n) :
    ∃ bs, m.rowBytes values heap txnId = .ok bs ∧ bs.length = m.recordSize.toNat ∧
      descStrTuple snprintf m (recordPointer bs) 0 (wildcardFields m) =
        some (joinColumns (List.zipWith (fun a v => v.text snprintf a.attrLen) as values)) := by
  obtain ⟨fs, hfields, hlayout, rfl, -, -⟩ := TableMeta.init_layout h
  have hsum : (m.fields.map FieldMeta.len).sum = 4 + ((fs.map FieldMeta.attrInfo).map AttrInfo.attrLen).sum := by
    rw [hfields, List.map_append, List.sum_append, List.map_map]
    rfl
  have htiles := hlayout.tiles (by omega)
  rw [List.map_map] at htypes
  have htypes : values.map Value.type = fs.map FieldMeta.attrType := htypes
  have hlen : values.length = fs.length := by
    have hlength := congrArg List.length htypes
    rwa [List.length_map, List.length_map] at hlength
  have hlayout4 : Layout 4 fs m.recordSize := by
    rw [hfields] at hlayout
    exact hlayout.2.2
  have hdis : fs.Pairwise fun f g => f.offset + f.len ≤ g.offset := by
    have hall := htiles.disjoint
    rw [hfields, List.pairwise_append] at hall
    exact hall.2.1
  have hcont : Contiguous 4 fs m.recordSize := by
    have hcont := htiles.contiguous
    rw [hfields] at hcont
    exact hcont.2
  have htxn : m.getTxnField.offset.toNat = 0 := by
    unfold TableMeta.getTxnField
    rw [hfields]
    rfl
  obtain ⟨record, hrecord⟩ : ∃ record, TableMeta.copyValues heap (fs.zip values) = record := ⟨_, rfl⟩
  have hmade : m.makeRecord values heap = .ok record := hrecord ▸ makeRecord_ok heap hfields htypes
  refine ⟨Bytes.read (TxnMark.init m.getTxnField txnId record) 0 m.recordSize.toNat, ?_, by simp, ?_⟩
  · unfold TableMeta.rowBytes
    rw [hmade]
  · refine descStrTuple_eq ?_
    have hwild : wildcardFields m = fs.map fun f => ⟨m, f⟩ := by
      unfold wildcardFields
      rw [hfields, List.drop_left]
    rw [hwild, List.zipWith_map_left, List.forall₂_iff_get]
    refine ⟨by simp [hlen], fun i hi hi' => ?_⟩
    have hi : i < fs.length := by simpa using hi
    have hv : i < values.length := hlen ▸ hi
    simp only [List.get_eq_getElem, List.getElem_map, List.getElem_zipWith]
    have hf : fs[i]? = some fs[i] := List.getElem?_eq_getElem hi
    have hmem : fs[i] ∈ fs := List.getElem_mem hi
    have hget : m.fields[i + 1]? = some fs[i] := by
      rw [hfields]
      exact hf
    refine ⟨_, getUnit_of_nodup hnodup hget, ?_⟩
    have hbounds := (hcont.bounds fun g hg => (hlayout4.checked g hg).len).2 _ hmem
    have hpos := (hlayout4.checked _ hmem).len
    have hgives : TupleUnit.Gives ⟨fs[i].attrType, fs[i].len, Pointer.add (recordPointer
        (Bytes.read (TxnMark.init m.getTxnField txnId record) 0 m.recordSize.toNat)) fs[i].offset⟩ values[i] := by
      refine gives_of_copied (hvalid _ (List.mem_map_of_mem hmem))
        (type_eq_of_map htypes hf (List.getElem?_eq_getElem hv)) ?_ ?_
      · intro n hn
        exact hints n (hn ▸ List.getElem_mem hv)
      · intro j hj
        have hle := copiedLen_le fs[i] values[i]
        rw [recordPointer_read (by omega), init_behind (by omega), ← hrecord]
        exact copied_of_zip hlayout4 hdis hlen hf (List.getElem?_eq_getElem hv) j hj
    exact hgives.toString

end Printed

/-- The row `('a', 7)`, in memory that was not cleared, is the line `a | 7`. -/
theorem descStrTuple_inserted_wide : ∃ bs, wideTable.rowBytes [.chars [97], .ints 7] (fun _ => 255) 1 = .ok bs ∧
    bs.length = wideTable.recordSize.toNat ∧
    descStrTuple id wideTable (recordPointer bs) 0 (wildcardFields wideTable) = some [97, 32, 124, 32, 55] := by
  have hinit : TableMeta.init (some "t") [⟨some "c", .chars, 4⟩, ⟨some "n", .ints, 4⟩] = .ok wideTable := by
    decide
  have hints : ∀ n, Value.ints n ∈ [Value.chars [97], .ints 7] → InInt32 n := by
    intro n hn
    simp only [List.mem_cons, reduceCtorEq, Value.ints.injEq, List.not_mem_nil, or_false, false_or] at hn
    rw [hn]
    decide
  have hline : joinColumns (List.zipWith (fun (a : AttrInfo) v => Value.text id a.attrLen v)
      [⟨some "c", .chars, 4⟩, ⟨some "n", .ints, 4⟩] [.chars [97], .ints 7]) = [97, 32, 124, 32, 55] := by decide
  rw [← hline]
  exact descStrTuple_inserted id [.chars [97], .ints 7] (fun _ => 255) 1 hinit (by decide) (by decide) (by decide)
    rfl hints

end Idmbs
