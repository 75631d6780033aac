import Idmbs.Storage.Layout

/-!
# Idmbs.Storage.TableJson

`TableMeta::Serialize` and `TableMeta::Deserialize` (storage/table.cpp, storage/field.cpp,
storage/index_meta.cpp). The JSON library that writes and parses the text is a parameter.
-/

namespace Idmbs

inductive Json where
  | null
  | int (v : Int)
  | bool (b : Bool)
  | string (s : String)
  | array (elems : List Json)
  | object (members : List (String × Json))

namespace Json

/-- `json_value[name]` for reading; `none` where it throws. -/
def member (name : String) : Json → Option Json
  | null => some null
  | object members => some ((members.lookup name).getD null)
  | _ => none

def isObject : Json → Bool
  | object _ => true
  | _ => false

def asString : Json → Option String
  | string s => some s
  | _ => none

/-- `asInt` of what `isInt` accepts. -/
def asInt : Json → Option Int
  | int v => if InInt32 v then some v else none
  | _ => none

def asBool : Json → Option Bool
  | bool b => some b
  | _ => none

/-- The elements if `isArray`. -/
def asArray : Json → Option (List Json)
  | array elems => some elems
  | _ => none

def empty : Json → Bool
  | null => true
  | array elems => elems.isEmpty
  | object members => members.isEmpty
  | _ => false

/-- What a value becomes that nothing or every element of a list was appended to. -/
def appended : List Json → Json
  | [] => null
  | elems => array elems

end Json

/-- The JSON library: `StreamWriter::write` and `parseFromStream`, between values and what is in the file. -/
structure JsonLibrary (Text : Type) where
  write : Json → Text
  parseFromStream : Text → Option Json

/-- A value that the library can hold: its numbers are those of an `int`, and no object has a member twice. -/
inductive Json.Proper : Json → Prop where
  | null : Proper .null
  | int {v : Int} (hv : InInt32 v) : Proper (.int v)
  | bool (b : Bool) : Proper (.bool b)
  | string (s : String) : Proper (.string s)
  | array {elems : List Json} (h : ∀ j ∈ elems, Proper j) : Proper (.array elems)
  | object {members : List (String × Json)} (hnames : (members.map Prod.fst).Nodup) (h : ∀ m ∈ members, Proper m.2) :
    Proper (.object members)

/-- A value that was written is read back. -/
def JsonLibrary.Faithful {Text : Type} (json : JsonLibrary Text) : Prop :=
  ∀ j, j.Proper → json.parseFromStream (json.write j) = some j

/-! ## Fields and indexes -/

def castAttrTypeString : AttrType → String
  | .undefined => "undefined"
  | .chars => "chars"
  | .ints => "ints"
  | .floats => "floats"
  | .dates => "dates"

def castStringAttrType (s : String) : AttrType :=
  if s = "undefined" then .undefined
  else if s = "chars" then .chars
  else if s = "ints" then .ints
  else if s = "floats" then .floats
  else if s = "dates" then .dates
  else .undefined

namespace FieldMeta

def toJson (f : FieldMeta) : Json :=
  .object [("name", .string f.fieldName), ("type", .string (castAttrTypeString f.attrType)),
    ("offset", .int f.offset), ("len", .int f.len), ("visible", .bool f.visible)]

/-- `FromJson`; `none` where the JSON library throws. -/
def fromJson (j : Json) : Option (Except Re FieldMeta) :=
  if j.isObject then do
    let nameValue ← j.member "name"
    let typeValue ← j.member "type"
    let offsetValue ← j.member "offset"
    let lenValue ← j.member "len"
    let visibleValue ← j.member "visible"
    match nameValue.asString, typeValue.asString, offsetValue.asInt, lenValue.asInt, visibleValue.asBool with
    | some name, some typeName, some offset, some len, some visible =>
      let type := castStringAttrType typeName
      if type = .undefined then some (.error .genericError)
      else some (init (some name) type offset len visible)
    | _, _, _, _, _ => some (.error .genericError)
  else some (.error .genericError)

end FieldMeta

namespace IndexMeta

def toJson (i : IndexMeta) : Json :=
  .object [("name", .string i.indexName), ("field_name", .string i.fieldName)]

def fromJson (tableMeta : TableMeta) (j : Json) : Option (Except Re IndexMeta) := do
  let nameValue ← j.member "name"
  let fieldValue ← j.member "field_name"
  match nameValue.asString, fieldValue.asString with
  | some name, some fieldName =>
    match tableMeta.getField fieldName with
    | none => some (.error .schemaFieldMissing)
    | some field => some (init name field)
  | _, _ => some (.error .genericError)

end IndexMeta

/-- The loops over the elements of an array: the first that fails ends it. -/
def fromJsonList {α : Type} (fromJson : Json → Option (Except Re α)) : List Json → Option (Except Re (List α))
  | [] => some (.ok [])
  | j :: js =>
    match fromJson j with
    | none => none
    | some (.error r) => some (.error r)
    | some (.ok x) =>
      match fromJsonList fromJson js with
      | none => none
      | some (.error r) => some (.error r)
      | some (.ok xs) => some (.ok (x :: xs))

/-! ## Tables -/

namespace TableMeta

/-- `TableMeta()`. -/
def fresh : TableMeta := ⟨"", [], [], 0⟩

/-- The value that `Serialize` writes. -/
def toJson (m : TableMeta) : Json :=
  .object [("table_name", .string m.tableName), ("fields", Json.appended (m.fields.map FieldMeta.toJson)),
    ("indexes", Json.appended (m.indexes.map IndexMeta.toJson))]

/-- The size that is recomputed from the sorted fields. -/
def spannedSize (fields : List FieldMeta) : Int :=
  match fields.head?, fields.getLast? with
  | some first, some last => wrap32 (wrap32 (last.offset + last.len) - first.offset)
  | _, _ => 0

/-- `Deserialize` of the value that was parsed: whether it succeeds, and the table it leaves; `none` where the JSON
library throws. -/
def fromJson (m : TableMeta) (tableValue : Json) : Option (Bool × TableMeta) := do
  let tableNameValue ← tableValue.member "table_name"
  match tableNameValue.asString with
  | none => some (false, m)
  | some tableName =>
    let fieldsValue ← tableValue.member "fields"
    match fieldsValue.asArray with
    | none => some (false, m)
    | some [] => some (false, m)
    | some fieldValues =>
      match fromJsonList FieldMeta.fromJson fieldValues with
      | none => none
      | some (.error _) => some (false, m)
      | some (.ok fields) =>
        let fields := fields.mergeSort fun f g => f.offset ≤ g.offset
        let m := { m with tableName := tableName, fields := fields, recordSize := spannedSize fields }
        let indexesValue ← tableValue.member "indexes"
        if indexesValue.empty then some (true, m)
        else
          match indexesValue.asArray with
          | none => some (false, m)
          | some indexValues =>
            match fromJsonList (IndexMeta.fromJson m) indexValues with
            | none => none
            | some (.error _) => some (false, m)
            | some (.ok indexes) => some (true, { m with indexes := indexes })

variable {Text : Type}

def serialize (json : JsonLibrary Text) (m : TableMeta) : Text := json.write m.toJson

def deserialize (json : JsonLibrary Text) (m : TableMeta) (text : Text) : Option (Bool × TableMeta) :=
  match json.parseFromStream text with
  | none => some (false, m)
  | some tableValue => m.fromJson tableValue

theorem deserialize_eq {json : JsonLibrary Text} (hjson : json.Faithful) {m m' : TableMeta}
    (h : m'.toJson.Proper) : m.deserialize json (m'.serialize json) = m.fromJson m'.toJson := by
  unfold deserialize serialize
  rw [hjson _ h]

end TableMeta

/-! ## Each step inverts -/

section Inverse

variable {f : FieldMeta} {i : IndexMeta} {m : TableMeta} {fs : List FieldMeta} {size : Int}

theorem castStringAttrType_cast (t : AttrType) : castStringAttrType (castAttrTypeString t) = t := by
  cases t <;> rfl

theorem FieldMeta.fromJson_toJson (h : f.Checked) (ho : InInt32 f.offset) (hl : InInt32 f.len) :
    FieldMeta.fromJson f.toJson = some (.ok f) := by
  have hname : f.toJson.member "name" = some (.string f.fieldName) := rfl
  have htype : f.toJson.member "type" = some (.string (castAttrTypeString f.attrType)) := rfl
  have hoffset : f.toJson.member "offset" = some (.int f.offset) := rfl
  have hlen : f.toJson.member "len" = some (.int f.len) := rfl
  have hvisible : f.toJson.member "visible" = some (.bool f.visible) := rfl
  have hobject : f.toJson.isObject = true := rfl
  unfold FieldMeta.fromJson
  rw [if_pos hobject]
  simp only [hname, htype, hoffset, hlen, hvisible, bind, Option.bind, Json.asString, Json.asInt, Json.asBool,
    if_pos ho, if_pos hl, castStringAttrType_cast]
  rw [if_neg h.type, h.init]

theorem fromJsonList_map {α : Type} {fromJson : Json → Option (Except Re α)} {toJson : α → Json} {xs : List α}
    (h : ∀ x ∈ xs, fromJson (toJson x) = some (.ok x)) : fromJsonList fromJson (xs.map toJson) = some (.ok xs) := by
  induction xs with
  | nil => rfl
  | cons x xs ih =>
    rw [List.forall_mem_cons] at h
    rw [List.map_cons, fromJsonList, h.1, ih h.2]

/-- An index of `m`: named, and on one of its fields. -/
def IndexMeta.On (m : TableMeta) (i : IndexMeta) : Prop :=
  ∃ name, ∃ f ∈ m.fields, IndexMeta.init name f = .ok i

theorem IndexMeta.fromJson_toJson (h : i.On m) (hne : ∀ f ∈ m.fields, f.Checked) :
    IndexMeta.fromJson m i.toJson = some (.ok i) := by
  obtain ⟨name, f, hf, hinit⟩ := h
  unfold IndexMeta.init at hinit
  split at hinit
  · cases hinit
  · rename_i hblank
    cases hinit
    obtain ⟨g, hg⟩ : ∃ g, m.fields.find? (fun g => g.fieldName == f.fieldName) = some g :=
      Option.isSome_iff_exists.mp (List.find?_isSome.mpr ⟨f, hf, beq_self_eq_true _⟩)
    have hbeq := List.find?_some hg
    have hname : g.fieldName = f.fieldName := eq_of_beq hbeq
    have hget : m.getField f.fieldName = some g := by
      unfold TableMeta.getField
      rw [if_neg (hne f hf).name, hg]
    have hmember : (IndexMeta.mk name f.fieldName).toJson.member "name" = some (.string name) := rfl
    have hfield : (IndexMeta.mk name f.fieldName).toJson.member "field_name" = some (.string f.fieldName) := rfl
    unfold IndexMeta.fromJson
    simp only [hmember, hfield, bind, Option.bind, Json.asString, hget]
    unfold IndexMeta.init
    rw [if_neg hblank, hname]

theorem FieldMeta.toJson_proper (ho : InInt32 f.offset) (hl : InInt32 f.len) : f.toJson.Proper := by
  refine .object (by simp) ?_
  simp only [List.forall_mem_cons]
  exact ⟨.string _, .string _, .int ho, .int hl, .bool _, List.forall_mem_nil _⟩

theorem IndexMeta.toJson_proper : i.toJson.Proper := by
  refine .object (by simp) ?_
  simp only [List.forall_mem_cons]
  exact ⟨.string _, .string _, List.forall_mem_nil _⟩

theorem Json.appended_proper {elems : List Json} (h : ∀ j ∈ elems, j.Proper) : (Json.appended elems).Proper := by
  cases elems with
  | nil => exact .null
  | cons j js => exact .array h

theorem TableMeta.toJson_proper (h : ∀ f ∈ m.fields, InInt32 f.offset ∧ InInt32 f.len) : m.toJson.Proper := by
  refine .object (by simp) ?_
  simp only [List.forall_mem_cons]
  refine ⟨.string _, Json.appended_proper fun j hj => ?_, Json.appended_proper fun j hj => ?_, List.forall_mem_nil _⟩
  · obtain ⟨f, hf, rfl⟩ := List.mem_map.mp hj
    exact FieldMeta.toJson_proper (h f hf).1 (h f hf).2
  · obtain ⟨i, -, rfl⟩ := List.mem_map.mp hj
    exact IndexMeta.toJson_proper

/-- The numbers in a table that `Init` made are those of an `int`. -/
theorem TableMeta.init_inInt32 {name : Option String} {as : List AttrInfo} (h : TableMeta.init name as = .ok m)
    (has : ∀ a ∈ as, InInt32 a.attrLen) : ∀ f ∈ m.fields, InInt32 f.offset ∧ InInt32 f.len := by
  obtain ⟨fs, hfields, hlayout, rfl, -, -⟩ := TableMeta.init_layout h
  have hoffset := hlayout.inInt32 (show InInt32 0 by decide)
  intro f hf
  refine ⟨hoffset f hf, ?_⟩
  rw [hfields] at hf
  cases List.mem_append.mp hf with
  | inl hsys =>
    cases List.mem_singleton.mp hsys
    decide
  | inr huser => exact has _ (List.mem_map_of_mem huser)

theorem spannedSize_layout (h : Layout 0 fs size) (hne : fs ≠ []) : TableMeta.spannedSize fs = size := by
  have hsize := h.size_eq hne
  have hlast := List.getLast?_eq_some_getLast hne
  cases fs with
  | nil => exact absurd rfl hne
  | cons f fs =>
    unfold TableMeta.spannedSize
    rw [hlast]
    simp only [List.head?_cons]
    rw [h.1, ← hsize, Int.sub_zero, hsize, wrap32_of_inInt32 (inInt32_wrap32 _)]

theorem TableMeta.fromJson_toJson {name : Option String} {as : List AttrInfo} {is : List IndexMeta}
    (h : TableMeta.init name as = .ok m) (has : ∀ a ∈ as, InInt32 a.attrLen) (his : ∀ i ∈ is, i.On m) :
    TableMeta.fresh.fromJson { m with indexes := is }.toJson = some (true, { m with indexes := is }) := by
  have hints := TableMeta.init_inInt32 h has
  obtain ⟨fs, hfields, hlayout, rfl, -, -⟩ := TableMeta.init_layout h
  have hne : m.fields ≠ [] := by simp [hfields, TableMeta.sysFields]
  have hlen : ∀ f ∈ m.fields, InInt32 f.len := fun f hf => (hints f hf).2
  have hoffset : ∀ f ∈ m.fields, InInt32 f.offset := fun f hf => (hints f hf).1
  have hsorted := (hlayout.sorted (show InInt32 0 by decide) hlen).1
  have hread : fromJsonList FieldMeta.fromJson (m.fields.map FieldMeta.toJson) = some (.ok m.fields) :=
    fromJsonList_map fun f hf => FieldMeta.fromJson_toJson (hlayout.checked f hf) (hoffset f hf) (hlen f hf)
  have hsort : m.fields.mergeSort (fun f g => f.offset ≤ g.offset) = m.fields :=
    List.mergeSort_of_pairwise (hsorted.imp fun hlt => decide_eq_true hlt.le)
  have hsize : TableMeta.spannedSize m.fields = m.recordSize := spannedSize_layout hlayout hne
  have hchecked := hlayout.checked
  obtain ⟨tableName, fields, indexes, recordSize⟩ := m
  obtain ⟨f, rest, rfl⟩ : ∃ f rest, fields = f :: rest := List.exists_cons_of_ne_nil hne
  obtain ⟨j, hj⟩ : ∃ j, TableMeta.toJson ⟨tableName, f :: rest, is, recordSize⟩ = j := ⟨_, rfl⟩
  have hname : j.member "table_name" = some (.string tableName) := by rw [← hj]; rfl
  have hfield : j.member "fields" = some (.array ((f :: rest).map FieldMeta.toJson)) := by rw [← hj]; rfl
  have hindex : j.member "indexes" = some (Json.appended (is.map IndexMeta.toJson)) := by rw [← hj]; rfl
  unfold TableMeta.fromJson
  simp only [hj, hname, hfield, hindex, bind, Option.bind, Json.asString, Json.asArray, List.map_cons]
  simp only [List.map_cons] at hread
  simp only [hread, hsort, hsize]
  cases is with
  | nil => rfl
  | cons i is =>
    have hon : ∀ x ∈ i :: is, IndexMeta.fromJson
        { TableMeta.fresh with tableName := tableName, fields := f :: rest, recordSize := recordSize } x.toJson =
          some (.ok x) := by
      intro x hx
      exact IndexMeta.fromJson_toJson (his x hx) hchecked
    have hindexes := fromJsonList_map hon
    simp only [List.map_cons] at hindexes
    simp only [List.map_cons, Json.appended, Json.empty, List.isEmpty_cons, Bool.false_eq_true, if_false, hindexes]

/-- A library whose texts are the values. -/
def JsonLibrary.values : JsonLibrary Json := ⟨id, some⟩

end Inverse

end Idmbs
