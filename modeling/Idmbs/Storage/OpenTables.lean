import Idmbs.Storage.CreateTable
import Idmbs.Storage.TableJson
import Mathlib.Data.List.Perm.Basic
import Mathlib.Data.List.Nodup

/-!
# Idmbs.Storage.OpenTables

`DataBase::OpenAllTables`: what a restart finds of the tables that `DataBase::CreateTable` made
(storage/database.cpp, storage/table.cpp).
-/

namespace Idmbs

/-- How the files of a table answer when it is opened again, and the JSON library that reads its meta file. -/
structure OpenFileIO (Text : Type) where
  isOpen : String → Bool
  initRecordHandler : String → Re
  json : JsonLibrary Text

/-- The meta files open and the record files do. -/
def OpenFileIO.Answers {Text : Type} (io : OpenFileIO Text) : Prop :=
  ∀ name, io.isOpen name = true ∧ io.initRecordHandler name = .success

/-- `\w*`, the name in front of `.table`. -/
def isWord (s : String) : Bool := s.toList.all fun c => c.isAlphanum || c == '_'

/-- The table that a meta file holds. -/
def MetaFile.table? : String × MetaFile → Option (String × TableMeta)
  | (_, .empty) => none
  | (name, .serialized m) => some (name, m)

/-- What is written of a table is what is read. -/
def TableMeta.ReadBack (m : TableMeta) : Prop :=
  m.toJson.Proper ∧ TableMeta.fresh.fromJson m.toJson = some (true, m)

namespace DataBase

variable {Text : Type}

/-- `Table::Init` for a table that is there; `none` where the JSON library throws. -/
def tableOpen (io : OpenFileIO Text) (file : String × MetaFile) : Option (Except Re TableMeta) :=
  if io.isOpen file.1 = false then some (.error .ioErr)
  else
    match file.2 with
    | .empty => some (.error .genericError)
    | .serialized m =>
      match TableMeta.fresh.deserialize io.json (m.serialize io.json) with
      | none => none
      | some (false, _) => some (.error .genericError)
      | some (true, m) =>
        if io.initRecordHandler m.tableName ≠ .success then some (.error (io.initRecordHandler m.tableName))
        else some (.ok m)

/-- The loop of `OpenAllTables` over the listed files. -/
def openTables (io : OpenFileIO Text) : List (String × TableMeta) → List (String × MetaFile) →
    Option (Re × List (String × TableMeta))
  | opened, [] => some (.success, opened)
  | opened, file :: files =>
    match tableOpen io file with
    | none => none
    | some (.error r) => some (r, opened)
    | some (.ok m) =>
      if opened.any fun t => t.1 == m.tableName then some (.genericError, opened)
      else openTables io (opened ++ [(m.tableName, m)]) files

/-- `OpenAllTables` of a new `DataBase` on the directory of `d`; `listing` is the order of `ListFile`. -/
def openAllTables (io : OpenFileIO Text) (listing : List (String × MetaFile)) (d : DataBase) : Option (Re × DataBase) :=
  match openTables io [] (listing.filter fun f => isWord f.1) with
  | none => none
  | some (r, opened) => some (r, ⟨opened, d.metaFiles⟩)

/-! ## One call of `CreateTable` -/

section Call

variable {io : TableFileIO} {d d' : DataBase} {tableName : String} {attrInfos : List AttrInfo} {r : Re} {m : TableMeta}

theorem init_error (h : TableMeta.init (some tableName) attrInfos = .error r) : r ≠ .success := by
  unfold TableMeta.init at h
  simp only at h
  split at h
  · cases h
    decide
  · split at h
    · cases h
      decide
    · split at h
      · rename_i hfields
        cases h
        exact initFields_error hfields
      · cases h

/-- The meta file that a call that was not turned down adds, and what it answers. -/
inductive Adds (tableName : String) (attrInfos : List AttrInfo) (d : DataBase) : Re → DataBase → Prop where
  | empty {r : Re} (hr : r ≠ .success) :
      Adds tableName attrInfos d r { d with metaFiles := d.metaFiles ++ [(tableName, .empty)] }
  | ghost {r : Re} {m : TableMeta} (hr : r ≠ .success) (hm : TableMeta.init (some tableName) attrInfos = .ok m) :
      Adds tableName attrInfos d r { d with metaFiles := d.metaFiles ++ [(tableName, .serialized m)] }
  | table {m : TableMeta} (hm : TableMeta.init (some tableName) attrInfos = .ok m) :
      Adds tableName attrInfos d .success
        ⟨d.openedTables ++ [(tableName, m)], d.metaFiles ++ [(tableName, .serialized m)]⟩

theorem createTable_cases (h : d.createTable io tableName attrInfos = some (r, d')) :
    (d.TurnedDown tableName attrInfos ∧ r ≠ .success ∧ d' = d) ∨
    (¬d.TurnedDown tableName attrInfos ∧ Adds tableName attrInfos d r d') := by
  unfold createTable tableInit at h
  by_cases hopened : (d.openedTables.any fun t => t.1 == tableName) = true
  · rw [if_pos hopened] at h
    cases h
    exact .inl ⟨.inr (.inr (.inr (.inl hopened))), by decide, rfl⟩
  rw [if_neg hopened] at h
  by_cases hname : strBlank (some tableName) = true ∨ tableName.utf8ByteSize > TableMeta.tableNameMaxLen
  · rw [if_pos hname] at h
    cases h
    exact .inl ⟨hname.imp_right .inl, by decide, rfl⟩
  rw [if_neg hname] at h
  by_cases hattrs : attrInfos = []
  · rw [if_pos hattrs] at h
    cases h
    exact .inl ⟨.inr (.inr (.inl hattrs)), by decide, rfl⟩
  rw [if_neg hattrs] at h
  by_cases hfile : (d.metaFiles.any fun f => f.1 == tableName) = true
  · rw [if_pos hfile] at h
    cases h
    exact .inl ⟨.inr (.inr (.inr (.inr hfile))), by decide, rfl⟩
  rw [if_neg hfile] at h
  refine .inr ⟨?_, ?_⟩
  · rintro (hd | hd | hd | hd | hd)
    · exact hname (.inl hd)
    · exact hname (.inr hd)
    · exact hattrs hd
    · exact hopened hd
    · exact hfile hd
  by_cases happend : io.append = false
  · rw [if_pos happend] at h
    cases h
  rw [if_neg happend] at h
  cases hinit : TableMeta.init (some tableName) attrInfos with
  | error r' =>
    simp only [hinit] at h
    cases h
    exact .empty (init_error hinit)
  | ok m =>
    simp only [hinit] at h
    by_cases hopen : io.isOpen = false
    · rw [if_pos hopen] at h
      cases h
      exact .empty (by decide)
    rw [if_neg hopen] at h
    by_cases hcreate : io.createFile = .success
    · by_cases hhandler : io.initRecordHandler = .success
      · simp only [hcreate, hhandler, ne_eq, not_true_eq_false, if_false] at h
        cases h
        exact .table hinit
      · simp only [hcreate, hhandler, ne_eq, not_true_eq_false, not_false_eq_true, if_false, if_true] at h
        cases h
        exact .ghost hhandler hinit
    · simp only [hcreate, ne_eq, not_false_eq_true, if_true] at h
      cases h
      exact .ghost hcreate hinit

end Call

/-! ## The catalog -/

/-- The opened tables have their meta files, and what a file holds is read back. -/
structure Cataloged (d : DataBase) : Prop where
  names : (d.metaFiles.map Prod.fst).Nodup
  openedNames : (d.openedTables.map Prod.fst).Nodup
  opened : ∀ t ∈ d.openedTables, (t.1, MetaFile.serialized t.2) ∈ d.metaFiles
  word : ∀ f ∈ d.metaFiles, isWord f.1 = true
  readable : ∀ name m, (name, MetaFile.serialized m) ∈ d.metaFiles →
    m.tableName = name ∧ m.ReadBack

/-- Every meta file is that of an opened table. -/
def Whole (d : DataBase) : Prop := ∀ f ∈ d.metaFiles, ∃ t ∈ d.openedTables, f = (t.1, .serialized t.2)

structure CreateTableCall where
  io : TableFileIO
  tableName : String
  attrInfos : List AttrInfo

/-- The name is one that the scanner lets through, and the lengths are those of an `int`. -/
def CreateTableCall.Possible (c : CreateTableCall) : Prop :=
  isWord c.tableName = true ∧ ∀ a ∈ c.attrInfos, InInt32 a.attrLen

section Calls

variable {d d' : DataBase} {c : CreateTableCall} {cs : List CreateTableCall} {r : Re} {name : String} {file : MetaFile}

theorem not_mem_of_passed {attrInfos : List AttrInfo} (h : ¬d.TurnedDown name attrInfos) :
    name ∉ d.openedTables.map Prod.fst ∧ name ∉ d.metaFiles.map Prod.fst := by
  unfold TurnedDown at h
  simp only [not_or] at h
  obtain ⟨-, -, -, hopened, hfile⟩ := h
  simp only [Bool.not_eq_true, List.any_eq_false, beq_iff_eq] at hopened hfile
  constructor
  · rintro hmem
    obtain ⟨t, ht, rfl⟩ := List.mem_map.mp hmem
    exact hopened t ht rfl
  · rintro hmem
    obtain ⟨f, hf, rfl⟩ := List.mem_map.mp hmem
    exact hfile f hf rfl

theorem Cataloged.add (h : Cataloged d) (hnew : name ∉ d.metaFiles.map Prod.fst) (hword : isWord name = true)
    (hread : ∀ m, file = .serialized m → m.tableName = name ∧ m.ReadBack) :
    Cataloged { d with metaFiles := d.metaFiles ++ [(name, file)] } where
  names := by
    rw [List.map_append]
    exact h.names.append (List.nodup_singleton _) (by simpa using hnew)
  openedNames := h.openedNames
  opened t ht := List.mem_append_left _ (h.opened t ht)
  word f hf := by
    rcases List.mem_append.mp hf with hf | hf
    · exact h.word f hf
    · rw [List.mem_singleton.mp hf]
      exact hword
  readable n m hm := by
    rcases List.mem_append.mp hm with hm | hm
    · exact h.readable n m hm
    · obtain ⟨rfl, heq⟩ := Prod.mk.inj (List.mem_singleton.mp hm)
      exact hread m heq.symm

theorem not_whole_add (h : Cataloged d) (hnew : name ∉ d.metaFiles.map Prod.fst) :
    ¬Whole { d with metaFiles := d.metaFiles ++ [(name, file)] } := by
  intro hw
  obtain ⟨t, ht, heq⟩ := hw (name, file) (by simp)
  exact hnew (List.mem_map.mpr ⟨_, h.opened t ht, (congrArg Prod.fst heq).symm⟩)

/-- The meta file of a table without indexes is read back. -/
theorem fromJson_of_layout {m : TableMeta} (hlayout : Layout 0 m.fields m.recordSize)
    (hlen : ∀ f ∈ m.fields, InInt32 f.len) (hne : m.fields ≠ []) (hindexes : m.indexes = []) :
    TableMeta.fresh.fromJson m.toJson = some (true, m) := by
  have hzero : InInt32 0 := by decide
  have hoffset := hlayout.inInt32 hzero
  have hread : fromJsonList FieldMeta.fromJson (m.fields.map FieldMeta.toJson) = some (.ok m.fields) :=
    fromJsonList_map fun f hf => FieldMeta.fromJson_toJson (hlayout.checked f hf) (hoffset f hf) (hlen f hf)
  have hsort : m.fields.mergeSort (fun f g => f.offset ≤ g.offset) = m.fields :=
    List.mergeSort_of_pairwise ((hlayout.sorted hzero hlen).1.imp fun hlt => decide_eq_true hlt.le)
  have hsize : TableMeta.spannedSize m.fields = m.recordSize := spannedSize_layout hlayout hne
  obtain ⟨tableName, fields, indexes, recordSize⟩ := m
  obtain rfl : indexes = [] := hindexes
  obtain ⟨f, rest, rfl⟩ : ∃ f rest, fields = f :: rest := List.exists_cons_of_ne_nil hne
  have hname : (TableMeta.toJson ⟨tableName, f :: rest, [], recordSize⟩).member "table_name" =
      some (.string tableName) := rfl
  have hfield : (TableMeta.toJson ⟨tableName, f :: rest, [], recordSize⟩).member "fields" =
      some (.array ((f :: rest).map FieldMeta.toJson)) := rfl
  have hindex : (TableMeta.toJson ⟨tableName, f :: rest, [], recordSize⟩).member "indexes" =
      some (Json.appended []) := rfl
  unfold TableMeta.fromJson
  simp only [hname, hfield, hindex, bind, Option.bind, Json.asString, Json.asArray, List.map_cons]
  simp only [List.map_cons] at hread
  simp only [hread, hsort, hsize]
  rfl

theorem readable_of_init {attrInfos : List AttrInfo} {m : TableMeta} (hlen : ∀ a ∈ attrInfos, InInt32 a.attrLen)
    (hm : TableMeta.init (some name) attrInfos = .ok m) :
    m.tableName = name ∧ m.ReadBack := by
  have hints := TableMeta.init_inInt32 hm hlen
  obtain ⟨fs, hfields, hlayout, rfl, hname, hindexes⟩ := TableMeta.init_layout hm
  have hne : m.fields ≠ [] := by simp [hfields, TableMeta.sysFields]
  exact ⟨(Option.some.inj hname).symm, TableMeta.toJson_proper hints,
    fromJson_of_layout hlayout (fun f hf => (hints f hf).2) hne hindexes⟩

/-- A call keeps the catalog, and keeps it whole if and only if it is turned down or succeeds. -/
theorem Cataloged.createTable (h : Cataloged d) (hc : c.Possible)
    (hcall : d.createTable c.io c.tableName c.attrInfos = some (r, d')) :
    Cataloged d' ∧ (Whole d' ↔ Whole d ∧ (d.TurnedDown c.tableName c.attrInfos ∨ r = .success)) := by
  rcases createTable_cases hcall with ⟨hdown, -, rfl⟩ | ⟨hpassed, hadds⟩
  · exact ⟨h, by simp [hdown]⟩
  · obtain ⟨hnotOpened, hnew⟩ := not_mem_of_passed hpassed
    cases hadds with
    | empty hr =>
      exact ⟨h.add hnew hc.1 (by simp), by simp [not_whole_add h hnew, hpassed, hr]⟩
    | @ghost r m hr hm =>
      have hread : ∀ m', MetaFile.serialized m = .serialized m' →
          m'.tableName = c.tableName ∧ m'.ReadBack := by
        rintro m' ⟨⟩
        exact readable_of_init hc.2 hm
      exact ⟨h.add hnew hc.1 hread, by simp [not_whole_add h hnew, hpassed, hr]⟩
    | @table m hm =>
      have hread : ∀ m', MetaFile.serialized m = .serialized m' →
          m'.tableName = c.tableName ∧ m'.ReadBack := by
        rintro m' ⟨⟩
        exact readable_of_init hc.2 hm
      have hadd := h.add hnew hc.1 hread
      refine ⟨⟨hadd.names, ?_, fun t ht => ?_, hadd.word, hadd.readable⟩, ?_⟩
      · rw [List.map_append]
        exact h.openedNames.append (List.nodup_singleton _) (by simpa using hnotOpened)
      · rcases List.mem_append.mp ht with ht | ht
        · exact List.mem_append_left _ (h.opened t ht)
        · rw [List.mem_singleton.mp ht]
          simp
      · constructor
        · intro hw
          refine ⟨fun f hf => ?_, .inr rfl⟩
          obtain ⟨t, ht, heq⟩ := hw f (List.mem_append_left _ hf)
          rcases List.mem_append.mp ht with ht | ht
          · exact ⟨t, ht, heq⟩
          · rw [List.mem_singleton.mp ht] at heq
            exact absurd (List.mem_map.mpr ⟨f, hf, congrArg Prod.fst heq⟩) hnew
        · rintro ⟨hw, -⟩ f hf
          rcases List.mem_append.mp hf with hf | hf
          · obtain ⟨t, ht, heq⟩ := hw f hf
            exact ⟨t, List.mem_append_left _ ht, heq⟩
          · exact ⟨(c.tableName, m), by simp, List.mem_singleton.mp hf⟩

/-- The calls one after the other; `none` where one of them does not return. -/
def createTables : DataBase → List CreateTableCall → Option DataBase
  | d, [] => some d
  | d, c :: cs =>
    match d.createTable c.io c.tableName c.attrInfos with
    | none => none
    | some (_, d') => createTables d' cs

/-- Every call is turned down before its meta file is made, or succeeds. -/
def Clean : DataBase → List CreateTableCall → Prop
  | _, [] => True
  | d, c :: cs => ∀ r d', d.createTable c.io c.tableName c.attrInfos = some (r, d') →
    (d.TurnedDown c.tableName c.attrInfos ∨ r = .success) ∧ Clean d' cs

theorem Cataloged.createTables (h : Cataloged d) (hcs : ∀ c ∈ cs, c.Possible) (hrun : d.createTables cs = some d') :
    Cataloged d' ∧ (Whole d' ↔ Whole d ∧ Clean d cs) := by
  induction cs generalizing d with
  | nil =>
    cases hrun
    exact ⟨h, by simp [Clean]⟩
  | cons c cs ih =>
    rw [DataBase.createTables] at hrun
    cases hcall : d.createTable c.io c.tableName c.attrInfos with
    | none =>
      rw [hcall] at hrun
      cases hrun
    | some answer =>
      obtain ⟨r, d1⟩ := answer
      rw [hcall] at hrun
      obtain ⟨hd1, hwhole1⟩ := h.createTable (hcs c List.mem_cons_self) hcall
      obtain ⟨hd', hwhole'⟩ := ih hd1 (fun x hx => hcs x (List.mem_cons_of_mem _ hx)) hrun
      refine ⟨hd', ?_⟩
      rw [hwhole', hwhole1, and_assoc]
      simp [Clean, hcall]

end Calls

/-! ## A restart -/

section Restart

variable {d d' : DataBase} {io : OpenFileIO Text} {files listing : List (String × MetaFile)}
  {opened ts : List (String × TableMeta)} {m : TableMeta} {name : String} {file : MetaFile}

/-- The meta files hold tables that are read back under their names. -/
def Readable (files : List (String × MetaFile)) : Prop :=
  ∀ name m, (name, MetaFile.serialized m) ∈ files →
    m.tableName = name ∧ m.ReadBack

/-- The table that `Table::Init` opens is the one in the file. -/
theorem tableOpen_ok (hjson : io.json.Faithful) (hread : Readable [(name, file)])
    (h : tableOpen io (name, file) = some (.ok m)) :
    file = .serialized m ∧ m.tableName = name := by
  rw [tableOpen] at h
  split at h
  · cases h
  · cases file with
    | empty => cases h
    | serialized m' =>
      obtain ⟨hname, hm⟩ := hread name m' List.mem_cons_self
      simp only [TableMeta.deserialize_eq hjson hm.1, hm.2] at h
      split at h
      · cases h
      · cases h
        exact ⟨rfl, hname⟩

theorem tableOpen_error {r : Re} (h : tableOpen io (name, file) = some (.error r)) : r ≠ .success := by
  rw [tableOpen] at h
  split at h
  · cases h
    decide
  · cases file with
    | empty =>
      cases h
      decide
    | serialized m' =>
      simp only at h
      split at h
      · cases h
      · cases h
        decide
      · split at h
        · rename_i hr
          cases h
          exact hr
        · cases h

/-- When the loop succeeds it has opened the table of every file. -/
theorem openTables_success (hjson : io.json.Faithful) (hread : Readable files)
    (h : openTables io opened files = some (.success, ts)) :
    ts = opened ++ files.filterMap MetaFile.table? ∧ ∀ f ∈ files, ∃ m, f.2 = .serialized m := by
  induction files generalizing opened with
  | nil =>
    cases h
    simp
  | cons f files ih =>
    obtain ⟨name, file⟩ := f
    have hfirst : Readable [(name, file)] := fun n m hm => hread n m (List.mem_singleton.mp hm ▸ List.mem_cons_self)
    have hrest : Readable files := fun n m hm => hread n m (List.mem_cons_of_mem _ hm)
    rw [openTables] at h
    cases hopen : tableOpen io (name, file) with
    | none =>
      rw [hopen] at h
      cases h
    | some answer =>
      rw [hopen] at h
      cases answer with
      | error r => exact absurd (Prod.mk.inj (Option.some.inj h)).1 (tableOpen_error hopen)
      | ok m =>
        obtain ⟨rfl, hname⟩ := tableOpen_ok hjson hfirst hopen
        simp only at h
        split at h
        · cases h
        · obtain ⟨rfl, hall⟩ := ih hrest h
          constructor
          · simp [MetaFile.table?, hname]
          · intro f hf
            rcases List.mem_cons.mp hf with rfl | hf
            · exact ⟨m, rfl⟩
            · exact hall f hf

theorem openTables_of_serialized (hio : io.Answers) (hjson : io.json.Faithful) (hread : Readable files)
    (hall : ∀ f ∈ files, ∃ m, f.2 = .serialized m) (hnames : (opened.map Prod.fst ++ files.map Prod.fst).Nodup) :
    openTables io opened files = some (.success, opened ++ files.filterMap MetaFile.table?) := by
  induction files generalizing opened with
  | nil => simp [openTables]
  | cons f files ih =>
    obtain ⟨name, file⟩ := f
    obtain ⟨m, hm⟩ := hall _ List.mem_cons_self
    obtain rfl : file = .serialized m := hm
    obtain ⟨hname, hback⟩ := hread name m List.mem_cons_self
    have hrest : Readable files := fun n m hm => hread n m (List.mem_cons_of_mem _ hm)
    have hopen : tableOpen io (name, .serialized m) = some (.ok m) := by
      simp [tableOpen, TableMeta.deserialize_eq hjson hback.1, hback.2, (hio name).1, (hio m.tableName).2]
    have hnot : (opened.any fun t => t.1 == m.tableName) = false := by
      rw [List.any_eq_false]
      intro t ht
      have hne : t.1 ≠ name := by
        rw [List.nodup_append] at hnames
        exact hnames.2.2 t.1 (List.mem_map_of_mem ht) name (by simp)
      simpa [hname] using hne
    have hnames' : ((opened ++ [(m.tableName, m)]).map Prod.fst ++ files.map Prod.fst).Nodup := by
      simpa [hname] using hnames
    rw [openTables, hopen]
    simp only [hnot, Bool.false_eq_true, if_false]
    rw [ih hrest (fun f hf => hall f (List.mem_cons_of_mem _ hf)) hnames', List.append_assoc]
    simp [MetaFile.table?, hname]

theorem mem_tables : (name, m) ∈ files.filterMap MetaFile.table? ↔ (name, MetaFile.serialized m) ∈ files := by
  rw [List.mem_filterMap]
  constructor
  · rintro ⟨⟨n, file⟩, hf, heq⟩
    cases file with
    | empty => cases heq
    | serialized m' =>
      cases heq
      exact hf
  · intro hf
    exact ⟨_, hf, rfl⟩

theorem Cataloged.listed (h : Cataloged d) (hperm : listing.Perm d.metaFiles) :
    listing.filter (fun f => isWord f.1) = listing :=
  List.filter_eq_self.mpr fun f hf => h.word f (hperm.mem_iff.mp hf)

theorem names_tables (hall : ∀ f ∈ files, ∃ m, f.2 = MetaFile.serialized m) :
    (files.filterMap MetaFile.table?).map Prod.fst = files.map Prod.fst := by
  induction files with
  | nil => rfl
  | cons f files ih =>
    obtain ⟨name, file⟩ := f
    obtain ⟨m, hm⟩ := hall _ List.mem_cons_self
    obtain rfl : file = .serialized m := hm
    simpa [MetaFile.table?] using ih fun f hf => hall f (List.mem_cons_of_mem _ hf)

/-- After a restart that succeeded the catalog is whole, whatever it was before. -/
theorem Cataloged.restarted (h : Cataloged d) (hjson : io.json.Faithful) (hperm : listing.Perm d.metaFiles)
    (hopen : d.openAllTables io listing = some (.success, d')) :
    Cataloged d' ∧ Whole d' ∧ d'.openedTables = listing.filterMap MetaFile.table? := by
  rw [openAllTables, h.listed hperm] at hopen
  have hread : Readable listing := fun n m hm => h.readable n m (hperm.mem_iff.mp hm)
  split at hopen
  · cases hopen
  · rename_i r opened hloop
    cases hopen
    obtain ⟨rfl, hall⟩ := openTables_success hjson hread hloop
    rw [List.nil_append]
    have hnames : (listing.map Prod.fst).Nodup := (hperm.map _).nodup_iff.mpr h.names
    refine ⟨⟨h.names, ?_, fun t ht => ?_, h.word, h.readable⟩, fun f hf => ?_, rfl⟩
    · rw [names_tables hall]
      exact hnames
    · exact hperm.mem_iff.mp (mem_tables.mp ht)
    · obtain ⟨m, hm⟩ := hall f (hperm.mem_iff.mpr hf)
      exact ⟨(f.1, m), mem_tables.mpr (by rw [← hm]; exact hperm.mem_iff.mpr hf), Prod.ext rfl hm⟩

/-- A restart brings back the opened tables if and only if the catalog is whole. -/
theorem Cataloged.reopens_iff (h : Cataloged d) (hio : io.Answers) (hjson : io.json.Faithful)
    (hperm : listing.Perm d.metaFiles) :
    (∃ d', d.openAllTables io listing = some (.success, d') ∧ d'.openedTables.Perm d.openedTables) ↔ Whole d := by
  constructor
  · rintro ⟨d', hopen, hsame⟩ f hf
    obtain ⟨h', hwhole, -⟩ := h.restarted hjson hperm hopen
    have hfiles : d'.metaFiles = d.metaFiles := by
      rw [openAllTables] at hopen
      split at hopen <;> cases hopen
      rfl
    obtain ⟨t, ht, heq⟩ := hwhole f (hfiles ▸ hf)
    exact ⟨t, hsame.mem_iff.mp ht, heq⟩
  · intro hwhole
    have hall : ∀ f ∈ listing, ∃ m, f.2 = MetaFile.serialized m := by
      intro f hf
      obtain ⟨t, -, heq⟩ := hwhole f (hperm.mem_iff.mp hf)
      exact ⟨t.2, congrArg Prod.snd heq⟩
    have hread : Readable listing := fun n m hm => h.readable n m (hperm.mem_iff.mp hm)
    have hnames : (listing.map Prod.fst).Nodup := (hperm.map _).nodup_iff.mpr h.names
    have hloop : openTables io [] listing = some (.success, [] ++ listing.filterMap MetaFile.table?) :=
      openTables_of_serialized hio hjson hread hall (by simpa using hnames)
    refine ⟨⟨listing.filterMap MetaFile.table?, d.metaFiles⟩, ?_, ?_⟩
    · rw [openAllTables, h.listed hperm, hloop]
      rfl
    · refine (List.perm_ext_iff_of_nodup ?_ (h.openedNames.of_map _)).mpr fun t => ?_
      · apply List.Nodup.of_map Prod.fst
        rw [names_tables hall]
        exact hnames
      · obtain ⟨name, m⟩ := t
        rw [mem_tables, hperm.mem_iff]
        constructor
        · intro hf
          obtain ⟨t, ht, heq⟩ := hwhole _ hf
          cases heq
          exact ht
        · exact h.opened _

end Restart

/-! ## Runs -/

/-- A database that was just opened: on an empty directory, or after a restart behind any calls. -/
inductive Booted : DataBase → Prop where
  | empty : Booted ⟨[], []⟩
  | restart {Text : Type} {d d' d'' : DataBase} {cs : List CreateTableCall} {io : OpenFileIO Text}
      {listing : List (String × MetaFile)} (h : Booted d) (hcs : ∀ c ∈ cs, c.Possible)
      (hrun : d.createTables cs = some d') (hjson : io.json.Faithful)
      (hperm : listing.Perm d'.metaFiles) (hopen : d'.openAllTables io listing = some (.success, d'')) : Booted d''

theorem Booted.cataloged {d : DataBase} (h : Booted d) : Cataloged d ∧ Whole d := by
  induction h with
  | empty => exact ⟨⟨by simp, by simp, by simp, by simp, by simp⟩, by simp [Whole]⟩
  | restart _ hcs hrun hjson hperm hopen ih =>
    obtain ⟨h', hwhole, -⟩ := (ih.1.createTables hcs hrun).1.restarted hjson hperm hopen
    exact ⟨h', hwhole⟩

end DataBase

end Idmbs
