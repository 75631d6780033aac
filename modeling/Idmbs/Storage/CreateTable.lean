import Idmbs.Storage.TableMeta

/-!
# Idmbs.Storage.CreateTable

`DataBase::CreateTable` over the table meta files of the database directory, and what it leaves behind
when it fails. How the file system and the buffer pool answer is a parameter of the call.
-/

namespace Idmbs

/-- A file `<table>.table`: as `fopen` made it, or holding what `TableMeta::Serialize` wrote. -/
inductive MetaFile where
  | empty
  | serialized (tableMeta : TableMeta)
  deriving DecidableEq, Repr

structure TableFileIO where
  /-- `fopen (…, "a")` gives a stream; `fclose` follows in any case -/
  append : Bool
  isOpen : Bool
  createFile : Re
  initRecordHandler : Re

structure DataBase where
  openedTables : List (String × TableMeta)
  metaFiles : List (String × MetaFile)
  deriving DecidableEq, Repr

namespace DataBase

variable {io : TableFileIO} {d : DataBase} {tableName : String} {attrInfos : List AttrInfo}
  {files : List (String × MetaFile)} {fieldOffset : Int}

/-- `Table::Init` for a new table; `none` where the process does not survive `fclose` of a null stream. -/
def tableInit (io : TableFileIO) (metaFiles : List (String × MetaFile)) (tableName : String)
    (attrInfos : List AttrInfo) : Option (Except Re TableMeta × List (String × MetaFile)) :=
  if strBlank (some tableName) ∨ tableName.utf8ByteSize > TableMeta.tableNameMaxLen then
    some (.error .invalidArgument, metaFiles)
  else if attrInfos = [] then some (.error .invalidArgument, metaFiles)
  else if metaFiles.any fun f => f.1 == tableName then some (.error .schemaTableExist, metaFiles)
  else if io.append = false then none
  else
    match TableMeta.init (some tableName) attrInfos with
    | .error r => some (.error r, metaFiles ++ [(tableName, .empty)])
    | .ok tableMeta =>
      if io.isOpen = false then some (.error .ioErr, metaFiles ++ [(tableName, .empty)])
      else if io.createFile ≠ .success then
        some (.error io.createFile, metaFiles ++ [(tableName, .serialized tableMeta)])
      else if io.initRecordHandler ≠ .success then
        some (.error io.initRecordHandler, metaFiles ++ [(tableName, .serialized tableMeta)])
      else some (.ok tableMeta, metaFiles ++ [(tableName, .serialized tableMeta)])

def createTable (io : TableFileIO) (d : DataBase) (tableName : String) (attrInfos : List AttrInfo) :
    Option (Re × DataBase) :=
  if d.openedTables.any fun t => t.1 == tableName then some (.schemaTableExist, d)
  else
    match tableInit io d.metaFiles tableName attrInfos with
    | none => none
    | some (.error r, files) => some (r, { d with metaFiles := files })
    | some (.ok newTable, files) =>
      some (.success, ⟨d.openedTables ++ [(tableName, newTable)], files⟩)

/-- A failed call leaves the opened tables and the meta files as they were. -/
def LeavesNoTrace (io : TableFileIO) (d : DataBase) (tableName : String) (attrInfos : List AttrInfo) :
    Prop :=
  ∀ r d', d.createTable io tableName attrInfos = some (r, d') → r ≠ .success → d' = d

/-- The checks before the meta file is made turn the call down. -/
def TurnedDown (d : DataBase) (tableName : String) (attrInfos : List AttrInfo) : Prop :=
  strBlank (some tableName) ∨ tableName.utf8ByteSize > TableMeta.tableNameMaxLen ∨ attrInfos = [] ∨
  (d.openedTables.any fun t => t.1 == tableName) ∨ d.metaFiles.any fun f => f.1 == tableName

/-- Every attribute has a name, a type and a positive length, and the offsets fit an `int`. -/
def ValidAttrs : Int → List AttrInfo → Prop
  | _, [] => True
  | fieldOffset, a :: as =>
    strBlank a.attrName = false ∧ a.attrType ≠ .undefined ∧ 0 ≤ fieldOffset ∧ 0 < a.attrLen ∧
    ValidAttrs (wrap32 (fieldOffset + a.attrLen)) as

theorem fieldMeta_init_eq (a : AttrInfo) (fieldOffset : Int) :
    (∃ f, FieldMeta.init a.attrName a.attrType fieldOffset a.attrLen true = .ok f) ↔
      strBlank a.attrName = false ∧ a.attrType ≠ .undefined ∧ 0 ≤ fieldOffset ∧ 0 < a.attrLen := by
  obtain ⟨attrName, attrType, attrLen⟩ := a
  cases attrName with
  | none => exact iff_of_false (fun ⟨_, h⟩ => nomatch h) fun h => nomatch h.1
  | some name =>
    simp only [FieldMeta.init]
    by_cases hb : strBlank (some name) = true
    · rw [if_pos hb, hb]
      exact iff_of_false (fun ⟨_, h⟩ => nomatch h) fun h => nomatch h.1
    · rw [if_neg hb, Bool.not_eq_true] at *
      by_cases h : attrType = .undefined ∨ fieldOffset < 0 ∨ attrLen ≤ 0
      · rw [if_pos h]
        refine iff_of_false (fun ⟨_, h⟩ => nomatch h) ?_
        rintro ⟨-, htype, hoff, hlen⟩
        rcases h with h | h | h
        · exact htype h
        · omega
        · omega
      · rw [if_neg h]
        rw [not_or, not_or, not_lt, not_le] at h
        exact iff_of_true ⟨_, rfl⟩ ⟨hb, h.1, h.2.1, h.2.2⟩

theorem initFields_ok_iff (attrInfos : List AttrInfo) (fieldOffset : Int) :
    (∃ fs, TableMeta.initFields fieldOffset attrInfos = .ok fs) ↔ ValidAttrs fieldOffset attrInfos := by
  induction attrInfos generalizing fieldOffset with
  | nil => exact iff_of_true ⟨_, rfl⟩ trivial
  | cons a as ih =>
    have ha := fieldMeta_init_eq a fieldOffset
    have has := ih (wrap32 (fieldOffset + a.attrLen))
    simp only [TableMeta.initFields, ValidAttrs, ← has]
    cases hf : FieldMeta.init a.attrName a.attrType fieldOffset a.attrLen true with
    | error r =>
      rw [hf] at ha
      refine iff_of_false (fun ⟨_, h⟩ => nomatch h) ?_
      rintro ⟨h1, h2, h3, h4, -⟩
      obtain ⟨_, h⟩ := ha.mpr ⟨h1, h2, h3, h4⟩
      cases h
    | ok f =>
      obtain ⟨h1, h2, h3, h4⟩ := ha.mp ⟨f, hf⟩
      cases hfs : TableMeta.initFields (wrap32 (fieldOffset + a.attrLen)) as with
      | error r =>
        exact iff_of_false (fun ⟨_, h⟩ => nomatch h) fun ⟨_, _, _, _, _, h⟩ => nomatch h
      | ok fs => exact iff_of_true ⟨_, rfl⟩ ⟨h1, h2, h3, h4, fs, rfl⟩

theorem fieldMeta_init_error {a : AttrInfo} {r : Re}
    (h : FieldMeta.init a.attrName a.attrType fieldOffset a.attrLen true = .error r) : r ≠ .success := by
  unfold FieldMeta.init at h
  split at h
  · cases h
    decide
  · split at h
    · cases h
      decide
    · split at h
      · cases h
        decide
      · cases h

theorem initFields_error {r : Re} (h : TableMeta.initFields fieldOffset attrInfos = .error r) :
    r ≠ .success := by
  induction attrInfos generalizing fieldOffset with
  | nil => cases h
  | cons a as ih =>
    unfold TableMeta.initFields at h
    split at h
    · rename_i hf
      cases h
      exact fieldMeta_init_error hf
    · split at h
      · rename_i hfs
        cases h
        exact ih hfs
      · cases h

theorem append_ne {α : Type} (l : List α) (a : α) : l ++ [a] ≠ l := by
  intro h
  have := congrArg List.length h
  rw [List.length_append, List.length_singleton] at this
  omega

/-- Once the call was not turned down, it leaves no trace if and only if nothing that follows fails. -/
theorem leavesNoTrace_passed (hdown : ¬d.TurnedDown tableName attrInfos) :
    LeavesNoTrace io d tableName attrInfos ↔ io.append = false ∨
      (ValidAttrs 4 attrInfos ∧ io.isOpen = true ∧ io.createFile = .success ∧
        io.initRecordHandler = .success) := by
  unfold TurnedDown at hdown
  simp only [not_or] at hdown
  obtain ⟨hblank, hlong, hattrs, hopened, hfile⟩ := hdown
  have hname : ¬(strBlank (some tableName) = true ∨
      tableName.utf8ByteSize > TableMeta.tableNameMaxLen) := not_or.mpr ⟨hblank, hlong⟩
  have hvalid := initFields_ok_iff attrInfos 4
  unfold LeavesNoTrace createTable tableInit
  rw [if_neg hopened, if_neg hname, if_neg hattrs, if_neg hfile]
  by_cases happend : io.append = false
  · rw [if_pos happend]
    exact iff_of_true (fun _ _ h => nomatch h) (.inl happend)
  rw [if_neg happend, or_iff_right happend, TableMeta.init, if_neg hname, if_neg hattrs, ← hvalid]
  -- a failure after the meta file was made leaves that file
  have htrace : ∀ {r : Re} {f : MetaFile}, r ≠ .success → ¬∀ r' d',
      some (r, { d with metaFiles := d.metaFiles ++ [(tableName, f)] }) = some (r', d') →
      r' ≠ .success → d' = d := by
    intro r f hr h
    exact append_ne _ _ (congrArg DataBase.metaFiles (h _ _ rfl hr))
  cases hfields : TableMeta.initFields 4 attrInfos with
  | error r =>
    refine iff_of_false ?_ fun h => nomatch h.1.choose_spec
    exact htrace (initFields_error hfields)
  | ok fs =>
    have hok : ∃ fs', Except.ok (ε := Re) fs = .ok fs' := ⟨fs, rfl⟩
    rw [and_iff_right hok]
    by_cases hopen : io.isOpen = false
    · simp only [hopen, if_true]
      exact iff_of_false (htrace (by decide)) fun h => nomatch h.1
    · by_cases hcreate : io.createFile = .success
      · by_cases hinit : io.initRecordHandler = .success
        · simp only [hopen, hcreate, hinit, ne_eq, not_true_eq_false, if_false]
          refine iff_of_true ?_ ⟨trivial, trivial, trivial⟩
          rintro _ _ ⟨⟩ h
          exact absurd rfl h
        · simp only [hopen, hcreate, hinit, ne_eq, not_true_eq_false, not_false_eq_true, if_false, if_true]
          exact iff_of_false (htrace hinit) fun h => h.2.2
      · simp only [hopen, hcreate, ne_eq, not_false_eq_true, if_true]
        exact iff_of_false (htrace hcreate) fun h => h.2.1

theorem leavesNoTrace_turnedDown (h : d.TurnedDown tableName attrInfos) :
    LeavesNoTrace io d tableName attrInfos := by
  intro r d' hcall hr
  unfold createTable tableInit at hcall
  split at hcall
  · cases hcall
    rfl
  · rename_i hopened
    split at hcall
    · cases hcall
    · rename_i hinit
      cases hcall
      split at hinit
      · cases hinit
        rfl
      · split at hinit
        · cases hinit
          rfl
        · split at hinit
          · cases hinit
            rfl
          · rename_i hname hattrs hfile
            rcases h with h | h | h | h | h
            · exact absurd (.inl h) hname
            · exact absurd (.inr h) hname
            · exact absurd h hattrs
            · exact absurd h hopened
            · exact absurd h hfile
    · cases hcall
      exact absurd rfl hr

/-- A failed `CreateTable` leaves no trace if and only if the call is turned down before the meta file is
made, or nothing after that can fail. -/
theorem leavesNoTrace_iff (io : TableFileIO) (d : DataBase) (tableName : String)
    (attrInfos : List AttrInfo) :
    LeavesNoTrace io d tableName attrInfos ↔ d.TurnedDown tableName attrInfos ∨ io.append = false ∨
      (ValidAttrs 4 attrInfos ∧ io.isOpen = true ∧ io.createFile = .success ∧
        io.initRecordHandler = .success) := by
  by_cases h : d.TurnedDown tableName attrInfos
  · exact iff_of_true (leavesNoTrace_turnedDown h) (.inl h)
  · rw [leavesNoTrace_passed h, or_iff_right h]

/-- `CreateTable("t", 1, {{"id", Chars, 0}})`: the empty meta file stays. -/
theorem not_leavesNoTrace_zeroLength :
    ¬LeavesNoTrace ⟨true, true, .success, .success⟩ ⟨[], []⟩ "t" [⟨some "id", .chars, 0⟩] := by
  intro h
  have hstate := h .invalidArgument ⟨[], [("t", .empty)]⟩ (by decide) (by decide)
  exact absurd hstate (by decide)

end DataBase

end Idmbs
