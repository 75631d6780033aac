import Idmbs.Execute.DeleteOperator
import Idmbs.Execute.IndexScan
import Idmbs.Execute.TupleText
import Idmbs.Storage.RecordMap

/-!
# Idmbs.Execute.SelectOperator

`ExecuteMain::DoSelect` (execute/execute_main.cpp): `ProjectOperator` over `PredicateOperator` over
`TableScanOperator`, or over the `IndexScanOperator` that the filter asks for, which cannot be opened.
-/

namespace Idmbs

open BitMap RecordPool

/-- The answers of `PredicateOperator::Predicate` for the bytes of a record; `predicate` leaves comparisons of
floats open. -/
structure FilterAnswers (m : TableMeta) (units : List FilterUnit) where
  passes : List UInt8 → Bool
  agrees : ∀ bs b, predicate m.fields (recordPointer bs) units = some b → passes bs = b

/-- The answers where no float is compared. -/
def FilterAnswers.exact (m : TableMeta) (units : List FilterUnit) : FilterAnswers m units where
  passes bs := (predicate m.fields (recordPointer bs) units).getD false
  agrees _ _ h := by
    rw [h]
    rfl

/-- `DoSelect` answers with a code of `Re`, or with `NotImplement`. -/
inductive SelectRe where
  | notImplement
  | code (r : Re)
  deriving DecidableEq

/-- What `DoSelect` leaves: the response, and the buffer pool of the table. -/
structure SelectState where
  response : List UInt8
  pool : RecordPool

section Select

variable (snprintf : List UInt8 → List UInt8) (fuel : Nat)

/-- The loop of `DoSelect` with what the string stream holds; `none` where a unit cannot be printed. -/
def selectLoop (m : TableMeta) (passes : List UInt8 → Bool) (fields : List Field) :
    Nat → List UInt8 → ScanState → Option (Re × List UInt8 × ScanState)
  | 0, _, _ => none
  | n + 1, sstream, x =>
    match x.predicateLoop fuel passes fuel with
    | none => none
    | some (r, x) =>
      if r ≠ .success then some (r, sstream, x)
      else
        match descStrTuple snprintf m (recordPointer (x.pool.bytes x.currentRecord)) 0 fields with
        | none => none
        | some line => selectLoop m passes fields n (sstream ++ line ++ [10]) x

def selectByScan (m : TableMeta) (passes : List UInt8 → Bool) (fields : List Field) (s : RecordPool) :
    Option (SelectRe × SelectState) :=
  match RecordFileScanner.init fuel s with
  | none => none
  -- `Table::GetRecordFileScanner` answers `Success` whatever code `Init` returns
  | some (_, pool, c) =>
    match selectLoop snprintf fuel m passes fields fuel (printTupleHeader fields) ⟨pool, c, (0, 0), fun _ => none⟩ with
    | none => none
    | some (r, sstream, x) => some (.code (if r = .recordEof then .success else r), ⟨sstream, x.pool⟩)

variable {σ : Type}

/-- `DoSelect`; `flags` are what the memory of an index scan operator held, and `overIndex` is what becomes of
a select whose index scanner is open. -/
def doSelect (overIndex : Index σ × ScanRange → Option (SelectRe × SelectState)) (flags : Bool × Bool)
    (st : SelectStatement) (t : Table σ) (answers : FilterAnswers t.tableMeta st.filter) (s : RecordPool)
    (response : List UInt8) : Option (SelectRe × SelectState) :=
  if st.tables.length ≠ 1 then some (.notImplement, ⟨response, s⟩)
  else
    match createIndexScanOperator t st.filter flags.1 flags.2 with
    | none => selectByScan snprintf fuel t.tableMeta answers.passes st.fields s
    | some o =>
      match o.scannerRange with
      | none => some (.code .internal, ⟨response, s⟩)
      | some range => overIndex range

end Select

/-! ## The scan under a pool whose waiting pages are pinned -/

namespace ScanState

/-- The state with no page that waits for its disposal. -/
def calm (x : ScanState) : ScanState := { x with pool := x.pool.calm }

/-- No call fails, and the pages that wait for their disposal stay pinned without the scanner. -/
structure Steady (x : ScanState) : Prop where
  faults : x.pool.faults = []
  guarded : Guarded x.pool x.scanner.handlerPage

variable {x y : ScanState} (fuel : Nat)

theorem tableScan_calm (h : x.Steady) :
    (x.calm.tableScan fuel = none ∧ x.tableScan fuel = none) ∨
    ∃ r y, x.calm.tableScan fuel = some (r, y.calm) ∧ x.tableScan fuel = some (r, y) ∧ y.Steady := by
  have hscanner : x.calm.scanner = x.scanner := rfl
  have hpool : x.calm.pool = x.pool.calm := rfl
  unfold tableScan
  rw [hscanner, hpool]
  cases x.scanner.nextRecord with
  | none => exact .inr ⟨.recordEof, x, rfl, rfl, h⟩
  | some rid =>
    rcases RecordFileScanner.next_calm fuel h.faults h.guarded with ⟨hx, hy⟩ | ⟨r, t, d, hx, hy, hft, hgt⟩
    · simp only [hx, hy]
      exact .inl ⟨trivial, trivial⟩
    · simp only [hx, hy]
      exact .inr ⟨r, { x with pool := t, scanner := d, currentRecord := rid }, rfl, rfl, hft, hgt⟩

theorem predicateLoop_calm (predicate : List UInt8 → Bool) (n : Nat) (h : x.Steady) :
    (x.calm.predicateLoop fuel predicate n = none ∧ x.predicateLoop fuel predicate n = none) ∨
    ∃ r y, x.calm.predicateLoop fuel predicate n = some (r, y.calm) ∧
      x.predicateLoop fuel predicate n = some (r, y) ∧ y.Steady := by
  induction n generalizing x with
  | zero => exact .inl ⟨rfl, rfl⟩
  | succ n ih =>
    unfold predicateLoop
    rcases tableScan_calm fuel h with ⟨hx, hy⟩ | ⟨r, y, hx, hy, hsteady⟩
    · simp only [hx, hy]
      exact .inl ⟨trivial, trivial⟩
    · have hbytes : y.calm.pool.bytes y.calm.currentRecord = y.pool.bytes y.currentRecord := rfl
      simp only [hx, hy, hbytes]
      split
      · exact .inr ⟨r, y, rfl, rfl, hsteady⟩
      · split
        · exact .inr ⟨.success, y, rfl, rfl, hsteady⟩
        · exact ih hsteady

/-- The records that the loop has passed over and the one it stopped at, in the order of the scan. -/
theorem predicateLoop_steady {rest : List Slot} (predicate : List UInt8 → Bool) (n : Nat) (h : x.Steady)
    (hs : Scannable x.pool.calm) (ha : RecordFileScanner.Ahead x.pool.calm x.scanner rest)
    (hfuel : x.pool.pagesNum < fuel) (hn : rest.length < n) :
    ∃ r y, x.predicateLoop fuel predicate n = some (r, y) ∧ y.Steady ∧ Frees x.pool.calm y.pool.calm ∧
      ((r = .recordEof ∧ ∀ rid ∈ rest, predicate (x.pool.bytes rid) = false) ∨
      (r = .success ∧ ∃ pre rid post, rest = pre ++ rid :: post ∧
        (∀ rid ∈ pre, predicate (x.pool.bytes rid) = false) ∧ predicate (x.pool.bytes rid) = true ∧
        y.currentRecord = rid ∧ RecordFileScanner.Ahead y.pool.calm y.scanner post)) := by
  obtain ⟨r, z, hrun, hfrees, hcases⟩ := predicateLoop_spec (x := x.calm) fuel predicate n hs ha hfuel hn
  rcases predicateLoop_calm fuel predicate n h with ⟨hx, -⟩ | ⟨r', y, hx, hy, hsteady⟩
  · rw [hx] at hrun
    cases hrun
  · rw [hx] at hrun
    cases hrun
    exact ⟨r, y, hy, hsteady, hfrees, hcases⟩

end ScanState

/-! ## The columns of a statement over one table -/

/-- The columns of a SELECT over one table are fields of it, and a table has no field of type DATE. -/
structure Resolved (m : TableMeta) (fields : List Field) : Prop where
  table : ∀ f ∈ fields, f.table = m
  field : ∀ f ∈ fields, f.fieldMeta ∈ m.fields
  printable : ∀ f ∈ m.fields, f.attrType ≠ .dates

namespace SelectStatement

variable {getTable : String → Option TableMeta} {st st' : SelectStatement} {rel : String} {m : TableMeta}
  {attr : RelAttr} {attrs : List RelAttr} {fields : List Field}

theorem wildcardFields_mem {f : Field} (h : f ∈ wildcardFields m) : f.table = m ∧ f.fieldMeta ∈ m.fields := by
  obtain ⟨g, hg, rfl⟩ := List.mem_map.mp h
  exact ⟨rfl, List.mem_of_mem_drop hg⟩

theorem getField_mem {f : FieldMeta} {name : String} (h : m.getField name = some f) : f ∈ m.fields := by
  unfold TableMeta.getField at h
  split at h
  · cases h
  · exact List.mem_of_find?_eq_some h

theorem lookup_mem {table : TableMeta} {name : String} (h : ([(rel, m)] : Tables).lookup name = some table) :
    table = m := by
  rw [List.lookup_cons] at h
  split at h
  · cases h
    rfl
  · cases h

theorem attrFields_mem (h : attrFields [(rel, m)] attr = .ok fields) :
    ∀ f ∈ fields, f.table = m ∧ f.fieldMeta ∈ m.fields := by
  have hwild : ([(rel, m)] : Tables).flatMap (fun t => wildcardFields t.2) = wildcardFields m := by simp
  obtain ⟨relName, attrName⟩ := attr
  unfold attrFields at h
  rw [hwild] at h
  split at h
  · cases h
    exact fun f hf => wildcardFields_mem hf
  · cases relName with
    | none =>
      simp only at h
      split at h
      · cases h
      · rename_i field hfield
        cases h
        intro f hf
        rw [List.mem_singleton.mp hf]
        exact ⟨rfl, getField_mem hfield⟩
    | some relName =>
      simp only at h
      split at h
      · split at h
        · cases h
        · cases h
          exact fun f hf => wildcardFields_mem hf
      · split at h
        · cases h
        · rename_i table hlookup
          cases lookup_mem hlookup
          split at h
          · cases h
            exact fun f hf => wildcardFields_mem hf
          · split at h
            · cases h
            · rename_i field hfield
              cases h
              intro f hf
              rw [List.mem_singleton.mp hf]
              exact ⟨rfl, getField_mem hfield⟩

theorem fieldsOf_mem (h : fieldsOf [(rel, m)] attrs = .ok fields) :
    ∀ f ∈ fields, f.table = m ∧ f.fieldMeta ∈ m.fields := by
  induction attrs generalizing fields with
  | nil =>
    cases h
    intro f hf
    cases hf
  | cons attr attrs ih =>
    unfold fieldsOf at h
    split at h
    · cases h
    · rename_i own hown
      split at h
      · cases h
      · rename_i rest hrest
        cases h
        intro f hf
        rcases List.mem_append.mp hf with hf | hf
        · exact attrFields_mem hown f hf
        · exact ih hrest f hf

/-- What `Handle` leaves of a SELECT over one table. -/
theorem handle_resolved (h : handle getTable st = .ok st') (hnames : st.tableNames = [rel])
    (hget : getTable rel = some m) (hdates : ∀ f ∈ m.fields, f.attrType ≠ .dates) :
    st'.tables.length = 1 ∧ Resolved m st'.fields := by
  unfold handle at h
  simp only [hnames, findTables, hget] at h
  split at h
  · cases h
  · rename_i fields hfields
    split at h
    · cases h
    · cases h
      have hmem := fieldsOf_mem hfields
      exact ⟨rfl, fun f hf => (hmem f hf).1, fun f hf => (hmem f hf).2, hdates⟩

end SelectStatement

/-! ## What a SELECT answers -/

section Answer

open ScanState

variable {m : TableMeta} {fields : List Field} {x : ScanState} {rest : List Slot} {s : RecordPool}
  (snprintf : List UInt8 → List UInt8) (fuel : Nat)

/-- The loop prints the records ahead that pass the filter. -/
theorem selectLoop_spec (passes : List UInt8 → Bool) (line : List UInt8 → List UInt8) (n : Nat)
    (sstream : List UInt8) (h : x.Steady) (hs : Scannable x.pool.calm)
    (ha : RecordFileScanner.Ahead x.pool.calm x.scanner rest) (hfuel : x.pool.pagesNum < fuel)
    (hfuel' : rest.length < fuel) (hn : rest.length < n)
    (hline : ∀ rid, descStrTuple snprintf m (recordPointer (x.pool.bytes rid)) 0 fields =
      some (line (x.pool.bytes rid))) :
    ∃ y, selectLoop snprintf fuel m passes fields n sstream x = some (.recordEof,
        sstream ++ ((rest.map x.pool.bytes).filter passes).flatMap (fun bs => line bs ++ [10]), y) ∧
      y.Steady ∧ Frees x.pool.calm y.pool.calm := by
  induction n generalizing x rest sstream with
  | zero => exact absurd hn (Nat.not_lt_zero _)
  | succ n ih =>
    obtain ⟨r, y, hloop, hsteady, hfrees, hcases⟩ :=
      predicateLoop_steady fuel passes fuel h hs ha hfuel hfuel'
    have hbytes : y.pool.bytes = x.pool.bytes := by
      funext rid
      exact congrArg (fun d : PageId → RecordPage => (d rid.1).data rid.2) hfrees.pageData
    have hpages : y.pool.pagesNum = x.pool.pagesNum := hfrees.pagesNum
    unfold selectLoop
    rcases hcases with ⟨rfl, hall⟩ | ⟨rfl, pre, rid, post, rfl, hpre, htake, hcurrent, ha'⟩
    · simp only [hloop, ne_eq, reduceCtorEq, not_false_eq_true, if_true]
      have hnone : (rest.map x.pool.bytes).filter passes = [] := by
        rw [List.filter_eq_nil_iff, List.forall_mem_map]
        intro rid hrid
        rw [hall rid hrid]
        exact Bool.false_ne_true
      rw [hnone, List.flatMap_nil, List.append_nil]
      exact ⟨y, rfl, hsteady, hfrees⟩
    · simp only [List.length_append, List.length_cons] at hn hfuel'
      simp only [hloop, ne_eq, not_true_eq_false, if_false, hcurrent, hbytes, hline]
      obtain ⟨z, hrun, hsteady', hfrees'⟩ := ih (sstream ++ line (x.pool.bytes rid) ++ [10]) hsteady (hs.frees hfrees)
        ha' (hpages ▸ hfuel) (by omega) (by omega) (by rw [hbytes]; exact hline)
      refine ⟨z, ?_, hsteady', hfrees.trans hfrees'⟩
      have hskipped : (pre.map x.pool.bytes).filter passes = [] := by
        rw [List.filter_eq_nil_iff, List.forall_mem_map]
        intro rid hrid
        rw [hpre rid hrid]
        exact Bool.false_ne_true
      rw [hrun, hbytes, List.map_append, List.filter_append, hskipped, List.nil_append, List.map_cons,
        List.filter_cons_of_pos htake, List.flatMap_cons]
      simp only [List.append_assoc]

/-- The text of a column of a stored record: that of the first field with its name. -/
def TableMeta.cell (m : TableMeta) (bs : List UInt8) (field : Field) : List UInt8 :=
  match m.fields.find? fun f => field.fieldMeta.fieldName == f.fieldName with
  | none => []
  | some f => (TupleUnit.toString snprintf
      ⟨f.attrType, f.len, Pointer.add (recordPointer bs) f.offset⟩).getD []

/-- The rows of a SELECT: those that pass, in the order they are stored, each one line of its columns. -/
def selectRows (m : TableMeta) (passes : List UInt8 → Bool) (fields : List Field) (stored : List (List UInt8)) :
    List UInt8 :=
  (stored.filter passes).flatMap fun bs => joinColumns (fields.map (m.cell snprintf bs)) ++ [10]

theorem toString_isSome {u : TupleUnit} (h : u.attrType ≠ .dates) : (u.toString snprintf).isSome := by
  unfold TupleUnit.toString
  cases htype : u.attrType with
  | dates => exact absurd htype h
  | undefined => rfl
  | chars => rfl
  | ints => rfl
  | floats => rfl

theorem Resolved.descStrTuple (h : Resolved m fields) (bs : List UInt8) :
    descStrTuple snprintf m (recordPointer bs) 0 fields = some (joinColumns (fields.map (m.cell snprintf bs))) := by
  refine descStrTuple_eq (List.forall₂_map_right_iff.mpr (List.forall₂_same.mpr fun f hf => ?_))
  obtain ⟨i, hi⟩ : ∃ i, m.fields.findIdx? (fun g => f.fieldMeta.fieldName == g.fieldName) = some i := by
    rw [← Option.isSome_iff_exists, List.findIdx?_isSome, List.any_eq_true]
    exact ⟨f.fieldMeta, h.field f hf, beq_self_eq_true _⟩
  obtain ⟨hlt, -⟩ := List.findIdx?_eq_some_iff_getElem.mp hi
  have hfind : m.fields.find? (fun g => f.fieldMeta.fieldName == g.fieldName) = some m.fields[i] := by
    rw [List.find?_eq_some_iff_getElem]
    obtain ⟨hlt, htrue, hfalse⟩ := List.findIdx?_eq_some_iff_getElem.mp hi
    exact ⟨htrue, i, hlt, rfl, fun j hj => by simpa using hfalse j hj⟩
  have hunit : RowTuple.getUnit m (recordPointer bs) f = some ⟨m.fields[i].attrType, m.fields[i].len,
      Pointer.add (recordPointer bs) m.fields[i].offset⟩ := by
    unfold RowTuple.getUnit
    rw [h.table f hf, if_neg (not_not.mpr rfl)]
    simp only [hi, getUnitAt_ok (List.getElem?_eq_getElem hlt)]
    rfl
  refine ⟨_, hunit, ?_⟩
  unfold TableMeta.cell
  simp only [hfind]
  have hsome := toString_isSome snprintf (u := ⟨m.fields[i].attrType, m.fields[i].len,
    Pointer.add (recordPointer bs) m.fields[i].offset⟩) (h.printable _ (List.getElem_mem hlt))
  exact (Option.getD_of_ne_none (Option.isSome_iff_ne_none.mp hsome) []).symm

theorem selectByScan_spec (passes : List UInt8 → Bool) (hu : Usable s) (hresolved : Resolved m fields)
    (hfuel : s.pagesNum + (rows s).length < fuel) :
    ∃ x : ScanState, selectByScan snprintf fuel m passes fields s = some (.code .success,
        ⟨printTupleHeader fields ++ selectRows snprintf m passes fields ((rows s).map s.bytes), x.pool⟩) ∧
      x.Steady ∧ Frees s.calm x.pool.calm := by
  obtain ⟨s', c', hinit, hfrees, hahead⟩ := RecordFileScanner.init_spec fuel hu.scannable
    (show s.pagesNum < fuel by omega)
  rcases RecordFileScanner.init_calm fuel hu.faults hu.guarded with ⟨hx, -⟩ | ⟨r, t, d, hx, hy, hft, hgt⟩
  · rw [hinit] at hx
    cases hx
  · rw [hinit] at hx
    cases hx
    have hbytes : RecordPool.bytes t = RecordPool.bytes s := by
      funext rid
      exact congrArg (fun d : PageId → RecordPage => (d rid.1).data rid.2) hfrees.pageData
    have hpages : t.pagesNum = s.pagesNum := hfrees.pagesNum
    have hrows : (rows s.calm).length = (rows s).length := rfl
    obtain ⟨y, hrun, hsteady, hfrees'⟩ := selectLoop_spec (x := ⟨t, c', (0, 0), fun _ => none⟩)
      snprintf fuel passes (fun bs => joinColumns (fields.map (m.cell snprintf bs)))
      fuel (printTupleHeader fields) ⟨hft, hgt⟩ (hu.scannable.frees hfrees)
      hahead (show t.pagesNum < fuel by omega) (by omega) (by omega)
      (fun rid => hresolved.descStrTuple snprintf (t.bytes rid))
    refine ⟨y, ?_, hsteady, hfrees.trans hfrees'⟩
    unfold selectByScan
    simp only [hy, hrun, hbytes, if_true]
    rfl

end Answer

theorem twoRows_usable : Usable twoRows where
  faults := rfl
  bounded _ h := of_decide_eq_true h
  header := rfl
  waiting _ h := absurd h Bool.false_ne_true

/-- `SELECT * FROM t`, for a table without indexes. -/
def selectAll : SelectStatement := ⟨["t"], [⟨none, "*"⟩], [], [("t", SelectStatement.sampleTable)],
  wildcardFields SelectStatement.sampleTable, []⟩

end Idmbs
