import Idmbs.Storage.TableMeta
import Mathlib.Data.List.Nodup
import Mathlib.Data.List.Perm.Basic

/-!
# Idmbs.Storage.CreateIndex

`Table::CreateIndex` and the two places that list the indexes of a table: `indexes_` of the table and
`indexes_` of its `table_meta_`. The contents of an index are of a type `σ`; a call carries what creating
the index file and inserting the records of the table answer.
-/

namespace Idmbs

structure Index (σ : Type) where
  indexMeta : IndexMeta
  fieldMeta : FieldMeta
  contents : σ

structure Table (σ : Type) where
  tableMeta : TableMeta
  indexes : List (Index σ)

structure CreateIndexCall (σ : Type) where
  indexName : Option String
  attrName : Option String
  /-- `BplusTreeIndex::Create` -/
  create : IndexMeta → FieldMeta → Re × σ
  /-- `ScanRecord` with `InsertIndexRecordReaderAdapter` -/
  fill : σ → Re × σ

namespace Table

variable {σ : Type} {t : Table σ} {c : CreateIndexCall σ} {calls : List (CreateIndexCall σ)} {m : TableMeta}

def getIndex (t : Table σ) (indexName : String) : Option (Index σ) :=
  t.indexes.find? fun i => i.indexMeta.indexName == indexName

/-- `GetIndexByField`: the description is looked up in `table_meta_`, the index by its name. -/
def getIndexByField (t : Table σ) (fieldName : String) : Option (Index σ) :=
  match t.tableMeta.getIndexByField fieldName with
  | none => none
  | some i => t.getIndex i.indexName

/-- `CreateIndex` after the names were checked. -/
def buildIndex (t : Table σ) (c : CreateIndexCall σ) (indexName attrName : String) : Re × Table σ :=
  match t.tableMeta.getField attrName with
  | none => (.schemaFieldMissing, t)
  | some field =>
    match IndexMeta.init indexName field with
    | .error r => (r, t)
    | .ok newIndexMeta =>
      let (r, index) := c.create newIndexMeta field
      if r ≠ .success then (r, t)
      else
        let (r, index) := c.fill index
        if r ≠ .success then (r, t)
        else (.success, { t with indexes := t.indexes ++ [⟨newIndexMeta, field, index⟩] })

def createIndex (t : Table σ) (c : CreateIndexCall σ) : Re × Table σ :=
  match c.indexName, c.attrName with
  | some indexName, some attrName =>
    if strBlank (some indexName) ∨ strBlank (some attrName) then (.invalidArgument, t)
    else if (t.tableMeta.getIndex indexName).isSome ∨ (t.tableMeta.getIndexByField attrName).isSome then
      (.schemaIndexExist, t)
    else t.buildIndex c indexName attrName
  | _, _ => (.invalidArgument, t)

/-- A run of calls: the table after it and the fields that its successful calls named. -/
def createIndexes : Table σ → List (CreateIndexCall σ) → Table σ × List String
  | t, [] => (t, [])
  | t, c :: calls =>
    match t.createIndex c with
    | (r, t') =>
      match t'.createIndexes calls with
      | (t'', named) => (t'', if r = .success then c.attrName.toList ++ named else named)

/-- The catalog and the opened indexes, when the calls so far named the fields `named`. -/
structure CatalogAgrees (t : Table σ) (named : List String) : Prop where
  same : t.tableMeta.indexes.Perm (t.indexes.map Index.indexMeta)
  names : (t.indexes.map fun i => i.indexMeta.indexName).Nodup
  fields : (t.indexes.map fun i => i.indexMeta.fieldName).Nodup
  found : ∀ f, (t.getIndexByField f).isSome ↔ f ∈ named

/-- Both agree after every call, and a call that fails adds to neither. -/
def KeepsCatalog (t : Table σ) (calls : List (CreateIndexCall σ)) : Prop :=
  ∀ done c rest, calls = done ++ c :: rest →
    CatalogAgrees (t.createIndexes (done ++ [c])).1 (t.createIndexes (done ++ [c])).2 ∧
    (((t.createIndexes done).1.createIndex c).1 ≠ .success →
      ((t.createIndexes done).1.createIndex c).2 = (t.createIndexes done).1)

/-- The call names nothing, or a field that the table has not, or the index cannot be built. -/
def Refused (m : TableMeta) (c : CreateIndexCall σ) : Prop :=
  ∀ indexName attrName, c.indexName = some indexName → c.attrName = some attrName →
    strBlank (some indexName) = false → strBlank (some attrName) = false →
    ∀ field, m.getField attrName = some field →
      (c.create ⟨indexName, field.fieldName⟩ field).1 ≠ .success ∨
      (c.fill (c.create ⟨indexName, field.fieldName⟩ field).2).1 ≠ .success

/-- A call fails and changes nothing, or the index it built is added to `indexes_`. -/
theorem createIndex_built (t : Table σ) (c : CreateIndexCall σ) :
    (∃ r, r ≠ .success ∧ t.createIndex c = (r, t)) ∨ ∃ attrName field m, c.attrName = some attrName ∧
      t.tableMeta.getField attrName = some field ∧ (c.create m field).1 = .success ∧
      t.createIndex c = (.success,
        { t with indexes := t.indexes ++ [⟨m, field, (c.fill (c.create m field).2).2⟩] }) := by
  unfold createIndex
  split
  · rename_i indexName attrName hindex hattr
    split
    · exact .inl ⟨_, by decide, rfl⟩
    · split
      · exact .inl ⟨_, by decide, rfl⟩
      · unfold buildIndex
        split
        · exact .inl ⟨_, by decide, rfl⟩
        · rename_i field hfield
          split
          · rename_i hm
            unfold IndexMeta.init at hm
            split at hm
            · cases hm
              exact .inl ⟨_, by decide, rfl⟩
            · cases hm
          · rename_i m hm
            dsimp only
            split
            · rename_i hr
              exact .inl ⟨_, hr, rfl⟩
            · rename_i hcreate
              split
              · rename_i hr
                exact .inl ⟨_, hr, rfl⟩
              · exact .inr ⟨attrName, field, m, hattr, hfield, not_not.mp hcreate, rfl⟩
  · exact .inl ⟨_, by decide, rfl⟩

/-- A call fails and changes nothing, or it adds one index to `indexes_` alone. -/
theorem createIndex_cases (t : Table σ) (c : CreateIndexCall σ) :
    (∃ r, r ≠ .success ∧ t.createIndex c = (r, t)) ∨
    ∃ i, t.createIndex c = (.success, { t with indexes := t.indexes ++ [i] }) :=
  (t.createIndex_built c).imp id fun ⟨_, _, _, _, _, _, heq⟩ => ⟨_, heq⟩

@[simp] theorem createIndex_tableMeta : (t.createIndex c).2.tableMeta = t.tableMeta := by
  rcases t.createIndex_cases c with ⟨r, -, h⟩ | ⟨i, h⟩ <;> rw [h]

theorem createIndex_failed (h : (t.createIndex c).1 ≠ .success) : (t.createIndex c).2 = t := by
  rcases t.createIndex_cases c with ⟨r, -, hc⟩ | ⟨i, hc⟩
  · rw [hc]
  · rw [hc] at h
    exact absurd rfl h

/-- What decides a call while `table_meta_` lists no index. -/
theorem createIndex_success_iff (hm : t.tableMeta.indexes = []) :
    (t.createIndex c).1 = .success ↔ ¬Refused t.tableMeta c := by
  have hnone : ∀ n, t.tableMeta.getIndex n = none := fun n => by rw [TableMeta.getIndex, hm]; rfl
  have hnone' : ∀ n, t.tableMeta.getIndexByField n = none := fun n => by
    rw [TableMeta.getIndexByField, hm]; rfl
  obtain ⟨indexName, attrName, create, fill⟩ := c
  cases indexName with
  | none => exact iff_of_false (by simp [createIndex]) (not_not.mpr fun _ _ h => nomatch h)
  | some indexName =>
    cases attrName with
    | none => exact iff_of_false (by simp [createIndex]) (not_not.mpr fun _ _ _ h => nomatch h)
    | some attrName =>
      simp only [createIndex, hnone, hnone', Option.isSome_none, or_self, Bool.false_eq_true, if_false]
      by_cases hb : strBlank (some indexName) = true ∨ strBlank (some attrName) = true
      · rw [if_pos hb]
        refine iff_of_false (fun h => nomatch h) (not_not.mpr ?_)
        rintro _ _ ⟨⟩ ⟨⟩ h1 h2
        rw [h1, h2] at hb
        exact absurd hb (by decide)
      · rw [if_neg hb, not_or, Bool.not_eq_true, Bool.not_eq_true] at *
        obtain ⟨hb1, hb2⟩ := hb
        simp only [buildIndex]
        cases hf : t.tableMeta.getField attrName with
        | none =>
          refine iff_of_false (fun h => nomatch h) (not_not.mpr ?_)
          rintro _ _ ⟨⟩ ⟨⟩ - - field hfield
          rw [hf] at hfield
          cases hfield
        | some field =>
          simp only [IndexMeta.init, hb1, Bool.false_eq_true, if_false]
          have hrefused : Refused t.tableMeta ⟨some indexName, some attrName, create, fill⟩ ↔
              (create ⟨indexName, field.fieldName⟩ field).1 ≠ .success ∨
              (fill (create ⟨indexName, field.fieldName⟩ field).2).1 ≠ .success := by
            constructor
            · intro h
              exact h _ _ rfl rfl hb1 hb2 field hf
            · rintro h _ _ ⟨⟩ ⟨⟩ - - field' hfield'
              rw [hf] at hfield'
              cases hfield'
              exact h
          rw [hrefused, not_or, not_not, not_not]
          by_cases hr : (create ⟨indexName, field.fieldName⟩ field).1 = .success
          · by_cases hr' : (fill (create ⟨indexName, field.fieldName⟩ field).2).1 = .success
            · rw [if_neg (not_not.mpr hr), if_neg (not_not.mpr hr')]
              exact iff_of_true rfl ⟨hr, hr'⟩
            · rw [if_neg (not_not.mpr hr), if_pos hr']
              exact iff_of_false hr' fun h => hr' h.2
          · rw [if_pos hr]
            exact iff_of_false hr fun h => hr h.1

theorem createIndexes_snoc (t : Table σ) (done : List (CreateIndexCall σ)) (c : CreateIndexCall σ) :
    (t.createIndexes (done ++ [c])).1 = ((t.createIndexes done).1.createIndex c).2 := by
  induction done generalizing t with
  | nil => rfl
  | cons d done ih => exact ih _

theorem createIndexes_tableMeta (t : Table σ) (calls : List (CreateIndexCall σ)) :
    (t.createIndexes calls).1.tableMeta = t.tableMeta := by
  induction calls generalizing t with
  | nil => rfl
  | cons c calls ih =>
    rw [← createIndex_tableMeta (t := t) (c := c)]
    exact ih _

/-- A run of refused calls leaves the table and names nothing. -/
theorem createIndexes_refused (calls : List (CreateIndexCall σ)) (hm : t.tableMeta.indexes = [])
    (h : ∀ c ∈ calls, Refused t.tableMeta c) :
    t.createIndexes calls = (t, []) := by
  induction calls with
  | nil => rfl
  | cons c calls ih =>
    have hc : (t.createIndex c).1 ≠ .success := fun hs =>
      (createIndex_success_iff hm).mp hs (h c List.mem_cons_self)
    have hrest := ih fun d hd => h d (List.mem_cons_of_mem c hd)
    simp only [createIndexes, createIndex_failed hc, hrest, if_neg hc]

/-- From a table without indexes, both lists agree in every state reached if and only if every call is
refused. -/
theorem keepsCatalog_iff (hm : m.indexes = []) :
    KeepsCatalog (⟨m, []⟩ : Table σ) calls ↔ ∀ c ∈ calls, Refused m c := by
  constructor
  · intro h c hc
    obtain ⟨done, rest, rfl⟩ := List.append_of_mem hc
    obtain ⟨hagree, -⟩ := h done c rest rfl
    by_contra hnot
    have hmeta : (createIndexes (⟨m, []⟩ : Table σ) done).1.tableMeta = m := createIndexes_tableMeta _ _
    have hs := (createIndex_success_iff (t := (createIndexes (⟨m, []⟩ : Table σ) done).1)
      (hmeta.symm ▸ hm)).mpr (hmeta.symm ▸ hnot)
    have hlen := hagree.same.length_eq
    rw [createIndexes_tableMeta, createIndexes_snoc] at hlen
    rcases createIndex_cases (createIndexes (⟨m, []⟩ : Table σ) done).1 c with ⟨r, hr, he⟩ | ⟨i, he⟩
    · rw [he] at hs
      exact hr hs
    · rw [he] at hlen
      simp only [hm, List.length_nil, List.length_map, List.length_append, List.length_singleton] at hlen
      omega
  · intro h done c rest hcalls
    subst hcalls
    have hdone := createIndexes_refused (t := ⟨m, []⟩) (done ++ [c]) hm fun d hd =>
      h d (by rw [List.append_cons]; exact List.mem_append_left rest hd)
    rw [hdone]
    refine ⟨⟨?_, List.nodup_nil, List.nodup_nil, fun f => ?_⟩, createIndex_failed⟩
    · rw [hm]
      exact List.Perm.nil
    · simp only [getIndexByField, TableMeta.getIndexByField, hm, List.find?_nil, List.not_mem_nil,
        Option.isSome_none, Bool.false_eq_true]

/-- `CREATE INDEX` on a column that is not there. -/
theorem keepsCatalog_iff_missing :
    KeepsCatalog (⟨⟨"t", [⟨"id", .ints, 4, 4, true⟩], [], 8⟩, []⟩ : Table Unit)
      [⟨some "index_1", some "age", fun _ _ => (.success, ()), fun _ => (.success, ())⟩] := by
  refine (keepsCatalog_iff rfl).mpr ?_
  rintro c (_ | ⟨_, ⟨⟩⟩)
  rintro _ _ ⟨⟩ ⟨⟩ - - field hfield
  have hnone : TableMeta.getField ⟨"t", [⟨"id", .ints, 4, 4, true⟩], [], 8⟩ "age" = none := by decide
  rw [hnone] at hfield
  cases hfield

/-- A successful `CREATE INDEX` is not in the catalog. -/
theorem not_keepsCatalog_created :
    ¬KeepsCatalog (⟨⟨"t", [⟨"id", .ints, 4, 4, true⟩], [], 8⟩, []⟩ : Table Unit)
      [⟨some "index_1", some "id", fun _ _ => (.success, ()), fun _ => (.success, ())⟩] := by
  intro h
  have hagree := (h [] _ [] rfl).1
  exact absurd hagree.same.length_eq (by decide)

end Table

end Idmbs
