import Idmbs.Parse.QueryKind
import Idmbs.Resolve.Filter

/-!
# Idmbs.Resolve.SelectStatement

`SelectStatement` (resolve/resolve_defs.cpp): the tables, the columns and the filter of a SELECT. The
actions of the parser store the select list back to front, and `Handle` walks it from its end.
-/

namespace Idmbs

structure Field where
  table : TableMeta
  fieldMeta : FieldMeta
  deriving DecidableEq, Repr

/-- `tables_vec` with the names that `tables_map` finds them by. -/
abbrev Tables := List (String × TableMeta)

/-- `Value::Copy`; `none` where it asserts. -/
def Value.copy : Value → Option Value
  | .dates _ => none
  | v => some v

def Condition.copy (c : Condition) : Option Condition :=
  let side : Operand → Option Operand
    | .attr a => some (.attr a)
    | .value v => v.copy.map .value
  match side c.left, side c.right with
  | some left, some right => some ⟨c.comp, left, right⟩
  | _, _ => none

def copyConditions : List Condition → Option (List Condition)
  | [] => some []
  | c :: cs =>
    match c.copy, copyConditions cs with
    | some c, some cs => some (c :: cs)
    | _, _ => none

def wildcardFields (table : TableMeta) : List Field :=
  (table.fields.drop TableMeta.sysFields.length).map fun f => ⟨table, f⟩

namespace Filter

/-- `GetTableAndField` with a map of tables. -/
def getTableAndField (defaultTable : Option TableMeta) (tables : Tables) (attr : RelAttr) :
    Except Re FieldMeta :=
  let table := match attr.relName with
    | none => defaultTable
    | some relName => tables.lookup relName
  match table with
  | none => .error .schemaTableNotExist
  | some table =>
    match table.getField attr.attrName with
    | none => .error .schemaFieldNotExist
    | some field => .ok field

def createFilterUnit (defaultTable : Option TableMeta) (tables : Tables) (condition : Condition) :
    Except Re FilterUnit :=
  let side : Operand → Except Re Expression
    | .attr a => (getTableAndField defaultTable tables a).map .field
    | .value v => .ok (.ofValue v)
  if condition.comp = .noOp then .error .invalidArgument
  else
    match side condition.left with
    | .error r => .error r
    | .ok left =>
      match side condition.right with
      | .error r => .error r
      | .ok right =>
        if Expression.isComparable left right then .ok ⟨condition.comp, left, right⟩
        else .error .genericError

def createFilter (defaultTable : Option TableMeta) (tables : Tables) :
    List Condition → Except Re (List FilterUnit)
  | [] => .ok []
  | c :: cs =>
    match createFilterUnit defaultTable tables c with
    | .error r => .error r
    | .ok u =>
      match createFilter defaultTable tables cs with
      | .error r => .error r
      | .ok us => .ok (u :: us)

end Filter

structure SelectStatement where
  tableNames : List String
  attrs : List RelAttr
  conditions : List Condition
  tables : Tables
  fields : List Field
  filter : List FilterUnit

namespace SelectStatement

/-- `Init`; `none` for a query of another class, or where a copy asserts. -/
def init : Query → Option SelectStatement
  | .select attrs relNames conditions =>
    match copyConditions conditions with
    | none => none
    | some conditions => some ⟨relNames, attrs, conditions, [], [], []⟩
  | _ => none

/-- The tables of the FROM list; `getTable` is that of the database. -/
def findTables (getTable : String → Option TableMeta) : List String → Except Re Tables
  | [] => .ok []
  | name :: names =>
    match getTable name with
    | none => .error .schemaTableNotExist
    | some table =>
      match findTables getTable names with
      | .error r => .error r
      | .ok tables => .ok ((name, table) :: tables)

def attrFields (tables : Tables) (attr : RelAttr) : Except Re (List Field) :=
  if attr.relName = none ∧ attr.attrName = "*" then .ok (tables.flatMap fun t => wildcardFields t.2)
  else
    match attr.relName with
    | some relName =>
      if relName = "*" then
        if attr.attrName ≠ "*" then .error .schemaFieldMissing
        else .ok (tables.flatMap fun t => wildcardFields t.2)
      else
        match tables.lookup relName with
        | none => .error .schemaFieldMissing
        | some table =>
          if attr.attrName = "*" then .ok (wildcardFields table)
          else
            match table.getField attr.attrName with
            | none => .error .schemaFieldMissing
            | some field => .ok [⟨table, field⟩]
    | none =>
      match tables with
      | [(_, table)] =>
        match table.getField attr.attrName with
        | none => .error .schemaFieldMissing
        | some field => .ok [⟨table, field⟩]
      | _ => .error .schemaFieldMissing

/-- The loop over the items, in the order in which it takes them. -/
def fieldsOf (tables : Tables) : List RelAttr → Except Re (List Field)
  | [] => .ok []
  | attr :: attrs =>
    match attrFields tables attr with
    | .error r => .error r
    | .ok fields =>
      match fieldsOf tables attrs with
      | .error r => .error r
      | .ok rest => .ok (fields ++ rest)

def handle (getTable : String → Option TableMeta) (s : SelectStatement) : Except Re SelectStatement :=
  match findTables getTable s.tableNames with
  | .error r => .error r
  | .ok tables =>
    match fieldsOf tables s.attrs.reverse with
    | .error r => .error r
    | .ok fields =>
      let defaultTable := match tables with
        | [(_, table)] => some table
        | _ => none
      match Filter.createFilter defaultTable tables s.conditions with
      | .error r => .error r
      | .ok filter => .ok { s with filter := filter, tables := tables, fields := fields }

end SelectStatement

/-! ## The select list as it is written -/

/-- An ID of the lexer. -/
def IsId (s : String) : Prop :=
  ∃ c cs, s.toList = c :: cs ∧ (c.isAlpha ∨ c = '_') ∧ ∀ d ∈ cs, d.isAlphanum ∨ d = '_'

theorem IsId.ne_star {s : String} (h : IsId s) : s ≠ "*" := by
  rintro rfl
  obtain ⟨c, cs, hlist, hc, -⟩ := h
  cases hlist
  revert hc
  decide

/-- The items of a select list. -/
def SelectAttr.items : SelectAttr → List RelAttr
  | star => [⟨none, "*"⟩]
  | attrs first rest => first :: rest

/-- An item that names a field of the table, with or without the name of the table. -/
structure RelAttr.Resolves (rel : String) (m : TableMeta) (a : RelAttr) : Prop where
  attr : IsId a.attrName
  rel : a.relName = none ∨ a.relName = some rel
  field : ∃ f, m.getField a.attrName = some f

def SelectAttr.Resolves (rel : String) (m : TableMeta) : SelectAttr → Prop
  | star => True
  | attrs first rest => ∀ a ∈ first :: rest, a.Resolves rel m

/-- `fields` is the select list in the order of the statement. -/
def SelectAttr.Lists (m : TableMeta) (fields : List Field) : SelectAttr → Prop
  | star => fields = wildcardFields m
  | attrs first rest =>
    fields.map some = (first :: rest).map fun a => (m.getField a.attrName).map (Field.mk m)

/-! ## What the parser stores -/

namespace ParserContext

variable {c : ParserContext} {as : List RelAttr}

/-- A context in the middle of a select list. -/
structure Selecting (c : ParserContext) (as : List RelAttr) : Prop where
  query : (c.query = none ∧ as = []) ∨ c.query = some (.select as [] [])
  conditions : c.conditions = []

theorem Selecting.addRelAttr (h : Selecting c as) (a : RelAttr) :
    ∃ c', c.addRelAttr a = .ok c' ∧ c'.query = some (.select (as ++ [a]) [] []) ∧ c'.conditions = [] := by
  obtain ⟨query, values, conditions, comp, cid⟩ := c
  obtain ⟨hq, hc⟩ := h
  rcases hq with ⟨hnone, has⟩ | hsome
  · cases hnone
    cases has
    exact ⟨_, rfl, rfl, hc⟩
  · cases hsome
    exact ⟨_, rfl, rfl, hc⟩

/-- The list is stored from its end. -/
theorem attrList_select (rest : List RelAttr) : ∃ c, new.attrList rest = .ok c ∧ Selecting c rest.reverse := by
  induction rest with
  | nil => exact ⟨new, rfl, Or.inl ⟨rfl, rfl⟩, rfl⟩
  | cons a rest ih =>
    obtain ⟨c1, h1, hs⟩ := ih
    obtain ⟨c2, h2, hq, hc⟩ := hs.addRelAttr a
    refine ⟨c2, ?_, Or.inr ?_, hc⟩
    · rw [attrList, h1]
      exact h2
    · rw [hq, List.reverse_cons]

theorem selectAttr_select (attr : SelectAttr) : ∃ c, new.selectAttr attr = .ok c ∧
    c.query = some (.select attr.items.reverse [] []) ∧ c.conditions = [] := by
  cases attr with
  | star =>
    obtain ⟨c, h, hq, hc⟩ := Selecting.addRelAttr (c := new) ⟨Or.inl ⟨rfl, rfl⟩, rfl⟩ ⟨none, "*"⟩
    exact ⟨c, h, hq, hc⟩
  | attrs first rest =>
    obtain ⟨c1, h1, hs⟩ := attrList_select rest
    obtain ⟨c2, h2, hq, hc⟩ := hs.addRelAttr first
    refine ⟨c2, ?_, ?_, hc⟩
    · rw [selectAttr, h1]
      exact h2
    · rw [hq, SelectAttr.items, List.reverse_cons]

theorem select_query (outside : Nat → Value) (attr : SelectAttr) (rel : String) (w : List ConditionTree) :
    ∃ c conditions, new.command outside (.select attr rel [] w) = .ok c ∧
      c.query = some (.select attr.items.reverse [rel] conditions) ∧ (w = [] → conditions = []) := by
  obtain ⟨c1, h1, hq1, hc1⟩ := selectAttr_select attr
  have hq2 := conditionList_query (c := c1) outside w
  rw [hq1] at hq2
  unfold command
  simp only [h1, relList, bind, Except.bind]
  have hempty : w = [] → (c1.conditionList outside w).conditions = [] := by
    rintro rfl
    exact hc1
  obtain ⟨c2, hc2⟩ : ∃ c2, c1.conditionList outside w = c2 := ⟨_, rfl⟩
  rw [hc2] at hq2 hempty ⊢
  obtain ⟨query, values, conditions, comp, cid⟩ := c2
  cases hq2
  exact ⟨_, conditions, rfl, rfl, hempty⟩

end ParserContext

/-! ## What `Handle` makes of it -/

namespace SelectStatement

variable {m : TableMeta} {rel : String} {a : RelAttr} {as : List RelAttr} {attr : SelectAttr}
  {getTable : String → Option TableMeta}

theorem lookup_single : List.lookup rel [(rel, m)] = some m := by
  rw [List.lookup_cons_self]

theorem attrFields_of_resolves (h : a.Resolves rel m) (hrel : IsId rel) :
    ∃ f, attrFields [(rel, m)] a = .ok [⟨m, f⟩] ∧ m.getField a.attrName = some f := by
  obtain ⟨f, hf⟩ := h.field
  refine ⟨f, ?_, hf⟩
  obtain ⟨relName, attrName⟩ := a
  have hstar : attrName ≠ "*" := h.attr.ne_star
  unfold attrFields
  rcases h.rel with hnone | hsome
  · cases hnone
    rw [if_neg fun hc => hstar hc.2]
    simp only [hf]
  · cases hsome
    rw [if_neg fun hc => hstar hc.2]
    simp only [if_neg hrel.ne_star, lookup_single, if_neg hstar, hf]

theorem fieldsOf_of_resolves (h : ∀ a ∈ as, a.Resolves rel m) (hrel : IsId rel) :
    ∃ fields, fieldsOf [(rel, m)] as = .ok fields ∧
      fields.map some = as.map fun a => (m.getField a.attrName).map (Field.mk m) := by
  induction as with
  | nil => exact ⟨[], rfl, rfl⟩
  | cons a as ih =>
    obtain ⟨f, hf, hget⟩ := attrFields_of_resolves (h a List.mem_cons_self) hrel
    obtain ⟨fields, hfields, hmap⟩ := ih fun b hb => h b (List.mem_cons_of_mem a hb)
    refine ⟨[⟨m, f⟩] ++ fields, ?_, ?_⟩
    · rw [fieldsOf, hf]
      simp only [hfields]
    · rw [List.map_append, hmap]
      simp [hget]

theorem fieldsOf_items (h : attr.Resolves rel m) (hrel : IsId rel) :
    ∃ fields, fieldsOf [(rel, m)] attr.items = .ok fields ∧ attr.Lists m fields := by
  cases attr with
  | star =>
    refine ⟨wildcardFields m, ?_, rfl⟩
    simp [SelectAttr.items, fieldsOf, attrFields]
  | attrs first rest => exact fieldsOf_of_resolves h hrel

theorem handle_single {attrs : List RelAttr} {conditions : List Condition} {fields : List Field}
    (hget : getTable rel = some m) (hfields : fieldsOf [(rel, m)] attrs.reverse = .ok fields) :
    handle getTable ⟨[rel], attrs, conditions, [], [], []⟩ =
      (Filter.createFilter (some m) [(rel, m)] conditions).map fun filter =>
        ⟨[rel], attrs, conditions, [(rel, m)], fields, filter⟩ := by
  unfold handle
  simp only [findTables, hget, hfields]
  cases Filter.createFilter (some m) [(rel, m)] conditions <;> rfl

/-- A SELECT over one table whose items all resolve: what `Handle` leaves has them in the order of the
statement, and without a WHERE clause it does not fail. -/
theorem select_lists (outside : Nat → Value) (w : List ConditionTree) (hrel : IsId rel)
    (hget : getTable rel = some m) (hattr : attr.Resolves rel m) :
    ∃ c q, ParserContext.new.command outside (.select attr rel [] w) = .ok c ∧ c.query = some q ∧
      (∀ s t, init q = some s → handle getTable s = .ok t → attr.Lists m t.fields) ∧
      (w = [] → ∃ s t, init q = some s ∧ handle getTable s = .ok t) := by
  obtain ⟨c, conditions, hc, hq, hempty⟩ := ParserContext.select_query outside attr rel w
  obtain ⟨fields, hfields, hlists⟩ := fieldsOf_items hattr hrel
  have hrev : fieldsOf [(rel, m)] attr.items.reverse.reverse = .ok fields := by
    rw [List.reverse_reverse]
    exact hfields
  refine ⟨c, _, hc, hq, ?_, ?_⟩
  · intro s t hs ht
    simp only [init] at hs
    cases hcopy : copyConditions conditions with
    | none =>
      rw [hcopy] at hs
      cases hs
    | some conds =>
      simp only [hcopy] at hs
      cases hs
      rw [handle_single hget hrev] at ht
      cases hfilter : Filter.createFilter (some m) [(rel, m)] conds with
      | error r =>
        rw [hfilter] at ht
        cases ht
      | ok filter =>
        rw [hfilter] at ht
        cases ht
        exact hlists
  · intro hw
    cases hempty hw
    exact ⟨⟨[rel], attr.items.reverse, [], [], [], []⟩,
      ⟨[rel], attr.items.reverse, [], [(rel, m)], fields, []⟩, rfl, handle_single hget hrev⟩

/-- A `char(4)` before an `int`. -/
def sampleTable : TableMeta :=
  ⟨"t", TableMeta.sysFields ++ [⟨"c", .chars, 4, 4, true⟩, ⟨"n", .ints, 8, 4, true⟩], [], 12⟩

/-- `n, t.c, n`. -/
def sampleList : SelectAttr := .attrs ⟨none, "n"⟩ [⟨some "t", "c"⟩, ⟨none, "n"⟩]

theorem select_lists_sample :
    ∃ c q, ParserContext.new.command (fun _ => .undefined) (.select sampleList "t" [] []) = .ok c ∧
      c.query = some q ∧
      (∀ s t, init q = some s → handle (fun _ => some sampleTable) s = .ok t →
        sampleList.Lists sampleTable t.fields) ∧
      (([] : List ConditionTree) = [] →
        ∃ s t, init q = some s ∧ handle (fun _ => some sampleTable) s = .ok t) := by
  have hid : ∀ s ∈ ["n", "c", "t"], IsId s := by
    intro s hs
    simp only [List.mem_cons, List.not_mem_nil, or_false] at hs
    rcases hs with rfl | rfl | rfl
    · exact ⟨'n', [], rfl, by decide, by simp⟩
    · exact ⟨'c', [], rfl, by decide, by simp⟩
    · exact ⟨'t', [], rfl, by decide, by simp⟩
  refine select_lists (fun _ => .undefined) [] (hid "t" (by simp)) rfl ?_
  intro a ha
  simp only [List.mem_cons, List.not_mem_nil, or_false] at ha
  rcases ha with rfl | rfl | rfl
  · exact ⟨hid "n" (by simp), Or.inl rfl, _, rfl⟩
  · exact ⟨hid "c" (by simp), Or.inr rfl, _, rfl⟩
  · exact ⟨hid "n" (by simp), Or.inl rfl, _, rfl⟩

end SelectStatement
end Idmbs
