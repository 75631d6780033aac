import Idmbs.Parse.QueryKind

/-!
# Idmbs.Parse.Stored

What the actions store of one statement: the rows of an INSERT and the conditions of a WHERE clause, when
each literal pushes its value, and when one of them pushes none.
-/

namespace Idmbs

def Literal.isDate : Literal → Bool
  | dateStr _ => true
  | _ => false

/-- Neither side is a date. -/
def Condition.NoDate (s : Condition) : Prop :=
  (∀ v, s.left = .value v → v.type ≠ .dates) ∧ ∀ v, s.right = .value v → v.type ≠ .dates

theorem Literal.meaning_type {l : Literal} : l.meaning.type = .dates ↔ l.isDate = true := by
  cases l <;> simp [meaning, Value.type, isDate]

theorem ConditionTree.noDate_literals {t : ConditionTree} (h : t.meaning.NoDate) :
    ∀ l ∈ t.literals, l.isDate = false := by
  intro l hl
  rw [Bool.eq_false_iff, ne_eq, ← Literal.meaning_type]
  intro hdate
  cases t with
  | valueValue a op b =>
    rcases List.mem_pair.mp hl with rfl | rfl
    · exact h.1 _ rfl hdate
    · exact h.2 _ rfl hdate
  | idValue id op v =>
    cases List.mem_singleton.mp hl
    exact h.2 _ rfl hdate
  | relIdValue rel id op v =>
    cases List.mem_singleton.mp hl
    exact h.2 _ rfl hdate
  | valueId v op id =>
    cases List.mem_singleton.mp hl
    exact h.1 _ rfl hdate
  | valueRelId v op rel id =>
    cases List.mem_singleton.mp hl
    exact h.1 _ rfl hdate
  | idId l op r => cases hl
  | relIdRelId lrel l op rrel r => cases hl

namespace ParserContext

variable {c : ParserContext} {outside : Nat → Value} {v : Literal} {vs : List Literal}
  {t : ConditionTree} {w : List ConditionTree} {xs : List Value} {x y : Value}

/-! ## Literals -/

theorem value_push (h : v.isDate = false) :
    c.value v = { c with values := c.values ++ [v.meaning] } := by
  cases v with
  | dateStr text => cases h
  | number n => rfl
  | float bits => rfl
  | sss text => rfl

theorem value_date (h : v.isDate = true) : c.value v = c := by
  cases v with
  | dateStr text => rfl
  | number n => cases h
  | float bits => cases h
  | sss text => cases h

/-- A list of literals pushes the values of those that are no dates. -/
theorem valueList_values (c : ParserContext) (vs : List Literal) :
    (c.valueList vs).values = c.values ++ (vs.filter fun v => !v.isDate).map Literal.meaning := by
  induction vs generalizing c with
  | nil => exact (List.append_nil _).symm
  | cons v vs ih =>
    cases h : v.isDate with
    | true =>
      rw [List.filter_cons_of_neg (by simp [h])]
      exact (congrArg (fun c => (valueList c vs).values) (value_date h)).trans (ih c)
    | false =>
      rw [List.filter_cons_of_pos (by simp [h]), List.map_cons, List.append_cons]
      exact (congrArg (fun c => (valueList c vs).values) (value_push h)).trans (ih _)

theorem valueList_values_iff (vs : List Literal) :
    (c.valueList vs).values = c.values ++ vs.map Literal.meaning ↔ ∀ v ∈ vs, v.isDate = false := by
  rw [valueList_values, List.append_cancel_left_eq]
  constructor
  · intro h
    have hlen := congrArg List.length h
    rw [List.length_map, List.length_map, List.length_filter_eq_length_iff] at hlen
    simpa using hlen
  · intro h
    rw [List.filter_eq_self.mpr (by simpa using h)]

/-! ## Conditions -/

theorem valueAt_last (outside : Nat → Value) (h : c.values = xs ++ [x]) : c.valueAt outside 1 = x := by
  unfold valueAt
  rw [h, if_pos (by simp)]
  simp

theorem valueAt_second (outside : Nat → Value) (h : c.values = xs ++ [x] ++ [y]) : c.valueAt outside 2 = x := by
  unfold valueAt
  rw [h, if_pos (by simp)]
  simp

@[simp] theorem comOp_values (op : ComOp) : (c.comOp op).values = c.values := by
  cases op <;> rfl

@[simp] theorem comOp_conditions (op : ComOp) : (c.comOp op).conditions = c.conditions := by
  cases op <;> rfl

@[simp] theorem comOp_comp (op : ComOp) : (c.comOp op).comp = op.meaning := by
  cases op <;> rfl

@[simp] theorem value_conditions : (c.value v).conditions = c.conditions := by
  cases v <;> rfl

@[simp] theorem value_comp : (c.value v).comp = c.comp := by
  cases v <;> rfl

theorem value_values (h : v.isDate = false) : (c.value v).values = c.values ++ [v.meaning] := by
  rw [value_push h]

/-- Without dates a condition is stored as it is written. -/
theorem condition_conditions (outside : Nat → Value) (h : ∀ l ∈ t.literals, l.isDate = false) :
    (c.condition outside t).conditions = c.conditions ++ [t.meaning] := by
  cases t with
  | idValue id op v =>
    have hv := valueAt_last outside
      (value_values (c := c.comOp op) (h v (by simp [ConditionTree.literals])))
    simp [condition, addCondition, hv, ConditionTree.meaning]
  | valueValue l op r =>
    have hl := value_values (c := c) (h l (by simp [ConditionTree.literals]))
    have hr := value_values (c := (c.value l).comOp op) (h r (by simp [ConditionTree.literals]))
    have h1 := valueAt_last outside hr
    rw [comOp_values, hl] at hr
    have h2 := valueAt_second outside hr
    simp [condition, addCondition, h1, h2, ConditionTree.meaning]
  | idId l op r => simp [condition, addCondition, ConditionTree.meaning]
  | valueId v op id =>
    have hv := value_values (c := c) (h v (by simp [ConditionTree.literals]))
    rw [← comOp_values op] at hv
    simp [condition, addCondition, valueAt_last outside hv, ConditionTree.meaning]
  | relIdValue rel id op v =>
    have hv := valueAt_last outside
      (value_values (c := c.comOp op) (h v (by simp [ConditionTree.literals])))
    simp [condition, addCondition, hv, ConditionTree.meaning]
  | valueRelId v op rel id =>
    have hv := value_values (c := c) (h v (by simp [ConditionTree.literals]))
    rw [← comOp_values op] at hv
    simp [condition, addCondition, valueAt_last outside hv, ConditionTree.meaning]
  | relIdRelId lrel l op rrel r => simp [condition, addCondition, ConditionTree.meaning]

theorem conditionList_conditions (h : ∀ t ∈ w, ∀ l ∈ t.literals, l.isDate = false) :
    (c.conditionList outside w).conditions = c.conditions ++ w.map ConditionTree.meaning := by
  induction w generalizing c with
  | nil => exact (List.append_nil _).symm
  | cons t w ih =>
    rw [List.map_cons, List.append_cons, ← condition_conditions outside
      (h t List.mem_cons_self)]
    exact ih fun s hs => h s (List.mem_cons_of_mem t hs)

/-- No value of the array is a date. -/
def NoDates (c : ParserContext) : Prop := ∀ x ∈ c.values, x.type ≠ .dates

theorem NoDates.value (h : NoDates c) : NoDates (c.value v) := by
  cases hv : v.isDate with
  | true => rwa [value_date hv]
  | false =>
    intro x hx
    rw [value_values hv] at hx
    rcases List.mem_append.mp hx with hx | hx
    · exact h x hx
    · rw [List.mem_singleton.mp hx, ne_eq, Literal.meaning_type, hv]
      exact Bool.false_ne_true

theorem NoDates.comOp (op : ComOp) (h : NoDates c) : NoDates (c.comOp op) := by
  rwa [NoDates, comOp_values]

theorem NoDates.valueAt (h : NoDates c) (back : Nat) :
    (c.valueAt (fun _ => .undefined) back).type ≠ .dates := by
  unfold ParserContext.valueAt
  split
  · rw [List.getD_eq_getElem?_getD]
    cases hx : c.values[c.values.length - back]? with
    | none => exact fun h => nomatch h
    | some x => exact h x (List.mem_of_getElem? hx)
  · exact fun h => nomatch h

theorem NoDates.addCondition {c1 : ParserContext} {left right : Operand} (h : NoDates c1)
    (hc : c1.conditions = c.conditions) (hl : ∀ v, left = .value v → v.type ≠ .dates)
    (hr : ∀ v, right = .value v → v.type ≠ .dates) :
    NoDates (c1.addCondition left right) ∧
    ∃ s, (c1.addCondition left right).conditions = c.conditions ++ [s] ∧ s.NoDate :=
  ⟨h, ⟨c1.comp, left, right⟩, by rw [ParserContext.addCondition, hc], hl, hr⟩

/-- What a condition stores has no date, and the array gets none. -/
theorem NoDates.condition (h : NoDates c) (t : ConditionTree) :
    NoDates (c.condition (fun _ => .undefined) t) ∧
    ∃ s, (c.condition (fun _ => .undefined) t).conditions = c.conditions ++ [s] ∧ s.NoDate := by
  have hattr : ∀ a v, Operand.attr a = .value v → v.type ≠ .dates := fun _ _ hv => nomatch hv
  have hval : ∀ {c1 : ParserContext}, NoDates c1 → ∀ back v,
      Operand.value (c1.valueAt (fun _ => .undefined) back) = .value v → v.type ≠ .dates := by
    rintro c1 h1 back _ ⟨⟩
    exact h1.valueAt back
  cases t with
  | idValue id op v =>
    have h1 : NoDates ((c.comOp op).value v) := (h.comOp op).value
    exact h1.addCondition (by simp) (hattr _) (hval h1 1)
  | valueValue l op r =>
    have h1 : NoDates (((c.value l).comOp op).value r) := (h.value.comOp op).value
    exact h1.addCondition (by simp) (hval h1 2) (hval h1 1)
  | idId l op r => exact (h.comOp op).addCondition (by simp) (hattr _) (hattr _)
  | valueId v op id =>
    have h1 : NoDates ((c.value v).comOp op) := h.value.comOp op
    exact h1.addCondition (by simp) (hval h1 1) (hattr _)
  | relIdValue rel id op v =>
    have h1 : NoDates ((c.comOp op).value v) := (h.comOp op).value
    exact h1.addCondition (by simp) (hattr _) (hval h1 1)
  | valueRelId v op rel id =>
    have h1 : NoDates ((c.value v).comOp op) := h.value.comOp op
    exact h1.addCondition (by simp) (hval h1 1) (hattr _)
  | relIdRelId lrel l op rrel r => exact (h.comOp op).addCondition (by simp) (hattr _) (hattr _)

theorem NoDates.conditionList (h : NoDates c) (w : List ConditionTree) :
    ∃ ss, (c.conditionList (fun _ => .undefined) w).conditions = c.conditions ++ ss ∧
      ∀ s ∈ ss, s.NoDate := by
  induction w generalizing c with
  | nil => exact ⟨[], (List.append_nil _).symm, fun _ hs => nomatch hs⟩
  | cons t w ih =>
    obtain ⟨h1, s, hs, hnone⟩ := h.condition t
    obtain ⟨ss, hss, hall⟩ := ih h1
    refine ⟨s :: ss, ?_, fun s' hs' => ?_⟩
    · rw [List.append_cons, ← hs]
      exact hss
    · rcases List.mem_cons.mp hs' with rfl | hs'
      · exact hnone
      · exact hall s' hs'

/-- From an empty array of conditions, a WHERE clause is stored as written if and only if it has no date. -/
theorem conditionList_iff (hc : c.conditions = []) (hdates : NoDates c) :
    (∀ outside, (c.conditionList outside w).conditions = w.map ConditionTree.meaning) ↔
      ∀ t ∈ w, ∀ l ∈ t.literals, l.isDate = false := by
  constructor
  · intro h t ht
    obtain ⟨ss, hss, hall⟩ := hdates.conditionList w
    rw [h, hc, List.nil_append] at hss
    refine ConditionTree.noDate_literals (hall _ ?_)
    rw [← hss]
    exact List.mem_map_of_mem ht
  · intro h outside
    rw [conditionList_conditions h, hc, List.nil_append]

/-! ## Statements -/

/-- Before the WHERE clause of a SELECT: its query, if there is one, has no conditions yet. -/
structure Fresh (c : ParserContext) : Prop where
  query : ∀ q, c.query = some q → ∃ attrs rels, q = .select attrs rels []
  values : c.values = []
  conditions : c.conditions = []

theorem new_fresh : Fresh .new := ⟨fun _ h => (nomatch h), rfl, rfl⟩

theorem Fresh.addRelAttr (h : Fresh c) (a : RelAttr) :
    ∃ c', c.addRelAttr a = .ok c' ∧ Fresh c' ∧ c'.query ≠ none := by
  obtain ⟨query, values, conditions, comp, cid⟩ := c
  cases query with
  | none => exact ⟨_, rfl, ⟨fun q hq => ⟨_, _, (Option.some.inj hq).symm⟩, h.values, h.conditions⟩, nofun⟩
  | some q =>
    obtain ⟨attrs, rels, rfl⟩ := h.query q rfl
    exact ⟨_, rfl, ⟨fun q hq => ⟨_, _, (Option.some.inj hq).symm⟩, h.values, h.conditions⟩, nofun⟩

theorem Fresh.attrList (h : Fresh c) (as : List RelAttr) : ∃ c', c.attrList as = .ok c' ∧ Fresh c' := by
  induction as with
  | nil => exact ⟨c, rfl, h⟩
  | cons a as ih =>
    obtain ⟨c1, h1, hfresh⟩ := ih
    obtain ⟨c2, h2, hfresh2, -⟩ := hfresh.addRelAttr a
    rw [ParserContext.attrList, h1]
    exact ⟨c2, h2, hfresh2⟩

theorem Fresh.selectAttr (h : Fresh c) (a : SelectAttr) :
    ∃ c', c.selectAttr a = .ok c' ∧ Fresh c' ∧ c'.query ≠ none := by
  cases a with
  | star => exact h.addRelAttr _
  | attrs first rest =>
    obtain ⟨c1, h1, hfresh⟩ := h.attrList rest
    rw [ParserContext.selectAttr, h1]
    exact hfresh.addRelAttr first

theorem Fresh.relList (h : Fresh c) (hq : c.query ≠ none) (rs : List String) :
    ∃ c', c.relList rs = .ok c' ∧ Fresh c' ∧ c'.query ≠ none := by
  induction rs with
  | nil => exact ⟨c, rfl, h, hq⟩
  | cons r rs ih =>
    obtain ⟨⟨query, values, conditions, comp, cid⟩, h1, hfresh, hsome⟩ := ih
    rw [ParserContext.relList, h1]
    cases query with
    | none => exact absurd rfl hsome
    | some q =>
      obtain ⟨attrs, rels, rfl⟩ := hfresh.query q rfl
      exact ⟨_, rfl, ⟨fun q hq => ⟨_, _, (Option.some.inj hq).symm⟩, hfresh.values, hfresh.conditions⟩,
        Option.some_ne_none _⟩

end ParserContext

/-- The rows of an INSERT are the values of its query, and the conditions of a WHERE clause those of the
query (of the context for an UPDATE, which has no query). -/
def StoresStatement (outside : Nat → Value) (d : Command) : Prop :=
  ∃ c, ParserContext.new.command outside d = .ok c ∧
    match d with
    | .insert rel _ _ => c.query = some (.insert (some rel) (d.rowLiterals.map Literal.meaning))
    | .select _ _ _ w => ∃ attrs rels, c.query = some (.select attrs rels (w.map ConditionTree.meaning))
    | .delete rel w => c.query = some (.delete (some rel) (w.map ConditionTree.meaning))
    | .update _ _ _ w => c.conditions = w.map ConditionTree.meaning
    | _ => True

section Statements

variable {rel attr : String} {rels : List String} {a : SelectAttr} {w : List ConditionTree}
  {first : List Literal} {units : List (List Literal)} {v : Literal} {outside : Nat → Value}

theorem storesStatement_insert : StoresStatement outside (.insert rel first units) ↔
    ∀ v ∈ first ++ units.flatten, v.isDate = false := by
  have happend : (ParserContext.new.valueList first).valueList units.flatten =
      ParserContext.new.valueList (first ++ units.flatten) := List.foldl_append.symm
  have hquery := ParserContext.valueList_query (c := .new) (first ++ units.flatten)
  have hiff := ParserContext.valueList_values_iff (first ++ units.flatten) (c := .new)
  change (∃ c, (((ParserContext.new.valueList first).valueList units.flatten).create
    (.insert none [])).takeValues (Query.finishInsert rel) = .ok c ∧
    c.query = some (.insert (some rel) ((first ++ units.flatten).map Literal.meaning))) ↔ _
  rw [happend, ← hiff]
  obtain ⟨c, hc⟩ : ∃ c, ParserContext.new.valueList (first ++ units.flatten) = c := ⟨_, rfl⟩
  rw [hc] at hquery ⊢
  obtain ⟨query, values, conditions, comp, cid⟩ := c
  cases hquery
  constructor
  · rintro ⟨_, ⟨⟩, hvalues⟩
    exact (Query.insert.inj (Option.some.inj hvalues)).2
  · intro hvalues
    exact ⟨_, rfl, congrArg (fun vs => some (Query.insert (some rel) vs)) hvalues⟩

theorem storesStatement_select : (∀ outside, StoresStatement outside (.select a rel rels w)) ↔
    ∀ t ∈ w, ∀ l ∈ t.literals, l.isDate = false := by
  obtain ⟨c1, h1, hfresh1, hsome1⟩ := ParserContext.new_fresh.selectAttr a
  obtain ⟨c2, h2, hfresh2, hsome2⟩ := hfresh1.relList hsome1 rels
  have hdates : ParserContext.NoDates c2 := fun x hx => by
    rw [hfresh2.values] at hx
    cases hx
  rw [← ParserContext.conditionList_iff hfresh2.conditions hdates]
  refine forall_congr' fun outside => ?_
  have hquery := ParserContext.conditionList_query (c := c2) outside w
  unfold StoresStatement ParserContext.command
  simp only [h1, h2, bind, Except.bind]
  obtain ⟨c, hc⟩ : ∃ c, c2.conditionList outside w = c := ⟨_, rfl⟩
  rw [hc] at hquery ⊢
  obtain ⟨query, values, conditions, comp, cid⟩ := c
  cases query with
  | none => exact absurd hquery.symm hsome2
  | some q =>
    obtain ⟨attrs, names, rfl⟩ := hfresh2.query q hquery.symm
    constructor
    · rintro ⟨_, ⟨⟩, attrs', names', hconds⟩
      exact (Query.select.inj (Option.some.inj hconds)).2.2
    · intro hconds
      exact ⟨_, rfl, attrs, names ++ [rel],
        congrArg (fun cs => some (Query.select attrs (names ++ [rel]) cs)) hconds⟩

theorem storesStatement_delete : (∀ outside, StoresStatement outside (.delete rel w)) ↔
    ∀ t ∈ w, ∀ l ∈ t.literals, l.isDate = false := by
  rw [← ParserContext.conditionList_iff (c := .new) rfl fun _ hx => nomatch hx]
  refine forall_congr' fun outside => ?_
  have hquery := ParserContext.conditionList_query (c := .new) outside w
  change (∃ c, ((ParserContext.new.conditionList outside w).create (.delete none [])).takeConditions
    (Query.finishDelete rel) = .ok c ∧
    c.query = some (.delete (some rel) (w.map ConditionTree.meaning))) ↔ _
  obtain ⟨c, hc⟩ : ∃ c, ParserContext.new.conditionList outside w = c := ⟨_, rfl⟩
  rw [hc] at hquery ⊢
  obtain ⟨query, values, conditions, comp, cid⟩ := c
  cases hquery
  constructor
  · rintro ⟨_, ⟨⟩, hconds⟩
    exact (Query.delete.inj (Option.some.inj hconds)).2
  · intro hconds
    exact ⟨_, rfl, congrArg (fun cs => some (Query.delete (some rel) cs)) hconds⟩

theorem storesStatement_update : (∀ outside, StoresStatement outside (.update rel attr v w)) ↔
    ∀ t ∈ w, ∀ l ∈ t.literals, l.isDate = false := by
  have hdates : ParserContext.NoDates .new := fun _ hx => nomatch hx
  rw [← ParserContext.conditionList_iff (c := ParserContext.new.value v)
    ParserContext.value_conditions hdates.value]
  refine forall_congr' fun outside => ?_
  constructor
  · rintro ⟨_, ⟨⟩, hconds⟩
    exact hconds
  · intro hconds
    exact ⟨_, rfl, hconds⟩

end Statements

/-- A statement is stored as it is written, whatever lies before the array of values, if and only if no row
and no condition of it has a date. -/
theorem storesStatement_iff (d : Command) : (∀ outside, StoresStatement outside d) ↔
    (∀ v ∈ d.rowLiterals, v.isDate = false) ∧ ∀ t ∈ d.conditions, ∀ l ∈ t.literals, l.isDate = false := by
  have hrows : ∀ v ∈ ([] : List Literal), v.isDate = false := fun _ h => nomatch h
  have hconds : ∀ t ∈ ([] : List ConditionTree), ∀ l ∈ t.literals, l.isDate = false :=
    fun _ h => nomatch h
  cases d with
  | insert rel first units =>
    constructor
    · intro h
      exact ⟨storesStatement_insert.mp (h fun _ => .undefined), hconds⟩
    · intro h outside
      exact storesStatement_insert.mpr h.1
  | select a rel rels w => exact storesStatement_select.trans (and_iff_right hrows).symm
  | delete rel w => exact storesStatement_delete.trans (and_iff_right hrows).symm
  | update rel attr v w => exact storesStatement_update.trans (and_iff_right hrows).symm
  | createTable rel first rest =>
    refine iff_of_true (fun outside => ?_) ⟨hrows, hconds⟩
    obtain ⟨c, hc, -⟩ := (ParserContext.command_serves (c := .new) outside
      (d := .createTable rel first rest) (show CommandKind.Builds .createTable by decide)).ok
      fun _ h => nomatch h
    exact ⟨c, hc, trivial⟩
  | dropTable rel => exact iff_of_true (fun _ => ⟨_, rfl, trivial⟩) ⟨hrows, hconds⟩
  | createIndex index rel attr => exact iff_of_true (fun _ => ⟨_, rfl, trivial⟩) ⟨hrows, hconds⟩
  | showTables => exact iff_of_true (fun _ => ⟨_, rfl, trivial⟩) ⟨hrows, hconds⟩
  | descTable rel => exact iff_of_true (fun _ => ⟨_, rfl, trivial⟩) ⟨hrows, hconds⟩
  | dropIndex index => exact iff_of_true (fun _ => ⟨_, rfl, trivial⟩) ⟨hrows, hconds⟩
  | sync => exact iff_of_true (fun _ => ⟨_, rfl, trivial⟩) ⟨hrows, hconds⟩
  | begin_ => exact iff_of_true (fun _ => ⟨_, rfl, trivial⟩) ⟨hrows, hconds⟩
  | commit => exact iff_of_true (fun _ => ⟨_, rfl, trivial⟩) ⟨hrows, hconds⟩
  | rollback => exact iff_of_true (fun _ => ⟨_, rfl, trivial⟩) ⟨hrows, hconds⟩
  | loadData file rel => exact iff_of_true (fun _ => ⟨_, rfl, trivial⟩) ⟨hrows, hconds⟩
  | help => exact iff_of_true (fun _ => ⟨_, rfl, trivial⟩) ⟨hrows, hconds⟩
  | exit => exact iff_of_true (fun _ => ⟨_, rfl, trivial⟩) ⟨hrows, hconds⟩

/-- `INSERT INTO t VALUES ('2023-1-1');` stores no value. -/
theorem not_storesStatement_date : ¬∀ outside, StoresStatement outside
    (.insert "t" [.dateStr [39, 50, 48, 50, 51, 45, 49, 45, 49, 39]] []) := by
  rw [storesStatement_iff]
  rintro ⟨h, -⟩
  exact absurd (h _ List.mem_cons_self) (by decide)

end Idmbs
