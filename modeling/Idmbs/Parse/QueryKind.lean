import Idmbs.Parse.Actions
import Mathlib.Tactic.Common

/-!
# Idmbs.Parse.QueryKind

Which query a sequence of commands leaves in the context. An action of a command that builds a query
*serves* its kind: it succeeds while the context holds no query of another kind, and meets a query of
another class otherwise.
-/

namespace Idmbs

namespace ParserContext

variable {k : CommandKind} {c c' : ParserContext} {r : Except Fault ParserContext} {q : Query}
  {f : Query → Option Query} {outside : Nat → Value}

/-- No query yet, or one of kind `k`. -/
def Open (k : CommandKind) (c : ParserContext) : Prop := ∀ q, c.query = some q → q.kind = some k

def Holds (k : CommandKind) (c : ParserContext) : Prop := ∃ q, c.query = some q ∧ q.kind = some k

theorem Holds.isOpen (h : Holds k c) : Open k c := by
  obtain ⟨q, hq, hk⟩ := h
  intro q' hq'
  rw [hq] at hq'
  cases hq'
  exact hk

/-- The result of an action for a command of kind `k`. -/
structure Serves (k : CommandKind) (c : ParserContext) (r : Except Fault ParserContext) : Prop where
  ok : Open k c → ∃ c', r = .ok c' ∧ Holds k c'
  wrong : ¬Open k c → r = .error .wrongQuery

/-- `f` takes the queries of kind `k` and no other. -/
structure Knows (k : CommandKind) (f : Query → Option Query) : Prop where
  some_of : ∀ q, q.kind = some k → ∃ q', f q = some q' ∧ q'.kind = some k
  none_of : ∀ q, q.kind ≠ some k → f q = none

theorem Holds.cast (h : Holds k c) (hf : Knows k f) : ∃ c', c.cast f = .ok c' ∧ Holds k c' := by
  obtain ⟨q, hq, hk⟩ := h
  obtain ⟨q', hq', hk'⟩ := hf.some_of q hk
  refine ⟨{ c with query := some q' }, ?_, q', rfl, hk'⟩
  simp only [ParserContext.cast, hq, hq']

theorem serves_cast (hq : q.kind = some k) (hf : Knows k f) : Serves k c ((c.create q).cast f) := by
  constructor
  · intro hopen
    refine Holds.cast ?_ hf
    cases hc : c.query with
    | none => exact ⟨q, by simp only [create, hc], hq⟩
    | some q' => exact ⟨q', by simp only [create, hc], hopen q' hc⟩
  · intro hnot
    cases hc : c.query with
    | none =>
      refine absurd (fun q' hq' => ?_) hnot
      rw [hc] at hq'
      cases hq'
    | some q' =>
      have hne : q'.kind ≠ some k := by
        intro hk
        refine hnot fun q'' hq'' => ?_
        rw [hc] at hq''
        cases hq''
        exact hk
      simp only [create, hc, ParserContext.cast, hf.none_of q' hne]

theorem Serves.bind {g : ParserContext → Except Fault ParserContext} (h : Serves k c r)
    (hg : ∀ c', Holds k c' → ∃ c'', g c' = .ok c'' ∧ Holds k c'') : Serves k c (r >>= g) := by
  constructor
  · intro hopen
    obtain ⟨c', hr, hc'⟩ := h.ok hopen
    rw [hr]
    exact hg c' hc'
  · intro hnot
    rw [h.wrong hnot]
    rfl

theorem Serves.congr (h : Serves k c r) (hq : c'.query = c.query) : Serves k c' r := by
  have hopen : Open k c' ↔ Open k c := by rw [Open, Open, hq]
  exact ⟨fun h' => h.ok (hopen.mp h'), fun h' => h.wrong fun h'' => h' (hopen.mpr h'')⟩

/-! ## The actions that leave the query alone -/

@[simp] theorem value_query (v : Literal) : (c.value v).query = c.query := by
  cases v <;> rfl

@[simp] theorem comOp_query (op : ComOp) : (c.comOp op).query = c.query := by
  cases op <;> rfl

@[simp] theorem addCondition_query (l r : Operand) : (c.addCondition l r).query = c.query := rfl

@[simp] theorem valueList_query (vs : List Literal) : (c.valueList vs).query = c.query := by
  induction vs generalizing c with
  | nil => rfl
  | cons v vs ih =>
    exact ih.trans (value_query v)

@[simp] theorem condition_query (t : ConditionTree) : (c.condition outside t).query = c.query := by
  cases t <;> simp [condition]

@[simp] theorem conditionList_query (outside : Nat → Value) (w : List ConditionTree) :
    (c.conditionList outside w).query = c.query := by
  induction w generalizing c with
  | nil => rfl
  | cons t w ih =>
    exact ih.trans (condition_query t)

/-! ## The actions that build -/

section Methods

variable {rel index : String} {a : RelAttr} {i : AttrInfo} {conds : List Condition} {vs : List Value}

theorem knows_addRelAttr : Knows .select (Query.addRelAttr a) := by
  constructor <;> intro q hq <;> cases q <;> simp_all [Query.kind, Query.addRelAttr]

theorem knows_addRelName : Knows .select (Query.addRelName rel) := by
  constructor <;> intro q hq <;> cases q <;> simp_all [Query.kind, Query.addRelName]

theorem knows_finishSelect : Knows .select (Query.finishSelect rel conds) := by
  constructor <;> intro q hq <;> cases q <;> simp_all [Query.kind, Query.finishSelect]

theorem knows_finishInsert : Knows .insert (Query.finishInsert rel vs) := by
  constructor <;> intro q hq <;> cases q <;> simp_all [Query.kind, Query.finishInsert]

theorem knows_finishDelete : Knows .delete (Query.finishDelete rel conds) := by
  constructor <;> intro q hq <;> cases q <;> simp_all [Query.kind, Query.finishDelete]

theorem knows_addAttr : Knows .createTable (Query.addAttr i) := by
  constructor <;> intro q hq <;> cases q <;> simp_all [Query.kind, Query.addAttr]

theorem knows_finishCreateTable : Knows .createTable (Query.finishCreateTable rel) := by
  constructor <;> intro q hq <;> cases q <;> simp_all [Query.kind, Query.finishCreateTable]

theorem knows_finishDropTable : Knows .dropTable (Query.finishDropTable rel) := by
  constructor <;> intro q hq <;> cases q <;> simp_all [Query.kind, Query.finishDropTable]

theorem knows_finishCreateIndex : Knows .createIndex (Query.finishCreateIndex index a) := by
  constructor <;> intro q hq <;> cases q <;> simp_all [Query.kind, Query.finishCreateIndex]

end Methods

theorem serves_addRelAttr (a : RelAttr) : Serves .select c (c.addRelAttr a) :=
  serves_cast rfl knows_addRelAttr

theorem attrList_spec (as : List RelAttr) :
    (Open .select c → ∃ c', c.attrList as = .ok c' ∧ Open .select c') ∧
    (¬Open .select c → c.attrList as = .error .wrongQuery ∨ c.attrList as = .ok c) := by
  induction as with
  | nil => exact ⟨fun h => ⟨c, rfl, h⟩, fun _ => .inr rfl⟩
  | cons a as ih =>
    refine ⟨fun h => ?_, fun h => ?_⟩
    · obtain ⟨c1, h1, hopen⟩ := ih.1 h
      obtain ⟨c2, h2, hholds⟩ := (serves_addRelAttr a).ok hopen
      rw [attrList, h1]
      exact ⟨c2, h2, hholds.isOpen⟩
    · rw [attrList]
      rcases ih.2 h with he | he
      · rw [he]
        exact .inl rfl
      · rw [he]
        exact .inl ((serves_addRelAttr a).wrong h)

theorem serves_selectAttr (a : SelectAttr) : Serves .select c (c.selectAttr a) := by
  cases a with
  | star => exact serves_addRelAttr _
  | attrs first rest =>
    have hspec := attrList_spec (c := c) rest
    rw [selectAttr]
    constructor
    · intro hopen
      obtain ⟨c1, h1, hopen1⟩ := hspec.1 hopen
      rw [h1]
      exact (serves_addRelAttr first).ok hopen1
    · intro hnot
      rcases hspec.2 hnot with he | he
      · rw [he]
        rfl
      · rw [he]
        exact (serves_addRelAttr first).wrong hnot

theorem holds_relList (rs : List String) (h : Holds .select c) :
    ∃ c', c.relList rs = .ok c' ∧ Holds .select c' := by
  induction rs with
  | nil => exact ⟨c, rfl, h⟩
  | cons r rs ih =>
    obtain ⟨c1, h1, hholds⟩ := ih
    rw [relList, h1]
    exact hholds.cast knows_addRelName

theorem serves_attrDef (a : AttrDef) : Serves .createTable c (c.attrDef a) :=
  Serves.congr (serves_cast (q := .createTable none []) rfl knows_addAttr) rfl

theorem holds_attrDefList (as : List AttrDef) (h : Holds .createTable c) :
    ∃ c', c.attrDefList as = .ok c' ∧ Holds .createTable c' := by
  induction as generalizing c with
  | nil => exact ⟨c, rfl, h⟩
  | cons a as ih =>
    obtain ⟨c1, h1, hholds⟩ := (serves_attrDef a).ok h.isOpen
    rw [attrDefList, h1]
    exact ih hholds

theorem serves_takeConditions {f : List Condition → Query → Option Query} (hq : q.kind = some k)
    (hf : ∀ new, Knows k (f new)) : Serves k c ((c.create q).takeConditions f) :=
  (serves_cast hq (hf _)).bind fun _ hc' => ⟨_, rfl, hc'⟩

theorem serves_takeValues {f : List Value → Query → Option Query} (hq : q.kind = some k)
    (hf : ∀ new, Knows k (f new)) : Serves k c ((c.create q).takeValues f) :=
  (serves_cast hq (hf _)).bind fun _ hc' => ⟨_, rfl, hc'⟩

theorem Holds.takeConditions {f : List Condition → Query → Option Query} (h : Holds k c)
    (hf : ∀ new, Knows k (f new)) : ∃ c', c.takeConditions f = .ok c' ∧ Holds k c' := by
  obtain ⟨c', hc', hholds⟩ := h.cast (hf c.conditions)
  rw [ParserContext.takeConditions, hc']
  exact ⟨_, rfl, hholds⟩

/-! ## Commands -/

end ParserContext

/-- The commands whose actions construct a query. -/
abbrev CommandKind.Builds (k : CommandKind) : Prop :=
  k ∈ [CommandKind.select, .insert, .delete, .createTable, .dropTable, .createIndex]

namespace ParserContext

variable {c c' : ParserContext} {outside : Nat → Value} {d : Command} {ds : List Command}
  {k : CommandKind}

/-- A command without a query of its own leaves the query alone. -/
theorem command_keeps (outside : Nat → Value) (h : ¬d.kind.Builds) :
    ∃ c', c.command outside d = .ok c' ∧ c'.query = c.query := by
  cases d with
  | update rel attr v w => exact ⟨_, rfl, by simp⟩
  | showTables => exact ⟨c, rfl, rfl⟩
  | descTable rel => exact ⟨c, rfl, rfl⟩
  | dropIndex index => exact ⟨c, rfl, rfl⟩
  | sync => exact ⟨c, rfl, rfl⟩
  | begin_ => exact ⟨c, rfl, rfl⟩
  | commit => exact ⟨c, rfl, rfl⟩
  | rollback => exact ⟨c, rfl, rfl⟩
  | loadData file rel => exact ⟨c, rfl, rfl⟩
  | help => exact ⟨c, rfl, rfl⟩
  | exit => exact ⟨c, rfl, rfl⟩
  | select => exact absurd (show CommandKind.Builds .select by decide) h
  | insert => exact absurd (show CommandKind.Builds .insert by decide) h
  | delete => exact absurd (show CommandKind.Builds .delete by decide) h
  | createTable => exact absurd (show CommandKind.Builds .createTable by decide) h
  | dropTable => exact absurd (show CommandKind.Builds .dropTable by decide) h
  | createIndex => exact absurd (show CommandKind.Builds .createIndex by decide) h

/-- A command with a query of its own serves its kind. -/
theorem command_serves (outside : Nat → Value) (h : d.kind.Builds) : Serves d.kind c (c.command outside d) := by
  cases d with
  | select attr rel rels w =>
    refine Serves.bind (k := .select) (serves_selectAttr attr) fun c1 h1 => ?_
    obtain ⟨c2, h2, hholds⟩ := holds_relList rels h1
    have hholds' : Holds .select (c2.conditionList outside w) := by rwa [Holds, conditionList_query]
    rw [h2]
    exact hholds'.takeConditions fun new => knows_finishSelect
  | insert rel first units =>
    refine Serves.congr (k := .insert) (serves_takeValues rfl fun new => knows_finishInsert) ?_
    rw [valueList_query, valueList_query]
  | delete rel w =>
    refine Serves.congr (k := .delete) (serves_takeConditions rfl fun new => knows_finishDelete) ?_
    rw [conditionList_query]
  | createTable rel first rest =>
    refine Serves.bind (k := .createTable) ((serves_attrDef first).bind fun c1 h1 =>
      holds_attrDefList rest h1) fun c2 h2 => ?_
    exact h2.cast knows_finishCreateTable
  | dropTable rel => exact serves_cast (k := .dropTable) rfl knows_finishDropTable
  | createIndex index rel attr => exact serves_cast (k := .createIndex) rfl knows_finishCreateIndex
  | update => exact absurd h (show ¬CommandKind.Builds .update by decide)
  | showTables => exact absurd h (by decide)
  | descTable => exact absurd h (show ¬CommandKind.Builds .descTable by decide)
  | dropIndex => exact absurd h (show ¬CommandKind.Builds .dropIndex by decide)
  | sync => exact absurd h (by decide)
  | begin_ => exact absurd h (by decide)
  | commit => exact absurd h (by decide)
  | rollback => exact absurd h (by decide)
  | loadData => exact absurd h (show ¬CommandKind.Builds .loadData by decide)
  | help => exact absurd h (by decide)
  | exit => exact absurd h (by decide)

/-- The query of the context was constructed for some command. -/
def Constructed (c : ParserContext) : Prop := ∀ q, c.query = some q → ∃ k, q.kind = some k

theorem command_constructed (hc : Constructed c) (h : c.command outside d = .ok c') : Constructed c' := by
  by_cases hb : d.kind.Builds
  · by_cases hopen : Open d.kind c
    · obtain ⟨c1, h1, hholds⟩ := (command_serves outside hb).ok hopen
      rw [h] at h1
      cases h1
      exact fun q hq => ⟨_, hholds.isOpen q hq⟩
    · rw [(command_serves outside hb).wrong hopen] at h
      cases h
  · obtain ⟨c1, h1, hquery⟩ := command_keeps (c := c) outside hb
    rw [h] at h1
    cases h1
    rwa [Constructed, hquery]

theorem commands_constructed (hc : Constructed c) (h : c.commands outside ds = .ok c') :
    Constructed c' := by
  induction ds generalizing c with
  | nil =>
    cases h
    exact hc
  | cons d ds ih =>
    rw [commands] at h
    cases hd : c.command outside d with
    | error e =>
      rw [hd] at h
      cases h
    | ok c1 =>
      rw [hd] at h
      exact ih (command_constructed hc hd) h

/-- Commands of one kind that builds a query leave a query of that kind. -/
theorem commands_holds (outside : Nat → Value) (hk : k.Builds) (hds : ∀ d ∈ ds, d.kind = k) (hopen : Open k c) :
    ∃ c', c.commands outside ds = .ok c' ∧ Open k c' ∧ (ds ≠ [] → Holds k c') := by
  induction ds generalizing c with
  | nil => exact ⟨c, rfl, hopen, fun h => absurd rfl h⟩
  | cons d ds ih =>
    have hd := hds d List.mem_cons_self
    obtain ⟨c1, h1, hholds⟩ := (command_serves (c := c) outside (hd ▸ hk)).ok (hd ▸ hopen)
    rw [hd] at hholds
    obtain ⟨c2, h2, hopen2, hne⟩ := ih (fun e he => hds e (List.mem_cons_of_mem d he)) hholds.isOpen
    refine ⟨c2, ?_, hopen2, fun _ => ?_⟩
    · rw [commands, h1]
      exact h2
    · by_cases hnil : ds = []
      · subst hnil
        cases h2
        exact hholds
      · exact hne hnil

end ParserContext

/-- `Parse` returns, no query is used as one of another class, and when it reports success the query was
constructed for the commands of the input. -/
def YieldsRightQuery (outside : Nat → Value) (cs : List Command) : Prop :=
  ∃ success q, parse outside cs = .ok (success, q) ∧
    (success = true → ∀ c ∈ cs, q.kind = some c.kind)

/-- An accepted input yields the right query if and only if it is a command, or several of one kind, for
which the grammar constructs a query. -/
theorem yieldsRightQuery_iff (outside : Nat → Value) (cs : List Command) :
    YieldsRightQuery outside cs ↔ cs ≠ [] ∧ ∃ k, k.Builds ∧ ∀ c ∈ cs, c.kind = k := by
  constructor
  · rintro ⟨success, q, hparse, hkind⟩
    unfold parse at hparse
    split at hparse
    · cases hparse
    · rename_i ctx hctx
      split at hparse
      · cases hparse
      · rename_i q' hq'
        cases hparse
        have hnew : ParserContext.Constructed .new := fun q hq => nomatch hq
        obtain ⟨k, hk⟩ := ParserContext.commands_constructed hnew hctx q hq'
        have hall := hkind (by rw [hk]; rfl)
        refine ⟨?_, k, ?_, fun c hc => ?_⟩
        · rintro rfl
          cases hctx
          cases hq'
        · cases q <;> cases hk <;> decide
        · have := hall c hc
          rw [hk] at this
          exact (Option.some.inj this).symm
  · rintro ⟨hne, k, hk, hkind⟩
    obtain ⟨ctx, hctx, -, hholds⟩ :=
      ParserContext.commands_holds (c := .new) outside hk hkind fun q hq => nomatch hq
    obtain ⟨q, hq, hqk⟩ := hholds hne
    refine ⟨true, q, ?_, fun _ c hc => by rw [hqk, hkind c hc]⟩
    simp only [parse, hctx, hq, hqk, Option.isSome_some]

/-- `HELP;` leaves the query null. -/
theorem not_yieldsRightQuery_help : ¬YieldsRightQuery (fun _ => .undefined) [.help] := by
  rw [yieldsRightQuery_iff]
  rintro ⟨-, k, hk, hkind⟩
  rw [← hkind .help List.mem_cons_self] at hk
  exact absurd hk (by decide)

end Idmbs
