import Idmbs.Parse.Grammar

/-!
# Idmbs.Parse.Actions

The semantic actions of parse/yacc_sql.y, run in reduction order over a derivation tree, `SqlParse` and
`Parse`. The arrays of the context are lists as long as what was stored in them.
-/

namespace Idmbs

/-- The classes derived from `Query` with what they store. -/
inductive Query where
  | select (attrs : List RelAttr) (relNames : List String) (conditions : List Condition)
  | insert (relName : Option String) (values : List Value)
  | delete (relName : Option String) (conditions : List Condition)
  | createTable (relName : Option String) (attrs : List AttrInfo)
  | dropTable (relName : Option String)
  | createIndex (indexName : Option String) (attr : Option RelAttr)
  | error (message : String)
  deriving DecidableEq, Repr

/-- The command that the query was constructed for (`GetScf`). -/
def Query.kind : Query → Option CommandKind
  | select .. => some .select
  | insert .. => some .insert
  | delete .. => some .delete
  | createTable .. => some .createTable
  | dropTable .. => some .dropTable
  | createIndex .. => some .createIndex
  | error .. => none

namespace Query

/-! What the actions do with a query after the `static_cast`; `none` for a query of another class. -/

def addRelAttr (a : RelAttr) : Query → Option Query
  | select attrs relNames conditions => some (select (attrs ++ [a]) relNames conditions)
  | _ => none

def addRelName (rel : String) : Query → Option Query
  | select attrs relNames conditions => some (select attrs (relNames ++ [rel]) conditions)
  | _ => none

def finishSelect (rel : String) (new : List Condition) : Query → Option Query
  | select attrs relNames conditions => some (select attrs (relNames ++ [rel]) (conditions ++ new))
  | _ => none

def finishInsert (rel : String) (new : List Value) : Query → Option Query
  | insert _ values => some (insert (some rel) (values ++ new))
  | _ => none

def finishDelete (rel : String) (new : List Condition) : Query → Option Query
  | delete _ conditions => some (delete (some rel) (conditions ++ new))
  | _ => none

def addAttr (a : AttrInfo) : Query → Option Query
  | createTable rel attrs => some (createTable rel (attrs ++ [a]))
  | _ => none

def finishCreateTable (rel : String) : Query → Option Query
  | createTable _ attrs => some (createTable (some rel) attrs)
  | _ => none

def finishDropTable (rel : String) : Query → Option Query
  | dropTable _ => some (dropTable (some rel))
  | _ => none

def finishCreateIndex (index : String) (attr : RelAttr) : Query → Option Query
  | createIndex .. => some (createIndex (some index) (some attr))
  | _ => none

end Query

/-- A null `Query` is used, or a `static_cast` meets a query of another class. -/
inductive Fault where
  | nullQuery | wrongQuery
  deriving DecidableEq, Repr

structure ParserContext where
  query : Option Query
  values : List Value
  conditions : List Condition
  comp : CompOp
  id : String
  deriving DecidableEq, Repr

namespace ParserContext

def new : ParserContext := ⟨none, [], [], .equalTo, ""⟩

/-- `if (CONTEXT->query == nullptr) CONTEXT->query = new …`. -/
def create (c : ParserContext) (q : Query) : ParserContext :=
  match c.query with
  | none => { c with query := some q }
  | some _ => c

/-- A `static_cast` and what is done with the query; `f` knows the queries of its class. -/
def cast (c : ParserContext) (f : Query → Option Query) : Except Fault ParserContext :=
  match c.query with
  | none => .error .nullQuery
  | some q =>
    match f q with
    | none => .error .wrongQuery
    | some q => .ok { c with query := some q }

/-- `values[value_length - back]`; `outside` is what lies before the array. -/
def valueAt (c : ParserContext) (outside : Nat → Value) (back : Nat) : Value :=
  if back ≤ c.values.length then c.values.getD (c.values.length - back) .undefined
  else outside (back - c.values.length)

/-- The action of `value`; that of DATE_STR is commented out. -/
def value (c : ParserContext) : Literal → ParserContext
  | .number n => { c with values := c.values ++ [.ints n] }
  | .dateStr _ => c
  | .float bits => { c with values := c.values ++ [.floats bits] }
  | .sss text => { c with values := c.values ++ [.chars (unquoted text)] }

def valueList (c : ParserContext) (vs : List Literal) : ParserContext := vs.foldl value c

def comOp (c : ParserContext) : ComOp → ParserContext
  | .eq => { c with comp := .equalTo }
  | .lt => { c with comp := .lessThan }
  | .gt => { c with comp := .greatThan }
  | .le => { c with comp := .lessEqual }
  | .ge => { c with comp := .greatEqual }
  | .ne => { c with comp := .notEqual }

def addCondition (c : ParserContext) (left right : Operand) : ParserContext :=
  { c with conditions := c.conditions ++ [⟨c.comp, left, right⟩] }

def condition (outside : Nat → Value) (c : ParserContext) : ConditionTree → ParserContext
  | .idValue id op v =>
    let c := (c.comOp op).value v
    c.addCondition (.attr ⟨none, id⟩) (.value (c.valueAt outside 1))
  | .valueValue l op r =>
    let c := ((c.value l).comOp op).value r
    c.addCondition (.value (c.valueAt outside 2)) (.value (c.valueAt outside 1))
  | .idId l op r => (c.comOp op).addCondition (.attr ⟨none, l⟩) (.attr ⟨none, r⟩)
  | .valueId v op id =>
    let c := (c.value v).comOp op
    c.addCondition (.value (c.valueAt outside 1)) (.attr ⟨none, id⟩)
  | .relIdValue rel id op v =>
    let c := (c.comOp op).value v
    c.addCondition (.attr ⟨some rel, id⟩) (.value (c.valueAt outside 1))
  | .valueRelId v op rel id =>
    let c := (c.value v).comOp op
    c.addCondition (.value (c.valueAt outside 1)) (.attr ⟨some rel, id⟩)
  | .relIdRelId lrel l op rrel r =>
    (c.comOp op).addCondition (.attr ⟨some lrel, l⟩) (.attr ⟨some rrel, r⟩)

/-- `where` and `condition_list`. -/
def conditionList (outside : Nat → Value) (c : ParserContext) (w : List ConditionTree) : ParserContext :=
  w.foldl (condition outside) c

def addRelAttr (c : ParserContext) (a : RelAttr) : Except Fault ParserContext :=
  (c.create (.select [] [] [])).cast (Query.addRelAttr a)

/-- `attr_list`: the innermost list is reduced first. -/
def attrList (c : ParserContext) : List RelAttr → Except Fault ParserContext
  | [] => .ok c
  | a :: as => do
    let c ← attrList c as
    c.addRelAttr a

def selectAttr (c : ParserContext) : SelectAttr → Except Fault ParserContext
  | .star => c.addRelAttr ⟨none, "*"⟩
  | .attrs first rest => do
    let c ← attrList c rest
    c.addRelAttr first

def addRelName (c : ParserContext) (rel : String) : Except Fault ParserContext :=
  c.cast (Query.addRelName rel)

def relList (c : ParserContext) : List String → Except Fault ParserContext
  | [] => .ok c
  | r :: rs => do
    let c ← relList c rs
    c.addRelName r

def maxIdLength : Nat := 20

/-- `attr_def`; `ID_get` cuts the name to the array `id`. -/
def attrDef (c : ParserContext) (a : AttrDef) : Except Fault ParserContext :=
  let c := { c with id := String.ofList (a.id.toList.take (maxIdLength - 1)) }
  (c.create (.createTable none [])).cast (Query.addAttr ⟨some c.id, a.type, a.length.getD 4⟩)

/-- `attr_def_list`: an `attr_def` is reduced before the list after it. -/
def attrDefList (c : ParserContext) : List AttrDef → Except Fault ParserContext
  | [] => .ok c
  | a :: as => do
    let c ← c.attrDef a
    attrDefList c as

/-- `AddConditions` of the conditions in the context. -/
def takeConditions (c : ParserContext) (f : List Condition → Query → Option Query) :
    Except Fault ParserContext := do
  let c ← c.cast (f c.conditions)
  .ok { c with conditions := [] }

/-- `AddValues` of the values in the context. -/
def takeValues (c : ParserContext) (f : List Value → Query → Option Query) :
    Except Fault ParserContext := do
  let c ← c.cast (f c.values)
  .ok { c with values := [] }

def command (outside : Nat → Value) (c : ParserContext) : Command → Except Fault ParserContext
  | .select attr rel rels w => do
    let c ← c.selectAttr attr
    let c ← c.relList rels
    (c.conditionList outside w).takeConditions (Query.finishSelect rel)
  | .insert rel first units =>
    (((c.valueList first).valueList units.flatten).create (.insert none [])).takeValues
      (Query.finishInsert rel)
  | .update _ _ v w => .ok ((c.value v).conditionList outside w)
  | .delete rel w =>
    ((c.conditionList outside w).create (.delete none [])).takeConditions (Query.finishDelete rel)
  | .createTable rel first rest => do
    let c ← c.attrDefList (first :: rest)
    c.cast (Query.finishCreateTable rel)
  | .dropTable rel => (c.create (.dropTable none)).cast (Query.finishDropTable rel)
  | .createIndex index rel attr =>
    (c.create (.createIndex none none)).cast (Query.finishCreateIndex index ⟨some rel, attr⟩)
  | _ => .ok c

def commands (outside : Nat → Value) : ParserContext → List Command → Except Fault ParserContext
  | c, [] => .ok c
  | c, d :: ds => do
    let c ← c.command outside d
    commands outside c ds

end ParserContext

/-- `Parse` of an input that the grammar accepts: whether it reports success, and the query. -/
def parse (outside : Nat → Value) (cs : List Command) : Except Fault (Bool × Query) :=
  match ParserContext.new.commands outside cs with
  | .error e => .error e
  | .ok c =>
    match c.query with
    | none => .error .nullQuery
    | some q => .ok (q.kind.isSome, q)

end Idmbs
