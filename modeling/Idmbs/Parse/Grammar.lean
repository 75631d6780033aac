import Idmbs.Parse.ParseDefs
import Idmbs.Storage.TableMeta

/-!
# Idmbs.Parse.Grammar

Derivation trees of the grammar of parse/yacc_sql.y. A right-recursive list of the grammar is a list, a
literal is the token with what the lexer stored for it.
-/

namespace Idmbs

/-- NUMBER, FLOAT, DATE_STR and SSS; the last two keep their quotes. -/
inductive Literal where
  | number (n : Int)
  | float (bits : UInt32)
  | dateStr (text : List UInt8)
  | sss (text : List UInt8)
  deriving DecidableEq, Repr

/-- `SubStr(s, 1, strlen(s) - 2)`: the text between the quotes. -/
def unquoted (text : List UInt8) : List UInt8 := (text.drop 1).take (text.length - 2)

def Literal.meaning : Literal → Value
  | number n => .ints n
  | float bits => .floats bits
  | dateStr text => .dates (unquoted text)
  | sss text => .chars (unquoted text)

inductive ComOp where
  | eq | lt | gt | le | ge | ne
  deriving DecidableEq, Repr

def ComOp.meaning : ComOp → CompOp
  | eq => .equalTo
  | lt => .lessThan
  | gt => .greatThan
  | le => .lessEqual
  | ge => .greatEqual
  | ne => .notEqual

/-- The seven forms of `condition`. -/
inductive ConditionTree where
  | idValue (id : String) (op : ComOp) (v : Literal)
  | valueValue (l : Literal) (op : ComOp) (r : Literal)
  | idId (l : String) (op : ComOp) (r : String)
  | valueId (v : Literal) (op : ComOp) (id : String)
  | relIdValue (rel id : String) (op : ComOp) (v : Literal)
  | valueRelId (v : Literal) (op : ComOp) (rel id : String)
  | relIdRelId (lrel l : String) (op : ComOp) (rrel r : String)
  deriving DecidableEq, Repr

def ConditionTree.meaning : ConditionTree → Condition
  | idValue id op v => ⟨op.meaning, .attr ⟨none, id⟩, .value v.meaning⟩
  | valueValue l op r => ⟨op.meaning, .value l.meaning, .value r.meaning⟩
  | idId l op r => ⟨op.meaning, .attr ⟨none, l⟩, .attr ⟨none, r⟩⟩
  | valueId v op id => ⟨op.meaning, .value v.meaning, .attr ⟨none, id⟩⟩
  | relIdValue rel id op v => ⟨op.meaning, .attr ⟨some rel, id⟩, .value v.meaning⟩
  | valueRelId v op rel id => ⟨op.meaning, .value v.meaning, .attr ⟨some rel, id⟩⟩
  | relIdRelId lrel l op rrel r => ⟨op.meaning, .attr ⟨some lrel, l⟩, .attr ⟨some rrel, r⟩⟩

def ConditionTree.literals : ConditionTree → List Literal
  | idValue _ _ v => [v]
  | valueValue l _ r => [l, r]
  | idId _ _ _ => []
  | valueId v _ _ => [v]
  | relIdValue _ _ _ v => [v]
  | valueRelId v _ _ _ => [v]
  | relIdRelId _ _ _ _ _ => []

/-- `attr_def`, with the length when there is one. -/
structure AttrDef where
  id : String
  type : AttrType
  length : Option Int
  deriving DecidableEq, Repr

inductive SelectAttr where
  | star
  | attrs (first : RelAttr) (rest : List RelAttr)
  deriving DecidableEq, Repr

inductive Command where
  | select (attr : SelectAttr) (rel : String) (rels : List String) (where_ : List ConditionTree)
  | insert (rel : String) (first : List Literal) (units : List (List Literal))
  | update (rel attr : String) (v : Literal) (where_ : List ConditionTree)
  | delete (rel : String) (where_ : List ConditionTree)
  | createTable (rel : String) (first : AttrDef) (rest : List AttrDef)
  | dropTable (rel : String)
  | showTables
  | descTable (rel : String)
  | createIndex (index rel attr : String)
  | dropIndex (index : String)
  | sync
  | begin_
  | commit
  | rollback
  | loadData (file : List UInt8) (rel : String)
  | help
  | exit
  deriving DecidableEq, Repr

inductive CommandKind where
  | select | insert | update | delete | createTable | dropTable | showTables | descTable | createIndex
  | dropIndex | sync | begin_ | commit | rollback | loadData | help | exit
  deriving DecidableEq, Repr

namespace Command

def kind : Command → CommandKind
  | select .. => .select
  | insert .. => .insert
  | update .. => .update
  | delete .. => .delete
  | createTable .. => .createTable
  | dropTable .. => .dropTable
  | showTables => .showTables
  | descTable .. => .descTable
  | createIndex .. => .createIndex
  | dropIndex .. => .dropIndex
  | sync => .sync
  | begin_ => .begin_
  | commit => .commit
  | rollback => .rollback
  | loadData .. => .loadData
  | help => .help
  | exit => .exit

def conditions : Command → List ConditionTree
  | select _ _ _ w => w
  | update _ _ _ w => w
  | delete _ w => w
  | _ => []

/-- The literals of the rows of an INSERT. -/
def rowLiterals : Command → List Literal
  | insert _ first units => first ++ units.flatten
  | _ => []

end Command

end Idmbs
