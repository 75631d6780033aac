import Idmbs.Lib.Phrases
import Idmbs.Parse.Grammar
import Idmbs.Parse.Lexer

/-!
# Idmbs.Parse.Statements

The tokens of the productions of parse/yacc_sql.y, and that they tell the derivation tree: from a text to the
statements it spells.
-/

namespace Idmbs

open Phrases

namespace Literal

/-- NUMBER, FLOAT, DATE_STR and SSS. -/
def token : Literal → Token
  | number n => .number n
  | float bits => .float bits
  | dateStr text => .dateStr text
  | sss text => .sss text

theorem token_injective {v v' : Literal} (h : v.token = v'.token) : v = v' := by
  cases v <;> cases v' <;> simp [token] at h <;> rw [h]

end Literal

def ComOp.terminal : ComOp → Terminal
  | eq => .eq
  | lt => .lt
  | gt => .gt
  | le => .le
  | ge => .ge
  | ne => .ne

theorem ComOp.terminal_injective {o o' : ComOp} (h : o.terminal = o'.terminal) : o = o' := by
  cases o <;> cases o' <;> first | rfl | cases h

/-- `ID` or `ID DOT ID`. -/
def RelAttr.tokens : RelAttr → List Token
  | ⟨none, attr⟩ => [.id attr]
  | ⟨some rel, attr⟩ => [.id rel, .terminal .dot, .id attr]

/-- `condition`. -/
def ConditionTree.tokens : ConditionTree → List Token
  | idValue id op v => [.id id, .terminal op.terminal, v.token]
  | valueValue l op r => [l.token, .terminal op.terminal, r.token]
  | idId l op r => [.id l, .terminal op.terminal, .id r]
  | valueId v op id => [v.token, .terminal op.terminal, .id id]
  | relIdValue rel id op v => [.id rel, .terminal .dot, .id id, .terminal op.terminal, v.token]
  | valueRelId v op rel id => [v.token, .terminal op.terminal, .id rel, .terminal .dot, .id id]
  | relIdRelId lrel l op rrel r =>
    [.id lrel, .terminal .dot, .id l, .terminal op.terminal, .id rrel, .terminal .dot, .id r]

/-- `type`. -/
def AttrType.terminal? : AttrType → Option Terminal
  | .ints => some .intT
  | .dates => some .dateT
  | .chars => some .stringT
  | .floats => some .floatT
  | .undefined => none

def typeTokens (type : AttrType) : List Token := (type.terminal?.map Token.terminal).toList

/-- `LBRACE number RBRACE`, when there is a length. -/
def lengthTokens : Option Int → List Token
  | none => []
  | some n => [.terminal .lbrace, .number n, .terminal .rbrace]

/-- `attr_def`. -/
def AttrDef.tokens (d : AttrDef) : List Token :=
  .id d.id :: (typeTokens d.type ++ lengthTokens d.length)

/-- `where`. -/
def whereTokens : List ConditionTree → List Token
  | [] => []
  | c :: cs => .terminal .where_ :: listed (.terminal .and_) ConditionTree.tokens (c :: cs)

/-- The values of a row and the braces around them. -/
def rowTokens (row : List Literal) : List Token :=
  .terminal .lbrace :: (listed (.terminal .comma) (fun v => [v.token]) row ++ [.terminal .rbrace])

/-- `select_attr`. -/
def SelectAttr.tokens : SelectAttr → List Token
  | star => [.terminal .star]
  | attrs first rest => listed (.terminal .comma) RelAttr.tokens (first :: rest)

namespace Command

/-- `command`, up to its SEMICOLON. -/
def body : Command → List Token
  | select attr rel rels where_ =>
    .terminal .select :: (attr.tokens ++ .terminal .from_ ::
      (listed (.terminal .comma) (fun r => [.id r]) (rel :: rels) ++ whereTokens where_))
  | insert rel first units =>
    .terminal .insert :: .terminal .into :: .id rel :: .terminal .values ::
      listed (.terminal .comma) rowTokens (first :: units)
  | update rel attr v where_ =>
    .terminal .update :: .id rel :: .terminal .set :: .id attr :: .terminal .eq :: v.token :: whereTokens where_
  | delete rel where_ => .terminal .delete :: .terminal .from_ :: .id rel :: whereTokens where_
  | createTable rel first rest =>
    .terminal .create :: .terminal .table :: .id rel :: .terminal .lbrace ::
      (listed (.terminal .comma) AttrDef.tokens (first :: rest) ++ [.terminal .rbrace])
  | dropTable rel => [.terminal .drop, .terminal .table, .id rel]
  | showTables => [.terminal .show_, .terminal .tables]
  | descTable rel => [.terminal .desc, .id rel]
  | createIndex index rel attr =>
    [.terminal .create, .terminal .index, .id index, .terminal .on, .id rel, .terminal .lbrace, .id attr,
      .terminal .rbrace]
  | dropIndex index => [.terminal .drop, .terminal .index, .id index]
  | sync => [.terminal .sync]
  | begin_ => [.terminal .trxBegin]
  | commit => [.terminal .trxCommit]
  | rollback => [.terminal .trxRollback]
  | loadData file rel =>
    [.terminal .load, .terminal .data, .terminal .infile, .sss file, .terminal .into, .terminal .table, .id rel]
  | help => [.terminal .help]
  | exit => [.terminal .exit]

def tokens (c : Command) : List Token := c.body ++ [.terminal .semicolon]

end Command

/-! ## Each phrase is readable -/

/-- The tokens with a value. -/
def Valued (t : Token) : Prop := ∀ k, t ≠ .terminal k

@[simp] theorem not_valued_terminal (k : Terminal) : ¬Valued (.terminal k) := fun h => h k rfl

@[simp] theorem valued_id (name : String) : Valued (.id name) := by simp [Valued]

@[simp] theorem valued_token (v : Literal) : Valued v.token := by
  cases v <;> simp [Valued, Literal.token]

@[simp] theorem Literal.token_ne_id (v : Literal) (name : String) : v.token ≠ .id name := by
  cases v <;> simp [token]

@[simp] theorem Literal.id_ne_token (v : Literal) (name : String) : .id name ≠ v.token :=
  (v.token_ne_id name).symm

@[simp] theorem ComOp.terminal_ne_dot (o : ComOp) : o.terminal ≠ .dot := by
  cases o <;> simp [terminal]

@[simp] theorem ComOp.dot_ne_terminal (o : ComOp) : .dot ≠ o.terminal := o.terminal_ne_dot.symm

@[simp] theorem Literal.token_inj {v v' : Literal} : v.token = v'.token ↔ v = v' :=
  ⟨Literal.token_injective, fun h => h ▸ rfl⟩

@[simp] theorem ComOp.terminal_inj {o o' : ComOp} : o.terminal = o'.terminal ↔ o = o' :=
  ⟨ComOp.terminal_injective, fun h => h ▸ rfl⟩

theorem relAttr_readable : Readable RelAttr.tokens (· = .terminal .dot) := by
  rintro ⟨rel, attr⟩ ⟨rel', attr'⟩ rest rest' hrest hrest' heq
  cases rel <;> cases rel' <;> simp [RelAttr.tokens] at heq
  · obtain ⟨rfl, rfl⟩ := heq
    exact ⟨rfl, rfl⟩
  · obtain ⟨-, rfl⟩ := heq
    simp at hrest
  · obtain ⟨-, rfl⟩ := heq
    simp at hrest'
  · obtain ⟨rfl, rfl, rfl⟩ := heq
    exact ⟨rfl, rfl⟩

theorem condition_readable : Readable ConditionTree.tokens (· = .terminal .dot) := by
  intro c c' rest rest' hrest hrest' heq
  cases c <;> cases c' <;> simp [ConditionTree.tokens] at heq
  case valueId.valueRelId => simp [heq] at hrest
  case valueRelId.valueId => simp [← heq.2.2.2] at hrest'
  all_goals
    refine ⟨?_, ?_⟩
    · simp [heq]
    · simp [heq]

theorem condition_begins (c : ConditionTree) : ∃ t l, c.tokens = t :: l ∧ Valued t := by
  cases c <;> simp [ConditionTree.tokens]

theorem where_readable :
    Readable whereTokens fun t => t = .terminal .where_ ∨ Valued t ∨ t = .terminal .and_ ∨ t = .terminal .dot := by
  intro cs cs' rest rest' hrest hrest' heq
  cases cs with
  | nil =>
    cases cs' with
    | nil => exact ⟨rfl, heq⟩
    | cons c' cs' =>
      have hhead : rest.head? = some (.terminal .where_) := by
        rw [whereTokens, List.nil_append] at heq
        simp [heq, whereTokens]
      exact absurd (.inl rfl) (hrest _ hhead)
  | cons c cs =>
    cases cs' with
    | nil =>
      have hhead : rest'.head? = some (.terminal .where_) := by
        rw [whereTokens.eq_1, List.nil_append] at heq
        simp [← heq, whereTokens]
      exact absurd (.inl rfl) (hrest' _ hhead)
    | cons c' cs' =>
      simp only [whereTokens, List.cons_append, List.cons.injEq, true_and] at heq
      exact condition_readable.listed (by simp) condition_begins (fun t ht hgo => hrest t ht (.inr hgo))
        (fun t ht hgo => hrest' t ht (.inr hgo)) heq

theorem literal_readable : Readable (fun v : Literal => [v.token]) fun _ => False := by
  intro v v' rest rest' _ _ heq
  simpa using heq

theorem id_readable : Readable (fun name : String => [Token.id name]) fun _ => False := by
  intro r r' rest rest' _ _ heq
  simpa using heq

theorem row_readable : Readable rowTokens fun _ => False := by
  intro row row' rest rest' _ _ heq
  simp only [rowTokens, List.cons_append, List.append_assoc, List.cons.injEq, true_and] at heq
  obtain ⟨rfl, hrests⟩ := literal_readable.listed (by simp) (fun v => ⟨v.token, [], rfl, valued_token v⟩)
    (by simp) (by simp) heq
  simpa using hrests

theorem selectAttr_readable : Readable SelectAttr.tokens fun t => Valued t ∨ t = .terminal .comma ∨ t = .terminal .dot := by
  have hbegins : ∀ a : RelAttr, ∃ t l, a.tokens = t :: l ∧ Valued t := by
    rintro ⟨rel, attr⟩
    cases rel <;> simp [RelAttr.tokens]
  have hstar : ∀ {first : RelAttr} {rest : List RelAttr} {r r' : List Token},
      Token.terminal .star :: r ≠ listed (.terminal .comma) RelAttr.tokens (first :: rest) ++ r' := by
    intro first rest r r' heq
    obtain ⟨t, l, htokens, ht⟩ := hbegins first
    simp only [listed, htokens, List.cons_append, List.cons.injEq] at heq
    exact ht _ heq.1.symm
  intro a a' rest rest' hrest hrest' heq
  cases a with
  | star =>
    cases a' with
    | star => simpa [SelectAttr.tokens] using heq
    | attrs first' items' => exact absurd heq hstar
  | attrs first items =>
    cases a' with
    | star => exact absurd heq.symm hstar
    | attrs first' items' =>
      change listed _ _ (first :: items) ++ rest = listed _ _ (first' :: items') ++ rest' at heq
      obtain ⟨hlists, hrests⟩ := relAttr_readable.listed (by simp) hbegins hrest hrest' heq
      cases hlists
      exact ⟨rfl, hrests⟩

theorem type_readable : Readable typeTokens fun t =>
    ∃ type : AttrType, type.terminal?.map Token.terminal = some t := by
  intro type type' rest rest' hrest hrest' heq
  cases ht : type.terminal?.map Token.terminal with
  | none =>
    cases ht' : type'.terminal?.map Token.terminal with
    | none =>
      refine ⟨?_, by simpa [typeTokens, ht, ht'] using heq⟩
      cases type <;> cases type' <;> simp [AttrType.terminal?] at ht ht' ⊢
    | some t' =>
      have hhead : rest.head? = some t' := by
        simp only [typeTokens, ht, ht', Option.toList_none, List.nil_append] at heq
        simp [heq]
      exact absurd ⟨type', ht'⟩ (hrest _ hhead)
  | some t =>
    cases ht' : type'.terminal?.map Token.terminal with
    | none =>
      have hhead : rest'.head? = some t := by
        simp only [typeTokens, ht, ht', Option.toList_none, List.nil_append] at heq
        simp [← heq]
      exact absurd ⟨type, ht⟩ (hrest' _ hhead)
    | some t' =>
      simp only [typeTokens, ht, ht', Option.toList_some, List.cons_append, List.nil_append, List.cons.injEq] at heq
      obtain ⟨rfl, hrests⟩ := heq
      rw [← ht'] at ht
      refine ⟨?_, hrests⟩
      cases type <;> cases type' <;> simp [AttrType.terminal?] at ht ⊢

theorem length_readable : Readable lengthTokens (· = .terminal .lbrace) := by
  intro len len' rest rest' hrest hrest' heq
  cases len <;> cases len' <;> simp [lengthTokens] at heq
  · exact ⟨rfl, heq⟩
  · simp [heq] at hrest
  · simp [← heq] at hrest'
  · obtain ⟨rfl, rfl⟩ := heq
    exact ⟨rfl, rfl⟩

theorem attrDef_readable : Readable AttrDef.tokens fun t =>
    t = .terminal .lbrace ∨ ∃ type : AttrType, type.terminal?.map Token.terminal = some t := by
  rintro ⟨id, type, len⟩ ⟨id', type', len'⟩ rest rest' hrest hrest' heq
  have hbehind : ∀ {len : Option Int} {r : List Token},
      (∀ t ∈ r.head?, ¬(t = .terminal .lbrace ∨ ∃ type : AttrType, type.terminal?.map Token.terminal = some t)) →
      ∀ t ∈ (lengthTokens len ++ r).head?, ¬∃ type : AttrType, type.terminal?.map Token.terminal = some t := by
    intro len r hr t ht
    cases len with
    | none => exact fun htype => hr t ht (.inr htype)
    | some n =>
      obtain rfl : Token.terminal .lbrace = t := by simpa [lengthTokens] using ht
      rintro ⟨type, htype⟩
      cases type <;> simp [AttrType.terminal?] at htype
  simp only [AttrDef.tokens, List.cons_append, List.append_assoc, List.cons.injEq, Token.id.injEq] at heq
  obtain ⟨rfl, heq⟩ := heq
  obtain ⟨rfl, hlen⟩ := type_readable (hbehind hrest) (hbehind hrest') heq
  obtain ⟨rfl, hrests⟩ := length_readable (fun t ht hgo => hrest t ht (.inl hgo))
    (fun t ht hgo => hrest' t ht (.inl hgo)) hlen
  exact ⟨rfl, hrests⟩

/-! ## Statements -/

namespace Command

/-- The first two tokens tell the production. -/
def kindOf : List Token → Option CommandKind
  | .terminal .select :: _ => some .select
  | .terminal .insert :: _ => some .insert
  | .terminal .update :: _ => some .update
  | .terminal .delete :: _ => some .delete
  | .terminal .create :: .terminal .table :: _ => some .createTable
  | .terminal .drop :: .terminal .table :: _ => some .dropTable
  | .terminal .show_ :: _ => some .showTables
  | .terminal .desc :: _ => some .descTable
  | .terminal .create :: .terminal .index :: _ => some .createIndex
  | .terminal .drop :: .terminal .index :: _ => some .dropIndex
  | .terminal .sync :: _ => some .sync
  | .terminal .trxBegin :: _ => some .begin_
  | .terminal .trxCommit :: _ => some .commit
  | .terminal .trxRollback :: _ => some .rollback
  | .terminal .load :: _ => some .loadData
  | .terminal .help :: _ => some .help
  | .terminal .exit :: _ => some .exit
  | _ => none

theorem kindOf_tokens (c : Command) (rest : List Token) : kindOf (c.tokens ++ rest) = some c.kind := by
  cases c <;> rfl

end Command

theorem where_rest {w w' : List ConditionTree} {rest rest' : List Token}
    (heq : whereTokens w ++ .terminal .semicolon :: rest = whereTokens w' ++ .terminal .semicolon :: rest') :
    w = w' ∧ rest = rest' := by
  obtain ⟨rfl, hrests⟩ := where_readable (by simp) (by simp) heq
  exact ⟨rfl, by simpa using hrests⟩

/-- The table names of a SELECT stop at its conditions or at its end. -/
theorem where_head (w : List ConditionTree) (rest : List Token) :
    ∀ t ∈ (whereTokens w ++ .terminal .semicolon :: rest).head?, ¬(Valued t ∨ t = .terminal .comma ∨ False) := by
  cases w <;> simp [whereTokens]

/-- No statement is read in two ways, and none is the beginning of another. -/
theorem command_readable : Readable Command.tokens fun _ => False := by
  intro c c' rest rest' _ _ heq
  have hkind : c.kind = c'.kind := by
    have hsome := congrArg Command.kindOf heq
    rw [Command.kindOf_tokens, Command.kindOf_tokens] at hsome
    exact Option.some.inj hsome
  cases c <;> cases c' <;> simp only [Command.kind, reduceCtorEq] at hkind <;>
    simp only [Command.tokens, Command.body, List.cons_append, List.append_assoc, List.nil_append, List.cons.injEq,
      true_and, Token.id.injEq, Token.sss.injEq, Literal.token_inj] at heq
  case select.select =>
    obtain ⟨rfl, hfrom⟩ := selectAttr_readable (by simp) (by simp) heq
    rw [List.cons.injEq] at hfrom
    obtain ⟨hrels, hwhere⟩ := id_readable.listed (by simp) (fun n => ⟨.id n, [], rfl, valued_id n⟩)
      (where_head _ _) (where_head _ _) hfrom.2
    cases hrels
    obtain ⟨rfl, hrests⟩ := where_rest hwhere
    exact ⟨rfl, hrests⟩
  case insert.insert =>
    obtain ⟨rfl, heq⟩ := heq
    have hbegins : ∀ row, ∃ t l, rowTokens row = t :: l ∧ t = .terminal .lbrace := fun row => ⟨_, _, rfl, rfl⟩
    obtain ⟨hrows, hrests⟩ := row_readable.listed (by simp) hbegins (by simp) (by simp) heq
    cases hrows
    exact ⟨rfl, by simpa using hrests⟩
  case update.update =>
    obtain ⟨rfl, rfl, rfl, heq⟩ := heq
    obtain ⟨rfl, hrests⟩ := where_rest heq
    exact ⟨rfl, hrests⟩
  case delete.delete =>
    obtain ⟨rfl, heq⟩ := heq
    obtain ⟨rfl, hrests⟩ := where_rest heq
    exact ⟨rfl, hrests⟩
  case createTable.createTable =>
    obtain ⟨rfl, heq⟩ := heq
    have hclose : ∀ r : List Token, ∀ t ∈ (Token.terminal .rbrace :: Token.terminal .semicolon :: r).head?,
        ¬(Valued t ∨ t = .terminal .comma ∨ t = .terminal .lbrace ∨
          ∃ type : AttrType, type.terminal?.map Token.terminal = some t) := by
      intro r t ht
      obtain rfl : Token.terminal .rbrace = t := by simpa using ht
      have htype : ∀ type : AttrType, type.terminal?.map Token.terminal ≠ some (.terminal .rbrace) := by
        intro type
        cases type <;> simp [AttrType.terminal?]
      simpa using htype
    have hcomma : ¬(Token.terminal .comma = .terminal .lbrace ∨
        ∃ type : AttrType, type.terminal?.map Token.terminal = some (.terminal .comma)) := by
      rintro (h | ⟨type, htype⟩)
      · cases h
      · cases type <;> simp [AttrType.terminal?] at htype
    obtain ⟨hdefs, hrests⟩ := attrDef_readable.listed hcomma (fun d => ⟨_, _, rfl, valued_id d.id⟩)
      (hclose _) (hclose _) heq
    cases hdefs
    exact ⟨rfl, by simpa using hrests⟩
  all_goals
    refine ⟨?_, ?_⟩
    · simp [heq]
    · simp [heq]

/-! ## From texts to statements -/

namespace Lexer

variable {atof : List UInt8 → UInt32} {text : List UInt8} {cs cs' : List Command}

/-- The trees derive the tokens that the scanner returns on the text. -/
def Derives (atof : List UInt8 → UInt32) (text : List UInt8) (cs : List Command) : Prop :=
  lex atof text = cs.flatMap Command.tokens

theorem Derives.unique (h : Derives atof text cs) (h' : Derives atof text cs') : cs = cs' :=
  command_readable.flatMap_injective (fun c => by simp [Command.tokens]) (h.symm.trans h')

end Lexer

end Idmbs
