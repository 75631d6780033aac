import Idmbs.Lib.LongestMatch
import Mathlib.Data.List.TakeDrop
import Mathlib.Data.List.TakeWhile

/-!
# Idmbs.Parse.Lexer

The scanner of parse/lex_sql.l: its rules in their order, the tokens they return and `scan_string` over a
whole text. A text is a list of bytes without NUL.
-/

namespace Idmbs

open LongestMatch

inductive Terminal where
  | semicolon | dot | star | exit | help | desc | create | drop | table | tables | index | on | show_ | sync | select
  | from_ | where_ | and_ | insert | into | values | delete | update | dateT | set | trxBegin | trxCommit
  | trxRollback | intT | stringT | floatT | load | data | infile | lbrace | rbrace | comma | eq | le | ne | lt | ge | gt
  deriving DecidableEq, Repr

/-- A token with what the action stores in `yylval`; `other` is `return yytext[0]`. -/
inductive Token where
  | terminal (t : Terminal)
  | number (n : Int)
  | float (bits : UInt32)
  | id (name : String)
  | dateStr (text : List UInt8)
  | sss (text : List UInt8)
  | other (c : UInt8)
  deriving DecidableEq, Repr

namespace Lexer

def bytes (s : String) : List UInt8 := s.toList.map fun c => c.toNat.toUInt8

def isDigit (c : UInt8) : Bool := decide (48 ≤ c.toNat ∧ c.toNat ≤ 57)

/-- `[A-Za-z_]`. -/
def isLetter (c : UInt8) : Bool := decide (65 ≤ c.toNat ∧ c.toNat ≤ 90) || decide (97 ≤ c.toNat ∧ c.toNat ≤ 122) || c == 95

/-- `WHITE_SAPCE`: blank, `\t`, `\b` and `\f`. -/
def isWhite (c : UInt8) : Bool := [32, 9, 8, 12].contains c

def isQuote (c : UInt8) : Bool := c == 39 || c == 34

def lower (c : UInt8) : UInt8 := if 65 ≤ c.toNat ∧ c.toNat ≤ 90 then c + 32 else c

/-- A fixed text, under `%option case-insensitive`. -/
def isText (s : String) (w : List UInt8) : Bool := w.map lower == (bytes s).map lower

def isDigits (w : List UInt8) : Bool := !w.isEmpty && w.all isDigit

/-- The text behind `[\-]?`. -/
def unsigned : List UInt8 → List UInt8
  | 45 :: w => w
  | w => w

/-- `[\-]?{DIGIT}+`. -/
def isNumber (w : List UInt8) : Bool := isDigits (unsigned w)

/-- `[\-]?{DIGIT}+{DOT}{DIGIT}+`. -/
def isFloat (w : List UInt8) : Bool :=
  match (unsigned w).span isDigit with
  | (whole, 46 :: fraction) => !whole.isEmpty && isDigits fraction
  | _ => false

/-- `[A-Za-z_]+[A-Za-z0-9_]*`. -/
def isId : List UInt8 → Bool
  | [] => false
  | c :: w => isLetter c && w.all fun c => isLetter c || isDigit c

/-- `(0?[0-9])|([0-9]{2})`. -/
def isDayOrMonth (w : List UInt8) : Bool := decide (w.length = 1 ∨ w.length = 2) && w.all isDigit

/-- A year of four digits, a month and a day, with `-` between them. -/
def isDate (w : List UInt8) : Bool :=
  match w.span isDigit with
  | (year, 45 :: w) =>
    match w.span isDigit with
    | (month, 45 :: day) => decide (year.length = 4) && isDayOrMonth month && isDayOrMonth day
    | _ => false
  | _ => false

/-- A date between two quotes, which may be different ones. -/
def isDateStr : List UInt8 → Bool
  | [] => false
  | c :: w => isQuote c && (match w.getLast? with
    | none => false
    | some d => isQuote d && isDate w.dropLast)

/-- The quote, anything but the quote, and the quote. -/
def isString (quote : UInt8) : List UInt8 → Bool
  | [] => false
  | c :: w => c == quote && w.getLast? == some quote && !w.dropLast.contains quote

/-- The rules of the scanner; `fixed` are those whose pattern is a text. -/
inductive Rule where
  | white | newline | number | float | fixed (t : Terminal) | id | dateStr | sss | any
  deriving DecidableEq, Repr

/-- The texts from `";"` to `INFILE`. -/
def words : List (Terminal × String) :=
  [(.semicolon, ";"), (.dot, "."), (.star, "*"), (.exit, "EXIT"), (.help, "HELP"), (.desc, "DESC"),
    (.create, "CREATE"), (.drop, "DROP"), (.table, "TABLE"), (.tables, "TABLES"), (.index, "INDEX"), (.on, "ON"),
    (.show_, "SHOW"), (.sync, "SYNC"), (.select, "SELECT"), (.from_, "FROM"), (.where_, "WHERE"), (.and_, "AND"),
    (.insert, "INSERT"), (.into, "INTO"), (.values, "VALUES"), (.delete, "DELETE"), (.update, "UPDATE"),
    (.dateT, "DATE"), (.set, "SET"), (.trxBegin, "BEGIN"), (.trxCommit, "COMMIT"), (.trxRollback, "ROLLBACK"),
    (.intT, "INT"), (.stringT, "CHAR"), (.floatT, "FLOAT"), (.load, "LOAD"), (.data, "DATA"), (.infile, "INFILE")]

/-- The texts behind `{ID}`. -/
def marks : List (Terminal × String) :=
  [(.lbrace, "("), (.rbrace, ")"), (.comma, ","), (.eq, "="), (.le, "<="), (.ne, "<>"), (.ne, "!="), (.lt, "<"),
    (.ge, ">="), (.gt, ">")]

def fixedRules (texts : List (Terminal × String)) : Rules UInt8 Rule :=
  texts.map fun t => (.fixed t.1, isText t.2)

/-- The rules in the order of the file. -/
def rules : Rules UInt8 Rule :=
  (.white, fun w => decide (w.length = 1) && w.all isWhite) :: (.newline, fun w => w == [10]) ::
    (.number, isNumber) :: (.float, isFloat) :: (fixedRules words ++ (.id, isId) :: (fixedRules marks ++
      [(.dateStr, isDateStr), (.sss, isString 34), (.sss, isString 39), (.any, fun w => decide (w.length = 1) &&
        w.all fun c => c != 10)]))

def digits (w : List UInt8) : Int := w.foldl (fun n c => 10 * n + (c.toNat - 48 : Int)) 0

/-- `atoi` of a number that an `int` holds; for others the C library leaves it open. -/
def atoi : List UInt8 → Int
  | 45 :: w => -digits w
  | w => digits w

/-- `strdup(yytext)`. -/
def name (w : List UInt8) : String := String.ofList (w.map fun c => Char.ofNat c.toNat)

/-- The action of a rule; `atof` is the C function, with its result as a `float`. -/
def action (atof : List UInt8 → UInt32) (w : List UInt8) : Rule → Option Token
  | .white => none
  | .newline => none
  | .number => some (.number (atoi w))
  | .float => some (.float (atof w))
  | .fixed t => some (.terminal t)
  | .id => some (.id (name w))
  | .dateStr => some (.dateStr w)
  | .sss => some (.sss w)
  | .any => some (.other (w.headD 0))

/-- The tokens that `yylex` returns one after the other on a text. -/
def lex (atof : List UInt8 → UInt32) (text : List UInt8) : List Token :=
  (scan rules text).filterMap fun l => l.1.bind (action atof l.2)

/-! ## Where a lexeme ends -/

/-- The white space, the end of a line and the marks that are no part of a longer lexeme. -/
def isDelim (c : UInt8) : Bool := [32, 9, 8, 12, 10, 40, 41, 44, 59, 42].contains c

/-- A lexeme that begins with a quote has the quote once more. -/
def isClosed : List UInt8 → Bool
  | [] => true
  | q :: w => !isQuote q || w.contains q

variable {w u : List UInt8} {c d : UInt8}

theorem delim_facts (h : isDelim c = true) :
    lower c = c ∧ isDigit c = false ∧ isLetter c = false ∧ isQuote c = false := by
  have hall : ([32, 9, 8, 12, 10, 40, 41, 44, 59, 42] : List UInt8).all (fun c => decide (
      lower c = c ∧ isDigit c = false ∧ isLetter c = false ∧ isQuote c = false)) = true := by
    decide
  exact of_decide_eq_true (List.all_eq_true.mp hall c (List.contains_iff_mem.mp h))

/-- No byte is a delimiter. -/
def Plain (w : List UInt8) : Prop := ∀ c ∈ w, isDelim c = false

theorem plain_of_all {p : UInt8 → Bool} (hp : ∀ c, p c = true → isDelim c = false) (h : w.all p = true) : Plain w :=
  fun c hc => hp c (List.all_eq_true.mp h c hc)

theorem not_delim_of_digit (h : isDigit c = true) : isDelim c = false := by
  by_contra hd
  have := (delim_facts (by simpa using hd)).2.1
  simp [h] at this

theorem not_delim_of_letter (h : isLetter c = true) : isDelim c = false := by
  by_contra hd
  have := (delim_facts (by simpa using hd)).2.2.1
  simp [h] at this

theorem not_delim_of_quote (h : isQuote c = true) : isDelim c = false := by
  by_contra hd
  have := (delim_facts (by simpa using hd)).2.2.2
  simp [h] at this

theorem plain_append : Plain (u ++ w) ↔ Plain u ∧ Plain w := by simp [Plain, or_imp, forall_and]

theorem plain_cons : Plain (c :: w) ↔ isDelim c = false ∧ Plain w := by simp [Plain]

theorem plain_digits (h : w.all isDigit = true) : Plain w := plain_of_all (fun _ => not_delim_of_digit) h

theorem plain_takeWhile : Plain (w.takeWhile isDigit) :=
  fun _ hc => not_delim_of_digit (List.mem_takeWhile_imp hc)

/-- A word is plain if its digits at the front are followed by a plain rest. -/
theorem plain_span (h : Plain (w.dropWhile isDigit)) : Plain w := by
  rw [← List.takeWhile_append_dropWhile (p := isDigit) (l := w)]
  exact plain_append.mpr ⟨plain_takeWhile, h⟩

theorem plain_unsigned (h : Plain (unsigned w)) : Plain w := by
  unfold unsigned at h
  split at h
  · exact plain_cons.mpr ⟨by decide, h⟩
  · exact h

theorem isNumber_plain (h : isNumber w = true) : Plain w := by
  simp only [isNumber, isDigits, Bool.and_eq_true] at h
  exact plain_unsigned (plain_digits h.2)

theorem isFloat_plain (h : isFloat w = true) : Plain w := by
  apply plain_unsigned
  apply plain_span
  rw [isFloat, List.span_eq_takeWhile_dropWhile] at h
  split at h
  · rename_i whole fraction heq
    rw [(Prod.mk.inj heq).2]
    simp only [isDigits, Bool.and_eq_true] at h
    exact plain_cons.mpr ⟨by decide, plain_digits h.2.2⟩
  · cases h

theorem isId_plain (h : isId w = true) : Plain w := by
  cases w with
  | nil => cases h
  | cons c w =>
    rw [isId, Bool.and_eq_true] at h
    refine plain_cons.mpr ⟨not_delim_of_letter h.1, plain_of_all (fun d hd => ?_) h.2⟩
    rcases Bool.or_eq_true _ _ ▸ hd with hd | hd
    · exact not_delim_of_letter hd
    · exact not_delim_of_digit hd

theorem isDate_plain (h : isDate w = true) : Plain w := by
  apply plain_span
  rw [isDate, List.span_eq_takeWhile_dropWhile] at h
  split at h
  · rename_i year rest heq
    rw [(Prod.mk.inj heq).2]
    refine plain_cons.mpr ⟨by decide, plain_span ?_⟩
    rw [List.span_eq_takeWhile_dropWhile] at h
    split at h
    · rename_i month day heq'
      rw [(Prod.mk.inj heq').2]
      simp only [isDayOrMonth, Bool.and_eq_true] at h
      exact plain_cons.mpr ⟨by decide, plain_digits h.2.2⟩
    · cases h
  · cases h

theorem isDateStr_plain (h : isDateStr w = true) : Plain w := by
  cases w with
  | nil => cases h
  | cons c w =>
    rw [isDateStr, Bool.and_eq_true] at h
    obtain ⟨hc, h⟩ := h
    split at h
    · cases h
    · rename_i d hlast
      rw [Bool.and_eq_true] at h
      obtain ⟨l, rfl⟩ := List.getLast?_eq_some_iff.mp hlast
      rw [List.dropLast_concat] at h
      refine plain_cons.mpr ⟨not_delim_of_quote hc, plain_append.mpr ⟨isDate_plain h.2, ?_⟩⟩
      exact plain_cons.mpr ⟨not_delim_of_quote h.1, fun _ hnil => by cases hnil⟩

/-- A fixed text of more than one byte has no delimiter in it. -/
theorem isText_plain {t : Terminal × String} (ht : t ∈ words ++ marks) (h : isText t.2 w = true) :
    w.length < 2 ∨ Plain w := by
  have htexts : (words ++ marks).all (fun t => decide ((bytes t.2).length < 2) ||
      ((bytes t.2).map lower).all fun c => !isDelim c) = true := by
    decide
  have heq : w.map lower = (bytes t.2).map lower := by simpa [isText] using h
  have htext := List.all_eq_true.mp htexts t ht
  rw [Bool.or_eq_true, decide_eq_true_eq, List.all_eq_true] at htext
  rcases htext with hshort | hplain
  · have hlen := congrArg List.length heq
    rw [List.length_map, List.length_map] at hlen
    exact .inl (by omega)
  · refine .inr fun c hc => ?_
    by_contra hd
    have hd' : isDelim c = true := by simpa using hd
    have hmem := List.mem_map_of_mem (f := lower) hc
    rw [(delim_facts hd').1, heq] at hmem
    simpa [hd'] using hplain c hmem

/-- Only the rules for strings match a longer word with a delimiter. -/
theorem string_of_classify {r : Rule} (h : classify rules w = some r) (hlen : 2 ≤ w.length) (hplain : ¬Plain w) :
    ∃ q, isQuote q = true ∧ isString q w = true := by
  obtain ⟨p, hmem, hp⟩ := classify_mem h
  have hfixed : ∀ texts, (r, p) ∈ fixedRules texts → texts ⊆ words ++ marks → False := by
    intro texts hin hsub
    obtain ⟨t, ht, heq⟩ := List.mem_map.mp hin
    cases heq
    rcases isText_plain (hsub ht) hp with hshort | hpl
    · omega
    · exact hplain hpl
  simp only [rules, List.mem_cons, List.mem_append, List.not_mem_nil, or_false, Prod.mk.injEq] at hmem
  rcases hmem with ⟨-, rfl⟩ | ⟨-, rfl⟩ | ⟨-, rfl⟩ | ⟨-, rfl⟩ | hin | ⟨-, rfl⟩ | hin | ⟨-, rfl⟩ | ⟨-, rfl⟩ | ⟨-, rfl⟩ |
    ⟨-, rfl⟩
  · simp at hp; omega
  · simp at hp; simp [hp] at hlen
  · exact absurd (isNumber_plain hp) hplain
  · exact absurd (isFloat_plain hp) hplain
  · exact (hfixed words hin (List.subset_append_left _ _)).elim
  · exact absurd (isId_plain hp) hplain
  · exact (hfixed marks hin (List.subset_append_right _ _)).elim
  · exact absurd (isDateStr_plain hp) hplain
  · exact ⟨34, by decide, hp⟩
  · exact ⟨39, by decide, hp⟩
  · simp at hp; omega

/-- A closed lexeme ends before a delimiter, and a delimiter before anything. -/
theorem ends_of_closed (hw : w ≠ []) (hclosed : isClosed w = true) (hd : isDelim c = true ∨ ¬Plain w) : Ends rules w c := by
  intro u
  by_contra hne
  obtain ⟨r, hr⟩ := Option.ne_none_iff_exists'.mp hne
  have hlen : 2 ≤ (w ++ c :: u).length := by
    have := List.length_pos_of_ne_nil hw
    simp
    omega
  have hplain : ¬Plain (w ++ c :: u) := by
    rw [plain_append, plain_cons]
    rcases hd with hd | hd
    · simp [hd]
    · exact fun hpl => hd hpl.1
  obtain ⟨q, hq, hstring⟩ := string_of_classify hr hlen hplain
  obtain ⟨a, w, rfl⟩ := List.exists_cons_of_ne_nil hw
  simp only [List.cons_append, isString, Bool.and_eq_true, beq_iff_eq, Bool.not_eq_true'] at hstring
  obtain ⟨⟨rfl, -⟩, hinner⟩ := hstring
  have hmem : a ∈ w := by simpa [isClosed, hq] using hclosed
  rw [List.dropLast_append_of_ne_nil (by simp)] at hinner
  simp [hmem] at hinner

/-! ## Texts that spell tokens -/

variable {atof : List UInt8 → UInt32}

/-- The text is made of lexemes of the tokens, with white space and ends of lines between them; of two neighbours
without any between them one is a delimiter. -/
inductive Spells (atof : List UInt8 → UInt32) : List Token → List UInt8 → Prop where
  | nil : Spells atof [] []
  | white {c : UInt8} {ts : List Token} {text : List UInt8} (hc : isWhite c = true ∨ c = 10)
      (h : Spells atof ts text) : Spells atof ts (c :: text)
  | token {w : List UInt8} {r : Rule} {t : Token} {ts : List Token} {text : List UInt8}
      (hr : classify rules w = some r) (ht : action atof w r = some t) (hclosed : isClosed w = true)
      (hends : ¬Plain w ∨ ∀ c ∈ text.head?, isDelim c = true) (h : Spells atof ts text) :
      Spells atof (t :: ts) (w ++ text)

theorem spells_blanks {ls : List (List UInt8 × Token)}
    (h : ∀ l ∈ ls, ∃ r, classify rules l.1 = some r ∧ action atof l.1 r = some l.2 ∧ isClosed l.1 = true) :
    Spells atof (ls.map Prod.snd) (ls.flatMap fun l => l.1 ++ [32]) := by
  induction ls with
  | nil => exact .nil
  | cons l ls ih =>
    obtain ⟨r, hr, ht, hclosed⟩ := h l List.mem_cons_self
    rw [List.map_cons, List.flatMap_cons, List.append_assoc]
    refine .token hr ht hclosed (.inr fun c hc => ?_) (.white (.inl (by decide)) (ih fun l hl => h l (by simp [hl])))
    cases Option.mem_some_iff.mp hc
    decide

theorem lex_append {r : Rule} {text : List UInt8} (hw : w ≠ []) (hr : classify rules w = some r)
    (hends : ∀ c ∈ text.head?, Ends rules w c) :
    lex atof (w ++ text) = (action atof w r).toList ++ lex atof text := by
  rw [lex, scan_append hw hr hends, List.filterMap_cons]
  cases hact : action atof w r with
  | none => simp [hact, lex]
  | some t => simp [hact, lex]

/-- The scanner returns the tokens that a text spells. -/
theorem lex_of_spells {ts : List Token} {text : List UInt8} (h : Spells atof ts text) : lex atof text = ts := by
  induction h with
  | nil => rfl
  | @white c ts text hc _ ih =>
    have hdelim : isDelim c = true ∧ isQuote c = false ∧
        (classify rules [c] = some .white ∨ classify rules [c] = some .newline) := by
      have hall : ([32, 9, 8, 12, 10] : List UInt8).all (fun c => decide (isDelim c = true ∧ isQuote c = false ∧
          (classify rules [c] = some .white ∨ classify rules [c] = some .newline))) = true := by
        decide
      refine of_decide_eq_true (List.all_eq_true.mp hall c ?_)
      rcases hc with hc | rfl
      · have hmem := List.contains_iff_mem.mp hc
        simp only [List.mem_cons] at hmem ⊢
        tauto
      · simp
    obtain ⟨hd, hq, hr⟩ := hdelim
    have hends : ∀ d ∈ text.head?, Ends rules [c] d := by
      intro d _
      exact ends_of_closed (by simp) (by simp [isClosed, hq]) (.inr (by simp [plain_cons, hd]))
    change lex atof ([c] ++ text) = _
    rcases hr with hr | hr
    · rw [lex_append (by simp) hr hends, ih]
      rfl
    · rw [lex_append (by simp) hr hends, ih]
      rfl
  | @token w r t ts text hr ht hclosed hends _ ih =>
    have hw : w ≠ [] := by
      rintro rfl
      cases hr
    rw [lex_append hw hr fun c hc => ends_of_closed hw hclosed (hends.symm.imp (fun hall => hall c hc) id), ht, ih]
    rfl

end Lexer

end Idmbs
