import Idmbs.Parse.Stored
import Mathlib.Logic.Function.Basic

/-!
# Idmbs.Parse.Bounds

The arrays that the semantic actions of parse/yacc_sql.y fill: those of the context and those that a query
allocates in its `Init`. No action looks at a size. `commandStores` has every store of a command, and
`Within` says of the trees how many there are at most before an array is left again.
-/

namespace Idmbs

def maxAttrsNum : Nat := 20
def maxConditionsNum : Nat := 20
def maxRelsNum : Nat := 20
def maxValuesNum : Nat := 20

/-- `values` and `conditions` of the context; the arrays of a query. -/
inductive ParserArray where
  | values | conditions | attrs | relNames | queryConditions | queryValues | columns
  deriving DecidableEq, Repr

def ParserArray.size : ParserArray → Nat
  | values => maxAttrsNum
  | conditions => maxConditionsNum
  | attrs => maxAttrsNum
  | relNames => maxRelsNum
  | queryConditions => maxConditionsNum
  | queryValues => maxValuesNum
  | columns => maxAttrsNum

structure Store where
  array : ParserArray
  index : Nat
  deriving DecidableEq, Repr

abbrev Store.InBounds (s : Store) : Prop := s.index < s.array.size

/-! ## Counters -/

/-- How many elements each array has. -/
abbrev Counters := ParserArray → Nat

namespace Counters

def zero : Counters := fun _ => 0

/-- `k` more elements in `a`. -/
def add (n : Counters) (a : ParserArray) (k : Nat) : Counters := fun b => if b = a then n b + k else n b

def reset (n : Counters) (a : ParserArray) : Counters := fun b => if b = a then 0 else n b

variable {n : Counters} {a b : ParserArray} {j k : Nat}

@[simp] theorem add_same : n.add a k a = n a + k := if_pos rfl

theorem add_of_ne (h : b ≠ a) : n.add a k b = n b := if_neg h

@[simp] theorem add_zero : n.add a 0 = n := by
  funext b
  simp [add]

@[simp] theorem add_add : (n.add a j).add a k = n.add a (j + k) := by
  funext b
  by_cases h : b = a <;> simp [add, h, Nat.add_assoc]

theorem add_comm (h : a ≠ b) : (n.add a j).add b k = (n.add b k).add a j := by
  funext x
  simp only [add]
  split <;> split <;> simp_all

def new (n : Counters) (a : ParserArray) (k : Nat) : List Store := (List.range k).map fun i => ⟨a, n a + i⟩

/-- The stores fill each array from `n` up to `m`. -/
structure Fills (stores : List Store) (n m : Counters) : Prop where
  le : ∀ a, n a ≤ m a
  mem_iff : ∀ s, s ∈ stores ↔ n s.array ≤ s.index ∧ s.index < m s.array

theorem Fills.nil (n : Counters) : Fills [] n n := by
  refine ⟨fun _ => le_rfl, fun s => ?_⟩
  simp

theorem Fills.append {l l' : List Store} {n m k : Counters} (h : Fills l n m) (h' : Fills l' m k) :
    Fills (l ++ l') n k := by
  refine ⟨fun a => le_trans (h.le a) (h'.le a), fun s => ?_⟩
  have hle := h.le s.array
  have hle' := h'.le s.array
  rw [List.mem_append, h.mem_iff, h'.mem_iff]
  omega

theorem Fills.of_new (n : Counters) (a : ParserArray) (k : Nat) : Fills (n.new a k) n (n.add a k) := by
  constructor
  · intro b
    unfold add
    split <;> omega
  · rintro ⟨b, j⟩
    unfold new
    rw [List.mem_map]
    by_cases h : b = a
    · subst h
      rw [add_same]
      constructor
      · rintro ⟨i, hi, heq⟩
        cases heq
        have hi := List.mem_range.mp hi
        exact ⟨Nat.le_add_right _ _, Nat.add_lt_add_left hi _⟩
      · intro hs
        obtain ⟨hle, hlt⟩ : n b ≤ j ∧ j < n b + k := hs
        exact ⟨j - n b, List.mem_range.mpr (by omega), by rw [Nat.add_sub_cancel' hle]⟩
    · rw [add_of_ne h]
      constructor
      · rintro ⟨i, hi, heq⟩
        cases heq
        exact absurd rfl h
      · intro hs
        exact absurd hs.1 (Nat.not_le.mpr hs.2)

theorem new_add_of_ne (h : b ≠ a) : (n.add a j).new b k = n.new b k := by
  unfold new
  rw [add_of_ne h]

theorem Fills.single (n : Counters) (a : ParserArray) : Fills [⟨a, n a⟩] n (n.add a 1) := Fills.of_new n a 1

/-- With every array in its bounds before, the stores are in bounds exactly if no array is too long after. -/
theorem Fills.inBounds_iff {stores : List Store} {n m : Counters} (h : Fills stores n m)
    (hn : ∀ a, n a ≤ a.size) : (∀ s ∈ stores, s.InBounds) ↔ ∀ a, m a ≤ a.size := by
  constructor
  · intro hs a
    have hle := h.le a
    by_cases heq : n a = m a
    · rw [← heq]
      exact hn a
    · have hlast : (⟨a, m a - 1⟩ : Store) ∈ stores := (h.mem_iff _).mpr ⟨by simp only; omega, by simp only; omega⟩
      have hb : m a - 1 < a.size := hs _ hlast
      omega
  · intro hm s hs
    have hlt := ((h.mem_iff s).mp hs).2
    have := hm s.array
    unfold Store.InBounds
    omega

end Counters

/-! ## Stores of the actions -/

namespace ParserContext

/-- The lengths of the arrays; those of a query that is still to be constructed are 0. -/
def counters (c : ParserContext) : Counters
  | .values => c.values.length
  | .conditions => c.conditions.length
  | .attrs =>
    match c.query with
    | some (.select attrs _ _) => attrs.length
    | _ => 0
  | .relNames =>
    match c.query with
    | some (.select _ relNames _) => relNames.length
    | _ => 0
  | .queryConditions =>
    match c.query with
    | some (.select _ _ conditions) => conditions.length
    | some (.delete _ conditions) => conditions.length
    | _ => 0
  | .queryValues =>
    match c.query with
    | some (.insert _ values) => values.length
    | _ => 0
  | .columns =>
    match c.query with
    | some (.createTable _ attrs) => attrs.length
    | _ => 0

/-- The store of an action that adds one element. -/
def storeAt (c : ParserContext) (a : ParserArray) : Store := ⟨a, c.counters a⟩

def valueStores (c : ParserContext) : Literal → List Store
  | .dateStr _ => []
  | _ => [c.storeAt .values]

def valueListStores (c : ParserContext) : List Literal → List Store
  | [] => []
  | v :: vs => c.valueStores v ++ valueListStores (c.value v) vs

/-- The literals of a condition are stored before the condition. -/
def conditionStores (c : ParserContext) (t : ConditionTree) : List Store :=
  c.valueListStores t.literals ++ [c.storeAt .conditions]

def conditionListStores (outside : Nat → Value) (c : ParserContext) : List ConditionTree → List Store
  | [] => []
  | t :: w => c.conditionStores t ++ conditionListStores outside (c.condition outside t) w

/-- The context that an action leaves, for the stores behind it. -/
def after (r : Except Fault ParserContext) (f : ParserContext → List Store) : List Store :=
  match r with
  | .error _ => []
  | .ok c => f c

def attrListStores (c : ParserContext) : List RelAttr → List Store
  | [] => []
  | _ :: as => attrListStores c as ++ after (c.attrList as) fun c => [c.storeAt .attrs]

def selectAttrStores (c : ParserContext) : SelectAttr → List Store
  | .star => [c.storeAt .attrs]
  | .attrs _ rest => c.attrListStores rest ++ after (c.attrList rest) fun c => [c.storeAt .attrs]

def relListStores (c : ParserContext) : List String → List Store
  | [] => []
  | _ :: rs => relListStores c rs ++ after (c.relList rs) fun c => [c.storeAt .relNames]

def attrDefListStores (c : ParserContext) : List AttrDef → List Store
  | [] => []
  | a :: as => c.storeAt .columns :: after (c.attrDef a) fun c => attrDefListStores c as

/-- `AddConditions` and `AddValues` of what the context has. -/
def addStores (c : ParserContext) (a source : ParserArray) : List Store := c.counters.new a (c.counters source)

def commandStores (outside : Nat → Value) (c : ParserContext) : Command → List Store
  | .select attr _ rels w =>
    c.selectAttrStores attr ++ after (c.selectAttr attr) fun c =>
      c.relListStores rels ++ after (c.relList rels) fun c =>
        c.conditionListStores outside w ++ ((c.conditionList outside w).storeAt .relNames ::
          (c.conditionList outside w).addStores .queryConditions .conditions)
  | .insert _ first units =>
    let c' := (c.valueList first).valueList units.flatten
    c.valueListStores first ++ (c.valueList first).valueListStores units.flatten ++
      c'.addStores .queryValues .values
  | .update _ _ v w => c.valueStores v ++ (c.value v).conditionListStores outside w
  | .delete _ w =>
    c.conditionListStores outside w ++ (c.conditionList outside w).addStores .queryConditions .conditions
  | .createTable _ first rest => c.attrDefListStores (first :: rest)
  | _ => []

def commandsStores (outside : Nat → Value) (c : ParserContext) : List Command → List Store
  | [] => []
  | d :: ds => c.commandStores outside d ++ after (c.command outside d) fun c => commandsStores outside c ds

end ParserContext

/-- Every `static_cast` is to the class of the query, and every store is inside its array. -/
def StaysInBounds (outside : Nat → Value) (cs : List Command) : Prop :=
  (∃ c, ParserContext.new.commands outside cs = .ok c) ∧
    ∀ s ∈ ParserContext.new.commandsStores outside cs, s.InBounds

/-! ## How much a tree stores -/

def pushes (vs : List Literal) : Nat := vs.countP fun v => !v.isDate

def SelectAttr.count : SelectAttr → Nat
  | star => 1
  | attrs _ rest => rest.length + 1

/-- The arrays at their longest in a command that begins with `n`. -/
def Command.peak (n : Counters) : Command → Counters
  | select attr _ rels w =>
    let n := (((n.add .attrs attr.count).add .relNames rels.length).add .values
      (pushes (w.flatMap ConditionTree.literals))).add .conditions w.length
    (n.add .relNames 1).add .queryConditions (n .conditions)
  | insert _ first units =>
    let n := n.add .values (pushes (first ++ units.flatten))
    n.add .queryValues (n .values)
  | update _ _ v w =>
    (n.add .values (pushes (v :: w.flatMap ConditionTree.literals))).add .conditions w.length
  | delete _ w =>
    let n := (n.add .values (pushes (w.flatMap ConditionTree.literals))).add .conditions w.length
    n.add .queryConditions (n .conditions)
  | createTable _ _ rest => n.add .columns (rest.length + 1)
  | _ => n

/-- The arrays after it: SELECT and DELETE empty the conditions, INSERT the values. -/
def Command.leaves (n : Counters) (d : Command) : Counters :=
  match d.kind with
  | .select => (d.peak n).reset .conditions
  | .insert => (d.peak n).reset .values
  | .delete => (d.peak n).reset .conditions
  | _ => d.peak n

theorem Command.leaves_le_peak (d : Command) (n : Counters) (a : ParserArray) : d.leaves n a ≤ d.peak n a := by
  have hreset : ∀ (m : Counters) b, m.reset b a ≤ m a := by
    intro m b
    unfold Counters.reset
    split <;> omega
  unfold leaves
  cases d.kind with
  | select => exact hreset _ _
  | insert => exact hreset _ _
  | delete => exact hreset _ _
  | _ => exact le_rfl

/-- No running total exceeds its array. -/
def Within (n : Counters) : List Command → Prop
  | [] => True
  | d :: ds => (∀ a, d.peak n a ≤ a.size) ∧ Within (d.leaves n) ds

/-! ## The actions fill what the trees say -/

namespace ParserContext

open Counters

variable {c c' : ParserContext} {outside : Nat → Value} {v : Literal} {vs : List Literal}
  {t : ConditionTree} {w : List ConditionTree} {a : RelAttr} {as : List RelAttr}

theorem counters_congr (hv : c'.values.length = c.values.length)
    (hc : c'.conditions.length = c.conditions.length) (hq : c'.query = c.query) :
    c'.counters = c.counters := by
  funext x
  cases x <;> simp only [counters, hv, hc, hq]

@[simp] theorem counters_comOp (op : ComOp) : (c.comOp op).counters = c.counters := by
  cases op <;> exact counters_congr rfl rfl rfl

theorem counters_value (c : ParserContext) (v : Literal) :
    (c.value v).counters = c.counters.add .values (pushes [v]) := by
  cases hv : v.isDate with
  | true => simp [value_date hv, pushes, hv]
  | false =>
    funext x
    cases x <;> simp [value_push hv, pushes, hv, counters, add]

theorem counters_addCondition (l r : Operand) :
    (c.addCondition l r).counters = c.counters.add .conditions 1 := by
  funext x
  cases x <;> simp [addCondition, counters, add]

theorem pushes_cons : pushes (v :: vs) = pushes [v] + pushes vs := by
  simp [pushes, List.countP_cons, Nat.add_comm]

theorem pushes_append (vs us : List Literal) : pushes (vs ++ us) = pushes vs + pushes us :=
  List.countP_append

theorem counters_valueList (c : ParserContext) (vs : List Literal) :
    (c.valueList vs).counters = c.counters.add .values (pushes vs) := by
  induction vs generalizing c with
  | nil => simp [valueList, pushes]
  | cons v vs ih =>
    have h := ih (c.value v)
    rw [counters_value, add_add, ← pushes_cons] at h
    exact h

theorem counters_condition (outside : Nat → Value) (c : ParserContext) (t : ConditionTree) :
    (c.condition outside t).counters = (c.counters.add .values (pushes t.literals)).add .conditions 1 := by
  cases t with
  | valueValue l op r =>
    have hpair : pushes [l, r] = pushes [l] + pushes [r] := pushes_cons
    simp [condition, counters_addCondition, counters_value, ConditionTree.literals, hpair]
  | idId l op r => simp [condition, counters_addCondition, ConditionTree.literals, pushes]
  | relIdRelId lrel l op rrel r => simp [condition, counters_addCondition, ConditionTree.literals, pushes]
  | idValue id op v => simp [condition, counters_addCondition, counters_value, ConditionTree.literals]
  | valueId v op id => simp [condition, counters_addCondition, counters_value, ConditionTree.literals]
  | relIdValue rel id op v => simp [condition, counters_addCondition, counters_value, ConditionTree.literals]
  | valueRelId v op rel id => simp [condition, counters_addCondition, counters_value, ConditionTree.literals]

theorem counters_conditionList (outside : Nat → Value) (c : ParserContext) (w : List ConditionTree) :
    (c.conditionList outside w).counters =
      (c.counters.add .values (pushes (w.flatMap ConditionTree.literals))).add .conditions w.length := by
  induction w generalizing c with
  | nil => simp [conditionList, pushes]
  | cons t w ih =>
    have h := ih (c.condition outside t)
    rw [counters_condition, Counters.add_comm (a := .conditions) (b := .values) (by decide), add_add, add_add,
      ← pushes_append, Nat.add_comm 1] at h
    exact h

theorem fills_value (c : ParserContext) (v : Literal) :
    Fills (c.valueStores v) c.counters (c.value v).counters := by
  rw [counters_value]
  cases v with
  | dateStr text => simpa [valueStores, pushes, Literal.isDate] using Fills.nil c.counters
  | number n => exact Fills.single c.counters .values
  | float bits => exact Fills.single c.counters .values
  | sss text => exact Fills.single c.counters .values

theorem fills_valueList (c : ParserContext) (vs : List Literal) :
    Fills (c.valueListStores vs) c.counters (c.valueList vs).counters := by
  induction vs generalizing c with
  | nil => exact Fills.nil c.counters
  | cons v vs ih => exact (fills_value c v).append (ih (c.value v))

theorem fills_condition (outside : Nat → Value) (c : ParserContext) (t : ConditionTree) :
    Fills (c.conditionStores t) c.counters (c.condition outside t).counters := by
  rw [counters_condition]
  have h := fills_valueList c t.literals
  rw [counters_valueList] at h
  refine h.append ?_
  have hsingle := Fills.single (c.counters.add .values (pushes t.literals)) .conditions
  rwa [add_of_ne (a := .values) (b := .conditions) (by decide)] at hsingle

theorem fills_conditionList (outside : Nat → Value) (c : ParserContext) (w : List ConditionTree) :
    Fills (c.conditionListStores outside w) c.counters (c.conditionList outside w).counters := by
  induction w generalizing c with
  | nil => exact Fills.nil c.counters
  | cons t w ih => exact (fills_condition outside c t).append (ih (c.condition outside t))

theorem counters_create {q : Query} (hq : ({ new with query := some q } : ParserContext).counters = .zero) :
    (c.create q).counters = c.counters := by
  unfold create
  cases hquery : c.query with
  | none =>
    funext x
    have hx := congrFun hq x
    cases x with
    | values => rfl
    | conditions => rfl
    | _ => simpa only [counters, hquery, Counters.zero] using hx
  | some q' => rfl

/-- A `static_cast` that goes through: `g` is what is done with the query to the counters. -/
theorem counters_cast {f : Query → Option Query} (g : Counters → Counters)
    (hf : ∀ (c : ParserContext) (q q' : Query), f q = some q' →
      ({ c with query := some q' } : ParserContext).counters =
        g ({ c with query := some q } : ParserContext).counters)
    (h : c.cast f = .ok c') : c'.counters = g c.counters := by
  obtain ⟨query, values, conditions, comp, cid⟩ := c
  cases query with
  | none => cases h
  | some q =>
    unfold cast at h
    simp only at h
    cases hq : f q with
    | none =>
      rw [hq] at h
      cases h
    | some q' =>
      rw [hq] at h
      cases h
      exact hf ⟨some q, values, conditions, comp, cid⟩ q q' hq

theorem counters_addRelAttr (h : c.addRelAttr a = .ok c') : c'.counters = c.counters.add .attrs 1 := by
  rw [← counters_create (c := c) (q := .select [] [] []) (by funext x; cases x <;> rfl)]
  refine counters_cast (fun n => n.add .attrs 1) (fun c q q' hq => ?_) h
  cases q <;> cases hq
  funext x
  cases x <;> simp [counters, add]

theorem counters_addRelName {rel : String} (h : c.addRelName rel = .ok c') :
    c'.counters = c.counters.add .relNames 1 := by
  refine counters_cast (fun n => n.add .relNames 1) (fun c q q' hq => ?_) h
  cases q <;> cases hq
  funext x
  cases x <;> simp [counters, add]

theorem counters_attrDef {d : AttrDef} (h : c.attrDef d = .ok c') : c'.counters = c.counters.add .columns 1 := by
  unfold attrDef at h
  have hcast := counters_cast (fun n => n.add .columns 1) (fun c q q' hq => ?_) h
  · rw [hcast, counters_create (by funext x; cases x <;> rfl)]
    rfl
  · cases q <;> cases hq
    funext x
    cases x <;> simp [counters, add]

theorem ok_of_bind {r : Except Fault ParserContext} {f : ParserContext → Except Fault ParserContext}
    (h : (r >>= f) = .ok c') : ∃ c, r = .ok c ∧ f c = .ok c' := by
  cases r with
  | error e => cases h
  | ok c => exact ⟨c, rfl, h⟩

theorem fills_attrList (h : c.attrList as = .ok c') :
    c'.counters = c.counters.add .attrs as.length ∧ Fills (c.attrListStores as) c.counters c'.counters := by
  induction as generalizing c' with
  | nil =>
    cases h
    exact ⟨by simp, Fills.nil _⟩
  | cons a as ih =>
    obtain ⟨c1, h1, h2⟩ := ok_of_bind h
    obtain ⟨hcount, hfills⟩ := ih h1
    rw [attrListStores, h1, counters_addRelAttr h2]
    refine ⟨?_, hfills.append (Fills.single c1.counters .attrs)⟩
    rw [hcount, add_add, List.length_cons]

theorem fills_selectAttr {attr : SelectAttr} (h : c.selectAttr attr = .ok c') :
    c'.counters = c.counters.add .attrs attr.count ∧
      Fills (c.selectAttrStores attr) c.counters c'.counters := by
  cases attr with
  | star =>
    rw [counters_addRelAttr h]
    exact ⟨rfl, Fills.single c.counters .attrs⟩
  | attrs first rest =>
    obtain ⟨c1, h1, h2⟩ := ok_of_bind h
    obtain ⟨hcount, hfills⟩ := fills_attrList h1
    rw [selectAttrStores, h1, counters_addRelAttr h2]
    refine ⟨?_, hfills.append (Fills.single c1.counters .attrs)⟩
    rw [hcount, add_add, SelectAttr.count]

theorem fills_relList {rels : List String} (h : c.relList rels = .ok c') :
    c'.counters = c.counters.add .relNames rels.length ∧
      Fills (c.relListStores rels) c.counters c'.counters := by
  induction rels generalizing c' with
  | nil =>
    cases h
    exact ⟨by simp, Fills.nil _⟩
  | cons r rels ih =>
    obtain ⟨c1, h1, h2⟩ := ok_of_bind h
    obtain ⟨hcount, hfills⟩ := ih h1
    rw [relListStores, h1, counters_addRelName h2]
    refine ⟨?_, hfills.append (Fills.single c1.counters .relNames)⟩
    rw [hcount, add_add, List.length_cons]

theorem fills_attrDefList {ds : List AttrDef} (h : c.attrDefList ds = .ok c') :
    c'.counters = c.counters.add .columns ds.length ∧
      Fills (c.attrDefListStores ds) c.counters c'.counters := by
  induction ds generalizing c with
  | nil =>
    cases h
    exact ⟨by simp, Fills.nil _⟩
  | cons d ds ih =>
    obtain ⟨c1, h1, h2⟩ := ok_of_bind h
    obtain ⟨hcount, hfills⟩ := ih h2
    rw [counters_attrDef h1] at hcount hfills
    rw [attrDefListStores, h1]
    refine ⟨?_, (Fills.single c.counters .columns).append hfills⟩
    rw [hcount, add_add, List.length_cons, Nat.add_comm]

/-! ## Commands -/

variable {d : Command} {ds : List Command}

/-- The conditions of the context go into the query. -/
theorem counters_takeConditions {f : List Condition → Query → Option Query} (g : Counters → Counters)
    (hf : ∀ (c1 : ParserContext) (q q' : Query), f c.conditions q = some q' →
      ({ c1 with query := some q' } : ParserContext).counters =
        g ({ c1 with query := some q } : ParserContext).counters)
    (h : c.takeConditions f = .ok c') : c'.counters = (g c.counters).reset .conditions := by
  obtain ⟨c1, h1, h2⟩ := ok_of_bind h
  cases h2
  rw [← counters_cast g hf h1]
  funext x
  cases x <;> rfl

theorem counters_takeValues {f : List Value → Query → Option Query} (g : Counters → Counters)
    (hf : ∀ (c1 : ParserContext) (q q' : Query), f c.values q = some q' →
      ({ c1 with query := some q' } : ParserContext).counters =
        g ({ c1 with query := some q } : ParserContext).counters)
    (h : c.takeValues f = .ok c') : c'.counters = (g c.counters).reset .values := by
  obtain ⟨c1, h1, h2⟩ := ok_of_bind h
  cases h2
  rw [← counters_cast g hf h1]
  funext x
  cases x <;> rfl

theorem counters_finishSelect {rel : String} (h : c.takeConditions (Query.finishSelect rel) = .ok c') :
    c'.counters = ((c.counters.add .relNames 1).add .queryConditions (c.counters .conditions)).reset .conditions := by
  refine counters_takeConditions (fun n => (n.add .relNames 1).add .queryConditions (c.counters .conditions))
    (fun c1 q q' hq => ?_) h
  cases q <;> cases hq
  funext x
  cases x <;> simp [counters, add]

theorem counters_finishDelete {rel : String}
    (h : (c.create (.delete none [])).takeConditions (Query.finishDelete rel) = .ok c') :
    c'.counters = (c.counters.add .queryConditions (c.counters .conditions)).reset .conditions := by
  rw [← counters_create (c := c) (q := .delete none []) (by funext x; cases x <;> rfl)]
  refine counters_takeConditions (fun n => n.add .queryConditions ((c.create (.delete none [])).counters .conditions))
    (fun c1 q q' hq => ?_) h
  cases q <;> cases hq
  funext x
  cases x <;> simp [counters, add]

theorem counters_finishInsert {rel : String}
    (h : (c.create (.insert none [])).takeValues (Query.finishInsert rel) = .ok c') :
    c'.counters = (c.counters.add .queryValues (c.counters .values)).reset .values := by
  rw [← counters_create (c := c) (q := .insert none []) (by funext x; cases x <;> rfl)]
  refine counters_takeValues (fun n => n.add .queryValues ((c.create (.insert none [])).counters .values))
    (fun c1 q q' hq => ?_) h
  cases q <;> cases hq
  funext x
  cases x <;> simp [counters, add]

theorem counters_finishCreateTable {rel : String} (h : c.cast (Query.finishCreateTable rel) = .ok c') :
    c'.counters = c.counters := by
  refine counters_cast (fun n => n) (fun c q q' hq => ?_) h
  cases q <;> cases hq
  funext x
  cases x <;> rfl

theorem counters_finishDropTable {rel : String}
    (h : (c.create (.dropTable none)).cast (Query.finishDropTable rel) = .ok c') :
    c'.counters = c.counters := by
  rw [← counters_create (c := c) (q := .dropTable none) (by funext x; cases x <;> rfl)]
  refine counters_cast (fun n => n) (fun c q q' hq => ?_) h
  cases q <;> cases hq
  funext x
  cases x <;> rfl

theorem counters_finishCreateIndex {index : String} {attr : RelAttr}
    (h : (c.create (.createIndex none none)).cast (Query.finishCreateIndex index attr) = .ok c') :
    c'.counters = c.counters := by
  rw [← counters_create (c := c) (q := .createIndex none none) (by funext x; cases x <;> rfl)]
  refine counters_cast (fun n => n) (fun c q q' hq => ?_) h
  cases q <;> cases hq
  funext x
  cases x <;> rfl

theorem command_fills (h : c.command outside d = .ok c') :
    Fills (c.commandStores outside d) c.counters (d.peak c.counters) ∧ c'.counters = d.leaves c.counters := by
  cases d with
  | select attr rel rels w =>
    obtain ⟨c1, h1, h⟩ := ok_of_bind h
    obtain ⟨c2, h2, h⟩ := ok_of_bind h
    obtain ⟨hcount1, hfills1⟩ := fills_selectAttr h1
    obtain ⟨hcount2, hfills2⟩ := fills_relList h2
    have hcount3 := counters_conditionList outside c2 w
    have hfills3 := fills_conditionList outside c2 w
    have hpeak : Command.peak c.counters (.select attr rel rels w) =
        ((c2.conditionList outside w).counters.add .relNames 1).add .queryConditions
          ((c2.conditionList outside w).counters .conditions) := by
      rw [hcount3, hcount2, hcount1]
      rfl
    constructor
    · rw [hpeak]
      simp only [commandStores, h1, h2, after]
      refine hfills1.append (hfills2.append (hfills3.append ?_))
      refine (Fills.single _ _).append (l := [_]) ?_
      have hnew := Fills.of_new ((c2.conditionList outside w).counters.add .relNames 1) .queryConditions
        ((c2.conditionList outside w).counters .conditions)
      rwa [new_add_of_ne (by decide)] at hnew
    · rw [counters_finishSelect h, ← hpeak]
      rfl
  | insert rel first units =>
    have happend : (c.valueList first).valueList units.flatten = c.valueList (first ++ units.flatten) :=
      List.foldl_append.symm
    have hcount := counters_valueList c (first ++ units.flatten)
    have hfills := (fills_valueList c first).append (fills_valueList (c.valueList first) units.flatten)
    have hpeak : Command.peak c.counters (.insert rel first units) =
        (c.valueList (first ++ units.flatten)).counters.add .queryValues
          ((c.valueList (first ++ units.flatten)).counters .values) := by
      rw [hcount]
      rfl
    constructor
    · rw [hpeak]
      simp only [commandStores]
      rw [happend] at hfills ⊢
      exact hfills.append (Fills.of_new _ _ _)
    · simp only [command] at h
      rw [happend] at h
      rw [counters_finishInsert h, ← hpeak]
      rfl
  | update rel attr v w =>
    cases h
    have hcount := counters_conditionList outside (c.value v) w
    have hpeak : Command.peak c.counters (.update rel attr v w) =
        ((c.value v).conditionList outside w).counters := by
      rw [hcount, counters_value, add_add, ← pushes_cons]
      rfl
    rw [hpeak]
    exact ⟨(fills_value c v).append (fills_conditionList outside (c.value v) w), hpeak.symm⟩
  | delete rel w =>
    have hcount := counters_conditionList outside c w
    have hpeak : Command.peak c.counters (.delete rel w) =
        (c.conditionList outside w).counters.add .queryConditions
          ((c.conditionList outside w).counters .conditions) := by
      rw [hcount]
      rfl
    constructor
    · rw [hpeak]
      exact (fills_conditionList outside c w).append (Fills.of_new _ _ _)
    · rw [counters_finishDelete h, ← hpeak]
      rfl
  | createTable rel first rest =>
    obtain ⟨c1, h1, h⟩ := ok_of_bind h
    obtain ⟨hcount, hfills⟩ := fills_attrDefList h1
    have hpeak : Command.peak c.counters (.createTable rel first rest) = c1.counters := hcount.symm
    rw [hpeak, counters_finishCreateTable h]
    exact ⟨hfills, hpeak.symm⟩
  | dropTable rel => exact ⟨Fills.nil _, counters_finishDropTable h⟩
  | createIndex index rel attr => exact ⟨Fills.nil _, counters_finishCreateIndex h⟩
  | _ =>
    cases h
    exact ⟨Fills.nil _, rfl⟩

/-- A command that is run from counters in their bounds. -/
theorem commands_inBounds_iff (h : c.commands outside ds = .ok c') (hn : ∀ a, c.counters a ≤ a.size) :
    (∀ s ∈ c.commandsStores outside ds, s.InBounds) ↔ Within c.counters ds := by
  induction ds generalizing c with
  | nil => exact iff_of_true (fun _ hs => nomatch hs) trivial
  | cons d ds ih =>
    obtain ⟨c1, h1, h2⟩ := ok_of_bind h
    obtain ⟨hfills, hleaves⟩ := command_fills h1
    have hfirst := hfills.inBounds_iff hn
    simp only [commandsStores, h1, after, List.mem_append, or_imp, forall_and, Within]
    rw [hfirst, ← hleaves]
    refine and_congr_right fun hpeak => ih h2 fun a => le_trans ?_ (hpeak a)
    rw [hleaves]
    exact d.leaves_le_peak c.counters a

/-! ## One query object -/

theorem commands_ok_of_holds {k : CommandKind} (h : Holds k c) : (∃ c', c.commands outside ds = .ok c') ↔
    ∀ d ∈ ds, d.kind.Builds → d.kind = k := by
  induction ds generalizing c with
  | nil => exact iff_of_true ⟨c, rfl⟩ fun _ hd => nomatch hd
  | cons d ds ih =>
    rw [List.forall_mem_cons]
    by_cases hb : d.kind.Builds
    · by_cases hk : d.kind = k
      · subst hk
        obtain ⟨c1, h1, hholds⟩ := (command_serves outside hb).ok h.isOpen
        rw [commands, h1]
        exact (ih hholds).trans (and_iff_right fun _ => rfl).symm
      · have hclosed : ¬Open d.kind c := by
          intro hopen
          obtain ⟨q, hq, hqk⟩ := h
          have := hopen q hq
          rw [hqk] at this
          exact hk (Option.some.inj this).symm
        rw [commands, (command_serves outside hb).wrong hclosed]
        refine iff_of_false ?_ fun hall => hk (hall.1 hb)
        rintro ⟨c', hc'⟩
        cases hc'
    · obtain ⟨c1, h1, hquery⟩ := command_keeps (c := c) outside hb
      have hholds : Holds k c1 := by rwa [Holds, hquery]
      rw [commands, h1]
      exact (ih hholds).trans (and_iff_right fun h => absurd h hb).symm

/-- No action meets a query of another class exactly if all commands that construct one are of one kind. -/
theorem commands_ok_iff (h : c.query = none) : (∃ c', c.commands outside ds = .ok c') ↔
    ∃ k, ∀ d ∈ ds, d.kind.Builds → d.kind = k := by
  induction ds generalizing c with
  | nil => exact iff_of_true ⟨c, rfl⟩ ⟨.select, fun _ hd => nomatch hd⟩
  | cons d ds ih =>
    by_cases hb : d.kind.Builds
    · have hopen : Open d.kind c := by
        intro q hq
        rw [h] at hq
        cases hq
      obtain ⟨c1, h1, hholds⟩ := (command_serves outside hb).ok hopen
      rw [commands, h1]
      refine (commands_ok_of_holds hholds).trans ⟨fun hall => ⟨d.kind, ?_⟩, ?_⟩
      · rw [List.forall_mem_cons]
        exact ⟨fun _ => rfl, hall⟩
      · rintro ⟨k, hall⟩
        rw [List.forall_mem_cons] at hall
        rw [hall.1 hb]
        exact hall.2
    · obtain ⟨c1, h1, hquery⟩ := command_keeps (c := c) outside hb
      rw [commands, h1]
      refine (ih (hquery.trans h)).trans (exists_congr fun k => ?_)
      rw [List.forall_mem_cons]
      exact (and_iff_right fun h => absurd h hb).symm

end ParserContext

theorem staysInBounds_iff (outside : Nat → Value) (cs : List Command) : StaysInBounds outside cs ↔
    (∃ k, ∀ d ∈ cs, d.kind.Builds → d.kind = k) ∧ Within .zero cs := by
  have hzero : ParserContext.new.counters = .zero := by
    funext a
    cases a <;> rfl
  have hn : ∀ a, ParserContext.new.counters a ≤ a.size := by
    intro a
    rw [hzero]
    exact Nat.zero_le _
  unfold StaysInBounds
  have hnew : (∃ c, ParserContext.new.commands outside cs = .ok c) ↔
      ∃ k, ∀ d ∈ cs, d.kind.Builds → d.kind = k := ParserContext.commands_ok_iff rfl
  rw [← hnew]
  refine and_congr_right fun hok => ?_
  obtain ⟨c, hc⟩ := hok
  rw [ParserContext.commands_inBounds_iff hc hn, hzero]

/-- An INSERT with 21 numbers stores the last of them behind `values`. -/
theorem not_staysInBounds_insert : ¬StaysInBounds (fun _ => .undefined)
    [.insert "t" [.number 0] [List.replicate 20 (.number 0)]] := by
  rintro ⟨-, h⟩
  have hstore : (⟨.values, 20⟩ : Store) ∈ ParserContext.new.commandsStores (fun _ => .undefined)
      [.insert "t" [.number 0] [List.replicate 20 (.number 0)]] := by decide
  exact absurd (h _ hstore) (by decide)

end Idmbs
