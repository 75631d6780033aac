import Idmbs.Parse.Actions
import Idmbs.Storage.Layout

/-!
# Idmbs.Parse.Columns

The columns that CREATE TABLE stores: all of them, in the order of the statement, with names cut to what
fits into the buffer that `ID_get` fills.
-/

namespace Idmbs

def AttrDef.meaning (a : AttrDef) : AttrInfo := ⟨some a.id, a.type, a.length.getD 4⟩

/-- The name in the buffer after `ID_get`. -/
def AttrDef.cutId (a : AttrDef) : String := String.ofList (a.id.toList.take (ParserContext.maxIdLength - 1))

def AttrDef.stored (a : AttrDef) : AttrInfo := ⟨some a.cutId, a.type, a.length.getD 4⟩

theorem AttrDef.cutId_eq_iff {a : AttrDef} : a.cutId = a.id ↔ a.id.length < ParserContext.maxIdLength := by
  have hlist : a.cutId = a.id ↔ a.id.toList.take (ParserContext.maxIdLength - 1) = a.id.toList := by
    constructor
    · intro h
      have htoList := congrArg String.toList h
      rwa [cutId, String.toList_ofList] at htoList
    · intro h
      rw [cutId, h, String.ofList_toList]
  rw [hlist, ← String.length_toList]
  constructor
  · intro h
    have hlen := congrArg List.length h
    rw [List.length_take] at hlen
    have hmax : ParserContext.maxIdLength - 1 < ParserContext.maxIdLength := by decide
    omega
  · intro h
    exact List.take_of_length_le (Nat.le_sub_one_of_lt h)

theorem AttrDef.stored_eq_iff {a : AttrDef} : a.stored = a.meaning ↔ a.id.length < ParserContext.maxIdLength := by
  rw [← cutId_eq_iff, stored, meaning, AttrInfo.mk.injEq, Option.some.injEq]
  exact and_iff_left ⟨rfl, rfl⟩

namespace ParserContext

variable {c : ParserContext} {r : Option String} {attrs : List AttrInfo}

theorem attrDef_first (a : AttrDef) (h : c.query = none) :
    ∃ c', c.attrDef a = .ok c' ∧ c'.query = some (.createTable none [a.stored]) := by
  obtain ⟨query, values, conditions, comp, cid⟩ := c
  cases h
  exact ⟨_, rfl, rfl⟩

theorem attrDef_next (a : AttrDef) (h : c.query = some (.createTable r attrs)) :
    ∃ c', c.attrDef a = .ok c' ∧ c'.query = some (.createTable r (attrs ++ [a.stored])) := by
  obtain ⟨query, values, conditions, comp, cid⟩ := c
  cases h
  exact ⟨_, rfl, rfl⟩

theorem attrDefList_next (as : List AttrDef) (h : c.query = some (.createTable r attrs)) :
    ∃ c', c.attrDefList as = .ok c' ∧ c'.query = some (.createTable r (attrs ++ as.map AttrDef.stored)) := by
  induction as generalizing c attrs with
  | nil => exact ⟨c, rfl, by simpa using h⟩
  | cons a as ih =>
    obtain ⟨c1, h1, hq1⟩ := attrDef_next a h
    obtain ⟨c2, h2, hq2⟩ := ih hq1
    refine ⟨c2, ?_, ?_⟩
    · rw [attrDefList, h1]
      exact h2
    · rw [hq2, List.map_cons, List.append_assoc, List.singleton_append]

theorem createTable_query (outside : Nat → Value) (rel : String) (first : AttrDef) (rest : List AttrDef) :
    ∃ c, new.command outside (.createTable rel first rest) = .ok c ∧
      c.query = some (.createTable (some rel) ((first :: rest).map AttrDef.stored)) := by
  obtain ⟨c1, h1, hq1⟩ := attrDef_first (c := new) first rfl
  obtain ⟨⟨query, values, conditions, comp, cid⟩, h2, hq2⟩ := attrDefList_next rest hq1
  cases hq2
  refine ⟨⟨some (.createTable (some rel) ((first :: rest).map AttrDef.stored)), values, conditions, comp, cid⟩,
    ?_, rfl⟩
  unfold command
  simp only [attrDefList, h1, h2, bind, Except.bind]
  rfl

end ParserContext

/-! ## Columns of the table -/

/-- Every column of a new table is found by its name. -/
theorem TableMeta.getField_of_init {rel name : String} {as : List AttrInfo} {m : TableMeta}
    (h : init (some rel) as = .ok m) (hname : some name ∈ as.map AttrInfo.attrName) :
    ∃ f, m.getField name = some f := by
  obtain ⟨fs, hfields, hlayout, rfl, -, -⟩ := init_layout h
  rw [List.map_map] at hname
  obtain ⟨f, hf, heq⟩ := List.mem_map.mp hname
  have hmem : f ∈ m.fields := by
    rw [hfields]
    exact List.mem_append_right _ hf
  cases heq
  unfold getField
  rw [if_neg (hlayout.checked f hmem).name]
  exact Option.isSome_iff_exists.mp (List.find?_isSome.mpr ⟨f, hmem, beq_self_eq_true _⟩)

/-! ## CREATE TABLE -/

/-- The statement on its own leaves a query with exactly the declared columns; so each can be named once the
table is there, and no two names become one. -/
structure KeepsColumns (rel : String) (columns : List AttrDef)
    (result : Except Fault ParserContext) : Prop where
  query : ∃ c, result = .ok c ∧ c.query = some (.createTable (some rel) (columns.map AttrDef.meaning))
  named : ∀ c attrs m, result = .ok c → c.query = some (.createTable (some rel) attrs) →
    TableMeta.init (some rel) attrs = .ok m → ∀ a ∈ columns, ∃ f, m.getField a.id = some f
  distinct : ∀ c (attrs : List AttrInfo), result = .ok c → c.query = some (.createTable (some rel) attrs) →
    ∀ (i j : Nat) (a b : AttrDef), columns[i]? = some a → columns[j]? = some b → a.id ≠ b.id →
      (attrs[i]?).map AttrInfo.attrName ≠ (attrs[j]?).map AttrInfo.attrName

section CreateTable

variable {rel : String} {columns : List AttrDef} {c : ParserContext}

theorem keepsColumns_of_query
    (h : c.query = some (.createTable (some rel) (columns.map AttrDef.meaning))) :
    KeepsColumns rel columns (.ok c) := by
  have hattrs : ∀ c' (attrs : List AttrInfo), (.ok c : Except Fault ParserContext) = .ok c' →
      c'.query = some (.createTable (some rel) attrs) → attrs = columns.map AttrDef.meaning := by
    intro c' attrs hc hq
    cases hc
    rw [h] at hq
    cases hq
    rfl
  refine ⟨⟨c, rfl, h⟩, ?_, ?_⟩
  · intro c' attrs m hc hq hm a ha
    cases hattrs c' attrs hc hq
    refine TableMeta.getField_of_init hm ?_
    rw [List.map_map]
    exact List.mem_map_of_mem (f := AttrInfo.attrName ∘ AttrDef.meaning) ha
  · intro c' attrs hc hq i j a b hi hj hab heq
    cases hattrs c' attrs hc hq
    rw [List.getElem?_map, List.getElem?_map, hi, hj] at heq
    exact hab (Option.some.inj (Option.some.inj heq))

/-- A CREATE TABLE keeps its columns exactly if no name is longer than the buffer. -/
theorem createTable_keepsColumns_iff (outside : Nat → Value) (rel : String) (first : AttrDef)
    (rest : List AttrDef) :
    KeepsColumns rel (first :: rest)
        (ParserContext.new.command outside (.createTable rel first rest)) ↔
      ∀ a ∈ first :: rest, a.id.length < ParserContext.maxIdLength := by
  obtain ⟨c, hc, hq⟩ := ParserContext.createTable_query outside rel first rest
  rw [hc]
  constructor
  · intro h a ha
    obtain ⟨c', hc', hq'⟩ := h.query
    cases hc'
    rw [hq] at hq'
    have hmap := (Query.createTable.inj (Option.some.inj hq')).2
    exact AttrDef.stored_eq_iff.mp (List.map_inj_left.mp hmap a ha)
  · intro h
    apply keepsColumns_of_query
    rw [hq, List.map_congr_left fun a ha => AttrDef.stored_eq_iff.mpr (h a ha)]

/-- Two columns whose names agree in the first 19 characters are stored under one name. -/
theorem not_keepsColumns : ¬KeepsColumns "t"
    [⟨"abcdefghijklmnopqrst1", .ints, none⟩, ⟨"abcdefghijklmnopqrst2", .ints, none⟩]
    (ParserContext.new.command (fun _ => .undefined) (.createTable "t"
      ⟨"abcdefghijklmnopqrst1", .ints, none⟩ [⟨"abcdefghijklmnopqrst2", .ints, none⟩])) := by
  intro h
  exact h.distinct _ _ rfl rfl 0 1 _ _ rfl rfl (by decide) (by decide)

end CreateTable

end Idmbs
