import Idmbs.BPlusTree.Node
import Idmbs.Common.CommonDefs
import Idmbs.Lib.Comparator
import Mathlib.Order.Interval.Finset.Defs
import Mathlib.Data.Int.Interval

/-!
# Idmbs.BPlusTree.KeyOrder

When the order of index keys (`KeyComparator::operator()`, `RecordId::Compare`) is a total order on a
set of keys.
-/

namespace Idmbs

open Comparator CString

namespace RecordId

/-- `RecordId::Compare`: equal pages answer 0, other pages leave it to the slots. -/
def compare (rid1 rid2 : RecordId) : Int :=
  if wrap32 (rid1.pageId - rid2.pageId) = 0 then wrap32 (rid1.pageId - rid2.pageId)
  else wrap32 (rid1.slotId - rid2.slotId)

/-- Page and slot are not negative. -/
structure Valid (rid : RecordId) : Prop where
  page : 0 ≤ rid.pageId ∧ rid.pageId ≤ int32Max
  slot : 0 ≤ rid.slotId ∧ rid.slotId ≤ int32Max

variable {rid rid1 rid2 : RecordId}

theorem compare_eq (h1 : rid1.Valid) (h2 : rid2.Valid) :
    compare rid1 rid2 = if rid1.pageId = rid2.pageId then 0 else rid1.slotId - rid2.slotId := by
  obtain ⟨⟨hp1, hp1'⟩, hs1, hs1'⟩ := h1
  obtain ⟨⟨hp2, hp2'⟩, hs2, hs2'⟩ := h2
  unfold int32Max at *
  unfold compare
  rw [wrap32_of_inInt32 ⟨by omega, by omega⟩, wrap32_of_inInt32 ⟨by omega, by omega⟩]
  split <;> split <;> omega

theorem min_valid : min.Valid := ⟨⟨le_refl _, by decide⟩, ⟨le_refl _, by decide⟩⟩

theorem max_valid : max.Valid := ⟨⟨by decide, le_refl _⟩, ⟨by decide, le_refl _⟩⟩

theorem min_compare_le (h : rid.Valid) : compare min rid ≤ 0 := by
  rw [compare_eq min_valid h]
  have := h.slot
  by_cases hp : min.pageId = rid.pageId
  · rw [if_pos hp]
  · rw [if_neg hp]
    exact Int.sub_nonpos_of_le this.1

theorem compare_max_le (h : rid.Valid) : compare rid max ≤ 0 := by
  rw [compare_eq h max_valid]
  have := h.slot
  by_cases hp : rid.pageId = max.pageId
  · rw [if_pos hp]
  · rw [if_neg hp]
    exact Int.sub_nonpos_of_le this.2

end RecordId

section Order

variable {α : Type} {ac : α → α → Int} {same : α → α → Prop} {K : Set (Key α)} {a b c : Key α}

/-- The law of the index on the keys of `K`; `same` says which attribute values are equal. -/
structure TotalKeyOrder (cmp : Key α → Key α → Int) (same : α → α → Prop) (K : Set (Key α)) : Prop where
  total : TotalOn cmp (fun a b => same a.attr b.attr ∧ a.rid = b.rid) K
  min_le : ∀ a ∈ K, cmp ⟨a.attr, .min⟩ a ≤ 0
  le_max : ∀ a ∈ K, cmp a ⟨a.attr, .max⟩ ≤ 0

/-- No two records with one attribute value share their page or their slot number. -/
def RidsApart (same : α → α → Prop) (K : Set (Key α)) : Prop :=
  ∀ a ∈ K, ∀ b ∈ K, same a.attr b.attr →
    a.rid = b.rid ∨ (a.rid.pageId ≠ b.rid.pageId ∧ a.rid.slotId ≠ b.rid.slotId)

theorem keyComparator_of_ne (h : ac a.attr b.attr ≠ 0) :
    keyComparator ac RecordId.compare a b = ac a.attr b.attr := if_pos h

theorem keyComparator_of_eq (h : ac a.attr b.attr = 0) :
    keyComparator ac RecordId.compare a b = RecordId.compare a.rid b.rid := if_neg (not_not.mpr h)

/-- With rids apart, keys of one attribute value are ordered by their slots. -/
theorem RidsApart.compare (h : RidsApart same K) (hrid : ∀ a ∈ K, a.rid.Valid) (ha : a ∈ K) (hb : b ∈ K)
    (hsame : same a.attr b.attr) :
    RecordId.compare a.rid b.rid = a.rid.slotId - b.rid.slotId := by
  rw [RecordId.compare_eq (hrid a ha) (hrid b hb)]
  rcases h a ha b hb hsame with he | ⟨hp, -⟩
  · rw [he, if_pos rfl, Int.sub_self]
  · exact if_neg hp

theorem RidsApart.eq_iff (h : RidsApart same K) (ha : a ∈ K) (hb : b ∈ K) (hsame : same a.attr b.attr) :
    a.rid.slotId = b.rid.slotId ↔ a.rid = b.rid := by
  constructor
  · intro hs
    rcases h a ha b hb hsame with he | ⟨-, hne⟩
    · exact he
    · exact absurd hs hne
  · intro he
    rw [he]

theorem keyComparator_bounds (hself : ∀ a ∈ K, ac a.attr a.attr = 0) (hrid : ∀ a ∈ K, a.rid.Valid) :
    (∀ a ∈ K, keyComparator ac RecordId.compare ⟨a.attr, .min⟩ a ≤ 0) ∧
    ∀ a ∈ K, keyComparator ac RecordId.compare a ⟨a.attr, .max⟩ ≤ 0 := by
  refine ⟨fun a ha => ?_, fun a ha => ?_⟩
  · have h := keyComparator_of_eq (a := ⟨a.attr, .min⟩) (b := a) (hself a ha)
    rw [h]
    exact RecordId.min_compare_le (hrid a ha)
  · have h := keyComparator_of_eq (a := a) (b := ⟨a.attr, .max⟩) (hself a ha)
    rw [h]
    exact RecordId.compare_max_le (hrid a ha)

theorem TotalKeyOrder.ridsApart (h : TotalKeyOrder (keyComparator ac RecordId.compare) same K)
    (hrid : ∀ a ∈ K, a.rid.Valid)
    (hac : ∀ a ∈ K, ∀ b ∈ K, ac a.attr b.attr = 0 ↔ same a.attr b.attr) : RidsApart same K := by
  intro a ha b hb hsame
  have h0 := (hac a ha b hb).mpr hsame
  by_contra hne
  rw [not_or, not_and_or, not_not, not_not] at hne
  obtain ⟨hne, hpage⟩ := hne
  have hcmp : keyComparator ac RecordId.compare a b = 0 := by
    rw [keyComparator_of_eq h0, RecordId.compare_eq (hrid a ha) (hrid b hb)]
    split
    · rfl
    · rcases hpage with hp | hs
      · contradiction
      · omega
  exact hne ((h.total.eq_iff a ha b hb).mp hcmp).2

theorem totalKeyOrder_of_ridsApart (h : RidsApart same K) (hrid : ∀ a ∈ K, a.rid.Valid)
    (hac : TotalOn ac same (Key.attr '' K)) : TotalKeyOrder (keyComparator ac RecordId.compare) same K := by
  have hin : ∀ a ∈ K, a.attr ∈ Key.attr '' K := fun a ha => Set.mem_image_of_mem _ ha
  -- a key is compared by its attribute, then by its slot
  have hcmp : ∀ a ∈ K, ∀ b ∈ K, keyComparator ac RecordId.compare a b =
      if ac a.attr b.attr ≠ 0 then ac a.attr b.attr else a.rid.slotId - b.rid.slotId := by
    intro a ha b hb
    unfold keyComparator
    by_cases h0 : ac a.attr b.attr = 0
    · simp only [h0, ne_eq, not_true_eq_false, if_false]
      exact h.compare hrid ha hb ((hac.eq_iff _ (hin a ha) _ (hin b hb)).mp h0)
    · simp only [ne_eq, h0, not_false_eq_true, if_true]
  have hbounds := keyComparator_bounds (fun a ha => hac.self (hin a ha)) hrid
  refine ⟨⟨fun a ha b hb => ?_, fun a ha b hb c hc => ?_, fun a ha b hb => ?_⟩, hbounds.1, hbounds.2⟩
  · rw [hcmp a ha b hb, hcmp b hb a ha, sign_eq_neg_sign_iff]
    have h1 := hac.gt_iff (hin a ha) (hin b hb)
    have h2 := hac.gt_iff (hin b hb) (hin a ha)
    split <;> split <;> omega
  · rw [hcmp a ha b hb, hcmp b hb c hc, hcmp a ha c hc]
    have hab := hac.gt_iff (hin a ha) (hin b hb)
    have hbc := hac.gt_iff (hin b hb) (hin c hc)
    have hba := hac.gt_iff (hin b hb) (hin a ha)
    have hcb := hac.gt_iff (hin c hc) (hin b hb)
    have hca := hac.gt_iff (hin c hc) (hin a ha)
    have hac' := hac.gt_iff (hin a ha) (hin c hc)
    have h1 := hac.trans _ (hin a ha) _ (hin b hb) _ (hin c hc)
    have h2 := hac.trans _ (hin c hc) _ (hin a ha) _ (hin b hb)
    have h3 := hac.trans _ (hin b hb) _ (hin c hc) _ (hin a ha)
    split <;> split <;> split <;> omega
  · rw [hcmp a ha b hb]
    by_cases h0 : ac a.attr b.attr = 0
    · have hsame := (hac.eq_iff _ (hin a ha) _ (hin b hb)).mp h0
      have hslot := h.eq_iff ha hb hsame
      rw [if_neg (not_not.mpr h0), ← hslot, and_iff_right hsame]
      omega
    · rw [if_pos h0]
      refine iff_of_false h0 fun hsame => h0 ?_
      exact (hac.eq_iff _ (hin a ha) _ (hin b hb)).mpr hsame.1

end Order

section Ints

variable {K : Set (Key Int)} {V : Set Int}

/-- Seen as 32-bit words, the values start at one of them and reach less than half way round. -/
def WithinHalf (V : Set Int) : Prop := ∃ w, ∀ v ∈ V, (v - w) % 2 ^ 32 < 2 ^ 31

theorem WithinHalf.totalOn (h : WithinHalf V) (hV : ∀ v ∈ V, InInt32 v) : TotalOn compareInt Eq V := by
  obtain ⟨w, hw⟩ := h
  -- the distance from `w` is the number that the machine difference compares
  have hcmp : ∀ a ∈ V, ∀ b ∈ V, compareInt a b = (a - w) % 2 ^ 32 - (b - w) % 2 ^ 32 := by
    intro a ha b hb
    have h1 := hw a ha
    have h2 := hw b hb
    rw [compareInt, wrap32_eq]
    split <;> omega
  refine ⟨fun a ha b hb => ?_, fun a ha b hb c hc => ?_, fun a ha b hb => ?_⟩
  · rw [hcmp a ha b hb, hcmp b hb a ha, sign_eq_neg_sign_iff]
    omega
  · rw [hcmp a ha b hb, hcmp b hb c hc, hcmp a ha c hc]
    omega
  · exact compareInt_eq_zero_iff (hV a ha) (hV b hb)

theorem withinHalf_of_totalOn (h : TotalOn compareInt Eq V) (hV : ∀ v ∈ V, InInt32 v) :
    WithinHalf V := by
  have hfin : V.Finite := (Set.finite_Icc (-2 ^ 31 : Int) (2 ^ 31)).subset fun v hv =>
    ⟨(hV v hv).1, le_of_lt (hV v hv).2⟩
  rcases V.eq_empty_or_nonempty with rfl | hne
  · exact ⟨0, fun v hv => absurd hv (Set.notMem_empty v)⟩
  · obtain ⟨w, hw, hleast⟩ := h.exists_least hfin (le_refl V) hne
    refine ⟨w, fun v hv => ?_⟩
    have h1 := hleast v hv
    have h2 := h.gt_iff hw hv
    have h3 := h.eq_iff w hw v hv
    have hwr := hV w hw
    have hvr := hV v hv
    rw [compareInt, wrap32_eq] at h1 h2 h3
    rw [compareInt, wrap32_eq] at h2
    split at h1 <;> split at h2 <;> omega

theorem TotalKeyOrder.totalOn_attr
    (h : TotalKeyOrder (keyComparator compareInt RecordId.compare) Eq K) (hK : ∀ a ∈ K, InInt32 a.attr) :
    TotalOn compareInt Eq (Key.attr '' K) := by
  have hcmp : ∀ a ∈ K, ∀ b ∈ K, a.attr ≠ b.attr →
      keyComparator compareInt RecordId.compare a b = compareInt a.attr b.attr := fun a ha b hb hne =>
    keyComparator_of_ne fun h0 => hne ((compareInt_eq_zero_iff (hK a ha) (hK b hb)).mp h0)
  have hself : ∀ v, compareInt v v = 0 := fun v => by rw [compareInt, Int.sub_self]; rfl
  refine ⟨?_, ?_, ?_⟩
  · rintro _ ⟨a, ha, rfl⟩ _ ⟨b, hb, rfl⟩
    by_cases hab : a.attr = b.attr
    · rw [hab, hself]
      rfl
    · rw [← hcmp a ha b hb hab, ← hcmp b hb a ha (Ne.symm hab)]
      exact h.total.antisymm a ha b hb
  · rintro _ ⟨a, ha, rfl⟩ _ ⟨b, hb, rfl⟩ _ ⟨c, hc, rfl⟩ h1 h2
    by_cases hab : a.attr = b.attr
    · rwa [hab]
    · by_cases hbc : b.attr = c.attr
      · rwa [← hbc]
      · by_cases hac : a.attr = c.attr
        · rw [hac, hself]
        · rw [← hcmp a ha b hb hab] at h1
          rw [← hcmp b hb c hc hbc] at h2
          rw [← hcmp a ha c hc hac]
          exact h.total.trans a ha b hb c hc h1 h2
  · rintro _ ⟨a, ha, rfl⟩ _ ⟨b, hb, rfl⟩
    exact compareInt_eq_zero_iff (hK a ha) (hK b hb)

theorem intsKeys_iff (hattr : ∀ a ∈ K, InInt32 a.attr) (hrid : ∀ a ∈ K, a.rid.Valid) :
    TotalKeyOrder (keyComparator compareInt RecordId.compare) Eq K ↔
      WithinHalf (Key.attr '' K) ∧ RidsApart Eq K := by
  have hV : ∀ v ∈ Key.attr '' K, InInt32 v := by
    rintro _ ⟨a, ha, rfl⟩
    exact hattr a ha
  constructor
  · intro h
    have hac := h.totalOn_attr hattr
    refine ⟨withinHalf_of_totalOn hac hV, h.ridsApart hrid fun a ha b hb => ?_⟩
    exact compareInt_eq_zero_iff (hattr a ha) (hattr b hb)
  · rintro ⟨hhalf, hrids⟩
    exact totalKeyOrder_of_ridsApart hrids hrid (hhalf.totalOn hV)

end Ints

section Chars

variable {K : Set (Key Pointer)} {attrLength : Nat}

/-- `AttrComparator` for `Chars`. -/
def charsComparator (attrLength : Nat) (v1 v2 : Pointer) : Int :=
  compareString v1 attrLength v2 attrLength

/-- Equal as strings up to the first NUL. -/
def SameText (attrLength : Nat) (v1 v2 : Pointer) : Prop := text v1 attrLength = text v2 attrLength

theorem charsComparator_totalOn (attrLength : Nat) (V : Set Pointer) :
    TotalOn (charsComparator attrLength) (SameText attrLength) V := by
  have hcmp : ∀ a b, charsComparator attrLength a b = strncmp a b attrLength := fun a b =>
    compareString_self_length a b attrLength
  refine ⟨fun a _ b _ => ?_, fun a _ b _ c _ => ?_, fun a _ b _ => ?_⟩
  · rw [hcmp, hcmp, sign_eq_neg_sign_iff, strncmp_neg_iff, strncmp_pos_iff, strncmp_eq_zero_iff,
      strncmp_eq_zero_iff]
    exact ⟨Iff.rfl, eq_comm⟩
  · rw [hcmp, hcmp, hcmp, ← not_lt, ← not_lt, ← not_lt, strncmp_pos_iff, strncmp_pos_iff,
      strncmp_pos_iff, not_lt, not_lt, not_lt]
    exact le_trans
  · rw [hcmp]
    exact strncmp_eq_zero_iff

theorem charsKeys_iff (hrid : ∀ a ∈ K, a.rid.Valid) :
    TotalKeyOrder (keyComparator (charsComparator attrLength) RecordId.compare) (SameText attrLength) K ↔
      RidsApart (SameText attrLength) K := by
  have hac := charsComparator_totalOn attrLength (Key.attr '' K)
  constructor
  · intro h
    refine h.ridsApart hrid fun a ha b hb => ?_
    exact hac.eq_iff _ (Set.mem_image_of_mem _ ha) _ (Set.mem_image_of_mem _ hb)
  · intro hrids
    exact totalKeyOrder_of_ridsApart hrids hrid hac

end Chars

/-- The order of the keys of `K` is total exactly when the `Ints` values lie within half of the 32-bit
circle, and no two records of one value share their page or their slot number. -/
theorem keyComparator_totalKeyOrder_iff (K : Set (Key Int)) (attrLength : Nat) (L : Set (Key Pointer))
    (hattr : ∀ a ∈ K, InInt32 a.attr) (hrid : ∀ a ∈ K, a.rid.Valid) (hrid' : ∀ a ∈ L, a.rid.Valid) :
    (TotalKeyOrder (keyComparator compareInt RecordId.compare) Eq K ↔
      WithinHalf (Key.attr '' K) ∧ RidsApart Eq K) ∧
    (TotalKeyOrder (keyComparator (charsComparator attrLength) RecordId.compare) (SameText attrLength) L ↔
      RidsApart (SameText attrLength) L) :=
  ⟨intsKeys_iff hattr hrid, charsKeys_iff hrid'⟩

/-- Two values next to each other, on pages and slots of their own. -/
theorem keyComparator_totalKeyOrder_iff_two :
    TotalKeyOrder (keyComparator compareInt RecordId.compare) Eq {⟨5, ⟨1, 0⟩⟩, ⟨7, ⟨2, 1⟩⟩} := by
  refine (keyComparator_totalKeyOrder_iff _ 0 ∅ ?_ ?_ fun _ h => nomatch h).1.mpr ⟨⟨5, ?_⟩, ?_⟩
  · rintro a (rfl | rfl) <;> decide
  · rintro a (rfl | rfl) <;> exact ⟨by decide, by decide⟩
  · rintro _ ⟨a, rfl | rfl, rfl⟩ <;> decide
  · rintro a (rfl | rfl) b (rfl | rfl) <;> decide

/-- Two records of one page and one value compare as equal. -/
theorem not_totalKeyOrder_same_page :
    ¬TotalKeyOrder (keyComparator compareInt RecordId.compare) Eq
      {a | InInt32 a.attr ∧ a.rid.Valid} := by
  intro h
  have h1 : (⟨5, ⟨1, 0⟩⟩ : Key Int) ∈ {a : Key Int | InInt32 a.attr ∧ a.rid.Valid} :=
    ⟨by decide, ⟨by decide, by decide⟩⟩
  have h2 : (⟨5, ⟨1, 1⟩⟩ : Key Int) ∈ {a : Key Int | InInt32 a.attr ∧ a.rid.Valid} :=
    ⟨by decide, ⟨by decide, by decide⟩⟩
  have hrid := ((h.total.eq_iff _ h1 _ h2).mp (by decide)).2
  exact absurd hrid (by decide)

end Idmbs
