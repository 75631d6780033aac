import Mathlib.Data.Finset.Card
import Mathlib.Data.Multiset.AddSub
import Mathlib.Tactic.Common

/-!
# Idmbs.Lib.ItemPool

Pools of items: a set of the items in use and a list of the free ones. `Accounts p items` says that the two
together are `items`, each item once.
-/

/-- The items in use and the free ones, the next to be handed out first. -/
structure ItemPool (ι : Type) where
  used : Finset ι
  frees : List ι

namespace ItemPool

variable {ι : Type}

def take [DecidableEq ι] (p : ItemPool ι) : Option (ι × ItemPool ι) :=
  match p.frees with
  | [] => none
  | b :: fs => some (b, ⟨insert b p.used, fs⟩)

/-- An item comes back; one that is not in use is not taken. -/
def give [DecidableEq ι] (p : ItemPool ι) (b : ι) : ItemPool ι :=
  if b ∈ p.used then ⟨p.used.erase b, p.frees ++ [b]⟩ else p

def grow (p : ItemPool ι) (items : List ι) : ItemPool ι := ⟨p.used, p.frees ++ items⟩

/-- Every one of `items` is in use or free, and not both. -/
structure Accounts (p : ItemPool ι) (items : List ι) : Prop where
  all : p.used.val + (p.frees : Multiset ι) = items
  nodup : items.Nodup

variable {p : ItemPool ι} {items new : List ι} {b : ι}

namespace Accounts

theorem mem_iff (h : p.Accounts items) : b ∈ items ↔ b ∈ p.used ∨ b ∈ p.frees := by
  rw [← Multiset.mem_coe, ← h.all, Multiset.mem_add, Finset.mem_val, Multiset.mem_coe]

theorem parts_nodup (h : p.Accounts items) : (p.used.val + (p.frees : Multiset ι)).Nodup := by
  rw [h.all]
  exact Multiset.coe_nodup.mpr h.nodup

theorem frees_nodup (h : p.Accounts items) : p.frees.Nodup :=
  Multiset.coe_nodup.mp (Multiset.nodup_add.mp h.parts_nodup).2.1

theorem not_mem_frees (h : p.Accounts items) (hb : b ∈ p.used) : b ∉ p.frees := by
  have hdisj := (Multiset.nodup_add.mp h.parts_nodup).2.2
  intro hf
  exact Multiset.disjoint_left.mp hdisj hb hf

theorem card (h : p.Accounts items) : p.used.card + p.frees.length = items.length := by
  have hcard := congrArg Multiset.card h.all
  rwa [Multiset.card_add, Multiset.coe_card, Multiset.coe_card] at hcard

theorem take [DecidableEq ι] (h : p.Accounts items) {q : ItemPool ι} (ht : p.take = some (b, q)) :
    b ∉ p.used ∧ b ∈ items ∧ q.used = insert b p.used ∧ q.Accounts items := by
  rcases p with ⟨used, - | ⟨a, fs⟩⟩
  · cases ht
  · cases ht
    have hb : b ∉ used := fun hb => h.not_mem_frees hb (List.mem_cons_self ..)
    refine ⟨hb, h.mem_iff.mpr (.inr (List.mem_cons_self ..)), rfl, ⟨?_, h.nodup⟩⟩
    rw [← h.all]
    simp only
    rw [Finset.insert_val_of_notMem hb, ← Multiset.cons_coe, Multiset.cons_add, Multiset.add_cons]

theorem give [DecidableEq ι] (h : p.Accounts items) : (p.give b).Accounts items := by
  unfold ItemPool.give
  split
  · rename_i hb
    refine ⟨?_, h.nodup⟩
    rw [← h.all]
    simp only
    rw [Finset.erase_val, ← Multiset.coe_add, Multiset.coe_singleton, Multiset.add_comm (↑p.frees) {b},
      ← Multiset.add_assoc, Multiset.add_comm _ {b}, Multiset.singleton_add, Multiset.cons_erase hb]
  · exact h

theorem grow (h : p.Accounts items) (hnew : (items ++ new).Nodup) : (p.grow new).Accounts (items ++ new) := by
  refine ⟨?_, hnew⟩
  rw [← Multiset.coe_add, ← h.all, ItemPool.grow]
  simp only
  rw [← Multiset.coe_add, Multiset.add_assoc]

end Accounts

theorem accounts_empty : (⟨∅, []⟩ : ItemPool ι).Accounts [] := ⟨rfl, .nil⟩

theorem give_of_not_mem [DecidableEq ι] (h : b ∉ p.used) : p.give b = p := if_neg h

theorem take_eq_none_iff [DecidableEq ι] : p.take = none ↔ p.frees = [] := by
  rcases p with ⟨used, - | ⟨a, fs⟩⟩
  · exact ⟨fun _ => rfl, fun _ => rfl⟩
  · exact ⟨nofun, nofun⟩

end ItemPool
