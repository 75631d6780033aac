import Mathlib.Data.List.Basic
import Mathlib.Data.List.Infix
import Mathlib.Tactic.Common

/-!
# Idmbs.Lib.RedoLog

Redo from a log of blocks. A block is the changes of one owner and behind them its commit. The records of the
owners that committed are redone in the order of the log; of a log that breaks off in a block, those are the
blocks before it.
-/

/-- How the records of a log are read: whose they are, which of them are commits, and what they change. -/
structure RedoLog (ρ ι σ : Type) where
  owner : ρ → ι
  commits : ρ → Bool
  apply : σ → ρ → σ
  still : ∀ s r, commits r = true → apply s r = s

namespace RedoLog

variable {ρ ι σ : Type} (c : RedoLog ρ ι σ)

def Committed (log : List ρ) (i : ι) : Prop := ∃ r ∈ log, c.commits r = true ∧ c.owner r = i

instance [DecidableEq ι] (log : List ρ) (i : ι) : Decidable (c.Committed log i) :=
  inferInstanceAs (Decidable (∃ r ∈ log, c.commits r = true ∧ c.owner r = i))

/-- The changes of the owners that committed. -/
def replay [DecidableEq ι] (log : List ρ) (s : σ) : σ :=
  (log.filter fun r => !c.commits r && decide (c.Committed log (c.owner r))).foldl c.apply s

/-- The changes of `i` and its commit. -/
structure IsBlock (i : ι) (b : List ρ) : Prop where
  owned : ∀ r ∈ b, c.owner r = i
  closed : ∃ changes last, b = changes ++ [last] ∧ c.commits last = true ∧ ∀ r ∈ changes, c.commits r = false

/-- Blocks of different owners. -/
structure AreBlocks (blocks : List (ι × List ρ)) : Prop where
  block : ∀ b ∈ blocks, c.IsBlock b.1 b.2
  distinct : (blocks.map Prod.fst).Nodup

abbrev join (blocks : List (ι × List ρ)) : List ρ := blocks.flatMap Prod.snd

variable {c} {blocks pre : List (ι × List ρ)} {b : ι × List ρ} {p : List ρ} {r : ρ} {s : σ}

theorem AreBlocks.nil : c.AreBlocks [] := ⟨fun _ hb => absurd hb List.not_mem_nil, .nil⟩

theorem AreBlocks.cons {i : ι} {log : List ρ} (h : c.AreBlocks blocks) (hb : c.IsBlock i log)
    (hnew : i ∉ blocks.map Prod.fst) : c.AreBlocks ((i, log) :: blocks) where
  block b' hb' := by
    rcases List.mem_cons.mp hb' with rfl | hb'
    · exact hb
    · exact h.block b' hb'
  distinct := List.nodup_cons.mpr ⟨hnew, h.distinct⟩

theorem AreBlocks.tail (h : c.AreBlocks (b :: blocks)) : c.AreBlocks blocks where
  block b' hb' := h.block b' (List.mem_cons_of_mem b hb')
  distinct := (List.nodup_cons.mp h.distinct).2

theorem AreBlocks.of_prefix (h : c.AreBlocks blocks) (hpre : pre <+: blocks) : c.AreBlocks pre where
  block b hb := h.block b (hpre.subset hb)
  distinct := h.distinct.sublist (hpre.sublist.map Prod.fst)

theorem AreBlocks.owner_mem (h : c.AreBlocks blocks) (hr : r ∈ join blocks) : c.owner r ∈ blocks.map Prod.fst := by
  obtain ⟨b, hb, hmem⟩ := List.mem_flatMap.mp hr
  rw [(h.block b hb).owned r hmem]
  exact List.mem_map_of_mem hb

theorem AreBlocks.committed (h : c.AreBlocks blocks) (hr : r ∈ join blocks) :
    c.Committed (join blocks) (c.owner r) := by
  obtain ⟨b, hb, hmem⟩ := List.mem_flatMap.mp hr
  obtain ⟨changes, last, heq, hlast, -⟩ := (h.block b hb).closed
  have hin : last ∈ b.2 := by
    rw [heq]
    exact List.mem_append_right changes List.mem_cons_self
  refine ⟨last, List.mem_flatMap.mpr ⟨b, hb, hin⟩, hlast, ?_⟩
  rw [(h.block b hb).owned last hin, (h.block b hb).owned r hmem]

theorem AreBlocks.countP_commits (h : c.AreBlocks blocks) : (join blocks).countP c.commits = blocks.length := by
  induction blocks with
  | nil => rfl
  | cons b blocks ih =>
    obtain ⟨changes, last, heq, hlast, hchanges⟩ := (h.block b List.mem_cons_self).closed
    have hnone : changes.countP c.commits = 0 := by
      rw [List.countP_eq_zero]
      intro r hr
      rw [hchanges r hr]
      exact Bool.false_ne_true
    have hone : b.2.countP c.commits = 1 := by
      rw [heq, List.countP_append, hnone, List.countP_singleton, if_pos hlast]
    rw [join, List.flatMap_cons, List.countP_append, hone, ih h.tail, List.length_cons, Nat.add_comm]

/-- Where a log of blocks breaks off: behind some blocks come records of one that has not committed. -/
theorem AreBlocks.cut (h : c.AreBlocks blocks) (hp : p <+: join blocks) : ∃ pre t, pre <+: blocks ∧
    p = join pre ++ t ∧ ∀ r ∈ t, c.commits r = false ∧ c.owner r ∉ pre.map Prod.fst := by
  induction blocks generalizing p with
  | nil =>
    refine ⟨[], [], List.nil_prefix, ?_, fun r hr => absurd hr List.not_mem_nil⟩
    exact List.prefix_nil.mp hp
  | cons b blocks ih =>
    obtain ⟨changes, last, heq, -, hchanges⟩ := (h.block b List.mem_cons_self).closed
    have hfirst : b.2 <+: join (b :: blocks) := List.prefix_append ..
    rcases List.prefix_or_prefix_of_prefix hp hfirst with hin | ⟨q, rfl⟩
    · rw [heq, List.prefix_concat_iff, ← heq] at hin
      rcases hin with rfl | hin
      · refine ⟨[b], [], by simp, by simp, fun r hr => absurd hr List.not_mem_nil⟩
      · refine ⟨[], p, List.nil_prefix, rfl, fun r hr => ⟨hchanges r (hin.subset hr), List.not_mem_nil⟩⟩
    · have hq : q <+: join blocks := (List.prefix_append_right_inj b.2).mp hp
      obtain ⟨pre, t, hpre, rfl, ht⟩ := ih h.tail hq
      refine ⟨b :: pre, t, List.cons_prefix_cons.mpr ⟨rfl, hpre⟩, by simp, fun r hr => ⟨(ht r hr).1, ?_⟩⟩
      rw [List.map_cons, List.mem_cons, not_or]
      refine ⟨fun he => ?_, (ht r hr).2⟩
      have hmem := h.tail.owner_mem (hq.subset (List.mem_append_right _ hr))
      rw [he] at hmem
      exact (List.nodup_cons.mp h.distinct).1 hmem

/-- Records that change nothing may be left out. -/
theorem foldl_filter_still {apply : σ → ρ → σ} {P Q : ρ → Bool} (log : List ρ) (s : σ)
    (h : ∀ s, ∀ r ∈ log, P r ≠ Q r → apply s r = s) :
    (log.filter P).foldl apply s = (log.filter Q).foldl apply s := by
  induction log generalizing s with
  | nil => rfl
  | cons r log ih =>
    have hlog : ∀ s, ∀ r ∈ log, P r ≠ Q r → apply s r = s := fun s q hq => h s q (List.mem_cons_of_mem r hq)
    have hr := h s r List.mem_cons_self
    cases hP : P r with
    | true =>
      cases hQ : Q r with
      | true => simp [hP, hQ, ih _ hlog]
      | false =>
        rw [hP, hQ] at hr
        simp [hP, hQ, hr (Ne.symm Bool.false_ne_true), ih _ hlog]
    | false =>
      cases hQ : Q r with
      | true =>
        rw [hP, hQ] at hr
        simp [hP, hQ, hr Bool.false_ne_true, ih _ hlog]
      | false => simp [hP, hQ, ih _ hlog]

theorem foldl_changes (log : List ρ) (s : σ) :
    (log.filter fun r => !c.commits r).foldl c.apply s = log.foldl c.apply s := by
  have hall : log.filter (fun _ => true) = log := List.filter_true log
  conv_rhs => rw [← hall]
  refine foldl_filter_still log s fun s r _ hne => c.still s r ?_
  simpa using hne

/-- The blocks whose commit is in the log are redone, and nothing else. -/
theorem AreBlocks.replay_cut [DecidableEq ι] (h : c.AreBlocks blocks) (hp : p <+: join blocks) (s : σ) :
    ∃ pre, pre <+: blocks ∧ join pre <+: p ∧ p.countP c.commits = pre.length ∧
      c.replay p s = (join pre).foldl c.apply s := by
  obtain ⟨pre, t, hpre, rfl, ht⟩ := h.cut hp
  have hblocks := h.of_prefix hpre
  have hnone : t.countP c.commits = 0 := by
    rw [List.countP_eq_zero]
    intro r hr
    rw [(ht r hr).1]
    exact Bool.false_ne_true
  refine ⟨pre, hpre, List.prefix_append .., ?_, ?_⟩
  · rw [List.countP_append, hblocks.countP_commits, hnone, Nat.add_zero]
  · have hfront : ∀ r ∈ join pre, c.Committed (join pre ++ t) (c.owner r) := by
      intro r hr
      obtain ⟨last, hlast, hcommit⟩ := hblocks.committed hr
      exact ⟨last, List.mem_append_left t hlast, hcommit⟩
    have hback : ∀ r ∈ t, ¬c.Committed (join pre ++ t) (c.owner r) := by
      rintro r hr ⟨last, hlast, hcommit, howner⟩
      rcases List.mem_append.mp hlast with hlast | hlast
      · refine (ht r hr).2 ?_
        rw [← howner]
        exact hblocks.owner_mem hlast
      · rw [(ht last hlast).1] at hcommit
        cases hcommit
    have hkept : ((join pre ++ t).filter fun r => !c.commits r && decide (c.Committed (join pre ++ t) (c.owner r))) =
        (join pre).filter fun r => !c.commits r := by
      rw [List.filter_append]
      have hleft : (t.filter fun r => !c.commits r && decide (c.Committed (join pre ++ t) (c.owner r))) = [] := by
        rw [List.filter_eq_nil_iff]
        intro r hr
        simp [hback r hr]
      rw [hleft, List.append_nil]
      refine List.filter_congr fun r hr => ?_
      simp [hfront r hr]
    rw [replay, hkept, foldl_changes]

end RedoLog
