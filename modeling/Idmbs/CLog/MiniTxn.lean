import Idmbs.CLog.Record
import Idmbs.Lib.RedoLog
import Mathlib.Logic.Function.Basic

/-!
# Idmbs.CLog.MiniTxn

`CLogMiniTxnManager` (storage/clog_manager.h), which `CLogFile::Recover` hands the records of the log to: the
changes, and the transactions that committed.
-/

namespace Idmbs

/-- The records of type `ρ` that are to be redone, and the entries of `txn_committed`. -/
structure CLogMiniTxnManager (ρ : Type) where
  clogRedoList : List ρ
  txnCommitted : Int → Option Bool

namespace CLogMiniTxnManager

variable {ρ σ : Type}

def new : CLogMiniTxnManager ρ := ⟨[], fun _ => none⟩

section Manage

variable (clogType : ρ → CLogType) (txnId : ρ → Int)

/-- `CLogRecordManage`; `emplace` leaves an entry that is there. -/
def clogRecordManage (m : CLogMiniTxnManager ρ) (r : ρ) : CLogMiniTxnManager ρ :=
  match clogType r with
  | .redoMiniTxnCommit => { m with txnCommitted := Function.update m.txnCommitted (txnId r) (some true) }
  | .redoMiniTxnBegin =>
    match m.txnCommitted (txnId r) with
    | some _ => m
    | none => { m with txnCommitted := Function.update m.txnCommitted (txnId r) (some false) }
  | _ => { m with clogRedoList := m.clogRedoList ++ [r] }

/-- What the manager has after the records of a log. -/
def manageAll (log : List ρ) : CLogMiniTxnManager ρ := log.foldl (clogRecordManage clogType txnId) new

/-- The changes that a redo makes: those of the transactions that committed, in the order of the log. -/
def redo (apply : σ → ρ → σ) (m : CLogMiniTxnManager ρ) (s : σ) : σ :=
  (m.clogRedoList.filter fun r => m.txnCommitted (txnId r) = some true).foldl apply s

end Manage

variable {clogType : ρ → CLogType} {txnId : ρ → Int} {m : CLogMiniTxnManager ρ} {log : List ρ} {r : ρ} {i : Int}

/-- A record is a change unless it begins or ends a transaction. -/
def IsChange (t : CLogType) : Bool := t ≠ .redoMiniTxnCommit ∧ t ≠ .redoMiniTxnBegin

theorem clogRedoList_manage : (clogRecordManage clogType txnId m r).clogRedoList =
    m.clogRedoList ++ if IsChange (clogType r) then [r] else [] := by
  unfold clogRecordManage
  cases clogType r with
  | redoMiniTxnCommit => simp [IsChange]
  | redoMiniTxnBegin =>
    simp only [IsChange]
    split
    · simp
    · simp
  | redoError => rfl
  | redoInsert => rfl
  | redoDelete => rfl
  | redoUpdate => rfl

/-- Only its commit sets the entry of a transaction to true, and nothing sets it back. -/
theorem txnCommitted_manage : (clogRecordManage clogType txnId m r).txnCommitted i = some true ↔
    m.txnCommitted i = some true ∨ (clogType r = .redoMiniTxnCommit ∧ txnId r = i) := by
  unfold clogRecordManage
  cases clogType r with
  | redoMiniTxnCommit =>
    by_cases h : i = txnId r
    · simp [h]
    · simp [h, Ne.symm h]
  | redoMiniTxnBegin =>
    simp only
    split
    · simp
    · rename_i hnone
      by_cases h : i = txnId r
      · simp [h, hnone]
      · simp [h]
  | redoError => simp
  | redoInsert => simp
  | redoDelete => simp
  | redoUpdate => simp

theorem manageAll_spec (clogType : ρ → CLogType) (txnId : ρ → Int) (log : List ρ) :
    (manageAll clogType txnId log).clogRedoList = (log.filter fun r => IsChange (clogType r)) ∧
      ∀ i, (manageAll clogType txnId log).txnCommitted i = some true ↔
        ∃ r ∈ log, clogType r = .redoMiniTxnCommit ∧ txnId r = i := by
  unfold manageAll
  induction log using List.reverseRecOn with
  | nil => simp [new]
  | append_singleton log r ih =>
    rw [List.foldl_append, List.foldl_cons, List.foldl_nil]
    refine ⟨?_, fun i => ?_⟩
    · rw [clogRedoList_manage, ih.1, List.filter_append]
      simp [List.filter_cons]
    · rw [txnCommitted_manage, ih.2]
      simp only [List.mem_append, List.mem_singleton]
      constructor
      · rintro (⟨q, hq, hcommit⟩ | hcommit)
        · exact ⟨q, .inl hq, hcommit⟩
        · exact ⟨r, .inr rfl, hcommit⟩
      · rintro ⟨q, hq | rfl, hcommit⟩
        · exact .inl ⟨q, hq, hcommit⟩
        · exact .inr hcommit

/-- What a redo makes of the records of a log, if a begin changes nothing. -/
theorem redo_manageAll (log : List ρ) (c : RedoLog ρ Int σ)
    (hcommits : ∀ r, c.commits r = true ↔ clogType r = .redoMiniTxnCommit)
    (hbegin : ∀ s r, clogType r = .redoMiniTxnBegin → c.apply s r = s) (s : σ) :
    (manageAll clogType c.owner log).redo c.owner c.apply s = c.replay log s := by
  obtain ⟨hlist, hcommitted⟩ := manageAll_spec clogType c.owner log
  have howner : ∀ i, (manageAll clogType c.owner log).txnCommitted i = some true ↔ c.Committed log i := by
    intro i
    rw [hcommitted]
    refine exists_congr fun r => and_congr_right fun _ => and_congr_left fun _ => (hcommits r).symm
  unfold redo RedoLog.replay
  rw [hlist, List.filter_filter]
  simp only [howner]
  refine RedoLog.foldl_filter_still log s fun s r _ hne => ?_
  by_cases hcommit : c.commits r = true
  · exact c.still s r hcommit
  · by_cases hb : clogType r = .redoMiniTxnBegin
    · exact hbegin s r hb
    · have hchange : IsChange (clogType r) = true := by
        simp [IsChange, hb, mt (hcommits r).mpr hcommit]
      simp [hchange, hcommit] at hne

end CLogMiniTxnManager

end Idmbs
