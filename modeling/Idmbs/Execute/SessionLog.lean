import Idmbs.CLog.MiniTxn
import Idmbs.Execute.SessionRefines

/-!
# Idmbs.Execute.SessionLog

The log that the statements on one table write, and what a redo makes of it wherever it breaks off.
-/

namespace Idmbs

open RecordPool

namespace AppendRecord

variable {appendRecord : AppendRecord} {log log' : List LogEntry} {r : Re}

/-- The log answers `Success` to every record of `log`. -/
def TakesAll (appendRecord : AppendRecord) (log : List LogEntry) : Prop :=
  ∀ pre e, pre ++ [e] <+: log → appendRecord pre e = .success

theorem TakesAll.not_refused (h : appendRecord.TakesAll log') (log : List LogEntry) :
    ¬appendRecord.Refused log log' r := by
  rintro ⟨hr, pre, e, rfl, -, hcode⟩
  exact hr (hcode.symm.trans (h pre e List.prefix_rfl))

theorem TakesAll.of_prefix (h : appendRecord.TakesAll log') (hlog : log <+: log') : appendRecord.TakesAll log :=
  fun pre e hpre => h pre e (hpre.trans hlog)

end AppendRecord

namespace LogEntry

def clogType : LogEntry → CLogType
  | .redoInsert .. => .redoInsert
  | .redoDelete .. => .redoDelete
  | .redoMiniTxnCommit _ => .redoMiniTxnCommit

def txnId : LogEntry → Int
  | .redoInsert txnId _ _ => txnId
  | .redoDelete txnId _ => txnId
  | .redoMiniTxnCommit txnId => txnId

/-- What a record of the log says about the records of the table. -/
def redo (stored : Slot → Option (List UInt8)) : LogEntry → Slot → Option (List UInt8)
  | .redoInsert _ rid data => Function.update stored rid (some data)
  | .redoDelete _ rid => Function.update stored rid none
  | .redoMiniTxnCommit _ => stored

/-- The entries as a log of blocks. -/
def reading : RedoLog LogEntry Int (Slot → Option (List UInt8)) where
  owner := txnId
  commits e := e.clogType = .redoMiniTxnCommit
  apply := redo
  still s e h := by
    cases e with
    | redoInsert txnId rid data => simp [clogType] at h
    | redoDelete txnId rid => simp [clogType] at h
    | redoMiniTxnCommit txnId => rfl

end LogEntry

namespace TableSession

open LogEntry

variable {m : TableMeta} {x y : TableSession} {st : TableStatement} {a : TableAnswer} (appendRecord : AppendRecord)
  (snprintf : List UInt8 → List UInt8)

theorem foldl_redoDelete (txnId : Int) (rids : List Slot) (stored : Slot → Option (List UInt8)) :
    (rids.map (.redoDelete txnId)).foldl redo stored = fun rid => if rid ∈ rids then none else stored rid := by
  induction rids generalizing stored with
  | nil => simp
  | cons rid rids ih =>
    rw [List.map_cons, List.foldl_cons, ih]
    funext q
    simp only [redo, List.mem_cons]
    by_cases hq : q ∈ rids
    · simp [hq]
    · by_cases he : q = rid
      · simp [he]
      · simp [hq, he]

/-- What a statement writes to a log that takes it: nothing, and then it has changed no record, or a block of its
transaction, which says what it has changed. -/
theorem exec_logs (h : x.Inv m) (hst : st.Fits m x) (hexec : x.exec appendRecord snprintf m st = some (a, y))
    (htakes : appendRecord.TakesAll y.log) :
    (y.log = x.log ∧ live y.file.pool = live x.file.pool ∧ (y.globalTxnId = x.globalTxnId ∨
      y.globalTxnId = TxnMark.getNextGlobalTxnId x.globalTxnId)) ∨
    ∃ b, reading.IsBlock (TxnMark.getNextGlobalTxnId x.globalTxnId) b ∧ y.log = x.log ++ b ∧
      live y.file.pool = b.foldl redo (live x.file.pool) ∧
      y.globalTxnId = TxnMark.getNextGlobalTxnId (TxnMark.getNextGlobalTxnId x.globalTxnId) := by
  cases st with
  | insert values heap =>
    have hopened : Inv m x.opened := h.of_file rfl
    have hexec : x.insert appendRecord m values heap = (a, y) := Option.some.inj hexec
    rcases insert_cases (m := m) (x := x) appendRecord values heap with ⟨-, heq⟩ | ⟨-, bs, -, r, z, hrun, hcases⟩
    · rw [heq] at hexec
      cases hexec
      exact .inl ⟨rfl, rfl, .inr rfl⟩
    · obtain ⟨-, hstored⟩ := insertRecord_spec hopened hrun
      have hid : z.globalTxnId = TxnMark.getNextGlobalTxnId x.globalTxnId := insertRecord_globalTxnId hrun
      rcases hstored with ⟨rid, -, hlive, hlog, hcode⟩ | ⟨hr, -, hlive, hlog⟩
      · rcases hcases with ⟨hr, heq⟩ | ⟨-, r', w, hcommit, heq⟩
        · rw [heq] at hexec
          cases hexec
          exact absurd ⟨hr, x.log, _, hlog, List.prefix_rfl, hcode.symm⟩ (htakes.not_refused x.log)
        · rw [heq] at hexec
          cases hexec
          obtain ⟨r'', w, hcommit', hfile, hwlog, hwcode, hwid⟩ := commit_spec appendRecord z
            (TxnMark.getNextGlobalTxnId x.globalTxnId)
          rw [hcommit] at hcommit'
          cases hcommit'
          have hr : r' = .success := by
            by_contra hr
            exact htakes.not_refused z.log ⟨hr, z.log, _, hwlog, List.prefix_rfl, hwcode.symm⟩
          refine .inr ⟨[.redoInsert (TxnMark.getNextGlobalTxnId x.globalTxnId) rid bs,
            .redoMiniTxnCommit (TxnMark.getNextGlobalTxnId x.globalTxnId)],
            ⟨?_, [.redoInsert _ rid bs], _, rfl, rfl, ?_⟩, ?_, ?_, ?_⟩
          · simp [reading, txnId]
          · simp [reading, clogType]
          · simp [hwlog, hlog, opened]
          · rw [hfile]
            exact hlive
          · rw [hwid hr, hid]
      · obtain ⟨-, heq⟩ := hcases.resolve_right fun hc => hr hc.1
        rw [heq] at hexec
        cases hexec
        exact .inl ⟨hlog, hlive, .inr hid⟩
  | delete passes =>
    obtain ⟨a', z, rids, hrun, -, hremoves, hcases⟩ := delete_spec appendRecord passes h
    have hexec : x.delete appendRecord passes = some (a, y) := hexec
    rw [hrun] at hexec
    cases hexec
    rcases hcases with ⟨-, -, hid, hlog⟩ | ⟨r, -, hrefused⟩
    · refine .inr ⟨_, ⟨?_, _, _, rfl, rfl, ?_⟩, hlog, ?_, hid⟩
      · simp only [List.mem_append, List.mem_map, List.mem_singleton]
        rintro e (⟨rid, -, rfl⟩ | rfl)
        · rfl
        · rfl
      · intro e he
        obtain ⟨rid, -, rfl⟩ := List.mem_map.mp he
        rfl
      · rw [List.foldl_append, foldl_redoDelete]
        funext rid
        exact hremoves.live rid
    · exact absurd hrefused (htakes.not_refused x.log)
  | select passes fields =>
    obtain ⟨z, hrun, -, hlive, hid, hlog⟩ := select_spec snprintf passes h hst
    have hexec : x.select snprintf m passes fields = some (a, y) := hexec
    rw [hrun] at hexec
    cases hexec
    exact .inl ⟨hlog, hlive, .inl hid⟩
  | reorder free =>
    unfold exec at hexec
    simp only at hexec
    split at hexec
    · cases hexec
      exact .inl ⟨rfl, rfl, .inl rfl⟩
    · cases hexec

/-- Whatever it answers, a statement adds to the log and takes nothing from it. -/
theorem exec_log (h : x.Inv m) (hst : st.Fits m x) (hexec : x.exec appendRecord snprintf m st = some (a, y)) :
    x.log <+: y.log := by
  cases st with
  | insert values heap =>
    have hopened : Inv m x.opened := h.of_file rfl
    have hexec : x.insert appendRecord m values heap = (a, y) := Option.some.inj hexec
    rcases insert_cases (m := m) (x := x) appendRecord values heap with ⟨-, heq⟩ | ⟨-, bs, -, r, z, hrun, hcases⟩
    · rw [heq] at hexec
      cases hexec
      exact List.prefix_rfl
    · have hz : x.log <+: z.log := by
        rcases (insertRecord_spec hopened hrun).2 with ⟨rid, -, -, hlog, -⟩ | ⟨-, -, -, hlog⟩
        · rw [hlog]
          exact List.prefix_append x.log _
        · rw [hlog]
          exact List.prefix_rfl
      rcases hcases with ⟨-, heq⟩ | ⟨-, r', w, hcommit, heq⟩
      · rw [heq] at hexec
        cases hexec
        exact hz
      · rw [heq] at hexec
        cases hexec
        obtain ⟨r'', w, hcommit', -, hlog, -⟩ := commit_spec appendRecord z
          (TxnMark.getNextGlobalTxnId x.globalTxnId)
        rw [hcommit] at hcommit'
        cases hcommit'
        rw [hlog]
        exact hz.trans (List.prefix_append z.log _)
  | delete passes =>
    obtain ⟨a', z, rids, hrun, -, -, hcases⟩ := delete_spec appendRecord passes h
    have hexec : x.delete appendRecord passes = some (a, y) := hexec
    rw [hrun] at hexec
    cases hexec
    rcases hcases with ⟨-, -, -, hlog⟩ | ⟨r, -, -, pre, e, hlog, hpre, -⟩
    · rw [hlog]
      exact List.prefix_append x.log _
    · rw [hlog]
      exact hpre.trans (List.prefix_append pre _)
  | select passes fields =>
    obtain ⟨z, hrun, -, -, -, hlog⟩ := select_spec snprintf passes h hst
    have hexec : x.select snprintf m passes fields = some (a, y) := hexec
    rw [hrun] at hexec
    cases hexec
    rw [hlog]
  | reorder free =>
    unfold exec at hexec
    simp only at hexec
    split at hexec
    · cases hexec
      exact List.prefix_rfl
    · cases hexec

theorem run_log {sts : List TableStatement} {as : List TableAnswer} (h : x.Inv m)
    (hfit : AllFit appendRecord snprintf m x sts) (hrun : x.run appendRecord snprintf m sts = some (as, y)) :
    x.log <+: y.log := by
  induction sts generalizing x as with
  | nil =>
    cases hrun
    exact List.prefix_rfl
  | cons st sts ih =>
    obtain ⟨hst, hrest⟩ := hfit
    obtain ⟨a, z, hexec, hz, -⟩ := h.exec appendRecord snprintf hst
    unfold TableSession.run at hrun
    simp only [hexec] at hrun
    obtain ⟨⟨bs, w⟩, hbs, heq⟩ := Option.map_eq_some_iff.mp hrun
    cases heq
    exact (exec_log appendRecord snprintf h hst hexec).trans (ih hz (hrest a z hexec) hbs)

/-- Two of the ids that the counter gives before it is round are different. -/
theorem wrap32_ne {j k : Nat} (hlt : j < k) (hk : k < j + 2 ^ 32) : wrap32 j ≠ wrap32 k := by
  rw [wrap32_eq, wrap32_eq]
  split
  · split
    · omega
    · omega
  · split
    · omega
    · omega

/-- The log of a run is a list of blocks of different transactions, and the states of the run stand between
them. -/
theorem run_logs {sts : List TableStatement} {as : List TableAnswer} {n : Nat} (h : x.Inv m)
    (hfit : AllFit appendRecord snprintf m x sts) (hrun : x.run appendRecord snprintf m sts = some (as, y))
    (htakes : appendRecord.TakesAll y.log) (hid : x.globalTxnId = wrap32 n) (hfew : 2 * sts.length < 2 ^ 32) :
    ∃ blocks, reading.AreBlocks blocks ∧ y.log = x.log ++ RedoLog.join blocks ∧
      (∀ b ∈ blocks, ∃ k, n < k ∧ k ≤ n + 2 * sts.length ∧ b.1 = wrap32 k) ∧
      ∀ pre, pre <+: blocks → ∃ done as' z, done <+: sts ∧ x.run appendRecord snprintf m done = some (as', z) ∧
        z.log = x.log ++ RedoLog.join pre ∧
        live z.file.pool = (RedoLog.join pre).foldl redo (live x.file.pool) := by
  induction sts generalizing x as n with
  | nil =>
    cases hrun
    refine ⟨[], .nil, (List.append_nil _).symm, fun b hb => absurd hb List.not_mem_nil, fun pre hpre => ?_⟩
    obtain rfl := List.prefix_nil.mp hpre
    exact ⟨[], [], _, List.nil_prefix, rfl, (List.append_nil _).symm, rfl⟩
  | cons st sts ih =>
    obtain ⟨hst, hrest⟩ := hfit
    obtain ⟨a, z, hexec, hz, -⟩ := h.exec appendRecord snprintf hst
    unfold TableSession.run at hrun
    simp only [hexec] at hrun
    obtain ⟨⟨bs, w⟩, hbs, heq⟩ := Option.map_eq_some_iff.mp hrun
    cases heq
    rw [List.length_cons] at hfew
    have hstep {done : List TableStatement} {as' : List TableAnswer} {z' : TableSession}
        (hdone : z.run appendRecord snprintf m done = some (as', z')) :
        x.run appendRecord snprintf m (st :: done) = some (a :: as', z') := by
      rw [TableSession.run]
      simp only [hexec, hdone, Option.map_some]
    have hstepTakes := htakes.of_prefix (run_log appendRecord snprintf hz (hrest a z hexec) hbs)
    rcases exec_logs appendRecord snprintf h hst hexec hstepTakes with
      ⟨hlog, hlive, hnext⟩ | ⟨b, hblock, hlog, hlive, hnext⟩
    · obtain ⟨k, hk, hkid⟩ : ∃ k, n ≤ k ∧ k ≤ n + 1 ∧ z.globalTxnId = wrap32 k := by
        rcases hnext with hnext | hnext
        · exact ⟨n, le_rfl, Nat.le_succ n, hnext.trans hid⟩
        · refine ⟨n + 1, Nat.le_succ n, le_rfl, ?_⟩
          rw [hnext, hid, TxnMark.next_wrap32]
      obtain ⟨blocks, hblocks, hend, howners, hpres⟩ := ih hz (hrest a z hexec) hbs hkid.2 (by omega)
      refine ⟨blocks, hblocks, by rw [hend, hlog], fun b hb => ?_, fun pre hpre => ?_⟩
      · obtain ⟨j, hlow, hhigh, hj⟩ := howners b hb
        exact ⟨j, by omega, by rw [List.length_cons]; omega, hj⟩
      · obtain ⟨done, as', z', hdone, hreach, hzlog, hzlive⟩ := hpres pre hpre
        refine ⟨st :: done, _, z', List.cons_prefix_cons.mpr ⟨rfl, hdone⟩, hstep hreach, ?_, ?_⟩
        · rw [hzlog, hlog]
        · rw [hzlive, hlive]
    · have hown : TxnMark.getNextGlobalTxnId x.globalTxnId = wrap32 (n + 1 : Nat) := by
        rw [hid, TxnMark.next_wrap32]
      have hkid : z.globalTxnId = wrap32 (n + 1 + 1 : Nat) := by
        rw [hnext, hown, TxnMark.next_wrap32]
      obtain ⟨blocks, hblocks, hend, howners, hpres⟩ := ih hz (hrest a z hexec) hbs hkid (by omega)
      rw [hown] at hblock
      have hnew : wrap32 (n + 1 : Nat) ∉ blocks.map Prod.fst := by
        intro hmem
        obtain ⟨b', hb', he⟩ := List.mem_map.mp hmem
        obtain ⟨j, hlow, hhigh, hj⟩ := howners b' hb'
        exact wrap32_ne (j := n + 1) (k := j) (by omega) (by omega) (he.symm.trans hj)
      refine ⟨(wrap32 (n + 1 : Nat), b) :: blocks, hblocks.cons hblock hnew, ?_, fun b' hb' => ?_, fun pre hpre => ?_⟩
      · rw [hend, hlog, List.append_assoc]
        rfl
      · rw [List.length_cons]
        rcases List.mem_cons.mp hb' with heq | hb'
        · exact ⟨n + 1, by omega, by omega, by rw [heq]⟩
        · obtain ⟨j, hlow, hhigh, hj⟩ := howners b' hb'
          exact ⟨j, by omega, by omega, hj⟩
      · cases pre with
        | nil => exact ⟨[], [], x, List.nil_prefix, rfl, (List.append_nil _).symm, rfl⟩
        | cons b' pre =>
          obtain ⟨rfl, hpre'⟩ := List.cons_prefix_cons.mp hpre
          obtain ⟨done, as', z', hdone, hreach, hzlog, hzlive⟩ := hpres pre hpre'
          refine ⟨st :: done, _, z', List.cons_prefix_cons.mpr ⟨rfl, hdone⟩, hstep hreach, ?_, ?_⟩
          · rw [hzlog, hlog, List.append_assoc]
            rfl
          · rw [hzlive, hlive]
            exact (List.foldl_append ..).symm

end TableSession

end Idmbs
