import Idmbs.Storage.RowOps
import Idmbs.Storage.TxnMark
import Mathlib.Data.Set.Insert

/-!
# Idmbs.Storage.TxnOps

The operation sets of a transaction over whole runs (storage/txn.cpp). A set holds operations by their record
ids; `summary` is what `Idmbs.Storage.RowOps` knows of it. The insertion of a record that the transaction has
deleted takes the `Delete` back and then notes an `Insert` all the same, so a second deletion leaves nothing.
-/

namespace Idmbs
namespace TxnOps

open Txn (OperationType OperationSet)

structure Operation where
  type : OperationType
  rid : RecordId
  deriving DecidableEq, Repr

/-- A transaction, with the counter of all; the tables are pointers. -/
structure State where
  globalTxnId : Int
  txnId : Int
  operations : Nat → Option (List Operation)

def start (s : State) : State :=
  if s.txnId = 0 then
    let id := TxnMark.getNextGlobalTxnId s.globalTxnId
    { s with globalTxnId := id, txnId := id }
  else s

def new (globalTxnId : Int) : State := start ⟨globalTxnId, 0, fun _ => none⟩

/-- `find` of the set; `OperationPred` compares the ids only. -/
def find (set : List Operation) (rid : RecordId) : Option Operation := set.find? fun op => op.rid = rid

def emplace (set : List Operation) (op : Operation) : List Operation :=
  match find set op.rid with
  | some _ => set
  | none => op :: set

def findOperation (s : State) (table : Nat) (rid : RecordId) : Option Operation :=
  match s.operations table with
  | none => none
  | some set => find set rid

/-- The operations of a table; there is an empty set where it has none yet. -/
def tableOperations (s : State) (table : Nat) : List Operation := (s.operations table).getD []

def insertOperation (s : State) (table : Nat) (t : OperationType) (rid : RecordId) : State :=
  { s with operations := Function.update s.operations table (some (emplace (tableOperations s table) ⟨t, rid⟩)) }

def deleteOperation (s : State) (table : Nat) (rid : RecordId) : State :=
  match s.operations table with
  | none => s
  | some set => { s with operations := Function.update s.operations table (some (set.filter fun op => op.rid ≠ rid)) }

def insertRecord (s : State) (table : Nat) (rid : RecordId) : Re × State :=
  match findOperation s table rid with
  | some op =>
    if op.type = .delete then (.success, insertOperation (deleteOperation s table rid) table .insert rid)
    else (.genericError, s)
  | none => (.success, insertOperation s table .insert rid)

/-- `DeleteRecord`, with the bytes of the record. -/
def deleteRecord (trxField : FieldMeta) (s : State) (table : Nat) (rid : RecordId) (rec : Bytes.Memory) :
    Re × State × Bytes.Memory :=
  let s := start s
  match findOperation s table rid with
  | some op =>
    if op.type = .insert then (.success, deleteOperation s table rid, rec) else (.genericError, s, rec)
  | none =>
    (.success, insertOperation s table .delete rid, TxnMark.setRecordTxnId trxField rec s.txnId true)

/-! ## The set by record ids -/

def summary (set : List Operation) : OperationSet := fun rid => (find set rid).map Operation.type

variable {set : List Operation} {op : Operation} {rid : RecordId} {s : State} {table : Nat} {t : OperationType}

theorem find_rid (h : find set rid = some op) : op.rid = rid := by
  simpa using List.find?_some h

theorem summary_emplace (set : List Operation) (t : OperationType) (rid : RecordId) :
    summary (emplace set ⟨t, rid⟩) = Txn.insertOperation (summary set) t rid := by
  unfold emplace Txn.insertOperation
  simp only
  cases hf : find set rid with
  | some op => rw [summary, hf, Option.map_some]
  | none =>
    rw [summary, hf, Option.map_none]
    simp only
    funext rid'
    by_cases he : rid' = rid
    · rw [he, Function.update_self]
      simp [summary, find]
    · rw [Function.update_of_ne he]
      have hne : rid ≠ rid' := fun h => he h.symm
      simp [summary, find, hne]

theorem summary_erase (set : List Operation) (rid : RecordId) :
    summary (set.filter fun op => op.rid ≠ rid) = Txn.deleteOperation (summary set) rid := by
  unfold Txn.deleteOperation
  funext rid'
  rw [summary, find, List.find?_filter]
  by_cases he : rid' = rid
  · rw [he, Function.update_self, Option.map_eq_none_iff, List.find?_eq_none]
    simp
  · rw [Function.update_of_ne he, summary, find]
    congr 2
    funext op
    by_cases hop : op.rid = rid'
    · simp [hop, he]
    · simp [hop]

theorem emplace_nodup (h : (set.map Operation.rid).Nodup) (op : Operation) :
    ((emplace set op).map Operation.rid).Nodup := by
  unfold emplace
  cases hf : find set op.rid with
  | some op' => exact h
  | none =>
    rw [find, List.find?_eq_none] at hf
    rw [List.map_cons, List.nodup_cons]
    refine ⟨fun hmem => ?_, h⟩
    obtain ⟨op', hop', he⟩ := List.mem_map.mp hmem
    exact hf op' hop' (decide_eq_true he)

theorem erase_nodup (h : (set.map Operation.rid).Nodup) (rid : RecordId) :
    ((set.filter fun op => op.rid ≠ rid).map Operation.rid).Nodup :=
  h.sublist (List.filter_sublist.map _)

theorem findOperation_eq (s : State) (table : Nat) (rid : RecordId) :
    findOperation s table rid = find (tableOperations s table) rid := by
  unfold findOperation tableOperations
  cases s.operations table <;> rfl

theorem tableOperations_insertOperation :
    tableOperations (insertOperation s table t rid) table = emplace (tableOperations s table) ⟨t, rid⟩ := by
  simp [tableOperations, insertOperation]

theorem tableOperations_deleteOperation :
    tableOperations (deleteOperation s table rid) table = (tableOperations s table).filter fun op => op.rid ≠ rid := by
  unfold deleteOperation
  cases hs : s.operations table with
  | none => simp [tableOperations, hs]
  | some set => simp [tableOperations, hs]

theorem tableOperations_start : tableOperations (start s) table = tableOperations s table := by
  unfold start
  split <;> rfl

/-- What a call makes of the set, by the record ids. -/
theorem insertRecord_summary (s : State) (table : Nat) (rid : RecordId) :
    ((insertRecord s table rid).1, summary (tableOperations (insertRecord s table rid).2 table)) =
      Txn.insertRecord (summary (tableOperations s table)) rid := by
  unfold insertRecord Txn.insertRecord
  rw [findOperation_eq, summary]
  cases find (tableOperations s table) rid with
  | none => simp only [Option.map_none, tableOperations_insertOperation, summary_emplace]
  | some op =>
    rw [Option.map_some]
    rcases op with ⟨t, r⟩
    cases t with
    | delete =>
      simp only [if_true, tableOperations_insertOperation, tableOperations_deleteOperation, summary_emplace,
        summary_erase]
    | insert => rfl
    | update => rfl
    | undefined => rfl

theorem deleteRecord_summary (trxField : FieldMeta) (s : State) (table : Nat) (rid : RecordId) (rec : Bytes.Memory) :
    ((deleteRecord trxField s table rid rec).1,
        summary (tableOperations (deleteRecord trxField s table rid rec).2.1 table)) =
      Txn.deleteRecord (summary (tableOperations s table)) rid := by
  unfold deleteRecord Txn.deleteRecord
  simp only
  rw [findOperation_eq, tableOperations_start, summary]
  cases find (tableOperations s table) rid with
  | none => simp only [Option.map_none, tableOperations_insertOperation, summary_emplace, tableOperations_start]
  | some op =>
    rw [Option.map_some]
    rcases op with ⟨t, r⟩
    cases t with
    | insert => simp only [if_true, tableOperations_deleteOperation, summary_erase, tableOperations_start]
    | delete => simp [tableOperations_start]
    | update => simp [tableOperations_start]
    | undefined => simp [tableOperations_start]

/-! ## Runs -/

inductive Call where
  | insertRecord (rid : RecordId)
  | deleteRecord (rid : RecordId) (rec : Bytes.Memory)

def Call.run (trxField : FieldMeta) (table : Nat) (s : State) : Call → Re × State
  | .insertRecord rid => TxnOps.insertRecord s table rid
  | .deleteRecord rid rec =>
    match TxnOps.deleteRecord trxField s table rid rec with
    | (r, s, _) => (r, s)

/-- What the calls answer, and the state behind them. -/
def run (trxField : FieldMeta) (table : Nat) (s : State) : List Call → List Re × State
  | [] => ([], s)
  | c :: cs =>
    match c.run trxField table s with
    | (r, s) =>
      match run trxField table s cs with
      | (rs, s) => (r :: rs, s)

/-- The records there are, behind a call. -/
def Call.after (present : Set RecordId) : Call → Set RecordId
  | .insertRecord rid => insert rid present
  | .deleteRecord rid _ => present \ {rid}

def presentAfter (present : Set RecordId) (cs : List Call) : Set RecordId := cs.foldl Call.after present

/-- Only an absent record is inserted, and only a present one deleted. -/
def Call.Possible (present : Set RecordId) : Call → Prop
  | .insertRecord rid => rid ∉ present
  | .deleteRecord rid _ => rid ∈ present

def Possible (present : Set RecordId) : List Call → Prop
  | [] => True
  | c :: cs => c.Possible present ∧ Possible (c.after present) cs

def deletions (rid : RecordId) (cs : List Call) : Nat :=
  cs.countP fun
    | .insertRecord _ => false
    | .deleteRecord rid' _ => rid' = rid

/-- The set says how the records there are now differ from those at the start. -/
structure NetEffect (atStart now : Set RecordId) (rs : List Re) (set : List Operation) : Prop where
  success : ∀ r ∈ rs, r = .success
  nodup : (set.map Operation.rid).Nodup
  inserted : ∀ rid ∈ now, rid ∉ atStart → ⟨.insert, rid⟩ ∈ set
  deleted : ∀ rid ∈ atStart, rid ∉ now → ⟨.delete, rid⟩ ∈ set
  absent : ∀ rid, rid ∉ atStart → rid ∉ now → ∀ op ∈ set, op.rid ≠ rid

/-- What a record has in the set, from how often it was deleted. -/
inductive Noted (wasPresent present : Prop) (deleted : Nat) : Option OperationType → Prop where
  | new : ¬wasPresent → present → Noted wasPresent present deleted (some .insert)
  | gone : ¬wasPresent → ¬present → Noted wasPresent present deleted none
  | kept : wasPresent → present → deleted = 0 → Noted wasPresent present deleted none
  | back : wasPresent → present → 0 < deleted → Noted wasPresent present deleted (some .insert)
  | once : wasPresent → ¬present → deleted = 1 → Noted wasPresent present deleted (some .delete)
  | again : wasPresent → ¬present → 1 < deleted → Noted wasPresent present deleted none

namespace Noted

variable {wasPresent present present' : Prop} {k : Nat} {o : Option OperationType}

theorem of_absent (h : Noted wasPresent present k o) (hp : ¬present) : o = none ∨ o = some .delete := by
  cases h with
  | new _ hnow => exact absurd hnow hp
  | gone => exact .inl rfl
  | kept _ hnow => exact absurd hnow hp
  | back _ hnow => exact absurd hnow hp
  | once => exact .inr rfl
  | again => exact .inl rfl

theorem of_present (h : Noted wasPresent present k o) (hp : present) : o = none ∨ o = some .insert := by
  cases h with
  | new => exact .inr rfl
  | gone _ hnow => exact absurd hp hnow
  | kept => exact .inl rfl
  | back => exact .inr rfl
  | once _ hnow => exact absurd hp hnow
  | again _ hnow => exact absurd hp hnow

/-- An insertion leaves an `Insert`, also where it took a `Delete` back. -/
theorem insert (h : Noted wasPresent present k o) (hp : ¬present) (hp' : present') :
    Noted wasPresent present' k (some .insert) := by
  cases h with
  | new _ hnow => exact absurd hnow hp
  | gone hstart => exact .new hstart hp'
  | kept _ hnow => exact absurd hnow hp
  | back _ hnow => exact absurd hnow hp
  | once hstart _ hk => exact .back hstart hp' (by omega)
  | again hstart _ hk => exact .back hstart hp' (by omega)

/-- Only the first deletion of a record leaves a `Delete`. -/
theorem delete (h : Noted wasPresent present k o) (hp : present) (hp' : ¬present') :
    Noted wasPresent present' (k + 1) (if o = none then some .delete else none) := by
  cases h with
  | new hstart => exact .gone hstart hp'
  | gone _ hnow => exact absurd hp hnow
  | kept hstart _ hk => exact .once hstart hp' (by omega)
  | back hstart _ hk => exact .again hstart hp' (by omega)
  | once _ hnow => exact absurd hp hnow
  | again _ hnow => exact absurd hp hnow

theorem of_new (h : Noted wasPresent present k o) (hw : ¬wasPresent) :
    present ∧ o = some .insert ∨ ¬present ∧ o = none := by
  cases h with
  | new _ hnow => exact .inl ⟨hnow, rfl⟩
  | gone _ hnow => exact .inr ⟨hnow, rfl⟩
  | kept hstart => exact absurd hstart hw
  | back hstart => exact absurd hstart hw
  | once hstart => exact absurd hstart hw
  | again hstart => exact absurd hstart hw

theorem of_lost (h : Noted wasPresent present k o) (hw : wasPresent) (hp : ¬present) :
    o = some .delete ↔ ¬1 < k := by
  cases h with
  | new hstart => exact absurd hw hstart
  | gone hstart => exact absurd hw hstart
  | kept _ hnow => exact absurd hnow hp
  | back _ hnow => exact absurd hnow hp
  | once _ _ hk => exact ⟨fun _ => by omega, fun _ => rfl⟩
  | again _ _ hk => exact ⟨fun h => (Option.some_ne_none _ h.symm).elim, fun h => absurd hk h⟩

end Noted

/-- The invariant of a run; `deleted` counts the deletions so far. -/
structure Tracks (atStart now : Set RecordId) (deleted : RecordId → Nat) (set : List Operation) : Prop where
  nodup : (set.map Operation.rid).Nodup
  noted : ∀ rid, Noted (rid ∈ atStart) (rid ∈ now) (deleted rid) (summary set rid)

variable {atStart now : Set RecordId} {deleted : RecordId → Nat} {c : Call} {cs : List Call}

theorem insertRecord_nodup (h : ((tableOperations s table).map Operation.rid).Nodup) (rid : RecordId) :
    ((tableOperations (insertRecord s table rid).2 table).map Operation.rid).Nodup := by
  unfold insertRecord
  split
  · split
    · rw [tableOperations_insertOperation, tableOperations_deleteOperation]
      exact emplace_nodup (erase_nodup h rid) _
    · exact h
  · rw [tableOperations_insertOperation]
    exact emplace_nodup h _

theorem deleteRecord_nodup (h : ((tableOperations s table).map Operation.rid).Nodup) (trxField : FieldMeta)
    (rid : RecordId) (rec : Bytes.Memory) :
    ((tableOperations (deleteRecord trxField s table rid rec).2.1 table).map Operation.rid).Nodup := by
  rw [← tableOperations_start] at h
  unfold deleteRecord
  simp only
  split
  · split
    · rw [tableOperations_deleteOperation]
      exact erase_nodup h rid
    · exact h
  · rw [tableOperations_insertOperation]
    exact emplace_nodup h _

/-- A record that is not there is inserted, whatever the transaction did to it. -/
theorem insertRecord_possible {ops : OperationSet} (h : ops rid = none ∨ ops rid = some .delete) :
    Txn.insertRecord ops rid = (.success, Function.update ops rid (some .insert)) := by
  unfold Txn.insertRecord Txn.insertOperation Txn.deleteOperation
  obtain h | h := h
  · rw [h]
  · rw [h]
    simp

/-- A deletion notes a `Delete`, or takes an `Insert` back. -/
theorem deleteRecord_possible {ops : OperationSet} (h : ops rid = none ∨ ops rid = some .insert) :
    Txn.deleteRecord ops rid =
      (.success, Function.update ops rid (if ops rid = none then some .delete else none)) := by
  unfold Txn.deleteRecord Txn.insertOperation Txn.deleteOperation
  obtain h | h := h
  · rw [h]
    rfl
  · rw [h]
    rfl

theorem Tracks.call (h : Tracks atStart now deleted (tableOperations s table)) (trxField : FieldMeta)
    (hc : c.Possible now) :
    (c.run trxField table s).1 = .success ∧
      Tracks atStart (c.after now) (fun rid => deleted rid + deletions rid [c])
        (tableOperations (c.run trxField table s).2 table) := by
  cases c with
  | insertRecord rid =>
    have hspec := insertRecord_summary s table rid
    rw [insertRecord_possible ((h.noted rid).of_absent hc), Prod.mk.injEq] at hspec
    refine ⟨hspec.1, insertRecord_nodup h.nodup rid, fun rid' => ?_⟩
    simp only [Call.run]
    rw [hspec.2]
    by_cases he : rid' = rid
    · subst he
      rw [Function.update_self]
      exact (h.noted rid').insert hc (Set.mem_insert ..)
    · rw [Function.update_of_ne he]
      have hsame : rid' ∈ (Call.insertRecord rid).after now ↔ rid' ∈ now := by simp [Call.after, he]
      rw [hsame]
      exact h.noted rid'
  | deleteRecord rid rec =>
    have hspec := deleteRecord_summary trxField s table rid rec
    rw [deleteRecord_possible ((h.noted rid).of_present hc), Prod.mk.injEq] at hspec
    refine ⟨hspec.1, deleteRecord_nodup h.nodup trxField rid rec, fun rid' => ?_⟩
    simp only [Call.run]
    rw [hspec.2]
    by_cases he : rid' = rid
    · subst he
      have hcount : deletions rid' [.deleteRecord rid' rec] = 1 := by simp [deletions]
      rw [Function.update_self, hcount]
      exact (h.noted rid').delete hc fun hmem => hmem.2 rfl
    · rw [Function.update_of_ne he]
      have hsame : rid' ∈ (Call.deleteRecord rid rec).after now ↔ rid' ∈ now := by simp [Call.after, he]
      have hcount : deletions rid' [.deleteRecord rid rec] = 0 := by
        have hne : rid ≠ rid' := fun h => he h.symm
        simp [deletions, hne]
      rw [hsame, hcount]
      exact h.noted rid'

theorem Tracks.run (h : Tracks atStart now deleted (tableOperations s table)) (trxField : FieldMeta)
    (hc : Possible now cs) :
    (∀ r ∈ (TxnOps.run trxField table s cs).1, r = .success) ∧
      Tracks atStart (presentAfter now cs) (fun rid => deleted rid + deletions rid cs)
        (tableOperations (TxnOps.run trxField table s cs).2 table) := by
  induction cs generalizing now deleted s with
  | nil => exact ⟨nofun, h⟩
  | cons c cs ih =>
    obtain ⟨hr, hnext⟩ := h.call trxField hc.1
    obtain ⟨hrs, hend⟩ := ih hnext hc.2
    refine ⟨?_, ?_⟩
    · intro r hmem
      obtain rfl | hmem := List.mem_cons.mp hmem
      · exact hr
      · exact hrs r hmem
    · have hcount : ∀ rid, deletions rid (c :: cs) = deletions rid [c] + deletions rid cs := fun rid => by
        rw [deletions, deletions, deletions, ← List.countP_append]
        rfl
      simp only [hcount, ← Nat.add_assoc]
      exact hend

theorem tracks_new (globalTxnId : Int) (atStart : Set RecordId) :
    Tracks atStart atStart (fun _ => 0) (tableOperations (new globalTxnId) table) := by
  rw [new, tableOperations_start]
  refine ⟨.nil, fun rid => ?_⟩
  by_cases h : rid ∈ atStart
  · exact .kept h h rfl
  · exact .gone h h

theorem mem_of_summary (h : summary set rid = some t) : ⟨t, rid⟩ ∈ set := by
  obtain ⟨⟨t', rid'⟩, hf, rfl⟩ := Option.map_eq_some_iff.mp h
  cases find_rid hf
  exact List.mem_of_find?_eq_some hf

theorem summary_of_mem (hn : (set.map Operation.rid).Nodup) (h : ⟨t, rid⟩ ∈ set) : summary set rid = some t := by
  unfold summary
  cases hf : find set rid with
  | none =>
    rw [find, List.find?_eq_none] at hf
    exact absurd (decide_eq_true rfl) (hf _ h)
  | some op =>
    have hmem : op ∈ set := List.mem_of_find?_eq_some hf
    have hop : op = ⟨t, rid⟩ := List.inj_on_of_nodup_map hn hmem h (find_rid hf)
    rw [hop, Option.map_some]

/-- After a run of a new transaction the set is the net effect if and only if no record of the start that was
deleted more than once is absent. -/
theorem netEffect_iff (trxField : FieldMeta) (globalTxnId : Int) (table : Nat) (atStart : Set RecordId)
    (cs : List Call) (hc : Possible atStart cs) :
    NetEffect atStart (presentAfter atStart cs) (run trxField table (new globalTxnId) cs).1
        (tableOperations (run trxField table (new globalTxnId) cs).2 table) ↔
      ∀ rid ∈ atStart, 1 < deletions rid cs → rid ∈ presentAfter atStart cs := by
  have hstart : Tracks atStart atStart (fun _ => 0) (tableOperations (new globalTxnId) table) :=
    tracks_new globalTxnId atStart
  obtain ⟨hr, hend⟩ := hstart.run trxField hc
  simp only [Nat.zero_add] at hend
  generalize tableOperations (run trxField table (new globalTxnId) cs).2 table = set at hend ⊢
  constructor
  · intro h rid hrid hd
    by_contra hnow
    have hdelete := summary_of_mem h.nodup (h.deleted rid hrid hnow)
    exact ((hend.noted rid).of_lost hrid hnow).mp hdelete hd
  · intro h
    refine ⟨hr, hend.nodup, fun rid hnow hrid => ?_, fun rid hrid hnow => ?_, fun rid hrid hnow op hop he => ?_⟩
    · obtain ⟨-, hinsert⟩ | ⟨hno, -⟩ := (hend.noted rid).of_new hrid
      · exact mem_of_summary hinsert
      · exact absurd hnow hno
    · have hd : ¬1 < deletions rid cs := fun hd => hnow (h rid hrid hd)
      exact mem_of_summary (((hend.noted rid).of_lost hrid hnow).mpr hd)
    · obtain ⟨hyes, -⟩ | ⟨-, hnone⟩ := (hend.noted rid).of_new hrid
      · exact hnow hyes
      · rcases op with ⟨t, r⟩
        cases he
        rw [summary_of_mem hend.nodup hop] at hnone
        cases hnone

/-- A record is deleted and its slot is used again. -/
def reuse : List Call := [.deleteRecord ⟨1, 0⟩ fun _ => 0, .insertRecord ⟨1, 0⟩]

theorem netEffect_iff_reuse :
    NetEffect {⟨1, 0⟩} (presentAfter {⟨1, 0⟩} reuse) (run default 0 (new 0) reuse).1
        (tableOperations (run default 0 (new 0) reuse).2 0) ↔
      ∀ rid ∈ ({⟨1, 0⟩} : Set RecordId), 1 < deletions rid reuse → rid ∈ presentAfter {⟨1, 0⟩} reuse :=
  netEffect_iff default 0 0 {⟨1, 0⟩} reuse ⟨Set.mem_singleton _, fun h => h.2 rfl, trivial⟩

/-- A record of the start that is deleted, inserted and deleted again is gone without a `Delete`. -/
theorem not_netEffect : ∃ (atStart : Set RecordId) (cs : List Call), Possible atStart cs ∧
    ¬NetEffect atStart (presentAfter atStart cs) (run default 0 (new 0) cs).1
      (tableOperations (run default 0 (new 0) cs).2 0) := by
  refine ⟨{⟨1, 0⟩}, [.deleteRecord ⟨1, 0⟩ fun _ => 0, .insertRecord ⟨1, 0⟩, .deleteRecord ⟨1, 0⟩ fun _ => 0],
    ⟨Set.mem_singleton _, fun h => h.2 rfl, Set.mem_insert .., trivial⟩, fun h => ?_⟩
  have hmem := h.deleted ⟨1, 0⟩ (Set.mem_singleton _) fun hmem => hmem.2 rfl
  have hset : tableOperations (run default 0 (new 0)
      [.deleteRecord ⟨1, 0⟩ fun _ => 0, .insertRecord ⟨1, 0⟩, .deleteRecord ⟨1, 0⟩ fun _ => 0]).2 0 = [] := by decide
  rw [hset] at hmem
  cases hmem

end TxnOps
end Idmbs
