import Idmbs.Common.CommonDefs
import Idmbs.Storage.TableMeta

/-!
# Idmbs.Storage.TxnMark

Transaction ids (storage/txn.cpp): where they come from, and the word of a record that holds the id of a
transaction with the deleted flag in its highest bit. The ids come from a counter that wraps around, so
after `2 ^ 31 - 1` of them an id has a highest bit of its own.
-/

namespace Idmbs
namespace TxnMark

/-! ## The word of a record -/

def deletedFlagBitMask : BitVec 32 := 0x80000000#32
def txnIdBitMask : BitVec 32 := 0x7FFFFFFF#32

def setRecordTxnId (trxField : FieldMeta) (rec : Bytes.Memory) (txnId : Int) (deleted : Bool) :
    Bytes.Memory :=
  let txnId := if deleted then (BitVec.ofInt 32 txnId ||| deletedFlagBitMask).toInt else txnId
  Bytes.setInt rec trxField.offset.toNat 4 txnId

def getRecordTxnId (trxField : FieldMeta) (record : Bytes.Memory) : Int × Bool :=
  let txn := BitVec.ofInt 32 (Bytes.getInt record trxField.offset.toNat 4)
  ((txn &&& txnIdBitMask).toInt, txn &&& deletedFlagBitMask != 0#32)

/-- `IsVisible`, for the transaction with the id `txnId`. -/
def isVisible (trxField : FieldMeta) (txnId : Int) (rec : Bytes.Memory) : Bool :=
  let (recordTrxId, recordDeleted) := getRecordTxnId trxField rec
  if recordTrxId = 0 ∨ recordTrxId = txnId then !recordDeleted
  else recordDeleted

def init (trxField : FieldMeta) (txnId : Int) (rec : Bytes.Memory) : Bytes.Memory :=
  setRecordTxnId trxField rec txnId false

/-! ## Where ids come from -/

/-- The counter, and the `txn_id_` of each transaction there is. -/
structure System where
  globalTxnId : Int
  txnIds : List Int
  deriving DecidableEq, Repr

def System.start : System := ⟨0, []⟩

def getNextGlobalTxnId (globalTxnId : Int) : Int := wrap32 (globalTxnId + 1)

inductive Call where
  /-- `Txn()` -/
  | construct
  /-- `Start`, which `DeleteRecord` begins with. -/
  | start (txn : Nat)
  | nextCurrentId (txn : Nat)

/-- The state behind a call and the ids that it was handed. -/
def Call.run (s : System) : Call → Option (System × List Int)
  | construct =>
    let id := getNextGlobalTxnId s.globalTxnId
    some (⟨id, s.txnIds ++ [id]⟩, [id])
  | start txn =>
    match s.txnIds[txn]? with
    | none => none
    | some txnId =>
      if txnId = 0 then
        let id := getNextGlobalTxnId s.globalTxnId
        some (⟨id, s.txnIds.set txn id⟩, [id])
      else some (s, [])
  | nextCurrentId txn =>
    if txn < s.txnIds.length then
      let id := getNextGlobalTxnId s.globalTxnId
      some (⟨id, s.txnIds.set txn id⟩, [id])
    else none

def run (s : System) : List Call → Option (System × List Int)
  | [] => some (s, [])
  | c :: cs =>
    match c.run s with
    | none => none
    | some (s', ids) =>
      match run s' cs with
      | none => none
      | some (s'', ids') => some (s'', ids ++ ids')

/-- The calls that ask for an id whatever the transaction has. -/
def Call.asks : Call → Bool
  | start _ => false
  | _ => true

/-! ## An id in the word -/

/-- What the word of a record must do for the id of a transaction. -/
structure Keeps (trxField : FieldMeta) (id : Int) : Prop where
  ne_zero : id ≠ 0
  get_set : ∀ rec deleted, getRecordTxnId trxField (setRecordTxnId trxField rec id deleted) = (id, deleted)
  visible : ∀ rec, isVisible trxField id (init trxField id rec) = true

section Word

variable {trxField : FieldMeta} {rec : Bytes.Memory} {id : Int} {w : BitVec 32}

theorem and_deletedFlag : (w &&& deletedFlagBitMask != 0#32) = w.msb := by
  have h : (w &&& deletedFlagBitMask).toNat = w.msb.toNat * 2 ^ 31 := by
    have hmask : deletedFlagBitMask.toNat = 2 ^ 31 := rfl
    rw [BitVec.toNat_and, hmask, Nat.and_two_pow, BitVec.msb_eq_getLsbD_last]
    rfl
  cases hm : w.msb with
  | false =>
    have hzero : w &&& deletedFlagBitMask = 0#32 := BitVec.eq_of_toNat_eq (by simp [h, hm])
    simp [hzero]
  | true =>
    have hne : w &&& deletedFlagBitMask ≠ 0#32 := by
      intro hzero
      simp [hzero, hm] at h
    exact bne_iff_ne.mpr hne

theorem toNat_and_txnId : (w &&& txnIdBitMask).toNat = w.toNat % 2 ^ 31 := by
  have hmask : txnIdBitMask.toNat = 2 ^ 31 - 1 := rfl
  rw [BitVec.toNat_and, hmask, Nat.and_two_pow_sub_one_eq_mod]

theorem msb_or_deletedFlag : (w ||| deletedFlagBitMask).msb = true := by
  rw [BitVec.msb_or]
  exact Bool.or_true _

theorem toNat_ofInt (h0 : 0 ≤ id) (h1 : id < 2 ^ 31) : (BitVec.ofInt 32 id).toNat = id.toNat := by
  rw [BitVec.toNat_ofInt]
  omega

theorem or_and_txnId : (w ||| deletedFlagBitMask) &&& txnIdBitMask = w &&& txnIdBitMask := by
  apply BitVec.eq_of_getLsbD_eq
  intro i hi
  simp only [BitVec.getLsbD_and, BitVec.getLsbD_or]
  have hdisj : (deletedFlagBitMask.getLsbD i && txnIdBitMask.getLsbD i) = false := by
    rw [← BitVec.getLsbD_and]
    have : deletedFlagBitMask &&& txnIdBitMask = 0#32 := by decide
    rw [this, BitVec.getLsbD_zero]
  rw [Bool.and_or_distrib_right, hdisj, Bool.or_false]

/-- What stands in a record once a word was written there. -/
theorem getRecordTxnId_set (v : Int) :
    getRecordTxnId trxField (Bytes.setInt rec trxField.offset.toNat 4 v) =
      ((BitVec.ofInt 32 v &&& txnIdBitMask).toInt, (BitVec.ofInt 32 v).msb) := by
  have h : BitVec.ofInt 32 (v.bmod (256 ^ 4)) = BitVec.ofInt 32 v := by
    apply BitVec.eq_of_toInt_eq
    rw [BitVec.toInt_ofInt, BitVec.toInt_ofInt]
    exact Int.bmod_bmod
  simp only [getRecordTxnId, Bytes.getInt_setInt, h, and_deletedFlag]

theorem getRecordTxnId_setRecordTxnId (deleted : Bool) :
    getRecordTxnId trxField (setRecordTxnId trxField rec id deleted) =
      ((BitVec.ofInt 32 id &&& txnIdBitMask).toInt, deleted || (BitVec.ofInt 32 id).msb) := by
  cases deleted with
  | false =>
    unfold setRecordTxnId
    exact getRecordTxnId_set id
  | true =>
    unfold setRecordTxnId
    rw [if_pos rfl, getRecordTxnId_set, BitVec.ofInt_toInt, or_and_txnId, msb_or_deletedFlag]
    rfl

theorem keeps_of_pos (h0 : 0 < id) (h1 : id < 2 ^ 31) : Keeps trxField id := by
  have hnat : (BitVec.ofInt 32 id).toNat = id.toNat := toNat_ofInt (by omega) h1
  have hmsb : (BitVec.ofInt 32 id).msb = false := by
    rw [BitVec.msb_eq_false_iff_two_mul_lt]
    omega
  have hid : (BitVec.ofInt 32 id &&& txnIdBitMask).toInt = id := by
    rw [BitVec.toInt_eq_toNat_cond, toNat_and_txnId, hnat]
    split <;> omega
  have hget : ∀ rec deleted,
      getRecordTxnId trxField (setRecordTxnId trxField rec id deleted) = (id, deleted) := by
    intro rec deleted
    rw [getRecordTxnId_setRecordTxnId, hid, hmsb, Bool.or_false]
  refine ⟨by omega, hget, ?_⟩
  intro rec
  rw [init, isVisible, hget]
  simp

/-- A negative id is read back as another one, with the flag set. -/
theorem not_keeps_of_neg (h0 : id < 0) (h1 : -2 ^ 31 ≤ id) : ¬Keeps trxField id := by
  intro h
  have hget := h.get_set (fun _ => 0) false
  have hmsb : (BitVec.ofInt 32 id).msb = true := by
    rw [BitVec.msb_eq_true_iff_two_mul_ge, BitVec.toNat_ofInt]
    omega
  rw [getRecordTxnId_setRecordTxnId, hmsb] at hget
  cases congrArg Prod.snd hget

theorem keeps_iff (h : InInt32 id) : Keeps trxField id ↔ 0 < id := by
  constructor
  · intro hk
    by_contra hn
    have hne := hk.ne_zero
    exact not_keeps_of_neg (by omega) h.1 hk
  · intro hpos
    exact keeps_of_pos hpos h.2

end Word

/-! ## The ids of a run -/

/-- The first `n` ids that the counter gives. -/
def firstIds (n : Nat) : List Int := (List.range n).map fun k : Nat => wrap32 ((k + 1 : Nat))

theorem next_wrap32 (n : Nat) : getNextGlobalTxnId (wrap32 n) = wrap32 ((n + 1 : Nat)) := by
  unfold getNextGlobalTxnId
  rw [wrap32, wrap32, wrap32, Int.bmod_add_bmod]
  rfl

section Runs

variable {s s' : System} {c : Call} {cs : List Call} {ids : List Int} {n : Nat}

theorem run_cons_some (h : run s (c :: cs) = some (s', ids)) :
    ∃ t ids₁ ids₂, c.run s = some (t, ids₁) ∧ run t cs = some (s', ids₂) ∧ ids = ids₁ ++ ids₂ := by
  unfold run at h
  cases hc : c.run s with
  | none =>
    rw [hc] at h
    cases h
  | some r =>
    obtain ⟨t, ids₁⟩ := r
    simp only [hc] at h
    cases ht : run t cs with
    | none =>
      simp only [ht] at h
      cases h
    | some r =>
      obtain ⟨u, ids₂⟩ := r
      simp only [ht] at h
      cases h
      exact ⟨t, ids₁, ids₂, rfl, ht, rfl⟩

/-- What a call can do: it asks for one id, or it is a `Start` that has nothing to do. -/
theorem Call.run_cases (h : c.run s = some (s', ids)) :
    (∃ txnIds, s' = ⟨getNextGlobalTxnId s.globalTxnId, txnIds⟩ ∧ ids = [getNextGlobalTxnId s.globalTxnId] ∧
      (∀ id ∈ txnIds, id ∈ s.txnIds ∨ id = getNextGlobalTxnId s.globalTxnId) ∧
      (c.asks = true ∨ 0 ∈ s.txnIds)) ∨
    (s' = s ∧ ids = [] ∧ c.asks = false) := by
  cases c with
  | construct =>
    cases h
    refine Or.inl ⟨_, rfl, rfl, ?_, Or.inl rfl⟩
    intro id hid
    simpa using hid
  | nextCurrentId txn =>
    simp only [Call.run] at h
    split at h
    · cases h
      refine Or.inl ⟨_, rfl, rfl, ?_, Or.inl rfl⟩
      intro id hid
      exact List.mem_or_eq_of_mem_set hid
    · cases h
  | start txn =>
    simp only [Call.run] at h
    cases ht : s.txnIds[txn]? with
    | none =>
      rw [ht] at h
      cases h
    | some txnId =>
      simp only [ht] at h
      split at h
      · rename_i hzero
        cases h
        refine Or.inl ⟨_, rfl, rfl, ?_, Or.inr (hzero ▸ List.mem_of_getElem? ht)⟩
        intro id hid
        exact List.mem_or_eq_of_mem_set hid
      · cases h
        exact Or.inr ⟨rfl, rfl, rfl⟩

/-- The ids of a run are those that the counter gives one after the other. -/
theorem run_ids (h : run s cs = some (s', ids)) (hs : s.globalTxnId = wrap32 n) :
    firstIds n ++ ids = firstIds (n + ids.length) ∧ cs.countP Call.asks ≤ ids.length := by
  induction cs generalizing s n ids with
  | nil =>
    cases h
    simp
  | cons c cs ih =>
    obtain ⟨t, ids₁, ids₂, hc, ht, rfl⟩ := run_cons_some h
    cases Call.run_cases hc with
    | inl hasked =>
      obtain ⟨txnIds, rfl, rfl, -, -⟩ := hasked
      have hnext : getNextGlobalTxnId s.globalTxnId = wrap32 ((n + 1 : Nat)) := by
        rw [hs, next_wrap32]
      obtain ⟨hids, hcount⟩ := ih ht hnext
      have hsnoc : firstIds (n + 1) = firstIds n ++ [getNextGlobalTxnId s.globalTxnId] := by
        rw [hnext, firstIds, firstIds, List.range_succ, List.map_append]
        simp
      constructor
      · rw [← List.append_assoc, ← hsnoc, hids]
        congr 1
        simp only [List.length_append, List.length_singleton]
        omega
      · rw [List.countP_cons, List.length_append, List.length_singleton]
        split <;> omega
    | inr hidle =>
      obtain ⟨rfl, rfl, hask⟩ := hidle
      obtain ⟨hids, hcount⟩ := ih ht hs
      refine ⟨hids, ?_⟩
      rw [List.countP_cons, hask]
      exact hcount

/-- As long as the counter has not wrapped, only the calls that ask are handed ids. -/
theorem run_length (h : run s cs = some (s', ids)) (hs : s.globalTxnId = n)
    (hpos : ∀ id ∈ s.txnIds, 0 < id) (hn : n + cs.countP Call.asks < 2 ^ 31) :
    ids.length = cs.countP Call.asks := by
  induction cs generalizing s n ids with
  | nil =>
    cases h
    rfl
  | cons c cs ih =>
    obtain ⟨t, ids₁, ids₂, hc, ht, rfl⟩ := run_cons_some h
    rw [List.countP_cons] at hn ⊢
    cases Call.run_cases hc with
    | inl hasked =>
      obtain ⟨txnIds, rfl, rfl, hmem, hask⟩ := hasked
      have hask : c.asks = true := by
        cases hask with
        | inl hask => exact hask
        | inr hzero => exact absurd (hpos 0 hzero) (by omega)
      rw [if_pos hask] at hn ⊢
      have hnext : getNextGlobalTxnId s.globalTxnId = ((n + 1 : Nat) : Int) := by
        rw [hs, getNextGlobalTxnId, wrap32_of_inInt32 ⟨by omega, by omega⟩]
        rfl
      have hpos' : ∀ id ∈ txnIds, 0 < id := by
        intro id hid
        cases hmem id hid with
        | inl hold => exact hpos id hold
        | inr hnew => omega
      rw [List.length_append, ih ht hnext hpos' (by omega)]
      exact Nat.add_comm _ _
    | inr hidle =>
      obtain ⟨rfl, rfl, hask⟩ := hidle
      have hask' : ¬c.asks = true := by simp [hask]
      rw [if_neg hask'] at hn ⊢
      exact ih ht hs hpos (by omega)

theorem run_start_ids (h : run .start cs = some (s, ids)) : ids = firstIds ids.length := by
  have hids := (run_ids (n := 0) h rfl).1
  simpa [firstIds] using hids

/-- The ids of a run are all kept exactly if the counter stays below its sign bit. -/
theorem firstIds_keeps_iff (trxField : FieldMeta) (n : Nat) :
    (∀ id ∈ firstIds n, Keeps trxField id) ↔ n < 2 ^ 31 := by
  constructor
  · intro h
    by_contra hn
    have hmem : wrap32 ((2 ^ 31 - 1 + 1 : Nat)) ∈ firstIds n :=
      List.mem_map.mpr ⟨2 ^ 31 - 1, List.mem_range.mpr (by omega), rfl⟩
    have hpos := (keeps_iff (inInt32_wrap32 _)).mp (h _ hmem)
    rw [wrap32_eq] at hpos
    omega
  · intro hn id hid
    obtain ⟨k, hk, rfl⟩ := List.mem_map.mp hid
    have hk := List.mem_range.mp hk
    rw [wrap32_of_inInt32 ⟨by omega, by omega⟩]
    exact keeps_of_pos (by omega) (by omega)

/-- The mark holds for every id of a run exactly if the run asks for fewer than `2 ^ 31` ids. -/
theorem deleteMark_iff (trxField : FieldMeta) (h : run .start cs = some (s, ids)) :
    (∀ id ∈ ids, Keeps trxField id) ↔ cs.countP Call.asks < 2 ^ 31 := by
  have hids := run_start_ids h
  have hcount := (run_ids (n := 0) h rfl).2
  rw [hids, firstIds_keeps_iff]
  constructor
  · intro hlt
    omega
  · intro hlt
    rw [run_length (n := 0) h rfl (by simp [System.start]) (by omega)]
    exact hlt

/-- One session that inserts two rows. -/
theorem deleteMark_iff_two : (∀ id ∈ ([1, 2] : List Int), Keeps default id) ↔
    [Call.construct, .nextCurrentId 0].countP Call.asks < 2 ^ 31 :=
  deleteMark_iff default (s := ⟨2, [2]⟩) (by decide)

end Runs

/-! ## A long session -/

def session (n : Nat) : List Call := .construct :: List.replicate n (.nextCurrentId 0)

theorem run_replicate_nextCurrentId (n : Nat) (s : System) (h : 0 < s.txnIds.length) :
    ∃ r, run s (List.replicate n (.nextCurrentId 0)) = some r := by
  induction n generalizing s with
  | zero => exact ⟨_, rfl⟩
  | succ n ih =>
    obtain ⟨⟨t, ids⟩, hr⟩ := ih
      ⟨getNextGlobalTxnId s.globalTxnId, s.txnIds.set 0 (getNextGlobalTxnId s.globalTxnId)⟩
      (by simpa using h)
    refine ⟨(t, [getNextGlobalTxnId s.globalTxnId] ++ ids), ?_⟩
    simp only [List.replicate_succ, run, Call.run, h, if_pos, hr]

theorem session_runs (n : Nat) : ∃ s ids, run .start (session n) = some (s, ids) := by
  obtain ⟨⟨t, ids⟩, hr⟩ := run_replicate_nextCurrentId n ⟨1, [1]⟩ (by decide)
  have hone : getNextGlobalTxnId 0 = 1 := by decide
  refine ⟨t, [1] ++ ids, ?_⟩
  simp only [session, run, Call.run, System.start, List.nil_append, hone, hr]

theorem session_wraps {n : Nat} (hn : 2 ^ 31 ≤ n + 1) : ∃ s ids, run .start (session n) = some (s, ids) ∧
    ¬∀ id ∈ ids, Keeps default id := by
  obtain ⟨s, ids, hrun⟩ := session_runs n
  refine ⟨s, ids, hrun, ?_⟩
  have hcount := (run_ids (n := 0) hrun rfl).2
  rw [run_start_ids hrun, firstIds_keeps_iff]
  have hasks : (session n).countP Call.asks = n + 1 := by
    rw [session, List.countP_cons, List.countP_replicate]
    simp [Call.asks]
  omega

/-- After `2 ^ 31 - 1` rows the next id is negative: its row reads as deleted, under another id. -/
theorem deleteMark_wraps : ∃ s ids, run .start (session 2147483647) = some (s, ids) ∧
    ¬∀ id ∈ ids, Keeps default id :=
  session_wraps (by decide)

end TxnMark
end Idmbs
