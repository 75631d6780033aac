import Idmbs.CLog.Record
import Idmbs.Lib.CString
import Idmbs.Storage.RecordHandler
import Idmbs.Storage.TableMeta

/-!
# Idmbs.CLog.Codec

The objects of log records in memory, and `CLogRecord(char *)` (storage/clog_manager.cpp): whether they
hold the table name and the record id they were made with, and whether a record that was written is read
back.

An object begins with the pointer to the table of virtual functions. Behind it lie `lsn`, `txn_id`, `type`
and `clog_record_len` at 8, 12, 16 and 20, `table_name` at 24, `rid` at 44 and 48, and of an insert record
`data_len` at 52 and `data` at 56.
-/

namespace Idmbs

open Bytes CString

namespace CLogType

def code : CLogType → Int
  | redoError => 0
  | redoMiniTxnBegin => 1
  | redoMiniTxnCommit => 2
  | redoInsert => 3
  | redoDelete => 4
  | redoUpdate => 5

/-- The type of a record that is read; there is no record of another one. -/
def ofCode (v : Int) : CLogType :=
  if v = 1 then redoMiniTxnBegin
  else if v = 2 then redoMiniTxnCommit
  else if v = 3 then redoInsert
  else if v = 4 then redoDelete
  else redoError

def objectSize : CLogType → Nat
  | redoInsert => 64
  | redoDelete => 56
  | _ => 24

end CLogType

/-- A record whose object is at address 0 of a memory of its own, as is the array `data` points to. -/
structure CLogRecordObject where
  clogFlag : CLogType
  object : Memory
  data : Memory

/-- What `new` gives: memory that was used before, the addresses of both and the pointer to the table of
virtual functions. -/
structure Allocation where
  vptr : Int
  object : Memory
  data : Memory
  dataAddress : Int

namespace CLogRecordObject

/-- `CLogRecordHeader::Set`. -/
def setHeader (m : Memory) (lsn txnId type clogRecordLen : Int) : Memory :=
  setInt (setInt (setInt (setInt m 8 4 lsn) 12 4 txnId) 16 4 type) 20 4 clogRecordLen

def setRid (m : Memory) (rid : RecordId) : Memory := setInt (setInt m 44 4 rid.pageId) 48 4 rid.slotId

def lsn (r : CLogRecordObject) : Int := getInt r.object 8 4

def txnId (r : CLogRecordObject) : Int := getInt r.object 12 4

def type (r : CLogRecordObject) : Int := getInt r.object 16 4

def clogRecordLen (r : CLogRecordObject) : Int := getInt r.object 20 4

def tableName (r : CLogRecordObject) : Pointer := fun i => r.object (24 + i)

def rid (r : CLogRecordObject) : RecordId := ⟨getInt r.object 44 4, getInt r.object 48 4⟩

def dataLen (r : CLogRecordObject) : Int := getInt r.object 52 4

theorem rid_pageId (r : CLogRecordObject) : r.rid.pageId = getInt r.object 44 4 := by simp only [rid]

/-! ## Construction -/

/-- The case of `RedoMiniTxnBegin` and `RedoMiniTxnCommit` in the constructor; `lsn` is the one that
`GetNextLsn` gives. -/
def newMiniTxn (h : Allocation) (flag : CLogType) (lsn txnId : Int) : CLogRecordObject where
  clogFlag := flag
  object := setHeader (setInt h.object 0 8 h.vptr) lsn txnId flag.code 24
  data := h.data

def insertLen (dataLen : Nat) : Nat := align8 (clogInsertRecordNoPtrSize + dataLen)

/-- The case of `RedoInsert`: the name first, then the record id. -/
def newInsert (h : Allocation) (lsn txnId : Int) (tableName : Pointer) (dataLen : Nat) (rid : RecordId)
    (recData : Memory) : CLogRecordObject where
  clogFlag := .redoInsert
  object :=
    let m := setInt (setInt h.object 0 8 h.vptr) 56 8 0
    let m := strcpy m 24 tableName
    let m := setRid m rid
    let m := setInt m 52 4 dataLen
    let m := setHeader m lsn txnId CLogType.redoInsert.code (insertLen dataLen)
    setInt m 56 8 h.dataAddress
  data := write h.data 0 (read recData 0 dataLen)

/-- The case of `RedoDelete`: the record id first, then the name. -/
def newDelete (h : Allocation) (lsn txnId : Int) (tableName : Pointer) (rid : RecordId) : CLogRecordObject where
  clogFlag := .redoDelete
  object :=
    let m := setInt h.object 0 8 h.vptr
    let m := setRid m rid
    let m := strcpy m 24 tableName
    setHeader m lsn txnId CLogType.redoDelete.code 56
  data := h.data

/-- `CLogRecord` with a type, a transaction, a name and a record, which may be missing. Without an object
the type is `RedoError`. -/
def make (h : Allocation) (flag : CLogType) (lsn txnId : Int) (tableName : Pointer) (dataLen : Nat)
    (rec : Option (RecordId × Option Memory)) : Option CLogRecordObject :=
  match flag with
  | .redoMiniTxnBegin | .redoMiniTxnCommit => some (newMiniTxn h flag lsn txnId)
  | .redoInsert =>
    match rec with
    | some (rid, some recData) => some (newInsert h lsn txnId tableName dataLen rid recData)
    | _ => none
  | .redoDelete =>
    match rec with
    | some (rid, _) => some (newDelete h lsn txnId tableName rid)
    | none => none
  | _ => none

def toRecord (r : CLogRecordObject) : CLogRecord where
  clogFlag := r.clogFlag
  clogRecordLen := r.clogRecordLen.toNat
  object := read r.object 0 r.clogFlag.objectSize
  data := read r.data 0 (r.clogRecordLen.toNat - clogInsertRecordNoPtrSize)

/-! ## Reading -/

/-- The cases of `CLogRecord(char *data)`, by the type in the header. -/
def ofFlag (h : Allocation) (data : Memory) (flag : CLogType) : CLogRecordObject :=
  let m := write (setInt h.object 0 8 h.vptr) 8 (read data 0 16)
  match flag with
  | .redoMiniTxnBegin | .redoMiniTxnCommit => ⟨flag, m, h.data⟩
  | .redoInsert =>
    let m := strcpy m 24 fun i => data (16 + i)
    let m := write m 44 (read data 36 8)
    let m := write m 52 (read data 44 4)
    ⟨flag, m, write h.data 0 (read data 48 (getInt m 52 4).toNat)⟩
  | .redoDelete =>
    let m := strcpy m 24 fun i => data (16 + i)
    ⟨flag, write m 44 (read data 36 8), h.data⟩
  | _ => ⟨.redoError, h.object, h.data⟩

/-- `CLogRecord(char *data)`: the header is looked for where the pointer to the table of virtual functions
was written. -/
def ofBytes (h : Allocation) (data : Memory) : CLogRecordObject :=
  ofFlag h data (CLogType.ofCode (getInt data 8 4))

/-- `operator==` of `CLogRecordHeader`. -/
def headerEq (a b : CLogRecordObject) : Bool :=
  a.lsn = b.lsn ∧ a.txnId = b.txnId ∧ a.type = b.type ∧ a.clogRecordLen = b.clogRecordLen

def cmpEq (a b : CLogRecordObject) : Bool :=
  if a.clogFlag = b.clogFlag then
    match a.clogFlag with
    | .redoMiniTxnBegin | .redoMiniTxnCommit => headerEq a b
    | .redoInsert => headerEq a b ∧ strcmp a.tableName b.tableName = 0 ∧ a.rid = b.rid ∧
        a.dataLen = b.dataLen ∧ read a.data 0 a.dataLen.toNat = read b.data 0 a.dataLen.toNat
    | .redoDelete => headerEq a b ∧ strcmp a.tableName b.tableName = 0 ∧ a.rid = b.rid
    | _ => false
  else false

/-! ## Name and record id -/

section Fields

variable {m : Memory} {rid : RecordId} {name : List UInt8} {tableName : Pointer} {x : Nat}

theorem setHeader_of_ge {lsn txnId type len : Int} (h : 24 ≤ x) : setHeader m lsn txnId type len x = m x := by
  rw [setHeader, setInt_of_ge (by omega), setInt_of_ge (by omega), setInt_of_ge (by omega), setInt_of_ge (by omega)]

theorem setRid_of_lt (h : x < 44) : setRid m rid x = m x := by
  rw [setRid, setInt_of_lt (by omega), setInt_of_lt h]

/-- Both fields are `int32_t`. -/
abbrev Fits (rid : RecordId) : Prop := InInt32 rid.pageId ∧ InInt32 rid.slotId

theorem pageId_setRid (h : Fits rid) : getInt (setRid m rid) 44 4 = rid.pageId := by
  rw [setRid, getInt_congr fun x hx => setInt_of_lt (by omega),
    getInt_setInt_of_fits (by have := h.1; norm_num; omega) (by have := h.1; norm_num; omega)]

theorem slotId_setRid (h : Fits rid) : getInt (setRid m rid) 48 4 = rid.slotId := by
  rw [setRid, getInt_setInt_of_fits (by have := h.2; norm_num; omega) (by have := h.2; norm_num; omega)]

/-- The byte behind a name of the greatest length. -/
theorem setRid_first (h : Fits rid) : ((setRid m rid 44).toNat : Int) = rid.pageId % 256 := by
  rw [← pageId_setRid (m := m) h, getInt_emod]

/-- The object holds the name and the record id. -/
structure Keeps (r : CLogRecordObject) (name : List UInt8) (rid : RecordId) : Prop where
  rid : r.rid = rid
  name : IsText r.tableName name

/-- The record id is written behind the name, over the NUL of a name of 20 characters. -/
theorem keeps_newInsert_iff (h : Allocation) (lsn txnId : Int) (dataLen : Nat) (recData : Memory)
    (hname : IsText tableName name) (hlen : name.length ≤ TableMeta.tableNameMaxLen) (hrid : Fits rid) :
    Keeps (newInsert h lsn txnId tableName dataLen rid recData) name rid ↔
      name.length < TableMeta.tableNameMaxLen ∨ rid.pageId % 256 = 0 := by
  have hmax : TableMeta.tableNameMaxLen = 20 := rfl
  obtain ⟨m, hm⟩ : ∃ m, setInt (setInt h.object 0 8 h.vptr) 56 8 0 = m := ⟨_, rfl⟩
  have hobject : ∀ x, 24 ≤ x → x < 52 → (newInsert h lsn txnId tableName dataLen rid recData).object x =
      setRid (write m 24 (name ++ [0])) rid x := by
    intro x hx hx'
    simp only [newInsert, hm, strcpy_eq hname]
    rw [setInt_of_lt (by omega), setHeader_of_ge hx, setInt_of_lt hx']
  have hridKept : (newInsert h lsn txnId tableName dataLen rid recData).rid = rid := by
    rw [CLogRecordObject.rid, getInt_congr fun x hx => hobject (44 + x) (by omega) (by omega), pageId_setRid hrid,
      getInt_congr fun x hx => hobject (48 + x) (by omega) (by omega), slotId_setRid hrid]
  have hchars : ∀ i (hi : i < name.length),
      (newInsert h lsn txnId tableName dataLen rid recData).tableName i = name[i] := by
    intro i hi
    rw [CLogRecordObject.tableName, hobject _ (by omega) (by omega), setRid_of_lt (by omega),
      write_at (by simp; omega), List.getElem_append_left hi]
  have hnul : (newInsert h lsn txnId tableName dataLen rid recData).tableName name.length =
      setRid (write m 24 (name ++ [0])) rid (24 + name.length) := hobject _ (by omega) (by omega)
  rcases Nat.lt_or_ge name.length 20 with hshort | hlong
  · refine iff_of_true ⟨hridKept, hchars, ?_, hname.inner⟩ (.inl hshort)
    rw [hnul, setRid_of_lt (by omega), write_at (by simp), List.getElem_append_right (le_refl _)]
    simp
  · have hfirst := setRid_first (m := write m 24 (name ++ [0])) hrid
    rw [show name.length = 20 by omega] at hnul ⊢
    constructor
    · intro hkeeps
      have hzero := hkeeps.name.nul
      rw [show name.length = 20 by omega, hnul] at hzero
      rw [hzero] at hfirst
      exact .inr hfirst.symm
    · intro hcond
      have hdvd := hcond.resolve_left (by omega)
      refine ⟨hridKept, hchars, ?_, hname.inner⟩
      rw [show name.length = 20 by omega, hnul]
      refine UInt8.toNat_inj.mp ?_
      rw [hdvd] at hfirst
      exact_mod_cast hfirst

/-- The name is written behind the record id, with its NUL over the lowest byte of `page_id`. -/
theorem keeps_newDelete_iff (h : Allocation) (lsn txnId : Int) (hname : IsText tableName name)
    (hlen : name.length ≤ TableMeta.tableNameMaxLen) (hrid : Fits rid) :
    Keeps (newDelete h lsn txnId tableName rid) name rid ↔
      name.length < TableMeta.tableNameMaxLen ∨ rid.pageId % 256 = 0 := by
  have hmax : TableMeta.tableNameMaxLen = 20 := rfl
  obtain ⟨m, hm⟩ : ∃ m, setInt h.object 0 8 h.vptr = m := ⟨_, rfl⟩
  have hobject : ∀ x, 24 ≤ x → (newDelete h lsn txnId tableName rid).object x =
      write (setRid m rid) 24 (name ++ [0]) x := by
    intro x hx
    simp only [newDelete, hm, strcpy_eq hname]
    exact setHeader_of_ge hx
  have hbehind : ∀ x, 24 + name.length < x → (newDelete h lsn txnId tableName rid).object x = setRid m rid x := by
    intro x hx
    rw [hobject x (by omega), write_of_ge (by simp; omega)]
  have hnul : (newDelete h lsn txnId tableName rid).object (24 + name.length) = 0 := by
    rw [hobject _ (by omega), write_at (by simp), List.getElem_append_right (le_refl _)]
    simp
  have htext : IsText (newDelete h lsn txnId tableName rid).tableName name := by
    refine ⟨fun i hi => ?_, hnul, hname.inner⟩
    rw [CLogRecordObject.tableName, hobject _ (by omega), write_at (by simp; omega), List.getElem_append_left hi]
  have hslot : getInt (newDelete h lsn txnId tableName rid).object 48 4 = rid.slotId := by
    rw [getInt_congr fun x hx => hbehind (48 + x) (by omega), slotId_setRid hrid]
  have hkept (hpage : getInt (newDelete h lsn txnId tableName rid).object 44 4 = rid.pageId) :
      Keeps (newDelete h lsn txnId tableName rid) name rid :=
    ⟨by rw [CLogRecordObject.rid, hpage, hslot], htext⟩
  rcases Nat.lt_or_ge name.length 20 with hshort | hlong
  · refine iff_of_true (hkept ?_) (.inl hshort)
    rw [getInt_congr fun x hx => hbehind (44 + x) (by omega), pageId_setRid hrid]
  · rw [show 24 + name.length = 44 by omega] at hnul
    constructor
    · intro hkeeps
      have hlow : getInt (newDelete h lsn txnId tableName rid).object 44 4 % 256 = _ := getInt_emod _ 44 3
      rw [hnul, ← rid_pageId, hkeeps.rid] at hlow
      exact .inr hlow
    · intro hcond
      have hdvd := hcond.resolve_left (by omega)
      refine hkept ?_
      rw [← pageId_setRid (m := m) hrid]
      refine getInt_congr fun k hk => ?_
      rcases Nat.eq_zero_or_pos k with rfl | hpos
      · have hfirst := setRid_first (m := m) hrid
        rw [hdvd] at hfirst
        refine hnul.trans (UInt8.toNat_inj.mp ?_)
        exact_mod_cast hfirst.symm
      · exact hbehind _ (by omega)

/-- A record keeps the table name and the record id it is made with exactly when the name has less than 20
characters or the lowest byte of `page_id` is zero. -/
theorem make_keeps_iff (h : Allocation) (flag : CLogType) (hflag : flag = .redoInsert ∨ flag = .redoDelete)
    (lsn txnId : Int) (tableName : Pointer) (name : List UInt8) (hname : IsText tableName name)
    (hlen : name.length ≤ TableMeta.tableNameMaxLen) (dataLen : Nat) (rid : RecordId) (hrid : Fits rid)
    (recData : Memory) :
    (∃ r, make h flag lsn txnId tableName dataLen (some (rid, some recData)) = some r ∧ Keeps r name rid) ↔
      name.length < TableMeta.tableNameMaxLen ∨ rid.pageId % 256 = 0 := by
  rcases hflag with rfl | rfl
  · rw [← keeps_newInsert_iff h lsn txnId dataLen recData hname hlen hrid]
    simp only [make, Option.some.injEq, exists_eq_left']
  · rw [← keeps_newDelete_iff h lsn txnId hname hlen hrid]
    simp only [make, Option.some.injEq, exists_eq_left']

/-- The name of a table with 20 characters. -/
def longName : List UInt8 := List.replicate 20 97

/-- The record of slot 3 on page 1 is logged as one on page 0. -/
theorem not_make_keeps_long : ¬∀ (h : Allocation) (flag : CLogType) (lsn txnId : Int) (tableName : Pointer)
    (name : List UInt8) (dataLen : Nat) (rid : RecordId) (recData : Memory),
    flag = .redoInsert ∨ flag = .redoDelete → IsText tableName name →
    name.length ≤ TableMeta.tableNameMaxLen → Fits rid →
      ∃ r, make h flag lsn txnId tableName dataLen (some (rid, some recData)) = some r ∧ Keeps r name rid := by
  intro hall
  have htext : IsText (fun i => longName.getD i 0) longName := isText_getD (by decide)
  obtain ⟨r, hr, hkeeps⟩ := hall ⟨0, fun _ => 0, fun _ => 0, 0⟩ .redoDelete 0 1 _ longName 4 ⟨1, 3⟩ (fun _ => 0)
    (.inr rfl) htext (by decide) (by decide)
  cases hr
  exact absurd ((keeps_newDelete_iff _ 0 1 htext (by decide) (by decide)).mp hkeeps) (by decide)

theorem make_keeps_iff_short : (∃ r, make ⟨0, fun _ => 0, fun _ => 0, 0⟩ .redoInsert 0 1
      (fun i => ([116] : List UInt8).getD i 0) 4 (some (⟨1, 3⟩, some fun _ => 0)) = some r ∧ Keeps r [116] ⟨1, 3⟩) ↔
    ([116] : List UInt8).length < TableMeta.tableNameMaxLen ∨ (⟨1, 3⟩ : RecordId).pageId % 256 = 0 :=
  make_keeps_iff _ .redoInsert (.inl rfl) 0 1 _ [116] (isText_getD (by decide)) (by decide) 4 ⟨1, 3⟩ (by decide) _

end Fields

/-! ## Reading back -/

section Reading

variable {m g : Memory} {r : CLogRecordObject} {h h' : Allocation} {flag : CLogType} {lsn txnId type len : Int}
  {dataLen x : Nat} {tableName : Pointer} {rec : Option (RecordId × Option Memory)}

theorem setHeader_of_lt (hx : x < 8) : setHeader m lsn txnId type len x = m x := by
  rw [setHeader, setInt_of_lt (by omega), setInt_of_lt (by omega), setInt_of_lt (by omega), setInt_of_lt hx]

theorem type_setHeader (ht : InInt32 type) : getInt (setHeader m lsn txnId type len) 16 4 = type := by
  rw [setHeader, getInt_congr fun x hx => setInt_of_lt (by omega),
    getInt_setInt_of_fits (by have := ht; norm_num; omega) (by have := ht; norm_num; omega)]

theorem len_setHeader (hlen : InInt32 len) : getInt (setHeader m lsn txnId type len) 20 4 = len := by
  rw [setHeader, getInt_setInt_of_fits (by have := hlen; norm_num; omega) (by have := hlen; norm_num; omega)]

theorem strcpy_of_lt {d : Nat} {src : Pointer} (hx : x < d) : strcpy m d src x = m x :=
  if_neg fun hc => absurd hc.1 (Nat.not_le.mpr hx)

/-- What every record has: the pointer to the virtual functions, its type and its length. -/
structure Made (h : Allocation) (flag : CLogType) (r : CLogRecordObject) : Prop where
  clogFlag : r.clogFlag = flag
  known : 1 ≤ flag.code ∧ flag.code ≤ 4
  vptr : ((r.object 0).toNat : Int) = h.vptr % 256
  type : r.type = flag.code
  len : 24 ≤ r.clogRecordLen

/-- The header of an object, wherever its other fields come from. -/
theorem made_of_header {o : Memory} (hflag : r.clogFlag = flag) (hknown : 1 ≤ flag.code ∧ flag.code ≤ 4)
    (hlow : ∀ x < 24, r.object x = setHeader o lsn txnId flag.code len x) (hfirst : o 0 = setInt g 0 8 h.vptr 0)
    (hlen : 24 ≤ len) (hlen' : InInt32 len) : Made h flag r where
  clogFlag := hflag
  known := hknown
  vptr := by
    rw [hlow 0 (by decide), setHeader_of_lt (by decide), hfirst, setInt_first]
  type := by
    rw [CLogRecordObject.type, getInt_congr fun k hk => hlow (16 + k) (by omega),
      type_setHeader ⟨by omega, by omega⟩]
  len := by
    rw [CLogRecordObject.clogRecordLen, getInt_congr fun k hk => hlow (20 + k) (by omega), len_setHeader hlen']
    exact hlen

theorem make_made (hdata : dataLen + 63 < 2 ^ 31)
    (hmake : make h flag lsn txnId tableName dataLen rec = some r) : Made h flag r := by
  cases flag with
  | redoMiniTxnBegin =>
    cases hmake
    exact made_of_header (g := h.object) rfl (by decide) (fun _ _ => rfl) rfl (by decide) (by decide)
  | redoMiniTxnCommit =>
    cases hmake
    exact made_of_header (g := h.object) rfl (by decide) (fun _ _ => rfl) rfl (by decide) (by decide)
  | redoInsert =>
    rcases rec with - | ⟨rid, - | recData⟩
    · cases hmake
    · cases hmake
    · cases hmake
      have hle : 56 + dataLen ≤ insertLen dataLen ∧ insertLen dataLen < 2 ^ 31 := by
        unfold insertLen align8 clogInsertRecordNoPtrSize
        split <;> omega
      refine made_of_header (g := h.object) rfl (by decide) (fun x hx => setInt_of_lt (by omega)) ?_
        (by omega) ⟨by omega, by omega⟩
      rw [setInt_of_lt (by decide), setRid_of_lt (by decide), strcpy_of_lt (by decide), setInt_of_lt (by decide)]
  | redoDelete =>
    rcases rec with - | ⟨rid, recData⟩
    · cases hmake
    · cases hmake
      refine made_of_header (g := h.object) rfl (by decide) (fun x hx => rfl) ?_ (by decide) (by decide)
      rw [strcpy_of_lt (by decide), setRid_of_lt (by decide)]
  | redoError => cases hmake
  | redoUpdate => cases hmake

/-- What `CopyRecordTo` writes begins with the first 24 bytes of the object. -/
theorem copied (hr : 24 ≤ r.clogRecordLen) {x : Nat} (hx : x < 24) :
    write g 0 (r.toRecord.copyRecordTo 0 r.toRecord.clogRecordLen).2 x = r.object x := by
  obtain ⟨n, hn⟩ : ∃ n, r.toRecord.clogRecordLen = n := ⟨_, rfl⟩
  have h24 : 24 ≤ n := by
    have hnat : r.clogRecordLen.toNat = n := by rw [← hn, toRecord]
    omega
  have hsize : 24 ≤ r.clogFlag.objectSize := by
    cases r.clogFlag <;> decide
  obtain ⟨o, ho⟩ : ∃ o, r.toRecord.object = o := ⟨_, rfl⟩
  have htake : ∀ k, 24 ≤ k → o.take k = o.take 24 ++ (o.take k).drop 24 := by
    intro k hk
    have hsplit := List.take_append_drop 24 (o.take k)
    rw [List.take_take, Nat.min_eq_left hk] at hsplit
    exact hsplit.symm
  obtain ⟨bs, hbs⟩ : ∃ bs, (r.toRecord.copyRecordTo 0 n).2 = o.take 24 ++ bs := by
    rw [CLogRecord.copyRecordTo, if_neg (by omega), ho]
    split
    · rw [if_neg (Nat.not_lt_zero _)]
      split
      · exact ⟨_, htake n h24⟩
      · refine ⟨(o.take 56).drop 24 ++ r.toRecord.data.take (n - 56), ?_⟩
        rw [← List.append_assoc, ← htake 56 (by decide)]
        rfl
    · exact ⟨_, htake n h24⟩
  have hlen : o.length = r.clogFlag.objectSize := by
    rw [← ho, toRecord, length_read]
  have hx' : x < (o.take 24 ++ bs).length := by
    simp
    omega
  have hat : write g 0 (o.take 24 ++ bs) (0 + x) = (o.take 24 ++ bs)[x] := write_at hx'
  rw [Nat.zero_add] at hat
  rw [hn, hbs, hat, List.getElem_append_left (by simp; omega), List.getElem_take]
  simp only [← ho, toRecord, getElem_read, Nat.zero_add]

/-- The header that is read is what was written before it and the first half of it. -/
theorem ofFlag_header {data : Memory} (hknown : (ofFlag h data flag).clogFlag ≠ .redoError) {x : Nat}
    (hx : x < 16) : (ofFlag h data flag).object (8 + x) = data x := by
  have hhead : ∀ m : Memory, write m 8 (read data 0 16) (8 + x) = data x := by
    intro m
    rw [write_at (by rwa [length_read]), getElem_read, Nat.zero_add]
  cases flag with
  | redoMiniTxnBegin => exact hhead _
  | redoMiniTxnCommit => exact hhead _
  | redoInsert =>
    simp only [ofFlag]
    rw [write_of_lt (by omega), write_of_lt (by omega), strcpy_of_lt (by omega), hhead]
  | redoDelete =>
    simp only [ofFlag]
    rw [write_of_lt (by omega), strcpy_of_lt (by omega), hhead]
  | redoError => exact absurd rfl hknown
  | redoUpdate => exact absurd rfl hknown

/-- The `lsn` that is read would have to be the lowest half of the pointer, and the type the `lsn`. -/
theorem headerEq_ofBytes (hmade : Made h' flag r) (hv : h'.vptr % 8 = 0)
    (hknown : (ofBytes h (write g 0 (r.toRecord.copyRecordTo 0 r.toRecord.clogRecordLen).2)).clogFlag ≠ .redoError) :
    headerEq (ofBytes h (write g 0 (r.toRecord.copyRecordTo 0 r.toRecord.clogRecordLen).2)) r = false := by
  obtain ⟨data, hdata⟩ : ∃ data, write g 0 (r.toRecord.copyRecordTo 0 r.toRecord.clogRecordLen).2 = data := ⟨_, rfl⟩
  have hbytes : ∀ x < 24, data x = r.object x := fun x hx => hdata ▸ copied hmade.len hx
  rw [hdata] at hknown ⊢
  have hheader : ∀ x < 16, (ofBytes h data).object (8 + x) = data x := by
    rw [ofBytes] at hknown ⊢
    exact fun x hx => ofFlag_header hknown hx
  rw [headerEq, decide_eq_false_iff_not]
  rintro ⟨hlsn, -, htype, -⟩
  have hread : (ofBytes h data).lsn = getInt data 0 4 := by
    rw [lsn, getInt_congr fun k hk => ?_]
    rw [hheader k (by omega), Nat.zero_add]
  have hsecond : (ofBytes h data).type = r.lsn := by
    rw [CLogRecordObject.type, lsn]
    refine getInt_congr fun k hk => ?_
    rw [show 16 + k = 8 + (8 + k) by omega, hheader _ (by omega), hbytes _ (by omega)]
  have hlow : getInt data 0 4 % 256 = h'.vptr % 256 := by
    rw [getInt_emod, hbytes 0 (by decide), hmade.vptr]
  have hcode := hmade.known
  rw [← hread, hlsn, ← hsecond, htype, hmade.type] at hlow
  omega

/-- No record is read back as it was written: the table of virtual functions is aligned. -/
theorem cmpEq_ofBytes (h h' : Allocation) (hv : h'.vptr % 8 = 0) (flag : CLogType) (lsn txnId : Int)
    (tableName : Pointer) (dataLen : Nat) (hdata : dataLen + 63 < 2 ^ 31)
    (rec : Option (RecordId × Option Memory)) (r : CLogRecordObject)
    (hmake : make h' flag lsn txnId tableName dataLen rec = some r) (dest : Memory) :
    cmpEq (ofBytes h (write dest 0 (r.toRecord.copyRecordTo 0 r.toRecord.clogRecordLen).2)) r = false := by
  have hmade := make_made hdata hmake
  unfold cmpEq
  split
  · rename_i heq
    have hknown : (ofBytes h (write dest 0 (r.toRecord.copyRecordTo 0 r.toRecord.clogRecordLen).2)).clogFlag ≠
        .redoError := by
      intro herr
      have hcode := hmade.known.1
      rw [← hmade.clogFlag, ← heq, herr] at hcode
      exact absurd hcode (by decide)
    have hhead := headerEq_ofBytes hmade hv hknown
    split
    · exact hhead
    · exact hhead
    · rw [hhead]
      simp
    · rw [hhead]
      simp
    · rfl
  · rfl

/-- Memory of zeros, with the table of virtual functions at 4096. -/
def zeroed : Allocation := ⟨4096, fun _ => 0, fun _ => 0, 0⟩

/-- The first record of a log. -/
def firstBegin : CLogRecordObject := newMiniTxn zeroed .redoMiniTxnBegin 0 1

/-- It is read as a record of no type. -/
theorem not_cmpEq_firstBegin : ¬∀ (h h' : Allocation) (flag : CLogType) (lsn txnId : Int) (tableName : Pointer)
    (dataLen : Nat) (rec : Option (RecordId × Option Memory)) (r : CLogRecordObject) (dest : Memory),
    make h' flag lsn txnId tableName dataLen rec = some r →
    cmpEq (ofBytes h (write dest 0 (r.toRecord.copyRecordTo 0 r.toRecord.clogRecordLen).2)) r = true := by
  intro hall
  have heq := hall zeroed zeroed .redoMiniTxnBegin 0 1 (fun _ => 0) 0 none firstBegin (fun _ => 0) rfl
  exact absurd heq (by decide +kernel)

theorem cmpEq_ofBytes_firstBegin : cmpEq (ofBytes zeroed
    (write (fun _ => 0) 0 (firstBegin.toRecord.copyRecordTo 0 firstBegin.toRecord.clogRecordLen).2)) firstBegin = false :=
  cmpEq_ofBytes zeroed zeroed (by decide) .redoMiniTxnBegin 0 1 (fun _ => 0) 0 (by decide) none firstBegin rfl
    fun _ => 0

end Reading


end CLogRecordObject

end Idmbs
