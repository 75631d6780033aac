import Idmbs.Resolve.TupleOrder
import Idmbs.Storage.Layout
import Idmbs.Storage.TxnMark
import Mathlib.Algebra.Order.BigOperators.Group.List

/-!
# Idmbs.Storage.RowEncoding

A row from the statement to the record and back: `Table::MakeRecord` lays the values out,
`Txn::Init` stamps the record, `RowTuple::GetUnitAt` reads the fields. The new record is not cleared, so
behind a short string its field holds what the heap had there.
-/

namespace Idmbs

open CString

/-- `CreateTableStatement::IsFieldValid`; `none` where it asserts. -/
def CreateTableStatement.isFieldValid (attr : AttrInfo) : Option Bool :=
  match attr.attrType with
  | .ints => some (attr.attrLen == 4)
  | .floats => some (attr.attrLen == 4)
  | .chars => some (!decide (attr.attrLen ≤ 0))
  | .dates => none
  | .undefined => none

def TableMeta.getTxnField (m : TableMeta) : FieldMeta := m.fields.headD default

/-- What `TupleUnit::ToString` prints of a string. -/
def TupleUnit.toText (u : TupleUnit) : List UInt8 := (Bytes.read u.data 0 u.length.toNat).takeWhile (· ≠ 0)

/-! ## Fields side by side -/

/-- Each field begins where the one before ends; the last ends at `size`. -/
def Contiguous : Int → List FieldMeta → Int → Prop
  | offset, [], size => offset = size
  | offset, f :: fs, size => f.offset = offset ∧ Contiguous (offset + f.len) fs size

structure Tiles (fields : List FieldMeta) (size : Int) : Prop where
  contiguous : Contiguous 0 fields size
  disjoint : fields.Pairwise fun f g => f.offset + f.len ≤ g.offset
  covers : ∀ x, 0 ≤ x ∧ x < size ↔ ∃ f ∈ fields, f.offset ≤ x ∧ x < f.offset + f.len

section Tiles

variable {offset size : Int} {fs : List FieldMeta}

theorem Layout.contiguous (h : Layout offset fs size) (h0 : 0 ≤ offset)
    (hfit : offset + (fs.map FieldMeta.len).sum < 2 ^ 31) : Contiguous offset fs size := by
  induction fs generalizing offset with
  | nil => exact h.symm
  | cons f fs ih =>
    rw [List.map_cons, List.sum_cons] at hfit
    have hpos := h.2.1.len
    have hrest : 0 ≤ (fs.map FieldMeta.len).sum := by
      refine List.sum_nonneg fun x hx => ?_
      obtain ⟨g, hg, rfl⟩ := List.mem_map.mp hx
      exact (h.2.2.checked g hg).len.le
    have hnext := h.2.2
    rw [wrap32_of_inInt32 ⟨by omega, by omega⟩] at hnext
    exact ⟨h.1, ih hnext (by omega) (by omega)⟩

theorem Contiguous.bounds (h : Contiguous offset fs size) (hlen : ∀ f ∈ fs, 0 < f.len) :
    offset ≤ size ∧ ∀ f ∈ fs, offset ≤ f.offset ∧ f.offset + f.len ≤ size := by
  induction fs generalizing offset with
  | nil => exact ⟨le_of_eq h, fun _ hf => nomatch hf⟩
  | cons f fs ih =>
    rw [List.forall_mem_cons] at hlen ⊢
    obtain ⟨hle, hall⟩ := ih h.2 hlen.2
    have hoffset := h.1
    refine ⟨by omega, ⟨by omega, by omega⟩, fun g hg => ?_⟩
    have hg := hall g hg
    omega

theorem Contiguous.disjoint (h : Contiguous offset fs size) (hlen : ∀ f ∈ fs, 0 < f.len) :
    fs.Pairwise fun f g => f.offset + f.len ≤ g.offset := by
  induction fs generalizing offset with
  | nil => exact List.Pairwise.nil
  | cons f fs ih =>
    rw [List.forall_mem_cons] at hlen
    rw [List.pairwise_cons]
    refine ⟨fun g hg => ?_, ih h.2 hlen.2⟩
    rw [h.1]
    exact ((h.2.bounds hlen.2).2 g hg).1

theorem Contiguous.covers (h : Contiguous offset fs size) (hlen : ∀ f ∈ fs, 0 < f.len) (x : Int) :
    offset ≤ x ∧ x < size ↔ ∃ f ∈ fs, f.offset ≤ x ∧ x < f.offset + f.len := by
  induction fs generalizing offset with
  | nil =>
    have hsize : offset = size := h
    refine iff_of_false (by omega) ?_
    rintro ⟨f, hf, -⟩
    cases hf
  | cons f fs ih =>
    rw [List.forall_mem_cons] at hlen
    have hle := (h.2.bounds hlen.2).1
    have hoffset := h.1
    have hf := hlen.1
    rw [List.exists_mem_cons_iff, ← ih h.2 hlen.2]
    omega

theorem Layout.tiles (h : Layout 0 fs size) (hfit : (fs.map FieldMeta.len).sum < 2 ^ 31) : Tiles fs size := by
  have hlen : ∀ f ∈ fs, 0 < f.len := fun f hf => (h.checked f hf).len
  have hcont := h.contiguous le_rfl (by omega)
  exact ⟨hcont, hcont.disjoint hlen, hcont.covers hlen⟩

end Tiles

/-! ## The copied values -/

section Copies

variable {record : Pointer} {f : FieldMeta} {v : Value} {pairs : List (FieldMeta × Value)} {x i : Nat}

theorem copiedLen_le (f : FieldMeta) (v : Value) : TableMeta.copiedLen f v ≤ f.len := by
  unfold TableMeta.copiedLen
  split
  · rename_i h
    exact h.2.le
  · exact le_rfl

theorem copyValues_outside (h : ∀ p ∈ pairs, 0 ≤ p.1.offset ∧
      (x < p.1.offset.toNat ∨ p.1.offset.toNat + p.1.len.toNat ≤ x)) :
    TableMeta.copyValues record pairs x = record x := by
  induction pairs generalizing record with
  | nil => rfl
  | cons p pairs ih =>
    obtain ⟨f, v⟩ := p
    rw [List.forall_mem_cons] at h
    rw [TableMeta.copyValues, ih h.2]
    have hle := copiedLen_le f v
    rcases h.1.2 with hlt | hge
    · exact Bytes.write_of_lt hlt
    · refine Bytes.write_of_ge ?_
      rw [Bytes.length_read]
      simp only at hge
      omega

theorem copyValues_at (hdis : pairs.Pairwise fun p q => p.1.offset + p.1.len ≤ q.1.offset)
    (hoff : ∀ p ∈ pairs, 0 ≤ p.1.offset ∧ 0 < p.1.len) (hmem : (f, v) ∈ pairs)
    (hi : i < (TableMeta.copiedLen f v).toNat) :
    TableMeta.copyValues record pairs (f.offset.toNat + i) = v.data i := by
  induction pairs generalizing record with
  | nil => cases hmem
  | cons p pairs ih =>
    rw [List.pairwise_cons] at hdis
    rw [List.forall_mem_cons] at hoff
    cases hmem with
    | head =>
      have hle := copiedLen_le f v
      rw [TableMeta.copyValues, copyValues_outside]
      · rw [Bytes.write_at (by rwa [Bytes.length_read]), Bytes.getElem_read, Nat.zero_add]
      · intro q hq
        have h1 := hdis.1 q hq
        have h2 := hoff.1
        simp only at h1 h2
        exact ⟨(hoff.2 q hq).1, Or.inl (by omega)⟩
    | tail _ hmem =>
      obtain ⟨g, w⟩ := p
      exact ih hdis.2 hoff.2 hmem

end Copies

/-! ## Reading them back -/

/-- The unit shows the value: a number as it is, a string cut to the length of the field. -/
def TupleUnit.Gives (u : TupleUnit) : Value → Prop
  | .ints v => u.attrType = .ints ∧ intAt u.data = v
  | .floats bits => u.attrType = .floats ∧ Bytes.read u.data 0 4 = Bytes.encode 4 bits.toNat
  | .chars s => u.attrType = .chars ∧ u.toText = (s.takeWhile (· ≠ 0)).take u.length.toNat
  | _ => False

section Reading

variable {p q : Pointer} {n k : Nat} {v : Int} {s : List UInt8}

theorem takeWhile_read (hk : k ≤ n) (hne : ∀ i < k, p i ≠ 0) (hz : k < n → p k = 0) :
    (Bytes.read p 0 n).takeWhile (· ≠ 0) = Bytes.read p 0 k := by
  obtain ⟨d, rfl⟩ := Nat.exists_eq_add_of_le hk
  rw [Bytes.read_add, Nat.zero_add, List.takeWhile_append_of_pos]
  · cases d with
    | zero => rw [show Bytes.read p k 0 = [] from rfl, List.takeWhile_nil, List.append_nil]
    | succ d =>
      have hzero : p k = 0 := hz (by omega)
      rw [Nat.add_comm d 1, Bytes.read_add]
      have hone : Bytes.read p k 1 = [0] := by
        rw [← hzero]
        rfl
      rw [hone, List.singleton_append, List.takeWhile_cons_of_neg (by simp), List.append_nil]
  · intro x hx
    obtain ⟨i, hi, rfl⟩ := List.mem_map.mp hx
    have hi := List.mem_range.mp hi
    rw [Nat.zero_add]
    simpa using hne i hi

theorem intAt_ints (hv : InInt32 v) (h : ∀ i < 4, p i = (Value.ints v).data i) : intAt p = v := by
  have hread : Bytes.read p 0 4 = Bytes.encode 4 v := by
    refine List.ext_getElem (by simp) fun i hi hi' => ?_
    have hi4 : i < 4 := by simpa using hi
    rw [Bytes.getElem_read, Nat.zero_add, h i hi4]
    change (Bytes.encode 4 v).getD i 0 = _
    rw [List.getD_eq_getElem _ _ hi']
  have hcopy : Bytes.read (Bytes.setInt (fun _ => 0) 0 4 v) 0 4 = Bytes.encode 4 v := by
    have hread : Bytes.read (Bytes.write (fun _ => 0) 0 (Bytes.encode 4 v)) 0 (Bytes.encode 4 v).length =
        Bytes.encode 4 v := Bytes.read_write
    rwa [Bytes.length_encode] at hread
  have hfits := Bytes.getInt_setInt_of_fits (m := fun _ => 0) (a := 0) (n := 4) (v := v)
    (by have := hv.1; norm_num; omega) (by have := hv.2; norm_num; omega)
  rw [intAt, Bytes.getInt, hread, ← hcopy, ← Bytes.getInt, hfits]

/-- The characters of a literal were copied, and its NUL if there was room for it. -/
theorem toText_chars (h : ∀ i, i < n → i < (s.takeWhile (· ≠ 0)).length + 1 → p i = (Value.chars s).data i) :
    (Bytes.read p 0 n).takeWhile (· ≠ 0) = (s.takeWhile (· ≠ 0)).take n := by
  have hdata : ∀ i, (Value.chars s).data i = s.getD i 0 := fun _ => rfl
  have hread : (Bytes.read p 0 n).takeWhile (· ≠ 0) =
      Bytes.read p 0 (min n (s.takeWhile (· ≠ 0)).length) := by
    refine takeWhile_read (Nat.min_le_left _ _) ?_ ?_
    · intro i hi
      rw [h i (by omega) (by omega), hdata]
      exact TupleUnit.getD_takeWhile_ne (by omega)
    · intro hlt
      have hmin : min n (s.takeWhile (· ≠ 0)).length = (s.takeWhile (· ≠ 0)).length := by omega
      rw [hmin, h _ (by omega) (by omega), hdata]
      exact TupleUnit.getD_takeWhile_end s
  rw [hread]
  refine List.ext_getElem (by simp) fun i hi hi' => ?_
  rw [Bytes.length_read] at hi
  rw [Bytes.getElem_read, Nat.zero_add, h i (by omega) (by omega), hdata, List.getElem_take]
  exact TupleUnit.getD_takeWhile (by omega)

end Reading

/-! ## The round trip -/

section RoundTrip

variable {m : TableMeta} {as : List AttrInfo} {name : Option String} {f : FieldMeta} {v : Value}
  {record : Pointer}

theorem isFieldValid_len (h : CreateTableStatement.isFieldValid f.attrInfo = some true) :
    (f.attrType = .ints ∨ f.attrType = .floats) ∧ f.len = 4 ∨ f.attrType = .chars := by
  unfold CreateTableStatement.isFieldValid FieldMeta.attrInfo at h
  simp only at h
  cases ht : f.attrType with
  | ints =>
    rw [ht] at h
    exact Or.inl ⟨Or.inl rfl, by simpa using h⟩
  | floats =>
    rw [ht] at h
    exact Or.inl ⟨Or.inr rfl, by simpa using h⟩
  | chars => exact Or.inr rfl
  | dates =>
    rw [ht] at h
    cases h
  | undefined =>
    rw [ht] at h
    cases h

theorem len_eq_four (h : CreateTableStatement.isFieldValid f.attrInfo = some true)
    (hnum : f.attrType = .ints ∨ f.attrType = .floats) : f.len = 4 := by
  cases isFieldValid_len h with
  | inl hlen => exact hlen.2
  | inr hchars =>
    rw [hchars] at hnum
    cases hnum with
    | inl h => cases h
    | inr h => cases h

/-- A field that got the bytes of its value shows it. -/
theorem gives_of_copied (hvalid : CreateTableStatement.isFieldValid f.attrInfo = some true)
    (htype : v.type = f.attrType) (hint : ∀ n, v = .ints n → InInt32 n)
    (hcopy : ∀ i < (TableMeta.copiedLen f v).toNat, record (f.offset.toNat + i) = v.data i) :
    TupleUnit.Gives ⟨f.attrType, f.len, Pointer.add record f.offset⟩ v := by
  have hlen := isFieldValid_len hvalid
  have hfull : f.attrType ≠ .chars → TableMeta.copiedLen f v = f.len := fun h => if_neg fun hc => h hc.1
  cases v with
  | ints n =>
    have ht : f.attrType = .ints := htype.symm
    have h4 : f.len = 4 := len_eq_four hvalid (.inl ht)
    refine ⟨ht, intAt_ints (hint n rfl) fun i hi => ?_⟩
    exact hcopy i (by rw [hfull (by rw [ht]; decide), h4]; exact hi)
  | floats bits =>
    have ht : f.attrType = .floats := htype.symm
    have h4 : f.len = 4 := len_eq_four hvalid (.inr ht)
    refine ⟨ht, List.ext_getElem (by simp) fun i hi hi' => ?_⟩
    have hi4 : i < 4 := by simpa using hi
    rw [Bytes.getElem_read, Nat.zero_add]
    change record (f.offset.toNat + i) = _
    rw [hcopy i (by rw [hfull (by rw [ht]; decide), h4]; exact hi4)]
    exact List.getD_eq_getElem _ _ hi'
  | chars s =>
    have ht : f.attrType = .chars := htype.symm
    refine ⟨ht, toText_chars fun i hi hi' => ?_⟩
    refine hcopy i ?_
    have hstrlen : (Value.chars s).strlen = (s.takeWhile (· ≠ 0)).length := rfl
    unfold TableMeta.copiedLen
    rw [hstrlen]
    have hi : i < f.len.toNat := hi
    split <;> omega
  | dates s =>
    rw [← htype] at hlen
    simp [Value.type] at hlen
  | undefined =>
    rw [← htype] at hlen
    simp [Value.type] at hlen

/-- Stamping a record changes nothing behind the field of the transaction. -/
theorem init_behind {t : FieldMeta} {txnId : Int} {x : Nat} (h : t.offset.toNat + 4 ≤ x) :
    TxnMark.init t txnId record x = record x := by
  unfold TxnMark.init TxnMark.setRecordTxnId
  exact Bytes.setInt_of_ge h

theorem copied_of_zip {fs : List FieldMeta} {values : List Value} {heap : Pointer} {size : Int} {i : Nat}
    (h : Layout 4 fs size) (hdis : fs.Pairwise fun f g => f.offset + f.len ≤ g.offset)
    (hlen : values.length = fs.length) (hf : fs[i]? = some f) (hv : values[i]? = some v) :
    ∀ j < (TableMeta.copiedLen f v).toNat,
      TableMeta.copyValues heap (fs.zip values) (f.offset.toNat + j) = v.data j := by
  intro j hj
  have hfst : (fs.zip values).map Prod.fst = fs := List.map_fst_zip hlen.ge
  refine copyValues_at ?_ ?_ ?_ hj
  · rw [← hfst] at hdis
    exact List.pairwise_map.mp hdis
  · intro p hp
    have hmem : p.1 ∈ fs := by
      rw [← hfst]
      exact List.mem_map_of_mem hp
    exact ⟨(h.checked p.1 hmem).offset, (h.checked p.1 hmem).len⟩
  · refine List.mem_of_getElem? (i := i) ?_
    rw [List.getElem?_zip_eq_some]
    exact ⟨hf, hv⟩

theorem type_eq_of_map {fs : List FieldMeta} {values : List Value} {i : Nat}
    (h : values.map Value.type = fs.map FieldMeta.attrType) (hf : fs[i]? = some f) (hv : values[i]? = some v) :
    v.type = f.attrType := by
  have hi := congrArg (·[i]?) h
  simp only [List.getElem?_map, hf, hv, Option.map_some, Option.some.injEq] at hi
  exact hi

/-- A row of the right types is laid out value by value. -/
theorem makeRecord_ok {fs : List FieldMeta} {values : List Value} (heap : Pointer)
    (hfields : m.fields = TableMeta.sysFields ++ fs)
    (htypes : values.map Value.type = fs.map FieldMeta.attrType) :
    m.makeRecord values heap = .ok (TableMeta.copyValues heap (fs.zip values)) := by
  have hdrop : m.fields.drop TableMeta.sysFields.length = fs := by
    rw [hfields]
    exact List.drop_left
  have hlen : values.length = fs.length := by
    have hlength := congrArg List.length htypes
    rwa [List.length_map, List.length_map] at hlength
  have hany : ((fs.zip values).any fun fv => fv.2.type ≠ fv.1.attrType) = false := by
    rw [List.any_eq_false]
    rintro ⟨f, v⟩ hmem
    obtain ⟨i, hi⟩ := List.getElem?_of_mem hmem
    rw [List.getElem?_zip_eq_some] at hi
    simp [type_eq_of_map htypes hi.1 hi.2]
  unfold TableMeta.makeRecord
  simp only [hdrop]
  rw [if_neg (not_not.mpr hlen), hany]
  rfl

theorem getUnitAt_ok {fields : List FieldMeta} {k : Nat} (h : fields[k]? = some f) :
    RowTuple.getUnitAt fields record k = .ok ⟨f.attrType, f.len, Pointer.add record f.offset⟩ := by
  have hindex : ¬((k : Int) < 0 ∨ (k : Int) ≥ fields.length) := by
    have hlt := (List.getElem?_eq_some_iff.mp h).1
    omega
  unfold RowTuple.getUnitAt
  rw [if_neg hindex, Int.toNat_natCast, h]

/-- Fields of valid attributes tile the record, and a row that was made, stamped and read again shows its
values. -/
theorem row_roundTrip (h : TableMeta.init name as = .ok m)
    (hvalid : ∀ a ∈ as, CreateTableStatement.isFieldValid a = some true)
    (hfit : 4 + (as.map AttrInfo.attrLen).sum < 2 ^ 31) :
    Tiles m.fields m.recordSize ∧
    ∀ (values : List Value) (heap : Pointer) (txnId : Int), values.map Value.type = as.map AttrInfo.attrType →
      (∀ n, Value.ints n ∈ values → InInt32 n) →
      ∃ record, m.makeRecord values heap = .ok record ∧
        ∀ (i : Nat) (v : Value), values[i]? = some v → ∃ f u, m.fields[i + 1]? = some f ∧
          RowTuple.getUnitAt m.fields (TxnMark.init m.getTxnField txnId record) (i + 1 : Nat) = .ok u ∧
          u.length = f.len ∧ u.Gives v := by
  obtain ⟨fs, hfields, hlayout, rfl, -, -⟩ := TableMeta.init_layout h
  have hsum : (m.fields.map FieldMeta.len).sum = 4 + ((fs.map FieldMeta.attrInfo).map AttrInfo.attrLen).sum := by
    rw [hfields, List.map_append, List.sum_append, List.map_map]
    rfl
  have htiles := hlayout.tiles (by omega)
  refine ⟨htiles, fun values heap txnId htypes hints => ?_⟩
  rw [List.map_map] at htypes
  have htypes : values.map Value.type = fs.map FieldMeta.attrType := htypes
  have hlen : values.length = fs.length := by
    have hlength := congrArg List.length htypes
    rwa [List.length_map, List.length_map] at hlength
  have hlayout4 : Layout 4 fs m.recordSize := by
    rw [hfields] at hlayout
    exact hlayout.2.2
  have hdis : fs.Pairwise fun f g => f.offset + f.len ≤ g.offset := by
    have hall := htiles.disjoint
    rw [hfields, List.pairwise_append] at hall
    exact hall.2.1
  refine ⟨_, makeRecord_ok heap hfields htypes, fun i v hv => ?_⟩
  have hi : i < fs.length := by
    rw [← hlen]
    exact (List.getElem?_eq_some_iff.mp hv).1
  obtain ⟨f, hf⟩ : ∃ f, fs[i]? = some f := ⟨_, List.getElem?_eq_getElem hi⟩
  have hmem : f ∈ fs := List.mem_of_getElem? hf
  have hget : m.fields[i + 1]? = some f := by
    rw [hfields]
    exact hf
  refine ⟨f, _, hget, getUnitAt_ok hget, rfl, ?_⟩
  refine gives_of_copied (hvalid _ (List.mem_map_of_mem hmem)) (type_eq_of_map htypes hf hv) ?_ ?_
  · rintro n rfl
    exact hints n (List.mem_of_getElem? hv)
  · intro j hj
    have hbehind : 4 ≤ f.offset := by
      have hcont := htiles.contiguous
      rw [hfields] at hcont
      exact ((hcont.2.bounds fun g hg => (hlayout4.checked g hg).len).2 f hmem).1
    have htxn : m.getTxnField.offset.toNat = 0 := by
      unfold TableMeta.getTxnField
      rw [hfields]
      rfl
    rw [init_behind (by omega)]
    exact copied_of_zip hlayout4 hdis hlen hf hv j hj

end RoundTrip

/-- The row `('a', 7)`, in memory that was not cleared. -/
theorem row_roundTrip_wide : Tiles wideTable.fields wideTable.recordSize ∧
    ∃ record, wideTable.makeRecord [.chars [97], .ints 7] (fun _ => 255) = .ok record ∧
      ∃ f u, wideTable.fields[2]? = some f ∧
        RowTuple.getUnitAt wideTable.fields (TxnMark.init wideTable.getTxnField 1 record) 2 = .ok u ∧
        u.length = f.len ∧ u.Gives (.ints 7) := by
  have hinit : TableMeta.init (some "t") [⟨some "c", .chars, 4⟩, ⟨some "n", .ints, 4⟩] = .ok wideTable := by
    decide
  obtain ⟨htiles, hrows⟩ := row_roundTrip hinit (by decide) (by decide)
  have hints : ∀ n, Value.ints n ∈ [Value.chars [97], .ints 7] → InInt32 n := by
    intro n hn
    simp only [List.mem_cons, reduceCtorEq, Value.ints.injEq, List.not_mem_nil, or_false, false_or] at hn
    rw [hn]
    decide
  obtain ⟨record, hrecord, hall⟩ := hrows [.chars [97], .ints 7] (fun _ => 255) 1 rfl hints
  exact ⟨htiles, record, hrecord, hall 1 (.ints 7) rfl⟩

end Idmbs
