import Idmbs.Lib.Bytes
import Idmbs.Storage.RecordHandler
import Mathlib.Tactic.Ring

/-!
# Idmbs.Storage.PageBytes

A page of records as bytes (storage/record.cpp): `PageHeader`, the bitmap behind it, and from
`first_record_offset` on the slots. `Holds` says which records lie on a page, and each call of
`RecordPageHandler` has a lemma about it. Memory goes on behind the page.
-/

namespace Idmbs

open Bytes

theorem pageBitmapSize_eq (c : Nat) : pageBitmapSize c = (c + 7) / 8 := by
  unfold pageBitmapSize
  split <;> omega

theorem align8_eq (n : Nat) : align8 n = (n + 7) / 8 * 8 := by
  unfold align8
  split <;> omega

/-- The slots of the layout end inside the page if the remainder of the division is large enough. -/
theorem slots_le_iff {P a c : Nat} (hc : c = (P - 20 - 1) * 8 / (align8 a * 8 + 1)) (h1 : 1 ≤ c) :
    align8 (20 + pageBitmapSize c) + c * align8 a ≤ P ↔
      P % 8 * 8 ≤ (P - 20 - 1) * 8 % (align8 a * 8 + 1) + 8 := by
  have hdiv := Nat.div_add_mod ((P - 20 - 1) * 8) (align8 a * 8 + 1)
  rw [← hc] at hdiv
  have hP : 21 ≤ P := by
    by_contra hlt
    rw [show P - 20 - 1 = 0 by omega, Nat.zero_mul, Nat.zero_div] at hc
    omega
  rw [align8_eq a] at hdiv ⊢
  obtain ⟨b, hb⟩ : ∃ b, (a + 7) / 8 = b := ⟨_, rfl⟩
  obtain ⟨r, hr⟩ : ∃ r, (P - 20 - 1) * 8 % (b * 8 * 8 + 1) = r := ⟨_, rfl⟩
  obtain ⟨t, ht⟩ : ∃ t, c * b = t := ⟨_, rfl⟩
  rw [hb, hr] at hdiv
  have hdiv : 64 * t + c + r = (P - 20 - 1) * 8 := by
    rw [← hdiv, ← ht]
    ring
  have hslots : c * (b * 8) = 8 * t := by
    rw [← ht]
    ring
  rw [hb, hr, hslots, align8_eq, pageBitmapSize_eq]
  omega

/-- `PageRecordCapacity` of a page of any size; the division by `record_size + 0.125` is taken in eighths. -/
def recordCapacityOf (pageDataSize recordSize : Nat) : Nat := (pageDataSize - 20 - 1) * 8 / (recordSize * 8 + 1)

def pageHeaderSize (recordCapacity : Nat) : Nat := align8 (20 + pageBitmapSize recordCapacity)

/-! ## The bytes of a page -/

namespace PageBytes

open BitMap

def recordNum (m : Memory) : Int := getInt m 0 4

def recordCapacity (m : Memory) : Int := getInt m 4 4

def recordRealSize (m : Memory) : Int := getInt m 8 4

def recordSize (m : Memory) : Int := getInt m 12 4

def firstRecordOffset (m : Memory) : Int := getInt m 16 4

/-- `GetBit` of the bitmap behind the header. -/
def getBit (m : Memory) (i : Nat) : Bool := bit (m (20 + i / 8)) (i % 8)

def setBit (m : Memory) (i : Nat) : Memory :=
  Function.update m (20 + i / 8) (m (20 + i / 8) ||| UInt8.ofNat (1 <<< (i % 8)))

def clearBit (m : Memory) (i : Nat) : Memory :=
  Function.update m (20 + i / 8) (m (20 + i / 8) &&& ~~~UInt8.ofNat (1 <<< (i % 8)))

/-- `GetRecordData`: where the record of a slot begins. -/
def getRecordData (m : Memory) (slot : Nat) : Nat := (firstRecordOffset m + recordSize m * slot).toNat

/-- `InitEmptyPage`: the header and a bitmap of zeros. -/
def initEmptyPage (pageDataSize recordSize : Nat) (m : Memory) : Memory :=
  let recordPhySize := align8 recordSize
  let recordCapacity := recordCapacityOf pageDataSize recordPhySize
  let m := setInt m 0 4 0
  let m := setInt m 4 4 recordCapacity
  let m := setInt m 8 4 recordSize
  let m := setInt m 12 4 recordPhySize
  let m := setInt m 16 4 (pageHeaderSize recordCapacity)
  zero m 20 (pageBitmapSize recordCapacity)

/-- `memmove` of `record_real_size` bytes from `data` into a slot. -/
def setRecordData (m : Memory) (slot : Nat) (data : Memory) : Memory :=
  write m (getRecordData m slot) (read data 0 (recordRealSize m).toNat)

def insertRecord (m : Memory) (data : Memory) : Re × Option Nat × Memory :=
  if recordNum m = recordCapacity m then (.recordNoMem, none, m)
  else
    match nextUnsetBit (getBit m) (recordCapacity m).toNat 0 with
    | some slot =>
      let m := setBit m slot
      let m := setInt m 0 4 (recordNum m + 1)
      (.success, some slot, setRecordData m slot data)
    | none => (.recordNoMem, none, m)

def updateRecord (m : Memory) (slot : Nat) (data : Memory) : Re × Memory :=
  if recordCapacity m ≤ slot then (.invalidArgument, m)
  else if getBit m slot = false then (.recordRecordNotExist, m)
  else (.success, setBit (setRecordData m slot data) slot)

/-- `DeleteRecord`, and whether it disposes the page. -/
def deleteRecord (m : Memory) (slot : Nat) : Re × Bool × Memory :=
  if recordCapacity m ≤ slot then (.invalidArgument, false, m)
  else if getBit m slot then
    let m := clearBit m slot
    let m := setInt m 0 4 (recordNum m - 1)
    (.success, decide (recordNum m = 0), m)
  else (.recordRecordNotExist, false, m)

/-- `GetRecord`, with the address that the record points to. -/
def getRecord (m : Memory) (slot : Nat) : Re × Option Nat :=
  if recordCapacity m ≤ slot then (.recordInvalidRId, none)
  else if getBit m slot = false then (.recordRecordNotExist, none)
  else (.success, some (getRecordData m slot))

/-! ## Bits of the map -/

section Bits

variable {m m' : Memory} {i j c : Nat}

theorem setBit_of_ne {x : Nat} (h : x ≠ 20 + i / 8) : setBit m i x = m x := Function.update_of_ne h _ _

theorem clearBit_of_ne {x : Nat} (h : x ≠ 20 + i / 8) : clearBit m i x = m x := Function.update_of_ne h _ _

theorem div_ne_or_mod_ne (h : j ≠ i) : j / 8 ≠ i / 8 ∨ i % 8 ≠ j % 8 := by omega

theorem getBit_setBit : getBit (setBit m i) = Function.update (getBit m) i true := by
  funext j
  by_cases hj : j = i
  · subst hj
    rw [Function.update_self, getBit, setBit, Function.update_self, bit_or (Nat.mod_lt _ (by decide)),
      decide_eq_true rfl, Bool.or_true]
  · rw [Function.update_of_ne hj]
    by_cases hbyte : j / 8 = i / 8
    · have hmod : ¬i % 8 = j % 8 := fun he => (div_ne_or_mod_ne hj).elim (fun h => h hbyte) fun h => h he
      rw [getBit, setBit, hbyte, Function.update_self, bit_or (Nat.mod_lt _ (by decide)),
        decide_eq_false hmod, Bool.or_false, getBit, hbyte]
    · rw [getBit, setBit_of_ne (by omega)]
      rfl

theorem getBit_clearBit : getBit (clearBit m i) = Function.update (getBit m) i false := by
  funext j
  have h8 : ∀ k, k % 8 < 8 := fun k => Nat.mod_lt k (by decide)
  by_cases hj : j = i
  · subst hj
    rw [Function.update_self, getBit, clearBit, Function.update_self, bit_and_not (h8 _) (h8 _),
      decide_eq_true rfl, Bool.not_true, Bool.and_false]
  · rw [Function.update_of_ne hj]
    by_cases hbyte : j / 8 = i / 8
    · have hmod : ¬i % 8 = j % 8 := fun he => (div_ne_or_mod_ne hj).elim (fun h => h hbyte) fun h => h he
      rw [getBit, clearBit, hbyte, Function.update_self, bit_and_not (h8 _) (h8 _),
        decide_eq_false hmod, Bool.not_false, Bool.and_true, getBit, hbyte]
    · rw [getBit, clearBit_of_ne (by omega)]
      rfl

theorem getBit_congr (h : m' (20 + i / 8) = m (20 + i / 8)) : getBit m' i = getBit m i := by
  rw [getBit, h]
  rfl

end Bits

/-! ## What a page holds -/

section Holds

variable {recordSize c slot : Nat} {m m' data : Memory} {stored stored' : Nat → Option (List UInt8)}

/-- Where the record of a slot begins on a page of `c` records. -/
def slotOffset (recordSize c slot : Nat) : Nat := pageHeaderSize c + align8 recordSize * slot

/-- A page for `c` records of `recordSize` bytes, with the records in `stored`. -/
structure Holds (recordSize c : Nat) (m : Memory) (stored : Nat → Option (List UInt8)) : Prop where
  capacity : recordCapacity m = c
  realSize : 0 < c → recordRealSize m = recordSize
  size : 0 < c → PageBytes.recordSize m = align8 recordSize
  first : 0 < c → firstRecordOffset m = pageHeaderSize c
  num : recordNum m = (bitsFrom (getBit m) c 0).length
  bits : ∀ i < c, getBit m i = (stored i).isSome
  bytes : ∀ i < c, ∀ bs, stored i = some bs → read m (slotOffset recordSize c i) recordSize = bs

theorem le_align8 (n : Nat) : n ≤ align8 n := by
  rw [align8_eq]
  omega

theorem bitmap_le_header (c : Nat) : 20 + pageBitmapSize c ≤ pageHeaderSize c := le_align8 _

theorem slotOffset_succ (recordSize c slot : Nat) :
    slotOffset recordSize c (slot + 1) = slotOffset recordSize c slot + align8 recordSize := by
  unfold slotOffset
  rw [Nat.mul_succ, Nat.add_assoc]

theorem slotOffset_apart (recordSize c : Nat) {i j : Nat} (h : i < j) :
    slotOffset recordSize c i + align8 recordSize ≤ slotOffset recordSize c j := by
  rw [← slotOffset_succ]
  exact Nat.add_le_add_left (Nat.mul_le_mul_left _ h) _

theorem bit_lt_slotOffset (recordSize slot : Nat) {i : Nat} (h : i < c) : 20 + i / 8 < slotOffset recordSize c slot := by
  have hbyte := lt_pageBitmapSize h
  have hhdr := bitmap_le_header c
  unfold slotOffset
  omega

theorem Holds.getRecordData (h : Holds recordSize c m stored) (hc : 0 < c) (slot : Nat) :
    PageBytes.getRecordData m slot = slotOffset recordSize c slot := by
  rw [PageBytes.getRecordData, h.first hc, h.size hc, slotOffset]
  exact congrArg Int.toNat (by push_cast; rfl) |>.trans (Int.toNat_natCast _)

/-- Outside of `record_num`, the byte of the slot's bit and the slot itself nothing is changed. -/
structure Touches (recordSize c slot : Nat) (m m' : Memory) : Prop where
  outside : ∀ x, 4 ≤ x → x ≠ 20 + slot / 8 →
    x < slotOffset recordSize c slot ∨ slotOffset recordSize c slot + recordSize ≤ x → m' x = m x
  bits : ∀ i < c, i ≠ slot → getBit m' i = getBit m i

theorem Touches.record (h : Touches recordSize c slot m m') (hs : slot < c) {i : Nat} (hi : i ≠ slot) :
    read m' (slotOffset recordSize c i) (align8 recordSize) =
      read m (slotOffset recordSize c i) (align8 recordSize) := by
  refine read_congr fun k hk => ?_
  have hbit : 20 + slot / 8 < slotOffset recordSize c i := bit_lt_slotOffset _ _ hs
  have hle := le_align8 recordSize
  refine h.outside _ (by omega) (by omega) ?_
  rcases Nat.lt_or_gt_of_ne hi with hlt | hlt
  · have := slotOffset_apart recordSize c hlt
    exact .inl (by omega)
  · have := slotOffset_apart recordSize c hlt
    exact .inr (by omega)

theorem Touches.field (h : Touches recordSize c slot m m') (hs : slot < c) {a : Nat} (ha : 4 ≤ a)
    (ha' : a + 4 ≤ 20) : getInt m' a 4 = getInt m a 4 := by
  refine getInt_congr fun k hk => ?_
  have hbit : 20 + slot / 8 < slotOffset recordSize c slot := bit_lt_slotOffset _ _ hs
  exact h.outside _ (by omega) (by omega) (.inl (by omega))

/-- A page after a call that touched one slot holds what it held, but for that slot. -/
theorem Holds.touched (h : Holds recordSize c m stored) (hs : slot < c) (ht : Touches recordSize c slot m m')
    (hnum : recordNum m' = (bitsFrom (getBit m') c 0).length) (v : Option (List UInt8))
    (hbit : getBit m' slot = v.isSome)
    (hbytes : ∀ bs, v = some bs → read m' (slotOffset recordSize c slot) recordSize = bs) :
    Holds recordSize c m' (Function.update stored slot v) where
  capacity := (ht.field hs (by decide) (by decide)).trans h.capacity
  realSize hc := (ht.field hs (by decide) (by decide)).trans (h.realSize hc)
  size hc := (ht.field hs (by decide) (by decide)).trans (h.size hc)
  first hc := (ht.field hs (by decide) (by decide)).trans (h.first hc)
  num := hnum
  bits i hi := by
    by_cases he : i = slot
    · subst he
      rw [Function.update_self, hbit]
    · rw [Function.update_of_ne he, ht.bits i hi he, h.bits i hi]
  bytes i hi bs hbs := by
    by_cases he : i = slot
    · subst he
      rw [Function.update_self] at hbs
      exact hbytes bs hbs
    · rw [Function.update_of_ne he] at hbs
      rw [← take_read (le_align8 recordSize), ht.record hs he, take_read (le_align8 recordSize)]
      exact h.bytes i hi bs hbs

/-- Writing a slot and `record_num` leaves the bits. -/
theorem getBit_setInt {v : Int} : getBit (setInt m 0 4 v) = getBit m := by
  funext i
  exact getBit_congr (setInt_of_ge (by omega))

theorem getBit_write {i : Nat} {bs : List UInt8} (h : i < c) :
    getBit (write m (slotOffset recordSize c slot) bs) i = getBit m i :=
  getBit_congr (write_of_lt (bit_lt_slotOffset _ _ h))

theorem recordNum_write {bs : List UInt8} : recordNum (write m (slotOffset recordSize c slot) bs) = recordNum m := by
  refine getInt_congr fun k hk => write_of_lt ?_
  have := bitmap_le_header c
  unfold slotOffset
  omega

theorem recordNum_setBit : recordNum (setBit m slot) = recordNum m :=
  getInt_congr fun k hk => setBit_of_ne (by omega)

theorem recordNum_clearBit : recordNum (clearBit m slot) = recordNum m :=
  getInt_congr fun k hk => clearBit_of_ne (by omega)

end Holds

/-! ## One call -/

section Calls

variable {recordSize c slot : Nat} {m m' m'' data : Memory} {stored : Nat → Option (List UInt8)}

theorem Touches.trans (h : Touches recordSize c slot m m') (h' : Touches recordSize c slot m' m'') :
    Touches recordSize c slot m m'' where
  outside x hx hbit hslot := (h'.outside x hx hbit hslot).trans (h.outside x hx hbit hslot)
  bits i hi hne := (h'.bits i hi hne).trans (h.bits i hi hne)

theorem touches_setInt (v : Int) : Touches recordSize c slot m (setInt m 0 4 v) where
  outside _ hx _ _ := setInt_of_ge hx
  bits i _ _ := congrFun getBit_setInt i

theorem touches_setBit : Touches recordSize c slot m (setBit m slot) where
  outside _ _ hbit _ := setBit_of_ne hbit
  bits i _ hne := by rw [getBit_setBit, Function.update_of_ne hne]

theorem touches_clearBit : Touches recordSize c slot m (clearBit m slot) where
  outside _ _ hbit _ := clearBit_of_ne hbit
  bits i _ hne := by rw [getBit_clearBit, Function.update_of_ne hne]

theorem touches_write (data : Memory) :
    Touches recordSize c slot m (write m (slotOffset recordSize c slot) (read data 0 recordSize)) where
  outside x _ _ hslot := by
    cases hslot with
    | inl hlt => exact write_of_lt hlt
    | inr hge => exact write_of_ge (by rwa [length_read])
  bits _ hi _ := getBit_write hi

/-- The bytes that are copied into a slot are those found there. -/
theorem read_write_slot {a : Nat} : read (write m a (read data 0 recordSize)) a recordSize = read data 0 recordSize := by
  have h : read (write m a (read data 0 recordSize)) a (read data 0 recordSize).length = read data 0 recordSize :=
    read_write
  rwa [length_read] at h

/-- The fields that a call leaves keep the address and the length of records. -/
theorem Holds.setRecordData (h : Holds recordSize c m stored) (hs : slot < c)
    (ht : Touches recordSize c slot m m') : PageBytes.setRecordData m' slot data =
      write m' (slotOffset recordSize c slot) (read data 0 recordSize) := by
  have hc : 0 < c := Nat.zero_lt_of_lt hs
  have hlen : recordRealSize m' = recordSize := (ht.field hs (by decide) (by decide)).trans (h.realSize hc)
  have hsize : PageBytes.recordSize m' = PageBytes.recordSize m := ht.field hs (by decide) (by decide)
  have hfirst : firstRecordOffset m' = firstRecordOffset m := ht.field hs (by decide) (by decide)
  have haddr : PageBytes.getRecordData m' slot = PageBytes.getRecordData m slot := by
    rw [PageBytes.getRecordData, hsize, hfirst]
    rfl
  rw [PageBytes.setRecordData, haddr, h.getRecordData hc, hlen, Int.toNat_natCast]

theorem recordNum_setInt {v : Int} (h : 0 ≤ v) (hlt : v < 2 ^ 31) : recordNum (setInt m 0 4 v) = v :=
  getInt_setInt_of_fits (by norm_num; omega) (by norm_num; omega)

theorem Holds.num_le (h : Holds recordSize c m stored) : 0 ≤ recordNum m ∧ recordNum m ≤ c := by
  have hle := length_bitsFrom_le (getBit m) c 0
  rw [h.num]
  omega

theorem Holds.insertRecord_full (h : Holds recordSize c m stored) (hfull : ∀ i < c, getBit m i = true)
    (data : Memory) : insertRecord m data = (.recordNoMem, none, m) := by
  have heq : recordNum m = recordCapacity m := by
    rw [h.num, h.capacity, length_bitsFrom_eq_iff.mpr hfull]
  rw [insertRecord, if_pos heq]

/-- On another page the lowest free slot gets the record. -/
theorem Holds.insertRecord_free (h : Holds recordSize c m stored) (hc : c < 2 ^ 31) {i : Nat} (hi : i < c)
    (hfree : getBit m i = false) (data : Memory) : ∃ slot m', insertRecord m data = (.success, some slot, m') ∧
      slot < c ∧ getBit m slot = false ∧ (∀ j < slot, getBit m j = true) ∧ Touches recordSize c slot m m' ∧
      Holds recordSize c m' (Function.update stored slot (some (read data 0 recordSize))) := by
  have hne : recordNum m ≠ recordCapacity m := by
    rw [h.num, h.capacity]
    intro he
    have hall := length_bitsFrom_eq_iff.mp (Int.ofNat_inj.mp he) i hi
    rw [hfree] at hall
    cases hall
  rcases nextSetBit_cases (b := fun i => !getBit m i) c (k := 0) (.inl rfl) with
    ⟨-, hnil⟩ | ⟨slot, hfind, -, hslot, hbit, hcons⟩
  · have hmem : i ∈ bitsFrom (fun i => !getBit m i) c 0 :=
      mem_bitsFrom.mpr ⟨Nat.zero_le _, hi, by rw [hfree]; rfl⟩
    rw [hnil] at hmem
    cases hmem
  · have hclear : getBit m slot = false := by
      cases hb : getBit m slot with
      | false => rfl
      | true =>
        rw [hb] at hbit
        cases hbit
    have hlow : ∀ j < slot, getBit m j = true := by
      intro j hj
      by_contra hb
      have hmem : j ∈ bitsFrom (fun i => !getBit m i) c 0 :=
        mem_bitsFrom.mpr ⟨Nat.zero_le _, hj.trans hslot, by rw [eq_false_of_ne_true hb]; rfl⟩
      rw [hcons, List.mem_cons, mem_bitsFrom] at hmem
      omega
    have hcount : ((bitsFrom (getBit (setBit m slot)) c 0).length : Int) = recordNum m + 1 := by
      rw [getBit_setBit, length_bitsFrom_set hslot hclear, h.num]
      rfl
    have hle : recordNum m + 1 ≤ c := by
      have hle := length_bitsFrom_le (getBit (setBit m slot)) c 0
      omega
    have ht : Touches recordSize c slot m (setInt (setBit m slot) 0 4 (recordNum m + 1)) :=
      touches_setBit.trans (touches_setInt _)
    have ht' := ht.trans (touches_write data)
    refine ⟨slot, _, ?_, hslot, hclear, hlow, ht', ?_⟩
    · rw [insertRecord, if_neg hne, h.capacity, Int.toNat_natCast]
      unfold nextUnsetBit
      rw [hfind]
      simp only [recordNum_setBit, h.setRecordData hslot ht]
    · refine h.touched hslot ht' ?_ _ ?_ fun bs hbs => ?_
      · rw [recordNum_write, recordNum_setInt (by have := h.num_le; omega) (by omega), ← hcount]
        refine congrArg (fun l : List Nat => (l.length : Int)) (bitsFrom_congr fun j _ hj => ?_)
        rw [getBit_write hj, getBit_setInt]
      · rw [getBit_write hslot, getBit_setInt, getBit_setBit, Function.update_self]
        rfl
      · cases hbs
        exact read_write_slot

theorem Holds.update_live (h : Holds recordSize c m stored) (hs : slot < c) (hlive : getBit m slot = true)
    (data : Memory) : ∃ m', updateRecord m slot data = (.success, m') ∧ Touches recordSize c slot m m' ∧
      Holds recordSize c m' (Function.update stored slot (some (read data 0 recordSize))) := by
  have ht : Touches recordSize c slot m m := ⟨fun _ _ _ _ => rfl, fun _ _ _ => rfl⟩
  have ht' : Touches recordSize c slot m
      (setBit (write m (slotOffset recordSize c slot) (read data 0 recordSize)) slot) :=
    (touches_write data).trans touches_setBit
  refine ⟨_, ?_, ht', ?_⟩
  · rw [updateRecord, if_neg (by rw [h.capacity]; omega), if_neg (by rw [hlive]; exact Bool.false_ne_true.symm),
      h.setRecordData hs ht]
  · have hbits : ∀ j < c, getBit (setBit (write m (slotOffset recordSize c slot) (read data 0 recordSize)) slot) j =
        getBit m j := by
      intro j hj
      rw [getBit_setBit]
      by_cases he : j = slot
      · rw [he, Function.update_self, hlive]
      · rw [Function.update_of_ne he, getBit_write hj]
    refine h.touched hs ht' ?_ _ ?_ fun bs hbs => ?_
    · rw [recordNum_setBit, recordNum_write, h.num, bitsFrom_congr fun j _ hj => hbits j hj]
    · rw [hbits slot hs, hlive]
      rfl
    · cases hbs
      refine (read_congr fun k _ => setBit_of_ne ?_).trans read_write_slot
      have := bit_lt_slotOffset recordSize slot hs
      omega

theorem Holds.delete_live (h : Holds recordSize c m stored) (hc : c < 2 ^ 31) (hs : slot < c)
    (hlive : getBit m slot = true) : ∃ m', deleteRecord m slot = (.success, decide (recordNum m' = 0), m') ∧
      Touches recordSize c slot m m' ∧ Holds recordSize c m' (Function.update stored slot none) := by
  have ht : Touches recordSize c slot m (setInt (clearBit m slot) 0 4 (recordNum m - 1)) :=
    touches_clearBit.trans (touches_setInt _)
  have hcount : ((bitsFrom (getBit (clearBit m slot)) c 0).length : Int) = recordNum m - 1 := by
    have := length_bitsFrom_clear hs hlive
    rw [getBit_clearBit, h.num]
    omega
  refine ⟨_, ?_, ht, ?_⟩
  · rw [deleteRecord, if_neg (by rw [h.capacity]; omega), if_pos hlive]
    simp only [recordNum_clearBit]
  · refine h.touched hs ht ?_ _ ?_ nofun
    · rw [recordNum_setInt (by omega) (by have := h.num_le; omega), getBit_setInt, hcount]
    · rw [getBit_setInt, getBit_clearBit, Function.update_self]
      rfl

end Calls

end PageBytes

end Idmbs
