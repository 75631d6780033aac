import Idmbs.Common.Re
import Idmbs.Lib.ItemPool
import Mathlib.Data.List.Nodup

/-!
# Idmbs.Storage.MemPool

`MemPoolItem` (storage/mem_pool.cpp): items of one size, cut from blocks that `malloc` gives. An item is
its address. A sum or product that does not fit in an `int` has no meaning, and a run ends there (`none`).
-/

namespace Idmbs

/-- `malloc`, which may fail. A block lies apart from the blocks of the same size there are. -/
structure Malloc where
  run : Nat → List Nat → Option Nat
  fresh : ∀ size pools a, run size pools = some a → ∀ p ∈ pools, p + size ≤ a ∨ a + size ≤ p

structure MemPoolItem extends ItemPool Nat where
  dynamic : Bool
  size : Int
  itemSize : Int
  itemNumPerPool : Int
  pools : List Nat

namespace MemPoolItem

/-- The constructor, which sets `size`; the other numbers are what they were. -/
def new (dynamic : Bool) (itemSize itemNumPerPool : Int) : MemPoolItem where
  used := ∅
  frees := []
  dynamic := dynamic
  size := 0
  itemSize := itemSize
  itemNumPerPool := itemNumPerPool
  pools := []

def poolItems (s : MemPoolItem) (pool : Nat) : List Nat :=
  (List.range s.itemNumPerPool.toNat).map fun i => pool + i * s.itemSize.toNat

def cleanup (s : MemPoolItem) : MemPoolItem :=
  if s.pools = [] then s else { s with used := ∅, frees := [], size := 0, pools := [] }

/-- `Extend`; `int` overflow has no meaning. -/
def extend (m : Malloc) (s : MemPoolItem) : Option (Int × MemPoolItem) :=
  if !s.dynamic then some (-1, s)
  else if RecordId.int32Max < s.itemNumPerPool * s.itemSize then none
  else
    match m.run (s.itemNumPerPool * s.itemSize).toNat s.pools with
    | none => some (-1, s)
    | some pool =>
      if RecordId.int32Max < s.size + s.itemNumPerPool then none
      else
        some (0, { s with
          toItemPool := s.toItemPool.grow (s.poolItems pool)
          size := s.size + s.itemNumPerPool
          pools := s.pools ++ [pool] })

def initLoop (m : Malloc) : Nat → MemPoolItem → Option (Int × MemPoolItem)
  | 0, s => some (0, s)
  | n + 1, s =>
    match s.extend m with
    | none => none
    | some (ret, s) => if ret < 0 then some (-1, s.cleanup) else initLoop m n s

def init (m : Malloc) (itemSize : Int) (dynamic : Bool) (poolNum itemNumPerPool : Int) (s : MemPoolItem) :
    Option (Int × MemPoolItem) :=
  if s.pools ≠ [] then some (0, s)
  else if itemSize ≤ 0 ∨ poolNum ≤ 0 ∨ itemNumPerPool ≤ 0 then some (-1, s)
  else
    match initLoop m poolNum.toNat
        { s with itemSize := itemSize, itemNumPerPool := itemNumPerPool, dynamic := true } with
    | none => none
    | some (ret, s) => if ret < 0 then some (-1, s) else some (0, { s with dynamic := dynamic })

/-- The end of `Alloc`, where there is a free item. -/
def takeFront (s : MemPoolItem) : Option Nat × MemPoolItem :=
  match s.toItemPool.take with
  | none => (none, s)
  | some (buffer, p) => (some buffer, { s with toItemPool := p })

/-- `Alloc`; `none` is `nullptr`. -/
def alloc (m : Malloc) (s : MemPoolItem) : Option (Option Nat × MemPoolItem) :=
  if s.frees = [] then
    if !s.dynamic then some (none, s)
    else
      match s.extend m with
      | none => none
      | some (ret, s) => if ret < 0 then some (none, s) else some s.takeFront
  else some s.takeFront

def free (item : Nat) (s : MemPoolItem) : MemPoolItem := { s with toItemPool := s.toItemPool.give item }

/-! ## Runs -/

inductive Call where
  | alloc (m : Malloc)
  | free (item : Nat)
  | extend (m : Malloc)

def Call.run (s : MemPoolItem) : Call → Option MemPoolItem
  | alloc m => (s.alloc m).map Prod.snd
  | free item => some (s.free item)
  | extend m => (s.extend m).map Prod.snd

def run (s : MemPoolItem) : List Call → Option MemPoolItem
  | [] => some s
  | c :: cs =>
    match c.run s with
    | none => none
    | some s => run s cs

def items (s : MemPoolItem) : List Nat := s.pools.flatMap s.poolItems

/-- The bytes of a block. -/
def poolSize (s : MemPoolItem) : Nat := (s.itemNumPerPool * s.itemSize).toNat

/-- The items of the blocks are in use or free, and counted. -/
structure Sound (s : MemPoolItem) : Prop where
  accounts : s.toItemPool.Accounts s.items
  size : s.size = s.items.length
  itemSize : 0 < s.itemSize
  itemNumPerPool : 0 < s.itemNumPerPool
  apart : s.pools.Pairwise fun p q => p + s.poolSize ≤ q ∨ q + s.poolSize ≤ p

variable {s s' : MemPoolItem} {m : Malloc} {ret : Int} {pool b n : Nat}

theorem mem_poolItems : b ∈ s.poolItems pool ↔
    ∃ i < s.itemNumPerPool.toNat, b = pool + i * s.itemSize.toNat := by
  unfold poolItems
  rw [List.mem_map]
  simp only [List.mem_range]
  exact ⟨fun ⟨i, hi, h⟩ => ⟨i, hi, h.symm⟩, fun ⟨i, hi, h⟩ => ⟨i, hi, h.symm⟩⟩

theorem length_poolItems : (s.poolItems pool).length = s.itemNumPerPool.toNat := by
  rw [poolItems, List.length_map, List.length_range]

theorem poolItems_bounds (h : s.Sound) (hb : b ∈ s.poolItems pool) : pool ≤ b ∧ b < pool + s.poolSize := by
  obtain ⟨i, hi, rfl⟩ := mem_poolItems.mp hb
  have hsize := h.itemSize
  have hnum := h.itemNumPerPool
  have hbytes : s.poolSize = s.itemNumPerPool.toNat * s.itemSize.toNat :=
    Int.toNat_mul (le_of_lt hnum) (le_of_lt hsize)
  have hlt : i * s.itemSize.toNat < s.itemNumPerPool.toNat * s.itemSize.toNat :=
    Nat.mul_lt_mul_of_pos_right hi (by omega)
  omega

theorem poolItems_nodup (h : s.Sound) : (s.poolItems pool).Nodup := by
  have hsize := h.itemSize
  refine List.nodup_range.map fun i j hij => ?_
  have hmul : i * s.itemSize.toNat = j * s.itemSize.toNat := Nat.add_left_cancel hij
  exact Nat.eq_of_mul_eq_mul_right (by omega) hmul

/-! ## One call -/

theorem extend_cases (h : s.extend m = some (ret, s')) :
    (ret = -1 ∧ s' = s ∧ (s.dynamic = false ∨ m.run s.poolSize s.pools = none)) ∨
    ∃ pool, ret = 0 ∧ s.dynamic = true ∧ m.run s.poolSize s.pools = some pool ∧
      s' = { s with
        toItemPool := s.toItemPool.grow (s.poolItems pool)
        size := s.size + s.itemNumPerPool
        pools := s.pools ++ [pool] } := by
  unfold extend at h
  split at h
  · rename_i hd
    cases h
    exact .inl ⟨rfl, rfl, .inl (by simpa using hd)⟩
  · rename_i hd
    split at h
    · cases h
    · split at h
      · rename_i hm
        cases h
        exact .inl ⟨rfl, rfl, .inr hm⟩
      · rename_i pool hm
        split at h
        · cases h
        · cases h
          exact .inr ⟨pool, rfl, by simpa using hd, hm, rfl⟩

theorem Sound.extend (h : s.Sound) (he : s.extend m = some (ret, s')) : s'.Sound := by
  rcases extend_cases he with ⟨-, rfl, -⟩ | ⟨pool, -, -, hm, rfl⟩
  · exact h
  · have hfresh := m.fresh _ _ _ hm
    have hitems : s.items ++ s.poolItems pool = (s.pools ++ [pool]).flatMap s.poolItems := by
      rw [List.flatMap_append, List.flatMap_singleton, items]
    have hnodup : (s.items ++ s.poolItems pool).Nodup := by
      refine List.nodup_append'.mpr ⟨h.accounts.nodup, poolItems_nodup h, fun b hb hb' => ?_⟩
      obtain ⟨q, hq, hbq⟩ := List.mem_flatMap.mp hb
      have h1 := poolItems_bounds h hbq
      have h2 := poolItems_bounds h hb'
      have h3 := hfresh q hq
      omega
    refine ⟨?_, ?_, h.itemSize, h.itemNumPerPool, ?_⟩
    · have hgrow := h.accounts.grow hnodup
      rw [hitems] at hgrow
      exact hgrow
    · have hlen := congrArg List.length hitems
      rw [List.length_append, length_poolItems] at hlen
      have hnum := h.itemNumPerPool
      have hsize := h.size
      calc s.size + s.itemNumPerPool = ((s.items.length + s.itemNumPerPool.toNat : Nat) : Int) := by omega
        _ = _ := by rw [hlen]; rfl
    · refine List.pairwise_append.mpr ⟨h.apart, List.pairwise_singleton _ _, fun q hq q' hq' => ?_⟩
      rw [List.mem_singleton.mp hq']
      exact hfresh q hq

theorem Sound.free (h : s.Sound) : (s.free b).Sound where
  accounts := h.accounts.give
  size := h.size
  itemSize := h.itemSize
  itemNumPerPool := h.itemNumPerPool
  apart := h.apart

theorem takeFront_spec (h : s.Sound) (hne : s.frees ≠ []) :
    ∃ b, s.takeFront.1 = some b ∧ b ∉ s.used ∧ b ∈ s.takeFront.2.items ∧
      s.takeFront.2.used = insert b s.used ∧ s.takeFront.2.Sound := by
  unfold takeFront
  cases ht : s.toItemPool.take with
  | none => exact absurd (ItemPool.take_eq_none_iff.mp ht) hne
  | some r =>
    obtain ⟨b, p⟩ := r
    obtain ⟨hb, hmem, hused, hacc⟩ := h.accounts.take ht
    exact ⟨b, rfl, hb, hmem, hused, hacc, h.size, h.itemSize, h.itemNumPerPool, h.apart⟩

/-- No free item is left, and none can be had. -/
def Exhausted (s : MemPoolItem) (m : Malloc) : Prop :=
  s.frees = [] ∧ (s.dynamic = false ∨ m.run s.poolSize s.pools = none)

/-- What `Alloc` answers and leaves. -/
structure Allocates (s : MemPoolItem) (m : Malloc) (r : Option Nat) (s' : MemPoolItem) : Prop where
  none_iff : r = none ↔ s.Exhausted m
  same : r = none → s' = s
  fresh : ∀ b, r = some b → b ∉ s.used ∧ b ∈ s'.items ∧ s'.used = insert b s.used
  sound : s'.Sound

theorem allocates_takeFront {s1 : MemPoolItem} {r : Option Nat} (h : s1.Sound) (hne : s1.frees ≠ [])
    (hsame : s1.used = s.used) (hcan : ¬s.Exhausted m) (ht : s1.takeFront = (r, s')) : s.Allocates m r s' := by
  obtain ⟨b, hb, hnot, hmem, hused, hsound⟩ := takeFront_spec h hne
  rw [hsame] at hnot hused
  rw [ht] at hb hmem hused hsound
  simp only at hb hmem hused hsound
  refine ⟨iff_of_false (by rw [hb]; nofun) hcan, fun hr => ?_, fun b' hb' => ?_, hsound⟩
  · rw [hb] at hr
    cases hr
  · rw [hb] at hb'
    cases hb'
    exact ⟨hnot, hmem, hused⟩

theorem alloc_spec {r : Option Nat} (h : s.Sound) (ha : s.alloc m = some (r, s')) : s.Allocates m r s' := by
  unfold alloc at ha
  split at ha
  · rename_i hnil
    split at ha
    · rename_i hd
      cases ha
      exact ⟨iff_of_true rfl ⟨hnil, .inl (by simpa using hd)⟩, fun _ => rfl, nofun, h⟩
    · cases hext : s.extend m with
      | none =>
        rw [hext] at ha
        cases ha
      | some x =>
        obtain ⟨ret, s1⟩ := x
        rw [hext] at ha
        have h1 := h.extend hext
        rcases extend_cases hext with ⟨rfl, rfl, hfail⟩ | ⟨pool, rfl, hdyn, hm, hs1⟩
        · cases ha
          exact ⟨iff_of_true rfl ⟨hnil, hfail⟩, fun _ => rfl, nofun, h⟩
        · have hnum := h.itemNumPerPool
          have hlen : s1.frees.length = s.itemNumPerPool.toNat := by
            rw [hs1]
            simp [ItemPool.grow, hnil, length_poolItems]
          have hne : s1.frees ≠ [] := by
            intro h0
            rw [h0, List.length_nil] at hlen
            omega
          have hused : s1.used = s.used := by
            rw [hs1]
            rfl
          have hcan : ¬s.Exhausted m := by
            rintro ⟨-, hd' | hm'⟩
            · rw [hdyn] at hd'
              cases hd'
            · rw [hm] at hm'
              cases hm'
          exact allocates_takeFront h1 hne hused hcan (Option.some.inj ha)
  · rename_i hne
    exact allocates_takeFront h hne rfl (fun hex => hne hex.1) (Option.some.inj ha)

/-! ## Whole runs -/

theorem Call.run_sound (h : s.Sound) {c : Call} (hc : c.run s = some s') : s'.Sound := by
  cases c with
  | alloc m =>
    obtain ⟨⟨r, s1⟩, ha, rfl⟩ := Option.map_eq_some_iff.mp hc
    exact (alloc_spec h ha).sound
  | free item =>
    cases hc
    exact h.free
  | extend m =>
    obtain ⟨⟨r, s1⟩, he, rfl⟩ := Option.map_eq_some_iff.mp hc
    exact h.extend he

theorem run_sound (h : s.Sound) {cs : List Call} (hrun : run s cs = some s') : s'.Sound := by
  induction cs generalizing s with
  | nil =>
    cases hrun
    exact h
  | cons c cs ih =>
    rw [run] at hrun
    cases hc : c.run s with
    | none =>
      rw [hc] at hrun
      cases hrun
    | some s1 =>
      rw [hc] at hrun
      exact ih (c.run_sound h hc) hrun

theorem initLoop_sound (h : s.Sound) (hloop : initLoop m n s = some (ret, s')) (hret : ¬ret < 0) : s'.Sound := by
  induction n generalizing s with
  | zero =>
    cases hloop
    exact h
  | succ n ih =>
    rw [initLoop] at hloop
    cases he : s.extend m with
    | none =>
      rw [he] at hloop
      cases hloop
    | some x =>
      obtain ⟨ret, s1⟩ := x
      rw [he] at hloop
      simp only at hloop
      split at hloop
      · cases hloop
        exact absurd (by decide) hret
      · exact ih (h.extend he) hloop

theorem init_sound {d dynamic : Bool} {i n itemSize poolNum itemNumPerPool : Int}
    (hinit : (new d i n).init m itemSize dynamic poolNum itemNumPerPool = some (0, s)) : s.Sound := by
  unfold init at hinit
  split at hinit
  · rename_i hne
    exact absurd rfl hne
  · split at hinit
    · cases hinit
    · rename_i hargs
      rw [not_or, not_or, not_le, not_le, not_le] at hargs
      split at hinit
      · cases hinit
      · rename_i ret s1 hloop
        split at hinit
        · cases hinit
        · rename_i hret
          cases hinit
          have hfirst : ({ new d i n with
              itemSize := itemSize, itemNumPerPool := itemNumPerPool, dynamic := true } : MemPoolItem).Sound :=
            ⟨ItemPool.accounts_empty, rfl, hargs.1, hargs.2.2, .nil⟩
          have hsound := initLoop_sound hfirst hloop hret
          exact ⟨hsound.accounts, hsound.size, hsound.itemSize, hsound.itemNumPerPool, hsound.apart⟩

/-- After a successful `Init` every run keeps account of the items of all blocks, and hands out none that
is in use. -/
theorem run_accounts (m : Malloc) (d dynamic : Bool) (i n itemSize poolNum itemNumPerPool : Int)
    (s0 s : MemPoolItem) (cs : List Call)
    (hinit : (new d i n).init m itemSize dynamic poolNum itemNumPerPool = some (0, s0))
    (hrun : run s0 cs = some s) :
    ((∀ b ∈ s.used, b ∉ s.frees) ∧ s.frees.Nodup) ∧
    (s.items.Nodup ∧ ∀ b, b ∈ s.used ∨ b ∈ s.frees ↔
      ∃ pool ∈ s.pools, ∃ i < s.itemNumPerPool.toNat, b = pool + i * s.itemSize.toNat) ∧
    s.size = s.used.card + s.frees.length ∧
    (∀ m r s', s.alloc m = some (r, s') → s.Allocates m r s') ∧
    ∀ b, b ∉ s.used → s.free b = s := by
  have h := run_sound (init_sound hinit) hrun
  refine ⟨⟨fun b hb => h.accounts.not_mem_frees hb, h.accounts.frees_nodup⟩,
    ⟨h.accounts.nodup, fun b => ?_⟩, ?_, fun m r s' ha => alloc_spec h ha, fun b hb => ?_⟩
  · rw [← h.accounts.mem_iff, items, List.mem_flatMap]
    simp only [mem_poolItems]
  · rw [h.size, ← h.accounts.card]
    exact Int.natCast_add ..
  · rw [free, ItemPool.give_of_not_mem hb]

/-- A `malloc` that gives the place behind all blocks. -/
def bumpMalloc : Malloc where
  run size pools := some (pools.foldr (fun p a => max (p + size) a) 1)
  fresh := by
    intro size pools a h p hp
    cases h
    refine .inl ?_
    induction pools with
    | nil => cases hp
    | cons q pools ih =>
      rw [List.foldr_cons]
      rcases List.mem_cons.mp hp with rfl | hp
      · exact Nat.le_max_left ..
      · exact (ih hp).trans (Nat.le_max_right ..)

/-- A pool of one block of two items: the first comes back, a second time in vain, and the other one is
handed out. -/
theorem run_accounts_two : ∃ s0 s, (new false 0 0).init bumpMalloc 8 false 1 2 = some (0, s0) ∧
    run s0 [.alloc bumpMalloc, .free 1, .free 1, .alloc bumpMalloc] = some s ∧ s.used = {9} ∧
    ((∀ b ∈ s.used, b ∉ s.frees) ∧ s.frees.Nodup) ∧ s.size = s.used.card + s.frees.length := by
  obtain ⟨s0, hinit⟩ : ∃ s0, (new false 0 0).init bumpMalloc 8 false 1 2 = some (0, s0) := ⟨_, rfl⟩
  obtain ⟨s, hrun, hused⟩ : ∃ s, run s0 [.alloc bumpMalloc, .free 1, .free 1, .alloc bumpMalloc] = some s ∧
      s.used = {9} := by
    cases hinit
    exact ⟨_, rfl, by decide⟩
  obtain ⟨hparted, -, hsize, -⟩ := run_accounts bumpMalloc false false 0 0 8 1 2 s0 s _ hinit hrun
  exact ⟨s0, s, hinit, hrun, hused, hparted, hsize⟩

end MemPoolItem

end Idmbs
