import Idmbs.Lib.ItemPool
import Idmbs.Storage.BufferPool
import Idmbs.Storage.LruRecency

/-!
# Idmbs.Storage.FrameManager

`FrameManager` (storage/buffer_pool.cpp) with its `MemoryPool` (storage/mem_pool.h) and its `LruCache`. A
frame is an item of the pool: the array it lies in and its index there. Ownership of a frame is spread over
the cache, the used and the free items; over every run of calls they agree.
-/

namespace Idmbs

/-- A pointer to an item: the array from `new T[]` and the index. -/
abbrev ItemPointer := Nat × Nat

structure MemoryPool extends ItemPool ItemPointer where
  isDynamic : Bool
  pools : List Nat
  itemNumPerPool : Int

namespace MemoryPool

def new : MemoryPool where
  used := ∅
  frees := []
  isDynamic := false
  pools := []
  itemNumPerPool := 0

def poolItems (s : MemoryPool) (pool : Nat) : List ItemPointer :=
  (List.range s.itemNumPerPool.toNat).map fun i => (pool, i)

/-- `Extend`; `new` throws where there is no memory. -/
def extend (new : New) (s : MemoryPool) : Bool × MemoryPool :=
  if !s.isDynamic then (false, s)
  else
    let newItems := new.place s.pools
    (true, { s with toItemPool := s.toItemPool.grow (s.poolItems newItems), pools := s.pools ++ [newItems] })

def cleanUp (s : MemoryPool) : MemoryPool := { s with used := ∅, frees := [], pools := [] }

def initLoop (new : New) : Nat → MemoryPool → Bool × MemoryPool
  | 0, s => (true, s)
  | n + 1, s =>
    match s.extend new with
    | (true, s) => initLoop new n s
    | (false, s) => (false, s.cleanUp)

def init (new : New) (isDynamic : Bool) (poolNum itemNumPerPool : Int) (s : MemoryPool) : Bool × MemoryPool :=
  if s.pools ≠ [] then (true, s)
  else if poolNum ≤ 0 ∨ itemNumPerPool ≤ 0 then (false, s)
  else
    match initLoop new poolNum.toNat { s with itemNumPerPool := itemNumPerPool, isDynamic := true } with
    | (true, s) => (true, { s with isDynamic := isDynamic })
    | (false, s) => (false, s)

/-- The end of `Alloc`, where there is a free item. -/
def takeFront (s : MemoryPool) : Option ItemPointer × MemoryPool :=
  match s.toItemPool.take with
  | none => (none, s)
  | some (res, p) => (some res, { s with toItemPool := p })

/-- `Alloc`; `none` is `nullptr`. -/
def alloc (new : New) (s : MemoryPool) : Option ItemPointer × MemoryPool :=
  if s.frees = [] then
    if !s.isDynamic then (none, s)
    else
      match s.extend new with
      | (true, s) => s.takeFront
      | (false, s) => (none, s)
  else s.takeFront

def free (item : ItemPointer) (s : MemoryPool) : MemoryPool := { s with toItemPool := s.toItemPool.give item }

def items (s : MemoryPool) : List ItemPointer := s.pools.flatMap s.poolItems

end MemoryPool

structure FrameManager where
  frameAllocator : MemoryPool
  frameLruCache : LruCache FrameId ItemPointer

namespace FrameManager

def defaultItemNumPerPool : Int := 128

def init (new : New) (poolNum : Int) (s : FrameManager) : Re × FrameManager :=
  match s.frameAllocator.init new false poolNum defaultItemNumPerPool with
  | (true, p) => (.success, { s with frameAllocator := p })
  | (false, p) => (.genericError, { s with frameAllocator := p })

def getFrame (fileDesc : Nat) (pageId : PageId) (s : FrameManager) : Option ItemPointer × FrameManager :=
  match s.frameLruCache.get ⟨fileDesc, pageId⟩ with
  | (frame, c) => (frame, { s with frameLruCache := c })

/-- `Alloc`; `newItems` and `newNode` are what `new` gives in the pool and in the cache. -/
def alloc (newItems newNode : New) (fileDesc : Nat) (pageId : PageId) (s : FrameManager) :
    Option ItemPointer × FrameManager :=
  match s.frameLruCache.get ⟨fileDesc, pageId⟩ with
  | (some _, c) => (none, { s with frameLruCache := c })
  | (none, c) =>
    match s.frameAllocator.alloc newItems with
    | (some frame, p) => (some frame, ⟨p, c.put newNode ⟨fileDesc, pageId⟩ frame⟩)
    | (none, p) => (none, ⟨p, c⟩)

/-- `Free`; `frame` may be any pointer, `none` is `nullptr`. -/
def free (fileDesc : Nat) (pageId : PageId) (frame : Option ItemPointer) (s : FrameManager) : Re × FrameManager :=
  match s.frameLruCache.get ⟨fileDesc, pageId⟩ with
  | (none, c) => (.genericError, { s with frameLruCache := c })
  | (some frameSource, c) =>
    if frame ≠ some frameSource then (.genericError, { s with frameLruCache := c })
    else (.success, ⟨s.frameAllocator.free frameSource, c.remove ⟨fileDesc, pageId⟩⟩)

/-! ## Runs -/

inductive Call where
  | alloc (newItems newNode : New) (fileDesc : Nat) (pageId : PageId)
  | getFrame (fileDesc : Nat) (pageId : PageId)
  | free (fileDesc : Nat) (pageId : PageId) (frame : Option ItemPointer)

/-- The state behind a call, with the frames that were handed out and not freed. -/
def Call.run : FrameManager × Finset ItemPointer → Call → FrameManager × Finset ItemPointer
  | (s, out), .alloc newItems newNode fileDesc pageId =>
    match s.alloc newItems newNode fileDesc pageId with
    | (some frame, s) => (s, insert frame out)
    | (none, s) => (s, out)
  | (s, out), .getFrame fileDesc pageId => ((s.getFrame fileDesc pageId).2, out)
  | (s, out), .free fileDesc pageId frame =>
    match s.free fileDesc pageId frame, frame with
    | (.success, s), some frame => (s, out.erase frame)
    | (_, s), _ => (s, out)

def run (x : FrameManager × Finset ItemPointer) (cs : List Call) : FrameManager × Finset ItemPointer :=
  cs.foldl Call.run x

/-- `m` is what the cache holds, and the frames in it are the ones in use. -/
structure Owns (s : FrameManager) (out : Finset ItemPointer) (m : AList fun _ : FrameId => ItemPointer) : Prop where
  caches : s.frameLruCache.Caches m
  accounts : s.frameAllocator.toItemPool.Accounts s.frameAllocator.items
  values : ∀ f, f ∈ s.frameAllocator.used ↔ ∃ i, m.lookup i = some f
  injective : ∀ i j f, m.lookup i = some f → m.lookup j = some f → i = j
  out : out = s.frameAllocator.used
  fixed : s.frameAllocator.isDynamic = false

variable {s s' : FrameManager} {out : Finset ItemPointer} {m m' : AList fun _ : FrameId => ItemPointer}
  {fileDesc : Nat} {pageId : PageId} {i : FrameId} {f : ItemPointer}

theorem lookup_insert_eq_some {i' : FrameId} {f' : ItemPointer} :
    (m.insert i f).lookup i' = some f' ↔ i' = i ∧ f = f' ∨ i' ≠ i ∧ m.lookup i' = some f' := by
  by_cases he : i' = i
  · rw [he, AList.lookup_insert]
    simp
  · rw [AList.lookup_insert_ne he]
    simp [he]

theorem lookup_erase_eq_some {i' : FrameId} {f' : ItemPointer} :
    (m.erase i).lookup i' = some f' ↔ i' ≠ i ∧ m.lookup i' = some f' := by
  by_cases he : i' = i
  · rw [he, AList.lookup_erase]
    simp
  · rw [AList.lookup_erase_ne he]
    simp [he]

/-- The order of the entries does not matter. -/
theorem Owns.congr {c : LruCache FrameId ItemPointer} (h : s.Owns out m) (hc : c.Caches m')
    (hlookup : ∀ i, m'.lookup i = m.lookup i) : ({ s with frameLruCache := c } : FrameManager).Owns out m' := by
  refine ⟨hc, h.accounts, fun f => ?_, fun i j f hi hj => ?_, h.out, h.fixed⟩
  · rw [h.values f]
    exact exists_congr fun i => by rw [hlookup]
  · rw [hlookup] at hi hj
    exact h.injective i j f hi hj

/-- `Get` answers what is cached and keeps all there is. -/
theorem Owns.get (h : s.Owns out m) (i : FrameId) : ∃ m', (s.frameLruCache.get i).1 = m.lookup i ∧
    (∀ j, m'.lookup j = m.lookup j) ∧ (s.frameLruCache.get i).2.Caches m' ∧
    ({ s with frameLruCache := (s.frameLruCache.get i).2 } : FrameManager).Owns out m' := by
  obtain ⟨hfound, hcaches⟩ := h.caches.get (k := i)
  have hlookup := LruCache.lookup_touched m i
  exact ⟨_, hfound, hlookup, hcaches, h.congr hcaches hlookup⟩

/-- The pool is fixed: it hands out what is free, and there is nothing else. -/
theorem alloc_fixed {p : MemoryPool} (newItems : New) (hfixed : p.isDynamic = false) :
    p.alloc newItems = p.takeFront := by
  unfold MemoryPool.alloc MemoryPool.takeFront
  split
  · rename_i hnil
    rw [hfixed, ItemPool.take_eq_none_iff.mpr hnil]
    rfl
  · rfl

theorem Owns.alloc (h : s.Owns out m) (fileDesc : Nat) (pageId : PageId) (newItems newNode : New) :
    ∃ m', ((s.alloc newItems newNode fileDesc pageId).1 = none ∧
        (m.lookup ⟨fileDesc, pageId⟩ ≠ none ∨ s.frameAllocator.frees = []) ∧
        (∀ j, m'.lookup j = m.lookup j) ∧ (s.alloc newItems newNode fileDesc pageId).2.Owns out m') ∨
      ∃ f, (s.alloc newItems newNode fileDesc pageId).1 = some f ∧ m.lookup ⟨fileDesc, pageId⟩ = none ∧
        (s.frameAllocator.frees ≠ [] ∧ f ∉ out) ∧
        (s.alloc newItems newNode fileDesc pageId).2.Owns (insert f out) m' := by
  obtain ⟨m1, hfound, hlookup, hcaches, hget⟩ := h.get ⟨fileDesc, pageId⟩
  unfold FrameManager.alloc
  rcases hg : s.frameLruCache.get ⟨fileDesc, pageId⟩ with ⟨r, c⟩
  rw [hg] at hfound hcaches hget
  simp only at hfound hcaches hget
  cases r with
  | some f => exact ⟨m1, .inl ⟨rfl, .inl (by rw [← hfound]; nofun), hlookup, hget⟩⟩
  | none =>
    simp only [alloc_fixed newItems h.fixed, MemoryPool.takeFront]
    cases ht : s.frameAllocator.toItemPool.take with
    | none => exact ⟨m1, .inl ⟨rfl, .inr (ItemPool.take_eq_none_iff.mp ht), hlookup, hget⟩⟩
    | some x =>
      obtain ⟨f, p⟩ := x
      obtain ⟨hnot, -, hused, hacc⟩ := h.accounts.take ht
      have hne : s.frameAllocator.frees ≠ [] := by
        intro h0
        rw [ItemPool.take_eq_none_iff.mpr h0] at ht
        cases ht
      have hnew : ∀ j, m1.lookup j ≠ some f := by
        intro j hj
        rw [hlookup] at hj
        exact hnot ((h.values f).mpr ⟨j, hj⟩)
      have hout : insert f out = p.used := by
        rw [h.out]
        exact hused.symm
      refine ⟨m1.insert ⟨fileDesc, pageId⟩ f, .inr ⟨f, rfl, hfound.symm, ⟨hne, by rwa [h.out]⟩, ?_⟩⟩
      refine ⟨hcaches.put newNode, hacc, fun f' => ?_, fun i j f' hi hj => ?_, hout, h.fixed⟩
      · rw [← hout, Finset.mem_insert, h.out, h.values f']
        simp only [lookup_insert_eq_some, hlookup]
        constructor
        · rintro (rfl | ⟨j, hj⟩)
          · exact ⟨_, .inl ⟨rfl, rfl⟩⟩
          · refine ⟨j, .inr ⟨?_, hj⟩⟩
            rintro rfl
            rw [← hfound] at hj
            cases hj
        · rintro ⟨j, ⟨-, rfl⟩ | ⟨-, hj⟩⟩
          · exact .inl rfl
          · exact .inr ⟨j, hj⟩
      · obtain ⟨hie, rfl⟩ | ⟨-, hi⟩ := lookup_insert_eq_some.mp hi
        · obtain ⟨hje, -⟩ | ⟨-, hj⟩ := lookup_insert_eq_some.mp hj
          · exact hie.trans hje.symm
          · exact absurd hj (hnew j)
        · obtain ⟨-, rfl⟩ | ⟨-, hj⟩ := lookup_insert_eq_some.mp hj
          · exact absurd hi (hnew i)
          · rw [hlookup] at hi hj
            exact h.injective i j f' hi hj

theorem Owns.free (h : s.Owns out m) (fileDesc : Nat) (pageId : PageId) (frame : Option ItemPointer) :
    (∃ c m', s.free fileDesc pageId frame = (.genericError, { s with frameLruCache := c }) ∧
      (frame = none ∨ m.lookup ⟨fileDesc, pageId⟩ ≠ frame) ∧ (∀ j, m'.lookup j = m.lookup j) ∧
      ({ s with frameLruCache := c } : FrameManager).Owns out m') ∨
    ∃ f s' m', frame = some f ∧ s.free fileDesc pageId frame = (.success, s') ∧
      m.lookup ⟨fileDesc, pageId⟩ = some f ∧ s'.Owns (out.erase f) m' := by
  obtain ⟨m1, hfound, hlookup, hcaches, hget⟩ := h.get ⟨fileDesc, pageId⟩
  unfold FrameManager.free
  rcases hg : s.frameLruCache.get ⟨fileDesc, pageId⟩ with ⟨r, c⟩
  rw [hg] at hfound hcaches hget
  simp only at hfound hcaches hget
  rw [← hfound]
  cases r with
  | none =>
    refine .inl ⟨c, m1, rfl, ?_, hlookup, hget⟩
    cases frame with
    | none => exact .inl rfl
    | some f => exact .inr nofun
  | some f =>
    by_cases hf : frame = some f
    · refine .inr ⟨f, _, m1.erase ⟨fileDesc, pageId⟩, hf, if_neg (not_not_intro hf), rfl, ?_⟩
      have hused : f ∈ s.frameAllocator.used := (h.values f).mpr ⟨_, hfound.symm⟩
      have hgive : s.frameAllocator.toItemPool.give f =
          ⟨s.frameAllocator.used.erase f, s.frameAllocator.frees ++ [f]⟩ := if_pos hused
      have hout : out.erase f = (s.frameAllocator.toItemPool.give f).used := by
        rw [h.out, hgive]
      refine ⟨hcaches.remove, h.accounts.give, fun f' => ?_, fun i j f' hi hj => ?_, hout, h.fixed⟩
      · rw [show (s.frameAllocator.free f).used = _ from hout.symm, Finset.mem_erase, h.out, h.values f']
        simp only [lookup_erase_eq_some, hlookup]
        constructor
        · rintro ⟨hne, j, hj⟩
          refine ⟨j, ?_, hj⟩
          rintro rfl
          rw [← hfound] at hj
          exact hne (Option.some.inj hj).symm
        · rintro ⟨j, hje, hj⟩
          refine ⟨?_, j, hj⟩
          rintro rfl
          exact hje (h.injective _ _ _ hj hfound.symm)
      · rw [lookup_erase_eq_some, hlookup] at hi hj
        exact h.injective i j f' hi.2 hj.2
    · exact .inl ⟨c, m1, if_pos hf, .inr fun he => hf he.symm, hlookup, hget⟩

theorem Owns.getFrame (h : s.Owns out m) : ∃ m', (s.getFrame fileDesc pageId).2.Owns out m' := by
  obtain ⟨m', -, -, -, hget⟩ := h.get ⟨fileDesc, pageId⟩
  exact ⟨m', hget⟩

theorem Owns.call (h : s.Owns out m) (c : Call) : ∃ m', (Call.run (s, out) c).1.Owns (Call.run (s, out) c).2 m' := by
  cases c with
  | alloc newItems newNode fileDesc pageId =>
    simp only [Call.run]
    rcases ha : s.alloc newItems newNode fileDesc pageId with ⟨r, s'⟩
    obtain ⟨m', hnext⟩ := h.alloc fileDesc pageId newItems newNode
    rw [ha] at hnext
    obtain ⟨rfl, -, -, hs'⟩ | ⟨f, rfl, -, -, hs'⟩ := hnext
    · exact ⟨m', hs'⟩
    · exact ⟨m', hs'⟩
  | getFrame fileDesc pageId => exact h.getFrame
  | free fileDesc pageId frame =>
    simp only [Call.run]
    obtain ⟨c, m', hf, -, -, hs'⟩ | ⟨f, s', m', rfl, hf, -, hs'⟩ :=
      h.free fileDesc pageId frame
    · rw [hf]
      exact ⟨m', hs'⟩
    · rw [hf]
      exact ⟨m', hs'⟩

theorem Owns.run (h : s.Owns out m) (cs : List Call) :
    ∃ m', (FrameManager.run (s, out) cs).1.Owns (FrameManager.run (s, out) cs).2 m' := by
  induction cs generalizing s out m with
  | nil => exact ⟨m, h⟩
  | cons c cs ih =>
    obtain ⟨m', h'⟩ := h.call c
    exact ih h'

/-! ## The start -/

theorem mem_items {p : MemoryPool} : f ∈ p.items ↔ f.1 ∈ p.pools ∧ f.2 < p.itemNumPerPool.toNat := by
  rcases f with ⟨pool, i⟩
  simp only [MemoryPool.items, MemoryPool.poolItems, List.mem_flatMap, List.mem_map, List.mem_range, Prod.mk.injEq]
  constructor
  · rintro ⟨_, hpool, _, hi, rfl, rfl⟩
    exact ⟨hpool, hi⟩
  · rintro ⟨hpool, hi⟩
    exact ⟨pool, hpool, i, hi, rfl, rfl⟩

theorem accounts_extend {p p' : MemoryPool} (new : New) (h : p.toItemPool.Accounts p.items)
    (he : p.extend new = (true, p')) : p'.used = p.used ∧ p'.toItemPool.Accounts p'.items := by
  unfold MemoryPool.extend at he
  split at he
  · cases he
  · cases he
    refine ⟨rfl, ?_⟩
    have hitems : ({ p with
        toItemPool := p.toItemPool.grow (p.poolItems (new.place p.pools))
        pools := p.pools ++ [new.place p.pools] } : MemoryPool).items =
        p.items ++ p.poolItems (new.place p.pools) := by
      rw [MemoryPool.items, List.flatMap_append, List.flatMap_singleton]
      rfl
    rw [hitems]
    refine h.grow (List.nodup_append.mpr ⟨h.nodup, ?_, ?_⟩)
    · refine List.nodup_range.map fun i j hij => ?_
      exact (Prod.mk.inj hij).2
    · rintro f hf f' hf' rfl
      obtain ⟨i, -, rfl⟩ := List.mem_map.mp hf'
      exact new.fresh p.pools (mem_items.mp hf).1

theorem accounts_initLoop (new : New) {n : Nat} {p p' : MemoryPool} (h : p.toItemPool.Accounts p.items)
    (hi : MemoryPool.initLoop new n p = (true, p')) : p'.used = p.used ∧ p'.toItemPool.Accounts p'.items := by
  induction n generalizing p with
  | zero =>
    cases hi
    exact ⟨rfl, h⟩
  | succ n ih =>
    rw [MemoryPool.initLoop] at hi
    rcases he : p.extend new with ⟨r, p1⟩
    rw [he] at hi
    cases r with
    | true =>
      obtain ⟨hused, hacc⟩ := accounts_extend new h he
      rw [← hused]
      exact ih hacc hi
    | false => cases hi

theorem owns_init (new : New) (poolNum : Int) {c : LruCache FrameId ItemPointer} (hc : c.Caches ∅)
    (hi : FrameManager.init new poolNum ⟨MemoryPool.new, c⟩ = (.success, s)) : s.Owns ∅ ∅ := by
  unfold FrameManager.init MemoryPool.init at hi
  rw [if_neg (by simp [MemoryPool.new])] at hi
  split at hi
  · rename_i p heq
    cases hi
    split at heq
    · cases heq
    · split at heq
      · rename_i p1 hloop
        cases heq
        have hstart : (⟨∅, []⟩ : ItemPool ItemPointer).Accounts [] := ItemPool.accounts_empty
        obtain ⟨hused, hacc⟩ := accounts_initLoop new hstart hloop
        refine ⟨hc, hacc, fun f => ?_, nofun, hused.symm, rfl⟩
        rw [show p1.used = ∅ from hused]
        exact ⟨nofun, nofun⟩
      · cases heq
  · cases hi

/-- Over every run of an initialised manager no frame serves two pages: what was handed out is what the cache
holds, under one id each, and the pool has every other item free. -/
theorem run_owns (new : New) (poolNum : Int) (key : Nat → FrameId) (value : Nat → ItemPointer)
    (prev next : Nat → Option Nat) {s₀ : FrameManager}
    (hinit : FrameManager.init new poolNum ⟨MemoryPool.new, LruCache.new key value prev next⟩ = (.success, s₀))
    (cs : List Call) :
    ∃ s out, run (s₀, ∅) cs = (s, out) ∧
      (∀ f, f ∈ out ↔ ∃ i, (s.frameLruCache.get i).1 = some f) ∧
      (∀ i j f, (s.frameLruCache.get i).1 = some f → (s.frameLruCache.get j).1 = some f → i = j) ∧
      ((∀ f ∈ s.frameAllocator.used, f ∉ s.frameAllocator.frees) ∧ s.frameAllocator.frees.Nodup ∧
        ∀ f, f.1 ∈ s.frameAllocator.pools ∧ f.2 < s.frameAllocator.itemNumPerPool.toNat ↔
          f ∈ s.frameAllocator.used ∨ f ∈ s.frameAllocator.frees) ∧
      (∀ newItems newNode fileDesc pageId,
        ((s.alloc newItems newNode fileDesc pageId).1 = none ↔
          (s.frameLruCache.get ⟨fileDesc, pageId⟩).1 ≠ none ∨ s.frameAllocator.frees = []) ∧
        ∀ f, (s.alloc newItems newNode fileDesc pageId).1 = some f → f ∉ out) ∧
      ∀ fileDesc pageId frame, frame = none ∨ (s.frameLruCache.get ⟨fileDesc, pageId⟩).1 ≠ frame →
        ∃ c, s.free fileDesc pageId frame = (.genericError, { s with frameLruCache := c }) ∧
          ∀ i, (c.get i).1 = (s.frameLruCache.get i).1 := by
  obtain ⟨m, h⟩ := (owns_init new poolNum (LruCache.caches_new ..) hinit).run cs
  obtain ⟨s, out, hrun⟩ : ∃ s out, run (s₀, ∅) cs = (s, out) := ⟨_, _, rfl⟩
  rw [hrun] at h
  have hused : out = s.frameAllocator.used := h.out
  refine ⟨s, out, hrun, ?_⟩
  have hget : ∀ i, (s.frameLruCache.get i).1 = m.lookup i := fun i => h.caches.get.1
  refine ⟨fun f => ?_, fun i j f hi hj => ?_, ⟨fun f => h.accounts.not_mem_frees, h.accounts.frees_nodup,
    fun f => ?_⟩, fun newItems newNode fileDesc pageId => ⟨?_, fun f hf => ?_⟩,
    fun fileDesc pageId frame hframe => ?_⟩
  · simp only [hget]
    rw [hused]
    exact h.values f
  · rw [hget] at hi hj
    exact h.injective i j f hi hj
  · rw [← mem_items]
    exact h.accounts.mem_iff
  · rw [hget]
    obtain ⟨m', ⟨hr, hwhy, -⟩ | ⟨f, hr, hk, ⟨hne, -⟩, -⟩⟩ :=
      h.alloc fileDesc pageId newItems newNode
    · exact ⟨fun _ => hwhy, fun _ => hr⟩
    · rw [hr, hk]
      exact ⟨nofun, fun hor => hor.elim (absurd rfl) fun h0 => absurd h0 hne⟩
  · obtain ⟨m', ⟨hr, -⟩ | ⟨f', hr, -, ⟨-, hout⟩, -⟩⟩ :=
      h.alloc fileDesc pageId newItems newNode
    · rw [hr] at hf
      cases hf
    · rw [hr] at hf
      cases hf
      exact hout
  · obtain ⟨c, m', hf, -, hlookup, hs'⟩ | ⟨f, s', m', rfl, -, hk, -⟩ :=
      h.free fileDesc pageId frame
    · refine ⟨c, hf, fun i => ?_⟩
      rw [hget, ← hlookup]
      exact hs'.caches.get.1
    · rw [hget, hk] at hframe
      exact absurd hframe (by simp)

theorem le_foldr_max {xs : List Nat} {x : Nat} (hx : x ∈ xs) : x ≤ xs.foldr max 0 := by
  induction xs with
  | nil => cases hx
  | cons y ys ih =>
    rw [List.foldr_cons]
    obtain rfl | hx := List.mem_cons.mp hx
    · exact Nat.le_max_left ..
    · exact Nat.le_trans (ih hx) (Nat.le_max_right ..)

/-- Every place is above those in use. -/
def above : New where
  place inUse := inUse.foldr max 0 + 1
  fresh _ hmem := Nat.not_succ_le_self _ (le_foldr_max hmem)

/-- Two ids get two frames; a free with the frame of the other is refused. -/
theorem run_owns_two : ∃ s₀ : FrameManager,
    FrameManager.init above 1 ⟨MemoryPool.new, LruCache.new (fun _ => ⟨0, 0⟩) (fun _ => (0, 0)) (fun _ => none)
      fun _ => none⟩ = (.success, s₀) ∧
    ∃ s out, run (s₀, ∅) [.alloc above above 3 1, .alloc above above 3 2, .free 3 1 (some (1, 1))] =
      (s, out) ∧ ∀ f, f ∈ out ↔ ∃ i, (s.frameLruCache.get i).1 = some f := by
  refine ⟨_, rfl, ?_⟩
  obtain ⟨s, out, hrun, hout, -⟩ := run_owns above 1 (fun _ => ⟨0, 0⟩) (fun _ => (0, 0)) (fun _ => none)
    (fun _ => none) rfl [.alloc above above 3 1, .alloc above above 3 2, .free 3 1 (some (1, 1))]
  exact ⟨s, out, hrun, hout⟩

end FrameManager

end Idmbs
