import Idmbs.Lib.Recency
import Idmbs.Storage.LruCache
import Mathlib.Data.List.AList

/-!
# Idmbs.Storage.LruRecency

`LruCache` as a list of keys in the order of their last uses, and `FrameManager::GetPurgeableFrame`
(storage/buffer_pool.cpp) on it.

`Caches s m` says that the nodes of `s` hold the entries of `m`, an `AList` whose `insert` puts a key in
front. A run of calls is compared with what the calls say by themselves (`History`).
-/

namespace Idmbs
namespace LruCache

open Chain

variable {κ β : Type}

/-- The list holds each key once, and the hash set the nodes of the list. -/
structure Rep (s : LruCache κ β) (xs : List Nat) : Prop extends Listed s xs where
  keys : (xs.map s.key).Nodup
  searcher : s.searcher.Perm xs

def entry (s : LruCache κ β) (a : Nat) : Sigma fun _ : κ => β := ⟨s.key a, s.value a⟩

/-- The cache holds the entries of `m`, in their order. -/
def Caches (s : LruCache κ β) (m : AList fun _ : κ => β) : Prop :=
  ∃ xs, s.Rep xs ∧ m.entries = xs.map s.entry

variable {s : LruCache κ β} {m : AList fun _ : κ => β} {xs ls rs : List Nat} {a : Nat} {k : κ} {v : β}

/-! ## One call -/

theorem key_lruTouch : (s.lruTouch a).key = s.key := by
  unfold lruTouch
  split <;> rfl

theorem value_lruTouch : (s.lruTouch a).value = s.value := by
  unfold lruTouch
  split <;> rfl

theorem searcher_lruTouch : (s.lruTouch a).searcher = s.searcher := by
  unfold lruTouch
  split <;> rfl

theorem keys_entries (hm : m.entries = xs.map s.entry) : m.keys = xs.map s.key := by
  rw [AList.keys, hm, List.keys, List.map_map]
  rfl

variable [DecidableEq κ]

theorem Rep.find_eq_none (h : s.Rep xs) : s.find k = none ↔ k ∉ xs.map s.key := by
  rw [find, List.find?_eq_none]
  simp only [decide_eq_true_eq, List.mem_map, not_exists, not_and, h.searcher.mem_iff]

theorem Rep.find_eq_some (h : s.Rep xs) (hf : s.find k = some a) :
    ∃ ls rs, xs = ls ++ a :: rs ∧ s.key a = k := by
  have hmem := h.searcher.mem_iff.mp (List.mem_of_find?_eq_some hf)
  obtain ⟨ls, rs, rfl⟩ := List.append_of_mem hmem
  exact ⟨ls, rs, rfl, by simpa using List.find?_some hf⟩

/-- What is left of the entries when the one of a node is taken out. -/
theorem kerase_entries (h : ((ls ++ a :: rs).map s.key).Nodup) :
    List.kerase (s.key a) ((ls ++ a :: rs).map s.entry) = (ls ++ rs).map s.entry := by
  induction ls with
  | nil => exact List.kerase_cons_eq rfl
  | cons x ls ih =>
    rw [List.cons_append, List.map_cons, List.nodup_cons] at h
    have hne : s.key a ≠ s.key x := by
      intro he
      rw [← he] at h
      exact h.1 (List.mem_map_of_mem (List.mem_append_right _ (List.mem_cons_self ..)))
    have hkerase := List.kerase_cons_ne (s := s.entry x) (l := (ls ++ a :: rs).map s.entry) hne
    rw [ih h.2] at hkerase
    exact hkerase

theorem Rep.lookup_eq_none (h : s.Rep xs) (hm : m.entries = xs.map s.entry) :
    m.lookup k = none ↔ s.find k = none := by
  rw [h.find_eq_none, AList.lookup_eq_none, AList.mem_keys, keys_entries hm]

theorem Rep.lookup_eq_some (hm : m.entries = (ls ++ a :: rs).map s.entry) :
    m.lookup (s.key a) = some (s.value a) := by
  refine AList.mem_lookup_iff.mpr ?_
  rw [hm]
  exact List.mem_map_of_mem (List.mem_append_right _ (List.mem_cons_self ..))

/-- A node that is used: its entry comes to the front. -/
theorem Rep.lruTouch (h : s.Rep (ls ++ a :: rs)) (hm : List.kerase (s.key a) m.entries = (ls ++ rs).map s.entry) :
    (s.lruTouch a).Caches (m.insert (s.key a) (s.value a)) := by
  have hperm : (ls ++ a :: rs).Perm (a :: (ls ++ rs)) := List.perm_middle
  refine ⟨a :: (ls ++ rs), ⟨h.toListed.lruTouch, ?_, ?_⟩, ?_⟩
  · rw [key_lruTouch]
    exact (hperm.map s.key).nodup_iff.mp h.keys
  · rw [searcher_lruTouch]
    exact h.searcher.trans hperm
  · have hentry : (s.lruTouch a).entry = s.entry := by
      funext x
      rw [entry, entry, key_lruTouch, value_lruTouch]
    rw [AList.entries_insert, hm, hentry]
    rfl

/-- What looking a key up makes of the entries. -/
def touched (m : AList fun _ : κ => β) (k : κ) : AList fun _ : κ => β :=
  match m.lookup k with
  | some v => m.insert k v
  | none => m

theorem lookup_touched (m : AList fun _ : κ => β) (k k' : κ) : (touched m k).lookup k' = m.lookup k' := by
  unfold touched
  cases hv : m.lookup k with
  | none => rfl
  | some v =>
    by_cases he : k' = k
    · rw [he, AList.lookup_insert, hv]
    · exact AList.lookup_insert_ne he

theorem Caches.get (h : s.Caches m) : (s.get k).1 = m.lookup k ∧ (s.get k).2.Caches (touched m k) := by
  obtain ⟨xs, hrep, hm⟩ := h
  unfold LruCache.get touched
  cases hf : s.find k with
  | none =>
    rw [(hrep.lookup_eq_none hm).mpr hf]
    exact ⟨rfl, xs, hrep, hm⟩
  | some a =>
    obtain ⟨ls, rs, rfl, rfl⟩ := hrep.find_eq_some hf
    rw [Rep.lookup_eq_some hm]
    simp only
    refine ⟨by rw [value_lruTouch], hrep.lruTouch ?_⟩
    rw [hm, kerase_entries hrep.keys]

theorem Caches.put (new : New) (h : s.Caches m) : (s.put new k v).Caches (m.insert k v) := by
  obtain ⟨xs, hrep, hm⟩ := h
  unfold LruCache.put
  cases hf : s.find k with
  | none =>
    obtain ⟨ln, hln⟩ : ∃ ln, new.place s.searcher = ln := ⟨_, rfl⟩
    have hfresh : ln ∉ s.searcher := hln ▸ new.fresh s.searcher
    have hout : ln ∉ xs := fun hmem => hfresh (hrep.searcher.mem_iff.mpr hmem)
    have hother : ∀ x ∈ xs, x ≠ ln := by
      rintro x hx rfl
      exact hout hx
    have hk := hrep.find_eq_none.mp hf
    have hmap : xs.map (Function.update s.key ln k) = xs.map s.key :=
      List.map_congr_left fun x hx => Function.update_of_ne (hother x hx) ..
    have hnew : ({ s with
        key := Function.update s.key ln k
        value := Function.update s.value ln v
        prev := Function.update s.prev ln none
        next := Function.update s.next ln none } : LruCache κ β).Listed xs := by
      refine ⟨hrep.linked.congr fun x hx => ?_, hrep.front, hrep.tail, hrep.nodup⟩
      exact ⟨Function.update_of_ne (hother x hx) .., Function.update_of_ne (hother x hx) ..⟩
    simp only [hln]
    refine ⟨ln :: xs, ⟨hnew.lruPush hout, ?_, ?_⟩, ?_⟩
    · have hkeys : ((ln :: xs).map (Function.update s.key ln k)).Nodup := by
        rw [List.map_cons, Function.update_self, hmap]
        exact List.nodup_cons.mpr ⟨hk, hrep.keys⟩
      exact hkeys
    · have habsent : s.searcher.find? (fun a => Function.update s.key ln k a = Function.update s.key ln k ln) =
          none := by
        rw [List.find?_eq_none]
        intro x hx
        have hx' := hrep.searcher.mem_iff.mp hx
        rw [Function.update_self, Function.update_of_ne (hother x hx')]
        simp only [decide_eq_true_eq]
        rintro rfl
        exact hk (List.mem_map_of_mem hx')
      have hpush : (if (s.searcher.find? (fun a => Function.update s.key ln k a = Function.update s.key ln k ln)).isSome
          then s.searcher else ln :: s.searcher).Perm (ln :: xs) := by
        rw [habsent]
        exact hrep.searcher.cons ln
      exact hpush
    · have hkeys : k ∉ m.entries.keys := by
        intro hmem
        rw [← AList.keys, keys_entries hm] at hmem
        exact hk hmem
      have hentries : xs.map s.entry = xs.map fun x =>
          (⟨Function.update s.key ln k x, Function.update s.value ln v x⟩ : Sigma fun _ : κ => β) := by
        refine List.map_congr_left fun x hx => ?_
        rw [entry, Function.update_of_ne (hother x hx), Function.update_of_ne (hother x hx)]
      rw [AList.entries_insert, List.kerase_of_notMem_keys hkeys, hm, hentries, List.map_cons]
      refine congrArg₂ List.cons ?_ rfl
      have hself : (⟨k, v⟩ : Sigma fun _ : κ => β) =
          ⟨Function.update s.key ln k ln, Function.update s.value ln v ln⟩ := by
        rw [Function.update_self, Function.update_self]
      exact hself
  | some a =>
    obtain ⟨ls, rs, rfl, rfl⟩ := hrep.find_eq_some hf
    have hother : ∀ x ∈ ls ++ rs, x ≠ a := by
      rintro x hx rfl
      exact (List.nodup_cons.mp (List.nodup_middle.mp hrep.nodup)).1 hx
    have hset : ({ s with value := Function.update s.value a v } : LruCache κ β).Rep (ls ++ a :: rs) :=
      ⟨⟨hrep.linked, hrep.front, hrep.tail, hrep.nodup⟩, hrep.keys, hrep.searcher⟩
    have htouch := hset.lruTouch (m := m) ?_
    · simp only [Function.update_self] at htouch
      exact htouch
    · rw [hm, kerase_entries hrep.keys]
      refine List.map_congr_left fun x hx => ?_
      simp only [entry, Function.update_of_ne (hother x hx)]

theorem Caches.remove (h : s.Caches m) : (s.remove k).Caches (m.erase k) := by
  obtain ⟨xs, hrep, hm⟩ := h
  unfold LruCache.remove
  cases hf : s.find k with
  | none =>
    have habsent := (hrep.lookup_eq_none hm).mpr hf
    refine ⟨xs, hrep, ?_⟩
    rw [← hm]
    exact List.kerase_of_notMem_keys fun hk => (AList.lookup_eq_none.mp habsent) hk
  | some a =>
    obtain ⟨ls, rs, rfl, rfl⟩ := hrep.find_eq_some hf
    have hperm : (ls ++ a :: rs).Perm (a :: (ls ++ rs)) := List.perm_middle
    have hkeys := (hperm.map s.key).nodup_iff.mp hrep.keys
    rw [List.map_cons, List.nodup_cons] at hkeys
    have hrest : (ls ++ rs).filter (fun x => s.key x ≠ s.key a) = ls ++ rs := by
      refine List.filter_eq_self.mpr fun x hx => decide_eq_true fun he => hkeys.1 ?_
      rw [← he]
      exact List.mem_map_of_mem hx
    simp only
    refine ⟨ls ++ rs, ⟨hrep.toListed.lruRemove, hkeys.2, ?_⟩, ?_⟩
    · have hfilter := (hrep.searcher.trans hperm).filter fun x => s.key x ≠ s.key a
      rw [List.filter_cons_of_neg (by simp), hrest] at hfilter
      exact hfilter
    · have herase : (m.erase (s.key a)).entries = List.kerase (s.key a) m.entries := rfl
      rw [herase, hm, kerase_entries hrep.keys]
      rfl

/-! ## Whole runs -/

inductive Call (κ β : Type) where
  | get (key : κ)
  | put (new : New) (key : κ) (value : β)
  | remove (key : κ)

def Call.run (s : LruCache κ β) : Call κ β → LruCache κ β
  | get key => (s.get key).2
  | put new key value => s.put new key value
  | remove key => s.remove key

def run (s : LruCache κ β) (cs : List (Call κ β)) : LruCache κ β := cs.foldl Call.run s

/-- What the calls say by themselves: the value that was put for a key last, unless it was removed since,
and when a key was put or found last. -/
structure History (κ β : Type) where
  value : κ → Option β
  usedAt : κ → Nat
  now : Nat

namespace History

def start : History κ β := ⟨fun _ => none, fun _ => 0, 0⟩

def use (h : History κ β) (k : κ) : History κ β :=
  { h with usedAt := Function.update h.usedAt k h.now, now := h.now + 1 }

def after (h : History κ β) : Call κ β → History κ β
  | .get key => if (h.value key).isSome then h.use key else h
  | .put _ key value => { h with value := Function.update h.value key (some value) }.use key
  | .remove key => { h with value := Function.update h.value key none }

def ofCalls (cs : List (Call κ β)) : History κ β := cs.foldl after start

/-- The list of entries is what the history says. -/
structure Agrees (h : History κ β) (m : AList fun _ : κ => β) : Prop where
  value : ∀ k, m.lookup k = h.value k
  recent : Recent m.keys h.usedAt h.now

end History

variable {h : History κ β}

theorem History.Agrees.insert (ha : h.Agrees m) (k : κ) (v : β) :
    ({ h with value := Function.update h.value k (some v) }.use k).Agrees (m.insert k v) := by
  have hnotin : k ∉ m.keys.erase k := m.keys_nodup.not_mem_erase
  refine ⟨fun k' => ?_, ?_⟩
  · simp only [use]
    by_cases he : k' = k
    · subst he
      rw [AList.lookup_insert, Function.update_self]
    · rw [AList.lookup_insert_ne he, Function.update_of_ne he, ha.value]
  · rw [AList.keys_insert]
    exact (ha.recent.sublist List.erase_sublist).use hnotin

theorem call_spec (hs : s.Caches m) (ha : h.Agrees m) (c : Call κ β) :
    ∃ m', (c.run s).Caches m' ∧ (h.after c).Agrees m' := by
  cases c with
  | get key =>
    refine ⟨_, hs.get.2, ?_⟩
    rw [History.after, touched, ← ha.value]
    cases hv : m.lookup key with
    | none => exact ha
    | some v =>
      have hins := ha.insert key v
      have hself : Function.update h.value key (some v) = h.value := by
        rw [← hv, ha.value, Function.update_eq_self]
      rw [hself] at hins
      exact hins
  | put new key value => exact ⟨_, hs.put new, ha.insert key value⟩
  | remove key =>
    refine ⟨_, hs.remove, fun k' => ?_, ?_⟩
    · simp only [History.after]
      by_cases he : k' = key
      · subst he
        rw [AList.lookup_erase, Function.update_self]
      · rw [AList.lookup_erase_ne he, Function.update_of_ne he, ha.value]
    · rw [AList.keys_erase]
      exact ha.recent.sublist List.erase_sublist

theorem run_spec (hs : s.Caches m) (ha : h.Agrees m) (cs : List (Call κ β)) :
    ∃ m', (s.run cs).Caches m' ∧ (cs.foldl History.after h).Agrees m' := by
  induction cs generalizing s m h with
  | nil => exact ⟨m, hs, ha⟩
  | cons c cs ih =>
    obtain ⟨m', hs', ha'⟩ := call_spec hs ha c
    exact ih hs' ha'

omit [DecidableEq κ] in
theorem caches_new (key : Nat → κ) (value : Nat → β) (prev next : Nat → Option Nat) :
    (new key value prev next).Caches ∅ :=
  ⟨[], ⟨⟨trivial, rfl, rfl, .nil⟩, .nil, .refl _⟩, rfl⟩

/-! ## Visits -/

/-- `func` for one entry after the other, until it answers to stop. -/
def visit {σ : Type} (func : κ → β → σ → Bool × σ) : List (Sigma fun _ : κ => β) → σ → σ
  | [], x => x
  | e :: es, x =>
    match func e.1 e.2 x with
    | (true, x) => visit func es x
    | (false, x) => x

section Visit

omit [DecidableEq κ]

variable {σ : Type} {func : κ → β → σ → Bool × σ} {link : Nat → Option Nat} {node : Option Nat} {n : Nat}

theorem foreachLoop_along (hl : along link n node = some xs) (x : σ) :
    s.foreachLoop link func n node x = some (visit func (xs.map s.entry) x) := by
  induction n generalizing node xs x with
  | zero =>
    cases node with
    | none =>
      cases hl
      rfl
    | some a => cases hl
  | succ n ih =>
    cases node with
    | none =>
      cases hl
      rfl
    | some a =>
      obtain ⟨ys, hys, rfl⟩ := Option.map_eq_some_iff.mp hl
      rw [foreachLoop, List.map_cons, visit]
      simp only [entry]
      rcases func (s.key a) (s.value a) x with ⟨go, y⟩
      cases go with
      | true => exact ih hys y
      | false => rfl

end Visit

/-- `GetPurgeableFrame` of a `FrameManager`; `pinCount` is that of a frame, an unsigned number. -/
def getPurgeableFrame (s : LruCache κ β) (pinCount : β → Nat) (fuel : Nat) : Option (Option β) :=
  s.foreachReverse
    (fun _ frame purgeable => if pinCount frame ≤ 0 then (false, some frame) else (true, purgeable)) fuel none

omit [DecidableEq κ] in
theorem visit_purge (pinCount : β → Nat) (es : List (Sigma fun _ : κ => β)) :
    visit (fun _ frame purgeable => if pinCount frame ≤ 0 then (false, some frame) else (true, purgeable)) es none =
      (es.find? fun e => pinCount e.2 ≤ 0).map Sigma.snd := by
  induction es with
  | nil => rfl
  | cons e es ih =>
    rw [visit, List.find?_cons]
    by_cases hp : pinCount e.2 ≤ 0
    · simp [hp]
    · simp only [hp, if_false, decide_false]
      exact ih

/-- The frame that was used least recently of those that are not pinned. -/
structure Purgeable (h : History κ β) (pinCount : β → Nat) (r : Option β) : Prop where
  none_iff : r = none ↔ ∀ k frame, h.value k = some frame → pinCount frame ≠ 0
  oldest : ∀ frame, r = some frame → pinCount frame = 0 ∧ ∃ k, h.value k = some frame ∧
    ∀ k' frame', h.value k' = some frame' → pinCount frame' = 0 → h.usedAt k ≤ h.usedAt k'

theorem History.Agrees.mem_iff (ha : h.Agrees m) : (⟨k, v⟩ : Sigma fun _ : κ => β) ∈ m.entries ↔ h.value k = some v := by
  rw [← ha.value]
  exact AList.mem_lookup_iff.symm

theorem purgeable_find (ha : h.Agrees m) (pinCount : β → Nat) :
    Purgeable h pinCount ((m.entries.reverse.find? fun e => pinCount e.2 ≤ 0).map Sigma.snd) := by
  constructor
  · rw [Option.map_eq_none_iff, List.find?_eq_none]
    constructor
    · intro hall k frame hv
      have := hall ⟨k, frame⟩ (List.mem_reverse.mpr (ha.mem_iff.mpr hv))
      simpa using this
    · intro hall e he
      have := hall e.1 e.2 (ha.mem_iff.mp (List.mem_reverse.mp he))
      simpa using this
  · intro frame hframe
    obtain ⟨e, hfind, rfl⟩ := Option.map_eq_some_iff.mp hframe
    have hrecent : Recent (m.entries.map Sigma.fst) h.usedAt h.now := ha.recent
    obtain ⟨hmem, hpin, hold⟩ := hrecent.oldest hfind
    refine ⟨by simpa using hpin, e.1, ha.mem_iff.mp hmem, fun k' frame' hv hpin' => ?_⟩
    exact hold ⟨k', frame'⟩ (ha.mem_iff.mpr hv) (by simp [hpin'])

/-- After every run of calls the cache is a list of the keys there are, in the order of their last uses,
linked both ways. -/
theorem run_recency (key : Nat → κ) (value : Nat → β) (prev next : Nat → Option Nat) (cs : List (Call κ β)) :
    ∃ s h xs, (new key value prev next).run cs = s ∧ History.ofCalls cs = h ∧
      (along s.next s.searcher.length s.lruFront = some xs ∧
        along s.prev s.searcher.length s.lruTail = some xs.reverse) ∧
      ((xs.map s.key).Nodup ∧ s.searcher.Perm xs ∧ ∀ k, k ∈ xs.map s.key ↔ (h.value k).isSome) ∧
      (∀ k, (s.get k).1 = h.value k) ∧
      (xs.map s.key).Pairwise (fun a b => h.usedAt b < h.usedAt a) ∧
      (∀ (σ : Type) (func : κ → β → σ → Bool × σ) (x : σ),
        s.foreach func s.searcher.length x = some (visit func (xs.map s.entry) x) ∧
        s.foreachReverse func s.searcher.length x = some (visit func (xs.reverse.map s.entry) x)) ∧
      ∀ pinCount : β → Nat, ∃ r, s.getPurgeableFrame pinCount s.searcher.length = some r ∧
        Purgeable h pinCount r := by
  have hstart : (History.start : History κ β).Agrees ∅ := ⟨fun _ => rfl, .nil⟩
  obtain ⟨m, hcaches, ha⟩ := run_spec (caches_new key value prev next) hstart cs
  have hget := fun k => (hcaches.get (k := k)).1
  obtain ⟨xs, hrep, hm⟩ := hcaches
  refine ⟨_, _, xs, rfl, rfl, ?_⟩
  rw [← History.ofCalls] at ha
  generalize (new key value prev next).run cs = s at *
  generalize History.ofCalls cs = h at *
  have hlen := hrep.searcher.length_eq
  have hnext : along s.next s.searcher.length s.lruFront = some xs := by
    rw [hrep.front, hlen]
    exact hrep.linked.along_next (le_refl _)
  have hprev : along s.prev s.searcher.length s.lruTail = some xs.reverse := by
    rw [hrep.tail, hlen]
    exact hrep.linked.along_prev (le_refl _)
  have hkeys := keys_entries hm
  refine ⟨⟨hnext, hprev⟩, ⟨hrep.keys, hrep.searcher, fun k => ?_⟩, fun k => (hget k).trans (ha.value k), ?_,
    fun σ func x => ⟨foreachLoop_along hnext x, foreachLoop_along hprev x⟩, fun pinCount => ?_⟩
  · rw [← hkeys, ← AList.mem_keys, ← AList.lookup_isSome, ha.value]
  · rw [← hkeys]
    exact ha.recent.order
  · refine ⟨_, foreachLoop_along hprev none, ?_⟩
    rw [visit_purge, List.map_reverse, ← hm]
    exact purgeable_find ha pinCount

end LruCache
end Idmbs
