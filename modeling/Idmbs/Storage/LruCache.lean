import Idmbs.Lib.Chain
import Mathlib.Data.List.Nodup

/-!
# Idmbs.Storage.LruCache

`LruCache` (storage/lru_cache.h): nodes in a doubly linked list, the one used last at the front, and a hash
set of the nodes with the hash and the equality of their keys.

A node is its address. `Listed s xs` says that the list of `s` is `xs`, linked both ways; what `LruTouch`,
`LruPush` and `LruRemove` do to the pointers is what they should do to the list.
-/

namespace Idmbs

open Chain

/-- `new`: an address that is not one of those in use. -/
structure New where
  place : List Nat → Nat
  fresh : ∀ inUse, place inUse ∉ inUse

/-- The members of the nodes, by the address of the node, and those of the cache. -/
structure LruCache (κ β : Type) where
  key : Nat → κ
  value : Nat → β
  prev : Nat → Option Nat
  next : Nat → Option Nat
  searcher : List Nat
  lruFront : Option Nat
  lruTail : Option Nat

namespace LruCache

variable {κ β : Type} [DecidableEq κ]

def new (key : Nat → κ) (value : Nat → β) (prev next : Nat → Option Nat) : LruCache κ β :=
  ⟨key, value, prev, next, [], none, none⟩

def find (s : LruCache κ β) (k : κ) : Option Nat := s.searcher.find? fun a => s.key a = k

/-- `node->next_ = v` unless `node` is null. -/
def setNext (s : LruCache κ β) (node v : Option Nat) : LruCache κ β :=
  { s with next := fun a => if node = some a then v else s.next a }

/-- `node->prev_ = v` unless `node` is null. -/
def setPrev (s : LruCache κ β) (node v : Option Nat) : LruCache κ β :=
  { s with prev := fun a => if node = some a then v else s.prev a }

/-- The end of `LruTouch` and of `LruPush`: `node` comes before `lru_front_`. -/
def linkFront (s : LruCache κ β) (node : Nat) : LruCache κ β :=
  let s := (s.setPrev (some node) none).setNext (some node) s.lruFront
  let s := s.setPrev s.lruFront (some node)
  { s with lruFront := some node }

def lruTouch (s : LruCache κ β) (node : Nat) : LruCache κ β :=
  if s.prev node = none then s
  else
    let s := s.setNext (s.prev node) (s.next node)
    let s := s.setPrev (s.next node) (s.prev node)
    let s := { s with lruTail := if s.next node = none then s.prev node else s.lruTail }
    s.linkFront node

/-- `LruPush`; `insert` of the hash set keeps a node whose key is there. -/
def lruPush (s : LruCache κ β) (node : Nat) : LruCache κ β :=
  let s := { s with lruTail := if s.lruTail = none then some node else s.lruTail }
  let s := s.linkFront node
  { s with searcher := if (s.find (s.key node)).isSome then s.searcher else node :: s.searcher }

/-- `LruRemove`; `erase` of the hash set goes by the key. -/
def lruRemove (s : LruCache κ β) (node : Nat) : LruCache κ β :=
  let s := s.setNext (s.prev node) (s.next node)
  let s := s.setPrev (s.next node) (s.prev node)
  { s with
    lruFront := if s.lruFront = some node then s.next node else s.lruFront
    lruTail := if s.lruTail = some node then s.prev node else s.lruTail
    searcher := s.searcher.filter fun a => s.key a ≠ s.key node }

def get (s : LruCache κ β) (key : κ) : Option β × LruCache κ β :=
  match s.find key with
  | none => (none, s)
  | some iter =>
    let s := s.lruTouch iter
    (some (s.value iter), s)

def put (new : New) (s : LruCache κ β) (key : κ) (value : β) : LruCache κ β :=
  match s.find key with
  | some ln => { s with value := Function.update s.value ln value }.lruTouch ln
  | none =>
    let ln := new.place s.searcher
    { s with
      key := Function.update s.key ln key
      value := Function.update s.value ln value
      prev := Function.update s.prev ln none
      next := Function.update s.next ln none }.lruPush ln

def remove (s : LruCache κ β) (key : κ) : LruCache κ β :=
  match s.find key with
  | some iter => s.lruRemove iter
  | none => s

/-- The loop of `Foreach` and of `ForeachReverse` from `node` on; `func` answers whether to go on. `none` when
it has not ended after `fuel` nodes. -/
def foreachLoop {σ : Type} (s : LruCache κ β) (link : Nat → Option Nat) (func : κ → β → σ → Bool × σ) :
    Nat → Option Nat → σ → Option σ
  | _, none, x => some x
  | 0, some _, _ => none
  | fuel + 1, some node, x =>
    match func (s.key node) (s.value node) x with
    | (true, x) => foreachLoop s link func fuel (link node) x
    | (false, x) => some x

def foreach {σ : Type} (s : LruCache κ β) (func : κ → β → σ → Bool × σ) (fuel : Nat) (x : σ) : Option σ :=
  s.foreachLoop s.next func fuel s.lruFront x

def foreachReverse {σ : Type} (s : LruCache κ β) (func : κ → β → σ → Bool × σ) (fuel : Nat) (x : σ) : Option σ :=
  s.foreachLoop s.prev func fuel s.lruTail x

/-! ## The list -/

/-- The nodes of `xs` are linked both ways, from `lru_front_` to `lru_tail_`. -/
structure Listed (s : LruCache κ β) (xs : List Nat) : Prop where
  linked : Linked s.prev s.next none xs none
  front : s.lruFront = xs.head?
  tail : s.lruTail = xs.getLast?
  nodup : xs.Nodup

section List

variable {s s' : LruCache κ β} {a : Nat} {xs ls rs : List Nat}

omit [DecidableEq κ]

theorem listed_linkFront (hl : Linked s.prev s.next none xs none) (hf : s.lruFront = xs.head?)
    (ht : s.lruTail = (a :: xs).getLast?) (hnd : (a :: xs).Nodup) : (s.linkFront a).Listed (a :: xs) := by
  have ha := (List.nodup_cons.mp hnd).1
  have hself : xs.head? ≠ some a := fun h => ha (List.mem_of_head? h)
  have hother : ∀ x ∈ xs, some a ≠ some x := by
    intro x hx he
    cases he
    exact ha hx
  refine ⟨hl.push ?_ (fun y hy => ?_) fun y hy => ?_, rfl, ht, hnd⟩
  · simp only [linkFront, setPrev, setNext, hf, Option.or_none]
    exact ⟨by rw [if_neg hself, if_pos trivial], if_pos trivial⟩
  · have hy' : xs.head? = some y := hy
    simp only [linkFront, setPrev, setNext, hf]
    exact ⟨if_pos hy', if_neg (hother y (List.mem_of_head? hy'))⟩
  · have hhead : xs.head? ≠ some y := by
      cases xs with
      | nil => cases hy
      | cons z xs =>
        rintro ⟨⟩
        exact (List.nodup_cons.mp (List.nodup_cons.mp hnd).2).1 hy
    have hne := hother y (List.mem_of_mem_tail hy)
    simp only [linkFront, setPrev, setNext, hf]
    exact ⟨by rw [if_neg hhead, if_neg hne], if_neg hne⟩

/-- The nodes before and behind a node of the list. -/
theorem Listed.split (h : s.Listed (ls ++ a :: rs)) :
    a ∉ ls ∧ a ∉ rs ∧ (∀ x ∈ ls, x ∉ rs) ∧ s.prev a = ls.getLast? ∧ s.next a = rs.head? := by
  have hnd := List.nodup_middle.mp h.nodup
  rw [List.nodup_cons, List.mem_append, not_or] at hnd
  have hdisj := List.disjoint_of_nodup_append hnd.2
  have hlinks := h.linked.links
  rw [Option.or_none, Option.or_none] at hlinks
  exact ⟨hnd.1.1, hnd.1.2, fun x hl hr => hdisj hl hr, hlinks⟩

/-- What takes a node out: the link of the node before it, the back link of the node behind it, and the ends. -/
theorem Listed.unlink (h : s.Listed (ls ++ a :: rs))
    (hnext : ∀ x ∈ ls ++ rs, s'.next x = if ls.getLast? = some x then rs.head? else s.next x)
    (hprev : ∀ x ∈ ls ++ rs, s'.prev x = if rs.head? = some x then ls.getLast? else s.prev x)
    (hf : s'.lruFront = (ls ++ rs).head?) (ht : s'.lruTail = (ls ++ rs).getLast?) : s'.Listed (ls ++ rs) := by
  obtain ⟨hal, har, hdisj, hprv, hnxt⟩ := h.split
  have hnd : (ls ++ rs).Nodup := (List.nodup_cons.mp (List.nodup_middle.mp h.nodup)).2
  have hlast : ∀ x ∈ ls.dropLast, ls.getLast? ≠ some x := by
    intro x hx hxl
    rcases List.eq_nil_or_concat' ls with rfl | ⟨ls, q, rfl⟩
    · cases hxl
    · rw [List.getLast?_concat, Option.some.injEq] at hxl
      rw [List.dropLast_concat, hxl.symm] at hx
      exact (List.nodup_append.mp (List.nodup_append.mp hnd).1).2.2 q hx q (List.mem_singleton_self q) rfl
  have hhead : ∀ y ∈ rs.tail, rs.head? ≠ some y := by
    intro y hy hyh
    cases rs with
    | nil => cases hyh
    | cons z rs =>
      cases hyh
      exact (List.nodup_cons.mp (List.nodup_append.mp hnd).2.1).1 hy
  refine ⟨h.linked.unlink (fun x hx => ?_) (fun y hy => ?_) (fun x hx => ?_) fun y hy => ?_, hf, ht, hnd⟩
  · have hx' : ls.getLast? = some x := hx
    have hmem := List.mem_of_getLast? hx'
    rw [hnext x (List.mem_append_left _ hmem), hprev x (List.mem_append_left _ hmem), if_pos hx',
      if_neg fun hr => hdisj x hmem (List.mem_of_head? hr)]
    exact ⟨rfl, hnxt.symm⟩
  · have hy' : rs.head? = some y := hy
    have hmem := List.mem_of_head? hy'
    rw [hnext y (List.mem_append_right _ hmem), hprev y (List.mem_append_right _ hmem), if_pos hy',
      if_neg fun hl => hdisj y (List.mem_of_getLast? hl) hmem]
    exact ⟨hprv.symm, rfl⟩
  · have hmem := (List.dropLast_sublist ls).subset hx
    rw [hnext x (List.mem_append_left _ hmem), hprev x (List.mem_append_left _ hmem), if_neg (hlast x hx),
      if_neg fun hr => hdisj x hmem (List.mem_of_head? hr)]
    exact ⟨rfl, rfl⟩
  · have hmem := List.mem_of_mem_tail hy
    rw [hnext y (List.mem_append_right _ hmem), hprev y (List.mem_append_right _ hmem), if_neg (hhead y hy),
      if_neg fun hl => hdisj y (List.mem_of_getLast? hl) hmem]
    exact ⟨rfl, rfl⟩

theorem Listed.lruTouch (h : s.Listed (ls ++ a :: rs)) : (s.lruTouch a).Listed (a :: (ls ++ rs)) := by
  obtain ⟨hal, har, hdisj, hprv, hnxt⟩ := h.split
  have hnd : (a :: (ls ++ rs)).Nodup := List.nodup_middle.mp h.nodup
  unfold LruCache.lruTouch
  split
  · rename_i hp
    have hls : ls = [] := List.getLast?_eq_none_iff.mp (hprv.symm.trans hp)
    subst hls
    exact h
  · rename_i hp
    rw [hprv, List.getLast?_eq_none_iff] at hp
    have hne : ls ++ rs ≠ [] := fun h0 => hp (List.append_eq_nil_iff.mp h0).1
    have hlast : ls.getLast? ≠ some a := fun he => hal (List.mem_of_getLast? he)
    have hhead : rs.head? ≠ some a := fun he => har (List.mem_of_head? he)
    have hends : (a :: (ls ++ rs)).getLast? = (ls ++ rs).getLast? := List.getLast?_cons_of_ne_nil hne
    have hfront : s.lruFront = (ls ++ rs).head? := by
      rw [h.front]
      cases ls with
      | nil => exact absurd rfl hp
      | cons q ls => rfl
    have htail : (if rs.head? = none then ls.getLast? else s.lruTail) = (ls ++ rs).getLast? := by
      rw [h.tail]
      cases rs with
      | nil => rw [List.append_nil, List.head?_nil, if_pos rfl]
      | cons n rs =>
        rw [List.head?_cons, if_neg nofun, List.getLast?_append, List.getLast?_append, List.getLast?_cons_cons]
    have hout : ({ s with
        next := fun x => if ls.getLast? = some x then rs.head? else s.next x
        prev := fun x => if rs.head? = some x then ls.getLast? else s.prev x
        lruTail := if rs.head? = none then ls.getLast? else s.lruTail } : LruCache κ β).Listed (ls ++ rs) :=
      h.unlink (fun x _ => rfl) (fun x _ => rfl) hfront htail
    simp only [setNext, setPrev, hprv, hnxt, if_neg hlast, if_neg hhead]
    exact listed_linkFront hout.linked hfront (htail.trans hends.symm) hnd

theorem Listed.lruRemove [DecidableEq κ] (h : s.Listed (ls ++ a :: rs)) : (s.lruRemove a).Listed (ls ++ rs) := by
  obtain ⟨hal, har, hdisj, hprv, hnxt⟩ := h.split
  have hlast : ls.getLast? ≠ some a := fun he => hal (List.mem_of_getLast? he)
  have hhead : rs.head? ≠ some a := fun he => har (List.mem_of_head? he)
  simp only [LruCache.lruRemove, setNext, setPrev, hprv, hnxt, if_neg hlast, if_neg hhead]
  refine h.unlink (fun x _ => rfl) (fun x _ => rfl) ?_ ?_
  · simp only
    rw [h.front]
    cases ls with
    | nil => exact if_pos rfl
    | cons q ls =>
      have hqa : q ≠ a := fun he => hal (he ▸ List.mem_cons_self ..)
      exact if_neg fun he => hqa (Option.some.inj he)
  · simp only
    rw [h.tail, List.getLast?_append, List.getLast?_append]
    rcases List.eq_nil_or_concat' rs with rfl | ⟨rs, q, rfl⟩
    · simp
    · have hqa : q ≠ a := fun he => har (by simp [he])
      rw [← List.cons_append, List.getLast?_concat, List.getLast?_concat, Option.some_or]
      exact if_neg fun he => hqa (Option.some.inj he)

/-- A new node comes to the front, and is the tail of an empty list. -/
theorem Listed.lruPush [DecidableEq κ] (h : s.Listed xs) (ha : a ∉ xs) : (s.lruPush a).Listed (a :: xs) := by
  have hnd : (a :: xs).Nodup := List.nodup_cons.mpr ⟨ha, h.nodup⟩
  have htail : (if s.lruTail = none then some a else s.lruTail) = (a :: xs).getLast? := by
    rw [h.tail]
    cases xs with
    | nil => rfl
    | cons y xs =>
      rw [List.getLast?_cons_cons]
      exact if_neg fun h0 => List.cons_ne_nil _ _ (List.getLast?_eq_none_iff.mp h0)
  have hpush := listed_linkFront (s := { s with lruTail := if s.lruTail = none then some a else s.lruTail })
    h.linked h.front htail hnd
  exact ⟨hpush.linked, hpush.front, hpush.tail, hpush.nodup⟩

end List

end LruCache

end Idmbs
