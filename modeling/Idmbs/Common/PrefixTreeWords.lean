import Idmbs.Common.PrefixTree
import Mathlib.Data.Set.Insert

/-!
# Idmbs.Common.PrefixTreeWords

Runs of `Insert` and `Delete` on a `PrefixTree`, compared with the set of words that were inserted and not
deleted since. `FindWord` does not ask whether a word ends where it comes to, and `Delete` frees no node, so
the tree finds every prefix of every word that was ever inserted.
-/

namespace Idmbs
namespace PrefixTree

inductive Call where
  | insert (value : List UInt8) (wordType : WordType)
  | delete (value : List UInt8)

/-- The tree behind a call; `none` where it reads behind the end of `childs`. -/
def Call.run (t : PrefixTree) : Call → Option PrefixTree
  | .insert value wordType => some (PrefixTree.insert t value wordType)
  | .delete value => PrefixTree.delete t value

def run (t : PrefixTree) (cs : List Call) : Option PrefixTree := cs.foldlM Call.run t

/-- The words that were inserted and not deleted since. -/
def Call.words (ws : Set (List UInt8)) : Call → Set (List UInt8)
  | .insert value _ => Insert.insert value ws
  | .delete value => ws \ {value}

def words (cs : List Call) : Set (List UInt8) := cs.foldl Call.words ∅

/-- The words that were inserted at some time. -/
def inserted (cs : List Call) : Set (List UInt8) := {v | ∃ wordType, Call.insert v wordType ∈ cs}

/-- The tree is the set of words. -/
structure IsSet (t : PrefixTree) (ws : Set (List UInt8)) : Prop where
  findWord : ∀ w, findWord t w = 1 ↔ w ∈ ws
  shape : Shape 0 t
  absent : ∀ w, w ∉ ws → delete t w = some t

/-- Every deletion reads only what there is. -/
def AllDeletable (t : PrefixTree) : List Call → Prop
  | [] => True
  | .insert value wordType :: cs => AllDeletable (insert t value wordType) cs
  | .delete value :: cs => Deletable t value ∧ ∀ t', delete t value = some t' → AllDeletable t' cs

/-- The way of `Delete` ends in a leaf, where every word that leads there is in the set. -/
def EndsInWords (t : PrefixTree) (ws : Set (List UInt8)) : Prop :=
  ∃ i n, onWay t i = some n ∧ n.childs = [] ∧ ∀ w, w.length = i → Found t w → w ∈ ws

variable {t t' : PrefixTree} {n : PrefixTreeNode} {cs : List Call} {c : UInt8} {w v : List UInt8} {i : Nat}
  {ws : Set (List UInt8)}

theorem run_cons (t : PrefixTree) (c : Call) (cs : List Call) : run t (c :: cs) = (c.run t).bind fun t => run t cs :=
  List.foldlM_cons

/-- What a whole run keeps: the shape, and every prefix of every word. -/
theorem run_keeps (hs : Shape 0 t) (h : run t cs = some t') :
    Shape 0 t' ∧ ∀ w, findWord t' w = 1 ↔ findWord t w = 1 ∨ ∃ v ∈ inserted cs, w <+: v := by
  induction cs generalizing t with
  | nil =>
    cases h
    simp [inserted, hs]
  | cons c cs ih =>
    rw [run_cons] at h
    obtain ⟨t1, h1, h2⟩ := Option.bind_eq_some_iff.mp h
    cases c with
    | insert value wordType =>
      cases h1
      obtain ⟨hs', hfind⟩ := ih (shape_insert hs) h2
      refine ⟨hs', fun w => ?_⟩
      rw [hfind, findWord_insert hs, or_assoc]
      refine or_congr_right ?_
      constructor
      · rintro (hw | ⟨v, ⟨wordType, hv⟩, hw⟩)
        · exact ⟨value, ⟨wordType, List.mem_cons_self ..⟩, hw⟩
        · exact ⟨v, ⟨wordType, List.mem_cons_of_mem _ hv⟩, hw⟩
      · rintro ⟨v, ⟨wordType', hv⟩, hw⟩
        obtain hv | hv := List.mem_cons.mp hv
        · cases hv
          exact .inl hw
        · exact .inr ⟨v, ⟨wordType', hv⟩, hw⟩
    | delete value =>
      obtain ⟨hs1, hfind1⟩ := delete_keeps hs h1
      obtain ⟨hs', hfind⟩ := ih hs1 h2
      refine ⟨hs', fun w => ?_⟩
      rw [hfind, hfind1]
      refine or_congr_right (exists_congr fun v => and_congr_left fun _ => exists_congr fun wordType => ?_)
      simp

theorem run_defined (t : PrefixTree) (cs : List Call) : run t cs ≠ none ↔ AllDeletable t cs := by
  induction cs generalizing t with
  | nil => exact ⟨fun _ => trivial, fun _ => nofun⟩
  | cons c cs ih =>
    rw [run_cons]
    cases c with
    | insert value wordType => exact ih _
    | delete value =>
      rw [AllDeletable, ← delete_defined, Call.run]
      cases delete t value with
      | none => exact ⟨absurd rfl, fun h => absurd rfl h.1⟩
      | some t1 =>
        rw [Option.bind_some, ih]
        exact ⟨fun h => ⟨nofun, fun t' ht' => Option.some.inj ht' ▸ h⟩, fun h => h.2 t1 rfl⟩

theorem inserted_of_words (hw : w ∈ cs.foldl Call.words ws) : w ∈ ws ∨ w ∈ inserted cs := by
  induction cs generalizing ws with
  | nil => exact .inl hw
  | cons c cs ih =>
    obtain h | ⟨wordType, h⟩ := ih hw
    · cases c with
      | insert value wordType =>
        obtain rfl | h := h
        · exact .inr ⟨wordType, List.mem_cons_self ..⟩
        · exact .inl h
      | delete value => exact .inl h.1
    · exact .inr ⟨wordType, List.mem_cons_of_mem _ h⟩

/-! ## The way of a deletion -/

/-- A pointer is a word that is found, character by character. -/
theorem word_of_nodeAt {d : Nat} {pos : List Nat} (hs : Shape d t) (h : nodeAt t pos = some n) :
    ∃ w, w.length = pos.length ∧ findWord t w = 1 := by
  induction pos generalizing t d with
  | nil => exact ⟨[], rfl, rfl⟩
  | cons i pos ih =>
    obtain ⟨child, hchild, h'⟩ := nodeAt_cons h
    obtain ⟨w, hlen, hw⟩ := ih (hs.childs (List.mem_of_getElem? hchild)) h'
    refine ⟨child.value :: w, congrArg Nat.succ hlen, ?_⟩
    rw [findWord_cons, findChild_value hs.nodup hchild, Option.bind_some, hchild]
    exact hw

/-- A word that leads a part of the way can be led down all of it. -/
theorem found_extend (hw : Found t w) (hi : w.length ≤ i) (h : onWay t i ≠ none) :
    ∃ u, (w ++ u).length = i ∧ Found t (w ++ u) := by
  obtain ⟨k, rfl⟩ := Nat.exists_eq_add_of_le hi
  clear hi
  induction k generalizing w with
  | zero => exact ⟨[], by rw [List.append_nil]; exact ⟨rfl, hw⟩⟩
  | succ k ih =>
    have hnext : onWay t (w.length + 1) ≠ none := onWay_of_le (by omega) h
    rw [onWay_succ] at hnext
    obtain ⟨child, hchild⟩ := Option.ne_none_iff_exists'.mp hnext
    obtain ⟨n, hn, hchild⟩ := Option.bind_eq_some_iff.mp hchild
    have hfind : n.findChild child.value ≠ none := fun hnone =>
      findChild_eq_none.mp hnone (List.mem_map_of_mem (List.mem_of_getElem? hchild))
    have hlen : (w ++ [child.value]).length + k = w.length + (k + 1) := by
      rw [List.length_append, List.length_singleton]
      omega
    obtain ⟨u, hu, hf⟩ := ih ((found_append w child.value).mpr ⟨hw, n, hn, hfind⟩) (by rwa [hlen])
    refine ⟨child.value :: u, ?_⟩
    rw [List.append_cons, hu]
    exact ⟨hlen, hf⟩

theorem findWord_start (h : findWord t w = 1) (hp : v <+: w) : findWord t v = 1 := by
  induction w generalizing t v with
  | nil =>
    rw [List.prefix_nil.mp hp]
    rfl
  | cons c w ih =>
    cases v with
    | nil => rfl
    | cons c' v =>
      obtain ⟨rfl, hp'⟩ := List.cons_prefix_cons.mp hp
      rw [findWord_cons] at h ⊢
      cases hc : (t.findChild c').bind fun i => t.childs[i]? with
      | none =>
        rw [hc] at h
        cases h
      | some child =>
        rw [hc] at h
        exact ih h hp'

theorem onWay_ends (hs : Shape 0 t) {k : Nat} (hk : ∀ w, findWord t w = 1 → w.length ≤ k) :
    ∃ i n, onWay t i = some n ∧ onWay t (i + 1) = none := by
  have hend : onWay t (k + 1) = none := by
    by_contra hne
    obtain ⟨n, hn⟩ := Option.ne_none_iff_exists'.mp hne
    obtain ⟨w, hlen, hw⟩ := word_of_nodeAt hs hn
    have hle := hk w hw
    rw [hlen, List.length_range] at hle
    omega
  clear hk
  induction k with
  | zero => exact ⟨0, t, rfl, hend⟩
  | succ k ih =>
    cases h : onWay t (k + 1) with
    | none => exact ih h
    | some n => exact ⟨k + 1, n, h, hend⟩

/-- Where deletions of absent words change nothing, the way of `Delete` ends in a leaf and in words. -/
theorem endsInWords_of_absent (hs : Shape 0 t) (hfind : ∀ w, findWord t w = 1 ↔ w ∈ ws) {k : Nat}
    (hk : ∀ w ∈ ws, w.length ≤ k) (h : ∀ w, w ∉ ws → delete t w = some t) : EndsInWords t ws := by
  obtain ⟨i, n, hn, hend⟩ := onWay_ends hs (k := k) fun w hw => hk w ((hfind w).mp hw)
  have hleaf : n.childs = [] := by
    by_contra hne
    obtain ⟨child, rest, hcons⟩ := List.exists_cons_of_ne_nil hne
    have hroot : Found t [] := nofun
    obtain ⟨w, hlen, hw⟩ := found_extend hroot (Nat.zero_le i) (by rw [hn]; nofun)
    rw [List.nil_append] at hlen hw
    have hc : n.findChild child.value ≠ none := by
      rw [Ne, findChild_eq_none, hcons]
      simp
    have hw' := (found_append w child.value).mpr ⟨hw, n, by rw [hlen, hn], hc⟩
    have habsent : (w ++ [child.value]) ++ List.replicate k 0 ∉ ws := by
      intro hmem
      have hle := hk _ hmem
      simp only [List.length_append, List.length_singleton, List.length_replicate] at hle
      omega
    have hway := (delete_same.mp (h _ habsent)).1.way _ (List.prefix_append ..) hw'
    rw [List.length_append, List.length_singleton, hlen] at hway
    exact hway hend
  refine ⟨i, n, hn, hleaf, fun w hlen hw => ?_⟩
  by_contra habsent
  obtain ⟨-, hfalse⟩ := delete_same.mp (h w habsent)
  cases i with
  | zero =>
    rw [List.length_eq_zero_iff.mp hlen] at habsent
    exact habsent ((hfind []).mp rfl)
  | succ i =>
    have htrue := hs.leaf_nodeAt hn (by simp) hleaf
    rw [hfalse hw n (by rw [hlen, hn])] at htrue
    cases htrue

/-- In a tree whose way ends so, no absent word leads it to the end. -/
theorem absent_of_endsInWords (hfind : ∀ w, findWord t w = 1 ↔ w ∈ ws) (h : EndsInWords t ws) (hw : w ∉ ws) :
    delete t w = some t := by
  obtain ⟨i, n, hn, hleaf, hwords⟩ := h
  have hshort : ∀ p, Found t p → p.length ≤ i := by
    intro p hp
    by_contra hlong
    have hi : i < p.length := by omega
    obtain ⟨n', hn', hc⟩ := hp i p[i] (List.getElem?_eq_getElem hi)
    rw [hn] at hn'
    cases hn'
    refine hc (findChild_eq_none.mpr ?_)
    rw [hleaf]
    exact List.not_mem_nil
  have hnot : ¬Found t w := by
    intro hf
    obtain ⟨u, hlen, hu⟩ := found_extend hf (hshort w hf) (by rw [hn]; nofun)
    have hlong := (hfind _).mpr (hwords _ hlen hu)
    exact hw ((hfind w).mp (findWord_start hlong (List.prefix_append ..)))
  refine delete_same.mpr ⟨⟨fun p _ hp => ?_, fun hf => absurd hf hnot⟩, fun hf => absurd hf hnot⟩
  refine onWay_of_le (hshort p hp) ?_
  rw [hn]
  nofun

theorem inserted_bounded (cs : List Call) : ∃ k, ∀ v ∈ inserted cs, v.length ≤ k := by
  induction cs with
  | nil => exact ⟨0, fun v ⟨_, hv⟩ => nomatch hv⟩
  | cons c cs ih =>
    obtain ⟨k, hk⟩ := ih
    cases c with
    | insert value wordType =>
      refine ⟨max value.length k, fun v ⟨wordType', hv⟩ => ?_⟩
      obtain hv | hv := List.mem_cons.mp hv
      · cases hv
        exact le_max_left ..
      · exact (hk v ⟨wordType', hv⟩).trans (le_max_right ..)
    | delete value =>
      refine ⟨k, fun v ⟨wordType', hv⟩ => ?_⟩
      obtain hv | hv := List.mem_cons.mp hv
      · cases hv
      · exact hk v ⟨wordType', hv⟩

/-- The words of a run are found behind it, with all their prefixes. -/
theorem run_findWord (h : run new cs = some t) :
    Shape 0 t ∧ ∀ w, findWord t w = 1 ↔ w = [] ∨ ∃ v ∈ inserted cs, w <+: v := by
  obtain ⟨hs, hfind⟩ := run_keeps shape_new h
  refine ⟨hs, fun w => ?_⟩
  rw [hfind]
  refine or_congr_left ?_
  cases w with
  | nil => exact ⟨fun _ => rfl, fun _ => rfl⟩
  | cons c w => exact ⟨fun h => (nomatch h), nofun⟩

/-- A run of a new tree leaves the set of words if and only if every deletion reads only what there is, the
empty word and every prefix of an inserted word are themselves in the set, and the way of `Delete` ends in a
leaf where every word that leads there is in it. -/
theorem isSet_iff (cs : List Call) :
    (∃ t, run new cs = some t ∧ IsSet t (words cs)) ↔
      AllDeletable new cs ∧ ([] ∈ words cs ∧ ∀ v ∈ inserted cs, ∀ w, w <+: v → w ∈ words cs) ∧
        ∀ t, run new cs = some t → EndsInWords t (words cs) := by
  constructor
  · rintro ⟨t, hrun, hset⟩
    obtain ⟨hs, hfind⟩ := run_findWord hrun
    obtain ⟨k, hk⟩ := inserted_bounded cs
    have hbound : ∀ w ∈ words cs, w.length ≤ k := by
      intro w hw
      obtain ⟨v, hv, hp⟩ | rfl := ((hfind w).mp ((hset.findWord w).mpr hw)).symm
      · exact hp.length_le.trans (hk v hv)
      · exact Nat.zero_le k
    refine ⟨(run_defined new cs).mp (by rw [hrun]; nofun), ⟨(hset.findWord []).mp rfl, ?_⟩, ?_⟩
    · intro v hv w hp
      exact (hset.findWord w).mp ((hfind w).mpr (.inr ⟨v, hv, hp⟩))
    · intro t' hrun'
      rw [hrun] at hrun'
      cases hrun'
      exact endsInWords_of_absent hs hset.findWord hbound hset.absent
  · rintro ⟨hdefined, ⟨hnil, hclosed⟩, hends⟩
    obtain ⟨t, hrun⟩ := Option.ne_none_iff_exists'.mp ((run_defined new cs).mpr hdefined)
    obtain ⟨hs, hfind⟩ := run_findWord hrun
    have hwords : ∀ w, findWord t w = 1 ↔ w ∈ words cs := by
      intro w
      rw [hfind]
      constructor
      · rintro (rfl | ⟨v, hv, hp⟩)
        · exact hnil
        · exact hclosed v hv w hp
      · intro hw
        obtain hempty | hw := inserted_of_words hw
        · cases hempty
        · exact .inr ⟨w, hw, List.prefix_rfl⟩
    exact ⟨t, hrun, hwords, hs, fun w hw => absent_of_endsInWords hwords (hends t hrun) hw⟩

/-- A prefix of an inserted word is found, though it was not inserted itself. -/
theorem not_isSet : ¬∀ cs, ∃ t, run new cs = some t ∧ IsSet t (words cs) := by
  intro h
  obtain ⟨t, hrun, hset⟩ := h [.insert [97, 98] .keyWord]
  cases hrun
  have hfound : findWord (insert new [97, 98] .keyWord) [97] = 1 := by decide
  have hmem := (hset.findWord [97]).mp hfound
  obtain h | h := hmem
  · cases h
  · exact h

end PrefixTree
end Idmbs
