import Idmbs.BPlusTree.View

/-!
# Idmbs.BPlusTree.Moves

How moving items between two pages changes the view: rules for `CopyFrom`, `Preappend`, the four
move operations, `Split` and the relinking of a leaf's neighbour.
-/

namespace Idmbs

namespace BplusTreeHandler

variable {α : Type} {s : BplusTreeHandler α} {keep : List PageId} {hdr : IndexFileHeader}
  {st : Option PageId} {nd : PageId → IndexNode α} {this other : PageId}

/-- The pages in `ps` have `this` as their parent, the rest is as in `nd`. -/
def adopt (nd : PageId → IndexNode α) (this : PageId) (ps : List PageId) (p : PageId) : IndexNode α :=
  if p ∈ ps then { nd p with parent := some this } else nd p

theorem adopt_of_notMem {ps : List PageId} {p : PageId} (h : p ∉ ps) : adopt nd this ps p = nd p :=
  if_neg h

theorem adopt_of_mem {ps : List PageId} {p : PageId} (h : p ∈ ps) :
    adopt nd this ps p = { nd p with parent := some this } := if_pos h

theorem adopt_cons (p : PageId) (ps : List PageId) :
    adopt (Function.update nd p { nd p with parent := some this }) this ps =
      adopt nd this (p :: ps) := by
  funext q
  by_cases hq : q = p
  · subst hq; by_cases hm : q ∈ ps <;> simp [adopt, hm]
  · simp [adopt, hq]

@[simp] theorem adopt_nil : adopt nd this [] = nd := by
  funext q; simp [adopt]

theorem update_adopt_update (ps : List PageId) (m n : IndexNode α) :
    Function.update (adopt (Function.update nd this m) this ps) this n =
      Function.update (adopt nd this ps) this n := by
  funext p
  by_cases hp : p = this
  · simp [hp]
  · simp [adopt, hp]

theorem View.adoptChildren (this : PageId) {ps : List PageId} (h : View s keep hdr st nd)
    (hps : ps ⊆ keep) :
    ∃ s', BplusTreeHandler.adoptChildren this ps s = (.success, s') ∧
      View s' keep hdr st (adopt nd this ps) := by
  induction ps generalizing s nd with
  | nil => exact ⟨s, rfl, by simpa using h⟩
  | cons p ps ih =>
    have hp : p ∈ keep := hps (by simp)
    simp only [BplusTreeHandler.adoptChildren, h.getPage hp, ne_eq, not_true_eq_false, if_false]
    rw [← adopt_cons]
    exact ih (((h.pinned.modifyNode hp _).dirtyMark).unpinPage) fun q hq => hps (by simp [hq])

theorem View.copyFrom {items : List (Key α × PageId)} (h : View s keep hdr st nd)
    (ht : this ∈ keep) (hps : items.map Prod.snd ⊆ keep) (hn : this ∉ items.map Prod.snd) :
    ∃ s', BplusTreeHandler.copyFrom this items s = (.success, s') ∧
      View s' keep hdr st (Function.update (adopt nd this (items.map Prod.snd)) this
        { nd this with children := (nd this).children ++ items }) := by
  obtain ⟨s1, e1, hv⟩ := h.adoptChildren this hps
  have := hv.modifyNode ht fun n => { n with children := n.children ++ items }
  rw [adopt_of_notMem hn] at this
  exact ⟨_, by simp only [BplusTreeHandler.copyFrom, e1, ne_eq, not_true_eq_false, if_false], this⟩

theorem View.preappend {item : Key α × PageId} (h : View s keep hdr st nd)
    (ht : this ∈ keep) (hps : item.2 ∈ keep) (hn : this ≠ item.2) :
    ∃ s', BplusTreeHandler.preappend this item s = (.success, s') ∧
      View s' keep hdr st (Function.update (adopt nd this [item.2]) this
        { nd this with children := item :: (nd this).children }) := by
  have hsub : [item.2] ⊆ keep := by simpa using hps
  obtain ⟨s1, e1, hv⟩ := h.adoptChildren this hsub
  have := hv.modifyNode ht fun n => { n with children := item :: n.children }
  rw [adopt_of_notMem (by simpa using hn)] at this
  exact ⟨_, by simp only [BplusTreeHandler.preappend, e1, ne_eq, not_true_eq_false, if_false], this⟩

/-! ## The four moves -/

theorem View.moveHalfTo_leaf (h : View s keep hdr st nd) (ht : this ∈ keep) (ho : other ∈ keep)
    (hne : this ≠ other) :
    ∃ s', BplusTreeHandler.moveHalfTo .leaf this other s = (.success, s') ∧
      View s' keep hdr st (Function.update
        (Function.update nd other
          { nd other with entries := (nd this).entries.drop ((nd this).size / 2) }) this
        { nd this with entries := (nd this).entries.take ((nd this).size / 2) }) := by
  have := (h.modifyNode ho fun o =>
    { o with entries := (nd this).entries.drop ((nd this).size / 2) }).modifyNode ht fun n =>
    { n with entries := n.entries.take ((nd this).size / 2) }
  rw [Function.update_of_ne hne] at this
  exact ⟨_, rfl, by simpa only [h.node] using this⟩

theorem View.moveHalfTo_internal (h : View s keep hdr st nd) (ht : this ∈ keep) (ho : other ∈ keep)
    (hne : this ≠ other) (hps : (nd this).children.map Prod.snd ⊆ keep)
    (htn : this ∉ (nd this).children.map Prod.snd) (hon : other ∉ (nd this).children.map Prod.snd) :
    ∃ s', BplusTreeHandler.moveHalfTo .internal this other s = (.success, s') ∧
      View s' keep hdr st (Function.update
        (Function.update
          (adopt nd other (((nd this).children.drop ((nd this).size / 2)).map Prod.snd)) other
          { nd other with
            children := (nd other).children ++ (nd this).children.drop ((nd this).size / 2) }) this
        { nd this with children := (nd this).children.take ((nd this).size / 2) }) := by
  have hsub : ((nd this).children.drop ((nd this).size / 2)).map Prod.snd ⊆
      (nd this).children.map Prod.snd := List.map_subset _ (List.drop_subset _ _)
  obtain ⟨s1, e1, hv⟩ := h.copyFrom ho (List.Subset.trans hsub hps) fun hm => hon (hsub hm)
  have := hv.modifyNode ht fun n => { n with children := n.children.take ((nd this).size / 2) }
  rw [Function.update_of_ne hne, adopt_of_notMem fun hm => htn (hsub hm)] at this
  refine ⟨_, ?_, this⟩
  simp only [BplusTreeHandler.moveHalfTo, h.node, e1, ne_eq, not_true_eq_false, if_false]

/-- The node of `next` with its back link turned to `prev`. -/
def relink (nd : PageId → IndexNode α) (prev : PageId) : Option PageId → PageId → IndexNode α
  | none => nd
  | some next => Function.update nd next { nd next with prevBrother := some prev }

theorem relink_of_notMem {prev : PageId} {next : Option PageId} {p : PageId} (h : p ∉ next) :
    relink nd prev next p = nd p := by
  cases next with
  | none => rfl
  | some y => exact Function.update_of_ne (fun e => h (by simp [e])) _ _

theorem relink_congr {nd' : PageId → IndexNode α} {prev : PageId} {next : Option PageId} {p : PageId}
    (h : nd' p = nd p) : relink nd' prev next p = relink nd prev next p := by
  cases next with
  | none => exact h
  | some y =>
    by_cases hp : p = y
    · subst hp; simp [relink, h]
    · simp [relink, Function.update_of_ne hp, h]

theorem View.relinkNext (prev : PageId) (next : Option PageId) (h : View s keep hdr st nd)
    (hn : ∀ p ∈ next, p ∈ keep) :
    ∃ s', BplusTreeHandler.relinkNext prev next s = (.success, s') ∧
      View s' keep hdr st (relink nd prev next) := by
  cases next with
  | none => exact ⟨s, rfl, h⟩
  | some p =>
    have hp := hn p rfl
    refine ⟨((s.pinned p).setPrevPage p (some prev)).unpinPage p, ?_,
      (h.pinned.modifyNode hp _).unpinPage⟩
    simp only [BplusTreeHandler.relinkNext, h.getPage hp, ne_eq, not_true_eq_false, if_false]

theorem View.moveTo_leaf (h : View s keep hdr st nd) (ht : this ∈ keep) (ho : other ∈ keep)
    (hne : this ≠ other) (hn : ∀ p ∈ (nd this).nextBrother, p ∈ keep) :
    ∃ s', BplusTreeHandler.moveTo .leaf this other s = (.success, s') ∧
      View s' keep hdr st (relink
        (Function.update (Function.update nd this { nd this with entries := [] }) other
          { nd other with
            entries := (nd other).entries ++ (nd this).entries
            nextBrother := (nd this).nextBrother })
        other (nd this).nextBrother) := by
  have h1 := ((h.modifyNode ho fun o =>
    { o with entries := o.entries ++ (nd this).entries }).modifyNode ht fun n =>
    { n with entries := [] }).modifyNode ho fun o => { o with nextBrother := (nd this).nextBrother }
  rw [Function.update_of_ne (Ne.symm hne), Function.update_self, Function.update_of_ne hne,
    Function.update_comm (Ne.symm hne), Function.update_idem] at h1
  generalize Function.update (Function.update nd this _) other _ = nd1 at h1 ⊢
  cases hnext : (nd this).nextBrother with
  | none =>
    refine ⟨_, ?_, h1⟩
    simp only [BplusTreeHandler.moveTo, h.node, hnext, setNextPage]
  | some next =>
    have hp := hn next hnext
    refine ⟨_, ?_, (((h1.pinned (p := next)).modifyNode hp fun n =>
      { n with prevBrother := some other }).dirtyMark (p := next)).unpinPage (p := next)⟩
    have hget := h1.getPage hp
    simp only [hnext] at hget
    simp only [BplusTreeHandler.moveTo, h.node, hnext, setNextPage, hget, ne_eq, not_true_eq_false,
      if_false, setPrevPage]

theorem View.moveTo_internal (h : View s keep hdr st nd) (ht : this ∈ keep) (ho : other ∈ keep)
    (hne : this ≠ other) (hps : (nd this).children.map Prod.snd ⊆ keep)
    (htn : this ∉ (nd this).children.map Prod.snd) (hon : other ∉ (nd this).children.map Prod.snd) :
    ∃ s', BplusTreeHandler.moveTo .internal this other s = (.success, s') ∧
      View s' keep hdr st (Function.update
        (Function.update (adopt nd other ((nd this).children.map Prod.snd)) other
          { nd other with children := (nd other).children ++ (nd this).children }) this
        { nd this with children := [] }) := by
  obtain ⟨s1, e1, hv⟩ := h.copyFrom ho hps hon
  have := hv.modifyNode ht fun n => { n with children := [] }
  rw [Function.update_of_ne hne, adopt_of_notMem htn] at this
  refine ⟨_, ?_, this⟩
  simp only [BplusTreeHandler.moveTo, h.node, e1, ne_eq, not_true_eq_false, if_false]

theorem View.moveFirstToEnd_leaf (h : View s keep hdr st nd) (ht : this ∈ keep) (ho : other ∈ keep)
    (hne : this ≠ other) :
    ∃ s', BplusTreeHandler.moveFirstToEnd .leaf this other s = (.success, s') ∧
      View s' keep hdr st (Function.update
        (Function.update nd other
          { nd other with entries := (nd other).entries ++ (nd this).entries.take 1 }) this
        { nd this with entries := (nd this).entries.tail }) := by
  have := (h.modifyNode ho fun o =>
    { o with entries := o.entries ++ (nd this).entries.take 1 }).modifyNode ht fun n =>
    { n with entries := n.entries.tail }
  rw [Function.update_of_ne hne] at this
  exact ⟨_, rfl, by simpa only [h.node] using this⟩

theorem View.moveFirstToEnd_internal {items : List (Key α × PageId)}
    (h : View s keep hdr st nd) (item : Key α × PageId) (ht : this ∈ keep) (ho : other ∈ keep) (hne : this ≠ other)
    (hc : (nd this).children = item :: items) (hp : item.2 ∈ keep) (htn : this ≠ item.2)
    (hon : other ≠ item.2) :
    ∃ s', BplusTreeHandler.moveFirstToEnd .internal this other s = (.success, s') ∧
      View s' keep hdr st (Function.update
        (Function.update (adopt nd other [item.2]) other
          { nd other with children := (nd other).children ++ [item] }) this
        { nd this with children := items }) := by
  have hsub : [item].map Prod.snd ⊆ keep := by simpa using hp
  obtain ⟨s1, e1, hv⟩ := h.copyFrom ho hsub (by simpa using hon)
  have := hv.modifyNode ht fun n => { n with children := n.children.tail }
  simp only [List.map_cons, List.map_nil] at this
  rw [Function.update_of_ne hne, adopt_of_notMem (by simpa using htn), hc, List.tail_cons] at this
  refine ⟨_, ?_, this⟩
  simp only [BplusTreeHandler.moveFirstToEnd, h.node, hc, List.take_succ_cons, List.take_zero, e1,
    ne_eq, not_true_eq_false, if_false]

theorem View.moveLastToFront_leaf {e : Key α × RecordId} (h : View s keep hdr st nd)
    (ht : this ∈ keep) (ho : other ∈ keep) (hne : this ≠ other)
    (hlast : (nd this).entries.getLast? = some e) :
    ∃ s', BplusTreeHandler.moveLastToFront .leaf this other s = (.success, s') ∧
      View s' keep hdr st (Function.update
        (Function.update nd other { nd other with entries := e :: (nd other).entries }) this
        { nd this with entries := (nd this).entries.dropLast }) := by
  have := (h.modifyNode ho fun o => { o with entries := e :: o.entries }).modifyNode ht fun n =>
    { n with entries := n.entries.dropLast }
  rw [Function.update_of_ne hne] at this
  refine ⟨_, ?_, this⟩
  simp only [BplusTreeHandler.moveLastToFront, h.node, hlast]

theorem View.moveLastToFront_internal (h : View s keep hdr st nd) (item : Key α × PageId)
    (ht : this ∈ keep) (ho : other ∈ keep) (hne : this ≠ other)
    (hlast : (nd this).children.getLast? = some item) (hp : item.2 ∈ keep) (htn : this ≠ item.2)
    (hon : other ≠ item.2) :
    ∃ s', BplusTreeHandler.moveLastToFront .internal this other s = (.success, s') ∧
      View s' keep hdr st (Function.update
        (Function.update (adopt nd other [item.2]) other
          { nd other with children := item :: (nd other).children }) this
        { nd this with children := (nd this).children.dropLast }) := by
  obtain ⟨s1, e1, hv⟩ := h.preappend ho hp hon
  have := hv.modifyNode ht fun n => { n with children := n.children.dropLast }
  rw [Function.update_of_ne hne, adopt_of_notMem (by simpa using htn)] at this
  refine ⟨_, ?_, this⟩
  simp only [BplusTreeHandler.moveLastToFront, h.node, hlast, e1, ne_eq, not_true_eq_false, if_false]

/-! ## `Split` -/

section Split

variable [Inhabited α] {frame : PageId}

theorem View.split_leaf (h : View s keep hdr st nd) (hf : frame ∈ keep) :
    ((s.split .leaf frame).1 ≠ .success ∧ (s.split .leaf frame).2.2.pool.noBuf = true) ∨
    ∃ q s', s.split .leaf frame = (.success, q, s') ∧ q ∉ keep ∧
      View s' (q :: keep) hdr st (Function.update
        (Function.update nd q ⟨true, (nd frame).parent, none, none,
          (nd frame).entries.drop ((nd frame).size / 2), []⟩) frame
        { nd frame with entries := (nd frame).entries.take ((nd frame).size / 2) }) := by
  unfold BplusTreeHandler.split
  rcases ha : s.allocatePage with ⟨r, q, s1⟩
  have hal := h.allocatePage
  simp only [ha] at hal ⊢
  rcases hal with ⟨hr, hb⟩ | ⟨rfl, hq, n, hv⟩
  · exact .inl (by simpa only [ne_eq, hr, not_false_eq_true, if_true] using ⟨trivial, hb⟩)
  · right
    have hne : frame ≠ q := fun e => hq (e ▸ hf)
    have h2 := (hv.modifyNode (p := q) (by simp) (IndexNode.initEmpty .leaf)).modifyNode (p := q)
      (by simp) fun m => { m with parent := (nd frame).parent }
    have hf' : frame ∈ q :: keep := List.mem_cons_of_mem _ hf
    obtain ⟨s3, e3, h3⟩ := h2.moveHalfTo_leaf hf' (by simp) hne
    have h4 := (h3.dirtyMark (p := frame)).dirtyMark (p := q)
    refine ⟨q, (s3.dirtyMark frame).dirtyMark q, ?_, hq, ?_⟩
    · have hp : ((s1.modifyNode q (IndexNode.initEmpty .leaf)).node frame).parent =
          (nd frame).parent := by
        rw [(hv.modifyNode (p := q) (by simp) _).node, Function.update_of_ne hne,
          Function.update_of_ne hne]
      simp only [ne_eq, not_true_eq_false, if_false, hp, setParentPageId, e3]
    · simpa only [Function.update_self, Function.update_idem, Function.update_of_ne hne,
        IndexNode.initEmpty] using h4

theorem View.split_internal (h : View s keep hdr st nd) (hf : frame ∈ keep)
    (hps : (nd frame).children.map Prod.snd ⊆ keep)
    (hfn : frame ∉ (nd frame).children.map Prod.snd) :
    ((s.split .internal frame).1 ≠ .success ∧
      (s.split .internal frame).2.2.pool.noBuf = true) ∨
    ∃ q s', s.split .internal frame = (.success, q, s') ∧ q ∉ keep ∧ ∃ prev next,
      View s' (q :: keep) hdr st (Function.update (Function.update
        (adopt nd q (((nd frame).children.drop ((nd frame).size / 2)).map Prod.snd)) q
        ⟨false, (nd frame).parent, prev, next, [],
          (nd frame).children.drop ((nd frame).size / 2)⟩) frame
        { nd frame with children := (nd frame).children.take ((nd frame).size / 2) }) := by
  unfold BplusTreeHandler.split
  rcases ha : s.allocatePage with ⟨r, q, s1⟩
  have hal := h.allocatePage
  simp only [ha] at hal ⊢
  rcases hal with ⟨hr, hb⟩ | ⟨rfl, hq, n, hv⟩
  · exact .inl (by simpa only [ne_eq, hr, not_false_eq_true, if_true] using ⟨trivial, hb⟩)
  · right
    have hne : frame ≠ q := fun e => hq (e ▸ hf)
    have h2 := (hv.modifyNode (p := q) (by simp) (IndexNode.initEmpty .internal)).modifyNode (p := q)
      (by simp) fun m => { m with parent := (nd frame).parent }
    rw [Function.update_self, Function.update_idem, Function.update_self, Function.update_idem] at h2
    have hq' : q ∉ (nd frame).children.map Prod.snd := fun hm => hq (hps hm)
    have hf' : frame ∈ q :: keep := List.mem_cons_of_mem _ hf
    obtain ⟨s3, e3, h3⟩ := h2.moveHalfTo_internal hf' (by simp) hne
      (by rw [Function.update_of_ne hne]; exact List.subset_cons_of_subset _ hps)
      (by rwa [Function.update_of_ne hne]) (by rwa [Function.update_of_ne hne])
    have h4 := (h3.dirtyMark (p := frame)).dirtyMark (p := q)
    refine ⟨q, (s3.dirtyMark frame).dirtyMark q, ?_, hq, n.prevBrother, n.nextBrother, ?_⟩
    · have hp : ((s1.modifyNode q (IndexNode.initEmpty .internal)).node frame).parent =
          (nd frame).parent := by
        rw [(hv.modifyNode (p := q) (by simp) _).node, Function.update_of_ne hne,
          Function.update_of_ne hne]
      simp only [ne_eq, not_true_eq_false, if_false, hp, setParentPageId, e3]
    · simpa only [Function.update_self, Function.update_of_ne hne, IndexNode.initEmpty,
        update_adopt_update, List.nil_append] using h4

end Split

end BplusTreeHandler

end Idmbs
