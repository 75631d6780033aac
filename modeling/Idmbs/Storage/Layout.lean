import Idmbs.Storage.TableMeta

/-!
# Idmbs.Storage.Layout

Where `TableMeta::Init` puts the fields: one behind the other from offset 0, each as long as its attribute
says.
-/

namespace Idmbs

/-- What `FieldMeta::Init` checks. -/
structure FieldMeta.Checked (f : FieldMeta) : Prop where
  name : f.fieldName.utf8ByteSize ≠ 0
  type : f.attrType ≠ .undefined
  offset : 0 ≤ f.offset
  len : 0 < f.len

theorem FieldMeta.init_ok {name : Option String} {t : AttrType} {offset len : Int} {visible : Bool}
    {f : FieldMeta} (h : FieldMeta.init name t offset len visible = .ok f) :
    name = some f.fieldName ∧ f = ⟨f.fieldName, t, offset, len, visible⟩ ∧ f.Checked := by
  unfold FieldMeta.init at h
  cases name with
  | none => cases h
  | some name =>
    simp only at h
    split at h
    · cases h
    · rename_i hblank
      split at h
      · cases h
      · rename_i hargs
        cases h
        simp only [not_or, not_lt, not_le] at hargs
        exact ⟨rfl, rfl, by simpa [strBlank] using hblank, hargs.1, hargs.2.1, hargs.2.2⟩

theorem FieldMeta.Checked.init {f : FieldMeta} (h : f.Checked) :
    FieldMeta.init (some f.fieldName) f.attrType f.offset f.len f.visible = .ok f := by
  have hoffset := h.offset
  have hlen := h.len
  unfold FieldMeta.init
  simp only
  rw [if_neg (by simpa [strBlank] using h.name), if_neg]
  simp only [not_or, not_lt, not_le]
  exact ⟨h.type, hoffset, hlen⟩

/-- The fields lie one behind the other from `offset` on, and `size` is where they end. -/
def Layout : Int → List FieldMeta → Int → Prop
  | offset, [], size => size = offset
  | offset, f :: fs, size => f.offset = offset ∧ f.Checked ∧ Layout (wrap32 (offset + f.len)) fs size

section Layout

variable {offset size : Int} {fs : List FieldMeta} {f : FieldMeta} {as : List AttrInfo}

/-- The attribute that a field was made of. -/
def FieldMeta.attrInfo (f : FieldMeta) : AttrInfo := ⟨some f.fieldName, f.attrType, f.len⟩

theorem TableMeta.initFields_layout (h : initFields offset as = .ok (fs, size)) :
    Layout offset fs size ∧ as = fs.map FieldMeta.attrInfo ∧ ∀ f ∈ fs, f.visible = true := by
  induction as generalizing offset fs with
  | nil =>
    cases h
    exact ⟨rfl, rfl, fun _ hf => nomatch hf⟩
  | cons a as ih =>
    unfold initFields at h
    cases hf : FieldMeta.init a.attrName a.attrType offset a.attrLen true with
    | error r =>
      rw [hf] at h
      cases h
    | ok f =>
      simp only [hf] at h
      cases hrest : initFields (wrap32 (offset + a.attrLen)) as with
      | error r =>
        rw [hrest] at h
        cases h
      | ok p =>
        obtain ⟨fs', size'⟩ := p
        simp only [hrest] at h
        cases h
        obtain ⟨hlayout, hattrs, hvisible⟩ := ih hrest
        obtain ⟨hname, heq, hchecked⟩ := FieldMeta.init_ok hf
        have hoffset : f.offset = offset := congrArg FieldMeta.offset heq
        have htype : f.attrType = a.attrType := congrArg FieldMeta.attrType heq
        have hlen : f.len = a.attrLen := congrArg FieldMeta.len heq
        refine ⟨⟨hoffset, hchecked, by rwa [hlen]⟩, ?_, ?_⟩
        · rw [List.map_cons, ← hattrs, FieldMeta.attrInfo, ← hname, htype, hlen]
        · rw [List.forall_mem_cons]
          exact ⟨congrArg FieldMeta.visible heq, hvisible⟩

/-- A new table: the field of the transaction, then the attributes. -/
theorem TableMeta.init_layout {name : Option String} {m : TableMeta} (h : init name as = .ok m) :
    ∃ fs, m.fields = sysFields ++ fs ∧ Layout 0 m.fields m.recordSize ∧ as = fs.map FieldMeta.attrInfo ∧
      name = some m.tableName ∧ m.indexes = [] := by
  unfold init at h
  cases name with
  | none => cases h
  | some name =>
    simp only at h
    split at h
    · cases h
    · split at h
      · cases h
      · cases hf : initFields 4 as with
        | error r =>
          rw [hf] at h
          cases h
        | ok p =>
          obtain ⟨fs, size⟩ := p
          simp only [hf] at h
          cases h
          obtain ⟨hlayout, hattrs, -⟩ := initFields_layout hf
          refine ⟨fs, rfl, ?_, hattrs, rfl, rfl⟩
          exact ⟨rfl, ⟨by decide, by decide, by decide, by decide⟩, hlayout⟩

theorem Layout.checked (h : Layout offset fs size) : ∀ f ∈ fs, f.Checked := by
  induction fs generalizing offset with
  | nil => exact fun _ hf => nomatch hf
  | cons f fs ih =>
    rw [List.forall_mem_cons]
    exact ⟨h.2.1, ih h.2.2⟩

theorem Layout.inInt32 (h : Layout offset fs size) (ho : InInt32 offset) : ∀ f ∈ fs, InInt32 f.offset := by
  induction fs generalizing offset with
  | nil => exact fun _ hf => nomatch hf
  | cons f fs ih =>
    rw [List.forall_mem_cons]
    exact ⟨h.1 ▸ ho, ih h.2.2 (inInt32_wrap32 _)⟩

/-- A field that was accepted behind another one: the offset has not wrapped. -/
theorem Layout.next {g : FieldMeta} (h : Layout offset (f :: g :: fs) size) (ho : InInt32 offset)
    (hlen : InInt32 f.len) : wrap32 (offset + f.len) = offset + f.len ∧ offset < offset + f.len := by
  have h0 := h.2.1.offset
  have hpos := h.2.1.len
  have hnext := h.2.2.2.1.offset
  rw [h.1] at h0
  rw [h.2.2.1, wrap32_eq] at hnext
  rw [wrap32_eq]
  split at hnext
  · rename_i hlt
    rw [if_pos hlt]
    omega
  · omega

theorem Layout.sorted (h : Layout offset fs size) (ho : InInt32 offset) (hlen : ∀ f ∈ fs, InInt32 f.len) :
    fs.Pairwise (fun f g => f.offset < g.offset) ∧ ∀ f ∈ fs, offset ≤ f.offset := by
  induction fs generalizing offset with
  | nil => exact ⟨List.Pairwise.nil, fun _ hf => nomatch hf⟩
  | cons f fs ih =>
    rw [List.forall_mem_cons] at hlen
    obtain ⟨hsorted, hge⟩ := ih h.2.2 (inInt32_wrap32 _) hlen.2
    have hlater : ∀ g ∈ fs, offset < g.offset := by
      cases fs with
      | nil => exact fun _ hg => nomatch hg
      | cons g fs =>
        obtain ⟨hwrap, hlt⟩ := h.next ho hlen.1
        rw [hwrap] at hge
        exact fun x hx => lt_of_lt_of_le hlt (hge x hx)
    constructor
    · rw [List.pairwise_cons, h.1]
      exact ⟨hlater, hsorted⟩
    · rw [List.forall_mem_cons, h.1]
      exact ⟨le_rfl, fun g hg => (hlater g hg).le⟩

theorem Layout.size_eq (h : Layout offset fs size) (hne : fs ≠ []) :
    size = wrap32 ((fs.getLast hne).offset + (fs.getLast hne).len) := by
  induction fs generalizing offset with
  | nil => exact absurd rfl hne
  | cons f fs ih =>
    cases fs with
    | nil =>
      rw [List.getLast_singleton, h.1]
      exact h.2.2
    | cons g fs =>
      rw [List.getLast_cons (List.cons_ne_nil g fs)]
      exact ih h.2.2 (List.cons_ne_nil g fs)

end Layout

end Idmbs
