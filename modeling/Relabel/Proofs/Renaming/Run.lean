import Relabel.Edit.ClassFile
import Relabel.Proofs.Edit.Quiet

/-!
# The five passes of a renaming

The passes are followed through one after the other. Up to the last one, class entries
keep their old names, so every owner is read as it was; the passes over members and
attributes only add entries. What each pass has to find is unharmed by those before it,
and what it leaves is unharmed by those behind it.
-/

namespace Relabel

variable {r : Renaming} {owner : String}

/-- The member is declared under its new name, as a member of the old class. -/
def MemberRenamed (r : Renaming) (kind : SymbolKind) (owner : String) (p q : Pool)
    (m m' : Member) : Prop :=
  ∀ ⦃name descriptor⦄, p.Declares m name descriptor → ∃ descriptor',
    r.descriptor descriptor = .ok descriptor' ∧
    q.Declares m' (Edit.declaredName r kind owner name descriptor) descriptor'

/-- The enclosing method is the renamed one. -/
def AttributeRenamed (r : Renaming) (p q : Pool) (a a' : Attribute) : Prop :=
  ∀ ⦃owner name descriptor⦄, p.Encloses a owner name descriptor → ∃ owner' descriptor',
    r.type owner = .ok owner' ∧ r.descriptor descriptor = .ok descriptor' ∧
    q.Encloses a' owner' (r.methodName owner name descriptor) descriptor'

/-- What a renaming of the class `owner` brings about. -/
structure Renames (r : Renaming) (owner : String) (p q : Pool) (d d' : Declarations) : Prop where
  refers : ∀ ⦃i t⦄, p.Refers i t → ∃ t', t.rename r = .ok t' ∧ q.Refers i t'
  fields : Pointwise (MemberRenamed r .ofField owner p q) d.fields d'.fields
  methods : Pointwise (MemberRenamed r .ofMethod owner p q) d.methods d'.methods
  attributes : Pointwise (AttributeRenamed r p q) d.attributes d'.attributes

section

variable {p q q' : Pool} {K : UInt16 → Constant → Prop}

theorem MemberRenamed.frame {L : UInt16 → Constant → Prop} [Pool.PicksTexts K]
    [Pool.PicksTexts L] {p' : Pool} {kind : SymbolKind}
    {m m' : Member} (h : MemberRenamed r kind owner p' q m m') (before : Pool.Frame K p p')
    (after : Pool.Frame L q q') : MemberRenamed r kind owner p q' m m' := by
  intro name descriptor hm
  obtain ⟨descriptor', hd, hm'⟩ := h (hm.frame before)
  exact ⟨descriptor', hd, hm'.frame after⟩

/-! ## One member, one attribute -/

namespace Edit

variable {kind : SymbolKind} {notices notices' : Array Notice}

theorem memberRenamed_of_takes {m m' : Member} (hp : p.Sound)
    (h : Takes Pool.Grows (renameMember r kind owner) p q notices m m') :
    MemberRenamed r kind owner p q m m' := by
  intro name descriptor hm
  obtain ⟨f, f', hok, rfl, rfl, hbefore, hafter, -⟩ := h
  have hm' := hm.frame hbefore
  obtain ⟨_, _, descriptor', hname, hdescriptor, hd, hnew⟩ :=
    renameMember_eq_ok (hbefore.sound hp) hok
  cases hm'.1.symm.trans hname
  cases hm'.2.symm.trans hdescriptor
  exact ⟨descriptor', hd, Pool.Declares.frame hnew hafter⟩

/-- Behind both passes over attributes, the enclosing method is renamed up to its class. -/
theorem encloses_of_takes {a b c : Attribute} (hp : p.Sound)
    (h : Takes Pool.Grows (renameEnclosingMethod r) p q notices a b)
    (h' : Takes Pool.Grows (renameAttribute r kind) q q' notices' b c)
    {owner name descriptor : String}
    (ha : p.Encloses a owner name descriptor) : ∃ descriptor',
      r.descriptor descriptor = .ok descriptor' ∧
      q'.Encloses c owner (r.methodName owner name descriptor) descriptor' := by
  obtain ⟨f, f', hok, rfl, rfl, hbefore, hafter, -⟩ := h
  obtain ⟨hname, j, m, hpayload, hm₀, howner, hm⟩ :=
    ha.frame hbefore
  have hf := hbefore.sound hp
  have hstays : Focus.Related Attribute.SameName Pool.Grows f f' :=
    (stays_renameEnclosingMethod Pool.interns_frame).ok hok
  obtain ⟨m', descriptor', hd, hpayload', hm'⟩ :=
    renameEnclosingMethod_eq_ok hf hname hpayload hm₀ howner hm hok
  -- the method index cannot be 0, since an entry stands there
  have hm'₀ : m' ≠ 0 := by
    rintro rfl
    obtain ⟨_, _, entry, -, -⟩ := Pool.nameAndType_eq_ok.mp hm'
    exact absurd ((hstays.2.sound hf).index_pos entry) (Nat.lt_irrefl 0)
  have hsame : f.item.name = f'.item.name := hstays.1
  have hencloses :
      f'.pool.Encloses f'.item owner (r.methodName owner name descriptor) descriptor' :=
    ⟨hsame ▸ hstays.2.utf8 hname, j, m', hpayload', hm'₀,
      hstays.2.className howner, hm'⟩
  obtain ⟨g, g', hok', hitem, rfl, hbefore', hafter', -⟩ := h'
  have hg : g.pool.Encloses g.item owner (r.methodName owner name descriptor) descriptor' :=
    hitem ▸ hencloses.frame (hafter.trans hbefore')
  cases (renameAttribute_passes hg.attribute_name (by decide)).symm.trans hok'
  exact ⟨descriptor', hd, hg.frame hafter'⟩

end Edit

/-! ## The last pass -/

/-- Class entries get their new names, and all else is left alone. -/
structure RenamesClasses (r : Renaming) (p q : Pool) : Prop where
  frame : Pool.Frame (fun _ c => c.isClassRef = false) p q
  class_name : ∀ ⦃i name⦄, p.className i = .ok name → ∃ name', r.type name = .ok name' ∧
    q.className i = .ok name'

namespace RenamesClasses

variable (h : RenamesClasses r p q)
include h

theorem refers {i : UInt16} {t : Referent} (ht : p.Refers i t) :
    ∃ t', t.renameClass r = .ok t' ∧ q.Refers i t' := by
  have texts {j text} (hj : p.utf8 j = .ok text) : q.utf8 j = .ok text :=
    h.frame.utf8 hj
  have pairs {j name descriptor} (hj : p.nameAndType j = .ok (name, descriptor)) :
      q.nameAndType j = .ok (name, descriptor) :=
    h.frame.nameAndType hj
  cases ht with
  | classRef entry text =>
    obtain ⟨name', hn, hname⟩ := h.class_name (Pool.className_eq_ok.mpr ⟨_, entry, text⟩)
    obtain ⟨k, entry', text'⟩ := Pool.className_eq_ok.mp hname
    exact ⟨_, by simp only [Referent.renameClass, hn]; rfl, .classRef entry' text'⟩
  | memberRef entry class_name member =>
    obtain ⟨owner', hn, hname⟩ := h.class_name class_name
    exact ⟨_, by simp only [Referent.renameClass, hn]; rfl,
      .memberRef (h.frame.get? entry rfl) hname (pairs member)⟩
  | dynamic entry member => exact ⟨_, rfl, .dynamic (h.frame.get? entry rfl) (pairs member)⟩
  | invokeDynamic entry member =>
    exact ⟨_, rfl, .invokeDynamic (h.frame.get? entry rfl) (pairs member)⟩
  | methodType entry text => exact ⟨_, rfl, .methodType (h.frame.get? entry rfl) (texts text)⟩
  | module entry text => exact ⟨_, rfl, .module (h.frame.get? entry rfl) (texts text)⟩
  | package entry text => exact ⟨_, rfl, .package (h.frame.get? entry rfl) (texts text)⟩

theorem encloses {a : Attribute} {owner name descriptor : String}
    (ha : p.Encloses a owner name descriptor) :
    ∃ owner', r.type owner = .ok owner' ∧ q.Encloses a owner' name descriptor := by
  obtain ⟨hname, j, m, hpayload, hm₀, howner, hm⟩ := ha
  obtain ⟨owner', ho, howner'⟩ := h.class_name howner
  exact ⟨owner', ho, h.frame.utf8 hname, j, m, hpayload, hm₀, howner',
    h.frame.nameAndType hm⟩

end RenamesClasses

end

/-! ## The passes, one by one -/

namespace Edit

theorem interns_noClass : Pool.Interns (Pool.OnlyFrom Constant.isClassRef) :=
  Pool.interns_onlyFrom (fun _ => rfl) fun _ _ => rfl

/-- A pass that leaves class entries where they are. -/
structure Keeps (K : UInt16 → Constant → Prop) (p q : Pool) : Prop where
  frame : Pool.Frame K p q
  classes : Pool.OnlyFrom Constant.isClassRef p q

theorem references_eq_ok {f f' : Focus Declarations} {slots : Nat}
    (h : eachIndex (renameReference r) slots f = .ok () f') :
    f.item = f'.item ∧ Keeps (fun _ c => c.isReference = false) f.pool f'.pool := by
  have hframe : Focus.Related Eq (Pool.Frame fun _ c => c.isReference = false) f f' :=
    (stays_eachIndex fun _ => stays_renameReference_frame).ok h
  have hfrom : Stays Eq (Pool.OnlyFrom Constant.isClassRef)
      (eachIndex (renameReference r) slots : Edit Declarations Unit) :=
    within_timesFrom fun j _ _ => stays_renameReference interns_noClass fun c hc =>
      Pool.within_set_onlyFrom (Constant.isClassRef_of_isReference hc) (UInt16.ofNat j)
  exact ⟨hframe.1, hframe.2, (hfrom.ok h).2⟩

variable {p q : Pool} {tally tally' : Tally} {notices notices' : Array Notice}

theorem members_eq_ok {kind : SymbolKind} {xs ys : Array Member} (hp : p.Sound)
    (h : each (renameMember r kind owner) ⟨xs, p, tally, notices⟩
      = .ok () ⟨ys, q, tally', notices'⟩) :
    Keeps (fun _ _ => True) p q ∧ Pointwise (MemberRenamed r kind owner p q) xs ys := by
  obtain ⟨hgrow, htakes⟩ := renameMembers_takes h
  exact ⟨⟨hgrow, ((stays_each (stays_renameMember interns_noClass)).ok h).2⟩,
    htakes.imp fun _ _ => memberRenamed_of_takes hp⟩

theorem attributes_eq_ok {kind : SymbolKind} {xs ys : Array Attribute} (hp : p.Sound)
    (h : (do
      each (renameEnclosingMethod r)
      each (renameAttribute r kind) : Edit (Array Attribute) Unit) ⟨xs, p, tally, notices⟩
      = .ok () ⟨ys, q, tally', notices'⟩) :
    Keeps (fun _ _ => True) p q ∧
      Pointwise (fun a b => ∀ ⦃owner name descriptor⦄, p.Encloses a owner name descriptor →
        ∃ descriptor', r.descriptor descriptor = .ok descriptor' ∧
          q.Encloses b owner (r.methodName owner name descriptor) descriptor') xs ys := by
  obtain ⟨⟨⟩, g, henclosing, h⟩ := bind_eq_ok.mp h
  obtain ⟨hgrow, htakes⟩ := renameEnclosingMethods_takes henclosing
  obtain ⟨hgrow', htakes'⟩ := renameAttributes_takes h
  have hfrom := ((stays_each (stays_renameEnclosingMethod interns_noClass)).ok henclosing).2
  have hfrom' := ((stays_each (stays_renameAttribute interns_noClass)).ok h).2
  refine ⟨⟨hgrow.trans hgrow', trans_of _ hfrom hfrom'⟩, ?_⟩
  exact Pointwise.comp (I := Takes Pool.Grows (renameEnclosingMethod r) p g.pool g.notices)
    (J := Takes Pool.Grows (renameAttribute r kind) g.pool q notices')
    (fun a b c hb hc _ _ _ ha => encloses_of_takes hp hb hc ha) htakes htakes'

/-- Entries that are class entries before the last pass were so from the start. -/
theorem classes_eq_ok {f f' : Focus Declarations} (hp : p.Sound) (hf : f.pool.Sound)
    (hfrom : Pool.OnlyFrom Constant.isClassRef p f.pool)
    (h : eachIndex (renameClassEntry r) p.slots f = .ok () f') :
    f.item = f'.item ∧ RenamesClasses r f.pool f'.pool := by
  have hstays : Focus.Related Eq (Pool.Frame fun _ c => c.isClassRef = false) f f' :=
    (stays_eachIndex fun _ => stays_renameClassEntry_frame).ok h
  refine ⟨hstays.1, hstays.2, ?_⟩
  intro i name hname
  obtain ⟨j, entry, -⟩ := Pool.className_eq_ok.mp hname
  obtain ⟨c, hc, -⟩ := hfrom entry rfl
  exact eachIndex_renameClassEntry hf hname hp.slots_le (Pool.get?_lt_slots hc) h

/-! ## All passes -/

/-- The passes of a renaming from `f` to `f'`: each runs over its part of the start, with the pool
that the pass before it has left. -/
structure Passes (r : Renaming) (owner : String) (f f₁ : Focus Declarations)
    (f₂ f₃ : Focus (Array Member)) (f₄ : Focus (Array Attribute)) (f' : Focus Declarations) :
    Prop where
  references : eachIndex (renameReference r) f.pool.slots f = .ok () f₁
  fields : each (renameMember r .ofField owner)
    ⟨f.item.fields, f₁.pool, f₁.tally, f₁.notices⟩ = .ok () f₂
  methods : each (renameMember r .ofMethod owner)
    ⟨f.item.methods, f₂.pool, f₂.tally, f₂.notices⟩ = .ok () f₃
  attributes : (do
    each (renameEnclosingMethod r)
    each (renameAttribute r .ofClass) : Edit (Array Attribute) Unit)
      ⟨f.item.attributes, f₃.pool, f₃.tally, f₃.notices⟩ = .ok () f₄
  classes : eachIndex (renameClassEntry r) f.pool.slots ⟨⟨f₂.item, f₃.item, f₄.item⟩,
    f₄.pool, f₄.tally, f₄.notices⟩ = .ok () f'

theorem renameAll_passes {f f' : Focus Declarations}
    (h : renameAll r owner f.pool.slots f = .ok () f') :
    ∃ f₁ f₂ f₃ f₄, Passes r owner f f₁ f₂ f₃ f₄ f' := by
  obtain ⟨⟨⟩, ⟨d₁, p₁, tally₁, notices₁⟩, hreferences, h⟩ := bind_eq_ok.mp h
  obtain ⟨⟨⟩, ⟨d₂, p₂, tally₂, notices₂⟩, hfields, h⟩ := bind_eq_ok.mp h
  obtain ⟨⟨⟩, ⟨d₃, p₃, tally₃, notices₃⟩, hmethods, h⟩ := bind_eq_ok.mp h
  obtain ⟨⟨⟩, ⟨d₄, p₄, tally₄, notices₄⟩, hattributes, hclasses⟩ := bind_eq_ok.mp h
  obtain rfl : f.item = d₁ := (references_eq_ok hreferences).1
  obtain ⟨fields, hfields, rfl⟩ := inside_eq_ok hfields
  obtain ⟨methods, hmethods, rfl⟩ := inside_eq_ok hmethods
  obtain ⟨attributes, hattributes, rfl⟩ := inside_eq_ok hattributes
  exact ⟨⟨f.item, p₁, tally₁, notices₁⟩, ⟨fields, p₂, tally₂, notices₂⟩,
    ⟨methods, p₃, tally₃, notices₃⟩, ⟨attributes, p₄, tally₄, notices₄⟩,
    hreferences, hfields, hmethods, hattributes, hclasses⟩

namespace Passes

variable {f f₁ f' : Focus Declarations} {f₂ f₃ : Focus (Array Member)}
  {f₄ : Focus (Array Attribute)}
  (h : Passes r owner f f₁ f₂ f₃ f₄ f')
include h

/-- Passes that succeed one after the other are a renaming. -/
theorem renameAll_eq : renameAll r owner f.pool.slots f = .ok () f' := by
  have hstart : f₁ = ⟨f.item, f₁.pool, f₁.tally, f₁.notices⟩ := by
    rw [(references_eq_ok h.references).1]
  have hfields : (inside (·.fields) (fun fields d => { d with fields })
      (each (renameMember r .ofField owner)) : Edit Declarations Unit)
        ⟨f.item, f₁.pool, f₁.tally, f₁.notices⟩ = _ := inside_of_ok h.fields
  have hmethods : (inside (·.methods) (fun methods d => { d with methods })
      (each (renameMember r .ofMethod owner)) : Edit Declarations Unit)
        ⟨{ f.item with fields := f₂.item }, f₂.pool, f₂.tally, f₂.notices⟩ = _ :=
    inside_of_ok h.methods
  have hattributes : (inside (·.attributes) (fun attributes d => { d with attributes })
      (do
        each (renameEnclosingMethod r)
        each (renameAttribute r .ofClass)) : Edit Declarations Unit)
        ⟨{ f.item with fields := f₂.item, methods := f₃.item }, f₃.pool, f₃.tally,
          f₃.notices⟩ = _ :=
    inside_of_ok h.attributes
  rw [renameAll, bind_of_ok h.references, hstart, bind_of_ok hfields, bind_of_ok hmethods,
    bind_of_ok hattributes]
  exact h.classes

variable (hp : f.pool.Sound)
include hp

omit hp in
theorem keeps_references : Keeps (fun _ c => c.isReference = false) f.pool f₁.pool :=
  (references_eq_ok h.references).2

theorem sound_references : f₁.pool.Sound := h.keeps_references.frame.sound hp

theorem keeps_fields : Keeps (fun _ _ => True) f₁.pool f₂.pool :=
  (members_eq_ok (h.sound_references hp) h.fields).1

theorem sound_fields : f₂.pool.Sound := (h.keeps_fields hp).frame.sound (h.sound_references hp)

theorem keeps_methods : Keeps (fun _ _ => True) f₂.pool f₃.pool :=
  (members_eq_ok (h.sound_fields hp) h.methods).1

theorem sound_methods : f₃.pool.Sound := (h.keeps_methods hp).frame.sound (h.sound_fields hp)

theorem keeps_attributes : Keeps (fun _ _ => True) f₃.pool f₄.pool :=
  (attributes_eq_ok (h.sound_methods hp) h.attributes).1

theorem sound_attributes : f₄.pool.Sound :=
  (h.keeps_attributes hp).frame.sound (h.sound_methods hp)

theorem grows_methods : Pool.Grows f₃.pool f₄.pool := (h.keeps_attributes hp).frame

theorem grows_fields : Pool.Grows f₂.pool f₄.pool :=
  (h.keeps_methods hp).frame.trans (h.grows_methods hp)

theorem grows_references : Pool.Grows f₁.pool f₄.pool :=
  (h.keeps_fields hp).frame.trans (h.grows_fields hp)

/-- Class entries stand where they stood at the start. -/
theorem onlyFrom : Pool.OnlyFrom Constant.isClassRef f.pool f₄.pool :=
  trans_of _ (trans_of _ (trans_of _ h.keeps_references.classes (h.keeps_fields hp).classes)
    (h.keeps_methods hp).classes) (h.keeps_attributes hp).classes

theorem renamesClasses : RenamesClasses r f₄.pool f'.pool :=
  (classes_eq_ok hp (by exact h.sound_attributes hp) (by exact h.onlyFrom hp) h.classes).2

theorem item_eq : f'.item = ⟨f₂.item, f₃.item, f₄.item⟩ :=
  (classes_eq_ok hp (by exact h.sound_attributes hp) (by exact h.onlyFrom hp) h.classes).1.symm

end Passes

theorem renameAll_eq_ok {f f' : Focus Declarations} (hp : f.pool.Sound)
    (h : renameAll r owner f.pool.slots f = .ok () f') :
    Renames r owner f.pool f'.pool f.item f'.item := by
  obtain ⟨f₁, f₂, f₃, f₄, h⟩ := renameAll_passes h
  have classes := h.renamesClasses hp
  have before := h.keeps_references.frame
  rw [h.item_eq hp]
  refine ⟨?_, ?_, ?_, ?_⟩
  · intro i t ht
    obtain ⟨t₁, ht₁, hrefers₁⟩ := eachIndex_renameReference hp ht h.references
    obtain ⟨t₂, ht₂, hrefers₂⟩ := classes.refers (hrefers₁.grows (h.grows_references hp))
    exact ⟨t₂, Referent.rename_of_phases ht₁ ht₂, hrefers₂⟩
  · have after := (Pool.Frame.of_grows (h.grows_fields hp)).trans classes.frame
    exact (members_eq_ok (h.sound_references hp) h.fields).2.imp
      fun _ _ h => h.frame before after
  · have before := before.trans (Pool.Frame.of_grows (h.keeps_fields hp).frame)
    have after := (Pool.Frame.of_grows (h.grows_methods hp)).trans classes.frame
    exact (members_eq_ok (h.sound_fields hp) h.methods).2.imp fun _ _ h => h.frame before after
  · have before := before.trans
      (Pool.Frame.of_grows ((h.keeps_fields hp).frame.trans (h.keeps_methods hp).frame))
    refine (attributes_eq_ok (h.sound_methods hp) h.attributes).2.imp ?_
    intro a b h owner name descriptor ha
    obtain ⟨descriptor', hd, hb⟩ := h (ha.frame before)
    obtain ⟨owner', ho, hb'⟩ := classes.encloses hb
    exact ⟨owner', descriptor', ho, hd, hb'⟩

end Edit

namespace ClassFile

/-- What a renaming edits beside the pool. -/
abbrev declarations (c : ClassFile) : Declarations := ⟨c.fields, c.methods, c.attributes⟩

/-- The class file with what its passes left. -/
def edited (c : ClassFile) (f : Focus Declarations) : ClassFile :=
  { c with
    pool := f.pool, fields := f.item.fields, methods := f.item.methods,
    attributes := f.item.attributes }

variable {c c' : ClassFile} {f : Focus Declarations}

theorem rename_of_renameAll (hname : c.name = .ok owner)
    (h : Edit.renameAll r owner c.pool.slots ⟨c.declarations, c.pool, {}, #[]⟩ = .ok () f) :
    c.rename r = ⟨c.edited f, f.tally, f.notices, none⟩ := by
  obtain ⟨minor, major, pool, access, thisClass, superClass, interfaces, fields, methods,
    attributes⟩ := c
  have howner : pool.className thisClass = .ok owner := hname
  simp only [rename, edited, howner, h]

/-- What a renaming leaves is related to what it began with, also when it fails, if that holds of
its passes. -/
theorem rename_within {S : Focus Declarations → Focus Declarations → Prop}
    [IsPreorder (Focus Declarations) S] (c : ClassFile)
    (h : ∀ owner, Within S (Edit.renameAll r owner c.pool.slots)) : ∃ f : Focus Declarations,
      (c.rename r).file = c.edited f ∧ (c.rename r).tally = f.tally ∧
      S ⟨c.declarations, c.pool, {}, #[]⟩ f := by
  unfold rename
  dsimp only
  split
  case h_1 => exact ⟨⟨c.declarations, c.pool, {}, #[]⟩, rfl, rfl, refl_of S _⟩
  case h_2 owner _ =>
    have hrun := (h owner).related ⟨c.declarations, c.pool, {}, #[]⟩
    split
    case h_1 f hf | h_2 f hf =>
      rw [hf] at hrun
      exact ⟨f, rfl, rfl, hrun⟩

/-- If a renaming succeeds, the class has a name and its passes succeed. -/
theorem renameAll_of_rename (h : (c.rename r).result = .ok c') : ∃ owner f, c.name = .ok owner ∧
    Edit.renameAll r owner c.pool.slots ⟨c.declarations, c.pool, {}, #[]⟩ = .ok () f ∧
    c' = c.edited f ∧ (c.rename r).notices = f.notices := by
  cases hname : c.name with
  | error fault =>
    have howner : c.pool.className c.thisClass = .error fault := hname
    simp only [rename, howner, Renamed.result] at h
    cases h
  | ok owner =>
    cases hrun : Edit.renameAll r owner c.pool.slots ⟨c.declarations, c.pool, {}, #[]⟩ with
    | error fault f =>
      have howner : c.pool.className c.thisClass = .ok owner := hname
      simp only [rename, howner, hrun, Renamed.result] at h
      cases h
    | ok _ f =>
      rw [rename_of_renameAll hname hrun] at h ⊢
      exact ⟨owner, f, rfl, hrun, (Except.ok.inj h).symm, rfl⟩

/-! ## Class files that declare nothing -/

/-- A class file of the given pool, in which the class has the index 2. -/
def bare (p : Pool) : ClassFile := ⟨0, 52, p, 0x21, 2, 0, #[], #[], #[], #[]⟩

/-- Where one reference alone gets a new text that no entry has, the text is added and the reference
gets its index. -/
theorem references_of_fresh {d : Declarations} {p : Pool} {i m : UInt16} {old : Constant}
    {text text' : String} {build : UInt16 → Constant} {add : Tally → Tally}
    {newText : String → Except Flaw String} (hp : p.Sound) (hne : text' ≠ text)
    (hfresh : .utf8 text' ∉ p.entries) (hroom : p.slots < Pool.maxSlots)
    (hi : p.get? i = some old) (hm : p.utf8 m = .ok text) (htext : newText text = .ok text')
    (hwidth : old.width = (build p.count).width)
    (hbefore : ∀ c ∈ p.entries.toList.take i.toNat, c.isReference = false)
    (hturn : (Edit.renameReference r i : Relabel.Edit Declarations Unit) ⟨d, p, {}, #[]⟩
      = Edit.repointText i build add m newText ⟨d, p, {}, #[]⟩)
    (hbehind : ∀ q : Pool, q.entries
        = (p.entries.push (.utf8 text')).setIfInBounds i.toNat (build p.count) →
      ∀ j : UInt16, i.toNat < j.toNat → j.toNat < p.slots →
        Edit.renameReference r j (⟨d, q, add {}, #[]⟩ : Focus Declarations)
          = .ok () ⟨d, q, add {}, #[]⟩) :
    ∃ q : Pool, q.entries = (p.entries.push (.utf8 text')).setIfInBounds i.toNat (build p.count) ∧
      Edit.eachIndex (Edit.renameReference r) p.slots (⟨d, p, {}, #[]⟩ : Focus Declarations)
        = .ok () ⟨d, q, add {}, #[]⟩ := by
  obtain ⟨q, hq, hrun⟩ := Edit.repointText_of_fresh (f := (⟨d, p, {}, #[]⟩ : Focus Declarations))
    hp hne hfresh hroom build add newText hi hm htext hwidth
  refine ⟨q, hq, Edit.eachIndex_of_turn (hp.index_pos hi) (Pool.get?_lt_slots hi) hp.slots_le ?_
    (hturn.trans hrun) (hbehind q hq)⟩
  refine fun j hj => Edit.renameReference_passes fun c hc => hbefore c ?_
  have hget : (p.entries.toList.take i.toNat)[j.toNat]? = some c := by
    rw [List.getElem?_take_of_lt hj, Array.getElem?_toList]
    exact (Pool.get?_eq_some.mp hc).1
  exact List.mem_of_getElem? hget

/-- Where there is one class entry and its name stays, only references are renamed. -/
theorem rename_bare {p q : Pool} {tally : Tally} {j : UInt16} (howner : p.className 2 = .ok owner)
    (hreferences : (Edit.eachIndex (Edit.renameReference r) p.slots :
        Relabel.Edit Declarations Unit)
      ⟨⟨#[], #[], #[]⟩, p, {}, #[]⟩ = .ok () ⟨⟨#[], #[], #[]⟩, q, tally, #[]⟩)
    (hclasses : ∀ c ∈ q.entries, c.isClassRef = true → c = .classRef j)
    (hname : q.utf8 j = .ok owner) (hfinal : r.type owner = .ok owner) :
    (bare p).rename r = ⟨bare q, tally, #[], none⟩ := by
  have hpasses : Edit.Passes r owner ⟨⟨#[], #[], #[]⟩, p, {}, #[]⟩
      ⟨⟨#[], #[], #[]⟩, q, tally, #[]⟩ ⟨#[], q, tally, #[]⟩ ⟨#[], q, tally, #[]⟩
      ⟨#[], q, tally, #[]⟩ ⟨⟨#[], #[], #[]⟩, q, tally, #[]⟩ :=
    ⟨hreferences, rfl, rfl, rfl,
      Edit.timesFrom_self fun _ _ _ => Edit.renameClassEntry_of_only hclasses hname hfinal _⟩
  exact rename_of_renameAll (c := bare p) howner hpasses.renameAll_eq

end ClassFile

end Relabel
