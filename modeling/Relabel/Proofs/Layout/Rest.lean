import Relabel.Proofs.Edit.Quiet
import Relabel.Proofs.Layout.Rename
import Relabel.Proofs.Renaming.Final

/-!
# Attributes at rest

An attribute is at rest if its slots lead to texts that are not to be changed. Renaming it
is quiet, and under a renaming whose names are final, what a renaming leaves is at rest. Of
its generic signatures this holds if they name no inner classes. A signature that was
skipped since its index led nowhere is not at rest: the index may lead to a text afterwards.
-/

namespace Relabel

namespace Layout

variable {r : Renaming} {kind : SymbolKind} {p q : Pool}

/-! ## Slots and pieces -/

/-- The slot leads to a text that stays, provided that the names of inner classes are final. -/
def Slot.AtRest (r : Renaming) (p : Pool) : Slot → Prop
  | .descriptor index => ∃ text, p.utf8 index = .ok text ∧ r.descriptor text = .ok text
  | .signature kind index => ∃ text, p.utf8 index = .ok text ∧
    ∀ text', r.signature kind text = .ok text' → text' = text
  | .simpleName inner index => inner ≠ 0 → index ≠ 0 →
    ∃ old simple, p.className inner = .ok old ∧ p.utf8 index = .ok simple

def Piece.AtRest (r : Renaming) (p : Pool) : Piece → Prop
  | .fixed _ => True
  | .attributeName index name => p.utf8 index = .ok name
  | .slot s => s.AtRest r p

/-- Texts stay where they are, and what names a class names one afterwards. -/
structure KeepsTexts (p q : Pool) : Prop where
  utf8 : ∀ ⦃i text⦄, p.utf8 i = .ok text → q.utf8 i = .ok text
  className : ∀ ⦃i name⦄, p.className i = .ok name → ∃ name', q.className i = .ok name'

theorem KeepsTexts.of_grows (h : Pool.Grows p q) : KeepsTexts p q where
  utf8 _ _ := h.utf8
  className _ name hname := ⟨name, h.className hname⟩

theorem KeepsTexts.trans {p' : Pool} (h : KeepsTexts p q) (h' : KeepsTexts q p') :
    KeepsTexts p p' where
  utf8 _ _ htext := h'.utf8 (h.utf8 htext)
  className _ _ hname :=
    have ⟨_, hname'⟩ := h.className hname
    h'.className hname'

theorem Slot.AtRest.keeps {s : Slot} (hs : s.AtRest r p) (h : KeepsTexts p q) : s.AtRest r q := by
  cases s with
  | descriptor index =>
    obtain ⟨text, htext, hd⟩ := hs
    exact ⟨text, h.utf8 htext, hd⟩
  | signature kind index =>
    obtain ⟨text, htext, hsignature⟩ := hs
    exact ⟨text, h.utf8 htext, hsignature⟩
  | simpleName inner index =>
    intro hinner hindex
    obtain ⟨old, simple, hold, hsimple⟩ := hs hinner hindex
    obtain ⟨new, hnew⟩ := h.className hold
    exact ⟨new, simple, hnew, h.utf8 hsimple⟩

namespace Piece.AtRest

variable {x : Piece}

theorem keeps (hx : x.AtRest r p) (h : KeepsTexts p q) : x.AtRest r q := by
  cases x with
  | fixed => trivial
  | attributeName index name => exact h.utf8 hx
  | slot s => exact Slot.AtRest.keeps hx h

theorem resolves (hx : x.AtRest r p) : x.Resolves p := by
  match x with
  | .fixed _ => trivial
  | .attributeName index name => exact hx
  | .slot (.descriptor index) =>
    obtain ⟨text, htext, hd⟩ := hx
    exact ⟨text, htext, r.closes_of_descriptor hd⟩
  | .slot (.signature kind index) =>
    obtain ⟨text, htext, -⟩ := hx
    exact ⟨text, htext⟩
  | .slot (.simpleName inner index) => exact hx

/-- A simple name stays since the name of its class is final. -/
theorem isKept (hx : x.AtRest r p)
    (hclass : ∀ ⦃i name⦄, p.className i = .ok name → r.className name = name) :
    x.IsKept r p := by
  match x with
  | .fixed _ | .attributeName _ _ => trivial
  | .slot (.descriptor index) =>
    obtain ⟨text, htext, hd⟩ := hx
    simp [Piece.IsKept, Slot.newText?, htext, hd, changed?, Except.toOption]
  | .slot (.signature kind index) =>
    obtain ⟨text, htext, hsignature⟩ := hx
    simp only [Piece.IsKept, Slot.newText?, htext, Except.toOption, Option.bind_some]
    cases hnew : r.signature kind text with
    | error flaw => rfl
    | ok text' => rw [changed?, if_pos (hsignature text' hnew)]
  | .slot (.simpleName inner index) =>
    by_cases hne : inner ≠ 0 ∧ index ≠ 0
    · obtain ⟨old, simple, hold, hsimple⟩ := hx hne.1 hne.2
      simp [Piece.IsKept, Slot.newText?, hold, hsimple, hclass hold, Walk.newSimpleName?,
        Except.toOption]
    · have hfalse : (decide (inner ≠ 0) && decide (index ≠ 0)) = false := by simpa using hne
      simp only [Piece.IsKept, Slot.newText?, hfalse, Bool.false_eq_true, if_false]

end Piece.AtRest

/-- A slot that was passed is at rest, unless it leads to a signature with inner classes. -/
theorem Slot.atRest_renamed {s : Slot} (hr : r.IsFinal) (hp : p.Sound) (hs : s.Resolves p)
    (hset : s.Settled r p)
    (hdot : ∀ kind index text, s = .signature kind index → p.utf8 index = .ok text →
      '.' ∉ text.toList) : (s.withIndex (s.renamed r p)).AtRest r p := by
  have hleads := leadsTo_renamed hs hp (Pool.Frame.refl p) hset
  cases s with
  | descriptor index =>
    obtain ⟨_, text', -, hd, htext'⟩ := hleads
    exact ⟨text', htext', hr.descriptor hd⟩
  | signature kind index =>
    obtain ⟨text, htext, hnew⟩ := hleads
    have hdot := hdot kind index text rfl htext
    cases hsignature : r.signature kind text with
    | ok text' =>
      rw [hsignature] at hnew
      refine ⟨text', hnew, ?_⟩
      intro text'' h
      exact Except.ok.inj (h.symm.trans (hr.signature hdot hsignature))
    | error flaw =>
      rw [hsignature] at hnew
      refine ⟨text, by rw [hnew]; exact htext, ?_⟩
      intro text'' h
      cases hsignature.symm.trans h
  | simpleName inner index =>
    simp only [LeadsTo] at hleads
    intro hinner hindex
    split at hleads
    case isTrue =>
      obtain ⟨old, simple, hold, -, hnew⟩ := hleads
      exact ⟨old, _, hold, hnew⟩
    case isFalse hne =>
      have hzero : index = 0 := by
        by_contra hindex
        exact hne ⟨hinner, hindex⟩
      exact absurd (hleads.trans hzero) hindex

/-! ## Attributes -/

/-- All slots of the attribute are at rest. -/
def AtRest (r : Renaming) (kind : SymbolKind) (p : Pool) (a : Attribute) : Prop :=
  ∃ name v, p.utf8 a.name = .ok name ∧ (Format.payload maxNesting kind name).Fits v ∧
    a.payload = encode ((Format.payload maxNesting kind name).pieces v) ∧
    ∀ x ∈ (Format.payload maxNesting kind name).pieces v, x.AtRest r p

/-- The text is a generic signature in the attribute, or in an attribute inside it. -/
def ReadsSignature (kind : SymbolKind) (p : Pool) (a : Attribute) (text : String) : Prop :=
  ∃ name v kind' index, p.utf8 a.name = .ok name ∧
    (Format.payload maxNesting kind name).Fits v ∧
    a.payload = encode ((Format.payload maxNesting kind name).pieces v) ∧
    (∀ i inner, .attributeName i inner ∈ (Format.payload maxNesting kind name).pieces v →
      p.utf8 i = .ok inner) ∧
    .slot (.signature kind' index) ∈ (Format.payload maxNesting kind name).pieces v ∧
    p.utf8 index = .ok text

section

variable {a : Attribute}

theorem AtRest.keeps (ha : AtRest r kind p a) (h : KeepsTexts p q) : AtRest r kind q a := by
  obtain ⟨name, v, hname, hfits, hpayload, hall⟩ := ha
  exact ⟨name, v, h.utf8 hname, hfits, hpayload, fun x hx => (hall x hx).keeps h⟩

theorem ReadsSignature.keeps {text : String} (ha : ReadsSignature kind p a text)
    (h : KeepsTexts p q) : ReadsSignature kind q a text := by
  obtain ⟨name, v, kind', index, hname, hfits, hpayload, hnames, hslot, htext⟩ := ha
  exact ⟨name, v, kind', index, h.utf8 hname, hfits, hpayload,
    fun i inner hinner => h.utf8 (hnames i inner hinner), hslot, h.utf8 htext⟩

end

variable {f f' : Focus Attribute}

/-- An attribute at rest is left alone. -/
theorem quiet_renameAttribute (h : AtRest r kind f.pool f.item)
    (hclass : ∀ ⦃i name⦄, f.pool.className i = .ok name → r.className name = name) :
    Edit.Quiet (Edit.renameAttribute r kind) f := by
  obtain ⟨name, v, hname, hfits, hpayload, hall⟩ := h
  have hkept x hx := (hall x hx).isKept hclass
  obtain ⟨f', hrun, g, hpassed, hend, rfl⟩ | ⟨-, ⟨x, hx, hnot⟩, -⟩ :=
    renameAttribute_ends (r := r) hname hfits hpayload fun x hx => (hall x hx).resolves
  case inr => exact absurd (hkept x hx) hnot
  -- nothing is to be changed in the pool that the walk leaves either
  have hkept' : ∀ x ∈ (Format.payload maxNesting kind name).pieces v, x.IsKept r g.pool :=
    fun x hx => (Piece.isKept_grows (hall x hx).resolves hpassed.learns.grows).mpr (hkept x hx)
  obtain ⟨hpool, htally⟩ := hpassed.quiet hkept'
  have hbytes : g.item.bytes = f.item.payload := by
    have hafter := Rewrites.payload_after ⟨g, hpassed, hend, rfl⟩
    have hsame : ((Format.payload maxNesting kind name).pieces v).map (Piece.rename r g.pool)
        = (Format.payload maxNesting kind name).pieces v :=
      (List.map_congr_left fun x hx => Piece.rename_of_isKept (hkept' x hx)).trans (List.map_id' _)
    rw [hpayload, ← hsame]
    exact hafter
  refine ⟨g.notices, hrun.trans ?_⟩
  rw [finish, hbytes, hpool, htally]
  rfl

/-- What a renaming to final names leaves is at rest. -/
theorem atRest_of_renameAttribute (hr : r.IsFinal) (hp : f.pool.Sound)
    (h : Edit.renameAttribute r kind f = .ok () f') (hnotices : .signatureIndex ∉ f'.notices)
    (hdot : ∀ text, ReadsSignature kind f'.pool f.item text → '.' ∉ text.toList) :
    AtRest r kind f'.pool f'.item := by
  obtain ⟨name, v, hname, hfits, hrewrites⟩ := renameAttribute_eq_ok h hnotices
  have hbefore := hrewrites.payload_before
  have hafter := hrewrites.payload_after
  obtain ⟨g, hpassed, -, rfl⟩ := hrewrites
  have hgrows : Pool.Grows f.pool g.pool := hpassed.learns.grows
  refine ⟨name, (Format.payload maxNesting kind name).map (Slot.renamed r g.pool) v,
    hgrows.utf8 hname, Format.fits_map _ _ hfits, ?_, ?_⟩
  · rw [Format.pieces_map]
    exact hafter
  · rw [Format.pieces_map]
    refine List.forall_mem_map.mpr ?_
    intro x hx
    have hresolves := hpassed.resolves x hx
    match x with
    | .fixed _ => trivial
    | .attributeName _ _ => exact hresolves
    | .slot s =>
      refine Slot.atRest_renamed hr (hgrows.sound hp) hresolves (hpassed.settled _ hx) ?_
      rintro kind' index text rfl htext
      exact hdot text ⟨name, v, kind', index, hgrows.utf8 hname, hfits, hbefore,
        fun i inner hinner => hpassed.resolves _ hinner, hx, htext⟩

/-! ## Attributes that are passed by -/

theorem Content.Suits.eq_other {α β : Type} {name : String} {trailing : List UInt8}
    {c : Content α β} (h : c.Suits name trailing) (hwalked : name ∉ AttributeName.walked) :
    c = .other := by
  simp only [AttributeName.walked, List.mem_append, List.mem_cons, List.not_mem_nil, or_false,
    not_or] at hwalked
  cases c <;> grind [Content.Suits]

theorem slot_not_mem_pieces {levels : Nat} {name : String} {v : Payload levels}
    (hfits : (Format.payload levels kind name).Fits v) (hwalked : name ∉ AttributeName.walked)
    (s : Slot) : .slot s ∉ (Format.payload levels kind name).pieces v := by
  cases levels with
  | zero | succ =>
    obtain ⟨c, trailing⟩ := v
    obtain rfl := hfits.2.eq_other hwalked
    simp [Format.payload, Format.attributePayload, Format.trailed, Format.content]

/-- An attribute that no walk enters holds no signature. -/
theorem not_readsSignature {name text : String} {a : Attribute} (hname : p.utf8 a.name = .ok name)
    (hwalked : name ∉ AttributeName.walked) : ¬ ReadsSignature kind p a text := by
  rintro ⟨name', v, kind', index, hname', hfits, -, -, hslot, -⟩
  cases hname.symm.trans hname'
  exact slot_not_mem_pieces hfits hwalked _ hslot

end Layout

end Relabel
