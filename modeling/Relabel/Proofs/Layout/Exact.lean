import Relabel.Proofs.Layout.Delimited

/-!
# Payloads with bytes behind their layout

An attribute is renamed only if its payload spells a value in the layout of its name, and
there is only one such value. Bytes may be left over behind the layout, in the payload
itself and in the payloads of the attributes inside it, since no walk looks at them. The
payload is one complete value exactly if nothing is left over anywhere.
-/

namespace Relabel.Layout

variable {r : Renaming} {kind : SymbolKind} {p : Pool} {a : Attribute} {name name' : String}

/-! ## Values of payloads -/

/-- The payload of the attribute spells `v`, in the layout of its name. -/
structure Spells {levels : Nat} (p : Pool) (kind : SymbolKind) (a : Attribute) (name : String)
    (v : Payload levels) : Prop where
  utf8_name : p.utf8 a.name = .ok name
  valid : (Format.payload levels kind name).Valid p v
  payload_eq : a.payload = encode ((Format.payload levels kind name).pieces v)

theorem Spells.unique {levels : Nat} {v v' : Payload levels} (h : Spells p kind a name v)
    (h' : Spells p kind a name' v') : name' = name ∧ v' = v := by
  cases h'.utf8_name.symm.trans h.utf8_name
  exact ⟨rfl, injective_payload p levels kind name h'.valid h.valid
    (h'.payload_eq.symm.trans h.payload_eq)⟩

/-- The attributes inside. -/
def Content.inside {α γ : Type} : Content α (List (Entry γ)) → List (Entry γ)
  | .code c => c.attributes
  | .record cs => cs.flatMap (·.attributes)
  | _ => []

/-- Nothing stands behind the layout, unless there is none. -/
def Content.IsAlone {α β : Type} (c : Content α β) (trailing : List UInt8) : Prop :=
  trailing = [] ∨ c = .other

/-- Nothing stands behind the layout of the payload and of those inside it. -/
def Payload.IsExact : {levels : Nat} → Payload levels → Prop
  | 0, ⟨c, trailing⟩ => c.IsAlone trailing
  | _ + 1, ⟨c, trailing⟩ => c.IsAlone trailing ∧ ∀ e ∈ c.inside, e.payload.IsExact

/-- The payload is one complete value in the layout of its name, with nothing left over. -/
def HasLayout (levels : Nat) (p : Pool) (kind : SymbolKind) (a : Attribute) : Prop :=
  ∃ (name : String) (v : Payload levels), Spells p kind a name v ∧ v.IsExact

theorem Spells.hasLayout_iff {levels : Nat} {v : Payload levels} (h : Spells p kind a name v) :
    HasLayout levels p kind a ↔ v.IsExact := by
  constructor
  · rintro ⟨name', v', h', hexact⟩
    obtain ⟨-, rfl⟩ := h.unique h'
    exact hexact
  · intro hexact
    exact ⟨name, v, h, hexact⟩

/-! ## Renamed attributes -/

variable {f f' : Focus Attribute}

theorem named_of_takenAs {xs ys : List Piece} (h : List.Forall₂ Piece.TakenAs xs ys)
    (hys : ∀ y ∈ ys, y.Resolves p) : ∀ x ∈ xs, x.Named p := by
  induction h with
  | nil => exact fun _ hx => absurd hx List.not_mem_nil
  | @cons x y xs ys hxy _ ih =>
    obtain ⟨hy, hys⟩ := List.forall_mem_cons.mp hys
    refine List.forall_mem_cons.mpr ⟨?_, ih hys⟩
    cases hxy with
    | self => exact hy.named
    | skipped => trivial

/-- An attribute that is rewritten spells the value whose pieces are passed. -/
theorem Rewrites.spells {v : Payload maxNesting} {xs : List Piece} (h : Rewrites r xs f f')
    (hname : f.pool.utf8 f.item.name = .ok name)
    (hfits : (Format.payload maxNesting kind name).Fits v)
    (htaken : List.Forall₂ Piece.TakenAs ((Format.payload maxNesting kind name).pieces v) xs) :
    Spells f'.pool kind f.item name v := by
  have hpayload := h.payload_before.trans (encode_of_takenAs htaken)
  obtain ⟨g, hpassed, -, rfl⟩ := h
  exact ⟨hpassed.learns.grows.utf8 hname, ⟨hfits, named_of_takenAs htaken hpassed.resolves⟩,
    hpayload⟩

/-- An attribute that is renamed spells one value, and has its layout exactly if nothing is left
over behind it. -/
theorem spells_of_renameAttribute (h : Edit.renameAttribute r kind f = .ok () f') :
    ∃ (name : String) (v : Payload maxNesting), Spells f'.pool kind f.item name v ∧
      (HasLayout maxNesting f'.pool kind f.item ↔ v.IsExact) := by
  obtain ⟨name, v, xs, hname, hfits, htaken, hrewrites, -⟩ := renameAttribute_takes h
  have hspells := hrewrites.spells hname hfits htaken
  exact ⟨name, v, hspells, hspells.hasLayout_iff⟩

/-- The attribute of the annotated class is one complete value, both of whose slots are renamed. -/
theorem spells_of_renameAttribute_annotatedFile : ∃ c a f',
    ClassFile.decode annotatedFile = .ok c ∧ c.attributes = #[a] ∧
    Edit.renameAttribute ClassFile.exchange .ofClass ⟨a, c.pool, {}, #[]⟩ = .ok () f' ∧
    HasLayout maxNesting f'.pool .ofClass a := by
  obtain ⟨c, hc, hattributes, hname, htext, hslots⟩ := decode_annotatedFile
  let f : Focus Attribute := ⟨annotatedAttribute, c.pool, {}, #[]⟩
  let F : Format (Payload maxNesting) :=
    Format.payload maxNesting .ofClass "RuntimeVisibleAnnotations"
  let v : Payload maxNesting := annotatedValue 254
  have hfits : F.Fits v := fits_annotatedValue 254 .ofClass
  have hpieces : F.pieces v = annotatedPieces := pieces_annotatedValue 254 _ _
  have hroom : f.pool.slots + (F.pieces v).length ≤ Pool.maxSlots := by
    rw [hpieces, hslots]
    decide
  obtain ⟨f', hrun, hrewrites⟩ := renameAttribute_of_room (r := ClassFile.exchange) hname hfits
    (by rw [hpieces]; rfl) (by rw [hpieces]; exact resolves_annotatedPieces htext) hroom
  refine ⟨c, _, f', hc, hattributes, hrun, ?_⟩
  obtain ⟨name, v', hspells, hlayout⟩ := spells_of_renameAttribute hrun
  obtain ⟨-, rfl⟩ := (hrewrites.spells hname hfits (takenAs_refl _)).unique hspells
  exact hlayout.mpr ⟨.inl rfl, fun _ he => absurd he List.not_mem_nil⟩

/-- A class `A` with no annotation and one byte more in its table of annotations. -/
def leftoverFile : List UInt8 :=
  [0xCA, 0xFE, 0xBA, 0xBE, 0, 0, 0, 52, 0, 4,
    1, 0, 1, 65, 7, 0, 1,
    1, 0, 25, 82, 117, 110, 116, 105, 109, 101, 86, 105, 115, 105, 98, 108, 101, 65, 110, 110, 111,
    116, 97, 116, 105, 111, 110, 115,
    0, 33, 0, 2, 0, 0, 0, 0, 0, 0, 0, 0,
    0, 1, 0, 3, 0, 0, 0, 3, 0, 0, 0]

/-- The attribute is renamed, and its payload is no value of its layout. -/
theorem not_hasLayout_leftoverFile : ∃ c a f', ClassFile.decode leftoverFile = .ok c ∧
    c.attributes = #[a] ∧ c.pool.utf8 a.name = .ok "RuntimeVisibleAnnotations" ∧
    Edit.renameAttribute .identity .ofClass ⟨a, c.pool, {}, #[]⟩ = .ok () f' ∧
    ¬ HasLayout maxNesting f'.pool .ofClass a := by
  obtain ⟨c, hc, hchecks⟩ := eq_ok_of_any (ClassFile.decode leftoverFile) (fun c =>
    decide (c.attributes = #[⟨3, [0, 0, 0]⟩])
      && decide (c.pool.utf8 3 = .ok "RuntimeVisibleAnnotations")
      && decide (c.pool.slots = 4)) (by decide +kernel)
  simp only [Bool.and_eq_true, decide_eq_true_eq] at hchecks
  obtain ⟨⟨hattributes, hname⟩, hslots⟩ := hchecks
  let v : Payload maxNesting := (.annotations [], [0])
  let F : Format (Payload maxNesting) :=
    Format.payload maxNesting .ofClass "RuntimeVisibleAnnotations"
  have hpieces : F.pieces v = [.fixed [0, 0], .fixed [0]] := rfl
  have hfits : F.Fits v := ⟨⟨by decide, nofun⟩, List.mem_cons_self⟩
  have hroom : c.pool.slots + (F.pieces v).length ≤ Pool.maxSlots := by
    rw [hpieces, hslots]
    decide
  obtain ⟨f', hrun, hrewrites⟩ := renameAttribute_of_room (r := .identity)
    (f := ⟨⟨3, [0, 0, 0]⟩, c.pool, {}, #[]⟩) hname hfits rfl (by simp [F, hpieces, Piece.Resolves])
    hroom
  have hspells := hrewrites.spells hname hfits (takenAs_refl _)
  refine ⟨c, _, f', hc, hattributes, hname, hrun, hspells.hasLayout_iff.not.mpr ?_⟩
  rintro ⟨h | h, -⟩ <;> cases h

end Relabel.Layout
