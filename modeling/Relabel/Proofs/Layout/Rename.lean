import Relabel.Proofs.Edit.Member
import Relabel.Proofs.Layout.Attribute
import Relabel.Proofs.Renaming.Substitution

/-!
# Attributes under a renaming

Renaming an attribute leaves a payload with the same structure, in which every slot has
the index of its new text. All other bytes stay as they are: constants, element names,
targets, code, and the attributes inside that are not walked over.
-/

namespace Relabel.Layout

variable {r : Renaming} {kind : SymbolKind} {xs : List Piece}

/-! ## Runs over an attribute -/

/-- The focus at the start of the payload. -/
def startOf (f : Focus Attribute) : Focus Tape :=
  ⟨Tape.start f.item.payload, f.pool, f.tally, f.notices⟩

/-- The attribute with the payload that was walked over. -/
def finish (f : Focus Attribute) (g : Focus Tape) : Focus Attribute :=
  ⟨{ f.item with payload := g.item.bytes }, g.pool, g.tally, g.notices⟩

/-- The payload is made of these pieces, and all of them were passed. -/
def Rewrites (r : Renaming) (xs : List Piece) (f f' : Focus Attribute) : Prop :=
  ∃ g, Passed r xs (startOf f) g ∧ g.item.ahead = [] ∧ f' = finish f g

namespace Rewrites

variable {f f' : Focus Attribute} (h : Rewrites r xs f f')
include h

theorem payload_before : f.item.payload = encode xs := by
  obtain ⟨g, hpassed, hend, -⟩ := h
  exact hpassed.ahead.trans (by rw [hend, List.append_nil])

theorem payload_after : f'.item.payload = encode (xs.map (Piece.rename r f'.pool)) := by
  obtain ⟨g, hpassed, hend, rfl⟩ := h
  simp [finish, Tape.bytes, hpassed.passed, hend, startOf, Tape.start, List.reverseAux_eq]

end Rewrites

variable {f f' : Focus Attribute} {name : String}

theorem renameAttribute_of_name (hname : f.pool.utf8 f.item.name = .ok name) :
    Edit.renameAttribute r kind f = Edit.inside (fun a => Tape.start a.payload)
      (fun t a => { a with payload := t.bytes }) (Walk.payload r maxNesting kind name) f := by
  rw [Edit.renameAttribute, Edit.item_bind, Edit.look_bind hname]

/-- If the payload fits the layout, the attribute is rewritten, or its new texts overfill the
pool. -/
theorem renameAttribute_ends {v : Payload maxNesting}
    (hname : f.pool.utf8 f.item.name = .ok name)
    (hfits : (Format.payload maxNesting kind name).Fits v)
    (hpayload : f.item.payload = encode ((Format.payload maxNesting kind name).pieces v))
    (hresolves : ∀ x ∈ (Format.payload maxNesting kind name).pieces v, x.Resolves f.pool) :
    (∃ f', Edit.renameAttribute r kind f = .ok () f' ∧
        Rewrites r ((Format.payload maxNesting kind name).pieces v) f f') ∨
      (∃ n f', Edit.renameAttribute r kind f = .error (.poolOverflow n) f') ∧
        Overfills r ((Format.payload maxNesting kind name).pieces v) f.pool := by
  have hends : Ends r _ _ (startOf f) :=
    (fills_payload r maxNesting kind name).ends hfits hpayload hresolves
  rw [renameAttribute_of_name hname]
  obtain ⟨g, hg, hpassed⟩ | ⟨hover, hfills⟩ := hends
  · obtain ⟨g', hg', rfl⟩ := toEnd_eq_ok hg
    refine .inl ⟨_, Edit.inside_of_ok hg', _, hpassed, rfl, ?_⟩
    simp [finish, past, Tape.bytes]
  · obtain ⟨n, g, hg⟩ := overflows_toEnd hover
    exact .inr ⟨⟨n, _, Edit.inside_of_error hg⟩, hfills⟩

/-- With room for a new text of each piece, the attribute is rewritten. -/
theorem renameAttribute_of_room {v : Payload maxNesting}
    (hname : f.pool.utf8 f.item.name = .ok name)
    (hfits : (Format.payload maxNesting kind name).Fits v)
    (hpayload : f.item.payload = encode ((Format.payload maxNesting kind name).pieces v))
    (hresolves : ∀ x ∈ (Format.payload maxNesting kind name).pieces v, x.Resolves f.pool)
    (hroom : f.pool.slots + ((Format.payload maxNesting kind name).pieces v).length
      ≤ Pool.maxSlots) :
    ∃ f', Edit.renameAttribute r kind f = .ok () f' ∧
      Rewrites r ((Format.payload maxNesting kind name).pieces v) f f' := by
  obtain hrun | ⟨-, hfills⟩ := renameAttribute_ends (r := r) hname hfits hpayload hresolves
  · exact hrun
  · exact absurd hroom (Nat.not_le.mpr hfills.lt)

/-- If an attribute is renamed, its payload has the layout of its name, and is rewritten up to
signatures that are skipped. -/
theorem renameAttribute_takes (h : Edit.renameAttribute r kind f = .ok () f') :
    ∃ name v xs, f.pool.utf8 f.item.name = .ok name ∧
      (Format.payload maxNesting kind name).Fits v ∧
      List.Forall₂ Piece.TakenAs ((Format.payload maxNesting kind name).pieces v) xs ∧
      Rewrites r xs f f' ∧ (.signatureIndex ∉ f'.notices →
        xs = (Format.payload maxNesting kind name).pieces v) := by
  obtain ⟨name, hname, hrun⟩ := Edit.renameAttribute_inside h
  obtain ⟨t, ht, hitem⟩ := Edit.inside_eq_ok hrun
  obtain ⟨_, xs, ⟨v, hv, rfl⟩, htaken, hpassed, hall⟩ :=
    (fills_payload r maxNesting kind name).parses (toEnd_of_ok ht)
  refine ⟨name, v, xs, hname, hv, htaken, ⟨_, hpassed, rfl, ?_⟩, hall⟩
  obtain ⟨item, pool, tally, notices⟩ := f'
  obtain rfl : item = _ := hitem
  simp [finish, past, Tape.bytes]

/-- If no signature is skipped, all of the payload is rewritten. -/
theorem renameAttribute_eq_ok (h : Edit.renameAttribute r kind f = .ok () f')
    (hnotices : .signatureIndex ∉ f'.notices) :
    ∃ name v, f.pool.utf8 f.item.name = .ok name ∧ (Format.payload maxNesting kind name).Fits v ∧
      Rewrites r ((Format.payload maxNesting kind name).pieces v) f f' := by
  obtain ⟨name, v, xs, hname, hv, -, hrewrites, hall⟩ := renameAttribute_takes h
  exact ⟨name, v, hname, hv, hall hnotices ▸ hrewrites⟩

/-! ## Slots afterwards -/

/-- The index `i` that the slot of a value in `p` gets leads to the new text in `q`. A text that is
no signature stays, and so does an inner class without a name. -/
def Slot.LeadsTo (r : Renaming) (p q : Pool) (i : UInt16) : Slot → Prop
  | .descriptor index => ∃ text text', p.utf8 index = .ok text ∧ r.descriptor text = .ok text' ∧
    q.utf8 i = .ok text'
  | .signature kind index => ∃ text, p.utf8 index = .ok text ∧
    match r.signature kind text with
    | .ok text' => q.utf8 i = .ok text'
    | .error _ => i = index
  | .simpleName inner index =>
    if inner ≠ 0 ∧ index ≠ 0 then
      ∃ old simple, p.className inner = .ok old ∧ p.utf8 index = .ok simple ∧
        q.utf8 i = .ok ((Walk.newSimpleName? old (r.className old) simple).getD simple)
    else i = index

theorem getD_changed? (new old : String) : (changed? (.ok new) old).getD old = new := by
  by_cases h : new = old <;> simp [changed?, h]

namespace Slot

variable {p q : Pool} {s : Slot} {old : String}

/-- A slot has the index of its new text, or its own if the text stays. -/
theorem utf8_renamed (hq : q.Sound) (hset : s.Settled r q) (hold : q.utf8 s.index = .ok old) :
    q.utf8 (s.renamed r q) = .ok ((s.newText? r q).getD old) := by
  cases htext : s.newText? r q with
  | none => rwa [renamed_of_none htext]
  | some text =>
    obtain ⟨i, hi⟩ := hset text htext
    simp only [renamed, htext, hi, Option.getD_some]
    exact Pool.utf8_eq_ok.mpr (hq.known hi)

/-- A slot that was passed leads to its new text. -/
theorem leadsTo_renamed (hs : s.Resolves p) (hq : q.Sound) (hgrows : Pool.Grows p q)
    (hset : s.Settled r q) : s.LeadsTo r p q (s.renamed r q) := by
  cases s with
  | descriptor index =>
    obtain ⟨old, hold, hcloses⟩ := hs
    obtain ⟨new, hnew⟩ := r.descriptor_of_closes hcloses
    have hutf8 := utf8_renamed hq hset (hgrows.utf8 hold)
    have htext : (descriptor index).newText? r q = changed? (.ok new) old := by
      simp [newText?, hgrows.utf8 hold, hnew, Except.toOption]
    rw [htext, getD_changed?] at hutf8
    exact ⟨old, new, hold, hnew, hutf8⟩
  | signature kind index =>
    obtain ⟨old, hold⟩ := hs
    have hutf8 := utf8_renamed hq hset (hgrows.utf8 hold)
    have htext : (signature kind index).newText? r q = changed? (r.signature kind old) old := by
      simp [newText?, hgrows.utf8 hold, Except.toOption]
    refine ⟨old, hold, ?_⟩
    cases hnew : r.signature kind old with
    | ok new =>
      rw [htext, hnew, getD_changed?] at hutf8
      exact hutf8
    | error flaw =>
      rw [hnew] at htext
      exact renamed_of_none htext
  | simpleName inner index =>
    simp only [LeadsTo]
    by_cases hne : inner ≠ 0 ∧ index ≠ 0
    · obtain ⟨old, simple, hold, hsimple⟩ := hs hne.1 hne.2
      have hutf8 := utf8_renamed hq hset (hgrows.utf8 hsimple)
      have htext : (simpleName inner index).newText? r q
          = Walk.newSimpleName? old (r.className old) simple := by
        simp [newText?, hne, hgrows.className hold, hgrows.utf8 hsimple, Except.toOption]
      rw [if_pos hne]
      rw [htext] at hutf8
      exact ⟨old, simple, hold, hsimple, hutf8⟩
    · rw [if_neg hne]
      have hfalse : (decide (inner ≠ 0) && decide (index ≠ 0)) = false := by simpa using hne
      exact renamed_of_none (by simp only [newText?, hfalse, Bool.false_eq_true, if_false])

end Slot

/-! ## Attributes afterwards -/

/-- A signature that leads to a text leads to its new text afterwards. -/
theorem signature_renamed {f f' : Focus Attribute} {i : UInt16} {text text' : String}
    (hp : f.pool.Sound) (hname : f.pool.utf8 f.item.name = .ok AttributeName.signature)
    (hpayload : f.item.payload = Word.bytes i) (htext : f.pool.utf8 i = .ok text)
    (hnew : r.signature kind text = .ok text')
    (h : Edit.renameAttribute r kind f = .ok () f') :
    ∃ j, f'.item.payload = Word.bytes j ∧ f'.pool.utf8 j = .ok text' := by
  let v : Payload maxNesting := (.signature i, [])
  have hpieces : (Format.payload maxNesting kind AttributeName.signature).pieces v
      = [.slot (.signature kind i), .fixed []] := rfl
  have hresolves : (Slot.signature kind i).Resolves f.pool := ⟨text, htext⟩
  obtain ⟨g, hrun, hrewrites⟩ | ⟨⟨n, g, hover⟩, -⟩ :=
    renameAttribute_ends (r := r) (v := v) hname ⟨trivial, rfl, rfl⟩
      (by rw [hpieces, hpayload]; simp [Piece.bytes, Slot.index])
      (by rw [hpieces]; simpa [Piece.Resolves] using hresolves)
  case inr => cases h.symm.trans hover
  cases h.symm.trans hrun
  have hafter := hrewrites.payload_after
  obtain ⟨g, hpassed, -, rfl⟩ := hrewrites
  rw [hpieces] at hpassed hafter
  obtain ⟨_, htext', hleads⟩ := Slot.leadsTo_renamed hresolves (hpassed.learns.grows.sound hp)
    hpassed.learns.grows (hpassed.settled _ List.mem_cons_self)
  cases htext.symm.trans htext'
  rw [hnew] at hleads
  exact ⟨_, hafter.trans (List.append_nil _), hleads⟩

/-- Renaming an attribute whose payload has the layout of its name gives one of the same structure,
in which every slot leads to its new text. The pool gains the new texts that it was lacking. Only
if it has no room for them, the renaming fails. -/
theorem renameAttribute_rewrites {v : Payload maxNesting} (hp : f.pool.Sound)
    (hname : f.pool.utf8 f.item.name = .ok name)
    (hfits : (Format.payload maxNesting kind name).Fits v)
    (hpayload : f.item.payload = encode ((Format.payload maxNesting kind name).pieces v))
    (hresolves : ∀ x ∈ (Format.payload maxNesting kind name).pieces v, x.Resolves f.pool) :
    (∃ n f', Edit.renameAttribute r kind f = .error (.poolOverflow n) f') ∧
        Overfills r ((Format.payload maxNesting kind name).pieces v) f.pool ∨
      ∃ f' g, Edit.renameAttribute r kind f = .ok () f' ∧
        f'.item = ⟨f.item.name, encode ((Format.payload maxNesting kind name).pieces
          ((Format.payload maxNesting kind name).map g v))⟩ ∧
        Pool.Grows f.pool f'.pool ∧
        Pool.Gains f.pool f'.pool
          (newTexts r f.pool ((Format.payload maxNesting kind name).pieces v)) ∧
        ∀ s, .slot s ∈ (Format.payload maxNesting kind name).pieces v →
          s.LeadsTo r f.pool f'.pool (g s) := by
  obtain ⟨f', hrun, hrewrites⟩ | hfull :=
    renameAttribute_ends (r := r) hname hfits hpayload hresolves
  case inr => exact .inl hfull
  have hafter := hrewrites.payload_after
  obtain ⟨g, hpassed, -, rfl⟩ := hrewrites
  refine .inr ⟨_, Slot.renamed r g.pool, hrun, ?_, hpassed.learns.grows, ?_, ?_⟩
  · rw [Format.pieces_map]
    exact congrArg (Attribute.mk f.item.name) hafter
  · rw [← newTexts_grows hresolves hpassed.learns.grows]
    exact hpassed.gains
  · intro s hs
    exact Slot.leadsTo_renamed (hresolves _ hs) (hpassed.learns.grows.sound hp)
      hpassed.learns.grows (hpassed.settled _ hs)

/-- A class `A` with an annotation by itself, whose element `v` is an array that holds the class. -/
def annotatedFile : List UInt8 :=
  [0xCA, 0xFE, 0xBA, 0xBE, 0, 0, 0, 52, 0, 6,
    1, 0, 1, 65, 7, 0, 1,
    1, 0, 25, 82, 117, 110, 116, 105, 109, 101, 86, 105, 115, 105, 98, 108, 101, 65, 110, 110, 111,
    116, 97, 116, 105, 111, 110, 115,
    1, 0, 3, 76, 65, 59, 1, 0, 1, 118,
    0, 33, 0, 2, 0, 0, 0, 0, 0, 0, 0, 0,
    0, 1, 0, 3, 0, 0, 0, 14, 0, 1, 0, 4, 0, 1, 0, 5, 91, 0, 1, 99, 0, 4]

def annotatedAttribute : Attribute := ⟨3, [0, 1, 0, 4, 0, 1, 0, 5, 91, 0, 1, 99, 0, 4]⟩

def annotatedPieces : List Piece :=
  [.fixed [0, 1], .slot (.descriptor 4), .fixed [0, 1], .fixed [0, 5], .fixed [91],
    .fixed [0, 1], .fixed [99], .slot (.descriptor 4), .fixed []]

/-- The value of the annotation, which may nest deeper than it does. -/
def annotatedValue (levels : Nat) : Payload (levels + 2) :=
  let array : ElementValue (levels + 2) := Element.array [Element.classInfo 4]
  (.annotations [⟨4, [(5, array)]⟩], [])

theorem pieces_singleton {α : Type} (F : Format α) (a : α) :
    F.counted.pieces [a] = .fixed [0, 1] :: F.pieces a := by
  simp only [Format.countedBy, List.length_singleton, List.flatMap_singleton]
  rfl

theorem pieces_annotatedValue (levels : Nat) (kind : SymbolKind) (name : String) :
    (Format.payload (levels + 2) kind name).pieces (annotatedValue levels)
      = annotatedPieces := by
  let array : ElementValue (levels + 2) := Element.array [Element.classInfo 4]
  have harray : (Format.elementValue (levels + 2)).pieces array
      = [.fixed [91], .fixed [0, 1], .fixed [99], .slot (.descriptor 4)] :=
    congrArg (Piece.fixed [91] :: ·) (pieces_singleton (Format.elementValue (levels + 1)) _)
  have helements : (Format.elementValue (levels + 2)).behindWord.counted.pieces [(5, array)]
      = .fixed [0, 1] :: .fixed (Word.bytes (5 : UInt16)) ::
        (Format.elementValue (levels + 2)).pieces array :=
    pieces_singleton (Format.elementValue (levels + 2)).behindWord (5, array)
  have hannotated : (Format.elementValue (levels + 2)).annotated.counted.pieces [⟨4, [(5, array)]⟩]
      = .fixed [0, 1] :: .slot (.descriptor 4) ::
        (Format.elementValue (levels + 2)).behindWord.counted.pieces [(5, array)] :=
    pieces_singleton _ _
  rw [helements, harray] at hannotated
  exact congrArg (· ++ [Piece.fixed []]) hannotated

theorem fits_annotatedValue (levels : Nat) (kind : SymbolKind) :
    (Format.payload (levels + 2) kind "RuntimeVisibleAnnotations").Fits
      (annotatedValue levels) := by
  have hone : 1 < capacity 2 := by decide
  refine ⟨⟨hone, List.forall_mem_singleton.mpr ⟨hone, List.forall_mem_singleton.mpr ?_⟩⟩,
    List.mem_cons_self⟩
  exact ⟨hone, List.forall_mem_singleton.mpr trivial⟩

theorem decode_annotatedFile : ∃ c, ClassFile.decode annotatedFile = .ok c ∧
    c.attributes = #[annotatedAttribute] ∧
    c.pool.utf8 3 = .ok "RuntimeVisibleAnnotations" ∧ c.pool.utf8 4 = .ok "LA;" ∧
    c.pool.slots = 6 := by
  obtain ⟨c, hc, hchecks⟩ := eq_ok_of_any (ClassFile.decode annotatedFile) (fun c =>
    decide (c.attributes = #[annotatedAttribute])
      && decide (c.pool.utf8 3 = .ok "RuntimeVisibleAnnotations")
      && decide (c.pool.utf8 4 = .ok "LA;") && decide (c.pool.slots = 6)) (by decide +kernel)
  simp only [Bool.and_eq_true, decide_eq_true_eq, and_assoc] at hchecks
  exact ⟨c, hc, hchecks⟩

theorem resolves_annotatedPieces {p : Pool} (htext : p.utf8 4 = .ok "LA;") :
    ∀ x ∈ annotatedPieces, x.Resolves p := by
  have hcloses : Descriptor.closes "LA;" = true := by decide +kernel
  have hslot : (Piece.slot (.descriptor 4)).Resolves p := ⟨"LA;", htext, hcloses⟩
  simp only [annotatedPieces, List.forall_mem_cons, hslot, true_and]
  simp [Piece.Resolves]

/-- Both slots of the annotation get the index of the new text, since there is room for it. -/
theorem renameAttribute_rewrites_annotatedFile : ∃ c a, ClassFile.decode annotatedFile = .ok c ∧
    c.attributes = #[a] ∧
    ∃ f' i, Edit.renameAttribute ClassFile.exchange .ofClass ⟨a, c.pool, {}, #[]⟩ = .ok () f' ∧
      f'.item.payload = [0, 1] ++ Word.bytes i ++ [0, 1, 0, 5, 91, 0, 1, 99] ++ Word.bytes i ∧
      f'.pool.utf8 i = .ok "LB;" := by
  obtain ⟨c, hc, hattributes, hname, htext, hslots⟩ := decode_annotatedFile
  refine ⟨c, _, hc, hattributes, ?_⟩
  let f : Focus Attribute := ⟨annotatedAttribute, c.pool, {}, #[]⟩
  let F : Format (Payload maxNesting) :=
    Format.payload maxNesting .ofClass "RuntimeVisibleAnnotations"
  let v : Payload maxNesting := annotatedValue 254
  have hpieces : F.pieces v = annotatedPieces := pieces_annotatedValue 254 _ _
  obtain ⟨-, hfills⟩ | ⟨f', g, hrun, hitem, -, -, hleads⟩ := renameAttribute_rewrites
    (r := ClassFile.exchange) (f := f) (v := v) (ClassFile.sound_of_decode hc) hname
    (fits_annotatedValue 254 .ofClass) (by rw [hpieces]; rfl)
    (by rw [hpieces]; exact resolves_annotatedPieces htext)
  · have hfull : Pool.maxSlots < c.pool.slots + (F.pieces v).length := hfills.lt
    rw [hslots, hpieces] at hfull
    exact absurd hfull (by decide)
  · refine ⟨f', g (.descriptor 4), hrun, ?_, ?_⟩
    · rw [hitem]
      change encode (F.pieces (F.map g v)) = _
      rw [F.pieces_map, hpieces]
      rfl
    · have hmem : Piece.slot (.descriptor 4) ∈ F.pieces v := by simp [hpieces, annotatedPieces]
      obtain ⟨text, text', htext', hnew, hi⟩ := hleads (.descriptor 4) hmem
      cases htext.symm.trans htext'
      have hb : ClassFile.exchange.descriptor "LA;" = .ok "LB;" := by decide +kernel
      cases hb.symm.trans hnew
      exact hi

end Relabel.Layout
