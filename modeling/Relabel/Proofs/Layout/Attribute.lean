import Relabel.Proofs.Layout.Walk

/-!
# Walks over attributes

An attribute stands in a table under the index of its name, with its size in front of its
payload. The payload is walked over on its own, in the layout of its name, and what stands
behind that layout is passed. Inside code and records there are tables again, one level
further down.
-/

namespace Relabel.Layout

variable {α β : Type} {r : Renaming} {w w' : Walk} {G : Format β} {xs ys : List Piece}
  {f f' : Focus Tape} {rest : List UInt8}

/-! ## Attribute tables -/

/-- Pieces in front that stay are passed first. -/
theorem Passed.ends {f₁ : Focus Tape} (h : Passed r xs f f₁) (hpool : f₁.pool = f.pool)
    (hw : w f = w' f₁) (h' : Ends r w' ys f₁) : Ends r w (xs ++ ys) f := by
  obtain ⟨f', hrun, hpassed⟩ | ⟨⟨n, f', hrun⟩, hfills⟩ := h'
  · exact .inl ⟨f', hw.trans hrun, h.append hpassed⟩
  · rw [hpool] at hfills
    exact .inr ⟨⟨n, f', hw.trans hrun⟩, hfills.mono (List.subset_append_right xs ys)⟩

/-- The focus at the start of a part. -/
def partOf (part : List UInt8) (f : Focus Tape) : Focus Tape :=
  ⟨Tape.start part, f.pool, f.tally, f.notices⟩

theorem within_of_ahead {n : Nat} {part : List UInt8} (hahead : f.item.ahead = part ++ rest)
    (hlen : part.length = n) : Walk.within n w f = Edit.inside (fun _ => Tape.start part)
      (fun inner t => ⟨inner.bytes.reverseAux f.item.passed, t.ahead⟩) w (past part rest f) := by
  rw [Walk.within, Edit.item_bind, bind_of_ok (pass_of_ahead hahead hlen)]

theorem ends_within {n : Nat} {part : List UInt8} (hahead : f.item.ahead = part ++ rest)
    (hlen : part.length = n) (h : Ends r (toEnd w) xs (partOf part f)) :
    Ends r (Walk.within n w) xs f := by
  have hrun := within_of_ahead (w := w) hahead hlen
  obtain ⟨g, hg, hpassed⟩ | ⟨hover, hfills⟩ := h
  · obtain ⟨g', hg', rfl⟩ := toEnd_eq_ok hg
    refine .inl ⟨_, ?_, hpassed.within rfl hahead⟩
    rw [hrun, Edit.inside_of_ok hg', List.reverseAux_eq]
    simp [Tape.bytes, past]
  · obtain ⟨m, g, hg⟩ := overflows_toEnd hover
    exact .inr ⟨⟨m, _, hrun.trans (Edit.inside_of_error hg)⟩, hfills⟩

/-- A part that was walked over is what its pieces spell. -/
theorem within_eq_ok {n : Nat} (h : Walk.within n w f = .ok () f') :
    ∃ part rest g, part.length = n ∧ f.item.ahead = part ++ rest ∧
      toEnd w (partOf part f) = .ok () g ∧ g.notices = f'.notices ∧
      ∀ xs, Passed r xs (partOf part f) g → part = encode xs ∧ Passed r xs f f' := by
  obtain ⟨part, _, hpass, -⟩ := bind_eq_ok.mp ((Edit.item_bind _ f).symm.trans h)
  obtain ⟨rest, hlen, hahead, -⟩ := pass_eq_past hpass
  obtain ⟨t, ht, -⟩ := Edit.inside_eq_ok ((within_of_ahead hahead hlen).symm.trans h)
  refine ⟨part, rest, _, hlen, hahead, toEnd_of_ok ht, rfl, ?_⟩
  intro xs hpassed
  refine ⟨hpassed.ahead.trans (List.append_nil _), ?_⟩
  exact (ends_within hahead hlen (.inl ⟨_, toEnd_of_ok ht, hpassed⟩)).passed_of_ok h

/-- Walk over the payload under the name at `index`. -/
def payloadAt (payload : String → Walk) (index : UInt16) : Walk := do
  payload (← Edit.look (·.utf8 index))

theorem payloadAt_of_name {payload : String → Walk} {index : UInt16} {name : String}
    (hname : f.pool.utf8 index = .ok name) :
    toEnd (payloadAt payload index) f = toEnd (payload name) f := by
  rw [toEnd, toEnd, payloadAt, bind_assoc, Edit.look_bind hname]

/-- An entry is its index, its size and then its payload, which is walked over on its own. -/
theorem follows_entry {payload : String → Walk} {F : String → Format α}
    (h : ∀ name, Fills r (payload name) (F name)) :
    Follows r (do
      let index : UInt16 ← Walk.word
      let size : UInt32 ← Walk.word
      Walk.within size.toNat (payloadAt payload index)) (.entry F) where
  passes e he := by
    obtain ⟨hsize, hfits⟩ := he
    intro f rest hahead hresolves
    let part := encode ((F e.name).pieces e.payload)
    let size := UInt32.ofNat part.length
    have hn : size.toNat = part.length := UInt32.toNat_ofNat_of_lt hsize
    have hahead : f.item.ahead = Word.bytes e.index ++ (Word.bytes size ++ (part ++ rest)) := by
      simpa [Format.entry, Piece.bytes] using hahead
    have hname : f.pool.utf8 e.index = .ok e.name := hresolves (.attributeName e.index e.name)
      List.mem_cons_self
    have hpayload : ∀ x ∈ (F e.name).pieces e.payload, x.Resolves f.pool := fun x hx =>
      hresolves x (List.mem_cons_of_mem _ (List.mem_cons_of_mem _ hx))
    let f₁ := past (Word.bytes e.index) (Word.bytes size ++ (part ++ rest)) f
    let f₂ := past (Word.bytes size) (part ++ rest) f₁
    have hindex : Passed r [.attributeName e.index e.name] f f₁ :=
      .kept (x := .attributeName e.index e.name) hahead hname trivial
    have hfront : Passed r [.attributeName e.index e.name, .fixed (Word.bytes size)] f f₂ :=
      hindex.append (.fixed rfl)
    have hpart : Ends r (toEnd (payloadAt payload e.index)) ((F e.name).pieces e.payload)
        (partOf part f₂) :=
      ((h e.name).ends (f := partOf part f₂) hfits rfl hpayload).of_eq (payloadAt_of_name hname)
    refine hfront.ends rfl ?_ (ends_within rfl hn.symm hpart)
    have hword : (Walk.word : Edit Tape UInt32) f₁ = .ok size f₂ := word_of_ahead rfl
    rw [bind_of_ok (word_of_ahead hahead)]
    exact bind_of_ok hword
  parses := by
    intro f f' hrun
    obtain ⟨index, _, hword, hrun⟩ := bind_eq_ok.mp hrun
    obtain ⟨rest₁, hahead, rfl⟩ := word_eq_past hword
    obtain ⟨size, _, hword, hrun⟩ := bind_eq_ok.mp hrun
    obtain ⟨rest₂, hahead₁, rfl⟩ := word_eq_past hword
    obtain ⟨part, rest, g, hlen, -, hpart, hnotices', hpassed⟩ := within_eq_ok (r := r) hrun
    obtain ⟨name, _, hlook, -⟩ := bind_eq_ok.mp (bind_eq_ok.mp hpart).choose_spec.choose_spec.1
    obtain ⟨hname, rfl⟩ := Edit.look_eq_ok.mp hlook
    rw [payloadAt_of_name hname] at hpart
    obtain ⟨_, ys, ⟨a, ha, rfl⟩, htaken, hpieces, hall⟩ := (h name).parses hpart
    obtain ⟨rfl, hrest⟩ := hpassed _ hpieces
    rw [encode_of_takenAs htaken] at hlen
    have hsize : UInt32.ofNat (encode ((F name).pieces a)).length = size := by
      rw [hlen, UInt32.ofNat_toNat]
    have hindex : Passed r [.attributeName index name] f (past (Word.bytes index) rest₁ f) :=
      .kept (x := .attributeName index name) hahead hname trivial
    have hfront := hindex.append ((Passed.fixed hahead₁).append hrest)
    refine ⟨_, _, ⟨⟨index, name, a⟩, ⟨hlen ▸ size.toNat_lt, ha⟩, rfl⟩, ?_, hfront, ?_⟩
    · simp only [Format.entry, hsize]
      exact .cons (.self _) (.cons (.self _) htaken)
    · intro hnotices
      simp only [Format.entry, hsize, hall (hnotices' ▸ hnotices)]
      rfl

theorem follows_table {payload : String → Walk} {F : String → Format α}
    (h : ∀ name, Fills r (payload name) (F name)) :
    Follows r (Walk.table payload) (Format.entry F).counted := (follows_entry h).counted

/-! ## Payloads -/

section

variable {kind : SymbolKind} {i : UInt16}

theorem signature_of_index (hahead : f.item.ahead = Word.bytes i) : Walk.signature r kind f =
    (match f.pool.utf8 i with
      | .ok _ => Walk.signatureSlot r kind
      | .error _ => Edit.note .signatureIndex) f := by
  obtain ⟨high, low, hbytes⟩ : ∃ high low, Word.bytes i = [high, low] := ⟨_, _, rfl⟩
  rw [Walk.signature, Edit.item_bind, hahead, hbytes]
  dsimp only
  rewrite [Edit.query_bind, ← hbytes, Word.ofBytes_bytes]
  rfl

theorem signature_of_length (hlen : f.item.ahead.length ≠ 2) :
    Walk.signature r kind f = Edit.note .signatureSize f := by
  rw [Walk.signature, Edit.item_bind]
  obtain hbytes | ⟨a, hbytes⟩ | ⟨a, b, hbytes⟩ | ⟨a, b, c, more, hbytes⟩ :
      f.item.ahead = [] ∨ (∃ a, f.item.ahead = [a]) ∨ (∃ a b, f.item.ahead = [a, b]) ∨
        ∃ a b c more, f.item.ahead = a :: b :: c :: more := by
    rcases f.item.ahead with _ | ⟨a, _ | ⟨b, _ | ⟨c, more⟩⟩⟩ <;> simp
  case inr.inr.inl => exact absurd (by rw [hbytes]; rfl) hlen
  all_goals rw [hbytes]

theorem ends_signature (hahead : f.item.ahead = Word.bytes i)
    (hs : (Slot.signature kind i).Resolves f.pool) :
    Ends r (Walk.signature r kind) [.slot (.signature kind i)] f := by
  obtain ⟨text, htext⟩ := id hs
  refine (ends_signatureSlot (hahead.trans (List.append_nil _).symm) hs).of_eq ?_
  rw [signature_of_index hahead, htext]

end

section

variable {levels : Nat}

theorem ends_layout (h : Follows r w G) {kind : SymbolKind} {name : String}
    {c : Content (ElementValue levels) β} {trailing : List UInt8}
    (hfits : (Format.content (.elementValue levels) G kind).Fits c)
    (hsuits : c.Suits name trailing)
    (hahead : f.item.ahead
      = encode ((Format.content (.elementValue levels) G kind).trailed.pieces (c, trailing)))
    (hresolves : ∀ x ∈ (Format.content (.elementValue levels) G kind).trailed.pieces (c, trailing),
      x.Resolves f.pool) :
    Ends r (toEnd (Walk.layout r levels w kind name))
      ((Format.content (.elementValue levels) G kind).trailed.pieces (c, trailing)) f := by
  have hfront : f.item.ahead
      = encode ((Format.content (.elementValue levels) G kind).pieces c) ++ trailing := by
    simpa [Format.trailed, Piece.bytes] using hahead
  cases c with
  | signature i =>
    obtain ⟨rfl, rfl⟩ := hsuits
    have hindex : f.item.ahead = Word.bytes i := by
      rw [hfront, List.append_nil]
      exact List.append_nil (Word.bytes i)
    have hslot : (Slot.signature kind i).Resolves f.pool := hresolves _ List.mem_cons_self
    exact (ends_signature hindex hslot).toEnd hfront (List.forall_mem_singleton.mpr hslot)
  | annotations as =>
    rw [Walk.layout_of_annotations r levels w kind hsuits]
    exact (follows_annotations r levels).fills.ends (a := (as, trailing)) hfits hahead hresolves
  | parameterAnnotations ps =>
    rw [Walk.layout_of_parameterAnnotations r levels w kind hsuits]
    exact (follows_parameterAnnotations r levels).fills.ends (a := (ps, trailing)) hfits hahead
      hresolves
  | typeAnnotations as =>
    rw [Walk.layout_of_typeAnnotations r levels w kind hsuits]
    exact (follows_annotatedType r levels).counted.fills.ends (a := (as, trailing)) hfits hahead
      hresolves
  | annotationDefault v =>
    obtain rfl : name = AttributeName.annotationDefault := hsuits
    exact (follows_elementValue r levels).fills.ends (a := (v, trailing)) hfits hahead hresolves
  | code code =>
    obtain rfl : name = AttributeName.code := hsuits
    exact h.code.fills.ends (a := (code, trailing)) hfits hahead hresolves
  | localVariables vs =>
    obtain rfl : name = AttributeName.localVariables := hsuits
    exact (follows_localVariable passes_descriptorSlot parses_descriptorSlot).counted.fills.ends
      (a := (vs, trailing)) hfits hahead hresolves
  | localVariableTypes vs =>
    obtain rfl : name = AttributeName.localVariableTypes := hsuits
    exact (follows_localVariable (passes_signatureSlot .ofField)
      (parses_signatureSlot .ofField)).counted.fills.ends (a := (vs, trailing)) hfits hahead
        hresolves
  | record cs =>
    obtain rfl : name = AttributeName.record := hsuits
    exact h.component.counted.fills.ends (a := (cs, trailing)) hfits hahead hresolves
  | innerClasses cs =>
    obtain rfl : name = AttributeName.innerClasses := hsuits
    exact (follows_innerClass r).counted.fills.ends (a := (cs, trailing)) hfits hahead hresolves
  | other =>
    have hempty : Ends r (Walk.layout r levels w kind name) [] f := by
      rcases hsuits with hwalked | ⟨rfl, hlen⟩
      · rw [Walk.layout_of_not_mem r levels w kind hwalked]
        exact .inl ⟨f, rfl, .nil f⟩
      · have hsize : f.item.ahead.length ≠ 2 := hfront ▸ hlen
        exact .inl ⟨_, signature_of_length hsize, (Passed.nil f).note _⟩
    exact hempty.toEnd hfront (List.forall_mem_nil _)

/-- A payload of two bytes is a signature, which may be skipped; any other is not looked at. -/
theorem parses_signature (kind : SymbolKind) : Parses r (toEnd (Walk.signature r kind)) fun xs =>
    (∃ i, xs = [.slot (.signature kind i), .fixed []]) ∨
      ∃ trailing : List UInt8, trailing.length ≠ 2 ∧ xs = [.fixed trailing] := by
  intro f f' hrun
  have hfront : f.item.ahead = encode [] ++ f.item.ahead := rfl
  by_cases hlen : f.item.ahead.length = 2
  · obtain ⟨i, hi⟩ := exists_word (α := UInt16) hlen
    have hsignature : Walk.signature r kind f = _ := signature_of_index hi
    cases hutf8 : f.pool.utf8 i with
    | ok text =>
      have hslot : (Slot.signature kind i).Resolves f.pool := ⟨text, hutf8⟩
      have hahead : f.item.ahead = encode [.slot (.signature kind i)] ++ [] := by
        simp [Piece.bytes, Slot.index, hi]
      have hends := (ends_signature (r := r) hi hslot).toEnd hahead
        (List.forall_mem_singleton.mpr hslot)
      exact ⟨_, _, .inl ⟨i, rfl⟩, takenAs_refl _, hends.passed_of_ok hrun, fun _ => rfl⟩
    | error fault =>
      rw [hutf8] at hsignature
      have hskip : Ends r (Walk.signature r kind) [] f :=
        .inl ⟨_, hsignature, (Passed.nil f).note _⟩
      have hpassed : Passed r [.fixed f.item.ahead] f f' :=
        (hskip.toEnd hfront (List.forall_mem_nil _)).passed_of_ok hrun
      rw [hi] at hpassed
      have hrest : Passed r [.fixed []] f' f' := .fixed rfl
      refine ⟨_, _, .inl ⟨i, rfl⟩, .cons (.skipped kind i) (takenAs_refl [.fixed []]),
        hpassed.append hrest, fun hnotices => absurd ?_ hnotices⟩
      obtain rfl := (EStateM.Result.ok.inj (hrun.symm.trans (toEnd_of_ok hsignature))).2
      exact Array.mem_push_self
  · have hends : Ends r (Walk.signature r kind) [] f :=
      .inl ⟨_, signature_of_length hlen, (Passed.nil f).note _⟩
    exact ⟨_, _, .inr ⟨_, hlen, rfl⟩, takenAs_refl _,
      (hends.toEnd hfront (List.forall_mem_nil _)).passed_of_ok hrun, fun _ => rfl⟩

theorem parses_toEnd_pure :
    Parses r (toEnd (pure ())) fun xs => ∃ trailing, xs = [.fixed trailing] := by
  refine .of_passed fun f f' hrun => ?_
  have hends : Ends r (pure ()) [] f := .inl ⟨f, rfl, .nil f⟩
  exact ⟨_, ⟨f.item.ahead, rfl⟩, (hends.toEnd rfl (List.forall_mem_nil _)).passed_of_ok hrun⟩

theorem parses_toEnd_ite {c : Prop} [Decidable c] {w' : Walk} {P : List Piece → Prop}
    (h : c → Parses r (toEnd w) P) (h' : ¬c → Parses r (toEnd w') P) :
    Parses r (toEnd (if c then w else w')) P := by
  split
  case isTrue hc => exact h hc
  case isFalse hc => exact h' hc

theorem parses_layout (h : Follows r w G) (kind : SymbolKind) (name : String) :
    Parses r (toEnd (Walk.layout r levels w kind name)) fun xs =>
      ∃ p, (Format.attributePayload (.elementValue levels) G kind name).Fits p ∧
        xs = (Format.attributePayload (.elementValue levels) G kind name).pieces p := by
  -- a part that follows the format of its content is the payload of that content
  have followed {γ : Type} {w' : Walk} {F : Format γ}
      (build : γ → Content (ElementValue levels) β) (hfollows : Follows r w' F)
      (hfits : ∀ a, F.Fits a → (Format.content (.elementValue levels) G kind).Fits (build a))
      (hsuits : ∀ a trailing, (build a).Suits name trailing)
      (hpieces : ∀ a,
        (Format.content (.elementValue levels) G kind).pieces (build a) = F.pieces a) :
      Parses r (toEnd w') fun xs =>
        ∃ p, (Format.attributePayload (.elementValue levels) G kind name).Fits p ∧
          xs = (Format.attributePayload (.elementValue levels) G kind name).pieces p := by
    refine hfollows.fills.parses.mono ?_
    rintro _ ⟨⟨a, trailing⟩, ha, rfl⟩
    refine ⟨(build a, trailing), ⟨hfits a ha, hsuits a trailing⟩, ?_⟩
    exact congrArg (· ++ [Piece.fixed trailing]) (hpieces a).symm
  unfold Walk.layout
  refine parses_toEnd_ite (fun hname => ?_) fun hsignature => ?_
  · refine (parses_signature kind).mono ?_
    rintro _ (⟨i, rfl⟩ | ⟨trailing, hlen, rfl⟩)
    · exact ⟨(.signature i, []), ⟨trivial, hname, rfl⟩, rfl⟩
    · exact ⟨(.other, trailing), ⟨trivial, .inr ⟨hname, hlen⟩⟩, rfl⟩
  refine parses_toEnd_ite (fun hname => ?_) fun hannotations => ?_
  · exact followed .annotations (follows_annotations r levels) (fun _ => id)
      (fun _ _ => List.contains_iff_mem.mp hname) fun _ => rfl
  refine parses_toEnd_ite (fun hname => ?_) fun hparameters => ?_
  · exact followed .parameterAnnotations (follows_parameterAnnotations r levels) (fun _ => id)
      (fun _ _ => List.contains_iff_mem.mp hname) fun _ => rfl
  refine parses_toEnd_ite (fun hname => ?_) fun htypes => ?_
  · exact followed .typeAnnotations (follows_annotatedType r levels).counted (fun _ => id)
      (fun _ _ => List.contains_iff_mem.mp hname) fun _ => rfl
  refine parses_toEnd_ite (fun hname => ?_) fun hdefault => ?_
  · exact followed .annotationDefault (follows_elementValue r levels) (fun _ => id)
      (fun _ _ => hname) fun _ => rfl
  refine parses_toEnd_ite (fun hname => ?_) fun hcode => ?_
  · exact followed .code h.code (fun _ => id) (fun _ _ => hname) fun _ => rfl
  refine parses_toEnd_ite (fun hname => ?_) fun hvariables => ?_
  · exact followed .localVariables (follows_localVariable passes_descriptorSlot
      parses_descriptorSlot).counted (fun _ => id) (fun _ _ => hname) fun _ => rfl
  refine parses_toEnd_ite (fun hname => ?_) fun hvariableTypes => ?_
  · exact followed .localVariableTypes (follows_localVariable (passes_signatureSlot .ofField)
      (parses_signatureSlot .ofField)).counted (fun _ => id) (fun _ _ => hname) fun _ => rfl
  refine parses_toEnd_ite (fun hname => ?_) fun hrecord => ?_
  · exact followed .record h.component.counted (fun _ => id) (fun _ _ => hname) fun _ => rfl
  refine parses_toEnd_ite (fun hname => ?_) fun hinner => ?_
  · exact followed .innerClasses (follows_innerClass r).counted (fun _ => id) (fun _ _ => hname)
      fun _ => rfl
  -- none of the names that are walked over is left
  have hwalked : name ∉ AttributeName.walked := by
    rw [List.contains_iff_mem] at hannotations hparameters htypes
    simp only [AttributeName.walked, List.mem_append, List.mem_cons, List.not_mem_nil, or_false,
      not_or]
    exact ⟨⟨⟨⟨hsignature, hdefault, hcode, hvariables, hvariableTypes, hrecord, hinner⟩,
      hannotations⟩, hparameters⟩, htypes⟩
  refine parses_toEnd_pure.mono ?_
  rintro _ ⟨trailing, rfl⟩
  exact ⟨(.other, trailing), ⟨trivial, .inl hwalked⟩, rfl⟩

theorem fills_layout (h : Follows r w G) (kind : SymbolKind) (name : String) :
    Fills r (Walk.layout r levels w kind name)
      (.attributePayload (.elementValue levels) G kind name) where
  ends _ _ hp := ends_layout h hp.1 hp.2
  parses := parses_layout h kind name

end

/-- The induction is on the levels that are left: an attribute inside has one level less. -/
theorem fills_payload (r : Renaming) (levels : Nat) (kind : SymbolKind) (name : String) :
    Fills r (Walk.payload r levels kind name) (.payload levels kind name) := by
  induction levels generalizing kind name with
  | zero => exact fills_layout .empty kind name
  | succ levels ih => exact fills_layout (follows_table (ih .ofField)) kind name

end Relabel.Layout
