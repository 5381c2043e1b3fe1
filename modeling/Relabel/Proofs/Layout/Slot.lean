import Relabel.Proofs.Layout.Piece

/-!
# Walks over single pieces

What a walk passes is told in two ways. If the pieces stand ahead and lead to what they
have to lead to, the walk passes them, unless the pool is full. If the walk succeeds,
pieces of the right form stood ahead. Both hold of a sequence of walks if they hold of
its parts, so they have to be shown of single pieces only.
-/

namespace Relabel.Layout

variable {r : Renaming} {w w' : Walk} {xs ys : List Piece} {P Q : List Piece → Prop}
  {f f' : Focus Tape} {rest : List UInt8}

/-! ## Moving over what stands ahead -/

/-- Bytes of the right number are a word. -/
theorem exists_word {α : Type} [Word α] {bytes : List UInt8} (h : bytes.length = Word.width α) :
    ∃ x : α, bytes = Word.bytes x := ⟨_, (Word.bytes_ofBytes h).symm⟩

theorem pass_of_ahead {n : Nat} {front : List UInt8} (hahead : f.item.ahead = front ++ rest)
    (hlen : front.length = n) : Walk.pass n f = .ok front (past front rest f) := by
  have hitem : f.item = ⟨f.item.passed, front ++ rest⟩ := by rw [← hahead]
  rw [Walk.pass_of_length hitem hlen, List.reverseAux_eq]
  rfl

theorem word_of_ahead {α : Type} [Word α] {x : α} (hahead : f.item.ahead = Word.bytes x ++ rest) :
    (Walk.word : Edit Tape α) f = .ok x (past (Word.bytes x) rest f) := by
  rw [Walk.word, bind_of_ok (pass_of_ahead hahead (Word.length_bytes x)), Word.ofBytes_bytes]
  rfl

theorem skip_of_ahead {n : Nat} {front : List UInt8} (hahead : f.item.ahead = front ++ rest)
    (hlen : front.length = n) : Walk.skip n f = .ok () (past front rest f) :=
  bind_of_ok (pass_of_ahead hahead hlen)

theorem pass_eq_past {n : Nat} {front : List UInt8} (h : Walk.pass n f = .ok front f') :
    ∃ rest, front.length = n ∧ f.item.ahead = front ++ rest ∧ f' = past front rest f := by
  obtain ⟨hlen, hahead, -⟩ := Walk.pass_eq_ok h
  have hpast := h.symm.trans (pass_of_ahead hahead hlen)
  exact ⟨_, hlen, hahead, (EStateM.Result.ok.inj hpast).2⟩

theorem word_eq_past {α : Type} [Word α] {x : α} (h : (Walk.word : Edit Tape α) f = .ok x f') :
    ∃ rest, f.item.ahead = Word.bytes x ++ rest ∧ f' = past (Word.bytes x) rest f := by
  obtain ⟨front, f₁, hpass, h⟩ := bind_eq_ok.mp h
  obtain ⟨rest, hlen, hahead, rfl⟩ := pass_eq_past hpass
  obtain ⟨rfl, rfl⟩ := pure_eq_ok.mp h
  rw [Word.bytes_ofBytes hlen]
  exact ⟨rest, hahead, rfl⟩

theorem skip_eq_past {n : Nat} (h : Walk.skip n f = .ok () f') :
    ∃ front rest, front.length = n ∧ f.item.ahead = front ++ rest ∧ f' = past front rest f := by
  obtain ⟨front, f₁, hpass, h⟩ := bind_eq_ok.mp h
  obtain ⟨-, rfl⟩ := pure_eq_ok.mp h
  exact ⟨front, pass_eq_past hpass⟩

/-! ## Passing what stands ahead -/

/-- The walk fails since the pool is full. -/
def Overflows (w : Walk) (f : Focus Tape) : Prop := ∃ n f', w f = .error (.poolOverflow n) f'

/-- Some of the pieces are to be changed, and the pool has no room for all the new texts that it
is lacking. -/
structure Overfills (r : Renaming) (xs : List Piece) (p : Pool) : Prop where
  changes : ∃ x ∈ xs, ¬ x.IsKept r p
  full : Pool.maxSlots < p.slots + (p.lacking (newTexts r p xs)).card

namespace Overfills

variable {p : Pool}

theorem mono (h : Overfills r xs p) (hsubset : xs ⊆ ys) : Overfills r ys p := by
  obtain ⟨⟨x, hx, hkept⟩, hfull⟩ := h
  have hlacking := Pool.lacking_mono (p := p) (newTexts_mono (r := r) (p := p) hsubset)
  exact ⟨⟨x, hsubset hx, hkept⟩,
    hfull.trans_le (Nat.add_le_add_left (Finset.card_le_card hlacking) _)⟩

/-- One slot of the pool for each piece is room enough. -/
theorem lt (h : Overfills r xs p) : Pool.maxSlots < p.slots + xs.length := by
  have hcard : (p.lacking (newTexts r p xs)).card ≤ xs.length :=
    calc (p.lacking (newTexts r p xs)).card
        ≤ (newTexts r p xs).card := Finset.card_filter_le _ _
      _ ≤ (xs.filterMap (Piece.newText? r p)).length := List.toFinset_card_le _
      _ ≤ xs.length := List.length_filterMap_le _ _
  exact h.full.trans_le (Nat.add_le_add_left hcard _)

theorem of_newText? {s : Slot} {text : String} (htext : s.newText? r p = some text)
    (hfull : Pool.maxSlots < p.slots + (p.lacking {text}).card) : Overfills r [.slot s] p where
  changes := by
    refine ⟨_, List.mem_singleton_self _, fun hkept => ?_⟩
    cases htext.symm.trans hkept
  full := by rwa [newTexts_of_newText? (x := .slot s) htext]

/-- The pieces behind those that were passed overfill the pool together with them. -/
theorem append_left (h : Overfills r ys f'.pool) (hpassed : Passed r xs f f')
    (hxs : ∀ x ∈ xs, x.Resolves f.pool) (hys : ∀ y ∈ ys, y.Resolves f.pool) :
    Overfills r (xs ++ ys) f.pool := by
  have hgrows := hpassed.learns.grows
  obtain ⟨⟨y, hy, hkept⟩, hfull⟩ := h
  rw [Piece.isKept_grows (hys y hy) hgrows] at hkept
  rw [hpassed.gains.slots_union, newTexts_grows hxs hgrows, newTexts_grows hys hgrows,
    ← newTexts_append] at hfull
  exact ⟨⟨y, List.mem_append_right xs hy, hkept⟩, hfull⟩

end Overfills

/-- The walk passes the pieces, or it fails since they overfill the pool. -/
def Ends (r : Renaming) (w : Walk) (xs : List Piece) (f : Focus Tape) : Prop :=
  (∃ f', w f = .ok () f' ∧ Passed r xs f f') ∨ Overflows w f ∧ Overfills r xs f.pool

/-- If the pieces stand ahead and lead to what they have to lead to, `w` passes them. -/
def Passes (r : Renaming) (w : Walk) (xs : List Piece) : Prop :=
  ∀ ⦃f : Focus Tape⦄ ⦃rest : List UInt8⦄, f.item.ahead = encode xs ++ rest →
    (∀ x ∈ xs, x.Resolves f.pool) → Ends r w xs f

theorem Ends.of_eq (h : Ends r w xs f) (hw : w' f = w f) : Ends r w' xs f := by
  unfold Ends Overflows
  rw [hw]
  exact h

theorem Ends.passed_of_ok (h : Ends r w xs f) (hw : w f = .ok () f') : Passed r xs f f' := by
  obtain ⟨g, hg, hpassed⟩ | ⟨⟨n, g, hg⟩, -⟩ := h
  · cases hw.symm.trans hg
    exact hpassed
  · cases hw.symm.trans hg

theorem Passed.ahead_eq (h : Passed r xs f f') (hahead : f.item.ahead = encode xs ++ rest) :
    f'.item.ahead = rest :=
  (List.append_cancel_left (hahead.symm.trans h.ahead)).symm

theorem passes_pure : Passes r (pure ()) [] := fun f _ _ _ => .inl ⟨f, rfl, .nil f⟩

/-- Behind what was passed, the rest is passed. -/
theorem Ends.bind {k : Unit → Walk} (h : Ends r w xs f)
    (hk : ∀ f', Passed r xs f f' → Ends r (k ()) ys f') (hxs : ∀ x ∈ xs, x.Resolves f.pool)
    (hys : ∀ y ∈ ys, y.Resolves f.pool) : Ends r (w >>= k) (xs ++ ys) f := by
  obtain ⟨f₁, hrun, hpassed⟩ | ⟨⟨n, f₁, hrun⟩, hfills⟩ := h
  · obtain ⟨f₂, hrun', hpassed'⟩ | ⟨⟨n, f₂, hrun'⟩, hfills⟩ := hk f₁ hpassed
    · exact .inl ⟨f₂, by rw [bind_of_ok hrun, hrun'], hpassed.append hpassed'⟩
    · exact .inr ⟨⟨n, f₂, by rw [bind_of_ok hrun, hrun']⟩, hfills.append_left hpassed hxs hys⟩
  · exact .inr ⟨⟨n, f₁, bind_of_error hrun⟩, hfills.mono (List.subset_append_left xs ys)⟩

theorem Passes.bind {k : Unit → Walk} (hx : Passes r w xs) (hy : Passes r (k ()) ys) :
    Passes r (w >>= k) (xs ++ ys) := by
  intro f rest hahead hresolves
  rw [encode_append, List.append_assoc] at hahead
  obtain ⟨hxs, hys⟩ := List.forall_mem_append.mp hresolves
  refine (hx hahead hxs).bind ?_ hxs hys
  intro f' hpassed
  exact hy (hpassed.ahead_eq hahead) fun y hy => (hys y hy).grows hpassed.learns.grows

theorem passes_skip {n : Nat} {bytes : List UInt8} (h : bytes.length = n) :
    Passes r (Walk.skip n) [.fixed bytes] := by
  intro f rest hahead _
  have hahead : f.item.ahead = bytes ++ rest := by simpa [Piece.bytes] using hahead
  exact .inl ⟨_, skip_of_ahead hahead h, .fixed hahead⟩

/-- A word is passed, and the walk that depends on it is run behind it. -/
theorem passes_word_bind {α : Type} [Word α] {k : α → Walk} (x : α) (h : Passes r (k x) xs) :
    Passes r (Walk.word >>= k) (.fixed (Word.bytes x) :: xs) := by
  intro f rest hahead hresolves
  have hfront : f.item.ahead = Word.bytes x ++ (encode xs ++ rest) := by
    simpa [Piece.bytes] using hahead
  have hskip : Passes r (Walk.skip (Word.width α)) [.fixed (Word.bytes x)] :=
    passes_skip (Word.length_bytes x)
  refine (hskip.bind (k := fun _ => k x) h hahead hresolves).of_eq ?_
  rw [bind_of_ok (word_of_ahead hfront), bind_of_ok (skip_of_ahead hfront (Word.length_bytes x))]

/-! ## Knowing what was passed -/

/-- If `w` succeeds, it passes pieces of the form `P`, some of which may be skipped. -/
def Parses (r : Renaming) (w : Walk) (P : List Piece → Prop) : Prop :=
  ∀ ⦃f f' : Focus Tape⦄, w f = .ok () f' → ∃ xs ys, P xs ∧ List.Forall₂ Piece.TakenAs xs ys ∧
    Passed r ys f f' ∧ (.signatureIndex ∉ f'.notices → ys = xs)

theorem Parses.of_passed
    (h : ∀ ⦃f f' : Focus Tape⦄, w f = .ok () f' → ∃ xs, P xs ∧ Passed r xs f f') :
    Parses r w P := by
  intro f f' hrun
  obtain ⟨xs, hxs, hpassed⟩ := h hrun
  exact ⟨xs, xs, hxs, takenAs_refl xs, hpassed, fun _ => rfl⟩

theorem parses_pure : Parses r (pure ()) (· = []) := by
  refine .of_passed fun f f' h => ?_
  obtain ⟨-, rfl⟩ := pure_eq_ok.mp h
  exact ⟨[], rfl, .nil f⟩

theorem Parses.mono (h : Parses r w P) (hPQ : ∀ ⦃xs⦄, P xs → Q xs) : Parses r w Q := by
  intro f f' hrun
  obtain ⟨xs, ys, hxs, hpassed⟩ := h hrun
  exact ⟨xs, ys, hPQ hxs, hpassed⟩

theorem Parses.bind {k : Unit → Walk} (h : Parses r w P) (h' : Parses r (k ()) Q) :
    Parses r (w >>= k) fun zs => ∃ xs ys, P xs ∧ Q ys ∧ zs = xs ++ ys := by
  intro f f' hrun
  obtain ⟨⟨⟩, f₁, hw, hk⟩ := bind_eq_ok.mp hrun
  obtain ⟨xs, xs', hxs, htaken, hpassed, hall⟩ := h hw
  obtain ⟨ys, ys', hys, htaken', hpassed', hall'⟩ := h' hk
  refine ⟨_, xs' ++ ys', ⟨xs, ys, hxs, hys, rfl⟩, List.rel_append htaken htaken',
    hpassed.append hpassed', fun hnotices => ?_⟩
  rw [hall fun hn => hnotices (hpassed'.notices _ hn), hall' hnotices]

theorem parses_skip (n : Nat) :
    Parses r (Walk.skip n) fun xs => ∃ bytes, bytes.length = n ∧ xs = [.fixed bytes] := by
  refine .of_passed fun f f' h => ?_
  obtain ⟨bytes, rest, hlen, hahead, rfl⟩ := skip_eq_past h
  exact ⟨_, ⟨bytes, hlen, rfl⟩, .fixed hahead⟩

theorem parses_word_bind {α : Type} [Word α] {k : α → Walk} {P : α → List Piece → Prop}
    (h : ∀ x, Parses r (k x) (P x)) :
    Parses r (Walk.word >>= k) fun xs => ∃ x ys, P x ys ∧ xs = .fixed (Word.bytes x) :: ys := by
  intro f f' hrun
  obtain ⟨x, f₁, hword, hk⟩ := bind_eq_ok.mp hrun
  obtain ⟨rest, hahead, rfl⟩ := word_eq_past hword
  obtain ⟨ys, ys', hys, htaken, hpassed, hall⟩ := h x hk
  refine ⟨_, .fixed (Word.bytes x) :: ys', ⟨x, ys, hys, rfl⟩, .cons (.self _) htaken,
    (Passed.fixed hahead).append hpassed, fun hnotices => ?_⟩
  rw [hall hnotices]

/-! ## Slots -/

/-- Put the index of the text in place of the word that ends `back` bytes before. -/
def replace (back : Nat) (text : String) (add : Tally → Tally) : Walk := do
  Walk.amend back (← Edit.onPool (Pool.internUtf8 text))
  Edit.count add

theorem replace_cases (back : Nat) (text : String) (add : Tally → Tally) (f : Focus Tape) :
    (∃ j f', replace back text add f = .ok () f' ∧
      Pool.internUtf8 text f.pool = .ok j f'.pool ∧ f'.tally = add f.tally ∧
      f'.notices = f.notices ∧
      f'.item = ⟨f.item.passed.take back ++
        (Word.bytes j).reverse ++ f.item.passed.drop (back + 2), f.item.ahead⟩) ∨
    (∃ n, replace back text add f = .error (.poolOverflow n) f) ∧
      Pool.maxSlots < f.pool.slots + (f.pool.lacking {text}).card := by
  cases hintern : Pool.internUtf8 text f.pool with
  | ok j q =>
    refine .inl ⟨j, _, bind_of_ok (Edit.onPool_of_ok hintern), rfl, rfl, rfl, ?_⟩
    rw [List.append_assoc, ← List.reverseAux_eq]
    rfl
  | error fault q =>
    obtain ⟨rfl, n, rfl⟩ := Pool.intern_eq_error hintern
    have hpool : (Edit.onPool (Pool.internUtf8 text) : Edit Tape _) f
        = .error (.poolOverflow n) f := by
      simp only [Edit.onPool, hintern]
    exact .inr ⟨⟨n, bind_of_error hpool⟩, Pool.full_of_internUtf8 hintern⟩

section

variable {s : Slot} {text : String} {add : Tally → Tally}

/-- Behind its index, a slot with a new text is replaced. -/
theorem ends_of_replace (hahead : f.item.ahead = Word.bytes s.index ++ rest)
    (hs : s.Resolves f.pool) (htext : s.newText? r f.pool = some text)
    (hrun : w f = replace 0 text add (past (Word.bytes s.index) rest f)) :
    Ends r w [.slot s] f := by
  obtain ⟨j, g, hok, hintern, -, hnotices, hitem⟩ | ⟨⟨n, herror⟩, hfull⟩ :=
    replace_cases 0 text add (past (Word.bytes s.index) rest f)
  · refine .inl ⟨g, hrun.trans hok, .replaced hahead hs htext hintern ?_ hnotices⟩
    have hlen : (Word.bytes s.index).reverse.length = 0 + 2 :=
      (List.length_reverse).trans (Word.length_bytes s.index)
    rw [hitem]
    simp only [past, List.take_zero, List.nil_append, List.drop_left' hlen]
  · exact .inr ⟨⟨n, _, hrun.trans herror⟩, .of_newText? htext hfull⟩

/-- Behind its index, a slot that stays is left alone. -/
theorem ends_of_kept (hahead : f.item.ahead = Word.bytes s.index ++ rest)
    (hs : s.Resolves f.pool) (hnone : s.newText? r f.pool = none)
    (hrun : w f = .ok () (past (Word.bytes s.index) rest f)) : Ends r w [.slot s] f :=
  .inl ⟨_, hrun, .kept (x := .slot s) hahead hs hnone⟩

/-- Behind its index, a slot is replaced if its text is another one afterwards. -/
theorem ends_of_renamed {text' : String} (hahead : f.item.ahead = Word.bytes s.index ++ rest)
    (hs : s.Resolves f.pool)
    (hnew? : s.newText? r f.pool = if text' = text then none else some text')
    (hrun : w f = (if text' ≠ text then replace 0 text' add else pure ())
      (past (Word.bytes s.index) rest f)) : Ends r w [.slot s] f := by
  by_cases hsame : text' = text
  · rw [if_neg (not_not_intro hsame)] at hrun
    exact ends_of_kept hahead hs (by rw [hnew?, if_pos hsame]) hrun
  · rw [if_pos hsame] at hrun
    exact ends_of_replace hahead hs (by rw [hnew?, if_neg hsame]) hrun

end

/-! Each walk over a slot is told by what it does behind the index. -/

theorem ends_descriptorSlot {i : UInt16} (hahead : f.item.ahead = Word.bytes i ++ rest)
    (hs : (Slot.descriptor i).Resolves f.pool) :
    Ends r (Walk.descriptorSlot r) [.slot (.descriptor i)] f := by
  obtain ⟨text, htext, hcloses⟩ := id hs
  obtain ⟨text', hnew⟩ := r.descriptor_of_closes hcloses
  have hnew? : (Slot.descriptor i).newText? r f.pool
      = if text' = text then none else some text' := by
    simp [Slot.newText?, htext, hnew, changed?, Except.toOption]
  have hrun : Walk.descriptorSlot r f
      = (if text' ≠ text then replace 0 text' Tally.addAttribute else pure ())
        (past (Word.bytes i) rest f) := by
    rw [Walk.descriptorSlot, bind_of_ok (word_of_ahead hahead), Edit.look_bind htext, hnew]
    rfl
  exact ends_of_renamed hahead hs hnew? hrun

theorem ends_signatureSlot {kind : SymbolKind} {i : UInt16}
    (hahead : f.item.ahead = Word.bytes i ++ rest)
    (hs : (Slot.signature kind i).Resolves f.pool) :
    Ends r (Walk.signatureSlot r kind) [.slot (.signature kind i)] f := by
  obtain ⟨text, htext⟩ := id hs
  have hnew? : (Slot.signature kind i).newText? r f.pool
      = changed? (r.signature kind text) text := by
    simp [Slot.newText?, htext, Except.toOption]
  cases hnew : r.signature kind text with
  | error flaw =>
    have hrun : Walk.signatureSlot r kind f
        = Edit.note .signatureText (past (Word.bytes i) rest f) := by
      rw [Walk.signatureSlot, bind_of_ok (word_of_ahead hahead), Edit.look_bind htext, hnew]
    rw [hnew] at hnew?
    exact .inl ⟨_, hrun, (Passed.kept (x := .slot (.signature kind i)) hahead hs hnew?).note _⟩
  | ok text' =>
    have hrun : Walk.signatureSlot r kind f
        = (if text' ≠ text then replace 0 text' Tally.addSignature else pure ())
          (past (Word.bytes i) rest f) := by
      rewrite [Walk.signatureSlot, bind_of_ok (word_of_ahead hahead), Edit.look_bind htext, hnew]
      rfl
    rw [hnew] at hnew?
    exact ends_of_renamed hahead hs hnew? hrun

theorem passes_descriptorSlot (i : UInt16) :
    Passes r (Walk.descriptorSlot r) [.slot (.descriptor i)] := by
  intro f rest hahead hresolves
  exact ends_descriptorSlot (by simpa [Piece.bytes, Slot.index] using hahead)
    (hresolves _ (List.mem_singleton_self _))

theorem parses_descriptorSlot :
    Parses r (Walk.descriptorSlot r) fun xs => ∃ i, xs = [.slot (.descriptor i)] := by
  refine .of_passed fun f f' h => ?_
  obtain ⟨i, f₁, hword, hrest⟩ := bind_eq_ok.mp h
  obtain ⟨rest, hahead, rfl⟩ := word_eq_past hword
  obtain ⟨text, _, hlook, hrest⟩ := bind_eq_ok.mp hrest
  obtain ⟨htext, rfl⟩ := Edit.look_eq_ok.mp hlook
  obtain ⟨text', _, hnew, -⟩ := bind_eq_ok.mp hrest
  have hcloses := r.closes_of_descriptor (Edit.ofFlaw_eq_ok.mp hnew).1
  exact ⟨_, ⟨i, rfl⟩, (ends_descriptorSlot hahead ⟨text, htext, hcloses⟩).passed_of_ok h⟩

theorem passes_signatureSlot (kind : SymbolKind) (i : UInt16) :
    Passes r (Walk.signatureSlot r kind) [.slot (.signature kind i)] := by
  intro f rest hahead hresolves
  exact ends_signatureSlot (by simpa [Piece.bytes, Slot.index] using hahead)
    (hresolves _ (List.mem_singleton_self _))

theorem parses_signatureSlot (kind : SymbolKind) :
    Parses r (Walk.signatureSlot r kind) fun xs => ∃ i, xs = [.slot (.signature kind i)] := by
  refine .of_passed fun f f' h => ?_
  obtain ⟨i, f₁, hword, hrest⟩ := bind_eq_ok.mp h
  obtain ⟨rest, hahead, rfl⟩ := word_eq_past hword
  obtain ⟨text, _, hlook, -⟩ := bind_eq_ok.mp hrest
  obtain ⟨htext, rfl⟩ := Edit.look_eq_ok.mp hlook
  exact ⟨_, ⟨i, rfl⟩, (ends_signatureSlot hahead ⟨text, htext⟩).passed_of_ok h⟩

/-! ## Inner classes -/

/-- An inner class, which is one slot between words that stay. -/
def innerClassPieces (inner outer name access : UInt16) : List Piece :=
  [.fixed (Word.bytes inner), .fixed (Word.bytes outer), .slot (.simpleName inner name),
    .fixed (Word.bytes access)]

section

variable {inner outer name access : UInt16}

/-- The focus behind the first two words. -/
def pastOuter (inner outer name access : UInt16) (rest : List UInt8) (f : Focus Tape) :
    Focus Tape :=
  past (Word.bytes outer) (Word.bytes name ++ (Word.bytes access ++ rest))
    (past (Word.bytes inner)
      (Word.bytes outer ++ (Word.bytes name ++ (Word.bytes access ++ rest))) f)

/-- The focus behind the access bits. -/
def pastInnerClass (inner outer name access : UInt16) (rest : List UInt8) (f : Focus Tape) :
    Focus Tape :=
  past (Word.bytes access) rest
    (past (Word.bytes name) (Word.bytes access ++ rest) (pastOuter inner outer name access rest f))

section

variable (hahead : f.item.ahead = Word.bytes inner ++ (Word.bytes outer ++ (Word.bytes name ++
  (Word.bytes access ++ rest))))
include hahead

theorem passed_pastOuter : Passed r [.fixed (Word.bytes inner), .fixed (Word.bytes outer)] f
    (pastOuter inner outer name access rest f) :=
  (Passed.fixed hahead).append (Passed.fixed rfl)

theorem passed_innerClass_kept (hs : (Slot.simpleName inner name).Resolves f.pool)
    (hnone : (Slot.simpleName inner name).newText? r f.pool = none) :
    Passed r (innerClassPieces inner outer name access) f
      (pastInnerClass inner outer name access rest f) := by
  have hname : Passed r [.slot (.simpleName inner name)] (pastOuter inner outer name access rest f)
      (past (Word.bytes name) (Word.bytes access ++ rest) _) :=
    .kept (x := .slot (.simpleName inner name)) rfl hs hnone
  exact (passed_pastOuter hahead).append (hname.append (.fixed rfl))

/-- The simple name is replaced when the access bits are passed already. -/
theorem passed_innerClass_replaced {text : String} {add : Tally → Tally}
    (hs : (Slot.simpleName inner name).Resolves f.pool)
    (htext : (Slot.simpleName inner name).newText? r f.pool = some text)
    (h : replace 2 text add (pastInnerClass inner outer name access rest f) = .ok () f') :
    Passed r (innerClassPieces inner outer name access) f f' := by
  obtain ⟨j, g, hok, hintern, -, hnotices, hitem⟩ | ⟨⟨n, herror⟩, -⟩ :=
    replace_cases 2 text add (pastInnerClass inner outer name access rest f)
  case inr => cases h.symm.trans herror
  cases h.symm.trans hok
  -- the name counts as replaced before the access bits are passed
  let f₂ := pastOuter inner outer name access rest f
  let f₃ : Focus Tape :=
    ⟨⟨(Word.bytes j).reverse ++ f₂.item.passed, Word.bytes access ++ rest⟩, f'.pool, f'.tally,
      f'.notices⟩
  have hname : Passed r [.slot (.simpleName inner name)] f₂ f₃ :=
    .replaced rfl hs htext hintern rfl hnotices
  have haccess : f' = past (Word.bytes access) rest f₃ := by
    have hlen (x : UInt16) : (Word.bytes x).reverse.length = 2 :=
      (List.length_reverse).trans (Word.length_bytes x)
    obtain ⟨item, pool, tally, notices⟩ := f'
    refine congrArg (fun item => Focus.mk item pool tally notices) (hitem.trans ?_)
    simp only [pastInnerClass, past, f₃, f₂, List.take_left' (hlen access)]
    rw [← List.drop_drop, List.drop_left' (hlen access), List.drop_left' (hlen name),
      List.append_assoc]
  rw [haccess]
  exact (passed_pastOuter hahead).append (hname.append (.fixed rfl))

theorem innerClass_of_ahead : Walk.innerClass r f = (if inner ≠ 0 && name ≠ 0 then do
      let old ← Edit.look (·.className inner)
      let simple ← Edit.look (·.utf8 name)
      match Walk.newSimpleName? old (r.className old) simple with
      | some name => replace 2 name Tally.addAttribute
      | none => pure ()
      else pure ()) (pastInnerClass inner outer name access rest f) := by
  have hlen (x : UInt16) : (Word.bytes x).length = 2 := Word.length_bytes x
  have houter : Walk.skip 2 (past (Word.bytes inner) (Word.bytes outer ++ (Word.bytes name ++
      (Word.bytes access ++ rest))) f) = .ok () (pastOuter inner outer name access rest f) :=
    skip_of_ahead rfl (hlen outer)
  have hname : (Walk.word : Edit Tape UInt16) (pastOuter inner outer name access rest f)
      = .ok name (past (Word.bytes name) (Word.bytes access ++ rest) _) := word_of_ahead rfl
  have haccess : Walk.skip 2 (past (Word.bytes name) (Word.bytes access ++ rest)
      (pastOuter inner outer name access rest f))
      = .ok () (pastInnerClass inner outer name access rest f) := skip_of_ahead rfl (hlen access)
  rw [Walk.innerClass, bind_of_ok (word_of_ahead hahead), bind_of_ok houter]
  rw [bind_of_ok hname, bind_of_ok haccess]
  rfl

theorem ends_innerClass (hs : (Slot.simpleName inner name).Resolves f.pool) :
    Ends r (Walk.innerClass r) (innerClassPieces inner outer name access) f := by
  have hrun := innerClass_of_ahead (r := r) hahead
  have hkept (hnone : (Slot.simpleName inner name).newText? r f.pool = none)
      (hw : Walk.innerClass r f = .ok () (pastInnerClass inner outer name access rest f)) :
      Ends r (Walk.innerClass r) (innerClassPieces inner outer name access) f :=
    .inl ⟨_, hw, passed_innerClass_kept hahead hs hnone⟩
  by_cases hne : inner ≠ 0 ∧ name ≠ 0
  case neg =>
    have hfalse : (decide (inner ≠ 0) && decide (name ≠ 0)) = false := by simpa using hne
    rw [hfalse] at hrun
    exact hkept (by simp only [Slot.newText?, hfalse, Bool.false_eq_true, if_false]) hrun
  case pos =>
    have htrue : (decide (inner ≠ 0) && decide (name ≠ 0)) = true := by simpa using hne
    obtain ⟨old, simple, hold, hsimple⟩ := hs hne.1 hne.2
    have hnew? : (Slot.simpleName inner name).newText? r f.pool
        = Walk.newSimpleName? old (r.className old) simple := by
      simp only [Slot.newText?, htrue, if_true, hold, hsimple]
      rfl
    rw [htrue, if_pos rfl, Edit.look_bind hold, Edit.look_bind hsimple, ← hnew?] at hrun
    cases htext : (Slot.simpleName inner name).newText? r f.pool with
    | none =>
      rw [htext] at hrun
      exact hkept htext hrun
    | some text =>
      rw [htext] at hrun
      obtain ⟨j, g, hok, -⟩ | ⟨⟨n, herror⟩, hfull⟩ :=
        replace_cases 2 text Tally.addAttribute (pastInnerClass inner outer name access rest f)
      · exact .inl ⟨g, hrun.trans hok, passed_innerClass_replaced hahead hs htext hok⟩
      · have hname : Overfills r [.slot (.simpleName inner name)] f.pool := .of_newText? htext hfull
        exact .inr ⟨⟨n, _, hrun.trans herror⟩, hname.mono (by simp [innerClassPieces])⟩

end

theorem passes_innerClass (inner outer name access : UInt16) :
    Passes r (Walk.innerClass r) (innerClassPieces inner outer name access) := by
  intro f rest hahead hresolves
  have hahead : f.item.ahead = Word.bytes inner ++ (Word.bytes outer ++ (Word.bytes name ++
      (Word.bytes access ++ rest))) := by
    simpa [innerClassPieces, Piece.bytes, Slot.index] using hahead
  exact ends_innerClass hahead (hresolves (.slot (.simpleName inner name))
    (by simp [innerClassPieces]))

theorem parses_innerClass : Parses r (Walk.innerClass r) fun xs =>
    ∃ inner outer name access, xs = innerClassPieces inner outer name access := by
  refine .of_passed fun f f' h => ?_
  obtain ⟨inner, _, hword, hrest⟩ := bind_eq_ok.mp h
  obtain ⟨rest₁, hahead, rfl⟩ := word_eq_past hword
  obtain ⟨⟨⟩, _, hskip, hrest⟩ := bind_eq_ok.mp hrest
  obtain ⟨_, rest₂, houter, hahead₁, rfl⟩ := skip_eq_past hskip
  obtain ⟨outer, rfl⟩ := exists_word (α := UInt16) houter
  obtain ⟨name, _, hword, hrest⟩ := bind_eq_ok.mp hrest
  obtain ⟨rest₃, hahead₂, rfl⟩ := word_eq_past hword
  obtain ⟨⟨⟩, _, hskip, hrest⟩ := bind_eq_ok.mp hrest
  obtain ⟨_, rest, haccess, hahead₃, rfl⟩ := skip_eq_past hskip
  obtain ⟨access, rfl⟩ := exists_word (α := UInt16) haccess
  obtain rfl : rest₁ = _ := hahead₁
  obtain rfl : rest₂ = _ := hahead₂
  obtain rfl : rest₃ = _ := hahead₃
  refine ⟨_, ⟨inner, outer, name, access, rfl⟩, (ends_innerClass hahead ?_).passed_of_ok h⟩
  intro hinner hname
  have htrue : (decide (inner ≠ 0) && decide (name ≠ 0)) = true := by simp [hinner, hname]
  rw [htrue, if_pos rfl] at hrest
  obtain ⟨old, _, hlook, hrest⟩ := bind_eq_ok.mp hrest
  obtain ⟨hold, rfl⟩ := Edit.look_eq_ok.mp hlook
  obtain ⟨simple, _, hlook, -⟩ := bind_eq_ok.mp hrest
  obtain ⟨hsimple, -⟩ := Edit.look_eq_ok.mp hlook
  exact ⟨old, simple, hold, hsimple⟩

end

end Relabel.Layout
