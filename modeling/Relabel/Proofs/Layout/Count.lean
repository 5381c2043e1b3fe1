import Relabel.Proofs.Edit.Count
import Relabel.Proofs.Layout.Slot

/-!
# Walks that count their changes

A walk never goes back, so what it has put in place of the bytes that it passed stays there.
They are the same bytes exactly if nothing was counted: an index is replaced only by that of
another text, which is another index. What holds of single slots in this way holds of
payloads, and so of attributes and members.
-/

namespace Relabel

theorem Word.bytes_inj {α : Type} [Word α] {x y : α} (h : Word.bytes x = Word.bytes y) : x = y := by
  rw [← Word.ofBytes_bytes x, h, Word.ofBytes_bytes]

namespace Layout

variable {r : Renaming} {f g : Focus Tape} {rest : List UInt8}

/-- In a sound pool, what stands in place of the bytes passed from `f` to `g` is the same exactly if
nothing was counted. -/
def Counted (f g : Focus Tape) : Prop :=
  f.pool.Sound → ∃ front back, f.item.ahead = front ++ g.item.ahead ∧ back.length = front.length ∧
    g.item.passed = back.reverse ++ f.item.passed ∧ Focus.Counts (back = front) f g

namespace Counted

theorem refl (f : Focus Tape) : Counted f f := fun hp =>
  ⟨[], [], rfl, rfl, rfl, .of_kept rfl hp⟩

theorem trans {k : Focus Tape} (h : Counted f g) (h' : Counted g k) : Counted f k := by
  intro hp
  obtain ⟨front, back, hahead, hlen, hpassed, hcounts⟩ := h hp
  obtain ⟨front', back', hahead', hlen', hpassed', hcounts'⟩ := h' hcounts.sound
  refine ⟨front ++ front', back ++ back', ?_, ?_, ?_, (hcounts.trans hcounts').congr ⟨?_, ?_⟩⟩
  · rw [hahead, hahead', List.append_assoc]
  · rw [List.length_append, List.length_append, hlen, hlen']
  · rw [hpassed', hpassed, List.reverse_append, List.append_assoc]
  · rintro ⟨rfl, rfl⟩
    rfl
  · exact fun h => List.append_inj h hlen

instance : IsPreorder (Focus Tape) Counted where
  refl := refl
  trans _ _ _ := trans

theorem past {bytes : List UInt8} (hahead : f.item.ahead = bytes ++ rest) :
    Counted f (past bytes rest f) := fun hp =>
  ⟨bytes, bytes, hahead, rfl, rfl, .of_kept rfl hp⟩

theorem note (f : Focus Tape) (n : Notice) : Counted f { f with notices := f.notices.push n } :=
  fun hp => ⟨[], [], rfl, rfl, rfl, .of_kept rfl hp⟩

/-- The index in front of `tail` is replaced by that of another text. -/
theorem replace {i : UInt16} {old text : String} {add : Tally → Tally} (tail : List UInt8)
    (hahead : f.item.ahead = Word.bytes i ++ (tail ++ rest)) (hold : f.pool.utf8 i = .ok old)
    (hne : text ≠ old) (hadd : add ∈ Tally.steps) :
    Counted f (stateOf (replace tail.length text add
      (Layout.past tail rest (Layout.past (Word.bytes i) (tail ++ rest) f)))) := by
  obtain ⟨j, g, hok, hintern, htally, -, hitem⟩ | ⟨⟨n, herror⟩, -⟩ := replace_cases tail.length text add
    (Layout.past tail rest (Layout.past (Word.bytes i) (tail ++ rest) f))
  case inr =>
    rw [herror]
    exact (past hahead).trans (past rfl)
  case inl =>
    rw [hok]
    intro hp
    have hgrow : Pool.Grows f.pool g.pool := (Pool.within_internUtf8 text).ok hintern
    have hindex : j ≠ i := by
      rintro rfl
      have hnew := Pool.utf8_of_internUtf8 (by exact hp) hintern
      exact hne (Except.ok.inj (hnew.symm.trans (hgrow.utf8 hold)))
    refine ⟨Word.bytes i ++ tail, Word.bytes j ++ tail, ?_, ?_, ?_, .of_changed ?_ ?_ ?_⟩
    · simp [stateOf, hahead, hitem, Layout.past]
    · simp [Word.length_bytes]
    · have hlen : tail.reverse.length = tail.length := List.length_reverse
      have hword : (Word.bytes i).reverse.length = 2 :=
        List.length_reverse.trans (Word.length_bytes i)
      simp only [stateOf, hitem, Layout.past, List.take_left' hlen]
      rw [← List.drop_drop, List.drop_left' hlen, List.drop_left' hword, List.reverse_append]
    · intro heq
      exact hindex (Word.bytes_inj (List.append_cancel_right heq))
    · exact hgrow.sound hp
    · change g.tally.total = _
      rw [htally, Tally.total_step hadd]
      rfl

/-- An index is replaced if its text is another one afterwards. -/
theorem renamed {i : UInt16} {old text : String} (add : Tally → Tally)
    (hahead : f.item.ahead = Word.bytes i ++ rest) (hold : f.pool.utf8 i = .ok old)
    (hadd : add ∈ Tally.steps) :
    Counted f (stateOf ((if text ≠ old then Layout.replace 0 text add else pure ())
      (Layout.past (Word.bytes i) rest f))) := by
  split
  case isTrue hne => exact .replace [] hahead hold hne hadd
  case isFalse => exact .past hahead

end Counted

/-! ## Slots and layouts -/

theorem counted_pass (n : Nat) : Within Counted (Walk.pass n) where
  ok f front g h := by
    obtain ⟨rest, -, hahead, rfl⟩ := pass_eq_past h
    exact .past hahead
  error f _ g h := by
    rw [Walk.pass_eq_error h]
    exact .refl f

theorem counted_word {α : Type} [Word α] : Within Counted (Walk.word : Edit Tape α) :=
  .bind (counted_pass _) fun _ => .pure _

theorem counted_skip (n : Nat) : Within Counted (Walk.skip n) :=
  .bind (counted_pass n) fun _ => .pure ()

/-- A walk that begins with an index is told by what it does behind it. -/
theorem counted_word_bind {k : UInt16 → Walk}
    (hk : ∀ ⦃f i rest⦄, f.item.ahead = Word.bytes i ++ rest →
      Counted f (stateOf (k i (past (Word.bytes i) rest f)))) :
    Within Counted (Walk.word >>= k) := by
  refine .of_stateOf fun f => ?_
  cases hword : (Walk.word : Edit Tape UInt16) f with
  | error fault g =>
    rw [bind_of_error hword]
    exact counted_word.error hword
  | ok i g =>
    rw [bind_of_ok hword]
    obtain ⟨rest, hahead, rfl⟩ := word_eq_past hword
    exact hk hahead

theorem counted_descriptorSlot (r : Renaming) : Within Counted (Walk.descriptorSlot r) := by
  refine counted_word_bind fun f i rest hahead => ?_
  cases hlook : f.pool.utf8 i with
  | error fault =>
    rw [Edit.look_bind_error (by exact hlook)]
    exact .past hahead
  | ok text =>
    rw [Edit.look_bind (by exact hlook)]
    cases r.descriptor text with
    | error flaw => exact .past hahead
    | ok text' => exact .renamed Tally.addAttribute hahead hlook (by simp [Tally.steps])

theorem counted_signatureSlot (r : Renaming) (kind : SymbolKind) :
    Within Counted (Walk.signatureSlot r kind) := by
  refine counted_word_bind fun f i rest hahead => ?_
  cases hlook : f.pool.utf8 i with
  | error fault =>
    rw [Edit.look_bind_error (by exact hlook)]
    exact .past hahead
  | ok text =>
    rw [Edit.look_bind (by exact hlook)]
    cases r.signature kind text with
    | error flaw => exact (Counted.past hahead).trans (.note _ _)
    | ok text' => exact .renamed Tally.addSignature hahead hlook (by simp [Tally.steps])

/-- A new simple name is another one than the old. -/
theorem ne_of_newSimpleName? {old new simple name : String}
    (h : Walk.newSimpleName? old new simple = some name) : name ≠ simple := by
  have htail (htail : Walk.newSimpleName?.tail new simple = some name) : name ≠ simple := by
    obtain ⟨behind, -, htail⟩ := Option.bind_eq_some_iff.mp htail
    dsimp only at htail
    split at htail
    case isTrue => cases htail
    case isFalse hne =>
      cases htail
      rintro rfl
      simp at hne
  unfold Walk.newSimpleName? at h
  split at h
  · cases h
  · split at h
    · split at h
      · cases h
      · exact htail h
    · exact htail h

/-- The simple name is replaced when the access bits behind it are passed already. -/
theorem counted_innerClass (r : Renaming) : Within Counted (Walk.innerClass r) := by
  refine .bind counted_word fun inner => .bind (counted_skip 2) fun _ => ?_
  refine counted_word_bind fun f name rest hahead => ?_
  cases hskip : Walk.skip 2 (past (Word.bytes name) rest f) with
  | error fault g =>
    rw [bind_of_error hskip]
    exact (Counted.past hahead).trans ((counted_skip 2).error hskip)
  | ok _ g =>
    obtain ⟨access, rest', hlen, rfl, rfl⟩ := skip_eq_past hskip
    have hpast : Counted f (past access rest' (past (Word.bytes name) (access ++ rest') f)) :=
      (Counted.past hahead).trans (.past rfl)
    rw [bind_of_ok hskip]
    split
    case isFalse => exact hpast
    case isTrue =>
      cases hold : f.pool.className inner with
      | error fault =>
        rw [Edit.look_bind_error (by exact hold)]
        exact hpast
      | ok old =>
        rw [Edit.look_bind (by exact hold)]
        cases hsimple : f.pool.utf8 name with
        | error fault =>
          rw [Edit.look_bind_error (by exact hsimple)]
          exact hpast
        | ok simple =>
          rw [Edit.look_bind (by exact hsimple)]
          cases htext : Walk.newSimpleName? old (r.className old) simple with
          | none => exact hpast
          | some text =>
            change Counted f (stateOf (replace 2 text Tally.addAttribute _))
            rw [← hlen]
            have hne : text ≠ simple := ne_of_newSimpleName? htext
            exact .replace access hahead hsimple hne (by simp [Tally.steps])

/-- The part is put back in place as a whole. -/
theorem counted_within {w : Walk} (hw : Within Counted w) (n : Nat) :
    Within Counted (Walk.within n w) := by
  refine .of_stateOf fun f => ?_
  rw [Walk.within, Edit.item_bind]
  cases hpass : Walk.pass n f with
  | error fault g =>
    rw [bind_of_error hpass]
    exact (counted_pass n).error hpass
  | ok part g =>
    rw [bind_of_ok hpass, Edit.stateOf_inside]
    obtain ⟨rest, -, hahead, rfl⟩ := pass_eq_past hpass
    have hpart := hw.related ⟨Tape.start part, f.pool, f.tally, f.notices⟩
    intro hp
    dsimp only [past]
    generalize stateOf (w ⟨Tape.start part, f.pool, f.tally, f.notices⟩) = g at hpart ⊢
    obtain ⟨front, back, hfront, hlen, hpassed, hcounts⟩ := hpart hp
    obtain rfl : part = front ++ g.item.ahead := hfront
    have hbytes : g.item.bytes = back ++ g.item.ahead := by simp [Tape.bytes, hpassed, Tape.start]
    refine ⟨_, back ++ g.item.ahead, hahead, by simp [hlen], ?_, hcounts.congr ?_⟩
    · rw [hbytes, List.reverseAux_eq]
    · exact (List.append_left_inj _).symm

theorem walks_counted (r : Renaming) : Walk.Walks Counted r where
  note n := .of_stateOf fun f => .note f n
  pass := counted_pass
  descriptorSlot := counted_descriptorSlot r
  signatureSlot := counted_signatureSlot r
  innerClass := counted_innerClass r
  within _ n hw := counted_within hw n

end Layout

/-! ## Attributes and members -/

namespace Edit

variable {r : Renaming} {kind : SymbolKind} {owner : String}

theorem countsChanges_payload {w : Walk} (hw : ∀ ⦃f f' payload⦄, f.item = Tape.start payload →
      w f = .ok () f' → Layout.Counted f f') :
    CountsChanges (inside (fun a : Attribute => Tape.start a.payload)
      (fun t a => { a with payload := t.bytes }) w) := by
  intro f f' hp h
  obtain ⟨t, ht, hitem⟩ := inside_eq_ok h
  obtain ⟨front, back, hfront, hlen, hpassed, hcounts⟩ := hw rfl ht hp
  refine hcounts.congr ?_
  have hfront : f.item.payload = front ++ t.ahead := hfront
  have hpassed : t.passed = back.reverse ++ [] := hpassed
  have hbytes : t.bytes = back ++ t.ahead := by simp [Tape.bytes, hpassed]
  rw [hitem, hbytes]
  constructor
  · rintro rfl
    rw [← hfront]
  · intro heq
    have hpayload : back ++ t.ahead = f.item.payload := congrArg Attribute.payload heq
    exact List.append_cancel_right (hpayload.trans hfront)

theorem countsChanges_renameAttribute : CountsChanges (renameAttribute r kind) := by
  intro f f' hp h
  obtain ⟨name, -, hrun⟩ := renameAttribute_inside h
  exact countsChanges_payload (fun _ _ _ _ h =>
    ((Layout.walks_counted r).payload maxNesting kind name).ok h) hp hrun

theorem counted_enclosingMethodPayload {f f' : Focus Tape} {payload : List UInt8}
    (hitem : f.item = Tape.start payload) (h : enclosingMethodPayload r f = .ok () f') :
    Layout.Counted f f' := by
  obtain ⟨j, m, hwords⟩ := exists_words_of_enclosingMethodPayload h
  rw [hitem] at hwords
  obtain rfl : payload = Word.bytes j ++ Word.bytes m := hwords
  rw [enclosingMethodPayload_of_words hitem] at h
  have hpast : Layout.Counted f
      { f with item := ⟨(Word.bytes m).reverse ++ (Word.bytes j).reverse, []⟩ } := by
    intro hp
    refine ⟨Word.bytes j ++ Word.bytes m, _, ?_, rfl, ?_, .of_kept rfl hp⟩ <;>
      simp [hitem, Tape.start]
  split at h
  case isFalse =>
    cases h
    exact hpast
  case isTrue =>
    intro hp
    obtain ⟨owner, _, hlook, h⟩ := bind_eq_ok.mp h
    obtain ⟨-, rfl⟩ := look_eq_ok.mp hlook
    obtain ⟨⟨name, descriptor⟩, _, hlook, h⟩ := bind_eq_ok.mp h
    obtain ⟨hm, rfl⟩ := look_eq_ok.mp hlook
    obtain ⟨o, g, hpair, hput⟩ := bind_eq_ok.mp h
    obtain ⟨hitem', hgrow, -⟩ := renamedPair?_eq_ok (by exact hp) (by exact hm) hpair
    obtain ⟨rfl, rfl⟩ | ⟨htally, m', rfl, hne⟩ :=
      renamedPair?_cases (by exact hp) (by exact hm) hpair
    · cases hput
      exact hpast hp
    · cases hput
      have hlen : (Word.bytes m).reverse.length = 2 :=
        List.length_reverse.trans (Word.length_bytes m)
      refine ⟨Word.bytes j ++ Word.bytes m, Word.bytes j ++ Word.bytes m', ?_, ?_, ?_,
        .of_changed ?_ (hgrow.sound hp) ?_⟩
      · simp [hitem, hitem', Tape.start]
      · simp [Word.length_bytes]
      · simp [hitem, hitem', Tape.start, List.drop_left' hlen, List.reverseAux_eq, Word.width]
      · intro heq
        exact hne (Word.bytes_inj (List.append_cancel_left heq))
      · change (Tally.addEnclosingMethod g.tally).total = _
        rw [htally]
        exact Tally.total_step (by simp [Tally.steps]) f.tally

theorem countsChanges_renameEnclosingMethod : CountsChanges (renameEnclosingMethod r) := by
  intro f f' hp h
  obtain ⟨name, -, ⟨-, hrun⟩ | ⟨-, rfl⟩⟩ := renameEnclosingMethod_cases h
  · exact countsChanges_payload (fun _ _ _ => counted_enclosingMethodPayload) hp hrun
  · exact .of_kept rfl hp

/-- At most one of the two passes over the attributes of a class changes an attribute. -/
theorem classAttribute_cases {p q q' : Pool} {notices notices' : Array Notice} {a b c : Attribute}
    (h : Takes Pool.Grows (renameEnclosingMethod r) p q notices a b)
    (h' : Takes Pool.Grows (renameAttribute r kind) q q' notices' b c) : b = a ∨ c = b := by
  obtain ⟨f, f', hrun, rfl, rfl, -, hafter, -⟩ := h
  obtain ⟨g, g', hrun', hitem, rfl, hbefore', -, -⟩ := h'
  obtain ⟨name, hname, ⟨rfl, -⟩ | ⟨-, rfl⟩⟩ := renameEnclosingMethod_cases hrun
  case inr => exact .inl rfl
  case inl =>
    have hsame : Focus.Related Attribute.SameName Pool.Grows f f' :=
      (stays_renameEnclosingMethod Pool.interns_frame).ok hrun
    have hindex : f.item.name = f'.item.name := hsame.item
    have hgname : g.pool.utf8 g.item.name = .ok AttributeName.enclosingMethod := by
      rw [hitem, ← hindex]
      exact (hafter.trans hbefore').utf8 (hsame.pool.utf8 hname)
    cases (renameAttribute_passes hgname (by decide)).symm.trans hrun'
    exact .inr hitem

theorem countsChanges_classAttributes : CountsChanges (do
    each (renameEnclosingMethod r)
    each (renameAttribute r kind) : Edit (Array Attribute) Unit) := by
  intro f f' hp h
  obtain ⟨⟨⟩, g, henclosing, hattributes⟩ := bind_eq_ok.mp h
  have hfirst := countsChanges_renameEnclosingMethod.each hp henclosing
  have hsecond := countsChanges_renameAttribute.each hfirst.sound hattributes
  refine (hfirst.trans hsecond).congr ⟨fun ⟨hg, hf'⟩ => hf'.trans hg, fun heq => ?_⟩
  obtain ⟨-, htakes⟩ := renameEnclosingMethods_takes henclosing
  obtain ⟨-, htakes'⟩ := renameAttributes_takes hattributes
  rw [heq] at htakes'
  have hg : g.item = f.item := Pointwise.eq_of_back (fun _ _ h h' =>
    (classAttribute_cases h h').elim id Eq.symm) htakes htakes'
  exact ⟨hg, heq.trans hg.symm⟩

/-- The indices of a member are renamed and counted before its attributes are. -/
theorem renameMember_counts {f f' : Focus Member} (hp : f.pool.Sound)
    (h : renameMember r kind owner f = .ok () f') :
    ∃ g j k, g.item = { f.item with name := j, descriptor := k } ∧
      Focus.Counts (j = f.item.name ∧ k = f.item.descriptor) f g ∧
      (inside (·.attributes) (fun attributes m => { m with attributes })
        (each (renameAttribute r kind)) : Edit Member Unit) g = .ok () f' := by
  obtain ⟨name, descriptor, descriptor', named, described, counted, hsteps⟩ := renameMember_steps h
  have hp₁ := hsteps.named_sound hp
  have hgrows₂ := (hsteps.descriptor_renamed hp).1
  obtain ⟨j, hitem₁, hj, htally₁, hpool₁⟩ :=
    renameText_cases hp hsteps.old_name rfl hsteps.names
  obtain ⟨k, hitem₂, hk, htally₂, hpool₂⟩ :=
    renameText_cases hp₁ (hsteps.named_descriptor hp) rfl hsteps.describes
  have hk : k = f.item.descriptor ↔ descriptor' = descriptor := by rw [← hk, hitem₁]
  have htally : described.tally = f.tally := htally₂.trans htally₁
  refine ⟨counted, j, k, by rw [hsteps.counted_eq.1, hitem₂, hitem₁], ?_, hsteps.attributes⟩
  rw [hsteps.counts]
  split
  case isTrue hchanged =>
    refine .of_changed ?_ (hgrows₂.sound hp₁) ?_
    · rw [hj, hk]
      tauto
    · rw [htally, Tally.total_step (by simp [Tally.steps])]
  case isFalse hkept =>
    simp only [not_or, Classical.not_not] at hkept
    rw [Focus.Counts, (hpool₂ hkept.2).trans (hpool₁ hkept.1), htally]
    exact .of_kept ⟨hj.mpr hkept.1, hk.mpr hkept.2⟩ hp

/-- The indices of a member and its attributes are different parts of it. -/
theorem countsChanges_renameMember : CountsChanges (renameMember r kind owner) := by
  intro f f' hp h
  obtain ⟨g, j, k, hitem, hcounts, hrest⟩ := renameMember_counts hp h
  have hattributes := countsChanges_renameAttribute.each.inside
    (fun (m : Member) xs => ⟨congrArg Member.attributes, by rintro rfl; rfl⟩) hcounts.sound hrest
  obtain ⟨xs, -, hitem'⟩ := inside_eq_ok hrest
  refine (hcounts.trans hattributes).congr ⟨?_, fun heq => ?_⟩
  · rintro ⟨⟨rfl, rfl⟩, hf'⟩
    rw [hf', hitem]
  · rw [hitem, heq] at hitem'
    have hj : f.item.name = j := congrArg Member.name hitem'
    have hk : f.item.descriptor = k := congrArg Member.descriptor hitem'
    subst hj hk
    exact ⟨⟨rfl, rfl⟩, heq.trans hitem.symm⟩

end Edit

end Relabel
