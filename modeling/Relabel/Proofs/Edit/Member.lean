import Relabel.Edit.Member
import Relabel.Proofs.Edit.Onward
import Relabel.Proofs.Edit.Reference

/-!
# Renaming members and attributes

A declared member gets its new name under the old name of its class. Attributes only
intern what they need, so the entries that are there and the names of attributes stay;
the method of an `EnclosingMethod` payload is renamed once, in a pass of its own.
-/

namespace Relabel

/-- Attributes with the same name index. -/
abbrev Attribute.SameName : Attribute → Attribute → Prop := Order.Preimage Attribute.name Eq

/-- Members with the same indices of name and descriptor. -/
abbrev Member.SameIndices : Member → Member → Prop :=
  Order.Preimage (fun m => (m.name, m.descriptor)) Eq

namespace Edit

variable {r : Renaming} {kind : SymbolKind} {owner : String}

/-! ## Frames -/

section

variable {R : Pool → Pool → Prop} [IsPreorder Pool R]

theorem stays_renameAttribute (hR : Pool.Interns R) :
    Stays Attribute.SameName R (renameAttribute r kind) :=
  .bind within_item fun _ => .bind (within_look _) fun name =>
    stays_inside ((Walk.walks_onward hR r).payload maxNesting kind name) fun _ _ _ => rfl

theorem stays_enclosingMethodPayload_onward (hR : Pool.Interns R) :
    Stays (Tape.Onward 0) R (enclosingMethodPayload r) := by
  refine .bind within_item fun t => .ite (.throw_bind _ _) ?_
  refine Walk.stays_word_bind fun owner : UInt16 => Walk.stays_word_bind fun method : UInt16 => ?_
  refine .ite (.bind (within_look _) fun owner => .bind (within_look _) fun pair => ?_) (.pure _)
  refine .bind (stays_renamedPair? hR) ?_
  intro o
  split
  · exact .bind (Walk.stays_onward (Walk.stays_amend (by decide))) fun _ => stays_count _
  · exact .pure _

theorem stays_renameEnclosingMethod (hR : Pool.Interns R) :
    Stays Attribute.SameName R (renameEnclosingMethod r) :=
  .bind within_item fun _ => .bind (within_look _) fun _ =>
    .ite (stays_inside (stays_enclosingMethodPayload_onward hR) fun _ _ _ => rfl) (.pure _)

theorem stays_memberAttributes (hR : Pool.Interns R) (r : Renaming) (kind : SymbolKind) :
    Stays Member.SameIndices R (inside (·.attributes)
      (fun attributes m => { m with attributes }) (each (renameAttribute r kind))) :=
  stays_inside (stays_each (stays_renameAttribute hR)) fun _ _ _ => rfl

theorem stays_renameMember (hR : Pool.Interns R) :
    Stays Anything R (renameMember r kind owner) := by
  refine .bind within_item fun m => .bind (within_look _) fun name => ?_
  refine .bind (within_look _) fun descriptor => .bind (within_ofFlaw _) fun descriptor' => ?_
  refine .bind (stays_renameText hR fun _ _ => trivial) fun _ => ?_
  refine .bind (stays_renameText hR fun _ _ => trivial) fun _ => ?_
  have hattributes := (stays_memberAttributes hR r kind).anything
  exact .ite (.bind (stays_count _) fun _ => hattributes) hattributes

end

/-- What a run over attributes, or over members, does to each of them. -/
theorem renameAttributes_takes {f f' : Focus (Array Attribute)}
    (h : each (renameAttribute r kind) f = .ok () f') :
    Pool.Grows f.pool f'.pool ∧
      Pointwise (Takes Pool.Grows (renameAttribute r kind) f.pool f'.pool f'.notices)
        f.item f'.item :=
  each_eq_ok (stays_renameAttribute Pool.interns_frame).anything h

theorem renameEnclosingMethods_takes {f f' : Focus (Array Attribute)}
    (h : each (renameEnclosingMethod r) f = .ok () f') :
    Pool.Grows f.pool f'.pool ∧
      Pointwise (Takes Pool.Grows (renameEnclosingMethod r) f.pool f'.pool f'.notices)
        f.item f'.item :=
  each_eq_ok (stays_renameEnclosingMethod Pool.interns_frame).anything h

theorem renameMembers_takes {f f' : Focus (Array Member)}
    (h : each (renameMember r kind owner) f = .ok () f') :
    Pool.Grows f.pool f'.pool ∧
      Pointwise (Takes Pool.Grows (renameMember r kind owner) f.pool f'.pool f'.notices)
        f.item f'.item :=
  each_eq_ok (stays_renameMember Pool.interns_frame) h

/-! ## Names afterwards -/

/-- The steps of renaming a member: from `f` to `named` it gets its new name, up to `described` its
new descriptor, up to `counted` it is counted if it changed, and then its attributes are renamed. -/
structure MemberSteps (r : Renaming) (kind : SymbolKind)
    (owner name descriptor descriptor' : String) (f named described counted f' : Focus Member) :
    Prop where
  old_name : f.pool.utf8 f.item.name = .ok name
  old_descriptor : f.pool.utf8 f.item.descriptor = .ok descriptor
  new_descriptor : r.descriptor descriptor = .ok descriptor'
  names : renameText (fun index m => { m with name := index }) name
    (declaredName r kind owner name descriptor) f = .ok () named
  describes : renameText (fun index m => { m with descriptor := index }) descriptor descriptor'
    named = .ok () described
  counts : counted = if declaredName r kind owner name descriptor ≠ name ∨ descriptor' ≠ descriptor
    then { described with tally := described.tally.addMember } else described
  attributes : inside (·.attributes) (fun attributes m => { m with attributes })
    (each (renameAttribute r kind)) counted = .ok () f'

theorem renameMember_steps {f f' : Focus Member} (h : renameMember r kind owner f = .ok () f') :
    ∃ name descriptor descriptor' named described counted,
      MemberSteps r kind owner name descriptor descriptor' f named described counted f' := by
  obtain ⟨_, _, hm, h⟩ := bind_eq_ok.mp h
  obtain ⟨rfl, rfl⟩ := item_eq_ok.mp hm
  obtain ⟨name, _, hlook, h⟩ := bind_eq_ok.mp h
  obtain ⟨hname, rfl⟩ := look_eq_ok.mp hlook
  obtain ⟨descriptor, _, hlook, h⟩ := bind_eq_ok.mp h
  obtain ⟨hdescriptor, rfl⟩ := look_eq_ok.mp hlook
  obtain ⟨descriptor', _, hparse, h⟩ := bind_eq_ok.mp h
  obtain ⟨hd, rfl⟩ := ofFlaw_eq_ok.mp hparse
  obtain ⟨⟨⟩, named, hnamed, h⟩ := bind_eq_ok.mp h
  obtain ⟨⟨⟩, described, hdescribed, h⟩ := bind_eq_ok.mp h
  refine ⟨name, descriptor, descriptor', named, described, _, hname, hdescriptor, hd, hnamed,
    hdescribed, rfl, ?_⟩
  split at h
  case isTrue hchanged =>
    rw [if_pos hchanged]
    exact h
  case isFalse hkept =>
    rw [if_neg hkept]
    exact h

namespace MemberSteps

variable {name descriptor descriptor' : String} {f named described counted f' : Focus Member}
  (h : MemberSteps r kind owner name descriptor descriptor' f named described counted f')
include h

theorem counted_eq : counted.item = described.item ∧ counted.pool = described.pool := by
  rw [h.counts]
  split <;> exact ⟨rfl, rfl⟩

theorem renameMember_eq : renameMember r kind owner f = .ok () f' := by
  have hlast := h.attributes
  rw [h.counts] at hlast
  rw [renameMember, item_bind, look_bind h.old_name,
    look_bind h.old_descriptor]
  dsimp only
  rw [bind_of_ok (ofFlaw_eq_ok.mpr ⟨h.new_descriptor, rfl⟩), bind_of_ok h.names,
    bind_of_ok h.describes]
  split
  case isTrue hchanged =>
    rw [if_pos hchanged] at hlast
    exact hlast
  case isFalse hkept =>
    rw [if_neg hkept] at hlast
    exact hlast

variable (hp : f.pool.Sound)
include hp

theorem name_renamed : f.pool.Grows named.pool ∧ ∃ j, named.item = { f.item with name := j } ∧
    named.pool.utf8 j = .ok (declaredName r kind owner name descriptor) :=
  renameText_eq_ok (m := f.item.name) hp h.old_name rfl h.names

theorem named_sound : named.pool.Sound := (h.name_renamed hp).1.sound hp

/-- The descriptor is still the old one when its turn comes. -/
theorem named_descriptor : named.pool.utf8 named.item.descriptor = .ok descriptor := by
  obtain ⟨hgrows, j, hitem, -⟩ := h.name_renamed hp
  rw [hitem]
  exact hgrows.utf8 h.old_descriptor

theorem descriptor_renamed : named.pool.Grows described.pool ∧
    ∃ k, described.item = { named.item with descriptor := k } ∧
      described.pool.utf8 k = .ok descriptor' :=
  renameText_eq_ok (m := named.item.descriptor) (h.named_sound hp) (h.named_descriptor hp) rfl
    h.describes

end MemberSteps

/-- A declared member gets its new name and descriptor. -/
theorem renameMember_eq_ok {f f' : Focus Member} (hp : f.pool.Sound)
    (h : renameMember r kind owner f = .ok () f') :
    ∃ name descriptor descriptor', f.pool.utf8 f.item.name = .ok name ∧
      f.pool.utf8 f.item.descriptor = .ok descriptor ∧ r.descriptor descriptor = .ok descriptor' ∧
      f'.pool.utf8 f'.item.name = .ok (declaredName r kind owner name descriptor) ∧
      f'.pool.utf8 f'.item.descriptor = .ok descriptor' := by
  obtain ⟨name, descriptor, descriptor', named, described, counted, hsteps⟩ := renameMember_steps h
  refine ⟨name, descriptor, descriptor', hsteps.old_name, hsteps.old_descriptor,
    hsteps.new_descriptor, ?_⟩
  obtain ⟨hgrows₁, j, hitem₁, hj⟩ := hsteps.name_renamed hp
  obtain ⟨hgrows₂, k, hitem₂, hk⟩ := hsteps.descriptor_renamed hp
  obtain ⟨hitem₃, hpool₃⟩ := hsteps.counted_eq
  have hlast : Focus.Related Member.SameIndices Pool.Grows counted f' :=
    (stays_memberAttributes Pool.interns_frame r kind).ok hsteps.attributes
  have hgrows₃ : described.pool.Grows f'.pool := hpool₃ ▸ hlast.pool
  obtain ⟨hname', hdescriptor'⟩ := Prod.mk.inj (hlast.item : (_, _) = (_, _))
  rw [← hname', ← hdescriptor', hitem₃, hitem₂, hitem₁]
  exact ⟨(hgrows₂.trans hgrows₃).utf8 hj, hgrows₃.utf8 hk⟩

/-- An attribute that is renamed has a name, and its payload is walked over. -/
theorem renameAttribute_inside {f f' : Focus Attribute} (h : renameAttribute r kind f = .ok () f') :
    ∃ name, f.pool.utf8 f.item.name = .ok name ∧
      inside (fun a => Tape.start a.payload) (fun t a => { a with payload := t.bytes })
        (Walk.payload r maxNesting kind name) f = .ok () f' := by
  rw [renameAttribute, item_bind] at h
  obtain ⟨name, _, hlook, h⟩ := bind_eq_ok.mp h
  obtain ⟨hname, rfl⟩ := look_eq_ok.mp hlook
  exact ⟨name, hname, h⟩

/-- The payload of an `EnclosingMethod` attribute is walked over, and any other attribute is left
alone. -/
theorem renameEnclosingMethod_cases {f f' : Focus Attribute}
    (h : renameEnclosingMethod r f = .ok () f') :
    ∃ name, f.pool.utf8 f.item.name = .ok name ∧
      (name = AttributeName.enclosingMethod ∧
          inside (fun a => Tape.start a.payload) (fun t a => { a with payload := t.bytes })
            (enclosingMethodPayload r) f = .ok () f' ∨
        name ≠ AttributeName.enclosingMethod ∧ f' = f) := by
  rw [renameEnclosingMethod, item_bind] at h
  obtain ⟨name, _, hlook, h⟩ := bind_eq_ok.mp h
  obtain ⟨hname, rfl⟩ := look_eq_ok.mp hlook
  refine ⟨name, hname, ?_⟩
  split at h
  case isTrue heq => exact .inl ⟨heq, h⟩
  case isFalse hne =>
    cases h
    exact .inr ⟨hne, rfl⟩

theorem renameEnclosingMethod_inside {f f' : Focus Attribute}
    (hname : f.pool.utf8 f.item.name = .ok AttributeName.enclosingMethod)
    (h : renameEnclosingMethod r f = .ok () f') :
    inside (fun a => Tape.start a.payload) (fun t a => { a with payload := t.bytes })
      (enclosingMethodPayload r) f = .ok () f' := by
  obtain ⟨name, hname', ⟨-, hrun⟩ | ⟨hne, -⟩⟩ := renameEnclosingMethod_cases h
  · exact hrun
  · exact absurd (Except.ok.inj (hname'.symm.trans hname)) hne

/-- If the walk over an enclosing method succeeds, there are two words. -/
theorem exists_words_of_enclosingMethodPayload {f f' : Focus Tape}
    (h : enclosingMethodPayload r f = .ok () f') :
    ∃ j m : UInt16, f.item.ahead = Word.bytes j ++ Word.bytes m := by
  obtain ⟨t, _, ht, h⟩ := bind_eq_ok.mp h
  obtain ⟨rfl, rfl⟩ := item_eq_ok.mp ht
  dsimp only at h
  split at h
  case isTrue => exact absurd h throw_ne_ok
  case isFalse hsize =>
    have hlen : f.item.ahead.length = 4 := Classical.not_not.mp hsize
    obtain ⟨j, m, hwords, -⟩ := Pool.exists_words_iff (P := fun _ _ => True).mpr ⟨hlen, trivial⟩
    exact ⟨j, m, hwords⟩

/-- Behind the two words of the payload, the method is looked up unless its index is 0. -/
theorem enclosingMethodPayload_of_words {f : Focus Tape} {j m : UInt16}
    (hitem : f.item = Tape.start (Word.bytes j ++ Word.bytes m)) :
    enclosingMethodPayload r f = (if m ≠ 0 then do
        let ownerName ← look (·.className j)
        let (name, descriptor) ← look (·.nameAndType m)
        if let some method ← renamedPair? r name descriptor (r.methodName ownerName name descriptor)
        then
          Walk.amend 0 method
          count Tally.addEnclosingMethod
      else pure () : Walk)
      { f with item := ⟨(Word.bytes m).reverse ++ (Word.bytes j).reverse, []⟩ } := by
  have hsize : f.item.ahead.length = 4 := by rw [hitem]; simp [Tape.start, Word.width]
  have hahead : Word.bytes m = Word.bytes m ++ [] := (List.append_nil _).symm
  rw [enclosingMethodPayload, item_bind, if_neg (by simp [hsize])]
  dsimp only
  rewrite [bind_of_ok (Walk.word_of_bytes j hitem), bind_of_ok (Walk.word_of_bytes m
      (congrArg (Tape.mk ((Word.bytes j).reverseAux [])) hahead)), List.reverseAux_eq,
    List.reverseAux_eq, List.append_nil]
  rfl

theorem enclosingMethodPayload_eq_ok {f f' : Focus Tape} (hp : f.pool.Sound) {j m : UInt16}
    {owner name descriptor : String} (hitem : f.item = Tape.start (Word.bytes j ++ Word.bytes m))
    (hm₀ : m ≠ 0) (howner : f.pool.className j = .ok owner)
    (hm : f.pool.nameAndType m = .ok (name, descriptor))
    (h : enclosingMethodPayload r f = .ok () f') :
    ∃ m' descriptor', r.descriptor descriptor = .ok descriptor' ∧
      f'.item.bytes = Word.bytes j ++ Word.bytes m' ∧
      f'.pool.nameAndType m' = .ok (r.methodName owner name descriptor, descriptor') := by
  rw [enclosingMethodPayload_of_words hitem, if_pos hm₀, look_bind howner, look_bind hm] at h
  obtain ⟨o, g₃, hpair, h⟩ := bind_eq_ok.mp h
  obtain ⟨hitem₃, -, descriptor', hd, hm'⟩ :=
    renamedPair?_eq_ok (by exact hp) (by exact hm) hpair
  refine ⟨o.getD m, descriptor', hd, ?_⟩
  cases o with
  | none =>
    cases h
    refine ⟨?_, hm'⟩
    rw [hitem₃]
    simp [Tape.bytes]
  | some m' =>
    obtain ⟨g₄, hpool₄, hitem₄, h⟩ := modifyItem_bind_eq_ok h
    obtain ⟨hpool, hitem'⟩ := count_eq_ok h
    refine ⟨?_, hpool ▸ hpool₄ ▸ hm'⟩
    have hlen : (Word.bytes m).reverse.length = 2 :=
      (List.length_reverse).trans (Word.length_bytes m)
    rw [hitem', hitem₄, hitem₃]
    simp only [List.take_zero, List.nil_append, Nat.zero_add]
    rw [List.drop_left' (by exact hlen)]
    simp [Tape.bytes]

/-- The method of an `EnclosingMethod` attribute gets its new name, the owner keeps its index. -/
theorem renameEnclosingMethod_eq_ok {f f' : Focus Attribute} (hp : f.pool.Sound) {j m : UInt16}
    {owner name descriptor : String}
    (hname : f.pool.utf8 f.item.name = .ok AttributeName.enclosingMethod)
    (hpayload : f.item.payload = Word.bytes j ++ Word.bytes m) (hm₀ : m ≠ 0)
    (howner : f.pool.className j = .ok owner)
    (hm : f.pool.nameAndType m = .ok (name, descriptor))
    (h : renameEnclosingMethod r f = .ok () f') :
    ∃ m' descriptor', r.descriptor descriptor = .ok descriptor' ∧
      f'.item.payload = Word.bytes j ++ Word.bytes m' ∧
      f'.pool.nameAndType m' = .ok (r.methodName owner name descriptor, descriptor') := by
  obtain ⟨t, ht, hitem⟩ := inside_eq_ok (renameEnclosingMethod_inside hname h)
  rw [hitem]
  exact enclosingMethodPayload_eq_ok (by exact hp) (by rw [hpayload]) hm₀ howner hm ht

/-- An attribute that no walk enters stays as it is. -/
theorem renameAttribute_passes {f : Focus Attribute} {name : String}
    (hname : f.pool.utf8 f.item.name = .ok name) (h : name ∉ AttributeName.walked) :
    renameAttribute r kind f = .ok () f := by
  rw [renameAttribute, item_bind, look_bind hname, Walk.payload_of_not_mem r _ _ h]
  rfl

end Edit

end Relabel
