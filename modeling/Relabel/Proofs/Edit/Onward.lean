import Relabel.Proofs.Edit.Payload

/-!
# Walks never go back

A walk passes bytes and replaces some that it has just passed, so a payload keeps its
length, and what is passed before a walk begins is the same afterwards. Since a slot is
amended behind the bytes that were passed for it, the relation on tapes says how many of
the bytes passed so far may still be amended.
-/

namespace Relabel

/-- From `t` to `u` no bytes were passed, and of those passed before at most the last `k` were
replaced. -/
def Tape.Amends (k : Nat) (t u : Tape) : Prop :=
  k ≤ t.passed.length → ∃ back, back.length = k ∧ u = ⟨back ++ t.passed.drop k, t.ahead⟩

instance {k : Nat} : IsPreorder Tape (Tape.Amends k) where
  refl t hk := ⟨t.passed.take k, List.length_take_of_le hk, by rw [List.take_append_drop]⟩
  trans t u v h h' hk := by
    obtain ⟨back, hback, rfl⟩ := h hk
    obtain ⟨back', hback', rfl⟩ := h' (by simp [hback])
    exact ⟨back', hback', by simp only [List.drop_left' hback]⟩

/-- From `t` to `u` some bytes were passed, and of those passed before at most the last `k` were
replaced. -/
def Tape.Onward (k : Nat) (t u : Tape) : Prop :=
  k ≤ t.passed.length → ∃ front back, t.ahead = front ++ u.ahead ∧
    back.length = front.length + k ∧ u.passed = back ++ t.passed.drop k

namespace Tape.Onward

variable {k : Nat} {t u v : Tape}

theorem refl (k : Nat) (t : Tape) : Onward k t t := fun hk =>
  ⟨[], t.passed.take k, rfl, by simp [hk], (List.take_append_drop k _).symm⟩

theorem trans (h : Onward k t u) (h' : Onward k u v) : Onward k t v := by
  intro hk
  obtain ⟨front, back, ht, hlen, hu⟩ := h hk
  obtain ⟨front', back', hu', hlen', hv⟩ := h' (by rw [hu, List.length_append]; omega)
  refine ⟨front ++ front', back' ++ back.drop k, ?_, ?_, ?_⟩
  · rw [ht, hu', List.append_assoc]
  · simp only [List.length_append, List.length_drop]
    omega
  · rw [hv, hu, List.drop_append_of_le_length (by omega), List.append_assoc]

instance : IsPreorder Tape (Onward k) where
  refl := refl k
  trans _ _ _ := trans

theorem length_bytes (h : Onward 0 t u) : u.bytes.length = t.bytes.length := by
  obtain ⟨front, back, ht, hlen, hu⟩ := h (Nat.zero_le _)
  rw [Tape.length_bytes, Tape.length_bytes, ht, hu]
  simp only [List.drop_zero, List.length_append]
  omega

theorem of_amends (h : t.Amends k u) : Onward k t u := by
  intro hk
  obtain ⟨back, hback, rfl⟩ := h hk
  exact ⟨[], back, rfl, by rw [hback, List.length_nil, Nat.zero_add], rfl⟩

/-- The bytes passed before stay in front. -/
theorem bytes_eq (h : Onward 0 t u) : ∃ rest, u.bytes = t.passed.reverse ++ rest := by
  obtain ⟨front, back, -, -, hu⟩ := h (Nat.zero_le _)
  refine ⟨back.reverse ++ u.ahead, ?_⟩
  rw [bytes, hu, List.reverseAux_eq, List.drop_zero, List.reverse_append, List.append_assoc]

end Tape.Onward

namespace Walk

variable {R : Pool → Pool → Prop} [IsPreorder Pool R] {r : Renaming} {k : Nat}

/-! ## Moving over the tape -/

theorem pass_eq_ok {n : Nat} {b : List UInt8} {f f' : Focus Tape} (h : pass n f = .ok b f') :
    b.length = n ∧ f.item.ahead = b ++ f'.item.ahead ∧
      f'.item.passed = b.reverse ++ f.item.passed ∧ f'.pool = f.pool ∧ f'.notices = f.notices := by
  obtain ⟨⟨passed, ahead⟩, pool, tally, notices⟩ := f
  simp only [pass] at h
  split at h
  case isTrue hlen =>
    cases h
    exact ⟨hlen, (List.take_append_drop n ahead).symm, List.reverseAux_eq, rfl, rfl⟩
  case isFalse => cases h

theorem pass_eq_error {n : Nat} {fault : Fault} {f f' : Focus Tape}
    (h : pass n f = .error fault f') : f' = f := by
  obtain ⟨⟨passed, ahead⟩, pool, tally, notices⟩ := f
  simp only [pass] at h
  split at h <;> cases h
  rfl

theorem stays_pass_onward (n : Nat) : Edit.Stays (Tape.Onward k) R (pass n) where
  ok f b f' h := by
    obtain ⟨hlen, hahead, hpassed, hpool, hnotices⟩ := pass_eq_ok h
    refine ⟨?_, hpool ▸ refl_of R _, fun _ => (hnotices ▸ ·)⟩
    intro hk
    refine ⟨b, b.reverse ++ f.item.passed.take k, hahead, ?_, ?_⟩
    · simp [hk]
    · rw [hpassed, List.append_assoc, List.take_append_drop]
  error f _ f' h := by
    rw [pass_eq_error h]
    exact refl_of _ f

/-- What follows may amend the bytes that were passed here. -/
theorem stays_pass_bind {β : Type} {n : Nat} {e : List UInt8 → Edit Tape β}
    (he : ∀ b, Edit.Stays (Tape.Onward (k + n)) R (e b)) :
    Edit.Stays (Tape.Onward k) R (pass n >>= e) := by
  have step {b f f₁ f'} (h : pass n f = .ok b f₁)
      (h' : Focus.Related (Tape.Onward (k + n)) R f₁ f') :
      Focus.Related (Tape.Onward k) R f f' := by
    obtain ⟨hlen, hahead, hpassed, hpool, hnotices⟩ := pass_eq_ok h
    refine ⟨?_, hpool ▸ h'.pool, hnotices ▸ h'.notices⟩
    intro hk
    obtain ⟨front, back, hfront, hback, hpassed'⟩ := h'.item (by simp [hpassed, hlen]; omega)
    refine ⟨b ++ front, back, ?_, ?_, ?_⟩
    · rw [hahead, hfront, List.append_assoc]
    · rw [List.length_append]
      omega
    · rw [hpassed', hpassed, Nat.add_comm, ← List.drop_drop, List.drop_left' (by simp [hlen])]
  constructor
  · intro f b f' h
    obtain ⟨front, f₁, hpass, h⟩ := bind_eq_ok.mp h
    exact step hpass ((he front).ok h)
  · intro f fault f' h
    obtain h | ⟨front, f₁, hpass, h⟩ := bind_eq_error.mp h
    · exact (stays_pass_onward n).error h
    · exact step hpass ((he front).error h)

theorem stays_word_bind {α β : Type} [Word α] {e : α → Edit Tape β}
    (he : ∀ x, Edit.Stays (Tape.Onward (k + Word.width α)) R (e x)) :
    Edit.Stays (Tape.Onward k) R (word >>= e) := by
  rw [word, bind_assoc]
  exact stays_pass_bind fun _ => by simpa using he _

theorem stays_skip_bind {β : Type} {n : Nat} {e : Unit → Edit Tape β}
    (he : Edit.Stays (Tape.Onward (k + n)) R (e ())) :
    Edit.Stays (Tape.Onward k) R (skip n >>= e) := by
  rw [skip, bind_assoc]
  exact stays_pass_bind fun _ => by simpa using he

omit [IsPreorder Pool R] in
theorem stays_onward {β : Type} {e : Edit Tape β} (h : Edit.Stays (Tape.Amends k) R e) :
    Edit.Stays (Tape.Onward k) R e :=
  h.mono fun _ _ h => ⟨.of_amends h.item, h.pool, h.notices⟩

theorem stays_amend {α : Type} [Word α] {back : Nat} {x : α} (h : back + Word.width α ≤ k) :
    Edit.Stays (Tape.Amends k) R (amend back x) := by
  refine Edit.stays_modifyItem ?_
  intro t hk
  refine ⟨t.passed.take back ++ (Word.bytes x).reverse
    ++ (t.passed.drop (back + Word.width α)).take (k - (back + Word.width α)), ?_, ?_⟩
  · simp
    omega
  · have hsplit : t.passed.drop k
        = (t.passed.drop (back + Word.width α)).drop (k - (back + Word.width α)) := by
      rw [List.drop_drop]
      congr 1
      omega
    rw [hsplit, List.append_assoc, List.append_assoc, List.take_append_drop, List.reverseAux_eq]

/-- The part that is walked over on its own keeps its length, so it is put back in place. -/
theorem stays_within_onward {w : Walk} (hw : Edit.Stays (Tape.Onward 0) R w) (n : Nat) :
    Edit.Stays (Tape.Onward 0) R (within n w) := by
  refine .of_stateOf fun f => ?_
  rw [within, Edit.item_bind]
  cases hpass : pass n f with
  | error fault f₁ =>
    rw [bind_of_error hpass, pass_eq_error hpass]
    exact refl_of _ f
  | ok part f₁ =>
    obtain ⟨hlen, hahead, -, hpool, hnotices⟩ := pass_eq_ok hpass
    have hpart := hw.related ⟨Tape.start part, f₁.pool, f₁.tally, f₁.notices⟩
    rw [bind_of_ok hpass, Edit.stateOf_inside]
    refine ⟨fun _ => ⟨part, _, hahead, ?_, List.reverseAux_eq⟩, hpool ▸ hpart.pool,
      hnotices ▸ hpart.notices⟩
    rw [List.length_reverse, hpart.item.length_bytes, Tape.bytes_start]
    rfl

/-! ## Slots and layouts -/

/-- Intern a text, put its index in place and count it. -/
theorem stays_putText (hR : Pool.Interns R) {back : Nat} {text : String} {add : Tally → Tally}
    (h : back + 2 ≤ k) : Edit.Stays (Tape.Amends k) R (do
      amend back (← Edit.onPool (Pool.internUtf8 text))
      Edit.count add) :=
  .bind (Edit.stays_onPool (hR.utf8 _)) fun _ => .bind (stays_amend h) fun _ =>
    Edit.stays_count _

/-- Behind the index that it passes first, the walk amends nothing but this index. -/
def IsSlot (R : Pool → Pool → Prop) (w : Walk) : Prop :=
  ∃ e : UInt16 → Walk, w = word >>= e ∧ ∀ index, Edit.Stays (Tape.Amends 2) R (e index)

theorem isSlot_descriptorSlot (hR : Pool.Interns R) (r : Renaming) :
    IsSlot R (descriptorSlot r) := by
  refine ⟨_, rfl, fun index => .bind (Edit.within_look _) fun text => ?_⟩
  refine .bind (Edit.within_ofFlaw _) fun text' => .ite ?_ (.pure _)
  exact stays_putText hR (Nat.le_refl _)

theorem walks_onward (hR : Pool.Interns R) (r : Renaming) :
    Walks (Focus.Related (Tape.Onward 0) R) r where
  note := Edit.stays_note
  pass := stays_pass_onward
  descriptorSlot := by
    obtain ⟨e, heq, he⟩ := isSlot_descriptorSlot hR r
    rw [heq]
    exact stays_word_bind fun index => stays_onward (he index)
  signatureSlot kind := by
    refine stays_word_bind fun index : UInt16 => .bind (Edit.within_look _) fun text => ?_
    split
    case h_2 => exact Edit.stays_note _
    case h_1 =>
      refine .ite ?_ (.pure _)
      exact stays_onward (stays_putText hR (Nat.le_refl _))
  innerClass := by
    refine stays_word_bind fun index : UInt16 => stays_skip_bind ?_
    refine stays_word_bind fun slot : UInt16 => stays_skip_bind (.ite ?_ (.pure _))
    refine .bind (Edit.within_look _) fun _ => .bind (Edit.within_look _) fun _ => ?_
    split
    case h_2 => exact .pure _
    case h_1 => exact stays_onward (stays_putText hR (by decide))
  within _ n hw := stays_within_onward hw n

end Walk

end Relabel
