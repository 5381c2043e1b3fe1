import Relabel.Proofs.Pool.Reachable

/-!
# What interning answers

In every reachable pool the known positions are right, so what interning answers leads to
the names that were asked for. Nothing that was there is touched, and what was interned is
known from then on: the same call gives the same answer again and adds nothing.
-/

namespace Relabel

theorem Constant.isWide_eq_of_width {c d : Constant} (h : c.width = d.width) :
    c.isWide = d.isWide := by
  unfold width at h
  cases hc : c.isWide <;> cases hd : d.isWide <;> simp_all

namespace Pool

variable {p q : Pool} {i j k : UInt16} {c : Constant}

/-! ## Second slots -/

/-- Behind every wide constant stands its second slot. -/
def HasSecondSlots (p : Pool) : Prop :=
  ∀ ⦃n : Nat⦄ ⦃c : Constant⦄, p.entries[n]? = some c → c.isWide = true →
    p.entries[n + 1]? = some .unusable

theorem HasSecondSlots.append (hp : p.HasSecondSlots) : (p.append c).HasSecondSlots := by
  intro n k hn hk
  obtain h | ⟨-, ⟨rfl, rfl⟩ | rfl⟩ := getElem?_append_cases hn
  · exact getElem?_append (hp h hk)
  · rw [← Array.getElem?_toList, toList_append, slots, ← Array.length_toList,
      List.getElem?_append_right (Nat.le_add_right _ _), Nat.add_sub_cancel_left, slotsOf,
      if_pos hk]
    rfl
  · cases hk

theorem hasSecondSlots_empty : empty.HasSecondSlots := by
  intro n c h hc
  cases eq_unusable_of_empty h
  cases hc

theorem hasSecondSlots_of_read {a a' : Cursor} (h : read a = .ok p a') : p.HasSecondSlots := by
  obtain ⟨_, _, -, -, h⟩ := read_eq_ok h
  exact readFrom_invariant (P := fun _ p => p.HasSecondSlots) (fun _ _ _ _ _ _ hp => hp.append)
    hasSecondSlots_empty h

theorem HasSecondSlots.set {u : Unit} (hp : p.HasSecondSlots) (h : set i c p = .ok u q) :
    q.HasSecondSlots := by
  obtain ⟨old, hi, hwidth, rfl⟩ := set_eq_ok h
  obtain ⟨hold, hne⟩ := get?_eq_some.mp hi
  intro n k hn hk
  have hsecond : p.entries[n + 1]? = some .unusable := by
    by_cases hin : i.toNat = n
    · subst hin
      rw [Array.getElem?_setIfInBounds_self_of_lt (get?_lt_slots hi)] at hn
      cases hn
      exact hp hold (Constant.isWide_eq_of_width hwidth ▸ hk)
    · rw [Array.getElem?_setIfInBounds_ne hin] at hn
      exact hp hn hk
  -- a second slot is not in use, so it is not the one that was replaced
  have hin : i.toNat ≠ n + 1 := by
    intro hin
    rw [hin] at hold
    exact hne (Option.some.inj (hold.symm.trans hsecond))
  rw [Array.getElem?_setIfInBounds_ne hin, hsecond]

theorem Reachable.hasSecondSlots (hp : Reachable p) : p.HasSecondSlots := by
  refine hp.invariant ?_ (fun c => within_push_of_append fun p _ hp => hp.append)
    fun i c => ⟨?_, ?_⟩
  · rintro p (_ | h)
    · exact hasSecondSlots_empty
    · exact hasSecondSlots_of_read h
  · intro p u q h hp
    exact hp.set h
  · intro p fault q h hp
    rwa [set_eq_error h]

/-! ## What is interned stays known -/

/-- What the step gave once it gives again in every pool that has learned more since, without a
change. -/
def Lasting {β : Type} (e : Edit β) : Prop :=
  ∀ ⦃p b q⦄, e p = .ok b q → ∀ ⦃s⦄, Learns q s → e s = .ok b s

theorem lasting_intern (hc : c.isShared = true) : Lasting (intern c) := by
  intro p i q h s hs
  exact intern_of_known (hs.known (known_of_intern hc h))

theorem Lasting.bind {β γ : Type} {e : Edit β} {f : β → Edit γ} (he : Lasting e)
    (hf : ∀ b, Lasting (f b)) (hlearns : ∀ b, Within Learns (f b)) : Lasting (e >>= f) := by
  intro p b q h s hs
  obtain ⟨a, p₁, ha, h⟩ := bind_eq_ok.mp h
  rw [bind_of_ok (he ha (trans_of Learns ((hlearns a).ok h) hs))]
  exact hf a h hs

theorem lasting_internClass (name : String) : Lasting (internClass name) :=
  (lasting_intern rfl).bind (fun _ => lasting_intern rfl) fun _ => within_intern_learns _

theorem lasting_internNameAndType (name descriptor : String) :
    Lasting (internNameAndType name descriptor) :=
  (lasting_intern rfl).bind
    (fun _ => (lasting_intern rfl).bind (fun _ => lasting_intern rfl)
      fun _ => within_intern_learns _)
    fun _ => (within_intern_learns _).bind fun _ => within_intern_learns _

theorem lasting_internMemberRef (kind : RefKind) (owner name descriptor : String) :
    Lasting (internMemberRef kind owner name descriptor) :=
  (lasting_internClass owner).bind
    (fun _ => (lasting_internNameAndType name descriptor).bind (fun _ => lasting_intern rfl)
      fun _ => within_intern_learns _)
    fun _ => (within_internNameAndType_of_intern (fun c _ => within_intern_learns c) name
      descriptor).bind fun _ => within_intern_learns _

/-! ## What is asked for -/

theorem memberRef_of_internMemberRef {kind : RefKind} {owner name descriptor : String}
    (hp : p.Sound) (h : internMemberRef kind owner name descriptor p = .ok i q) :
    (∃ j k, q.get? i = some (.memberRef kind j k)) ∧
      q.memberRef i = .ok (owner, name, descriptor) := by
  obtain ⟨j, p₁, hj, h⟩ := bind_eq_ok.mp h
  obtain ⟨k, p₂, hk, h⟩ := bind_eq_ok.mp h
  have grow₁ := (within_internClass_of_intern (fun c _ => within_intern c) owner).ok hj
  have grow₂ := (within_internNameAndType name descriptor).ok hk
  have grow₃ := (within_intern _).ok h
  have hp₁ := grow₁.sound hp
  have hp₂ := grow₂.sound hp₁
  have howner : q.className j = .ok owner :=
    (grow₂.trans grow₃).className (className_of_internClass hp hj)
  have hmember : q.nameAndType k = .ok (name, descriptor) :=
    grow₃.nameAndType (nameAndType_of_internNameAndType hp₁ hk)
  have hi : q.get? i = some (.memberRef kind j k) := get?_of_intern hp₂ nofun h
  exact ⟨⟨j, k, hi⟩, memberRef_eq_ok.mpr ⟨kind, j, k, hi, howner, hmember⟩⟩

/-- The entries of `p` are the first ones of `q`. -/
def Continues (p q : Pool) : Prop := p.entries.toList <+: q.entries.toList

instance : IsPreorder Pool Continues where
  refl p := List.prefix_refl p.entries.toList
  trans _ _ _ h h' := List.IsPrefix.trans h h'

theorem continues_append (p : Pool) (c : Constant) : Continues p (p.append c) := by
  rw [Continues, toList_append]
  exact List.prefix_append _ _

theorem within_intern_continues (c : Constant) : Within Continues (intern c) :=
  within_intern_of_push <| within_push_of_append fun p _ => continues_append p c

/-- Where the step gives an index, this leads to what was asked for, entries were at most added, and
the step gives the same index again and adds nothing. -/
structure Answers (p : Pool) (e : Edit UInt16) (asked : Pool → UInt16 → Prop) : Prop where
  leads : ∀ ⦃i q⦄, e p = .ok i q → asked q i
  continues : ∀ ⦃i q⦄, e p = .ok i q → Continues p q
  again : ∀ ⦃i q⦄, e p = .ok i q → e q = .ok i q

theorem Answers.of_lasting {e : Edit UInt16} {asked : Pool → UInt16 → Prop}
    (hleads : ∀ ⦃i q⦄, e p = .ok i q → asked q i) (hcontinues : Within Continues e)
    (hlasting : Lasting e) : Answers p e asked where
  leads := hleads
  continues _ _ h := hcontinues.ok h
  again _ q h := hlasting h (refl_of Learns q)

/-- Pushing fails exactly if there is no room, and changes nothing then. -/
theorem push_eq_error_iff {fault : Fault} : push c p = .error fault q ↔
    fault = .poolOverflow (p.slots + c.width) ∧ maxSlots < p.slots + c.width ∧ q = p := by
  unfold push
  dsimp only
  split
  case isTrue hfull =>
    constructor
    · rintro ⟨⟩
      exact ⟨rfl, hfull, rfl⟩
    · rintro ⟨rfl, -, rfl⟩
      rfl
  case isFalse hroom => exact ⟨nofun, fun h => absurd h.2.1 hroom⟩

/-- A reachable pool has at most 65535 slots, slot 0 in front and a second slot behind each wide
constant. An index that interning gives leads to what was asked for, nothing that was there has
changed, and it is given from then on; pushing fails exactly if there is no room, and then adds
nothing. -/
theorem Reachable.answers (hp : Reachable p) :
    (1 ≤ p.slots ∧ p.slots ≤ 65535 ∧ p.entries[0]? = some .unusable ∧ p.HasSecondSlots) ∧
    (∀ text, Answers p (internUtf8 text) fun q i => q.utf8 i = .ok text) ∧
    (∀ name, Answers p (internClass name) fun q i => q.className i = .ok name) ∧
    (∀ name descriptor, Answers p (internNameAndType name descriptor)
      fun q i => q.nameAndType i = .ok (name, descriptor)) ∧
    (∀ kind owner name descriptor, Answers p (internMemberRef kind owner name descriptor)
      fun q i => (∃ j k, q.get? i = some (.memberRef kind j k)) ∧
        q.memberRef i = .ok (owner, name, descriptor)) ∧
    (∀ c fault q, push c p = .error fault q ↔
      fault = .poolOverflow (p.slots + c.width) ∧ 65535 < p.slots + c.width ∧ q = p) := by
  obtain ⟨start, calls, hstart, rfl⟩ := id hp
  have hsound := sound_run hstart.sound calls
  have hintern ⦃c : Constant⦄ (_ : c.isShared = true) : Within Continues (intern c) :=
    within_intern_continues c
  have hpos : 1 ≤ (run calls start).slots := (Array.getElem?_eq_some_iff.mp hsound.origin).1
  exact ⟨⟨hpos, hsound.slots_le, hsound.origin, hp.hasSecondSlots⟩,
    fun text => .of_lasting (fun _ _ => utf8_of_internUtf8 hsound) (within_intern_continues _)
      (lasting_intern rfl),
    fun name => .of_lasting (fun _ _ => className_of_internClass hsound)
      (within_internClass_of_intern hintern name) (lasting_internClass name),
    fun name descriptor => .of_lasting (fun _ _ => nameAndType_of_internNameAndType hsound)
      (within_internNameAndType_of_intern hintern name descriptor)
      (lasting_internNameAndType name descriptor),
    fun kind owner name descriptor => .of_lasting (fun _ _ => memberRef_of_internMemberRef hsound)
      (within_internMemberRef_of_intern hintern kind owner name descriptor)
      (lasting_internMemberRef kind owner name descriptor),
    fun _ _ _ => push_eq_error_iff⟩

/-- The calls put `b` in place of the second `a`, behind a wide constant. -/
def mixedCalls : List Call :=
  [.push (.long 7), .push (.utf8 "a"), .push (.utf8 "a"), .set 4 (.utf8 "b")]

def mixedPool : Pool := run mixedCalls empty

theorem index_mixedPool : mixedPool.index
    = learn (forget (learn (learn ∅ (.utf8 "a") 3) (.utf8 "a") 4) (.utf8 "a") 4) (.utf8 "b") 4 :=
  rfl

theorem known_mixedPool : mixedPool.index[Constant.utf8 "a"]? = some 3 ∧
    mixedPool.index[Constant.utf8 "b"]? = some 4 := by
  simp [index_mixedPool, getElem?_learn, getElem?_forget, Constant.isShared]

theorem Reachable.answers_mixedPool : Reachable mixedPool ∧ mixedPool.HasSecondSlots ∧
    ∃ q, internMemberRef .method "b" "a" "a" mixedPool = .ok 7 q ∧
      q.memberRef 7 = .ok ("b", "a", "a") ∧ Continues mixedPool q ∧
      internMemberRef .method "b" "a" "a" q = .ok 7 q := by
  let p₁ := mixedPool.append (.classRef 4)
  let p₂ := p₁.append (.nameAndType 3 3)
  have hreach : Reachable mixedPool := ⟨empty, mixedCalls, .empty, rfl⟩
  have hsound : mixedPool.Sound := sound_run sound_empty mixedCalls
  obtain ⟨ha, hb⟩ := known_mixedPool
  have hb : internUtf8 "b" mixedPool = .ok 4 mixedPool := intern_of_known hb
  have hclass : internClass "b" mixedPool = .ok 5 p₁ := by
    rw [internClass, bind_of_ok hb]
    exact intern_of_fresh hsound (by decide +kernel) (by decide)
  have hp₁ := ((within_internClass_of_intern (fun c _ => within_intern c) _).ok hclass).sound hsound
  have ha : internUtf8 "a" p₁ = .ok 3 p₁ := by
    refine intern_of_known ?_
    rw [index_append]
    exact learn_of_known ha
  have hmember : internNameAndType "a" "a" p₁ = .ok 6 p₂ := by
    rw [internNameAndType, bind_of_ok ha, bind_of_ok ha]
    exact intern_of_fresh hp₁ (by decide +kernel) (by decide)
  have hp₂ := ((within_internNameAndType _ _).ok hmember).sound hp₁
  have hintern : internMemberRef .method "b" "a" "a" mixedPool
      = .ok 7 (p₂.append (.memberRef .method 5 6)) := by
    rw [internMemberRef, bind_of_ok hclass, bind_of_ok hmember]
    exact intern_of_fresh hp₂ (by decide +kernel) (by decide)
  obtain ⟨⟨-, -, -, hsecond⟩, -, -, -, hanswers, -⟩ := Reachable.answers hreach
  have hanswers := hanswers .method "b" "a" "a"
  exact ⟨hreach, hsecond, _, hintern, (hanswers.leads hintern).2, hanswers.continues hintern,
    hanswers.again hintern⟩

end Pool

end Relabel
