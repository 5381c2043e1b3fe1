import Relabel.Proofs.Pool.Invariant

/-!
# Steps on a pool

Interning leaves every entry alone and gives an index that leads to what was asked for,
whether it was there before or not. Replacing leaves all other entries alone.
-/

namespace Relabel.Pool

variable {p q : Pool} {i j : UInt16} {c k old : Constant}

/-! ## Pushing -/

theorem grows_append (hroom : p.slots + c.width ≤ maxSlots) : Grows p (p.append c) where
  sound hp := hp.append hroom
  slots_le := slots_append p c ▸ Nat.le_add_right _ _
  unusable _ := getElem?_append
  get? _ _ h _ := get?_append h

theorem push_eq_ok (h : push c p = .ok i q) :
    p.slots + c.width ≤ maxSlots ∧ i = p.count ∧ q = p.append c := by
  simp only [push] at h
  split at h
  case isTrue => cases h
  case isFalse hroom =>
    cases h
    exact ⟨Nat.le_of_not_lt hroom, rfl, rfl⟩

/-- There is room for another entry, or the step fails and changes nothing. -/
theorem push_of_room (hroom : p.slots + c.width ≤ maxSlots) :
    push c p = .ok p.count (p.append c) := if_neg (Nat.not_lt.mpr hroom)

/-! ## Interning -/

section

variable {R : Pool → Pool → Prop} [IsPreorder Pool R]

/-- Interning either adds the constant or changes nothing. -/
theorem within_intern_of_push (h : Within R (push c)) : Within R (intern c) := by
  refine .of_stateOf fun p => ?_
  unfold intern
  split
  case h_1 => exact refl_of R p
  case h_2 => exact h.related p

theorem within_push_of_append (h : ∀ p, p.slots + c.width ≤ maxSlots → R p (p.append c)) :
    Within R (push c) := by
  refine .of_stateOf fun p => ?_
  unfold push
  dsimp only
  split
  case isTrue => exact refl_of R p
  case isFalse hroom => exact h p (Nat.le_of_not_lt hroom)

variable (h : ∀ ⦃c : Constant⦄, c.isShared = true → Within R (intern c))
include h

/-- Every interning step is made up of interning shared constants. -/
theorem within_internClass_of_intern (name : String) : Within R (internClass name) :=
  (h rfl).bind fun _ => h rfl

theorem within_internNameAndType_of_intern (name descriptor : String) :
    Within R (internNameAndType name descriptor) :=
  (h rfl).bind fun _ => (h rfl).bind fun _ => h rfl

theorem within_internMemberRef_of_intern (kind : RefKind) (owner name descriptor : String) :
    Within R (internMemberRef kind owner name descriptor) :=
  (within_internClass_of_intern h owner).bind fun _ =>
    (within_internNameAndType_of_intern h name descriptor).bind fun _ => h rfl

end

theorem within_push (c : Constant) : Within Grows (push c) :=
  within_push_of_append fun _ => grows_append

theorem within_intern (c : Constant) : Within Grows (intern c) :=
  within_intern_of_push (within_push c)

/-- The index that interning gives leads to the constant. -/
theorem get?_of_intern (hp : p.Sound) (hc : c ≠ .unusable) (h : intern c p = .ok i q) :
    q.get? i = some c := by
  unfold intern at h
  split at h
  case h_1 hi =>
    cases h
    exact hp.known hi
  case h_2 =>
    obtain ⟨-, rfl, rfl⟩ := push_eq_ok h
    exact get?_append_count hp.slots_le hc

theorem intern_of_known (h : p.index[c]? = some i) : intern c p = .ok i p := by
  simp only [intern, h]

/-- A constant that is not there is added. -/
theorem intern_of_fresh (hp : p.Sound) (hc : c ∉ p.entries) (hroom : p.slots + c.width ≤ maxSlots) :
    intern c p = .ok p.count (p.append c) := by
  have hnone : p.index[c]? = none := by
    cases hi : p.index[c]? with
    | none => rfl
    | some i => exact absurd (Array.mem_of_getElem? (get?_eq_some.mp (hp.known hi)).1) hc
  simp only [intern, hnone]
  exact push_of_room hroom

theorem within_internUtf8 (text : String) : Within Grows (internUtf8 text) := within_intern _

theorem utf8_of_internUtf8 {text : String} (hp : p.Sound) (h : internUtf8 text p = .ok i q) :
    q.utf8 i = .ok text :=
  utf8_eq_ok.mpr (get?_of_intern hp nofun h)

theorem within_internNameAndType (name descriptor : String) :
    Within Grows (internNameAndType name descriptor) :=
  within_internNameAndType_of_intern (fun c _ => within_intern c) name descriptor

theorem nameAndType_of_internNameAndType {name descriptor : String} (hp : p.Sound)
    (h : internNameAndType name descriptor p = .ok i q) :
    q.nameAndType i = .ok (name, descriptor) := by
  obtain ⟨j, p₁, hj, h⟩ := bind_eq_ok.mp h
  obtain ⟨k, p₂, hk, h⟩ := bind_eq_ok.mp h
  have grow₁ := (within_internUtf8 name).ok hj
  have grow₂ := (within_internUtf8 descriptor).ok hk
  have grow₃ := (within_intern _).ok h
  have hname : q.utf8 j = .ok name :=
    (grow₂.trans grow₃).utf8 (utf8_of_internUtf8 hp hj)
  have hdescriptor : q.utf8 k = .ok descriptor :=
    grow₃.utf8 (utf8_of_internUtf8 (grow₁.sound hp) hk)
  have hi := get?_of_intern (grow₂.sound (grow₁.sound hp)) (c := .nameAndType j k) nofun h
  exact nameAndType_eq_ok.mpr ⟨j, k, hi, hname, hdescriptor⟩

theorem className_of_internClass {name : String} (hp : p.Sound)
    (h : internClass name p = .ok i q) : q.className i = .ok name := by
  obtain ⟨j, p₁, hj, hi⟩ := bind_eq_ok.mp h
  have hp₁ := ((within_internUtf8 name).ok hj).sound hp
  have hentry := get?_of_intern hp₁ (c := .classRef j) nofun hi
  have htext := ((within_intern _).ok hi).utf8 (utf8_of_internUtf8 hp hj)
  exact className_eq_ok.mpr ⟨j, hentry, htext⟩

/-- Interning texts, names and descriptors stays within the relation. -/
structure Interns (R : Pool → Pool → Prop) : Prop where
  utf8 : ∀ text, Within R (internUtf8 text)
  nameAndType : ∀ name descriptor, Within R (internNameAndType name descriptor)

theorem interns_frame {K : UInt16 → Constant → Prop} : Interns (Frame K) where
  utf8 text := (within_internUtf8 text).mono fun _ _ => Frame.of_grows
  nameAndType name descriptor :=
    (within_internNameAndType name descriptor).mono fun _ _ => Frame.of_grows

/-! ## What is known stays known -/

/-- Every entry is left alone, and every known position stays the known one. -/
structure Learns (p q : Pool) : Prop where
  grows : Grows p q
  known : ∀ ⦃c : Constant⦄ ⦃i : UInt16⦄, p.index[c]? = some i → q.index[c]? = some i

instance : IsPreorder Pool Learns where
  refl p := ⟨Frame.refl p, fun _ _ => id⟩
  trans _ _ _ h h' := ⟨h.grows.trans h'.grows, fun _ _ hk => h'.known (h.known hk)⟩

theorem within_intern_learns (c : Constant) : Within Learns (intern c) :=
  within_intern_of_push <| within_push_of_append fun p hroom =>
    ⟨grows_append hroom, fun _ _ hk => index_append p c ▸ learn_of_known hk⟩

/-- The index that interning gives is the known one from then on. -/
theorem known_of_intern (hc : c.isShared = true) (h : intern c p = .ok i q) :
    q.index[c]? = some i := by
  unfold intern at h
  split at h
  case h_1 hi =>
    cases h
    exact hi
  case h_2 hnone =>
    obtain ⟨-, rfl, rfl⟩ := push_eq_ok h
    rw [index_append, getElem?_learn, hnone, Option.none_or, if_pos ⟨hc, rfl⟩]

/-- Interning fails only if the pool is full, and changes nothing then. -/
theorem intern_eq_error {fault : Fault} (h : intern c p = .error fault q) :
    q = p ∧ ∃ n, fault = .poolOverflow n := by
  unfold intern at h
  split at h
  case h_1 => cases h
  case h_2 =>
    simp only [push] at h
    split at h <;> cases h
    exact ⟨rfl, _, rfl⟩

/-! ## Replacing -/

theorem set_eq_ok {u : Unit} (h : set i c p = .ok u q) :
    ∃ old, p.get? i = some old ∧ old.width = c.width ∧
      q = ⟨p.entries.setIfInBounds i.toNat c, learn (forget p.index old i) c i⟩ := by
  simp only [set] at h
  cases hget : p.get i with
  | error fault =>
    rw [hget] at h
    cases h
  | ok old =>
    rw [hget] at h
    dsimp only at h
    split at h
    case isTrue => cases h
    case isFalse hwidth =>
      cases h
      exact ⟨old, get_eq_ok.mp hget, Classical.not_not.mp hwidth, rfl⟩

theorem set_of_get? (hi : p.get? i = some old) (hwidth : old.width = c.width) :
    ∃ q, set i c p = .ok () q := by
  have hget := get_eq_ok.mpr hi
  refine ⟨⟨p.entries.setIfInBounds i.toNat c, learn (forget p.index old i) c i⟩, ?_⟩
  simp only [set, hget]
  rw [if_neg (fun h => h hwidth)]

theorem get?_set_ne {index : Std.HashMap Constant UInt16} (hij : i ≠ j) :
    get? ⟨p.entries.setIfInBounds i.toNat c, index⟩ j = p.get? j := by
  have hne : i.toNat ≠ j.toNat := fun h => hij (UInt16.toNat_inj.mp h)
  simp only [get?, Array.getElem?_setIfInBounds_ne hne]

theorem get?_set_self {index : Std.HashMap Constant UInt16} (hi : p.get? i = some old)
    (hc : c ≠ .unusable) :
    get? ⟨p.entries.setIfInBounds i.toNat c, index⟩ i = some c :=
  get?_eq_some.mpr ⟨Array.getElem?_setIfInBounds_self_of_lt (get?_lt_slots hi), hc⟩

theorem Sound.set {u : Unit} (hp : p.Sound) (h : set i c p = .ok u q) : q.Sound := by
  obtain ⟨old, hi, -, rfl⟩ := set_eq_ok h
  refine ⟨?_, ?_, ?_⟩
  · simpa [slots] using hp.slots_le
  · have hpos := hp.index_pos hi
    rw [Array.getElem?_setIfInBounds_ne (by omega), hp.origin]
  · intro k j hk
    obtain hk | ⟨hc, rfl, rfl⟩ := learn_eq_some hk
    · obtain ⟨hk, hne⟩ := forget_eq_some hk
      have hj := hp.known hk
      have hij : i ≠ j := by
        rintro rfl
        exact hne ⟨Option.some.inj (hj.symm.trans hi), rfl⟩
      rw [get?_set_ne hij, hj]
    · exact get?_set_self hi (ne_unusable_of_isShared hc)

theorem set_eq_error {fault : Fault} (h : set i c p = .error fault q) : q = p := by
  simp only [set] at h
  cases hget : p.get i with
  | error fault =>
    rw [hget] at h
    cases h
    rfl
  | ok old =>
    rw [hget] at h
    dsimp only at h
    split at h <;> cases h
    rfl

theorem within_set (i : UInt16) (c : Constant) :
    Within (Frame fun j _ => i ≠ j) (set i c) where
  ok p u q h := by
    refine ⟨fun hp => hp.set h, ?_, ?_, ?_⟩
    · obtain ⟨old, -, -, rfl⟩ := set_eq_ok h
      simp [slots]
    · intro n hn
      obtain ⟨old, hi, -, rfl⟩ := set_eq_ok h
      obtain ⟨hi, hold⟩ := get?_eq_some.mp hi
      have hne : i.toNat ≠ n := by
        rintro rfl
        exact hold (Option.some.inj (hi.symm.trans hn))
      rw [Array.getElem?_setIfInBounds_ne hne, hn]
    · intro j k hj hij
      obtain ⟨old, -, -, rfl⟩ := set_eq_ok h
      rw [get?_set_ne hij, hj]
  error p _ q h := by
    rw [set_eq_error h]
    exact Frame.refl p

theorem get?_of_set {u : Unit} (hc : c ≠ .unusable) (h : set i c p = .ok u q) :
    q.get? i = some c := by
  obtain ⟨old, hi, -, rfl⟩ := set_eq_ok h
  exact get?_set_self hi hc

/-! ## Where constants of a kind stand -/

/-- Constants of the kind `P` stand only where such constants stood. -/
def OnlyFrom (P : Constant → Bool) (p q : Pool) : Prop :=
  ∀ ⦃i c⦄, q.get? i = some c → P c = true → ∃ c', p.get? i = some c' ∧ P c' = true

section

variable {P : Constant → Bool}

instance : IsPreorder Pool (OnlyFrom P) where
  refl _ _ c hi hc := ⟨c, hi, hc⟩
  trans _ _ _ h h' _ _ hi hc :=
    have ⟨_, hi', hc'⟩ := h' hi hc
    h hi' hc'

theorem onlyFrom_append (hc : P c = false) (p : Pool) : OnlyFrom P p (p.append c) := by
  intro i k hi hk
  obtain ⟨hi, hne⟩ := get?_eq_some.mp hi
  obtain hold | ⟨-, ⟨rfl, -⟩ | rfl⟩ := getElem?_append_cases hi
  · exact ⟨k, get?_eq_some.mpr ⟨hold, hne⟩, hk⟩
  · simp [hc] at hk
  · exact absurd rfl hne

theorem within_intern_onlyFrom (hc : P c = false) : Within (OnlyFrom P) (intern c) :=
  within_intern_of_push <| within_push_of_append fun p _ => onlyFrom_append hc p

theorem interns_onlyFrom (htexts : ∀ text, P (.utf8 text) = false)
    (hpairs : ∀ j k, P (.nameAndType j k) = false) : Interns (OnlyFrom P) where
  utf8 text := within_intern_onlyFrom (htexts text)
  nameAndType name descriptor :=
    (within_intern_onlyFrom (htexts name)).bind fun _ =>
      (within_intern_onlyFrom (htexts descriptor)).bind fun _ =>
        within_intern_onlyFrom (hpairs _ _)

theorem within_set_onlyFrom (hc : P c = false) (i : UInt16) :
    Within (OnlyFrom P) (set i c) where
  ok p _ q h j k hj hk := by
    obtain ⟨old, hi, -, rfl⟩ := set_eq_ok h
    by_cases hij : i = j
    · subst hij
      have hkc := (get?_eq_some.mp hj).1
      rw [Array.getElem?_setIfInBounds_self_of_lt (get?_lt_slots hi)] at hkc
      cases hkc
      simp [hc] at hk
    · exact ⟨k, get?_set_ne hij ▸ hj, hk⟩
  error p _ q h := by
    rw [set_eq_error h]
    exact refl_of (OnlyFrom P) p

end

end Relabel.Pool
