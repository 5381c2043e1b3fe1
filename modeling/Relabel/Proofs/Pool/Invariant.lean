import Relabel.Proofs.Pool.Codec

/-!
# Pools whose index is right

The index of shared constants is trusted by interning and never checked against the
entries. A pool is sound if each known position holds its constant; decoded pools are
sound, and adding, replacing and interning keep them so. A frame says which entries a
step leaves alone: adding leaves all of them, replacing all but one.
-/

namespace Relabel.Pool

variable {p q : Pool} {i j : UInt16} {c k old : Constant}

/-! ## Looking up -/

theorem get?_eq_some : p.get? i = some c ↔ p.entries[i.toNat]? = some c ∧ c ≠ .unusable := by
  unfold get?
  split
  case h_1 h => simp [h]
  case h_2 h => simpa [h] using fun hc : Constant.unusable = c => hc.symm
  case h_3 k hk h =>
    rw [h]
    constructor
    · rintro ⟨⟩
      exact ⟨rfl, hk⟩
    · rintro ⟨⟨⟩, -⟩
      rfl

theorem get_eq_ok : p.get i = .ok c ↔ p.get? i = some c := by
  unfold get
  split
  case h_1 k h => simp [h]
  case h_2 h => simp [h]

theorem utf8_eq_ok {text : String} : p.utf8 i = .ok text ↔ p.get? i = some (.utf8 text) := by
  simp only [utf8, except_bind_eq_ok, get_eq_ok]
  constructor
  · rintro ⟨c, hc, h⟩
    cases c <;> cases h
    exact hc
  · intro h
    exact ⟨_, h, rfl⟩

theorem className_eq_ok {name : String} :
    p.className i = .ok name ↔ ∃ j, p.get? i = some (.classRef j) ∧ p.utf8 j = .ok name := by
  simp only [className, except_bind_eq_ok, get_eq_ok]
  constructor
  · rintro ⟨c, hc, h⟩
    cases c <;> first | exact ⟨_, hc, h⟩ | cases h
  · rintro ⟨j, hj, h⟩
    exact ⟨_, hj, h⟩

theorem nameAndType_eq_ok {name descriptor : String} :
    p.nameAndType i = .ok (name, descriptor) ↔ ∃ j k, p.get? i = some (.nameAndType j k) ∧
      p.utf8 j = .ok name ∧ p.utf8 k = .ok descriptor := by
  simp only [nameAndType, except_bind_eq_ok, get_eq_ok]
  constructor
  · rintro ⟨c, hc, h⟩
    cases c <;> first
      | cases h
      | simp only [except_bind_eq_ok, except_pure_eq_ok] at h
        obtain ⟨_, hname, _, hdescriptor, ⟨⟩⟩ := h
        exact ⟨_, _, hc, hname, hdescriptor⟩
  · rintro ⟨j, k, h, hname, hdescriptor⟩
    refine ⟨_, h, ?_⟩
    simp only [hname, hdescriptor]
    rfl

theorem memberRef_eq_ok {owner name descriptor : String} :
    p.memberRef i = .ok (owner, name, descriptor) ↔ ∃ kind j k,
      p.get? i = some (.memberRef kind j k) ∧ p.className j = .ok owner ∧
        p.nameAndType k = .ok (name, descriptor) := by
  simp only [memberRef, except_bind_eq_ok, get_eq_ok]
  constructor
  · rintro ⟨c, hc, h⟩
    cases c <;> first
      | cases h
      | simp only [except_bind_eq_ok, except_pure_eq_ok] at h
        obtain ⟨_, howner, _, hmember, ⟨⟩⟩ := h
        exact ⟨_, _, _, hc, howner, hmember⟩
  · rintro ⟨kind, j, k, h, howner, hmember⟩
    refine ⟨_, h, ?_⟩
    simp only [howner, hmember]
    rfl

theorem get?_eq_none (hi : i.toNat < p.slots) :
    p.get? i = none ↔ p.entries[i.toNat]? = some .unusable := by
  obtain ⟨c, hc⟩ : ∃ c, p.entries[i.toNat]? = some c := ⟨_, Array.getElem?_eq_getElem hi⟩
  unfold get?
  rw [hc]
  cases c <;> simp

theorem get?_lt_slots (h : p.get? i = some c) : i.toNat < p.slots := by
  obtain ⟨hi, -⟩ := get?_eq_some.mp h
  exact (Array.getElem?_eq_some_iff.mp hi).choose

/-! Names are looked up in the entries alone. -/

theorem get?_congr (h : q.entries = p.entries) (i : UInt16) : q.get? i = p.get? i := by
  simp only [get?, h]

theorem get_congr (h : q.entries = p.entries) (i : UInt16) : q.get i = p.get i := by
  simp only [get, get?_congr h, slots, h]

theorem utf8_congr (h : q.entries = p.entries) (i : UInt16) : q.utf8 i = p.utf8 i := by
  simp only [utf8, get_congr h]

theorem className_congr (h : q.entries = p.entries) (i : UInt16) :
    q.className i = p.className i := by
  simp only [className, get_congr h, utf8_congr h]

theorem nameAndType_congr (h : q.entries = p.entries) (i : UInt16) :
    q.nameAndType i = p.nameAndType i := by
  simp only [nameAndType, get_congr h, utf8_congr h]

/-! ## Soundness -/

structure Sound (p : Pool) : Prop where
  slots_le : p.slots ≤ maxSlots
  origin : p.entries[0]? = some .unusable
  /-- A known position holds its constant. -/
  known : ∀ ⦃c i⦄, p.index[c]? = some i → p.get? i = some c

theorem sound_empty : empty.Sound where
  slots_le := by decide
  origin := rfl
  known c i h := by simp [empty] at h

theorem eq_unusable_of_empty {n : Nat} (h : empty.entries[n]? = some c) : c = .unusable := by
  have hmem := Array.mem_of_getElem? h
  simpa only [empty, List.mem_toArray, List.mem_singleton] using hmem

theorem Sound.index_pos (hp : p.Sound) (h : p.get? i = some c) : 0 < i.toNat := by
  obtain ⟨hi, hc⟩ := get?_eq_some.mp h
  refine Nat.pos_of_ne_zero ?_
  intro hzero
  rw [hzero, hp.origin] at hi
  exact hc (Option.some.inj hi).symm

theorem ne_unusable_of_isShared (h : c.isShared = true) : c ≠ .unusable := by
  rintro rfl
  cases h

/-! ## The index -/

section

variable {index : Std.HashMap Constant UInt16}

theorem getElem?_learn : (learn index c i)[k]?
    = index[k]?.or (if c.isShared = true ∧ k = c then some i else none) := by
  unfold learn
  split
  case isFalse hc => simp [hc]
  case isTrue hc =>
    rw [Std.HashMap.getElem?_insertIfNew]
    by_cases hk : k = c
    · subst hk
      cases h : index[k]? <;> simp [hc, Std.HashMap.mem_iff_isSome_getElem?, h]
    · simp [hk, Ne.symm hk]

theorem getElem?_forget : (forget index c i)[k]?
    = if k = c ∧ index[c]? = some i then none else index[k]? := by
  unfold forget
  split
  case isFalse hi => simp [hi]
  case isTrue hi =>
    rw [Std.HashMap.getElem?_erase]
    simp only [hi, and_true, beq_iff_eq, eq_comm (a := c)]

theorem learn_eq_some (h : (learn index c i)[k]? = some j) :
    index[k]? = some j ∨ c.isShared ∧ k = c ∧ j = i := by
  rw [getElem?_learn, Option.or_eq_some_iff] at h
  refine h.imp_right fun h => ?_
  obtain ⟨-, h⟩ := h
  split at h
  case isTrue hc => exact ⟨hc.1, hc.2, (Option.some.inj h).symm⟩
  case isFalse => cases h

theorem learn_of_known (h : index[k]? = some j) : (learn index c i)[k]? = some j := by
  rw [getElem?_learn, h, Option.some_or]

theorem forget_eq_some (h : (forget index c i)[k]? = some j) :
    index[k]? = some j ∧ ¬(k = c ∧ j = i) := by
  rw [getElem?_forget] at h
  split at h
  case isTrue => cases h
  case isFalse hk =>
    refine ⟨h, ?_⟩
    rintro ⟨rfl, rfl⟩
    exact hk ⟨rfl, h⟩

theorem mem_learn : k ∈ learn index c i ↔ k ∈ index ∨ c.isShared = true ∧ k = c := by
  simp only [Std.HashMap.mem_iff_isSome_getElem?, getElem?_learn, Option.isSome_or,
    Bool.or_eq_true]
  split <;> simp_all

theorem mem_forget (hk : k ≠ c) : k ∈ forget index c i ↔ k ∈ index := by
  simp only [Std.HashMap.mem_iff_isSome_getElem?, getElem?_forget, hk, false_and, if_false]

end

/-! ## Adding an entry -/

theorem slots_append (p : Pool) (c : Constant) : (p.append c).slots = p.slots + c.width := by
  have h := congrArg List.length (toList_append p c)
  rw [List.length_append, Array.length_toList, Array.length_toList] at h
  unfold slots Constant.width
  rw [h, slotsOf]
  split <;> rfl

theorem index_append (p : Pool) (c : Constant) :
    (p.append c).index = learn p.index c p.count := by
  obtain ⟨entries, index⟩ := p
  unfold append
  dsimp only
  split <;> rfl

theorem getElem?_append {n : Nat} (h : p.entries[n]? = some k) :
    (p.append c).entries[n]? = some k := by
  have hn : n < p.entries.toList.length := (Array.getElem?_eq_some_iff.mp h).choose
  rw [← Array.getElem?_toList, toList_append, List.getElem?_append_left hn,
    Array.getElem?_toList, h]

theorem getElem?_append_slots (p : Pool) (c : Constant) :
    (p.append c).entries[p.slots]? = some c := by
  rw [← Array.getElem?_toList, toList_append, slots, ← Array.length_toList,
    List.getElem?_append_right (Nat.le_refl _), Nat.sub_self, slotsOf]
  split <;> rfl

/-- An entry behind an addition was there before, or it is the one added, or the second slot of
that. -/
theorem getElem?_append_cases {n : Nat} (h : (p.append c).entries[n]? = some k) :
    p.entries[n]? = some k ∨ p.slots ≤ n ∧ (k = c ∧ n = p.slots ∨ k = .unusable) := by
  rw [← Array.getElem?_toList, toList_append, List.getElem?_append] at h
  split at h
  case isTrue => exact .inl (by rwa [Array.getElem?_toList] at h)
  case isFalse hn =>
    rw [Array.length_toList] at hn h
    refine .inr ⟨Nat.le_of_not_lt hn, ?_⟩
    unfold slotsOf at h
    obtain ⟨m, rfl⟩ := Nat.exists_eq_add_of_le (Nat.le_of_not_lt hn)
    rw [Nat.add_sub_cancel_left] at h
    split at h
    · match m with
      | 0 => exact .inl ⟨(Option.some.inj h).symm, rfl⟩
      | 1 => exact .inr (Option.some.inj h).symm
      | m + 2 => simp at h
    · match m with
      | 0 => exact .inl ⟨(Option.some.inj h).symm, rfl⟩
      | m + 1 => simp at h

theorem get?_append (h : p.get? i = some k) : (p.append c).get? i = some k := by
  obtain ⟨hi, hk⟩ := get?_eq_some.mp h
  exact get?_eq_some.mpr ⟨getElem?_append hi, hk⟩

/-- The added constant stands where the stored count pointed, if that did not wrap around. -/
theorem get?_append_count (hroom : p.slots ≤ maxSlots) (hc : c ≠ .unusable) :
    (p.append c).get? p.count = some c := by
  have hcount : p.count.toNat = p.slots := UInt16.toNat_ofNat_of_lt (Nat.lt_succ_of_le hroom)
  exact get?_eq_some.mpr ⟨hcount ▸ getElem?_append_slots p c, hc⟩

theorem Sound.append (hp : p.Sound) (hroom : p.slots + c.width ≤ maxSlots) :
    (p.append c).Sound where
  slots_le := slots_append p c ▸ hroom
  origin := getElem?_append hp.origin
  known k j h := by
    rw [index_append] at h
    obtain h | ⟨hc, rfl, rfl⟩ := learn_eq_some h
    · exact get?_append (hp.known h)
    · exact get?_append_count hp.slots_le (ne_unusable_of_isShared hc)

/-! ## Reading -/

theorem sound_of_read {s s' : Cursor} (h : read s = .ok p s') : p.Sound := by
  obtain ⟨count, s₁, -, hpos, h⟩ := read_eq_ok h
  have hcount : count.toNat < 65536 := count.toNat_lt
  have hroom : empty.slots + (count.toNat - 1) ≤ maxSlots := by
    have hslots : empty.slots = 1 := rfl
    unfold maxSlots
    omega
  let P (left : Nat) (p : Pool) : Prop := p.Sound ∧ p.slots + left ≤ maxSlots
  have hsound : P 0 p := by
    refine readFrom_invariant ?_ ⟨sound_empty, hroom⟩ h
    rintro left p c - - - ⟨hp, hroom⟩
    have hslots := slots_append p c
    exact ⟨hp.append (by omega), by omega⟩
  exact hsound.1

/-! ## Frames -/

/-- A step from `p` to `q` keeps soundness and slots, and leaves alone the entries that `K`
picks out. -/
structure Frame (K : UInt16 → Constant → Prop) (p q : Pool) : Prop where
  sound : p.Sound → q.Sound
  slots_le : p.slots ≤ q.slots
  unusable : ∀ ⦃n : Nat⦄, p.entries[n]? = some .unusable → q.entries[n]? = some .unusable
  get? : ∀ ⦃i c⦄, p.get? i = some c → K i c → q.get? i = some c

/-- Every entry is left alone. -/
abbrev Grows : Pool → Pool → Prop := Frame fun _ _ => True

/-- Texts and pairs of texts are picked out. -/
class PicksTexts (K : UInt16 → Constant → Prop) : Prop where
  utf8 : ∀ i text, K i (.utf8 text)
  nameAndType : ∀ i j k, K i (.nameAndType j k)

/-- All that names are looked up through is picked out. -/
class PicksNames (K : UInt16 → Constant → Prop) : Prop extends PicksTexts K where
  classRef : ∀ i j, K i (.classRef j)

instance : PicksTexts fun _ _ => True := ⟨fun _ _ => trivial, fun _ _ _ => trivial⟩

instance : PicksNames fun _ _ => True := ⟨fun _ _ => trivial⟩

section

variable {K : UInt16 → Constant → Prop} {D : UInt16 → Prop}

instance [PicksTexts K] : PicksTexts fun i c => D i → K i c :=
  ⟨fun i text _ => PicksTexts.utf8 i text, fun i j k _ => PicksTexts.nameAndType i j k⟩

instance [PicksNames K] : PicksNames fun i c => D i → K i c :=
  ⟨fun i j _ => PicksNames.classRef i j⟩

instance [PicksTexts K] : PicksTexts fun i c => D i ∨ K i c :=
  ⟨fun i text => .inr (PicksTexts.utf8 i text), fun i j k => .inr (PicksTexts.nameAndType i j k)⟩

instance [PicksNames K] : PicksNames fun i c => D i ∨ K i c :=
  ⟨fun i j => .inr (PicksNames.classRef i j)⟩

end

namespace Frame

variable {K L : UInt16 → Constant → Prop} {p' : Pool}

theorem refl (p : Pool) : Frame K p p := ⟨id, Nat.le_refl _, fun _ => id, fun _ _ h _ => h⟩

theorem trans (h : Frame K p q) (h' : Frame K q p') : Frame K p p' where
  sound hp := h'.sound (h.sound hp)
  slots_le := Nat.le_trans h.slots_le h'.slots_le
  unusable _ hn := h'.unusable (h.unusable hn)
  get? _ _ hi hK := h'.get? (h.get? hi hK) hK

instance : IsPreorder Pool (Frame K) where
  refl := refl
  trans _ _ _ := trans

theorem mono (h : Frame K p q) (hL : ∀ ⦃i c⦄, p.get? i = some c → L i c → K i c) :
    Frame L p q :=
  ⟨h.sound, h.slots_le, h.unusable, fun _ _ hi hi' => h.get? hi (hL hi hi')⟩

theorem of_grows (h : Grows p q) : Frame K p q := h.mono fun _ _ _ _ => trivial

/-- If only the entry at `i` was touched, the constants of another kind are left alone. -/
theorem of_ne {P : Constant → Bool} (h : Frame (fun j _ => i ≠ j) p q)
    (hi : p.get? i = some old) (hold : P old = true) :
    Frame (fun j c => j = i → P c = false) p q := by
  refine h.mono ?_
  intro j c hj hK hij
  subst hij
  cases hi.symm.trans hj
  simp [hold] at hK

/-- A slot whose entry is left alone is as it was, also if it is not in use. -/
theorem get?_eq (h : Frame K p q) (hi : i.toNat < p.slots)
    (hK : ∀ ⦃c⦄, p.get? i = some c → K i c) : q.get? i = p.get? i := by
  cases hc : p.get? i with
  | some c => exact h.get? hc (hK hc)
  | none =>
    have hq : i.toNat < q.slots := Nat.lt_of_lt_of_le hi h.slots_le
    exact (get?_eq_none hq).mpr (h.unusable ((get?_eq_none hi).mp hc))

variable {text : String} {name descriptor : String}

theorem utf8 [PicksTexts K] (h : Frame K p q) (hi : p.utf8 i = .ok text) :
    q.utf8 i = .ok text :=
  utf8_eq_ok.mpr (h.get? (utf8_eq_ok.mp hi) (PicksTexts.utf8 _ _))

theorem className [PicksNames K] (h : Frame K p q) (hi : p.className i = .ok name) :
    q.className i = .ok name := by
  obtain ⟨j, hj, hname⟩ := className_eq_ok.mp hi
  exact className_eq_ok.mpr ⟨j, h.get? hj (PicksNames.classRef _ _), h.utf8 hname⟩

theorem nameAndType [PicksTexts K] (h : Frame K p q)
    (hi : p.nameAndType i = .ok (name, descriptor)) :
    q.nameAndType i = .ok (name, descriptor) := by
  obtain ⟨j, k, hjk, hname, hdescriptor⟩ := nameAndType_eq_ok.mp hi
  exact nameAndType_eq_ok.mpr
    ⟨j, k, h.get? hjk (PicksTexts.nameAndType _ _ _), h.utf8 hname, h.utf8 hdescriptor⟩

end Frame

end Relabel.Pool
