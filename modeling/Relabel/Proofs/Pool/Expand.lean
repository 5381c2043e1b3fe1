import Relabel.Proofs.Pool.Step

/-!
# Pools that expand

A renaming adds texts and pairs of texts to a pool, and replaces entries by entries of the
same kind. A pool is complete if its index knows all texts and pairs that are there; then
nothing is added twice, since interning asks the index first.
-/

namespace Relabel

namespace Constant

/-- Whether the constant is of a kind that renaming adds. -/
def isText : Constant → Bool
  | .utf8 _ | .nameAndType .. => true
  | _ => false

/-- The constant without the index that a renaming may replace. -/
def fixed : Constant → Constant
  | .classRef _ => .classRef 0
  | .memberRef kind owner _ => .memberRef kind owner 0
  | .methodType _ => .methodType 0
  | .dynamic bootstrap _ => .dynamic bootstrap 0
  | .invokeDynamic bootstrap _ => .invokeDynamic bootstrap 0
  | .module _ => .module 0
  | .package _ => .package 0
  | c => c

variable {c d : Constant}

theorem isShared_of_isText (h : c.isText = true) : c.isShared = true := by
  cases c <;> first | rfl | cases h

theorem isWide_of_isText (h : c.isText = true) : c.isWide = false := by
  cases c <;> first | rfl | cases h

/-- A text has nothing that could be replaced. -/
theorem eq_of_fixed (h : d.fixed = c.fixed) (hc : c.isText = true) : d = c := by
  cases c <;> cases hc <;> cases d <;> cases h <;> rfl

theorem isText_of_fixed (h : d.fixed = c.fixed) : d.isText = c.isText := by
  cases c <;> cases d <;> first | rfl | cases h

theorem isWide_of_fixed (h : d.fixed = c.fixed) : d.isWide = c.isWide := by
  cases c <;> cases d <;> first | rfl | cases h

theorem eq_unusable_of_fixed (h : d.fixed = c.fixed) : d = .unusable ↔ c = .unusable := by
  cases c <;> cases d <;> first | (cases h; done) | simp

end Constant

namespace Pool

variable {p q s : Pool} {i : UInt16} {c k old : Constant}

/-! ## Completeness -/

/-- Every constant of the kind `P` that is there is known. -/
def Knows (P : Constant → Bool) (p : Pool) : Prop :=
  ∀ ⦃n : Nat⦄ ⦃c : Constant⦄, p.entries[n]? = some c → P c = true → c ∈ p.index

/-- Every text and every pair of texts is known. -/
def Complete (p : Pool) : Prop :=
  ∀ ⦃n : Nat⦄ ⦃c : Constant⦄, p.entries[n]? = some c → c.isText = true → c ∈ p.index

section

variable {P : Constant → Bool} (hP : ∀ ⦃c⦄, P c = true → c.isShared = true)
include hP

theorem knows_empty : empty.Knows P :=
  fun _ _ h hc => absurd (eq_unusable_of_empty h) (ne_unusable_of_isShared (hP hc))

theorem Knows.append (hp : p.Knows P) : (p.append c).Knows P := by
  intro n k hn hk
  rw [index_append, mem_learn]
  obtain h | ⟨-, ⟨rfl, -⟩ | rfl⟩ := getElem?_append_cases hn
  · exact .inl (hp h hk)
  · exact .inr ⟨hP hk, rfl⟩
  · cases hP hk

theorem knows_of_read {a a' : Cursor} (h : read a = .ok p a') : p.Knows P := by
  obtain ⟨_, _, -, -, h⟩ := read_eq_ok h
  exact readFrom_invariant (fun _ _ _ _ _ _ hp => Knows.append hP hp) (knows_empty hP) h

end

theorem Complete.append (hp : p.Complete) : (p.append c).Complete :=
  Knows.append (fun _ => Constant.isShared_of_isText) hp

theorem complete_of_read {a a' : Cursor} (h : read a = .ok p a') : p.Complete :=
  knows_of_read (fun _ => Constant.isShared_of_isText) h

/-! ## Expansion -/

/-- A step from `p` to `q` keeps each entry up to the index that a renaming may replace, and adds
texts and pairs of texts that stand nowhere else. -/
structure Expands (p q : Pool) : Prop where
  sound : p.Sound → q.Sound
  complete : p.Complete → q.Complete
  kept : ∀ ⦃n : Nat⦄ ⦃c : Constant⦄, p.entries[n]? = some c →
    ∃ c', q.entries[n]? = some c' ∧ c'.fixed = c.fixed
  added : p.Complete → ∀ ⦃n : Nat⦄ ⦃c : Constant⦄, p.slots ≤ n → q.entries[n]? = some c →
    c.isText = true ∧ ∀ ⦃m : Nat⦄, q.entries[m]? = some c → m = n

namespace Expands

theorem refl (p : Pool) : Expands p p where
  sound := id
  complete := id
  kept _ c h := ⟨c, h, rfl⟩
  added _ n c hn h := by
    obtain ⟨hlt, -⟩ := Array.getElem?_eq_some_iff.mp h
    exact absurd hlt (Nat.not_lt.mpr hn)

theorem text_kept (h : Expands p q) {n : Nat} (hn : p.entries[n]? = some c)
    (hc : c.isText = true) : q.entries[n]? = some c := by
  obtain ⟨c', hc', hfixed⟩ := h.kept hn
  rw [hc', Constant.eq_of_fixed hfixed hc]

/-- A text that stands in an old slot stood there before. -/
theorem text_old (h : Expands p q) {n : Nat} (hn : n < p.slots) (hq : q.entries[n]? = some c)
    (hc : c.isText = true) : p.entries[n]? = some c := by
  obtain ⟨c', hc', hfixed⟩ := h.kept (Array.getElem?_eq_getElem hn)
  cases hq.symm.trans hc'
  rw [Array.getElem?_eq_getElem hn, Constant.eq_of_fixed hfixed.symm hc]

theorem trans (h : Expands p q) (h' : Expands q s) : Expands p s where
  sound hp := h'.sound (h.sound hp)
  complete hp := h'.complete (h.complete hp)
  kept n c hn := by
    obtain ⟨c₁, h₁, hfixed⟩ := h.kept hn
    obtain ⟨c₂, h₂, hfixed'⟩ := h'.kept h₁
    exact ⟨c₂, h₂, hfixed'.trans hfixed⟩
  added hp n c hpn hn := by
    have hq := h.complete hp
    by_cases hqn : q.slots ≤ n
    · exact h'.added hq hqn hn
    -- the entry was added by the first step, and the second step keeps it as a text
    have hqn := Nat.lt_of_not_le hqn
    obtain ⟨c₁, hc₁, hfixed⟩ := h'.kept (Array.getElem?_eq_getElem hqn)
    cases hn.symm.trans hc₁
    obtain ⟨htext, hunique⟩ := h.added hp hpn (Array.getElem?_eq_getElem hqn)
    have hc : c.isText = true := by rw [Constant.isText_of_fixed hfixed, htext]
    have hold := h'.text_old hqn hn hc
    refine ⟨hc, ?_⟩
    intro m hm
    by_cases hqm : q.slots ≤ m
    · exact ((h'.added hq hqm hm).2 hn).symm
    · exact (h.added hp hpn hold).2 (h'.text_old (Nat.lt_of_not_le hqm) hm hc)

instance : IsPreorder Pool Expands where
  refl := refl
  trans _ _ _ := trans

theorem get? (h : Expands p q) (hi : p.get? i = some c) :
    ∃ c', q.get? i = some c' ∧ c'.fixed = c.fixed := by
  obtain ⟨hn, hne⟩ := get?_eq_some.mp hi
  obtain ⟨c', hc', hfixed⟩ := h.kept hn
  exact ⟨c', get?_eq_some.mpr ⟨hc', mt (Constant.eq_unusable_of_fixed hfixed).mp hne⟩, hfixed⟩

theorem utf8 (h : Expands p q) {text : String} (hi : p.utf8 i = .ok text) :
    q.utf8 i = .ok text := by
  obtain ⟨hn, hne⟩ := get?_eq_some.mp (utf8_eq_ok.mp hi)
  exact utf8_eq_ok.mpr (get?_eq_some.mpr ⟨h.text_kept hn rfl, hne⟩)

end Expands

/-! ## Steps -/

theorem expands_append (hroom : p.slots + c.width ≤ maxSlots) (hc : c.isText = true)
    (hnew : c ∉ p.index) : Expands p (p.append c) where
  sound hp := hp.append hroom
  complete hp := hp.append
  kept n k h := ⟨k, getElem?_append h, rfl⟩
  added hp n k hn h := by
    have hwide := Constant.isWide_of_isText hc
    -- a text takes one slot, so the added slot is the only new one
    have only {m : Nat} {k : Constant} (hm : (p.append c).entries[m]? = some k)
        (hpm : p.slots ≤ m) : k = c ∧ m = p.slots := by
      obtain h | ⟨-, h | rfl⟩ := getElem?_append_cases hm
      · exact absurd (Array.getElem?_eq_some_iff.mp h).1 (Nat.not_lt.mpr hpm)
      · exact h
      · have hlt := (Array.getElem?_eq_some_iff.mp hm).1
        have hslots := slots_append p c
        unfold Constant.width at hslots
        rw [if_neg (by simp [hwide]), slots] at hslots
        have hm : m = p.slots := by omega
        subst hm
        exact ⟨Option.some.inj (hm.symm.trans (getElem?_append_slots p c)), rfl⟩
    obtain ⟨rfl, rfl⟩ := only h hn
    refine ⟨hc, ?_⟩
    intro m hm
    by_cases hpm : p.slots ≤ m
    · exact (only hm hpm).2
    · obtain h | ⟨hle, -⟩ := getElem?_append_cases hm
      · exact absurd (hp h hc) hnew
      · exact absurd hle hpm

theorem within_intern_expands (hc : c.isText = true) : Within Expands (intern c) := by
  refine .of_stateOf ?_
  intro p
  unfold intern
  split
  case h_1 => exact Expands.refl p
  case h_2 hnone =>
    unfold push
    dsimp only
    split
    case isTrue => exact Expands.refl p
    case isFalse hroom =>
      exact expands_append (Nat.le_of_not_lt hroom) hc
        (by simp [Std.HashMap.mem_iff_isSome_getElem?, hnone])

theorem interns_expands : Interns Expands where
  utf8 _ := within_intern_expands rfl
  nameAndType _ _ := (within_intern_expands rfl).bind fun _ =>
    (within_intern_expands rfl).bind fun _ => within_intern_expands rfl

/-- An entry that is no text may be replaced by one of its kind. -/
theorem expands_set {u : Unit} (hi : p.get? i = some old) (hold : old.isText = false)
    (hc : c.fixed = old.fixed) (h : set i c p = .ok u q) : Expands p q := by
  have hsound (hp : p.Sound) : q.Sound := hp.set h
  obtain ⟨old', hi', -, rfl⟩ := set_eq_ok h
  cases hi.symm.trans hi'
  obtain ⟨hn, -⟩ := get?_eq_some.mp hi
  have htext : c.isText = false := by rw [Constant.isText_of_fixed hc, hold]
  have hlt := get?_lt_slots hi
  refine ⟨hsound, ?_, ?_, ?_⟩
  · intro hp n k hk htext'
    rw [mem_learn, mem_forget (by rintro rfl; simp [hold] at htext')]
    by_cases hin : i.toNat = n
    · subst hin
      rw [Array.getElem?_setIfInBounds_self_of_lt hlt] at hk
      cases hk
      simp [htext] at htext'
    · rw [Array.getElem?_setIfInBounds_ne hin] at hk
      exact .inl (hp hk htext')
  · intro n k hk
    by_cases hin : i.toNat = n
    · subst hin
      cases hn.symm.trans hk
      exact ⟨c, Array.getElem?_setIfInBounds_self_of_lt hlt, hc⟩
    · exact ⟨k, by rw [Array.getElem?_setIfInBounds_ne hin, hk], rfl⟩
  · intro _ n k hpn hk
    have := (Array.getElem?_eq_some_iff.mp hk).1
    rw [Array.size_setIfInBounds] at this
    exact absurd this (Nat.not_lt.mpr hpn)

end Pool

end Relabel
