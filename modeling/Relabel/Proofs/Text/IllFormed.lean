import Relabel.Proofs.Text.ModifiedUtf8

/-!
# What modified UTF-8 refuses

Texts and the byte lists that are read stand in bijection. In a written text every byte
that is no continuation byte starts a unit, and every surrogate stands beside its
partner. So bytes are refused wherever a defect stands in them: a raw zero, a form that
is longer than needed, the start of a four-byte form, a form that is cut short, a lone
surrogate.
-/

namespace Relabel.Text

/-! ## Surrogates in a written text -/

theorem not_isLowSurrogate {u : UInt16} (h : isHighSurrogate u = true) :
    isLowSurrogate u = false := by
  simp only [isHighSurrogate, Bool.and_eq_true, decide_eq_true_eq] at h
  simp only [isLowSurrogate, Bool.and_eq_false_iff, decide_eq_false_iff_not]
  omega

/-- A character is one unit that is no surrogate, or a pair of surrogates. -/
theorem unitsOf_cases (c : Char) :
    (∃ u, unitsOf c = [u] ∧ isHighSurrogate u = false ∧ isLowSurrogate u = false) ∨
      ∃ u v, unitsOf c = [u, v] ∧ isHighSurrogate u = true ∧ isLowSurrogate v = true := by
  have hc : c.toNat < 0xD800 ∨ 0xDFFF < c.toNat ∧ c.toNat < 0x110000 := c.valid
  unfold unitsOf
  dsimp only
  split
  case isTrue h =>
    refine .inl ⟨_, rfl, ?_, ?_⟩ <;>
      simp only [isHighSurrogate, isLowSurrogate, UInt16.toNat_ofNat_of_lt' h,
        Bool.and_eq_false_iff, decide_eq_false_iff_not] <;> omega
  case isFalse h =>
    have hhigh : 0xD800 + (c.toNat - 0x10000) / 0x400 < 65536 := by omega
    have hlow : 0xDC00 + (c.toNat - 0x10000) % 0x400 < 65536 := by omega
    refine .inr ⟨_, _, rfl, ?_, ?_⟩
    · simp only [isHighSurrogate, UInt16.toNat_ofNat_of_lt' hhigh, Bool.and_eq_true,
        decide_eq_true_eq]
      omega
    · simp only [isLowSurrogate, UInt16.toNat_ofNat_of_lt' hlow, Bool.and_eq_true,
        decide_eq_true_eq]
      omega

/-- Behind a high surrogate stands a low one. -/
theorem exists_low_of_high {chars : List Char} {before after : List UInt16} {u : UInt16}
    (h : chars.flatMap unitsOf = before ++ u :: after) (hu : isHighSurrogate u = true) :
    ∃ v more, after = v :: more ∧ isLowSurrogate v = true := by
  induction chars generalizing before with
  | nil => simp at h
  | cons c chars ih =>
    rw [List.flatMap_cons] at h
    obtain ⟨x, hunits, hx, -⟩ | ⟨x, y, hunits, -, hy⟩ := unitsOf_cases c
    · rw [hunits] at h
      obtain _ | ⟨_, before⟩ := before
      · cases h
        simp [hx] at hu
      · exact ih (List.cons.inj h).2
    · rw [hunits] at h
      obtain _ | ⟨_, _ | ⟨_, before⟩⟩ := before
      · cases h
        exact ⟨y, _, rfl, hy⟩
      · cases h
        simp [not_isLowSurrogate hu] at hy
      · exact ih (List.cons.inj (List.cons.inj h).2).2

/-- In front of a low surrogate stands a high one. -/
theorem exists_high_of_low {chars : List Char} {before after : List UInt16} {u : UInt16}
    (h : chars.flatMap unitsOf = before ++ u :: after) (hu : isLowSurrogate u = true) :
    ∃ more v, before = more ++ [v] ∧ isHighSurrogate v = true := by
  induction chars generalizing before with
  | nil => simp at h
  | cons c chars ih =>
    rw [List.flatMap_cons] at h
    obtain ⟨x, hunits, -, hx⟩ | ⟨x, y, hunits, hx, -⟩ := unitsOf_cases c
    · rw [hunits] at h
      obtain _ | ⟨z, before⟩ := before
      · cases h
        simp [hx] at hu
      · obtain ⟨more, v, rfl, hv⟩ := ih (List.cons.inj h).2
        exact ⟨z :: more, v, rfl, hv⟩
    · rw [hunits] at h
      obtain _ | ⟨z, _ | ⟨w, before⟩⟩ := before
      · cases h
        simp [not_isLowSurrogate hx] at hu
      · obtain ⟨rfl, -⟩ := List.cons.inj h
        exact ⟨[], x, rfl, hx⟩
      · obtain ⟨more, v, rfl, hv⟩ := ih (List.cons.inj (List.cons.inj h).2).2
        exact ⟨z :: w :: more, v, rfl, hv⟩

namespace ModifiedUtf8

/-! ## Units in written bytes -/

/-- The bytes of a unit, by their number. -/
inductive Form (u : UInt16) : List UInt8 → Prop
  | one {a : UInt8} (ha : a.toNat = u.toNat) (hu : 0 < u.toNat ∧ u.toNat < 0x80) : Form u [a]
  | two {a b : UInt8} (ha : a.toNat = 0xC0 + u.toNat / 0x40) (hb : b.toNat = 0x80 + u.toNat % 0x40)
    (hu : u.toNat = 0 ∨ 0x80 ≤ u.toNat ∧ u.toNat < 0x800) : Form u [a, b]
  | three {a b c : UInt8} (ha : a.toNat = 0xE0 + u.toNat / 0x1000)
    (hb : b.toNat = 0x80 + u.toNat / 0x40 % 0x40) (hc : c.toNat = 0x80 + u.toNat % 0x40)
    (hu : 0x800 ≤ u.toNat) : Form u [a, b, c]

theorem form_unitBytes (u : UInt16) : Form u (unitBytes u) := by
  have hlt := u.toNat_lt
  have small {n : Nat} (h : n < 256) : (UInt8.ofNat n).toNat = n := UInt8.toNat_ofNat_of_lt' h
  unfold unitBytes
  dsimp only
  split
  case isTrue h =>
    simp only [Bool.and_eq_true, decide_eq_true_eq] at h
    exact .one (small (by omega)) h
  case isFalse h =>
    simp only [Bool.and_eq_true, decide_eq_true_eq] at h
    split
    case isTrue htwo => exact .two (small (by omega)) (small (by omega)) (by omega)
    case isFalse hthree =>
      exact .three (small (by omega)) (small (by omega)) (small (by omega)) (by omega)

/-- All bytes of a unit but the first are continuation bytes. -/
theorem isContinuation_of_mem_tail {u : UInt16} {b : UInt8} (h : b ∈ (unitBytes u).tail) :
    isContinuation b = true := by
  have hu := u.toNat_lt
  generalize unitBytes u = bytes, form_unitBytes u = hform at h
  rw [isContinuation_iff]
  cases hform with
  | one => simp at h
  | two _ hb _ =>
    obtain rfl : b = _ := by simpa using h
    omega
  | three _ hb hc _ =>
    obtain rfl | rfl : b = _ ∨ b = _ := by simpa using h
    · omega
    · omega

/-- In written bytes, a byte that is no continuation byte starts a unit. -/
theorem exists_unit_of_lead {units : List UInt16} {front rest : List UInt8} {lead : UInt8}
    (h : units.flatMap unitBytes = front ++ lead :: rest) (hlead : isContinuation lead = false) :
    ∃ before u after more, units = before ++ u :: after ∧ before.flatMap unitBytes = front ∧
      unitBytes u = lead :: more ∧ rest = more ++ after.flatMap unitBytes := by
  induction units generalizing front with
  | nil => simp at h
  | cons u units ih =>
    rw [List.flatMap_cons] at h
    -- the rest of the argument if the unit in front ends before the byte
    have behind {between : List UInt8} (hfront : front = unitBytes u ++ between)
        (hunits : units.flatMap unitBytes = between ++ lead :: rest) :
        ∃ before v after more, u :: units = before ++ v :: after ∧
          before.flatMap unitBytes = front ∧ unitBytes v = lead :: more ∧
          rest = more ++ after.flatMap unitBytes := by
      obtain ⟨before, v, after, more, rfl, rfl, hv, hrest⟩ := ih hunits
      exact ⟨u :: before, v, after, more, rfl, hfront.symm, hv, hrest⟩
    obtain ⟨between, hfront, hunits⟩ | ⟨between, hu, hunits⟩ := List.append_eq_append_iff.mp h
    · exact behind hfront hunits
    · obtain _ | ⟨b, more⟩ := between
      · rw [List.append_nil] at hu
        exact behind (hu.symm.trans (List.append_nil _).symm) hunits.symm
      · obtain ⟨rfl, rfl⟩ := List.cons.inj hunits
        obtain _ | ⟨a, front⟩ := front
        · exact ⟨[], u, units, more, rfl, rfl, hu, rfl⟩
        · have hmem : lead ∈ (unitBytes u).tail := by simp [hu]
          simp [isContinuation_of_mem_tail hmem] at hlead

/-! ## Defects -/

/-- A low surrogate stands in front. -/
def StartsLow (bytes : List UInt8) : Prop :=
  ∃ b rest, bytes = 0xED :: b :: rest ∧ 0xB0 ≤ b.toNat

/-- A high surrogate stands at the end. -/
def EndsHigh (bytes : List UInt8) : Prop :=
  ∃ front b c, bytes = front ++ [0xED, b, c] ∧ 0xA0 ≤ b.toNat ∧ b.toNat < 0xB0

/-- The number of continuation bytes that a first byte asks for. -/
def needed (lead : UInt8) : Nat := if lead.toNat < 0xE0 then 1 else 2

/-- The bytes hold something that no text is written as. -/
inductive Defective : List UInt8 → Prop
  | zero (front rest : List UInt8) : Defective (front ++ 0 :: rest)
  /-- A unit below 0x80 in two bytes. Only zero is written so. -/
  | overlongTwo (front rest : List UInt8) {lead b : UInt8}
    (h : lead = 0xC0 ∧ b ≠ 0x80 ∨ lead = 0xC1) : Defective (front ++ lead :: b :: rest)
  /-- A unit below 0x800 in three bytes. -/
  | overlongThree (front rest : List UInt8) {b : UInt8} (h : b.toNat < 0xA0) :
    Defective (front ++ 0xE0 :: b :: rest)
  /-- The first byte of a form of four bytes or more. -/
  | fourBytes (front rest : List UInt8) {lead : UInt8} (h : 0xF0 ≤ lead.toNat) :
    Defective (front ++ lead :: rest)
  | truncated (front rest : List UInt8) {lead : UInt8} (hlead : 0xC0 ≤ lead.toNat)
    (h : (rest.takeWhile isContinuation).length < needed lead) : Defective (front ++ lead :: rest)
  | unpairedHigh (front rest : List UInt8) {b c : UInt8} (hb : 0xA0 ≤ b.toNat ∧ b.toNat < 0xB0)
    (hrest : ¬ StartsLow rest) : Defective (front ++ 0xED :: b :: c :: rest)
  | unpairedLow (front rest : List UInt8) {b c : UInt8} (hb : 0xB0 ≤ b.toNat)
    (hfront : ¬ EndsHigh front) : Defective (front ++ 0xED :: b :: c :: rest)

theorem not_isContinuation {b : UInt8} (h : b.toNat < 0x80 ∨ 0xC0 ≤ b.toNat) :
    isContinuation b = false := by
  rw [← Bool.not_eq_true, isContinuation_iff]
  omega

/-- The bytes of a surrogate. The second one tells whether it is high or low. -/
theorem unitBytes_surrogate {u : UInt16} (h : 0xD800 ≤ u.toNat ∧ u.toNat < 0xE000) :
    ∃ b c, unitBytes u = [0xED, b, c] ∧ b.toNat = 0x80 + u.toNat / 0x40 % 0x40 := by
  have hlead : (0xED : UInt8).toNat = 0xED := rfl
  generalize unitBytes u = bytes, form_unitBytes u = hform
  cases hform with
  | one _ hu | two _ _ hu => omega
  | @three a b c ha hb _ _ =>
    obtain rfl : a = 0xED := UInt8.toNat_inj.mp (ha.trans (by omega))
    exact ⟨b, c, rfl, hb⟩

/-- Three bytes of which the first is that of the surrogates are a unit. -/
theorem unit_of_surrogate {u : UInt16} {b c : UInt8} {more tail rest : List UInt8}
    (hu : unitBytes u = 0xED :: more) (h : b :: c :: rest = more ++ tail) :
    tail = rest ∧ u.toNat / 0x1000 = 0xD ∧ b.toNat = 0x80 + u.toNat / 0x40 % 0x40 := by
  have hlead : (0xED : UInt8).toNat = 0xED := rfl
  have hform := form_unitBytes u
  rw [hu] at hform
  cases hform with
  | one ha _ | two ha _ _ => omega
  | three ha hb _ _ =>
    cases h
    exact ⟨rfl, by omega, hb⟩

/-- The bytes of a unit that starts with `lead`, followed by other units, hold what `lead` asks
for. -/
theorem needed_le {u : UInt16} {lead : UInt8} {more : List UInt8}
    (hu : unitBytes u = lead :: more) (hlead : 0xC0 ≤ lead.toNat) (tail : List UInt8) :
    needed lead ≤ ((more ++ tail).takeWhile isContinuation).length := by
  have hcontinuation {b : UInt8} (hb : b ∈ more) : isContinuation b = true :=
    isContinuation_of_mem_tail (u := u) (by simpa [hu] using hb)
  have hform := form_unitBytes u
  have hlt := u.toNat_lt
  rw [hu] at hform
  rw [List.takeWhile_append_of_pos fun b hb => hcontinuation hb, List.length_append]
  unfold needed
  cases hform with
  | one ha _ => omega
  | two ha _ _ =>
    rw [if_pos (by omega)]
    simp
  | three ha _ _ _ =>
    rw [if_neg (by omega)]
    simp

section

variable {text : String} {front rest : List UInt8} {lead b c : UInt8}

/-- In a written text, a byte that is no continuation byte is the first of some unit. -/
theorem exists_form_of_lead (h : encode text = front ++ lead :: rest)
    (hlead : lead.toNat < 0x80 ∨ 0xC0 ≤ lead.toNat) :
    ∃ u more tail, Form u (lead :: more) ∧ rest = more ++ tail := by
  obtain ⟨-, u, after, more, -, -, hu, hrest⟩ :=
    exists_unit_of_lead h (not_isContinuation hlead)
  exact ⟨u, more, after.flatMap unitBytes, hu ▸ form_unitBytes u, hrest⟩

theorem lead_of_encode (h : encode text = front ++ lead :: rest)
    (hlead : lead.toNat < 0x80 ∨ 0xC0 ≤ lead.toNat) : lead.toNat ≠ 0 ∧ lead.toNat < 0xF0 := by
  obtain ⟨u, more, tail, hform, -⟩ := exists_form_of_lead h hlead
  have hlt := u.toNat_lt
  cases hform with
  | one ha hu => omega
  | two ha _ _ => omega
  | three ha _ _ _ => omega

/-- Two bytes are zero, or a unit from 0x80 on. -/
theorem two_of_encode (h : encode text = front ++ lead :: b :: rest)
    (hlead : lead.toNat = 0xC0 ∨ lead.toNat = 0xC1) : lead.toNat = 0xC0 ∧ b.toNat = 0x80 := by
  obtain ⟨u, more, tail, hform, hrest⟩ := exists_form_of_lead h (by omega)
  cases hform with
  | one ha hu => omega
  | three ha _ _ _ => omega
  | two ha hb hu =>
    cases hrest
    omega

/-- Three bytes are a unit from 0x800 on. -/
theorem three_of_encode (h : encode text = front ++ lead :: b :: rest)
    (hlead : lead.toNat = 0xE0) : 0xA0 ≤ b.toNat := by
  obtain ⟨u, more, tail, hform, hrest⟩ := exists_form_of_lead h (by omega)
  cases hform with
  | one ha hu => omega
  | two ha _ _ => omega
  | three ha hb _ _ =>
    cases hrest
    omega

theorem needed_of_encode (h : encode text = front ++ lead :: rest) (hlead : 0xC0 ≤ lead.toNat) :
    needed lead ≤ (rest.takeWhile isContinuation).length := by
  obtain ⟨-, u, after, more, -, -, hu, rfl⟩ :=
    exists_unit_of_lead h (not_isContinuation (.inr hlead))
  exact needed_le hu hlead (after.flatMap unitBytes)

theorem startsLow_of_encode (h : encode text = front ++ 0xED :: b :: c :: rest)
    (hb : 0xA0 ≤ b.toNat ∧ b.toNat < 0xB0) : StartsLow rest := by
  obtain ⟨before, u, after, more, hunits, -, hu, htail⟩ :=
    exists_unit_of_lead h (not_isContinuation (.inr (by decide)))
  obtain ⟨rfl, hfirst, hsecond⟩ := unit_of_surrogate hu htail
  have hhigh : isHighSurrogate u = true := by
    simp only [isHighSurrogate, Bool.and_eq_true, decide_eq_true_eq]
    omega
  obtain ⟨v, after, rfl, hv⟩ := exists_low_of_high hunits hhigh
  simp only [isLowSurrogate, Bool.and_eq_true, decide_eq_true_eq] at hv
  obtain ⟨b', c', hbytes, hb'⟩ := unitBytes_surrogate (u := v) (by omega)
  refine ⟨b', c' :: after.flatMap unitBytes, ?_, by omega⟩
  rw [List.flatMap_cons, hbytes]
  rfl

theorem endsHigh_of_encode (h : encode text = front ++ 0xED :: b :: c :: rest)
    (hb : 0xB0 ≤ b.toNat) : EndsHigh front := by
  obtain ⟨before, u, after, more, hunits, rfl, hu, htail⟩ :=
    exists_unit_of_lead h (not_isContinuation (.inr (by decide)))
  obtain ⟨-, hfirst, hsecond⟩ := unit_of_surrogate hu htail
  have hlow : isLowSurrogate u = true := by
    simp only [isLowSurrogate, Bool.and_eq_true, decide_eq_true_eq]
    omega
  obtain ⟨before, v, rfl, hv⟩ := exists_high_of_low hunits hlow
  simp only [isHighSurrogate, Bool.and_eq_true, decide_eq_true_eq] at hv
  obtain ⟨b', c', hbytes, hb'⟩ := unitBytes_surrogate (u := v) (by omega)
  refine ⟨before.flatMap unitBytes, b', c', ?_, by omega, by omega⟩
  rw [List.flatMap_append, List.flatMap_singleton, hbytes]

end

theorem not_defective_encode (text : String) : ¬ Defective (encode text) := by
  intro h
  generalize hbytes : encode text = bytes at h
  cases h with
  | zero front rest => exact (lead_of_encode hbytes (.inl (by decide))).1 rfl
  | @overlongTwo front rest lead b h =>
    have hlead : lead.toNat = 0xC0 ∨ lead.toNat = 0xC1 := by
      obtain ⟨rfl, -⟩ | rfl := h
      · exact .inl rfl
      · exact .inr rfl
    obtain ⟨hfirst, hsecond⟩ := two_of_encode hbytes hlead
    obtain ⟨-, hb⟩ | rfl := h
    · exact hb (UInt8.toNat_inj.mp hsecond)
    · cases hfirst
  | overlongThree front rest h =>
    have hle := three_of_encode hbytes rfl
    omega
  | fourBytes front rest h =>
    have hlt := (lead_of_encode hbytes (by omega)).2
    omega
  | truncated front rest hlead h =>
    have hle := needed_of_encode hbytes hlead
    omega
  | unpairedHigh front rest hb hrest => exact hrest (startsLow_of_encode hbytes hb)
  | unpairedLow front rest hb hfront => exact hfront (endsHigh_of_encode hbytes hb)

theorem exists_flaw_of_defective {bytes : List UInt8} (h : Defective bytes) :
    ∃ flaw, decode bytes = .error flaw := by
  cases hdecode : decode bytes with
  | error flaw => exact ⟨flaw, rfl⟩
  | ok text => exact absurd (encode_of_decode hdecode ▸ h) (not_defective_encode text)

/-- Texts correspond one to one to the bytes that are read, plain bytes are read alike in both ways,
and no defect is passed over. -/
theorem texts_correspond :
    (∀ text, decode (encode text) = .ok text) ∧
      (∀ bytes text, decode bytes = .ok text → encode text = bytes) ∧
      (∀ bytes, bytes.all isPlain = true → decodePlain bytes = decodeUnits bytes) ∧
      ∀ bytes, Defective bytes → ∃ flaw, decode bytes = .error flaw :=
  ⟨decode_encode, fun _ _ => encode_of_decode, fun _ => decodePlain_eq_decodeUnits,
    fun _ => exists_flaw_of_defective⟩

/-- A zero and a character of two units, plain bytes, and a high surrogate that is followed by a
letter. -/
theorem texts_correspond_mixed :
    encode "a\x00😀" = [0x61, 0xC0, 0x80, 0xED, 0xA0, 0xBD, 0xED, 0xB8, 0x80] ∧
      decodePlain [0x61, 0x62] = decodeUnits [0x61, 0x62] ∧
      ∃ flaw, decode [0x61, 0xED, 0xA0, 0xBD, 0x62] = .error flaw := by
  obtain ⟨-, hencode, hplain, hdefective⟩ := texts_correspond
  refine ⟨hencode _ _ rfl, hplain _ (by decide), hdefective _ ?_⟩
  refine .unpairedHigh [0x61] [0x62] (by decide) ?_
  rintro ⟨b, rest, h, -⟩
  cases h

end ModifiedUtf8

end Relabel.Text
