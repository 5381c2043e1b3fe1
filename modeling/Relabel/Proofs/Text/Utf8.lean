import Relabel.Text.Utf8

/-!
# UTF-8: the form of a text is unique

The UTF-8 form of a text is read as that text, and what is read as a text is its UTF-8
form. The reader takes a character from its first byte and the bytes that the first one
asks for, so the invariant of the induction is the part that is already read, and each
length of a sequence is a case of its own. A byte below 0x80 is a character of its own
wherever it stands in such a form.
-/

namespace Relabel.Text

/-- The UTF-8 form of a text. -/
def utf8 (text : String) : List UInt8 := text.toUTF8.data.toList

theorem utf8_eq (text : String) : utf8 text = text.toList.flatMap String.utf8EncodeChar := by
  have h (chars : List Char) :
      utf8 (String.ofList chars) = chars.flatMap String.utf8EncodeChar := by
    simp only [utf8, String.toUTF8_eq_toByteArray, String.toByteArray_ofList, List.utf8Encode,
      List.data_toByteArray]
  rw [← h text.toList, String.ofList_toList]

theorem utf8_cons {text : String} {c : Char} {chars : List Char} (h : text.toList = c :: chars) :
    utf8 text = String.utf8EncodeChar c ++ utf8 (.ofList chars) := by
  rw [utf8_eq, utf8_eq, h, String.toList_ofList, List.flatMap_cons]

namespace Utf8

variable {position fitted value result : Nat} {done : List Char} {rest : List UInt8}

/-- Bytes inside a character are passed over. -/
theorem charsFrom_inside (inside : List UInt8) :
    charsFrom position inside.length done (inside ++ rest)
      = charsFrom (position + inside.length) 0 done rest := by
  induction inside generalizing position with
  | nil => rfl
  | cons b inside ih =>
    have hstep : charsFrom position (inside.length + 1) done (b :: (inside ++ rest))
        = charsFrom (position + 1) inside.length done (inside ++ rest) := by
      rw [charsFrom, if_pos (Nat.succ_ne_zero _), Nat.add_sub_cancel]
    rw [List.length_cons, List.cons_append, hstep, ih, Nat.add_assoc, Nat.add_comm 1]

theorem follow_cons {least most : Nat} {more : List (Nat × Nat)} {b : UInt8}
    (hleast : least ≤ b.toNat) (hmost : b.toNat ≤ most) :
    follow fitted value ((least, most) :: more) (b :: rest)
      = follow (fitted + 1) (value * 0x40 + b.toNat % 0x40) more rest := by
  rw [follow, if_pos (by simp [hleast, hmost])]

/-- A first byte with the bytes that it asks for is read as their character. -/
theorem charsFrom_sequence {lead : UInt8} (inside : List UInt8) {more : List (Nat × Nat)}
    (hbounds : bounds lead.toNat = some more) (hlen : inside.length = more.length)
    (hvalue : follow 1 (leadBits lead.toNat more.length) more (inside ++ rest) = .ok value) :
    charsFrom position 0 done (lead :: inside ++ rest)
      = charsFrom (position + 1 + inside.length) 0 (Char.ofNat value :: done) rest := by
  rw [List.cons_append, charsFrom, if_neg (fun h => h rfl)]
  simp only [hbounds, hvalue]
  rw [← hlen, charsFrom_inside]

/-! ## The forms by their lengths -/

variable {c : Char}

theorem charsFrom_one {b : UInt8} (hb : b.toNat < 0x80) :
    charsFrom position 0 done (b :: rest)
      = charsFrom (position + 1) 0 (Char.ofNat b.toNat :: done) rest := by
  have hbounds : bounds b.toNat = some [] := if_pos hb
  exact charsFrom_sequence [] hbounds rfl rfl

theorem charsFrom_two (value : Nat) {a b : UInt8} (ha : 0xC2 ≤ a.toNat ∧ a.toNat < 0xE0)
    (hb : 0x80 ≤ b.toNat ∧ b.toNat ≤ 0xBF)
    (hvalue : value = a.toNat % 0x20 * 0x40 + b.toNat % 0x40) :
    charsFrom position 0 done (a :: b :: rest)
      = charsFrom (position + 2) 0 (Char.ofNat value :: done) rest := by
  have hbounds : bounds a.toNat = some [(0x80, 0xBF)] := by
    rw [bounds, if_neg (by omega), if_neg (by omega), if_pos ha.2]
  refine charsFrom_sequence [b] hbounds rfl ?_
  rw [List.cons_append, follow_cons hb.1 hb.2, hvalue]
  rfl

/-- The second byte of three shows that no shorter form would do and that the character is no
surrogate. -/
theorem charsFrom_three (value : Nat) {a b d : UInt8} (ha : 0xE0 ≤ a.toNat ∧ a.toNat < 0xF0)
    (hb : 0x80 ≤ b.toNat ∧ b.toNat ≤ 0xBF) (hd : 0x80 ≤ d.toNat ∧ d.toNat ≤ 0xBF)
    (hlow : a.toNat = 0xE0 → 0xA0 ≤ b.toNat) (hhigh : a.toNat = 0xED → b.toNat ≤ 0x9F)
    (hvalue : value = (a.toNat % 0x10 * 0x40 + b.toNat % 0x40) * 0x40 + d.toNat % 0x40) :
    charsFrom position 0 done (a :: b :: d :: rest)
      = charsFrom (position + 3) 0 (Char.ofNat value :: done) rest := by
  obtain ⟨least, most, hbounds, hleast, hmost⟩ : ∃ least most,
      bounds a.toNat = some [(least, most), (0x80, 0xBF)] ∧ least ≤ b.toNat ∧ b.toNat ≤ most := by
    rw [bounds, if_neg (by omega), if_neg (by omega), if_neg (by omega)]
    split
    case isTrue h => exact ⟨_, _, rfl, hlow h, hb.2⟩
    case isFalse =>
      split
      case isTrue h => exact ⟨_, _, rfl, hb.1, hhigh h⟩
      case isFalse => exact ⟨_, _, if_pos ha.2, hb.1, hb.2⟩
  refine charsFrom_sequence [b, d] hbounds rfl ?_
  rw [List.cons_append, List.cons_append, follow_cons hleast hmost, follow_cons hd.1 hd.2, hvalue]
  rfl

/-- The second byte of four shows that three would not do and that the character exists. -/
theorem charsFrom_four (value : Nat) {a b d e : UInt8} (ha : 0xF0 ≤ a.toNat ∧ a.toNat ≤ 0xF4)
    (hb : 0x80 ≤ b.toNat ∧ b.toNat ≤ 0xBF) (hd : 0x80 ≤ d.toNat ∧ d.toNat ≤ 0xBF)
    (he : 0x80 ≤ e.toNat ∧ e.toNat ≤ 0xBF) (hlow : a.toNat = 0xF0 → 0x90 ≤ b.toNat)
    (hhigh : a.toNat = 0xF4 → b.toNat ≤ 0x8F)
    (hvalue : value = ((a.toNat % 0x08 * 0x40 + b.toNat % 0x40) * 0x40 + d.toNat % 0x40) * 0x40
      + e.toNat % 0x40) :
    charsFrom position 0 done (a :: b :: d :: e :: rest)
      = charsFrom (position + 4) 0 (Char.ofNat value :: done) rest := by
  obtain ⟨least, most, hbounds, hleast, hmost⟩ : ∃ least most,
      bounds a.toNat = some [(least, most), (0x80, 0xBF), (0x80, 0xBF)] ∧ least ≤ b.toNat
        ∧ b.toNat ≤ most := by
    rw [bounds, if_neg (by omega), if_neg (by omega), if_neg (by omega), if_neg (by omega),
      if_neg (by omega), if_neg (by omega)]
    split
    case isTrue h => exact ⟨_, _, rfl, hlow h, hb.2⟩
    case isFalse =>
      split
      case isTrue h => exact ⟨_, _, rfl, hb.1, hb.2⟩
      case isFalse => exact ⟨_, _, if_pos (by omega), hb.1, hhigh (by omega)⟩
  refine charsFrom_sequence [b, d, e] hbounds rfl ?_
  rw [List.cons_append, List.cons_append, List.cons_append, follow_cons hleast hmost,
    follow_cons hd.1 hd.2, follow_cons he.1 he.2, hvalue]
  rfl

/-- The form of a character is read as that character. -/
theorem charsFrom_utf8EncodeChar (c : Char) (position : Nat) (done : List Char)
    (rest : List UInt8) : charsFrom position 0 done (String.utf8EncodeChar c ++ rest)
      = charsFrom (position + (String.utf8EncodeChar c).length) 0 (c :: done) rest := by
  have hc : c.toNat < 0xD800 ∨ 0xDFFF < c.toNat ∧ c.toNat < 0x110000 := c.valid
  have hsame : Char.ofNat c.toNat = c := Char.ofNat_toNat c
  have small {n : Nat} (h : n < 256) : (UInt8.ofNat n).toNat = n := UInt8.toNat_ofNat_of_lt' h
  have next (n : Nat) : (UInt8.ofNat (n % 64 + 128)).toNat = n % 64 + 128 := small (by omega)
  simp only [String.utf8EncodeChar, show c.val.toNat = c.toNat from rfl]
  split
  case isTrue h =>
    have hlead := small (show c.toNat < 256 by omega)
    rw [List.cons_append, List.nil_append, charsFrom_one (by omega), hlead, hsame]
    rfl
  case isFalse h =>
    split
    case isTrue htwo =>
      have hlead := small (show c.toNat / 64 % 32 + 192 < 256 by omega)
      have hlast := next c.toNat
      simp only [List.cons_append, List.nil_append]
      rw [charsFrom_two c.toNat (by omega) (by omega) (by omega), hsame]
      rfl
    case isFalse htwo =>
      split
      case isTrue hthree =>
        have hlead := small (show c.toNat / 4096 % 16 + 224 < 256 by omega)
        have hsecond := next (c.toNat / 64)
        have hlast := next c.toNat
        simp only [List.cons_append, List.nil_append]
        rw [charsFrom_three c.toNat (by omega) (by omega) (by omega) (by omega)
          (by omega) (by omega), hsame]
        rfl
      case isFalse hthree =>
        have hlead := small (show c.toNat / 262144 % 8 + 240 < 256 by omega)
        have hsecond := next (c.toNat / 4096)
        have hthird := next (c.toNat / 64)
        have hlast := next c.toNat
        simp only [List.cons_append, List.nil_append]
        rw [charsFrom_four c.toNat (by omega) (by omega) (by omega) (by omega)
          (by omega) (by omega) (by omega), hsame]
        rfl

theorem charsFrom_flatMap_utf8EncodeChar (chars : List Char) (position : Nat)
    (done : List Char) :
    charsFrom position 0 done (chars.flatMap String.utf8EncodeChar)
      = .ok (done.reverse ++ chars) := by
  induction chars generalizing position done with
  | nil => simp [charsFrom]
  | cons c chars ih => rw [List.flatMap_cons, charsFrom_utf8EncodeChar, ih]; simp

/-- A text is read back from its UTF-8 form. -/
theorem decode_utf8 (text : String) : decode (utf8 text) = .ok text := by
  have hchars : charsFrom 0 0 [] (utf8 text) = .ok text.toList := by
    rw [utf8_eq]
    exact charsFrom_flatMap_utf8EncodeChar text.toList 0 []
  simp only [decode, hchars, bind, Except.bind, pure, Except.pure, String.ofList_toList]

/-! ## What is read is the form of a text -/

theorem follow_eq_ok {least most : Nat} {more : List (Nat × Nat)} {bytes : List UInt8}
    (h : follow fitted value ((least, most) :: more) bytes = .ok result) :
    ∃ b rest, bytes = b :: rest ∧ least ≤ b.toNat ∧ b.toNat ≤ most ∧
      follow (fitted + 1) (value * 0x40 + b.toNat % 0x40) more rest = .ok result := by
  obtain _ | ⟨b, rest⟩ := bytes
  · cases h
  · rw [follow] at h
    split at h
    case isTrue hb =>
      simp only [Bool.and_eq_true, decide_eq_true_eq] at hb
      exact ⟨b, rest, rfl, hb.1, hb.2, h⟩
    case isFalse => cases h

/-- What a first byte asks for, by the length of the sequence. -/
inductive Asks (lead : Nat) : List (Nat × Nat) → Prop
  | one (hlead : lead < 0x80) : Asks lead []
  | two (hlead : 0xC2 ≤ lead ∧ lead < 0xE0) : Asks lead [(0x80, 0xBF)]
  | three {least most : Nat} (hlead : 0xE0 ≤ lead ∧ lead < 0xF0)
    (hbounds : 0x80 ≤ least ∧ most ≤ 0xBF) (hlow : lead = 0xE0 → least = 0xA0)
    (hhigh : lead = 0xED → most = 0x9F) : Asks lead [(least, most), (0x80, 0xBF)]
  | four {least most : Nat} (hlead : 0xF0 ≤ lead ∧ lead ≤ 0xF4)
    (hbounds : 0x80 ≤ least ∧ most ≤ 0xBF) (hlow : lead = 0xF0 → least = 0x90)
    (hhigh : lead = 0xF4 → most = 0x8F) : Asks lead [(least, most), (0x80, 0xBF), (0x80, 0xBF)]

theorem asks_of_bounds {lead : Nat} {more : List (Nat × Nat)} (h : bounds lead = some more) :
    Asks lead more := by
  unfold bounds at h
  repeat' split at h
  all_goals cases h
  · exact .one (by omega)
  · exact .two (by omega)
  · exact .three (by omega) (by omega) (by omega) (by omega)
  · exact .three (by omega) (by omega) (by omega) (by omega)
  · exact .three (by omega) (by omega) (by omega) (by omega)
  · exact .four (by omega) (by omega) (by omega) (by omega)
  · exact .four (by omega) (by omega) (by omega) (by omega)
  · exact .four (by omega) (by omega) (by omega) (by omega)

/-- A first byte that is followed by what it asks for starts the form of the character. -/
theorem utf8EncodeChar_of_follow {lead : UInt8} {more : List (Nat × Nat)}
    (hbounds : bounds lead.toNat = some more)
    (h : follow 1 (leadBits lead.toNat more.length) more rest = .ok value) :
    ∃ inside tail, rest = inside ++ tail ∧ inside.length = more.length ∧
      String.utf8EncodeChar (Char.ofNat value) = lead :: inside := by
  have same {b : UInt8} {n : Nat} (hn : n = b.toNat) : UInt8.ofNat n = b := by
    rw [hn, UInt8.ofNat_toNat]
  have char {n : Nat} (hn : n < 0xD800 ∨ 0xDFFF < n ∧ n < 0x110000) :
      (Char.ofNat n).val.toNat = n := by
    rw [Char.ofNat, dif_pos hn]
    rfl
  cases asks_of_bounds hbounds with
  | one hlead =>
    cases h
    refine ⟨[], rest, rfl, rfl, ?_⟩
    simp only [String.utf8EncodeChar, leadBits, List.length_nil,
      char (n := lead.toNat) (.inl (by omega))]
    rw [if_pos (by omega), UInt8.ofNat_toNat]
  | two hlead =>
    obtain ⟨b, rest, rfl, hb, hb', ⟨⟩⟩ := follow_eq_ok h
    refine ⟨[b], rest, rfl, rfl, ?_⟩
    simp only [String.utf8EncodeChar, leadBits, List.length_cons, List.length_nil]
    rw [char (.inl (by omega)), if_neg (by omega), if_pos (by omega), same (b := lead) (by omega),
      same (b := b) (by omega)]
  | three hlead hlimits hlow hhigh =>
    obtain ⟨b, _, rfl, hb, hb', h⟩ := follow_eq_ok h
    obtain ⟨d, rest, rfl, hd, hd', ⟨⟩⟩ := follow_eq_ok h
    refine ⟨[b, d], rest, rfl, rfl, ?_⟩
    simp only [String.utf8EncodeChar, leadBits, List.length_cons, List.length_nil]
    rw [char (by omega), if_neg (by omega), if_neg (by omega), if_pos (by omega),
      same (b := lead) (by omega), same (b := b) (by omega), same (b := d) (by omega)]
  | four hlead hlimits hlow hhigh =>
    obtain ⟨b, _, rfl, hb, hb', h⟩ := follow_eq_ok h
    obtain ⟨d, _, rfl, hd, hd', h⟩ := follow_eq_ok h
    obtain ⟨e, rest, rfl, he, he', ⟨⟩⟩ := follow_eq_ok h
    refine ⟨[b, d, e], rest, rfl, rfl, ?_⟩
    simp only [String.utf8EncodeChar, leadBits, List.length_cons, List.length_nil]
    rw [char (by omega), if_neg (by omega), if_neg (by omega), if_neg (by omega),
      same (b := lead) (by omega), same (b := b) (by omega), same (b := d) (by omega),
      same (b := e) (by omega)]

/-- The characters that are read are written as the bytes, behind those read before. -/
theorem flatMap_utf8EncodeChar_charsFrom {bytes : List UInt8} {chars : List Char}
    (h : charsFrom position 0 done bytes = .ok chars) :
    chars.flatMap String.utf8EncodeChar
      = done.reverse.flatMap String.utf8EncodeChar ++ bytes := by
  induction hlen : bytes.length using Nat.strongRecOn generalizing bytes position done with
  | _ n ih =>
    obtain _ | ⟨lead, rest⟩ := bytes
    · cases h
      simp
    · rw [charsFrom, if_neg (fun h => h rfl)] at h
      split at h
      case h_1 => cases h
      case h_2 more hbounds =>
        split at h
        case h_1 => cases h
        case h_2 value hvalue =>
          obtain ⟨inside, tail, rfl, hinside, hform⟩ := utf8EncodeChar_of_follow hbounds hvalue
          rw [← hinside, charsFrom_inside] at h
          have hlt : tail.length < n := by
            rw [← hlen, List.length_cons, List.length_append]
            omega
          rw [ih tail.length hlt h rfl]
          simp [hform]

/-- A text that is read was stored in its UTF-8 form. -/
theorem utf8_of_decode {bytes : List UInt8} {text : String} (h : decode bytes = .ok text) :
    utf8 text = bytes := by
  simp only [decode, bind, Except.bind] at h
  split at h
  case h_1 => cases h
  case h_2 chars hchars =>
    cases h
    rw [utf8_eq, String.toList_ofList, flatMap_utf8EncodeChar_charsFrom hchars]
    rfl

/-! ## Bytes of their own -/

/-- A byte below 0x80 in the form of a character is all of it. -/
theorem utf8EncodeChar_of_mem {b : UInt8} (hb : b.toNat < 0x80)
    (h : b ∈ String.utf8EncodeChar c) : String.utf8EncodeChar c = [b] ∧ c.toNat = b.toNat := by
  have high {n : Nat} (hn : 0x80 ≤ n ∧ n < 256) : b ≠ UInt8.ofNat n := by
    rintro rfl
    rw [UInt8.toNat_ofNat_of_lt' hn.2] at hb
    omega
  simp only [String.utf8EncodeChar, show c.val.toNat = c.toNat from rfl] at h ⊢
  split at h
  case isTrue hone =>
    rw [if_pos hone, List.mem_singleton.mp h,
      UInt8.toNat_ofNat_of_lt' (show c.toNat < 256 by omega)]
    exact ⟨rfl, rfl⟩
  case isFalse =>
    -- every byte of a longer form is 0x80 or more
    exfalso
    revert h
    split
    · simp only [List.mem_cons, List.not_mem_nil, or_false, imp_false, not_or]
      exact ⟨high (by omega), high (by omega)⟩
    · split
      · simp only [List.mem_cons, List.not_mem_nil, or_false, imp_false, not_or]
        exact ⟨high (by omega), high (by omega), high (by omega)⟩
      · simp only [List.mem_cons, List.not_mem_nil, or_false, imp_false, not_or]
        exact ⟨high (by omega), high (by omega), high (by omega), high (by omega)⟩

/-- A byte below 0x80 in the form of a text is one of its characters. -/
theorem exists_char_of_mem {text : String} {b : UInt8} (hb : b.toNat < 0x80)
    (h : b ∈ utf8 text) : ∃ c ∈ text.toList, c.toNat = b.toNat := by
  rw [utf8_eq, List.mem_flatMap] at h
  obtain ⟨c, hc, h⟩ := h
  exact ⟨c, hc, (utf8EncodeChar_of_mem hb h).2⟩

end Utf8

end Relabel.Text
