import Relabel.Proofs.Text.Utf8
import Relabel.Text.ModifiedUtf8

/-!
# Modified UTF-8: the form of a text is unique

Reading keeps no freedom: the bytes that are read as a text are the bytes that the text
is written as, and these are read as the text. The two stages, from bytes to units and
from units to characters, are treated apart, each with the part that is already read as
its invariant. Plain bytes are the form of a text in UTF-8 as well, so both ways of
reading them agree.
-/

namespace Relabel.Text

/-! ## Units and characters -/

theorem toNat_charOfNat {n : Nat} (h : n.isValidChar) : (Char.ofNat n).toNat = n := by
  rw [Char.ofNat, dif_pos h]
  rfl

/-- A unit that is no surrogate is a character of its own. -/
theorem unitsOf_unit {u : UInt16} (hl : isLowSurrogate u = false)
    (hh : isHighSurrogate u = false) : unitsOf (Char.ofNat u.toNat) = [u] := by
  have hu := u.toNat_lt
  simp only [isLowSurrogate, isHighSurrogate, Bool.and_eq_false_iff, decide_eq_false_iff_not]
    at hl hh
  have hn : (Char.ofNat u.toNat).toNat = u.toNat :=
    toNat_charOfNat (by simp only [Nat.isValidChar]; omega)
  simp only [unitsOf, hn, UInt16.ofNat_toNat]
  rw [if_pos (by omega)]

theorem unitsOf_pairChar {u v : UInt16} (hu : isHighSurrogate u = true)
    (hv : isLowSurrogate v = true) : unitsOf (pairChar u v) = [u, v] := by
  simp only [isLowSurrogate, isHighSurrogate, Bool.and_eq_true, decide_eq_true_eq] at hu hv
  have hn : (pairChar u v).toNat
      = 0x10000 + (u.toNat - 0xD800) * 0x400 + (v.toNat - 0xDC00) :=
    toNat_charOfNat (by simp only [Nat.isValidChar]; omega)
  have high : 0xD800 + ((pairChar u v).toNat - 0x10000) / 0x400 = u.toNat := by omega
  have low : 0xDC00 + ((pairChar u v).toNat - 0x10000) % 0x400 = v.toNat := by omega
  simp only [unitsOf, high, low, UInt16.ofNat_toNat]
  rw [if_neg (by omega)]

theorem unitsOf_charsFrom {done : List Char} {units : List UInt16} {chars : List Char}
    (h : charsFrom done units = some chars) :
    chars.flatMap unitsOf = done.reverse.flatMap unitsOf ++ units := by
  fun_induction charsFrom done units with
  | case1 done =>
    cases h
    simp
  | case2 | case3 | case5 => cases h
  | case4 done u hl hh v rest hv ih => simp [ih h, unitsOf_pairChar hh hv]
  | case6 done u rest hl hh ih =>
    simp [ih h, unitsOf_unit (by simpa using hl) (by simpa using hh)]

theorem unitsOf_charsOfUnits? {units : List UInt16} {chars : List Char}
    (h : charsOfUnits? units = some chars) : chars.flatMap unitsOf = units := by
  simpa using unitsOf_charsFrom h

theorem charsFrom_unit {u : UInt16} (hl : isLowSurrogate u = false)
    (hh : isHighSurrogate u = false) (done : List Char) (rest : List UInt16) :
    charsFrom done (u :: rest) = charsFrom (Char.ofNat u.toNat :: done) rest := by
  rw [charsFrom.eq_def]
  simp [hl, hh]

theorem charsFrom_pair {u v : UInt16} (hl : isLowSurrogate u = false)
    (hu : isHighSurrogate u = true) (hv : isLowSurrogate v = true) (done : List Char)
    (rest : List UInt16) :
    charsFrom done (u :: v :: rest) = charsFrom (pairChar u v :: done) rest := by
  rw [charsFrom.eq_def]
  simp [hl, hu, hv]

/-- The units of a character are read as that character. -/
theorem charsFrom_unitsOf (c : Char) (done : List Char) (rest : List UInt16) :
    charsFrom done (unitsOf c ++ rest) = charsFrom (c :: done) rest := by
  have hc : c.toNat < 0xD800 ∨ 0xDFFF < c.toNat ∧ c.toNat < 0x110000 := c.valid
  have low_iff {n : Nat} (hn : n < 65536) :
      isLowSurrogate (UInt16.ofNat n) = true ↔ 0xDC00 ≤ n ∧ n < 0xE000 := by
    simp [isLowSurrogate, UInt16.toNat_ofNat_of_lt' hn]
  have high_iff {n : Nat} (hn : n < 65536) :
      isHighSurrogate (UInt16.ofNat n) = true ↔ 0xD800 ≤ n ∧ n < 0xDC00 := by
    simp [isHighSurrogate, UInt16.toNat_ofNat_of_lt' hn]
  unfold unitsOf
  dsimp only
  split
  case isTrue h =>
    have hl : isLowSurrogate (UInt16.ofNat c.toNat) = false := by
      rw [← Bool.not_eq_true, low_iff h]
      omega
    have hh : isHighSurrogate (UInt16.ofNat c.toNat) = false := by
      rw [← Bool.not_eq_true, high_iff h]
      omega
    rw [List.cons_append, List.nil_append, charsFrom_unit hl hh, UInt16.toNat_ofNat_of_lt' h,
      Char.ofNat_toNat]
  case isFalse h =>
    have hhigh : 0xD800 + (c.toNat - 0x10000) / 0x400 < 65536 := by omega
    have hlow : 0xDC00 + (c.toNat - 0x10000) % 0x400 < 65536 := by omega
    have hn : 0x10000 + (0xD800 + (c.toNat - 0x10000) / 0x400 - 0xD800) * 0x400
        + (0xDC00 + (c.toNat - 0x10000) % 0x400 - 0xDC00) = c.toNat := by omega
    have hl : isLowSurrogate (UInt16.ofNat (0xD800 + (c.toNat - 0x10000) / 0x400)) = false := by
      rw [← Bool.not_eq_true, low_iff hhigh]
      omega
    have hpair : pairChar (UInt16.ofNat (0xD800 + (c.toNat - 0x10000) / 0x400))
        (UInt16.ofNat (0xDC00 + (c.toNat - 0x10000) % 0x400)) = c := by
      rw [pairChar, UInt16.toNat_ofNat_of_lt' hhigh, UInt16.toNat_ofNat_of_lt' hlow, hn,
        Char.ofNat_toNat]
    rw [List.cons_append, List.cons_append, List.nil_append,
      charsFrom_pair hl ((high_iff hhigh).mpr (by omega)) ((low_iff hlow).mpr (by omega)), hpair]

theorem charsFrom_flatMap_unitsOf (chars done : List Char) :
    charsFrom done (chars.flatMap unitsOf) = some (done.reverse ++ chars) := by
  induction chars generalizing done with
  | nil => simp [charsFrom]
  | cons c chars ih => rw [List.flatMap_cons, charsFrom_unitsOf, ih]; simp

/-! ## Bytes and units -/

namespace ModifiedUtf8

theorem isContinuation_iff {b : UInt8} :
    isContinuation b = true ↔ 0x80 ≤ b.toNat ∧ b.toNat < 0xC0 := by
  simp [isContinuation]

theorem low_eq (b : UInt8) : low b = b.toNat - 0x80 := rfl

theorem unitBytes_one {b : UInt8} (h : 0 < b.toNat ∧ b.toNat < 0x80) :
    unitBytes (UInt16.ofNat b.toNat) = [b] := by
  have hu : (UInt16.ofNat b.toNat).toNat = b.toNat :=
    UInt16.toNat_ofNat_of_lt' (show b.toNat < 65536 by omega)
  simp only [unitBytes, hu, UInt8.ofNat_toNat]
  rw [if_pos (by simpa using h)]

theorem not_one_byte {n : Nat} (h : n = 0 ∨ 0x80 ≤ n) :
    ¬ (decide (0 < n) && decide (n < 0x80)) = true := by
  simp only [Bool.and_eq_true, decide_eq_true_eq]
  omega

/-- Two bytes that spell zero, or a unit that one byte is too short for. -/
theorem unitBytes_two {a b : UInt8} {n : Nat} (ha : 0xC0 ≤ a.toNat ∧ a.toNat < 0xE0)
    (hb : isContinuation b = true) (hn : n = (a.toNat - 0xC0) * 0x40 + low b)
    (hmin : n = 0 ∨ 0x80 ≤ n) : unitBytes (UInt16.ofNat n) = [a, b] := by
  rw [isContinuation_iff] at hb
  simp only [low_eq] at hn
  have first : 0xC0 + n / 0x40 = a.toNat := by omega
  have second : 0x80 + n % 0x40 = b.toNat := by omega
  have hu : (UInt16.ofNat n).toNat = n :=
    UInt16.toNat_ofNat_of_lt' (show n < 65536 by omega)
  simp only [unitBytes, hu]
  rw [if_neg (not_one_byte hmin), if_pos (by omega), first, second, UInt8.ofNat_toNat, UInt8.ofNat_toNat]

theorem unitBytes_three {a b c : UInt8} {n : Nat} (ha : 0xE0 ≤ a.toNat ∧ a.toNat < 0xF0)
    (hb : isContinuation b = true) (hc : isContinuation c = true)
    (hn : n = (a.toNat - 0xE0) * 0x1000 + low b * 0x40 + low c) (hmin : 0x800 ≤ n) :
    unitBytes (UInt16.ofNat n) = [a, b, c] := by
  rw [isContinuation_iff] at hb hc
  simp only [low_eq] at hn
  have first : 0xE0 + n / 0x1000 = a.toNat := by omega
  have second : 0x80 + n / 0x40 % 0x40 = b.toNat := by omega
  have third : 0x80 + n % 0x40 = c.toNat := by omega
  have hu : (UInt16.ofNat n).toNat = n :=
    UInt16.toNat_ofNat_of_lt' (show n < 65536 by omega)
  simp only [unitBytes, hu]
  rw [if_neg (not_one_byte (.inr (by omega))), if_neg (by omega), first, second, third, UInt8.ofNat_toNat,
    UInt8.ofNat_toNat, UInt8.ofNat_toNat]

theorem flatMap_reverse_cons {α β : Type} (f : α → List β) (a : α) (done : List α)
    (rest : List β) :
    (a :: done).reverse.flatMap f ++ rest = done.reverse.flatMap f ++ (f a ++ rest) := by simp

theorem unitBytes_unitsFrom {position : Nat} {done units : List UInt16} {bytes : List UInt8}
    (h : unitsFrom position done bytes = .ok units) :
    units.flatMap unitBytes = done.reverse.flatMap unitBytes ++ bytes := by
  fun_induction unitsFrom position done bytes with
  | case1 position done =>
    cases h
    simp
  | case2 position done lead rest n hone ih =>
    rw [ih h, flatMap_reverse_cons, unitBytes_one (by simpa [n] using hone)]
    rfl
  | case6 position done lead n hone htwo b rest hb unit hmin ih =>
    have hu : unit = 0 ∨ 0x80 ≤ unit := by
      simp only [Bool.and_eq_true, decide_eq_true_eq] at hmin
      omega
    rw [ih h, flatMap_reverse_cons,
      unitBytes_two (by simpa [n] using htwo) (by simpa using hb) rfl hu]
    rfl
  | case13 position done lead n hone htwo hthree b c rest hb hc unit hmin ih =>
    rw [ih h, flatMap_reverse_cons, unitBytes_three (by simpa [n] using hthree)
      (by simpa using hb) (by simpa using hc) rfl (by omega)]
    rfl
  | _ => cases h

theorem encode_of_decodeUnits {bytes : List UInt8} {text : String}
    (h : decodeUnits bytes = .ok text) : encode text = bytes := by
  simp only [decodeUnits] at h
  cases hu : unitsFrom 0 [] bytes with
  | error flaw => simp [hu, bind, Except.bind] at h
  | ok units =>
    simp only [hu, bind, Except.bind] at h
    split at h
    case h_1 chars hc =>
      cases h
      have hb : units.flatMap unitBytes = bytes := by simpa using unitBytes_unitsFrom hu
      rw [encode, String.toList_ofList, unitsOf_charsOfUnits? hc, hb]
    case h_2 => cases h

/-! ## Written text is read back -/

section

variable {position n : Nat} {done : List UInt16} {rest : List UInt8} {a b c : UInt8}

theorem unitsFrom_one (ha : 0 < a.toNat ∧ a.toNat < 0x80) :
    unitsFrom position done (a :: rest)
      = unitsFrom (position + 1) (UInt16.ofNat a.toNat :: done) rest := by
  rw [unitsFrom.eq_def]
  simp [ha]

theorem unitsFrom_two (ha : 0xC0 ≤ a.toNat ∧ a.toNat < 0xE0) (hb : isContinuation b = true)
    (hn : n = (a.toNat - 0xC0) * 0x40 + low b) (hmin : n = 0 ∨ 0x80 ≤ n) :
    unitsFrom position done (a :: b :: rest)
      = unitsFrom (position + 2) (UInt16.ofNat n :: done) rest := by
  have hone : ¬ (decide (0 < a.toNat) && decide (a.toNat < 0x80)) = true := by
    simp only [Bool.and_eq_true, decide_eq_true_eq]
    omega
  have hlong : ¬ (n ≠ 0 && decide (n < 0x80)) = true := by
    simp only [Bool.and_eq_true, decide_eq_true_eq]
    omega
  rw [unitsFrom.eq_def]
  simp only [← hn, hb]
  rw [if_neg hone, if_pos (by simpa using ha), if_neg (by simp), if_neg hlong]

theorem unitsFrom_three (ha : 0xE0 ≤ a.toNat ∧ a.toNat < 0xF0) (hb : isContinuation b = true)
    (hc : isContinuation c = true)
    (hn : n = (a.toNat - 0xE0) * 0x1000 + low b * 0x40 + low c) (hmin : 0x800 ≤ n) :
    unitsFrom position done (a :: b :: c :: rest)
      = unitsFrom (position + 3) (UInt16.ofNat n :: done) rest := by
  have hone : ¬ (decide (0 < a.toNat) && decide (a.toNat < 0x80)) = true := by
    simp only [Bool.and_eq_true, decide_eq_true_eq]
    omega
  have htwo : ¬ (decide (0xC0 ≤ a.toNat) && decide (a.toNat < 0xE0)) = true := by
    simp only [Bool.and_eq_true, decide_eq_true_eq]
    omega
  rw [unitsFrom.eq_def]
  simp only [← hn, hb, hc]
  rw [if_neg hone, if_neg htwo, if_pos (by simpa using ha), if_neg (by simp), if_neg (by simp),
    if_neg (by omega)]

end

/-- The bytes of a unit are read as that unit. -/
theorem unitsFrom_unitBytes (u : UInt16) (position : Nat) (done : List UInt16)
    (rest : List UInt8) : unitsFrom position done (unitBytes u ++ rest)
      = unitsFrom (position + (unitBytes u).length) (u :: done) rest := by
  have hu := u.toNat_lt
  have small {n : Nat} (h : n < 256) : (UInt8.ofNat n).toNat = n := UInt8.toNat_ofNat_of_lt' h
  have next {n : Nat} (h : n < 0x40) :
      isContinuation (UInt8.ofNat (0x80 + n)) = true ∧ low (UInt8.ofNat (0x80 + n)) = n := by
    rw [isContinuation_iff, low_eq, small (by omega)]
    omega
  have last := next (n := u.toNat % 0x40) (by omega)
  unfold unitBytes
  dsimp only
  split
  case isTrue h =>
    simp only [Bool.and_eq_true, decide_eq_true_eq] at h
    have hlead := small (show u.toNat < 256 by omega)
    rw [List.cons_append, List.nil_append, unitsFrom_one (by rwa [hlead]), hlead,
      UInt16.ofNat_toNat]
    rfl
  case isFalse h =>
    simp only [Bool.and_eq_true, decide_eq_true_eq] at h
    split
    case isTrue htwo =>
      have hlead := small (show 0xC0 + u.toNat / 0x40 < 256 by omega)
      rw [List.cons_append, List.cons_append, List.nil_append,
        unitsFrom_two (n := u.toNat) (by omega) last.1 (by rw [hlead, last.2]; omega) (by omega),
        UInt16.ofNat_toNat]
      rfl
    case isFalse htwo =>
      have hlead := small (show 0xE0 + u.toNat / 0x1000 < 256 by omega)
      have middle := next (n := u.toNat / 0x40 % 0x40) (by omega)
      rw [List.cons_append, List.cons_append, List.cons_append, List.nil_append,
        unitsFrom_three (n := u.toNat) (by omega) middle.1 last.1
          (by rw [hlead, middle.2, last.2]; omega) (by omega),
        UInt16.ofNat_toNat]
      rfl

theorem unitsFrom_flatMap_unitBytes (units : List UInt16) (position : Nat)
    (done : List UInt16) :
    unitsFrom position done (units.flatMap unitBytes) = .ok (done.reverse ++ units) := by
  induction units generalizing position done with
  | nil => simp [unitsFrom]
  | cons u units ih => rw [List.flatMap_cons, unitsFrom_unitBytes, ih]; simp

theorem decodeUnits_encode (text : String) : decodeUnits (encode text) = .ok text := by
  have hunits : unitsFrom 0 [] (encode text) = .ok (text.toList.flatMap unitsOf) :=
    unitsFrom_flatMap_unitBytes _ 0 []
  have hchars : charsOfUnits? (text.toList.flatMap unitsOf) = some text.toList :=
    charsFrom_flatMap_unitsOf _ []
  simp only [decodeUnits, hunits, bind, Except.bind, hchars, String.ofList_toList]
  rfl

/-! ## Plain bytes -/

theorem isPlain_iff {b : UInt8} : isPlain b = true ↔ 0 < b.toNat ∧ b.toNat < 0x80 := by
  simp [isPlain]

/-- The text that plain bytes stand for, one character each. -/
def plainText (bytes : List UInt8) : String :=
  String.ofList (bytes.map fun b => Char.ofNat b.toNat)

theorem toNat_plainChar {b : UInt8} (h : isPlain b = true) :
    (Char.ofNat b.toNat).toNat = b.toNat := by
  have hb := (isPlain_iff.mp h).2
  exact toNat_charOfNat (.inl (by omega))

theorem encode_plainText {bytes : List UInt8} (h : ∀ b ∈ bytes, isPlain b = true) :
    encode (plainText bytes) = bytes := by
  have hbyte {b : UInt8} (hb : isPlain b = true) :
      (unitsOf (Char.ofNat b.toNat)).flatMap unitBytes = [b] := by
    have hlt := isPlain_iff.mp hb
    simp only [unitsOf, toNat_plainChar hb]
    rw [if_pos (by omega), List.flatMap_singleton, unitBytes_one hlt]
  simp only [encode, plainText, String.toList_ofList]
  induction bytes with
  | nil => rfl
  | cons b bytes ih =>
    obtain ⟨hb, hbytes⟩ := List.forall_mem_cons.mp h
    rw [List.map_cons, List.flatMap_cons, List.flatMap_append, hbyte hb, ih hbytes]
    rfl

theorem utf8_plainText {bytes : List UInt8} (h : ∀ b ∈ bytes, isPlain b = true) :
    utf8 (plainText bytes) = bytes := by
  have hbyte {b : UInt8} (hb : isPlain b = true) :
      String.utf8EncodeChar (Char.ofNat b.toNat) = [b] := by
    have hlt := (isPlain_iff.mp hb).2
    simp only [String.utf8EncodeChar,
      show (Char.ofNat b.toNat).val.toNat = b.toNat from toNat_plainChar hb]
    rw [if_pos (by omega), UInt8.ofNat_toNat]
  rw [utf8_eq, plainText, String.toList_ofList]
  induction bytes with
  | nil => rfl
  | cons b bytes ih =>
    obtain ⟨hb, hbytes⟩ := List.forall_mem_cons.mp h
    rw [List.map_cons, List.flatMap_cons, hbyte hb, ih hbytes]
    rfl

/-- Plain bytes are read alike at once and unit by unit. -/
theorem decodePlain_eq_decodeUnits {bytes : List UInt8} (h : bytes.all isPlain = true) :
    decodePlain bytes = decodeUnits bytes := by
  have hplain := List.all_eq_true.mp h
  have hutf8 : decodePlain (utf8 (plainText bytes)) = .ok (plainText bytes) := by
    rw [decodePlain, Utf8.decode_utf8]
  have hunits := decodeUnits_encode (plainText bytes)
  rw [utf8_plainText hplain] at hutf8
  rw [encode_plainText hplain] at hunits
  rw [hutf8, hunits]

theorem decode_eq_decodeUnits (bytes : List UInt8) : decode bytes = decodeUnits bytes := by
  rw [decode]
  split
  case isTrue h => exact decodePlain_eq_decodeUnits h
  case isFalse => rfl

theorem encode_of_decode {bytes : List UInt8} {text : String} (h : decode bytes = .ok text) :
    encode text = bytes :=
  encode_of_decodeUnits (decode_eq_decodeUnits bytes ▸ h)

/-- A text that is written is read back. -/
theorem decode_encode (text : String) : decode (encode text) = .ok text := by
  rw [decode_eq_decodeUnits, decodeUnits_encode]

end ModifiedUtf8

end Relabel.Text
