import Mathlib.Data.String.Basic
import Relabel.Proofs.Text.Utf8
import Relabel.Signature.Scanner

/-!
# Cutting texts at byte positions

The bytes of a text are numbered, and a part of it is cut out between two positions. That
is defined only if both lie inside the text, in order and not inside of a character. A run
that would cut a text anywhere else, or that would go on behind its end, is stuck.
-/

namespace Relabel.Bytewise

/-- How a run over the bytes of a text ends without a result. -/
inductive Halt (ε : Type) where
  | fault (fault : ε)
  /-- The text cannot be cut from `start` to `stop`. -/
  | cut (start stop : Nat)
  /-- The position would be behind the end of the text. -/
  | overrun (position : Nat)
  /-- The bound on the steps is reached. -/
  | exhausted
  deriving DecidableEq

/-- The position is one in front of a character, or the end of the text. -/
def isBoundary (text : String) (position : Nat) : Bool := String.Pos.Raw.isValid text ⟨position⟩

/-- The part of the text from `start` to `stop`. -/
def cut {ε : Type} (text : String) (start stop : Nat) : Except (Halt ε) String :=
  if start ≤ stop ∧ isBoundary text start ∧ isBoundary text stop then
    .ok (String.Pos.Raw.extract text ⟨start⟩ ⟨stop⟩)
  else .error (.cut start stop)

/-- The number of bytes in front of the first `c`, if there is one. -/
def offset? (c : Char) (text : String) : Option Nat :=
  if c ∈ text.toList then some (byteCount (text.toList.takeWhile (· ≠ c))) else none

theorem ok_bind {ε α β : Type} (a : α) (f : α → Except ε β) : (.ok a >>= f) = f a := rfl

theorem byteCount_eq (chars : List Char) : byteCount chars = String.utf8Len chars := by
  have h (n : Nat) : chars.foldl (fun n c => n + c.utf8Size) n = n + String.utf8Len chars := by
    induction chars generalizing n with
    | nil => simp
    | cons c chars ih =>
      rw [List.foldl_cons, ih, String.utf8Len_cons]
      omega
  exact (h 0).trans (Nat.zero_add _)

theorem byteCount_append (front back : List Char) :
    byteCount (front ++ back) = byteCount front + byteCount back := by
  rw [byteCount_eq, byteCount_eq, byteCount_eq, String.utf8Len_append]

theorem byteCount_cons (c : Char) (chars : List Char) :
    byteCount (c :: chars) = c.utf8Size + byteCount chars := by
  rw [byteCount_eq, byteCount_eq, String.utf8Len_cons, Nat.add_comm]

theorem byteCount_eq_zero {chars : List Char} : byteCount chars = 0 ↔ chars = [] := by
  cases chars with
  | nil => simp [byteCount]
  | cons c chars =>
    have hpos := c.utf8Size_pos
    rw [byteCount_cons]
    constructor
    · intro h
      omega
    · nofun

theorem utf8ByteSize_eq (text : String) : text.utf8ByteSize = byteCount text.toList := by
  rw [byteCount_eq, String.utf8Len_toList]

section

variable {c : Char} {front back : List Char}

theorem offset?_first (h : c ∉ front) :
    offset? c (.ofList (front ++ c :: back)) = some (byteCount front) := by
  have hplain : ∀ d ∈ front, decide (d ≠ c) = true := fun d hd =>
    decide_eq_true fun hdc => h (hdc ▸ hd)
  rw [offset?, String.toList_ofList, if_pos (by simp), List.takeWhile_append_of_pos hplain,
    List.takeWhile_cons_of_neg (by simp), List.append_nil]

theorem offset?_eq_none (h : c ∉ back) : offset? c (.ofList back) = none := by
  rw [offset?, String.toList_ofList, if_neg h]

end

section

variable {ε : Type} {text : String} {front middle back : List Char}

theorem isBoundary_iff {position : Nat} : isBoundary text position = true ↔
    ∃ front back, text.toList = front ++ back ∧ position = byteCount front := by
  rw [isBoundary, String.Pos.Raw.isValid_eq_true_iff, String.Pos.Raw.isValid_iff_exists_append]
  constructor
  · rintro ⟨s, t, rfl, h⟩
    refine ⟨s.toList, t.toList, String.toList_append, ?_⟩
    rw [byteCount_eq, String.utf8Len_toList]
    exact congrArg String.Pos.Raw.byteIdx h
  · rintro ⟨front, back, h, rfl⟩
    refine ⟨.ofList front, .ofList back, ?_, ?_⟩
    · rw [← String.ofList_append, ← h, String.ofList_toList]
    · rw [byteCount_eq, ← String.utf8ByteSize_ofList]
      rfl

theorem isBoundary_of_split (h : text.toList = front ++ back) :
    isBoundary text (byteCount front) = true :=
  isBoundary_iff.mpr ⟨front, back, h, rfl⟩

/-- What stands between two groups of characters can be cut out. -/
theorem cut_of_split (h : text.toList = front ++ (middle ++ back)) {start stop : Nat}
    (hstart : start = byteCount front) (hstop : stop = start + byteCount middle) :
    cut text start stop = (.ok (.ofList middle) : Except (Halt ε) String) := by
  have hend : text.toList = (front ++ middle) ++ back := by rw [h, List.append_assoc]
  have hstart' : isBoundary text start = true := hstart ▸ isBoundary_of_split h
  have hstop' : isBoundary text stop = true := by
    have hsize : stop = byteCount (front ++ middle) := by
      rw [hstop, hstart, byteCount_append]
    exact hsize ▸ isBoundary_of_split hend
  have hextract := String.extract_of_valid front middle back
  rw [← hend, String.ofList_toList, ← byteCount_eq, ← byteCount_eq, ← hstart, ← hstop] at hextract
  rw [cut, if_pos ⟨by omega, hstart', hstop'⟩, hextract]

/-- What stands behind a group of characters can be cut out. -/
theorem cut_to_end (h : text.toList = front ++ back) {start : Nat}
    (hstart : start = byteCount front) :
    cut text start text.utf8ByteSize = (.ok (.ofList back) : Except (Halt ε) String) := by
  have hsplit : text.toList = front ++ (back ++ []) := by rw [List.append_nil, h]
  refine cut_of_split hsplit hstart ?_
  rw [utf8ByteSize_eq, h, byteCount_append, hstart]

end

/-! ## The bytes of characters -/

theorem toNat_lt (c : Char) : c.toNat < 0x110000 := by
  have h : c.toNat < 0xD800 ∨ 0xDFFF < c.toNat ∧ c.toNat < 0x110000 := c.valid
  omega

theorem toNat_ofNat_of_lt {n : Nat} (h : n < 0xD800) : (Char.ofNat n).toNat = n := by
  have hvalid : n.isValidChar := .inl h
  rw [Char.ofNat, dif_pos hvalid]
  rfl

theorem utf8Size_of_lt {c : Char} (h : c.toNat < 0x80) : c.utf8Size = 1 :=
  Char.utf8Size_eq_one_iff.mpr (Nat.le_of_lt_succ h)

theorem byteCount_of_lt {c : Char} (h : c.toNat < 0x80) : byteCount [c] = 1 := by
  rw [byteCount_cons, utf8Size_of_lt h]
  rfl

theorem firstByte_of_lt {c : Char} (h : c.toNat < 0x80) : firstByte c = c := if_pos h

theorem le_firstByte {c : Char} (h : 0x80 ≤ c.toNat) : 0x80 ≤ (firstByte c).toNat := by
  have hc := toNat_lt c
  unfold firstByte
  dsimp only
  rw [if_neg (by omega)]
  split
  · rw [toNat_ofNat_of_lt (by omega)]
    omega
  · split
    · rw [toNat_ofNat_of_lt (by omega)]
      omega
    · rw [toNat_ofNat_of_lt (by omega)]
      omega

/-- A letter below 0x80 is the first byte of no other character. -/
theorem firstByte_eq_iff {c letter : Char} (h : letter.toNat < 0x80) :
    firstByte c = letter ↔ c = letter := by
  constructor
  · intro hfirst
    have hlow : c.toNat < 0x80 := by
      by_contra hhigh
      have hle := le_firstByte (Nat.le_of_not_lt hhigh)
      rw [hfirst] at hle
      omega
    rw [← hfirst, firstByte_of_lt hlow]
  · rintro rfl
    exact firstByte_of_lt h

/-- The bytes of a character start with its first byte. -/
theorem utf8EncodeChar_eq_cons (c : Char) : ∃ lead inside,
    String.utf8EncodeChar c = lead :: inside ∧ Char.ofNat lead.toNat = firstByte c := by
  have hc := toNat_lt c
  have lead {n m : Nat} (hn : n = m) (hm : m < 256) :
      Char.ofNat (UInt8.ofNat n).toNat = Char.ofNat m := by
    rw [hn, UInt8.toNat_ofNat_of_lt' hm]
  simp only [String.utf8EncodeChar, firstByte, show c.val.toNat = c.toNat from rfl]
  split
  case isTrue h =>
    refine ⟨_, [], rfl, ?_⟩
    rw [if_pos (by omega), lead rfl (by omega), Char.ofNat_toNat]
  case isFalse h =>
    split
    case isTrue htwo =>
      refine ⟨_, _, rfl, ?_⟩
      rw [if_neg (by omega), if_pos (by omega)]
      exact lead (by omega) (by omega)
    case isFalse htwo =>
      split
      case isTrue hthree =>
        refine ⟨_, _, rfl, ?_⟩
        rw [if_neg (by omega), if_neg (by omega), if_pos (by omega)]
        exact lead (by omega) (by omega)
      case isFalse hthree =>
        refine ⟨_, _, rfl, ?_⟩
        rw [if_neg (by omega), if_neg (by omega), if_neg (by omega)]
        exact lead (by omega) (by omega)

/-- No byte of a character is taken for a letter that the character is not. -/
theorem stop_of_mem_utf8EncodeChar {stop : Char → Bool}
    (hstop : ∀ letter, stop letter = true → letter.toNat < 0x80) {c : Char} (hc : stop c = false)
    {b : UInt8} (hb : b ∈ String.utf8EncodeChar c) : stop (Char.ofNat b.toNat) = false := by
  by_contra h
  have hlow := hstop _ (Bool.eq_true_of_not_eq_false h)
  rw [toNat_ofNat_of_lt (by have := b.toNat_lt; omega)] at hlow
  have hsame : Char.ofNat b.toNat = c := by
    rw [← (Text.Utf8.utf8EncodeChar_of_mem hlow hb).2, Char.ofNat_toNat]
  rw [hsame] at h
  exact h hc

theorem length_utf8EncodeChars (chars : List Char) :
    (chars.flatMap String.utf8EncodeChar).length = byteCount chars := by
  induction chars with
  | nil => rfl
  | cons c chars ih =>
    rw [List.flatMap_cons, List.length_append, String.length_utf8EncodeChar, ih, byteCount_cons]

theorem length_utf8 (text : String) : (Text.utf8 text).length = text.utf8ByteSize := by
  rw [Text.utf8_eq, length_utf8EncodeChars, utf8ByteSize_eq]

/-- Behind the bytes of the characters in front stand those of the others. -/
theorem drop_utf8 {text : String} {front back : List Char} (h : text.toList = front ++ back) :
    (Text.utf8 text).drop (byteCount front) = back.flatMap String.utf8EncodeChar := by
  rw [Text.utf8_eq, h, List.flatMap_append, ← length_utf8EncodeChars, List.drop_left]

end Relabel.Bytewise
