/-!
# UTF-8

Reading well-formed UTF-8. A failure names the first byte that cannot be read and how
many bytes form the longest start of a sequence there, or says that the text ends
inside a sequence.
-/

namespace Relabel.Text.Utf8

/-- Where and how a byte list stops being UTF-8. -/
structure IllFormed where
  position : Nat
  /-- The size of the broken start, or nothing if the text ends too early. -/
  size : Option Nat
  deriving DecidableEq

def IllFormed.message (i : IllFormed) : String :=
  match i.size with
  | some size => s!"invalid utf-8 sequence of {size} bytes from index {i.position}"
  | none => s!"incomplete utf-8 byte sequence from index {i.position}"

/-- How a sequence goes on after its first byte: the bounds of each further byte. -/
def bounds (lead : Nat) : Option (List (Nat × Nat)) :=
  if lead < 0x80 then some []
  else if lead < 0xC2 then none
  else if lead < 0xE0 then some [(0x80, 0xBF)]
  else if lead = 0xE0 then some [(0xA0, 0xBF), (0x80, 0xBF)]
  else if lead = 0xED then some [(0x80, 0x9F), (0x80, 0xBF)]
  else if lead < 0xF0 then some [(0x80, 0xBF), (0x80, 0xBF)]
  else if lead = 0xF0 then some [(0x90, 0xBF), (0x80, 0xBF), (0x80, 0xBF)]
  else if lead < 0xF4 then some [(0x80, 0xBF), (0x80, 0xBF), (0x80, 0xBF)]
  else if lead = 0xF4 then some [(0x80, 0x8F), (0x80, 0xBF), (0x80, 0xBF)]
  else none

/-- The bits of the first byte of a sequence of `more` further bytes. -/
def leadBits (lead more : Nat) : Nat :=
  match more with
  | 0 => lead
  | 1 => lead % 0x20
  | 2 => lead % 0x10
  | _ => lead % 0x08

/-- Add the bytes of a sequence to `value`. A failure tells how many bytes before it fitted,
or nothing if the bytes run out. -/
def follow (fitted value : Nat) : List (Nat × Nat) → List UInt8 → Except (Option Nat) Nat
  | [], _ => .ok value
  | _ :: _, [] => .error none
  | (least, most) :: more, b :: rest =>
    if least ≤ b.toNat && b.toNat ≤ most then
      follow (fitted + 1) (value * 0x40 + b.toNat % 0x40) more rest
    else .error (some fitted)

/-- Read characters behind `done`, which is in reverse. The first `inside` bytes belong to the
character read last. -/
def charsFrom (position inside : Nat) (done : List Char) :
    List UInt8 → Except IllFormed (List Char)
  | [] => .ok done.reverse
  | b :: rest =>
    if inside ≠ 0 then charsFrom (position + 1) (inside - 1) done rest
    else
      match bounds b.toNat with
      | none => .error ⟨position, some 1⟩
      | some more =>
        match follow 1 (leadBits b.toNat more.length) more rest with
        | .error size => .error ⟨position, size⟩
        | .ok value => charsFrom (position + 1) more.length (Char.ofNat value :: done) rest

def decode (bytes : List UInt8) : Except IllFormed String := do
  return String.ofList (← charsFrom 0 0 [] bytes)

end Relabel.Text.Utf8
