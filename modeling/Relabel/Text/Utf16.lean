/-!
# UTF-16

A character is one 16-bit unit or a pair of surrogates. Reading refuses a surrogate
without its partner.
-/

namespace Relabel.Text

def isHighSurrogate (u : UInt16) : Bool := 0xD800 ≤ u.toNat && u.toNat < 0xDC00

def isLowSurrogate (u : UInt16) : Bool := 0xDC00 ≤ u.toNat && u.toNat < 0xE000

/-- The units of one character. -/
def unitsOf (c : Char) : List UInt16 :=
  let n := c.toNat
  if n < 0x10000 then [UInt16.ofNat n]
  else [UInt16.ofNat (0xD800 + (n - 0x10000) / 0x400), UInt16.ofNat (0xDC00 + (n - 0x10000) % 0x400)]

/-- The character of a surrogate pair. -/
def pairChar (high low : UInt16) : Char :=
  Char.ofNat (0x10000 + (high.toNat - 0xD800) * 0x400 + (low.toNat - 0xDC00))

/-- Read characters behind `done`, which is in reverse. -/
def charsFrom (done : List Char) : List UInt16 → Option (List Char)
  | [] => some done.reverse
  | u :: rest =>
    if isLowSurrogate u then none
    else if isHighSurrogate u then
      match rest with
      | [] => none
      | v :: rest => if isLowSurrogate v then charsFrom (pairChar u v :: done) rest else none
    else charsFrom (Char.ofNat u.toNat :: done) rest

/-- The characters that the units spell. -/
def charsOfUnits? (units : List UInt16) : Option (List Char) := charsFrom [] units

end Relabel.Text
