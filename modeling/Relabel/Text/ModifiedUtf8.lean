import Relabel.Fault
import Relabel.Text.Utf16

/-!
# Modified UTF-8

The text form of class files: every UTF-16 unit is written on its own in one to three
bytes, and zero takes two. Every text has exactly one form, so reading refuses raw
zeros, longer forms than needed, four-byte forms and lone surrogates. Plain ASCII is
read at once.
-/

namespace Relabel.Text.ModifiedUtf8

/-- The bytes of one unit. -/
def unitBytes (u : UInt16) : List UInt8 :=
  let n := u.toNat
  if 0 < n && n < 0x80 then [UInt8.ofNat n]
  else if n < 0x800 then [UInt8.ofNat (0xC0 + n / 0x40), UInt8.ofNat (0x80 + n % 0x40)]
  else
    [UInt8.ofNat (0xE0 + n / 0x1000), UInt8.ofNat (0x80 + n / 0x40 % 0x40),
      UInt8.ofNat (0x80 + n % 0x40)]

def encode (text : String) : List UInt8 :=
  (text.toList.flatMap unitsOf).flatMap unitBytes

def isContinuation (b : UInt8) : Bool := 0x80 ≤ b.toNat && b.toNat < 0xC0

/-- The low six bits that a continuation byte carries. -/
def low (b : UInt8) : Nat := b.toNat - 0x80

/-- Read units behind `done`, which is in reverse; `position` counts the bytes before. -/
def unitsFrom (position : Nat) (done : List UInt16) : List UInt8 → Except Flaw (List UInt16)
  | [] => .ok done.reverse
  | lead :: rest =>
    let n := lead.toNat
    if 0 < n && n < 0x80 then unitsFrom (position + 1) (UInt16.ofNat n :: done) rest
    else if 0xC0 ≤ n && n < 0xE0 then
      match rest with
      | [] => .error .truncatedText
      | b :: rest =>
        if !isContinuation b then .error (.continuationByte b (position + 1))
        else
          let unit := (n - 0xC0) * 0x40 + low b
          if unit ≠ 0 && unit < 0x80 then .error (.overlong position)
          else unitsFrom (position + 2) (UInt16.ofNat unit :: done) rest
    else if 0xE0 ≤ n && n < 0xF0 then
      match rest with
      | [] => .error .truncatedText
      | [b] =>
        if !isContinuation b then .error (.continuationByte b (position + 1))
        else .error .truncatedText
      | b :: b' :: rest =>
        if !isContinuation b then .error (.continuationByte b (position + 1))
        else if !isContinuation b' then .error (.continuationByte b' (position + 2))
        else
          let unit := (n - 0xE0) * 0x1000 + low b * 0x40 + low b'
          if unit < 0x800 then .error (.overlong position)
          else unitsFrom (position + 3) (UInt16.ofNat unit :: done) rest
    else .error (.leadByte lead position)

/-- Read the text unit by unit. A defect in the bytes counts before lone surrogates. -/
def decodeUnits (bytes : List UInt8) : Except Flaw String := do
  let units ← unitsFrom 0 [] bytes
  match charsOfUnits? units with
  | some chars => return String.ofList chars
  | none => throw .unpairedSurrogate

/-- Whether the byte stands for an ASCII character other than zero. -/
def isPlain (b : UInt8) : Bool := 0 < b.toNat && b.toNat < 0x80

/-- Read plain bytes, which are the same in UTF-8. -/
def decodePlain (bytes : List UInt8) : Except Flaw String :=
  match Utf8.decode bytes with
  | .ok text => .ok text
  | .error cause => .error (.plainText cause)

/-- The text that the bytes spell. -/
def decode (bytes : List UInt8) : Except Flaw String :=
  if bytes.all isPlain then decodePlain bytes else decodeUnits bytes

end Relabel.Text.ModifiedUtf8
