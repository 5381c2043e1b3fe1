import Relabel.Fault

/-!
# Scanning text

A scanner is the unread rest of a text and the number of UTF-8 bytes in front of it.
Scanning steps look at single characters; names run up to the first of some
delimiters.
-/

namespace Relabel

structure Scanner where
  position : Nat
  rest : List Char
  deriving DecidableEq

abbrev Scan (α : Type) : Type := EStateM SignatureFlaw Scanner α

/-- The first byte of the UTF-8 form of `c`, as the character of that number. -/
def firstByte (c : Char) : Char :=
  let n := c.toNat
  if n < 0x80 then c
  else if n < 0x800 then Char.ofNat (0xC0 + n / 0x40)
  else if n < 0x10000 then Char.ofNat (0xE0 + n / 0x1000)
  else Char.ofNat (0xF0 + n / 0x40000)

/-- The number of bytes of the UTF-8 form. -/
def byteCount (chars : List Char) : Nat := chars.foldl (fun n c => n + c.utf8Size) 0

namespace Scan

variable {α : Type}

/-- Whether the text is read to its end. -/
def atEnd : Scan Bool := fun s => .ok s.rest.isEmpty s

/-- The next character, left in place. -/
def peek : Scan Char := fun s =>
  match s.rest with
  | [] => .error .unexpectedEnd s
  | c :: _ => .ok c s

/-- Read the character `wanted`. -/
def expect (wanted : Char) : Scan Unit := fun s =>
  match s.rest with
  | [] => .error .unexpectedEnd s
  | c :: rest =>
    if c = wanted then .ok () ⟨s.position + c.utf8Size, rest⟩
    else .error (.expected wanted s.position (firstByte c)) s

/-- Fail because the next character starts nothing. -/
def unexpected : Scan α := fun s =>
  match s.rest with
  | [] => .error .unexpectedEnd s
  | c :: _ => .error (.unexpected s.position (firstByte c)) s

/-- The characters before the next one that satisfies `stop`: at least one. -/
def identifier (stop : Char → Bool) : Scan String := fun s =>
  let name := s.rest.takeWhile (!stop ·)
  match s.rest.dropWhile (!stop ·) with
  | [] => .error .unexpectedEnd s
  | rest =>
    if name.isEmpty then .error (.emptyIdentifier s.position) s
    else .ok (String.ofList name) ⟨s.position + byteCount name, rest⟩

/-- Read items as long as `more` holds, at most `limit` of them. -/
def many (more : Scan Bool) (item : Scan α) : (limit : Nat) → Scan (List α)
  | 0 => throw .unexpectedEnd
  | limit + 1 => do
    if ← more then
      let a ← item
      return a :: (← many more item limit)
    else return []

end Scan

end Relabel
