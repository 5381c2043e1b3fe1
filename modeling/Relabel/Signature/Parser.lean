import Relabel.Signature.Basic
import Relabel.Signature.Scanner
import Relabel.Symbol

/-!
# Reading generic signatures

A recursive descent over the grammar of the three signature shapes. Names may hold
any character but the delimiters at their place, and type arguments may be empty or
repeated; apart from that the grammar is that of class files. Every list and every
nesting is bounded by the length of the text, a bound that no text reaches.
-/

namespace Relabel.Signature

open Scan

/-- What ends the name of a class or an inner class. -/
def endsClassName (c : Char) : Bool := c == '<' || c == '.' || c == ';'

def scanVariable : Scan String := do
  expect 'T'
  let name ← identifier (· == ';')
  expect ';'
  return name

section

variable (limit : Nat) (scanReference : Scan ReferenceType)

def scanArgument : Scan TypeArgument := do
  match ← peek with
  | '*' =>
    expect '*'
    return .any
  | '+' =>
    expect '+'
    return .upper (← scanReference)
  | '-' =>
    expect '-'
    return .lower (← scanReference)
  | _ => return .exact (← scanReference)

/-- Type arguments or the name of an inner class. -/
def scanPart : Scan ClassPart := do
  if (← peek) = '<' then
    expect '<'
    let arguments ← many (return (← peek) != '>') (scanArgument scanReference) limit
    expect '>'
    return .arguments arguments
  else
    expect '.'
    return .inner (← identifier endsClassName)

def scanClassType : Scan ClassType := do
  expect 'L'
  let name ← identifier endsClassName
  let parts ← many (do let c ← peek; return c == '<' || c == '.') (scanPart limit scanReference) limit
  expect ';'
  return .of name parts

def scanJavaType : Scan JavaType := do
  match BaseType.ofLetter? (← peek) with
  | some type =>
    expect type.letter
    return .base type
  | none => return .reference (← scanReference)

end

/-- A reference type whose nesting is at most `depth`. -/
def scanReference (limit : Nat) : (depth : Nat) → Scan ReferenceType
  | 0 => throw .unexpectedEnd
  | depth + 1 => do
    match ← peek with
    | 'L' => return .object (← scanClassType limit (scanReference limit depth))
    | 'T' => return .variable (← scanVariable)
    | '[' =>
      expect '['
      return .array (← scanJavaType (scanReference limit depth))
    | _ => unexpected

section

variable (limit : Nat)

def scanParameter : Scan TypeParameter := do
  let name ← identifier (· == ':')
  expect ':'
  let c ← peek
  let classBound ←
    if c = 'L' || c = '[' || c = 'T' then some <$> scanReference limit limit else pure none
  let interfaceBounds ← many (return (← peek) == ':') (do expect ':'; scanReference limit limit)
    limit
  return ⟨name, classBound, interfaceBounds⟩

/-- Type parameters in angle brackets, if there are any. -/
def scanParameters : Scan (List TypeParameter) := do
  if (← peek) = '<' then
    expect '<'
    let first ← scanParameter limit
    let others ← many (return (← peek) != '>') (scanParameter limit) limit
    expect '>'
    return first :: others
  else return []

def scanThrown : Scan ThrownType := do
  expect '^'
  if (← peek) = 'T' then return .variable (← scanVariable)
  else return .object (← scanClassType limit (scanReference limit limit))

def scanResult : Scan (Option JavaType) := do
  if (← peek) = 'V' then
    expect 'V'
    return none
  else return some (← scanJavaType (scanReference limit limit))

/-- A signature of the given shape. -/
def scan : SymbolKind → Scan Signature
  | .ofClass => do
    let parameters ← scanParameters limit
    let superclass ← scanClassType limit (scanReference limit limit)
    let interfaces ← many (return !(← atEnd)) (scanClassType limit (scanReference limit limit))
      limit
    return .ofClass parameters superclass interfaces
  | .ofMethod => do
    let parameters ← scanParameters limit
    expect '('
    let arguments ← many (return (← peek) != ')') (scanJavaType (scanReference limit limit)) limit
    expect ')'
    let result ← scanResult limit
    let thrown ← many (return !(← atEnd)) (scanThrown limit) limit
    return .ofMethod parameters arguments result thrown
  | .ofField => return .ofField (← scanReference limit limit)

end

/-- The signature that the characters spell, which have to end with it. -/
def ofChars (kind : SymbolKind) (chars : List Char) : Except SignatureFlaw Signature :=
  match scan (chars.length + 1) kind ⟨0, chars⟩ with
  | .ok signature s =>
    if s.rest.isEmpty then .ok signature else .error (.trailing s.position)
  | .error flaw _ => .error flaw

def parse (kind : SymbolKind) (text : String) : Except Flaw Signature :=
  match ofChars kind text.toList with
  | .ok signature => .ok signature
  | .error flaw => .error (.signature text flaw)

end Relabel.Signature
