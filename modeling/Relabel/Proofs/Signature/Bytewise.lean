import Relabel.Proofs.Text.Bytewise
import Relabel.Signature.Rename

/-!
# A parser of signatures over bytes

The grammar of signatures over the bytes of a text. The state of the parser is a position,
which moves on by one byte at a time, and names are cut out of the text. What it may not do
is to move behind the end of the text, or to cut where no character starts: it stops there.
-/

namespace Relabel

namespace Bytewise

open Text

def Halt.map {ε ε' : Type} (f : ε → ε') : Halt ε → Halt ε'
  | .fault cause => .fault (f cause)
  | .cut start stop => .cut start stop
  | .overrun position => .overrun position
  | .exhausted => .exhausted

/-- A parser over the bytes of a text, with the position that it has come to. -/
abbrev Run (α : Type) : Type := EStateM (Halt SignatureFlaw) Nat α

namespace Run

variable {α : Type} (text : String)

/-- The byte at the position, as the character of its number. -/
def peek : Run Char := fun position =>
  match (utf8 text)[position]? with
  | some b => .ok (Char.ofNat b.toNat) position
  | none => .error (.fault .unexpectedEnd) position

/-- Move on by one byte. -/
def advance : Run Unit := fun position =>
  if position < text.utf8ByteSize then .ok () (position + 1)
  else .error (.overrun (position + 1)) position

def atEnd : Run Bool := fun position => .ok (decide (text.utf8ByteSize ≤ position)) position

def expect (wanted : Char) : Run Unit := do
  let found ← peek text
  if found = wanted then advance text
  else throw (.fault (.expected wanted (← get) found))

def unexpected : Run α := do
  let found ← peek text
  throw (.fault (.unexpected (← get) found))

/-- Move on to the next byte that satisfies `stop`. -/
def skipTo (stop : Char → Bool) : (limit : Nat) → Run Unit
  | 0 => throw .exhausted
  | limit + 1 => do
    if stop (← peek text) then return ()
    else
      advance text
      skipTo stop limit

def cutFrom (start : Nat) : Run String := fun position =>
  match cut text start position with
  | .ok part => .ok part position
  | .error halt => .error halt position

def identifier (stop : Char → Bool) : Run String := do
  let start ← get
  skipTo text stop (text.utf8ByteSize + 1)
  if (← get) = start then throw (.fault (.emptyIdentifier start))
  else cutFrom text start

def many (more : Run Bool) (item : Run α) : (limit : Nat) → Run (List α)
  | 0 => throw .exhausted
  | limit + 1 => do
    if ← more then
      let a ← item
      return a :: (← many more item limit)
    else return []

end Run

/-! ## The grammar -/

namespace Signature

open Run Relabel.Signature

section

variable (text : String)

def scanVariable : Run String := do
  expect text 'T'
  let name ← identifier text (· == ';')
  expect text ';'
  return name

section

variable (limit : Nat) (reference : Run ReferenceType)

def scanArgument : Run TypeArgument := do
  match ← peek text with
  | '*' =>
    expect text '*'
    return .any
  | '+' =>
    expect text '+'
    return .upper (← reference)
  | '-' =>
    expect text '-'
    return .lower (← reference)
  | _ => return .exact (← reference)

def scanPart : Run ClassPart := do
  if (← peek text) = '<' then
    expect text '<'
    let arguments ← many (return (← peek text) != '>') (scanArgument text reference) limit
    expect text '>'
    return .arguments arguments
  else
    expect text '.'
    return .inner (← identifier text endsClassName)

def scanClassType : Run ClassType := do
  expect text 'L'
  let name ← identifier text endsClassName
  let parts ← many (do let c ← peek text; return c == '<' || c == '.')
    (scanPart text limit reference) limit
  expect text ';'
  return .of name parts

def scanJavaType : Run JavaType := do
  match BaseType.ofLetter? (← peek text) with
  | some type =>
    expect text type.letter
    return .base type
  | none => return .reference (← reference)

end

def scanReference (limit : Nat) : (depth : Nat) → Run ReferenceType
  | 0 => throw .exhausted
  | depth + 1 => do
    match ← peek text with
    | 'L' => return .object (← scanClassType text limit (scanReference limit depth))
    | 'T' => return .variable (← scanVariable text)
    | '[' =>
      expect text '['
      return .array (← scanJavaType text (scanReference limit depth))
    | _ => unexpected text

section

variable (limit : Nat)

def scanParameter : Run TypeParameter := do
  let name ← identifier text (· == ':')
  expect text ':'
  let c ← peek text
  let classBound ←
    if c = 'L' || c = '[' || c = 'T' then some <$> scanReference text limit limit else pure none
  let interfaceBounds ← many (return (← peek text) == ':')
    (do expect text ':'; scanReference text limit limit) limit
  return ⟨name, classBound, interfaceBounds⟩

def scanParameters : Run (List TypeParameter) := do
  if (← peek text) = '<' then
    expect text '<'
    let first ← scanParameter text limit
    let others ← many (return (← peek text) != '>') (scanParameter text limit) limit
    expect text '>'
    return first :: others
  else return []

def scanThrown : Run ThrownType := do
  expect text '^'
  if (← peek text) = 'T' then return .variable (← scanVariable text)
  else return .object (← scanClassType text limit (scanReference text limit limit))

def scanResult : Run (Option JavaType) := do
  if (← peek text) = 'V' then
    expect text 'V'
    return none
  else return some (← scanJavaType text (scanReference text limit limit))

def scan : SymbolKind → Run Signature
  | .ofClass => do
    let parameters ← scanParameters text limit
    let superclass ← scanClassType text limit (scanReference text limit limit)
    let interfaces ← many (return !(← atEnd text))
      (scanClassType text limit (scanReference text limit limit)) limit
    return .ofClass parameters superclass interfaces
  | .ofMethod => do
    let parameters ← scanParameters text limit
    expect text '('
    let arguments ← many (return (← peek text) != ')')
      (scanJavaType text (scanReference text limit limit)) limit
    expect text ')'
    let result ← scanResult text limit
    let thrown ← many (return !(← atEnd text)) (scanThrown text limit) limit
    return .ofMethod parameters arguments result thrown
  | .ofField => return .ofField (← scanReference text limit limit)

end

def parse (kind : SymbolKind) : Except (Halt Flaw) Signature :=
  match scan text (text.length + 1) kind 0 with
  | .ok signature position =>
    if position = text.utf8ByteSize then .ok signature
    else .error (.fault (.signature text (.trailing position)))
  | .error halt _ => .error (halt.map (.signature text))

end

end Signature

/-- The renamed signature that the bytes of the text spell. -/
def signature (r : Renaming) (kind : SymbolKind) (text : String) : Except (Halt Flaw) String := do
  return ((← Signature.parse text kind).rename r).print

end Bytewise

end Relabel
