import Relabel.Fault
import Relabel.Renaming

/-!
# Descriptors

A descriptor is read as text with class names in it: a name stands behind each `L` and
ends at the next `;`. Nothing else is looked at, so every text without an open name is
a descriptor, and renaming keeps all text outside the names.
-/

namespace Relabel

/-- Text without `L`, and the class name that stands behind it. -/
structure Segment where
  text : List Char
  name : List Char
  deriving DecidableEq

def Segment.chars (s : Segment) : List Char := s.text ++ 'L' :: s.name ++ [';']

/-- The segments of a descriptor and the text behind the last name. -/
structure Descriptor where
  segments : List Segment
  tail : List Char
  deriving DecidableEq

namespace Descriptor

mutual

/-- Read on outside a name, behind `text`, which is in reverse. -/
def readText (done : List Segment) (text : List Char) : List Char → Option Descriptor
  | [] => some ⟨done.reverse, text.reverse⟩
  | c :: rest =>
    if c = 'L' then readName done text.reverse [] rest else readText done (c :: text) rest

/-- Read on inside a name, behind its start `name`, which is in reverse. -/
def readName (done : List Segment) (text name : List Char) : List Char → Option Descriptor
  | [] => none
  | c :: rest =>
    if c = ';' then readText (⟨text, name.reverse⟩ :: done) [] rest
    else readName done text (c :: name) rest

end

/-- The descriptor with the given text, unless a name in it does not end. -/
def ofChars? (chars : List Char) : Option Descriptor := readText [] [] chars

def parse (text : String) : Except Flaw Descriptor :=
  match ofChars? text.toList with
  | some d => .ok d
  | none => .error (.unterminatedType text)

def chars (d : Descriptor) : List Char := d.segments.flatMap Segment.chars ++ d.tail

mutual

theorem chars_readText {done : List Segment} {text rest : List Char} {d : Descriptor}
    (h : readText done text rest = some d) :
    d.chars = done.reverse.flatMap Segment.chars ++ text.reverse ++ rest := by
  match rest with
  | [] =>
    rw [readText] at h
    cases h
    simp [chars]
  | c :: rest =>
    rw [readText] at h
    split at h
    case isTrue hc => simpa [hc] using chars_readName h
    case isFalse => simpa using chars_readText h

theorem chars_readName {done : List Segment} {text name rest : List Char} {d : Descriptor}
    (h : readName done text name rest = some d) :
    d.chars = done.reverse.flatMap Segment.chars ++ text ++ 'L' :: name.reverse ++ rest := by
  match rest with
  | [] => simp [readName] at h
  | c :: rest =>
    rw [readName] at h
    split at h
    case isTrue hc => simpa [hc, Segment.chars] using chars_readText h
    case isFalse => simpa using chars_readName h

end

/-- Reading loses nothing. -/
theorem chars_of_ofChars? {text : List Char} {d : Descriptor} (h : ofChars? text = some d) :
    d.chars = text := by
  simpa using chars_readText h

def print (d : Descriptor) : String := String.ofList d.chars

/-- The class names, from left to right. -/
def names (d : Descriptor) : List String := d.segments.map fun s => String.ofList s.name

/-- The descriptor with every class name replaced by its new name. -/
def rename (r : Renaming) (d : Descriptor) : Descriptor where
  segments := d.segments.map fun s => ⟨s.text, (r.className (String.ofList s.name)).toList⟩
  tail := d.tail

end Descriptor

namespace Renaming

/-- The descriptor `text` under the new class names. -/
def descriptor (r : Renaming) (text : String) : Except Flaw String := do
  return ((← Descriptor.parse text).rename r).print

/-- The new name of a class entry, which names a class or an array type. -/
def type (r : Renaming) (name : String) : Except Flaw String :=
  if name.startsWith "[" then r.descriptor name else .ok (r.className name)

/-- Whether some of the names is renamed to a different one. -/
def changesAny (r : Renaming) (names : List String) : Bool :=
  names.any fun name => r.className name != name

end Renaming

end Relabel
