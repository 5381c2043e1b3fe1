import Relabel.Mapping.Source

/-!
# TSRG files

A TSRG v1 file has no header. A class line starts at the margin, and the member lines
behind it, which start with one tab, belong to that class. Two words on a member line
are a field, three a method. Methods that every object has are left out.
-/

namespace Relabel.Mapping.Tsrg

/-- The names of the methods that every object has. -/
def universalMethods : List String := ["equals", "toString", "hashCode"]

def isUniversal (name : String) : Bool := universalMethods.contains name

/-- The record of a member line of the class `owner`, read behind its tab. -/
def readMember (owner : String) (chars : List Char) : Except LineFlaw (Option Record) :=
  match Text.words chars with
  | [pivot, name] => .ok (some ⟨.ofField owner pivot, name⟩)
  | [pivot, descriptor, name] =>
    if isUniversal pivot then .ok none else .ok (some ⟨.ofMethod owner pivot descriptor, name⟩)
  | words => .error (.memberTokens words.length)

/-- Read a line in the class `owner`, giving the class that the next line stands in. -/
def readChars (owner : Option String) (chars : List Char) :
    Option String × Except LineFlaw (Option Record) :=
  match Text.trimEnd (· == '\r') chars with
  | [] => (owner, .ok none)
  | c :: rest =>
    if (c :: rest).all Text.isBlank then (owner, .ok none)
    else if c = '\t' then
      (owner,
        if rest.head? = some '\t' then .error .nestedMember
        else
          match owner with
          | none => .error .memberBeforeClass
          | some owner => readMember owner rest)
    else if Text.isBlank c then (none, .error .indentedClass)
    else
      match Text.words (c :: rest) with
      | [pivot, name] => (some pivot, .ok (some ⟨.ofClass pivot, name⟩))
      | words => (none, .error (.classTokens words.length))

def readLine (owner : Option String) (line : String) :
    Option String × Except LineFlaw (Option Record) :=
  readChars owner line.toList

/-- The class that the next line stands in, and the records so far. A line that is no text leaves
the class as it is. -/
def addLine (state : Option String × Reading) (line : Line) : Option String × Reading :=
  match state with
  | (owner, reading) =>
    match line.text with
    | .error flaw => (owner, reading.add line.number (.error flaw))
    | .ok text =>
      let (owner, result) := readLine owner text
      (owner, reading.add line.number result)

def read (lines : List Line) : Reading := (lines.foldl addLine (none, .empty)).2

def parse (text : String) : Reading := read (linesOf text)

def load : Option Source → Reading
  | some source => read source.lines
  | none => .noSource .tsrg

end Relabel.Mapping.Tsrg
