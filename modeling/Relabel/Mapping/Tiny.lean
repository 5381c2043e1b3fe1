import Relabel.Mapping.Source

/-!
# Tiny files

A Tiny v1 file is a header and then one record a line, in columns between tabs: a tag,
the owner or class, and the names. Columns behind the first name in the target naming
are not read, and lines of another tag give nothing.
-/

namespace Relabel.Mapping.Tiny

/-- The number of columns that a record with this tag needs. -/
def columnsNeeded? (tag : String) : Option Nat :=
  if tag = "CLASS" then some 3
  else if tag = "FIELD" || tag = "METHOD" then some 5
  else none

/-- The columns of a line, without carriage returns at its end. -/
def columnsOf (line : String) : List String :=
  Text.columns (Text.trimEnd (· == '\r') line.toList)

/-- The record of a line, if it gives one. -/
def readLine (line : String) : Except LineFlaw (Option Record) :=
  match columnsOf line with
  | tag :: columns =>
    if columns.isEmpty then .ok none
    else
      match columnsNeeded? tag with
      | none => .ok none
      | some needed =>
        match tag, columns with
        | "CLASS", pivot :: name :: _ => .ok (some ⟨.ofClass pivot, name⟩)
        | "FIELD", owner :: _ :: pivot :: name :: _ => .ok (some ⟨.ofField owner pivot, name⟩)
        | "METHOD", owner :: descriptor :: pivot :: name :: _ =>
          .ok (some ⟨.ofMethod owner pivot descriptor, name⟩)
        | _, _ => .error (.columns tag needed (columns.length + 1))
  | [] => .ok none

/-- The notices about the first line, which has to name version 1. -/
def headerNotices (header : Line) : Array Notice :=
  match header.text with
  | .ok text => if (columnsOf text).head? = some "v1" then #[] else #[.header]
  | .error flaw => #[.line ⟨header.number, flaw⟩]

def addLine (reading : Reading) (line : Line) : Reading :=
  reading.add line.number (line.text >>= readLine)

/-- The records behind the first line. -/
def read : List Line → Reading
  | [] => .empty
  | header :: lines => lines.foldl addLine ⟨#[], headerNotices header⟩

def parse (text : String) : Reading := read (linesOf text)

def load : Option Source → Reading
  | some source => read source.lines
  | none => .noSource .tiny

end Relabel.Mapping.Tiny
