import Relabel.Notice
import Relabel.Text.Lines

/-!
# Mapping sources

A source is a byte list with a name. Its lines are read one by one, so a line that is
no text leaves the others alone. A reading is the records of a source and the notices
about what it leaves out.
-/

namespace Relabel.Mapping

structure Source where
  name : String
  data : List UInt8
  deriving DecidableEq

/-- A line and its number, from 1 on. -/
structure Line where
  number : Nat
  text : Except LineFlaw String

/-- The byte order mark. -/
def byteOrderMark : List UInt8 := [0xEF, 0xBB, 0xBF]

/-- Number lines from 1 on. -/
def numbered (texts : List (Except LineFlaw String)) : List Line :=
  (texts.zipIdx 1).map fun (text, number) => ⟨number, text⟩

namespace Source

/-- The bytes behind a byte order mark at the start. -/
def text (s : Source) : List UInt8 := (byteOrderMark.isPrefixOf? s.data).getD s.data

def readLine (s : Source) (line : List UInt8) : Except LineFlaw String :=
  match Text.Utf8.decode line with
  | .ok text => .ok text
  | .error cause => .error (.notUtf8 s.name cause)

def lines (s : Source) : List Line := numbered ((Text.byteLines s.text).map s.readLine)

end Source

/-- The lines of a text. -/
def linesOf (text : String) : List Line :=
  numbered ((Text.lines text.toList).map fun line => .ok (String.ofList line))

/-- The records of a source, and notices about it. -/
structure Reading where
  records : Array Record
  notices : Array Notice

namespace Reading

def empty : Reading := ⟨#[], #[]⟩

/-- What reading a source gives that is not there. -/
def noSource (format : Format) : Reading := ⟨#[], #[.noSource format]⟩

/-- Add what the line of the given number gives: a record, nothing, or a notice of its flaw. -/
def add (number : Nat) (result : Except LineFlaw (Option Record)) : Reading → Reading
  | ⟨records, notices⟩ =>
    match result with
    | .ok (some record) => ⟨records.push record, notices⟩
    | .ok none => ⟨records, notices⟩
    | .error flaw => ⟨records, notices.push (.line ⟨number, flaw⟩)⟩

end Reading

end Relabel.Mapping
