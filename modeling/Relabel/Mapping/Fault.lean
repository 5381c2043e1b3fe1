import Relabel.Text.Utf8

/-!
# Faults of mapping lines

Why a line of a mapping file gives no record. A fault never reaches beyond its line.
-/

namespace Relabel.Mapping

inductive LineFlaw where
  /-- The line of the named source is no text. -/
  | notUtf8 (source : String) (cause : Text.Utf8.IllFormed)
  | columns (tag : String) (needed found : Nat)
  | nestedMember
  | memberBeforeClass
  | memberTokens (found : Nat)
  | indentedClass
  | classTokens (found : Nat)
  deriving DecidableEq

/-- A flaw and the number of its line, from 1 on. -/
structure LineFault where
  line : Nat
  flaw : LineFlaw
  deriving DecidableEq

def LineFlaw.message : LineFlaw → String
  | .notUtf8 source cause => s!"{source} - line is not valid UTF-8: {cause.message}"
  | .columns tag needed found => s!"{tag} record needs {needed} columns, found {found}"
  | .nestedMember => "member line nested deeper than one tab"
  | .memberBeforeClass => "member line before any class line"
  | .memberTokens found => s!"member line has {found} tokens, expected 2 or 3"
  | .indentedClass => "class line must not be indented"
  | .classTokens found => s!"class line has {found} tokens, expected 2"

def LineFault.message (f : LineFault) : String :=
  s!"Malformed mapping at line {f.line}: {f.flaw.message}"

end Relabel.Mapping
