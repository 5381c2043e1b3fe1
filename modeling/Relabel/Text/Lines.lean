import Relabel.Text.Split

/-!
# Lines

A text is cut into lines at every newline. What stands behind the last newline is a
line of its own, unless it is empty. A complete line loses one carriage return at its
end.
-/

namespace Relabel.Text

variable {α : Type} [BEq α]

/-- `xs` without one `a` at its end. -/
def dropEnd (a : α) (xs : List α) : List α := if xs.getLast? == some a then xs.dropLast else xs

/-- The lines that a newline ends, and the rest. -/
def completeLines (newline : α) (xs : List α) : List (List α) × List α :=
  let parts := pieces (· == newline) xs
  (parts.dropLast, parts.getLast?.getD [])

/-- The lines of a text, the last of which keeps a carriage return if no newline ends it. -/
def lines (chars : List Char) : List (List Char) :=
  let (complete, rest) := completeLines '\n' chars
  complete.map (dropEnd '\r') ++ (if rest.isEmpty then [] else [rest])

/-- The lines of a byte list, none of which keeps a last carriage return. -/
def byteLines (bytes : List UInt8) : List (List UInt8) :=
  let (complete, rest) := completeLines 10 bytes
  (complete ++ (if rest.isEmpty then [] else [rest])).map (dropEnd 13)

end Relabel.Text
