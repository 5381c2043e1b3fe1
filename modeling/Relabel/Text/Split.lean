/-!
# Splitting lists

Cutting a list at every element that satisfies a test, and text into its words. A cut
list has one piece more than cuts; words are the pieces that are not empty.
-/

namespace Relabel.Text

variable {α : Type}

/-- The pieces behind `done` and the started piece `piece`, which are both in reverse. -/
def piecesFrom (stop : α → Bool) (done : List (List α)) (piece : List α) :
    List α → List (List α)
  | [] => (piece.reverse :: done).reverse
  | a :: rest =>
    if stop a then piecesFrom stop (piece.reverse :: done) [] rest
    else piecesFrom stop done (a :: piece) rest

/-- The pieces between the elements that satisfy `stop`, which are left out. -/
def pieces (stop : α → Bool) (xs : List α) : List (List α) := piecesFrom stop [] [] xs

/-- `xs` without the elements at its end that satisfy `drop`. -/
def trimEnd (drop : α → Bool) (xs : List α) : List α := (xs.reverse.dropWhile drop).reverse

/-- The characters of Unicode property `White_Space`, as ranges. -/
def blankRanges : List (Nat × Nat) :=
  [(0x0009, 0x000D), (0x0020, 0x0020), (0x0085, 0x0085), (0x00A0, 0x00A0), (0x1680, 0x1680),
    (0x2000, 0x200A), (0x2028, 0x2029), (0x202F, 0x202F), (0x205F, 0x205F), (0x3000, 0x3000)]

def isBlank (c : Char) : Bool :=
  blankRanges.any fun (first, last) => first ≤ c.toNat && c.toNat ≤ last

/-- The maximal runs of characters that are not blank. -/
def words (chars : List Char) : List String :=
  ((pieces isBlank chars).filter (!·.isEmpty)).map String.ofList

/-- The texts between tabs. -/
def columns (chars : List Char) : List String :=
  (pieces (· == '\t') chars).map String.ofList

end Relabel.Text
