/-!
# Hexadecimal numerals

Upper-case digits, most significant first, in a field of fixed width.
-/

namespace Relabel.Text

def hexDigit (n : Nat) : Char :=
  if n < 10 then Char.ofNat (48 + n) else Char.ofNat (55 + n)

/-- The last `width` hexadecimal digits of `n`. -/
def hexDigits : (width n : Nat) → List Char
  | 0, _ => []
  | width + 1, n => hexDigit (n / Nat.pow 16 width % 16) :: hexDigits width n

/-- `hexDigits` as text. -/
def hexadecimal (width n : Nat) : String := String.ofList (hexDigits width n)

end Relabel.Text
