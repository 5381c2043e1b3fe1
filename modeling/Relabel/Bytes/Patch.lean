import Relabel.Bytes.Word
import Relabel.Fault

/-!
# Words at an offset

Reading and replacing words inside a byte list of fixed length. Each operation also
gives the offset behind the word.
-/

namespace Relabel.Bytes

variable {α : Type} [Word α]

/-- The `count` bytes from `offset` on. -/
def slice (data : List UInt8) (offset count : Nat) : Except Fault (List UInt8) :=
  if offset + count ≤ data.length then .ok ((data.drop offset).take count)
  else .error .outOfBounds

/-- The word at `offset`. -/
def readAt (data : List UInt8) (offset : Nat) : Except Fault (α × Nat) := do
  let bytes ← slice data offset (Word.width α)
  return (Word.ofBytes bytes, offset + Word.width α)

/-- `data` with the word at `offset` replaced by `x`. -/
def writeAt (data : List UInt8) (offset : Nat) (x : α) : Except Fault (List UInt8 × Nat) :=
  let stop := offset + Word.width α
  if stop ≤ data.length then .ok (data.take offset ++ Word.bytes x ++ data.drop stop, stop)
  else .error .outOfBounds

end Relabel.Bytes
