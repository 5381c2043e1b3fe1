import Relabel.Bytes.Word
import Relabel.Edit.Basic

/-!
# Walking over a payload

A tape is a byte list that is being walked over: the bytes already passed, in reverse,
and those ahead. A walk passes bytes and may amend what it has just passed, so the
tape never changes its length.
-/

namespace Relabel

structure Tape where
  /-- The bytes passed, the last one first. -/
  passed : List UInt8
  ahead : List UInt8
  deriving DecidableEq

namespace Tape

def start (payload : List UInt8) : Tape := ⟨[], payload⟩

/-- All bytes in order. -/
def bytes (t : Tape) : List UInt8 := t.passed.reverseAux t.ahead

@[simp] theorem bytes_start (payload : List UInt8) : (start payload).bytes = payload := rfl

@[simp] theorem length_bytes (t : Tape) : t.bytes.length = t.passed.length + t.ahead.length := by
  simp [bytes]

end Tape

abbrev Walk : Type := Edit Tape Unit

namespace Walk

/-- Pass `n` bytes, which have to be there. -/
def pass (n : Nat) : Edit Tape (List UInt8) := fun
  | ⟨⟨passed, ahead⟩, pool, tally, notices⟩ =>
    let front := ahead.take n
    if front.length = n then
      .ok front ⟨⟨front.reverseAux passed, ahead.drop n⟩, pool, tally, notices⟩
    else .error .outOfBounds ⟨⟨passed, ahead⟩, pool, tally, notices⟩

def skip (n : Nat) : Walk := do
  let _ ← pass n

/-- Pass a word. -/
def word {α : Type} [Word α] : Edit Tape α := do
  return Word.ofBytes (← pass (Word.width α))

/-- Replace the word that ends `back` bytes before the bytes ahead. -/
def amend {α : Type} [Word α] (back : Nat) (x : α) : Walk :=
  Edit.modifyItem fun t =>
    ⟨t.passed.take back ++ (Word.bytes x).reverseAux (t.passed.drop (back + Word.width α)), t.ahead⟩

/-- Walk over the next `n` bytes alone. All of them are passed afterwards. -/
def within (n : Nat) (w : Walk) : Walk := do
  let before := (← Edit.item).passed
  let part ← pass n
  Edit.inside (fun _ => Tape.start part)
    (fun inner t => ⟨inner.bytes.reverseAux before, t.ahead⟩) w

/-- A 16-bit count and then as many `w`. -/
def counted (w : Walk) : Walk := do
  let n : UInt16 ← word
  Edit.times n.toNat w

end Walk

end Relabel
