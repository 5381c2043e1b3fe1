import Relabel.Bytes.Word
import Relabel.Fault

/-!
# Reading bytes in order

A cursor is the unread rest of a byte list together with the number of bytes in
front of it. A reader moves the cursor forward or fails; a failing step keeps
whatever the steps before it consumed, unless it runs `atomically`.
-/

namespace Relabel

structure Cursor where
  position : Nat
  rest : List UInt8
  deriving DecidableEq

namespace Cursor

def start (data : List UInt8) : Cursor := ⟨0, data⟩

def remaining (c : Cursor) : Nat := c.rest.length

/-- Whether a byte is left. -/
def hasMore (c : Cursor) : Bool := !c.rest.isEmpty

end Cursor

abbrev Reader (α : Type) : Type := EStateM Fault Cursor α

namespace Reader

variable {α : Type}

/-- The next `count` bytes. A list that is too short is left where it is. -/
def take (count : Nat) : Reader (List UInt8) := fun c =>
  let front := c.rest.take count
  if front.length = count then .ok front ⟨c.position + count, c.rest.drop count⟩
  else .error .outOfBounds c

def skip (count : Nat) : Reader Unit := do
  let _ ← take count

def word [Word α] : Reader α := do
  return Word.ofBytes (← take (Word.width α))

/-- The next byte, left in place. -/
def peek : Reader UInt8 := fun c =>
  match c.rest with
  | [] => .error .outOfBounds c
  | b :: _ => .ok b c

/-- Run `r`; if it fails, the cursor stays where it was. -/
def atomically (r : Reader α) : Reader α := fun c =>
  match r c with
  | .ok a c' => .ok a c'
  | .error fault _ => .error fault c

/-- Run `r` `n` times, putting the results behind `done`, which is in reverse. -/
def collect (r : Reader α) : (n : Nat) → (done : List α) → Reader (List α)
  | 0, done => pure done.reverse
  | n + 1, done => do
    let a ← r
    collect r n (a :: done)

/-- The results of `n` runs of `r`. -/
def times (n : Nat) (r : Reader α) : Reader (List α) := collect r n []

/-- A 16-bit count and then as many `r`. -/
def counted (r : Reader α) : Reader (List α) := do
  let n : UInt16 ← word
  times n.toNat r

/-- The result of reading `data` from its start. -/
def run (r : Reader α) (data : List UInt8) : Except Fault α :=
  match r (Cursor.start data) with
  | .ok a _ => .ok a
  | .error fault _ => .error fault

end Reader

end Relabel
