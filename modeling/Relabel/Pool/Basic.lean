import Relabel.Fault
import Std.Data.HashMap

/-!
# The constant pool

Entries are addressed by their index, from 1 on; slot 0 and the second slot of a wide
constant are unusable. Interning adds an entry only if the index of shared constants
knows none that is equal; entries are never removed or renumbered. The index holds at
most one position of each shared constant, and that position holds the constant.
-/

namespace Relabel

structure Pool where
  entries : Array Constant
  /-- The known position of each shared constant. -/
  index : Std.HashMap Constant UInt16

/-- A step that adds or replaces entries. A failing step keeps the additions before it. -/
abbrev Pool.Edit (β : Type) : Type := EStateM Fault Pool β

namespace Pool

def maxSlots : Nat := 65535

def empty : Pool := ⟨#[.unusable], ∅⟩

/-- Pools are equal when their entries are. -/
instance : BEq Pool := ⟨fun p q => p.entries == q.entries⟩

/-- Number of slots, slot 0 included. -/
def slots (p : Pool) : Nat := p.entries.size

/-- The number of slots as a class file stores it. -/
def count (p : Pool) : UInt16 := UInt16.ofNat p.slots

def isEmpty (p : Pool) : Bool := p.slots ≤ 1

/-- The entries that are in use, with their indices. -/
def toList (p : Pool) : List (Nat × Constant) :=
  ((List.range p.slots).zip p.entries.toList).filter (·.2 != .unusable)

/-! ## Looking up -/

/-- The entry at `i`, if that slot is in use. -/
def get? (p : Pool) (i : UInt16) : Option Constant :=
  match p.entries[i.toNat]? with
  | none | some .unusable => none
  | some c => some c

def get (p : Pool) (i : UInt16) : Except Fault Constant :=
  match p.get? i with
  | some c => .ok c
  | none => .error (.malformed (.poolIndex i p.slots))

def wrongRole {β : Type} (i : UInt16) (role : Role) (found : Constant) : Except Fault β :=
  .error (.malformed (.wrongRole i role found.variant))

/-- The text at `i`. -/
def utf8 (p : Pool) (i : UInt16) : Except Fault String := do
  match ← p.get i with
  | .utf8 text => return text
  | other => wrongRole i .name other

/-- The name of the class entry at `i`. -/
def className (p : Pool) (i : UInt16) : Except Fault String := do
  match ← p.get i with
  | .classRef name => p.utf8 name
  | other => wrongRole i .classRef other

/-- The name and the descriptor of the entry at `i`. -/
def nameAndType (p : Pool) (i : UInt16) : Except Fault (String × String) := do
  match ← p.get i with
  | .nameAndType name descriptor => return (← p.utf8 name, ← p.utf8 descriptor)
  | other => wrongRole i .nameAndType other

/-- The owner, name and descriptor of the member reference at `i`. -/
def memberRef (p : Pool) (i : UInt16) : Except Fault (String × String × String) := do
  match ← p.get i with
  | .memberRef _ owner member => return (← p.className owner, ← p.nameAndType member)
  | other => wrongRole i .memberRef other

/-! ## Adding -/

/-- Make a shared constant known at `i`, unless a position of it is known already. -/
def learn (index : Std.HashMap Constant UInt16) (c : Constant) (i : UInt16) :
    Std.HashMap Constant UInt16 :=
  if c.isShared then index.insertIfNew c i else index

/-- Forget the constant `c` if it is known at `i`. -/
def forget (index : Std.HashMap Constant UInt16) (c : Constant) (i : UInt16) :
    Std.HashMap Constant UInt16 :=
  if index[c]? = some i then index.erase c else index

/-- The pool with `c` at its end; a wide constant takes a second slot. -/
def append : Pool → Constant → Pool
  | ⟨entries, index⟩, c =>
    let index := learn index c (UInt16.ofNat entries.size)
    if c.isWide then ⟨(entries.push c).push .unusable, index⟩ else ⟨entries.push c, index⟩

/-- Add `c` at the end, giving its index. -/
def push (c : Constant) : Edit UInt16 := fun p =>
  let needed := p.slots + c.width
  if maxSlots < needed then .error (.poolOverflow needed) p
  else
    let i := p.count
    .ok i (p.append c)

/-- Put `c` into the slot `i`, which has to hold a constant of the same width. -/
def set (i : UInt16) (c : Constant) : Edit Unit := fun p =>
  match p.get i with
  | .error fault => .error fault p
  | .ok old =>
    if old.width ≠ c.width then .error (.malformed (.widthChange i)) p
    else
      match p with
      | ⟨entries, index⟩ => .ok () ⟨entries.setIfInBounds i.toNat c, learn (forget index old i) c i⟩

/-- The known index of `c`, or that of a new entry. -/
def intern (c : Constant) : Edit UInt16 := fun p =>
  match p.index[c]? with
  | some i => .ok i p
  | none => push c p

def internUtf8 (text : String) : Edit UInt16 := intern (.utf8 text)

def internClass (name : String) : Edit UInt16 := do
  let name ← internUtf8 name
  intern (.classRef name)

def internNameAndType (name descriptor : String) : Edit UInt16 := do
  let name ← internUtf8 name
  let descriptor ← internUtf8 descriptor
  intern (.nameAndType name descriptor)

def internMemberRef (kind : RefKind) (owner name descriptor : String) : Edit UInt16 := do
  let owner ← internClass owner
  let member ← internNameAndType name descriptor
  intern (.memberRef kind owner member)

end Pool

end Relabel
