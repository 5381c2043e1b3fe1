import Relabel.Notice
import Relabel.Pool.Basic

/-!
# Edits

An edit changes one item, such as a member or a payload, together with the constant
pool that the item points into, counts its changes and gives notices. When an edit
fails, all that it did before stays done.
-/

namespace Relabel

/-- How many entries were changed, by kind. -/
structure Tally where
  /-- Class entries. -/
  classes : Nat := 0
  /-- References to fields and methods. -/
  memberRefs : Nat := 0
  /-- Declared fields and methods. -/
  members : Nat := 0
  /-- Method types, dynamic constants and call sites. -/
  dynamic : Nat := 0
  /-- Signatures of classes, members and local variables. -/
  signatures : Nat := 0
  enclosingMethods : Nat := 0
  /-- Descriptors and simple names inside attributes. -/
  attributes : Nat := 0
  deriving DecidableEq

namespace Tally

def total (t : Tally) : Nat :=
  t.classes + t.memberRefs + t.members + t.dynamic + t.signatures + t.enclosingMethods
    + t.attributes

/-- Whether nothing was counted. -/
def isUnchanged (t : Tally) : Bool := t.total == 0

def addClass (t : Tally) : Tally := { t with classes := t.classes + 1 }
def addMemberRef (t : Tally) : Tally := { t with memberRefs := t.memberRefs + 1 }
def addMember (t : Tally) : Tally := { t with members := t.members + 1 }
def addDynamic (t : Tally) : Tally := { t with dynamic := t.dynamic + 1 }
def addSignature (t : Tally) : Tally := { t with signatures := t.signatures + 1 }
def addEnclosingMethod (t : Tally) : Tally := { t with enclosingMethods := t.enclosingMethods + 1 }
def addAttribute (t : Tally) : Tally := { t with attributes := t.attributes + 1 }

end Tally

/-- The item that is edited, and all that an edit of it can touch. -/
structure Focus (α : Type) where
  item : α
  pool : Pool
  tally : Tally
  notices : Array Notice

abbrev Edit (α β : Type) : Type := EStateM Fault (Focus α) β

namespace Edit

variable {α β γ : Type}

/-- The item as it is now. -/
def item : Edit α α := fun f => .ok f.item f

def modifyItem (change : α → α) : Edit α Unit := fun
  | ⟨a, pool, tally, notices⟩ => .ok () ⟨change a, pool, tally, notices⟩

/-- Look something up in the pool. -/
def query (q : Pool → β) : Edit α β := fun
  | ⟨a, pool, tally, notices⟩ => let b := q pool; .ok b ⟨a, pool, tally, notices⟩

/-- The value `r`, or its fault. -/
def ofExcept (r : Except Fault β) : Edit α β :=
  match r with
  | .ok b => pure b
  | .error fault => throw fault

/-- The value `r`, or its flaw as a fault. -/
def ofFlaw (r : Except Flaw β) : Edit α β :=
  match r with
  | .ok b => pure b
  | .error flaw => throw (.malformed flaw)

/-- Look up what has to be in the pool. -/
def look (q : Pool → Except Fault β) : Edit α β := do
  ofExcept (← query q)

/-- Change the pool alone. -/
def onPool (e : Pool.Edit β) : Edit α β := fun
  | ⟨a, pool, tally, notices⟩ =>
    match e pool with
    | .ok b pool => .ok b ⟨a, pool, tally, notices⟩
    | .error fault pool => .error fault ⟨a, pool, tally, notices⟩

def count (add : Tally → Tally) : Edit α Unit := fun
  | ⟨a, pool, tally, notices⟩ => .ok () ⟨a, pool, add tally, notices⟩

def note (notice : Notice) : Edit α Unit := fun
  | ⟨a, pool, tally, notices⟩ => .ok () ⟨a, pool, tally, notices.push notice⟩

/-- Edit the part of the item that `view` gives and `put` replaces. -/
def inside (view : α → β) (put : β → α → α) (e : Edit β γ) : Edit α γ := fun
  | ⟨a, pool, tally, notices⟩ =>
    match e ⟨view a, pool, tally, notices⟩ with
    | .ok c ⟨b, pool, tally, notices⟩ => .ok c ⟨put b a, pool, tally, notices⟩
    | .error fault ⟨b, pool, tally, notices⟩ => .error fault ⟨put b a, pool, tally, notices⟩

/-- Edit the items `rest` in order, behind `done`. After a fault the others stay as they are. -/
def eachFrom (e : Edit α Unit) (done : Array α) :
    (rest : List α) → Focus Unit → EStateM.Result Fault (Focus (Array α)) Unit
  | [], ⟨_, pool, tally, notices⟩ => .ok () ⟨done, pool, tally, notices⟩
  | a :: rest, ⟨_, pool, tally, notices⟩ =>
    match e ⟨a, pool, tally, notices⟩ with
    | .ok _ ⟨a, pool, tally, notices⟩ =>
      eachFrom e (done.push a) rest ⟨(), pool, tally, notices⟩
    | .error fault ⟨a, pool, tally, notices⟩ =>
      .error fault ⟨done.push a ++ rest, pool, tally, notices⟩

/-- Edit every item of an array, up to the first fault. -/
def each (e : Edit α Unit) : Edit (Array α) Unit := fun
  | ⟨items, pool, tally, notices⟩ => eachFrom e #[] items.toList ⟨(), pool, tally, notices⟩

/-- Run `e` `n` times. -/
def times : (n : Nat) → (e : Edit α Unit) → Edit α Unit
  | 0, _ => pure ()
  | n + 1, e => do
    e
    times n e

/-- Run `e` for `n` indices from `first` on. -/
def timesFrom (e : UInt16 → Edit α Unit) : (n first : Nat) → Edit α Unit
  | 0, _ => pure ()
  | n + 1, first => do
    e (UInt16.ofNat first)
    timesFrom e n (first + 1)

end Edit

end Relabel
