import Relabel.Edit.Payload

/-!
# Walks that count the levels

The walks over payloads once more, with one counter of the levels that is shared by all of
them. A nested annotation, element array or attribute table is refused if the counter is at
the limit. Otherwise the counter is raised, and lowered again behind the walk inside, also
if that fails. A log tells what the counter was at each nested call.
-/

namespace Relabel

namespace Dive

/-- What the counter was at a nested call. -/
inductive Call where
  /-- The counter was at the limit. -/
  | refused (entry : Nat)
  /-- The counter before the call, at the end of the walk inside, and behind the call. -/
  | entered (entry inside exit : Nat)
  deriving DecidableEq

namespace Call

/-- The level that the call would lead to. -/
def level : Call → Nat
  | refused entry => entry + 1
  | entered entry _ _ => entry + 1

/-- The counter is not above the limit, and behind the call it is what it was before. -/
def Balanced (limit : Nat) : Call → Prop
  | refused entry => entry = limit
  | entered entry inside exit => inside = entry + 1 ∧ inside ≤ limit ∧ exit = entry

end Call

/-- The tape with all that a walk can touch, the counter and the calls so far, the last one
first. -/
structure Site where
  focus : Focus Tape
  depth : Nat
  calls : List Call

/-- How a walk ends without a result. -/
inductive Stop where
  | fault (fault : Fault)
  /-- The bound on the recursion is reached. -/
  | exhausted

end Dive

open Dive

/-- A walk with a counter. -/
abbrev Dive (α : Type) : Type := EStateM Stop Site α

namespace Dive

variable {α : Type}

/-- A walk that does not look at the counter. -/
def lift (e : Edit Tape α) : Dive α := fun ⟨focus, depth, calls⟩ =>
  match e focus with
  | .ok a focus => .ok a ⟨focus, depth, calls⟩
  | .error fault focus => .error (.fault fault) ⟨focus, depth, calls⟩

/-- Change the state that a run ends in, whether it succeeds or not. -/
def mapState {ε σ : Type} (change : σ → σ) : EStateM.Result ε σ α → EStateM.Result ε σ α
  | .ok a s => .ok a (change s)
  | .error e s => .error e (change s)

/-- Lower the counter behind a call that was made at `entry`. -/
def leave (entry : Nat) (s : Site) : Site where
  focus := s.focus
  depth := s.depth - 1
  calls := .entered entry s.depth (s.depth - 1) :: s.calls

/-- Walk one level down. -/
def nested (limit : Nat) (x : Dive Unit) : Dive Unit := fun s =>
  if limit ≤ s.depth then
    .error (.fault (.malformed .nesting)) { s with calls := .refused s.depth :: s.calls }
  else mapState (leave s.depth) (x { s with depth := s.depth + 1 })

/-- Change the tape alone. -/
def onTape (change : Tape → Tape) (f : Focus Tape) : Focus Tape := { f with item := change f.item }

def onFocus (change : Focus Tape → Focus Tape) (s : Site) : Site :=
  { s with focus := change s.focus }

/-- Walk over a part of the tape that `view` gives and `put` replaces. -/
def inside (view : Tape → Tape) (put : Tape → Tape → Tape) (x : Dive α) : Dive α := fun s =>
  mapState (onFocus (onTape (put · s.focus.item))) (x (onFocus (onTape view) s))

def times : (n : Nat) → (x : Dive Unit) → Dive Unit
  | 0, _ => pure ()
  | n + 1, x => do
    x
    times n x

def counted (x : Dive Unit) : Dive Unit := do
  let n : UInt16 ← lift Walk.word
  times n.toNat x

def within (n : Nat) (x : Dive Unit) : Dive Unit := do
  let before := (← lift Edit.item).passed
  let part ← lift (Walk.pass n)
  inside (fun _ => Tape.start part) (fun inner t => ⟨inner.bytes.reverseAux before, t.ahead⟩) x

section

variable (r : Renaming)

def annotated (value : Dive Unit) : Dive Unit := do
  lift (Walk.descriptorSlot r)
  counted do
    lift (Walk.skip 2)
    value

def element (nested array : Dive Unit) : Dive Unit := do
  let tag : UInt8 ← lift Walk.word
  match Char.ofNat tag.toNat with
  | 'B' | 'C' | 'D' | 'F' | 'I' | 'J' | 'S' | 'Z' | 's' => lift (Walk.skip 2)
  | 'e' =>
    lift (Walk.descriptorSlot r)
    lift (Walk.skip 2)
  | 'c' => lift (Walk.descriptorSlot r)
  | '@' => nested
  | '[' => array
  | _ => throw (.fault (.malformed (.elementTag tag)))

/-- The nesting of values is bounded by the counter, and the recursion by `fuel`. -/
def elementValue (limit : Nat) : (fuel : Nat) → Dive Unit
  | 0 => throw .exhausted
  | fuel + 1 => element r (nested limit (annotated r (elementValue limit fuel)))
      (nested limit (counted (elementValue limit fuel)))

def annotations (value : Dive Unit) : Dive Unit := counted (annotated r value)

def parameterAnnotations (value : Dive Unit) : Dive Unit := do
  let n : UInt8 ← lift Walk.word
  times n.toNat (annotations r value)

def annotatedType (value : Dive Unit) : Dive Unit := do
  let tag : UInt8 ← lift Walk.word
  lift (Walk.skip (← lift (Walk.targetSize tag)))
  let path : UInt8 ← lift Walk.word
  lift (Walk.skip (path.toNat * 2))
  annotated r value

def table (payload : String → Dive Unit) : Dive Unit :=
  counted do
    let index : UInt16 ← lift Walk.word
    let size : UInt32 ← lift Walk.word
    within size.toNat do
      payload (← lift (Edit.look (·.utf8 index)))

def code (attributes : Dive Unit) : Dive Unit := do
  lift (Walk.skip 4)
  let size : UInt32 ← lift Walk.word
  lift (Walk.skip size.toNat)
  let handlers : UInt16 ← lift Walk.word
  lift (Walk.skip (handlers.toNat * 8))
  attributes

def record (attributes : Dive Unit) : Dive Unit :=
  counted do
    lift (Walk.skip 2)
    lift (Walk.descriptorSlot r)
    attributes

def layout (value attributes : Dive Unit) (kind : SymbolKind) (name : String) : Dive Unit :=
  if name = AttributeName.signature then lift (Walk.signature r kind)
  else if AttributeName.annotations.contains name then annotations r value
  else if AttributeName.parameterAnnotations.contains name then parameterAnnotations r value
  else if AttributeName.typeAnnotations.contains name then counted (annotatedType r value)
  else if name = AttributeName.annotationDefault then value
  else if name = AttributeName.code then code attributes
  else if name = AttributeName.localVariables then
    lift (Walk.localVariables (Walk.descriptorSlot r))
  else if name = AttributeName.localVariableTypes then
    lift (Walk.localVariables (Walk.signatureSlot r .ofField))
  else if name = AttributeName.record then record r attributes
  else if name = AttributeName.innerClasses then lift (Walk.counted (Walk.innerClass r))
  else pure ()

/-- The payload of the attribute `name`. All attribute tables inside share the counter with the
element values. -/
def payload (limit : Nat) : (fuel : Nat) → SymbolKind → (name : String) → Dive Unit
  | 0 => fun _ _ => throw .exhausted
  | fuel + 1 => layout r (elementValue r limit (fuel + 1))
      (nested limit (table (payload limit fuel .ofField)))

end

end Dive

end Relabel
