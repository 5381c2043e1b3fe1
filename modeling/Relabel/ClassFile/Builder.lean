import Relabel.ClassFile.Access
import Relabel.ClassFile.Codec

/-!
# Building class files

A new class file holds a class and its superclass. Interfaces, members and attributes
are added step by step; each step interns the names it needs, and a step that finds
the pool full keeps the names interned before.
-/

namespace Relabel.ClassFile

/-- A step that builds on a class file. -/
abbrev Edit (β : Type) : Type := EStateM Fault ClassFile β

/-- The member list that a step adds to. -/
inductive Section where
  | fields
  | methods
  deriving DecidableEq

/-- Where an attribute stands. -/
inductive Place where
  | ofClass
  | ofField (position : Nat)
  | ofMethod (position : Nat)
  deriving DecidableEq

/-- A public class of version 52 without members. -/
def create (name : String) (superName : Option String) : Except Fault ClassFile :=
  let intern : Pool.Edit (UInt16 × UInt16) := do
    let thisClass ← Pool.internClass name
    let superClass ← match superName with
      | some superName => Pool.internClass superName
      | none => pure 0
    return (thisClass, superClass)
  match intern Pool.empty with
  | .ok (thisClass, superClass) pool =>
    .ok ⟨0, 52, pool, publicSuper, thisClass, superClass, #[], #[], #[], #[]⟩
  | .error fault _ => .error fault

/-- Run a step on the pool alone. -/
def onPool {β : Type} (e : Pool.Edit β) : Edit β := fun
  | ⟨minor, major, pool, access, thisClass, superClass, interfaces, fields, methods, attributes⟩ =>
    match e pool with
    | .ok b pool =>
      .ok b ⟨minor, major, pool, access, thisClass, superClass, interfaces, fields, methods,
        attributes⟩
    | .error fault pool =>
      .error fault ⟨minor, major, pool, access, thisClass, superClass, interfaces, fields, methods,
        attributes⟩

/-- Add a direct superinterface. -/
def addInterface (name : String) : Edit Unit := do
  let index ← onPool (Pool.internClass name)
  modify fun c => { c with interfaces := c.interfaces.push index }

/-- Declare a field or a method without attributes, giving its position. -/
def addMember (target : Section) (access : UInt16) (name descriptor : String) : Edit Nat := do
  let name ← onPool (Pool.internUtf8 name)
  let descriptor ← onPool (Pool.internUtf8 descriptor)
  let member : Member := ⟨access, name, descriptor, #[]⟩
  match target with
  | .fields =>
    modify fun c => { c with fields := c.fields.push member }
    return (← get).fields.size - 1
  | .methods =>
    modify fun c => { c with methods := c.methods.push member }
    return (← get).methods.size - 1

/-- An attribute of the given name, which stands nowhere yet. -/
def makeAttribute (name : String) (payload : List UInt8) : Edit Attribute := do
  return ⟨← onPool (Pool.internUtf8 name), payload⟩

/-- An attribute that holds a generic signature. -/
def makeSignature (signature : String) : Edit Attribute := do
  let index ← onPool (Pool.internUtf8 signature)
  makeAttribute AttributeName.signature (Word.bytes index)

/-- The attributes at a place; there are none at a member that does not exist. -/
def attributesAt (c : ClassFile) : Place → Array Attribute
  | .ofClass => c.attributes
  | .ofField i => (c.fields[i]?.map (·.attributes)).getD #[]
  | .ofMethod i => (c.methods[i]?.map (·.attributes)).getD #[]

/-- Put an attribute behind those of a member. -/
def attachTo (a : Attribute) (m : Member) : Member :=
  { m with attributes := m.attributes.push a }

/-- Put an attribute behind those at a place. -/
def attach (place : Place) (a : Attribute) (c : ClassFile) : ClassFile :=
  match place with
  | .ofClass => { c with attributes := c.attributes.push a }
  | .ofField i => { c with fields := c.fields.modify i (attachTo a) }
  | .ofMethod i => { c with methods := c.methods.modify i (attachTo a) }

end Relabel.ClassFile
