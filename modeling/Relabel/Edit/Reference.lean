import Relabel.Descriptor
import Relabel.Edit.Basic

/-!
# Renaming pool entries

A changed name is interned as an entry of its own, and the entry that refers to it is
given the new index; text entries are never changed. Members are looked up under the
old names of their owners, so references are renamed before class entries.
-/

namespace Relabel.Edit

variable {α : Type} (r : Renaming)

/-- The index of the renamed name and descriptor, if one of them changes. -/
def renamedPair? (name descriptor name' : String) : Edit α (Option UInt16) := do
  let descriptor' ← ofFlaw (r.descriptor descriptor)
  if name' = name ∧ descriptor' = descriptor then return none
  else return some (← onPool (Pool.internNameAndType name' descriptor'))

/-- The index of the new text, if it differs from the old one. -/
def renamedText? (text text' : String) : Edit α (Option UInt16) :=
  if text' = text then return none else return some (← onPool (Pool.internUtf8 text'))

/-- Put the index of the new text into the item, if it differs from the old one. -/
def renameText (put : UInt16 → α → α) (text text' : String) : Edit α Unit := do
  if let some index ← renamedText? text text' then modifyItem (put index)

/-- The new name of a member that is used on `owner`. -/
def memberName (kind : RefKind) (owner name descriptor : String) : String :=
  match kind with
  | .field => r.fieldName owner name descriptor
  | .method | .interfaceMethod => r.methodName owner name descriptor

/-- Give the entry at `index` the new index, if there is one. -/
def repoint (index : UInt16) (build : UInt16 → Constant) (add : Tally → Tally) :
    Option UInt16 → Edit α Unit
  | none => pure ()
  | some new => do
    onPool (Pool.set index (build new))
    count add

/-- Rename the name and descriptor at `old`, to which the entry at `index` leads. -/
def repointPair (index : UInt16) (build : UInt16 → Constant) (add : Tally → Tally) (old : UInt16)
    (newName : (name descriptor : String) → String) : Edit α Unit := do
  let (name, descriptor) ← look (·.nameAndType old)
  repoint index build add (← renamedPair? r name descriptor (newName name descriptor))

/-- Rename the text at `old`, to which the entry at `index` leads. -/
def repointText (index : UInt16) (build : UInt16 → Constant) (add : Tally → Tally) (old : UInt16)
    (newText : String → Except Flaw String) : Edit α Unit := do
  let text ← look (·.utf8 old)
  let text' ← ofFlaw (newText text)
  repoint index build add (← renamedText? text text')

/-- Rename what the entry at `index` refers to, unless it is a class. -/
def renameReference (index : UInt16) : Edit α Unit := do
  match ← query (·.get? index) with
  | some (.memberRef kind owner member) =>
    let ownerName ← look (·.className owner)
    repointPair r index (.memberRef kind owner) Tally.addMemberRef member
      (memberName r kind ownerName)
  | some (.dynamic bootstrap member) =>
    repointPair r index (.dynamic bootstrap) Tally.addDynamic member r.dynamicName
  | some (.invokeDynamic bootstrap member) =>
    repointPair r index (.invokeDynamic bootstrap) Tally.addDynamic member r.dynamicName
  | some (.methodType descriptor) =>
    repointText index .methodType Tally.addDynamic descriptor r.descriptor
  | some (.module name) => repointText index .module id name fun text => .ok (r.moduleName text)
  | some (.package name) => repointText index .package id name fun text => .ok (r.packageName text)
  | _ => pure ()

/-- Rename the class entry at `index`, if there is one. -/
def renameClassEntry (index : UInt16) : Edit α Unit := do
  match ← query (·.get? index) with
  | some (.classRef name) => repointText index .classRef Tally.addClass name r.type
  | _ => pure ()

/-- Run `e` for every index of a pool of `slots` slots. -/
def eachIndex (e : UInt16 → Edit α Unit) (slots : Nat) : Edit α Unit := timesFrom e (slots - 1) 1

end Relabel.Edit
