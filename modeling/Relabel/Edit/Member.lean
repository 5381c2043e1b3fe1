import Relabel.Edit.Payload
import Relabel.Edit.Reference

/-!
# Renaming attributes and members

The payloads of attributes are renamed in place. A declared member is renamed as a
member of the class under its old name; constructors and initializers, whose names
start with `<`, keep their names.
-/

namespace Relabel.Edit

variable (r : Renaming)

/-- Rename the names in an attribute. -/
def renameAttribute (kind : SymbolKind) : Edit Attribute Unit := do
  let name ← look (·.utf8 (← item).name)
  inside (fun a => Tape.start a.payload) (fun t a => { a with payload := t.bytes })
    (Walk.payload r maxNesting kind name)

/-- The name and descriptor of the method in an `EnclosingMethod` payload. A method index of 0
stands for no method. -/
def enclosingMethodPayload : Walk := do
  let size := (← item).ahead.length
  if size ≠ 4 then throw (.malformed (.enclosingMethodSize size))
  let owner : UInt16 ← Walk.word
  let method : UInt16 ← Walk.word
  if method ≠ 0 then
    let ownerName ← look (·.className owner)
    let (name, descriptor) ← look (·.nameAndType method)
    let name' := r.methodName ownerName name descriptor
    if let some method ← renamedPair? r name descriptor name' then
      Walk.amend 0 method
      count Tally.addEnclosingMethod

/-- Rename the method in an attribute, if it is an `EnclosingMethod` attribute. -/
def renameEnclosingMethod : Edit Attribute Unit := do
  if (← look (·.utf8 (← item).name)) = AttributeName.enclosingMethod then
    inside (fun a => Tape.start a.payload) (fun t a => { a with payload := t.bytes })
      (enclosingMethodPayload r)

/-- The new name of a member that is declared in `owner`. -/
def declaredName (kind : SymbolKind) (owner name descriptor : String) : String :=
  match kind with
  | .ofField => r.fieldName owner name descriptor
  | _ => if name.startsWith "<" then name else r.methodName owner name descriptor

/-- Rename a member of the class `owner`. -/
def renameMember (kind : SymbolKind) (owner : String) : Edit Member Unit := do
  let m ← item
  let name ← look (·.utf8 m.name)
  let descriptor ← look (·.utf8 m.descriptor)
  let name' := declaredName r kind owner name descriptor
  let descriptor' ← ofFlaw (r.descriptor descriptor)
  renameText (fun index m => { m with name := index }) name name'
  renameText (fun index m => { m with descriptor := index }) descriptor descriptor'
  if name' ≠ name ∨ descriptor' ≠ descriptor then count Tally.addMember
  inside (·.attributes) (fun attributes m => { m with attributes })
    (each (renameAttribute r kind))

end Relabel.Edit
