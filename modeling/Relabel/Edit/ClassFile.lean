import Relabel.ClassFile.Codec
import Relabel.Edit.Member

/-!
# Renaming class files

A class file is renamed in five passes: references, fields, methods, attributes and
class entries. Class entries come last, since all other names are looked up under the
old class names. The pool grows at its end only, so every index stays valid.
-/

namespace Relabel

/-- The members and attributes of a class file, which a renaming edits beside the pool. -/
structure Declarations where
  fields : Array Member
  methods : Array Member
  attributes : Array Attribute

namespace Edit

variable (r : Renaming)

/-- Rename the entries and declarations of the class `name`, whose pool has `slots` slots. -/
def renameAll (name : String) (slots : Nat) : Edit Declarations Unit := do
  eachIndex (renameReference r) slots
  inside (·.fields) (fun fields d => { d with fields }) (each (renameMember r .ofField name))
  inside (·.methods) (fun methods d => { d with methods }) (each (renameMember r .ofMethod name))
  inside (·.attributes) (fun attributes d => { d with attributes }) do
    each (renameEnclosingMethod r)
    each (renameAttribute r .ofClass)
  eachIndex (renameClassEntry r) slots

end Edit

/-- A class file after a renaming. With a fault it is what the renaming left. -/
structure Renamed where
  file : ClassFile
  tally : Tally
  notices : Array Notice
  fault : Option Fault

/-- Rename a class file. -/
def ClassFile.rename (r : Renaming) : ClassFile → Renamed
  | ⟨minor, major, pool, access, thisClass, superClass, interfaces, fields, methods, attributes⟩ =>
    let finish (f : Focus Declarations) (fault : Option Fault) : Renamed :=
      ⟨⟨minor, major, f.pool, access, thisClass, superClass, interfaces, f.item.fields,
        f.item.methods, f.item.attributes⟩, f.tally, f.notices, fault⟩
    let d : Declarations := ⟨fields, methods, attributes⟩
    match pool.className thisClass with
    | .error fault => finish ⟨d, pool, {}, #[]⟩ fault
    | .ok name =>
      let slots := pool.slots
      match Edit.renameAll r name slots ⟨d, pool, {}, #[]⟩ with
      | .ok _ f => finish f none
      | .error fault f => finish f fault

namespace Renamed

/-- The class file, unless the renaming failed. -/
def result (c : Renamed) : Except Fault ClassFile :=
  match c.fault with
  | none => .ok c.file
  | some fault => .error fault

/-- The stored form of the class file, unless the renaming or the encoding fails. -/
def encode (c : Renamed) : Except Fault (List UInt8) := do (← c.result).encode

end Renamed

end Relabel
