import Relabel.Mapping.Record
import Std.Data.HashMap

/-!
# Channels of the host

A host offers namings, which are functions on names, under keys. Registering replaces
the function under the same key.
-/

namespace Relabel

/-- A naming: the new name for each name of a kind. -/
abbrev NamingFunction : Type := SymbolKind → String → String

structure Channels where
  functions : Std.HashMap String NamingFunction

namespace Channels

def empty : Channels := ⟨∅⟩

def get? (c : Channels) (key : String) : Option NamingFunction := c.functions[key]?

def register (c : Channels) (key : String) (f : NamingFunction) : Channels :=
  ⟨c.functions.insert key f⟩

def unregister (c : Channels) (key : String) : Channels := ⟨c.functions.erase key⟩

def contains (c : Channels) (key : String) : Bool := c.functions.contains key

def size (c : Channels) : Nat := c.functions.size

variable (c : Channels) (key key' : String)

theorem get?_empty : empty.get? key = none := Std.HashMap.getElem?_empty

/-- Registering replaces the function under the key and no other one. -/
theorem get?_register (f : NamingFunction) :
    (c.register key f).get? key' = if key' = key then some f else c.get? key' := by
  simp only [get?, register, Std.HashMap.getElem?_insert, beq_iff_eq, eq_comm (a := key)]

theorem get?_unregister :
    (c.unregister key).get? key' = if key' = key then none else c.get? key' := by
  simp only [get?, unregister, Std.HashMap.getElem?_erase, beq_iff_eq, eq_comm (a := key)]

end Channels

end Relabel
