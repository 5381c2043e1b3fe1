/-!
# Configuration

Which names are replaced, and whether a host replaces the names of the table again.
-/

namespace Relabel

/-- What the new name of a symbol is. -/
inductive Mode where
  /-- The name in the table. -/
  | baked
  /-- What the host makes of that name. -/
  | hostDelegated
  deriving DecidableEq

def Mode.label : Mode → String
  | .baked => "baked"
  | .hostDelegated => "host-delegated"

/-- The names that may be replaced: those that start in one of the given ways. -/
structure Scope where
  starts : List String
  deriving DecidableEq

def Scope.covers (s : Scope) (name : String) : Bool := s.starts.any fun start => name.startsWith start

structure Config where
  mode : Mode
  scope : Scope
  /-- The key of the host's function. -/
  channel : String
  sourceDomain : String
  targetDomain : String
  deriving DecidableEq

namespace Config

/-- The names in the table are those in use. -/
def production : Config where
  mode := .baked
  scope := ⟨["net/minecraft", "com/mojang"]⟩
  channel := "srg"
  sourceDomain := "tiny"
  targetDomain := "mcp"

/-- The host has names of its own. -/
def development : Config := { production with mode := .hostDelegated }

end Config

end Relabel
