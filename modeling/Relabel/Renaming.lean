/-!
# Renamings

A renaming gives the new name of each symbol. Members are named together with their
owner and descriptor, all under their old names. A name that does not change is its
own new name.
-/

namespace Relabel

structure Renaming where
  /-- The new name of a class, which is no array. -/
  className : (name : String) → String
  /-- The new name of a method that is declared in `owner` or called on it. -/
  methodName : (owner name descriptor : String) → String
  /-- The new name of a field that is declared in `owner` or used on it. -/
  fieldName : (owner name descriptor : String) → String
  /-- The new name of a dynamic call site or constant. -/
  dynamicName : (name descriptor : String) → String
  packageName : (name : String) → String
  moduleName : (name : String) → String

namespace Renaming

/-- The renaming that changes nothing. -/
def identity : Renaming where
  className name := name
  methodName _ name _ := name
  fieldName _ name _ := name
  dynamicName name _ := name
  packageName name := name
  moduleName name := name

end Renaming

end Relabel
