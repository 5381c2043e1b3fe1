/-!
# Kinds of symbols

Classes, methods and fields. Names of one kind never stand for symbols of another, and
each kind has generic signatures of its own shape.
-/

namespace Relabel

inductive SymbolKind where
  | ofClass
  | ofMethod
  | ofField
  deriving DecidableEq, Hashable

def SymbolKind.label : SymbolKind → String
  | .ofClass => "Class"
  | .ofMethod => "Method"
  | .ofField => "Field"

end Relabel
