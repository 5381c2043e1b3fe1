import Relabel.Symbol

/-!
# Mapping records

A mapping file lists symbols under their pivot names, which all files share, with a
name for each symbol. A record is one such line: the key of the symbol and its name.
-/

namespace Relabel

namespace Mapping

/-- What a symbol is called in the pivot naming. A field is known by its owner and name alone. -/
inductive Key where
  | ofClass (name : String)
  | ofMethod (owner name descriptor : String)
  | ofField (owner name : String)
  deriving DecidableEq, Hashable

namespace Key

def kind : Key → SymbolKind
  | .ofClass _ => .ofClass
  | .ofMethod .. => .ofMethod
  | .ofField .. => .ofField

def label : Key → String
  | .ofClass name => name
  | .ofMethod owner name descriptor => owner ++ "." ++ name ++ descriptor
  | .ofField owner name => owner ++ "." ++ name

/-- The pivot name of the symbol itself. -/
def name : Key → String
  | .ofClass name | .ofMethod _ name _ | .ofField _ name => name

end Key

/-- A symbol and its name in the naming of the file. -/
structure Record where
  key : Key
  name : String
  deriving DecidableEq

def Record.kind (r : Record) : SymbolKind := r.key.kind

end Mapping

end Relabel
