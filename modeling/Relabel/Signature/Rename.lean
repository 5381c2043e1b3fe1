import Relabel.Renaming
import Relabel.Signature.Parser

/-!
# Renaming in generic signatures

The name of an outermost class is replaced by its new name. An inner class is looked up
under its binary name, `Outer$Inner`; the new inner name is what the new binary name
has behind the new outer name and `$`. Where the new names do not nest that way, the
inner name stays.
-/

namespace Relabel

/-- The binary name of an inner class. -/
def binaryName (outer inner : String) : String := outer ++ "$" ++ inner

/-- The inner name in `binary` behind `outer`, or `inner` if there is none. -/
def innerName (outer binary inner : String) : String :=
  match (binaryName outer "").toList.isPrefixOf? binary.toList with
  | some (c :: rest) => String.ofList (c :: rest)
  | _ => inner

section

variable (r : Renaming)

mutual

def ReferenceType.rename : ReferenceType → ReferenceType
  | .object type => .object type.rename
  | .variable name => .variable name
  | .array element => .array element.rename

def JavaType.rename : JavaType → JavaType
  | .base type => .base type
  | .reference type => .reference type.rename

def ClassType.rename : ClassType → ClassType
  | .of name parts => .of (r.className name) (renameParts name (r.className name) parts)

/-- Rename the parts of the class that was `old` and is `new` now. -/
def renameParts (old new : String) : List ClassPart → List ClassPart
  | [] => []
  | .arguments arguments :: parts =>
    .arguments (renameArguments arguments) :: renameParts old new parts
  | .inner name :: parts =>
    let binary := binaryName old name
    let name' := innerName new (r.className binary) name
    .inner name' :: renameParts binary (binaryName new name') parts

def renameArguments : List TypeArgument → List TypeArgument
  | [] => []
  | argument :: arguments => argument.rename :: renameArguments arguments

def TypeArgument.rename : TypeArgument → TypeArgument
  | .any => .any
  | .exact type => .exact type.rename
  | .upper type => .upper type.rename
  | .lower type => .lower type.rename

end

def TypeParameter.rename (p : TypeParameter) : TypeParameter where
  name := p.name
  classBound := p.classBound.map (ReferenceType.rename r)
  interfaceBounds := p.interfaceBounds.map (ReferenceType.rename r)

def ThrownType.rename : ThrownType → ThrownType
  | .object type => .object (type.rename r)
  | .variable name => .variable name

def Signature.rename : Signature → Signature
  | .ofClass parameters superclass interfaces =>
    .ofClass (parameters.map (TypeParameter.rename r)) (superclass.rename r)
      (interfaces.map (ClassType.rename r))
  | .ofMethod parameters arguments result thrown =>
    .ofMethod (parameters.map (TypeParameter.rename r)) (arguments.map (JavaType.rename r))
      (result.map (JavaType.rename r)) (thrown.map (ThrownType.rename r))
  | .ofField type => .ofField (type.rename r)

end

/-! ## The names in a signature -/

mutual

def ReferenceType.names : ReferenceType → List String
  | .object type => type.names
  | .variable _ => []
  | .array element => element.names

def JavaType.names : JavaType → List String
  | .base _ => []
  | .reference type => type.names

def ClassType.names : ClassType → List String
  | .of name parts => name :: namesOfParts name parts

/-- The names in the parts of the class `outer`. -/
def namesOfParts (outer : String) : List ClassPart → List String
  | [] => []
  | .arguments arguments :: parts => namesOfArguments arguments ++ namesOfParts outer parts
  | .inner name :: parts => binaryName outer name :: namesOfParts (binaryName outer name) parts

def namesOfArguments : List TypeArgument → List String
  | [] => []
  | argument :: arguments => argument.names ++ namesOfArguments arguments

def TypeArgument.names : TypeArgument → List String
  | .any => []
  | .exact type => type.names
  | .upper type => type.names
  | .lower type => type.names

end

def TypeParameter.names (p : TypeParameter) : List String :=
  p.classBound.toList.flatMap ReferenceType.names
    ++ p.interfaceBounds.flatMap ReferenceType.names

def ThrownType.names : ThrownType → List String
  | .object type => type.names
  | .variable _ => []

/-- The binary names of all classes, from left to right. -/
def Signature.names : Signature → List String
  | .ofClass parameters superclass interfaces =>
    parameters.flatMap TypeParameter.names ++ superclass.names
      ++ interfaces.flatMap ClassType.names
  | .ofMethod parameters arguments result thrown =>
    parameters.flatMap TypeParameter.names ++ arguments.flatMap JavaType.names
      ++ result.toList.flatMap JavaType.names ++ thrown.flatMap ThrownType.names
  | .ofField type => type.names

/-- The signature `text` under the new class names. -/
def Renaming.signature (r : Renaming) (kind : SymbolKind) (text : String) :
    Except Flaw String := do
  return ((← Signature.parse kind text).rename r).print

end Relabel
