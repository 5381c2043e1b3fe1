/-!
# Generic signatures

The syntax trees of generic signatures and their text. A class type is the name of an
outermost class followed by parts, which are type arguments and names of inner
classes. The printers put the text of a tree in front of a given text.
-/

namespace Relabel

/-- A primitive type. -/
inductive BaseType where
  | byte | char | double | float | int | long | short | boolean
  deriving DecidableEq

namespace BaseType

def letter : BaseType → Char
  | .byte => 'B'
  | .char => 'C'
  | .double => 'D'
  | .float => 'F'
  | .int => 'I'
  | .long => 'J'
  | .short => 'S'
  | .boolean => 'Z'

def ofLetter? (c : Char) : Option BaseType :=
  match c with
  | 'B' => some .byte
  | 'C' => some .char
  | 'D' => some .double
  | 'F' => some .float
  | 'I' => some .int
  | 'J' => some .long
  | 'S' => some .short
  | 'Z' => some .boolean
  | _ => none

@[simp] theorem ofLetter?_letter (b : BaseType) : ofLetter? b.letter = some b := by
  cases b <;> rfl

end BaseType

mutual

/-- A class, type variable or array. -/
inductive ReferenceType where
  | object (type : ClassType)
  | variable (name : String)
  | array (element : JavaType)

/-- A primitive or reference type. -/
inductive JavaType where
  | base (type : BaseType)
  | reference (type : ReferenceType)

/-- A class with its type arguments and inner classes. -/
inductive ClassType where
  | of (name : String) (parts : List ClassPart)

inductive ClassPart where
  | arguments (arguments : List TypeArgument)
  | inner (name : String)

inductive TypeArgument where
  | any
  | exact (type : ReferenceType)
  | upper (type : ReferenceType)
  | lower (type : ReferenceType)

end

/-- A declared type variable with its bounds. -/
structure TypeParameter where
  name : String
  classBound : Option ReferenceType
  interfaceBounds : List ReferenceType

/-- What a method is declared to throw. -/
inductive ThrownType where
  | object (type : ClassType)
  | variable (name : String)

/-- The signature of a class, method or field. -/
inductive Signature where
  | ofClass (parameters : List TypeParameter) (superclass : ClassType)
      (interfaces : List ClassType)
  /-- A method without a result type gives nothing back. -/
  | ofMethod (parameters : List TypeParameter) (arguments : List JavaType)
      (result : Option JavaType) (thrown : List ThrownType)
  | ofField (type : ReferenceType)

/-! ## Text -/

mutual

def ReferenceType.write : ReferenceType → List Char → List Char
  | .object type, tail => type.write tail
  | .variable name, tail => 'T' :: (name.toList ++ ';' :: tail)
  | .array element, tail => '[' :: element.write tail

def JavaType.write : JavaType → List Char → List Char
  | .base type, tail => type.letter :: tail
  | .reference type, tail => type.write tail

def ClassType.write : ClassType → List Char → List Char
  | .of name parts, tail => 'L' :: (name.toList ++ writeParts parts (';' :: tail))

def writeParts : List ClassPart → List Char → List Char
  | [], tail => tail
  | part :: parts, tail => part.write (writeParts parts tail)

def ClassPart.write : ClassPart → List Char → List Char
  | .arguments arguments, tail => '<' :: writeArguments arguments ('>' :: tail)
  | .inner name, tail => '.' :: (name.toList ++ tail)

def writeArguments : List TypeArgument → List Char → List Char
  | [], tail => tail
  | argument :: arguments, tail => argument.write (writeArguments arguments tail)

def TypeArgument.write : TypeArgument → List Char → List Char
  | .any, tail => '*' :: tail
  | .exact type, tail => type.write tail
  | .upper type, tail => '+' :: type.write tail
  | .lower type, tail => '-' :: type.write tail

end

def TypeParameter.write (p : TypeParameter) (tail : List Char) : List Char :=
  let bounds := p.interfaceBounds.foldr (fun type tail => ':' :: type.write tail) tail
  let bounds := match p.classBound with
    | some type => type.write bounds
    | none => bounds
  p.name.toList ++ ':' :: bounds

/-- Type parameters in angle brackets; nothing if there are none. -/
def writeParameters (parameters : List TypeParameter) (tail : List Char) : List Char :=
  if parameters.isEmpty then tail
  else '<' :: parameters.foldr TypeParameter.write ('>' :: tail)

def ThrownType.write : ThrownType → List Char → List Char
  | .object type, tail => '^' :: type.write tail
  | .variable name, tail => '^' :: 'T' :: (name.toList ++ ';' :: tail)

def writeResult : Option JavaType → List Char → List Char
  | some type, tail => type.write tail
  | none, tail => 'V' :: tail

def Signature.chars : Signature → List Char
  | .ofClass parameters superclass interfaces =>
    writeParameters parameters (superclass.write (interfaces.foldr ClassType.write []))
  | .ofMethod parameters arguments result thrown =>
    writeParameters parameters ('(' :: arguments.foldr JavaType.write
      (')' :: writeResult result (thrown.foldr ThrownType.write [])))
  | .ofField type => type.write []

def Signature.print (s : Signature) : String := String.ofList s.chars

end Relabel
