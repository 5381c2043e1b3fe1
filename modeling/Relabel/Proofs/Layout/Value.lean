import Relabel.Proofs.Layout.Format

/-!
# Attribute values

The structured values of the attributes that are walked over, and how they are laid out:
annotations, local variables, records, inner classes and code. Values nest, and the
types say how deep: `levels` counts the nested annotations, element arrays and attribute
tables on a path together.
-/

namespace Relabel.Layout

/-- The tag byte of a letter. -/
def tagByte (letter : Char) : UInt8 := UInt8.ofNat letter.toNat

/-! ## Annotations -/

/-- An annotation type and the values of its elements behind their names. -/
structure Annotated (α : Type) where
  type : UInt16
  elements : List (UInt16 × α)

/-- The value of an annotation element. -/
inductive Element (nested array : Type) where
  /-- A constant of a primitive type or a string. -/
  | const (tag : UInt8) (value : UInt16)
  | enumConst (type name : UInt16)
  | classInfo (type : UInt16)
  | nested (annotated : nested)
  | array (values : array)

/-- Element values that nest at most `levels` deep. -/
def ElementValue : (levels : Nat) → Type
  | 0 => Element Empty Empty
  | levels + 1 => Element (Annotated (ElementValue levels)) (List (ElementValue levels))

namespace Format

variable {α β : Type}

def annotated (value : Format α) : Format (Annotated α) where
  pieces a := .slot (.descriptor a.type) :: value.behindWord.counted.pieces a.elements
  map g a := ⟨g (.descriptor a.type), value.behindWord.counted.map g a.elements⟩
  Fits a := value.behindWord.counted.Fits a.elements
  pieces_map g a := by simp [Piece.map, Slot.withIndex, value.behindWord.counted.pieces_map]
  fits_map g _ h := value.behindWord.counted.fits_map g h

/-- The letters of constants. -/
def constLetters : List Char := ['B', 'C', 'D', 'F', 'I', 'J', 'S', 'Z', 's']

def element (nested : Format α) (array : Format β) : Format (Element α β) where
  pieces
    | .const tag value => [.fixed (Word.bytes tag), .fixed (Word.bytes value)]
    | .enumConst type name =>
      [.fixed (Word.bytes (tagByte 'e')), .slot (.descriptor type), .fixed (Word.bytes name)]
    | .classInfo type => [.fixed (Word.bytes (tagByte 'c')), .slot (.descriptor type)]
    | .nested a => .fixed (Word.bytes (tagByte '@')) :: nested.pieces a
    | .array values => .fixed (Word.bytes (tagByte '[')) :: array.pieces values
  map g
    | .const tag value => .const tag value
    | .enumConst type name => .enumConst (g (.descriptor type)) name
    | .classInfo type => .classInfo (g (.descriptor type))
    | .nested a => .nested (nested.map g a)
    | .array values => .array (array.map g values)
  Fits
    | .const tag _ => Char.ofNat tag.toNat ∈ constLetters
    | .nested a => nested.Fits a
    | .array values => array.Fits values
    | _ => True
  pieces_map g v := by
    cases v <;> simp [Piece.map, Slot.withIndex, nested.pieces_map, array.pieces_map]
  fits_map g v h := by
    cases v with
    | const | enumConst | classInfo => exact h
    | nested a => exact nested.fits_map g h
    | array values => exact array.fits_map g h

def elementValue : (levels : Nat) → Format (ElementValue levels)
  | 0 => element empty empty
  | levels + 1 => element (elementValue levels).annotated (elementValue levels).counted

end Format

/-- What a type annotation is attached to. The tag tells kinds of the same form apart. -/
inductive TypeTarget where
  | typeParameter (tag index : UInt8)
  | supertype (index : UInt16)
  | typeParameterBound (tag parameter bound : UInt8)
  | empty (tag : UInt8)
  | formalParameter (index : UInt8)
  | throws (index : UInt16)
  /-- The ranges of code in which a variable lives: start, length and register. -/
  | localVariable (tag : UInt8) (ranges : List (UInt16 × UInt16 × UInt16))
  | catch (index : UInt16)
  | offset (tag : UInt8) (offset : UInt16)
  | typeArgument (tag : UInt8) (offset : UInt16) (index : UInt8)

namespace TypeTarget

def tag : TypeTarget → UInt8
  | .typeParameter tag _ | .typeParameterBound tag _ _ | .empty tag | .localVariable tag _
  | .offset tag _ | .typeArgument tag _ _ => tag
  | .supertype _ => 0x10
  | .formalParameter _ => 0x16
  | .throws _ => 0x17
  | .catch _ => 0x42

/-- The tag is one of those of the kind, and the ranges can be counted. -/
def Fits : TypeTarget → Prop
  | .typeParameter tag _ => tag.toNat ≤ 0x01
  | .typeParameterBound tag _ _ => 0x11 ≤ tag.toNat ∧ tag.toNat ≤ 0x12
  | .empty tag => 0x13 ≤ tag.toNat ∧ tag.toNat ≤ 0x15
  | .localVariable tag ranges =>
    (tag.toNat = 0x40 ∨ tag.toNat = 0x41) ∧ ranges.length < 65536
  | .offset tag _ => 0x43 ≤ tag.toNat ∧ tag.toNat ≤ 0x46
  | .typeArgument tag _ _ => 0x47 ≤ tag.toNat ∧ tag.toNat ≤ 0x4B
  | _ => True

def rangeBytes (range : UInt16 × UInt16 × UInt16) : List UInt8 :=
  Word.bytes range.1 ++ (Word.bytes range.2.1 ++ Word.bytes range.2.2)

/-- What is told behind the tag. -/
def info : TypeTarget → List Piece
  | .typeParameter _ index => [.fixed (Word.bytes index)]
  | .supertype index | .throws index | .catch index | .offset _ index =>
    [.fixed (Word.bytes index)]
  | .typeParameterBound _ parameter bound => [.fixed (Word.bytes parameter ++ Word.bytes bound)]
  | .empty _ => [.fixed []]
  | .formalParameter index => [.fixed (Word.bytes index)]
  | .localVariable _ ranges =>
    [.fixed (Word.bytes (UInt16.ofNat ranges.length)), .fixed (ranges.flatMap rangeBytes)]
  | .typeArgument _ position index => [.fixed (Word.bytes position ++ Word.bytes index)]

theorem info_map (g : Slot → UInt16) (t : TypeTarget) : t.info.map (Piece.map g) = t.info := by
  cases t <;> rfl

end TypeTarget

/-- An annotation of a part of a type, to which the path of kinds and indices leads. -/
structure AnnotatedType (α : Type) where
  target : TypeTarget
  path : List (UInt8 × UInt8)
  annotated : Annotated α

def stepBytes (step : UInt8 × UInt8) : List UInt8 := Word.bytes step.1 ++ Word.bytes step.2

def Format.annotatedType {α : Type} (value : Format α) : Format (AnnotatedType α) where
  pieces a := .fixed (Word.bytes a.target.tag) :: a.target.info ++
    .fixed (Word.bytes (UInt8.ofNat a.path.length)) :: .fixed (a.path.flatMap stepBytes) ::
      value.annotated.pieces a.annotated
  map g a := { a with annotated := value.annotated.map g a.annotated }
  Fits a := a.target.Fits ∧ a.path.length < 256 ∧ value.annotated.Fits a.annotated
  pieces_map g a := by simp [Piece.map, TypeTarget.info_map, value.annotated.pieces_map]
  fits_map g _ h := ⟨h.1, h.2.1, value.annotated.fits_map g h.2.2⟩

/-! ## Code, variables, records and inner classes -/

/-- The range of code in which a variable lives, its name and type and its register. -/
structure LocalVariable where
  start : UInt16
  length : UInt16
  name : UInt16
  type : UInt16
  register : UInt16

/-- The type of a variable is in a slot of the given sort. -/
def Format.localVariable (slot : UInt16 → Slot)
    (hslot : ∀ i j, (slot i).withIndex j = slot j) : Format LocalVariable where
  pieces v := [.fixed (Word.bytes v.start ++ (Word.bytes v.length ++ Word.bytes v.name)),
    .slot (slot v.type), .fixed (Word.bytes v.register)]
  map g v := { v with type := g (slot v.type) }
  Fits _ := True
  pieces_map g v := by simp [Piece.map, hslot]
  fits_map _ _ h := h

/-- An exception handler: the range of code that it covers, where it starts and what it catches. -/
structure Handler where
  start : UInt16
  stop : UInt16
  target : UInt16
  type : UInt16

def Handler.bytes (h : Handler) : List UInt8 :=
  Word.bytes h.start ++ (Word.bytes h.stop ++ (Word.bytes h.target ++ Word.bytes h.type))

structure Code (α : Type) where
  maxStack : UInt16
  maxLocals : UInt16
  code : List UInt8
  handlers : List Handler
  attributes : α

def Format.code {α : Type} (attributes : Format α) : Format (Code α) where
  pieces c := .fixed (Word.bytes c.maxStack ++ Word.bytes c.maxLocals) ::
    .fixed (Word.bytes (UInt32.ofNat c.code.length)) :: .fixed c.code ::
    .fixed (Word.bytes (UInt16.ofNat c.handlers.length)) ::
    .fixed (c.handlers.flatMap Handler.bytes) :: attributes.pieces c.attributes
  map g c := { c with attributes := attributes.map g c.attributes }
  Fits c := c.code.length < 4294967296 ∧ c.handlers.length < 65536 ∧ attributes.Fits c.attributes
  pieces_map g c := by simp [Piece.map, attributes.pieces_map]
  fits_map g _ h := ⟨h.1, h.2.1, attributes.fits_map g h.2.2⟩

/-- A record component. -/
structure Component (α : Type) where
  name : UInt16
  type : UInt16
  attributes : α

def Format.component {α : Type} (attributes : Format α) : Format (Component α) where
  pieces c := .fixed (Word.bytes c.name) :: .slot (.descriptor c.type) ::
    attributes.pieces c.attributes
  map g c := { c with
    type := g (.descriptor c.type)
    attributes := attributes.map g c.attributes }
  Fits c := attributes.Fits c.attributes
  pieces_map g c := by simp [Piece.map, Slot.withIndex, attributes.pieces_map]
  fits_map g _ h := attributes.fits_map g h

structure InnerClass where
  inner : UInt16
  outer : UInt16
  name : UInt16
  access : UInt16

def Format.innerClass : Format InnerClass where
  pieces c := innerClassPieces c.inner c.outer c.name c.access
  map g c := { c with name := g (.simpleName c.inner c.name) }
  Fits _ := True
  pieces_map g c := by simp [innerClassPieces, Piece.map, Slot.withIndex]
  fits_map _ _ h := h

/-! ## Attributes -/

/-- The content of an attribute, given its element values and the attributes inside it. -/
inductive Content (α β : Type) where
  | signature (index : UInt16)
  | annotations (annotations : List (Annotated α))
  | parameterAnnotations (parameters : List (List (Annotated α)))
  | typeAnnotations (annotations : List (AnnotatedType α))
  | annotationDefault (value : α)
  | code (code : Code β)
  | localVariables (locals : List LocalVariable)
  | localVariableTypes (locals : List LocalVariable)
  | record (components : List (Component β))
  | innerClasses (classes : List InnerClass)
  /-- Nothing that is looked at. -/
  | other

/-- The content has the layout of the attribute `name`. Only a payload of two bytes is a signature,
and other payloads under that name are not looked at. -/
def Content.Suits {α β : Type} (name : String) (trailing : List UInt8) : Content α β → Prop
  | .signature _ => name = AttributeName.signature ∧ trailing = []
  | .annotations _ => name ∈ AttributeName.annotations
  | .parameterAnnotations _ => name ∈ AttributeName.parameterAnnotations
  | .typeAnnotations _ => name ∈ AttributeName.typeAnnotations
  | .annotationDefault _ => name = AttributeName.annotationDefault
  | .code _ => name = AttributeName.code
  | .localVariables _ => name = AttributeName.localVariables
  | .localVariableTypes _ => name = AttributeName.localVariableTypes
  | .record _ => name = AttributeName.record
  | .innerClasses _ => name = AttributeName.innerClasses
  | .other => name ∉ AttributeName.walked ∨ name = AttributeName.signature ∧ trailing.length ≠ 2

namespace Format

variable {α β : Type}

def content (value : Format α) (attributes : Format β) (kind : SymbolKind) :
    Format (Content α β) where
  pieces
    | .signature index => [.slot (.signature kind index)]
    | .annotations as => value.annotated.counted.pieces as
    | .parameterAnnotations ps => (value.annotated.counted.countedBy UInt8).pieces ps
    | .typeAnnotations as => value.annotatedType.counted.pieces as
    | .annotationDefault v => value.pieces v
    | .code c => attributes.code.pieces c
    | .localVariables vs => (localVariable .descriptor fun _ _ => rfl).counted.pieces vs
    | .localVariableTypes vs =>
      (localVariable (.signature .ofField) fun _ _ => rfl).counted.pieces vs
    | .record cs => attributes.component.counted.pieces cs
    | .innerClasses cs => innerClass.counted.pieces cs
    | .other => []
  map g
    | .signature index => .signature (g (.signature kind index))
    | .annotations as => .annotations (value.annotated.counted.map g as)
    | .parameterAnnotations ps =>
      .parameterAnnotations ((value.annotated.counted.countedBy UInt8).map g ps)
    | .typeAnnotations as => .typeAnnotations (value.annotatedType.counted.map g as)
    | .annotationDefault v => .annotationDefault (value.map g v)
    | .code c => .code (attributes.code.map g c)
    | .localVariables vs =>
      .localVariables ((localVariable .descriptor fun _ _ => rfl).counted.map g vs)
    | .localVariableTypes vs =>
      .localVariableTypes ((localVariable (.signature .ofField) fun _ _ => rfl).counted.map g vs)
    | .record cs => .record (attributes.component.counted.map g cs)
    | .innerClasses cs => .innerClasses (innerClass.counted.map g cs)
    | .other => .other
  Fits
    | .signature _ | .other => True
    | .annotations as => value.annotated.counted.Fits as
    | .parameterAnnotations ps => (value.annotated.counted.countedBy UInt8).Fits ps
    | .typeAnnotations as => value.annotatedType.counted.Fits as
    | .annotationDefault v => value.Fits v
    | .code c => attributes.code.Fits c
    | .localVariables vs => (localVariable .descriptor fun _ _ => rfl).counted.Fits vs
    | .localVariableTypes vs =>
      (localVariable (.signature .ofField) fun _ _ => rfl).counted.Fits vs
    | .record cs => attributes.component.counted.Fits cs
    | .innerClasses cs => innerClass.counted.Fits cs
  pieces_map g c := by
    cases c <;> first
      | rfl
      | exact Format.pieces_map _ g _
  fits_map g c h := by
    cases c <;> first
      | trivial
      | exact Format.fits_map _ g h

theorem suits_map {name : String} {trailing : List UInt8} {value : Format α}
    {attributes : Format β} {kind : SymbolKind} (g : Slot → UInt16) {c : Content α β}
    (h : c.Suits name trailing) :
    ((content value attributes kind).map g c).Suits name trailing := by
  cases c <;> exact h

/-- The payload of the attribute `name`: its content and the bytes behind. -/
def attributePayload (value : Format α) (attributes : Format β) (kind : SymbolKind) (name : String) :
    Format (Content α β × List UInt8) where
  pieces := (content value attributes kind).trailed.pieces
  map := (content value attributes kind).trailed.map
  Fits p := (content value attributes kind).Fits p.1 ∧ p.1.Suits name p.2
  pieces_map := (content value attributes kind).trailed.pieces_map
  fits_map g _ h := ⟨(content value attributes kind).fits_map g h.1, suits_map g h.2⟩

end Format

/-- An attribute in a table, under the name that its index leads to. -/
structure Entry (α : Type) where
  index : UInt16
  name : String
  payload : α

/-- The payload has its size in front. -/
def Format.entry {α : Type} (payload : String → Format α) : Format (Entry α) where
  pieces e := .attributeName e.index e.name ::
    .fixed (Word.bytes (UInt32.ofNat (encode ((payload e.name).pieces e.payload)).length)) ::
      (payload e.name).pieces e.payload
  map g e := { e with payload := (payload e.name).map g e.payload }
  Fits e := (encode ((payload e.name).pieces e.payload)).length < 4294967296 ∧
    (payload e.name).Fits e.payload
  pieces_map g e := by simp [Piece.map, (payload e.name).pieces_map, length_encode_map]
  fits_map g e h := by
    refine ⟨?_, (payload e.name).fits_map g h.2⟩
    rw [(payload e.name).pieces_map, length_encode_map]
    exact h.1

/-- Payloads that nest at most `levels` deep. -/
def Payload : (levels : Nat) → Type
  | 0 => Content (ElementValue 0) Empty × List UInt8
  | levels + 1 =>
    Content (ElementValue (levels + 1)) (List (Entry (Payload levels))) × List UInt8

/-- The payload of the attribute `name`. A signature right there is of the given kind. -/
def Format.payload : (levels : Nat) → SymbolKind → (name : String) → Format (Payload levels)
  | 0 => attributePayload (elementValue 0) empty
  | levels + 1 =>
    attributePayload (elementValue (levels + 1)) (entry (payload levels .ofField)).counted

end Relabel.Layout
