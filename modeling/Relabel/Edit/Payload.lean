import Relabel.ClassFile.Basic
import Relabel.Edit.Slot

/-!
# Layouts of attribute payloads

Walks over the payloads that hold names: annotations, local variables, records, inner
classes and the attributes inside code. Annotations, element arrays and attribute
tables nest at most `maxNesting` levels deep, counted together. Bytes behind the
layout of a payload are not looked at.
-/

namespace Relabel.Walk

variable (r : Renaming)

/-- The level below the deepest. -/
def tooDeep : Walk := throw (.malformed .nesting)

/-- A descriptor and then named values, each of which is passed by `value`. -/
def annotated (value : Walk) : Walk := do
  descriptorSlot r
  counted do
    skip 2
    value

/-- A value of an annotation element, given how to pass an annotation and an array. -/
def element (nested array : Walk) : Walk := do
  let tag : UInt8 ← word
  match Char.ofNat tag.toNat with
  | 'B' | 'C' | 'D' | 'F' | 'I' | 'J' | 'S' | 'Z' | 's' => skip 2
  | 'e' =>
    descriptorSlot r
    skip 2
  | 'c' => descriptorSlot r
  | '@' => nested
  | '[' => array
  | _ => throw (.malformed (.elementTag tag))

/-- A value that nests at most `levels` deep. -/
def elementValue : (levels : Nat) → Walk
  | 0 => element r tooDeep tooDeep
  | levels + 1 =>
    element r (annotated r (elementValue levels)) (counted (elementValue levels))

def annotations (levels : Nat) : Walk := counted (annotated r (elementValue r levels))

/-- An 8-bit count of parameters and then the annotations of each. -/
def parameterAnnotations (levels : Nat) : Walk := do
  let n : UInt8 ← word
  Edit.times n.toNat (annotations r levels)

/-- The size of what a type annotation tells about its target. -/
def targetSize (tag : UInt8) : Edit Tape Nat := do
  let n := tag.toNat
  if 0x13 ≤ n && n ≤ 0x15 then return 0
  else if n ≤ 0x01 || n = 0x16 then return 1
  else if (0x10 ≤ n && n ≤ 0x12) || n = 0x17 || (0x42 ≤ n && n ≤ 0x46) then return 2
  else if 0x47 ≤ n && n ≤ 0x4B then return 3
  else if n = 0x40 || n = 0x41 then
    let ranges : UInt16 ← word
    return ranges.toNat * 6
  else throw (.malformed (.annotationTarget tag))

/-- A target, a path into the type and an annotation. -/
def annotatedType (levels : Nat) : Walk := do
  let tag : UInt8 ← word
  skip (← targetSize tag)
  let path : UInt8 ← word
  skip (path.toNat * 2)
  annotated r (elementValue r levels)

/-- A table of attributes, whose payloads are passed by `payload` under their names. -/
def table (payload : String → Walk) : Walk :=
  counted do
    let index : UInt16 ← word
    let size : UInt32 ← word
    within size.toNat do
      payload (← Edit.look (·.utf8 index))

/-- Code, its exception ranges and its attributes. -/
def code (attributes : Walk) : Walk := do
  skip 4
  let size : UInt32 ← word
  skip size.toNat
  let handlers : UInt16 ← word
  skip (handlers.toNat * 8)
  attributes

/-- Local variables, whose types are passed by `slot`. -/
def localVariables (slot : Walk) : Walk :=
  counted do
    skip 6
    slot
    skip 2

/-- The components of a record with their attributes. -/
def record (attributes : Walk) : Walk :=
  counted do
    skip 2
    descriptorSlot r
    attributes

/-- A payload that should be one signature slot. Any other payload stays, with a notice. -/
def signature (kind : SymbolKind) : Walk := do
  match (← Edit.item).ahead with
  | [high, low] =>
    match ← Edit.query (·.utf8 (Word.ofBytes [high, low])) with
    | .ok _ => signatureSlot r kind
    | .error _ => Edit.note .signatureIndex
  | _ => Edit.note .signatureSize

/-- The payload of the attribute `name`, given how to pass the attributes inside it. A signature
right there is of the given kind. -/
def layout (levels : Nat) (attributes : Walk) (kind : SymbolKind) (name : String) : Walk :=
  if name = AttributeName.signature then signature r kind
  else if AttributeName.annotations.contains name then annotations r levels
  else if AttributeName.parameterAnnotations.contains name then parameterAnnotations r levels
  else if AttributeName.typeAnnotations.contains name then counted (annotatedType r levels)
  else if name = AttributeName.annotationDefault then elementValue r levels
  else if name = AttributeName.code then code attributes
  else if name = AttributeName.localVariables then localVariables (descriptorSlot r)
  else if name = AttributeName.localVariableTypes then localVariables (signatureSlot r .ofField)
  else if name = AttributeName.record then record r attributes
  else if name = AttributeName.innerClasses then counted (innerClass r)
  else pure ()

/-- The payload of the attribute `name`, which nests at most `levels` deep. -/
def payload : (levels : Nat) → SymbolKind → (name : String) → Walk
  | 0 => layout r 0 tooDeep
  | levels + 1 => layout r (levels + 1) (table (payload levels .ofField))

end Relabel.Walk
