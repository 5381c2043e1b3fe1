/-!
# Constants of a class file

A constant pool entry is one of the kinds below. Entries refer to each other by
their index in the pool. Numbers that stand for floating point values are kept as
raw bits, and text whose bytes are no modified UTF-8 is kept as those bytes.
-/

namespace Relabel

/-- The three flavours of a reference to a member. -/
inductive RefKind where
  | field
  | method
  | interfaceMethod
  deriving DecidableEq, Hashable

/-- One entry of a constant pool. -/
inductive Constant where
  /-- Slot 0, and the second slot of a wide constant. -/
  | unusable
  | utf8 (text : String)
  /-- Text that is not well formed; it never serves as a name. -/
  | rawUtf8 (bytes : List UInt8)
  | integer (value : Int32)
  | float (bits : UInt32)
  | long (value : Int64)
  | double (bits : UInt64)
  | classRef (name : UInt16)
  | string (text : UInt16)
  | memberRef (kind : RefKind) (owner : UInt16) (member : UInt16)
  | nameAndType (name : UInt16) (descriptor : UInt16)
  | methodHandle (kind : UInt8) (reference : UInt16)
  | methodType (descriptor : UInt16)
  | dynamic (bootstrap : UInt16) (member : UInt16)
  | invokeDynamic (bootstrap : UInt16) (member : UInt16)
  | module (name : UInt16)
  | package (name : UInt16)
  deriving DecidableEq, Hashable

/-- The kind of a constant, without its content. -/
inductive Variant where
  | unusable | utf8 | rawUtf8 | integer | float | long | double | classRef | string
  | memberRef | nameAndType | methodHandle | methodType | dynamic | invokeDynamic
  | module | package
  deriving DecidableEq

def Variant.name : Variant → String
  | .unusable => "Unusable"
  | .utf8 => "Utf8"
  | .rawUtf8 => "RawUtf8"
  | .integer => "Integer"
  | .float => "Float"
  | .long => "Long"
  | .double => "Double"
  | .classRef => "Class"
  | .string => "String"
  | .memberRef => "MemberRef"
  | .nameAndType => "NameAndType"
  | .methodHandle => "MethodHandle"
  | .methodType => "MethodType"
  | .dynamic => "Dynamic"
  | .invokeDynamic => "InvokeDynamic"
  | .module => "Module"
  | .package => "Package"

namespace Constant

def variant : Constant → Variant
  | .unusable => .unusable
  | .utf8 _ => .utf8
  | .rawUtf8 _ => .rawUtf8
  | .integer _ => .integer
  | .float _ => .float
  | .long _ => .long
  | .double _ => .double
  | .classRef _ => .classRef
  | .string _ => .string
  | .memberRef .. => .memberRef
  | .nameAndType .. => .nameAndType
  | .methodHandle .. => .methodHandle
  | .methodType _ => .methodType
  | .dynamic .. => .dynamic
  | .invokeDynamic .. => .invokeDynamic
  | .module _ => .module
  | .package _ => .package

/-- Eight-byte constants take two slots. -/
def isWide : Constant → Bool
  | .long _ | .double _ => true
  | _ => false

/-- Number of slots a constant takes. -/
def width (c : Constant) : Nat := if c.isWide then 2 else 1

/-- Whether interning looks for an equal entry before it adds this one. -/
def isShared : Constant → Bool
  | .utf8 _ | .classRef _ | .nameAndType .. | .memberRef .. => true
  | _ => false

theorem width_pos (c : Constant) : 0 < c.width := by unfold width; split <;> omega

end Constant

end Relabel
