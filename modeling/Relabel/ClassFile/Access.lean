/-!
# Access flags

A class or member carries 16 access bits. Some bits have names; a bit may have two
names, one for fields and one for methods. Bits without a name are kept.
-/

namespace Relabel

/-- A named access bit. -/
structure Flag where
  name : String
  bit : UInt16

namespace Flag

/-- The flags of a class. -/
def ofClass : List Flag :=
  [⟨"PUBLIC", 0x0001⟩, ⟨"FINAL", 0x0010⟩, ⟨"SUPER", 0x0020⟩, ⟨"INTERFACE", 0x0200⟩,
    ⟨"ABSTRACT", 0x0400⟩, ⟨"SYNTHETIC", 0x1000⟩, ⟨"ANNOTATION", 0x2000⟩, ⟨"ENUM", 0x4000⟩,
    ⟨"MODULE", 0x8000⟩]

/-- The flags of a field or a method. -/
def ofMember : List Flag :=
  [⟨"PUBLIC", 0x0001⟩, ⟨"PRIVATE", 0x0002⟩, ⟨"PROTECTED", 0x0004⟩, ⟨"STATIC", 0x0008⟩,
    ⟨"FINAL", 0x0010⟩, ⟨"SYNCHRONIZED", 0x0020⟩, ⟨"VOLATILE", 0x0040⟩, ⟨"BRIDGE", 0x0040⟩,
    ⟨"TRANSIENT", 0x0080⟩, ⟨"VARARGS", 0x0080⟩, ⟨"NATIVE", 0x0100⟩, ⟨"ABSTRACT", 0x0400⟩,
    ⟨"STRICT", 0x0800⟩, ⟨"SYNTHETIC", 0x1000⟩, ⟨"ENUM", 0x4000⟩]

/-- All bits that have a name. -/
def mask (flags : List Flag) : UInt16 := flags.foldl (fun bits flag => bits ||| flag.bit) 0

/-- Whether the bit of `flag` is set in `bits`. -/
def isSet (flag : Flag) (bits : UInt16) : Bool := bits &&& flag.bit == flag.bit

/-- The names of the bits that are set, in the order of the table. -/
def names (flags : List Flag) (bits : UInt16) : List String :=
  (flags.filter (·.isSet bits)).map name

/-- `bits` without the bits that have no name. -/
def known (flags : List Flag) (bits : UInt16) : UInt16 := bits &&& mask flags

/-- Whether all bits that are set have a name. -/
def isStrict (flags : List Flag) (bits : UInt16) : Bool := known flags bits == bits

end Flag

/-- The access bits of a public class with the modern treatment of superclass calls. -/
def publicSuper : UInt16 := 0x0021

end Relabel
