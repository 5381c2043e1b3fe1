import Relabel.Pool.Constant
import Relabel.Text.Hexadecimal
import Relabel.Text.Utf8

/-!
# Faults

What can go wrong while a class file is read, edited or written. A fault is a
cause; its wording is given once, by `message`.
-/

namespace Relabel

/-- Why a text is no generic signature. Positions count bytes of the UTF-8 form. -/
inductive SignatureFlaw where
  | trailing (position : Nat)
  | unexpectedEnd
  | expected (wanted : Char) (position : Nat) (found : Char)
  | emptyIdentifier (position : Nat)
  | unexpected (position : Nat) (found : Char)
  deriving DecidableEq

/-- What an index of the constant pool has to lead to. -/
inductive Role where
  | name
  | classRef
  | nameAndType
  | memberRef
  deriving DecidableEq

/-- The parts of a class file that are counted in 16 bits. -/
inductive Counted where
  | interfaces
  | fields
  | methods
  | attributes
  deriving DecidableEq

/-- A defect in the content of a class file or of a name. -/
inductive Flaw where
  | overlong (position : Nat)
  | leadByte (byte : UInt8) (position : Nat)
  | continuationByte (byte : UInt8) (position : Nat)
  | truncatedText
  | unpairedSurrogate
  | plainText (cause : Text.Utf8.IllFormed)
  | noPoolCount
  | constantTag (tag : UInt8) (offset : Nat)
  | wideOverrun (index : Nat)
  | longText (size : Nat)
  | poolIndex (index : UInt16) (slots : Nat)
  | widthChange (index : UInt16)
  | wrongRole (index : UInt16) (role : Role) (found : Variant)
  | trailingBytes (count : Nat)
  | tooMany (what : Counted) (count : Nat)
  | payloadSize (size : Nat)
  | signatureSize (size : Nat)
  | enclosingMethodSize (size : Nat)
  | elementTag (tag : UInt8)
  | annotationTarget (tag : UInt8)
  | nesting
  | unterminatedType (descriptor : String)
  | signature (text : String) (cause : SignatureFlaw)
  deriving DecidableEq

/-- Deepest nesting of annotations, element arrays and attribute tables. -/
def maxNesting : Nat := 256

/-- A failure of reading, editing or writing a class file. -/
inductive Fault where
  /-- The bytes end before the read does. -/
  | outOfBounds
  | magic (found : UInt32)
  /-- The pool would need this many slots. -/
  | poolOverflow (slots : Nat)
  | malformed (flaw : Flaw)
  deriving DecidableEq

/-- The wording of a flaw in the signature `text`. -/
def SignatureFlaw.message (text : String) : SignatureFlaw → String
  | .trailing position => s!"Trailing characters at {position} in signature '{text}'"
  | .unexpectedEnd => s!"Unexpected end of signature '{text}'"
  | .expected wanted position found =>
    s!"Expected '{wanted}' at {position} in signature '{text}', found '{found}'"
  | .emptyIdentifier position => s!"Empty identifier at {position} in signature '{text}'"
  | .unexpected position found => s!"Unexpected '{found}' at {position} in signature '{text}'"

def Role.phrase : Role → String
  | .name => "a Utf8 name"
  | .classRef => "a Class"
  | .nameAndType => "a NameAndType"
  | .memberRef => "a member reference"

def Counted.phrase : Counted → String
  | .interfaces => "interfaces"
  | .fields => "fields"
  | .methods => "methods"
  | .attributes => "attributes"

/-- A byte as a two-digit hexadecimal number. -/
def byteText (b : UInt8) : String := "0x" ++ Text.hexadecimal 2 b.toNat

def Flaw.message : Flaw → String
  | .overlong position => s!"Overlong modified UTF-8 sequence at {position}"
  | .leadByte byte position => s!"Invalid modified UTF-8 lead byte {byteText byte} at {position}"
  | .continuationByte byte position =>
    s!"Invalid modified UTF-8 continuation byte {byteText byte} at {position}"
  | .truncatedText => "Truncated modified UTF-8 sequence"
  | .unpairedSurrogate => "Unpaired surrogate in modified UTF-8"
  | .plainText cause => s!"Invalid modified UTF-8 - {cause.message}"
  | .noPoolCount => "Constant pool count must be at least 1"
  | .constantTag tag offset => s!"Invalid constant pool tag {tag} at offset {offset}"
  | .wideOverrun index => s!"8-byte constant at index {index} overruns the pool"
  | .longText size => s!"Utf8 constant of {size} bytes exceeds 65535"
  | .poolIndex index slots => s!"Invalid constant pool index {index} (pool has {slots} slots)"
  | .widthChange index => s!"Cannot replace constant {index} with one of a different width"
  | .wrongRole index role found => s!"Constant {index} is not {role.phrase} - {found.name}"
  | .trailingBytes count => s!"{count} trailing bytes after class file end"
  | .tooMany what count => s!"Too many {what.phrase} - {count}"
  | .payloadSize size => s!"Attribute payload of {size} bytes"
  | .signatureSize size => s!"Signature attribute of {size} bytes"
  | .enclosingMethodSize size => s!"EnclosingMethod attribute of {size} bytes"
  | .elementTag tag => s!"Unknown element value tag {byteText tag}"
  | .annotationTarget tag => s!"Unknown type annotation target {byteText tag}"
  | .nesting => s!"Attribute nesting exceeds {maxNesting} levels"
  | .unterminatedType descriptor => s!"Unterminated object type in descriptor '{descriptor}'"
  | .signature text cause => cause.message text

def Fault.message : Fault → String
  | .outOfBounds => "Out of Bound read would have occurred!"
  | .magic found => "Invalid class file magic - 0x" ++ Text.hexadecimal 8 found.toNat
  | .poolOverflow slots => s!"Constant pool overflow - {slots} entries"
  | .malformed flaw => flaw.message

end Relabel
