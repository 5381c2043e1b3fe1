import Relabel.Bytes.Reader
import Relabel.Pool.Basic
import Relabel.Text.ModifiedUtf8

/-!
# The stored form of constants and pools

A constant is a tag byte and its operands. A pool is the number of its slots and then
its constants; the second slot of a wide constant and slot 0 are not stored.
-/

namespace Relabel

namespace RefKind

def tag : RefKind → UInt8
  | .field => 9
  | .method => 10
  | .interfaceMethod => 11

end RefKind

namespace Constant

/-- The constant that text bytes stand for: text if they are well formed. -/
def ofTextBytes (bytes : List UInt8) : Constant :=
  match Text.ModifiedUtf8.decode bytes with
  | .ok text => .utf8 text
  | .error _ => .rawUtf8 bytes

/-- Read the operands of a constant with the given tag. -/
def readOperands (tag : UInt8) : Reader Constant :=
  match tag.toNat with
  | 1 => do
    let size : UInt16 ← Reader.word
    return ofTextBytes (← Reader.take size.toNat)
  | 3 => return .integer (← Reader.word)
  | 4 => return .float (← Reader.word)
  | 5 => return .long (← Reader.word)
  | 6 => return .double (← Reader.word)
  | 7 => return .classRef (← Reader.word)
  | 8 => return .string (← Reader.word)
  | 9 => return .memberRef .field (← Reader.word) (← Reader.word)
  | 10 => return .memberRef .method (← Reader.word) (← Reader.word)
  | 11 => return .memberRef .interfaceMethod (← Reader.word) (← Reader.word)
  | 12 => return .nameAndType (← Reader.word) (← Reader.word)
  | 15 => return .methodHandle (← Reader.word) (← Reader.word)
  | 16 => return .methodType (← Reader.word)
  | 17 => return .dynamic (← Reader.word) (← Reader.word)
  | 18 => return .invokeDynamic (← Reader.word) (← Reader.word)
  | 19 => return .module (← Reader.word)
  | 20 => return .package (← Reader.word)
  | _ => do
    throw (.malformed (.constantTag tag ((← get).position - 1)))

def read : Reader Constant := do
  let tag : UInt8 ← Reader.word
  readOperands tag

/-- Text bytes with their tag and size. -/
def encodeText (bytes : List UInt8) : Except Fault (List UInt8) :=
  let size := bytes.length
  if size < 65536 then .ok (1 :: Word.bytes (UInt16.ofNat size) ++ bytes)
  else .error (.malformed (.longText size))

def encode : Constant → Except Fault (List UInt8)
  | .unusable => .ok []
  | .utf8 text => encodeText (Text.ModifiedUtf8.encode text)
  | .rawUtf8 bytes => encodeText bytes
  | .integer value => .ok (3 :: Word.bytes value)
  | .float bits => .ok (4 :: Word.bytes bits)
  | .long value => .ok (5 :: Word.bytes value)
  | .double bits => .ok (6 :: Word.bytes bits)
  | .classRef name => .ok (7 :: Word.bytes name)
  | .string text => .ok (8 :: Word.bytes text)
  | .memberRef kind owner member =>
    .ok (kind.tag :: Word.bytes owner ++ Word.bytes member)
  | .nameAndType name descriptor => .ok (12 :: Word.bytes name ++ Word.bytes descriptor)
  | .methodHandle kind reference => .ok (15 :: Word.bytes kind ++ Word.bytes reference)
  | .methodType descriptor => .ok (16 :: Word.bytes descriptor)
  | .dynamic bootstrap member => .ok (17 :: Word.bytes bootstrap ++ Word.bytes member)
  | .invokeDynamic bootstrap member => .ok (18 :: Word.bytes bootstrap ++ Word.bytes member)
  | .module name => .ok (19 :: Word.bytes name)
  | .package name => .ok (20 :: Word.bytes name)

end Constant

namespace Pool

/-- Read constants behind `p` until `left` more slots are taken. -/
def readFrom : (left : Nat) → (p : Pool) → Reader Pool
  | 0, p => pure p
  | left + 1, p => do
    let c ← Constant.read
    if c.isWide then
      match left with
      | 0 => throw (.malformed (.wideOverrun p.slots))
      | left + 1 => readFrom left (p.append c)
    else readFrom left (p.append c)

def read : Reader Pool := do
  let count : UInt16 ← Reader.word
  if count = 0 then throw (.malformed .noPoolCount)
  readFrom (count.toNat - 1) empty

def encode (p : Pool) : Except Fault (List UInt8) := do
  let constants ← p.entries.toList.mapM Constant.encode
  return Word.bytes p.count ++ constants.flatten

end Pool

/-- A text behind its 16-bit size. A text that is not well formed is read past all the same. -/
def Reader.text : Reader String := do
  let size : UInt16 ← word
  let bytes ← take size.toNat
  match Text.ModifiedUtf8.decode bytes with
  | .ok text => return text
  | .error flaw => throw (.malformed flaw)

end Relabel
