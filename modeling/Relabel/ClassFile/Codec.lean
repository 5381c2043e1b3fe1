import Relabel.ClassFile.Basic
import Relabel.Pool.Codec

/-!
# The stored form of class files

Reading accepts a byte list that is a class file from its first byte to its last and
whose class, supertypes, members and attributes have names. Writing fails only if a
list or a text is longer than its size field can tell.
-/

namespace Relabel

/-- The 16-bit size of a list that has `count` items. -/
def encodeCount (what : Counted) (count : Nat) : Except Fault (List UInt8) :=
  if count < 65536 then .ok (Word.bytes (UInt16.ofNat count))
  else .error (.malformed (.tooMany what count))

namespace Attribute

def read : Reader Attribute := do
  let name : UInt16 ← Reader.word
  let size : UInt32 ← Reader.word
  return ⟨name, ← Reader.take size.toNat⟩

def encode (a : Attribute) : Except Fault (List UInt8) :=
  let size := a.payload.length
  if size < 4294967296 then
    .ok (Word.bytes a.name ++ Word.bytes (UInt32.ofNat size) ++ a.payload)
  else .error (.malformed (.payloadSize size))

def readList : Reader (Array Attribute) := do
  return (← Reader.counted read).toArray

def encodeList (attributes : Array Attribute) : Except Fault (List UInt8) := do
  let count ← encodeCount .attributes attributes.size
  let items ← attributes.toList.mapM encode
  return count ++ items.flatten

end Attribute

namespace Member

def read : Reader Member := do
  let access : UInt16 ← Reader.word
  let name : UInt16 ← Reader.word
  let descriptor : UInt16 ← Reader.word
  return ⟨access, name, descriptor, ← Attribute.readList⟩

def encode (m : Member) : Except Fault (List UInt8) := do
  let attributes ← Attribute.encodeList m.attributes
  return Word.bytes m.access ++ Word.bytes m.name ++ Word.bytes m.descriptor ++ attributes

def readList : Reader (Array Member) := do
  return (← Reader.counted read).toArray

def encodeList (what : Counted) (members : Array Member) : Except Fault (List UInt8) := do
  let count ← encodeCount what members.size
  let items ← members.toList.mapM encode
  return count ++ items.flatten

end Member

namespace ClassFile

/-- The first four bytes of every class file. -/
def magic : UInt32 := 0xCAFEBABE

/-- The magic number and the two version numbers. -/
def readHeader : Reader (UInt16 × UInt16) := do
  let found : UInt32 ← Reader.word
  if found ≠ magic then throw (.magic found)
  return (← Reader.word, ← Reader.word)

/-- The whole layout, without a look at the names. -/
def readLayout : Reader ClassFile := do
  let (minor, major) ← readHeader
  let pool ← Pool.read
  let access : UInt16 ← Reader.word
  let thisClass : UInt16 ← Reader.word
  let superClass : UInt16 ← Reader.word
  let interfaces : List UInt16 ← Reader.counted Reader.word
  let fields ← Member.readList
  let methods ← Member.readList
  let attributes ← Attribute.readList
  return ⟨minor, major, pool, access, thisClass, superClass, interfaces.toArray, fields, methods,
    attributes⟩

/-- Fails unless every attribute has a name. -/
def checkAttributes (c : ClassFile) (attributes : Array Attribute) : Except Fault Unit :=
  attributes.toList.forM fun a => discard (c.attributeName a)

/-- Fails unless the member and its attributes have names and the member has a descriptor. -/
def checkMember (c : ClassFile) (m : Member) : Except Fault Unit := do
  let _ ← c.memberName m
  let _ ← c.memberDescriptor m
  c.checkAttributes m.attributes

/-- Fails unless everything that has to have a name has one. -/
def check (c : ClassFile) : Except Fault Unit := do
  let _ ← c.name
  let _ ← c.superName
  let _ ← c.interfaceNames
  c.fields.toList.forM c.checkMember
  c.methods.toList.forM c.checkMember
  c.checkAttributes c.attributes

/-- The class file at the start of the input, which has to end with it. -/
def read : Reader ClassFile := do
  let c ← readLayout
  let rest := (← get).remaining
  if rest ≠ 0 then throw (.malformed (.trailingBytes rest))
  match c.check with
  | .ok () => return c
  | .error fault => throw fault

def decode (data : List UInt8) : Except Fault ClassFile := read.run data

/-- The name of the class, read without what follows its index. -/
def readName : Reader String := do
  let _ ← readHeader
  let pool ← Pool.read
  Reader.skip 2
  let thisClass : UInt16 ← Reader.word
  match pool.className thisClass with
  | .ok name => return name
  | .error fault => throw fault

def peekName (data : List UInt8) : Except Fault String := readName.run data

def encode (c : ClassFile) : Except Fault (List UInt8) := do
  let pool ← c.pool.encode
  let interfaceCount ← encodeCount .interfaces c.interfaces.size
  let fields ← Member.encodeList .fields c.fields
  let methods ← Member.encodeList .methods c.methods
  let attributes ← Attribute.encodeList c.attributes
  return Word.bytes magic ++ Word.bytes c.minor ++ Word.bytes c.major ++ pool
    ++ Word.bytes c.access ++ Word.bytes c.thisClass ++ Word.bytes c.superClass
    ++ interfaceCount ++ c.interfaces.toList.flatMap Word.bytes
    ++ fields ++ methods ++ attributes

end ClassFile

end Relabel
