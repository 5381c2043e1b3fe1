import Relabel.Bytes.Word
import Relabel.Pool.Basic

/-!
# Class files

A class file is a constant pool, the class and its supertypes as indices into it, the
declared members and attributes. The payload of an attribute is kept as bytes.
-/

namespace Relabel

structure Attribute where
  /-- Index of the name. -/
  name : UInt16
  payload : List UInt8
  deriving DecidableEq

/-- A declared field or method. -/
structure Member where
  access : UInt16
  name : UInt16
  descriptor : UInt16
  attributes : Array Attribute
  deriving DecidableEq

structure ClassFile where
  minor : UInt16
  major : UInt16
  pool : Pool
  access : UInt16
  /-- Index of the class entry of this class. -/
  thisClass : UInt16
  /-- Index of the class entry of the superclass, or 0. -/
  superClass : UInt16
  interfaces : Array UInt16
  fields : Array Member
  methods : Array Member
  attributes : Array Attribute
  deriving BEq

namespace AttributeName

def signature : String := "Signature"
def enclosingMethod : String := "EnclosingMethod"
def code : String := "Code"
def innerClasses : String := "InnerClasses"
def record : String := "Record"
def localVariables : String := "LocalVariableTable"
def localVariableTypes : String := "LocalVariableTypeTable"
def annotationDefault : String := "AnnotationDefault"
def annotations : List String := ["RuntimeVisibleAnnotations", "RuntimeInvisibleAnnotations"]
def parameterAnnotations : List String :=
  ["RuntimeVisibleParameterAnnotations", "RuntimeInvisibleParameterAnnotations"]
def typeAnnotations : List String :=
  ["RuntimeVisibleTypeAnnotations", "RuntimeInvisibleTypeAnnotations"]

end AttributeName

namespace ClassFile

/-- The name of the class. -/
def name (c : ClassFile) : Except Fault String := c.pool.className c.thisClass

/-- The name of the superclass, if there is one. -/
def superName (c : ClassFile) : Except Fault (Option String) :=
  if c.superClass = 0 then .ok none else some <$> c.pool.className c.superClass

def interfaceNames (c : ClassFile) : Except Fault (List String) :=
  c.interfaces.toList.mapM c.pool.className

def attributeName (c : ClassFile) (a : Attribute) : Except Fault String := c.pool.utf8 a.name

def memberName (c : ClassFile) (m : Member) : Except Fault String := c.pool.utf8 m.name

def memberDescriptor (c : ClassFile) (m : Member) : Except Fault String :=
  c.pool.utf8 m.descriptor

/-- The generic signature among `attributes`: that of the first attribute of this name. -/
def signatureAmong (c : ClassFile) : (attributes : List Attribute) → Except Fault (Option String)
  | [] => .ok none
  | a :: rest => do
    if (← c.attributeName a) = AttributeName.signature then
      match a.payload with
      | [high, low] => return some (← c.pool.utf8 (Word.ofBytes [high, low]))
      | payload => throw (.malformed (.signatureSize payload.length))
    else signatureAmong c rest

end ClassFile

end Relabel
