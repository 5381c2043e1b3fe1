import Relabel.ClassFile.Codec
import Relabel.Notice
import Std.Data.TreeSet

/-!
# Targets

The names of the classes to rename. A name may be written with dots or slashes between
its parts; it is kept and looked up with slashes.
-/

namespace Relabel

structure Targets where
  names : Std.TreeSet String

namespace Targets

/-- A class name with slashes between its parts. -/
def internalName (name : String) : String := name.map fun c => if c = '.' then '/' else c

def empty : Targets := ⟨∅⟩

def contains (t : Targets) (name : String) : Bool := t.names.contains (internalName name)

def insert (t : Targets) (name : String) : Targets := ⟨t.names.insert (internalName name)⟩

def ofNames (names : List String) : Targets := names.foldl insert empty

/-- Add the class of a class file, or a notice if it has no readable name. -/
def addFile (state : Targets × Array Notice) (data : List UInt8) : Targets × Array Notice :=
  match state with
  | (t, notices) =>
    match ClassFile.peekName data with
    | .ok name => (t.insert name, notices)
    | .error _ => (t, notices.push .unnamedFile)

/-- The classes of the given class files. -/
def ofFiles (files : List (List UInt8)) : Targets × Array Notice := files.foldl addFile (empty, #[])

def size (t : Targets) : Nat := t.names.size

def isEmpty (t : Targets) : Bool := t.names.isEmpty

/-- The names in ascending order. -/
def toList (t : Targets) : List String := t.names.toList

end Targets

end Relabel
