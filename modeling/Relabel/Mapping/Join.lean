import Relabel.Notice
import Std.Data.HashMap

/-!
# The name table

Joining two record lists on their keys gives a table from the names in the first list,
which are called intermediate, to those in the second, which are final. Of several
records with one key or intermediate name the last one counts.
-/

namespace Relabel.Mapping

/-- How many records a join read and matched. -/
structure JoinStats where
  intermediate : Nat := 0
  final : Nat := 0
  joined : Nat := 0
  /-- Final records without an intermediate record of the same key. -/
  orphaned : Nat := 0
  deriving DecidableEq

/-- From names to names, for each kind of symbol. -/
structure Table where
  classes : Std.HashMap String String
  methods : Std.HashMap String String
  fields : Std.HashMap String String
  stats : JoinStats

namespace Table

def empty : Table := ⟨∅, ∅, ∅, {}⟩

/-- All entries of one kind. -/
def entries (t : Table) : SymbolKind → Std.HashMap String String
  | .ofClass => t.classes
  | .ofMethod => t.methods
  | .ofField => t.fields

def get? (t : Table) (kind : SymbolKind) (name : String) : Option String := (t.entries kind)[name]?

def size (t : Table) (kind : SymbolKind) : Nat := (t.entries kind).size

def isEmpty (t : Table) : Bool := t.classes.isEmpty && t.methods.isEmpty && t.fields.isEmpty

def insert (kind : SymbolKind) (name final : String) : Table → Table
  | ⟨classes, methods, fields, stats⟩ =>
    match kind with
    | .ofClass => ⟨classes.insert name final, methods, fields, stats⟩
    | .ofMethod => ⟨classes, methods.insert name final, fields, stats⟩
    | .ofField => ⟨classes, methods, fields.insert name final, stats⟩

def countJoined (t : Table) : Table :=
  { t with stats := { t.stats with joined := t.stats.joined + 1 } }

def countOrphan (t : Table) : Table :=
  { t with stats := { t.stats with orphaned := t.stats.orphaned + 1 } }

/-- The table of the given entries. Its statistics are zero. -/
def ofList (entries : List (SymbolKind × String × String)) : Table :=
  entries.foldl (fun t (kind, name, final) => t.insert kind name final) empty

/-- The name of the last record of each key. -/
def namesByKey (records : Array Record) : Std.HashMap Key String :=
  records.foldl (fun names record => names.insert record.key record.name) ∅

/-- Add the entry of a final record, or a notice if its key is unknown. -/
def joinRecord (names : Std.HashMap Key String) (state : Table × Array Notice) (record : Record) :
    Table × Array Notice :=
  match state with
  | (t, notices) =>
    match names[record.key]? with
    | some name => ((t.insert record.kind name record.name).countJoined, notices)
    | none => (t.countOrphan, notices.push (.orphan record.key))

/-- The table from the names in `intermediate` to the names in `final`. -/
def join (intermediate final : Array Record) : Table × Array Notice :=
  let start : Table := ⟨∅, ∅, ∅, { intermediate := intermediate.size, final := final.size }⟩
  final.foldl (joinRecord (namesByKey intermediate)) (start, #[])

end Table

end Relabel.Mapping
