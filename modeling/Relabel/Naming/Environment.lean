import Relabel.Edit.ClassFile
import Relabel.Mapping.Join
import Relabel.Mapping.Tiny
import Relabel.Mapping.Tsrg
import Relabel.Naming.Channels
import Relabel.Naming.Config

/-!
# Environments

An environment finds new names in its table and, if its mode says so, by the host's
function under the configured key. As a renaming it leaves names outside its scope
alone, and members whose owner is outside. The host may change its channels at any
time, so they are given along with each question.
-/

namespace Relabel

/-- Where mapping records come from. -/
inductive Origin where
  | absent
  | unreadable
  | source (source : Mapping.Source)

namespace Origin

/-- The source, if it can be read. -/
def source? : Origin → Option Mapping.Source
  | .source s => some s
  | _ => none

def notices : Origin → Array Notice
  | .unreadable => #[.unreadableSource]
  | _ => #[]

end Origin

structure Environment where
  config : Config
  table : Mapping.Table
  /-- Whether the host offers channels at all. -/
  attached : Bool

namespace Environment

/-- The name and the version under which hosts know the naming. -/
def serviceName : String := "tinytosrg"
def serviceVersion : String := "1"

/-- The environment over the join of two record lists. -/
def ofRecords (config : Config) (attached : Bool) (intermediate final : Array Mapping.Record) :
    Environment × Array Notice :=
  let (table, notices) := Mapping.Table.join intermediate final
  (⟨config, table, attached⟩, notices)

/-- The environment over a Tiny and a TSRG source. A source that is not there has no records. -/
def load (config : Config) (attached : Bool) (intermediate final : Origin) :
    Environment × Array Notice :=
  let tiny := Mapping.Tiny.load intermediate.source?
  let tsrg := Mapping.Tsrg.load final.source?
  let (environment, notices) := ofRecords config attached tiny.records tsrg.records
  (environment,
    intermediate.notices ++ final.notices ++ tiny.notices ++ tsrg.notices ++ notices)

/-- The function that the host offers under the configured key. -/
def delegate? (e : Environment) (channels : Channels) : Option NamingFunction :=
  if e.attached then channels.get? e.config.channel else none

/-- The new name of a symbol, which is its name if nothing else is known. -/
def newName (e : Environment) (channels : Channels) (kind : SymbolKind) (name : String) :
    String :=
  let candidate := (e.table.get? kind name).getD name
  match e.config.mode with
  | .baked => candidate
  | .hostDelegated =>
    match e.delegate? channels with
    | some f => f kind candidate
    | none => candidate

/-- The new name of a symbol of the class `owner`, which the scope has to cover. -/
def newNameIn (e : Environment) (channels : Channels) (kind : SymbolKind)
    (owner name : String) : String :=
  if e.config.scope.covers owner then e.newName channels kind name else name

def toRenaming (e : Environment) (channels : Channels) : Renaming where
  className name := e.newNameIn channels .ofClass name name
  methodName owner name _ := e.newNameIn channels .ofMethod owner name
  fieldName owner name _ := e.newNameIn channels .ofField owner name
  dynamicName name _ := name
  packageName name := name
  moduleName name := name

/-- Rename a class file in its stored form. The notices are there even if that fails. -/
def renameBytes (e : Environment) (channels : Channels) (data : List UInt8) :
    Except Fault (List UInt8) × Array Notice :=
  match ClassFile.decode data with
  | .error fault => (.error fault, #[])
  | .ok c =>
    let renamed := c.rename (e.toRenaming channels)
    (renamed.encode, renamed.notices)

end Environment

end Relabel
