import Relabel.Batch.Report
import Relabel.Batch.Targets
import Relabel.Naming.Environment

/-!
# Renaming units and batches

A unit is a class file under the name by which its host knows it. Units that are no
targets are passed over; a unit that fails has no effect on the others of its batch.
-/

namespace Relabel.Environment

/-- Rename one unit, unless it is no target. -/
def renameUnit (e : Environment) (targets : Targets) (channels : Channels) (name : String)
    (data : List UInt8) : Except UnitFault (Option (List UInt8)) × Array Notice :=
  if targets.contains name then
    match e.renameBytes channels data with
    | (.ok bytes, notices) => (.ok (some bytes), notices)
    | (.error cause, notices) => (.error ⟨name, cause⟩, notices)
  else (.ok none, #[])

/-- The outcome of one unit of a batch, with a notice if it fails. -/
def outcome (e : Environment) (targets : Targets) (channels : Channels) (name : String)
    (data : List UInt8) : Outcome × Array Notice :=
  match e.renameUnit targets channels name data with
  | (.ok (some bytes), notices) => (.renamed bytes, notices)
  | (.ok none, notices) => (.skipped, notices)
  | (.error fault, notices) => (.failed fault, notices.push .failedUnit)

/-- Add the outcome of a unit to a report. -/
def addUnit (e : Environment) (targets : Targets) (channels : Channels)
    (state : Report × Array Notice) (unit : String × List UInt8) : Report × Array Notice :=
  match state with
  | (report, notices) =>
    let (outcome, more) := e.outcome targets channels unit.1 unit.2
    (report.record unit.1 outcome, notices ++ more)

/-- Rename all units of a batch. -/
def renameBatch (e : Environment) (targets : Targets) (channels : Channels)
    (units : List (String × List UInt8)) : Report × Array Notice :=
  units.foldl (e.addUnit targets channels) (.empty, #[])

end Relabel.Environment
