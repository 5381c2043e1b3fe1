import Relabel.Fault

/-!
# Reports on batches

A batch of class files gives one outcome for each unit, in order, and the number of
outcomes of each kind.
-/

namespace Relabel

/-- A unit that should be renamed but could not. -/
structure UnitFault where
  unit : String
  cause : Fault
  deriving DecidableEq

inductive Outcome where
  | renamed (bytes : List UInt8)
  /-- The unit is no target. -/
  | skipped
  | failed (fault : UnitFault)
  deriving DecidableEq

structure Report where
  outcomes : Array (String × Outcome)
  renamed : Nat
  skipped : Nat
  failed : Nat
  deriving DecidableEq

namespace Report

def empty : Report := ⟨#[], 0, 0, 0⟩

/-- Add the outcome of the next unit. -/
def record (report : Report) (name : String) (outcome : Outcome) : Report :=
  match report with
  | ⟨outcomes, renamed, skipped, failed⟩ =>
    let outcomes := outcomes.push (name, outcome)
    match outcome with
    | .renamed _ => ⟨outcomes, renamed + 1, skipped, failed⟩
    | .skipped => ⟨outcomes, renamed, skipped + 1, failed⟩
    | .failed _ => ⟨outcomes, renamed, skipped, failed + 1⟩

/-- Whether no unit failed. -/
def isComplete (report : Report) : Bool := report.failed == 0

/-- The outcome of the first unit of this name. -/
def outcome? (report : Report) (name : String) : Option Outcome :=
  (report.outcomes.find? (·.1 == name)).map (·.2)

/-- The units that failed, with their faults. -/
def failures (report : Report) : List (String × UnitFault) :=
  report.outcomes.toList.filterMap fun (name, outcome) =>
    match outcome with
    | .failed fault => some (name, fault)
    | _ => none

/-- The renamed units with their new bytes. -/
def renamedUnits (report : Report) : List (String × List UInt8) :=
  report.outcomes.toList.filterMap fun (name, outcome) =>
    match outcome with
    | .renamed bytes => some (name, bytes)
    | _ => none

end Report

end Relabel
