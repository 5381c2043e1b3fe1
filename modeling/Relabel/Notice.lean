import Relabel.Mapping.Fault
import Relabel.Mapping.Record

/-!
# Notices

What is worth telling about work that goes on all the same: a mapping source that is
missing, a line or record that is left out, a signature that stays as it is.
-/

namespace Relabel

/-- The two mapping formats. -/
inductive Mapping.Format where
  | tiny
  | tsrg
  deriving DecidableEq

inductive Notice where
  | noSource (format : Mapping.Format)
  | unreadableSource
  | header
  | line (fault : Mapping.LineFault)
  | orphan (key : Mapping.Key)
  | signatureSize
  | signatureIndex
  | signatureText
  | unnamedFile
  | failedUnit
  deriving DecidableEq

namespace Notice

def level : Notice → String
  | .noSource _ | .unreadableSource | .failedUnit => "ERROR"
  | _ => "WARN"

def message : Notice → String
  | .noSource .tiny => "Tiny mapping file not found!"
  | .noSource .tsrg => "Srg mapping file not found!"
  | .unreadableSource => "Could not open mapping file"
  | .header => "Tiny header does not declare v1, reading as v1 anyway"
  | .line fault => fault.message
  | .orphan key => key.label ++ " wasn't found in the Tiny map"
  | .signatureSize => "Skipping Signature attribute of invalid length"
  | .signatureIndex => "Skipping Signature attribute with invalid index"
  | .signatureText => "Leaving malformed signature unchanged"
  | .unnamedFile => "Skipping class file without a readable name"
  | .failedUnit => "Failed to transform class unit"

/-- The level and the message on one line. -/
def text (n : Notice) : String := n.level ++ " " ++ n.message

end Notice

end Relabel
