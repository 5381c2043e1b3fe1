import Relabel.Mapping.Tiny
import Relabel.Mapping.Tsrg

/-!
# Readings line by line

The records of a reading are those that its lines give, in order. A Tiny line gives its
record whatever stands around it, and a TSRG line depends on the lines before it by the
class that it stands in alone. Line numbers only reach the notices.
-/

namespace Relabel.Mapping

/-- The class that a member belongs to. -/
def Key.owner? : Key → Option String
  | .ofClass _ => none
  | .ofMethod owner _ _ | .ofField owner _ => some owner

/-- The record that reading a line gave. -/
def recordOf : Except LineFlaw (Option Record) → Option Record
  | .ok record => record
  | .error _ => none

theorem records_add (number : Nat) (result : Except LineFlaw (Option Record))
    (reading : Reading) : (reading.add number result).records.toList
      = reading.records.toList ++ (recordOf result).toList := by
  obtain ⟨records, notices⟩ := reading
  obtain _ | _ | record := result <;> simp [Reading.add, recordOf]

theorem texts_numbered (texts : List (Except LineFlaw String)) :
    (numbered texts).map (·.text) = texts := by
  have hmap : (numbered texts).map (·.text) = (texts.zipIdx 1).map Prod.fst := by
    rw [numbered, List.map_map]
    rfl
  rw [hmap, List.zipIdx_map_fst]

theorem texts_lines (s : Source) :
    s.lines.map (·.text) = (Text.byteLines s.text).map s.readLine :=
  texts_numbered _

namespace Tiny

theorem records_foldl (lines : List Line) (reading : Reading) :
    (lines.foldl addLine reading).records.toList = reading.records.toList
      ++ (lines.map (·.text)).filterMap fun text => recordOf (text >>= readLine) := by
  induction lines generalizing reading with
  | nil => simp
  | cons line lines ih =>
    rw [List.foldl_cons, ih, addLine, records_add, List.map_cons, List.filterMap_cons]
    cases recordOf (line.text >>= readLine) <;> simp

end Tiny

namespace Tsrg

/-- Read a line that may be no text in the class `owner`. -/
def readText (owner : Option String) :
    Except LineFlaw String → Option String × Except LineFlaw (Option Record)
  | .ok text => readLine owner text
  | .error flaw => (owner, .error flaw)

/-- The class that the line behind the given ones stands in. -/
def classBehind (owner : Option String) (texts : List (Except LineFlaw String)) : Option String :=
  texts.foldl (fun owner text => (readText owner text).1) owner

/-- The records that lines give one after the other. -/
def recordsFrom (owner : Option String) : List (Except LineFlaw String) → List Record
  | [] => []
  | text :: texts =>
    (recordOf (readText owner text).2).toList ++ recordsFrom (readText owner text).1 texts

theorem addLine_eq (owner : Option String) (reading : Reading) (line : Line) :
    addLine (owner, reading) line = ((readText owner line.text).1,
      reading.add line.number (readText owner line.text).2) := by
  obtain ⟨number, _ | text⟩ := line <;> rfl

theorem recordsFrom_append (owner : Option String) (texts more : List (Except LineFlaw String)) :
    recordsFrom owner (texts ++ more)
      = recordsFrom owner texts ++ recordsFrom (classBehind owner texts) more := by
  induction texts generalizing owner with
  | nil => rfl
  | cons text texts ih =>
    rw [List.cons_append, recordsFrom, recordsFrom, ih, List.append_assoc]
    rfl

theorem records_foldl (lines : List Line) (owner : Option String) (reading : Reading) :
    (lines.foldl addLine (owner, reading)).2.records.toList
      = reading.records.toList ++ recordsFrom owner (lines.map (·.text)) := by
  induction lines generalizing owner reading with
  | nil => simp [recordsFrom]
  | cons line lines ih =>
    rw [List.foldl_cons, addLine_eq, ih, records_add, List.map_cons, recordsFrom,
      List.append_assoc]

theorem records_read (lines : List Line) :
    (read lines).records.toList = recordsFrom none (lines.map (·.text)) :=
  records_foldl lines none .empty

end Tsrg

end Relabel.Mapping
