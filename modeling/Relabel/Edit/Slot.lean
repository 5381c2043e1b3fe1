import Relabel.Descriptor
import Relabel.Edit.Tape
import Relabel.Signature.Rename

/-!
# Name slots

A slot is a word in a payload that is the pool index of a descriptor, a signature or a
simple name. A walk over a slot puts in the index of the renamed text, if the text
changes, and passes it.
-/

namespace Relabel.Walk

variable (r : Renaming)

/-- Pass a descriptor slot. -/
def descriptorSlot : Walk := do
  let index : UInt16 ← word
  let text ← Edit.look (·.utf8 index)
  let text' ← Edit.ofFlaw (r.descriptor text)
  if text' ≠ text then
    amend 0 (← Edit.onPool (Pool.internUtf8 text'))
    Edit.count Tally.addAttribute

/-- Pass a signature slot. A text that is no signature stays. -/
def signatureSlot (kind : SymbolKind) : Walk := do
  let index : UInt16 ← word
  let text ← Edit.look (·.utf8 index)
  match r.signature kind text with
  | .ok text' =>
    if text' ≠ text then
      amend 0 (← Edit.onPool (Pool.internUtf8 text'))
      Edit.count Tally.addSignature
  | .error _ => Edit.note .signatureText

/-- The characters behind the last `mark`, if there is one. -/
def afterLast? (mark : Char) (chars : List Char) : Option (List Char) :=
  if chars.contains mark then some (chars.reverse.takeWhile (· != mark)).reverse else none

/-- The new simple name of an inner class. It changes only if the last part of the binary name
does; then it is what stands behind the last `$` and any digits there. -/
def newSimpleName? (old new simple : String) : Option String :=
  if new = old then none
  else
    match afterLast? '/' old.toList, afterLast? '/' new.toList with
    | some a, some b => if a = b then none else tail
    | _, _ => tail
where
  tail : Option String := do
    let behind ← afterLast? '$' new.toList
    let name := String.ofList (behind.dropWhile Char.isDigit)
    if name.isEmpty || name == simple then none else some name

/-- Pass an inner class: its index, its outer class, its simple name and its access bits. -/
def innerClass : Walk := do
  let index : UInt16 ← word
  skip 2
  let slot : UInt16 ← word
  skip 2
  if index ≠ 0 && slot ≠ 0 then
    let old ← Edit.look (·.className index)
    let simple ← Edit.look (·.utf8 slot)
    match newSimpleName? old (r.className old) simple with
    | some name =>
      amend 2 (← Edit.onPool (Pool.internUtf8 name))
      Edit.count Tally.addAttribute
    | none => pure ()

end Relabel.Walk
