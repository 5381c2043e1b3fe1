import Relabel.Proofs.Descriptor
import Relabel.Proofs.Renaming.Identity
import Relabel.Proofs.Signature.Grammatical

/-!
# Erasure

The erasure of a signature has no type arguments, and it has inner classes under their binary names,
so that of a class or array type is a descriptor. Where the new names of inner classes nest as the
old ones do, the erasure of the renamed signature is the renamed descriptor.
-/

namespace Relabel

open Scan Signature

/-! ## Erasing texts -/

/-- Text that is shown outside type arguments only. -/
def shown (depth : Nat) (text : List Char) : List Char := if depth = 0 then text else []

/-- Erase a text in which `depth` lists of type arguments are open. In a name `>` closes none. -/
def eraseFrom (depth : Nat) (inName : Bool) : List Char → List Char
  | [] => []
  | '<' :: rest => eraseFrom (depth + 1) false rest
  | '.' :: rest => shown depth ['$'] ++ eraseFrom depth true rest
  | ';' :: rest => shown depth [';'] ++ eraseFrom depth false rest
  | c :: rest =>
    if inName then shown depth [c] ++ eraseFrom depth true rest
    else if c = '>' then eraseFrom (depth - 1) false rest
    else shown depth [c] ++ eraseFrom depth (c = 'L' || c = 'T') rest

/-- The text without type arguments, and with inner classes under their binary names. -/
def erase (text : String) : String := String.ofList (eraseFrom 0 false text.toList)

section

variable {depth : Nat} {inName : Bool} {c : Char} {text text' rest : List Char}

@[simp] theorem shown_zero : shown 0 text = text := rfl

@[simp] theorem shown_succ : shown (depth + 1) text = [] := rfl

theorem shown_append : shown depth text ++ shown depth text' = shown depth (text ++ text') := by
  cases depth <;> simp

theorem eraseFrom_open :
    eraseFrom depth inName ('<' :: rest) = eraseFrom (depth + 1) false rest := rfl

theorem eraseFrom_close : eraseFrom (depth + 1) false ('>' :: rest) = eraseFrom depth false rest :=
  rfl

theorem eraseFrom_dot :
    eraseFrom depth inName ('.' :: rest) = shown depth ['$'] ++ eraseFrom depth true rest := rfl

theorem eraseFrom_semicolon :
    eraseFrom depth inName (';' :: rest) = shown depth [';'] ++ eraseFrom depth false rest := rfl

/-- Where a type starts, `L` and `T` start a name. -/
theorem eraseFrom_letter (hc : endsClassName c = false) (hclose : c ≠ '>') :
    eraseFrom depth false (c :: rest)
      = shown depth [c] ++ eraseFrom depth (c = 'L' || c = 'T') rest := by
  simp only [endsClassName, Bool.or_eq_false_iff, beq_eq_false_iff_ne] at hc
  rw [eraseFrom]
  · rw [if_neg Bool.false_ne_true, if_neg hclose]
  all_goals simp [hc]

theorem eraseFrom_chars (h : ∀ c ∈ text, endsClassName c = false) :
    eraseFrom depth true (text ++ rest) = shown depth text ++ eraseFrom depth true rest := by
  induction text with
  | nil => cases depth <;> rfl
  | cons c text ih =>
    obtain ⟨hc, htext⟩ := List.forall_mem_cons.mp h
    simp only [endsClassName, Bool.or_eq_false_iff, beq_eq_false_iff_ne] at hc
    rw [List.cons_append, eraseFrom]
    · rw [if_pos rfl, ih htext, ← List.append_assoc, shown_append, List.singleton_append]
    all_goals simp [hc]

end

/-! ## Erasing trees -/

def ClassPart.erased : ClassPart → List Char
  | .arguments _ => []
  | .inner name => '$' :: name.toList

def ClassType.erased : ClassType → List Char
  | .of name parts => 'L' :: (name.toList ++ (parts.flatMap ClassPart.erased ++ [';']))

mutual

def ReferenceType.erased : ReferenceType → List Char
  | .object type => type.erased
  | .variable name => 'T' :: (name.toList ++ [';'])
  | .array element => '[' :: element.erased

def JavaType.erased : JavaType → List Char
  | .base type => [type.letter]
  | .reference type => type.erased

end

/-- Plain names are renamed to such names. -/
def Renaming.KeepsPlain (r : Renaming) : Prop :=
  ∀ ⦃name : String⦄, IsPlain name → IsPlain (r.className name)

variable {r : Renaming}

theorem BaseType.endsClassName_letter (type : BaseType) : endsClassName type.letter = false := by
  cases type <;> rfl

theorem BaseType.letter_ne (type : BaseType) :
    type.letter ≠ '>' ∧ type.letter ≠ 'L' ∧ type.letter ≠ 'T' := by
  cases type <;> decide

mutual

theorem ReferenceType.eraseFrom_write (hr : r.KeepsPlain) (type : ReferenceType)
    (h : type.Grammatical) (depth : Nat) (tail : List Char) :
    eraseFrom depth false ((type.rename r).write tail)
      = shown depth (type.rename r).erased ++ eraseFrom depth false tail := by
  match type with
  | .object type => exact type.eraseFrom_write hr h depth tail
  | .variable name =>
    have hname : IsPlain name := IsIdentifier.isClassName h |>.plain
    rw [ReferenceType.rename, ReferenceType.write, eraseFrom_letter rfl (by decide)]
    change _ ++ eraseFrom depth true _ = _
    rw [eraseFrom_chars hname, eraseFrom_semicolon]
    simp only [← List.append_assoc, shown_append]
    rfl
  | .array element =>
    rw [ReferenceType.rename, ReferenceType.write, eraseFrom_letter rfl (by decide)]
    change _ ++ eraseFrom depth false _ = _
    rw [element.eraseFrom_write hr h depth tail, ← List.append_assoc, shown_append]
    rfl

theorem JavaType.eraseFrom_write (hr : r.KeepsPlain) (type : JavaType)
    (h : type.Grammatical) (depth : Nat) (tail : List Char) :
    eraseFrom depth false ((type.rename r).write tail)
      = shown depth (type.rename r).erased ++ eraseFrom depth false tail := by
  match type with
  | .base type =>
    obtain ⟨hclose, hL, hT⟩ := type.letter_ne
    rw [JavaType.rename, JavaType.write, eraseFrom_letter type.endsClassName_letter hclose]
    simp [hL, hT, JavaType.erased]
  | .reference type => exact type.eraseFrom_write hr h depth tail

theorem ClassType.eraseFrom_write (hr : r.KeepsPlain) (type : ClassType)
    (h : type.Grammatical) (depth : Nat) (tail : List Char) :
    eraseFrom depth false ((type.rename r).write tail)
      = shown depth (type.rename r).erased ++ eraseFrom depth false tail := by
  match type with
  | .of name parts =>
    have hname : IsPlain name := h.1.isClassName.plain
    rw [ClassType.rename, ClassType.write, eraseFrom_letter rfl (by decide)]
    change _ ++ eraseFrom depth true _ = _
    rw [eraseFrom_chars (hr hname), eraseFrom_writeParts hr parts h.2 hname]
    simp only [← List.append_assoc, shown_append]
    simp [ClassType.erased]

theorem eraseFrom_writeParts (hr : r.KeepsPlain) {behindName : Bool} (parts : List ClassPart)
    (h : GrammaticalParts behindName parts) {old new : String} (hold : IsPlain old)
    {depth : Nat} {inName : Bool} {tail : List Char} :
    eraseFrom depth inName (writeParts (renameParts r old new parts) (';' :: tail))
      = shown depth ((renameParts r old new parts).flatMap ClassPart.erased ++ [';'])
        ++ eraseFrom depth false tail := by
  match parts with
  | [] => rfl
  | .arguments arguments :: parts =>
    obtain ⟨-, -, harguments, hparts⟩ := h
    rw [renameParts, writeParts, ClassPart.write, eraseFrom_open,
      eraseFrom_writeArguments hr arguments harguments, eraseFrom_close,
      eraseFrom_writeParts hr parts hparts hold]
    rfl
  | .inner name :: parts =>
    obtain ⟨hname, hparts⟩ := h
    have hname : IsPlain name := hname.isClassName.plain
    have hbinary : IsPlain (binaryName old name) := isPlain_binaryName.mpr ⟨hold, hname⟩
    rw [renameParts, writeParts, ClassPart.write, eraseFrom_dot,
      eraseFrom_chars (isPlain_innerName (hr hbinary) hname),
      eraseFrom_writeParts hr parts hparts hbinary]
    simp only [← List.append_assoc, shown_append]
    simp [ClassPart.erased]

/-- Nothing is shown of type arguments. -/
theorem eraseFrom_writeArguments (hr : r.KeepsPlain) (arguments : List TypeArgument)
    (h : GrammaticalArguments arguments) {depth : Nat} {tail : List Char} :
    eraseFrom (depth + 1) false (writeArguments (renameArguments r arguments) tail)
      = eraseFrom (depth + 1) false tail := by
  match arguments with
  | [] => rfl
  | argument :: arguments =>
    rw [renameArguments, writeArguments, argument.eraseFrom_write hr h.1,
      eraseFrom_writeArguments hr arguments h.2]

theorem TypeArgument.eraseFrom_write (hr : r.KeepsPlain) (argument : TypeArgument)
    (h : argument.Grammatical) {depth : Nat} {tail : List Char} :
    eraseFrom (depth + 1) false ((argument.rename r).write tail)
      = eraseFrom (depth + 1) false tail := by
  match argument with
  | .any => rfl
  | .exact type => exact type.eraseFrom_write hr h (depth + 1) tail
  | .upper type | .lower type =>
    exact type.eraseFrom_write hr h (depth + 1) tail

end

/-! ## Erasures are descriptors -/

mutual

/-- Classes, and arrays of such or of primitive types, have descriptors. -/
def ReferenceType.IsErasable : ReferenceType → Prop
  | .object _ => True
  | .variable _ => False
  | .array element => element.IsErasable

def JavaType.IsErasable : JavaType → Prop
  | .base _ => True
  | .reference type => type.IsErasable

end

section

variable (r : Renaming)

/-- The new names of the inner classes in `parts` of `outer` nest as the old ones do. -/
def NestsParts : (outer : String) → List ClassPart → Prop
  | _, [] => True
  | outer, .arguments _ :: parts => NestsParts outer parts
  | outer, .inner inner :: parts =>
    (∃ x ≠ "", r.className (binaryName outer inner) = binaryName (r.className outer) x) ∧
      NestsParts (binaryName outer inner) parts

mutual

def ReferenceType.Nests : ReferenceType → Prop
  | .object (.of name parts) => NestsParts r name parts
  | .variable _ => True
  | .array element => element.Nests

def JavaType.Nests : JavaType → Prop
  | .base _ => True
  | .reference type => type.Nests

end

end

/-- Behind the new name of `old`, the erased parts make up the new name of the innermost class. -/
theorem erased_renameParts {old : String} (parts : List ClassPart) (h : NestsParts r old parts) :
    (r.className old).toList
        ++ (renameParts r old (r.className old) parts).flatMap ClassPart.erased
      = (r.className (String.ofList (old.toList ++ parts.flatMap ClassPart.erased))).toList := by
  induction parts generalizing old with
  | nil => simp [renameParts]
  | cons part parts ih =>
    cases part with
    | arguments arguments => simpa [renameParts, ClassPart.erased] using ih h
    | inner inner =>
      obtain ⟨⟨x, hx, hnew⟩, hparts⟩ := h
      have hinner : innerName (r.className old) (r.className (binaryName old inner)) inner = x := by
        rw [hnew, innerName_of_nested hx]
      have hparts := ih hparts
      rw [renameParts, hinner, ← hnew]
      rw [hnew, toList_binaryName, toList_binaryName, ← hnew] at hparts
      simpa [ClassPart.erased] using hparts

theorem isPlain_erased {behindName : Bool} {name : String} (hname : IsPlain name)
    (parts : List ClassPart) (h : GrammaticalParts behindName parts) :
    IsPlain (String.ofList (name.toList ++ parts.flatMap ClassPart.erased)) := by
  induction parts generalizing name behindName with
  | nil => simpa using hname
  | cons part parts ih =>
    cases part with
    | arguments arguments => exact ih hname h.2.2.2
    | inner inner =>
      have hinner := isPlain_binaryName.mpr ⟨hname, h.1.isClassName.plain⟩
      simpa [ClassPart.erased, toList_binaryName] using ih hinner h.2

theorem readText_class {name : String} (parts : List ClassPart) (hname : IsPlain name)
    (hparts : GrammaticalParts true parts) (hnests : NestsParts r name parts) (text : List Char) :
    ∃ d, Descriptor.readText [] text (ClassType.of name parts).erased = some d ∧
      (d.rename r).chars = text.reverse ++ ((ClassType.of name parts).rename r).erased := by
  let binary := name.toList ++ parts.flatMap ClassPart.erased
  have hplain : IsPlain (String.ofList binary) := isPlain_erased hname parts hparts
  have hend : ';' ∉ binary := by
    intro hmem
    rw [IsPlain, String.toList_ofList] at hplain
    exact absurd (hplain ';' hmem) (by decide)
  have herased : (ClassType.of name parts).erased = 'L' :: (binary ++ [';']) := by
    simp [ClassType.erased, binary]
  have hrenamed : ((ClassType.of name parts).rename r).erased
      = 'L' :: ((r.className (String.ofList binary)).toList ++ [';']) := by
    rw [ClassType.rename, ClassType.erased, ← List.append_assoc, erased_renameParts parts hnests]
  refine ⟨⟨[⟨text.reverse, binary⟩], []⟩, ?_, ?_⟩
  · rw [herased, Descriptor.readText, if_pos rfl, Descriptor.readName_append hend,
      Descriptor.readName, if_pos rfl]
    simp [Descriptor.readText]
  · rw [hrenamed]
    simp [Descriptor.rename, Descriptor.chars, Segment.chars]

mutual

/-- The descriptor behind `text`, and what becomes of it. -/
theorem ReferenceType.readText_erased (type : ReferenceType) (h : type.Grammatical)
    (herasable : type.IsErasable) (hnests : type.Nests r) (text : List Char) :
    ∃ d, Descriptor.readText [] text type.erased = some d ∧
      (d.rename r).chars = text.reverse ++ (type.rename r).erased := by
  match type with
  | .object (.of name parts) => exact readText_class parts h.1.isClassName.plain h.2 hnests text
  | .array element =>
    obtain ⟨d, hread, hchars⟩ := element.readText_erased h herasable hnests ('[' :: text)
    refine ⟨d, hread, ?_⟩
    rw [hchars, List.reverse_cons, List.append_assoc]
    rfl

theorem JavaType.readText_erased (type : JavaType) (h : type.Grammatical)
    (herasable : type.IsErasable) (hnests : type.Nests r) (text : List Char) :
    ∃ d, Descriptor.readText [] text type.erased = some d ∧
      (d.rename r).chars = text.reverse ++ (type.rename r).erased := by
  match type with
  | .base type =>
    refine ⟨⟨[], (type.letter :: text).reverse⟩, ?_, ?_⟩
    · rw [JavaType.erased, Descriptor.readText, if_neg type.letter_ne.2.1]
      rfl
    · simp [Descriptor.rename, Descriptor.chars, JavaType.rename, JavaType.erased]
  | .reference type => exact type.readText_erased h herasable hnests text

end

theorem eraseFrom_write_self {type : ReferenceType} (h : type.Grammatical) :
    eraseFrom 0 false (type.write []) = type.erased := by
  have hplain : Renaming.identity.KeepsPlain := fun _ h => h
  have herase := type.eraseFrom_write hplain h 0 []
  rwa [type.rename_self Renaming.isIdentity_identity, eraseFrom, List.append_nil] at herase

/-- The erasure of a renamed class or array type is its renamed erasure. -/
theorem Renaming.erase_signature (hr : r.KeepsPlain) {type : ReferenceType} (h : type.Grammatical)
    (herasable : type.IsErasable) (hnests : type.Nests r) :
    ∃ text', r.signature .ofField (Signature.ofField type).print = .ok text' ∧
      r.descriptor (erase (Signature.ofField type).print) = .ok (erase text') := by
  have hparse : Signature.parse .ofField (Signature.ofField type).print = .ok (.ofField type) :=
    Signature.parse_print (ReferenceType.Grammatical.legible type h)
  have herase : erase (Signature.ofField type).print = String.ofList type.erased := by
    rw [erase, Signature.print, String.toList_ofList, Signature.chars, eraseFrom_write_self h]
  have herase' : erase (Signature.ofField (type.rename r)).print
      = String.ofList (type.rename r).erased := by
    rw [erase, Signature.print, String.toList_ofList, Signature.chars,
      type.eraseFrom_write hr h 0 [], eraseFrom, List.append_nil, shown_zero]
  obtain ⟨d, hread, hchars⟩ := type.readText_erased h herasable hnests []
  have hdescriptor : Descriptor.parse (String.ofList type.erased) = .ok d := by
    rw [Descriptor.parse, String.toList_ofList, Descriptor.ofChars?, hread]
  refine ⟨_, signature_eq_ok_iff.mpr ⟨_, hparse, rfl⟩, ?_⟩
  rw [Signature.rename, herase, herase', Renaming.descriptor, hdescriptor]
  exact congrArg (fun chars => Except.ok (String.ofList chars)) hchars

/-- Renames the class `A` to `B` and its inner class `I` to `J`. -/
def innerRenaming : Renaming :=
  { Renaming.identity with
    className := fun name => if name = "A" then "B" else if name = "A$I" then "B$J" else name }

theorem keepsPlain_innerRenaming : innerRenaming.KeepsPlain := by
  intro name hname
  change IsPlain (ite _ _ (ite _ _ _))
  split
  · decide +kernel
  split
  · decide +kernel
  · exact hname

/-- The type `[LA<LC;>.I<*>;`. -/
def innerArray : ReferenceType :=
  .array (.reference (.object
    (.of "A" [.arguments [.exact (.object (.of "C" []))], .inner "I", .arguments [.any]])))

theorem grammatical_innerArray : innerArray.Grammatical := by
  have hA : IsQualified "A" := .simple (by decide +kernel)
  have hC : IsQualified "C" := .simple (by decide +kernel)
  have hI : IsIdentifier "I" := by decide +kernel
  exact ⟨hA, rfl, nofun, ⟨⟨hC, trivial⟩, trivial⟩, hI, rfl, nofun, ⟨trivial, trivial⟩, trivial⟩

theorem nests_innerArray : innerArray.Nests innerRenaming := by
  have hinner : innerRenaming.className (binaryName "A" "I")
      = binaryName (innerRenaming.className "A") "J" := by decide +kernel
  exact ⟨⟨"J", by decide, hinner⟩, trivial⟩

theorem Renaming.erase_signature_innerArray :
    innerRenaming.KeepsPlain ∧ innerArray.Grammatical ∧ innerArray.IsErasable ∧
      innerArray.Nests innerRenaming ∧
      innerRenaming.signature .ofField "[LA<LC;>.I<*>;" = .ok "[LB<LC;>.J<*>;" ∧
      innerRenaming.descriptor "[LA$I;" = .ok "[LB$J;" := by
  have hplain := keepsPlain_innerRenaming
  have hgrammatical := grammatical_innerArray
  have hnests := nests_innerArray
  obtain ⟨text', hsignature, hdescriptor⟩ :=
    Renaming.erase_signature hplain hgrammatical trivial hnests
  have hprint : (Signature.ofField innerArray).print = "[LA<LC;>.I<*>;" := by decide +kernel
  have herase : erase "[LA<LC;>.I<*>;" = "[LA$I;" := by decide +kernel
  have herase' : erase "[LB<LC;>.J<*>;" = "[LB$J;" := by decide +kernel
  have hnew : innerRenaming.signature .ofField "[LA<LC;>.I<*>;" = .ok "[LB<LC;>.J<*>;" := by
    decide +kernel
  rw [hprint] at hsignature hdescriptor
  obtain rfl := Except.ok.inj (hsignature.symm.trans hnew)
  rw [herase, herase'] at hdescriptor
  exact ⟨hplain, hgrammatical, trivial, hnests, hnew, hdescriptor⟩

end Relabel
