import Mathlib.Data.List.Chain
import Relabel.Proofs.Signature.Grammar
import Relabel.Proofs.Signature.Parse
import Relabel.Signature.Rename

/-!
# Signatures of the grammar

The syntax trees of the grammar are those whose names are identifiers and whose type arguments stand
behind a name and are not empty. They are legible, except that behind a type parameter without
bounds the name of the next one may read like a bound.
-/

namespace Relabel

open Scan Signature

/-! ## Trees of the grammar -/

/-- The name of a class behind the names of its packages. -/
inductive IsQualified : String → Prop
  | simple {name : String} (h : IsIdentifier name) : IsQualified name
  | inPackage {package name : String} (hpackage : IsIdentifier package) (h : IsQualified name) :
      IsQualified (package ++ "/" ++ name)

mutual

def ReferenceType.Grammatical : ReferenceType → Prop
  | .object type => type.Grammatical
  | .variable name => IsIdentifier name
  | .array element => element.Grammatical

def JavaType.Grammatical : JavaType → Prop
  | .base _ => True
  | .reference type => type.Grammatical

def ClassType.Grammatical : ClassType → Prop
  | .of name parts => IsQualified name ∧ GrammaticalParts true parts

/-- Type arguments stand behind a name, and there is at least one. -/
def GrammaticalParts : (behindName : Bool) → List ClassPart → Prop
  | _, [] => True
  | behindName, .arguments arguments :: parts =>
    behindName = true ∧ arguments ≠ [] ∧ GrammaticalArguments arguments ∧
      GrammaticalParts false parts
  | _, .inner name :: parts => IsIdentifier name ∧ GrammaticalParts true parts

def GrammaticalArguments : List TypeArgument → Prop
  | [] => True
  | argument :: arguments => argument.Grammatical ∧ GrammaticalArguments arguments

def TypeArgument.Grammatical : TypeArgument → Prop
  | .any => True
  | .exact type => type.Grammatical
  | .upper type => type.Grammatical
  | .lower type => type.Grammatical

end

theorem grammaticalArguments_iff {arguments : List TypeArgument} :
    GrammaticalArguments arguments ↔ ∀ argument ∈ arguments, argument.Grammatical := by
  induction arguments with
  | nil => simp [GrammaticalArguments]
  | cons argument arguments ih => rw [GrammaticalArguments, ih, List.forall_mem_cons]

structure TypeParameter.Grammatical (p : TypeParameter) : Prop where
  name : IsIdentifier p.name
  classBound : ∀ type ∈ p.classBound, type.Grammatical
  interfaceBounds : ∀ type ∈ p.interfaceBounds, type.Grammatical

def ThrownType.Grammatical : ThrownType → Prop
  | .object type => type.Grammatical
  | .variable name => IsIdentifier name

namespace Signature

/-- The signature is a tree of the grammar for the given shape. -/
def Grammatical : SymbolKind → Signature → Prop
  | .ofClass, .ofClass parameters superclass interfaces =>
    (∀ p ∈ parameters, p.Grammatical) ∧ superclass.Grammatical ∧
      ∀ type ∈ interfaces, type.Grammatical
  | .ofMethod, .ofMethod parameters arguments result thrown =>
    (∀ p ∈ parameters, p.Grammatical) ∧ (∀ type ∈ arguments, type.Grammatical) ∧
      (∀ type ∈ result, type.Grammatical) ∧ ∀ type ∈ thrown, type.Grammatical
  | .ofField, .ofField type => type.Grammatical
  | _, _ => False

def parameters : Signature → List TypeParameter
  | .ofClass parameters _ _ => parameters
  | .ofMethod parameters _ _ _ => parameters
  | .ofField _ => []

/-- Behind a parameter without bounds stands none whose name starts as a bound does. -/
def BoundsShow (s : Signature) : Prop :=
  s.parameters.IsChain fun p q => p.classBound = none → p.interfaceBounds = [] →
    ¬ StartsWith (fun c => c = 'L' || c = 'T') q.name.toList

end Signature

/-! ## Grammatical types are legible -/

theorem Scan.IsName.mono {stop stop' : Char → Bool} {name : String} (hname : IsName stop name)
    (h : ∀ c, stop' c = true → stop c = true) : IsName stop' name where
  nonempty := hname.nonempty
  plain c hc := by
    have hplain := hname.plain c hc
    grind

namespace Signature.IsIdentifier

variable {name : String} (h : IsIdentifier name)
include h

theorem isClassName : IsClassName name :=
  h.mono fun c hc => by grind [endsClassName, isReserved]

theorem isVariable : IsName (· == ';') name := h.mono fun c hc => by grind [isReserved]

theorem isParameter : IsName (· == ':') name := h.mono fun c hc => by grind [isReserved]

end Signature.IsIdentifier

theorem IsQualified.isClassName {name : String} (h : IsQualified name) : IsClassName name := by
  induction h with
  | simple h => exact h.isClassName
  | @inPackage package name hpackage h ih =>
    refine ⟨by simp, fun c hc => ?_⟩
    rw [String.toList_append, String.toList_append, List.mem_append, List.mem_append] at hc
    obtain (hc | hc) | hc := hc
    · exact hpackage.isClassName.plain c hc
    · grind [endsClassName]
    · exact ih.plain c hc

mutual

theorem ReferenceType.Grammatical.legible (type : ReferenceType) (h : type.Grammatical) :
    type.Legible := by
  match type with
  | .object type => exact ClassType.Grammatical.legible type h
  | .variable _ => exact IsIdentifier.isVariable h
  | .array element => exact JavaType.Grammatical.legible element h

theorem JavaType.Grammatical.legible (type : JavaType) (h : type.Grammatical) : type.Legible := by
  match type with
  | .base _ => trivial
  | .reference type => exact ReferenceType.Grammatical.legible type h

theorem ClassType.Grammatical.legible (type : ClassType) (h : type.Grammatical) :
    type.Legible := by
  match type with
  | .of _ parts => exact ⟨h.1.isClassName, legibleParts_of_grammatical parts h.2⟩

theorem legibleParts_of_grammatical {behindName : Bool} (parts : List ClassPart)
    (h : GrammaticalParts behindName parts) : LegibleParts parts := by
  match parts with
  | [] => trivial
  | .arguments arguments :: parts =>
    obtain ⟨-, -, harguments, hparts⟩ := h
    exact ⟨legibleArguments_of_grammatical arguments harguments,
      legibleParts_of_grammatical parts hparts⟩
  | .inner _ :: parts => exact ⟨IsIdentifier.isClassName h.1, legibleParts_of_grammatical parts h.2⟩

theorem legibleArguments_of_grammatical (arguments : List TypeArgument)
    (h : GrammaticalArguments arguments) : LegibleArguments arguments := by
  match arguments with
  | [] => trivial
  | argument :: arguments =>
    exact ⟨TypeArgument.Grammatical.legible argument h.1,
      legibleArguments_of_grammatical arguments h.2⟩

theorem TypeArgument.Grammatical.legible (argument : TypeArgument) (h : argument.Grammatical) :
    argument.Legible := by
  match argument with
  | .any => trivial
  | .exact type | .upper type | .lower type => exact ReferenceType.Grammatical.legible type h

end

theorem ThrownType.Grammatical.legible {type : ThrownType} (h : type.Grammatical) :
    type.Legible := by
  match type with
  | .object type => exact ClassType.Grammatical.legible type h
  | .variable _ => exact IsIdentifier.isVariable h

theorem TypeParameter.Grammatical.legible {p : TypeParameter} (h : p.Grammatical) :
    p.Legible where
  name := h.name.isParameter
  classBound type htype := ReferenceType.Grammatical.legible type (h.classBound type htype)
  interfaceBounds type htype :=
    ReferenceType.Grammatical.legible type (h.interfaceBounds type htype)

/-- An identifier starts with no bracket. -/
theorem not_startsWith_reserved {name : String} (h : IsIdentifier name) {p : Char → Bool}
    (hp : ∀ c, p c = true → isReserved c = true) : ¬ StartsWith p name.toList := by
  rintro ⟨c, hc, hpc⟩
  have hplain := h.plain c (List.mem_of_head? hc)
  grind

/-- Parameters of the grammar are legible as far as their bounds show. -/
theorem legibleParameters_iff {parameters : List TypeParameter}
    (h : ∀ p ∈ parameters, p.Grammatical) :
    LegibleParameters parameters ↔ parameters.IsChain fun p q => p.classBound = none →
      p.interfaceBounds = [] → ¬ StartsWith (fun c => c = 'L' || c = 'T') q.name.toList := by
  have hlegible : ∀ p ∈ parameters, p.Legible := fun p hp => (h p hp).legible
  have hclosing : ∀ p ∈ parameters.tail, ¬ StartsWith (· == '>') p.name.toList := fun p hp =>
    not_startsWith_reserved (h p (List.mem_of_mem_tail hp)).name fun c hc => by grind [isReserved]
  have hstarts : parameters.IsChain (fun p q => p.EndsBefore q.name.toList) ↔ _ :=
    List.IsChain.iff_of_mem_imp (S := fun p q => p.classBound = none →
      p.interfaceBounds = [] → ¬ StartsWith (fun c => c = 'L' || c = 'T') q.name.toList)
      fun p q _ hq => by
    have harray := not_startsWith_reserved (h q hq).name (p := (· == '[')) fun c hc => by
      grind [isReserved]
    have hsame : StartsWith startsType q.name.toList
        ↔ StartsWith (fun c => c = 'L' || c = 'T') q.name.toList := by
      unfold StartsWith startsType at *
      grind
    rw [TypeParameter.EndsBefore, hsame]
  rw [← hstarts]
  exact ⟨fun hparameters => hparameters.2.1, fun hchain => ⟨hlegible, hchain, hclosing⟩⟩

namespace Signature

/-- A signature of the grammar is legible exactly if its bounds show. -/
theorem Grammatical.legible_iff {kind : SymbolKind} {s : Signature} (h : s.Grammatical kind) :
    s.Legible kind ↔ s.BoundsShow := by
  match kind, s with
  | .ofClass, .ofClass parameters superclass interfaces =>
    obtain ⟨hparameters, hsuperclass, hinterfaces⟩ := h
    rw [Legible, legibleParameters_iff hparameters]
    refine and_iff_left ⟨ClassType.Grammatical.legible superclass hsuperclass, ?_⟩
    exact fun type htype => ClassType.Grammatical.legible type (hinterfaces type htype)
  | .ofMethod, .ofMethod parameters arguments result thrown =>
    obtain ⟨hparameters, harguments, hresult, hthrown⟩ := h
    rw [Legible, legibleParameters_iff hparameters]
    refine and_iff_left ⟨?_, ?_, ?_⟩
    · exact fun type htype => JavaType.Grammatical.legible type (harguments type htype)
    · exact fun type htype => JavaType.Grammatical.legible type (hresult type htype)
    · exact fun type htype => (hthrown type htype).legible
  | .ofField, .ofField type =>
    exact iff_of_true (ReferenceType.Grammatical.legible type h) List.isChain_nil

end Signature

end Relabel
