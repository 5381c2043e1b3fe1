import Relabel.Proofs.Signature.Grammatical
import Relabel.Proofs.Signature.Rename

/-!
# The image of a signature

What becomes of a signature under a renaming, as a relation of trees: the name of an outermost class
becomes its new name, and the name of an inner class what its new binary name has behind the new
name of the class around it, if that is anything. All else stays. The trees of the grammar whose
bounds show are renamed to their image.
-/

namespace Relabel

open Scan

/-! ## Images -/

section

variable (r : Renaming)

mutual

inductive ReferenceType.RenamedTo : ReferenceType → ReferenceType → Prop
  | object {type type' : ClassType} (h : type.RenamedTo type') :
      ReferenceType.RenamedTo (.object type) (.object type')
  | variable (name : String) : ReferenceType.RenamedTo (.variable name) (.variable name)
  | array {element element' : JavaType} (h : element.RenamedTo element') :
      ReferenceType.RenamedTo (.array element) (.array element')

inductive JavaType.RenamedTo : JavaType → JavaType → Prop
  | base (type : BaseType) : JavaType.RenamedTo (.base type) (.base type)
  | reference {type type' : ReferenceType} (h : type.RenamedTo type') :
      JavaType.RenamedTo (.reference type) (.reference type')

inductive ClassType.RenamedTo : ClassType → ClassType → Prop
  | of {name : String} {parts parts' : List ClassPart}
      (h : PartsRenamedTo name (r.className name) parts parts') :
      ClassType.RenamedTo (.of name parts) (.of (r.className name) parts')

/-- The parts of the class that was `old` and is `new` now. -/
inductive PartsRenamedTo : (old new : String) → List ClassPart → List ClassPart → Prop
  | nil (old new : String) : PartsRenamedTo old new [] []
  | arguments {old new : String} {arguments arguments' : List TypeArgument}
      {parts parts' : List ClassPart} (harguments : ArgumentsRenamedTo arguments arguments')
      (hparts : PartsRenamedTo old new parts parts') :
      PartsRenamedTo old new (.arguments arguments :: parts) (.arguments arguments' :: parts')
  | nested {old new inner x : String} {parts parts' : List ClassPart} (hx : x ≠ "")
      (hinner : r.className (binaryName old inner) = binaryName new x)
      (hparts : PartsRenamedTo (binaryName old inner) (binaryName new x) parts parts') :
      PartsRenamedTo old new (.inner inner :: parts) (.inner x :: parts')
  | kept {old new inner : String} {parts parts' : List ClassPart}
      (hinner : ∀ x ≠ "", r.className (binaryName old inner) ≠ binaryName new x)
      (hparts : PartsRenamedTo (binaryName old inner) (binaryName new inner) parts parts') :
      PartsRenamedTo old new (.inner inner :: parts) (.inner inner :: parts')

inductive ArgumentsRenamedTo : List TypeArgument → List TypeArgument → Prop
  | nil : ArgumentsRenamedTo [] []
  | cons {argument argument' : TypeArgument} {arguments arguments' : List TypeArgument}
      (hargument : argument.RenamedTo argument')
      (harguments : ArgumentsRenamedTo arguments arguments') :
      ArgumentsRenamedTo (argument :: arguments) (argument' :: arguments')

inductive TypeArgument.RenamedTo : TypeArgument → TypeArgument → Prop
  | any : TypeArgument.RenamedTo .any .any
  | exact {type type' : ReferenceType} (h : type.RenamedTo type') :
      TypeArgument.RenamedTo (.exact type) (.exact type')
  | upper {type type' : ReferenceType} (h : type.RenamedTo type') :
      TypeArgument.RenamedTo (.upper type) (.upper type')
  | lower {type type' : ReferenceType} (h : type.RenamedTo type') :
      TypeArgument.RenamedTo (.lower type) (.lower type')

end

structure TypeParameter.RenamedTo (p p' : TypeParameter) : Prop where
  name : p'.name = p.name
  classBound : Option.Rel (ReferenceType.RenamedTo r) p.classBound p'.classBound
  interfaceBounds : List.Forall₂ (ReferenceType.RenamedTo r) p.interfaceBounds p'.interfaceBounds

inductive ThrownType.RenamedTo : ThrownType → ThrownType → Prop
  | object {type type' : ClassType} (h : type.RenamedTo r type') :
      ThrownType.RenamedTo (.object type) (.object type')
  | variable (name : String) : ThrownType.RenamedTo (.variable name) (.variable name)

inductive Signature.RenamedTo : Signature → Signature → Prop
  | ofClass {parameters parameters' : List TypeParameter} {superclass superclass' : ClassType}
      {interfaces interfaces' : List ClassType}
      (hparameters : List.Forall₂ (TypeParameter.RenamedTo r) parameters parameters')
      (hsuperclass : superclass.RenamedTo r superclass')
      (hinterfaces : List.Forall₂ (ClassType.RenamedTo r) interfaces interfaces') :
      Signature.RenamedTo (.ofClass parameters superclass interfaces)
        (.ofClass parameters' superclass' interfaces')
  | ofMethod {parameters parameters' : List TypeParameter} {arguments arguments' : List JavaType}
      {result result' : Option JavaType} {thrown thrown' : List ThrownType}
      (hparameters : List.Forall₂ (TypeParameter.RenamedTo r) parameters parameters')
      (harguments : List.Forall₂ (JavaType.RenamedTo r) arguments arguments')
      (hresult : Option.Rel (JavaType.RenamedTo r) result result')
      (hthrown : List.Forall₂ (ThrownType.RenamedTo r) thrown thrown') :
      Signature.RenamedTo (.ofMethod parameters arguments result thrown)
        (.ofMethod parameters' arguments' result' thrown')
  | ofField {type type' : ReferenceType} (h : type.RenamedTo r type') :
      Signature.RenamedTo (.ofField type) (.ofField type')

end

/-! ## A tree has one image -/

variable {r : Renaming}

mutual

theorem ReferenceType.renamedTo_iff (type : ReferenceType) {type' : ReferenceType} :
    type.RenamedTo r type' ↔ type' = type.rename r := by
  match type with
  | .object type =>
    constructor
    · rintro (h | _)
      rw [type.renamedTo_iff.mp h, ReferenceType.rename]
    · rintro rfl
      exact .object (type.renamedTo_iff.mpr rfl)
  | .variable name =>
    constructor
    · rintro ⟨⟩
      rfl
    · rintro rfl
      exact .variable name
  | .array element =>
    constructor
    · rintro (_ | _ | h)
      rw [element.renamedTo_iff.mp h, ReferenceType.rename]
    · rintro rfl
      exact .array (element.renamedTo_iff.mpr rfl)

theorem JavaType.renamedTo_iff (type : JavaType) {type' : JavaType} :
    type.RenamedTo r type' ↔ type' = type.rename r := by
  match type with
  | .base type =>
    constructor
    · rintro ⟨⟩
      rfl
    · rintro rfl
      exact .base type
  | .reference type =>
    constructor
    · rintro (_ | h)
      rw [type.renamedTo_iff.mp h, JavaType.rename]
    · rintro rfl
      exact .reference (type.renamedTo_iff.mpr rfl)

theorem ClassType.renamedTo_iff (type : ClassType) {type' : ClassType} :
    type.RenamedTo r type' ↔ type' = type.rename r := by
  match type with
  | .of name parts =>
    constructor
    · rintro ⟨h⟩
      rw [partsRenamedTo_iff parts |>.mp h, ClassType.rename]
    · rintro rfl
      exact .of (partsRenamedTo_iff parts |>.mpr rfl)

theorem partsRenamedTo_iff (parts : List ClassPart) {old new : String} {parts' : List ClassPart} :
    PartsRenamedTo r old new parts parts' ↔ parts' = renameParts r old new parts := by
  match parts with
  | [] =>
    constructor
    · rintro ⟨⟩
      rfl
    · rintro rfl
      exact .nil old new
  | .arguments arguments :: parts =>
    constructor
    · rintro (_ | ⟨harguments, hparts⟩)
      rw [argumentsRenamedTo_iff arguments |>.mp harguments, partsRenamedTo_iff parts |>.mp hparts,
        renameParts]
    · rintro rfl
      exact .arguments (argumentsRenamedTo_iff arguments |>.mpr rfl)
        (partsRenamedTo_iff parts |>.mpr rfl)
  | .inner inner :: parts =>
    constructor
    · rintro (_ | _ | ⟨hx, hinner, hparts⟩ | ⟨hinner, hparts⟩)
      · rw [partsRenamedTo_iff parts |>.mp hparts, renameParts, hinner, innerName_of_nested hx]
      · rw [partsRenamedTo_iff parts |>.mp hparts, renameParts, innerName_of_not_nested hinner]
    · rintro rfl
      rw [renameParts]
      obtain ⟨x, hx, hinner, h⟩ | ⟨hinner, h⟩ :=
        innerName_cases new (r.className (binaryName old inner)) inner
      · rw [h]
        exact .nested hx hinner (partsRenamedTo_iff parts |>.mpr rfl)
      · rw [h]
        exact .kept hinner (partsRenamedTo_iff parts |>.mpr rfl)

theorem argumentsRenamedTo_iff (arguments : List TypeArgument) {arguments' : List TypeArgument} :
    ArgumentsRenamedTo r arguments arguments' ↔ arguments' = renameArguments r arguments := by
  match arguments with
  | [] =>
    constructor
    · rintro ⟨⟩
      rfl
    · rintro rfl
      exact .nil
  | argument :: arguments =>
    constructor
    · rintro (_ | ⟨hargument, harguments⟩)
      rw [argument.renamedTo_iff.mp hargument, argumentsRenamedTo_iff arguments |>.mp harguments,
        renameArguments]
    · rintro rfl
      exact .cons (argument.renamedTo_iff.mpr rfl) (argumentsRenamedTo_iff arguments |>.mpr rfl)

theorem TypeArgument.renamedTo_iff (argument : TypeArgument) {argument' : TypeArgument} :
    argument.RenamedTo r argument' ↔ argument' = argument.rename r := by
  match argument with
  | .any =>
    constructor
    · rintro ⟨⟩
      rfl
    · rintro rfl
      exact .any
  | .exact type =>
    constructor
    · rintro (_ | h)
      rw [type.renamedTo_iff.mp h, TypeArgument.rename]
    · rintro rfl
      exact .exact (type.renamedTo_iff.mpr rfl)
  | .upper type =>
    constructor
    · rintro (_ | _ | h)
      rw [type.renamedTo_iff.mp h, TypeArgument.rename]
    · rintro rfl
      exact .upper (type.renamedTo_iff.mpr rfl)
  | .lower type =>
    constructor
    · rintro (_ | _ | _ | h)
      rw [type.renamedTo_iff.mp h, TypeArgument.rename]
    · rintro rfl
      exact .lower (type.renamedTo_iff.mpr rfl)

end

section

variable {α β : Type} {R : α → β → Prop} {f : α → β} (h : ∀ a b, R a b ↔ b = f a)
include h

theorem forall₂_iff_map {as : List α} {bs : List β} : List.Forall₂ R as bs ↔ bs = as.map f := by
  induction as generalizing bs with
  | nil => simp
  | cons a as ih =>
    cases bs with
    | nil => simp
    | cons b bs => rw [List.forall₂_cons, h, ih, List.map_cons, List.cons_eq_cons]

theorem optionRel_iff_map {a : Option α} {b : Option β} : Option.Rel R a b ↔ b = a.map f := by
  cases a <;> cases b <;> simp [h]

end

theorem TypeParameter.renamedTo_iff (p : TypeParameter) {p' : TypeParameter} :
    p.RenamedTo r p' ↔ p' = p.rename r := by
  obtain ⟨name, classBound, bounds⟩ := p
  obtain ⟨name', classBound', bounds'⟩ := p'
  have hclass : Option.Rel (ReferenceType.RenamedTo r) classBound classBound' ↔ _ :=
    optionRel_iff_map fun type _ => type.renamedTo_iff
  have hbounds : List.Forall₂ (ReferenceType.RenamedTo r) bounds bounds' ↔ _ :=
    forall₂_iff_map fun type _ => type.renamedTo_iff
  constructor
  · rintro ⟨rfl, hclass', hbounds'⟩
    rw [TypeParameter.rename, ← hclass.mp hclass', ← hbounds.mp hbounds']
  · intro h
    obtain ⟨rfl, hclass', hbounds'⟩ := TypeParameter.mk.inj h
    exact ⟨rfl, hclass.mpr hclass', hbounds.mpr hbounds'⟩

theorem ThrownType.renamedTo_iff (type : ThrownType) {type' : ThrownType} :
    type.RenamedTo r type' ↔ type' = type.rename r := by
  match type with
  | .object type =>
    constructor
    · rintro (h | _)
      rw [type.renamedTo_iff.mp h, ThrownType.rename]
    · rintro rfl
      exact .object (type.renamedTo_iff.mpr rfl)
  | .variable name =>
    constructor
    · rintro ⟨⟩
      rfl
    · rintro rfl
      exact .variable name

theorem Signature.renamedTo_iff (s : Signature) {s' : Signature} :
    s.RenamedTo r s' ↔ s' = s.rename r := by
  match s with
  | .ofClass parameters superclass interfaces =>
    constructor
    · rintro ⟨hparameters, hsuperclass, hinterfaces⟩
      rw [Signature.rename, superclass.renamedTo_iff.mp hsuperclass,
        (forall₂_iff_map fun p _ => p.renamedTo_iff).mp hparameters,
        (forall₂_iff_map fun type _ => type.renamedTo_iff).mp hinterfaces]
    · rintro rfl
      exact .ofClass ((forall₂_iff_map fun p _ => p.renamedTo_iff).mpr rfl)
        (superclass.renamedTo_iff.mpr rfl)
        ((forall₂_iff_map fun type _ => type.renamedTo_iff).mpr rfl)
  | .ofMethod parameters arguments result thrown =>
    constructor
    · rintro (_ | ⟨hparameters, harguments, hresult, hthrown⟩)
      rw [Signature.rename, (optionRel_iff_map fun type _ => type.renamedTo_iff).mp hresult,
        (forall₂_iff_map fun p _ => p.renamedTo_iff).mp hparameters,
        (forall₂_iff_map fun type _ => type.renamedTo_iff).mp harguments,
        (forall₂_iff_map fun type _ => type.renamedTo_iff).mp hthrown]
    · rintro rfl
      exact .ofMethod ((forall₂_iff_map fun p _ => p.renamedTo_iff).mpr rfl)
        ((forall₂_iff_map fun type _ => type.renamedTo_iff).mpr rfl)
        ((optionRel_iff_map fun type _ => type.renamedTo_iff).mpr rfl)
        ((forall₂_iff_map fun type _ => type.renamedTo_iff).mpr rfl)
  | .ofField type =>
    constructor
    · rintro (_ | _ | h)
      rw [type.renamedTo_iff.mp h, Signature.rename]
    · rintro rfl
      exact .ofField (type.renamedTo_iff.mpr rfl)

/-- A signature of the grammar whose bounds show is renamed to its image. -/
theorem Renaming.signature_print (r : Renaming) {kind : SymbolKind} {s : Signature}
    (h : s.Grammatical kind) (hbounds : s.BoundsShow) :
    (∃ s', s.RenamedTo r s') ∧
      ∀ s', s.RenamedTo r s' → r.signature kind s.print = .ok s'.print := by
  refine ⟨⟨s.rename r, s.renamedTo_iff.mpr rfl⟩, fun s' hs' => ?_⟩
  rw [s.renamedTo_iff.mp hs']
  exact signature_eq_ok_iff.mpr ⟨s, Signature.parse_print (h.legible_iff.mpr hbounds), rfl⟩

/-! ## Nested classes -/

/-- Renames the class `a/A` and its inner class `I`, but not the inner class `K` of that. -/
def nestedRenaming : Renaming :=
  { Renaming.identity with
    className := fun name =>
      if name = "a/A" then "x/E" else if name = "a/A$I" then "x/E$R" else name }

/-- The signature `<T:La/A;U::LC<TT;>;>La/A<[TT;>.I<*>.K;LC<+La/A;-[I>;`. -/
def nestedSignature : Signature :=
  .ofClass
    [⟨"T", some (.object (.of "a/A" [])), []⟩,
      ⟨"U", none, [.object (.of "C" [.arguments [.exact (.variable "T")]])]⟩]
    (.of "a/A" [.arguments [.exact (.array (.reference (.variable "T")))], .inner "I",
      .arguments [.any], .inner "K"])
    [.of "C" [.arguments [.upper (.object (.of "a/A" [])), .lower (.array (.base .int))]]]

theorem isQualified_outer : IsQualified "a/A" := by
  have hname : "a/A" = "a" ++ "/" ++ "A" := by decide +kernel
  rw [hname]
  exact .inPackage (by decide +kernel) (.simple (by decide +kernel))

theorem grammatical_nestedSignature : nestedSignature.Grammatical .ofClass := by
  have houter := isQualified_outer
  have hC : IsQualified "C" := .simple (by decide +kernel)
  have hT : Signature.IsIdentifier "T" := by decide +kernel
  have hU : Signature.IsIdentifier "U" := by decide +kernel
  have hI : Signature.IsIdentifier "I" := by decide +kernel
  have hK : Signature.IsIdentifier "K" := by decide +kernel
  have hA : ClassType.Grammatical (.of "a/A" []) := ⟨houter, trivial⟩
  have hbound : ClassType.Grammatical (.of "C" [.arguments [.exact (.variable "T")]]) :=
    ⟨hC, rfl, nofun, ⟨hT, trivial⟩, trivial⟩
  refine ⟨?_, ?_, ?_⟩
  · refine List.forall_mem_cons.mpr ⟨⟨hT, ?_, nofun⟩, List.forall_mem_singleton.mpr ⟨hU, nofun, ?_⟩⟩
    · rintro type ⟨⟩
      exact hA
    · exact List.forall_mem_singleton.mpr hbound
  · exact ⟨houter, rfl, nofun, ⟨hT, trivial⟩, hI, rfl, nofun, ⟨trivial, trivial⟩, hK, trivial⟩
  · exact List.forall_mem_singleton.mpr ⟨hC, rfl, nofun, ⟨hA, trivial, trivial⟩, trivial⟩

theorem boundsShow_nestedSignature : nestedSignature.BoundsShow :=
  List.isChain_pair.mpr nofun

theorem Renaming.signature_print_nestedSignature :
    nestedSignature.Grammatical .ofClass ∧ nestedSignature.BoundsShow ∧
      nestedRenaming.signature .ofClass "<T:La/A;U::LC<TT;>;>La/A<[TT;>.I<*>.K;LC<+La/A;-[I>;"
        = .ok "<T:Lx/E;U::LC<TT;>;>Lx/E<[TT;>.R<*>.K;LC<+Lx/E;-[I>;" := by
  have hgrammatical := grammatical_nestedSignature
  have hbounds := boundsShow_nestedSignature
  have hrenamed := (nestedRenaming.signature_print hgrammatical hbounds).2 _
    (nestedSignature.renamedTo_iff.mpr rfl)
  have hprint : nestedSignature.print
      = "<T:La/A;U::LC<TT;>;>La/A<[TT;>.I<*>.K;LC<+La/A;-[I>;" := by decide +kernel
  have hprint' : (nestedSignature.rename nestedRenaming).print
      = "<T:Lx/E;U::LC<TT;>;>Lx/E<[TT;>.R<*>.K;LC<+Lx/E;-[I>;" := by decide +kernel
  rw [hprint, hprint'] at hrenamed
  exact ⟨hgrammatical, hbounds, hrenamed⟩

end Relabel
