import Relabel.Proofs.Signature.Parse
import Relabel.Signature.Rename

/-!
# Renaming legible signatures

The new name of an inner class is what its new binary name has behind the new name of the class
around it, if that is anything, and the old name otherwise. So under a renaming that keeps class
names legible, a legible signature becomes a legible one, and the new text is read back as the
renamed signature. If the new names are final, a signature without inner classes is renamed once
only. The name of an inner class is looked up together with the names around it, so that does not
extend to inner classes.
-/

namespace Relabel

open Scan

/-! ## Inner names -/

section

variable {outer binary inner x y : String}

theorem toList_binaryName (outer inner : String) :
    (binaryName outer inner).toList = outer.toList ++ '$' :: inner.toList := by
  simp [binaryName]

@[simp] theorem binaryName_inj : binaryName outer x = binaryName outer y ↔ x = y := by
  constructor
  · intro h
    have hchars := congrArg String.toList h
    rw [toList_binaryName, toList_binaryName] at hchars
    exact String.toList_inj.mp (List.cons_injective (List.append_cancel_left hchars))
  · rintro rfl
    rfl

theorem innerName_of_nested (hx : x ≠ "") : innerName outer (binaryName outer x) inner = x := by
  have hchars : (binaryName outer "").toList ++ x.toList = (binaryName outer x).toList := by
    simp [toList_binaryName]
  rw [innerName, List.isPrefixOf?_eq_some_iff_append_eq.mpr hchars]
  cases h : x.toList with
  | nil => exact absurd (String.toList_eq_nil_iff.mp h) hx
  | cons c rest => exact (congrArg String.ofList h).symm.trans String.ofList_toList

theorem innerName_of_not_nested (h : ∀ x ≠ "", binary ≠ binaryName outer x) :
    innerName outer binary inner = inner := by
  unfold innerName
  split
  case h_2 => rfl
  case h_1 c rest hrest =>
    have hchars := List.isPrefixOf?_eq_some_iff_append_eq.mp hrest
    refine absurd (String.toList_inj.mp ?_) (h (String.ofList (c :: rest)) (by simp))
    rw [← hchars]
    simp [toList_binaryName]

/-- The inner name is what the binary name has behind the outer one, or it stays. -/
theorem innerName_cases (outer binary inner : String) :
    (∃ x ≠ "", binary = binaryName outer x ∧ innerName outer binary inner = x) ∨
      (∀ x ≠ "", binary ≠ binaryName outer x) ∧ innerName outer binary inner = inner := by
  by_cases hnested : ∃ x ≠ "", binary = binaryName outer x
  · obtain ⟨x, hx, rfl⟩ := hnested
    exact .inl ⟨x, hx, rfl, innerName_of_nested hx⟩
  · have hnested : ∀ x ≠ "", binary ≠ binaryName outer x := fun x hx h => hnested ⟨x, hx, h⟩
    exact .inr ⟨hnested, innerName_of_not_nested hnested⟩

theorem innerName_binaryName (outer inner : String) :
    innerName outer (binaryName outer inner) inner = inner := by
  obtain ⟨x, -, hbinary, h⟩ | ⟨-, h⟩ := innerName_cases outer (binaryName outer inner) inner
  · rw [h, binaryName_inj.mp hbinary]
  · exact h

/-- The name holds none of the characters that end a class name. -/
def IsPlain (name : String) : Prop := ∀ c ∈ name.toList, Signature.endsClassName c = false

instance {name : String} : Decidable (IsPlain name) :=
  decidable_of_iff (name.toList.all (fun c => !Signature.endsClassName c) = true)
    (by simp [IsPlain])

theorem isPlain_binaryName : IsPlain (binaryName outer inner) ↔ IsPlain outer ∧ IsPlain inner := by
  have hdollar : Signature.endsClassName '$' = false := rfl
  simp only [IsPlain, toList_binaryName, List.forall_mem_append, List.forall_mem_cons, hdollar,
    true_and]

theorem isPlain_innerName (hbinary : IsPlain binary) (hinner : IsPlain inner) :
    IsPlain (innerName outer binary inner) := by
  obtain ⟨x, -, rfl, h⟩ | ⟨-, h⟩ := innerName_cases outer binary inner
  · rw [h]
    exact (isPlain_binaryName.mp hbinary).2
  · rwa [h]

end

/-! ## Renamed signatures are legible -/

/-- Class names that can be read are renamed to such names. -/
def Renaming.KeepsLegible (r : Renaming) : Prop :=
  ∀ ⦃name : String⦄, IsClassName name → IsClassName (r.className name)

variable {r : Renaming} {c : Char}

theorem isClassName_binaryName {outer inner : String} (houter : IsClassName outer)
    (hinner : IsClassName inner) : IsClassName (binaryName outer inner) :=
  ⟨by simp [toList_binaryName], isPlain_binaryName.mpr ⟨houter.plain, hinner.plain⟩⟩

/-- The new name of an inner class is a part of the new binary name, or the old name. -/
theorem isClassName_innerName {outer binary inner : String} (hbinary : IsClassName binary)
    (hinner : IsClassName inner) : IsClassName (innerName outer binary inner) := by
  refine ⟨?_, isPlain_innerName hbinary.plain hinner.plain⟩
  obtain ⟨x, hx, -, h⟩ | ⟨-, h⟩ := innerName_cases outer binary inner
  · rw [h]
    exact mt String.toList_eq_nil_iff.mp hx
  · rw [h]
    exact hinner.nonempty

mutual

theorem ReferenceType.Legible.rename (hr : r.KeepsLegible) (type : ReferenceType)
    (h : type.Legible) :
    (type.rename r).Legible := by
  match type with
  | .object type => exact ClassType.Legible.rename hr type h
  | .variable _ => exact h
  | .array element => exact JavaType.Legible.rename hr element h

theorem JavaType.Legible.rename (hr : r.KeepsLegible) (type : JavaType) (h : type.Legible) :
    (type.rename r).Legible := by
  match type with
  | .base _ => trivial
  | .reference type => exact ReferenceType.Legible.rename hr type h

theorem ClassType.Legible.rename (hr : r.KeepsLegible) (type : ClassType) (h : type.Legible) :
    (type.rename r).Legible := by
  match type with
  | .of name parts => exact ⟨hr h.1, legible_renameParts hr h.1 (r.className name) parts h.2⟩

theorem legible_renameParts (hr : r.KeepsLegible) {old : String} (hold : IsClassName old)
    (new : String) (parts : List ClassPart) (h : LegibleParts parts) :
    LegibleParts (renameParts r old new parts) := by
  match parts with
  | [] => trivial
  | .arguments arguments :: parts =>
    exact ⟨legible_renameArguments hr arguments h.1, legible_renameParts hr hold new parts h.2⟩
  | .inner name :: parts =>
    have hbinary := isClassName_binaryName hold h.1
    exact ⟨isClassName_innerName (hr hbinary) h.1, legible_renameParts hr hbinary _ parts h.2⟩

theorem legible_renameArguments (hr : r.KeepsLegible) (arguments : List TypeArgument)
    (h : LegibleArguments arguments) :
    LegibleArguments (renameArguments r arguments) := by
  match arguments with
  | [] => trivial
  | argument :: arguments =>
    exact ⟨TypeArgument.Legible.rename hr argument h.1, legible_renameArguments hr arguments h.2⟩

theorem TypeArgument.Legible.rename (hr : r.KeepsLegible) (argument : TypeArgument)
    (h : argument.Legible) :
    (argument.rename r).Legible := by
  match argument with
  | .any => trivial
  | .exact type | .upper type | .lower type => exact ReferenceType.Legible.rename hr type h

end

section

variable (hr : r.KeepsLegible)
include hr

theorem TypeParameter.Legible.rename {p : TypeParameter} (h : p.Legible) :
    (p.rename r).Legible where
  name := h.name
  classBound _ hbound := by
    obtain ⟨type, htype, rfl⟩ := Option.map_eq_some_iff.mp hbound
    exact ReferenceType.Legible.rename hr type (h.classBound type htype)
  interfaceBounds := List.forall_mem_map.mpr fun type htype =>
    ReferenceType.Legible.rename hr type (h.interfaceBounds type htype)

/-- Renaming keeps the names of type parameters and the number of their bounds. -/
theorem LegibleParameters.rename {parameters : List TypeParameter}
    (h : LegibleParameters parameters) :
    LegibleParameters (parameters.map (TypeParameter.rename r)) := by
  obtain ⟨hall, hchain, htail⟩ := h
  refine ⟨List.forall_mem_map.mpr fun p hp => (hall p hp).rename hr, ?_, ?_⟩
  · rw [List.isChain_map]
    refine hchain.imp ?_
    intro p q hends hclass hinterfaces
    exact hends (Option.map_eq_none_iff.mp hclass) (List.map_eq_nil_iff.mp hinterfaces)
  · rw [← List.map_tail]
    exact List.forall_mem_map.mpr htail

theorem ThrownType.Legible.rename {type : ThrownType} (h : type.Legible) :
    (type.rename r).Legible := by
  match type with
  | .object type => exact ClassType.Legible.rename hr type h
  | .variable _ => exact h

theorem Signature.Legible.rename {kind : SymbolKind} {signature : Signature}
    (h : signature.Legible kind) : (signature.rename r).Legible kind := by
  match kind, signature with
  | .ofClass, .ofClass _ superclass _ =>
    obtain ⟨hparameters, hsuperclass, hinterfaces⟩ := h
    refine ⟨hparameters.rename hr, ClassType.Legible.rename hr superclass hsuperclass, ?_⟩
    exact List.forall_mem_map.mpr fun type htype =>
      ClassType.Legible.rename hr type (hinterfaces type htype)
  | .ofMethod, .ofMethod _ _ _ _ =>
    obtain ⟨hparameters, harguments, hresult, hthrown⟩ := h
    refine ⟨hparameters.rename hr, ?_, ?_, ?_⟩
    · exact List.forall_mem_map.mpr fun type htype =>
        JavaType.Legible.rename hr type (harguments type htype)
    · intro _ hrenamed
      obtain ⟨type, htype, rfl⟩ := Option.map_eq_some_iff.mp hrenamed
      exact JavaType.Legible.rename hr type (hresult type htype)
    · exact List.forall_mem_map.mpr fun type htype => (hthrown type htype).rename hr
  | .ofField, .ofField type => exact ReferenceType.Legible.rename hr type h

end

/-! ## Final names are not renamed again -/

mutual

/-- What stands behind a type stays behind it. -/
theorem ReferenceType.mem_write (type : ReferenceType) {tail : List Char}
    (h : c ∈ tail) : c ∈ type.write tail := by
  match type with
  | .object type => exact type.mem_write h
  | .variable name => simp [ReferenceType.write, h]
  | .array element => exact List.mem_cons_of_mem _ (element.mem_write h)

theorem JavaType.mem_write (type : JavaType) {tail : List Char}
    (h : c ∈ tail) : c ∈ type.write tail := by
  match type with
  | .base _ => exact List.mem_cons_of_mem _ h
  | .reference type => exact type.mem_write h

theorem ClassType.mem_write (type : ClassType) {tail : List Char}
    (h : c ∈ tail) : c ∈ type.write tail := by
  match type with
  | .of name parts =>
    have hparts := mem_writeParts parts (List.mem_cons_of_mem ';' h)
    exact List.mem_cons_of_mem _ (List.mem_append_right _ hparts)

theorem mem_writeParts (parts : List ClassPart) {tail : List Char}
    (h : c ∈ tail) : c ∈ writeParts parts tail := by
  match parts with
  | [] => exact h
  | part :: parts => exact part.mem_write (mem_writeParts parts h)

theorem ClassPart.mem_write (part : ClassPart) {tail : List Char}
    (h : c ∈ tail) : c ∈ part.write tail := by
  match part with
  | .arguments arguments =>
    exact List.mem_cons_of_mem _ (mem_writeArguments arguments (List.mem_cons_of_mem '>' h))
  | .inner name => simp [ClassPart.write, h]

theorem mem_writeArguments (arguments : List TypeArgument) {tail : List Char}
    (h : c ∈ tail) : c ∈ writeArguments arguments tail := by
  match arguments with
  | [] => exact h
  | argument :: arguments => exact argument.mem_write (mem_writeArguments arguments h)

theorem TypeArgument.mem_write (argument : TypeArgument) {tail : List Char}
    (h : c ∈ tail) : c ∈ argument.write tail := by
  match argument with
  | .any => exact List.mem_cons_of_mem _ h
  | .exact type => exact type.mem_write h
  | .upper type | .lower type => exact List.mem_cons_of_mem _ (type.mem_write h)

end

/-! The texts of items in a row are parts of the text of the row. -/

section

variable {α : Type} {write : α → List Char → List Char} {tail : List Char}

theorem mem_foldr (hwrite : ∀ a {tail : List Char}, c ∈ tail → c ∈ write a tail) (as : List α)
    (h : c ∈ tail) : c ∈ as.foldr write tail := by
  induction as with
  | nil => exact h
  | cons a as ih => exact hwrite a ih

theorem not_mem_write (hwrite : ∀ a {tail : List Char}, c ∈ tail → c ∈ write a tail) {as : List α}
    (h : c ∉ as.foldr write tail) : ∀ a ∈ as, ∃ tail, c ∉ write a tail := by
  induction as with
  | nil => exact List.forall_mem_nil _
  | cons a as ih => exact List.forall_mem_cons.mpr ⟨⟨_, h⟩, ih (mt (hwrite a) h)⟩

theorem Signature.mem_writeBound (type : ReferenceType) {tail : List Char} (h : c ∈ tail) :
    c ∈ writeBound type tail := List.mem_cons_of_mem _ (type.mem_write h)

theorem TypeParameter.mem_write (p : TypeParameter) {tail : List Char} (h : c ∈ tail) :
    c ∈ p.write tail := by
  obtain ⟨name, classBound, bounds⟩ := p
  have hbounds := mem_foldr Signature.mem_writeBound bounds h
  cases classBound with
  | none => exact List.mem_append_right _ (List.mem_cons_of_mem _ hbounds)
  | some type =>
    exact List.mem_append_right _ (List.mem_cons_of_mem _ (type.mem_write hbounds))

theorem mem_writeParameters (parameters : List TypeParameter) (h : c ∈ tail) :
    c ∈ writeParameters parameters tail := by
  cases parameters with
  | nil => exact h
  | cons p parameters =>
    exact List.mem_cons_of_mem _
      (mem_foldr TypeParameter.mem_write (p :: parameters) (List.mem_cons_of_mem '>' h))

theorem ThrownType.mem_write (type : ThrownType) {tail : List Char} (h : c ∈ tail) :
    c ∈ type.write tail := by
  match type with
  | .object type => exact List.mem_cons_of_mem _ (type.mem_write h)
  | .variable name => simp [ThrownType.write, h]

theorem mem_writeResult (result : Option JavaType) (h : c ∈ tail) :
    c ∈ writeResult result tail := by
  cases result with
  | none => exact List.mem_cons_of_mem _ h
  | some type => exact type.mem_write h

end

/-- Names that `r` gives are not changed by `r`. -/
def Renaming.IsIdempotent (r : Renaming) : Prop :=
  ∀ name, r.className (r.className name) = r.className name

mutual

theorem ReferenceType.rename_rename (hr : r.IsIdempotent) (type : ReferenceType)
    {tail : List Char} (h : '.' ∉ type.write tail) :
    (type.rename r).rename r = type.rename r := by
  match type with
  | .object type => exact congrArg ReferenceType.object (type.rename_rename hr h)
  | .variable _ => rfl
  | .array element =>
    exact congrArg ReferenceType.array (element.rename_rename hr (mt (List.mem_cons_of_mem _) h))

theorem JavaType.rename_rename (hr : r.IsIdempotent) (type : JavaType) {tail : List Char}
    (h : '.' ∉ type.write tail) : (type.rename r).rename r = type.rename r := by
  match type with
  | .base _ => rfl
  | .reference type => exact congrArg JavaType.reference (type.rename_rename hr h)

theorem ClassType.rename_rename (hr : r.IsIdempotent) (type : ClassType) {tail : List Char}
    (h : '.' ∉ type.write tail) : (type.rename r).rename r = type.rename r := by
  match type with
  | .of name parts =>
    have hparts : '.' ∉ writeParts parts (';' :: tail) := fun hmem =>
      h (List.mem_cons_of_mem _ (List.mem_append_right _ hmem))
    rw [ClassType.rename, ClassType.rename, hr name, renameParts_renameParts hr parts hparts]

/-- Without inner classes, type arguments are all that is renamed behind a name. -/
theorem renameParts_renameParts (hr : r.IsIdempotent) (parts : List ClassPart) {tail : List Char}
    (h : '.' ∉ writeParts parts tail) {old new old' new' : String} :
    renameParts r old' new' (renameParts r old new parts) = renameParts r old new parts := by
  match parts with
  | [] => rfl
  | .arguments arguments :: parts =>
    have harguments := mt (List.mem_cons_of_mem '<') h
    have hparts : '.' ∉ writeParts parts tail := fun hmem =>
      harguments (mem_writeArguments arguments (List.mem_cons_of_mem _ hmem))
    rw [renameParts, renameParts, renameArguments_renameArguments hr arguments harguments,
      renameParts_renameParts hr parts hparts]
  | .inner _ :: _ => exact absurd List.mem_cons_self h

theorem renameArguments_renameArguments (hr : r.IsIdempotent) (arguments : List TypeArgument)
    {tail : List Char} (h : '.' ∉ writeArguments arguments tail) :
    renameArguments r (renameArguments r arguments) = renameArguments r arguments := by
  match arguments with
  | [] => rfl
  | argument :: arguments =>
    rw [renameArguments, renameArguments, argument.rename_rename hr h,
      renameArguments_renameArguments hr arguments (mt argument.mem_write h)]

theorem TypeArgument.rename_rename (hr : r.IsIdempotent) (argument : TypeArgument)
    {tail : List Char} (h : '.' ∉ argument.write tail) :
    (argument.rename r).rename r = argument.rename r := by
  match argument with
  | .any => rfl
  | .exact type => exact congrArg TypeArgument.exact (type.rename_rename hr h)
  | .upper type =>
    exact congrArg TypeArgument.upper (type.rename_rename hr (mt (List.mem_cons_of_mem _) h))
  | .lower type =>
    exact congrArg TypeArgument.lower (type.rename_rename hr (mt (List.mem_cons_of_mem _) h))

end

theorem map_map_of_forall {α : Type} {f : α → α} {as : List α} (h : ∀ a ∈ as, f (f a) = f a) :
    (as.map f).map f = as.map f := by
  rw [List.map_map]
  exact List.map_congr_left h

section

variable (hr : r.IsIdempotent)
include hr

theorem TypeParameter.rename_rename (p : TypeParameter) {tail : List Char}
    (h : '.' ∉ p.write tail) : (p.rename r).rename r = p.rename r := by
  obtain ⟨name, classBound, bounds⟩ := p
  have rename_bounds (h : '.' ∉ bounds.foldr Signature.writeBound tail) :
      (bounds.map (ReferenceType.rename r)).map (ReferenceType.rename r)
        = bounds.map (ReferenceType.rename r) := by
    refine map_map_of_forall ?_
    intro type htype
    obtain ⟨_, hmem⟩ := not_mem_write Signature.mem_writeBound h type htype
    exact type.rename_rename hr (mt (List.mem_cons_of_mem _) hmem)
  have hbehind := fun hmem => h (List.mem_append_right _ (List.mem_cons_of_mem ':' hmem))
  cases classBound with
  | none => exact congrArg (TypeParameter.mk name none) (rename_bounds hbehind)
  | some type =>
    have htype := type.rename_rename hr hbehind
    have hbounds := rename_bounds (mt type.mem_write hbehind)
    simp only [TypeParameter.rename, Option.map_some, htype, hbounds]

theorem ThrownType.rename_rename (type : ThrownType) {tail : List Char}
    (h : '.' ∉ type.write tail) : (type.rename r).rename r = type.rename r := by
  match type with
  | .object type =>
    exact congrArg ThrownType.object (type.rename_rename hr (mt (List.mem_cons_of_mem _) h))
  | .variable _ => rfl

theorem rename_rename_result {result : Option JavaType} {tail : List Char}
    (h : '.' ∉ writeResult result tail) :
    (result.map (JavaType.rename r)).map (JavaType.rename r) = result.map (JavaType.rename r) := by
  cases result with
  | none => rfl
  | some type => exact congrArg some (type.rename_rename hr h)

theorem rename_rename_parameters {parameters : List TypeParameter} {tail : List Char}
    (h : '.' ∉ writeParameters parameters tail) :
    (parameters.map (TypeParameter.rename r)).map (TypeParameter.rename r)
      = parameters.map (TypeParameter.rename r) := by
  refine map_map_of_forall ?_
  intro p hp
  have hall : '.' ∉ parameters.foldr TypeParameter.write ('>' :: tail) := by
    rw [writeParameters, if_neg (by grind)] at h
    exact mt (List.mem_cons_of_mem _) h
  obtain ⟨_, hmem⟩ := not_mem_write TypeParameter.mem_write hall p hp
  exact p.rename_rename hr hmem

/-- Without inner classes, final names are not renamed again. -/
theorem Signature.rename_rename (signature : Signature) (h : '.' ∉ signature.chars) :
    (signature.rename r).rename r = signature.rename r := by
  match signature with
  | .ofClass parameters superclass interfaces =>
    have hsuperclass := mt (mem_writeParameters parameters) h
    have hinterfaces : '.' ∉ interfaces.foldr ClassType.write [] :=
      mt superclass.mem_write hsuperclass
    have htypes := map_map_of_forall (f := ClassType.rename r) fun type htype => by
      obtain ⟨_, hmem⟩ := not_mem_write ClassType.mem_write hinterfaces type htype
      exact type.rename_rename hr hmem
    simp only [Signature.rename, rename_rename_parameters hr h,
      superclass.rename_rename hr hsuperclass, htypes]
  | .ofMethod parameters arguments result thrown =>
    have harguments := mt (List.mem_cons_of_mem '(') (mt (mem_writeParameters parameters) h)
    have hresult := fun hmem =>
      harguments (mem_foldr JavaType.mem_write arguments (List.mem_cons_of_mem ')' hmem))
    have hthrown := mt (mem_writeResult result) hresult
    have htypes := map_map_of_forall (f := JavaType.rename r) fun type htype => by
      obtain ⟨_, hmem⟩ := not_mem_write JavaType.mem_write harguments type htype
      exact type.rename_rename hr hmem
    have hlast := map_map_of_forall (f := ThrownType.rename r) fun type htype => by
      obtain ⟨_, hmem⟩ := not_mem_write ThrownType.mem_write hthrown type htype
      exact type.rename_rename hr hmem
    simp only [Signature.rename, rename_rename_parameters hr h, htypes, hlast,
      rename_rename_result hr hresult]
  | .ofField type => exact congrArg Signature.ofField (type.rename_rename hr h)

end

/-! ## Signature texts -/

theorem Renaming.signature_eq_ok_iff {kind : SymbolKind} {text text' : String} :
    r.signature kind text = .ok text' ↔
      ∃ s, Signature.parse kind text = .ok s ∧ (s.rename r).print = text' := by
  rw [Renaming.signature]
  cases Signature.parse kind text with
  | error flaw => simp [bind, Except.bind]
  | ok s => simp [bind, Except.bind, pure, Except.pure]

/-- The new text of a signature is read back as the renamed signature. -/
theorem Renaming.parse_signature (hr : r.KeepsLegible) {kind : SymbolKind} {text text' : String}
    (h : r.signature kind text = .ok text') : ∃ signature : Signature,
      signature.print = text ∧ Signature.parse kind text' = .ok (signature.rename r) ∧
      (signature.rename r).print = text' := by
  obtain ⟨signature, hparse, ⟨⟩⟩ := except_bind_eq_ok.mp h
  obtain ⟨hprint, hlegible⟩ := Signature.parse_eq_ok hparse
  exact ⟨signature, hprint, Signature.parse_print (hlegible.rename hr), rfl⟩

/-- The new text of a signature without inner classes is not changed again. -/
theorem Renaming.signature_signature (hr : r.KeepsLegible) (hidem : r.IsIdempotent)
    {kind : SymbolKind} {text text' : String} (hdot : '.' ∉ text.toList)
    (h : r.signature kind text = .ok text') : r.signature kind text' = .ok text' := by
  obtain ⟨signature, hprint, hparse, hprint'⟩ := parse_signature hr h
  have hchars : signature.chars = text.toList := by
    rw [← hprint, Signature.print, String.toList_ofList]
  have hsame := signature.rename_rename hidem (hchars ▸ hdot)
  rw [Renaming.signature, hparse]
  change Except.ok ((signature.rename r).rename r).print = _
  rw [hsame, hprint']

end Relabel
