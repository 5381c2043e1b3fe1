import Relabel.Naming.Environment
import Relabel.Proofs.Descriptor
import Relabel.Proofs.Renaming.Referent
import Relabel.Proofs.Signature.Rename

/-!
# Final names

The names that a renaming gives are final if it maps them to themselves, members under the
new names of their owners. Such a renaming changes nothing that it has named: neither a
text with class names in it nor what an entry refers to. A table whose final names are not
to be replaced gives final names if they can be told apart from arrays and from the text
around them.
-/

namespace Relabel

/-- The text is the name of an array type. -/
abbrev IsArrayName (name : String) : Prop := name.startsWith "[" = true

theorem isArrayName_iff {name : String} : IsArrayName name ↔ name.toList.head? = some '[' := by
  have hchars : "[".toList = ['['] := by decide +kernel
  rw [IsArrayName, String.startsWith_string_iff, hchars]
  cases name.toList <;> simp [eq_comm]

/-- The name of an array type stays one. -/
theorem Renaming.isArrayName_descriptor {r : Renaming} {text text' : String}
    (h : r.descriptor text = .ok text') (htext : IsArrayName text) : IsArrayName text' := by
  obtain ⟨d, hparse, ⟨⟩⟩ := except_bind_eq_ok.mp h
  obtain ⟨-, rfl⟩ := Descriptor.parse_eq_ok hparse
  rw [isArrayName_iff, Descriptor.print, String.toList_ofList] at htext ⊢
  rw [Descriptor.head?_chars_rename, htext]

/-- What `r` names is not renamed again. -/
structure Renaming.IsFinal (r : Renaming) : Prop where
  class_idempotent : r.IsIdempotent
  /-- A new class name can be told apart from the text around it. -/
  class_legible : ∀ name, r.className name = name ∨ IsClassName (r.className name)
  class_plain : ∀ name, ¬ IsArrayName name → ¬ IsArrayName (r.className name)
  class_array : ∀ name, IsArrayName name → r.className name = name
  method_final : ∀ ⦃owner owner'⦄, r.type owner = .ok owner' → ∀ name descriptor descriptor',
    r.methodName owner' (r.methodName owner name descriptor) descriptor'
      = r.methodName owner name descriptor
  field_final : ∀ ⦃owner owner'⦄, r.type owner = .ok owner' → ∀ name descriptor descriptor',
    r.fieldName owner' (r.fieldName owner name descriptor) descriptor'
      = r.fieldName owner name descriptor
  dynamic_final : ∀ name descriptor descriptor',
    r.dynamicName (r.dynamicName name descriptor) descriptor' = r.dynamicName name descriptor
  package_final : ∀ name, r.packageName (r.packageName name) = r.packageName name
  module_final : ∀ name, r.moduleName (r.moduleName name) = r.moduleName name

namespace Renaming.IsFinal

variable {r : Renaming} (hr : r.IsFinal)
include hr

theorem keepsLegible : r.KeepsLegible := by
  intro name hname
  rcases hr.class_legible name with hsame | hnew
  · rwa [hsame]
  · exact hnew

/-! ## Texts -/

theorem descriptor_legible {name : String} (hname : ';' ∉ name.toList) :
    ';' ∉ (r.className name).toList := by
  rcases hr.class_legible name with hsame | hnew
  · rwa [hsame]
  · intro hmem
    exact absurd (hnew.plain _ hmem) (by decide)

theorem descriptor {text text' : String} (h : r.descriptor text = .ok text') :
    r.descriptor text' = .ok text' := by
  obtain ⟨d, hparse, ⟨⟩⟩ := except_bind_eq_ok.mp h
  have hlegible : (d.rename r).Legible :=
    (Descriptor.parse_eq_ok hparse).1.rename fun _ => hr.descriptor_legible
  have hsame : (d.rename r).rename r = d.rename r :=
    Descriptor.rename_rename hr.class_idempotent d
  rw [Renaming.descriptor, Descriptor.parse_print hlegible]
  exact congrArg (fun d : Descriptor => Except.ok d.print) hsame

/-- The new name of a class entry is final, also where no array type is expected. -/
theorem type {name name' : String} (h : r.type name = .ok name') :
    r.type name' = .ok name' ∧ r.className name' = name' := by
  unfold Renaming.type at h ⊢
  split at h
  case isTrue harray =>
    have harray' := isArrayName_descriptor h harray
    exact ⟨by rw [if_pos harray', hr.descriptor h], hr.class_array name' harray'⟩
  case isFalse hplain =>
    cases h
    rw [if_neg (hr.class_plain name hplain), hr.class_idempotent name]
    exact ⟨rfl, rfl⟩

theorem signature {kind : SymbolKind} {text text' : String} (hdot : '.' ∉ text.toList)
    (h : r.signature kind text = .ok text') : r.signature kind text' = .ok text' :=
  signature_signature hr.keepsLegible hr.class_idempotent hdot h

/-! ## Members and entries -/

theorem declaredName {kind : SymbolKind} {owner owner' : String} (h : r.type owner = .ok owner')
    (name descriptor descriptor' : String) :
    Edit.declaredName r kind owner' (Edit.declaredName r kind owner name descriptor) descriptor'
      = Edit.declaredName r kind owner name descriptor := by
  have hmethod := hr.method_final h name descriptor descriptor'
  cases kind with
  | ofField => exact hr.field_final h name descriptor descriptor'
  | ofClass | ofMethod => grind [Edit.declaredName]

theorem memberName {kind : RefKind} {owner owner' : String} (h : r.type owner = .ok owner')
    (name descriptor descriptor' : String) :
    Edit.memberName r kind owner' (Edit.memberName r kind owner name descriptor) descriptor'
      = Edit.memberName r kind owner name descriptor := by
  cases kind with
  | field => exact hr.field_final h name descriptor descriptor'
  | method | interfaceMethod => exact hr.method_final h name descriptor descriptor'

theorem referent {t t' : Referent} (h : t.rename r = .ok t') : t'.rename r = .ok t' := by
  cases t with
  | classRef name =>
    obtain ⟨name', hname, ⟨⟩⟩ := except_bind_eq_ok.mp h
    simp only [Referent.rename, (hr.type hname).1]
    rfl
  | memberRef kind owner name descriptor =>
    obtain ⟨owner', descriptor', howner, hd, rfl⟩ := Referent.rename_memberRef_eq_ok.mp h
    refine Referent.rename_memberRef_eq_ok.mpr
      ⟨owner', descriptor', (hr.type howner).1, hr.descriptor hd, ?_⟩
    rw [hr.memberName howner]
  | dynamic bootstrap name descriptor | invokeDynamic bootstrap name descriptor =>
    obtain ⟨descriptor', hd, ⟨⟩⟩ := except_bind_eq_ok.mp h
    simp only [Referent.rename, hr.descriptor hd, hr.dynamic_final]
    rfl
  | methodType descriptor =>
    obtain ⟨descriptor', hd, ⟨⟩⟩ := except_bind_eq_ok.mp h
    simp only [Referent.rename, hr.descriptor hd]
    rfl
  | module name =>
    cases h
    simp only [Referent.rename, hr.module_final]
    rfl
  | package name =>
    cases h
    simp only [Referent.rename, hr.package_final]
    rfl

end Renaming.IsFinal

/-! ## Environments whose names are final -/

namespace Environment

/-- Final names are not replaced, and they can be told apart from array types and from the text
around them. -/
structure NamesAreFinal (e : Environment) : Prop where
  baked : e.config.mode = .baked
  settled : ∀ ⦃kind name final⦄, e.table.get? kind name = some final →
    e.table.get? kind final = none ∨ e.table.get? kind final = some final
  class_key : ∀ ⦃name final⦄, e.table.get? .ofClass name = some final →
    name.startsWith "[" = false
  class_final : ∀ ⦃name final⦄, e.table.get? .ofClass name = some final →
    final ≠ "" ∧ final.startsWith "[" = false ∧
      ';' ∉ final.toList ∧ '<' ∉ final.toList ∧ '.' ∉ final.toList
  scope : ∀ start ∈ e.config.scope.starts, start.startsWith "[" = false

variable {e : Environment} {channels : Channels}

namespace NamesAreFinal

variable (he : e.NamesAreFinal)
include he

theorem newName_eq (kind : SymbolKind) (name : String) :
    e.newName channels kind name = (e.table.get? kind name).getD name := by
  simp only [newName, he.baked]

theorem newName_newName (kind : SymbolKind) (name : String) :
    e.newName channels kind (e.newName channels kind name) = e.newName channels kind name := by
  rw [he.newName_eq kind name, he.newName_eq]
  cases hname : e.table.get? kind name with
  | none => simp [hname]
  | some final => rcases he.settled hname with hfinal | hfinal <;> simp [hfinal]

theorem newNameIn_newName (kind : SymbolKind) (owner name : String) :
    e.newNameIn channels kind owner (e.newName channels kind name)
      = e.newName channels kind name := by
  unfold newNameIn
  split
  · exact he.newName_newName kind name
  · rfl

/-- A class has its own name or a final one. -/
theorem className_cases (channels : Channels) (name : String) :
    (e.toRenaming channels).className name = name ∨
    ∃ final, e.table.get? .ofClass name = some final ∧
      (e.toRenaming channels).className name = final := by
  simp only [toRenaming, newNameIn, he.newName_eq]
  cases e.table.get? .ofClass name <;> grind

/-- Starts that cover an array type cover every name. -/
theorem covers_of_isArrayName {name : String} (h : IsArrayName name)
    (hcovers : e.config.scope.covers name = true) (other : String) :
    e.config.scope.covers other = true := by
  obtain ⟨start, hstart, hname⟩ := List.any_eq_true.mp hcovers
  rw [String.startsWith_string_iff] at hname
  have hplain : ¬ IsArrayName start := by simp [IsArrayName, he.scope start hstart]
  rw [isArrayName_iff] at h hplain
  have hempty : start.toList = [] := by
    cases hchars : start.toList with
    | nil => rfl
    | cons c chars =>
      obtain ⟨rest, hrest⟩ := hname
      rw [hchars] at hrest hplain
      rw [← hrest] at h
      exact absurd h hplain
  refine List.any_eq_true.mpr ⟨start, hstart, ?_⟩
  rw [String.startsWith_string_iff, hempty]
  exact List.nil_prefix

/-- A member is not renamed again under the new name of its owner. -/
theorem newNameIn_newNameIn (kind : SymbolKind) {owner owner' : String}
    (h : (e.toRenaming channels).type owner = .ok owner') (name : String) :
    e.newNameIn channels kind owner' (e.newNameIn channels kind owner name)
      = e.newNameIn channels kind owner name := by
  by_cases hcovers : e.config.scope.covers owner = true
  · have hname : e.newNameIn channels kind owner name = e.newName channels kind name :=
      if_pos hcovers
    rw [hname]
    exact he.newNameIn_newName kind owner' name
  · -- outside the scope, the owner keeps its name, or it is an array and so is its new name
    have hname : e.newNameIn channels kind owner name = name := if_neg hcovers
    have hcovers' : ¬ e.config.scope.covers owner' = true := by
      unfold Renaming.type at h
      split at h
      case isTrue harray =>
        have harray' := Renaming.isArrayName_descriptor h harray
        exact fun h' => hcovers (he.covers_of_isArrayName harray' h' owner)
      case isFalse =>
        have hsame : (e.toRenaming channels).className owner = owner := if_neg hcovers
        cases h
        rwa [hsame]
    rw [hname]
    exact if_neg hcovers'

/-- The names that the environment gives are final. -/
theorem isFinal (channels : Channels) : (e.toRenaming channels).IsFinal where
  class_idempotent name := by
    rcases he.className_cases channels name with hsame | ⟨final, hfinal, hnew⟩
    · rw [hsame, hsame]
    · have hname : final = e.newName channels .ofClass name := by
        rw [he.newName_eq, hfinal]
        rfl
      rw [hnew, hname]
      exact he.newNameIn_newName .ofClass _ name
  class_legible name := by
    rcases he.className_cases channels name with hsame | ⟨final, hfinal, hnew⟩
    · exact .inl hsame
    · obtain ⟨hne, -, hsemicolon, hbracket, hdot⟩ := he.class_final hfinal
      refine .inr ⟨by simpa [hnew] using hne, fun c hc => ?_⟩
      rw [hnew] at hc
      grind [Signature.endsClassName]
  class_plain name hname := by
    rcases he.className_cases channels name with hsame | ⟨final, hfinal, hnew⟩
    · rwa [hsame]
    · simp [hnew, IsArrayName, (he.class_final hfinal).2.1]
  class_array name hname := by
    rcases he.className_cases channels name with hsame | ⟨final, hfinal, -⟩
    · exact hsame
    · exact absurd ((he.class_key hfinal).symm.trans hname) Bool.false_ne_true
  method_final _ _ h name _ _ := he.newNameIn_newNameIn .ofMethod h name
  field_final _ _ h name _ _ := he.newNameIn_newNameIn .ofField h name
  dynamic_final _ _ _ := rfl
  package_final _ := rfl
  module_final _ := rfl

end NamesAreFinal

end Environment

end Relabel
