import Relabel.Proofs.Signature.Rename

/-!
# Inner names that are kept

An inner class whose new binary name does not nest in the new name of the class around it keeps
its inner name. So it has a binary name that was never looked up, and a second run looks it up.
Under a renaming whose names are final, the second run changes nothing exactly if no inner name that
was kept is another one under that binary name.
-/

namespace Relabel

variable {r : Renaming}

/-! ## The names -/

section

variable (r : Renaming)

mutual

def ReferenceType.kept : ReferenceType → List (String × String)
  | .object type => type.kept
  | .variable _ => []
  | .array element => element.kept

def JavaType.kept : JavaType → List (String × String)
  | .base _ => []
  | .reference type => type.kept

def ClassType.kept : ClassType → List (String × String)
  | .of name parts => keptInParts name (r.className name) parts

/-- The inner names that are kept in the parts of the class that was `old` and is `new` now. -/
def keptInParts (old new : String) : List ClassPart → List (String × String)
  | [] => []
  | .arguments arguments :: parts => keptInArguments arguments ++ keptInParts old new parts
  | .inner name :: parts =>
    let binary := binaryName old name
    let name' := innerName new (r.className binary) name
    let others := keptInParts binary (binaryName new name') parts
    if r.className binary = binaryName new name' then others else (new, name) :: others

def keptInArguments : List TypeArgument → List (String × String)
  | [] => []
  | argument :: arguments => argument.kept ++ keptInArguments arguments

def TypeArgument.kept : TypeArgument → List (String × String)
  | .any => []
  | .exact type => type.kept
  | .upper type => type.kept
  | .lower type => type.kept

end

def TypeParameter.kept (p : TypeParameter) : List (String × String) :=
  p.classBound.toList.flatMap (ReferenceType.kept r)
    ++ p.interfaceBounds.flatMap (ReferenceType.kept r)

def ThrownType.kept : ThrownType → List (String × String)
  | .object type => type.kept r
  | .variable _ => []

/-- The inner names that are kept, each with the new name of the class around it. -/
def Signature.kept : Signature → List (String × String)
  | .ofClass parameters superclass interfaces =>
    parameters.flatMap (TypeParameter.kept r) ++ superclass.kept r
      ++ interfaces.flatMap (ClassType.kept r)
  | .ofMethod parameters arguments result thrown =>
    parameters.flatMap (TypeParameter.kept r) ++ arguments.flatMap (JavaType.kept r)
      ++ result.toList.flatMap (JavaType.kept r) ++ thrown.flatMap (ThrownType.kept r)
  | .ofField type => type.kept r

/-- The class `p.2` in `p.1` has no other inner name there. -/
def Renaming.KeepsInner (p : String × String) : Prop :=
  ∀ x ≠ "", r.className (binaryName p.1 p.2) = binaryName p.1 x → x = p.2

end

/-! ## The second run -/

theorem innerName_eq_iff {outer binary inner : String} :
    innerName outer binary inner = inner ↔ ∀ x ≠ "", binary = binaryName outer x → x = inner := by
  constructor
  · rintro h x hx rfl
    rwa [innerName_of_nested hx] at h
  · intro h
    obtain ⟨x, hx, hbinary, hinner⟩ | ⟨-, hinner⟩ := innerName_cases outer binary inner
    · rw [hinner, h x hx hbinary]
    · exact hinner

/-- A new inner name stays, unless it is the old one and has another name now. -/
theorem innerName_innerName_iff (hr : r.IsIdempotent) {old new inner inner' : String}
    (h : innerName new (r.className (binaryName old inner)) inner = inner') :
    innerName new (r.className (binaryName new inner')) inner' = inner' ↔
      (r.className (binaryName old inner) ≠ binaryName new inner' → r.KeepsInner (new, inner)) := by
  by_cases hnested : r.className (binaryName old inner) = binaryName new inner'
  · rw [← hnested, hr, hnested, innerName_binaryName]
    simp
  · have hkept : ∀ x ≠ "", r.className (binaryName old inner) ≠ binaryName new x := by
      intro x hx heq
      rw [heq, innerName_of_nested hx] at h
      exact hnested (h ▸ heq)
    obtain rfl : inner = inner' := by rw [← h, innerName_of_not_nested hkept]
    rw [innerName_eq_iff]
    exact ⟨fun h _ => h, fun h => h hnested⟩

mutual

theorem ReferenceType.rename_rename_iff (hr : r.IsIdempotent) (type : ReferenceType) :
    (type.rename r).rename r = type.rename r ↔ ∀ p ∈ type.kept r, r.KeepsInner p := by
  match type with
  | .object type =>
    rw [ReferenceType.kept, ← type.rename_rename_iff hr]
    simp only [ReferenceType.rename, ReferenceType.object.injEq]
  | .variable _ => simp [ReferenceType.rename, ReferenceType.kept]
  | .array element =>
    rw [ReferenceType.kept, ← element.rename_rename_iff hr]
    simp only [ReferenceType.rename, ReferenceType.array.injEq]

theorem JavaType.rename_rename_iff (hr : r.IsIdempotent) (type : JavaType) :
    (type.rename r).rename r = type.rename r ↔ ∀ p ∈ type.kept r, r.KeepsInner p := by
  match type with
  | .base _ => simp [JavaType.rename, JavaType.kept]
  | .reference type =>
    rw [JavaType.kept, ← type.rename_rename_iff hr]
    simp only [JavaType.rename, JavaType.reference.injEq]

theorem ClassType.rename_rename_iff (hr : r.IsIdempotent) (type : ClassType) :
    (type.rename r).rename r = type.rename r ↔ ∀ p ∈ type.kept r, r.KeepsInner p := by
  match type with
  | .of name parts =>
    rw [ClassType.kept, ← renameParts_renameParts_iff hr parts]
    simp only [ClassType.rename, hr name, ClassType.of.injEq, true_and]

/-- Behind the first run, the old and the new name of a class are the same. -/
theorem renameParts_renameParts_iff (hr : r.IsIdempotent) (parts : List ClassPart)
    {old new : String} : renameParts r new new (renameParts r old new parts)
      = renameParts r old new parts ↔ ∀ p ∈ keptInParts r old new parts, r.KeepsInner p := by
  match parts with
  | [] => simp [renameParts, keptInParts]
  | .arguments arguments :: parts =>
    rw [keptInParts, List.forall_mem_append, ← renameArguments_renameArguments_iff hr arguments,
      ← renameParts_renameParts_iff hr parts]
    simp only [renameParts, List.cons.injEq, ClassPart.arguments.injEq]
  | .inner inner :: parts =>
    let inner' := innerName new (r.className (binaryName old inner)) inner
    have hinner : innerName new (r.className (binaryName new inner')) inner' = inner' ↔ _ :=
      innerName_innerName_iff hr rfl
    have hboth : renameParts r new new (renameParts r old new (.inner inner :: parts))
          = renameParts r old new (.inner inner :: parts) ↔
        innerName new (r.className (binaryName new inner')) inner' = inner' ∧
          renameParts r (binaryName new inner') (binaryName new inner')
            (renameParts r (binaryName old inner) (binaryName new inner') parts)
            = renameParts r (binaryName old inner) (binaryName new inner') parts := by
      simp only [renameParts, List.cons.injEq, ClassPart.inner.injEq]
      exact and_congr_right fun h => by rw [h]
    rw [hboth, hinner, renameParts_renameParts_iff hr parts, keptInParts]
    split
    case isTrue hnested => exact and_iff_right fun hne => absurd hnested hne
    case isFalse hnested => simp [inner', hnested]

theorem renameArguments_renameArguments_iff (hr : r.IsIdempotent) (arguments : List TypeArgument) :
    renameArguments r (renameArguments r arguments) = renameArguments r arguments ↔
      ∀ p ∈ keptInArguments r arguments, r.KeepsInner p := by
  match arguments with
  | [] => simp [renameArguments, keptInArguments]
  | argument :: arguments =>
    rw [keptInArguments, List.forall_mem_append, ← argument.rename_rename_iff hr,
      ← renameArguments_renameArguments_iff hr arguments]
    simp only [renameArguments, List.cons.injEq]

theorem TypeArgument.rename_rename_iff (hr : r.IsIdempotent) (argument : TypeArgument) :
    (argument.rename r).rename r = argument.rename r ↔
      ∀ p ∈ argument.kept r, r.KeepsInner p := by
  match argument with
  | .any => simp [TypeArgument.rename, TypeArgument.kept]
  | .exact type =>
    rw [TypeArgument.kept, ← type.rename_rename_iff hr]
    simp only [TypeArgument.rename, TypeArgument.exact.injEq]
  | .upper type =>
    rw [TypeArgument.kept, ← type.rename_rename_iff hr]
    simp only [TypeArgument.rename, TypeArgument.upper.injEq]
  | .lower type =>
    rw [TypeArgument.kept, ← type.rename_rename_iff hr]
    simp only [TypeArgument.rename, TypeArgument.lower.injEq]

end

/-! ### Signatures -/

section

variable {α : Type} {f : α → α} {kept : α → List (String × String)}
  (h : ∀ a, f (f a) = f a ↔ ∀ p ∈ kept a, r.KeepsInner p)
include h

theorem map_map_iff {as : List α} :
    (as.map f).map f = as.map f ↔ ∀ p ∈ as.flatMap kept, r.KeepsInner p := by
  rw [List.map_map, List.map_inj_left, List.forall_mem_flatMap]
  exact forall₂_congr fun a _ => h a

theorem optionMap_map_iff {a : Option α} :
    (a.map f).map f = a.map f ↔ ∀ p ∈ a.toList.flatMap kept, r.KeepsInner p := by
  cases a with
  | none => simp
  | some a => simpa using h a

end

variable (hr : r.IsIdempotent)
include hr

theorem TypeParameter.rename_rename_iff (p : TypeParameter) :
    (p.rename r).rename r = p.rename r ↔ ∀ q ∈ p.kept r, r.KeepsInner q := by
  rw [TypeParameter.kept, List.forall_mem_append,
    ← optionMap_map_iff (ReferenceType.rename_rename_iff hr),
    ← map_map_iff (ReferenceType.rename_rename_iff hr)]
  simp only [TypeParameter.rename, TypeParameter.mk.injEq, true_and]

theorem ThrownType.rename_rename_iff (type : ThrownType) :
    (type.rename r).rename r = type.rename r ↔ ∀ p ∈ type.kept r, r.KeepsInner p := by
  match type with
  | .object type =>
    rw [ThrownType.kept, ← type.rename_rename_iff hr]
    simp only [ThrownType.rename, ThrownType.object.injEq]
  | .variable _ => simp [ThrownType.rename, ThrownType.kept]

theorem Signature.rename_rename_iff (s : Signature) :
    (s.rename r).rename r = s.rename r ↔ ∀ p ∈ s.kept r, r.KeepsInner p := by
  match s with
  | .ofClass parameters superclass interfaces =>
    rw [Signature.kept, List.forall_mem_append, List.forall_mem_append,
      ← map_map_iff (TypeParameter.rename_rename_iff hr), ← superclass.rename_rename_iff hr,
      ← map_map_iff (ClassType.rename_rename_iff hr)]
    simp only [Signature.rename, Signature.ofClass.injEq, and_assoc]
  | .ofMethod parameters arguments result thrown =>
    rw [Signature.kept, List.forall_mem_append, List.forall_mem_append, List.forall_mem_append,
      ← map_map_iff (TypeParameter.rename_rename_iff hr),
      ← map_map_iff (JavaType.rename_rename_iff hr),
      ← optionMap_map_iff (JavaType.rename_rename_iff hr),
      ← map_map_iff (ThrownType.rename_rename_iff hr)]
    simp only [Signature.rename, Signature.ofMethod.injEq, and_assoc]
  | .ofField type =>
    rw [Signature.kept, ← type.rename_rename_iff hr]
    simp only [Signature.rename, Signature.ofField.injEq]

/-- Under a renaming whose names are legible and final, a signature that was renamed is not changed
again exactly if no inner name that was kept has another name in the class that is around it now. -/
theorem Renaming.signature_signature_iff (hlegible : r.KeepsLegible) {kind : SymbolKind}
    {text text' : String} (h : r.signature kind text = .ok text') :
    ∃ s, Signature.parse kind text = .ok s ∧ (r.signature kind text' = .ok text' ↔
      ∀ p ∈ s.kept r, ∀ x ≠ "", r.className (binaryName p.1 p.2) = binaryName p.1 x → x = p.2) := by
  obtain ⟨s, hparse, rfl⟩ := signature_eq_ok_iff.mp h
  have hs := (Signature.parse_eq_ok hparse).2
  have hs' := hs.rename hlegible
  have hsame : r.signature kind (s.rename r).print = .ok (s.rename r).print ↔
      ((s.rename r).rename r).print = (s.rename r).print := by
    rw [signature_eq_ok_iff, Signature.parse_print hs']
    simp
  rw [Signature.print_inj (hs'.rename hlegible) hs', s.rename_rename_iff hr] at hsame
  exact ⟨s, hparse, hsame⟩

omit hr

/-! ## A name that is looked up late -/

/-- Renames `A` to `B` and the inner class `I` of `B` to `J`; all other classes become `C`. -/
def lateRenaming : Renaming :=
  { Renaming.identity with
    className := fun name =>
      if name = "A" ∨ name = "B" then "B"
      else if name = "B$I" ∨ name = "B$J" then "B$J" else "C" }

theorem className_lateRenaming (name : String) : lateRenaming.className name = "B" ∨
    lateRenaming.className name = "B$J" ∨ lateRenaming.className name = "C" := by
  change ite _ _ _ = _ ∨ ite _ _ _ = _ ∨ ite _ _ _ = _
  grind

theorem isIdempotent_lateRenaming : lateRenaming.IsIdempotent := by
  intro name
  obtain h | h | h := className_lateRenaming name <;> rw [h] <;> decide +kernel

theorem isClassName_lateRenaming (name : String) :
    IsClassName (lateRenaming.className name) := by
  obtain h | h | h := className_lateRenaming name <;> rw [h] <;> decide +kernel

/-- `K` is kept in `B`, and it has no other name there. -/
theorem Renaming.signature_signature_lateRenaming :
    lateRenaming.IsIdempotent ∧ lateRenaming.KeepsLegible ∧
      lateRenaming.signature .ofField "LA<LB.I;>.K;" = .ok "LB<LB.J;>.K;" ∧
      lateRenaming.signature .ofField "LB<LB.J;>.K;" = .ok "LB<LB.J;>.K;" := by
  have hidem := isIdempotent_lateRenaming
  have hlegible : lateRenaming.KeepsLegible := fun name _ => isClassName_lateRenaming name
  have hfirst : lateRenaming.signature .ofField "LA<LB.I;>.K;" = .ok "LB<LB.J;>.K;" := by
    decide +kernel
  obtain ⟨s, hparse, hsecond⟩ := Renaming.signature_signature_iff hidem hlegible hfirst
  have hkept : (Signature.parse .ofField "LA<LB.I;>.K;").toOption.map (Signature.kept lateRenaming)
      = some [("B", "K")] := by decide +kernel
  rw [hparse] at hkept
  obtain hkept : s.kept lateRenaming = [("B", "K")] := Option.some.inj hkept
  refine ⟨hidem, hlegible, hfirst, hsecond.mpr ?_⟩
  rw [hkept, List.forall_mem_singleton]
  intro x hx heq
  have hnew : lateRenaming.className (binaryName "B" "K") = "C" := by decide +kernel
  have hchars := congrArg String.toList (hnew.symm.trans heq)
  rw [toList_binaryName] at hchars
  cases hchars

/-- `I` is kept in `B`, although `B$I` is `B$J`. -/
theorem Renaming.not_signature_signature : ¬ ∀ r : Renaming, r.IsIdempotent →
    (∀ name, IsClassName (r.className name)) → ∀ kind text text',
      r.signature kind text = .ok text' → r.signature kind text' = .ok text' := by
  intro h
  have hfirst : lateRenaming.signature .ofField "LA.I;" = .ok "LB.I;" := by decide +kernel
  have hsecond : lateRenaming.signature .ofField "LB.I;" = .ok "LB.J;" := by decide +kernel
  have hsame :=
    h lateRenaming isIdempotent_lateRenaming isClassName_lateRenaming .ofField _ _ hfirst
  rw [hsecond] at hsame
  exact absurd (Except.ok.inj hsame) (by decide +kernel)

end Relabel
