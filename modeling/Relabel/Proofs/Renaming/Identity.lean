import Relabel.Proofs.Descriptor
import Relabel.Proofs.Edit.Idle
import Relabel.Proofs.Renaming.Stored
import Relabel.Proofs.Signature.Rename

/-!
# Renamings that keep all names

A renaming that keeps all names keeps descriptors and signatures, which are printed as they
were read. So every edit of it is idle: it changes and counts nothing, and the class file is
stored as it was.
-/

namespace Relabel

/-- The renaming keeps every name. -/
structure Renaming.IsIdentity (r : Renaming) : Prop where
  className : ∀ name, r.className name = name
  methodName : ∀ owner name descriptor, r.methodName owner name descriptor = name
  fieldName : ∀ owner name descriptor, r.fieldName owner name descriptor = name
  dynamicName : ∀ name descriptor, r.dynamicName name descriptor = name
  packageName : ∀ name, r.packageName name = name
  moduleName : ∀ name, r.moduleName name = name

theorem Renaming.isIdentity_identity : identity.IsIdentity :=
  ⟨fun _ => rfl, fun _ _ _ => rfl, fun _ _ _ => rfl, fun _ _ => rfl, fun _ => rfl, fun _ => rfl⟩

/-! ## Texts -/

variable {r : Renaming}

theorem Descriptor.rename_self (hr : r.IsIdentity) (d : Descriptor) : d.rename r = d := by
  obtain ⟨segments, tail⟩ := d
  simp [rename, hr.className]

mutual

theorem ReferenceType.rename_self (hr : r.IsIdentity) (type : ReferenceType) :
    type.rename r = type := by
  match type with
  | .object type => exact congrArg ReferenceType.object (type.rename_self hr)
  | .variable _ => rfl
  | .array element => exact congrArg ReferenceType.array (element.rename_self hr)

theorem JavaType.rename_self (hr : r.IsIdentity) (type : JavaType) : type.rename r = type := by
  match type with
  | .base _ => rfl
  | .reference type => exact congrArg JavaType.reference (type.rename_self hr)

theorem ClassType.rename_self (hr : r.IsIdentity) (type : ClassType) : type.rename r = type := by
  match type with
  | .of name parts => rw [ClassType.rename, hr.className, renameParts_self hr name parts]

/-- The binary name of an inner class is taken apart as it was put together. -/
theorem renameParts_self (hr : r.IsIdentity) (name : String) (parts : List ClassPart) :
    renameParts r name name parts = parts := by
  match parts with
  | [] => rfl
  | .arguments arguments :: parts =>
    rw [renameParts, renameArguments_self hr arguments, renameParts_self hr name parts]
  | .inner inner :: parts =>
    rw [renameParts, hr.className, innerName_binaryName, renameParts_self hr _ parts]

theorem renameArguments_self (hr : r.IsIdentity) (arguments : List TypeArgument) :
    renameArguments r arguments = arguments := by
  match arguments with
  | [] => rfl
  | argument :: arguments =>
    rw [renameArguments, argument.rename_self hr, renameArguments_self hr arguments]

theorem TypeArgument.rename_self (hr : r.IsIdentity) (argument : TypeArgument) :
    argument.rename r = argument := by
  match argument with
  | .any => rfl
  | .exact type => exact congrArg TypeArgument.exact (type.rename_self hr)
  | .upper type => exact congrArg TypeArgument.upper (type.rename_self hr)
  | .lower type => exact congrArg TypeArgument.lower (type.rename_self hr)

end

theorem TypeParameter.rename_self (hr : r.IsIdentity) (p : TypeParameter) : p.rename r = p := by
  have hbounds : ReferenceType.rename r = id := funext (ReferenceType.rename_self hr)
  simp [rename, hbounds]

theorem ThrownType.rename_self (hr : r.IsIdentity) (type : ThrownType) : type.rename r = type := by
  match type with
  | .object type => exact congrArg ThrownType.object (type.rename_self hr)
  | .variable _ => rfl

theorem Signature.rename_self (hr : r.IsIdentity) (s : Signature) : s.rename r = s := by
  have hparameters : TypeParameter.rename r = id := funext (TypeParameter.rename_self hr)
  match s with
  | .ofClass parameters superclass interfaces =>
    have hclasses : ClassType.rename r = id := funext (ClassType.rename_self hr)
    simp [rename, hparameters, hclasses]
  | .ofMethod parameters arguments result thrown =>
    have htypes : JavaType.rename r = id := funext (JavaType.rename_self hr)
    have hthrown : ThrownType.rename r = id := funext (ThrownType.rename_self hr)
    simp [rename, hparameters, htypes, hthrown]
  | .ofField type => exact congrArg Signature.ofField (type.rename_self hr)

namespace Renaming.IsIdentity

variable (hr : r.IsIdentity) {text text' : String}
include hr

theorem descriptor (h : r.descriptor text = .ok text') : text' = text := by
  obtain ⟨d, hd, h⟩ := except_bind_eq_ok.mp h
  have hprint := except_pure_eq_ok.mp h
  rw [d.rename_self hr, (Descriptor.parse_eq_ok hd).2] at hprint
  exact hprint.symm

theorem type (h : r.type text = .ok text') : text' = text := by
  unfold Renaming.type at h
  split at h
  case isTrue => exact hr.descriptor h
  case isFalse => exact (Except.ok.inj h).symm.trans (hr.className text)

theorem signature {kind : SymbolKind} (h : r.signature kind text = .ok text') : text' = text := by
  obtain ⟨s, hs, h⟩ := except_bind_eq_ok.mp h
  have hprint := except_pure_eq_ok.mp h
  rw [s.rename_self hr, (Signature.parse_eq_ok hs).1] at hprint
  exact hprint.symm

theorem declaredName (kind : SymbolKind) (owner name descriptor : String) :
    Edit.declaredName r kind owner name descriptor = name := by
  unfold Edit.declaredName
  split
  case h_1 => exact hr.fieldName owner name descriptor
  case h_2 =>
    split
    · rfl
    · exact hr.methodName owner name descriptor

theorem memberName (kind : RefKind) (owner name descriptor : String) :
    Edit.memberName r kind owner name descriptor = name := by
  cases kind with
  | field => exact hr.fieldName owner name descriptor
  | method | interfaceMethod => exact hr.methodName owner name descriptor

end Renaming.IsIdentity

/-! ## Edits -/

namespace Edit

section

variable {α β γ : Type} {view : α → β} (hr : r.IsIdentity)
include hr

theorem idle_renamedPair?_bind {name name' descriptor : String} {k : Option UInt16 → Edit α γ}
    (hname : name' = name) (h : Idle view (k none)) :
    Idle view (renamedPair? r name descriptor name' >>= k) := by
  rw [renamedPair?, bind_assoc]
  refine idle_ofFlaw_bind fun descriptor' hd => ?_
  rw [if_pos ⟨hname, hr.descriptor hd⟩, pure_bind]
  exact h

omit hr in
theorem idle_renamedText?_bind {text text' : String} {k : Option UInt16 → Edit α γ}
    (htext : text' = text) (h : Idle view (k none)) :
    Idle view (renamedText? text text' >>= k) := by
  rw [renamedText?, if_pos htext, pure_bind]
  exact h

theorem idle_repointPair (i m : UInt16) (build : UInt16 → Constant) (add : Tally → Tally)
    {newName : (name descriptor : String) → String}
    (hname : ∀ name descriptor, newName name descriptor = name) :
    Idle view (repointPair r i build add m newName : Edit α Unit) :=
  .bind (within_look _) fun (name, descriptor) =>
    idle_renamedPair?_bind hr (hname name descriptor) (.pure ())

omit hr in
theorem idle_repointText (i m : UInt16) (build : UInt16 → Constant) (add : Tally → Tally)
    {newText : String → Except Flaw String}
    (htext : ∀ text text', newText text = .ok text' → text' = text) :
    Idle view (repointText i build add m newText : Edit α Unit) :=
  .bind (within_look _) fun text => idle_ofFlaw_bind fun text' h =>
    idle_renamedText?_bind (htext text text' h) (.pure ())

theorem idle_renameReference (i : UInt16) : Idle view (renameReference r i : Edit α Unit) := by
  refine .bind (within_query _) fun entry => ?_
  split
  case h_1 =>
    exact .bind (within_look _) fun owner => idle_repointPair hr _ _ _ _ (hr.memberName _ owner)
  case h_2 | h_3 => exact idle_repointPair hr _ _ _ _ hr.dynamicName
  case h_4 => exact idle_repointText _ _ _ _ fun _ _ => hr.descriptor
  case h_5 => exact idle_repointText _ _ _ _ fun _ _ h => Except.ok.inj h ▸ hr.moduleName _
  case h_6 => exact idle_repointText _ _ _ _ fun _ _ h => Except.ok.inj h ▸ hr.packageName _
  case h_7 => exact .pure ()

theorem idle_renameClassEntry (i : UInt16) : Idle view (renameClassEntry r i : Edit α Unit) := by
  refine .bind (within_query _) fun entry => ?_
  split
  case h_1 => exact idle_repointText _ _ _ _ fun _ _ => hr.type
  case h_2 => exact .pure ()

theorem walks_idle : Walk.Walks (Focus.Same Tape.bytes) r where
  note := idle_note
  pass := Walk.idle_pass
  within _ n hw := Walk.idle_within hw n
  descriptorSlot := by
    refine .bind Walk.idle_word fun index : UInt16 => .bind (within_look _) fun text => ?_
    refine idle_ofFlaw_bind fun text' h => ?_
    rw [if_neg (not_not.mpr (hr.descriptor h))]
    exact .pure ()
  signatureSlot kind := by
    refine .bind Walk.idle_word fun index : UInt16 => .bind (within_look _) fun text => ?_
    split
    case h_1 h =>
      rw [if_neg (not_not.mpr (hr.signature h))]
      exact .pure ()
    case h_2 => exact idle_note _
  innerClass := by
    refine .bind Walk.idle_word fun index : UInt16 => .bind (Walk.idle_skip _) fun _ => ?_
    refine .bind Walk.idle_word fun slot : UInt16 => .bind (Walk.idle_skip _) fun _ => ?_
    refine .ite (.bind (within_look _) fun old => .bind (within_look _) fun simple => ?_) (.pure ())
    rw [Walk.newSimpleName?, if_pos (hr.className old)]
    exact .pure ()

theorem idle_renameAttribute (kind : SymbolKind) : Idle id (renameAttribute r kind) :=
  .bind within_item fun _ => .bind (within_look _) fun name =>
    idle_payload ((walks_idle hr).payload maxNesting kind name)

theorem idle_enclosingMethodPayload : Idle Tape.bytes (enclosingMethodPayload r) := by
  refine .bind within_item fun t => .ite (.throw_bind _ _) ?_
  refine .bind Walk.idle_word fun j : UInt16 => .bind Walk.idle_word fun m : UInt16 => ?_
  refine .ite (.bind (within_look _) fun owner => .bind (within_look _) ?_) (.pure ())
  intro (name, descriptor)
  exact idle_renamedPair?_bind hr (hr.methodName owner name descriptor) (.pure ())

theorem idle_renameEnclosingMethod : Idle id (renameEnclosingMethod r) :=
  .bind within_item fun _ => .bind (within_look _) fun _ =>
    .ite (idle_payload (idle_enclosingMethodPayload hr)) (.pure ())

omit hr in
theorem idle_renameText (put : UInt16 → α → α) {text text' : String} (htext : text' = text) :
    Idle view (renameText put text text') :=
  idle_renamedText?_bind htext (.pure ())

theorem idle_renameMember (kind : SymbolKind) (owner : String) :
    Idle id (renameMember r kind owner) := by
  refine .bind within_item fun m => .bind (within_look _) fun name => ?_
  refine .bind (within_look _) fun descriptor => idle_ofFlaw_bind fun descriptor' hd => ?_
  have hname := hr.declaredName kind owner name descriptor
  have hdescriptor := hr.descriptor hd
  refine .bind (idle_renameText _ hname) fun _ => .bind (idle_renameText _ hdescriptor) fun _ => ?_
  rw [if_neg (by simp [hname, hdescriptor])]
  exact idle_part (idle_each (idle_renameAttribute hr kind)) fun _ => rfl

theorem idle_renameAll (owner : String) (slots : Nat) : Idle id (renameAll r owner slots) := by
  refine .bind (within_timesFrom fun _ _ _ => idle_renameReference hr _) fun _ => ?_
  have hmembers (kind : SymbolKind) := idle_each (idle_renameMember hr kind owner)
  refine .bind (idle_part (hmembers .ofField) fun _ => rfl) fun _ => ?_
  refine .bind (idle_part (hmembers .ofMethod) fun _ => rfl) fun _ => ?_
  refine .bind (idle_part (.bind (idle_each (idle_renameEnclosingMethod hr)) fun _ =>
    idle_each (idle_renameAttribute hr .ofClass)) fun _ => rfl) fun _ => ?_
  exact within_timesFrom fun _ _ _ => idle_renameClassEntry hr _

end

end Edit

/-! ## Class files -/

namespace ClassFile

variable {data : List UInt8} {c c' : ClassFile}

/-- All that a renaming which keeps every name leaves behind are notices, also if it fails. -/
theorem rename_self (hr : r.IsIdentity) (c : ClassFile) :
    (c.rename r).file = c ∧ (c.rename r).tally = {} := by
  obtain ⟨f, hfile, htally, hsame⟩ := rename_within c fun owner => Edit.idle_renameAll hr owner _
  have hitem : f.item = c.declarations := hsame.item
  refine ⟨?_, htally.trans hsame.tally⟩
  rw [hfile, edited, hsame.pool, hitem]

/-- What is encoded is what was decoded, as each part of a class file is read exactly. -/
theorem encode_of_rename_self (hr : r.IsIdentity) (hdecode : decode data = .ok c)
    (h : (c.rename r).result = .ok c') : c'.encode = .ok data := by
  obtain ⟨-, _, hread, hend⟩ := decode_eq_ok hdecode
  obtain ⟨front, hfront, hrest⟩ := exact_readLayout hread
  have hdata : data = front := by
    rw [hend, List.append_nil] at hrest
    exact hrest
  rw [← Renamed.file_of_result h, (rename_self hr c).1, hfront, hdata]

end ClassFile

end Relabel
