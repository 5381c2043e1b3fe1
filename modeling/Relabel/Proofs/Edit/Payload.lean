import Relabel.Edit.Payload
import Relabel.Proofs.Edit.Frame

/-!
# What walks stay within

Layouts are built from bytes that are passed, slots, and parts that are walked over on
their own. A walk over a payload stays within a relation if these do.
-/

namespace Relabel

/-- The attributes whose payloads are walked over. -/
def AttributeName.walked : List String :=
  [signature, annotationDefault, code, localVariables, localVariableTypes, record, innerClasses]
    ++ annotations ++ parameterAnnotations ++ typeAnnotations

end Relabel

namespace Relabel.Walk

/-! ## Moving over the tape -/

theorem pass_of_length {n : Nat} {passed front rest : List UInt8} {f : Focus Tape}
    (hitem : f.item = ⟨passed, front ++ rest⟩) (hlen : front.length = n) :
    pass n f = .ok front { f with item := ⟨front.reverseAux passed, rest⟩ } := by
  obtain ⟨item, pool, tally, notices⟩ := f
  subst hitem hlen
  simp [pass]

/-- A word that stands ahead is passed as a whole. -/
theorem word_of_bytes {α : Type} [Word α] (x : α) {passed rest : List UInt8} {f : Focus Tape}
    (hitem : f.item = ⟨passed, Word.bytes x ++ rest⟩) :
    (word : Edit Tape α) f = .ok x { f with item := ⟨(Word.bytes x).reverseAux passed, rest⟩ } :=
  bind_eq_ok.mpr ⟨_, _, pass_of_length hitem (Word.length_bytes x),
    pure_eq_ok.mpr ⟨Word.ofBytes_bytes x, rfl⟩⟩

/-! ## Layouts -/

/-- What layouts are built from stays within the relation. -/
structure Walks (S : Focus Tape → Focus Tape → Prop) (r : Renaming) : Prop where
  note : ∀ notice, Within S (Edit.note notice)
  pass : ∀ n, Within S (pass n)
  descriptorSlot : Within S (descriptorSlot r)
  signatureSlot : ∀ kind, Within S (signatureSlot r kind)
  innerClass : Within S (innerClass r)
  within : ∀ ⦃w⦄ n, Within S w → Within S (within n w)

namespace Walks

variable {S : Focus Tape → Focus Tape → Prop} [IsPreorder (Focus Tape) S] {r : Renaming}
  (h : Walks S r)
include h

theorem skip (n : Nat) : Within S (skip n) := .bind (h.pass n) fun _ => .pure ()

theorem word {α : Type} [Word α] : Within S (word : Edit Tape α) :=
  .bind (h.pass _) fun _ => .pure _

theorem counted {w : Walk} (hw : Within S w) : Within S (counted w) :=
  .bind h.word fun n : UInt16 => Edit.within_times hw n.toNat

omit h in
theorem tooDeep : Within S tooDeep := .throw _

theorem annotated {value : Walk} (hvalue : Within S value) :
    Within S (annotated r value) :=
  .bind h.descriptorSlot fun _ => h.counted (.bind (h.skip _) fun _ => hvalue)

theorem element {nested array : Walk} (hnested : Within S nested)
    (harray : Within S array) : Within S (element r nested array) := by
  refine .bind h.word ?_
  intro tag
  split
  case h_10 => exact .bind h.descriptorSlot fun _ => h.skip _
  case h_11 => exact h.descriptorSlot
  case h_12 => exact hnested
  case h_13 => exact harray
  case h_14 => exact .throw _
  all_goals exact h.skip _

/-- The induction is on the levels that are left, as the recursion of the walk is. -/
theorem elementValue (levels : Nat) : Within S (elementValue r levels) := by
  induction levels with
  | zero => exact h.element tooDeep tooDeep
  | succ levels ih => exact h.element (h.annotated ih) (h.counted ih)

theorem annotations (levels : Nat) : Within S (annotations r levels) :=
  h.counted (h.annotated (h.elementValue levels))

theorem parameterAnnotations (levels : Nat) : Within S (parameterAnnotations r levels) :=
  .bind h.word fun n : UInt8 => Edit.within_times (h.annotations levels) n.toNat

theorem targetSize (tag : UInt8) : Within S (targetSize tag) := by
  unfold Walk.targetSize
  dsimp only
  repeat' split
  case isFalse => exact .throw _
  all_goals first
    | exact .pure _
    | exact .bind h.word fun _ => .pure _

theorem annotatedType (levels : Nat) : Within S (annotatedType r levels) := by
  refine .bind h.word fun tag => .bind (h.targetSize tag) fun _ => ?_
  refine .bind (h.skip _) fun _ => .bind h.word fun path => ?_
  exact .bind (h.skip _) fun _ => h.annotated (h.elementValue levels)

theorem table {payload : String → Walk} (hpayload : ∀ name, Within S (payload name)) :
    Within S (table payload) := by
  refine h.counted (.bind h.word fun _ => .bind h.word fun size => ?_)
  exact h.within _ (.bind (Edit.within_look _) fun name => hpayload name)

theorem code {attributes : Walk} (hattributes : Within S attributes) :
    Within S (code attributes) := by
  refine .bind (h.skip _) fun _ => .bind h.word fun _ => .bind (h.skip _) fun _ => ?_
  exact .bind h.word fun _ => .bind (h.skip _) fun _ => hattributes

theorem localVariables {slot : Walk} (hslot : Within S slot) :
    Within S (localVariables slot) :=
  h.counted (.bind (h.skip _) fun _ => .bind hslot fun _ => h.skip _)

theorem record {attributes : Walk} (hattributes : Within S attributes) :
    Within S (record r attributes) :=
  h.counted (.bind (h.skip _) fun _ => .bind h.descriptorSlot fun _ => hattributes)

theorem signature (kind : SymbolKind) : Within S (signature r kind) := by
  refine .bind Edit.within_item ?_
  intro t
  split
  case h_2 => exact h.note _
  case h_1 =>
    refine .bind (Edit.within_query _) ?_
    intro text
    split
    case h_1 => exact h.signatureSlot kind
    case h_2 => exact h.note _

theorem layout (levels : Nat) {attributes : Walk} (hattributes : Within S attributes)
    (kind : SymbolKind) (name : String) :
    Within S (layout r levels attributes kind name) := by
  refine .ite (h.signature kind) (.ite (h.annotations levels) ?_)
  refine .ite (h.parameterAnnotations levels) (.ite (h.counted (h.annotatedType levels)) ?_)
  refine .ite (h.elementValue levels) (.ite (h.code hattributes) ?_)
  refine .ite (h.localVariables h.descriptorSlot) ?_
  refine .ite (h.localVariables (h.signatureSlot .ofField)) ?_
  exact .ite (h.record hattributes) (.ite (h.counted h.innerClass) (.pure ()))

theorem payload (levels : Nat) (kind : SymbolKind) (name : String) :
    Within S (payload r levels kind name) := by
  induction levels generalizing kind name with
  | zero => exact h.layout 0 tooDeep kind name
  | succ levels ih => exact h.layout _ (h.table (ih .ofField)) kind name

end Walks

theorem layout_of_annotations (r : Renaming) (levels : Nat) (attributes : Walk)
    (kind : SymbolKind) {name : String} (h : name ∈ AttributeName.annotations) :
    layout r levels attributes kind name = annotations r levels := by
  rcases List.mem_pair.mp h with rfl | rfl <;> rfl

theorem layout_of_parameterAnnotations (r : Renaming) (levels : Nat) (attributes : Walk)
    (kind : SymbolKind) {name : String} (h : name ∈ AttributeName.parameterAnnotations) :
    layout r levels attributes kind name = parameterAnnotations r levels := by
  rcases List.mem_pair.mp h with rfl | rfl <;> rfl

theorem layout_of_typeAnnotations (r : Renaming) (levels : Nat) (attributes : Walk)
    (kind : SymbolKind) {name : String} (h : name ∈ AttributeName.typeAnnotations) :
    layout r levels attributes kind name = counted (annotatedType r levels) := by
  rcases List.mem_pair.mp h with rfl | rfl <;> rfl

/-- Attributes of other names are passed by. -/
theorem layout_of_not_mem (r : Renaming) (levels : Nat) (attributes : Walk) (kind : SymbolKind)
    {name : String} (h : name ∉ AttributeName.walked) :
    layout r levels attributes kind name = pure () := by
  simp only [AttributeName.walked, List.mem_append, not_or, List.mem_cons, List.not_mem_nil] at h
  simp [layout, h]

theorem payload_of_not_mem (r : Renaming) (levels : Nat) (kind : SymbolKind) {name : String}
    (h : name ∉ AttributeName.walked) : payload r levels kind name = pure () := by
  cases levels <;> exact layout_of_not_mem r _ _ kind h

end Relabel.Walk
