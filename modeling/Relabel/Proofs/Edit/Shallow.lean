import Relabel.Edit.Payload
import Relabel.Proofs.Descriptor.Scan
import Relabel.Proofs.Outcome
import Relabel.Proofs.Pool.Step

/-!
# Walks that do not look at the nesting

Only the walks below the deepest level are rejected for their nesting. A slot is never: its
faults are those of the pool, of the payload's size and of the text that it leads to.
-/

namespace Relabel

/-- The run was rejected because of its nesting. -/
def Rejected {σ α : Type} (result : EStateM.Result Fault σ α) : Prop :=
  ∃ s, result = .error (.malformed .nesting) s

/-- No run is rejected because of its nesting. -/
def Shallow {σ α : Type} (x : EStateM Fault σ α) : Prop := ∀ s, ¬ Rejected (x s)

namespace Shallow

variable {σ α β : Type}

protected theorem pure (a : α) : Shallow (pure a : EStateM Fault σ α) := by
  rintro s ⟨s', ⟨⟩⟩

protected theorem throw {fault : Fault} (h : fault ≠ .malformed .nesting) :
    Shallow (throw fault : EStateM Fault σ α) := by
  rintro s ⟨s', hs⟩
  cases hs
  exact h rfl

protected theorem bind {x : EStateM Fault σ α} {f : α → EStateM Fault σ β} (hx : Shallow x)
    (hf : ∀ a, Shallow (f a)) : Shallow (x >>= f) := by
  rintro s ⟨s', hs⟩
  obtain hs | ⟨a, t, -, hs⟩ := bind_eq_error.mp hs
  · exact hx s ⟨s', hs⟩
  · exact hf a t ⟨s', hs⟩

protected theorem ite {c : Prop} [Decidable c] {x y : EStateM Fault σ α} (hx : Shallow x)
    (hy : Shallow y) : Shallow (if c then x else y) := by
  split
  · exact hx
  · exact hy

end Shallow

/-! ## The pool -/

namespace Pool

variable {p : Pool} {i : UInt16}

theorem get_ne_nesting : p.get i ≠ .error (.malformed .nesting) := by
  unfold get
  split <;> nofun

theorem utf8_ne_nesting : p.utf8 i ≠ .error (.malformed .nesting) := by
  unfold utf8
  cases hget : p.get i with
  | error fault =>
    intro h
    cases h
    exact get_ne_nesting hget
  | ok c => cases c <;> nofun

theorem className_ne_nesting : p.className i ≠ .error (.malformed .nesting) := by
  unfold className
  cases hget : p.get i with
  | error fault =>
    intro h
    cases h
    exact get_ne_nesting hget
  | ok c =>
    cases c
    case classRef name => exact utf8_ne_nesting
    all_goals nofun

theorem shallow_internUtf8 (text : String) : Shallow (internUtf8 text) := by
  rintro p ⟨q, hq⟩
  obtain ⟨-, n, hn⟩ := intern_eq_error hq
  cases hn

end Pool

/-! ## Edits and slots -/

namespace Edit

variable {α β : Type}

theorem shallow_item : Shallow (item : Edit α α) := by
  rintro f ⟨f', ⟨⟩⟩

theorem shallow_modifyItem (change : α → α) : Shallow (modifyItem change) := by
  rintro f ⟨f', ⟨⟩⟩

theorem shallow_count (add : Tally → Tally) : Shallow (count add : Edit α Unit) := by
  rintro f ⟨f', ⟨⟩⟩

theorem shallow_note (notice : Notice) : Shallow (note notice : Edit α Unit) := by
  rintro f ⟨f', ⟨⟩⟩

theorem shallow_query (q : Pool → β) : Shallow (query q : Edit α β) := by
  rintro f ⟨f', ⟨⟩⟩

theorem shallow_look {q : Pool → Except Fault β} (h : ∀ p, q p ≠ .error (.malformed .nesting)) :
    Shallow (look q : Edit α β) := by
  rintro f ⟨f', hf⟩
  have hlook : (look q : Edit α β) f = (ofExcept (q f.pool) : Edit α β) f := rfl
  rw [hlook] at hf
  cases hq : q f.pool with
  | ok b =>
    rw [hq] at hf
    cases hf
  | error fault =>
    rw [hq] at hf
    cases hf
    exact h _ hq

theorem shallow_ofFlaw {result : Except Flaw β} (h : result ≠ .error .nesting) :
    Shallow (ofFlaw result : Edit α β) := by
  cases result with
  | ok b => exact .pure b
  | error flaw =>
    refine .throw ?_
    rintro ⟨⟩
    exact h rfl

theorem shallow_onPool {e : Pool.Edit β} (h : Shallow e) : Shallow (onPool e : Edit α β) := by
  rintro f ⟨f', hf⟩
  simp only [onPool] at hf
  split at hf
  case h_1 => cases hf
  case h_2 hp =>
    cases hf
    exact h _ ⟨_, hp⟩

theorem shallow_times {e : Edit α Unit} (h : Shallow e) (n : Nat) : Shallow (times n e) := by
  induction n with
  | zero => exact .pure _
  | succ n ih => exact h.bind fun _ => ih

end Edit

namespace Walk

variable (r : Renaming)

theorem shallow_pass (n : Nat) : Shallow (pass n) := by
  rintro f ⟨f', hf⟩
  simp only [pass] at hf
  split at hf <;> cases hf

theorem shallow_skip (n : Nat) : Shallow (skip n) := (shallow_pass n).bind fun _ => .pure _

theorem shallow_word {α : Type} [Word α] : Shallow (word : Edit Tape α) :=
  (shallow_pass _).bind fun _ => .pure _

theorem shallow_counted {w : Walk} (h : Shallow w) : Shallow (counted w) :=
  shallow_word.bind fun n : UInt16 => Edit.shallow_times h n.toNat

theorem shallow_amend {α : Type} [Word α] (back : Nat) (x : α) : Shallow (amend back x) :=
  Edit.shallow_modifyItem _

/-- A new text is interned, and its index is put in. -/
theorem shallow_replace (back : Nat) (text : String) (add : Tally → Tally) :
    Shallow (do amend back (← Edit.onPool (Pool.internUtf8 text)); Edit.count add : Walk) :=
  (Edit.shallow_onPool (Pool.shallow_internUtf8 text)).bind fun _ =>
    (shallow_amend back _).bind fun _ => Edit.shallow_count add

theorem descriptor_ne_nesting (text : String) : r.descriptor text ≠ .error .nesting := by
  intro h
  obtain ⟨-, hflaw⟩ := r.descriptor_eq_error_iff.mp h
  cases hflaw

theorem shallow_descriptorSlot : Shallow (descriptorSlot r) := by
  refine shallow_word.bind fun index => (Edit.shallow_look fun _ => Pool.utf8_ne_nesting).bind
    fun text => (Edit.shallow_ofFlaw (descriptor_ne_nesting r text)).bind fun text' => ?_
  exact .ite (shallow_replace 0 text' _) (.pure _)

theorem shallow_signatureSlot (kind : SymbolKind) : Shallow (signatureSlot r kind) := by
  refine shallow_word.bind fun index => (Edit.shallow_look fun _ => Pool.utf8_ne_nesting).bind
    fun text => ?_
  split
  case h_1 text' _ => exact .ite (shallow_replace 0 text' _) (.pure _)
  case h_2 => exact Edit.shallow_note _

theorem shallow_innerClass : Shallow (innerClass r) := by
  refine shallow_word.bind fun index : UInt16 => (shallow_skip 2).bind fun _ =>
    shallow_word.bind fun slot : UInt16 => (shallow_skip 2).bind fun _ => ?_
  refine .ite ?_ (.pure _)
  refine (Edit.shallow_look fun _ => Pool.className_ne_nesting).bind fun old =>
    (Edit.shallow_look fun _ => Pool.utf8_ne_nesting).bind fun simple => ?_
  split
  case h_1 name _ => exact shallow_replace 2 name _
  case h_2 => exact .pure _

theorem shallow_targetSize (tag : UInt8) : Shallow (targetSize tag) := by
  unfold targetSize
  dsimp only
  repeat' split
  case isFalse => exact .throw nofun
  all_goals first
    | exact .pure _
    | exact shallow_word.bind fun _ => .pure _

theorem shallow_localVariables {slot : Walk} (h : Shallow slot) : Shallow (localVariables slot) :=
  shallow_counted ((shallow_skip 6).bind fun _ => h.bind fun _ => shallow_skip 2)

theorem shallow_signature (kind : SymbolKind) : Shallow (signature r kind) := by
  refine Edit.shallow_item.bind fun t => ?_
  split
  case h_1 =>
    refine (Edit.shallow_query _).bind fun text => ?_
    split
    case h_1 => exact shallow_signatureSlot r kind
    case h_2 => exact Edit.shallow_note _
  case h_2 => exact Edit.shallow_note _

end Walk

end Relabel
