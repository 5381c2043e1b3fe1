import Relabel.Proofs.Edit.Reference
import Relabel.Proofs.Pool.Expand

/-!
# Edits of the entries of expanding pools

Renaming an entry replaces the index of a name in it. The entry keeps its kind and all
else it holds, and the pool gains texts and pairs of texts only.
-/

namespace Relabel

/-! ## Entries -/

theorem Constant.isReference_fixed (c : Constant) : c.fixed.isReference = c.isReference := by
  cases c <;> rfl

theorem Constant.isClassRef_fixed (c : Constant) : c.fixed.isClassRef = c.isClassRef := by
  cases c <;> rfl

/-- A constant that is not renamed has nothing that could be replaced. -/
theorem Constant.eq_of_fixed_of_not_renamed {c d : Constant} (h : d.fixed = c.fixed)
    (hreference : c.isReference = false) (hclass : c.isClassRef = false) : d = c := by
  cases c <;> first
    | contradiction
    | (cases d <;> cases h; rfl)

namespace Pool

variable {p q s : Pool} {i : UInt16} {k : Constant}

/-- The step expands pools that hold a constant of the kind of `k` at `i`. -/
def ExpandsFrom (i : UInt16) (k : Constant) (p q : Pool) : Prop :=
  (∃ c, p.get? i = some c ∧ c.fixed = k.fixed) → Expands p q

instance : IsPreorder Pool (ExpandsFrom i k) where
  refl p _ := Expands.refl p
  trans p q s h h' hp := by
    have hpq := h hp
    obtain ⟨c, hi, hc⟩ := hp
    obtain ⟨c', hi', hc'⟩ := hpq.get? hi
    exact hpq.trans (h' ⟨c', hi', hc'.trans hc⟩)

theorem interns_expandsFrom : Interns (ExpandsFrom i k) where
  utf8 text := (interns_expands.utf8 text).mono fun _ _ h _ => h
  nameAndType name descriptor := (interns_expands.nameAndType name descriptor).mono fun _ _ h _ => h

theorem within_set_expandsFrom {c : Constant} (hk : k.isText = false) (hc : c.fixed = k.fixed) :
    Within (ExpandsFrom i k) (set i c) where
  ok p _ q h := by
    rintro ⟨old, hi, hold⟩
    have htext : old.isText = false := by rw [Constant.isText_of_fixed hold, hk]
    exact expands_set hi htext (hc.trans hold.symm) h
  error p _ q h := by
    rw [set_eq_error h]
    exact refl_of _ p

end Pool

namespace Edit

variable {α : Type} {r : Renaming} {f : Focus α} {i : UInt16} {k : Constant}

theorem related_of_get? {e : Edit α Unit} (hi : f.pool.get? i = some k)
    (he : Stays Eq (Pool.ExpandsFrom i k) e) :
    Focus.Related Eq Pool.Expands f (stateOf (e f)) :=
  ⟨(he.related f).item, (he.related f).pool ⟨k, hi, rfl⟩, (he.related f).notices⟩

theorem stays_renameReference_expands :
    Stays Eq Pool.Expands (renameReference r i : Edit α Unit) := by
  have pair {build : UInt16 → Constant} {add old newName} {k : Constant} (hk : k.isText = false)
      (hbuild : ∀ j, (build j).fixed = k.fixed) :
      Stays Eq (Pool.ExpandsFrom i k) (repointPair r i build add old newName : Edit α Unit) :=
    stays_repointPair Pool.interns_expandsFrom
      (fun j => Pool.within_set_expandsFrom hk (hbuild j)) _ _
  have text {build : UInt16 → Constant} {add old newText} {k : Constant} (hk : k.isText = false)
      (hbuild : ∀ j, (build j).fixed = k.fixed) :
      Stays Eq (Pool.ExpandsFrom i k) (repointText i build add old newText : Edit α Unit) :=
    stays_repointText Pool.interns_expandsFrom
      (fun j => Pool.within_set_expandsFrom hk (hbuild j)) _ _
  refine .of_stateOf fun f => ?_
  rw [renameReference, query_bind]
  cases hi : f.pool.get? i with
  | none => exact refl_of _ f
  | some c =>
    cases c
    case memberRef =>
      exact related_of_get? hi (.bind (within_look _) fun _ => pair rfl fun _ => rfl)
    case dynamic | invokeDynamic => exact related_of_get? hi (pair rfl fun _ => rfl)
    case methodType | module | package => exact related_of_get? hi (text rfl fun _ => rfl)
    all_goals exact refl_of _ f

theorem stays_renameClassEntry_expands :
    Stays Eq Pool.Expands (renameClassEntry r i : Edit α Unit) := by
  refine .of_stateOf fun f => ?_
  rw [renameClassEntry, query_bind]
  cases hi : f.pool.get? i with
  | none => exact refl_of _ f
  | some c =>
    cases c
    case classRef name =>
      have hset (j : UInt16) :
          Within (Pool.ExpandsFrom i (.classRef name)) (Pool.set i (.classRef j)) :=
        Pool.within_set_expandsFrom rfl rfl
      exact related_of_get? hi (stays_repointText Pool.interns_expandsFrom hset _ _)
    all_goals exact refl_of _ f

theorem stays_eachIndex_expands {e : UInt16 → Edit α Unit} {slots : Nat}
    (he : ∀ j, Stays Eq Pool.Expands (e j)) : Stays Eq Pool.Expands (eachIndex e slots) :=
  within_timesFrom fun _ _ _ => he _

end Edit

end Relabel
