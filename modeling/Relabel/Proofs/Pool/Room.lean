import Mathlib.Data.Finset.Card
import Relabel.Proofs.Pool.Step

/-!
# Room for texts

Interning texts takes one slot for each of them that is not known, however often it is
asked for. So a pool has room for them exactly if it has that many slots left.
-/

namespace Relabel.Pool

variable {p q k : Pool} {text : String} {texts texts' : Finset String} {i : UInt16}

/-- The texts of which no position is known. -/
def lacking (p : Pool) (texts : Finset String) : Finset String :=
  texts.filter fun text => p.index[Constant.utf8 text]? = none

@[simp] theorem mem_lacking :
    text ∈ p.lacking texts ↔ text ∈ texts ∧ p.index[Constant.utf8 text]? = none :=
  Finset.mem_filter

@[simp] theorem lacking_empty (p : Pool) : p.lacking ∅ = ∅ := Finset.filter_empty _

theorem lacking_mono (h : texts ⊆ texts') : p.lacking texts ⊆ p.lacking texts' :=
  Finset.filter_subset_filter _ h

/-- From `p` to `q` those of the texts were added that were not known. -/
structure Gains (p q : Pool) (texts : Finset String) : Prop where
  slots : q.slots = p.slots + (p.lacking texts).card
  lacks : ∀ text, q.index[Constant.utf8 text]? = none ↔
    p.index[Constant.utf8 text]? = none ∧ text ∉ texts

theorem Gains.refl (p : Pool) : Gains p p ∅ where
  slots := by rw [lacking_empty, Finset.card_empty, Nat.add_zero]
  lacks text := by simp

/-- What is lacking of texts and others is lacking of the texts, or of the others after the
texts were added. -/
theorem Gains.card_lacking_union (h : Gains p q texts) :
    (p.lacking (texts ∪ texts')).card = (p.lacking texts).card + (q.lacking texts').card := by
  have hunion : p.lacking (texts ∪ texts') = p.lacking texts ∪ q.lacking texts' := by
    ext text
    simp only [mem_lacking, Finset.mem_union, h.lacks]
    tauto
  have hdisjoint : Disjoint (p.lacking texts) (q.lacking texts') := by
    refine Finset.disjoint_left.mpr fun text htext htext' => ?_
    exact ((h.lacks text).mp (mem_lacking.mp htext').2).2 (mem_lacking.mp htext).1
  rw [hunion, Finset.card_union_of_disjoint hdisjoint]

/-- The others take the pool behind the texts as far as both together take the one before. -/
theorem Gains.slots_union (h : Gains p q texts) :
    q.slots + (q.lacking texts').card = p.slots + (p.lacking (texts ∪ texts')).card := by
  rw [h.slots, h.card_lacking_union, Nat.add_assoc]

theorem Gains.trans (h : Gains p q texts) (h' : Gains q k texts') : Gains p k (texts ∪ texts') where
  slots := h'.slots.trans h.slots_union
  lacks text := by rw [h'.lacks, h.lacks, Finset.notMem_union, and_assoc]

theorem lacking_singleton (h : p.index[Constant.utf8 text]? = none) : p.lacking {text} = {text} :=
  Finset.filter_true_of_mem fun _ hmem => Finset.mem_singleton.mp hmem ▸ h

theorem gains_of_internUtf8 (h : internUtf8 text p = .ok i q) : Gains p q {text} := by
  unfold internUtf8 intern at h
  split at h
  case h_1 j hj =>
    cases h
    constructor
    · rw [lacking, Finset.filter_singleton, if_neg (by rw [hj]; nofun), Finset.card_empty]
      rfl
    · intro other
      refine ⟨fun hnone => ⟨hnone, ?_⟩, And.left⟩
      intro hother
      rw [Finset.mem_singleton.mp hother, hj] at hnone
      cases hnone
  case h_2 hnone =>
    obtain ⟨-, rfl, rfl⟩ := push_eq_ok h
    constructor
    · rw [slots_append, lacking_singleton hnone, Finset.card_singleton]
      rfl
    · intro other
      rw [index_append, getElem?_learn, Option.or_eq_none_iff, Finset.mem_singleton]
      simp [Constant.isShared]

/-- Interning a text fails only if it is not known and there is no room for it. -/
theorem full_of_internUtf8 {fault : Fault} (h : internUtf8 text p = .error fault q) :
    maxSlots < p.slots + (p.lacking {text}).card := by
  unfold internUtf8 intern at h
  split at h
  case h_1 => cases h
  case h_2 hnone =>
    rw [lacking_singleton hnone, Finset.card_singleton]
    simp only [push] at h
    split at h
    case isTrue hfull => exact hfull
    case isFalse => cases h

end Relabel.Pool
