import Relabel.Proofs.Edit.Onward

/-!
# Idle edits

An edit is idle if it changes nothing but notices and what is not looked at of the item, also
when it fails. Of a tape only its bytes are looked at, so to pass bytes is idle.
-/

namespace Relabel

variable {α β γ δ : Type}

/-- The foci have the same pool and the same tally, and `view` shows the same of their items. -/
structure Focus.Same (view : α → β) (f g : Focus α) : Prop where
  item : view g.item = view f.item
  pool : g.pool = f.pool
  tally : g.tally = f.tally

instance {view : α → β} : IsPreorder (Focus α) (Focus.Same view) where
  refl _ := ⟨rfl, rfl, rfl⟩
  trans _ _ _ h h' :=
    ⟨h'.item.trans h.item, h'.pool.trans h.pool, h'.tally.trans h.tally⟩

namespace Edit

/-- The edit changes nothing that `view` shows of the item, nor the pool, nor the tally. -/
abbrev Idle (view : α → β) (e : Edit α γ) : Prop := Within (Focus.Same view) e

variable {view : α → β}

theorem idle_note (notice : Notice) : Idle view (note notice : Edit α Unit) where
  ok f _ _ h := by
    cases h
    exact ⟨rfl, rfl, rfl⟩
  error _ _ _ h := nomatch h

/-- What stands behind a checked value has to be idle only if the check succeeds. -/
theorem idle_ofFlaw_bind {x : Except Flaw δ} {k : δ → Edit α γ}
    (h : ∀ d, x = .ok d → Idle view (k d)) : Idle view (ofFlaw x >>= k) := by
  cases x with
  | ok d => exact h d rfl
  | error flaw => exact .throw_bind _ _

theorem idle_inside {part : α → β} {put : β → α → α} {shown : β → δ} {e : Edit β γ}
    (h : Idle shown e) (hput : ∀ a b, shown b = shown (part a) → put b a = a) :
    Idle id (inside part put e) := by
  refine .of_stateOf fun f => ?_
  have he := h.related ⟨part f.item, f.pool, f.tally, f.notices⟩
  rw [stateOf_inside]
  exact ⟨hput _ _ he.item, he.pool, he.tally⟩

theorem idle_part {part : α → β} {put : β → α → α} {e : Edit β γ} (h : Idle id e)
    (hput : ∀ a, put (part a) a = a) : Idle id (inside part put e) := by
  refine idle_inside h fun a b hb => ?_
  obtain rfl : b = part a := hb
  exact hput a

theorem idle_each {e : Edit α Unit} (he : Idle id e) : Idle id (each e) := by
  refine .of_stateOf fun f => ?_
  obtain ⟨hitems, hrest⟩ := each_related (P := fun _ => True) (I := Eq) (T := Focus.Same id)
    (fun _ _ _ _ => trivial) (fun f _ =>
      have h := he.related f
      ⟨h.item.symm, rfl, h.pool, h.tally⟩) f trivial
  have hitems : f.item.toList = (stateOf (each e f)).item.toList :=
    List.forall₂_eq_eq_eq ▸ hitems
  exact ⟨(Array.toList_inj.mp hitems).symm, hrest.pool, hrest.tally⟩

/-- The payload is put back as it was. -/
theorem idle_payload {walk : Walk} (h : Idle Tape.bytes walk) :
    Idle id (inside (fun a : Attribute => Tape.start a.payload)
      (fun t a => { a with payload := t.bytes }) walk) := by
  refine idle_inside h fun a t ht => ?_
  rw [ht, Tape.bytes_start]

end Edit

/-! ## Tapes -/

namespace Walk

open Edit

theorem idle_pass (n : Nat) : Idle Tape.bytes (pass n) := by
  refine .of_stateOf fun f => ?_
  obtain ⟨⟨passed, ahead⟩, pool, tally, notices⟩ := f
  simp only [pass]
  split
  case isTrue => exact ⟨by simp [stateOf, Tape.bytes, List.reverseAux_eq], rfl, rfl⟩
  case isFalse => exact ⟨rfl, rfl, rfl⟩

theorem idle_skip (n : Nat) : Idle Tape.bytes (skip n) := .bind (idle_pass n) fun _ => .pure ()

theorem idle_word {α : Type} [Word α] : Idle Tape.bytes (word : Edit Tape α) :=
  .bind (idle_pass _) fun _ => .pure _

/-- The bytes that are walked over alone are put back as they were. -/
theorem idle_within {w : Walk} (hw : Idle Tape.bytes w) (n : Nat) :
    Idle Tape.bytes (within n w) := by
  refine .of_stateOf fun f => ?_
  rw [within, item_bind]
  cases hpass : pass n f with
  | error fault g =>
    rw [bind_of_error hpass]
    exact (idle_pass n).error hpass
  | ok part g =>
    obtain ⟨-, hahead, -⟩ := pass_eq_ok hpass
    have hfront := (idle_pass n).ok hpass
    obtain ⟨hbytes, hpool, htally⟩ := hw.related ⟨Tape.start part, g.pool, g.tally, g.notices⟩
    rw [bind_of_ok hpass, stateOf_inside]
    refine ⟨?_, hpool.trans hfront.pool, htally.trans hfront.tally⟩
    simp only [hbytes, Tape.bytes_start]
    simp [Tape.bytes, List.reverseAux_eq, hahead]

end Walk

end Relabel
