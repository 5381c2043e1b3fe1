import Relabel.Proofs.Edit.Frame

/-!
# Successful runs of edits

The primitive edits succeed exactly if the lookup or the step on the pool inside them
does. A successful run over a list or over indices is taken apart at any of its steps;
what comes before and behind is known up to a relation that the other steps stay within.
-/

namespace Relabel.Edit

variable {α β γ : Type} {f f' : Focus α}

/-! ## Primitive edits -/

theorem item_eq_ok {a : α} : item f = .ok a f' ↔ f.item = a ∧ f = f' := by simp [item]

theorem query_eq_ok {q : Pool → β} {b : β} : query q f = .ok b f' ↔ q f.pool = b ∧ f = f' := by
  simp [query]

theorem query_bind (q : Pool → β) (k : β → Edit α γ) : (query q >>= k) f = k (q f.pool) f := rfl

theorem ofExcept_eq_ok {x : Except Fault β} {b : β} :
    ofExcept x f = .ok b f' ↔ x = .ok b ∧ f = f' := by
  cases x with
  | ok b => simp [ofExcept, pure_eq_ok]
  | error fault => simp [ofExcept, throw_ne_ok]

theorem ofFlaw_eq_ok {x : Except Flaw β} {b : β} :
    ofFlaw x f = .ok b f' ↔ x = .ok b ∧ f = f' := by
  cases x with
  | ok b => simp [ofFlaw, pure_eq_ok]
  | error flaw => simp [ofFlaw, throw_ne_ok]

theorem look_eq_ok {q : Pool → Except Fault β} {b : β} :
    look q f = .ok b f' ↔ q f.pool = .ok b ∧ f = f' := by
  simp [look, bind_eq_ok, query_eq_ok, ofExcept_eq_ok]

theorem look_bind {q : Pool → Except Fault β} {b : β} {k : β → Edit α γ} (h : q f.pool = .ok b) :
    (look q >>= k) f = k b f := by
  change (ofExcept (q f.pool) >>= k) f = k b f
  rw [h]
  rfl

theorem look_bind_error {q : Pool → Except Fault β} {fault : Fault} {k : β → Edit α γ}
    (h : q f.pool = .error fault) : (look q >>= k) f = .error fault f := by
  change (ofExcept (q f.pool) >>= k) f = _
  rw [h]
  rfl

theorem onPool_eq_ok {e : Pool.Edit β} {b : β} (h : onPool e f = .ok b f') :
    e f.pool = .ok b f'.pool ∧ f'.item = f.item := by
  simp only [onPool] at h
  split at h
  case h_1 hp =>
    cases h
    exact ⟨hp, rfl⟩
  case h_2 => cases h

theorem tally_of_onPool {e : Pool.Edit β} {b : β} (h : onPool e f = .ok b f') :
    f'.tally = f.tally := by
  simp only [onPool] at h
  split at h <;> cases h
  rfl

theorem onPool_of_ok {e : Pool.Edit β} {b : β} {q : Pool} (h : e f.pool = .ok b q) :
    onPool e f = .ok b { f with pool := q } := by
  simp only [onPool, h]

theorem count_eq_ok {add : Tally → Tally} {u : Unit} (h : count add f = .ok u f') :
    f'.pool = f.pool ∧ f'.item = f.item := by
  cases h
  exact ⟨rfl, rfl⟩

theorem modifyItem_bind_eq_ok {change : α → α} {k : Edit α β} {b : β}
    (h : (do modifyItem change; k) f = .ok b f') :
    ∃ g, g.pool = f.pool ∧ g.item = change f.item ∧ k g = .ok b f' :=
  ⟨⟨change f.item, f.pool, f.tally, f.notices⟩, rfl, rfl, h⟩

theorem inside_eq_ok {view : α → β} {put : β → α → α} {e : Edit β γ} {c : γ}
    (h : inside view put e f = .ok c f') :
    ∃ b, e ⟨view f.item, f.pool, f.tally, f.notices⟩ = .ok c ⟨b, f'.pool, f'.tally, f'.notices⟩ ∧
      f'.item = put b f.item := by
  simp only [inside] at h
  split at h
  case h_1 hb =>
    cases h
    exact ⟨_, hb, rfl⟩
  case h_2 => cases h

theorem inside_of_ok {view : α → β} {put : β → α → α} {e : Edit β γ} {c : γ} {g : Focus β}
    (h : e ⟨view f.item, f.pool, f.tally, f.notices⟩ = .ok c g) :
    inside view put e f = .ok c ⟨put g.item f.item, g.pool, g.tally, g.notices⟩ := by
  simp only [inside, h]

theorem inside_of_error {view : α → β} {put : β → α → α} {e : Edit β γ} {fault : Fault}
    {g : Focus β} (h : e ⟨view f.item, f.pool, f.tally, f.notices⟩ = .error fault g) :
    inside view put e f = .error fault ⟨put g.item f.item, g.pool, g.tally, g.notices⟩ := by
  simp only [inside, h]

/-! ## Runs over lists and indices -/

section

variable {I : α → α → Prop} {R : Pool → Pool → Prop} [IsPreorder Pool R] {e : Edit α Unit}

/-- `e` takes `a` to `b` at some point between the pools `p` and `q`, with notices among those
given. -/
def Takes (R : Pool → Pool → Prop) (e : Edit α Unit) (p q : Pool) (notices : Array Notice)
    (a b : α) : Prop :=
  ∃ f f', e f = .ok () f' ∧ f.item = a ∧ f'.item = b ∧ R p f.pool ∧ R f'.pool q ∧
    ∀ n ∈ f'.notices, n ∈ notices

/-- A run over a list that succeeds takes each item, in order. -/
theorem eachFrom_eq_ok (he : Stays Anything R e) {done : Array α} {rest : List α}
    {f : Focus Unit} {f' : Focus (Array α)} (h : eachFrom e done rest f = .ok () f') :
    R f.pool f'.pool ∧ (∀ n ∈ f.notices, n ∈ f'.notices) ∧
      ∃ items, f'.item.toList = done.toList ++ items ∧
        List.Forall₂ (Takes R e f.pool f'.pool f'.notices) rest items := by
  induction rest generalizing done f with
  | nil =>
    cases h
    exact ⟨refl_of R _, fun _ => id, [], by simp, .nil⟩
  | cons a rest ih =>
    rw [eachFrom] at h
    split at h
    case h_2 => cases h
    case h_1 g' hg =>
      obtain ⟨hrest, hnotices, items, hitems, htakes⟩ := ih h
      obtain ⟨-, hfirst, hbefore⟩ := he.ok hg
      refine ⟨trans_of R hfirst hrest, fun n hn => hnotices n (hbefore n hn), _ :: items,
        by simpa using hitems, .cons ?_ ?_⟩
      · exact ⟨_, _, hg, rfl, rfl, refl_of R _, hrest, hnotices⟩
      · refine htakes.imp ?_
        intro a b
        rintro ⟨g, g', hgg, ha, hb, hbefore, hafter⟩
        exact ⟨g, g', hgg, ha, hb, trans_of R hfirst hbefore, hafter⟩

theorem each_eq_ok (he : Stays Anything R e) {f f' : Focus (Array α)}
    (h : each e f = .ok () f') :
    R f.pool f'.pool ∧ Pointwise (Takes R e f.pool f'.pool f'.notices) f.item f'.item := by
  obtain ⟨hpool, -, items, hitems, htakes⟩ := eachFrom_eq_ok he (f := ⟨(), f.pool, _, _⟩) h
  refine ⟨hpool, ?_⟩
  rw [Pointwise, hitems]
  exact htakes

theorem each_singleton {e : Edit α Unit} {a b : α} {p q : Pool} {tally tally' : Tally}
    {notices notices' : Array Notice}
    (h : e ⟨a, p, tally, notices⟩ = .ok () ⟨b, q, tally', notices'⟩) :
    each e ⟨#[a], p, tally, notices⟩ = .ok () ⟨#[b], q, tally', notices'⟩ := by
  simp only [each, eachFrom, h]
  rfl

/-- A run over indices that succeeds visits each of them. -/
theorem timesFrom_eq_ok [IsPreorder α I] {e : UInt16 → Edit α Unit} {n first k : Nat}
    (hk : first ≤ k) (hn : k < first + n)
    (he : ∀ j, first ≤ j → j < first + n → j ≠ k → Stays I R (e (UInt16.ofNat j)))
    (h : timesFrom e n first f = .ok () f') :
    ∃ g g', Focus.Related I R f g ∧ e (UInt16.ofNat k) g = .ok () g' ∧
      Focus.Related I R g' f' := by
  induction n generalizing first f with
  | zero => omega
  | succ n ih =>
    obtain ⟨⟨⟩, f₁, hfirst, h⟩ := bind_eq_ok.mp h
    by_cases hkf : k = first
    · subst hkf
      have hrest : Stays I R (timesFrom e n (k + 1)) :=
        within_timesFrom fun j hj hjn => he j (by omega) (by omega) (by omega)
      exact ⟨f, f₁, refl_of _ f, hfirst, hrest.ok h⟩
    · have hstep := (he first (by omega) (by omega) (Ne.symm hkf)).ok hfirst
      obtain ⟨g, g', hg, hgg, hg'⟩ :=
        ih (by omega) (by omega) (fun j hj hjn => he j (by omega) (by omega)) h
      exact ⟨g, g', trans_of _ hstep hg, hgg, hg'⟩

end

end Relabel.Edit
