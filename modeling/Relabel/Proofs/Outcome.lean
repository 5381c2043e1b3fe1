import Mathlib.Order.RelClasses

/-!
# Successful runs

Readers, scanners, pool steps and edits are all state transformers that may fail. A
composite succeeds exactly if its parts succeed one after the other, and a successful
run is taken apart into the runs of its parts.
-/

namespace Relabel

section

variable {ε σ α β : Type} {s s' : σ}

theorem bind_eq_ok {x : EStateM ε σ α} {f : α → EStateM ε σ β} {b : β} :
    (x >>= f) s = .ok b s' ↔ ∃ a t, x s = .ok a t ∧ f a t = .ok b s' := by
  change (match x s with | .ok a t => f a t | .error e t => .error e t) = _ ↔ _
  cases x s with
  | ok a t =>
    constructor
    · intro h
      exact ⟨a, t, rfl, h⟩
    · rintro ⟨a, t, ⟨⟩, h⟩
      exact h
  | error e t => simp

theorem bind_of_ok {x : EStateM ε σ α} {f : α → EStateM ε σ β} {a : α} (h : x s = .ok a s') :
    (x >>= f) s = f a s' := by
  change (match x s with | .ok a t => f a t | .error e t => .error e t) = _
  rw [h]

theorem bind_of_error {x : EStateM ε σ α} {f : α → EStateM ε σ β} {e : ε}
    (h : x s = .error e s') : (x >>= f) s = .error e s' := by
  change (match x s with | .ok a t => f a t | .error e t => .error e t) = _
  rw [h]

theorem pure_eq_ok {a b : α} :
    (pure a : EStateM ε σ α) s = .ok b s' ↔ a = b ∧ s = s' := by
  change EStateM.Result.ok a s = _ ↔ _
  simp

theorem map_eq_ok {x : EStateM ε σ α} {f : α → β} {b : β} :
    (f <$> x) s = .ok b s' ↔ ∃ a, x s = .ok a s' ∧ f a = b := by
  rw [map_eq_pure_bind, bind_eq_ok]
  simp only [pure_eq_ok]
  constructor
  · rintro ⟨a, t, ha, hb, rfl⟩
    exact ⟨a, ha, hb⟩
  · rintro ⟨a, ha, hb⟩
    exact ⟨a, s', ha, hb, rfl⟩

theorem throw_ne_ok {e : ε} {b : α} : (throw e : EStateM ε σ α) s ≠ .ok b s' := nofun

theorem bind_eq_error {x : EStateM ε σ α} {f : α → EStateM ε σ β} {e : ε} :
    (x >>= f) s = .error e s' ↔
      x s = .error e s' ∨ ∃ a t, x s = .ok a t ∧ f a t = .error e s' := by
  change (match x s with | .ok a t => f a t | .error e t => .error e t) = _ ↔ _
  cases x s with
  | ok a t =>
    constructor
    · intro h
      exact .inr ⟨a, t, rfl, h⟩
    · rintro (⟨⟨⟩⟩ | ⟨a, t, ⟨⟩, h⟩)
      exact h
  | error e t => simp

/-- Every state that `x` leads to is related to the one before, after a failure too. -/
structure Within (R : σ → σ → Prop) (x : EStateM ε σ α) : Prop where
  ok : ∀ ⦃s a s'⦄, x s = .ok a s' → R s s'
  error : ∀ ⦃s e s'⦄, x s = .error e s' → R s s'

/-- The state that a run ends in, after a failure too. -/
def stateOf : EStateM.Result ε σ α → σ
  | .ok _ s => s
  | .error _ s => s

theorem Within.of_stateOf {R : σ → σ → Prop} {x : EStateM ε σ α} (h : ∀ s, R s (stateOf (x s))) :
    Within R x where
  ok s _ _ hx := by simpa only [hx, stateOf] using h s
  error s _ _ hx := by simpa only [hx, stateOf] using h s

namespace Within

theorem related {R : σ → σ → Prop} {x : EStateM ε σ α} (h : Within R x) (s : σ) :
    R s (stateOf (x s)) := by
  cases hx : x s with
  | ok _ s' => exact h.ok hx
  | error _ s' => exact h.error hx

theorem mono {R R' : σ → σ → Prop} {x : EStateM ε σ α} (hx : Within R x)
    (h : ∀ ⦃s s'⦄, R s s' → R' s s') : Within R' x :=
  ⟨fun _ _ _ hs => h (hx.ok hs), fun _ _ _ hs => h (hx.error hs)⟩

theorem ite {R : σ → σ → Prop} {c : Prop} [Decidable c] {x y : EStateM ε σ α} (hx : Within R x)
    (hy : Within R y) : Within R (if c then x else y) := by
  split
  · exact hx
  · exact hy

variable {R : σ → σ → Prop} [IsPreorder σ R]

protected theorem pure (a : α) : Within R (pure a : EStateM ε σ α) where
  ok s _ _ h := (pure_eq_ok.mp h).2 ▸ refl_of R s
  error _ _ _ h := nomatch h

protected theorem throw (e : ε) : Within R (throw e : EStateM ε σ α) where
  ok _ _ _ h := nomatch h
  error s _ _ h := by
    cases h
    exact refl_of R s

/-- What stands behind a failure is never run. -/
theorem throw_bind (e : ε) (f : α → EStateM ε σ β) : Within R (throw e >>= f) :=
  Within.throw (α := β) e

protected theorem bind {x : EStateM ε σ α} {f : α → EStateM ε σ β} (hx : Within R x)
    (hf : ∀ a, Within R (f a)) : Within R (x >>= f) where
  ok _ _ _ h := by
    obtain ⟨a, t, ha, h⟩ := bind_eq_ok.mp h
    exact trans_of R (hx.ok ha) ((hf a).ok h)
  error _ _ _ h := by
    obtain h | ⟨a, t, ha, h⟩ := bind_eq_error.mp h
    · exact hx.error h
    · exact trans_of R (hx.ok ha) ((hf a).error h)

end Within

end

section

variable {ε α β : Type}

theorem except_bind_eq_ok {x : Except ε α} {f : α → Except ε β} {b : β} :
    (x >>= f) = .ok b ↔ ∃ a, x = .ok a ∧ f a = .ok b := by
  cases x with
  | ok a => simp [bind, Except.bind]
  | error e => simp [bind, Except.bind]

theorem except_pure_eq_ok {a b : α} : (pure a : Except ε α) = .ok b ↔ a = b := by
  simp [pure, Except.pure]

theorem discard_eq_ok {x : Except ε α} : discard x = .ok () ↔ ∃ a, x = .ok a := by
  cases x with
  | ok a => simp [discard, Functor.mapConst, Except.map]
  | error e => simp [discard, Functor.mapConst, Except.map]

/-- A check of every element of a list succeeds exactly if it does for each of them. -/
theorem forM_eq_ok {f : α → Except ε Unit} {xs : List α} :
    xs.forM f = .ok () ↔ ∀ a ∈ xs, f a = .ok () := by
  induction xs with
  | nil => simp [pure, Except.pure]
  | cons a xs ih =>
    have hcons : (a :: xs).forM f = f a >>= fun _ => xs.forM f := rfl
    rw [hcons, except_bind_eq_ok, List.forall_mem_cons, ih]
    exact ⟨fun ⟨_, ha, h⟩ => ⟨ha, h⟩, fun ⟨ha, h⟩ => ⟨⟨⟩, ha, h⟩⟩

/-- A computation over a list succeeds exactly if it does for each element. -/
theorem exists_mapM_eq_ok {f : α → Except ε β} {xs : List α} :
    (∃ ys, xs.mapM f = .ok ys) ↔ ∀ a ∈ xs, ∃ b, f a = .ok b := by
  induction xs with
  | nil => simp [pure, Except.pure]
  | cons a xs ih =>
    simp only [List.mapM_cons, except_bind_eq_ok, except_pure_eq_ok, List.forall_mem_cons, ← ih]
    constructor
    · rintro ⟨_, b, hb, ys, hys, rfl⟩
      exact ⟨⟨b, hb⟩, ys, hys⟩
    · rintro ⟨⟨b, hb⟩, ys, hys⟩
      exact ⟨b :: ys, b, hb, ys, hys, rfl⟩

/-- A computation that succeeds with checked results, as it can be evaluated. -/
theorem eq_ok_of_any (x : Except ε α) (check : α → Bool) (h : x.toOption.any check = true) :
    ∃ a, x = .ok a ∧ check a = true := by
  cases x with
  | ok a => exact ⟨a, rfl, h⟩
  | error e => cases h

end

end Relabel
