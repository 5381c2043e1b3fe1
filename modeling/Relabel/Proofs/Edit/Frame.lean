import Mathlib.Data.List.Forall2
import Relabel.Edit.Tape
import Relabel.Proofs.Pool.Step

/-!
# What an edit leaves alone

An edit stays within a relation on items and a relation on pools if all that it leads to
is related to what it started from, also when it fails. Both relations are preorders, so
an edit stays within them if its parts do, and only the primitive edits have to be
looked at.
-/

namespace Relabel

variable {α β γ : Type}

/-- The relation that holds of any two items. -/
def Anything (_ _ : α) : Prop := True

instance : IsPreorder α Anything where
  refl _ := trivial
  trans _ _ _ _ _ := trivial

instance isPreorder_and {R S : α → α → Prop} [IsPreorder α R] [IsPreorder α S] :
    IsPreorder α fun a b => R a b ∧ S a b where
  refl a := ⟨refl_of R a, refl_of S a⟩
  trans _ _ _ h h' := ⟨trans_of R h.1 h'.1, trans_of S h.2 h'.2⟩

/-- Arrays of related items, position by position. -/
def Pointwise (I : α → α → Prop) (xs ys : Array α) : Prop := List.Forall₂ I xs.toList ys.toList

theorem forall₂_comp {I J K : α → α → Prop} (hK : ∀ ⦃a b c⦄, I a b → J b c → K a c)
    {xs ys zs : List α} (h : List.Forall₂ I xs ys) (h' : List.Forall₂ J ys zs) :
    List.Forall₂ K xs zs := by
  induction h generalizing zs with
  | nil =>
    cases h'
    exact .nil
  | cons ha _ ih =>
    cases h' with
    | cons hb h' => exact .cons (hK ha hb) (ih h')

namespace Pointwise

variable {I J K : α → α → Prop} {xs ys zs : Array α}

theorem comp (hK : ∀ ⦃a b c⦄, I a b → J b c → K a c) (h : Pointwise I xs ys)
    (h' : Pointwise J ys zs) : Pointwise K xs zs := forall₂_comp hK h h'

theorem imp (hJ : ∀ ⦃a b⦄, I a b → J a b) (h : Pointwise I xs ys) : Pointwise J xs ys :=
  List.Forall₂.imp hJ h

theorem size_eq (h : Pointwise I xs ys) : xs.size = ys.size := by
  simpa using List.Forall₂.length_eq h

theorem getElem? (h : Pointwise I xs ys) {n : Nat} {a : α} (ha : xs[n]? = some a) :
    ∃ b, ys[n]? = some b ∧ I a b := by
  obtain ⟨hn, rfl⟩ := Array.getElem?_eq_some_iff.mp ha
  have hn' : n < ys.size := h.size_eq ▸ hn
  refine ⟨ys[n], Array.getElem?_eq_getElem hn', ?_⟩
  exact List.Forall₂.get h hn hn'

/-- Each item on the right has one on the left. -/
theorem exists_getElem? (h : Pointwise I xs ys) {n : Nat} {b : α} (hb : ys[n]? = some b) :
    ∃ a, xs[n]? = some a := by
  obtain ⟨hn, -⟩ := Array.getElem?_eq_some_iff.mp hb
  have hn' : n < xs.size := h.size_eq ▸ hn
  exact ⟨xs[n], Array.getElem?_eq_getElem hn'⟩

/-- If items are led back to where they were only by leaving them alone, they were left alone. -/
theorem eq_of_back (hI : ∀ ⦃a b⦄, I a b → J b a → b = a) (h : Pointwise I xs ys)
    (h' : Pointwise J ys xs) : ys = xs := by
  obtain ⟨xs⟩ := xs
  obtain ⟨ys⟩ := ys
  replace h : List.Forall₂ I xs ys := h
  replace h' : List.Forall₂ J ys xs := h'
  congr
  induction h with
  | nil => rfl
  | cons ha _ ih =>
    cases h' with
    | cons hb h' => rw [hI ha hb, ih h']

theorem exists_mem (h : Pointwise I xs ys) {b : α} (hb : b ∈ ys) : ∃ a ∈ xs, I a b := by
  obtain ⟨n, hn⟩ := Array.mem_iff_getElem?.mp hb
  obtain ⟨a, ha⟩ := h.exists_getElem? hn
  obtain ⟨b', hb', hab⟩ := h.getElem? ha
  cases hn.symm.trans hb'
  exact ⟨a, Array.mem_of_getElem? ha, hab⟩

end Pointwise

/-- The pool, the tally and the notices, without the item. -/
def Focus.rest (f : Focus α) : Focus Unit := ⟨(), f.pool, f.tally, f.notices⟩

/-- Items related by `I` and pools related by `R`. No notice gets lost. -/
structure Focus.Related (I : α → α → Prop) (R : Pool → Pool → Prop) (f g : Focus α) : Prop where
  item : I f.item g.item
  pool : R f.pool g.pool
  notices : ∀ n ∈ f.notices, n ∈ g.notices

instance {I : α → α → Prop} {R : Pool → Pool → Prop} [IsPreorder α I] [IsPreorder Pool R] :
    IsPreorder (Focus α) (Focus.Related I R) where
  refl f := ⟨refl_of I f.item, refl_of R f.pool, fun _ => id⟩
  trans _ _ _ h h' := ⟨trans_of I h.item h'.item, trans_of R h.pool h'.pool,
    fun n hn => h'.notices n (h.notices n hn)⟩

namespace Edit

/-- All that `e` leads to has a related item and a related pool. -/
abbrev Stays (I : α → α → Prop) (R : Pool → Pool → Prop) (e : Edit α β) : Prop :=
  Within (Focus.Related I R) e

section

variable {I : α → α → Prop} {J : β → β → Prop} {R : Pool → Pool → Prop}

theorem Stays.anything {e : Edit α β} (h : Stays I R e) : Stays Anything R e :=
  h.mono fun _ _ h => ⟨trivial, h.pool, h.notices⟩

theorem Stays.and {S : Pool → Pool → Prop} {e : Edit α β} (h : Stays I R e) (h' : Stays I S e) :
    Stays I (fun p q => R p q ∧ S p q) e where
  ok _ _ _ he := ⟨(h.ok he).item, ⟨(h.ok he).pool, (h'.ok he).pool⟩, (h.ok he).notices⟩
  error _ _ _ he :=
    ⟨(h.error he).item, ⟨(h.error he).pool, (h'.error he).pool⟩, (h.error he).notices⟩

theorem stays_modifyItem [IsPreorder Pool R] {change : α → α} (h : ∀ a, I a (change a)) :
    Stays I R (modifyItem change) where
  ok f _ _ he := by
    cases he
    exact ⟨h f.item, refl_of R f.pool, fun _ => id⟩
  error _ _ _ he := nomatch he

theorem stays_onPool [IsPreorder α I] {e : Pool.Edit β} (h : Within R e) :
    Stays I R (onPool e : Edit α β) where
  ok f b f' he := by
    simp only [onPool] at he
    split at he
    case h_1 hp =>
      cases he
      exact ⟨refl_of I f.item, h.ok hp, fun _ => id⟩
    case h_2 => cases he
  error f _ f' he := by
    simp only [onPool] at he
    split at he
    case h_1 => cases he
    case h_2 hp =>
      cases he
      exact ⟨refl_of I f.item, h.error hp, fun _ => id⟩

/-- The part is put back as it was left, after a failure too. -/
theorem stateOf_inside (view : α → β) (put : β → α → α) (e : Edit β γ) (f : Focus α) :
    stateOf (inside view put e f) =
      let g := stateOf (e ⟨view f.item, f.pool, f.tally, f.notices⟩)
      ⟨put g.item f.item, g.pool, g.tally, g.notices⟩ := by
  simp only [inside]
  split <;> simp_all [stateOf]

theorem stays_inside {view : α → β} {put : β → α → α} {e : Edit β γ} (h : Stays J R e)
    (hput : ∀ a b, J (view a) b → I a (put b a)) : Stays I R (inside view put e) := by
  refine .of_stateOf fun f => ?_
  have he := h.related ⟨view f.item, f.pool, f.tally, f.notices⟩
  rw [stateOf_inside]
  exact ⟨hput _ _ he.item, he.pool, he.notices⟩

end

/-! ## Edits that only look -/

theorem item_bind (k : α → Edit α β) (f : Focus α) : (item >>= k) f = k f.item f := rfl

section

variable {S : Focus α → Focus α → Prop} [IsPreorder (Focus α) S]

theorem within_query (q : Pool → β) : Within S (query q : Edit α β) where
  ok f _ _ h := by
    cases h
    exact refl_of S f
  error _ _ _ h := nomatch h

theorem within_item : Within S (item : Edit α α) where
  ok f _ _ h := by
    cases h
    exact refl_of S f
  error _ _ _ h := nomatch h

theorem within_ofExcept (r : Except Fault β) : Within S (ofExcept r : Edit α β) := by
  cases r with
  | ok b => exact .pure b
  | error fault => exact .throw fault

theorem within_ofFlaw (r : Except Flaw β) : Within S (ofFlaw r : Edit α β) := by
  cases r with
  | ok b => exact .pure b
  | error flaw => exact .throw _

theorem within_look (q : Pool → Except Fault β) : Within S (look q : Edit α β) :=
  .bind (within_query q) fun r => within_ofExcept r

theorem within_times {e : Edit α Unit} (h : Within S e) (n : Nat) : Within S (times n e) := by
  induction n with
  | zero => exact .pure ()
  | succ n ih => exact .bind h fun _ => ih

theorem within_timesFrom {e : UInt16 → Edit α Unit} {n first : Nat}
    (h : ∀ j, first ≤ j → j < first + n → Within S (e (UInt16.ofNat j))) :
    Within S (timesFrom e n first) := by
  induction n generalizing first with
  | zero => exact .pure ()
  | succ n ih =>
    refine .bind (h first (Nat.le_refl _) (by omega)) fun _ => ih fun j hj hn => ?_
    exact h j (by omega) (by omega)

end

section

variable {I : α → α → Prop} {R : Pool → Pool → Prop} [IsPreorder α I] [IsPreorder Pool R]

theorem Stays.of_same {e : Edit α β}
    (h : ∀ f, ∃ b f', e f = .ok b f' ∧ f'.item = f.item ∧ f'.pool = f.pool ∧
      ∀ n ∈ f.notices, n ∈ f'.notices) : Stays I R e where
  ok f b f' he := by
    obtain ⟨_, _, h, hitem, hpool, hnotices⟩ := h f
    cases h.symm.trans he
    exact ⟨hitem ▸ refl_of I _, hpool ▸ refl_of R _, hnotices⟩
  error f _ _ he := by
    obtain ⟨_, _, h, -⟩ := h f
    cases h.symm.trans he

theorem stays_count (add : Tally → Tally) : Stays I R (count add : Edit α Unit) :=
  .of_same fun _ => ⟨_, _, rfl, rfl, rfl, fun _ => id⟩

theorem stays_note (notice : Notice) : Stays I R (note notice : Edit α Unit) :=
  .of_same fun _ => ⟨_, _, rfl, rfl, rfl, fun _ => Array.mem_push_of_mem notice⟩

end

/-! ## Runs -/

section

variable {I : α → α → Prop} [IsPreorder α I] {e : Edit α Unit}

section

variable {P : Focus Unit → Prop} {T : Focus Unit → Focus Unit → Prop}
  [IsPreorder (Focus Unit) T] (hP : ∀ ⦃g g'⦄, P g → T g g' → P g')
  (he : ∀ f : Focus α, P f.rest → I f.item (stateOf (e f)).item ∧ T f.rest (stateOf (e f)).rest)
include hP he

/-- The items that a run did not reach are as they were. -/
theorem eachFrom_related (done : Array α) (rest : List α) {g : Focus Unit} (hg : P g) :
    T g (stateOf (eachFrom e done rest g)).rest ∧
      ∃ items, (stateOf (eachFrom e done rest g)).item.toList = done.toList ++ items ∧
        List.Forall₂ I rest items := by
  induction rest generalizing done g with
  | nil => exact ⟨refl_of T _, [], by simp [eachFrom, stateOf], .nil⟩
  | cons a rest ih =>
    have hstep := he ⟨a, g.pool, g.tally, g.notices⟩ hg
    rw [eachFrom]
    split
    case h_1 a' pool tally notices hrun =>
      rw [hrun] at hstep
      obtain ⟨ha, hT⟩ := hstep
      obtain ⟨hrest, items, hitems, hall⟩ :=
        ih (done.push a') (g := ⟨(), pool, tally, notices⟩) (hP hg hT)
      exact ⟨trans_of T hT hrest, a' :: items, by simpa using hitems, .cons ha hall⟩
    case h_2 a' pool tally notices hrun =>
      rw [hrun] at hstep
      obtain ⟨ha, hT⟩ := hstep
      exact ⟨hT, a' :: rest, by simp [stateOf], .cons ha (List.forall₂_refl rest)⟩

/-- Each item is related to what becomes of it, and the rest to what a run leaves of it. What is
needed of the rest has to hold for the first item alone. -/
theorem each_related (f : Focus (Array α)) (hf : P f.rest) :
    Pointwise I f.item (stateOf (each e f)).item ∧ T f.rest (stateOf (each e f)).rest := by
  obtain ⟨hrest, items, hitems, hall⟩ := eachFrom_related hP he #[] f.item.toList hf
  refine ⟨?_, hrest⟩
  rw [Pointwise]
  exact hitems ▸ hall

end

theorem stays_each {R : Pool → Pool → Prop} [IsPreorder Pool R] (he : Stays I R e) :
    Stays (Pointwise I) R (each e) := by
  refine .of_stateOf fun f => ?_
  obtain ⟨hitem, hrest⟩ := each_related (P := fun _ => True) (T := Focus.Related Anything R)
    (fun _ _ _ _ => trivial) (fun f _ =>
      have h := he.related f
      ⟨h.item, trivial, h.pool, h.notices⟩) f trivial
  exact ⟨hitem, hrest.pool, hrest.notices⟩

end

end Edit

end Relabel
