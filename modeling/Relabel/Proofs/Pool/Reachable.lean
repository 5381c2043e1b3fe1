import Relabel.Proofs.Pool.Step

/-!
# Reachable pools

A pool is reachable if it comes about by calls that push, replace and intern constants,
from the empty pool or from one that was read. A call that fails leaves behind what it had
added before. What holds of pools to start from and is kept by pushing and replacing holds
of every reachable pool, since interning adds constants by pushing them.
-/

namespace Relabel.Pool

/-- One call that adds or replaces entries. -/
inductive Call where
  | push (c : Constant)
  | set (i : UInt16) (c : Constant)
  | internUtf8 (text : String)
  | internClass (name : String)
  | internNameAndType (name descriptor : String)
  | internMemberRef (kind : RefKind) (owner name descriptor : String)

/-- The pool behind a call, whether it succeeds or fails. -/
def Call.after : Call → Pool → Pool
  | .push c, p => stateOf (Pool.push c p)
  | .set i c, p => stateOf (Pool.set i c p)
  | .internUtf8 text, p => stateOf (Pool.internUtf8 text p)
  | .internClass name, p => stateOf (Pool.internClass name p)
  | .internNameAndType name descriptor, p => stateOf (Pool.internNameAndType name descriptor p)
  | .internMemberRef kind owner name descriptor, p =>
    stateOf (Pool.internMemberRef kind owner name descriptor p)

/-- The pool behind the calls, one after the other. -/
def run (calls : List Call) (p : Pool) : Pool := calls.foldl (fun p call => call.after p) p

/-- A pool to start from. -/
inductive Initial : Pool → Prop
  | empty : Initial empty
  | read {a a' : Cursor} {p : Pool} (h : read a = .ok p a') : Initial p

def Reachable (p : Pool) : Prop := ∃ start calls, Initial start ∧ run calls start = p

section

variable {R : Pool → Pool → Prop} [IsPreorder Pool R]

/-- A relation that interning and the call's own pushing or replacing stay within relates the pools
around the call. -/
theorem related_after {call : Call} {p : Pool}
    (hshared : ∀ ⦃c : Constant⦄, c.isShared = true → Within R (push c))
    (hpush : ∀ c, call = .push c → R p (stateOf (push c p)))
    (hset : ∀ i c, call = .set i c → R p (stateOf (set i c p))) : R p (call.after p) := by
  have hintern ⦃c : Constant⦄ (hc : c.isShared = true) : Within R (intern c) :=
    within_intern_of_push (hshared hc)
  cases call with
  | push c => exact hpush c rfl
  | set i c => exact hset i c rfl
  | internUtf8 text => exact (hintern (c := .utf8 text) rfl).related p
  | internClass name => exact (within_internClass_of_intern hintern name).related p
  | internNameAndType name descriptor =>
    exact (within_internNameAndType_of_intern hintern name descriptor).related p
  | internMemberRef kind owner name descriptor =>
    exact (within_internMemberRef_of_intern hintern kind owner name descriptor).related p

theorem related_run (hpush : ∀ c, Within R (push c)) (hset : ∀ i c, Within R (set i c))
    (calls : List Call) (p : Pool) : R p (run calls p) := by
  induction calls generalizing p with
  | nil => exact refl_of R p
  | cons call calls ih =>
    have hcall : R p (call.after p) := related_after (fun c _ => hpush c)
      (fun c _ => (hpush c).related p) fun i c _ => (hset i c).related p
    exact trans_of R hcall (ih _)

end

/-- What holds of `p` holds of `q`. -/
def Preserves (P : Pool → Prop) (p q : Pool) : Prop := P p → P q

instance {P : Pool → Prop} : IsPreorder Pool (Preserves P) where
  refl _ := id
  trans _ _ _ h h' := h' ∘ h

/-- What every start has, and pushing and replacing keep, every reachable pool has. -/
theorem Reachable.invariant {P : Pool → Prop} (hinitial : ∀ p, Initial p → P p)
    (hpush : ∀ c, Within (Preserves P) (push c)) (hset : ∀ i c, Within (Preserves P) (set i c))
    {p : Pool} (hp : Reachable p) : P p := by
  obtain ⟨start, calls, hstart, rfl⟩ := hp
  exact related_run hpush hset calls start (hinitial start hstart)

theorem Initial.sound {p : Pool} (hp : Initial p) : p.Sound := by
  cases hp with
  | empty => exact sound_empty
  | read h => exact sound_of_read h

theorem sound_run {p : Pool} (hp : p.Sound) (calls : List Call) : (run calls p).Sound :=
  related_run (R := Preserves Sound) (fun c => (within_push c).mono fun _ _ h => h.sound)
    (fun i c => (within_set i c).mono fun _ _ h => h.sound) calls p hp

end Relabel.Pool
