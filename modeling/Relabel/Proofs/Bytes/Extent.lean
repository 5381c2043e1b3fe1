import Relabel.Proofs.Bytes.Reader

/-!
# Where a read ends

A reader is delimited if the bytes that it consumes decide alone where it ends: it reads
the same value off them whatever stands behind, and runs out of bounds on any shorter
start of them. The readers of words and byte runs are delimited, and so is what is built
from delimited readers by sequencing, branching and counted loops.
-/

namespace Relabel.Reader

variable {α β : Type}

/-- `r` reads `a` off exactly these bytes: what stands behind them is left, and any shorter start
of them is too short. -/
structure Consumes (r : Reader α) (a : α) (bytes : List UInt8) : Prop where
  reads : Reads r a bytes
  short : ∀ position front, front <+: bytes → front ≠ bytes →
    ∃ s, r ⟨position, front⟩ = .error .outOfBounds s

/-- Every successful run of `r` consumes exactly the bytes in front of what it leaves. -/
def Delimited (r : Reader α) : Prop :=
  ∀ ⦃c a c'⦄, r c = .ok a c' → ∃ bytes, c.rest = bytes ++ c'.rest ∧ Consumes r a bytes

section

variable {x : Reader α} {f : α → Reader β} {a : α} {b : β} {bytes more : List UInt8}

theorem consumes_pure (a : α) : Consumes (pure a) a [] where
  reads := reads_pure a
  short _ _ hstart hne := absurd (List.prefix_nil.mp hstart) hne

theorem Consumes.bind (hx : Consumes x a bytes) (hf : Consumes (f a) b more) :
    Consumes (x >>= f) b (bytes ++ more) where
  reads := hx.reads.bind hf.reads
  short position front hstart hne := by
    have hcut := List.prefix_or_prefix_of_prefix hstart (List.prefix_append bytes more)
    by_cases hfirst : bytes <+: front
    · -- the cut lies behind what `x` reads
      obtain ⟨tail, rfl⟩ := hfirst
      have htail : tail <+: more := (List.prefix_append_right_inj bytes).mp hstart
      obtain ⟨s, hs⟩ := hf.short (position + bytes.length) tail htail (by simpa using hne)
      exact ⟨s, by rw [bind_of_ok (hx.reads position tail), hs]⟩
    · have hfront : front <+: bytes := hcut.resolve_right hfirst
      have hne' : front ≠ bytes := fun h => hfirst (h ▸ List.prefix_rfl)
      obtain ⟨s, hs⟩ := hx.short position front hfront hne'
      exact ⟨s, bind_of_error hs⟩

end

/-! ## Delimited readers -/

theorem delimited_pure (a : α) : Delimited (pure a : Reader α) := by
  intro c a' c' h
  obtain ⟨rfl, rfl⟩ := pure_eq_ok.mp h
  exact ⟨[], rfl, consumes_pure a⟩

/-- A reader that always fails consumes nothing. -/
theorem delimited_of_ne_ok {r : Reader α} (h : ∀ c a c', r c ≠ .ok a c') : Delimited r :=
  fun c a c' hr => absurd hr (h c a c')

theorem delimited_throw (fault : Fault) : Delimited (throw fault : Reader α) :=
  delimited_of_ne_ok fun _ _ _ => throw_ne_ok

/-- What stands behind a failure is never read. -/
theorem delimited_throw_bind (fault : Fault) (f : α → Reader β) :
    Delimited (throw fault >>= f) :=
  delimited_throw (α := β) fault

theorem Delimited.bind {x : Reader α} {f : α → Reader β} (hx : Delimited x)
    (hf : ∀ a, Delimited (f a)) : Delimited (x >>= f) := by
  intro c b c' h
  obtain ⟨a, c₁, ha, hb⟩ := bind_eq_ok.mp h
  obtain ⟨bytes, hbytes, hconsumes⟩ := hx ha
  obtain ⟨more, hmore, hconsumes'⟩ := hf a hb
  refine ⟨bytes ++ more, ?_, hconsumes.bind hconsumes'⟩
  rw [hbytes, hmore, List.append_assoc]

/-- A last step that reads nothing. -/
theorem Delimited.map {x : Reader α} (hx : Delimited x) (g : α → β) :
    Delimited (x >>= fun a => pure (g a)) :=
  hx.bind fun a => delimited_pure (g a)

theorem Delimited.ite {p : Prop} [Decidable p] {r r' : Reader α} (h : Delimited r)
    (h' : Delimited r') : Delimited (if p then r else r') := by
  split
  · exact h
  · exact h'

theorem delimited_take (n : Nat) : Delimited (take n) := by
  intro c bytes c' h
  obtain ⟨hlen, hrest⟩ := take_eq_ok h
  refine ⟨bytes, hrest, reads_take hlen, ?_⟩
  intro position front hstart hne
  have hlt : front.length < n :=
    hlen ▸ Nat.lt_of_le_of_ne hstart.length_le fun h => hne (hstart.eq_of_length h)
  have hshort : (front.take n).length ≠ n := by
    rw [List.length_take]
    omega
  exact ⟨⟨position, front⟩, if_neg hshort⟩

theorem delimited_word [Word α] : Delimited (word (α := α)) :=
  (delimited_take _).map Word.ofBytes

section

variable {r : Reader α}

theorem Delimited.collect (hr : Delimited r) (n : Nat) (done : List α) :
    Delimited (collect r n done) := by
  induction n generalizing done with
  | zero => exact delimited_pure done.reverse
  | succ n ih => exact hr.bind fun a => ih (a :: done)

/-- A counted loop ends where the last of its items does. -/
theorem Delimited.counted (hr : Delimited r) : Delimited (counted r) :=
  delimited_word.bind fun n => hr.collect n.toNat []

end

end Relabel.Reader
