import Relabel.Proofs.Pool.Reuse
import Relabel.Proofs.Pool.Written

/-!
# Stray slots

Pushing and replacing take any constant, also the one that marks a slot as not in use. Where
that is given, a slot is counted and nothing is written for it. So the pool behind a run of
calls is read back exactly if none of the calls leaves such a stray slot, and otherwise
reading runs out of bytes.
-/

namespace Relabel.Pool

variable {p q : Pool} {i : UInt16} {c old : Constant} {xs rows : List Constant}
  {bytes : List UInt8}

/-! ## Rows -/

theorem slotsOf_of_isWide (h : c.isWide = true) : slotsOf c = [c, .unusable] := if_pos h

theorem slotsOf_of_not_isWide (h : ¬ c.isWide = true) : slotsOf c = [c] := if_neg h

theorem rows_flatMap (h : ∀ c ∈ rows, c.isStored = true) : Rows (rows.flatMap slotsOf) := by
  induction rows with
  | nil => exact .nil
  | cons c rows ih =>
    obtain ⟨hc, hrows⟩ := List.forall_mem_cons.mp h
    exact .cons hc (ih hrows)

theorem Rows.exists_flatMap (h : Rows xs) :
    ∃ rows : List Constant, xs = rows.flatMap slotsOf ∧ ∀ c ∈ rows, c.isStored = true := by
  induction h with
  | nil => exact ⟨[], rfl, nofun⟩
  | @cons c rest stored _ ih =>
    obtain ⟨rows, rfl, hrows⟩ := ih
    exact ⟨c :: rows, rfl, List.forall_mem_cons.mpr ⟨stored, hrows⟩⟩

/-- Replacing a constant in its slot replaces its row, since no second slot is replaced. -/
theorem set_flatMap {n : Nat} (h : (rows.flatMap slotsOf)[n]? = some old) (hold : old ≠ .unusable)
    (hwidth : old.width = c.width) : ∃ front back, rows = front ++ old :: back ∧
      (rows.flatMap slotsOf).set n c = (front ++ c :: back).flatMap slotsOf := by
  have hwide := Constant.isWide_eq_of_width hwidth
  induction rows generalizing n with
  | nil => cases h
  | cons d rows ih =>
    by_cases hd : d.isWide = true
    · rw [List.flatMap_cons, slotsOf_of_isWide hd] at h ⊢
      match n with
      | 0 =>
        cases h
        refine ⟨[], rows, rfl, ?_⟩
        rw [List.nil_append, List.flatMap_cons, slotsOf_of_isWide (hwide ▸ hd)]
        rfl
      | 1 => exact absurd (Option.some.inj h).symm hold
      | n + 2 =>
        obtain ⟨front, back, rfl, hset⟩ := ih h
        refine ⟨d :: front, back, rfl, ?_⟩
        simp only [List.cons_append, List.nil_append, List.set_cons_succ, hset]
        rw [List.flatMap_cons, slotsOf_of_isWide hd]
        rfl
    · rw [List.flatMap_cons, slotsOf_of_not_isWide hd] at h ⊢
      match n with
      | 0 =>
        cases h
        refine ⟨[], rows, rfl, ?_⟩
        rw [List.nil_append, List.flatMap_cons, slotsOf_of_not_isWide (hwide ▸ hd)]
        rfl
      | n + 1 =>
        obtain ⟨front, back, rfl, hset⟩ := ih h
        refine ⟨d :: front, back, rfl, ?_⟩
        simp only [List.cons_append, List.nil_append, List.set_cons_succ, hset]
        rw [List.flatMap_cons, slotsOf_of_not_isWide hd]
        rfl

/-! ## What calls are given -/

/-- The constant that the call itself puts into the pool. -/
def Call.given? : Call → Option Constant
  | .push c | .set _ c => some c
  | _ => none

/-- Text that is given as bytes is not well formed. -/
def Call.KeepsIllFormed (call : Call) : Prop :=
  ∀ ⦃bytes⦄, call.given? = some (.rawUtf8 bytes) →
    ∃ flaw, Text.ModifiedUtf8.decode bytes = .error flaw

/-- The call leaves a slot that is not in use and is no second slot. -/
def Call.Strays : Call → Pool → Prop
  | .push c, p => c = .unusable ∧ ∃ i q, Pool.push c p = .ok i q
  | .set i c, p => c = .unusable ∧ ∃ q, Pool.set i c p = .ok () q
  | _, _ => False

/-- The constant can be read, or it marks a slot that is not in use. -/
def IsRow (c : Constant) : Prop := c.isStored = true ∨ c = .unusable

theorem Call.KeepsIllFormed.isRow {call : Call} (h : call.KeepsIllFormed)
    (hc : call.given? = some c) : IsRow c := by
  cases c with
  | unusable => exact .inr rfl
  | rawUtf8 raw =>
    obtain ⟨flaw, hflaw⟩ := h hc
    left
    simp [Constant.isStored, Constant.ofTextBytes, hflaw]
  | _ => exact .inl rfl

/-! ## What calls keep -/

/-- The pool is laid out in rows, of which one is a stray slot if and only if `strayed` holds. -/
def Laid (strayed : Prop) (p : Pool) : Prop :=
  ∃ rows : List Constant, p.entries.toList = .unusable :: rows.flatMap slotsOf ∧
    (∀ c ∈ rows, IsRow c) ∧ (.unusable ∈ rows ↔ strayed)

variable {strayed : Prop}

theorem Laid.congr {strayed' : Prop} (h : Laid strayed p) (hiff : strayed' ↔ strayed) :
    Laid strayed' p := by
  rwa [propext hiff]

theorem InRows.laid (h : p.InRows) : Laid False p := by
  obtain ⟨xs, hp, hxs⟩ := h
  obtain ⟨rows, rfl, hrows⟩ := hxs.exists_flatMap
  refine ⟨rows, hp, fun c hc => .inl (hrows c hc), fun hmem => ?_, False.elim⟩
  cases hrows _ hmem

theorem Initial.inRows (h : Initial p) : p.InRows := by
  cases h with
  | empty => exact inRows_empty
  | read h => exact inRows_of_read h

theorem Laid.append (hp : Laid strayed p) (hc : IsRow c) :
    Laid (strayed ∨ c = .unusable) (p.append c) := by
  obtain ⟨rows, hp, hrows, hstray⟩ := hp
  refine ⟨rows ++ [c], ?_, ?_, ?_⟩
  · rw [toList_append, hp]
    simp
  · simpa [or_imp, forall_and] using ⟨hrows, hc⟩
  · rw [List.mem_append, hstray, List.mem_singleton, eq_comm (a := c)]

theorem Laid.set (hp : Laid strayed p) (hc : IsRow c) (h : set i c p = .ok () q) :
    Laid (strayed ∨ c = .unusable) q := by
  obtain ⟨old, hi, hwidth, rfl⟩ := set_eq_ok h
  obtain ⟨rows, hp, hrows, hstray⟩ := hp
  obtain ⟨hget, hne⟩ := get?_eq_some.mp hi
  rw [← Array.getElem?_toList, hp] at hget
  cases hn : i.toNat with
  | zero =>
    rw [hn] at hget
    exact absurd (Option.some.inj hget).symm hne
  | succ n =>
    rw [hn] at hget
    obtain ⟨front, back, rfl, hset⟩ := set_flatMap hget hne hwidth
    refine ⟨front ++ c :: back, ?_, ?_, ?_⟩
    · rw [Array.toList_setIfInBounds, hp, List.set_cons_succ, hset]
    · simp only [List.mem_append, List.mem_cons, or_imp, forall_and, forall_eq] at hrows ⊢
      exact ⟨hrows.1, hc, hrows.2.2⟩
    · rw [← hstray]
      simp only [List.mem_append, List.mem_cons, eq_comm (a := Constant.unusable), hne,
        false_or, or_comm, or_left_comm]

/-- Shared constants take rows of their own, so interning leaves no stray slots. -/
theorem within_push_laid (hc : c.isShared = true) : Within (Preserves (Laid strayed)) (push c) := by
  refine within_push_of_append fun p _ hp => ?_
  have hne : c ≠ .unusable := ne_unusable_of_isShared hc
  have hstored : c.isStored = true := by cases c <;> first | rfl | cases hc
  exact (hp.append (.inl hstored)).congr (by simp [hne])

theorem laid_after {call : Call} (hcall : call.KeepsIllFormed) (hp : Laid strayed p) :
    Laid (strayed ∨ call.Strays p) (call.after p) := by
  have hintern (h : call.given? = none) : Preserves (Laid strayed) p (call.after p) := by
    refine related_after (fun _ => within_push_laid) (fun c hc => ?_) fun i c hc => ?_ <;>
      · subst hc
        cases h
  cases call with
  | push c =>
    cases h : push c p with
    | error fault q =>
      rw [Call.after, h, stateOf, (push_eq_error_iff.mp h).2.2]
      refine hp.congr (or_iff_left ?_)
      rintro ⟨-, _, _, h'⟩
      cases h.symm.trans h'
    | ok i q =>
      rw [Call.after, h, stateOf, (push_eq_ok h).2.2]
      exact (hp.append (hcall.isRow rfl)).congr
        (or_congr_right (and_iff_left ⟨i, q, h⟩))
  | set i c =>
    cases h : set i c p with
    | error fault q =>
      rw [Call.after, h, stateOf, set_eq_error h]
      refine hp.congr (or_iff_left ?_)
      rintro ⟨-, _, h'⟩
      cases h.symm.trans h'
    | ok _ q =>
      rw [Call.after, h, stateOf]
      exact (hp.set (hcall.isRow rfl) h).congr (or_congr_right (and_iff_left ⟨q, h⟩))
  | _ => exact (hintern rfl hp).congr (or_iff_left id)

/-- Behind a run there is a stray slot exactly if one of its calls left one. -/
theorem laid_run {start : Pool} (hstart : Initial start) {calls : List Call}
    (hcalls : ∀ call ∈ calls, call.KeepsIllFormed) :
    Laid (∃ front call, front ++ [call] <+: calls ∧ call.Strays (run front start))
      (run calls start) := by
  induction calls using List.reverseRecOn with
  | nil => exact hstart.inRows.laid.congr (by simp)
  | append_singleton calls call ih =>
    have hp := ih fun call hmem => hcalls call (List.mem_append_left _ hmem)
    rw [run_concat]
    refine (laid_after (hcalls call (by simp)) hp).congr ?_
    constructor
    · rintro ⟨front, call', hfront, hstrays⟩
      obtain heq | hfront := List.prefix_concat_iff.mp hfront
      · obtain ⟨rfl, hlast⟩ := List.append_inj' heq rfl
        cases hlast
        exact .inr hstrays
      · exact .inl ⟨front, call', hfront, hstrays⟩
    · rintro (⟨front, call', hfront, hstrays⟩ | hstrays)
      · exact ⟨front, call', hfront.trans (List.prefix_append _ _), hstrays⟩
      · exact ⟨calls, call, List.prefix_refl _, hstrays⟩

/-! ## Reading back -/

/-- All of the bytes are read, as an equal pool. -/
def ReadsBack (p : Pool) (bytes : List UInt8) : Prop :=
  ∃ q, read (Cursor.start bytes) = .ok q ⟨bytes.length, []⟩ ∧ (q == p) = true

/-- Stray slots are written as nothing. -/
theorem writes_filter (h : Writes Constant.encode (rows.flatMap slotsOf) bytes) :
    Writes Constant.encode ((rows.filter (· ≠ .unusable)).flatMap slotsOf) bytes := by
  induction rows generalizing bytes with
  | nil => exact h
  | cons c rows ih =>
    obtain ⟨first, rest, hfirst, hrest, rfl⟩ := writes_of_slotsOf h
    by_cases hc : c = .unusable
    · subst hc
      cases hfirst
      simpa using ih hrest
    · simpa [hc] using (writes_slotsOf hfirst).append (ih hrest)

/-- Stray slots are counted. -/
theorem length_flatMap_slotsOf (rows : List Constant) : (rows.flatMap slotsOf).length
    = ((rows.filter (· ≠ .unusable)).flatMap slotsOf).length + rows.count .unusable := by
  induction rows with
  | nil => rfl
  | cons c rows ih =>
    rw [List.flatMap_cons, List.length_append, ih]
    by_cases hc : c = .unusable
    · subst hc
      simp [slotsOf, Constant.isWide]
      omega
    · simp [hc]
      omega

/-- Where no constant is left to read, the slots that are still to be taken are missing. -/
theorem readFrom_nil {left : Nat} (h : 0 < left) (p : Pool) (position : Nat) :
    ∃ a, readFrom left p ⟨position, []⟩ = .error .outOfBounds a := by
  obtain _ | left := left
  · cases h
  · have hread : Constant.read ⟨position, []⟩ = .error .outOfBounds ⟨position, []⟩ := rfl
    rw [readFrom]
    exact ⟨_, bind_of_error hread⟩

theorem readFrom_stray (hrows : ∀ c ∈ rows, IsRow c) (hstray : .unusable ∈ rows)
    (h : Writes Constant.encode (rows.flatMap slotsOf) bytes) (p : Pool) (position : Nat) :
    ∃ a, readFrom (rows.flatMap slotsOf).length p ⟨position, bytes⟩ = .error .outOfBounds a := by
  have hstored : Rows ((rows.filter (· ≠ .unusable)).flatMap slotsOf) := by
    refine rows_flatMap fun c hc => ?_
    obtain ⟨hmem, hne⟩ := List.mem_filter.mp hc
    exact (hrows c hmem).resolve_right (of_decide_eq_true hne)
  obtain ⟨q, -, hread⟩ := readFrom_rows hstored (writes_filter h) p
  have hread := hread (rows.count .unusable) position []
  rw [List.append_nil] at hread
  rw [length_flatMap_slotsOf, hread]
  exact readFrom_nil (List.count_pos_iff.mpr hstray) q _

theorem Laid.readsBack (hp : Laid False p) (hsound : p.Sound) (h : p.encode = .ok bytes) :
    p.ReadsBack bytes := by
  obtain ⟨rows, hentries, hrows, hstray⟩ := hp
  have hstored : Rows (rows.flatMap slotsOf) := by
    refine rows_flatMap fun c hc => (hrows c hc).resolve_right ?_
    rintro rfl
    exact hstray.mp hc
  obtain ⟨q, hq, hread⟩ := reads_of_encode hsound ⟨_, hentries, hstored⟩ h
  refine ⟨q, ?_, ?_⟩
  · simpa [Cursor.start] using hread 0 []
  · show (q.entries == p.entries) = true
    rw [hq]
    exact beq_self_eq_true p.entries

theorem Laid.outOfBounds (hp : Laid True p) (hsound : p.Sound) (h : p.encode = .ok bytes) :
    ∃ a, read (Cursor.start bytes) = .error .outOfBounds a := by
  obtain ⟨rows, hentries, hrows, hstray⟩ := hp
  obtain ⟨front, hfront, hread⟩ := read_encode hsound hentries h
  obtain ⟨offset, -, hread⟩ := hread 0 []
  rw [List.append_nil, List.append_nil] at hread
  rw [Cursor.start, hread]
  exact readFrom_stray hrows (hstray.mpr trivial) hfront empty offset

/-- The pool behind a run is read back exactly if none of the calls left a stray slot; otherwise
the bytes end before all slots are taken. -/
theorem readsBack_run_iff {start : Pool} (hstart : Initial start) {calls : List Call}
    (hcalls : ∀ call ∈ calls, call.KeepsIllFormed)
    (h : (run calls start).encode = .ok bytes) :
    ((run calls start).ReadsBack bytes ↔
      ∀ front call, front ++ [call] <+: calls → ¬ call.Strays (run front start)) ∧
    ((run calls start).ReadsBack bytes ∨
      ∃ a, read (Cursor.start bytes) = .error .outOfBounds a) := by
  have hsound := sound_run hstart.sound calls
  have hlaid := laid_run hstart hcalls
  by_cases hstray : ∃ front call, front ++ [call] <+: calls ∧ call.Strays (run front start)
  · obtain ⟨a, herror⟩ := (hlaid.congr (iff_of_true trivial hstray)).outOfBounds hsound h
    refine ⟨⟨?_, fun hnone => ?_⟩, .inr ⟨a, herror⟩⟩
    · rintro ⟨q, hread, -⟩
      cases herror.symm.trans hread
    · obtain ⟨front, call, hcall, hstrays⟩ := hstray
      exact absurd hstrays (hnone front call hcall)
  · have hback := (hlaid.congr (iff_of_false id hstray)).readsBack hsound h
    exact ⟨iff_of_true hback fun front call hcall hstrays => hstray ⟨front, call, hcall, hstrays⟩,
      .inl hback⟩

/-- Behind the mixed calls, text that is no text, between two wide constants. -/
def laidCalls : List Call := mixedCalls ++ [.push (.rawUtf8 [0xFF]), .push (.double 8)]

theorem keepsIllFormed_laidCalls {call : Call} (h : call ∈ laidCalls) :
    call.KeepsIllFormed ∧ ∀ p, ¬ call.Strays p := by
  simp only [laidCalls, mixedCalls, List.cons_append, List.nil_append, List.mem_cons,
    List.not_mem_nil, or_false] at h
  constructor
  · intro bytes hbytes
    obtain rfl | rfl | rfl | rfl | rfl | rfl := h <;> cases hbytes
    exact ⟨_, rfl⟩
  · intro p hstrays
    obtain rfl | rfl | rfl | rfl | rfl | rfl := h <;> cases hstrays.1

theorem readsBack_run_laidCalls : (∀ call ∈ laidCalls, call.KeepsIllFormed) ∧
    ∃ bytes, (run laidCalls empty).encode = .ok bytes ∧ (run laidCalls empty).ReadsBack bytes := by
  have hcalls : ∀ call ∈ laidCalls, call.KeepsIllFormed :=
    fun call h => (keepsIllFormed_laidCalls h).1
  have hencode : ∃ bytes, (run laidCalls empty).encode = .ok bytes := ⟨_, rfl⟩
  obtain ⟨bytes, h⟩ := hencode
  refine ⟨hcalls, bytes, h, (readsBack_run_iff .empty hcalls h).1.mpr ?_⟩
  intro front call hfront
  exact (keepsIllFormed_laidCalls (hfront.subset (by simp))).2 _

/-- A placeholder is pushed as the only constant: two slots are counted, and no constant is
written. -/
theorem not_readsBack_of_push_unusable : ∃ p, push .unusable empty = .ok 1 p ∧ Reachable p ∧
    p.encode = .ok [0, 2] ∧ ¬ p.ReadsBack [0, 2] := by
  refine ⟨empty.append .unusable, rfl, ⟨empty, [.push .unusable], .empty, rfl⟩, rfl, ?_⟩
  rintro ⟨q, hread, -⟩
  cases hread

end Relabel.Pool
