import Mathlib.Data.List.Induction
import Relabel.Proofs.Pool.Expand
import Relabel.Proofs.Pool.Interning

/-!
# What interning reuses

Interning gives the index of an equal entry where one is known. Every shared constant that
stands in a pool is known after reading, pushing and interning. Replacing an entry forgets its
constant if that is known there and does not look for another equal entry, so the calls of
a run keep all reuse exactly if each of them spares the known one of several equal entries.
-/

namespace Relabel.Pool

variable {p q : Pool} {i j : UInt16} {c old : Constant}

/-! ## Reuse -/

/-- The step gives where `c` stands in `p`, and ends in `q`. -/
def Finds (c : Constant) (p : Pool) (e : Edit UInt16) (q : Pool) : Prop :=
  ∃ i, p.get? i = some c ∧ e p = .ok i q

/-- What interning would add it finds instead, if it stands in the pool: nothing is added then
beyond the parts that were missing. -/
structure Reuses (p : Pool) : Prop where
  intern : ∀ ⦃c⦄, c.isShared = true → (∃ k, p.get? k = some c) → Finds c p (intern c) p
  utf8 : ∀ ⦃text⦄, (∃ k, p.get? k = some (.utf8 text)) →
    Finds (.utf8 text) p (internUtf8 text) p
  classRef : ∀ ⦃name j q⦄, internUtf8 name p = .ok j q →
    (∃ k, p.get? k = some (.classRef j)) → Finds (.classRef j) p (internClass name) q
  nameAndType : ∀ ⦃name descriptor j k p₁ q⦄, internUtf8 name p = .ok j p₁ →
    internUtf8 descriptor p₁ = .ok k q → (∃ i, p.get? i = some (.nameAndType j k)) →
      Finds (.nameAndType j k) p (internNameAndType name descriptor) q
  memberRef : ∀ ⦃kind owner name descriptor j k p₁ q⦄, internClass owner p = .ok j p₁ →
    internNameAndType name descriptor p₁ = .ok k q →
      (∃ i, p.get? i = some (.memberRef kind j k)) →
        Finds (.memberRef kind j k) p (internMemberRef kind owner name descriptor) q

/-- If the call replaces a shared entry that interning finds, no equal one stands elsewhere. -/
def Call.Spares : Call → Pool → Prop
  | .set i c, p => ∀ ⦃old q⦄, Pool.set i c p = .ok () q → p.get? i = some old →
      old.isShared = true → intern old p = .ok i p → c ≠ old →
        ∀ ⦃j⦄, p.get? j = some old → j = i
  | _, _ => True

/-! ## What stands is known -/

/-- An entry stands where its index, as the pool stores it, points. -/
theorem get?_ofNat (hp : p.Sound) (hc : c ≠ .unusable) {n : Nat} (hn : p.entries[n]? = some c) :
    n = (UInt16.ofNat n).toNat ∧ p.get? (UInt16.ofNat n) = some c := by
  have hlt : n < p.slots := (Array.getElem?_eq_some_iff.mp hn).1
  have hn' : (UInt16.ofNat n).toNat = n :=
    UInt16.toNat_ofNat_of_lt (Nat.lt_succ_of_le (Nat.le_trans (Nat.le_of_lt hlt) hp.slots_le))
  exact ⟨hn'.symm, get?_eq_some.mpr ⟨hn'.symm ▸ hn, hc⟩⟩

/-- Interning changes nothing exactly if the constant is known. -/
theorem intern_eq_ok_self : intern c p = .ok i p ↔ p.index[c]? = some i := by
  refine ⟨fun h => ?_, intern_of_known⟩
  unfold intern at h
  split at h
  case h_1 hi =>
    cases h
    exact hi
  case h_2 =>
    obtain ⟨-, -, hq⟩ := push_eq_ok h
    have hslots := slots_append p c
    have hwidth := c.width_pos
    rw [← hq] at hslots
    omega

theorem Knows.finds (hsound : p.Sound) (hp : p.Knows Constant.isShared)
    (hc : c.isShared = true) (hstands : ∃ k, p.get? k = some c) (hq : Learns p q) :
    ∃ i, p.get? i = some c ∧ intern c q = .ok i q := by
  obtain ⟨k, hk⟩ := hstands
  obtain ⟨i, hi⟩ := Option.isSome_iff_exists.mp <|
    Std.HashMap.mem_iff_isSome_getElem?.mp (hp (get?_eq_some.mp hk).1 hc)
  exact ⟨i, hsound.known hi, intern_of_known (hq.known hi)⟩

/-- Interning reuses all that it could exactly if every shared constant is known. -/
theorem reuses_iff (hsound : p.Sound) : Reuses p ↔ p.Knows Constant.isShared := by
  have hlearns ⦃c : Constant⦄ (_ : c.isShared = true) : Within Learns (Pool.intern c) :=
    within_intern_learns c
  constructor
  · intro h n c hn hc
    have hstands := (get?_ofNat hsound (ne_unusable_of_isShared hc) hn).2
    obtain ⟨i, -, hi⟩ := h.intern hc ⟨_, hstands⟩
    rw [Std.HashMap.mem_iff_isSome_getElem?, intern_eq_ok_self.mp hi]
    rfl
  · intro h
    refine ⟨?_, ?_, ?_, ?_, ?_⟩
    · intro c hc hstands
      exact h.finds hsound hc hstands (refl_of Learns p)
    · intro text hstands
      exact h.finds hsound rfl hstands (refl_of Learns p)
    · intro name j q hname hstands
      obtain ⟨i, hi, hq⟩ := h.finds hsound rfl hstands ((within_intern_learns _).ok hname)
      exact ⟨i, hi, (bind_of_ok hname).trans hq⟩
    · intro name descriptor j k p₁ q hname hdescriptor hstands
      obtain ⟨i, hi, hq⟩ := h.finds hsound rfl hstands <| trans_of Learns
        ((within_intern_learns _).ok hname) ((within_intern_learns _).ok hdescriptor)
      exact ⟨i, hi, (bind_of_ok hname).trans <| (bind_of_ok hdescriptor).trans hq⟩
    · intro kind owner name descriptor j k p₁ q howner hmember hstands
      obtain ⟨i, hi, hq⟩ := h.finds hsound rfl hstands <| trans_of Learns
        ((within_internClass_of_intern hlearns owner).ok howner)
        ((within_internNameAndType_of_intern hlearns name descriptor).ok hmember)
      exact ⟨i, hi, (bind_of_ok howner).trans <| (bind_of_ok hmember).trans hq⟩

theorem Initial.knows (hp : Initial p) : p.Knows Constant.isShared := by
  cases hp with
  | empty => exact knows_empty fun _ => id
  | read h => exact knows_of_read (fun _ => id) h

/-! ## Steps -/

/-- What is known behind a replacement is what was known, but for the old constant if that was known
there, and the new one. -/
theorem knows_set_iff (hsound : p.Sound) (hp : p.Knows Constant.isShared)
    (h : set i c p = .ok () q) : q.Knows Constant.isShared ↔ Call.Spares (.set i c) p := by
  obtain ⟨old, hi, -, hq⟩ := set_eq_ok h
  constructor
  · rintro hq' old' q' - hi' hshared hold hne j hj
    cases hi.symm.trans hi'
    by_contra hij
    -- the other entry still stands, but its constant was erased and not learned again
    have hj' : q.get? j = some old := by rw [hq, get?_set_ne (Ne.symm hij), hj]
    have hmem := hq' (get?_eq_some.mp hj').1 hshared
    rw [hq, mem_learn, Std.HashMap.mem_iff_isSome_getElem?, getElem?_forget,
      if_pos ⟨rfl, intern_eq_ok_self.mp hold⟩] at hmem
    obtain hnone | ⟨-, heq⟩ := hmem
    · cases hnone
    · exact hne heq.symm
  · intro hspares n k hn hk
    rw [hq] at hn ⊢
    rw [mem_learn]
    by_cases hin : i.toNat = n
    · rw [← hin, Array.getElem?_setIfInBounds_self_of_lt (get?_lt_slots hi)] at hn
      cases hn
      exact .inr ⟨hk, rfl⟩
    rw [Array.getElem?_setIfInBounds_ne hin] at hn
    have hmem := hp hn hk
    by_cases hkold : k = old
    · subst hkold
      obtain ⟨hn', hj⟩ := get?_ofNat hsound (ne_unusable_of_isShared hk) hn
      by_cases hknown : p.index[k]? = some i
      · by_cases hck : c = k
        · exact .inr ⟨hck ▸ hk, hck.symm⟩
        · have hji := hspares h hi hk (intern_of_known hknown) hck hj
          exact absurd (hn'.trans (congrArg UInt16.toNat hji)).symm hin
      · left
        rw [Std.HashMap.mem_iff_isSome_getElem?, getElem?_forget, if_neg fun h => hknown h.2]
        exact Std.HashMap.mem_iff_isSome_getElem?.mp hmem
    · exact .inl ((mem_forget hkold).mpr hmem)

/-- A call keeps everything known exactly if it spares the known one of several equal entries. -/
theorem knows_after_iff (hsound : p.Sound) (hp : p.Knows Constant.isShared) (call : Call) :
    (call.after p).Knows Constant.isShared ↔ call.Spares p := by
  by_cases hcall : ∃ i c, call = .set i c
  · obtain ⟨i, c, rfl⟩ := hcall
    cases h : set i c p with
    | ok _ q =>
      rw [Call.after, h]
      exact knows_set_iff hsound hp h
    | error fault q =>
      rw [Call.after, h, stateOf, set_eq_error h]
      refine ⟨fun _ old q' h' => ?_, fun _ => hp⟩
      cases h.symm.trans h'
  · have hpush (c : Constant) : Within (Preserves (Knows Constant.isShared)) (push c) :=
      within_push_of_append fun _ _ => Knows.append fun _ => id
    have hkeeps : Preserves (Knows Constant.isShared) p (call.after p) :=
      related_after (fun c _ => hpush c) (fun c _ => (hpush c).related p)
        fun i c h => absurd ⟨i, c, h⟩ hcall
    refine ⟨fun _ => ?_, fun _ => hkeeps hp⟩
    cases call with
    | set i c => exact absurd ⟨i, c, rfl⟩ hcall
    | _ => trivial

/-! ## Runs -/

theorem run_concat (calls : List Call) (call : Call) (p : Pool) :
    run (calls ++ [call]) p = call.after (run calls p) := by
  rw [run, List.foldl_append]
  rfl

/-- Everything stays known throughout a run exactly if every call on the way keeps it known. -/
theorem knows_run_iff (hsound : p.Sound) (hp : p.Knows Constant.isShared) (calls : List Call) :
    (∀ front, front <+: calls → (run front p).Knows Constant.isShared) ↔
      ∀ front call, front ++ [call] <+: calls → call.Spares (run front p) := by
  constructor
  · intro h front call hcall
    have hfront : front <+: calls := (List.prefix_append front [call]).trans hcall
    rw [← knows_after_iff (sound_run hsound front) (h front hfront), ← run_concat]
    exact h _ hcall
  · intro h front hfront
    induction front using List.reverseRecOn with
    | nil => exact hp
    | append_singleton front call ih =>
      have hp' := ih ((List.prefix_append front [call]).trans hfront)
      rw [run_concat, knows_after_iff (sound_run hsound front) hp']
      exact h front call hfront

/-- All pools of a run reuse what interning would add exactly if no call replaces the known one of
several equal entries. -/
theorem reuses_run_iff {start : Pool} (hstart : Initial start) (calls : List Call) :
    (∀ front, front <+: calls → Reuses (run front start)) ↔
      ∀ front call, front ++ [call] <+: calls → call.Spares (run front start) := by
  rw [← knows_run_iff hstart.sound hstart.knows]
  exact forall₂_congr fun front _ => reuses_iff (sound_run hstart.sound front)

/-- Two equal texts, of which the first is the known one. -/
def twins : List Call := [.push (.utf8 "a"), .push (.utf8 "a")]

theorem getElem?_index_twins : (run twins empty).index[Constant.utf8 "a"]? = some 1 := by
  have hindex : (run twins empty).index = learn (learn ∅ (.utf8 "a") 1) (.utf8 "a") 2 := rfl
  simp [hindex, getElem?_learn, Constant.isShared]

theorem reuses_run_twins : Reuses (run (twins ++ [.set 2 (.utf8 "b"), .internClass "a"]) empty) := by
  refine (reuses_run_iff .empty _).mpr ?_ _ (List.prefix_refl _)
  rintro front call ⟨rest, hrest⟩
  -- only the replacement, which is the third call, could take something away
  rcases front with _ | ⟨_, _ | ⟨_, _ | ⟨_, _ | ⟨_, front⟩⟩⟩⟩
  case nil => cases hrest; trivial
  case cons.nil => cases hrest; trivial
  case cons.cons.nil =>
    cases hrest
    rintro old q - hi - hold
    have hold' : (run twins empty).get? 2 = some (.utf8 "a") := by decide +kernel
    cases hi.symm.trans hold'
    cases getElem?_index_twins.symm.trans (intern_eq_ok_self.mp hold)
  case cons.cons.cons.nil => cases hrest; trivial
  case cons.cons.cons.cons => simp [twins] at hrest

/-- Behind a replacement of the first of the two texts, the second is no longer found. -/
theorem not_reuses_of_reachable : ¬ ∀ p, Reachable p → Reuses p := by
  intro h
  let calls : List Call := twins ++ [.set 1 (.utf8 "b")]
  have hstands : (run calls empty).get? 2 = some (.utf8 "a") := by decide +kernel
  obtain ⟨i, -, hi⟩ := (h (run calls empty) ⟨empty, calls, .empty, rfl⟩).utf8 ⟨2, hstands⟩
  have hindex : (run calls empty).index
      = learn (forget (run twins empty).index (.utf8 "a") 1) (.utf8 "b") 1 := rfl
  have hknown := intern_eq_ok_self.mp hi
  simp [hindex, getElem?_learn, getElem?_forget, getElem?_index_twins] at hknown

end Relabel.Pool
