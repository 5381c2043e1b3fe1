import Relabel.Proofs.Edit.Quiet

/-!
# Edits that count their changes

A tally stays as it is exactly if nothing is changed, and then nothing is added to the pool
either. This holds of an edit if it holds of its parts, as long as they change different
parts of the item. Module and package entries are replaced without being counted, so a pass
over the entries of a pool counts its changes only up to these.
-/

namespace Relabel

variable {α β γ : Type}

namespace Tally

/-- All ways to count one change. -/
def steps : List (Tally → Tally) :=
  [addClass, addMemberRef, addMember, addDynamic, addSignature, addEnclosingMethod, addAttribute]

theorem total_step {add : Tally → Tally} (h : add ∈ steps) (t : Tally) :
    (add t).total = t.total + 1 := by
  simp only [steps, List.mem_cons, List.not_mem_nil, or_false] at h
  rcases h with rfl | rfl | rfl | rfl | rfl | rfl | rfl <;>
    simp only [total, addClass, addMemberRef, addMember, addDynamic, addSignature,
      addEnclosingMethod, addAttribute] <;> omega

end Tally

/-- Whether the entry is a module or a package, which are not counted when they are renamed. -/
def Constant.isModule : Constant → Bool
  | .module _ | .package _ => true
  | _ => false

/-- From `p` and `t` to `q` and `u` nothing is counted exactly if `kept` holds, and the pool is as
it was then. -/
structure Tally.Counts (kept : Prop) (p : Pool) (t : Tally) (q : Pool) (u : Tally) : Prop where
  sound : q.Sound
  total_le : t.total ≤ u.total
  total_eq_iff : u.total = t.total ↔ kept
  pool_eq : kept → q = p

namespace Tally.Counts

variable {k l : Prop} {p q s : Pool} {t u v : Tally}

theorem of_kept (hk : k) (hp : p.Sound) : Counts k p t p t :=
  ⟨hp, Nat.le_refl _, by simp [hk], fun _ => rfl⟩

theorem of_changed (hk : ¬ k) (hq : q.Sound) (htotal : u.total = t.total + 1) :
    Counts k p t q u :=
  ⟨hq, by omega, by simp [htotal, hk], fun h => absurd h hk⟩

theorem trans (h : Counts k p t q u) (h' : Counts l q u s v) : Counts (k ∧ l) p t s v where
  sound := h'.sound
  total_le := Nat.le_trans h.total_le h'.total_le
  total_eq_iff := by
    have := h.total_le
    have := h'.total_le
    rw [← h.total_eq_iff, ← h'.total_eq_iff]
    omega
  pool_eq hkl := (h'.pool_eq hkl.2).trans (h.pool_eq hkl.1)

theorem congr (h : Counts k p t q u) (hkl : k ↔ l) : Counts l p t q u := propext hkl ▸ h

end Tally.Counts

/-- From `f` to `g` nothing is counted exactly if `kept` holds. -/
abbrev Focus.Counts (kept : Prop) (f : Focus α) (g : Focus β) : Prop :=
  Tally.Counts kept f.pool f.tally g.pool g.tally

namespace Edit

/-- Where the edit succeeds, nothing is counted exactly if the item stays as it is. -/
def CountsChanges (e : Edit α Unit) : Prop :=
  ∀ ⦃f f' : Focus α⦄, f.pool.Sound → e f = .ok () f' → Focus.Counts (f'.item = f.item) f f'

theorem CountsChanges.inside {view : α → β} {put : β → α → α} {e : Edit β Unit}
    (he : CountsChanges e) (hput : ∀ a b, put b a = a ↔ b = view a) :
    CountsChanges (inside view put e) := by
  intro f f' hp h
  obtain ⟨b, hb, hitem⟩ := inside_eq_ok h
  rw [hitem, hput]
  exact he (by exact hp) hb

/-- The items are edited one after the other, and none of them is edited again. -/
theorem CountsChanges.each {e : Edit α Unit} (he : CountsChanges e) :
    CountsChanges (Edit.each e) := by
  have key (rest : List α) : ∀ (done : Array α) (f : Focus Unit) (f' : Focus (Array α)),
      f.pool.Sound → eachFrom e done rest f = .ok () f' →
        ∃ items, f'.item.toList = done.toList ++ items ∧ Focus.Counts (items = rest) f f' := by
    induction rest with
    | nil =>
      intro done f f' hp h
      cases h
      exact ⟨[], by simp, .of_kept rfl hp⟩
    | cons a rest ih =>
      intro done f f' hp h
      rw [eachFrom] at h
      split at h
      case h_2 => cases h
      case h_1 b pool tally notices hb =>
        have hfirst := he (by exact hp) hb
        obtain ⟨items, hitems, hrest⟩ :=
          ih (done.push b) ⟨(), pool, tally, notices⟩ f' hfirst.sound h
        exact ⟨b :: items, by simpa using hitems, (hfirst.trans hrest).congr (by simp)⟩
  intro f f' hp h
  obtain ⟨items, hitems, hcounts⟩ := key f.item.toList #[] ⟨(), f.pool, f.tally, f.notices⟩ f' hp h
  obtain rfl : f'.item.toList = items := by simpa using hitems
  exact hcounts.congr Array.toList_inj

/-! ## Texts and pairs -/

section

variable {r : Renaming} {f f' : Focus α} {m : UInt16} {o : Option UInt16}

/-- A text that stays is not interned, and a new text has another index. -/
theorem renamedText?_cases {text text' : String} (hp : f.pool.Sound)
    (hm : f.pool.utf8 m = .ok text) (h : renamedText? text text' f = .ok o f') :
    (text' = text ∧ o = none ∧ f' = f) ∨
      (text' ≠ text ∧ f'.tally = f.tally ∧ ∃ j, o = some j ∧ j ≠ m) := by
  obtain ⟨-, hgrow, hm'⟩ := renamedText?_eq_ok hp hm h
  unfold renamedText? at h
  split at h
  case isTrue heq =>
    cases h
    exact .inl ⟨heq, rfl, rfl⟩
  case isFalse hne =>
    obtain ⟨j, f₁, hintern, ⟨⟩⟩ := bind_eq_ok.mp h
    refine .inr ⟨hne, tally_of_onPool hintern, j, rfl, ?_⟩
    rintro rfl
    exact hne (Except.ok.inj (hm'.symm.trans (hgrow.utf8 hm)))

/-- A pair that stays is not interned, and a new pair has another index. -/
theorem renamedPair?_cases {name descriptor name' : String} (hp : f.pool.Sound)
    (hm : f.pool.nameAndType m = .ok (name, descriptor))
    (h : renamedPair? r name descriptor name' f = .ok o f') :
    (o = none ∧ f' = f) ∨ (f'.tally = f.tally ∧ ∃ j, o = some j ∧ j ≠ m) := by
  obtain ⟨-, hgrow, descriptor', hd, hm'⟩ := renamedPair?_eq_ok hp hm h
  rw [renamedPair?, bind_of_ok (ofFlaw_eq_ok.mpr ⟨hd, rfl⟩)] at h
  split at h
  case isTrue =>
    cases h
    exact .inl ⟨rfl, rfl⟩
  case isFalse hne =>
    obtain ⟨j, f₁, hintern, ⟨⟩⟩ := bind_eq_ok.mp h
    refine .inr ⟨tally_of_onPool hintern, j, rfl, ?_⟩
    rintro rfl
    have heq := Except.ok.inj (hm'.symm.trans (hgrow.nameAndType hm))
    exact hne (Prod.mk.inj heq)

/-- The item keeps its index exactly if the text stays. -/
theorem renameText_cases {put : UInt16 → α → α} {text text' : String} (hp : f.pool.Sound)
    (hm : f.pool.utf8 m = .ok text) (hput : put m f.item = f.item)
    (h : renameText put text text' f = .ok () f') :
    ∃ j, f'.item = put j f.item ∧ (j = m ↔ text' = text) ∧ f'.tally = f.tally ∧
      (text' = text → f'.pool = f.pool) := by
  obtain ⟨o, f₁, htext, h₁⟩ := bind_eq_ok.mp h
  obtain ⟨hitem, -⟩ := renamedText?_eq_ok hp hm htext
  obtain ⟨heq, rfl, rfl⟩ | ⟨hne, htally, j, rfl, hj⟩ := renamedText?_cases hp hm htext
  · cases h₁
    exact ⟨m, hput.symm, by simp [heq], rfl, fun _ => rfl⟩
  · cases h₁
    exact ⟨j, congrArg (put j) hitem, by simp [hj, hne], htally, fun heq => absurd heq hne⟩

end

/-! ## Entries -/

section

variable {r : Renaming} {f f' : Focus α} {i m : UInt16} {o : Option UInt16} {P : Constant → Bool}

/-- The entry at `i`, which is a `P`, is replaced, and this is counted unless it is a module or a
package. -/
def Replaces (P : Constant → Bool) (i : UInt16) (f f' : Focus α) : Prop :=
  ∃ old new, f.pool.get? i = some old ∧ P old = true ∧ f'.pool.get? i = some new ∧ new ≠ old ∧
    f'.tally.total = f.tally.total + if old.isModule then 0 else 1

section

variable {build : UInt16 → Constant} {add : Tally → Tally}
  (hinj : Function.Injective build) (hbuild : ∀ j, P (build j) = true)
  (hplain : P .unusable = false)
  (hadd : ∀ t, (add t).total = t.total + if (build m).isModule then 0 else 1)
  (hi : f.pool.get? i = some (build m))
include hinj hbuild hplain hadd hi

theorem replaces_of_repoint {g : Focus α} {j : UInt16} (hj : j ≠ m) (hg : f.pool.Grows g.pool)
    (htally : g.tally = f.tally) (h : repoint i build add (some j) g = .ok () f') :
    Replaces P i f f' := by
  obtain ⟨hentry, -⟩ := repoint_eq_ok (hg.get? hi trivial) hbuild hplain h
  obtain ⟨_, g', hset, ⟨⟩⟩ := bind_eq_ok.mp h
  refine ⟨_, _, hi, hbuild m, hentry, fun heq => hj (hinj heq), ?_⟩
  rw [← hadd, ← htally, ← tally_of_onPool hset]

theorem repointText_cases {newText : String → Except Flaw String} (hp : f.pool.Sound)
    (h : repointText i build add m newText f = .ok () f') : f' = f ∨ Replaces P i f f' := by
  obtain ⟨text, _, hlook, h⟩ := bind_eq_ok.mp h
  obtain ⟨hm, rfl⟩ := look_eq_ok.mp hlook
  obtain ⟨text', _, hnew, h⟩ := bind_eq_ok.mp h
  obtain ⟨-, rfl⟩ := ofFlaw_eq_ok.mp hnew
  obtain ⟨o, g, hintern, hrepoint⟩ := bind_eq_ok.mp h
  obtain ⟨-, hgrow, -⟩ := renamedText?_eq_ok hp hm hintern
  obtain ⟨-, rfl, rfl⟩ | ⟨-, htally, j, rfl, hj⟩ := renamedText?_cases hp hm hintern
  · cases hrepoint
    exact .inl rfl
  · exact .inr (replaces_of_repoint hinj hbuild hplain hadd hi hj hgrow htally hrepoint)

theorem repointPair_cases {newName : String → String → String} (hp : f.pool.Sound)
    (h : repointPair r i build add m newName f = .ok () f') : f' = f ∨ Replaces P i f f' := by
  obtain ⟨⟨name, descriptor⟩, _, hlook, h⟩ := bind_eq_ok.mp h
  obtain ⟨hm, rfl⟩ := look_eq_ok.mp hlook
  obtain ⟨o, g, hintern, hrepoint⟩ := bind_eq_ok.mp h
  obtain ⟨-, hgrow, -⟩ := renamedPair?_eq_ok hp hm hintern
  obtain ⟨rfl, rfl⟩ | ⟨htally, j, rfl, hj⟩ := renamedPair?_cases hp hm hintern
  · cases hrepoint
    exact .inl rfl
  · exact .inr (replaces_of_repoint hinj hbuild hplain hadd hi hj hgrow htally hrepoint)

end

/-- A reference is left alone or replaced. -/
theorem renameReference_cases (hp : f.pool.Sound) (h : renameReference r i f = .ok () f') :
    f' = f ∨ Replaces Constant.isReference i f f' := by
  rw [renameReference, query_bind] at h
  cases hi : f.pool.get? i with
  | none =>
    rw [hi] at h
    cases h
    exact .inl rfl
  | some c =>
    rw [hi] at h
    cases c with
    | memberRef kind owner member =>
      obtain ⟨ownerName, _, hlook, h⟩ := bind_eq_ok.mp h
      obtain ⟨-, rfl⟩ := look_eq_ok.mp hlook
      exact repointPair_cases (fun _ _ h => (Constant.memberRef.inj h).2.2) (fun _ => rfl) rfl
        (Tally.total_step (by simp [Tally.steps])) hi hp h
    | dynamic bootstrap member =>
      exact repointPair_cases (fun _ _ h => (Constant.dynamic.inj h).2) (fun _ => rfl) rfl
        (Tally.total_step (by simp [Tally.steps])) hi hp h
    | invokeDynamic bootstrap member =>
      exact repointPair_cases (fun _ _ h => (Constant.invokeDynamic.inj h).2) (fun _ => rfl) rfl
        (Tally.total_step (by simp [Tally.steps])) hi hp h
    | methodType descriptor =>
      exact repointText_cases (fun _ _ h => Constant.methodType.inj h) (fun _ => rfl) rfl
        (Tally.total_step (by simp [Tally.steps])) hi hp h
    | module name =>
      exact repointText_cases (fun _ _ h => Constant.module.inj h) (fun _ => rfl) rfl
        (fun _ => rfl) hi hp h
    | package name =>
      exact repointText_cases (fun _ _ h => Constant.package.inj h) (fun _ => rfl) rfl
        (fun _ => rfl) hi hp h
    | _ =>
      cases h
      exact .inl rfl

theorem renameClassEntry_cases (hp : f.pool.Sound) (h : renameClassEntry r i f = .ok () f') :
    f' = f ∨ Replaces Constant.isClassRef i f f' := by
  by_cases hpass : ∀ c, f.pool.get? i = some c → c.isClassRef = false
  case pos =>
    cases (renameClassEntry_passes hpass).symm.trans h
    exact .inl rfl
  case neg =>
    obtain ⟨c, hc⟩ := Classical.not_forall.mp hpass
    obtain ⟨hi, hkind⟩ := Classical.not_imp.mp hc
    rw [renameClassEntry, query_bind, hi] at h
    cases c with
    | classRef name =>
      exact repointText_cases (fun _ _ h => Constant.classRef.inj h) (fun _ => rfl) rfl
        (Tally.total_step (by simp [Tally.steps])) hi hp h
    | _ => exact absurd rfl hkind

end

/-! ## All entries -/

section

variable {e : UInt16 → Edit α Unit} {P : Constant → Bool} {f f' : Focus α} {n first slots : Nat}

/-- The edit `e i` replaces the entry at `i` if it is a `P`, and leaves all others alone. -/
structure Entrywise (P : Constant → Bool) (e : UInt16 → Edit α Unit) : Prop where
  stays : ∀ i, Stays Eq (Pool.Frame fun j c => j = i → P c = false) (e i)
  cases : ∀ ⦃i f f'⦄, f.pool.Sound → e i f = .ok () f' → f' = f ∨ Replaces P i f f'

theorem entrywise_renameReference (r : Renaming) :
    Entrywise Constant.isReference (renameReference r : UInt16 → Edit α Unit) where
  stays _ := stays_renameReference_frame
  cases _ _ _ := renameReference_cases

theorem entrywise_renameClassEntry (r : Renaming) :
    Entrywise Constant.isClassRef (renameClassEntry r : UInt16 → Edit α Unit) where
  stays _ := stays_renameClassEntry_frame
  cases _ _ _ := renameClassEntry_cases

namespace Entrywise

variable (he : Entrywise P e)
include he

/-- An entry that was visited is left alone from then on. -/
theorem stays_behind (hn : first + n < 65536) :
    Stays Eq (Pool.Frame fun j c => j = UInt16.ofNat first ∨ P c = false)
      (timesFrom e n (first + 1)) := by
  refine within_timesFrom fun j hj hjn => (he.stays _).mono fun _ _ h =>
    ⟨h.item, h.pool.mono fun k c _ hK hk => hK.resolve_left ?_, h.notices⟩
  rintro rfl
  have heq := congrArg UInt16.toNat hk
  have hlt : j < 65536 := by omega
  rw [UInt16.toNat_ofNat_of_lt' (Nat.lt_trans hj hlt), UInt16.toNat_ofNat_of_lt' hlt] at heq
  omega

/-- Nothing is counted exactly if the entries that would be counted stay. Entries behind the first
`slots` are texts and pairs that the run adds itself. -/
theorem timesFrom_total (hn : first + n ≤ slots) (hslots : slots ≤ f.pool.slots)
    (hp : f.pool.Sound) (h : timesFrom e n first f = .ok () f') :
    f.tally.total ≤ f'.tally.total ∧ (f'.tally.total = f.tally.total ↔
      ∀ ⦃i : UInt16⦄ ⦃c : Constant⦄, i.toNat < slots → f.pool.get? i = some c → P c = true →
        c.isModule = false → f'.pool.get? i = some c) := by
  induction n generalizing first f with
  | zero =>
    cases h
    exact ⟨Nat.le_refl _, fun _ _ _ _ hi _ _ => hi, fun _ => rfl⟩
  | succ n ih =>
    have hmax : f.pool.slots ≤ 65535 := hp.slots_le
    obtain ⟨⟨⟩, g, hstep, hrest⟩ := bind_eq_ok.mp h
    have hframe := ((he.stays _).ok hstep).pool
    obtain ⟨htotal, hiff⟩ := ih (by omega) (Nat.le_trans hslots hframe.slots_le)
      (hframe.sound hp) hrest
    obtain rfl | ⟨old, new, hold, hP, hnew, hne, hcount⟩ := he.cases hp hstep
    case inl => exact ⟨htotal, hiff⟩
    have hkept : f'.pool.get? (UInt16.ofNat first) = some new :=
      ((he.stays_behind (by omega)).ok hrest).pool.get? hnew (.inl rfl)
    by_cases hcounted : old.isModule = false
    case pos =>
      rw [if_neg (by simp [hcounted])] at hcount
      have hfirst : (UInt16.ofNat first).toNat < slots := by
        have hlt : first < 65536 := by omega
        rw [UInt16.toNat_ofNat_of_lt' hlt]
        omega
      refine ⟨by omega, fun heq => by omega, fun hall => ?_⟩
      have hsame := hall hfirst hold hP hcounted
      exact absurd (Option.some.inj (hkept.symm.trans hsame)) hne
    case neg =>
      rw [if_pos (by simpa using hcounted), Nat.add_zero] at hcount
      refine ⟨by omega, ?_⟩
      rw [← hcount, hiff]
      -- the replaced entry is not counted, and all others are the same in `f` and `g`
      refine forall₂_congr fun i c => ?_
      by_cases hi : i = UInt16.ofNat first
      case pos =>
        subst hi
        refine iff_of_true (fun _ hi _ _ => ?_) fun _ hi _ hc => ?_
        · cases hnew.symm.trans hi
          exact hkept
        · cases hold.symm.trans hi
          exact absurd hc hcounted
      case neg =>
        refine imp_congr_right fun hlt => ?_
        rw [hframe.get?_eq (Nat.lt_of_lt_of_le hlt hslots) fun _ _ heq => absurd heq hi]

/-- A run changes nothing, or there is a first entry that it replaces. -/
theorem timesFrom_cases (hn : first + n ≤ f.pool.slots) (hp : f.pool.Sound)
    (h : timesFrom e n first f = .ok () f') :
    ((∀ j, first ≤ j → j < first + n → e (UInt16.ofNat j) f = .ok () f) ∧ f' = f) ∨
    ∃ j g old new, e j f = .ok () g ∧ g ≠ f ∧ f.pool.get? j = some old ∧ P old = true ∧
      f'.pool.get? j = some new ∧ new ≠ old ∧
      (old.isModule = false → f.tally.total < f'.tally.total) := by
  induction n generalizing first with
  | zero =>
    cases h
    exact .inl ⟨fun j _ _ => by omega, rfl⟩
  | succ n ih =>
    have hmax : f.pool.slots ≤ 65535 := hp.slots_le
    obtain ⟨⟨⟩, g, hstep, hrest⟩ := bind_eq_ok.mp h
    obtain rfl | ⟨old, new, hold, hP, hnew, hne, hcount⟩ := he.cases hp hstep
    case inl =>
      refine (ih (by omega) hrest).imp_left fun ⟨hall, heq⟩ => ⟨fun j hj hjn => ?_, heq⟩
      obtain rfl | hlt := Nat.eq_or_lt_of_le hj
      · exact hstep
      · exact hall j hlt (by omega)
    case inr =>
      have hframe := ((he.stays _).ok hstep).pool
      have htotal := (he.timesFrom_total (by omega) hframe.slots_le (hframe.sound hp) hrest).1
      refine .inr ⟨_, g, old, new, hstep, ?_, hold, hP,
        ((he.stays_behind (by omega)).ok hrest).pool.get? hnew (.inl rfl), hne, ?_⟩
      · rintro rfl
        exact hne (Option.some.inj (hnew.symm.trans hold))
      · intro hcounted
        rw [if_neg (by simp [hcounted])] at hcount
        omega

end Entrywise

end

end Edit

end Relabel
