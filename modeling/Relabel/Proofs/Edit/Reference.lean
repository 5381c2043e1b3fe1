import Relabel.Proofs.Edit.Run
import Relabel.Proofs.Renaming.Referent

/-!
# Renaming one entry

The entry at an index is given the index of its new name, and the new name is what it
stands for afterwards. All that other entries read on their way to a text stays: the
first phase replaces references only, which no entry looks up, and the second phase
replaces class entries only.
-/

namespace Relabel

/-- Whether the first phase replaces the entry. -/
def Constant.isReference : Constant → Bool
  | .memberRef .. | .dynamic .. | .invokeDynamic .. | .methodType _ | .module _ | .package _ => true
  | _ => false

/-- Whether the second phase replaces the entry. -/
def Constant.isClassRef : Constant → Bool
  | .classRef _ => true
  | _ => false

theorem Constant.isClassRef_of_isReference {c : Constant} (h : c.isReference = true) :
    c.isClassRef = false := by
  cases c <;> first | rfl | cases h

theorem Constant.isReference_of_isClassRef {c : Constant} (h : c.isClassRef = true) :
    c.isReference = false := by
  cases c <;> first | rfl | cases h

instance : Pool.PicksTexts fun _ c => c.isReference = false := ⟨fun _ _ => rfl, fun _ _ _ => rfl⟩

instance : Pool.PicksNames fun _ c => c.isReference = false := ⟨fun _ _ => rfl⟩

instance : Pool.PicksTexts fun _ c => c.isClassRef = false := ⟨fun _ _ => rfl, fun _ _ _ => rfl⟩

namespace Edit

variable {α : Type} {r : Renaming} {f f' : Focus α} {i : UInt16}

/-! ## Interning what has changed -/

section

variable {I : α → α → Prop} {R : Pool → Pool → Prop} [IsPreorder α I] [IsPreorder Pool R]

theorem stays_renamedText? (hR : Pool.Interns R) {text text' : String} :
    Stays I R (renamedText? text text' : Edit α _) :=
  .ite (.pure _) (.bind (stays_onPool (hR.utf8 _)) fun _ => .pure _)

theorem stays_renameText (hR : Pool.Interns R) {put : UInt16 → α → α}
    (hput : ∀ index a, I a (put index a)) {text text' : String} :
    Stays I R (renameText put text text') := by
  refine .bind (stays_renamedText? hR) ?_
  intro o
  cases o with
  | none => exact .pure _
  | some index => exact stays_modifyItem (hput index)

theorem stays_renamedPair? (hR : Pool.Interns R) {name descriptor name' : String} :
    Stays I R (renamedPair? r name descriptor name' : Edit α _) :=
  .bind (within_ofFlaw _) fun _ =>
    .ite (.pure _) (.bind (stays_onPool (hR.nameAndType _ _)) fun _ => .pure _)

end

variable {g : Focus α} {o : Option UInt16} {m : UInt16}

/-- The new index, or the old one if there is none, leads to the new text. -/
theorem renamedText?_eq_ok {text text' : String} (hp : f.pool.Sound)
    (hm : f.pool.utf8 m = .ok text) (h : renamedText? text text' f = .ok o g) :
    g.item = f.item ∧ f.pool.Grows g.pool ∧ g.pool.utf8 (o.getD m) = .ok text' := by
  have hgrow : Focus.Related Eq Pool.Grows f g :=
    (stays_renamedText? Pool.interns_frame).ok h
  refine ⟨hgrow.1.symm, hgrow.2, ?_⟩
  unfold renamedText? at h
  split at h
  case isTrue heq =>
    cases h
    exact heq ▸ hm
  case isFalse =>
    obtain ⟨j, f₁, hintern, ⟨⟩⟩ := bind_eq_ok.mp h
    obtain ⟨hj, -⟩ := onPool_eq_ok hintern
    exact Pool.utf8_of_internUtf8 hp hj

/-- The item gets an index that leads to the new text. -/
theorem renameText_eq_ok {put : UInt16 → α → α} {text text' : String} (hp : f.pool.Sound)
    (hm : f.pool.utf8 m = .ok text) (hput : put m f.item = f.item)
    (h : renameText put text text' f = .ok () g) :
    f.pool.Grows g.pool ∧ ∃ j, g.item = put j f.item ∧ g.pool.utf8 j = .ok text' := by
  obtain ⟨o, f₁, htext, h⟩ := bind_eq_ok.mp h
  obtain ⟨hitem, hgrow, hm'⟩ := renamedText?_eq_ok hp hm htext
  cases o with
  | none =>
    cases h
    exact ⟨hgrow, m, hitem.trans hput.symm, hm'⟩
  | some j =>
    cases h
    exact ⟨hgrow, j, congrArg (put j) hitem, hm'⟩

section

variable {text text' : String} (hp : f.pool.Sound) (hne : text' ≠ text)
  (hnew : .utf8 text' ∉ f.pool.entries) (hroom : f.pool.slots < Pool.maxSlots)
include hp hne hnew hroom

/-- A text that is not there gets the first index behind the pool. -/
theorem renamedText?_of_fresh : (renamedText? text text' : Edit α _) f
    = .ok (some f.pool.count) { f with pool := f.pool.append (.utf8 text') } := by
  have hintern : Pool.internUtf8 text' f.pool = .ok f.pool.count (f.pool.append (.utf8 text')) :=
    Pool.intern_of_fresh hp hnew hroom
  rw [renamedText?, if_neg hne, bind_of_ok (onPool_of_ok hintern)]
  rfl

theorem renameText_of_fresh {put : UInt16 → α → α} : renameText put text text' f
    = .ok () { f with item := put f.pool.count f.item, pool := f.pool.append (.utf8 text') } := by
  rw [renameText, bind_of_ok (renamedText?_of_fresh hp hne hnew hroom)]
  rfl

theorem repointText_of_fresh (build : UInt16 → Constant) (add : Tally → Tally)
    (newText : String → Except Flaw String) {old : Constant} (hi : f.pool.get? i = some old)
    (hm : f.pool.utf8 m = .ok text) (htext : newText text = .ok text')
    (hwidth : old.width = (build f.pool.count).width) :
    ∃ q : Pool, q.entries
        = (f.pool.entries.push (.utf8 text')).setIfInBounds i.toNat (build f.pool.count) ∧
      repointText i build add m newText f = .ok () ⟨f.item, q, add f.tally, f.notices⟩ := by
  have hold : (f.pool.append (.utf8 text')).get? i = some old := Pool.get?_append hi
  obtain ⟨q, hset⟩ := Pool.set_of_get? hold hwidth
  obtain ⟨old', -, -, hq⟩ := Pool.set_eq_ok hset
  refine ⟨q, by rw [hq]; rfl, ?_⟩
  rw [repointText, look_bind hm, bind_of_ok (ofFlaw_eq_ok.mpr ⟨htext, rfl⟩),
    bind_of_ok (renamedText?_of_fresh hp hne hnew hroom)]
  exact bind_of_ok (onPool_of_ok hset)

end

/-- The new index, or the old one if there is none, leads to the new name and descriptor. -/
theorem renamedPair?_eq_ok {name descriptor name' : String} (hp : f.pool.Sound)
    (hm : f.pool.nameAndType m = .ok (name, descriptor))
    (h : renamedPair? r name descriptor name' f = .ok o g) :
    g.item = f.item ∧ f.pool.Grows g.pool ∧ ∃ descriptor',
      r.descriptor descriptor = .ok descriptor' ∧
      g.pool.nameAndType (o.getD m) = .ok (name', descriptor') := by
  have hgrow : Focus.Related Eq Pool.Grows f g :=
    (stays_renamedPair? Pool.interns_frame).ok h
  refine ⟨hgrow.1.symm, hgrow.2, ?_⟩
  obtain ⟨descriptor', f₁, hparse, h⟩ := bind_eq_ok.mp h
  obtain ⟨hd, rfl⟩ := ofFlaw_eq_ok.mp hparse
  refine ⟨descriptor', hd, ?_⟩
  split at h
  case isTrue heq =>
    cases h
    rw [heq.1, heq.2]
    exact hm
  case isFalse =>
    obtain ⟨j, f₁, hintern, ⟨⟩⟩ := bind_eq_ok.mp h
    obtain ⟨hj, -⟩ := onPool_eq_ok hintern
    exact Pool.nameAndType_of_internNameAndType hp hj

/-! ## Frames of one entry -/

section

variable {R : Pool → Pool → Prop} [IsPreorder Pool R] {build : UInt16 → Constant}
  {add : Tally → Tally}

theorem stays_repoint (hset : ∀ j, Within R (Pool.set i (build j))) (o : Option UInt16) :
    Stays Eq R (repoint i build add o : Edit α Unit) := by
  cases o with
  | none => exact .pure _
  | some j => exact .bind (stays_onPool (hset j)) fun _ => stays_count _

variable (hR : Pool.Interns R)
include hR

theorem stays_repointPair (hset : ∀ j, Within R (Pool.set i (build j))) (old : UInt16)
    (newName : String → String → String) :
    Stays Eq R (repointPair r i build add old newName : Edit α Unit) :=
  .bind (within_look _) fun _ => .bind (stays_renamedPair? hR) fun o => stays_repoint hset o

theorem stays_repointText (hset : ∀ j, Within R (Pool.set i (build j))) (old : UInt16)
    (newText : String → Except Flaw String) :
    Stays Eq R (repointText i build add old newText : Edit α Unit) :=
  .bind (within_look _) fun _ => .bind (within_ofFlaw _) fun _ =>
    .bind (stays_renamedText? hR) fun o => stays_repoint hset o

theorem stays_renameReference (hset : ∀ c, c.isReference = true → Within R (Pool.set i c)) :
    Stays Eq R (renameReference r i : Edit α Unit) := by
  refine .bind (within_query _) ?_
  intro o
  split
  case h_1 =>
    exact .bind (within_look _) fun _ => stays_repointPair hR (fun _ => hset _ rfl) _ _
  case h_2 | h_3 => exact stays_repointPair hR (fun _ => hset _ rfl) _ _
  case h_4 | h_5 | h_6 => exact stays_repointText hR (fun _ => hset _ rfl) _ _
  case h_7 => exact .pure _

theorem stays_renameClassEntry (hset : ∀ c, c.isClassRef = true → Within R (Pool.set i c)) :
    Stays Eq R (renameClassEntry r i : Edit α Unit) := by
  refine .bind (within_query _) ?_
  intro o
  split
  case h_1 => exact stays_repointText hR (fun _ => hset _ rfl) _ _
  case h_2 => exact .pure _

end

/-- An edit of the entry at `i` that passes all others leaves all others alone. -/
theorem stays_of_passes {e : Edit α Unit} {P : Constant → Bool}
    (he : Stays Eq (Pool.Frame fun j _ => i ≠ j) e)
    (hpass : ∀ f : Focus α, (∀ c, f.pool.get? i = some c → P c = false) → e f = .ok () f) :
    Stays Eq (Pool.Frame fun j c => j = i → P c = false) e := by
  refine .of_stateOf ?_
  intro f
  by_cases h : ∀ c, f.pool.get? i = some c → P c = false
  · rw [hpass f h]
    exact refl_of _ f
  · obtain ⟨old, hold⟩ := Classical.not_forall.mp h
    obtain ⟨hi, hold⟩ := Classical.not_imp.mp hold
    obtain ⟨hitem, hpool, hnotices⟩ := he.related f
    exact ⟨hitem, hpool.of_ne hi (by simpa using hold), hnotices⟩

theorem renameReference_passes
    (h : ∀ c, f.pool.get? i = some c → c.isReference = false) :
    renameReference r i f = .ok () f := by
  rw [renameReference, query_bind]
  cases hi : f.pool.get? i with
  | none => rfl
  | some c =>
    have hc := h c hi
    cases c <;> first | rfl | cases hc

theorem renameClassEntry_passes
    (h : ∀ c, f.pool.get? i = some c → c.isClassRef = false) :
    renameClassEntry r i f = .ok () f := by
  rw [renameClassEntry, query_bind]
  cases hi : f.pool.get? i with
  | none => rfl
  | some c =>
    have hc := h c hi
    cases c <;> first | rfl | cases hc

theorem stays_renameReference_frame :
    Stays Eq (Pool.Frame fun j c => j = i → c.isReference = false)
      (renameReference r i : Edit α Unit) :=
  stays_of_passes (stays_renameReference Pool.interns_frame fun c _ => Pool.within_set i c)
    fun _ => renameReference_passes

theorem stays_renameClassEntry_frame :
    Stays Eq (Pool.Frame fun j c => j = i → c.isClassRef = false)
      (renameClassEntry r i : Edit α Unit) :=
  stays_of_passes (stays_renameClassEntry Pool.interns_frame fun c _ => Pool.within_set i c)
    fun _ => renameClassEntry_passes

/-! ## What the entry stands for afterwards -/

section

variable {build : UInt16 → Constant} {add : Tally → Tally} {P : Constant → Bool}

/-- The entry keeps its kind, and entries of other kinds are left alone. -/
theorem repoint_eq_ok (hi : f.pool.get? i = some (build m)) (hbuild : ∀ j, P (build j) = true)
    (hplain : P .unusable = false) (h : repoint i build add o f = .ok () f') :
    f'.pool.get? i = some (build (o.getD m)) ∧
      Pool.Frame (fun j c => j = i → P c = false) f.pool f'.pool := by
  cases o with
  | none =>
    cases h
    exact ⟨hi, Pool.Frame.refl _⟩
  | some j =>
    obtain ⟨_, g, hset, hcount⟩ := bind_eq_ok.mp h
    obtain ⟨hset, -⟩ := onPool_eq_ok hset
    rw [(count_eq_ok hcount).1]
    have hne : build j ≠ .unusable := by
      intro hj
      have := hbuild j
      simp_all
    exact ⟨Pool.get?_of_set hne hset, ((Pool.within_set i _).ok hset).of_ne hi (hbuild m)⟩

/-- An entry that leads to a name and a descriptor leads to the new ones. -/
theorem repointPair_eq_ok {name descriptor : String} {newName : String → String → String}
    (hp : f.pool.Sound) (hbuild : ∀ j, (build j).isReference = true)
    (hi : f.pool.get? i = some (build m)) (hm : f.pool.nameAndType m = .ok (name, descriptor))
    (h : repointPair r i build add m newName f = .ok () f') :
    ∃ descriptor' j, r.descriptor descriptor = .ok descriptor' ∧
      f'.pool.get? i = some (build j) ∧
      f'.pool.nameAndType j = .ok (newName name descriptor, descriptor') := by
  rw [repointPair, look_bind hm] at h
  obtain ⟨o, g, hpair, h⟩ := bind_eq_ok.mp h
  obtain ⟨-, hgrow, descriptor', hd, hm'⟩ := renamedPair?_eq_ok hp hm hpair
  obtain ⟨hentry, hframe⟩ := repoint_eq_ok (hgrow.get? hi trivial) hbuild rfl h
  exact ⟨descriptor', _, hd, hentry, hframe.nameAndType hm'⟩

/-- An entry that leads to a text leads to the new one. -/
theorem repointText_eq_ok [Pool.PicksTexts fun _ c => P c = false] {text : String}
    {newText : String → Except Flaw String} (hp : f.pool.Sound)
    (hbuild : ∀ j, P (build j) = true) (hplain : P .unusable = false)
    (hi : f.pool.get? i = some (build m)) (hm : f.pool.utf8 m = .ok text)
    (h : repointText i build add m newText f = .ok () f') :
    ∃ text' j, newText text = .ok text' ∧ f'.pool.get? i = some (build j) ∧
      f'.pool.utf8 j = .ok text' := by
  rw [repointText, look_bind hm] at h
  obtain ⟨text', _, hnew, h⟩ := bind_eq_ok.mp h
  obtain ⟨htext, rfl⟩ := ofFlaw_eq_ok.mp hnew
  obtain ⟨o, g, hintern, h⟩ := bind_eq_ok.mp h
  obtain ⟨-, hgrow, hm'⟩ := renamedText?_eq_ok hp hm hintern
  obtain ⟨hentry, hframe⟩ := repoint_eq_ok (hgrow.get? hi trivial) hbuild hplain h
  exact ⟨text', _, htext, hentry, hframe.utf8 hm'⟩

end

/-- If renaming a reference succeeds, it refers to something. -/
theorem exists_refers {c : Constant} (h : renameReference r i f = .ok () f')
    (hi : f.pool.get? i = some c)
    (hc : c.isReference = true) : ∃ t, f.pool.Refers i t := by
  rw [renameReference, query_bind, hi] at h
  cases c with
  | memberRef kind owner member =>
    obtain ⟨ownerName, _, hlook, h⟩ := bind_eq_ok.mp h
    obtain ⟨howner, rfl⟩ := look_eq_ok.mp hlook
    obtain ⟨⟨name, descriptor⟩, _, hlook, -⟩ := bind_eq_ok.mp h
    exact ⟨_, .memberRef hi howner (look_eq_ok.mp hlook).1⟩
  | dynamic bootstrap member =>
    obtain ⟨⟨name, descriptor⟩, _, hlook, -⟩ := bind_eq_ok.mp h
    exact ⟨_, .dynamic hi (look_eq_ok.mp hlook).1⟩
  | invokeDynamic bootstrap member =>
    obtain ⟨⟨name, descriptor⟩, _, hlook, -⟩ := bind_eq_ok.mp h
    exact ⟨_, .invokeDynamic hi (look_eq_ok.mp hlook).1⟩
  | methodType descriptor =>
    obtain ⟨text, _, hlook, -⟩ := bind_eq_ok.mp h
    exact ⟨_, .methodType hi (look_eq_ok.mp hlook).1⟩
  | module name =>
    obtain ⟨text, _, hlook, -⟩ := bind_eq_ok.mp h
    exact ⟨_, .module hi (look_eq_ok.mp hlook).1⟩
  | package name =>
    obtain ⟨text, _, hlook, -⟩ := bind_eq_ok.mp h
    exact ⟨_, .package hi (look_eq_ok.mp hlook).1⟩
  | _ => cases hc

theorem exists_className {j : UInt16} (h : renameClassEntry r i f = .ok () f')
    (hi : f.pool.get? i = some (.classRef j)) : ∃ name, f.pool.className i = .ok name := by
  rw [renameClassEntry, query_bind, hi] at h
  obtain ⟨name, _, hlook, -⟩ := bind_eq_ok.mp h
  exact ⟨name, Pool.className_eq_ok.mpr ⟨j, hi, (look_eq_ok.mp hlook).1⟩⟩

/-- The first phase gives an entry its new names, up to those of classes. -/
theorem renameReference_refers {t : Referent} (hp : f.pool.Sound) (ht : f.pool.Refers i t)
    (h : renameReference r i f = .ok () f') :
    ∃ t', t.renameMembers r = .ok t' ∧ f'.pool.Refers i t' := by
  have hframe : Focus.Related Eq _ f f' := stays_renameReference_frame.ok h
  cases ht with
  | classRef entry text =>
    have hpass : renameReference r i f = .ok () f := renameReference_passes fun c hc => by
      cases entry.symm.trans hc
      rfl
    cases hpass.symm.trans h
    exact ⟨_, rfl, .classRef entry text⟩
  | memberRef entry owner member =>
    rw [renameReference, query_bind, entry] at h
    dsimp only at h
    rw [look_bind owner] at h
    obtain ⟨descriptor', j, hd, hentry, hj⟩ :=
      repointPair_eq_ok hp (fun _ => rfl) entry member h
    refine ⟨_, ?_, .memberRef hentry (hframe.2.className owner) hj⟩
    simp only [Referent.renameMembers, hd]
    rfl
  | dynamic entry member =>
    rw [renameReference, query_bind, entry] at h
    obtain ⟨descriptor', j, hd, hentry, hj⟩ :=
      repointPair_eq_ok hp (fun _ => rfl) entry member h
    refine ⟨_, ?_, .dynamic hentry hj⟩
    simp only [Referent.renameMembers, Referent.rename, hd]
    rfl
  | invokeDynamic entry member =>
    rw [renameReference, query_bind, entry] at h
    obtain ⟨descriptor', j, hd, hentry, hj⟩ :=
      repointPair_eq_ok hp (fun _ => rfl) entry member h
    refine ⟨_, ?_, .invokeDynamic hentry hj⟩
    simp only [Referent.renameMembers, Referent.rename, hd]
    rfl
  | methodType entry text =>
    rw [renameReference, query_bind, entry] at h
    obtain ⟨descriptor', j, hd, hentry, hj⟩ :=
      repointText_eq_ok (P := Constant.isReference) hp (fun _ => rfl) rfl entry text h
    refine ⟨_, ?_, .methodType hentry hj⟩
    simp only [Referent.renameMembers, Referent.rename, hd]
    rfl
  | module entry text =>
    rw [renameReference, query_bind, entry] at h
    obtain ⟨_, j, ⟨⟩, hentry, hj⟩ :=
      repointText_eq_ok (P := Constant.isReference) hp (fun _ => rfl) rfl entry text h
    exact ⟨_, rfl, .module hentry hj⟩
  | package entry text =>
    rw [renameReference, query_bind, entry] at h
    obtain ⟨_, j, ⟨⟩, hentry, hj⟩ :=
      repointText_eq_ok (P := Constant.isReference) hp (fun _ => rfl) rfl entry text h
    exact ⟨_, rfl, .package hentry hj⟩

/-- The second phase gives a class entry its new name. -/
theorem renameClassEntry_className {name : String} (hp : f.pool.Sound)
    (hname : f.pool.className i = .ok name) (h : renameClassEntry r i f = .ok () f') :
    ∃ name', r.type name = .ok name' ∧ f'.pool.className i = .ok name' := by
  obtain ⟨j, entry, text⟩ := Pool.className_eq_ok.mp hname
  rw [renameClassEntry, query_bind, entry] at h
  obtain ⟨name', k, hn, hentry, hk⟩ :=
    repointText_eq_ok (P := Constant.isClassRef) hp (fun _ => rfl) rfl entry text h
  exact ⟨name', hn, Pool.className_eq_ok.mpr ⟨k, hentry, hk⟩⟩

/-! ## All entries -/

section

variable {e : UInt16 → Edit α Unit} {P : Constant → Bool} {slots : Nat}

theorem stays_eachIndex
    (he : ∀ j, Stays Eq (Pool.Frame fun k c => k = j → P c = false) (e j : Edit α Unit)) :
    Stays Eq (Pool.Frame fun _ c => P c = false) (eachIndex e slots) :=
  within_timesFrom fun _ _ _ =>
    (he _).mono fun _ _ h => ⟨h.item, h.pool.mono fun _ _ _ hP _ => hP, h.notices⟩

/-- A pass comes to the entry at `i` before it was touched and leaves it alone afterwards. Before
and after, it stays within any relation that all its steps stay within. -/
theorem eachIndex_reaches {R : Pool → Pool → Prop} [IsPreorder Pool R]
    (he : ∀ j, Stays Eq (Pool.Frame fun k c => k = j → P c = false) (e j : Edit α Unit))
    (hR : ∀ j, Stays Eq R (e j)) (hslots : slots ≤ Pool.maxSlots) (hpos : 0 < i.toNat)
    (hi : i.toNat < slots) (h : eachIndex e slots f = .ok () f') :
    ∃ g g', Focus.Related Eq (fun p q => Pool.Frame (fun k c => k = i ∨ P c = false) p q ∧ R p q)
        f g ∧ e i g = .ok () g' ∧
      Focus.Related Eq (fun p q => Pool.Frame (fun k c => k = i ∨ P c = false) p q ∧ R p q)
        g' f' := by
  have hrun := timesFrom_eq_ok (I := Eq)
    (R := fun p q => Pool.Frame (fun k c => k = i ∨ P c = false) p q ∧ R p q)
    (k := i.toNat) (by omega) (by omega) (fun j _ hn hne => ?_) h
  · rwa [UInt16.ofNat_toNat] at hrun
  · refine .and ((he _).mono fun _ _ h => ⟨h.item, h.pool.mono fun k c _ hK hk => ?_, h.notices⟩)
      (hR _)
    refine hK.resolve_left ?_
    rintro rfl
    have hlt : j < 65536 := by
      unfold Pool.maxSlots at hslots
      omega
    exact hne (hk ▸ (UInt16.toNat_ofNat_of_lt hlt).symm)

theorem eachIndex_eq_ok
    (he : ∀ j, Stays Eq (Pool.Frame fun k c => k = j → P c = false) (e j : Edit α Unit))
    (hslots : slots ≤ Pool.maxSlots) (hpos : 0 < i.toNat) (hi : i.toNat < slots)
    (h : eachIndex e slots f = .ok () f') :
    ∃ g g', Focus.Related Eq (Pool.Frame fun k c => k = i ∨ P c = false) f g ∧
      e i g = .ok () g' ∧ Focus.Related Eq (Pool.Frame fun k c => k = i ∨ P c = false) g' f' := by
  obtain ⟨g, g', hbefore, hstep, hafter⟩ := eachIndex_reaches (R := Anything) he
    (fun j => (he j).mono fun _ _ h => ⟨h.item, trivial, h.notices⟩) hslots hpos hi h
  exact ⟨g, g', ⟨hbefore.item, hbefore.pool.1, hbefore.notices⟩, hstep,
    ⟨hafter.item, hafter.pool.1, hafter.notices⟩⟩

theorem eachIndex_renameReference {t : Referent} (hp : f.pool.Sound) (ht : f.pool.Refers i t)
    (h : eachIndex (renameReference r) f.pool.slots f = .ok () f') :
    ∃ t', t.renameMembers r = .ok t' ∧ f'.pool.Refers i t' := by
  obtain ⟨c, hi⟩ := ht.get?
  obtain ⟨g, g', hbefore, hstep, hafter⟩ := eachIndex_eq_ok
    (fun _ => stays_renameReference_frame) hp.slots_le (hp.index_pos hi) (Pool.get?_lt_slots hi) h
  have htg := ht.frame hbefore.2 fun _ _ => .inl rfl
  obtain ⟨t', ht', htg'⟩ := renameReference_refers (hbefore.2.sound hp) htg hstep
  exact ⟨t', ht', htg'.frame hafter.2 fun _ _ => .inl rfl⟩

theorem eachIndex_renameClassEntry {name : String} (hp : f.pool.Sound)
    (hname : f.pool.className i = .ok name) (hslots : slots ≤ Pool.maxSlots)
    (hi : i.toNat < slots) (h : eachIndex (renameClassEntry r) slots f = .ok () f') :
    ∃ name', r.type name = .ok name' ∧ f'.pool.className i = .ok name' := by
  obtain ⟨j, entry, text⟩ := Pool.className_eq_ok.mp hname
  obtain ⟨g, g', hbefore, hstep, hafter⟩ := eachIndex_eq_ok
    (fun _ => stays_renameClassEntry_frame) hslots (hp.index_pos entry) hi h
  have hg : g.pool.className i = .ok name := Pool.className_eq_ok.mpr
    ⟨j, hbefore.2.get? entry (.inl rfl), hbefore.2.utf8 text⟩
  obtain ⟨name', hn, hg'⟩ := renameClassEntry_className (hbefore.2.sound hp) hg hstep
  obtain ⟨k, entry', text'⟩ := Pool.className_eq_ok.mp hg'
  exact ⟨name', hn, Pool.className_eq_ok.mpr
    ⟨k, hafter.2.get? entry' (.inl rfl), hafter.2.utf8 text'⟩⟩

end

end Edit

end Relabel
