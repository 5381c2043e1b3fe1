import Relabel.Proofs.Edit.Member
import Relabel.Proofs.Renaming.Referent

/-!
# Edits that change nothing

An edit is quiet where it succeeds and leaves the item, the pool and the tally as they are.
It may give notices, so a run of edits is quiet if each of them is, whatever notices there
were before. Renaming is quiet on names that it maps to themselves.
-/

namespace Relabel.Edit

variable {α β γ : Type} {r : Renaming} {e : Edit α Unit} {f : Focus α} {i : UInt16}

/-- The edit succeeds and changes nothing; it may give notices. -/
def Quiet (e : Edit α Unit) (f : Focus α) : Prop := ∃ notices, e f = .ok () { f with notices }

theorem quiet_of_eq (h : e f = .ok () f) : Quiet e f := ⟨f.notices, h⟩

/-- A lookup in front changes nothing. -/
theorem Quiet.after {x : Edit α β} {k : β → Edit α Unit} {b : β} (hx : x f = .ok b f)
    (h : Quiet (k b) f) : Quiet (x >>= k) f := by
  obtain ⟨notices, h⟩ := h
  exact ⟨notices, by rw [bind_of_ok hx, h]⟩

theorem Quiet.bind {k : Unit → Edit α Unit} (h : Quiet e f)
    (hk : ∀ notices, Quiet (k ()) { f with notices }) : Quiet (e >>= k) f := by
  obtain ⟨notices, h⟩ := h
  obtain ⟨notices', hk⟩ := hk notices
  exact ⟨notices', by rw [bind_of_ok h, hk]⟩

/-- The part is put back as it was. -/
theorem Quiet.inside {view : α → β} {put : β → α → α} {e : Edit β Unit}
    (h : Quiet e ⟨view f.item, f.pool, f.tally, f.notices⟩)
    (hput : put (view f.item) f.item = f.item) : Quiet (inside view put e) f := by
  obtain ⟨notices, h⟩ := h
  exact ⟨notices, by rw [inside_of_ok h, hput]⟩

theorem quiet_each {f : Focus (Array α)}
    (h : ∀ a ∈ f.item, ∀ notices, Quiet e ⟨a, f.pool, f.tally, notices⟩) : Quiet (each e) f := by
  have key (rest : List α) : ∀ (done : Array α) notices, (∀ a ∈ rest, ∀ notices,
      Quiet e ⟨a, f.pool, f.tally, notices⟩) → ∃ notices',
        eachFrom e done rest ⟨(), f.pool, f.tally, notices⟩
          = .ok () ⟨done ++ rest, f.pool, f.tally, notices'⟩ := by
    induction rest with
    | nil => exact fun done notices _ => ⟨notices, by simp [eachFrom]⟩
    | cons a rest ih =>
      intro done notices h
      obtain ⟨ha, hrest⟩ := List.forall_mem_cons.mp h
      obtain ⟨notices₁, hrun⟩ := ha notices
      obtain ⟨notices₂, hruns⟩ := ih (done.push a) notices₁ hrest
      refine ⟨notices₂, ?_⟩
      rw [eachFrom, hrun]
      simpa using hruns
  obtain ⟨notices, hrun⟩ := key f.item.toList #[] f.notices
    fun a ha => h a (Array.mem_toList_iff.mp ha)
  exact ⟨notices, by simpa [each] using hrun⟩

section

variable {e : UInt16 → Edit α Unit}

theorem timesFrom_self {n first : Nat}
    (h : ∀ j, first ≤ j → j < first + n → e (UInt16.ofNat j) f = .ok () f) :
    timesFrom e n first f = .ok () f := by
  induction n generalizing first with
  | zero => rfl
  | succ n ih =>
    rw [timesFrom, bind_of_ok (h first (Nat.le_refl _) (by omega))]
    exact ih fun j hj hlt => h j (by omega) (by omega)

theorem timesFrom_add (m n first : Nat) : timesFrom e (m + n) first = (do
    timesFrom e m first
    timesFrom e n (first + m)) := by
  induction m generalizing first with
  | zero => rw [Nat.zero_add, timesFrom, pure_bind, Nat.add_zero]
  | succ m ih =>
    rw [Nat.succ_add, timesFrom, timesFrom, ih, bind_assoc, Nat.add_right_comm first 1 m]
    rfl

/-- If nothing changes in front of an index and behind it, a run over all of them is the turn of the
one. -/
theorem eachIndex_of_turn {g : Focus α} {slots : Nat} (hpos : 0 < i.toNat) (hi : i.toNat < slots)
    (hslots : slots ≤ Pool.maxSlots)
    (hbefore : ∀ j : UInt16, j.toNat < i.toNat → e j f = .ok () f) (hturn : e i f = .ok () g)
    (hbehind : ∀ j : UInt16, i.toNat < j.toNat → j.toNat < slots → e j g = .ok () g) :
    eachIndex e slots f = .ok () g := by
  have hindex {j : Nat} (hj : j < slots) : (UInt16.ofNat j).toNat = j := by
    have hlt : j < 65536 := Nat.lt_of_lt_of_le hj (Nat.le_succ_of_le hslots)
    exact UInt16.toNat_ofNat_of_lt hlt
  have hsplit : slots - 1 = (i.toNat - 1) + ((slots - 1 - i.toNat) + 1) := by omega
  have hfirst : 1 + (i.toNat - 1) = i.toNat := by omega
  have hfront : timesFrom e (i.toNat - 1) 1 f = .ok () f :=
    timesFrom_self fun j _ hj => hbefore _ (by rw [hindex (by omega)]; omega)
  rw [eachIndex, hsplit, timesFrom_add, bind_of_ok hfront, hfirst, timesFrom, UInt16.ofNat_toNat,
    bind_of_ok hturn]
  refine timesFrom_self fun j hj hlt => ?_
  have hjs : j < slots := by omega
  exact hbehind _ (by rw [hindex hjs]; omega) (by rwa [hindex hjs])

end

/-! ## Entries -/

section

variable {build : UInt16 → Constant} {add : Tally → Tally} {m : UInt16}

theorem repointText_self {text : String} {newText : String → Except Flaw String}
    (hm : f.pool.utf8 m = .ok text) (htext : newText text = .ok text) :
    repointText i build add m newText f = .ok () f := by
  have hsame : (renamedText? text text : Edit α _) f = .ok none f := by
    rw [renamedText?, if_pos rfl]
    rfl
  rw [repointText, look_bind hm, bind_of_ok (ofFlaw_eq_ok.mpr ⟨htext, rfl⟩), bind_of_ok hsame]
  rfl

theorem renamedPair?_self {name descriptor : String}
    (hd : r.descriptor descriptor = .ok descriptor) :
    (renamedPair? r name descriptor name : Edit α _) f = .ok none f := by
  rw [renamedPair?, bind_of_ok (ofFlaw_eq_ok.mpr ⟨hd, rfl⟩), if_pos ⟨rfl, rfl⟩]
  rfl

theorem repointPair_self {name descriptor : String} {newName : String → String → String}
    (hm : f.pool.nameAndType m = .ok (name, descriptor)) (hname : newName name descriptor = name)
    (hd : r.descriptor descriptor = .ok descriptor) :
    repointPair r i build add m newName f = .ok () f := by
  rw [repointPair, look_bind hm]
  dsimp only
  rw [hname, bind_of_ok (renamedPair?_self hd)]
  rfl

end

/-- An entry that refers to final names is left alone. -/
theorem renameReference_self {t : Referent} (ht : f.pool.Refers i t) (h : t.rename r = .ok t) :
    renameReference r i f = .ok () f := by
  rw [renameReference, query_bind]
  cases ht with
  | classRef entry _ =>
    rw [entry]
    rfl
  | memberRef entry owner member =>
    obtain ⟨_, _, -, hd, heq⟩ := Referent.rename_memberRef_eq_ok.mp h
    obtain ⟨-, -, hname, rfl⟩ := Referent.memberRef.inj heq
    rw [entry]
    dsimp only
    rw [look_bind owner]
    exact repointPair_self member hname.symm hd
  | dynamic entry member | invokeDynamic entry member =>
    obtain ⟨_, hd, heq⟩ := except_bind_eq_ok.mp h
    simp only [except_pure_eq_ok] at heq
    injection heq with _ hname hsame
    rw [entry]
    exact repointPair_self member hname (hsame ▸ hd)
  | methodType entry text =>
    obtain ⟨_, hd, ⟨⟩⟩ := except_bind_eq_ok.mp h
    rw [entry]
    exact repointText_self text hd
  | module entry text | package entry text =>
    have hname := Except.ok.inj h
    injection hname with hname
    rw [entry]
    exact repointText_self text (congrArg Except.ok hname)

theorem renameClassEntry_self {t : Referent} (ht : f.pool.Refers i t) (h : t.rename r = .ok t) :
    renameClassEntry r i f = .ok () f := by
  rw [renameClassEntry, query_bind]
  cases ht with
  | classRef entry text =>
    obtain ⟨_, hname, ⟨⟩⟩ := except_bind_eq_ok.mp h
    rw [entry]
    exact repointText_self text hname
  | _ entry =>
    rw [entry]
    rfl

/-- Where there is one class entry and its name stays, class entries are left alone. -/
theorem renameClassEntry_of_only {j : UInt16} {name : String}
    (hclasses : ∀ c ∈ f.pool.entries, c.isClassRef = true → c = .classRef j)
    (hname : f.pool.utf8 j = .ok name) (hfinal : r.type name = .ok name) (i : UInt16) :
    renameClassEntry r i f = .ok () f := by
  by_cases hpass : ∀ c, f.pool.get? i = some c → c.isClassRef = false
  case pos => exact renameClassEntry_passes hpass
  case neg =>
    obtain ⟨c, hc⟩ := Classical.not_forall.mp hpass
    obtain ⟨hi, hkind⟩ := Classical.not_imp.mp hc
    cases hclasses c (Array.mem_of_getElem? (Pool.get?_eq_some.mp hi).1)
      (Bool.of_not_eq_false hkind)
    refine renameClassEntry_self (.classRef hi hname) ?_
    simp only [Referent.rename, hfinal]
    rfl

/-! ## Members and enclosing methods -/

theorem renameText_self (put : UInt16 → α → α) (text : String) :
    renameText put text text f = .ok () f := by
  have hsame : (renamedText? text text : Edit α _) f = .ok none f := by
    rw [renamedText?, if_pos rfl]
    rfl
  rw [renameText, bind_of_ok hsame]
  rfl

/-- A member under its final name is left alone if its attributes are. -/
theorem quiet_renameMember {kind : SymbolKind} {owner name descriptor : String} {f : Focus Member}
    (hm : f.pool.Declares f.item name descriptor)
    (hname : declaredName r kind owner name descriptor = name)
    (hd : r.descriptor descriptor = .ok descriptor)
    (h : ∀ a ∈ f.item.attributes, ∀ notices,
      Quiet (renameAttribute r kind) ⟨a, f.pool, f.tally, notices⟩) :
    Quiet (renameMember r kind owner) f := by
  refine .after (item_eq_ok.mpr ⟨rfl, rfl⟩) (.after (look_eq_ok.mpr ⟨hm.1, rfl⟩) ?_)
  refine .after (look_eq_ok.mpr ⟨hm.2, rfl⟩) (.after (ofFlaw_eq_ok.mpr ⟨hd, rfl⟩) ?_)
  dsimp only
  rw [hname]
  refine .after (renameText_self _ _) (.after (renameText_self _ _) ?_)
  rw [if_neg (by simp)]
  exact .inside (quiet_each h) rfl

/-- The method that an `EnclosingMethod` attribute names, if it names one, has a final name. -/
def EnclosesFinal (r : Renaming) (p : Pool) (a : Attribute) : Prop :=
  ∃ j m : UInt16, a.payload = Word.bytes j ++ Word.bytes m ∧ (m ≠ 0 →
    ∃ owner name descriptor, p.className j = .ok owner ∧ p.nameAndType m = .ok (name, descriptor) ∧
      r.methodName owner name descriptor = name ∧ r.descriptor descriptor = .ok descriptor)

theorem renameEnclosingMethod_self {f : Focus Attribute} {name : String}
    (hname : f.pool.utf8 f.item.name = .ok name)
    (h : name = AttributeName.enclosingMethod → EnclosesFinal r f.pool f.item) :
    renameEnclosingMethod r f = .ok () f := by
  rw [renameEnclosingMethod, item_bind, look_bind hname]
  split
  case isFalse => rfl
  case isTrue heq =>
    obtain ⟨j, m, hpayload, hmethod⟩ := h heq
    let g : Focus Tape := ⟨⟨(Word.bytes m).reverse ++ (Word.bytes j).reverse, []⟩, f.pool, f.tally,
      f.notices⟩
    have hrun : enclosingMethodPayload r ⟨Tape.start f.item.payload, f.pool, f.tally, f.notices⟩
        = .ok () g := by
      rw [enclosingMethodPayload_of_words (congrArg Tape.start hpayload)]
      split
      case isFalse => rfl
      case isTrue hm₀ =>
        obtain ⟨owner, name, descriptor, howner, hm, hname, hd⟩ := hmethod hm₀
        rw [look_bind howner, look_bind hm]
        dsimp only
        rw [hname, bind_of_ok (renamedPair?_self hd)]
        rfl
    have hbytes : g.item.bytes = f.item.payload := by simp [g, Tape.bytes, hpayload]
    rw [inside_of_ok hrun, hbytes]

end Relabel.Edit
