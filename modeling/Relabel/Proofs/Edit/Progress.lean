import Relabel.Proofs.Edit.Member
import Relabel.Proofs.Renaming.Plain

/-!
# Edits that succeed

An edit fails if a lookup fails, if a descriptor does not end or if the pool is full.
Edits on what closes have only the last of these to fear, so each is given a number of
slots that it may take up, and the numbers add up along a run.
-/

namespace Relabel

/-! ## Pool steps -/

namespace Pool

variable {p q : Pool} {c : Constant}

theorem intern_succeeds (hroom : p.slots + c.width ≤ maxSlots) :
    ∃ i q, intern c p = .ok i q ∧ q.slots ≤ p.slots + c.width := by
  unfold intern
  split
  case h_1 i _ => exact ⟨i, p, rfl, Nat.le_add_right _ _⟩
  case h_2 => exact ⟨_, _, push_of_room hroom, Nat.le_of_eq (slots_append p c)⟩

theorem internUtf8_succeeds (text : String) (hroom : p.slots + 1 ≤ maxSlots) :
    ∃ i q, internUtf8 text p = .ok i q ∧ q.slots ≤ p.slots + 1 := intern_succeeds hroom

theorem internNameAndType_succeeds {name descriptor : String} (hroom : p.slots + 3 ≤ maxSlots) :
    ∃ i q, internNameAndType name descriptor p = .ok i q ∧ q.slots ≤ p.slots + 3 := by
  obtain ⟨j, p₁, hj, h₁⟩ := internUtf8_succeeds (p := p) name (by omega)
  obtain ⟨k, p₂, hk, h₂⟩ := internUtf8_succeeds (p := p₁) descriptor (by omega)
  have hroom₂ : p₂.slots + (Constant.nameAndType j k).width ≤ maxSlots := by
    change p₂.slots + 1 ≤ maxSlots
    omega
  obtain ⟨i, q, hi, h₃⟩ := intern_succeeds hroom₂
  refine ⟨i, q, bind_eq_ok.mpr ⟨j, p₁, hj, bind_eq_ok.mpr ⟨k, p₂, hk, hi⟩⟩, ?_⟩
  change q.slots ≤ p₂.slots + 1 at h₃
  omega

end Pool

/-! ## Edits -/

namespace Edit

variable {α β γ : Type} {r : Renaming} {f : Focus α} {n m : Nat} {i : UInt16}

/-- The edit succeeds and takes up at most `n` slots. -/
def Succeeds (n : Nat) (e : Edit α β) (f : Focus α) : Prop :=
  ∃ b f', e f = .ok b f' ∧ f'.pool.slots ≤ f.pool.slots + n

theorem succeeds_of_eq {e : Edit α β} {b : β} {f' : Focus α} (h : e f = .ok b f')
    (hpool : f'.pool = f.pool) : Succeeds 0 e f := ⟨b, f', h, by rw [hpool]; omega⟩

theorem Succeeds.mono {e : Edit α β} (h : Succeeds n e f) (hnm : n ≤ m) : Succeeds m e f := by
  obtain ⟨b, f', hb, hslots⟩ := h
  exact ⟨b, f', hb, by omega⟩

theorem Succeeds.bind {e : Edit α β} {k : β → Edit α γ} (h : Succeeds n e f)
    (hk : ∀ b g, e f = .ok b g → g.pool.slots ≤ f.pool.slots + n → Succeeds m (k b) g) :
    Succeeds (n + m) (e >>= k) f := by
  obtain ⟨b, g, hb, hslots⟩ := h
  obtain ⟨c, f', hc, hslots'⟩ := hk b g hb hslots
  exact ⟨c, f', bind_eq_ok.mpr ⟨b, g, hb, hc⟩, by omega⟩

/-- A step in front that leaves the pool alone takes up nothing. -/
theorem Succeeds.past {e : Edit α β} {k : β → Edit α γ} {b : β} {g : Focus α}
    (he : e f = .ok b g) (hpool : g.pool = f.pool) (h : Succeeds n (k b) g) :
    Succeeds n (e >>= k) f := by
  obtain ⟨c, f', hc, hslots⟩ := h
  exact ⟨c, f', bind_eq_ok.mpr ⟨b, g, he, hc⟩, hpool ▸ hslots⟩

theorem Succeeds.after {e : Edit α β} {k : β → Edit α γ} {b : β} (he : e f = .ok b f)
    (h : Succeeds n (k b) f) : Succeeds n (e >>= k) f := .past he rfl h

theorem Succeeds.onPool {e : Pool.Edit β}
    (h : ∃ b q, e f.pool = .ok b q ∧ q.slots ≤ f.pool.slots + n) : Succeeds n (onPool e) f := by
  obtain ⟨b, q, hq, hslots⟩ := h
  exact ⟨b, _, onPool_of_ok hq, hslots⟩

theorem succeeds_set {old c : Constant} (hi : f.pool.get? i = some old)
    (hwidth : old.width = c.width) : Succeeds 0 (Edit.onPool (Pool.set i c)) f := by
  obtain ⟨q, hq⟩ := Pool.set_of_get? hi hwidth
  refine .onPool ⟨(), q, hq, ?_⟩
  obtain ⟨_, -, -, rfl⟩ := Pool.set_eq_ok hq
  simp [Pool.slots]

theorem succeeds_renamedText? {text text' : String} (hroom : f.pool.slots + 1 ≤ Pool.maxSlots) :
    Succeeds 1 (renamedText? text text') f := by
  unfold renamedText?
  split
  case isTrue => exact (succeeds_of_eq rfl rfl).mono (Nat.zero_le 1)
  case isFalse =>
    exact (Succeeds.onPool (Pool.internUtf8_succeeds _ hroom)).bind (m := 0) fun _ _ _ _ =>
      succeeds_of_eq rfl rfl

theorem succeeds_renameText {put : UInt16 → α → α} {text text' : String}
    (hroom : f.pool.slots + 1 ≤ Pool.maxSlots) : Succeeds 1 (renameText put text text') f := by
  refine (succeeds_renamedText? hroom).bind (m := 0) ?_
  intro o g _ _
  cases o with
  | none => exact succeeds_of_eq rfl rfl
  | some j => exact succeeds_of_eq rfl rfl

theorem succeeds_renamedPair? {name descriptor name' : String}
    (hd : Descriptor.closes descriptor = true) (hroom : f.pool.slots + 3 ≤ Pool.maxSlots) :
    Succeeds 3 (renamedPair? r name descriptor name') f := by
  obtain ⟨descriptor', hd⟩ := r.descriptor_of_closes hd
  refine .after (ofFlaw_eq_ok.mpr ⟨hd, rfl⟩) ?_
  split
  case isTrue => exact (succeeds_of_eq rfl rfl).mono (Nat.zero_le 3)
  case isFalse =>
    exact (Succeeds.onPool (Pool.internNameAndType_succeeds hroom)).bind (m := 0) fun _ _ _ _ =>
      succeeds_of_eq rfl rfl

theorem Succeeds.inside {view : α → β} {put : β → α → α} {e : Edit β γ}
    (h : Succeeds n e ⟨view f.item, f.pool, f.tally, f.notices⟩) :
    Succeeds n (Edit.inside view put e) f := by
  obtain ⟨c, g, hg, hslots⟩ := h
  exact ⟨c, ⟨put g.item f.item, g.pool, g.tally, g.notices⟩, by simp only [Edit.inside, hg], hslots⟩

/-! ## Entries -/

section

variable {build : UInt16 → Constant} {add : Tally → Tally} {k : UInt16}

theorem succeeds_repoint (hi : f.pool.get? i = some (build k))
    (hwidth : ∀ j, (build k).width = (build j).width) (o : Option UInt16) :
    Succeeds 0 (repoint i build add o) f := by
  cases o with
  | none => exact succeeds_of_eq rfl rfl
  | some j =>
    exact (succeeds_set hi (hwidth j)).bind (m := 0) fun _ _ _ _ => succeeds_of_eq rfl rfl

theorem succeeds_repointPair {name descriptor : String} {newName : String → String → String}
    (hp : f.pool.Sound) (hi : f.pool.get? i = some (build k))
    (hwidth : ∀ j, (build k).width = (build j).width)
    (hk : f.pool.nameAndType k = .ok (name, descriptor))
    (hd : Descriptor.closes descriptor = true) (hroom : f.pool.slots + 3 ≤ Pool.maxSlots) :
    Succeeds 3 (repointPair r i build add k newName) f := by
  refine .after (look_eq_ok.mpr ⟨hk, rfl⟩) ?_
  refine (succeeds_renamedPair? hd hroom).bind (m := 0) ?_
  intro o g hpair _
  obtain ⟨-, hgrow, -⟩ := renamedPair?_eq_ok hp hk hpair
  exact succeeds_repoint (hgrow.get? hi trivial) hwidth o

theorem succeeds_repointText {text text' : String} {newText : String → Except Flaw String}
    (hp : f.pool.Sound) (hi : f.pool.get? i = some (build k))
    (hwidth : ∀ j, (build k).width = (build j).width) (hk : f.pool.utf8 k = .ok text)
    (htext : newText text = .ok text') (hroom : f.pool.slots + 1 ≤ Pool.maxSlots) :
    Succeeds 1 (repointText i build add k newText) f := by
  refine .after (look_eq_ok.mpr ⟨hk, rfl⟩) (.after (ofFlaw_eq_ok.mpr ⟨htext, rfl⟩) ?_)
  refine (succeeds_renamedText? hroom).bind (m := 0) ?_
  intro o g hintern _
  obtain ⟨-, hgrow, -⟩ := renamedText?_eq_ok hp hk hintern
  exact succeeds_repoint (hgrow.get? hi trivial) hwidth o

end

theorem succeeds_renameReference (hp : f.pool.Sound) (h : f.pool.closesAt i = true)
    (hroom : f.pool.slots + 3 ≤ Pool.maxSlots) : Succeeds 3 (renameReference r i) f := by
  by_cases hpass : ∀ c, f.pool.get? i = some c → c.isReference = false
  · exact (succeeds_of_eq (renameReference_passes hpass) rfl).mono (Nat.zero_le 3)
  obtain ⟨c, hc⟩ := Classical.not_forall.mp hpass
  obtain ⟨hi, hc⟩ := Classical.not_imp.mp hc
  obtain ⟨t, ht, hcloses⟩ := Pool.refers_of_closesAt h hi (by simpa using .inl (by simpa using hc))
  have hroom₁ : f.pool.slots + 1 ≤ Pool.maxSlots := by omega
  refine .after (query_eq_ok.mpr ⟨rfl, rfl⟩) ?_
  cases ht with
  | classRef entry text =>
    cases entry.symm.trans hi
    exact absurd rfl hc
  | memberRef entry owner member =>
    rw [entry]
    refine .after (look_eq_ok.mpr ⟨owner, rfl⟩) ?_
    exact succeeds_repointPair hp entry (fun _ => rfl) member hcloses hroom
  | dynamic entry member | invokeDynamic entry member =>
    rw [entry]
    exact succeeds_repointPair hp entry (fun _ => rfl) member hcloses hroom
  | methodType entry text =>
    obtain ⟨descriptor', hd⟩ := r.descriptor_of_closes hcloses
    rw [entry]
    exact (succeeds_repointText hp entry (fun _ => rfl) text hd hroom₁).mono (by omega)
  | module entry text | package entry text =>
    rw [entry]
    exact Succeeds.mono (succeeds_repointText hp entry (fun _ => rfl) text rfl hroom₁)
      (Nat.le_add_left 1 2)

theorem succeeds_renameClassEntry (hp : f.pool.Sound)
    (h : ∀ j, f.pool.get? i = some (.classRef j) →
      ∃ name, f.pool.utf8 j = .ok name ∧ Descriptor.closesType name = true)
    (hroom : f.pool.slots + 1 ≤ Pool.maxSlots) : Succeeds 1 (renameClassEntry r i) f := by
  by_cases hpass : ∀ c, f.pool.get? i = some c → c.isClassRef = false
  · exact (succeeds_of_eq (renameClassEntry_passes hpass) rfl).mono (Nat.zero_le 1)
  obtain ⟨c, hc⟩ := Classical.not_forall.mp hpass
  obtain ⟨entry, hc⟩ := Classical.not_imp.mp hc
  obtain ⟨j, rfl⟩ : ∃ j, c = .classRef j := by
    cases c <;> first | exact ⟨_, rfl⟩ | exact absurd rfl hc
  obtain ⟨name, text, hcloses⟩ := h j entry
  obtain ⟨name', hn⟩ := r.type_of_closes hcloses
  refine .after (query_eq_ok.mpr ⟨rfl, rfl⟩) ?_
  rw [entry]
  exact succeeds_repointText hp entry (fun _ => rfl) text hn hroom

/-! ## Members and attributes -/

/-- Each item takes up to `n` slots, and what it needs does not get lost while the pool grows. -/
theorem succeeds_each {e : Edit α Unit} {C : α → Pool → Prop} (he : Stays Anything Pool.Grows e)
    (hstep : ∀ {f : Focus α}, f.pool.Sound → C f.item f.pool → f.pool.slots + n ≤ Pool.maxSlots →
      Succeeds n e f)
    (hC : ∀ {a p q}, Pool.Grows p q → C a p → C a q) {f : Focus (Array α)} (hp : f.pool.Sound)
    (hitems : ∀ a ∈ f.item, C a f.pool)
    (hroom : f.pool.slots + n * f.item.size ≤ Pool.maxSlots) :
    Succeeds (n * f.item.size) (each e) f := by
  have key (rest : List α) : ∀ (done : Array α) (f : Focus Unit), f.pool.Sound →
      (∀ a ∈ rest, C a f.pool) → f.pool.slots + n * rest.length ≤ Pool.maxSlots →
      ∃ f', eachFrom e done rest f = .ok () f' ∧
        f'.pool.slots ≤ f.pool.slots + n * rest.length := by
    induction rest with
    | nil => exact fun done f _ _ _ => ⟨_, rfl, Nat.le_refl _⟩
    | cons a rest ih =>
      intro done f hp hitems hroom
      rw [List.length_cons, Nat.mul_succ] at hroom ⊢
      obtain ⟨_, g, hg, hslots⟩ := hstep (f := ⟨a, f.pool, f.tally, f.notices⟩) hp
        (hitems a List.mem_cons_self) (by change f.pool.slots + n ≤ _; omega)
      have hslots : g.pool.slots ≤ f.pool.slots + n := hslots
      have grow : Pool.Grows f.pool g.pool := (he.ok hg).2
      obtain ⟨f', hf', hslots'⟩ := ih (done.push g.item) ⟨(), g.pool, g.tally, g.notices⟩
        (grow.sound hp) (fun b hb => hC grow (hitems b (List.mem_cons_of_mem a hb)))
        (by change g.pool.slots + _ ≤ _; omega)
      have hslots' : f'.pool.slots ≤ g.pool.slots + n * rest.length := hslots'
      refine ⟨f', ?_, by omega⟩
      rw [eachFrom, hg]
      exact hf'
  obtain ⟨f', hf', hslots⟩ := key f.item.toList #[] ⟨(), f.pool, f.tally, f.notices⟩ hp
    (fun a ha => hitems a (Array.mem_toList_iff.mp ha)) (by simpa using hroom)
  exact ⟨(), f', hf', by simpa using hslots⟩

theorem succeeds_attributes {kind : SymbolKind} {f : Focus (Array Attribute)} (hp : f.pool.Sound)
    (h : ∀ a ∈ f.item, f.pool.passesBy a = true) :
    Succeeds 0 (each (renameAttribute r kind)) f := by
  have hmax := hp.slots_le
  refine (succeeds_each (C := fun a p => p.passesBy a = true) (n := 0)
    (stays_renameAttribute Pool.interns_frame).anything
    (fun hp ha _ => ?_) (fun h ha => Pool.passesBy_frame ha h) hp h (by omega)).mono (by omega)
  obtain ⟨name, hname, hwalked⟩ := Pool.passesBy_iff.mp ha
  exact succeeds_of_eq (renameAttribute_passes hname hwalked) rfl

theorem succeeds_renameMember {kind : SymbolKind} {owner : String} {f : Focus Member}
    (hp : f.pool.Sound) (h : f.pool.closesMember f.item = true)
    (hroom : f.pool.slots + 2 ≤ Pool.maxSlots) : Succeeds 2 (renameMember r kind owner) f := by
  obtain ⟨name, descriptor, ⟨hname, hdescriptor⟩, hcloses, hall⟩ := Pool.closesMember_iff.mp h
  obtain ⟨descriptor', hd⟩ := r.descriptor_of_closes hcloses
  refine .after (item_eq_ok.mpr ⟨rfl, rfl⟩) (.after (look_eq_ok.mpr ⟨hname, rfl⟩) ?_)
  refine .after (look_eq_ok.mpr ⟨hdescriptor, rfl⟩) (.after (ofFlaw_eq_ok.mpr ⟨hd, rfl⟩) ?_)
  refine (succeeds_renameText (by omega)).bind (m := 1) ?_
  intro _ g₁ h₁ hslots
  obtain ⟨grow₁, j, item₁, -⟩ := renameText_eq_ok (m := f.item.name) hp hname rfl h₁
  refine (succeeds_renameText (by omega)).bind (m := 0) ?_
  intro _ g₂ h₂ _
  obtain ⟨grow₂, k, item₂, -⟩ := renameText_eq_ok (m := g₁.item.descriptor) (grow₁.sound hp)
    (by rw [item₁]; exact grow₁.utf8 hdescriptor) rfl h₂
  -- the attributes come last and are still those of the start
  have grow := grow₁.trans grow₂
  have hattributes : g₂.item.attributes = f.item.attributes := by rw [item₂, item₁]
  have hrest {g : Focus Member} (hpool : g.pool = g₂.pool) (hitem : g.item = g₂.item) :
      Succeeds 0 (Edit.inside (·.attributes) (fun attributes m => { m with attributes })
        (each (renameAttribute r kind)) : Edit Member Unit) g := by
    refine .inside (succeeds_attributes (hpool ▸ grow.sound hp) fun a ha => ?_)
    rw [hitem, hattributes] at ha
    exact hpool ▸ Pool.passesBy_frame (hall a ha) grow
  split
  · exact .past (e := count Tally.addMember) rfl rfl (hrest rfl rfl)
  · exact hrest rfl rfl

theorem succeeds_enclosingMethodPayload {f : Focus Tape} {j m : UInt16}
    (hitem : f.item = Tape.start (Word.bytes j ++ Word.bytes m))
    (h : f.pool.closesMethod j m = true) (hroom : f.pool.slots + 3 ≤ Pool.maxSlots) :
    Succeeds 3 (enclosingMethodPayload r) f := by
  unfold Succeeds
  rw [enclosingMethodPayload_of_words hitem]
  obtain rfl | ⟨owner, name, descriptor, howner, hm, hcloses⟩ := Pool.closesMethod_iff.mp h
  · exact (succeeds_of_eq rfl rfl).mono (Nat.zero_le 3)
  split
  case isFalse => exact (succeeds_of_eq rfl rfl).mono (Nat.zero_le 3)
  case isTrue =>
    refine Succeeds.after (look_eq_ok.mpr ⟨howner, rfl⟩) (.after (look_eq_ok.mpr ⟨hm, rfl⟩) ?_)
    refine (succeeds_renamedPair? hcloses (by exact hroom)).bind (m := 0) ?_
    intro o g _ _
    cases o with
    | none => exact succeeds_of_eq rfl rfl
    | some j => exact succeeds_of_eq rfl rfl

theorem succeeds_renameEnclosingMethod {f : Focus Attribute}
    (h : f.pool.closesEnclosing f.item = true) (hroom : f.pool.slots + 3 ≤ Pool.maxSlots) :
    Succeeds 3 (renameEnclosingMethod r) f := by
  obtain ⟨name, hname, hmethod⟩ := Pool.closesEnclosing_iff.mp h
  refine .after (item_eq_ok.mpr ⟨rfl, rfl⟩) (.after (look_eq_ok.mpr ⟨hname, rfl⟩) ?_)
  split
  case isFalse => exact (succeeds_of_eq rfl rfl).mono (Nat.zero_le 3)
  case isTrue heq =>
    obtain ⟨j, m, hpayload, hm⟩ := hmethod heq
    exact .inside (succeeds_enclosingMethodPayload (congrArg Tape.start hpayload) hm hroom)

end Edit

end Relabel
