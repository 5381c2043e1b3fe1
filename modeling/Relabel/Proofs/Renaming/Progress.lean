import Relabel.Proofs.Edit.Progress
import Relabel.Proofs.Renaming.Run

/-!
# Renamings that succeed

Each pass of a renaming leaves what the passes behind it need, and the slots that they
take up add up to what a plain class file has left. So a plain class file can be renamed,
whatever the renaming is.
-/

namespace Relabel

namespace Edit

variable {α : Type} {r : Renaming} {f : Focus α}

/-! ## Passes over the entries -/

/-- Each index takes up to `n` slots and spoils nothing for the indices to come. -/
theorem succeeds_timesFrom {n : Nat} {e : UInt16 → Edit α Unit} {C : UInt16 → Pool → Prop}
    (hstep : ∀ {i f}, f.pool.Sound → C i f.pool → f.pool.slots + n ≤ Pool.maxSlots →
      Succeeds n (e i) f)
    (hkeep : ∀ {i j f f'}, e i f = .ok () f' → i ≠ j → C j f.pool → C j f'.pool)
    (hsound : ∀ {i f f'}, e i f = .ok () f' → f.pool.Sound → f'.pool.Sound)
    {count first : Nat} (hp : f.pool.Sound) (hlast : first + count ≤ 65536)
    (hC : ∀ k, first ≤ k → k < first + count → C (UInt16.ofNat k) f.pool)
    (hroom : f.pool.slots + n * count ≤ Pool.maxSlots) :
    Succeeds (n * count) (timesFrom e count first) f := by
  induction count generalizing first f with
  | zero => exact succeeds_of_eq rfl rfl
  | succ count ih =>
    rw [Nat.mul_succ] at hroom ⊢
    have hfirst := hstep hp (hC first (Nat.le_refl _) (by omega)) (by omega)
    rw [Nat.add_comm]
    refine hfirst.bind ?_
    intro _ g hg hslots
    refine ih (hsound hg hp) (by omega) (fun k hk hkn => ?_) (by omega)
    refine hkeep hg (fun heq => ?_) (hC k (by omega) (by omega))
    have hne := congrArg UInt16.toNat heq
    rw [UInt16.toNat_ofNat_of_lt' (show first < 65536 by omega),
      UInt16.toNat_ofNat_of_lt' (show k < 65536 by omega)] at hne
    omega

theorem succeeds_references (hp : f.pool.Sound)
    (h : ∀ k < f.pool.slots, f.pool.closesAt (UInt16.ofNat k) = true)
    (hroom : f.pool.slots + 3 * f.pool.slots ≤ Pool.maxSlots) :
    Succeeds (3 * f.pool.slots) (eachIndex (renameReference r) f.pool.slots) f := by
  have hmax : f.pool.slots ≤ 65535 := hp.slots_le
  have hrun : Succeeds (3 * (f.pool.slots - 1)) (eachIndex (renameReference r) f.pool.slots) f := by
    refine succeeds_timesFrom (C := fun i p => i.toNat < p.slots ∧ p.closesAt i = true)
      (fun hp hC hroom => succeeds_renameReference hp hC.2 hroom) (fun {i j f f'} hok hij hC => ?_)
      (fun {i f f'} hok hp => ?_) hp (by omega) (fun k hk hkn => ?_) (by omega)
    · have hframe : Focus.Related Eq _ f f' := stays_renameReference_frame.ok hok
      exact ⟨Nat.lt_of_lt_of_le hC.1 hframe.2.slots_le, Pool.closesAt_frame hC.2 hframe.2 hC.1
        fun _ _ hji => absurd hji.symm hij⟩
    · have hframe : Focus.Related Eq _ f f' := stays_renameReference_frame.ok hok
      exact hframe.2.sound hp
    · refine ⟨?_, h k (by omega)⟩
      rw [UInt16.toNat_ofNat_of_lt' (show k < 65536 by omega)]
      omega
  exact hrun.mono (by omega)

/-- The second phase meets class entries only where there were such before the first. -/
theorem succeeds_classes {p : Pool} (hp : p.Sound) (hf : f.pool.Sound)
    (hframe : Pool.Frame (fun _ c => c.isReference = false) p f.pool)
    (hfrom : Pool.OnlyFrom Constant.isClassRef p f.pool)
    (h : ∀ k < p.slots, p.closesAt (UInt16.ofNat k) = true)
    (hroom : f.pool.slots + p.slots ≤ Pool.maxSlots) :
    Succeeds p.slots (eachIndex (renameClassEntry r) p.slots) f := by
  have hmax : p.slots ≤ 65535 := hp.slots_le
  have hrun : Succeeds (1 * (p.slots - 1)) (eachIndex (renameClassEntry r) p.slots) f := by
    refine succeeds_timesFrom (C := fun i q => i.toNat < q.slots ∧
        ∀ j, q.get? i = some (.classRef j) →
          ∃ name, q.utf8 j = .ok name ∧ Descriptor.closesType name = true)
      (fun hp hC hroom => succeeds_renameClassEntry hp hC.2 hroom) (fun {i j f f'} hok hij hC => ?_)
      (fun {i f f'} hok hp => ?_) hf (by omega) (fun k hk hkn => ?_) (by omega)
    · have hstep : Focus.Related Eq _ f f' := stays_renameClassEntry_frame.ok hok
      refine ⟨Nat.lt_of_lt_of_le hC.1 hstep.2.slots_le, ?_⟩
      intro l hl
      rw [hstep.2.get?_eq hC.1 fun _ _ hji => absurd hji.symm hij] at hl
      obtain ⟨name, text, hcloses⟩ := hC.2 l hl
      exact ⟨name, hstep.2.utf8 text, hcloses⟩
    · have hstep : Focus.Related Eq _ f f' := stays_renameClassEntry_frame.ok hok
      exact hstep.2.sound hp
    · have hslots := hframe.slots_le
      refine ⟨?_, ?_⟩
      · rw [UInt16.toNat_ofNat_of_lt' (show k < 65536 by omega)]
        omega
      · intro j hj
        obtain ⟨c, hc, hkind⟩ := hfrom hj rfl
        obtain ⟨l, rfl⟩ : ∃ l, c = .classRef l := by
          cases c <;> first | exact ⟨_, rfl⟩ | exact absurd hkind Bool.false_ne_true
        cases (hframe.get? hc rfl).symm.trans hj
        obtain ⟨t, ht, hcloses⟩ := Pool.refers_of_closesAt (h k (by omega)) hc rfl
        cases ht with
        | classRef entry text =>
          cases entry.symm.trans hc
          exact ⟨_, hframe.utf8 text, hcloses⟩
        | _ entry => cases entry.symm.trans hc
  exact hrun.mono (by omega)

/-! ## All passes -/

theorem succeeds_members {kind : SymbolKind} {owner : String} {f : Focus (Array Member)}
    (hp : f.pool.Sound) (h : ∀ m ∈ f.item, f.pool.closesMember m = true)
    (hroom : f.pool.slots + 2 * f.item.size ≤ Pool.maxSlots) :
    Succeeds (2 * f.item.size) (each (renameMember r kind owner)) f :=
  succeeds_each (C := fun m p => p.closesMember m = true) (stays_renameMember Pool.interns_frame)
    (fun hp hm hroom => succeeds_renameMember hp hm hroom)
    (fun h hm => Pool.closesMember_frame hm h) hp h hroom

theorem succeeds_classAttributes {f : Focus (Array Attribute)} (hp : f.pool.Sound)
    (hpass : ∀ a ∈ f.item, f.pool.passesBy a = true)
    (hmethod : ∀ a ∈ f.item, f.pool.closesEnclosing a = true)
    (hroom : f.pool.slots + 3 * f.item.size ≤ Pool.maxSlots) :
    Succeeds (3 * f.item.size) (do
      each (renameEnclosingMethod r)
      each (renameAttribute r .ofClass) : Edit (Array Attribute) Unit) f := by
  have henclosing : Succeeds (3 * f.item.size) (each (renameEnclosingMethod r)) f :=
    succeeds_each (C := fun a p => p.closesEnclosing a = true)
      (stays_renameEnclosingMethod Pool.interns_frame).anything
      (fun _ ha hroom => succeeds_renameEnclosingMethod ha hroom)
      (fun h ha => Pool.closesEnclosing_frame ha h) hp hmethod hroom
  refine henclosing.bind (m := 0) ?_
  intro _ g hg _
  obtain ⟨hnames, hgrow, -⟩ : Focus.Related (Pointwise Attribute.SameName) Pool.Grows f g :=
    (stays_each (stays_renameEnclosingMethod Pool.interns_frame)).ok hg
  refine succeeds_attributes (hgrow.sound hp) ?_
  intro b hb
  obtain ⟨j, hj, rfl⟩ := Array.mem_iff_getElem.mp hb
  have hj' : j < f.item.size := hnames.size_eq ▸ hj
  obtain ⟨_, heq, hname⟩ := hnames.getElem? (Array.getElem?_eq_getElem hj')
  cases (Array.getElem?_eq_getElem hj).symm.trans heq
  have hsame : f.item[j].name = g.item[j].name := hname
  refine Pool.passesBy_frame ?_ hgrow
  simpa only [Pool.passesBy, hsame] using hpass _ (Array.getElem_mem hj')

/-- Members and attributes that the passes succeed on. -/
structure Closes (p : Pool) (d : Declarations) : Prop where
  fields : ∀ m ∈ d.fields, p.closesMember m = true
  methods : ∀ m ∈ d.methods, p.closesMember m = true
  passes : ∀ a ∈ d.attributes, p.passesBy a = true
  enclosing : ∀ a ∈ d.attributes, p.closesEnclosing a = true

theorem Closes.frame {K : UInt16 → Constant → Prop} [Pool.PicksNames K] {p q : Pool}
    {d : Declarations} (h : Closes p d) (hframe : Pool.Frame K p q) : Closes q d where
  fields m hm := Pool.closesMember_frame (h.fields m hm) hframe
  methods m hm := Pool.closesMember_frame (h.methods m hm) hframe
  passes a ha := Pool.passesBy_frame (h.passes a ha) hframe
  enclosing a ha := Pool.closesEnclosing_frame (h.enclosing a ha) hframe

theorem succeeds_renameAll (owner : String) {f : Focus Declarations} (hp : f.pool.Sound)
    (hentries : ∀ k < f.pool.slots, f.pool.closesAt (UInt16.ofNat k) = true)
    (h : Closes f.pool f.item)
    (hroom : f.pool.slots + (4 * f.pool.slots + 2 * f.item.fields.size
      + 2 * f.item.methods.size + 3 * f.item.attributes.size) ≤ Pool.maxSlots) :
    ∃ n, Succeeds n (renameAll r owner f.pool.slots) f := by
  refine ⟨3 * f.pool.slots + (2 * f.item.fields.size + (2 * f.item.methods.size +
    (3 * f.item.attributes.size + f.pool.slots))), ?_⟩
  -- what closes still does so behind each pass, and the lists to come are those of the start
  refine (succeeds_references hp hentries (by omega)).bind ?_
  intro _ f₁ h₁ hslots₁
  obtain ⟨item₁, keep₁⟩ := references_eq_ok h₁
  obtain ⟨d, p₁, tally₁, notices₁⟩ := f₁
  subst item₁
  have hp₁ := keep₁.frame.sound hp
  have closes₁ := h.frame keep₁.frame
  dsimp only at hslots₁
  refine Succeeds.bind (.inside (succeeds_members hp₁ closes₁.fields ?_))
    fun _ f₂ h₂ hslots₂ => ?_
  · dsimp only
    omega
  obtain ⟨fields, h₂, item₂⟩ := inside_eq_ok h₂
  obtain ⟨d₂, p₂, tally₂, notices₂⟩ := f₂
  subst item₂
  obtain ⟨keep₂, -⟩ := members_eq_ok hp₁ h₂
  have hp₂ := keep₂.frame.sound hp₁
  have closes₂ := closes₁.frame keep₂.frame
  dsimp only at hslots₂
  refine Succeeds.bind (.inside (succeeds_members hp₂ closes₂.methods ?_))
    fun _ f₃ h₃ hslots₃ => ?_
  · dsimp only
    omega
  obtain ⟨methods, h₃, item₃⟩ := inside_eq_ok h₃
  obtain ⟨d₃, p₃, tally₃, notices₃⟩ := f₃
  subst item₃
  obtain ⟨keep₃, -⟩ := members_eq_ok hp₂ h₃
  have hp₃ := keep₃.frame.sound hp₂
  have closes₃ := closes₂.frame keep₃.frame
  dsimp only at hslots₃
  refine Succeeds.bind (.inside (succeeds_classAttributes hp₃ closes₃.passes closes₃.enclosing ?_))
    fun _ f₄ h₄ hslots₄ => ?_
  · dsimp only
    omega
  obtain ⟨attributes, h₄, item₄⟩ := inside_eq_ok h₄
  obtain ⟨keep₄, -⟩ := attributes_eq_ok hp₃ h₄
  have grow := keep₂.frame.trans (keep₃.frame.trans keep₄.frame)
  have from₄ := trans_of _ (trans_of _ (trans_of _ keep₁.classes keep₂.classes) keep₃.classes)
    keep₄.classes
  refine succeeds_classes hp (keep₄.frame.sound hp₃)
    (keep₁.frame.trans (Pool.Frame.of_grows grow)) from₄ hentries ?_
  dsimp only at hslots₄
  omega

end Edit

namespace ClassFile

variable {c : ClassFile}

/-- Plain class files can be renamed, whatever the renaming is. -/
theorem rename_of_isPlain (r : Renaming) (hc : c.pool.Sound) (h : c.isPlain = true) :
    ∃ c', (c.rename r).result = .ok c' := by
  simp only [isPlain, Bool.and_eq_true, decide_eq_true_eq, List.all_eq_true, List.mem_range,
    Array.all_eq_true_iff_forall_mem] at h
  obtain ⟨⟨⟨⟨⟨hname, hentries⟩, hfields⟩, hmethods⟩, hattributes⟩, hroom⟩ := h
  obtain ⟨owner, howner⟩ : ∃ owner, c.name = .ok owner := by
    cases howner : c.name with
    | ok owner => exact ⟨owner, rfl⟩
    | error fault =>
      rw [howner] at hname
      cases hname
  obtain ⟨_, _, f, hrun, -⟩ := Edit.succeeds_renameAll (r := r) owner
    (f := ⟨c.declarations, c.pool, {}, #[]⟩) hc hentries
    ⟨hfields, hmethods, fun a ha => (hattributes a ha).1, fun a ha => (hattributes a ha).2⟩ hroom
  exact ⟨c.edited f, by rw [rename_of_renameAll howner hrun]; rfl⟩

end ClassFile

end Relabel
