import Relabel.Proofs.Layout.Rest

/-!
# Settled class files

A class file is settled if all names in it are final. Each pass of a renaming is quiet on
its part of such a class file, so the renaming as a whole succeeds, leaves the class file as
it is and counts nothing. All that counts for this is in the entries of the pool.
-/

namespace Relabel

variable {r : Renaming} {owner : String} {kind : SymbolKind} {p q : Pool} {slots : Nat}

/-- The member has its final name and descriptor, and its attributes are at rest. -/
def MemberAtRest (r : Renaming) (kind : SymbolKind) (owner : String) (p : Pool) (m : Member) :
    Prop :=
  (∃ name descriptor, p.Declares m name descriptor ∧
    Edit.declaredName r kind owner name descriptor = name ∧
    r.descriptor descriptor = .ok descriptor) ∧
  ∀ a ∈ m.attributes, Layout.AtRest r kind p a

/-- All names of the class `owner` are final. -/
structure Settled (r : Renaming) (owner : String) (p : Pool) (d : Declarations) : Prop where
  entries : ∀ ⦃i c⦄, p.get? i = some c → (c.isReference || c.isClassRef) = true →
    ∃ t, p.Refers i t ∧ t.rename r = .ok t
  class_names : ∀ ⦃i name⦄, p.className i = .ok name → r.className name = name
  fields : ∀ m ∈ d.fields, MemberAtRest r .ofField owner p m
  methods : ∀ m ∈ d.methods, MemberAtRest r .ofMethod owner p m
  attributes : ∀ a ∈ d.attributes, Layout.AtRest r .ofClass p a
  enclosing : ∀ a ∈ d.attributes, p.utf8 a.name = .ok AttributeName.enclosingMethod →
    Edit.EnclosesFinal r p a

/-! ## Other pools with the same entries -/

theorem Pool.grows_of_entries (h : q.entries = p.entries) (hq : q.Sound) : Grows p q where
  sound _ := hq
  slots_le := by simp [slots, h]
  unusable _ hn := h ▸ hn
  get? i _ hi _ := (get?_congr h i).trans hi

theorem MemberAtRest.keeps {m : Member} (hm : MemberAtRest r kind owner p m)
    (h : Layout.KeepsTexts p q) : MemberAtRest r kind owner q m := by
  obtain ⟨⟨name, descriptor, hdeclares, hname, hd⟩, hattributes⟩ := hm
  exact ⟨⟨name, descriptor, ⟨h.utf8 hdeclares.1, h.utf8 hdeclares.2⟩, hname, hd⟩,
    fun a ha => (hattributes a ha).keeps h⟩

theorem Edit.EnclosesFinal.grows {a : Attribute} (ha : EnclosesFinal r p a)
    (h : Pool.Grows p q) : EnclosesFinal r q a := by
  obtain ⟨j, m, hpayload, hmethod⟩ := ha
  refine ⟨j, m, hpayload, fun hm₀ => ?_⟩
  obtain ⟨owner, name, descriptor, howner, hm, hname, hd⟩ := hmethod hm₀
  exact ⟨owner, name, descriptor, h.className howner, h.nameAndType hm, hname, hd⟩

theorem Settled.of_entries {d : Declarations} (h : Settled r owner p d)
    (hentries : q.entries = p.entries) (hq : q.Sound) : Settled r owner q d := by
  have hgrows := Pool.grows_of_entries hentries hq
  have hkeeps := Layout.KeepsTexts.of_grows hgrows
  refine ⟨?_, ?_, ?_, ?_, ?_, ?_⟩
  · intro i c hi hc
    rw [Pool.get?_congr hentries] at hi
    obtain ⟨t, ht, hrename⟩ := h.entries hi hc
    exact ⟨t, ht.grows hgrows, hrename⟩
  · intro i name hname
    rw [Pool.className_congr hentries] at hname
    exact h.class_names hname
  · exact fun m hm => (h.fields m hm).keeps hkeeps
  · exact fun m hm => (h.methods m hm).keeps hkeeps
  · exact fun a ha => (h.attributes a ha).keeps hkeeps
  · intro a ha hname
    rw [Pool.utf8_congr hentries] at hname
    exact (h.enclosing a ha hname).grows hgrows

/-! ## Renaming what is settled -/

namespace Edit

theorem quiet_member {f : Focus Member} (hm : MemberAtRest r kind owner f.pool f.item)
    (hclass : ∀ ⦃i name⦄, f.pool.className i = .ok name → r.className name = name) :
    Quiet (renameMember r kind owner) f := by
  obtain ⟨⟨name, descriptor, hdeclares, hname, hd⟩, hattributes⟩ := hm
  refine quiet_renameMember hdeclares hname hd ?_
  intro a ha notices
  exact Layout.quiet_renameAttribute (hattributes a ha) hclass

section

variable {α : Type} {f : Focus α} {i : UInt16}
  (h : ∀ ⦃c⦄, f.pool.get? i = some c → (c.isReference || c.isClassRef) = true →
    ∃ t, f.pool.Refers i t ∧ t.rename r = .ok t)
include h

theorem renameReference_of_final : renameReference r i f = .ok () f := by
  by_cases hpass : ∀ c, f.pool.get? i = some c → c.isReference = false
  · exact renameReference_passes hpass
  · obtain ⟨c, hc⟩ := Classical.not_forall.mp hpass
    obtain ⟨hi, hc⟩ := Classical.not_imp.mp hc
    obtain ⟨t, ht, hrename⟩ := h hi (by simp [Bool.of_not_eq_false hc])
    exact renameReference_self ht hrename

theorem renameClassEntry_of_final : renameClassEntry r i f = .ok () f := by
  by_cases hpass : ∀ c, f.pool.get? i = some c → c.isClassRef = false
  · exact renameClassEntry_passes hpass
  · obtain ⟨c, hc⟩ := Classical.not_forall.mp hpass
    obtain ⟨hi, hc⟩ := Classical.not_imp.mp hc
    obtain ⟨t, ht, hrename⟩ := h hi (by simp [Bool.of_not_eq_false hc])
    exact renameClassEntry_self ht hrename

end

/-- None of the passes changes anything. -/
theorem quiet_renameAll {f : Focus Declarations} (h : Settled r owner f.pool f.item) :
    Quiet (renameAll r owner slots) f := by
  refine Quiet.bind (quiet_of_eq (timesFrom_self fun _ _ _ => ?_)) fun notices₁ => ?_
  · exact renameReference_of_final fun _ hi hc => h.entries hi hc
  refine Quiet.bind (.inside (quiet_each fun m hm notices => ?_) rfl) fun notices₂ => ?_
  · exact quiet_member (h.fields m hm) h.class_names
  refine Quiet.bind (.inside (quiet_each fun m hm notices => ?_) rfl) fun notices₃ => ?_
  · exact quiet_member (h.methods m hm) h.class_names
  refine Quiet.bind (.inside (.bind (quiet_each fun a ha notices => ?_) fun _ =>
    quiet_each fun a ha notices => ?_) rfl) fun notices₄ => ?_
  · obtain ⟨name, _, hname, -⟩ := h.attributes a ha
    refine quiet_of_eq (renameEnclosingMethod_self hname ?_)
    rintro rfl
    exact h.enclosing a ha hname
  · exact Layout.quiet_renameAttribute (h.attributes a ha) h.class_names
  · refine quiet_of_eq (timesFrom_self fun _ _ _ => ?_)
    exact renameClassEntry_of_final fun _ hi hc => h.entries hi hc

end Edit

/-- A settled class file is left as it is, and nothing is counted. -/
theorem ClassFile.rename_of_settled {c : ClassFile} (hname : c.name = .ok owner)
    (h : Settled r owner c.pool c.declarations) :
    (c.rename r).result = .ok c ∧ (c.rename r).tally = {} := by
  obtain ⟨notices, hrun⟩ : Edit.Quiet (Edit.renameAll r owner c.pool.slots)
      ⟨c.declarations, c.pool, {}, #[]⟩ := Edit.quiet_renameAll h
  rw [rename_of_renameAll hname hrun]
  exact ⟨rfl, rfl⟩

end Relabel
