import Relabel.Proofs.Renaming.Settled
import Relabel.Proofs.Renaming.Stored

/-!
# Renaming again

What a renaming to final names leaves is settled, so the same renaming changes nothing when
it is run again: not in the class file, and after storing and decoding it not in its bytes
either. The one thing that spoils this is a signature that was skipped because its index led
nowhere. Names that are added take up indices, so the index may lead to a text afterwards,
and then the signature is renamed by the second run.
-/

namespace Relabel

/-- The text is a generic signature in one of the attributes. -/
def Declarations.ReadsSignature (p : Pool) (d : Declarations) (text : String) : Prop :=
  (∃ m ∈ d.fields, ∃ a ∈ m.attributes, Layout.ReadsSignature .ofField p a text) ∨
  (∃ m ∈ d.methods, ∃ a ∈ m.attributes, Layout.ReadsSignature .ofMethod p a text) ∨
  ∃ a ∈ d.attributes, Layout.ReadsSignature .ofClass p a text

namespace Edit

variable {r : Renaming} {owner : String} {kind : SymbolKind} {p q : Pool} {i : UInt16}
  {notices : Array Notice}

/-! ## Entries

An entry may lead to nothing at first, and to a name that was added before its turn comes. So
what it refers to is known only when it is renamed. -/

section

variable {α : Type} {f f' : Focus α} {c : Constant} {slots : Nat}

theorem references_rename (hp : f.pool.Sound) (hi : f.pool.get? i = some c)
    (hc : c.isReference = true) (h : eachIndex (renameReference r) f.pool.slots f = .ok () f') :
    ∃ t t' : Referent, t.renameMembers r = .ok t' ∧ f'.pool.Refers i t' := by
  obtain ⟨g, g', hbefore, hstep, hafter⟩ := eachIndex_eq_ok
    (fun _ => stays_renameReference_frame) hp.slots_le (hp.index_pos hi) (Pool.get?_lt_slots hi) h
  obtain ⟨t, ht⟩ := exists_refers hstep (hbefore.pool.get? hi (.inl rfl)) hc
  obtain ⟨t', hrename, ht'⟩ := renameReference_refers (hbefore.pool.sound hp) ht hstep
  exact ⟨t, t', hrename, ht'.frame hafter.pool fun _ _ => .inl rfl⟩

theorem classes_rename {j : UInt16} (hp : f.pool.Sound) (hi : f.pool.get? i = some (.classRef j))
    (hslots : slots ≤ Pool.maxSlots) (hlt : i.toNat < slots)
    (h : eachIndex (renameClassEntry r) slots f = .ok () f') :
    ∃ name name', r.type name = .ok name' ∧ f'.pool.className i = .ok name' := by
  obtain ⟨g, g', hbefore, hstep, hafter⟩ := eachIndex_eq_ok
    (fun _ => stays_renameClassEntry_frame) hslots (hp.index_pos hi) hlt h
  obtain ⟨name, hname⟩ := exists_className hstep (hbefore.pool.get? hi (.inl rfl))
  obtain ⟨name', hn, hnew⟩ := renameClassEntry_className (hbefore.pool.sound hp) hname hstep
  obtain ⟨k, entry, text⟩ := Pool.className_eq_ok.mp hnew
  exact ⟨name, name', hn, Pool.className_eq_ok.mpr
    ⟨k, hafter.pool.get? entry (.inl rfl), hafter.pool.utf8 text⟩⟩

end

/-! ## Members and attributes -/

theorem renameText_attributes {put : UInt16 → Member → Member} {text text' : String}
    {g g' : Focus Member} (h : renameText put text text' g = .ok () g')
    (hput : ∀ index m, (put index m).attributes = m.attributes) :
    g'.item.attributes = g.item.attributes ∧ Pool.Grows g.pool g'.pool := by
  have hstays : Focus.Related (Order.Preimage Member.attributes Eq) Pool.Grows g g' :=
    (stays_renameText Pool.interns_frame fun index m => (hput index m).symm).ok h
  exact ⟨hstays.item.symm, hstays.pool⟩

/-- The attributes of a member are renamed last. -/
theorem renameMember_attributes {f f' : Focus Member}
    (h : renameMember r kind owner f = .ok () f') : ∃ g : Focus Member,
      Pool.Grows f.pool g.pool ∧ g.item.attributes = f.item.attributes ∧
      each (renameAttribute r kind) ⟨g.item.attributes, g.pool, g.tally, g.notices⟩
        = .ok () ⟨f'.item.attributes, f'.pool, f'.tally, f'.notices⟩ := by
  obtain ⟨_, _, _, named, described, counted, hsteps⟩ := renameMember_steps h
  obtain ⟨hsame₁, hgrows₁⟩ := renameText_attributes hsteps.names fun _ _ => rfl
  obtain ⟨hsame₂, hgrows₂⟩ := renameText_attributes hsteps.describes fun _ _ => rfl
  obtain ⟨hitem, hpool⟩ := hsteps.counted_eq
  obtain ⟨attributes, hrun, hitem'⟩ := inside_eq_ok hsteps.attributes
  refine ⟨counted, hpool ▸ hgrows₁.trans hgrows₂, by rw [hitem, hsame₂, hsame₁], ?_⟩
  rw [hitem']
  exact hrun

section

variable {text text' : String}

theorem signature_of_takes {a a' : Attribute}
    (hp : p.Sound) (h : Takes Pool.Grows (renameAttribute r kind) p q notices a a')
    (hname : p.utf8 a.name = .ok AttributeName.signature) (hpayload : a.payload = Word.bytes i)
    (htext : p.utf8 i = .ok text) (hnew : r.signature kind text = .ok text') :
    ∃ j, a'.payload = Word.bytes j ∧ q.utf8 j = .ok text' := by
  obtain ⟨f, f', hrun, rfl, rfl, hbefore, hafter, -⟩ := h
  obtain ⟨j, hj, hutf8⟩ := Layout.signature_renamed (hbefore.sound hp) (hbefore.utf8 hname)
    hpayload (hbefore.utf8 htext) hnew hrun
  exact ⟨j, hj, hafter.utf8 hutf8⟩

theorem memberSignature_of_takes {m m' : Member} {l : Nat} {a : Attribute}
    (hp : p.Sound) (h : Takes Pool.Grows (renameMember r kind owner) p q notices m m')
    (ha : m.attributes[l]? = some a)
    (hname : p.utf8 a.name = .ok AttributeName.signature) (hpayload : a.payload = Word.bytes i)
    (htext : p.utf8 i = .ok text) (hnew : r.signature kind text = .ok text') :
    ∃ a' j, m'.attributes[l]? = some a' ∧ a'.payload = Word.bytes j ∧ q.utf8 j = .ok text' := by
  obtain ⟨f, f', hrun, rfl, rfl, hbefore, hafter, -⟩ := h
  obtain ⟨g, hgrow, hsame, hattributes⟩ := renameMember_attributes hrun
  obtain ⟨-, htakes⟩ := renameAttributes_takes hattributes
  have hpg := hbefore.trans hgrow
  obtain ⟨a', ha', htake⟩ := htakes.getElem? (by exact hsame ▸ ha)
  obtain ⟨j, hj, hutf8⟩ := signature_of_takes (hpg.sound hp) htake (hpg.utf8 hname) hpayload
    (hpg.utf8 htext) hnew
  exact ⟨a', j, ha', hj, hafter.utf8 hutf8⟩

end

section

variable (hr : r.IsFinal)
include hr

theorem atRest_of_takes {a b : Attribute} (hp : p.Sound)
    (h : Takes Pool.Grows (renameAttribute r kind) p q notices a b)
    (hnotices : .signatureIndex ∉ notices)
    (hdot : ∀ text, Layout.ReadsSignature kind q a text → '.' ∉ text.toList) :
    Layout.AtRest r kind q b := by
  obtain ⟨f, f', hrun, rfl, rfl, hbefore, hafter, hsub⟩ := h
  have hkeeps := Layout.KeepsTexts.of_grows hafter
  refine Layout.AtRest.keeps ?_ hkeeps
  exact Layout.atRest_of_renameAttribute hr (hbefore.sound hp) hrun (mt (hsub _) hnotices)
    fun text htext => hdot text (htext.keeps hkeeps)

variable {owner' : String} (howner : r.type owner = .ok owner')
include howner

theorem memberAtRest_of_takes {m m' : Member} (hp : p.Sound)
    (h : Takes Pool.Grows (renameMember r kind owner) p q notices m m')
    (hnotices : .signatureIndex ∉ notices)
    (hdot : ∀ a ∈ m.attributes, ∀ text, Layout.ReadsSignature kind q a text →
      '.' ∉ text.toList) : MemberAtRest r kind owner' q m' := by
  obtain ⟨f, f', hrun, rfl, rfl, hbefore, hafter, hsub⟩ := h
  have hf := hbefore.sound hp
  have hkeeps := Layout.KeepsTexts.of_grows hafter
  refine MemberAtRest.keeps ?_ hkeeps
  obtain ⟨name, descriptor, descriptor', -, -, hd, hname', hdescriptor'⟩ :=
    renameMember_eq_ok hf hrun
  refine ⟨⟨_, descriptor', ⟨hname', hdescriptor'⟩, hr.declaredName howner _ _ _,
    hr.descriptor hd⟩, ?_⟩
  obtain ⟨g, hgrow, hsame, hattributes⟩ := renameMember_attributes hrun
  intro b hb
  obtain ⟨-, htakes⟩ := renameAttributes_takes hattributes
  obtain ⟨a, ha, hab⟩ := htakes.exists_mem hb
  exact atRest_of_takes hr (hgrow.sound hf) hab (mt (hsub _) hnotices)
    fun text htext => hdot a (hsame ▸ ha) text (htext.keeps hkeeps)

theorem members_atRest {xs : Array Member} {f' : Focus (Array Member)} {tally : Tally}
    (hp : p.Sound)
    (h : each (renameMember r kind owner) ⟨xs, p, tally, notices⟩ = .ok () f')
    (hnotices : .signatureIndex ∉ f'.notices)
    (hdot : ∀ m ∈ xs, ∀ a ∈ m.attributes, ∀ text, Layout.ReadsSignature kind f'.pool a text →
      '.' ∉ text.toList) : ∀ m ∈ f'.item, MemberAtRest r kind owner' f'.pool m := by
  obtain ⟨-, htakes⟩ := renameMembers_takes h
  intro m' hm'
  obtain ⟨m, hm, htake⟩ := htakes.exists_mem hm'
  exact memberAtRest_of_takes hr howner hp htake hnotices (hdot m hm)

end

/-! ## Enclosing methods -/

/-- Behind the pass over enclosing methods, the method has its new name as a member of the class
that still has the old one. -/
def EnclosesRenamed (r : Renaming) (p : Pool) (a : Attribute) : Prop :=
  ∃ j m : UInt16, a.payload = Word.bytes j ++ Word.bytes m ∧ (m ≠ 0 →
    ∃ owner name descriptor descriptor', p.className j = .ok owner ∧
      p.nameAndType m = .ok (r.methodName owner name descriptor, descriptor') ∧
      r.descriptor descriptor = .ok descriptor')

theorem enclosesRenamed_of_eq_ok {f f' : Focus Attribute} (hp : f.pool.Sound)
    (hname : f.pool.utf8 f.item.name = .ok AttributeName.enclosingMethod)
    (h : renameEnclosingMethod r f = .ok () f') : EnclosesRenamed r f'.pool f'.item := by
  obtain ⟨t, ht, hitem'⟩ := inside_eq_ok (renameEnclosingMethod_inside hname h)
  obtain ⟨j, m, hwords⟩ := exists_words_of_enclosingMethodPayload ht
  have hpayload : f.item.payload = Word.bytes j ++ Word.bytes m := hwords
  rw [enclosingMethodPayload_of_words (congrArg Tape.start hpayload)] at ht
  split at ht
  case isFalse hm₀ =>
    obtain ⟨-, hsame⟩ := pure_eq_ok.mp ht
    have ht : _ = t := congrArg Focus.item hsame
    refine ⟨j, m, ?_, fun h => absurd h hm₀⟩
    rw [hitem', ← ht]
    simp [Tape.bytes]
  case isTrue hm₀ =>
    obtain ⟨owner, _, hlook, ht⟩ := bind_eq_ok.mp ht
    obtain ⟨howner, rfl⟩ := look_eq_ok.mp hlook
    obtain ⟨⟨name, descriptor⟩, _, hlook, -⟩ := bind_eq_ok.mp ht
    have hm := (look_eq_ok.mp hlook).1
    obtain ⟨m', descriptor', hd, hpayload', hm'⟩ :=
      renameEnclosingMethod_eq_ok hp hname hpayload hm₀ howner hm h
    have hgrow : Focus.Related Attribute.SameName Pool.Grows f f' :=
      (stays_renameEnclosingMethod Pool.interns_frame).ok h
    exact ⟨j, m', hpayload', fun _ => ⟨owner, name, descriptor, descriptor',
      hgrow.pool.className howner, hm', hd⟩⟩

theorem EnclosesRenamed.grows {a : Attribute} (ha : EnclosesRenamed r p a)
    (h : Pool.Grows p q) : EnclosesRenamed r q a := by
  obtain ⟨j, m, hpayload, hmethod⟩ := ha
  refine ⟨j, m, hpayload, fun hm₀ => ?_⟩
  obtain ⟨owner, name, descriptor, descriptor', howner, hm, hd⟩ := hmethod hm₀
  exact ⟨owner, name, descriptor, descriptor', h.className howner, h.nameAndType hm, hd⟩

/-- The method is a member of the renamed class behind the last pass, and its name is final. -/
theorem EnclosesRenamed.final (hr : r.IsFinal) {a : Attribute} (ha : EnclosesRenamed r p a)
    (h : RenamesClasses r p q) : EnclosesFinal r q a := by
  obtain ⟨j, m, hpayload, hmethod⟩ := ha
  refine ⟨j, m, hpayload, fun hm₀ => ?_⟩
  obtain ⟨owner, name, descriptor, descriptor', howner, hm, hd⟩ := hmethod hm₀
  obtain ⟨owner', hn, howner'⟩ := h.class_name howner
  exact ⟨owner', _, descriptor', howner', h.frame.nameAndType hm,
    hr.method_final hn name descriptor descriptor', hr.descriptor hd⟩

theorem Takes.grows {α : Type} {e : Edit α Unit} {a b : α} (he : Stays Anything Pool.Grows e)
    (h : Takes Pool.Grows e p q notices a b) : Pool.Grows p q := by
  obtain ⟨f, f', hrun, -, -, hbefore, hafter, -⟩ := h
  exact hbefore.trans ((he.ok hrun).pool.trans hafter)

/-- An attribute of a class is at rest behind both passes, and its enclosing method is renamed. -/
theorem classAttribute_of_takes (hr : r.IsFinal) {q' : Pool} {notices' : Array Notice}
    {a b c : Attribute} (hp : p.Sound)
    (h : Takes Pool.Grows (renameEnclosingMethod r) p q notices a b)
    (h' : Takes Pool.Grows (renameAttribute r kind) q q' notices' b c)
    (hnotices : .signatureIndex ∉ notices')
    (hdot : ∀ text, Layout.ReadsSignature kind q' a text → '.' ∉ text.toList) :
    Layout.AtRest r kind q' c ∧
      (q'.utf8 c.name = .ok AttributeName.enclosingMethod → EnclosesRenamed r q' c) := by
  have hpq := Takes.grows (stays_renameEnclosingMethod Pool.interns_frame).anything h
  have hqq' := Takes.grows (stays_renameAttribute Pool.interns_frame).anything h'
  have hrest := atRest_of_takes hr (hpq.sound hp) h' hnotices
  obtain ⟨f, f', hrun, rfl, rfl, hbefore, hafter, -⟩ := h
  obtain ⟨g, g', hrun', hitem, rfl, hbefore', hafter', -⟩ := h'
  obtain ⟨name, hname, -⟩ := renameEnclosingMethod_cases hrun
  have hsame : Focus.Related Attribute.SameName Pool.Grows f f' :=
    (stays_renameEnclosingMethod Pool.interns_frame).ok hrun
  have hsame' : Focus.Related Attribute.SameName Pool.Grows g g' :=
    (stays_renameAttribute Pool.interns_frame).ok hrun'
  have hfname : f'.pool.utf8 f'.item.name = .ok name := by
    have hindex : f.item.name = f'.item.name := hsame.item
    exact hindex ▸ hsame.pool.utf8 hname
  have hgname : g.pool.utf8 g.item.name = .ok name :=
    hitem ▸ (hafter.trans hbefore').utf8 hfname
  by_cases heq : name = AttributeName.enclosingMethod
  case pos =>
    subst heq
    -- no walk enters the attribute, so the second pass leaves it alone
    have hwalked : AttributeName.enclosingMethod ∉ AttributeName.walked := by decide
    cases (renameAttribute_passes hgname hwalked).symm.trans hrun'
    refine ⟨hrest fun text htext => ?_, fun _ => ?_⟩
    · exact absurd htext (Layout.not_readsSignature ((hafter.trans hqq').utf8 hfname) hwalked)
    · rw [hitem]
      exact (enclosesRenamed_of_eq_ok (hbefore.sound hp) hname hrun).grows (hafter.trans hqq')
  case neg =>
    cases (renameEnclosingMethod_self hname fun h => absurd h heq).symm.trans hrun
    refine ⟨hrest hdot, fun hname' => ?_⟩
    have hindex : g.item.name = g'.item.name := hsame'.item
    rw [← hindex] at hname'
    have hname := (hsame'.pool.trans hafter').utf8 hgname
    exact absurd (Except.ok.inj (hname.symm.trans hname')) heq

/-! ## All passes -/

namespace Passes

variable {f f₁ f' : Focus Declarations} {f₂ f₃ : Focus (Array Member)}
  {f₄ : Focus (Array Attribute)}
  (h : Passes r owner f f₁ f₂ f₃ f₄ f')
include h

theorem notices_attributes : ∀ n ∈ f₄.notices, n ∈ f'.notices := by
  have hstays : Focus.Related Eq (Pool.Frame fun _ c => c.isClassRef = false) _ f' :=
    (stays_eachIndex fun _ => stays_renameClassEntry_frame).ok h.classes
  exact hstays.notices

theorem notices_methods : ∀ n ∈ f₃.notices, n ∈ f'.notices := by
  obtain ⟨⟨⟩, g, henclosing, hattributes⟩ := bind_eq_ok.mp h.attributes
  have hstays : Focus.Related _ Pool.Grows _ g :=
    (stays_each (stays_renameEnclosingMethod Pool.interns_frame)).ok henclosing
  have hstays' : Focus.Related _ Pool.Grows g f₄ :=
    (stays_each (stays_renameAttribute Pool.interns_frame)).ok hattributes
  exact fun n hn => h.notices_attributes n (hstays'.notices n (hstays.notices n hn))

theorem notices_fields : ∀ n ∈ f₂.notices, n ∈ f'.notices := by
  have hstays : Focus.Related _ Pool.Grows _ f₃ :=
    (stays_each (stays_renameMember Pool.interns_frame)).ok h.methods
  exact fun n hn => h.notices_methods n (hstays.notices n hn)

variable (hp : f.pool.Sound)
include hp

theorem keepsTexts : Layout.KeepsTexts f₄.pool f'.pool where
  utf8 _ _ := (h.renamesClasses hp).frame.utf8
  className _ _ hname :=
    have ⟨name', _, hname'⟩ := (h.renamesClasses hp).class_name hname
    ⟨name', hname'⟩

/-- What was an entry with a name at the start refers to final names. -/
theorem refers_final (hr : r.IsFinal) {c : Constant} (hi : f.pool.get? i = some c)
    (hc : (c.isReference || c.isClassRef) = true) :
    ∃ t, f'.pool.Refers i t ∧ t.rename r = .ok t := by
  rcases Bool.or_eq_true_iff.mp hc with hreference | hclass
  · obtain ⟨t, t₁, ht₁, hrefers₁⟩ := references_rename hp hi hreference h.references
    obtain ⟨t₂, ht₂, hrefers₂⟩ :=
      (h.renamesClasses hp).refers (hrefers₁.grows (h.grows_references hp))
    exact ⟨t₂, hrefers₂, hr.referent (Referent.rename_of_phases ht₁ ht₂)⟩
  · obtain ⟨j, rfl⟩ : ∃ j, c = .classRef j := by
      cases c <;> first | exact ⟨_, rfl⟩ | cases hclass
    have hi₄ : f₄.pool.get? i = some (.classRef j) :=
      (h.grows_references hp).get? (h.keeps_references.frame.get? hi rfl) trivial
    obtain ⟨name, name', hn, hname'⟩ := classes_rename (by exact h.sound_attributes hp)
      (by exact hi₄) hp.slots_le (Pool.get?_lt_slots hi) h.classes
    refine ⟨.classRef name', Pool.refers_classRef.mpr hname', ?_⟩
    simp only [Referent.rename, (hr.type hn).1]
    rfl

theorem classAttribute (hr : r.IsFinal) (hnotices : .signatureIndex ∉ f'.notices)
    (hdot : ∀ text, f.item.ReadsSignature f'.pool text → '.' ∉ text.toList) {c : Attribute}
    (hc : c ∈ f₄.item) : Layout.AtRest r .ofClass f₄.pool c ∧
      (f₄.pool.utf8 c.name = .ok AttributeName.enclosingMethod →
        EnclosesRenamed r f₄.pool c) := by
  obtain ⟨⟨⟩, g, henclosing, hattributes⟩ := bind_eq_ok.mp h.attributes
  obtain ⟨-, htakes⟩ := renameEnclosingMethods_takes henclosing
  obtain ⟨-, htakes'⟩ := renameAttributes_takes hattributes
  obtain ⟨b, hb, hbc⟩ := htakes'.exists_mem hc
  obtain ⟨a, ha, hab⟩ := htakes.exists_mem hb
  refine classAttribute_of_takes hr (by exact h.sound_methods hp) hab hbc
    (mt (h.notices_attributes _) hnotices) ?_
  intro text htext
  exact hdot text (.inr (.inr ⟨a, ha, htext.keeps (h.keepsTexts hp)⟩))

/-- What a renaming to final names leaves is settled. -/
theorem settled (hr : r.IsFinal) {owner' : String} (howner : r.type owner = .ok owner')
    (hkinds : ∀ ⦃i c'⦄, f'.pool.get? i = some c' → (c'.isReference || c'.isClassRef) = true →
      ∃ c, f.pool.get? i = some c ∧ (c.isReference || c.isClassRef) = true)
    (hnotices : .signatureIndex ∉ f'.notices)
    (hdot : ∀ text, f.item.ReadsSignature f'.pool text → '.' ∉ text.toList) :
    Settled r owner' f'.pool f'.item := by
  have hkeeps := h.keepsTexts hp
  have hkeeps₂ := (Layout.KeepsTexts.of_grows (h.grows_fields hp)).trans hkeeps
  have hkeeps₃ := (Layout.KeepsTexts.of_grows (h.grows_methods hp)).trans hkeeps
  have hentries : ∀ ⦃i c⦄, f'.pool.get? i = some c → (c.isReference || c.isClassRef) = true →
      ∃ t, f'.pool.Refers i t ∧ t.rename r = .ok t := by
    intro i c' hi hc'
    obtain ⟨c, hi, hc⟩ := hkinds hi hc'
    exact h.refers_final hp hr hi hc
  rw [h.item_eq hp]
  refine ⟨hentries, ?_, ?_, ?_, ?_, ?_⟩
  · intro i name hname
    obtain ⟨j, entry, -⟩ := Pool.className_eq_ok.mp hname
    obtain ⟨t, ht, hrename⟩ := hentries entry rfl
    cases ht.unique (Pool.refers_classRef.mpr hname)
    obtain ⟨name', hn, ⟨⟩⟩ := except_bind_eq_ok.mp hrename
    exact (hr.type hn).2
  · intro m hm
    refine (members_atRest hr howner (by exact h.sound_references hp) h.fields
      (mt (h.notices_fields _) hnotices) ?_ m hm).keeps hkeeps₂
    intro m hm a ha text htext
    exact hdot text (.inl ⟨m, hm, a, ha, htext.keeps hkeeps₂⟩)
  · intro m hm
    refine (members_atRest hr howner (by exact h.sound_fields hp) h.methods
      (mt (h.notices_methods _) hnotices) ?_ m hm).keeps hkeeps₃
    intro m hm a ha text htext
    exact hdot text (.inr (.inl ⟨m, hm, a, ha, htext.keeps hkeeps₃⟩))
  · intro a ha
    exact (h.classAttribute hp hr hnotices hdot ha).1.keeps hkeeps
  · intro a ha hname
    obtain ⟨hrest, hencloses⟩ := h.classAttribute hp hr hnotices hdot ha
    obtain ⟨name, -, hname₄, -⟩ := hrest
    cases (hkeeps.utf8 hname₄).symm.trans hname
    exact (hencloses hname₄).final hr (h.renamesClasses hp)

end Passes

end Edit

namespace ClassFile

variable {data out : List UInt8} {c c' : ClassFile} {r : Renaming}

/-- Renaming adds no entries of the kinds that it renames. -/
theorem kind_of_framed (h : Framed c c') {i : UInt16} {k' : Constant}
    (hi : c'.pool.get? i = some k') (hk : (k'.isReference || k'.isClassRef) = true) :
    ∃ k, c.pool.get? i = some k ∧ (k.isReference || k.isClassRef) = true := by
  obtain ⟨hn, -⟩ := Pool.get?_eq_some.mp hi
  have hlt : i.toNat < c.pool.slots := by
    by_contra hle
    have htext := (h.added (Nat.le_of_not_lt hle) hn).1
    have hnone : (k'.isReference || k'.isClassRef) = false := by
      cases k' <;> first | rfl | cases htext
    exact absurd (hnone.symm.trans hk) Bool.false_ne_true
  obtain ⟨k, hk'⟩ : ∃ k, c.pool.entries[i.toNat]? = some k := ⟨_, Array.getElem?_eq_getElem hlt⟩
  obtain ⟨k'', hn', hfixed⟩ := h.kept hk'
  cases hn.symm.trans hn'
  have hkind : (k.isReference || k.isClassRef) = true := by
    rw [← k.isReference_fixed, ← k.isClassRef_fixed, ← hfixed, k'.isReference_fixed,
      k'.isClassRef_fixed]
    exact hk
  refine ⟨k, Pool.get?_eq_some.mpr ⟨hk', ?_⟩, hkind⟩
  rintro rfl
  cases hkind

/-- The text is a generic signature in the class file, if its indices lead into the pool `p`. -/
def ReadsSignature (c : ClassFile) (p : Pool) (text : String) : Prop :=
  c.declarations.ReadsSignature p text

theorem settled_of_rename (hr : r.IsFinal) (hc : c.pool.Sound) (hcomplete : c.pool.Complete)
    (hresult : (c.rename r).result = .ok c') (hnotices : .signatureIndex ∉ (c.rename r).notices)
    (hdot : ∀ text, c.ReadsSignature c'.pool text → '.' ∉ text.toList) {owner owner' : String}
    (hname : c.name = .ok owner) (howner : r.type owner = .ok owner') :
    Settled r owner' c'.pool c'.declarations := by
  have hframed : Framed c c' := Renamed.file_of_result hresult ▸ framed_of_complete hcomplete r
  obtain ⟨_, f, hname', hrun, rfl, hsame⟩ := renameAll_of_rename hresult
  cases hname.symm.trans hname'
  rw [hsame] at hnotices
  obtain ⟨f₁, f₂, f₃, f₄, hpasses⟩ := Edit.renameAll_passes
    (f := ⟨c.declarations, c.pool, {}, #[]⟩) hrun
  exact hpasses.settled hc hr howner (fun _ _ => kind_of_framed hframed) hnotices hdot

/-- What a renaming to final names gives is left as it is by the same renaming, also if the index
of its pool was built anew. -/
theorem rename_of_rename (hr : r.IsFinal) (hc : c.pool.Sound) (hcomplete : c.pool.Complete)
    (hresult : (c.rename r).result = .ok c') (hnotices : .signatureIndex ∉ (c.rename r).notices)
    (hdot : ∀ text, c.ReadsSignature c'.pool text → '.' ∉ text.toList) {owner : String} {q : Pool}
    (hname : c.name = .ok owner) (hq : q.Sound) (hentries : q.entries = c'.pool.entries) :
    (ClassFile.rename r { c' with pool := q }).result = .ok { c' with pool := q } ∧
      (ClassFile.rename r { c' with pool := q }).tally = {} := by
  obtain ⟨owner', howner, hname'⟩ := name_of_rename hc hresult hname
  have hsettled := settled_of_rename hr hc hcomplete hresult hnotices hdot hname howner
  have hnew : ClassFile.name { c' with pool := q } = .ok owner' :=
    (Pool.className_congr hentries _).trans hname'
  exact rename_of_settled hnew (hsettled.of_entries hentries hq)

/-- The signature of a field leads to its new text in what a renaming gives. -/
theorem fieldSignature_rename (hc : c.pool.Sound) (h : (c.rename r).result = .ok c')
    {k l : Nat} {m : Member} {a : Attribute} {i : UInt16} {text text' : String}
    (hm : c.fields[k]? = some m) (ha : m.attributes[l]? = some a)
    (hname : c.pool.utf8 a.name = .ok AttributeName.signature) (hpayload : a.payload = Word.bytes i)
    (htext : c.pool.utf8 i = .ok text) (hnew : r.signature .ofField text = .ok text') :
    ∃ m' a' j, c'.fields[k]? = some m' ∧ m'.attributes[l]? = some a' ∧
      a'.payload = Word.bytes j ∧ c'.pool.utf8 j = .ok text' := by
  obtain ⟨_, f, -, hrun, rfl, -⟩ := renameAll_of_rename h
  obtain ⟨f₁, f₂, f₃, f₄, hpasses⟩ :=
    Edit.renameAll_passes (f := ⟨c.declarations, c.pool, {}, #[]⟩) hrun
  have hframe := hpasses.keeps_references.frame
  obtain ⟨-, htakes⟩ := Edit.renameMembers_takes hpasses.fields
  obtain ⟨m', hm', htake⟩ := htakes.getElem? hm
  obtain ⟨a', j, ha', hj, hutf8⟩ := Edit.memberSignature_of_takes
    (hpasses.sound_references hc) htake ha
    (hframe.utf8 hname) hpayload (hframe.utf8 htext) hnew
  refine ⟨m', a', j, ?_, ha', hj, ?_⟩
  · rw [edited, hpasses.item_eq hc]
    exact hm'
  · exact (hpasses.renamesClasses hc).frame.utf8 ((hpasses.grows_fields hc).utf8 hutf8)

end ClassFile

end Relabel
