import Relabel.Proofs.Renaming.Substitution

/-!
# Renamed class files still link

A declaration, a reference to it and an `EnclosingMethod` attribute are renamed in
different passes, but all three ask for the new name with the same old owner, name and
descriptor. So what named a declared member before names it afterwards, also across class
files that are renamed apart from each other.
-/

namespace Relabel

theorem Pool.refers_classRef {p : Pool} {i : UInt16} {name : String} :
    p.Refers i (.classRef name) ↔ p.className i = .ok name := by
  rw [className_eq_ok]
  constructor
  · rintro (⟨entry, text⟩)
    exact ⟨_, entry, text⟩
  · rintro ⟨j, entry, text⟩
    exact .classRef entry text

namespace ClassFile

variable {r : Renaming} {a b : List UInt8} {u u' v v' : ClassFile}

/-- The class is found under its new name. -/
theorem name_of_rename {owner : String} (hu : u.pool.Sound) (h : (u.rename r).result = .ok u')
    (hname : u.name = .ok owner) :
    ∃ owner', r.type owner = .ok owner' ∧ u'.name = .ok owner' := by
  obtain ⟨_, -, hthis, hrenames⟩ := rename_eq_ok hu h
  obtain ⟨t', ht', hrefers⟩ := hrenames.refers (Pool.refers_classRef.mpr hname)
  obtain ⟨owner', ho, ⟨⟩⟩ := except_bind_eq_ok.mp ht'
  exact ⟨owner', ho, by rw [name, hthis]; exact Pool.refers_classRef.mp hrefers⟩

/-- A reference to a member is one to the renamed member. -/
theorem refers_of_renames {unit owner owner' name descriptor descriptor' : String} {p q : Pool}
    {d d' : Declarations} {i : UInt16} {kind : RefKind} (h : Renames r unit p q d d')
    (ho : r.type owner = .ok owner') (hd : r.descriptor descriptor = .ok descriptor')
    (hi : p.Refers i (.memberRef kind owner name descriptor)) :
    q.Refers i
      (.memberRef kind owner' (Edit.memberName r kind owner name descriptor) descriptor') := by
  obtain ⟨t, ht, hi'⟩ := h.refers hi
  cases (Referent.rename_memberRef_eq_ok.mpr ⟨owner', descriptor', ho, hd, rfl⟩).symm.trans ht
  exact hi'

/-- What named a declared member, in whichever class file, names the renamed member. -/
theorem rename_links (hu : decode a = .ok u) (hv : decode b = .ok v)
    (hu' : (u.rename r).result = .ok u') (hv' : (v.rename r).result = .ok v') :
    ∃ owner owner', u.name = .ok owner ∧ u'.name = .ok owner' ∧
      (∀ ⦃j : Nat⦄ ⦃m : Member⦄ ⦃name descriptor : String⦄, u.fields[j]? = some m →
        u.pool.Declares m name descriptor →
        ∃ m' name' descriptor', u'.fields[j]? = some m' ∧
          u'.pool.Declares m' name' descriptor' ∧
          ∀ ⦃i⦄, v.pool.Refers i (.memberRef .field owner name descriptor) →
            v'.pool.Refers i (.memberRef .field owner' name' descriptor')) ∧
      ∀ ⦃j : Nat⦄ ⦃m : Member⦄ ⦃name descriptor : String⦄, u.methods[j]? = some m →
        u.pool.Declares m name descriptor → name.startsWith "<" = false →
        ∃ m' name' descriptor', u'.methods[j]? = some m' ∧
          u'.pool.Declares m' name' descriptor' ∧
          (∀ ⦃i kind⦄, kind ≠ .field → v.pool.Refers i (.memberRef kind owner name descriptor) →
            v'.pool.Refers i (.memberRef kind owner' name' descriptor')) ∧
          ∀ ⦃k : Nat⦄ ⦃e : Attribute⦄, v.attributes[k]? = some e →
            v.pool.Encloses e owner name descriptor →
            ∃ e', v'.attributes[k]? = some e' ∧ v'.pool.Encloses e' owner' name' descriptor' := by
  obtain ⟨owner, howner, -, renames⟩ := rename_eq_ok (sound_of_decode hu) hu'
  obtain ⟨_, -, -, renames'⟩ := rename_eq_ok (sound_of_decode hv) hv'
  obtain ⟨owner', ho, howner'⟩ := name_of_rename (sound_of_decode hu) hu' howner
  refine ⟨owner, owner', howner, howner', ?_, ?_⟩
  · intro j m name descriptor hm hdeclares
    obtain ⟨m', hm', hrenamed⟩ := renames.fields.getElem? hm
    obtain ⟨descriptor', hd, hdeclares'⟩ := hrenamed hdeclares
    refine ⟨m', _, descriptor', hm', hdeclares', ?_⟩
    intro i hi
    exact refers_of_renames renames' ho hd hi
  · intro j m name descriptor hm hdeclares hplain
    obtain ⟨m', hm', hrenamed⟩ := renames.methods.getElem? hm
    obtain ⟨descriptor', hd, hdeclares'⟩ := hrenamed hdeclares
    have hname : Edit.declaredName r .ofMethod owner name descriptor
        = r.methodName owner name descriptor := if_neg (by simp [hplain])
    rw [hname] at hdeclares'
    refine ⟨m', _, descriptor', hm', hdeclares', ?_, ?_⟩
    · intro i kind hkind hi
      rw [← Referent.memberName_of_ne_field (r := r) hkind]
      exact refers_of_renames renames' ho hd hi
    · intro k e he hencloses
      obtain ⟨e', he', hrenamed⟩ := renames'.attributes.getElem? he
      obtain ⟨_, _, ho', hd', hencloses'⟩ := hrenamed hencloses
      cases ho.symm.trans ho'
      cases hd.symm.trans hd'
      exact ⟨e', he', hencloses'⟩

/-- A class file links to itself. -/
theorem rename_links_sharingFile : ∃ c c' owner, decode sharingFile = .ok c ∧
    (c.rename exchange).result = .ok c' ∧ c'.name = .ok owner ∧
    (∃ m name descriptor, c'.fields[0]? = some m ∧ c'.pool.Declares m name descriptor ∧
      c'.pool.Refers 8 (.memberRef .field owner name descriptor)) ∧
    ∃ m name descriptor, c'.methods[0]? = some m ∧ c'.pool.Declares m name descriptor ∧
      c'.pool.Refers 13 (.memberRef .method owner name descriptor) ∧
      ∃ e, c'.attributes[0]? = some e ∧ c'.pool.Encloses e owner name descriptor := by
  obtain ⟨c, hc, hchecks⟩ := eq_ok_of_any (decode sharingFile) (fun c =>
    c.isPlain && decide (c.name = .ok "A")
      && c.fields[0]?.any (fun m => decide (c.pool.Declares m "x" "LA;"))
      && decide (c.pool.referent 8 = .ok (some (.memberRef .field "A" "x" "LA;")))
      && c.methods[0]?.any (fun m => decide (c.pool.Declares m "m" "()V"))
      && decide (c.pool.referent 13 = .ok (some (.memberRef .method "A" "m" "()V")))
      && c.attributes[0]?.any (fun e => decide (c.pool.Encloses e "A" "m" "()V")))
    (by decide +kernel)
  simp only [Bool.and_eq_true, decide_eq_true_eq, Option.any_eq_true] at hchecks
  obtain ⟨⟨⟨⟨⟨⟨hplain, hname⟩, f, hf, hfield⟩, hfieldRef⟩, m, hm, hmethod⟩, hmethodRef⟩,
    e, he, hencloses⟩ := hchecks
  obtain ⟨c', hc'⟩ := rename_of_isPlain exchange (sound_of_decode hc) hplain
  obtain ⟨_, owner, howner, howner', hfields, hmethods⟩ := rename_links hc hc hc' hc'
  cases hname.symm.trans howner
  obtain ⟨f', name, descriptor, hf', hfield', hlink⟩ := hfields hf hfield
  obtain ⟨m', name', descriptor', hm', hmethod', hlink', henclosing⟩ :=
    hmethods hm hmethod (by decide +kernel)
  obtain ⟨e', he', hencloses'⟩ := henclosing he hencloses
  exact ⟨c, c', owner, hc, hc', howner',
    ⟨f', name, descriptor, hf', hfield', hlink (Pool.refers_iff.mpr hfieldRef)⟩,
    m', name', descriptor', hm', hmethod', hlink' nofun (Pool.refers_iff.mpr hmethodRef),
    e', he', hencloses'⟩

end ClassFile

end Relabel
