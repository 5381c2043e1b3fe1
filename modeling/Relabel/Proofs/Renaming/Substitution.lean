import Relabel.Proofs.ClassFile.RoundTrip
import Relabel.Proofs.Renaming.Progress

/-!
# Renaming is simultaneous substitution

A renaming replaces every name of a class file by what it maps the old names to: no name
is mapped twice, and no member is looked up under a class name that is new already. This
holds of every entry that stands for something and of every declared member, whatever
entries share their texts.
-/

namespace Relabel.ClassFile

variable {data : List UInt8} {c c' : ClassFile} {r : Renaming}

/-! ## What decoding checks -/

theorem sound_of_decode (h : decode data = .ok c) : c.pool.Sound := by
  obtain ⟨_, _, hread⟩ := read_of_decode h
  exact Pool.sound_of_read hread

theorem declares_of_check {m : Member} (h : c.checkMember m = .ok ()) :
    ∃ name descriptor, c.pool.Declares m name descriptor := by
  simp only [checkMember, except_bind_eq_ok] at h
  obtain ⟨name, hname, descriptor, hdescriptor, -⟩ := h
  exact ⟨name, descriptor, hname, hdescriptor⟩

/-- Every declared member of a decoded class file has a name and a descriptor. -/
theorem declares_of_decode (h : decode data = .ok c) :
    (∀ m ∈ c.fields, ∃ name descriptor, c.pool.Declares m name descriptor) ∧
      ∀ m ∈ c.methods, ∃ name descriptor, c.pool.Declares m name descriptor := by
  obtain ⟨hcheck, -⟩ := decode_eq_ok h
  simp only [check, except_bind_eq_ok] at hcheck
  obtain ⟨_, -, _, -, _, -, _, hfields, _, hmethods, -⟩ := hcheck
  exact ⟨fun m hm => declares_of_check (forM_eq_ok.mp hfields m (Array.mem_toList_iff.mpr hm)),
    fun m hm => declares_of_check (forM_eq_ok.mp hmethods m (Array.mem_toList_iff.mpr hm))⟩

/-! ## Renaming as a whole -/

theorem rename_eq_ok (hc : c.pool.Sound) (h : (c.rename r).result = .ok c') :
    ∃ owner, c.name = .ok owner ∧ c'.thisClass = c.thisClass ∧
      Renames r owner c.pool c'.pool c.declarations c'.declarations := by
  obtain ⟨owner, f, hname, hrun, rfl, -⟩ := renameAll_of_rename h
  exact ⟨owner, hname, rfl,
    Edit.renameAll_eq_ok (f := ⟨c.declarations, c.pool, {}, #[]⟩) hc hrun⟩

theorem declares_renamed {kind : SymbolKind} {owner : String} {p q : Pool} {xs ys : Array Member}
    (h : Pointwise (MemberRenamed r kind owner p q) xs ys)
    (hnames : ∀ m ∈ xs, ∃ name descriptor, p.Declares m name descriptor) {j : Nat} {m : Member}
    (hm : xs[j]? = some m) : ∃ m' name descriptor descriptor',
      ys[j]? = some m' ∧ p.Declares m name descriptor ∧ r.descriptor descriptor = .ok descriptor' ∧
      q.Declares m' (Edit.declaredName r kind owner name descriptor) descriptor' := by
  obtain ⟨m', hm', hrenamed⟩ := h.getElem? hm
  obtain ⟨name, descriptor, hdeclares⟩ := hnames m (Array.mem_of_getElem? hm)
  obtain ⟨descriptor', hd, hdeclares'⟩ := hrenamed hdeclares
  exact ⟨m', name, descriptor, descriptor', hm', hdeclares, hd, hdeclares'⟩

/-- All names are replaced at once, each by what the renaming makes of the old names. -/
theorem rename_substitutes (hdecode : decode data = .ok c) (h : (c.rename r).result = .ok c') :
    (∀ ⦃i t⦄, c.pool.Refers i t → ∃ t', t.rename r = .ok t' ∧ c'.pool.Refers i t') ∧
    ∃ owner, c.name = .ok owner ∧
      c'.fields.size = c.fields.size ∧
      (∀ ⦃j : Nat⦄ ⦃m : Member⦄, c.fields[j]? = some m → ∃ m' name descriptor descriptor',
        c'.fields[j]? = some m' ∧ c.pool.Declares m name descriptor ∧
        r.descriptor descriptor = .ok descriptor' ∧
        c'.pool.Declares m' (r.fieldName owner name descriptor) descriptor') ∧
      c'.methods.size = c.methods.size ∧
      ∀ ⦃j : Nat⦄ ⦃m : Member⦄, c.methods[j]? = some m → ∃ m' name descriptor descriptor',
        c'.methods[j]? = some m' ∧ c.pool.Declares m name descriptor ∧
        r.descriptor descriptor = .ok descriptor' ∧
        c'.pool.Declares m'
          (if name.startsWith "<" then name else r.methodName owner name descriptor)
          descriptor' := by
  obtain ⟨owner, howner, -, hrenames⟩ := rename_eq_ok (sound_of_decode hdecode) h
  obtain ⟨hfields, hmethods⟩ := declares_of_decode hdecode
  exact ⟨hrenames.refers, owner, howner,
    hrenames.fields.size_eq.symm, fun _ _ => declares_renamed hrenames.fields hfields,
    hrenames.methods.size_eq.symm, fun _ _ => declares_renamed hrenames.methods hmethods⟩

/-- A class `A` with a field and a method, both of which it refers to. The field of the same
name in `B` shares the name and type, and the method encloses the class. -/
def sharingFile : List UInt8 :=
  [0xCA, 0xFE, 0xBA, 0xBE, 0, 0, 0, 52, 0, 15,
    1, 0, 1, 65, 7, 0, 1, 1, 0, 1, 66, 7, 0, 3,
    1, 0, 1, 120, 1, 0, 3, 76, 65, 59, 12, 0, 5, 0, 6, 9, 0, 2, 0, 7, 9, 0, 4, 0, 7,
    1, 0, 1, 109, 1, 0, 3, 40, 41, 86, 12, 0, 10, 0, 11, 10, 0, 2, 0, 12,
    1, 0, 15, 69, 110, 99, 108, 111, 115, 105, 110, 103, 77, 101, 116, 104, 111, 100,
    0, 33, 0, 2, 0, 0, 0, 0, 0, 1, 0, 0, 0, 5, 0, 6, 0, 0, 0, 1, 0, 0, 0, 10, 0, 11, 0, 0,
    0, 1, 0, 14, 0, 0, 0, 4, 0, 2, 0, 12]

/-- Exchanges `A` and `B` and renames the members of `A` only. -/
def exchange : Renaming :=
  { Renaming.identity with
    className := fun name => if name = "A" then "B" else if name = "B" then "A" else name
    fieldName := fun owner name _ => if owner = "A" then "y" else name
    methodName := fun owner name _ => if owner = "A" then "x" else name }

theorem rename_sharingFile : ∃ c c', decode sharingFile = .ok c ∧
    (c.rename exchange).result = .ok c' ∧ c'.pool.Refers 2 (.classRef "B") ∧
    c'.pool.Refers 8 (.memberRef .field "B" "y" "LB;") ∧
    c'.pool.Refers 9 (.memberRef .field "A" "x" "LB;") := by
  obtain ⟨c, hc, hchecks⟩ := eq_ok_of_any (decode sharingFile) (fun c =>
    c.isPlain && decide (c.pool.referent 2 = .ok (some (.classRef "A")))
      && decide (c.pool.referent 8 = .ok (some (.memberRef .field "A" "x" "LA;")))
      && decide (c.pool.referent 9 = .ok (some (.memberRef .field "B" "x" "LA;"))))
    (by decide +kernel)
  simp only [Bool.and_eq_true, decide_eq_true_eq] at hchecks
  obtain ⟨⟨⟨hplain, hclass⟩, hown⟩, hother⟩ := hchecks
  obtain ⟨c', hc'⟩ := rename_of_isPlain exchange (sound_of_decode hc) hplain
  obtain ⟨hrefers, -⟩ := rename_substitutes hc hc'
  have hnew {i t t'} (h : c.pool.referent i = .ok (some t)) (ht : t.rename exchange = .ok t') :
      c'.pool.Refers i t' := by
    obtain ⟨_, ht', hi⟩ := hrefers (Pool.refers_iff.mpr h)
    cases ht.symm.trans ht'
    exact hi
  exact ⟨c, c', hc, hc', hnew hclass (by decide +kernel), hnew hown (by decide +kernel),
    hnew hother (by decide +kernel)⟩

end Relabel.ClassFile
