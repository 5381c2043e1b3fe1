import Relabel.Proofs.ClassFile.Written
import Relabel.Proofs.Layout.Count
import Relabel.Proofs.Renaming.Frame

/-!
# What the tally of a renaming tells

Each pass counts what it changes, and no pass undoes what another one did. So nothing is
counted exactly if nothing is changed, but for the names of modules and packages: these are
replaced without being counted.
-/

namespace Relabel

/-- The renaming maps the names of all modules and packages in the pool to themselves. -/
structure Renaming.KeepsModules (r : Renaming) (p : Pool) : Prop where
  module : ∀ ⦃i name⦄, p.Refers i (.module name) → r.moduleName name = name
  package : ∀ ⦃i name⦄, p.Refers i (.package name) → r.packageName name = name

namespace Edit

variable {r : Renaming} {owner : String}

theorem eachIndex_range {p : Pool} (hp : p.Sound) : 1 + (p.slots - 1) ≤ p.slots := by
  have hpos : 0 < p.slots := (Array.getElem?_eq_some_iff.mp hp.origin).1
  omega

namespace Passes

variable {f f₁ f' : Focus Declarations} {f₂ f₃ : Focus (Array Member)}
  {f₄ : Focus (Array Attribute)} (h : Passes r owner f f₁ f₂ f₃ f₄ f') (hp : f.pool.Sound)
include h hp

theorem counts_fields : Focus.Counts (f₂.item = f.item.fields) f₁ f₂ :=
  countsChanges_renameMember.each (by exact h.sound_references hp) h.fields

theorem counts_methods : Focus.Counts (f₃.item = f.item.methods) f₂ f₃ :=
  countsChanges_renameMember.each (by exact h.sound_fields hp) h.methods

theorem counts_attributes : Focus.Counts (f₄.item = f.item.attributes) f₃ f₄ :=
  countsChanges_classAttributes (by exact h.sound_methods hp) h.attributes

/-- The passes over members and attributes count their changes. -/
theorem counts_declarations : Focus.Counts (f'.item = f.item) f₁ f₄ := by
  have hcounts := (h.counts_methods hp).trans (h.counts_attributes hp)
  refine ((h.counts_fields hp).trans hcounts).congr ?_
  rw [h.item_eq hp]
  obtain ⟨⟨fields, methods, attributes⟩, pool, tally, notices⟩ := f
  simp

theorem total_references : f.tally.total ≤ f₁.tally.total ∧
    (f₁.tally.total = f.tally.total ↔ ∀ ⦃i : UInt16⦄ ⦃c : Constant⦄, i.toNat < f.pool.slots →
      f.pool.get? i = some c → c.isReference = true → c.isModule = false →
        f₁.pool.get? i = some c) :=
  (entrywise_renameReference r).timesFrom_total (eachIndex_range hp) (Nat.le_refl _) hp
    h.references

theorem slots_le : f.pool.slots ≤ f₄.pool.slots :=
  Nat.le_trans h.keeps_references.frame.slots_le (h.grows_references hp).slots_le

theorem total_classes : f₄.tally.total ≤ f'.tally.total ∧
    (f'.tally.total = f₄.tally.total ↔ ∀ ⦃i : UInt16⦄ ⦃c : Constant⦄, i.toNat < f.pool.slots →
      f₄.pool.get? i = some c → c.isClassRef = true → c.isModule = false →
        f'.pool.get? i = some c) :=
  (entrywise_renameClassEntry r).timesFrom_total
    (f := (⟨⟨f₂.item, f₃.item, f₄.item⟩, f₄.pool, f₄.tally, f₄.notices⟩ : Focus Declarations))
    (eachIndex_range hp) (h.slots_le hp) (h.sound_attributes hp) h.classes

/-- An entry that is replaced by the first pass is left alone by the others. -/
theorem get?_reference {i : UInt16} {c : Constant} (hi : f₁.pool.get? i = some c)
    (hc : c.isReference = true) : f'.pool.get? i = some c :=
  (h.renamesClasses hp).frame.get? ((h.grows_references hp).get? hi trivial)
    (Constant.isClassRef_of_isReference hc)

/-- An entry that is not replaced by the first pass stays up to the last one. -/
theorem get?_of_not_reference {i : UInt16} {c : Constant} (hi : f.pool.get? i = some c)
    (hc : c.isReference = false) : f₄.pool.get? i = some c :=
  (h.grows_references hp).get? (h.keeps_references.frame.get? hi hc) trivial

/-- Nothing is counted exactly if all stays that would be counted. -/
theorem total_eq_iff : f'.tally.total = f.tally.total ↔ f'.item = f.item ∧
    ∀ ⦃i : UInt16⦄ ⦃c : Constant⦄, f.pool.get? i = some c → c.isModule = false →
      f'.pool.get? i = some c := by
  obtain ⟨hle, hreferences⟩ := h.total_references hp
  obtain ⟨hle', hclasses⟩ := h.total_classes hp
  have hcounts := h.counts_declarations hp
  have hle'' := hcounts.total_le
  have hsum : f'.tally.total = f.tally.total ↔ f₁.tally.total = f.tally.total ∧
      f₄.tally.total = f₁.tally.total ∧ f'.tally.total = f₄.tally.total := by omega
  rw [hsum, hreferences, hcounts.total_eq_iff, hclasses]
  constructor
  · rintro ⟨hreference, hitem, hclass⟩
    refine ⟨hitem, fun i c hi hc => ?_⟩
    have hlt := Pool.get?_lt_slots hi
    by_cases hkind : c.isReference = true
    · exact h.get?_reference hp (hreference hlt hi hkind hc) hkind
    · have hi₄ := h.get?_of_not_reference hp hi (Bool.eq_false_iff.mpr hkind)
      by_cases hkind' : c.isClassRef = true
      · exact hclass hlt hi₄ hkind' hc
      · exact (h.renamesClasses hp).frame.get? hi₄ (Bool.eq_false_iff.mpr hkind')
  · rintro ⟨hitem, hkept⟩
    refine ⟨fun i c _ hi hkind hc => ?_, hitem, fun i c _ hi hkind hc => ?_⟩
    · obtain ⟨c₁, hi₁, hfixed⟩ := h.expands_references.get? hi
      have hkind₁ : c₁.isReference = true := by
        rw [← Constant.isReference_fixed, hfixed, Constant.isReference_fixed, hkind]
      have hsame := (h.get?_reference hp hi₁ hkind₁).symm.trans (hkept hi hc)
      rw [hi₁, hsame]
    · obtain ⟨c₀, hi₀, hkind₀⟩ := h.onlyFrom hp hi hkind
      have hnot₀ := Constant.isReference_of_isClassRef hkind₀
      cases hi.symm.trans (h.get?_of_not_reference hp hi₀ hnot₀)
      exact hkept hi₀ hc

/-- Where nothing is counted and the names of modules and packages stay, nothing is added. -/
theorem pool_eq (htotal : f'.tally.total = f.tally.total) (hr : r.KeepsModules f.pool) :
    f'.pool = f.pool := by
  have hle := (h.total_references hp).1
  have hcounts := h.counts_declarations hp
  have hle' := hcounts.total_le
  have hle'' := (h.total_classes hp).1
  have hreferences : f₁ = f := by
    obtain ⟨-, heq⟩ | ⟨j, g, old, new, hstep, hne, hold, hkind, -, -, hless⟩ :=
      (entrywise_renameReference r).timesFrom_cases (eachIndex_range hp) hp h.references
    · exact heq
    · -- the first entry that is replaced would be a module or a package, under its old name
      have hmodule : old.isModule = true := by
        refine Bool.of_not_eq_false fun hcounted => ?_
        have := hless hcounted
        omega
      obtain ⟨t, ht⟩ := exists_refers hstep hold hkind
      have hself : renameReference r j f = .ok () f := by
        refine renameReference_self ht ?_
        cases ht with
        | module entry text => rw [Referent.rename, hr.module (.module entry text)]; rfl
        | package entry text => rw [Referent.rename, hr.package (.package entry text)]; rfl
        | _ entry =>
          cases hold.symm.trans entry
          cases hmodule
      cases hstep.symm.trans hself
      exact absurd rfl hne
  have hmiddle : f₄.pool = f₁.pool := hcounts.pool_eq (hcounts.total_eq_iff.mp (by omega))
  have hclasses : f' = ⟨⟨f₂.item, f₃.item, f₄.item⟩, f₄.pool, f₄.tally, f₄.notices⟩ := by
    obtain ⟨-, heq⟩ | ⟨j, g, old, new, -, -, -, hkind, -, -, hless⟩ :=
      (entrywise_renameClassEntry r).timesFrom_cases
        (Nat.le_trans (eachIndex_range hp) (by exact h.slots_le hp))
        (by exact h.sound_attributes hp) h.classes
    · exact heq
    · have hcounted : old.isModule = false := by cases old <;> first | rfl | cases hkind
      have hless : f₄.tally.total < f'.tally.total := hless hcounted
      omega
  rw [hclasses, ← hreferences]
  exact hmiddle

end Passes

end Edit

namespace ClassFile

variable {data : List UInt8} {c c' : ClassFile} {r : Renaming}

/-- The class files are the same up to the names of modules and packages, and to what was added. -/
structure SameUpToModules (c c' : ClassFile) : Prop where
  entries : ∀ ⦃n : Nat⦄ ⦃k : Constant⦄, c.pool.entries[n]? = some k → k.isModule = false →
    c'.pool.entries[n]? = some k
  fields : c'.fields = c.fields
  methods : c'.methods = c.methods
  attributes : c'.attributes = c.attributes

/-- Where nothing was replaced, the names of modules and packages are their own new names. -/
theorem keepsModules_of_entries (hc : c.pool.Sound) (h : (c.rename r).result = .ok c')
    (hentries : c'.pool.entries = c.pool.entries) : r.KeepsModules c.pool := by
  obtain ⟨_, -, -, renames⟩ := rename_eq_ok hc h
  have hself {i t t'} (hi : c.pool.Refers i t) (ht : t.rename r = .ok t') : t' = t := by
    obtain ⟨t₁, ht₁, hi₁⟩ := renames.refers hi
    cases ht.symm.trans ht₁
    exact (hi₁.congr hentries).unique hi
  exact ⟨fun _ _ hi => Referent.module.inj (hself hi rfl),
    fun _ _ hi => Referent.package.inj (hself hi rfl)⟩

theorem sameUpToModules_iff (hc : c.pool.Sound) (hexpands : Pool.Expands c.pool c'.pool) :
    SameUpToModules c c' ↔ c'.declarations = c.declarations ∧
      ∀ ⦃i : UInt16⦄ ⦃k : Constant⦄, c.pool.get? i = some k → k.isModule = false →
        c'.pool.get? i = some k := by
  constructor
  · rintro ⟨hentries, hfields, hmethods, hattributes⟩
    refine ⟨by simp [hfields, hmethods, hattributes], fun i k hi hk => ?_⟩
    obtain ⟨hn, hne⟩ := Pool.get?_eq_some.mp hi
    exact Pool.get?_eq_some.mpr ⟨hentries hn hk, hne⟩
  · rintro ⟨hitem, hkept⟩
    refine ⟨fun n k hn hk => ?_, congrArg Declarations.fields hitem,
      congrArg Declarations.methods hitem, congrArg Declarations.attributes hitem⟩
    by_cases hne : k = .unusable
    case pos =>
      subst hne
      obtain ⟨k', hn', hfixed⟩ := hexpands.kept hn
      rw [hn', (Constant.eq_unusable_of_fixed hfixed).mpr rfl]
    case neg =>
      have hlt : n < c.pool.slots := (Array.getElem?_eq_some_iff.mp hn).1
      have hmax : c.pool.slots ≤ 65535 := hc.slots_le
      have hindex : (UInt16.ofNat n).toNat = n :=
        UInt16.toNat_ofNat_of_lt' (Nat.lt_of_lt_of_le hlt (Nat.le_succ_of_le hmax))
      have hi := hkept (Pool.get?_eq_some.mpr ⟨hindex.symm ▸ hn, hne⟩) hk
      exact hindex ▸ (Pool.get?_eq_some.mp hi).1

/-- Nothing is counted exactly if nothing is changed but the names of modules and packages, and
nothing is changed at all exactly if these stay as well. -/
theorem rename_isUnchanged (hdecode : decode data = .ok c) (h : (c.rename r).result = .ok c') :
    ((c.rename r).tally.isUnchanged = true ↔ SameUpToModules c c') ∧
      ((c' == c) = true ↔ (c.rename r).tally.isUnchanged = true ∧ r.KeepsModules c.pool) := by
  have hc := sound_of_decode hdecode
  obtain ⟨owner, f, hname, hrun, rfl, -⟩ := renameAll_of_rename h
  obtain ⟨f₁, f₂, f₃, f₄, hpasses⟩ :=
    Edit.renameAll_passes (f := ⟨c.declarations, c.pool, {}, #[]⟩) hrun
  have hrename := rename_of_renameAll hname hrun
  have hexpands : Pool.Expands c.pool (c.edited f).pool := by
    have hexpands := expands_rename c r
    rwa [hrename] at hexpands
  have htotal : f.tally.total = 0 ↔ SameUpToModules c (c.edited f) := by
    rw [sameUpToModules_iff hc hexpands]
    exact hpasses.total_eq_iff hc
  have hunchanged : (c.rename r).tally.isUnchanged = true ↔ f.tally.total = 0 := by
    rw [hrename, Tally.isUnchanged, beq_iff_eq]
  rw [hunchanged]
  refine ⟨htotal, fun hsame => ?_, fun ⟨hzero, hr⟩ => ?_⟩
  · obtain ⟨hfile, hentries⟩ := of_beq hsame
    refine ⟨htotal.mpr ⟨fun n k hn _ => by rw [hentries, hn], ?_, ?_, ?_⟩,
      keepsModules_of_entries hc h hentries⟩
    · exact (congrArg fields hfile).trans rfl
    · exact (congrArg methods hfile).trans rfl
    · exact (congrArg attributes hfile).trans rfl
  · have hitem : f.item = c.declarations := ((hpasses.total_eq_iff hc).mp hzero).1
    have hpool : f.pool = c.pool := hpasses.pool_eq hc hzero hr
    have hfile : c.edited f = { c with pool := c.pool } := by rw [edited, hpool, hitem]
    rw [hfile]
    exact beq_of_entries rfl

/-! ## A module that is replaced -/

open Edit

/-- A class `C` with an entry of the module `m`. -/
def moduleFile : List UInt8 :=
  [0xCA, 0xFE, 0xBA, 0xBE, 0, 0, 0, 52, 0, 5,
    1, 0, 1, 67, 7, 0, 1, 1, 0, 1, 109, 19, 0, 3,
    0, 33, 0, 2, 0, 0, 0, 0, 0, 0, 0, 0, 0, 0]

def moduleEntries : Array Constant :=
  #[.unusable, .utf8 "C", .classRef 1, .utf8 "m", .module 3]

/-- Renames the module `m` to `n`. -/
def moduleExchange : Renaming :=
  { Renaming.identity with moduleName := fun name => if name = "m" then "n" else name }

/-- The module is renamed and nothing is counted. -/
theorem references_moduleEntries {d : Declarations} {p : Pool} (hp : p.Sound)
    (hentries : p.entries = moduleEntries) : ∃ q : Pool,
      q.entries = (moduleEntries.push (.utf8 "n")).setIfInBounds 4 (.module 5) ∧
      eachIndex (renameReference moduleExchange) p.slots ⟨d, p, {}, #[]⟩
        = .ok () ⟨d, q, {}, #[]⟩ := by
  have hslots : p.slots = 5 := congrArg Array.size hentries
  have hcount : p.count = 5 := congrArg UInt16.ofNat hslots
  have hmodule : p.get? 4 = some (.module 3) :=
    (Pool.get?_congr (p := ⟨moduleEntries, ∅⟩) hentries 4).trans rfl
  have hname : p.utf8 3 = .ok "m" :=
    (Pool.utf8_congr (p := ⟨moduleEntries, ∅⟩) hentries 3).trans rfl
  have hfresh : .utf8 "n" ∉ p.entries := by
    rw [hentries]
    decide +kernel
  have hroom : p.slots < Pool.maxSlots := by
    rw [hslots]
    decide
  have hbefore : ∀ c ∈ p.entries.toList.take 4, c.isReference = false := by
    rw [hentries]
    decide
  have hturn : renameReference moduleExchange 4 (⟨d, p, {}, #[]⟩ : Focus Declarations)
      = repointText 4 .module id 3 (fun name => .ok (moduleExchange.moduleName name))
        ⟨d, p, {}, #[]⟩ := by
    rw [renameReference, query_bind, hmodule]
  have hlast (j : UInt16) (hj : (4 : UInt16).toNat < j.toNat) : ¬ j.toNat < p.slots := by
    rw [hslots]
    exact Nat.not_lt.mpr hj
  obtain ⟨q, hq, hrun⟩ := references_of_fresh hp (by decide) hfresh hroom hmodule hname rfl rfl
    hbefore hturn fun _ _ j hj hlt => absurd hlt (hlast j hj)
  rw [hcount, hentries] at hq
  exact ⟨q, hq, hrun⟩

theorem rename_moduleFile : ∃ c c', decode moduleFile = .ok c ∧
    (c.rename moduleExchange).result = .ok c' ∧
    (c.rename moduleExchange).tally.isUnchanged = true ∧ c.pool.Refers 4 (.module "m") ∧
    c'.pool.entries ≠ c.pool.entries := by
  obtain ⟨p, hentries, hdecode⟩ : ∃ p : Pool, p.entries = moduleEntries ∧
      decode moduleFile = .ok (bare p) :=
    decode_of_beq (d := bare ⟨moduleEntries, ∅⟩) (by decide +kernel)
  obtain ⟨q, hq, hreferences⟩ :=
    references_moduleEntries (d := ⟨#[], #[], #[]⟩) (sound_of_decode hdecode) hentries
  have howner : p.className 2 = .ok "C" :=
    (Pool.className_congr (p := ⟨moduleEntries, ∅⟩) hentries 2).trans rfl
  have hclasses : ∀ c ∈ q.entries, c.isClassRef = true → c = .classRef 1 := by
    rw [hq]
    decide +kernel
  have hname : q.utf8 1 = .ok "C" := (Pool.utf8_congr (p := ⟨_, ∅⟩) hq 1).trans rfl
  have hrename := rename_bare howner hreferences hclasses hname (by decide +kernel)
  refine ⟨bare p, bare q, hdecode, ?_, ?_, ?_, ?_⟩
  · rw [hrename]
    rfl
  · rw [hrename]
    rfl
  · exact .module ((Pool.get?_congr (p := ⟨moduleEntries, ∅⟩) hentries 4).trans rfl)
      ((Pool.utf8_congr (p := ⟨moduleEntries, ∅⟩) hentries 3).trans rfl)
  · change q.entries ≠ p.entries
    rw [hq, hentries]
    decide +kernel

/-- The module alone is changed. -/
theorem rename_isUnchanged_moduleFile : ∃ c c', decode moduleFile = .ok c ∧
    (c.rename moduleExchange).result = .ok c' ∧ SameUpToModules c c' ∧ (c' == c) = false := by
  obtain ⟨c, c', hc, hc', hunchanged, hi, -⟩ := rename_moduleFile
  obtain ⟨htotal, hsame⟩ := rename_isUnchanged hc hc'
  refine ⟨c, c', hc, hc', htotal.mp hunchanged, Bool.eq_false_iff.mpr fun h => ?_⟩
  exact absurd ((hsame.mp h).2.module hi) (by decide)

/-- A class file may be changed though nothing is counted. -/
theorem not_rename_isUnchanged : ¬ ∀ (r : Renaming) (data : List UInt8) (c c' : ClassFile),
    decode data = .ok c → (c.rename r).result = .ok c' →
      ((c.rename r).tally.isUnchanged = true ↔ (c' == c) = true) := by
  intro hall
  obtain ⟨c, c', hc, hc', hunchanged, -, hne⟩ := rename_moduleFile
  exact hne (of_beq ((hall _ _ c c' hc hc').mp hunchanged)).2

end ClassFile

end Relabel
