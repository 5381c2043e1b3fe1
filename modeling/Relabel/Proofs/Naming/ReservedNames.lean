import Relabel.Naming.Environment
import Relabel.Proofs.Mapping.Join
import Relabel.Proofs.Renaming.Substitution

/-!
# Reserved names

Names that start with `<` are reserved for constructors and initializers. A declared method
keeps such a name, whatever the renaming says. References to methods and enclosing methods
are renamed without a look at the name, so they keep it only if the environment does.
-/

namespace Relabel.ClassFile

variable {data : List UInt8} {c c' : ClassFile} {r : Renaming}

/-- Reserved method names are the same behind a renaming, wherever they stand. -/
structure ReservedNamesKept (c c' : ClassFile) : Prop where
  methods : ∀ ⦃j : Nat⦄ ⦃m : Member⦄ ⦃name descriptor : String⦄, c.methods[j]? = some m →
    c.pool.Declares m name descriptor → name.startsWith "<" = true →
    ∃ m' descriptor', c'.methods[j]? = some m' ∧ c'.pool.Declares m' name descriptor'
  references : ∀ ⦃i : UInt16⦄ ⦃kind : RefKind⦄ ⦃owner name descriptor : String⦄, kind ≠ .field →
    c.pool.Refers i (.memberRef kind owner name descriptor) → name.startsWith "<" = true →
    ∃ owner' descriptor', c'.pool.Refers i (.memberRef kind owner' name descriptor')
  enclosing : ∀ ⦃k : Nat⦄ ⦃a : Attribute⦄ ⦃owner name descriptor : String⦄,
    c.attributes[k]? = some a → c.pool.Encloses a owner name descriptor →
    name.startsWith "<" = true → ∃ a' owner' descriptor', c'.attributes[k]? = some a' ∧
      c'.pool.Encloses a' owner' name descriptor'

/-- The class file calls the method or is enclosed by it. -/
inductive UsesMethod (c : ClassFile) (owner name descriptor : String) : Prop
  | reference {i : UInt16} {kind : RefKind} (hkind : kind ≠ .field)
      (refers : c.pool.Refers i (.memberRef kind owner name descriptor))
  | enclosing {k : Nat} {a : Attribute} (position : c.attributes[k]? = some a)
      (encloses : c.pool.Encloses a owner name descriptor)

section

variable (hc : c.pool.Sound) (h : (c.rename r).result = .ok c') {owner name descriptor : String}
include hc h

theorem method_kept {j : Nat} {m : Member} (hm : c.methods[j]? = some m)
    (hdeclares : c.pool.Declares m name descriptor) (hreserved : name.startsWith "<" = true) :
    ∃ m' descriptor', c'.methods[j]? = some m' ∧ c'.pool.Declares m' name descriptor' := by
  obtain ⟨_, -, -, renames⟩ := rename_eq_ok hc h
  obtain ⟨m', hm', hrenamed⟩ := renames.methods.getElem? hm
  obtain ⟨descriptor', -, hdeclares'⟩ := hrenamed hdeclares
  have hname (owner) : Edit.declaredName r .ofMethod owner name descriptor = name :=
    if_pos hreserved
  rw [hname] at hdeclares'
  exact ⟨m', descriptor', hm', hdeclares'⟩

theorem reference_kept_iff {i : UInt16} {kind : RefKind} (hkind : kind ≠ .field)
    (hi : c.pool.Refers i (.memberRef kind owner name descriptor)) :
    (∃ owner' descriptor', c'.pool.Refers i (.memberRef kind owner' name descriptor')) ↔
      r.methodName owner name descriptor = name := by
  obtain ⟨_, -, -, renames⟩ := rename_eq_ok hc h
  obtain ⟨t', ht', hi'⟩ := renames.refers hi
  obtain ⟨owner', descriptor', -, -, rfl⟩ := Referent.rename_memberRef_eq_ok.mp ht'
  rw [Referent.memberName_of_ne_field hkind] at hi'
  constructor
  · rintro ⟨_, _, hkept⟩
    exact (Referent.memberRef.inj (hi'.unique hkept)).2.2.1
  · intro hname
    rw [hname] at hi'
    exact ⟨owner', descriptor', hi'⟩

theorem enclosing_kept_iff {k : Nat} {a : Attribute} (ha : c.attributes[k]? = some a)
    (hencloses : c.pool.Encloses a owner name descriptor) :
    (∃ a' owner' descriptor', c'.attributes[k]? = some a' ∧
      c'.pool.Encloses a' owner' name descriptor') ↔
      r.methodName owner name descriptor = name := by
  obtain ⟨_, -, -, renames⟩ := rename_eq_ok hc h
  obtain ⟨a', ha', hrenamed⟩ := renames.attributes.getElem? ha
  obtain ⟨owner', descriptor', -, -, hencloses'⟩ := hrenamed hencloses
  constructor
  · rintro ⟨_, _, _, hb, hkept⟩
    cases ha'.symm.trans hb
    exact (hencloses'.unique hkept).2.1
  · intro hname
    rw [hname] at hencloses'
    exact ⟨a', owner', descriptor', ha', hencloses'⟩

end

/-- A declared method keeps its reserved name in any case. All reserved names are kept exactly if
the environment has no other name for those that are used. -/
theorem reservedNamesKept_iff {e : Environment} {channels : Channels}
    (hdecode : decode data = .ok c)
    (h : (c.rename (e.toRenaming channels)).result = .ok c') :
    ReservedNamesKept c c' ↔ ∀ ⦃owner name descriptor⦄, c.UsesMethod owner name descriptor →
      name.startsWith "<" = true → e.newNameIn channels .ofMethod owner name = name := by
  have hc := sound_of_decode hdecode
  constructor
  · rintro ⟨-, hreferences, henclosing⟩ owner name descriptor huses hreserved
    obtain ⟨hkind, hi⟩ | ⟨ha, hencloses⟩ := huses
    · exact (reference_kept_iff hc h hkind hi).mp (hreferences hkind hi hreserved)
    · exact (enclosing_kept_iff hc h ha hencloses).mp (henclosing ha hencloses hreserved)
  · intro hnames
    refine ⟨?_, ?_, ?_⟩
    · intro j m name descriptor hm hdeclares hreserved
      exact method_kept hc h hm hdeclares hreserved
    · intro i kind owner name descriptor hkind hi hreserved
      exact (reference_kept_iff hc h hkind hi).mpr (hnames (.reference hkind hi) hreserved)
    · intro k a owner name descriptor ha hencloses hreserved
      exact (enclosing_kept_iff hc h ha hencloses).mpr
        (hnames (.enclosing ha hencloses) hreserved)

/-! ## An environment that names constructors -/

/-- Renames the class `A` to `C`, and gives constructors called on it the name `x`. -/
def constructorNaming : Environment :=
  ⟨{ Config.production with scope := ⟨["A"]⟩ },
    .ofList [(.ofClass, "A", "C"), (.ofMethod, "<init>", "x")], false⟩

/-- What `constructorNaming` does, in a form that can be evaluated. -/
def constructorRenaming : Renaming :=
  { Renaming.identity with
    className := fun name => if name = "A" then "C" else name
    methodName := fun owner name _ =>
      if Scope.covers ⟨["A"]⟩ owner ∧ name = "<init>" then "x" else name }

theorem toRenaming_constructorNaming (channels : Channels) :
    constructorNaming.toRenaming channels = constructorRenaming := by
  have hname (kind : SymbolKind) (name : String) : constructorNaming.newName channels kind name
      = if kind = .ofClass ∧ name = "A" then "C"
        else if kind = .ofMethod ∧ name = "<init>" then "x" else name := by
    have hempty : Mapping.Table.empty.get? kind name = none := by
      cases kind <;> exact Std.HashMap.getElem?_empty
    rw [Environment.newName]
    simp only [constructorNaming, Config.production, Mapping.Table.ofList, List.foldl,
      Mapping.Table.get?_insert, hempty]
    grind
  have hscope : constructorNaming.config.scope = ⟨["A"]⟩ := rfl
  have hcovers : Scope.covers ⟨["A"]⟩ "A" = true := by decide +kernel
  simp only [Environment.toRenaming, constructorRenaming, Renaming.identity, Environment.newNameIn,
    hname, hscope]
  congr 1
  · funext name
    grind
  · funext owner name _
    grind
  · funext owner name _
    simp

/-- A class `A` below `B`, with a constructor that may call the one of `B`. -/
def derivedFile : List UInt8 :=
  [0xCA, 0xFE, 0xBA, 0xBE, 0, 0, 0, 52, 0, 9,
    1, 0, 1, 65, 7, 0, 1, 1, 0, 1, 66, 7, 0, 3, 1, 0, 6, 60, 105, 110, 105, 116, 62,
    1, 0, 3, 40, 41, 86, 12, 0, 5, 0, 6, 10, 0, 4, 0, 7, 0, 33, 0, 2, 0, 4, 0, 0, 0, 0,
    0, 1, 0, 1, 0, 5, 0, 6, 0, 0, 0, 0]

/-- The class is renamed. Its own constructor is reserved, and that of `B` is out of the scope. -/
theorem reservedNamesKept_derivedFile : ∃ c c', decode derivedFile = .ok c ∧
    (c.rename (constructorNaming.toRenaming .empty)).result = .ok c' ∧
    c'.pool.Refers 2 (.classRef "C") ∧
    c'.pool.Refers 8 (.memberRef .method "B" "<init>" "()V") ∧ ReservedNamesKept c c' := by
  obtain ⟨c, hc, hchecks⟩ := eq_ok_of_any (decode derivedFile) (fun c =>
    c.isPlain && c.attributes.isEmpty
      && c.pool.entries.toList.all (fun k => !k.isReference || k == .memberRef .method 4 7)
      && decide (c.pool.className 4 = .ok "B")
      && decide (c.pool.referent 2 = .ok (some (.classRef "A")))
      && decide (c.pool.referent 8 = .ok (some (.memberRef .method "B" "<init>" "()V"))))
    (by decide +kernel)
  simp only [Bool.and_eq_true, decide_eq_true_eq, List.all_eq_true, Array.mem_toList_iff] at hchecks
  obtain ⟨⟨⟨⟨⟨hplain, hattributes⟩, hreferences⟩, howner⟩, hclass⟩, hcall⟩ := hchecks
  obtain ⟨c', hc'⟩ := rename_of_isPlain (constructorNaming.toRenaming .empty) (sound_of_decode hc)
    hplain
  obtain ⟨_, -, -, renames⟩ := rename_eq_ok (sound_of_decode hc) hc'
  have hnew {i t t'} (h : c.pool.referent i = .ok (some t))
      (ht : t.rename constructorRenaming = .ok t') : c'.pool.Refers i t' := by
    obtain ⟨_, ht', hi⟩ := renames.refers (Pool.refers_iff.mpr h)
    rw [toRenaming_constructorNaming] at ht'
    cases ht.symm.trans ht'
    exact hi
  refine ⟨c, c', hc, hc', hnew hclass (by decide +kernel), hnew hcall (by decide +kernel), ?_⟩
  refine (reservedNamesKept_iff hc hc').mpr ?_
  intro owner name descriptor huses _
  have houtside : constructorNaming.config.scope.covers "B" = false := by decide +kernel
  obtain ⟨_, hcalled⟩ | ⟨hposition, _⟩ := huses
  · cases hcalled with
    | memberRef entry class_name _ =>
      have hentry := hreferences _ (Array.mem_of_getElem? (Pool.get?_eq_some.mp entry).1)
      obtain ⟨-, rfl, -⟩ := Constant.memberRef.inj (beq_iff_eq.mp hentry)
      cases howner.symm.trans class_name
      exact if_neg (by simp [houtside])
  · simp [Array.isEmpty_iff.mp hattributes] at hposition

/-- A class `A` with a constructor and a call of it. -/
def constructorFile : List UInt8 :=
  [0xCA, 0xFE, 0xBA, 0xBE, 0, 0, 0, 52, 0, 7,
    1, 0, 1, 65, 7, 0, 1, 1, 0, 6, 60, 105, 110, 105, 116, 62, 1, 0, 3, 40, 41, 86,
    12, 0, 3, 0, 4, 10, 0, 2, 0, 5, 0, 33, 0, 2, 0, 0, 0, 0, 0, 0,
    0, 1, 0, 1, 0, 3, 0, 4, 0, 0, 0, 0]

/-- A table may name constructors, and calls then get a name that no constructor has. -/
theorem not_reservedNamesKept : ¬ ∀ (e : Environment) (channels : Channels) (data : List UInt8)
    (c c' : ClassFile), decode data = .ok c →
    (c.rename (e.toRenaming channels)).result = .ok c' → ReservedNamesKept c c' := by
  intro hall
  obtain ⟨c, hc, hchecks⟩ := eq_ok_of_any (decode constructorFile) (fun c =>
    c.isPlain && decide (c.pool.referent 6 = .ok (some (.memberRef .method "A" "<init>" "()V"))))
    (by decide +kernel)
  simp only [Bool.and_eq_true, decide_eq_true_eq] at hchecks
  obtain ⟨hplain, hcall⟩ := hchecks
  let e : Environment :=
    ⟨{ Config.production with scope := ⟨["A"]⟩ }, .ofList [(.ofMethod, "<init>", "x")], false⟩
  obtain ⟨c', hc'⟩ := rename_of_isPlain (e.toRenaming .empty) (sound_of_decode hc) hplain
  have hcall := Pool.refers_iff.mpr hcall
  have hkind : RefKind.method ≠ .field := nofun
  have hreserved : "<init>".startsWith "<" = true := by decide +kernel
  have hkept := (hall e .empty constructorFile c c' hc hc').references hkind hcall hreserved
  have hname : e.newNameIn .empty .ofMethod "A" "<init>" = "<init>" :=
    (reference_kept_iff (sound_of_decode hc) hc' hkind hcall).mp hkept
  have hnew : e.newNameIn .empty .ofMethod "A" "<init>" = "x" := by
    have hcovers : e.config.scope.covers "A" = true := by decide +kernel
    rw [Environment.newNameIn, if_pos hcovers]
    simp [Environment.newName, e, Config.production, Mapping.Table.ofList, Mapping.Table.get?,
      Mapping.Table.insert, Mapping.Table.entries]
  rw [hnew] at hname
  revert hname
  decide

end Relabel.ClassFile
