import Relabel.ClassFile.Builder
import Relabel.Proofs.ClassFile.Written

/-!
# Class files that are built step by step

A class file is built on a workbench, where made attributes lie until they are put in their
places. Every step keeps the workbench well formed, whether it succeeds or finds the pool
full: names are interned before anything points to them, and what was interned stays. So
what was built can be read back from its stored form.
-/

namespace Relabel

namespace Pool

variable {p q : Pool} {i : UInt16} {c : Constant}

/-- Constants that can be stored were added, and nothing else was changed. -/
structure Builds (p q : Pool) : Prop where
  grows : Grows p q
  inRows : p.InRows → q.InRows

instance : IsPreorder Pool Builds where
  refl p := ⟨Frame.refl p, id⟩
  trans _ _ _ h h' := ⟨h.grows.trans h'.grows, h'.inRows ∘ h.inRows⟩

theorem within_intern_builds (hc : c.isStored = true) : Within Builds (intern c) :=
  within_intern_of_push <| within_push_of_append fun _ hroom =>
    ⟨grows_append hroom, fun hp => hp.append hc⟩

theorem within_internUtf8_builds (text : String) : Within Builds (internUtf8 text) :=
  within_intern_builds rfl

/-- What interning adds can be stored. -/
theorem within_intern_shared_builds (hc : c.isShared = true) : Within Builds (intern c) :=
  within_intern_builds (by cases c <;> first | rfl | cases hc)

theorem within_internClass_builds (name : String) : Within Builds (internClass name) :=
  within_internClass_of_intern (fun _ => within_intern_shared_builds) name

theorem internClass_of_fresh {name : String} (hp : p.Sound)
    (hroom : p.slots + 2 ≤ maxSlots) (hname : .utf8 name ∉ p.entries)
    (hclass : .classRef p.count ∉ (p.append (.utf8 name)).entries) :
    internClass name p = .ok (p.append (.utf8 name)).count
      ((p.append (.utf8 name)).append (.classRef p.count)) := by
  have hslots : (p.append (.utf8 name)).slots = p.slots + 1 := slots_append p (.utf8 name)
  have hroom₁ : p.slots + (Constant.utf8 name).width ≤ maxSlots := Nat.le_of_succ_le hroom
  have htext : internUtf8 name p = .ok p.count (p.append (.utf8 name)) :=
    intern_of_fresh hp hname hroom₁
  rw [internClass, bind_of_ok htext]
  exact intern_of_fresh (hp.append hroom₁) hclass (hslots ▸ hroom)

end Pool

namespace ClassFile

/-! ## Names in a growing pool -/

section

variable {c : ClassFile} {q : Pool} (hq : Pool.Grows c.pool q)
include hq

theorem attributeName_grows {a : Attribute} (h : ∃ name, c.attributeName a = .ok name) :
    ∃ name, q.utf8 a.name = .ok name := by
  obtain ⟨name, hname⟩ := h
  exact ⟨name, hq.utf8 hname⟩

theorem HasMemberNames.grows {m : Member} (h : c.HasMemberNames m) :
    HasMemberNames { c with pool := q } m := by
  obtain ⟨⟨name, hname⟩, ⟨descriptor, hdescriptor⟩, hattributes⟩ := h
  exact ⟨⟨name, hq.utf8 hname⟩, ⟨descriptor, hq.utf8 hdescriptor⟩,
    fun a ha => attributeName_grows hq (hattributes a ha)⟩

theorem HasNames.grows (h : c.HasNames) : HasNames { c with pool := q } := by
  have hclass {i : UInt16} (hi : ∃ name, c.pool.className i = .ok name) :
      ∃ name, q.className i = .ok name := by
    obtain ⟨name, hname⟩ := hi
    exact ⟨name, hq.className hname⟩
  refine ⟨hclass h.name, ?_, ?_, fun m hm => (h.fields m hm).grows hq,
    fun m hm => (h.methods m hm).grows hq, fun a ha => attributeName_grows hq (h.attributes a ha)⟩
  · rw [exists_superName_iff]
    exact fun hzero => hclass (exists_superName_iff.mp h.superName hzero)
  · rw [ClassFile.interfaceNames, exists_mapM_eq_ok]
    exact fun i hi => hclass (exists_mapM_eq_ok.mp h.interfaceNames i hi)

end

/-! ## Steps on a class file -/

section

variable {β : Type} {c c' : ClassFile} {e : Pool.Edit β} {b : β} {q : Pool}

theorem onPool_of_ok (h : e c.pool = .ok b q) : onPool e c = .ok b { c with pool := q } := by
  simp only [onPool, h]

theorem onPool_of_error {fault : Fault} (h : e c.pool = .error fault q) :
    onPool e c = .error fault { c with pool := q } := by
  simp only [onPool, h]

theorem onPool_eq_ok (h : onPool e c = .ok b c') :
    ∃ q, e c.pool = .ok b q ∧ c' = { c with pool := q } := by
  cases hrun : e c.pool with
  | ok b' q =>
    cases (onPool_of_ok hrun).symm.trans h
    exact ⟨q, rfl, rfl⟩
  | error fault q => cases (onPool_of_error hrun).symm.trans h

end

/-- A class file that can be read back from its stored form. -/
structure WellFormed (c : ClassFile) : Prop where
  sound : c.pool.Sound
  inRows : c.pool.InRows
  hasNames : c.HasNames

/-- The pool has grown, and the class file is well formed. -/
structure Extends (c c' : ClassFile) : Prop where
  grows : Pool.Grows c.pool c'.pool
  wellFormed : c'.WellFormed

theorem Extends.trans {c c' c'' : ClassFile} (h : Extends c c') (h' : Extends c' c'') :
    Extends c c'' := ⟨h.grows.trans h'.grows, h'.wellFormed⟩

namespace WellFormed

variable {c : ClassFile} (hc : c.WellFormed)
include hc

theorem builds {q : Pool} (h : Pool.Builds c.pool q) : Extends c { c with pool := q } :=
  ⟨h.grows, h.grows.sound hc.sound, h.inRows hc.inRows, hc.hasNames.grows h.grows⟩

/-- A step that runs on the pool first goes on from a well-formed class file. -/
theorem onPool_bind {β γ : Type} {e : Pool.Edit β} {k : β → Edit γ}
    (he : Within Pool.Builds e)
    (hk : ∀ ⦃b q⦄, e c.pool = .ok b q → WellFormed { c with pool := q } →
      Extends { c with pool := q } (stateOf (k b { c with pool := q }))) :
    Extends c (stateOf ((onPool e >>= k) c)) := by
  cases hrun : e c.pool with
  | ok b q =>
    have hbuilds := hc.builds (he.ok hrun)
    rw [bind_of_ok (onPool_of_ok hrun)]
    exact hbuilds.trans (hk hrun hbuilds.wellFormed)
  | error fault q =>
    rw [bind_of_error (onPool_of_error hrun)]
    exact hc.builds (he.error hrun)

/-- The lists may be replaced by others whose items have names in the same pool. -/
theorem replace {interfaces : Array UInt16} {fields methods : Array Member}
    {attributes : Array Attribute}
    (hinterfaces : ∀ i ∈ interfaces, i ∈ c.interfaces ∨ ∃ name, c.pool.className i = .ok name)
    (hfields : ∀ m ∈ fields, c.HasMemberNames m) (hmethods : ∀ m ∈ methods, c.HasMemberNames m)
    (hattributes : ∀ a ∈ attributes, ∃ name, c.attributeName a = .ok name) :
    Extends c { c with interfaces, fields, methods, attributes } := by
  obtain ⟨hsound, hrows, hnames⟩ := hc
  have hmember {m : Member} (hm : c.HasMemberNames m) :
      HasMemberNames { c with interfaces, fields, methods, attributes } m :=
    ⟨hm.name, hm.descriptor, hm.attributes⟩
  refine ⟨Pool.Frame.refl _, hsound, hrows, hnames.name, hnames.superName, ?_,
    fun m hm => hmember (hfields m hm), fun m hm => hmember (hmethods m hm), hattributes⟩
  have hold := hnames.interfaceNames
  rw [interfaceNames, exists_mapM_eq_ok] at hold ⊢
  intro i hi
  rcases hinterfaces i (Array.mem_toList_iff.mp hi) with hi | hi
  · exact hold i (Array.mem_toList_iff.mpr hi)
  · exact hi

/-! Each step of a builder. -/

theorem addInterface (name : String) : Extends c (stateOf (addInterface name c)) := by
  refine hc.onPool_bind (Pool.within_internClass_builds name) fun i q hrun hq => ?_
  have hi := Pool.className_of_internClass hc.sound hrun
  have hnames := hq.hasNames
  refine hq.replace ?_ hnames.fields hnames.methods hnames.attributes
  intro j hj
  obtain hj | rfl := Array.mem_push.mp hj
  · exact .inl hj
  · exact .inr ⟨name, hi⟩

theorem addMember (target : Section) (access : UInt16) (name descriptor : String) :
    Extends c (stateOf (addMember target access name descriptor c)) := by
  refine hc.onPool_bind (Pool.within_internUtf8_builds name) fun i p hi hp => ?_
  refine hp.onPool_bind (Pool.within_internUtf8_builds descriptor) fun j q hj hq => ?_
  have hname : p.utf8 i = .ok name := Pool.utf8_of_internUtf8 hc.sound hi
  have hname : q.utf8 i = .ok name := ((Pool.within_internUtf8 descriptor).ok hj).utf8 hname
  have hdescriptor : q.utf8 j = .ok descriptor := Pool.utf8_of_internUtf8 hp.sound hj
  have hmember : HasMemberNames { c with pool := q } ⟨access, i, j, #[]⟩ :=
    ⟨⟨name, hname⟩, ⟨descriptor, hdescriptor⟩, fun _ h => absurd h (Array.not_mem_empty _)⟩
  have hmembers {ms : Array Member} (hms : ∀ m ∈ ms, HasMemberNames { c with pool := q } m) :
      ∀ m ∈ ms.push ⟨access, i, j, #[]⟩, HasMemberNames { c with pool := q } m := by
    intro m hm
    obtain hm | rfl := Array.mem_push.mp hm
    · exact hms m hm
    · exact hmember
  have hnames := hq.hasNames
  cases target with
  | fields =>
    exact hq.replace (fun _ => .inl) (hmembers hnames.fields) hnames.methods hnames.attributes
  | methods =>
    exact hq.replace (fun _ => .inl) hnames.fields (hmembers hnames.methods) hnames.attributes

theorem makeAttribute (name : String) (payload : List UInt8) :
    Extends c (stateOf (makeAttribute name payload c)) :=
  hc.onPool_bind (Pool.within_internUtf8_builds name) fun _ q _ hq => ⟨Pool.Frame.refl q, hq⟩

theorem makeSignature (signature : String) :
    Extends c (stateOf (makeSignature signature c)) :=
  hc.onPool_bind (Pool.within_internUtf8_builds signature) fun _ _ _ hq => hq.makeAttribute _ _

/-- An attribute with a name can be put anywhere. -/
theorem attach {a : Attribute} (ha : ∃ name, c.attributeName a = .ok name) (place : Place) :
    Extends c (attach place a c) := by
  have hpush {as : Array Attribute} (has : ∀ a ∈ as, ∃ name, c.attributeName a = .ok name) :
      ∀ b ∈ as.push a, ∃ name, c.attributeName b = .ok name := by
    intro b hb
    obtain hb | rfl := Array.mem_push.mp hb
    · exact has b hb
    · exact ha
  have hmembers {ms : Array Member} (hms : ∀ m ∈ ms, c.HasMemberNames m) (n : Nat) :
      ∀ m ∈ ms.modify n (attachTo a), c.HasMemberNames m := by
    intro m hm
    obtain ⟨k, hk⟩ := Array.mem_iff_getElem?.mp hm
    rw [Array.getElem?_modify] at hk
    split at hk
    · obtain ⟨m', hm', rfl⟩ := Option.map_eq_some_iff.mp hk
      have hold := hms m' (Array.mem_of_getElem? hm')
      exact ⟨hold.name, hold.descriptor, hpush hold.attributes⟩
    · exact hms m (Array.mem_of_getElem? hk)
  have hnames := hc.hasNames
  cases place with
  | ofClass =>
    exact hc.replace (fun _ => .inl) hnames.fields hnames.methods (hpush hnames.attributes)
  | ofField n =>
    exact hc.replace (fun _ => .inl) (hmembers hnames.fields n) hnames.methods hnames.attributes
  | ofMethod n =>
    exact hc.replace (fun _ => .inl) hnames.fields (hmembers hnames.methods n) hnames.attributes

end WellFormed

/-! ## Made attributes -/

theorem attributeName_of_makeAttribute {c c' : ClassFile} {name : String} {payload : List UInt8}
    {a : Attribute} (hc : c.pool.Sound) (h : makeAttribute name payload c = .ok a c') :
    ∃ name, c'.attributeName a = .ok name := by
  obtain ⟨i, _, hi, h⟩ := bind_eq_ok.mp h
  obtain ⟨rfl, rfl⟩ := pure_eq_ok.mp h
  obtain ⟨q, hintern, rfl⟩ := onPool_eq_ok hi
  exact ⟨name, Pool.utf8_of_internUtf8 hc hintern⟩

theorem attributeName_of_makeSignature {c c' : ClassFile} {signature : String} {a : Attribute}
    (hc : c.pool.Sound) (h : makeSignature signature c = .ok a c') :
    ∃ name, c'.attributeName a = .ok name := by
  obtain ⟨i, _, hi, h⟩ := bind_eq_ok.mp h
  obtain ⟨q, hintern, rfl⟩ := onPool_eq_ok hi
  exact attributeName_of_makeAttribute (((Pool.within_internUtf8 signature).ok hintern).sound hc) h

/-! ## Building -/

/-- A name that is interned without a use for it yet. -/
inductive Interning where
  | utf8 (text : String)
  | classRef (name : String)
  | nameAndType (name descriptor : String)
  | memberRef (kind : RefKind) (owner name descriptor : String)

def Interning.run : Interning → Pool.Edit UInt16
  | .utf8 text => Pool.internUtf8 text
  | .classRef name => Pool.internClass name
  | .nameAndType name descriptor => Pool.internNameAndType name descriptor
  | .memberRef kind owner name descriptor => Pool.internMemberRef kind owner name descriptor

theorem Interning.within_run (i : Interning) : Within Pool.Builds i.run := by
  cases i with
  | utf8 text => exact Pool.within_internUtf8_builds text
  | classRef name => exact Pool.within_internClass_builds name
  | nameAndType name descriptor =>
    exact Pool.within_internNameAndType_of_intern (fun _ => Pool.within_intern_shared_builds) name
      descriptor
  | memberRef kind owner name descriptor =>
    exact Pool.within_internMemberRef_of_intern (fun _ => Pool.within_intern_shared_builds) kind
      owner name descriptor

/-- A class file and the attributes that were made for it. -/
structure Workbench where
  file : ClassFile
  made : Array Attribute

/-- One step of building. An attribute may be attached any number of times. -/
inductive Step where
  | intern (name : Interning)
  | addInterface (name : String)
  | addMember (target : Section) (access : UInt16) (name descriptor : String)
  | makeAttribute (name : String) (payload : List UInt8)
  | makeSignature (signature : String)
  | attach (place : Place) (position : Nat)

namespace Workbench

variable {β : Type} {w : Workbench}

/-- Run a step on the class file. -/
def onFile (e : Edit β) : EStateM Fault Workbench β := fun w =>
  match e w.file with
  | .ok b file => .ok b { w with file }
  | .error fault file => .error fault { w with file }

/-- Make an attribute and keep it. -/
def make (e : Edit Attribute) : EStateM Fault Workbench Unit := do
  let a ← onFile e
  modify fun w => { w with made := w.made.push a }

/-- Put the attribute at a position of those that were made in its place, if it is there. -/
def attach (place : Place) (position : Nat) (w : Workbench) : Workbench :=
  match w.made[position]? with
  | some a => { w with file := w.file.attach place a }
  | none => w

end Workbench

open Workbench in
def Step.run : Step → EStateM Fault Workbench Unit
  | .intern name => discard (onFile (onPool name.run))
  | .addInterface name => onFile (ClassFile.addInterface name)
  | .addMember target access name descriptor =>
    discard (onFile (ClassFile.addMember target access name descriptor))
  | .makeAttribute name payload => make (ClassFile.makeAttribute name payload)
  | .makeSignature signature => make (ClassFile.makeSignature signature)
  | .attach place position => modify (Workbench.attach place position)

/-- Take the steps one after the other. A step that fails leaves what it has done. -/
def build (steps : List Step) (w : Workbench) : Workbench :=
  steps.foldl (fun w step => stateOf (step.run w)) w

namespace Workbench

variable {β : Type} {w : Workbench}

/-- The class file is well formed, and what was made for it has names. -/
structure WellFormed (w : Workbench) : Prop where
  file : w.file.WellFormed
  made : ∀ a ∈ w.made, ∃ name, w.file.attributeName a = .ok name

/-- A class file that extends takes its made attributes along. -/
theorem WellFormed.extends (hw : w.WellFormed) {c : ClassFile} (h : Extends w.file c) :
    WellFormed { w with file := c } :=
  ⟨h.wellFormed, fun a ha => attributeName_grows h.grows (hw.made a ha)⟩

theorem stateOf_onFile (e : Edit β) :
    stateOf (onFile e w) = { w with file := stateOf (e w.file) } := by
  simp only [onFile]
  split <;> simp_all [stateOf]

theorem stateOf_discard {γ : Type} (e : EStateM Fault Workbench γ) :
    stateOf ((discard e : EStateM Fault Workbench PUnit) w) = stateOf (e w) := by
  change stateOf ((e >>= fun _ => pure PUnit.unit) w) = _
  cases h : e w with
  | ok b w' => rw [bind_of_ok h]; rfl
  | error fault w' => rw [bind_of_error h]; rfl

theorem WellFormed.make (hw : w.WellFormed) {e : Edit Attribute}
    (hextends : Extends w.file (stateOf (e w.file)))
    (hname : ∀ ⦃a c⦄, e w.file = .ok a c → ∃ name, c.attributeName a = .ok name) :
    (stateOf (make e w)).WellFormed := by
  unfold Workbench.make
  cases h : e w.file with
  | ok a c =>
    rw [h] at hextends
    have hfile : onFile e w = .ok a { w with file := c } := by simp only [onFile, h]
    rw [bind_of_ok hfile]
    refine ⟨hextends.wellFormed, fun b hb => ?_⟩
    obtain hb | rfl := Array.mem_push.mp hb
    · exact (hw.extends hextends).made b hb
    · exact hname h
  | error fault c =>
    rw [h] at hextends
    have hfile : onFile e w = .error fault { w with file := c } := by simp only [onFile, h]
    rw [bind_of_error hfile]
    exact hw.extends hextends

/-- Every step keeps the workbench well formed, whether it succeeds or fails. -/
theorem WellFormed.step (hw : w.WellFormed) (step : Step) : (stateOf (step.run w)).WellFormed := by
  cases step with
  | intern name =>
    rw [Step.run, stateOf_discard, stateOf_onFile]
    refine hw.extends ?_
    have h := hw.file.onPool_bind (k := pure) name.within_run fun _ q _ hq =>
      ⟨Pool.Frame.refl q, hq⟩
    rwa [bind_pure] at h
  | addInterface name =>
    rw [Step.run, stateOf_onFile]
    exact hw.extends (hw.file.addInterface name)
  | addMember target access name descriptor =>
    rw [Step.run, stateOf_discard, stateOf_onFile]
    exact hw.extends (hw.file.addMember target access name descriptor)
  | makeAttribute name payload =>
    exact hw.make (hw.file.makeAttribute name payload)
      fun _ _ => attributeName_of_makeAttribute hw.file.sound
  | makeSignature signature =>
    exact hw.make (hw.file.makeSignature signature)
      fun _ _ => attributeName_of_makeSignature hw.file.sound
  | attach place position =>
    change (Workbench.attach place position w).WellFormed
    unfold Workbench.attach
    split
    case h_1 a ha => exact hw.extends (hw.file.attach (hw.made a (Array.mem_of_getElem? ha)) place)
    case h_2 => exact hw

theorem WellFormed.build (hw : w.WellFormed) (steps : List Step) : (build steps w).WellFormed := by
  induction steps generalizing w with
  | nil => exact hw
  | cons step steps ih => exact ih (hw.step step)

end Workbench

/-! ## Reading back what was built -/

/-- A new class file has the names that were interned for it, and no lists yet. -/
theorem create_eq_ok {name : String} {superName : Option String} {c : ClassFile}
    (h : create name superName = .ok c) : ∃ i j p q, Pool.internClass name Pool.empty = .ok i p ∧
      (j = 0 ∧ q = p ∨ ∃ superName, Pool.internClass superName p = .ok j q) ∧
      c = ⟨0, 52, q, publicSuper, i, j, #[], #[], #[], #[]⟩ := by
  unfold create at h
  cases superName with
  | none =>
    dsimp only at h
    split at h
    case h_2 => cases h
    case h_1 hrun =>
      cases h
      obtain ⟨i, p, hthis, hrun⟩ := bind_eq_ok.mp hrun
      cases hrun
      exact ⟨_, _, _, _, hthis, .inl ⟨rfl, rfl⟩, rfl⟩
  | some superName =>
    dsimp only at h
    split at h
    case h_2 => cases h
    case h_1 hrun =>
      cases h
      obtain ⟨i, p, hthis, hrun⟩ := bind_eq_ok.mp hrun
      obtain ⟨j, q, hsuper, hrun⟩ := bind_eq_ok.mp hrun
      cases hrun
      exact ⟨_, _, _, _, hthis, .inr ⟨_, hsuper⟩, rfl⟩

theorem wellFormed_of_create {name : String} {superName : Option String} {c : ClassFile}
    (h : create name superName = .ok c) : c.WellFormed := by
  obtain ⟨i, j, p, q, hthis, hsuper, rfl⟩ := create_eq_ok h
  have hp := (Pool.within_internClass_builds name).ok hthis
  have hname := Pool.className_of_internClass Pool.sound_empty hthis
  have hsound := hp.grows.sound Pool.sound_empty
  have hrows := hp.inRows Pool.inRows_empty
  have empty {α : Type} {P : α → Prop} : ∀ x ∈ (#[] : Array α), P x :=
    fun _ h => absurd h (Array.not_mem_empty _)
  rcases hsuper with ⟨rfl, rfl⟩ | ⟨superName, hsuper⟩
  · exact ⟨hsound, hrows, ⟨name, hname⟩, ⟨none, rfl⟩, ⟨[], rfl⟩, empty, empty, empty⟩
  · have hq := (Pool.within_internClass_builds superName).ok hsuper
    have hnamed : ∃ name, q.className j = .ok name :=
      ⟨superName, Pool.className_of_internClass hsound hsuper⟩
    exact ⟨hq.grows.sound hsound, hq.inRows hrows, ⟨name, hq.grows.className hname⟩,
      exists_superName_iff.mpr fun _ => hnamed, ⟨[], rfl⟩, empty, empty, empty⟩

/-- Decoding undoes encoding on what was built: the class file read back is equal to it. -/
theorem decode_of_build {name : String} {superName : Option String} {c : ClassFile}
    {steps : List Step} {bytes : List UInt8} (hcreate : create name superName = .ok c)
    (hencode : (build steps ⟨c, #[]⟩).file.encode = .ok bytes) :
    ∃ v, decode bytes = .ok v ∧ (v == (build steps ⟨c, #[]⟩).file) = true := by
  have hstart : Workbench.WellFormed ⟨c, #[]⟩ :=
    ⟨wellFormed_of_create hcreate, fun _ h => absurd h (Array.not_mem_empty _)⟩
  obtain ⟨hsound, hrows, hnames⟩ := (hstart.build steps).file
  obtain ⟨q, hentries, hdecode⟩ := decode_of_encode hsound hrows hnames hencode
  exact ⟨_, hdecode, beq_of_entries hentries⟩

/-- A generic class with one interface. -/
def genericSteps : List Step :=
  [.addInterface "I", .makeSignature "LA;", .attach .ofClass 0]

def genericFile : List UInt8 :=
  [0xCA, 0xFE, 0xBA, 0xBE, 0, 0, 0, 52, 0, 7,
    1, 0, 1, 65, 7, 0, 1, 1, 0, 1, 73, 7, 0, 3, 1, 0, 3, 76, 65, 59,
    1, 0, 9, 83, 105, 103, 110, 97, 116, 117, 114, 101,
    0, 33, 0, 2, 0, 0, 0, 1, 0, 4, 0, 0, 0, 0, 0, 1, 0, 6, 0, 0, 0, 2, 0, 5]

theorem build_genericSteps {c : ClassFile} {p q s : Pool} {i j k : UInt16}
    (hinterface : Pool.internClass "I" c.pool = .ok i p)
    (hsignature : Pool.internUtf8 "LA;" p = .ok j q)
    (hname : Pool.internUtf8 AttributeName.signature q = .ok k s) :
    (build genericSteps ⟨c, #[]⟩).file = { c with
      pool := s, interfaces := c.interfaces.push i,
      attributes := c.attributes.push ⟨k, Word.bytes j⟩ } := by
  let c₁ : ClassFile := { c with pool := p, interfaces := c.interfaces.push i }
  have hadd : addInterface "I" c = .ok () c₁ := by
    rw [addInterface, bind_of_ok (onPool_of_ok hinterface)]
    rfl
  have hmake : makeSignature "LA;" c₁ = .ok ⟨k, Word.bytes j⟩ { c₁ with pool := s } := by
    rw [makeSignature, bind_of_ok (onPool_of_ok hsignature), makeAttribute,
      bind_of_ok (onPool_of_ok hname)]
    rfl
  have hkeep : (Step.makeSignature "LA;").run ⟨c₁, #[]⟩
      = .ok () ⟨{ c₁ with pool := s }, #[⟨k, Word.bytes j⟩]⟩ := by
    have hfile : Workbench.onFile (makeSignature "LA;") ⟨c₁, #[]⟩
        = .ok ⟨k, Word.bytes j⟩ ⟨{ c₁ with pool := s }, #[]⟩ := by
      simp only [Workbench.onFile, hmake]
    rw [Step.run, Workbench.make, bind_of_ok hfile]
    rfl
  have hfirst : (Step.addInterface "I").run ⟨c, #[]⟩ = .ok () ⟨c₁, #[]⟩ := by
    simp only [Step.run, Workbench.onFile, hadd]
  simp only [genericSteps, build, List.foldl, hfirst, hkeep, stateOf]
  rfl

theorem decode_of_build_genericSteps : ∃ c, create "A" none = .ok c ∧
    (build genericSteps ⟨c, #[]⟩).file.encode = .ok genericFile ∧
    ∃ v, decode genericFile = .ok v ∧ (v == (build genericSteps ⟨c, #[]⟩).file) = true := by
  let p₁ : Pool := (Pool.empty.append (.utf8 "A")).append (.classRef 1)
  let p₂ : Pool := (p₁.append (.utf8 "I")).append (.classRef 3)
  let p₃ : Pool := p₂.append (.utf8 "LA;")
  have hclass : Pool.internClass "A" Pool.empty = .ok 2 p₁ :=
    Pool.internClass_of_fresh Pool.sound_empty (by decide) (by decide +kernel) (by decide +kernel)
  have hp₁ := ((Pool.within_internClass_builds _).ok hclass).grows.sound Pool.sound_empty
  have hinterface : Pool.internClass "I" p₁ = .ok 4 p₂ :=
    Pool.internClass_of_fresh hp₁ (by decide) (by decide +kernel) (by decide +kernel)
  have hp₂ := ((Pool.within_internClass_builds _).ok hinterface).grows.sound hp₁
  have hsignature : Pool.internUtf8 "LA;" p₂ = .ok 5 p₃ :=
    Pool.intern_of_fresh hp₂ (by decide +kernel) (by decide)
  have hp₃ := ((Pool.within_internUtf8 _).ok hsignature).sound hp₂
  have hname : Pool.internUtf8 AttributeName.signature p₃
      = .ok 6 (p₃.append (.utf8 AttributeName.signature)) :=
    Pool.intern_of_fresh hp₃ (by decide +kernel) (by decide)
  have hcreate : create "A" none = .ok ⟨0, 52, p₁, publicSuper, 2, 0, #[], #[], #[], #[]⟩ := by
    unfold create
    dsimp only
    rw [bind_of_ok hclass]
    rfl
  have hencode : (build genericSteps ⟨⟨0, 52, p₁, publicSuper, 2, 0, #[], #[], #[], #[]⟩,
      #[]⟩).file.encode = .ok genericFile := by
    rw [build_genericSteps hinterface hsignature hname]
    decide +kernel
  exact ⟨_, hcreate, hencode, decode_of_build hcreate hencode⟩

end ClassFile

end Relabel
