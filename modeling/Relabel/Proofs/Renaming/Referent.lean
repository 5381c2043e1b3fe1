import Relabel.ClassFile.Basic
import Relabel.Edit.Reference
import Relabel.Proofs.Pool.Invariant

/-!
# What pool entries refer to

A referent is what an entry stands for once its indices are followed to their texts.
Renaming a referent replaces all its names at once, each looked up under the old names.
A class file gets there in two phases, since classes are renamed last: first all names
but those of classes, then those of classes.
-/

namespace Relabel

inductive Referent where
  | classRef (name : String)
  | memberRef (kind : RefKind) (owner name descriptor : String)
  | dynamic (bootstrap : UInt16) (name descriptor : String)
  | invokeDynamic (bootstrap : UInt16) (name descriptor : String)
  | methodType (descriptor : String)
  | module (name : String)
  | package (name : String)
  deriving DecidableEq

namespace Referent

variable (r : Renaming)

/-- The referent under its new names. -/
def rename : Referent → Except Flaw Referent
  | .classRef name => return .classRef (← r.type name)
  | .memberRef .field owner name descriptor =>
    return .memberRef .field (← r.type owner) (r.fieldName owner name descriptor)
      (← r.descriptor descriptor)
  | .memberRef .method owner name descriptor =>
    return .memberRef .method (← r.type owner) (r.methodName owner name descriptor)
      (← r.descriptor descriptor)
  | .memberRef .interfaceMethod owner name descriptor =>
    return .memberRef .interfaceMethod (← r.type owner) (r.methodName owner name descriptor)
      (← r.descriptor descriptor)
  | .dynamic bootstrap name descriptor =>
    return .dynamic bootstrap (r.dynamicName name descriptor) (← r.descriptor descriptor)
  | .invokeDynamic bootstrap name descriptor =>
    return .invokeDynamic bootstrap (r.dynamicName name descriptor) (← r.descriptor descriptor)
  | .methodType descriptor => return .methodType (← r.descriptor descriptor)
  | .module name => return .module (r.moduleName name)
  | .package name => return .package (r.packageName name)

/-- The first phase: every name but those of classes. -/
def renameMembers : Referent → Except Flaw Referent
  | .classRef name => .ok (.classRef name)
  | .memberRef kind owner name descriptor =>
    return .memberRef kind owner (Edit.memberName r kind owner name descriptor)
      (← r.descriptor descriptor)
  | t => t.rename r

/-- The second phase: the names of classes. -/
def renameClass : Referent → Except Flaw Referent
  | .classRef name => return .classRef (← r.type name)
  | .memberRef kind owner name descriptor =>
    return .memberRef kind (← r.type owner) name descriptor
  | t => .ok t

variable {r}

theorem rename_memberRef_eq_ok {kind : RefKind} {owner name descriptor : String} {t : Referent} :
    (memberRef kind owner name descriptor).rename r = .ok t ↔ ∃ owner' descriptor',
      r.type owner = .ok owner' ∧ r.descriptor descriptor = .ok descriptor' ∧
      t = .memberRef kind owner' (Edit.memberName r kind owner name descriptor) descriptor' := by
  constructor
  · intro h
    cases kind
    all_goals
      obtain ⟨owner', ho, h⟩ := except_bind_eq_ok.mp h
      obtain ⟨descriptor', hd, ⟨⟩⟩ := except_bind_eq_ok.mp h
      exact ⟨owner', descriptor', ho, hd, rfl⟩
  · rintro ⟨owner', descriptor', ho, hd, rfl⟩
    cases kind <;> simp only [rename, ho, hd] <;> rfl

theorem memberName_of_ne_field {kind : RefKind} (hkind : kind ≠ .field)
    (owner name descriptor : String) :
    Edit.memberName r kind owner name descriptor = r.methodName owner name descriptor := by
  cases kind with
  | field => exact absurd rfl hkind
  | method => rfl
  | interfaceMethod => rfl

theorem rename_of_phases {t t₁ t₂ : Referent} (h₁ : t.renameMembers r = .ok t₁)
    (h₂ : t₁.renameClass r = .ok t₂) : t.rename r = .ok t₂ := by
  cases t with
  | classRef name =>
    cases h₁
    exact h₂
  | memberRef kind owner name descriptor =>
    obtain ⟨descriptor', hd, ⟨⟩⟩ := except_bind_eq_ok.mp h₁
    obtain ⟨owner', ho, ⟨⟩⟩ := except_bind_eq_ok.mp h₂
    exact rename_memberRef_eq_ok.mpr ⟨owner', descriptor', ho, hd, rfl⟩
  | dynamic | invokeDynamic | methodType =>
    obtain ⟨descriptor', hd, ⟨⟩⟩ := except_bind_eq_ok.mp h₁
    cases h₂
    exact h₁
  | module | package =>
    cases h₁
    exact h₂

end Referent

namespace Pool

/-- The entry at `i` stands for the referent. -/
inductive Refers (p : Pool) (i : UInt16) : Referent → Prop
  | classRef {j : UInt16} {name : String} (entry : p.get? i = some (.classRef j))
      (text : p.utf8 j = .ok name) : Refers p i (.classRef name)
  | memberRef {kind : RefKind} {j k : UInt16} {owner name descriptor : String}
      (entry : p.get? i = some (.memberRef kind j k)) (class_name : p.className j = .ok owner)
      (member : p.nameAndType k = .ok (name, descriptor)) :
      Refers p i (.memberRef kind owner name descriptor)
  | dynamic {bootstrap k : UInt16} {name descriptor : String}
      (entry : p.get? i = some (.dynamic bootstrap k))
      (member : p.nameAndType k = .ok (name, descriptor)) :
      Refers p i (.dynamic bootstrap name descriptor)
  | invokeDynamic {bootstrap k : UInt16} {name descriptor : String}
      (entry : p.get? i = some (.invokeDynamic bootstrap k))
      (member : p.nameAndType k = .ok (name, descriptor)) :
      Refers p i (.invokeDynamic bootstrap name descriptor)
  | methodType {j : UInt16} {descriptor : String} (entry : p.get? i = some (.methodType j))
      (text : p.utf8 j = .ok descriptor) : Refers p i (.methodType descriptor)
  | module {j : UInt16} {name : String} (entry : p.get? i = some (.module j))
      (text : p.utf8 j = .ok name) : Refers p i (.module name)
  | package {j : UInt16} {name : String} (entry : p.get? i = some (.package j))
      (text : p.utf8 j = .ok name) : Refers p i (.package name)

/-- What the entry at `i` stands for, unless it is of a kind that renaming passes by. -/
def referent (p : Pool) (i : UInt16) : Except Fault (Option Referent) := do
  match p.get? i with
  | some (.classRef j) => return some (.classRef (← p.utf8 j))
  | some (.memberRef kind j k) =>
    let owner ← p.className j
    let (name, descriptor) ← p.nameAndType k
    return some (.memberRef kind owner name descriptor)
  | some (.dynamic bootstrap k) =>
    let (name, descriptor) ← p.nameAndType k
    return some (.dynamic bootstrap name descriptor)
  | some (.invokeDynamic bootstrap k) =>
    let (name, descriptor) ← p.nameAndType k
    return some (.invokeDynamic bootstrap name descriptor)
  | some (.methodType j) => return some (.methodType (← p.utf8 j))
  | some (.module j) => return some (.module (← p.utf8 j))
  | some (.package j) => return some (.package (← p.utf8 j))
  | _ => return none

theorem refers_iff {p : Pool} {i : UInt16} {t : Referent} :
    p.Refers i t ↔ p.referent i = .ok (some t) := by
  constructor
  · rintro (⟨entry, text⟩ | ⟨entry, owner, member⟩ | ⟨entry, member⟩ | ⟨entry, member⟩ |
      ⟨entry, text⟩ | ⟨entry, text⟩ | ⟨entry, text⟩)
    all_goals
      simp only [referent, *]
      rfl
  · intro h
    unfold referent at h
    split at h
    case h_1 entry =>
      obtain ⟨_, text, ⟨⟩⟩ := except_bind_eq_ok.mp h
      exact .classRef entry text
    case h_2 entry =>
      obtain ⟨_, owner, h⟩ := except_bind_eq_ok.mp h
      obtain ⟨_, member, ⟨⟩⟩ := except_bind_eq_ok.mp h
      exact .memberRef entry owner member
    case h_3 entry =>
      obtain ⟨_, member, ⟨⟩⟩ := except_bind_eq_ok.mp h
      exact .dynamic entry member
    case h_4 entry =>
      obtain ⟨_, member, ⟨⟩⟩ := except_bind_eq_ok.mp h
      exact .invokeDynamic entry member
    case h_5 entry =>
      obtain ⟨_, text, ⟨⟩⟩ := except_bind_eq_ok.mp h
      exact .methodType entry text
    case h_6 entry =>
      obtain ⟨_, text, ⟨⟩⟩ := except_bind_eq_ok.mp h
      exact .module entry text
    case h_7 entry =>
      obtain ⟨_, text, ⟨⟩⟩ := except_bind_eq_ok.mp h
      exact .package entry text
    case h_8 => cases h

theorem Refers.unique {p : Pool} {i : UInt16} {t t' : Referent} (h : p.Refers i t)
    (h' : p.Refers i t') : t = t' := by
  rw [refers_iff] at h h'
  exact Option.some.inj (Except.ok.inj (h.symm.trans h'))

/-- A step that leaves the entry and the names alone leaves the referent alone. -/
theorem Refers.congr {p q : Pool} {i : UInt16} {t : Referent} (h : q.entries = p.entries)
    (ht : q.Refers i t) : p.Refers i t := by
  have hsame : q.referent i = p.referent i := by
    simp only [referent, get?_congr h, utf8_congr h, className_congr h, nameAndType_congr h]
  exact refers_iff.mpr (hsame ▸ refers_iff.mp ht)

theorem Refers.frame {K : UInt16 → Constant → Prop} [PicksNames K] {p q : Pool} {i : UInt16}
    {t : Referent} (ht : p.Refers i t) (h : Frame K p q)
    (entry : ∀ ⦃c⦄, p.get? i = some c → K i c) : q.Refers i t := by
  have hentry {c} (hc : p.get? i = some c) : q.get? i = some c := h.get? hc (entry hc)
  cases ht with
  | classRef hi text => exact .classRef (hentry hi) (h.utf8 text)
  | memberRef hi owner member =>
    exact .memberRef (hentry hi) (h.className owner) (h.nameAndType member)
  | dynamic hi member => exact .dynamic (hentry hi) (h.nameAndType member)
  | invokeDynamic hi member => exact .invokeDynamic (hentry hi) (h.nameAndType member)
  | methodType hi text => exact .methodType (hentry hi) (h.utf8 text)
  | module hi text => exact .module (hentry hi) (h.utf8 text)
  | package hi text => exact .package (hentry hi) (h.utf8 text)

theorem Refers.grows {p q : Pool} {i : UInt16} {t : Referent} (ht : p.Refers i t)
    (h : Grows p q) : q.Refers i t := ht.frame h fun _ _ => trivial

theorem Refers.get? {p : Pool} {i : UInt16} {t : Referent} (ht : p.Refers i t) :
    ∃ c, p.get? i = some c := by
  cases ht <;> exact ⟨_, ‹_›⟩

/-- The member is declared under this name, with this descriptor. -/
def Declares (p : Pool) (m : Member) (name descriptor : String) : Prop :=
  p.utf8 m.name = .ok name ∧ p.utf8 m.descriptor = .ok descriptor

instance {p : Pool} {m : Member} {name descriptor : String} :
    Decidable (p.Declares m name descriptor) := inferInstanceAs (Decidable (_ ∧ _))

/-- The attribute is an `EnclosingMethod` attribute that names this method. -/
structure Encloses (p : Pool) (a : Attribute) (owner name descriptor : String) : Prop where
  attribute_name : p.utf8 a.name = .ok AttributeName.enclosingMethod
  payload : ∃ j m : UInt16, a.payload = Word.bytes j ++ Word.bytes m ∧ m ≠ 0 ∧
    p.className j = .ok owner ∧ p.nameAndType m = .ok (name, descriptor)

/-- The two words that four bytes are made of. -/
theorem exists_words_iff {payload : List UInt8} {P : UInt16 → UInt16 → Prop} :
    (∃ j m, payload = Word.bytes j ++ Word.bytes m ∧ P j m) ↔
      payload.length = 4 ∧ P (Word.ofBytes (payload.take 2)) (Word.ofBytes (payload.drop 2)) := by
  constructor
  · rintro ⟨j, m, rfl, h⟩
    have hj : (Word.bytes j).length = 2 := Word.length_bytes j
    have hm : (Word.bytes m).length = 2 := Word.length_bytes m
    rw [List.take_left' hj, List.drop_left' hj, Word.ofBytes_bytes, Word.ofBytes_bytes]
    exact ⟨by rw [List.length_append, hj, hm], h⟩
  · rintro ⟨hlen, h⟩
    refine ⟨_, _, ?_, h⟩
    rw [Word.bytes_ofBytes (by simp [hlen, Word.width]),
      Word.bytes_ofBytes (by simp [hlen, Word.width]), List.take_append_drop]

theorem encloses_iff {p : Pool} {a : Attribute} {owner name descriptor : String} :
    p.Encloses a owner name descriptor ↔ p.utf8 a.name = .ok AttributeName.enclosingMethod ∧
      a.payload.length = 4 ∧ (Word.ofBytes (a.payload.drop 2) : UInt16) ≠ 0 ∧
      p.className (Word.ofBytes (a.payload.take 2)) = .ok owner ∧
      p.nameAndType (Word.ofBytes (a.payload.drop 2)) = .ok (name, descriptor) := by
  rw [← exists_words_iff (P := fun j m => m ≠ 0 ∧ p.className j = .ok owner ∧
    p.nameAndType m = .ok (name, descriptor))]
  exact ⟨fun ⟨h, h'⟩ => ⟨h, h'⟩, fun ⟨h, h'⟩ => ⟨h, h'⟩⟩

instance {p : Pool} {a : Attribute} {owner name descriptor : String} :
    Decidable (p.Encloses a owner name descriptor) := decidable_of_iff _ encloses_iff.symm

theorem Encloses.unique {p : Pool} {a : Attribute} {owner owner' name name' descriptor
    descriptor' : String} (h : p.Encloses a owner name descriptor)
    (h' : p.Encloses a owner' name' descriptor') :
    owner = owner' ∧ name = name' ∧ descriptor = descriptor' := by
  obtain ⟨-, -, -, howner, hm⟩ := encloses_iff.mp h
  obtain ⟨-, -, -, howner', hm'⟩ := encloses_iff.mp h'
  cases howner.symm.trans howner'
  cases hm.symm.trans hm'
  exact ⟨rfl, rfl, rfl⟩

section

variable {p q : Pool} {K : UInt16 → Constant → Prop}

theorem Declares.frame [PicksTexts K] {m : Member} {name descriptor : String}
    (hm : p.Declares m name descriptor) (h : Frame K p q) : q.Declares m name descriptor :=
  ⟨h.utf8 hm.1, h.utf8 hm.2⟩

theorem Encloses.frame [PicksNames K] {a : Attribute} {owner name descriptor : String}
    (ha : p.Encloses a owner name descriptor) (h : Frame K p q) :
    q.Encloses a owner name descriptor := by
  obtain ⟨hname, j, m, hpayload, hm₀, howner, hm⟩ := ha
  exact ⟨h.utf8 hname, j, m, hpayload, hm₀, h.className howner, h.nameAndType hm⟩

end

end Pool

end Relabel
