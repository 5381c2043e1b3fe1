import Relabel.Proofs.Edit.Payload
import Relabel.Proofs.Edit.Reference
import Relabel.Proofs.Renaming.Referent

/-!
# Plain class files

Renaming needs that names resolve, that descriptors end and that the pool has room. For
class files whose attributes hold no names but those of an enclosing method, this can be
computed in advance, whatever the renaming is. Steps that leave the texts alone cannot
spoil what was checked.
-/

namespace Relabel

/-! ## What can be checked in advance -/

/-- Whether every class name in the text ends. -/
def Descriptor.closes (text : String) : Bool := (Descriptor.parse text).isOk

/-- Whether the class entry names a class or an array type that ends. -/
def Descriptor.closesType (name : String) : Bool := !name.startsWith "[" || closes name

def Referent.closes : Referent → Bool
  | .classRef name => Descriptor.closesType name
  | .memberRef _ _ _ descriptor | .dynamic _ _ descriptor | .invokeDynamic _ _ descriptor
  | .methodType descriptor => Descriptor.closes descriptor
  | .module _ | .package _ => true

namespace Pool

variable (p : Pool)

/-- Whether the entry at `i` resolves, if it has to. -/
def closesAt (i : UInt16) : Bool :=
  match p.referent i with
  | .ok (some t) => t.closes
  | .ok none => true
  | .error _ => false

/-- Whether the walks pass the attribute by. -/
def passesBy (a : Attribute) : Bool :=
  match p.utf8 a.name with
  | .ok name => !AttributeName.walked.contains name
  | .error _ => false

def closesMember (m : Member) : Bool :=
  match p.utf8 m.name, p.utf8 m.descriptor with
  | .ok _, .ok descriptor => Descriptor.closes descriptor && m.attributes.all p.passesBy
  | _, _ => false

/-- Whether the method resolves, unless its index is 0. -/
def closesMethod (owner method : UInt16) : Bool :=
  method = 0 ||
    match p.className owner, p.nameAndType method with
    | .ok _, .ok (_, descriptor) => Descriptor.closes descriptor
    | _, _ => false

/-- Whether the method of an `EnclosingMethod` attribute resolves. -/
def closesEnclosing (a : Attribute) : Bool :=
  match p.utf8 a.name with
  | .ok name =>
    name ≠ AttributeName.enclosingMethod || a.payload.length = 4 &&
      p.closesMethod (Word.ofBytes (a.payload.take 2)) (Word.ofBytes (a.payload.drop 2))
  | .error _ => false

end Pool

namespace ClassFile

/-- How many slots a renaming can take up at most, beside those in use. -/
def demand (c : ClassFile) : Nat :=
  4 * c.pool.slots + 2 * c.fields.size + 2 * c.methods.size + 3 * c.attributes.size

/-- A class file without names in payloads, apart from enclosing methods, all of whose names
resolve and whose pool has room for a renaming. -/
def isPlain (c : ClassFile) : Bool :=
  c.name.isOk && (List.range c.pool.slots).all (fun i => c.pool.closesAt (UInt16.ofNat i))
    && c.fields.all c.pool.closesMember && c.methods.all c.pool.closesMember
    && c.attributes.all (fun a => c.pool.passesBy a && c.pool.closesEnclosing a)
    && c.pool.slots + c.demand ≤ Pool.maxSlots

end ClassFile

namespace Renaming

variable (r : Renaming) {text : String}

theorem descriptor_of_closes (h : Descriptor.closes text = true) :
    ∃ text', r.descriptor text = .ok text' := by
  unfold Descriptor.closes at h
  cases hd : Descriptor.parse text with
  | ok d => exact ⟨(d.rename r).print, by simp only [descriptor, hd]; rfl⟩
  | error flaw =>
    rw [hd] at h
    cases h

theorem closes_of_descriptor {text' : String} (h : r.descriptor text = .ok text') :
    Descriptor.closes text = true := by
  obtain ⟨d, hd, -⟩ := except_bind_eq_ok.mp h
  simp only [Descriptor.closes, hd]
  rfl

theorem type_of_closes (h : Descriptor.closesType text = true) :
    ∃ text', r.type text = .ok text' := by
  unfold type
  split
  case isTrue harray =>
    refine r.descriptor_of_closes ?_
    simpa [Descriptor.closesType, harray] using h
  case isFalse => exact ⟨_, rfl⟩

end Renaming

/-! ## Entries -/

namespace Pool

variable {p q : Pool} {i : UInt16}

theorem referent_eq_none :
    p.referent i = .ok none ↔
      ∀ c, p.get? i = some c → (c.isReference || c.isClassRef) = false := by
  unfold referent
  cases p.get? i with
  | none => exact ⟨nofun, fun _ => rfl⟩
  | some c =>
    constructor
    · rintro h _ ⟨⟩
      cases c <;> first
        | rfl
        | simp [-bind_pure_comp, except_bind_eq_ok, except_pure_eq_ok] at h
    · intro h
      cases c <;> first
        | rfl
        | cases h _ rfl

theorem refers_of_closesAt {c : Constant} (h : p.closesAt i = true)
    (hi : p.get? i = some c) (hc : (c.isReference || c.isClassRef) = true) :
    ∃ t, p.Refers i t ∧ t.closes = true := by
  unfold closesAt at h
  split at h
  case h_1 t ht => exact ⟨t, refers_iff.mpr ht, h⟩
  case h_2 hnone =>
    have := referent_eq_none.mp hnone c hi
    simp_all
  case h_3 => cases h

theorem closesAt_frame {K : UInt16 → Constant → Prop} [PicksNames K] (h : p.closesAt i = true)
    (hframe : Frame K p q) (hi : i.toNat < p.slots) (entry : ∀ ⦃c⦄, p.get? i = some c → K i c) :
    q.closesAt i = true := by
  have hq := hframe.get?_eq hi entry
  unfold closesAt at h ⊢
  split at h
  case h_1 t ht =>
    have := (refers_iff.mpr ht).frame hframe entry
    rw [refers_iff.mp this]
    exact h
  case h_2 hnone => rw [referent_eq_none.mpr (hq ▸ referent_eq_none.mp hnone)]
  case h_3 => cases h

/-! ## Members and attributes -/

theorem passesBy_iff {a : Attribute} :
    p.passesBy a = true ↔ ∃ name, p.utf8 a.name = .ok name ∧ name ∉ AttributeName.walked := by
  unfold passesBy
  cases p.utf8 a.name <;> simp

theorem closesMember_iff {m : Member} :
    p.closesMember m = true ↔ ∃ name descriptor, p.Declares m name descriptor ∧
      Descriptor.closes descriptor = true ∧ ∀ a ∈ m.attributes, p.passesBy a = true := by
  unfold closesMember Declares
  cases p.utf8 m.name <;> cases p.utf8 m.descriptor <;>
    simp [-Array.all_eq_true, Array.all_eq_true_iff_forall_mem]

theorem closesMethod_iff {j m : UInt16} :
    p.closesMethod j m = true ↔ m = 0 ∨ ∃ owner name descriptor, p.className j = .ok owner ∧
      p.nameAndType m = .ok (name, descriptor) ∧ Descriptor.closes descriptor = true := by
  unfold closesMethod
  rcases p.className j with _ | owner <;>
    rcases p.nameAndType m with _ | ⟨name, descriptor⟩ <;> simp

theorem closesEnclosing_iff {a : Attribute} :
    p.closesEnclosing a = true ↔ ∃ name, p.utf8 a.name = .ok name ∧
      (name = AttributeName.enclosingMethod → ∃ j m : UInt16,
        a.payload = Word.bytes j ++ Word.bytes m ∧ p.closesMethod j m = true) := by
  unfold closesEnclosing
  cases p.utf8 a.name with
  | error fault => simp
  | ok name =>
    rw [show (∃ text, Except.ok (ε := Fault) name = .ok text ∧ _) ↔ _ from
      ⟨fun ⟨_, h, h'⟩ => Except.ok.inj h ▸ h', fun h => ⟨name, rfl, h⟩⟩]
    rw [exists_words_iff]
    by_cases hname : name = AttributeName.enclosingMethod <;> simp [hname]

section

variable {K : UInt16 → Constant → Prop}

theorem passesBy_frame [PicksTexts K] {a : Attribute} (ha : p.passesBy a = true)
    (h : Frame K p q) : q.passesBy a = true := by
  obtain ⟨name, hname, hwalked⟩ := passesBy_iff.mp ha
  exact passesBy_iff.mpr ⟨name, h.utf8 hname, hwalked⟩

theorem closesMember_frame [PicksTexts K] {m : Member} (hm : p.closesMember m = true)
    (h : Frame K p q) : q.closesMember m = true := by
  obtain ⟨name, descriptor, hdeclares, hcloses, hall⟩ := closesMember_iff.mp hm
  exact closesMember_iff.mpr ⟨name, descriptor, hdeclares.frame h, hcloses,
    fun a ha => passesBy_frame (hall a ha) h⟩

theorem closesEnclosing_frame [PicksNames K] {a : Attribute} (ha : p.closesEnclosing a = true)
    (h : Frame K p q) : q.closesEnclosing a = true := by
  obtain ⟨name, hname, hmethod⟩ := closesEnclosing_iff.mp ha
  refine closesEnclosing_iff.mpr ⟨name, h.utf8 hname, ?_⟩
  intro heq
  obtain ⟨j, m, hpayload, hm⟩ := hmethod heq
  refine ⟨j, m, hpayload, closesMethod_iff.mpr ((closesMethod_iff.mp hm).imp_right ?_)⟩
  rintro ⟨owner, name, descriptor, howner, hm, hcloses⟩
  exact ⟨owner, name, descriptor, h.className howner,
    h.nameAndType hm, hcloses⟩

end

end Pool

end Relabel
