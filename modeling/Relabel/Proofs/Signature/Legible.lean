import Mathlib.Data.List.Chain
import Relabel.Proofs.Signature.Scanner
import Relabel.Signature.Parser

/-!
# Legible signatures

The names in a signature end at delimiters, and a type parameter without bounds is told
from its successor by the first letter of the next name. What is parsed from a text is
legible and spells that text.
-/

namespace Relabel

open Scan

/-! ## Legibility -/

/-- The name of a class or an inner class. -/
abbrev IsClassName (name : String) : Prop := IsName Signature.endsClassName name

mutual

def ReferenceType.Legible : ReferenceType → Prop
  | .object type => type.Legible
  | .variable name => IsName (· == ';') name
  | .array element => element.Legible

def JavaType.Legible : JavaType → Prop
  | .base _ => True
  | .reference type => type.Legible

def ClassType.Legible : ClassType → Prop
  | .of name parts => IsClassName name ∧ LegibleParts parts

def LegibleParts : List ClassPart → Prop
  | [] => True
  | part :: parts => part.Legible ∧ LegibleParts parts

def ClassPart.Legible : ClassPart → Prop
  | .arguments arguments => LegibleArguments arguments
  | .inner name => IsClassName name

def LegibleArguments : List TypeArgument → Prop
  | [] => True
  | argument :: arguments => argument.Legible ∧ LegibleArguments arguments

def TypeArgument.Legible : TypeArgument → Prop
  | .any => True
  | .exact type => type.Legible
  | .upper type => type.Legible
  | .lower type => type.Legible

end

theorem legibleParts_iff {parts : List ClassPart} :
    LegibleParts parts ↔ ∀ part ∈ parts, part.Legible := by
  induction parts with
  | nil => simp [LegibleParts]
  | cons part parts ih => rw [LegibleParts, ih, List.forall_mem_cons]

theorem legibleArguments_iff {arguments : List TypeArgument} :
    LegibleArguments arguments ↔ ∀ argument ∈ arguments, argument.Legible := by
  induction arguments with
  | nil => simp [LegibleArguments]
  | cons argument arguments ih => rw [LegibleArguments, ih, List.forall_mem_cons]

/-- A reference type starts with this letter. -/
def startsType (c : Char) : Bool := c = 'L' || c = '[' || c = 'T'

namespace TypeParameter

structure Legible (p : TypeParameter) : Prop where
  name : IsName (· == ':') p.name
  classBound : ∀ type ∈ p.classBound, type.Legible
  interfaceBounds : ∀ type ∈ p.interfaceBounds, type.Legible

/-- The parameter is not taken for one with a bound if this text stands behind it. -/
def EndsBefore (p : TypeParameter) (text : List Char) : Prop :=
  p.classBound = none → p.interfaceBounds = [] → ¬ StartsWith startsType text

end TypeParameter

/-- The first parameter may start with any character, the others not with the closing bracket. -/
def LegibleParameters (parameters : List TypeParameter) : Prop :=
  (∀ p ∈ parameters, p.Legible) ∧
    parameters.IsChain (fun p q => p.EndsBefore q.name.toList) ∧
    ∀ p ∈ parameters.tail, ¬ StartsWith (· == '>') p.name.toList

def ThrownType.Legible : ThrownType → Prop
  | .object type => type.Legible
  | .variable name => IsName (· == ';') name

namespace Signature

/-- The signature is one of the given shape that can be read back from its characters. -/
def Legible : SymbolKind → Signature → Prop
  | .ofClass, .ofClass parameters superclass interfaces =>
    LegibleParameters parameters ∧ superclass.Legible ∧ ∀ type ∈ interfaces, type.Legible
  | .ofMethod, .ofMethod parameters arguments result thrown =>
    LegibleParameters parameters ∧ (∀ type ∈ arguments, type.Legible) ∧
      (∀ type ∈ result, type.Legible) ∧ ∀ type ∈ thrown, type.Legible
  | .ofField, .ofField type => type.Legible
  | _, _ => False

end Signature

theorem writeParts_eq (parts : List ClassPart) (tail : List Char) :
    writeParts parts tail = parts.foldr ClassPart.write tail := by
  induction parts with
  | nil => rfl
  | cons part parts ih => rw [writeParts, ih, List.foldr_cons]

theorem writeArguments_eq (arguments : List TypeArgument) (tail : List Char) :
    writeArguments arguments tail = arguments.foldr TypeArgument.write tail := by
  induction arguments with
  | nil => rfl
  | cons argument arguments ih => rw [writeArguments, ih, List.foldr_cons]

/-! ## What is parsed -/

namespace Signature

variable {α : Type} {limit : Nat} {s s' : Scanner} {reference : Scan ReferenceType}

/-- What `x` reads is legible and spells what is read. -/
def Spells (x : Scan α) (write : α → List Char → List Char) (P : α → Prop) : Prop :=
  ∀ ⦃s a s'⦄, x s = .ok a s' → s.rest = write a s'.rest ∧ P a

theorem expect_bind_eq_ok {c : Char} {x : Scan α} {a : α}
    (h : (do expect c; x) s = .ok a s') : ∃ s₁, s.rest = c :: s₁.rest ∧ x s₁ = .ok a s' := by
  obtain ⟨⟨⟩, s₁, hc, h⟩ := bind_eq_ok.mp h
  exact ⟨s₁, expect_eq_ok hc, h⟩

theorem peek_bind_eq_ok {f : Char → Scan α} {a : α} (h : (peek >>= f) s = .ok a s') :
    ∃ c, s.rest.head? = some c ∧ f c s = .ok a s' := by
  obtain ⟨c, s₁, hc, hf⟩ := bind_eq_ok.mp h
  obtain ⟨rfl, tail, hrest⟩ := peek_eq_ok hc
  exact ⟨c, by rw [hrest, List.head?_cons], hf⟩

/-- A test of the next character. -/
theorem peekIs_eq_ok {p : Char → Bool} {b : Bool}
    (h : (do return p (← peek) : Scan Bool) s = .ok b s') :
    s' = s ∧ ∃ c, s.rest.head? = some c ∧ p c = b := by
  obtain ⟨c, hc, h⟩ := peek_bind_eq_ok h
  obtain ⟨hp, rfl⟩ := pure_eq_ok.mp h
  exact ⟨rfl, c, hc, hp⟩

theorem atEnd_eq_ok {b : Bool} (h : (do return !(← atEnd) : Scan Bool) s = .ok b s') : s' = s := by
  obtain ⟨e, s₁, he, h⟩ := bind_eq_ok.mp h
  obtain ⟨-, rfl⟩ := pure_eq_ok.mp h
  cases he
  rfl

/-- A list of items that are spelled is spelled. -/
theorem Spells.many {more : Scan Bool} {item : Scan α} {write : α → List Char → List Char}
    {P : α → Prop} (hmore : ∀ ⦃s b s'⦄, more s = .ok b s' → s' = s) (hitem : Spells item write P)
    (n : Nat) : Spells (many more item n) (fun as tail => as.foldr write tail)
      fun as => ∀ a ∈ as, P a := by
  intro s as s' h
  obtain ⟨hrest, hall, -⟩ := many_eq_ok (P := fun a _ => P a) hmore
    (fun s a s' _ ha => hitem ha) h
  exact ⟨hrest, each_const.mp hall⟩

theorem spells_variable :
    Spells scanVariable (fun name tail => 'T' :: (name.toList ++ ';' :: tail))
      (IsName (· == ';')) := by
  intro s name s' h
  obtain ⟨s₁, hrest, h⟩ := expect_bind_eq_ok h
  obtain ⟨name, s₂, hname, h⟩ := bind_eq_ok.mp h
  obtain ⟨s₃, hrest₂, h⟩ := expect_bind_eq_ok h
  obtain ⟨rfl, rfl⟩ := pure_eq_ok.mp h
  obtain ⟨hrest₁, hlegible⟩ := identifier_eq_ok hname
  rw [hrest, hrest₁, hrest₂]
  exact ⟨rfl, hlegible⟩

section

variable (hreference : Spells reference ReferenceType.write ReferenceType.Legible)
include hreference

theorem spells_argument :
    Spells (scanArgument reference) TypeArgument.write TypeArgument.Legible := by
  intro s argument s' h
  obtain ⟨c, -, h⟩ := peek_bind_eq_ok h
  split at h
  case h_1 =>
    obtain ⟨s₁, hrest, h⟩ := expect_bind_eq_ok h
    obtain ⟨rfl, rfl⟩ := pure_eq_ok.mp h
    exact ⟨hrest, trivial⟩
  case h_4 =>
    obtain ⟨type, s₁, htype, h⟩ := bind_eq_ok.mp h
    obtain ⟨rfl, rfl⟩ := pure_eq_ok.mp h
    exact hreference htype
  all_goals
    obtain ⟨s₁, hrest, h⟩ := expect_bind_eq_ok h
    obtain ⟨type, s₂, htype, h⟩ := bind_eq_ok.mp h
    obtain ⟨rfl, rfl⟩ := pure_eq_ok.mp h
    obtain ⟨hrest₁, hlegible⟩ := hreference htype
    rw [hrest, hrest₁]
    exact ⟨rfl, hlegible⟩

theorem spells_part : Spells (scanPart limit reference) ClassPart.write ClassPart.Legible := by
  intro s part s' h
  obtain ⟨c, -, h⟩ := peek_bind_eq_ok h
  split at h
  case isTrue =>
    obtain ⟨s₁, hrest, h⟩ := expect_bind_eq_ok h
    obtain ⟨arguments, s₂, harguments, h⟩ := bind_eq_ok.mp h
    obtain ⟨s₃, hrest₂, h⟩ := expect_bind_eq_ok h
    obtain ⟨rfl, rfl⟩ := pure_eq_ok.mp h
    obtain ⟨hrest₁, hlegible⟩ := (spells_argument hreference).many
      (fun _ _ _ h => (peekIs_eq_ok h).1) limit harguments
    rw [hrest, hrest₁, hrest₂, ClassPart.write, writeArguments_eq]
    exact ⟨rfl, legibleArguments_iff.mpr hlegible⟩
  case isFalse =>
    obtain ⟨s₁, hrest, h⟩ := expect_bind_eq_ok h
    obtain ⟨name, s₂, hname, h⟩ := bind_eq_ok.mp h
    obtain ⟨rfl, rfl⟩ := pure_eq_ok.mp h
    obtain ⟨hrest₁, hlegible⟩ := identifier_eq_ok hname
    rw [hrest, hrest₁]
    exact ⟨rfl, hlegible⟩

theorem spells_classType :
    Spells (scanClassType limit reference) ClassType.write ClassType.Legible := by
  intro s type s' h
  obtain ⟨s₁, hrest, h⟩ := expect_bind_eq_ok h
  obtain ⟨name, s₂, hname, h⟩ := bind_eq_ok.mp h
  obtain ⟨parts, s₃, hparts, h⟩ := bind_eq_ok.mp h
  obtain ⟨s₄, hrest₃, h⟩ := expect_bind_eq_ok h
  obtain ⟨rfl, rfl⟩ := pure_eq_ok.mp h
  obtain ⟨hrest₁, hlegible⟩ := identifier_eq_ok hname
  obtain ⟨hrest₂, hlegible'⟩ := (spells_part hreference).many
    (fun _ _ _ h => (peekIs_eq_ok (p := fun c => c == '<' || c == '.') h).1) limit hparts
  rw [hrest, hrest₁, hrest₂, hrest₃, ClassType.write, writeParts_eq]
  exact ⟨rfl, hlegible, legibleParts_iff.mpr hlegible'⟩

theorem spells_javaType : Spells (scanJavaType reference) JavaType.write JavaType.Legible := by
  intro s type s' h
  obtain ⟨c, -, h⟩ := peek_bind_eq_ok h
  cases hbase : BaseType.ofLetter? c with
  | some type =>
    rw [hbase] at h
    obtain ⟨s₁, hrest, h⟩ := expect_bind_eq_ok h
    obtain ⟨rfl, rfl⟩ := pure_eq_ok.mp h
    exact ⟨hrest, trivial⟩
  | none =>
    rw [hbase] at h
    obtain ⟨type, s₁, htype, h⟩ := bind_eq_ok.mp h
    obtain ⟨rfl, rfl⟩ := pure_eq_ok.mp h
    exact hreference htype

end

/-- The induction is on the depth, as the recursion of the scanner is. -/
theorem spells_reference (limit depth : Nat) :
    Spells (scanReference limit depth) ReferenceType.write ReferenceType.Legible := by
  induction depth with
  | zero => exact fun _ _ _ h => absurd h throw_ne_ok
  | succ depth ih =>
    intro s type s' h
    obtain ⟨c, -, h⟩ := peek_bind_eq_ok h
    split at h
    case h_1 =>
      obtain ⟨type, s₁, htype, h⟩ := bind_eq_ok.mp h
      obtain ⟨rfl, rfl⟩ := pure_eq_ok.mp h
      exact spells_classType ih htype
    case h_2 =>
      obtain ⟨name, s₁, hname, h⟩ := bind_eq_ok.mp h
      obtain ⟨rfl, rfl⟩ := pure_eq_ok.mp h
      exact spells_variable hname
    case h_3 =>
      obtain ⟨s₁, hrest, h⟩ := expect_bind_eq_ok h
      obtain ⟨element, s₂, helement, h⟩ := bind_eq_ok.mp h
      obtain ⟨rfl, rfl⟩ := pure_eq_ok.mp h
      obtain ⟨hrest₁, hlegible⟩ := spells_javaType ih helement
      rw [hrest, hrest₁]
      exact ⟨rfl, hlegible⟩
    case h_4 =>
      unfold unexpected at h
      split at h <;> cases h

/-! ### Type parameters -/

theorem startsWith_write {p : TypeParameter} (hname : p.name.toList ≠ []) (f : Char → Bool)
    (tail : List Char) : StartsWith f (p.write tail) ↔ StartsWith f p.name.toList := by
  cases hchars : p.name.toList with
  | nil => exact absurd hchars hname
  | cons c chars => simp [StartsWith, TypeParameter.write, hchars]

theorem startsWith_of_head? {f : Char → Bool} {text : List Char} {c : Char}
    (hc : text.head? = some c) : StartsWith f text ↔ f c = true := by
  simp [StartsWith, hc]

/-- A type parameter is spelled, and what stands behind it does not make it another one. -/
theorem scanParameter_eq_ok {p : TypeParameter} (h : scanParameter limit s = .ok p s') :
    s.rest = p.write s'.rest ∧ p.Legible ∧ p.EndsBefore s'.rest := by
  obtain ⟨name, s₁, hname, h⟩ := bind_eq_ok.mp h
  obtain ⟨s₂, hrest₁, h⟩ := expect_bind_eq_ok h
  obtain ⟨c, hc, h⟩ := peek_bind_eq_ok h
  obtain ⟨classBound, s₃, hclass, h⟩ : ∃ classBound s₃,
      (if startsType c then some <$> scanReference limit limit else pure none : Scan _) s₂
        = .ok classBound s₃ ∧
      (do
        let interfaceBounds ← many (return (← peek) == ':')
          (do expect ':'; scanReference limit limit) limit
        return (⟨name, classBound, interfaceBounds⟩ : TypeParameter)) s₃ = .ok p s' := by
    unfold startsType
    dsimp only at h
    split at h
    case isTrue hstarts =>
      rw [if_pos hstarts]
      exact bind_eq_ok.mp h
    case isFalse hstarts =>
      rw [if_neg hstarts]
      exact bind_eq_ok.mp h
  obtain ⟨interfaceBounds, s₄, hinterfaces, h⟩ := bind_eq_ok.mp h
  obtain ⟨rfl, rfl⟩ := pure_eq_ok.mp h
  obtain ⟨hrest, hlegible⟩ := identifier_eq_ok hname
  have hbound : Spells (do expect ':'; scanReference limit limit)
      (fun type tail => ':' :: type.write tail) ReferenceType.Legible := by
    intro s type s' h
    obtain ⟨s₁, hrest, h⟩ := expect_bind_eq_ok h
    obtain ⟨hrest₁, hlegible⟩ := spells_reference limit limit h
    rw [hrest, hrest₁]
    exact ⟨rfl, hlegible⟩
  obtain ⟨hrest₃, hbounds⟩ := hbound.many (fun _ _ _ h => (peekIs_eq_ok h).1) limit hinterfaces
  split at hclass
  case isTrue hstarts =>
    obtain ⟨type, htype, rfl⟩ := map_eq_ok.mp hclass
    obtain ⟨hrest₂, htype⟩ := spells_reference limit limit htype
    rw [hrest, hrest₁, hrest₂, hrest₃]
    exact ⟨rfl, ⟨hlegible, by simpa using htype, hbounds⟩, nofun⟩
  case isFalse hstarts =>
    obtain ⟨rfl, rfl⟩ := pure_eq_ok.mp hclass
    rw [hrest, hrest₁, hrest₃]
    refine ⟨rfl, ⟨hlegible, nofun, hbounds⟩, ?_⟩
    rintro - rfl
    rw [← startsWith_of_head? hc, hrest₃] at hstarts
    exact hstarts

theorem legibleParameters_of_each {first : TypeParameter} {others : List TypeParameter}
    {tail : List Char} (hfirst : first.Legible)
    (hends : first.EndsBefore (others.foldr TypeParameter.write tail))
    (hothers : Each TypeParameter.write (fun p tail => (p.Legible ∧ p.EndsBefore tail) ∧
      ¬ StartsWith (· == '>') p.name.toList) others tail) :
    LegibleParameters (first :: others) := by
  induction others generalizing first with
  | nil =>
    exact ⟨List.forall_mem_singleton.mpr hfirst, List.isChain_singleton _, List.forall_mem_nil _⟩
  | cons p others ih =>
    obtain ⟨⟨⟨hp, hp'⟩, hstart⟩, hothers⟩ := hothers
    obtain ⟨hall, hchain, htail⟩ := ih hp hp' hothers
    refine ⟨List.forall_mem_cons.mpr ⟨hfirst, hall⟩, List.isChain_cons_cons.mpr ⟨?_, hchain⟩,
      List.forall_mem_cons.mpr ⟨hstart, htail⟩⟩
    intro hclass hinterfaces
    rw [← startsWith_write hp.name.nonempty startsType (others.foldr TypeParameter.write tail)]
    exact hends hclass hinterfaces

theorem spells_parameters : Spells (scanParameters limit) writeParameters LegibleParameters := by
  intro s parameters s' h
  obtain ⟨c, -, h⟩ := peek_bind_eq_ok h
  split at h
  case isFalse =>
    obtain ⟨rfl, rfl⟩ := pure_eq_ok.mp h
    exact ⟨rfl, List.forall_mem_nil _, List.isChain_nil, List.forall_mem_nil _⟩
  case isTrue =>
    obtain ⟨s₁, hrest, h⟩ := expect_bind_eq_ok h
    obtain ⟨first, s₂, hfirst, h⟩ := bind_eq_ok.mp h
    obtain ⟨others, s₃, hothers, h⟩ := bind_eq_ok.mp h
    obtain ⟨s₄, hrest₃, h⟩ := expect_bind_eq_ok h
    obtain ⟨rfl, rfl⟩ := pure_eq_ok.mp h
    obtain ⟨hrest₁, hlegible, hends⟩ := scanParameter_eq_ok hfirst
    have hitem ⦃s p s'⦄ (hmore : (do return (← peek) != '>' : Scan Bool) s = .ok true s)
        (hp : scanParameter limit s = .ok p s') : s.rest = p.write s'.rest ∧
          (p.Legible ∧ p.EndsBefore s'.rest) ∧ ¬ StartsWith (· == '>') p.name.toList := by
      obtain ⟨hrest, hlegible, hends⟩ := scanParameter_eq_ok hp
      obtain ⟨-, c, hc, hne⟩ := peekIs_eq_ok hmore
      refine ⟨hrest, ⟨hlegible, hends⟩, ?_⟩
      rw [← startsWith_write hlegible.name.nonempty _ s'.rest, ← hrest, startsWith_of_head? hc]
      simpa using hne
    obtain ⟨hrest₂, hall, -⟩ := many_eq_ok (P := fun p tail => (p.Legible ∧ p.EndsBefore tail) ∧
      ¬ StartsWith (· == '>') p.name.toList) (fun _ _ _ h => (peekIs_eq_ok h).1) hitem hothers
    rw [hrest, hrest₁, hrest₂, hrest₃]
    exact ⟨rfl, legibleParameters_of_each hlegible (hrest₂ ▸ hends) hall⟩

/-! ### Signatures -/

theorem spells_thrown : Spells (scanThrown limit) ThrownType.write ThrownType.Legible := by
  intro s type s' h
  obtain ⟨s₁, hrest, h⟩ := expect_bind_eq_ok h
  obtain ⟨c, -, h⟩ := peek_bind_eq_ok h
  split at h
  case isTrue =>
    obtain ⟨name, s₂, hname, h⟩ := bind_eq_ok.mp h
    obtain ⟨rfl, rfl⟩ := pure_eq_ok.mp h
    obtain ⟨hrest₁, hlegible⟩ := spells_variable hname
    rw [hrest, hrest₁]
    exact ⟨rfl, hlegible⟩
  case isFalse =>
    obtain ⟨type, s₂, htype, h⟩ := bind_eq_ok.mp h
    obtain ⟨rfl, rfl⟩ := pure_eq_ok.mp h
    obtain ⟨hrest₁, hlegible⟩ := spells_classType (spells_reference limit limit) htype
    rw [hrest, hrest₁]
    exact ⟨rfl, hlegible⟩

theorem spells_result :
    Spells (scanResult limit) writeResult fun result => ∀ type ∈ result, type.Legible := by
  intro s result s' h
  obtain ⟨c, -, h⟩ := peek_bind_eq_ok h
  split at h
  case isTrue =>
    obtain ⟨s₁, hrest, h⟩ := expect_bind_eq_ok h
    obtain ⟨rfl, rfl⟩ := pure_eq_ok.mp h
    exact ⟨hrest, nofun⟩
  case isFalse =>
    obtain ⟨type, s₁, htype, h⟩ := bind_eq_ok.mp h
    obtain ⟨rfl, rfl⟩ := pure_eq_ok.mp h
    obtain ⟨hrest, hlegible⟩ := spells_javaType (spells_reference limit limit) htype
    exact ⟨hrest, by simpa using hlegible⟩

theorem scan_eq_ok {kind : SymbolKind} {signature : Signature}
    (h : scan limit kind s = .ok signature s') (hend : s'.rest = []) :
    s.rest = signature.chars ∧ signature.Legible kind := by
  have hclass : Spells (scanClassType limit (scanReference limit limit)) ClassType.write
      ClassType.Legible := spells_classType (spells_reference limit limit)
  have hjava := spells_javaType (spells_reference limit limit)
  cases kind with
  | ofClass =>
    obtain ⟨parameters, s₁, hparameters, h⟩ := bind_eq_ok.mp h
    obtain ⟨superclass, s₂, hsuperclass, h⟩ := bind_eq_ok.mp h
    obtain ⟨interfaces, s₃, hinterfaces, h⟩ := bind_eq_ok.mp h
    obtain ⟨rfl, rfl⟩ := pure_eq_ok.mp h
    obtain ⟨hrest, hparameters⟩ := spells_parameters hparameters
    obtain ⟨hrest₁, hsuperclass⟩ := hclass hsuperclass
    obtain ⟨hrest₂, hinterfaces⟩ := hclass.many (fun _ _ _ => atEnd_eq_ok) limit hinterfaces
    rw [hrest, hrest₁, hrest₂, hend]
    exact ⟨rfl, hparameters, hsuperclass, hinterfaces⟩
  | ofMethod =>
    obtain ⟨parameters, s₁, hparameters, h⟩ := bind_eq_ok.mp h
    obtain ⟨s₂, hrest₁, h⟩ := expect_bind_eq_ok h
    obtain ⟨arguments, s₃, harguments, h⟩ := bind_eq_ok.mp h
    obtain ⟨s₄, hrest₃, h⟩ := expect_bind_eq_ok h
    obtain ⟨result, s₅, hresult, h⟩ := bind_eq_ok.mp h
    obtain ⟨thrown, s₆, hthrown, h⟩ := bind_eq_ok.mp h
    obtain ⟨rfl, rfl⟩ := pure_eq_ok.mp h
    obtain ⟨hrest, hparameters⟩ := spells_parameters hparameters
    obtain ⟨hrest₂, harguments⟩ :=
      hjava.many (fun _ _ _ h => (peekIs_eq_ok h).1) limit harguments
    obtain ⟨hrest₄, hresult⟩ := spells_result hresult
    obtain ⟨hrest₅, hthrown⟩ := spells_thrown.many (fun _ _ _ => atEnd_eq_ok) limit hthrown
    rw [hrest, hrest₁, hrest₂, hrest₃, hrest₄, hrest₅, hend]
    exact ⟨rfl, hparameters, harguments, hresult, hthrown⟩
  | ofField =>
    obtain ⟨type, s₁, htype, h⟩ := bind_eq_ok.mp h
    obtain ⟨rfl, rfl⟩ := pure_eq_ok.mp h
    obtain ⟨hrest, hlegible⟩ := spells_reference limit limit htype
    rw [hrest, hend]
    exact ⟨rfl, hlegible⟩

/-- What is parsed from a text is legible and spells that text. -/
theorem parse_eq_ok {kind : SymbolKind} {text : String} {signature : Signature}
    (h : parse kind text = .ok signature) : signature.print = text ∧ signature.Legible kind := by
  unfold parse ofChars at h
  split at h
  case h_2 => cases h
  case h_1 hchars =>
    cases h
    split at hchars
    case h_2 => cases hchars
    case h_1 hscan =>
      split at hchars
      case isFalse => cases hchars
      case isTrue hend =>
        cases hchars
        obtain ⟨hrest, hlegible⟩ := scan_eq_ok hscan (List.isEmpty_iff.mp hend)
        exact ⟨by rw [print, ← hrest, String.ofList_toList], hlegible⟩

end Signature

end Relabel
