import Relabel.Proofs.Descriptor
import Relabel.Signature.Basic

/-!
# What the scan of a descriptor finds

The scan of a text goes from one name to the next: it passes the text up to the first `L`,
takes what stands up to the next `;` as a name, and goes on behind it. A text is refused
exactly if the scan comes to a name that does not end; any other text is renamed name by
name. In the descriptor of a type these names are its classes, so the type is renamed.
-/

namespace Relabel

namespace Descriptor

/-! ## The scan -/

/-- The scan of a text finds the segments, and no `L` in the tail behind them. -/
inductive Scanned : List Char → List Segment → List Char → Prop
  | tail {tail : List Char} (htail : 'L' ∉ tail) : Scanned tail [] tail
  | name {text name rest tail : List Char} {segments : List Segment} (htext : 'L' ∉ text)
      (hname : ';' ∉ name) (hrest : Scanned rest segments tail) :
      Scanned (text ++ 'L' :: (name ++ ';' :: rest)) (⟨text, name⟩ :: segments) tail

/-- The scan of a text comes to an `L` that has no `;` behind it. -/
inductive EndsInName : List Char → Prop
  | here {text name : List Char} (htext : 'L' ∉ text) (hname : ';' ∉ name) :
      EndsInName (text ++ 'L' :: name)
  | behind {text name rest : List Char} (htext : 'L' ∉ text) (hname : ';' ∉ name)
      (hrest : EndsInName rest) : EndsInName (text ++ 'L' :: (name ++ ';' :: rest))

variable {done segments : List Segment} {text name tail xs : List Char}

/-- The scan of every text comes to one of the two ends. -/
theorem scanned_or_endsInName (xs : List Char) :
    (∃ segments tail, Scanned xs segments tail) ∨ EndsInName xs := by
  -- behind a name the rest is shorter than the text
  induction h : xs.length using Nat.strongRecOn generalizing xs with
  | _ n ih =>
    by_cases hL : 'L' ∈ xs
    · obtain ⟨text, behind, rfl, htext⟩ := List.eq_append_cons_of_mem hL
      by_cases hend : ';' ∈ behind
      · obtain ⟨name, rest, rfl, hname⟩ := List.eq_append_cons_of_mem hend
        have hlt : rest.length < n := by
          subst h
          simp only [List.length_append, List.length_cons]
          omega
        obtain ⟨segments, tail, hrest⟩ | hrest := ih _ hlt rest rfl
        · exact .inl ⟨_, tail, .name htext hname hrest⟩
        · exact .inr (.behind htext hname hrest)
      · exact .inr (.here htext hend)
    · exact .inl ⟨[], xs, .tail hL⟩

theorem readText_past (htext : 'L' ∉ text) :
    readText done [] (text ++ 'L' :: xs) = readName done text [] xs := by
  rw [readText_append htext, readText, if_pos rfl, List.append_nil, List.reverse_reverse]

theorem readName_past (hname : ';' ∉ name) :
    readName done text [] (name ++ ';' :: xs) = readText (⟨text, name⟩ :: done) [] xs := by
  rw [readName_append hname, readName, if_pos rfl, List.append_nil, List.reverse_reverse]

theorem readText_of_scanned (h : Scanned xs segments tail) :
    readText done [] xs = some ⟨done.reverse ++ segments, tail⟩ := by
  induction h generalizing done with
  | @tail tail htail =>
    have hread : readText done [] (tail ++ []) = readText done (tail.reverse ++ []) [] :=
      readText_append htail
    rwa [List.append_nil, List.append_nil, readText, List.reverse_reverse,
      ← List.append_nil done.reverse] at hread
  | name htext hname _ ih =>
    rw [readText_past htext, readName_past hname, ih, List.reverse_cons, List.append_assoc,
      List.singleton_append]

theorem readText_of_endsInName (h : EndsInName xs) : readText done [] xs = none := by
  induction h generalizing done with
  | @here text name htext hname =>
    have hread : readName done text [] (name ++ []) = readName done text (name.reverse ++ []) [] :=
      readName_append hname
    rw [List.append_nil, readName] at hread
    rw [readText_past htext, hread]
  | behind htext hname _ ih => rw [readText_past htext, readName_past hname, ih]

theorem ofChars?_eq_some_iff : ofChars? xs = some ⟨segments, tail⟩ ↔ Scanned xs segments tail := by
  constructor
  · intro h
    obtain ⟨segments', tail', hscan⟩ | hend := scanned_or_endsInName xs
    · have hread : ofChars? xs = some ⟨segments', tail'⟩ := readText_of_scanned hscan
      cases hread.symm.trans h
      exact hscan
    · cases (readText_of_endsInName hend).symm.trans h
  · exact readText_of_scanned

theorem ofChars?_eq_none_iff : ofChars? xs = none ↔ EndsInName xs := by
  constructor
  · intro h
    obtain ⟨segments, tail, hscan⟩ | hend := scanned_or_endsInName xs
    · cases (readText_of_scanned hscan).symm.trans h
    · exact hend
  · exact readText_of_endsInName

end Descriptor

namespace Renaming

open Descriptor

variable (r : Renaming)

theorem descriptor_eq_error_iff {text : String} {flaw : Flaw} :
    r.descriptor text = .error flaw ↔
      EndsInName text.toList ∧ flaw = .unterminatedType text := by
  rw [← ofChars?_eq_none_iff, descriptor, Descriptor.parse]
  cases ofChars? text.toList with
  | none =>
    constructor
    · intro h
      exact ⟨rfl, (Except.error.inj h).symm⟩
    · rintro ⟨-, rfl⟩
      rfl
  | some d =>
    constructor
    · intro h
      cases h
    · rintro ⟨h, -⟩
      cases h

theorem descriptor_eq_ok_iff {text text' : String} :
    r.descriptor text = .ok text' ↔ ∃ segments tail, Scanned text.toList segments tail ∧
      text' = (Descriptor.rename r ⟨segments, tail⟩).print := by
  simp only [← ofChars?_eq_some_iff, descriptor, Descriptor.parse]
  cases ofChars? text.toList with
  | none =>
    constructor
    · intro h
      cases h
    · rintro ⟨segments, tail, h, -⟩
      cases h
  | some d =>
    constructor
    · intro h
      exact ⟨d.segments, d.tail, rfl, (Except.ok.inj h).symm⟩
    · rintro ⟨segments, tail, ⟨⟩, rfl⟩
      rfl

end Renaming

/-! ## Descriptors of types -/

/-- The type of a field, or of a parameter or the result of a method. -/
inductive FieldType where
  | base (type : BaseType)
  | object (className : String)
  | array (element : FieldType)

/-- The parameters and the result of a method, which may have none. -/
structure MethodType where
  parameters : List FieldType
  result : Option FieldType

namespace FieldType

def chars : FieldType → List Char
  | .base type => [type.letter]
  | .object className => 'L' :: (className.toList ++ [';'])
  | .array element => '[' :: element.chars

def print (type : FieldType) : String := String.ofList type.chars

def rename (r : Renaming) : FieldType → FieldType
  | .base type => .base type
  | .object className => .object (r.className className)
  | .array element => .array (element.rename r)

/-- The class name, if there is one, does not go on behind the `;` at its end. -/
def NameEnds : FieldType → Prop
  | .base _ => True
  | .object className => ';' ∉ className.toList
  | .array element => element.NameEnds

end FieldType

namespace MethodType

def resultChars : Option FieldType → List Char
  | some type => type.chars
  | none => ['V']

def print (type : MethodType) : String :=
  String.ofList ('(' :: (type.parameters.flatMap FieldType.chars ++ ')' :: resultChars type.result))

def rename (r : Renaming) (type : MethodType) : MethodType where
  parameters := type.parameters.map (FieldType.rename r)
  result := type.result.map (FieldType.rename r)

structure NamesEnd (type : MethodType) : Prop where
  parameters : ∀ parameter ∈ type.parameters, parameter.NameEnds
  result : ∀ result ∈ type.result, result.NameEnds

end MethodType

namespace Descriptor

/-- The characters written for a renamed descriptor of which the rest is not read yet. -/
def writtenSoFar (r : Renaming) (done : List Segment) (text : List Char) : List Char :=
  (Descriptor.rename r ⟨done.reverse, text.reverse⟩).chars

/-- Wherever `old` stands outside a name, reading goes on behind it, and `new` is written for it. -/
def Rewrites (r : Renaming) (old new : List Char) : Prop :=
  ∀ done text, ∃ done' text',
    (∀ rest, readText done text (old ++ rest) = readText done' text' rest) ∧
      writtenSoFar r done' text' = writtenSoFar r done text ++ new

namespace Rewrites

variable {r : Renaming} {old new old' new' : List Char}

theorem nil : Rewrites r [] [] :=
  fun done text => ⟨done, text, fun _ => rfl, (List.append_nil _).symm⟩

theorem append (h : Rewrites r old new) (h' : Rewrites r old' new') :
    Rewrites r (old ++ old') (new ++ new') := by
  intro done text
  obtain ⟨done₁, text₁, hread₁, hnew₁⟩ := h done text
  obtain ⟨done₂, text₂, hread₂, hnew₂⟩ := h' done₁ text₁
  refine ⟨done₂, text₂, fun rest => ?_, ?_⟩
  · rw [List.append_assoc, hread₁, hread₂]
  · rw [hnew₂, hnew₁, List.append_assoc]

theorem letter {c : Char} (hc : c ≠ 'L') : Rewrites r [c] [c] := by
  intro done text
  refine ⟨done, c :: text, fun rest => ?_, ?_⟩
  · rw [List.singleton_append, readText, if_neg hc]
  · simp [writtenSoFar, Descriptor.rename, chars]

theorem className {name : String} (hname : ';' ∉ name.toList) :
    Rewrites r ('L' :: (name.toList ++ [';'])) ('L' :: ((r.className name).toList ++ [';'])) := by
  intro done text
  refine ⟨⟨text.reverse, name.toList⟩ :: done, [], fun rest => ?_, ?_⟩
  · rw [List.cons_append, readText, if_pos rfl, List.append_assoc, List.singleton_append,
      readName_past hname]
  · simp [writtenSoFar, Descriptor.rename, chars, Segment.chars]

theorem fieldType {type : FieldType} (h : type.NameEnds) :
    Rewrites r type.chars (type.rename r).chars := by
  induction type with
  | base type => exact letter (by cases type <;> decide)
  | object name => exact className h
  | array element ih => exact (letter (by decide)).append (ih h)

theorem fieldTypes {types : List FieldType} (h : ∀ type ∈ types, type.NameEnds) :
    Rewrites r (types.flatMap FieldType.chars)
      ((types.map (FieldType.rename r)).flatMap FieldType.chars) := by
  induction types with
  | nil => exact nil
  | cons type types ih =>
    obtain ⟨htype, htypes⟩ := List.forall_mem_cons.mp h
    exact (fieldType htype).append (ih htypes)

theorem result {type : Option FieldType} (h : ∀ result ∈ type, result.NameEnds) :
    Rewrites r (MethodType.resultChars type)
      (MethodType.resultChars (type.map (FieldType.rename r))) := by
  cases type with
  | none => exact letter (by decide)
  | some type => exact fieldType (h type rfl)

theorem methodType {type : MethodType} (h : type.NamesEnd) :
    Rewrites r type.print.toList (type.rename r).print.toList := by
  simp only [MethodType.print, String.toList_ofList]
  exact (letter (by decide)).append ((fieldTypes h.parameters).append
    ((letter (by decide)).append (result h.result)))

/-- A text that is rewritten as a whole is the descriptor of what is written for it. -/
theorem descriptor {text text' : String} (h : Rewrites r text.toList text'.toList) :
    r.descriptor text = .ok text' := by
  obtain ⟨done, rest, hread, hnew⟩ := h [] []
  have hchars : ofChars? text.toList = some ⟨done.reverse, rest.reverse⟩ := by
    rw [ofChars?, ← List.append_nil text.toList, hread, readText]
  refine (Renaming.descriptor_eq_ok_iff r).mpr ⟨_, _, ofChars?_eq_some_iff.mp hchars, ?_⟩
  rw [print]
  change text' = String.ofList (writtenSoFar r done rest)
  rw [hnew]
  exact String.ofList_toList.symm

end Rewrites

end Descriptor

/-! ## Renaming descriptors -/

namespace Renaming

open Descriptor

/-- A descriptor is refused if its scan ends in a name, and else each name that the scan finds is
replaced where it stands; in the descriptor of a type these are the names of its classes. -/
theorem descriptor_scan (r : Renaming) :
    (∀ text flaw, r.descriptor text = .error flaw ↔
      EndsInName text.toList ∧ flaw = .unterminatedType text) ∧
    (∀ text text', r.descriptor text = .ok text' ↔
      ∃ segments tail, Scanned text.toList segments tail ∧
        text' = String.ofList (segments.flatMap (fun s => s.text ++ 'L' ::
          ((r.className (String.ofList s.name)).toList ++ [';'])) ++ tail)) ∧
    (∀ type : FieldType, type.NameEnds → r.descriptor type.print = .ok (type.rename r).print) ∧
    (∀ type : MethodType, type.NamesEnd → r.descriptor type.print = .ok (type.rename r).print) := by
  refine ⟨fun text flaw => r.descriptor_eq_error_iff, fun text text' => ?_, fun type h => ?_,
    fun type h => (Rewrites.methodType h).descriptor⟩
  · have hprint (segments : List Segment) (tail : List Char) :
        (Descriptor.rename r ⟨segments, tail⟩).print = String.ofList (segments.flatMap (fun s =>
          s.text ++ 'L' :: ((r.className (String.ofList s.name)).toList ++ [';'])) ++ tail) := by
      simp [Descriptor.print, Descriptor.rename, chars, Segment.chars, List.flatMap_map]
    simp only [descriptor_eq_ok_iff, hprint]
  · refine Rewrites.descriptor ?_
    simp only [FieldType.print, String.toList_ofList]
    exact Rewrites.fieldType h

/-- Renames the class `A` to `B/L`. -/
def letterRenaming : Renaming :=
  { Renaming.identity with className := fun name => if name = "A" then "B/L" else name }

/-- The type `(ILLA;[[LA;)LA;`, with the classes `LA` and `A`. -/
def letterMethod : MethodType :=
  ⟨[.base .int, .object "LA", .array (.array (.object "A"))], some (.object "A")⟩

theorem descriptor_scan_letterMethod :
    letterMethod.NamesEnd ∧ letterMethod.print = "(ILLA;[[LA;)LA;" ∧
      letterRenaming.descriptor "(ILLA;[[LA;)LA;" = .ok "(ILLA;[[LB/L;)LB/L;" ∧
      (FieldType.array (.object "A")).NameEnds ∧
      letterRenaming.descriptor "[LA;" = .ok "[LB/L;" := by
  have hmethod : letterMethod.NamesEnd := by
    refine ⟨?_, ?_⟩ <;> simp [letterMethod, FieldType.NameEnds]
  have hfield : (FieldType.array (.object "A")).NameEnds := by simp [FieldType.NameEnds]
  have hprint : letterMethod.print = "(ILLA;[[LA;)LA;" := by decide +kernel
  have hprint' : (letterMethod.rename letterRenaming).print = "(ILLA;[[LB/L;)LB/L;" := by
    decide +kernel
  obtain ⟨-, -, hfields, hmethods⟩ := descriptor_scan letterRenaming
  refine ⟨hmethod, hprint, ?_, hfield, hfields _ hfield⟩
  rw [← hprint, ← hprint']
  exact hmethods _ hmethod

end Renaming

end Relabel
