import Relabel.Proofs.Signature.Grammatical
import Relabel.Proofs.Signature.Rename

/-!
# Derivations and trees

The grammar derives a text exactly if a tree of the grammar spells it: each rule puts the trees of
its parts together. A signature is renamed exactly if a legible tree spells it. These are other
trees: empty type arguments are legible, and so are some names that are no identifiers, and after a
parameter without bounds the name of the next one may be taken for a bound.
-/

namespace Relabel

open Scan Signature Form

/-! ## What trees spell is derived -/

namespace Signature.Form

/-- What `write` puts in front of a text is derived from the form. -/
def Writes (f : Form) (write : List Char → List Char) : Prop :=
  ∃ text, f.Derives text ∧ ∀ tail, write tail = text ++ tail

variable {f g : Form} {write write' : List Char → List Char}

theorem writes_char (c : Char) : (char c).Writes (c :: ·) :=
  ⟨[c], .oneOf (List.mem_singleton_self c), fun _ => rfl⟩

theorem writes_identifier {name : String} (h : IsIdentifier name) :
    identifier.Writes (name.toList ++ ·) := ⟨_, .identifier h, fun _ => rfl⟩

theorem writes_rule (n : Nonterminal) (h : n.form.Writes write) : (rule n).Writes write := by
  obtain ⟨text, htext, hwrite⟩ := h
  exact ⟨text, .rule htext, hwrite⟩

theorem Writes.append (hf : f.Writes write) (hg : g.Writes write') :
    (f ++ g).Writes fun tail => write (write' tail) := by
  obtain ⟨text, htext, hwrite⟩ := hf
  obtain ⟨text', htext', hwrite'⟩ := hg
  exact ⟨text ++ text', .seq htext htext', fun tail => by simp only [hwrite, hwrite',
    List.append_assoc]⟩

theorem Writes.left (h : f.Writes write) : (f.or g).Writes write := by
  obtain ⟨text, htext, hwrite⟩ := h
  exact ⟨text, .left htext, hwrite⟩

theorem Writes.right (h : g.Writes write) : (f.or g).Writes write := by
  obtain ⟨text, htext, hwrite⟩ := h
  exact ⟨text, .right htext, hwrite⟩

theorem writes_absent : (optional f).Writes id := ⟨[], .absent, fun _ => rfl⟩

theorem Writes.present (h : f.Writes write) : (optional f).Writes write := by
  obtain ⟨text, htext, hwrite⟩ := h
  exact ⟨text, .present htext, hwrite⟩

theorem writes_many {α : Type} {write : α → List Char → List Char} {as : List α}
    (h : ∀ a ∈ as, f.Writes (write a)) : (many f).Writes (as.foldr write ·) := by
  induction as with
  | nil => exact ⟨[], .nil, fun _ => rfl⟩
  | cons a as ih =>
    obtain ⟨ha, has⟩ := List.forall_mem_cons.mp h
    obtain ⟨text, htext, hwrite⟩ := ha
    obtain ⟨text', htext', hwrite'⟩ := ih has
    refine ⟨text ++ text', .cons htext htext', fun tail => ?_⟩
    simp only [List.foldr_cons, hwrite, hwrite', List.append_assoc]

end Signature.Form

theorem BaseType.letter_mem (b : BaseType) :
    b.letter ∈ ['B', 'C', 'D', 'F', 'I', 'J', 'S', 'Z'] := by
  cases b <;> decide

/-- The packages of a class name, and the name behind them. -/
theorem IsQualified.exists_packages {name : String} (h : IsQualified name) :
    ∃ packages simple, (optional (rule .packageSpecifier)).Derives packages ∧
      IsIdentifier simple ∧ name.toList = packages ++ simple.toList := by
  induction h with
  | @simple name h => exact ⟨[], name, .absent, h, rfl⟩
  | @inPackage package name hpackage _ ih =>
    obtain ⟨packages, simple, hpackages, hsimple, hname⟩ := ih
    have hmany : (many (rule .packageSpecifier)).Derives packages := by
      cases hpackages with
      | absent => exact .nil
      | present h => simpa using Derives.cons h .nil
    have hall : (rule .packageSpecifier).Derives (package.toList ++ ['/'] ++ packages) :=
      .rule (.seq (.seq (.identifier hpackage) (.oneOf List.mem_cons_self)) hmany)
    exact ⟨_, simple, .present hall, hsimple, by simp [hname]⟩

mutual

theorem ReferenceType.writes (type : ReferenceType) (h : type.Grammatical) :
    (rule .referenceType).Writes type.write := by
  match type with
  | .object type => exact writes_rule .referenceType (ClassType.writes type h).left
  | .variable name =>
    have hname := ((writes_char 'T').append (writes_identifier h)).append (writes_char ';')
    exact writes_rule .referenceType (writes_rule .typeVariable hname).left.right
  | .array element =>
    have helement := (writes_char '[').append (JavaType.writes element h)
    exact writes_rule .referenceType (writes_rule .arrayType helement).right.right

theorem JavaType.writes (type : JavaType) (h : type.Grammatical) :
    (rule .javaType).Writes type.write := by
  match type with
  | .base type =>
    have hletter : (oneOf _).Writes (type.letter :: ·) :=
      ⟨[type.letter], .oneOf type.letter_mem, fun _ => rfl⟩
    exact writes_rule .javaType (writes_rule .baseType hletter).right
  | .reference type => exact writes_rule .javaType (ReferenceType.writes type h).left

theorem ClassType.writes (type : ClassType) (h : type.Grammatical) :
    (rule .classType).Writes type.write := by
  match type with
  | .of name parts =>
    obtain ⟨packages, simple, hpackages, hsimple, hname⟩ := h.1.exists_packages
    obtain ⟨arguments, suffixes, harguments, hsuffixes, -, hwrite⟩ := derives_parts parts h.2
    have hclass : (rule .simpleClassType).Derives (simple.toList ++ arguments) :=
      .rule (.seq (.identifier hsimple) harguments)
    have hchar : ∀ c, (char c).Derives [c] := fun c => .oneOf List.mem_cons_self
    refine ⟨_, .rule (.seq (.seq (.seq (.seq (hchar 'L') hpackages) hclass) hsuffixes)
      (hchar ';')), fun tail => ?_⟩
    simp [ClassType.write, hname, hwrite]

/-- Type arguments, if there are any, and inner classes. -/
theorem derives_parts {behindName : Bool} (parts : List ClassPart)
    (h : GrammaticalParts behindName parts) : ∃ arguments suffixes,
      (optional (rule .typeArguments)).Derives arguments ∧
      (many (rule .classTypeSuffix)).Derives suffixes ∧ (behindName = false → arguments = []) ∧
      ∀ tail, writeParts parts tail = arguments ++ (suffixes ++ tail) := by
  match parts with
  | [] => exact ⟨[], [], .absent, .nil, fun _ => rfl, fun _ => rfl⟩
  | .arguments arguments :: parts =>
    obtain ⟨rfl, hne, harguments, hparts⟩ := h
    obtain ⟨_, suffixes, -, hsuffixes, hnil, hwrite⟩ := derives_parts parts hparts
    obtain ⟨text, htext, hwrite'⟩ := writes_arguments arguments harguments hne
    obtain rfl := hnil rfl
    refine ⟨_, suffixes, .present htext, hsuffixes, nofun, fun tail => ?_⟩
    rw [writeParts, hwrite', hwrite, List.nil_append]
  | .inner name :: parts =>
    obtain ⟨arguments, suffixes, harguments, hsuffixes, -, hwrite⟩ := derives_parts parts h.2
    have hclass : (rule .simpleClassType).Derives (name.toList ++ arguments) :=
      .rule (.seq (.identifier h.1) harguments)
    have hsuffix : (rule .classTypeSuffix).Derives (['.'] ++ (name.toList ++ arguments)) :=
      .rule (.seq (.oneOf List.mem_cons_self) hclass)
    refine ⟨[], _, .absent, .cons hsuffix hsuffixes, fun _ => rfl, fun tail => ?_⟩
    simp [writeParts, ClassPart.write, hwrite]

theorem writes_arguments (arguments : List TypeArgument) (h : GrammaticalArguments arguments)
    (hne : arguments ≠ []) :
    (rule .typeArguments).Writes (ClassPart.write (.arguments arguments)) := by
  match arguments with
  | argument :: arguments =>
    have hfirst := TypeArgument.writes argument h.1
    have hothers := writes_otherArguments arguments h.2
    exact writes_rule .typeArguments <|
      (((writes_char '<').append hfirst).append hothers).append (writes_char '>')

theorem writes_otherArguments (arguments : List TypeArgument) (h : GrammaticalArguments arguments) :
    (many (rule .typeArgument)).Writes (writeArguments arguments) := by
  match arguments with
  | [] => exact ⟨[], .nil, fun _ => rfl⟩
  | argument :: arguments =>
    obtain ⟨text, htext, hwrite⟩ := TypeArgument.writes argument h.1
    obtain ⟨text', htext', hwrite'⟩ := writes_otherArguments arguments h.2
    refine ⟨_, .cons htext htext', fun tail => ?_⟩
    rw [writeArguments, hwrite, hwrite', List.append_assoc]

theorem TypeArgument.writes (argument : TypeArgument) (h : argument.Grammatical) :
    (rule .typeArgument).Writes argument.write := by
  match argument with
  | .any => exact writes_rule .typeArgument (writes_char '*').right
  | .exact type =>
    exact writes_rule .typeArgument (writes_absent.append (ReferenceType.writes type h)).left
  | .upper type =>
    have hplus : (oneOf ['+', '-']).Writes ('+' :: ·) :=
      ⟨['+'], .oneOf List.mem_cons_self, fun _ => rfl⟩
    have hwildcard := (writes_rule .wildcardIndicator hplus).present
    exact writes_rule .typeArgument (hwildcard.append (ReferenceType.writes type h)).left
  | .lower type =>
    have hminus : (oneOf ['+', '-']).Writes ('-' :: ·) :=
      ⟨['-'], .oneOf (by decide), fun _ => rfl⟩
    have hwildcard := (writes_rule .wildcardIndicator hminus).present
    exact writes_rule .typeArgument (hwildcard.append (ReferenceType.writes type h)).left

end

theorem writes_variable {name : String} (h : IsIdentifier name) :
    (rule .typeVariable).Writes fun tail => 'T' :: (name.toList ++ ';' :: tail) :=
  writes_rule .typeVariable (((writes_char 'T').append (writes_identifier h)).append
    (writes_char ';'))

theorem TypeParameter.writes (p : TypeParameter) (h : p.Grammatical) :
    (rule .typeParameter).Writes p.write := by
  obtain ⟨name, classBound, bounds⟩ := p
  have hbounds : (many (rule .interfaceBound)).Writes (bounds.foldr writeBound ·) :=
    writes_many fun type htype => writes_rule .interfaceBound <|
      (writes_char ':').append (type.writes (h.interfaceBounds type htype))
  have hwrites {bound : List Char → List Char}
      (hbound : (optional (rule .referenceType)).Writes bound) :
      (rule .typeParameter).Writes fun tail =>
        name.toList ++ ':' :: bound (bounds.foldr writeBound tail) :=
    writes_rule .typeParameter <| ((writes_identifier h.name).append
      (writes_rule .classBound ((writes_char ':').append hbound))).append hbounds
  cases classBound with
  | none => exact hwrites writes_absent
  | some type => exact hwrites (type.writes (h.classBound type rfl)).present

theorem writes_parameters {parameters : List TypeParameter} (h : ∀ p ∈ parameters, p.Grammatical) :
    (optional (rule .typeParameters)).Writes (writeParameters parameters) := by
  cases parameters with
  | nil => exact writes_absent
  | cons p parameters =>
    obtain ⟨hp, hparameters⟩ := List.forall_mem_cons.mp h
    have hothers := writes_many fun q hq => TypeParameter.writes q (hparameters q hq)
    exact (writes_rule .typeParameters <|
      (((writes_char '<').append (p.writes hp)).append hothers).append (writes_char '>')).present

theorem ThrownType.writes (type : ThrownType) (h : type.Grammatical) :
    (rule .throwsSignature).Writes type.write := by
  match type with
  | .object type =>
    exact writes_rule .throwsSignature ((writes_char '^').append (type.writes h)).left
  | .variable name =>
    exact writes_rule .throwsSignature ((writes_char '^').append (writes_variable h)).right

theorem writes_result {result : Option JavaType} (h : ∀ type ∈ result, type.Grammatical) :
    (rule .result).Writes (writeResult result) := by
  cases result with
  | none => exact writes_rule .result (writes_char 'V').right
  | some type => exact writes_rule .result (type.writes (h type rfl)).left

namespace Signature

theorem derives_of_writes {n : Nonterminal} {write : List Char → List Char}
    (h : (rule n).Writes write) : (rule n).Derives (write []) := by
  obtain ⟨text, htext, hwrite⟩ := h
  rwa [hwrite, List.append_nil]

/-- What a tree of the grammar spells is derived. -/
theorem Grammatical.derives {kind : SymbolKind} {s : Signature} (h : s.Grammatical kind) :
    Derives kind s.print := by
  rw [Derives, print, String.toList_ofList]
  fun_cases Signature.Grammatical kind s
  case case1 parameters superclass interfaces =>
    obtain ⟨hparameters, hsuperclass, hinterfaces⟩ := h
    have htypes := writes_many fun type htype => ClassType.writes type (hinterfaces type htype)
    exact derives_of_writes <| writes_rule .classSignature <|
      ((writes_parameters hparameters).append (superclass.writes hsuperclass)).append htypes
  case case2 parameters arguments result thrown =>
    obtain ⟨hparameters, harguments, hresult, hthrown⟩ := h
    have htypes := writes_many fun type htype => JavaType.writes type (harguments type htype)
    have hlast := writes_many fun type htype => ThrownType.writes type (hthrown type htype)
    exact derives_of_writes <| writes_rule .methodSignature <|
      (((((writes_parameters hparameters).append (writes_char '(')).append htypes).append
        (writes_char ')')).append (writes_result hresult)).append hlast
  case case3 type =>
    exact derives_of_writes (writes_rule .fieldSignature (type.writes h))
  case case4 =>
    simp_all [Grammatical]

end Signature

/-! ## What is derived is spelled by a tree -/

/-- The text is that of an item for which `P` holds. -/
def Spelled {α : Type} (P : α → Prop) (write : α → List Char → List Char) (text : List Char) :
    Prop := ∃ a, P a ∧ ∀ tail, write a tail = text ++ tail

/-- Texts of items in a row are the text of the row. -/
theorem exists_row {α : Type} {P : α → Prop} {write : α → List Char → List Char}
    {texts : List (List Char)} (h : ∀ text ∈ texts, Spelled P write text) :
    ∃ as : List α, (∀ a ∈ as, P a) ∧ ∀ tail, as.foldr write tail = texts.flatten ++ tail := by
  induction texts with
  | nil => exact ⟨[], List.forall_mem_nil _, fun _ => rfl⟩
  | cons text texts ih =>
    obtain ⟨⟨a, ha, hwrite⟩, htexts⟩ := List.forall_mem_cons.mp h
    obtain ⟨as, has, hrow⟩ := ih htexts
    refine ⟨a :: as, List.forall_mem_cons.mpr ⟨ha, has⟩, fun tail => ?_⟩
    rw [List.foldr_cons, hrow, hwrite, List.flatten_cons, List.append_assoc]

theorem writeParts_append (parts parts' : List ClassPart) (tail : List Char) :
    writeParts (parts ++ parts') tail = writeParts parts (writeParts parts' tail) := by
  simp only [writeParts_eq, List.foldr_append]

namespace Signature

/-- The text is spelled by a tree that the rule stands for. -/
def HasTree : Nonterminal → List Char → Prop
  | .javaType => Spelled JavaType.Grammatical JavaType.write
  | .baseType => Spelled (fun _ => True) fun (type : BaseType) tail => type.letter :: tail
  | .referenceType => Spelled ReferenceType.Grammatical ReferenceType.write
  | .typeVariable => Spelled IsIdentifier fun name tail => 'T' :: (name.toList ++ ';' :: tail)
  | .arrayType => Spelled JavaType.Grammatical fun element tail => '[' :: element.write tail
  | .classType => Spelled ClassType.Grammatical ClassType.write
  | .packageSpecifier => fun text => ∀ name, IsQualified name →
      ∃ name', IsQualified name' ∧ name'.toList = text ++ name.toList
  | .simpleClassType => fun text => ∃ name parts, IsIdentifier name ∧
      (∀ others, GrammaticalParts false others → GrammaticalParts true (parts ++ others)) ∧
      ∀ tail, name.toList ++ writeParts parts tail = text ++ tail
  | .classTypeSuffix => Spelled (fun parts => ∀ others, GrammaticalParts false others →
      GrammaticalParts false (parts ++ others)) writeParts
  | .typeArguments => Spelled (fun arguments => arguments ≠ [] ∧ GrammaticalArguments arguments)
      fun arguments => ClassPart.write (.arguments arguments)
  | .typeArgument => Spelled TypeArgument.Grammatical TypeArgument.write
  | .wildcardIndicator => fun text => text = ['+'] ∨ text = ['-']
  | .typeParameters => Spelled (fun parameters => ∀ p ∈ parameters, p.Grammatical) writeParameters
  | .typeParameter => Spelled TypeParameter.Grammatical TypeParameter.write
  | .classBound => Spelled (fun bound => ∀ type ∈ bound, type.Grammatical)
      fun (bound : Option ReferenceType) tail => ':' :: bound.elim tail (·.write tail)
  | .interfaceBound => Spelled ReferenceType.Grammatical writeBound
  | .result => Spelled (fun result => ∀ type ∈ result, type.Grammatical) writeResult
  | .throwsSignature => Spelled ThrownType.Grammatical ThrownType.write
  | .classSignature => fun text => ∃ s : Signature, s.Grammatical .ofClass ∧ s.chars = text
  | .methodSignature => fun text => ∃ s : Signature, s.Grammatical .ofMethod ∧ s.chars = text
  | .fieldSignature => fun text => ∃ s : Signature, s.Grammatical .ofField ∧ s.chars = text

theorem fits_char {P : Nonterminal → List Char → Prop} {c : Char} {text : List Char} :
    (char c).Fits P text ↔ text = [c] := by
  simp [char, Fits]

theorem spelled_javaType {text : List Char} (h : Nonterminal.javaType.form.Fits HasTree text) :
    HasTree .javaType text := by
  obtain ⟨type, htype, hwrite⟩ | ⟨type, -, hwrite⟩ := h
  · exact ⟨.reference type, htype, hwrite⟩
  · exact ⟨.base type, trivial, hwrite⟩

theorem spelled_baseType {text : List Char} (h : Nonterminal.baseType.form.Fits HasTree text) :
    HasTree .baseType text := by
  obtain ⟨c, hc, rfl⟩ := h
  have hletter : ∃ type : BaseType, type.letter = c := by
    simp only [List.mem_cons, List.not_mem_nil, or_false] at hc
    rcases hc with rfl | rfl | rfl | rfl | rfl | rfl | rfl | rfl
    exacts [⟨.byte, rfl⟩, ⟨.char, rfl⟩, ⟨.double, rfl⟩, ⟨.float, rfl⟩, ⟨.int, rfl⟩, ⟨.long, rfl⟩,
      ⟨.short, rfl⟩, ⟨.boolean, rfl⟩]
  obtain ⟨type, rfl⟩ := hletter
  exact ⟨type, trivial, fun _ => rfl⟩

theorem spelled_referenceType {text : List Char}
    (h : Nonterminal.referenceType.form.Fits HasTree text) : HasTree .referenceType text := by
  obtain ⟨type, htype, hwrite⟩ | ⟨name, hname, hwrite⟩ | ⟨element, helement, hwrite⟩ := h
  · exact ⟨.object type, htype, hwrite⟩
  · exact ⟨.variable name, hname, hwrite⟩
  · exact ⟨.array element, helement, hwrite⟩

theorem spelled_typeVariable {text : List Char}
    (h : Nonterminal.typeVariable.form.Fits HasTree text) : HasTree .typeVariable text := by
  obtain ⟨_, _, rfl, ⟨_, _, rfl, hT, name, hname, rfl⟩, hend⟩ := h
  obtain rfl := fits_char.mp hT
  obtain rfl := fits_char.mp hend
  exact ⟨name, hname, fun tail => by simp⟩

/-- A class name may stand behind several names of packages. -/
theorem exists_qualified {texts : List (List Char)} {name : String} (hname : IsQualified name)
    (h : ∀ text ∈ texts, HasTree .packageSpecifier text) :
    ∃ name', IsQualified name' ∧ name'.toList = texts.flatten ++ name.toList := by
  induction texts with
  | nil => exact ⟨name, hname, rfl⟩
  | cons text texts ih =>
    obtain ⟨htext, htexts⟩ := List.forall_mem_cons.mp h
    obtain ⟨name', hname', hchars⟩ := ih htexts
    obtain ⟨name'', hname'', hchars'⟩ := htext name' hname'
    exact ⟨name'', hname'', by simp [hchars', hchars]⟩

theorem spelled_packageSpecifier {text : List Char}
    (h : Nonterminal.packageSpecifier.form.Fits HasTree text) :
    HasTree .packageSpecifier text := by
  obtain ⟨_, _, rfl, ⟨_, _, rfl, ⟨package, hpackage, rfl⟩, hslash⟩, texts, rfl, htexts⟩ := h
  obtain rfl := fits_char.mp hslash
  intro name hname
  obtain ⟨name', hname', hchars⟩ := exists_qualified hname htexts
  exact ⟨_, .inPackage hpackage hname', by simp [hchars]⟩

theorem spelled_simpleClassType {text : List Char}
    (h : Nonterminal.simpleClassType.form.Fits HasTree text) : HasTree .simpleClassType text := by
  obtain ⟨_, _, rfl, ⟨name, hname, rfl⟩, rfl | ⟨arguments, ⟨hne, harguments⟩, hwrite⟩⟩ := h
  · refine ⟨name, [], hname, fun others hothers => ?_, fun tail => by simp [writeParts]⟩
    match others with
    | [] => trivial
    | .inner _ :: _ => exact hothers
  · refine ⟨name, [.arguments arguments], hname, fun others hothers => ?_, fun tail => ?_⟩
    · exact ⟨rfl, hne, harguments, hothers⟩
    · simp only [writeParts, hwrite, List.append_assoc]

theorem spelled_classTypeSuffix {text : List Char}
    (h : Nonterminal.classTypeSuffix.form.Fits HasTree text) : HasTree .classTypeSuffix text := by
  obtain ⟨_, _, rfl, hdot, name, parts, hname, hparts, hwrite⟩ := h
  obtain rfl := fits_char.mp hdot
  refine ⟨.inner name :: parts, fun others hothers => ⟨hname, hparts others hothers⟩, ?_⟩
  intro tail
  rw [writeParts, ClassPart.write, hwrite, List.singleton_append, List.cons_append]

theorem exists_inner {texts : List (List Char)}
    (h : ∀ text ∈ texts, HasTree .classTypeSuffix text) : ∃ parts, GrammaticalParts false parts ∧
      ∀ tail, writeParts parts tail = texts.flatten ++ tail := by
  induction texts with
  | nil => exact ⟨[], trivial, fun _ => rfl⟩
  | cons text texts ih =>
    obtain ⟨⟨parts, hparts, hwrite⟩, htexts⟩ := List.forall_mem_cons.mp h
    obtain ⟨others, hothers, hwrite'⟩ := ih htexts
    refine ⟨parts ++ others, hparts others hothers, fun tail => ?_⟩
    rw [writeParts_append, hwrite', hwrite, List.flatten_cons, List.append_assoc]

theorem spelled_classType {text : List Char} (h : Nonterminal.classType.form.Fits HasTree text) :
    HasTree .classType text := by
  obtain ⟨_, _, rfl, ⟨_, texts, rfl, ⟨_, _, rfl, ⟨_, packages, rfl, hL, hpackages⟩,
    name, parts, hname, hparts, hwrite⟩, suffixes, rfl, hsuffixes⟩, hend⟩ := h
  obtain rfl := fits_char.mp hL
  obtain rfl := fits_char.mp hend
  have hqualified : ∃ name', IsQualified name' ∧ name'.toList = packages ++ name.toList := by
    obtain rfl | hpackages := hpackages
    · exact ⟨name, .simple hname, rfl⟩
    · exact hpackages name (.simple hname)
  obtain ⟨name', hname', hchars⟩ := hqualified
  obtain ⟨others, hothers, hwrite'⟩ := exists_inner hsuffixes
  refine ⟨.of name' (parts ++ others), ⟨hname', hparts others hothers⟩, fun tail => ?_⟩
  have hfront := hwrite (suffixes.flatten ++ ';' :: tail)
  rw [ClassType.write, hchars, writeParts_append, hwrite', List.append_assoc, hfront]
  simp

theorem spelled_typeArguments {text : List Char}
    (h : Nonterminal.typeArguments.form.Fits HasTree text) : HasTree .typeArguments text := by
  obtain ⟨_, _, rfl, ⟨_, _, rfl, ⟨_, _, rfl, hopen, argument, hargument, hwrite⟩,
    texts, rfl, htexts⟩, hclose⟩ := h
  obtain rfl := fits_char.mp hopen
  obtain rfl := fits_char.mp hclose
  obtain ⟨arguments, harguments, hrow⟩ := exists_row htexts
  refine ⟨argument :: arguments, ⟨List.cons_ne_nil _ _, hargument, ?_⟩, fun tail => ?_⟩
  · exact grammaticalArguments_iff.mpr harguments
  · simp [ClassPart.write, writeArguments, writeArguments_eq, hrow, hwrite]

theorem spelled_typeArgument {text : List Char}
    (h : Nonterminal.typeArgument.form.Fits HasTree text) : HasTree .typeArgument text := by
  obtain ⟨_, _, rfl, rfl | rfl | rfl, type, htype, hwrite⟩ | hany := h
  · exact ⟨.exact type, htype, hwrite⟩
  · exact ⟨.upper type, htype, fun tail => congrArg ('+' :: ·) (hwrite tail)⟩
  · exact ⟨.lower type, htype, fun tail => congrArg ('-' :: ·) (hwrite tail)⟩
  · obtain rfl := fits_char.mp hany
    exact ⟨.any, trivial, fun _ => rfl⟩

theorem spelled_typeParameters {text : List Char}
    (h : Nonterminal.typeParameters.form.Fits HasTree text) : HasTree .typeParameters text := by
  obtain ⟨_, _, rfl, ⟨_, _, rfl, ⟨_, _, rfl, hopen, p, hp, hwrite⟩, texts, rfl, htexts⟩,
    hclose⟩ := h
  obtain rfl := fits_char.mp hopen
  obtain rfl := fits_char.mp hclose
  obtain ⟨parameters, hparameters, hrow⟩ := exists_row htexts
  refine ⟨p :: parameters, List.forall_mem_cons.mpr ⟨hp, hparameters⟩, fun tail => ?_⟩
  simp [writeParameters, hrow, hwrite]

theorem spelled_typeParameter {text : List Char}
    (h : Nonterminal.typeParameter.form.Fits HasTree text) : HasTree .typeParameter text := by
  obtain ⟨_, _, rfl, ⟨_, _, rfl, ⟨name, hname, rfl⟩, bound, hbound, hwrite⟩,
    texts, rfl, htexts⟩ := h
  obtain ⟨bounds, hbounds, hrow⟩ := exists_row htexts
  refine ⟨⟨name, bound, bounds⟩, ⟨hname, hbound, hbounds⟩, fun tail => ?_⟩
  have hbehind := hwrite (bounds.foldr writeBound tail)
  rw [List.append_assoc, List.append_assoc, ← hrow tail, ← hbehind]
  cases bound <;> rfl

theorem spelled_classBound {text : List Char} (h : Nonterminal.classBound.form.Fits HasTree text) :
    HasTree .classBound text := by
  obtain ⟨_, _, rfl, hcolon, rfl | ⟨type, htype, hwrite⟩⟩ := h
  · obtain rfl := fits_char.mp hcolon
    exact ⟨none, nofun, fun _ => rfl⟩
  · obtain rfl := fits_char.mp hcolon
    exact ⟨some type, by simpa using htype, fun tail => congrArg (':' :: ·) (hwrite tail)⟩

theorem spelled_result {text : List Char} (h : Nonterminal.result.form.Fits HasTree text) :
    HasTree .result text := by
  obtain ⟨type, htype, hwrite⟩ | hvoid := h
  · exact ⟨some type, by simpa using htype, hwrite⟩
  · obtain rfl := fits_char.mp hvoid
    exact ⟨none, nofun, fun _ => rfl⟩

theorem spelled_throwsSignature {text : List Char}
    (h : Nonterminal.throwsSignature.form.Fits HasTree text) : HasTree .throwsSignature text := by
  obtain ⟨_, _, rfl, hcaret, type, htype, hwrite⟩ | ⟨_, _, rfl, hcaret, name, hname, hwrite⟩ := h
  · obtain rfl := fits_char.mp hcaret
    exact ⟨.object type, htype, fun tail => congrArg ('^' :: ·) (hwrite tail)⟩
  · obtain rfl := fits_char.mp hcaret
    exact ⟨.variable name, hname, fun tail => congrArg ('^' :: ·) (hwrite tail)⟩

/-- Type parameters in front of a signature, which may be missing. -/
theorem exists_parameters {text : List Char}
    (h : (optional (rule .typeParameters)).Fits HasTree text) :
    Spelled (fun parameters => ∀ p ∈ parameters, p.Grammatical) writeParameters text := by
  obtain rfl | h := h
  · exact ⟨[], List.forall_mem_nil _, fun _ => rfl⟩
  · exact h

theorem spelled_classSignature {text : List Char}
    (h : Nonterminal.classSignature.form.Fits HasTree text) : HasTree .classSignature text := by
  obtain ⟨_, _, rfl, ⟨_, _, rfl, hparameters, superclass, hsuperclass, hwrite⟩,
    texts, rfl, htexts⟩ := h
  obtain ⟨parameters, hparameters, hwrite'⟩ := exists_parameters hparameters
  obtain ⟨interfaces, hinterfaces, hrow⟩ := exists_row htexts
  refine ⟨.ofClass parameters superclass interfaces, ⟨hparameters, hsuperclass, hinterfaces⟩, ?_⟩
  simp [chars, hrow, hwrite, hwrite']

theorem spelled_methodSignature {text : List Char}
    (h : Nonterminal.methodSignature.form.Fits HasTree text) : HasTree .methodSignature text := by
  obtain ⟨_, _, rfl, ⟨_, _, rfl, ⟨_, _, rfl, ⟨_, _, rfl, ⟨_, _, rfl, hparameters, hopen⟩,
    texts, rfl, htexts⟩, hclose⟩, result, hresult, hwrite⟩, texts', rfl, htexts'⟩ := h
  obtain rfl := fits_char.mp hopen
  obtain rfl := fits_char.mp hclose
  obtain ⟨parameters, hparameters, hwrite'⟩ := exists_parameters hparameters
  obtain ⟨arguments, harguments, hrow⟩ := exists_row htexts
  obtain ⟨thrown, hthrown, hrow'⟩ := exists_row htexts'
  refine ⟨.ofMethod parameters arguments result thrown,
    ⟨hparameters, harguments, hresult, hthrown⟩, ?_⟩
  simp [chars, hrow, hrow', hwrite, hwrite']

theorem spelled_fieldSignature {text : List Char}
    (h : Nonterminal.fieldSignature.form.Fits HasTree text) : HasTree .fieldSignature text := by
  obtain ⟨type, htype, hwrite⟩ := h
  exact ⟨.ofField type, htype, (hwrite []).trans (List.append_nil text)⟩

/-- Each rule puts trees together. -/
theorem hasTree_of_fits (n : Nonterminal) (text : List Char) (h : n.form.Fits HasTree text) :
    HasTree n text := by
  cases n with
  | javaType => exact spelled_javaType h
  | baseType => exact spelled_baseType h
  | referenceType => exact spelled_referenceType h
  | typeVariable => exact spelled_typeVariable h
  | arrayType =>
    obtain ⟨_, _, rfl, hopen, element, helement, hwrite⟩ := h
    obtain rfl := fits_char.mp hopen
    exact ⟨element, helement, fun tail => congrArg ('[' :: ·) (hwrite tail)⟩
  | classType => exact spelled_classType h
  | packageSpecifier => exact spelled_packageSpecifier h
  | simpleClassType => exact spelled_simpleClassType h
  | classTypeSuffix => exact spelled_classTypeSuffix h
  | typeArguments => exact spelled_typeArguments h
  | typeArgument => exact spelled_typeArgument h
  | wildcardIndicator =>
    obtain ⟨c, hc, rfl⟩ := h
    simpa [HasTree] using hc
  | typeParameters => exact spelled_typeParameters h
  | typeParameter => exact spelled_typeParameter h
  | classBound => exact spelled_classBound h
  | interfaceBound =>
    obtain ⟨_, _, rfl, hcolon, type, htype, hwrite⟩ := h
    obtain rfl := fits_char.mp hcolon
    exact ⟨type, htype, fun tail => congrArg (':' :: ·) (hwrite tail)⟩
  | classSignature => exact spelled_classSignature h
  | methodSignature => exact spelled_methodSignature h
  | result => exact spelled_result h
  | throwsSignature => exact spelled_throwsSignature h
  | fieldSignature => exact spelled_fieldSignature h

/-- The grammar derives what its trees spell. -/
theorem derives_iff {kind : SymbolKind} {text : String} :
    Derives kind text ↔ ∃ s : Signature, s.Grammatical kind ∧ s.print = text := by
  constructor
  · intro h
    have htree : HasTree (Nonterminal.ofKind kind) text.toList := Derives.fits hasTree_of_fits h
    obtain ⟨s, hs, hchars⟩ : ∃ s : Signature, s.Grammatical kind ∧ s.chars = text.toList := by
      cases kind <;> exact htree
    exact ⟨s, hs, by rw [print, hchars, String.ofList_toList]⟩
  · rintro ⟨s, hs, rfl⟩
    exact hs.derives

/-! ## Acceptance -/

end Signature

/-- A signature is renamed exactly if a legible tree spells it, and derived exactly if a tree of the
grammar does. A tree of the grammar is legible exactly if its bounds show. -/
theorem Renaming.exists_signature_iff (r : Renaming) (kind : SymbolKind) (text : String) :
    ((∃ text', r.signature kind text = .ok text') ↔
        ∃ s : Signature, s.Legible kind ∧ s.print = text) ∧
      (Derives kind text ↔ ∃ s : Signature, s.Grammatical kind ∧ s.print = text) ∧
      ∀ s : Signature, s.Grammatical kind ∧ s.Legible kind ↔ s.Grammatical kind ∧ s.BoundsShow := by
  refine ⟨?_, derives_iff, fun s => and_congr_right Grammatical.legible_iff⟩
  constructor
  · rintro ⟨text', h⟩
    obtain ⟨s, hparse, -⟩ := signature_eq_ok_iff.mp h
    obtain ⟨hprint, hlegible⟩ := parse_eq_ok hparse
    exact ⟨s, hlegible, hprint⟩
  · rintro ⟨s, hlegible, rfl⟩
    exact ⟨_, signature_eq_ok_iff.mpr ⟨s, parse_print hlegible, rfl⟩⟩

/-- Type arguments that are empty are not derived. -/
theorem Signature.not_derives_emptyArguments : ¬ Derives .ofField "LA<>;" := by
  intro h
  obtain ⟨s, hs, hprint⟩ := derives_iff.mp h
  have hA : IsClassName "A" := by decide +kernel
  have hlegible : (Signature.ofField (.object (.of "A" [.arguments []]))).Legible .ofField :=
    ⟨hA, trivial, trivial⟩
  have hshow : s.BoundsShow := by
    match s, hs with
    | .ofField _, _ => exact List.isChain_nil
  have hsame := print_inj (hs.legible_iff.mpr hshow) hlegible
  obtain rfl := hsame.mp (hprint.trans (by decide +kernel))
  obtain ⟨-, -, hne, -⟩ := hs
  exact hne rfl

/-- The name `TB` stands behind the parameter `A`, which has no bounds. -/
theorem Signature.derives_hiddenBound : Derives .ofClass "<A:TB:>LC;" := by
  have hA : IsIdentifier "A" := by decide +kernel
  have hTB : IsIdentifier "TB" := by decide +kernel
  have hC : IsQualified "C" := .simple (by decide +kernel)
  refine derives_iff.mpr ⟨.ofClass [⟨"A", none, []⟩, ⟨"TB", none, []⟩] (.of "C" []) [], ?_, ?_⟩
  · exact ⟨List.forall_mem_cons.mpr ⟨⟨hA, nofun, nofun⟩, List.forall_mem_singleton.mpr
      ⟨hTB, nofun, nofun⟩⟩, ⟨hC, trivial⟩, nofun⟩
  · decide +kernel

/-- The text `LA<>;` is renamed and not derived, the text `<A:TB:>LC;` derived and not renamed. -/
theorem Renaming.signature_emptyArguments_hiddenBound :
    (identity.signature .ofField "LA<>;" = .ok "LA<>;" ∧ ¬ Derives .ofField "LA<>;") ∧
      identity.signature .ofClass "<A:TB:>LC;" = .error (.signature "<A:TB:>LC;" .unexpectedEnd) ∧
      Derives .ofClass "<A:TB:>LC;" := by
  have hrenamed : identity.signature .ofField "LA<>;" = .ok "LA<>;" := by decide +kernel
  have hflaw : identity.signature .ofClass "<A:TB:>LC;"
      = .error (.signature "<A:TB:>LC;" .unexpectedEnd) := by decide +kernel
  exact ⟨⟨hrenamed, not_derives_emptyArguments⟩, hflaw, derives_hiddenBound⟩

end Relabel
