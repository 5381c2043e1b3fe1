import Relabel.Proofs.Signature.Scanner
import Relabel.Symbol

/-!
# The grammar of generic signatures

The grammar that class files give for signatures, as a table of rules, and the texts that
a rule derives. A property of texts that every rule passes on holds of all that is derived.
-/

namespace Relabel.Signature

/-- The characters that no identifier may hold. -/
def isReserved (c : Char) : Bool :=
  c == '.' || c == ';' || c == '[' || c == '/' || c == '<' || c == '>' || c == ':'

abbrev IsIdentifier (name : String) : Prop := Scan.IsName isReserved name

inductive Nonterminal where
  | javaType | baseType | referenceType | typeVariable | arrayType
  | classType | packageSpecifier | simpleClassType | classTypeSuffix
  | typeArguments | typeArgument | wildcardIndicator
  | typeParameters | typeParameter | classBound | interfaceBound
  | classSignature | methodSignature | result | throwsSignature | fieldSignature

/-- What may stand on the right of a rule. -/
inductive Form where
  | oneOf (chars : List Char)
  | identifier
  | rule (n : Nonterminal)
  | seq (first second : Form)
  | or (first second : Form)
  | optional (form : Form)
  | many (form : Form)

namespace Form

instance : Append Form := ⟨seq⟩

instance : OrElse Form := ⟨fun first second => first.or (second ())⟩

def char (c : Char) : Form := oneOf [c]

end Form

section

open Form Nonterminal

/-- The rules of the grammar. -/
def Nonterminal.form : Nonterminal → Form
  | javaType => rule referenceType <|> rule baseType
  | baseType => oneOf ['B', 'C', 'D', 'F', 'I', 'J', 'S', 'Z']
  | referenceType => rule classType <|> rule typeVariable <|> rule arrayType
  | typeVariable => char 'T' ++ identifier ++ char ';'
  | arrayType => char '[' ++ rule javaType
  | classType => char 'L' ++ optional (rule packageSpecifier) ++ rule simpleClassType
      ++ many (rule classTypeSuffix) ++ char ';'
  | packageSpecifier => identifier ++ char '/' ++ many (rule packageSpecifier)
  | simpleClassType => identifier ++ optional (rule typeArguments)
  | classTypeSuffix => char '.' ++ rule simpleClassType
  | typeArguments => char '<' ++ rule typeArgument ++ many (rule typeArgument) ++ char '>'
  | typeArgument => optional (rule wildcardIndicator) ++ rule referenceType <|> char '*'
  | wildcardIndicator => oneOf ['+', '-']
  | typeParameters => char '<' ++ rule typeParameter ++ many (rule typeParameter) ++ char '>'
  | typeParameter => identifier ++ rule classBound ++ many (rule interfaceBound)
  | classBound => char ':' ++ optional (rule referenceType)
  | interfaceBound => char ':' ++ rule referenceType
  | classSignature => optional (rule typeParameters) ++ rule classType ++ many (rule classType)
  | methodSignature => optional (rule typeParameters) ++ char '(' ++ many (rule javaType)
      ++ char ')' ++ rule result ++ many (rule throwsSignature)
  | result => rule javaType <|> char 'V'
  | throwsSignature => char '^' ++ rule classType <|> char '^' ++ rule typeVariable
  | fieldSignature => rule referenceType

end

/-- The form derives the text. -/
inductive Form.Derives : Form → List Char → Prop
  | oneOf {chars : List Char} {c : Char} (h : c ∈ chars) : Derives (.oneOf chars) [c]
  | identifier {name : String} (h : IsIdentifier name) : Derives .identifier name.toList
  | rule {n : Nonterminal} {text : List Char} (h : Derives n.form text) : Derives (.rule n) text
  | seq {f g : Form} {text text' : List Char} (hf : Derives f text) (hg : Derives g text') :
      Derives (.seq f g) (text ++ text')
  | left {f g : Form} {text : List Char} (h : Derives f text) : Derives (.or f g) text
  | right {f g : Form} {text : List Char} (h : Derives g text) : Derives (.or f g) text
  | absent {f : Form} : Derives (.optional f) []
  | present {f : Form} {text : List Char} (h : Derives f text) : Derives (.optional f) text
  | nil {f : Form} : Derives (.many f) []
  | cons {f : Form} {text text' : List Char} (hf : Derives f text)
      (hmany : Derives (.many f) text') : Derives (.many f) (text ++ text')

/-- The rule that a signature of the given shape follows. -/
def Nonterminal.ofKind : SymbolKind → Nonterminal
  | .ofClass => .classSignature
  | .ofMethod => .methodSignature
  | .ofField => .fieldSignature

/-- The text follows the grammar for the given shape. -/
def Derives (kind : SymbolKind) (text : String) : Prop :=
  (Form.rule (Nonterminal.ofKind kind)).Derives text.toList

namespace Form

/-- The text has the form, if `P` says which texts the rules give. -/
def Fits (P : Nonterminal → List Char → Prop) : Form → List Char → Prop
  | .oneOf chars, text => ∃ c ∈ chars, text = [c]
  | .identifier, text => ∃ name, IsIdentifier name ∧ text = name.toList
  | .rule n, text => P n text
  | .seq f g, text => ∃ front rest, text = front ++ rest ∧ f.Fits P front ∧ g.Fits P rest
  | .or f g, text => f.Fits P text ∨ g.Fits P text
  | .optional f, text => text = [] ∨ f.Fits P text
  | .many f, text => ∃ texts : List (List Char), text = texts.flatten ∧ ∀ t ∈ texts, f.Fits P t

/-- What every rule passes on holds of all that is derived. -/
theorem Derives.fits {P : Nonterminal → List Char → Prop}
    (hP : ∀ n text, n.form.Fits P text → P n text) {f : Form} {text : List Char}
    (h : f.Derives text) : f.Fits P text := by
  induction h with
  | oneOf hc => exact ⟨_, hc, rfl⟩
  | identifier hname => exact ⟨_, hname, rfl⟩
  | rule _ ih => exact hP _ _ ih
  | seq _ _ ihf ihg => exact ⟨_, _, rfl, ihf, ihg⟩
  | left _ ih => exact .inl ih
  | right _ ih => exact .inr ih
  | absent => exact .inl rfl
  | present _ ih => exact .inr ih
  | nil => exact ⟨[], rfl, List.forall_mem_nil _⟩
  | cons _ _ ihf ihmany =>
    obtain ⟨texts, rfl, htexts⟩ := ihmany
    exact ⟨_ :: texts, rfl, List.forall_mem_cons.mpr ⟨ihf, htexts⟩⟩

end Form

end Relabel.Signature
