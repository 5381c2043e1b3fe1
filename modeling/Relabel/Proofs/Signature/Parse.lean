import Relabel.Proofs.Signature.Legible

/-!
# Legible signatures are parsed

A legible signature is read back from the text that it spells. The bounds of the parser on
lists and nesting are never reached, since each item and each level takes up a character.
So parsing gives exactly the legible signatures that spell the text.
-/

namespace Relabel

open Scan

/-! ## What is written is longer than what stands behind it -/

mutual

theorem ReferenceType.length_write (type : ReferenceType) (tail : List Char) :
    tail.length < (type.write tail).length := by
  match type with
  | .object type => exact type.length_write tail
  | .variable name =>
    simp only [ReferenceType.write, List.length_cons, List.length_append]
    omega
  | .array element =>
    have := element.length_write tail
    simp [ReferenceType.write]
    omega

theorem JavaType.length_write (type : JavaType) (tail : List Char) :
    tail.length < (type.write tail).length := by
  match type with
  | .base type => simp [JavaType.write]
  | .reference type => exact type.length_write tail

theorem ClassType.length_write (type : ClassType) (tail : List Char) :
    tail.length < (type.write tail).length := by
  match type with
  | .of name parts =>
    have := length_writeParts parts (';' :: tail)
    simp [ClassType.write] at this ⊢
    omega

theorem length_writeParts (parts : List ClassPart) (tail : List Char) :
    tail.length + parts.length ≤ (writeParts parts tail).length := by
  match parts with
  | [] => simp [writeParts]
  | part :: parts =>
    have := part.length_write (writeParts parts tail)
    have := length_writeParts parts tail
    simp [writeParts] at this ⊢
    omega

theorem ClassPart.length_write (part : ClassPart) (tail : List Char) :
    tail.length < (part.write tail).length := by
  match part with
  | .arguments arguments =>
    have := length_writeArguments arguments ('>' :: tail)
    simp [ClassPart.write] at this ⊢
    omega
  | .inner name =>
    simp only [ClassPart.write, List.length_cons, List.length_append]
    omega

theorem length_writeArguments (arguments : List TypeArgument) (tail : List Char) :
    tail.length + arguments.length ≤ (writeArguments arguments tail).length := by
  match arguments with
  | [] => simp [writeArguments]
  | argument :: arguments =>
    have := argument.length_write (writeArguments arguments tail)
    have := length_writeArguments arguments tail
    simp [writeArguments] at this ⊢
    omega

theorem TypeArgument.length_write (argument : TypeArgument) (tail : List Char) :
    tail.length < (argument.write tail).length := by
  match argument with
  | .any => simp [TypeArgument.write]
  | .exact type => exact type.length_write tail
  | .upper type | .lower type =>
    have := type.length_write tail
    simp [TypeArgument.write]
    omega

end

/-! ## Types -/

namespace Signature

variable {limit : Nat} {tail : List Char}

theorem accepts_variable {name : String} (hname : IsName (· == ';') name) :
    Accepts scanVariable ('T' :: (name.toList ++ ';' :: tail)) name tail :=
  (accepts_expect 'T' _).bind <| (accepts_identifier hname (startsWith_cons.mpr rfl)).bind <|
    (accepts_expect ';' _).bind (accepts_pure _ _)

theorem accepts_peekIs (p : Char → Bool) (c : Char) (tail : List Char) :
    Accepts (do return p (← peek)) (c :: tail) (p c) (c :: tail) :=
  (accepts_peek c tail).bind (accepts_pure _ _)

theorem accepts_reference_javaType {reference : Scan ReferenceType} {type : ReferenceType}
    (h : Accepts reference (type.write tail) type tail) :
    Accepts (scanJavaType reference) (type.write tail) (.reference type) tail := by
  have hrest : Accepts (do return JavaType.reference (← reference)) (type.write tail)
      (.reference type) tail := h.bind (accepts_pure _ _)
  match type with
  | .object (.of _ _) => exact (accepts_peek 'L' _).bind hrest
  | .variable _ => exact (accepts_peek 'T' _).bind hrest
  | .array _ => exact (accepts_peek '[' _).bind hrest

theorem accepts_exact_argument {reference : Scan ReferenceType} {type : ReferenceType}
    (h : Accepts reference (type.write tail) type tail) :
    Accepts (scanArgument reference) (type.write tail) (.exact type) tail := by
  have hrest : Accepts (do return TypeArgument.exact (← reference)) (type.write tail)
      (.exact type) tail := h.bind (accepts_pure _ _)
  match type with
  | .object (.of _ _) => exact (accepts_peek 'L' _).bind hrest
  | .variable _ => exact (accepts_peek 'T' _).bind hrest
  | .array _ => exact (accepts_peek '[' _).bind hrest

/-- An argument does not start with the closing bracket. -/
theorem accepts_moreArguments (argument : TypeArgument) (tail : List Char) :
    Accepts (do return (← peek) != '>') (argument.write tail) true (argument.write tail) := by
  match argument with
  | .any => exact accepts_peekIs _ '*' _
  | .upper _ => exact accepts_peekIs _ '+' _
  | .lower _ => exact accepts_peekIs _ '-' _
  | .exact (.object (.of _ _)) => exact accepts_peekIs _ 'L' _
  | .exact (.variable _) => exact accepts_peekIs _ 'T' _
  | .exact (.array _) => exact accepts_peekIs _ '[' _

theorem accepts_moreParts (part : ClassPart) (tail : List Char) :
    Accepts (do let c ← peek; return c == '<' || c == '.') (part.write tail) true
      (part.write tail) := by
  match part with
  | .arguments _ => exact accepts_peekIs (fun c => c == '<' || c == '.') '<' _
  | .inner _ => exact accepts_peekIs (fun c => c == '<' || c == '.') '.' _

/-- A name ends where a part follows. -/
theorem startsWith_parts (parts : List ClassPart) (h : StartsWith endsClassName tail) :
    StartsWith endsClassName (writeParts parts tail) := by
  match parts with
  | [] => exact h
  | .arguments _ :: _ => exact startsWith_cons.mpr rfl
  | .inner _ :: _ => exact startsWith_cons.mpr rfl

mutual

theorem accepts_reference (type : ReferenceType) (h : type.Legible) {limit depth : Nat}
    {tail : List Char} (hlimit : (type.write tail).length < limit)
    (hdepth : (type.write tail).length < depth) :
    Accepts (scanReference limit depth) (type.write tail) type tail := by
  obtain ⟨depth, rfl⟩ : ∃ n, depth = n + 1 := Nat.exists_eq_add_one.mpr (Nat.zero_lt_of_lt hdepth)
  match type with
  | .object (.of name parts) =>
    have htype := accepts_classType (.of name parts) h hlimit (Nat.le_of_lt_succ hdepth)
    exact (accepts_peek 'L' _).bind (htype.bind (accepts_pure _ _))
  | .variable name => exact (accepts_peek 'T' _).bind ((accepts_variable h).bind (accepts_pure _ _))
  | .array element =>
    have helement := accepts_javaType element h (Nat.lt_of_succ_lt hlimit)
      (Nat.lt_of_succ_lt_succ hdepth)
    exact (accepts_peek '[' _).bind <| (accepts_expect '[' _).bind <|
      helement.bind (accepts_pure _ _)

theorem accepts_javaType (type : JavaType) (h : type.Legible) {limit depth : Nat}
    {tail : List Char} (hlimit : (type.write tail).length < limit)
    (hdepth : (type.write tail).length < depth) :
    Accepts (scanJavaType (scanReference limit depth)) (type.write tail) type tail := by
  match type with
  | .base type =>
    refine (accepts_peek type.letter tail).bind ?_
    rw [BaseType.ofLetter?_letter]
    exact (accepts_expect _ _).bind (accepts_pure _ _)
  | .reference type => exact accepts_reference_javaType (accepts_reference type h hlimit hdepth)

theorem accepts_classType (type : ClassType) (h : type.Legible) {limit depth : Nat}
    {tail : List Char} (hlimit : (type.write tail).length < limit)
    (hdepth : (type.write tail).length ≤ depth) :
    Accepts (scanClassType limit (scanReference limit depth)) (type.write tail) type tail := by
  match type with
  | .of name parts =>
    obtain ⟨hname, hparts⟩ := h
    have hend : StartsWith endsClassName (';' :: tail) := startsWith_cons.mpr rfl
    have hlength : (writeParts parts (';' :: tail)).length
        < ((ClassType.of name parts).write tail).length := by
      simp only [ClassType.write, List.length_cons, List.length_append]
      omega
    have hcount := length_writeParts parts (';' :: tail)
    have hmany : Accepts (many (do let c ← peek; return c == '<' || c == '.')
        (scanPart limit (scanReference limit depth)) limit) (writeParts parts (';' :: tail)) parts
        (';' :: tail) := by
      rw [writeParts_eq]
      exact accepts_many (by omega) (accepts_peekIs (fun c => c == '<' || c == '.') ';' tail)
        (each_parts parts hparts hend (by omega) (by omega))
    exact (accepts_expect 'L' _).bind <|
      (accepts_identifier hname (startsWith_parts parts hend)).bind <| hmany.bind <|
        (accepts_expect ';' tail).bind (accepts_pure _ _)

theorem each_parts (parts : List ClassPart) (h : LegibleParts parts) {limit depth : Nat}
    {tail : List Char} (hend : StartsWith endsClassName tail)
    (hlimit : (writeParts parts tail).length < limit)
    (hdepth : (writeParts parts tail).length < depth) :
    Each ClassPart.write (fun part tail =>
      Accepts (do let c ← peek; return c == '<' || c == '.') (part.write tail) true
        (part.write tail) ∧
      Accepts (scanPart limit (scanReference limit depth)) (part.write tail) part tail)
      parts tail := by
  match parts with
  | [] => trivial
  | part :: parts =>
    have hlength := part.length_write (writeParts parts tail)
    have hpart := accepts_part part h.1 (startsWith_parts parts hend) hlimit hdepth
    have hparts := each_parts parts h.2 hend (hlength.trans hlimit) (hlength.trans hdepth)
    rw [writeParts_eq] at hpart
    exact ⟨⟨accepts_moreParts part _, hpart⟩, hparts⟩

theorem accepts_part (part : ClassPart) (h : part.Legible) {limit depth : Nat}
    {tail : List Char} (hend : StartsWith endsClassName tail)
    (hlimit : (part.write tail).length < limit)
    (hdepth : (part.write tail).length < depth) :
    Accepts (scanPart limit (scanReference limit depth)) (part.write tail) part tail := by
  match part with
  | .arguments arguments =>
    have hlength : (writeArguments arguments ('>' :: tail)).length
        < ((ClassPart.arguments arguments).write tail).length := Nat.lt_succ_self _
    have hcount := length_writeArguments arguments ('>' :: tail)
    have hmany : Accepts (many (do return (← peek) != '>')
        (scanArgument (scanReference limit depth)) limit) (writeArguments arguments ('>' :: tail))
        arguments ('>' :: tail) := by
      rw [writeArguments_eq]
      exact accepts_many (by omega) (accepts_peekIs (· != '>') '>' tail)
        (each_arguments arguments h (by omega) (by omega))
    exact (accepts_peek '<' _).bind <| (accepts_expect '<' _).bind <| hmany.bind <|
      (accepts_expect '>' tail).bind (accepts_pure _ _)
  | .inner name =>
    exact (accepts_peek '.' _).bind <| (accepts_expect '.' _).bind <|
      (accepts_identifier h hend).bind (accepts_pure _ _)

theorem each_arguments (arguments : List TypeArgument) (h : LegibleArguments arguments)
    {limit depth : Nat} {tail : List Char}
    (hlimit : (writeArguments arguments tail).length < limit)
    (hdepth : (writeArguments arguments tail).length < depth) :
    Each TypeArgument.write (fun argument tail =>
      Accepts (do return (← peek) != '>') (argument.write tail) true (argument.write tail) ∧
      Accepts (scanArgument (scanReference limit depth)) (argument.write tail) argument tail)
      arguments tail := by
  match arguments with
  | [] => trivial
  | argument :: arguments =>
    have hlength := argument.length_write (writeArguments arguments tail)
    have hargument := accepts_argument argument h.1 hlimit hdepth
    have harguments := each_arguments arguments h.2 (hlength.trans hlimit) (hlength.trans hdepth)
    rw [writeArguments_eq] at hargument
    exact ⟨⟨accepts_moreArguments argument _, hargument⟩, harguments⟩

theorem accepts_argument (argument : TypeArgument) (h : argument.Legible) {limit depth : Nat}
    {tail : List Char} (hlimit : (argument.write tail).length < limit)
    (hdepth : (argument.write tail).length < depth) :
    Accepts (scanArgument (scanReference limit depth)) (argument.write tail) argument tail := by
  match argument with
  | .any => exact (accepts_peek '*' _).bind ((accepts_expect '*' _).bind (accepts_pure _ _))
  | .exact type => exact accepts_exact_argument (accepts_reference type h hlimit hdepth)
  | .upper type =>
    have htype := accepts_reference type h (Nat.lt_of_succ_lt hlimit) (Nat.lt_of_succ_lt hdepth)
    exact (accepts_peek '+' _).bind ((accepts_expect '+' _).bind (htype.bind (accepts_pure _ _)))
  | .lower type =>
    have htype := accepts_reference type h (Nat.lt_of_succ_lt hlimit) (Nat.lt_of_succ_lt hdepth)
    exact (accepts_peek '-' _).bind ((accepts_expect '-' _).bind (htype.bind (accepts_pure _ _)))

end

/-! ## Type parameters -/

theorem startsWith_reference (type : ReferenceType) (tail : List Char) :
    StartsWith startsType (type.write tail) := by
  match type with
  | .object (.of _ _) => exact startsWith_cons.mpr rfl
  | .variable _ => exact startsWith_cons.mpr rfl
  | .array _ => exact startsWith_cons.mpr rfl

/-- The text of an interface bound. -/
def writeBound (type : ReferenceType) (tail : List Char) : List Char := ':' :: type.write tail

theorem length_writeBound (type : ReferenceType) (tail : List Char) :
    tail.length < (writeBound type tail).length :=
  (type.length_write tail).trans (Nat.lt_succ_self _)

theorem write_of_bound (name : String) (type : ReferenceType) (bounds : List ReferenceType)
    (tail : List Char) : TypeParameter.write ⟨name, some type, bounds⟩ tail
      = name.toList ++ ':' :: type.write (bounds.foldr writeBound tail) := rfl

theorem write_of_none (name : String) (bounds : List ReferenceType) (tail : List Char) :
    TypeParameter.write ⟨name, none, bounds⟩ tail
      = name.toList ++ ':' :: bounds.foldr writeBound tail := rfl

theorem length_parameter (p : TypeParameter) (tail : List Char) :
    tail.length < (p.write tail).length := by
  obtain ⟨name, classBound, bounds⟩ := p
  have hbounds := length_foldr length_writeBound bounds tail
  cases classBound with
  | none => grind [write_of_none]
  | some type =>
    have htype := type.length_write (bounds.foldr writeBound tail)
    grind [write_of_bound]

theorem accepts_bounds {bounds : List ReferenceType} (h : ∀ type ∈ bounds, type.Legible)
    (hlimit : (bounds.foldr writeBound tail).length < limit)
    (htail : StartsWith (· != ':') tail) :
    Accepts (many (do return (← peek) == ':') (do expect ':'; scanReference limit limit) limit)
      (bounds.foldr writeBound tail) bounds tail := by
  refine accepts_many_of_length length_writeBound hlimit ?_ fun type htype tail hlength => ⟨?_, ?_⟩
  · obtain ⟨c, rest, rfl, hc⟩ := startsWith_iff.mp htail
    have hne : (c == ':') = false := by simpa using hc
    exact hne ▸ accepts_peekIs (· == ':') c rest
  · exact accepts_peekIs (· == ':') ':' _
  · have hshort : (type.write tail).length < limit := Nat.lt_of_succ_lt hlength
    exact (accepts_expect ':' _).bind (accepts_reference type (h type htype) hshort hshort)

/-- Whether a class bound is read depends on the first letter behind the name. -/
theorem accepts_parameter {p : TypeParameter} (h : p.Legible) (hends : p.EndsBefore tail)
    (htail : StartsWith (· != ':') tail) (hlimit : (p.write tail).length < limit) :
    Accepts (scanParameter limit) (p.write tail) p tail := by
  obtain ⟨name, classBound, bounds⟩ := p
  let rest (classBound : Option ReferenceType) : Scan TypeParameter := do
    let interfaceBounds ← many (return (← peek) == ':')
      (do expect ':'; scanReference limit limit) limit
    return ⟨name, classBound, interfaceBounds⟩
  have hrest (hlength : (bounds.foldr writeBound tail).length < limit) :
      Accepts (rest classBound) (bounds.foldr writeBound tail) ⟨name, classBound, bounds⟩ tail :=
    (accepts_bounds h.interfaceBounds hlength htail).bind (accepts_pure _ _)
  have hcolon : ∀ text, StartsWith (· == ':') (':' :: text) := fun _ => startsWith_cons.mpr rfl
  have hname := h.name
  refine (accepts_identifier hname (hcolon _)).bind ((accepts_expect ':' _).bind ?_)
  cases classBound with
  | some type =>
    have hlength : (type.write (bounds.foldr writeBound tail)).length < limit := by
      grind [write_of_bound]
    have htype := accepts_reference type (h.classBound type rfl) hlength hlength
    have hbounds := hrest ((type.length_write _).trans hlength)
    obtain ⟨c, text, hwrite, hc⟩ :=
      startsWith_iff.mp (startsWith_reference type (bounds.foldr writeBound tail))
    have hread := (htype.map some).bind hbounds
    rw [hwrite] at hread
    have hpeek : Accepts (peek >>= fun c => if startsType c
        then (some <$> scanReference limit limit) >>= rest else pure none >>= rest)
        (c :: text) ⟨name, some type, bounds⟩ tail :=
      (accepts_peek c text).bind (by rw [if_pos hc]; exact hread)
    rw [← hwrite] at hpeek
    exact hpeek
  | none =>
    have hlength : (bounds.foldr writeBound tail).length < limit := by grind [write_of_none]
    obtain ⟨c, text, hwrite, hc⟩ :
        ∃ c text, bounds.foldr writeBound tail = c :: text ∧ startsType c = false := by
      cases bounds with
      | nil =>
        obtain ⟨c, text, htext, -⟩ := startsWith_iff.mp htail
        have hc : ¬ StartsWith startsType tail := hends rfl rfl
        rw [htext, startsWith_cons] at hc
        exact ⟨c, text, htext, by simpa using hc⟩
      | cons type bounds => exact ⟨':', _, rfl, rfl⟩
    have hread := (accepts_pure (none : Option ReferenceType) _).bind (hrest hlength)
    rw [hwrite] at hread
    have hpeek : Accepts (peek >>= fun c => if startsType c
        then (some <$> scanReference limit limit) >>= rest else pure none >>= rest)
        (c :: text) ⟨name, none, bounds⟩ tail :=
      (accepts_peek c text).bind (by rw [if_neg (by simp [hc])]; exact hread)
    rw [← hwrite] at hpeek
    exact hpeek

/-- Behind type parameters there is another name or the closing bracket. -/
theorem startsWith_parameters {parameters : List TypeParameter}
    (h : ∀ p ∈ parameters, p.Legible) (tail : List Char) :
    StartsWith (· != ':') (parameters.foldr TypeParameter.write ('>' :: tail)) := by
  cases parameters with
  | nil => exact startsWith_cons.mpr rfl
  | cons p parameters =>
    have hname := (h p List.mem_cons_self).name
    rw [List.foldr_cons, startsWith_write hname.nonempty]
    obtain ⟨c, rest, hrest⟩ := List.exists_cons_of_ne_nil hname.nonempty
    have hc := hname.plain c (by simp [hrest])
    rw [hrest, startsWith_cons]
    simpa using hc

theorem endsBefore_of_isChain {p : TypeParameter} {parameters : List TypeParameter}
    (h : ∀ q ∈ parameters, q.Legible)
    (hchain : (p :: parameters).IsChain fun p q => p.EndsBefore q.name.toList)
    (tail : List Char) : p.EndsBefore (parameters.foldr TypeParameter.write ('>' :: tail)) := by
  cases parameters with
  | nil =>
    intro _ _
    rw [List.foldr_nil, startsWith_cons]
    decide
  | cons q parameters =>
    intro hclass hinterfaces
    rw [List.foldr_cons, startsWith_write (h q List.mem_cons_self).name.nonempty]
    exact (List.isChain_cons_cons.mp hchain).1 hclass hinterfaces

/-- The induction is on the parameters that are left, the first of which is read already. -/
theorem each_parameters {first : TypeParameter} {others : List TypeParameter}
    (h : LegibleParameters (first :: others))
    (hlimit : (others.foldr TypeParameter.write ('>' :: tail)).length < limit) :
    Each TypeParameter.write (fun p tail =>
      Accepts (do return (← peek) != '>') (p.write tail) true (p.write tail) ∧
      Accepts (scanParameter limit) (p.write tail) p tail) others ('>' :: tail) := by
  induction others generalizing first with
  | nil => trivial
  | cons p others ih =>
    obtain ⟨hall, hchain, htail⟩ := h
    have hall := (List.forall_mem_cons.mp hall).2
    obtain ⟨hp, hothers⟩ := List.forall_mem_cons.mp hall
    obtain ⟨hstart, htail⟩ := List.forall_mem_cons.mp htail
    have hchain := (List.isChain_cons_cons.mp hchain).2
    refine ⟨⟨?_, ?_⟩, ih ⟨hall, hchain, htail⟩ ((length_parameter p _).trans hlimit)⟩
    · rw [← startsWith_write hp.name.nonempty _ (others.foldr TypeParameter.write ('>' :: tail))]
        at hstart
      obtain ⟨c, rest, hrest⟩ := List.exists_cons_of_ne_nil (List.ne_nil_of_length_pos
        (Nat.zero_lt_of_lt (length_parameter p (others.foldr TypeParameter.write ('>' :: tail)))))
      rw [hrest, startsWith_cons] at hstart
      have hc : (c != '>') = true := by simpa using hstart
      rw [hrest]
      exact hc ▸ accepts_peekIs (· != '>') c rest
    · exact accepts_parameter hp (endsBefore_of_isChain hothers hchain tail)
        (startsWith_parameters hothers tail) hlimit

theorem accepts_parameters {parameters : List TypeParameter} (h : LegibleParameters parameters)
    (htail : StartsWith (· != '<') tail)
    (hlimit : (writeParameters parameters tail).length < limit) :
    Accepts (scanParameters limit) (writeParameters parameters tail) parameters tail := by
  cases parameters with
  | nil =>
    obtain ⟨c, rest, rfl, hc⟩ := startsWith_iff.mp htail
    have hne : c ≠ '<' := by simpa using hc
    exact (accepts_peek c rest).bind (by rw [if_neg hne]; exact accepts_pure _ _)
  | cons first others =>
    obtain ⟨hfirst, hothers⟩ := List.forall_mem_cons.mp h.1
    have hall : ((first :: others).foldr TypeParameter.write ('>' :: tail)).length < limit :=
      Nat.lt_of_succ_lt hlimit
    have hlength := (length_parameter first (others.foldr TypeParameter.write ('>' :: tail))).trans
      hall
    have hcount := length_foldr length_parameter others ('>' :: tail)
    have hfirst := accepts_parameter hfirst (endsBefore_of_isChain hothers h.2.1 tail)
      (startsWith_parameters hothers tail) hall
    have hmany := accepts_many (Nat.lt_of_le_of_lt (Nat.le_of_add_left_le hcount) hlength)
      (accepts_peekIs (· != '>') '>' tail) (each_parameters h hlength)
    exact (accepts_peek '<' _).bind <| (accepts_expect '<' _).bind <| hfirst.bind <|
      hmany.bind <| (accepts_expect '>' tail).bind (accepts_pure _ _)

/-! ## Signatures -/

theorem length_thrown (type : ThrownType) (tail : List Char) :
    tail.length < (type.write tail).length := by
  match type with
  | .object type => exact (type.length_write tail).trans (Nat.lt_succ_self _)
  | .variable name => grind [ThrownType.write]

theorem accepts_thrown {type : ThrownType} (h : type.Legible)
    (hlimit : (type.write tail).length < limit) :
    Accepts (scanThrown limit) (type.write tail) type tail := by
  match type with
  | .object (.of name parts) =>
    have hshort := Nat.lt_of_succ_lt hlimit
    have htype := accepts_classType (.of name parts) h hshort (Nat.le_of_lt hshort)
    exact (accepts_expect '^' _).bind <| (accepts_peek 'L' _).bind (htype.bind (accepts_pure _ _))
  | .variable name =>
    exact (accepts_expect '^' _).bind <| (accepts_peek 'T' _).bind <|
      (accepts_variable h).bind (accepts_pure _ _)

theorem length_result (result : Option JavaType) (tail : List Char) :
    tail.length < (writeResult result tail).length := by
  cases result with
  | none => exact Nat.lt_succ_self _
  | some type => exact type.length_write tail

theorem startsWith_javaType (type : JavaType) (tail : List Char) :
    StartsWith (fun c => c != 'V' && c != ')') (type.write tail) := by
  match type with
  | .base type => cases type <;> exact startsWith_cons.mpr rfl
  | .reference (.object (.of _ _)) => exact startsWith_cons.mpr rfl
  | .reference (.variable _) => exact startsWith_cons.mpr rfl
  | .reference (.array _) => exact startsWith_cons.mpr rfl

theorem startsWith_classType (type : ClassType) (tail : List Char) :
    StartsWith (· != '<') (type.write tail) := by
  match type with
  | .of _ _ => exact startsWith_cons.mpr rfl

/-- An argument type does not start with the closing parenthesis. -/
theorem accepts_moreTypes (type : JavaType) (tail : List Char) :
    Accepts (do return (← peek) != ')') (type.write tail) true (type.write tail) := by
  obtain ⟨c, rest, hwrite, hc⟩ := startsWith_iff.mp (startsWith_javaType type tail)
  have hne : (c != ')') = true := by grind
  rw [hwrite]
  exact hne ▸ accepts_peekIs (· != ')') c rest

theorem accepts_result {result : Option JavaType} (h : ∀ type ∈ result, type.Legible)
    (hlimit : (writeResult result tail).length < limit) :
    Accepts (scanResult limit) (writeResult result tail) result tail := by
  cases result with
  | none => exact (accepts_peek 'V' _).bind ((accepts_expect 'V' tail).bind (accepts_pure _ _))
  | some type =>
    have htype : Accepts (do return some (← scanJavaType (scanReference limit limit)))
        (type.write tail) (some type) tail :=
      (accepts_javaType type (h type rfl) hlimit hlimit).bind (accepts_pure _ _)
    obtain ⟨c, rest, hwrite, hc⟩ := startsWith_iff.mp (startsWith_javaType type tail)
    have hne : c ≠ 'V' := by grind
    rw [hwrite] at htype
    rw [writeResult, hwrite]
    exact (accepts_peek c rest).bind (by rw [if_neg hne]; exact htype)

theorem length_parameters (parameters : List TypeParameter) (tail : List Char) :
    tail.length ≤ (writeParameters parameters tail).length := by
  have hcount := length_foldr length_parameter parameters ('>' :: tail)
  cases parameters with
  | nil => exact Nat.le_refl _
  | cons p parameters => grind [writeParameters]

theorem accepts_untilEnd (c : Char) (text : List Char) :
    Accepts (do return !(← atEnd)) (c :: text) true (c :: text) :=
  (accepts_atEnd _).bind (accepts_pure _ _)

/-- Items are read up to the end of the text. -/
theorem accepts_toEnd {α : Type} {item : Scan α} {write : α → List Char → List Char}
    (hwrite : ∀ a tail, tail.length < (write a tail).length) {as : List α}
    (hlimit : (as.foldr write []).length < limit)
    (h : ∀ a ∈ as, ∀ tail, (write a tail).length < limit → Accepts item (write a tail) a tail) :
    Accepts (many (do return !(← atEnd)) item limit) (as.foldr write []) as [] := by
  refine accepts_many_of_length hwrite hlimit ((accepts_atEnd []).bind (accepts_pure _ _)) ?_
  intro a ha tail hlength
  refine ⟨?_, h a ha tail hlength⟩
  obtain ⟨c, text, htext⟩ :=
    List.exists_cons_of_ne_nil (List.ne_nil_of_length_pos (Nat.zero_lt_of_lt (hwrite a tail)))
  rw [htext]
  exact accepts_untilEnd c text

theorem accepts_scan {kind : SymbolKind} {signature : Signature} (h : signature.Legible kind)
    (hlimit : signature.chars.length < limit) :
    Accepts (scan limit kind) signature.chars signature [] := by
  match kind, signature with
  | .ofClass, .ofClass parameters superclass interfaces =>
    obtain ⟨hparameters, hsuperclass, hinterfaces⟩ := h
    let behind := superclass.write (interfaces.foldr ClassType.write [])
    have hlimit : (writeParameters parameters behind).length < limit := hlimit
    have hbehind : behind.length < limit := (length_parameters parameters behind).trans_lt hlimit
    have hsuper := accepts_classType superclass hsuperclass hbehind (Nat.le_of_lt hbehind)
    have htypes := accepts_toEnd ClassType.length_write
      ((superclass.length_write _).trans hbehind) fun type htype tail hlength =>
        accepts_classType type (hinterfaces type htype) hlength (Nat.le_of_lt hlength)
    have hstart : StartsWith (· != '<') behind := startsWith_classType superclass _
    exact (accepts_parameters hparameters hstart hlimit).bind <|
      hsuper.bind (htypes.bind (accepts_pure _ _))
  | .ofMethod, .ofMethod parameters arguments result thrown =>
    obtain ⟨hparameters, harguments, hresult, hthrown⟩ := h
    let afterResult := thrown.foldr ThrownType.write []
    let afterArguments := writeResult result afterResult
    let afterOpening := arguments.foldr JavaType.write (')' :: afterArguments)
    have hlimit : (writeParameters parameters ('(' :: afterOpening)).length < limit := hlimit
    have hopening : afterOpening.length < limit :=
      Nat.lt_of_succ_lt ((length_parameters parameters ('(' :: afterOpening)).trans_lt hlimit)
    have hclosing : (')' :: afterArguments).length < limit := (Nat.le_of_add_right_le
      (length_foldr JavaType.length_write arguments (')' :: afterArguments))).trans_lt hopening
    have htypes := accepts_many_of_length JavaType.length_write hopening
      (accepts_peekIs (· != ')') ')' afterArguments) fun type htype tail hlength =>
        ⟨accepts_moreTypes type tail, accepts_javaType type (harguments type htype) hlength hlength⟩
    have hresult' := accepts_result hresult (Nat.lt_of_succ_lt hclosing)
    have hlast : afterResult.length < limit :=
      (length_result result afterResult).trans (Nat.lt_of_succ_lt hclosing)
    have hthrown' := accepts_toEnd length_thrown hlast fun type htype _ hlength =>
      accepts_thrown (hthrown type htype) hlength
    exact (accepts_parameters hparameters (startsWith_cons.mpr rfl) hlimit).bind <|
      (accepts_expect '(' _).bind <| htypes.bind <| (accepts_expect ')' _).bind <|
        hresult'.bind (hthrown'.bind (accepts_pure _ _))
  | .ofField, .ofField type =>
    exact (accepts_reference type h hlimit hlimit).bind (accepts_pure _ _)

/-- A legible signature is read back from its text. -/
theorem parse_print {kind : SymbolKind} {signature : Signature} (h : signature.Legible kind) :
    parse kind signature.print = .ok signature := by
  obtain ⟨position, hscan⟩ := accepts_scan h (Nat.lt_succ_self _) 0
  have hread : ofChars kind signature.chars = .ok signature := by
    rw [ofChars, hscan]
    rfl
  rw [parse, print, String.toList_ofList, hread]

/-- Parsing gives the legible signature that spells the text, and fails if there is none. -/
theorem parse_eq_ok_iff {kind : SymbolKind} {text : String} {signature : Signature} :
    parse kind text = .ok signature ↔ signature.print = text ∧ signature.Legible kind := by
  constructor
  · exact parse_eq_ok
  · rintro ⟨rfl, h⟩
    exact parse_print h

/-- No two legible signatures have one text. -/
theorem print_inj {kind : SymbolKind} {s s' : Signature} (h : s.Legible kind)
    (h' : s'.Legible kind) : s.print = s'.print ↔ s = s' := by
  constructor
  · intro hprint
    have hparse := parse_print h
    rw [hprint, parse_print h'] at hparse
    exact (Except.ok.inj hparse).symm
  · rintro rfl
    rfl

end Signature

end Relabel
