import Relabel.Proofs.Layout.Rest

/-!
# Formats that delimit themselves

Where a value is laid out in front of other bytes, these bytes tell the value and where it
ends: counts, sizes and tags stand in front of what depends on them. So a payload is that
of one value only, as soon as the names of the attributes inside it are fixed by a pool.
-/

namespace Relabel.Layout

/-- What is spelled in front of other bytes is told by them, as long as `P` holds of it. -/
def Delimits {α : Type} (spell : α → List UInt8) (P : α → Prop) : Prop :=
  ∀ ⦃a b rest rest'⦄, P a → P b → spell a ++ rest = spell b ++ rest' → a = b ∧ rest = rest'

/-- The value fits its format, and the attribute names in it are those in the pool. -/
structure Format.Valid {α : Type} (p : Pool) (F : Format α) (a : α) : Prop where
  fits : F.Fits a
  named : ∀ x ∈ F.pieces a, x.Named p

/-- The values of the format are told by the bytes at their front. -/
def Format.DelimitsItself {α : Type} (p : Pool) (F : Format α) : Prop :=
  Delimits (fun a => encode (F.pieces a)) (F.Valid p)

variable {α β : Type} {p : Pool} {F : Format α} {G : Format β} {rest rest' : List UInt8}

/-! ## Bytes -/

theorem bytes_append_inj [Word α] {x y : α} (h : Word.bytes x ++ rest = Word.bytes y ++ rest') :
    x = y ∧ rest = rest' := by
  obtain ⟨hbytes, hrest⟩ := List.append_inj h (by simp)
  have hword := congrArg (Word.ofBytes (α := α)) hbytes
  rw [Word.ofBytes_bytes, Word.ofBytes_bytes] at hword
  exact ⟨hword, hrest⟩

theorem ofNat_inj [Word β] {m n : Nat} (hm : m < capacity (Word.width β))
    (hn : n < capacity (Word.width β)) (h : (Word.ofNat m : β) = Word.ofNat n) : m = n := by
  rw [← Word.toNat_ofNat (α := β) m hm, h, Word.toNat_ofNat n hn]

theorem Delimits.flatMap {spell : α → List UInt8} {P : α → Prop} (h : Delimits spell P)
    {as bs : List α} (has : ∀ a ∈ as, P a) (hbs : ∀ b ∈ bs, P b) (hlen : as.length = bs.length)
    (heq : as.flatMap spell ++ rest = bs.flatMap spell ++ rest') : as = bs ∧ rest = rest' := by
  induction as generalizing bs with
  | nil =>
    obtain rfl := List.length_eq_zero_iff.mp hlen.symm
    exact ⟨rfl, heq⟩
  | cons a as ih =>
    obtain ⟨b, bs, rfl⟩ := List.exists_cons_of_length_eq_add_one hlen.symm
    obtain ⟨ha, has⟩ := List.forall_mem_cons.mp has
    obtain ⟨hb, hbs⟩ := List.forall_mem_cons.mp hbs
    rw [List.flatMap_cons, List.flatMap_cons, List.append_assoc, List.append_assoc] at heq
    obtain ⟨hab, heq⟩ := h ha hb heq
    obtain ⟨hrows, hrest⟩ := ih has hbs (Nat.succ.inj hlen) heq
    exact ⟨by rw [hab, hrows], hrest⟩

theorem delimits_range : Delimits TypeTarget.rangeBytes fun _ => True := by
  rintro ⟨a, b, c⟩ ⟨a', b', c'⟩ rest rest' - - h
  simp only [TypeTarget.rangeBytes, List.append_assoc] at h
  obtain ⟨ha, h⟩ := bytes_append_inj h
  obtain ⟨hb, h⟩ := bytes_append_inj h
  obtain ⟨hc, h⟩ := bytes_append_inj h
  exact ⟨by rw [ha, hb, hc], h⟩

theorem delimits_step : Delimits stepBytes fun _ => True := by
  rintro ⟨a, b⟩ ⟨a', b'⟩ rest rest' - - h
  simp only [stepBytes, List.append_assoc] at h
  obtain ⟨ha, h⟩ := bytes_append_inj h
  obtain ⟨hb, h⟩ := bytes_append_inj h
  exact ⟨by rw [ha, hb], h⟩

theorem delimits_handler : Delimits Handler.bytes fun _ => True := by
  rintro ⟨a, b, c, d⟩ ⟨a', b', c', d'⟩ rest rest' - - h
  simp only [Handler.bytes, List.append_assoc] at h
  obtain ⟨ha, h⟩ := bytes_append_inj h
  obtain ⟨hb, h⟩ := bytes_append_inj h
  obtain ⟨hc, h⟩ := bytes_append_inj h
  obtain ⟨hd, h⟩ := bytes_append_inj h
  exact ⟨by rw [ha, hb, hc, hd], h⟩

/-- A count and then as many rows. -/
theorem Delimits.counted [Word β] {spell : α → List UInt8} {P : α → Prop} (h : Delimits spell P)
    {as bs : List α} (has : ∀ a ∈ as, P a) (hbs : ∀ b ∈ bs, P b)
    (hlt : as.length < capacity (Word.width β)) (hlt' : bs.length < capacity (Word.width β))
    (heq : Word.bytes (Word.ofNat as.length : β) ++ (as.flatMap spell ++ rest)
      = Word.bytes (Word.ofNat bs.length : β) ++ (bs.flatMap spell ++ rest')) :
    as = bs ∧ rest = rest' := by
  obtain ⟨hcount, heq⟩ := bytes_append_inj heq
  exact h.flatMap has hbs (ofNat_inj hlt hlt' hcount) heq

/-! ## Lists and nesting -/

namespace Format

theorem encode_flatMap (as : List α) :
    encode (as.flatMap F.pieces) = as.flatMap fun a => encode (F.pieces a) :=
  List.flatMap_assoc

theorem delimits_empty : Format.empty.DelimitsItself p := nofun

namespace DelimitsItself

variable (h : F.DelimitsItself p) (h' : G.DelimitsItself p)
include h

theorem countedBy [Word β] : (F.countedBy β).DelimitsItself p := by
  intro as bs rest rest' has hbs heq
  have valid {as : List α} (h : (F.countedBy β).Valid p as) : ∀ a ∈ as, F.Valid p a :=
    fun a ha => ⟨h.fits.2 a ha, fun x hx =>
      h.named x (List.mem_cons_of_mem _ (List.mem_flatMap.mpr ⟨a, ha, hx⟩))⟩
  simp only [Format.countedBy, encode_cons, encode_flatMap, Piece.bytes, List.append_assoc] at heq
  exact h.counted (valid has) (valid hbs) has.fits.1 hbs.fits.1 heq

theorem behindWord : F.behindWord.DelimitsItself p := by
  rintro ⟨x, a⟩ ⟨y, b⟩ rest rest' ha hb heq
  have valid {x : UInt16} {a : α} (h : F.behindWord.Valid p (x, a)) : F.Valid p a :=
    ⟨h.fits, fun x hx => h.named x (List.mem_cons_of_mem _ hx)⟩
  simp only [Format.behindWord, encode_cons, Piece.bytes, List.append_assoc] at heq
  obtain ⟨hxy, heq⟩ := bytes_append_inj heq
  obtain ⟨hab, heq⟩ := h (valid ha) (valid hb) heq
  exact ⟨by rw [hxy, hab], heq⟩

theorem annotated : F.annotated.DelimitsItself p := by
  rintro ⟨type, elements⟩ ⟨type', elements'⟩ rest rest' ha hb heq
  have valid {type : UInt16} {elements : List (UInt16 × α)}
      (h : F.annotated.Valid p ⟨type, elements⟩) : F.behindWord.counted.Valid p elements :=
    ⟨h.fits, fun x hx => h.named x (List.mem_cons_of_mem _ hx)⟩
  simp only [Format.annotated, encode_cons, Piece.bytes, Slot.index, List.append_assoc] at heq
  obtain ⟨htype, heq⟩ := bytes_append_inj heq
  obtain ⟨helements, heq⟩ := h.behindWord.countedBy (valid ha) (valid hb) heq
  exact ⟨by rw [htype, helements], heq⟩

include h' in
/-- The tag tells the kind of a value. -/
theorem element : (F.element G).DelimitsItself p := by
  intro v v' rest rest' hv hv' heq
  have of_nested {a : α} (h : (F.element G).Valid p (.nested a)) : F.Valid p a :=
    ⟨h.fits, fun x hx => h.named x (List.mem_cons_of_mem _ hx)⟩
  have of_array {values : β} (h : (F.element G).Valid p (.array values)) : G.Valid p values :=
    ⟨h.fits, fun x hx => h.named x (List.mem_cons_of_mem _ hx)⟩
  have hfits := hv.fits
  have hfits' := hv'.fits
  cases v <;> cases v' <;>
    simp only [Format.element, encode_cons, encode_nil, Piece.bytes, Slot.index,
      List.append_assoc, List.nil_append] at heq hfits hfits' <;>
    obtain ⟨htag, heq⟩ := bytes_append_inj heq
  case const.const =>
    obtain ⟨hvalue, heq⟩ := bytes_append_inj heq
    exact ⟨by rw [htag, hvalue], heq⟩
  case enumConst.enumConst =>
    obtain ⟨htype, heq⟩ := bytes_append_inj heq
    obtain ⟨hname, heq⟩ := bytes_append_inj heq
    exact ⟨by rw [htype, hname], heq⟩
  case classInfo.classInfo =>
    obtain ⟨htype, heq⟩ := bytes_append_inj heq
    exact ⟨by rw [htype], heq⟩
  case nested.nested =>
    obtain ⟨ha, heq⟩ := h (of_nested hv) (of_nested hv') heq
    exact ⟨by rw [ha], heq⟩
  case array.array =>
    obtain ⟨hvalues, heq⟩ := h' (of_array hv) (of_array hv') heq
    exact ⟨by rw [hvalues], heq⟩
  -- no letter of a constant is that of another kind
  case const.enumConst | const.classInfo | const.nested | const.array =>
    rw [htag] at hfits
    exact absurd hfits (by decide)
  case enumConst.const | classInfo.const | nested.const | array.const =>
    rw [← htag] at hfits'
    exact absurd hfits' (by decide)
  all_goals exact absurd htag (by decide)

end DelimitsItself

/-- The induction is on the levels that are left: a value inside has one level less. -/
theorem delimits_elementValue (p : Pool) (levels : Nat) :
    (elementValue levels).DelimitsItself p := by
  induction levels with
  | zero => exact delimits_empty.element delimits_empty
  | succ levels ih => exact ih.annotated.element ih.countedBy

end Format

/-! ## Type annotations -/

namespace TypeTarget

/-- The tag tells the form of a target. -/
theorem eq_of_info {t u : TypeTarget} (ht : t.Fits) (hu : u.Fits) (htag : t.tag = u.tag)
    (heq : encode t.info ++ rest = encode u.info ++ rest') : t = u ∧ rest = rest' := by
  have hn := congrArg UInt8.toNat htag
  cases t <;> cases u <;>
    simp only [tag, Fits, info, encode_cons, encode_nil, Piece.bytes, List.append_assoc,
      List.nil_append, UInt8.reduceToNat] at htag hn ht hu heq
  case typeParameter.typeParameter | formalParameter.formalParameter | supertype.supertype
    | throws.throws | catch.catch | offset.offset =>
    obtain ⟨hindex, heq⟩ := bytes_append_inj heq
    exact ⟨by simp only [htag, hindex], heq⟩
  case typeParameterBound.typeParameterBound | typeArgument.typeArgument =>
    obtain ⟨hfirst, heq⟩ := bytes_append_inj heq
    obtain ⟨hsecond, heq⟩ := bytes_append_inj heq
    exact ⟨by simp only [htag, hfirst, hsecond], heq⟩
  case empty.empty => exact ⟨by rw [htag], heq⟩
  case localVariable.localVariable =>
    obtain ⟨hranges, heq⟩ := delimits_range.counted (β := UInt16) (fun _ _ => trivial)
      (fun _ _ => trivial) ht.2 hu.2 heq
    exact ⟨by rw [htag, hranges], heq⟩
  -- the tags of two forms are in different ranges
  all_goals omega

end TypeTarget

namespace Format.DelimitsItself

variable (h : F.DelimitsItself p)
include h

theorem annotatedType : F.annotatedType.DelimitsItself p := by
  rintro ⟨target, path, a⟩ ⟨target', path', b⟩ rest rest' ha hb heq
  have valid {target : TypeTarget} {path : List (UInt8 × UInt8)} {a : Annotated α}
      (h : F.annotatedType.Valid p ⟨target, path, a⟩) : F.annotated.Valid p a := by
    refine ⟨h.fits.2.2, fun x hx => h.named x ?_⟩
    simp [Format.annotatedType, hx]
  simp only [Format.annotatedType, encode_cons, encode_append, List.cons_append, Piece.bytes,
    List.append_assoc] at heq
  obtain ⟨htag, heq⟩ := bytes_append_inj heq
  obtain ⟨htarget, heq⟩ : target = target' ∧ _ :=
    TypeTarget.eq_of_info ha.fits.1 hb.fits.1 htag heq
  obtain ⟨hpath, heq⟩ : path = path' ∧ _ := delimits_step.counted (β := UInt8)
    (fun _ _ => trivial) (fun _ _ => trivial) ha.fits.2.1 hb.fits.2.1 heq
  obtain ⟨hannotated, heq⟩ := h.annotated (valid ha) (valid hb) heq
  exact ⟨by rw [htarget, hpath, hannotated], heq⟩

/-! ## Code, variables, records and inner classes -/

theorem component : F.component.DelimitsItself p := by
  rintro ⟨name, type, attributes⟩ ⟨name', type', attributes'⟩ rest rest' ha hb heq
  have valid {name type : UInt16} {attributes : α}
      (h : F.component.Valid p ⟨name, type, attributes⟩) : F.Valid p attributes := by
    refine ⟨h.fits, fun x hx => h.named x ?_⟩
    simp [Format.component, hx]
  simp only [Format.component, encode_cons, Piece.bytes, Slot.index, List.append_assoc] at heq
  obtain ⟨hname, heq⟩ := bytes_append_inj heq
  obtain ⟨htype, heq⟩ := bytes_append_inj heq
  obtain ⟨hattributes, heq⟩ := h (valid ha) (valid hb) heq
  exact ⟨by rw [hname, htype, hattributes], heq⟩

theorem code : F.code.DelimitsItself p := by
  rintro ⟨maxStack, maxLocals, code, handlers, attributes⟩
    ⟨maxStack', maxLocals', code', handlers', attributes'⟩ rest rest' ha hb heq
  have valid {maxStack maxLocals : UInt16} {code : List UInt8} {handlers : List Handler}
      {attributes : α} (h : F.code.Valid p ⟨maxStack, maxLocals, code, handlers, attributes⟩) :
      F.Valid p attributes := by
    refine ⟨h.fits.2.2, fun x hx => h.named x ?_⟩
    simp [Format.code, hx]
  simp only [Format.code, encode_cons, Piece.bytes, List.append_assoc] at heq
  obtain ⟨hstack, heq⟩ := bytes_append_inj heq
  obtain ⟨hlocals, heq⟩ := bytes_append_inj heq
  obtain ⟨hsize, heq⟩ := bytes_append_inj heq
  have hlen : code.length = code'.length := ofNat_inj (β := UInt32) ha.fits.1 hb.fits.1 hsize
  obtain ⟨hcode, heq⟩ := List.append_inj heq hlen
  obtain ⟨hhandlers, heq⟩ : handlers = handlers' ∧ _ := delimits_handler.counted (β := UInt16)
    (fun _ _ => trivial) (fun _ _ => trivial) ha.fits.2.1 hb.fits.2.1 heq
  obtain ⟨hattributes, heq⟩ := h (valid ha) (valid hb) heq
  exact ⟨by rw [hstack, hlocals, hcode, hhandlers, hattributes], heq⟩

end Format.DelimitsItself

namespace Format

theorem delimits_localVariable {slot : UInt16 → Slot}
    {hslot : ∀ i j, (slot i).withIndex j = slot j} (hindex : ∀ i, (slot i).index = i) :
    (localVariable slot hslot).DelimitsItself p := by
  rintro ⟨start, length, name, type, register⟩ ⟨start', length', name', type', register'⟩ rest
    rest' - - heq
  simp only [localVariable, encode_cons, encode_nil, Piece.bytes, hindex, List.append_assoc,
    List.nil_append] at heq
  obtain ⟨hstart, heq⟩ := bytes_append_inj heq
  obtain ⟨hlength, heq⟩ := bytes_append_inj heq
  obtain ⟨hname, heq⟩ := bytes_append_inj heq
  obtain ⟨htype, heq⟩ := bytes_append_inj heq
  obtain ⟨hregister, heq⟩ := bytes_append_inj heq
  exact ⟨by rw [hstart, hlength, hname, htype, hregister], heq⟩

theorem delimits_innerClass : innerClass.DelimitsItself p := by
  rintro ⟨inner, outer, name, access⟩ ⟨inner', outer', name', access'⟩ rest rest' - - heq
  simp only [innerClass, innerClassPieces, encode_cons, encode_nil, Piece.bytes, Slot.index,
    List.append_assoc, List.nil_append] at heq
  obtain ⟨hinner, heq⟩ := bytes_append_inj heq
  obtain ⟨houter, heq⟩ := bytes_append_inj heq
  obtain ⟨hname, heq⟩ := bytes_append_inj heq
  obtain ⟨haccess, heq⟩ := bytes_append_inj heq
  exact ⟨by rw [hinner, houter, hname, haccess], heq⟩

/-! ## Attributes -/

/-- Bytes that are one value of the format are no other. -/
def IsInjective (p : Pool) (F : Format α) : Prop :=
  ∀ ⦃a b⦄, F.Valid p a → F.Valid p b → encode (F.pieces a) = encode (F.pieces b) → a = b

theorem DelimitsItself.trailed (h : F.DelimitsItself p) : F.trailed.IsInjective p := by
  rintro ⟨a, trailing⟩ ⟨b, trailing'⟩ ha hb heq
  have valid {a : α} {trailing : List UInt8} (h : F.trailed.Valid p (a, trailing)) : F.Valid p a :=
    ⟨h.fits, fun x hx => h.named x (List.mem_append_left _ hx)⟩
  simp only [Format.trailed, encode_append, encode_cons, encode_nil, Piece.bytes,
    List.append_nil] at heq
  obtain ⟨hab, htrailing⟩ := h (valid ha) (valid hb) heq
  rw [hab, htrailing]

/-- The size in front of a payload tells where it ends. -/
theorem delimits_entry {payload : String → Format α} (h : ∀ name, (payload name).IsInjective p) :
    (entry payload).DelimitsItself p := by
  rintro ⟨index, name, a⟩ ⟨index', name', b⟩ rest rest' ha hb heq
  have valid {index : UInt16} {name : String} {a : α}
      (h : (entry payload).Valid p ⟨index, name, a⟩) :
      p.utf8 index = .ok name ∧ (payload name).Valid p a :=
    ⟨h.named (.attributeName index name) List.mem_cons_self, h.fits.2, fun x hx =>
      h.named x (List.mem_cons_of_mem _ (List.mem_cons_of_mem _ hx))⟩
  obtain ⟨hname, ha'⟩ := valid ha
  obtain ⟨hname', hb'⟩ := valid hb
  simp only [entry, encode_cons, Piece.bytes, List.append_assoc] at heq
  obtain ⟨rfl, hbehind⟩ := bytes_append_inj heq
  cases hname.symm.trans hname'
  obtain ⟨hsize, hbehind⟩ := bytes_append_inj hbehind
  have hlen : (encode ((payload name).pieces a)).length
      = (encode ((payload name).pieces b)).length :=
    ofNat_inj (β := UInt32) ha.fits.1 hb.fits.1 hsize
  obtain ⟨hpayload, hbehind⟩ := List.append_inj hbehind hlen
  exact ⟨by rw [h name ha' hb' hpayload], hbehind⟩

end Format

/-- The number of the layout. A payload under the name of a signature that is not looked at has
that of a signature. -/
def Content.number : Content α β → Nat
  | .signature _ | .other => 0
  | .annotations _ => 1
  | .parameterAnnotations _ => 2
  | .typeAnnotations _ => 3
  | .annotationDefault _ => 4
  | .code _ => 5
  | .localVariables _ => 6
  | .localVariableTypes _ => 7
  | .record _ => 8
  | .innerClasses _ => 9

/-- The number of the layout that payloads under the name have, if they are walked over. -/
def layoutNumber (name : String) : Nat :=
  if name = AttributeName.signature then 0
  else if name ∈ AttributeName.annotations then 1
  else if name ∈ AttributeName.parameterAnnotations then 2
  else if name ∈ AttributeName.typeAnnotations then 3
  else if name = AttributeName.annotationDefault then 4
  else if name = AttributeName.code then 5
  else if name = AttributeName.localVariables then 6
  else if name = AttributeName.localVariableTypes then 7
  else if name = AttributeName.record then 8
  else 9

theorem Content.Suits.number_eq {c : Content α β} {name : String} {trailing : List UInt8}
    (h : c.Suits name trailing) (hwalked : name ∈ AttributeName.walked) :
    c.number = layoutNumber name := by
  cases c with
  | signature i =>
    obtain ⟨rfl, -⟩ := h
    rfl
  | annotations as | parameterAnnotations as | typeAnnotations as =>
    obtain rfl | rfl := List.mem_pair.mp h <;>
      · simp only [number]
        decide
  | other =>
    obtain ⟨rfl, -⟩ := h.resolve_left (not_not_intro hwalked)
    rfl
  | _ =>
    obtain rfl := h
    simp only [number]
    decide

namespace Format

/-- Contents of one layout that delimits itself are equal, and so is what stands behind them. -/
theorem DelimitsItself.content_eq {γ : Type} {G : Format γ} {a b : γ}
    {trailing trailing' : List UInt8} (h : G.DelimitsItself p) (build : γ → Content α β)
    (ha : G.Fits a ∧ ∀ x ∈ G.trailed.pieces (a, trailing), x.Named p)
    (hb : G.Fits b ∧ ∀ x ∈ G.trailed.pieces (b, trailing'), x.Named p)
    (heq : encode (G.trailed.pieces (a, trailing)) = encode (G.trailed.pieces (b, trailing'))) :
    (build a, trailing) = (build b, trailing') := by
  have ha : G.trailed.Valid p (a, trailing) := ⟨ha.1, ha.2⟩
  have hb : G.trailed.Valid p (b, trailing') := ⟨hb.1, hb.2⟩
  cases h.trailed ha hb heq
  rfl

/-- Without a layout, all of the payload stands behind it. -/
theorem encode_other (value : Format α) (attributes : Format β) (kind : SymbolKind)
    (trailing : List UInt8) :
    encode ((content value attributes kind).trailed.pieces (.other, trailing)) = trailing := by
  simp [trailed, content, Piece.bytes]

theorem length_signature (value : Format α) (attributes : Format β) (kind : SymbolKind)
    (i : UInt16) :
    (encode ((content value attributes kind).trailed.pieces (.signature i, []))).length = 2 := rfl

end Format

/-- The name of an attribute and the size of its payload tell the layout. -/
theorem Format.injective_attributePayload {value : Format α} {attributes : Format β}
    {kind : SymbolKind} {name : String} (hvalue : value.DelimitsItself p)
    (hattributes : attributes.DelimitsItself p) :
    (attributePayload value attributes kind name).IsInjective p := by
  rintro ⟨c, trailing⟩ ⟨c', trailing'⟩ ha hb heq
  obtain ⟨hfits, hsuits⟩ := ha.fits
  obtain ⟨hfits', hsuits'⟩ := hb.fits
  by_cases hwalked : name ∈ AttributeName.walked
  case neg =>
    obtain rfl : c = .other := hsuits.eq_other hwalked
    obtain rfl : c' = .other := hsuits'.eq_other hwalked
    have htrailing : trailing = trailing' := by
      rwa [attributePayload, encode_other, encode_other] at heq
    rw [htrailing]
  have hnumber := (hsuits.number_eq hwalked).trans (hsuits'.number_eq hwalked).symm
  cases c <;> cases c'
  case annotations.annotations =>
    exact hvalue.annotated.countedBy.content_eq .annotations ⟨hfits, ha.named⟩
      ⟨hfits', hb.named⟩ heq
  case parameterAnnotations.parameterAnnotations =>
    exact hvalue.annotated.countedBy.countedBy.content_eq .parameterAnnotations
      ⟨hfits, ha.named⟩ ⟨hfits', hb.named⟩ heq
  case typeAnnotations.typeAnnotations =>
    exact hvalue.annotatedType.countedBy.content_eq .typeAnnotations ⟨hfits, ha.named⟩
      ⟨hfits', hb.named⟩ heq
  case annotationDefault.annotationDefault =>
    exact hvalue.content_eq .annotationDefault ⟨hfits, ha.named⟩ ⟨hfits', hb.named⟩ heq
  case code.code =>
    exact hattributes.code.content_eq .code ⟨hfits, ha.named⟩ ⟨hfits', hb.named⟩ heq
  case localVariables.localVariables =>
    exact (delimits_localVariable fun _ => rfl).countedBy.content_eq .localVariables
      ⟨hfits, ha.named⟩ ⟨hfits', hb.named⟩ heq
  case localVariableTypes.localVariableTypes =>
    exact (delimits_localVariable fun _ => rfl).countedBy.content_eq .localVariableTypes
      ⟨hfits, ha.named⟩ ⟨hfits', hb.named⟩ heq
  case record.record =>
    exact hattributes.component.countedBy.content_eq .record ⟨hfits, ha.named⟩
      ⟨hfits', hb.named⟩ heq
  case innerClasses.innerClasses =>
    exact delimits_innerClass.countedBy.content_eq .innerClasses ⟨hfits, ha.named⟩
      ⟨hfits', hb.named⟩ heq
  case signature.signature =>
    obtain ⟨-, rfl⟩ := hsuits
    obtain ⟨-, rfl⟩ := hsuits'
    obtain ⟨hindex, -⟩ := bytes_append_inj heq
    simp only [Slot.index] at hindex
    rw [hindex]
  case other.other =>
    have htrailing : trailing = trailing' := by
      rwa [attributePayload, encode_other, encode_other] at heq
    rw [htrailing]
  case signature.other i =>
    obtain ⟨-, rfl⟩ := hsuits
    obtain ⟨-, hlen⟩ := hsuits'.resolve_left (not_not_intro hwalked)
    rw [attributePayload, encode_other] at heq
    exact absurd (heq ▸ length_signature value attributes kind i) hlen
  case other.signature i =>
    obtain ⟨-, rfl⟩ := hsuits'
    obtain ⟨-, hlen⟩ := hsuits.resolve_left (not_not_intro hwalked)
    rw [attributePayload, encode_other] at heq
    exact absurd (heq ▸ length_signature value attributes kind i) hlen
  all_goals cases hnumber

/-- The induction is on the levels that are left: an attribute inside has one level less. -/
theorem injective_payload (p : Pool) (levels : Nat) (kind : SymbolKind) (name : String) :
    (Format.payload levels kind name).IsInjective p := by
  induction levels generalizing kind name with
  | zero =>
    exact Format.injective_attributePayload (Format.delimits_elementValue p 0)
      Format.delimits_empty
  | succ levels ih =>
    exact Format.injective_attributePayload (Format.delimits_elementValue p (levels + 1))
      (Format.delimits_entry (ih .ofField)).countedBy

end Relabel.Layout
