import Relabel.Proofs.Layout.Value

/-!
# Walks follow their formats

Each walk over a layout follows the format of its values. A walk that nests does so at
every number of levels if it does with one level less.
-/

namespace Relabel.Layout

variable {α β : Type} {r : Renaming} {w w' : Walk} {F : Format α} {G : Format β}

/-! ## Annotations -/

theorem eq_tagByte {tag : UInt8} {letter : Char} (h : Char.ofNat tag.toNat = letter) :
    tag = tagByte letter := by
  have hvalid : tag.toNat.isValidChar := .inl (Nat.lt_trans tag.toNat_lt (by decide))
  have hchar : (Char.ofNat tag.toNat).toNat = tag.toNat := by
    rw [Char.ofNat, dif_pos hvalid]
    rfl
  rw [← h, tagByte, hchar, UInt8.ofNat_toNat]

theorem Follows.annotated (h : Follows r w F) : Follows r (Walk.annotated r w) F.annotated where
  passes a ha := (passes_descriptorSlot a.type).bind (h.behindWord.counted.passes ha)
  parses := by
    refine (parses_descriptorSlot.bind h.behindWord.counted.parses).mono ?_
    rintro _ ⟨_, _, ⟨i, rfl⟩, ⟨elements, helements, rfl⟩, rfl⟩
    exact ⟨⟨i, elements⟩, helements, rfl⟩

theorem Follows.element (h : Follows r w F) (h' : Follows r w' G) :
    Follows r (Walk.element r w w') (F.element G) where
  passes v hv := by
    cases v with
    | const tag value =>
      refine passes_word_bind tag ?_
      have hskip : Passes r (Walk.skip 2) [.fixed (Word.bytes value)] :=
        passes_skip (Word.length_bytes value)
      have htag : Char.ofNat tag.toNat ∈ Format.constLetters := hv
      simp only [Format.constLetters, List.mem_cons, List.not_mem_nil, or_false] at htag
      rcases htag with h | h | h | h | h | h | h | h | h <;> rw [h] <;> exact hskip
    | enumConst type name =>
      exact passes_word_bind (tagByte 'e')
        ((passes_descriptorSlot type).bind (passes_skip (Word.length_bytes name)))
    | classInfo type => exact passes_word_bind (tagByte 'c') (passes_descriptorSlot type)
    | nested a => exact passes_word_bind (tagByte '@') (h.passes hv)
    | array values => exact passes_word_bind (tagByte '[') (h'.passes hv)
  parses := by
    refine (parses_word_bind (P := fun tag ys => ∃ v, (F.element G).Fits v ∧
      .fixed (Word.bytes tag) :: ys = (F.element G).pieces v) fun tag => ?_).mono ?_
    case refine_2 =>
      rintro _ ⟨tag, ys, ⟨v, hv, heq⟩, rfl⟩
      exact ⟨v, hv, heq⟩
    have hconst (htag : Char.ofNat tag.toNat ∈ Format.constLetters) :
        Parses r (Walk.skip 2) fun ys => ∃ v, (F.element G).Fits v ∧
          .fixed (Word.bytes tag) :: ys = (F.element G).pieces v := by
      refine (parses_skip 2).mono ?_
      rintro _ ⟨bytes, hlen, rfl⟩
      obtain ⟨value, rfl⟩ := exists_word (α := UInt16) hlen
      exact ⟨.const tag value, htag, rfl⟩
    split
    case h_10 htag =>
      refine (parses_descriptorSlot.bind (parses_skip 2)).mono ?_
      rintro _ ⟨_, _, ⟨type, rfl⟩, ⟨bytes, hlen, rfl⟩, rfl⟩
      obtain ⟨name, rfl⟩ := exists_word (α := UInt16) hlen
      exact ⟨.enumConst type name, trivial, by rw [eq_tagByte htag]; rfl⟩
    case h_11 htag =>
      refine parses_descriptorSlot.mono ?_
      rintro _ ⟨type, rfl⟩
      exact ⟨.classInfo type, trivial, by rw [eq_tagByte htag]; rfl⟩
    case h_12 htag =>
      refine h.parses.mono ?_
      rintro _ ⟨a, ha, rfl⟩
      exact ⟨.nested a, ha, by rw [eq_tagByte htag]; rfl⟩
    case h_13 htag =>
      refine h'.parses.mono ?_
      rintro _ ⟨values, hvalues, rfl⟩
      exact ⟨.array values, hvalues, by rw [eq_tagByte htag]; rfl⟩
    case h_14 => exact fun _ _ hrun => absurd hrun throw_ne_ok
    all_goals
      rename_i htag
      exact hconst (by rw [htag]; decide)

/-- The induction is on the levels that are left, as the recursion of the walk is. -/
theorem follows_elementValue (r : Renaming) (levels : Nat) :
    Follows r (Walk.elementValue r levels) (.elementValue levels) := by
  induction levels with
  | zero => exact Follows.empty.element .empty
  | succ levels ih => exact ih.annotated.element ih.counted

theorem follows_annotations (r : Renaming) (levels : Nat) :
    Follows r (Walk.annotations r levels) (Format.elementValue levels).annotated.counted :=
  (follows_elementValue r levels).annotated.counted

theorem follows_parameterAnnotations (r : Renaming) (levels : Nat) :
    Follows r (Walk.parameterAnnotations r levels)
      ((Format.elementValue levels).annotated.counted.countedBy UInt8) :=
  (follows_annotations r levels).countedBy

/-! ## Rows of bytes that stay -/

theorem length_rows (row : α → List UInt8) {size : Nat} (hrow : ∀ a, (row a).length = size)
    (as : List α) : (as.flatMap row).length = as.length * size := by
  induction as with
  | nil => simp
  | cons a as ih => rw [List.flatMap_cons, List.length_append, hrow, ih, List.length_cons]; grind

/-- Bytes of the right number are rows, if those of one row are. -/
theorem exists_rows {row : α → List UInt8} {size : Nat}
    (hrow : ∀ bytes : List UInt8, bytes.length = size → ∃ a, bytes = row a) (n : Nat)
    {bytes : List UInt8} (hlen : bytes.length = n * size) :
    ∃ as : List α, as.length = n ∧ bytes = as.flatMap row := by
  induction n generalizing bytes with
  | zero =>
    rw [Nat.zero_mul] at hlen
    exact ⟨[], rfl, List.length_eq_zero_iff.mp hlen⟩
  | succ n ih =>
    have hle : size ≤ bytes.length := by rw [hlen, Nat.succ_mul]; omega
    obtain ⟨a, ha⟩ := hrow (bytes.take size) (List.length_take_of_le hle)
    have hrest : (bytes.drop size).length = n * size := by
      rw [List.length_drop, hlen, Nat.succ_mul]
      omega
    obtain ⟨as, hlen', has⟩ := ih hrest
    refine ⟨a :: as, by simp [hlen'], ?_⟩
    rw [List.flatMap_cons, ← ha, ← has, List.take_append_drop]

/-- Bytes behind a word, which are of the form `P` themselves. -/
theorem exists_word_append {γ : Type} [Word γ] {n : Nat} {P : List UInt8 → Prop}
    {bytes : List UInt8} (hlen : bytes.length = Word.width γ + n)
    (h : ∀ rest : List UInt8, rest.length = n → P rest) :
    ∃ (x : γ) (rest : List UInt8), bytes = Word.bytes x ++ rest ∧ P rest := by
  have hle : Word.width γ ≤ bytes.length := by omega
  obtain ⟨x, hx⟩ := exists_word (α := γ) (List.length_take_of_le hle)
  exact ⟨x, bytes.drop (Word.width γ), by rw [← hx, List.take_append_drop],
    h _ (by simp [hlen])⟩

theorem exists_range (bytes : List UInt8) (hlen : bytes.length = 6) :
    ∃ range, bytes = TypeTarget.rangeBytes range := by
  obtain ⟨a, _, rfl, b, _, rfl, c, rfl⟩ := exists_word_append (γ := UInt16) hlen fun rest h =>
    exists_word_append (γ := UInt16) (n := 2) h fun rest h => exists_word (α := UInt16) h
  exact ⟨(a, b, c), rfl⟩

theorem exists_step (bytes : List UInt8) (hlen : bytes.length = 2) :
    ∃ step, bytes = stepBytes step := by
  obtain ⟨a, _, rfl, b, rfl⟩ := exists_word_append (γ := UInt8) hlen fun rest h =>
    exists_word (α := UInt8) h
  exact ⟨(a, b), rfl⟩

theorem exists_handler (bytes : List UInt8) (hlen : bytes.length = 8) :
    ∃ handler, bytes = Handler.bytes handler := by
  obtain ⟨a, _, rfl, b, _, rfl, c, _, rfl, d, rfl⟩ :=
    exists_word_append (γ := UInt16) hlen fun rest h =>
      exists_word_append (γ := UInt16) (n := 4) h fun rest h =>
        exists_word_append (γ := UInt16) (n := 2) h fun rest h => exists_word (α := UInt16) h
  exact ⟨⟨a, b, c, d⟩, rfl⟩

/-! ## Type annotations -/

section

variable {k : Unit → Walk} {xs : List Piece} {Q : List Piece → Prop}

/-- What is told about a target is passed, whatever its form is. -/
theorem passes_target {t : TypeTarget} (ht : t.Fits) (hk : Passes r (k ()) xs) :
    Passes r (Walk.targetSize t.tag >>= fun n => Walk.skip n >>= k) (t.info ++ xs) := by
  have sized {n : Nat} {bytes : List UInt8} (hsize : Walk.targetSize t.tag = pure n)
      (hlen : bytes.length = n) (hinfo : t.info = [.fixed bytes]) :
      Passes r (Walk.targetSize t.tag >>= fun n => Walk.skip n >>= k) (t.info ++ xs) := by
    rw [hsize, pure_bind, hinfo]
    exact (passes_skip hlen).bind hk
  cases t with
  | typeParameter tag index =>
    refine sized (n := 1) ?_ (Word.length_bytes index) rfl
    have ht : tag.toNat ≤ 1 := ht
    simp only [Walk.targetSize, TypeTarget.tag]
    grind
  | supertype index => exact sized rfl (Word.length_bytes index) rfl
  | typeParameterBound tag parameter bound =>
    refine sized (n := 2) ?_ rfl rfl
    have ht : 0x11 ≤ tag.toNat ∧ tag.toNat ≤ 0x12 := ht
    simp only [Walk.targetSize, TypeTarget.tag]
    grind
  | empty tag =>
    refine sized (n := 0) ?_ rfl rfl
    have ht : 0x13 ≤ tag.toNat ∧ tag.toNat ≤ 0x15 := ht
    simp only [Walk.targetSize, TypeTarget.tag]
    grind
  | formalParameter index => exact sized rfl (Word.length_bytes index) rfl
  | throws index => exact sized rfl (Word.length_bytes index) rfl
  | localVariable tag ranges =>
    obtain ⟨htag, hlen⟩ : (tag.toNat = 0x40 ∨ tag.toNat = 0x41) ∧ ranges.length < 65536 := ht
    have hsize : Walk.targetSize tag
        = (do let n : UInt16 ← Walk.word; return n.toNat * 6) := by
      simp only [Walk.targetSize]
      grind
    have hn : (UInt16.ofNat ranges.length).toNat = ranges.length := UInt16.toNat_ofNat_of_lt hlen
    rw [TypeTarget.tag, hsize, bind_assoc]
    refine passes_word_bind (UInt16.ofNat ranges.length) ?_
    have hrows : (ranges.flatMap TypeTarget.rangeBytes).length = ranges.length * 6 :=
      length_rows TypeTarget.rangeBytes (fun _ => rfl) ranges
    rw [pure_bind, hn]
    exact (passes_skip hrows).bind hk
  | «catch» index => exact sized rfl (Word.length_bytes index) rfl
  | offset tag position =>
    refine sized (n := 2) ?_ (Word.length_bytes position) rfl
    have ht : 0x43 ≤ tag.toNat ∧ tag.toNat ≤ 0x46 := ht
    simp only [Walk.targetSize, TypeTarget.tag]
    grind
  | typeArgument tag position index =>
    refine sized (n := 3) ?_ rfl rfl
    have ht : 0x47 ≤ tag.toNat ∧ tag.toNat ≤ 0x4B := ht
    simp only [Walk.targetSize, TypeTarget.tag]
    grind

/-- Each size is that of some form, according to the tag. -/
theorem targetSize_cases (tag : UInt8) :
    (∃ n, Walk.targetSize tag = pure n ∧ ∀ bytes : List UInt8, bytes.length = n →
      ∃ t : TypeTarget, t.Fits ∧ t.tag = tag ∧ t.info = [.fixed bytes]) ∨
    ((tag.toNat = 0x40 ∨ tag.toNat = 0x41) ∧
      Walk.targetSize tag = (do let ranges : UInt16 ← Walk.word; return ranges.toNat * 6)) ∨
    Walk.targetSize tag = throw (.malformed (.annotationTarget tag)) := by
  have eq_tag {n : Nat} (h : tag.toNat = n) : UInt8.ofNat n = tag := by
    rw [← h, UInt8.ofNat_toNat]
  unfold Walk.targetSize
  dsimp only
  split
  case isTrue h =>
    simp only [Bool.and_eq_true, decide_eq_true_eq] at h
    refine .inl ⟨0, rfl, fun bytes hlen => ?_⟩
    obtain rfl := List.length_eq_zero_iff.mp hlen
    exact ⟨.empty tag, h, rfl, rfl⟩
  split
  case isTrue h =>
    simp only [Bool.or_eq_true, decide_eq_true_eq] at h
    refine .inl ⟨1, rfl, fun bytes hlen => ?_⟩
    obtain ⟨index, rfl⟩ := exists_word (α := UInt8) hlen
    rcases h with h | h
    · exact ⟨.typeParameter tag index, h, rfl, rfl⟩
    · exact ⟨.formalParameter index, trivial, eq_tag h, rfl⟩
  split
  case isTrue h =>
    simp only [Bool.or_eq_true, Bool.and_eq_true, decide_eq_true_eq] at h
    refine .inl ⟨2, rfl, fun bytes hlen => ?_⟩
    obtain ⟨index, hindex⟩ := exists_word (α := UInt16) hlen
    rcases h with (h | h) | h
    · by_cases hsuper : tag.toNat = 0x10
      · exact ⟨.supertype index, trivial, eq_tag hsuper, by rw [hindex]; rfl⟩
      · obtain ⟨⟨parameter, bound⟩, hstep⟩ := exists_step bytes hlen
        exact ⟨.typeParameterBound tag parameter bound, ⟨by omega, h.2⟩, rfl, by rw [hstep]; rfl⟩
    · exact ⟨.throws index, trivial, eq_tag h, by rw [hindex]; rfl⟩
    · by_cases hcatch : tag.toNat = 0x42
      · exact ⟨.catch index, trivial, eq_tag hcatch, by rw [hindex]; rfl⟩
      · exact ⟨.offset tag index, ⟨by omega, h.2⟩, rfl, by rw [hindex]; rfl⟩
  split
  case isTrue h =>
    simp only [Bool.and_eq_true, decide_eq_true_eq] at h
    refine .inl ⟨3, rfl, fun bytes hlen => ?_⟩
    obtain ⟨position, _, rfl, index, rfl⟩ := exists_word_append (γ := UInt16) hlen fun rest h =>
      exists_word (α := UInt8) h
    exact ⟨.typeArgument tag position index, h, rfl, rfl⟩
  split
  case isTrue h =>
    simp only [Bool.or_eq_true, decide_eq_true_eq] at h
    exact .inr (.inl ⟨h, rfl⟩)
  case isFalse => exact .inr (.inr rfl)

theorem parses_target (tag : UInt8) (hk : Parses r (k ()) Q) :
    Parses r (Walk.targetSize tag >>= fun n => Walk.skip n >>= k) fun zs =>
      ∃ (t : TypeTarget) (ys : List Piece), t.Fits ∧ t.tag = tag ∧ Q ys ∧ zs = t.info ++ ys := by
  obtain ⟨n, hsize, hform⟩ | ⟨htag, hsize⟩ | hsize := targetSize_cases tag <;> rw [hsize]
  · rw [pure_bind]
    refine ((parses_skip n).bind hk).mono ?_
    rintro _ ⟨_, ys, ⟨bytes, hlen, rfl⟩, hys, rfl⟩
    obtain ⟨t, ht, htag, hinfo⟩ := hform bytes hlen
    exact ⟨t, ys, ht, htag, hys, by rw [hinfo]⟩
  · simp only [bind_assoc, pure_bind]
    refine (parses_word_bind fun n : UInt16 => (parses_skip (n.toNat * 6)).bind hk).mono ?_
    rintro _ ⟨n, _, ⟨_, ys, ⟨bytes, hlen, rfl⟩, hys, rfl⟩, rfl⟩
    obtain ⟨ranges, hn, rfl⟩ := exists_rows exists_range n.toNat hlen
    refine ⟨.localVariable tag ranges, ys, ⟨htag, hn ▸ n.toNat_lt⟩, rfl, hys, ?_⟩
    rw [TypeTarget.info, hn, UInt16.ofNat_toNat]
    rfl
  · exact fun _ _ hrun => absurd hrun throw_ne_ok

end

theorem follows_annotatedType (r : Renaming) (levels : Nat) :
    Follows r (Walk.annotatedType r levels) (Format.elementValue levels).annotatedType where
  passes a ha := by
    obtain ⟨htarget, hpath, hannotated⟩ := ha
    have hn : (UInt8.ofNat a.path.length).toNat = a.path.length := UInt8.toNat_ofNat_of_lt hpath
    have hrows : (a.path.flatMap stepBytes).length = a.path.length * 2 :=
      length_rows stepBytes (fun _ => rfl) a.path
    refine passes_word_bind a.target.tag (passes_target htarget ?_)
    refine passes_word_bind (UInt8.ofNat a.path.length) ?_
    rw [hn]
    exact (passes_skip hrows).bind ((follows_elementValue r levels).annotated.passes hannotated)
  parses := by
    refine (parses_word_bind fun tag : UInt8 => parses_target tag
      (parses_word_bind fun n : UInt8 => (parses_skip (n.toNat * 2)).bind
        (follows_elementValue r levels).annotated.parses)).mono ?_
    rintro _ ⟨_, _, ⟨t, _, ht, rfl, ⟨n, _, ⟨_, _, ⟨bytes, hlen, rfl⟩, ⟨a, ha, rfl⟩, rfl⟩, rfl⟩,
      rfl⟩, rfl⟩
    obtain ⟨path, hn, rfl⟩ := exists_rows exists_step n.toNat hlen
    refine ⟨⟨t, path, a⟩, ⟨ht, hn ▸ n.toNat_lt, ha⟩, ?_⟩
    have hcount : UInt8.ofNat path.length = n := by rw [hn, UInt8.ofNat_toNat]
    simp only [Format.annotatedType, hcount, List.cons_append, List.nil_append]

/-! ## Code, variables, records and inner classes -/

theorem follows_localVariable {slot : UInt16 → Slot}
    {hslot : ∀ i j, (slot i).withIndex j = slot j} (hpasses : ∀ i, Passes r w [.slot (slot i)])
    (hparses : Parses r w fun xs => ∃ i, xs = [.slot (slot i)]) :
    Follows r (do Walk.skip 6; w; Walk.skip 2) (.localVariable slot hslot) where
  passes v _ := by
    have hlen : (Word.bytes v.start ++ (Word.bytes v.length ++ Word.bytes v.name)).length = 6 := rfl
    exact (passes_skip hlen).bind
      ((hpasses v.type).bind (passes_skip (Word.length_bytes v.register)))
  parses := by
    refine ((parses_skip 6).bind (hparses.bind (parses_skip 2))).mono ?_
    rintro _ ⟨_, _, ⟨bytes, hlen, rfl⟩, ⟨_, _, ⟨type, rfl⟩, ⟨bytes', hlen', rfl⟩, rfl⟩, rfl⟩
    obtain ⟨⟨start, length, name⟩, rfl⟩ := exists_range bytes hlen
    obtain ⟨register, rfl⟩ := exists_word (α := UInt16) hlen'
    exact ⟨⟨start, length, name, type, register⟩, trivial, rfl⟩

theorem follows_innerClass (r : Renaming) : Follows r (Walk.innerClass r) .innerClass where
  passes c _ := passes_innerClass c.inner c.outer c.name c.access
  parses := by
    refine parses_innerClass.mono ?_
    rintro _ ⟨inner, outer, name, access, rfl⟩
    exact ⟨⟨inner, outer, name, access⟩, trivial, rfl⟩

theorem Follows.component (h : Follows r w F) :
    Follows r (do Walk.skip 2; Walk.descriptorSlot r; w) F.component where
  passes c hc := (passes_skip (Word.length_bytes c.name)).bind
    ((passes_descriptorSlot c.type).bind (h.passes hc))
  parses := by
    refine ((parses_skip 2).bind (parses_descriptorSlot.bind h.parses)).mono ?_
    rintro _ ⟨_, _, ⟨bytes, hlen, rfl⟩, ⟨_, _, ⟨type, rfl⟩, ⟨attributes, hfits, rfl⟩, rfl⟩, rfl⟩
    obtain ⟨name, rfl⟩ := exists_word (α := UInt16) hlen
    exact ⟨⟨name, type, attributes⟩, hfits, rfl⟩

theorem Follows.code (h : Follows r w F) : Follows r (Walk.code w) F.code where
  passes c hc := by
    obtain ⟨hcode, hhandlers, hattributes⟩ := hc
    have hhead : (Word.bytes c.maxStack ++ Word.bytes c.maxLocals).length = 4 := rfl
    have hsize : (UInt32.ofNat c.code.length).toNat = c.code.length :=
      UInt32.toNat_ofNat_of_lt hcode
    have hn : (UInt16.ofNat c.handlers.length).toNat = c.handlers.length :=
      UInt16.toNat_ofNat_of_lt hhandlers
    have hrows : (c.handlers.flatMap Handler.bytes).length = c.handlers.length * 8 :=
      length_rows Handler.bytes (fun _ => rfl) c.handlers
    refine (passes_skip hhead).bind (passes_word_bind (UInt32.ofNat c.code.length) ?_)
    refine (passes_skip hsize.symm).bind (passes_word_bind (UInt16.ofNat c.handlers.length) ?_)
    rw [hn]
    exact (passes_skip hrows).bind (h.passes hattributes)
  parses := by
    refine ((parses_skip 4).bind (parses_word_bind fun size : UInt32 =>
      (parses_skip size.toNat).bind (parses_word_bind fun n : UInt16 =>
        (parses_skip (n.toNat * 8)).bind h.parses))).mono ?_
    rintro _ ⟨_, _, ⟨head, hhead, rfl⟩, ⟨size, _, ⟨_, _, ⟨code, hcode, rfl⟩, ⟨n, _, ⟨_, _,
      ⟨bytes, hlen, rfl⟩, ⟨attributes, hfits, rfl⟩, rfl⟩, rfl⟩, rfl⟩, rfl⟩, rfl⟩
    obtain ⟨maxStack, _, rfl, maxLocals, rfl⟩ := exists_word_append (γ := UInt16) hhead
      fun rest h => exists_word (α := UInt16) h
    obtain ⟨handlers, hn, rfl⟩ := exists_rows exists_handler n.toNat hlen
    refine ⟨⟨maxStack, maxLocals, code, handlers, attributes⟩,
      ⟨hcode ▸ size.toNat_lt, hn ▸ n.toNat_lt, hfits⟩, ?_⟩
    have hsize : UInt32.ofNat code.length = size := by rw [hcode, UInt32.ofNat_toNat]
    have hcount : UInt16.ofNat handlers.length = n := by rw [hn, UInt16.ofNat_toNat]
    simp only [Format.code, hsize, hcount, List.cons_append, List.nil_append]

end Relabel.Layout
