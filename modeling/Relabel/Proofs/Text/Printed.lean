import Relabel.Proofs.Text.Split

/-!
# Printed text

Words with a separator between each two are one line, and lines with their ends are one
file. Both are taken apart again, but a byte order mark in front of the file is left out.
-/

namespace Relabel.Text

variable {lines : List (String × LineEnd)}

/-- What a line of words may hold: not empty, without blanks, and no byte order mark in front. -/
structure IsWord (text : String) : Prop where
  ne_empty : text ≠ ""
  not_isBlank : ∀ c ∈ text.toList, isBlank c = false
  head?_ne : text.toList.head? ≠ some '\uFEFF'

/-- Whether a text is a word. -/
def isWord (text : String) : Bool :=
  !text.toList.isEmpty && text.toList.all (!isBlank ·) && !text.toList.head?.any (· == '\uFEFF')

theorem isWord_iff {text : String} : isWord text = true ↔ IsWord text := by
  rw [isWord, Bool.and_eq_true, Bool.and_eq_true]
  constructor
  · rintro ⟨⟨hne, hblank⟩, hhead⟩
    refine ⟨?_, fun c hc => ?_, fun hmark => ?_⟩
    · rintro rfl
      cases hne
    · simpa using List.all_eq_true.mp hblank c hc
    · rw [hmark] at hhead
      cases hhead
  · rintro ⟨hne, hblank, hhead⟩
    refine ⟨⟨?_, ?_⟩, ?_⟩
    · simpa using hne
    · exact List.all_eq_true.mpr fun c hc => by rw [hblank c hc, Bool.not_false]
    · cases htext : text.toList.head? with
      | none => rfl
      | some c =>
        have hc : (c == '\uFEFF') = false :=
          beq_eq_false_iff_ne.mpr fun heq => hhead (htext.trans (congrArg some heq))
        rw [Option.any_some, hc]
        rfl

instance (text : String) : Decidable (IsWord text) := decidable_of_iff _ isWord_iff

/-- Without newlines and carriage returns. -/
structure IsLine (line : String) : Prop where
  newline_not_mem : '\n' ∉ line.toList
  return_not_mem : '\r' ∉ line.toList

instance (line : String) : Decidable (IsLine line) :=
  decidable_of_iff ('\n' ∉ line.toList ∧ '\r' ∉ line.toList)
    ⟨fun ⟨hnewline, hreturn⟩ => ⟨hnewline, hreturn⟩, fun ⟨hnewline, hreturn⟩ =>
      ⟨hnewline, hreturn⟩⟩

theorem IsWord.ne_nil {text : String} (h : IsWord text) : text.toList ≠ [] :=
  fun hnil => h.ne_empty (String.toList_eq_nil_iff.mp hnil)

theorem ne_of_not_isBlank {c blank : Char} (hc : isBlank c = false)
    (hblank : isBlank blank = true) : c ≠ blank := by
  rintro rfl
  cases hc.symm.trans hblank

theorem IsWord.not_mem {text : String} (h : IsWord text) {blank : Char}
    (hblank : isBlank blank = true) : blank ∉ text.toList :=
  fun hmem => ne_of_not_isBlank (h.not_isBlank blank hmem) hblank rfl

theorem IsLine.append {line more : String} (h : IsLine line) (hmore : IsLine more) :
    IsLine (line ++ more) where
  newline_not_mem := by
    rw [String.toList_append, List.mem_append, not_or]
    exact ⟨h.newline_not_mem, hmore.newline_not_mem⟩
  return_not_mem := by
    rw [String.toList_append, List.mem_append, not_or]
    exact ⟨h.return_not_mem, hmore.return_not_mem⟩

theorem IsLine.trimEnd {line : String} (h : IsLine line) :
    trimEnd (· == '\r') line.toList = line.toList :=
  trimEnd_of_forall _ fun _ hc => beq_eq_false_iff_ne.mpr fun heq => h.return_not_mem (heq ▸ hc)

/-! ## Lines of words -/

theorem not_mem_intercalate {separator : String} {texts : List String} {c : Char}
    (hseparator : c ∉ separator.toList) (h : ∀ text ∈ texts, c ∉ text.toList) :
    c ∉ (separator.intercalate texts).toList := by
  rw [String.toList_intercalate]
  induction texts with
  | nil => exact List.not_mem_nil
  | cons text texts ih =>
    obtain ⟨htext, htexts⟩ := List.forall_mem_cons.mp h
    obtain _ | ⟨next, texts⟩ := texts
    · rwa [List.map_singleton, List.intercalate_singleton]
    · rw [List.map_cons, List.map_cons, List.intercalate_cons_cons, List.mem_append,
        List.mem_append, not_or, not_or]
      exact ⟨⟨htext, hseparator⟩, ih htexts⟩

theorem isLine_intercalate {separator : String} {texts : List String}
    (hseparator : IsLine separator) (h : ∀ text ∈ texts, IsWord text) :
    IsLine (separator.intercalate texts) where
  newline_not_mem := not_mem_intercalate hseparator.newline_not_mem fun text htext =>
    (h text htext).not_mem (by decide)
  return_not_mem := not_mem_intercalate hseparator.return_not_mem fun text htext =>
    (h text htext).not_mem (by decide)

theorem columns_intercalate {texts : List String} (hne : texts ≠ [])
    (h : ∀ text ∈ texts, '\t' ∉ text.toList) :
    columns ("\t".intercalate texts).toList = texts := by
  have hpieces : ∀ chars ∈ texts.map String.toList, ∀ c ∈ chars, (c == '\t') = false := by
    intro chars hchars c hc
    obtain ⟨text, htext, rfl⟩ := List.mem_map.mp hchars
    exact beq_eq_false_iff_ne.mpr fun heq => h text htext (heq ▸ hc)
  have hmap : texts.map String.toList ≠ [] := fun hnil => hne (List.map_eq_nil_iff.mp hnil)
  have htab : "\t".toList = ['\t'] := rfl
  rw [columns, String.toList_intercalate, htab, pieces_intercalate hmap hpieces rfl]
  simp

theorem words_intercalate {texts : List String} (h : ∀ text ∈ texts, IsWord text) :
    words (" ".intercalate texts).toList = texts := by
  by_cases hne : texts = []
  · subst hne
    rfl
  have hpieces : ∀ chars ∈ texts.map String.toList, ∀ c ∈ chars, isBlank c = false := by
    intro chars hchars
    obtain ⟨text, htext, rfl⟩ := List.mem_map.mp hchars
    exact (h text htext).not_isBlank
  have hfilter : (texts.map String.toList).filter (!·.isEmpty) = texts.map String.toList := by
    refine List.filter_eq_self.mpr fun chars hchars => ?_
    obtain ⟨text, htext, rfl⟩ := List.mem_map.mp hchars
    simpa using (h text htext).ne_nil
  have hmap : texts.map String.toList ≠ [] := fun hnil => hne (List.map_eq_nil_iff.mp hnil)
  have hspace : " ".toList = [' '] := rfl
  rw [words, String.toList_intercalate, hspace, pieces_intercalate hmap hpieces (by decide),
    hfilter]
  simp

/-- A line of words starts as the first one. -/
theorem head?_intercalate {separator text : String} (h : IsWord text) (texts : List String) :
    (separator.intercalate (text :: texts)).toList.head? = text.toList.head? := by
  obtain ⟨c, chars, htext⟩ := List.exists_cons_of_ne_nil h.ne_nil
  rw [String.toList_intercalate, List.map_cons, htext]
  obtain _ | ⟨next, texts⟩ := texts
  · rw [List.map_nil, List.intercalate_singleton]
  · rw [List.map_cons, List.intercalate_cons_cons]
    rfl

theorem exists_cons_intercalate {text : String} (h : IsWord text) (separator : String)
    (texts : List String) : ∃ c chars,
      (separator.intercalate (text :: texts)).toList = c :: chars ∧ isBlank c = false := by
  obtain ⟨c, chars, htext⟩ := List.exists_cons_of_ne_nil h.ne_nil
  have hhead : (separator.intercalate (text :: texts)).toList.head? = some c := by
    rw [head?_intercalate h, htext]
    rfl
  obtain ⟨rest, hrest⟩ := List.head?_eq_some_iff.mp hhead
  exact ⟨c, rest, hrest, h.not_isBlank c (htext ▸ List.mem_cons_self)⟩

/-! ## Files of lines -/

/-- The bytes of the lines, each in UTF-8 and with its end. -/
def printLines (lines : List (String × LineEnd)) : List UInt8 :=
  joinLines (lines.map fun (line, lineEnd) => (utf8 line, lineEnd))

theorem byteLines_printLines (h : ∀ line ∈ lines, IsLine line.1) :
    byteLines (printLines lines) = lines.map fun line => utf8 line.1 := by
  rw [printLines, byteLines_joinLines, List.map_map]
  · rfl
  · intro line hline
    obtain ⟨⟨text, lineEnd⟩, htext, rfl⟩ := List.mem_map.mp hline
    obtain ⟨hnewline, hreturn⟩ := h _ htext
    constructor
    · intro hmem
      obtain ⟨c, hc, hcode⟩ := Utf8.exists_char_of_mem (by decide) hmem
      have heq : c = '\n' := Char.toNat_inj.mp hcode
      exact hnewline (heq ▸ hc)
    · intro hlast
      obtain ⟨c, hc, hcode⟩ := Utf8.exists_char_of_mem (by decide) (List.mem_of_getLast? hlast)
      have heq : c = '\r' := Char.toNat_inj.mp hcode
      exact hreturn (heq ▸ hc)

/-- The line without a byte order mark in front. -/
def dropMark (line : String) : String :=
  match line.toList with
  | [] => line
  | c :: chars => if c = '\uFEFF' then .ofList chars else line

theorem dropMark_of_head? {line : String} (h : line.toList.head? ≠ some '\uFEFF') :
    dropMark line = line := by
  unfold dropMark
  split
  case h_1 => rfl
  case h_2 c chars hchars =>
    rw [hchars] at h
    exact if_neg fun hc => h (congrArg some hc)

theorem IsLine.dropMark {line : String} (h : IsLine line) : IsLine (dropMark line) := by
  unfold Text.dropMark
  split
  case h_1 => exact h
  case h_2 c chars hchars =>
    split
    · obtain ⟨hnewline, hreturn⟩ := h
      rw [hchars] at hnewline hreturn
      refine ⟨?_, ?_⟩ <;> rw [String.toList_ofList]
      · exact fun hmem => hnewline (List.mem_cons_of_mem _ hmem)
      · exact fun hmem => hreturn (List.mem_cons_of_mem _ hmem)
    · exact h

end Relabel.Text
