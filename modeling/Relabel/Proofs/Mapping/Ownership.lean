import Relabel.Proofs.Mapping.Reading
import Relabel.Proofs.Text.Split

/-!
# The classes that member lines belong to

A line at the margin of a TSRG file is one that is not blank and does not start with a
tab. Member lines belong to the closest line at the margin that is text, and give
records only if that one is a well-formed class line. A line at the margin that is no
text should part the members behind it from the class before it as other ill-formed
class lines do, but it is passed over.
-/

namespace Relabel.Mapping

namespace Tsrg

/-! ## Lines at the margin -/

/-- The characters of a stored line, if it is text. -/
def chars? (line : List UInt8) : Option (List Char) :=
  match Text.Utf8.decode line with
  | .ok text => some text.toList
  | .error _ => none

/-- Whether the line is not blank and does not start with a tab. What is no text is not blank. -/
def atMargin (line : List UInt8) : Bool :=
  line.head? != some 9 && !(chars? line).any (·.all Text.isBlank)

/-- The first of exactly two words, if no blank stands in front of it. -/
def headerOf (chars : List Char) : Option String :=
  if chars.head?.any Text.isBlank then none
  else
    match Text.words chars with
    | [pivot, _] => some pivot
    | _ => none

/-- The class that a well-formed class line names. -/
def header? (line : List UInt8) : Option String := (chars? line).bind headerOf

/-- Whether the line is at the margin and is text. -/
def isHeading (line : List UInt8) : Bool := atMargin line && (chars? line).isSome

/-- The closest of the lines before the one at `i` that satisfies `p`. -/
def closest? (p : List UInt8 → Bool) (lines : List (List UInt8)) (i : Nat) :
    Option (List UInt8) :=
  (lines.take i).reverse.find? p

/-- The record that the line at `i` adds to those of the lines before it. -/
def added? (s : Source) (i : Nat) : Option Record :=
  (read (s.lines.take (i + 1))).records[(read (s.lines.take i)).records.size]?

/-- Members belong to the closest line at the margin, which is a well-formed class line. -/
def MembersOwned (s : Source) : Prop :=
  ∀ i record owner, added? s i = some record → record.key.owner? = some owner →
    (closest? atMargin (Text.byteLines s.text) i).bind header? = some owner

/-! ## One line -/

theorem isBlank_return : ∀ c, (c == '\r') = true → Text.isBlank c = true := by
  intro c hc
  rw [beq_iff_eq.mp hc]
  decide

theorem all_isBlank_trimEnd (chars : List Char) :
    (Text.trimEnd (· == '\r') chars).all Text.isBlank = chars.all Text.isBlank := by
  obtain ⟨ys, hchars, hys⟩ := Text.exists_trimEnd (· == '\r') chars
  have hblank : ys.all Text.isBlank = true :=
    List.all_eq_true.mpr fun c hc => isBlank_return c (hys c hc)
  conv => rhs; rw [hchars, List.all_append, hblank, Bool.and_true]

theorem headerOf_trimEnd {chars rest : List Char} {c : Char}
    (h : Text.trimEnd (· == '\r') chars = c :: rest) : headerOf (c :: rest) = headerOf chars := by
  obtain ⟨ys, hchars, -⟩ := Text.exists_trimEnd (· == '\r') chars
  have hwords : Text.words (c :: rest) = Text.words chars := by
    rw [← h, Text.words_trimEnd isBlank_return]
  have hhead : chars.head? = some c := by
    rw [hchars, h]
    rfl
  simp only [headerOf, hwords, hhead, List.head?_cons]

/-- Blank lines and lines that start with a tab leave the class as it is, and all others name the
class behind them or end the one before. -/
theorem readChars_owner (owner : Option String) (chars : List Char) :
    (readChars owner chars).1 =
      if chars.all Text.isBlank = true ∨ chars.head? = some '\t' then owner
      else headerOf chars := by
  obtain ⟨ys, hchars, -⟩ := Text.exists_trimEnd (· == '\r') chars
  have hall := (all_isBlank_trimEnd chars).symm
  unfold readChars
  split
  case h_1 hnil =>
    rw [hnil] at hall
    rw [if_pos (.inl hall)]
  case h_2 c rest hcons =>
    have hhead : chars.head? = some c := by
      rw [hchars, hcons]
      rfl
    rw [hall, hcons, hhead, ← headerOf_trimEnd hcons]
    by_cases hsome : (c :: rest).all Text.isBlank = true
    · rw [if_pos hsome, if_pos (.inl hsome)]
    by_cases htab : c = '\t'
    · rw [if_neg hsome, if_pos htab]
      exact (if_pos (.inr (congrArg some htab))).symm
    have hmargin : ¬ ((c :: rest).all Text.isBlank = true ∨ some c = some '\t') :=
      not_or.mpr ⟨hsome, fun h => htab (Option.some.inj h)⟩
    rw [if_neg hsome, if_neg htab, if_neg hmargin, headerOf]
    by_cases hc : Text.isBlank c = true
    · rw [if_pos hc]
      exact (if_pos hc).symm
    · rw [if_neg hc]
      refine Eq.trans ?_ (if_neg hc).symm
      generalize Text.words (c :: rest) = words
      obtain _ | ⟨pivot, _ | ⟨name, _ | ⟨extra, words⟩⟩⟩ := words <;> rfl

theorem owner_of_readMember {owner class_ : String} {chars : List Char} {record : Record}
    (h : recordOf (readMember owner chars) = some record)
    (hclass : record.key.owner? = some class_) : owner = class_ := by
  unfold readMember at h
  split at h
  case h_1 =>
    cases h
    exact Option.some.inj hclass
  case h_2 =>
    split at h
    · cases h
    · cases h
      exact Option.some.inj hclass
  case h_3 => cases h

/-- A member comes from a line that starts with a tab and belongs to the class that the line stands
in. -/
theorem owner_of_readChars {owner : Option String} {chars : List Char} {record : Record}
    {class_ : String} (h : recordOf (readChars owner chars).2 = some record)
    (hclass : record.key.owner? = some class_) :
    owner = some class_ ∧ chars.head? = some '\t' := by
  obtain ⟨ys, hchars, -⟩ := Text.exists_trimEnd (· == '\r') chars
  unfold readChars at h
  split at h
  case h_1 => cases h
  case h_2 c rest hcons =>
    have hhead : chars.head? = some c := by
      rw [hchars, hcons]
      rfl
    split at h
    · cases h
    split at h
    case isTrue htab =>
      refine ⟨?_, htab ▸ hhead⟩
      simp only at h
      split at h
      · cases h
      · split at h
        · cases h
        · exact congrArg some (owner_of_readMember h hclass)
    case isFalse =>
      split at h
      · cases h
      · split at h
        · cases h
          cases hclass
        · cases h

/-- A line starts with a tab if its text does. -/
theorem head?_eq_tab {line : List UInt8} {text : String} (h : Text.Utf8.decode line = .ok text) :
    line.head? = some 9 ↔ text.toList.head? = some '\t' := by
  rw [← Text.Utf8.utf8_of_decode h, Text.utf8_eq]
  obtain _ | ⟨c, chars⟩ := text.toList
  · simp
  obtain ⟨b, bytes, hc⟩ := List.exists_cons_of_ne_nil (String.utf8EncodeChar_ne_nil (c := c))
  rw [List.flatMap_cons, hc, List.cons_append, List.head?_cons, List.head?_cons,
    Option.some.injEq, Option.some.injEq]
  constructor
  · rintro rfl
    have hmem : (9 : UInt8) ∈ String.utf8EncodeChar c := hc ▸ List.mem_cons_self
    exact Char.toNat_inj.mp (Text.Utf8.utf8EncodeChar_of_mem (by decide) hmem).2
  · rintro rfl
    cases hc
    rfl

theorem chars?_of_decode {line : List UInt8} {text : String}
    (h : Text.Utf8.decode line = .ok text) : chars? line = some text.toList := by
  rw [chars?, h]

theorem isHeading_iff {line : List UInt8} {text : String} (h : Text.Utf8.decode line = .ok text) :
    isHeading line = true ↔
      ¬ (text.toList.all Text.isBlank = true ∨ text.toList.head? = some '\t') := by
  rw [isHeading, atMargin, chars?_of_decode h, ← head?_eq_tab h]
  simp [and_comm]

/-- A heading decides on the class behind it, and no other line changes it. -/
theorem readText_owner (s : Source) (owner : Option String) (line : List UInt8) :
    (readText owner (s.readLine line)).1 = if isHeading line then header? line else owner := by
  unfold Source.readLine
  split
  case h_1 text h =>
    have howner : (readText owner (.ok text)).1
        = if text.toList.all Text.isBlank = true ∨ text.toList.head? = some '\t' then owner
          else headerOf text.toList := readChars_owner owner text.toList
    rw [howner, header?, chars?_of_decode h, Option.bind_some, ← ite_not]
    exact ite_congr (propext (isHeading_iff h).symm) (fun _ => rfl) fun _ => rfl
  case h_2 cause h =>
    have hchars : chars? line = none := by rw [chars?, h]
    rw [isHeading, hchars, Option.isSome_none, Bool.and_false, if_neg Bool.false_ne_true]
    rfl

/-! ## All lines -/

variable {s : Source} {i : Nat}

/-- Lines stand in the class that the closest heading before them names. -/
theorem classBehind_take (s : Source) (lines : List (List UInt8)) (i : Nat) :
    classBehind none ((lines.take i).map s.readLine)
      = (closest? isHeading lines i).bind header? := by
  induction i with
  | zero => rfl
  | succ i ih =>
    rw [closest?, List.take_add_one, List.map_append, List.reverse_append]
    cases lines[i]? with
    | none =>
      rw [Option.toList_none, List.map_nil, List.append_nil]
      exact ih
    | some line =>
      have hstep : classBehind none ((lines.take i).map s.readLine ++ [s.readLine line])
          = (readText (classBehind none ((lines.take i).map s.readLine)) (s.readLine line)).1 :=
        List.foldl_append
      simp only [Option.toList_some, List.map_cons, List.map_nil, List.reverse_singleton,
        List.singleton_append, List.find?_cons]
      rw [hstep, readText_owner, ih]
      cases isHeading line <;> rfl

/-- The record that the line at `i` gives in the class of the closest heading. -/
def given? (s : Source) (i : Nat) : Option Record :=
  (Text.byteLines s.text)[i]?.bind fun line => recordOf
    (readText ((closest? isHeading (Text.byteLines s.text) i).bind header?) (s.readLine line)).2

theorem records_take_add_one (s : Source) (i : Nat) :
    (read (s.lines.take (i + 1))).records.toList
      = (read (s.lines.take i)).records.toList ++ (given? s i).toList := by
  rw [records_read, records_read, List.map_take, List.map_take, texts_lines, List.take_add_one,
    recordsFrom_append, given?, ← classBehind_take s, List.map_take, List.getElem?_map]
  cases (Text.byteLines s.text)[i]? with
  | none => rfl
  | some line => simp [recordsFrom]

theorem added?_eq (s : Source) (i : Nat) : added? s i = given? s i := by
  rw [added?, ← Array.getElem?_toList, records_take_add_one, ← Array.length_toList,
    List.getElem?_append_right (Nat.le_refl _), Nat.sub_self]
  cases given? s i <;> rfl

/-- The records are those that the lines add, in their order. -/
theorem records_take (s : Source) (count : Nat) :
    (read (s.lines.take count)).records.toList = (List.range count).filterMap (added? s) := by
  induction count with
  | zero => rfl
  | succ count ih =>
    rw [records_take_add_one, ih, List.range_succ, List.filterMap_append, ← added?_eq]
    cases h : added? s count <;> simp [h]

/-- A member comes from a line that starts with a tab and belongs to the class that the closest
heading names. -/
theorem owner_of_added? {record : Record} {owner : String} (h : added? s i = some record)
    (howner : record.key.owner? = some owner) :
    (∃ line, (Text.byteLines s.text)[i]? = some line ∧ line.head? = some 9) ∧
      (closest? isHeading (Text.byteLines s.text) i).bind header? = some owner := by
  rw [added?_eq, given?] at h
  obtain ⟨line, hline, h⟩ := Option.bind_eq_some_iff.mp h
  unfold Source.readLine at h
  split at h
  case h_1 text htext =>
    obtain ⟨hclass, htab⟩ := owner_of_readChars h howner
    exact ⟨⟨line, hline, (head?_eq_tab htext).mpr htab⟩, hclass⟩
  case h_2 => cases h

theorem atMargin_of_isHeading {line : List UInt8} (h : isHeading line = true) :
    atMargin line = true := by
  rw [isHeading, Bool.and_eq_true] at h
  exact h.1

/-- If the closest line at the margin is text, it is the closest heading. -/
theorem closest?_isHeading {lines : List (List UInt8)} {line : List UInt8}
    (h : closest? atMargin lines i = some line) (htext : chars? line ≠ none) :
    closest? isHeading lines i = some line := by
  obtain ⟨hline, before, behind, hlines, hbefore⟩ := List.find?_eq_some_iff_append.mp h
  refine List.find?_eq_some_iff_append.mpr ⟨?_, before, behind, hlines, fun other hother => ?_⟩
  · rw [isHeading, hline, Option.isSome_iff_ne_none.mpr htext]
    rfl
  · have hmargin := hbefore other hother
    rw [Bool.not_eq_true'] at hmargin ⊢
    exact Bool.eq_false_iff.mpr fun hheading =>
      Bool.false_ne_true (hmargin.symm.trans (atMargin_of_isHeading hheading))

theorem closest?_isHeading_of_none {lines : List (List UInt8)}
    (h : closest? atMargin lines i = none) : closest? isHeading lines i = none :=
  List.find?_eq_none.mpr fun line hline hheading =>
    List.find?_eq_none.mp h line hline (atMargin_of_isHeading hheading)

/-- The records of a file are those that its lines add, in their order. A member comes from a line
that starts with a tab and belongs to the class that the closest heading names. So members belong
to the closest line at the margin exactly if none is added behind one that is no text. -/
theorem load_members_owned (s : Source) :
    (load (some s)).records.toList = (List.range s.lines.length).filterMap (added? s) ∧
    (∀ i record owner, added? s i = some record → record.key.owner? = some owner →
      (∃ line, (Text.byteLines s.text)[i]? = some line ∧ line.head? = some 9) ∧
        (closest? isHeading (Text.byteLines s.text) i).bind header? = some owner) ∧
    (MembersOwned s ↔ ∀ i line record, closest? atMargin (Text.byteLines s.text) i = some line →
      chars? line = none → added? s i = some record → record.key.owner? = none) := by
  refine ⟨?_, fun i record owner => owner_of_added?, fun howned i line record hline htext h => ?_,
    fun hnone i record owner h howner => ?_⟩
  · have hrecords := records_take s s.lines.length
    rwa [List.take_length] at hrecords
  · refine Option.eq_none_iff_forall_ne_some.mpr fun owner howner => ?_
    have hclass := howned i record owner h howner
    rw [hline, Option.bind_some, header?, htext] at hclass
    cases hclass
  · have hclass := (owner_of_added? h howner).2
    cases hclosest : closest? atMargin (Text.byteLines s.text) i with
    | none =>
      rw [closest?_isHeading_of_none hclosest] at hclass
      cases hclass
    | some line =>
      have htext : chars? line ≠ none := fun htext => by
        rw [hnone i line record hclosest htext h] at howner
        cases howner
      rwa [closest?_isHeading hclosest htext] at hclass

/-- Two classes with a member each, and between them a line that is none and one behind it. -/
def partedMembers : Source :=
  ⟨"mem", Text.utf8 "a A\n\tb f\nB\n\tb g\n\nc C\r\n\te ()V m\r\n"⟩

theorem load_members_owned_partedMembers : MembersOwned partedMembers ∧
    (load (some partedMembers)).records.toList = [⟨.ofClass "a", "A"⟩, ⟨.ofField "a" "b", "f"⟩,
      ⟨.ofClass "c", "C"⟩, ⟨.ofMethod "c" "e" "()V", "m"⟩] := by
  obtain ⟨hrecords, -, howned⟩ := load_members_owned partedMembers
  refine ⟨howned.mpr fun i line record hline htext => ?_, hrecords.trans (by decide +kernel)⟩
  have hall : ∀ line ∈ Text.byteLines partedMembers.text, chars? line ≠ none := by
    decide +kernel
  have hmem := List.mem_of_mem_take (List.mem_reverse.mp (List.mem_of_find?_eq_some hline))
  exact absurd htext (hall line hmem)

/-- A class, a line at the margin that is no text, and a member behind it. -/
def strayMember : Source :=
  ⟨"mem", [97, 32, 65, 10, 0xFF, 32, 66, 10, 9, 98, 32, 102, 10]⟩

/-- The member behind the line that is no text still belongs to the class in front of it. -/
theorem not_membersOwned_strayMember : ¬ MembersOwned strayMember := by
  intro h
  have hadded : added? strayMember 2 = some ⟨.ofField "a" "b", "f"⟩ := by decide +kernel
  have hclass : (closest? atMargin (Text.byteLines strayMember.text) 2).bind header? = none := by
    decide +kernel
  cases hclass.symm.trans (h 2 _ "a" hadded rfl)

end Tsrg

end Relabel.Mapping
