import Relabel.Proofs.Mapping.Ownership
import Relabel.Proofs.Mapping.Agreement

/-!
# Parts of mapping files

A newline parts a mapping file into a part in front of it and a part behind it, whatever bytes
they hold. The records of the file are those of both parts, read on their own: a Tiny line
depends on no other, and in a TSRG file nothing but the class is carried from one part into the
other, where a class line at the start of the second part ends it. So no damage to one part
reaches a record of the other.
-/

namespace Relabel.Mapping

open Text

/-! ## The lines of both parts -/

/-- Only the part in front can lose a byte order mark, which holds no newline. -/
theorem text_append (whole first : String) (front back : List UInt8) :
    Source.text ⟨whole, front ++ 10 :: back⟩ = Source.text ⟨first, front⟩ ++ 10 :: back := by
  have hmark (name : String) (rest : List UInt8) :
      Source.text ⟨name, byteOrderMark ++ rest⟩ = rest := rfl
  by_cases h : byteOrderMark <+: front
  · obtain ⟨rest, rfl⟩ := h
    rw [List.append_assoc, hmark, hmark]
  · have hfront : ∀ more, byteOrderMark ++ more ≠ front := fun more hmore => h ⟨more, hmore⟩
    -- A mark that is not in the front alone would have to reach over the newline.
    have hwhole : ∀ more, byteOrderMark ++ more ≠ front ++ 10 :: back := by
      intro more hmore
      obtain ⟨rest, hrest, -⟩ | ⟨rest, hrest, hback⟩ := List.append_eq_append_iff.mp hmore
      · exact hfront rest hrest.symm
      obtain _ | ⟨b, rest⟩ := rest
      · exact hfront [] (by rw [hrest, List.append_nil, List.append_nil])
      · have hnewline : (10 : UInt8) ∈ byteOrderMark := by
          rw [hrest, (List.cons.inj hback).1]
          simp
        exact absurd hnewline (by decide)
    rw [text_of_ne hfront, text_of_ne hwhole]

/-! ## Tiny files -/

namespace Tiny

/-- The record of a stored line, if it gives one. -/
def record? (line : List UInt8) : Option Record :=
  match Utf8.decode line with
  | .ok text => recordOf (readLine text)
  | .error _ => none

theorem record?_nil : record? [] = none := by decide +kernel

theorem recordOf_readLine (s : Source) (line : List UInt8) :
    recordOf (s.readLine line >>= readLine) = record? line := by
  unfold Source.readLine record?
  cases Utf8.decode line <;> rfl

/-- Each line behind the first gives its record, whatever stands around it. -/
theorem records_load_lines (s : Source) :
    (load (some s)).records.toList = (byteLines s.text).tail.filterMap record? := by
  have hrecord : (fun text => recordOf (text >>= readLine)) ∘ s.readLine = record? :=
    funext (recordOf_readLine s)
  rw [load, records_read, texts_lines, ← List.map_tail, List.filterMap_map, hrecord]

/-- An empty piece at the end of a file gives no record, not even as its first line. -/
theorem filterMap_tail_pieces (bytes : List UInt8) :
    ((pieces (· == 10) bytes).map (dropEnd 13)).tail.filterMap record?
      = (byteLines bytes).tail.filterMap record? := by
  obtain hlines | hlines := pieces_eq_byteLines bytes <;> rw [hlines]
  obtain _ | ⟨first, lines⟩ := byteLines bytes
  · rfl
  · rw [List.cons_append, List.tail_cons, List.tail_cons, List.filterMap_append,
      List.filterMap_cons_none record?_nil, List.filterMap_nil, List.append_nil]

/-- The records of a file are those of the part in front of a newline and those of the part behind
it, where the header of the file stands in the part in front. -/
theorem records_load_append (whole first second : String) (front back : List UInt8) :
    (load (some ⟨whole, front ++ 10 :: back⟩)).records
      = (load (some ⟨first, front⟩)).records
        ++ (load (some ⟨second, utf8 "v1" ++ 10 :: back⟩)).records := by
  have hheader : byteLines (Source.text ⟨second, utf8 "v1" ++ 10 :: back⟩)
      = dropEnd 13 (utf8 "v1") :: byteLines back := by
    have hmark : Source.text ⟨second, utf8 "v1"⟩ = utf8 "v1" := by
      rw [text_utf8]
      rfl
    rw [text_append second second, hmark, byteLines_cons (by decide)]
  have hne : (pieces (· == 10) (Source.text ⟨first, front⟩)).map (dropEnd 13) ≠ [] := by
    simpa using pieces_ne_nil (· == 10) (Source.text ⟨first, front⟩)
  rw [← Array.toList_inj, Array.toList_append, records_load_lines, records_load_lines,
    records_load_lines, hheader, List.tail_cons, text_append whole first, byteLines_append,
    List.tail_append_of_ne_nil hne, List.filterMap_append, filterMap_tail_pieces]

end Tiny

/-! ## TSRG files -/

namespace Tsrg

/-- Whether the line is text and blank. -/
def isBlankLine (line : List UInt8) : Bool := (chars? line).any (·.all isBlank)

/-- Whether the first line that is not blank, if there is one, is a well-formed class line. -/
def startsWithClass (lines : List (List UInt8)) : Bool :=
  (lines.find? (!isBlankLine ·)).all fun line => (header? line).isSome

variable {s : Source} {owner : Option String} {line : List UInt8}

theorem readChars_of_blank (owner : Option String) {chars : List Char}
    (h : chars.all isBlank = true) : readChars owner chars = (owner, .ok none) := by
  rw [← all_isBlank_trimEnd] at h
  unfold readChars
  split
  case h_1 => rfl
  case h_2 c rest hcons => rw [if_pos (hcons ▸ h)]

/-- A class line is read without a look at the class in front of it. -/
theorem readChars_of_headerOf (owner : Option String) {chars : List Char} {pivot : String}
    (h : headerOf chars = some pivot) : readChars owner chars = readChars none chars := by
  unfold readChars
  split
  case h_1 hnil =>
    rw [headerOf, ← words_trimEnd isBlank_return, hnil] at h
    split at h <;> cases h
  case h_2 c rest hcons =>
    rw [← headerOf_trimEnd hcons, headerOf, List.head?_cons, Option.any_some] at h
    have hc : isBlank c = false := by
      cases hc : isBlank c
      · rfl
      · rw [if_pos hc] at h
        cases h
    have hblank : (c :: rest).all isBlank = false := by
      rw [List.all_cons, hc, Bool.false_and]
    have htab : c ≠ '\t' := by
      rintro rfl
      exact absurd hc (by decide)
    simp only [hblank, htab, hc, if_false, Bool.false_eq_true]

theorem readText_of_chars? (s : Source) (owner : Option String) {chars : List Char}
    (h : chars? line = some chars) : readText owner (s.readLine line) = readChars owner chars := by
  unfold chars? at h
  split at h
  case h_1 text htext =>
    cases h
    rw [Source.readLine, htext]
    rfl
  case h_2 => cases h

theorem readText_of_isBlankLine (s : Source) (owner : Option String) (h : isBlankLine line = true) :
    readText owner (s.readLine line) = (owner, .ok none) := by
  obtain ⟨chars, hchars, hblank⟩ := (Option.any_eq_true _ _).mp h
  rw [readText_of_chars? s owner hchars, readChars_of_blank owner hblank]

theorem readText_of_header? (s : Source) (owner : Option String) {pivot : String}
    (h : header? line = some pivot) :
    readText owner (s.readLine line) = readText none (s.readLine line) := by
  obtain ⟨chars, hchars, hheader⟩ := Option.bind_eq_some_iff.mp h
  rw [readText_of_chars? s owner hchars, readText_of_chars? s none hchars,
    readChars_of_headerOf owner hheader]

/-- The name of the source reaches the notices alone. -/
theorem recordsFrom_source (s s' : Source) (owner : Option String) (lines : List (List UInt8)) :
    recordsFrom owner (lines.map s.readLine) = recordsFrom owner (lines.map s'.readLine) := by
  induction lines generalizing owner with
  | nil => rfl
  | cons line lines ih =>
    have hline : (readText owner (s.readLine line)).1 = (readText owner (s'.readLine line)).1 ∧
        recordOf (readText owner (s.readLine line)).2
          = recordOf (readText owner (s'.readLine line)).2 := by
      unfold Source.readLine
      cases Utf8.decode line <;> exact ⟨rfl, rfl⟩
    rw [List.map_cons, List.map_cons, recordsFrom, recordsFrom, hline.1, hline.2, ih]

/-- Blank lines pass the class on until a class line ends it. -/
theorem recordsFrom_of_startsWithClass (s : Source) (owner : Option String)
    {lines : List (List UInt8)} (h : startsWithClass lines = true) :
    recordsFrom owner (lines.map s.readLine) = recordsFrom none (lines.map s.readLine) := by
  induction lines with
  | nil => rfl
  | cons line lines ih =>
    rw [List.map_cons, recordsFrom, recordsFrom]
    by_cases hblank : isBlankLine line = true
    · have hlines : startsWithClass lines = true := by
        rwa [startsWithClass, List.find?_cons_of_neg (by simp [hblank])] at h
      rw [readText_of_isBlankLine s owner hblank, readText_of_isBlankLine s none hblank, ih hlines]
    · rw [startsWithClass, List.find?_cons_of_pos (by simp [hblank]), Option.all_some] at h
      obtain ⟨pivot, hheader⟩ := Option.isSome_iff_exists.mp h
      rw [readText_of_header? s owner hheader]

/-- An empty piece at the end of a file gives no record. -/
theorem recordsFrom_pieces (s : Source) (owner : Option String) (bytes : List UInt8) :
    recordsFrom owner (((pieces (· == 10) bytes).map (dropEnd 13)).map s.readLine)
      = recordsFrom owner ((byteLines bytes).map s.readLine) := by
  obtain hlines | hlines := pieces_eq_byteLines bytes <;> rw [hlines]
  have hempty (owner : Option String) : readText owner (s.readLine []) = (owner, .ok none) :=
    readText_of_isBlankLine s owner (by decide +kernel)
  rw [List.map_append, recordsFrom_append, List.map_singleton, recordsFrom, hempty]
  exact List.append_nil _

/-- The records of a file are those of the part in front of a newline and those that the part behind
it gives in the class that is left open. -/
theorem records_load_behind (whole first : String) (front back : List UInt8) :
    (load (some ⟨whole, front ++ 10 :: back⟩)).records.toList
      = (load (some ⟨first, front⟩)).records.toList ++ recordsFrom
          (classBehind none (((pieces (· == 10) (Source.text ⟨first, front⟩)).map (dropEnd 13)).map
            (Source.readLine ⟨first, front⟩)))
          ((byteLines back).map (Source.readLine ⟨first, front⟩)) := by
  rw [load, load, records_read, records_read, texts_lines, texts_lines, text_append whole first,
    byteLines_append, recordsFrom_source _ ⟨first, front⟩, List.map_append, recordsFrom_append,
    recordsFrom_pieces]

/-- The records of a file are those of the part in front of a newline and those of the part behind
it, if that one starts with a class. -/
theorem records_load_append (whole first second : String) (front : List UInt8) {back : List UInt8}
    (hmark : ¬ byteOrderMark <+: back) (hclass : startsWithClass (byteLines back) = true) :
    (load (some ⟨whole, front ++ 10 :: back⟩)).records
      = (load (some ⟨first, front⟩)).records ++ (load (some ⟨second, back⟩)).records := by
  have hback : Source.text ⟨second, back⟩ = back :=
    text_of_ne fun more hmore => hmark ⟨more, hmore⟩
  have hsecond : (load (some ⟨second, back⟩)).records.toList
      = recordsFrom none ((byteLines back).map (Source.readLine ⟨first, front⟩)) := by
    rw [load, records_read, texts_lines, hback, recordsFrom_source _ ⟨first, front⟩]
  rw [← Array.toList_inj, Array.toList_append, hsecond, records_load_behind,
    recordsFrom_of_startsWithClass _ _ hclass]

end Tsrg

/-! ## Both formats -/

/-- Whatever bytes stand in front of a newline and behind it, the records of a Tiny file are those
of the part in front and those of the part behind as it is read under a header. So are those of a
TSRG file, if the part behind starts with no byte order mark and its first line that is not blank
is a class line. -/
theorem load_append (whole first second : String) (front back : List UInt8) :
    (Tiny.load (some ⟨whole, front ++ 10 :: back⟩)).records
      = (Tiny.load (some ⟨first, front⟩)).records
        ++ (Tiny.load (some ⟨second, utf8 "v1" ++ 10 :: back⟩)).records ∧
    (¬ byteOrderMark <+: back → Tsrg.startsWithClass (byteLines back) = true →
      (Tsrg.load (some ⟨whole, front ++ 10 :: back⟩)).records
        = (Tsrg.load (some ⟨first, front⟩)).records ++ (Tsrg.load (some ⟨second, back⟩)).records) :=
  ⟨Tiny.records_load_append whole first second front back,
    Tsrg.records_load_append whole first second front⟩

/-- A class with a member, a line that is no text and a member line that is cut off behind a
carriage return. -/
def damagedPart : List UInt8 := utf8 "a A\n\tb f\n" ++ [0xFF, 0xEF, 10] ++ utf8 "\tc\r"

/-- Blank lines, a class with a member, and a character that is cut off. -/
def followingPart : List UInt8 := utf8 " \n\r\nd D\n\te ()V m\n" ++ [0xC3]

theorem load_append_damagedPart : ¬ byteOrderMark <+: followingPart ∧
    Tsrg.startsWithClass (byteLines followingPart) = true ∧
    (Tsrg.load (some ⟨"file", damagedPart ++ 10 :: followingPart⟩)).records
      = #[⟨.ofClass "a", "A"⟩, ⟨.ofField "a" "b", "f"⟩, ⟨.ofClass "d", "D"⟩,
        ⟨.ofMethod "d" "e" "()V", "m"⟩] := by
  have hmark : ¬ byteOrderMark <+: followingPart := by decide +kernel
  have hclass : Tsrg.startsWithClass (byteLines followingPart) = true := by decide +kernel
  obtain ⟨-, htsrg⟩ := load_append "file" "file" "file" damagedPart followingPart
  rw [htsrg hmark hclass]
  exact ⟨hmark, hclass, by decide +kernel⟩

end Relabel.Mapping
