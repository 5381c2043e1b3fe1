import Relabel.Proofs.Mapping.Printed
import Relabel.Proofs.Text.Lines

/-!
# Reading a text and reading its bytes

A mapping file is read from a text or from the bytes of one. The lines of both are the same
up to carriage returns at their ends, and no reader looks at these. So both readings agree, in
their records and in their notices with the numbers of the lines. A byte order mark is no
part of the lines that are read from bytes: in a Tiny file it stands in the header, which
gives no record.
-/

namespace Relabel.Mapping

open Text

/-! ## Lines without carriage returns at their ends -/

def trimReturns (text : String) : String := .ofList (trimEnd (· == '\r') text.toList)

def Line.trimmed (line : Line) : Line := ⟨line.number, line.text.map trimReturns⟩

theorem trimmed_numbered (texts : List (Except LineFlaw String)) :
    (numbered texts).map Line.trimmed = numbered (texts.map (·.map trimReturns)) := by
  simp only [numbered, List.zipIdx_map, List.map_map]
  rfl

theorem trimReturns_ofList (chars : List Char) :
    trimReturns (.ofList chars) = .ofList (trimEnd (· == '\r') chars) := by
  rw [trimReturns, String.toList_ofList]

/-- The lines that are read from the bytes of a text are those of the text. -/
theorem trimmed_byteLines (s : Source) (text : String) :
    (numbered ((byteLines (utf8 text)).map s.readLine)).map Line.trimmed
      = (linesOf text).map Line.trimmed := by
  obtain ⟨lines', hbytes, htrim⟩ := exists_byteLines_utf8 text.toList
  have hread (chars : List Char) : s.readLine (chars.flatMap String.utf8EncodeChar)
      = .ok (.ofList chars) := by
    have hform : chars.flatMap String.utf8EncodeChar = utf8 (.ofList chars) := by
      rw [utf8_eq, String.toList_ofList]
    rw [Source.readLine, hform, Utf8.decode_utf8]
  have htexts (lines : List (List Char)) :
      (lines.map fun line => (Except.ok (.ofList line) : Except LineFlaw String)).map
          (·.map trimReturns)
        = (lines.map (trimEnd (· == '\r'))).map fun line => .ok (.ofList line) := by
    simp [Except.map, trimReturns_ofList]
  rw [linesOf, trimmed_numbered, trimmed_numbered, utf8_eq, hbytes, List.map_map,
    htexts, ← htrim, ← htexts]
  simp [Function.comp_def, hread]

theorem lines_utf8 (name text : String) : (Source.lines ⟨name, utf8 text⟩).map Line.trimmed
    = (linesOf (dropMark text)).map Line.trimmed := by
  rw [Source.lines, text_utf8, trimmed_byteLines]

/-! ## Readers -/

namespace Tsrg

theorem readLine_trimReturns (owner : Option String) (text : String) :
    readLine owner (trimReturns text) = readLine owner text := by
  simp only [readLine, trimReturns, String.toList_ofList, readChars, trimEnd_trimEnd]

theorem addLine_trimmed (state : Option String × Reading) (line : Line) :
    addLine state line.trimmed = addLine state line := by
  obtain ⟨number, flaw | text⟩ := line
  · rfl
  · simp only [addLine, Line.trimmed, Except.map, readLine_trimReturns]

theorem read_trimmed (lines : List Line) : read (lines.map Line.trimmed) = read lines := by
  simp only [read, List.foldl_map, addLine_trimmed]

end Tsrg

namespace Tiny

theorem columnsOf_trimReturns (text : String) : columnsOf (trimReturns text) = columnsOf text := by
  rw [columnsOf, trimReturns, String.toList_ofList, trimEnd_trimEnd, columnsOf]

theorem readLine_trimReturns (text : String) : readLine (trimReturns text) = readLine text := by
  unfold readLine
  rw [columnsOf_trimReturns]

theorem addLine_trimmed (reading : Reading) (line : Line) :
    addLine reading line.trimmed = addLine reading line := by
  obtain ⟨number, flaw | text⟩ := line
  · rfl
  · have hadd (text : String) : addLine reading ⟨number, .ok text⟩
        = reading.add number (readLine text) := rfl
    rw [Line.trimmed, Except.map, hadd, hadd, readLine_trimReturns]

theorem headerNotices_trimmed (header : Line) :
    headerNotices header.trimmed = headerNotices header := by
  obtain ⟨number, flaw | text⟩ := header
  · rfl
  · simp only [headerNotices, Line.trimmed, Except.map, columnsOf_trimReturns]

theorem read_trimmed (lines : List Line) : read (lines.map Line.trimmed) = read lines := by
  obtain _ | ⟨header, lines⟩ := lines
  · rfl
  · simp only [List.map_cons, read, headerNotices_trimmed, List.foldl_map, addLine_trimmed]

/-- The first line gives no record. -/
theorem records_read (lines : List Line) : (read lines).records.toList
    = (lines.map (·.text)).tail.filterMap fun text => recordOf (text >>= readLine) := by
  obtain _ | ⟨header, lines⟩ := lines
  · rfl
  · rw [read, records_foldl]
    rfl

/-- The byte order mark ends no line, so it changes no record. -/
theorem records_parse_dropMark (text : String) :
    (parse (dropMark text)).records = (parse text).records := by
  have htexts (text : String) : ((linesOf text).map (·.text)).tail
      = (lines text.toList).tail.map fun line => .ok (.ofList line) := by
    rw [linesOf, texts_numbered, List.map_tail]
  rw [← Array.toList_inj, parse, parse, records_read, records_read, htexts, htexts]
  unfold dropMark
  split
  case h_1 => rfl
  case h_2 c chars hchars =>
    split
    case isTrue hc => rw [hchars, String.toList_ofList, tail_lines_cons (hc ▸ by decide)]
    case isFalse => rfl

end Tiny

/-! ## Both readings -/

/-- A text and its bytes give the same records and the same notices in either format, unless the
text starts with the byte order mark. Even then a Tiny file gives the same records. -/
theorem load_utf8 (name text : String) :
    (Tiny.load (some ⟨name, utf8 text⟩)).records = (Tiny.parse text).records ∧
    (text.toList.head? ≠ some '\uFEFF' →
      Tsrg.load (some ⟨name, utf8 text⟩) = Tsrg.parse text ∧
      Tiny.load (some ⟨name, utf8 text⟩) = Tiny.parse text) := by
  have htsrg : Tsrg.load (some ⟨name, utf8 text⟩) = Tsrg.parse (dropMark text) := by
    rw [Tsrg.load, Tsrg.parse, ← Tsrg.read_trimmed, lines_utf8, Tsrg.read_trimmed]
  have htiny : Tiny.load (some ⟨name, utf8 text⟩) = Tiny.parse (dropMark text) := by
    rw [Tiny.load, Tiny.parse, ← Tiny.read_trimmed, lines_utf8, Tiny.read_trimmed]
  refine ⟨by rw [htiny, Tiny.records_parse_dropMark], fun h => ?_⟩
  rw [htsrg, htiny, dropMark_of_head? h]
  exact ⟨rfl, rfl⟩

/-- Lines with all ends, the last of which ends with a carriage return alone. -/
def mixedEnds : String := "a b\r\n\tc\rd\r\r\n\n\t\tx\ne f\r"

theorem load_utf8_mixedEnds : mixedEnds.toList.head? ≠ some '\uFEFF' ∧
    (Tsrg.load (some ⟨"memory", utf8 mixedEnds⟩)).records
      = #[⟨.ofClass "a", "b"⟩, ⟨.ofField "a" "c", "d"⟩, ⟨.ofClass "e", "f"⟩] ∧
    (Tsrg.load (some ⟨"memory", utf8 mixedEnds⟩)).notices = #[.line ⟨4, .nestedMember⟩] := by
  have hmark : mixedEnds.toList.head? ≠ some '\uFEFF' := by decide
  obtain ⟨-, hagree⟩ := load_utf8 "memory" mixedEnds
  obtain ⟨htsrg, -⟩ := hagree hmark
  rw [htsrg]
  exact ⟨hmark, by decide +kernel, by decide +kernel⟩

end Relabel.Mapping
