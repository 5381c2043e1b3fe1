import Mathlib.Data.List.Basic
import Relabel.Proofs.Mapping.Reading
import Relabel.Proofs.Text.Printed

/-!
# Printed mapping files

How a record is written as a line of each format, and that the line is read as the record.
Lines depend on each other in TSRG files alone, where the records of a class and of its
members form a block. Whatever ends the lines, the records of a printed file are read back,
in order, but for the methods that every object has.
-/

namespace Relabel.Mapping

open Text

/-- Only one character starts with the bytes of the byte order mark. -/
theorem eq_of_byteOrderMark {c : Char} {rest more : List UInt8}
    (h : byteOrderMark ++ more = String.utf8EncodeChar c ++ rest) : c = '\uFEFF' := by
  have hc : c.toNat < 0xD800 ∨ 0xDFFF < c.toNat ∧ c.toNat < 0x110000 := c.valid
  have byte {n : Nat} {b : UInt8} (hn : n < 256) (hb : b = UInt8.ofNat n) : b.toNat = n := by
    rw [hb, UInt8.toNat_ofNat_of_lt' hn]
  simp only [String.utf8EncodeChar, show c.val.toNat = c.toNat from rfl, byteOrderMark,
    List.cons_append, List.nil_append] at h
  split at h
  case isTrue =>
    have hlead : 0xEF = c.toNat := byte (by omega) (List.cons.inj h).1
    omega
  case isFalse =>
    split at h
    case isTrue =>
      have hlead : 0xEF = c.toNat / 64 % 32 + 192 := byte (by omega) (List.cons.inj h).1
      omega
    case isFalse =>
      split at h
      case isTrue =>
        obtain ⟨hlead, h⟩ := List.cons.inj h
        obtain ⟨hsecond, h⟩ := List.cons.inj h
        have hlead : 0xEF = c.toNat / 4096 % 16 + 224 := byte (by omega) hlead
        have hsecond : 0xBB = c.toNat / 64 % 64 + 128 := byte (by omega) hsecond
        have hthird : 0xBF = c.toNat % 64 + 128 := byte (by omega) (List.cons.inj h).1
        have hcode : c.toNat = 0xFEFF := by omega
        exact Char.toNat_inj.mp hcode
      case isFalse =>
        have hlead : 0xEF = c.toNat / 262144 % 8 + 240 := byte (by omega) (List.cons.inj h).1
        omega

theorem text_of_ne {name : String} {data : List UInt8}
    (h : ∀ more, byteOrderMark ++ more ≠ data) : Source.text ⟨name, data⟩ = data := by
  have hnone : byteOrderMark.isPrefixOf? data = none :=
    Option.eq_none_iff_forall_ne_some.mpr fun more hmore =>
      h more (List.isPrefixOf?_eq_some_iff_append_eq.mp hmore)
  rw [Source.text, hnone]
  rfl

/-- Only a byte order mark at the start is left out. -/
theorem text_cons (name : String) (c : Char) (rest : List UInt8) :
    Source.text ⟨name, String.utf8EncodeChar c ++ rest⟩
      = if c = '\uFEFF' then rest else String.utf8EncodeChar c ++ rest := by
  split
  case isTrue hc =>
    have hmark : byteOrderMark.isPrefixOf? (String.utf8EncodeChar c ++ rest) = some rest := by
      rw [List.isPrefixOf?_eq_some_iff_append_eq, hc]
      rfl
    rw [Source.text, hmark]
    rfl
  case isFalse hc => exact text_of_ne fun more hmore => hc (eq_of_byteOrderMark hmore)

theorem text_utf8 (name text : String) :
    Source.text ⟨name, utf8 text⟩ = utf8 (dropMark text) := by
  unfold dropMark
  split
  case h_1 htext =>
    rw [utf8_eq, htext]
    rfl
  case h_2 c chars htext =>
    rw [utf8_cons htext, text_cons]
    split
    · rfl
    · exact (utf8_cons htext).symm

/-- The byte order mark is left out of the first line. -/
theorem text_printLines (name line : String) (lineEnd : LineEnd)
    (lines : List (String × LineEnd)) :
    Source.text ⟨name, printLines ((line, lineEnd) :: lines)⟩
      = printLines ((dropMark line, lineEnd) :: lines) := by
  have hcons (line : String) : printLines ((line, lineEnd) :: lines)
      = utf8 line ++ (lineEnd.bytes ++ printLines lines) := joinLines_cons _ _ _
  unfold dropMark
  split
  case h_1 hline =>
    have hne : ∀ more, byteOrderMark ++ more ≠ printLines ((line, lineEnd) :: lines) := by
      intro more h
      rw [hcons, utf8_eq, hline] at h
      cases lineEnd <;> cases h
    exact text_of_ne hne
  case h_2 c chars hline =>
    rw [hcons, utf8_cons hline, List.append_assoc, text_cons]
    split
    · exact (hcons _).symm
    · rw [hcons, utf8_cons hline, List.append_assoc]

/-- The texts of the lines are read back. -/
theorem texts_printLines (name : String) {first : String} {rest : List String}
    {lines : List (String × LineEnd)} (hlines : lines.map (·.1) = first :: rest)
    (h : ∀ line ∈ first :: rest, IsLine line) :
    (Source.lines ⟨name, printLines lines⟩).map (·.text)
      = .ok (dropMark first) :: rest.map .ok := by
  obtain ⟨⟨first, lineEnd⟩, lines, rfl, rfl, rfl⟩ := List.map_eq_cons_iff.mp hlines
  obtain ⟨hfirst, hrest⟩ := List.forall_mem_cons.mp h
  have hprinted : ∀ line ∈ (dropMark first, lineEnd) :: lines, IsLine line.1 :=
    List.forall_mem_cons.mpr ⟨hfirst.dropMark, fun line hline =>
      hrest line.1 (List.mem_map_of_mem hline)⟩
  have hread (text : String) (s : Source) : s.readLine (utf8 text) = .ok text := by
    rw [Source.readLine, Utf8.decode_utf8]
  rw [texts_lines, text_printLines, byteLines_printLines hprinted]
  simp [hread]

/-! ## Lines of records -/

/-- The texts of a key in the order of a Tiny line, which lists the type of a field. -/
def Key.texts (fieldType : String → String → String) : Key → List String
  | .ofClass name => [name]
  | .ofMethod owner name descriptor => [owner, descriptor, name]
  | .ofField owner name => [owner, fieldType owner name, name]

/-- All texts of a record are words. -/
def Record.IsPrintable (fieldType : String → String → String) (record : Record) : Prop :=
  ∀ text ∈ record.key.texts fieldType ++ [record.name], IsWord text

/-- Methods that every object has. -/
def Key.isUniversal : Key → Bool
  | .ofMethod _ name _ => Tsrg.isUniversal name
  | _ => false

variable {fieldType : String → String → String} {record : Record}

namespace Tiny

def tag : Key → String
  | .ofClass _ => "CLASS"
  | .ofMethod .. => "METHOD"
  | .ofField .. => "FIELD"

theorem isWord_tag : ∀ key, IsWord (tag key)
  | .ofClass _ => (by decide : IsWord "CLASS")
  | .ofMethod .. => (by decide : IsWord "METHOD")
  | .ofField .. => (by decide : IsWord "FIELD")

/-- The columns of a record. -/
def columnsFor (fieldType : String → String → String) (record : Record) : List String :=
  tag record.key :: (record.key.texts fieldType ++ [record.name])

def lineOf (fieldType : String → String → String) (record : Record) : String :=
  "\t".intercalate (columnsFor fieldType record)

theorem isWord_of_mem_columnsFor (h : record.IsPrintable fieldType) :
    ∀ text ∈ columnsFor fieldType record, IsWord text :=
  List.forall_mem_cons.mpr ⟨isWord_tag record.key, h⟩

theorem isLine_lineOf (h : record.IsPrintable fieldType) : IsLine (lineOf fieldType record) :=
  isLine_intercalate (by decide) (isWord_of_mem_columnsFor h)

theorem columnsOf_lineOf (h : record.IsPrintable fieldType) :
    columnsOf (lineOf fieldType record) = columnsFor fieldType record := by
  have hwords := isWord_of_mem_columnsFor h
  have hline := isLine_lineOf h
  rw [columnsOf, hline.trimEnd]
  exact columns_intercalate (List.cons_ne_nil _ _) fun text htext =>
    (hwords text htext).not_mem (by decide)

theorem readLine_lineOf (h : record.IsPrintable fieldType) :
    readLine (lineOf fieldType record) = .ok (some record) := by
  rw [readLine, columnsOf_lineOf h]
  obtain ⟨key, name⟩ := record
  cases key <;> rfl

/-- The records behind the header of a printed file are read back. -/
theorem records_load (name : String) {header : String} {records : List Record}
    {lines : List (String × LineEnd)}
    (hlines : lines.map (·.1) = header :: records.map (lineOf fieldType))
    (hheader : IsLine header) (h : ∀ record ∈ records, record.IsPrintable fieldType) :
    (load (some ⟨name, printLines lines⟩)).records.toList = records := by
  have htexts := texts_printLines name hlines (List.forall_mem_cons.mpr ⟨hheader,
    List.forall_mem_map.mpr fun record hrecord => isLine_lineOf (h record hrecord)⟩)
  obtain ⟨first, rest, hcons, -, hrest⟩ := List.map_eq_cons_iff.mp htexts
  have hbind (text : String) : (Except.ok text : Except LineFlaw String) >>= readLine
      = readLine text := rfl
  have hread : ∀ record ∈ records, recordOf (readLine (lineOf fieldType record)) = some record := by
    intro record hrecord
    rw [readLine_lineOf (h record hrecord)]
    rfl
  rw [load, hcons, read, records_foldl, hrest, List.map_map, List.filterMap_map]
  simp only [Function.comp_def, hbind]
  rw [List.filterMap_congr hread, List.filterMap_some]
  rfl

end Tiny

namespace Tsrg

/-- The words of a record, without its owner and the type of a field. -/
def wordsFor : Record → List String
  | ⟨.ofClass pivot, name⟩ | ⟨.ofField _ pivot, name⟩ => [pivot, name]
  | ⟨.ofMethod _ pivot descriptor, name⟩ => [pivot, descriptor, name]

def lineOf (record : Record) : String :=
  (if record.key.owner?.isSome then "\t" else "") ++ " ".intercalate (wordsFor record)

theorem isWord_of_mem_wordsFor (h : record.IsPrintable fieldType) :
    ∀ text ∈ wordsFor record, IsWord text := by
  obtain ⟨key, name⟩ := record
  have hsub : ∀ text ∈ wordsFor ⟨key, name⟩, text ∈ key.texts fieldType ++ [name] := by
    cases key <;> simp [wordsFor, Key.texts]
  exact fun text htext => h text (hsub text htext)

theorem isLine_lineOf (h : record.IsPrintable fieldType) : IsLine (lineOf record) := by
  have hwords : IsLine (" ".intercalate (wordsFor record)) :=
    isLine_intercalate (by decide) (isWord_of_mem_wordsFor h)
  have hindent (b : Bool) : IsLine (if b then "\t" else "") := by cases b <;> decide
  exact (hindent _).append hwords

theorem lineOf_class (pivot name : String) :
    lineOf ⟨.ofClass pivot, name⟩ = " ".intercalate [pivot, name] := by
  rw [lineOf, if_neg (by simp [Key.owner?]), String.empty_append]
  rfl

theorem readLine_lineOf_class (owner : Option String) {pivot name : String}
    (h : Record.IsPrintable fieldType ⟨.ofClass pivot, name⟩) :
    readLine owner (lineOf ⟨.ofClass pivot, name⟩)
      = (some pivot, .ok (some ⟨.ofClass pivot, name⟩)) := by
  have hwords := isWord_of_mem_wordsFor h
  obtain ⟨c, chars, hchars, hc⟩ :=
    exists_cons_intercalate (hwords pivot List.mem_cons_self) " " [name]
  have htab : c ≠ '\t' := ne_of_not_isBlank hc (by decide)
  rw [readLine, readChars, (isLine_lineOf h).trimEnd, lineOf_class, hchars]
  simp only [List.all_cons, hc, Bool.false_and, if_neg Bool.false_ne_true, if_neg htab]
  have htwo : words (" ".intercalate [pivot, name]).toList = [pivot, name] :=
    words_intercalate hwords
  rw [← hchars, htwo]

theorem readLine_lineOf_member {owner : String} (h : record.IsPrintable fieldType)
    (howner : record.key.owner? = some owner) : readLine (some owner) (lineOf record)
      = (some owner, .ok (if record.key.isUniversal then none else some record)) := by
  have hwords := isWord_of_mem_wordsFor h
  have hline : (lineOf record).toList = '\t' :: (" ".intercalate (wordsFor record)).toList := by
    rw [lineOf, howner, String.toList_append, if_pos Option.isSome_some]
    rfl
  have hread : readMember owner (" ".intercalate (wordsFor record)).toList
      = .ok (if record.key.isUniversal then none else some record) := by
    rw [readMember, words_intercalate hwords]
    obtain ⟨_ | ⟨_, pivot, descriptor⟩ | _, name⟩ := record
    · cases howner
    · cases howner
      by_cases hpivot : isUniversal pivot = true <;> simp [wordsFor, Key.isUniversal, hpivot]
    · cases howner
      rfl
  obtain ⟨word, more, hcons⟩ : ∃ word more, wordsFor record = word :: more := by
    obtain ⟨_ | _ | _, name⟩ := record <;> exact ⟨_, _, rfl⟩
  obtain ⟨c, chars, hchars, hc⟩ := exists_cons_intercalate
    (hwords word (hcons ▸ List.mem_cons_self)) " " more
  have htab : c ≠ '\t' := ne_of_not_isBlank hc (by decide)
  rw [readLine, readChars, (isLine_lineOf h).trimEnd, hline]
  rw [hcons, hchars] at hread ⊢
  simp only [List.all_cons, hc, Bool.false_and, Bool.and_false, if_neg Bool.false_ne_true,
    List.head?_cons, Option.some.injEq, if_neg htab, if_true, hread]

/-- A class with records of members of it. -/
structure Block where
  pivot : String
  name : String
  members : List Record
  owned : ∀ record ∈ members, record.key.owner? = some pivot

/-- The record of the class, and behind it those of the members. -/
def Block.records (block : Block) : List Record :=
  ⟨.ofClass block.pivot, block.name⟩ :: block.members

theorem recordsFrom_members {owner : String} {members : List Record}
    (h : ∀ record ∈ members, record.IsPrintable fieldType)
    (howned : ∀ record ∈ members, record.key.owner? = some owner)
    (more : List (Except LineFlaw String)) :
    recordsFrom (some owner) ((members.map lineOf).map .ok ++ more)
      = members.filter (!·.key.isUniversal) ++ recordsFrom (some owner) more := by
  induction members with
  | nil => rfl
  | cons record members ih =>
    obtain ⟨hrecord, hmembers⟩ := List.forall_mem_cons.mp h
    obtain ⟨howner, hothers⟩ := List.forall_mem_cons.mp howned
    rw [List.map_cons, List.map_cons, List.cons_append, recordsFrom, readText,
      readLine_lineOf_member hrecord howner, ih hmembers hothers, List.filter_cons]
    cases record.key.isUniversal <;> rfl

/-- The class of each block is that of its members. -/
theorem recordsFrom_blocks (owner : Option String) {blocks : List Block}
    (h : ∀ record ∈ blocks.flatMap (·.records), record.IsPrintable fieldType) :
    recordsFrom owner (((blocks.flatMap (·.records)).map lineOf).map .ok)
      = (blocks.flatMap (·.records)).filter (!·.key.isUniversal) := by
  induction blocks generalizing owner with
  | nil => rfl
  | cons block blocks ih =>
    rw [List.flatMap_cons] at h
    obtain ⟨hblock, hblocks⟩ := List.forall_mem_append.mp h
    obtain ⟨hclass, hmembers⟩ := List.forall_mem_cons.mp hblock
    rw [List.flatMap_cons, Block.records, List.cons_append, List.map_cons, List.map_cons,
      recordsFrom, readText, readLine_lineOf_class owner hclass, List.map_append, List.map_append,
      recordsFrom_members hmembers block.owned, ih _ hblocks, List.filter_cons,
      List.filter_append]
    rfl

/-- The records of a printed file are read back, but for the methods that every object has. -/
theorem records_load (name : String) {blocks : List Block} {lines : List (String × LineEnd)}
    (hlines : lines.map (·.1) = (blocks.flatMap (·.records)).map lineOf)
    (h : ∀ record ∈ blocks.flatMap (·.records), record.IsPrintable fieldType) :
    (load (some ⟨name, printLines lines⟩)).records.toList
      = (blocks.flatMap (·.records)).filter (!·.key.isUniversal) := by
  have htexts : (Source.lines ⟨name, printLines lines⟩).map (·.text)
      = ((blocks.flatMap (·.records)).map lineOf).map .ok := by
    obtain _ | ⟨block, blocks⟩ := blocks
    · rw [List.map_eq_nil_iff.mp hlines]
      rfl
    · have hpivot : IsWord block.pivot := h _ List.mem_cons_self _ List.mem_cons_self
      rw [texts_printLines name hlines (List.forall_mem_map.mpr fun record hrecord =>
        isLine_lineOf (h record hrecord)), dropMark_of_head?]
      · rfl
      · rw [lineOf_class, head?_intercalate hpivot]
        exact hpivot.head?_ne
  rw [load, records_read, htexts, recordsFrom_blocks none h]

end Tsrg

end Relabel.Mapping
