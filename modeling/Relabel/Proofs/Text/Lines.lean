import Mathlib.Data.List.DropRight
import Relabel.Proofs.Text.Split

/-!
# Lines of a text and of its bytes

A text and its UTF-8 form are cut into lines at the same places, since the bytes of a newline
and of a carriage return stand for these characters alone. The lines of the bytes lose a
carriage return more, if the text ends with one, and up to that they are the forms of the
lines of the text.
-/

namespace Relabel.Text

/-! ## Pieces of a form -/

/-- A byte below 0x80 stands for its character alone. -/
theorem not_mem_utf8EncodeChar {a c : Char} {b : UInt8} (hb : b.toNat < 0x80)
    (ha : a.toNat = b.toNat) (hc : c ≠ a) : b ∉ String.utf8EncodeChar c := by
  intro hmem
  obtain ⟨-, hcode⟩ := Utf8.utf8EncodeChar_of_mem hb hmem
  exact hc (Char.toNat_inj.mp (hcode.trans ha.symm))

/-- The induction is on the characters that are left. -/
theorem piecesFrom_utf8 (piece chars : List Char) :
    piecesFrom (· == (10 : UInt8)) [] (piece.reverse.flatMap String.utf8EncodeChar).reverse
        (chars.flatMap String.utf8EncodeChar)
      = (piecesFrom (· == '\n') [] piece chars).map (·.flatMap String.utf8EncodeChar) := by
  induction chars generalizing piece with
  | nil => simp [piecesFrom]
  | cons c chars ih =>
    by_cases hc : c = '\n'
    · have hform : String.utf8EncodeChar c = [10] := by
        rw [hc]
        decide
      have hrest := ih []
      simp only [List.reverse_nil, List.flatMap_nil] at hrest
      rw [List.flatMap_cons, hform, List.singleton_append, piecesFrom, piecesFrom,
        if_pos (by decide), if_pos (beq_iff_eq.mpr hc), piecesFrom_done, hrest,
        piecesFrom_done [piece.reverse]]
      simp
    · have hcut : ∀ b ∈ String.utf8EncodeChar c, (b == (10 : UInt8)) = false := by
        intro b hb
        have hnewline : (10 : UInt8) ∉ String.utf8EncodeChar c :=
          not_mem_utf8EncodeChar (by decide) (by decide) hc
        simpa using fun heq : b = 10 => hnewline (heq ▸ hb)
      have hrest := ih (c :: piece)
      rw [List.reverse_cons, List.flatMap_append, List.flatMap_singleton,
        List.reverse_append] at hrest
      have hstep : piecesFrom (· == '\n') [] piece (c :: chars)
          = piecesFrom (· == '\n') [] (c :: piece) chars := by
        rw [piecesFrom, if_neg (by simpa using hc)]
      rw [List.flatMap_cons, piecesFrom_append hcut, hrest, hstep]

theorem pieces_utf8 (chars : List Char) :
    pieces (· == (10 : UInt8)) (chars.flatMap String.utf8EncodeChar)
      = (pieces (· == '\n') chars).map (·.flatMap String.utf8EncodeChar) :=
  piecesFrom_utf8 [] chars

/-! ## Ends of lines -/

theorem dropEnd_utf8 (chars : List Char) :
    dropEnd 13 (chars.flatMap String.utf8EncodeChar)
      = (dropEnd '\r' chars).flatMap String.utf8EncodeChar := by
  obtain rfl | ⟨chars, c, rfl⟩ := chars.eq_nil_or_concat'
  · rfl
  rw [List.flatMap_append, List.flatMap_singleton]
  by_cases hc : c = '\r'
  · have hform : String.utf8EncodeChar c = [13] := by
      rw [hc]
      decide
    rw [hform, hc, dropEnd_append, dropEnd_append]
  · have hreturn : (13 : UInt8) ∉ String.utf8EncodeChar c :=
      not_mem_utf8EncodeChar (by decide) (by decide) hc
    have hbytes : (chars.flatMap String.utf8EncodeChar ++ String.utf8EncodeChar c).getLast?
        ≠ some 13 := by
      rw [List.getLast?_append_of_ne_nil _ String.utf8EncodeChar_ne_nil]
      exact fun hlast => hreturn (List.mem_of_getLast? hlast)
    rw [dropEnd_of_ne hbytes, dropEnd_of_ne (by simpa using hc), List.flatMap_append,
      List.flatMap_singleton]

theorem trimEnd_trimEnd {α : Type} (drop : α → Bool) (xs : List α) :
    trimEnd drop (trimEnd drop xs) = trimEnd drop xs := List.rdropWhile_idempotent drop xs

theorem trimEnd_dropEnd {α : Type} [BEq α] [LawfulBEq α] (a : α) (xs : List α) :
    trimEnd (· == a) (dropEnd a xs) = trimEnd (· == a) xs := by
  obtain rfl | ⟨xs, b, rfl⟩ := xs.eq_nil_or_concat'
  · rfl
  by_cases hb : b = a
  · rw [hb, dropEnd_append]
    simp [trimEnd]
  · rw [dropEnd_of_ne (by simpa using hb)]

/-! ## Lines -/

theorem isEmpty_utf8 (chars : List Char) :
    (chars.flatMap String.utf8EncodeChar).isEmpty = chars.isEmpty := by
  cases chars <;> simp

/-- The lines of the bytes are the forms of the lines of the text, but for carriage returns at
their ends. -/
theorem exists_byteLines_utf8 (chars : List Char) : ∃ lines' : List (List Char),
    byteLines (chars.flatMap String.utf8EncodeChar)
      = lines'.map (·.flatMap String.utf8EncodeChar) ∧
    lines'.map (trimEnd (· == '\r')) = (lines chars).map (trimEnd (· == '\r')) := by
  let parts := pieces (· == '\n') chars
  let rest : List Char := parts.getLast?.getD []
  refine ⟨(parts.dropLast ++ if rest.isEmpty then [] else [rest]).map (dropEnd '\r'), ?_, ?_⟩
  · have hrest : (parts.map (·.flatMap String.utf8EncodeChar)).getLast?.getD []
        = rest.flatMap String.utf8EncodeChar := by
      rw [List.getLast?_map]
      exact Option.getD_map _ [] _
    have hcut : byteLines (chars.flatMap String.utf8EncodeChar)
        = (parts.dropLast.map (·.flatMap String.utf8EncodeChar) ++
          if rest.isEmpty then [] else [rest.flatMap String.utf8EncodeChar]).map (dropEnd 13) := by
      simp only [byteLines, completeLines, pieces_utf8, List.map_dropLast, hrest, isEmpty_utf8,
        parts]
    rw [hcut]
    split <;> simp [Function.comp_def, dropEnd_utf8]
  · have hlines : lines chars
        = parts.dropLast.map (dropEnd '\r') ++ if rest.isEmpty then [] else [rest] := rfl
    rw [hlines]
    split <;> simp [trimEnd_dropEnd]

/-- A character at the start of a text starts its first piece. -/
theorem piecesFrom_cons {α : Type} {stop : α → Bool} (piece : List α) (c : α) (xs : List α) :
    piecesFrom stop [] (piece ++ [c]) xs
      = (piecesFrom stop [] piece xs).modifyHead (c :: ·) := by
  induction xs generalizing piece with
  | nil => simp [piecesFrom]
  | cons a xs ih =>
    rw [piecesFrom, piecesFrom]
    split
    · rw [piecesFrom_done, piecesFrom_done [piece.reverse]]
      simp
    · exact ih (a :: piece)

/-- A character at the start of a text changes the first line alone. -/
theorem tail_lines_cons {c : Char} (hc : c ≠ '\n') (chars : List Char) :
    (lines (c :: chars)).tail = (lines chars).tail := by
  have hpieces : pieces (· == '\n') (c :: chars)
      = (pieces (· == '\n') chars).modifyHead (c :: ·) := by
    rw [pieces, piecesFrom, if_neg (by simpa using hc)]
    exact piecesFrom_cons [] c chars
  obtain ⟨first, more, hmore⟩ := List.exists_cons_of_ne_nil (pieces_ne_nil (· == '\n') chars)
  rw [hmore, List.modifyHead_cons] at hpieces
  simp only [lines, completeLines, hpieces, hmore]
  obtain _ | ⟨second, more⟩ := more
  · cases first <;> simp
  · simp

end Relabel.Text
