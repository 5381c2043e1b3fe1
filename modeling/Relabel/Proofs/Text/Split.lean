import Relabel.Proofs.Text.Utf8
import Relabel.Text.Lines

/-!
# Pieces, words and lines

What cutting does to lists that are put together: a run without cuts is one piece, and
the cut behind it starts the next. So words that are written with blanks between them
are read back, and so are the lines of a byte list that are written with line ends
between them. Blanks and carriage returns at an end change nothing.
-/

namespace Relabel.Text

/-! ## Pieces -/

section

variable {α : Type} {stop : α → Bool} {xs ys : List α} {a : α}

theorem piecesFrom_done (done : List (List α)) (piece xs : List α) :
    piecesFrom stop done piece xs = done.reverse ++ piecesFrom stop [] piece xs := by
  induction xs generalizing done piece with
  | nil => simp [piecesFrom]
  | cons a xs ih =>
    rw [piecesFrom, piecesFrom]
    split
    · rw [ih, ih [piece.reverse]]
      simp
    · exact ih done (a :: piece)

theorem piecesFrom_append (h : ∀ a ∈ xs, stop a = false) (done : List (List α)) (piece : List α) :
    piecesFrom stop done piece (xs ++ ys) = piecesFrom stop done (xs.reverse ++ piece) ys := by
  induction xs generalizing piece with
  | nil => rfl
  | cons a xs ih =>
    obtain ⟨ha, hxs⟩ := List.forall_mem_cons.mp h
    rw [List.cons_append, piecesFrom, ha, if_neg Bool.false_ne_true, ih hxs]
    simp

/-- A run without cuts is one piece. -/
theorem pieces_of_forall (h : ∀ a ∈ xs, stop a = false) : pieces stop xs = [xs] := by
  have hpieces : piecesFrom stop [] [] (xs ++ []) = piecesFrom stop [] (xs.reverse ++ []) [] :=
    piecesFrom_append h [] []
  rw [List.append_nil, List.append_nil] at hpieces
  rw [pieces, hpieces]
  simp [piecesFrom]

/-- A cut parts the pieces in front of it from those behind it. -/
theorem pieces_append (ha : stop a = true) (xs ys : List α) :
    pieces stop (xs ++ a :: ys) = pieces stop xs ++ pieces stop ys := by
  have h (done : List (List α)) (piece : List α) : piecesFrom stop done piece (xs ++ a :: ys)
      = piecesFrom stop done piece xs ++ pieces stop ys := by
    induction xs generalizing done piece with
    | nil =>
      rw [List.nil_append, piecesFrom, piecesFrom, if_pos ha, piecesFrom_done]
      rfl
    | cons b xs ih =>
      rw [List.cons_append, piecesFrom, piecesFrom]
      split
      · exact ih _ _
      · exact ih _ _
  exact h [] []

theorem pieces_append_cons (h : ∀ a ∈ xs, stop a = false) (ha : stop a = true) :
    pieces stop (xs ++ a :: ys) = xs :: pieces stop ys := by
  rw [pieces_append ha, pieces_of_forall h, List.singleton_append]

theorem pieces_ne_nil (stop : α → Bool) (xs : List α) : pieces stop xs ≠ [] := by
  have h (piece : List α) : piecesFrom stop [] piece xs ≠ [] := by
    induction xs generalizing piece with
    | nil => simp [piecesFrom]
    | cons a xs ih =>
      rw [piecesFrom]
      split
      · rw [piecesFrom_done]
        simp
      · exact ih (a :: piece)
  exact h []

/-- Runs without cuts are the pieces of what they make with a cut between each two. -/
theorem pieces_intercalate {xss : List (List α)} (hne : xss ≠ [])
    (h : ∀ xs ∈ xss, ∀ a ∈ xs, stop a = false) (ha : stop a = true) :
    pieces stop ([a].intercalate xss) = xss := by
  induction xss with
  | nil => exact absurd rfl hne
  | cons xs xss ih =>
    obtain ⟨hxs, hxss⟩ := List.forall_mem_cons.mp h
    obtain _ | ⟨ys, xss⟩ := xss
    · rw [List.intercalate_singleton, pieces_of_forall hxs]
    · rw [List.intercalate_cons_cons, List.append_assoc, List.singleton_append,
        pieces_append_cons hxs ha, ih (List.cons_ne_nil _ _) hxss]

/-- Cuts at the end add nothing but empty pieces. -/
theorem filter_piecesFrom_append (h : ∀ a ∈ ys, stop a = true) (done : List (List α))
    (piece xs : List α) :
    (piecesFrom stop done piece (xs ++ ys)).filter (!·.isEmpty)
      = (piecesFrom stop done piece xs).filter (!·.isEmpty) := by
  induction xs generalizing done piece with
  | cons a xs ih =>
    rw [List.cons_append, piecesFrom, piecesFrom]
    split
    · exact ih _ _
    · exact ih _ _
  | nil =>
    induction ys generalizing done piece with
    | nil => rfl
    | cons a ys ih =>
      obtain ⟨ha, hys⟩ := List.forall_mem_cons.mp h
      have hstep : piecesFrom stop done piece ([] ++ a :: ys)
          = piecesFrom stop (piece.reverse :: done) [] ([] ++ ys) := by
        rw [List.nil_append, piecesFrom, ha, if_pos rfl, List.nil_append]
      rw [hstep, ih hys]
      simp [piecesFrom, List.filter_cons]

/-! ## Ends -/

theorem exists_trimEnd (drop : α → Bool) (xs : List α) :
    ∃ ys, xs = trimEnd drop xs ++ ys ∧ ∀ a ∈ ys, drop a = true := by
  refine ⟨(xs.reverse.takeWhile drop).reverse, ?_, ?_⟩
  · rw [trimEnd, ← List.reverse_append, List.takeWhile_append_dropWhile, List.reverse_reverse]
  · intro a ha
    exact List.all_eq_true.mp List.all_takeWhile a (List.mem_reverse.mp ha)

theorem trimEnd_of_forall (drop : α → Bool) (h : ∀ a ∈ xs, drop a = false) :
    trimEnd drop xs = xs := by
  obtain ⟨ys, hxs, hys⟩ := exists_trimEnd drop xs
  obtain _ | ⟨a, ys⟩ := ys
  · simpa using hxs.symm
  · have ha := hys a List.mem_cons_self
    rw [h a (hxs ▸ List.mem_append_right _ List.mem_cons_self)] at ha
    cases ha

end

/-! ## Words -/

section

variable {xs ys : List Char} {c : Char}

/-- Blanks at the end give no words. -/
theorem words_append_blanks (h : ∀ c ∈ ys, isBlank c = true) : words (xs ++ ys) = words xs := by
  rw [words, words, pieces, filter_piecesFrom_append h]
  rfl

theorem words_trimEnd {drop : Char → Bool} (h : ∀ c, drop c = true → isBlank c = true)
    (xs : List Char) : words (trimEnd drop xs) = words xs := by
  obtain ⟨ys, hxs, hys⟩ := exists_trimEnd drop xs
  conv => rhs; rw [hxs, words_append_blanks fun c hc => h c (hys c hc)]

end

/-! ## Lines of bytes -/

/-- How a line ends. -/
inductive LineEnd where
  | newline
  | carriageReturnNewline
  deriving DecidableEq

def LineEnd.bytes : LineEnd → List UInt8
  | .newline => [10]
  | .carriageReturnNewline => [13, 10]

/-- The bytes of the lines, each behind the other with its end. -/
def joinLines (lines : List (List UInt8 × LineEnd)) : List UInt8 :=
  lines.flatMap fun (line, lineEnd) => line ++ lineEnd.bytes

theorem joinLines_cons (line : List UInt8) (lineEnd : LineEnd)
    (lines : List (List UInt8 × LineEnd)) :
    joinLines ((line, lineEnd) :: lines) = line ++ (lineEnd.bytes ++ joinLines lines) := by
  simp [joinLines]

section

variable {α : Type} [BEq α] [LawfulBEq α]

theorem dropEnd_append (a : α) (xs : List α) : dropEnd a (xs ++ [a]) = xs := by
  simp [dropEnd]

theorem dropEnd_of_ne {a : α} {xs : List α} (h : xs.getLast? ≠ some a) : dropEnd a xs = xs := by
  simp [dropEnd, h]

end

/-- A newline ends the line in front of it, and the lines behind it are cut on their own. -/
theorem byteLines_append (xs ys : List UInt8) : byteLines (xs ++ 10 :: ys)
    = (pieces (· == 10) xs).map (dropEnd 13) ++ byteLines ys := by
  have hcut : pieces (· == (10 : UInt8)) (xs ++ 10 :: ys)
      = pieces (· == 10) xs ++ pieces (· == 10) ys := pieces_append rfl xs ys
  have hne := pieces_ne_nil (· == (10 : UInt8)) ys
  have hlast : (pieces (· == (10 : UInt8)) xs ++ pieces (· == 10) ys).getLast?
      = (pieces (· == 10) ys).getLast? := by
    rw [List.getLast?_append, List.getLast?_eq_some_getLast hne, Option.some_or]
  simp only [byteLines, completeLines, hcut, hlast, List.dropLast_append_of_ne_nil hne,
    List.append_assoc, List.map_append]
  rfl

/-- What a byte list is cut into when a complete line is put in front of it. -/
theorem byteLines_cons {line bytes : List UInt8} (h : (10 : UInt8) ∉ line) :
    byteLines (line ++ 10 :: bytes) = dropEnd 13 line :: byteLines bytes := by
  have hline : ∀ b ∈ line, (b == 10) = false := by
    intro b hb
    simpa using fun heq : b = 10 => h (heq ▸ hb)
  rw [byteLines_append, pieces_of_forall hline]
  rfl

/-- The pieces between newlines are the lines, but for an empty piece at the end. -/
theorem pieces_eq_byteLines (bytes : List UInt8) :
    (pieces (· == 10) bytes).map (dropEnd 13) = byteLines bytes ∨
    (pieces (· == 10) bytes).map (dropEnd 13) = byteLines bytes ++ [[]] := by
  have hne := pieces_ne_nil (· == (10 : UInt8)) bytes
  have hlast : pieces (· == (10 : UInt8)) bytes = (pieces (· == 10) bytes).dropLast
      ++ [(pieces (· == (10 : UInt8)) bytes).getLast?.getD []] := by
    rw [List.getLast?_eq_some_getLast hne, Option.getD_some, List.dropLast_concat_getLast]
  unfold byteLines completeLines
  by_cases hrest : (pieces (· == (10 : UInt8)) bytes).getLast?.getD [] = []
  · right
    conv => lhs; rw [hlast]
    simp [hrest, dropEnd]
  · left
    conv => lhs; rw [hlast]
    simp [hrest]

/-- Lines that are written with their ends are read back, if they hold no newline and none that ends
with a newline alone has a carriage return at its end. -/
theorem byteLines_joinLines {lines : List (List UInt8 × LineEnd)}
    (h : ∀ line ∈ lines, (10 : UInt8) ∉ line.1 ∧ line.1.getLast? ≠ some 13) :
    byteLines (joinLines lines) = lines.map (·.1) := by
  induction lines with
  | nil => rfl
  | cons line lines ih =>
    obtain ⟨⟨hnewline, hreturn⟩, hlines⟩ := List.forall_mem_cons.mp h
    obtain ⟨line, lineEnd⟩ := line
    rw [joinLines_cons]
    cases lineEnd with
    | newline =>
      simp only [LineEnd.bytes, List.cons_append, List.nil_append]
      rw [byteLines_cons hnewline, dropEnd_of_ne hreturn, ih hlines]
      rfl
    | carriageReturnNewline =>
      have hcut : (10 : UInt8) ∉ line ++ [13] := by simpa using hnewline
      simp only [LineEnd.bytes, List.cons_append, List.nil_append]
      rw [List.append_cons, byteLines_cons hcut, dropEnd_append, ih hlines]
      rfl

end Relabel.Text
