import Relabel.Proofs.Descriptor.Bytewise
import Relabel.Proofs.Signature.Bytewise
import Relabel.Proofs.Signature.Parse

/-!
# Parsing signatures by byte positions

The parser over bytes does what the parser over characters does: a position that the first
comes to is the one in front of the characters that the second has left. Each step of the one
keeps the relation to the other, since it moves on over letters of one byte, or over all bytes
in front of such a letter, so each routine of the grammar does.
-/

namespace Relabel

namespace Bytewise

open Text

/-! ## Agreement -/

/-- The position is the one in front of what the scanner has left of the text. -/
structure At (text : String) (position : Nat) (s : Scanner) : Prop where
  counted : s.position = position
  split : ∃ front, text.toList = front ++ s.rest ∧ position = byteCount front

/-- Where the scanner over characters reads an item, the parser over bytes does the same, and
where the first fails, the second does so too, at a position in the text. -/
inductive AgreesAt {α : Type} (text : String) (s : Scanner) :
    EStateM.Result (Halt SignatureFlaw) Nat α → EStateM.Result SignatureFlaw Scanner α → Prop
  | ok {a : α} {position : Nat} {s' : Scanner} (hat : At text position s')
    (hle : s'.rest.length ≤ s.rest.length) : AgreesAt text s (.ok a position) (.ok a s')
  | error {flaw : SignatureFlaw} {position : Nat} {s' : Scanner}
    (hle : position ≤ text.utf8ByteSize) :
    AgreesAt text s (.error (.fault flaw) position) (.error flaw s')

/-- The parsers agree wherever less than `n` characters are left. -/
def Agrees {α : Type} (text : String) (n : Nat) (x : Run α) (y : Scan α) : Prop :=
  ∀ ⦃position s⦄, At text position s → s.rest.length < n → AgreesAt text s (x position) (y s)

namespace At

variable {text : String} {position : Nat} {s : Scanner}

theorem start (text : String) : At text 0 ⟨0, text.toList⟩ := ⟨rfl, [], rfl, rfl⟩

theorem drop (h : At text position s) :
    (utf8 text).drop position = s.rest.flatMap String.utf8EncodeChar := by
  obtain ⟨front, hsplit, rfl⟩ := h.split
  exact drop_utf8 hsplit

theorem size (h : At text position s) : text.utf8ByteSize = position + byteCount s.rest := by
  obtain ⟨front, hsplit, rfl⟩ := h.split
  rw [utf8ByteSize_eq, hsplit, byteCount_append]

theorem le_size (h : At text position s) : position ≤ text.utf8ByteSize := by
  rw [h.size]
  exact Nat.le_add_right _ _

theorem past (h : At text position s) {chars rest : List Char} (hs : s.rest = chars ++ rest) :
    At text (position + byteCount chars) ⟨s.position + byteCount chars, rest⟩ := by
  obtain ⟨front, hsplit, hposition⟩ := h.split
  refine ⟨congrArg (· + _) h.counted, front ++ chars, ?_, ?_⟩
  · rw [hsplit, hs, List.append_assoc]
  · rw [hposition, byteCount_append]

theorem cut_past (h : At text position s) {chars rest : List Char} (hs : s.rest = chars ++ rest) :
    cut text position (position + byteCount chars)
      = (.ok (.ofList chars) : Except (Halt SignatureFlaw) String) := by
  obtain ⟨front, hsplit, hposition⟩ := h.split
  rw [hs] at hsplit
  exact cut_of_split hsplit hposition rfl

theorem byte? (h : At text position s) :
    (utf8 text)[position]? = (s.rest.flatMap String.utf8EncodeChar).head? := by
  rw [← h.drop, List.head?_drop]

/-- The next byte is the first one of the next character. -/
theorem peek (h : At text position s) {c : Char} {rest : List Char} (hs : s.rest = c :: rest) :
    Run.peek text position = .ok (firstByte c) position := by
  obtain ⟨lead, inside, hc, hfirst⟩ := utf8EncodeChar_eq_cons c
  have hbyte : (utf8 text)[position]? = some lead := by
    rw [h.byte?, hs, List.flatMap_cons, hc]
    rfl
  rw [Run.peek, hbyte, ← hfirst]

theorem peek_end (h : At text position s) (hs : s.rest = []) :
    Run.peek text position = .error (.fault .unexpectedEnd) position := by
  have hbyte : (utf8 text)[position]? = none := by
    rw [h.byte?, hs]
    rfl
  rw [Run.peek, hbyte]

end At

theorem AgreesAt.mono {α : Type} {text : String} {s s' : Scanner}
    {x : EStateM.Result (Halt SignatureFlaw) Nat α} {y : EStateM.Result SignatureFlaw Scanner α}
    (h : AgreesAt text s' x y) (hle : s'.rest.length ≤ s.rest.length) : AgreesAt text s x y := by
  cases h with
  | ok hat hle' => exact .ok hat (hle'.trans hle)
  | error hle => exact .error hle

/-- What the scanner reads takes up a character. -/
def Consumes {α : Type} (y : Scan α) : Prop :=
  ∀ ⦃s a s'⦄, y s = .ok a s' → s'.rest.length < s.rest.length

theorem consumes_expect (letter : Char) : Consumes (Scan.expect letter) := by
  intro s _ s' h
  rw [Scan.expect_eq_ok h]
  exact Nat.lt_succ_self _

theorem consumes_of_spells {α : Type} {y : Scan α} {write : α → List Char → List Char}
    {P : α → Prop} (h : Relabel.Signature.Spells y write P)
    (hwrite : ∀ a tail, tail.length < (write a tail).length) : Consumes y := by
  intro s a s' hs
  rw [(h hs).1]
  exact hwrite a _

namespace Agrees

variable {α β : Type} {text : String} {m n limit : Nat} {x : Run α} {y : Scan α}

theorem pure (a : α) : Agrees text n (pure a) (pure a) := fun _ _ h _ => .ok h (Nat.le_refl _)

theorem mono (h : Agrees text n x y) (hmn : m ≤ n) : Agrees text m x y :=
  fun _ _ hat hlt => h hat (hlt.trans_le hmn)

/-- The second parser has to agree only where the first one can leave off. -/
theorem bind_within {f : α → Run β} {g : α → Scan β} (hx : Agrees text n x y)
    (hy : ∀ ⦃s a s'⦄, y s = .ok a s' → s.rest.length < n → s'.rest.length ≤ s.rest.length →
      s'.rest.length < m) (hf : ∀ a, Agrees text m (f a) (g a)) :
    Agrees text n (x >>= f) (y >>= g) := by
  intro position s h hn
  match hxp : x position, hys : y s, hx h hn with
  | .ok a position', .ok _ s', .ok hat hle =>
    rw [bind_of_ok hxp, bind_of_ok hys]
    exact (hf a hat (hy hys hn hle)).mono hle
  | .error _ position', .error flaw s', .error hle =>
    rw [bind_of_error hxp, bind_of_error hys]
    exact .error hle

theorem bind {f : α → Run β} {g : α → Scan β} (hx : Agrees text n x y)
    (hf : ∀ a, Agrees text n (f a) (g a)) : Agrees text n (x >>= f) (y >>= g) :=
  hx.bind_within (fun _ _ _ _ hn hle => hle.trans_lt hn) hf

/-- Behind an item there is less text left. -/
theorem bind_of_consumes {f : α → Run β} {g : α → Scan β} (hx : Agrees text (n + 1) x y)
    (hy : Consumes y) (hf : ∀ a, Agrees text n (f a) (g a)) :
    Agrees text (n + 1) (x >>= f) (y >>= g) :=
  hx.bind_within (fun _ _ _ hys hn _ => (hy hys).trans_le (Nat.le_of_lt_succ hn)) hf

theorem map (hx : Agrees text n x y) (f : α → β) : Agrees text n (f <$> x) (f <$> y) := by
  rw [map_eq_pure_bind, map_eq_pure_bind]
  exact hx.bind fun a => .pure (f a)

theorem ite {p q : Prop} [Decidable p] [Decidable q] (hpq : p ↔ q) {x' : Run α} {y' : Scan α}
    (hx : Agrees text n x y) (hx' : Agrees text n x' y') :
    Agrees text n (if p then x else x') (if q then y else y') := by
  by_cases hq : q
  · rw [if_pos hq, if_pos (hpq.mpr hq)]
    exact hx
  · rw [if_neg hq, if_neg (mt hpq.mp hq)]
    exact hx'

theorem peek_bind {f : Char → Run β} {g : Char → Scan β}
    (h : ∀ c, Agrees text n (f (firstByte c)) (g c)) :
    Agrees text n (Run.peek text >>= f) (Scan.peek >>= g) := by
  intro position s hat hn
  match hs : s.rest with
  | [] =>
    have hpeek : Scan.peek s = .error .unexpectedEnd s := by rw [Scan.peek, hs]
    rw [bind_of_error (hat.peek_end hs), bind_of_error hpeek]
    exact .error hat.le_size
  | c :: rest =>
    have hpeek : Scan.peek s = .ok c s := by rw [Scan.peek, hs]
    rw [bind_of_ok (hat.peek hs), bind_of_ok hpeek]
    exact h c hat hn

theorem peekIs {p : Char → Bool} (hp : ∀ c, p (firstByte c) = p c) :
    Agrees text n (do return p (← Run.peek text)) (do return p (← Scan.peek)) :=
  peek_bind fun c => by
    rw [hp]
    exact .pure _

theorem atEnd : Agrees text n (Run.atEnd text) Scan.atEnd := by
  intro position s hat hn
  have hsame : decide (text.utf8ByteSize ≤ position) = s.rest.isEmpty := by
    have hempty : byteCount s.rest = 0 ↔ s.rest.isEmpty = true := by
      rw [byteCount_eq_zero, List.isEmpty_iff]
    have hsize := hat.size
    grind
  rw [Run.atEnd, Scan.atEnd, hsame]
  exact .ok hat (Nat.le_refl _)

theorem unexpected : Agrees text n (Run.unexpected text : Run α) Scan.unexpected := by
  intro position s hat hn
  match hs : s.rest with
  | [] =>
    have hscan : (Scan.unexpected : Scan α) s = .error .unexpectedEnd s := by
      rw [Scan.unexpected, hs]
    rw [hscan, Run.unexpected, bind_of_error (hat.peek_end hs)]
    exact .error hat.le_size
  | c :: rest =>
    have hscan : (Scan.unexpected : Scan α) s
        = .error (.unexpected s.position (firstByte c)) s := by
      rw [Scan.unexpected, hs]
    rw [hscan, Run.unexpected, bind_of_ok (hat.peek hs), hat.counted]
    exact .error hat.le_size

/-- A letter is one byte, so the position behind it is in front of a character again. -/
theorem expect {letter : Char} (hletter : letter.toNat < 0x80) :
    Agrees text n (Run.expect text letter) (Scan.expect letter) := by
  intro position s hat hn
  match hs : s.rest with
  | [] =>
    have hscan : Scan.expect letter s = .error .unexpectedEnd s := by rw [Scan.expect, hs]
    rw [hscan, Run.expect, bind_of_error (hat.peek_end hs)]
    exact .error hat.le_size
  | c :: rest =>
    rw [Run.expect, bind_of_ok (hat.peek hs)]
    by_cases hc : c = letter
    · subst hc
      have hsplit : s.rest = [c] ++ rest := hs
      have hat' : At text (position + 1) ⟨s.position + 1, rest⟩ := by
        simpa only [byteCount_of_lt hletter] using hat.past hsplit
      have hscan : Scan.expect c s = .ok () ⟨s.position + 1, rest⟩ := by
        rw [Scan.expect, hs]
        dsimp only
        rw [if_pos rfl, utf8Size_of_lt hletter]
      have hmove : Run.advance text position = .ok () (position + 1) := if_pos hat'.le_size
      rw [hscan, if_pos (firstByte_of_lt hletter), hmove]
      refine .ok hat' ?_
      rw [hs]
      exact Nat.le_succ _
    · have hscan : Scan.expect letter s = .error (.expected letter s.position (firstByte c)) s := by
        rw [Scan.expect, hs]
        dsimp only
        rw [if_neg hc]
      rw [hscan, if_neg (mt (firstByte_eq_iff hletter).mp hc), hat.counted]
      exact .error hat.le_size

/-! ### Names -/

section

variable {stop : Char → Bool} {position : Nat} {inside rest : List UInt8}

theorem peek_of_drop {b : UInt8} (h : (utf8 text).drop position = b :: rest) :
    Run.peek text position = .ok (Char.ofNat b.toNat) position := by
  have hbyte : (utf8 text)[position]? = some b := by rw [← List.head?_drop, h, List.head?_cons]
  rw [Run.peek, hbyte]

/-- The bytes in front of the next delimiter are passed one by one. -/
theorem skipTo_inside (h : (utf8 text).drop position = inside ++ rest)
    (hinside : ∀ b ∈ inside, stop (Char.ofNat b.toNat) = false) :
    Run.skipTo text stop (limit + inside.length) position
      = Run.skipTo text stop limit (position + inside.length) := by
  induction inside generalizing position with
  | nil => rfl
  | cons b inside ih =>
    obtain ⟨hb, hinside⟩ := List.forall_mem_cons.mp hinside
    have hsize : position < text.utf8ByteSize := by
      have hlength := congrArg List.length h
      rw [List.length_drop, length_utf8, List.cons_append, List.length_cons] at hlength
      omega
    have hmove : Run.advance text position = .ok () (position + 1) := if_pos hsize
    have hnext : (utf8 text).drop (position + 1) = inside ++ rest := by
      rw [← List.drop_drop, h]
      rfl
    have hstep : Run.skipTo text stop (limit + inside.length + 1) position
        = Run.skipTo text stop (limit + inside.length) (position + 1) := by
      rw [Run.skipTo, bind_of_ok (peek_of_drop h), hb]
      exact bind_of_ok hmove
    rw [List.length_cons, ← Nat.add_assoc, hstep, ih hnext hinside, Nat.add_assoc,
      Nat.add_comm 1]

end

/-- From the start of a name the next delimiter byte is the next delimiter, in front of which the
position is one between characters. -/
theorem skipTo_past {stop : Char → Bool} (hstop : ∀ c, stop c = true → c.toNat < 0x80)
    {position : Nat} {s : Scanner} (hat : At text position s) {name rest : List Char}
    (hs : s.rest = name ++ rest) (hname : ∀ c ∈ name, stop c = false) :
    Run.skipTo text stop (text.utf8ByteSize + 1) position
      = Run.skipTo text stop (position + byteCount rest + 1) (position + byteCount name) := by
  have hdrop : (utf8 text).drop position = name.flatMap String.utf8EncodeChar
      ++ rest.flatMap String.utf8EncodeChar := by
    rw [hat.drop, hs, List.flatMap_append]
  have hinside : ∀ b ∈ name.flatMap String.utf8EncodeChar,
      stop (Char.ofNat b.toNat) = false := by
    intro b hb
    obtain ⟨c, hc, hb⟩ := List.mem_flatMap.mp hb
    exact stop_of_mem_utf8EncodeChar hstop (hname c hc) hb
  have hlimit : text.utf8ByteSize + 1 = position + byteCount rest + 1 + byteCount name := by
    have hsize := hat.size
    rw [hs, byteCount_append] at hsize
    omega
  rw [hlimit, ← length_utf8EncodeChars name, skipTo_inside hdrop hinside]

theorem identifier {stop : Char → Bool} (hstop : ∀ c, stop c = true → c.toNat < 0x80) :
    Agrees text n (Run.identifier text stop) (Scan.identifier stop) := by
  intro position s hat hn
  have hs : s.rest = s.rest.takeWhile (!stop ·) ++ s.rest.dropWhile (!stop ·) :=
    List.takeWhile_append_dropWhile.symm
  have hname : ∀ c ∈ s.rest.takeWhile (!stop ·), stop c = false := by
    intro c hc
    simpa using List.mem_takeWhile_imp hc
  have hskip := skipTo_past hstop hat hs hname
  have hat' := hat.past hs
  have hcut := hat.cut_past hs
  have hget : (get : Run Nat) position = .ok position position := rfl
  rw [Run.identifier, bind_of_ok hget]
  unfold Scan.identifier
  generalize s.rest.takeWhile (!stop ·) = name at *
  cases hrest : s.rest.dropWhile (!stop ·) with
  | nil =>
    rw [hrest] at hskip hat'
    have hend : Run.skipTo text stop (text.utf8ByteSize + 1) position
        = .error (.fault .unexpectedEnd) (position + byteCount name) := by
      rw [hskip, Run.skipTo]
      exact bind_of_error (hat'.peek_end rfl)
    rw [bind_of_error hend]
    exact .error hat'.le_size
  | cons c rest =>
    rw [hrest] at hskip hat'
    have hc : stop c = true := by
      have hhead := List.head?_dropWhile_not (!stop ·) s.rest
      rw [hrest] at hhead
      simpa using hhead
    have hend : Run.skipTo text stop (text.utf8ByteSize + 1) position
        = .ok () (position + byteCount name) := by
      rw [hskip, Run.skipTo, bind_of_ok (hat'.peek rfl), firstByte_of_lt (hstop c hc), hc]
      rfl
    have hget' : (get : Run Nat) (position + byteCount name)
        = .ok (position + byteCount name) (position + byteCount name) := rfl
    rw [bind_of_ok hend, bind_of_ok hget']
    dsimp only
    by_cases hempty : name = []
    · have hsame : position + byteCount name = position := by
        rw [byteCount_eq_zero.mpr hempty, Nat.add_zero]
      rw [if_pos hsame, if_pos (by simpa using hempty), hat.counted]
      exact .error hat'.le_size
    · have hne : position + byteCount name ≠ position := by
        have hcount := mt byteCount_eq_zero.mp hempty
        omega
      have hread : Run.cutFrom text position (position + byteCount name)
          = .ok (.ofList name) (position + byteCount name) := by rw [Run.cutFrom, hcut]
      rw [if_neg hne, if_neg (by simpa using hempty)]
      change AgreesAt text s (Run.cutFrom text position (position + byteCount name)) _
      rw [hread]
      refine .ok hat' ?_
      rw [hs, hrest, List.length_append]
      exact Nat.le_add_left _ _

/-! ### Lists -/

/-- The bound on the items is not reached, as each item takes up a character. -/
theorem many {more : Run Bool} {more' : Scan Bool} {limit : Nat} (hmore : Agrees text n more more')
    (hitem : Agrees text n x y) (hy : Consumes y) (hn : n ≤ limit) :
    Agrees text n (Run.many more x limit) (Scan.many more' y limit) := by
  induction limit generalizing n with
  | zero =>
    obtain rfl := Nat.le_zero.mp hn
    exact fun _ _ _ hlt => absurd hlt (Nat.not_lt_zero _)
  | succ limit ih =>
    refine hmore.bind fun b => ?_
    cases b with
    | false => exact .pure []
    | true =>
      obtain _ | n := n
      · exact fun _ _ _ hlt => absurd hlt (Nat.not_lt_zero _)
      · have hbehind := ih (hmore.mono (Nat.le_succ n)) (hitem.mono (Nat.le_succ n))
          (Nat.le_of_succ_le_succ hn)
        exact hitem.bind_of_consumes hy fun a => hbehind.bind fun as => .pure (a :: as)

end Agrees

/-! ## The grammar keeps the agreement -/

theorem lt_of_beq {letter : Char} (h : letter.toNat < 0x80) (c : Char) (hc : (c == letter) = true) :
    c.toNat < 0x80 := by
  rwa [eq_of_beq hc]

theorem lt_of_endsClassName (c : Char) (hc : Relabel.Signature.endsClassName c = true) :
    c.toNat < 0x80 := by
  simp only [Relabel.Signature.endsClassName, Bool.or_eq_true] at hc
  obtain (hc | hc) | hc := hc
  · exact lt_of_beq (by decide) c hc
  · exact lt_of_beq (by decide) c hc
  · exact lt_of_beq (by decide) c hc

theorem firstByte_beq {letter : Char} (h : letter.toNat < 0x80) (c : Char) :
    (firstByte c == letter) = (c == letter) := by
  rw [Bool.eq_iff_iff, beq_iff_eq, beq_iff_eq, firstByte_eq_iff h]

theorem firstByte_bne {letter : Char} (h : letter.toNat < 0x80) (c : Char) :
    (firstByte c != letter) = (c != letter) := by
  rw [bne, bne, firstByte_beq h]

theorem letter_lt (b : BaseType) : b.letter.toNat < 0x80 := by
  cases b <;> decide

theorem ofLetter?_of_le {c : Char} (h : 0x80 ≤ c.toNat) : BaseType.ofLetter? c = none := by
  unfold BaseType.ofLetter?
  split
  case h_9 => rfl
  all_goals exact absurd h (by decide)

theorem ofLetter?_firstByte (c : Char) :
    BaseType.ofLetter? (firstByte c) = BaseType.ofLetter? c := by
  by_cases hc : c.toNat < 0x80
  · rw [firstByte_of_lt hc]
  · have hle := Nat.le_of_not_lt hc
    rw [ofLetter?_of_le hle, ofLetter?_of_le (le_firstByte hle)]

namespace Signature

open Relabel.Signature (endsClassName)

variable {text : String} {n limit depth : Nat} {reference : Run ReferenceType}
  {reference' : Scan ReferenceType}

theorem agrees_variable :
    Agrees text n (scanVariable text) Relabel.Signature.scanVariable :=
  (Agrees.expect (by decide)).bind fun _ =>
    (Agrees.identifier (lt_of_beq (by decide))).bind fun name =>
      (Agrees.expect (by decide)).bind fun _ => .pure name

theorem agrees_nextIs {letter : Char} (h : letter.toNat < 0x80) :
    Agrees text n (do return (← Run.peek text) == letter) (do return (← Scan.peek) == letter) :=
  .peekIs fun c => firstByte_beq h c

theorem agrees_nextIsNot {letter : Char} (h : letter.toNat < 0x80) :
    Agrees text n (do return (← Run.peek text) != letter) (do return (← Scan.peek) != letter) :=
  .peekIs fun c => firstByte_bne h c

section

variable (hreference : Agrees text n reference reference')
include hreference

theorem agrees_argument : Agrees text n (scanArgument text reference)
    (Relabel.Signature.scanArgument reference') := by
  refine Agrees.peek_bind fun c => ?_
  split
  case h_1 hc =>
    obtain rfl := (firstByte_eq_iff (by decide)).mp hc
    exact (Agrees.expect (by decide)).bind fun _ => .pure _
  case h_2 hc =>
    obtain rfl := (firstByte_eq_iff (by decide)).mp hc
    exact (Agrees.expect (by decide)).bind fun _ => hreference.bind fun _ => .pure _
  case h_3 hc =>
    obtain rfl := (firstByte_eq_iff (by decide)).mp hc
    exact (Agrees.expect (by decide)).bind fun _ => hreference.bind fun _ => .pure _
  case h_4 hstar hplus hminus =>
    split
    · exact absurd rfl hstar
    · exact absurd rfl hplus
    · exact absurd rfl hminus
    · exact hreference.bind fun _ => .pure _

variable (hspells : Relabel.Signature.Spells reference' ReferenceType.write ReferenceType.Legible)
  (hn : n ≤ limit)
include hspells hn

theorem agrees_part : Agrees text n (scanPart text limit reference)
    (Relabel.Signature.scanPart limit reference') := by
  refine Agrees.peek_bind fun c => .ite (firstByte_eq_iff (by decide)) ?_ ?_
  · have hitem := consumes_of_spells (Relabel.Signature.spells_argument hspells)
      TypeArgument.length_write
    have hmore : Agrees text n (do return (← Run.peek text) != '>')
        (do return (← Scan.peek) != '>') := agrees_nextIsNot (by decide)
    have hmany := hmore.many (agrees_argument hreference) hitem hn
    exact (Agrees.expect (by decide)).bind fun _ => hmany.bind fun arguments =>
      (Agrees.expect (by decide)).bind fun _ => .pure _
  · exact (Agrees.expect (by decide)).bind fun _ =>
      (Agrees.identifier lt_of_endsClassName).bind fun _ => .pure _

theorem agrees_classType : Agrees text (n + 1) (scanClassType text limit reference)
    (Relabel.Signature.scanClassType limit reference') := by
  have hmore : Agrees text n (do let c ← Run.peek text; return c == '<' || c == '.')
      (do let c ← Scan.peek; return c == '<' || c == '.') := by
    refine .peekIs (p := fun c => c == '<' || c == '.') fun c => ?_
    rw [firstByte_beq (by decide), firstByte_beq (by decide)]
  have hitem : Consumes (Relabel.Signature.scanPart limit reference') :=
    consumes_of_spells (Relabel.Signature.spells_part hspells) ClassPart.length_write
  have hmany := hmore.many (agrees_part hreference hspells hn) hitem hn
  exact (Agrees.expect (by decide)).bind_of_consumes (consumes_expect _) fun _ =>
    (Agrees.identifier lt_of_endsClassName).bind fun name => hmany.bind fun parts =>
      (Agrees.expect (by decide)).bind fun _ => .pure _

end

theorem agrees_javaType (hreference : Agrees text n reference reference') :
    Agrees text n (scanJavaType text reference) (Relabel.Signature.scanJavaType reference') := by
  refine Agrees.peek_bind fun c => ?_
  rw [ofLetter?_firstByte]
  cases BaseType.ofLetter? c with
  | some type => exact (Agrees.expect (letter_lt type)).bind fun _ => .pure _
  | none => exact hreference.bind fun _ => .pure _

theorem agrees_reference (h : depth ≤ limit) : Agrees text depth (scanReference text limit depth)
    (Relabel.Signature.scanReference limit depth) := by
  induction depth with
  | zero => exact fun _ _ _ hlt => absurd hlt (Nat.not_lt_zero _)
  | succ depth ih =>
    have hreference := ih (Nat.le_of_succ_le h)
    refine Agrees.peek_bind fun c => ?_
    split
    case h_1 hc =>
      obtain rfl := (firstByte_eq_iff (by decide)).mp hc
      have htype := agrees_classType hreference (Relabel.Signature.spells_reference limit depth)
        (Nat.le_of_succ_le h)
      exact htype.bind fun _ => .pure _
    case h_2 hc =>
      obtain rfl := (firstByte_eq_iff (by decide)).mp hc
      exact agrees_variable.bind fun _ => .pure _
    case h_3 hc =>
      obtain rfl := (firstByte_eq_iff (by decide)).mp hc
      exact (Agrees.expect (by decide)).bind_of_consumes (consumes_expect _) fun _ =>
        (agrees_javaType hreference).bind fun _ => .pure _
    case h_4 hobject hvariable harray =>
      split
      · exact absurd rfl hobject
      · exact absurd rfl hvariable
      · exact absurd rfl harray
      · exact .unexpected

/-! ### Signatures -/

theorem agrees_full : Agrees text limit (scanReference text limit limit)
    (Relabel.Signature.scanReference limit limit) := agrees_reference (Nat.le_refl _)

theorem agrees_fullClassType :
    Agrees text limit (scanClassType text limit (scanReference text limit limit))
      (Relabel.Signature.scanClassType limit (Relabel.Signature.scanReference limit limit)) :=
  (agrees_classType agrees_full (Relabel.Signature.spells_reference limit limit)
    (Nat.le_refl _)).mono (Nat.le_succ _)

theorem consumes_bound :
    Consumes (do Scan.expect ':'; Relabel.Signature.scanReference limit limit) := by
  intro s type s' h
  obtain ⟨s₁, hrest, h⟩ := Relabel.Signature.expect_bind_eq_ok h
  have hbehind := consumes_of_spells (Relabel.Signature.spells_reference limit limit)
    ReferenceType.length_write h
  rw [hrest]
  exact Nat.lt_succ_of_lt hbehind

theorem consumes_parameter : Consumes (Relabel.Signature.scanParameter limit) := by
  intro s p s' h
  rw [(Relabel.Signature.scanParameter_eq_ok h).1]
  exact Relabel.Signature.length_parameter p _

theorem agrees_parameter : Agrees text limit (scanParameter text limit)
    (Relabel.Signature.scanParameter limit) := by
  have hbound : Agrees text limit (do Run.expect text ':'; scanReference text limit limit)
      (do Scan.expect ':'; Relabel.Signature.scanReference limit limit) :=
    (Agrees.expect (by decide)).bind fun _ => agrees_full
  have hmore : Agrees text limit (do return (← Run.peek text) == ':')
      (do return (← Scan.peek) == ':') := agrees_nextIs (by decide)
  have hmany := hmore.many hbound consumes_bound (Nat.le_refl limit)
  have hstarts (c : Char) : (firstByte c = 'L' || firstByte c = '[' || firstByte c = 'T') = true ↔
      (c = 'L' || c = '[' || c = 'T') = true := by
    have hobject := firstByte_eq_iff (c := c) (show 'L'.toNat < 0x80 by decide)
    have harray := firstByte_eq_iff (c := c) (show '['.toNat < 0x80 by decide)
    have hvariable := firstByte_eq_iff (c := c) (show 'T'.toNat < 0x80 by decide)
    simp only [hobject, harray, hvariable]
  refine (Agrees.identifier (lt_of_beq (by decide))).bind fun name =>
    (Agrees.expect (by decide)).bind fun _ => .peek_bind fun c => .ite (hstarts c) ?_ ?_
  · exact (agrees_full.map some).bind fun _ => hmany.bind fun _ => .pure _
  · exact (Agrees.pure none).bind fun _ => hmany.bind fun _ => .pure _

theorem agrees_parameters : Agrees text limit (scanParameters text limit)
    (Relabel.Signature.scanParameters limit) := by
  have hmore : Agrees text limit (do return (← Run.peek text) != '>')
      (do return (← Scan.peek) != '>') := agrees_nextIsNot (by decide)
  have hmany := hmore.many agrees_parameter consumes_parameter (Nat.le_refl limit)
  refine Agrees.peek_bind fun c => .ite (firstByte_eq_iff (by decide)) ?_ (.pure [])
  exact (Agrees.expect (by decide)).bind fun _ => agrees_parameter.bind fun first =>
    hmany.bind fun others => (Agrees.expect (by decide)).bind fun _ => .pure _

theorem agrees_thrown : Agrees text limit (scanThrown text limit)
    (Relabel.Signature.scanThrown limit) := by
  refine (Agrees.expect (by decide)).bind fun _ => .peek_bind fun c =>
    .ite (firstByte_eq_iff (by decide)) ?_ ?_
  · exact agrees_variable.bind fun _ => .pure _
  · exact agrees_fullClassType.bind fun _ => .pure _

theorem agrees_result : Agrees text limit (scanResult text limit)
    (Relabel.Signature.scanResult limit) := by
  refine Agrees.peek_bind fun c => .ite (firstByte_eq_iff (by decide)) ?_ ?_
  · exact (Agrees.expect (by decide)).bind fun _ => .pure none
  · exact (agrees_javaType agrees_full).bind fun _ => .pure _

theorem agrees_scan (kind : SymbolKind) : Agrees text limit (scan text limit kind)
    (Relabel.Signature.scan limit kind) := by
  have hmore : Agrees text limit (do return !(← Run.atEnd text)) (do return !(← Scan.atEnd)) :=
    Agrees.atEnd.bind fun _ => .pure _
  have hclass : Consumes (Relabel.Signature.scanClassType limit
      (Relabel.Signature.scanReference limit limit)) :=
    consumes_of_spells (Relabel.Signature.spells_classType
      (Relabel.Signature.spells_reference limit limit)) ClassType.length_write
  have hjava : Consumes (Relabel.Signature.scanJavaType
      (Relabel.Signature.scanReference limit limit)) :=
    consumes_of_spells (Relabel.Signature.spells_javaType
      (Relabel.Signature.spells_reference limit limit)) JavaType.length_write
  have hthrown : Consumes (Relabel.Signature.scanThrown limit) :=
    consumes_of_spells Relabel.Signature.spells_thrown Relabel.Signature.length_thrown
  cases kind with
  | ofClass =>
    have hmany := hmore.many agrees_fullClassType hclass (Nat.le_refl limit)
    exact agrees_parameters.bind fun parameters => agrees_fullClassType.bind fun superclass =>
      hmany.bind fun interfaces => .pure _
  | ofMethod =>
    have hclosing : Agrees text limit (do return (← Run.peek text) != ')')
        (do return (← Scan.peek) != ')') := agrees_nextIsNot (by decide)
    have harguments := hclosing.many (agrees_javaType agrees_full) hjava (Nat.le_refl limit)
    have hmany := hmore.many agrees_thrown hthrown (Nat.le_refl limit)
    exact agrees_parameters.bind fun parameters => (Agrees.expect (by decide)).bind fun _ =>
      harguments.bind fun arguments => (Agrees.expect (by decide)).bind fun _ =>
        agrees_result.bind fun result => hmany.bind fun thrown => .pure _
  | ofField => exact agrees_full.bind fun type => .pure _

theorem agreesAt_scan (kind : SymbolKind) (text : String) :
    AgreesAt text ⟨0, text.toList⟩ (scan text (text.length + 1) kind 0)
      (Relabel.Signature.scan (text.toList.length + 1) kind ⟨0, text.toList⟩) := by
  rw [← String.length_toList]
  exact agrees_scan kind (.start text) (Nat.lt_succ_self _)

/-- The parser over bytes reads what the parser over characters reads. -/
theorem parse_eq (kind : SymbolKind) (text : String) :
    parse text kind = (Relabel.Signature.parse kind text).mapError .fault := by
  have hagrees := agreesAt_scan kind text
  rw [parse, Relabel.Signature.parse, Relabel.Signature.ofChars]
  generalize scan text (text.length + 1) kind 0 = read at hagrees ⊢
  generalize Relabel.Signature.scan _ kind _ = read' at hagrees ⊢
  cases hagrees with
  | @ok signature position s' hat hle =>
    have hend : position = text.utf8ByteSize ↔ s'.rest.isEmpty = true := by
      rw [hat.size, List.isEmpty_iff, ← byteCount_eq_zero]
      omega
    dsimp only
    by_cases hrest : s'.rest.isEmpty = true
    · rw [if_pos hrest, if_pos (hend.mpr hrest)]
      rfl
    · rw [if_neg hrest, if_neg (mt hend.mp hrest), hat.counted]
      rfl
  | error hle => rfl

theorem position_scan_le (kind : SymbolKind) (text : String) :
    stateOf (scan text (text.length + 1) kind 0) ≤ text.utf8ByteSize := by
  have hagrees := agreesAt_scan kind text
  generalize scan text (text.length + 1) kind 0 = read at hagrees ⊢
  generalize Relabel.Signature.scan _ kind _ = read' at hagrees
  cases hagrees with
  | ok hat _ => exact hat.le_size
  | error hle => exact hle

end Signature

theorem signature_eq (r : Renaming) (kind : SymbolKind) (text : String) :
    signature r kind text = (r.signature kind text).mapError .fault := by
  rw [signature, Signature.parse_eq, Renaming.signature]
  cases Relabel.Signature.parse kind text with
  | ok signature => rfl
  | error flaw => rfl

/-- The text ends inside of a name, behind a character of two bytes. -/
example : signature .identity .ofField "Lé" = .error (.fault (.signature "Lé" .unexpectedEnd)) := by
  decide +kernel

end Bytewise

namespace Renaming

/-- The runs over bytes, in which every cut has to be between characters and every position in the
text, have the results of those over characters: the names in descriptors and signatures are always
cut out of the text between characters, and no position lies behind the end. -/
theorem bytewise_eq (r : Renaming) (text : String) :
    Bytewise.descriptor r text = (r.descriptor text).mapError .fault ∧
    ∀ kind, Bytewise.signature r kind text = (r.signature kind text).mapError .fault ∧
      stateOf (Bytewise.Signature.scan text (text.length + 1) kind 0) ≤ text.utf8ByteSize :=
  ⟨Bytewise.descriptor_eq r text, fun kind =>
    ⟨Bytewise.signature_eq r kind text, Bytewise.Signature.position_scan_le kind text⟩⟩

end Renaming

end Relabel
