import Mathlib.Data.List.Forall2
import Relabel.Edit.Slot
import Relabel.Proofs.Edit.Onward
import Relabel.Proofs.Pool.Room
import Relabel.Proofs.Renaming.Plain

/-!
# Pieces of a payload

A payload is cut into pieces: bytes that no walk changes, indices of attribute names, and
slots. What a walk does to the pieces that it passes is known from the pool that it
leaves: each slot holds the index of its new text, if that differs from the old one. As
entries and known positions stay, the pieces passed so far need not be looked at again.
The pool gains one slot for each new text that it was lacking, so it is known from the
pieces whether there is room for them.
-/

namespace Relabel.Layout

/-- A word of a payload that leads to a name. -/
inductive Slot where
  | descriptor (index : UInt16)
  /-- A generic signature of the given kind. -/
  | signature (kind : SymbolKind) (index : UInt16)
  /-- The simple name of the class at `inner`. -/
  | simpleName (inner : UInt16) (index : UInt16)
  deriving DecidableEq

inductive Piece where
  | fixed (bytes : List UInt8)
  | attributeName (index : UInt16) (name : String)
  | slot (s : Slot)

/-- The new text, unless it is the old one or there is none. -/
def changed? (new : Except Flaw String) (old : String) : Option String :=
  match new with
  | .ok text => if text = old then none else some text
  | .error _ => none

namespace Slot

def index : Slot → UInt16
  | .descriptor index => index
  | .signature _ index => index
  | .simpleName _ index => index

/-- The slot with another index in it. -/
def withIndex (new : UInt16) : Slot → Slot
  | .descriptor _ => .descriptor new
  | .signature kind _ => .signature kind new
  | .simpleName inner _ => .simpleName inner new

@[simp] theorem index_withIndex (new : UInt16) (s : Slot) : (s.withIndex new).index = new := by
  cases s <;> rfl

@[simp] theorem withIndex_index (s : Slot) : s.withIndex s.index = s := by cases s <;> rfl

variable (r : Renaming) (p : Pool)

/-- The new text of the slot, if it is to be changed. -/
def newText? : Slot → Option String
  | .descriptor index => (p.utf8 index).toOption.bind fun text => changed? (r.descriptor text) text
  | .signature kind index =>
    (p.utf8 index).toOption.bind fun text => changed? (r.signature kind text) text
  | .simpleName inner index =>
    if inner ≠ 0 && index ≠ 0 then
      (p.className inner).toOption.bind fun old =>
        (p.utf8 index).toOption.bind fun simple =>
          Walk.newSimpleName? old (r.className old) simple
    else none

/-- The index that the slot gets: that of the new text, if it is to be changed. -/
def renamed (s : Slot) : UInt16 :=
  match s.newText? r p with
  | some text => (p.index[Constant.utf8 text]?).getD s.index
  | none => s.index

/-- What the slot has to lead to. -/
def Resolves (p : Pool) : Slot → Prop
  | .descriptor index => ∃ text, p.utf8 index = .ok text ∧ Descriptor.closes text = true
  | .signature _ index => ∃ text, p.utf8 index = .ok text
  | .simpleName inner index => inner ≠ 0 → index ≠ 0 →
    ∃ old simple, p.className inner = .ok old ∧ p.utf8 index = .ok simple

/-- The new text is in the pool already, if there is one. -/
def Settled (s : Slot) : Prop :=
  ∀ text, s.newText? r p = some text → ∃ i, p.index[Constant.utf8 text]? = some i

variable {r p} {q : Pool} {s : Slot}

theorem newText?_grows (hs : s.Resolves p) (h : Pool.Grows p q) :
    s.newText? r q = s.newText? r p := by
  cases s with
  | descriptor index =>
    obtain ⟨text, htext, -⟩ := hs
    simp only [newText?, htext, h.utf8 htext]
  | signature kind index =>
    obtain ⟨text, htext⟩ := hs
    simp only [newText?, htext, h.utf8 htext]
  | simpleName inner index =>
    by_cases hne : inner ≠ 0 ∧ index ≠ 0
    · obtain ⟨old, simple, hold, hsimple⟩ := hs hne.1 hne.2
      simp only [newText?, hold, hsimple, h.className hold, h.utf8 hsimple]
    · have hfalse : (decide (inner ≠ 0) && decide (index ≠ 0)) = false := by simpa using hne
      simp only [newText?, hfalse, Bool.false_eq_true, if_false]

theorem Resolves.grows (hs : s.Resolves p) (h : Pool.Grows p q) : s.Resolves q := by
  cases s with
  | descriptor index =>
    obtain ⟨text, htext, hcloses⟩ := hs
    exact ⟨text, h.utf8 htext, hcloses⟩
  | signature kind index =>
    obtain ⟨text, htext⟩ := hs
    exact ⟨text, h.utf8 htext⟩
  | simpleName inner index =>
    intro hinner hindex
    obtain ⟨old, simple, hold, hsimple⟩ := hs hinner hindex
    exact ⟨old, simple, h.className hold, h.utf8 hsimple⟩

theorem Settled.learns (hset : s.Settled r p) (hs : s.Resolves p) (h : Pool.Learns p q) :
    s.Settled r q := by
  intro text htext
  rw [newText?_grows hs h.grows] at htext
  obtain ⟨i, hi⟩ := hset text htext
  exact ⟨i, h.known hi⟩

theorem renamed_learns (hset : s.Settled r p) (hs : s.Resolves p) (h : Pool.Learns p q) :
    s.renamed r q = s.renamed r p := by
  unfold renamed
  rw [newText?_grows hs h.grows]
  split
  case h_2 => rfl
  case h_1 text htext =>
    obtain ⟨i, hi⟩ := hset text htext
    rw [hi, h.known hi]

theorem renamed_of_none (h : s.newText? r p = none) : s.renamed r p = s.index := by
  simp only [renamed, h]

end Slot

namespace Piece

def bytes : Piece → List UInt8
  | .fixed bytes => bytes
  | .attributeName index _ => Word.bytes index
  | .slot s => Word.bytes s.index

/-- The piece with another index in it, if it is a slot. -/
def map (g : Slot → UInt16) : Piece → Piece
  | .slot s => .slot (s.withIndex (g s))
  | piece => piece

@[simp] theorem length_bytes_map (g : Slot → UInt16) (x : Piece) :
    (x.map g).bytes.length = x.bytes.length := by
  cases x <;> simp [map, bytes]

variable (r : Renaming) (p : Pool)

/-- The piece as a renaming leaves it. -/
def rename (x : Piece) : Piece := x.map (Slot.renamed r p)

/-- What the piece has to lead to. -/
def Resolves (p : Pool) : Piece → Prop
  | .fixed _ => True
  | .attributeName index name => p.utf8 index = .ok name
  | .slot s => s.Resolves p

/-- The name of an attribute is what its index leads to. -/
def Named (p : Pool) : Piece → Prop
  | .attributeName index name => p.utf8 index = .ok name
  | _ => True

def Settled : Piece → Prop
  | .slot s => s.Settled r p
  | _ => True

/-- A renaming leaves the piece as it is. -/
def IsKept : Piece → Prop
  | .slot s => s.newText? r p = none
  | _ => True

/-- The new text of the piece, if it is to be changed. -/
def newText? : Piece → Option String
  | .slot s => s.newText? r p
  | _ => none

variable {r p} {q : Pool} {x : Piece}

theorem Resolves.grows (hx : x.Resolves p) (h : Pool.Grows p q) : x.Resolves q := by
  cases x with
  | fixed => trivial
  | attributeName index name => exact h.utf8 hx
  | slot s => exact Slot.Resolves.grows hx h

theorem Resolves.named (hx : x.Resolves p) : x.Named p := by
  cases x with
  | attributeName index name => exact hx
  | fixed | slot => trivial

theorem Settled.learns (hset : x.Settled r p) (hx : x.Resolves p) (h : Pool.Learns p q) :
    x.Settled r q := by
  cases x with
  | slot s => exact Slot.Settled.learns hset hx h
  | fixed | attributeName => trivial

theorem rename_learns (hset : x.Settled r p) (hx : x.Resolves p) (h : Pool.Learns p q) :
    x.rename r q = x.rename r p := by
  cases x with
  | slot s => simp only [rename, map, Slot.renamed_learns hset hx h]
  | fixed | attributeName => rfl

theorem isKept_grows (hx : x.Resolves p) (h : Pool.Grows p q) :
    x.IsKept r q ↔ x.IsKept r p := by
  cases x with
  | slot s => rw [IsKept, IsKept, Slot.newText?_grows hx h]
  | fixed | attributeName => rfl

theorem newText?_grows (hx : x.Resolves p) (h : Pool.Grows p q) :
    x.newText? r q = x.newText? r p := by
  cases x with
  | slot s => exact Slot.newText?_grows hx h
  | fixed | attributeName => rfl

theorem IsKept.newText? (h : x.IsKept r p) : x.newText? r p = none := by
  cases x with
  | slot s => exact h
  | fixed | attributeName => rfl

theorem rename_of_isKept (h : x.IsKept r p) : x.rename r p = x := by
  cases x with
  | slot s => simp only [rename, map, Slot.renamed_of_none h, Slot.withIndex_index]
  | fixed | attributeName => rfl

theorem IsKept.settled (h : x.IsKept r p) : x.Settled r p := by
  cases x with
  | slot s =>
    intro text htext
    cases h.symm.trans htext
  | fixed | attributeName => trivial

end Piece

/-- The bytes of the pieces, one behind the other. -/
def encode (pieces : List Piece) : List UInt8 := pieces.flatMap Piece.bytes

@[simp] theorem encode_nil : encode [] = [] := rfl

@[simp] theorem encode_cons (x : Piece) (xs : List Piece) :
    encode (x :: xs) = x.bytes ++ encode xs := rfl

@[simp] theorem encode_append (xs ys : List Piece) :
    encode (xs ++ ys) = encode xs ++ encode ys := List.flatMap_append

/-- A signature that is skipped is taken as bytes that stay. -/
inductive Piece.TakenAs : Piece → Piece → Prop
  | self (x : Piece) : TakenAs x x
  | skipped (kind : SymbolKind) (i : UInt16) :
    TakenAs (.slot (.signature kind i)) (.fixed (Word.bytes i))

theorem takenAs_refl (xs : List Piece) : List.Forall₂ Piece.TakenAs xs xs :=
  List.forall₂_same.mpr fun x _ => .self x

theorem encode_of_takenAs {xs ys : List Piece} (h : List.Forall₂ Piece.TakenAs xs ys) :
    encode ys = encode xs := by
  induction h with
  | nil => rfl
  | cons hx _ ih =>
    rw [encode_cons, encode_cons, ih]
    cases hx <;> rfl

theorem length_encode_map (g : Slot → UInt16) (xs : List Piece) :
    (encode (xs.map (Piece.map g))).length = (encode xs).length := by
  induction xs with
  | nil => rfl
  | cons x xs ih => simp [ih]

/-! ## New texts -/

/-- The new texts of the pieces that are to be changed. -/
def newTexts (r : Renaming) (p : Pool) (xs : List Piece) : Finset String :=
  (xs.filterMap (Piece.newText? r p)).toFinset

section

variable {r : Renaming} {p q : Pool} {x : Piece} {xs ys : List Piece} {text : String}

@[simp] theorem newTexts_nil : newTexts r p [] = ∅ := rfl

theorem newTexts_append : newTexts r p (xs ++ ys) = newTexts r p xs ∪ newTexts r p ys := by
  rw [newTexts, List.filterMap_append, List.toFinset_append]
  rfl

theorem newTexts_mono (h : xs ⊆ ys) : newTexts r p xs ⊆ newTexts r p ys := by
  intro text htext
  obtain ⟨x, hx, hnew⟩ := List.mem_filterMap.mp (List.mem_toFinset.mp htext)
  exact List.mem_toFinset.mpr (List.mem_filterMap.mpr ⟨x, h hx, hnew⟩)

theorem newTexts_of_isKept (h : x.IsKept r p) : newTexts r p [x] = ∅ := by
  rw [newTexts, List.filterMap_cons_none h.newText?]
  rfl

theorem newTexts_of_newText? (h : x.newText? r p = some text) : newTexts r p [x] = {text} := by
  rw [newTexts, List.filterMap_cons_some h]
  rfl

theorem newTexts_grows (hxs : ∀ x ∈ xs, x.Resolves p) (h : Pool.Grows p q) :
    newTexts r q xs = newTexts r p xs :=
  congrArg List.toFinset (List.filterMap_congr fun x hx => Piece.newText?_grows (hxs x hx) h)

end

/-! ## Passing pieces -/

/-- The focus with the bytes passed. -/
def past (bytes rest : List UInt8) (f : Focus Tape) : Focus Tape :=
  { f with item := ⟨bytes.reverse ++ f.item.passed, rest⟩ }

/-- From `f` to `g` the pieces were passed, and are left as the renaming makes them. The pool has
gained the new texts that it was lacking. Where nothing is to be changed, nothing is changed and
nothing is counted. -/
structure Passed (r : Renaming) (xs : List Piece) (f g : Focus Tape) : Prop where
  ahead : f.item.ahead = encode xs ++ g.item.ahead
  passed : g.item.passed = (encode (xs.map (Piece.rename r g.pool))).reverse ++ f.item.passed
  learns : Pool.Learns f.pool g.pool
  resolves : ∀ x ∈ xs, x.Resolves g.pool
  settled : ∀ x ∈ xs, x.Settled r g.pool
  gains : Pool.Gains f.pool g.pool (newTexts r g.pool xs)
  quiet : (∀ x ∈ xs, x.IsKept r g.pool) → g.pool = f.pool ∧ g.tally = f.tally
  notices : ∀ n ∈ f.notices, n ∈ g.notices

namespace Passed

variable {r : Renaming} {xs ys : List Piece} {f g k : Focus Tape}

theorem nil (f : Focus Tape) : Passed r [] f f where
  ahead := rfl
  passed := rfl
  learns := refl_of _ _
  resolves _ hx := by cases hx
  settled _ hx := by cases hx
  gains := .refl f.pool
  quiet _ := ⟨rfl, rfl⟩
  notices _ := id

theorem append (h : Passed r xs f g) (h' : Passed r ys g k) : Passed r (xs ++ ys) f k where
  ahead := by rw [h.ahead, h'.ahead, encode_append, List.append_assoc]
  passed := by
    have hxs : xs.map (Piece.rename r k.pool) = xs.map (Piece.rename r g.pool) :=
      List.map_congr_left fun x hx =>
        Piece.rename_learns (h.settled x hx) (h.resolves x hx) h'.learns
    rw [h'.passed, h.passed, List.map_append, encode_append, List.reverse_append, hxs,
      List.append_assoc]
  learns := trans_of _ h.learns h'.learns
  resolves x hx := by
    rcases List.mem_append.mp hx with hx | hx
    · exact (h.resolves x hx).grows h'.learns.grows
    · exact h'.resolves x hx
  settled x hx := by
    rcases List.mem_append.mp hx with hx | hx
    · exact (h.settled x hx).learns (h.resolves x hx) h'.learns
    · exact h'.settled x hx
  gains := by
    rw [newTexts_append, newTexts_grows h.resolves h'.learns.grows]
    exact h.gains.trans h'.gains
  quiet hkept := by
    obtain ⟨hpool', htally'⟩ := h'.quiet fun x hx => hkept x (List.mem_append_right xs hx)
    obtain ⟨hpool, htally⟩ := h.quiet fun x hx =>
      hpool' ▸ hkept x (List.mem_append_left ys hx)
    exact ⟨hpool'.trans hpool, htally'.trans htally⟩
  notices n hn := h'.notices n (h.notices n hn)

theorem note (h : Passed r xs f g) (n : Notice) :
    Passed r xs f { g with notices := g.notices.push n } :=
  { h with notices := fun n' hn => Array.mem_push_of_mem n (h.notices n' hn) }

/-- A piece that is not to be changed is passed. -/
theorem kept {x : Piece} {rest : List UInt8} (hahead : f.item.ahead = x.bytes ++ rest)
    (hx : x.Resolves f.pool) (hkept : x.IsKept r f.pool) :
    Passed r [x] f (past x.bytes rest f) where
  ahead := by simp [hahead, past]
  passed := by
    have hsame : x.rename r f.pool = x := Piece.rename_of_isKept hkept
    simp [past, hsame]
  learns := refl_of _ _
  resolves y hy := by
    rw [List.mem_singleton.mp hy]
    exact hx
  settled y hy := by
    rw [List.mem_singleton.mp hy]
    exact hkept.settled
  gains := newTexts_of_isKept hkept ▸ .refl f.pool
  quiet _ := ⟨rfl, rfl⟩
  notices _ := id

theorem fixed {bytes rest : List UInt8} (hahead : f.item.ahead = bytes ++ rest) :
    Passed r [.fixed bytes] f (past bytes rest f) :=
  kept (x := .fixed bytes) hahead trivial trivial

/-- A slot that is to be changed gets the index of the new text. -/
theorem replaced {s : Slot} {rest : List UInt8} {text : String} {j : UInt16}
    (hahead : f.item.ahead = Word.bytes s.index ++ rest) (hs : s.Resolves f.pool)
    (htext : s.newText? r f.pool = some text)
    (hintern : Pool.internUtf8 text f.pool = .ok j g.pool)
    (hitem : g.item = ⟨(Word.bytes j).reverse ++ f.item.passed, rest⟩)
    (hnotices : g.notices = f.notices) : Passed r [.slot s] f g := by
  have hlearns : Pool.Learns f.pool g.pool := (Pool.within_intern_learns _).ok hintern
  have hknown : g.pool.index[Constant.utf8 text]? = some j := Pool.known_of_intern rfl hintern
  have htext' : s.newText? r g.pool = some text := by
    rw [Slot.newText?_grows hs hlearns.grows, htext]
  have hrenamed : s.renamed r g.pool = j := by simp only [Slot.renamed, htext', hknown, Option.getD]
  have htexts : newTexts r g.pool [.slot s] = {text} := newTexts_of_newText? htext'
  refine ⟨?_, ?_, hlearns, ?_, ?_, htexts ▸ Pool.gains_of_internUtf8 hintern, ?_, ?_⟩
  · simp [hahead, hitem, Piece.bytes]
  · simp [hitem, Piece.bytes, Piece.rename, Piece.map, hrenamed]
  · intro x hx
    rw [List.mem_singleton.mp hx]
    exact Slot.Resolves.grows hs hlearns.grows
  · intro x hx
    rw [List.mem_singleton.mp hx]
    intro text' h
    cases htext'.symm.trans h
    exact ⟨j, hknown⟩
  · intro hkept
    cases (hkept _ (List.mem_singleton_self _)).symm.trans htext'
  · rw [hnotices]
    exact fun _ => id

/-- A part that was walked over on its own is passed as a whole. -/
theorem within {part rest : List UInt8}
    (h : Passed r xs ⟨Tape.start part, f.pool, f.tally, f.notices⟩ g)
    (hend : g.item.ahead = []) (hahead : f.item.ahead = part ++ rest) :
    Passed r xs f { g with item := ⟨g.item.bytes.reverse ++ f.item.passed, rest⟩ } where
  ahead := by
    have hpart : part = encode xs ++ g.item.ahead := h.ahead
    rw [hahead, hpart, hend, List.append_nil]
  passed := by
    rw [Tape.bytes, h.passed, hend, List.reverseAux_eq]
    simp [Tape.start]
  learns := h.learns
  resolves := h.resolves
  settled := h.settled
  gains := h.gains
  quiet := h.quiet
  notices := h.notices

end Passed

end Relabel.Layout
