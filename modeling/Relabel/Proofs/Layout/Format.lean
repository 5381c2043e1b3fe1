import Relabel.Proofs.Layout.Slot

/-!
# Formats

A format lays out the values of a type as pieces. A walk follows a format if it passes
what is laid out in it, and passes nothing else. Formats of lists and of parts with a
size are followed if the formats of their items are.
-/

namespace Relabel.Layout

structure Format (α : Type) where
  pieces : α → List Piece
  /-- The value with other indices in its slots. -/
  map : (Slot → UInt16) → α → α
  /-- All counts and sizes in the value can be stored. -/
  Fits : α → Prop
  pieces_map : ∀ g a, pieces (map g a) = (pieces a).map (Piece.map g)
  fits_map : ∀ g ⦃a⦄, Fits a → Fits (map g a)

/-- The walk passes what is laid out in the format, and nothing else. -/
structure Follows (r : Renaming) (w : Walk) {α : Type} (F : Format α) : Prop where
  passes : ∀ ⦃a⦄, F.Fits a → Passes r w (F.pieces a)
  parses : Parses r w fun xs => ∃ a, F.Fits a ∧ xs = F.pieces a

variable {α β : Type} {r : Renaming} {w : Walk} {F : Format α}

namespace Format

/-- Nothing is laid out. -/
def empty : Format Empty where
  pieces := nofun
  map _ := nofun
  Fits := nofun
  pieces_map _ := nofun
  fits_map _ := nofun

/-- A count and then the items. -/
def countedBy (β : Type) [Word β] (F : Format α) : Format (List α) where
  pieces as := .fixed (Word.bytes (Word.ofNat as.length : β)) :: as.flatMap F.pieces
  map g as := as.map (F.map g)
  Fits as := as.length < capacity (Word.width β) ∧ ∀ a ∈ as, F.Fits a
  pieces_map g as := by
    simp [Piece.map, List.map_flatMap, List.flatMap_map, F.pieces_map]
  fits_map g as h := by
    refine ⟨by simpa using h.1, ?_⟩
    intro b hb
    obtain ⟨a, ha, rfl⟩ := List.mem_map.mp hb
    exact F.fits_map g (h.2 a ha)

abbrev counted (F : Format α) : Format (List α) := F.countedBy UInt16

/-- A word that stays and then a value. -/
def behindWord (F : Format α) : Format (UInt16 × α) where
  pieces a := .fixed (Word.bytes a.1) :: F.pieces a.2
  map g a := (a.1, F.map g a.2)
  Fits a := F.Fits a.2
  pieces_map g a := by simp [Piece.map, F.pieces_map]
  fits_map g _ h := F.fits_map g h

/-- A value and then bytes that are not looked at. -/
def trailed (F : Format α) : Format (α × List UInt8) where
  pieces a := F.pieces a.1 ++ [.fixed a.2]
  map g a := (F.map g a.1, a.2)
  Fits a := F.Fits a.1
  pieces_map g a := by simp [Piece.map, F.pieces_map]
  fits_map g _ h := F.fits_map g h

end Format

namespace Follows

theorem empty : Follows r Walk.tooDeep Format.empty where
  passes := nofun
  parses _ _ h := nomatch h

/-! The induction is on the items that are left, as the recursion of the walk is. -/

theorem passes_times (h : Follows r w F) (as : List α) (has : ∀ a ∈ as, F.Fits a) :
    Passes r (Edit.times as.length w) (as.flatMap F.pieces) := by
  induction as with
  | nil => exact passes_pure
  | cons a as ih =>
    rw [List.flatMap_cons]
    exact (h.passes (has a List.mem_cons_self)).bind
      (ih fun b hb => has b (List.mem_cons_of_mem a hb))

theorem parses_times (h : Follows r w F) (n : Nat) : Parses r (Edit.times n w) fun xs =>
    ∃ as : List α, as.length = n ∧ (∀ a ∈ as, F.Fits a) ∧ xs = as.flatMap F.pieces := by
  induction n with
  | zero => exact parses_pure.mono fun xs hxs => ⟨[], rfl, by simp, hxs⟩
  | succ n ih =>
    refine (h.parses.bind ih).mono ?_
    rintro _ ⟨_, _, ⟨a, ha, rfl⟩, ⟨as, hlen, has, rfl⟩, rfl⟩
    refine ⟨a :: as, by simp [hlen], ?_, by simp⟩
    exact List.forall_mem_cons.mpr ⟨ha, has⟩

theorem countedBy [Word β] (h : Follows r w F) :
    Follows r (do let n : β ← Walk.word; Edit.times (Word.toNat n) w) (F.countedBy β) where
  passes as has := by
    refine passes_word_bind _ ?_
    rw [Word.toNat_ofNat _ has.1]
    exact h.passes_times as has.2
  parses := by
    refine (parses_word_bind fun n : β => h.parses_times (Word.toNat n)).mono ?_
    rintro _ ⟨n, _, ⟨as, hlen, has, rfl⟩, rfl⟩
    have hn : n = Word.ofNat as.length := by rw [hlen, Word.ofNat_toNat]
    exact ⟨as, ⟨hlen ▸ Word.toNat_lt n, has⟩, by rw [hn]; rfl⟩

theorem counted (h : Follows r w F) : Follows r (Walk.counted w) F.counted := h.countedBy

theorem behindWord (h : Follows r w F) :
    Follows r (do Walk.skip 2; w) F.behindWord where
  passes a ha := (passes_skip (Word.length_bytes a.1)).bind (h.passes ha)
  parses := by
    refine ((parses_skip 2).bind h.parses).mono ?_
    rintro _ ⟨_, _, ⟨bytes, hlen, rfl⟩, ⟨a, ha, rfl⟩, rfl⟩
    obtain ⟨x, rfl⟩ := exists_word (α := UInt16) hlen
    exact ⟨(x, a), ha, rfl⟩

end Follows

/-! ## Parts -/

/-- Walk over a part, and pass what is left of it. -/
def toEnd (w : Walk) : Walk := do
  w
  Walk.skip (← Edit.item).ahead.length

/-- The walk follows the format if nothing else stands ahead. -/
structure Fills (r : Renaming) (w : Walk) {α : Type} (F : Format α) : Prop where
  ends : ∀ ⦃a f⦄, F.Fits a → f.item.ahead = encode (F.pieces a) →
    (∀ x ∈ F.pieces a, x.Resolves f.pool) → Ends r (toEnd w) (F.pieces a) f
  parses : Parses r (toEnd w) fun xs => ∃ a, F.Fits a ∧ xs = F.pieces a

theorem toEnd_of_ok {f f' : Focus Tape} (h : w f = .ok () f') :
    toEnd w f = .ok () (past f'.item.ahead [] f') := by
  have hskip : Walk.skip f'.item.ahead.length f' = .ok () (past f'.item.ahead [] f') :=
    skip_of_ahead (List.append_nil _).symm rfl
  rw [toEnd, bind_of_ok h, ← hskip]
  rfl

theorem toEnd_eq_ok {f g : Focus Tape} (h : toEnd w f = .ok () g) :
    ∃ f', w f = .ok () f' ∧ g = past f'.item.ahead [] f' := by
  obtain ⟨⟨⟩, f', hw, -⟩ := bind_eq_ok.mp h
  exact ⟨f', hw, (EStateM.Result.ok.inj (h.symm.trans (toEnd_of_ok hw))).2⟩

theorem overflows_toEnd {f : Focus Tape} (h : Overflows (toEnd w) f) : Overflows w f := by
  obtain ⟨n, f', herror⟩ := h
  cases hw : w f with
  | error fault g =>
    cases herror.symm.trans (bind_of_error hw)
    exact ⟨n, f', hw⟩
  | ok u g => cases herror.symm.trans (toEnd_of_ok hw)

/-- Behind the pieces, what is left is passed. -/
theorem Ends.toEnd {xs : List Piece} {f : Focus Tape} {trailing : List UInt8} (h : Ends r w xs f)
    (hahead : f.item.ahead = encode xs ++ trailing) (hxs : ∀ x ∈ xs, x.Resolves f.pool) :
    Ends r (toEnd w) (xs ++ [.fixed trailing]) f := by
  refine h.bind (fun f' hpassed => ?_) hxs ?_
  · have hrest : f'.item.ahead = trailing ++ [] := by
      rw [hpassed.ahead_eq hahead, List.append_nil]
    have hskip := skip_of_ahead hrest rfl
    refine .inl ⟨_, ?_, .fixed hrest⟩
    rw [← hskip, ← List.append_nil trailing, ← hrest]
    rfl
  · intro x hx
    rw [List.mem_singleton.mp hx]
    trivial

theorem Follows.fills (h : Follows r w F) : Fills r w F.trailed where
  ends a f ha hahead hresolves := by
    have hahead : f.item.ahead = encode (F.pieces a.1) ++ a.2 := by
      simpa [Format.trailed, Piece.bytes] using hahead
    have hfront : ∀ x ∈ F.pieces a.1, x.Resolves f.pool :=
      fun x hx => hresolves x (List.mem_append_left _ hx)
    exact (h.passes ha hahead hfront).toEnd hahead hfront
  parses := by
    intro f g hrun
    obtain ⟨f', hw, rfl⟩ := toEnd_eq_ok hrun
    obtain ⟨_, ys, ⟨a, ha, rfl⟩, htaken, hpassed, hall⟩ := h.parses hw
    refine ⟨_, ys ++ [.fixed f'.item.ahead], ⟨(a, f'.item.ahead), ha, rfl⟩,
      List.rel_append htaken (takenAs_refl _), hpassed.append ?_, fun hnotices => ?_⟩
    · exact .fixed (List.append_nil _).symm
    · rw [hall hnotices]
      rfl

end Relabel.Layout
