import Mathlib.Data.List.Forall2
import Relabel.Proofs.Pool.Expand

/-!
# Pools that are written are read back

A pool is written entry by entry, and the second slot of a wide constant is written as
nothing. So a pool is read back if it is laid out in rows, which are single constants and
wide constants with their second slots, and if ill-formed text in it is ill-formed in
fact. Pools that were read are laid out so, and stay so when they expand.
-/

namespace Relabel

namespace Constant

variable {c : Constant}

/-- Whether the constant can come out of reading: a slot of its own, and no text kept as bytes
that could have been decoded. -/
def isStored : Constant → Bool
  | .unusable => false
  | .rawUtf8 bytes => ofTextBytes bytes = .rawUtf8 bytes
  | _ => true

theorem isStored_ofTextBytes (bytes : List UInt8) : (ofTextBytes bytes).isStored = true := by
  cases h : Text.ModifiedUtf8.decode bytes with
  | ok text => simp [ofTextBytes, h, isStored]
  | error flaw => simp [ofTextBytes, h, isStored]

theorem isStored_of_readOperands {tag : UInt8} {a a' : Cursor}
    (h : readOperands tag a = .ok c a') : c.isStored = true := by
  fun_cases readOperands tag with
  | case1 hn =>
    simp only [readOperands, hn, bind_eq_ok, pure_eq_ok] at h
    obtain ⟨_, _, -, bytes, _, -, rfl, -⟩ := h
    exact isStored_ofTextBytes bytes
  | case18 =>
    rw [readOperands] at h
    simp [bind_eq_ok, throw_ne_ok] at h
  | case8 hn | case9 hn | case10 hn | case11 hn | case12 hn | case14 hn | case15 hn =>
    simp only [readOperands, hn, bind_eq_ok, pure_eq_ok] at h
    obtain ⟨_, _, -, _, _, -, rfl, -⟩ := h
    rfl
  | case2 hn | case3 hn | case4 hn | case5 hn | case6 hn | case7 hn | case13 hn | case16 hn
  | case17 hn =>
    simp only [readOperands, hn, bind_eq_ok, pure_eq_ok] at h
    obtain ⟨_, _, -, rfl, -⟩ := h
    rfl

theorem isStored_of_read {a a' : Cursor} (h : read a = .ok c a') : c.isStored = true := by
  obtain ⟨tag, a₁, -, h⟩ := bind_eq_ok.mp h
  exact isStored_of_readOperands h

theorem isStored_of_fixed {d : Constant} (h : d.fixed = c.fixed) (hc : c.isStored = true) :
    d.isStored = true := by
  have hfixed (c : Constant) : c.fixed.isStored = c.isStored := by cases c <;> rfl
  rw [← hfixed, h, hfixed, hc]

theorem isStored_of_isText (h : c.isText = true) : c.isStored = true := by
  cases c <;> first | rfl | cases h

/-! ## Reading a constant back -/

theorem encodeText_eq_ok {bytes front : List UInt8} (h : encodeText bytes = .ok front) :
    bytes.length < 65536 ∧ front = 1 :: Word.bytes (UInt16.ofNat bytes.length) ++ bytes := by
  simp only [encodeText] at h
  split at h
  case isTrue hlen =>
    cases h
    exact ⟨hlen, rfl⟩
  case isFalse => cases h

/-- A tag byte in front of the operands. -/
theorem reads_of_operands {tag : UInt8} {operands : List UInt8}
    (h : Reader.Reads (readOperands tag) c operands) : Reader.Reads read c (tag :: operands) := by
  have hbytes : Word.bytes tag = [tag] := by
    simp [Word.bytes, bytesOf, Word.width, Word.toNat]
  have hread := (Reader.reads_word tag).bind h
  rwa [hbytes] at hread

theorem reads_text {bytes front : List UInt8} (h : encodeText bytes = .ok front) :
    Reader.Reads read (ofTextBytes bytes) front := by
  obtain ⟨hlen, rfl⟩ := encodeText_eq_ok h
  have hsize : (UInt16.ofNat bytes.length).toNat = bytes.length := UInt16.toNat_ofNat_of_lt' hlen
  refine reads_of_operands ((Reader.reads_word _).bind ?_)
  exact (Reader.reads_take hsize.symm).map ofTextBytes

section

variable {α β : Type} [Word α] [Word β] {tag : UInt8}

theorem reads_one {build : α → Constant} (h : readOperands tag = (do return build (← Reader.word)))
    (x : α) : Reader.Reads read (build x) (tag :: Word.bytes x) :=
  reads_of_operands (h ▸ (Reader.reads_word x).map build)

theorem reads_two {build : α → β → Constant}
    (h : readOperands tag = (do return build (← Reader.word) (← Reader.word))) (x : α) (y : β) :
    Reader.Reads read (build x y) (tag :: (Word.bytes x ++ Word.bytes y)) :=
  reads_of_operands (h ▸ (Reader.reads_word x).bind ((Reader.reads_word y).map (build x)))

end

/-- A constant that is written is read back. -/
theorem reads_of_encode (hc : c.isStored = true) {bytes : List UInt8} (h : c.encode = .ok bytes) :
    Reader.Reads read c bytes := by
  cases c with
  | unusable => cases hc
  | utf8 text =>
    have hread := reads_text h
    rwa [ofTextBytes, Text.ModifiedUtf8.decode_encode] at hread
  | rawUtf8 raw =>
    have hread := reads_text h
    rwa [of_decide_eq_true hc] at hread
  | memberRef kind owner member =>
    cases h
    cases kind <;> exact reads_two rfl owner member
  | nameAndType x y | methodHandle x y | dynamic x y | invokeDynamic x y =>
    cases h
    exact reads_two rfl x y
  | integer x | float x | long x | double x | classRef x | string x | methodType x | module x
  | package x =>
    cases h
    exact reads_one rfl x

end Constant

/-! ## Rows -/

namespace Pool

/-- Slots that are laid out in rows: each constant is followed by its second slot, if it takes
one. -/
inductive Rows : List Constant → Prop
  | nil : Rows []
  | cons {c : Constant} {rest : List Constant} (stored : c.isStored = true) (rows : Rows rest) :
      Rows (slotsOf c ++ rest)

variable {p q : Pool} {xs ys : List Constant} {bytes : List UInt8}

theorem Rows.append (h : Rows xs) (h' : Rows ys) : Rows (xs ++ ys) := by
  induction h with
  | nil => exact h'
  | cons stored _ ih => exact List.append_assoc .. ▸ .cons stored ih

/-- A sound pool is laid out in rows behind slot 0. -/
def InRows (p : Pool) : Prop := ∃ rows, p.entries.toList = .unusable :: rows ∧ Rows rows

theorem inRows_empty : empty.InRows := ⟨[], rfl, .nil⟩

theorem InRows.append {c : Constant} (hp : p.InRows) (hc : c.isStored = true) :
    (p.append c).InRows := by
  obtain ⟨rows, hp, hrows⟩ := hp
  refine ⟨rows ++ slotsOf c, by rw [toList_append, hp]; rfl, hrows.append ?_⟩
  simpa using Rows.cons hc .nil

theorem inRows_of_read {a a' : Cursor} (h : read a = .ok p a') : p.InRows := by
  obtain ⟨_, _, -, -, h⟩ := read_eq_ok h
  refine readFrom_invariant (P := fun _ p => p.InRows) ?_ inRows_empty h
  intro _ p c _ _ hc hp
  exact hp.append (Constant.isStored_of_read hc)

/-! ## Rows of expanding pools -/

theorem Rows.of_fixed (h : Rows xs) (hys : List.Forall₂ (fun c d => d.fixed = c.fixed) xs ys) :
    Rows ys := by
  induction h generalizing ys with
  | nil =>
    cases hys
    exact .nil
  | @cons c rest stored _ ih =>
    by_cases hwide : c.isWide
    · rw [slotsOf, if_pos hwide] at hys
      obtain _ | ⟨hd, _ | ⟨he, hys⟩⟩ := hys
      have hrow := Rows.cons (Constant.isStored_of_fixed hd stored) (ih hys)
      rw [slotsOf, if_pos (Constant.isWide_of_fixed hd ▸ hwide)] at hrow
      rwa [(Constant.eq_unusable_of_fixed he).mpr rfl]
    · rw [slotsOf, if_neg hwide] at hys
      obtain _ | ⟨hd, hys⟩ := hys
      have hrow := Rows.cons (Constant.isStored_of_fixed hd stored) (ih hys)
      rwa [slotsOf, if_neg (Constant.isWide_of_fixed hd ▸ hwide)] at hrow

theorem rows_of_isText (h : ∀ c ∈ xs, c.isText = true) : Rows xs := by
  induction xs with
  | nil => exact .nil
  | cons c xs ih =>
    obtain ⟨hc, hxs⟩ := List.forall_mem_cons.mp h
    have hrow := Rows.cons (Constant.isStored_of_isText hc) (ih hxs)
    rwa [slotsOf, if_neg (by simp [Constant.isWide_of_isText hc])] at hrow

theorem Expands.slots_le (h : Expands p q) : p.slots ≤ q.slots := by
  cases hslots : p.slots with
  | zero => exact Nat.zero_le _
  | succ n =>
    have hn : n < p.entries.size := by
      have : p.entries.size = n + 1 := hslots
      omega
    obtain ⟨_, hq, -⟩ := h.kept (Array.getElem?_eq_getElem hn)
    exact (Array.getElem?_eq_some_iff.mp hq).1

/-- The slots that were there keep their kinds, and those behind them are texts. -/
theorem Expands.toList_eq (h : Expands p q) (hp : p.Complete) :
    ∃ old new, q.entries.toList = old ++ new ∧
      List.Forall₂ (fun c d => d.fixed = c.fixed) p.entries.toList old ∧
      ∀ c ∈ new, c.isText = true := by
  have hle : p.entries.toList.length ≤ q.entries.toList.length := h.slots_le
  refine ⟨q.entries.toList.take p.slots, q.entries.toList.drop p.slots,
    (List.take_append_drop _ _).symm, ?_, ?_⟩
  · rw [List.forall₂_iff_get]
    refine ⟨by rw [List.length_take]; exact (Nat.min_eq_left hle).symm, ?_⟩
    intro n hn hn'
    obtain ⟨d, hd, hfixed⟩ := h.kept (Array.getElem?_eq_getElem hn)
    have hget : (q.entries.toList.take p.slots)[n] = d := by
      rw [List.getElem_take]
      exact (Array.getElem?_eq_some_iff.mp hd).2
    simpa [hget] using hfixed
  · intro c hc
    obtain ⟨n, hn⟩ := List.mem_iff_getElem?.mp hc
    rw [List.getElem?_drop, Array.getElem?_toList] at hn
    exact (h.added hp (Nat.le_add_right _ _) hn).1

theorem InRows.expands (hp : p.InRows) (hcomplete : p.Complete) (h : Expands p q) : q.InRows := by
  obtain ⟨rows, hentries, hrows⟩ := hp
  obtain ⟨old, new, hq, hold, hnew⟩ := h.toList_eq hcomplete
  rw [hentries] at hold
  obtain _ | ⟨horigin, hold⟩ := hold
  refine ⟨_, ?_, (hrows.of_fixed hold).append (rows_of_isText hnew)⟩
  rw [hq, (Constant.eq_unusable_of_fixed horigin).mpr rfl]
  rfl

/-! ## Reading a pool back -/

theorem writes_of_slotsOf {c : Constant} (h : Writes Constant.encode (slotsOf c ++ xs) bytes) :
    ∃ first rest, c.encode = .ok first ∧ Writes Constant.encode xs rest ∧
      bytes = first ++ rest := by
  unfold slotsOf at h
  split at h
  case isFalse => exact h.of_cons
  case isTrue =>
    obtain ⟨first, rest, hfirst, hrest, rfl⟩ := h.of_cons
    obtain ⟨second, rest, ⟨⟩, hrest, rfl⟩ := hrest.of_cons
    exact ⟨first, rest, hfirst, hrest, rfl⟩

/-- Rows behind a pool are read one after the other, and what is left of the slots after them. -/
theorem readFrom_rows (hrows : Rows xs) (h : Writes Constant.encode xs bytes) (p : Pool) :
    ∃ q, q.entries.toList = p.entries.toList ++ xs ∧ ∀ left position rest,
      readFrom (xs.length + left) p ⟨position, bytes ++ rest⟩
        = readFrom left q ⟨position + bytes.length, rest⟩ := by
  induction hrows generalizing p bytes with
  | nil =>
    obtain ⟨_, ⟨⟩, rfl⟩ := h
    exact ⟨p, by simp, by simp⟩
  | @cons c more stored _ ih =>
    obtain ⟨first, back, hfirst, hback, rfl⟩ := writes_of_slotsOf h
    obtain ⟨q, hq, hread⟩ := ih hback (p.append c)
    refine ⟨q, by rw [hq, toList_append, List.append_assoc], fun left position rest => ?_⟩
    have hc := Constant.reads_of_encode stored hfirst position (back ++ rest)
    rw [List.append_assoc]
    refine Eq.trans ?_ ((hread left _ rest).trans (by rw [List.length_append, Nat.add_assoc]))
    by_cases hwide : c.isWide
    · have hlen : (slotsOf c ++ more).length + left = more.length + left + 1 + 1 := by
        simp [slotsOf, hwide]
        omega
      rw [hlen, readFrom]
      exact (bind_of_ok hc).trans (by rw [if_pos hwide])
    · have hlen : (slotsOf c ++ more).length + left = more.length + left + 1 := by
        simp [slotsOf, hwide]
        omega
      rw [hlen, readFrom]
      exact (bind_of_ok hc).trans (by rw [if_neg hwide])

theorem reads_rows (hrows : Rows xs) (h : Writes Constant.encode xs bytes) (p : Pool) :
    ∃ q, q.entries.toList = p.entries.toList ++ xs ∧
      Reader.Reads (readFrom xs.length p) q bytes := by
  obtain ⟨q, hq, hread⟩ := readFrom_rows hrows h p
  exact ⟨q, hq, hread 0⟩

theorem encode_congr (h : q.entries = p.entries) : q.encode = p.encode := by
  simp only [encode, count, slots, h]

/-- A sound pool is written as the number of its slots and the constants behind slot 0, and is read
back constant by constant. -/
theorem read_encode (hp : p.Sound) (hxs : p.entries.toList = .unusable :: xs)
    (h : p.encode = .ok bytes) : ∃ front, Writes Constant.encode xs front ∧
      ∀ position rest, ∃ offset, offset + front.length = position + bytes.length ∧
        read ⟨position, bytes ++ rest⟩ = readFrom xs.length empty ⟨offset, front ++ rest⟩ := by
  have hslots : p.slots = xs.length + 1 := by
    rw [slots, ← Array.length_toList, hxs, List.length_cons]
  have hcount : p.count.toNat = xs.length + 1 := by
    have hle : p.slots < 65536 := Nat.lt_succ_of_le hp.slots_le
    rw [count, UInt16.toNat_ofNat_of_lt' hle, hslots]
  have hpos : p.count ≠ 0 := by
    intro hzero
    rw [hzero] at hcount
    cases hcount
  simp only [encode, except_bind_eq_ok, except_pure_eq_ok] at h
  obtain ⟨chunks, hchunks, rfl⟩ := h
  rw [hxs] at hchunks
  have hwrites : Writes Constant.encode (.unusable :: xs) chunks.flatten := ⟨chunks, hchunks, rfl⟩
  obtain ⟨origin, front, ⟨⟩, hfront, hflat⟩ := hwrites.of_cons
  rw [hflat, List.nil_append]
  refine ⟨front, hfront, fun position rest => ⟨position + (Word.bytes p.count).length, ?_, ?_⟩⟩
  · rw [List.length_append, Nat.add_assoc]
  · rw [read, List.append_assoc, bind_of_ok (Reader.reads_word p.count position (front ++ rest)),
      if_neg hpos, hcount]
    rfl

/-- A sound pool in rows that is written is read back, up to what its index knows. -/
theorem reads_of_encode (hp : p.Sound) (hrows : p.InRows) (h : p.encode = .ok bytes) :
    ∃ q, q.entries = p.entries ∧ Reader.Reads read q bytes := by
  obtain ⟨rows, hentries, hrows⟩ := hrows
  obtain ⟨front, hfront, hread⟩ := read_encode hp hentries h
  obtain ⟨q, hq, hrest⟩ := reads_rows hrows hfront empty
  refine ⟨q, Array.toList_inj.mp (by rw [hq, hentries]; rfl), fun position rest => ?_⟩
  obtain ⟨offset, hoffset, hread⟩ := hread position rest
  rw [hread, hrest, hoffset]

end Pool

end Relabel
