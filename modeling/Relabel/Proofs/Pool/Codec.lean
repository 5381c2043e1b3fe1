import Relabel.Pool.Codec
import Relabel.Proofs.Bytes.Reader
import Relabel.Proofs.Text.ModifiedUtf8

/-!
# Constants and pools are read exactly

Each constant has one stored form, ill-formed text included: such text is kept as its
bytes, and well-formed text has no second form. A pool is read constant by constant, and
the invariant of that loop is that the entries added so far are written as the bytes
consumed so far. The second slot of a wide constant is written as nothing.
-/

namespace Relabel

namespace Constant

theorem encode_ofTextBytes (bytes : List UInt8) :
    (ofTextBytes bytes).encode = encodeText bytes := by
  unfold ofTextBytes
  split
  case h_1 text ht => rw [encode, Text.ModifiedUtf8.encode_of_decode ht]
  case h_2 => rfl

theorem encodeText_of_length {bytes : List UInt8} {size : UInt16}
    (h : bytes.length = size.toNat) :
    encodeText bytes = .ok (1 :: Word.bytes size ++ bytes) := by
  have hlt : bytes.length < 65536 := h ▸ size.toNat_lt
  simp only [encodeText]
  rw [if_pos hlt, h, UInt16.ofNat_toNat]

variable {c c' : Cursor} {k : Constant}

/-- The operands are what a constant is written as behind its tag. -/
theorem readOperands_eq_ok {tag : UInt8} (h : readOperands tag c = .ok k c') :
    ∃ operands, k.encode = .ok (tag :: operands) ∧ c.rest = operands ++ c'.rest := by
  -- every branch fixes the tag, so that the tag written is the tag read
  have known {n : Nat} (hn : tag.toNat = n) : tag = UInt8.ofNat n := by
    rw [← hn, UInt8.ofNat_toNat]
  fun_cases readOperands tag with
  | case1 hn =>
    simp only [readOperands, hn, bind_eq_ok, pure_eq_ok] at h
    obtain ⟨size, c₁, hs, bytes, c₂, hb, rfl, rfl⟩ := h
    obtain ⟨hlen, hrest⟩ := Reader.take_eq_ok hb
    refine ⟨Word.bytes size ++ bytes, ?_, ?_⟩
    · rw [encode_ofTextBytes, encodeText_of_length hlen, known hn]
      rfl
    · rw [Reader.word_eq_ok hs, hrest, List.append_assoc]
  | case8 hn | case9 hn | case10 hn | case11 hn | case12 hn | case14 hn | case15 hn =>
    simp only [readOperands, hn, bind_eq_ok, pure_eq_ok] at h
    obtain ⟨x, c₁, hx, y, c₂, hy, rfl, rfl⟩ := h
    refine ⟨Word.bytes x ++ Word.bytes y, ?_, ?_⟩
    · rw [known hn]
      rfl
    · rw [Reader.word_eq_ok hx, Reader.word_eq_ok hy, List.append_assoc]
  | case18 =>
    rw [readOperands] at h
    simp [bind_eq_ok, throw_ne_ok] at h
  | case2 hn | case3 hn | case4 hn | case5 hn | case6 hn | case7 hn | case13 hn | case16 hn
  | case17 hn =>
    simp only [readOperands, hn, bind_eq_ok, pure_eq_ok] at h
    obtain ⟨x, c₁, hx, rfl, rfl⟩ := h
    refine ⟨Word.bytes x, ?_, Reader.word_eq_ok hx⟩
    rw [known hn]
    rfl

theorem exact_read : Reader.Exact read encode := by
  intro c k c' h
  obtain ⟨tag, c₁, ht, h⟩ := bind_eq_ok.mp h
  obtain ⟨operands, hk, hrest⟩ := readOperands_eq_ok h
  refine ⟨tag :: operands, hk, ?_⟩
  rw [Reader.word_eq_ok ht, hrest]
  simp [Word.bytes, bytesOf, Word.width, Word.toNat]

end Constant

namespace Pool

/-- The slots that a constant takes. -/
def slotsOf (c : Constant) : List Constant := if c.isWide then [c, .unusable] else [c]

theorem toList_append (p : Pool) (c : Constant) :
    (p.append c).entries.toList = p.entries.toList ++ slotsOf c := by
  obtain ⟨entries, index⟩ := p
  unfold append slotsOf
  by_cases hc : c.isWide <;> simp [hc]

theorem writes_slotsOf {c : Constant} {bytes : List UInt8} (h : c.encode = .ok bytes) :
    Writes Constant.encode (slotsOf c) bytes := by
  have hc : Writes Constant.encode [c] bytes := by simpa using Writes.nil.cons h
  unfold slotsOf
  split
  · simpa using hc.append (Writes.nil.cons (a := .unusable) rfl)
  · exact hc

variable {c c' : Cursor} {p q : Pool}

/-- Constants read behind the constant `k` are constants read behind the pool in front of it. -/
theorem added_behind {k : Constant} {left : Nat} {rest : List UInt8}
    (hk : Constant.read c = .ok k c')
    (h : ∃ added front, q.entries.toList = (p.append k).entries.toList ++ added ∧
      added.length = left ∧ Writes Constant.encode added front ∧ c'.rest = front ++ rest) :
    ∃ added front, q.entries.toList = p.entries.toList ++ added ∧
      added.length = (slotsOf k).length + left ∧ Writes Constant.encode added front ∧
      c.rest = front ++ rest := by
  obtain ⟨added, front, hq, rfl, hadded, hrest⟩ := h
  obtain ⟨first, hfirst, hc⟩ := Constant.exact_read hk
  refine ⟨slotsOf k ++ added, first ++ front, ?_, by simp,
    (writes_slotsOf hfirst).append hadded, ?_⟩
  · rw [hq, toList_append, List.append_assoc]
  · rw [hc, hrest, List.append_assoc]

/-- The entries added by reading are written as the bytes consumed. -/
theorem readFrom_eq_ok {left : Nat} (h : readFrom left p c = .ok q c') :
    ∃ added front, q.entries.toList = p.entries.toList ++ added ∧ added.length = left ∧
      Writes Constant.encode added front ∧ c.rest = front ++ c'.rest := by
  induction left using Nat.strongRecOn generalizing p c with
  | _ left ih =>
    match left with
    | 0 =>
      obtain ⟨rfl, rfl⟩ := pure_eq_ok.mp h
      exact ⟨[], [], by simp, rfl, .nil, rfl⟩
    | left + 1 =>
      rw [readFrom, bind_eq_ok] at h
      obtain ⟨k, c₁, hk, h⟩ := h
      by_cases hwide : k.isWide
      · rw [if_pos hwide] at h
        match left with
        | 0 => exact absurd h throw_ne_ok
        | left + 1 =>
          have hslots : (slotsOf k).length + left = left + 1 + 1 := by
            simp only [slotsOf, hwide, if_true, List.length_cons, List.length_nil]
            omega
          exact hslots ▸ added_behind hk (ih left (by omega) h)
      · have hslots : (slotsOf k).length + left = left + 1 := by
          simp [slotsOf, hwide, Nat.add_comm]
        rw [if_neg hwide] at h
        exact hslots ▸ added_behind hk (ih left (by omega) h)

/-- What holds of a pool and the slots that are left, and is kept when a constant that was read is
added, holds when no slots are left. -/
theorem readFrom_invariant {P : Nat → Pool → Prop}
    (happend : ∀ ⦃left p k a a'⦄, Constant.read a = .ok k a' → P (left + k.width) p →
      P left (p.append k))
    {left : Nat} (hp : P left p) (h : readFrom left p c = .ok q c') : P 0 q := by
  induction left using Nat.strongRecOn generalizing p c with
  | _ left ih =>
    cases left with
    | zero =>
      obtain ⟨rfl, rfl⟩ := pure_eq_ok.mp h
      exact hp
    | succ left =>
      rw [readFrom, bind_eq_ok] at h
      obtain ⟨k, c₁, hk, h⟩ := h
      split at h
      case isTrue hwide =>
        cases left with
        | zero => exact absurd h throw_ne_ok
        | succ left =>
          have hwidth : k.width = 2 := if_pos hwide
          exact ih left (by omega) (happend hk (hwidth ▸ hp)) h
      case isFalse hwide =>
        have hwidth : k.width = 1 := if_neg hwide
        exact ih left (by omega) (happend hk (hwidth ▸ hp)) h

theorem read_eq_ok (h : read c = .ok p c') :
    ∃ count : UInt16, ∃ c₁, Reader.word c = .ok count c₁ ∧ count ≠ 0 ∧
      readFrom (count.toNat - 1) empty c₁ = .ok p c' := by
  simp only [read] at h
  obtain ⟨count, c₁, hcount, h⟩ := bind_eq_ok.mp h
  split at h
  case isTrue => simp [bind_eq_ok, throw_ne_ok] at h
  case isFalse hpos => exact ⟨count, c₁, hcount, hpos, h⟩

/-- A pool that was read has as many slots as the stored count tells, slot 0 included. -/
theorem exact_read : Reader.Exact read encode := by
  intro c p c' h
  obtain ⟨count, c₁, hcount, hpos, h⟩ := read_eq_ok h
  obtain ⟨added, front, hp, hlen, ⟨chunks, hchunks, rfl⟩, hrest⟩ := readFrom_eq_ok h
  have hslots : p.slots = count.toNat := by
    have : 0 < count.toNat := Nat.pos_of_ne_zero (by simpa [← UInt16.toNat_inj] using hpos)
    rw [slots, ← Array.length_toList, hp, List.length_append, hlen]
    simp only [empty, List.length_cons, List.length_nil]
    omega
  have hwrite : p.entries.toList.mapM Constant.encode = .ok ([] :: chunks) := by
    rw [hp, List.mapM_append, hchunks]
    rfl
  refine ⟨Word.bytes count ++ chunks.flatten, ?_, ?_⟩
  · rw [encode, hwrite, Pool.count, hslots, UInt16.ofNat_toNat]
    rfl
  · rw [Reader.word_eq_ok hcount, hrest, List.append_assoc]

end Pool

end Relabel
