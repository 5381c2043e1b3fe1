import Relabel.Proofs.Bytes.Extent
import Relabel.Proofs.ClassFile.RoundTrip

/-!
# Where a class file ends

No class file is a start of another one. The readers of constants, pools, members and
attributes are delimited, and so is the reader of the whole layout: a class file that is
cut short anywhere is out of bounds, and bytes behind it are told apart from it and
counted.
-/

namespace Relabel

open Reader

namespace Constant

theorem delimited_readOperands (tag : UInt8) : Delimited (readOperands tag) := by
  fun_cases readOperands tag with
  | case1 => exact delimited_word.bind fun size => (delimited_take size.toNat).map ofTextBytes
  | case8 | case9 | case10 | case11 | case12 | case14 | case15 =>
    exact delimited_word.bind fun x => delimited_word.map _
  | case18 =>
    refine delimited_of_ne_ok fun c k c' h => ?_
    simp [bind_eq_ok, throw_ne_ok] at h
  | case2 | case3 | case4 | case5 | case6 | case7 | case13 | case16 | case17 =>
    exact delimited_word.map _

theorem delimited_read : Delimited read :=
  delimited_word.bind delimited_readOperands

end Constant

namespace Pool

/-- The loop over the slots ends with the constant that takes the last of them. -/
theorem delimited_readFrom (left : Nat) (p : Pool) : Delimited (readFrom left p) := by
  induction left using Nat.strongRecOn generalizing p with
  | _ left ih =>
    cases left with
    | zero => exact delimited_pure p
    | succ left =>
      rw [readFrom]
      refine Constant.delimited_read.bind fun c => Delimited.ite ?_ (ih left (by omega) _)
      cases left with
      | zero => exact delimited_throw _
      | succ left => exact ih left (by omega) (p.append c)

theorem delimited_read : Delimited read := by
  refine delimited_word.bind fun count => Delimited.ite ?_ ?_
  · exact delimited_throw_bind _ _
  · exact delimited_readFrom (count.toNat - 1) empty

end Pool

theorem Attribute.delimited_read : Delimited Attribute.read :=
  delimited_word.bind fun name => delimited_word.bind fun size =>
    (delimited_take size.toNat).map fun payload => Attribute.mk name payload

theorem Attribute.delimited_readList : Delimited Attribute.readList :=
  Attribute.delimited_read.counted.map List.toArray

theorem Member.delimited_read : Delimited Member.read :=
  delimited_word.bind fun access => delimited_word.bind fun name =>
    delimited_word.bind fun descriptor =>
      Attribute.delimited_readList.map fun attributes =>
        Member.mk access name descriptor attributes

theorem Member.delimited_readList : Delimited Member.readList :=
  Member.delimited_read.counted.map List.toArray

namespace ClassFile

theorem delimited_readHeader : Delimited readHeader := by
  refine delimited_word.bind fun found => Delimited.ite ?_ ?_
  · exact delimited_throw_bind _ _
  · exact delimited_word.bind fun minor => delimited_word.map fun major => (minor, major)

theorem delimited_readLayout : Delimited readLayout := by
  refine delimited_readHeader.bind fun versions => Pool.delimited_read.bind fun pool => ?_
  refine delimited_word.bind fun access => delimited_word.bind fun thisClass => ?_
  refine delimited_word.bind fun superClass => delimited_word.counted.bind fun interfaces => ?_
  refine Member.delimited_readList.bind fun fields => ?_
  refine Member.delimited_readList.bind fun methods => ?_
  exact Attribute.delimited_readList.map _

variable {f : ClassFile} {data : List UInt8}

/-- The layout of a class file that decodes takes all of its bytes. -/
theorem consumes_of_decode (h : decode data = .ok f) : Consumes readLayout f data := by
  obtain ⟨-, c, hread, hend⟩ := decode_eq_ok h
  obtain ⟨bytes, hbytes, hconsumes⟩ := delimited_readLayout hread
  have hdata : data = bytes := by simpa [hend, Cursor.start] using hbytes
  rwa [hdata]

theorem decode_of_layout_error {fault : Fault} {c : Cursor}
    (h : readLayout (Cursor.start data) = .error fault c) : decode data = .error fault := by
  simp only [decode, Reader.run, read]
  rw [bind_of_error h]

theorem decode_of_rest {c : Cursor} (h : readLayout (Cursor.start data) = .ok f c)
    (hrest : c.rest ≠ []) :
    decode data = .error (.malformed (.trailingBytes c.rest.length)) := by
  have hne : c.remaining ≠ 0 := by simpa [Cursor.remaining] using hrest
  have hget : (get : Reader Cursor) c = .ok c c := rfl
  simp only [decode, Reader.run, read]
  rw [bind_of_ok h, bind_of_ok hget, if_pos hne]
  rfl

/-- A class file that is cut short is out of bounds wherever the cut is, and bytes behind it are
counted. -/
theorem decode_prefix_free (h : decode data = .ok f) :
    (∀ front, front <+: data → front ≠ data → decode front = .error .outOfBounds) ∧
      ∀ extra, extra ≠ [] →
        decode (data ++ extra) = .error (.malformed (.trailingBytes extra.length)) := by
  have hconsumes := consumes_of_decode h
  constructor
  · intro front hstart hne
    obtain ⟨c, hc⟩ := hconsumes.short 0 front hstart hne
    exact decode_of_layout_error hc
  · intro extra hextra
    exact decode_of_rest (hconsumes.reads 0 extra) hextra

/-- The odd class file, cut inside its pool and inside its last payload, and with two bytes behind
it. -/
theorem decode_prefix_free_oddFile : ∃ f, decode oddFile = .ok f ∧
    decode (oddFile.take 20) = .error .outOfBounds ∧
    decode oddFile.dropLast = .error .outOfBounds ∧
    decode (oddFile ++ [0xCA, 0xFE]) = .error (.malformed (.trailingBytes 2)) := by
  have hok : (decode oddFile).isOk = true := by decide +kernel
  cases hf : decode oddFile with
  | error fault =>
    rw [hf] at hok
    cases hok
  | ok f =>
    obtain ⟨hcut, hextra⟩ := decode_prefix_free hf
    exact ⟨f, rfl, hcut _ (List.take_prefix 20 oddFile) (by decide),
      hcut _ (List.dropLast_prefix oddFile) (by decide), hextra [0xCA, 0xFE] (by decide)⟩

end ClassFile

end Relabel
