import Relabel.ClassFile.Codec
import Relabel.Proofs.Pool.Codec

/-!
# Class files are read exactly

Every part of a class file is read exactly, so a class file that decodes is encoded as
the bytes that it was decoded from. Nothing is normalised on the way: unknown access
bits, ill-formed text and payloads of any content come back as they were.
-/

namespace Relabel

theorem encodeCount_of_lt {what : Counted} {n : Nat} (h : n < 65536) :
    encodeCount what n = .ok (Word.bytes (UInt16.ofNat n)) := if_pos h

/-- A list behind its length is what a counted read consumes. -/
theorem encode_items {α : Type} {write : α → Except Fault (List UInt8)} {items : List α}
    {what : Counted} {bytes : List UInt8} (hlen : items.length < 65536)
    (h : Writes write items bytes) :
    (do
      let count ← encodeCount what items.length
      let chunks ← items.mapM write
      return count ++ chunks.flatten : Except Fault (List UInt8))
      = .ok (Word.bytes (UInt16.ofNat items.length) ++ bytes) := by
  obtain ⟨chunks, hchunks, rfl⟩ := h
  rw [encodeCount_of_lt hlen, hchunks]
  rfl

namespace Attribute

theorem exact_read : Reader.Exact read encode := by
  intro c a c' h
  simp only [read, bind_eq_ok, pure_eq_ok] at h
  obtain ⟨name, c₁, hname, size, c₂, hsize, payload, c₃, hpayload, rfl, rfl⟩ := h
  obtain ⟨hlen, hrest⟩ := Reader.take_eq_ok hpayload
  have hlt : payload.length < 4294967296 := hlen ▸ size.toNat_lt
  refine ⟨Word.bytes name ++ Word.bytes size ++ payload, ?_, ?_⟩
  · rw [encode, if_pos hlt, hlen, UInt32.ofNat_toNat]
  · rw [Reader.word_eq_ok hname, Reader.word_eq_ok hsize, hrest]
    simp only [List.append_assoc]

theorem exact_readList : Reader.Exact readList encodeList := by
  intro c attributes c' h
  simp only [readList, bind_eq_ok, pure_eq_ok] at h
  obtain ⟨items, c', h, rfl, rfl⟩ := h
  obtain ⟨hlen, front, hitems, hrest⟩ := exact_read.counted h
  exact ⟨_, encode_items hlen hitems, hrest⟩

end Attribute

namespace Member

theorem exact_read : Reader.Exact read encode := by
  intro c m c' h
  simp only [read, bind_eq_ok, pure_eq_ok] at h
  obtain ⟨access, c₁, haccess, name, c₂, hname, descriptor, c₃, hdescriptor, attributes, c₄,
    hattributes, rfl, rfl⟩ := h
  obtain ⟨front, hfront, hrest⟩ := Attribute.exact_readList hattributes
  refine ⟨Word.bytes access ++ Word.bytes name ++ Word.bytes descriptor ++ front, ?_, ?_⟩
  · rw [encode, hfront]
    rfl
  · rw [Reader.word_eq_ok haccess, Reader.word_eq_ok hname, Reader.word_eq_ok hdescriptor, hrest]
    simp only [List.append_assoc]

theorem exact_readList (what : Counted) : Reader.Exact readList (encodeList what) := by
  intro c members c' h
  simp only [readList, bind_eq_ok, pure_eq_ok] at h
  obtain ⟨items, c', h, rfl, rfl⟩ := h
  obtain ⟨hlen, front, hitems, hrest⟩ := exact_read.counted h
  exact ⟨_, encode_items hlen hitems, hrest⟩

end Member

namespace ClassFile

variable {c c' : Cursor} {f : ClassFile}

theorem readHeader_eq_ok {versions : UInt16 × UInt16} (h : readHeader c = .ok versions c') :
    c.rest = Word.bytes magic ++ Word.bytes versions.1 ++ Word.bytes versions.2 ++ c'.rest := by
  simp only [readHeader] at h
  obtain ⟨found, c₁, hfound, h⟩ := bind_eq_ok.mp h
  split at h
  case isTrue => simp [bind_eq_ok, throw_ne_ok] at h
  case isFalse hmagic =>
    simp only [bind_eq_ok, pure_eq_ok] at h
    obtain ⟨minor, c₂, hminor, major, c₃, hmajor, rfl, rfl⟩ := h
    rw [Reader.word_eq_ok hfound, Reader.word_eq_ok hminor, Reader.word_eq_ok hmajor,
      Classical.not_not.mp hmagic]
    simp only [List.append_assoc]

theorem writes_words {α : Type} [Word α] {items : List α} {bytes : List UInt8}
    (h : Writes (fun x : α => .ok (Word.bytes x)) items bytes) :
    items.flatMap Word.bytes = bytes := by
  obtain ⟨chunks, hchunks, rfl⟩ := h
  have hmap : items.mapM (fun x => (.ok (Word.bytes x) : Except Fault (List UInt8)))
      = .ok (items.map Word.bytes) := List.mapM_pure
  rw [List.flatMap_def, Except.ok.inj (hmap.symm.trans hchunks)]

theorem exact_readLayout : Reader.Exact readLayout encode := by
  intro c f c' h
  simp only [readLayout, bind_eq_ok, pure_eq_ok] at h
  obtain ⟨⟨minor, major⟩, c₁, hheader, pool, c₂, hpool, access, c₃, haccess, this, c₄, hthis,
    super, c₅, hsuper, interfaces, c₆, hinterfaces, fields, c₇, hfields, methods, c₈, hmethods,
    attributes, c₉, hattributes, rfl, rfl⟩ := h
  obtain ⟨poolBytes, hpoolBytes, hpoolRest⟩ := Pool.exact_read hpool
  obtain ⟨hlen, words, hwords, hwordsRest⟩ := Reader.exact_word.counted hinterfaces
  obtain ⟨fieldBytes, hfieldBytes, hfieldRest⟩ := Member.exact_readList .fields hfields
  obtain ⟨methodBytes, hmethodBytes, hmethodRest⟩ := Member.exact_readList .methods hmethods
  obtain ⟨attributeBytes, hattributeBytes, hattributeRest⟩ :=
    Attribute.exact_readList hattributes
  refine ⟨Word.bytes magic ++ Word.bytes minor ++ Word.bytes major ++ poolBytes
    ++ Word.bytes access ++ Word.bytes this ++ Word.bytes super
    ++ Word.bytes (UInt16.ofNat interfaces.length) ++ words
    ++ fieldBytes ++ methodBytes ++ attributeBytes, ?_, ?_⟩
  · have hcount : encodeCount .interfaces interfaces.toArray.size
        = .ok (Word.bytes (UInt16.ofNat interfaces.length)) := encodeCount_of_lt hlen
    rw [encode, hpoolBytes, hcount, hfieldBytes, hmethodBytes, hattributeBytes,
      ← writes_words hwords]
    rfl
  · rw [readHeader_eq_ok hheader, hpoolRest, Reader.word_eq_ok haccess, Reader.word_eq_ok hthis,
      Reader.word_eq_ok hsuper, hwordsRest, hfieldRest, hmethodRest, hattributeRest]
    simp only [List.append_assoc]

/-- What decodes is a whole layout that passes the checks of names. -/
theorem decode_eq_ok {data : List UInt8} (h : decode data = .ok f) :
    f.check = .ok () ∧ ∃ c, readLayout (Cursor.start data) = .ok f c ∧ c.rest = [] := by
  simp only [decode, Reader.run] at h
  split at h
  case h_2 => cases h
  case h_1 f' c' hread =>
    cases h
    simp only [read] at hread
    obtain ⟨f', c, hlayout, hread⟩ := bind_eq_ok.mp hread
    obtain ⟨_, _, ⟨⟩, hread⟩ := bind_eq_ok.mp hread
    split at hread
    case isTrue => simp [bind_eq_ok, throw_ne_ok] at hread
    case isFalse hrest =>
      cases hcheck : f'.check with
      | error fault =>
        rw [hcheck] at hread
        cases hread
      | ok =>
        rw [hcheck] at hread
        cases hread
        exact ⟨hcheck, _, hlayout, List.eq_nil_of_length_eq_zero (Classical.not_not.mp hrest)⟩

/-- The pool of a class file that decodes was read as one. -/
theorem read_of_decode {data : List UInt8} (h : decode data = .ok f) :
    ∃ s s', Pool.read s = .ok f.pool s' := by
  obtain ⟨-, _, hread, -⟩ := decode_eq_ok h
  simp only [readLayout, bind_eq_ok, pure_eq_ok] at hread
  obtain ⟨_, s, _, pool, s', hpool, _, _, _, _, _, _, _, _, _, _, _, _, _, _, _, _, _, _, _, _, _,
    rfl, -⟩ := hread
  exact ⟨s, s', hpool⟩

/-- A class file that decodes is encoded as the bytes that it was decoded from. -/
theorem encode_eq_ok_of_decode {data : List UInt8} (h : decode data = .ok f) :
    f.encode = .ok data := by
  obtain ⟨-, c, hread, hend⟩ := decode_eq_ok h
  obtain ⟨front, hfront, hrest⟩ := exact_readLayout hread
  rw [hend, List.append_nil] at hrest
  rw [hfront, ← hrest]
  rfl

/-- A class with a wide constant, text that is not well formed, access bits without a name, a
field and an attribute of unknown content. -/
def oddFile : List UInt8 :=
  [0xCA, 0xFE, 0xBA, 0xBE, 0, 0, 0, 52, 0, 7,
    1, 0, 1, 65, 7, 0, 1, 5, 1, 2, 3, 4, 5, 6, 7, 8, 1, 0, 2, 0xC1, 0x81, 1, 0, 2, 0xC0, 0x80,
    0xFF, 0xFF, 0, 2, 0, 0, 0, 1, 0, 2,
    0, 1, 0xF0, 0x0F, 0, 1, 0, 6, 0, 0, 0, 0, 0, 1, 0, 6, 0, 0, 0, 3, 9, 8, 7]

theorem encode_oddFile : ∃ f, decode oddFile = .ok f ∧ f.encode = .ok oddFile := by
  have hok : (decode oddFile).isOk = true := by decide +kernel
  cases hf : decode oddFile with
  | error fault =>
    rw [hf] at hok
    cases hok
  | ok f => exact ⟨f, rfl, encode_eq_ok_of_decode hf⟩

end ClassFile

end Relabel
