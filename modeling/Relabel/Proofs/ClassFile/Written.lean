import Relabel.Proofs.ClassFile.RoundTrip
import Relabel.Proofs.Pool.Written

/-!
# Class files that are written are read back

Writing refuses lists and texts that are too long for their size fields, and all else is
read back as it was. Only the index of shared constants is built anew, so the class file
that is read has an equal pool rather than the same one, and looks up the same names.
-/

namespace Relabel

/-! ## Lists -/

theorem encodeCount_eq_ok {what : Counted} {n : Nat} {bytes : List UInt8}
    (h : encodeCount what n = .ok bytes) :
    n < 65536 ∧ bytes = Word.bytes (UInt16.ofNat n) := by
  unfold encodeCount at h
  split at h
  case isTrue hn =>
    cases h
    exact ⟨hn, rfl⟩
  case isFalse => cases h

/-- A list that is written behind its length is read back. -/
theorem reads_items {α : Type} {r : Reader α} {write : α → Except Fault (List UInt8)}
    {what : Counted} {items : Array α} {bytes : List UInt8}
    (hr : ∀ a ∈ items.toList, ∀ ⦃b⦄, write a = .ok b → Reader.Reads r a b)
    (h : (do
      let count ← encodeCount what items.size
      let chunks ← items.toList.mapM write
      return count ++ chunks.flatten) = .ok bytes) :
    Reader.Reads (do return (← Reader.counted r).toArray) items bytes := by
  obtain ⟨count, hcount, h⟩ := except_bind_eq_ok.mp h
  obtain ⟨chunks, hchunks, h⟩ := except_bind_eq_ok.mp h
  cases h
  obtain ⟨hlen, rfl⟩ := encodeCount_eq_ok hcount
  have hread := Reader.reads_counted (by simpa using hlen) ⟨chunks, hchunks, rfl⟩ hr
  exact hread.map List.toArray

namespace Attribute

theorem reads_of_encode {a : Attribute} {bytes : List UInt8} (h : a.encode = .ok bytes) :
    Reader.Reads read a bytes := by
  simp only [encode] at h
  split at h
  case isFalse => cases h
  case isTrue hlen =>
    cases h
    have hsize : (UInt32.ofNat a.payload.length).toNat = a.payload.length :=
      UInt32.toNat_ofNat_of_lt' hlen
    rw [List.append_assoc]
    refine (Reader.reads_word a.name).bind ((Reader.reads_word _).bind ?_)
    exact (Reader.reads_take hsize.symm).map fun payload => Attribute.mk a.name payload

theorem reads_list {attributes : Array Attribute} {bytes : List UInt8}
    (h : encodeList attributes = .ok bytes) : Reader.Reads readList attributes bytes :=
  reads_items (fun _ _ _ => reads_of_encode) h

end Attribute

namespace Member

theorem reads_of_encode {m : Member} {bytes : List UInt8} (h : m.encode = .ok bytes) :
    Reader.Reads read m bytes := by
  obtain ⟨attributes, hattributes, h⟩ := except_bind_eq_ok.mp h
  cases h
  rw [List.append_assoc, List.append_assoc]
  refine (Reader.reads_word m.access).bind ((Reader.reads_word m.name).bind ?_)
  refine (Reader.reads_word m.descriptor).bind ?_
  exact (Attribute.reads_list hattributes).map fun attributes =>
    Member.mk m.access m.name m.descriptor attributes

theorem reads_list {what : Counted} {members : Array Member} {bytes : List UInt8}
    (h : encodeList what members = .ok bytes) : Reader.Reads readList members bytes :=
  reads_items (fun _ _ _ => reads_of_encode) h

end Member

namespace ClassFile

variable {c : ClassFile} {q : Pool} {bytes : List UInt8}

theorem reads_header (minor major : UInt16) : Reader.Reads readHeader (minor, major)
    (Word.bytes magic ++ (Word.bytes minor ++ Word.bytes major)) := by
  refine (Reader.reads_word magic).bind ?_
  rw [if_neg (fun h => h rfl)]
  exact (Reader.reads_word minor).bind ((Reader.reads_word major).map fun major => (minor, major))

theorem reads_words {α : Type} [Word α] {what : Counted} {items : Array α} {count : List UInt8}
    (h : encodeCount what items.size = .ok count) :
    Reader.Reads (Reader.counted Reader.word) items.toList
      (count ++ items.toList.flatMap Word.bytes) := by
  obtain ⟨hlen, rfl⟩ := encodeCount_eq_ok h
  have hwrites : Writes (fun x : α => .ok (Word.bytes x)) items.toList
      (items.toList.flatMap Word.bytes) :=
    ⟨items.toList.map Word.bytes, List.mapM_pure, List.flatMap_def.symm⟩
  refine Reader.reads_counted (by simpa using hlen) hwrites ?_
  rintro x - b ⟨⟩
  exact Reader.reads_word x

/-- The whole layout is read back, with a pool whose index is built anew. -/
theorem reads_layout (hp : c.pool.Sound) (hrows : c.pool.InRows) (h : c.encode = .ok bytes) :
    ∃ q, q.entries = c.pool.entries ∧
      Reader.Reads readLayout { c with pool := q } bytes := by
  obtain ⟨pool, hpool, h⟩ := except_bind_eq_ok.mp h
  obtain ⟨count, hcount, h⟩ := except_bind_eq_ok.mp h
  obtain ⟨fields, hfields, h⟩ := except_bind_eq_ok.mp h
  obtain ⟨methods, hmethods, h⟩ := except_bind_eq_ok.mp h
  obtain ⟨attributes, hattributes, h⟩ := except_bind_eq_ok.mp h
  cases h
  obtain ⟨q, hq, hread⟩ := Pool.reads_of_encode hp hrows hpool
  refine ⟨q, hq, ?_⟩
  have hassoc : Word.bytes magic ++ Word.bytes c.minor ++ Word.bytes c.major ++ pool
      ++ Word.bytes c.access ++ Word.bytes c.thisClass ++ Word.bytes c.superClass
      ++ count ++ c.interfaces.toList.flatMap Word.bytes ++ fields ++ methods ++ attributes
      = (Word.bytes magic ++ (Word.bytes c.minor ++ Word.bytes c.major)) ++ (pool
        ++ (Word.bytes c.access ++ (Word.bytes c.thisClass ++ (Word.bytes c.superClass
        ++ ((count ++ c.interfaces.toList.flatMap Word.bytes)
        ++ (fields ++ (methods ++ attributes))))))) := by
    simp only [List.append_assoc]
  rw [hassoc]
  refine (reads_header c.minor c.major).bind (hread.bind ?_)
  refine (Reader.reads_word c.access).bind ((Reader.reads_word c.thisClass).bind ?_)
  refine (Reader.reads_word c.superClass).bind ((reads_words hcount).bind ?_)
  refine (Member.reads_list hfields).bind ((Member.reads_list hmethods).bind ?_)
  exact (Attribute.reads_list hattributes).map fun attributes => { c with pool := q, attributes }

/-! ## Names -/

/-- A declared member has a name and a descriptor, and its attributes have names. -/
structure HasMemberNames (c : ClassFile) (m : Member) : Prop where
  name : ∃ name, c.memberName m = .ok name
  descriptor : ∃ descriptor, c.memberDescriptor m = .ok descriptor
  attributes : ∀ a ∈ m.attributes, ∃ name, c.attributeName a = .ok name

theorem exists_superName_iff : (∃ name, c.superName = .ok name) ↔
    c.superClass ≠ 0 → ∃ name, c.pool.className c.superClass = .ok name := by
  unfold superName
  by_cases hzero : c.superClass = 0
  · simp [hzero]
  · simp only [hzero, if_false, ne_eq, not_false_eq_true, forall_const]
    cases c.pool.className c.superClass with
    | ok name => simp [Functor.map, Except.map]
    | error fault => simp [Functor.map, Except.map]

/-- Everything in the class file that has to have a name has one. -/
structure HasNames (c : ClassFile) : Prop where
  name : ∃ name, c.name = .ok name
  superName : ∃ name, c.superName = .ok name
  interfaceNames : ∃ names, c.interfaceNames = .ok names
  fields : ∀ m ∈ c.fields, c.HasMemberNames m
  methods : ∀ m ∈ c.methods, c.HasMemberNames m
  attributes : ∀ a ∈ c.attributes, ∃ name, c.attributeName a = .ok name

theorem checkAttributes_eq_ok {attributes : Array Attribute} :
    c.checkAttributes attributes = .ok () ↔
      ∀ a ∈ attributes, ∃ name, c.attributeName a = .ok name := by
  simp only [checkAttributes, forM_eq_ok, Array.mem_toList_iff, discard_eq_ok]

theorem checkMember_eq_ok {m : Member} : c.checkMember m = .ok () ↔ c.HasMemberNames m := by
  simp only [checkMember, except_bind_eq_ok, checkAttributes_eq_ok]
  constructor
  · rintro ⟨name, hname, descriptor, hdescriptor, hattributes⟩
    exact ⟨⟨name, hname⟩, ⟨descriptor, hdescriptor⟩, hattributes⟩
  · rintro ⟨⟨name, hname⟩, ⟨descriptor, hdescriptor⟩, hattributes⟩
    exact ⟨name, hname, descriptor, hdescriptor, hattributes⟩

theorem checkMembers_eq_ok {members : Array Member} :
    members.toList.forM c.checkMember = .ok () ↔ ∀ m ∈ members, c.HasMemberNames m := by
  simp only [forM_eq_ok, Array.mem_toList_iff, checkMember_eq_ok]

theorem check_eq_ok : c.check = .ok () ↔ c.HasNames := by
  simp only [check, except_bind_eq_ok]
  constructor
  · rintro ⟨name, hname, super, hsuper, interfaces, hinterfaces, ⟨⟩, hfields, ⟨⟩, hmethods,
      hattributes⟩
    exact ⟨⟨name, hname⟩, ⟨super, hsuper⟩, ⟨interfaces, hinterfaces⟩,
      checkMembers_eq_ok.mp hfields, checkMembers_eq_ok.mp hmethods,
      checkAttributes_eq_ok.mp hattributes⟩
  · rintro ⟨⟨name, hname⟩, ⟨super, hsuper⟩, ⟨interfaces, hinterfaces⟩, hfields, hmethods,
      hattributes⟩
    exact ⟨name, hname, super, hsuper, interfaces, hinterfaces, (),
      checkMembers_eq_ok.mpr hfields, (), checkMembers_eq_ok.mpr hmethods,
      checkAttributes_eq_ok.mpr hattributes⟩

theorem hasNames_of_decode {data : List UInt8} (h : decode data = .ok c) : c.HasNames :=
  check_eq_ok.mp (decode_eq_ok h).1

theorem HasNames.of_entries (h : c.HasNames) (hq : q.entries = c.pool.entries) :
    HasNames { c with pool := q } := by
  have hutf8 (i : UInt16) : q.utf8 i = c.pool.utf8 i := Pool.utf8_congr hq i
  have hclass : q.className = c.pool.className := funext (Pool.className_congr hq)
  have hmember {m : Member} (hm : c.HasMemberNames m) :
      HasMemberNames { c with pool := q } m := by
    refine ⟨?_, ?_, ?_⟩
    · simpa only [memberName, hutf8] using hm.name
    · simpa only [memberDescriptor, hutf8] using hm.descriptor
    · simpa only [attributeName, hutf8] using hm.attributes
  refine ⟨?_, ?_, ?_, fun m hm => hmember (h.fields m hm), fun m hm => hmember (h.methods m hm), ?_⟩
  · simpa only [ClassFile.name, hclass] using h.name
  · simpa only [ClassFile.superName, hclass] using h.superName
  · simpa only [ClassFile.interfaceNames, hclass] using h.interfaceNames
  · simpa only [attributeName, hutf8] using h.attributes

/-! ## Reading a class file back -/

/-- Equal class files differ in the index of their pools at most. -/
theorem of_beq {d : ClassFile} (h : (c == d) = true) :
    c = { d with pool := c.pool } ∧ c.pool.entries = d.pool.entries := by
  obtain ⟨minor, major, pool, access, thisClass, superClass, interfaces, fields, methods,
    attributes⟩ := c
  obtain ⟨minor', major', pool', access', thisClass', superClass', interfaces', fields', methods',
    attributes'⟩ := d
  replace h : (minor == minor' && (major == major' && (pool.entries == pool'.entries &&
    (access == access' && (thisClass == thisClass' && (superClass == superClass' &&
    (interfaces == interfaces' && (fields == fields' && (methods == methods' &&
    attributes == attributes'))))))))) = true := h
  simp only [Bool.and_eq_true, beq_iff_eq] at h
  obtain ⟨rfl, rfl, hentries, rfl, rfl, rfl, rfl, rfl, rfl, rfl⟩ := h
  exact ⟨rfl, hentries⟩

/-- Data that is read as a class file equal to `d` is read as `d` with an index of its own. -/
theorem decode_of_beq {data : List UInt8} {d : ClassFile}
    (h : (decode data).toOption.any (· == d) = true) :
    ∃ q : Pool, q.entries = d.pool.entries ∧ decode data = .ok { d with pool := q } := by
  obtain ⟨c, hc, hsame⟩ := eq_ok_of_any (decode data) _ h
  obtain ⟨hfile, hentries⟩ := of_beq hsame
  exact ⟨c.pool, hentries, hc.trans (congrArg Except.ok hfile)⟩

theorem beq_of_entries (h : q.entries = c.pool.entries) : ({ c with pool := q } == c) = true := by
  obtain ⟨minor, major, pool, access, thisClass, superClass, interfaces, fields, methods,
    attributes⟩ := c
  change (minor == minor && (major == major && (q.entries == pool.entries &&
    (access == access && (thisClass == thisClass && (superClass == superClass &&
    (interfaces == interfaces && (fields == fields && (methods == methods &&
    attributes == attributes))))))))) = true
  simp [h]

theorem encode_congr (h : q.entries = c.pool.entries) :
    encode { c with pool := q } = c.encode := by
  simp only [encode, Pool.encode_congr h]

/-- A class file with all its names that is written is read back. -/
theorem decode_of_encode (hp : c.pool.Sound) (hrows : c.pool.InRows) (hnames : c.HasNames)
    (h : c.encode = .ok bytes) :
    ∃ q, q.entries = c.pool.entries ∧ decode bytes = .ok { c with pool := q } := by
  obtain ⟨q, hq, hread⟩ := reads_layout hp hrows h
  refine ⟨q, hq, ?_⟩
  have hlayout := hread 0 []
  rw [List.append_nil] at hlayout
  have hcheck := check_eq_ok.mpr (hnames.of_entries hq)
  simp only [decode, Reader.run, read, Cursor.start]
  rw [bind_of_ok hlayout]
  simp only [hcheck]
  rfl

/-- The name that is read without what follows is the name of the class. -/
theorem peekName_of_decode {data : List UInt8} (h : decode data = .ok c) :
    peekName data = c.name := by
  obtain ⟨name, hname⟩ := (hasNames_of_decode h).name
  obtain ⟨-, _, hread, -⟩ := decode_eq_ok h
  simp only [readLayout, bind_eq_ok, pure_eq_ok] at hread
  obtain ⟨versions, s₁, hheader, pool, s₂, hpool, access, s₃, haccess, this, s₄, hthis, _, _, _,
    _, _, _, _, _, _, _, _, _, _, _, _, rfl, -⟩ := hread
  obtain ⟨front, s, hskip, hs⟩ := bind_eq_ok.mp haccess
  obtain ⟨-, rfl⟩ := pure_eq_ok.mp hs
  have hskip' : Reader.skip 2 s₂ = .ok () s := bind_of_ok hskip
  have hclass : pool.className this = .ok name := hname
  rw [hname, peekName, Reader.run, readName, bind_of_ok hheader, bind_of_ok hpool,
    bind_of_ok hskip', bind_of_ok hthis, hclass]
  rfl

end ClassFile

end Relabel
