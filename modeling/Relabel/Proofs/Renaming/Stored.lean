import Relabel.Proofs.ClassFile.Written
import Relabel.Proofs.Renaming.Frame
import Relabel.Proofs.Renaming.Linking

/-!
# Renamed class files in their stored form

What a renaming gives is stored without loss: decoding the stored form gives it back
entry by entry, with a name for everything that has to have one. So a renaming leaves no
index that leads to the wrong kind of entry, and no text that would be read as another.
-/

namespace Relabel

theorem Renamed.file_of_result {c : Renamed} {f : ClassFile} (h : c.result = .ok f) :
    c.file = f := by
  unfold result at h
  split at h
  case h_1 => exact Except.ok.inj h
  case h_2 => cases h

namespace ClassFile

variable {data out : List UInt8} {c c' : ClassFile} {r : Renaming}

theorem inRows_of_decode (h : decode data = .ok c) : c.pool.InRows := by
  obtain ⟨_, _, hread⟩ := read_of_decode h
  exact Pool.inRows_of_read hread

/-! ## Names -/

/-- Where a class was named, a class is named after a renaming. -/
theorem className_renamed {owner : String} {p q : Pool} {d d' : Declarations} {i : UInt16}
    (h : Renames r owner p q d d') (hi : ∃ name, p.className i = .ok name) :
    ∃ name, q.className i = .ok name := by
  obtain ⟨name, hname⟩ := hi
  obtain ⟨t', ht', hrefers⟩ := h.refers (Pool.refers_classRef.mpr hname)
  obtain ⟨name', -, ⟨⟩⟩ := except_bind_eq_ok.mp ht'
  exact ⟨name', Pool.refers_classRef.mp hrefers⟩

theorem attributeName_framed {a a' : Attribute} (hpool : Pool.Expands c.pool c'.pool)
    (ha : Attribute.Framed c.pool a a') (h : ∃ name, c.attributeName a = .ok name) :
    ∃ name, c'.attributeName a' = .ok name := by
  obtain ⟨name, hname⟩ := h
  exact ⟨name, by rw [attributeName, ha.name]; exact hpool.utf8 hname⟩

/-- The attributes of a framed list have names, since they had names before. -/
theorem attributeNames_framed {xs ys : Array Attribute} (hpool : Pool.Expands c.pool c'.pool)
    (hframed : Pointwise (Attribute.Framed c.pool) xs ys)
    (h : ∀ a ∈ xs, ∃ name, c.attributeName a = .ok name) :
    ∀ a ∈ ys, ∃ name, c'.attributeName a = .ok name := by
  intro a' ha'
  obtain ⟨a, ha, hab⟩ := hframed.exists_mem ha'
  exact attributeName_framed hpool hab (h a ha)

theorem memberNames_renamed {kind : SymbolKind} {owner : String} {xs ys : Array Member}
    (hpool : Pool.Expands c.pool c'.pool)
    (hframed : Pointwise (Member.Framed c.pool) xs ys)
    (hrenamed : Pointwise (MemberRenamed r kind owner c.pool c'.pool) xs ys)
    (h : ∀ m ∈ xs, c.HasMemberNames m) : ∀ m ∈ ys, c'.HasMemberNames m := by
  intro m' hm'
  obtain ⟨n, hn⟩ := Array.mem_iff_getElem?.mp hm'
  obtain ⟨m, hm⟩ := hframed.exists_getElem? hn
  obtain ⟨b, hb, hframe⟩ := hframed.getElem? hm
  cases hn.symm.trans hb
  obtain ⟨b, hb, hdeclares⟩ := hrenamed.getElem? hm
  cases hn.symm.trans hb
  obtain ⟨⟨name, hname⟩, ⟨descriptor, hdescriptor⟩, hattributes⟩ :=
    h m (Array.mem_of_getElem? hm)
  obtain ⟨descriptor', -, hdeclares'⟩ := hdeclares ⟨hname, hdescriptor⟩
  exact ⟨⟨_, hdeclares'.1⟩, ⟨descriptor', hdeclares'.2⟩,
    attributeNames_framed hpool hframe.attributes hattributes⟩

/-- What had a name has one after a renaming that succeeds. -/
theorem hasNames_rename (hc : c.pool.Sound) (hcomplete : c.pool.Complete) (hnames : c.HasNames)
    (h : (c.rename r).result = .ok c') : c'.HasNames := by
  have hfile := Renamed.file_of_result h
  have hpool : Pool.Expands c.pool c'.pool := hfile ▸ expands_rename c r
  have hframed : Framed c c' := hfile ▸ framed_of_complete hcomplete r
  obtain ⟨owner, howner, -, hrenames⟩ := rename_eq_ok hc h
  have hclass {i : UInt16} := className_renamed (i := i) hrenames
  refine ⟨?_, ?_, ?_, ?_, ?_, ?_⟩
  · rw [name, hframed.thisClass]
    exact hclass hnames.name
  · rw [exists_superName_iff, hframed.superClass]
    exact fun hzero => hclass (exists_superName_iff.mp hnames.superName hzero)
  · rw [interfaceNames, hframed.interfaces, exists_mapM_eq_ok]
    exact fun i hi => hclass (exists_mapM_eq_ok.mp hnames.interfaceNames i hi)
  · exact memberNames_renamed hpool hframed.fields hrenames.fields hnames.fields
  · exact memberNames_renamed hpool hframed.methods hrenames.methods hnames.methods
  · exact attributeNames_framed hpool hframed.attributes hnames.attributes

/-! ## The stored form -/

/-- A renamed class file that is stored is decoded to what the renaming gave. -/
theorem decode_of_encode_rename (hdecode : decode data = .ok c)
    (hresult : (c.rename r).result = .ok c') (hencode : c'.encode = .ok out) :
    ∃ q, q.entries = c'.pool.entries ∧ decode out = .ok { c' with pool := q } ∧
      HasNames { c' with pool := q } ∧
      ∃ name name', c.name = .ok name ∧ r.type name = .ok name' ∧
        peekName out = .ok name' := by
  have hc := sound_of_decode hdecode
  have hcomplete := complete_of_decode hdecode
  have hfile := Renamed.file_of_result hresult
  have hpool : Pool.Expands c.pool c'.pool := hfile ▸ expands_rename c r
  have hnames := hasNames_rename hc hcomplete (hasNames_of_decode hdecode) hresult
  obtain ⟨q, hq, hout⟩ := decode_of_encode (hpool.sound hc)
    ((inRows_of_decode hdecode).expands hcomplete hpool) hnames hencode
  refine ⟨q, hq, hout, hnames.of_entries hq, ?_⟩
  obtain ⟨name, hname⟩ := (hasNames_of_decode hdecode).name
  obtain ⟨name', hname', hnew⟩ := name_of_rename hc hresult hname
  refine ⟨name, name', hname, hname', ?_⟩
  rw [peekName_of_decode hout, ← hnew]
  exact Pool.className_congr hq c'.thisClass

end ClassFile

end Relabel
