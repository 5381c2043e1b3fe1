import Relabel.Proofs.Naming.Stored

/-!
# Environments whose names are final

An environment whose names are final gives all names at once: a class file in its stored
form that it has renamed stays as it is when it is renamed again. This needs that no
signature was skipped. An index that leads nowhere may be that of a name that is added
later on, and then the signature is renamed, but only by the second run. It also needs
that no signature reads a text with a dot. Such a text need not be one of the class file
as it was: an index past the end of its pool may lead to a text that the run itself has
added.
-/

namespace Relabel

namespace Environment

variable {e : Environment} {channels channels' : Channels} {data out : List UInt8}

/-- An environment whose names are final does not ask the host. -/
theorem NamesAreFinal.toRenaming_eq (he : e.NamesAreFinal) :
    e.toRenaming channels = e.toRenaming channels' := by
  simp only [toRenaming, newNameIn, he.newName_eq]

/-- What was renamed to final names is left as it is by another run, and nothing is counted. No
signature may have been skipped since its index led nowhere. None may name an inner class with a
dot, in the pool as the first run leaves it: this also speaks of the signatures whose index leads
to a text that this run has added. -/
theorem renameBytes_renameBytes (he : e.NamesAreFinal)
    (h : (e.renameBytes channels data).1 = .ok out)
    (hnotices : .signatureIndex ∉ (e.renameBytes channels data).2)
    (hdot : ∀ c, ClassFile.decode data = .ok c → ∀ text,
      c.ReadsSignature (c.rename (e.toRenaming channels)).file.pool text → '.' ∉ text.toList) :
    (e.renameBytes channels' out).1 = .ok out ∧
      ∃ u, ClassFile.decode out = .ok u ∧ (u.rename (e.toRenaming channels')).result = .ok u ∧
        (u.rename (e.toRenaming channels')).tally = {} := by
  obtain ⟨c, hc⟩ := exists_decode_of_renameBytes h
  rw [renameBytes_of_decode hc] at h hnotices
  obtain ⟨c', hresult, hencode⟩ := except_bind_eq_ok.mp h
  obtain ⟨q, hentries, hout, -⟩ := ClassFile.decode_of_encode_rename hc hresult hencode
  obtain ⟨owner, hname⟩ := (ClassFile.hasNames_of_decode hc).name
  have hdot' : ∀ text, c.ReadsSignature c'.pool text → '.' ∉ text.toList :=
    Renamed.file_of_result hresult ▸ hdot c hc
  obtain ⟨hsame, htally⟩ := ClassFile.rename_of_rename (he.isFinal channels)
    (ClassFile.sound_of_decode hc) (ClassFile.complete_of_decode hc) hresult hnotices hdot' hname
    (ClassFile.sound_of_decode hout) hentries
  rw [he.toRenaming_eq] at hsame htally
  refine ⟨?_, _, hout, hsame, htally⟩
  rw [renameBytes_of_decode hout]
  simp only [Renamed.encode, hsame]
  exact (ClassFile.encode_congr hentries).trans hencode

end Environment

namespace ClassFile

open Environment

/-- No text behind the first run has a dot. -/
theorem no_dot_of_readsSignature {p : Pool} (hentries : p.entries = signedEntries)
    {c : ClassFile} {text : String} (h : c.ReadsSignature (p.append (.utf8 "LC;")) text) : '.' ∉ text.toList := by
  obtain ⟨i, hi⟩ : ∃ i, (p.append (.utf8 "LC;")).utf8 i = .ok text := by
    obtain ⟨_, _, _, _, h⟩ | ⟨_, _, _, _, h⟩ | ⟨_, _, h⟩ := h <;>
      obtain ⟨-, -, -, i, -, -, -, -, -, hi⟩ := h <;> exact ⟨i, hi⟩
  have hmem := Array.mem_of_getElem? (Pool.get?_eq_some.mp (Pool.utf8_eq_ok.mp hi)).1
  obtain ⟨_, known⟩ := p
  cases hentries
  have htexts : text ∈ ["A", "f", "LE;", "m", "()V", "Signature", "LC;"] := by
    simpa [Pool.append, Constant.isWide, signedEntries] using hmem
  have hplain : ∀ text ∈ ["A", "f", "LE;", "m", "()V", "Signature", "LC;"], '.' ∉ text.toList := by
    decide +kernel
  exact hplain text htexts

theorem FirstRun.notSigned {signature : UInt8} {notices : Array Notice}
    (h : FirstRun signature notices) {c : ClassFile} (hc : decode (signedFile signature) = .ok c) :
    ∀ text, c.ReadsSignature (c.rename typeRenaming).file.pool text → '.' ∉ text.toList := by
  obtain ⟨p, hentries, hpool⟩ := h.pool hc
  intro text htext
  exact no_dot_of_readsSignature hentries (hpool ▸ htext)

/-- The second run reads the name of the method where the signature has its index. -/
theorem rename_namedFile_ne {u : ClassFile} (hdecode : decode (namedFile 8) = .ok u) :
    (u.rename typeRenaming).result ≠ .ok u := by
  intro hresult
  have hequal : (decode (namedFile 8)).toOption.any
      (· == signedClass ⟨signedEntries.push (.utf8 "LC;"), ∅⟩ 8 8) = true := by decide +kernel
  obtain ⟨p, hentries, hread⟩ := decode_of_beq hequal
  cases hdecode.symm.trans hread
  have hname : p.utf8 7 = .ok AttributeName.signature := (Pool.utf8_congr hentries 7).trans rfl
  have htext : p.utf8 8 = .ok "LC;" := (Pool.utf8_congr hentries 8).trans rfl
  have hnew : typeRenaming.signature .ofField "LC;" = .ok "LD;" := by decide +kernel
  let signed : Attribute := ⟨7, Word.bytes (8 : UInt16)⟩
  have hfield : (signedClass p 8 8).fields[0]? = some ⟨0, 3, 4, #[signed]⟩ := rfl
  have hsigned : #[signed][0]? = some signed := rfl
  obtain ⟨m, a, j, hm, ha, hpayload, hj⟩ := fieldSignature_rename (sound_of_decode hdecode) hresult
    hfield hsigned hname rfl htext hnew
  cases hfield.symm.trans hm
  cases hsigned.symm.trans ha
  have hindex : Word.ofBytes (Word.bytes (8 : UInt16)) = (Word.ofBytes (Word.bytes j) : UInt16) :=
    congrArg Word.ofBytes hpayload
  rw [Word.ofBytes_bytes, Word.ofBytes_bytes] at hindex
  rw [← hindex, htext] at hj
  revert hj
  decide +kernel

end ClassFile

namespace Environment

open ClassFile

/-- With its signature known, the class is renamed once and then stays. -/
theorem renameBytes_renameBytes_signedFile :
    typeNaming.renameBytes .empty (signedFile 4) = (.ok (namedFile 4), #[]) ∧
    (typeNaming.renameBytes .empty (namedFile 4)).1 = .ok (namedFile 4) ∧
    ∃ u, decode (namedFile 4) = .ok u ∧
      (u.rename (typeNaming.toRenaming .empty)).result = .ok u ∧
      (u.rename (typeNaming.toRenaming .empty)).tally = {} := by
  have hfirst := firstRun_of_known
  have hrun := hfirst.renameBytes
  have hstored : (typeNaming.renameBytes .empty (signedFile 4)).1 = .ok (namedFile 4) :=
    congrArg Prod.fst hrun
  refine ⟨hrun, renameBytes_renameBytes namesAreFinal_typeNaming hstored ?_ ?_⟩
  · rw [hrun]
    exact Array.not_mem_empty _
  · intro c hc
    rw [toRenaming_typeNaming]
    exact hfirst.notSigned hc

/-- With a signature that was skipped the second run may change the class again. -/
theorem not_renameBytes_renameBytes : ¬ ∀ (e : Environment) (channels channels' : Channels)
    (data out : List UInt8), e.NamesAreFinal →
    (∀ c, decode data = .ok c → ∀ text,
      c.ReadsSignature (c.rename (e.toRenaming channels)).file.pool text → '.' ∉ text.toList) →
    (e.renameBytes channels data).1 = .ok out →
    (e.renameBytes channels' out).1 = .ok out ∧
      ∃ u, decode out = .ok u ∧ (u.rename (e.toRenaming channels')).result = .ok u ∧
        (u.rename (e.toRenaming channels')).tally = {} := by
  intro hall
  have hfirst := firstRun_of_unknown
  obtain ⟨-, u, hdecode, hresult, -⟩ := hall typeNaming .empty .empty (signedFile 8) (namedFile 8)
    namesAreFinal_typeNaming (fun c hc => by
      rw [toRenaming_typeNaming]
      exact hfirst.notSigned hc) (congrArg Prod.fst hfirst.renameBytes)
  rw [toRenaming_typeNaming] at hresult
  exact rename_namedFile_ne hdecode hresult

end Environment

end Relabel
