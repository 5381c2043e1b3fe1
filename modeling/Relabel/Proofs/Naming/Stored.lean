import Relabel.Naming.Environment
import Relabel.Proofs.Renaming.Again
import Relabel.Proofs.Renaming.Stored

/-!
# What an environment stores

An environment takes a class file in its stored form and gives it in its stored form.
Nothing is lost on the way: decoding what it gives is the renaming of what decodes, entry
by entry, and has a name for everything that has to have one.
-/

namespace Relabel

namespace Environment

variable {e : Environment} {channels : Channels} {data out : List UInt8}

theorem renameBytes_of_decode {c : ClassFile} (h : ClassFile.decode data = .ok c) :
    e.renameBytes channels data = ((c.rename (e.toRenaming channels)).encode,
      (c.rename (e.toRenaming channels)).notices) := by
  simp only [renameBytes, h]

theorem exists_decode_of_renameBytes (h : (e.renameBytes channels data).1 = .ok out) :
    ∃ c, ClassFile.decode data = .ok c := by
  cases hc : ClassFile.decode data with
  | ok c => exact ⟨c, rfl⟩
  | error fault =>
    rw [renameBytes, hc] at h
    cases h

/-- What an environment makes of a class file in its stored form is decoded to what it made of the
class file, with a name for everything, under the new name of the class. -/
theorem decode_renameBytes (h : (e.renameBytes channels data).1 = .ok out) :
    ∃ c u q, ClassFile.decode data = .ok c ∧
      (c.rename (e.toRenaming channels)).result = .ok u ∧
      q.entries = u.pool.entries ∧
      ClassFile.decode out = .ok { u with pool := q } ∧
      ClassFile.HasNames { u with pool := q } ∧
      ∃ name name', c.name = .ok name ∧ (e.toRenaming channels).type name = .ok name' ∧
        ClassFile.peekName out = .ok name' := by
  obtain ⟨c, hdecode⟩ := exists_decode_of_renameBytes h
  rw [renameBytes_of_decode hdecode] at h
  obtain ⟨u, hresult, hencode⟩ := except_bind_eq_ok.mp h
  obtain ⟨q, hq, hout, hnames, hpeek⟩ := ClassFile.decode_of_encode_rename hdecode hresult hencode
  exact ⟨c, u, q, hdecode, hresult, hq, hout, hnames, hpeek⟩

/-! ## Names that read as types -/

/-- Renames the class `C` to `D`, and gives methods `m` a name that reads as the type `C`. -/
def typeNaming : Environment :=
  ⟨{ Config.production with scope := ⟨["A", "C"]⟩ },
    .ofList [(.ofClass, "C", "D"), (.ofMethod, "m", "LC;")], false⟩

/-- What `typeNaming` does, in a form that can be evaluated. -/
def typeRenaming : Renaming :=
  { Renaming.identity with
    className := fun name => if name = "C" then "D" else name
    methodName := fun owner name _ =>
      if Scope.covers ⟨["A", "C"]⟩ owner ∧ name = "m" then "LC;" else name }

theorem get?_typeNaming (kind : SymbolKind) (name : String) : typeNaming.table.get? kind name =
    match kind with
    | .ofClass => if name = "C" then some "D" else none
    | .ofMethod => if name = "m" then some "LC;" else none
    | .ofField => none := by
  cases kind <;>
    simp only [typeNaming, Mapping.Table.ofList, List.foldl, Mapping.Table.insert,
      Mapping.Table.get?, Mapping.Table.entries, Mapping.Table.empty,
      Std.HashMap.getElem?_insert, Std.HashMap.getElem?_empty, beq_iff_eq, eq_comm (a := name)]

theorem namesAreFinal_typeNaming : typeNaming.NamesAreFinal where
  baked := rfl
  settled kind name final := by
    simp only [get?_typeNaming]
    cases kind <;> grind
  class_key name final := by
    simp only [get?_typeNaming]
    intro h
    split at h
    case isTrue heq =>
      subst heq
      decide +kernel
    case isFalse => cases h
  class_final name final := by
    simp only [get?_typeNaming]
    intro h
    split at h <;> cases h
    decide +kernel
  scope := by decide +kernel

theorem toRenaming_typeNaming (channels : Channels) :
    typeNaming.toRenaming channels = typeRenaming := by
  have hname (kind name) : typeNaming.newName channels kind name
      = (typeNaming.table.get? kind name).getD name := namesAreFinal_typeNaming.newName_eq kind name
  have hscope : typeNaming.config.scope = ⟨["A", "C"]⟩ := rfl
  have hcovers : Scope.covers ⟨["A", "C"]⟩ "C" = true := by decide +kernel
  simp only [toRenaming, typeRenaming, Renaming.identity, newNameIn, hname, get?_typeNaming, hscope]
  congr 1
  · funext name
    grind
  · funext owner name _
    grind
  · funext owner name _
    simp

end Environment

namespace ClassFile

open Edit Environment

/-- The pool of a class `A` with a field `f` of the class `E` and a method `m`. -/
def signedEntries : Array Constant :=
  #[.unusable, .utf8 "A", .classRef 1, .utf8 "f", .utf8 "LE;", .utf8 "m", .utf8 "()V",
    .utf8 "Signature"]

/-- The class whose field has its signature at one index, and whose method has its name at
another. -/
def signedClass (p : Pool) (signature method : UInt16) : ClassFile :=
  ⟨0, 52, p, 0x21, 2, 0, #[], #[⟨0, 3, 4, #[⟨7, Word.bytes signature⟩]⟩],
    #[⟨1, method, 6, #[]⟩], #[]⟩

def signedFile (signature : UInt8) : List UInt8 :=
  [0xCA, 0xFE, 0xBA, 0xBE, 0, 0, 0, 52, 0, 8,
    1, 0, 1, 65, 7, 0, 1, 1, 0, 1, 102, 1, 0, 3, 76, 69, 59, 1, 0, 1, 109, 1, 0, 3, 40, 41, 86,
    1, 0, 9, 83, 105, 103, 110, 97, 116, 117, 114, 101,
    0, 33, 0, 2, 0, 0, 0, 0, 0, 1, 0, 0, 0, 3, 0, 4, 0, 1, 0, 7, 0, 0, 0, 2, 0, signature,
    0, 1, 0, 1, 0, 5, 0, 6, 0, 0, 0, 0]

theorem decode_signedFile (signature : UInt8) (index : UInt16)
    (h : (decode (signedFile signature)).toOption.any
      (· == signedClass ⟨signedEntries, ∅⟩ index 5) = true) :
    ∃ p : Pool, p.entries = signedEntries ∧
      decode (signedFile signature) = .ok (signedClass p index 5) := decode_of_beq h

/-- The first run renames the method, and leaves the field as it is if its signature stays. -/
theorem rename_signedClass {p : Pool} {index : UInt16} {notices : Array Notice} (hp : p.Sound)
    (hentries : p.entries = signedEntries)
    (hfields : each (renameMember typeRenaming .ofField "A")
      ⟨(signedClass p index 5).fields, p, {}, #[]⟩
        = .ok () ⟨(signedClass p index 5).fields, p, {}, notices⟩) :
    (signedClass p index 5).rename typeRenaming = ⟨signedClass (p.append (.utf8 "LC;")) index 8,
      ({} : Tally).addMember, notices, none⟩ := by
  let f : Focus Member := ⟨⟨1, 5, 6, #[]⟩, p, {}, notices⟩
  have htext : renameText (fun i m => { m with name := i }) "m" "LC;" f = .ok ()
      ⟨{ f.item with name := p.count }, p.append (.utf8 "LC;"), {}, notices⟩ := by
    refine renameText_of_fresh hp (by decide) ?_ ?_
    · rw [hentries]
      decide +kernel
    · rw [Pool.slots, hentries]
      decide
  obtain ⟨_, known⟩ := p
  cases hentries
  have hmember : renameMember typeRenaming .ofMethod "A" f = .ok ()
      ⟨⟨1, 8, 6, #[]⟩, f.pool.append (.utf8 "LC;"), ({} : Tally).addMember, notices⟩ := by
    have hnew : declaredName typeRenaming .ofMethod "A" "m" "()V" = "LC;" := by decide +kernel
    have hnames : renameText (fun i m => { m with name := i }) "m"
        (declaredName typeRenaming .ofMethod "A" "m" "()V") f = .ok ()
          ⟨{ f.item with name := f.pool.count }, f.pool.append (.utf8 "LC;"), {}, notices⟩ :=
      hnew ▸ htext
    have hsteps : MemberSteps typeRenaming .ofMethod "A" "m" "()V" "()V" f _ _ _ _ :=
      ⟨rfl, rfl, rfl, hnames, renameText_self _ _, (if_pos (by rw [hnew]; decide)).symm, rfl⟩
    exact hsteps.renameMember_eq
  let c : ClassFile := signedClass f.pool index 5
  let d : ClassFile := signedClass (f.pool.append (.utf8 "LC;")) index 8
  let tally : Tally := ({} : Tally).addMember
  have hmethods : each (renameMember typeRenaming .ofMethod "A") ⟨c.methods, c.pool, {}, notices⟩
      = .ok () ⟨#[⟨1, 8, 6, #[]⟩], d.pool, tally, notices⟩ := each_singleton hmember
  have hclasses : ∀ c ∈ signedEntries.push (.utf8 "LC;"),
      c.isClassRef = true → c = .classRef 1 := by
    decide +kernel
  have hfinal : typeRenaming.type "A" = .ok "A" := by decide +kernel
  have hpasses : Passes typeRenaming "A" ⟨c.declarations, c.pool, {}, #[]⟩
      ⟨c.declarations, c.pool, {}, #[]⟩ ⟨c.fields, c.pool, {}, notices⟩
      ⟨d.methods, d.pool, tally, notices⟩ ⟨d.attributes, d.pool, tally, notices⟩
      ⟨d.declarations, d.pool, tally, notices⟩ :=
    ⟨rfl, hfields, hmethods, rfl,
      timesFrom_self fun _ _ _ => renameClassEntry_of_only hclasses rfl hfinal _⟩
  exact rename_of_renameAll (c := c) rfl hpasses.renameAll_eq

section

variable {p : Pool} {index : UInt16} {notices : Array Notice}

/-- The field stays as it is if its signature does. -/
theorem fields_signedClass (hentries : p.entries = signedEntries) {t : Tape}
    (hsignature : Walk.signature typeRenaming .ofField ⟨Tape.start (Word.bytes index), p, {}, #[]⟩
      = .ok () ⟨t, p, {}, notices⟩) (ht : t.bytes = Word.bytes index) :
    each (renameMember typeRenaming .ofField "A")
      ⟨(signedClass p index 5).fields, p, {}, #[]⟩
        = .ok () ⟨(signedClass p index 5).fields, p, {}, notices⟩ := by
  obtain ⟨_, known⟩ := p
  cases hentries
  let p : Pool := ⟨signedEntries, known⟩
  let a : Focus Attribute := ⟨⟨7, Word.bytes index⟩, p, {}, #[]⟩
  let f : Focus Member := ⟨⟨0, 3, 4, #[a.item]⟩, p, {}, #[]⟩
  have hattribute : renameAttribute typeRenaming .ofField a = .ok () { a with notices } := by
    have hname : a.pool.utf8 a.item.name = .ok AttributeName.signature := rfl
    have hpayload : Walk.payload typeRenaming maxNesting .ofField AttributeName.signature
        ⟨Tape.start a.item.payload, a.pool, a.tally, a.notices⟩ = .ok () ⟨t, p, {}, notices⟩ :=
      hsignature
    rw [Layout.renameAttribute_of_name hname, inside_of_ok hpayload, ht]
  have hattributes : each (renameAttribute typeRenaming .ofField)
      ⟨f.item.attributes, f.pool, f.tally, f.notices⟩
        = .ok () ⟨f.item.attributes, p, {}, notices⟩ :=
    each_singleton hattribute
  have hd : typeRenaming.descriptor "LE;" = .ok "LE;" := by decide +kernel
  have hsteps : MemberSteps typeRenaming .ofField "A" "f" "LE;" "LE;" f f f f { f with notices } :=
    ⟨rfl, rfl, hd, renameText_self _ _, renameText_self _ _, (if_neg (by decide)).symm,
      inside_of_ok hattributes⟩
  have hmember := hsteps.renameMember_eq
  exact each_singleton hmember

/-- What the first run leaves can be stored. -/
theorem encode_signedClass (hentries : p.entries = signedEntries) {out : List UInt8}
    (h : (signedClass ⟨signedEntries.push (.utf8 "LC;"), ∅⟩ index 8).encode = .ok out) :
    (signedClass (p.append (.utf8 "LC;")) index 8).encode = .ok out := by
  obtain ⟨_, known⟩ := p
  cases hentries
  exact (encode_congr (c := signedClass ⟨signedEntries.push (.utf8 "LC;"), ∅⟩ index 8) rfl).trans h

end

/-- The stored form of the class behind the first run. -/
def namedFile (signature : UInt8) : List UInt8 :=
  [0xCA, 0xFE, 0xBA, 0xBE, 0, 0, 0, 52, 0, 9,
    1, 0, 1, 65, 7, 0, 1, 1, 0, 1, 102, 1, 0, 3, 76, 69, 59, 1, 0, 1, 109, 1, 0, 3, 40, 41, 86,
    1, 0, 9, 83, 105, 103, 110, 97, 116, 117, 114, 101, 1, 0, 3, 76, 67, 59,
    0, 33, 0, 2, 0, 0, 0, 0, 0, 1, 0, 0, 0, 3, 0, 4, 0, 1, 0, 7, 0, 0, 0, 2, 0, signature,
    0, 1, 0, 1, 0, 8, 0, 6, 0, 0, 0, 0]

/-- The first run on the class renames its method and gives these notices. -/
structure FirstRun (signature : UInt8) (notices : Array Notice) : Prop where
  pool : ∀ ⦃c⦄, decode (signedFile signature) = .ok c → ∃ p : Pool,
    p.entries = signedEntries ∧ (c.rename typeRenaming).file.pool = p.append (.utf8 "LC;")
  renameBytes : typeNaming.renameBytes .empty (signedFile signature)
    = (.ok (namedFile signature), notices)

theorem firstRun {p : Pool} {signature : UInt8} {index : UInt16} {notices : Array Notice}
    (hentries : p.entries = signedEntries)
    (hdecode : decode (signedFile signature) = .ok (signedClass p index 5)) {t : Tape}
    (hsignature : Walk.signature typeRenaming .ofField ⟨Tape.start (Word.bytes index), p, {}, #[]⟩
      = .ok () ⟨t, p, {}, notices⟩) (ht : t.bytes = Word.bytes index)
    (hencode : (signedClass ⟨signedEntries.push (.utf8 "LC;"), ∅⟩ index 8).encode
      = .ok (namedFile signature)) : FirstRun signature notices := by
  have hp : p.Sound := sound_of_decode hdecode
  have hrename := rename_signedClass hp hentries (fields_signedClass hentries hsignature ht)
  constructor
  · intro c hc
    cases hc.symm.trans hdecode
    exact ⟨p, hentries, by rw [hrename]; rfl⟩
  · rw [renameBytes_of_decode hdecode, toRenaming_typeNaming, hrename]
    exact congrArg (·, notices) (encode_signedClass hentries hencode)

/-- The signature is there from the start, and stays. -/
theorem firstRun_of_known : FirstRun 4 #[] := by
  obtain ⟨p, hentries, hdecode⟩ := decode_signedFile 4 4 (by decide +kernel)
  let f : Focus Tape := ⟨Tape.start (Word.bytes (4 : UInt16)), p, {}, #[]⟩
  have hahead : f.item.ahead = Word.bytes (4 : UInt16) ++ [] := rfl
  have htext : p.utf8 4 = .ok "LE;" :=
    (Pool.utf8_congr (p := ⟨signedEntries, ∅⟩) hentries 4).trans rfl
  have hnew : typeRenaming.signature .ofField "LE;" = .ok "LE;" := by decide +kernel
  have hsignature : Walk.signature typeRenaming .ofField f
      = .ok () (Layout.past (Word.bytes (4 : UInt16)) [] f) := by
    rw [Layout.signature_of_index hahead, htext]
    dsimp only
    rw [Walk.signatureSlot, bind_of_ok (Layout.word_of_ahead hahead), look_bind htext, hnew]
    rfl
  exact firstRun hentries hdecode hsignature rfl (by decide +kernel)

/-- The signature's index leads nowhere, so it is skipped. -/
theorem firstRun_of_unknown : FirstRun 8 #[.signatureIndex] := by
  obtain ⟨p, hentries, hdecode⟩ := decode_signedFile 8 8 (by decide +kernel)
  let f : Focus Tape := ⟨Tape.start (Word.bytes (8 : UInt16)), p, {}, #[]⟩
  obtain ⟨fault, htext⟩ : ∃ fault, p.utf8 8 = .error fault :=
    ⟨_, (Pool.utf8_congr (p := ⟨signedEntries, ∅⟩) hentries 8).trans rfl⟩
  have hsignature : Walk.signature typeRenaming .ofField f
      = .ok () { f with notices := #[.signatureIndex] } := by
    rw [Layout.signature_of_index (i := 8) rfl, htext]
    rfl
  exact firstRun hentries hdecode hsignature rfl (by decide +kernel)

end ClassFile

namespace Environment

open ClassFile

/-- A class with a method that is renamed: what is stored has one text more than before. -/
theorem decode_renameBytes_signedFile :
    (typeNaming.renameBytes .empty (signedFile 4)).1 = .ok (namedFile 4) ∧
    ∃ c u q, decode (signedFile 4) = .ok c ∧
      (c.rename (typeNaming.toRenaming .empty)).result = .ok u ∧
      q.entries = u.pool.entries ∧ q.entries = c.pool.entries.push (.utf8 "LC;") ∧
      decode (namedFile 4) = .ok { u with pool := q } ∧ HasNames { u with pool := q } ∧
      c.name = .ok "A" ∧ (typeNaming.toRenaming .empty).type "A" = .ok "A" ∧
      peekName (namedFile 4) = .ok "A" := by
  have hfirst := firstRun_of_known
  have hstored : (typeNaming.renameBytes .empty (signedFile 4)).1 = .ok (namedFile 4) :=
    congrArg Prod.fst hfirst.renameBytes
  obtain ⟨c, u, q, hdecode, hresult, hq, hout, hnames, name, name', hname, hname', hpeek⟩ :=
    decode_renameBytes hstored
  obtain ⟨p, hentries, hread⟩ := decode_signedFile 4 4 (by decide +kernel)
  cases hdecode.symm.trans hread
  obtain ⟨p', hentries', hpool⟩ := hfirst.pool hdecode
  have hgrown : q.entries = p.entries.push (.utf8 "LC;") := by
    rw [toRenaming_typeNaming] at hresult
    rw [hq, ← Renamed.file_of_result hresult, hpool, hentries, ← hentries']
    rfl
  have hA : (signedClass p 4 5).name = .ok "A" := 
    (Pool.className_congr (p := ⟨signedEntries, ∅⟩) hentries 2).trans rfl
  have hA' : (typeNaming.toRenaming .empty).type "A" = .ok "A" := by
    rw [toRenaming_typeNaming]
    decide +kernel
  cases hname.symm.trans hA
  cases hname'.symm.trans hA'
  exact ⟨hstored, _, u, q, hdecode, hresult, hq, hgrown, hout, hnames, hA, hA', hpeek⟩

end Environment

end Relabel
