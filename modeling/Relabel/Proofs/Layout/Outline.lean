import Relabel.ClassFile.Codec
import Relabel.Proofs.Bytes.Reader
import Relabel.Proofs.Layout.Attribute
import Relabel.Proofs.Pool.Expand

/-!
# Outlines of attributes

The payloads of code and of records hold attributes in their turn, with the indices of
their names and their sizes in front. A walk replaces indices of descriptors, signatures
and simple names only. So the attributes inside a payload are read off it as before
wherever the walk stops: as many of them, in the same order and under the same names.
-/

namespace Relabel

/-! ## Reading an outline -/

/-- The name and the size of an attribute, with the outlines of the attributes inside it. -/
inductive Outline where
  /-- Nothing inside is looked at. -/
  | other (name : UInt16) (size : Nat)
  | code (name : UInt16) (size : Nat) (attributes : Except Fault (List Outline))
  /-- The components have names and attributes. -/
  | record (name : UInt16) (size : Nat) (components : Except Fault (List (UInt16 × List Outline)))

namespace Outline

variable (F : Attribute → Outline)

def readTable : Reader (List Outline) :=
  Reader.counted do return F (← Attribute.read)

/-- The attributes of code, behind two sizes, the code and the exception ranges. -/
def readCode : Reader (List Outline) := do
  Reader.skip 4
  let size : UInt32 ← Reader.word
  Reader.skip size.toNat
  let handlers : UInt16 ← Reader.word
  Reader.skip (handlers.toNat * 8)
  readTable F

/-- The components of a record. -/
def readRecord : Reader (List (UInt16 × List Outline)) :=
  Reader.counted do
    let name : UInt16 ← Reader.word
    Reader.skip 2
    return (name, ← readTable F)

end Outline

/-- The outline of an attribute, as deep as `levels` tell. -/
def Attribute.outline (p : Pool) : (levels : Nat) → Attribute → Outline
  | 0, a => .other a.name a.payload.length
  | levels + 1, a =>
    match p.utf8 a.name with
    | .error _ => .other a.name a.payload.length
    | .ok name =>
      if name = AttributeName.code then
        .code a.name a.payload.length ((Outline.readCode (outline p levels)).run a.payload)
      else if name = AttributeName.record then
        .record a.name a.payload.length ((Outline.readRecord (outline p levels)).run a.payload)
      else .other a.name a.payload.length

/-- An attribute that holds no others is told by its name and its size. -/
theorem Attribute.outline_congr {p : Pool} {a b : Attribute} (hname : b.name = a.name)
    (hlength : b.payload.length = a.payload.length)
    (hcode : p.utf8 a.name ≠ .ok AttributeName.code)
    (hrecord : p.utf8 a.name ≠ .ok AttributeName.record) (levels : Nat) :
    b.outline p levels = a.outline p levels := by
  cases levels with
  | zero => simp only [outline, hname, hlength]
  | succ levels =>
    simp only [outline, hname, hlength]
    cases hold : p.utf8 a.name with
    | error fault => rfl
    | ok name =>
      rw [hold] at hcode hrecord
      dsimp only
      rw [if_neg (mt (congrArg Except.ok) hcode), if_neg (mt (congrArg Except.ok) hrecord),
        if_neg (mt (congrArg Except.ok) hcode), if_neg (mt (congrArg Except.ok) hrecord)]

namespace Walk

open Layout Reader

variable {α β γ δ : Type} {p : Pool} {f g : Focus Tape}

/-! ## Reading what a walk leaves -/

/-- From where the tape of `f` stands, `R` reads the same in `g`. -/
def ReadsAlike (R : Reader α) (f g : Focus Tape) : Prop :=
  ∃ back, g.item.bytes = f.item.passed.reverse ++ back ∧
    ∀ position, R ⟨position, back⟩ = R ⟨position, f.item.ahead⟩

/-- From `f` to `g` bytes were passed off which `R` reads `a`, before and after. -/
def Rereads (R : Reader α) (a : α) (f g : Focus Tape) : Prop :=
  ∃ front back : List UInt8, f.item.ahead = front ++ g.item.ahead ∧
    g.item.passed = back.reverse ++ f.item.passed ∧ back.length = front.length ∧
    Reads R a front ∧ Reads R a back

/-- From where the edit began, `R` reads the same as before, wherever the edit stops. If the edit
succeeds, it stops where `R` does, with a value related to that of `R`. -/
structure Mirrors (p : Pool) (V : α → β → Prop) (R : Reader α) (e : Edit Tape β) : Prop where
  ok : ∀ ⦃f b g⦄, Pool.Expands p f.pool → e f = .ok b g →
    Pool.Expands p g.pool ∧ ∃ a, V a b ∧ Rereads R a f g
  error : ∀ ⦃f fault g⦄, Pool.Expands p f.pool → e f = .error fault g → ReadsAlike R f g

/-- The value of `R` is any one. -/
abbrev Shows (p : Pool) (R : Reader α) (w : Walk) : Prop := Mirrors p (fun _ _ => True) R w

theorem bytes_eq (f : Focus Tape) : f.item.bytes = f.item.passed.reverse ++ f.item.ahead :=
  List.reverseAux_eq

theorem ReadsAlike.refl (R : Reader α) (f : Focus Tape) : ReadsAlike R f f :=
  ⟨f.item.ahead, bytes_eq f, fun _ => rfl⟩

theorem Rereads.alike {R : Reader α} {a : α} (h : Rereads R a f g) : ReadsAlike R f g := by
  obtain ⟨front, back, hahead, hpassed, hlen, hfront, hback⟩ := h
  refine ⟨back ++ g.item.ahead, ?_, fun position => ?_⟩
  · rw [bytes_eq, hpassed, List.reverse_append, List.reverse_reverse, List.append_assoc]
  · rw [hahead, hfront, hback, hlen]

/-- A walk that fails at once or passes bytes that `R` reads. -/
theorem Shows.of_stateOf {R : Reader α} {w : Walk}
    (h : ∀ f, Pool.Expands p f.pool → (∃ fault, w f = .error fault f) ∨
      Pool.Expands p (stateOf (w f)).pool ∧ ∃ a, Rereads R a f (stateOf (w f))) :
    Shows p R w where
  ok f _ g hp heq := by
    obtain ⟨fault, herror⟩ | ⟨hpool, a, hreads⟩ := h f hp
    · cases heq.symm.trans herror
    · rw [heq] at hpool hreads
      exact ⟨hpool, a, trivial, hreads⟩
  error f _ g hp heq := by
    obtain ⟨fault, herror⟩ | ⟨-, a, hreads⟩ := h f hp
    · cases heq.symm.trans herror
      exact .refl R f
    · rw [heq] at hreads
      exact hreads.alike

namespace Mirrors

variable {V : α → β → Prop} {V' : γ → δ → Prop} {R : Reader α} {R' : α → Reader γ}
  {e : Edit Tape β} {k : β → Edit Tape δ}

protected theorem pure {a : α} {b : β} (h : V a b) : Mirrors p V (pure a) (pure b) where
  ok f _ _ hp heq := by
    obtain ⟨rfl, rfl⟩ := pure_eq_ok.mp heq
    exact ⟨hp, a, h, [], [], rfl, rfl, rfl, reads_pure a, reads_pure a⟩
  error _ _ _ _ heq := nomatch heq

protected theorem throw (fault : Fault) : Mirrors p V R (throw fault) where
  ok _ _ _ _ heq := nomatch heq
  error f _ _ _ heq := by
    cases heq
    exact .refl R f

protected theorem bind (h : Mirrors p V R e) (h' : ∀ a b, V a b → Mirrors p V' (R' a) (k b)) :
    Mirrors p V' (R >>= R') (e >>= k) where
  ok f _ g hp heq := by
    obtain ⟨b, f₁, he, hk⟩ := bind_eq_ok.mp heq
    obtain ⟨hp₁, a, hab, front, back, hahead, hpassed, hlen, hfront, hback⟩ := h.ok hp he
    obtain ⟨hp₂, c, hcd, front', back', hahead', hpassed', hlen', hfront', hback'⟩ :=
      (h' a b hab).ok hp₁ hk
    refine ⟨hp₂, c, hcd, front ++ front', back ++ back', ?_, ?_, ?_, hfront.bind hfront',
      hback.bind hback'⟩
    · rw [hahead, hahead', List.append_assoc]
    · rw [hpassed', hpassed, List.reverse_append, List.append_assoc]
    · rw [List.length_append, List.length_append, hlen, hlen']
  error f _ g hp heq := by
    obtain he | ⟨b, f₁, he, hk⟩ := bind_eq_error.mp heq
    · obtain ⟨back, hbytes, hsame⟩ := h.error hp he
      refine ⟨back, hbytes, fun position => ?_⟩
      change EStateM.bind R R' _ = EStateM.bind R R' _
      simp only [EStateM.bind, hsame]
    · obtain ⟨hp₁, a, hab, front, back, hahead, hpassed, hlen, hfront, hback⟩ := h.ok hp he
      obtain ⟨back', hbytes, hsame⟩ := (h' a b hab).error hp₁ hk
      refine ⟨back ++ back', ?_, fun position => ?_⟩
      · rw [hbytes, hpassed, List.reverse_append, List.reverse_reverse, List.append_assoc]
      · rw [bind_of_ok (hback position back'), hahead, bind_of_ok (hfront position _), hlen, hsame]

end Mirrors

theorem mirrors_take (n : Nat) : Mirrors p (· = ·) (Reader.take n) (pass n) where
  ok f front g hp heq := by
    obtain ⟨rest, hlen, hahead, rfl⟩ := pass_eq_past heq
    exact ⟨hp, front, rfl, front, front, hahead, rfl, rfl, reads_take hlen, reads_take hlen⟩
  error f _ g _ heq := by
    rw [pass_eq_error heq]
    exact .refl _ f

theorem mirrors_word [Word α] :
    Mirrors p (· = ·) (Reader.word : Reader α) (word : Edit Tape α) :=
  (mirrors_take _).bind fun _ _ h => .pure (congrArg Word.ofBytes h)

theorem shows_skip (n : Nat) : Shows p (Reader.skip n) (skip n) :=
  (mirrors_take n).bind fun _ _ _ => .pure trivial

/-- A word that is read may be one that the walk does not look at. -/
theorem shows_word_skip [Word α] : Shows p (Reader.word : Reader α) (skip (Word.width α)) :=
  (mirrors_take _).bind fun _ _ _ => .pure trivial

/-- The word that a walk passes is the one that `R` goes on with. -/
theorem Shows.word_bind [Word β] {R : β → Reader α} {k : β → Walk} (h : ∀ x, Shows p (R x) (k x)) :
    Shows p (Reader.word >>= R) (word >>= k) :=
  mirrors_word.bind fun x _ hx => hx ▸ h x

theorem reads_skip {n : Nat} {front : List UInt8} (h : front.length = n) :
    Reads (Reader.skip n) () front :=
  (reads_take h).map fun _ => ()

theorem word_eq_error [Word α] {fault : Fault} (h : (word : Edit Tape α) f = .error fault g) :
    g = f := by
  obtain hpass | ⟨_, _, -, hpure⟩ := bind_eq_error.mp h
  · exact pass_eq_error hpass
  · cases hpure

/-- What is amended behind an index are its two bytes. -/
theorem item_of_amends {index : UInt16} {rest : List UInt8}
    (h : Tape.Amends 2 (past (Word.bytes index) rest f).item g.item) :
    ∃ back : List UInt8, back.length = 2 ∧ g.item = ⟨back.reverse ++ f.item.passed, rest⟩ := by
  have hword : (Word.bytes index).reverse.length = 2 :=
    List.length_reverse.trans (Word.length_bytes index)
  obtain ⟨back, hlen, hitem⟩ := h (by simp [past, Word.length_bytes, Word.width])
  refine ⟨back.reverse, List.length_reverse.trans hlen, ?_⟩
  rw [hitem, past, List.drop_left' hword, List.reverse_reverse]

theorem Shows.map {R : Reader α} {w : Walk} (h : Shows p R w) (g : α → γ) :
    Shows p (R >>= fun a => pure (g a)) w := by
  have hpure (a : α) : Shows p (pure (g a)) (pure ()) := .pure trivial
  have hbind := h.bind fun a _ _ => hpure a
  rwa [bind_pure_unit] at hbind

/-- A slot is read as two bytes, whatever index it gets. -/
theorem shows_slot {w : Walk} (h : IsSlot Pool.Expands w) : Shows p (Reader.skip 2) w := by
  obtain ⟨e, rfl, he⟩ := h
  refine .of_stateOf fun f hp => ?_
  cases hword : (word : Edit Tape UInt16) f with
  | error fault g =>
    rw [bind_of_error hword, word_eq_error hword]
    exact .inl ⟨fault, rfl⟩
  | ok index g =>
    obtain ⟨rest, hahead, rfl⟩ := word_eq_past hword
    have hstays := (he index).related (past (Word.bytes index) rest f)
    obtain ⟨back, hlen, hitem⟩ := item_of_amends hstays.item
    have hfront : (Word.bytes index).length = 2 := Word.length_bytes index
    rw [bind_of_ok hword]
    exact .inr ⟨hp.trans hstays.pool, (), Word.bytes index, back, by rw [hitem, hahead],
      by rw [hitem], hlen.trans hfront.symm, reads_skip hfront, reads_skip hlen⟩

theorem shows_times {R : Reader α} {w : Walk} (h : Shows p R w) (n : Nat) (done : List α) :
    Shows p (collect R n done) (Edit.times n w) := by
  induction n generalizing done with
  | zero => exact .pure trivial
  | succ n ih => exact h.bind fun a _ _ => ih (a :: done)

theorem Shows.counted {R : Reader α} {w : Walk} (h : Shows p R w) :
    Shows p (Reader.counted R) (counted w) :=
  .word_bind fun n : UInt16 => shows_times h n.toNat []

/-- A part with a size is read through `F`, to which it has to look the same as before. -/
theorem shows_within {F : List UInt8 → α} {n : Nat} {w : Walk}
    (hw : ∀ ⦃part : List UInt8⦄ ⦃f : Focus Tape⦄, f.item = Tape.start part →
      Pool.Expands p f.pool → Pool.Expands p (stateOf (w f)).pool ∧
        (stateOf (w f)).item.bytes.length = part.length ∧
        F (stateOf (w f)).item.bytes = F part) :
    Shows p (Reader.take n >>= fun part => pure (F part)) (within n w) := by
  have read (part : List UInt8) (hlen : part.length = n) :
      Reads (Reader.take n >>= fun part => pure (F part)) (F part) part :=
    (reads_take hlen).map F
  refine .of_stateOf fun f hp => ?_
  cases hpass : pass n f with
  | error fault g =>
    rw [within, Edit.item_bind, bind_of_error hpass, pass_eq_error hpass]
    exact .inl ⟨fault, rfl⟩
  | ok part g =>
    obtain ⟨rest, hlen, hahead, -⟩ := pass_eq_past hpass
    obtain ⟨hpool, hsize, hsame⟩ := hw (f := partOf part f) rfl hp
    rw [within_of_ahead hahead hlen, Edit.stateOf_inside]
    exact .inr ⟨hpool, F part, part, _, hahead, List.reverseAux_eq, hsize, read part hlen,
      hsame ▸ read _ (hsize.trans hlen)⟩

/-! ## Layouts that hold attributes -/

/-- What reads a payload from its start reads the same in what a walk makes of it. -/
theorem Shows.run_eq {R : Reader α} {w : Walk} {payload : List UInt8} (h : Shows p R w)
    (hf : f.item = Tape.start payload) (hp : Pool.Expands p f.pool) :
    R.run (stateOf (w f)).item.bytes = R.run payload := by
  have halike : ReadsAlike R f (stateOf (w f)) := by
    cases hw : w f with
    | ok _ g =>
      obtain ⟨-, a, -, hreads⟩ := h.ok hp hw
      exact hreads.alike
    | error _ g => exact h.error hp hw
  obtain ⟨back, hbytes, hsame⟩ := halike
  have hback : (stateOf (w f)).item.bytes = back := by
    rw [hbytes, hf]
    rfl
  have hread : R ⟨0, back⟩ = R ⟨0, payload⟩ := by rw [hsame, hf, Tape.start]
  rw [hback, Reader.run, Reader.run, Cursor.start, Cursor.start, hread]

section

variable {F : Attribute → Outline} {r : Renaming} {attributes : Walk}

/-- A table is read as before if each payload looks the same under its name. -/
theorem shows_table {payload : String → Walk}
    (h : ∀ ⦃index part⦄ ⦃f : Focus Tape⦄, f.item = Tape.start part → Pool.Expands p f.pool →
      ∀ ⦃name⦄, f.pool.utf8 index = .ok name →
        Pool.Expands p (stateOf (payload name f)).pool ∧
        (stateOf (payload name f)).item.bytes.length = part.length ∧
        F ⟨index, (stateOf (payload name f)).item.bytes⟩ = F ⟨index, part⟩) :
    Shows p (Outline.readTable F) (table payload) := by
  refine Shows.counted ?_
  simp only [Attribute.read, bind_assoc, pure_bind]
  refine .word_bind fun index : UInt16 => .word_bind fun size : UInt32 => shows_within ?_
  intro part f hf hp
  cases hname : f.pool.utf8 index with
  | error fault =>
    rw [Edit.look_bind_error hname]
    exact ⟨hp, by simp [stateOf, hf], by simp [stateOf, hf]⟩
  | ok name =>
    rw [Edit.look_bind hname]
    exact h hf hp hname

theorem shows_code (h : Shows p (Outline.readTable F) attributes) :
    Shows p (Outline.readCode F) (code attributes) := by
  refine (shows_skip 4).bind fun _ _ _ => Shows.word_bind fun size : UInt32 => ?_
  refine (shows_skip _).bind fun _ _ _ => Shows.word_bind fun handlers : UInt16 => ?_
  exact (shows_skip _).bind fun _ _ _ => h

theorem shows_record (h : Shows p (Outline.readTable F) attributes) :
    Shows p (Outline.readRecord F) (record r attributes) := by
  refine Shows.counted ?_
  have hname : Shows p (Reader.word : Reader UInt16) (skip 2) := shows_word_skip
  refine hname.bind fun name _ _ => ?_
  exact (shows_slot (isSlot_descriptorSlot Pool.interns_expands r)).bind fun _ _ _ => h.map _

/-! Below the deepest level there is no table to walk over. -/

theorem shows_payload_code (h : ∀ levels, Shows p (Outline.readTable F)
    (table (payload r levels .ofField))) (levels : Nat) (kind : SymbolKind) :
    Shows p (Outline.readCode F) (payload r levels kind AttributeName.code) := by
  cases levels with
  | zero => exact shows_code (.throw _)
  | succ levels => exact shows_code (h levels)

theorem shows_payload_record (h : ∀ levels, Shows p (Outline.readTable F)
    (table (payload r levels .ofField))) (levels : Nat) (kind : SymbolKind) :
    Shows p (Outline.readRecord F) (payload r levels kind AttributeName.record) := by
  cases levels with
  | zero => exact shows_record (.throw _)
  | succ levels => exact shows_record (h levels)

end

/-- A walk over the payload of an attribute leaves its outline alone, wherever the walk stops. The
induction is on the depth of the outline, not on the levels of the walk. -/
theorem outline_payload (r : Renaming) (depth levels : Nat) (kind : SymbolKind) {index : UInt16}
    {name : String} {part : List UInt8} (hf : f.item = Tape.start part)
    (hp : Pool.Expands p f.pool) (hname : f.pool.utf8 index = .ok name) :
    Attribute.outline p depth ⟨index, (stateOf (payload r levels kind name f)).item.bytes⟩
      = Attribute.outline p depth ⟨index, part⟩ := by
  have hwalks := walks_onward Pool.interns_expands r
  have hsize {f : Focus Tape} {part : List UInt8} (hf : f.item = Tape.start part) (levels : Nat)
      (kind : SymbolKind) (name : String) :
      (stateOf (payload r levels kind name f)).item.bytes.length = part.length :=
    ((hwalks.payload levels kind name).related f).item.length_bytes.trans (by rw [hf]; rfl)
  induction depth generalizing levels kind index name part f with
  | zero => simp only [Attribute.outline, hsize hf]
  | succ depth ih =>
    have htable (levels : Nat) : Shows p (Outline.readTable (Attribute.outline p depth))
        (table (payload r levels .ofField)) :=
      shows_table fun _ _ _ hf hp name hname =>
        ⟨hp.trans ((hwalks.payload levels .ofField name).related _).pool,
          hsize hf levels .ofField name, ih levels .ofField hf hp hname⟩
    simp only [Attribute.outline, hsize hf]
    cases hold : p.utf8 index with
    | error fault => rfl
    | ok old =>
      cases hname.symm.trans (hp.utf8 hold)
      by_cases hcode : name = AttributeName.code
      · subst hcode
        simp only [if_true, (shows_payload_code htable levels kind).run_eq hf hp]
      by_cases hrecord : name = AttributeName.record
      · subst hrecord
        simp only [hcode, if_true, if_false,
          (shows_payload_record htable levels kind).run_eq hf hp]
      · simp only [hcode, hrecord, if_false]

/-- Code that returns at once, with one attribute in it, which is empty. -/
example : Attribute.outline ⟨#[.unusable, .utf8 AttributeName.code], ∅⟩ 2
    ⟨1, [0, 0, 0, 0, 0, 0, 0, 1, 177, 0, 0, 0, 1, 0, 2, 0, 0, 0, 0]⟩
      = .code 1 19 (.ok [.other 2 0]) := rfl

end Walk

end Relabel
