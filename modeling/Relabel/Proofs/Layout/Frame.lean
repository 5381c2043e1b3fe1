import Relabel.Proofs.Edit.Member
import Relabel.Proofs.Layout.Outline

/-!
# What edits leave alone in attributes

No edit changes more of an attribute than indices that lead to names. Its payload keeps
its length, the code in it and the outline of the attributes in it. Whether a payload is
code is told by the pool, so attributes are framed beside a pool, and edits are run on
pools that it expands to.
-/

namespace Relabel

/-! ## The head of a code payload -/

/-- How many bytes of a `Code` payload stand in front of its attributes: two sizes, the code and
its length, the exception ranges and their number. -/
def Attribute.codeHeadSize (payload : List UInt8) : Nat :=
  let length : UInt32 := Word.ofBytes ((payload.drop 4).take 4)
  let handlers : UInt16 := Word.ofBytes ((payload.drop (8 + length.toNat)).take 2)
  8 + length.toNat + 2 + 8 * handlers.toNat

/-- The size of the head is told by bytes of the head. -/
theorem Attribute.codeHeadSize_congr {xs ys : List UInt8}
    (h : ys.take (codeHeadSize xs) = xs.take (codeHeadSize xs)) :
    codeHeadSize ys = codeHeadSize xs := by
  have slice {i n : Nat} (hin : i + n ≤ codeHeadSize xs) :
      (ys.drop i).take n = (xs.drop i).take n := by
    have htake := congrArg (List.take (i + n)) h
    rw [List.take_take, List.take_take, Nat.min_eq_left hin] at htake
    rw [List.take_drop, List.take_drop, htake]
  have hsize : 8 + (Word.ofBytes ((xs.drop 4).take 4) : UInt32).toNat + 2 ≤ codeHeadSize xs :=
    Nat.le_add_right _ _
  have hlength : (ys.drop 4).take 4 = (xs.drop 4).take 4 := slice (by omega)
  have hhandlers := slice hsize
  simp only [codeHeadSize, hlength, hhandlers]

namespace Walk

/-- The tape is at position `n` of the payload. -/
def At (payload : List UInt8) (n : Nat) (f : Focus Tape) : Prop :=
  f.item.bytes = payload ∧ f.item.passed.length = n

section

variable {payload : List UInt8} {k n : Nat} {f : Focus Tape} {P : Focus Tape → Prop}

/-- What is passed at a position is known from the payload, and nothing changes if it is not
there. -/
theorem at_pass_bind {e : List UInt8 → Walk} (hf : At payload k f) (hP : P f)
    (he : ∀ g, At payload (k + n) g → P (stateOf (e ((payload.drop k).take n) g))) :
    P (stateOf ((pass n >>= e) f)) := by
  cases hpass : pass n f with
  | error fault g =>
    rw [bind_of_error hpass, pass_eq_error hpass]
    exact hP
  | ok b g =>
    obtain ⟨hlen, hahead, hpassed, -⟩ := pass_eq_ok hpass
    obtain ⟨hbytes, hk⟩ := hf
    have hb : (payload.drop k).take n = b := by
      rw [← hbytes, Tape.bytes, List.reverseAux_eq, List.drop_left' (by simp [hk]), hahead,
        List.take_left' hlen]
    have hg := he g ⟨?_, by simp [hpassed, hlen, hk, Nat.add_comm]⟩
    · rwa [bind_of_ok hpass, ← hb]
    · simp [← hbytes, Tape.bytes, List.reverseAux_eq, hpassed, hahead]

theorem at_skip_bind {e : Unit → Walk} (hf : At payload k f) (hP : P f)
    (he : ∀ g, At payload (k + n) g → P (stateOf (e () g))) : P (stateOf ((skip n >>= e) f)) := by
  rw [skip, bind_assoc]
  exact at_pass_bind hf hP fun g hg => by simpa using he g hg

theorem at_word_bind {α : Type} [Word α] {e : α → Walk} (hf : At payload k f) (hP : P f)
    (he : ∀ g, At payload (k + Word.width α) g →
      P (stateOf (e (Word.ofBytes ((payload.drop k).take (Word.width α))) g))) :
    P (stateOf ((word >>= e) f)) := by
  rw [word, bind_assoc]
  exact at_pass_bind hf hP fun g hg => by simpa using he g hg

end

/-- The head of the code payload stands on the tape. -/
def KeepsHead (payload : List UInt8) (f : Focus Tape) : Prop :=
  f.item.bytes.take (Attribute.codeHeadSize payload)
    = payload.take (Attribute.codeHeadSize payload)

theorem At.keepsHead {payload : List UInt8} {n : Nat} {f : Focus Tape} (hf : At payload n f) :
    KeepsHead payload f := by rw [KeepsHead, hf.1]

/-- A walk over code changes nothing in front of the attributes. -/
theorem code_keepsHead {R : Pool → Pool → Prop} {attributes : Walk}
    (hattributes : Edit.Stays (Tape.Onward 0) R attributes) {payload : List UInt8}
    {f : Focus Tape} (hf : f.item = Tape.start payload) :
    KeepsHead payload (stateOf (code attributes f)) := by
  have h₀ : At payload 0 f := by simp [At, hf, Tape.start, Tape.bytes]
  refine at_skip_bind h₀ h₀.keepsHead fun g₁ h₁ => ?_
  refine at_word_bind h₁ h₁.keepsHead fun g₂ h₂ => ?_
  refine at_skip_bind h₂ h₂.keepsHead fun g₃ h₃ => ?_
  refine at_word_bind h₃ h₃.keepsHead fun g₄ h₄ => ?_
  refine at_skip_bind h₄ h₄.keepsHead fun g₅ h₅ => ?_
  obtain ⟨rest, hrest⟩ := (hattributes.related g₅).1.bytes_eq
  have hsize : g₅.item.passed.length = Attribute.codeHeadSize payload := by
    rw [h₅.2, Attribute.codeHeadSize, Nat.mul_comm 8]
    simp only [Word.width, Nat.zero_add]
  have hbytes := h₅.1
  rw [Tape.bytes, List.reverseAux_eq] at hbytes
  rw [KeepsHead, hrest, ← hsize, List.take_left' (by simp), ← hbytes, List.take_left' (by simp)]

/-- The head of a `Code` payload stays, whatever attributes are in it. -/
theorem payload_keepsHead (r : Renaming) (levels : Nat) (kind : SymbolKind)
    {payload : List UInt8} {f : Focus Tape} (hf : f.item = Tape.start payload) :
    KeepsHead payload (stateOf (Walk.payload r levels kind AttributeName.code f)) := by
  have hwalks := walks_onward (Pool.interns_frame (K := fun _ _ => True)) r
  cases levels with
  | zero => exact code_keepsHead (R := Pool.Grows) Walks.tooDeep hf
  | succ levels => exact code_keepsHead (hwalks.table (hwalks.payload levels .ofField)) hf

end Walk

/-! ## Attributes and members -/

/-- An attribute beside a pool keeps its name, its length, the head of its code and the names, the
order and the lengths of the attributes inside it. -/
structure Attribute.Framed (p : Pool) (a b : Attribute) : Prop where
  name : b.name = a.name
  length : b.payload.length = a.payload.length
  code : p.utf8 a.name = .ok AttributeName.code →
    b.payload.take (codeHeadSize a.payload) = a.payload.take (codeHeadSize a.payload)
  outline : ∀ levels, b.outline p levels = a.outline p levels

/-- A member keeps its access bits, and its attributes are framed. -/
structure Member.Framed (p : Pool) (m m' : Member) : Prop where
  access : m'.access = m.access
  attributes : Pointwise (Attribute.Framed p) m.attributes m'.attributes

section

variable {p : Pool}

instance : IsPreorder Attribute (Attribute.Framed p) where
  refl a := ⟨rfl, rfl, fun _ => rfl, fun _ => rfl⟩
  trans a b c h h' := by
    refine ⟨h'.name.trans h.name, h'.length.trans h.length, ?_,
      fun levels => (h'.outline levels).trans (h.outline levels)⟩
    intro hcode
    have hab := h.code hcode
    have hbc := h'.code (h.name.symm ▸ hcode)
    rw [Attribute.codeHeadSize_congr hab] at hbc
    exact hbc.trans hab

theorem Pointwise.refl {α : Type} {I : α → α → Prop} [IsPreorder α I] (xs : Array α) :
    Pointwise I xs xs := List.forall₂_refl _

instance {α : Type} {I : α → α → Prop} [IsPreorder α I] : IsPreorder (Array α) (Pointwise I) where
  refl := Pointwise.refl
  trans _ _ _ := Pointwise.comp fun _ _ _ => trans_of I

instance : IsPreorder Member (Member.Framed p) where
  refl _ := ⟨rfl, Pointwise.refl _⟩
  trans _ _ _ h h' := ⟨h'.access.trans h.access, trans_of _ h.attributes h'.attributes⟩

end

/-- Where the pool has expanded `p` already, it expands further and the items are related. -/
def Focus.Framed {α : Type} (p : Pool) (I : α → α → Prop) (f g : Focus α) : Prop :=
  Pool.Expands p f.pool → Pool.Expands f.pool g.pool ∧ I f.item g.item

namespace Edit

variable {α β γ : Type} {p : Pool} {I : α → α → Prop} {J : β → β → Prop}

instance [IsPreorder α I] : IsPreorder (Focus α) (Focus.Framed p I) where
  refl f _ := ⟨refl_of _ _, refl_of I _⟩
  trans f g k h h' hp := by
    obtain ⟨hpool, hitem⟩ := h hp
    obtain ⟨hpool', hitem'⟩ := h' (hp.trans hpool)
    exact ⟨hpool.trans hpool', trans_of I hitem hitem'⟩

/-- The edit keeps the frame of items beside `p`. -/
abbrev Frames (p : Pool) (I : α → α → Prop) (e : Edit α β) : Prop := Within (Focus.Framed p I) e

theorem Stays.frames {e : Edit α β} (h : Stays I Pool.Expands e) : Frames p I e :=
  h.mono fun _ _ h _ => ⟨h.2, h.1⟩

theorem frames_inside {view : α → β} {put : β → α → α} {e : Edit β γ} (h : Frames p J e)
    (hput : ∀ a b, J (view a) b → I a (put b a)) : Frames p I (inside view put e) := by
  refine .of_stateOf fun f hp => ?_
  have he := h.related ⟨view f.item, f.pool, f.tally, f.notices⟩ hp
  rw [stateOf_inside]
  exact ⟨he.1, hput _ _ he.2⟩

theorem frames_each [IsPreorder α I] {e : Edit α Unit} (he : Frames p I e) :
    Frames p (Pointwise I) (each e) := by
  refine .of_stateOf fun f hp => ?_
  obtain ⟨hitem, hpool⟩ := each_related (P := fun g => Pool.Expands p g.pool)
    (T := Order.Preimage Focus.pool Pool.Expands) (fun _ _ hg hT => hg.trans hT)
    (fun f hf => (he.related f hf).symm) f hp
  exact ⟨hpool, hitem⟩

variable {r : Renaming} {kind : SymbolKind} {owner : String}

theorem frames_renameAttribute : Frames p (Attribute.Framed p) (renameAttribute r kind) := by
  refine .of_stateOf fun f hp => ?_
  rw [renameAttribute, item_bind]
  cases hname : f.pool.utf8 f.item.name with
  | error fault =>
    rw [look_bind_error hname]
    exact ⟨refl_of _ _, refl_of _ _⟩
  | ok name =>
    rw [look_bind hname, stateOf_inside]
    have hrun := ((Walk.walks_onward Pool.interns_expands r).payload maxNesting kind name).related
      ⟨Tape.start f.item.payload, f.pool, f.tally, f.notices⟩
    refine ⟨hrun.pool, rfl, hrun.item.length_bytes, ?_,
      fun levels => Walk.outline_payload r levels _ _ rfl hp hname⟩
    intro hcode
    cases hname.symm.trans (hp.utf8 hcode)
    exact Walk.payload_keepsHead r _ _ rfl

/-- The payload is edited under one name only, and attributes of this name hold no others. -/
theorem frames_renameEnclosingMethod :
    Frames p (Attribute.Framed p) (renameEnclosingMethod r) := by
  refine .of_stateOf fun f hp => ?_
  rw [renameEnclosingMethod, item_bind]
  cases hname : f.pool.utf8 f.item.name with
  | error fault =>
    rw [look_bind_error hname]
    exact ⟨refl_of _ _, refl_of _ _⟩
  | ok name =>
    rw [look_bind hname]
    split
    case isFalse => exact ⟨refl_of _ _, refl_of _ _⟩
    case isTrue heq =>
      rw [stateOf_inside]
      have hrun := stays_enclosingMethodPayload_onward (r := r) Pool.interns_expands |>.related
        ⟨Tape.start f.item.payload, f.pool, f.tally, f.notices⟩
      have hother (other : String) (hne : AttributeName.enclosingMethod ≠ other) :
          p.utf8 f.item.name ≠ .ok other := by
        intro hold
        cases hname.symm.trans (hp.utf8 hold)
        exact hne heq.symm
      have hcode := hother AttributeName.code (by decide)
      have hrecord := hother AttributeName.record (by decide)
      have hlength := hrun.item.length_bytes
      exact ⟨hrun.pool, rfl, hlength, fun h => absurd h hcode,
        Attribute.outline_congr rfl hlength hcode hrecord⟩

theorem frames_renameMember : Frames p (Member.Framed p) (renameMember r kind owner) := by
  have hattributes : Frames p (Member.Framed p)
      (inside (·.attributes) (fun attributes m => { m with attributes })
        (each (renameAttribute r kind))) :=
    frames_inside (frames_each frames_renameAttribute) fun _ _ h => ⟨rfl, h⟩
  have hname {put : UInt16 → Member → Member} {text text' : String}
      (hput : ∀ index m, Member.Framed p m (put index m)) :
      Frames p (Member.Framed p) (renameText put text text') :=
    Stays.frames (stays_renameText Pool.interns_expands hput)
  refine .bind (Stays.frames within_item) fun m => ?_
  refine .bind (Stays.frames (within_look _)) fun name => ?_
  refine .bind (Stays.frames (within_look _)) fun descriptor => ?_
  refine .bind (Stays.frames (within_ofFlaw _)) fun descriptor' => ?_
  refine .bind (hname fun _ _ => ⟨rfl, refl_of _ _⟩) fun _ => ?_
  refine .bind (hname fun _ _ => ⟨rfl, refl_of _ _⟩) fun _ => ?_
  exact .ite (.bind (Stays.frames (stays_count _)) fun _ => hattributes) hattributes

end Edit

end Relabel
