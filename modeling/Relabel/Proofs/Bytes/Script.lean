import Relabel.Bytes.Patch
import Relabel.Pool.Codec
import Relabel.Proofs.Bytes.Reader

/-!
# Scripts of reads

A script asks a cursor for words, byte runs and texts, and may hang on each answer. It may
also try another script, and the cursor goes back if that one fails. Whatever a script does,
its cursor stays inside the data that it was put on. A call finds what stands at its
position, passes its size if it succeeds, and passes nothing if it fails, unless it is for
a text. The induction is on the script, and one lemma for each kind of call carries it.
-/

namespace Relabel

variable {α β : Type} {data : List UInt8}

/-- The cursor is not behind the end of `data`, and what is behind its position is ahead. -/
structure Cursor.StandsIn (data : List UInt8) (c : Cursor) : Prop where
  position_le : c.position ≤ data.length
  rest_eq : c.rest = data.drop c.position

theorem Cursor.standsIn_start (data : List UInt8) : (Cursor.start data).StandsIn data :=
  ⟨Nat.zero_le _, rfl⟩

/-- The answer of a run, without the state that it ends in. -/
def answerOf {ε σ : Type} : EStateM.Result ε σ α → Except ε α
  | .ok a _ => .ok a
  | .error e _ => .error e

/-- What a cursor is asked for, by the type of the answer. -/
inductive Call : Type → Type 1 where
  | word {α : Type} (form : Word α) : Call α
  | take (count : Nat) : Call (List UInt8)
  | text : Call String
  | skip (count : Nat) : Call Unit
  | peek : Call UInt8

namespace Call

def reader : Call α → Reader α
  | .word _ => Reader.word
  | .take count => Reader.take count
  | .text => Reader.text
  | .skip count => Reader.skip count
  | .peek => Reader.peek

/-- What stands at an offset of `data` for the call. All bytes come from slices, which have to lie
inside the data. -/
def find (data : List UInt8) (offset : Nat) : Call α → Except Fault α
  | .word (α := α) _ => (Bytes.slice data offset (Word.width α)).map Word.ofBytes
  | .take count => Bytes.slice data offset count
  | .text => do
    let size : UInt16 := Word.ofBytes (← Bytes.slice data offset 2)
    let bytes ← Bytes.slice data (offset + 2) size.toNat
    match Text.ModifiedUtf8.decode bytes with
    | .ok chars => return chars
    | .error flaw => throw (.malformed flaw)
  | .skip count => (Bytes.slice data offset count).map fun _ => ()
  | .peek => (Bytes.slice data offset 1).map Word.ofBytes

/-- The number of bytes that the call passes if it succeeds. A text has its size in front. -/
def size (data : List UInt8) (offset : Nat) : Call α → Nat
  | .word form => form.width
  | .take count | .skip count => count
  | .text => 2 + valueOf ((data.drop offset).take 2)
  | .peek => 0

/-- Whether the call passes nothing if it fails. -/
def isWhole : Call α → Bool
  | .text => false
  | _ => true

/-- How a call that starts at `before` ends. -/
structure Keeps (data : List UInt8) (call : Call α) (before : Cursor)
    (result : EStateM.Result Fault Cursor α) : Prop where
  starts : before.StandsIn data
  ends : (stateOf result).StandsIn data
  finds : answerOf result = call.find data before.position
  passes : ∀ a after, result = .ok a after →
    after.position = before.position + call.size data before.position
  stays : ∀ fault after, result = .error fault after → call.isWhole → after = before

end Call

/-- A script ends with an answer or with a fault of its own. What it does before may hang on every
answer that it gets and on where the cursor is. -/
inductive Script : Type → Type 1 where
  | done {α : Type} (result : Except Fault α) : Script α
  | look {α : Type} (next : Cursor → Script α) : Script α
  | call {α β : Type} (call : Call β) (next : Except Fault β → Script α) : Script α
  /-- Run a script as a whole or not at all. -/
  | attempt {α β : Type} (inner : Script β) (next : Except Fault β → Script α) : Script α

namespace Script

def reader {α : Type} : Script α → Reader α
  | .done (.ok a) => pure a
  | .done (.error fault) => throw fault
  | .look next => fun c => (next c).reader c
  | .call request next => fun c =>
    let result := request.reader c
    (next (answerOf result)).reader (stateOf result)
  | .attempt inner next => fun c =>
    let result := Reader.atomically inner.reader c
    (next (answerOf result)).reader (stateOf result)

/-- A call or an attempt with the cursor that it starts at and how it ends. -/
inductive Step : Type 1 where
  | call {α : Type} (call : Call α) (before : Cursor) (result : EStateM.Result Fault Cursor α)
  | attempt {α : Type} (inner : Script α) (before : Cursor)
      (result : EStateM.Result Fault Cursor α)

/-- The steps of a run from a cursor, those inside an attempt in front of it. -/
def steps {α : Type} : Script α → Cursor → List Step
  | .done _, _ => []
  | .look next, c => (next c).steps c
  | .call request next, c =>
    let result := request.reader c
    .call request c result :: (next (answerOf result)).steps (stateOf result)
  | .attempt inner next, c =>
    let result := Reader.atomically inner.reader c
    inner.steps c ++ .attempt inner c result :: (next (answerOf result)).steps (stateOf result)

/-- How an attempt that starts at `before` ends. -/
structure Keeps (data : List UInt8) (inner : Script α) (before : Cursor)
    (result : EStateM.Result Fault Cursor α) : Prop where
  starts : before.StandsIn data
  ends : (stateOf result).StandsIn data
  answers : answerOf result = answerOf (inner.reader before)
  commits : ∀ a after, result = .ok a after → after = stateOf (inner.reader before)
  restores : ∀ fault after, result = .error fault after → after = before

def Step.Keeps (data : List UInt8) : Step → Prop
  | .call request before result => request.Keeps data before result
  | .attempt inner before result => inner.Keeps data before result

end Script

/-! ## Calls -/

namespace Cursor.StandsIn

variable {c : Cursor}

/-- A cursor that has passed as many bytes as a slice has. -/
theorem passed {offset count : Nat} {bytes : List UInt8}
    (h : Bytes.slice data offset count = .ok bytes) :
    StandsIn data ⟨offset + count, data.drop (offset + count)⟩ := by
  unfold Bytes.slice at h
  split at h
  case isTrue hin => exact ⟨hin, rfl⟩
  case isFalse => cases h

/-- The bytes ahead are as many as a slice may have. -/
theorem take_eq (h : c.StandsIn data) (count : Nat) :
    Reader.take count c = match Bytes.slice data c.position count with
      | .ok bytes => .ok bytes ⟨c.position + count, data.drop (c.position + count)⟩
      | .error fault => .error fault c := by
  have hle := h.position_le
  have hlen : ((data.drop c.position).take count).length = count
      ↔ c.position + count ≤ data.length := by
    rw [List.length_take, List.length_drop]
    omega
  unfold Reader.take Bytes.slice
  rw [h.rest_eq]
  by_cases hin : c.position + count ≤ data.length
  · rw [if_pos hin]
    simp only [hlen.mpr hin, if_true, List.drop_drop]
  · rw [if_neg hin]
    exact if_neg (mt hlen.mp hin)

/-- A word is read off the slice of its width. -/
theorem word_eq [Word α] (h : c.StandsIn data) :
    (Reader.word : Reader α) c = match Bytes.slice data c.position (Word.width α) with
      | .ok bytes => .ok (Word.ofBytes bytes)
          ⟨c.position + Word.width α, data.drop (c.position + Word.width α)⟩
      | .error fault => .error fault c := by
  have htake := h.take_eq (Word.width α)
  unfold Reader.word
  cases hslice : Bytes.slice data c.position (Word.width α) with
  | ok bytes =>
    rw [hslice] at htake
    exact bind_of_ok htake
  | error fault =>
    rw [hslice] at htake
    exact bind_of_error htake

end Cursor.StandsIn

namespace Call

variable {c : Cursor}

/-- A call that slices `count` bytes off the data and passes them. -/
theorem keeps_of_slice {call : Call α} (h : c.StandsIn data) {count : Nat} {f : List UInt8 → α}
    (hresult : call.reader c = match Bytes.slice data c.position count with
      | .ok bytes => .ok (f bytes) ⟨c.position + count, data.drop (c.position + count)⟩
      | .error fault => .error fault c)
    (hfind : call.find data c.position = (Bytes.slice data c.position count).map f)
    (hsize : call.size data c.position = count) : call.Keeps data c (call.reader c) := by
  rw [hresult]
  cases hslice : Bytes.slice data c.position count with
  | ok bytes =>
    rw [hslice] at hfind
    refine ⟨h, .passed hslice, hfind.symm, ?_, nofun⟩
    rintro _ _ ⟨⟩
    rw [hsize]
  | error fault =>
    rw [hslice] at hfind
    refine ⟨h, h, hfind.symm, nofun, ?_⟩
    rintro _ _ ⟨⟩ -
    rfl

/-- A byte that is looked at is a slice that is not passed. -/
theorem keeps_peek (h : c.StandsIn data) : peek.Keeps data c (Reader.peek c) := by
  have hlen : c.rest.length = data.length - c.position := by rw [h.rest_eq, List.length_drop]
  unfold Reader.peek
  cases hrest : c.rest with
  | nil =>
    have hend : ¬ c.position + 1 ≤ data.length := by
      rw [hrest, List.length_nil] at hlen
      omega
    refine ⟨h, h, ?_, nofun, ?_⟩
    · rw [find, Bytes.slice, if_neg hend]
      rfl
    · rintro _ _ ⟨⟩ -
      rfl
  | cons b rest =>
    have hin : c.position + 1 ≤ data.length := by
      rw [hrest, List.length_cons] at hlen
      omega
    refine ⟨h, h, ?_, ?_, nofun⟩
    · rw [find, Bytes.slice, if_pos hin, ← h.rest_eq, hrest]
      have hb : Word.ofBytes [b] = b := by simp [Word.ofBytes, Word.ofNat, valueOf]
      exact congrArg Except.ok hb.symm
    · rintro _ _ ⟨⟩
      rfl

/-- The size in front of a text, as a number. -/
theorem toNat_size {offset : Nat} {size : List UInt8} (h : Bytes.slice data offset 2 = .ok size) :
    (Word.ofBytes size : UInt16).toNat = valueOf ((data.drop offset).take 2) := by
  unfold Bytes.slice at h
  split at h
  case isFalse => cases h
  case isTrue hin =>
    cases h
    have hlen : ((data.drop offset).take 2).length = 2 := by
      rw [List.length_take, List.length_drop]
      omega
    have hlt := valueOf_lt ((data.drop offset).take 2)
    rw [hlen] at hlt
    exact Word.toNat_ofNat (α := UInt16) _ hlt

/-- The size of a text stays passed if the text itself is cut off or ill-formed. -/
theorem keeps_text (h : c.StandsIn data) : text.Keeps data c (Reader.text c) := by
  have hword := h.word_eq (α := UInt16)
  unfold Reader.text
  cases hsize : Bytes.slice data c.position 2 with
  | error fault =>
    rw [show Word.width UInt16 = 2 from rfl, hsize] at hword
    rw [bind_of_error hword]
    refine ⟨h, h, ?_, nofun, nofun⟩
    rw [find, hsize]
    rfl
  | ok size =>
    rw [show Word.width UInt16 = 2 from rfl, hsize] at hword
    rw [bind_of_ok hword]
    have hmid := Cursor.StandsIn.passed hsize
    have htake := hmid.take_eq (Word.ofBytes size : UInt16).toNat
    have hfind : text.find data c.position = (do
        let bytes ← Bytes.slice data (c.position + 2) (Word.ofBytes size : UInt16).toNat
        match Text.ModifiedUtf8.decode bytes with
        | .ok chars => return chars
        | .error flaw => throw (.malformed flaw)) := by
      rw [find, hsize]
      rfl
    cases hbytes : Bytes.slice data (c.position + 2) (Word.ofBytes size : UInt16).toNat with
    | error fault =>
      rw [hbytes] at htake hfind
      rw [bind_of_error htake]
      refine ⟨h, hmid, ?_, nofun, nofun⟩
      rw [hfind]
      rfl
    | ok bytes =>
      rw [hbytes] at htake hfind
      rw [bind_of_ok htake]
      have hfind : text.find data c.position = match Text.ModifiedUtf8.decode bytes with
        | .ok chars => pure chars
        | .error flaw => throw (.malformed flaw) := hfind
      have hend := Cursor.StandsIn.passed hbytes
      cases hdecode : Text.ModifiedUtf8.decode bytes with
      | error flaw =>
        refine ⟨h, hend, ?_, nofun, nofun⟩
        rw [hfind, hdecode]
        rfl
      | ok chars =>
        refine ⟨h, hend, ?_, ?_, nofun⟩
        · rw [hfind, hdecode]
          rfl
        · rintro _ _ ⟨⟩
          rw [Call.size, ← toNat_size hsize, Nat.add_assoc]

/-- Whatever is asked of a cursor in the data, it stays there. -/
theorem keeps (call : Call α) (h : c.StandsIn data) : call.Keeps data c (call.reader c) := by
  cases call with
  | word form => exact keeps_of_slice h h.word_eq rfl rfl
  | take count =>
    have hfind : (Bytes.slice data c.position count).map id = Bytes.slice data c.position count :=
      Except.map_id ▸ rfl
    exact keeps_of_slice h (h.take_eq count) hfind.symm rfl
  | text => exact keeps_text h
  | skip count =>
    have htake := h.take_eq count
    refine keeps_of_slice h ?_ rfl rfl
    cases hslice : Bytes.slice data c.position count with
    | ok bytes =>
      rw [hslice] at htake
      exact bind_of_ok htake
    | error fault =>
      rw [hslice] at htake
      exact bind_of_error htake
  | peek => exact keeps_peek h

end Call

namespace Script

/-- An attempt that fails leaves the cursor, whatever it did before. -/
theorem keeps_attempt {inner : Script α} {c : Cursor} (h : c.StandsIn data)
    (hinner : (stateOf (inner.reader c)).StandsIn data) :
    inner.Keeps data c (Reader.atomically inner.reader c) := by
  unfold Reader.atomically
  cases hresult : inner.reader c with
  | ok a after =>
    rw [hresult] at hinner
    refine ⟨h, hinner, by rw [hresult], ?_, nofun⟩
    rintro _ _ ⟨⟩
    rw [hresult]
    rfl
  | error fault after =>
    refine ⟨h, h, by rw [hresult]; rfl, nofun, ?_⟩
    rintro _ _ ⟨⟩
    rfl

/-- The induction is on the script, with the cursor that it starts from left open. -/
theorem keeps_from (script : Script α) {c : Cursor} (h : c.StandsIn data) :
    (∀ step ∈ script.steps c, step.Keeps data) ∧ (stateOf (script.reader c)).StandsIn data := by
  induction script generalizing c with
  | done result =>
    refine ⟨nofun, ?_⟩
    cases result with
    | ok a => exact h
    | error fault => exact h
  | look next ih => exact ih c h
  | call request next ih =>
    have hrequest := request.keeps h
    obtain ⟨hsteps, hend⟩ := ih (answerOf (request.reader c)) hrequest.ends
    exact ⟨List.forall_mem_cons.mpr ⟨hrequest, hsteps⟩, hend⟩
  | attempt inner next ihInner ih =>
    obtain ⟨hinside, hinner⟩ := ihInner h
    have hattempt := keeps_attempt h hinner
    obtain ⟨hsteps, hend⟩ := ih (answerOf (Reader.atomically inner.reader c)) hattempt.ends
    refine ⟨fun step hstep => ?_, hend⟩
    rcases List.mem_append.mp hstep with hstep | hstep
    · exact hinside step hstep
    · rcases List.mem_cons.mp hstep with rfl | hstep
      · exact hattempt
      · exact hsteps step hstep

/-- Whatever a script does on any data, its cursor never leaves the data. -/
theorem steps_keep (script : Script α) (data : List UInt8) :
    (∀ step ∈ script.steps (.start data), step.Keeps data) ∧
      (stateOf (script.reader (.start data))).StandsIn data :=
  script.keeps_from (Cursor.standsIn_start data)

/-- The inner attempt passes two bytes and is undone with the outer one, which needs two more. -/
example :
    let pair : Script (List UInt8) := .call (.take 2) .done
    let both : Script (List UInt8) := .attempt (.attempt pair fun _ => pair) .done
    both.reader (.start [0, 1, 2]) = .error .outOfBounds (.start [0, 1, 2]) := rfl

end Script

end Relabel
