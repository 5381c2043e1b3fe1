import Relabel.Proofs.Descriptor.Scan
import Relabel.Proofs.Text.Bytewise

/-!
# Renaming descriptors by byte positions

The names in a descriptor are found by the positions of the `L` and `;` around them, and
the text between the names that change is cut out and copied. Every such cut is defined:
the invariant is that the text is split between characters where the search goes on and
where the copying has come to.
-/

namespace Relabel.Bytewise

section

variable (r : Renaming) (text : String)

/-- Rename the names from byte `search` on. If a name before it changes, `out` is what is written
for the text up to byte `copied`. -/
def descriptorFrom : (limit : Nat) → (out : Option String) → (copied search : Nat) →
    Except (Halt Flaw) String
  | 0, _, _, _ => .error .exhausted
  | limit + 1, out, copied, search => do
    match offset? 'L' (← cut text search text.utf8ByteSize) with
    | none =>
      match out with
      | none => return text
      | some out => return out ++ (← cut text copied text.utf8ByteSize)
    | some found =>
      let start := search + found + 1
      match offset? ';' (← cut text start text.utf8ByteSize) with
      | none => .error (.fault (.unterminatedType text))
      | some length =>
        let stop := start + length
        let name ← cut text start stop
        let name' := r.className name
        if name' ≠ name then
          let front ← cut text copied start
          descriptorFrom limit (some (out.getD "" ++ front ++ name')) stop (stop + 1)
        else descriptorFrom limit out copied (stop + 1)

def descriptor : Except (Halt Flaw) String := descriptorFrom r text (text.length + 1) none 0 0

end

variable {r : Renaming} {text : String} {out : Option String} {kept since xs : List Char}
  {limit : Nat}

open Descriptor

/-- One round of the search, over the next name. -/
theorem descriptorFrom_name {front name rest seen : List Char}
    (h : text.toList = kept ++ (since ++ (front ++ 'L' :: (name ++ ';' :: rest))))
    (hfront : 'L' ∉ front) (hname : ';' ∉ name) (hseen : seen = since ++ (front ++ ['L'])) :
    descriptorFrom r text (limit + 1) out (byteCount kept) (byteCount (kept ++ since)) =
      if r.className (.ofList name) ≠ .ofList name then
        descriptorFrom r text limit
          (some (out.getD "" ++ .ofList seen ++ r.className (.ofList name)))
          (byteCount (kept ++ (seen ++ name))) (byteCount ((kept ++ (seen ++ name)) ++ [';']))
      else descriptorFrom r text limit out (byteCount kept)
        (byteCount (kept ++ (seen ++ name ++ [';']))) := by
  have hL : byteCount ['L'] = 1 := rfl
  have hsemi : byteCount [';'] = 1 := rfl
  have hsearch : cut text (byteCount (kept ++ since)) text.utf8ByteSize
      = (.ok (.ofList (front ++ 'L' :: (name ++ ';' :: rest))) : Except (Halt Flaw) String) :=
    cut_to_end (by rw [h, List.append_assoc]) rfl
  have hsplit : text.toList = (kept ++ seen) ++ (name ++ ';' :: rest) := by
    rw [h, hseen]
    simp
  have hstart : byteCount (kept ++ since) + byteCount front + 1 = byteCount (kept ++ seen) := by
    simp only [hseen, byteCount_append, hL, Nat.add_assoc]
  have hstop : byteCount (kept ++ seen) + byteCount name = byteCount (kept ++ (seen ++ name)) := by
    rw [← byteCount_append, List.append_assoc]
  have hnext : byteCount (kept ++ (seen ++ name)) + 1
      = byteCount ((kept ++ (seen ++ name)) ++ [';']) := by
    rw [byteCount_append _ [';'], hsemi]
  have hbehind : cut text (byteCount (kept ++ seen)) text.utf8ByteSize
      = (.ok (.ofList (name ++ ';' :: rest)) : Except (Halt Flaw) String) := cut_to_end hsplit rfl
  have hcut : cut text (byteCount (kept ++ seen)) (byteCount (kept ++ (seen ++ name)))
      = (.ok (.ofList name) : Except (Halt Flaw) String) := cut_of_split hsplit rfl hstop.symm
  have hcopy : cut text (byteCount kept) (byteCount (kept ++ seen))
      = (.ok (.ofList seen) : Except (Halt Flaw) String) :=
    cut_of_split (by rw [hsplit, List.append_assoc]) rfl (byteCount_append kept seen)
  rw [descriptorFrom.eq_def]
  simp only [hsearch, ok_bind, offset?_first hfront, hstart, hbehind, offset?_first hname, hstop,
    hcut, hcopy, hnext, List.append_assoc]

/-- Behind a name the text is shorter. -/
theorem lt_of_name {front name rest : List Char}
    (h : (front ++ 'L' :: (name ++ ';' :: rest)).length < limit + 1) : rest.length < limit := by
  simp only [List.length_append, List.length_cons] at h
  omega

theorem chars_rename_cons {front name tail : List Char} {segments : List Segment} :
    (Descriptor.rename r ⟨⟨front, name⟩ :: segments, tail⟩).chars
      = front ++ 'L' :: ((r.className (.ofList name)).toList
        ++ ';' :: (Descriptor.rename r ⟨segments, tail⟩).chars) := by
  simp [Descriptor.rename, chars, Segment.chars]

/-- What is written for the text from where the copying has come to. -/
theorem descriptorFrom_of_scanned {segments : List Segment} {tail : List Char}
    (hscan : Scanned xs segments tail) (h : text.toList = kept ++ (since ++ xs))
    (hout : out = none → kept = []) (hlimit : xs.length < limit) :
    descriptorFrom r text limit out (byteCount kept) (byteCount (kept ++ since)) =
      .ok (out.getD "" ++ .ofList (since ++ (Descriptor.rename r ⟨segments, tail⟩).chars)) := by
  induction hscan generalizing limit out kept since with
  | @tail tail htail =>
    obtain _ | limit := limit
    · exact absurd hlimit (Nat.not_lt_zero _)
    have hsearch : cut text (byteCount (kept ++ since)) text.utf8ByteSize
        = (.ok (.ofList tail) : Except (Halt Flaw) String) :=
      cut_to_end (by rw [h, List.append_assoc]) rfl
    have hcopy : cut text (byteCount kept) text.utf8ByteSize
        = (.ok (.ofList (since ++ tail)) : Except (Halt Flaw) String) := cut_to_end h rfl
    rw [descriptorFrom.eq_def]
    simp only [hsearch, ok_bind, offset?_eq_none htail, hcopy]
    cases out with
    | none =>
      rw [hout rfl, List.nil_append] at h
      have htext : text = .ofList (since ++ tail) := by rw [← h, String.ofList_toList]
      rw [htext]
      exact congrArg Except.ok String.empty_append.symm
    | some out => rfl
  | @name front name rest tail segments hfront hname _ ih =>
    obtain _ | limit := limit
    · exact absurd hlimit (Nat.not_lt_zero _)
    rw [descriptorFrom_name h hfront hname rfl, chars_rename_cons]
    by_cases hne : r.className (.ofList name) = .ofList name
    · rw [if_neg (not_not_intro hne), ih (by simp [h]) hout (lt_of_name hlimit), hne]
      simp
    · rw [if_pos hne]
      refine (ih ?_ ?_ (lt_of_name hlimit)).trans ?_
      · simp [h]
      · exact nofun
      · simp [String.ofList_append, String.append_assoc]

theorem descriptorFrom_of_endsInName (hscan : EndsInName xs)
    (h : text.toList = kept ++ (since ++ xs)) (hlimit : xs.length < limit) :
    descriptorFrom r text limit out (byteCount kept) (byteCount (kept ++ since)) =
      .error (.fault (.unterminatedType text)) := by
  induction hscan generalizing limit out kept since with
  | @here front name hfront hname =>
    obtain _ | limit := limit
    · exact absurd hlimit (Nat.not_lt_zero _)
    have hL : byteCount ['L'] = 1 := rfl
    have hsearch : cut text (byteCount (kept ++ since)) text.utf8ByteSize
        = (.ok (.ofList (front ++ 'L' :: name)) : Except (Halt Flaw) String) :=
      cut_to_end (by rw [h, List.append_assoc]) rfl
    have hbehind : cut text (byteCount (kept ++ since) + byteCount front + 1) text.utf8ByteSize
        = (.ok (.ofList name) : Except (Halt Flaw) String) := by
      have hsplit : text.toList = (kept ++ since ++ front ++ ['L']) ++ name := by simp [h]
      refine cut_to_end hsplit ?_
      simp only [byteCount_append, hL]
    rw [descriptorFrom.eq_def]
    simp only [hsearch, ok_bind, offset?_first hfront, hbehind, offset?_eq_none hname]
  | @behind front name rest hfront hname _ ih =>
    obtain _ | limit := limit
    · exact absurd hlimit (Nat.not_lt_zero _)
    rw [descriptorFrom_name h hfront hname rfl]
    split
    · exact ih (by simp [h]) (lt_of_name hlimit)
    · exact ih (by simp [h]) (lt_of_name hlimit)

/-- Every cut that the renaming of a descriptor takes is defined, and its result is that of the
renaming by segments. -/
theorem descriptor_eq (r : Renaming) (text : String) :
    descriptor r text = (r.descriptor text).mapError .fault := by
  have hsplit : text.toList = [] ++ ([] ++ text.toList) := rfl
  have hlimit : text.toList.length < text.length + 1 := by
    rw [String.length_toList]
    exact Nat.lt_succ_self _
  obtain ⟨segments, tail, hscan⟩ | hscan := scanned_or_endsInName text.toList
  · have hrun : descriptor r text =
        .ok ("" ++ .ofList (Descriptor.rename r ⟨segments, tail⟩).chars) :=
      descriptorFrom_of_scanned hscan hsplit (fun _ => rfl) hlimit
    rw [hrun, r.descriptor_eq_ok_iff.mpr ⟨segments, tail, hscan, rfl⟩, String.empty_append]
    rfl
  · rw [r.descriptor_eq_error_iff.mpr ⟨hscan, rfl⟩]
    exact descriptorFrom_of_endsInName hscan hsplit hlimit

/-- Characters of two and four bytes stand around the name. -/
example : descriptor { Renaming.identity with className := fun _ => "B" } "é[LA;𝔸"
    = .ok "é[LB;𝔸" := by decide +kernel

end Relabel.Bytewise
