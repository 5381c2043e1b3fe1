import Mathlib.Data.List.Basic
import Relabel.Descriptor
import Relabel.Proofs.Outcome

/-!
# Reading descriptors

A descriptor is legible if its texts have no `L` and its names no `;`. What is read from a
text is legible and spells that text; a legible descriptor is read back from what it
spells. So a renaming whose names are legible can be repeated, and if its names are final,
nothing is renamed again.
-/

namespace Relabel

/-- The segment ends where its name does. -/
structure Segment.Legible (s : Segment) : Prop where
  text : 'L' ∉ s.text
  name : ';' ∉ s.name

namespace Descriptor

/-- The descriptor can be read back from its characters. -/
structure Legible (d : Descriptor) : Prop where
  segments : ∀ s ∈ d.segments, s.Legible
  tail : 'L' ∉ d.tail

/-! ## What is read -/

mutual

theorem legible_readText {done : List Segment} {text rest : List Char} {d : Descriptor}
    (hdone : ∀ s ∈ done, s.Legible) (htext : 'L' ∉ text)
    (h : readText done text rest = some d) : d.Legible := by
  match rest with
  | [] =>
    rw [readText] at h
    cases h
    exact ⟨fun s hs => hdone s (List.mem_reverse.mp hs), mt List.mem_reverse.mp htext⟩
  | c :: rest =>
    rw [readText] at h
    split at h
    case isTrue =>
      exact legible_readName hdone (mt List.mem_reverse.mp htext) List.not_mem_nil h
    case isFalse hc =>
      exact legible_readText hdone (List.not_mem_cons_of_ne_of_not_mem (Ne.symm hc) htext) h

theorem legible_readName {done : List Segment} {text name rest : List Char} {d : Descriptor}
    (hdone : ∀ s ∈ done, s.Legible) (htext : 'L' ∉ text) (hname : ';' ∉ name)
    (h : readName done text name rest = some d) : d.Legible := by
  match rest with
  | [] => simp [readName] at h
  | c :: rest =>
    rw [readName] at h
    split at h
    case isTrue =>
      refine legible_readText (List.forall_mem_cons.mpr ⟨⟨htext, ?_⟩, hdone⟩) List.not_mem_nil h
      exact mt List.mem_reverse.mp hname
    case isFalse hc =>
      exact legible_readName hdone htext (List.not_mem_cons_of_ne_of_not_mem (Ne.symm hc) hname) h

end

/-! ## Reading back -/

variable {done : List Segment} {text name rest xs : List Char} {d : Descriptor}

theorem readText_append (hxs : 'L' ∉ xs) :
    readText done text (xs ++ rest) = readText done (xs.reverse ++ text) rest := by
  induction xs generalizing text with
  | nil => rfl
  | cons c xs ih =>
    obtain ⟨hc, hxs⟩ := not_or.mp (mt List.mem_cons.mpr hxs)
    rw [List.cons_append, readText, if_neg (Ne.symm hc), ih hxs, List.reverse_cons,
      List.append_assoc, List.singleton_append]

theorem readName_append (hxs : ';' ∉ xs) :
    readName done text name (xs ++ rest) = readName done text (xs.reverse ++ name) rest := by
  induction xs generalizing name with
  | nil => rfl
  | cons c xs ih =>
    obtain ⟨hc, hxs⟩ := not_or.mp (mt List.mem_cons.mpr hxs)
    rw [List.cons_append, readName, if_neg (Ne.symm hc), ih hxs, List.reverse_cons,
      List.append_assoc, List.singleton_append]

theorem readText_segment {s : Segment} (hs : s.Legible) :
    readText done [] (s.chars ++ rest) = readText (s :: done) [] rest := by
  have hchars : s.chars ++ rest = s.text ++ 'L' :: (s.name ++ ';' :: rest) := by
    simp [Segment.chars]
  rw [hchars, readText_append hs.text, readText, if_pos rfl, readName_append hs.name, readName,
    if_pos rfl]
  simp

theorem readText_segments {segments : List Segment} (hs : ∀ s ∈ segments, s.Legible) :
    readText done [] (segments.flatMap Segment.chars ++ rest)
      = readText (segments.reverse ++ done) [] rest := by
  induction segments generalizing done with
  | nil => rfl
  | cons s segments ih =>
    obtain ⟨hs, hsegments⟩ := List.forall_mem_cons.mp hs
    rw [List.flatMap_cons, List.append_assoc, readText_segment hs, ih hsegments,
      List.reverse_cons, List.append_assoc, List.singleton_append]

theorem ofChars?_chars (hd : d.Legible) : ofChars? d.chars = some d := by
  obtain ⟨segments, tail⟩ := d
  have htail : readText (segments.reverse ++ []) [] (tail ++ []) = some ⟨segments, tail⟩ := by
    rw [readText_append hd.tail, readText]
    simp
  rw [List.append_nil tail] at htail
  rw [ofChars?, chars, readText_segments hd.segments, htail]

theorem parse_print (hd : d.Legible) : parse d.print = .ok d := by
  rw [parse, print, String.toList_ofList, ofChars?_chars hd]

theorem parse_eq_ok {text : String} (h : parse text = .ok d) : d.Legible ∧ d.print = text := by
  unfold parse at h
  split at h
  case h_2 => cases h
  case h_1 hread =>
    cases h
    refine ⟨legible_readText (List.forall_mem_nil _) List.not_mem_nil hread, ?_⟩
    rw [print, chars_of_ofChars? hread, String.ofList_toList]

/-! ## Renaming -/

variable {r : Renaming}

theorem Legible.rename (hd : d.Legible)
    (hr : ∀ name : String, ';' ∉ name.toList → ';' ∉ (r.className name).toList) :
    (d.rename r).Legible where
  segments s hs := by
    obtain ⟨t, ht, rfl⟩ := List.mem_map.mp hs
    refine ⟨(hd.segments t ht).text, hr _ ?_⟩
    rw [String.toList_ofList]
    exact (hd.segments t ht).name
  tail := hd.tail

/-- Final names are not renamed again. -/
theorem rename_rename (hr : ∀ name, r.className (r.className name) = r.className name)
    (d : Descriptor) : (d.rename r).rename r = d.rename r := by
  simp only [rename, List.map_map, mk.injEq, and_true]
  refine List.map_congr_left fun s _ => ?_
  simp only [Function.comp_apply, String.ofList_toList, hr]

/-- What stands in front of all names stays in front. -/
theorem head?_chars_rename (r : Renaming) (d : Descriptor) :
    (d.rename r).chars.head? = d.chars.head? := by
  obtain ⟨segments, tail⟩ := d
  cases segments with
  | nil => rfl
  | cons s segments => cases htext : s.text <;> simp [rename, chars, Segment.chars, htext]

end Descriptor

end Relabel
