import Relabel.Batch.Run
import Relabel.Proofs.ClassFile.Written

/-!
# Sets of targets

A set of targets holds a name exactly if one was put into it that is the same with slashes
between its parts. The quick reader of names finds the name of every class file that decodes. So
a set that is made from class files holds the class of each of them, and none of them is passed
over.
-/

namespace Relabel

namespace Targets

variable {t : Targets} {name : String} {names : List String}

/-- A class name with dots between its parts. -/
def dottedName (name : String) : String := name.map fun c => if c = '/' then '.' else c

theorem internalName_dottedName (name : String) :
    internalName (dottedName name) = internalName name := by
  have hchar : (fun c => if c = '.' then '/' else c) ∘ (fun c => if c = '/' then '.' else c)
      = fun c : Char => if c = '.' then '/' else c := by
    funext c
    by_cases hslash : c = '/'
    · rw [hslash]
      rfl
    · rw [Function.comp_apply, if_neg hslash]
  rw [internalName, dottedName, String.map_map, hchar, internalName]

theorem contains_empty (name : String) : empty.contains name = false :=
  Std.TreeSet.contains_emptyc

theorem contains_insert (t : Targets) (other name : String) :
    (t.insert other).contains name = true ↔
      internalName other = internalName name ∨ t.contains name = true := by
  simp [contains, insert, Std.TreeSet.contains_insert]

/-- Put names into a set, one behind the other. -/
def insertAll (t : Targets) (names : List String) : Targets := names.foldl insert t

/-- Only the names that were put into a set are in it, in any way of writing them. -/
theorem contains_insertAll : (t.insertAll names).contains name = true ↔
    (∃ other ∈ names, internalName other = internalName name) ∨ t.contains name = true := by
  induction names generalizing t with
  | nil => simp [insertAll]
  | cons other names ih =>
    have hcons : t.insertAll (other :: names) = (t.insert other).insertAll names := rfl
    rw [hcons, ih, contains_insert]
    simp only [List.mem_cons, exists_eq_or_imp, or_assoc, or_left_comm]

/-! ## Sets that are made from class files -/

/-- The names of the class files that have a readable one. -/
def readableNames (files : List (List UInt8)) : List String :=
  files.filterMap fun data => (ClassFile.peekName data).toOption

theorem addFile_eq (state : Targets × Array Notice) (data : List UInt8) :
    (addFile state data).1 = state.1.insertAll (readableNames [data]) := by
  obtain ⟨t, notices⟩ := state
  unfold addFile readableNames
  cases h : ClassFile.peekName data <;> simp [insertAll, Except.toOption, h]

theorem ofFiles_eq (files : List (List UInt8)) :
    (ofFiles files).1 = empty.insertAll (readableNames files) := by
  have h (state : Targets × Array Notice) :
      (files.foldl addFile state).1 = state.1.insertAll (readableNames files) := by
    induction files generalizing state with
    | nil => rfl
    | cons data files ih =>
      have hcons : readableNames (data :: files)
          = readableNames [data] ++ readableNames files := by
        rw [readableNames, ← List.singleton_append, List.filterMap_append]
        rfl
      rw [List.foldl_cons, ih, addFile_eq, hcons, insertAll, insertAll, insertAll,
        List.foldl_append]
  exact h (empty, #[])

theorem contains_ofFiles {files : List (List UInt8)} : (ofFiles files).1.contains name = true ↔
    ∃ other ∈ readableNames files, internalName other = internalName name := by
  rw [ofFiles_eq, contains_insertAll, contains_empty]
  simp

/-! ## Class files among the targets -/

/-- A unit whose name is a target is renamed or fails. -/
theorem renameUnit_ne_skipped (h : t.contains name = true) (e : Environment) (channels : Channels)
    (data : List UInt8) : (e.renameUnit t channels name data).1 ≠ .ok none := by
  unfold Environment.renameUnit
  rw [if_pos h]
  split <;> simp

/-- The quick reader finds the name of every class file that decodes, so nothing decodes on which it
fails. A set that is made from files holds the class of each of them that decodes, with slashes as
with dots between the parts of its name, and so it is never passed over. -/
theorem holds_of_decode (data : List UInt8) :
    (∀ fault, ClassFile.peekName data = .error fault →
      ∃ fault', ClassFile.decode data = .error fault') ∧
    ∀ c, ClassFile.decode data = .ok c →
      ∃ name, c.name = .ok name ∧ ClassFile.peekName data = .ok name ∧
        ∀ files, data ∈ files → ∀ written ∈ [name, dottedName name],
          (ofFiles files).1.contains written = true ∧
          ∀ (e : Environment) (channels : Channels),
            (e.renameUnit (ofFiles files).1 channels written data).1 ≠ .ok none := by
  constructor
  · intro fault hpeek
    cases hdecode : ClassFile.decode data with
    | error fault' => exact ⟨fault', rfl⟩
    | ok c =>
      obtain ⟨name, hname⟩ := (ClassFile.hasNames_of_decode hdecode).name
      rw [ClassFile.peekName_of_decode hdecode, hname] at hpeek
      cases hpeek
  · intro c hdecode
    obtain ⟨name, hname⟩ := (ClassFile.hasNames_of_decode hdecode).name
    have hpeek : ClassFile.peekName data = .ok name :=
      (ClassFile.peekName_of_decode hdecode).trans hname
    refine ⟨name, hname, hpeek, fun files hfile written hwritten => ?_⟩
    have hinternal : internalName name = internalName written := by
      obtain rfl | rfl := by simpa using hwritten
      · rfl
      · exact (internalName_dottedName name).symm
    have hmem : name ∈ readableNames files :=
      List.mem_filterMap.mpr ⟨data, hfile, by rw [hpeek]; rfl⟩
    have hcontains := contains_ofFiles.mpr ⟨name, hmem, hinternal⟩
    exact ⟨hcontains, fun e channels => renameUnit_ne_skipped hcontains e channels data⟩

/-- A class whose name holds a dot and a slash. -/
def mixedFile : List UInt8 :=
  [0xCA, 0xFE, 0xBA, 0xBE, 0, 0, 0, 52, 0, 3, 1, 0, 5, 97, 46, 98, 47, 67, 7, 0, 1,
    0, 33, 0, 2, 0, 0, 0, 0, 0, 0, 0, 0, 0, 0]

theorem readableNames_mixedFile : readableNames [[0xCA], mixedFile] = ["a.b/C"] := by
  decide +kernel

theorem holds_of_decode_mixedFile :
    (∃ c, ClassFile.decode mixedFile = .ok c ∧ c.name = .ok "a.b/C") ∧
    ∀ written ∈ ["a.b/C", "a.b.C"],
      (ofFiles [[0xCA], mixedFile]).1.contains written = true ∧
      ∀ (e : Environment) (channels : Channels),
        (e.renameUnit (ofFiles [[0xCA], mixedFile]).1 channels written mixedFile).1 ≠ .ok none := by
  obtain ⟨c, hdecode, hnamed⟩ := eq_ok_of_any (ClassFile.decode mixedFile)
    (fun c => decide (c.name = .ok "a.b/C")) (by decide +kernel)
  have hname : c.name = .ok "a.b/C" := of_decide_eq_true hnamed
  obtain ⟨name, hname', -, hholds⟩ := (holds_of_decode mixedFile).2 c hdecode
  cases hname.symm.trans hname'
  have hdotted : dottedName "a.b/C" = "a.b.C" := by decide +kernel
  have hwritten := hholds [[0xCA], mixedFile] (by simp)
  rw [hdotted] at hwritten
  exact ⟨⟨c, hdecode, hname⟩, hwritten⟩

end Targets

end Relabel
