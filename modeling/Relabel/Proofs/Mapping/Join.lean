import Relabel.Mapping.Join

/-!
# What a join knows

A join looks an intermediate name up by its records: the name belongs to a key by the last
intermediate record of that key, and the final name is that of the last final record whose
key the name belongs to.
-/

namespace Relabel.Mapping.Table

section

variable {α β : Type} {xs : List α} {p : α → Bool} {f : α → β}

/-- The last element with a property, if all of them give the same. -/
theorem map_find?_reverse {x : α} (hx : x ∈ xs) (hp : p x = true)
    (h : ∀ y ∈ xs, p y = true → f y = f x) : (xs.reverse.find? p).map f = some (f x) := by
  cases hfind : xs.reverse.find? p with
  | none => exact absurd hp (List.find?_eq_none.mp hfind x (List.mem_reverse.mpr hx))
  | some y =>
    have hy : y ∈ xs := List.mem_reverse.mp (List.mem_of_find?_eq_some hfind)
    exact congrArg some (h y hy (List.find?_some hfind))

theorem exists_of_map_find?_reverse {b : β} (h : (xs.reverse.find? p).map f = some b) :
    ∃ y ∈ xs, p y = true ∧ f y = b := by
  obtain ⟨y, hfind, rfl⟩ := Option.map_eq_some_iff.mp h
  exact ⟨y, List.mem_reverse.mp (List.mem_of_find?_eq_some hfind), List.find?_some hfind, rfl⟩

end

variable {kind : SymbolKind} {name : String}

theorem getElem?_namesByKey (records : Array Record) (key : Key) :
    (namesByKey records)[key]?
      = (records.toList.reverse.find? (·.key = key)).map (·.name) := by
  have h (records : List Record) (names : Std.HashMap Key String) :
      (records.foldl (fun names record => names.insert record.key record.name) names)[key]?
        = ((records.reverse.find? (·.key = key)).map (·.name)).or names[key]? := by
    induction records generalizing names with
    | nil => rfl
    | cons record records ih =>
      rw [List.foldl_cons, ih, List.reverse_cons, List.find?_append, Std.HashMap.getElem?_insert]
      cases records.reverse.find? (·.key = key) with
      | some last => rfl
      | none => by_cases hkey : record.key = key <;> simp [hkey]
  rw [namesByKey, ← Array.foldl_toList, h, Std.HashMap.getElem?_empty, Option.or_none]

theorem get?_insert (t : Table) (k : SymbolKind) (n final : String) :
    (t.insert k n final).get? kind name
      = if k = kind ∧ n = name then some final else t.get? kind name := by
  cases k <;> cases kind <;> simp [insert, get?, entries, Std.HashMap.getElem?_insert]

theorem get?_joinRecord (names : Std.HashMap Key String) (state : Table × Array Notice)
    (record : Record) : (joinRecord names state record).1.get? kind name
      = if record.kind = kind ∧ names[record.key]? = some name then some record.name
        else state.1.get? kind name := by
  obtain ⟨t, notices⟩ := state
  rw [joinRecord]
  cases names[record.key]? with
  | none => cases kind <;> simp [countOrphan, get?, entries]
  | some n =>
    have hcount : ((t.insert record.kind n record.name).countJoined).get? kind name
        = (t.insert record.kind n record.name).get? kind name := by
      cases kind <;> rfl
    simp only [hcount, get?_insert, Option.some.injEq]

theorem get?_foldl_joinRecord (names : Std.HashMap Key String) (records : List Record)
    (state : Table × Array Notice) : (records.foldl (joinRecord names) state).1.get? kind name
      = ((records.reverse.find? fun record => record.kind = kind ∧
          names[record.key]? = some name).map (·.name)).or (state.1.get? kind name) := by
  induction records generalizing state with
  | nil => rfl
  | cons record records ih =>
    rw [List.foldl_cons, ih, get?_joinRecord, List.reverse_cons, List.find?_append]
    cases records.reverse.find? _ with
    | some last => rfl
    | none =>
      by_cases h : record.kind = kind ∧ names[record.key]? = some name
      · simp [h]
      · simp [h]

/-- The last final record of a kind whose key a name belongs to decides on the name. -/
theorem get?_join (intermediate final : Array Record) (kind : SymbolKind) (name : String) :
    (join intermediate final).1.get? kind name
      = (final.toList.reverse.find? fun record => record.kind = kind ∧
          (namesByKey intermediate)[record.key]? = some name).map (·.name) := by
  have hstart (stats : JoinStats) : (Table.mk ∅ ∅ ∅ stats).get? kind name = none := by
    cases kind <;> exact Std.HashMap.getElem?_empty
  unfold join
  rw [← Array.foldl_toList, get?_foldl_joinRecord, hstart, Option.or_none]

end Relabel.Mapping.Table
