import Mathlib.Data.Finset.Card
import Relabel.Proofs.Mapping.Join

/-!
# What a joined table holds

The table holds an entry for an intermediate name exactly if some final record was joined
under that name, and the last such record of the kind gives the final name. Each kind has a
map of its own, which the records of the other kinds leave alone, and the statistics count
the final records by whether their key has an intermediate record.
-/

namespace Relabel.Mapping

/-- `record` is the last one of the records with the property `P`. -/
def IsLast (P : Record → Prop) (records : List Record) (record : Record) : Prop :=
  P record ∧ ∃ front back, records = front ++ record :: back ∧ ∀ later ∈ back, ¬ P later

/-- The last record of the key has the name. -/
def IsLastName (records : Array Record) (key : Key) (name : String) : Prop :=
  ∃ record, IsLast (·.key = key) records.toList record ∧ record.name = name

section

variable {P : Record → Prop} [DecidablePred P] {records : List Record} {record : Record}

theorem find?_reverse_eq_some_iff :
    records.reverse.find? (fun record => decide (P record)) = some record ↔
      IsLast P records record := by
  rw [List.find?_eq_some_iff_append, decide_eq_true_iff, IsLast]
  simp only [Bool.not_eq_true', decide_eq_false_iff_not]
  constructor
  · rintro ⟨hP, back, front, hrecords, hback⟩
    refine ⟨hP, front.reverse, back.reverse, ?_, fun later h => hback later (List.mem_reverse.mp h)⟩
    rw [← List.reverse_reverse records, hrecords]
    simp
  · rintro ⟨hP, front, back, rfl, hback⟩
    refine ⟨hP, back.reverse, front.reverse, by simp, fun later h => hback later ?_⟩
    exact List.mem_reverse.mp h

/-- Some record has the property exactly if there is a last one. -/
theorem exists_isLast_iff : (∃ record, IsLast P records record) ↔ ∃ record ∈ records, P record := by
  constructor
  · rintro ⟨record, hP, front, back, rfl, -⟩
    exact ⟨record, by simp, hP⟩
  · rintro ⟨record, hmem, hP⟩
    have hfind : (records.reverse.find? fun record => decide (P record)).isSome := by
      rw [List.find?_isSome]
      exact ⟨record, List.mem_reverse.mpr hmem, decide_eq_true hP⟩
    obtain ⟨last, hlast⟩ := Option.isSome_iff_exists.mp hfind
    exact ⟨last, find?_reverse_eq_some_iff.mp hlast⟩

end

namespace Table

variable {kind : SymbolKind} {key : Key} {name : String} (intermediate final : Array Record)

theorem getElem?_namesByKey_eq_some_iff :
    (namesByKey intermediate)[key]? = some name ↔ IsLastName intermediate key name := by
  rw [getElem?_namesByKey, Option.map_eq_some_iff]
  simp only [find?_reverse_eq_some_iff, IsLastName]

theorem isSome_getElem?_namesByKey (key : Key) :
    (namesByKey intermediate)[key]?.isSome = intermediate.any (·.key = key) := by
  rw [getElem?_namesByKey, Option.isSome_map, Bool.eq_iff_iff, List.find?_isSome,
    Array.any_eq_true']
  simp

/-! ## Entries -/

/-- The last record that was joined under a name gives its final name. -/
theorem get?_join_eq_some_iff {final' : String} :
    (join intermediate final).1.get? kind name = some final' ↔
      ∃ record, IsLast (fun record => record.kind = kind ∧
        IsLastName intermediate record.key name) final.toList record ∧ record.name = final' := by
  rw [get?_join, Option.map_eq_some_iff]
  simp only [find?_reverse_eq_some_iff, getElem?_namesByKey_eq_some_iff]

/-- The map of a kind has as many entries as there are names under which records were joined. -/
theorem exists_size_join (kind : SymbolKind) : ∃ names : Finset String,
    (∀ name, name ∈ names ↔ ∃ record ∈ final, record.kind = kind ∧
      IsLastName intermediate record.key name) ∧
    (join intermediate final).1.size kind = names.card := by
  classical
  let entries := (join intermediate final).1.entries kind
  have hnodup : entries.keys.Nodup :=
    entries.distinct_keys.imp fun h => by simpa using h
  refine ⟨entries.keys.toFinset, fun name => ?_, ?_⟩
  · have hmem : name ∈ entries ↔
        ∃ final', (join intermediate final).1.get? kind name = some final' := by
      rw [Std.HashMap.mem_iff_isSome_getElem?, Option.isSome_iff_exists]
      rfl
    rw [List.mem_toFinset, Std.HashMap.mem_keys, hmem]
    simp only [get?_join_eq_some_iff]
    rw [exists_comm]
    simp only [exists_and_left, exists_eq', and_true]
    rw [exists_isLast_iff]
    simp only [Array.mem_toList_iff]
  · rw [List.toFinset_card_of_nodup hnodup, Std.HashMap.length_keys]
    rfl

/-! ## Kinds -/

section

variable {names names' : Std.HashMap Key String} {state : Table × Array Notice} {record : Record}

theorem entries_joinRecord : (joinRecord names state record).1.entries kind
    = if record.kind = kind then
        match names[record.key]? with
        | some name => (state.1.entries kind).insert name record.name
        | none => state.1.entries kind
      else state.1.entries kind := by
  obtain ⟨t, notices⟩ := state
  unfold joinRecord
  cases names[record.key]? <;> cases h : record.kind <;> cases kind <;> rfl

/-- Records of another kind leave the map of a kind alone, and so do their intermediate names. -/
theorem entries_foldl_joinRecord
    (hnames : ∀ key : Key, key.kind = kind → names[key]? = names'[key]?)
    (records : List Record) {state' : Table × Array Notice}
    (hstate : state.1.entries kind = state'.1.entries kind) :
    (records.foldl (joinRecord names) state).1.entries kind
      = ((records.filter (·.kind = kind)).foldl (joinRecord names') state').1.entries kind := by
  induction records generalizing state state' with
  | nil => exact hstate
  | cons record records ih =>
    rw [List.foldl_cons]
    by_cases hkind : record.kind = kind
    · rw [List.filter_cons_of_pos (by simpa using hkind), List.foldl_cons]
      refine ih ?_
      rw [entries_joinRecord, entries_joinRecord, hstate, hnames record.key hkind]
    · rw [List.filter_cons_of_neg (by simpa using hkind)]
      refine ih ?_
      rw [entries_joinRecord, if_neg hkind, hstate]

end

theorem getElem?_namesByKey_filter (hkey : key.kind = kind) :
    (namesByKey (intermediate.filter (·.kind = kind)))[key]? = (namesByKey intermediate)[key]? := by
  rw [getElem?_namesByKey, getElem?_namesByKey, Array.toList_filter, ← List.filter_reverse,
    List.find?_filter]
  congr 2
  funext record
  by_cases h : record.key = key
  · simp [h, Record.kind, hkey]
  · simp [h]

/-- The map of a kind depends on the records of that kind alone. -/
theorem entries_join_filter (kind : SymbolKind) : (join intermediate final).1.entries kind
    = (join (intermediate.filter (·.kind = kind))
        (final.filter (·.kind = kind))).1.entries kind := by
  unfold join
  rw [← Array.foldl_toList, ← Array.foldl_toList, Array.toList_filter]
  refine entries_foldl_joinRecord (fun key hkey => ?_) _ ?_
  · exact (getElem?_namesByKey_filter intermediate hkey).symm
  · cases kind <;> rfl

/-! ## Statistics -/

theorem stats_insert (t : Table) (name final' : String) :
    (t.insert kind name final').stats = t.stats := by
  cases kind <;> rfl

theorem stats_foldl_joinRecord (names : Std.HashMap Key String) (records : List Record)
    (state : Table × Array Notice) : (records.foldl (joinRecord names) state).1.stats
      = { state.1.stats with
          joined := state.1.stats.joined + records.countP fun record => names[record.key]?.isSome
          orphaned := state.1.stats.orphaned
            + records.countP fun record => !names[record.key]?.isSome } := by
  induction records generalizing state with
  | nil => rfl
  | cons record records ih =>
    obtain ⟨t, notices⟩ := state
    rw [List.foldl_cons, ih, joinRecord]
    simp only [List.countP_cons]
    cases names[record.key]? with
    | none =>
      simp only [countOrphan, Option.isSome_none, Bool.not_false, Bool.false_eq_true, if_true,
        if_false, JoinStats.mk.injEq, true_and]
      omega
    | some name =>
      simp only [countJoined, stats_insert, Option.isSome_some, Bool.not_true, Bool.false_eq_true,
        if_true, if_false, JoinStats.mk.injEq, true_and]
      omega

theorem stats_join : (join intermediate final).1.stats =
    { intermediate := intermediate.size
      final := final.size
      joined := final.countP fun record => intermediate.any (·.key = record.key)
      orphaned := final.countP fun record => !intermediate.any (·.key = record.key) } := by
  unfold join
  rw [← Array.foldl_toList, stats_foldl_joinRecord]
  simp only [isSome_getElem?_namesByKey, Array.countP_toList, Nat.zero_add]

/-- The table of a join, by its lookups, its statistics and its sizes, kind by kind. -/
theorem join_table :
    (∀ kind name final', (join intermediate final).1.get? kind name = some final' ↔
      ∃ record, IsLast (fun record => record.kind = kind ∧
        IsLastName intermediate record.key name) final.toList record ∧ record.name = final') ∧
    (join intermediate final).1.stats =
      { intermediate := intermediate.size
        final := final.size
        joined := final.countP fun record => intermediate.any (·.key = record.key)
        orphaned := final.countP fun record => !intermediate.any (·.key = record.key) } ∧
    (join intermediate final).1.stats.joined + (join intermediate final).1.stats.orphaned
      = final.size ∧
    (∀ kind, ∃ names : Finset String,
      (∀ name, name ∈ names ↔ ∃ record ∈ final, record.kind = kind ∧
        IsLastName intermediate record.key name) ∧
      (join intermediate final).1.size kind = names.card) ∧
    (∀ kind, (join intermediate final).1.entries kind = (join
      (intermediate.filter (·.kind = kind)) (final.filter (·.kind = kind))).1.entries kind) := by
  refine ⟨fun _ _ _ => get?_join_eq_some_iff intermediate final, stats_join intermediate final, ?_,
    exists_size_join intermediate final, entries_join_filter intermediate final⟩
  have hsplit : final.size = _ := Array.size_eq_countP_add_countP
    (p := fun record => intermediate.any (·.key = record.key))
  simp only [Bool.not_eq_true, Bool.decide_eq_false] at hsplit
  rw [stats_join]
  exact hsplit.symm

end Table

end Relabel.Mapping
