import Relabel.Proofs.Batch.Targets

/-!
# Reports on whole batches

A report tells of each unit of a batch what becomes of it alone. Recording the outcome of one
more unit keeps that, and so does a whole batch, whatever units stand beside it. A unit is passed
over exactly if its name is not among those that were put into the targets.
-/

namespace Relabel

namespace Outcome

/-- The outcome of a unit by what renaming it gives. -/
def ofResult : Except UnitFault (Option (List UInt8)) → Outcome
  | .ok (some bytes) => .renamed bytes
  | .ok none => .skipped
  | .error fault => .failed fault

def isSkipped : Outcome → Bool
  | .skipped => true
  | _ => false

/-- The bytes of a renamed unit. -/
def bytes? : Outcome → Option (List UInt8)
  | .renamed bytes => some bytes
  | _ => none

/-- The fault of a unit that failed. -/
def fault? : Outcome → Option UnitFault
  | .failed fault => some fault
  | _ => none

/-- Every outcome is of exactly one kind. -/
theorem kinds (outcome : Outcome) : (if outcome.bytes?.isSome then 1 else 0)
    + (if outcome.isSkipped then 1 else 0) + (if outcome.fault?.isSome then 1 else 0) = 1 := by
  cases outcome <;> rfl

end Outcome

namespace Report

section

variable (report : Report) (name : String) (outcome : Outcome)

theorem outcomes_record :
    (report.record name outcome).outcomes = report.outcomes.push (name, outcome) := by
  cases outcome <;> rfl

theorem renamed_record :
    (report.record name outcome).renamed
      = report.renamed + if outcome.bytes?.isSome then 1 else 0 := by
  cases outcome <;> rfl

theorem skipped_record :
    (report.record name outcome).skipped = report.skipped + if outcome.isSkipped then 1 else 0 := by
  cases outcome <;> rfl

theorem failed_record :
    (report.record name outcome).failed
      = report.failed + if outcome.fault?.isSome then 1 else 0 := by
  cases outcome <;> rfl

end

/-- The report lists the outcome that each unit has alone, in order, and counts the units by their
outcomes. -/
structure Tells (alone : String → List UInt8 → Outcome) (units : List (String × List UInt8))
    (report : Report) : Prop where
  outcomes : report.outcomes.toList = units.map fun unit => (unit.1, alone unit.1 unit.2)
  renamed : report.renamed = units.countP fun unit => (alone unit.1 unit.2).bytes?.isSome
  skipped : report.skipped = units.countP fun unit => (alone unit.1 unit.2).isSkipped
  failed : report.failed = units.countP fun unit => (alone unit.1 unit.2).fault?.isSome

variable {alone : String → List UInt8 → Outcome} {units : List (String × List UInt8)}
  {report : Report}

theorem tells_empty (alone : String → List UInt8 → Outcome) : empty.Tells alone [] :=
  ⟨rfl, rfl, rfl, rfl⟩

theorem Tells.record (h : report.Tells alone units) (name : String) (data : List UInt8) :
    (report.record name (alone name data)).Tells alone (units ++ [(name, data)]) where
  outcomes := by
    rw [outcomes_record, Array.toList_push, h.outcomes, List.map_append, List.map_singleton]
  renamed := by
    rw [renamed_record, h.renamed, List.countP_append, List.countP_singleton]
  skipped := by
    rw [skipped_record, h.skipped, List.countP_append, List.countP_singleton]
  failed := by
    rw [failed_record, h.failed, List.countP_append, List.countP_singleton]

theorem Tells.total (h : report.Tells alone units) :
    report.renamed + report.skipped + report.failed = units.length := by
  rw [h.renamed, h.skipped, h.failed]
  clear h
  induction units with
  | nil => rfl
  | cons unit units ih =>
    have hkinds := (alone unit.1 unit.2).kinds
    simp only [List.countP_cons, List.length_cons]
    omega

/-- The units that failed are listed in order. -/
theorem Tells.failures (h : report.Tells alone units) : report.failures
    = units.filterMap fun unit => (alone unit.1 unit.2).fault?.map (unit.1, ·) := by
  rw [Report.failures, h.outcomes, List.filterMap_map]
  congr 1
  funext unit
  dsimp only [Function.comp_apply]
  cases alone unit.1 unit.2 <;> rfl

/-- The renamed units are listed in order. -/
theorem Tells.renamedUnits (h : report.Tells alone units) : report.renamedUnits
    = units.filterMap fun unit => (alone unit.1 unit.2).bytes?.map (unit.1, ·) := by
  rw [Report.renamedUnits, h.outcomes, List.filterMap_map]
  congr 1
  funext unit
  dsimp only [Function.comp_apply]
  cases alone unit.1 unit.2 <;> rfl

end Report

namespace Environment

variable (e : Environment) (targets : Targets) (channels : Channels)

/-- The outcome that a unit has alone. -/
def outcomeAlone (name : String) (data : List UInt8) : Outcome :=
  .ofResult (e.renameUnit targets channels name data).1

theorem outcome_eq (name : String) (data : List UInt8) :
    (e.outcome targets channels name data).1 = e.outcomeAlone targets channels name data := by
  unfold outcome outcomeAlone Outcome.ofResult
  split <;> rename_i h <;> rw [h]

theorem addUnit_eq (state : Report × Array Notice) (unit : String × List UInt8) :
    (e.addUnit targets channels state unit).1
      = state.1.record unit.1 (e.outcomeAlone targets channels unit.1 unit.2) := by
  rw [← outcome_eq]
  rfl

/-- Each unit of a batch adds its own outcome to the report. -/
theorem tells_renameBatch (units : List (String × List UInt8)) :
    (e.renameBatch targets channels units).1.Tells (e.outcomeAlone targets channels) units := by
  have hrun (units : List (String × List UInt8)) (done : List (String × List UInt8))
      (state : Report × Array Notice) (h : state.1.Tells (e.outcomeAlone targets channels) done) :
      (units.foldl (e.addUnit targets channels) state).1.Tells
        (e.outcomeAlone targets channels) (done ++ units) := by
    induction units generalizing done state with
    | nil => rwa [List.append_nil]
    | cons unit units ih =>
      rw [List.foldl_cons, List.append_cons]
      refine ih _ _ ?_
      rw [addUnit_eq]
      exact h.record unit.1 unit.2
  exact hrun units [] (.empty, #[]) (Report.tells_empty _)

variable {targets channels} {name : String} {data : List UInt8}

theorem outcomeAlone_eq_skipped_iff :
    e.outcomeAlone targets channels name data = .skipped ↔ targets.contains name = false := by
  unfold outcomeAlone renameUnit
  cases targets.contains name <;> simp only [Bool.false_eq_true, if_true, if_false]
  · exact iff_of_true rfl trivial
  · split <;> simp [Outcome.ofResult]

theorem outcomeAlone_eq_renamed_iff {bytes : List UInt8} :
    e.outcomeAlone targets channels name data = .renamed bytes ↔
      targets.contains name = true ∧ (e.renameBytes channels data).1 = .ok bytes := by
  unfold outcomeAlone renameUnit
  cases targets.contains name <;> simp only [Bool.false_eq_true, if_true, if_false]
  · simp [Outcome.ofResult]
  · split <;> rename_i h <;> simp [Outcome.ofResult, h]

theorem outcomeAlone_eq_failed_iff {fault : UnitFault} :
    e.outcomeAlone targets channels name data = .failed fault ↔
      targets.contains name = true ∧
        ∃ cause, (e.renameBytes channels data).1 = .error cause ∧ fault = ⟨name, cause⟩ := by
  unfold outcomeAlone renameUnit
  cases targets.contains name <;> simp only [Bool.false_eq_true, if_true, if_false]
  · simp [Outcome.ofResult]
  · split <;> rename_i h <;> simp [Outcome.ofResult, h, eq_comm]

/-- The report on a batch lists what becomes of each unit alone, in order, and counts the units by
that, so a unit has the same outcome wherever it stands in whatever batch. It lists the units that
failed and the renamed ones in order. A unit is passed over exactly if its name, with slashes
between its parts, is none of those that were read off class files or given as targets; else it is
renamed as its bytes alone tell, or fails under its own name. -/
theorem renameBatch_isolates (e : Environment) (channels : Channels)
    (files : List (List UInt8)) (names : List String) (units : List (String × List UInt8)) :
    let targets := (Targets.ofFiles files).1.insertAll names
    let report := (e.renameBatch targets channels units).1
    report.Tells (e.outcomeAlone targets channels) units ∧
    report.renamed + report.skipped + report.failed = units.length ∧
    report.failures = units.filterMap (fun unit =>
      (e.outcomeAlone targets channels unit.1 unit.2).fault?.map (unit.1, ·)) ∧
    report.renamedUnits = units.filterMap (fun unit =>
      (e.outcomeAlone targets channels unit.1 unit.2).bytes?.map (unit.1, ·)) ∧
    (∀ (others : List (String × List UInt8)) (i j : Nat), others[j]? = units[i]? →
      (e.renameBatch targets channels others).1.outcomes[j]? = report.outcomes[i]?) ∧
    ∀ name data,
      let isTarget := ∃ other ∈ Targets.readableNames files ++ names,
        Targets.internalName other = Targets.internalName name
      (e.outcomeAlone targets channels name data = .skipped ↔ ¬ isTarget) ∧
      (∀ bytes, e.outcomeAlone targets channels name data = .renamed bytes ↔
        isTarget ∧ (e.renameBytes channels data).1 = .ok bytes) ∧
      ∀ fault, e.outcomeAlone targets channels name data = .failed fault ↔
        isTarget ∧ ∃ cause, (e.renameBytes channels data).1 = .error cause ∧
          fault = ⟨name, cause⟩ := by
  intro targets report
  have htells := e.tells_renameBatch targets channels units
  refine ⟨htells, htells.total, htells.failures, htells.renamedUnits, fun others i j h => ?_,
    fun name data => ?_⟩
  · have hothers := e.tells_renameBatch targets channels others
    rw [← Array.getElem?_toList, ← Array.getElem?_toList, hothers.outcomes, htells.outcomes,
      List.getElem?_map, List.getElem?_map, h]
  · intro isTarget
    have hcontains : targets.contains name = true ↔ isTarget := by
      rw [Targets.contains_insertAll, Targets.contains_ofFiles, or_comm]
      simp only [isTarget, List.mem_append, or_and_right, exists_or]
    refine ⟨?_, fun bytes => ?_, fun fault => ?_⟩
    · rw [outcomeAlone_eq_skipped_iff, ← hcontains, Bool.not_eq_true]
    · rw [outcomeAlone_eq_renamed_iff, hcontains]
    · rw [outcomeAlone_eq_failed_iff, hcontains]

/-- A class file that is a target by its own name, no target, and two units that are no class files
under names of targets. -/
def mixedBatch : List (String × List UInt8) :=
  [("a/b.C", Targets.mixedFile), ("q/Q", Targets.mixedFile), ("x.Y", [0xCA]), ("a/b/C", [])]

/-- An environment that keeps all names. -/
def uncovering : Environment := ⟨{ Config.production with scope := ⟨[]⟩ }, .empty, false⟩

/-- The class of the file that can be read, and a name that is given. -/
def mixedTargets : Targets := (Targets.ofFiles [[0xCA], Targets.mixedFile]).1.insertAll ["x/Y"]

theorem renameBatch_isolates_mixedBatch :
    mixedBatch.reverse[3]? = mixedBatch[0]? ∧
    (uncovering.renameBatch mixedTargets .empty mixedBatch.reverse).1.outcomes[3]?
      = some ("a/b.C", .renamed Targets.mixedFile) ∧
    (uncovering.renameBatch mixedTargets .empty mixedBatch).1.outcomes.toList
      = [("a/b.C", .renamed Targets.mixedFile), ("q/Q", .skipped),
        ("x.Y", .failed ⟨"x.Y", .outOfBounds⟩), ("a/b/C", .failed ⟨"a/b/C", .outOfBounds⟩)] := by
  obtain ⟨htells, -, -, -, hplace, halone⟩ :=
    renameBatch_isolates uncovering .empty [[0xCA], Targets.mixedFile] ["x/Y"] mixedBatch
  rw [← mixedTargets] at htells hplace halone
  simp only [Targets.readableNames_mixedFile] at halone
  have hread : Targets.internalName "a.b/C" = "a/b/C" := by decide +kernel
  have hgiven : Targets.internalName "x/Y" = "x/Y" := by decide +kernel
  have hfirst : uncovering.outcomeAlone mixedTargets .empty "a/b.C" Targets.mixedFile
      = .renamed Targets.mixedFile :=
    ((halone _ _).2.1 _).mpr
      ⟨⟨"a.b/C", by simp, hread.trans (by decide +kernel)⟩, by decide +kernel⟩
  have hsecond : uncovering.outcomeAlone mixedTargets .empty "q/Q" Targets.mixedFile = .skipped :=
    (halone _ _).1.mpr (by decide +kernel)
  have hthird : uncovering.outcomeAlone mixedTargets .empty "x.Y" [0xCA]
      = .failed ⟨"x.Y", .outOfBounds⟩ :=
    ((halone _ _).2.2 _).mpr ⟨⟨"x/Y", by simp, hgiven.trans (by decide +kernel)⟩, .outOfBounds,
      by decide +kernel, rfl⟩
  have hfourth : uncovering.outcomeAlone mixedTargets .empty "a/b/C" []
      = .failed ⟨"a/b/C", .outOfBounds⟩ :=
    ((halone _ _).2.2 _).mpr ⟨⟨"a.b/C", by simp, hread.trans (by decide +kernel)⟩, .outOfBounds,
      by decide +kernel, rfl⟩
  have houtcomes := htells.outcomes
  simp only [mixedBatch, List.map_cons, List.map_nil, hfirst, hsecond, hthird, hfourth]
    at houtcomes
  refine ⟨rfl, ?_, houtcomes⟩
  rw [hplace mixedBatch.reverse 0 3 rfl, ← Array.getElem?_toList]
  exact congrArg (·[0]?) houtcomes

end Environment

end Relabel
