import Relabel.Proofs.Edit.Shallow
import Relabel.Proofs.Layout.Attribute
import Relabel.Proofs.Layout.Dive

/-!
# The nesting of payloads

A walk with a counter does what the walk without one does that is given as many levels as the
counter has up to its limit. This is shown for any number of levels that is not above the limit:
then a walk that has fewer levels ends as the one with the counter does, or it is rejected,
and then the one with the counter makes a call below these levels.
-/

namespace Relabel.Dive

variable {α β : Type} {limit level depth : Nat} {calls : List Call} {s : Site}

/-! ## Outcomes -/

/-- The outcome of a walk without a counter, with the counter and the calls behind it. -/
def outcome (result : EStateM.Result Fault (Focus Tape) α) (depth : Nat) (calls : List Call) :
    EStateM.Result Stop Site α :=
  match result with
  | .ok a focus => .ok a ⟨focus, depth, calls⟩
  | .error fault focus => .error (.fault fault) ⟨focus, depth, calls⟩

theorem lift_eq (e : Edit Tape α) (s : Site) :
    lift e s = outcome (e s.focus) s.depth s.calls := rfl

@[simp] theorem stateOf_outcome (result : EStateM.Result Fault (Focus Tape) α) :
    stateOf (outcome result depth calls) = ⟨stateOf result, depth, calls⟩ := by
  cases result <;> rfl

section

variable {ε σ : Type}

@[simp] theorem stateOf_mapState (change : σ → σ) (result : EStateM.Result ε σ α) :
    stateOf (mapState change result) = change (stateOf result) := by
  cases result <;> rfl

theorem rejected_mapState {change : σ → σ} {result : EStateM.Result Fault σ α} :
    Rejected (mapState change result) ↔ Rejected result := by
  cases result with
  | ok a s =>
    constructor
    · rintro ⟨_, ⟨⟩⟩
    · rintro ⟨_, ⟨⟩⟩
  | error fault s =>
    constructor
    · rintro ⟨_, ⟨⟩⟩
      exact ⟨_, rfl⟩
    · rintro ⟨_, ⟨⟩⟩
      exact ⟨_, rfl⟩

end

theorem mapState_outcome (change : Focus Tape → Focus Tape)
    (result : EStateM.Result Fault (Focus Tape) α) :
    mapState (onFocus change) (outcome result depth calls)
      = outcome (mapState change result) depth calls := by
  cases result <;> rfl

theorem edit_inside_eq (view : Tape → Tape) (put : Tape → Tape → Tape) (y : Walk)
    (f : Focus Tape) : Edit.inside view put y f
      = mapState (onTape (put · f.item)) (y (onTape view f)) := by
  obtain ⟨t, pool, tally, notices⟩ := f
  simp only [Edit.inside, onTape]
  cases y ⟨view t, pool, tally, notices⟩ <;> rfl

/-- What a walk with a counter, that started with the given calls, has to do with one that may go
down to `level`. The former goes no further down, and then both end alike, or the latter is
rejected. Both end alike anyway if the level is the limit. -/
inductive Tracked (limit level depth : Nat) (calls : List Call) :
    EStateM.Result Stop Site α → EStateM.Result Fault (Focus Tape) α → Prop
  | alike {new : List Call} {y : EStateM.Result Fault (Focus Tape) α}
    (hbalanced : ∀ call ∈ new, call.Balanced limit) (hlevel : ∀ call ∈ new, call.level ≤ level)
    (hy : ¬ Rejected y) : Tracked limit level depth calls (outcome y depth (new ++ calls)) y
  | deeper {new : List Call} {x : EStateM.Result Stop Site α}
    {y : EStateM.Result Fault (Focus Tape) α}
    (hbalanced : ∀ call ∈ new, call.Balanced limit) (hlevel : ∃ call ∈ new, level < call.level)
    (hx : (stateOf x).depth = depth ∧ (stateOf x).calls = new ++ calls)
    (hy : Rejected y) (hlimit : level = limit → x = outcome y depth (new ++ calls)) :
    Tracked limit level depth calls x y

/-- At the given depth the walks do what `Tracked` says. -/
def Tracks (limit level depth : Nat) (x : Dive α) (y : Edit Tape α) : Prop :=
  ∀ s : Site, s.depth = depth → Tracked limit level depth s.calls (x s) (y s.focus)

/-- Whatever the walk without a counter does, the calls are balanced. -/
theorem Tracked.balanced {x : EStateM.Result Stop Site α}
    {y : EStateM.Result Fault (Focus Tape) α} (h : Tracked limit level depth calls x y) :
    ∃ new, (∀ call ∈ new, call.Balanced limit) ∧ (stateOf x).depth = depth ∧
      (stateOf x).calls = new ++ calls := by
  cases h with
  | alike hbalanced hlevel hy =>
    rw [stateOf_outcome]
    exact ⟨_, hbalanced, rfl, rfl⟩
  | deeper hbalanced hlevel hx hy hlimit => exact ⟨_, hbalanced, hx⟩

/-- What was called before the walk started. -/
theorem Tracked.after {x : EStateM.Result Stop Site α} {y : EStateM.Result Fault (Focus Tape) α}
    {before : List Call} (h : Tracked limit level depth (before ++ calls) x y)
    (hbalanced : ∀ call ∈ before, call.Balanced limit)
    (hlevel : ∀ call ∈ before, call.level ≤ level) : Tracked limit level depth calls x y := by
  cases h with
  | @alike new _ hbalanced' hlevel' hy =>
    rw [← List.append_assoc]
    exact .alike (List.forall_mem_append.mpr ⟨hbalanced', hbalanced⟩)
      (List.forall_mem_append.mpr ⟨hlevel', hlevel⟩) hy
  | @deeper new _ _ hbalanced' hlevel' hx hy hlimit =>
    rw [← List.append_assoc] at hx hlimit
    obtain ⟨call, hcall, hlt⟩ := hlevel'
    exact .deeper (List.forall_mem_append.mpr ⟨hbalanced', hbalanced⟩)
      ⟨call, List.mem_append_left before hcall, hlt⟩ hx hy hlimit

theorem Tracked.mapState {x : EStateM.Result Stop Site α} {y : EStateM.Result Fault (Focus Tape) α}
    (h : Tracked limit level depth calls x y) (change : Focus Tape → Focus Tape) :
    Tracked limit level depth calls (mapState (onFocus change) x) (mapState change y) := by
  cases h with
  | alike hbalanced hlevel hy =>
    rw [mapState_outcome]
    exact .alike hbalanced hlevel (mt rejected_mapState.mp hy)
  | deeper hbalanced hlevel hx hy hlimit =>
    refine .deeper hbalanced hlevel ?_ (rejected_mapState.mpr hy) fun h => ?_
    · rw [stateOf_mapState]
      exact hx
    · rw [hlimit h, mapState_outcome]

namespace Tracks

theorem lift {e : Edit Tape α} (h : Shallow e) : Tracks limit level depth (lift e) e := by
  rintro s rfl
  rw [lift_eq]
  exact .alike (List.forall_mem_nil _) (List.forall_mem_nil _) (h s.focus)

theorem pure (a : α) : Tracks limit level depth (pure a) (pure a) := lift (Shallow.pure a)

theorem bind {x : Dive α} {y : Edit Tape α} {f : α → Dive β} {g : α → Edit Tape β}
    (hx : Tracks limit level depth x y) (hf : ∀ a, Tracks limit level depth (f a) (g a)) :
    Tracks limit level depth (x >>= f) (y >>= g) := by
  intro s hs
  have hstart := hx s hs
  generalize hxs : x s = run at hstart
  generalize hys : y s.focus = run' at hstart
  cases hstart with
  | @alike new _ hbalanced hlevel hy =>
    cases run' with
    | ok a focus =>
      rw [bind_of_ok hxs, bind_of_ok hys]
      exact (hf a ⟨focus, depth, new ++ s.calls⟩ rfl).after hbalanced hlevel
    | error fault focus =>
      rw [bind_of_error hxs, bind_of_error hys]
      refine .alike (y := .error fault focus) hbalanced hlevel ?_
      rintro ⟨f', ⟨⟩⟩
      exact hy ⟨_, rfl⟩
  | @deeper new _ _ hbalanced hlevel hend hy hlimit =>
    obtain ⟨f', rfl⟩ := hy
    rw [bind_of_error hys]
    cases run with
    | ok a t =>
      -- at the limit the walk with the counter is rejected as well
      have hne : level ≠ limit := fun h => nomatch hlimit h
      obtain ⟨new', hbalanced', hdepth, hcalls⟩ := (hf a t hend.1).balanced
      have hall : ∀ call ∈ new' ++ new, call.Balanced limit :=
        List.forall_mem_append.mpr ⟨hbalanced', hbalanced⟩
      obtain ⟨call, hcall, hlt⟩ := hlevel
      rw [bind_of_ok hxs]
      refine .deeper hall ⟨call, List.mem_append_right new' hcall, hlt⟩ ⟨hdepth, ?_⟩ ⟨f', rfl⟩
        fun h => absurd h hne
      rw [hcalls, List.append_assoc]
      exact congrArg (new' ++ ·) hend.2
    | error stop t =>
      rw [bind_of_error hxs]
      refine .deeper hbalanced hlevel hend ⟨f', rfl⟩ fun h => ?_
      cases hlimit h
      rfl

theorem ite {c : Prop} [Decidable c] {x x' : Dive α} {y y' : Edit Tape α}
    (h : Tracks limit level depth x y) (h' : Tracks limit level depth x' y') :
    Tracks limit level depth (if c then x else x') (if c then y else y') := by
  split
  · exact h
  · exact h'

theorem times {x : Dive Unit} {y : Walk} (h : Tracks limit level depth x y) (n : Nat) :
    Tracks limit level depth (times n x) (Edit.times n y) := by
  induction n with
  | zero => exact .pure _
  | succ n ih => exact h.bind fun _ => ih

theorem counted {x : Dive Unit} {y : Walk} (h : Tracks limit level depth x y) :
    Tracks limit level depth (counted x) (Walk.counted y) :=
  (lift Walk.shallow_word).bind fun n : UInt16 => h.times n.toNat

theorem inside {view : Tape → Tape} {put : Tape → Tape → Tape} {x : Dive Unit} {y : Walk}
    (h : Tracks limit level depth x y) :
    Tracks limit level depth (inside view put x) (Edit.inside view put y) := by
  intro s hs
  rw [edit_inside_eq]
  exact (h (onFocus (onTape view) s) hs).mapState (onTape (put · s.focus.item))

theorem within {x : Dive Unit} {y : Walk} (h : Tracks limit level depth x y) (n : Nat) :
    Tracks limit level depth (within n x) (Walk.within n y) :=
  (lift Edit.shallow_item).bind fun _ => (lift (Walk.shallow_pass n)).bind fun _ => h.inside

/-! ## Levels -/

section

variable {x : Dive Unit} {focus : Focus Tape} {new : List Call} (h : depth < limit)
include h

/-- A call that is not refused. -/
theorem nested_of_lt : Dive.nested limit x ⟨focus, depth, calls⟩
    = mapState (leave depth) (x ⟨focus, depth + 1, calls⟩) := if_neg (Nat.not_le_of_lt h)

theorem nested_of_outcome {y : EStateM.Result Fault (Focus Tape) Unit}
    (hx : x ⟨focus, depth + 1, calls⟩ = outcome y (depth + 1) (new ++ calls)) :
    Dive.nested limit x ⟨focus, depth, calls⟩
      = outcome y depth (.entered depth (depth + 1) depth :: new ++ calls) := by
  rw [nested_of_lt h, hx]
  cases y <;> rfl

/-- The counter is lowered whether the walk inside succeeds or not. -/
theorem stateOf_nested (hx : (stateOf (x ⟨focus, depth + 1, calls⟩)).depth = depth + 1 ∧
      (stateOf (x ⟨focus, depth + 1, calls⟩)).calls = new ++ calls) :
    (stateOf (Dive.nested limit x ⟨focus, depth, calls⟩)).depth = depth ∧
      (stateOf (Dive.nested limit x ⟨focus, depth, calls⟩)).calls
        = .entered depth (depth + 1) depth :: new ++ calls := by
  rw [nested_of_lt h, stateOf_mapState, leave, hx.1, hx.2]
  exact ⟨rfl, rfl⟩

theorem balanced_entered (hnew : ∀ call ∈ new, call.Balanced limit) :
    ∀ call ∈ .entered depth (depth + 1) depth :: new, call.Balanced limit :=
  List.forall_mem_cons.mpr ⟨⟨rfl, h, rfl⟩, hnew⟩

end

/-- One level down the walk without a counter goes on as the one with a counter does. -/
theorem nested {x : Dive Unit} {y : Walk} (hlevel : depth < level) (hlimit : level ≤ limit)
    (h : Tracks limit level (depth + 1) x y) : Tracks limit level depth (nested limit x) y := by
  rintro ⟨focus, d, calls⟩ (rfl : d = depth)
  have hlt : d < limit := Nat.lt_of_lt_of_le hlevel hlimit
  have hstart := h ⟨focus, d + 1, calls⟩ rfl
  dsimp only at hstart ⊢
  generalize hrun : x ⟨focus, d + 1, calls⟩ = run at hstart
  generalize y focus = run' at hstart ⊢
  cases hstart with
  | alike hbalanced hnew hy =>
    rw [nested_of_outcome hlt hrun]
    exact .alike (balanced_entered hlt hbalanced) (List.forall_mem_cons.mpr ⟨hlevel, hnew⟩) hy
  | deeper hbalanced hnew hend hy heq =>
    obtain ⟨call, hcall, hlow⟩ := hnew
    rw [← hrun] at hend heq
    exact .deeper (balanced_entered hlt hbalanced) ⟨call, List.mem_cons_of_mem _ hcall, hlow⟩
      (stateOf_nested hlt hend) hy fun h => nested_of_outcome hlt (heq h)

/-- No level is left for the walk without a counter. -/
theorem nested_tooDeep {x : Dive Unit} (hlimit : depth ≤ limit)
    (hx : depth < limit → ∃ y, Tracks limit limit (depth + 1) x y) :
    Tracks limit depth depth (Dive.nested limit x) Walk.tooDeep := by
  rintro ⟨focus, d, calls⟩ (rfl : d = depth)
  obtain rfl | hlt := Nat.eq_or_lt_of_le hlimit
  · have hrun : Dive.nested d x ⟨focus, d, calls⟩
        = outcome (Walk.tooDeep focus) d ([.refused d] ++ calls) := if_pos (Nat.le_refl d)
    have hbalanced : ∀ call ∈ [Call.refused d], call.Balanced d := List.forall_mem_singleton.mpr rfl
    have hdeep : ∃ call ∈ [Call.refused d], d < call.level :=
      ⟨_, List.mem_singleton_self _, Nat.lt_succ_self d⟩
    rw [hrun]
    exact .deeper hbalanced hdeep ⟨rfl, rfl⟩ ⟨focus, rfl⟩ fun _ => rfl
  · obtain ⟨y, h⟩ := hx hlt
    obtain ⟨new, hbalanced, hend⟩ := (h ⟨focus, d + 1, calls⟩ rfl).balanced
    exact .deeper (balanced_entered hlt hbalanced)
      ⟨_, List.mem_cons_self, Nat.lt_succ_self d⟩ (stateOf_nested hlt hend) ⟨focus, rfl⟩
      fun h => absurd h (Nat.ne_of_lt hlt)

/-! ## Layouts -/

section

variable {r : Renaming} {value attributes : Dive Unit} {value' attributes' : Walk}

theorem annotated (h : Tracks limit level depth value value') :
    Tracks limit level depth (annotated r value) (Walk.annotated r value') :=
  (lift (Walk.shallow_descriptorSlot r)).bind fun _ =>
    ((lift (Walk.shallow_skip 2)).bind fun _ => h).counted

/-- The letter of a value is the same in both walks. -/
theorem byLetter {const enum info nested array other : Dive Unit}
    {const' enum' info' nested' array' other' : Walk}
    (hconst : Tracks limit level depth const const') (henum : Tracks limit level depth enum enum')
    (hinfo : Tracks limit level depth info info')
    (hnested : Tracks limit level depth nested nested')
    (harray : Tracks limit level depth array array')
    (hother : Tracks limit level depth other other') (letter : Char) :
    Tracks limit level depth
      (match letter with
        | 'B' | 'C' | 'D' | 'F' | 'I' | 'J' | 'S' | 'Z' | 's' => const
        | 'e' => enum
        | 'c' => info
        | '@' => nested
        | '[' => array
        | _ => other)
      (match letter with
        | 'B' | 'C' | 'D' | 'F' | 'I' | 'J' | 'S' | 'Z' | 's' => const'
        | 'e' => enum'
        | 'c' => info'
        | '@' => nested'
        | '[' => array'
        | _ => other') := by
  split
  case h_10 => exact henum
  case h_11 => exact hinfo
  case h_12 => exact hnested
  case h_13 => exact harray
  case h_14 => exact hother
  all_goals exact hconst

theorem element {nested array : Dive Unit} {nested' array' : Walk}
    (hnested : Tracks limit level depth nested nested')
    (harray : Tracks limit level depth array array') :
    Tracks limit level depth (element r nested array) (Walk.element r nested' array') := by
  have hskip : Tracks limit level depth (Dive.lift (Walk.skip 2)) (Walk.skip 2) :=
    lift (Walk.shallow_skip 2)
  have hinfo : Tracks limit level depth (Dive.lift (Walk.descriptorSlot r))
      (Walk.descriptorSlot r) := lift (Walk.shallow_descriptorSlot r)
  have hother (tag : UInt8) : Tracks limit level depth
      (throw (.fault (.malformed (.elementTag tag))) : Dive Unit)
      (throw (.malformed (.elementTag tag))) :=
    have htag : Fault.malformed (.elementTag tag) ≠ .malformed .nesting := nofun
    lift (Shallow.throw htag)
  exact (lift Walk.shallow_word).bind fun tag : UInt8 =>
    byLetter hskip (hinfo.bind fun _ => hskip) hinfo hnested harray (hother tag) _

theorem annotations (h : Tracks limit level depth value value') :
    Tracks limit level depth (annotations r value) (Walk.counted (Walk.annotated r value')) :=
  h.annotated.counted

theorem annotatedType (h : Tracks limit level depth value value') :
    Tracks limit level depth (annotatedType r value) (do
      let tag : UInt8 ← Walk.word
      Walk.skip (← Walk.targetSize tag)
      let path : UInt8 ← Walk.word
      Walk.skip (path.toNat * 2)
      Walk.annotated r value') := by
  refine (lift Walk.shallow_word).bind fun tag : UInt8 =>
    (lift (Walk.shallow_targetSize tag)).bind fun size => (lift (Walk.shallow_skip size)).bind
      fun _ => ?_
  exact (lift Walk.shallow_word).bind fun path : UInt8 =>
    (lift (Walk.shallow_skip _)).bind fun _ => h.annotated

theorem table {payload : String → Dive Unit} {payload' : String → Walk}
    (h : ∀ name, Tracks limit level depth (payload name) (payload' name)) :
    Tracks limit level depth (table payload) (Walk.table payload') := by
  refine counted ((lift Walk.shallow_word).bind fun index : UInt16 =>
    (lift Walk.shallow_word).bind fun size : UInt32 => within ?_ size.toNat)
  exact (lift (Edit.shallow_look fun _ => Pool.utf8_ne_nesting)).bind h

theorem code (h : Tracks limit level depth attributes attributes') :
    Tracks limit level depth (code attributes) (Walk.code attributes') := by
  refine (lift (Walk.shallow_skip 4)).bind fun _ => (lift Walk.shallow_word).bind
    fun size : UInt32 => (lift (Walk.shallow_skip _)).bind fun _ => ?_
  exact (lift Walk.shallow_word).bind fun handlers : UInt16 =>
    (lift (Walk.shallow_skip _)).bind fun _ => h

theorem record (h : Tracks limit level depth attributes attributes') :
    Tracks limit level depth (record r attributes) (Walk.record r attributes') :=
  ((lift (Walk.shallow_skip 2)).bind fun _ =>
    (lift (Walk.shallow_descriptorSlot r)).bind fun _ => h).counted

theorem layout {levels : Nat} (hvalue : Tracks limit level depth value (Walk.elementValue r levels))
    (hattributes : Tracks limit level depth attributes attributes') (kind : SymbolKind)
    (name : String) : Tracks limit level depth (layout r value attributes kind name)
      (Walk.layout r levels attributes' kind name) := by
  have hparameters : Tracks limit level depth (parameterAnnotations r value)
      (Walk.parameterAnnotations r levels) :=
    (lift Walk.shallow_word).bind fun n : UInt8 => hvalue.annotations.times n.toNat
  refine ite (lift (Walk.shallow_signature r kind)) (ite hvalue.annotations ?_)
  refine ite hparameters (ite hvalue.annotatedType.counted ?_)
  refine ite hvalue (ite hattributes.code ?_)
  refine ite (lift (Walk.shallow_localVariables (Walk.shallow_descriptorSlot r))) ?_
  refine ite (lift (Walk.shallow_localVariables (Walk.shallow_signatureSlot r .ofField))) ?_
  exact ite hattributes.record (ite (lift (Walk.shallow_counted (Walk.shallow_innerClass r)))
    (.pure ()))

/-- The induction is on the fuel, of which more is left than levels up to the limit. -/
theorem elementValue {fuel : Nat} (hlevel : depth ≤ level) (hlimit : level ≤ limit)
    (hfuel : limit < depth + fuel) :
    Tracks limit level depth (elementValue r limit fuel) (Walk.elementValue r (level - depth)) := by
  induction fuel generalizing depth level with
  | zero => omega
  | succ fuel ih =>
    obtain rfl | hlt := Nat.eq_or_lt_of_le hlevel
    · rw [Nat.sub_self]
      have hinner (h : depth + 1 ≤ limit) := ih h (Nat.le_refl limit) (by omega)
      exact element (nested_tooDeep hlimit fun h => ⟨_, (hinner h).annotated⟩)
        (nested_tooDeep hlimit fun h => ⟨_, (hinner h).counted⟩)
    · have hlevels : level - depth = level - (depth + 1) + 1 := by omega
      have hinner := ih (Nat.succ_le_of_lt hlt) hlimit (by omega)
      rw [hlevels]
      exact element (nested hlt hlimit hinner.annotated) (nested hlt hlimit hinner.counted)

theorem payload {fuel : Nat} (hlevel : depth ≤ level) (hlimit : level ≤ limit)
    (hfuel : limit < depth + fuel) (kind : SymbolKind) (name : String) :
    Tracks limit level depth (payload r limit fuel kind name)
      (Walk.payload r (level - depth) kind name) := by
  induction fuel generalizing depth level kind name with
  | zero => omega
  | succ fuel ih =>
    have hvalue := elementValue (r := r) hlevel hlimit hfuel
    obtain rfl | hlt := Nat.eq_or_lt_of_le hlevel
    · rw [Nat.sub_self] at hvalue ⊢
      have hinner (h : depth + 1 ≤ limit) := ih h (Nat.le_refl limit) (by omega)
      exact layout hvalue (nested_tooDeep hlimit fun h => ⟨_, table (hinner h .ofField)⟩) kind name
    · have hlevels : level - depth = level - (depth + 1) + 1 := by omega
      have hinner := ih (Nat.succ_le_of_lt hlt) hlimit (by omega)
      rw [hlevels] at hvalue ⊢
      exact layout hvalue (nested hlt hlimit (table (hinner .ofField))) kind name

end

end Tracks

/-! ## Payloads -/

open Layout

/-- A walk is rejected exactly if the one with the counter makes a call below its levels. -/
theorem Tracked.rejected_iff {x : EStateM.Result Stop Site α}
    {y : EStateM.Result Fault (Focus Tape) α} (h : Tracked limit level depth [] x y) :
    Rejected y ↔ ∃ call ∈ (stateOf x).calls, level < call.level := by
  cases h with
  | alike hbalanced hlevel hy =>
    rw [stateOf_outcome, List.append_nil]
    constructor
    · exact fun h => absurd h hy
    · rintro ⟨call, hcall, hlt⟩
      exact absurd (hlevel call hcall) (Nat.not_le_of_lt hlt)
  | deeper hbalanced hlevel hx hy hlimit =>
    rw [hx.2, List.append_nil]
    exact ⟨fun _ => hlevel, fun _ => hy⟩

/-- A walk that is not rejected ends as the one with the counter does. -/
theorem Tracked.eq_outcome {x : EStateM.Result Stop Site α}
    {y : EStateM.Result Fault (Focus Tape) α} (h : Tracked limit level depth [] x y)
    (hy : ¬ Rejected y ∨ level = limit) :
    x = outcome y depth (stateOf x).calls := by
  cases h with
  | alike => rw [stateOf_outcome]
  | deeper hbalanced hlevel hx hrejected hlimit =>
    have heq := hlimit (hy.resolve_left (not_not_intro hrejected))
    rw [heq, stateOf_outcome]

/-- In front of a payload, with the counter at zero. -/
def start (f : Focus Tape) : Site := ⟨f, 0, []⟩

section

variable (r : Renaming) {kind : SymbolKind} {name : String} {f : Focus Tape}

theorem tracked_payload (kind : SymbolKind) (name : String) (f : Focus Tape) {fuel : Nat}
    (hlevel : level ≤ limit) (hfuel : limit < fuel) :
    Tracked limit level 0 [] (payload r limit fuel kind name (start f))
      (Walk.payload r level kind name f) :=
  Tracks.payload (Nat.zero_le level) hlevel (by omega) kind name (start f) rfl

/-- A value that nests at most `levels` deep is not rejected by a walk over as many levels. -/
theorem not_rejected_of_fits {levels : Nat} {v : Payload levels}
    (hfits : (Format.payload levels kind name).Fits v)
    (hahead : f.item.ahead = encode ((Format.payload levels kind name).pieces v))
    (hresolves : ∀ x ∈ (Format.payload levels kind name).pieces v, x.Resolves f.pool) :
    ¬ Rejected (Walk.payload r levels kind name f) := by
  rintro ⟨f', hrejected⟩
  obtain ⟨g, hg, -⟩ | ⟨hover, -⟩ := (fills_payload r levels kind name).ends hfits hahead hresolves
  · obtain ⟨g', hg', -⟩ := toEnd_eq_ok hg
    cases hrejected.symm.trans hg'
  · obtain ⟨n, g, hg⟩ := overflows_toEnd hover
    cases hrejected.symm.trans hg

/-- The walk over a payload ends as the one with a counter does, which never has the counter above
the limit and has it back behind each nested call. It is rejected if some walk with a higher limit
makes a call below the deepest level, and otherwise ends as that walk does. So it is not rejected
for a value that nests no deeper. -/
theorem payload_nesting (r : Renaming) (kind : SymbolKind) (name : String) (f : Focus Tape) :
    (∀ fuel, maxNesting < fuel → ∃ calls,
      payload r maxNesting fuel kind name (start f)
        = outcome (Walk.payload r maxNesting kind name f) 0 calls ∧
      ∀ call ∈ calls, call.Balanced maxNesting) ∧
    (∀ limit fuel, maxNesting ≤ limit → limit < fuel →
      let run := payload r limit fuel kind name (start f)
      ((∃ call ∈ (stateOf run).calls, maxNesting < call.level) →
        Rejected (Walk.payload r maxNesting kind name f)) ∧
      ((∀ call ∈ (stateOf run).calls, call.level ≤ maxNesting) →
        ¬ Rejected (Walk.payload r maxNesting kind name f) ∧
        run = outcome (Walk.payload r maxNesting kind name f) 0 (stateOf run).calls)) ∧
    (∀ levels (v : Payload levels), levels ≤ maxNesting →
      (Format.payload levels kind name).Fits v →
      f.item.ahead = encode ((Format.payload levels kind name).pieces v) →
      (∀ x ∈ (Format.payload levels kind name).pieces v, x.Resolves f.pool) →
      ¬ Rejected (Walk.payload r maxNesting kind name f)) ∧
    (Fault.malformed .nesting).message = "Attribute nesting exceeds 256 levels" := by
  refine ⟨fun fuel hfuel => ?_, fun limit fuel hlimit hfuel => ?_,
    fun levels v hlevels hfits hahead hresolves => ?_, rfl⟩
  · have h := tracked_payload r kind name f (Nat.le_refl maxNesting) hfuel
    obtain ⟨new, hbalanced, -, hcalls⟩ := h.balanced
    rw [List.append_nil] at hcalls
    exact ⟨_, h.eq_outcome (.inr rfl), hcalls ▸ hbalanced⟩
  · have h := tracked_payload r kind name f hlimit hfuel
    refine ⟨h.rejected_iff.mpr, fun hcalls => ?_⟩
    have hkept : ¬ Rejected (Walk.payload r maxNesting kind name f) := by
      rw [h.rejected_iff]
      rintro ⟨call, hcall, hlt⟩
      exact absurd (hcalls call hcall) (Nat.not_le_of_lt hlt)
    exact ⟨hkept, h.eq_outcome (.inl hkept)⟩
  · have hfuel := Nat.lt_succ_self maxNesting
    have hkept := not_rejected_of_fits r hfits hahead hresolves
    rw [(tracked_payload r kind name f hlevels hfuel).rejected_iff] at hkept
    rw [(tracked_payload r kind name f (Nat.le_refl maxNesting) hfuel).rejected_iff]
    rintro ⟨call, hcall, hlt⟩
    exact hkept ⟨call, hcall, Nat.lt_of_le_of_lt hlevels hlt⟩

/-- A default value of `depth` arrays, one in the other, around a string. -/
def nestedArrays (depth : Nat) : Focus Tape :=
  ⟨Tape.start ((List.replicate depth [91, 0, 1]).flatten ++ [115, 0, 1]), .empty, {}, #[]⟩

/-- Arrays nest 256 deep, but not 257. -/
theorem payload_nesting_nestedArrays :
    ¬ Rejected (Walk.payload .identity maxNesting .ofClass "AnnotationDefault"
      (nestedArrays 256)) ∧
    Rejected (Walk.payload .identity maxNesting .ofClass "AnnotationDefault"
      (nestedArrays 257)) ∧
    (∃ calls, payload .identity maxNesting 257 .ofClass "AnnotationDefault"
        (start (nestedArrays 257))
      = outcome (Walk.payload .identity maxNesting .ofClass "AnnotationDefault"
        (nestedArrays 257)) 0 calls ∧ ∀ call ∈ calls, call.Balanced maxNesting) ∧
    ¬ Rejected (Walk.payload .identity maxNesting .ofClass "AnnotationDefault"
      (nestedArrays 2)) := by
  obtain ⟨-, hdeep, -, -⟩ :=
    payload_nesting .identity .ofClass "AnnotationDefault" (nestedArrays 256)
  obtain ⟨hrun, hdeeper, -, -⟩ :=
    payload_nesting .identity .ofClass "AnnotationDefault" (nestedArrays 257)
  obtain ⟨-, -, hvalue, -⟩ :=
    payload_nesting .identity .ofClass "AnnotationDefault" (nestedArrays 2)
  let v : Payload 2 := (.annotationDefault (.array [.array [.const 115 1]]), [])
  have hconst : Char.ofNat (115 : UInt8).toNat ∈ Format.constLetters := by decide
  have hfits : (Format.payload 2 .ofClass "AnnotationDefault").Fits v :=
    ⟨⟨by decide, List.forall_mem_singleton.mpr
      ⟨by decide, List.forall_mem_singleton.mpr hconst⟩⟩, rfl⟩
  have hpieces : (Format.payload 2 .ofClass "AnnotationDefault").pieces v
      = [.fixed [91], .fixed [0, 1], .fixed [91], .fixed [0, 1], .fixed [115], .fixed [0, 1],
        .fixed []] := rfl
  refine ⟨((hdeep 300 301 (by decide) (by decide)).2 (by decide +kernel)).1,
    (hdeeper 300 301 (by decide) (by decide)).1 (by decide +kernel), hrun 257 (by decide),
    hvalue 2 v (by decide) hfits (by rw [hpieces]; rfl) ?_⟩
  simp [hpieces, Piece.Resolves]

end

end Relabel.Dive
