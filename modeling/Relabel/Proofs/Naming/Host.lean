import Mathlib.Data.List.Basic
import Mathlib.Data.List.Induction
import Mathlib.Logic.Function.Basic
import Relabel.Naming.Environment

/-!
# Runs of a host

A host opens registries of channels, copies its handles on them, registers and unregisters channels
through any handle, and builds services, which answer with new names. A service keeps no more of a
registry than where it is. So it answers by what the latest call on its channel left there, whether
that call came before the service was built or after it and through whatever handle, and no call on
another channel matters.
-/

namespace Relabel

/-- What answers with new names: a configuration and a table, and the registry that it was given a
handle on. -/
structure Service where
  config : Config
  table : Mapping.Table
  registry : Option Nat

namespace Service

def environment (s : Service) : Environment := ⟨s.config, s.table, s.registry.isSome⟩

/-- The new name of a symbol while the registries hold the given channels. -/
def translate (s : Service) (channels : Nat → Channels) (kind : SymbolKind) (name : String) :
    String :=
  s.environment.newName (s.registry.elim .empty channels) kind name

section

variable {s : Service} {channels channels' : Nat → Channels} {kind : SymbolKind} {name : String}

theorem translate_of_baked (h : s.config.mode = .baked) :
    s.translate channels kind name = (s.table.get? kind name).getD name := by
  simp only [translate, environment, Environment.newName, h]

theorem translate_of_unattached (h : s.registry = none) :
    s.translate channels kind name = (s.table.get? kind name).getD name := by
  simp only [translate, environment, Environment.newName, Environment.delegate?, h]
  split <;> rfl

theorem translate_of_attached {registry : Nat} (hmode : s.config.mode = .hostDelegated)
    (hregistry : s.registry = some registry) :
    let candidate := (s.table.get? kind name).getD name
    s.translate channels kind name
      = ((channels registry).get? s.config.channel).elim candidate (· kind candidate) := by
  simp only [translate, environment, Environment.newName, Environment.delegate?, hmode, hregistry]
  cases h : (channels registry).get? s.config.channel <;> simp [h]

/-- A service looks at the channel of its key and at no other one. -/
theorem translate_congr
    (h : ∀ registry, s.registry = some registry →
      (channels registry).get? s.config.channel = (channels' registry).get? s.config.channel) :
    s.translate channels kind name = s.translate channels' kind name := by
  cases hregistry : s.registry with
  | none => rw [translate_of_unattached hregistry, translate_of_unattached hregistry]
  | some registry =>
    cases hmode : s.config.mode with
    | baked => rw [translate_of_baked hmode, translate_of_baked hmode]
    | hostDelegated =>
      rw [translate_of_attached hmode hregistry, translate_of_attached hmode hregistry,
        h registry hregistry]

end

end Service

/-- Registries are known by their numbers. A handle leads to a registry, and a copy of it leads to
the same one. -/
structure Host where
  channels : Nat → Channels
  /-- The number of registries that were opened. -/
  opened : Nat
  /-- The registry that each handle leads to. -/
  handles : List Nat
  services : List Service

namespace Host

def empty : Host := ⟨fun _ => .empty, 0, [], []⟩

/-- What a host does. It knows its handles and services by their numbers. -/
inductive Action where
  /-- Open a registry, with a handle on it. -/
  | openRegistry
  | copyHandle (handle : Nat)
  | register (handle : Nat) (key : String) (f : NamingFunction)
  | unregister (handle : Nat) (key : String)
  | build (config : Config) (table : Mapping.Table) (handle : Option Nat)
  /-- Copy a service or take its naming function, which answers alike. -/
  | copyService (service : Nat)
  | translate (service : Nat) (kind : SymbolKind) (name : String)

/-- Change the channels of a registry. -/
def change (host : Host) (registry : Nat) (f : Channels → Channels) : Host :=
  { host with channels := Function.update host.channels registry (f (host.channels registry)) }

/-- The host after an action, for which it has to have the handle or the service. -/
def step (host : Host) : Action → Option Host
  | .openRegistry =>
    some { host with opened := host.opened + 1, handles := host.handles ++ [host.opened] }
  | .copyHandle handle => do
    let registry ← host.handles[handle]?
    return { host with handles := host.handles ++ [registry] }
  | .register handle key f => do
    let registry ← host.handles[handle]?
    return host.change registry (·.register key f)
  | .unregister handle key => do
    let registry ← host.handles[handle]?
    return host.change registry (·.unregister key)
  | .build config table none =>
    some { host with services := host.services ++ [⟨config, table, none⟩] }
  | .build config table (some handle) => do
    let registry ← host.handles[handle]?
    return { host with services := host.services ++ [⟨config, table, some registry⟩] }
  | .copyService service => do
    let service ← host.services[service]?
    return { host with services := host.services ++ [service] }
  | .translate service _ _ => do
    let _ ← host.services[service]?
    return host

/-- The host after the actions, one after the other. -/
def run (actions : List Action) : Option Host := actions.foldlM step empty

/-- The answer of a service. -/
def translate (host : Host) (service : Nat) (kind : SymbolKind) (name : String) : Option String :=
  host.services[service]?.map fun s => s.translate host.channels kind name

/-! ## Calls on a channel -/

/-- The handle through which an action registers or unregisters a channel, and the key of the
channel. -/
def Action.call? : Action → Option (Nat × String)
  | .register handle key _ | .unregister handle key => some (handle, key)
  | _ => none

/-- What an action on a channel leaves there. -/
def Action.left? : Action → Option NamingFunction
  | .register _ _ f => some f
  | _ => none

/-- The action registers or unregisters the channel `key` of the registry. -/
def Action.Concerns (handles : List Nat) (registry : Nat) (key : String) (action : Action) : Prop :=
  ∃ handle, action.call? = some (handle, key) ∧ handles[handle]? = some registry

/-- The latest action that registers or unregisters the channel `key` of the registry registers
`f`. -/
def Standing (handles : List Nat) (registry : Nat) (key : String) (f : NamingFunction)
    (actions : List Action) : Prop :=
  ∃ before handle after, actions = before ++ .register handle key f :: after ∧
    handles[handle]? = some registry ∧ ∀ action ∈ after, ¬ action.Concerns handles registry key

section

variable {handles : List Nat} {registry : Nat} {key : String} {f : NamingFunction}
  {actions before after : List Action} {action : Action}

theorem concerns_iff {handle : Nat} {key' : String} (h : action.call? = some (handle, key')) :
    action.Concerns handles registry key ↔ handles[handle]? = some registry ∧ key' = key := by
  simp only [Action.Concerns, h, Option.some.injEq, Prod.mk.injEq]
  exact ⟨fun ⟨_, ⟨hhandle, hkey⟩, hregistry⟩ => ⟨hhandle ▸ hregistry, hkey⟩,
    fun ⟨hregistry, hkey⟩ => ⟨handle, ⟨rfl, hkey⟩, hregistry⟩⟩

theorem not_concerns (h : action.call? = none) : ¬ action.Concerns handles registry key := by
  rintro ⟨handle, hcall, -⟩
  cases h.symm.trans hcall

theorem concerns_and_left?_iff :
    action.Concerns handles registry key ∧ action.left? = some f ↔
      ∃ handle, action = .register handle key f ∧ handles[handle]? = some registry := by
  constructor
  · rintro ⟨⟨handle, hcall, hhandle⟩, hleft⟩
    cases action <;> cases hcall <;> cases hleft
    exact ⟨handle, rfl, hhandle⟩
  · rintro ⟨handle, rfl, hhandle⟩
    exact ⟨⟨handle, rfl, hhandle⟩, rfl⟩

theorem not_standing_nil : ¬ Standing handles registry key f [] := by
  rintro ⟨before, handle, after, h, -⟩
  cases before <;> cases h

/-- One more action decides on the channel that it concerns and on no other. -/
theorem standing_concat : Standing handles registry key f (actions ++ [action]) ↔
    action.Concerns handles registry key ∧ action.left? = some f ∨
      ¬ action.Concerns handles registry key ∧ Standing handles registry key f actions := by
  rw [concerns_and_left?_iff]
  constructor
  · rintro ⟨before, handle, after, h, hhandle, hafter⟩
    -- What stands is the last action, or the last action comes after it.
    obtain rfl | ⟨after, last, rfl⟩ := after.eq_nil_or_concat'
    · obtain ⟨-, ⟨⟩⟩ := List.append_inj' h rfl
      exact .inl ⟨handle, rfl, hhandle⟩
    · rw [← List.cons_append, ← List.append_assoc] at h
      obtain ⟨rfl, ⟨⟩⟩ := List.append_inj' h rfl
      exact .inr ⟨hafter action (by simp), before, handle, after, rfl, hhandle,
        fun other hother => hafter other (List.mem_append_left _ hother)⟩
  · rintro (⟨handle, rfl, hhandle⟩ | ⟨hlast, before, handle, after, rfl, hhandle, hafter⟩)
    · exact ⟨actions, handle, [], rfl, hhandle, nofun⟩
    · refine ⟨before, handle, after ++ [action], by simp, hhandle, fun other hother => ?_⟩
      obtain hother | hother := List.mem_append.mp hother
      · exact hafter other hother
      · rwa [List.mem_singleton.mp hother]

/-- An action that does not concern the channel can be left out. -/
theorem standing_of_not_concerns (h : ¬ action.Concerns handles registry key) :
    Standing handles registry key f (before ++ action :: after) ↔
      Standing handles registry key f (before ++ after) := by
  induction after using List.reverseRecOn with
  | nil =>
    rw [standing_concat, List.append_nil]
    simp [h]
  | append_singleton after last ih =>
    rw [← List.cons_append, ← List.append_assoc, ← List.append_assoc, standing_concat,
      standing_concat, ih]

/-- Handles that no action has used yet do not matter. -/
theorem standing_append_handles (more : List Nat)
    (h : ∀ action ∈ actions, ∀ handle key, action.call? = some (handle, key) →
      handle < handles.length) :
    Standing (handles ++ more) registry key f actions
      ↔ Standing handles registry key f actions := by
  induction actions using List.reverseRecOn with
  | nil => exact iff_of_false not_standing_nil not_standing_nil
  | append_singleton actions last ih =>
    -- A handle that is in use leads where it led before.
    have hlast : last.Concerns (handles ++ more) registry key
        ↔ last.Concerns handles registry key := by
      refine exists_congr fun handle => and_congr_right fun hcall => ?_
      rw [List.getElem?_append_left (h last (by simp) handle key hcall)]
    rw [standing_concat, standing_concat, hlast,
      ih fun action haction => h action (List.mem_append_left _ haction)]

end

/-! ## Steps and runs -/

variable {host host' : Host} {actions before after : List Action} {action : Action}

/-- A call on a channel reaches no other one. -/
theorem get?_update {channels : Nat → Channels} {registry : Nat} {key : String}
    {left? : Option NamingFunction} {c : Channels}
    (h : ∀ key', c.get? key' = if key' = key then left? else (channels registry).get? key')
    (registry' : Nat) (key' : String) :
    (Function.update channels registry c registry').get? key'
      = if registry' = registry ∧ key' = key then left?
        else (channels registry').get? key' := by
  by_cases hregistry : registry' = registry
  · rw [hregistry, Function.update_self, h]
    simp
  · rw [Function.update_of_ne hregistry, if_neg (mt And.left hregistry)]

/-- An action adds handles or services and leaves all channels alone, or it is a call on one
channel of the registry that its handle leads to and leaves all else alone. -/
theorem step_cases (h : step host action = some host') :
    action.call? = none ∧ host'.channels = host.channels ∧
        host.handles <+: host'.handles ∧ host.services <+: host'.services ∨
      ∃ handle key registry channels, action.call? = some (handle, key) ∧
        host.handles[handle]? = some registry ∧ host' = { host with channels := channels } ∧
        ∀ registry' key', (channels registry').get? key'
          = if registry' = registry ∧ key' = key then action.left?
            else (host.channels registry').get? key' := by
  cases action with
  | openRegistry =>
    cases h
    exact .inl ⟨rfl, rfl, List.prefix_append _ _, List.prefix_rfl⟩
  | copyHandle handle =>
    obtain ⟨registry, -, ⟨⟩⟩ := Option.bind_eq_some_iff.mp h
    exact .inl ⟨rfl, rfl, List.prefix_append _ _, List.prefix_rfl⟩
  | register handle key f =>
    obtain ⟨registry, hregistry, ⟨⟩⟩ := Option.bind_eq_some_iff.mp h
    exact .inr ⟨handle, key, registry, _, rfl, hregistry, rfl,
      get?_update fun _ => Channels.get?_register ..⟩
  | unregister handle key =>
    obtain ⟨registry, hregistry, ⟨⟩⟩ := Option.bind_eq_some_iff.mp h
    exact .inr ⟨handle, key, registry, _, rfl, hregistry, rfl,
      get?_update fun _ => Channels.get?_unregister ..⟩
  | build config table handle =>
    obtain _ | handle := handle
    · cases h
      exact .inl ⟨rfl, rfl, List.prefix_rfl, List.prefix_append _ _⟩
    · obtain ⟨registry, -, ⟨⟩⟩ := Option.bind_eq_some_iff.mp h
      exact .inl ⟨rfl, rfl, List.prefix_rfl, List.prefix_append _ _⟩
  | copyService service =>
    obtain ⟨service, -, ⟨⟩⟩ := Option.bind_eq_some_iff.mp h
    exact .inl ⟨rfl, rfl, List.prefix_rfl, List.prefix_append _ _⟩
  | translate service kind name =>
    obtain ⟨service, -, ⟨⟩⟩ := Option.bind_eq_some_iff.mp h
    exact .inl ⟨rfl, rfl, List.prefix_rfl, List.prefix_rfl⟩

/-- No action looks into the channels. -/
theorem step_channels (h : step host action = some host') (channels : Nat → Channels) :
    ∃ channels', step { host with channels := channels } action
      = some { host' with channels := channels' } := by
  cases action with
  | openRegistry =>
    cases h
    exact ⟨channels, rfl⟩
  | copyHandle handle | copyService service | translate service kind name =>
    obtain ⟨value, hvalue, ⟨⟩⟩ := Option.bind_eq_some_iff.mp h
    exact ⟨channels, by simp [step, hvalue]⟩
  | register handle key f | unregister handle key =>
    obtain ⟨registry, hregistry, ⟨⟩⟩ := Option.bind_eq_some_iff.mp h
    exact ⟨_, by simp only [step, hregistry]; rfl⟩
  | build config table handle =>
    obtain _ | handle := handle
    · cases h
      exact ⟨channels, rfl⟩
    · obtain ⟨registry, hregistry, ⟨⟩⟩ := Option.bind_eq_some_iff.mp h
      exact ⟨channels, by simp [step, hregistry]⟩

theorem foldlM_channels (h : actions.foldlM step host = some host') (channels : Nat → Channels) :
    ∃ channels', actions.foldlM step { host with channels := channels }
      = some { host' with channels := channels' } := by
  induction actions generalizing host channels with
  | nil =>
    cases h
    exact ⟨channels, rfl⟩
  | cons action actions ih =>
    obtain ⟨host₁, hstep, hrest⟩ := Option.bind_eq_some_iff.mp h
    obtain ⟨channels₁, hstep'⟩ := step_channels hstep channels
    obtain ⟨channels', hrest'⟩ := ih hrest channels₁
    exact ⟨channels', by rw [List.foldlM_cons, hstep']; exact hrest'⟩

/-- The host has all handles that the actions use, and its channels are those that stand behind the
actions. -/
structure Tracks (actions : List Action) (host : Host) : Prop where
  handles : ∀ action ∈ actions, ∀ handle key, action.call? = some (handle, key) →
    handle < host.handles.length
  channels : ∀ registry key f, (host.channels registry).get? key = some f ↔
    Standing host.handles registry key f actions

theorem tracks_empty : empty.Tracks [] where
  handles := nofun
  channels registry key f := by
    refine iff_of_false ?_ not_standing_nil
    rw [empty, Channels.get?_empty]
    nofun

theorem Tracks.step (htracks : host.Tracks actions) (h : host.step action = some host') :
    host'.Tracks (actions ++ [action]) := by
  obtain ⟨hcall, hchannels, ⟨more, hhandles⟩, -⟩ |
    ⟨handle, key, registry, channels, hcall, hregistry, rfl, hchannels⟩ := step_cases h
  -- No call: the channels stay, and new handles do not reach into the actions before.
  · constructor
    · intro other hother handle key hother'
      obtain hother | hother := List.mem_append.mp hother
      · rw [← hhandles, List.length_append]
        exact Nat.lt_add_right _ (htracks.handles other hother handle key hother')
      · cases hcall.symm.trans (List.mem_singleton.mp hother ▸ hother')
    · intro registry key f
      rw [standing_concat, ← hhandles, standing_append_handles more htracks.handles, hchannels,
        htracks.channels]
      simp [not_concerns hcall]
  · constructor
    · intro other hother handle' key' hother'
      obtain hother | hother := List.mem_append.mp hother
      · exact htracks.handles other hother handle' key' hother'
      · cases hcall.symm.trans (List.mem_singleton.mp hother ▸ hother')
        exact (List.getElem?_eq_some_iff.mp hregistry).1
    -- A call decides on the channel that it concerns, in the host as in the list of actions.
    · intro registry' key' f
      have hconcerns : action.Concerns host.handles registry' key'
          ↔ registry' = registry ∧ key' = key := by
        rw [concerns_iff hcall, hregistry, Option.some.injEq, eq_comm (a := registry),
          eq_comm (a := key)]
      rw [standing_concat, hchannels, hconcerns]
      split
      case isTrue hsame => simp [hsame]
      case isFalse hother => simp [hother, htracks.channels]

theorem run_append_eq_some : run (before ++ after) = some host' ↔
    ∃ host, run before = some host ∧ after.foldlM step host = some host' := by
  rw [run, List.foldlM_append]
  exact Option.bind_eq_some_iff

theorem tracks_run (h : run actions = some host) : host.Tracks actions := by
  induction actions using List.reverseRecOn generalizing host with
  | nil =>
    cases h
    exact tracks_empty
  | append_singleton actions action ih =>
    obtain ⟨host₁, hrun, hlast⟩ := run_append_eq_some.mp h
    obtain ⟨host₂, hstep, ⟨⟩⟩ := Option.bind_eq_some_iff.mp hlast
    exact (ih hrun).step hstep

/-- Without a call on some channel, the host is the same but for its channels. -/
theorem run_without (h : run (before ++ action :: after) = some host)
    (hcall : action.call? ≠ none) :
    ∃ host', run (before ++ after) = some host' ∧ host'.handles = host.handles ∧
      host'.services = host.services := by
  obtain ⟨host₁, hbefore, hrest⟩ := run_append_eq_some.mp h
  obtain ⟨host₂, hstep, hafter⟩ := Option.bind_eq_some_iff.mp hrest
  obtain ⟨hnone, -⟩ | ⟨-, -, -, channels, -, -, rfl, -⟩ := step_cases hstep
  · exact absurd hnone hcall
  · obtain ⟨channels', hafter'⟩ := foldlM_channels hafter host₁.channels
    exact ⟨_, run_append_eq_some.mpr ⟨host₁, hbefore, hafter'⟩, rfl, rfl⟩

/-- The services that were built stay as they are. -/
theorem services_foldlM (h : actions.foldlM step host = some host') :
    host.services <+: host'.services := by
  induction actions generalizing host with
  | nil =>
    cases h
    exact List.prefix_rfl
  | cons action actions ih =>
    obtain ⟨host₁, hstep, hrest⟩ := Option.bind_eq_some_iff.mp h
    refine List.IsPrefix.trans ?_ (ih hrest)
    obtain ⟨-, -, -, hservices⟩ | ⟨-, -, -, -, -, -, rfl, -⟩ := step_cases hstep
    · exact hservices
    · exact List.prefix_rfl

theorem services_run (h : run actions = some host) (h' : run (actions ++ after) = some host') :
    host.services <+: host'.services := by
  obtain ⟨host₁, hrun, hafter⟩ := run_append_eq_some.mp h'
  cases h.symm.trans hrun
  exact services_foldlM hafter

/-! ## Answers -/

section

variable {service : Service} {n : Nat} {kind : SymbolKind} {name : String}

theorem translate_of_getElem? (h : host.services[n]? = some service) :
    host.translate n kind name = some (service.translate host.channels kind name) := by
  rw [translate, h, Option.map_some]

/-- A service that asks a host answers through the channel that stands. -/
theorem translate_delegated (hrun : run actions = some host)
    (hservice : host.services[n]? = some service) {registry : Nat}
    (hmode : service.config.mode = .hostDelegated) (hregistry : service.registry = some registry) :
    let candidate := (service.table.get? kind name).getD name
    (∀ f, Standing host.handles registry service.config.channel f actions →
      host.translate n kind name = some (f kind candidate)) ∧
    ((∀ f, ¬ Standing host.handles registry service.config.channel f actions) →
      host.translate n kind name = some candidate) := by
  have hchannels f := (tracks_run hrun).channels registry service.config.channel f
  rw [translate_of_getElem? hservice, Service.translate_of_attached hmode hregistry]
  refine ⟨fun f hf => ?_, fun h => ?_⟩
  · rw [(hchannels f).mpr hf, Option.elim_some]
  · rw [Option.eq_none_iff_forall_ne_some.mpr fun f hf => h f ((hchannels f).mp hf),
      Option.elim_none]

/-- A call on a channel that the service does not ask could as well be left out. -/
theorem translate_without (hrun : run (before ++ action :: after) = some host)
    (hservice : host.services[n]? = some service) (hcall : action.call? ≠ none)
    (hother : ∀ registry, service.registry = some registry →
      ¬ action.Concerns host.handles registry service.config.channel) :
    ∃ host', run (before ++ after) = some host' ∧ host'.services[n]? = some service ∧
      ∀ kind name, host'.translate n kind name = host.translate n kind name := by
  obtain ⟨host', hwithout, hhandles, hservices⟩ := run_without hrun hcall
  have hservice' := hservices ▸ hservice
  refine ⟨host', hwithout, hservice', fun kind name => ?_⟩
  rw [translate_of_getElem? hservice, translate_of_getElem? hservice', Option.some.injEq]
  refine Service.translate_congr fun registry hregistry => Option.ext fun f => ?_
  rw [(tracks_run hwithout).channels, (tracks_run hrun).channels, hhandles,
    standing_of_not_concerns (hother registry hregistry)]

end

/-- What a service answers after any run, by its mode. A baked service gives what the table has, or
the name. One that asks a host passes that on to the function that the latest call on its channel
registered, through whatever handle on its registry, and gives what the table has if that call
unregistered the channel, or there was none, or the service has no registry. Calls on all other
channels could be left out. And later actions leave the service as it is. -/
theorem translate_of_run {actions : List Action} {host : Host} {n : Nat} {service : Service}
    (hrun : run actions = some host) (hservice : host.services[n]? = some service) :
    (∀ kind name,
      let candidate := (service.table.get? kind name).getD name
      (service.config.mode = .baked → host.translate n kind name = some candidate) ∧
      (service.config.mode = .hostDelegated →
        (service.registry = none → host.translate n kind name = some candidate) ∧
        ∀ registry, service.registry = some registry →
          (∀ f, Standing host.handles registry service.config.channel f actions →
            host.translate n kind name = some (f kind candidate)) ∧
          ((∀ f, ¬ Standing host.handles registry service.config.channel f actions) →
            host.translate n kind name = some candidate))) ∧
    (∀ before action after, actions = before ++ action :: after → action.call? ≠ none →
      (∀ registry, service.registry = some registry →
        ¬ action.Concerns host.handles registry service.config.channel) →
      ∃ host', run (before ++ after) = some host' ∧ host'.services[n]? = some service ∧
        ∀ kind name, host'.translate n kind name = host.translate n kind name) ∧
    ∀ after host', run (actions ++ after) = some host' → host'.services[n]? = some service := by
  refine ⟨fun kind name => ⟨fun hmode => ?baked, fun hmode => ⟨fun hregistry => ?unattached,
    fun registry hregistry => translate_delegated hrun hservice hmode hregistry⟩⟩, ?without, ?later⟩
  case baked =>
    rw [translate_of_getElem? hservice, Service.translate_of_baked hmode]
  case unattached =>
    rw [translate_of_getElem? hservice, Service.translate_of_unattached hregistry]
  case without =>
    rintro before action after rfl hcall hother
    exact translate_without hrun hservice hcall hother
  case later =>
    intro after host' hrun'
    obtain ⟨more, hmore⟩ := services_run hrun hrun'
    obtain ⟨hn, -⟩ := List.getElem?_eq_some_iff.mp hservice
    rw [← hmore, List.getElem?_append_left hn, hservice]

def suffixing (suffix : String) : NamingFunction := fun _ name => name ++ suffix

/-- A run that copies a handle and a service. The channel of the service was registered before there
was a service. -/
def copyingRun : List Action :=
  [.openRegistry, .register 0 "srg" (suffixing "_early"),
    .build .development .empty (some 0), .copyHandle 0, .copyService 0]

/-- The copy of the service answers through the function that is registered later through the copy
of the handle, with or without a call on another channel, and gives the name again once the channel
is unregistered. -/
theorem translate_of_run_copyingRun :
    let late : Action := .register 1 "srg" (suffixing "_late")
    (∃ host host', run (copyingRun ++ .unregister 0 "named" :: [late]) = some host ∧
      run (copyingRun ++ [late]) = some host' ∧ host.translate 1 .ofMethod "m" = some "m_late" ∧
      host'.translate 1 .ofMethod "m" = some "m_late") ∧
    ∃ host, run (copyingRun ++ [late, .unregister 0 "srg"]) = some host ∧
      host.translate 1 .ofMethod "m" = some "m" := by
  intro late
  have hname : (Mapping.Table.empty.get? .ofMethod "m").getD "m" = "m" := by
    simp [Mapping.Table.get?, Mapping.Table.entries, Mapping.Table.empty]
  refine ⟨?_, ?_⟩
  · obtain ⟨host, hrun, hservice, hhandles⟩ :
        ∃ host, run (copyingRun ++ .unregister 0 "named" :: [late]) = some host ∧
          host.services[1]? = some ⟨.development, .empty, some 0⟩ ∧ host.handles = [0, 0] :=
      ⟨_, rfl, rfl, rfl⟩
    obtain ⟨hanswers, hwithout, -⟩ := translate_of_run hrun hservice
    obtain ⟨host', hrun', -, hsame⟩ := hwithout copyingRun _ [late] rfl nofun
      fun registry _ h => absurd ((concerns_iff rfl).mp h).2 (by decide)
    have hlate : host.translate 1 .ofMethod "m" = some "m_late" := by
      rw [(((hanswers .ofMethod "m").2 rfl).2 0 rfl).1 (suffixing "_late")
        ⟨copyingRun ++ [.unregister 0 "named"], 1, [], rfl, by rw [hhandles]; rfl, nofun⟩, hname]
      rfl
    exact ⟨host, host', hrun, hrun', hlate, (hsame _ _).trans hlate⟩
  · obtain ⟨host, hrun, hservice, hhandles⟩ :
        ∃ host, run (copyingRun ++ [late] ++ [.unregister 0 "srg"]) = some host ∧
          host.services[1]? = some ⟨.development, .empty, some 0⟩ ∧ host.handles = [0, 0] :=
      ⟨_, rfl, rfl, rfl⟩
    refine ⟨host, hrun, ?_⟩
    rw [(((translate_of_run hrun hservice).1 .ofMethod "m").2 rfl |>.2 0 rfl).2 fun f => ?_, hname]
    rw [standing_concat, concerns_iff rfl, hhandles]
    simp [Action.left?, Config.development, Config.production]

end Host

end Relabel
