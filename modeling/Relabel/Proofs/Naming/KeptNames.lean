import Relabel.Naming.Environment
import Relabel.Proofs.Mapping.Join
import Relabel.Proofs.Renaming.Identity

/-!
# Environments that keep all names

The renaming of an environment keeps all names if the environment covers none, or if it knows
no names and does not ask a host. A join with a source that is missing gives no names.
-/

namespace Relabel

namespace Mapping.Table

/-- A join in which one side has no records gives no names. -/
theorem get?_join_of_empty {intermediate final : Array Record}
    (h : intermediate = #[] ∨ final = #[]) (kind : SymbolKind) (name : String) :
    (join intermediate final).1.get? kind name = none := by
  rw [get?_join, Option.map_eq_none_iff, List.find?_eq_none]
  intro record hrecord
  rcases h with rfl | rfl
  · have hkey : (namesByKey #[])[record.key]? = none := Std.HashMap.getElem?_empty
    simp [hkey]
  · cases List.mem_reverse.mp hrecord

end Mapping.Table

namespace Environment

variable {e : Environment} {channels : Channels}

theorem isIdentity_of_newNameIn
    (h : ∀ kind owner name, e.newNameIn channels kind owner name = name) :
    (e.toRenaming channels).IsIdentity where
  className name := h .ofClass name name
  methodName owner name _ := h .ofMethod owner name
  fieldName owner name _ := h .ofField owner name
  dynamicName _ _ := rfl
  packageName _ := rfl
  moduleName _ := rfl

/-- An environment that covers nothing keeps all names. -/
theorem isIdentity_of_scope (h : e.config.scope.starts = []) :
    (e.toRenaming channels).IsIdentity := by
  refine isIdentity_of_newNameIn fun kind owner name => ?_
  simp [newNameIn, Scope.covers, h]

/-- An environment without names keeps all names, unless it asks the host. -/
theorem isIdentity_of_table (htable : ∀ kind name, e.table.get? kind name = none)
    (hhost : e.config.mode = .baked ∨ e.delegate? channels = none) :
    (e.toRenaming channels).IsIdentity := by
  refine isIdentity_of_newNameIn fun kind owner name => ?_
  rcases hhost with hmode | hdelegate
  · simp [newNameIn, newName, htable, hmode]
  · simp only [newNameIn, newName, htable, hdelegate, Option.getD_none]
    split
    · split <;> rfl
    · rfl

theorem get?_load (config : Config) (attached : Bool) {intermediate final : Origin}
    (h : intermediate.source? = none ∨ final.source? = none) (kind : SymbolKind) (name : String) :
    (load config attached intermediate final).1.table.get? kind name = none := by
  refine Mapping.Table.get?_join_of_empty (h.imp ?_ ?_) kind name
  all_goals
    intro hsource
    rw [hsource]
    rfl

end Environment

namespace ClassFile

/-- A renaming that keeps all names changes nothing and counts nothing, and unless it fails, the
class file is stored as it was. The renaming of an environment keeps all names if the environment
covers none, or if one of its sources is missing and no host is asked. -/
theorem encode_rename_self (data : List UInt8) :
    (∀ ⦃r : Renaming⦄, r.IsIdentity →
      (∀ ⦃out⦄, (do ((← decode data).rename r).encode) = .ok out → out = data) ∧
      ∀ ⦃c⦄, decode data = .ok c → (c.rename r).file = c ∧ (c.rename r).tally = {} ∧
        ∀ ⦃c'⦄, (c.rename r).result = .ok c' → c'.encode = .ok data) ∧
    (∀ (e : Environment) (channels : Channels), e.config.scope.starts = [] →
      (e.toRenaming channels).IsIdentity) ∧
    ∀ (config : Config) (attached : Bool) (intermediate final : Origin) (channels : Channels),
      let e := (Environment.load config attached intermediate final).1
      intermediate.source? = none ∨ final.source? = none →
      config.mode = .baked ∨ e.delegate? channels = none → (e.toRenaming channels).IsIdentity := by
  refine ⟨fun r hr => ⟨fun out h => ?_, fun c hdecode => ?_⟩, ?_, ?_⟩
  · obtain ⟨c, hdecode, h⟩ := except_bind_eq_ok.mp h
    obtain ⟨c', hresult, hencode⟩ := except_bind_eq_ok.mp h
    exact Except.ok.inj (hencode.symm.trans (encode_of_rename_self hr hdecode hresult))
  · obtain ⟨hfile, htally⟩ := rename_self hr c
    exact ⟨hfile, htally, fun c' => encode_of_rename_self hr hdecode⟩
  · exact fun e channels => Environment.isIdentity_of_scope
  · intro config attached intermediate final channels e hsource hhost
    exact Environment.isIdentity_of_table (Environment.get?_load config attached hsource) hhost

/-- The environment of a host that offers no names, whose sources are missing. -/
def sourceless : Environment :=
  (Environment.load { Config.development with scope := ⟨["A"]⟩ } true .absent .unreadable).1

theorem encode_rename_self_sharingFile : ∃ c c', decode sharingFile = .ok c ∧
    (c.rename (sourceless.toRenaming .empty)).result = .ok c' ∧
    c'.encode = .ok sharingFile := by
  obtain ⟨hidentity, -, hload⟩ := encode_rename_self sharingFile
  have hhost : sourceless.delegate? .empty = none := by
    simp [Environment.delegate?, Channels.get?, Channels.empty]
  have hr : (sourceless.toRenaming .empty).IsIdentity :=
    hload _ true .absent .unreadable .empty (.inl rfl) (.inr hhost)
  obtain ⟨c, hc, hplain⟩ := eq_ok_of_any (decode sharingFile) isPlain (by decide +kernel)
  obtain ⟨c', hc'⟩ := rename_of_isPlain (sourceless.toRenaming .empty) (sound_of_decode hc) hplain
  exact ⟨c, c', hc, hc', ((hidentity hr).2 hc).2.2 hc'⟩

end ClassFile

end Relabel
