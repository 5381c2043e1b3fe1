import Mathlib.Data.List.Nodup
import Relabel.Naming.Environment
import Relabel.Proofs.Mapping.Join
import Relabel.Proofs.Mapping.Printed

/-!
# Listings of symbols

A listing gives symbols the names that they have in the intermediate and in the final
naming. The environment over its two printed files knows exactly the symbols that have both
names and are no methods of every object, in whatever order and with whatever line ends the
files are printed.
-/

namespace Relabel

open Mapping Text

/-- A symbol by its key, with its names. -/
structure Entry where
  key : Key
  intermediate : Option String
  final : Option String
  deriving DecidableEq

/-- Symbols with their names, each of which a line can hold. A key belongs to one symbol, and so
does an intermediate name of a kind. -/
structure Listing where
  entries : List Entry
  fieldType : String → String → String
  keys_nodup : (entries.map (·.key)).Nodup
  intermediate_inj : ∀ a ∈ entries, ∀ b ∈ entries, a.key.kind = b.key.kind →
    a.intermediate.isSome → a.intermediate = b.intermediate → a = b
  isWord : ∀ entry ∈ entries, ∀ text ∈ entry.key.texts fieldType
    ++ (entry.intermediate.toList ++ entry.final.toList), IsWord text

namespace Listing

variable {l : Listing} {column : Entry → Option String} {record : Record}

/-- The records of the names in one column. -/
def records (l : Listing) (column : Entry → Option String) : List Record :=
  l.entries.filterMap fun entry => (column entry).map fun name => ⟨entry.key, name⟩

theorem mem_records : record ∈ l.records column ↔
    ∃ entry ∈ l.entries, entry.key = record.key ∧ column entry = some record.name := by
  simp only [records, List.mem_filterMap, Option.map_eq_some_iff]
  constructor
  · rintro ⟨entry, hentry, name, hname, rfl⟩
    exact ⟨entry, hentry, rfl, hname⟩
  · rintro ⟨entry, hentry, hkey, hname⟩
    exact ⟨entry, hentry, record.name, hname, by rw [hkey]⟩

theorem key_inj {a b : Entry} (ha : a ∈ l.entries) (hb : b ∈ l.entries) (h : a.key = b.key) :
    a = b :=
  List.inj_on_of_nodup_map l.keys_nodup ha hb h

theorem isPrintable_of_mem (hcolumn : ∀ entry, ∀ name ∈ column entry,
      name ∈ entry.intermediate.toList ++ entry.final.toList)
    (h : record ∈ l.records column) : record.IsPrintable l.fieldType := by
  obtain ⟨entry, hentry, hkey, hname⟩ := mem_records.mp h
  have hword := l.isWord entry hentry
  rw [hkey] at hword
  intro text htext
  refine hword text ?_
  rcases List.mem_append.mp htext with htext | htext
  · exact List.mem_append_left _ htext
  · rw [List.mem_singleton.mp htext]
    exact List.mem_append_right _ (hcolumn entry _ hname)

/-! ## The join of the two columns -/

variable {intermediate final : Array Record}

/-- The keys that have an intermediate name are known by it. -/
theorem getElem?_namesByKey (h : intermediate.toList.Perm (l.records (·.intermediate)))
    (key : Key) (name : String) : (Table.namesByKey intermediate)[key]? = some name ↔
      ∃ entry ∈ l.entries, entry.key = key ∧ entry.intermediate = some name := by
  rw [Table.getElem?_namesByKey]
  constructor
  · intro hname
    obtain ⟨record, hrecord, hkey, rfl⟩ := Table.exists_of_map_find?_reverse hname
    rw [← of_decide_eq_true hkey]
    exact mem_records.mp (h.mem_iff.mp hrecord)
  · rintro ⟨entry, hentry, rfl, hname⟩
    have hmem : Record.mk entry.key name ∈ intermediate.toList :=
      h.mem_iff.mpr (mem_records.mpr ⟨entry, hentry, rfl, hname⟩)
    refine Table.map_find?_reverse (f := Record.name) hmem (decide_eq_true rfl) ?_
    intro other hother hkey
    obtain ⟨entry', hentry', hkey', hname'⟩ := mem_records.mp (h.mem_iff.mp hother)
    have heq := key_inj hentry' hentry (hkey'.trans (of_decide_eq_true hkey))
    rw [heq, hname] at hname'
    exact (Option.some.inj hname').symm

/-- The table knows the symbols with both names that are no methods of every object. -/
theorem get?_join (hintermediate : intermediate.toList.Perm (l.records (·.intermediate)))
    (hfinal : ∀ record, record ∈ final.toList ↔
      record ∈ l.records (·.final) ∧ record.key.isUniversal = false)
    (kind : SymbolKind) (name new : String) :
    (Table.join intermediate final).1.get? kind name = some new ↔
      ∃ entry ∈ l.entries, entry.key.kind = kind ∧ entry.intermediate = some name ∧
        entry.final = some new ∧ entry.key.isUniversal = false := by
  have hnames := getElem?_namesByKey hintermediate
  rw [Table.get?_join]
  constructor
  · intro hnew
    obtain ⟨record, hrecord, hkey, rfl⟩ := Table.exists_of_map_find?_reverse hnew
    obtain ⟨hkind, hname⟩ := of_decide_eq_true hkey
    obtain ⟨hmem, huniversal⟩ := (hfinal record).mp hrecord
    obtain ⟨entry, hentry, hkey, hfinal⟩ := mem_records.mp hmem
    obtain ⟨entry', hentry', hkey', hname⟩ := (hnames record.key name).mp hname
    cases key_inj hentry hentry' (hkey.trans hkey'.symm)
    rw [← hkey] at huniversal
    exact ⟨entry, hentry, (congrArg Key.kind hkey).trans hkind, hname, hfinal, huniversal⟩
  · rintro ⟨entry, hentry, rfl, hname, hnew, huniversal⟩
    have hmem : Record.mk entry.key new ∈ final.toList :=
      (hfinal _).mpr ⟨mem_records.mpr ⟨entry, hentry, rfl, hnew⟩, huniversal⟩
    have hknown := (hnames entry.key name).mpr ⟨entry, hentry, rfl, hname⟩
    refine Table.map_find?_reverse (f := Record.name) hmem (decide_eq_true ⟨rfl, hknown⟩) ?_
    intro other hother hkey
    obtain ⟨hkind, hname'⟩ := of_decide_eq_true hkey
    obtain ⟨entry', hentry', hkey', hname'⟩ := (hnames other.key name).mp hname'
    -- both names of the other record belong to one entry, by its key
    obtain ⟨entry'', hentry'', hkey'', hnew'⟩ := mem_records.mp ((hfinal other).mp hother).1
    have hsame : entry'' = entry' := key_inj hentry'' hentry' (hkey''.trans hkey'.symm)
    have heq : entry' = entry := l.intermediate_inj entry' hentry' entry hentry
      ((congrArg Key.kind hkey').trans hkind) (hname' ▸ rfl) (hname'.trans hname.symm)
    rw [hsame, heq, hnew] at hnew'
    exact (Option.some.inj hnew').symm

/-! ## The printed files -/

/-- A Tiny file of the intermediate names: the records in any order behind a header. -/
structure TinyFile (l : Listing) where
  header : String
  order : List Record
  lines : List (String × LineEnd)
  isLine_header : IsLine header
  order_perm : order.Perm (l.records (·.intermediate))
  lines_eq : lines.map (·.1) = header :: order.map (Tiny.lineOf l.fieldType)

/-- A TSRG file of the final names: the records in blocks, so the class of every member has one. -/
structure TsrgFile (l : Listing) where
  blocks : List Tsrg.Block
  lines : List (String × LineEnd)
  blocks_perm : (blocks.flatMap (·.records)).Perm (l.records (·.final))
  lines_eq : lines.map (·.1) = (blocks.flatMap (·.records)).map Tsrg.lineOf

def TinyFile.toSource (file : l.TinyFile) (name : String) : Source := ⟨name, printLines file.lines⟩

def TsrgFile.toSource (file : l.TsrgFile) (name : String) : Source := ⟨name, printLines file.lines⟩

theorem TinyFile.records_perm (file : l.TinyFile) (name : String) :
    (Tiny.load (some (file.toSource name))).records.toList.Perm
      (l.records (·.intermediate)) := by
  rw [toSource, Tiny.records_load name file.lines_eq file.isLine_header]
  · exact file.order_perm
  · exact fun record hrecord => isPrintable_of_mem (fun entry name hname =>
      List.mem_append_left _ (Option.mem_toList.mpr hname)) (file.order_perm.mem_iff.mp hrecord)

theorem TsrgFile.mem_records (file : l.TsrgFile) (name : String) (record : Record) :
    record ∈ (Tsrg.load (some (file.toSource name))).records.toList ↔
      record ∈ l.records (·.final) ∧ record.key.isUniversal = false := by
  rw [toSource, Tsrg.records_load name file.lines_eq]
  · rw [List.mem_filter, file.blocks_perm.mem_iff, Bool.not_eq_true']
  · exact fun record hrecord => isPrintable_of_mem (fun entry name hname =>
      List.mem_append_right _ (Option.mem_toList.mpr hname)) (file.blocks_perm.mem_iff.mp hrecord)

end Listing

namespace Environment

theorem newName_load (config : Config) (hmode : config.mode = .baked) (attached : Bool)
    (intermediate final : Origin) (channels : Channels) (kind : SymbolKind) (name : String) :
    (load config attached intermediate final).1.newName channels kind name
      = ((Table.join (Tiny.load intermediate.source?).records
          (Tsrg.load final.source?).records).1.get? kind name).getD name := by
  rw [load, ofRecords, newName, hmode]

/-- The environment over the printed files of a listing renames the symbols with both names that are
no methods of every object, and no other names. -/
theorem newName_load_listing (l : Listing) (tiny : l.TinyFile) (tsrg : l.TsrgFile)
    (config : Config) (hmode : config.mode = .baked) (attached : Bool) (channels : Channels)
    (tinyName tsrgName : String) :
    let e := (load config attached (.source (tiny.toSource tinyName))
      (.source (tsrg.toSource tsrgName))).1
    (∀ entry ∈ l.entries, ∀ name final, entry.intermediate = some name →
      entry.final = some final → entry.key.isUniversal = false →
      e.newName channels entry.key.kind name = final) ∧
    ∀ kind name, (∀ entry ∈ l.entries, entry.key.kind = kind → entry.intermediate = some name →
      entry.final = none ∨ entry.key.isUniversal = true) → e.newName channels kind name = name := by
  intro e
  have hnew (kind : SymbolKind) (name : String) : e.newName channels kind name
      = ((Table.join (Tiny.load (some (tiny.toSource tinyName))).records
          (Tsrg.load (some (tsrg.toSource tsrgName))).records).1.get? kind name).getD name :=
    newName_load config hmode attached _ _ channels kind name
  have hget := Listing.get?_join (tiny.records_perm tinyName) fun record =>
    tsrg.mem_records tsrgName record
  generalize (Table.join (Tiny.load (some (tiny.toSource tinyName))).records
    (Tsrg.load (some (tsrg.toSource tsrgName))).records).1 = t at hnew hget
  constructor
  · intro entry hentry name final hname hfinal huniversal
    rw [hnew, (hget entry.key.kind name final).mpr ⟨entry, hentry, rfl, hname, hfinal, huniversal⟩]
    rfl
  · intro kind name hother
    have hnone : t.get? kind name = none := by
      refine Option.eq_none_iff_forall_ne_some.mpr fun new hsome => ?_
      obtain ⟨entry, hentry, hkind, hname, hfinal, huniversal⟩ := (hget kind name new).mp hsome
      rcases hother entry hentry hkind hname with hnone | htrue
      · cases hnone.symm.trans hfinal
      · cases htrue.symm.trans huniversal
    rw [hnew, hnone]
    rfl

/-- A class with a field, a method and a method of every object, and two classes that have only one
of the names each. -/
def entityListing : Listing where
  entries := [⟨.ofClass "a", some "C_1", some "Entity"⟩,
    ⟨.ofField "a" "b", some "f_1", some "age"⟩,
    ⟨.ofMethod "a" "b" "()V", some "m_1", some "tick"⟩,
    ⟨.ofMethod "a" "equals" "(La;)Z", some "m_2", some "same"⟩,
    ⟨.ofClass "c", some "C_2", none⟩, ⟨.ofClass "d", none, some "World"⟩]
  fieldType _ _ := "I"
  keys_nodup := by decide
  intermediate_inj := by decide
  isWord := by decide +kernel

/-- Mixed line ends, and the class behind its members. -/
def entityTiny : entityListing.TinyFile where
  header := "v1\tofficial\tintermediary"
  order := [⟨.ofMethod "a" "equals" "(La;)Z", "m_2"⟩, ⟨.ofClass "c", "C_2"⟩,
    ⟨.ofField "a" "b", "f_1"⟩, ⟨.ofClass "a", "C_1"⟩, ⟨.ofMethod "a" "b" "()V", "m_1"⟩]
  lines := [("v1\tofficial\tintermediary", .newline),
    ("METHOD\ta\t(La;)Z\tequals\tm_2", .newline), ("CLASS\tc\tC_2", .carriageReturnNewline),
    ("FIELD\ta\tI\tb\tf_1", .newline), ("CLASS\ta\tC_1", .newline),
    ("METHOD\ta\t()V\tb\tm_1", .carriageReturnNewline)]
  isLine_header := by decide
  order_perm := by decide +kernel
  lines_eq := by decide +kernel

/-- A class without members, and one with all of them. -/
def entityTsrg : entityListing.TsrgFile where
  blocks := [⟨"d", "World", [], nofun⟩, ⟨"a", "Entity", [⟨.ofMethod "a" "equals" "(La;)Z", "same"⟩,
    ⟨.ofField "a" "b", "age"⟩, ⟨.ofMethod "a" "b" "()V", "tick"⟩], by decide⟩]
  lines := [("d World", .carriageReturnNewline), ("a Entity", .carriageReturnNewline),
    ("\tequals (La;)Z same", .carriageReturnNewline), ("\tb age", .carriageReturnNewline),
    ("\tb ()V tick", .carriageReturnNewline)]
  blocks_perm := by decide +kernel
  lines_eq := by decide +kernel

theorem newName_load_entityListing :
    let e := (load .production true (.source (entityTiny.toSource "tiny"))
      (.source (entityTsrg.toSource "tsrg"))).1
    e.newName .empty .ofClass "C_1" = "Entity" ∧ e.newName .empty .ofField "f_1" = "age" ∧
      e.newName .empty .ofMethod "m_1" = "tick" ∧ e.newName .empty .ofMethod "m_2" = "m_2" ∧
      e.newName .empty .ofClass "C_2" = "C_2" ∧ e.newName .empty .ofMethod "f_1" = "f_1" := by
  intro e
  obtain ⟨hknown, hother⟩ := newName_load_listing entityListing entityTiny entityTsrg
    .production rfl true .empty "tiny" "tsrg"
  refine ⟨?_, ?_, ?_, ?_, ?_, ?_⟩
  · exact hknown ⟨.ofClass "a", some "C_1", some "Entity"⟩ (by decide) _ _ rfl rfl rfl
  · exact hknown ⟨.ofField "a" "b", some "f_1", some "age"⟩ (by decide) _ _ rfl rfl rfl
  · exact hknown ⟨.ofMethod "a" "b" "()V", some "m_1", some "tick"⟩ (by decide) _ _ rfl rfl
      (by decide)
  all_goals exact hother _ _ (by decide)

end Environment

end Relabel
