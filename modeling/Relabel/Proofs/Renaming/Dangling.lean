import Relabel.Proofs.Renaming.Again

/-!
# Entries that refer to nothing

A renaming looks at every entry that refers to names and fails at one that refers to
nothing, whatever the new names are. The one way past that is an index behind the end of
the pool: names that are added for other entries take up such indices, and an entry whose
turn comes later then refers to them. This has to happen at each index where an entry is
missing, and no class entry is ever added.
-/

namespace Relabel

/-! ## Ways to names -/

/-- The kind of the entries that have the role. -/
def Role.variant : Role → Variant
  | .name => .utf8
  | .classRef => .classRef
  | .nameAndType => .nameAndType
  | .memberRef => .memberRef

namespace Constant

/-- The indices that are followed to the names of a constant, each with the role of what has to
stand there. -/
def operands : Constant → List (Role × UInt16)
  | .classRef name | .module name | .package name => [(.name, name)]
  | .methodType descriptor => [(.name, descriptor)]
  | .nameAndType name descriptor => [(.name, name), (.name, descriptor)]
  | .memberRef _ owner member => [(.classRef, owner), (.nameAndType, member)]
  | .dynamic _ member | .invokeDynamic _ member => [(.nameAndType, member)]
  | _ => []

variable {role : Role} {c d : Constant} {j : UInt16}

theorem variant_of_fixed (h : d.fixed = c.fixed) : d.variant = c.variant := by
  cases c <;> cases d <;> cases h <;> rfl

theorem ne_memberRef_of_operand (h : (role, j) ∈ c.operands) : role ≠ .memberRef := by
  rintro rfl
  cases c <;> simp [operands] at h

theorem isReference_of_role (h : c.variant = role.variant) (hrole : role ≠ .memberRef) :
    c.isReference = false := by
  cases c <;> first
    | rfl
    | (cases role <;> contradiction)

end Constant

namespace Pool

variable {p q : Pool} {i j : UInt16} {k : Constant} {role : Role} {t : Referent}

/-- An entry of the role stands at `j`. -/
def Casts (p : Pool) (role : Role) (j : UInt16) : Prop :=
  ∃ c, p.get? j = some c ∧ c.variant = role.variant

/-- From the entry at `i` the index `j` is followed to an entry of the role. -/
inductive Seeks (p : Pool) (i : UInt16) : Role → UInt16 → Prop
  | operand {k : Constant} {role : Role} {j : UInt16} (entry : p.get? i = some k)
      (operand : (role, j) ∈ k.operands) : Seeks p i role j
  | onward {role role' : Role} {j l : UInt16} {k : Constant} (seeks : Seeks p i role j)
      (entry : p.get? j = some k) (plays : k.variant = role.variant)
      (operand : (role', l) ∈ k.operands) : Seeks p i role' l

/-- From the entry at `i` the index `j` is followed, but no entry of the role stands there. -/
def Misses (p : Pool) (i : UInt16) (role : Role) (j : UInt16) : Prop :=
  p.Seeks i role j ∧ ¬ p.Casts role j

theorem Seeks.ne_memberRef (h : p.Seeks i role j) : role ≠ .memberRef := by
  cases h with
  | operand _ operand | onward _ _ _ operand => exact Constant.ne_memberRef_of_operand operand

/-- A class entry leads to its text only. -/
theorem Seeks.eq_name {l : UInt16} (hi : p.get? i = some (.classRef l)) (h : p.Seeks i role j) :
    role = .name := by
  induction h with
  | operand entry operand =>
    cases hi.symm.trans entry
    cases List.mem_singleton.mp operand
    rfl
  | @onward _ _ _ _ k _ _ plays operand ih =>
    subst ih
    cases k <;> cases plays
    cases operand

/-! An entry refers to something exactly if it misses nothing. -/

theorem Casts.name (h : p.Casts .name j) : ∃ text, p.utf8 j = .ok text := by
  obtain ⟨c, hc, hrole⟩ := h
  cases c <;> cases hrole
  exact ⟨_, utf8_eq_ok.mpr hc⟩

theorem Casts.classRef (h : p.Casts .classRef j) : ∃ l, p.get? j = some (.classRef l) := by
  obtain ⟨c, hc, hrole⟩ := h
  cases c <;> cases hrole
  exact ⟨_, hc⟩

theorem Casts.nameAndType (h : p.Casts .nameAndType j) :
    ∃ l m, p.get? j = some (.nameAndType l m) := by
  obtain ⟨c, hc, hrole⟩ := h
  cases c <;> cases hrole
  exact ⟨_, _, hc⟩

theorem exists_refers_of_casts (hi : p.get? i = some k)
    (hk : (k.isReference || k.isClassRef) = true) (h : ∀ role j, p.Seeks i role j → p.Casts role j) :
    ∃ t, p.Refers i t := by
  have text_of {j : UInt16} (hj : p.Seeks i .name j) : ∃ text, p.utf8 j = .ok text :=
    (h _ _ hj).name
  have pair_of {j : UInt16} (hj : p.Seeks i .nameAndType j) :
      ∃ name descriptor, p.nameAndType j = .ok (name, descriptor) := by
    obtain ⟨l, m, hpair⟩ := (h _ _ hj).nameAndType
    obtain ⟨name, hname⟩ := text_of (hj.onward hpair rfl (.head _))
    obtain ⟨descriptor, hdescriptor⟩ := text_of (hj.onward hpair rfl (.tail _ (.head _)))
    exact ⟨name, descriptor, nameAndType_eq_ok.mpr ⟨l, m, hpair, hname, hdescriptor⟩⟩
  cases k
  case classRef =>
    obtain ⟨_, text⟩ := text_of (.operand hi (.head _))
    exact ⟨_, .classRef hi text⟩
  case memberRef kind owner member =>
    have howner : p.Seeks i .classRef owner := .operand hi (.head _)
    obtain ⟨l, hclass⟩ := (h _ _ howner).classRef
    obtain ⟨name, text⟩ := text_of (howner.onward hclass rfl (.head _))
    obtain ⟨_, _, pair⟩ := pair_of (.operand hi (.tail _ (.head _)))
    exact ⟨_, .memberRef hi (className_eq_ok.mpr ⟨l, hclass, text⟩) pair⟩
  case methodType =>
    obtain ⟨_, text⟩ := text_of (.operand hi (.head _))
    exact ⟨_, .methodType hi text⟩
  case dynamic =>
    obtain ⟨_, _, pair⟩ := pair_of (.operand hi (.head _))
    exact ⟨_, .dynamic hi pair⟩
  case invokeDynamic =>
    obtain ⟨_, _, pair⟩ := pair_of (.operand hi (.head _))
    exact ⟨_, .invokeDynamic hi pair⟩
  case module =>
    obtain ⟨_, text⟩ := text_of (.operand hi (.head _))
    exact ⟨_, .module hi text⟩
  case package =>
    obtain ⟨_, text⟩ := text_of (.operand hi (.head _))
    exact ⟨_, .package hi text⟩
  all_goals cases hk

theorem exists_misses (hi : p.get? i = some k) (hk : (k.isReference || k.isClassRef) = true)
    (hdangling : ∀ t, ¬ p.Refers i t) : ∃ role j, p.Misses i role j := by
  by_contra hall
  have hcasts (role : Role) (j : UInt16) (hj : p.Seeks i role j) : p.Casts role j :=
    Classical.not_not.mp fun hlost => hall ⟨role, j, hj, hlost⟩
  obtain ⟨t, ht⟩ := exists_refers_of_casts hi hk hcasts
  exact hdangling t ht

/-- What an index is followed for is there, and so are the names behind it. -/
def Resolves (p : Pool) : Role → UInt16 → Prop
  | .name, j => ∃ text, p.utf8 j = .ok text
  | .classRef, j => ∃ name, p.className j = .ok name
  | .nameAndType, j => ∃ pair, p.nameAndType j = .ok pair
  | .memberRef, j => ∃ member, p.memberRef j = .ok member

theorem Resolves.casts (h : p.Resolves role j) : p.Casts role j := by
  cases role with
  | name =>
    obtain ⟨_, htext⟩ := h
    exact ⟨_, utf8_eq_ok.mp htext, rfl⟩
  | classRef =>
    obtain ⟨_, hname⟩ := h
    obtain ⟨_, hentry, -⟩ := className_eq_ok.mp hname
    exact ⟨_, hentry, rfl⟩
  | nameAndType =>
    obtain ⟨⟨_, _⟩, hpair⟩ := h
    obtain ⟨_, _, hentry, -⟩ := nameAndType_eq_ok.mp hpair
    exact ⟨_, hentry, rfl⟩
  | memberRef =>
    obtain ⟨⟨_, _, _⟩, hmember⟩ := h
    obtain ⟨_, _, _, hentry, -⟩ := memberRef_eq_ok.mp hmember
    exact ⟨_, hentry, rfl⟩

theorem Resolves.onward {role' : Role} {l : UInt16} (h : p.Resolves role j)
    (entry : p.get? j = some k) (operand : (role', l) ∈ k.operands) : p.Resolves role' l := by
  cases role with
  | name =>
    obtain ⟨_, htext⟩ := h
    cases entry.symm.trans (utf8_eq_ok.mp htext)
    cases operand
  | classRef =>
    obtain ⟨name, hname⟩ := h
    obtain ⟨_, hentry, htext⟩ := className_eq_ok.mp hname
    cases entry.symm.trans hentry
    cases List.mem_singleton.mp operand
    exact ⟨name, htext⟩
  | nameAndType =>
    obtain ⟨⟨name, descriptor⟩, hpair⟩ := h
    obtain ⟨_, _, hentry, hname, hdescriptor⟩ := nameAndType_eq_ok.mp hpair
    cases entry.symm.trans hentry
    rcases List.mem_pair.mp operand with heq | heq <;> cases heq
    · exact ⟨name, hname⟩
    · exact ⟨descriptor, hdescriptor⟩
  | memberRef =>
    obtain ⟨⟨owner, name, descriptor⟩, hmember⟩ := h
    obtain ⟨_, _, _, hentry, howner, hpair⟩ := memberRef_eq_ok.mp hmember
    cases entry.symm.trans hentry
    rcases List.mem_pair.mp operand with heq | heq <;> cases heq
    · exact ⟨owner, howner⟩
    · exact ⟨(name, descriptor), hpair⟩

theorem Refers.resolves (ht : p.Refers i t) (hj : p.Seeks i role j) : p.Resolves role j := by
  induction hj with
  | onward _ entry _ operand ih => exact ih.onward entry operand
  | operand entry operand =>
    cases ht with
    | memberRef hentry howner hpair =>
      cases entry.symm.trans hentry
      rcases List.mem_pair.mp operand with heq | heq <;> cases heq
      · exact ⟨_, howner⟩
      · exact ⟨_, hpair⟩
    | dynamic hentry h | invokeDynamic hentry h | classRef hentry h | methodType hentry h
    | module hentry h | package hentry h =>
      cases entry.symm.trans hentry
      cases List.mem_singleton.mp operand
      exact ⟨_, h⟩

/-! ## What was added is behind the end -/

section

variable (h : Expands p q)
include h

theorem Expands.casts (hj : p.Casts role j) : q.Casts role j := by
  obtain ⟨c, hc, hrole⟩ := hj
  obtain ⟨c', hc', hfixed⟩ := h.get? hc
  exact ⟨c', hc', (Constant.variant_of_fixed hfixed).trans hrole⟩

theorem Expands.casts_old (hlt : j.toNat < p.slots) (hj : q.Casts role j) : p.Casts role j := by
  obtain ⟨c, hc, hrole⟩ := hj
  obtain ⟨hn, hne⟩ := get?_eq_some.mp hc
  have hold : p.entries[j.toNat]? = some p.entries[j.toNat] := Array.getElem?_eq_getElem hlt
  obtain ⟨c', hc', hfixed⟩ := h.kept hold
  cases hn.symm.trans hc'
  refine ⟨_, get?_eq_some.mpr ⟨hold, mt (Constant.eq_unusable_of_fixed hfixed).mpr hne⟩, ?_⟩
  exact (Constant.variant_of_fixed hfixed).symm.trans hrole

/-- Only texts and pairs of texts are added. -/
theorem Expands.ne_classRef_of_casts (hp : p.Complete) (hle : p.slots ≤ j.toNat)
    (hj : q.Casts role j) : role ≠ .classRef := by
  rintro rfl
  obtain ⟨l, hclass⟩ := hj.classRef
  obtain ⟨htext, -⟩ := h.added hp hle (get?_eq_some.mp hclass).1
  cases htext

/-- An entry that refers to something misses only what was behind the end before, if the way to
its names is still the same. -/
theorem Expands.of_misses (ht : q.Refers i t) (hmisses : p.Misses i role j)
    (hseeks : q.Seeks i role j) : p.slots ≤ j.toNat ∧ q.Casts role j := by
  have hcasts := (ht.resolves hseeks).casts
  exact ⟨Nat.le_of_not_lt fun hlt => hmisses.2 (h.casts_old hlt hcasts), hcasts⟩

end

/-- The way to the names of an entry stays the same if the entries on it do. -/
theorem Seeks.kept (hj : p.Seeks i role j) (hentry : ∀ ⦃k⦄, p.get? i = some k → q.get? i = some k)
    (hway : ∀ ⦃role j k⦄, p.Seeks i role j → p.get? j = some k → k.variant = role.variant →
      q.get? j = some k) : q.Seeks i role j := by
  induction hj with
  | operand entry operand => exact .operand (hentry entry) operand
  | onward seeks entry plays operand ih => exact ih.onward (hway seeks entry plays) plays operand

end Pool

/-! ## The turn of an entry -/

namespace Edit

variable {α : Type} {r : Renaming} {i j : UInt16} {k : Constant} {role : Role}

/-- When the first phase succeeds, what a reference misses was added behind the end. -/
theorem references_of_misses {f f' : Focus α} (hp : f.pool.Sound) (hi : f.pool.get? i = some k)
    (hk : k.isReference = true) (h : eachIndex (renameReference r) f.pool.slots f = .ok () f')
    (hmisses : f.pool.Misses i role j) : f.pool.slots ≤ j.toNat ∧ f'.pool.Casts role j := by
  obtain ⟨g, g', hbefore, hstep, hafter⟩ := eachIndex_reaches (R := Pool.Expands)
    (fun _ => stays_renameReference_frame) (fun _ => stays_renameReference_expands) hp.slots_le
    (hp.index_pos hi) (Pool.get?_lt_slots hi) h
  obtain ⟨hframe, hexpands⟩ := hbefore.pool
  have hexpands' : Pool.Expands g.pool f'.pool :=
    trans_of _ (stays_renameReference_expands.ok hstep).pool hafter.pool.2
  obtain ⟨t, ht⟩ := exists_refers hstep (hframe.get? hi (.inl rfl)) hk
  have hseeks : g.pool.Seeks i role j := hmisses.1.kept (fun k hk => hframe.get? hk (.inl rfl))
    fun _ _ _ seeks entry plays =>
      hframe.get? entry (.inr (Constant.isReference_of_role plays seeks.ne_memberRef))
  exact (hexpands.of_misses ht hmisses hseeks).imp_right hexpands'.casts

/-- When the second phase succeeds, what a class entry misses was added behind the end. -/
theorem classes_of_misses {f f' : Focus α} {p : Pool} {l : UInt16} (hp : p.Sound)
    (hexpands : Pool.Expands p f.pool) (hi : p.get? i = some (.classRef l))
    (hkept : f.pool.get? i = some (.classRef l))
    (h : eachIndex (renameClassEntry r) p.slots f = .ok () f')
    (hmisses : p.Misses i role j) : p.slots ≤ j.toNat ∧ f'.pool.Casts role j := by
  obtain ⟨g, g', hbefore, hstep, hafter⟩ := eachIndex_reaches (R := Pool.Expands)
    (fun _ => stays_renameClassEntry_frame) (fun _ => stays_renameClassEntry_expands) hp.slots_le
    (hp.index_pos hi) (Pool.get?_lt_slots hi) h
  obtain ⟨hframe, hexpands₁⟩ := hbefore.pool
  have hexpands₂ : Pool.Expands g.pool f'.pool :=
    trans_of _ (stays_renameClassEntry_expands.ok hstep).pool hafter.pool.2
  have hentry : g.pool.get? i = some (.classRef l) := hframe.get? hkept (.inl rfl)
  obtain ⟨name, hname⟩ := exists_className hstep hentry
  obtain ⟨_, hentry', text⟩ := Pool.className_eq_ok.mp hname
  cases hentry.symm.trans hentry'
  have hexpands' : Pool.Expands p g.pool := hexpands.trans hexpands₁
  have hseeks : g.pool.Seeks i role j := by
    refine hmisses.1.kept (fun k hk => ?_) fun role j k seeks entry plays => ?_
    · cases hi.symm.trans hk
      exact hentry
    · -- nothing but the text of the class is on the way
      obtain rfl := seeks.eq_name hi
      obtain ⟨text, htext⟩ : ∃ text, p.utf8 j = .ok text := Pool.Casts.name ⟨k, entry, plays⟩
      cases entry.symm.trans (Pool.utf8_eq_ok.mp htext)
      exact Pool.utf8_eq_ok.mp (hexpands'.utf8 htext)
  exact (hexpands'.of_misses (.classRef hentry text) hmisses hseeks).imp_right hexpands₂.casts

namespace Passes

variable {owner : String} {f f₁ f' : Focus Declarations} {f₂ f₃ : Focus (Array Member)}
  {f₄ : Focus (Array Attribute)} (h : Passes r owner f f₁ f₂ f₃ f₄ f')
include h

theorem of_misses (hp : f.pool.Sound) (hi : f.pool.get? i = some k)
    (hk : (k.isReference || k.isClassRef) = true) (hmisses : f.pool.Misses i role j) :
    f.pool.slots ≤ j.toNat ∧ f'.pool.Casts role j := by
  rcases Bool.or_eq_true_iff.mp hk with hreference | hclass
  · refine (references_of_misses hp hi hreference h.references hmisses).imp_right ?_
    rintro ⟨c, hc, hrole⟩
    exact h.expands_classes.casts ⟨c, (h.grows_references hp).get? hc trivial, hrole⟩
  · obtain ⟨l, rfl⟩ : ∃ l, k = .classRef l := by
      cases k <;> first | exact ⟨_, rfl⟩ | cases hclass
    have hkept : f₄.pool.get? i = some (.classRef l) :=
      (h.grows_references hp).get? (h.keeps_references.frame.get? hi rfl) trivial
    exact classes_of_misses hp h.expands_attributes hi (by exact hkept) h.classes hmisses

end Passes

end Edit

namespace ClassFile

variable {data : List UInt8} {c : ClassFile} {i : UInt16} {k : Constant}

/-- An entry that refers to nothing misses an entry somewhere on the way to its names. A renaming
then fails, unless it adds what is missing: each index where the way ends lies behind the end of
the pool and gets a text or a pair of texts. -/
theorem rename_of_dangling (r : Renaming) (hdecode : decode data = .ok c)
    (hi : c.pool.get? i = some k) (hk : (k.isReference || k.isClassRef) = true)
    (hdangling : ∀ t, ¬ c.pool.Refers i t) :
    (∃ role j, c.pool.Misses i role j) ∧
    ((∃ fault, (c.rename r).result = .error fault) ∨
      ∃ c', (c.rename r).result = .ok c' ∧ ∀ ⦃role j⦄, c.pool.Misses i role j →
        c.pool.slots ≤ j.toNat ∧ role ≠ .classRef ∧ c'.pool.Casts role j) := by
  refine ⟨Pool.exists_misses hi hk hdangling, ?_⟩
  cases hresult : (c.rename r).result with
  | error fault => exact .inl ⟨fault, rfl⟩
  | ok c' =>
    have hexpands : Pool.Expands c.pool c'.pool :=
      Renamed.file_of_result hresult ▸ expands_rename c r
    obtain ⟨_, f, -, hrun, rfl, -⟩ := renameAll_of_rename hresult
    obtain ⟨f₁, f₂, f₃, f₄, hpasses⟩ :=
      Edit.renameAll_passes (f := ⟨c.declarations, c.pool, {}, #[]⟩) hrun
    refine .inr ⟨_, rfl, fun role j hmisses => ?_⟩
    obtain ⟨hle, hcasts⟩ := hpasses.of_misses (sound_of_decode hdecode) hi hk hmisses
    exact ⟨hle, hexpands.ne_classRef_of_casts (complete_of_decode hdecode) hle hcasts, hcasts⟩

/-! ## An index behind the end -/

open Edit

/-- The pool of a class `C` with the type of the class `A` and another one at `type`. -/
def danglingEntries (type : UInt16) : Array Constant :=
  #[.unusable, .utf8 "C", .classRef 1, .utf8 "LA;", .methodType 3, .methodType type]

def danglingFile (type : UInt8) : List UInt8 :=
  [0xCA, 0xFE, 0xBA, 0xBE, 0, 0, 0, 52, 0, 6,
    1, 0, 1, 67, 7, 0, 1, 1, 0, 3, 76, 65, 59, 16, 0, 3, 16, 0, type,
    0, 33, 0, 2, 0, 0, 0, 0, 0, 0, 0, 0, 0, 0]

theorem decode_danglingFile (type : UInt8) (index : UInt16)
    (h : (decode (danglingFile type)).toOption.any
      (· == bare ⟨danglingEntries index, ∅⟩) = true) :
    ∃ p : Pool, p.entries = danglingEntries index ∧
      decode (danglingFile type) = .ok (bare p) := decode_of_beq h

theorem not_refers_danglingEntries {p : Pool} {index : UInt16}
    (hentries : p.entries = danglingEntries index)
    (hindex : ∀ text, (Pool.utf8 ⟨danglingEntries index, ∅⟩ index) ≠ .ok text) (t : Referent) :
    ¬ p.Refers 5 t := by
  intro ht
  have h5 : p.get? 5 = some (.methodType index) :=
    (Pool.get?_congr (p := ⟨danglingEntries _, ∅⟩) hentries 5).trans rfl
  cases ht with
  | methodType entry text =>
    cases h5.symm.trans entry
    rw [Pool.utf8_congr (p := ⟨danglingEntries index, ∅⟩) hentries] at text
    exact hindex _ text
  | _ entry => cases h5.symm.trans entry

/-- Where the index is one of a slot that is not in use, every renaming fails. -/
theorem rename_danglingFile : ∃ c, decode (danglingFile 0) = .ok c ∧
    ∀ r, ∃ fault, (c.rename r).result = .error fault := by
  obtain ⟨p, hentries, hdecode⟩ := decode_danglingFile 0 0 (by decide +kernel)
  have h5 : p.get? 5 = some (.methodType 0) :=
    (Pool.get?_congr (p := ⟨danglingEntries _, ∅⟩) hentries 5).trans rfl
  have hslots : p.slots = 6 := congrArg Array.size hentries
  have hlost : ¬ p.Casts .name 0 := by
    rintro ⟨c, hc, -⟩
    cases ((Pool.get?_congr (p := ⟨danglingEntries _, ∅⟩) hentries 0).trans rfl).symm.trans hc
  refine ⟨_, hdecode, fun r => (rename_of_dangling r hdecode h5 rfl
    (not_refers_danglingEntries hentries nofun)).2.resolve_right ?_⟩
  rintro ⟨c', -, hall⟩
  obtain ⟨hle, -⟩ := hall ⟨.operand h5 (.head _), hlost⟩
  rw [bare, hslots] at hle
  revert hle
  decide

/-- Renames the class `A` to `B`. -/
def typeExchange : Renaming :=
  { Renaming.identity with className := fun name => if name = "A" then "B" else name }

/-- The new type gets the index that the other entry has. -/
theorem references_danglingEntries {d : Declarations} {p : Pool} (hp : p.Sound)
    (hentries : p.entries = danglingEntries 6) : ∃ q : Pool,
      q.entries = ((danglingEntries 6).push (.utf8 "LB;")).setIfInBounds 4 (.methodType 6) ∧
      eachIndex (renameReference typeExchange) p.slots ⟨d, p, {}, #[]⟩
        = .ok () ⟨d, q, ({} : Tally).addDynamic, #[]⟩ := by
  have hslots : p.slots = 6 := congrArg Array.size hentries
  have hcount : p.count = 6 := congrArg UInt16.ofNat hslots
  have htype : p.get? 4 = some (.methodType 3) :=
    (Pool.get?_congr (p := ⟨danglingEntries 6, ∅⟩) hentries 4).trans rfl
  have htext : p.utf8 3 = .ok "LA;" :=
    (Pool.utf8_congr (p := ⟨danglingEntries 6, ∅⟩) hentries 3).trans rfl
  have hfresh : .utf8 "LB;" ∉ p.entries := by
    rw [hentries]
    decide +kernel
  have hroom : p.slots < Pool.maxSlots := by
    rw [hslots]
    decide
  have hbefore : ∀ c ∈ p.entries.toList.take 4, c.isReference = false := by
    rw [hentries]
    decide
  have hnew : typeExchange.descriptor "LA;" = .ok "LB;" := by decide +kernel
  have hturn : renameReference typeExchange 4 (⟨d, p, {}, #[]⟩ : Focus Declarations)
      = repointText 4 .methodType Tally.addDynamic 3 typeExchange.descriptor ⟨d, p, {}, #[]⟩ := by
    rw [renameReference, query_bind, htype]
  -- the other entry has the same text as the renamed one when its turn comes
  have hlast (q : Pool) (hq : q.entries
      = (p.entries.push (.utf8 "LB;")).setIfInBounds 4 (.methodType p.count)) :
      renameReference typeExchange 5 (⟨d, q, ({} : Tally).addDynamic, #[]⟩ : Focus Declarations)
        = .ok () ⟨d, q, ({} : Tally).addDynamic, #[]⟩ := by
    rw [hcount, hentries] at hq
    have hentry : q.get? 5 = some (.methodType 6) := (Pool.get?_congr (p := ⟨_, ∅⟩) hq 5).trans rfl
    have htext' : q.utf8 6 = .ok "LB;" := (Pool.utf8_congr (p := ⟨_, ∅⟩) hq 6).trans rfl
    refine renameReference_self (.methodType hentry htext') ?_
    decide +kernel
  have hindex (j : UInt16) (hj : (4 : UInt16).toNat < j.toNat) (hlt : j.toNat < p.slots) :
      j = 5 := by
    rw [hslots] at hlt
    exact UInt16.toNat_inj.mp (Nat.le_antisymm (Nat.le_of_lt_succ hlt) hj)
  obtain ⟨q, hq, hrun⟩ := references_of_fresh hp (by decide) hfresh hroom htype htext hnew rfl
    hbefore hturn fun q hq j hj hlt => hindex j hj hlt ▸ hlast q hq
  rw [hcount, hentries] at hq
  exact ⟨q, hq, hrun⟩

/-- An entry that refers to nothing may refer to a new name when its turn comes. -/
theorem not_rename_of_dangling : ¬ ∀ (r : Renaming) (data : List UInt8) (c : ClassFile)
    (i : UInt16) (k : Constant), decode data = .ok c → c.pool.get? i = some k →
    (k.isReference || k.isClassRef) = true → (∀ t, ¬ c.pool.Refers i t) →
    ∃ fault, (c.rename r).result = .error fault := by
  intro hall
  obtain ⟨p, hentries, hdecode⟩ := decode_danglingFile 6 6 (by decide +kernel)
  have hp : p.Sound := sound_of_decode hdecode
  have hentry : p.get? 5 = some (.methodType 6) :=
    (Pool.get?_congr (p := ⟨danglingEntries _, ∅⟩) hentries 5).trans rfl
  obtain ⟨fault, hfault⟩ := hall typeExchange _ _ 5 _ hdecode hentry rfl
    (not_refers_danglingEntries hentries nofun)
  obtain ⟨q, hq, hreferences⟩ :=
    references_danglingEntries (d := ⟨#[], #[], #[]⟩) hp hentries
  have hclasses : ∀ c ∈ q.entries, c.isClassRef = true → c = .classRef 1 := by
    rw [hq]
    decide +kernel
  have hname : q.utf8 1 = .ok "C" := (Pool.utf8_congr (p := ⟨_, ∅⟩) hq 1).trans rfl
  have hfinal : typeExchange.type "C" = .ok "C" := by decide +kernel
  have howner : p.className 2 = .ok "C" :=
    (Pool.className_congr (p := ⟨danglingEntries _, ∅⟩) hentries 2).trans rfl
  rw [rename_bare howner hreferences hclasses hname hfinal] at hfault
  cases hfault

end ClassFile

end Relabel
