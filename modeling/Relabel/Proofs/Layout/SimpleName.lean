import Mathlib.Data.List.DropRight
import Relabel.Proofs.Layout.Exact

/-!
# Simple names of inner classes

The simple name of an inner class follows its binary name only if the last part of that
changes. Between a name with a package and one without, an equal last part goes unnoticed:
then the simple name is taken from the new binary name although its last part is the same.
Nothing else in the table of inner classes is touched.
-/

namespace Relabel.Layout

variable {r : Renaming} {kind : SymbolKind} {q : Pool} {old new simple : String}

/-! ## The rule -/

/-- What stands behind the last `mark`, or all of the name if there is none. -/
def lastPart (mark : Char) (name : String) : List Char := name.toList.rtakeWhile (· != mark)

/-- What stands behind the last `$` and any digits there. -/
def bareName (name : String) : String :=
  String.ofList ((lastPart '$' name).dropWhile Char.isDigit)

/-- The simple name of a class that is called `new` instead of `old`: it stays, unless the last part
of the binary name changes and gives a new one. -/
def simpleNameAfter (old new simple : String) : String :=
  if new = old ∨ lastPart '/' new = lastPart '/' old ∨ '$' ∉ new.toList ∨ bareName new = "" then
    simple
  else bareName new

/-- Exactly one of the names has a package, and their last part is the same and gives a simple
name. -/
def MovesPackage (old new : String) : Prop :=
  lastPart '/' new = lastPart '/' old ∧ ('/' ∈ new.toList ↔ '/' ∉ old.toList) ∧
    '$' ∈ new.toList ∧ bareName new ≠ ""

instance : Decidable (MovesPackage old new) := inferInstanceAs (Decidable (_ ∧ _ ∧ _ ∧ _))

theorem afterLast?_eq (mark : Char) (name : String) : Walk.afterLast? mark name.toList
    = if mark ∈ name.toList then some (lastPart mark name) else none := by
  simp only [Walk.afterLast?, List.contains_iff_mem]
  rfl

theorem lastPart_of_not_mem {mark : Char} {name : String} (h : mark ∉ name.toList) :
    lastPart mark name = name.toList := by
  rw [lastPart, List.rtakeWhile_eq_self_iff]
  intro c hc
  simp only [bne_iff_ne, ne_eq]
  rintro rfl
  exact h hc

/-- The name behind the `$` becomes the simple name, if there is one. -/
theorem getD_tail (new simple : String) : (Walk.newSimpleName?.tail new simple).getD simple
    = if '$' ∉ new.toList ∨ bareName new = "" then simple else bareName new := by
  rw [Walk.newSimpleName?.tail, afterLast?_eq]
  by_cases hdollar : '$' ∈ new.toList
  case neg => simp [hdollar]
  simp only [hdollar, if_true, not_true, false_or, Option.bind_eq_bind, Option.bind_some]
  rw [← bareName]
  by_cases hempty : bareName new = ""
  · simp [hempty]
  · by_cases hsame : bareName new = simple <;> simp [hempty, hsame]

/-- The last parts are compared only if both names have a package. -/
theorem newSimpleName?_eq (old new simple : String) : Walk.newSimpleName? old new simple
    = if new = old ∨ '/' ∈ old.toList ∧ '/' ∈ new.toList ∧ lastPart '/' new = lastPart '/' old
      then none else Walk.newSimpleName?.tail new simple := by
  rw [Walk.newSimpleName?, afterLast?_eq, afterLast?_eq]
  by_cases hsame : new = old
  · rw [if_pos hsame, if_pos (.inl hsame)]
  rw [if_neg hsame]
  simp only [hsame, false_or]
  by_cases hold : '/' ∈ old.toList <;> by_cases hnew : '/' ∈ new.toList <;>
    simp only [hold, hnew, if_true, if_false, true_and, false_and]
  simp only [eq_comm]

/-- Names with the same last part both have a package, or just one of them has. -/
theorem package_of_lastPart (hne : new ≠ old) (h : lastPart '/' new = lastPart '/' old) :
    '/' ∈ old.toList ∧ '/' ∈ new.toList ∨ ('/' ∈ new.toList ↔ '/' ∉ old.toList) := by
  by_cases hnew : '/' ∈ new.toList <;> by_cases hold : '/' ∈ old.toList
  · exact .inl ⟨hold, hnew⟩
  · exact .inr (iff_of_true hnew hold)
  · exact .inr (iff_of_false hnew (not_not.mpr hold))
  · rw [lastPart_of_not_mem hnew, lastPart_of_not_mem hold, String.toList_inj] at h
    exact absurd h hne

/-- A class has the simple name that the rule tells, unless it moves between the unnamed package
and another one. -/
theorem getD_newSimpleName? (old new simple : String) :
    (Walk.newSimpleName? old new simple).getD simple
      = if MovesPackage old new then bareName new else simpleNameAfter old new simple := by
  rw [newSimpleName?_eq]
  split
  case isTrue hkept =>
    have hrule : simpleNameAfter old new simple = simple :=
      if_pos (hkept.imp_right fun h => .inl h.2.2)
    have hmoves : ¬ MovesPackage old new := by
      rintro ⟨-, hone, -⟩
      obtain rfl | ⟨hold, hnew, -⟩ := hkept
      · exact iff_not_self hone
      · exact hone.mp hnew hold
    rw [if_neg hmoves, hrule]
    rfl
  case isFalse hchanges =>
    obtain ⟨hne, hboth⟩ := not_or.mp hchanges
    rw [getD_tail]
    by_cases hpart : lastPart '/' new = lastPart '/' old
    · have hrule : simpleNameAfter old new simple = simple := if_pos (.inr (.inl hpart))
      have hone : '/' ∈ new.toList ↔ '/' ∉ old.toList :=
        (package_of_lastPart hne hpart).resolve_left fun h => hboth ⟨h.1, h.2, hpart⟩
      have hmoves : MovesPackage old new ↔ ¬ ('$' ∉ new.toList ∨ bareName new = "") := by
        rw [MovesPackage, not_or, not_not]
        exact ⟨fun h => h.2.2, fun h => ⟨hpart, hone, h⟩⟩
      simp only [hmoves, hrule, ite_not]
    · have hmoves : ¬ MovesPackage old new := fun h => hpart h.1
      rw [if_neg hmoves]
      simp only [simpleNameAfter, hne, hpart, false_or]

/-! ## Pieces afterwards -/

/-- What a renaming may make of a piece, where the pool is `q` afterwards. Only the simple name of
an inner class that has one is told: it follows the rule unless the class moves between packages. -/
inductive Piece.Becomes (r : Renaming) (q : Pool) : Piece → Piece → Prop
  | fixed (bytes : List UInt8) : Becomes r q (.fixed bytes) (.fixed bytes)
  | attributeName (i : UInt16) (name : String) :
    Becomes r q (.attributeName i name) (.attributeName i name)
  | descriptor (i j : UInt16) : Becomes r q (.slot (.descriptor i)) (.slot (.descriptor j))
  | signature (kind : SymbolKind) (i j : UInt16) :
    Becomes r q (.slot (.signature kind i)) (.slot (.signature kind j))
  | unnamed {inner i : UInt16} (h : inner = 0 ∨ i = 0) :
    Becomes r q (.slot (.simpleName inner i)) (.slot (.simpleName inner i))
  | named {inner i j : UInt16} {old simple : String} (hinner : inner ≠ 0) (hi : i ≠ 0)
    (hold : q.className inner = .ok old) (hsimple : q.utf8 i = .ok simple)
    (hnew : q.utf8 j = .ok (if MovesPackage old (r.className old) then bareName (r.className old)
      else simpleNameAfter old (r.className old) simple)) :
    Becomes r q (.slot (.simpleName inner i)) (.slot (.simpleName inner j))

/-- A piece that was passed becomes what the renaming makes of it. -/
theorem becomes_rename {x : Piece} (hq : q.Sound) (hx : x.Resolves q) (hset : x.Settled r q) :
    x.Becomes r q (x.rename r q) := by
  cases x with
  | fixed bytes => exact .fixed bytes
  | attributeName i name => exact .attributeName i name
  | slot s =>
    have hleads : s.LeadsTo r q q (s.renamed r q) :=
      Slot.leadsTo_renamed hx hq ((refl_of Pool.Grows q)) hset
    cases s with
    | descriptor i => exact .descriptor i _
    | signature kind i => exact .signature kind i _
    | simpleName inner i =>
      simp only [Slot.LeadsTo] at hleads
      by_cases hne : inner ≠ 0 ∧ i ≠ 0
      · rw [if_pos hne] at hleads
        obtain ⟨old, simple, hold, hsimple, hnew⟩ := hleads
        rw [getD_newSimpleName?] at hnew
        exact .named hne.1 hne.2 hold hsimple hnew
      · rw [if_neg hne] at hleads
        have hstays : (Piece.slot (.simpleName inner i)).rename r q
            = .slot (.simpleName inner i) := by
          rw [Piece.rename, Piece.map, hleads, Slot.withIndex]
        rw [hstays]
        exact .unnamed (by simpa only [not_and_or, not_not] using hne)

/-- A signature that is skipped stays as it is. -/
theorem exists_becomes {xs ys : List Piece} (hq : q.Sound)
    (htaken : List.Forall₂ Piece.TakenAs xs ys) (hresolves : ∀ y ∈ ys, y.Resolves q)
    (hsettled : ∀ y ∈ ys, y.Settled r q) : ∃ zs, List.Forall₂ (Piece.Becomes r q) xs zs ∧
      encode zs = encode (ys.map (Piece.rename r q)) := by
  induction htaken with
  | nil => exact ⟨[], .nil, rfl⟩
  | @cons x y xs ys hxy _ ih =>
    obtain ⟨hy, hys⟩ := List.forall_mem_cons.mp hresolves
    obtain ⟨hset, hsets⟩ := List.forall_mem_cons.mp hsettled
    obtain ⟨zs, hzs, hbytes⟩ := ih hys hsets
    cases hxy with
    | self =>
      refine ⟨x.rename r q :: zs, .cons (becomes_rename hq hy hset) hzs, ?_⟩
      rw [List.map_cons, encode_cons, encode_cons, hbytes]
    | skipped kind i =>
      refine ⟨_ :: zs, .cons (.signature kind i i) hzs, ?_⟩
      rw [List.map_cons, encode_cons, encode_cons, hbytes]
      rfl

/-! ## Renamed attributes -/

variable {f f' : Focus Attribute}

/-- A renamed attribute has the same structure, in which the simple name of each inner class follows
the rule, unless the class moves between the unnamed package and another one. -/
theorem becomes_of_renameAttribute (hp : f.pool.Sound)
    (h : Edit.renameAttribute r kind f = .ok () f') :
    ∃ (name : String) (v : Payload maxNesting) (zs : List Piece),
      Spells f'.pool kind f.item name v ∧ f'.item = ⟨f.item.name, encode zs⟩ ∧
      Pool.Grows f.pool f'.pool ∧
      List.Forall₂ (Piece.Becomes r f'.pool)
        ((Format.payload maxNesting kind name).pieces v) zs := by
  obtain ⟨name, v, xs, hname, hfits, htaken, hrewrites, -⟩ := renameAttribute_takes h
  have hspells := hrewrites.spells hname hfits htaken
  have hafter := hrewrites.payload_after
  obtain ⟨g, hpassed, -, rfl⟩ := hrewrites
  have hgrows : Pool.Grows f.pool g.pool := hpassed.learns.grows
  obtain ⟨zs, hzs, hbytes⟩ :=
    exists_becomes (hgrows.sound hp) htaken hpassed.resolves hpassed.settled
  exact ⟨name, v, zs, hspells, congrArg (Attribute.mk f.item.name) (hafter.trans hbytes.symm),
    hgrows, hzs⟩

/-- A class `A$B$C` whose table of inner classes gives it the simple name `B$C`. -/
def memberFile : List UInt8 :=
  [0xCA, 0xFE, 0xBA, 0xBE, 0, 0, 0, 52, 0, 5,
    1, 0, 5, 65, 36, 66, 36, 67, 7, 0, 1,
    1, 0, 12, 73, 110, 110, 101, 114, 67, 108, 97, 115, 115, 101, 115, 1, 0, 3, 66, 36, 67,
    0, 33, 0, 2, 0, 0, 0, 0, 0, 0, 0, 0,
    0, 1, 0, 3, 0, 0, 0, 10, 0, 1, 0, 2, 0, 0, 0, 4, 0, 1]

def memberAttribute : Attribute := ⟨3, [0, 1, 0, 2, 0, 0, 0, 4, 0, 1]⟩

/-- Gives the class a new name. -/
def memberTo (new : String) : Renaming :=
  { Renaming.identity with className := fun name => if name = "A$B$C" then new else name }

def memberTable (levels : Nat) : Payload (levels + 1) := (.innerClasses [⟨2, 0, 4, 1⟩], [])

theorem pieces_memberTable :
    (Format.payload maxNesting .ofClass AttributeName.innerClasses).pieces (memberTable 255)
      = [.fixed [0, 1], .fixed [0, 2], .fixed [0, 0], .slot (.simpleName 2 4), .fixed [0, 1],
        .fixed []] := by
  have hpieces (levels : Nat) :
      (Format.payload (levels + 1) .ofClass AttributeName.innerClasses).pieces (memberTable levels)
        = [.fixed [0, 1], .fixed [0, 2], .fixed [0, 0], .slot (.simpleName 2 4), .fixed [0, 1],
          .fixed []] := rfl
  exact hpieces 255

/-- Whatever the class is called, its attribute is renamed. -/
theorem renameAttribute_memberFile (new : String) : ∃ c f', ClassFile.decode memberFile = .ok c ∧
    c.attributes = #[memberAttribute] ∧ c.pool.className 2 = .ok "A$B$C" ∧
    c.pool.utf8 4 = .ok "B$C" ∧
    Edit.renameAttribute (memberTo new) .ofClass ⟨memberAttribute, c.pool, {}, #[]⟩ = .ok () f' ∧
    Rewrites (memberTo new)
      ((Format.payload maxNesting .ofClass AttributeName.innerClasses).pieces (memberTable 255))
      ⟨memberAttribute, c.pool, {}, #[]⟩ f' ∧
    Spells f'.pool .ofClass memberAttribute AttributeName.innerClasses (memberTable 255) := by
  obtain ⟨c, hc, hchecks⟩ := eq_ok_of_any (ClassFile.decode memberFile) (fun c =>
    decide (c.attributes = #[memberAttribute])
      && decide (c.pool.utf8 3 = .ok AttributeName.innerClasses)
      && decide (c.pool.className 2 = .ok "A$B$C") && decide (c.pool.utf8 4 = .ok "B$C")
      && decide (c.pool.slots = 5)) (by decide +kernel)
  simp only [Bool.and_eq_true, decide_eq_true_eq] at hchecks
  obtain ⟨⟨⟨⟨hattributes, hname⟩, hold⟩, hsimple⟩, hslots⟩ := hchecks
  let f : Focus Attribute := ⟨memberAttribute, c.pool, {}, #[]⟩
  let F : Format (Payload maxNesting) :=
    Format.payload maxNesting .ofClass AttributeName.innerClasses
  have hslot : (Slot.simpleName 2 4).Resolves f.pool := fun _ _ => ⟨_, _, hold, hsimple⟩
  have hfits : F.Fits (memberTable 255) := ⟨⟨by decide, fun _ _ => trivial⟩, rfl⟩
  have hpayload : f.item.payload = encode (F.pieces (memberTable 255)) := by
    rw [pieces_memberTable]
    rfl
  have hroom : f.pool.slots + (F.pieces (memberTable 255)).length ≤ Pool.maxSlots := by
    rw [pieces_memberTable, hslots]
    decide
  obtain ⟨f', hrun, hrewrites⟩ := renameAttribute_of_room (r := memberTo new) hname hfits hpayload
    (by simpa [F, pieces_memberTable, Piece.Resolves] using hslot) hroom
  exact ⟨c, f', hc, hattributes, hold, hsimple, hrun, hrewrites,
    hrewrites.spells hname hfits (takenAs_refl _)⟩

/-- Called `p/D$7E`, the class gets the simple name `E`. -/
theorem becomes_of_renameAttribute_memberFile : ∃ c f' j,
    ClassFile.decode memberFile = .ok c ∧ c.attributes = #[memberAttribute] ∧
    Edit.renameAttribute (memberTo "p/D$7E") .ofClass ⟨memberAttribute, c.pool, {}, #[]⟩
      = .ok () f' ∧
    f'.item.payload = [0, 1, 0, 2, 0, 0] ++ Word.bytes j ++ [0, 1] ∧
    f'.pool.utf8 j = .ok "E" := by
  obtain ⟨c, f', hc, hattributes, hold, hsimple, hrun, -, hspells⟩ :=
    renameAttribute_memberFile "p/D$7E"
  obtain ⟨name, v, zs, hspells', hitem, hgrows, hbecomes⟩ :=
    becomes_of_renameAttribute (ClassFile.sound_of_decode hc) hrun
  obtain ⟨rfl, rfl⟩ := hspells.unique hspells'
  rw [pieces_memberTable] at hbecomes
  simp only [List.forall₂_cons_left_iff, List.forall₂_nil_left_iff] at hbecomes
  obtain ⟨_, _, hcount, ⟨_, _, hinner, ⟨_, _, houter, ⟨_, _, hslot, ⟨_, _, haccess, ⟨_, _, hend,
    rfl, rfl⟩, rfl⟩, rfl⟩, rfl⟩, rfl⟩, rfl⟩ := hbecomes
  cases hcount
  cases hinner
  cases houter
  cases haccess
  cases hend
  cases hslot with
  | unnamed h => exact absurd h (by decide)
  | @named _ _ j old simple _ _ hold' hsimple' hnew =>
    cases (hgrows.className hold).symm.trans hold'
    cases (hgrows.utf8 hsimple).symm.trans hsimple'
    have htext : (if MovesPackage "A$B$C" "p/D$7E" then bareName "p/D$7E"
        else simpleNameAfter "A$B$C" "p/D$7E" "B$C") = "E" := by decide +kernel
    exact ⟨c, f', j, hc, hattributes, hrun, by rw [hitem]; rfl,
      hnew.trans (congrArg Except.ok htext)⟩

/-- In the package `p` the last part of the name stays, and still the simple name becomes `C`. -/
theorem not_simpleNameAfter_memberFile : ∃ c f' j,
    ClassFile.decode memberFile = .ok c ∧ c.attributes = #[⟨3, [0, 1, 0, 2, 0, 0, 0, 4, 0, 1]⟩] ∧
    c.pool.className 2 = .ok "A$B$C" ∧ c.pool.utf8 4 = .ok "B$C" ∧
    Edit.renameAttribute (memberTo "p/A$B$C") .ofClass ⟨memberAttribute, c.pool, {}, #[]⟩
      = .ok () f' ∧
    f'.item.payload = [0, 1, 0, 2, 0, 0] ++ Word.bytes j ++ [0, 1] ∧
    f'.pool.utf8 j = .ok "C" ∧ simpleNameAfter "A$B$C" "p/A$B$C" "B$C" = "B$C" := by
  obtain ⟨c, f', hc, hattributes, hold, hsimple, hrun, hrewrites, -⟩ :=
    renameAttribute_memberFile "p/A$B$C"
  have hafter := hrewrites.payload_after
  obtain ⟨t, hpassed, -, rfl⟩ := hrewrites
  have hgrows : Pool.Grows c.pool t.pool := hpassed.learns.grows
  rw [pieces_memberTable] at hafter hpassed
  have hmem : Piece.slot (.simpleName 2 4) ∈ [Piece.fixed [0, 1], .fixed [0, 2], .fixed [0, 0],
      .slot (.simpleName 2 4), .fixed [0, 1], .fixed []] := by simp
  have hleads : (Slot.simpleName 2 4).LeadsTo _ t.pool t.pool _ :=
    Slot.leadsTo_renamed (hpassed.resolves _ hmem)
      (hgrows.sound (ClassFile.sound_of_decode hc)) (refl_of Pool.Grows _) (hpassed.settled _ hmem)
  simp only [Slot.LeadsTo] at hleads
  rw [if_pos (by decide)] at hleads
  obtain ⟨old, simple, hold', hsimple', hnew⟩ := hleads
  cases (hgrows.className hold).symm.trans hold'
  cases (hgrows.utf8 hsimple).symm.trans hsimple'
  have htext : (Walk.newSimpleName? "A$B$C" "p/A$B$C" "B$C").getD "B$C" = "C" := by decide +kernel
  exact ⟨c, _, _, hc, hattributes, hold, hsimple, hrun, hafter.trans (by rfl),
    hnew.trans (congrArg Except.ok htext), by decide +kernel⟩

end Relabel.Layout
