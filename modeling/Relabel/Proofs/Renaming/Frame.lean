import Relabel.Proofs.Edit.Expand
import Relabel.Proofs.Layout.Frame
import Relabel.Proofs.Renaming.Substitution

/-!
# What a renaming leaves alone

A renaming that fails leaves what it has done so far. In every case, only indices that
lead to names are changed: entries stand where they stood with all else they hold, what
was added are texts and pairs of texts that were not there, and the class, its members
and their attributes are the same up to their names.
-/

namespace Relabel

/-- The declarations are framed, kind by kind. -/
structure Declarations.Framed (p : Pool) (d d' : Declarations) : Prop where
  fields : Pointwise (Member.Framed p) d.fields d'.fields
  methods : Pointwise (Member.Framed p) d.methods d'.methods
  attributes : Pointwise (Attribute.Framed p) d.attributes d'.attributes

instance {p : Pool} : IsPreorder Declarations (Declarations.Framed p) where
  refl _ := ⟨refl_of _ _, refl_of _ _, refl_of _ _⟩
  trans _ _ _ h h' := ⟨trans_of _ h.fields h'.fields, trans_of _ h.methods h'.methods,
    trans_of _ h.attributes h'.attributes⟩

namespace Edit

variable {p : Pool} {r : Renaming} {owner : String} {slots : Nat}

theorem frames_eachIndex {e : UInt16 → Edit Declarations Unit}
    (he : ∀ j, Stays Eq Pool.Expands (e j)) :
    Frames p (Declarations.Framed p) (eachIndex e slots) :=
  Stays.frames <| (stays_eachIndex_expands he).mono fun f _ h =>
    ⟨h.item ▸ refl_of _ f.item, h.pool, h.notices⟩

theorem frames_renameAll : Frames p (Declarations.Framed p) (renameAll r owner slots) := by
  refine .bind (frames_eachIndex fun _ => stays_renameReference_expands) fun _ => ?_
  refine .bind (frames_inside (frames_each frames_renameMember) fun _ _ h =>
    ⟨h, refl_of _ _, refl_of _ _⟩) fun _ => ?_
  refine .bind (frames_inside (frames_each frames_renameMember) fun _ _ h =>
    ⟨refl_of _ _, h, refl_of _ _⟩) fun _ => ?_
  refine .bind ?_ fun _ => frames_eachIndex fun _ => stays_renameClassEntry_expands
  have hattributes : Frames p (Pointwise (Attribute.Framed p)) (do
      each (renameEnclosingMethod r)
      each (renameAttribute r .ofClass)) :=
    .bind (frames_each frames_renameEnclosingMethod) fun _ => frames_each frames_renameAttribute
  exact frames_inside hattributes fun _ _ h => ⟨refl_of _ _, refl_of _ _, h⟩

/-! ## Single passes -/

namespace Passes

variable {f f₁ f' : Focus Declarations} {f₂ f₃ : Focus (Array Member)}
  {f₄ : Focus (Array Attribute)} (h : Passes r owner f f₁ f₂ f₃ f₄ f')
include h

theorem expands_references : Pool.Expands f.pool f₁.pool :=
  ((stays_eachIndex_expands fun _ => stays_renameReference_expands).ok h.references).pool

theorem expands_attributes : Pool.Expands f.pool f₄.pool := by
  have hfields := (frames_each (p := f₁.pool) frames_renameMember).ok h.fields (refl_of _ _)
  have hmethods := (frames_each (p := f₂.pool) frames_renameMember).ok h.methods (refl_of _ _)
  obtain ⟨⟨⟩, g, henclosing, hattributes⟩ := bind_eq_ok.mp h.attributes
  have hencloses :=
    (frames_each (p := f₃.pool) frames_renameEnclosingMethod).ok henclosing (refl_of _ _)
  have hrenames := (frames_each (p := g.pool) frames_renameAttribute).ok hattributes (refl_of _ _)
  exact h.expands_references.trans
    (hfields.1.trans (hmethods.1.trans (hencloses.1.trans hrenames.1)))

theorem expands_classes : Pool.Expands f₄.pool f'.pool :=
  ((stays_eachIndex_expands fun _ => stays_renameClassEntry_expands).ok h.classes).pool

end Passes

end Edit

namespace ClassFile

variable {data : List UInt8} {c : ClassFile}

/-- The class file `c'` differs from `c` in indices that lead to names only, and in texts and
pairs of texts at the end of its pool. -/
structure Framed (c c' : ClassFile) : Prop where
  minor : c'.minor = c.minor
  major : c'.major = c.major
  access : c'.access = c.access
  thisClass : c'.thisClass = c.thisClass
  superClass : c'.superClass = c.superClass
  interfaces : c'.interfaces = c.interfaces
  /-- An entry keeps its kind and all it holds but the index of a name. -/
  kept : ∀ ⦃n : Nat⦄ ⦃k : Constant⦄, c.pool.entries[n]? = some k →
    ∃ k', c'.pool.entries[n]? = some k' ∧ k'.fixed = k.fixed
  /-- An entry of another kind than those that are renamed stays as it is. -/
  untouched : ∀ ⦃n : Nat⦄ ⦃k : Constant⦄, c.pool.entries[n]? = some k →
    k.isReference = false → k.isClassRef = false → c'.pool.entries[n]? = some k
  /-- A new entry is a text or a pair of texts, and stands nowhere else. -/
  added : ∀ ⦃n : Nat⦄ ⦃k : Constant⦄, c.pool.slots ≤ n → c'.pool.entries[n]? = some k →
    k.isText = true ∧ ∀ ⦃m : Nat⦄, c'.pool.entries[m]? = some k → m = n
  fields : Pointwise (Member.Framed c.pool) c.fields c'.fields
  methods : Pointwise (Member.Framed c.pool) c.methods c'.methods
  attributes : Pointwise (Attribute.Framed c.pool) c.attributes c'.attributes

theorem complete_of_decode (h : decode data = .ok c) : c.pool.Complete := by
  obtain ⟨_, _, hread⟩ := read_of_decode h
  exact Pool.complete_of_read hread

/-- The parts that a renaming edits are framed beside the pool that they came with. -/
theorem focus_rename (c : ClassFile) (r : Renaming) : ∃ f : Focus Declarations,
    (c.rename r).file = c.edited f ∧ Pool.Expands c.pool f.pool ∧
    Declarations.Framed c.pool c.declarations f.item := by
  obtain ⟨f, hfile, -, hframed⟩ := rename_within (r := r)
    (S := Focus.Framed c.pool (Declarations.Framed c.pool)) c fun _ => Edit.frames_renameAll
  exact ⟨f, hfile, hframed (refl_of _ _)⟩

theorem expands_rename (c : ClassFile) (r : Renaming) :
    Pool.Expands c.pool (c.rename r).file.pool := by
  obtain ⟨f, hfile, hpool, -⟩ := focus_rename c r
  rw [hfile]
  exact hpool

theorem framed_of_complete (hc : c.pool.Complete) (r : Renaming) :
    Framed c (c.rename r).file := by
  obtain ⟨f, hfile, hpool, hitem⟩ := focus_rename c r
  rw [hfile]
  refine ⟨rfl, rfl, rfl, rfl, rfl, rfl, hpool.kept, ?_, hpool.added hc, hitem.fields,
    hitem.methods, hitem.attributes⟩
  intro n k hn hreference hclass
  obtain ⟨k', hn', hfixed⟩ := hpool.kept hn
  rw [Constant.eq_of_fixed_of_not_renamed hfixed hreference hclass] at hn'
  exact hn'

/-- The frame of a renaming, whether it succeeds or fails. -/
theorem framed_rename (r : Renaming) (h : decode data = .ok c) : Framed c (c.rename r).file :=
  framed_of_complete (complete_of_decode h) r

theorem framed_rename_sharingFile : ∃ c, decode sharingFile = .ok c ∧
    Framed c (c.rename exchange).file := by
  obtain ⟨c, hc, -⟩ := eq_ok_of_any (decode sharingFile) (fun _ => true) (by decide +kernel)
  exact ⟨c, hc, framed_rename exchange hc⟩

end ClassFile

end Relabel
