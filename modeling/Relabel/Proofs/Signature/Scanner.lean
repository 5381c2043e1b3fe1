import Mathlib.Data.List.TakeWhile
import Relabel.Proofs.Outcome
import Relabel.Signature.Scanner

/-!
# What scanners read

A scanner is known in two ways: by the text that stood in front of what it leaves, if it
succeeds, and by the texts that it accepts. A list of items is read if each item is
accepted in front of the text of those behind it.
-/

namespace Relabel.Scan

variable {α β : Type} {s s' : Scanner} {c : Char} {text mid tail : List Char} {a : α}

/-- A name that a scanner reads up to the next character that satisfies `stop`. -/
structure IsName (stop : Char → Bool) (name : String) : Prop where
  nonempty : name.toList ≠ []
  plain : ∀ c ∈ name.toList, stop c = false

instance {stop : Char → Bool} {name : String} : Decidable (IsName stop name) :=
  decidable_of_iff (name.toList.isEmpty = false ∧ name.toList.all (fun c => !stop c) = true)
    ⟨fun h => ⟨by simpa using h.1, by simpa using h.2⟩,
      fun h => ⟨by simpa using h.nonempty, by simpa using h.plain⟩⟩

/-- The first character of the text satisfies `p`. -/
def StartsWith (p : Char → Bool) (text : List Char) : Prop := ∃ c ∈ text.head?, p c = true

theorem startsWith_iff {p : Char → Bool} :
    StartsWith p text ↔ ∃ c rest, text = c :: rest ∧ p c = true := by
  cases text with
  | nil => simp [StartsWith]
  | cons c rest => simp [StartsWith]

theorem startsWith_cons {p : Char → Bool} : StartsWith p (c :: text) ↔ p c = true := by
  simp [StartsWith]

/-- `P` holds of each item and the text behind it, if the last one stands in front of `tail`. -/
def Each (write : α → List Char → List Char) (P : α → List Char → Prop) :
    List α → (tail : List Char) → Prop
  | [], _ => True
  | a :: as, tail => P a (as.foldr write tail) ∧ Each write P as tail

section

variable {write : α → List Char → List Char} {as : List α}

/-- What holds whatever stands behind the item. -/
theorem each_const {P : α → Prop} : Each write (fun a _ => P a) as tail ↔ ∀ a ∈ as, P a := by
  induction as with
  | nil => simp [Each]
  | cons a as ih => rw [Each, ih, List.forall_mem_cons]

end

/-! ## Successful scans -/

theorem peek_eq_ok (h : peek s = .ok c s') : s' = s ∧ ∃ tail, s.rest = c :: tail := by
  unfold peek at h
  split at h
  case h_1 => cases h
  case h_2 hrest =>
    cases h
    exact ⟨rfl, _, hrest⟩

theorem expect_eq_ok (h : expect c s = .ok () s') : s.rest = c :: s'.rest := by
  unfold expect at h
  split at h
  case h_1 => cases h
  case h_2 hrest =>
    split at h
    case isFalse => cases h
    case isTrue hc =>
      cases h
      rw [hrest, hc]

theorem identifier_eq_ok {stop : Char → Bool} {name : String}
    (h : identifier stop s = .ok name s') :
    s.rest = name.toList ++ s'.rest ∧ IsName stop name := by
  unfold identifier at h
  dsimp only at h
  split at h
  case h_1 => cases h
  case h_2 hdrop =>
    split at h
    case isTrue => cases h
    case isFalse hname =>
      cases h
      rw [String.toList_ofList, List.takeWhile_append_dropWhile]
      refine ⟨rfl, ?_, ?_⟩
      · rw [String.toList_ofList]
        simpa using hname
      · rw [String.toList_ofList]
        intro c hc
        simpa using List.mem_takeWhile_imp hc

section

variable {more : Scan Bool} {item : Scan α} {write : α → List Char → List Char}
  {P : α → List Char → Prop}

/-- The items of a list stand one behind the other, and the list ends where no more are to come. -/
theorem many_eq_ok (hmore : ∀ ⦃s b s'⦄, more s = .ok b s' → s' = s)
    (hitem : ∀ ⦃s a s'⦄, more s = .ok true s → item s = .ok a s' →
      s.rest = write a s'.rest ∧ P a s'.rest) {n : Nat} {as : List α}
    (h : many more item n s = .ok as s') :
    s.rest = as.foldr write s'.rest ∧ Each write P as s'.rest ∧ more s' = .ok false s' := by
  induction n generalizing s as with
  | zero => cases h
  | succ n ih =>
    obtain ⟨b, s₁, hb, h⟩ := bind_eq_ok.mp h
    obtain rfl := hmore hb
    cases b with
    | false =>
      obtain ⟨rfl, rfl⟩ := pure_eq_ok.mp h
      exact ⟨rfl, trivial, hb⟩
    | true =>
      obtain ⟨a, s₂, ha, h⟩ := bind_eq_ok.mp h
      obtain ⟨as, s₃, has, h⟩ := bind_eq_ok.mp h
      obtain ⟨rfl, rfl⟩ := pure_eq_ok.mp h
      obtain ⟨hrest, hP⟩ := hitem hb ha
      obtain ⟨hrest', hall, hend⟩ := ih has
      rw [hrest'] at hrest hP
      exact ⟨hrest, ⟨hP, hall⟩, hend⟩

end

/-! ## Accepted texts -/

/-- The scanner reads `text` as `a`, up to `tail`. -/
def Accepts (x : Scan α) (text : List Char) (a : α) (tail : List Char) : Prop :=
  ∀ position, ∃ position', x ⟨position, text⟩ = .ok a ⟨position', tail⟩

theorem accepts_pure (a : α) (tail : List Char) : Accepts (pure a) tail a tail :=
  fun position => ⟨position, rfl⟩

theorem Accepts.bind {x : Scan α} {f : α → Scan β} {b : β} (hx : Accepts x text a mid)
    (hf : Accepts (f a) mid b tail) : Accepts (x >>= f) text b tail := by
  intro position
  obtain ⟨position₁, hx⟩ := hx position
  obtain ⟨position₂, hf⟩ := hf position₁
  exact ⟨position₂, by rw [bind_of_ok hx, hf]⟩

theorem Accepts.map {x : Scan α} (hx : Accepts x text a tail) (f : α → β) :
    Accepts (f <$> x) text (f a) tail := by
  rw [map_eq_pure_bind]
  exact hx.bind (accepts_pure _ _)

theorem accepts_peek (c : Char) (tail : List Char) : Accepts peek (c :: tail) c (c :: tail) :=
  fun position => ⟨position, rfl⟩

theorem accepts_atEnd (tail : List Char) : Accepts atEnd tail tail.isEmpty tail :=
  fun position => ⟨position, rfl⟩

theorem accepts_expect (c : Char) (tail : List Char) : Accepts (expect c) (c :: tail) () tail :=
  fun position => ⟨position + c.utf8Size, if_pos rfl⟩

theorem accepts_identifier {stop : Char → Bool} {name : String} (hname : IsName stop name)
    (htail : StartsWith stop tail) :
    Accepts (identifier stop) (name.toList ++ tail) name tail := by
  intro position
  obtain ⟨c, rest, rfl, hc⟩ := startsWith_iff.mp htail
  have hplain : ∀ d ∈ name.toList, (!stop d) = true := by simpa using hname.plain
  have htake : (name.toList ++ c :: rest).takeWhile (!stop ·) = name.toList := by
    rw [List.takeWhile_append_of_pos hplain, List.takeWhile_cons_of_neg (by simp [hc]),
      List.append_nil]
  have hdrop : (name.toList ++ c :: rest).dropWhile (!stop ·) = c :: rest := by
    rw [List.dropWhile_append_of_pos hplain, List.dropWhile_cons_of_neg (by simp [hc])]
  refine ⟨position + byteCount name.toList, ?_⟩
  simp only [identifier, htake, hdrop, String.ofList_toList]
  exact if_neg (by simpa using hname.nonempty)

theorem accepts_many {more : Scan Bool} {item : Scan α} {write : α → List Char → List Char}
    {as : List α} {n : Nat} (hn : as.length < n) (hend : Accepts more tail false tail)
    (h : Each write (fun a tail => Accepts more (write a tail) true (write a tail) ∧
      Accepts item (write a tail) a tail) as tail) :
    Accepts (many more item n) (as.foldr write tail) as tail := by
  induction as generalizing n with
  | nil =>
    obtain ⟨n, rfl⟩ : ∃ m, n = m + 1 := Nat.exists_eq_add_one.mpr hn
    exact hend.bind (accepts_pure _ _)
  | cons a as ih =>
    obtain ⟨n, rfl⟩ : ∃ m, n = m + 1 := Nat.exists_eq_add_one.mpr (Nat.zero_lt_of_lt hn)
    obtain ⟨⟨hmore, hitem⟩, hall⟩ := h
    exact hmore.bind (hitem.bind ((ih (Nat.lt_of_succ_lt_succ hn) hall).bind (accepts_pure _ _)))

section

variable {write : α → List Char → List Char}
  (hwrite : ∀ a tail, tail.length < (write a tail).length)
include hwrite

/-- Each item takes up a character. -/
theorem length_foldr (as : List α) (tail : List Char) :
    tail.length + as.length ≤ (as.foldr write tail).length := by
  induction as with
  | nil => exact Nat.le_refl _
  | cons a as ih =>
    have ha := hwrite a (as.foldr write tail)
    rw [List.foldr_cons, List.length_cons]
    omega

/-- Items are read up to a bound that is beyond their text. -/
theorem accepts_many_of_length {more : Scan Bool} {item : Scan α} {as : List α} {n : Nat}
    (hn : (as.foldr write tail).length < n) (hend : Accepts more tail false tail)
    (h : ∀ a ∈ as, ∀ tail, (write a tail).length < n →
      Accepts more (write a tail) true (write a tail) ∧ Accepts item (write a tail) a tail) :
    Accepts (many more item n) (as.foldr write tail) as tail := by
  have hcount := length_foldr hwrite as tail
  refine accepts_many (by omega) hend ?_
  clear hcount
  induction as with
  | nil => trivial
  | cons a as ih =>
    obtain ⟨ha, has⟩ := List.forall_mem_cons.mp h
    exact ⟨ha _ hn, ih ((hwrite a _).trans hn) has⟩

end

end Relabel.Scan
