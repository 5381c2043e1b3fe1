import Relabel.Bytes.Reader
import Relabel.Proofs.Outcome

/-!
# What a successful read consumes

A read that succeeds takes bytes off the front and leaves the rest. If the value that it
gives is written as those bytes, the reader is exact: reading keeps no freedom that
writing does not have. The other way round, a value is read back if the reader gives it
for the bytes that it is written as. Both pass from items to lists of them.
-/

namespace Relabel

variable {α : Type}

/-- The items are written as `bytes`, one behind the other. -/
def Writes (write : α → Except Fault (List UInt8)) (items : List α) (bytes : List UInt8) : Prop :=
  ∃ chunks, items.mapM write = .ok chunks ∧ chunks.flatten = bytes

namespace Writes

variable {write : α → Except Fault (List UInt8)} {items others : List α} {bytes more : List UInt8}

theorem nil : Writes write [] [] := ⟨[], rfl, rfl⟩

theorem cons {a : α} (ha : write a = .ok bytes) (h : Writes write items more) :
    Writes write (a :: items) (bytes ++ more) := by
  obtain ⟨chunks, hc, rfl⟩ := h
  refine ⟨bytes :: chunks, ?_, rfl⟩
  rw [List.mapM_cons, ha, hc]
  rfl

theorem append (h : Writes write items bytes) (h' : Writes write others more) :
    Writes write (items ++ others) (bytes ++ more) := by
  obtain ⟨chunks, hc, rfl⟩ := h
  obtain ⟨chunks', hc', rfl⟩ := h'
  refine ⟨chunks ++ chunks', ?_, List.flatten_append⟩
  rw [List.mapM_append, hc, hc']
  rfl

theorem of_cons {a : α} (h : Writes write (a :: items) bytes) :
    ∃ first rest, write a = .ok first ∧ Writes write items rest ∧ bytes = first ++ rest := by
  obtain ⟨chunks, hchunks, rfl⟩ := h
  simp only [List.mapM_cons, except_bind_eq_ok, except_pure_eq_ok] at hchunks
  obtain ⟨first, hfirst, more, hmore, rfl⟩ := hchunks
  exact ⟨first, _, hfirst, ⟨more, hmore, rfl⟩, rfl⟩

end Writes

namespace Reader

variable {c c' : Cursor}

/-- What `r` reads is written as the bytes that it was read from. -/
def Exact (r : Reader α) (write : α → Except Fault (List UInt8)) : Prop :=
  ∀ ⦃c a c'⦄, r c = .ok a c' → ∃ front, write a = .ok front ∧ c.rest = front ++ c'.rest

theorem take_eq_ok {n : Nat} {front : List UInt8} (h : take n c = .ok front c') :
    front.length = n ∧ c.rest = front ++ c'.rest := by
  simp only [take] at h
  split at h
  case isTrue hn =>
    cases h
    exact ⟨hn, (List.take_append_drop n c.rest).symm⟩
  case isFalse => cases h

theorem word_eq_ok [Word α] {x : α} (h : word c = .ok x c') :
    c.rest = Word.bytes x ++ c'.rest := by
  simp only [word, bind_eq_ok, pure_eq_ok] at h
  obtain ⟨front, c', hf, rfl, rfl⟩ := h
  obtain ⟨hlen, hrest⟩ := take_eq_ok hf
  rw [Word.bytes_ofBytes hlen, hrest]

theorem exact_word [Word α] : Exact (word (α := α)) (fun x => .ok (Word.bytes x)) :=
  fun _ _ _ h => ⟨_, rfl, word_eq_ok h⟩

variable {r : Reader α} {write : α → Except Fault (List UInt8)}

theorem Exact.collect (hr : Exact r write) {n : Nat} {done items : List α}
    (h : collect r n done c = .ok items c') :
    ∃ more front, items = done.reverse ++ more ∧ more.length = n ∧ Writes write more front ∧
      c.rest = front ++ c'.rest := by
  induction n generalizing c done with
  | zero =>
    obtain ⟨rfl, rfl⟩ := pure_eq_ok.mp h
    exact ⟨[], [], by simp, rfl, .nil, rfl⟩
  | succ n ih =>
    obtain ⟨a, c₁, ha, h⟩ := bind_eq_ok.mp h
    obtain ⟨first, hfirst, hc⟩ := hr ha
    obtain ⟨more, front, rfl, hlen, hmore, hc₁⟩ := ih h
    refine ⟨a :: more, first ++ front, by simp, by simp [hlen], hmore.cons hfirst, ?_⟩
    rw [hc, hc₁, List.append_assoc]

/-- A counted list is its 16-bit length and then its items. -/
theorem Exact.counted (hr : Exact r write) {items : List α} (h : counted r c = .ok items c') :
    items.length < 65536 ∧ ∃ front, Writes write items front ∧
      c.rest = Word.bytes (UInt16.ofNat items.length) ++ front ++ c'.rest := by
  obtain ⟨n, c₁, hn, h⟩ := bind_eq_ok.mp h
  obtain ⟨items, front, rfl, hlen, hitems, hrest⟩ := hr.collect h
  have hcount : items.length = n.toNat := hlen
  refine ⟨?_, front, hitems, ?_⟩
  · simpa [hcount] using n.toNat_lt
  · rw [word_eq_ok hn, hrest]
    simp [hcount]

/-! ## Reading back -/

/-- `r` reads `a` off the bytes, whatever stands before and behind them. -/
def Reads (r : Reader α) (a : α) (bytes : List UInt8) : Prop :=
  ∀ position rest, r ⟨position, bytes ++ rest⟩ = .ok a ⟨position + bytes.length, rest⟩

theorem reads_pure (a : α) : Reads (pure a) a [] := fun _ _ => rfl

theorem reads_take {n : Nat} {bytes : List UInt8} (h : bytes.length = n) :
    Reads (take n) bytes bytes := by
  intro position rest
  subst h
  simp [take]

section

variable {β : Type} {x : Reader α} {f : α → Reader β} {a : α} {b : β} {bytes more : List UInt8}

theorem Reads.bind (hx : Reads x a bytes) (hf : Reads (f a) b more) :
    Reads (x >>= f) b (bytes ++ more) := by
  intro position rest
  rw [List.append_assoc, bind_of_ok (hx position (more ++ rest)), hf, List.length_append,
    Nat.add_assoc]

/-- A last step that reads nothing. -/
theorem Reads.map (hx : Reads x a bytes) (g : α → β) :
    Reads (x >>= fun a => pure (g a)) (g a) bytes :=
  List.append_nil bytes ▸ hx.bind (f := fun a => pure (g a)) (reads_pure (g a))

end

theorem reads_word [Word α] (x : α) : Reads word x (Word.bytes x) := by
  have h := (reads_take (Word.length_bytes x)).map (Word.ofBytes (α := α))
  rwa [Word.ofBytes_bytes] at h

/-- Items that are read back one by one are read back as a list. -/
theorem reads_collect {items : List α} {bytes : List UInt8} (h : Writes write items bytes)
    (hr : ∀ a ∈ items, ∀ ⦃b⦄, write a = .ok b → Reads r a b) (done : List α) :
    Reads (collect r items.length done) (done.reverse ++ items) bytes := by
  induction items generalizing bytes done with
  | nil =>
    obtain ⟨chunks, ⟨⟩, rfl⟩ := h
    rw [List.append_nil]
    exact reads_pure done.reverse
  | cons a items ih =>
    obtain ⟨first, rest, hfirst, hrest, rfl⟩ := h.of_cons
    have hmore := ih hrest (fun b hb => hr b (List.mem_cons_of_mem a hb)) (a :: done)
    rw [List.reverse_cons, List.append_assoc] at hmore
    exact (hr a List.mem_cons_self hfirst).bind hmore

theorem reads_counted {items : List α} {bytes : List UInt8} (hlen : items.length < 65536)
    (h : Writes write items bytes) (hr : ∀ a ∈ items, ∀ ⦃b⦄, write a = .ok b → Reads r a b) :
    Reads (counted r) items (Word.bytes (UInt16.ofNat items.length) ++ bytes) := by
  have hcount : (UInt16.ofNat items.length).toNat = items.length := UInt16.toNat_ofNat_of_lt' hlen
  refine (reads_word _).bind ?_
  rw [hcount]
  exact reads_collect h hr []

end Reader

end Relabel
