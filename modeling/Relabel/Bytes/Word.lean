/-!
# Big-endian words

A word is an integer of fixed width whose bytes are stored most significant first.
`Word.bytes` and `Word.ofBytes` are inverse to each other on byte lists of the right
length.
-/

namespace Relabel

/-- The number that the bytes spell, most significant first. -/
def valueOf (bytes : List UInt8) : Nat := bytes.foldl (fun n b => n * 256 + b.toNat) 0

/-- How many numbers `width` bytes can spell. -/
def capacity (width : Nat) : Nat := Nat.pow 256 width

@[simp] theorem capacity_zero : capacity 0 = 1 := rfl

theorem capacity_succ (width : Nat) : capacity (width + 1) = capacity width * 256 := rfl

/-- The last `width` bytes of `n`, most significant first. -/
def bytesOf : (width n : Nat) → List UInt8
  | 0, _ => []
  | width + 1, n => UInt8.ofNat (n / capacity width) :: bytesOf width n

@[simp] theorem length_bytesOf (width n : Nat) : (bytesOf width n).length = width := by
  induction width with
  | zero => rfl
  | succ width ih => simp [bytesOf, ih]

theorem foldl_bytes (bytes : List UInt8) (n : Nat) :
    bytes.foldl (fun n b => n * 256 + b.toNat) n = n * capacity bytes.length + valueOf bytes := by
  induction bytes generalizing n with
  | nil => simp [valueOf]
  | cons b bytes ih =>
    have h : valueOf (b :: bytes) = _ := ih (0 * 256 + b.toNat)
    rw [List.foldl_cons, ih, h, List.length_cons, capacity_succ]
    grind

theorem valueOf_cons (b : UInt8) (bytes : List UInt8) :
    valueOf (b :: bytes) = b.toNat * capacity bytes.length + valueOf bytes := by
  simpa [valueOf] using foldl_bytes bytes b.toNat

theorem valueOf_lt (bytes : List UInt8) : valueOf bytes < capacity bytes.length := by
  induction bytes with
  | nil => simp [valueOf]
  | cons b bytes ih =>
    have := b.toNat_lt
    have : (b.toNat + 1) * capacity bytes.length ≤ 256 * capacity bytes.length :=
      Nat.mul_le_mul_right _ (by omega)
    rw [valueOf_cons, List.length_cons, capacity_succ]
    grind

theorem valueOf_bytesOf (width n : Nat) : valueOf (bytesOf width n) = n % capacity width := by
  induction width with
  | zero => simp [bytesOf, valueOf, Nat.mod_one]
  | succ width ih =>
    rw [bytesOf, valueOf_cons, length_bytesOf, ih, UInt8.toNat_ofNat', capacity_succ,
      Nat.mod_mul, Nat.mul_comm, Nat.add_comm]

theorem bytesOf_add (bytes : List UInt8) (n : Nat) :
    bytesOf bytes.length (n * capacity bytes.length + valueOf bytes) = bytes := by
  induction bytes generalizing n with
  | nil => rfl
  | cons b bytes ih =>
    have h := valueOf_lt bytes
    have e : n * capacity (bytes.length + 1) + valueOf (b :: bytes)
        = (n * 256 + b.toNat) * capacity bytes.length + valueOf bytes := by
      rw [valueOf_cons, capacity_succ]
      grind
    rw [List.length_cons, bytesOf, e, ih, Nat.mul_comm, Nat.mul_add_div (by omega),
      Nat.div_eq_of_lt h]
    simp [UInt8.ofNat_toNat]

theorem bytesOf_valueOf (bytes : List UInt8) : bytesOf bytes.length (valueOf bytes) = bytes := by
  simpa using bytesOf_add bytes 0

/-- An integer type stored in `width` bytes. Signed types are numbered by their bits. -/
class Word (α : Type) where
  width : Nat
  toNat : α → Nat
  ofNat : Nat → α
  toNat_lt : ∀ x, toNat x < capacity width
  ofNat_toNat : ∀ x, ofNat (toNat x) = x
  toNat_ofNat : ∀ n, n < capacity width → toNat (ofNat n) = n

namespace Word

variable {α : Type} [Word α]

def bytes (x : α) : List UInt8 := bytesOf (width α) (toNat x)

def ofBytes (bytes : List UInt8) : α := ofNat (valueOf bytes)

@[simp] theorem length_bytes (x : α) : (bytes x).length = width α := by simp [bytes]

@[simp] theorem ofBytes_bytes (x : α) : ofBytes (bytes x) = x := by
  rw [ofBytes, bytes, valueOf_bytesOf, Nat.mod_eq_of_lt (toNat_lt x), ofNat_toNat]

theorem bytes_ofBytes {b : List UInt8} (h : b.length = width α) : bytes (ofBytes b : α) = b := by
  rw [bytes, ofBytes, toNat_ofNat _ (h ▸ valueOf_lt b), ← h, bytesOf_valueOf]

end Word

instance : Word UInt8 where
  width := 1
  toNat := UInt8.toNat
  ofNat := UInt8.ofNat
  toNat_lt x := x.toNat_lt
  ofNat_toNat _ := UInt8.ofNat_toNat
  toNat_ofNat _ h := UInt8.toNat_ofNat_of_lt h

instance : Word UInt16 where
  width := 2
  toNat := UInt16.toNat
  ofNat := UInt16.ofNat
  toNat_lt x := x.toNat_lt
  ofNat_toNat _ := UInt16.ofNat_toNat
  toNat_ofNat _ h := UInt16.toNat_ofNat_of_lt h

instance : Word UInt32 where
  width := 4
  toNat := UInt32.toNat
  ofNat := UInt32.ofNat
  toNat_lt x := x.toNat_lt
  ofNat_toNat _ := UInt32.ofNat_toNat
  toNat_ofNat _ h := UInt32.toNat_ofNat_of_lt h

instance : Word UInt64 where
  width := 8
  toNat := UInt64.toNat
  ofNat := UInt64.ofNat
  toNat_lt x := x.toNat_lt
  ofNat_toNat _ := UInt64.ofNat_toNat
  toNat_ofNat _ h := UInt64.toNat_ofNat_of_lt h

instance : Word Int8 where
  width := 1
  toNat x := x.toUInt8.toNat
  ofNat n := (UInt8.ofNat n).toInt8
  toNat_lt x := x.toUInt8.toNat_lt
  ofNat_toNat x := by simp
  toNat_ofNat n h := by simpa using (show n < 256 from h)

instance : Word Int16 where
  width := 2
  toNat x := x.toUInt16.toNat
  ofNat n := (UInt16.ofNat n).toInt16
  toNat_lt x := x.toUInt16.toNat_lt
  ofNat_toNat x := by simp
  toNat_ofNat n h := by simpa using (show n < 65536 from h)

instance : Word Int32 where
  width := 4
  toNat x := x.toUInt32.toNat
  ofNat n := (UInt32.ofNat n).toInt32
  toNat_lt x := x.toUInt32.toNat_lt
  ofNat_toNat x := by simp
  toNat_ofNat n h := by simpa using (show n < 4294967296 from h)

instance : Word Int64 where
  width := 8
  toNat x := x.toUInt64.toNat
  ofNat n := (UInt64.ofNat n).toInt64
  toNat_lt x := x.toUInt64.toNat_lt
  ofNat_toNat x := by simp
  toNat_ofNat n h := by simpa using (show n < 18446744073709551616 from h)

end Relabel
