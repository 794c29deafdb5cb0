import Mathlib.Algebra.Order.Group.Nat

/-!
# Numbers in buffers

Fixed-width numbers of either byte order, written to and read from lists of bytes. A reader takes
what it needs from the front and gives back the rest, or fails if the buffer is too short.
-/

namespace NeonStorage

open List

/-! ## Fixed-width numbers -/

/-- The `n` low bytes of `x`, the lowest first. -/
def leBytes : ℕ → ℕ → List UInt8
  | 0, _ => []
  | n + 1, x => UInt8.ofNat x :: leBytes n (x / 256)

def leNat : List UInt8 → ℕ
  | [] => 0
  | b :: bs => b.toNat + 256 * leNat bs

variable (n x : ℕ)

/-- The `n` low bytes of `x`, the highest first. -/
def beBytes : List UInt8 := (leBytes n x).reverse

def beNat (bs : List UInt8) : ℕ := leNat bs.reverse

@[simp] theorem length_leBytes : (leBytes n x).length = n := by
  induction n generalizing x with
  | zero => rfl
  | succ n ih => simp [leBytes, ih]

@[simp] theorem length_beBytes : (beBytes n x).length = n := by simp [beBytes]

theorem leNat_leBytes : leNat (leBytes n x) = x % 256 ^ n := by
  induction n generalizing x with
  | zero => simp [leBytes, leNat, Nat.mod_one]
  | succ n ih =>
    have hlow : (UInt8.ofNat x).toNat = x % 256 := UInt8.toNat_ofNat'
    rw [leBytes, leNat, ih, hlow, Nat.pow_succ', Nat.mod_mul]

theorem leNat_leBytes_of_lt {n x : ℕ} (h : x < 256 ^ n) : leNat (leBytes n x) = x := by
  rw [leNat_leBytes, Nat.mod_eq_of_lt h]

theorem leBytes_leNat (bs : List UInt8) : leBytes bs.length (leNat bs) = bs := by
  induction bs with
  | nil => rfl
  | cons b bs ih =>
    have hlt : b.toNat < 256 := b.toNat_lt
    have hlow : UInt8.ofNat (b.toNat + 256 * leNat bs) = b := by
      rw [← UInt8.toNat_inj, UInt8.toNat_ofNat']
      omega
    have hhigh : (b.toNat + 256 * leNat bs) / 256 = leNat bs := by omega
    rw [length_cons, leNat, leBytes, hlow, hhigh, ih]

theorem beNat_beBytes_of_lt {n x : ℕ} (h : x < 256 ^ n) : beNat (beBytes n x) = x := by
  rw [beNat, beBytes, reverse_reverse, leNat_leBytes_of_lt h]

/-! ## Readers -/

def getBytes (n : ℕ) (buf : List UInt8) : Option (List UInt8 × List UInt8) :=
  if n ≤ buf.length then some (buf.take n, buf.drop n) else none

def getBe (n : ℕ) (buf : List UInt8) : Option (ℕ × List UInt8) :=
  (getBytes n buf).map fun (bs, rest) ↦ (beNat bs, rest)

def getLe (n : ℕ) (buf : List UInt8) : Option (ℕ × List UInt8) :=
  (getBytes n buf).map fun (bs, rest) ↦ (leNat bs, rest)

def leAt (n off : ℕ) (bs : List UInt8) : ℕ := leNat ((bs.drop off).take n)

def entriesAt {α : Type*} (size : ℕ) (read : List UInt8 → α) : ℕ → List UInt8 → List α
  | 0, _ => []
  | n + 1, bs => read bs :: entriesAt size read n (bs.drop size)

/-- The same from a cursor, with a reader that can fail. -/
def entriesAt? {α : Type*} (size : ℕ) (read? : ℕ → Option α) : ℕ → ℕ → Option (List α)
  | 0, _ => some []
  | n + 1, cursor => do return (← read? cursor) :: (← entriesAt? size read? n (cursor + size))

section Readers

variable {n x : ℕ} {bs : List UInt8} (rest : List UInt8)

theorem getBytes_append (h : bs.length = n) : getBytes n (bs ++ rest) = some (bs, rest) := by
  subst h
  simp [getBytes]

theorem getBe_append (h : x < 256 ^ n) : getBe n (beBytes n x ++ rest) = some (x, rest) := by
  rw [getBe, getBytes_append rest (length_beBytes n x)]
  simp only [Option.map_some, beNat_beBytes_of_lt h]

theorem getLe_append (h : x < 256 ^ n) : getLe n (leBytes n x ++ rest) = some (x, rest) := by
  rw [getLe, getBytes_append rest (length_leBytes n x)]
  simp only [Option.map_some, leNat_leBytes_of_lt h]

theorem leAt_append (h : x < 256 ^ n) : leAt n 0 (leBytes n x ++ rest) = x := by
  rw [leAt, drop_zero, take_left' (length_leBytes n x), leNat_leBytes_of_lt h]

variable {k off : ℕ}

theorem leAt_skip {front : List UInt8} (h : front.length = k) :
    leAt n (off + k) (front ++ rest) = leAt n off rest := by
  rw [leAt, Nat.add_comm, ← drop_drop, drop_left' h, leAt]

theorem leAt_take (h : off + n ≤ k) : leAt n off (rest.take k) = leAt n off rest := by
  rw [leAt, drop_take, take_take, Nat.min_eq_left (by omega), leAt]

variable {α : Type*} {size : ℕ} {write : α → List UInt8}

theorem length_flatMap_of_length (hlen : ∀ a, (write a).length = size) (as : List α) :
    (as.flatMap write).length = as.length * size := by
  induction as with
  | nil => simp
  | cons a as ih =>
    rw [flatMap_cons, length_append, hlen, ih, length_cons, Nat.succ_mul, Nat.add_comm]

theorem leAt_drop : leAt n off (rest.drop k) = leAt n (k + off) rest := by
  rw [leAt, drop_drop, leAt]

variable {read : List UInt8 → α}

/-- A reader that succeeds wherever an entry fits succeeds on entries that fit. -/
theorem entriesAt?_eq {read? : ℕ → Option α}
    (h : ∀ cursor, cursor + size ≤ bs.length → read? cursor = some (read (bs.drop cursor))) :
    ∀ n cursor, cursor + n * size ≤ bs.length →
      entriesAt? size read? n cursor = some (entriesAt size read n (bs.drop cursor)) := by
  intro n
  induction n with
  | zero => exact fun cursor _ ↦ rfl
  | succ n ih =>
    intro cursor hle
    rw [Nat.succ_mul] at hle
    rw [entriesAt?, entriesAt, h cursor (by omega), ih (cursor + size) (by omega), drop_drop]
    rfl

theorem entriesAt_flatMap (hlen : ∀ a, (write a).length = size)
    (hread : ∀ a rest, read (write a ++ rest) = a) (as : List α) :
    entriesAt size read as.length (as.flatMap write ++ rest) = as := by
  induction as with
  | nil => rfl
  | cons a as ih =>
    rw [flatMap_cons, append_assoc, length_cons, entriesAt, hread, drop_left' (hlen a), ih]

omit rest in
theorem take_drop_flatMap (hlen : ∀ a, (write a).length = size) (as : List α) {i : ℕ}
    (hi : i < as.length) : ((as.flatMap write).drop (i * size)).take size = write as[i] := by
  induction as generalizing i with
  | nil => cases hi
  | cons a as ih =>
    rw [flatMap_cons]
    cases i with
    | zero => rw [Nat.zero_mul, drop_zero, take_left' (hlen a), getElem_cons_zero]
    | succ i =>
      rw [Nat.succ_mul, Nat.add_comm, ← drop_drop, drop_left' (hlen a), getElem_cons_succ,
        ih (Nat.lt_of_succ_lt_succ hi)]

end Readers

end NeonStorage
