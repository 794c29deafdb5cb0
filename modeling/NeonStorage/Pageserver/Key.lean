import Mathlib.Data.Prod.Lex
import Mathlib.Order.Interval.Set.Defs
import Mathlib.Algebra.GroupWithZero.Nat

/-!
# Keys of the pageserver

A key has six fields of fixed width and is ordered by them, the first one first. `Key.rank` counts
the keys below a key; the order is the order of the ranks (`Key.lt_iff_rank`), and `Key.add` is
addition of ranks until it overflows (`Key.rank_add`).

The second half is what the fields mean: which keys are relation blocks, SLRU pages, relation sizes
and so on.
-/

namespace NeonStorage.Pageserver

structure Key where
  field1 : UInt8
  field2 : UInt32
  field3 : UInt32
  field4 : UInt32
  field5 : UInt8
  field6 : UInt32
  deriving DecidableEq

namespace Key

variable (k : Key)

/-- The fields in the order in which they are compared. -/
def lex : ℕ ×ₗ ℕ ×ₗ ℕ ×ₗ ℕ ×ₗ ℕ ×ₗ ℕ :=
  toLex (k.field1.toNat, toLex (k.field2.toNat, toLex (k.field3.toNat,
    toLex (k.field4.toNat, toLex (k.field5.toNat, k.field6.toNat)))))

theorem lex_injective : Function.Injective lex := by
  rintro ⟨a₁, a₂, a₃, a₄, a₅, a₆⟩ ⟨b₁, b₂, b₃, b₄, b₅, b₆⟩ h
  simp only [lex, EmbeddingLike.apply_eq_iff_eq, Prod.mk.injEq, UInt8.toNat_inj,
    UInt32.toNat_inj] at h
  simpa using h

instance : LinearOrder Key := LinearOrder.lift' lex lex_injective

def rank : ℕ :=
  ((((k.field1.toNat * 2 ^ 32 + k.field2.toNat) * 2 ^ 32 + k.field3.toNat) * 2 ^ 32
    + k.field4.toNat) * 2 ^ 8 + k.field5.toNat) * 2 ^ 32 + k.field6.toNat

theorem lt_iff_rank {k l : Key} : k < l ↔ k.rank < l.rank := by
  have h : k < l ↔ lex k < lex l := .rfl
  have := k.field2.toNat_lt
  have := k.field3.toNat_lt
  have := k.field4.toNat_lt
  have := k.field5.toNat_lt
  have := k.field6.toNat_lt
  have := l.field2.toNat_lt
  have := l.field3.toNat_lt
  have := l.field4.toNat_lt
  have := l.field5.toNat_lt
  have := l.field6.toNat_lt
  rw [h]
  simp only [lex, Prod.Lex.lt_iff, ofLex_toLex, rank]
  omega

theorem le_iff_rank {k l : Key} : k ≤ l ↔ k.rank ≤ l.rank := by
  rw [← not_lt, ← not_lt, lt_iff_rank]

def min : Key := ⟨0, 0, 0, 0, 0, 0⟩

def max : Key := ⟨0xff, 0xffffffff, 0xffffffff, 0xffffffff, 0xff, 0xffffffff⟩

/-- `Key::add`: the carry goes from `field6` up. `none` is the assertion that it does not leave
`field1`. -/
def add (x : UInt32) : Option Key :=
  let field6 := k.field6 + x
  if k.field6.toNat + x.toNat < 2 ^ 32 then some { k with field6 }
  else if k.field5.toNat + 1 < 2 ^ 8 then some { k with field6, field5 := k.field5 + 1 }
  else if k.field4.toNat + 1 < 2 ^ 32 then
    some { k with field6, field5 := 0, field4 := k.field4 + 1 }
  else if k.field3.toNat + 1 < 2 ^ 32 then
    some { k with field6, field5 := 0, field4 := 0, field3 := k.field3 + 1 }
  else if k.field2.toNat + 1 < 2 ^ 32 then
    some { k with field6, field5 := 0, field4 := 0, field3 := 0, field2 := k.field2 + 1 }
  else if k.field1.toNat + 1 < 2 ^ 8 then
    some ⟨k.field1 + 1, 0, 0, 0, 0, field6⟩
  else none

def next : Option Key := k.add 1

theorem rank_add {k k' : Key} {x : UInt32} (h : k.add x = some k') :
    k'.rank = k.rank + x.toNat := by
  have := k.field6.toNat_lt
  have := x.toNat_lt
  have := k.field5.toNat_lt
  have := k.field4.toNat_lt
  have := k.field3.toNat_lt
  have := k.field2.toNat_lt
  have hcarry : ∀ {a : UInt32}, a.toNat + 1 < 2 ^ 32 → (a + 1).toNat = a.toNat + 1 := by
    intro a ha
    exact Nat.mod_eq_of_lt ha
  have hcarry8 : ∀ {a : UInt8}, a.toNat + 1 < 2 ^ 8 → (a + 1).toNat = a.toNat + 1 := by
    intro a ha
    exact Nat.mod_eq_of_lt ha
  have h6 : (k.field6 + x).toNat = (k.field6.toNat + x.toNat) % 2 ^ 32 := UInt32.toNat_add ..
  unfold add at h
  split_ifs at h <;> cases h <;>
    simp only [rank, UInt32.toNat_zero, UInt8.toNat_zero, *] <;> omega

theorem exists_next {k : Key} (h : k < max) : ∃ k', k.next = some k' := by
  rcases hk : k.next with - | k'
  · simp only [next, add] at hk
    have hmax : k.rank < max.rank := lt_iff_rank.mp h
    simp only [rank, max, UInt32.toNat_one] at hk hmax
    split_ifs at hk
    simp at hmax
    omega
  · exact ⟨k', rfl⟩

section Next

variable {k k' l : Key}

theorem rank_next (h : k.next = some k') : k'.rank = k.rank + 1 := rank_add h

theorem lt_next_iff (h : k.next = some k') : l < k' ↔ l ≤ k := by
  rw [le_iff_rank, lt_iff_rank, rank_next h, Nat.lt_succ_iff]

end Next

/-! ## The meaning of the fields -/

def auxKeyPrefix : UInt8 := 0x62

def isRelBlockKey : Bool :=
  k.field1 == 0x00 && k.field4 != 0 && k.field6 != 0xffffffff

def isRelSizeKey : Bool := k.field1 == 0 && k.field6 == 0xffffffff

def isSlruBlockKey : Bool :=
  k.field1 == 0x01 && k.field3 == 0x00000001 && k.field6 != 0xffffffff

def isSlruSegmentSizeKey : Bool :=
  k.field1 == 0x01 && k.field2 < 0x03 && k.field3 == 0x01 && k.field5 == 0 &&
    k.field6 == 0xffffffff

/-- `slru_dir_kind` gives some answer: a kind, or the number that is none. -/
def isSlruDirKey : Bool :=
  k.field1 == 0x01 && k.field3 == 0 && k.field4 == 0 && k.field5 == 0 && k.field6 == 0

def isAuxFileKey : Bool := k.field1 == auxKeyPrefix

end Key

/-! ## Relations -/

def mainForknum : UInt8 := 0
def fsmForknum : UInt8 := 1
def visibilitymapForknum : UInt8 := 2
def initForknum : UInt8 := 3

structure RelTag where
  forknum : UInt8
  spcnode : UInt32
  dbnode : UInt32
  relnode : UInt32
  deriving DecidableEq

def relBlockToKey (rel : RelTag) (blknum : UInt32) : Key :=
  ⟨0x00, rel.spcnode, rel.dbnode, rel.relnode, rel.forknum, blknum⟩

end NeonStorage.Pageserver
