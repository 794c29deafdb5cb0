import NeonStorage.Pageserver.Key
import Mathlib.Algebra.Order.Ring.Int
import Mathlib.Data.Nat.Find

/-!
# Keys as 127-bit integers

`Key::to_i128` packs the fields of a key, of which `field1` keeps seven bits and `field2` sixteen,
and `Key::from_i128` unpacks them. The two are inverse to each other and keep the order on the keys
that fit (`Key.Fits`). `to_i128` also accepts keys with two special values of `field2`, which do not
come back.

Batches of values store the packed keys, and the index of the layer map works with them.
-/

namespace NeonStorage.Pageserver.Key

open UInt32

variable (k : Key)

/-- Keys are written with 16 bits of `field2` only. -/
def isI128Representable : Bool :=
  k.field2 ≤ 0xffff || k.field2 == 0xffffffff || k.field2 == 0x22222222

def isValidKeyOnWritePath : Bool := k.isI128Representable

/-- `to_i128`. The fields do not overlap, so that their bitwise or is a sum. -/
def toCompact : ℕ :=
  (k.field1 &&& 0x7f).toNat * 2 ^ 120 + (k.field2 &&& 0xffff).toNat * 2 ^ 104
    + k.field3.toNat * 2 ^ 72 + k.field4.toNat * 2 ^ 40 + k.field5.toNat * 2 ^ 32 + k.field6.toNat

def fromCompact (x : ℕ) : Key :=
  ⟨UInt8.ofNat (x / 2 ^ 120 % 0x80), ofNat (x / 2 ^ 104 % 0x10000), ofNat (x / 2 ^ 72),
    ofNat (x / 2 ^ 40), UInt8.ofNat (x / 2 ^ 32), ofNat x⟩

theorem fromCompact_toCompact {k : Key} (h₁ : k.field1 < 0x80) (h₂ : k.field2 ≤ 0xffff) :
    fromCompact k.toCompact = k := by
  obtain ⟨f₁, f₂, f₃, f₄, f₅, f₆⟩ := k
  have h₁ : f₁.toNat < 128 := UInt8.lt_iff_toNat_lt.mp h₁
  have h₂ : f₂.toNat ≤ 65535 := le_iff_toNat_le.mp h₂
  have m₁ : (f₁ &&& 0x7f).toNat = f₁.toNat := by
    exact (Nat.and_two_pow_sub_one_eq_mod _ 7).trans (Nat.mod_eq_of_lt h₁)
  have m₂ : (f₂ &&& 0xffff).toNat = f₂.toNat := by
    exact (Nat.and_two_pow_sub_one_eq_mod _ 16).trans (Nat.mod_eq_of_lt (Nat.lt_succ_of_le h₂))
  have h₃ := f₃.toNat_lt
  have h₄ := f₄.toNat_lt
  have h₅ := f₅.toNat_lt
  have h₆ := f₆.toNat_lt
  simp only [fromCompact, toCompact, m₁, m₂, Key.mk.injEq, ← UInt8.toNat_inj, ← UInt32.toNat_inj,
    UInt8.toNat_ofNat', toNat_ofNat']
  omega

/-! ### The order of the packed keys -/

/-- `to_i128` in the type of the index of the layer map. -/
def toI128 : ℤ := k.toCompact

/-- `from_i128`; the index has no negative keys. -/
def fromI128 (x : ℤ) : Key := fromCompact x.toNat

/-- The key comes back from its integer. -/
def Fits : Prop := fromI128 k.toI128 = k
  deriving Decidable

section Fields

variable {x : ℤ} (hx : 0 ≤ x)

include hx

theorem toNat_fromI128_field1 : ((fromI128 x).field1.toNat : ℤ) = x / 2 ^ 120 % 2 ^ 7 := by
  simp only [fromI128, fromCompact, UInt8.toNat_ofNat']
  omega

theorem toNat_fromI128_field2 : ((fromI128 x).field2.toNat : ℤ) = x / 2 ^ 104 % 2 ^ 16 := by
  simp only [fromI128, fromCompact, toNat_ofNat']
  omega

theorem toNat_fromI128_field3 : ((fromI128 x).field3.toNat : ℤ) = x / 2 ^ 72 % 2 ^ 32 := by
  simp only [fromI128, fromCompact, toNat_ofNat']
  omega

theorem toNat_fromI128_field4 : ((fromI128 x).field4.toNat : ℤ) = x / 2 ^ 40 % 2 ^ 32 := by
  simp only [fromI128, fromCompact, toNat_ofNat']
  omega

theorem toNat_fromI128_field5 : ((fromI128 x).field5.toNat : ℤ) = x / 2 ^ 32 % 2 ^ 8 := by
  simp only [fromI128, fromCompact, UInt8.toNat_ofNat']
  omega

theorem toNat_fromI128_field6 : ((fromI128 x).field6.toNat : ℤ) = x % 2 ^ 32 := by
  simp only [fromI128, fromCompact, toNat_ofNat']
  omega

end Fields

theorem toI128_eq :
    k.toI128 = ((k.field1.toNat % 2 ^ 7 * 2 ^ 120 + k.field2.toNat % 2 ^ 16 * 2 ^ 104 +
      k.field3.toNat * 2 ^ 72 + k.field4.toNat * 2 ^ 40 + k.field5.toNat * 2 ^ 32 +
      k.field6.toNat : ℕ) : ℤ) := by
  have h1 : (k.field1 &&& 0x7f).toNat = k.field1.toNat % 2 ^ 7 := by
    exact Nat.and_two_pow_sub_one_eq_mod _ 7
  have h2 : (k.field2 &&& 0xffff).toNat = k.field2.toNat % 2 ^ 16 := by
    exact Nat.and_two_pow_sub_one_eq_mod _ 16
  rw [toI128, toCompact, h1, h2]

theorem toI128_nonneg : 0 ≤ k.toI128 := Int.natCast_nonneg _

theorem toI128_lt : k.toI128 < 2 ^ 127 := by
  have := k.field3.toNat_lt
  have := k.field4.toNat_lt
  have := k.field5.toNat_lt
  have := k.field6.toNat_lt
  rw [toI128_eq]
  omega

variable {x : ℤ}

theorem toI128_fromI128 (h0 : 0 ≤ x) (hlt : x < 2 ^ 127) : (fromI128 x).toI128 = x := by
  have h1 := toNat_fromI128_field1 h0
  have h2 := toNat_fromI128_field2 h0
  have h3 := toNat_fromI128_field3 h0
  have h4 := toNat_fromI128_field4 h0
  have h5 := toNat_fromI128_field5 h0
  have h6 := toNat_fromI128_field6 h0
  rw [toI128_eq]
  omega

theorem fits_fromI128 (h0 : 0 ≤ x) (hlt : x < 2 ^ 127) : Fits (fromI128 x) := by
  rw [Fits, toI128_fromI128 h0 hlt]

/-- The rank of an unpacked key: the fields above the low 104 bits move apart. -/
theorem rank_fromI128 (h0 : 0 ≤ x) (hlt : x < 2 ^ 127) : ((fromI128 x).rank : ℤ) =
      x / 2 ^ 104 / 2 ^ 16 * 2 ^ 136 + x / 2 ^ 104 % 2 ^ 16 * 2 ^ 104 + x % 2 ^ 104 := by
  have h1 := toNat_fromI128_field1 h0
  have h2 := toNat_fromI128_field2 h0
  have h3 := toNat_fromI128_field3 h0
  have h4 := toNat_fromI128_field4 h0
  have h5 := toNat_fromI128_field5 h0
  have h6 := toNat_fromI128_field6 h0
  unfold rank
  omega

theorem fromI128_lt {x y : ℤ} (hx : 0 ≤ x) (hxy : x < y) (hy : y < 2 ^ 127) :
    fromI128 x < fromI128 y := by
  have hrx := rank_fromI128 hx (hxy.trans hy)
  have hry := rank_fromI128 (hx.trans hxy.le) hy
  rw [lt_iff_rank]
  omega

theorem fromI128_lt_iff {x y : ℤ} (hx0 : 0 ≤ x) (hx : x < 2 ^ 127) (hy0 : 0 ≤ y)
    (hy : y < 2 ^ 127) : fromI128 x < fromI128 y ↔ x < y := by
  refine ⟨fun h ↦ ?_, fun h ↦ fromI128_lt hx0 h hy⟩
  by_contra hle
  rcases (le_of_not_gt hle).lt_or_eq with hlt | rfl
  · exact lt_asymm h (fromI128_lt hy0 hlt hx)
  · exact lt_irrefl _ h

theorem fromI128_lt_max (h0 : 0 ≤ x) : fromI128 x < max := by
  have h2 := toNat_fromI128_field2 h0
  have h1 := toNat_fromI128_field1 h0
  have := (fromI128 x).field3.toNat_lt
  have := (fromI128 x).field4.toNat_lt
  have := (fromI128 x).field5.toNat_lt
  have := (fromI128 x).field6.toNat_lt
  have hmax : max.rank = 2 ^ 144 - 1 := by decide
  rw [lt_iff_rank, hmax]
  unfold rank
  omega

section Fits

variable {k l : Key}

theorem Fits.isI128Representable (hk : Fits k) : k.isI128Representable = true := by
  have hfield := toNat_fromI128_field2 k.toI128_nonneg
  rw [hk] at hfield
  have hle : k.field2 ≤ 0xffff := le_iff_toNat_le.mpr (by
    change k.field2.toNat ≤ 65535
    omega)
  simp [Key.isI128Representable, hle]

theorem Fits.lt_iff (hk : Fits k) (hl : Fits l) : k < l ↔ k.toI128 < l.toI128 := by
  rw [← fromI128_lt_iff k.toI128_nonneg k.toI128_lt l.toI128_nonneg l.toI128_lt, hk, hl]

theorem Fits.le_iff (hk : Fits k) (hl : Fits l) : k ≤ l ↔ k.toI128 ≤ l.toI128 := by
  rw [← not_lt, hl.lt_iff hk, not_lt]

end Fits

theorem fromI128_zero_le : fromI128 0 ≤ k := by
  have hrank := rank_fromI128 le_rfl (by omega)
  rw [← not_lt, lt_iff_rank]
  omega

theorem exists_floor :
    ∃ x : ℤ, 0 ≤ x ∧ x < 2 ^ 127 ∧ ∀ y, 0 ≤ y → y < 2 ^ 127 → (fromI128 y ≤ k ↔ y ≤ x) := by
  obtain ⟨N, hN⟩ : ∃ N : ℕ, (N : ℤ) = 2 ^ 127 - 1 := ⟨2 ^ 127 - 1, rfl⟩
  obtain ⟨n, hn⟩ : ∃ n, Nat.findGreatest (fun n : ℕ ↦ fromI128 n ≤ k) N = n := ⟨_, rfl⟩
  have hspec : fromI128 n ≤ k := by
    rw [← hn]
    exact Nat.findGreatest_spec (P := fun n : ℕ ↦ fromI128 n ≤ k) (Nat.zero_le N)
      (fromI128_zero_le k)
  have hle : n ≤ N := hn ▸ Nat.findGreatest_le N
  refine ⟨n, Int.natCast_nonneg n, by omega, fun y h0 hlt ↦ ⟨fun hy ↦ ?_, fun hy ↦ ?_⟩⟩
  · lift y to ℕ using h0
    have := Nat.le_findGreatest (P := fun n : ℕ ↦ fromI128 n ≤ k) (show y ≤ N by omega) hy
    omega
  · rcases hy.lt_or_eq with hy | rfl
    · exact (fromI128_lt h0 hy (by omega)).le.trans hspec
    · exact hspec

/-! ### The keys of the write path -/

/-- A key of the write path fits, unless `field1` has its top bit or `field2` is one of the two wide
values that are let through. -/
theorem fits_of_isValidKeyOnWritePath {k : Key} (hk : k.isValidKeyOnWritePath = true)
    (h1 : k.field1 < 0x80) (hmax : k.field2 ≠ 0xffffffff) (htest : k.field2 ≠ 0x22222222) :
    Fits k := by
  simp only [isValidKeyOnWritePath, isI128Representable, Bool.or_eq_true,
    decide_eq_true_eq, beq_iff_eq, hmax, htest, or_false] at hk
  exact fromCompact_toCompact h1 hk

/-- **Keys come back from their integers and have the order of these.** -/
theorem fromI128_toI128_of_valid {a b : Key} (ha : a.isValidKeyOnWritePath = true)
    (hb : b.isValidKeyOnWritePath = true) (ha1 : a.field1 < 0x80) (hb1 : b.field1 < 0x80)
    (ha2 : a.field2 ≠ 0xffffffff ∧ a.field2 ≠ 0x22222222)
    (hb2 : b.field2 ≠ 0xffffffff ∧ b.field2 ≠ 0x22222222) :
    fromI128 a.toI128 = a ∧ (a < b ↔ a.toI128 < b.toI128) := by
  have hfa := fits_of_isValidKeyOnWritePath ha ha1 ha2.1 ha2.2
  have hfb := fits_of_isValidKeyOnWritePath hb hb1 hb2.1 hb2.2
  exact ⟨hfa, hfa.lt_iff hfb⟩

theorem fromI128_toI128_of_valid_rel :
    fromI128 (toI128 ⟨0, 1663, 5, 16384, 0, 7⟩) = ⟨0, 1663, 5, 16384, 0, 7⟩ ∧
      ((⟨0, 1663, 5, 16384, 0, 7⟩ : Key) < ⟨0, 1663, 5, 16384, 1, 0⟩ ↔
        toI128 ⟨0, 1663, 5, 16384, 0, 7⟩ < toI128 ⟨0, 1663, 5, 16384, 1, 0⟩) :=
  fromI128_toI128_of_valid (by decide) (by decide) (by decide) (by decide) (by decide) (by decide)

/-- Each of the wide values loses its high bits, and so does a large `field1`; the order is lost,
too. -/
theorem exists_not_fromI128_toI128 :
    (∃ a b : Key, a.isValidKeyOnWritePath = true ∧ b.isValidKeyOnWritePath = true ∧ a < b ∧
      b.toI128 < a.toI128 ∧ fromI128 b.toI128 ≠ b) ∧
    (∃ a : Key, a.isValidKeyOnWritePath = true ∧ a.field2 = 0xffffffff ∧ fromI128 a.toI128 ≠ a) ∧
    ∃ a : Key, a.isValidKeyOnWritePath = true ∧ a.field2 = 0 ∧ fromI128 a.toI128 ≠ a :=
  ⟨⟨⟨0, 0xffff, 0, 0, 0, 0⟩, ⟨0, 0x22222222, 0, 0, 0, 0⟩, by decide⟩,
    ⟨⟨0, 0xffffffff, 0, 0, 0, 0⟩, by decide⟩, ⟨⟨0x80, 0, 0, 0, 0, 0⟩, by decide⟩⟩

end NeonStorage.Pageserver.Key
