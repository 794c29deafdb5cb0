import Mathlib.Tactic.IntervalCases
import Mathlib.Tactic.Ring

/-!
# Advancing the next transaction id of a checkpoint

`CheckPoint::update_next_xid` keeps the 64-bit `nextXid` of the checkpoint record ahead of
every 32-bit transaction id met in the WAL. The id is incremented, clamped to the first normal
id, rounded up to a multiple of `XID_CHECKPOINT_INTERVAL`, compared with the low half of
`nextXid` in the signed order modulo `2 ^ 32`, and put back together with the epoch.

Each of these steps wraps on its own. The main result gives the three places where the wraps
meet badly, and says that everywhere else the call keeps `nextXid` monotone, normal and ahead.
-/

namespace NeonStorage.Postgres

open UInt32

/-- `pg_constants::FIRST_NORMAL_TRANSACTION_ID`: the ids `0`, `1`, `2` are special. -/
def firstNormalTransactionId : UInt32 := 3

def xidCheckpointInterval : UInt32 := 1024

def IsNormalXid (xid : UInt32) : Prop := firstNormalTransactionId ≤ xid
  deriving Decidable

/-- The id that `update_next_xid` proposes for `xid`: the successor, clamped and aligned. -/
def newXid (xid : UInt32) : UInt32 :=
  let new := max (xid + 1) firstNormalTransactionId
  (new + (xidCheckpointInterval - 1)) &&& ~~~(xidCheckpointInterval - 1)

variable (nextXid : UInt64)

/-- `CheckPoint::update_next_xid` on the value of the field `nextXid`: the new value of the
field, and whether it was updated. -/
def updateNextXid (xid : UInt32) : UInt64 × Bool :=
  let new := newXid xid
  let oldXid := nextXid.toUInt32
  if 0 < (new - oldXid).toInt32 then
    let epoch := nextXid >>> 32
    -- wrap-around
    let epoch := if new < oldXid then epoch + 1 else epoch
    let next := (epoch <<< 32) ||| new.toUInt64
    if next ≠ nextXid then (next, true) else (nextXid, false)
  else (nextXid, false)

/-- `a` strictly precedes `b` in the order of transaction ids modulo `2 ^ 32`. -/
def XidPrecedes (a b : UInt32) : Prop := (a - b).toInt32 < 0
  deriving Decidable

/-! ### The values of the machine words -/

variable (x : UInt32)

theorem toInt_toInt32 :
    x.toInt32.toInt = if x.toNat < 2 ^ 31 then (x.toNat : ℤ) else x.toNat - 2 ^ 32 := by
  have h : x.toInt32.toInt =
      if 2 * x.toNat < 2 ^ 32 then (x.toNat : ℤ) else x.toNat - ((2 ^ 32 : ℕ) : ℤ) :=
    BitVec.toInt_eq_toNat_cond x.toBitVec
  split_ifs <;> omega

theorem toInt32_pos_iff : 0 < x.toInt32 ↔ 0 < x.toNat ∧ x.toNat < 2 ^ 31 := by
  have hx := x.toNat_lt
  rw [Int32.lt_iff_toInt_lt, toInt_toInt32, Int32.toInt_zero]
  split_ifs <;> omega

theorem toInt32_neg_iff : x.toInt32 < 0 ↔ 2 ^ 31 ≤ x.toNat := by
  have hx := x.toNat_lt
  rw [Int32.lt_iff_toInt_lt, toInt_toInt32, Int32.toInt_zero]
  split_ifs <;> omega

theorem toNat_align : (x &&& ~~~(xidCheckpointInterval - 1)).toNat = x.toNat / 1024 * 1024 := by
  have hshift : x &&& ~~~(xidCheckpointInterval - 1) = (x >>> 10) <<< 10 := by
    apply UInt32.toBitVec_inj.mp
    ext i hi
    have hmask : (4294966272#32).getLsbD i = decide (10 ≤ i) := by
      interval_cases i <;> rfl
    by_cases h : 10 ≤ i
    · simp_all [xidCheckpointInterval, Nat.not_lt.mpr h]
    · simp_all [xidCheckpointInterval]
  have hx := x.toNat_lt
  rw [hshift, UInt32.toNat_shiftLeft]
  simp [Nat.shiftRight_eq_div_pow, Nat.shiftLeft_eq]
  omega

variable (xid : UInt32)

theorem toNat_newXid :
    (newXid xid).toNat = (max ((xid.toNat + 1) % 2 ^ 32) 3 + 1023) % 2 ^ 32 / 1024 * 1024 := by
  have hmax (a b : UInt32) : (max a b).toNat = max a.toNat b.toNat := by
    change (if a ≤ b then b else a).toNat = _
    split_ifs with h
    · exact (max_eq_right (le_iff_toNat_le.mp h)).symm
    · exact (max_eq_left (Nat.le_of_not_le (mt le_iff_toNat_le.mpr h))).symm
  have hinterval : (xidCheckpointInterval - 1).toNat = 1023 := rfl
  have hfirst : firstNormalTransactionId.toNat = 3 := rfl
  simp only [newXid, toNat_align, UInt32.toNat_add, hmax, hinterval, hfirst, UInt32.toNat_one]

/-- The proposed id is the next multiple of the interval, except near the end of the circle. -/
theorem toNat_newXid_cases :
    (xid.toNat < 2 ^ 32 - 1024 ∧ (newXid xid).toNat = (xid.toNat / 1024 + 1) * 1024) ∨
    (2 ^ 32 - 1024 ≤ xid.toNat ∧ xid.toNat < 2 ^ 32 - 1 ∧ (newXid xid).toNat = 0) ∨
    (xid.toNat = 2 ^ 32 - 1 ∧ (newXid xid).toNat = 1024) := by
  have hxid := xid.toNat_lt
  rw [toNat_newXid]
  omega

theorem toNat_withEpoch (e : UInt64) (xid : UInt32) :
    ((e <<< 32) ||| xid.toUInt64).toNat = e.toNat % 2 ^ 32 * 2 ^ 32 + xid.toNat := by
  have hxid := xid.toNat_lt
  have hshift : (e <<< 32).toNat = (e.toNat % 2 ^ 32) <<< 32 := by
    rw [UInt64.toNat_shiftLeft]
    simp only [UInt64.reduceToNat, Nat.reduceMod]
    omega
  rw [UInt64.toNat_or, hshift, toNat_toUInt64, ← Nat.shiftLeft_add_eq_or_of_lt hxid,
    Nat.shiftLeft_eq]

theorem toNat_oldXid : nextXid.toUInt32.toNat = nextXid.toNat % 2 ^ 32 :=
  UInt64.toNat_toUInt32 nextXid

/-! ### What one call does -/

/-- The update is taken: the proposed id is ahead of the low half of `nextXid`. -/
def Advances (xid : UInt32) : Prop :=
  0 < (newXid xid - nextXid.toUInt32).toInt32
  deriving Decidable

theorem toNat_sub_cases (a b : UInt32) : (b.toNat ≤ a.toNat ∧ (a - b).toNat = a.toNat - b.toNat) ∨
    (a.toNat < b.toNat ∧ (a - b).toNat = 2 ^ 32 + a.toNat - b.toNat) := by
  have ha := a.toNat_lt
  have hb := b.toNat_lt
  rw [UInt32.toNat_sub]
  omega

variable {nextXid}

theorem updateNextXid_of_not_advances {xid : UInt32} (h : ¬ Advances nextXid xid) :
    (updateNextXid nextXid xid).1 = nextXid :=
  congrArg Prod.fst (if_neg h)

/-- A call that advances puts the epoch, raised if the id wrapped, before the proposed id. -/
theorem updateNextXid_of_advances {xid : UInt32} (h : Advances nextXid xid) :
    (updateNextXid nextXid xid).1.toNat =
      (nextXid.toNat / 2 ^ 32 + if newXid xid < nextXid.toUInt32 then 1 else 0) % 2 ^ 32 * 2 ^ 32 +
        (newXid xid).toNat := by
  have hepoch : (nextXid >>> 32).toNat = nextXid.toNat / 2 ^ 32 := by
    simp [Nat.shiftRight_eq_div_pow]
  have hfst : (updateNextXid nextXid xid).1 =
      ((if newXid xid < nextXid.toUInt32 then nextXid >>> 32 + 1 else nextXid >>> 32) <<< 32) |||
        (newXid xid).toUInt64 := by
    have hpos : 0 < (newXid xid - nextXid.toUInt32).toInt32 := h
    rw [updateNextXid, if_pos hpos]
    by_cases hne : ((if newXid xid < nextXid.toUInt32 then nextXid >>> 32 + 1
        else nextXid >>> 32) <<< 32) ||| (newXid xid).toUInt64 = nextXid
    · rw [if_neg (not_not.mpr hne), hne]
    · rw [if_pos hne]
  rw [hfst, toNat_withEpoch]
  split_ifs with hlt
  · rw [UInt64.toNat_add, UInt64.toNat_one]
    omega
  · rw [hepoch, Nat.add_zero]

theorem toUInt32_updateNextXid_of_advances {xid : UInt32} (h : Advances nextXid xid) :
    (updateNextXid nextXid xid).1.toUInt32 = newXid xid := by
  have hnew := (newXid xid).toNat_lt
  apply UInt32.toNat_inj.mp
  rw [UInt64.toNat_toUInt32, updateNextXid_of_advances h]
  omega

/-! ### Where the wraps meet -/

/-- The last epoch is left: the raised epoch loses its top bit when it is shifted back. -/
def LeavesLastEpoch (nextXid : UInt64) (xid : UInt32) : Prop :=
  2 ^ 64 - 2 ^ 32 ≤ nextXid.toNat ∧ newXid xid < nextXid.toUInt32 ∧ Advances nextXid xid

/-- Rounding up reaches the end of the circle after the clamp to normal ids, and `0` is taken. -/
def RoundsToZero (nextXid : UInt64) (xid : UInt32) : Prop :=
  2 ^ 32 - 1024 ≤ xid.toNat ∧ xid.toNat < 2 ^ 32 - 1 ∧ 2 ^ 31 < nextXid.toUInt32.toNat

/-- `xid` is ahead of `nextXid` but rounding moves it past the half of the circle, so that the
proposed id is taken for an old one. -/
def RoundsPastHalf (nextXid : UInt64) (xid : UInt32) : Prop :=
  (xid - nextXid.toUInt32).toNat ≤ 2 ^ 31 - 1024 ∧
    2 ^ 31 ≤ (xid - nextXid.toUInt32).toNat + (newXid xid - xid).toNat

theorem isNormalXid_iff : IsNormalXid xid ↔ 3 ≤ xid.toNat :=
  le_iff_toNat_le

theorem advances_iff (nextXid : UInt64) (xid : UInt32) : Advances nextXid xid ↔
      0 < (newXid xid - nextXid.toUInt32).toNat ∧
        (newXid xid - nextXid.toUInt32).toNat < 2 ^ 31 :=
  toInt32_pos_iff _

theorem le_updateNextXid_iff (nextXid : UInt64) (xid : UInt32) :
    nextXid ≤ (updateNextXid nextXid xid).1 ↔ ¬ LeavesLastEpoch nextXid xid := by
  have hnext := nextXid.toNat_lt
  have hold := toNat_oldXid nextXid
  by_cases hadv : Advances nextXid xid
  · rw [UInt64.le_iff_toNat_le, updateNextXid_of_advances hadv, LeavesLastEpoch, and_iff_left hadv]
    by_cases hlt : newXid xid < nextXid.toUInt32
    · have := lt_iff_toNat_lt.mp hlt
      simp only [hlt, if_true, and_true]
      omega
    · have := mt lt_iff_toNat_lt.mpr hlt
      simp only [hlt, if_false, and_false, not_false_eq_true, iff_true]
      omega
  · simp [updateNextXid_of_not_advances hadv, LeavesLastEpoch, hadv]

theorem isNormalXid_updateNextXid_iff (hold : IsNormalXid nextXid.toUInt32) :
    IsNormalXid (updateNextXid nextXid xid).1.toUInt32 ↔ ¬ RoundsToZero nextXid xid := by
  have hlt := nextXid.toUInt32.toNat_lt
  have hsub := toNat_sub_cases (newXid xid) nextXid.toUInt32
  have hcases := toNat_newXid_cases xid
  have hadv_iff := advances_iff nextXid xid
  rw [isNormalXid_iff] at hold
  by_cases hadv : Advances nextXid xid
  · rw [toUInt32_updateNextXid_of_advances hadv, isNormalXid_iff, RoundsToZero]
    have := hadv_iff.mp hadv
    omega
  · rw [updateNextXid_of_not_advances hadv, isNormalXid_iff, RoundsToZero]
    have := mt hadv_iff.mpr hadv
    omega

theorem toNat_newXid_sub : 1 ≤ (newXid xid - xid).toNat ∧ (newXid xid - xid).toNat ≤ 1025 := by
  have hcases := toNat_newXid_cases xid
  have hsub := toNat_sub_cases (newXid xid) xid
  omega

/-- An id that is not too far ahead precedes the new `nextXid`, unless rounding it moves past
the half of the circle. -/
theorem xidPrecedes_updateNextXid_iff (nextXid : UInt64) (xid : UInt32) :
    ((xid - nextXid.toUInt32).toInt32.toInt ≤ 2 ^ 31 - 1024 →
        XidPrecedes xid (updateNextXid nextXid xid).1.toUInt32) ↔
      ¬ RoundsPastHalf nextXid xid := by
  have hold := nextXid.toUInt32.toNat_lt
  have hahead := toNat_newXid_sub xid
  have hnew := toNat_sub_cases (newXid xid) xid
  have hnewOld := toNat_sub_cases (newXid xid) nextXid.toUInt32
  have hxidOld := toNat_sub_cases xid nextXid.toUInt32
  have hxidNew := toNat_sub_cases xid (newXid xid)
  have hadv_iff := advances_iff nextXid xid
  rw [toInt_toInt32, RoundsPastHalf, XidPrecedes, toInt32_neg_iff]
  by_cases hadv : Advances nextXid xid
  · rw [toUInt32_updateNextXid_of_advances hadv]
    have := hadv_iff.mp hadv
    split_ifs <;> omega
  · rw [updateNextXid_of_not_advances hadv]
    have := mt hadv_iff.mpr hadv
    split_ifs <;> omega

/-- For every id, `update_next_xid` keeps `nextXid` monotone, its low half normal, and an id at most
`2 ^ 31 - 1024` ahead of it strictly before the result, exactly if none of the three wraps
described above is met. -/
theorem updateNextXid_safe_iff (nextXid : UInt64) (xid : UInt32)
    (hold : IsNormalXid nextXid.toUInt32) : (nextXid ≤ (updateNextXid nextXid xid).1 ∧
        IsNormalXid (updateNextXid nextXid xid).1.toUInt32 ∧
        ((xid - nextXid.toUInt32).toInt32.toInt ≤ 2 ^ 31 - 1024 →
          XidPrecedes xid (updateNextXid nextXid xid).1.toUInt32)) ↔
      ¬ LeavesLastEpoch nextXid xid ∧ ¬ RoundsToZero nextXid xid ∧
        ¬ RoundsPastHalf nextXid xid := by
  rw [le_updateNextXid_iff, isNormalXid_updateNextXid_iff xid hold, xidPrecedes_updateNextXid_iff]

theorem updateNextXid_safe_first_wrap :
    IsNormalXid ((0xFFFFFC00 : UInt64)).toUInt32 ∧ IsNormalXid 0xFFFFFFFF ∧
    (0xFFFFFC00 : UInt64) ≤ (updateNextXid 0xFFFFFC00 0xFFFFFFFF).1 := by
  refine ⟨by decide, by decide, ?_⟩
  refine ((updateNextXid_safe_iff 0xFFFFFC00 0xFFFFFFFF (by decide)).mpr ?_).1
  refine ⟨?_, ?_, ?_⟩ <;> simp only [LeavesLastEpoch, RoundsToZero, RoundsPastHalf] <;> decide

/-- With `nextXid` a few ids before the end of the circle, the last id but one makes the low half
of `nextXid` zero, an id that is not normal. -/
theorem not_isNormalXid_updateNextXid :
    IsNormalXid ((0xFFFFFF00 : UInt64)).toUInt32 ∧ IsNormalXid 0xFFFFFF80 ∧
    (updateNextXid 0xFFFFFF00 0xFFFFFF80).1.toUInt32 = 0 ∧
    ¬ IsNormalXid (updateNextXid 0xFFFFFF00 0xFFFFFF80).1.toUInt32 := by
  decide

end NeonStorage.Postgres
