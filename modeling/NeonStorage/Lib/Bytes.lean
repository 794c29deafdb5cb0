import Mathlib.Algebra.Order.Group.Nat
import Mathlib.Data.List.GetD

/-!
# Byte streams

A stream of bytes without an end is a function from positions. Chunks of it are read with
`bytesAt` and written with `writeAt`.
-/

namespace NeonStorage

variable (w : ℕ → UInt8)

def bytesAt (pos n : ℕ) : List UInt8 := (List.range n).map fun k ↦ w (pos + k)

def writeAt (pos : ℕ) (buf : List UInt8) : ℕ → UInt8 := fun x ↦
  if pos ≤ x ∧ x < pos + buf.length then buf.getD (x - pos) 0 else w x

@[simp] theorem writeAt_nil (pos : ℕ) : writeAt w pos [] = w :=
  funext fun _ ↦ if_neg (by simp only [List.length_nil]; omega)

theorem writeAt_append (pos : ℕ) (a b : List UInt8) :
    writeAt (writeAt w pos a) (pos + a.length) b = writeAt w pos (a ++ b) := by
  funext x
  unfold writeAt
  simp only [List.length_append]
  by_cases ha : pos ≤ x ∧ x < pos + a.length
  · rw [if_neg (by omega), if_pos ha, if_pos (by omega), List.getD_append _ _ _ _ (by omega)]
  · by_cases hb : pos + a.length ≤ x ∧ x < pos + a.length + b.length
    · rw [if_pos hb, if_pos (by omega), List.getD_append_right _ _ _ _ (by omega)]
      congr 1
      omega
    · rw [if_neg hb, if_neg ha, if_neg (by omega)]

theorem writeAt_bytesAt (v : ℕ → UInt8) (pos n x : ℕ) :
    writeAt w pos (bytesAt v pos n) x = if pos ≤ x ∧ x < pos + n then v x else w x := by
  unfold writeAt bytesAt
  rw [List.length_map, List.length_range]
  split
  · rename_i h
    rw [List.getD_eq_getElem _ _ (by simp; omega)]
    simp [Nat.add_sub_cancel' h.1]
  · rfl

end NeonStorage
