import Mathlib.Algebra.Order.Group.Nat
import Mathlib.Data.List.Basic
import Mathlib.Data.List.Induction

/-!
# Files in blocks

A file is cut into blocks of `n` items, the last of them padded, and the blocks are written one
after another over the blocks of an older file. `prefix_overwrite` says when the file can be read
back although only the first `j` blocks were written: if the older file has the rest of it in place.
-/

namespace NeonStorage

open List
variable {α β : Type*}

/-! ## Cutting a file into blocks -/

section Blocks

variable (n : ℕ) (pad : α) (file : List α)

/-- How often a loop that advances by `n` runs until it has passed the file. -/
def blockCount : ℕ := (file.length + n - 1) / n

def block (k : ℕ) : List α := ((file.drop (k * n)).take n).rightpad n pad

def blocks : List (List α) := (List.range (blockCount n file)).map (block n pad file)

@[simp] theorem length_block (k : ℕ) : (block n pad file k).length = n := by
  simp [block]

@[simp] theorem length_blocks : (blocks n pad file).length = blockCount n file := by
  simp [blocks]

theorem le_blockCount_mul (hn : 0 < n) : file.length ≤ blockCount n file * n := by
  have hdiv := Nat.div_add_mod (file.length + n - 1) n
  have hmod := Nat.mod_lt (file.length + n - 1) hn
  rw [Nat.mul_comm] at hdiv
  unfold blockCount
  omega

variable {n pad file}

theorem take_blocks {j : ℕ} (hj : j ≤ blockCount n file) :
    (blocks n pad file).take j = (List.range j).map (block n pad file) := by
  rw [blocks, ← map_take, take_range, Nat.min_eq_left hj]

theorem flatten_map_block (j : ℕ) :
    ((List.range j).map (block n pad file)).flatten = (file.take (j * n)).rightpad (j * n) pad := by
  induction j with
  | zero => simp
  | succ j ih =>
    rw [range_succ, map_append, flatten_append, ih, Nat.succ_mul, take_add]
    by_cases hle : j * n ≤ file.length
    · -- no padding before the last block
      simp [block, List.rightpad, hle, Nat.add_sub_add_left]
    · have hlt : file.length ≤ j * n := Nat.le_of_not_le hle
      simp [block, List.rightpad, drop_eq_nil_of_le hlt, take_of_length_le hlt,
        replicate_append_replicate, Nat.sub_add_comm hlt]

end Blocks

/-! ## Overwriting blocks -/

/-- Write a block. Blocks between the old end and the new block are filled. -/
def putBlock (fill : β) (l : List β) (k : ℕ) (b : β) : List β :=
  if k < l.length then l.set k b else l ++ List.replicate (k - l.length) fill ++ [b]

theorem putBlock_append (fill : β) (l l' : List β) (b : β) :
    putBlock fill (l ++ l') l.length b = l ++ b :: l'.drop 1 := by
  cases l' with
  | nil => simp [putBlock]
  | cons c l' => simp [putBlock]

theorem take_zipIdx (l : List β) (j : ℕ) : l.zipIdx.take j = (l.take j).zipIdx := by
  apply ext_getElem
  · simp
  · simp

variable {n : ℕ}

theorem flatten_drop {bs : List (List α)} (h : ∀ b ∈ bs, b.length = n) (j : ℕ) :
    (bs.drop j).flatten = bs.flatten.drop (j * n) := by
  induction bs generalizing j with
  | nil => simp
  | cons b bs ih =>
    have hb : b.length = n := h b mem_cons_self
    cases j with
    | zero => simp
    | succ j =>
      have hdrop : b.drop (j * n + n) = [] := drop_eq_nil_of_le (by omega)
      rw [drop_succ_cons, ih fun c hc ↦ h c (mem_cons_of_mem b hc), flatten_cons,
        Nat.succ_mul, drop_append, hdrop, hb, Nat.add_sub_cancel, nil_append]

theorem prefix_rightpad_append (file : List α) (pad : α) (m : ℕ) (rest : List α) :
    file <+: (file.take m).rightpad m pad ++ rest ↔ file.drop m <+: rest := by
  by_cases hle : m ≤ file.length
  · have htake : (file.take m).rightpad m pad = file.take m := by simp [List.rightpad, hle]
    rw [htake]
    nth_rewrite 1 [← take_append_drop m file]
    exact prefix_append_right_inj _
  · have hlt : file.length ≤ m := Nat.le_of_not_le hle
    rw [drop_eq_nil_of_le hlt, take_of_length_le hlt, List.rightpad, append_assoc]
    exact ⟨fun _ ↦ nil_prefix, fun _ ↦ prefix_append _ _⟩

theorem prefix_flatten_take (pad : α) {file l : List α} (hl : l <+: file) {j : ℕ}
    (hlen : l.length ≤ j * n) (hj : j ≤ blockCount n file) :
    l <+: ((blocks n pad file).take j).flatten := by
  rw [take_blocks hj, flatten_map_block]
  exact (prefix_take_iff.mpr ⟨hl, hlen⟩).trans (prefix_append _ _)

theorem prefix_overwrite {pad : α} {file : List α} {old : List (List α)}
    (hold : ∀ b ∈ old, b.length = n) {j : ℕ} (hj : j ≤ blockCount n file) :
    file <+: ((blocks n pad file).take j ++ old.drop j).flatten ↔
      file.drop (j * n) <+: old.flatten.drop (j * n) := by
  rw [flatten_append, take_blocks hj, flatten_map_block, flatten_drop hold, prefix_rightpad_append]

end NeonStorage
