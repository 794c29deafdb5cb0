import Mathlib.Init

/-!
# Lists that grow at the end

What holds of the members of a list to which one element was added.
-/

namespace NeonStorage

open List

variable {α : Type*} {l : List α} {a x : α}

theorem mem_snoc : x ∈ l ++ [a] ↔ x ∈ l ∨ x = a := by
  rw [mem_append, mem_singleton]

theorem mem_snoc_self : a ∈ l ++ [a] := mem_append_right _ mem_cons_self

theorem forall_mem_snoc {p : α → Prop} : (∀ x ∈ l ++ [a], p x) ↔ (∀ x ∈ l, p x) ∧ p a := by
  rw [forall_mem_append, forall_mem_singleton]

theorem pairwise_snoc {r : α → α → Prop} :
    (l ++ [a]).Pairwise r ↔ l.Pairwise r ∧ ∀ x ∈ l, r x a := by
  simp only [pairwise_append, pairwise_singleton, true_and, mem_singleton, forall_eq]

end NeonStorage
