import Mathlib.Data.List.Basic

/-!
# Operations that commute

A list of operations performed on a state, and operations that are performed earlier than their
place in the list. Nothing changes as long as an operation is independent of those it overtakes.
-/

namespace NeonStorage.Reorder

variable {σ α : Type*} {perform : σ → α → σ}

/-- The order of `a` and `b` does not matter. -/
def Independent (perform : σ → α → σ) (a b : α) : Prop :=
  ∀ s, perform (perform s a) b = perform (perform s b) a

theorem Independent.symm {a b : α} (h : Independent perform a b) : Independent perform b a :=
  fun s ↦ (h s).symm

/-- An operation that is independent of a whole list can be performed before it or after it. -/
theorem foldl_perform {c : α} {l : List α} (h : ∀ a ∈ l, Independent perform c a) (s : σ) :
    l.foldl perform (perform s c) = perform (l.foldl perform s) c := by
  induction l generalizing s with
  | nil => rfl
  | cons a l ih =>
    have hl : ∀ b ∈ l, Independent perform c b := fun b hb ↦ h b (List.mem_cons_of_mem a hb)
    rw [List.foldl_cons, List.foldl_cons, h a List.mem_cons_self, ih hl]

theorem foldl_append_cons {c : α} {l : List α} (r : List α)
    (h : ∀ a ∈ l, Independent perform c a) (s : σ) :
    (l ++ c :: r).foldl perform s = (l ++ r).foldl perform (perform s c) := by
  rw [List.foldl_append, List.foldl_cons, List.foldl_append, foldl_perform h]

end NeonStorage.Reorder
