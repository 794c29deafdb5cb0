import Mathlib.Data.List.Basic

/-!
# Logs that operations write to

Each operation emits some records. A log that was cut off somewhere ends within the records of one
operation, after all records of those before it.
-/

namespace NeonStorage

open List
variable {α β : Type*} {f : α → List β}

theorem prefix_flatMap {as : List α} {l : List β} (h : l <+: as.flatMap f) :
    l = [] ∨ ∃ as₁ a as₂ j, as = as₁ ++ a :: as₂ ∧ 0 < j ∧ j ≤ (f a).length ∧
      l = as₁.flatMap f ++ (f a).take j := by
  induction as generalizing l with
  | nil => exact .inl (prefix_nil.mp h)
  | cons a as ih =>
    rcases Nat.eq_zero_or_pos l.length with hzero | hpos
    · exact .inl (eq_nil_of_length_eq_zero hzero)
    refine .inr ?_
    by_cases hle : l.length ≤ (f a).length
    · have hl := prefix_of_prefix_length_le h (prefix_append _ _) hle
      exact ⟨[], a, as, l.length, rfl, hpos, hle, prefix_iff_eq_take.mp hl⟩
    · obtain ⟨l', rfl⟩ := prefix_of_prefix_length_le (prefix_append _ _) h (by omega)
      rcases ih ((prefix_append_right_inj _).mp h) with rfl | ⟨as₁, b, as₂, j, rfl, hj, hlen, rfl⟩
      · simp at hle
      · exact ⟨a :: as₁, b, as₂, j, rfl, hj, hlen, by rw [flatMap_cons, append_assoc]⟩

theorem forall_prefix_flatMap {as : List α} {P : List β → Prop} (hnil : P []) :
    (∀ l, l <+: as.flatMap f → P l) ↔ ∀ as₁ a as₂, as = as₁ ++ a :: as₂ →
      ∀ j, 0 < j → j ≤ (f a).length → P (as₁.flatMap f ++ (f a).take j) := by
  constructor
  · rintro h as₁ a as₂ rfl j - -
    refine h _ ?_
    rw [flatMap_append]
    exact (prefix_append_right_inj _).mpr (( take_prefix j _).trans (prefix_append _ _))
  · intro h l hl
    rcases prefix_flatMap hl with rfl | ⟨as₁, a, as₂, j, has, hj, hlen, rfl⟩
    · exact hnil
    · exact h as₁ a as₂ has j hj hlen

end NeonStorage
