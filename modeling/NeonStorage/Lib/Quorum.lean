import Mathlib.Data.Finset.Card

/-!
# Majorities

Two majorities of one set meet; and what a sorted list of positions says about how many are at most
one of them.
-/

namespace NeonStorage

open Finset

variable {ι : Type} [DecidableEq ι]

def Majority (M Q : Finset ι) : Prop := M.card < 2 * (M ∩ Q).card
  deriving Decidable

/-- **Two majorities of one set meet** in a member of it. -/
theorem Majority.meet {M Q Q' : Finset ι} (h : Majority M Q) (h' : Majority M Q') :
    ∃ s ∈ M, s ∈ Q ∧ s ∈ Q' := by
  by_contra hno
  push Not at hno
  have hdisj : Disjoint (M ∩ Q) (M ∩ Q') := by
    rw [disjoint_left]
    intro s hs hs'
    rw [mem_inter] at hs hs'
    exact hno s hs.1 hs.2 hs'.2
  have hcard : (M ∩ Q).card + (M ∩ Q').card ≤ M.card := by
    rw [← card_union_of_disjoint hdisj, ← inter_union_distrib_left]
    exact card_le_card inter_subset_left
  unfold Majority at h h'
  omega

theorem Majority.subset_of_card_le_two {M Q : Finset ι} (h : Majority M Q) (hM : M.card ≤ 2) :
    M ⊆ Q := by
  unfold Majority at h
  refine inter_eq_left.mp (eq_of_subset_of_card_le inter_subset_left ?_)
  omega

theorem majority_of_length {l m : List ι} (hnd : m.Nodup) (hsub : m ⊆ l)
    (h : l.length / 2 + 1 ≤ m.length) : Majority l.toFinset m.toFinset := by
  have hinter : l.toFinset ∩ m.toFinset = m.toFinset :=
    inter_eq_right.mpr fun i hi ↦ List.mem_toFinset.mpr (hsub (List.mem_toFinset.mp hi))
  have hcard := l.toFinset_card_le
  unfold Majority
  rw [hinter, List.toFinset_card_of_nodup hnd]
  omega

theorem succ_le_countP_of_sorted {α : Type} [LinearOrder α] {l l' : List α} {k : ℕ} {x : α}
    (hperm : l'.Perm l) (hsorted : l'.Pairwise (· ≤ ·)) (hx : l'[k]? = some x) :
    k + 1 ≤ l.countP (· ≤ x) := by
  obtain ⟨hk, rfl⟩ := List.getElem?_eq_some_iff.mp hx
  have htake : ∀ y ∈ l'.take (k + 1), decide (y ≤ l'[k]) = true := by
    intro y hy
    obtain ⟨m, hm, rfl⟩ := List.mem_iff_getElem.mp hy
    rw [List.length_take] at hm
    rw [List.getElem_take]
    rcases Nat.lt_or_ge m k with hlt | hge
    · exact decide_eq_true (List.pairwise_iff_getElem.mp hsorted _ _ _ _ hlt)
    · obtain rfl : m = k := by omega
      exact decide_eq_true le_rfl
  rw [← hperm.countP_eq]
  calc k + 1 = (l'.take (k + 1)).length := by
        rw [List.length_take]
        omega
    _ = (l'.take (k + 1)).countP _ := (List.countP_eq_length.mpr htake).symm
    _ ≤ l'.countP _ := (List.take_sublist _ _).countP_le

end NeonStorage
