import Mathlib.Algebra.Order.Group.Nat

/-!
# Binary search

The loop of a binary search over positions, each of which compares as less than, equal to or greater
than what is searched for. It finds the one position that is equal, or else the position before
which all are less and from which on all are greater. In a sorted list these positions are counts of
keys.
-/

namespace NeonStorage.BinarySearch

open List

/-- The loop from `low` to `high`; `ok` is the position of a match, `error` that of the first
greater one. Each round makes the interval smaller. -/
def search (ord : ℕ → Ordering) : ℕ → ℕ → ℕ → Except ℕ ℕ
  | 0, low, _ => .error low
  | fuel + 1, low, high =>
    if low < high then
      let mid := low + (high - low) / 2
      match ord mid with
      | .lt => search ord fuel (mid + 1) high
      | .gt => search ord fuel low mid
      | .eq => .ok mid
    else .error low

/-- Positions below `c` are less, and positions above it are greater. -/
structure Splits (ord : ℕ → Ordering) (n c : ℕ) : Prop where
  le : c ≤ n
  lt_iff : ∀ i < n, ord i = .lt ↔ i < c
  eq : ∀ i < n, ord i = .eq → i = c

variable {ord : ℕ → Ordering}

/-- **The search finds where the positions split**, if a match is not above the interval. -/
theorem search_eq {n c : ℕ} (h : Splits ord n c) {fuel low high : ℕ}
    (hlow : low ≤ c) (hhigh : c ≤ high) (hn : high ≤ n) (hmatch : ord c = .eq → c < n → c < high)
    (hfuel : high - low ≤ fuel) :
    search ord fuel low high = if c < n ∧ ord c = .eq then .ok c else .error c := by
  have hend (heq : c = high) : ¬ (c < n ∧ ord c = .eq) := by
    rintro ⟨hlt, hord⟩
    have := hmatch hord hlt
    omega
  induction fuel generalizing low high with
  | zero =>
    rw [search, if_neg (hend (by omega)), show low = c by omega]
  | succ fuel ih =>
    by_cases hlt : low < high
    · obtain ⟨mid, hmid⟩ : ∃ mid, low + (high - low) / 2 = mid := ⟨_, rfl⟩
      have hmidn : mid < n := by omega
      rw [search, if_pos hlt]
      simp only [hmid]
      cases hord : ord mid with
      | lt =>
        have hlt := (h.lt_iff _ hmidn).mp hord
        exact ih hlt hhigh hn hmatch (by omega) hend
      | eq =>
        obtain rfl := h.eq _ hmidn hord
        rw [if_pos ⟨hmidn, hord⟩]
      | gt =>
        have hge : c ≤ mid := by
          by_contra hgt
          cases ((h.lt_iff _ hmidn).mpr (by omega)).symm.trans hord
        have hmatch' (heq : ord c = .eq) (_ : c < n) : c < mid := by
          refine Nat.lt_of_le_of_ne hge fun hcm ↦ ?_
          rw [hcm, hord] at heq
          cases heq
        refine ih hlow hge (by omega) hmatch' (by omega) fun heq ↦ ?_
        rintro ⟨hlt, hord⟩
        have := hmatch' hord hlt
        omega
    · rw [search, if_neg hlt, if_neg (hend (by omega)), show low = c by omega]

/-! ## Positions in sorted lists -/

section Sorted

variable {α : Type*} {p : α → Bool} {l : List α}

section Down

variable (h : l.Pairwise fun a b ↦ p b → p a)
include h

theorem filter_append_filter_not : l.filter p ++ l.filter (fun a ↦ !p a) = l := by
  induction l with
  | nil => rfl
  | cons a l ih =>
    rw [pairwise_cons] at h
    by_cases ha : p a
    · rw [filter_cons_of_pos ha, filter_cons_of_neg (by simpa using ha), cons_append, ih h.2]
    · have hnone : l.filter p = [] := filter_eq_nil_iff.mpr fun b hb hpb ↦ ha (h.1 b hb hpb)
      have hall := ih h.2
      rw [hnone, nil_append] at hall
      rw [filter_cons_of_neg ha, filter_cons_of_pos (by simpa using ha), hnone, hall, nil_append]

theorem filter_eq_take_countP : l.filter p = l.take (l.countP p) := by
  rw [countP_eq_length_filter]
  exact (take_left' rfl).symm.trans (congrArg _ (filter_append_filter_not h))

theorem filter_not_eq_drop_countP : l.filter (fun a ↦ !p a) = l.drop (l.countP p) := by
  rw [countP_eq_length_filter]
  exact (drop_left' rfl).symm.trans (congrArg _ (filter_append_filter_not h))

theorem lt_countP_iff {i : ℕ} (hi : i < l.length) : i < l.countP p ↔ p l[i] := by
  constructor
  · intro hlt
    have hmem : l[i] ∈ l.filter p := by
      rw [filter_eq_take_countP h]
      exact mem_take_iff_getElem.mpr ⟨i, by omega, rfl⟩
    exact (mem_filter.mp hmem).2
  · intro hp
    by_contra hge
    have hmem : l[i] ∈ l.filter fun a ↦ !p a := by
      rw [filter_not_eq_drop_countP h]
      exact mem_drop_iff_getElem.mpr ⟨i - l.countP p, by omega, by congr 1; omega⟩
    simpa [hp] using (mem_filter.mp hmem).2

end Down

variable {K : Type} [LinearOrder K] {key : α → K} (x : K) (hsorted : l.Pairwise (key · < key ·))
include hsorted

theorem down_lt : l.Pairwise fun a b ↦ decide (key b < x) → decide (key a < x) :=
  hsorted.imp fun hlt hb ↦ decide_eq_true (hlt.trans (of_decide_eq_true hb))

theorem down_le : l.Pairwise fun a b ↦ decide (key b ≤ x) → decide (key a ≤ x) :=
  hsorted.imp fun hlt hb ↦ decide_eq_true (hlt.le.trans (of_decide_eq_true hb))

variable {x}

theorem lt_countP_lt_iff {i : ℕ} (hi : i < l.length) : i < l.countP (key · < x) ↔ key l[i] < x := by
  rw [lt_countP_iff (down_lt x hsorted) hi, decide_eq_true_iff]

theorem lt_countP_le_iff {i : ℕ} (hi : i < l.length) : i < l.countP (key · ≤ x) ↔ key l[i] ≤ x := by
  rw [lt_countP_iff (down_le x hsorted) hi, decide_eq_true_iff]

theorem countP_le_le : l.countP (key · ≤ x) ≤ l.countP (key · < x) + 1 := by
  by_contra hgt
  have hlen : l.countP (key · ≤ x) ≤ l.length := countP_le_length
  obtain ⟨c, hc⟩ : ∃ c, l.countP (key · < x) = c := ⟨_, rfl⟩
  have hcn : c + 1 < l.length := by omega
  have hnot := mt (lt_countP_lt_iff (x := x) hsorted (i := c) (by omega)).mpr (hc ▸ lt_irrefl _)
  have hle := (lt_countP_le_iff (x := x) hsorted hcn).mp (by omega)
  have hlt := pairwise_iff_getElem.mp hsorted c (c + 1) (by omega) hcn c.lt_succ_self
  exact hnot (hlt.trans_le hle)

/-- **The search for a key in a sorted list** counts the smaller keys, and succeeds if the next one
is not greater. -/
theorem search_sorted (hord : ∀ i (hi : i < l.length), ord i = cmp (key l[i]) x) :
    search ord l.length 0 l.length =
      if l.countP (key · < x) < l.countP (key · ≤ x) then .ok (l.countP (key · < x))
      else .error (l.countP (key · < x)) := by
  obtain ⟨c, hc⟩ : ∃ c, l.countP (key · < x) = c := ⟨_, rfl⟩
  have hlen : c ≤ l.length := hc ▸ countP_le_length
  have heq {i : ℕ} (hi : i < l.length) (h : ord i = .eq) : key l[i] = x := by
    rwa [hord i hi, cmp_eq_eq_iff] at h
  have hsplits : Splits ord l.length c := by
    refine ⟨hlen, fun i hi ↦ ?_, fun i hi h ↦ ?_⟩
    · rw [hord i hi, cmp_eq_lt_iff, ← hc, lt_countP_lt_iff hsorted hi]
    · have hlt := (lt_countP_le_iff hsorted hi).mpr (heq hi h).le
      have hge := mt (lt_countP_lt_iff hsorted hi).mp (heq hi h).not_lt
      have := countP_le_le (x := x) hsorted
      omega
  rw [search_eq hsplits (Nat.zero_le _) hlen le_rfl (fun _ h ↦ h) (by omega), hc]
  refine if_congr ⟨fun ⟨hlt, h⟩ ↦ ?_, fun hlt ↦ ?_⟩ rfl rfl
  · exact (lt_countP_le_iff hsorted hlt).mpr (heq hlt h).le
  · have hcn : c < l.length := hlt.trans_le countP_le_length
    have hle := (lt_countP_le_iff hsorted hcn).mp hlt
    have hnot := mt (lt_countP_lt_iff (x := x) hsorted hcn).mpr (hc ▸ lt_irrefl _)
    rw [hord c hcn, cmp_eq_eq_iff]
    exact ⟨hcn, le_antisymm hle (not_lt.mp hnot)⟩

end Sorted

end NeonStorage.BinarySearch
