import Mathlib.Data.List.Pairwise
import Mathlib.Order.MinMax

/-!
# Sets of points as separated ranges

A set is kept as a list of non-empty half-open ranges in order, with a gap between each two of them.
Inserting a range merges it with all ranges that it meets or touches. Because of the gaps, the
points of an interval are in the set just if one of the ranges contains the interval.
-/

namespace NeonStorage

open List
variable {K : Type} [LinearOrder K]

/-- A set of points, as ranges in order with gaps between them. -/
structure RangeSet (K : Type) [LinearOrder K] where
  ranges : List (K × K)
  nonempty : ∀ p ∈ ranges, p.1 < p.2
  sorted : ranges.Pairwise fun p q ↦ p.2 < q.1

namespace RangeSet

def Within (ranges : List (K × K)) (x : K) : Prop := ∃ p ∈ ranges, p.1 ≤ x ∧ x < p.2

/-- Insert a range into a list of ranges; it grows while it is merged with others. -/
def insertRange (lo hi : K) : List (K × K) → List (K × K)
  | [] => [(lo, hi)]
  | p :: ps =>
    if p.2 < lo then p :: insertRange lo hi ps
    else if hi < p.1 then (lo, hi) :: p :: ps
    else insertRange (min lo p.1) (max hi p.2) ps

section InsertRange

variable {lo hi a : K} {ps : List (K × K)}

theorem within_cons {p : K × K} {x : K} : Within (p :: ps) x ↔ p.1 ≤ x ∧ x < p.2 ∨ Within ps x := by
  simp [Within]

theorem within_append {qs : List (K × K)} {x : K} :
    Within (ps ++ qs) x ↔ Within ps x ∨ Within qs x := by
  simp [Within, or_and_right, exists_or]

theorem of_mem_insertRange {P Q : K → Prop} (hps : ∀ p ∈ ps, P p.1 ∧ Q p.2) (hlo : P lo)
    (hhi : Q hi) : ∀ q ∈ insertRange lo hi ps, P q.1 ∧ Q q.2 := by
  induction ps generalizing lo hi with
  | nil =>
    intro q hq
    rw [mem_singleton.mp hq]
    exact ⟨hlo, hhi⟩
  | cons p ps ih =>
    obtain ⟨hp, hps'⟩ := forall_mem_cons.mp hps
    unfold insertRange
    split_ifs with hbefore hafter
    · exact forall_mem_cons.mpr ⟨hp, ih hps' hlo hhi⟩
    · exact forall_mem_cons.mpr ⟨⟨hlo, hhi⟩, hps⟩
    · refine ih hps' ?_ ?_
      · rcases min_choice lo p.1 with h | h <;> rw [h]
        exacts [hlo, hp.1]
      · rcases max_choice hi p.2 with h | h <;> rw [h]
        exacts [hhi, hp.2]

theorem insertRange_nonempty (hps : ∀ p ∈ ps, p.1 < p.2) (hlt : lo < hi) :
    ∀ q ∈ insertRange lo hi ps, q.1 < q.2 := by
  induction ps generalizing lo hi with
  | nil =>
    intro q hq
    rw [mem_singleton.mp hq]
    exact hlt
  | cons p ps ih =>
    obtain ⟨hp, hps'⟩ := forall_mem_cons.mp hps
    unfold insertRange
    split_ifs with hbefore hafter
    · exact forall_mem_cons.mpr ⟨hp, ih hps' hlt⟩
    · exact forall_mem_cons.mpr ⟨hlt, hps⟩
    · exact ih hps' ((min_le_left lo p.1).trans_lt (hlt.trans_le (le_max_left hi p.2)))

theorem insertRange_sorted (hne : ∀ p ∈ ps, p.1 < p.2) (hs : ps.Pairwise fun p q ↦ p.2 < q.1) :
    (insertRange lo hi ps).Pairwise fun p q ↦ p.2 < q.1 := by
  induction ps generalizing lo hi with
  | nil => exact pairwise_singleton _ _
  | cons p ps ih =>
    obtain ⟨hp, hs'⟩ := pairwise_cons.mp hs
    obtain ⟨-, hne'⟩ := forall_mem_cons.mp hne
    unfold insertRange
    split_ifs with hbefore hafter
    · refine pairwise_cons.mpr ⟨fun q hq ↦ ?_, ih hne' hs'⟩
      exact (of_mem_insertRange (Q := fun _ ↦ True)
        (fun q hq ↦ ⟨hp q hq, trivial⟩) hbefore trivial q hq).1
    · refine pairwise_cons.mpr ⟨forall_mem_cons.mpr ⟨hafter, fun q hq ↦ ?_⟩, hs⟩
      exact hafter.trans ((hne p mem_cons_self).trans (hp q hq))
    · exact ih hne' hs'

theorem within_insertRange (hne : ∀ p ∈ ps, p.1 < p.2) (hlt : lo < hi) {x : K} :
    Within (insertRange lo hi ps) x ↔ lo ≤ x ∧ x < hi ∨ Within ps x := by
  induction ps generalizing lo hi with
  | nil => simp [insertRange, Within]
  | cons p ps ih =>
    obtain ⟨hp, hne'⟩ := forall_mem_cons.mp hne
    unfold insertRange
    split_ifs with hbefore hafter
    · rw [within_cons, ih hne' hlt, within_cons, or_left_comm]
    · rw [within_cons]
    · have hlt' := (min_le_left lo p.1).trans_lt (hlt.trans_le (le_max_left hi p.2))
      rw [ih hne' hlt', within_cons, ← or_assoc]
      refine or_congr_left ?_
      -- two ranges that meet or touch
      rw [min_le_iff, lt_max_iff]
      rw [not_lt] at hbefore hafter
      constructor
      · rintro ⟨hlo | hlo, hhi | hhi⟩
        · exact .inl ⟨hlo, hhi⟩
        · exact (lt_or_ge x hi).imp (⟨hlo, ·⟩) fun h ↦ ⟨hafter.trans h, hhi⟩
        · exact (lt_or_ge x p.2).symm.imp (fun h ↦ ⟨hbefore.trans h, hhi⟩) (⟨hlo, ·⟩)
        · exact .inr ⟨hlo, hhi⟩
      · rintro (⟨hlo, hhi⟩ | ⟨hlo, hhi⟩)
        · exact ⟨.inl hlo, .inl hhi⟩
        · exact ⟨.inr hlo, .inr hhi⟩

end InsertRange

variable (s : RangeSet K) (lo hi : K)

def empty : RangeSet K := ⟨[], by simp, .nil⟩

def insert : RangeSet K :=
  if h : lo < hi then
    ⟨insertRange lo hi s.ranges, insertRange_nonempty s.nonempty h,
      insertRange_sorted s.nonempty s.sorted⟩
  else s

def contains : Bool := s.ranges.any fun p ↦ p.1 ≤ lo && hi ≤ p.2

variable {s lo hi} {x : K}

def Has (s : RangeSet K) (x : K) : Prop := Within s.ranges x

theorem not_has_empty : ¬ (empty : RangeSet K).Has x := by simp [Has, Within, empty]

theorem has_insert : (s.insert lo hi).Has x ↔ lo ≤ x ∧ x < hi ∨ s.Has x := by
  unfold insert
  split_ifs with h
  · exact within_insertRange s.nonempty h
  · exact (or_iff_right fun hx ↦ h (hx.1.trans_lt hx.2)).symm

theorem of_mem_insert {P Q : K → Prop} (hs : ∀ p ∈ s.ranges, P p.1 ∧ Q p.2) (hlo : P lo)
    (hhi : Q hi) : ∀ p ∈ (s.insert lo hi).ranges, P p.1 ∧ Q p.2 := by
  unfold insert
  split_ifs with h
  · exact of_mem_insertRange hs hlo hhi
  · exact hs

theorem not_has_snd {p : K × K} (hp : p ∈ s.ranges) : ¬ s.Has p.2 := by
  rintro ⟨q, hq, hle, hlt⟩
  have hsep : p = q ∨ p.2 < q.1 ∨ q.2 < p.1 := by
    have : Std.Symm fun p q : K × K ↦ p.2 < q.1 ∨ q.2 < p.1 := ⟨fun _ _ ↦ Or.symm⟩
    have hs : s.ranges.Pairwise fun p q ↦ p.2 < q.1 ∨ q.2 < p.1 := s.sorted.imp .inl
    exact or_iff_not_imp_left.mpr (hs.forall hp hq)
  rcases hsep with rfl | h | h
  · exact lt_irrefl _ hlt
  · exact h.not_ge hle
  · exact (hlt.trans h).not_gt (s.nonempty p hp)

/-- **An interval is in the set just if one range contains it.** -/
theorem contains_iff (hlt : lo < hi) : s.contains lo hi ↔ ∀ x, lo ≤ x → x < hi → s.Has x := by
  simp only [contains, any_eq_true, Bool.and_eq_true, decide_eq_true_eq]
  constructor
  · rintro ⟨p, hp, hlo, hhi⟩ x hx hx'
    exact ⟨p, hp, hlo.trans hx, hx'.trans_le hhi⟩
  · intro h
    obtain ⟨p, hp, hlo, hlt'⟩ := h lo le_rfl hlt
    refine ⟨p, hp, hlo, le_of_not_gt fun hend ↦ ?_⟩
    exact not_has_snd hp (h p.2 hlt'.le hend)

end RangeSet

end NeonStorage
