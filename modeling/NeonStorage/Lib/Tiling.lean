import Mathlib.Order.Interval.Set.Basic

/-!
# Tilings of an interval

A list of half-open ranges tiles an interval if each range is non-empty and begins where the one
before it ends. Such a list is built from left to right, by a new range at the end or by moving
the end of the last one. Each point of the interval then is in exactly one range.
-/

namespace NeonStorage.Tiling

variable {K : Type} [LinearOrder K]

/-- The ranges are non-empty and lead from `lo` to `hi` without a gap. -/
def Tiles (lo hi : K) : List (K × K) → Prop
  | [] => lo = hi
  | p :: ps => p.1 = lo ∧ p.1 < p.2 ∧ Tiles p.2 hi ps

variable {lo mid hi : K} {ps : List (K × K)} {p q : K × K}

theorem tiles_append_singleton :
    Tiles lo hi (ps ++ [p]) ↔ Tiles lo p.1 ps ∧ p.1 < p.2 ∧ p.2 = hi := by
  induction ps generalizing lo with
  | nil => simp [Tiles, eq_comm]
  | cons q ps ih => simp [Tiles, ih, and_assoc]

theorem Tiles.push (h : Tiles lo mid ps) (hlt : mid < hi) : Tiles lo hi (ps ++ [(mid, hi)]) :=
  tiles_append_singleton.mpr ⟨h, hlt, rfl⟩

theorem Tiles.widen (h : Tiles lo mid (ps ++ [p])) (hle : mid ≤ hi) :
    Tiles lo hi (ps ++ [(p.1, hi)]) := by
  obtain ⟨hps, hlt, rfl⟩ := tiles_append_singleton.mp h
  exact tiles_append_singleton.mpr ⟨hps, hlt.trans_le hle, rfl⟩

section

variable (h : Tiles lo hi ps)
include h

theorem Tiles.le : lo ≤ hi := by
  induction ps generalizing lo with
  | nil => exact h.le
  | cons p ps ih =>
    obtain ⟨rfl, hlt, hps⟩ := h
    exact hlt.le.trans (ih hps)

theorem Tiles.nonempty (hp : p ∈ ps) : p.1 < p.2 := by
  induction ps generalizing lo with
  | nil => cases hp
  | cons q ps ih =>
    obtain ⟨-, hlt, hps⟩ := h
    rcases List.mem_cons.mp hp with rfl | hp
    · exact hlt
    · exact ih hps hp

theorem Tiles.lo_le (hp : p ∈ ps) : lo ≤ p.1 := by
  induction ps generalizing lo with
  | nil => cases hp
  | cons q ps ih =>
    obtain ⟨rfl, hlt, hps⟩ := h
    rcases List.mem_cons.mp hp with rfl | hp
    · exact le_rfl
    · exact hlt.le.trans (ih hps hp)

theorem Tiles.le_hi (hp : p ∈ ps) : p.2 ≤ hi := by
  induction ps generalizing lo with
  | nil => cases hp
  | cons q ps ih =>
    obtain ⟨-, -, hps⟩ := h
    rcases List.mem_cons.mp hp with rfl | hp
    · exact hps.le
    · exact ih hps hp

theorem Tiles.pairwise : ps.Pairwise fun p q ↦ p.2 ≤ q.1 := by
  induction ps generalizing lo with
  | nil => exact .nil
  | cons p ps ih => exact .cons (fun q hq ↦ h.2.2.lo_le hq) (ih h.2.2)

theorem Tiles.exists_mem {k : K} (hk : k ∈ Set.Ico lo hi) : ∃ p ∈ ps, k ∈ Set.Ico p.1 p.2 := by
  induction ps generalizing lo with
  | nil =>
    cases h
    exact absurd hk.2 (not_lt.mpr hk.1)
  | cons p ps ih =>
    obtain ⟨rfl, -, hps⟩ := h
    rcases lt_or_ge k p.2 with hlt | hge
    · exact ⟨p, List.mem_cons_self, hk.1, hlt⟩
    · obtain ⟨q, hq, hkq⟩ := ih hps ⟨hge, hk.2⟩
      exact ⟨q, List.mem_cons_of_mem p hq, hkq⟩

end

end NeonStorage.Tiling
