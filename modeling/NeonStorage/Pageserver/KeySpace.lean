import NeonStorage.Lib.BinarySearch
import NeonStorage.Lib.RangeSet
import NeonStorage.Pageserver.Key
import Mathlib.Data.List.Sort
import Mathlib.Data.List.TakeWhile

/-!
# Key spaces

A key space is a list of ranges of keys, in order and without overlaps; ranges may touch.
`remove_overlapping_with` takes the keys of another key space away and returns them. For each range
of the other one it looks for the last range that overlaps, by binary search, and replaces it by
what is left of it, until none overlaps.
-/

namespace NeonStorage.Pageserver

open List
open RangeSet (Within within_append within_cons)

/-- The invariant of `KeySpace::ranges`. -/
structure IsKeySpace (ranges : List (Key × Key)) : Prop where
  nonempty : ∀ p ∈ ranges, p.1 < p.2
  sorted : ranges.Pairwise fun p q ↦ p.2 ≤ q.1

variable (ranges : List (Key × Key))

namespace KeySpaceRandomAccum

/-- The loop of `to_keyspace` over the ranges in order of their starts; `none` is its assertion. -/
def merge (start stop : Key) : List (Key × Key) → Option (List (Key × Key))
  | [] => some [(start, stop)]
  | r :: rs =>
    if r.1 < start then none
    else if stop < r.1 then (merge r.1 r.2 rs).map ((start, stop) :: ·)
    else if stop < r.2 then merge start r.2 rs
    else merge start stop rs

def toKeyspace : Option (List (Key × Key)) :=
  match ranges.insertionSort fun p q ↦ p.1 ≤ q.1 with
  | [] => some []
  | r :: rs => merge r.1 r.2 (r :: rs)

theorem merge_spec {start stop : Key} {rs : List (Key × Key)} (hlt : start < stop)
    (hne : ∀ r ∈ rs, r.1 < r.2) (hstart : ∀ r ∈ rs, start ≤ r.1)
    (hsorted : rs.Pairwise fun p q ↦ p.1 ≤ q.1) : ∃ out, merge start stop rs = some out ∧
      IsKeySpace out ∧ (∀ p ∈ out, start ≤ p.1) ∧
      ∀ k, Within out k ↔ start ≤ k ∧ k < stop ∨ Within rs k := by
  induction rs generalizing start stop with
  | nil =>
    exact ⟨_, rfl, ⟨by simpa using hlt, pairwise_singleton _ _⟩, by simp, fun k ↦ within_cons⟩
  | cons r rs ih =>
    obtain ⟨hr, hrs⟩ := forall_mem_cons.mp hstart
    obtain ⟨hfirst, hsorted⟩ := pairwise_cons.mp hsorted
    obtain ⟨hrlt, hne⟩ := forall_mem_cons.mp hne
    simp only [merge, if_neg hr.not_gt, within_cons]
    split_ifs with hgap hlonger
    · -- the range before the gap is finished, and all others begin behind it
      obtain ⟨out, hout, hks, hge, hmem⟩ := ih hrlt hne hfirst hsorted
      refine ⟨_, by rw [hout]; rfl, ⟨forall_mem_cons.mpr ⟨hlt, hks.nonempty⟩, ?_⟩, ?_, fun k ↦ ?_⟩
      · exact pairwise_cons.mpr ⟨fun p hp ↦ hgap.le.trans (hge p hp), hks.sorted⟩
      · exact forall_mem_cons.mpr ⟨le_rfl, fun p hp ↦ hr.trans (hge p hp)⟩
      · rw [within_cons, hmem]
    · obtain ⟨out, hout, hks, hge, hmem⟩ := ih (hlt.trans hlonger) hne hrs hsorted
      refine ⟨out, hout, hks, hge, fun k ↦ (hmem k).trans ?_⟩
      rw [← or_assoc]
      refine or_congr_left ⟨fun ⟨hk, hlt⟩ ↦ ?_, ?_⟩
      · rcases lt_or_ge k stop with hlt' | hge
        · exact .inl ⟨hk, hlt'⟩
        · exact .inr ⟨(not_lt.mp hgap).trans hge, hlt⟩
      · rintro (⟨hk, hlt⟩ | ⟨hk, hlt⟩)
        · exact ⟨hk, hlt.trans hlonger⟩
        · exact ⟨hr.trans hk, hlt⟩
    · obtain ⟨out, hout, hks, hge, hmem⟩ := ih hlt hne hrs hsorted
      refine ⟨out, hout, hks, hge, fun k ↦ (hmem k).trans ?_⟩
      rw [← or_assoc]
      refine or_congr_left ⟨.inl, ?_⟩
      rintro (hk | ⟨hk, hlt⟩)
      · exact hk
      · exact ⟨hr.trans hk, hlt.trans_le (not_lt.mp hlonger)⟩

/-- Non-empty ranges in any order, overlapping or not, become a key space of the same keys. -/
theorem toKeyspace_spec {ranges : List (Key × Key)} (hne : ∀ r ∈ ranges, r.1 < r.2) :
    ∃ out, toKeyspace ranges = some out ∧ IsKeySpace out ∧
      ∀ k, Within out k ↔ Within ranges k := by
  obtain ⟨sorted, hsort⟩ : ∃ sorted, ranges.insertionSort (fun p q ↦ p.1 ≤ q.1) = sorted := ⟨_, rfl⟩
  have hperm : sorted.Perm ranges := hsort ▸ perm_insertionSort _ _
  have hsorted : sorted.Pairwise fun p q ↦ p.1 ≤ q.1 := by
    have : IsTrans (Key × Key) fun p q ↦ p.1 ≤ q.1 := ⟨fun _ _ _ ↦ le_trans⟩
    exact hsort ▸ pairwise_insertionSort _ ranges
  have hwithin (k : Key) : Within sorted k ↔ Within ranges k := by simp only [Within, hperm.mem_iff]
  rw [toKeyspace, hsort]
  cases sorted with
  | nil => exact ⟨[], rfl, ⟨by simp, .nil⟩, hwithin⟩
  | cons r rs =>
    have hstart : ∀ q ∈ r :: rs, r.1 ≤ q.1 :=
      forall_mem_cons.mpr ⟨le_rfl, (pairwise_cons.mp hsorted).1⟩
    have hne' : ∀ q ∈ r :: rs, q.1 < q.2 := fun q hq ↦ hne q (hperm.mem_iff.mp hq)
    obtain ⟨out, hout, hks, -, hmem⟩ := merge_spec (hne' r mem_cons_self) hne' hstart hsorted
    refine ⟨out, hout, hks, fun k ↦ (hmem k).trans ?_⟩
    rw [← hwithin, within_cons, or_self_left]

end KeySpaceRandomAccum

namespace KeySpace

/-- `overlaps_at`. The search gives the same position whether it finds the end of the range or
not. -/
def overlapsAt (range : Key × Key) : Option ℕ :=
  let ord (i : ℕ) : Ordering := (ranges[i]?).elim .gt fun r ↦ cmp r.1 range.2
  match BinarySearch.search ord ranges.length 0 ranges.length with
  | .ok 0 | .error 0 => none
  | .ok (i + 1) | .error (i + 1) =>
    (ranges[i]?).bind fun r ↦ if range.1 < r.2 then some i else none

/-- What is left of an overlapped range, and what is removed of it. -/
def cut (overlapped range : Key × Key) : List (Key × Key) × (Key × Key) :=
  if overlapped.1 < range.1 ∧ overlapped.2 ≤ range.2 then
    ([(overlapped.1, range.1)], (range.1, overlapped.2))
  else if range.1 ≤ overlapped.1 ∧ range.2 < overlapped.2 then
    ([(range.2, overlapped.2)], (overlapped.1, range.2))
  else if overlapped.1 < range.1 ∧ range.2 < overlapped.2 then
    ([(overlapped.1, range.1), (range.2, overlapped.2)], range)
  else ([], overlapped)

/-- The inner loop of `remove_overlapping_with`, with what was removed so far. -/
def removeRange (range : Key × Key) : ℕ → List (Key × Key) → List (Key × Key) →
    Option (List (Key × Key) × List (Key × Key))
  | 0, _, _ => none
  | fuel + 1, ranges, removed =>
    match overlapsAt ranges range with
    | none => some (ranges, removed)
    | some i => (ranges[i]?).bind fun overlapped ↦
        removeRange range fuel
          (ranges.take i ++ ((cut overlapped range).1 ++ ranges.drop (i + 1)))
          (removed ++ [(cut overlapped range).2])

/-- `remove_overlapping_with`: what is left of the key space, and what was removed. -/
def removeOverlappingWith (fuel : ℕ) (ranges other : List (Key × Key)) :
    Option (List (Key × Key) × List (Key × Key)) :=
  match ranges.head?, ranges.getLast? with
  | some first, some last => do
    let otherRanges := (other.dropWhile fun r ↦ r.2 ≤ first.1).takeWhile fun r ↦ r.1 < last.2
    let (left, removed) ← otherRanges.foldlM
      (fun acc range ↦ removeRange range fuel acc.1 acc.2) (ranges, [])
    let removed ← KeySpaceRandomAccum.toKeyspace removed
    return (left, removed)
  | _, _ => some (ranges, [])

/-! ## One range -/

def Overlap (p q : Key × Key) : Prop := p.1 < q.2 ∧ q.1 < p.2
  deriving Decidable

section OneRange

variable {ranges xs left ys : List (Key × Key)} {o range : Key × Key}

theorem starts_sorted (h : IsKeySpace ranges) : ranges.Pairwise (·.1 < ·.1) := by
  refine h.sorted.imp_of_mem fun hp hq hle ↦ ?_
  exact (h.nonempty _ hp).trans_le hle

theorem overlapsAt_spec (h : IsKeySpace ranges) (range : Key × Key) :
    (overlapsAt ranges range = none ∧ ∀ p ∈ ranges, ¬ Overlap p range) ∨
    ∃ xs o ys, ranges = xs ++ o :: ys ∧ overlapsAt ranges range = some xs.length ∧
      Overlap o range := by
  obtain ⟨c, hc⟩ : ∃ c, ranges.countP (·.1 < range.2) = c := ⟨_, rfl⟩
  have hlen : c ≤ ranges.length := hc ▸ countP_le_length
  have hlt {i : ℕ} (hi : i < ranges.length) : i < c ↔ ranges[i].1 < range.2 :=
    hc ▸ BinarySearch.lt_countP_lt_iff (starts_sorted h) hi
  obtain ⟨ord, hord⟩ : ∃ ord : ℕ → Ordering,
      (fun i ↦ (ranges[i]?).elim .gt fun r ↦ cmp r.1 range.2) = ord := ⟨_, rfl⟩
  have hcmp : ∀ i (hi : i < ranges.length), ord i = cmp ranges[i].1 range.2 := by
    intro i hi
    rw [← hord]
    dsimp only
    rw [List.getElem?_eq_getElem hi, Option.elim_some]
  have hsearch := BinarySearch.search_sorted (starts_sorted h) hcmp
  have hat : overlapsAt ranges range = if c = 0 then none else
      (ranges[c - 1]?).bind fun r ↦ if range.1 < r.2 then some (c - 1) else none := by
    unfold overlapsAt
    dsimp only
    rw [hord, hsearch, hc]
    cases c with
    | zero =>
      rw [if_pos rfl]
      split_ifs <;> rfl
    | succ c =>
      rw [if_neg c.succ_ne_zero]
      split_ifs <;> rfl
  rcases Nat.eq_zero_or_pos c with hzero | hpos
  · refine .inl ⟨by rw [hat, if_pos hzero], fun p hp ⟨hstart, _⟩ ↦ ?_⟩
    obtain ⟨i, hi, rfl⟩ := mem_iff_getElem.mp hp
    have := (hlt hi).mpr hstart
    omega
  · have hi : c - 1 < ranges.length := by omega
    rw [if_neg hpos.ne', List.getElem?_eq_getElem hi, Option.bind_some] at hat
    by_cases hend : range.1 < ranges[c - 1].2
    · refine .inr ⟨ranges.take (c - 1), ranges[c - 1], ranges.drop (c - 1 + 1), ?_, ?_, ?_, hend⟩
      · rw [← drop_eq_getElem_cons hi, take_append_drop]
      · rw [hat, if_pos hend, length_take, Nat.min_eq_left hi.le]
      · exact (hlt hi).mp (by omega)
    · refine .inl ⟨by rw [hat, if_neg hend], fun p hp ⟨hstart, hstop⟩ ↦ ?_⟩
      obtain ⟨i, hi', rfl⟩ := mem_iff_getElem.mp hp
      have hic := (hlt hi').mpr hstart
      -- the ranges before the last one that starts early enough end even earlier
      rcases Nat.lt_or_ge i (c - 1) with hbefore | hsame
      · have hle := pairwise_iff_getElem.mp h.sorted i (c - 1) hi' hi hbefore
        exact hend (hstop.trans_le (hle.trans (h.nonempty _ (getElem_mem hi)).le))
      · obtain rfl : i = c - 1 := by omega
        exact hend hstop

/-- What is put in the place of a range may be any ranges inside it. -/
theorem splice (h : IsKeySpace (xs ++ o :: ys)) (hleft : IsKeySpace left)
    (hin : ∀ p ∈ left, o.1 ≤ p.1 ∧ p.2 ≤ o.2) : IsKeySpace (xs ++ (left ++ ys)) := by
  obtain ⟨hxs, hoys, hcross⟩ := pairwise_append.mp h.sorted
  obtain ⟨hoy, hys⟩ := pairwise_cons.mp hoys
  refine ⟨fun p hp ↦ ?_, ?_⟩
  · rcases mem_append.mp hp with hp | hp
    · exact h.nonempty p (mem_append_left _ hp)
    · rcases mem_append.mp hp with hp | hp
      · exact hleft.nonempty p hp
      · exact h.nonempty p (mem_append_right _ (mem_cons_of_mem o hp))
  · refine pairwise_append.mpr ⟨hxs, pairwise_append.mpr ⟨hleft.sorted, hys, ?_⟩, ?_⟩
    · exact fun p hp q hq ↦ (hin p hp).2.trans (hoy q hq)
    · intro p hp q hq
      rcases mem_append.mp hq with hq | hq
      · exact (hcross p hp o mem_cons_self).trans (hin q hq).1
      · exact hcross p hp q (mem_cons_of_mem o hq)

/-- What `cut` makes of a range that overlaps. -/
structure Cuts (o range : Key × Key) (left : List (Key × Key)) (removed : Key × Key) : Prop where
  keySpace : IsKeySpace left
  inside : ∀ p ∈ left, o.1 ≤ p.1 ∧ p.2 ≤ o.2
  not_overlap : ∀ p ∈ left, ¬ Overlap p range
  within_left : ∀ k, Within left k ↔ (o.1 ≤ k ∧ k < o.2) ∧ ¬ (range.1 ≤ k ∧ k < range.2)
  removed_lt : removed.1 < removed.2
  removed : ∀ k, removed.1 ≤ k ∧ k < removed.2 ↔ (o.1 ≤ k ∧ k < o.2) ∧ range.1 ≤ k ∧ k < range.2

theorem cut_spec (ho : o.1 < o.2) (hrange : range.1 < range.2) (hover : Overlap o range) :
    Cuts o range (cut o range).1 (cut o range).2 := by
  obtain ⟨c, d⟩ := range
  obtain ⟨had, hcb⟩ := hover
  unfold cut
  split_ifs with hhigh hlow hmiddle
  · constructor
    · exact ⟨by simpa using hhigh.1, by simp⟩
    · simp [hcb.le]
    · simp [Overlap]
    · simp [Within]
      grind
    · exact hcb
    · grind
  · constructor
    · exact ⟨by simpa using hlow.2, by simp⟩
    · simp [had.le]
    · simp [Overlap]
    · simp [Within]
      grind
    · exact had
    · grind
  · constructor
    · exact ⟨by simpa using hmiddle, by simpa using hrange.le⟩
    · simp [had.le, hcb.le]
    · simp [Overlap]
    · simp [Within]
      grind
    · exact hrange
    · grind
  · constructor
    · exact ⟨by simp, .nil⟩
    · simp
    · simp
    · simp [Within]
      grind
    · exact ho
    · grind

/-- The inner loop takes the keys of the range away, and adds them to what was removed. -/
theorem removeRange_spec (hrange : range.1 < range.2) (h : IsKeySpace ranges)
    {removed : List (Key × Key)} (hne : ∀ p ∈ removed, p.1 < p.2) :
    ∃ ranges' removed', (∀ fuel, ranges.countP (Overlap · range) < fuel →
        removeRange range fuel ranges removed = some (ranges', removed')) ∧
      IsKeySpace ranges' ∧ (∀ p ∈ removed', p.1 < p.2) ∧
      (∀ k, Within ranges' k ↔ Within ranges k ∧ ¬ (range.1 ≤ k ∧ k < range.2)) ∧
      ∀ k, Within removed' k ↔ Within removed k ∨ Within ranges k ∧ range.1 ≤ k ∧ k < range.2 := by
  -- each round leaves one range less that overlaps
  induction hn : ranges.countP (Overlap · range) using Nat.strong_induction_on
    generalizing ranges removed with
  | _ n ih =>
    obtain ⟨hat, hnone⟩ | ⟨xs, o, ys, rfl, hat, hover⟩ := overlapsAt_spec h range
    · have hdisj (k : Key) (hk : Within ranges k) : ¬ (range.1 ≤ k ∧ k < range.2) := by
        obtain ⟨p, hp, hpk, hkp⟩ := hk
        rintro ⟨hrk, hkr⟩
        exact hnone p hp ⟨hpk.trans_lt hkr, hrk.trans_lt hkp⟩
      refine ⟨ranges, removed, fun fuel hfuel ↦ ?_, h, hne, fun k ↦ ?_, fun k ↦ ?_⟩
      · obtain ⟨fuel, rfl⟩ := Nat.exists_eq_succ_of_ne_zero (Nat.ne_zero_of_lt hfuel)
        rw [removeRange, hat]
      · exact (and_iff_left_of_imp (hdisj k)).symm
      · exact (or_iff_left fun hk ↦ hdisj k hk.1 hk.2).symm
    · have hcut := cut_spec (h.nonempty o (by simp)) hrange hover
      have hne' : ∀ p ∈ removed ++ [(cut o range).2], p.1 < p.2 :=
        forall_mem_append.mpr ⟨hne, by simpa using hcut.removed_lt⟩
      have hspliced := splice h hcut.keySpace hcut.inside
      have hcount : (xs ++ ((cut o range).1 ++ ys)).countP (Overlap · range) + 1 = n := by
        have hleft : (cut o range).1.countP (Overlap · range) = 0 :=
          countP_eq_zero.mpr fun p hp ↦ by simpa using hcut.not_overlap p hp
        rw [countP_append, countP_cons_of_pos (by simpa using hover)] at hn
        rw [countP_append, countP_append]
        omega
      obtain ⟨ranges', removed', heq, hks, hremoved, hin, hout⟩ :=
        ih _ (Nat.lt_of_succ_le hcount.le) hspliced hne' rfl
      have hdrop : (xs ++ o :: ys).drop (xs.length + 1) = ys := by
        rw [← drop_drop, drop_left]
        rfl
      refine ⟨ranges', removed', fun fuel hfuel ↦ ?_, hks, hremoved, fun k ↦ (hin k).trans ?_,
        fun k ↦ (hout k).trans ?_⟩
      · obtain ⟨fuel, rfl⟩ := Nat.exists_eq_succ_of_ne_zero (Nat.ne_zero_of_lt hfuel)
        simp only [removeRange, hat, List.getElem?_append_right le_rfl, Nat.sub_self,
          List.getElem?_cons_zero, Option.bind_some, take_left, hdrop]
        exact heq fuel (by omega)
      · rw [within_append, within_append, within_append, within_cons, hcut.within_left]
        by_cases hk : range.1 ≤ k ∧ k < range.2
        · simp [hk]
        · simp [hk]
      · rw [within_append, within_append, within_append, within_append, within_cons, within_cons,
          hcut.within_left, hcut.removed]
        have hnil : ¬ Within [] k := by simp [Within]
        by_cases hk : range.1 ≤ k ∧ k < range.2
        · simp [hk, hnil, or_assoc, or_left_comm, or_comm]
        · simp [hk, hnil]

end OneRange

/-! ## All ranges -/

section AllRanges

variable {ranges other : List (Key × Key)}

theorem foldlM_removeRange_spec (hother : ∀ r ∈ other, r.1 < r.2) (h : IsKeySpace ranges)
    {removed : List (Key × Key)} (hne : ∀ p ∈ removed, p.1 < p.2) :
    ∃ n ranges' removed', (∀ fuel, n ≤ fuel →
        other.foldlM (fun acc range ↦ removeRange range fuel acc.1 acc.2) (ranges, removed) =
          some (ranges', removed')) ∧
      IsKeySpace ranges' ∧ (∀ p ∈ removed', p.1 < p.2) ∧
      (∀ k, Within ranges' k ↔ Within ranges k ∧ ¬ Within other k) ∧
      ∀ k, Within removed' k ↔ Within removed k ∨ Within ranges k ∧ Within other k := by
  induction other generalizing ranges removed with
  | nil => exact ⟨0, ranges, removed, fun _ _ ↦ rfl, h, hne, by simp [Within], by simp [Within]⟩
  | cons r other ih =>
    obtain ⟨hr, hother⟩ := forall_mem_cons.mp hother
    obtain ⟨ranges₁, removed₁, heq₁, hks₁, hne₁, hin₁, hout₁⟩ := removeRange_spec hr h hne
    obtain ⟨n, ranges₂, removed₂, heq₂, hks₂, hne₂, hin₂, hout₂⟩ := ih hother hks₁ hne₁
    refine ⟨max n (ranges.countP (Overlap · r) + 1), ranges₂, removed₂, fun fuel hfuel ↦ ?_, hks₂,
      hne₂, fun k ↦ ?_, fun k ↦ ?_⟩
    · rw [foldlM_cons, heq₁ fuel (by omega)]
      exact heq₂ fuel (by omega)
    · rw [hin₂, hin₁, within_cons, not_or, and_assoc]
    · rw [hout₂, hout₁, hin₁, within_cons]
      by_cases hk : r.1 ≤ k ∧ k < r.2
      · simp [hk]
      · simp [hk]

theorem mem_takeWhile_of_pairwise {α : Type} {p : α → Bool} {l : List α}
    (h : l.Pairwise fun a b ↦ p b → p a) {x : α} (hx : x ∈ l) (hp : p x) : x ∈ l.takeWhile p := by
  induction l with
  | nil => cases hx
  | cons a l ih =>
    obtain ⟨ha, hl⟩ := pairwise_cons.mp h
    rcases mem_cons.mp hx with rfl | hx
    · rw [takeWhile_cons_of_pos hp]
      exact mem_cons_self
    · rw [takeWhile_cons_of_pos (ha x hx hp)]
      exact mem_cons_of_mem a (ih hl hx)

theorem within_otherRanges (h : IsKeySpace ranges) (hother : IsKeySpace other)
    {first last : Key × Key}
    (hfirst : ranges.head? = some first) (hlast : ranges.getLast? = some last) {k : Key}
    (hk : Within ranges k) :
    Within ((other.dropWhile fun r ↦ r.2 ≤ first.1).takeWhile fun r ↦ r.1 < last.2) k ↔
      Within other k := by
  obtain ⟨p, hp, hpk, hkp⟩ := hk
  have hge : first.1 ≤ k := by
    cases ranges with
    | nil => cases hp
    | cons q qs =>
      cases hfirst
      rcases mem_cons.mp hp with rfl | hp
      · exact hpk
      · exact ((pairwise_cons.mp (starts_sorted h)).1 p hp).le.trans hpk
  have hlt : k < last.2 := by
    obtain ⟨front, rfl⟩ := List.getLast?_eq_some_iff.mp hlast
    rcases mem_append.mp hp with hp | hp
    · have hle := (pairwise_append.mp h.sorted).2.2 p hp last (mem_singleton_self last)
      have hlast := h.nonempty last (mem_append_right _ (mem_singleton_self last))
      exact hkp.trans_le (hle.trans hlast.le)
    · rw [mem_singleton.mp hp] at hkp
      exact hkp
  constructor
  · rintro ⟨q, hq, hqk⟩
    exact ⟨q, (dropWhile_suffix _).mem (( takeWhile_prefix _).mem hq), hqk⟩
  · rintro ⟨q, hq, hqk, hkq⟩
    have hdrop : q ∈ other.dropWhile fun r ↦ r.2 ≤ first.1 := by
      rw [← takeWhile_append_dropWhile (l := other), mem_append] at hq
      refine hq.resolve_left fun hq ↦ ?_
      have hle := mem_takeWhile_imp hq
      exact (hge.trans_lt hkq).not_ge (of_decide_eq_true hle)
    have hstarts := (starts_sorted hother).sublist
      (dropWhile_suffix fun r ↦ decide (r.2 ≤ first.1)).sublist
    have hdown := BinarySearch.down_lt last.2 hstarts
    exact ⟨q, mem_takeWhile_of_pairwise hdown hdrop (decide_eq_true (hqk.trans_lt hlt)), hqk, hkq⟩

/-- **`remove_overlapping_with` takes the common keys away and returns them**, both as key
spaces. -/
theorem removeOverlappingWith_spec (h : IsKeySpace ranges) (hother : IsKeySpace other) :
    ∃ n left removed, (∀ fuel, n ≤ fuel →
        removeOverlappingWith fuel ranges other = some (left, removed)) ∧
      IsKeySpace left ∧ (∀ k, Within left k ↔ Within ranges k ∧ ¬ Within other k) ∧
      IsKeySpace removed ∧ ∀ k, Within removed k ↔ Within ranges k ∧ Within other k := by
  rcases hfirst : ranges.head? with - | first
  · obtain rfl := List.head?_eq_none_iff.mp hfirst
    exact ⟨0, [], [], fun _ _ ↦ rfl, h, by simp [Within], h, by simp [Within]⟩
  · obtain ⟨last, hlast⟩ : ∃ last, ranges.getLast? = some last := by
      cases hlast : ranges.getLast? with
      | none => simp [List.getLast?_eq_none_iff.mp hlast] at hfirst
      | some last => exact ⟨last, rfl⟩
    have hne : ∀ r ∈ (other.dropWhile fun r ↦ r.2 ≤ first.1).takeWhile fun r ↦ r.1 < last.2,
        r.1 < r.2 := fun r hr ↦
      hother.nonempty r ((dropWhile_suffix _).mem (( takeWhile_prefix _).mem hr))
    obtain ⟨n, left, removed, heq, hks, hremoved, hin, hout⟩ :=
      foldlM_removeRange_spec hne h (forall_mem_nil _)
    obtain ⟨out, hkeyspace, hks', hmem⟩ := KeySpaceRandomAccum.toKeyspace_spec hremoved
    have hiff {k : Key} := within_otherRanges h hother hfirst hlast (k := k)
    refine ⟨n, left, out, fun fuel hfuel ↦ ?_, hks, fun k ↦ (hin k).trans ?_, hks', fun k ↦ ?_⟩
    · simp only [removeOverlappingWith, hfirst, hlast, heq fuel hfuel, Option.bind_eq_bind,
        Option.bind_some, hkeyspace]
      rfl
    · exact and_congr_right fun hk ↦ not_congr (hiff hk)
    · rw [hmem, hout, or_iff_right (by simp [Within])]
      exact and_congr_right hiff

/-- Two ranges, of which one is split and one is cut; both parts are returned. -/
theorem removeOverlappingWith_spec_split :
    ∃ n left removed, (∀ fuel, n ≤ fuel → removeOverlappingWith fuel
        [(⟨0, 0, 0, 0, 0, 0⟩, ⟨0, 0, 0, 0, 0, 9⟩), (⟨0, 0, 0, 0, 1, 0⟩, ⟨0, 0, 0, 0, 1, 5⟩)]
        [(⟨0, 0, 0, 0, 0, 3⟩, ⟨0, 0, 0, 0, 0, 5⟩), (⟨0, 0, 0, 0, 0, 7⟩, ⟨0, 0, 0, 0, 1, 2⟩)] =
          some (left, removed)) ∧ IsKeySpace left ∧ IsKeySpace removed ∧
      Within left ⟨0, 0, 0, 0, 0, 6⟩ ∧ Within removed ⟨0, 0, 0, 0, 1, 1⟩ := by
  have h : IsKeySpace [(⟨0, 0, 0, 0, 0, 0⟩, ⟨0, 0, 0, 0, 0, 9⟩),
      (⟨0, 0, 0, 0, 1, 0⟩, ⟨0, 0, 0, 0, 1, 5⟩)] := ⟨by decide, by decide⟩
  have hother : IsKeySpace [(⟨0, 0, 0, 0, 0, 3⟩, ⟨0, 0, 0, 0, 0, 5⟩),
      (⟨0, 0, 0, 0, 0, 7⟩, ⟨0, 0, 0, 0, 1, 2⟩)] := ⟨by decide, by decide⟩
  obtain ⟨n, left, removed, heq, hks, hin, hks', hout⟩ := removeOverlappingWith_spec h hother
  refine ⟨n, left, removed, heq, hks, hks', (hin _).mpr ?_, (hout _).mpr ?_⟩
  · simp only [Within]
    decide
  · simp only [Within]
    decide

theorem isKeySpace_singleton {r : Key × Key} (h : r.1 < r.2) : IsKeySpace [r] :=
  ⟨by simpa using h, pairwise_singleton _ r⟩

end AllRanges

end KeySpace

end NeonStorage.Pageserver
