import Mathlib.Order.Interval.Set.Disjoint
import NeonStorage.Lib.Tiling
import NeonStorage.Pageserver.Layer
import Mathlib.Data.List.Pairwise
import Mathlib.Data.List.Sort
import Mathlib.Order.CompletePartialOrder

/-!
# Splitting a compaction job

`gc_compaction_split_jobs` cuts a job of the bottom-most compaction into jobs of limited size. It
walks over the ranges of the key partitioning, cut to the requested key range and sorted, and ends
a job when the layers that overlap it exceed the size limit, or with the last range. The end of a
job is moved up to the next layer boundary, so that ranges further on may already be covered, and
a stretch without layers is given to the job before it.

Whatever the sizes, the jobs tile one interval that begins with the first range and reaches beyond
the last one (`tiles_splitRanges`).
-/

namespace NeonStorage.Pageserver.SplitJobs

open List
open Tiling

/-- `GcCompactJob`; the ranges are half-open. -/
structure GcCompactJob where
  dryRun : Bool
  compactKeyRange : Key × Key
  compactLsnRange : ℕ × ℕ
  doMetadataCompaction : Bool
  deriving DecidableEq

/-- What the function reads of a layer in the layer map. -/
structure SizedLayer extends Rect where
  fileSize : UInt64
  deriving DecidableEq

/-- The ranges of the key partitioning: the parts of the dense and of the sparse key space. -/
structure KeyPartitioning where
  dense : List (List (Key × Key))
  sparse : List (List (Key × Key))
  deriving DecidableEq

/-- `Lsn::MAX`, which stands for an upper bound that was not given. -/
def maxLsn : ℕ := 2 ^ 64 - 1

def KeyPartitioning.ranges (p : KeyPartitioning) : List (Key × Key) :=
  p.dense.flatten ++ p.sparse.flatten

def overlapsWith (a b : Key × Key) : Bool := !(a.2 ≤ b.1 || b.2 ≤ a.1)

/-- Truncate the key range to be within the requested range. -/
def truncateTo (source target : Key × Key) : Option (Key × Key) :=
  let start := max source.1 target.1
  let stop := min source.2 target.2
  if start < stop then some (start, stop) else none

def splitKeyRanges (p : KeyPartitioning) (job : GcCompactJob) : List (Key × Key) :=
  (p.ranges.filterMap (truncateTo · job.compactKeyRange)).insertionSort (toLex · ≤ toLex ·)

section Loop

variable (job : GcCompactJob) (compactBelowLsn : ℕ) (maxJobSizeMb : UInt64)
  (layers : List SizedLayer) (rangesNum : ℕ)

def overlappingLayers (range : Key × Key) : List SizedLayer :=
  layers.filter fun l ↦ overlapsWith (l.keyStart, l.keyEnd) range ∧ l.lsnStart ≤ compactBelowLsn

/-- `total_size`; the sum of the sizes wraps. -/
def totalSize (ls : List SizedLayer) : UInt64 := ls.foldl (fun n l ↦ n + l.fileSize) 0

/-- The end of the job that is closed at the end `stop` of a range: it includes at least one full
layer, and it goes to the end of the requested range with the last range. -/
def extendedEnd (ls : List SizedLayer) (stop : Key) (last : Bool) : Key :=
  let stop := match (ls.map (·.keyEnd)).min? with
    | some e => max e stop
    | none => stop
  if last then max stop job.compactKeyRange.2 else stop

/-- `compact_jobs.last_mut().unwrap().compact_key_range.end = end`. -/
def widenLast (jobs : List GcCompactJob) (stop : Key) : List GcCompactJob :=
  match jobs.getLast? with
  | some j => jobs.dropLast ++ [{ j with compactKeyRange := (j.compactKeyRange.1, stop) }]
  | none => jobs

/-- One round of the loop: `current_start` and the jobs so far, and a range with its index. -/
def splitStep (st : Option Key × List GcCompactJob) (r : (Key × Key) × ℕ) :
    Option Key × List GcCompactJob :=
  let start := st.1.getD r.1.1
  let stop := r.1.2
  -- we have already processed this partition
  if stop ≤ start then (some start, st.2)
  else
    let overlapping := overlappingLayers compactBelowLsn layers (start, stop)
    let size := totalSize overlapping
    let last : Bool := rangesNum = r.2 + 1
    if size > maxJobSizeMb * 1024 * 1024 ∨ last then
      let stop := extendedEnd job overlapping stop last
      if size = 0 ∧ st.2 ≠ [] then (some stop, widenLast st.2 stop)
      else (some stop, st.2 ++ [
        { dryRun := job.dryRun
          compactKeyRange := (start, stop)
          compactLsnRange := (job.compactLsnRange.1, compactBelowLsn)
          doMetadataCompaction := false }])
    else (some start, st.2)

/-- The loop over the sorted ranges. -/
def splitRanges (ranges : List (Key × Key)) : List GcCompactJob :=
  (ranges.zipIdx.foldl (splitStep job compactBelowLsn maxJobSizeMb layers ranges.length)
    (none, [])).2

end Loop

/-- `compact_below_lsn`: the upper bound that was asked for, or else the gc watermark. -/
def compactBelow (watermark : ℕ) (job : GcCompactJob) : ℕ :=
  if job.compactLsnRange.2 ≠ maxLsn then job.compactLsnRange.2 else watermark

/-- `Timeline::gc_compaction_split_jobs`; `watermark` is the gc watermark of the timeline. -/
def gcCompactionSplitJobs (watermark : ℕ) (p : KeyPartitioning) (layers : List SizedLayer)
    (job : GcCompactJob) (subCompactionMaxJobSizeMb : Option UInt64) : List GcCompactJob :=
  let compactBelowLsn := compactBelow watermark job
  -- gc_cutoff not generated yet
  if compactBelowLsn = 0 then []
  else splitRanges job compactBelowLsn (subCompactionMaxJobSizeMb.getD (4 * 1024)) layers
    (splitKeyRanges p job)

/-! ### The loop keeps a tiling -/

variable {lo : Key} {r : Key × Key} {rs : List (Key × Key)}

section Loop

variable {job : GcCompactJob} {compactBelowLsn : ℕ} {maxJobSizeMb : UInt64}
  {layers : List SizedLayer} {rangesNum : ℕ}

def JobsTile (lo hi : Key) (jobs : List GcCompactJob) : Prop :=
  Tiles lo hi (jobs.map (·.compactKeyRange))

theorem le_extendedEnd (ls : List SizedLayer) (stop : Key) (last : Bool) :
    stop ≤ extendedEnd job ls stop last := by
  unfold extendedEnd
  split <;> split_ifs <;> simp

theorem JobsTile.widenLast {mid hi : Key} {jobs : List GcCompactJob} (h : JobsTile lo mid jobs)
    (hne : jobs ≠ []) (hle : mid ≤ hi) : JobsTile lo hi (widenLast jobs hi) := by
  obtain ⟨js, j, rfl⟩ := (eq_nil_or_concat' jobs).resolve_left hne
  rw [JobsTile, map_append, map_singleton] at h
  simpa [JobsTile, SplitJobs.widenLast] using h.widen hle

variable (job compactBelowLsn maxJobSizeMb layers rangesNum)

theorem splitStep_spec {st : Option Key × List GcCompactJob} {r : (Key × Key) × ℕ}
    (h : JobsTile lo (st.1.getD r.1.1) st.2) :
    ∃ hi, (splitStep job compactBelowLsn maxJobSizeMb layers rangesNum st r).1 = some hi ∧
      JobsTile lo hi (splitStep job compactBelowLsn maxJobSizeMb layers rangesNum st r).2 ∧
      (rangesNum = r.2 + 1 → r.1.2 ≤ hi) := by
  unfold splitStep
  dsimp only
  split_ifs with hdone hclose hwiden
  · exact ⟨_, rfl, h, fun _ ↦ hdone⟩
  · have hlt := lt_of_not_ge hdone
    exact ⟨_, rfl, h.widenLast hwiden.2 (hlt.le.trans (le_extendedEnd _ _ _)),
      fun _ ↦ le_extendedEnd _ _ _⟩
  · have hlt := lt_of_not_ge hdone
    refine ⟨_, rfl, ?_, fun _ ↦ le_extendedEnd _ _ _⟩
    rw [JobsTile, map_append]
    exact Tiles.push h (hlt.trans_le (le_extendedEnd _ _ _))
  · refine ⟨_, rfl, h, fun hlast ↦ ?_⟩
    simp [hlast] at hclose

/-- The rounds from a range on: the tiling ends beyond the last range. -/
theorem foldl_splitStep_spec (st : Option Key × List GcCompactJob) {i : ℕ}
    (h : JobsTile lo (st.1.getD r.1) st.2) (hnum : rangesNum = i + (r :: rs).length) :
    ∃ hi, JobsTile lo hi (((r :: rs).zipIdx i).foldl
        (splitStep job compactBelowLsn maxJobSizeMb layers rangesNum) st).2 ∧
      ((r :: rs).getLast (cons_ne_nil r rs)).2 ≤ hi := by
  induction rs generalizing r i st with
  | nil =>
    obtain ⟨hi, -, htile, hlast⟩ :=
      splitStep_spec job compactBelowLsn maxJobSizeMb layers rangesNum (r := (r, i)) h
    exact ⟨hi, htile, hlast hnum⟩
  | cons r' rs ih =>
    obtain ⟨hi, hcur, htile, -⟩ :=
      splitStep_spec job compactBelowLsn maxJobSizeMb layers rangesNum (r := (r, i)) h
    refine ih _ ?_ (by rw [hnum, length_cons]; omega)
    rwa [hcur]

theorem tiles_splitRanges (hne : rs ≠ []) (hsorted : rs.Pairwise fun a b ↦ a.1 ≤ b.1 ∧ a.2 ≤ b.2) :
    ∃ lo hi, JobsTile lo hi (splitRanges job compactBelowLsn maxJobSizeMb layers rs) ∧
      ∀ r ∈ rs, lo ≤ r.1 ∧ r.2 ≤ hi := by
  obtain ⟨r, rs, rfl⟩ := exists_cons_of_ne_nil hne
  have hempty : JobsTile r.1 r.1 [] := rfl
  obtain ⟨hi, htile, hlast⟩ := foldl_splitStep_spec job compactBelowLsn maxJobSizeMb layers
    (r :: rs).length (none, []) hempty (Nat.zero_add (r :: rs).length).symm
  refine ⟨r.1, hi, htile, fun q hq ↦ ⟨?_, le_trans ?_ hlast⟩⟩
  · rcases mem_cons.mp hq with rfl | hq
    · exact le_rfl
    · exact ((pairwise_cons.mp hsorted).1 q hq).1
  · exact (hsorted.imp And.right).rel_getLast hq

end Loop

theorem ends_sorted (hlt : ∀ r ∈ rs, r.1 < r.2) (hsorted : rs.Pairwise (toLex · ≤ toLex ·))
    (hdisjoint : rs.Pairwise fun a b ↦ Disjoint (Set.Ico a.1 a.2) (Set.Ico b.1 b.2)) :
    rs.Pairwise fun a b ↦ a.1 ≤ b.1 ∧ a.2 ≤ b.2 := by
  refine (hsorted.and hdisjoint).imp_of_mem fun {a b} ha hb h ↦ ?_
  have hstart : a.1 ≤ b.1 := by
    rcases Prod.Lex.le_iff.mp h.1 with h | h
    · exact h.le
    · exact h.1.le
  refine ⟨hstart, ?_⟩
  -- otherwise the start of `b` is in both ranges
  by_contra hlt'
  exact Set.disjoint_left.mp h.2 ⟨hstart, (hlt b hb).trans (lt_of_not_ge hlt')⟩
    ⟨le_rfl, hlt b hb⟩

variable {source target : Key × Key}

theorem truncateTo_eq_some (h : truncateTo source target = some r) :
    r = (max source.1 target.1, min source.2 target.2) ∧ r.1 < r.2 := by
  unfold truncateTo at h
  dsimp only at h
  split_ifs at h with hlt
  cases h
  exact ⟨rfl, hlt⟩

theorem exists_truncateTo {k : Key} (hs : k ∈ Set.Ico source.1 source.2)
    (ht : k ∈ Set.Ico target.1 target.2) :
    ∃ r, truncateTo source target = some r ∧ k ∈ Set.Ico r.1 r.2 := by
  have hk : k ∈ Set.Ico (max source.1 target.1) (min source.2 target.2) :=
    ⟨max_le hs.1 ht.1, lt_min hs.2 ht.2⟩
  exact ⟨_, if_pos (hk.1.trans_lt hk.2), hk⟩

variable {p : KeyPartitioning}

theorem mem_splitKeyRanges {job : GcCompactJob} : r ∈ splitKeyRanges p job ↔ ∃ source ∈ p.ranges,
      truncateTo source job.compactKeyRange = some r := by
  rw [splitKeyRanges, mem_insertionSort, mem_filterMap]

theorem splitKeyRanges_pairwise (job : GcCompactJob)
    (hdisjoint : p.ranges.Pairwise fun a b ↦ Disjoint (Set.Ico a.1 a.2) (Set.Ico b.1 b.2)) :
    (splitKeyRanges p job).Pairwise fun a b ↦ a.1 ≤ b.1 ∧ a.2 ≤ b.2 := by
  refine ends_sorted (fun r hr ↦ ?_) (pairwise_insertionSort _ _) ?_
  · obtain ⟨source, -, h⟩ := mem_splitKeyRanges.mp hr
    exact (truncateTo_eq_some h).2
  · refine ((perm_insertionSort _ _).pairwise_iff fun h ↦ h.symm).mpr ?_
    refine List.Pairwise.filterMap _ (fun a b hab a' ha b' hb ↦ ?_) hdisjoint
    rw [(truncateTo_eq_some ha).1, (truncateTo_eq_some hb).1]
    exact hab.mono (Set.Ico_subset_Ico (le_max_left _ _) (min_le_left _ _))
      (Set.Ico_subset_Ico (le_max_left _ _) (min_le_left _ _))

/-! ### The jobs -/

theorem JobsTile.eq_of_mem {hi k : Key} {jobs : List GcCompactJob} (h : JobsTile lo hi jobs)
    {a b : GcCompactJob} (ha : a ∈ jobs) (hb : b ∈ jobs)
    (hka : k ∈ Set.Ico a.compactKeyRange.1 a.compactKeyRange.2)
    (hkb : k ∈ Set.Ico b.compactKeyRange.1 b.compactKeyRange.2) : a = b := by
  have hpair : jobs.Pairwise fun a b ↦ ¬ (k ∈ Set.Ico a.compactKeyRange.1 a.compactKeyRange.2 ∧
      k ∈ Set.Ico b.compactKeyRange.1 b.compactKeyRange.2) :=
    (pairwise_map.mp (Tiles.pairwise h)).imp fun hle hk ↦
      absurd (hk.1.2.trans_le (hle.trans hk.2.1)) (lt_irrefl k)
  have : Std.Symm fun a b : GcCompactJob ↦
      ¬ (k ∈ Set.Ico a.compactKeyRange.1 a.compactKeyRange.2 ∧
        k ∈ Set.Ico b.compactKeyRange.1 b.compactKeyRange.2) := ⟨fun _ _ h hk ↦ h hk.symm⟩
  by_contra hne
  exact hpair.forall ha hb hne ⟨hka, hkb⟩

/-- Once there is an LSN to compact below, the jobs have non-empty key ranges in increasing order
that do not overlap, and each key of the partitioning in the requested range is in exactly one of
them. -/
theorem gcCompactionSplitJobs_tile (watermark : ℕ) (p : KeyPartitioning) (layers : List SizedLayer)
    (job : GcCompactJob) (limit : Option UInt64) (hlsn : compactBelow watermark job ≠ 0)
    (hdisjoint : p.ranges.Pairwise fun a b ↦ Disjoint (Set.Ico a.1 a.2) (Set.Ico b.1 b.2)) :
    (∀ j ∈ gcCompactionSplitJobs watermark p layers job limit,
        j.compactKeyRange.1 < j.compactKeyRange.2) ∧
      (gcCompactionSplitJobs watermark p layers job limit).Pairwise
        (fun a b ↦ a.compactKeyRange.2 ≤ b.compactKeyRange.1) ∧
      ∀ k ∈ Set.Ico job.compactKeyRange.1 job.compactKeyRange.2,
        (∃ r ∈ p.ranges, k ∈ Set.Ico r.1 r.2) →
          ∃! j, j ∈ gcCompactionSplitJobs watermark p layers job limit ∧
            k ∈ Set.Ico j.compactKeyRange.1 j.compactKeyRange.2 := by
  have hjobs : gcCompactionSplitJobs watermark p layers job limit =
      splitRanges job (compactBelow watermark job) (limit.getD (4 * 1024)) layers
        (splitKeyRanges p job) := if_neg hlsn
  rw [hjobs]
  rcases eq_or_ne (splitKeyRanges p job) [] with hnil | hne
  · -- no key is in the partitioning and in the requested range
    rw [hnil]
    refine ⟨fun j hj ↦ (not_mem_nil hj).elim, .nil, fun k hk ⟨source, hsource, hks⟩ ↦ ?_⟩
    obtain ⟨r, hr, -⟩ := exists_truncateTo hks hk
    have hmem := mem_splitKeyRanges.mpr ⟨source, hsource, hr⟩
    rw [hnil] at hmem
    cases hmem
  · obtain ⟨lo, hi, htile, hall⟩ := tiles_splitRanges job (compactBelow watermark job)
      (limit.getD (4 * 1024)) layers hne (splitKeyRanges_pairwise job hdisjoint)
    refine ⟨fun j hj ↦ Tiles.nonempty htile (mem_map_of_mem hj),
      pairwise_map.mp (Tiles.pairwise htile), fun k hk ⟨source, hsource, hks⟩ ↦ ?_⟩
    obtain ⟨r, hr, hkr⟩ := exists_truncateTo hks hk
    obtain ⟨hlo, hhi⟩ := hall r (mem_splitKeyRanges.mpr ⟨source, hsource, hr⟩)
    obtain ⟨_, hq, hkq⟩ := Tiles.exists_mem htile ⟨hlo.trans hkr.1, hkr.2.trans_le hhi⟩
    obtain ⟨j, hj, rfl⟩ := mem_map.mp hq
    exact ⟨j, ⟨hj, hkq⟩, fun j' hj' ↦ htile.eq_of_mem hj'.1 hj hj'.2 hkq⟩

def blockKey (n : UInt32) : Key := ⟨0, 0, 0, 0, 0, n⟩

/-- Two ranges of ten keys, all of them requested, with the LSN range left open. -/
def twoRanges : KeyPartitioning :=
  ⟨[[(blockKey 0, blockKey 10)], [(blockKey 20, blockKey 30)]], []⟩

def twoRangesJob : GcCompactJob := ⟨false, (blockKey 0, blockKey 30), (0, maxLsn), false⟩

def twoRangesLayers : List SizedLayer :=
  [⟨⟨blockKey 0, blockKey 12, 1, 50⟩, 2097152⟩, ⟨⟨blockKey 15, blockKey 30, 1, 50⟩, 2097152⟩]

theorem twoRanges_disjoint :
    twoRanges.ranges.Pairwise fun a b ↦ Disjoint (Set.Ico a.1 a.2) (Set.Ico b.1 b.2) :=
  pairwise_pair.mpr (Set.Ico_disjoint_Ico.mpr (by decide))

/-- The first job goes to the end of a layer, and the second one on from there. -/
theorem gcCompactionSplitJobs_tile_twoRanges :
    (gcCompactionSplitJobs 100 twoRanges twoRangesLayers twoRangesJob (some 1)).map
        (·.compactKeyRange) = [(blockKey 0, blockKey 12), (blockKey 12, blockKey 30)] ∧
      ∃! j, j ∈ gcCompactionSplitJobs 100 twoRanges twoRangesLayers twoRangesJob (some 1) ∧
        blockKey 23 ∈ Set.Ico j.compactKeyRange.1 j.compactKeyRange.2 :=
  ⟨by decide, (gcCompactionSplitJobs_tile 100 twoRanges twoRangesLayers twoRangesJob (some 1)
    (by decide) twoRanges_disjoint).2.2 _ ⟨by decide, by decide⟩
    ⟨_, mem_cons_of_mem _ mem_cons_self, by decide, by decide⟩⟩

/-- Before the first gc cutoff there are no jobs, although there are keys to compact. -/
theorem gcCompactionSplitJobs_no_cutoff :
    (twoRanges.ranges.Pairwise fun a b ↦ Disjoint (Set.Ico a.1 a.2) (Set.Ico b.1 b.2)) ∧
      blockKey 3 ∈ Set.Ico twoRangesJob.compactKeyRange.1 twoRangesJob.compactKeyRange.2 ∧
      (∃ r ∈ twoRanges.ranges, blockKey 3 ∈ Set.Ico r.1 r.2) ∧
      ¬ ∃ j ∈ gcCompactionSplitJobs 0 twoRanges [] twoRangesJob none,
        blockKey 3 ∈ Set.Ico j.compactKeyRange.1 j.compactKeyRange.2 := by
  refine ⟨twoRanges_disjoint, ⟨by decide, by decide⟩, ⟨_, mem_cons_self, by decide, by decide⟩, ?_⟩
  rintro ⟨j, hj, -⟩
  cases hj

end NeonStorage.Pageserver.SplitJobs
