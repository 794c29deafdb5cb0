import NeonStorage.Pageserver.LayerMap.RangeSearch

/-!
# The image consistent LSN

`compute_image_consistent_lsn` finds an LSN below which every page version of a delta layer is also
in an image layer. The key space is divided into stretches with the same latest image layer, which
are kept in a map by their end keys. Each delta layer that ends above the image of a stretch it
overlaps lowers the bound of the stretch to its start.

The result is sound if some layer begins at or below the disk consistent LSN, or if there is no L0
layer (`le_image_of_lt_computeImageConsistentLsn`). Otherwise there are no stretches at all, and
only the L0 layers are taken into account (`computeImageConsistentLsn_no_version`).
-/

namespace NeonStorage.Pageserver.Indexed

open List Key SortedMap
open Coverage
open Staircase (follow)

/-- The loop of `image_coverage`: the stretches from the current key on. -/
def stretches (stop : ℤ) : ℤ → Option PersistentLayerDesc → List Change →
    List ((Key × Key) × Option PersistentLayerDesc)
  | currentKey, currentVal, [] => [((fromI128 currentKey, fromI128 stop), currentVal)]
  | currentKey, currentVal, (changeKey, changeVal) :: changes =>
    ((fromI128 currentKey, fromI128 changeKey), currentVal) ::
      stretches stop changeKey changeVal changes

structure ImageLayerInfo where
  imageLsn : ℕ
  minDeltaLsn : ℕ
  deriving DecidableEq

/-- One delta layer in step 2: it lowers the bounds of the stretches it overlaps. -/
def lowerBounds (imageMap : SortedMap Key ImageLayerInfo) (layer : PersistentLayerDesc) :
    SortedMap Key ImageLayerInfo :=
  if layer.isDelta then
    imageMap.updateRange layer.keyStart max fun imgEndKey imgInfo ↦
      (if layer.lsnEnd > imgInfo.imageLsn then
          { imgInfo with minDeltaLsn := min imgInfo.minDeltaLsn layer.lsnStart }
        else imgInfo,
        !decide (imgEndKey ≥ layer.keyEnd))
  else imageMap

namespace LayerMap

variable (m : LayerMap)

/-- `LayerMap::image_coverage`; no result is the failed assertion of `to_i128`. -/
def imageCoverage (keyRange : Key × Key) (lsn : ℕ) :
    Option (List ((Key × Key) × Option PersistentLayerDesc)) :=
  match m.getVersion lsn with
  | none => some []
  | some version =>
    if keyRange.1.isI128Representable && keyRange.2.isI128Representable then
      let start := keyRange.1.toI128
      let stop := keyRange.2.toI128
      some (stretches stop start (version.imageCoverage.query start)
        (version.imageCoverage.range start stop))
    else none

def isL0 (l : PersistentLayerDesc) : Bool :=
  l.isDelta && decide ((l.keyStart, l.keyEnd) = (min, max))

def level0Deltas : List PersistentLayerDesc := m.iterHistoricLayers.filter isL0

def minL0DeltasLsn (diskConsistentLsn : ℕ) : ℕ :=
  ((m.level0Deltas.map (·.lsnStart)).min?).getD diskConsistentLsn

/-- Step 1: the stretches by their end keys. -/
def imageMap (minL0 : ℕ) (coverage : List ((Key × Key) × Option PersistentLayerDesc)) :
    SortedMap Key ImageLayerInfo :=
  empty.insertAll (coverage.map fun s ↦ (s.1.2, ⟨(s.2.map (·.lsnEnd)).getD 0, minL0⟩))

/-- `LayerMap::compute_image_consistent_lsn`; no result is a panic. -/
def computeImageConsistentLsn (diskConsistentLsn : ℕ) : Option ℕ := do
  let minL0 := m.minL0DeltasLsn diskConsistentLsn
  let coverage ← m.imageCoverage (min, max) diskConsistentLsn
  let imageMap := m.iterHistoricLayers.foldl lowerBounds (imageMap minL0 coverage)
  if minL0 = 0 then none
  else
    some (imageMap.entries.foldl
      (fun lsn e ↦ min lsn (max e.2.imageLsn (e.2.minDeltaLsn - 1))) (minL0 - 1))

end LayerMap

/-! ### The stretches -/

section Stretches

variable {stop current x : ℤ} {val : Option PersistentLayerDesc} {changes : List Change}

def stretchEnds (stop : ℤ) (changes : List Change) : List ℤ := changes.map Prod.fst ++ [stop]

theorem map_end_stretches :
    (stretches stop current val changes).map (·.1.2) = (stretchEnds stop changes).map fromI128 := by
  induction changes generalizing current val with
  | nil => rfl
  | cons c changes ih =>
    rw [stretches, map_cons, ih]
    rfl

theorem stretchEnds_sorted (hs : changes.Pairwise (·.1 < ·.1)) (hstop : ∀ c ∈ changes, c.1 < stop) :
    (stretchEnds stop changes).Pairwise (· < ·) := by
  refine pairwise_append.mpr ⟨pairwise_map.mpr hs, pairwise_singleton _ _, ?_⟩
  intro y hy z hz
  obtain ⟨c, hc, rfl⟩ := mem_map.mp hy
  rw [mem_singleton.mp hz]
  exact hstop c hc

/-- Each packed key is in a stretch with its latest layer, and no other stretch ends in this one. -/
theorem exists_stretch (val : Option PersistentLayerDesc) (hs : changes.Pairwise (·.1 < ·.1))
    (hstop : ∀ c ∈ changes, c.1 < stop)
    (hge : ∀ c ∈ changes, current ≤ c.1) (hcurrent : current ≤ x) (hx : x < stop) :
    ∃ lo hi, ((fromI128 lo, fromI128 hi), follow val changes x) ∈
        stretches stop current val changes ∧
      current ≤ lo ∧ lo ≤ x ∧ x < hi ∧ hi ∈ stretchEnds stop changes ∧
      ∀ z ∈ stretchEnds stop changes, z < hi → z ≤ lo := by
  induction changes generalizing current val with
  | nil =>
    refine ⟨current, stop, mem_singleton_self _, le_rfl, hcurrent, hx,
      mem_singleton_self _, fun z hz hlt ↦ ?_⟩
    exact absurd (mem_singleton.mp hz) hlt.ne
  | cons c changes ih =>
    have hends := stretchEnds_sorted hs hstop
    obtain ⟨hc, hs⟩ := pairwise_cons.mp hs
    obtain ⟨-, hstop⟩ := forall_mem_cons.mp hstop
    rcases lt_or_ge x c.1 with hlt | hcx
    · refine ⟨current, c.1, ?_, le_rfl, hcurrent, hlt, mem_cons_self, fun z hz hz' ↦ ?_⟩
      · rw [follow, if_neg hlt.not_ge]
        exact mem_cons_self
      · rcases mem_cons.mp hz with rfl | hz
        · exact absurd hz' (lt_irrefl _)
        · exact absurd ((pairwise_cons.mp hends).1 z hz) hz'.not_gt
    · obtain ⟨lo, hi, hmem, hlo, hlox, hxhi, hhi, hbetween⟩ :=
        ih c.2 hs hstop (fun c' hc' ↦ (hc c' hc').le) hcx
      refine ⟨lo, hi, ?_, (hge c mem_cons_self).trans hlo, hlox, hxhi,
        mem_cons_of_mem _ hhi, fun z hz hz' ↦ ?_⟩
      · rw [follow, if_pos hcx]
        exact mem_cons_of_mem _ hmem
      · rcases mem_cons.mp hz with rfl | hz
        · exact hlo
        · exact hbetween z hz hz'

end Stretches

/-! ### The bounds of the stretches -/

section LowerBounds

variable {imageMap : SortedMap Key ImageLayerInfo} {key : Key} {info : ImageLayerInfo}

theorem map_fst_lowerBounds (layer : PersistentLayerDesc) :
    (lowerBounds imageMap layer).entries.map Prod.fst = imageMap.entries.map Prod.fst := by
  unfold lowerBounds
  split_ifs
  · exact map_fst_updateEntries
  · rfl

/-- The delta layer comes to the stretch that ends at a key before it stops. -/
def Reaches (keys : List Key) (layer : PersistentLayerDesc) (key : Key) : Prop :=
  layer.isDelta = true ∧ layer.keyStart ≤ key ∧ key < max ∧
    ∀ k ∈ keys, layer.keyStart ≤ k → k < key → k < layer.keyEnd

section

variable (h : (key, info) ∈ imageMap.entries)
include h

/-- A delta layer keeps the image LSN of a stretch and never raises its bound. -/
theorem exists_mem_lowerBounds (layer : PersistentLayerDesc) :
    ∃ info', (key, info') ∈ (lowerBounds imageMap layer).entries ∧ info'.imageLsn = info.imageLsn ∧
      info'.minDeltaLsn ≤ info.minDeltaLsn := by
  unfold lowerBounds
  split_ifs with hdelta
  · obtain ⟨info', hmem, hor⟩ := exists_mem_updateEntries h
    refine ⟨info', hmem, ?_⟩
    rcases hor with rfl | rfl
    · exact ⟨rfl, le_rfl⟩
    · split_ifs
      · exact ⟨rfl, min_le_left _ _⟩
      · exact ⟨rfl, le_rfl⟩
  · exact ⟨info, h, rfl, le_rfl⟩

/-- A delta layer that reaches a stretch and ends above its image lowers the bound to its start. -/
theorem exists_mem_lowerBounds_of_reaches
    {layer : PersistentLayerDesc} (hreaches : Reaches (imageMap.entries.map Prod.fst) layer key)
    (hend : info.imageLsn < layer.lsnEnd) :
    ∃ info', (key, info') ∈ (lowerBounds imageMap layer).entries ∧ info'.imageLsn = info.imageLsn ∧
      info'.minDeltaLsn ≤ layer.lsnStart := by
  obtain ⟨hdelta, hstart, hmax, hbefore⟩ := hreaches
  rw [lowerBounds, if_pos hdelta]
  refine ⟨_, mem_updateEntries imageMap.sorted h hstart hmax fun e he hle hlt ↦ ?_, ?_⟩
  · simpa using hbefore e.1 (mem_map_of_mem he) hle hlt
  · rw [if_pos hend]
    exact ⟨rfl, min_le_right _ _⟩

theorem exists_mem_foldl (layers : List PersistentLayerDesc) :
    ∃ info', (key, info') ∈ (layers.foldl lowerBounds imageMap).entries ∧
      info'.imageLsn = info.imageLsn ∧ info'.minDeltaLsn ≤ info.minDeltaLsn ∧
      ∀ layer ∈ layers, Reaches (imageMap.entries.map Prod.fst) layer key →
        info.imageLsn < layer.lsnEnd → info'.minDeltaLsn ≤ layer.lsnStart := by
  induction layers generalizing imageMap info with
  | nil => exact ⟨info, h, rfl, le_rfl, by simp⟩
  | cons layer layers ih =>
    -- what this layer does to the bound
    have hstep : ∃ info₁, (key, info₁) ∈ (lowerBounds imageMap layer).entries ∧
        info₁.imageLsn = info.imageLsn ∧ info₁.minDeltaLsn ≤ info.minDeltaLsn ∧
        (Reaches (imageMap.entries.map Prod.fst) layer key → info.imageLsn < layer.lsnEnd →
          info₁.minDeltaLsn ≤ layer.lsnStart) := by
      obtain ⟨info₁, hmem, himage, hle⟩ := exists_mem_lowerBounds h layer
      refine ⟨info₁, hmem, himage, hle, fun hreaches hend ↦ ?_⟩
      obtain ⟨info₂, hmem₂, -, hle₂⟩ := exists_mem_lowerBounds_of_reaches h hreaches hend
      have heq := eq_of_mem hmem hmem₂ rfl
      rwa [(Prod.mk.inj heq).2]
    obtain ⟨info₁, hmem₁, himage₁, hle₁, hreach₁⟩ := hstep
    obtain ⟨info', hmem, himage, hle, hreach⟩ := ih hmem₁
    rw [map_fst_lowerBounds, himage₁] at hreach
    refine ⟨info', hmem, himage.trans himage₁, hle.trans hle₁, fun l hl ↦ ?_⟩
    rcases mem_cons.mp hl with rfl | hl
    · exact fun hr he ↦ hle.trans (hreach₁ hr he)
    · exact hreach l hl

end

theorem foldl_min_le {α : Type} (f : α → ℕ) (es : List α) (lsn : ℕ) :
    es.foldl (fun lsn e ↦ min lsn (f e)) lsn ≤ lsn ∧
      ∀ e ∈ es, es.foldl (fun lsn e ↦ min lsn (f e)) lsn ≤ f e := by
  induction es generalizing lsn with
  | nil => exact ⟨le_rfl, by simp⟩
  | cons e es ih =>
    obtain ⟨hle, hmem⟩ := ih (min lsn (f e))
    refine ⟨hle.trans (min_le_left _ _), forall_mem_cons.mpr ⟨?_, hmem⟩⟩
    exact hle.trans (min_le_right _ _)

end LowerBounds

namespace LayerMap

variable {m : LayerMap} {diskConsistentLsn R : ℕ}

/-- The bounds of the image layers are kept by the packing, but an image layer may end at
`Key::MAX`. -/
def ImagesFit (m : LayerMap) : Prop :=
  ∀ i ∈ m.iterHistoricLayers, i.isDelta = false →
    i.keyStart.Fits ∧ (i.keyEnd.Fits ∨ i.keyEnd = max)

/-- The newest image layer at or below an LSN that has the key. -/
def NewestImage (m : LayerMap) (key : Key) (lsn : ℕ) (i : PersistentLayerDesc) : Prop :=
  i ∈ m.iterHistoricLayers ∧ i.isDelta = false ∧ i.Covers key ∧ i.lsnStart ≤ lsn ∧
    ∀ j ∈ m.iterHistoricLayers, j.isDelta = false → j.Covers key → j.lsnStart ≤ lsn →
      j.lsnStart ≤ i.lsnStart

variable {lsn : ℕ}

theorem newestImage_of_latest (hfit : m.ImagesFit) {key : Key} {x : ℤ}
    {i : PersistentLayerDesc} (hx : x < max.toI128)
    (hfloor : ∀ y, 0 ≤ y → y < 2 ^ 127 → (fromI128 y ≤ key ↔ y ≤ x))
    (hkey : key < max) (h : m.latest true x lsn = some i) : m.NewestImage key lsn i := by
  -- an image layer has the key just if its packed range has the floor
  have hcovers (j : PersistentLayerDesc) (hj : j ∈ m.iterHistoricLayers) (hd : j.isDelta = false) :
      j.Covers key ↔ HasKey j x := by
    obtain ⟨hstart, hend⟩ := hfit j hj hd
    exact covers_iff_hasKey hstart hend hx hkey hfloor
  have hl := latest_spec h
  have hdelta : i.isDelta = false := hl.isDelta_eq
  refine ⟨hl.mem, hdelta, (hcovers i hl.mem hdelta).mpr hl.hasKey, hl.lsnStart_le,
    fun j hj hd hc hle ↦ ?_⟩
  have hend := hl.lsnEnd_le j hj hd ((hcovers j hj hd).mp hc) hle
  rw [j.image_end hd, i.image_end hdelta] at hend
  omega

theorem of_computeImageConsistentLsn {coverage : List ((Key × Key) × Option PersistentLayerDesc)}
    (hcoverage : m.imageCoverage (min, max) diskConsistentLsn = some coverage)
    (hR : m.computeImageConsistentLsn diskConsistentLsn = some R) :
    R = (m.iterHistoricLayers.foldl lowerBounds
      (imageMap (m.minL0DeltasLsn diskConsistentLsn) coverage)).entries.foldl
        (fun lsn e ↦ min lsn (max e.2.imageLsn (e.2.minDeltaLsn - 1)))
        (m.minL0DeltasLsn diskConsistentLsn - 1) ∧ m.minL0DeltasLsn diskConsistentLsn ≠ 0 := by
  rw [computeImageConsistentLsn, hcoverage] at hR
  simp only [Option.bind_eq_bind, Option.bind_some] at hR
  split_ifs at hR with hmin
  exact ⟨(Option.some.inj hR).symm, hmin⟩

section Stretches

variable {stop : ℤ} {val : Option PersistentLayerDesc} {changes : List Change} (minL0 : ℕ)
  (hs : (stretchEnds stop changes).Pairwise (· < ·))
  (hbound : ∀ z ∈ stretchEnds stop changes, 0 ≤ z ∧ z < 2 ^ 127)

include hs hbound

theorem mem_imageMap {s : (Key × Key) × Option PersistentLayerDesc} {current : ℤ}
    (h : s ∈ stretches stop current val changes) : (s.1.2, ⟨(s.2.map (·.lsnEnd)).getD 0, minL0⟩) ∈
      (imageMap minL0 (stretches stop current val changes)).entries := by
  refine mem_insertAll ?_ (mem_map_of_mem h)
  have hkeys : ((stretches stop current val changes).map (·.1.2)).Pairwise (· < ·) := by
    rw [map_end_stretches]
    refine pairwise_map.mpr (hs.imp_of_mem fun hy hz hlt ↦ ?_)
    exact fromI128_lt (hbound _ hy).1 hlt (hbound _ hz).2
  exact pairwise_map.mpr (pairwise_map.mp hkeys)

omit hs hbound in
theorem exists_of_mem_imageMap {key : Key} {current : ℤ}
    (h : key ∈ (imageMap minL0 (stretches stop current val changes)).entries.map Prod.fst) :
    ∃ z ∈ stretchEnds stop changes, fromI128 z = key := by
  obtain ⟨e, he, rfl⟩ := mem_map.mp h
  rcases of_mem_insertAll he with he | he
  · cases he
  · obtain ⟨s, hs, rfl⟩ := mem_map.mp he
    have hmem : s.1.2 ∈ (stretches stop current val changes).map (·.1.2) := mem_map_of_mem hs
    rw [map_end_stretches] at hmem
    exact mem_map.mp hmem

end Stretches

/-- With a version at the disk consistent LSN, each packed key is in a stretch whose LSN bounds the
result, and all delta layers that overlap the stretch have been taken into account. -/
theorem exists_bound (h : ∃ l ∈ m.iterHistoricLayers, l.lsnStart ≤ diskConsistentLsn)
    (hR : m.computeImageConsistentLsn diskConsistentLsn = some R) {x : ℤ} (h0 : 0 ≤ x)
    (hx : x < max.toI128) :
    ∃ lo hi : ℤ, 0 ≤ lo ∧ lo ≤ x ∧ x < hi ∧ hi ≤ max.toI128 ∧ ∃ info : ImageLayerInfo,
      info.imageLsn = ((m.latest true x diskConsistentLsn).map (·.lsnEnd)).getD 0 ∧
      R ≤ max info.imageLsn (info.minDeltaLsn - 1) ∧
      ∀ d ∈ m.iterHistoricLayers, d.isDelta = true → d.keyStart ≤ fromI128 hi →
        fromI128 lo < d.keyEnd → info.imageLsn < d.lsnEnd → info.minDeltaLsn ≤ d.lsnStart := by
  obtain ⟨version, hversion, hquery⟩ := exists_getVersion h
  have hmin : min.toI128 ≤ x := h0
  have hmem c (hc : c ∈ version.imageCoverage.range min.toI128 max.toI128) :=
    Staircase.of_mem_range hc
  have hsorted : (version.imageCoverage.range min.toI128 max.toI128).Pairwise (·.1 < ·.1) :=
    Staircase.range_sorted
  have hends := stretchEnds_sorted hsorted fun c hc ↦ (hmem c hc).2.1
  have hbound : ∀ z ∈ stretchEnds max.toI128
      (version.imageCoverage.range min.toI128 max.toI128), 0 ≤ z ∧ z ≤ max.toI128 := by
    intro z hz
    rcases mem_append.mp hz with hz | hz
    · obtain ⟨c, hc, rfl⟩ := mem_map.mp hz
      exact ⟨(hmem c hc).1, (hmem c hc).2.1.le⟩
    · rw [mem_singleton.mp hz]
      exact ⟨max.toI128_nonneg, le_rfl⟩
  have hbound' : ∀ z ∈ stretchEnds max.toI128
      (version.imageCoverage.range min.toI128 max.toI128), 0 ≤ z ∧ z < 2 ^ 127 :=
    fun z hz ↦ ⟨(hbound z hz).1, (hbound z hz).2.trans_lt max.toI128_lt⟩
  have hcoverage : m.imageCoverage (min, max) diskConsistentLsn =
      some (stretches max.toI128 min.toI128 (version.imageCoverage.query min.toI128)
        (version.imageCoverage.range min.toI128 max.toI128)) := by
    simp only [imageCoverage, hversion]
    exact if_pos (by decide)
  obtain ⟨lo, hi, hstretch, hlo0, hlox, hxhi, hhi, hbetween⟩ :=
    exists_stretch (version.imageCoverage.query min.toI128) hsorted
      (fun c hc ↦ (hmem c hc).2.1) (fun c hc ↦ (hmem c hc).1) hmin hx
  rw [← Staircase.query_eq_follow hmin hx] at hstretch
  obtain ⟨info, hinfo, himage, -, hlower⟩ := exists_mem_foldl
    (mem_imageMap (m.minL0DeltasLsn diskConsistentLsn) hends hbound' hstretch)
    m.iterHistoricLayers
  refine ⟨lo, hi, hlo0, hlox, hxhi, (hbound hi hhi).2, info, ?_, ?_, fun d hd hdelta hstart hend ↦
    ?_⟩
  · rw [← hquery true x]
    exact himage
  · rw [(of_computeImageConsistentLsn hcoverage hR).1]
    exact (foldl_min_le (fun e : Key × ImageLayerInfo ↦ max e.2.imageLsn (e.2.minDeltaLsn - 1))
      _ _).2 _ hinfo
  · rw [himage]
    refine hlower d hd ⟨hdelta, hstart, fromI128_lt_max (hbound hi hhi).1, fun k hk _ hlt ↦ ?_⟩
    -- the stretches before this one end at or below its beginning
    obtain ⟨z, hz, rfl⟩ := exists_of_mem_imageMap _ hk
    have hzhi := (fromI128_lt_iff (hbound z hz).1 (hbound' z hz).2 (hbound hi hhi).1
      (hbound' hi hhi).2).mp hlt
    rcases (hbetween z hz hzhi).lt_or_eq with hzlo | rfl
    · exact (fromI128_lt (hbound z hz).1 hzlo (hlox.trans_lt (hx.trans max.toI128_lt))).trans hend
    · exact hend

/-- **Below the image consistent LSN, what a delta layer has of a key is at or below the newest
image of the key.** -/
theorem le_image_of_lt_computeImageConsistentLsn (hfit : m.ImagesFit)
    (h : (∃ l ∈ m.iterHistoricLayers, l.lsnStart ≤ diskConsistentLsn) ∨ m.level0Deltas = [])
    (hR : m.computeImageConsistentLsn diskConsistentLsn = some R) {key : Key}
    (hkey : key < Key.fromI128 Key.max.toI128) {d : PersistentLayerDesc}
    (hd : d ∈ m.iterHistoricLayers) (hdelta : d.isDelta = true) (hcovers : d.Covers key) {lsn : ℕ}
    (hstart : d.lsnStart ≤ lsn) (hend : lsn < d.lsnEnd) (hlt : lsn < R) :
    ∃ i, m.NewestImage key diskConsistentLsn i ∧ lsn ≤ i.lsnStart := by
  by_cases hversion : ∃ l ∈ m.iterHistoricLayers, l.lsnStart ≤ diskConsistentLsn
  · obtain ⟨x, h0, hx, hfloor⟩ := key.exists_floor
    have hx' : x < Key.max.toI128 := by
      by_contra hle
      have := (hfloor _ Key.max.toI128_nonneg Key.max.toI128_lt).mpr (le_of_not_gt hle)
      exact hkey.not_ge this
    have hmax : key < Key.max := hkey.trans (Key.fromI128_lt_max Key.max.toI128_nonneg)
    obtain ⟨lo, hi, hlo0, hlo, hhi, hstop, info, himage, hle, hlower⟩ :=
      exists_bound hversion hR h0 hx'
    have hkey_hi : key < Key.fromI128 hi := by
      rw [← not_le, hfloor hi (by omega) (hstop.trans_lt Key.max.toI128_lt)]
      omega
    have hkey_lo : Key.fromI128 lo ≤ key := (hfloor lo hlo0 (by omega)).mpr hlo
    have hbound := hlower d hd hdelta (hcovers.1.trans hkey_hi.le) (hkey_lo.trans_lt hcovers.2)
    -- the version of the page is at or below the image of the stretch
    have hlsn : lsn < info.imageLsn := by
      by_contra hge
      omega
    cases hlatest : m.latest true x diskConsistentLsn with
    | none =>
      rw [himage, hlatest] at hlsn
      exact absurd hlsn (Nat.not_lt_zero _)
    | some i =>
      have hi := newestImage_of_latest hfit hx' hfloor hmax hlatest
      refine ⟨i, hi, ?_⟩
      rw [himage, hlatest] at hlsn
      have hlsn : lsn < i.lsnEnd := hlsn
      rw [i.image_end hi.2.1] at hlsn
      omega
  · -- all layers are above the disk consistent LSN, and the result is below it
    have habove : ∀ l ∈ m.iterHistoricLayers, diskConsistentLsn < l.lsnStart := fun l hl ↦
      lt_of_not_ge fun hle ↦ hversion ⟨l, hl, hle⟩
    have hcoverage : m.imageCoverage (Key.min, Key.max) diskConsistentLsn = some [] := by
      rw [imageCoverage, getVersion_eq_none habove]
    have hmin : m.minL0DeltasLsn diskConsistentLsn = diskConsistentLsn := by
      rw [minL0DeltasLsn, h.resolve_left hversion]
      rfl
    have hle := (foldl_min_le (fun e : Key × ImageLayerInfo ↦
      max e.2.imageLsn (e.2.minDeltaLsn - 1)) (m.iterHistoricLayers.foldl lowerBounds
        (imageMap (m.minL0DeltasLsn diskConsistentLsn) [])).entries
      (m.minL0DeltasLsn diskConsistentLsn - 1)).1
    rw [← (of_computeImageConsistentLsn hcoverage hR).1] at hle
    have := habove d hd
    omega

/-- A delta layer across an image of all keys. -/
def acrossDelta : PersistentLayerDesc :=
  ⟨⟨min, ⟨0, 0, 0, 0, 0, 10⟩, 40, 60⟩, true, by decide, by decide⟩

def acrossImage : PersistentLayerDesc := ⟨⟨min, max, 50, 51⟩, false, by decide, by decide⟩

def across : LayerMap where
  openLayer := none
  frozenLayers := []
  historic := ⟨[acrossDelta, acrossImage].map fun l ↦ (layerKey l, l), by decide⟩
  key_eq := by decide
  representable := by decide

theorem le_image_across : across.computeImageConsistentLsn 100 = some 51 ∧
      ∃ i, across.NewestImage Key.min 100 i ∧ 45 ≤ i.lsnStart :=
  ⟨by decide, le_image_of_lt_computeImageConsistentLsn (d := acrossDelta)
    (by unfold ImagesFit; decide) (.inr (by decide)) (show _ = some 51 by decide)
      (by decide) (by decide)
    rfl (by decide) (by decide) (by decide) (by decide)⟩

/-- An L0 layer, and below it a layer that is not of L0. -/
def aboveL0 : PersistentLayerDesc := ⟨⟨min, max, 100, 110⟩, true, by decide, by decide⟩

def aboveOther : PersistentLayerDesc :=
  ⟨⟨min, ⟨0, 0, 0, 0, 0, 10⟩, 20, 30⟩, true, by decide, by decide⟩

def above : LayerMap where
  openLayer := none
  frozenLayers := []
  historic := ⟨[aboveOther, aboveL0].map fun l ↦ (layerKey l, l), by decide⟩
  key_eq := by decide
  representable := by decide

/-- With both layers above the disk consistent LSN, the bound is that of the L0 layer, though the
other layer has page versions below it and there is no image. -/
theorem computeImageConsistentLsn_no_version :
    above.computeImageConsistentLsn 10 = some 99 ∧ above.ImagesFit ∧
      (∀ i ∈ above.iterHistoricLayers, i.isDelta = false → i.lsnStart ≤ 10) ∧
      aboveOther ∈ above.iterHistoricLayers ∧ aboveOther.isDelta = true ∧
        aboveOther.Covers Key.min ∧
      aboveOther.lsnStart ≤ 20 ∧ 20 < aboveOther.lsnEnd ∧ 20 < 99 ∧
      ¬ ∃ i, above.NewestImage Key.min 10 i ∧ 20 ≤ i.lsnStart := by
  refine ⟨by decide, by unfold ImagesFit; decide, by decide, by decide, rfl, by decide, by decide,
    by decide, by decide, ?_⟩
  rintro ⟨i, ⟨hi, himage, -⟩, -⟩
  have hdeltas : ∀ l ∈ above.iterHistoricLayers, l.isDelta = true := by decide
  exact absurd (hdeltas i hi) (by simp [himage])

end LayerMap

end NeonStorage.Pageserver.Indexed
