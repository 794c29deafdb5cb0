import NeonStorage.Pageserver.LayerMap.Indexed

/-!
# The read path of one timeline

A read of a key asks `search` again and again, each time below the floor of the last result, until
it comes to an image layer or finds nothing more. `walk` is this loop. On a layer map whose layers
have everything in their ranges, it comes across every record above the image exactly once
(`walk_complete`).

## What the map and the key have to satisfy

The claim is about the keys that layers cover, but the map is searched by packed keys. `Packs` says
that the key and the bounds of the layers are kept by the packing. Of the layers, `WellFormed` says
that those in memory are above the delta layers and from the oldest to the newest, and that none
begins at LSN 0. Without any one of these a read misses records, or does not end
(`exists_not_complete`).
-/

namespace NeonStorage.Pageserver

open List ReadableLayer

/-- A layer visited by a read, and the LSNs that are read from it. -/
structure Visit where
  layer : ReadableLayer
  lsnFloor : ℕ
  endLsn : ℕ
  deriving DecidableEq

/-- The layers that a read of `key` below `endLsn` visits; `none` if `fuel` does not suffice, or if
the key is not accepted by `to_i128`. -/
def Indexed.LayerMap.walk (m : Indexed.LayerMap) (key : Key) : ℕ → ℕ → Option (List Visit)
  | 0, _ => none
  | fuel + 1, endLsn =>
    match m.search key endLsn with
    | none => none
    | some none => some []
    | some (some r) =>
      if r.layer.isImage then some [⟨r.layer, r.lsnFloor, endLsn⟩]
      else (m.walk key fuel r.lsnFloor).map (⟨r.layer, r.lsnFloor, endLsn⟩ :: ·)

/-- The windows of the visits lie one below the other, beginning at `endLsn`. -/
def Tiled : ℕ → List Visit → Prop
  | _, [] => True
  | endLsn, v :: visits => v.endLsn = endLsn ∧ v.lsnFloor < endLsn ∧ Tiled v.lsnFloor visits

/-- A record is read by a visit of `layer` at LSNs from `lsnFloor` to `endLsn`. -/
def Visit.Reads (held : ReadableLayer → Key → ℕ → Prop) (key : Key) (lsn : ℕ) (v : Visit) : Prop :=
  held v.layer key lsn ∧ v.lsnFloor ≤ lsn ∧ lsn < v.endLsn

variable {visits : List Visit}

theorem Tiled.endLsn_le {endLsn : ℕ} (h : Tiled endLsn visits) :
    ∀ v ∈ visits, v.endLsn ≤ endLsn := by
  induction visits generalizing endLsn with
  | nil => nofun
  | cons w visits ih =>
    obtain ⟨hend, hlt, h⟩ := h
    intro v hv
    rcases mem_cons.mp hv with rfl | hv
    · exact hend.le
    · exact (ih h v hv).trans hlt.le

theorem Tiled.unique {endLsn lsn : ℕ} (h : Tiled endLsn visits) {v w : Visit} (hv : v ∈ visits)
    (hw : w ∈ visits) (hlsn : v.lsnFloor ≤ lsn ∧ lsn < v.endLsn)
    (hlsn' : w.lsnFloor ≤ lsn ∧ lsn < w.endLsn) : v = w := by
  induction visits generalizing endLsn with
  | nil => cases hv
  | cons x visits ih =>
    obtain ⟨-, -, h⟩ := h
    rcases mem_cons.mp hv with rfl | hv' <;> rcases mem_cons.mp hw with rfl | hw'
    · rfl
    · have := h.endLsn_le w hw'
      omega
    · have := h.endLsn_le v hv'
      omega
    · exact ih h hv' hw'

namespace Indexed.LayerMap

open Pageserver.LayerMap

variable {m : LayerMap} {key : Key} {endLsn : ℕ}

/-! ## One search -/

/-- The image layers that a read of `key` below `endLsn` may stop at. -/
def ImageBelow (m : LayerMap) (key : Key) (endLsn : ℕ) (i : PersistentLayerDesc) : Prop :=
  i ∈ m.iterHistoricLayers ∧ i.isDelta = false ∧ i.Covers key ∧ i.lsnStart < endLsn

/-- A delta layer or a layer in memory that has the key and the LSN in its ranges. -/
def Located (m : LayerMap) (key : Key) (lsn : ℕ) (l : ReadableLayer) : Prop :=
  l.InRange key lsn ∧
    match l with
    | .persistentLayer d => d ∈ m.iterHistoricLayers ∧ d.isDelta = true
    | .inMemoryLayer i => i ∈ m.inMemoryLayers

/-- Delta layers end where the layers in memory begin, these are from the oldest to the newest, and
no layer begins at LSN 0. -/
structure WellFormed (m : LayerMap) : Prop where
  delta_le : ∀ d ∈ m.iterHistoricLayers, d.isDelta = true → ∀ i ∈ m.inMemoryLayers,
    d.lsnEnd ≤ i.startLsn
  delta_pos : ∀ d ∈ m.iterHistoricLayers, d.isDelta = true → 0 < d.lsnStart
  inMemory_pos : ∀ i ∈ m.inMemoryLayers, 0 < i.startLsn
  inMemory_lt : ∀ i ∈ m.inMemoryLayers, i.startLsn < i.endLsnOrMax
  inMemory_sorted : m.inMemoryLayers.Pairwise (·.endLsnOrMax ≤ ·.startLsn)

/-- The packing keeps the key and the bounds of the layers, but for `Key::MAX`, which is packed to
the greatest number. -/
structure Packs (m : LayerMap) (key : Key) : Prop where
  fits : key.Fits
  lt_max : key.toI128 < Key.max.toI128
  bounds : ∀ l ∈ m.iterHistoricLayers, l.keyStart.Fits ∧ (l.keyEnd.Fits ∨ l.keyEnd = .max)

theorem Packs.covers_iff_toI128 (hk : m.Packs key) {l : PersistentLayerDesc}
    (hl : l ∈ m.iterHistoricLayers) : l.Covers key ↔ HasKey l key.toI128 := by
  obtain ⟨hstart, hend⟩ := hk.bounds l hl
  have hlt : key < .max := hk.fits ▸ Key.fromI128_lt_max key.toI128_nonneg
  refine covers_iff_hasKey hstart hend hk.lt_max hlt fun y h0 hy ↦ ?_
  rw [(Key.fits_fromI128 h0 hy).le_iff hk.fits, Key.toI128_fromI128 h0 hy]

/-- What a search below `endLsn` may find. -/
inductive Finds (m : LayerMap) (key : Key) (endLsn : ℕ) : Option SearchResult → Prop
  /-- There is nothing below. -/
  | nothing (himage : ∀ i, ¬ m.ImageBelow key endLsn i)
      (hlayer : ∀ l lsn, lsn < endLsn → ¬ m.Located key lsn l) : Finds m key endLsn none
  /-- The newest image, and no other layer reaches above it. -/
  | image (i : PersistentLayerDesc) (hi : m.ImageBelow key endLsn i)
      (hnewest : ∀ j, m.ImageBelow key endLsn j → j.lsnStart ≤ i.lsnStart)
      (hlayer : ∀ l lsn, i.lsnStart < lsn → lsn < endLsn → ¬ m.Located key lsn l) :
    Finds m key endLsn (some ⟨.persistentLayer i, i.lsnStart⟩)
  /-- A layer that has everything between the floor and `endLsn` that any layer has. No image is
  passed by. -/
  | layer (l : ReadableLayer) (floor : ℕ) (hl : l.isImage = false) (hpos : 0 < floor)
      (hlt : floor < endLsn) (himage : ∀ i, m.ImageBelow key endLsn i → i.lsnStart < floor)
      (hlayer : ∀ l' lsn, floor ≤ lsn → lsn < endLsn → m.Located key lsn l' → m.Located key lsn l) :
    Finds m key endLsn (some ⟨l, floor⟩)

section Finds

variable {d i : PersistentLayerDesc} {x : InMemoryLayer}

/-- If delta layers end where the layers in memory begin, a candidate in memory leaves a delta layer
no chance. -/
theorem selectLayer_some_inMemory (image : Option PersistentLayerDesc) (hd : d.lsnEnd ≤ x.startLsn)
    (hx : x.startLsn < endLsn) (hx' : x.startLsn < x.endLsnOrMax)
    (hi : ∀ i ∈ image, i.isDelta = false) :
    selectLayer (some d) image (some x) endLsn = selectLayer none image (some x) endLsn := by
  have hinmem : selectDeltaOrInMemory d x endLsn = ⟨.inMemoryLayer x, x.startLsn⟩ := by
    have hnot : ¬ (d.lsnEnd ≥ x.endLsnOrMax ∨ d.lsnEnd = endLsn) := by omega
    rw [selectDeltaOrInMemory, if_neg hnot, max_eq_left hd]
  have hdlt := d.lsn_lt
  cases image with
  | none => simp only [selectLayer, hinmem]
  | some i =>
    simp only [selectLayer, Option.some.injEq]
    by_cases hnew : i.lsnEnd ≥ d.lsnEnd ∨ i.lsnStart + 1 = endLsn
    · -- the image is preferred to the delta layer
      have himage : selectDeltaOrImage d i endLsn = ⟨.persistentLayer i, i.lsnStart⟩ := if_pos hnew
      have hfloor : i.lsnStart ≤ (selectImageOrInMemory i x endLsn).lsnFloor := by
        unfold selectImageOrInMemory
        dsimp only
        split_ifs
        · exact le_rfl
        · exact (Nat.le_succ _).trans (le_max_right _ _)
      have hisImage : (persistentLayer i).isImage = true := by
        simp [isImage, hi i rfl]
      rw [himage, if_pos hisImage, max_eq_right hfloor]
    · -- the delta layer is preferred to the image, and the layer in memory to both
      have hdelta : selectDeltaOrImage d i endLsn =
          ⟨.persistentLayer d, max d.lsnStart (i.lsnStart + 1)⟩ := if_neg hnew
      have hold : ¬ (i.lsnEnd ≥ x.endLsnOrMax ∨ i.lsnStart + 1 = endLsn) := by omega
      have himage : selectImageOrInMemory i x endLsn =
          ⟨.inMemoryLayer x, max x.startLsn (i.lsnStart + 1)⟩ := if_neg hold
      have hfloor : max (max d.lsnStart (i.lsnStart + 1)) x.startLsn =
          max x.startLsn (i.lsnStart + 1) := by omega
      have hfloor' : max (max d.lsnStart (i.lsnStart + 1)) (max x.startLsn (i.lsnStart + 1)) =
          max x.startLsn (i.lsnStart + 1) := by omega
      rw [hdelta, himage, hinmem]
      split_ifs
      · rw [hfloor']
      · rw [hfloor]

variable {lsn : ℕ} {l : ReadableLayer}

theorem imageBelow_of_latest (hk : m.Packs key) (h0 : 0 < endLsn)
    (h : m.latest true key.toI128 (lsnPred endLsn) = some i) :
    m.ImageBelow key endLsn i ∧ ∀ j, m.ImageBelow key endLsn j → j.lsnStart ≤ i.lsnStart := by
  have hi := latest_spec h
  have hdelta : i.isDelta = false := hi.isDelta_eq
  refine ⟨⟨hi.mem, hdelta, (hk.covers_iff_toI128 hi.mem).mpr hi.hasKey,
    (le_lsnPred_iff h0).mp hi.lsnStart_le⟩, ?_⟩
  rintro j ⟨hj, hjd, hjc, hjlt⟩
  have hle := hi.lsnEnd_le j hj hjd ((hk.covers_iff_toI128 hj).mp hjc)
    ((le_lsnPred_iff h0).mpr hjlt)
  have := i.image_end hdelta
  have := j.image_end hjd
  omega

theorem not_imageBelow (hk : m.Packs key) (h0 : 0 < endLsn)
    (h : m.latest true key.toI128 (lsnPred endLsn) = none) (i : PersistentLayerDesc) :
    ¬ m.ImageBelow key endLsn i := by
  rintro ⟨hi, hd, hc, hlt⟩
  exact latest_eq_none h i hi hd ((hk.covers_iff_toI128 hi).mp hc) ((le_lsnPred_iff h0).mpr hlt)

theorem Located.lt_of_delta (hk : m.Packs key) (h0 : 0 < endLsn)
    (h : m.Located key lsn (.persistentLayer d)) (hlsn : lsn < endLsn) :
    ∃ d', m.latest false key.toI128 (lsnPred endLsn) = some d' ∧ lsn < d'.lsnEnd := by
  obtain ⟨⟨hc, hge, hlt⟩, hmem, hd⟩ := h
  have hkey := (hk.covers_iff_toI128 hmem).mp hc
  have hle := (le_lsnPred_iff h0).mpr (hge.trans_lt hlsn)
  cases hlatest : m.latest false key.toI128 (lsnPred endLsn) with
  | none => exact absurd hle (latest_eq_none hlatest d hmem hd hkey)
  | some d' => exact ⟨d', rfl, hlt.trans_le ((latest_spec hlatest).lsnEnd_le d hmem hd hkey hle)⟩

/-- The search in memory finds the newest layer that begins below. -/
theorem Located.of_inMemory (hm : m.WellFormed) (h : m.Located key lsn (.inMemoryLayer x))
    (hlsn : lsn < endLsn) :
    ∃ x', m.searchInMemoryLayer endLsn = some x' ∧ (x = x' ∨ lsn < x'.startLsn) := by
  obtain ⟨⟨hge, hlt⟩, hmem⟩ := h
  have hbelow : decide (x.startLsn < endLsn) = true := decide_eq_true (by omega)
  have hmem' : x ∈ m.inMemoryLayers.reverse := mem_reverse.mpr hmem
  rw [searchInMemoryLayer_eq]
  cases hsearch : m.inMemoryLayers.reverse.find? fun l ↦ decide (l.startLsn < endLsn) with
  | none => exact absurd hbelow (find?_eq_none.mp hsearch x hmem')
  | some x' =>
    refine ⟨x', rfl, ?_⟩
    obtain ⟨-, newer, older, hsplit, hnewer⟩ := find?_eq_some_iff_append.mp hsearch
    have hs := pairwise_reverse.mpr hm.inMemory_sorted
    rw [hsplit] at hmem' hs
    rcases mem_append.mp hmem' with hx | hx
    · have := hnewer x hx
      rw [hbelow] at this
      cases this
    rcases mem_cons.mp hx with hx | hx
    · exact .inl hx
    · exact .inr (hlt.trans_le ((pairwise_cons.mp (pairwise_append.mp hs).2.1).1 x hx))

variable (hm : m.WellFormed) (hk : m.Packs key) (h0 : 0 < endLsn)
include hm hk h0

theorem Located.of_latest_delta (hx : m.searchInMemoryLayer endLsn = none)
    (hd : m.latest false key.toI128 (lsnPred endLsn) = some d) (h : m.Located key lsn l)
    (hlsn : lsn < endLsn) (hge : d.lsnStart ≤ lsn) : m.Located key lsn (.persistentLayer d) := by
  have hspec := latest_spec hd
  cases l with
  | persistentLayer d' =>
    obtain ⟨d'', hd'', hlt⟩ := h.lt_of_delta hk h0 hlsn
    rw [hd, Option.some.injEq] at hd''
    subst hd''
    exact ⟨⟨(hk.covers_iff_toI128 hspec.mem).mpr hspec.hasKey, hge, hlt⟩, hspec.mem,
      hspec.isDelta_eq⟩
  | inMemoryLayer x' =>
    obtain ⟨y, hy, -⟩ := h.of_inMemory hm hlsn
    cases hx.symm.trans hy

theorem Located.of_newest_inMemory (hx : m.searchInMemoryLayer endLsn = some x)
    (h : m.Located key lsn l) (hlsn : lsn < endLsn)
    (hge : x.startLsn ≤ lsn) : m.Located key lsn (.inMemoryLayer x) := by
  cases l with
  | persistentLayer d' =>
    -- delta layers end below
    obtain ⟨d'', hd'', hlt⟩ := h.lt_of_delta hk h0 hlsn
    have hspec := latest_spec hd''
    have := hm.delta_le d'' hspec.mem hspec.isDelta_eq x (mem_of_searchInMemoryLayer hx).1
    omega
  | inMemoryLayer x' =>
    obtain ⟨y, hy, hcase⟩ := h.of_inMemory hm hlsn
    rw [hx, Option.some.injEq] at hy
    subst hy
    rcases hcase with rfl | hlt
    · exact h
    · omega

theorem not_located (hd : m.latest false key.toI128 (lsnPred endLsn) = none)
    (hx : m.searchInMemoryLayer endLsn = none) (hlsn : lsn < endLsn) : ¬ m.Located key lsn l := by
  intro h
  cases l with
  | persistentLayer d' =>
    obtain ⟨y, hy, -⟩ := h.lt_of_delta hk h0 hlsn
    cases hd.symm.trans hy
  | inMemoryLayer x' =>
    obtain ⟨y, hy, -⟩ := h.of_inMemory hm hlsn
    cases hx.symm.trans hy

private theorem finds_deltaOrImage (hx : m.searchInMemoryLayer endLsn = none)
    (hd : m.latest false key.toI128 (lsnPred endLsn) = some d)
    (hi : m.latest true key.toI128 (lsnPred endLsn) = some i) :
    Finds m key endLsn (some (selectDeltaOrImage d i endLsn)) := by
  have hspec := latest_spec hd
  obtain ⟨hib, hnewest⟩ := imageBelow_of_latest hk h0 hi
  have hiend := i.image_end hib.2.1
  have hilt := hib.2.2.2
  by_cases hnew : i.lsnEnd ≥ d.lsnEnd ∨ i.lsnStart + 1 = endLsn
  · rw [selectDeltaOrImage, if_pos hnew]
    refine .image i hib hnewest fun l lsn hgt hlt hl ↦ ?_
    cases l with
    | persistentLayer d' =>
      obtain ⟨y, hy, hend⟩ := hl.lt_of_delta hk h0 hlt
      rw [hd, Option.some.injEq] at hy
      subst hy
      omega
    | inMemoryLayer x' =>
      obtain ⟨y, hy, -⟩ := hl.of_inMemory hm hlt
      cases hx.symm.trans hy
  · rw [selectDeltaOrImage, if_neg hnew]
    have hpos := hm.delta_pos d hspec.mem hspec.isDelta_eq
    have hstart := (le_lsnPred_iff h0).mp hspec.lsnStart_le
    refine .layer _ _ ?_ (by omega) (by omega) (fun j hj ↦ ?_) fun l lsn hge hlt hl ↦ ?_
    · simp [isImage, hspec.isDelta_eq]
    · have := hnewest j hj
      omega
    · exact hl.of_latest_delta hm hk h0 hx hd hlt (by omega)

private theorem finds_imageOrInMemory (hx : m.searchInMemoryLayer endLsn = some x)
    (hi : m.latest true key.toI128 (lsnPred endLsn) = some i) :
    Finds m key endLsn (some (selectImageOrInMemory i x endLsn)) := by
  obtain ⟨hxmem, hxlt⟩ := mem_of_searchInMemoryLayer hx
  obtain ⟨hib, hnewest⟩ := imageBelow_of_latest hk h0 hi
  have hiend := i.image_end hib.2.1
  have hilt := hib.2.2.2
  by_cases hnew : i.lsnEnd ≥ x.endLsnOrMax ∨ i.lsnStart + 1 = endLsn
  · rw [selectImageOrInMemory, if_pos hnew]
    refine .image i hib hnewest fun l lsn hgt hlt hl ↦ ?_
    have hxend := hm.inMemory_lt x hxmem
    have hin := (hl.of_newest_inMemory hm hk h0 hx hlt (by omega)).1.2
    omega
  · rw [selectImageOrInMemory, if_neg hnew]
    refine .layer _ _ rfl (by omega) (by omega) (fun j hj ↦ ?_) fun l lsn hge hlt hl ↦ ?_
    · have := hnewest j hj
      omega
    · exact hl.of_newest_inMemory hm hk h0 hx hlt (by omega)

theorem finds_of_inMemory_none (hx : m.searchInMemoryLayer endLsn = none) :
    Finds m key endLsn (selectLayer (m.latest false key.toI128 (lsnPred endLsn))
      (m.latest true key.toI128 (lsnPred endLsn)) none endLsn) := by
  cases hd : m.latest false key.toI128 (lsnPred endLsn) with
  | none =>
    have hlayer (l : ReadableLayer) (lsn : ℕ) (hlt : lsn < endLsn) : ¬ m.Located key lsn l :=
      not_located hm hk h0 hd hx hlt
    cases hi : m.latest true key.toI128 (lsnPred endLsn) with
    | none => exact .nothing (not_imageBelow hk h0 hi) hlayer
    | some i =>
      obtain ⟨hib, hnewest⟩ := imageBelow_of_latest hk h0 hi
      exact .image i hib hnewest fun l lsn _ hlt ↦ hlayer l lsn hlt
  | some d =>
    cases hi : m.latest true key.toI128 (lsnPred endLsn) with
    | none =>
      have hspec := latest_spec hd
      have hpos := hm.delta_pos d hspec.mem hspec.isDelta_eq
      have hstart := (le_lsnPred_iff h0).mp hspec.lsnStart_le
      refine .layer _ _ ?_ hpos hstart (fun i hib ↦ absurd hib (not_imageBelow hk h0 hi i)) ?_
      · simp [isImage, hspec.isDelta_eq]
      · exact fun l lsn hge hlt hl ↦ hl.of_latest_delta hm hk h0 hx hd hlt hge
    | some i => exact finds_deltaOrImage hm hk h0 hx hd hi

theorem finds_of_inMemory_some (hx : m.searchInMemoryLayer endLsn = some x) :
    Finds m key endLsn (selectLayer (m.latest false key.toI128 (lsnPred endLsn))
      (m.latest true key.toI128 (lsnPred endLsn)) (some x) endLsn) := by
  obtain ⟨hxmem, hxlt⟩ := mem_of_searchInMemoryLayer hx
  have hdelta : selectLayer (m.latest false key.toI128 (lsnPred endLsn))
      (m.latest true key.toI128 (lsnPred endLsn)) (some x) endLsn =
      selectLayer none (m.latest true key.toI128 (lsnPred endLsn)) (some x) endLsn := by
    cases hd : m.latest false key.toI128 (lsnPred endLsn) with
    | none => rfl
    | some d =>
      have hspec := latest_spec hd
      exact selectLayer_some_inMemory _ (hm.delta_le d hspec.mem hspec.isDelta_eq x hxmem) hxlt
        (hm.inMemory_lt x hxmem) fun i hi ↦ (latest_spec hi).isDelta_eq
  rw [hdelta]
  cases hi : m.latest true key.toI128 (lsnPred endLsn) with
  | none =>
    refine .layer _ _ rfl (hm.inMemory_pos x hxmem) hxlt
      (fun i hib ↦ absurd hib (not_imageBelow hk h0 hi i)) ?_
    exact fun l lsn hge hlt hl ↦ hl.of_newest_inMemory hm hk h0 hx hlt hge
  | some i => exact finds_imageOrInMemory hm hk h0 hx hi

/-- **What a search finds.** -/
theorem finds_search : ∃ r, m.search key endLsn = some r ∧ Finds m key endLsn r := by
  refine ⟨_, m.search_eq hk.fits.isI128Representable endLsn, ?_⟩
  cases hx : m.searchInMemoryLayer endLsn with
  | none => exact finds_of_inMemory_none hm hk h0 hx
  | some x => exact finds_of_inMemory_some hm hk h0 hx

end Finds

/-! ## Whole reads -/

/-- How a read ends: at the newest image, or with all layers seen. -/
def EndsAt (m : LayerMap) (key : Key) (endLsn : ℕ) (visits : List Visit) : Prop :=
  (∃ i e, m.ImageBelow key endLsn i ∧ (∀ j, m.ImageBelow key endLsn j → j.lsnStart ≤ i.lsnStart) ∧
    visits.getLast? = some ⟨.persistentLayer i, i.lsnStart, e⟩ ∧
    ∀ v ∈ visits.dropLast, v.layer.isImage = false) ∨
  (∀ i, ¬ m.ImageBelow key endLsn i) ∧ ∀ v ∈ visits, v.layer.isImage = false

/-- Everything above the newest image that lies in some layer lies in a layer that is visited. -/
def Complete (m : LayerMap) (key : Key) (endLsn : ℕ) (visits : List Visit) : Prop :=
  ∀ lsn < endLsn, (∀ i, m.ImageBelow key endLsn i → i.lsnStart < lsn) →
    (∃ l, m.Located key lsn l) →
    ∃ v ∈ visits, m.Located key lsn v.layer ∧ v.lsnFloor ≤ lsn ∧ lsn < v.endLsn

theorem walk_add {fuel : ℕ} (h : m.walk key fuel endLsn = some visits) (n : ℕ) :
    m.walk key (fuel + n) endLsn = some visits := by
  induction fuel generalizing endLsn visits with
  | zero => cases h
  | succ fuel ih =>
    rw [Nat.succ_add]
    unfold walk at h ⊢
    rcases hs : m.search key endLsn with _ | _ | r <;> rw [hs] at h
    · cases h
    · exact h
    · dsimp only at h ⊢
      split_ifs at h ⊢
      · exact h
      · obtain ⟨rest, hrest, rfl⟩ := Option.map_eq_some_iff.mp h
        rw [ih hrest]
        rfl

theorem EndsAt.cons {floor : ℕ} (h : m.EndsAt key floor visits)
    (hbelow : ∀ i, m.ImageBelow key endLsn i ↔ m.ImageBelow key floor i) {v : Visit}
    (hv : v.layer.isImage = false) : m.EndsAt key endLsn (v :: visits) := by
  unfold EndsAt
  simp only [hbelow]
  rcases h with ⟨i, e, hi, hnewest, hlast, hrest⟩ | ⟨hnone, hrest⟩
  · have hne : visits ≠ [] := by
      rintro rfl
      cases hlast
    refine .inl ⟨i, e, hi, hnewest, ?_, fun w hw ↦ ?_⟩
    · rw [List.getLast?_cons, hlast]
      rfl
    · rw [dropLast_cons_of_ne_nil hne] at hw
      rcases mem_cons.mp hw with rfl | hw
      · exact hv
      · exact hrest w hw
  · refine .inr ⟨hnone, fun w hw ↦ ?_⟩
    rcases mem_cons.mp hw with rfl | hw
    · exact hv
    · exact hrest w hw

theorem walk_spec (hm : m.WellFormed) (hk : m.Packs key) (fuel endLsn : ℕ) (h0 : 0 < endLsn)
    (hfuel : endLsn < fuel) : ∃ visits, m.walk key fuel endLsn = some visits ∧ Tiled endLsn visits ∧
      m.EndsAt key endLsn visits ∧ m.Complete key endLsn visits := by
  induction fuel generalizing endLsn with
  | zero => omega
  | succ fuel ih =>
    obtain ⟨res, hsearch, hfinds⟩ := finds_search hm hk h0
    unfold walk
    rw [hsearch]
    cases hfinds with
    | nothing himage hlayer =>
      refine ⟨[], rfl, trivial, .inr ⟨himage, nofun⟩, fun lsn hlt _ ⟨l, hl⟩ ↦ ?_⟩
      exact absurd hl (hlayer l lsn hlt)
    | image i hi hnewest hlayer =>
      have hisImage : (persistentLayer i).isImage = true := by
        simp [isImage, hi.2.1]
      refine ⟨_, if_pos hisImage, ⟨rfl, hi.2.2.2, trivial⟩,
        .inl ⟨i, endLsn, hi, hnewest, rfl, nofun⟩, fun lsn hlt habove ⟨l, hl⟩ ↦ ?_⟩
      exact absurd hl (hlayer l lsn (habove i hi) hlt)
    | layer l floor hl hpos hlt himage hlayer =>
      obtain ⟨visits, hwalk, htiled, hends, hcomplete⟩ := ih floor hpos (by omega)
      -- the images below `endLsn` are the images below the floor
      have hbelow : ∀ i, m.ImageBelow key endLsn i ↔ m.ImageBelow key floor i := by
        refine fun i ↦ ⟨fun hi ↦ ⟨hi.1, hi.2.1, hi.2.2.1, himage i hi⟩, fun hi ↦ ?_⟩
        exact ⟨hi.1, hi.2.1, hi.2.2.1, hi.2.2.2.trans hlt⟩
      refine ⟨⟨l, floor, endLsn⟩ :: visits, ?_, ⟨rfl, hlt, htiled⟩, ?_, ?_⟩
      · simp only [hl, hwalk, Bool.false_eq_true, if_false, Option.map_some]
      · exact hends.cons hbelow hl
      · intro lsn hltlsn habove hloc
        rcases le_or_gt floor lsn with hge | hlow
        · obtain ⟨l', hl'⟩ := hloc
          exact ⟨_, mem_cons_self, hlayer l' lsn hge hltlsn hl', hge, hltlsn⟩
        · obtain ⟨v, hv, hv'⟩ := hcomplete lsn hlow (fun i hi ↦ habove i ((hbelow i).mpr hi)) hloc
          exact ⟨v, mem_cons_of_mem _ hv, hv'⟩

variable {records : Key → ℕ → Prop} {held : ReadableLayer → Key → ℕ → Prop}

/-- Delta layers and layers in memory have every record in their ranges. -/
def HoldsRecords (m : LayerMap) (records : Key → ℕ → Prop)
    (held : ReadableLayer → Key → ℕ → Prop) : Prop :=
  ∀ l key lsn, m.Located key lsn l → records key lsn → held l key lsn

/-- **The read path is complete.** If every record above the image that a read stops at lies in some
layer, the read ends, at the newest image if there is one, its windows lie one below the other, and
each record above the image is read exactly once. -/
theorem walk_complete (hm : m.WellFormed) (hk : m.Packs key) (hheld : m.HoldsRecords records held)
    (L : ℕ)
    (hkept : ∀ lsn ≤ L, records key lsn → (∀ i, m.ImageBelow key (L + 1) i → i.lsnStart < lsn) →
      ∃ l, m.Located key lsn l) :
    ∃ visits, (∀ fuel, L + 1 < fuel → m.walk key fuel (L + 1) = some visits) ∧
      Tiled (L + 1) visits ∧ m.EndsAt key (L + 1) visits ∧
      ∀ lsn ≤ L, records key lsn → (∀ i, m.ImageBelow key (L + 1) i → i.lsnStart < lsn) →
        ∃! v, v ∈ visits ∧ v.Reads held key lsn := by
  obtain ⟨visits, hwalk, htiled, hends, hcomplete⟩ :=
    walk_spec hm hk (L + 2) (L + 1) (Nat.succ_pos L) (Nat.lt_succ_self _)
  refine ⟨visits, fun fuel hfuel ↦ ?_, htiled, hends, fun lsn hle hrec habove ↦ ?_⟩
  · obtain ⟨n, rfl⟩ := Nat.exists_eq_add_of_le (show L + 2 ≤ fuel from hfuel)
    exact walk_add hwalk n
  · obtain ⟨v, hv, hloc, hfloor, hend⟩ :=
      hcomplete lsn (Nat.lt_succ_of_le hle) habove (hkept lsn hle hrec habove)
    refine ⟨v, ⟨hv, hheld _ _ _ hloc hrec, hfloor, hend⟩, fun w hw ↦ ?_⟩
    exact htiled.unique hw.1 hv ⟨hw.2.2.1, hw.2.2.2⟩ ⟨hfloor, hend⟩

/-! ## Small layer maps -/

def sampleImage (lsn : ℕ) : PersistentLayerDesc :=
  ⟨⟨.min, .max, lsn, lsn + 1⟩, false, Nat.lt_succ_self lsn, fun _ ↦ rfl⟩

def sampleDelta (lsnStart size : ℕ) : PersistentLayerDesc :=
  ⟨⟨.min, .max, lsnStart, lsnStart + size + 1⟩, true, by dsimp only; omega, nofun⟩

theorem min_covers (l : PersistentLayerDesc) (hs : l.keyStart = .min) (he : l.keyEnd = .max) :
    l.Covers .min := by
  refine ⟨hs.le, ?_⟩
  rw [he]
  decide

theorem packs_min (h : ∀ l ∈ m.iterHistoricLayers, l.keyStart = .min ∧ l.keyEnd = .max) :
    m.Packs .min where
  fits := by decide
  lt_max := by decide
  bounds := by
    intro l hl
    rw [(h l hl).1]
    exact ⟨by decide, .inr (h l hl).2⟩

/-- An image, a delta layer and a frozen layer, one above the other. -/
def sampleMap : LayerMap :=
  ofLayers [⟨20, some 30⟩] [sampleImage 5, sampleDelta 10 9] (pairwise_pair.mpr (by decide))
    (by decide)

theorem mem_sampleMap {l : PersistentLayerDesc} :
    l ∈ sampleMap.iterHistoricLayers ↔ l = sampleImage 5 ∨ l = sampleDelta 10 9 := by
  simp [sampleMap, ofLayers, iterHistoricLayers]

theorem sampleMap_wellFormed : sampleMap.WellFormed where
  delta_le := by
    intro d hd _ i hi
    rw [mem_singleton.mp hi]
    rcases mem_sampleMap.mp hd with rfl | rfl <;> decide
  delta_pos := by
    intro d hd _
    rcases mem_sampleMap.mp hd with rfl | rfl <;> decide
  inMemory_pos := by decide
  inMemory_lt := by decide
  inMemory_sorted := pairwise_singleton _ _

/-- Of the records at 15 and 25, one lies in the delta layer and one in the frozen layer. -/
theorem walk_complete_sample :
    ∃ visits, (∀ fuel, 28 < fuel → sampleMap.walk .min fuel 28 = some visits) ∧
      Tiled 28 visits ∧ sampleMap.EndsAt .min 28 visits ∧
      ∀ lsn ≤ 27, lsn = 15 ∨ lsn = 25 →
        (∀ i, sampleMap.ImageBelow .min 28 i → i.lsnStart < lsn) →
        ∃! v, v ∈ visits ∧ v.Reads (fun _ _ lsn ↦ lsn = 15 ∨ lsn = 25) .min lsn := by
  have hheld : sampleMap.HoldsRecords (fun _ lsn ↦ lsn = 15 ∨ lsn = 25)
      fun _ _ lsn ↦ lsn = 15 ∨ lsn = 25 := fun _ _ _ _ h ↦ h
  have hpacks : sampleMap.Packs .min := packs_min fun l hl ↦ by
    rcases mem_sampleMap.mp hl with rfl | rfl <;> exact ⟨rfl, rfl⟩
  refine walk_complete sampleMap_wellFormed hpacks hheld 27 ?_
  rintro lsn - (rfl | rfl) -
  · exact ⟨.persistentLayer (sampleDelta 10 9), ⟨min_covers _ rfl rfl, by decide⟩,
      mem_sampleMap.mpr (.inr rfl), rfl⟩
  · exact ⟨.inMemoryLayer ⟨20, some 30⟩, ⟨by decide, by decide⟩, mem_singleton.mpr rfl⟩

/-- Records above the newest image of all lie in some layer. -/
def RetainsNewest (m : LayerMap) (records : Key → ℕ → Prop) (key : Key) : Prop :=
  ∀ lsn, records key lsn →
    (∀ i ∈ m.iterHistoricLayers, i.isDelta = false → i.Covers key → i.lsnStart < lsn) →
    ∃ l, m.Located key lsn l

/-- A delta layer that begins at LSN 0. -/
def zeroMap : LayerMap := ofLayers [] [sampleDelta 0 9] (pairwise_singleton _ _) (by decide)

/-- The layer is visited again and again: the search below 0 wraps around. -/
theorem walk_zeroMap (fuel : ℕ) {lsn : ℕ} (hlsn : lsn = 6 ∨ lsn = 0) :
    zeroMap.walk .min fuel lsn = none := by
  have hnext (fuel : ℕ) : zeroMap.walk .min (fuel + 1) lsn =
      (zeroMap.walk .min fuel 0).map (⟨.persistentLayer (sampleDelta 0 9), 0, lsn⟩ :: ·) := by
    rcases hlsn with rfl | rfl <;> rfl
  induction fuel generalizing lsn with
  | zero => rfl
  | succ fuel ih =>
    rw [hnext, ih (.inr rfl) fun fuel ↦ rfl]
    rfl

/-- A layer of keys that the packing moves. -/
def packedDelta : PersistentLayerDesc :=
  ⟨⟨⟨0, 0xffff, 0, 0, 0, 1⟩, ⟨1, 0, 0, 0, 0, 0⟩, 10, 20⟩, true, by decide, nofun⟩

/-- Four things go wrong on arbitrary layer maps. Below the newest image, records that lie in no
layer are not found. A read does not end at a layer that begins at LSN 0. Among frozen layers that
are not in order, newer ones are passed by. And a key that the packing moves is searched
elsewhere. -/
theorem exists_not_complete :
    (∃ (m : LayerMap) (records : Key → ℕ → Prop), m.WellFormed ∧ m.Packs .min ∧
      m.HoldsRecords records (fun _ ↦ records) ∧ m.RetainsNewest records .min ∧
      records .min 300 ∧ (∀ i, ¬ m.ImageBelow .min 501 i) ∧ m.walk .min 502 501 = some []) ∧
    (∃ m : LayerMap, (∀ l, m.HoldsRecords (fun _ _ ↦ False) l) ∧
      m.RetainsNewest (fun _ _ ↦ False) .min ∧ m.inMemoryLayers = [] ∧
      ∀ fuel, m.walk .min fuel 6 = none) ∧
    (∃ (m : LayerMap) (held : ReadableLayer → Key → ℕ → Prop),
      m.HoldsRecords (fun _ lsn ↦ lsn = 25) held ∧ m.iterHistoricLayers = [] ∧
      (∀ i ∈ m.inMemoryLayers, 0 < i.startLsn ∧ i.startLsn < i.endLsnOrMax) ∧
      (∃ l, m.Located .min 25 l) ∧
      ∃ visits, m.walk .min 42 41 = some visits ∧ ∀ v ∈ visits, ¬ v.Reads held .min 25) ∧
    ∃ (m : LayerMap) (key : Key) (held : ReadableLayer → Key → ℕ → Prop),
      m.WellFormed ∧ key.isI128Representable = true ∧
      m.HoldsRecords (fun _ lsn ↦ lsn = 15) held ∧ (∀ i, ¬ m.ImageBelow key 41 i) ∧
      (∃ l, m.Located key 15 l) ∧ m.walk key 42 41 = some [] := by
  refine ⟨?_, ⟨zeroMap, fun _ _ _ _ _ h ↦ h.elim, fun _ h ↦ h.elim, rfl,
    fun fuel ↦ walk_zeroMap fuel (.inl rfl)⟩, ?_, ?_⟩
  · -- an image at 1000, and nothing of what was before
    let m := ofLayers [] [sampleImage 1000] (pairwise_singleton _ _) (by decide)
    have hmem {l : PersistentLayerDesc} (hl : l ∈ m.iterHistoricLayers) : l = sampleImage 1000 :=
      mem_singleton.mp hl
    have hdelta {d : PersistentLayerDesc} (hd : d ∈ m.iterHistoricLayers) (h : d.isDelta = true) :
        False := by
      rw [hmem hd] at h
      cases h
    refine ⟨m, fun _ lsn ↦ lsn = 300, ⟨fun _ hd h ↦ (hdelta hd h).elim,
      fun _ hd h ↦ (hdelta hd h).elim, nofun, nofun, .nil⟩,
      packs_min fun l hl ↦ hmem hl ▸ ⟨rfl, rfl⟩, fun _ _ _ _ h ↦ h, ?_, rfl, ?_, rfl⟩
    · rintro lsn rfl habove
      have := habove (sampleImage 1000) (mem_singleton.mpr rfl) rfl (min_covers _ rfl rfl)
      exact absurd this (by decide)
    · rintro i ⟨hi, -, -, hlt⟩
      rw [hmem hi] at hlt
      exact absurd hlt (by decide)
  · -- the last frozen layer is the older one
    refine ⟨ofLayers [⟨20, some 30⟩, ⟨10, some 20⟩] [] .nil (by decide),
      fun l key lsn ↦ l.InRange key lsn, fun l key lsn hl _ ↦ hl.1, rfl, by decide,
      ⟨.inMemoryLayer ⟨20, some 30⟩, ⟨by decide, by decide⟩, mem_cons_self⟩,
      [⟨.inMemoryLayer ⟨10, some 20⟩, 10, 41⟩], rfl, fun v hv hreads ↦ ?_⟩
    rw [mem_singleton.mp hv] at hreads
    exact absurd hreads.1.2 (by decide)
  · -- the packed key lies in front of the layer
    let m := ofLayers [] [packedDelta] (pairwise_singleton _ _) (by decide)
    have hmem {l : PersistentLayerDesc} (hl : l ∈ m.iterHistoricLayers) : l = packedDelta :=
      mem_singleton.mp hl
    refine ⟨m, ⟨0, 0xffffffff, 0, 0, 0, 0⟩, fun _ _ _ ↦ True,
      ⟨nofun, fun d' hd _ ↦ hmem hd ▸ by decide, nofun, nofun, .nil⟩, rfl,
      fun _ _ _ _ _ ↦ trivial, ?_, ?_, by decide +kernel⟩
    · rintro i ⟨hi, himage, -⟩
      rw [hmem hi] at himage
      cases himage
    · exact ⟨.persistentLayer packedDelta, ⟨by decide, by decide, by decide⟩,
        mem_singleton.mpr rfl, rfl⟩

end Indexed.LayerMap

end NeonStorage.Pageserver
