import NeonStorage.Pageserver.CompactKey
import NeonStorage.Pageserver.LayerMap.Coverage
import NeonStorage.Pageserver.LayerMap.Select

/-!
# The layer map

The layer map gives its index the packed keys of the layers. `search` asks the index for a packed
key and has `select_layer` choose among what it finds and the newest layer in memory.

For keys that the packing keeps, the packed ranges of the layers have a key just if the layers cover
it (`covers_iff_hasKey`). For others the two differ.
-/

namespace NeonStorage.Pageserver.Indexed

open Coverage List

/-- `LayerKey::from`. -/
def layerKey (l : PersistentLayerDesc) : LayerKey :=
  ⟨(l.keyStart.toI128, l.keyEnd.toI128), (l.lsnStart, l.lsnEnd), !l.isDelta⟩

/-- The layer map: the layers on disk are those in the index, under their keys, and `to_i128` has
accepted their bounds. -/
structure LayerMap where
  openLayer : Option InMemoryLayer
  frozenLayers : List InMemoryLayer
  historic : SortedMap LayerKey PersistentLayerDesc
  key_eq : ∀ e ∈ historic.entries, e.1 = layerKey e.2
  representable : ∀ e ∈ historic.entries,
    e.2.keyStart.isI128Representable ∧ e.2.keyEnd.isI128Representable

namespace LayerMap

variable (m : LayerMap)

/-- The coverage at an LSN; the index is the one that is built from scratch. -/
def getVersion (lsn : ℕ) : Option (Coverage.LayerCoverageTuple PersistentLayerDesc) :=
  (Coverage.HistoricLayerCoverage.build m.historic.entries).bind (·.getVersion lsn)

def searchInMemoryLayer (below : ℕ) : Option InMemoryLayer :=
  match m.openLayer.filter fun l ↦ l.startLsn < below with
  | some l => some l
  | none => m.frozenLayers.reverse.find? fun l ↦ l.startLsn < below

/-- The result for a layer in memory that is read as a whole. -/
def inMemoryResult (l : InMemoryLayer) : SearchResult := ⟨.inMemoryLayer l, l.startLsn⟩

/-- `LayerMap::search`; no result at all is the failed assertion of `to_i128`. -/
def search (key : Key) (endLsn : ℕ) : Option (Option SearchResult) :=
  let inMemoryLayer := m.searchInMemoryLayer endLsn
  match m.getVersion (lsnPred endLsn) with
  | none => some (inMemoryLayer.map inMemoryResult)
  | some version =>
    if key.isI128Representable then
      let latestDelta := version.deltaCoverage.query key.toI128
      let latestImage := version.imageCoverage.query key.toI128
      some (Pageserver.LayerMap.selectLayer latestDelta latestImage inMemoryLayer endLsn)
    else none

theorem exists_build : ∃ h, Coverage.HistoricLayerCoverage.build m.historic.entries = some h :=
  Coverage.HistoricLayerCoverage.exists_build (BufferedHistoricLayerCoverage.sorted_lsn m.historic)

/-- The coverage at an LSN is that by the layers which begin at or below it, if there are any. -/
theorem getVersion_eq (lsn : ℕ) :
    m.getVersion lsn = Coverage.HistoricLayerCoverage.versionAt m.historic.entries lsn := by
  obtain ⟨h, hh⟩ := m.exists_build
  rw [getVersion, hh]
  exact Coverage.HistoricLayerCoverage.getVersion_build
    (BufferedHistoricLayerCoverage.sorted_lsn m.historic) hh lsn

/-! ### The candidates of a search -/

def iterHistoricLayers : List PersistentLayerDesc := m.historic.entries.map Prod.snd

/-- The latest layer of a kind at a packed key, among those that begin at or below an LSN. -/
def latest (isImage : Bool) (x : ℤ) (lsn : ℕ) : Option PersistentLayerDesc :=
  ((Coverage.LayerCoverageTuple.ofLayers
    (m.historic.entries.filter (·.1.lsn.1 ≤ lsn))).coverage isImage).query x

theorem search_eq_some {key : Key} {endLsn : ℕ} {r : Option SearchResult}
    (h : m.search key endLsn = some r) :
    r = Pageserver.LayerMap.selectLayer (m.latest false key.toI128 (lsnPred endLsn))
      (m.latest true key.toI128 (lsnPred endLsn)) (m.searchInMemoryLayer endLsn) endLsn := by
  unfold search at h
  rw [getVersion_eq, Coverage.HistoricLayerCoverage.versionAt] at h
  unfold latest
  cases hup : m.historic.entries.filter (·.1.lsn.1 ≤ lsnPred endLsn) with
  | nil =>
    simp only [hup] at h
    rw [← Option.some.inj h]
    cases m.searchInMemoryLayer endLsn <;> rfl
  | cons l ls =>
    simp only [hup] at h
    split_ifs at h
    exact (Option.some.inj h).symm

theorem search_eq {key : Key} (hkey : key.isI128Representable = true) (endLsn : ℕ) :
    m.search key endLsn = some (Pageserver.LayerMap.selectLayer
      (m.latest false key.toI128 (lsnPred endLsn)) (m.latest true key.toI128 (lsnPred endLsn))
      (m.searchInMemoryLayer endLsn) endLsn) := by
  obtain ⟨r, hr⟩ : ∃ r, m.search key endLsn = some r := by
    unfold search
    dsimp only
    split
    · exact ⟨_, rfl⟩
    · exact ⟨_, if_pos hkey⟩
  rw [hr, m.search_eq_some hr]

def HasKey (l : PersistentLayerDesc) (x : ℤ) : Prop := InRange (layerKey l).key x

/-- What is known of the latest layer. -/
structure Latest (isImage : Bool) (x : ℤ) (lsn : ℕ) (l : PersistentLayerDesc) : Prop where
  mem : l ∈ m.iterHistoricLayers
  isDelta_eq : l.isDelta = !isImage
  hasKey : HasKey l x
  lsnStart_le : l.lsnStart ≤ lsn
  lsnEnd_le : ∀ l' ∈ m.iterHistoricLayers, l'.isDelta = !isImage → HasKey l' x → l'.lsnStart ≤ lsn →
    l'.lsnEnd ≤ l.lsnEnd
  first : ∀ l' ∈ m.iterHistoricLayers, l'.isDelta = !isImage → HasKey l' x → l'.lsnStart ≤ lsn →
    l.lsnEnd ≤ l'.lsnEnd → l' = l ∨ layerKey l < layerKey l'

variable {m} {isImage : Bool} {x : ℤ} {lsn : ℕ} {l : PersistentLayerDesc}

theorem mem_iterHistoricLayers :
    l ∈ m.iterHistoricLayers ↔ (layerKey l, l) ∈ m.historic.entries := by
  refine mem_map.trans ⟨?_, fun h ↦ ⟨_, h, rfl⟩⟩
  rintro ⟨e, he, rfl⟩
  rw [← m.key_eq e he]
  exact he

theorem sorted_iterHistoricLayers : m.iterHistoricLayers.Pairwise (layerKey · < layerKey ·) := by
  refine pairwise_map.mpr (m.historic.sorted.imp_of_mem fun {e e'} he he' h ↦ ?_)
  rwa [← m.key_eq e he, ← m.key_eq e' he']

/-- The layers of a kind that have the packed key and begin at or below the LSN. -/
def candidates (m : LayerMap) (isImage : Bool) (x : ℤ) (lsn : ℕ) :
    List (Coverage.Layer PersistentLayerDesc) :=
  m.historic.entries.filter fun e ↦
    (e.1.isImage = isImage ∧ InRange e.1.key x) ∧ e.1.lsn.1 ≤ lsn

theorem latest_eq :
    m.latest isImage x lsn = ((m.candidates isImage x lsn).argmax (·.1.lsn.2)).map Prod.snd := by
  rw [latest, Coverage.LayerCoverageTuple.query_ofLayers, filter_filter, candidates]
  simp only [Bool.decide_and]

theorem mem_candidates {e : Coverage.Layer PersistentLayerDesc} : e ∈ m.candidates isImage x lsn ↔
      e.1 = layerKey e.2 ∧ e.2 ∈ m.iterHistoricLayers ∧ e.2.isDelta = !isImage ∧ HasKey e.2 x ∧
        e.2.lsnStart ≤ lsn := by
  rw [candidates, mem_filter, decide_eq_true_eq]
  constructor
  · rintro ⟨he, ⟨himage, hin⟩, hlsn⟩
    have hkey := m.key_eq e he
    rw [hkey] at himage hin hlsn
    refine ⟨hkey, mem_map_of_mem he, ?_, hin, hlsn⟩
    rw [← himage]
    exact (Bool.not_not _).symm
  · rintro ⟨hkey, hmem, hdelta, hin, hlsn⟩
    rw [hkey]
    refine ⟨?_, ⟨?_, hin⟩, hlsn⟩
    · have := mem_iterHistoricLayers.mp hmem
      rwa [← hkey] at this
    · simp [layerKey, hdelta]

theorem sorted_candidates : (m.candidates isImage x lsn).Pairwise (·.1 < ·.1) :=
  m.historic.sorted.filter _

theorem mem_candidates_of_mem (hl : l ∈ m.iterHistoricLayers) (hdelta : l.isDelta = !isImage)
    (hkey : HasKey l x) (hlsn : l.lsnStart ≤ lsn) : (layerKey l, l) ∈ m.candidates isImage x lsn :=
  mem_candidates.mpr ⟨rfl, hl, hdelta, hkey, hlsn⟩

theorem latest_spec (h : m.latest isImage x lsn = some l) : m.Latest isImage x lsn l := by
  rw [latest_eq] at h
  obtain ⟨e, hmax, rfl⟩ := Option.map_eq_some_iff.mp h
  obtain ⟨hkey, hmem, hdelta, hin, hlsn⟩ := mem_candidates.mp (argmax_mem hmax)
  have hend : e.1.lsn.2 = e.2.lsnEnd := by rw [hkey]; rfl
  refine ⟨hmem, hdelta, hin, hlsn, fun l' hl' hd hi hs ↦ ?_, fun l' hl' hd hi hs hle ↦ ?_⟩
  · rw [← hend]
    exact le_of_mem_argmax (mem_candidates_of_mem hl' hd hi hs) hmax
  · rw [← hend] at hle
    rcases Coverage.rel_of_argmax sorted_candidates hmax (mem_candidates_of_mem hl' hd hi hs) hle
      with heq | hlt
    · exact .inl (congrArg Prod.snd heq)
    · right
      rw [← hkey]
      exact hlt

theorem latest_eq_none (h : m.latest isImage x lsn = none) : ∀ l ∈ m.iterHistoricLayers,
    l.isDelta = !isImage → HasKey l x → ¬ l.lsnStart ≤ lsn := by
  rw [latest_eq, Option.map_eq_none_iff, argmax_eq_none] at h
  intro l hl hd hi hs
  exact ne_nil_of_mem (mem_candidates_of_mem hl hd hi hs) h

/-! ### Versions -/

/-- If a layer begins at or below the LSN, there is a version, and it has the latest layers. -/
theorem exists_getVersion (h : ∃ l ∈ m.iterHistoricLayers, l.lsnStart ≤ lsn) :
    ∃ version, m.getVersion lsn = some version ∧
      ∀ isImage x, (version.coverage isImage).query x = m.latest isImage x lsn := by
  obtain ⟨l, hl, hle⟩ := h
  have hmem : (layerKey l, l) ∈ m.historic.entries.filter (·.1.lsn.1 ≤ lsn) :=
    mem_filter.mpr ⟨mem_iterHistoricLayers.mp hl, decide_eq_true hle⟩
  refine ⟨.ofLayers (m.historic.entries.filter (·.1.lsn.1 ≤ lsn)), ?_, fun _ _ ↦ rfl⟩
  rw [getVersion_eq, Coverage.HistoricLayerCoverage.versionAt]
  cases hup : m.historic.entries.filter (·.1.lsn.1 ≤ lsn) with
  | nil => exact absurd (hup ▸ hmem) not_mem_nil
  | cons e es => rfl

theorem getVersion_eq_none (h : ∀ l ∈ m.iterHistoricLayers, lsn < l.lsnStart) :
    m.getVersion lsn = none := by
  have hnil : m.historic.entries.filter (·.1.lsn.1 ≤ lsn) = [] := by
    refine filter_eq_nil_iff.mpr fun e he ↦ ?_
    have hlt := h e.2 (mem_map_of_mem he)
    rw [m.key_eq e he]
    exact fun hle ↦ hlt.not_ge (of_decide_eq_true hle)
  rw [getVersion_eq, Coverage.HistoricLayerCoverage.versionAt, hnil]

/-! ### Layers in memory -/

/-- The frozen layers and the open one; a well-formed map has them from the oldest to the newest. -/
def inMemoryLayers (m : LayerMap) : List InMemoryLayer := m.frozenLayers ++ m.openLayer.toList

theorem searchInMemoryLayer_eq (m : LayerMap) (below : ℕ) : m.searchInMemoryLayer below =
      m.inMemoryLayers.reverse.find? fun l ↦ decide (l.startLsn < below) := by
  unfold searchInMemoryLayer inMemoryLayers
  rw [reverse_append]
  cases m.openLayer with
  | none => rfl
  | some l => by_cases hl : l.startLsn < below <;> simp [Option.filter, hl]

theorem mem_of_searchInMemoryLayer {below : ℕ} {l : InMemoryLayer}
    (h : m.searchInMemoryLayer below = some l) : l ∈ m.inMemoryLayers ∧ l.startLsn < below := by
  rw [searchInMemoryLayer_eq] at h
  exact ⟨mem_reverse.mp (mem_of_find?_eq_some h), by simpa using List.find?_some h⟩

/-! ### Keys that the packing keeps -/

/-- With `x` the greatest packed key up to `key`, a layer covers the key just if its packed range
has `x`. The bounds of the layer have to fit, but it may end at `Key::MAX`. -/
theorem covers_iff_hasKey {key : Key} (hstart : l.keyStart.Fits)
    (hend : l.keyEnd.Fits ∨ l.keyEnd = .max) (hx : x < Key.max.toI128) (hkey : key < .max)
    (hfloor : ∀ y, 0 ≤ y → y < 2 ^ 127 → (Key.fromI128 y ≤ key ↔ y ≤ x)) :
    l.Covers key ↔ HasKey l x := by
  have hstart_iff := hfloor _ l.keyStart.toI128_nonneg l.keyStart.toI128_lt
  have hend_iff := hfloor _ l.keyEnd.toI128_nonneg l.keyEnd.toI128_lt
  refine and_congr ?_ ?_
  · rw [hstart] at hstart_iff
    exact hstart_iff
  · rcases hend with hend | hend
    · rw [hend] at hend_iff
      rw [← not_le, ← not_le]
      exact not_congr hend_iff
    · refine iff_of_true (hend ▸ hkey) ?_
      change x < l.keyEnd.toI128
      rwa [hend]

/-! ### Layer maps from lists -/

/-- A layer map with layers on disk, and frozen layers in memory. -/
def ofLayers (frozenLayers : List InMemoryLayer) (layers : List PersistentLayerDesc)
    (sorted : layers.Pairwise (layerKey · < layerKey ·)) (representable : ∀ l ∈ layers,
      l.keyStart.isI128Representable ∧ l.keyEnd.isI128Representable) : LayerMap where
  openLayer := none
  frozenLayers := frozenLayers
  historic := ⟨layers.map fun l ↦ (layerKey l, l), pairwise_map.mpr sorted⟩
  key_eq := by
    intro e he
    obtain ⟨l, -, rfl⟩ := mem_map.mp he
    rfl
  representable := by
    intro e he
    obtain ⟨l, hl, rfl⟩ := mem_map.mp he
    exact representable l hl

end LayerMap

end NeonStorage.Pageserver.Indexed
