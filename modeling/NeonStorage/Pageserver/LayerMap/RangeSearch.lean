import NeonStorage.Pageserver.LayerMap.Indexed

/-!
# Searching the layer map for a range of keys

`range_search` finds for each key of a range what `search` finds for it, in one pass. It merges
the changes of the delta coverage and of the image coverage, and for each stretch between two
changes it gives the stretch to the layer that `select_layer` picks. The keys of a layer are
collected in a `KeySpaceAccum`, which asserts that they come in order.

Keys that the packing does not keep apart are the exception: the pass compares keys where `search`
compares packed keys (`rangeSearch_eq_search`, `rangeSearch_ne_search`).
-/

namespace NeonStorage.Pageserver.Indexed

open List Function Key
open Coverage

/-! ### Collecting key ranges -/

/-- `KeySpaceAccum`: the range that may still grow, and the ranges before it. -/
structure KeySpaceAccum where
  accum : Option (Key × Key)
  ranges : List (Key × Key)
  deriving DecidableEq

variable (a : KeySpaceAccum) (range : Key × Key)

namespace KeySpaceAccum

def new : KeySpaceAccum := ⟨none, []⟩

/-- `add_range`; no result is the failed assertion that the range comes after the others. -/
def addRange : Option KeySpaceAccum :=
  match a.accum with
  | some accum =>
    if range.1 = accum.2 then some { a with accum := some (accum.1, range.2) }
    else if range.1 > accum.2 then some ⟨some range, a.ranges ++ [accum]⟩
    else none
  | none => some { a with accum := some range }

def toKeyspace : List (Key × Key) := a.ranges ++ a.accum.toList

end KeySpaceAccum

/-- `RangeSearchResult::found`; a result that is not in the map has no ranges. -/
abbrev Found := SearchResult → KeySpaceAccum

/-- Add a range to the entry of a result, if there is one. -/
def Found.add (found : Found) (result : Option SearchResult) (range : Key × Key) : Option Found :=
  match result with
  | some r => ((found r).addRange range).map (update found r)
  | none => some found

/-! ### The collector -/

/-- A change of coverage: where, and the layer from there on. -/
abbrev Change := ℤ × Option PersistentLayerDesc

def rangeOverlaps (c : LayerCoverage PersistentLayerDesc) (keyRange : ℤ × ℤ) : List Change :=
  let rangeCoverage := c.range keyRange.1 keyRange.2
  match c.query keyRange.1 with
  | some change =>
    -- the change at the start of the range, if there is one, is not repeated
    let rest := if rangeCoverage.head?.any fun c ↦ decide (c.2 = some change)
      then rangeCoverage.tail else rangeCoverage
    (keyRange.1, some change) :: rest
  | none => rangeCoverage

structure Collector where
  inMemoryLayer : Option InMemoryLayer
  deltaCoverage : List Change
  imageCoverage : List Change
  keyRange : Key × Key
  endLsn : ℕ
  currentDelta : Option PersistentLayerDesc
  currentImage : Option PersistentLayerDesc
  found : Found

inductive NextLayerType where
  | delta (changeAt : ℤ)
  | image (changeAt : ℤ)
  | both (changeAt : ℤ)
  deriving DecidableEq

def NextLayerType.changeAt : NextLayerType → ℤ
  | delta x => x
  | image x => x
  | both x => x

def NextLayerType.nextChangeAtKey (t : NextLayerType) : Key := fromI128 t.changeAt

variable (c : Collector)

namespace Collector

def new (keyRange : Key × Key) (endLsn : ℕ) (inMemoryLayer : Option InMemoryLayer)
    (deltaCoverage imageCoverage : List Change) : Collector :=
  ⟨inMemoryLayer, deltaCoverage, imageCoverage, keyRange, endLsn, none, none, fun _ ↦ .new⟩

/-- The next change of coverage: the one at the lesser key, or both. -/
def chooseNextLayerType : Option NextLayerType :=
  match c.deltaCoverage.head?, c.imageCoverage.head? with
  | none, none => none
  | some d, none => some (.delta d.1)
  | none, some i => some (.image i.1)
  | some d, some i =>
    if i.1 < d.1 then some (.image i.1) else if d.1 <
      i.1 then some (.delta d.1) else some (.both d.1)

/-- Move to the next change of coverage. -/
def advance (t : NextLayerType) : Collector :=
  let delta (c : Collector) : Collector :=
    { c with
      currentDelta := c.deltaCoverage.head?.bind Prod.snd
      deltaCoverage := c.deltaCoverage.tail }
  let image (c : Collector) : Collector :=
    { c with
      currentImage := c.imageCoverage.head?.bind Prod.snd
      imageCoverage := c.imageCoverage.tail }
  match t with
  | .delta _ => delta c
  | .image _ => image c
  | .both _ => image (delta c)

/-- Map a range that no layer on disk covers to the layer in memory. -/
def padRange (c : Collector) (range : Key × Key) : Option Collector :=
  if range.1 < range.2 then
    (c.found.add (c.inMemoryLayer.map LayerMap.inMemoryResult) range).map ({ c with found := · })
  else some c

def addRange (coveredRange : Key × Key) : Option Collector :=
  let selected :=
    Pageserver.LayerMap.selectLayer c.currentDelta c.currentImage c.inMemoryLayer c.endLsn
  match selected with
  | some result => (c.found.add (some result) coveredRange).map ({ c with found := · })
  | none => c.padRange coveredRange

/-- The loop of `collect`; no result if an assertion fails or the fuel runs out. -/
def collectLoop : ℕ → Collector → Key → Option Found
  | 0, c, current => if current < c.keyRange.2 then none else some c.found
  | fuel + 1, c, current =>
    if current < c.keyRange.2 then
      match c.chooseNextLayerType with
      | some t => do
        let c ← c.addRange (current, t.nextChangeAtKey)
        collectLoop fuel (c.advance t) t.nextChangeAtKey
      | none => do
        let c ← c.addRange (current, c.keyRange.2)
        collectLoop fuel c c.keyRange.2
    else some c.found

/-- `collect`; each round but the last one consumes a change. -/
def collect : Option Found :=
  match c.chooseNextLayerType with
  | none => (c.padRange c.keyRange).map (·.found)
  | some t =>
    if c.keyRange.2 ≤ t.nextChangeAtKey then (c.padRange c.keyRange).map (·.found)
    else do
      let coverageStart := t.nextChangeAtKey
      let c ← c.padRange (c.keyRange.1, coverageStart)
      collectLoop (c.deltaCoverage.length + c.imageCoverage.length + 1) (c.advance t) coverageStart

end Collector

/-- `LayerMap::range_search`; no result is a failed assertion. -/
def LayerMap.rangeSearch (m : LayerMap) (keyRange : Key × Key) (endLsn : ℕ) : Option Found :=
  let inMemoryLayer := m.searchInMemoryLayer endLsn
  match m.getVersion (lsnPred endLsn) with
  | none =>
    -- `RangeSearchResult::map_to_in_memory_layer`
    Found.add (fun _ ↦ .new) (inMemoryLayer.map LayerMap.inMemoryResult) keyRange
  | some version =>
    if keyRange.1.isI128Representable && keyRange.2.isI128Representable then
      let rawRange := (keyRange.1.toI128, keyRange.2.toI128)
      let deltaChanges := rangeOverlaps version.deltaCoverage rawRange
      let imageChanges := rangeOverlaps version.imageCoverage rawRange
      (Collector.new keyRange endLsn inMemoryLayer deltaChanges imageChanges).collect
    else none

/-! ### Ranges in order -/

namespace KeySpaceAccum

def Covers (k : Key) : Prop := ∃ p ∈ a.toKeyspace, p.1 ≤ k ∧ k < p.2

/-- The ranges are not empty, come in order with gaps between them, and end at or below a key. -/
structure Below (a : KeySpaceAccum) (current : Key) : Prop where
  sorted : a.toKeyspace.Pairwise fun p q ↦ p.2 < q.1
  nonempty : ∀ p ∈ a.toKeyspace, p.1 < p.2
  le : ∀ p ∈ a.toKeyspace, p.2 ≤ current
  first : a.accum = none → a.ranges = []

theorem below_new (current : Key) : new.Below current :=
  ⟨.nil, by simp [new, toKeyspace], by simp [new, toKeyspace], fun _ ↦ rfl⟩

variable {a : KeySpaceAccum} {current next : Key}

theorem Below.mono (h : a.Below current) (hle : current ≤ next) : a.Below next :=
  ⟨h.sorted, h.nonempty, fun p hp ↦ (h.le p hp).trans hle, h.first⟩

theorem Below.not_covers (h : a.Below current) {k : Key} (hk : current ≤ k) : ¬ a.Covers k := by
  rintro ⟨p, hp, -, hlt⟩
  exact absurd hlt (((h.le p hp).trans hk).not_gt)

/-- What a new range does to the keys that are covered. -/
def Adds (a a' : KeySpaceAccum) (current next : Key) : Prop :=
  (∀ k, a'.Covers k ↔ a.Covers k ∨ current ≤ k ∧ k < next) ∧
    ∀ p ∈ a'.toKeyspace, p.1 = current ∨ ∃ q ∈ a.toKeyspace, q.1 = p.1

theorem Below.push (h : a.Below current) (hlt : current < next)
    (hgap : ∀ p ∈ a.toKeyspace, p.2 < current) : Below ⟨some (current, next), a.toKeyspace⟩ next ∧
      Adds a ⟨some (current, next), a.toKeyspace⟩ current next := by
  have hkeys : toKeyspace ⟨some (current, next), a.toKeyspace⟩ =
    a.toKeyspace ++ [(current, next)] :=
    rfl
  refine ⟨⟨?_, ?_, ?_, nofun⟩, fun k ↦ ?_, ?_⟩
  · exact hkeys ▸ pairwise_snoc.mpr ⟨h.sorted, hgap⟩
  · exact hkeys ▸ forall_mem_snoc.mpr ⟨h.nonempty, hlt⟩
  · exact hkeys ▸ forall_mem_snoc.mpr ⟨fun p hp ↦ (h.le p hp).trans hlt.le, le_rfl⟩
  · simp only [Covers, hkeys, mem_snoc, or_and_right, exists_or, exists_eq_left]
  · exact hkeys ▸ forall_mem_snoc.mpr ⟨fun p hp ↦ .inr ⟨p, hp, rfl⟩, .inl rfl⟩

theorem Below.extend {ranges : List (Key × Key)} {p : Key × Key}
    (h : Below ⟨some p, ranges⟩ p.2) (hlt : p.2 < next) : Below ⟨some (p.1, next), ranges⟩ next ∧
      Adds ⟨some p, ranges⟩ ⟨some (p.1, next), ranges⟩ p.2 next := by
  have hkeys (q : Key × Key) : toKeyspace ⟨some q, ranges⟩ = ranges ++ [q] := rfl
  obtain ⟨hnonempty, hp⟩ := forall_mem_snoc.mp h.nonempty
  obtain ⟨hle, -⟩ := forall_mem_snoc.mp h.le
  obtain ⟨hsorted, hlast⟩ := pairwise_snoc.mp h.sorted
  refine ⟨⟨?_, ?_, ?_, nofun⟩, fun k ↦ ?_, ?_⟩
  · exact pairwise_snoc.mpr ⟨hsorted, hlast⟩
  · exact forall_mem_snoc.mpr ⟨hnonempty, hp.trans hlt⟩
  · exact forall_mem_snoc.mpr ⟨fun q hq ↦ (hle q hq).trans hlt.le, le_rfl⟩
  · simp only [Covers, hkeys, mem_snoc, or_and_right, exists_or, exists_eq_left, or_assoc]
    refine or_congr_right ⟨fun ⟨h1, h2⟩ ↦ ?_, fun hk ↦ ?_⟩
    · rcases lt_or_ge k p.2 with hk | hk
      · exact .inl ⟨h1, hk⟩
      · exact .inr ⟨hk, h2⟩
    · rcases hk with ⟨h1, h2⟩ | ⟨h1, h2⟩
      · exact ⟨h1, h2.trans hlt⟩
      · exact ⟨hp.le.trans h1, h2⟩
  · exact forall_mem_snoc.mpr
      ⟨fun q hq ↦ .inr ⟨q, mem_append_left _ hq, rfl⟩, .inr ⟨p, mem_snoc_self, rfl⟩⟩

theorem Below.addRange (h : a.Below current) (hlt : current < next) :
    ∃ a', a.addRange (current, next) = some a' ∧ a'.Below next ∧ Adds a a' current next := by
  obtain ⟨accum, ranges⟩ := a
  cases accum with
  | none =>
    obtain rfl : ranges = [] := h.first rfl
    exact ⟨_, rfl, h.push hlt (by simp [toKeyspace])⟩
  | some p =>
    have hmem : p ∈ toKeyspace ⟨some p, ranges⟩ := mem_snoc_self
    rcases (h.le p hmem).lt_or_eq with hgap | heq
    · refine ⟨_, ?_, h.push hlt (forall_mem_snoc.mpr ⟨fun q hq ↦ ?_, hgap⟩)⟩
      · simp only [KeySpaceAccum.addRange, if_neg hgap.ne', if_pos (show current > p.2 from hgap)]
        rfl
      · have hqp := (pairwise_snoc.mp h.sorted).2 q hq
        exact hqp.trans ((h.nonempty p hmem).trans hgap)
    · subst heq
      exact ⟨_, if_pos rfl, h.extend hlt⟩

end KeySpaceAccum

/-! ### What has been found below a key -/

/-- Up to a key, each key that fits has been given to the result it is wanted for. -/
structure Found.Exact (want : Key → Option SearchResult) (start current : Key) (found : Found) :
    Prop where
  below : ∀ r, (found r).Below current
  ge : ∀ r, ∀ p ∈ (found r).toKeyspace, start ≤ p.1
  exact : ∀ k, k.Fits → start ≤ k → k < current → ∀ r, (found r).Covers k ↔ want k = some r

namespace Found

variable {want : Key → Option SearchResult} {start current next : Key} {found : Found}

theorem exact_new (want : Key → Option SearchResult) (start : Key) :
    Exact want start start fun _ ↦ .new where
  below _ := KeySpaceAccum.below_new start
  ge _ p hp := by simp [KeySpaceAccum.new, KeySpaceAccum.toKeyspace] at hp
  exact k _ hge hlt := absurd hlt hge.not_gt

theorem Exact.add (h : Exact want start current found) (hstart : start ≤ current)
    (hlt : current < next) {result : Option SearchResult}
    (hwant : ∀ k, k.Fits → current ≤ k → k < next → want k = result) :
    ∃ found', found.add result (current, next) = some found' ∧ Exact want start next found' := by
  cases result with
  | none =>
    refine ⟨found, rfl, fun r ↦ (h.below r).mono hlt.le, h.ge, fun k hfits hge hk r ↦ ?_⟩
    rcases lt_or_ge k current with hk' | hk'
    · exact h.exact k hfits hge hk' r
    · rw [hwant k hfits hk' hk]
      exact iff_of_false ((h.below r).not_covers hk') nofun
  | some r₀ =>
    obtain ⟨a, ha, hbelow, hcovers, hstarts⟩ := (h.below r₀).addRange hlt
    refine ⟨update found r₀ a, by rw [Found.add, ha]; rfl, fun r ↦ ?_, fun r p hp ↦ ?_,
      fun k hfits hge hk r ↦ ?_⟩
    · by_cases hr : r = r₀
      · rw [hr, update_self]
        exact hbelow
      · rw [update_of_ne hr]
        exact (h.below r).mono hlt.le
    · by_cases hr : r = r₀
      · rw [hr, update_self] at hp
        rcases hstarts p hp with hp | ⟨q, hq, hp⟩
        · exact hp ▸ hstart
        · exact hp ▸ h.ge r₀ q hq
      · rw [update_of_ne hr] at hp
        exact h.ge r p hp
    · by_cases hr : r = r₀
      · rw [hr, update_self, hcovers]
        rcases lt_or_ge k current with hk' | hk'
        · rw [or_iff_left fun hin ↦ hk'.not_ge hin.1]
          exact h.exact k hfits hge hk' r₀
        · exact iff_of_true (.inr ⟨hk', hk⟩) (hwant k hfits hk' hk)
      · rw [update_of_ne hr]
        rcases lt_or_ge k current with hk' | hk'
        · exact h.exact k hfits hge hk' r
        · rw [hwant k hfits hk' hk, Option.some.injEq]
          exact iff_of_false ((h.below r).not_covers hk') (Ne.symm hr)

theorem Exact.ranges (h : Exact want start current found) (r : SearchResult) :
    (found r).toKeyspace.Pairwise (fun p q ↦ p.2 < q.1) ∧
      ∀ p ∈ (found r).toKeyspace, start ≤ p.1 ∧ p.1 < p.2 ∧ p.2 ≤ current :=
  ⟨(h.below r).sorted, fun p hp ↦ ⟨h.ge r p hp, (h.below r).nonempty p hp, (h.below r).le p hp⟩⟩

end Found

/-! ### The loop -/

section Select

open Pageserver.LayerMap (selectLayer)

theorem selectLayer_none_none (inmem : Option InMemoryLayer) (endLsn : ℕ) :
    selectLayer none none inmem endLsn = inmem.map LayerMap.inMemoryResult := by
  cases inmem <;> rfl

theorem inmem_eq_none_of_selectLayer {delta image : Option PersistentLayerDesc}
    {inmem : Option InMemoryLayer} {endLsn : ℕ} (h : selectLayer delta image inmem endLsn = none) :
    inmem = none := by
  rcases delta with _ | delta <;> rcases image with _ | image <;> rcases inmem with _ | inmem <;>
    first | rfl | cases h

end Select

variable {changes : List Change}

namespace Collector

open Pageserver.LayerMap (selectLayer)
open Staircase (follow)

variable {c c' : Collector} {t : NextLayerType} {want : Key → Option SearchResult}
  {start current : Key}

/-- The layer that is selected at a packed key, from the changes that are left. -/
def selectedAt (c : Collector) (x : ℤ) : Option SearchResult :=
  selectLayer (follow c.currentDelta c.deltaCoverage x) (follow c.currentImage c.imageCoverage x)
    c.inMemoryLayer c.endLsn

/-- Everything but what has been found is the same. -/
def setFound (c : Collector) (found : Found) : Collector := { c with found }

theorem addRange_eq : c.addRange range = (c.found.add
      (selectLayer c.currentDelta c.currentImage c.inMemoryLayer c.endLsn) range).map
        c.setFound := by
  rw [addRange]
  cases h : selectLayer c.currentDelta c.currentImage c.inMemoryLayer c.endLsn with
  | some r => rfl
  | none =>
    obtain ⟨inmem, delta, image, keyRange, lsn, cd, ci, found⟩ := c
    obtain rfl : inmem = none := inmem_eq_none_of_selectLayer h
    unfold padRange
    split_ifs <;> rfl

/-- What one coverage has left after all changes up to a packed key. -/
structure Passed (d : Option PersistentLayerDesc) (changes : List Change) (x : ℤ)
    (d' : Option PersistentLayerDesc) (changes' : List Change) : Prop where
  ge : ∀ y ∈ changes, x ≤ y.1
  sorted : changes'.Pairwise (·.1 < ·.1)
  mem : ∀ y ∈ changes', y ∈ changes ∧ x < y.1
  follow_eq : ∀ z, x ≤ z → follow d' changes' z = follow d changes z

variable {d : Option PersistentLayerDesc}

theorem passed_cons {y : Change}
    (hs : (y :: changes).Pairwise (·.1 < ·.1)) : Passed d (y :: changes) y.1 y.2 changes := by
  obtain ⟨hlt, hs⟩ := pairwise_cons.mp hs
  refine ⟨fun z hz ↦ ?_, hs, fun z hz ↦ ⟨mem_cons_of_mem y hz, hlt z hz⟩, fun z hz ↦ ?_⟩
  · rcases mem_cons.mp hz with rfl | hz
    · exact le_rfl
    · exact (hlt z hz).le
  · exact (if_pos hz).symm

variable {x : ℤ}

theorem passed_of_lt (hs : changes.Pairwise (·.1 < ·.1))
    (hlt : ∀ y ∈ changes, x < y.1) : Passed d changes x d changes :=
  ⟨fun y hy ↦ (hlt y hy).le, hs, fun y hy ↦ ⟨hy, hlt y hy⟩, fun _ _ ↦ rfl⟩

theorem lt_of_lt_head {y : Change} (hs : (y :: changes).Pairwise (·.1 < ·.1))
    (hlt : x < y.1) : ∀ z ∈ y :: changes, x < z.1 := by
  intro z hz
  rcases mem_cons.mp hz with rfl | hz
  · exact hlt
  · exact hlt.trans ((pairwise_cons.mp hs).1 z hz)

/-- The state after the next change, which is the lowest one of those left. -/
structure Advanced (c : Collector) (x : ℤ) (c' : Collector) : Prop where
  delta : Passed c.currentDelta c.deltaCoverage x c'.currentDelta c'.deltaCoverage
  image : Passed c.currentImage c.imageCoverage x c'.currentImage c'.imageCoverage
  change : ∃ y, (y ∈ c.deltaCoverage ∨ y ∈ c.imageCoverage) ∧ y.1 = x
  length : c'.deltaCoverage.length + c'.imageCoverage.length <
    c.deltaCoverage.length + c.imageCoverage.length
  rest : c'.inMemoryLayer = c.inMemoryLayer ∧ c'.endLsn = c.endLsn ∧ c'.keyRange = c.keyRange ∧
    c'.found = c.found

theorem advanced (hdelta : c.deltaCoverage.Pairwise (·.1 < ·.1))
    (himage : c.imageCoverage.Pairwise (·.1 < ·.1)) (h : c.chooseNextLayerType = some t) :
    c.Advanced t.changeAt (c.advance t) := by
  obtain ⟨inmem, delta, image, range, lsn, cd, ci, found⟩ := c
  rcases delta with _ | ⟨d, delta⟩ <;> rcases image with _ | ⟨i, image⟩
  · cases h
  · cases h
    exact ⟨passed_of_lt .nil (by simp), passed_cons himage, ⟨i, .inr mem_cons_self, rfl⟩,
      by simp [advance], rfl, rfl, rfl, rfl⟩
  · cases h
    exact ⟨passed_cons hdelta, passed_of_lt .nil (by simp), ⟨d, .inl mem_cons_self, rfl⟩,
      by simp [advance], rfl, rfl, rfl, rfl⟩
  · simp only [chooseNextLayerType, List.head?_cons] at h
    split_ifs at h with hid hdi
    · cases h
      exact ⟨passed_of_lt hdelta (lt_of_lt_head hdelta hid), passed_cons himage,
        ⟨i, .inr mem_cons_self, rfl⟩, by simp [advance], rfl, rfl, rfl, rfl⟩
    · cases h
      exact ⟨passed_cons hdelta, passed_of_lt himage (lt_of_lt_head himage hdi),
        ⟨d, .inl mem_cons_self, rfl⟩, by simp [advance], rfl, rfl, rfl, rfl⟩
    · cases h
      have heq : i.1 = d.1 := le_antisymm (le_of_not_gt hdi) (le_of_not_gt hid)
      have hi := passed_cons (d := ci) himage
      rw [heq] at hi
      exact ⟨passed_cons hdelta, hi, ⟨d, .inl mem_cons_self, rfl⟩,
        by simp [advance]; omega, rfl, rfl, rfl, rfl⟩

theorem Advanced.selectedAt_eq (h : c.Advanced x c') {z : ℤ} (hz : x ≤ z) :
    c'.selectedAt z = c.selectedAt z := by
  rw [selectedAt, selectedAt, h.delta.follow_eq z hz, h.image.follow_eq z hz, h.rest.1, h.rest.2.1]

theorem selectedAt_of_lt (hdelta : ∀ y ∈ c.deltaCoverage, x < y.1)
    (himage : ∀ y ∈ c.imageCoverage, x < y.1) :
    c.selectedAt x = selectLayer c.currentDelta c.currentImage c.inMemoryLayer c.endLsn := by
  rw [selectedAt, Staircase.follow_of_lt hdelta, Staircase.follow_of_lt himage]

/-- The changes that are left are in order, later than a packed key and inside of the key range. -/
structure Ahead (c : Collector) (x : ℤ) : Prop where
  delta_sorted : c.deltaCoverage.Pairwise (·.1 < ·.1)
  image_sorted : c.imageCoverage.Pairwise (·.1 < ·.1)
  gt : ∀ y, y ∈ c.deltaCoverage ∨ y ∈ c.imageCoverage → x < y.1
  inside : ∀ y, y ∈ c.deltaCoverage ∨ y ∈ c.imageCoverage →
    0 ≤ y.1 ∧ y.1 < 2 ^ 127 ∧ fromI128 y.1 < c.keyRange.2

namespace Ahead

variable {x : ℤ} {k : Key}

theorem fits (h : c.Ahead x) (ht : c.chooseNextLayerType = some t) :
    t.nextChangeAtKey.Fits ∧ t.nextChangeAtKey.toI128 = t.changeAt ∧
      t.nextChangeAtKey < c.keyRange.2 ∧ x < t.changeAt := by
  obtain ⟨y, hy, hyt⟩ := (advanced h.delta_sorted h.image_sorted ht).change
  obtain ⟨h0, hlt, hend⟩ := h.inside y hy
  have hgt := h.gt y hy
  rw [hyt] at h0 hlt hend hgt
  exact ⟨fits_fromI128 h0 hlt, toI128_fromI128 h0 hlt, hend, hgt⟩

theorem advance (h : c.Ahead x) (ht : c.chooseNextLayerType = some t) :
    (c.advance t).Ahead t.changeAt := by
  have hadv := advanced h.delta_sorted h.image_sorted ht
  refine ⟨hadv.delta.sorted, hadv.image.sorted, fun y hy ↦ ?_, fun y hy ↦ ?_⟩
  · exact hy.elim (fun hy ↦ (hadv.delta.mem y hy).2) fun hy ↦ (hadv.image.mem y hy).2
  · rw [hadv.rest.2.2.1]
    exact h.inside y (hy.imp (fun hy ↦ (hadv.delta.mem y hy).1) fun hy ↦ (hadv.image.mem y hy).1)

theorem setFound (h : c.Ahead x) (found : Found) : (c.setFound found).Ahead x :=
  ⟨h.delta_sorted, h.image_sorted, h.gt, h.inside⟩

theorem selectedAt_of_lt (h : c.Ahead x) (ht : c.chooseNextLayerType = some t) (hk : k.Fits)
    (hlt : k < t.nextChangeAtKey) : c.selectedAt k.toI128 =
      selectLayer c.currentDelta c.currentImage c.inMemoryLayer c.endLsn := by
  have hadv := advanced h.delta_sorted h.image_sorted ht
  obtain ⟨hfits, hraw, -, -⟩ := h.fits ht
  rw [hk.lt_iff hfits, hraw] at hlt
  exact Collector.selectedAt_of_lt (fun y hy ↦ hlt.trans_le (hadv.delta.ge y hy))
    fun y hy ↦ hlt.trans_le (hadv.image.ge y hy)

theorem selectedAt_advance (h : c.Ahead x) (ht : c.chooseNextLayerType = some t) (hk : k.Fits)
    (hle : t.nextChangeAtKey ≤ k) : (c.advance t).selectedAt k.toI128 = c.selectedAt k.toI128 := by
  obtain ⟨hfits, hraw, -, -⟩ := h.fits ht
  rw [hfits.le_iff hk, hraw] at hle
  exact (advanced h.delta_sorted h.image_sorted ht).selectedAt_eq hle

end Ahead

theorem selectedAt_of_none (h : c.chooseNextLayerType = none) (x : ℤ) :
    c.selectedAt x = selectLayer c.currentDelta c.currentImage c.inMemoryLayer c.endLsn := by
  obtain ⟨inmem, delta, image, range, lsn, cd, ci, found⟩ := c
  rcases delta with _ | ⟨d, delta⟩ <;> rcases image with _ | ⟨i, image⟩
  · rfl
  · cases h
  · cases h
  · simp only [chooseNextLayerType, List.head?_cons] at h
    split_ifs at h

/-- From a change on, the loop gives each key to the result that is selected for it. -/
theorem collectLoop_spec {fuel : ℕ} (hahead : c.Ahead current.toI128) (hfits : current.Fits)
    (hstart : start ≤ current) (hlt : current < c.keyRange.2)
    (hexact : Found.Exact want start current c.found)
    (hwant : ∀ k : Key, k.Fits → current ≤ k → want k = c.selectedAt k.toI128)
    (hfuel : c.deltaCoverage.length + c.imageCoverage.length < fuel) :
    ∃ found, collectLoop fuel c current = some found ∧
      Found.Exact want start c.keyRange.2 found := by
  induction fuel generalizing c current with
  | zero => exact absurd hfuel (Nat.not_lt_zero _)
  | succ fuel ih =>
    rw [collectLoop, if_pos hlt]
    cases ht : c.chooseNextLayerType with
    | none =>
      obtain ⟨found, hadd, hfound⟩ := hexact.add hstart hlt fun k hk hle _ ↦
        (hwant k hk hle).trans (selectedAt_of_none ht _)
      refine ⟨found, ?_, hfound⟩
      have hend : collectLoop fuel (c.setFound found) c.keyRange.2 = some found := by
        cases fuel <;> exact if_neg (lt_irrefl c.keyRange.2)
      simp only [addRange_eq, hadd]
      exact hend
    | some t =>
      obtain ⟨hnext, hraw, hend, hgt⟩ := hahead.fits ht
      have hcn : current < t.nextChangeAtKey := (hfits.lt_iff hnext).mpr (hgt.trans_eq hraw.symm)
      obtain ⟨found, hadd, hfound⟩ := hexact.add hstart hcn fun k hk hle hlt ↦
        (hwant k hk hle).trans (hahead.selectedAt_of_lt ht hk hlt)
      have hahead' := hahead.setFound found
      have hadv := advanced hahead'.delta_sorted hahead'.image_sorted ht
      obtain ⟨-, -, hrange, hfound'⟩ := hadv.rest
      have hloop : ∃ found', collectLoop fuel ((c.setFound found).advance t) t.nextChangeAtKey =
          some found' ∧ Found.Exact want start
            ((c.setFound found).advance t).keyRange.2 found' := by
        refine ih ?_ hnext (hstart.trans hcn.le) ?_ ?_ (fun k hk hle ↦ ?_) ?_
        · rw [hraw]
          exact hahead'.advance ht
        · rw [hrange]
          exact hend
        · rw [hfound']
          exact hfound
        · rw [hahead'.selectedAt_advance ht hk hle]
          exact hwant k hk (hcn.le.trans hle)
        · exact Nat.lt_of_lt_of_le hadv.length (Nat.lt_succ_iff.mp hfuel)
      rw [hrange] at hloop
      obtain ⟨found', hrun, hexact'⟩ := hloop
      refine ⟨found', ?_, hexact'⟩
      simp only [addRange_eq, hadd]
      exact hrun

/-- **The collector gives each key of the range to the result that is selected for it.** -/
theorem collect_spec (hahead : c.Ahead (c.keyRange.1.toI128 - 1)) (hfits : c.keyRange.1.Fits)
    (hlt : c.keyRange.1 < c.keyRange.2) (hdelta : c.currentDelta = none)
    (himage : c.currentImage = none) (hnew : c.found = fun _ ↦ .new) :
    ∃ found, c.collect = some found ∧
      Found.Exact (fun k ↦ c.selectedAt k.toI128) c.keyRange.1 c.keyRange.2 found := by
  have hexact : Found.Exact (fun k ↦ c.selectedAt k.toI128) c.keyRange.1 c.keyRange.1 c.found :=
    hnew ▸ Found.exact_new _ _
  have hselect : selectLayer c.currentDelta c.currentImage c.inMemoryLayer c.endLsn =
      c.inMemoryLayer.map LayerMap.inMemoryResult := by
    rw [hdelta, himage]
    exact selectLayer_none_none _ _
  -- nothing is covered before the first change
  have hpad (next : Key) (hnext : c.keyRange.1 < next) (hall : ∀ k : Key, k.Fits → k < next →
      c.selectedAt k.toI128 =
        selectLayer c.currentDelta c.currentImage c.inMemoryLayer c.endLsn) :
      ∃ found, c.padRange (c.keyRange.1, next) = some (c.setFound found) ∧
        Found.Exact (fun k ↦ c.selectedAt k.toI128) c.keyRange.1 next found := by
    obtain ⟨found, hadd, hfound⟩ := hexact.add le_rfl hnext fun k hk _ hk' ↦
      (hall k hk hk').trans hselect
    refine ⟨found, ?_, hfound⟩
    rw [padRange, if_pos hnext, hadd]
    rfl
  rw [collect]
  cases ht : c.chooseNextLayerType with
  | none =>
    obtain ⟨found, hpad, hfound⟩ := hpad c.keyRange.2 hlt fun k _ _ ↦ selectedAt_of_none ht _
    exact ⟨found, by simp only [hpad]; rfl, hfound⟩
  | some t =>
    obtain ⟨hnext, hraw, hend, hgt⟩ := hahead.fits ht
    have hle : c.keyRange.1 ≤ t.nextChangeAtKey := by
      rw [hfits.le_iff hnext]
      omega
    -- up to the first change, the range is padded unless it is empty
    have hfirst : ∃ found, c.padRange (c.keyRange.1, t.nextChangeAtKey) = some (c.setFound found) ∧
        Found.Exact (fun k ↦ c.selectedAt k.toI128) c.keyRange.1 t.nextChangeAtKey found := by
      rcases hle.lt_or_eq with hlt | heq
      · exact hpad _ hlt fun k hk hk' ↦ hahead.selectedAt_of_lt ht hk hk'
      · exact ⟨c.found, if_neg heq.not_lt, heq ▸ hexact⟩
    obtain ⟨found, hpad, hfound⟩ := hfirst
    have hahead' := hahead.setFound found
    have hadv := advanced hahead'.delta_sorted hahead'.image_sorted ht
    obtain ⟨-, -, hrange, hfound'⟩ := hadv.rest
    have hloop : ∃ found', collectLoop (c.deltaCoverage.length + c.imageCoverage.length + 1)
        ((c.setFound found).advance t) t.nextChangeAtKey = some found' ∧
        Found.Exact (fun k ↦ c.selectedAt k.toI128) c.keyRange.1
          ((c.setFound found).advance t).keyRange.2 found' :=
      collectLoop_spec (hraw.symm ▸ hahead'.advance ht) hnext hle (hrange ▸ hend)
        (hfound' ▸ hfound) (fun k hk hle ↦ (hahead'.selectedAt_advance ht hk hle).symm)
        (hadv.length.trans (Nat.lt_succ_self _))
    rw [hrange] at hloop
    obtain ⟨found', hrun, hexact'⟩ := hloop
    refine ⟨found', ?_, hexact'⟩
    simp only [if_neg hend.not_ge, hpad]
    exact hrun

end Collector

/-! ### Range search and point search -/

open Staircase (follow)

variable {v : PersistentLayerDesc}

theorem follow_tail (hs : changes.Pairwise (·.1 < ·.1))
    (hv : changes.head?.any fun c ↦ decide (c.2 = some v)) (x : ℤ) :
    follow (some v) changes.tail x = follow (some v) changes x := by
  cases changes with
  | nil => cases hv
  | cons y changes =>
    have hy : y.2 = some v := of_decide_eq_true hv
    rw [follow, hy]
    split_ifs with hle
    · rfl
    · exact Staircase.follow_of_lt fun z hz ↦
        (lt_of_not_ge hle).trans ((pairwise_cons.mp hs).1 z hz)

theorem lt_of_mem_rest {c : LayerCoverage PersistentLayerDesc} {lo hi : ℤ}
    (hq : c.query lo = some v) {y : Change}
    (hy : y ∈ if (c.range lo hi).head?.any fun c ↦ decide (c.2 = some v)
      then (c.range lo hi).tail else c.range lo hi) : lo < y.1 ∧ y.1 < hi := by
  have hs : (c.range lo hi).Pairwise (·.1 < ·.1) := Staircase.range_sorted
  have hmem : ∀ z ∈ c.range lo hi, _ := fun z hz ↦ Staircase.of_mem_range hz
  revert hs hmem hy
  generalize c.range lo hi = changes
  intro hy hs hmem
  cases changes with
  | nil => simp at hy
  | cons z changes =>
    obtain ⟨hz, -⟩ := pairwise_cons.mp hs
    have htail (hy : y ∈ changes) : lo < y.1 ∧ y.1 < hi :=
      ⟨(hmem z mem_cons_self).1.trans_lt (hz y hy), (hmem y (mem_cons_of_mem z hy)).2.1⟩
    split_ifs at hy with hv
    · exact htail hy
    · rcases mem_cons.mp hy with rfl | hy
      · -- a change at the start of the range is to the layer that is seen there
        obtain ⟨hge, hlt, hquery⟩ := hmem y mem_cons_self
        refine ⟨lt_of_le_of_ne hge fun heq ↦ hv (decide_eq_true ?_), hlt⟩
        rw [← hquery, ← heq, hq]
      · exact htail hy

theorem rangeOverlaps_spec (c : LayerCoverage PersistentLayerDesc) (lo hi : ℤ) :
    (rangeOverlaps c (lo, hi)).Pairwise (·.1 < ·.1) ∧
      (∀ y ∈ rangeOverlaps c (lo, hi), y.1 = lo ∨ lo < y.1 ∧ y.1 < hi) ∧
      ∀ x, lo ≤ x → x < hi → follow none (rangeOverlaps c (lo, hi)) x = c.query x := by
  have hsorted : (c.range lo hi).Pairwise (·.1 < ·.1) := Staircase.range_sorted
  unfold rangeOverlaps
  cases hq : c.query lo with
  | none =>
    refine ⟨hsorted, fun y hy ↦ ?_, fun x hlo hhi ↦ ?_⟩
    · obtain ⟨hge, hlt, -⟩ := Staircase.of_mem_range hy
      exact hge.eq_or_lt.imp Eq.symm fun hgt ↦ ⟨hgt, hlt⟩
    · rw [Staircase.query_eq_follow hlo hhi, hq]
  | some v =>
    refine ⟨pairwise_cons.mpr ⟨fun y hy ↦ (lt_of_mem_rest hq hy).1, ?_⟩, fun y hy ↦ ?_,
      fun x hlo hhi ↦ ?_⟩
    · split_ifs
      · exact hsorted.sublist (tail_sublist _)
      · exact hsorted
    · rcases mem_cons.mp hy with rfl | hy
      · exact .inl rfl
      · exact .inr (lt_of_mem_rest hq hy)
    · rw [follow, if_pos hlo, Staircase.query_eq_follow hlo hhi, hq]
      split_ifs with hv
      · exact follow_tail hsorted hv x
      · rfl

namespace LayerMap

variable {start stop : Key}

theorem fromI128_lt_stop (hstop : stop.Fits ∨ stop = max) {x : ℤ} (h0 : 0 ≤ x)
    (hlt : x < stop.toI128) : fromI128 x < stop := by
  rcases hstop with hstop | rfl
  · rw [← hstop]
    exact fromI128_lt h0 hlt stop.toI128_lt
  · exact fromI128_lt_max h0

theorem ahead_new (version : Coverage.LayerCoverageTuple PersistentLayerDesc)
    (inmem : Option InMemoryLayer) (endLsn : ℕ) (hstart : start.Fits)
    (hstop : stop.Fits ∨ stop = max) (hlt : start < stop) :
    (Collector.new (start, stop) endLsn inmem
      (rangeOverlaps version.deltaCoverage (start.toI128, stop.toI128))
      (rangeOverlaps version.imageCoverage (start.toI128, stop.toI128))).Ahead
      (start.toI128 - 1) := by
  obtain ⟨hdelta, hdelta_mem, -⟩ :=
    rangeOverlaps_spec version.deltaCoverage start.toI128 stop.toI128
  obtain ⟨himage, himage_mem, -⟩ :=
    rangeOverlaps_spec version.imageCoverage start.toI128 stop.toI128
  have hmem (y : Change) (hy : y ∈ rangeOverlaps version.deltaCoverage (start.toI128, stop.toI128) ∨
      y ∈ rangeOverlaps version.imageCoverage (start.toI128, stop.toI128)) :=
    hy.elim (hdelta_mem y) (himage_mem y)
  have h0 := start.toI128_nonneg
  refine ⟨hdelta, himage, fun y hy ↦ ?_, fun y hy ↦ ?_⟩
  · rcases hmem y hy with h | ⟨h, -⟩ <;> omega
  · rcases hmem y hy with h | ⟨hge, hlt'⟩
    · rw [h, hstart]
      exact ⟨h0, start.toI128_lt, hlt⟩
    · exact ⟨h0.trans hge.le, hlt'.trans stop.toI128_lt,
        fromI128_lt_stop hstop (h0.trans hge.le) hlt'⟩

/-- **For keys that fit, range search gives each key of the range to what `search` finds for
it.** -/
theorem rangeSearch_eq_search (m : LayerMap) (hstart : start.Fits)
    (hstop : stop.Fits ∨ stop = max) (hlt : start < stop) (endLsn : ℕ) :
    ∃ found, m.rangeSearch (start, stop) endLsn = some found ∧
      (∀ r, (found r).toKeyspace.Pairwise (fun p q ↦ p.2 < q.1) ∧
        ∀ p ∈ (found r).toKeyspace, start ≤ p.1 ∧ p.1 < p.2 ∧ p.2 ≤ stop) ∧
      ∀ k : Key, k.Fits → start ≤ k → k.toI128 < stop.toI128 →
        ∃ result, m.search k endLsn = some result ∧ ∀ r, (found r).Covers k ↔ result = some r := by
  have hrep : stop.isI128Representable = true :=
    hstop.elim Key.Fits.isI128Representable fun h ↦ h ▸ by decide
  have hbelow {k : Key} (hk : k.Fits) (h : k.toI128 < stop.toI128) : k < stop :=
    hk ▸ fromI128_lt_stop hstop k.toI128_nonneg h
  cases hv : m.getVersion (lsnPred endLsn) with
  | none =>
    obtain ⟨found, hadd, hexact⟩ :=
      (Found.exact_new (fun _ ↦ (m.searchInMemoryLayer endLsn).map inMemoryResult) start).add
        le_rfl hlt fun _ _ _ _ ↦ rfl
    refine ⟨found, by simp only [rangeSearch, hv]; exact hadd, hexact.ranges,
      fun k hk hge hk' ↦ ⟨_, by simp only [search, hv], hexact.exact k hk hge (hbelow hk hk')⟩⟩
  | some version =>
    obtain ⟨found, hcollect, hexact⟩ := Collector.collect_spec
      (ahead_new version (m.searchInMemoryLayer endLsn) endLsn hstart hstop hlt) hstart
        hlt rfl rfl rfl
    refine ⟨found, ?_, hexact.ranges, fun k hk hge hk' ↦ ?_⟩
    · simp only [rangeSearch, hv, hstart.isI128Representable, hrep]
      exact hcollect
    · have hge' : start.toI128 ≤ k.toI128 := (hstart.le_iff hk).mp hge
      have hsearch : m.search k endLsn = some (Pageserver.LayerMap.selectLayer
          (version.deltaCoverage.query k.toI128) (version.imageCoverage.query k.toI128)
          (m.searchInMemoryLayer endLsn) endLsn) := by
        simp only [search, hv, hk.isI128Representable, if_true]
      refine ⟨_, hsearch, fun r ↦ ?_⟩
      rw [hexact.exact k hk hge (hbelow hk hk') r, Collector.selectedAt]
      simp only [Collector.new, (rangeOverlaps_spec _ _ _).2.2 _ hge' hk']

def between : Key := ⟨0, 0xffff, 5, 0, 0, 0⟩

def lower : PersistentLayerDesc := ⟨⟨min, between, 10, 20⟩, true, by decide, by decide⟩

def upper : PersistentLayerDesc :=
  ⟨⟨between, ⟨1, 0, 0, 0, 0, 0⟩, 10, 20⟩, true, by decide, by decide⟩

/-- Two delta layers side by side, and an open layer. -/
def sideBySide : LayerMap where
  openLayer := some ⟨20, none⟩
  frozenLayers := []
  historic := ⟨[lower, upper].map fun l ↦ (layerKey l, l), by decide⟩
  key_eq := by decide
  representable := by decide

theorem rangeSearch_sideBySide : ∃ found, sideBySide.rangeSearch (min, max) 20 = some found ∧
      (∀ r, (found r).toKeyspace.Pairwise (fun p q ↦ p.2 < q.1) ∧
        ∀ p ∈ (found r).toKeyspace, min ≤ p.1 ∧ p.1 < p.2 ∧ p.2 ≤ max) ∧
      ∀ k : Key, k.Fits → min ≤ k → k.toI128 < max.toI128 →
        ∃ result, sideBySide.search k 20 = some result ∧
          ∀ r, (found r).Covers k ↔ result = some r :=
  rangeSearch_eq_search sideBySide (by decide) (.inr rfl) (by decide) 20

/-- A key with a second field of all ones is above the key between the layers, but it is packed
below it: `search` reads it from the lower layer, and range search gives it to the upper one. -/
theorem rangeSearch_ne_search :
    ∃ m : LayerMap, ∃ start stop k : Key, start.Fits ∧ stop.Fits ∧ start ≤ k ∧ k < stop ∧
      k.isI128Representable ∧
      ∃ found, m.rangeSearch (start, stop) 20 = some found ∧
        m.search k 20 = some (some ⟨.persistentLayer lower, 10⟩) ∧
        ¬ (found ⟨.persistentLayer lower, 10⟩).Covers k ∧
        (found ⟨.persistentLayer upper, 10⟩).Covers k := by
  refine ⟨sideBySide, min, ⟨1, 0, 0, 0, 0, 0⟩, ⟨0, 0xffffffff, 0, 0, 0, 0⟩, by decide, by decide,
    by decide, by decide, by decide, _, rfl, by decide, ?_, ?_⟩
  · unfold KeySpaceAccum.Covers
    decide
  · unfold KeySpaceAccum.Covers
    decide

end LayerMap

end NeonStorage.Pageserver.Indexed
