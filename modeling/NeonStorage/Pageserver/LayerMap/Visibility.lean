import NeonStorage.Lib.RangeSet
import NeonStorage.Lib.Sweep
import NeonStorage.Pageserver.LayerMap.RangeSearch

/-!
# Visibility of layers

`get_visibility` finds the layers that no read needs, so that they may be evicted. It sweeps over
the layers and the read points from the highest LSN to the lowest. Image layers cast a shadow on
their keys, a read point takes the shadow away, and a delta layer whose keys all are in the shadow
is put off, since there may be a read point within its LSN range.

A layer that is reported as covered is never returned by the walk of a read from a read point, with
one exception. A delta layer that was put off is given up as soon as the sweep comes to a layer that
begins below it; this layer may end above a read point that still is within the range of the first
one (`getVisibility_iff`, `returns_covered_nested`).
-/

namespace NeonStorage.Pageserver.Indexed

open List RangeSet
open Coverage

/-! ### The shadow of the image layers -/

/-- `KeyShadow`: the packed keys that are covered. -/
structure KeyShadow where
  inner : RangeSet ℤ

variable (s : KeyShadow)

namespace KeyShadow

def new : KeyShadow := ⟨.empty⟩

/-- `contains`; no result is the assertion of the range set that the range is not empty. -/
def contains (s : KeyShadow) (range : Key × Key) : Option Bool :=
  if range.1.toI128 < range.2.toI128 then
    some (s.inner.contains range.1.toI128 range.2.toI128)
  else none

/-- `cover`; says whether some keys of the range were not covered before. -/
def cover (insert : Key × Key) : Bool × KeyShadow :=
  (decide (insert.1.toI128 < insert.2.toI128) &&
      !s.inner.contains insert.1.toI128 insert.2.toI128,
    ⟨s.inner.insert insert.1.toI128 insert.2.toI128⟩)

/-- `to_keyspace`; no result is the assertion of `KeySpaceAccum`. -/
def toKeyspace (s : KeyShadow) : Option (List (Key × Key)) :=
  (s.inner.ranges.foldlM
    (fun accum p ↦ KeySpaceAccum.addRange accum (Key.fromI128 p.1, Key.fromI128 p.2)) .new).map
      (·.toKeyspace)

end KeyShadow

/-! ### The sweep -/

inductive LayerVisibilityHint where
  | visible
  | covered
  deriving DecidableEq

open LayerVisibilityHint

inductive Item where
  | readPoint (lsn : ℕ)
  | layer (l : PersistentLayerDesc)
  deriving DecidableEq

open Item

namespace Item

/-- The sweep goes from the largest key to the smallest. -/
def sortKey : Item → ℕ ×ₗ ℕ
  | layer l => if l.isDelta then toLex (l.lsnEnd - 1, 0) else toLex (l.lsnStart, 1)
  | readPoint lsn => toLex (lsn, 2)

def reachedLsn : Item → ℕ
  | readPoint lsn => lsn
  | layer l => l.lsnStart

def isReadPoint : Item → Bool
  | readPoint _ => true
  | layer _ => false

/-- What an item says about a delta layer that has been put off. -/
def settle (item : Item) (d : PersistentLayerDesc) : Option LayerVisibilityHint :=
  if item.reachedLsn ≥ d.lsnStart ∧ item.isReadPoint then some visible
  else if item.reachedLsn < d.lsnStart then some covered
  else none

end Item

/-- The variables of the sweep. -/
structure VisibilitySweep where
  shadow : KeyShadow
  maybeCoveredDeltas : List PersistentLayerDesc
  results : List (PersistentLayerDesc × LayerVisibilityHint)

namespace VisibilitySweep

def new : VisibilitySweep := ⟨.new, [], []⟩

/-- `retain` on the delta layers that have been put off. -/
def retain (s : VisibilitySweep) (item : Item) : VisibilitySweep :=
  { s with
    maybeCoveredDeltas := s.maybeCoveredDeltas.filter fun d ↦ (item.settle d).isNone
    results := s.results ++ s.maybeCoveredDeltas.filterMap fun d ↦
      (item.settle d).map fun h ↦ (d, h) }

/-- One round of the sweep; no result is a failed assertion. -/
def step (s : VisibilitySweep) (item : Item) : Option VisibilitySweep :=
  let s := s.retain item
  match item with
  | .readPoint _ => some { s with shadow := .new }
  | .layer l =>
    if l.isDelta then
      (s.shadow.contains (l.keyStart, l.keyEnd)).map fun contained ↦
        if contained then { s with maybeCoveredDeltas := s.maybeCoveredDeltas ++ [l] }
        else { s with results := s.results ++ [(l, visible)] }
    else
      let (modified, shadow) := s.shadow.cover (l.keyStart, l.keyEnd)
      some { s with
        shadow
        results := s.results ++ [(l, if modified then visible else covered)] }

end VisibilitySweep

namespace LayerMap

/-- The layers and the read points in the order of the sweep. -/
def sweepItems (m : LayerMap) (readPoints : List ℕ) : List Item :=
  (m.iterHistoricLayers.map layer ++
    (readPoints.insertionSort (· ≤ ·)).map readPoint).insertionSort
      fun a b ↦ b.sortKey ≤ a.sortKey

/-- `LayerMap::get_visibility`; no result is a failed assertion. -/
def getVisibility (m : LayerMap) (readPoints : List ℕ) :
    Option (List (PersistentLayerDesc × LayerVisibilityHint) × List (Key × Key)) := do
  let s ← (m.sweepItems readPoints).foldlM VisibilitySweep.step .new
  let keyspace ← s.shadow.toKeyspace
  some (s.results ++ s.maybeCoveredDeltas.map fun d ↦ (d, covered), keyspace)

end LayerMap

/-! ### The results of the sweep -/

def Item.shade : Item → KeyShadow
  | .readPoint _ => .new
  | .layer l => if l.isDelta then s else (s.cover (l.keyStart, l.keyEnd)).2

def shadowAfter (items : List Item) : KeyShadow := items.foldl shade .new

/-- The verdict on a delta layer that was put off before some items. -/
abbrev verdict (d : PersistentLayerDesc) (items : List Item) : LayerVisibilityHint :=
  Sweep.verdict settle covered d items

/-- What is reported for a layer between some items before it and some after it. -/
def hint (before : List Item) (l : PersistentLayerDesc) (after : List Item) : LayerVisibilityHint :=
  let contained := (shadowAfter before).inner.contains l.keyStart.toI128 l.keyEnd.toI128
  if l.isDelta then
    if contained then verdict l after else visible
  else if decide (l.keyStart.toI128 < l.keyEnd.toI128) && !contained then visible else covered

/-- The report for an item between some items before it and some after it. -/
def report (before : List Item) (item : Item) (after : List Item) :
    List (PersistentLayerDesc × LayerVisibilityHint) :=
  match item with
  | .readPoint _ => []
  | .layer l => [(l, hint before l after)]

/-- The reports for some items that come after others. -/
def reports : List Item → List Item → List (PersistentLayerDesc × LayerVisibilityHint)
  | _, [] => []
  | before, item :: items => report before item items ++ reports (before ++ [item]) items

theorem shadowAfter_concat (items : List Item) (item : Item) :
    shadowAfter (items ++ [item]) = item.shade (shadowAfter items) := by
  rw [shadowAfter, foldl_append]
  rfl

variable {before items : List Item} {l : PersistentLayerDesc}

theorem mem_reports {h : LayerVisibilityHint} : (l, h) ∈ reports before items ↔
      ∃ a b, items = a ++ .layer l :: b ∧ h = hint (before ++ a) l b := by
  induction items generalizing before with
  | nil => simp [reports]
  | cons item items ih =>
    rw [reports, mem_append, ih]
    constructor
    · rintro (hmem | ⟨a, b, rfl, rfl⟩)
      · cases item with
        | readPoint lsn => cases hmem
        | layer l' =>
          cases mem_singleton.mp hmem
          exact ⟨[], items, rfl, by rw [append_nil]⟩
      · exact ⟨item :: a, b, rfl, by rw [append_assoc]; rfl⟩
    · rintro ⟨a, b, heq, rfl⟩
      cases a with
      | nil =>
        cases heq
        exact .inl (by rw [append_nil]; exact mem_singleton_self _)
      | cons i a =>
        cases heq
        exact .inr ⟨a, b, rfl, by rw [append_assoc]; rfl⟩

theorem map_fst_reports (before items : List Item) :
    (reports before items).map Prod.fst = items.filterMap fun
      | .readPoint _ => none
      | .layer l => some l := by
  induction items generalizing before with
  | nil => rfl
  | cons item items ih =>
    rw [reports, map_append, ih]
    cases item <;> rfl

/-- The packed key range of the layer is not empty. -/
def Packable (l : PersistentLayerDesc) : Prop := l.keyStart.toI128 < l.keyEnd.toI128
  deriving Decidable

theorem KeyShadow.contains_eq (h : Packable l) :
    s.contains (l.keyStart, l.keyEnd) = some (s.inner.contains l.keyStart.toI128 l.keyEnd.toI128) :=
  if_pos h

theorem KeyShadow.contains_eq_none (h : ¬ Packable l) : s.contains (l.keyStart, l.keyEnd) = none :=
  if_neg h

namespace VisibilitySweep

/-- The final results, if only some items are left and no layer is among them. -/
def finish (s : VisibilitySweep) (items : List Item) :
    List (PersistentLayerDesc × LayerVisibilityHint) :=
  s.results ++ s.maybeCoveredDeltas.map fun d ↦ (d, verdict d items)

theorem finish_retain (s : VisibilitySweep) (item : Item) (items : List Item) :
    ((s.retain item).finish items).Perm (s.finish (item :: items)) := by
  rw [finish, retain, append_assoc]
  exact (Sweep.verdict_perm item items s.maybeCoveredDeltas).symm.append_left _

theorem perm_results (t : VisibilitySweep) (shadow : KeyShadow)
    (rs : List (PersistentLayerDesc × LayerVisibilityHint)) (items : List Item) :
    (finish { t with shadow, results := t.results ++ rs } items).Perm (t.finish items ++ rs) := by
  simp only [finish, append_assoc]
  exact perm_append_comm.append_left _

variable {s : VisibilitySweep}

theorem step_spec {item : Item} (hshadow : s.shadow = shadowAfter before)
    (hpack : ∀ l, item = .layer l → l.isDelta = true → Packable l) :
    ∃ s', s.step item = some s' ∧ s'.shadow = shadowAfter (before ++ [item]) ∧
      ∀ items, (s'.finish items).Perm (s.finish (item :: items) ++ report before item items) := by
  have hretain (items : List Item) := finish_retain s item items
  have hshadow' : (s.retain item).shadow = shadowAfter before := hshadow
  rw [shadowAfter_concat, ← hshadow']
  unfold step
  generalize s.retain item = t at hretain hshadow'
  cases item with
  | readPoint lsn =>
    refine ⟨_, rfl, rfl, fun items ↦ ?_⟩
    rw [report, append_nil]
    exact hretain items
  | layer l =>
    dsimp only
    by_cases hdelta : l.isDelta = true
    · rw [if_pos hdelta, t.shadow.contains_eq (hpack l rfl hdelta), Option.map_some, shade,
        if_pos hdelta]
      refine ⟨_, rfl, by split_ifs <;> rfl, fun items ↦ ?_⟩
      rw [report, hint, hshadow']
      split_ifs
      · -- the layer is put off
        rw [finish, map_append, ← append_assoc]
        exact (hretain items).append_right _
      · exact (perm_results _ _ _ _).trans ((hretain items).append_right _)
    · rw [if_neg hdelta, shade, if_neg hdelta]
      refine ⟨_, rfl, rfl, fun items ↦ ?_⟩
      rw [report, hint, if_neg hdelta, ← hshadow']
      exact (perm_results _ _ _ _).trans ((hretain items).append_right _)

theorem foldlM_step (hshadow : s.shadow = shadowAfter before)
    (hpack : ∀ l, .layer l ∈ items → l.isDelta = true → Packable l) :
    ∃ s', items.foldlM step s = some s' ∧ s'.shadow = shadowAfter (before ++ items) ∧
      (s'.finish []).Perm (s.finish items ++ reports before items) := by
  induction items generalizing s before with
  | nil => exact ⟨s, rfl, by rw [hshadow, append_nil], by rw [reports, append_nil]⟩
  | cons item items ih =>
    obtain ⟨s₁, hstep, hshadow₁, hperm₁⟩ := step_spec hshadow fun l hl ↦
      hpack l (hl ▸ mem_cons_self)
    obtain ⟨s', hrun, hshadow', hperm⟩ := ih hshadow₁ fun l hl ↦ hpack l (mem_cons_of_mem _ hl)
    refine ⟨s', ?_, ?_, ?_⟩
    · rw [foldlM_cons, hstep]
      exact hrun
    · rw [hshadow', append_assoc]
      rfl
    · rw [reports, ← append_assoc]
      exact hperm.trans ((hperm₁ items).append_right _)

/-- A delta layer with an empty packed key range fails the assertion of the range set. -/
theorem foldlM_step_eq_none (hl : .layer l ∈ items)
    (hdelta : l.isDelta = true) (hpack : ¬ Packable l) : items.foldlM step s = none := by
  obtain ⟨a, b, rfl⟩ := append_of_mem hl
  rw [foldlM_append]
  cases a.foldlM step s with
  | none => rfl
  | some t =>
    have hstep : t.step (.layer l) = none := by
      unfold step
      dsimp only
      rw [if_pos hdelta, KeyShadow.contains_eq_none _ hpack]
      rfl
    rw [Option.bind_eq_bind, Option.bind_some, foldlM_cons, hstep]
    rfl

end VisibilitySweep

/-! ### The shadow as a set of keys -/

theorem exists_foldlM_addRange {ranges : List (ℤ × ℤ)} {accum : KeySpaceAccum} {x : ℤ}
    (hne : ∀ p ∈ ranges, p.1 < p.2) (hs : ranges.Pairwise fun p q ↦ p.2 < q.1)
    (hbound : ∀ p ∈ ranges, x ≤ p.1 ∧ p.2 < 2 ^ 127) (h0 : 0 ≤ x)
    (haccum : accum.Below (Key.fromI128 x)) : ∃ accum', ranges.foldlM
      (fun accum p ↦ KeySpaceAccum.addRange accum (Key.fromI128 p.1, Key.fromI128 p.2)) accum =
        some accum' := by
  induction ranges generalizing accum x with
  | nil => exact ⟨accum, rfl⟩
  | cons p ranges ih =>
    obtain ⟨hp, hne⟩ := forall_mem_cons.mp hne
    obtain ⟨hlt, hs⟩ := pairwise_cons.mp hs
    obtain ⟨⟨hx, hmax⟩, hbound⟩ := forall_mem_cons.mp hbound
    have hstart : Key.fromI128 x ≤ Key.fromI128 p.1 := by
      rcases hx.lt_or_eq with hx | hx
      · exact (Key.fromI128_lt h0 hx (hp.trans hmax)).le
      · rw [hx]
    obtain ⟨accum₁, hadd, hbelow, -⟩ :=
      (haccum.mono hstart).addRange (Key.fromI128_lt (h0.trans hx) hp hmax)
    obtain ⟨accum', hrun⟩ := ih hne hs (fun q hq ↦ ⟨(hlt q hq).le, (hbound q hq).2⟩)
      ((h0.trans hx).trans hp.le) hbelow
    refine ⟨accum', ?_⟩
    rw [foldlM_cons, hadd]
    exact hrun

theorem shadowAfter_bound (items : List Item) :
    ∀ p ∈ (shadowAfter items).inner.ranges, 0 ≤ p.1 ∧ p.2 < 2 ^ 127 := by
  induction items using List.reverseRecOn with
  | nil => simp [shadowAfter, KeyShadow.new, empty]
  | append_singleton items item ih =>
    rw [shadowAfter_concat]
    cases item with
    | readPoint lsn => simp [shade, KeyShadow.new, empty]
    | layer l =>
      rw [shade]
      split_ifs
      · exact ih
      · exact of_mem_insert (Q := (· < 2 ^ 127)) ih
          l.keyStart.toI128_nonneg l.keyEnd.toI128_lt

theorem exists_toKeyspace (items : List Item) :
    ∃ keyspace, (shadowAfter items).toKeyspace = some keyspace := by
  obtain ⟨accum, h⟩ := exists_foldlM_addRange (shadowAfter items).inner.nonempty
    (shadowAfter items).inner.sorted (shadowAfter_bound items) le_rfl (KeySpaceAccum.below_new _)
  exact ⟨accum.toKeyspace, by rw [KeyShadow.toKeyspace, h]; rfl⟩

/-- A packed key is in the shadow of an image layer after which there was no read point. -/
theorem has_shadowAfter {x : ℤ} :
    (shadowAfter items).inner.Has x ↔ ∃ a i b, items = a ++ .layer i :: b ∧ i.isDelta = false ∧
      LayerMap.HasKey i x ∧ ∀ lsn, .readPoint lsn ∉ b := by
  induction items using List.reverseRecOn with
  | nil => simp [shadowAfter, KeyShadow.new, not_has_empty]
  | append_singleton items item ih =>
    rw [shadowAfter_concat]
    have hsplit : (∃ a i b, items ++ [item] = a ++ .layer i :: b ∧ i.isDelta = false ∧
        LayerMap.HasKey i x ∧ ∀ lsn, .readPoint lsn ∉ b) ↔
        (∃ i, item = .layer i ∧ i.isDelta = false ∧ LayerMap.HasKey i x) ∨
          (shadowAfter items).inner.Has x ∧ ∀ lsn, item ≠ .readPoint lsn := by
      rw [ih]
      constructor
      · rintro ⟨a, i, b, heq, hdelta, hkey, hb⟩
        rcases eq_nil_or_concat' b with rfl | ⟨b, j, rfl⟩
        · obtain ⟨-, heq⟩ := append_inj' heq rfl
          exact .inl ⟨i, singleton_inj.mp heq, hdelta, hkey⟩
        · rw [← cons_append, ← append_assoc] at heq
          obtain ⟨rfl, hj⟩ := append_inj' heq rfl
          obtain rfl := singleton_inj.mp hj
          refine .inr ⟨⟨a, i, b, rfl, hdelta, hkey, fun lsn h ↦ ?_⟩, fun lsn h ↦ ?_⟩
          · exact hb lsn (mem_append_left _ h)
          · exact hb lsn (h ▸ mem_append_right _ (mem_singleton_self _))
      · rintro (⟨i, rfl, hdelta, hkey⟩ | ⟨⟨a, i, b, rfl, hdelta, hkey, hb⟩, hitem⟩)
        · exact ⟨items, i, [], rfl, hdelta, hkey, by simp⟩
        · refine ⟨a, i, b ++ [item], by simp, hdelta, hkey, fun lsn h ↦ ?_⟩
          rcases mem_append.mp h with h | h
          · exact hb lsn h
          · exact hitem lsn (mem_singleton.mp h).symm
    rw [hsplit]
    cases item with
    | readPoint lsn => simp [shade, KeyShadow.new, not_has_empty]
    | layer l =>
      simp only [shade, layer.injEq, exists_eq_left', ne_eq, reduceCtorEq,
        not_false_eq_true, implies_true, and_true]
      split_ifs with hdelta
      · simp [hdelta]
      · simp only [hdelta, true_and]
        exact has_insert

/-! ### The order of the sweep -/

variable {i : Item}

namespace Item

/-- Layers with the same sort key stay in the order of the layer map. -/
def InOrder : Item → Item → Prop
  | layer l, layer l' => layerKey l < layerKey l'
  | _, _ => True

/-- An item comes before another one in the sweep. -/
def Before (a b : Item) : Prop := b.sortKey ≤ a.sortKey ∧ (a.sortKey ≤ b.sortKey → a.InOrder b)

variable {l l' : PersistentLayerDesc} {lsn lsn' : ℕ}

theorem sortKey_layer (l : PersistentLayerDesc) :
    (layer l).sortKey = toLex (l.lsnEnd - 1, if l.isDelta then 0 else 1) := by
  rw [sortKey]
  split_ifs with h
  · rfl
  · rw [l.image_end (Bool.not_eq_true _ ▸ h), Nat.add_sub_cancel]

theorem settle_readPoint (h : l.lsnStart ≤ lsn) : (readPoint lsn).settle l = some visible :=
  if_pos ⟨h, rfl⟩

theorem settle_eq_covered (h : i.settle l = some covered) : i.reachedLsn < l.lsnStart := by
  unfold settle at h
  split_ifs at h with h₁ h₂
  · exact absurd h (by decide)
  · exact h₂

theorem settle_of_lt (h : i.reachedLsn < l.lsnStart) : i.settle l = some covered := by
  rw [settle, if_neg fun h' ↦ h.not_ge h'.1, if_pos h]

theorem Before.lsnEnd_le_of_readPoint (h : (readPoint lsn).Before (layer l)) :
    l.lsnEnd ≤ lsn + 1 := by
  have h := h.1
  rw [sortKey_layer, sortKey, Prod.Lex.toLex_le_toLex] at h
  omega

theorem Before.lt_lsnEnd_of_readPoint (h : (layer l).Before (readPoint lsn)) :
    lsn + 1 < l.lsnEnd := by
  have h := h.1
  rw [sortKey_layer, sortKey, Prod.Lex.toLex_le_toLex] at h
  split_ifs at h <;> omega

theorem Before.lsn_le (h : (readPoint lsn).Before (readPoint lsn')) : lsn' ≤ lsn := by
  have h := h.1
  rw [sortKey, sortKey, Prod.Lex.toLex_le_toLex] at h
  omega

/-- A layer that comes before another one ends above it; if both end at the same LSN, image layers
come first, and otherwise the order of the layer map decides. -/
theorem Before.layers (h : (layer l).Before (layer l')) :
    l'.lsnEnd < l.lsnEnd ∨ l'.lsnEnd = l.lsnEnd ∧ (l.isDelta = true → l'.isDelta = true) ∧
      (l.isDelta = l'.isDelta → layerKey l < layerKey l') := by
  obtain ⟨h, htie⟩ := h
  have hpos := l.lsn_lt
  have hpos' := l'.lsn_lt
  rw [sortKey_layer, sortKey_layer, Prod.Lex.toLex_le_toLex] at h
  rw [sortKey_layer, sortKey_layer] at htie
  rcases h with h | ⟨heq, htag⟩
  · omega
  · right
    refine ⟨by omega, fun hd ↦ ?_, fun hkind ↦ htie ?_⟩
    · by_contra hd'
      simp [hd, hd'] at htag
    · rw [Prod.Lex.toLex_le_toLex]
      exact .inr ⟨heq.symm, by rw [hkind]⟩

end Item

namespace LayerMap

variable {m : LayerMap} {readPoints : List ℕ} {a b : List Item} {l : PersistentLayerDesc} {R : ℕ}
  {x : ℤ}

theorem sweepItems_perm : (m.sweepItems readPoints).Perm
    (m.iterHistoricLayers.map layer ++ readPoints.map readPoint) := (perm_insertionSort _ _).trans
    (((perm_insertionSort _ _).map readPoint).append_left _)

theorem layer_mem_sweepItems : layer l ∈ m.sweepItems readPoints ↔ l ∈ m.iterHistoricLayers := by
  rw [sweepItems_perm.mem_iff]
  simp

theorem readPoint_mem_sweepItems : readPoint R ∈ m.sweepItems readPoints ↔ R ∈ readPoints := by
  rw [sweepItems_perm.mem_iff]
  simp

variable (m readPoints) in
theorem sweepItems_sorted : (m.sweepItems readPoints).Pairwise Item.Before := by
  have : IsTrans Item fun a b : Item ↦ b.sortKey ≤ a.sortKey := ⟨fun a b c h h' ↦ h'.trans h⟩
  refine Sweep.stable_insertionSort (pairwise_append.mpr ⟨?_, ?_, ?_⟩)
  · exact pairwise_map.mpr sorted_iterHistoricLayers
  · exact pairwise_map.mpr (pairwise_of_forall fun _ _ ↦ trivial)
  · intro a ha b hb
    obtain ⟨R, -, rfl⟩ := mem_map.mp hb
    cases a <;> trivial

section Position

variable (hitems : m.sweepItems readPoints = a ++ .layer l :: b)

include hitems

theorem before_layer (hi : i ∈ a) : i.Before (.layer l) :=
  (pairwise_append.mp (hitems ▸ sweepItems_sorted m readPoints)).2.2 i hi _ mem_cons_self

theorem layer_before (hi : i ∈ b) : Item.Before (.layer l) i :=
  (pairwise_cons.mp (pairwise_append.mp (hitems ▸ sweepItems_sorted m readPoints)).2.1).1 i hi

theorem mem_of_position : l ∈ m.iterHistoricLayers := by
  have hmem : layer l ∈ m.sweepItems readPoints := hitems ▸ mem_append_right _ mem_cons_self
  exact layer_mem_sweepItems.mp hmem

theorem mem_sides (hi : i ∈ m.sweepItems readPoints) (hne : i ≠ .layer l) : i ∈ a ∨ i ∈ b := by
  rw [hitems, mem_append, mem_cons] at hi
  exact hi.imp_right fun h ↦ h.resolve_left hne

theorem readPoint_mem_before (hR : R ∈ readPoints) (hle : l.lsnEnd ≤ R + 1) : .readPoint R ∈ a :=
  (mem_sides hitems (readPoint_mem_sweepItems.mpr hR) nofun).resolve_right fun h ↦
    (layer_before hitems h).lt_lsnEnd_of_readPoint.not_ge hle

theorem readPoint_mem_after (hR : R ∈ readPoints) (hlt : R + 1 < l.lsnEnd) : .readPoint R ∈ b :=
  (mem_sides hitems (readPoint_mem_sweepItems.mpr hR) nofun).resolve_left fun h ↦
    (before_layer hitems h).lsnEnd_le_of_readPoint.not_gt hlt

theorem layer_mem_cases {l' : PersistentLayerDesc} (hl' : l' ∈ m.iterHistoricLayers)
    (hne : l' ≠ l) : .layer l' ∈ a ∨ .layer l' ∈ b :=
  mem_sides hitems (layer_mem_sweepItems.mpr hl') fun h ↦ hne (layer.inj h)

theorem exists_of_has (h : (shadowAfter a).inner.Has x) :
    ∃ i ∈ m.iterHistoricLayers, i.isDelta = false ∧ HasKey i x ∧ Item.Before (.layer i) (.layer l) ∧
      ∀ R ∈ readPoints, l.lsnEnd ≤ R + 1 → i.lsnStart ≤ R := by
  obtain ⟨a₁, i, a₂, rfl, hdelta, hkey, hnone⟩ := has_shadowAfter.mp h
  have hitems' := hitems
  rw [append_assoc] at hitems'
  refine ⟨i, mem_of_position hitems', hdelta, hkey,
    before_layer hitems (mem_append_right _ mem_cons_self), fun R hR hle ↦ ?_⟩
  have hbefore : (readPoint R).Before (.layer i) := by
    have hmem := readPoint_mem_before hitems hR hle
    rw [mem_append, mem_cons] at hmem
    rcases hmem with h | h | h
    · exact before_layer hitems' h
    · cases h
    · exact absurd h (hnone R)
  have hle := hbefore.lsnEnd_le_of_readPoint
  rw [i.image_end hdelta] at hle
  omega

/-- An image layer casts its shadow on a delta layer that does not end above it, unless there is a
read point between them. -/
theorem has_of_mem {i : PersistentLayerDesc} (hl : l.isDelta = true) (hi : i ∈ m.iterHistoricLayers)
    (hdelta : i.isDelta = false) (hkey : HasKey i x) (hend : l.lsnEnd ≤ i.lsnEnd)
    (hnone : ∀ R ∈ readPoints, l.lsnEnd ≤ R + 1 → i.lsnStart ≤ R) :
    (shadowAfter a).inner.Has x := by
  have hmem : layer i ∈ a := by
    refine (layer_mem_cases hitems hi fun h ↦ ?_).resolve_right fun h ↦ ?_
    · simp [h, hl] at hdelta
    · rcases (layer_before hitems h).layers with hlt | ⟨-, hkind, -⟩
      · omega
      · simp [hkind hl] at hdelta
  obtain ⟨a₁, a₂, rfl⟩ := append_of_mem hmem
  have hitems' := hitems
  rw [append_assoc] at hitems'
  refine has_shadowAfter.mpr ⟨a₁, i, a₂, rfl, hdelta, hkey, fun R hR ↦ ?_⟩
  have hlt := (layer_before hitems' (mem_append_left _ hR)).lt_lsnEnd_of_readPoint
  have hmemR : R ∈ readPoints := by
    refine readPoint_mem_sweepItems.mp (?_ : .readPoint R ∈ m.sweepItems readPoints)
    rw [hitems]
    simp [hR]
  have hle := (before_layer hitems (i := .readPoint R) (by simp [hR])).lsnEnd_le_of_readPoint
  have := hnone R hmemR hle
  rw [i.image_end hdelta] at hlt
  omega

end Position

end LayerMap

/-! ### When a delta layer is given up -/

namespace LayerMap

variable (m : LayerMap) (readPoints : List ℕ)

/-- The keys of the delta layer all are in the shadow when the sweep comes to it. -/
def Shadowed (d : PersistentLayerDesc) : Prop :=
  ∀ x, HasKey d x → ∃ i ∈ m.iterHistoricLayers, i.isDelta = false ∧ HasKey i x ∧
    d.lsnEnd ≤ i.lsnEnd ∧ ∀ R ∈ readPoints, d.lsnEnd ≤ R + 1 → i.lsnStart ≤ R

/-- Between the delta layer and the read point, the sweep comes to another delta layer that begins
below the first one, and to no read point before. -/
def Overtaken (d : PersistentLayerDesc) (R : ℕ) : Prop :=
  ∃ e ∈ m.iterHistoricLayers, e.isDelta = true ∧ e.lsnStart < d.lsnStart ∧ d.lsnStart ≤ R ∧
    R + 1 < e.lsnEnd ∧ e.lsnEnd < d.lsnEnd ∧
    ∀ R' ∈ readPoints, e.lsnEnd ≤ R' + 1 → d.lsnEnd ≤ R' + 1

variable {m readPoints} {a b : List Item} {d : PersistentLayerDesc} {R : ℕ}

section Position

variable (hitems : m.sweepItems readPoints = a ++ .layer d :: b) (hdelta : d.isDelta = true)

include hitems hdelta

theorem contains_iff_shadowed (hpack : Packable d) :
    (shadowAfter a).inner.contains d.keyStart.toI128 d.keyEnd.toI128 = true ↔
      m.Shadowed readPoints d := by
  rw [contains_iff hpack]
  constructor
  · rintro h x ⟨hlo, hhi⟩
    obtain ⟨i, hi, hi_image, hkey, hbefore, hnone⟩ := exists_of_has hitems (h x hlo hhi)
    refine ⟨i, hi, hi_image, hkey, ?_, hnone⟩
    rcases hbefore.layers with hlt | ⟨heq, -⟩
    · exact hlt.le
    · exact heq.le
  · intro h x hlo hhi
    obtain ⟨i, hi, hi_image, hkey, hend, hnone⟩ := h x ⟨hlo, hhi⟩
    exact has_of_mem hitems hdelta hi hi_image hkey hend hnone

/-- **A delta layer that was put off is given up before a read point within it just if it is
overtaken.** -/
theorem verdict_eq_covered_iff (hR : R ∈ readPoints) (hstart : d.lsnStart ≤ R)
    (hend : R + 1 < d.lsnEnd) : verdict d b = covered ↔ m.Overtaken readPoints d R := by
  constructor
  · intro h
    have hmem : .readPoint R ∈ b := readPoint_mem_after hitems hR hend
    rcases Sweep.verdict_cases settle covered d b with ⟨-, hnone⟩ | ⟨b₁, i, b₂, rfl, hnone, hi⟩
    · exact absurd (hnone _ hmem) (by simp [settle_readPoint hstart])
    have hreached := settle_eq_covered (hi.trans (congrArg some h))
    -- the item that gives the layer up comes before the read point
    have hmem₂ : .readPoint R ∈ b₂ := by
      rw [mem_append, mem_cons] at hmem
      rcases hmem with hmem | rfl | hmem
      · exact absurd (hnone _ hmem) (by simp [settle_readPoint hstart])
      · exact absurd hstart hreached.not_ge
      · exact hmem
    cases i with
    | readPoint R' =>
      have hs := sweepItems_sorted m readPoints
      rw [hitems, ← cons_append, ← append_assoc] at hs
      have hle := ((pairwise_cons.mp (pairwise_append.mp hs).2.1).1 _ hmem₂).lsn_le
      exact absurd (hstart.trans hle) hreached.not_ge
    | layer e =>
      have hitems' := hitems
      rw [← cons_append, ← append_assoc] at hitems'
      have hlt := (layer_before hitems' hmem₂).lt_lsnEnd_of_readPoint
      have hreached : e.lsnStart < d.lsnStart := hreached
      have he : e.isDelta = true := by
        by_contra hne
        rw [e.image_end (Bool.not_eq_true _ ▸ hne)] at hlt
        omega
      have hde : e.lsnEnd < d.lsnEnd := by
        rcases (layer_before hitems (mem_append_right _ mem_cons_self)).layers
          with hlt | ⟨-, -, hkey⟩
        · exact hlt
        · have hle := LayerKey.lsn_start_le (hkey (hdelta.trans he.symm)).le
          exact absurd hle hreached.not_ge
      refine ⟨e, mem_of_position hitems', he, hreached, hstart, hlt, hde, fun R' hR' hle ↦ ?_⟩
      have hmem' := readPoint_mem_before hitems' hR' hle
      rw [mem_append, mem_cons] at hmem'
      rcases hmem' with hmem' | hmem' | hmem'
      · exact (before_layer hitems hmem').lsnEnd_le_of_readPoint
      · cases hmem'
      · have hstart' : d.lsnStart ≤ R' := by omega
        exact absurd (hnone _ hmem') (by simp [settle_readPoint hstart'])
  · rintro ⟨e, he_mem, he, hes, -, -, hde, hnone⟩
    have hmem : .layer e ∈ b := by
      refine (layer_mem_cases hitems he_mem fun h ↦ ?_).resolve_left fun h ↦ ?_
      · exact absurd (congrArg (·.lsnEnd) h) hde.ne
      · rcases (before_layer hitems h).layers with hlt | ⟨heq, -⟩ <;> omega
    obtain ⟨b₁, b₂, rfl⟩ := append_of_mem hmem
    have hitems' := hitems
    rw [← cons_append, ← append_assoc] at hitems'
    refine Sweep.verdict_of_settle b₂ (fun j hj v hv ↦ ?_) (settle_of_lt hes)
    cases v with
    | covered => rfl
    | visible =>
      cases j with
      | layer l =>
        unfold settle at hv
        split_ifs at hv with h₁ h₂
        · exact absurd h₁.2 Bool.false_ne_true
        · cases hv
      | readPoint R' =>
        have hR' : R' ∈ readPoints := by
          refine readPoint_mem_sweepItems.mp (?_ : .readPoint R' ∈ m.sweepItems readPoints)
          rw [hitems]
          simp [hj]
        have hle := (before_layer hitems' (i := .readPoint R')
          (by simp [hj])).lsnEnd_le_of_readPoint
        have hlt := (layer_before hitems (mem_append_left _ hj)).lt_lsnEnd_of_readPoint
        exact absurd (hnone R' hR' hle) hlt.not_ge

end Position

end LayerMap

/-! ### The walk of a read -/

section SelectLayer

open Pageserver.LayerMap

variable {delta image : Option PersistentLayerDesc} {inmem : Option InMemoryLayer} {endLsn : ℕ}
  {r : SearchResult}

/-- What is known if the selected layer is not an image layer: the image layer is not exactly below
the LSN, and the read goes on above it. -/
structure GoesOn (delta image : Option PersistentLayerDesc) (inmem : Option InMemoryLayer)
    (endLsn lsnFloor : ℕ) : Prop where
  ne : ∀ i ∈ image, i.lsnStart + 1 ≠ endLsn
  lt : ∀ i ∈ image, i.lsnStart < lsnFloor
  floor : ∀ lsn, (∀ d ∈ delta, d.lsnStart < lsn) → (∀ i ∈ image, i.lsnStart + 1 < lsn) →
    (∀ l ∈ inmem, l.startLsn < lsn ∧ ∀ d ∈ delta, d.lsnEnd ≤ l.startLsn) → lsnFloor < lsn

theorem goesOn_image {i : PersistentLayerDesc} {lsnFloor : ℕ} (hne : i.lsnStart + 1 ≠ endLsn)
    (hlt : i.lsnStart + 1 ≤ lsnFloor)
    (hfloor : ∀ lsn, (∀ d ∈ delta, d.lsnStart < lsn) → (∀ i' ∈ some i, i'.lsnStart + 1 < lsn) →
      (∀ l ∈ inmem, l.startLsn < lsn ∧ ∀ d ∈ delta, d.lsnEnd ≤ l.startLsn) → lsnFloor < lsn) :
    GoesOn delta (some i) inmem endLsn lsnFloor :=
  ⟨by simpa using hne, by simpa using Nat.lt_of_succ_le hlt, hfloor⟩

theorem selectLayer_cases (hdelta : ∀ d ∈ delta, d.isDelta = true)
    (himage : ∀ i ∈ image, i.isDelta = false) (h : selectLayer delta image inmem endLsn = some r) :
    (∃ i, image = some i ∧ r.layer = .persistentLayer i) ∨
      (∃ d, delta = some d ∧ r.layer = .persistentLayer d ∧ (∀ i ∈ image, i.lsnEnd < d.lsnEnd) ∧
        GoesOn delta image inmem endLsn r.lsnFloor) ∨
      ∃ x, inmem = some x ∧ r.layer = .inMemoryLayer x ∧
        GoesOn delta image inmem endLsn r.lsnFloor := by
  rcases delta with _ | d <;> rcases image with _ | i <;> rcases inmem with _ | x
  · cases h
  · cases h
    exact .inr (.inr ⟨x, rfl, rfl, nofun, nofun, fun lsn _ _ hx ↦ (hx x rfl).1⟩)
  · cases h
    exact .inl ⟨i, rfl, rfl⟩
  · cases h
    unfold selectImageOrInMemory
    dsimp only
    split_ifs with hi
    · exact .inl ⟨i, rfl, rfl⟩
    · exact .inr (.inr ⟨x, rfl, rfl, goesOn_image (fun h ↦ hi (.inr h)) (le_max_right _ _)
        fun lsn _ hi hx ↦ max_lt (hx x rfl).1 (hi i rfl)⟩)
  · cases h
    exact .inr (.inl ⟨d, rfl, rfl, nofun, nofun, nofun, fun lsn hd _ _ ↦ hd d rfl⟩)
  · cases h
    unfold selectDeltaOrInMemory
    dsimp only
    split_ifs
    · exact .inr (.inl ⟨d, rfl, rfl, nofun, nofun, nofun, fun lsn hd _ _ ↦ hd d rfl⟩)
    · exact .inr (.inr ⟨x, rfl, rfl, nofun, nofun, fun lsn _ _ hx ↦
        max_lt (hx x rfl).1 (((hx x rfl).2 d rfl).trans_lt (hx x rfl).1)⟩)
  · cases h
    unfold selectDeltaOrImage
    dsimp only
    split_ifs with hi
    · exact .inl ⟨i, rfl, rfl⟩
    · refine .inr (.inl ⟨d, rfl, rfl, fun j hj ↦ ?_, goesOn_image (fun h ↦ hi (.inr h))
        (le_max_right _ _) fun lsn hd hi _ ↦ max_lt (hd d rfl) (hi i rfl)⟩)
      cases hj
      exact lt_of_not_ge fun h ↦ hi (.inl h)
  · cases h
    unfold selectDeltaOrImage
    dsimp only
    split_ifs with hi himg himg
    · -- the image layer against the layer in memory
      unfold selectImageOrInMemory
      dsimp only
      split_ifs with hx
      · exact .inl ⟨i, rfl, rfl⟩
      · exact .inr (.inr ⟨x, rfl, rfl, goesOn_image (fun h ↦ hx (.inr h))
          ((le_max_right _ _).trans (le_max_right _ _))
          fun lsn _ hi hx ↦ max_lt (Nat.lt_of_succ_lt (hi i rfl)) (max_lt (hx x rfl).1 (hi i rfl))⟩)
    · exact absurd (himage i rfl) (by simpa [ReadableLayer.isImage] using himg)
    · exact absurd (hdelta d rfl) (by simpa [ReadableLayer.isImage] using himg)
    · -- the delta layer against the layer in memory
      have hfloor (lsn : ℕ) (hd : ∀ d' ∈ some d, d'.lsnStart < lsn)
          (hi : ∀ i' ∈ some i, i'.lsnStart + 1 < lsn) : max d.lsnStart (i.lsnStart + 1) < lsn :=
        max_lt (hd d rfl) (hi i rfl)
      unfold selectDeltaOrInMemory
      dsimp only
      split_ifs with hx
      · refine .inr (.inl ⟨d, rfl, rfl, fun j hj ↦ ?_, goesOn_image (fun h ↦ hi (.inr h))
          ((le_max_right _ _).trans (le_max_left _ _))
          fun lsn hd hi _ ↦ max_lt (hfloor lsn hd hi) (hd d rfl)⟩)
        cases hj
        exact lt_of_not_ge fun h ↦ hi (.inl h)
      · exact .inr (.inr ⟨x, rfl, rfl, goesOn_image (fun h ↦ hi (.inr h))
          ((le_max_right _ _).trans (le_max_left _ _)) fun lsn hd hi hx ↦ max_lt (hfloor lsn hd hi)
            (max_lt (hx x rfl).1 (((hx x rfl).2 d rfl).trans_lt (hx x rfl).1))⟩)

end SelectLayer

namespace LayerMap

/-- The layers that a read of `key` below `endLsn` comes to, down to the first image layer. -/
inductive Returns (m : LayerMap) (key : Key) : ℕ → ReadableLayer → Prop
  | here {endLsn : ℕ} {r : SearchResult} (h0 : 0 < endLsn)
      (hr : m.search key endLsn = some (some r)) : Returns m key endLsn r.layer
  | next {endLsn : ℕ} {r : SearchResult} {layer : ReadableLayer} (h0 : 0 < endLsn)
      (hr : m.search key endLsn = some (some r)) (himage : r.layer.isImage = false)
      (hlayer : Returns m key r.lsnFloor layer) : Returns m key endLsn layer

/-- Layers in memory are newer than those on disk. -/
def InMemoryAbove (m : LayerMap) : Prop :=
  ∀ l ∈ m.frozenLayers ++ m.openLayer.toList, ∀ d ∈ m.iterHistoricLayers, d.lsnEnd ≤ l.startLsn

variable {m : LayerMap} {readPoints : List ℕ} {key : Key} {R endLsn : ℕ} {r : SearchResult}
  {x : ℤ} {l : PersistentLayerDesc} {a b : List Item}

/-- A read from a read point has come down to an LSN without passing an image layer. -/
structure Clear (m : LayerMap) (x : ℤ) (R endLsn : ℕ) : Prop where
  le : endLsn ≤ R + 1
  image_lt : ∀ i ∈ m.iterHistoricLayers, i.isDelta = false → HasKey i x → i.lsnStart ≤ R →
    i.lsnStart < endLsn

theorem clear_start : m.Clear x R (R + 1) := ⟨le_rfl, fun _ _ _ _ h ↦ Nat.lt_succ_of_le h⟩

theorem latest_kinds (x : ℤ) (lsn : ℕ) :
    (∀ d ∈ m.latest false x lsn, d.isDelta = true) ∧ ∀ i ∈ m.latest true x lsn, i.isDelta = false :=
  ⟨fun _ hd ↦ (latest_spec hd).isDelta_eq, fun _ hi ↦ (latest_spec hi).isDelta_eq⟩

/-- The latest image layer below an LSN, where the read has passed none. -/
theorem Clear.exists_latest (h : m.Clear x R endLsn) (h0 : 0 < endLsn) {i : PersistentLayerDesc}
    (hi : i ∈ m.iterHistoricLayers) (himage : i.isDelta = false) (hkey : HasKey i x)
    (hle : i.lsnStart ≤ R) :
    ∃ i', m.latest true x (lsnPred endLsn) = some i' ∧ i.lsnEnd ≤ i'.lsnEnd := by
  have hlt := (le_lsnPred_iff h0).mpr (h.image_lt i hi himage hkey hle)
  cases hlatest : m.latest true x (lsnPred endLsn) with
  | none => exact absurd hlt (latest_eq_none hlatest i hi himage hkey)
  | some i' => exact ⟨i', rfl, (latest_spec hlatest).lsnEnd_le i hi himage hkey hlt⟩

/-- **The read comes down without passing an image layer until it returns one.** -/
theorem Clear.next (habove : m.InMemoryAbove) (h : m.Clear key.toI128 R endLsn) (h0 : 0 < endLsn)
    (hr : m.search key endLsn = some (some r)) (himage : r.layer.isImage = false) :
    m.Clear key.toI128 R r.lsnFloor := by
  obtain ⟨hdeltas, himages⟩ := latest_kinds key.toI128 (lsnPred endLsn)
  have hgo : GoesOn (m.latest false key.toI128 (lsnPred endLsn))
      (m.latest true key.toI128 (lsnPred endLsn)) (m.searchInMemoryLayer endLsn) endLsn
      r.lsnFloor := by
    rcases selectLayer_cases hdeltas himages (m.search_eq_some hr).symm
      with ⟨i, hi, hlayer⟩ | ⟨d, -, -, -, hgo⟩ | ⟨l, -, -, hgo⟩
    · rw [hlayer, ReadableLayer.isImage, himages i hi] at himage
      cases himage
    · exact hgo
    · exact hgo
  refine ⟨?_, fun i hi hdelta hkey hle ↦ ?_⟩
  · refine (hgo.floor endLsn (fun d hd ↦ ?_) (fun i hi ↦ ?_) fun l hl ↦ ?_).le.trans h.le
    · exact (le_lsnPred_iff h0).mp (latest_spec hd).lsnStart_le
    · exact lt_of_le_of_ne ((le_lsnPred_iff h0).mp (latest_spec hi).lsnStart_le) (hgo.ne i hi)
    · obtain ⟨hmem, hlt⟩ := mem_of_searchInMemoryLayer hl
      exact ⟨hlt, fun d hd ↦ habove l hmem d (latest_spec hd).mem⟩
  · obtain ⟨i', hi', hend⟩ := h.exists_latest h0 hi hdelta hkey hle
    have hlt := hgo.lt i' hi'
    rw [i.image_end hdelta, i'.image_end (himages i' hi')] at hend
    omega

theorem Returns.exists_search (habove : m.InMemoryAbove) {layer : ReadableLayer}
    (h : m.Returns key endLsn layer) (hclear : m.Clear key.toI128 R endLsn) :
    ∃ e r, 0 < e ∧ m.Clear key.toI128 R e ∧ m.search key e = some (some r) ∧ r.layer = layer := by
  induction h with
  | here h0 hr => exact ⟨_, _, h0, hclear, hr, rfl⟩
  | next h0 hr himage _ ih => exact ih (hclear.next habove h0 hr himage)

/-! ### Layers that are read are visible -/

section Position

variable (hitems : m.sweepItems readPoints = a ++ .layer l :: b) (hR : R ∈ readPoints)
  (hclear : m.Clear x R endLsn) (h0 : 0 < endLsn)

include hitems hR hclear h0

theorem not_contains_image (h : m.latest true x (lsnPred endLsn) = some l) :
    (shadowAfter a).inner.contains l.keyStart.toI128 l.keyEnd.toI128 = false := by
  have hl := latest_spec h
  have hpack : Packable l := hl.hasKey.1.trans_lt hl.hasKey.2
  rw [← Bool.not_eq_true, contains_iff hpack]
  intro hcontained
  obtain ⟨i, hi, himage, hkey, hbefore, hnone⟩ :=
    exists_of_has hitems (hcontained x hl.hasKey.1 hl.hasKey.2)
  have hstart : l.lsnStart < endLsn := (le_lsnPred_iff h0).mp hl.lsnStart_le
  have hend : l.lsnEnd = l.lsnStart + 1 := l.image_end hl.isDelta_eq
  have hle : i.lsnStart ≤ R := hnone R hR (by have := hclear.le; omega)
  have hlt := (le_lsnPred_iff h0).mpr (hclear.image_lt i hi himage hkey hle)
  -- the other image layer is as new as this one, so it comes later in the layer map
  rcases hbefore.layers with hend' | ⟨hend', -, horder⟩
  · exact absurd (hl.lsnEnd_le i hi himage hkey hlt) hend'.not_ge
  · have horder := horder (himage.trans hl.isDelta_eq.symm)
    rcases hl.first i hi himage hkey hlt hend'.le with rfl | horder'
    · exact lt_irrefl _ horder
    · exact lt_asymm horder horder'

theorem not_contains_delta (h : m.latest false x (lsnPred endLsn) = some l)
    (hnewer : ∀ i ∈ m.latest true x (lsnPred endLsn), i.lsnEnd < l.lsnEnd)
      (hle : l.lsnEnd ≤ R + 1) :
    (shadowAfter a).inner.contains l.keyStart.toI128 l.keyEnd.toI128 = false := by
  have hl := latest_spec h
  have hpack : Packable l := hl.hasKey.1.trans_lt hl.hasKey.2
  rw [← Bool.not_eq_true, contains_iff hpack]
  intro hcontained
  obtain ⟨i, hi, himage, hkey, hbefore, hnone⟩ :=
    exists_of_has hitems (hcontained x hl.hasKey.1 hl.hasKey.2)
  obtain ⟨i', hi', hend⟩ := hclear.exists_latest h0 hi himage hkey (hnone R hR hle)
  have hlt := hnewer i' hi'
  rcases hbefore.layers with hend' | ⟨hend', -⟩ <;> omega

end Position

/-- A layer that is returned and reported as covered is a delta layer across the read point. -/
theorem Returns.of_covered (habove : m.InMemoryAbove) (hR : R ∈ readPoints)
    (h : m.Returns key (R + 1) (.persistentLayer l))
    (hitems : m.sweepItems readPoints = a ++ .layer l :: b) (hcovered : hint a l b = covered) :
    l.isDelta = true ∧ l.lsnStart ≤ R ∧ R + 1 < l.lsnEnd ∧
      (shadowAfter a).inner.contains l.keyStart.toI128 l.keyEnd.toI128 = true ∧
      verdict l b = covered := by
  obtain ⟨e, r, h0, hclear, hr, hlayer⟩ := h.exists_search habove clear_start
  obtain ⟨hdeltas, himages⟩ := latest_kinds key.toI128 (lsnPred e)
  rcases selectLayer_cases hdeltas himages (m.search_eq_some hr).symm
    with ⟨i, hi, hlayer'⟩ | ⟨d, hd, hlayer', hnewer, -⟩ | ⟨y, -, hlayer', -⟩
  · cases hlayer.symm.trans hlayer'
    have hpack : Packable l := (latest_spec hi).hasKey.1.trans_lt (latest_spec hi).hasKey.2
    have hnot := not_contains_image hitems hR hclear h0 hi
    have hkind : l.isDelta = false := himages l hi
    have hvisible : hint a l b = visible := by
      simp only [hint, hkind, hnot, decide_eq_true
        (show l.keyStart.toI128 < l.keyEnd.toI128 from hpack)]
      rfl
    exact absurd (hvisible.symm.trans hcovered) (by decide)
  · cases hlayer.symm.trans hlayer'
    have hkind : l.isDelta = true := hdeltas l hd
    have hstart : l.lsnStart < e := (le_lsnPred_iff h0).mp (latest_spec hd).lsnStart_le
    simp only [hint, hkind, if_true] at hcovered
    split_ifs at hcovered with hcontained
    refine ⟨hkind, by have := hclear.le; omega, lt_of_not_ge fun hle ↦ ?_, hcontained, hcovered⟩
    cases (not_contains_delta hitems hR hclear h0 hd hnewer hle).symm.trans hcontained
  · exact absurd (hlayer.symm.trans hlayer') nofun

theorem exists_getVisibility (hpack : ∀ d ∈ m.iterHistoricLayers, d.isDelta = true → Packable d) :
    ∃ results keyspace, m.getVisibility readPoints = some (results, keyspace) ∧
      results.Perm (reports [] (m.sweepItems readPoints)) := by
  have hnew : VisibilitySweep.new.shadow = shadowAfter [] := rfl
  obtain ⟨s, hrun, hshadow, hperm⟩ := VisibilitySweep.foldlM_step hnew fun l hl ↦
    hpack l (layer_mem_sweepItems.mp hl : l ∈ m.iterHistoricLayers)
  obtain ⟨keyspace, hkeyspace⟩ := exists_toKeyspace ([] ++ m.sweepItems readPoints)
  rw [← hshadow] at hkeyspace
  refine ⟨s.finish [], keyspace, ?_, hperm⟩
  rw [getVisibility, hrun]
  simp only [Option.bind_eq_bind, Option.bind_some, hkeyspace]
  rfl

theorem getVisibility_eq_none {d : PersistentLayerDesc} (hd : d ∈ m.iterHistoricLayers)
    (hdelta : d.isDelta = true) (hpack : ¬ Packable d) : m.getVisibility readPoints = none := by
  rw [getVisibility, VisibilitySweep.foldlM_step_eq_none (layer_mem_sweepItems.mpr hd) hdelta hpack]
  rfl

theorem map_fst_perm {results : List (PersistentLayerDesc × LayerVisibilityHint)}
    (h : results.Perm (reports [] (m.sweepItems readPoints))) :
    (results.map Prod.fst).Perm m.iterHistoricLayers := by
  refine (h.map Prod.fst).trans ?_
  rw [map_fst_reports]
  refine (sweepItems_perm.filterMap _).trans ?_
  simp

/-- **No read from a read point returns a covered layer, just if none returns a delta layer that is
shadowed and overtaken before the read point.**  Besides, the packed key ranges of delta layers must
not be empty, or the sweep fails. -/
theorem getVisibility_iff (habove : m.InMemoryAbove) :
    (∃ results keyspace, m.getVisibility readPoints = some (results, keyspace) ∧
      (results.map Prod.fst).Perm m.iterHistoricLayers ∧
      ∀ R ∈ readPoints, ∀ key l, m.Returns key (R + 1) (.persistentLayer l) →
        (l, covered) ∉ results) ↔
      (∀ d ∈ m.iterHistoricLayers, d.isDelta = true → Packable d) ∧
      ∀ R ∈ readPoints, ∀ d ∈ m.iterHistoricLayers, d.isDelta = true → m.Shadowed readPoints d →
        m.Overtaken readPoints d R → ∀ key, ¬ m.Returns key (R + 1) (.persistentLayer d) := by
  constructor
  · rintro ⟨results, keyspace, hresult, -, hnot⟩
    have hpack d (hd : d ∈ m.iterHistoricLayers) (hdelta : d.isDelta = true) : Packable d := by
      by_contra hpack
      cases (getVisibility_eq_none hd hdelta hpack).symm.trans hresult
    obtain ⟨results', keyspace', hresult', hperm⟩ := exists_getVisibility hpack
    cases hresult.symm.trans hresult'
    refine ⟨hpack, fun R hR d hd hdelta hshadowed hovertaken key hreturns ↦ ?_⟩
    obtain ⟨a, b, hitems⟩ := append_of_mem (layer_mem_sweepItems.mpr hd)
    refine hnot R hR key d hreturns (hperm.mem_iff.mpr (mem_reports.mpr ⟨a, b, hitems, ?_⟩))
    have hcontains := (contains_iff_shadowed hitems hdelta (hpack d hd hdelta)).mpr hshadowed
    have hverdict : verdict d b = covered := by
      obtain ⟨e, he, he_delta, hes, hstart, hend, hde, hnone⟩ := hovertaken
      exact (verdict_eq_covered_iff hitems hdelta hR hstart (hend.trans hde)).mpr
        ⟨e, he, he_delta, hes, hstart, hend, hde, hnone⟩
    simp only [nil_append, hint, hdelta, hcontains, if_true, hverdict]
  · rintro ⟨hpack, hnot⟩
    obtain ⟨results, keyspace, hresult, hperm⟩ := exists_getVisibility hpack
    refine ⟨results, keyspace, hresult, map_fst_perm hperm, fun R hR key l hreturns hmem ↦ ?_⟩
    obtain ⟨a, b, hitems, hcovered⟩ := mem_reports.mp (hperm.mem_iff.mp hmem)
    have hl := mem_of_position hitems
    obtain ⟨hdelta, hstart, hend, hcontains, hverdict⟩ :=
      hreturns.of_covered habove hR hitems hcovered.symm
    exact hnot R hR l hl hdelta
      ((contains_iff_shadowed hitems hdelta (hpack l hl hdelta)).mp hcontains)
      ((verdict_eq_covered_iff hitems hdelta hR hstart hend).mp hverdict) key hreturns

/-- A delta layer below an image layer with the same keys. -/
def nestedDelta : PersistentLayerDesc :=
  ⟨⟨Key.min, ⟨0, 0, 0, 0, 0, 10⟩, 50, 100⟩, true, by decide, by decide⟩

def nestedImage : PersistentLayerDesc :=
  ⟨⟨Key.min, ⟨0, 0, 0, 0, 0, 10⟩, 120, 121⟩, false, by decide, by decide⟩

/-- A delta layer with other keys that begins below the first one and ends within it. -/
def nestedOther : PersistentLayerDesc :=
  ⟨⟨⟨0, 0, 0, 0, 0, 10⟩, ⟨0, 0, 0, 0, 0, 20⟩, 0, 90⟩, true, by decide, by decide⟩

def nested : LayerMap where
  openLayer := none
  frozenLayers := []
  historic := ⟨[nestedOther, nestedDelta, nestedImage].map fun l ↦ (layerKey l, l), by decide⟩
  key_eq := by decide
  representable := by decide

theorem getVisibility_iff_nested : nested.InMemoryAbove ∧
    ((∃ results keyspace, nested.getVisibility [150] = some (results, keyspace) ∧
      (results.map Prod.fst).Perm nested.iterHistoricLayers ∧
      ∀ R ∈ [150], ∀ key l, nested.Returns key (R + 1) (.persistentLayer l) →
        (l, covered) ∉ results) ↔
      (∀ d ∈ nested.iterHistoricLayers, d.isDelta = true → Packable d) ∧
      ∀ R ∈ [150], ∀ d ∈ nested.iterHistoricLayers, d.isDelta = true → nested.Shadowed [150] d →
        nested.Overtaken [150] d R →
          ∀ key, ¬ nested.Returns key (R + 1) (.persistentLayer d)) :=
  have habove : nested.InMemoryAbove := nofun
  ⟨habove, getVisibility_iff habove⟩

/-- With read points at 60 and 150, the sweep gives the delta layer up when it comes to the other
one, and reads from 60 return it. -/
theorem returns_covered_nested :
    ∃ results keyspace, nested.getVisibility [60, 150] = some (results, keyspace) ∧
      (nestedDelta, covered) ∈ results ∧
        nested.Returns Key.min (60 + 1) (.persistentLayer nestedDelta) :=
  ⟨_, _, rfl, by decide, .here (r := ⟨.persistentLayer nestedDelta, 50⟩) (by decide) (by decide)⟩

end LayerMap

end NeonStorage.Pageserver.Indexed
