import NeonStorage.Ingest.SerializedBatch
import NeonStorage.Lib.SortedMap
import NeonStorage.Pageserver.KeySpace
import NeonStorage.Pageserver.ShardedRange

/-!
# Building batches

Batches grow by single values, by other batches, and by zero pages in the gaps that an extended
relation has. The metadata of a batch are kept in the order in which values came; `zero_gaps` passes
them through a set that is ordered by key and LSN, in which two entries for one key and LSN become
one.

All values that were written can be read back (`Built.holds`), if no two entries meet in that set.
-/

namespace NeonStorage.Ingest

open List ValueMeta
open Pageserver (Key IsKeySpace keysBetween)

/-- A serialization of values: what is written is read back. -/
structure ValueCodec (V : Type) where
  ser : V → List UInt8
  des : List UInt8 → Option V
  willInit : V → Bool
  image : List UInt8 → V
  des_ser : ∀ v, des (ser v) = some v

namespace ValueMeta

def key : ValueMeta → ℕ
  | .serialized m => m.key
  | .observed key _ => key

def lsn : ValueMeta → ℕ
  | .serialized m => m.lsn
  | .observed _ lsn => lsn

/-- The order of `OrderedValueMeta`. -/
def place (m : ValueMeta) : ℕ ×ₗ ℕ := toLex (m.key, m.lsn)

def shift (off : ℕ) : ValueMeta → ValueMeta
  | .serialized m => .serialized { m with batchOffset := m.batchOffset + off }
  | .observed key lsn => .observed key lsn

@[simp] theorem key_shift (m : ValueMeta) (off : ℕ) :
    (m.shift off).key = m.key := by cases m <;> rfl

@[simp] theorem lsn_shift (m : ValueMeta) (off : ℕ) :
    (m.shift off).lsn = m.lsn := by cases m <;> rfl

end ValueMeta

namespace SerializedValueBatch

section Operations

variable {V : Type} (c : ValueCodec V)

/-- One turn of `from_values`; the size of the value is given by the caller. -/
def pushValue (b : SerializedValueBatch) (x : ℕ × ℕ × ℕ × V) : SerializedValueBatch :=
  let (key, lsn, valSerSize, val) := x
  { b with
    raw := b.raw ++ c.ser val
    metadata := b.metadata ++ [.serialized ⟨key, lsn, b.raw.length, valSerSize, c.willInit val⟩]
    maxLsn := max b.maxLsn lsn }

def fromValues (values : List (ℕ × ℕ × ℕ × V)) : SerializedValueBatch :=
  { values.foldl (pushValue c) {} with len := values.length }

def put (b : SerializedValueBatch) (key : ℕ) (value : V) (lsn : ℕ) : SerializedValueBatch :=
  let relativeOff := b.raw.length
  let raw := b.raw ++ c.ser value
  let valSerSize := raw.length - relativeOff
  { raw := raw
    metadata := b.metadata ++ [.serialized ⟨key, lsn, relativeOff, valSerSize, c.willInit value⟩]
    maxLsn := max b.maxLsn lsn
    len := b.len + 1 }

def extend (b other : SerializedValueBatch) : SerializedValueBatch where
  raw := b.raw ++ other.raw
  metadata := b.metadata ++ other.metadata.map (shift b.raw.length)
  maxLsn := max b.maxLsn other.maxLsn
  len := b.len + other.len

/-- The metadata in their set: collecting keeps the last of two equal entries, inserting the
first. -/
abbrev OrderedMetas := SortedMap (ℕ ×ₗ ℕ) ValueMeta

def OrderedMetas.collect (metadata : List ValueMeta) : OrderedMetas :=
  SortedMap.empty.insertAll (metadata.map fun m ↦ (m.place, m))

def OrderedMetas.insertMeta (metas : OrderedMetas) (m : ValueMeta) : OrderedMetas :=
  if (metas.lookup m.place).isSome then metas else metas.insert m.place m

/-- The variables of `zero_gaps`. -/
structure GapFill where
  raw : List UInt8
  orderedMetas : OrderedMetas
  maxLsn : ℕ
  len : ℕ

def zeroPage : V := c.image (List.replicate blcksz 0)

def zeroKey (lsn : ℕ) (s : GapFill) (key : Key) : GapFill :=
  let relativeOff := s.raw.length
  let raw := s.raw ++ c.ser (zeroPage c)
  let valSerSize := raw.length - relativeOff
  { s with
    raw := raw
    orderedMetas := s.orderedMetas.insertMeta
      (.serialized ⟨key.toCompact, lsn, relativeOff, valSerSize, true⟩)
    len := s.len + 1 }

def zeroRange (lsn : ℕ) (stop : Key) : ℕ → Key → GapFill → Option GapFill
  | 0, _, _ => none
  | fuel + 1, key, s =>
    if key = stop then some s
    else key.next.bind fun next ↦ zeroRange lsn stop fuel next (zeroKey c lsn s key)

def zeroGap (fuel : ℕ) (s : GapFill) (gap : List (Key × Key) × ℕ) : Option GapFill :=
  gap.1.foldlM (fun s range ↦ zeroRange c gap.2 range.2 fuel range.1 s)
    { s with maxLsn := max s.maxLsn gap.2 }

def zeroGaps (fuel : ℕ) (b : SerializedValueBatch) (gaps : List (List (Key × Key) × ℕ)) :
    Option SerializedValueBatch :=
  (gaps.foldlM (zeroGap c fuel) ⟨b.raw, .collect b.metadata, b.maxLsn, b.len⟩).map fun s ↦
    ⟨s.raw, s.orderedMetas.entries.map Prod.snd, s.maxLsn, s.len⟩

end Operations

/-! ## What a batch holds -/

section Stores

variable {V : Type} {c : ValueCodec V} {raw : List UInt8} {metas : List ValueMeta} {len : ℕ}
  {ws : List (ℕ × ℕ × V)}

variable (c) in
def readBack (raw : List UInt8) : ValueMeta → Option (ℕ × ℕ × Option V)
  | .serialized m => some (m.key, m.lsn, c.des ((raw.drop m.batchOffset).take m.len))
  | .observed _ _ => none

variable (c) in
/-- The entries of the metadata for serialized values are for the values `ws`, each key and LSN with
the value that was written for it. -/
structure Stores (raw : List UInt8) (metas : List ValueMeta) (len : ℕ) (ws : List (ℕ × ℕ × V)) :
    Prop where
  intact : ∀ m, .serialized m ∈ metas → m.batchOffset + m.len ≤ raw.length
  stored : (metas.filterMap (readBack c raw)).Perm (ws.map fun w ↦ (w.1, w.2.1, some w.2.2))
  len_eq : len = ws.length

theorem Stores.nil : Stores c [] [] 0 [] := ⟨by simp, .refl _, rfl⟩

section

variable (h : Stores c raw metas len ws)
include h

variable {metas' : List ValueMeta}

theorem Stores.perm (hperm : metas'.Perm metas) : Stores c raw metas' len ws :=
  ⟨fun m hm ↦ h.intact m (hperm.mem_iff.mp hm), (hperm.filterMap _).trans h.stored, h.len_eq⟩

theorem Stores.readBack_append (more : List UInt8) :
    metas.filterMap (readBack c (raw ++ more)) = metas.filterMap (readBack c raw) := by
  refine filterMap_congr fun m hm ↦ ?_
  cases m with
  | observed key lsn => rfl
  | serialized m =>
    have hle := h.intact m hm
    rw [readBack, readBack, drop_append_of_le_length (by omega),
      take_append_of_le_length (by rw [length_drop]; omega)]

theorem Stores.observe (key lsn : ℕ) : Stores c raw (metas ++ [.observed key lsn]) len ws := by
  refine ⟨fun m hm ↦ h.intact m (by simpa using hm), ?_, h.len_eq⟩
  rw [filterMap_append]
  exact (append_nil _).symm ▸ h.stored

theorem Stores.push {key lsn size : ℕ} {willInit : Bool} {value : V}
    (hsize : size = (c.ser value).length) :
    Stores c (raw ++ c.ser value) (metas ++ [.serialized ⟨key, lsn, raw.length, size, willInit⟩])
      (len + 1) (ws ++ [(key, lsn, value)]) := by
  have hnew : readBack c (raw ++ c.ser value) (.serialized ⟨key, lsn, raw.length, size, willInit⟩) =
      some (key, lsn, some value) := by
    simp [readBack, hsize, c.des_ser]
  refine ⟨fun m hm ↦ ?_, ?_, by rw [h.len_eq, length_append]; rfl⟩
  · rw [length_append]
    rcases mem_append.mp hm with hm | hm
    · have := h.intact m hm
      omega
    · cases mem_singleton.mp hm
      exact (congrArg (raw.length + ·) hsize).le
  · rw [filterMap_append, h.readBack_append, filterMap_cons_some hnew, map_append]
    exact h.stored.append_right _

theorem Stores.extend {raw' : List UInt8} {len' : ℕ}
    {ws' : List (ℕ × ℕ × V)} (h' : Stores c raw' metas' len' ws') :
    Stores c (raw ++ raw') (metas ++ metas'.map (shift raw.length)) (len + len') (ws ++ ws') := by
  have hshift : (readBack c (raw ++ raw')) ∘ shift raw.length = readBack c raw' := by
    funext m
    cases m with
    | observed key lsn => rfl
    | serialized m =>
      have hdrop : (raw ++ raw').drop (m.batchOffset + raw.length) = raw'.drop m.batchOffset := by
        rw [Nat.add_comm, drop_append, Nat.add_sub_cancel_left, drop_eq_nil_of_le (by omega),
          nil_append]
      simp only [Function.comp_apply, shift, readBack, hdrop]
  refine ⟨fun m hm ↦ ?_, ?_, by rw [h.len_eq, h'.len_eq, length_append]⟩
  · rw [length_append]
    rcases mem_append.mp hm with hm | hm
    · have := h.intact m hm
      omega
    · obtain ⟨m', hm', heq⟩ := mem_map.mp hm
      cases m' with
      | observed key lsn => cases heq
      | serialized m' =>
        cases heq
        have := h'.intact m' hm'
        dsimp only
        omega
  · rw [filterMap_append, h.readBack_append, filterMap_map, hshift, map_append]
    exact h.stored.append h'.stored

end

def largestLsn (ws : List (ℕ × ℕ × V)) : ℕ := (ws.map fun w ↦ w.2.1).foldr max 0

theorem largestLsn_append (ws ws' : List (ℕ × ℕ × V)) :
    largestLsn (ws ++ ws') = max (largestLsn ws) (largestLsn ws') := by
  induction ws with
  | nil => exact (Nat.zero_max _).symm
  | cons w ws ih =>
    simp only [largestLsn, cons_append, map_cons, foldr_cons] at ih ⊢
    rw [ih, Nat.max_assoc]

theorem largestLsn_singleton (w : ℕ × ℕ × V) : largestLsn [w] = w.2.1 := Nat.max_zero _

variable (c) in
/-- **What a batch is for**: it has the values `ws`, counts them, knows the largest LSN, and lists
the entries of each key by LSN. -/
structure Holds (b : SerializedValueBatch) (ws : List (ℕ × ℕ × V)) : Prop where
  stores : Stores c b.raw b.metadata b.len ws
  maxLsn_eq : b.maxLsn = largestLsn ws
  ordered : b.metadata.Pairwise fun m m' ↦ m.key = m'.key → m.lsn ≤ m'.lsn

end Stores

/-! ## Zero pages -/

section Gaps

variable {V : Type} {c : ValueCodec V} {s : GapFill} {ws : List (ℕ × ℕ × V)}

variable (c) in
/-- The set of metadata has the values, and each entry in its place. -/
structure Filling (s : GapFill) (ws : List (ℕ × ℕ × V)) : Prop where
  stores : Stores c s.raw (s.orderedMetas.entries.map Prod.snd) s.len ws
  place : ∀ e ∈ s.orderedMetas.entries, e.1 = e.2.place

variable (c) in
def gapWrites (gap : List (Key × Key) × ℕ) : List (ℕ × ℕ × V) :=
  (gap.1.flatMap fun range ↦ keysBetween range.1 range.2).map fun key ↦
    (key.toCompact, gap.2, zeroPage c)

/-- Where an entry for a written value is put. -/
def placeOf (w : ℕ × ℕ × V) : ℕ ×ₗ ℕ := toLex (w.1, w.2.1)

variable {lsn : ℕ}

theorem Filling.zeroKey (h : Filling c s ws) {key : Key}
    (hnew : ∀ e ∈ s.orderedMetas.entries, e.1 ≠ toLex (key.toCompact, lsn)) :
    Filling c (zeroKey c lsn s key) (ws ++ [(key.toCompact, lsn, zeroPage c)]) ∧
      ((zeroKey c lsn s key).orderedMetas.entries.map Prod.fst).Perm
        (s.orderedMetas.entries.map Prod.fst ++ [toLex (key.toCompact, lsn)]) := by
  obtain ⟨m, hm⟩ : ∃ m : ValueMeta, m = .serialized ⟨key.toCompact, lsn, s.raw.length,
    (s.raw ++ c.ser (zeroPage c)).length - s.raw.length, true⟩ := ⟨_, rfl⟩
  have hplace : m.place = toLex (key.toCompact, lsn) := by rw [hm]; rfl
  have hperm : ((SerializedValueBatch.zeroKey c lsn s key).orderedMetas.entries).Perm
      ((m.place, m) :: s.orderedMetas.entries) := by
    have hnone : s.orderedMetas.lookup m.place = none := by
      rw [Option.eq_none_iff_forall_ne_some]
      intro v hv
      exact hnew _ (SortedMap.lookup_eq_some_iff.mp hv) hplace
    rw [SerializedValueBatch.zeroKey, ← hm, OrderedMetas.insertMeta, hnone]
    exact SortedMap.perm_insert fun e he ↦ hplace.symm ▸ hnew e he
  refine ⟨⟨?_, fun e he ↦ ?_⟩, ?_⟩
  · have hpush : Stores c (s.raw ++ c.ser (zeroPage c)) (s.orderedMetas.entries.map Prod.snd ++ [m])
        (s.len + 1) (ws ++ [(key.toCompact, lsn, zeroPage c)]) := by
      rw [hm]
      exact h.stores.push (by simp)
    exact hpush.perm ((hperm.map Prod.snd).trans (perm_append_singleton _ _).symm)
  · rcases mem_cons.mp (hperm.mem_iff.mp he) with rfl | he
    · rfl
    · exact h.place e he
  · rw [← hplace]
    exact (hperm.map Prod.fst).trans (perm_append_singleton _ _).symm

/-- The keys of the set, and those that are still to come, are all different. -/
def Apart (s : GapFill) (ws : List (ℕ × ℕ × V)) : Prop :=
  (s.orderedMetas.entries.map Prod.fst ++ ws.map placeOf).Nodup

theorem Filling.foldl_zeroKey {keys : List Key} {more : List (ℕ × ℕ × V)} (h : Filling c s ws)
    (hapart : Apart s (keys.map (fun key ↦ (key.toCompact, lsn, zeroPage c)) ++ more)) :
    Filling c (keys.foldl (SerializedValueBatch.zeroKey c lsn) s)
        (ws ++ keys.map fun key ↦ (key.toCompact, lsn, zeroPage c)) ∧
      Apart (keys.foldl (SerializedValueBatch.zeroKey c lsn) s) more ∧
      (keys.foldl (SerializedValueBatch.zeroKey c lsn) s).maxLsn = s.maxLsn := by
  induction keys generalizing s ws with
  | nil => exact ⟨(append_nil ws).symm ▸ h, hapart, rfl⟩
  | cons key keys ih =>
    have hnew : ∀ e ∈ s.orderedMetas.entries, e.1 ≠ toLex (key.toCompact, lsn) := fun e he ↦
      (nodup_append.mp hapart).2.2 _ (mem_map_of_mem he) _ mem_cons_self
    obtain ⟨hstep, hperm⟩ := h.zeroKey hnew
    obtain ⟨hrest, hapart', hmax⟩ := ih hstep (((hperm.append_right _).nodup_iff).mpr (by
      rw [append_assoc]
      exact hapart))
    rw [append_assoc] at hrest
    exact ⟨hrest, hapart', hmax⟩

theorem zeroRange_eq {key stop : Key} {fuel : ℕ} (hle : key ≤ stop)
    (hfuel : stop.rank - key.rank < fuel) (s : GapFill) :
    zeroRange c lsn stop fuel key s = some ((keysBetween key stop).foldl (zeroKey c lsn) s) := by
  induction fuel generalizing key s with
  | zero => exact absurd hfuel (Nat.not_lt_zero _)
  | succ fuel ih =>
    rw [zeroRange]
    split_ifs with heq
    · rw [heq, Pageserver.keysBetween_self]
      rfl
    · have hlt : key < stop := lt_of_le_of_ne hle heq
      obtain ⟨next, hnext, hcons⟩ := Pageserver.keysBetween_cons hlt
      have hrank := Key.rank_next hnext
      rw [Key.lt_iff_rank] at hlt
      rw [hnext, hcons, foldl_cons]
      exact ih (Key.le_iff_rank.mpr (by omega)) (by omega) _

variable (c) in
/-- `zeroGap` without its loops. -/
def fillGap (s : GapFill) (gap : List (Key × Key) × ℕ) : GapFill :=
  (gap.1.flatMap fun range ↦ keysBetween range.1 range.2).foldl
    (SerializedValueBatch.zeroKey c gap.2)
    { s with maxLsn := max s.maxLsn gap.2 }

variable (c) in
theorem foldlM_zeroRange (lsn : ℕ) {ranges : List (Key × Key)}
    (hle : ∀ range ∈ ranges, range.1 ≤ range.2) : ∃ n, ∀ fuel, n ≤ fuel → ∀ s,
      ranges.foldlM (fun s range ↦ zeroRange c lsn range.2 fuel range.1 s) s =
        some ((ranges.flatMap fun range ↦ keysBetween range.1 range.2).foldl
          (zeroKey c lsn) s) := by
  induction ranges with
  | nil => exact ⟨0, fun _ _ _ ↦ rfl⟩
  | cons range ranges ih =>
    obtain ⟨hrange, hle⟩ := forall_mem_cons.mp hle
    obtain ⟨n, hn⟩ := ih hle
    refine ⟨max n (range.2.rank - range.1.rank + 1), fun fuel hfuel s ↦ ?_⟩
    rw [foldlM_cons, zeroRange_eq hrange (le_of_max_le_right hfuel), flatMap_cons, foldl_append]
    exact hn fuel (le_of_max_le_left hfuel) _

/-- All gaps are key spaces, and none of them is empty. -/
def ProperGaps (gaps : List (List (Key × Key) × ℕ)) : Prop :=
  ∀ gap ∈ gaps, IsKeySpace gap.1 ∧ gap.1 ≠ []

theorem largestLsn_gapWrites {gap : List (Key × Key) × ℕ} (hgap : IsKeySpace gap.1)
    (hne : gap.1 ≠ []) : largestLsn (gapWrites c gap) = gap.2 := by
  have hall (keys : List Key) (hkeys : keys ≠ []) :
      largestLsn (keys.map fun key ↦ (key.toCompact, gap.2, zeroPage c)) = gap.2 := by
    induction keys with
    | nil => exact absurd rfl hkeys
    | cons key keys ih =>
      rw [map_cons, ← singleton_append, largestLsn_append, largestLsn_singleton]
      by_cases hkeys : keys = []
      · rw [hkeys]
        exact Nat.max_zero _
      · rw [ih hkeys, Nat.max_self]
  refine hall _ fun hnil ↦ ?_
  obtain ⟨range, ranges, hcons⟩ := exists_cons_of_ne_nil hne
  rw [hcons] at hgap hnil
  have hmem : range.1 ∈ keysBetween range.1 range.2 :=
    Pageserver.mem_keysBetween.mpr ⟨le_rfl, hgap.nonempty range mem_cons_self⟩
  rw [flatMap_cons, append_eq_nil_iff] at hnil
  exact ne_nil_of_mem hmem hnil.1

variable {gaps : List (List (Key × Key) × ℕ)}

theorem foldlM_zeroGap (hgaps : ProperGaps gaps) :
    ∃ n, ∀ fuel, n ≤ fuel → ∀ s, gaps.foldlM (zeroGap c fuel) s =
      some (gaps.foldl (fillGap c) s) := by
  induction gaps with
  | nil => exact ⟨0, fun _ _ _ ↦ rfl⟩
  | cons gap gaps ih =>
    obtain ⟨⟨hgap, -⟩, hgaps⟩ := forall_mem_cons.mp hgaps
    obtain ⟨n, hn⟩ := ih hgaps
    obtain ⟨m, hm⟩ := foldlM_zeroRange c gap.2 fun range hrange ↦ (hgap.nonempty range hrange).le
    refine ⟨max n m, fun fuel hfuel s ↦ ?_⟩
    rw [foldlM_cons, zeroGap, hm fuel (le_of_max_le_right hfuel)]
    exact hn fuel (le_of_max_le_left hfuel) _

theorem Filling.foldl_fillGap (hgaps : ProperGaps gaps) (h : Filling c s ws)
    (hmax : s.maxLsn = largestLsn ws) (hapart : Apart s (gaps.flatMap (gapWrites c))) :
    Filling c (gaps.foldl (fillGap c) s) (ws ++ gaps.flatMap (gapWrites c)) ∧
      (gaps.foldl (fillGap c) s).maxLsn = largestLsn (ws ++ gaps.flatMap (gapWrites c)) := by
  induction gaps generalizing s ws with
  | nil =>
    rw [flatMap_nil, append_nil]
    exact ⟨h, hmax⟩
  | cons gap gaps ih =>
    obtain ⟨⟨hgap, hne⟩, hgaps⟩ := forall_mem_cons.mp hgaps
    have hstart : Filling c { s with maxLsn := max s.maxLsn gap.2 } ws := ⟨h.stores, h.place⟩
    obtain ⟨hfill, hapart, hmax'⟩ := hstart.foldl_zeroKey hapart
    have hlargest : (fillGap c s gap).maxLsn = largestLsn (ws ++ gapWrites c gap) := by
      rw [largestLsn_append, largestLsn_gapWrites hgap hne, ← hmax]
      exact hmax'
    rw [flatMap_cons, ← append_assoc]
    exact ih hgaps hfill hlargest hapart

/-- The entries of a batch and the values for its gaps have different keys or LSNs. -/
def Distinct (b : SerializedValueBatch) (ws : List (ℕ × ℕ × V)) : Prop :=
  (b.metadata.map place ++ ws.map placeOf).Nodup

variable {b : SerializedValueBatch}

theorem Holds.zeroGaps (h : Holds c b ws) (hgaps : ProperGaps gaps)
    (hdistinct : Distinct b (gaps.flatMap (gapWrites c))) :
    ∃ n b', (∀ fuel, n ≤ fuel → b.zeroGaps c fuel gaps = some b') ∧
      Holds c b' (ws ++ gaps.flatMap (gapWrites c)) := by
  have hkeys : (b.metadata.map fun m ↦ (m.place, m)).map Prod.fst = b.metadata.map place := by
    rw [map_map]
    rfl
  have hperm : (OrderedMetas.collect b.metadata).entries.Perm
    (b.metadata.map fun m ↦ (m.place, m)) := by
    refine SortedMap.perm_insertAll ?_
    rw [hkeys]
    exact (nodup_append.mp hdistinct).1
  have hfill : Filling c ⟨b.raw, .collect b.metadata, b.maxLsn, b.len⟩ ws := by
    refine ⟨h.stores.perm ?_, fun e he ↦ ?_⟩
    · have hsnd := hperm.map Prod.snd
      rw [map_map] at hsnd
      exact hsnd.trans (.of_eq (map_id _))
    · obtain ⟨m, -, rfl⟩ := mem_map.mp (hperm.mem_iff.mp he)
      rfl
  have hapart : Apart ⟨b.raw, .collect b.metadata, b.maxLsn, b.len⟩
    (gaps.flatMap (gapWrites c)) := by
    refine (((hperm.map Prod.fst).append_right _).nodup_iff).mpr ?_
    rw [hkeys]
    exact hdistinct
  obtain ⟨n, hn⟩ := foldlM_zeroGap hgaps
  obtain ⟨hfilled, hmax⟩ := hfill.foldl_fillGap hgaps h.maxLsn_eq hapart
  refine ⟨n, _, fun fuel hfuel ↦
    congrArg (Option.map _) (hn fuel hfuel _), hfilled.stores, hmax, ?_⟩
  refine pairwise_map.mpr ((SortedMap.sorted _).imp_of_mem fun he he' hlt hkey ↦ ?_)
  rw [hfilled.place _ he, hfilled.place _ he', place, place, Prod.Lex.toLex_lt_toLex, hkey] at hlt
  exact (hlt.resolve_left (lt_irrefl _)).2.le

/-- Every batch that the operations make, with the values that were written to it. LSNs of a key do
not decrease, sizes are those of the serialized values, and no two entries of a batch with filled
gaps have the same key and LSN. -/
inductive Built (c : ValueCodec V) : SerializedValueBatch → List (ℕ × ℕ × V) → Prop where
  | default : Built c {} []
  | fromValues (values : List (ℕ × ℕ × ℕ × V))
    (hsize : ∀ x ∈ values, x.2.2.1 = (c.ser x.2.2.2).length)
    (hlsn : values.Pairwise fun x y ↦ x.1 = y.1 → x.2.1 ≤ y.2.1) :
    Built c (fromValues c values) (values.map fun x ↦ (x.1, x.2.1, x.2.2.2))
  | observe {b : SerializedValueBatch} {ws : List (ℕ × ℕ × V)} (h : Built c b ws)
    (key : Key) (lsn : ℕ)
    (hlsn : ∀ m ∈ b.metadata, m.key = key.toCompact → m.lsn ≤ lsn) : Built c (b.observe key lsn) ws
  | put {b : SerializedValueBatch} {ws : List (ℕ × ℕ × V)} (h : Built c b ws) (key : ℕ) (value : V)
    (lsn : ℕ) (hlsn : ∀ m ∈ b.metadata, m.key = key → m.lsn ≤ lsn) :
    Built c (b.put c key value lsn) (ws ++ [(key, lsn, value)])
  | extend {b b' : SerializedValueBatch} {ws ws' : List (ℕ × ℕ × V)} (h : Built c b ws)
    (h' : Built c b' ws') (hlsn : ∀ m ∈ b.metadata, ∀ m' ∈ b'.metadata, m.key = m'.key →
      m.lsn ≤ m'.lsn) :
    Built c (b.extend b') (ws ++ ws')
  | zeroGaps {b b' : SerializedValueBatch} {ws : List (ℕ × ℕ × V)} (h : Built c b ws)
    {gaps : List (List (Key × Key) × ℕ)} (hgaps : ProperGaps gaps)
    (hdistinct : Distinct b (gaps.flatMap (gapWrites c))) {n : ℕ}
    (hrun : ∀ fuel, n ≤ fuel → b.zeroGaps c fuel gaps = some b') :
      Built c b' (ws ++ gaps.flatMap (gapWrites c))

variable (c) in
/-- The loop of `from_values` after the values `ws`. -/
structure Pushed (b : SerializedValueBatch) (ws : List (ℕ × ℕ × V)) : Prop where
  stores : Stores c b.raw b.metadata ws.length ws
  maxLsn_eq : b.maxLsn = largestLsn ws
  metas : b.metadata.map (fun m ↦ (m.key, m.lsn)) = ws.map fun w ↦ (w.1, w.2.1)

theorem Pushed.pushValue (h : Pushed c b ws) {x : ℕ × ℕ × ℕ × V}
    (hsize : x.2.2.1 = (c.ser x.2.2.2).length) :
    Pushed c (pushValue c b x) (ws ++ [(x.1, x.2.1, x.2.2.2)]) := by
  refine ⟨?_, ?_, ?_⟩
  · rw [length_append]
    exact h.stores.push hsize
  · rw [largestLsn_append, largestLsn_singleton, ← h.maxLsn_eq]
    rfl
  · rw [SerializedValueBatch.pushValue, map_append, h.metas, map_append]
    rfl

variable {values : List (ℕ × ℕ × ℕ × V)}

theorem Pushed.foldl (h : Pushed c b ws) (hsize : ∀ x ∈ values, x.2.2.1 = (c.ser x.2.2.2).length) :
    Pushed c (values.foldl (SerializedValueBatch.pushValue c) b)
      (ws ++ values.map fun x ↦ (x.1, x.2.1, x.2.2.2)) := by
  induction values generalizing b ws with
  | nil => exact (append_nil ws).symm ▸ h
  | cons x values ih =>
    obtain ⟨hx, hsize⟩ := forall_mem_cons.mp hsize
    have hrest := ih (h.pushValue hx) hsize
    rw [append_assoc] at hrest
    exact hrest

theorem Holds.fromValues (hsize : ∀ x ∈ values, x.2.2.1 = (c.ser x.2.2.2).length)
    (hlsn : values.Pairwise fun x y ↦ x.1 = y.1 → x.2.1 ≤ y.2.1) :
    Holds c (fromValues c values) (values.map fun x ↦ (x.1, x.2.1, x.2.2.2)) := by
  have hinit : Pushed c {} [] := ⟨.nil, rfl, rfl⟩
  obtain ⟨hstores, hmax, hmetas⟩ := hinit.foldl hsize
  rw [nil_append, length_map] at hstores
  rw [nil_append] at hmax hmetas
  refine ⟨hstores, hmax, ?_⟩
  have hpairs : ((values.foldl (pushValue c) {}).metadata.map fun m ↦ (m.key, m.lsn)).Pairwise
      fun p q ↦ p.1 = q.1 → p.2 ≤ q.2 := by
    rw [hmetas, map_map]
    exact pairwise_map.mpr hlsn
  exact pairwise_map.mp hpairs

/-- **Every batch holds what was written to it**, and gaps can always be filled. -/
theorem Built.holds {b : SerializedValueBatch} (h : Built c b ws) :
    Holds c b ws ∧ ∀ gaps, ProperGaps gaps → ∃ n, ∀ fuel, n ≤ fuel →
      (b.zeroGaps c fuel gaps).isSome := by
  refine ⟨?_, fun gaps hgaps ↦ ?_⟩
  · induction h with
    | default => exact ⟨.nil, rfl, .nil⟩
    | fromValues values hsize hlsn => exact .fromValues hsize hlsn
    | observe h key lsn hlsn ih =>
      refine ⟨ih.stores.observe _ _, ih.maxLsn_eq, pairwise_append.mpr ⟨ih.ordered, by simp, ?_⟩⟩
      exact fun m hm ↦ forall_mem_singleton.mpr (hlsn m hm)
    | put h key value lsn hlsn ih =>
      refine ⟨ih.stores.push (by simp), ?_, pairwise_append.mpr ⟨ih.ordered, by simp, ?_⟩⟩
      · rw [largestLsn_append, largestLsn_singleton, ← ih.maxLsn_eq]
        rfl
      · exact fun m hm ↦ forall_mem_singleton.mpr (hlsn m hm)
    | extend h h' hlsn ih ih' =>
      refine ⟨ih.stores.extend ih'.stores, ?_, pairwise_append.mpr ⟨ih.ordered, ?_, ?_⟩⟩
      · rw [largestLsn_append, ← ih.maxLsn_eq, ← ih'.maxLsn_eq]
        rfl
      · exact pairwise_map.mpr (by simpa using ih'.ordered)
      · intro m hm m' hm' hkey
        obtain ⟨m₀, hm₀, rfl⟩ := mem_map.mp hm'
        rw [key_shift] at hkey
        rw [lsn_shift]
        exact hlsn m hm m₀ hm₀ hkey
    | zeroGaps h hgaps hdistinct hrun ih =>
      obtain ⟨m, b', hm, hholds⟩ := ih.zeroGaps hgaps hdistinct
      have hsame := (hrun _ (le_max_left _ m)).symm.trans (hm _ (le_max_right _ m))
      exact Option.some.inj hsame ▸ hholds
  · obtain ⟨n, hn⟩ := foldlM_zeroGap hgaps
    exact ⟨n, fun fuel hfuel ↦ by rw [SerializedValueBatch.zeroGaps, hn fuel hfuel]; rfl⟩

end Gaps

/-! ## Pages -/

/-- Values whose length fits into 64 bits. -/
abbrev SizedValue := { v : PageValue // v.bytes.length < 2 ^ 64 }

def pageCodec : ValueCodec SizedValue where
  ser v := v.1.ser
  des buf := (PageValue.des buf).bind fun v ↦
    if h : v.bytes.length < 2 ^ 64 then some ⟨v, h⟩ else none
  willInit v := v.1.willInit
  image img := if h : img.length < 2 ^ 64 then ⟨.image img, h⟩ else ⟨.image [], Nat.two_pow_pos 64⟩
  des_ser v := by rw [PageValue.des_ser v.1 v.2, Option.bind_some, dif_pos v.2]

theorem sampleValue_length (byte : UInt8) : (PageValue.bytes (.image [byte])).length < 2 ^ 64 :=
  show 1 < 2 ^ 64 by decide

def sampleValue (byte : UInt8) : SizedValue := ⟨.image [byte], sampleValue_length byte⟩

/-- A value, a key that is only noted, and another batch. -/
theorem built_holds_extend :
    Holds pageCodec (((({} : SerializedValueBatch).put pageCodec 7 (sampleValue 1) 16).observe
        (.fromCompact 8) 16).extend (fromValues pageCodec [(7, 24, 13, sampleValue 2)]))
      [(7, 16, sampleValue 1), (7, 24, sampleValue 2)] ∧
    ∀ gaps, ProperGaps gaps → ∃ n, ∀ fuel, n ≤ fuel →
      ((((({} : SerializedValueBatch).put pageCodec 7 (sampleValue 1) 16).observe
        (.fromCompact 8) 16).extend (fromValues pageCodec [(7, 24, 13, sampleValue 2)])).zeroGaps
          pageCodec fuel gaps).isSome :=
  Built.holds (.extend (.observe (.put .default 7 (sampleValue 1) 16 (by simp)) (.fromCompact 8) 16
    (by decide)) (.fromValues [(7, 24, 13, sampleValue 2)] (by decide) (by decide)) (by decide))

/-- Two values for one key and LSN become one when gaps are filled; a value is not read back with a
wrong size; and a gap without keys raises the LSN. -/
theorem zeroGaps_loses_value :
    (∃ b', (((({} : SerializedValueBatch).put pageCodec 7 (sampleValue 1) 16).put pageCodec 7
      (sampleValue 2)
        16).zeroGaps pageCodec 1 []) = some b' ∧ b'.len = 2 ∧ b'.metadata.length = 1) ∧
    (fromValues pageCodec [(7, 16, 0, sampleValue 1)]).metadata.filterMap
      (readBack pageCodec (fromValues pageCodec [(7, 16, 0, sampleValue 1)]).raw) =
        [(7, 16, none)] ∧
    ∃ b', ({} : SerializedValueBatch).zeroGaps pageCodec 1 [([], 16)] = some b' ∧ b'.metadata = [] ∧
      b'.maxLsn = 16 :=
  ⟨⟨_, rfl, rfl, rfl⟩, rfl, ⟨_, rfl, rfl, rfl⟩⟩

end SerializedValueBatch

end NeonStorage.Ingest
