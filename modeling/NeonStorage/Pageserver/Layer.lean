import NeonStorage.Lib.KMerge
import NeonStorage.Pageserver.Key

/-!
# Layers

A layer is a rectangle of keys and LSNs with records in it. A delta layer is built by a writer that
takes its records in the order of key and LSN and learns the end of its key range last. Several
layers are read in one order by a merge iterator.
-/

namespace NeonStorage.Pageserver

/-- A version of a page: an image, or a WAL record to apply to an older one. -/
inductive Value (Img Rec : Type) where
  | image (img : Img)
  | walRecord (rec : Rec)
  deriving DecidableEq

/-- An image comes before a WAL record of the same key and LSN. -/
def Value.order {Img Rec : Type} : Value Img Rec → ℕ
  | image _ => 1
  | walRecord _ => 2

structure Rect where
  keyStart : Key
  keyEnd : Key
  lsnStart : ℕ
  lsnEnd : ℕ
  deriving DecidableEq

def Rect.Contains (r : Rect) (key : Key) (lsn : ℕ) : Prop :=
  (r.keyStart ≤ key ∧ key < r.keyEnd) ∧ r.lsnStart ≤ lsn ∧ lsn < r.lsnEnd
  deriving Decidable

variable {Img Rec : Type}

/-- One version of one key. -/
structure Record (Img Rec : Type) where
  key : Key
  lsn : ℕ
  value : Value Img Rec
  deriving DecidableEq

variable {r r' : Record Img Rec}

namespace Record

/-- Where a record is in the order of key and LSN. -/
def pos (r : Record Img Rec) : Key ×ₗ ℕ := toLex (r.key, r.lsn)

/-- The order in which a merge iterator gives records. -/
def mergeKey (r : Record Img Rec) : Key ×ₗ ℕ ×ₗ ℕ :=
  toLex (r.key, toLex (r.lsn, r.value.order))

theorem pos_lt_iff : r.pos < r'.pos ↔ r.key < r'.key ∨ r.key = r'.key ∧ r.lsn < r'.lsn :=
  Prod.Lex.lt_iff

theorem pos_le_iff : r.pos ≤ r'.pos ↔ r.key < r'.key ∨ r.key = r'.key ∧ r.lsn ≤ r'.lsn :=
  Prod.Lex.le_iff

theorem pos_eq_iff : r.pos = r'.pos ↔ r.key = r'.key ∧ r.lsn = r'.lsn := by
  simp [pos]

end Record

/-- A delta layer: its records are in order and inside its rectangle. No record has LSN 0, which is
`Lsn::INVALID`. -/
structure DeltaLayer (Img Rec : Type) extends Rect where
  /-- The records with the space each takes in the file. -/
  entries : List (Record Img Rec × ℕ)
  fileSize : ℕ
  lsn_lt : lsnStart < lsnEnd
  sorted : entries.Pairwise fun a b ↦ a.1.pos < b.1.pos
  inside : ∀ e ∈ entries, toRect.Contains e.1.key e.1.lsn
  valid : ∀ e ∈ entries, e.1.lsn ≠ 0

def DeltaLayer.records (l : DeltaLayer Img Rec) : List (Record Img Rec) := l.entries.map Prod.fst

/-! ## Writing a delta layer -/

structure NewLayer (Img Rec : Type) extends Rect where
  records : List (Record Img Rec)
  deriving DecidableEq

/-- `DeltaLayerWriter`: where its layer begins, and the records so far. -/
structure DeltaLayerWriter (Img Rec : Type) where
  keyStart : Key
  lsnStart : ℕ
  lsnEnd : ℕ
  records : List (Record Img Rec)

namespace DeltaLayerWriter

/-- `put_value`; `none` if the record is below the LSN range or out of order. -/
def putValue (w : DeltaLayerWriter Img Rec) (r : Record Img Rec) :
    Option (DeltaLayerWriter Img Rec) :=
  if w.lsnStart ≤ r.lsn && w.records.getLast?.all fun last ↦ decide (last.pos < r.pos) then
    some { w with records := w.records ++ [r] }
  else none

def s3UploadLimit : ℕ := 4500000000

/-- `finish`, where `fileSize` is the size of the finished file. -/
def finish (fileSize : List (Record Img Rec) → ℕ) (w : DeltaLayerWriter Img Rec) (keyEnd : Key) :
    Option (NewLayer Img Rec) :=
  if w.lsnStart < w.lsnEnd ∧ fileSize w.records ≤ s3UploadLimit then
    some ⟨⟨w.keyStart, keyEnd, w.lsnStart, w.lsnEnd⟩, w.records⟩
  else none

end DeltaLayerWriter

/-! ## Reading layers in order -/

/-- `IteratorWrapper::create_from_delta_layer`: nothing is read yet. -/
def DeltaLayer.source (l : DeltaLayer Img Rec) :
    KMerge.Source (Record Img Rec) (Key ×ₗ ℕ ×ₗ ℕ) :=
  ⟨toLex (l.keyStart, toLex (l.lsnStart, 0)), false, l.records⟩

variable (deltas : List (DeltaLayer Img Rec))

/-- `MergeIterator` over delta layers, run to its end. -/
def mergeIterator : Option (List (Record Img Rec)) :=
  KMerge.merge Record.mergeKey (fun r r' ↦ decide (r'.pos < r.pos)) (deltas.map DeltaLayer.source)

theorem Record.mergeKey_le_of_pos_lt (h : r.pos < r'.pos) : r.mergeKey ≤ r'.mergeKey := by
  rw [pos_lt_iff] at h
  simp only [mergeKey, Prod.Lex.le_iff, ofLex_toLex]
  rcases h with h | ⟨h, h'⟩
  · exact .inl h
  · exact .inr ⟨h, .inl h'⟩

theorem Record.pos_le_of_mergeKey_le (h : r.mergeKey ≤ r'.mergeKey) : r.pos ≤ r'.pos := by
  simp only [mergeKey, Prod.Lex.le_iff, ofLex_toLex] at h
  rw [pos_le_iff]
  rcases h with h | ⟨h, h' | ⟨h', -⟩⟩
  · exact .inl h
  · exact .inr ⟨h, h'.le⟩
  · exact .inr ⟨h, h'.le⟩

variable (l : DeltaLayer Img Rec)

theorem DeltaLayer.records_sorted : l.records.Pairwise fun a b ↦ a.pos < b.pos :=
  List.pairwise_map.mpr l.sorted

theorem DeltaLayer.contains_of_mem (hr : r ∈ l.records) : l.toRect.Contains r.key r.lsn := by
  obtain ⟨e, he, rfl⟩ := List.mem_map.mp hr
  exact l.inside e he

theorem DeltaLayer.source_ordered :
    l.source.Ordered Record.mergeKey fun r r' ↦ decide (r'.pos < r.pos) where
  sorted := l.records_sorted.imp Record.mergeKey_le_of_pos_lt
  good := l.records_sorted.imp fun h ↦ decide_eq_false h.not_gt
  bound r hr := by
    obtain ⟨⟨hkey, -⟩, hlsn, -⟩ := l.contains_of_mem hr
    simp only [Record.mergeKey, Prod.Lex.le_iff, ofLex_toLex]
    rcases hkey.lt_or_eq with hkey | hkey
    · exact .inl hkey
    · refine .inr ⟨hkey, ?_⟩
      rcases hlsn.lt_or_eq with hlsn | hlsn
      · exact .inl hlsn
      · exact .inr ⟨hlsn, Nat.zero_le _⟩

/-- **A merge iterator gives all records of the layers in the order of key and LSN.** -/
theorem mergeIterator_spec :
    ∃ out, mergeIterator deltas = some out ∧ out.Perm (deltas.flatMap DeltaLayer.records) ∧
      out.Pairwise fun a b ↦ a.pos ≤ b.pos := by
  obtain ⟨out, hout, hperm, hsorted⟩ := KMerge.merge_spec (deltas.map DeltaLayer.source)
    fun s hs ↦ by
      obtain ⟨l, -, rfl⟩ := List.mem_map.mp hs
      exact l.source_ordered
  refine ⟨out, hout, ?_, hsorted.imp Record.pos_le_of_mergeKey_le⟩
  rwa [List.flatMap_map] at hperm

end NeonStorage.Pageserver
