import NeonStorage.Pageserver.Layer

/-!
# Selecting the layer to read

A read that has come down to some LSN has up to three candidates for the layer to read next: the
delta layer and the image layer that reach highest at the key, and the newest layer in memory.
`select_layer` chooses among them, and says how far down the chosen one is to be read.
-/

namespace NeonStorage.Pageserver

/-- A layer on disk. An image layer is a snapshot at one LSN. -/
structure PersistentLayerDesc extends Rect where
  isDelta : Bool
  lsn_lt : lsnStart < lsnEnd
  image_end : isDelta = false → lsnEnd = lsnStart + 1
  deriving DecidableEq

def PersistentLayerDesc.Covers (l : PersistentLayerDesc) (key : Key) : Prop :=
  l.keyStart ≤ key ∧ key < l.keyEnd
  deriving Decidable

/-- `Lsn::MAX`. -/
def lsnMax : ℕ := 2 ^ 64 - 1

/-- `lsn - 1` on `u64`, which wraps around. -/
def lsnPred (lsn : ℕ) : ℕ := if lsn = 0 then lsnMax else lsn - 1

theorem le_lsnPred_iff {endLsn lsn : ℕ} (h0 : 0 < endLsn) :
    lsn ≤ lsnPred endLsn ↔ lsn < endLsn := by
  rw [lsnPred, if_neg h0.ne']
  omega

/-- A layer in memory; `endLsn` is set when it is frozen. It has all keys. -/
structure InMemoryLayer where
  startLsn : ℕ
  endLsn : Option ℕ
  deriving DecidableEq

namespace InMemoryLayer

def endLsnOrMax (l : InMemoryLayer) : ℕ := l.endLsn.getD lsnMax

end InMemoryLayer

inductive ReadableLayer where
  | persistentLayer (l : PersistentLayerDesc)
  | inMemoryLayer (l : InMemoryLayer)
  deriving DecidableEq

namespace ReadableLayer

def isImage : ReadableLayer → Bool
  | persistentLayer l => !l.isDelta
  | inMemoryLayer _ => false

/-- The key and the LSN are in the ranges of the layer. -/
def InRange (key : Key) (lsn : ℕ) : ReadableLayer → Prop
  | persistentLayer l => l.Covers key ∧ l.lsnStart ≤ lsn ∧ lsn < l.lsnEnd
  | inMemoryLayer l => l.startLsn ≤ lsn ∧ lsn < l.endLsnOrMax

end ReadableLayer

structure SearchResult where
  layer : ReadableLayer
  lsnFloor : ℕ
  deriving DecidableEq

namespace LayerMap

/-! ## `select_layer` -/

def selectDeltaOrImage (delta image : PersistentLayerDesc) (endLsn : ℕ) : SearchResult :=
  let imgLsn := image.lsnStart
  let imageIsNewer := image.lsnEnd ≥ delta.lsnEnd
  let imageExactMatch := imgLsn + 1 = endLsn
  if imageIsNewer ∨ imageExactMatch then ⟨.persistentLayer image, imgLsn⟩
  else ⟨.persistentLayer delta, max delta.lsnStart (image.lsnStart + 1)⟩

def selectImageOrInMemory (image : PersistentLayerDesc) (inmem : InMemoryLayer) (endLsn : ℕ) :
    SearchResult :=
  let imgLsn := image.lsnStart
  let imageIsNewer := image.lsnEnd ≥ inmem.endLsnOrMax
  let imageExactMatch := imgLsn + 1 = endLsn
  if imageIsNewer ∨ imageExactMatch then ⟨.persistentLayer image, imgLsn⟩
  else ⟨.inMemoryLayer inmem, max inmem.startLsn (image.lsnStart + 1)⟩

def selectDeltaOrInMemory (delta : PersistentLayerDesc) (inmem : InMemoryLayer) (endLsn : ℕ) :
    SearchResult :=
  let deltaIsNewer := delta.lsnEnd ≥ inmem.endLsnOrMax
  let deltaExactMatch := delta.lsnEnd = endLsn
  if deltaIsNewer ∨ deltaExactMatch then ⟨.persistentLayer delta, delta.lsnStart⟩
  else ⟨.inMemoryLayer inmem, max inmem.startLsn delta.lsnEnd⟩

/-- `select_layer`; its recursive calls for three candidates are calls for two. -/
def selectLayer (delta image : Option PersistentLayerDesc) (inmem : Option InMemoryLayer)
    (endLsn : ℕ) : Option SearchResult :=
  match delta, image, inmem with
  | none, none, none => none
  | none, some image, none => some ⟨.persistentLayer image, image.lsnStart⟩
  | some delta, none, none => some ⟨.persistentLayer delta, delta.lsnStart⟩
  | some delta, some image, none => some (selectDeltaOrImage delta image endLsn)
  | none, none, some inmem => some ⟨.inMemoryLayer inmem, inmem.startLsn⟩
  | none, some image, some inmem => some (selectImageOrInMemory image inmem endLsn)
  | some delta, none, some inmem => some (selectDeltaOrInMemory delta inmem endLsn)
  | some delta, some image, some inmem =>
    let persistentRes := selectDeltaOrImage delta image endLsn
    let inmemRes :=
      if persistentRes.layer.isImage then selectImageOrInMemory image inmem endLsn
      else selectDeltaOrInMemory delta inmem endLsn
    some ⟨inmemRes.layer, max persistentRes.lsnFloor inmemRes.lsnFloor⟩

end LayerMap

end NeonStorage.Pageserver
