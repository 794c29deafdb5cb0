import NeonStorage.Pageserver.Layer
import NeonStorage.Pageserver.Shard

/-!
# Compaction of level 0

`compact_level0_phase1` picks the oldest level 0 layers that follow each other without a gap and
writes their records anew, in the order of key and LSN, into layers of about the target size. Two
iterators run over the same data: `all_values_iter` gives the records, `all_keys_iter` the space
that a key takes, read one item ahead. A key with more data than fits is cut along the LSN axis;
`dupStartLsn` and `dupEndLsn` are the bounds of the piece that is being written, zero if there is
none.
-/

namespace NeonStorage.Pageserver.Level0

variable {Img Rec : Type}

/-- A layer of level 0 covers all keys. -/
structure Delta (Img Rec : Type) extends DeltaLayer Img Rec where
  keyStart_eq : keyStart = Key.min
  keyEnd_eq : keyEnd = Key.max

/-- What the compaction depends on besides the layers. The sizes of a layer that is being written
and of a finished file are functions of the records in it. -/
structure Env (Img Rec : Type) where
  targetFileSize : ℕ
  /-- The key ranges that no layer should cover without need, by their start. -/
  holes : List (Key × Key)
  shard : ShardIdentity
  writtenSize : List (Record Img Rec) → ℕ
  fileSize : List (Record Img Rec) → ℕ
  compactionThreshold : ℕ
  compactionUpperLimit : ℕ
  checkpointDistance : ℕ
  forceCompactionIgnoreThreshold : Bool
  forceCompactionLsn : Option ℕ

def defaultCheckpointDistance : ℕ := 256 * 1024 * 1024

/-! ## Selection -/

variable (env : Env Img Rec) (level0Deltas : List (Delta Img Rec))

def worthwhile : Bool :=
  if level0Deltas.isEmpty || level0Deltas.length < env.compactionThreshold then
    if env.forceCompactionIgnoreThreshold then !level0Deltas.isEmpty
    else
      match (level0Deltas.map fun l ↦ l.lsnStart).min?, env.forceCompactionLsn with
      | some minLsn, some lsn => minLsn < lsn
      | _, _ => false
  else true

/-- The layers that follow one that ends at `prevLsnEnd`, until there is a gap or more than `limit`
bytes are selected; the flag says that no layer was left out for its size. -/
def follow (limit : ℕ) :
    List (Delta Img Rec) → ℕ → ℕ → List (Delta Img Rec) × Bool
  | [], _, _ => ([], true)
  | l :: rest, prevLsnEnd, bytes =>
    if l.lsnStart ≠ prevLsnEnd then ([], true)
    else if limit ≤ bytes + l.fileSize then ([l], false)
    else
      let (ls, fully) := follow limit rest l.lsnEnd (bytes + l.fileSize)
      (l :: ls, fully)

def deltaSizeLimit : ℕ :=
  max env.compactionUpperLimit env.compactionThreshold *
    max env.checkpointDistance defaultCheckpointDistance

/-- The layers to compact. The size of the first one does not count. -/
def select : List (Delta Img Rec) × Bool :=
  match level0Deltas.mergeSort fun a b ↦ decide (a.lsnStart ≤ b.lsnStart) with
  | [] => ([], true)
  | first :: rest =>
    let (ls, fully) := follow (deltaSizeLimit env) rest first.lsnEnd 0
    (first :: ls, fully)

/-! ## The iterator over the keys -/

/-- The space a run of versions of a key takes: the key, the LSN of the first one and the size. -/
structure KeySize where
  key : Key
  lsn : ℕ
  size : ℕ
  deriving DecidableEq

def coalesceFrom (target : ℕ) (prev : KeySize) : List KeySize → List KeySize
  | [] => [prev]
  | cur :: rest =>
    if prev.key = cur.key ∧ prev.size < target then
      coalesceFrom target { prev with size := prev.size + cur.size } rest
    else prev :: coalesceFrom target cur rest

/-- Versions of one key count as one item, up to the target size. -/
def coalesce (target : ℕ) : List KeySize → List KeySize
  | [] => []
  | first :: rest => coalesceFrom target first rest

def allKeys (deltas : List (Delta Img Rec)) : List KeySize :=
  ((deltas.flatMap fun l ↦ l.entries).mergeSort fun a b ↦ decide (a.1.pos ≤ b.1.pos)).map
    fun e ↦ ⟨e.1.key, e.1.lsn, e.2⟩

/-! ## The merge loop -/

structure Merging (Img Rec : Type) where
  newLayers : List (NewLayer Img Rec)
  prevKey : Option Key
  writer : Option (DeltaLayerWriter Img Rec)
  keyValuesTotalSize : ℕ
  dupStartLsn : ℕ
  dupEndLsn : ℕ
  nextHole : ℕ
  allKeysIter : List KeySize

/-- What the inner loop leaves behind. -/
structure Scan where
  iter : List KeySize
  nextKeySize : ℕ
  total : ℕ
  dupStartLsn : ℕ
  dupEndLsn : ℕ

/-- The inner loop: the size of `key` from `lsn` on, up to the next key or to where the key has to
be cut. -/
def scanKey (target lsnRangeEnd : ℕ) (key : Key) (lsn : ℕ) (iter : List KeySize)
    (nextKeySize total dupStartLsn dupEndLsn : ℕ) : Scan :=
  match iter with
  | [] => ⟨[], nextKeySize, total, dupStartLsn, dupEndLsn⟩
  | next :: iter =>
    if key ≠ next.key then
      if dupEndLsn ≠ 0 then ⟨iter, next.size, total, dupEndLsn, lsnRangeEnd⟩
      else ⟨iter, next.size, total, dupStartLsn, dupEndLsn⟩
    else if target < total + next.size ∧ lsn ≠ next.lsn then
      ⟨iter, next.size, total + next.size, if dupEndLsn ≠ 0 then dupEndLsn else lsn, next.lsn⟩
    else scanKey target lsnRangeEnd key lsn iter next.size (total + next.size) dupStartLsn dupEndLsn

/-- The bounds after the inner loop: if it ran to the end of the iterator inside a cut key, what
remains of the key is the last piece. -/
def Scan.close (lsnRangeEnd : ℕ) (s : Scan) : Scan :=
  if s.dupEndLsn ≠ 0 ∧ s.dupStartLsn = 0 then
    { s with dupStartLsn := s.dupEndLsn, dupEndLsn := lsnRangeEnd }
  else s

variable (st : Merging Img Rec)

/-- Finish the layer that is being written, up to the last key seen. -/
def flushWriter (w : DeltaLayerWriter Img Rec) : Option (Merging Img Rec) := do
  let prevKey ← st.prevKey
  let keyEnd ← prevKey.next
  let layer ← w.finish env.fileSize keyEnd
  some { st with newLayers := st.newLayers ++ [layer], writer := none }

def containsHole (nextHole : ℕ) (key : Key) : Bool :=
  match env.holes[nextHole]? with
  | some hole => decide (hole.2 ≤ key)
  | none => false

/-- Finish the layer that is being written if the next key would make it too large, if there is a
hole before that key, or if a key is cut at either side. -/
def splitLayer (key : Key) (isDupLayer : Bool) (total : ℕ) : Option (Merging Img Rec) :=
  match st.writer with
  | none => some st
  | some w =>
    let hole := containsHole env st.nextHole key
    if isDupLayer || decide (st.dupEndLsn ≠ 0)
        || decide (env.targetFileSize < env.writtenSize w.records + total) || hole then
      (flushWriter env st w).map fun st ↦
        { st with nextHole := if hole then st.nextHole + 1 else st.nextHole }
    else some st

/-- The check at a new key, or where a cut key reaches the end of its piece. -/
def checkBoundary (lsnRangeEnd : ℕ) (st : Merging Img Rec) (key : Key) (lsn : ℕ) (sameKey : Bool) :
    Option (Merging Img Rec) :=
  let isDupLayer := decide (st.dupEndLsn ≠ 0)
  let scan := (scanKey env.targetFileSize lsnRangeEnd key lsn st.allKeysIter 0
    st.keyValuesTotalSize 0 (if sameKey then st.dupEndLsn else 0)).close lsnRangeEnd
  let st' := { st with
    dupStartLsn := scan.dupStartLsn
    dupEndLsn := scan.dupEndLsn
    allKeysIter := scan.iter }
  (splitLayer env st' key isDupLayer scan.total).map fun st' ↦
    -- the size that was read ahead belongs to the next key
    { st' with keyValuesTotalSize := scan.nextKeySize }

/-- Put a record into the current layer, or into a new one, unless it belongs to another shard. -/
def putRecord (lsnRangeStart lsnRangeEnd : ℕ) (st : Merging Img Rec) (r : Record Img Rec) :
    Option (Merging Img Rec) :=
  if env.shard.isKeyDisposable r.key then some { st with prevKey := some r.key }
  else
    let w := match st.writer with
      | some w => w
      | none =>
        if st.dupEndLsn ≠ 0 then ⟨r.key, st.dupStartLsn, st.dupEndLsn, []⟩
        else ⟨r.key, lsnRangeStart, lsnRangeEnd, []⟩
    (w.putValue r).map fun w ↦ { st with writer := some w, prevKey := some r.key }

def turn (lsnRangeStart lsnRangeEnd : ℕ) (st : Merging Img Rec) (r : Record Img Rec) :
    Option (Merging Img Rec) :=
  let sameKey := st.prevKey == some r.key
  if !sameKey || r.lsn == st.dupEndLsn then
    (checkBoundary env lsnRangeEnd st r.key r.lsn sameKey).bind fun st ↦
      putRecord env lsnRangeStart lsnRangeEnd st r
  else putRecord env lsnRangeStart lsnRangeEnd st r

def finishLast : Option (List (NewLayer Img Rec)) :=
  match st.writer with
  | some w => (flushWriter env st w).map fun st ↦ st.newLayers
  | none => some st.newLayers

structure Phase1Result (Img Rec : Type) where
  newLayers : List (NewLayer Img Rec)
  deltasToCompact : List (Delta Img Rec)
  /-- Whether all layers that follow each other are included. -/
  fullyCompacted : Bool

/-- Write the records of the selected layers anew. -/
def rewrite (deltas : List (Delta Img Rec)) (lsnRangeStart lsnRangeEnd : ℕ) :
    Option (List (NewLayer Img Rec)) := do
  let allValues ← mergeIterator (deltas.map fun l ↦ l.toDeltaLayer)
  let st ← allValues.foldlM (turn env lsnRangeStart lsnRangeEnd)
    ⟨[], none, none, 0, 0, 0, 0, coalesce env.targetFileSize (allKeys deltas)⟩
  finishLast env st

def compactLevel0Phase1 : Option (Phase1Result Img Rec) :=
  if worthwhile env level0Deltas then do
    let (deltas, fully) := select env level0Deltas
    let first ← deltas.head?
    let last ← deltas.getLast?
    let newLayers ← rewrite env deltas first.lsnStart last.lsnEnd
    some ⟨newLayers, deltas, fully⟩
  else some ⟨[], [], true⟩

end NeonStorage.Pageserver.Level0
