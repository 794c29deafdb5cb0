import NeonStorage.Pageserver.Generation
import Mathlib.Data.Set.Insert

/-!
# The upload queue

The queue of remote operations of one timeline: uploads and deletions of layers, and uploads of the
index that says which layers there are. An operation may overtake others in the queue as long as it
can bypass each of them (`can_bypass`), which depends on the index that is active at their place.
Operations that are launched run as tasks of their own and complete in any order.

The tasks are kept in a hash map that is iterated in any order: a reader of it is given the order
as an argument, and `Launch` allows every one.
-/

namespace NeonStorage.Pageserver.UploadQueue

/-- What the index keeps of a layer beside its name and size. -/
structure LayerFileMetadata where
  generation : Generation
  shard : ShardIndex
  deriving DecidableEq

structure RemoteLayer (Name : Type) where
  name : Name
  metadata : LayerFileMetadata
  deriving DecidableEq

/-- The part of `index_part.json` that names layers. -/
structure IndexPart (Name : Type) where
  layerMetadata : Name → Option LayerFileMetadata

/-- How an upload is ordered with the deletions before it. -/
inductive OpType where
  | mayReorder
  | flushDeletion
  deriving DecidableEq

inductive UploadOp (Name : Type) where
  | uploadLayer (layer : RemoteLayer Name) (mode : Option OpType)
  | uploadMetadata (uploaded : IndexPart Name)
  | delete (layers : List (RemoteLayer Name))
  | barrier
  | shutdown

structure UploadTask (Name : Type) where
  taskId : ℕ
  op : UploadOp Name

/-- The kill switches for reordering and for coalescing. -/
structure Switches where
  disableReordering : Bool
  disableIndexCoalescing : Bool

structure UploadQueueInitialized (Name : Type) where
  inprogressLimit : ℕ
  taskCounter : ℕ
  /-- The next index to be uploaded. -/
  dirty : IndexPart Name
  /-- The index uploaded last, and the task that uploaded it. -/
  clean : IndexPart Name × Option ℕ
  /-- How many layers were added or removed since an index upload was scheduled. -/
  latestFilesChanges : ℕ
  inprogressTasks : List (UploadTask Name)
  queuedOperations : List (UploadOp Name)
  recentlyDeleted : List (Name × Generation)
  shuttingDown : Bool

variable {Name : Type} [DecidableEq Name]

/-! ## Operations -/

/-- What `recently_deleted` keeps of a layer. -/
def RemoteLayer.deletionKey (x : RemoteLayer Name) : Name × Generation :=
  (x.name, x.metadata.generation)

def isSameRemoteLayerPath (a b : RemoteLayer Name) : Bool :=
  a.name == b.name && a.metadata.shard == b.metadata.shard &&
    a.metadata.generation == b.metadata.generation

@[simp] theorem isSameRemoteLayerPath_iff {a b : RemoteLayer Name} :
    isSameRemoteLayerPath a b = true ↔ a = b := by
  rcases a with ⟨n, g, s⟩
  rcases b with ⟨n', g', s'⟩
  simp only [isSameRemoteLayerPath, Bool.and_eq_true, beq_iff_eq, RemoteLayer.mk.injEq,
    LayerFileMetadata.mk.injEq, and_assoc]
  rw [and_comm (a := s = s')]

@[simp] theorem isSameRemoteLayerPath_self {a : RemoteLayer Name} :
    isSameRemoteLayerPath a a = true := isSameRemoteLayerPath_iff.mpr rfl

namespace IndexPart

def references (i : IndexPart Name) (x : RemoteLayer Name) : Bool :=
  match i.layerMetadata x.name with
  | none => false
  | some m => isSameRemoteLayerPath x ⟨x.name, m⟩

variable {i : IndexPart Name}

theorem references_iff {x : RemoteLayer Name} :
    i.references x = true ↔ i.layerMetadata x.name = some x.metadata := by
  unfold references
  cases h : i.layerMetadata x.name with
  | none => simp
  | some m =>
    rcases x with ⟨n, m'⟩
    simp only [isSameRemoteLayerPath_iff, RemoteLayer.mk.injEq, true_and, Option.some.injEq]
    exact eq_comm

def insert (i : IndexPart Name) (x : RemoteLayer Name) : IndexPart Name :=
  ⟨Function.update i.layerMetadata x.name (some x.metadata)⟩

def remove (i : IndexPart Name) (n : Name) : IndexPart Name :=
  ⟨Function.update i.layerMetadata n none⟩

theorem references_insert {x y : RemoteLayer Name} :
    (i.insert x).references y = true ↔ y = x ∨ y.name ≠ x.name ∧ i.references y = true := by
  rw [references_iff, references_iff, insert]
  rcases x with ⟨n, m⟩
  rcases y with ⟨n', m'⟩
  by_cases h : n' = n
  · subst h
    simp [eq_comm]
  · simp [h]

theorem references_remove {n : Name} {y : RemoteLayer Name} :
    (i.remove n).references y = true ↔ y.name ≠ n ∧ i.references y = true := by
  rw [references_iff, references_iff, remove]
  by_cases h : y.name = n <;> simp [h]

end IndexPart

namespace UploadOp

/-- Whether `self` can bypass `other`, where `index` is the active index when `other` would be
performed. -/
def canBypass (self other : UploadOp Name) (index : IndexPart Name) : Bool :=
  match self, other with
  | barrier, _ | _, barrier => false
  | shutdown, _ | _, shutdown => false
  | uploadLayer a _, uploadLayer b _ => !isSameRemoteLayerPath a b
  | uploadLayer u _, delete d | delete d, uploadLayer u _ =>
    d.all fun l ↦ !isSameRemoteLayerPath u l
  | delete _, delete _ => true
  | uploadLayer u _, uploadMetadata i | uploadMetadata i, uploadLayer u _ =>
    !i.references u && !index.references u
  | delete d, uploadMetadata i | uploadMetadata i, delete d =>
    d.all fun l ↦ !i.references l && !index.references l
  | uploadMetadata _, uploadMetadata _ => false

def modified : UploadOp Name → List (RemoteLayer Name)
  | uploadLayer x _ => [x]
  | delete d => d
  | uploadMetadata _ | barrier | shutdown => []

def isMetadata : UploadOp Name → Bool
  | uploadMetadata _ => true
  | _ => false

end UploadOp

variable (index : IndexPart Name)

/-- The active index after `op`, if `index` is active before. -/
def nextActive : UploadOp Name → IndexPart Name
  | .uploadMetadata uploaded => uploaded
  | _ => index

/-- Each operation with the index that is active ahead of it. -/
def scanActive (index : IndexPart Name) :
    List (UploadOp Name) → List (UploadOp Name × IndexPart Name)
  | [] => []
  | op :: ops => (op, index) :: scanActive (nextActive index op) ops

/-! ## The queue -/

variable (q : UploadQueueInitialized Name) (sw : Switches)

namespace UploadQueueInitialized

def inprogress : List (UploadOp Name) :=
  q.inprogressTasks.map UploadTask.op

/-- Whether `candidate` can bypass the tasks in progress, in the order in which the map gives them,
and the operations `ahead` of it in the queue. -/
def isReady (order ahead : List (UploadOp Name)) (candidate : UploadOp Name) : Bool :=
  (scanActive q.clean.1 (order ++ ahead)).all fun p ↦ candidate.canBypass p.1 p.2

/-- Of index uploads next to each other, the last one that is ready replaces those before it. -/
def coalesce (q : UploadQueueInitialized Name) (sw : Switches) (order ahead : List (UploadOp Name))
    (op : UploadOp Name) : List (UploadOp Name) → UploadOp Name × List (UploadOp Name)
  | .uploadMetadata i :: behind =>
    if sw.disableIndexCoalescing then (op, .uploadMetadata i :: behind)
    else if !q.isReady order ahead (.uploadMetadata i) then (op, .uploadMetadata i :: behind)
    else q.coalesce sw order ahead (.uploadMetadata i) behind
  | behind => (op, behind)

/-- The search of `next_ready`: `ahead` has been passed, the rest is to be tried. -/
def nextReadyFrom (q : UploadQueueInitialized Name) (sw : Switches) (order : List (UploadOp Name)) :
    List (UploadOp Name) → List (UploadOp Name) → Option (UploadOp Name × List (UploadOp Name))
  | _, [] => none
  | ahead, candidate :: behind =>
    if q.isReady order ahead candidate then
      match candidate with
      | .shutdown => none
      | .uploadMetadata _ =>
        let (op, rest) := q.coalesce sw order ahead candidate behind
        some (op, ahead ++ rest)
      | op => some (op, ahead ++ behind)
    else
      match candidate with
      | .barrier | .shutdown => none
      | _ =>
        if sw.disableReordering then none
        else q.nextReadyFrom sw order (ahead ++ [candidate]) behind

/-- The next operation that is ready, and the operations that stay queued. -/
def nextReady (order : List (UploadOp Name)) : Option (UploadOp Name × List (UploadOp Name)) :=
  if 0 < q.inprogressLimit ∧ q.inprogressLimit ≤ q.inprogressTasks.length then none
  else q.nextReadyFrom sw order [] q.queuedOperations

def addTask (op : UploadOp Name) : UploadQueueInitialized Name :=
  { q with
    taskCounter := q.taskCounter + 1
    inprogressTasks := q.inprogressTasks ++ [⟨q.taskCounter + 1, op⟩] }

/-- The body of the loop of `launch_queued_tasks`, for an operation taken out of the queue. -/
def start : UploadOp Name → UploadQueueInitialized Name
  | .uploadLayer x _ =>
    if x.deletionKey ∈ q.recentlyDeleted then
      { q with recentlyDeleted := q.recentlyDeleted.filter (· ≠ x.deletionKey) }.addTask
        (.uploadLayer x (some .flushDeletion))
    else q.addTask (.uploadLayer x (some .mayReorder))
  | .uploadMetadata i => q.addTask (.uploadMetadata i)
  | .delete layers =>
    { q with recentlyDeleted := layers.map RemoteLayer.deletionKey ++ q.recentlyDeleted }.addTask
      (.delete layers)
  | .barrier => q
  | .shutdown => q

def push (op : UploadOp Name) : UploadQueueInitialized Name :=
  { q with queuedOperations := q.queuedOperations ++ [op] }

def scheduleIndexUpload0 : UploadQueueInitialized Name :=
  { q.push (.uploadMetadata q.dirty) with latestFilesChanges := 0 }

def scheduleLayerFileUpload0 (x : RemoteLayer Name) : UploadQueueInitialized Name :=
  { q with dirty := q.dirty.insert x, latestFilesChanges := q.latestFilesChanges + 1 }.push
    (.uploadLayer x none)

/-- Remove the names from the dirty index. The layers that were there are the result. -/
def unlink (q : UploadQueueInitialized Name) :
    List Name → UploadQueueInitialized Name × List (RemoteLayer Name)
  | [] => (q, [])
  | n :: names =>
    match q.dirty.layerMetadata n with
    | some m =>
      let (q', rest) :=
        { q with dirty := q.dirty.remove n, latestFilesChanges := q.latestFilesChanges + 1 }.unlink
          names
      (q', ⟨n, m⟩ :: rest)
    | none => q.unlink names

/-- Layers of other shards are not deleted: their shards may still use them. -/
def scheduleDeletionOfUnlinked0 (shard : ShardIndex) (withMetadata : List (RemoteLayer Name)) :
    UploadQueueInitialized Name :=
  let layers := withMetadata.filter fun x ↦ x.metadata.shard = shard
  if layers.isEmpty then q else q.push (.delete layers)

/-- The end of a task. The assertion says that no later index upload completed before. -/
def complete (task : UploadTask Name) : Option (UploadQueueInitialized Name) :=
  let q' := { q with
    inprogressTasks := q.inprogressTasks.filter fun t ↦ t.taskId ≠ task.taskId }
  match task.op with
  | .uploadMetadata uploaded =>
    if q.clean.2.all (· < task.taskId) then
      some { q' with clean := (uploaded, some task.taskId) }
    else none
  | _ => some q'

/-- A queue whose index is the one in remote storage. -/
def initializeWithCurrentRemoteIndexPart (inprogressLimit : ℕ) : UploadQueueInitialized Name where
  inprogressLimit := inprogressLimit
  taskCounter := 0
  dirty := index
  clean := (index, none)
  latestFilesChanges := 0
  inprogressTasks := []
  queuedOperations := []
  recentlyDeleted := []
  shuttingDown := false

end UploadQueueInitialized

/-! ## Launching -/

/-- One turn of the loop of `launch_queued_tasks`. -/
inductive Launch (sw : Switches) :
    UploadQueueInitialized Name → UploadQueueInitialized Name → Prop
  | start {q : UploadQueueInitialized Name} {order rest : List (UploadOp Name)} {op : UploadOp Name}
      (horder : order.Perm q.inprogress) (hready : q.nextReady sw order = some (op, rest)) :
    Launch sw q ({ q with queuedOperations := rest }.start op)

/-- `launch_queued_tasks`: the loop ends when no operation is ready. -/
def LaunchQueuedTasks (q q' : UploadQueueInitialized Name) : Prop :=
  Relation.ReflTransGen (Launch sw) q q' ∧
    ∃ order, order.Perm q'.inprogress ∧ q'.nextReady sw order = none

namespace UploadQueueInitialized

/-- At most so many turns of the loop, with the map read in the order in which the tasks were
started. -/
def launchTurns (sw : Switches) : ℕ → UploadQueueInitialized Name → UploadQueueInitialized Name
  | 0, q => q
  | turns + 1, q =>
    match q.nextReady sw q.inprogress with
    | none => q
    | some (op, rest) => launchTurns sw turns ({ q with queuedOperations := rest }.start op)

/-- `launch_queued_tasks`, which takes an operation from the queue in each turn. -/
def launchQueuedTasks : UploadQueueInitialized Name :=
  launchTurns sw q.queuedOperations.length q

end UploadQueueInitialized

/-- `schedule_unlinking_of_layers_from_index_part0`, with the layers it returns. An index upload is
scheduled if any layer was added or removed since the last one. -/
def ScheduleUnlinking0 (q : UploadQueueInitialized Name) (names : List Name)
    (q' : UploadQueueInitialized Name) (withMetadata : List (RemoteLayer Name)) : Prop :=
  (q.unlink names).2 = withMetadata ∧
    if 0 < (q.unlink names).1.latestFilesChanges then
      LaunchQueuedTasks sw (q.unlink names).1.scheduleIndexUpload0 q'
    else q' = (q.unlink names).1

/-! ## Runs -/

/-- The effect of an operation on the layers in remote storage. -/
def perform (layers : Set (RemoteLayer Name)) : UploadOp Name → Set (RemoteLayer Name)
  | .uploadLayer x _ => insert x layers
  | .delete d => layers \ {x | x ∈ d}
  | .uploadMetadata _ | .barrier | .shutdown => layers

/-- The queue, the layers whose upload has completed (and whose deletion has not), and the layers
that were unlinked from the index at some time. -/
structure World (Name : Type) where
  queue : UploadQueueInitialized Name
  uploaded : Set (RemoteLayer Name)
  unlinked : Set (RemoteLayer Name)

/-- Which layers callers upload, given the dirty index, and which they have deleted, given the
dirty index and what was unlinked. -/
structure Discipline (Name : Type) where
  upload : IndexPart Name → RemoteLayer Name → Prop
  delete : IndexPart Name → Set (RemoteLayer Name) → RemoteLayer Name → Prop

/-- The layers may be uploaded one after the other. -/
def Discipline.Uploads (d : Discipline Name) (dirty : IndexPart Name) :
    List (RemoteLayer Name) → Prop
  | [] => True
  | x :: xs => d.upload dirty x ∧ d.Uploads (dirty.insert x) xs

/-- The calls into the queue and the completions of its tasks. Calls fail once the queue is
shutting down. -/
inductive Step (sw : Switches) (shard : ShardIndex) (d : Discipline Name) :
    World Name → World Name → Prop
  | scheduleLayerFileUpload {w : World Name} (x : RemoteLayer Name)
      {q : UploadQueueInitialized Name} (hrun : w.queue.shuttingDown = false)
      (hx : d.upload w.queue.dirty x)
      (hl : LaunchQueuedTasks sw (w.queue.scheduleLayerFileUpload0 x) q) :
    Step sw shard d w { w with queue := q }
  | scheduleCompactionUpdate {w : World Name} (compactedFrom : List Name)
      (compactedTo : List (RemoteLayer Name)) {q₁ q : UploadQueueInitialized Name}
      {unlinked : List (RemoteLayer Name)}
      (hrun : w.queue.shuttingDown = false) (hto : d.Uploads w.queue.dirty compactedTo)
      (hu : ScheduleUnlinking0 sw
        (compactedTo.foldl UploadQueueInitialized.scheduleLayerFileUpload0 w.queue)
        compactedFrom q₁ unlinked)
      (hl : LaunchQueuedTasks sw q₁ q) :
    Step sw shard d w { w with queue := q, unlinked := w.unlinked ∪ {x | x ∈ unlinked} }
  | scheduleGcUpdate {w : World Name} (names : List Name) {q₁ q : UploadQueueInitialized Name}
      {unlinked : List (RemoteLayer Name)} (hrun : w.queue.shuttingDown = false)
      (hu : ScheduleUnlinking0 sw w.queue names q₁ unlinked) (hl : LaunchQueuedTasks sw q₁ q) :
    Step sw shard d w { w with queue := q, unlinked := w.unlinked ∪ {x | x ∈ unlinked} }
  | scheduleLayerFileDeletion {w : World Name} (names : List Name)
      {q₁ q : UploadQueueInitialized Name} {unlinked : List (RemoteLayer Name)}
      (hrun : w.queue.shuttingDown = false) (hu : ScheduleUnlinking0 sw w.queue names q₁ unlinked)
      (hl : LaunchQueuedTasks sw (q₁.scheduleDeletionOfUnlinked0 shard unlinked) q) :
    Step sw shard d w { w with queue := q, unlinked := w.unlinked ∪ {x | x ∈ unlinked} }
  | scheduleDeletionOfUnlinked {w : World Name} (layers : List (RemoteLayer Name))
      {q : UploadQueueInitialized Name} (hrun : w.queue.shuttingDown = false)
      (hd : ∀ x ∈ layers, d.delete w.queue.dirty w.unlinked x)
      (hl : LaunchQueuedTasks sw (w.queue.scheduleDeletionOfUnlinked0 shard layers) q) :
    Step sw shard d w { w with queue := q }
  | scheduleIndexUpload {w : World Name} {q : UploadQueueInitialized Name}
      (hrun : w.queue.shuttingDown = false)
      (hl : LaunchQueuedTasks sw w.queue.scheduleIndexUpload0 q) :
    Step sw shard d w { w with queue := q }
  | scheduleBarrier {w : World Name} {q : UploadQueueInitialized Name}
      (hrun : w.queue.shuttingDown = false) (hl : LaunchQueuedTasks sw (w.queue.push .barrier) q) :
    Step sw shard d w { w with queue := q }
  | shutdown {w : World Name} {q : UploadQueueInitialized Name}
      (hrun : w.queue.shuttingDown = false)
      (hl : LaunchQueuedTasks sw { w.queue.push .shutdown with shuttingDown := true } q) :
    Step sw shard d w { w with queue := q }
  | complete {w : World Name} {task : UploadTask Name} {q₁ q : UploadQueueInitialized Name}
      (htask : task ∈ w.queue.inprogressTasks) (hc : w.queue.complete task = some q₁)
      (hl : LaunchQueuedTasks sw q₁ q) :
    Step sw shard d w { w with queue := q, uploaded := perform w.uploaded task.op }

/-- The layers in remote storage include those of the index from which the queue is initialized. -/
inductive Initial : World Name → Prop
  | mk (index : IndexPart Name) (inprogressLimit : ℕ) (uploaded : Set (RemoteLayer Name))
      (h : ∀ x, index.references x = true → x ∈ uploaded) :
    Initial ⟨.initializeWithCurrentRemoteIndexPart index inprogressLimit, uploaded, ∅⟩

def Reachable (shard : ShardIndex) (d : Discipline Name) (w : World Name) : Prop :=
  ∃ w₀, Initial w₀ ∧ Relation.ReflTransGen (Step sw shard d) w₀ w

end NeonStorage.Pageserver.UploadQueue
