import NeonStorage.Pageserver.DeletionQueue.Flush
import NeonStorage.Pageserver.UploadQueue.Readiness

/-!
# Deleting a layer and uploading it again

The upload queue of a timeline together with the deletion queue of the pageserver. A `Delete` task
is done when its layers have been pushed to the deletion queue, which executes deletions later. A
layer of the same name and generation that is uploaded in the meantime must wait for that: the keys
of deleted layers are remembered in `recently_deleted`, and an upload that finds its key there
flushes the deletion queue first. But such an upload forgets all other keys as well before it
flushes.

Every operation has a number, by the order in which operations were scheduled. The code has no such
numbers; they say whose object a deletion removes.
-/

namespace NeonStorage.Pageserver.UploadQueue.Reupload

open DeletionQueue (Node ListWriterQueueMessage DeletionOp Past Running Turn)

/-- An object in the deletion queue: a layer of this timeline with the number of the operation that
deletes it, or an object of someone else. -/
abbrev Doomed (Name : Type) := Option (RemoteLayer Name × ℕ)

/-- Where a task is in `perform_upload_task`. -/
inductive Phase where
  | launched
  /-- The keys of deleted layers were forgotten. -/
  | cleared
  | flushing (waiter : ℕ)
  | executing (waiter : ℕ)
  /-- `flush_execute` has returned. -/
  | flushed
  | performed

structure World (Tenant Timeline Upd Name : Type) where
  queue : UploadQueueInitialized Name
  /-- The operations that are queued, with their numbers. -/
  queued : List (UploadOp Name × ℕ)
  scheduled : ℕ
  /-- The number of the operation of each task. -/
  number : ℕ → ℕ
  phase : ℕ → Phase
  node : Node Tenant Timeline (Doomed Name) Upd
  /-- The next number for someone who waits for the deletion queue. -/
  waiters : ℕ
  /-- The upload that wrote the object of a layer. -/
  remote : RemoteLayer Name → Option ℕ
  /-- The deletions that removed an object, each with the upload that had written it. -/
  removed : Set (ℕ × ℕ)

variable {Tenant Timeline Upd Name : Type}

/-- The object is the layer `x`, to be deleted. -/
def OfLayer (x : RemoteLayer Name) (o : Doomed Name) : Prop := ∃ d, o = some (x, d)

variable [DecidableEq Tenant] [DecidableEq Name]

namespace World

variable (w : World Tenant Timeline Upd Name)

/-- A call has turned the queue into `q`; what it has added to the queue gets the next number. -/
def schedule (q : UploadQueueInitialized Name) : World Tenant Timeline Upd Name :=
  { w with
    queue := q
    queued := w.queued ++
      (q.queuedOperations.drop w.queue.queuedOperations.length).map fun op ↦ (op, w.scheduled)
    scheduled := w.scheduled + 1 }

/-- The operations `queued` are left, and the next task gets the number `k`. -/
def dequeue (k : ℕ) (queued : List (UploadOp Name × ℕ)) : World Tenant Timeline Upd Name :=
  { w with
    queue := { w.queue with queuedOperations := queued.map Prod.fst }
    queued := queued
    number := Function.update w.number (w.queue.taskCounter + 1) k
    phase := Function.update w.phase (w.queue.taskCounter + 1) .launched }

/-- The operation `op` with the number `k` becomes a task, and `queued` are left. -/
def launch (op : UploadOp Name) (k : ℕ) (queued : List (UploadOp Name × ℕ)) :
    World Tenant Timeline Upd Name :=
  { w.dequeue k queued with queue := (w.dequeue k queued).queue.start op }

def setPhase (t : UploadTask Name) (p : Phase) : World Tenant Timeline Upd Name :=
  { w with phase := Function.update w.phase t.taskId p }

def send (msg : ListWriterQueueMessage Tenant (Doomed Name)) : World Tenant Timeline Upd Name :=
  { w with node := w.node.send msg, waiters := w.waiters + 1 }

def remove (objects : List (Doomed Name)) : World Tenant Timeline Upd Name :=
  { w with
    remote := fun x ↦ if objects.any fun o ↦ o.any fun p ↦ p.1 = x then none else w.remote x
    removed := w.removed ∪ {r | ∃ x, some (x, r.1) ∈ objects ∧ w.remote x = some r.2} }

/-- No deletion has removed what an operation scheduled after it had uploaded. -/
def Safe : Prop := ∀ r ∈ w.removed, ¬r.1 < r.2

end World

/-- What the calls into the upload queue do. -/
inductive Schedules (shard : ShardIndex) (q : UploadQueueInitialized Name) :
    UploadQueueInitialized Name → Prop
  | layerFileUpload (x : RemoteLayer Name) : Schedules shard q (q.scheduleLayerFileUpload0 x)
  | unlinking (names : List Name) : Schedules shard q (q.unlink names).1
  | indexUpload : Schedules shard q q.scheduleIndexUpload0
  | deletion (layers : List (RemoteLayer Name)) :
    Schedules shard q (q.scheduleDeletionOfUnlinked0 shard layers)
  | barrier : Schedules shard q (q.push .barrier)
  | shutdown : Schedules shard q { q.push .shutdown with shuttingDown := true }

/-- What is fixed in a run: the kill switches, and the tenant with its shard and generation. -/
structure Setup (Tenant : Type) where
  sw : Switches
  tenant : Tenant
  shard : ShardIndex
  generation : Generation

/-- The steps of the upload queue, of its tasks, of the deletion queue and of its other clients.
Which operations may be launched is up to `ok`. -/
inductive Step (s : Setup Tenant) (ok : World Tenant Timeline Upd Name → UploadOp Name → Prop)
    (w : World Tenant Timeline Upd Name) : World Tenant Timeline Upd Name → Prop
  | schedule (q : UploadQueueInitialized Name) (hrun : w.queue.shuttingDown = false)
      (h : Schedules s.shard w.queue q) : Step s ok w (w.schedule q)
  /-- A turn of `launch_queued_tasks`. -/
  | launch (order : List (UploadOp Name)) (op : UploadOp Name) (k : ℕ)
      (ahead skipped behind : List (UploadOp Name × ℕ)) (hok : ok w op)
      (horder : order.Perm w.queue.inprogress)
      (hready : w.queue.nextReady s.sw order = some (op, (ahead ++ behind).map Prod.fst))
      (hqueued : w.queued = ahead ++ (skipped ++ (op, k) :: behind))
      (hahead : w.queue.isReady order (ahead.map Prod.fst) op = true)
      (hskipped : ∀ p ∈ skipped, p.1.isMetadata = true) :
    Step s ok w (w.launch op k (ahead ++ behind))
  | clear (t : UploadTask Name) (x : RemoteLayer Name) (ht : t ∈ w.queue.inprogressTasks)
      (hop : t.op = .uploadLayer x (some .flushDeletion)) (hp : w.phase t.taskId = .launched) :
    Step s ok w
      ({ w with queue := { w.queue with recentlyDeleted := [] } }.setPhase t .cleared)
  /-- The first part of `flush_execute`. -/
  | flush (t : UploadTask Name) (ht : t ∈ w.queue.inprogressTasks)
      (hp : w.phase t.taskId = .cleared) :
    Step s ok w ((w.send (.flush w.waiters)).setPhase t (.flushing w.waiters))
  /-- The second part of `flush_execute`. -/
  | flushExecute (t : UploadTask Name) (v : ℕ) (ht : t ∈ w.queue.inprogressTasks)
      (hp : w.phase t.taskId = .flushing v) (hv : v ∈ w.node.notified) :
    Step s ok w ((w.send (.flushExecute w.waiters)).setPhase t (.executing w.waiters))
  | flushed (t : UploadTask Name) (v : ℕ) (ht : t ∈ w.queue.inprogressTasks)
      (hp : w.phase t.taskId = .executing v) (hv : v ∈ w.node.notified) :
    Step s ok w (w.setPhase t .flushed)
  | upload (t : UploadTask Name) (x : RemoteLayer Name) (m : Option OpType)
      (ht : t ∈ w.queue.inprogressTasks) (hop : t.op = .uploadLayer x m)
      (hp : w.phase t.taskId = if m = some .flushDeletion then .flushed else .launched) :
    Step s ok w ({ w with
      remote := Function.update w.remote x (some (w.number t.taskId)) }.setPhase t .performed)
  /-- The upload has failed, perhaps only after the object was written. -/
  | retry (t : UploadTask Name) (x : RemoteLayer Name) (m : Option OpType)
      (ht : t ∈ w.queue.inprogressTasks) (hop : t.op = .uploadLayer x m)
      (hp : w.phase t.taskId = .flushed ∨ w.phase t.taskId = .performed) :
    Step s ok w (w.setPhase t .launched)
  | delete (t : UploadTask Name) (layers : List (RemoteLayer Name))
      (ht : t ∈ w.queue.inprogressTasks) (hop : t.op = .delete layers)
      (hp : w.phase t.taskId = .launched) :
    Step s ok w ((w.send (.delete ⟨s.tenant,
      layers.map fun x ↦ some (x, w.number t.taskId), s.generation⟩)).setPhase t .performed)
  | uploadIndex (t : UploadTask Name) (i : IndexPart Name) (ht : t ∈ w.queue.inprogressTasks)
      (hop : t.op = .uploadMetadata i) (hp : w.phase t.taskId = .launched) :
    Step s ok w (w.setPhase t .performed)
  | complete (t : UploadTask Name) (q : UploadQueueInitialized Name)
      (ht : t ∈ w.queue.inprogressTasks) (hp : w.phase t.taskId = .performed)
      (hc : w.queue.complete t = some q) : Step s ok w { w with queue := q }
  /-- The deletion queue is at work. -/
  | turn (n : Node Tenant Timeline (Doomed Name) Upd) (h : Turn w.node n) :
    Step s ok w { w with node := n }
  /-- The deleter removes an object it was given. -/
  | remove (o : Doomed Name) (h : o ∈ w.node.deleter) : Step s ok w (w.remove [o])
  | executed (n : Node Tenant Timeline (Doomed Name) Upd) (h : w.node.executed = some n) :
    Step s ok w { w.remove w.node.deleter with node := n }
  /-- Other clients of the deletion queue. -/
  | other (msg : ListWriterQueueMessage Tenant (Doomed Name)) (hobj : ∀ o ∈ msg.objects, o = none)
      (hw : ∀ v, msg.waiter = some v → v = w.waiters) : Step s ok w (w.send msg)
  | publish (table : List (Tenant × DeletionQueue.TenantLsnState Timeline Upd)) :
    Step s ok w { w with node := { w.node with lsnTable := table } }

/-- The upload queue is new, and nothing in the deletion queue is of this timeline. -/
structure Initial (w : World Tenant Timeline Upd Name) : Prop where
  queue : ∃ index limit, w.queue = .initializeWithCurrentRemoteIndexPart index limit
  queued : w.queued = []
  node : Running w.node ∧ ∀ i, ∀ o ∈ w.node.place i, o = none
  waiters : ∀ v, w.node.HasWaiter v → v < w.waiters
  remote : ∀ x, w.remote x = none
  removed : w.removed = ∅

def Reachable (s : Setup Tenant) (ok : World Tenant Timeline Upd Name → UploadOp Name → Prop)
    (w : World Tenant Timeline Upd Name) : Prop :=
  ∃ w₀, Initial w₀ ∧ Relation.ReflTransGen (Step s ok) w₀ w

/-- An upload of a layer whose deletion is still in the deletion queue finds its key. -/
def Recorded (w : World Tenant Timeline Upd Name) (op : UploadOp Name) : Prop :=
  ∀ x m, op = .uploadLayer x m → x.deletionKey ∉ w.queue.recentlyDeleted →
    Past (OfLayer x) 5 w.node

end NeonStorage.Pageserver.UploadQueue.Reupload
