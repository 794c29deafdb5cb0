import NeonStorage.Pageserver.UploadQueue.Reupload

/-!
# Which deletions can hit a later upload

If an upload that is launched while a deletion of its layer is in the deletion queue always finds
the key of the layer in `recently_deleted`, then no deletion removes what was uploaded after it
(`not_removed_of_recorded`): the upload waits until the objects of its layer have left the deletion
queue, and until it is done no deletion of the layer is launched. But an upload of another layer may
have forgotten the key, and then the deletion hits the upload (`removed_of_forgotten`).
-/

namespace NeonStorage.Pageserver.UploadQueue.Reupload

open List Function UploadQueueInitialized
open DeletionQueue (Node ListWriterQueueMessage DeletionOp Past Running Turn Flushing Executing
  Advances)

variable {Tenant Timeline Upd Name : Type} {w : World Tenant Timeline Upd Name}

/-! ## The invariant -/

/-- What a task in some phase knows of the objects with the property `P`. -/
def Phase.Awaits (P : Doomed Name → Prop) (n : Node Tenant Timeline (Doomed Name) Upd)
    (waiters : ℕ) : Phase → Prop
  | .launched | .cleared => True
  | .flushing v => v < waiters ∧ Flushing P n v
  | .executing v => v < waiters ∧ Executing P n v
  | .flushed | .performed => Past P 5 n

/-- What is known while `t` uploads the layer `x`. -/
structure Uploading (w : World Tenant Timeline Upd Name) (t : UploadTask Name)
    (x : RemoteLayer Name) (m : Option OpType) : Prop where
  apart : ∀ t' ∈ w.queue.inprogressTasks, ∀ layers, t'.op = .delete layers → x ∉ layers
  before : ∀ p ∈ w.queued, ∀ layers, p.1 = .delete layers → x ∈ layers → w.number t.taskId < p.2
  reorder : m ≠ some .flushDeletion → Past (OfLayer x) 5 w.node
  phase : (w.phase t.taskId).Awaits (OfLayer x) w.node w.waiters

structure Inv (w : World Tenant Timeline Upd Name) : Prop where
  queued : w.queue.queuedOperations = w.queued.map Prod.fst
  sorted : w.queued.Pairwise fun p p' ↦ p.2 < p'.2
  below : ∀ p ∈ w.queued, p.2 < w.scheduled
  ids : (w.queue.inprogressTasks.map UploadTask.taskId).Nodup
  counter : ∀ t ∈ w.queue.inprogressTasks, t.taskId ≤ w.queue.taskCounter
  numbered : ∀ t ∈ w.queue.inprogressTasks, w.number t.taskId < w.scheduled
  written : ∀ x u, w.remote x = some u → u < w.scheduled
  uploading : ∀ t ∈ w.queue.inprogressTasks, ∀ x m, t.op = .uploadLayer x m → Uploading w t x m
  deleting : ∀ t ∈ w.queue.inprogressTasks, ∀ layers, t.op = .delete layers → ∀ x ∈ layers, ∀ u,
    w.remote x = some u → u < w.number t.taskId
  queuedDelete : ∀ p ∈ w.queued, ∀ layers, p.1 = .delete layers → ∀ x ∈ layers, ∀ u,
    w.remote x = some u → u < p.2
  doomed : ∀ i x d, some (x, d) ∈ w.node.place i → ∀ u, w.remote x = some u → u < d
  safe : w.Safe
  running : Running w.node
  waiters : ∀ v, w.node.HasWaiter v → v < w.waiters

variable {msg : ListWriterQueueMessage Tenant (Doomed Name)}

namespace Phase

variable {P : Doomed Name → Prop} {n n' : Node Tenant Timeline (Doomed Name) Upd} {p : Phase}

theorem Awaits.advances {waiters : ℕ} (h : p.Awaits P n waiters) (ha : Advances n n') :
    p.Awaits P n' waiters := by
  cases p with
  | launched | cleared => exact h
  | flushing v => exact ⟨h.1, ha.flushing P v h.2⟩
  | executing v => exact ⟨h.1, ha.executing P v h.2⟩
  | flushed | performed => exact h.forward ha.forward

theorem Awaits.send {waiters : ℕ} (h : p.Awaits P n waiters) (hmsg : ∀ o ∈ msg.objects, ¬P o)
    (hw : ∀ v, msg.waiter = some v → v = waiters) : p.Awaits P (n.send msg) (waiters + 1) := by
  have hne : ∀ v, v < waiters → msg.waiter ≠ some v := fun v hv heq ↦ hv.ne (hw v heq)
  cases p with
  | launched | cleared => exact h
  | flushing v => exact ⟨Nat.lt_succ_of_lt h.1, h.2.send hmsg (hne v h.1)⟩
  | executing v => exact ⟨Nat.lt_succ_of_lt h.1, h.2.send hmsg (hne v h.1)⟩
  | flushed | performed => exact h.send hmsg

end Phase

namespace Inv

variable {n : Node Tenant Timeline (Doomed Name) Upd} {t : UploadTask Name}

theorem advances (h : Inv w) (ha : Advances w.node n) : Inv { w with node := n } :=
  { h with
    uploading := fun t ht x m hop ↦
      have hu := h.uploading t ht x m hop
      { hu with
        reorder := fun hm ↦ (hu.reorder hm).forward ha.forward
        phase := hu.phase.advances ha }
    doomed := fun i x d hd u hu ↦ by
      obtain ⟨j, -, hd⟩ := ha.forward i _ hd
      exact h.doomed j x d hd u hu
    running := ha.running
    waiters := fun v hv ↦ h.waiters v (ha.waiters v hv) }

theorem send (h : Inv w) (hw : ∀ v, msg.waiter = some v → v = w.waiters)
    (hup : ∀ t ∈ w.queue.inprogressTasks, ∀ x m, t.op = .uploadLayer x m →
      ∀ o ∈ msg.objects, ¬OfLayer x o)
    (hobj : ∀ x d, some (x, d) ∈ msg.objects → ∀ u, w.remote x = some u → u < d) :
    Inv (w.send msg) :=
  { h with
    uploading := fun t ht x m hop ↦
      have hu := h.uploading t ht x m hop
      { hu with
        reorder := fun hm ↦ (hu.reorder hm).send (hup t ht x m hop)
        phase := hu.phase.send (hup t ht x m hop) hw }
    doomed := fun i x d hd u hu ↦ by
      rcases DeletionQueue.mem_place_send hd with hd | ⟨-, hd⟩
      · exact h.doomed i x d hd u hu
      · exact hobj x d hd u hu
    running := h.running.send
    waiters := fun v hv ↦ by
      rcases DeletionQueue.hasWaiter_send hv with hv | hv
      · exact Nat.lt_succ_of_lt (h.waiters v hv)
      · rw [hw v hv]
        exact Nat.lt_succ_self _ }

theorem setPhase (h : Inv w) (ht : t ∈ w.queue.inprogressTasks) {p : Phase}
    (hp : ∀ x m, t.op = .uploadLayer x m → p.Awaits (OfLayer x) w.node w.waiters) :
    Inv (w.setPhase t p) :=
  { h with
    uploading := fun t' ht' x m hop ↦
      have hu := h.uploading t' ht' x m hop
      { hu with
        phase := by
          change (update w.phase t.taskId p t'.taskId).Awaits _ _ _
          by_cases heq : t'.taskId = t.taskId
          · obtain rfl := inj_on_of_nodup_map h.ids ht' ht heq
            rw [update_self]
            exact hp x m hop
          · rw [update_of_ne heq]
            exact hu.phase } }

variable [DecidableEq Name]

theorem remove (h : Inv w) {objects : List (Doomed Name)} (hsub : objects ⊆ w.node.deleter) :
    Inv (w.remove objects) := by
  have hremote : ∀ x u, (w.remove objects).remote x = some u → w.remote x = some u := by
    intro x u hu
    change (if _ then none else w.remote x) = some u at hu
    split at hu
    · cases hu
    · exact hu
  refine { h with
    written := fun x u hu ↦ h.written x u (hremote x u hu)
    uploading := fun t ht x m hop ↦ { h.uploading t ht x m hop with }
    deleting := fun t ht layers hop x hx u hu ↦ h.deleting t ht layers hop x hx u (hremote x u hu)
    queuedDelete := fun p hp layers hop x hx u hu ↦
      h.queuedDelete p hp layers hop x hx u (hremote x u hu)
    doomed := fun i x d hd u hu ↦ h.doomed i x d hd u (hremote x u hu)
    safe := fun r hr ↦ ?_ }
  rcases hr with hr | ⟨x, hx, hu⟩
  · exact h.safe r hr
  · exact (h.doomed 4 x r.1 (hsub hx) r.2 hu).asymm

theorem upload (h : Inv w) (ht : t ∈ w.queue.inprogressTasks) {x : RemoteLayer Name}
    {m : Option OpType} (hop : t.op = .uploadLayer x m) (hpast : Past (OfLayer x) 5 w.node) :
    Inv { w with remote := update w.remote x (some (w.number t.taskId)) } := by
  have hu := h.uploading t ht x m hop
  have hremote : ∀ y u, update w.remote x (some (w.number t.taskId)) y = some u →
      w.remote y = some u ∨ y = x ∧ u = w.number t.taskId := by
    intro y u hyu
    by_cases hy : y = x
    · subst hy
      rw [update_self] at hyu
      exact .inr ⟨rfl, (Option.some.inj hyu).symm⟩
    · rw [update_of_ne hy] at hyu
      exact .inl hyu
  refine { h with
    written := fun y u hyu ↦ ?_
    uploading := fun t' ht' y m' hop' ↦ { h.uploading t' ht' y m' hop' with }
    deleting := fun t' ht' layers hop' y hy u hyu ↦ ?_
    queuedDelete := fun p hp layers hop' y hy u hyu ↦ ?_
    doomed := fun i y d hd u hyu ↦ ?_ }
  · rcases hremote y u hyu with hyu | ⟨rfl, rfl⟩
    · exact h.written y u hyu
    · exact h.numbered t ht
  · rcases hremote y u hyu with hyu | ⟨rfl, rfl⟩
    · exact h.deleting t' ht' layers hop' y hy u hyu
    · exact absurd hy (hu.apart t' ht' layers hop')
  · rcases hremote y u hyu with hyu | ⟨rfl, rfl⟩
    · exact h.queuedDelete p hp layers hop' y hy u hyu
    · exact hu.before p hp layers hop' hy
  · rcases hremote y u hyu with hyu | ⟨rfl, rfl⟩
    · exact h.doomed i y d hd u hyu
    · match i with
      | 0 | 1 | 2 | 3 | 4 => exact absurd ⟨d, rfl⟩ (hpast _ (by omega) _ hd)
      | _ + 5 => cases hd

end Inv

/-! ## The upload queue -/

variable {q : UploadQueueInitialized Name} {shard : ShardIndex}

theorem Schedules.spec [DecidableEq Name] {q' : UploadQueueInitialized Name}
    (h : Schedules shard q q') : ∃ ops, q'.queuedOperations = q.queuedOperations ++ ops ∧
      ops.length ≤ 1 ∧ q'.inprogressTasks = q.inprogressTasks ∧ q'.taskCounter = q.taskCounter := by
  cases h with
  | layerFileUpload x => exact ⟨[_], rfl, le_rfl, rfl, rfl⟩
  | unlinking names =>
    obtain ⟨dirty, heq, -⟩ := q.unlink_spec names
    rw [heq]
    exact ⟨[], (append_nil _).symm, Nat.zero_le 1, rfl, rfl⟩
  | indexUpload => exact ⟨[_], rfl, le_rfl, rfl, rfl⟩
  | deletion layers =>
    unfold scheduleDeletionOfUnlinked0
    dsimp only
    split
    · exact ⟨[], (append_nil _).symm, Nat.zero_le 1, rfl, rfl⟩
    · exact ⟨[_], rfl, le_rfl, rfl, rfl⟩
  | barrier => exact ⟨[_], rfl, le_rfl, rfl, rfl⟩
  | shutdown => exact ⟨[_], rfl, le_rfl, rfl, rfl⟩

namespace Inv

theorem schedule [DecidableEq Name] (h : Inv w)
    (hs : Schedules shard w.queue q) : Inv (w.schedule q) := by
  obtain ⟨ops, hops, hlen, htasks, hcounter⟩ := hs.spec
  have hqueued : (w.schedule q).queued = w.queued ++ ops.map fun op ↦ (op, w.scheduled) := by
    rw [World.schedule, hops, drop_left]
  have hmem : ∀ p ∈ (w.schedule q).queued, p ∈ w.queued ∨ p.2 = w.scheduled := by
    intro p hp
    rw [hqueued, mem_append] at hp
    refine hp.imp_right fun hp ↦ ?_
    obtain ⟨op, -, rfl⟩ := mem_map.mp hp
    rfl
  have hlt : w.scheduled < (w.schedule q).scheduled := Nat.lt_succ_self _
  refine ⟨?_, ?_, fun p hp ↦ ?_, ?_, ?_, fun t ht ↦ ?_, fun x u hu ↦ (h.written x u hu).trans hlt,
    fun t ht x m hop ↦ ?_, fun t ht ↦
      h.deleting t (htasks ▸ ht), fun p hp layers hop x hx u hu ↦ ?_,
    h.doomed, h.safe, h.running, h.waiters⟩
  · rw [hqueued, map_append, ← h.queued, map_map]
    refine hops.trans (congrArg _ ?_)
    exact (map_id ops).symm
  · rw [hqueued, pairwise_append]
    refine ⟨h.sorted, ?_, fun p hp p' hp' ↦ ?_⟩
    · match ops, hlen with
      | [], _ => exact .nil
      | [op], _ => exact pairwise_singleton _ _
    · obtain ⟨op, -, rfl⟩ := mem_map.mp hp'
      exact h.below p hp
  · rcases hmem p hp with hp | hp
    · exact (h.below p hp).trans hlt
    · rw [hp]
      exact hlt
  · change (q.inprogressTasks.map UploadTask.taskId).Nodup
    rw [htasks]
    exact h.ids
  · change ∀ t ∈ q.inprogressTasks, t.taskId ≤ q.taskCounter
    rw [htasks, hcounter]
    exact h.counter
  · exact (h.numbered t (htasks ▸ ht)).trans hlt
  · have hu := h.uploading t (htasks ▸ ht) x m hop
    refine { hu with
      apart := fun t' ht' ↦ hu.apart t' (htasks ▸ ht')
      before := fun p hp layers hop' hx ↦ ?_ }
    rcases hmem p hp with hp | hp
    · exact hu.before p hp layers hop' hx
    · rw [hp]
      exact h.numbered t (htasks ▸ ht)
  · rcases hmem p hp with hp | hp
    · exact h.queuedDelete p hp layers hop x hx u hu
    · rw [hp]
      exact h.written x u hu

theorem dequeue (h : Inv w) {queued : List (UploadOp Name × ℕ)} (hsub : queued.Sublist w.queued)
    (k : ℕ) : Inv (w.dequeue k queued) := by
  have hne : ∀ t ∈ w.queue.inprogressTasks, t.taskId ≠ w.queue.taskCounter + 1 := fun t ht ↦
    (Nat.lt_succ_of_le (h.counter t ht)).ne
  have hnum : ∀ t ∈ w.queue.inprogressTasks,
      update w.number (w.queue.taskCounter + 1) k t.taskId = w.number t.taskId :=
    fun t ht ↦ update_of_ne (hne t ht) _ _
  refine { h with
    queued := rfl
    sorted := h.sorted.sublist hsub
    below := fun p hp ↦ h.below p (hsub.mem hp)
    numbered := fun t ht ↦ (hnum t ht).trans_lt (h.numbered t ht)
    uploading := fun t ht x m hop ↦ ?_
    deleting := fun t ht layers hop x hx u hu ↦
      (h.deleting t ht layers hop x hx u hu).trans_eq (hnum t ht).symm
    queuedDelete := fun p hp ↦ h.queuedDelete p (hsub.mem hp) }
  have hu := h.uploading t ht x m hop
  refine { hu with
    before := fun p hp layers hop hx ↦
      (hnum t ht).trans_lt (hu.before p (hsub.mem hp) layers hop hx)
    phase := ?_ }
  have hphase := hu.phase
  rwa [← update_of_ne (hne t ht) .launched w.phase] at hphase

theorem addTask (h : Inv w) (op : UploadOp Name) (deleted : List (Name × Generation))
    (hnum : w.number (w.queue.taskCounter + 1) < w.scheduled)
    (hup : ∀ x m, op = .uploadLayer x m → Uploading w ⟨w.queue.taskCounter + 1, op⟩ x m)
    (hdel : ∀ layers, op = .delete layers →
      (∀ t ∈ w.queue.inprogressTasks, ∀ x m, t.op = .uploadLayer x m → x ∉ layers) ∧
        ∀ x ∈ layers, ∀ u, w.remote x = some u → u < w.number (w.queue.taskCounter + 1)) :
    Inv { w with queue := { w.queue with recentlyDeleted := deleted }.addTask op } := by
  refine { h with
    ids := ?_
    counter := forall_mem_snoc.mpr ⟨fun t ht ↦ Nat.le_succ_of_le (h.counter t ht), le_rfl⟩
    numbered := forall_mem_snoc.mpr ⟨h.numbered, hnum⟩
    uploading := fun t ht x m hop ↦ ?_
    deleting := forall_mem_snoc.mpr ⟨h.deleting, fun layers hop ↦ (hdel layers hop).2⟩ }
  · change (List.map UploadTask.taskId (w.queue.inprogressTasks ++ [⟨_, op⟩])).Nodup
    rw [map_append, nodup_append]
    refine ⟨h.ids, nodup_singleton _, fun i hi j hj hij ↦ ?_⟩
    obtain ⟨t, ht, rfl⟩ := mem_map.mp hi
    have hle := h.counter t ht
    have hj' : j = w.queue.taskCounter + 1 := mem_singleton.mp hj
    omega
  · have hu : Uploading w t x m := by
      rcases mem_snoc.mp ht with ht | rfl
      · exact h.uploading t ht x m hop
      · exact hup x m hop
    refine { hu with apart := fun t' ht' layers hop' ↦ ?_ }
    rcases mem_snoc.mp ht' with ht' | rfl
    · exact hu.apart t' ht' layers hop'
    · rcases mem_snoc.mp ht with ht | rfl
      · exact (hdel layers hop').1 t ht x m hop
      · exact nomatch hop.symm.trans hop'

/-- An upload and a deletion of one layer are launched in the order in which they were scheduled. -/
theorem launch [DecidableEq Name] (h : Inv w) {order : List (UploadOp Name)}
    {op : UploadOp Name} {k : ℕ}
    {ahead skipped behind : List (UploadOp Name × ℕ)} (hok : Recorded w op)
    (horder : order.Perm w.queue.inprogress)
    (hqueued : w.queued = ahead ++ (skipped ++ (op, k) :: behind))
    (hready : w.queue.isReady order (ahead.map Prod.fst) op = true) :
    Inv (w.launch op k (ahead ++ behind)) := by
  have hsub : (ahead ++ behind).Sublist w.queued := by
    rw [hqueued]
    exact ((sublist_cons_self _ _).trans (sublist_append_right _ _)).append_left ahead
  have hmem : (op, k) ∈ w.queued := by
    rw [hqueued]
    exact mem_append_right _ (mem_append_right _ mem_cons_self)
  have hd := h.dequeue hsub k
  have hnum : (w.dequeue k (ahead ++ behind)).number (w.queue.taskCounter + 1) = k :=
    update_self _ _ _
  have hphase : (w.dequeue k (ahead ++ behind)).phase (w.queue.taskCounter + 1) = .launched :=
    update_self _ _ _
  have hlt := hnum.trans_lt (h.below _ hmem)
  -- what the operation bypasses
  have hby : ∀ t ∈ w.queue.inprogressTasks, ∃ a, op.canBypass t.op a = true := fun t ht ↦
    exists_canBypass_of_isReady hready
      (mem_append_left _ (horder.mem_iff.mpr (mem_map_of_mem ht)))
  have hbehind : ∀ p ∈ ahead ++ behind, (∃ a, op.canBypass p.1 a = true) ∨ k < p.2 := by
    intro p hp
    rcases mem_append.mp hp with hp | hp
    · exact .inl (exists_canBypass_of_isReady hready (mem_append_right _ (mem_map_of_mem hp)))
    · have hs := h.sorted
      rw [hqueued, pairwise_append, pairwise_append, pairwise_cons] at hs
      exact .inr (hs.2.1.2.1.1 p hp)
  cases op with
  | uploadLayer x m =>
    have hup : ∀ m', (m' ≠ some .flushDeletion → Past (OfLayer x) 5 w.node) →
        Uploading (w.dequeue k (ahead ++ behind))
          ⟨w.queue.taskCounter + 1, .uploadLayer x m'⟩ x m' := fun m' hm' ↦
      { apart := fun t ht layers hop ↦ by
          obtain ⟨a, ha⟩ := hby t ht
          rw [hop] at ha
          exact UploadOp.notMem_of_canBypass (.inl ha)
        before := fun p hp layers hop hx ↦ by
          rcases hbehind p hp with ⟨a, ha⟩ | hk
          · rw [hop] at ha
            exact absurd hx (UploadOp.notMem_of_canBypass (.inl ha))
          · exact hnum.trans_lt hk
        reorder := hm'
        phase := by
          rw [hphase]
          trivial }
    have hadd := fun m' deleted (hm' : m' ≠ some .flushDeletion → Past (OfLayer x) 5 w.node) ↦
      hd.addTask (.uploadLayer x m') deleted hlt
        (fun y m'' hop ↦ by
          cases hop
          exact hup m' hm') nofun
    unfold World.launch start
    dsimp only
    split
    · exact hadd _ _ fun hm ↦ absurd rfl hm
    next hx => exact hadd _ _ fun _ ↦ hok x m rfl hx
  | uploadMetadata i =>
    exact hd.addTask _ _ hlt nofun nofun
  | delete layers =>
    refine hd.addTask _ _ hlt nofun fun layers' hop ↦ ?_
    cases hop
    refine ⟨fun t ht x m hop hx ↦ ?_, fun x hx u hu ↦ ?_⟩
    · obtain ⟨a, ha⟩ := hby t ht
      rw [hop] at ha
      exact UploadOp.notMem_of_canBypass (.inr ha) hx
    · exact (h.queuedDelete _ hmem layers rfl x hx u hu).trans_eq hnum.symm
  | barrier => exact hd
  | shutdown => exact hd

theorem complete (h : Inv w) {t : UploadTask Name} (hc : w.queue.complete t = some q) :
    Inv { w with queue := q } := by
  obtain ⟨clean, rfl⟩ : ∃ clean, q = { w.queue with
      inprogressTasks := w.queue.inprogressTasks.filter fun t' ↦ t'.taskId ≠ t.taskId
      clean := clean } := by
    unfold UploadQueueInitialized.complete at hc
    split at hc
    · split at hc
      · cases hc
        exact ⟨_, rfl⟩
      · cases hc
    · cases hc
      exact ⟨_, rfl⟩
  have hsub : (w.queue.inprogressTasks.filter fun t' ↦ t'.taskId ≠ t.taskId).Sublist
      w.queue.inprogressTasks := filter_sublist
  exact { h with
    ids := h.ids.sublist (hsub.map _)
    counter := fun t' ht' ↦ h.counter t' (hsub.mem ht')
    numbered := fun t' ht' ↦ h.numbered t' (hsub.mem ht')
    uploading := fun t' ht' x m hop ↦
      have hu := h.uploading t' (hsub.mem ht') x m hop
      { hu with apart := fun t'' ht'' ↦ hu.apart t'' (hsub.mem ht'') }
    deleting := fun t' ht' ↦ h.deleting t' (hsub.mem ht') }

theorem initial (h : Initial w) : Inv w := by
  obtain ⟨index, limit, hqueue⟩ := h.queue
  have htasks : w.queue.inprogressTasks = [] := by rw [hqueue]; rfl
  have hno : ∀ t, t ∉ w.queue.inprogressTasks := fun t ht ↦ by
    rw [htasks] at ht
    cases ht
  refine ⟨?_, ?_, fun p hp ↦ ?_, ?_, fun t ht ↦ absurd ht (hno t), fun t ht ↦ absurd ht (hno t),
    fun x u hu ↦ ?_, fun t ht ↦ absurd ht (hno t), fun t ht ↦ absurd ht (hno t), fun p hp ↦ ?_,
    fun i x d hd u hu ↦ ?_, fun r hr ↦ ?_, h.node.1, h.waiters⟩
  · rw [hqueue, h.queued]
    rfl
  · rw [h.queued]
    exact .nil
  · rw [h.queued] at hp
    cases hp
  · rw [htasks]
    exact nodup_nil
  · rw [h.remote] at hu
    cases hu
  · rw [h.queued] at hp
    cases hp
  · rw [h.remote] at hu
    cases hu
  · rw [h.removed] at hr
    cases hr

variable [DecidableEq Tenant] [DecidableEq Name] {w' : World Tenant Timeline Upd Name}

variable {s : Setup Tenant}

theorem step (h : Inv w) (hs : Step s Recorded w w') : Inv w' := by
  have hfresh : ¬w.node.HasWaiter w.waiters := fun hv ↦ (h.waiters _ hv).false
  cases hs with
  | schedule q hrun hq => exact h.schedule hq
  | launch order op k ahead skipped behind hok horder hready hqueued hahead hskipped =>
    exact h.launch hok horder hqueued hahead
  | clear t x ht hop hp =>
    have h' : Inv { w with queue := { w.queue with recentlyDeleted := [] } } :=
      { h with uploading := fun t ht x m hop ↦ { h.uploading t ht x m hop with } }
    exact h'.setPhase ht fun _ _ _ ↦ trivial
  | flush t ht hp =>
    have h' : Inv (w.send (.flush w.waiters)) :=
      h.send (fun v hv ↦ (Option.some.inj hv).symm) nofun nofun
    exact h'.setPhase ht fun x m hop ↦ ⟨Nat.lt_succ_self _, .start _ hfresh⟩
  | flushExecute t v ht hp hv =>
    have h' : Inv (w.send (.flushExecute w.waiters)) :=
      h.send (fun v hv ↦ (Option.some.inj hv).symm) nofun nofun
    refine h'.setPhase ht fun x m hop ↦ ⟨Nat.lt_succ_self _, .start ?_ hfresh⟩
    have hphase := (h.uploading t ht x m hop).phase
    rw [hp] at hphase
    exact hphase.2.notified hv
  | flushed t v ht hp hv =>
    refine h.setPhase ht fun x m hop ↦ ?_
    have hphase := (h.uploading t ht x m hop).phase
    rw [hp] at hphase
    exact hphase.2.notified hv
  | upload t x m ht hop hp =>
    have hu := h.uploading t ht x m hop
    have hpast : Past (OfLayer x) 5 w.node := by
      by_cases hm : m = some .flushDeletion
      · have hphase := hu.phase
        rw [hp, if_pos hm] at hphase
        exact hphase
      · exact hu.reorder hm
    refine (h.upload ht hop hpast).setPhase ht fun y m' hop' ↦ ?_
    cases hop.symm.trans hop'
    exact hpast
  | retry t x m ht hop hp => exact h.setPhase ht fun _ _ _ ↦ trivial
  | delete t layers ht hop hp =>
    have h' : Inv (w.send (.delete ⟨s.tenant, layers.map fun x ↦ some (x, w.number t.taskId),
        s.generation⟩)) := by
      refine h.send nofun (fun t' ht' x m hop' o ho hox ↦ ?_) fun x d hd u hu ↦ ?_
      · obtain ⟨y, hy, rfl⟩ := mem_map.mp ho
        obtain ⟨d, hd⟩ := hox
        cases hd
        exact (h.uploading t' ht' x m hop').apart t ht layers hop hy
      · obtain ⟨y, hy, heq⟩ := mem_map.mp hd
        cases heq
        exact h.deleting t ht layers hop x hy u hu
    exact h'.setPhase ht fun x m hop' ↦ nomatch hop.symm.trans hop'
  | uploadIndex t i ht hop hp => exact h.setPhase ht fun x m hop' ↦ nomatch hop.symm.trans hop'
  | complete t q ht hp hc => exact h.complete hc
  | turn n hn => exact h.advances (.of_turn h.running hn)
  | remove o ho => exact h.remove fun o' ho' ↦ mem_singleton.mp ho' ▸ ho
  | executed n hn =>
    exact (h.remove (.refl _)).advances (.of_executed h.running hn)
  | other msg hobj hw =>
    refine h.send hw (fun t ht x m hop o ho hox ↦ ?_) fun x d hd ↦ nomatch hobj _ hd
    obtain ⟨d, rfl⟩ := hox
    exact nomatch hobj _ ho
  | publish table => exact h.advances (.of_lsnTable h.running table)

theorem of_reachable (h : Reachable s Recorded w) : Inv w := by
  obtain ⟨w₀, h₀, hrun⟩ := h
  induction hrun with
  | refl => exact initial h₀
  | tail _ hs ih => exact ih.step hs

end Inv

/-- **A deletion does not remove a later upload, as long as every upload that is launched while a
deletion of its layer is in the deletion queue finds the key of the layer in
`recently_deleted`.** -/
theorem not_removed_of_recorded [DecidableEq Tenant] [DecidableEq Name] {s : Setup Tenant}
    (h : Reachable s Recorded w) : w.Safe :=
  (Inv.of_reachable h).safe

/-! ## Two layers -/

def sampleLayer (name : Bool) : RemoteLayer Bool := ⟨name, ⟨.valid 1, ⟨0, 0⟩⟩⟩

def sampleSetup : Setup Unit := ⟨⟨false, false⟩, (), ⟨0, 0⟩, .valid 1⟩

/-- Both layers are in the index, and the deletion queue is idle. -/
def sampleWorld : World Unit Unit Unit Bool where
  queue := .initializeWithCurrentRemoteIndexPart ⟨fun n ↦ some (sampleLayer n).metadata⟩ 0
  queued := []
  scheduled := 0
  number _ := 0
  phase _ := .launched
  node := { DeletionQueue.Node.restarted ⟨[], none⟩ with
    listWriter := ⟨[], .new 1, [], true⟩ }
  waiters := 0
  remote _ := none
  removed := ∅

theorem sampleWorld_initial : Initial sampleWorld where
  queue := ⟨_, _, rfl⟩
  queued := rfl
  node := by
    refine ⟨⟨rfl, fun _ ↦ rfl⟩, fun i o ho ↦ ?_⟩
    match i with
    | 0 | 1 | 2 | 3 | 4 | _ + 5 => cases ho
  waiters v hv := by
    rcases hv with (hv | hv) | (hv | hv | hv) | hv <;> cases hv
  remote _ := rfl
  removed := rfl

/-- A layer is deleted and uploaded again, which waits for the deletion: the object is there in the
end. -/
theorem not_removed_of_recorded_flushed : ∃ w : World Unit Unit Unit Bool,
    Reachable sampleSetup Recorded w ∧ w.remote (sampleLayer false) = some 3 ∧
      w.node.deleter = [] ∧ w.Safe := by
  refine ⟨?w, ?reach, ?remote, ?deleter, not_removed_of_recorded ?reach⟩
  case reach =>
    refine ⟨_, sampleWorld_initial, ?run⟩
    case run =>
      -- the layer is unlinked from the index and deleted
      refine .head (.schedule _ rfl (.unlinking [false])) ?_
      refine .head (.schedule _ rfl .indexUpload) ?_
      refine .head (.launch [] _ _ [] [] [] (fun x m h ↦ ?_) (.refl _) rfl rfl rfl nofun) ?_
      · cases h
      refine .head (.uploadIndex _ _ (.head _) rfl rfl) ?_
      refine .head (.complete _ _ (.head _) rfl rfl) ?_
      refine .head (.schedule _ rfl (.deletion [sampleLayer false])) ?_
      refine .head (.launch [] _ _ [] [] [] (fun x m h ↦ ?_) (.refl _) rfl rfl rfl nofun) ?_
      · cases h
      refine .head (.delete _ _ (.head _) rfl rfl) ?_
      refine .head (.complete _ _ (.head _) rfl rfl) ?_
      -- it is uploaded again
      refine .head (.schedule _ rfl (.layerFileUpload (sampleLayer false))) ?_
      refine .head (.launch [] _ _ [] [] [] (fun x m h hx ↦ ?_) (.refl _) rfl rfl rfl nofun) ?_
      · cases h
        exact absurd (.head _) hx
      refine .head (.clear _ _ (.head _) rfl rfl) ?_
      refine .head (.flush _ (.head _) rfl) ?_
      refine .head (.turn _ (.listWriterTurn _ true true rfl)) ?_
      refine .head (.turn _ (.listWriterTurn _ true true rfl)) ?_
      refine .head (.flushExecute _ _ (.head _) rfl (.head _)) ?_
      refine .head (.turn _ (.listWriterTurn _ true true rfl)) ?_
      -- the deletion is executed
      refine .head (.turn _ (.validatorReceive _ rfl)) ?_
      refine .head (.turn _ (.validatorReceive _ rfl)) ?_
      refine .head (.turn _ (.answer _ (fun _ ↦ true) rfl)) ?_
      refine .head (.turn _ (.trimNext _ true rfl)) ?_
      refine .head (.turn _ (.finishValidate _ true rfl)) ?_
      refine .head (.executed _ rfl) ?_
      refine .head (.turn _ (.cleanNext _ rfl)) ?_
      refine .head (.turn _ (.cleanNext _ rfl)) ?_
      refine .head (.flushed _ _ (.head _) rfl (.tail _ (.head _))) ?_
      refine .head (.upload _ _ _ (.head _) rfl rfl) ?_
      refine .head (.complete _ _ (.head _) rfl rfl) ?_
      exact .refl
  case remote => rfl
  case deleter => rfl

/-- Both layers are deleted and uploaded again. The first upload forgets the keys of both; then the
second one is launched, writes its object at once and is done; and the deletion removes it. -/
theorem removed_of_forgotten : ∃ w : World Unit Unit Unit Bool,
    Reachable sampleSetup (fun _ _ ↦ True) w ∧ w.remote (sampleLayer true) = none ∧
      (2, 4) ∈ w.removed ∧ ¬w.Safe := by
  refine ⟨?w, ⟨_, sampleWorld_initial, ?run⟩, ?none, ?rem, fun hsafe ↦ hsafe _ ?rem (by decide)⟩
  case run =>
    -- the layers are unlinked from the index and deleted
    refine .head (.schedule _ rfl (.unlinking [false, true])) ?_
    refine .head (.schedule _ rfl .indexUpload) ?_
    refine .head (.launch [] _ _ [] [] [] trivial (.refl _) rfl rfl rfl nofun) ?_
    refine .head (.uploadIndex _ _ (.head _) rfl rfl) ?_
    refine .head (.complete _ _ (.head _) rfl rfl) ?_
    refine .head (.schedule _ rfl (.deletion [sampleLayer false, sampleLayer true])) ?_
    refine .head (.launch [] _ _ [] [] [] trivial (.refl _) rfl rfl rfl nofun) ?_
    refine .head (.delete _ _ (.head _) rfl rfl) ?_
    refine .head (.complete _ _ (.head _) rfl rfl) ?_
    -- the first one is uploaded again
    refine .head (.schedule _ rfl (.layerFileUpload (sampleLayer false))) ?_
    refine .head (.launch [] _ _ [] [] [] trivial (.refl _) rfl rfl rfl nofun) ?_
    refine .head (.clear _ _ (.head _) rfl rfl) ?_
    -- the second one is uploaded again
    refine .head (.schedule _ rfl (.layerFileUpload (sampleLayer true))) ?_
    refine .head (.launch _ _ _ [] [] [] trivial (.refl _) rfl rfl rfl nofun) ?_
    refine .head (.upload _ _ _ (.tail _ (.head _)) rfl rfl) ?_
    refine .head (.complete _ _ (.tail _ (.head _)) rfl rfl) ?_
    -- the deletion is executed
    refine .head (.turn _ (.listWriterTurn _ true true rfl)) ?_
    refine .head (.turn _ (.listWriterDeadline true)) ?_
    refine .head (.turn _ (.validatorReceive _ rfl)) ?_
    refine .head (.turn _ (.autoflush _ rfl)) ?_
    refine .head (.turn _ (.answer _ (fun _ ↦ true) rfl)) ?_
    refine .head (.turn _ (.trimNext _ true rfl)) ?_
    refine .head (.turn _ (.finishValidate _ true rfl)) ?_
    refine .head (.executed _ rfl) ?_
    exact .refl
  case none => rfl
  case rem => exact .inr ⟨sampleLayer true, .tail _ (.head _), rfl⟩

end NeonStorage.Pageserver.UploadQueue.Reupload
