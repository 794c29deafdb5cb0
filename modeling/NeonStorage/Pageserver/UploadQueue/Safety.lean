import NeonStorage.Pageserver.UploadQueue.Readiness
import NeonStorage.Lib.Snoc

/-!
# Safety of the upload queue

The invariant of the queue says that the queue is in order behind the tasks in progress, that these
fit beside each other, and how the dirty index relates to the last index scheduled. It is kept by
every call and every completion (`Inv.step`), as long as callers only upload layers of their own
attachment and do not delete a layer that has come back into the index.
-/

namespace NeonStorage.Pageserver.UploadQueue

open List UploadQueueInitialized UploadTask UploadOp InOrder
open Reorder

variable {Name : Type} {l r : List (UploadTask Name)} {t : UploadTask Name}

private theorem filter_taskId (h : (l ++ t :: r).Pairwise fun t t' ↦ t.taskId < t'.taskId) :
    (l ++ t :: r).filter (fun t' ↦ t'.taskId ≠ t.taskId) = l ++ r := by
  rw [pairwise_append, pairwise_cons] at h
  obtain ⟨-, ⟨hr, -⟩, hl⟩ := h
  have hl' : l.filter (fun t' ↦ t'.taskId ≠ t.taskId) = l := by
    rw [filter_eq_self]
    intro t' ht'
    simpa using (hl t' ht' t mem_cons_self).ne
  have hr' : r.filter (fun t' ↦ t'.taskId ≠ t.taskId) = r := by
    rw [filter_eq_self]
    intro t' ht'
    simpa using (hr t' ht').ne'
  rw [filter_append, filter_cons_of_neg (by simp), hl', hr']

variable [DecidableEq Name]

/-! ## The invariant -/

/-- What holds between calls. `own` is what layers of this timeline's own attachment have as
generation and shard; layers of others can only be removed from the index, or displaced in it by an
own layer of their name. -/
structure Inv (own : LayerFileMetadata) (w : World Name) : Prop where
  /-- Tasks in progress fit beside each other. -/
  beside : w.queue.inprogress.Pairwise Beside
  /-- No task touches the clean index. -/
  idle : ∀ o ∈ w.queue.inprogress, ∀ x ∈ o.modified, w.queue.clean.1.references x = false
  stored : ∀ x, w.queue.clean.1.references x = true → x ∈ w.uploaded
  running : ∀ i, .uploadMetadata i ∈ w.queue.inprogress →
    ∀ x, i.references x = true → x ∈ w.uploaded
  inOrder : InOrder (activeAfter w.queue.clean.1 w.queue.inprogress)
    (performAll w.uploaded w.queue.inprogress) w.queue.queuedOperations
  /-- The last index scheduled has no layer that the dirty index does not have, but displaced
  ones. -/
  last : ∀ x, (activeAfter (activeAfter w.queue.clean.1 w.queue.inprogress)
      w.queue.queuedOperations).references x = true →
    w.queue.dirty.references x = true ∨ x ∉ w.unlinked ∧ x.metadata ≠ own
  /-- The layers of the dirty index exist once everything is performed. -/
  dirty : ∀ x, w.queue.dirty.references x = true →
    x ∈ performAll (performAll w.uploaded w.queue.inprogress) w.queue.queuedOperations
  foreign : ∀ x ∈ w.unlinked, x.metadata ≠ own → w.queue.dirty.references x = false
  /-- Task ids are given out in increasing order. -/
  ids : w.queue.inprogressTasks.Pairwise fun t t' ↦ t.taskId < t'.taskId
  counter : ∀ t ∈ w.queue.inprogressTasks, t.taskId ≤ w.queue.taskCounter
  cleanId : ∀ c ∈ w.queue.clean.2, c ≤ w.queue.taskCounter ∧
    ∀ t ∈ w.queue.inprogressTasks, t.op.isMetadata = true → c < t.taskId

namespace Inv

variable {own : LayerFileMetadata} {w : World Name} {sw : Switches}

theorem initial (h : Initial w) : Inv own w := by
  obtain ⟨index, limit, uploaded, h⟩ := h
  refine ⟨?_, ?_, h, ?_, trivial, fun _ ↦ .inl, h, ?_, ?_, ?_, ?_⟩ <;>
    simp [initializeWithCurrentRemoteIndexPart, inprogress]

theorem push (h : Inv own w) {op : UploadOp Name} {dirty : IndexPart Name} {changes : ℕ}
    (unlinked : Set (RemoteLayer Name))
    (hmod : ∀ x ∈ op.modified, (activeAfter (activeAfter w.queue.clean.1 w.queue.inprogress)
      w.queue.queuedOperations).references x = false)
    (hindex : ∀ i, op = .uploadMetadata i → ∀ x, i.references x = true →
      w.queue.dirty.references x = true)
    (hlast : ∀ x, (nextActive (activeAfter (activeAfter w.queue.clean.1 w.queue.inprogress)
      w.queue.queuedOperations) op).references x = true →
        dirty.references x = true ∨ x ∉ unlinked ∧ x.metadata ≠ own)
    (hdirty : ∀ x, dirty.references x = true → x ∈ perform (performAll (performAll w.uploaded
      w.queue.inprogress) w.queue.queuedOperations) op)
    (hforeign : ∀ x ∈ unlinked, x.metadata ≠ own → dirty.references x = false) : Inv own { w with
      queue := { w.queue with dirty := dirty, latestFilesChanges := changes }.push op
      unlinked := unlinked } :=
  { h with
    inOrder := append_iff.mpr
      ⟨h.inOrder, hmod, fun i hi x hx ↦ h.dirty x (hindex i hi x hx), trivial⟩
    last := by
      intro x hx
      rw [UploadQueueInitialized.push, activeAfter_append] at hx
      exact hlast x hx
    dirty := by
      intro x hx
      rw [UploadQueueInitialized.push, performAll_append]
      exact hdirty x hx
    foreign := hforeign }

/-! ### Scheduling -/

theorem scheduleLayerFileUpload0 (h : Inv own w) {x : RemoteLayer Name} (hown : x.metadata = own)
    (hx : w.queue.dirty.references x = false) :
    Inv own { w with queue := w.queue.scheduleLayerFileUpload0 x } := by
  refine h.push w.unlinked ?_ nofun ?_ ?_ ?_
  · intro y hy
    obtain rfl : y = x := by simpa [modified] using hy
    refine Bool.eq_false_iff.mpr fun hne ↦ ?_
    rcases h.last y hne with hd | ⟨-, hd⟩
    · cases hx.symm.trans hd
    · exact hd hown
  · intro y hy
    rw [IndexPart.references_insert]
    by_cases hn : y.name = x.name
    · by_cases heq : y = x
      · exact .inl (.inl heq)
      · -- the new layer displaces `y`, which is another attachment's
        have hfor : y.metadata ≠ own := by
          intro hm
          rcases x with ⟨n, m⟩
          rcases y with ⟨n', m'⟩
          simp_all
        rcases h.last y hy with hd | hd
        · refine .inr ⟨fun hu ↦ ?_, hfor⟩
          cases (h.foreign y hu hfor).symm.trans hd
        · exact .inr hd
    · rcases h.last y hy with hd | hd
      · exact .inl (.inr ⟨hn, hd⟩)
      · exact .inr hd
  · intro y hy
    rcases IndexPart.references_insert.mp hy with rfl | ⟨-, hy⟩
    · exact Set.mem_insert y _
    · exact Set.mem_insert_of_mem x (h.dirty y hy)
  · intro y hu hfor
    refine Bool.eq_false_iff.mpr fun hne ↦ ?_
    rcases IndexPart.references_insert.mp hne with rfl | ⟨-, hy⟩
    · exact hfor hown
    · cases (h.foreign y hu hfor).symm.trans hy

variable {layers : List (RemoteLayer Name)}

theorem scheduleLayerFileUploads {d : Discipline Name}
    (hd : ∀ i x, d.upload i x → x.metadata = own ∧ i.references x = false) (h : Inv own w)
    (hu : d.Uploads w.queue.dirty layers) : Inv own { w with
      queue := layers.foldl UploadQueueInitialized.scheduleLayerFileUpload0 w.queue } := by
  induction layers generalizing w with
  | nil => exact h
  | cons x layers ih =>
    obtain ⟨hown, hx⟩ := hd _ _ hu.1
    exact ih
      (h.scheduleLayerFileUpload0 hown hx) hu.2

section

variable (h : Inv own w)
include h

/-- Layers are unlinked from the dirty index and the index is scheduled. If no index is scheduled,
nothing was unlinked. -/
theorem unlink (names : List Name) : Inv own { w with
      queue := if 0 < (w.queue.unlink names).1.latestFilesChanges then
          (w.queue.unlink names).1.scheduleIndexUpload0 else (w.queue.unlink names).1
      unlinked := w.unlinked ∪ {x | x ∈ (w.queue.unlink names).2} } := by
  obtain ⟨dirty, heq, hsub, hout, hnone⟩ := w.queue.unlink_spec names
  have hforeign : ∀ x ∈ w.unlinked ∪ {x | x ∈ (w.queue.unlink names).2},
      x.metadata ≠ own → dirty.references x = false := by
    intro x hx hfor
    rcases hx with hx | hx
    · refine Bool.eq_false_iff.mpr fun hne ↦ ?_
      have := hsub x hne
      cases (h.foreign x hx hfor).symm.trans this
    · exact hout x hx
  rw [heq]
  split
  next =>
    refine h.push _ ?_ ?_ (fun x hx ↦ .inl hx) (fun x hx ↦ h.dirty x (hsub x hx)) hforeign
    · simp [modified]
    · intro i hi x hx
      cases hi
      exact hsub x hx
  next hzero =>
    -- with the counter at zero nothing was unlinked, and the queue is as it was
    have hcount : w.queue.latestFilesChanges = 0 ∧ (w.queue.unlink names).2 = [] := by
      simpa using hzero
    rw [hcount.2, hnone hcount.2]
    simpa using h

theorem scheduleDeletionOfUnlinked0 (shard : ShardIndex)
    (hd : ∀ x ∈ layers, x ∈ w.unlinked ∧ w.queue.dirty.references x = false) :
    Inv own { w with queue := w.queue.scheduleDeletionOfUnlinked0 shard layers } := by
  unfold UploadQueueInitialized.scheduleDeletionOfUnlinked0
  dsimp only
  split
  · exact h
  have hd' : ∀ x ∈ layers.filter fun x ↦ x.metadata.shard = shard,
      x ∈ w.unlinked ∧ w.queue.dirty.references x = false :=
    fun x hx ↦ hd x (mem_of_mem_filter hx)
  refine h.push w.unlinked ?_ nofun h.last ?_ h.foreign
  · intro x hx
    obtain ⟨hun, hnd⟩ := hd' x hx
    refine Bool.eq_false_iff.mpr fun hne ↦ ?_
    rcases h.last x hne with hx' | ⟨hx', -⟩
    · cases hnd.symm.trans hx'
    · exact hx' hun
  · intro x hx
    refine ⟨h.dirty x hx, fun hmem ↦ ?_⟩
    cases ((hd' x hmem).2).symm.trans hx

theorem scheduleIndexUpload0 : Inv own { w with queue := w.queue.scheduleIndexUpload0 } := by
  refine h.push w.unlinked ?_ ?_ (fun x hx ↦ .inl hx) h.dirty h.foreign
  · simp [modified]
  · intro i hi x hx
    cases hi
    exact hx

theorem pushBarrier : Inv own { w with queue := w.queue.push .barrier } :=
  h.push w.unlinked (by simp [modified]) nofun h.last h.dirty
    h.foreign

theorem pushShutdown :
    Inv own { w with queue := { w.queue.push .shutdown with shuttingDown := true } } := by
  have h' : Inv own { w with queue := w.queue.push .shutdown } :=
    h.push w.unlinked (by simp [modified]) nofun h.last h.dirty
      h.foreign
  exact { h' with }

/-! ### Launching -/

/-- The queue may be replaced by one that amounts to the same when it is performed in order. -/
theorem requeue {ops : List (UploadOp Name)}
    (hin : InOrder (activeAfter w.queue.clean.1 w.queue.inprogress)
      (performAll w.uploaded w.queue.inprogress) ops)
    (hactive : ∀ i, activeAfter i ops = activeAfter i w.queue.queuedOperations)
    (hperform : ∀ S, performAll S ops = performAll S w.queue.queuedOperations) :
    Inv own { w with queue := { w.queue with queuedOperations := ops } } :=
  { h with
    inOrder := hin
    last := fun x hx ↦ h.last x (by rw [← hactive]; exact hx)
    dirty := fun x hx ↦ by rw [hperform]; exact h.dirty x hx }

variable {ahead behind : List (UploadOp Name)} {i : IndexPart Name}

theorem skip {skipped : List (UploadOp Name)}
    (hq : w.queue.queuedOperations = ahead ++ (skipped ++ .uploadMetadata i :: behind))
    (hs : ∀ o ∈ skipped, o.isMetadata = true) : Inv own { w with queue :=
      { w.queue with queuedOperations := ahead ++ .uploadMetadata i :: behind } } := by
  have hperform : ∀ S, performAll S skipped = S := fun S ↦ performAll_of_isMetadata hs
  refine h.requeue ?_ ?_ ?_
  · have hin := h.inOrder
    rw [hq, append_iff, append_iff] at hin
    obtain ⟨ha, -, hb⟩ := hin
    rw [append_iff]
    rw [hperform] at hb
    exact ⟨ha, by simp [modified], hb.2⟩
  · simp [hq, nextActive]
  · simp [hq, hperform]

theorem drop {op : UploadOp Name} (hq : w.queue.queuedOperations = ahead ++ op :: behind)
    (hactive : ∀ i, nextActive i op = i) (hperform : ∀ S, perform S op = S) :
    Inv own { w with queue := { w.queue with queuedOperations := ahead ++ behind } } := by
  refine h.requeue ?_ ?_ ?_
  · have hin := h.inOrder
    rw [hq, append_iff, InOrder, hactive, hperform] at hin
    exact append_iff.mpr ⟨hin.1, hin.2.2.2⟩
  · simp [hq, hactive]
  · simp [hq, hperform]

variable {order : List (UploadOp Name)}

/-- What is launched does not touch the clean index: either there is an index upload to bypass, or
the clean index is the one active at its place in the queue. -/
theorem clean_references_of_isReady {op : UploadOp Name}
    (hq : w.queue.queuedOperations = ahead ++ op :: behind) (horder : order.Perm w.queue.inprogress)
    (hready : w.queue.isReady order ahead op = true) :
    ∀ x ∈ op.modified, w.queue.clean.1.references x = false := by
  by_cases hm : ∃ o ∈ order ++ ahead, o.isMetadata = true
  · obtain ⟨o, ho, hm⟩ := hm
    exact w.queue.clean_references_of_isReady hready ho hm
  · have hnone : ∀ o ∈ order ++ ahead, o.isMetadata = false := fun o ho ↦ by
      by_contra hne
      exact hm ⟨o, ho, by simpa using hne⟩
    have hin := h.inOrder
    rw [hq, append_iff, InOrder,
      activeAfter_of_isMetadata_eq_false fun o ho ↦ hnone o (mem_append_right _ ho),
      activeAfter_of_isMetadata_eq_false fun o ho ↦
        hnone o (mem_append_left _ (horder.mem_iff.mpr ho))] at hin
    exact hin.2.1

/-- What an index upload references when it is launched has been uploaded: nothing ahead of it
touches those layers. -/
theorem uploaded_of_beside (hq : w.queue.queuedOperations = ahead ++ .uploadMetadata i :: behind)
    (hbeside : ∀ o ∈ w.queue.inprogress ++ ahead, Beside (.uploadMetadata i) o) :
    ∀ x, i.references x = true → x ∈ w.uploaded := by
  intro x hx
  have hin := h.inOrder
  rw [hq, append_iff] at hin
  have hthere := hin.2.2.1 i rfl x hx
  rw [← performAll_append] at hthere
  refine (mem_performAll_of_notMem fun o ho hmem ↦ ?_).mp hthere
  cases ((hbeside o ho).left i rfl x hmem).symm.trans hx

theorem startTask {op op' : UploadOp Name}
    {deleted : List (Name × Generation)} (hq : w.queue.queuedOperations = ahead ++ op :: behind)
    (horder : order.Perm w.queue.inprogress) (hready : w.queue.isReady order ahead op = true)
    (hsame : SameOp op op') : Inv own { w with queue := { w.queue with
      queuedOperations := ahead ++ behind, recentlyDeleted := deleted }.addTask op' } := by
  have hbeside : ∀ o ∈ w.queue.inprogress ++ ahead, Beside op o := by
    intro o ho
    apply w.queue.beside_of_isReady hready
    rw [mem_append] at ho ⊢
    exact ho.imp_left horder.mem_iff.mpr
  have hbeside' : ∀ o ∈ ahead, Beside op o :=
    fun o ho ↦ hbeside o (mem_append_right _ ho)
  have hin := h.inOrder
  rw [hq, append_iff] at hin
  obtain ⟨hahead, -, -, hbehind⟩ := hin
  -- in the order of the queue, nothing changes behind what was overtaken
  have hactive :
      activeAfter (nextActive (activeAfter w.queue.clean.1 w.queue.inprogress) op) ahead =
      nextActive (activeAfter (activeAfter w.queue.clean.1 w.queue.inprogress) ahead) op :=
    activeAfter_overtake hbeside'
  have hperform : performAll (perform (performAll w.uploaded w.queue.inprogress) op) ahead =
      perform (performAll (performAll w.uploaded w.queue.inprogress) ahead) op :=
    foldl_perform (fun o ho ↦ (hbeside' o ho).independent) _
  set q := { w.queue with
    queuedOperations := ahead ++ behind, recentlyDeleted := deleted }.addTask op'
  have hinprogress : q.inprogress = w.queue.inprogress ++ [op'] := by
    simp [q, inprogress, addTask]
  have hcur : activeAfter q.clean.1 q.inprogress =
      nextActive (activeAfter w.queue.clean.1 w.queue.inprogress) op := by
    rw [hinprogress]
    simp [q, addTask, hsame.nextActive]
  have hS : performAll w.uploaded q.inprogress =
      perform (performAll w.uploaded w.queue.inprogress) op := by
    simp [hinprogress, hsame.perform]
  refine ⟨?_, ?_, h.stored, ?_, ?_, ?_, ?_, h.foreign, ?_, ?_, ?_⟩
  · rw [hinprogress]
    refine pairwise_snoc.mpr ⟨h.beside, fun o ho ↦ ?_⟩
    exact (hsame.beside (hbeside o (mem_append_left _ ho))).symm
  · rw [hinprogress]
    refine forall_mem_snoc.mpr ⟨h.idle, ?_⟩
    rw [hsame.modified]
    exact h.clean_references_of_isReady hq horder hready
  · rw [hinprogress]
    intro i hi
    rcases mem_snoc.mp hi with hi | hi
    · exact h.running i hi
    · rw [← hi] at hsame
      obtain rfl := hsame.uploadMetadata
      exact h.uploaded_of_beside hq hbeside
  · rw [hcur, hS]
    refine append_iff.mpr ⟨hahead.overtake hbeside', ?_⟩
    rwa [hactive, hperform]
  · rw [hcur]
    intro x hx
    refine h.last x ?_
    rw [hq, activeAfter_append, activeAfter_cons, ← hactive, ← activeAfter_append]
    exact hx
  · rw [hS]
    intro x hx
    have hthere := h.dirty x hx
    rw [hq, performAll_append, performAll_cons, ← hperform, ← performAll_append] at hthere
    exact hthere
  · exact pairwise_snoc.mpr ⟨h.ids, fun t ht ↦ Nat.lt_succ_of_le (h.counter t ht)⟩
  · exact forall_mem_snoc.mpr ⟨fun t ht ↦ (h.counter t ht).trans (Nat.le_succ _), le_rfl⟩
  · intro c hc
    obtain ⟨hle, hlt⟩ := h.cleanId c hc
    refine ⟨hle.trans (Nat.le_succ _), fun t ht hm ↦ ?_⟩
    rcases mem_snoc.mp ht with ht | rfl
    · exact hlt t ht hm
    · exact Nat.lt_succ_of_le hle

variable {q : UploadQueueInitialized Name}

theorem launch (hl : Launch sw w.queue q) : Inv own { w with queue := q } := by
  generalize hwq : w.queue = q₀ at hl
  obtain @⟨order, rest, op, horder, hready⟩ := hl
  subst hwq
  obtain ⟨ahead, skipped, behind, hq, rfl, hr, hs, hm⟩ := w.queue.nextReady_spec hready
  -- first take out the index uploads that are coalesced into the one launched
  have h' : Inv own { w with queue := { w.queue with
      queuedOperations := ahead ++ op :: behind } } := by
    by_cases hne : skipped = []
    · rw [hne, nil_append] at hq
      rw [← hq]
      exact h
    · have hmeta := hm hne
      cases op with
      | uploadMetadata i => exact h.skip hq hs
      | uploadLayer _ _ | delete _ | barrier | shutdown => simp [isMetadata] at hmeta
  cases op with
  | uploadLayer x m =>
    obtain ⟨m', deleted, heq⟩ := start_uploadLayer
      { w.queue with queuedOperations := ahead ++ behind } x m
    rw [heq]
    exact h'.startTask rfl horder hr (.upload x m m')
  | uploadMetadata i => exact h'.startTask rfl horder hr (.refl _)
  | delete layers => exact h'.startTask rfl horder hr (.refl _)
  | barrier => exact h'.drop rfl (fun _ ↦ rfl) fun _ ↦ rfl
  | shutdown => exact h'.drop rfl (fun _ ↦ rfl) fun _ ↦ rfl

theorem launchQueuedTasks (hl : LaunchQueuedTasks sw w.queue q) :
    Inv own { w with queue := q } := by
  obtain ⟨hl, -⟩ := hl
  induction hl with
  | refl => exact h
  | tail _ hstep ih => exact ih.launch hstep

/-! ### Completion -/

/-- What is left when the task `t` is taken out of those in progress: the others fit beside it, and
the layers that exist after all of them are the same when it has been performed first. -/
theorem beside_of_mem (heq : w.queue.inprogressTasks = l ++ t :: r) :
    (∀ o ∈ (l ++ r).map op, Beside t.op o) ∧
      performAll (perform w.uploaded t.op) ((l ++ r).map op) =
        performAll w.uploaded w.queue.inprogress := by
  have hin : w.queue.inprogress = l.map op ++ t.op :: r.map op := by
    simp [inprogress, heq]
  have hb := h.beside
  rw [hin, pairwise_append, pairwise_cons] at hb
  obtain ⟨-, ⟨hr, -⟩, hl⟩ := hb
  have hl' : ∀ o ∈ l.map op, Beside t.op o :=
    fun o ho ↦ (hl o ho t.op mem_cons_self).symm
  rw [map_append]
  refine ⟨fun o ho ↦ (mem_append.mp ho).elim (hl' o) (hr o), ?_⟩
  rw [hin]
  exact (foldl_append_cons _ (fun o ho ↦ (hl' o ho).independent) _).symm

theorem finishTask {clean : IndexPart Name × Option ℕ} (heq : w.queue.inprogressTasks = l ++ t :: r)
    (hidle : ∀ o ∈ (l ++ r).map op, ∀ x ∈ o.modified, clean.1.references x = false)
    (hstored : ∀ x, clean.1.references x = true → x ∈ perform w.uploaded t.op)
    (hactive : activeAfter clean.1 ((l ++ r).map op) =
      activeAfter w.queue.clean.1 w.queue.inprogress)
    (hid : ∀ c ∈ clean.2, c ≤ w.queue.taskCounter ∧
      ∀ t' ∈ l ++ r, t'.op.isMetadata = true → c < t'.taskId) : Inv own { w with
      queue := { w.queue with inprogressTasks := l ++ r, clean := clean }
      uploaded := perform w.uploaded t.op } := by
  obtain ⟨hbeside, hperform⟩ := h.beside_of_mem heq
  have hsub : (l ++ r).Sublist w.queue.inprogressTasks := by
    rw [heq]
    exact (List.Sublist.refl l).append (sublist_cons_self t r)
  refine ⟨h.beside.sublist (hsub.map op), hidle, hstored, ?_, ?_, ?_, ?_, h.foreign,
    h.ids.sublist hsub, fun t' ht' ↦ h.counter t' (hsub.mem ht'), hid⟩
  · intro i hi x hx
    have hxt : x ∉ t.op.modified := fun hmem ↦ by
      cases ((hbeside _ hi).right i rfl x hmem).symm.trans hx
    exact (mem_perform_of_notMem hxt).mpr
      (h.running i ((hsub.map op).mem hi) x hx)
  · have hin := h.inOrder
    rw [← hactive, ← hperform] at hin
    exact hin
  · intro x hx
    refine h.last x ?_
    rw [← hactive]
    exact hx
  · intro x hx
    have hd := h.dirty x hx
    rw [← hperform] at hd
    exact hd

/-- The end of a task. It does not matter that others were started before it. -/
theorem complete {task : UploadTask Name}
    (htask : task ∈ w.queue.inprogressTasks) (hc : w.queue.complete task = some q) :
    Inv own { w with queue := q, uploaded := perform w.uploaded task.op } := by
  obtain ⟨l, r, heq⟩ := append_of_mem htask
  have hfilter : w.queue.inprogressTasks.filter (fun t ↦ t.taskId ≠ task.taskId) = l ++ r := by
    rw [heq]
    exact filter_taskId (heq ▸ h.ids)
  obtain ⟨hbeside, -⟩ := h.beside_of_mem heq
  have hin : w.queue.inprogress = l.map op ++ task.op :: r.map op := by
    simp [inprogress, heq]
  have hmem : ∀ t ∈ l ++ r, t ∈ w.queue.inprogressTasks := by
    rw [heq]
    intro t ht
    rw [mem_append] at ht ⊢
    exact ht.imp_right (mem_cons_of_mem task)
  have hop : task.op ∈ w.queue.inprogress := mem_map_of_mem htask
  unfold UploadQueueInitialized.complete at hc
  rw [hfilter] at hc
  cases hm : task.op.isMetadata with
  | true =>
    obtain ⟨i, hi⟩ : ∃ i, task.op = .uploadMetadata i := by
      cases ho : task.op with
      | uploadMetadata i => exact ⟨i, rfl⟩
      | uploadLayer _ _ | delete _ | barrier | shutdown => simp [ho, isMetadata] at hm
    have hother : ∀ o ∈ (l ++ r).map op, o.isMetadata = false :=
      fun o ho ↦ (hbeside o ho).index hm
    rw [map_append] at hother
    simp only [hi, Option.ite_none_right_eq_some] at hc
    obtain ⟨-, hc⟩ := hc
    cases hc
    refine h.finishTask heq (fun o ho x hx ↦ (hbeside o ho).left i hi x hx) ?_ ?_ ?_
    · rw [perform_of_isMetadata hm]
      exact h.running i (hi ▸ hop)
    · rw [hin, hi, activeAfter_append, activeAfter_cons, map_append, activeAfter_append,
        activeAfter_of_isMetadata_eq_false fun o ho ↦ hother o (mem_append_left _ ho)]
      rfl
    · rintro c ⟨⟩
      refine ⟨h.counter task htask, fun t ht htm ↦ ?_⟩
      have := hother t.op (by rw [← map_append]; exact mem_map_of_mem ht)
      cases htm.symm.trans this
  | false =>
    have hq : q = { w.queue with inprogressTasks := l ++ r } := by
      cases ho : task.op with
      | uploadMetadata i => simp [ho, isMetadata] at hm
      | uploadLayer _ _ | delete _ | barrier | shutdown => simpa [ho, eq_comm] using hc
    subst hq
    refine h.finishTask heq
      (fun o ho ↦ h.idle o (mem_map.mpr ?_)) (fun x hx ↦ ?_) ?_ fun c hc' ↦ ?_
    · obtain ⟨t, ht, rfl⟩ := mem_map.mp ho
      exact ⟨t, hmem t ht, rfl⟩
    · refine (mem_perform_of_notMem fun hmem' ↦ ?_).mpr (h.stored x hx)
      cases (h.idle task.op hop x hmem').symm.trans hx
    · rw [hin, activeAfter_append, activeAfter_cons, nextActive_of_isMetadata_eq_false hm,
        map_append, activeAfter_append]
    · obtain ⟨hle, hlt⟩ := h.cleanId c hc'
      exact ⟨hle, fun t ht ↦ hlt t (hmem t ht)⟩

end

end Inv

/-! ## Runs -/

namespace UploadQueueInitialized

variable {q q' : UploadQueueInitialized Name} {sw : Switches}

theorem launchQueuedTasks_dirty (h : LaunchQueuedTasks sw q q') : q'.dirty = q.dirty := by
  obtain ⟨h, -⟩ := h
  induction h with
  | refl => rfl
  | @tail q₁ _ _ hstep ih =>
    obtain @⟨order, rest, op, -, -⟩ := hstep
    obtain ⟨_, _, _, heq⟩ := start_eq { q₁ with queuedOperations := rest } op
    rw [heq]
    exact ih

private theorem launchTurns_spec {turns : ℕ} (h : q.queuedOperations.length ≤ turns) :
    LaunchQueuedTasks sw q (launchTurns sw turns q) := by
  fun_induction launchTurns sw turns q with
  | case1 q =>
    have hnil : q.queuedOperations = [] := by simpa using h
    exact ⟨.refl, q.inprogress, .refl _, by simp [nextReady, hnil, nextReadyFrom]⟩
  | case2 turns q hnone => exact ⟨.refl, q.inprogress, .refl _, hnone⟩
  | case3 turns q op rest hsome ih =>
    obtain ⟨ahead, skipped, behind, hq, hrest, -⟩ := q.nextReady_spec hsome
    have hlen : rest.length ≤ turns := by
      rw [hq] at h
      simp only [hrest, length_append, length_cons] at h ⊢
      omega
    obtain ⟨_, _, _, heq⟩ := start_eq { q with queuedOperations := rest } op
    obtain ⟨hrun, hend⟩ := ih (by rw [heq]; exact hlen)
    exact ⟨.head (.start (.refl _) hsome) hrun, hend⟩

/-- The loop ends after at most as many turns as there are operations in the queue. -/
theorem launchQueuedTasks_spec {q : UploadQueueInitialized Name} {sw : Switches} :
    LaunchQueuedTasks sw q (q.launchQueuedTasks sw) :=
  launchTurns_spec le_rfl

end UploadQueueInitialized

/-- Only layers of the own attachment are uploaded, and only layers are deleted that were unlinked
and have not come back into the index. -/
def careful (own : LayerFileMetadata) : Discipline Name where
  upload dirty x := x.metadata = own ∧ dirty.references x = false
  delete dirty unlinked x := x ∈ unlinked ∧ dirty.references x = false

namespace Inv

variable {own : LayerFileMetadata} {w w' : World Name} {sw : Switches}

theorem scheduleUnlinking0 (h : Inv own w) {names : List Name} {q : UploadQueueInitialized Name}
    {unlinked : List (RemoteLayer Name)} (hu : ScheduleUnlinking0 sw w.queue names q unlinked) :
    Inv own { w with queue := q, unlinked := w.unlinked ∪ {x | x ∈ unlinked} } ∧
      ∀ x ∈ unlinked, q.dirty.references x = false := by
  obtain ⟨rfl, hu⟩ := hu
  obtain ⟨dirty, heq, -, hout, -⟩ := w.queue.unlink_spec names
  have hinv := h.unlink names
  split at hu
  next hpos =>
    rw [if_pos hpos] at hinv
    refine ⟨hinv.launchQueuedTasks hu, fun x hx ↦ ?_⟩
    rw [launchQueuedTasks_dirty hu]
    rw [heq]
    exact hout x hx
  next hpos =>
    rw [if_neg hpos] at hinv
    subst hu
    refine ⟨hinv, fun x hx ↦ ?_⟩
    rw [heq]
    exact hout x hx

theorem step (h : Inv own w) (hs : Step sw own.shard (careful own) w w') : Inv own w' := by
  cases hs with
  | scheduleLayerFileUpload x _ hx hl =>
    exact (h.scheduleLayerFileUpload0 hx.1 hx.2).launchQueuedTasks hl
  | scheduleCompactionUpdate _ _ _ hto hu hl =>
    have h₁ := h.scheduleLayerFileUploads (fun _ _ hx ↦ hx) hto
    exact (h₁.scheduleUnlinking0 hu).1.launchQueuedTasks hl
  | scheduleGcUpdate _ _ hu hl => exact (h.scheduleUnlinking0 hu).1.launchQueuedTasks hl
  | scheduleLayerFileDeletion _ _ hu hl =>
    obtain ⟨h₁, hout⟩ := h.scheduleUnlinking0 hu
    exact (h₁.scheduleDeletionOfUnlinked0 own.shard
      fun x hx ↦ ⟨.inr hx, hout x hx⟩).launchQueuedTasks hl
  | scheduleDeletionOfUnlinked _ _ hd hl =>
    exact (h.scheduleDeletionOfUnlinked0 own.shard hd).launchQueuedTasks hl
  | scheduleIndexUpload _ hl => exact h.scheduleIndexUpload0.launchQueuedTasks hl
  | scheduleBarrier _ hl => exact h.pushBarrier.launchQueuedTasks hl
  | shutdown _ hl => exact h.pushShutdown.launchQueuedTasks hl
  | complete htask hc hl => exact (h.complete htask hc).launchQueuedTasks hl

theorem reachable (h : Reachable sw own.shard (careful own) w) : Inv own w := by
  obtain ⟨w₀, h₀, hrun⟩ := h
  induction hrun with
  | refl => exact initial h₀
  | tail _ hs ih => exact ih.step hs

end Inv

/-- What makes the remote storage consistent at any time. -/
structure Safe (w : World Name) : Prop where
  /-- The layers of the index uploaded last, and of one that is being uploaded, are there. -/
  uploaded : ∀ i, i = w.queue.clean.1 ∨ .uploadMetadata i ∈ w.queue.inprogress →
    ∀ x, i.references x = true → x ∈ w.uploaded
  /-- No task writes or removes a layer of these indexes. -/
  untouched : ∀ o ∈ w.queue.inprogress, ∀ x ∈ o.modified,
    ∀ i, i = w.queue.clean.1 ∨ .uploadMetadata i ∈ w.queue.inprogress → i.references x = false
  oneIndex : (w.queue.inprogress.filter isMetadata).length ≤ 1

private theorem length_filter_isMetadata {ops : List (UploadOp Name)} (h : ops.Pairwise Beside) :
    (ops.filter isMetadata).length ≤ 1 := by
  have hp := h.filter isMetadata
  cases hops : ops.filter isMetadata with
  | nil => exact Nat.zero_le 1
  | cons a rest =>
    cases rest with
    | nil => exact le_rfl
    | cons b rest =>
      have hmem : ∀ o ∈ a :: b :: rest, o.isMetadata = true := fun o ho ↦
        (mem_filter.mp (hops ▸ ho)).2
      rw [hops, pairwise_cons] at hp
      have hb := (hp.1 b mem_cons_self).index (hmem a mem_cons_self)
      cases (hmem b (mem_cons_of_mem a mem_cons_self)).symm.trans hb

theorem Inv.safe {own : LayerFileMetadata} {w : World Name} (h : Inv own w) : Safe w where
  uploaded i hi := by
    rcases hi with rfl | hi
    · exact h.stored
    · exact h.running i hi
  untouched o ho x hx i hi := by
    rcases hi with rfl | hi
    · exact h.idle o ho x hx
    · by_cases heq : o = .uploadMetadata i
      · simp [heq, modified] at hx
      · exact (h.beside.forall ho hi heq).right i rfl x hx
  oneIndex := length_filter_isMetadata h.beside

/-- **Safety of the upload queue**, on every run in which callers are careful. -/
theorem safe_of_reachable (sw : Switches) (own : LayerFileMetadata) (w : World Name)
    (h : Reachable sw own.shard (careful own) w) : Safe w :=
  (Inv.reachable h).safe

/-! ## Callers that are less careful -/

/-- Layers are deleted that were unlinked at some time. -/
def deletesUnlinked (own : LayerFileMetadata) : Discipline Name where
  upload dirty x := x.metadata = own ∧ dirty.references x = false
  delete _ unlinked x := x ∈ unlinked

/-- Layers of any generation and shard are uploaded. -/
def uploadsAny : Discipline Name where
  upload dirty x := dirty.references x = false
  delete dirty unlinked x := x ∈ unlinked ∧ dirty.references x = false

theorem scheduleUnlinking0_of_pos {sw : Switches} {q : UploadQueueInitialized Name}
    {names : List Name} (h : 0 < (q.unlink names).1.latestFilesChanges) :
    ScheduleUnlinking0 sw q names ((q.unlink names).1.scheduleIndexUpload0.launchQueuedTasks sw)
      (q.unlink names).2 :=
  ⟨rfl, by rw [if_pos h]; exact UploadQueueInitialized.launchQueuedTasks_spec⟩

/-- A layer with the only name there is, of the given generation. -/
def sampleLayer (generation : ℕ) : RemoteLayer Unit := ⟨(), ⟨.valid generation, ⟨0, 0⟩⟩⟩

def sampleIndex : IndexPart Unit := ⟨fun _ ↦ some (sampleLayer 1).metadata⟩

private theorem sampleIndex_references (x : RemoteLayer Unit)
    (h : sampleIndex.references x = true) : x ∈ ({sampleLayer 1} : Set (RemoteLayer Unit)) := by
  rcases x with ⟨⟨⟩, m⟩
  rw [IndexPart.references_iff] at h
  cases h
  rfl

open UploadQueueInitialized in
/-- A layer is unlinked and uploaded again while the index without it is there: the upload is in
progress. -/
theorem safe_of_reachable_reupload :
    ∃ w : World Unit, Reachable ⟨false, false⟩ ⟨0, 0⟩ (careful (sampleLayer 1).metadata) w ∧
      (∃ m, .uploadLayer (sampleLayer 1) m ∈ w.queue.inprogress) ∧ Safe w := by
  refine ⟨?w, ?reach, ?task, safe_of_reachable ⟨false, false⟩ (sampleLayer 1).metadata _ ?reach⟩
  case reach =>
    refine ⟨_, .mk sampleIndex 0 {sampleLayer 1} sampleIndex_references, ?_⟩
    refine .head (.scheduleGcUpdate [()] rfl (scheduleUnlinking0_of_pos (by decide))
      launchQueuedTasks_spec) ?_
    refine .head (.complete (.head _) rfl launchQueuedTasks_spec) ?_
    refine .head (.scheduleLayerFileUpload (sampleLayer 1) rfl ⟨rfl, rfl⟩ launchQueuedTasks_spec) ?_
    exact .refl
  case task => exact ⟨_, .head _⟩

open UploadQueueInitialized in
/-- It is not enough that layers were unlinked before they are deleted, nor that layers are not
referenced by the dirty index when they are uploaded. In the first run a layer is unlinked, uploaded
again and then deleted, while the clean index references it. In the second one it is displaced from
the dirty index by a layer of the next generation and then uploaded again, while the clean index
still references it. -/
theorem not_safe_of_relinked_of_displaced : (∃ w : World Unit,
      Reachable ⟨false, false⟩ ⟨0, 0⟩ (deletesUnlinked (sampleLayer 1).metadata) w ∧
        .delete [sampleLayer 1] ∈ w.queue.inprogress ∧
        w.queue.clean.1.references (sampleLayer 1) = true ∧ ¬Safe w) ∧
    ∃ w : World Unit, Reachable ⟨false, false⟩ ⟨0, 0⟩ uploadsAny w ∧
      (∃ m, .uploadLayer (sampleLayer 1) m ∈ w.queue.inprogress) ∧
      w.queue.clean.1.references (sampleLayer 1) = true ∧ ¬Safe w := by
  constructor
  · refine ⟨?w, ⟨_, .mk sampleIndex 0 {sampleLayer 1} sampleIndex_references, ?run⟩, ?task, ?clean,
      fun h ↦ ?bad⟩
    case run =>
      refine .head (.scheduleGcUpdate [()] rfl (scheduleUnlinking0_of_pos (by decide))
        launchQueuedTasks_spec) ?_
      refine .head (.complete (.head _) rfl launchQueuedTasks_spec) ?_
      refine .head (.scheduleLayerFileUpload (sampleLayer 1) rfl ⟨rfl, rfl⟩
        launchQueuedTasks_spec) ?_
      refine .head (.complete (.head _) rfl launchQueuedTasks_spec) ?_
      refine .head (.scheduleIndexUpload rfl launchQueuedTasks_spec) ?_
      refine .head (.complete (.head _) rfl launchQueuedTasks_spec) ?_
      refine .head (.scheduleDeletionOfUnlinked [sampleLayer 1] rfl (fun x hx ↦ ?_)
        launchQueuedTasks_spec) ?_
      · rw [mem_singleton.mp hx]
        exact .inr (.head _)
      exact .refl
    case task => exact .head _
    case clean => rfl
    case bad =>
      have hfree := h.untouched _ (.head _) (sampleLayer 1) (.head _) _ (.inl rfl)
      exact absurd hfree (by decide)
  · refine ⟨?w', ⟨_, .mk sampleIndex 0 {sampleLayer 1} sampleIndex_references, ?run'⟩,
      ?task', ?clean', fun h ↦ ?bad'⟩
    case run' =>
      refine .head (.scheduleLayerFileUpload (sampleLayer 2) rfl rfl launchQueuedTasks_spec) ?_
      refine .head (.scheduleLayerFileUpload (sampleLayer 1) rfl rfl launchQueuedTasks_spec) ?_
      exact .refl
    case task' => exact ⟨_, .tail _ (.head _)⟩
    case clean' => rfl
    case bad' =>
      have hfree := h.untouched _ (.tail _ (.head _)) (sampleLayer 1) (.head _) _ (.inl rfl)
      exact absurd hfree (by decide)

/-! ## Draining -/

section

variable {sw : Switches} {shard : ShardIndex} {d : Discipline Name} {w w' : World Name}
  {q q' : UploadQueueInitialized Name}

inductive Completes (sw : Switches) (w : World Name) : World Name → Prop
  | mk {task : UploadTask Name} {q₁ q : UploadQueueInitialized Name}
      (htask : task ∈ w.queue.inprogressTasks) (hc : w.queue.complete task = some q₁)
      (hl : LaunchQueuedTasks sw q₁ q) :
    Completes sw w { w with queue := q, uploaded := perform w.uploaded task.op }

private def todo (q : UploadQueueInitialized Name) : ℕ :=
  q.inprogressTasks.length + q.queuedOperations.length

private theorem todo_start_le (op : UploadOp Name) : todo (q.start op) ≤ todo q + 1 := by
  cases op with
  | uploadLayer x m =>
    obtain ⟨m', deleted, heq⟩ := q.start_uploadLayer x m
    simp +arith [heq, todo, addTask]
  | uploadMetadata _ | delete _ | barrier | shutdown => simp +arith [start, todo, addTask]

private theorem todo_launch_le (h : LaunchQueuedTasks sw q q') : todo q' ≤ todo q := by
  obtain ⟨h, -⟩ := h
  induction h with
  | refl => rfl
  | @tail q₁ _ _ hstep ih =>
    obtain @⟨order, rest, op, -, hready⟩ := hstep
    obtain ⟨ahead, skipped, behind, hq, rfl, -⟩ := q₁.nextReady_spec hready
    have hle := todo_start_le (q := { q₁ with queuedOperations := ahead ++ behind }) op
    simp only [todo, hq, length_append, length_cons] at hle ih ⊢
    omega

private theorem todo_lt (h : Completes sw w w') : todo w'.queue < todo w.queue := by
  obtain @⟨task, q₁, q, htask, hc, hl⟩ := h
  have hlt : (w.queue.inprogressTasks.filter fun t ↦ t.taskId ≠ task.taskId).length <
      w.queue.inprogressTasks.length :=
    length_filter_lt_length_iff_exists.mpr ⟨task, htask, by simp⟩
  have hq₁ : todo q₁ < todo w.queue := by
    unfold complete at hc
    split at hc
    · obtain ⟨-, hc⟩ := Option.ite_none_right_eq_some.mp hc
      cases hc
      exact Nat.add_lt_add_right hlt _
    · cases hc
      exact Nat.add_lt_add_right hlt _
  exact (todo_launch_le hl).trans_lt hq₁

/-- After every call the loop has launched what is ready. -/
theorem exists_nextReady_eq_none (h : Reachable sw shard d w) :
    ∃ order, order.Perm w.queue.inprogress ∧ w.queue.nextReady sw order = none := by
  obtain ⟨w₀, h₀, hrun⟩ := h
  cases hrun with
  | refl =>
    obtain ⟨index, limit, uploaded, -⟩ := h₀
    exact ⟨_, .refl _, by simp [nextReady, initializeWithCurrentRemoteIndexPart, nextReadyFrom]⟩
  | tail _ hs => cases hs <;> rename_i hl <;> exact hl.2

theorem eq_shutdown_of_idle (h : Reachable sw shard d w) (hidle : w.queue.inprogressTasks = []) :
    ∀ op ∈ w.queue.queuedOperations.head?, op = .shutdown := by
  obtain ⟨order, hperm, hnone⟩ := exists_nextReady_eq_none h
  obtain rfl : order = [] := by simpa [inprogress, hidle] using hperm
  intro op hop
  obtain ⟨rest, hq⟩ := head?_eq_some_iff.mp hop
  simp only [nextReady, hidle, hq, nextReadyFrom] at hnone
  cases op <;> simp [isReady, scanActive] at hnone ⊢
  all_goals omega

/-- **Progress of the upload queue** with careful callers. From every state that can be reached,
tasks can only complete so many times, in whatever order. While there are tasks one of them can
complete: the assertion that an index upload is newer than the clean index does not fail. And when
there are none left, everything that was scheduled has been launched, up to a shutdown. -/
theorem drains_of_reachable (own : LayerFileMetadata) (h : Reachable sw own.shard (careful own) w) :
    Acc (flip (Completes sw)) w ∧
      ∀ w', Relation.ReflTransGen (Completes sw) w w' → (∀ w'', ¬Completes sw w' w'') →
        w'.queue.inprogressTasks = [] ∧
          ∀ op ∈ w'.queue.queuedOperations.head?, op = .shutdown := by
  refine ⟨Subrelation.accessible todo_lt ((measure fun w : World Name ↦ todo w.queue).wf.apply w),
    fun w' hrun hstuck ↦ ?_⟩
  have hreach : Reachable sw own.shard (careful own) w' := by
    obtain ⟨w₀, h₀, h⟩ := h
    exact ⟨w₀, h₀, h.trans (Relation.ReflTransGen.mono
      (fun _ _ ⟨htask, hc, hl⟩ ↦ .complete htask hc hl) w w' hrun)⟩
  have hidle : w'.queue.inprogressTasks = [] := by
    refine eq_nil_iff_forall_not_mem.mpr fun task htask ↦ ?_
    obtain ⟨q, hc⟩ : ∃ q, w'.queue.complete task = some q := by
      have hinv := Inv.reachable hreach
      unfold complete
      split
      next i hi =>
        have hlt c hc := (hinv.cleanId c hc).2 task htask (by simp [hi, isMetadata])
        exact ⟨_, if_pos (by simpa [Option.all_eq_true] using hlt)⟩
      next => exact ⟨_, rfl⟩
    exact hstuck _ ⟨htask, hc, launchQueuedTasks_spec⟩
  exact ⟨hidle, eq_shutdown_of_idle hreach hidle⟩

end

/-- A layer is unlinked, and while the index without it is being uploaded, the queue is shut down.
The upload completes, and only the shutdown is left in the queue. -/
theorem drains_of_reachable_unlinked :
    ∃ w w' : World Unit, Reachable ⟨false, false⟩ ⟨0, 0⟩ (careful (sampleLayer 1).metadata) w ∧
      w.queue.inprogressTasks ≠ [] ∧ Acc (flip (Completes ⟨false, false⟩)) w ∧
      Relation.ReflTransGen (Completes ⟨false, false⟩) w w' ∧ w'.queue.inprogressTasks = [] ∧
      w'.queue.queuedOperations = [.shutdown] := by
  refine ⟨?w, ?w', ?reach, ?task, (drains_of_reachable (sampleLayer 1).metadata ?reach).1, ?run,
    ((drains_of_reachable (sampleLayer 1).metadata ?reach).2 _ ?run ?stuck).1, ?left⟩
  case reach =>
    refine ⟨_, .mk sampleIndex 0 {sampleLayer 1} sampleIndex_references, ?_⟩
    refine .head (.scheduleGcUpdate [()] rfl (scheduleUnlinking0_of_pos (by decide))
      launchQueuedTasks_spec) ?_
    refine .head (.shutdown rfl launchQueuedTasks_spec) ?_
    exact .refl
  case task => exact cons_ne_nil _ _
  case run =>
    refine .head ⟨.head _, rfl, launchQueuedTasks_spec⟩ ?_
    exact .refl
  case stuck => exact fun _ ⟨htask, _, _⟩ ↦ nomatch htask
  case left => rfl

end NeonStorage.Pageserver.UploadQueue
