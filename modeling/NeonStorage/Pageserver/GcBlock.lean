import NeonStorage.Lib.Runs
import Mathlib.Data.Finset.Basic

/-!
# Blocking the garbage collection of a tenant

A GC iteration first looks for reasons against it and then locks `blocking`. Whoever adds a reason
locks and unlocks `blocking` afterwards, to wait for an iteration that is going on; an iteration
that has looked already and not locked yet is not waited for.
-/

namespace NeonStorage.Pageserver.GcBlock

inductive GcBlockingReason
  | manual | detachAncestor
  deriving DecidableEq

inductive Task (TimelineId : Type)
  | idle
  /-- `start` has found no reasons and takes the lock. -/
  | starting
  /-- The guard of `start` is held. -/
  | collecting
  /-- `insert` waits for the upload. -/
  | uploading (timeline : TimelineId) (reason : GcBlockingReason)
  /-- `insert` waits for the lock. -/
  | synchronizing (timeline : TimelineId) (reason : GcBlockingReason)
  deriving DecidableEq

variable {ι TimelineId : Type}

structure State (ι TimelineId : Type) where
  /-- A timeline is in the map of the code as long as it has reasons. -/
  reasons : Finset (TimelineId × GcBlockingReason)
  blocking : Option ι
  tasks : ι → Task TimelineId

/-- What happens between two points where tasks can be interleaved. -/
inductive Action (ι TimelineId : Type)
  | start (i : ι)
  | lockOwned (i : ι)
  | finish (i : ι)
  | insert (i : ι) (timeline : TimelineId) (reason : GcBlockingReason) (scheduled : Bool)
  | uploaded (i : ι) (ok : Bool)
  | lock (i : ι)
  | remove (timeline : TimelineId) (reason : GcBlockingReason)
  | beforeDelete (timeline : TimelineId)

def init (scanned : Finset (TimelineId × GcBlockingReason)) : State ι TimelineId :=
  ⟨scanned, none, fun _ ↦ .idle⟩

variable [DecidableEq ι]

def State.goOn (s : State ι TimelineId) (i : ι) (task : Task TimelineId) : State ι TimelineId :=
  { s with tasks := fun j ↦ if j = i then task else s.tasks j }

variable {s s' : State ι TimelineId} {a : Action ι TimelineId} {i : ι} {timeline : TimelineId}
  {reason : GcBlockingReason}

/-- Whoever collects holds the lock. -/
def Guarded (s : State ι TimelineId) : Prop := ∀ j, s.tasks j = .collecting → s.blocking = some j

/-- The reason is there, and no task collects or is about to. -/
def Blocked (timeline : TimelineId) (reason : GcBlockingReason) (s : State ι TimelineId) : Prop :=
  (timeline, reason) ∈ s.reasons ∧ ∀ j, s.tasks j ≠ .starting ∧ s.tasks j ≠ .collecting

variable [DecidableEq TimelineId]

/-- `none` if the task is elsewhere, or has to wait for the lock. -/
def step (s : State ι TimelineId) : Action ι TimelineId → Option (State ι TimelineId)
  | .start i => if s.tasks i = .idle then
      some (if s.reasons = ∅ then s.goOn i .starting else s)
    else none
  | .lockOwned i => if s.tasks i = .starting ∧ s.blocking = none then
      some { s.goOn i .collecting with blocking := some i }
    else none
  | .finish i => if s.tasks i = .collecting then
      some { s.goOn i .idle with blocking := none }
    else none
  | .insert i timeline reason scheduled => if s.tasks i = .idle then
      some { s.goOn i (if scheduled then .uploading timeline reason else .idle) with
        reasons := insert (timeline, reason) s.reasons }
    else none
  | .uploaded i ok => match s.tasks i with
    | .uploading timeline reason =>
      some (s.goOn i (if ok then .synchronizing timeline reason else .idle))
    | _ => none
  | .lock i => match s.tasks i, s.blocking with
    | .synchronizing _ _, none => some (s.goOn i .idle)
    | _, _ => none
  | .remove timeline reason => some { s with reasons := s.reasons.erase (timeline, reason) }
  | .beforeDelete timeline => some { s with reasons := s.reasons.filter (·.1 ≠ timeline) }

theorem Guarded.step (h : Guarded s) (hstep : step s a = some s') : Guarded s' := by
  intro j hj
  cases a <;> simp only [GcBlock.step] at hstep <;> grind [State.goOn, Guarded]

theorem Blocked.step (h : Blocked timeline reason s)
    (ha : a ≠ .remove timeline reason ∧ a ≠ .beforeDelete timeline) (hstep : step s a = some s') :
    Blocked timeline reason s' := by
  obtain ⟨hreason, htasks⟩ := h
  refine ⟨?_, fun j ↦ ?_⟩
  · cases a <;> simp only [GcBlock.step] at hstep <;> grind [State.goOn]
  · have hj := htasks j
    cases a with
    | remove | beforeDelete =>
      cases hstep
      exact hj
    | _ =>
      simp only [GcBlock.step] at hstep
      grind [State.goOn]

/-- From here on, no task collects before the reason is removed or the timeline deleted. -/
def BlocksFrom (timeline : TimelineId) (reason : GcBlockingReason) (s : State ι TimelineId) :
    Prop :=
  ∀ (as : List (Action ι TimelineId)) (s' : State ι TimelineId),
    (∀ a ∈ as, a ≠ .remove timeline reason ∧ a ≠ .beforeDelete timeline) →
      as.foldlM step s = some s' → ∀ j, s'.tasks j ≠ .collecting

/-- **An `insert` that returns blocks the garbage collection** until its reason goes, exactly if no
iteration stands between its look at the reasons and its lock. -/
theorem insert_blocks_iff {scanned : Finset (TimelineId × GcBlockingReason)}
    {as : List (Action ι TimelineId)} (hrun : as.foldlM step (init scanned) = some s)
    (htask : s.tasks i = .synchronizing timeline reason) (hreturn : step s (.lock i) = some s')
    (hreason : (timeline, reason) ∈ s.reasons) :
    BlocksFrom timeline reason s' ↔ ∀ j, s.tasks j ≠ .starting := by
  have hinit : Guarded (init scanned : State ι TimelineId) := fun _ h ↦ by cases h
  have hguarded : Guarded s :=
    Runs.inv_foldlM (fun _ _ _ h _ ↦ h.step) hinit (fun _ _ ↦ trivial) hrun
  obtain ⟨hnone, rfl⟩ : s.blocking = none ∧ s.goOn i .idle = s' := by
    rw [step, htask] at hreturn
    split at hreturn
    · next _ h => exact ⟨h, Option.some.inj hreturn⟩
    · cases hreturn
  constructor
  · intro hblocked j hj
    have hne : j ≠ i := by
      rintro rfl
      cases htask.symm.trans hj
    have hstep : [Action.lockOwned j].foldlM step (s.goOn i .idle) = some
        { (s.goOn i .idle).goOn j .collecting with blocking := some j } := by
      rw [List.foldlM_cons, step, if_pos ⟨(if_neg hne).trans hj, hnone⟩]
      rfl
    exact hblocked _ _ (by simp) hstep j (if_pos rfl)
  · intro hstarting bs s'' hbs hrun' j
    have hs : Blocked timeline reason s :=
      ⟨hreason, fun j ↦ ⟨hstarting j, fun hj ↦ nomatch hnone.symm.trans (hguarded j hj)⟩⟩
    have hs' := hs.step (a := .lock i) ⟨nofun, nofun⟩ hreturn
    exact ((Runs.inv_foldlM (fun _ _ _ ↦ Blocked.step) hs' hbs hrun').2 j).2

def sampleInsert : List (Action Bool Unit) :=
  [.insert true () .detachAncestor true, .uploaded true true]

theorem insert_blocks_iff_sample : ∃ s s' : State Bool Unit,
    sampleInsert.foldlM step (init ∅) = some s ∧ step s (.lock true) = some s' ∧
      BlocksFrom () .detachAncestor s' := by
  have hrun : sampleInsert.foldlM step (init ∅) = some _ := rfl
  exact ⟨_, _, hrun, rfl, (insert_blocks_iff (i := true) hrun rfl rfl (by decide)).mpr (by decide)⟩

/-- The iteration looks before the reason is there, and locks after `insert` has. -/
theorem collecting_after_insert : ∃ s : State Bool Unit,
    List.foldlM step (init ∅) (.start false :: (sampleInsert ++ [.lock true, .lockOwned false])) =
      some s ∧ ((), .detachAncestor) ∈ s.reasons ∧ s.tasks false = .collecting :=
  ⟨_, rfl, by decide, rfl⟩

end NeonStorage.Pageserver.GcBlock
