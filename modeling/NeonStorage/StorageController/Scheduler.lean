import NeonStorage.StorageController.Reconciler
import Mathlib.Data.Prod.Lex

/-!
# The scheduler of the storage controller

The scheduler knows the pageservers and counts, for each of them, the shards that are to have a
location there, those that are to be attached there, and those for which it lies in the preferred
availability zone. The counters are not recomputed: each change of the intent of a shard updates
them.

A function that can hit an assertion, or take a counter below zero, has a result in `Option`, with
`none` for that. A scheduling error is an ordinary result, and what was changed before it stays
changed.
-/

namespace NeonStorage.StorageController.Scheduling

variable {Z : Type} [DecidableEq Z]

/-! ## Nodes and their scores -/

structure PageserverUtilization where
  diskUsageBytes : ℕ
  freeSpaceBytes : ℕ
  diskWantedBytes : ℕ
  diskUsablePct : ℕ
  shardCount : ℕ
  maxShardCount : ℕ
  utilizationScore : Option ℕ
  deriving DecidableEq

namespace PageserverUtilization

def UTILIZATION_FULL : ℕ := 1000000

variable (u : PageserverUtilization)

def score : ℕ :=
  let diskUsableCapacity := (u.diskUsageBytes + u.freeSpaceBytes) * u.diskUsablePct / 100
  max (u.diskWantedBytes * UTILIZATION_FULL / diskUsableCapacity)
    (u.shardCount * UTILIZATION_FULL / u.maxShardCount)

def cachedScore : ℕ := u.utilizationScore.getD u.score

def isOverloaded (score : ℕ) : Bool := decide (2 * UTILIZATION_FULL ≤ score)

def adjustShardCountMax (shardCount : ℕ) : PageserverUtilization :=
  if u.shardCount < shardCount then { u with shardCount := shardCount, utilizationScore := none }
  else u

end PageserverUtilization

/-- `maySchedule` is none for `MaySchedule::No`. -/
structure SchedulerNode (Z : Type) where
  shardCount : ℕ
  attachedShardCount : ℕ
  homeShardCount : ℕ
  az : Z
  maySchedule : Option PageserverUtilization
  deriving DecidableEq

/-- The nodes of the scheduler; only the entries of `ids` count. -/
structure Scheduler (Z : Type) where
  ids : List ℕ
  node : ℕ → SchedulerNode Z

/-- For what kind of location a node is wanted. -/
inductive ShardTag where
  | attached
  | secondary
  deriving DecidableEq

inductive ScheduleError where
  | noPageservers
  | impossibleConstraint
  deriving DecidableEq

/-- The score of a node for a location: the match of the zone, the affinity, the utilization, the
count of shards that matters for the tag, and the id of the node. -/
abbrev NodeSchedulingScore : Type := ℕ ×ₗ ℕ ×ₗ ℕ ×ₗ ℕ ×ₗ ℕ

namespace NodeSchedulingScore

def utilization (s : NodeSchedulingScore) : ℕ := (ofLex (ofLex (ofLex s).2).2).1

def nodeId (s : NodeSchedulingScore) : ℕ := (ofLex (ofLex (ofLex (ofLex s).2).2).2).2

end NodeSchedulingScore

variable (tag : ShardTag)

/-- `AttachmentAzMatch` and `SecondaryAzMatch`: an attached location is wanted in the preferred
zone, a secondary one outside of it. -/
def azMatch (az : Z) : Option Z → ℕ
  | none => 1
  | some preferred =>
    match tag with
    | .attached => if preferred = az then 0 else 2
    | .secondary => if preferred = az then 2 else 0

/-- `ScheduleContext`: how much each node is to be avoided. -/
abbrev ScheduleContext : Type := ℕ → ℕ

/-- The count in the score; the number of shards away from home is a difference of two counters. -/
def SchedulerNode.scoredCount (node : SchedulerNode Z) : ShardTag → Option ℕ
  | .attached => some node.attachedShardCount
  | .secondary =>
    if node.homeShardCount ≤ node.shardCount then some (node.shardCount - node.homeShardCount)
    else none

def minOf {α : Type} (key : α → NodeSchedulingScore) : List α → Option α
  | [] => none
  | a :: as => some (as.foldl (fun best b ↦ if key b < key best then b else best) a)

namespace Scheduler

variable (S : Scheduler Z)

/-- `NodeSchedulingScore::generate`, for a node that may be scheduled. -/
def generate (tag : ShardTag) (preferredAz : Option Z) (context : ScheduleContext) (n : ℕ)
    (u : PageserverUtilization) : Option NodeSchedulingScore :=
  ((S.node n).scoredCount tag).map fun count ↦
    toLex (azMatch tag (S.node n).az preferredAz, toLex (context n,
      toLex (u.cachedScore, toLex (count, n))))

def computeNodeScores (tag : ShardTag) (hardExclude : List ℕ) (preferredAz : Option Z)
    (context : ScheduleContext) : Option (List NodeSchedulingScore) :=
  ((S.ids.filter fun n ↦ !hardExclude.contains n).filterMap fun n ↦
    (S.node n).maySchedule.map fun u ↦ (n, u)).mapM fun c ↦
      S.generate tag preferredAz context c.1 c.2

def scheduleShard (tag : ShardTag) (hardExclude : List ℕ) (preferredAz : Option Z)
    (context : ScheduleContext) : Option (Except ScheduleError ℕ) :=
  if S.ids = [] then some (.error .noPageservers)
  else
    (S.computeNodeScores tag hardExclude preferredAz context).map fun scores ↦
      let nonOverloaded := scores.filter fun s ↦
        !PageserverUtilization.isOverloaded s.utilization
      match minOf id (if nonOverloaded = [] then scores else nonOverloaded) with
      | none => .error .impossibleConstraint
      | some score => .ok score.nodeId

/-- `filter_usable_nodes`; the nodes have to be known. -/
def filterUsableNodes (nodes : List ℕ) : Option (List (ℕ × Z)) :=
  if nodes.all (S.ids.contains ·) then
    some (nodes.filterMap fun n ↦ (S.node n).maySchedule.map fun _ ↦ (n, (S.node n).az))
  else none

def getNodeAz (n : ℕ) : Option Z := if n ∈ S.ids then some (S.node n).az else none

def nodeUpsert (n : ℕ) (az : Z) (maySchedule : Option PageserverUtilization) : Scheduler Z :=
  if n ∈ S.ids then
    { S with
      node := Function.update S.node n
        { S.node n with
          maySchedule := maySchedule.map (·.adjustShardCountMax (S.node n).shardCount) } }
  else
    { ids := n :: S.ids
      node := Function.update S.node n ⟨0, 0, 0, az, maySchedule⟩ }

def nodeRemove (n : ℕ) : Scheduler Z := { S with ids := S.ids.filter fun m ↦ decide (m ≠ n) }

end Scheduler

/-! ## Reference counts -/

inductive RefCountUpdate (Z : Type) where
  | promoteSecondary
  | attach
  | detach
  | demoteAttached
  | addSecondary
  | removeSecondary
  | changePreferredAzFrom (old : Option Z)

/-- `a - 1`, if the counter does not get below zero. -/
def decrement (a : ℕ) : Option ℕ := if a = 0 then none else some (a - 1)

namespace SchedulerNode

variable (node : SchedulerNode Z)

/-- Another reference: the utilization counts it before the pageserver tells. -/
def referenced : SchedulerNode Z :=
  { node with maySchedule := node.maySchedule.map (·.adjustShardCountMax node.shardCount) }

def isHome (preferredAz : Option Z) : Bool := decide (some node.az = preferredAz)

def incrementHome (preferredAz : Option Z) : ℕ :=
  if node.isHome preferredAz then node.homeShardCount + 1 else node.homeShardCount

def decrementHome (preferredAz : Option Z) : Option ℕ :=
  if node.isHome preferredAz then decrement node.homeShardCount else some node.homeShardCount

def updateRefCounts (preferredAz : Option Z) : RefCountUpdate Z → Option (SchedulerNode Z)
  | .promoteSecondary => some { node with attachedShardCount := node.attachedShardCount + 1 }
  | .attach =>
    some (referenced
      { node with
        shardCount := node.shardCount + 1
        attachedShardCount := node.attachedShardCount + 1
        homeShardCount := node.incrementHome preferredAz })
  | .detach =>
    (decrement node.shardCount).bind fun shard ↦
      (decrement node.attachedShardCount).bind fun attached ↦
        (node.decrementHome preferredAz).map fun home ↦
          { node with
            shardCount := shard
            attachedShardCount := attached
            homeShardCount := home }
  | .demoteAttached =>
    (decrement node.attachedShardCount).map fun attached ↦
      { node with attachedShardCount := attached }
  | .addSecondary =>
    some (referenced
      { node with
        shardCount := node.shardCount + 1
        homeShardCount := node.incrementHome preferredAz })
  | .removeSecondary =>
    (decrement node.shardCount).bind fun shard ↦
      (node.decrementHome preferredAz).map fun home ↦
        { node with shardCount := shard, homeShardCount := home }
  | .changePreferredAzFrom old =>
    (node.decrementHome old).map fun home ↦
      { node with homeShardCount := incrementHome { node with homeShardCount := home } preferredAz }

end SchedulerNode

/-- `update_node_ref_counts`; the node has to be known. -/
def Scheduler.updateNodeRefCounts (S : Scheduler Z) (n : ℕ) (preferredAz : Option Z)
    (update : RefCountUpdate Z) : Option (Scheduler Z) :=
  if n ∈ S.ids then
    ((S.node n).updateRefCounts preferredAz update).map fun node ↦
      { S with node := Function.update S.node n node }
  else none

/-! ## Intents -/

structure IntentState (Z : Type) where
  attached : Option ℕ
  secondary : List ℕ
  preferredAz : Option Z
  deriving DecidableEq

namespace IntentState

variable (I : IntentState Z) (S : Scheduler Z)

def allPageservers : List ℕ := I.attached.toList ++ I.secondary

def setAttached (new : Option ℕ) : Option (Scheduler Z × IntentState Z) :=
  let updated : Option (Scheduler Z) :=
    if I.attached = new then some S
    else
      (I.attached.elim (some S) fun old ↦ S.updateNodeRefCounts old I.preferredAz .detach).bind
        fun S ↦ new.elim (some S) fun new ↦ S.updateNodeRefCounts new I.preferredAz .attach
  updated.bind fun S ↦
    if new.any (I.secondary.contains ·) then none else some (S, { I with attached := new })

/-- `promote_attached`: a node that was attached is counted as demoted, but not kept. -/
def promoteAttached (n : ℕ) : Option (Scheduler Z × IntentState Z) :=
  if n ∈ I.secondary then
    (S.updateNodeRefCounts n I.preferredAz .promoteSecondary).bind fun S ↦
      (I.attached.elim (some S) fun demoted ↦
        S.updateNodeRefCounts demoted I.preferredAz .demoteAttached).map fun S ↦
          (S, { I with
            attached := some n
            secondary := I.secondary.filter fun m ↦ decide (m ≠ n) })
  else none

def pushSecondary (n : ℕ) : Option (Scheduler Z × IntentState Z) :=
  if n ∈ I.secondary ∨ I.attached = some n then none
  else
    (S.updateNodeRefCounts n I.preferredAz .addSecondary).map fun S ↦
      (S, { I with secondary := I.secondary ++ [n] })

/-- `remove_secondary`; nothing happens if the node is no secondary. -/
def removeSecondary (n : ℕ) : Option (Scheduler Z × IntentState Z) :=
  if n ∈ I.secondary then
    (S.updateNodeRefCounts n I.preferredAz .removeSecondary).map fun S ↦
      (S, { I with secondary := I.secondary.erase n })
  else some (S, I)

/-- The loop of `clear_secondary`, over the secondaries from the first one on. -/
def clearSecondaries (preferredAz : Option Z) (secondary : List ℕ) : Option (Scheduler Z) :=
  secondary.foldlM (fun S n ↦ S.updateNodeRefCounts n preferredAz .removeSecondary) S

def clear : Option (Scheduler Z × IntentState Z) :=
  (I.attached.elim (some S) fun old ↦ S.updateNodeRefCounts old I.preferredAz .detach).bind fun S ↦
    (clearSecondaries S I.preferredAz I.secondary).map fun S ↦
      (S, { I with attached := none, secondary := [] })

def demoteAttached (n : ℕ) : Option (Scheduler Z × IntentState Z) :=
  if I.attached = some n then
    (S.updateNodeRefCounts n I.preferredAz .demoteAttached).map fun S ↦
      (S, { I with attached := none, secondary := I.secondary ++ [n] })
  else some (S, I)

def setPreferredAz (az : Option Z) : Option (Scheduler Z × IntentState Z) :=
  if I.preferredAz = az then some (S, I)
  else
    (I.allPageservers.foldlM
      (fun (S : Scheduler Z) n ↦
        S.updateNodeRefCounts n az (.changePreferredAzFrom I.preferredAz)) S).map fun S ↦
        (S, { I with preferredAz := az })

end IntentState

/-! ## Shards -/

inductive ShardSchedulingPolicy where
  | active
  | essential
  | pause
  | stop
  deriving DecidableEq

/-- What `intent_from_observed` reads of an observed location. -/
structure ObservedConf where
  attached : Bool
  generation : Option ℕ
  deriving DecidableEq

/-- The observed locations, in the order of the map's iteration. -/
structure ObservedState where
  locations : List (ℕ × Option ObservedConf)
  nodup : (locations.map Prod.fst).Nodup

structure TenantShard (Z : Type) where
  policy : PlacementPolicy
  intent : IntentState Z
  observed : ObservedState
  sequence : ℕ
  schedulingPolicy : ShardSchedulingPolicy

inductive ScheduleOptimizationAction where
  | migrateAttachment (oldAttached newAttached : ℕ)
  | replaceSecondary (oldNode newNode : ℕ)
  | createSecondary (newNode : ℕ)
  | removeSecondary (oldSecondary : ℕ)
  deriving DecidableEq

structure ScheduleOptimization where
  sequence : ℕ
  action : ScheduleOptimizationAction
  deriving DecidableEq

namespace TenantShard

variable (s : TenantShard Z) (S : Scheduler Z)

def new (policy : PlacementPolicy) (preferredAz : Option Z) : TenantShard Z where
  policy := policy
  intent := ⟨none, [], preferredAz⟩
  observed := ⟨[], List.nodup_nil⟩
  sequence := 1
  schedulingPolicy := .active

def withIntent (r : Scheduler Z × IntentState Z) : Scheduler Z × TenantShard Z :=
  (r.1, { s with intent := r.2 })

def bumpSequence : TenantShard Z := { s with sequence := s.sequence + 1 }

/-- `preferred_secondary`: usable secondaries outside the preferred zone come first. -/
def preferredSecondary : Option (Option ℕ) :=
  (S.filterUsableNodes s.intent.secondary).map fun candidates ↦
    (minOf (fun c : ℕ × Z ↦
      toLex (if some c.2 = s.intent.preferredAz then 1 else 0,
        toLex (c.1, toLex (0, toLex (0, 0))))) candidates).map Prod.fst

/-- The observed attached location with the greatest generation, the last one of several. -/
def observedAttached : Option ℕ :=
  let attachedLocs := s.observed.locations.filterMap fun l ↦
    match l.2 with
    | some conf => if conf.attached then some (l.1, conf.generation.elim 0 (· + 1)) else none
    | none => none
  match attachedLocs with
  | [] => none
  | l :: ls => some (ls.foldl (fun best l ↦ if best.2 ≤ l.2 then l else best) l).1

variable (I : IntentState Z)

/-- The secondaries that `intent_from_observed` adds. -/
def pushObserved (nodes : List ℕ) : Option (Scheduler Z × IntentState Z) :=
  nodes.foldlM (fun (r : Scheduler Z × IntentState Z) n ↦
    if r.2.attached = some n then some r else r.2.pushSecondary r.1 n) (S, I)

def intentFromObserved : Option (Scheduler Z × TenantShard Z) :=
  (s.observedAttached.elim (some (S, s.intent)) fun n ↦ s.intent.setAttached S (some n)).bind
    fun r ↦ (pushObserved r.1 r.2 (s.observed.locations.map Prod.fst)).map s.withIntent

/-- What a step of scheduling comes to: the new state, whether it was modified, and the error that
ended it. -/
structure Scheduled (Z : Type) where
  scheduler : Scheduler Z
  intent : IntentState Z
  modified : Bool
  error : Option ScheduleError

variable (context : ScheduleContext)

def scheduleAttached : Option (Scheduled Z) :=
  match s.intent.attached with
  | some _ => some ⟨S, s.intent, false, none⟩
  | none =>
    (s.preferredSecondary S).bind fun preferred ↦
      match preferred with
      | some n => (s.intent.promoteAttached S n).map fun r ↦ ⟨r.1, r.2, true, none⟩
      | none =>
        (S.scheduleShard .attached s.intent.secondary s.intent.preferredAz context).bind
          fun chosen ↦
            match chosen with
            | .error e => some ⟨S, s.intent, false, some e⟩
            | .ok n => (s.intent.setAttached S (some n)).map fun r ↦ ⟨r.1, r.2, true, none⟩

/-- The loop that adds the missing secondaries; `used` are the nodes that it does not pick. -/
def scheduleSecondaries (context : ScheduleContext) :
    ℕ → List ℕ → Scheduler Z → IntentState Z → Option (Scheduled Z)
  | 0, _, S, I => some ⟨S, I, false, none⟩
  | missing + 1, used, S, I =>
    (S.scheduleShard .secondary used I.preferredAz context).bind fun chosen ↦
      match chosen with
      | .error e => some ⟨S, I, false, some e⟩
      | .ok n =>
        (I.pushSecondary S n).bind fun r ↦
          (scheduleSecondaries context missing (used ++ [n]) r.1 r.2).map fun d ↦
            { d with modified := true }

/-- The branch of `do_schedule` for `PlacementPolicy::Attached`. -/
def scheduleWithSecondaries (secondaryCount : ℕ) : Option (Scheduled Z) :=
  (s.scheduleAttached S context).bind fun d ↦
    if d.error.isSome then some d
    else
      (scheduleSecondaries context (secondaryCount - d.intent.secondary.length)
        d.intent.attached.toList d.scheduler d.intent).map fun d' ↦
          { d' with modified := d.modified || d'.modified }

/-- The secondary that goes first when there are several: the last one outside the preferred zone,
or the last one. -/
def secondaryToRemove : Option ℕ :=
  let outside := fun n ↦ decide (S.getNodeAz n ≠ I.preferredAz)
  (I.secondary.filter (fun n ↦ !outside n) ++ I.secondary.filter outside).getLast?

/-- The loop that leaves one secondary; each turn removes one. -/
def trimSecondaries : ℕ → Scheduler Z → IntentState Z → Option (Scheduled Z)
  | 0, S, I => some ⟨S, I, false, none⟩
  | extra + 1, S, I =>
    match secondaryToRemove S I with
    | none => some ⟨S, I, false, none⟩
    | some n =>
      (I.removeSecondary S n).bind fun r ↦
        (trimSecondaries extra r.1 r.2).map fun d ↦ { d with modified := true }

/-- The shard gets its secondary from the attached location, or a fresh one if it has none at
all. -/
def populateSecondary : Option (Scheduled Z) :=
  match s.intent.attached with
  | some n => (s.intent.demoteAttached S n).map fun r ↦ ⟨r.1, r.2, true, none⟩
  | none =>
    if s.intent.secondary = [] then
      (S.scheduleShard .attached [] s.intent.preferredAz context).bind fun chosen ↦
        match chosen with
        | .error e => some ⟨S, s.intent, false, some e⟩
        | .ok n => (s.intent.pushSecondary S n).map fun r ↦ ⟨r.1, r.2, true, none⟩
    else some ⟨S, s.intent, false, none⟩

/-- The branch of `do_schedule` for `PlacementPolicy::Secondary`. -/
def scheduleSecondaryOnly : Option (Scheduled Z) :=
  (s.populateSecondary S context).bind fun d ↦
    if d.error.isSome then some d
    else
      (trimSecondaries (d.intent.secondary.length - 1) d.scheduler d.intent).map fun d' ↦
        { d' with modified := d.modified || d'.modified }

/-- The branch of `do_schedule` for `PlacementPolicy::Detached`. -/
def scheduleDetached : Option (Scheduled Z) :=
  if s.intent.attached.isSome ∨ s.intent.secondary ≠ [] then
    (s.intent.clear S).map fun r ↦ ⟨r.1, r.2, true, none⟩
  else some ⟨S, s.intent, false, none⟩

/-- The sequence number goes up if the schedule is complete and changed something. -/
def finishSchedule (d : Scheduled Z) : Scheduler Z × TenantShard Z × Option ScheduleError :=
  let s' := { s with intent := d.intent }
  (d.scheduler, if d.error = none ∧ d.modified then s'.bumpSequence else s', d.error)

/-- The part of `do_schedule` that adds and removes locations to fulfil the policy. -/
def fulfilPolicy : Option (Scheduled Z) :=
  match s.policy with
  | .attached secondaryCount => s.scheduleWithSecondaries S context secondaryCount
  | .secondary => s.scheduleSecondaryOnly S context
  | .detached => s.scheduleDetached S

def schedule : Option (Scheduler Z × TenantShard Z × Option ScheduleError) :=
  if s.schedulingPolicy = .pause ∨ s.schedulingPolicy = .stop then some (S, s, none)
  else (s.fulfilPolicy S context).map s.finishSchedule

/-- `reschedule_to_secondary`; without a usable secondary it is an error that changes nothing. -/
def rescheduleToSecondary (promoteTo : Option ℕ) : Option (Scheduler Z × TenantShard Z) :=
  (promoteTo.elim (s.preferredSecondary S) fun n ↦ some (some n)).bind fun target ↦
    match target with
    | none => some (S, s)
    | some n =>
      if n ∈ s.intent.secondary then
        (s.intent.attached.elim (some (S, s.intent)) (s.intent.demoteAttached S)).bind fun r ↦
          (r.2.promoteAttached r.1 n).map fun r ↦ (r.1, { s with intent := r.2 }.bumpSequence)
      else none

/-- `deref_node`: the scheduler is not told. -/
def derefNode (n : ℕ) : TenantShard Z :=
  { s with
    intent :=
      { s.intent with
        attached := if s.intent.attached = some n then none else s.intent.attached
        secondary := s.intent.secondary.filter fun m ↦ decide (m ≠ n) } }

def validateOptimization : ScheduleOptimizationAction → Bool
  | .migrateAttachment oldAttached newAttached =>
    decide (s.intent.attached = some oldAttached) && s.intent.secondary.contains newAttached
  | .replaceSecondary _ newNode =>
    !s.intent.secondary.contains newNode && decide (s.intent.attached ≠ some newNode)
  | .createSecondary newNode => !s.intent.secondary.contains newNode
  | .removeSecondary _ => true

/-- The changes of the intent in `apply_optimization`. -/
def applyAction :
    ScheduleOptimizationAction → Option (Scheduler Z × IntentState Z)
  | .migrateAttachment oldAttached newAttached =>
    (I.demoteAttached S oldAttached).bind fun r ↦ r.2.promoteAttached r.1 newAttached
  | .replaceSecondary oldNode newNode =>
    (I.removeSecondary S oldNode).bind fun r ↦ r.2.pushSecondary r.1 newNode
  | .createSecondary newNode => I.pushSecondary S newNode
  | .removeSecondary oldSecondary => I.removeSecondary S oldSecondary

def applyOptimization (opt : ScheduleOptimization) : Option (Scheduler Z × TenantShard Z) :=
  if opt.sequence ≠ s.sequence ∨ ¬s.validateOptimization opt.action then some (S, s)
  else (applyAction S s.intent opt.action).map s.withIntent

end TenantShard

/-! ## The operations -/

structure State (Z : Type) where
  scheduler : Scheduler Z
  tenants : List (ℕ × TenantShard Z)

inductive Op (Z : Type) where
  | nodeUpsert (node : ℕ) (az : Z) (maySchedule : Option PageserverUtilization)
  | nodeRemove (node : ℕ)
  | create (shard : ℕ) (policy : PlacementPolicy) (preferredAz : Option Z)
  | remove (shard : ℕ)
  | setPolicy (shard : ℕ) (policy : PlacementPolicy)
  | setSchedulingPolicy (shard : ℕ) (policy : ShardSchedulingPolicy)
  | setPreferredAz (shard : ℕ) (az : Option Z)
  | observe (shard : ℕ) (observed : ObservedState)
  | schedule (shard : ℕ) (context : ScheduleContext)
  | rescheduleToSecondary (shard : ℕ) (promoteTo : Option ℕ)
  | intentFromObserved (shard : ℕ)
  | derefNode (shard node : ℕ)
  | applyOptimization (shard : ℕ) (opt : ScheduleOptimization)

/-- What the operations on a shard do to it and to the scheduler. -/
def Op.onShard (S : Scheduler Z) (s : TenantShard Z) : Op Z → Option (Scheduler Z × TenantShard Z)
  | .setPolicy _ policy => some (S, { s with policy := policy })
  | .setSchedulingPolicy _ policy => some (S, { s with schedulingPolicy := policy })
  | .setPreferredAz _ az => (s.intent.setPreferredAz S az).map s.withIntent
  | .observe _ observed => some (S, { s with observed := observed })
  | .schedule _ context => (s.schedule S context).map fun r ↦ (r.1, r.2.1)
  | .rescheduleToSecondary _ promoteTo => s.rescheduleToSecondary S promoteTo
  | .intentFromObserved _ => s.intentFromObserved S
  | .derefNode _ node => some (S, s.derefNode node)
  | .applyOptimization _ opt => s.applyOptimization S opt
  | _ => some (S, s)

def Op.shard? : Op Z → Option ℕ
  | .nodeUpsert .. | .nodeRemove .. | .create .. | .remove .. => none
  | .setPolicy shard _ | .setSchedulingPolicy shard _ | .setPreferredAz shard _ | .observe shard _
  | .schedule shard _ | .rescheduleToSecondary shard _ | .intentFromObserved shard
  | .derefNode shard _ | .applyOptimization shard _ => some shard

def modifyShard (id : ℕ) (f : TenantShard Z → Option (Scheduler Z × TenantShard Z))
    (S : Scheduler Z) : List (ℕ × TenantShard Z) → Option (State Z)
  | [] => some ⟨S, []⟩
  | (k, s) :: rest =>
    if k = id then (f s).map fun r ↦ ⟨r.1, (k, r.2) :: rest⟩
    else (modifyShard id f S rest).map fun st ↦ ⟨st.scheduler, (k, s) :: st.tenants⟩

/-- Remove the shard with the given id, with its intent cleared. -/
def removeShard (id : ℕ) (S : Scheduler Z) : List (ℕ × TenantShard Z) → Option (State Z)
  | [] => some ⟨S, []⟩
  | (k, s) :: rest =>
    if k = id then (s.intent.clear S).map fun r ↦ ⟨r.1, rest⟩
    else (removeShard id S rest).map fun st ↦ ⟨st.scheduler, (k, s) :: st.tenants⟩

namespace State

/-- What an operation does; none if an assertion fails or a counter gets below zero. -/
def exec (st : State Z) (op : Op Z) : Option (State Z) :=
  match op with
  | .nodeUpsert node az maySchedule =>
    some { st with scheduler := st.scheduler.nodeUpsert node az maySchedule }
  | .nodeRemove node => some { st with scheduler := st.scheduler.nodeRemove node }
  | .create shard policy preferredAz =>
    if shard ∈ st.tenants.map Prod.fst then some st
    else some { st with tenants := (shard, TenantShard.new policy preferredAz) :: st.tenants }
  | .remove shard => removeShard shard st.scheduler st.tenants
  | op => op.shard?.elim (some st) fun shard ↦
      modifyShard shard (fun s ↦ op.onShard st.scheduler s) st.scheduler st.tenants

def run (st : State Z) (ops : List (Op Z)) : Option (State Z) := ops.foldlM exec st

def empty (node : ℕ → SchedulerNode Z) : State Z := ⟨⟨[], node⟩, []⟩

end State

end NeonStorage.StorageController.Scheduling
