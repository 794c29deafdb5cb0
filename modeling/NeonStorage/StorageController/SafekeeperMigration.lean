import NeonStorage.Lib.Quorum
import Mathlib.Data.List.Sort
import Mathlib.Data.Prod.Lex

/-!
# Safekeeper migrations of a timeline

The row of the timeline in the database with its pending operations, the calls that migrate the
timeline to another set of safekeepers or abort a migration, the background reconcilers, and the
safekeepers that answer their requests. All of it is about one timeline that is never deleted.

A call is described by the point it has reached and by what it keeps for the rest of its run. A
request that a call or a reconciler has sent may reach the safekeeper at any later time, also more
than once, and whether or not the sender still waits for the answer. A safekeeper handles one
request after another.

`World.history` records what the requests did; no operation of the model reads it, except that a
walproposer can only relay a configuration that some safekeeper has had.
-/

namespace NeonStorage.StorageController.Membership

open Option

/-- `(last_log_term, flush_lsn)`: the term is compared first. -/
abbrev Position : Type := ℕ ×ₗ ℕ

structure Configuration where
  generation : ℕ
  members : List ℕ
  newMembers : Option (List ℕ)
  deriving DecidableEq

def Configuration.contains (c : Configuration) (sk : ℕ) : Bool :=
  c.members.contains sk || c.newMembers.any (·.contains sk)

/-! ## Safekeepers -/

/-- The timeline on a safekeeper: its configuration, and what `TimelineStatus` tells of its log. -/
structure Timeline where
  mconf : Configuration
  term : ℕ
  lastLogTerm : ℕ
  flushLsn : ℕ
  commitLsn : ℕ
  deriving DecidableEq

namespace Timeline

def position (t : Timeline) : Position := toLex (t.lastLogTerm, t.flushLsn)

def membershipSwitch (t : Timeline) (mconf : Configuration) : Timeline :=
  if mconf.generation ≤ t.mconf.generation then t else { t with mconf := mconf }

/-- By what `pull_timeline::handle_request` chooses among the donors. -/
def donorKey (t : Timeline) : ℕ ×ₗ ℕ ×ₗ ℕ ×ₗ ℕ :=
  toLex (t.lastLogTerm, toLex (t.flushLsn, toLex (t.term, t.commitLsn)))

end Timeline

/-- The entry of the timeline in `GlobalTimelines`. A tombstone has the generation of the exclusion
that left it, none if the timeline was deleted. -/
structure Safekeeper where
  timeline : Option Timeline
  tombstone : Option (Option ℕ)
  deriving DecidableEq

/-- `has_timeline_tombstone`. -/
def Safekeeper.hasTombstone (sk : Safekeeper) : Option ℕ → Bool
  | some generation => sk.tombstone.any fun t ↦ t.all fun g ↦ decide (generation ≤ g)
  | none => sk.tombstone.isSome

structure SwitchResponse where
  generation : ℕ
  lastLogTerm : ℕ
  flushLsn : ℕ
  deriving DecidableEq

def SwitchResponse.position (r : SwitchResponse) : Position := toLex (r.lastLogTerm, r.flushLsn)

/-- What the controller asks of a safekeeper. `delete` stands for `DELETE` of the timeline, which is
sent for an exclusion at that generation. -/
inductive Request where
  | membership (mconf : Configuration)
  | pull (hosts : List ℕ) (mconf : Option Configuration)
  | exclude (mconf : Configuration)
  | delete (generation : ℕ)
  deriving DecidableEq

inductive Reply where
  | error
  | ok
  | switched (response : SwitchResponse)
  deriving DecidableEq

/-- The safekeepers, and the segments of the timeline in remote storage. -/
structure Fleet where
  sk : ℕ → Safekeeper
  remoteWal : List ℕ

namespace Fleet

variable (f : Fleet)

def set (i : ℕ) (sk : Safekeeper) : Fleet := { f with sk := Function.update f.sk i sk }

/-- `timeline_membership_handler`: an ignored request is answered with a conflict. -/
def membership (i : ℕ) (mconf : Configuration) : Fleet × Reply :=
  match (f.sk i).timeline with
  | none => (f, .error)
  | some t =>
    if mconf.contains i then
      let t' := t.membershipSwitch mconf
      (f.set i { f.sk i with timeline := some t' },
        if mconf.generation = t'.mconf.generation then
          .switched ⟨t'.mconf.generation, t'.lastLogTerm, t'.flushLsn⟩
        else .error)
    else (f, .error)

/-- The last one of the statuses with the greatest key. -/
def mostAdvanced : List Timeline → Option Timeline
  | [] => none
  | t :: ts => some (ts.foldl (fun best t ↦ if best.donorKey ≤ t.donorKey then t else best) t)

/-- `load_temp_timeline` and the switch that follows it, once the donor's files are there. -/
def loadTempTimeline (i : ℕ) (mconf : Option Configuration) (donor : Timeline) : Fleet × Reply :=
  if (f.sk i).hasTombstone (mconf.map Configuration.generation) then (f, .error)
  else (f.set i ⟨some (mconf.elim donor donor.membershipSwitch), none⟩, .ok)

/-- `pull_timeline::handle_request`; `answering` are the hosts that tell their status. -/
def pull (i : ℕ) (hosts answering : List ℕ) (mconf : Option Configuration) : Fleet × Reply :=
  if mconf.all (·.contains i) then
    match (f.sk i).timeline with
    | some t =>
      (f.set i { f.sk i with timeline := some (mconf.elim t t.membershipSwitch) }, .ok)
    | none =>
      let statuses := (hosts.filter (answering.contains ·)).filterMap fun h ↦ (f.sk h).timeline
      if mconf.any fun c ↦ statuses.any fun s ↦ decide (c.generation < s.mconf.generation) then
        (f, .error)
      else if statuses.length < max (hosts.length - 1) 1 then (f, .error)
      else
        match mostAdvanced statuses with
        | none => (f, .error)
        | some donor => f.loadTempTimeline i mconf donor
  else (f, .error)

/-- `delete_or_exclude`. The action is an exclusion if it has a configuration, and otherwise a
deletion, which also removes the remote WAL. -/
def deleteOrExclude (i : ℕ) (action : Option Configuration) : Fleet × Reply :=
  let generation := action.map Configuration.generation
  if (f.sk i).hasTombstone generation then (f, .ok)
  else
    match (f.sk i).timeline with
    | none => (f.set i ⟨none, some generation⟩, .ok)
    | some t =>
      if action.any fun mconf ↦ decide (mconf.generation < t.mconf.generation) then (f, .error)
      else
        ({ f.set i ⟨none, some generation⟩ with
            remoteWal := if action.isNone then [] else f.remoteWal }, .ok)

def handle (i : ℕ) (answering : List ℕ) : Request → Fleet × Reply
  | .membership mconf => f.membership i mconf
  | .pull hosts mconf => f.pull i hosts answering mconf
  | .exclude mconf => if mconf.contains i then (f, .error) else f.deleteOrExclude i (some mconf)
  | .delete _ => f.deleteOrExclude i none

end Fleet

/-! ## The database -/

/-- The columns of `timelines` that migrations use. -/
structure TimelinePersistence where
  generation : ℕ
  skSet : List ℕ
  newSkSet : Option (List ℕ)
  cplaneNotifiedGeneration : ℕ
  skSetNotifiedGeneration : ℕ
  deriving DecidableEq

def TimelinePersistence.isMigrationFinished (row : TimelinePersistence) : Bool :=
  row.cplaneNotifiedGeneration == row.generation && row.skSetNotifiedGeneration == row.generation

inductive OpKind where
  | pull
  | exclude
  deriving DecidableEq

/-- A row of `safekeeper_timeline_pending_ops`; the safekeeper is its key. -/
structure PendingOp where
  skId : ℕ
  generation : ℕ
  opKind : OpKind
  deriving DecidableEq

structure Db where
  timeline : TimelinePersistence
  pendingOps : List PendingOp
  deriving DecidableEq

namespace Db

variable (db : Db)

/-- Insert the operation, or put it in the place of one of a lower generation. -/
def upsertPendingOp (req : PendingOp) : Db :=
  if db.pendingOps.any (·.skId == req.skId) then
    { db with
      pendingOps := db.pendingOps.map fun op ↦
        if op.skId = req.skId ∧ op.generation < req.generation then req else op }
  else { db with pendingOps := req :: db.pendingOps }

/-- `update_timeline_membership`; none if the generation is not the one before. -/
def updateTimelineMembership (newGeneration : ℕ) (skSet : List ℕ) (newSkSet : Option (List ℕ))
    (requests : List PendingOp) : Option Db :=
  if db.timeline.generation + 1 = newGeneration then
    some (requests.foldl upsertPendingOp
      { db with
        timeline :=
          { db.timeline with generation := newGeneration, skSet := skSet, newSkSet := newSkSet } })
  else none

def updateCplaneNotifiedGeneration (generation : ℕ) : Option Db :=
  if db.timeline.cplaneNotifiedGeneration ≤ generation then
    some { db with timeline := { db.timeline with cplaneNotifiedGeneration := generation } }
  else none

def updateSkSetNotifiedGeneration (generation : ℕ) : Option Db :=
  if db.timeline.skSetNotifiedGeneration ≤ generation then
    some { db with timeline := { db.timeline with skSetNotifiedGeneration := generation } }
  else none

def removePendingOp (sk generation : ℕ) : Db :=
  { db with
    pendingOps := db.pendingOps.filter fun op ↦ !(op.skId == sk && op.generation == generation) }

end Db

/-! ## Calls -/

/-- The joint configuration of a migration. -/
structure Joint where
  generation : ℕ
  cur : List ℕ
  new : List ℕ
  deriving DecidableEq

namespace Joint

variable (j : Joint)

def conf : Configuration := ⟨j.generation, j.cur, some j.new⟩

def newConf : Configuration := ⟨j.generation + 1, j.new, none⟩

/-- The safekeepers the timeline is pulled to. -/
def pullTo : List ℕ := j.new.filter fun sk ↦ !j.cur.contains sk

def excluded : List ℕ := j.cur.filter fun sk ↦ !j.new.contains sk

end Joint

def excludeRequests (generation : ℕ) (sks : List ℕ) : List PendingOp :=
  sks.map fun sk ↦ ⟨sk, generation, .exclude⟩

/-- The arguments of `finish_safekeeper_migration`. A retried finish is followed by the migration
that found it undone, which goes on with the set it wants and the row it has read. -/
structure Finish where
  members : List ℕ
  conf : Configuration
  exclude : List ℕ
  next : Option (List ℕ × TimelinePersistence)
  deriving DecidableEq

/-- The answers that count as a success, by safekeeper. -/
abbrev Answers : Type := List (ℕ × SwitchResponse)

inductive Call where
  | idle
  /-- Behind the check for an unfinished migration, before step 3. -/
  | fetched (newSkSet : List ℕ) (timeline : TimelinePersistence)
  | notifyJoint (j : Joint)
  /-- Step 4. -/
  | switchJoint (j : Joint) (answers : Answers)
  /-- Step 5. -/
  | pull (j : Joint) (old : Answers) (syncPosition : Position) (pulled : List ℕ)
  /-- Step 7. -/
  | sync (j : Joint) (old : Answers) (syncPosition : Position) (answers : Answers)
  /-- Before step 8. -/
  | install (j : Joint) (old new : Answers)
  | retry (timeline : TimelinePersistence) (next : Option (List ℕ × TimelinePersistence))
  /-- Step 9. -/
  | finish (f : Finish) (answers : Answers)
  | exclude (f : Finish) (excluded : List ℕ)
  | notify (f : Finish)
  deriving DecidableEq

def quorumSize (targets : List ℕ) : ℕ := targets.length / 2 + 1

/-- The checks of `tenant_timeline_set_membership_quorum`: a quorum of successes, all with the
generation that was sent. -/
def quorumReached (targets : List ℕ) (mconf : Configuration) (answers : Answers) : Bool :=
  decide (quorumSize targets ≤ answers.length) &&
    answers.all fun a ↦ a.2.generation == mconf.generation

def getSyncPosition (targets : List ℕ) (answers : Answers) : Option Position :=
  if answers.length < quorumSize targets then none
  else ((answers.map fun a ↦ a.2.position).insertionSort (· ≤ ·))[quorumSize targets - 1]?

namespace Call

/-- The request to `i` that the call has not got a success for. -/
def request (i : ℕ) : Call → Option Request
  | switchJoint j answers =>
    if i ∈ j.cur ∧ i ∉ answers.map Prod.fst then some (.membership j.conf) else none
  | pull j _ _ pulled =>
    if i ∈ j.pullTo ∧ i ∉ pulled then some (.pull j.cur (some j.conf)) else none
  | sync j _ _ answers =>
    if i ∈ j.new ∧ i ∉ answers.map Prod.fst then some (.membership j.conf) else none
  | finish f answers =>
    if i ∈ f.members ∧ i ∉ answers.map Prod.fst then some (.membership f.conf) else none
  | exclude f excluded =>
    if i ∈ f.exclude ∧ i ∉ excluded then some (.exclude f.conf) else none
  | _ => none

/-- The call after the reply of `i`; an error leaves it to be retried. -/
def answered (i : ℕ) : Reply → Call → Call
  | .switched r, switchJoint j answers => switchJoint j ((i, r) :: answers)
  | .switched r, sync j old pos answers =>
    -- below the minimum position the answer is mapped to an error
    if r.position < pos then sync j old pos answers else sync j old pos ((i, r) :: answers)
  | .switched r, finish f answers => finish f ((i, r) :: answers)
  | .ok, pull j old pos pulled => pull j old pos (i :: pulled)
  | .ok, exclude f excluded => exclude f (i :: excluded)
  | _, call => call

end Call

/-! ## The system -/

/-- What the validation of a request looks up. -/
structure Config where
  safekeepers : List ℕ
  timelineSafekeeperCount : ℕ
  decomissioned : List ℕ

/-- A request in the queue of a background reconciler. -/
structure ScheduleRequest where
  generation : ℕ
  kind : OpKind
  hostList : List ℕ
  deriving DecidableEq

/-- What the background reconciler sends; an exclusion is carried out by a deletion. -/
def ScheduleRequest.request (req : ScheduleRequest) : Request :=
  match req.kind with
  | .pull => .pull req.hostList none
  | .exclude => .delete req.generation

inductive Event where
  /-- The safekeeper has had the configuration. -/
  | switched (sk : ℕ) (mconf : Configuration)
  /-- The safekeeper has told a walproposer of its generation that it has the log up to there. -/
  | acked (sk generation : ℕ) (position : Position)
  /-- A request of an exclusion at `generation` was handled, with the generation of the timeline and
  the remote segments it removed. -/
  | exclusion (sk generation : ℕ) (removed : Option ℕ) (wal : List ℕ)
  deriving DecidableEq

structure World where
  db : Db
  /-- The request of each reconciler that is not cancelled. -/
  queue : ℕ → Option ScheduleRequest
  calls : ℕ → Call
  sent : List (ℕ × Request)
  fleet : Fleet
  history : List Event

namespace World

variable (w : World)

def setCall (p : ℕ) (call : Call) : World := { w with calls := Function.update w.calls p call }

/-- What the handling of a request is recorded as. -/
def record (i : ℕ) (r : Request) (f : Fleet) : List Event :=
  let removed := if (f.sk i).timeline.isNone then (w.fleet.sk i).timeline else none
  let wal := w.fleet.remoteWal.filter fun s ↦ !f.remoteWal.contains s
  match r with
  | .exclude mconf => [.exclusion i mconf.generation (removed.map (·.mconf.generation)) wal]
  | .delete generation => [.exclusion i generation (removed.map (·.mconf.generation)) wal]
  | _ => (f.sk i).timeline.toList.map fun t ↦ .switched i t.mconf

def handle (i : ℕ) (answering : List ℕ) (r : Request) : World × Reply :=
  let (f, reply) := w.fleet.handle i answering r
  ({ w with fleet := f, history := w.record i r f ++ w.history }, reply)

/-- The validation of the request and steps 1 and 2 of `tenant_timeline_safekeeper_migrate`. -/
def migrate (cfg : Config) (p : ℕ) (newSkSet : List ℕ) : Option World :=
  let row := w.db.timeline
  if w.calls p ≠ .idle then none
  else if ¬newSkSet ⊆ cfg.safekeepers ∨ newSkSet = [] ∨
      newSkSet.length < cfg.timelineSafekeeperCount ∨ ¬newSkSet.Nodup ∨
      newSkSet.any fun sk ↦ !row.skSet.contains sk && cfg.decomissioned.contains sk then none
  else
    match row.newSkSet with
    | some persistent =>
      if persistent ≠ newSkSet then none
      else some (w.setCall p (.notifyJoint ⟨row.generation, row.skSet, newSkSet⟩))
    | none =>
      if row.isMigrationFinished then some (w.setCall p (.fetched newSkSet row))
      else some (w.setCall p (.retry row (some (newSkSet, row))))

/-- `tenant_timeline_safekeeper_migrate_abort`, up to the update of the row. -/
def abort (p : ℕ) : Option World :=
  let row := w.db.timeline
  if w.calls p ≠ .idle then none
  else
    match row.newSkSet with
    | none => if row.isMigrationFinished then none else some (w.setCall p (.retry row none))
    | some new =>
      let exclude := new.filter fun sk ↦ !row.skSet.contains sk
      (w.db.updateTimelineMembership (row.generation + 1) row.skSet none
        (excludeRequests (row.generation + 1) exclude)).map fun db ↦
          { w with db := db }.setCall p
            (.finish ⟨row.skSet, ⟨row.generation + 1, row.skSet, none⟩, exclude, none⟩ [])

/-- The end of `tenant_timeline_safekeeper_exclude_reconcile`: the operations that succeeded are
removed, the others are scheduled. -/
def excludeReconcile (generation : ℕ) (excluded exclude : List ℕ) : World :=
  { w with
    db := (exclude.filter (excluded.contains ·)).foldl (fun db i ↦ db.removePendingOp i generation)
      w.db
    queue := fun i ↦
      if i ∈ exclude ∧ i ∉ excluded then some ⟨generation, .exclude, []⟩ else w.queue i }

/-- The call goes on, if what it has been waiting for is there. A call that cannot go on has to
fail. -/
def proceed (p : ℕ) : Option World :=
  match w.calls p with
  | .idle => none
  | .fetched new row =>
    if row.skSet = new then some (w.setCall p .idle)
    else
      (w.db.updateTimelineMembership (row.generation + 1) row.skSet (some new) []).map fun db ↦
        { w with db := db }.setCall p (.notifyJoint ⟨row.generation + 1, row.skSet, new⟩)
  | .notifyJoint j =>
    (w.db.updateCplaneNotifiedGeneration j.generation).map fun db ↦
      { w with db := db }.setCall p (.switchJoint j [])
  | .switchJoint j answers =>
    if quorumReached j.cur j.conf answers then
      (w.db.updateSkSetNotifiedGeneration j.generation).bind fun db ↦
        (getSyncPosition j.cur answers).map fun pos ↦
          { w with db := db }.setCall p (.pull j answers pos [])
    else none
  | .pull j old pos pulled =>
    if j.pullTo ⊆ pulled then some (w.setCall p (.sync j old pos [])) else none
  | .sync j old _ answers =>
    if quorumReached j.new j.conf answers then some (w.setCall p (.install j old answers)) else none
  | .install j _ _ =>
    (w.db.updateTimelineMembership (j.generation + 1) j.new none
      (excludeRequests (j.generation + 1) j.excluded)).map fun db ↦
        { w with db := db }.setCall p (.finish ⟨j.new, j.newConf, j.excluded, none⟩ [])
  | .retry row next =>
    let ops := w.db.pendingOps.filter fun op ↦
      op.opKind == .exclude && op.generation == row.generation
    some (w.setCall p
      (.finish ⟨row.skSet, ⟨row.generation, row.skSet, none⟩, ops.map (·.skId), next⟩ []))
  | .finish f answers =>
    if quorumReached f.members f.conf answers then
      (w.db.updateSkSetNotifiedGeneration f.conf.generation).map fun db ↦
        { w with db := db }.setCall p (.exclude f [])
    else none
  | .exclude f excluded =>
    some ((w.excludeReconcile f.conf.generation excluded f.exclude).setCall p (.notify f))
  | .notify f =>
    (w.db.updateCplaneNotifiedGeneration f.conf.generation).map fun db ↦
      { w with db := db }.setCall p (f.next.elim .idle fun (new, row) ↦ .fetched new row)

/-- The request of a call is handled and the call gets the reply. -/
def ask (p i : ℕ) (answering : List ℕ) : Option World :=
  ((w.calls p).request i).map fun r ↦
    let (w', reply) := w.handle i answering r
    w'.setCall p ((w.calls p).answered i reply)

/-- An attempt of `reconcile_one`, which is repeated until it succeeds. -/
def reconcileOne (i : ℕ) (answering : List ℕ) : Option World :=
  (w.queue i).map fun req ↦
    let (w', reply) := w.handle i answering req.request
    if reply = .error then w'
    else
      { w' with
        db := w'.db.removePendingOp i req.generation
        queue := Function.update w'.queue i none }

def loadScheduleRequests (i : ℕ) : Option ScheduleRequest :=
  (w.db.pendingOps.find? (·.skId == i)).map fun op ↦
    match op.opKind with
    | .exclude => ⟨op.generation, .exclude, []⟩
    | .pull => ⟨op.generation, .pull, w.db.timeline.skSet.filter (· ≠ i)⟩

def setTimeline (i : ℕ) (t : Timeline) : World :=
  { w with fleet := w.fleet.set i { w.fleet.sk i with timeline := some t } }

end World

inductive Action where
  | migrate (p : ℕ) (newSkSet : List ℕ)
  | abort (p : ℕ)
  | ask (p i : ℕ) (answering : List ℕ)
  | proceed (p : ℕ)
  /-- The call returns an error. -/
  | fail (p : ℕ)
  /-- The request of a call is on its way. -/
  | send (p i : ℕ)
  /-- The request of a reconciler is on its way. -/
  | sendOp (i : ℕ)
  /-- A request that was sent is handled; nobody waits for the reply. -/
  | deliver (i : ℕ) (answering : List ℕ) (r : Request)
  | reconcileOne (i : ℕ) (answering : List ℕ)
  /-- The reconciler of a safekeeper is stopped and its requests are dropped. -/
  | stopReconciler (i : ℕ)
  | restartController
  | restartSafekeeper (i : ℕ)
  /-- A segment gets into remote storage. -/
  | upload (segment : ℕ)
  /-- A walproposer relays a configuration in its greeting. -/
  | greeting (i : ℕ) (mconf : Configuration)
  /-- A vote, an election or an append changes what the safekeeper has. -/
  | write (i term lastLogTerm flushLsn commitLsn : ℕ)
  /-- The safekeeper answers a walproposer of its generation. -/
  | ack (i : ℕ)
  deriving DecidableEq

/-- What an action does; none if it is not possible. -/
def World.exec (cfg : Config) (w : World) : Action → Option World
  | .migrate p newSkSet => w.migrate cfg p newSkSet
  | .abort p => w.abort p
  | .ask p i answering => w.ask p i answering
  | .proceed p => w.proceed p
  | .fail p => some (w.setCall p .idle)
  | .send p i => ((w.calls p).request i).map fun r ↦ { w with sent := (i, r) :: w.sent }
  | .sendOp i => (w.queue i).map fun req ↦ { w with sent := (i, req.request) :: w.sent }
  | .deliver i answering r => if (i, r) ∈ w.sent then some (w.handle i answering r).1 else none
  | .reconcileOne i answering => w.reconcileOne i answering
  | .stopReconciler i => some { w with queue := Function.update w.queue i none }
  | .restartController => some { w with calls := fun _ ↦ .idle, queue := w.loadScheduleRequests }
  | .restartSafekeeper i =>
    some { w with fleet := w.fleet.set i { w.fleet.sk i with tombstone := none } }
  | .upload segment =>
    some { w with fleet := { w.fleet with remoteWal := segment :: w.fleet.remoteWal } }
  | .greeting i mconf =>
    if w.history.any fun e ↦ match e with | .switched _ c => c == mconf | _ => false then
      (w.fleet.sk i).timeline.bind fun t ↦
        if t.mconf.generation < mconf.generation ∧ !mconf.contains i then none
        else
          some { w.setTimeline i (t.membershipSwitch mconf) with
            history := .switched i (t.membershipSwitch mconf).mconf :: w.history }
    else none
  | .write i term lastLogTerm flushLsn commitLsn =>
    (w.fleet.sk i).timeline.bind fun t ↦
      if term < t.term then none
      else some (w.setTimeline i ⟨t.mconf, term, lastLogTerm, flushLsn, commitLsn⟩)
  | .ack i =>
    (w.fleet.sk i).timeline.map fun t ↦
      { w with history := .acked i t.mconf.generation t.position :: w.history }

theorem Fleet.mem_of_mostAdvanced {ts : List Timeline} {t : Timeline}
    (h : Fleet.mostAdvanced ts = some t) : t ∈ ts := by
  cases ts with
  | nil => cases h
  | cons t₀ ts =>
    cases h
    induction ts generalizing t₀ with
    | nil => exact List.mem_cons_self
    | cons t₁ ts ih =>
      rw [List.foldl_cons]
      have hmem := ih (if t₀.donorKey ≤ t₁.donorKey then t₁ else t₀)
      split_ifs at hmem ⊢ <;> simp only [List.mem_cons] at hmem ⊢ <;> tauto

def World.run (cfg : Config) (w : World) (as : List Action) : Option World :=
  as.foldlM (World.exec cfg) w

/-- The condition holds at each action of the run. -/
def World.Along (cfg : Config) (P : World → Action → Prop) : World → List Action → Prop
  | _, [] => True
  | w, a :: as => P w a ∧ (w.exec cfg a).elim True fun w' ↦ World.Along cfg P w' as

namespace World

variable {cfg : Config} {P : World → Action → Prop} {w w' : World} {a : Action} {as : List Action}

instance Along.decidable [∀ w a, Decidable (P w a)] :
    ∀ w as, Decidable (World.Along cfg P w as)
  | _, [] => .isTrue trivial
  | w, a :: as =>
    let _ : Decidable ((w.exec cfg a).elim True fun w' ↦ World.Along cfg P w' as) :=
      match w.exec cfg a with
      | none => .isTrue trivial
      | some w' => Along.decidable w' as
    inferInstanceAs (Decidable (P w a ∧ _))

theorem run_cons : w.run cfg (a :: as) = some w' ↔
    ∃ w₁, w.exec cfg a = some w₁ ∧ w₁.run cfg as = some w' := by
  simp only [run, List.foldlM_cons, bind_eq_bind, bind_eq_some_iff]

/-! ## The steps of the calls

The database, the queues and the calls themselves are all that a call changes between its
requests. -/

/-- The call keeps answers to the joint configuration. -/
def keepsAnswers : Call → Bool
  | .switchJoint .. | .pull .. | .sync .. | .install .. => true
  | _ => false

/-- How a call comes from one point to the next. -/
inductive Next : Call → Call → Prop
  | other {call call' : Call} (h : keepsAnswers call' = false) : Next call call'
  | switchJoint {call : Call} (j : Joint) : Next call (.switchJoint j [])
  | pull {j : Joint} {answers : Answers} {pos : Position}
      (h : getSyncPosition j.cur answers = some pos) :
    Next (.switchJoint j answers) (.pull j answers pos [])
  | sync {j : Joint} {old : Answers} {pos : Position} {pulled : List ℕ} :
    Next (.pull j old pos pulled) (.sync j old pos [])
  | install {j : Joint} {old new : Answers} {pos : Position}
      (h : quorumReached j.new j.conf new = true) :
    Next (.sync j old pos new) (.install j old new)

/-- A step of the call `p` outside of its requests. -/
def CallStep (w w' : World) (p : ℕ) : Prop :=
  ∃ db queue call, w' = { w with db := db, queue := queue }.setCall p call ∧ Next (w.calls p) call

variable {p : ℕ}

theorem migrate_callStep {newSkSet : List ℕ} (h : w.migrate cfg p newSkSet = some w') :
    CallStep w w' p := by
  unfold migrate at h
  dsimp only at h
  split at h
  · cases h
  split at h
  · cases h
  split at h
  all_goals
    split at h <;> cases h
    all_goals exact ⟨_, _, _, rfl, .other rfl⟩

theorem abort_callStep (h : w.abort p = some w') : CallStep w w' p := by
  unfold abort at h
  dsimp only at h
  split at h
  · cases h
  split at h
  · split at h <;> cases h
    exact ⟨_, _, _, rfl, .other rfl⟩
  · obtain ⟨db, -, rfl⟩ := map_eq_some_iff.mp h
    exact ⟨_, _, _, rfl, .other rfl⟩

theorem proceed_callStep (h : w.proceed p = some w') : CallStep w w' p := by
  unfold proceed at h
  split at h
  case h_1 => cases h
  case h_2 =>
    split at h
    · cases h
      exact ⟨_, _, _, rfl, .other rfl⟩
    · obtain ⟨db, -, rfl⟩ := map_eq_some_iff.mp h
      exact ⟨_, _, _, rfl, .other rfl⟩
  case h_3 j hcall =>
    obtain ⟨db, -, rfl⟩ := map_eq_some_iff.mp h
    exact ⟨_, _, _, rfl, .switchJoint j⟩
  case h_4 hcall =>
    split at h
    · obtain ⟨db, -, hpos⟩ := bind_eq_some_iff.mp h
      obtain ⟨pos, hsync, rfl⟩ := map_eq_some_iff.mp hpos
      exact ⟨_, _, _, rfl, hcall ▸ .pull hsync⟩
    · cases h
  case h_5 hcall =>
    split at h <;> cases h
    exact ⟨_, _, _, rfl, hcall ▸ .sync⟩
  case h_6 hcall =>
    split at h <;> cases h
    exact ⟨_, _, _, rfl, hcall ▸ .install ‹_›⟩
  case h_8 | h_10 =>
    cases h
    exact ⟨_, _, _, rfl, .other rfl⟩
  case h_9 =>
    split at h
    · obtain ⟨db, -, rfl⟩ := map_eq_some_iff.mp h
      exact ⟨_, _, _, rfl, .other rfl⟩
    · cases h
  case h_11 f _ =>
    obtain ⟨db, -, rfl⟩ := map_eq_some_iff.mp h
    refine ⟨_, _, _, rfl, .other ?_⟩
    cases f.next <;> rfl
  all_goals
    obtain ⟨db, -, rfl⟩ := map_eq_some_iff.mp h
    exact ⟨_, _, _, rfl, .other rfl⟩

/-- The safekeepers, the requests on their way and the history are the same. -/
structure SameFleet (w w' : World) : Prop where
  fleet : w'.fleet = w.fleet
  history : w'.history = w.history
  sent : w'.sent = w.sent

theorem CallStep.sameFleet (h : CallStep w w' p) : SameFleet w w' := by
  obtain ⟨db, queue, call, rfl, -⟩ := h
  exact ⟨rfl, rfl, rfl⟩

end World

end NeonStorage.StorageController.Membership
