import Mathlib.Data.List.Basic

/-!
# The reconciler of a tenant shard

The storage controller keeps, for each tenant shard, what it wants (the intent) and what it believes
the pageservers have (the observed state). A reconciler works on a copy of both: it asks a
pageserver whose state is uncertain, migrates an attached location if there is one, and then
configures every location that is not as intended.

All requests to pageservers are calls of `location_config`; `Stage` says which call a reconciler has
reached. A call marks the location as uncertain, may be transmitted any number of times, and then
succeeds or fails; the pageserver may have obeyed in both cases.
-/

namespace NeonStorage.StorageController

open Function

inductive LocationConfigMode where
  | attachedSingle
  | attachedMulti
  | attachedStale
  | secondary
  | detached
deriving DecidableEq

def LocationConfigMode.isAttached : LocationConfigMode → Bool
  | .attachedSingle | .attachedMulti | .attachedStale => true
  | .secondary | .detached => false

/-- The configuration of a tenant; the controller itself sets only `heatmap_period` (in seconds). -/
structure TenantConfig (τ : Type) where
  heatmapPeriod : Option ℕ
  other : τ
deriving DecidableEq

/-- What a pageserver is told about a shard. `secondaryConf` is the flag `warm`. -/
structure LocationConfig (τ : Type) where
  mode : LocationConfigMode
  generation : Option ℕ
  secondaryConf : Option Bool
  tenantConf : TenantConfig τ
deriving DecidableEq

inductive PlacementPolicy where
  | attached (secondaries : ℕ)
  | secondary
  | detached
deriving DecidableEq

section Configurations

variable {τ : Type}

def defaultHeatmapPeriod : ℕ := 60

variable (config : TenantConfig τ)

def haAwareConfig (hasSecondaries : Bool) : TenantConfig τ :=
  if hasSecondaries then
    { config with heatmapPeriod := some (config.heatmapPeriod.getD defaultHeatmapPeriod) }
  else { config with heatmapPeriod := none }

def attachedLocationConf (generation : ℕ) (config : TenantConfig τ) (policy : PlacementPolicy)
    (secondaryCount : ℕ) : LocationConfig τ :=
  let hasSecondaries := match policy with
    | .detached | .secondary => false
    | .attached 0 => decide (0 < secondaryCount)
    | .attached _ => true
  { mode := .attachedSingle
    generation := some generation
    secondaryConf := none
    tenantConf := haAwareConfig config hasSecondaries }

def secondaryLocationConf : LocationConfig τ where
  mode := .secondary
  generation := none
  secondaryConf := some true
  tenantConf := haAwareConfig config true

def detachedLocationConf : LocationConfig τ where
  mode := .detached
  generation := none
  secondaryConf := none
  tenantConf := config

end Configurations

/-- What is known of each pageserver: no location (`none`), an uncertain one (`some none`), or a
location with its configuration. -/
abbrev ObservedState (N τ : Type) := N → Option (Option (LocationConfig τ))

structure IntentState (N : Type) where
  attached : Option N
  secondary : List N

/-- How far a reconciler is. The stages with an origin and a destination are those of a live
migration. -/
inductive Stage (N τ : Type) where
  /-- It waits for the reconciler before it. -/
  | queued
  | refresh
  | migrate
  | stale (origin dest : N)
  /-- It reads the LSNs of the origin and lets the destination download layers. -/
  | warm (origin dest : N)
  | advance (origin dest : N)
  | multi (origin dest : N)
  /-- It waits for the LSNs and notifies the compute. -/
  | cutover (origin dest : N)
  | demote (origin dest : N)
  | single (dest : N)
  | attach
  | advanceAttached (node : N) (wanted : LocationConfig τ)
  | configure (node : N) (conf : LocationConfig τ)
  | notify
  | collect
  | changes (todo : List (N × LocationConfig τ)) (failed : Bool)
  | finished (ok : Bool)

namespace Stage

variable {N τ : Type}

def running : Stage N τ → Bool
  | queued | finished _ => false
  | _ => true

def next : Stage N τ → Stage N τ
  | stale origin dest => warm origin dest
  | multi origin dest => cutover origin dest
  | demote _ dest => single dest
  | single _ => attach
  | configure _ _ => notify
  | changes (_ :: todo) failed => changes todo failed
  | s => s

/-- Where a failed call leads: only the changes at the end are tried all. -/
def afterFailure : Stage N τ → Stage N τ
  | changes (_ :: todo) _ => changes todo true
  | _ => finished false

end Stage

structure Reconciler (N τ : Type) where
  generation : Option ℕ
  policy : PlacementPolicy
  config : TenantConfig τ
  intent : IntentState N
  detach : List N
  observed : ObservedState N τ
  originalObserved : ObservedState N τ
  /-- The nodes that were available at the start and have not become unavailable since. -/
  available : N → Bool
  stage : Stage N τ
  /-- A call of `location_config` is under way. -/
  calling : Bool

inductive ObservedStateDelta (τ : Type) where
  | upsert (conf : Option (LocationConfig τ))
  | delete

structure ReconcileResult (N τ : Type) where
  ok : Bool
  generation : Option ℕ
  observedDeltas : N → Option (ObservedStateDelta τ)

namespace Reconciler

variable {N τ : Type} [DecidableEq N] [DecidableEq τ] (r : Reconciler N τ)

def buildLocationConfig (mode : LocationConfigMode) (generation : Option ℕ)
    (secondaryConf : Option Bool) : LocationConfig τ :=
  { mode, generation, secondaryConf, tenantConf := r.config }

/-- The call of `location_config` that the reconciler has come to. -/
def request : Option (N × LocationConfig τ) :=
  match r.stage with
  | .stale origin _ => some (origin, r.buildLocationConfig .attachedStale r.generation none)
  | .multi _ dest => some (dest, r.buildLocationConfig .attachedMulti r.generation none)
  | .demote origin _ => some (origin, r.buildLocationConfig .secondary none (some true))
  | .single dest => some (dest, r.buildLocationConfig .attachedSingle r.generation none)
  | .configure node conf => some (node, conf)
  | .changes (change :: _) _ => if r.available change.1 then some change else none
  | _ => none

variable (node : N)

/-- `location_config` up to the first transmission. -/
def locationConfig (conf : LocationConfig τ) : Reconciler N τ :=
  if !r.available node && conf.mode = .detached then { r with stage := r.stage.next }
  else { r with observed := update r.observed node (some none), calling := true }

/-- `location_config` after a successful answer. -/
def configured (conf : LocationConfig τ) : Reconciler N τ :=
  { r with
    observed := update r.observed node
      (if conf.mode = .detached then none else some (some conf))
    calling := false
    stage := r.stage.next }

/-- The node whose location `maybe_refresh_observed` asks for. -/
def uncertain : Option N :=
  r.intent.attached.filter fun node ↦ r.observed node = some none

/-- The destination of a live migration: the intended node, if it is known not to be attached. -/
def destination : Option N :=
  r.intent.attached.filter fun node ↦
    match r.observed node with
    | none => true
    | some none => false
    | some (some conf) => conf.mode = .secondary

def hasNode : Bool :=
  r.intent.attached = some node || node ∈ r.intent.secondary || node ∈ r.detach

/-- `maybe_live_migrate` may take the node as the origin. -/
def isOrigin : Bool :=
  match r.observed node with
  | some (some conf) => conf.mode = .attachedSingle && r.hasNode node && r.available node
  | _ => false

/-- The generation has to be advanced before `node` is configured as `wanted`. -/
def incrementsGeneration (wanted : LocationConfig τ) : Bool :=
  match r.observed node with
  | none | some none => true
  | some (some conf) => conf.generation ≠ wanted.generation || conf.mode ≠ wanted.mode

/-- The general case of `reconcile` for the attached location. If it is as wanted, the compute is
notified: `maybe_refresh_observed` has returned true, since there is an attached location. -/
def attachStage : Stage N τ :=
  match r.intent.attached, r.generation with
  | none, _ => .collect
  | some _, none => .finished false
  | some node, some generation =>
    let wanted := attachedLocationConf generation r.config r.policy r.intent.secondary.length
    if r.observed node = some (some wanted) then .notify
    else if r.incrementsGeneration node wanted then .advanceAttached node wanted
    else .configure node wanted

/-- The secondary locations to be configured, and the observed state, in which those that are not
available have become uncertain. -/
def collectSecondary : ObservedState N τ × List (N × LocationConfig τ) :=
  let wanted := secondaryLocationConf r.config
  r.intent.secondary.foldl (fun acc node ↦
    if acc.1 node = some (some wanted) then acc
    else if r.available node then (acc.1, acc.2 ++ [(node, wanted)])
    else (update acc.1 node (some none), acc.2)) (r.observed, [])

def collectChanges : Reconciler N τ :=
  { r with
    observed := r.collectSecondary.1
    stage := .changes (r.collectSecondary.2 ++
      r.detach.map fun node ↦ (node, detachedLocationConf r.config)) false }

/-- The generation that the database has returned; no generation is an error. -/
def advanced (generation : Option ℕ) : Reconciler N τ :=
  match generation, r.stage with
  | some g, .advance origin dest => { r with generation := some g, stage := .multi origin dest }
  | some g, .advanceAttached node wanted =>
    { r with generation := some g, stage := .configure node { wanted with generation := some g } }
  | _, _ => { r with stage := .finished false }

def observedDeltas : N → Option (ObservedStateDelta τ) := fun node ↦
  match r.observed node, r.originalObserved node with
  | some conf, previous => if previous = some conf then none else some (.upsert conf)
  | none, some _ => some .delete
  | none, none => none

def result (ok : Bool) : ReconcileResult N τ where
  ok := ok
  generation := r.generation
  observedDeltas := r.observedDeltas

end Reconciler

/-- The steps a reconciler takes by itself. `received` says which configurations the pageservers
were sent, `reports` what they may answer about their locations; `ok` is a condition on the start of
a live migration. -/
inductive Reconciler.Move {N τ : Type} [DecidableEq N] [DecidableEq τ]
    (received reports : N → LocationConfig τ → Prop) (ok : Reconciler N τ → N → Prop) :
    Reconciler N τ → Reconciler N τ → Prop
  | start (r) (h : r.stage = .queued) : Move received reports ok r { r with stage := .refresh }
  | certain (r) (h : r.stage = .refresh) (hu : r.uncertain = none) :
    Move received reports ok r { r with stage := .migrate }
  | refreshed (r node conf) (h : r.stage = .refresh) (hu : r.uncertain = some node)
      (hr : reports node conf) :
    Move received reports ok r
      { r with stage := .migrate, observed := update r.observed node (some (some conf)) }
  /-- The pageserver is changing the location. -/
  | indeterminate (r node) (h : r.stage = .refresh) (hu : r.uncertain = some node) :
    Move received reports ok r { r with stage := .migrate }
  | notFound (r node) (h : r.stage = .refresh) (hu : r.uncertain = some node) :
    Move received reports ok r
      { r with stage := .migrate, observed := update r.observed node none }
  | liveMigrate (r origin dest) (h : r.stage = .migrate) (hd : r.destination = some dest)
      (ho : r.isOrigin origin) (hok : ok r origin) :
    Move received reports ok r { r with stage := .stale origin dest }
  | noLiveMigrate (r) (h : r.stage = .migrate)
      (hd : r.destination = none ∨ ∀ node, r.isOrigin node = false) :
    Move received reports ok r { r with stage := .attach }
  | warm (r origin dest) (h : r.stage = .warm origin dest) :
    Move received reports ok r { r with stage := .advance origin dest }
  | cutover (r origin dest) (h : r.stage = .cutover origin dest) :
    Move received reports ok r { r with stage := .demote origin dest }
  | attach (r) (h : r.stage = .attach) :
    Move received reports ok r { r with stage := r.attachStage }
  | notify (r) (h : r.stage = .notify) : Move received reports ok r { r with stage := .collect }
  | collect (r) (h : r.stage = .collect) : Move received reports ok r r.collectChanges
  | skip (r node conf todo failed) (h : r.stage = .changes ((node, conf) :: todo) failed)
      (hn : r.available node = false) :
    Move received reports ok r
      { r with
        stage := .changes todo failed
        observed := update r.observed node (some none) }
  | finish (r failed) (h : r.stage = .changes [] failed) :
    Move received reports ok r { r with stage := .finished !failed }
  | call (r node conf) (h : r.request = some (node, conf)) (hc : r.calling = false) :
    Move received reports ok r (r.locationConfig node conf)
  | succeed (r node conf) (h : r.request = some (node, conf)) (hc : r.calling = true)
      (hr : received node conf) :
    Move received reports ok r (r.configured node conf)
  | fail (r) (hc : r.calling = true) :
    Move received reports ok r { r with calling := false, stage := r.stage.afterFailure }
  /-- Cancelled, or something else than a call of `location_config` has failed. -/
  | abort (r) (h : r.stage.running) :
    Move received reports ok r { r with calling := false, stage := .finished false }
  | unavailable (r node) :
    Move received reports ok r { r with available := update r.available node false }

end NeonStorage.StorageController
