import NeonStorage.StorageController.Reconciler
import Mathlib.Data.Fintype.Basic

/-!
# The storage controller of a tenant shard

The row of the shard in the database, the shard in the memory of the controller, the reconcilers
that were spawned for it (each waits for the one before), and the results that are not yet
processed. Generations are issued by the database only: `increment_generation` for a reconciler, and
`re_attach` for a pageserver that has restarted.

`World.sent` records which pageserver was sent which mode with which generation. A pageserver may
report only an attached location of a generation it was sent.
-/

namespace NeonStorage.StorageController

open Function
variable {N τ : Type} [DecidableEq N] [DecidableEq τ]

/-- The columns of `tenant_shards` that reconciling depends on. -/
structure TenantShardPersistence (N : Type) where
  generation : Option ℕ
  generationPageserver : Option N

namespace TenantShardPersistence

variable (row : TenantShardPersistence N)

/-- `increment_generation`; the generation stays `NULL` if it was. -/
def incrementGeneration (node : N) : TenantShardPersistence N where
  generation := row.generation.map (· + 1)
  generationPageserver := some node

/-- `Persistence::re_attach`, for the row of one shard. -/
def reAttach (node : N) : TenantShardPersistence N :=
  if row.generationPageserver = some node then
    { row with generation := row.generation.map (· + 1) }
  else row

end TenantShardPersistence

structure TenantShard (N τ : Type) where
  generation : Option ℕ
  policy : PlacementPolicy
  config : TenantConfig τ
  intent : IntentState N
  observed : ObservedState N τ

namespace TenantShard

variable (s : TenantShard N τ)

/-- The generation of the later location is behind that of the location on record. -/
def laggingBehind (current : Option (Option (LocationConfig τ)))
    (new : Option (LocationConfig τ)) : Bool :=
  match current.join.bind (·.generation), new.bind (·.generation) with
  | some c, some n => n < c
  | _, _ => false

/-- Each delta is about another node, so their order does not matter. -/
def applyObservedDeltas (deltas : N → Option (ObservedStateDelta τ)) : ObservedState N τ :=
  fun node ↦
    match deltas node with
    | none => s.observed node
    | some .delete => none
    | some (.upsert conf) => if laggingBehind (s.observed node) conf then some none else some conf

/-- What `process_result` makes of a delta. -/
def filterDelta (available ok : Bool) (delta : ObservedStateDelta τ) : ObservedStateDelta τ :=
  if available then
    match ok, delta with
    | false, .delete => .upsert none
    | _, delta => delta
  else .upsert none

def processResult (available : N → Bool) (result : ReconcileResult N τ) : TenantShard N τ :=
  { s with
    generation := max s.generation result.generation
    observed := s.applyObservedDeltas fun node ↦
      (result.observedDeltas node).map (filterDelta (available node) result.ok) }

def spawnReconciler (detach : List N) (available : N → Bool) : Reconciler N τ where
  generation := s.generation
  policy := s.policy
  config := s.config
  intent := s.intent
  detach := detach
  observed := s.observed
  originalObserved := s.observed
  available := available
  stage := .queued
  calling := false

/-- The nodes from which a reconciler detaches, in any order. -/
def IsDetachList (detach : List N) : Prop :=
  ∀ node, node ∈ detach ↔
    s.observed node ≠ none ∧ s.intent.attached ≠ some node ∧ node ∉ s.intent.secondary

instance [Fintype N] (detach : List N) : Decidable (s.IsDetachList detach) :=
  inferInstanceAs (Decidable (∀ _, _ ↔ _))

/-- `Service::re_attach` after the database has issued the generation. -/
def reAttached (node : N) (generation : ℕ) (emptyLocalDisk : Bool) : TenantShard N τ :=
  let conf := if emptyLocalDisk then none else s.observed node
  { s with
    generation := max s.generation (some generation)
    observed := update s.observed node
      (some (conf.join.map fun c ↦ { c with generation := some generation })) }

def nodeOffline (node : N) : TenantShard N τ :=
  { s with observed := update s.observed node ((s.observed node).map fun _ ↦ none) }

/-- `node_activate_reconcile`, for a node that reports a location of the shard. -/
def nodeActivateReconcile (node : N) (reported : Option (LocationConfig τ)) : TenantShard N τ :=
  let onRecord := (s.observed node).join
  { s with
    observed := update s.observed node
      (some (if onRecord = reported then onRecord else none)) }

end TenantShard

structure World (N τ : Type) where
  row : TenantShardPersistence N
  shard : TenantShard N τ
  available : N → Bool
  /-- The first one runs, the others wait. -/
  reconcilers : List (Reconciler N τ)
  results : List (ReconcileResult N τ)
  /-- The re-attach requests that have a generation and are not answered yet. -/
  reattaching : List (N × ℕ)
  sent : List (N × LocationConfigMode × Option ℕ)

namespace World

variable (w : World N τ)

/-- The pageserver was sent the mode and the generation of `conf`. -/
def Received (node : N) (conf : LocationConfig τ) : Prop :=
  (node, conf.mode, conf.generation) ∈ w.sent

/-- The pageserver may have a location with the configuration `conf`. -/
def Reports (node : N) (conf : LocationConfig τ) : Prop :=
  conf.mode.isAttached → ∀ g, conf.generation = some g →
    ∃ mode, mode.isAttached ∧ (node, mode, some g) ∈ w.sent

/-- No two pageservers were sent an attached location of the same generation. -/
def OnePageserver : Prop :=
  ∀ n n' m m' g, (n, m, some g) ∈ w.sent → (n', m', some g) ∈ w.sent →
    m.isAttached → m'.isAttached → n = n'

def transmit (node : N) (mode : LocationConfigMode) (generation : Option ℕ) : World N τ :=
  { w with sent := (node, mode, generation) :: w.sent }

def restarted (policy : PlacementPolicy) (config : TenantConfig τ) (intent : IntentState N)
    (observed : ObservedState N τ) (available : N → Bool) : World N τ :=
  { w with
    shard := { generation := w.row.generation, policy, config, intent, observed }
    available := available
    reconcilers := []
    results := []
    reattaching := [] }

/-- The state after the creation of the tenant. -/
structure Initial : Prop where
  generation : w.shard.generation = w.row.generation
  generationPageserver : w.row.generationPageserver = none
  observed : ∀ node, w.shard.observed node = none
  reconcilers : w.reconcilers = []
  results : w.results = []
  reattaching : w.reattaching = []
  sent : w.sent = []

end World

/-- The steps of the controller and of the pageservers it hears from; `ok` is a condition on the
start of a live migration. -/
inductive Step (ok : Reconciler N τ → N → Prop) : World N τ → World N τ → Prop
  /-- The intent, the placement policy or the configuration of the tenant changes. -/
  | configure (w) (policy : PlacementPolicy) (config : TenantConfig τ) (intent : IntentState N) :
    Step ok w { w with shard := { w.shard with policy, config, intent } }
  /-- The new policy has no attached location. -/
  | clearPageserver (w) :
    Step ok w { w with row := { w.row with generationPageserver := none } }
  | spawn (w) (detach : List N) (h : w.shard.IsDetachList detach) :
    Step ok w { w with
      reconcilers := w.reconcilers ++ [w.shard.spawnReconciler detach w.available] }
  | move (w) (r r' rs) (h : w.reconcilers = r :: rs) (hm : r.Move w.Received w.Reports ok r') :
    Step ok w { w with reconcilers := r' :: rs }
  /-- A request of `location_config` leaves the controller, for the first time or again. -/
  | transmit (w) (r rs node conf) (h : w.reconcilers = r :: rs) (hc : r.calling = true)
      (hr : r.request = some (node, conf)) :
    Step ok w (w.transmit node conf.mode conf.generation)
  | advance (w) (r rs origin dest) (h : w.reconcilers = r :: rs)
      (hs : r.stage = .advance origin dest) :
    Step ok w { w with
      row := w.row.incrementGeneration dest
      reconcilers := r.advanced (w.row.incrementGeneration dest).generation :: rs }
  | advanceAttached (w) (r rs node wanted) (h : w.reconcilers = r :: rs)
      (hs : r.stage = .advanceAttached node wanted) :
    Step ok w { w with
      row := w.row.incrementGeneration node
      reconcilers := r.advanced (w.row.incrementGeneration node).generation :: rs }
  /-- The database has issued a generation, but the answer is lost. -/
  | advanceLost (w) (r rs) (node : N) (h : w.reconcilers = r :: rs)
      (hs : (∃ origin, r.stage = .advance origin node) ∨
        ∃ wanted, r.stage = .advanceAttached node wanted) :
    Step ok w { w with
      row := w.row.incrementGeneration node
      reconcilers := r.advanced none :: rs }
  | complete (w) (r rs success) (h : w.reconcilers = r :: rs) (hs : r.stage = .finished success) :
    Step ok w { w with reconcilers := rs, results := w.results ++ [r.result success] }
  /-- A reconciler was cancelled before it started. -/
  | drop (w) (r rs) (h : w.reconcilers = r :: rs) (hs : r.stage = .queued) :
    Step ok w { w with reconcilers := rs }
  | processResult (w) (result rest) (h : w.results = result :: rest) :
    Step ok w { w with shard := w.shard.processResult w.available result, results := rest }
  /-- The database issues a generation for a pageserver that re-attaches. -/
  | reAttach (w) (node g) (h : (w.row.reAttach node).generation = some g)
      (hn : w.row.generationPageserver = some node) :
    Step ok w { w with
      row := w.row.reAttach node
      reattaching := w.reattaching ++ [(node, g)] }
  /-- The controller takes over the generation and answers the pageserver. -/
  | reAttached (w) (node g) (l l') (emptyLocalDisk : Bool)
      (h : w.reattaching = l ++ (node, g) :: l') :
    Step ok w (World.transmit { w with
      shard := w.shard.reAttached node g emptyLocalDisk
      reattaching := l ++ l' } node .attachedSingle (some g))
  | offline (w) (node : N) :
    Step ok w { w with
      shard := w.shard.nodeOffline node
      available := update w.available node false }
  | online (w) (node : N) :
    Step ok w { w with available := update w.available node true }
  | activate (w) (node reported) :
    Step ok w { w with shard := w.shard.nodeActivateReconcile node reported }
  /-- The controller restarts. It asks the pageservers for their locations, or gets the observed
  state from the controller that steps down. -/
  | restart (w) (policy config intent observed available)
      (h : (∀ node conf, observed node = some (some conf) → w.Reports node conf) ∨
        observed = w.shard.observed) :
    Step ok w (w.restarted policy config intent observed available)

def Reachable (ok : Reconciler N τ → N → Prop) (w : World N τ) : Prop :=
  ∃ w₀ : World N τ, w₀.Initial ∧ Relation.ReflTransGen (Step ok) w₀ w

end NeonStorage.StorageController
