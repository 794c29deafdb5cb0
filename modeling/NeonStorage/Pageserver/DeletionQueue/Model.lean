import NeonStorage.Pageserver.Generation
import Mathlib.Data.List.Sort
import Mathlib.Algebra.GroupWithZero.Nat

/-!
# The deletion queue

The queue through which a pageserver deletes objects. The list writer gathers deletions into lists
that it writes to disk; the validator asks the control plane whether the generations in the lists
are still the latest ones, drops what is stale and hands the rest to the deleter. How far validation
got is remembered on disk by the sequence number in a header, so that lists up to there can be
executed after a restart.

Each stage is a task that takes messages from a channel; `Node` is the disk with the tasks. What
runs between two points at which a task waits is one definition here, except that writing files is
cut into single writes: the process may end between any two of them.
-/

namespace NeonStorage.Pageserver.DeletionQueue

/-- The keys in a list at which it is written before its time. -/
def deletionListTargetSize : ℕ := 16384

/-- The objects to delete of one tenant, and the generation in which that was decided. -/
structure TenantDeletionList (Obj : Type) where
  objects : List Obj
  generation : Generation

/-- A deletion list. A tenant is in it at most once, with one generation. -/
structure DeletionList (Tenant Obj : Type) where
  sequence : ℕ
  tenants : List (Tenant × TenantDeletionList Obj)
  /-- The contents have passed validation. -/
  validated : Bool

structure DeletionOp (Tenant Obj : Type) where
  tenant : Tenant
  objects : List Obj
  generation : Generation

/-- Messages to the list writer. A number stands for the task that waits for a flush. -/
inductive ListWriterQueueMessage (Tenant Obj : Type) where
  | delete (op : DeletionOp Tenant Obj)
  | flush (waiter : ℕ)
  | flushExecute (waiter : ℕ)
  | recover (attached : Tenant → Option Generation)

inductive ValidatorQueueMessage (Tenant Obj : Type) where
  | delete (list : DeletionList Tenant Obj)
  | flush (waiter : ℕ)

/-- The `remote_consistent_lsn` of timelines that is to become visible after validation. `Upd` is
the position and the place to store it in. -/
structure TenantLsnState (Timeline Upd : Type) where
  timelines : List (Timeline × Upd)
  generation : Generation

structure ListWriter (Tenant Obj : Type) where
  rx : List (ListWriterQueueMessage Tenant Obj)
  pending : DeletionList Tenant Obj
  pendingFlushes : List ℕ
  recovered : Bool

/-- Where the validator is in a flush, on behalf of a waiting task or of none. -/
inductive ValidatorTask (Tenant Timeline Obj Upd : Type) where
  | idle
  /-- The control plane was asked about the generations. -/
  | validating (generations : Tenant → Option Generation)
      (updates : List (Tenant × TenantLsnState Timeline Upd)) (waiter : Option ℕ)
  /-- Lists are trimmed one after the other, according to the answer. -/
  | trimming (generations : Tenant → Option Generation) (valid : Tenant → Bool)
      (trimmed : List (DeletionList Tenant Obj)) (waiter : Option ℕ)
  /-- The deleter was given the objects of the lists with these sequence numbers. -/
  | executing (sequences : List ℕ) (waiter : Option ℕ)
  /-- The lists are erased one after the other. -/
  | cleaning (sequences : List ℕ) (waiter : Option ℕ)

structure Validator (Tenant Timeline Obj Upd : Type) where
  rx : List (ValidatorQueueMessage Tenant Obj)
  pendingLists : List (DeletionList Tenant Obj)
  validatedLists : List (DeletionList Tenant Obj)
  listWriteFailed : Option ℕ
  task : ValidatorTask Tenant Timeline Obj Upd

/-- The deletion lists on disk by sequence number, and the sequence number in the header. -/
structure Disk (Tenant Obj : Type) where
  lists : List (ℕ × DeletionList Tenant Obj)
  header : Option ℕ

structure Node (Tenant Timeline Obj Upd : Type) where
  disk : Disk Tenant Obj
  listWriter : ListWriter Tenant Obj
  validator : Validator Tenant Timeline Obj Upd
  lsnTable : List (Tenant × TenantLsnState Timeline Upd)
  /-- What the deleter was given and has not confirmed. -/
  deleter : List Obj
  /-- The tasks whose flush is done. -/
  notified : List ℕ
  /-- The updates that were stored. -/
  visible : List Upd

variable {Tenant Timeline Obj Upd : Type}

/-- The lists that were trimmed in the validation under way. -/
def ValidatorTask.trimmed :
    ValidatorTask Tenant Timeline Obj Upd → List (DeletionList Tenant Obj)
  | .trimming _ _ trimmed _ => trimmed
  | _ => []

variable [DecidableEq Tenant] [DecidableEq Timeline]

/-! ## Deletion lists -/

variable (l : DeletionList Tenant Obj) (attached : Tenant → Option Generation)

namespace DeletionList

def new (sequence : ℕ) : DeletionList Tenant Obj := ⟨sequence, [], false⟩

def isEmpty (l : DeletionList Tenant Obj) : Bool := l.tenants.isEmpty

def len : ℕ := (l.tenants.map fun p ↦ p.2.objects.length).sum

/-- Add objects to the list, unless the tenant is in it with another generation. -/
def push (op : DeletionOp Tenant Obj) : Option (DeletionList Tenant Obj) :=
  if op.objects.isEmpty then some l
  else
    match l.tenants.find? fun p ↦ p.1 = op.tenant with
    | none => some { l with tenants := l.tenants ++ [(op.tenant, ⟨op.objects, op.generation⟩)] }
    | some entry =>
      if entry.2.generation ≠ op.generation then none
      else some { l with tenants := l.tenants.map fun p ↦
        if p.1 = op.tenant then (p.1, { p.2 with objects := p.2.objects ++ op.objects }) else p }

def intoRemotePaths : List Obj := l.tenants.flatMap (·.2.objects)

/-- What `validate` keeps: the tenants that the answer calls valid, in the generation that was asked
about. -/
def retain (generations : Tenant → Option Generation) (valid : Tenant → Bool) :
    List (Tenant × TenantDeletionList Obj) :=
  l.tenants.filter fun p ↦ valid p.1 && generations p.1 == some p.2.generation

/-- A tenant that is attached in the generation after the one in a list was not attached elsewhere
in between, so its objects count for the new generation. -/
def reattach (p : Tenant × TenantDeletionList Obj) : Tenant × TenantDeletionList Obj :=
  match attached p.1 with
  | some g => if g.previous = p.2.generation then (p.1, { p.2 with generation := g }) else p
  | none => p

/-- A list read at startup. -/
def recovered (validatedSequence : ℕ) (attached : Tenant → Option Generation) :
    DeletionList Tenant Obj :=
  if l.sequence ≤ validatedSequence then { l with validated := true }
  else { l with tenants := l.tenants.map (reattach attached) }

end DeletionList

namespace Disk

variable (d : Disk Tenant Obj)

def save (l : DeletionList Tenant Obj) : Disk Tenant Obj :=
  { d with lists := (l.sequence, l) :: d.lists.filter fun p ↦ p.1 ≠ l.sequence }

def remove (sequence : ℕ) : Disk Tenant Obj :=
  { d with lists := d.lists.filter fun p ↦ p.1 ≠ sequence }

def sorted : List (ℕ × DeletionList Tenant Obj) :=
  d.lists.insertionSort fun p p' ↦ p.1 ≤ p'.1

end Disk

/-! ## The clients -/

/-- `update_remote_consistent_lsn`: what was proposed in another generation is dropped. -/
def updateRemoteConsistentLsn (table : List (Tenant × TenantLsnState Timeline Upd))
    (tenant : Tenant) (timeline : Timeline) (generation : Generation) (upd : Upd) :
    List (Tenant × TenantLsnState Timeline Upd) :=
  match table.find? fun p ↦ p.1 = tenant with
  | none => table ++ [(tenant, ⟨[(timeline, upd)], generation⟩)]
  | some _ => table.map fun p ↦
    if p.1 = tenant then
      if p.2.generation ≠ generation then (p.1, ⟨[(timeline, upd)], generation⟩)
      else (p.1, { p.2 with timelines :=
        (timeline, upd) :: p.2.timelines.filter fun q ↦ q.1 ≠ timeline })
    else p

namespace Node

variable (n : Node Tenant Timeline Obj Upd) (msg : ListWriterQueueMessage Tenant Obj)

def send : Node Tenant Timeline Obj Upd :=
  { n with listWriter := { n.listWriter with rx := n.listWriter.rx ++ [msg] } }

/-! ## The list writer -/

variable (saved : Bool)

/-- `ListWriter::flush`, where `saved` says whether writing the list succeeds. -/
def flushList : Node Tenant Timeline Obj Upd :=
  if n.listWriter.pending.isEmpty then
    { n with
      listWriter := { n.listWriter with pendingFlushes := [] }
      notified := n.notified ++ n.listWriter.pendingFlushes }
  else if saved then
    { n with
      disk := n.disk.save n.listWriter.pending
      listWriter := { n.listWriter with
        pending := .new (n.listWriter.pending.sequence + 1), pendingFlushes := [] }
      validator := { n.validator with rx := n.validator.rx ++ [.delete n.listWriter.pending] }
      notified := n.notified ++ n.listWriter.pendingFlushes }
  else n

def setPending (l : DeletionList Tenant Obj) : Node Tenant Timeline Obj Upd :=
  { n with listWriter := { n.listWriter with pending := l } }

/-- A deletion goes to the pending list, or else to a new one; it is dropped if the pending list
cannot be written. -/
def ingest (op : DeletionOp Tenant Obj) (saved : Bool) : Node Tenant Timeline Obj Upd :=
  match n.listWriter.pending.push op with
  | some l => n.setPending l
  | none =>
    match (n.flushList saved).listWriter.pending.push op with
    | some l => (n.flushList saved).setPending l
    | none => n.flushList saved

/-- Load the lists from disk and pass them on in the order of their sequence numbers. -/
def recover (attached : Tenant → Option Generation) : Node Tenant Timeline Obj Upd :=
  let validatedSequence := n.disk.header.getD 0
  let lists := n.disk.sorted
  let sequence := lists.foldl (fun s p ↦ max s (p.1 + 1)) (validatedSequence + 1)
  { n with
    listWriter := { n.listWriter with
      pending := { n.listWriter.pending with sequence := sequence }, recovered := true }
    validator := { n.validator with rx := n.validator.rx ++
      (lists.map fun p ↦ .delete (p.2.recovered validatedSequence attached)) } }

/-- The end of a turn of the list writer's loop. -/
def flushIfNeeded : Node Tenant Timeline Obj Upd :=
  if deletionListTargetSize < n.listWriter.pending.len ∨ n.listWriter.pendingFlushes ≠ [] then
    n.flushList saved
  else n

/-- A turn of the list writer's loop with a message; `none` is a failed assertion. The list may be
written twice in it. -/
def receive (saved saved' : Bool) : Option (Node Tenant Timeline Obj Upd) :=
  match msg with
  | .delete op =>
    if n.listWriter.recovered then some ((n.ingest op saved).flushIfNeeded saved') else none
  | .flush w =>
    if n.listWriter.pending.isEmpty then
      some ({ n with notified := n.notified ++ [w] }.flushIfNeeded saved')
    else
      some ({ n with listWriter := { n.listWriter with
        pendingFlushes := n.listWriter.pendingFlushes ++ [w] } }.flushIfNeeded saved')
  | .flushExecute w =>
    some ({ n with validator := { n.validator with
      rx := n.validator.rx ++ [ValidatorQueueMessage.flush w] } }.flushIfNeeded saved')
  | .recover attached =>
    -- recovery happens once
    if n.listWriter.recovered then some n else some ((n.recover attached).flushIfNeeded saved')

def listWriterTurn (saved saved' : Bool) : Option (Node Tenant Timeline Obj Upd) :=
  match n.listWriter.rx with
  | [] => none
  | msg :: rest =>
    { n with listWriter := { n.listWriter with rx := rest } }.receive msg saved saved'

/-! ## The validator -/

def setTask (task : ValidatorTask Tenant Timeline Obj Upd) : Node Tenant Timeline Obj Upd :=
  { n with validator := { n.validator with task := task } }

variable (waiter : Option ℕ)

def flushed : Node Tenant Timeline Obj Upd :=
  { n.setTask .idle with notified := n.notified ++ waiter.toList }

/-- The validated lists go to the deleter. -/
def drain : Node Tenant Timeline Obj Upd :=
  if n.validator.validatedLists.isEmpty then n.flushed waiter
  else
    { n with
      validator := { n.validator with
        validatedLists := []
        task := .executing (n.validator.validatedLists.map DeletionList.sequence) waiter }
      deleter := n.deleter ++ n.validator.validatedLists.flatMap DeletionList.intoRemotePaths }

/-- The last generation of each tenant in the lists, in their order. -/
def listGenerations (lists : List (DeletionList Tenant Obj)) : Tenant → Option Generation :=
  lists.foldl (fun gens l ↦
    l.tenants.foldl (fun gens p ↦ Function.update gens p.1 (some p.2.generation)) gens) fun _ ↦ none

/-- The generations to ask about, with those of position updates where these are later. -/
def withUpdates (gens : Tenant → Option Generation)
    (updates : List (Tenant × TenantLsnState Timeline Upd)) : Tenant → Option Generation :=
  updates.foldl (fun gens p ↦
    let entry := (gens p.1).getD p.2.generation
    Function.update gens p.1 (some (if entry.lt p.2.generation then p.2.generation else entry)))
      gens

/-- The beginning of a flush of the validator, up to the request to the control plane. -/
def beginFlush : Node Tenant Timeline Obj Upd :=
  let n' := { n with lsnTable := [] }
  if n.validator.pendingLists.all DeletionList.isEmpty && n.lsnTable.isEmpty then n'.drain waiter
  else n'.setTask (.validating (withUpdates (listGenerations n.validator.pendingLists) n.lsnTable)
    n.lsnTable waiter)

/-- A message to the validator while it is idle. -/
def validatorReceive : Option (Node Tenant Timeline Obj Upd) :=
  match n.validator.task, n.validator.rx with
  | .idle, .delete l :: rest =>
    if l.validated then
      some { n with validator := { n.validator with
        rx := rest, validatedLists := n.validator.validatedLists ++ [l] } }
    else
      some { n with validator := { n.validator with
        rx := rest, pendingLists := n.validator.pendingLists ++ [l] } }
  | .idle, .flush w :: rest =>
    some ({ n with validator := { n.validator with rx := rest } }.beginFlush (some w))
  | _, _ => none

/-- A flush for no one: the deadline has passed, or there are many keys. -/
def autoflush : Option (Node Tenant Timeline Obj Upd) :=
  match n.validator.task with
  | .idle => some (n.beginFlush none)
  | _ => none

/-- The answer of the control plane. Positions of valid generations become visible. -/
def answer (valid : Tenant → Bool) : Option (Node Tenant Timeline Obj Upd) :=
  match n.validator.task with
  | .validating gens updates waiter =>
    some { n.setTask (.trimming gens valid [] waiter) with
      visible := n.visible ++ ((updates.filter fun p ↦
        valid p.1 && gens p.1 == some p.2.generation).flatMap fun p ↦ p.2.timelines.map (·.2)) }
  | _ => none

/-- Trim the next pending list. A list that has changed is written; if that fails, its objects are
leaked and the header must not advance any more. -/
def trimNext : Option (Node Tenant Timeline Obj Upd) :=
  match n.validator.task, n.validator.pendingLists with
  | .trimming gens valid trimmed waiter, l :: rest =>
    let l' := { l with tenants := l.retain gens valid, validated := true }
    if (l.retain gens valid).length = l.tenants.length then
      some { n with validator := { n.validator with
        pendingLists := rest, task := .trimming gens valid (trimmed ++ [l']) waiter } }
    else if saved then
      some { n with
        disk := n.disk.save l'
        validator := { n.validator with
          pendingLists := rest, task := .trimming gens valid (trimmed ++ [l']) waiter } }
    else
      some { n with validator := { n.validator with
        pendingLists := rest
        listWriteFailed := n.validator.listWriteFailed.or (some l.sequence)
        task := .trimming gens valid (trimmed ++ [{ l' with tenants := [] }]) waiter } }
  | _, _ => none

/-- The end of validation: the header is written, unless a list could not be. -/
def finishValidate : Option (Node Tenant Timeline Obj Upd) :=
  match n.validator.task, n.validator.pendingLists with
  | .trimming _ _ trimmed waiter, [] =>
    let n' := { n with validator := { n.validator with
      validatedLists := n.validator.validatedLists ++ trimmed } }
    match trimmed.getLast? with
    | some l =>
      if n.validator.listWriteFailed.isNone && saved then
        some ({ n' with disk := { n.disk with header := some l.sequence } }.drain waiter)
      else some (n'.drain waiter)
    | none => some (n'.drain waiter)
  | _, _ => none

/-- The deleter has deleted everything it was given. -/
def executed : Option (Node Tenant Timeline Obj Upd) :=
  match n.validator.task with
  | .executing sequences waiter =>
    some { n.setTask (.cleaning sequences waiter) with deleter := [] }
  | _ => none

def cleanNext : Option (Node Tenant Timeline Obj Upd) :=
  match n.validator.task with
  | .cleaning (s :: rest) waiter =>
    some { n.setTask (.cleaning rest waiter) with disk := n.disk.remove s }
  | .cleaning [] waiter => some (n.flushed waiter)
  | _ => none

def restarted (disk : Disk Tenant Obj) : Node Tenant Timeline Obj Upd where
  disk := disk
  listWriter := ⟨[], .new 1, [], false⟩
  validator := ⟨[], [], [], none, .idle⟩
  lsnTable := []
  deleter := []
  notified := []
  visible := []

end Node

end NeonStorage.Pageserver.DeletionQueue
