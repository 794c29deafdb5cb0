import NeonStorage.Pageserver.DeletionQueue.Model

/-!
# Deletions and stale generations: the invariant

The deletion queue of one pageserver, the control plane that issues generations, and restarts. Each
object that is enqueued carries as a ticket the generation and the time of its enqueueing, which the
queue does not look at. An object is *confirmed* if its generation, or the next one attached on the
same node, was the latest generation of the tenant at some validation after that.

What validation has found is remembered on disk in two ways: a list that was trimmed says so itself,
and all lists up to the sequence number in the header are validated. The invariant therefore has to
know, for every list on disk, that it is confirmed or is still on its way through the validator
(`Inv.covered`), in the order of the sequence numbers (`Inv.ordered`).
-/

namespace NeonStorage.Pageserver.DeletionQueue

open List

/-- An object to delete, with its tenant and the generation and time of its enqueueing. -/
structure Ticket (Tenant Path : Type) where
  tenant : Tenant
  generation : Generation
  time : ℕ
  path : Path

/-- A position that is to become visible, likewise. -/
structure LsnTicket (Tenant : Type) where
  tenant : Tenant
  generation : Generation
  time : ℕ
  lsn : ℕ

variable {Tenant Timeline Path : Type}

/-- What has happened in the control plane so far. -/
structure Facts (Tenant : Type) where
  now : ℕ
  /-- The latest generation that was issued for each tenant. -/
  latest : Tenant → Generation
  /-- The generations in which tenants were attached on this node. -/
  here : Set (Tenant × Generation)
  /-- The tenants that were called valid, with the time and with the latest generation then. -/
  validations : Set (ℕ × Tenant × Generation)

structure World (Tenant Timeline Path : Type) extends Facts Tenant where
  node : Node Tenant Timeline (Ticket Tenant Path) (LsnTicket Tenant)

namespace Facts

/-- At a validation after `time`, the generation was the latest one, or the next one was, attached
on this node. -/
def Confirmed (w : Facts Tenant) (o : Ticket Tenant Path) : Prop :=
  ∃ τ, o.time < τ ∧ ((τ, o.tenant, o.generation) ∈ w.validations ∨
    (τ, o.tenant, o.generation.next) ∈ w.validations ∧ (o.tenant, o.generation.next) ∈ w.here)

/-- Likewise for a position, which is never carried over to another generation. -/
def LsnConfirmed (w : Facts Tenant) (u : LsnTicket Tenant) : Prop :=
  ∃ τ, u.time < τ ∧ (τ, u.tenant, u.generation) ∈ w.validations

end Facts

def World.tick (w : World Tenant Timeline Path)
    (node : Node Tenant Timeline (Ticket Tenant Path) (LsnTicket Tenant)) :
    World Tenant Timeline Path :=
  { w with now := w.now + 1, node := node }

/-- The control plane calls tenants valid. -/
def World.confirm (w : World Tenant Timeline Path) (valid : Tenant → Bool)
    (node : Node Tenant Timeline (Ticket Tenant Path) (LsnTicket Tenant)) :
    World Tenant Timeline Path :=
  { w.tick node with
    validations := w.validations ∪ {v | ∃ t, valid t = true ∧ v = (w.now, t, w.latest t)} }

/-! ## What is known of a list -/

namespace DeletionList

variable {l : DeletionList Tenant (Ticket Tenant Path)}

/-- The list is as it was enqueued. -/
structure Exact (now : ℕ) (l : DeletionList Tenant (Ticket Tenant Path)) : Prop where
  keys : (l.tenants.map Prod.fst).Nodup
  generation : ∀ p ∈ l.tenants, p.2.generation ≠ .none
  ticket : ∀ p ∈ l.tenants, ∀ o ∈ p.2.objects,
    o.tenant = p.1 ∧ o.generation = p.2.generation ∧ o.time < now

/-- The generations in the list are those of the tickets, or next ones attached on this node. -/
def Fits (here : Set (Tenant × Generation)) (now : ℕ)
    (l : DeletionList Tenant (Ticket Tenant Path)) : Prop :=
  ∀ p ∈ l.tenants, ∀ o ∈ p.2.objects, o.tenant = p.1 ∧ o.time < now ∧
    (p.2.generation = o.generation ∨
      p.2.generation = o.generation.next ∧ (p.1, p.2.generation) ∈ here)

/-- All objects in the list are confirmed. -/
def Sound (w : Facts Tenant) (l : DeletionList Tenant (Ticket Tenant Path)) : Prop :=
  ∀ o ∈ l.intoRemotePaths, w.Confirmed o

theorem mem_intoRemotePaths {o : Ticket Tenant Path} :
    o ∈ l.intoRemotePaths ↔ ∃ p ∈ l.tenants, o ∈ p.2.objects := mem_flatMap

theorem exact_new {now sequence : ℕ} :
    (new sequence : DeletionList Tenant (Ticket Tenant Path)).Exact now :=
  ⟨nodup_nil, fun _ hp ↦ (nomatch hp), nofun⟩

theorem Exact.fits {here : Set (Tenant × Generation)} {now : ℕ} (h : l.Exact now) :
    l.Fits here now := by
  intro p hp o ho
  obtain ⟨ht, hg, hnow⟩ := h.ticket p hp o ho
  exact ⟨ht, hnow, .inl hg.symm⟩

end DeletionList

/-! ## Facts only grow -/

/-- `w'` knows at least what `w` knows. -/
structure Facts.Le (w w' : Facts Tenant) : Prop where
  now : w.now ≤ w'.now
  here : w.here ⊆ w'.here
  validations : w.validations ⊆ w'.validations

namespace Facts.Le

variable {w w' : Facts Tenant} {l : DeletionList Tenant (Ticket Tenant Path)}

theorem confirmed (hle : w.Le w') {o : Ticket Tenant Path} (h : w.Confirmed o) :
    w'.Confirmed o := by
  obtain ⟨τ, hτ, h⟩ := h
  exact ⟨τ, hτ, h.imp (@hle.validations _) (And.imp (@hle.validations _) (@hle.here _))⟩

theorem lsnConfirmed (hle : w.Le w') {u : LsnTicket Tenant} (h : w.LsnConfirmed u) :
    w'.LsnConfirmed u := by
  obtain ⟨τ, hτ, h⟩ := h
  exact ⟨τ, hτ, hle.validations h⟩

theorem sound (hle : w.Le w') (h : l.Sound w) : l.Sound w' :=
  fun o ho ↦ hle.confirmed (h o ho)

theorem exact (hle : w.Le w') (h : l.Exact w.now) : l.Exact w'.now := by
  refine ⟨h.keys, h.generation, fun p hp o ho ↦ ?_⟩
  obtain ⟨ht, hg, hnow⟩ := h.ticket p hp o ho
  exact ⟨ht, hg, hnow.trans_le hle.now⟩

theorem fits (hle : w.Le w') (h : l.Fits w.here w.now) : l.Fits w'.here w'.now := by
  intro p hp o ho
  obtain ⟨ht, hnow, hg⟩ := h p hp o ho
  exact ⟨ht, hnow.trans_le hle.now, hg.imp_right (And.imp_right (@hle.here _))⟩

end Facts.Le

/-! ## The invariant -/

def ValidatorQueueMessage.list? {Obj : Type} :
    ValidatorQueueMessage Tenant Obj → Option (DeletionList Tenant Obj)
  | .delete l => some l
  | .flush _ => none

/-- The lists that wait for the validator or for validation. -/
def Validator.backlog {Obj Upd : Type} (v : Validator Tenant Timeline Obj Upd) :
    List (DeletionList Tenant Obj) :=
  v.pendingLists ++ v.rx.filterMap ValidatorQueueMessage.list?

/-- A validated list is sound, another one fits. -/
structure DeletionList.Good (w : Facts Tenant)
    (l : DeletionList Tenant (Ticket Tenant Path)) : Prop where
  pos : 1 ≤ l.sequence
  sound : l.validated = true → l.Sound w
  fits : l.validated = false → l.Fits w.here w.now

/-- The positions in a table are of the tenant and generation that they are listed under. -/
def LsnFits (w : Facts Tenant)
    (table : List (Tenant × TenantLsnState Timeline (LsnTicket Tenant))) : Prop :=
  ∀ p ∈ table, ∀ q ∈ p.2.timelines,
    q.2.tenant = p.1 ∧ q.2.generation = p.2.generation ∧ q.2.time < w.now

/-- What is on disk can be trusted as far as it says it can. -/
structure DiskInv (w : Facts Tenant) (d : Disk Tenant (Ticket Tenant Path)) :
    Prop where
  keys : (d.lists.map Prod.fst).Nodup
  key : ∀ p ∈ d.lists, p.2.sequence = p.1 ∧ 1 ≤ p.1
  validated : ∀ p ∈ d.lists, p.2.validated = true → p.2.Sound w
  exact : ∀ p ∈ d.lists, p.2.validated = false → p.2.Exact w.now
  header : ∀ h ∈ d.header, ∀ p ∈ d.lists, p.1 ≤ h → p.2.Sound w

variable {d : Disk Tenant (Ticket Tenant Path)} {l : DeletionList Tenant (Ticket Tenant Path)}

theorem DiskInv.save {w : Facts Tenant}
    (h : DiskInv w d) (hseq : 1 ≤ l.sequence) (hv : l.validated = true → l.Sound w)
    (he : l.validated = false → l.Exact w.now)
    (hheader : ∀ i ∈ d.header, l.sequence ≤ i → l.Sound w) : DiskInv w (d.save l) := by
  have hsub : (d.lists.filter fun p ↦ p.1 ≠ l.sequence).Sublist d.lists := filter_sublist
  have hcase : ∀ P : ℕ × DeletionList Tenant (Ticket Tenant Path) → Prop, P (l.sequence, l) →
      (∀ p ∈ d.lists, P p) → ∀ p ∈ (d.save l).lists, P p := by
    intro P hl hd p hp
    rcases mem_cons.mp hp with rfl | hp
    · exact hl
    · exact hd p (hsub.mem hp)
  refine ⟨?_, hcase _ ⟨rfl, hseq⟩ h.key, hcase _ hv h.validated, hcase _ he h.exact,
    fun i hi ↦ hcase _ (hheader i hi) (h.header i hi)⟩
  rw [Disk.save, map_cons, nodup_cons]
  refine ⟨fun hmem ↦ ?_, h.keys.sublist (hsub.map Prod.fst)⟩
  obtain ⟨p, hp, hpl⟩ := mem_map.mp hmem
  simp at hp
  exact hp.2 hpl

theorem mem_save {p : ℕ × DeletionList Tenant (Ticket Tenant Path)} (hp : p ∈ (d.save l).lists) :
    p = (l.sequence, l) ∨ p ∈ d.lists ∧ p.1 ≠ l.sequence := by
  rcases mem_cons.mp hp with hp | hp
  · exact .inl hp
  · exact .inr (by simpa using mem_filter.mp hp)

structure Inv (w : World Tenant Timeline Path) : Prop where
  disk : DiskInv w.toFacts w.node.disk
  ops : ∀ op, .delete op ∈ w.node.listWriter.rx → op.generation ≠ .none ∧
    ∀ o ∈ op.objects, o.tenant = op.tenant ∧ o.generation = op.generation ∧ o.time < w.now
  attached : ∀ a, .recover a ∈ w.node.listWriter.rx → ∀ t g, a t = some g → (t, g) ∈ w.here
  pending : w.node.listWriter.pending.Exact w.now ∧
    w.node.listWriter.pending.validated = false
  backlog : ∀ l ∈ w.node.validator.backlog, l.Good w.toFacts
  unvalidated : ∀ l ∈ w.node.validator.pendingLists, l.validated = false
  validated : ∀ l ∈ w.node.validator.validatedLists ++ w.node.validator.task.trimmed,
    l.Sound w.toFacts
  deleter : ∀ o ∈ w.node.deleter, w.Confirmed o
  lsnTable : LsnFits w.toFacts w.node.lsnTable
  question : ∀ gens updates waiter,
    w.node.validator.task = .validating gens updates waiter → LsnFits w.toFacts updates
  /-- What is being applied is the answer of a validation after everything it is applied to. -/
  answered : ∀ gens valid trimmed waiter,
    w.node.validator.task = .trimming gens valid trimmed waiter →
      ∃ τ, (∀ t g, valid t = true → gens t = some g → (τ, t, g) ∈ w.validations) ∧
        ∀ l ∈ w.node.validator.pendingLists, ∀ o ∈ l.intoRemotePaths, o.time < τ
  visible : ∀ u ∈ w.node.visible, w.LsnConfirmed u
  /-- Lists go through the validator in the order of their sequence numbers. -/
  ordered : ((w.node.validator.task.trimmed ++ w.node.validator.backlog).map
    DeletionList.sequence).Pairwise (· < ·)
  below : ∀ l ∈ w.node.validator.task.trimmed ++ w.node.validator.backlog,
    l.sequence < w.node.listWriter.pending.sequence
  positive : 1 ≤ w.node.listWriter.pending.sequence
  diskBelow : w.node.listWriter.recovered = true →
    (∀ p ∈ w.node.disk.lists, p.1 < w.node.listWriter.pending.sequence) ∧
      ∀ h ∈ w.node.disk.header, h < w.node.listWriter.pending.sequence
  /-- A list on disk is sound or has yet to be validated, unless a write failed. -/
  covered : w.node.listWriter.recovered = true → w.node.validator.listWriteFailed = none →
    ∀ p ∈ w.node.disk.lists, p.2.Sound w.toFacts ∨ ∃ l ∈ w.node.validator.backlog,
      l.validated = false ∧ l.sequence = p.1 ∧ ∀ o ∈ p.2.intoRemotePaths, o ∈ l.intoRemotePaths
  /-- Before recovery there are no lists. -/
  fresh : w.node.listWriter.recovered = false → w.node.listWriter.pending.tenants = [] ∧
    w.node.validator.backlog = [] ∧ w.node.validator.task.trimmed = []

inductive Initial : World Tenant Timeline Path → Prop
  | mk (latest : Tenant → Generation) : Initial ⟨⟨0, latest, ∅, ∅⟩, .restarted ⟨[], none⟩⟩

namespace Inv

variable {w : World Tenant Timeline Path}

theorem initial (h : Initial w) : Inv w := by
  obtain ⟨latest⟩ := h
  constructor
  case disk => constructor <;> simp [Node.restarted]
  case pending => exact ⟨DeletionList.exact_new, rfl⟩
  all_goals
    simp [Node.restarted, DeletionList.new, Validator.backlog, ValidatorTask.trimmed, LsnFits]

theorem mono {w' : World Tenant Timeline Path} (h : Inv w) (hle : w.toFacts.Le w'.toFacts)
    (hnode : w'.node = w.node) : Inv w' := by
  have hgood : ∀ l : DeletionList Tenant (Ticket Tenant Path), l.Good w.toFacts →
    l.Good w'.toFacts :=
    fun l hl ↦ ⟨hl.pos, fun hv ↦ hle.sound (hl.sound hv), fun hv ↦ hle.fits (hl.fits hv)⟩
  have hlsn : ∀ table : List (Tenant × TenantLsnState Timeline (LsnTicket Tenant)),
      LsnFits w.toFacts table → LsnFits w'.toFacts table := fun table ht p hp q hq ↦ by
    obtain ⟨h₁, h₂, h₃⟩ := ht p hp q hq
    exact ⟨h₁, h₂, h₃.trans_le hle.now⟩
  constructor <;> rw [hnode]
  case disk =>
    exact ⟨h.disk.keys, h.disk.key, fun p hp hv ↦ hle.sound (h.disk.validated p hp hv),
      fun p hp hv ↦ hle.exact (h.disk.exact p hp hv),
      fun i hi p hp hpi ↦ hle.sound (h.disk.header i hi p hp hpi)⟩
  case ops =>
    intro op hop
    refine ⟨(h.ops op hop).1, fun o ho ↦ ?_⟩
    obtain ⟨h₁, h₂, h₃⟩ := (h.ops op hop).2 o ho
    exact ⟨h₁, h₂, h₃.trans_le hle.now⟩
  case attached => exact fun a ha t g hg ↦ hle.here (h.attached a ha t g hg)
  case pending => exact ⟨hle.exact h.pending.1, h.pending.2⟩
  case backlog => exact fun l hl ↦ hgood l (h.backlog l hl)
  case unvalidated => exact h.unvalidated
  case validated => exact fun l hl ↦ hle.sound (h.validated l hl)
  case deleter => exact fun o ho ↦ hle.confirmed (h.deleter o ho)
  case lsnTable => exact hlsn _ h.lsnTable
  case question => exact fun gens updates waiter ht ↦ hlsn _ (h.question gens updates waiter ht)
  case answered =>
    intro gens valid trimmed waiter ht
    obtain ⟨τ, hv, ho⟩ := h.answered gens valid trimmed waiter ht
    exact ⟨τ, fun t g hvt hg ↦ hle.validations (hv t g hvt hg), ho⟩
  case visible => exact fun u hu ↦ hle.lsnConfirmed (h.visible u hu)
  case ordered => exact h.ordered
  case below => exact h.below
  case positive => exact h.positive
  case diskBelow => exact h.diskBelow
  case covered =>
    exact fun hr hf p hp ↦ (h.covered hr hf p hp).imp_left hle.sound
  case fresh => exact h.fresh

theorem ticked (h : Inv w) : Inv (w.tick w.node) :=
  h.mono ⟨Nat.le_succ _, subset_rfl, subset_rfl⟩ rfl

theorem setRx (h : Inv w) (rx : List (ValidatorQueueMessage Tenant (Ticket Tenant Path)))
    (hrx : rx.filterMap ValidatorQueueMessage.list? =
      w.node.validator.rx.filterMap ValidatorQueueMessage.list?) :
    Inv { w with node := { w.node with validator := { w.node.validator with rx := rx } } } := by
  have hbacklog : ({ w.node.validator with rx := rx } :
      Validator Tenant Timeline _ _).backlog = w.node.validator.backlog := by
    rw [Validator.backlog, Validator.backlog, hrx]
  exact { h with
    backlog := by rw [hbacklog]; exact h.backlog
    ordered := by rw [hbacklog]; exact h.ordered
    below := by rw [hbacklog]; exact h.below
    covered := by rw [hbacklog]; exact h.covered
    fresh := by rw [hbacklog]; exact h.fresh }

end Inv

/-! ## Steps -/

variable [DecidableEq Tenant] [DecidableEq Timeline]

/-- The steps of the control plane, of the clients of the queue and of its tasks. Writing a file may
fail, and the process may end at any time. -/
inductive Step : World Tenant Timeline Path → World Tenant Timeline Path → Prop
  | issue {w : World Tenant Timeline Path} (t : Tenant) (g : Generation)
      (hg : (w.latest t).lt g = true) :
    Step w { w.tick w.node with latest := Function.update w.latest t g }
  | attach {w : World Tenant Timeline Path} (t : Tenant) (g : Generation) :
    Step w { w.tick w.node with here := insert (t, g) w.here }
  | enqueue {w : World Tenant Timeline Path} (t : Tenant) (g : Generation) (paths : List Path)
      (hg : (t, g) ∈ w.here) (hnone : g ≠ .none) :
    Step w (w.tick (w.node.send (.delete ⟨t, paths.map fun p ↦ ⟨t, g, w.now, p⟩, g⟩)))
  | publish {w : World Tenant Timeline Path} (t : Tenant) (tl : Timeline) (g : Generation) (lsn : ℕ)
      (hg : (t, g) ∈ w.here) :
    Step w (w.tick { w.node with
      lsnTable := updateRemoteConsistentLsn w.node.lsnTable t tl g ⟨t, g, w.now, lsn⟩ })
  | flush {w : World Tenant Timeline Path} (waiter : ℕ) :
    Step w (w.tick (w.node.send (.flush waiter)))
  | flushExecute {w : World Tenant Timeline Path} (waiter : ℕ) :
    Step w (w.tick (w.node.send (.flushExecute waiter)))
  | listWriterTurn {w : World Tenant Timeline Path} (saved saved' : Bool) {n}
      (h : w.node.listWriterTurn saved saved' = some n) : Step w (w.tick n)
  | listWriterDeadline {w : World Tenant Timeline Path} (saved : Bool) :
    Step w (w.tick (w.node.flushList saved))
  | validatorReceive {w : World Tenant Timeline Path} {n}
      (h : w.node.validatorReceive = some n) : Step w (w.tick n)
  | autoflush {w : World Tenant Timeline Path} {n} (h : w.node.autoflush = some n) :
    Step w (w.tick n)
  /-- A generation is called valid only if it is the latest one. -/
  | answer {w : World Tenant Timeline Path} (valid : Tenant → Bool) {gens updates waiter n}
      (htask : w.node.validator.task = .validating gens updates waiter)
      (hvalid : ∀ t, valid t = true → gens t = some (w.latest t))
      (h : w.node.answer valid = some n) :
    Step w (w.confirm valid n)
  | trimNext {w : World Tenant Timeline Path} (saved : Bool) {n}
      (h : w.node.trimNext saved = some n) : Step w (w.tick n)
  | finishValidate {w : World Tenant Timeline Path} (saved : Bool) {n}
      (h : w.node.finishValidate saved = some n) : Step w (w.tick n)
  | executed {w : World Tenant Timeline Path} {n} (h : w.node.executed = some n) :
    Step w (w.tick n)
  | cleanNext {w : World Tenant Timeline Path} {n} (h : w.node.cleanNext = some n) :
    Step w (w.tick n)
  | crash {w : World Tenant Timeline Path} : Step w (w.tick (.restarted w.node.disk))
  /-- The generations of the restart are passed on to the queue. -/
  | recover {w : World Tenant Timeline Path} (attached : Tenant → Option Generation)
      (h : ∀ t g, attached t = some g → (t, g) ∈ w.here) :
    Step w (w.tick (w.node.send (.recover attached)))

def Reachable (w : World Tenant Timeline Path) : Prop :=
  ∃ w₀, Initial w₀ ∧ Relation.ReflTransGen Step w₀ w

end NeonStorage.Pageserver.DeletionQueue
