import NeonStorage.StorageController.SchedulerCounts

/-!
# Runs of the scheduler

The counters of the scheduler stay exact, and no assertion fails, in every run whose operations meet
`State.Admissible`. What it asks for is what the code takes for granted:

* a node that is not yet known is added when no intent refers to it, and the locations of a shard
  are on known nodes when its intent is changed;
* a shard under `Attached(n)` is scheduled when it has no secondary, or `n` of them at least: the
  loop that adds the missing ones does not exclude the nodes of the others;
* `deref_node` is called for a node that the scheduler does not know any more, since it does not
  touch the counters;
* an optimization that creates a secondary is not applied when the node has become the attached one.
-/

namespace NeonStorage.StorageController.Scheduling

open List TenantShard
variable {Z : Type} {S S' : Scheduler Z} {rest : ℕ → Counts} {s : TenantShard Z}

variable {n : ℕ}

namespace TenantShard

open NeonStorage.StorageController.Scheduling.IntentState

theorem observedAttached_mem (h : s.observedAttached = some n) :
    n ∈ s.observed.locations.map Prod.fst := by
  unfold observedAttached at h
  dsimp only at h
  split at h
  · cases h
  · rename_i l ls hlocs
    cases h
    have hloc := hlocs ▸ foldl_pick_mem (fun l best : ℕ × ℕ ↦ best.2 ≤ l.2) ls l
    obtain ⟨loc, hloc, heq⟩ := mem_filterMap.mp hloc
    refine mem_map.mpr ⟨loc, hloc, ?_⟩
    split at heq
    · split at heq
      · exact congrArg Prod.fst (Option.some.inj heq)
      · cases heq
    · cases heq

theorem derefNode_nodup (n : ℕ) (h : s.intent.allPageservers.Nodup) :
    (s.derefNode n).intent.allPageservers.Nodup := by
  rw [nodup_allPageservers] at h ⊢
  refine ⟨h.1.filter _, fun a ha hmem ↦ h.2 a ?_ (mem_of_mem_filter hmem)⟩
  dsimp only [derefNode] at ha
  split at ha
  · cases ha
  · exact ha

variable [DecidableEq Z]

/-- Under `Attached(n)`, the shard has no secondary once it is attached, or `n` of them at least. -/
def AllOrNone (s : TenantShard Z) (S : Scheduler Z) : Prop :=
  match s.policy with
  | .attached count => s.secondariesLeft S = [] ∨ count ≤ (s.secondariesLeft S).length
  | _ => True

section

variable (h : Ready rest S s.intent)
include h

theorem fulfilPolicy_spec (context : ScheduleContext) (hleft : s.AllOrNone S) :
    ∃ d, s.fulfilPolicy S context = some d ∧ Sound rest S d ∧
      ∀ count, s.policy = .attached count → d.error = none → d.intent.Fulfils count := by
  unfold fulfilPolicy
  unfold AllOrNone at hleft
  cases hp : s.policy with
  | attached count =>
    rw [hp] at hleft
    obtain ⟨d, hd, hsound, hful⟩ := scheduleWithSecondaries_spec h context hleft
    exact ⟨d, hd, hsound, by rintro _ ⟨⟩; exact hful⟩
  | secondary =>
    obtain ⟨d, hd, hsound⟩ := scheduleSecondaryOnly_spec h context
    exact ⟨d, hd, hsound, nofun⟩
  | detached =>
    obtain ⟨d, hd, hsound⟩ := scheduleDetached_spec h
    exact ⟨d, hd, hsound, nofun⟩

/-- **Scheduling a shard** succeeds or ends with a scheduling error, and the counters stay exact; a
success under `Attached(n)` places the shard, unless its scheduling is paused. -/
theorem schedule_spec (context : ScheduleContext) (hleft : s.AllOrNone S) :
    ∃ S' s' e, s.schedule S context = some (S', s', e) ∧ SameNodes S S' ∧
      Ready rest S' s'.intent ∧
      ∀ count, s.policy = .attached count → s.schedulingPolicy ≠ .pause →
        s.schedulingPolicy ≠ .stop → e = none → s'.intent.Fulfils count := by
  unfold schedule
  split
  · rename_i hpaused
    exact ⟨S, s, none, rfl, .refl S, h, fun _ _ hpause hstop _ ↦
      (hpaused.elim hpause hstop).elim⟩
  obtain ⟨d, hd, hsound, hful⟩ := fulfilPolicy_spec h context hleft
  have hintent : (s.finishSchedule d).2.1.intent = d.intent := by
    unfold finishSchedule
    split <;> rfl
  rw [hd]
  refine ⟨d.scheduler, (s.finishSchedule d).2.1, d.error, rfl, hsound.same, ?_,
    fun count hp _ _ herr ↦ ?_⟩
  · rw [hintent]
    exact hsound.ready
  · rw [hintent]
    exact hful count hp herr

theorem rescheduleToSecondary_spec {promoteTo : Option ℕ}
    (hmem : ∀ n ∈ promoteTo, n ∈ s.intent.secondary) :
    ∃ S' s', s.rescheduleToSecondary S promoteTo = some (S', s') ∧ SameNodes S S' ∧
      Ready rest S' s'.intent := by
  obtain ⟨target, htarget, hspec⟩ : ∃ target,
      (promoteTo.elim (s.preferredSecondary S) fun n ↦ some (some n)) = some target ∧
        ∀ n ∈ target, n ∈ s.intent.secondary := by
    cases promoteTo with
    | none => exact preferredSecondary_spec h
    | some n => exact ⟨some n, rfl, hmem⟩
  rw [rescheduleToSecondary, htarget]
  cases target with
  | none => exact ⟨S, s, rfl, .refl S, h⟩
  | some n =>
    have hn := hspec n rfl
    obtain ⟨S₁, I₁, hS₁, hsame₁, hready₁, hatt₁, hn₁⟩ : ∃ S₁ I₁,
        (s.intent.attached.elim (some (S, s.intent)) (s.intent.demoteAttached S)) =
          some (S₁, I₁) ∧ SameNodes S S₁ ∧ Ready rest S₁ I₁ ∧ I₁.attached = none ∧
            n ∈ I₁.secondary := by
      cases hatt : s.intent.attached with
      | none => exact ⟨S, s.intent, rfl, .refl S, h, hatt, hn⟩
      | some a =>
        obtain ⟨S₁, hS₁, hsame₁, hready₁⟩ := h.demoteAttached hatt
        exact ⟨S₁, _, hS₁, hsame₁, hready₁, rfl, mem_append_left _ hn⟩
    obtain ⟨S₂, hS₂, hsame₂, hready₂⟩ := hready₁.promoteAttached hatt₁ hn₁
    simp only [if_pos hn, hS₁, Option.bind_some, hS₂]
    exact ⟨_, _, rfl, hsame₁.trans hsame₂, hready₂⟩

end

theorem pushObserved_spec {I : IntentState Z} {nodes : List ℕ} (h : Ready rest S I)
    (hnd : nodes.Nodup) (hnodes : ∀ m ∈ nodes, m ∈ S.ids ∧ m ∉ I.secondary) :
    ∃ S' I', pushObserved S I nodes = some (S', I') ∧ SameNodes S S' ∧ Ready rest S' I' := by
  induction nodes generalizing S I with
  | nil => exact ⟨S, I, rfl, .refl S, h⟩
  | cons a nodes ih =>
    obtain ⟨ha, hnd⟩ := nodup_cons.mp hnd
    rw [pushObserved, foldlM_cons]
    by_cases hatt : I.attached = some a
    · simp only [hatt]
      exact ih h hnd fun m hm ↦ hnodes m (mem_cons_of_mem a hm)
    · obtain ⟨hid, hsec⟩ := hnodes a mem_cons_self
      obtain ⟨S₁, hS₁, hsame₁, hready₁⟩ := h.pushSecondary hid fun hmem ↦
        (mem_allPageservers.mp hmem).elim hatt hsec
      simp only [hatt, hS₁]
      obtain ⟨S', I', hS', hsame', hready'⟩ := ih hready₁ hnd fun m hm ↦ by
        obtain ⟨hid, hsec⟩ := hnodes m (mem_cons_of_mem a hm)
        refine ⟨hsame₁.ids ▸ hid, fun hmem ↦ ?_⟩
        rcases mem_append.mp hmem with hmem | hmem
        · exact hsec hmem
        · exact ha (mem_singleton.mp hmem ▸ hm)
      exact ⟨S', I', hS', hsame₁.trans hsame', hready'⟩

section

variable (h : Ready rest S s.intent)
include h

theorem intentFromObserved_spec
    (hobs : ∀ n ∈ s.observed.locations.map Prod.fst, n ∈ S.ids ∧ n ∉ s.intent.secondary) :
    ∃ S' s', s.intentFromObserved S = some (S', s') ∧ SameNodes S S' ∧ Ready rest S' s'.intent := by
  obtain ⟨S₁, I₁, hS₁, hsame₁, hready₁, hsec₁⟩ : ∃ S₁ I₁,
      (s.observedAttached.elim (some (S, s.intent)) fun n ↦ s.intent.setAttached S (some n)) =
        some (S₁, I₁) ∧ SameNodes S S₁ ∧ Ready rest S₁ I₁ ∧
          I₁.secondary = s.intent.secondary := by
    cases hatt : s.observedAttached with
    | none => exact ⟨S, s.intent, rfl, .refl S, h, rfl⟩
    | some n =>
      obtain ⟨hid, hsec⟩ := hobs n (observedAttached_mem hatt)
      obtain ⟨S₁, hS₁, hsame₁, hready₁⟩ := h.setAttached hid hsec
      exact ⟨S₁, _, hS₁, hsame₁, hready₁, rfl⟩
  obtain ⟨S₂, I₂, hS₂, hsame₂, hready₂⟩ := pushObserved_spec hready₁ s.observed.nodup
    fun m hm ↦ by
      rw [hsame₁.ids, hsec₁]
      exact hobs m hm
  refine ⟨S₂, { s with intent := I₂ }, ?_, hsame₁.trans hsame₂, hready₂⟩
  rw [intentFromObserved, hS₁, Option.bind_some, hS₂]
  rfl

/-- What `validate_optimization` leaves open: the new node is known, and a secondary is not created
on the attached node. -/
def Applicable (I : IntentState Z) (S : Scheduler Z) : ScheduleOptimizationAction → Prop
  | .replaceSecondary _ newNode => newNode ∈ S.ids
  | .createSecondary newNode => newNode ∈ S.ids ∧ I.attached ≠ some newNode
  | _ => True

theorem applyAction_spec {action : ScheduleOptimizationAction}
    (hvalid : s.validateOptimization action) (happ : Applicable s.intent S action) :
    ∃ I', Succeeds rest S (applyAction S s.intent action) I' := by
  cases action with
  | migrateAttachment oldAttached newAttached =>
    simp only [validateOptimization, Bool.and_eq_true, decide_eq_true_eq,
      contains_iff_mem] at hvalid
    obtain ⟨S₁, hS₁, hsame₁, hready₁⟩ := h.demoteAttached hvalid.1
    obtain ⟨S₂, hS₂, hsame₂, hready₂⟩ := hready₁.promoteAttached rfl
      (mem_append_left _ hvalid.2)
    refine ⟨_, S₂, ?_, hsame₁.trans hsame₂, hready₂⟩
    rw [applyAction, hS₁, Option.bind_some, hS₂]
  | replaceSecondary oldNode newNode =>
    simp only [validateOptimization, Bool.and_eq_true, decide_eq_true_eq, Bool.not_eq_true',
      ← Bool.not_eq_true, contains_iff_mem] at hvalid
    obtain ⟨S₁, hS₁, hsame₁, hready₁⟩ := h.removeSecondary oldNode
    obtain ⟨S₂, hS₂, hsame₂, hready₂⟩ := hready₁.pushSecondary (hsame₁.ids ▸ happ) fun hmem ↦
      (mem_allPageservers.mp hmem).elim hvalid.2 fun hmem ↦
        hvalid.1 (mem_of_mem_erase hmem)
    refine ⟨_, S₂, ?_, hsame₁.trans hsame₂, hready₂⟩
    rw [applyAction, hS₁, Option.bind_some, hS₂]
  | createSecondary newNode =>
    simp only [validateOptimization, Bool.not_eq_true', ← Bool.not_eq_true,
      contains_iff_mem] at hvalid
    exact ⟨_, h.pushSecondary happ.1 fun hmem ↦ (mem_allPageservers.mp hmem).elim happ.2 hvalid⟩
  | removeSecondary oldSecondary => exact ⟨_, h.removeSecondary oldSecondary⟩

theorem applyOptimization_spec {opt : ScheduleOptimization}
    (hopt : opt.sequence = s.sequence → Applicable s.intent S opt.action) :
    ∃ S' s', s.applyOptimization S opt = some (S', s') ∧ SameNodes S S' ∧
      Ready rest S' s'.intent := by
  unfold applyOptimization
  split
  · exact ⟨S, s, rfl, .refl S, h⟩
  rename_i hvalid
  rw [not_or, not_not, not_not] at hvalid
  obtain ⟨I', S', hr, hsame, hready⟩ := applyAction_spec h hvalid.2 (hopt hvalid.1)
  exact ⟨S', { s with intent := I' }, by rw [hr]; rfl, hsame, hready⟩

end

theorem derefNode_counts {m : ℕ} (az : Z) (h : m = n → n ∉ s.intent.allPageservers) :
    (s.derefNode n).intent.counts az m = s.intent.counts az m := by
  have hatts : (s.derefNode n).intent.atts m = s.intent.atts m := by
    by_cases hatt : s.intent.attached = some n
    · have hm : n ≠ m := fun hnm ↦ h hnm.symm (mem_allPageservers.mpr (.inl hatt))
      simp [derefNode, atts, hatt, hm]
    · simp [derefNode, atts, hatt]
  have hsec : (s.derefNode n).intent.secondary.count m = s.intent.secondary.count m := by
    by_cases hm : m = n
    · have hmem : m ∉ s.intent.secondary := fun hmem ↦
        h hm (mem_allPageservers.mpr (.inr (hm ▸ hmem)))
      rw [count_eq_zero.mpr hmem]
      exact count_eq_zero.mpr fun hm ↦ hmem (mem_of_mem_filter hm)
    · exact count_filter (by simpa using hm)
  unfold counts
  rw [locs_eq, locs_eq, hatts, hsec]
  rfl

end TenantShard

/-! ## What the operations take for granted -/

def TenantShard.Known (s : TenantShard Z) (S : Scheduler Z) : Prop :=
  ∀ n ∈ s.intent.allPageservers, n ∈ S.ids
  deriving Decidable

variable [DecidableEq Z]

/-- What an operation on a shard takes for granted. -/
def Op.Fits (S : Scheduler Z) (s : TenantShard Z) : Op Z → Prop
  | .setPreferredAz _ _ => s.Known S
  | .schedule _ _ => s.Known S ∧ s.AllOrNone S
  | .rescheduleToSecondary _ promoteTo => s.Known S ∧ ∀ n ∈ promoteTo, n ∈ s.intent.secondary
  | .intentFromObserved _ => s.Known S ∧
    ∀ n ∈ s.observed.locations.map Prod.fst, n ∈ S.ids ∧ n ∉ s.intent.secondary
  | .derefNode _ node => node ∈ S.ids → node ∉ s.intent.allPageservers
  | .applyOptimization _ opt => s.Known S ∧
    (opt.sequence = s.sequence → TenantShard.Applicable s.intent S opt.action)
  | _ => True

instance (s : TenantShard Z) (S : Scheduler Z) : Decidable (s.AllOrNone S) := by
  unfold TenantShard.AllOrNone
  split <;> infer_instance

instance (I : IntentState Z) (S : Scheduler Z) (action : ScheduleOptimizationAction) :
    Decidable (TenantShard.Applicable I S action) := by
  unfold TenantShard.Applicable
  split <;> infer_instance

instance (S : Scheduler Z) (s : TenantShard Z) (op : Op Z) : Decidable (op.Fits S s) := by
  unfold Op.Fits
  split <;> infer_instance

/-- **An operation on a shard** succeeds, and the counters account for its new intent. -/
theorem Op.onShard_spec {op : Op Z} (h : Accounts rest S s.intent)
    (hnd : s.intent.allPageservers.Nodup) (hfits : op.Fits S s) :
    ∃ S' s', op.onShard S s = some (S', s') ∧ SameNodes S S' ∧ Accounts rest S' s'.intent ∧
      s'.intent.allPageservers.Nodup := by
  cases op with
  | setPreferredAz shard az =>
    obtain ⟨S', hr, hsame, hready⟩ := (Ready.mk h hnd hfits).setPreferredAz az
    exact ⟨S', { s with intent := _ }, by rw [Op.onShard, hr]; rfl, hsame, hready.accounts,
      hready.nodup⟩
  | schedule shard context =>
    obtain ⟨S', s', e, hr, hsame, hready, -⟩ := schedule_spec ⟨h, hnd, hfits.1⟩ context hfits.2
    exact ⟨S', s', by rw [Op.onShard, hr]; rfl, hsame, hready.accounts, hready.nodup⟩
  | rescheduleToSecondary shard promoteTo =>
    obtain ⟨S', s', hr, hsame, hready⟩ := rescheduleToSecondary_spec ⟨h, hnd, hfits.1⟩ hfits.2
    exact ⟨S', s', hr, hsame, hready.accounts, hready.nodup⟩
  | intentFromObserved shard =>
    obtain ⟨S', s', hr, hsame, hready⟩ := intentFromObserved_spec ⟨h, hnd, hfits.1⟩ hfits.2
    exact ⟨S', s', hr, hsame, hready.accounts, hready.nodup⟩
  | applyOptimization shard opt =>
    obtain ⟨S', s', hr, hsame, hready⟩ := applyOptimization_spec ⟨h, hnd, hfits.1⟩ hfits.2
    exact ⟨S', s', hr, hsame, hready.accounts, hready.nodup⟩
  | derefNode shard node =>
    refine ⟨S, s.derefNode node, rfl, .refl S, ⟨h.rest_le, fun n hn ↦ ?_⟩, derefNode_nodup node hnd⟩
    rw [derefNode_counts _ fun heq ↦ hfits (heq ▸ hn)]
    exact h.eq n hn
  | _ => exact ⟨S, _, rfl, .refl S, h, hnd⟩

/-! ## All shards -/

variable (tenants : List (ℕ × TenantShard Z))

/-- The numbers that `consistency_check` recomputes for a node in the zone. -/
def recomputed (az : Z) (n : ℕ) : Counts :=
  (tenants.map fun t ↦ t.2.intent.counts az n).sum

theorem recomputed_cons (t : ℕ × TenantShard Z) (tenants : List (ℕ × TenantShard Z)) (az : Z)
    (n : ℕ) : recomputed (t :: tenants) az n =
      t.2.intent.counts az n + recomputed tenants az n := by
  rfl

theorem IntentState.home_le (I : IntentState Z) (az : Z) (n : ℕ) :
    (I.counts az n).2.2 ≤ (I.counts az n).1 := by
  unfold IntentState.counts
  dsimp only
  split <;> omega

theorem recomputed_home_le (az : Z) (n : ℕ) :
    (recomputed tenants az n).2.2 ≤ (recomputed tenants az n).1 := by
  induction tenants with
  | nil => exact le_rfl
  | cons t tenants ih =>
    exact Nat.add_le_add (t.2.intent.home_le az n) ih

/-- The counters are what the shards contribute, and others. -/
structure Exact (others : ℕ → Counts) (S : Scheduler Z) (tenants : List (ℕ × TenantShard Z)) :
    Prop where
  others_le : ∀ n, (others n).2.2 ≤ (others n).1
  eq : ∀ n ∈ S.ids, (S.node n).counts = others n + recomputed tenants (S.node n).az n
  nodup : ∀ t ∈ tenants, t.2.intent.allPageservers.Nodup

namespace Exact

variable {others : ℕ → Counts} {t t' : ℕ × TenantShard Z} {tenants : List (ℕ × TenantShard Z)}

section

variable (h : Exact others S (t :: tenants))
include h

theorem accounts :
    Accounts (fun n ↦ others n + recomputed tenants (S.node n).az n) S t.2.intent where
  rest_le n := Nat.add_le_add (h.others_le n) (recomputed_home_le tenants _ n)
  eq n hn := by
    rw [h.eq n hn, recomputed_cons, add_comm (t.2.intent.counts _ n), add_assoc]

theorem of_accounts (hsame : SameNodes S S')
    (hacc : Accounts (fun n ↦ others n + recomputed tenants (S.node n).az n) S' t'.2.intent)
    (hnd : t'.2.intent.allPageservers.Nodup) : Exact others S' (t' :: tenants) where
  others_le := h.others_le
  eq n hn := by
    rw [hacc.eq n hn, recomputed_cons, add_comm (t'.2.intent.counts _ n), hsame.az, add_assoc]
  nodup := forall_mem_cons.mpr ⟨hnd, (forall_mem_cons.mp h.nodup).2⟩

theorem tail : Exact (fun n ↦ others n + t.2.intent.counts (S.node n).az n) S tenants where
  others_le n := Nat.add_le_add (h.others_le n) (t.2.intent.home_le _ n)
  eq n hn := by rw [h.eq n hn, recomputed_cons, add_assoc]
  nodup := (forall_mem_cons.mp h.nodup).2

theorem of_tail {tenants' : List (ℕ × TenantShard Z)} (hsame : SameNodes S S')
    (h' : Exact (fun n ↦ others n + t.2.intent.counts (S.node n).az n) S' tenants') :
    Exact others S' (t :: tenants') where
  others_le := h.others_le
  eq n hn := by rw [h'.eq n hn, recomputed_cons, hsame.az, add_assoc]
  nodup := forall_mem_cons.mpr ⟨(forall_mem_cons.mp h.nodup).1, h'.nodup⟩

end

section

variable (h : Exact others S tenants)
include h

theorem exists_accounts (ht : t ∈ tenants) : ∃ rest, Accounts rest S t.2.intent := by
  induction tenants generalizing others with
  | nil => cases ht
  | cons t' tenants ih =>
    rcases mem_cons.mp ht with rfl | ht
    · exact ⟨_, h.accounts⟩
    · exact ih h.tail ht

theorem modifyShard {id : ℕ} {f : TenantShard Z → Option (Scheduler Z × TenantShard Z)}
    (hf : ∀ s, (id, s) ∈ tenants → ∀ rest, Accounts rest S s.intent →
      s.intent.allPageservers.Nodup → ∃ S' s', f s = some (S', s') ∧ SameNodes S S' ∧
        Accounts rest S' s'.intent ∧ s'.intent.allPageservers.Nodup) :
    ∃ st, modifyShard id f S tenants = some st ∧ SameNodes S st.scheduler ∧
      Exact others st.scheduler st.tenants := by
  induction tenants generalizing others with
  | nil => exact ⟨⟨S, []⟩, rfl, .refl S, h⟩
  | cons t tenants ih =>
    obtain ⟨k, s⟩ := t
    by_cases hk : k = id
    · subst hk
      obtain ⟨S', s', hr, hsame, hacc, hnd⟩ := hf s mem_cons_self _ h.accounts
        (h.nodup _ mem_cons_self)
      exact ⟨⟨S', (k, s') :: tenants⟩, by simp [Scheduling.modifyShard, hr], hsame,
        h.of_accounts hsame hacc hnd⟩
    · obtain ⟨st, hst, hsame, hexact⟩ := ih h.tail fun s hs ↦ hf s (mem_cons_of_mem _ hs)
      exact ⟨⟨st.scheduler, (k, s) :: st.tenants⟩, by simp [Scheduling.modifyShard, hk, hst],
        hsame, h.of_tail hsame hexact⟩

theorem removeShard {id : ℕ} (hknown : ∀ s, (id, s) ∈ tenants → s.Known S) :
    ∃ st, removeShard id S tenants = some st ∧ SameNodes S st.scheduler ∧
      Exact others st.scheduler st.tenants := by
  induction tenants generalizing others with
  | nil => exact ⟨⟨S, []⟩, rfl, .refl S, h⟩
  | cons t tenants ih =>
    obtain ⟨k, s⟩ := t
    by_cases hk : k = id
    · subst hk
      obtain ⟨S', hr, hsame, hready⟩ := (Ready.mk h.accounts (h.nodup _ mem_cons_self)
        (hknown s mem_cons_self)).clear
      refine ⟨⟨S', tenants⟩, by simp [Scheduling.removeShard, hr], hsame, h.others_le,
        fun n hn ↦ ?_, (forall_mem_cons.mp h.nodup).2⟩
      rw [hready.accounts.eq n hn, hsame.az]
      -- the cleared intent contributes nothing
      simp [IntentState.counts, IntentState.locs, IntentState.atts, IntentState.allPageservers]
    · obtain ⟨st, hst, hsame, hexact⟩ := ih h.tail fun s hs ↦
        hknown s (mem_cons_of_mem _ hs)
      exact ⟨⟨st.scheduler, (k, s) :: st.tenants⟩, by simp [Scheduling.removeShard, hk, hst],
        hsame, h.of_tail hsame hexact⟩

end

end Exact

/-! ## Runs -/

namespace State

/-- The counters of every node are the recomputed numbers, and no intent has a node twice. -/
structure Consistent (st : State Z) : Prop where
  counts : ∀ n ∈ st.scheduler.ids, (st.scheduler.node n).counts =
    recomputed st.tenants (st.scheduler.node n).az n
  nodup : ∀ t ∈ st.tenants, t.2.intent.allPageservers.Nodup

/-- What an operation on no single intent takes for granted. -/
def FitsAll (st : State Z) : Op Z → Prop
  | .nodeUpsert node _ _ =>
    node ∈ st.scheduler.ids ∨ ∀ t ∈ st.tenants, node ∉ t.2.intent.allPageservers
  | .remove shard => ∀ t ∈ st.tenants, t.1 = shard → t.2.Known st.scheduler
  | _ => True

/-- What an operation takes for granted. -/
def Admissible (st : State Z) (op : Op Z) : Prop :=
  st.FitsAll op ∧ ∀ t ∈ st.tenants, op.shard? = some t.1 → op.Fits st.scheduler t.2

instance (st : State Z) (op : Op Z) : Decidable (st.FitsAll op) := by
  unfold FitsAll
  split <;> infer_instance

instance (st : State Z) (op : Op Z) : Decidable (st.Admissible op) :=
  inferInstanceAs (Decidable (_ ∧ ∀ t ∈ st.tenants, _))

variable {st st' : State Z} {op : Op Z}

theorem consistent_iff_exact : st.Consistent ↔ Exact 0 st.scheduler st.tenants := by
  refine ⟨fun h ↦ ⟨fun _ ↦ le_rfl, fun n hn ↦ ?_, h.nodup⟩, fun h ↦ ⟨fun n hn ↦ ?_, h.nodup⟩⟩
  · rw [h.counts n hn, Pi.zero_apply, zero_add]
  · rw [h.eq n hn, Pi.zero_apply, zero_add]

theorem recomputed_eq_zero {tenants : List (ℕ × TenantShard Z)}
    (h : ∀ t ∈ tenants, n ∉ t.2.intent.allPageservers) (az : Z) : recomputed tenants az n = 0 := by
  induction tenants with
  | nil => rfl
  | cons t tenants ih =>
    obtain ⟨ht, htail⟩ := forall_mem_cons.mp h
    have hlocs : t.2.intent.locs n = 0 := count_eq_zero.mpr ht
    have hatts : t.2.intent.atts n = 0 := by
      have := t.2.intent.locs_eq n
      omega
    rw [recomputed_cons, ih htail, IntentState.counts, hlocs, hatts, ite_self]
    rfl

theorem Consistent.nodeUpsert (h : st.Consistent) (az : Z)
    (maySchedule : Option PageserverUtilization)
    (hnew : n ∈ st.scheduler.ids ∨ ∀ t ∈ st.tenants, n ∉ t.2.intent.allPageservers) :
    Consistent { st with scheduler := st.scheduler.nodeUpsert n az maySchedule } := by
  refine ⟨fun m hm ↦ ?_, h.nodup⟩
  by_cases hn : n ∈ st.scheduler.ids
  · simp only [Scheduler.nodeUpsert, if_pos hn] at hm ⊢
    by_cases hmn : m = n
    · subst hmn
      simpa [SchedulerNode.counts] using h.counts m hm
    · simpa [hmn] using h.counts m hm
  · have hzero := recomputed_eq_zero (hnew.resolve_left hn) az
    simp only [Scheduler.nodeUpsert, if_neg hn] at hm ⊢
    by_cases hmn : m = n
    · subst hmn
      simp only [Function.update_self]
      exact hzero.symm
    · simpa [hmn] using h.counts m ((mem_cons.mp hm).resolve_left hmn)

theorem Consistent.create (h : st.Consistent) (shard : ℕ) (policy : PlacementPolicy)
    (preferredAz : Option Z) : Consistent
      { st with tenants := (shard, new policy preferredAz) :: st.tenants } := by
  refine ⟨fun n hn ↦ ?_, forall_mem_cons.mpr ⟨nodup_nil, h.nodup⟩⟩
  rw [h.counts n hn, recomputed_cons]
  simp [new, IntentState.counts, IntentState.locs, IntentState.atts, IntentState.allPageservers]

theorem exec_of_shard {shard : ℕ} (h : op.shard? = some shard) :
    st.exec op = modifyShard shard (fun s ↦ op.onShard st.scheduler s) st.scheduler st.tenants := by
  cases op <;> cases h <;> rfl

/-- **An admissible operation** hits no assertion and keeps the counters exact. -/
theorem Consistent.exec (h : st.Consistent) (hadm : st.Admissible op) :
    ∃ st', st.exec op = some st' ∧ st'.Consistent := by
  cases hop : op.shard? with
  | some shard =>
    obtain ⟨st', hst', -, hexact⟩ := (consistent_iff_exact.mp h).modifyShard
      fun s hs rest hacc hnd ↦
        Op.onShard_spec hacc hnd (hadm.2 _ hs hop)
    exact ⟨st', (exec_of_shard hop).trans hst', consistent_iff_exact.mpr hexact⟩
  | none =>
    cases op with
    | nodeUpsert node az maySchedule => exact ⟨_, rfl, h.nodeUpsert az maySchedule hadm.1⟩
    | nodeRemove node =>
      exact ⟨_, rfl, fun n hn ↦ h.counts n (mem_of_mem_filter hn), h.nodup⟩
    | create shard policy preferredAz =>
      dsimp only [State.exec]
      split
      · exact ⟨st, rfl, h⟩
      · exact ⟨_, rfl, h.create shard policy preferredAz⟩
    | remove shard =>
      obtain ⟨st', hst', -, hexact⟩ := (consistent_iff_exact.mp h).removeShard fun s hs ↦
        hadm.1 (shard, s) hs rfl
      exact ⟨st', hst', consistent_iff_exact.mpr hexact⟩
    | _ => cases hop

/-- Every operation of the run is admissible where it is made. -/
def Along (st : State Z) : List (Op Z) → Prop
  | [] => True
  | op :: ops => st.Admissible op ∧ (st.exec op).elim True fun st' ↦ Along st' ops

instance Along.decidable (st : State Z) : (ops : List (Op Z)) → Decidable (st.Along ops)
  | [] => inferInstanceAs (Decidable True)
  | op :: ops =>
    let _ : Decidable ((st.exec op).elim True fun st' ↦ Along st' ops) :=
      match st.exec op with
      | none => inferInstanceAs (Decidable True)
      | some st' => Along.decidable st' ops
    inferInstanceAs (Decidable (_ ∧ _))

theorem Consistent.run {ops : List (Op Z)} (h : st.Consistent) (hops : st.Along ops) :
    ∃ st', st.run ops = some st' ∧ st'.Consistent := by
  induction ops generalizing st with
  | nil => exact ⟨st, rfl, h⟩
  | cons op ops ih =>
    obtain ⟨st₁, hst₁, h₁⟩ := h.exec hops.1
    have hrest := hops.2
    rw [hst₁] at hrest
    obtain ⟨st', hst', h'⟩ := ih h₁ hrest
    exact ⟨st', by rw [State.run, foldlM_cons, hst₁]; exact hst', h'⟩

/-- **The bookkeeping of the scheduler is exact.** A run of admissible operations from an empty
scheduler hits no assertion and takes no counter below zero, and the counters of every node are then
the recomputed numbers. A shard of such a state that fits is placed as its policy asks for by a
successful schedule, unless its scheduling is paused. -/
theorem run_exact (node : ℕ → SchedulerNode Z) (ops : List (Op Z))
    (h : (State.empty node).Along ops) :
    ∃ st, (State.empty node).run ops = some st ∧ st.Consistent ∧
      ∀ shard s context, (shard, s) ∈ st.tenants → s.Known st.scheduler →
        s.AllOrNone st.scheduler →
        ∃ S' s' e, s.schedule st.scheduler context = some (S', s', e) ∧
          ∀ count, s.policy = .attached count → s.schedulingPolicy ≠ .pause →
            s.schedulingPolicy ≠ .stop → e = none → s'.intent.Fulfils count := by
  have hempty : (State.empty node).Consistent := ⟨nofun, nofun⟩
  obtain ⟨st, hst, hcons⟩ := hempty.run h
  refine ⟨st, hst, hcons, fun shard s context hs hknown hleft ↦ ?_⟩
  obtain ⟨rest, hacc⟩ := (consistent_iff_exact.mp hcons).exists_accounts hs
  obtain ⟨S', s', e, hr, -, -, hful⟩ :=
    schedule_spec ⟨hacc, hcons.nodup _ hs, hknown⟩ context hleft
  exact ⟨S', s', e, hr, hful⟩

/-- Three nodes, one of them in the other zone, and a shard with one secondary. -/
def placedShard : List (Op Bool) :=
  let idle : PageserverUtilization := ⟨0, 100, 0, 100, 0, 100, none⟩
  [.nodeUpsert 1 false (some idle), .nodeUpsert 2 true (some idle), .nodeUpsert 3 false (some idle),
    .create 7 (.attached 1) (some false), .schedule 7 0]

theorem run_exact_placedShard :
    ∃ st, (State.empty fun _ ↦ ⟨0, 0, 0, false, none⟩).run (placedShard ++
      [.applyOptimization 7 ⟨2, .createSecondary 3⟩, .rescheduleToSecondary 7 (some 2),
        .setPolicy 7 .secondary, .schedule 7 0, .setPolicy 7 .detached, .schedule 7 0,
        .nodeRemove 1, .derefNode 7 1]) = some st ∧ st.Consistent :=
  (run_exact _ _ (by decide)).imp fun _ h ↦ ⟨h.1, h.2.1⟩

/-- With one secondary more to find, the node of the first one is picked again. An optimization that
creates a secondary is applied twice, with the secondary promoted in between. A node that is
dereferenced while it is known keeps its counters. -/
theorem exists_run_not_exact : (State.empty fun _ ↦ ⟨0, 0, 0, false, none⟩).run
        (placedShard ++ [.setPolicy 7 (.attached 2), .schedule 7 0]) = none ∧
      (State.empty fun _ ↦ ⟨0, 0, 0, false, none⟩).run
        (placedShard ++ [.applyOptimization 7 ⟨2, .createSecondary 3⟩,
          .applyOptimization 7 ⟨2, .migrateAttachment 1 3⟩,
          .applyOptimization 7 ⟨2, .createSecondary 3⟩]) = none ∧
      ∃ st, (State.empty fun _ ↦ ⟨0, 0, 0, false, none⟩).run
        (placedShard ++ [.derefNode 7 1]) = some st ∧ ¬st.Consistent := by
  refine ⟨Option.isNone_iff_eq_none.mp (by decide), Option.isNone_iff_eq_none.mp (by decide), ?_⟩
  obtain ⟨st, hst, hmem, hne⟩ : ∃ st ∈ (State.empty fun _ ↦ ⟨0, 0, 0, false, none⟩).run
      (placedShard ++ [.derefNode 7 1]), 1 ∈ st.scheduler.ids ∧ (st.scheduler.node 1).counts ≠
        recomputed st.tenants (st.scheduler.node 1).az 1 := by
    decide
  exact ⟨st, hst, fun hcons ↦ hne (hcons.counts 1 hmem)⟩

end State

end NeonStorage.StorageController.Scheduling
