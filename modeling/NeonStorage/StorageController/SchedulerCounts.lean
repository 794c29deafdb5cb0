import NeonStorage.StorageController.Scheduler
import Mathlib.Tactic
import NeonStorage.Lib.Snoc

/-!
# The counters of the scheduler

What a node's counters should be is what `consistency_check` recomputes from all intents. While the
intent of one shard changes, the other shards contribute a fixed rest, and `Accounts` says that the
counters are this rest and what the intent itself contributes. Each update of the counters keeps it
if it goes with the right change of the intent, which `Moves` says; so no counter ever gets below
zero.

The operations keep the counters exact under conditions that the code does not check, which
`State.Admissible` lists.
-/

namespace NeonStorage.StorageController.Scheduling

open List
variable {Z : Type} {S S' : Scheduler Z} {I I' : IntentState Z}

/-- Shards, attached shards, and shards at home. -/
abbrev Counts : Type := ℕ × ℕ × ℕ

def SchedulerNode.counts (node : SchedulerNode Z) : Counts :=
  (node.shardCount, node.attachedShardCount, node.homeShardCount)

variable {m : ℕ} (n : ℕ)

namespace IntentState

variable (I)

def atts : ℕ := if I.attached = some n then 1 else 0

def locs : ℕ := I.allPageservers.count n

/-- What the intent contributes to the counters of a node in the zone. -/
def counts [DecidableEq Z] (az : Z) (n : ℕ) : Counts :=
  (I.locs n, I.atts n, if some az = I.preferredAz then I.locs n else 0)

theorem counts_withAz [DecidableEq Z] (p : Option Z) (az : Z) (n : ℕ) :
    { I with preferredAz := p }.counts az n =
      (I.locs n, I.atts n, if some az = p then I.locs n else 0) := rfl

theorem locs_eq : I.locs n = I.atts n + I.secondary.count n := by
  unfold locs atts allPageservers
  rw [count_append]
  cases I.attached with
  | none => simp
  | some a => by_cases h : a = n <;> simp [h]

variable {I}

theorem mem_allPageservers : m ∈ I.allPageservers ↔ I.attached = some m ∨ m ∈ I.secondary := by
  simp [allPageservers]

theorem nodup_allPageservers :
    I.allPageservers.Nodup ↔ I.secondary.Nodup ∧ ∀ a ∈ I.attached, a ∉ I.secondary := by
  unfold allPageservers
  cases I.attached with
  | none => simp
  | some a => simp [nodup_cons, and_comm]

end IntentState

open Scheduling.IntentState (locs_eq atts)

/-! ## One update of the counters -/

/-- What the locations and attachments of an intent on a node are before and after an update. -/
def RefCountUpdate.Shifts : RefCountUpdate Z → ℕ → ℕ → ℕ → ℕ → Prop
  | .promoteSecondary, l, a, l', a' => l' = l ∧ a' = a + 1
  | .attach, l, a, l', a' => l' = l + 1 ∧ a' = a + 1
  | .detach, l, a, l', a' => l = l' + 1 ∧ a = a' + 1
  | .demoteAttached, l, a, l', a' => l' = l ∧ a = a' + 1
  | .addSecondary, l, a, l', a' => l' = l + 1 ∧ a' = a
  | .removeSecondary, l, a, l', a' => l = l' + 1 ∧ a' = a
  | .changePreferredAzFrom _, _, _, _, _ => False

/-- The change of the intent that an update of the counters of `n` goes with. -/
structure Moves (u : RefCountUpdate Z) (n : ℕ) (I I' : IntentState Z) : Prop where
  az : I'.preferredAz = I.preferredAz
  other : ∀ m ≠ n, I'.locs m = I.locs m ∧ I'.atts m = I.atts m
  self : u.Shifts (I.locs n) (I.atts n) (I'.locs n) (I'.atts n)

structure SameNodes (S S' : Scheduler Z) : Prop where
  ids : S'.ids = S.ids
  az : ∀ n, (S'.node n).az = (S.node n).az

theorem SameNodes.refl (S : Scheduler Z) : SameNodes S S := ⟨rfl, fun _ ↦ rfl⟩

theorem SameNodes.trans {S'' : Scheduler Z} (h : SameNodes S S') (h' : SameNodes S' S'') :
    SameNodes S S'' := ⟨h'.ids.trans h.ids, fun n ↦ (h'.az n).trans (h.az n)⟩

variable {n}

section

attribute [local simp] locs_eq atts RefCountUpdate.Shifts

theorem moves_attach (hatt : I.attached = none) (n : ℕ) :
    Moves .attach n I { I with attached := some n } where
  az := rfl
  other m hm := by simp [hatt, Ne.symm hm]
  self := by simp [hatt, add_comm]

theorem moves_detach (hatt : I.attached = some n) :
    Moves .detach n I { I with attached := none } where
  az := rfl
  other m hm := by simp [hatt, Ne.symm hm]
  self := by simp [hatt, add_comm]

theorem moves_demote (hatt : I.attached = some n) :
    Moves .demoteAttached n I { I with attached := none, secondary := I.secondary ++ [n] } where
  az := rfl
  other m hm := by simp [hatt, Ne.symm hm]
  self := by simp [hatt, add_comm]

theorem moves_promote (hatt : I.attached = none) (hn : n ∈ I.secondary) (hnd : I.secondary.Nodup) :
    Moves .promoteSecondary n I
      { I with attached := some n, secondary := I.secondary.filter fun m ↦ decide (m ≠ n) } where
  az := rfl
  other m hm := by simp [hatt, Ne.symm hm, count_filter, hm]
  self := by
    have hzero : (I.secondary.filter fun m ↦ !decide (m = n)).count n = 0 :=
      count_eq_zero.mpr (by simp)
    simp [hatt, hzero, count_eq_one_of_mem hnd hn]

theorem moves_add (n : ℕ) : Moves .addSecondary n I { I with secondary := I.secondary ++ [n] } where
  az := rfl
  other m hm := by simp [Ne.symm hm]
  self := by simp [add_assoc]

theorem moves_remove (hn : n ∈ I.secondary) :
    Moves .removeSecondary n I { I with secondary := I.secondary.erase n } where
  az := rfl
  other m hm := by simp [count_erase_of_ne hm]
  self := by
    have hpos := count_pos_iff.mpr hn
    simp only [RefCountUpdate.Shifts, locs_eq, atts, count_erase_self, and_true]
    omega

end

variable [DecidableEq Z]

/-- The counters are what the other shards contribute and what the intent does. -/
structure Accounts (rest : ℕ → Counts) (S : Scheduler Z) (I : IntentState Z) : Prop where
  rest_le : ∀ n, (rest n).2.2 ≤ (rest n).1
  eq : ∀ n ∈ S.ids, (S.node n).counts = rest n + I.counts (S.node n).az n

theorem decrement_succ (a : ℕ) : decrement (a + 1) = some a := rfl

namespace SchedulerNode

variable {node : SchedulerNode Z} {p : Option Z} {k l : ℕ} {u : RefCountUpdate Z} {r : Counts}

theorem incrementHome_eq (h : node.homeShardCount = k + if some node.az = p then l else 0) :
    node.incrementHome p = k + if some node.az = p then l + 1 else 0 := by
  unfold incrementHome isHome
  split_ifs at h ⊢ <;> simp_all [add_assoc]

theorem decrementHome_eq (h : node.homeShardCount = k + if some node.az = p then l + 1 else 0) :
    node.decrementHome p = some (k + if some node.az = p then l else 0) := by
  unfold decrementHome isHome
  split_ifs at h ⊢ <;> simp_all [← add_assoc, decrement_succ]

/-- An update of the counters of a node succeeds if they cover what the intent contributes, and they
account for the changed intent then. -/
theorem updateRefCounts_spec (h : node.counts = r + I.counts node.az n) (hm : Moves u n I I') :
    ∃ node', node.updateRefCounts I.preferredAz u = some node' ∧ node'.az = node.az ∧
      node'.counts = r + I'.counts node.az n := by
  have hself := hm.self
  simp only [counts, IntentState.counts, Prod.ext_iff, Prod.fst_add, Prod.snd_add, hm.az] at h ⊢
  obtain ⟨hshard, hatt, hhome⟩ := h
  cases u with
  | promoteSecondary =>
    refine ⟨_, rfl, rfl, ?_⟩
    obtain ⟨hl, ha⟩ := hself
    rw [hl, ha]
    exact ⟨hshard, by dsimp only; omega, hhome⟩
  | attach =>
    refine ⟨_, rfl, rfl, ?_⟩
    obtain ⟨hl, ha⟩ := hself
    rw [hl, ha]
    exact ⟨by dsimp only [referenced]; omega, by dsimp only [referenced]; omega,
      incrementHome_eq hhome⟩
  | addSecondary =>
    refine ⟨_, rfl, rfl, ?_⟩
    obtain ⟨hl, ha⟩ := hself
    rw [hl, ha]
    exact ⟨by dsimp only [referenced]; omega, hatt, incrementHome_eq hhome⟩
  | detach =>
    obtain ⟨hl, ha⟩ := hself
    rw [hl] at hshard hhome
    rw [ha] at hatt
    rw [← add_assoc] at hshard hatt
    simp only [updateRefCounts, hshard, hatt, decrement_succ, decrementHome_eq hhome,
      Option.bind_some, Option.map_some]
    exact ⟨_, rfl, rfl, rfl, rfl, rfl⟩
  | demoteAttached =>
    obtain ⟨hl, ha⟩ := hself
    rw [ha, ← add_assoc] at hatt
    simp only [updateRefCounts, hatt, decrement_succ, Option.map_some]
    exact ⟨_, rfl, rfl, by rw [hl]; exact hshard, rfl, by rw [hl]; exact hhome⟩
  | removeSecondary =>
    obtain ⟨hl, ha⟩ := hself
    rw [hl] at hshard hhome
    rw [← add_assoc] at hshard
    simp only [updateRefCounts, hshard, decrement_succ, decrementHome_eq hhome,
      Option.bind_some, Option.map_some]
    exact ⟨_, rfl, rfl, rfl, by rw [ha]; exact hatt, rfl⟩
  | changePreferredAzFrom old => exact hself.elim

theorem updateRefCounts_changeAz {old : Option Z} {a : ℕ} (new : Option Z)
    (h : node.counts = r + (1, a, if some node.az = old then 1 else 0)) :
    ∃ node', node.updateRefCounts new (.changePreferredAzFrom old) = some node' ∧
      node'.az = node.az ∧ node'.counts = r + (1, a, if some node.az = new then 1 else 0) := by
  simp only [counts, Prod.ext_iff, Prod.snd_add] at h ⊢
  obtain ⟨hshard, hatt, hhome⟩ := h
  have hdec : node.decrementHome old = some r.2.2 := by
    simpa using @decrementHome_eq _ _ node old r.2.2 0 hhome
  simp only [updateRefCounts, hdec]
  refine ⟨_, rfl, rfl, hshard, hatt, ?_⟩
  simpa using @incrementHome_eq _ _ { node with homeShardCount := r.2.2 } new r.2.2 0 (by simp)

end SchedulerNode

variable {rest : ℕ → Counts} {u : RefCountUpdate Z}

theorem Moves.counts_of_ne (hm : Moves u n I I') (hne : m ≠ n) (az : Z) :
    I'.counts az m = I.counts az m := by
  unfold IntentState.counts
  rw [hm.az, (hm.other m hne).1, (hm.other m hne).2]

/-- The result of a change of the intent to `I'`: the counters account for it. -/
def Yields (rest : ℕ → Counts) (S : Scheduler Z) (r : Option (Scheduler Z × IntentState Z))
    (I' : IntentState Z) : Prop :=
  ∃ S', r = some (S', I') ∧ SameNodes S S' ∧ Accounts rest S' I'

theorem updateNodeRefCounts_eq {node' : SchedulerNode Z} {p : Option Z} (hn : n ∈ S.ids)
    (h : (S.node n).updateRefCounts p u = some node') (haz : node'.az = (S.node n).az) :
    S.updateNodeRefCounts n p u = some { S with node := Function.update S.node n node' } ∧
      SameNodes S { S with node := Function.update S.node n node' } := by
  refine ⟨by rw [Scheduler.updateNodeRefCounts, if_pos hn, h, Option.map_some], rfl, fun m ↦ ?_⟩
  by_cases hmn : m = n
  · subst hmn
    simpa using haz
  · simp [hmn]

/-- **An update of the counters** that goes with the change of the intent. -/
theorem Accounts.update (h : Accounts rest S I) (hn : n ∈ S.ids) (hm : Moves u n I I') :
    ∃ S', S.updateNodeRefCounts n I.preferredAz u = some S' ∧ SameNodes S S' ∧
      Accounts rest S' I' := by
  obtain ⟨node', hnode', haz, hcounts⟩ := SchedulerNode.updateRefCounts_spec (h.eq n hn) hm
  obtain ⟨hS', hsame⟩ := updateNodeRefCounts_eq hn hnode' haz
  refine ⟨_, hS', hsame, h.rest_le, fun m hmem ↦ ?_⟩
  by_cases hmn : m = n
  · subst hmn
    simpa [haz] using hcounts
  · simpa [hmn, hm.counts_of_ne hmn] using h.eq m hmem

variable {r : Option (Scheduler Z × IntentState Z)}

theorem Accounts.yields (h : Accounts rest S I) (hn : n ∈ S.ids) (hm : Moves u n I I')
    (hr : ∀ S', S.updateNodeRefCounts n I.preferredAz u = some S' → r = some (S', I')) :
    Yields rest S r I' := by
  obtain ⟨S', hS', hsame, hacc⟩ := h.update hn hm
  exact ⟨S', hr S' hS', hsame, hacc⟩

theorem Accounts.detach (h : Accounts rest S I) (hold : ∀ a ∈ I.attached, a ∈ S.ids) :
    ∃ S', (I.attached.elim (some S) fun old ↦ S.updateNodeRefCounts old I.preferredAz .detach) =
      some S' ∧ SameNodes S S' ∧ Accounts rest S' { I with attached := none } := by
  cases hatt : I.attached with
  | none => exact ⟨S, rfl, .refl S, by simpa [← hatt] using h⟩
  | some a => exact h.update (hold a hatt) (moves_detach hatt)

/-! ## The changes of an intent -/

namespace IntentState

theorem setAttached_yields {new : Option ℕ} (h : Accounts rest S I)
    (hold : ∀ a ∈ I.attached, a ∈ S.ids) (hnew : ∀ a ∈ new, a ∈ S.ids ∧ a ∉ I.secondary) :
    Yields rest S (I.setAttached S new) { I with attached := new } := by
  have hassert : new.any (fun a ↦ decide (a ∈ I.secondary)) = false := by
    cases new with
    | none => rfl
    | some a => simpa using (hnew a rfl).2
  unfold setAttached
  by_cases heq : I.attached = new
  · subst heq
    exact ⟨S, by simp [hassert], .refl S, h⟩
  -- first the old location goes, then the new one comes
  obtain ⟨S₁, hS₁, hsame₁, hacc₁⟩ := h.detach hold
  obtain ⟨S₂, hS₂, hsame₂, hacc₂⟩ : ∃ S₂,
      (new.elim (some S₁) fun new ↦ S₁.updateNodeRefCounts new I.preferredAz .attach) =
        some S₂ ∧ SameNodes S₁ S₂ ∧ Accounts rest S₂ { I with attached := new } := by
    cases hn : new with
    | none => exact ⟨S₁, rfl, .refl S₁, hacc₁⟩
    | some a =>
      exact hacc₁.update (hsame₁.ids ▸ (hnew a hn).1) (moves_attach rfl a)
  refine ⟨S₂, ?_, hsame₁.trans hsame₂, hacc₂⟩
  simp [heq, hS₁, hS₂, hassert]

theorem removeSecondary_yields (h : Accounts rest S I) (hknown : n ∈ I.secondary → n ∈ S.ids) :
    Yields rest S (I.removeSecondary S n) { I with secondary := I.secondary.erase n } := by
  by_cases hn : n ∈ I.secondary
  · obtain ⟨S', hS', hsame, hacc⟩ := h.update (hknown hn) (moves_remove hn)
    exact ⟨S', by simp [removeSecondary, hn, hS'], hsame, hacc⟩
  · rw [erase_of_not_mem hn]
    exact ⟨S, by simp [removeSecondary, hn], .refl S, h⟩

theorem clearSecondaries_spec {secondary : List ℕ}
    (h : Accounts rest S ⟨none, secondary, I.preferredAz⟩) (hknown : ∀ m ∈ secondary, m ∈ S.ids) :
    ∃ S', clearSecondaries S I.preferredAz secondary = some S' ∧ SameNodes S S' ∧
      Accounts rest S' ⟨none, [], I.preferredAz⟩ := by
  induction secondary generalizing S with
  | nil => exact ⟨S, rfl, .refl S, h⟩
  | cons a secondary ih =>
    obtain ⟨S₁, hS₁, hsame₁, hacc₁⟩ := h.update (hknown a mem_cons_self)
      (moves_remove mem_cons_self)
    rw [erase_cons_head] at hacc₁
    obtain ⟨S', hS', hsame', hacc'⟩ := ih hacc₁ fun m hm ↦
      hsame₁.ids ▸ hknown m (mem_cons_of_mem a hm)
    refine ⟨S', ?_, hsame₁.trans hsame', hacc'⟩
    rw [clearSecondaries, foldlM_cons, hS₁]
    exact hS'

theorem clear_yields (h : Accounts rest S I) (hknown : ∀ m ∈ I.allPageservers, m ∈ S.ids) :
    Yields rest S (I.clear S) { I with attached := none, secondary := [] } := by
  obtain ⟨S₁, hS₁, hsame₁, hacc₁⟩ := h.detach fun a ha ↦
    hknown a (mem_append_left _ (Option.mem_toList.mpr ha))
  obtain ⟨S₂, hS₂, hsame₂, hacc₂⟩ := clearSecondaries_spec hacc₁ fun m hm ↦
    hsame₁.ids ▸ hknown m (mem_append_right _ hm)
  exact ⟨S₂, by simp [clear, hS₁, hS₂], hsame₁.trans hsame₂, hacc₂⟩

theorem changeAz_spec (old new : Option Z) {L : List ℕ} (hnd : L.Nodup)
    (hone : ∀ m ∈ L, I.locs m = 1) (hknown : ∀ m ∈ L, m ∈ S.ids)
    (hrest : ∀ m, (rest m).2.2 ≤ (rest m).1) (heq : ∀ m ∈ S.ids, (S.node m).counts = rest m +
      { I with preferredAz := if m ∈ L then old else new }.counts (S.node m).az m) :
    ∃ S', L.foldlM (fun (S : Scheduler Z) m ↦
        S.updateNodeRefCounts m new (.changePreferredAzFrom old)) S = some S' ∧
      SameNodes S S' ∧ Accounts rest S' { I with preferredAz := new } := by
  induction L generalizing S with
  | nil => exact ⟨S, rfl, .refl S, hrest, by simpa using heq⟩
  | cons a L ih =>
    obtain ⟨ha, hnd⟩ := nodup_cons.mp hnd
    have hloc : I.locs a = 1 := hone a mem_cons_self
    have hcounts : ∀ az, { I with preferredAz := az }.counts (S.node a).az a =
        (1, I.atts a, if some (S.node a).az = az then 1 else 0) := fun az ↦ by
      rw [counts_withAz, hloc]
    have hmem : a ∈ S.ids := hknown a mem_cons_self
    have heqa := heq a hmem
    rw [if_pos mem_cons_self, hcounts] at heqa
    obtain ⟨node', hnode', haz, hnode⟩ := SchedulerNode.updateRefCounts_changeAz new heqa
    rw [← hcounts] at hnode
    obtain ⟨hS₁, hsame₁⟩ := updateNodeRefCounts_eq hmem hnode' haz
    obtain ⟨S', hS', hsame, hacc⟩ := ih (S := { S with node := Function.update S.node a node' })
      hnd (fun m hm ↦ hone m (mem_cons_of_mem a hm))
      (fun m hm ↦ hknown m (mem_cons_of_mem a hm)) fun m hm ↦ by
        by_cases hma : m = a
        · subst hma
          simpa [haz, ha] using hnode
        · simpa [hma] using heq m hm
    refine ⟨S', ?_, hsame₁.trans hsame, hacc⟩
    rw [foldlM_cons, hS₁]
    exact hS'

theorem setPreferredAz_yields (h : Accounts rest S I) (hnd : I.allPageservers.Nodup)
    (hknown : ∀ m ∈ I.allPageservers, m ∈ S.ids) (az : Option Z) :
    Yields rest S (I.setPreferredAz S az) { I with preferredAz := az } := by
  unfold setPreferredAz
  by_cases heq : I.preferredAz = az
  · subst heq
    exact ⟨S, by simp, .refl S, h⟩
  obtain ⟨S', hS', hsame, hacc⟩ := changeAz_spec I.preferredAz az hnd
    (fun m hm ↦ count_eq_one_of_mem hnd hm) hknown h.rest_le fun m hm ↦ by
      by_cases hmem : m ∈ I.allPageservers
      · rw [if_pos hmem]
        exact h.eq m hm
      · -- a node without a location of the shard has nothing to change
        have hzero : ∀ p, { I with preferredAz := p }.counts (S.node m).az m = (0, I.atts m, 0) :=
          fun p ↦ by
            rw [counts_withAz, show I.locs m = 0 from count_eq_zero.mpr hmem, ite_self]
        rw [h.eq m hm, if_neg hmem, hzero az]
        exact congrArg _ (hzero I.preferredAz)
  exact ⟨S', by rw [if_neg heq, hS', Option.map_some], hsame, hacc⟩

end IntentState

/-! ## The choice of a node -/

theorem foldl_pick_mem {α : Type} (better : α → α → Prop) [DecidableRel better] (as : List α)
    (a : α) : as.foldl (fun best b ↦ if better b best then b else best) a ∈ a :: as := by
  induction as generalizing a with
  | nil => exact mem_cons_self
  | cons c cs ih =>
    rw [foldl_cons]
    split
    · exact mem_cons_of_mem a (ih c)
    · rcases mem_cons.mp (ih a) with heq | hmem
      · rw [heq]
        exact mem_cons_self
      · exact mem_cons_of_mem a (mem_cons_of_mem c hmem)

theorem minOf_mem {α : Type} {key : α → NodeSchedulingScore} {l : List α} {a : α}
    (h : minOf key l = some a) : a ∈ l := by
  cases l with
  | nil => cases h
  | cons b bs =>
    cases h
    exact foldl_pick_mem (fun b best ↦ key b < key best) bs b

section

variable (h : Accounts rest S I)
include h

theorem Accounts.home_le (hn : n ∈ S.ids) : (S.node n).homeShardCount ≤ (S.node n).shardCount := by
  have heq := h.eq n hn
  simp only [SchedulerNode.counts, IntentState.counts, Prod.ext_iff, Prod.fst_add,
    Prod.snd_add] at heq
  have hrest := h.rest_le n
  split_ifs at heq <;> omega

theorem Accounts.generate (tag : ShardTag) (preferredAz : Option Z) (context : ScheduleContext)
    (hn : n ∈ S.ids) (v : PageserverUtilization) :
    ∃ score, S.generate tag preferredAz context n v = some score ∧ score.nodeId = n := by
  have hcount : ∃ count, (S.node n).scoredCount tag = some count := by
    cases tag with
    | attached => exact ⟨_, rfl⟩
    | secondary => exact ⟨_, if_pos (h.home_le hn)⟩
  obtain ⟨count, hcount⟩ := hcount
  exact ⟨_, by rw [Scheduler.generate, hcount, Option.map_some], rfl⟩

theorem Accounts.generate_all (tag : ShardTag) (preferredAz : Option Z) (context : ScheduleContext)
    {cs : List (ℕ × PageserverUtilization)} (hcs : ∀ c ∈ cs, c.1 ∈ S.ids) :
    ∃ scores, (cs.mapM fun c ↦ S.generate tag preferredAz context c.1 c.2) = some scores ∧
      ∀ score ∈ scores, ∃ c ∈ cs, score.nodeId = c.1 := by
  induction cs with
  | nil => exact ⟨[], rfl, nofun⟩
  | cons c cs ih =>
    obtain ⟨score, hscore, hid⟩ := h.generate tag preferredAz context (hcs c mem_cons_self) c.2
    obtain ⟨scores, hscores, hmem⟩ := ih (forall_mem_cons.mp hcs).2
    refine ⟨score :: scores, by simp [mapM_cons, hscore, hscores], fun s hs ↦ ?_⟩
    rcases mem_cons.mp hs with rfl | hs
    · exact ⟨c, mem_cons_self, hid⟩
    · obtain ⟨c', hc', hid'⟩ := hmem s hs
      exact ⟨c', mem_cons_of_mem _ hc', hid'⟩

/-- **The choice of a node**: an error, or a node that is known and not excluded. -/
theorem Accounts.scheduleShard (tag : ShardTag) (hardExclude : List ℕ) (preferredAz : Option Z)
    (context : ScheduleContext) :
    ∃ chosen, S.scheduleShard tag hardExclude preferredAz context = some chosen ∧
      ∀ m, chosen = .ok m → m ∈ S.ids ∧ m ∉ hardExclude := by
  unfold Scheduler.scheduleShard
  by_cases hids : S.ids = []
  · exact ⟨_, if_pos hids, nofun⟩
  have hcandidates : ∀ c ∈ (S.ids.filter fun n ↦ !hardExclude.contains n).filterMap fun n ↦
      (S.node n).maySchedule.map fun u ↦ (n, u), c.1 ∈ S.ids ∧ c.1 ∉ hardExclude := by
    intro c hc
    obtain ⟨m, hm, hc⟩ := mem_filterMap.mp hc
    obtain ⟨v, -, rfl⟩ := Option.map_eq_some_iff.mp hc
    simpa using mem_filter.mp hm
  obtain ⟨scores, hscores, hmem⟩ := h.generate_all tag preferredAz context fun c hc ↦
    (hcandidates c hc).1
  rw [if_neg hids, Scheduler.computeNodeScores, hscores]
  refine ⟨_, rfl, fun m hm ↦ ?_⟩
  dsimp only at hm
  split at hm
  · cases hm
  · rename_i score hmin
    cases hm
    have hscore : score ∈ scores := by
      have := minOf_mem hmin
      split at this
      · exact this
      · exact mem_of_mem_filter this
    obtain ⟨c, hc, hid⟩ := hmem score hscore
    exact hid ▸ hcandidates c hc

end

/-! ## The operations on a shard -/

/-- An intent whose nodes are known and distinct, with counters that account for it. -/
structure Ready (rest : ℕ → Counts) (S : Scheduler Z) (I : IntentState Z) : Prop where
  accounts : Accounts rest S I
  nodup : I.allPageservers.Nodup
  known : ∀ m ∈ I.allPageservers, m ∈ S.ids

/-- The change succeeds, and the intent is then `I'`. -/
def Succeeds (rest : ℕ → Counts) (S : Scheduler Z) (r : Option (Scheduler Z × IntentState Z))
    (I' : IntentState Z) : Prop :=
  ∃ S', r = some (S', I') ∧ SameNodes S S' ∧ Ready rest S' I'

theorem Yields.succeeds (h : Yields rest S r I')
    (hnd : I'.allPageservers.Nodup) (hknown : ∀ m ∈ I'.allPageservers, m ∈ S.ids) :
    Succeeds rest S r I' := by
  obtain ⟨S', hr, hsame, hacc⟩ := h
  exact ⟨S', hr, hsame, hacc, hnd, fun m hm ↦ hsame.ids ▸ hknown m hm⟩

namespace Ready

open NeonStorage.StorageController.Scheduling.IntentState

section

variable (h : Ready rest S I)
include h

theorem secondary_nodup : I.secondary.Nodup := (nodup_allPageservers.mp h.nodup).1

theorem known_secondary (hm : m ∈ I.secondary) : m ∈ S.ids :=
  h.known m (mem_allPageservers.mpr (.inr hm))

theorem known_attached (hm : I.attached = some m) : m ∈ S.ids :=
  h.known m (mem_allPageservers.mpr (.inl hm))

theorem setAttached (hn : n ∈ S.ids) (hsec : n ∉ I.secondary) :
    Succeeds rest S (I.setAttached S (some n)) { I with attached := some n } := by
  refine (setAttached_yields h.accounts (fun a ha ↦ h.known_attached ha) ?_).succeeds
    (nodup_allPageservers.mpr ⟨h.secondary_nodup, ?_⟩) fun m hm ↦ ?_
  · rintro a ⟨⟩
    exact ⟨hn, hsec⟩
  · rintro a ⟨⟩
    exact hsec
  · rcases mem_allPageservers.mp hm with ⟨⟨⟩⟩ | hm
    · exact hn
    · exact h.known_secondary hm

theorem promoteAttached (hatt : I.attached = none) (hn : n ∈ I.secondary) :
    Succeeds rest S (I.promoteAttached S n)
      { I with attached := some n, secondary := I.secondary.filter fun m ↦ decide (m ≠ n) } := by
  refine (h.accounts.yields (h.known_secondary hn) (moves_promote hatt hn h.secondary_nodup)
    fun S' hS' ↦ ?_).succeeds (nodup_allPageservers.mpr ⟨h.secondary_nodup.filter _, ?_⟩) fun m hm ↦
      ?_
  · simp [IntentState.promoteAttached, hn, hS', hatt]
  · simp
  · rcases mem_allPageservers.mp hm with ⟨⟨⟩⟩ | hm
    · exact h.known_secondary hn
    · exact h.known_secondary (mem_of_mem_filter hm)

theorem pushSecondary (hn : n ∈ S.ids) (hnew : n ∉ I.allPageservers) :
    Succeeds rest S (I.pushSecondary S n) { I with secondary := I.secondary ++ [n] } := by
  rw [mem_allPageservers, not_or] at hnew
  refine (h.accounts.yields hn (moves_add n) fun S' hS' ↦ ?_).succeeds
    (nodup_allPageservers.mpr ⟨?_, fun a ha hmem ↦ ?_⟩) fun m hm ↦ ?_
  · simp [IntentState.pushSecondary, hnew.2, hnew.1, hS']
  · exact concat_eq_append ▸ Nodup.concat hnew.2 h.secondary_nodup
  · rcases mem_snoc.mp hmem with hmem | rfl
    · exact (nodup_allPageservers.mp h.nodup).2 a ha hmem
    · exact hnew.1 ha
  · rcases mem_allPageservers.mp hm with hatt | hm
    · exact h.known_attached hatt
    · rcases mem_snoc.mp hm with hm | hm
      · exact h.known_secondary hm
      · exact hm ▸ hn

theorem removeSecondary (n : ℕ) :
    Succeeds rest S (I.removeSecondary S n) { I with secondary := I.secondary.erase n } := by
  refine (removeSecondary_yields h.accounts h.known_secondary).succeeds
    (nodup_allPageservers.mpr ⟨h.secondary_nodup.erase n, fun a ha hmem ↦ ?_⟩) fun m hm ↦ ?_
  · exact (nodup_allPageservers.mp h.nodup).2 a ha (mem_of_mem_erase hmem)
  · rcases mem_allPageservers.mp hm with hatt | hm
    · exact h.known_attached hatt
    · exact h.known_secondary (mem_of_mem_erase hm)

theorem demoteAttached (hatt : I.attached = some n) : Succeeds rest S (I.demoteAttached S n)
      { I with attached := none, secondary := I.secondary ++ [n] } := by
  refine (h.accounts.yields (h.known_attached hatt) (moves_demote hatt) fun S' hS' ↦ ?_).succeeds
    (nodup_allPageservers.mpr ⟨?_, nofun⟩) fun m hm ↦ ?_
  · simp [IntentState.demoteAttached, hatt, hS']
  · have hsec := (nodup_allPageservers.mp h.nodup).2 n hatt
    exact concat_eq_append ▸ Nodup.concat hsec h.secondary_nodup
  · rcases mem_allPageservers.mp hm with ⟨⟨⟩⟩ | hm
    rcases mem_snoc.mp hm with hm | hm
    · exact h.known_secondary hm
    · exact hm ▸ h.known_attached hatt

theorem clear : Succeeds rest S (I.clear S) { I with attached := none, secondary := [] } :=
  (clear_yields h.accounts h.known).succeeds
    (nodup_allPageservers.mpr ⟨nodup_nil, nofun⟩) (by simp [allPageservers])

theorem setPreferredAz (az : Option Z) :
    Succeeds rest S (I.setPreferredAz S az) { I with preferredAz := az } :=
  (setPreferredAz_yields h.accounts h.nodup h.known az).succeeds h.nodup h.known

end

end Ready

/-! ## Scheduling -/

/-- One attached location and enough secondary ones. -/
def IntentState.Fulfils (I : IntentState Z) (secondaryCount : ℕ) : Prop :=
  I.attached.isSome ∧ secondaryCount ≤ I.secondary.length

namespace TenantShard

variable {s : TenantShard Z}

/-- What scheduling has come to is sound. -/
structure Sound (rest : ℕ → Counts) (S : Scheduler Z) (d : Scheduled Z) : Prop where
  same : SameNodes S d.scheduler
  ready : Ready rest d.scheduler d.intent

theorem Sound.of_succeeds (h : Succeeds rest S r I') :
    ∃ d, (r.map fun r ↦ (⟨r.1, r.2, true, none⟩ : Scheduled Z)) = some d ∧ Sound rest S d ∧
      d.intent = I' ∧ d.error = none := by
  obtain ⟨S', hr, hsame, hready⟩ := h
  exact ⟨⟨S', I', true, none⟩, by rw [hr, Option.map_some], ⟨hsame, hready⟩, rfl, rfl⟩

theorem preferredSecondary_spec (h : Ready rest S s.intent) :
    ∃ preferred, s.preferredSecondary S = some preferred ∧
      ∀ n ∈ preferred, n ∈ s.intent.secondary := by
  have hall : s.intent.secondary.all (S.ids.contains ·) = true :=
    all_eq_true.mpr fun m hm ↦ by simpa using h.known_secondary hm
  rw [preferredSecondary, Scheduler.filterUsableNodes, if_pos hall]
  refine ⟨_, rfl, fun n hn ↦ ?_⟩
  obtain ⟨c, hc, rfl⟩ := Option.map_eq_some_iff.mp hn
  obtain ⟨m, hm, hc⟩ := mem_filterMap.mp (minOf_mem hc)
  obtain ⟨_, _, rfl⟩ := Option.map_eq_some_iff.mp hc
  exact hm

/-- The secondaries that are left when the shard has an attached location. -/
def secondariesLeft (s : TenantShard Z) (S : Scheduler Z) : List ℕ :=
  match s.intent.attached, s.preferredSecondary S with
  | none, some (some n) => s.intent.secondary.filter fun m ↦ decide (m ≠ n)
  | _, _ => s.intent.secondary

theorem scheduleAttached_spec (h : Ready rest S s.intent) (context : ScheduleContext) :
    ∃ d, s.scheduleAttached S context = some d ∧ Sound rest S d ∧
      (d.error = none → d.intent.attached.isSome ∧ d.intent.secondary = s.secondariesLeft S) := by
  unfold scheduleAttached secondariesLeft
  cases hatt : s.intent.attached with
  | some a => exact ⟨_, rfl, ⟨.refl S, h⟩, fun _ ↦ ⟨by simp [hatt], rfl⟩⟩
  | none =>
    obtain ⟨preferred, hpreferred, hmem⟩ := preferredSecondary_spec h
    simp only [hpreferred]
    cases preferred with
    | some n =>
      obtain ⟨d, hd, hsound, hI, -⟩ := Sound.of_succeeds (h.promoteAttached hatt (hmem n rfl))
      exact ⟨d, hd, hsound, fun _ ↦ by rw [hI]; exact ⟨rfl, rfl⟩⟩
    | none =>
      obtain ⟨chosen, hchosen, hspec⟩ := h.accounts.scheduleShard .attached s.intent.secondary
        s.intent.preferredAz context
      simp only [hchosen]
      cases chosen with
      | error e => exact ⟨_, rfl, ⟨.refl S, h⟩, nofun⟩
      | ok n =>
        obtain ⟨hknown, hsec⟩ := hspec n rfl
        obtain ⟨d, hd, hsound, hI, -⟩ := Sound.of_succeeds (h.setAttached hknown hsec)
        exact ⟨d, hd, hsound, fun _ ↦ by rw [hI]; exact ⟨rfl, rfl⟩⟩

/-- The loop over the missing secondaries does not pick a node twice, if the nodes that it avoids
are all those of the intent. -/
theorem scheduleSecondaries_spec (context : ScheduleContext) (missing : ℕ) {used : List ℕ}
    (h : Ready rest S I) (hused : I.allPageservers ⊆ used) :
    ∃ d, scheduleSecondaries context missing used S I = some d ∧ Sound rest S d ∧
      d.intent.attached = I.attached ∧
      (d.error = none → d.intent.secondary.length = I.secondary.length + missing) := by
  induction missing generalizing used S I with
  | zero => exact ⟨_, rfl, ⟨.refl S, h⟩, rfl, fun _ ↦ rfl⟩
  | succ missing ih =>
    obtain ⟨chosen, hchosen, hspec⟩ :=
      h.accounts.scheduleShard .secondary used I.preferredAz context
    simp only [scheduleSecondaries, hchosen]
    cases chosen with
    | error e => exact ⟨_, rfl, ⟨.refl S, h⟩, rfl, nofun⟩
    | ok n =>
      obtain ⟨hknown, hnot⟩ := hspec n rfl
      obtain ⟨S₁, hS₁, hsame₁, hready₁⟩ := h.pushSecondary hknown fun hmem ↦ hnot (hused hmem)
      have hused₁ : { I with secondary := I.secondary ++ [n] }.allPageservers ⊆ used ++ [n] := by
        intro m hm
        simp only [IntentState.allPageservers, mem_append, ← or_assoc] at hm ⊢
        exact hm.imp_left fun hm ↦ hused (mem_append.mpr hm)
      obtain ⟨d, hd, hsound, hatt, hlen⟩ := ih hready₁ hused₁
      refine ⟨{ d with modified := true }, by simp [hS₁, hd],
        ⟨hsame₁.trans hsound.same, hsound.ready⟩, hatt, fun herr ↦ ?_⟩
      rw [hlen herr, length_append, length_singleton]
      omega

theorem scheduleWithSecondaries_spec {count : ℕ} (h : Ready rest S s.intent)
    (context : ScheduleContext)
    (hleft : s.secondariesLeft S = [] ∨ count ≤ (s.secondariesLeft S).length) :
    ∃ d, s.scheduleWithSecondaries S context count = some d ∧ Sound rest S d ∧
      (d.error = none → d.intent.Fulfils count) := by
  obtain ⟨d, hd, hsound, hleft'⟩ := scheduleAttached_spec h context
  simp only [scheduleWithSecondaries, hd, Option.bind_some]
  cases herr : d.error with
  | some e => exact ⟨d, by simp, hsound, by simp [herr]⟩
  | none =>
    obtain ⟨hatt, hsec⟩ := hleft' herr
    obtain ⟨d', hd', hsound', hatt', hlen⟩ : ∃ d', scheduleSecondaries context
        (count - d.intent.secondary.length) d.intent.attached.toList d.scheduler d.intent =
          some d' ∧ Sound rest d.scheduler d' ∧ d'.intent.attached = d.intent.attached ∧
            (d'.error = none → count ≤ d'.intent.secondary.length) := by
      rcases hleft with hnil | hle
      · have hused : d.intent.allPageservers ⊆ d.intent.attached.toList := by
          simp [IntentState.allPageservers, hsec, hnil]
        obtain ⟨d', hd', hsound', hatt', hlen⟩ := scheduleSecondaries_spec context
          (count - d.intent.secondary.length) hsound.ready hused
        exact ⟨d', hd', hsound', hatt', fun herr ↦ by rw [hlen herr]; omega⟩
      · rw [hsec, Nat.sub_eq_zero_of_le hle]
        exact ⟨_, rfl, ⟨.refl _, hsound.ready⟩, rfl, fun _ ↦ hsec ▸ hle⟩
    exact ⟨{ d' with modified := d.modified || d'.modified }, by simp [hd'],
      ⟨hsound.same.trans hsound'.same, hsound'.ready⟩, fun herr ↦ ⟨hatt' ▸ hatt, hlen herr⟩⟩

theorem trimSecondaries_spec (extra : ℕ) (h : Ready rest S I) :
    ∃ d, trimSecondaries extra S I = some d ∧ Sound rest S d := by
  induction extra generalizing S I with
  | zero => exact ⟨_, rfl, .refl S, h⟩
  | succ extra ih =>
    unfold trimSecondaries
    split
    · exact ⟨_, rfl, .refl S, h⟩
    · rename_i n _
      obtain ⟨S₁, hS₁, hsame₁, hready₁⟩ := h.removeSecondary n
      obtain ⟨d, hd, hsound⟩ := ih hready₁
      exact ⟨{ d with modified := true }, by simp [hS₁, hd], hsame₁.trans hsound.same, hsound.ready⟩

section

variable (h : Ready rest S s.intent)
include h

theorem populateSecondary_spec (context : ScheduleContext) :
    ∃ d, s.populateSecondary S context = some d ∧ Sound rest S d := by
  unfold populateSecondary
  cases hatt : s.intent.attached with
  | some n =>
    obtain ⟨d, hd, hsound, -⟩ := Sound.of_succeeds (h.demoteAttached hatt)
    exact ⟨d, hd, hsound⟩
  | none =>
    dsimp only
    split
    · rename_i hnil
      obtain ⟨chosen, hchosen, hspec⟩ := h.accounts.scheduleShard .attached []
        s.intent.preferredAz context
      simp only [hchosen]
      cases chosen with
      | error e => exact ⟨_, rfl, .refl S, h⟩
      | ok n =>
        obtain ⟨d, hd, hsound, -⟩ := Sound.of_succeeds (h.pushSecondary (hspec n rfl).1
          (by simp [IntentState.allPageservers, hatt, hnil]))
        exact ⟨d, hd, hsound⟩
    · exact ⟨_, rfl, .refl S, h⟩

theorem scheduleSecondaryOnly_spec (context : ScheduleContext) :
    ∃ d, s.scheduleSecondaryOnly S context = some d ∧ Sound rest S d := by
  obtain ⟨d, hd, hsound⟩ := populateSecondary_spec h context
  rw [scheduleSecondaryOnly, hd, Option.bind_some]
  split
  · exact ⟨d, rfl, hsound⟩
  · obtain ⟨d', hd', hsound'⟩ := trimSecondaries_spec (d.intent.secondary.length - 1) hsound.ready
    exact ⟨{ d' with modified := d.modified || d'.modified }, by simp [hd'],
      hsound.same.trans hsound'.same, hsound'.ready⟩

theorem scheduleDetached_spec : ∃ d, s.scheduleDetached S = some d ∧ Sound rest S d := by
  unfold scheduleDetached
  split
  · obtain ⟨d, hd, hsound, -⟩ := Sound.of_succeeds h.clear
    exact ⟨d, hd, hsound⟩
  · exact ⟨_, rfl, .refl S, h⟩

end

end TenantShard

end NeonStorage.StorageController.Scheduling
