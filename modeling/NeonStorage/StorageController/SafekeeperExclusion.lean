import NeonStorage.StorageController.SafekeeperMigration

/-!
# What an exclusion removes

An exclusion at a generation reaches the safekeeper in one of two ways. The call that makes the
migration sends the configuration, and the safekeeper compares generations before it removes its
copy. If that fails, the background reconciler takes over, and it sends a deletion: the safekeeper
does not learn the generation and removes the WAL in remote storage too.

The first way is safe in every run. The second one is safe if nothing gets into remote storage and
the safekeeper is not told of a generation above that of the exclusion, or if it does not get the
timeline at all. `Bounds.Allows` says so of the requests that are handled in a run.
-/

namespace NeonStorage.StorageController.Membership

open Option

/-- An exclusion at a generation removed no timeline of a higher generation, and no remote WAL. -/
def Event.Safe : Event → Prop
  | .exclusion _ generation removed wal => (∀ g ∈ removed, g ≤ generation) ∧ wal = []
  | _ => True

/-- The safekeeper and the request that it handles in this action. A greeting has the effect of a
membership request. -/
def Action.handled (w : World) : Action → Option (ℕ × Request)
  | .ask p i _ => ((w.calls p).request i).map (i, ·)
  | .deliver i _ r => some (i, r)
  | .reconcileOne i _ => (w.queue i).map fun req ↦ (i, req.request)
  | .greeting i mconf => some (i, .membership mconf)
  | _ => none

/-- How far a run goes. -/
structure Bounds where
  /-- The highest generation that a safekeeper is told of; none if it does not get the timeline. -/
  generation : ℕ → Option ℕ
  /-- There may be WAL of the timeline in remote storage. -/
  stored : Bool

namespace Bounds

variable (b : Bounds)

/-- The configuration that comes with the request is within the bound. A deletion for an exclusion
is sent only to safekeepers that are not told of a higher generation, and if nothing is in remote
storage; or to safekeepers that do not get the timeline. -/
def AllowsRequest (i : ℕ) : Request → Prop
  | .membership mconf => ∀ g ∈ b.generation i, mconf.generation ≤ g
  | .pull _ mconf => ∃ c ∈ mconf, ∃ g ∈ b.generation i, c.generation ≤ g
  | .exclude _ => True
  | .delete generation => ∀ g ∈ b.generation i, g ≤ generation ∧ b.stored = false

instance (i : ℕ) : DecidablePred (b.AllowsRequest i) := by
  intro r
  cases r <;> unfold AllowsRequest <;> infer_instance

/-- The action stays within the bounds. -/
def Allows (w : World) (a : Action) : Prop :=
  (∀ x ∈ a.handled w, b.AllowsRequest x.1 x.2) ∧ ∀ segment, a = .upload segment → b.stored = true

instance (w : World) : DecidablePred (b.Allows w) := by
  intro a
  have : Decidable (∀ segment, a = .upload segment → b.stored = true) := by
    cases a
    case upload segment => exact decidable_of_iff (b.stored = true) (by simp)
    all_goals exact .isTrue nofun
  exact instDecidableAnd

/-- The timelines and the remote storage are within the bounds. -/
structure Within (f : Fleet) : Prop where
  generation : ∀ i, ∀ t ∈ (f.sk i).timeline, ∃ g ∈ b.generation i, t.mconf.generation ≤ g
  wal : b.stored = false → f.remoteWal = []

end Bounds

/-! ## One request -/

namespace Bounds.Within

variable {b : Bounds} {f : Fleet} {i : ℕ} {mconf : Configuration}

theorem set {sk : Safekeeper} (h : b.Within f)
    (hsk : ∀ t ∈ sk.timeline, ∃ g ∈ b.generation i, t.mconf.generation ≤ g) :
    b.Within (f.set i sk) where
  generation k t ht := by
    by_cases hk : k = i
    · subst hk
      simp only [Fleet.set, Function.update_self] at ht
      exact hsk t ht
    · simp only [Fleet.set, Function.update_of_ne hk] at ht
      exact h.generation k t ht
  wal := h.wal

theorem membershipSwitch_le {t : Timeline} {g : ℕ} (ht : t.mconf.generation ≤ g)
    (hg : mconf.generation ≤ g) : (t.membershipSwitch mconf).mconf.generation ≤ g := by
  unfold Timeline.membershipSwitch
  split
  · exact ht
  · exact hg

/-- A timeline is switched to a configuration within the bound. -/
theorem setSwitched {t : Timeline} {tombstone : Option (Option ℕ)} (h : b.Within f)
    (ht : (f.sk i).timeline = some t) (hg : ∀ g ∈ b.generation i, mconf.generation ≤ g) :
    b.Within (f.set i ⟨some (t.membershipSwitch mconf), tombstone⟩) := by
  obtain ⟨g, hmem, hle⟩ := h.generation i t ht
  refine h.set fun t' ht' ↦ ⟨g, hmem, ?_⟩
  cases ht'
  exact membershipSwitch_le hle (hg g hmem)

theorem handle {r : Request} {answering : List ℕ} (h : b.Within f) (hr : b.AllowsRequest i r) :
    b.Within (f.handle i answering r).1 := by
  have hdelete (action : Option Configuration) : b.Within (f.deleteOrExclude i action).1 := by
    unfold Fleet.deleteOrExclude
    dsimp only
    have hset : b.Within (f.set i ⟨none, some (action.map Configuration.generation)⟩) := h.set nofun
    split
    · exact h
    split
    · exact hset
    split
    · exact h
    refine ⟨hset.generation, fun hno ↦ ?_⟩
    dsimp only
    split
    · rfl
    · exact h.wal hno
  cases r with
  | membership mconf =>
    simp only [Fleet.handle, Fleet.membership]
    split
    · exact h
    · split
      · exact h.setSwitched ‹_› hr
      · exact h
  | pull hosts mconf =>
    obtain ⟨c, rfl, g, hmem, hle⟩ := hr
    have hg : ∀ g' ∈ b.generation i, c.generation ≤ g' := by
      intro g' hg'
      cases hmem.symm.trans hg'
      exact hle
    simp only [Fleet.handle, Fleet.pull]
    split
    · split
      · exact h.setSwitched ‹_› hg
      · -- a donor of a higher generation is refused
        split
        · exact h
        rename_i hdonors
        split
        · exact h
        split
        · exact h
        · rename_i donor hdonor
          unfold Fleet.loadTempTimeline
          split
          · exact h
          refine h.set fun t ht ↦ ⟨g, hmem, ?_⟩
          cases ht
          refine membershipSwitch_le (le_trans ?_ hle) hle
          simp only [any_some, List.any_eq_true, decide_eq_true_eq, not_exists, not_and,
            not_lt] at hdonors
          exact hdonors donor (Fleet.mem_of_mostAdvanced hdonor)
    · exact h
  | exclude mconf =>
    rw [Fleet.handle]
    split
    · exact h
    · exact hdelete _
  | delete generation => exact hdelete none

end Bounds.Within

namespace World

variable {cfg : Config} {w w' : World} {a : Action} {as : List Action} {i : ℕ}
  {answering : List ℕ} {r : Request} {b : Bounds}

theorem safe_record_self : ∀ e ∈ w.record i r w.fleet, e.Safe := by
  cases r <;> cases (w.fleet.sk i).timeline <;> simp_all [record, Event.Safe]

theorem safe_record (f : Fleet) {generation : ℕ} {wal : List ℕ} (hwal : wal = [])
    (hle : ∀ t ∈ (w.fleet.sk i).timeline, t.mconf.generation ≤ generation) :
    (Event.exclusion i generation ((if (f.sk i).timeline.isNone then (w.fleet.sk i).timeline
      else none).map (·.mconf.generation)) wal).Safe := by
  refine ⟨fun g hg ↦ ?_, hwal⟩
  obtain ⟨t, ht, rfl⟩ := map_eq_some_iff.mp hg
  split at ht
  · exact hle t ht
  · cases ht

/-- A direct exclusion compares the generations and leaves the remote WAL alone. -/
theorem safe_exclude (mconf : Configuration) :
    ∀ e ∈ w.record i (.exclude mconf) (w.fleet.handle i answering (.exclude mconf)).1, e.Safe := by
  rw [Fleet.handle]
  split
  · exact safe_record_self
  unfold Fleet.deleteOrExclude
  dsimp only
  split
  · exact safe_record_self
  split
  · rename_i hnone
    simp [record, Event.Safe, hnone, Fleet.set]
  · rename_i t ht
    split
    · exact safe_record_self
    · rename_i hconflict
      refine List.forall_mem_singleton.mpr (safe_record _ ?_ fun t' ht' ↦ ?_)
      · simp
      · cases ht.symm.trans ht'
        simpa using hconflict

/-- What the handling of a request within the bounds removes. -/
theorem safe_handle (h : b.Within w.fleet) (hr : b.AllowsRequest i r) :
    ∀ e ∈ w.record i r (w.fleet.handle i answering r).1, e.Safe := by
  cases r with
  | membership mconf | pull hosts mconf => simp [record, Event.Safe]
  | exclude mconf => exact safe_exclude mconf
  | delete generation =>
    cases ht : (w.fleet.sk i).timeline with
    | none =>
      have hwal : (w.fleet.deleteOrExclude i none).1.remoteWal = w.fleet.remoteWal := by
        unfold Fleet.deleteOrExclude
        simp only [ht]
        split <;> rfl
      refine List.forall_mem_singleton.mpr (safe_record _ ?_ fun t' ht' ↦ ?_)
      · simp [Fleet.handle, hwal]
      · cases ht.symm.trans ht'
    | some t =>
      obtain ⟨g, hmem, hle⟩ := h.generation i t ht
      obtain ⟨hg, hstored⟩ := hr g hmem
      refine List.forall_mem_singleton.mpr (safe_record _ ?_ fun t' ht' ↦ ?_)
      · simp [h.wal hstored]
      · cases ht.symm.trans ht'
        exact hle.trans hg

/-! ## Runs -/

/-- The state is within the bounds, and all exclusions were safe. -/
structure Sound (b : Bounds) (w : World) : Prop where
  within : b.Within w.fleet
  safe : ∀ e ∈ w.history, e.Safe

theorem SameFleet.sound (h : SameFleet w w') (hs : Sound b w) : Sound b w' := by
  constructor
  · rw [h.fleet]
    exact hs.within
  · rw [h.history]
    exact hs.safe

theorem Sound.handle (answering : List ℕ) (hs : Sound b w) (hr : b.AllowsRequest i r) :
    Sound b (w.handle i answering r).1 where
  within := hs.within.handle hr
  safe := List.forall_mem_append.mpr ⟨safe_handle hs.within hr, hs.safe⟩

theorem Sound.setTimeline {t t' : Timeline} (hs : Sound b w) (ht : (w.fleet.sk i).timeline = some t)
    (hmconf : t'.mconf = t.mconf) : Sound b (w.setTimeline i t') := by
  refine ⟨hs.within.set fun t₁ h₁ ↦ ?_, hs.safe⟩
  cases h₁
  rw [hmconf]
  exact hs.within.generation i t ht

/-- One action within the bounds. -/
theorem Sound.exec (hs : Sound b w) (ha : b.Allows w a) (h : w.exec cfg a = some w') :
    Sound b w' := by
  obtain ⟨hhandled, hupload⟩ := ha
  cases a with
  | migrate p newSkSet => exact (migrate_callStep h).sameFleet.sound hs
  | abort p => exact (abort_callStep h).sameFleet.sound hs
  | proceed p => exact (proceed_callStep h).sameFleet.sound hs
  | ask p i answering =>
    obtain ⟨r, hr, rfl⟩ := map_eq_some_iff.mp h
    have hhandle := hs.handle answering (hhandled (i, r) (by simp [Action.handled, hr]))
    exact { hhandle with }
  | deliver i answering r =>
    simp only [World.exec] at h
    split at h <;> cases h
    exact hs.handle answering (hhandled (i, r) rfl)
  | reconcileOne i answering =>
    obtain ⟨req, hreq, rfl⟩ := map_eq_some_iff.mp h
    have hhandle := hs.handle answering (hhandled (i, req.request) (by simp [Action.handled, hreq]))
    dsimp only
    split <;> exact { hhandle with }
  | greeting i mconf =>
    simp only [World.exec] at h
    split at h
    · obtain ⟨t, ht, hset⟩ := bind_eq_some_iff.mp h
      split at hset <;> cases hset
      exact ⟨hs.within.setSwitched ht (hhandled (i, .membership mconf) rfl),
        List.forall_mem_cons.mpr ⟨trivial, hs.safe⟩⟩
    · cases h
  | write i term lastLogTerm flushLsn commitLsn =>
    obtain ⟨t, ht, hset⟩ := bind_eq_some_iff.mp h
    split at hset <;> cases hset
    exact hs.setTimeline ht rfl
  | ack i =>
    obtain ⟨t, -, rfl⟩ := map_eq_some_iff.mp h
    exact ⟨hs.within, List.forall_mem_cons.mpr ⟨trivial, hs.safe⟩⟩
  | send p i | sendOp i =>
    obtain ⟨r, -, rfl⟩ := map_eq_some_iff.mp h
    exact { hs with }
  | restartSafekeeper i =>
    cases h
    exact ⟨hs.within.set (hs.within.generation i), hs.safe⟩
  | upload segment =>
    cases h
    exact ⟨⟨hs.within.generation, fun hno ↦ absurd (hupload segment rfl) (by simp [hno])⟩, hs.safe⟩
  | fail p | stopReconciler i | restartController =>
    cases h
    exact { hs with }

/-- The timeline on one safekeeper, with these segments in remote storage. -/
def sample (remoteWal : List ℕ) : World where
  db := ⟨⟨1, [1], none, 1, 1⟩, []⟩
  queue := fun _ ↦ none
  calls := fun _ ↦ .idle
  sent := []
  fleet :=
    { sk := fun i ↦ if i = 1 then ⟨some ⟨⟨1, [1], none⟩, 1, 1, 10, 10⟩, none⟩ else ⟨none, none⟩
      remoteWal := remoteWal }
  history := []

end World

end NeonStorage.StorageController.Membership
