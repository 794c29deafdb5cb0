import NeonStorage.Safekeeper.Handlers

/-!
# Commit position and persisted values of one safekeeper

Runs of a single safekeeper: any messages in any order, information from peers, term bumps,
configuration switches, flushes of the control file, and restarts, also in the middle of a
request.

The commit position exists twice, in memory and in the control file, and the position it must
not exceed can move down when WAL is truncated. `SkInv` keeps the order

  `timeline start ≤ persisted commit ≤ commit in memory ≤ flush position`

through all of it. What makes it inductive is `StoreInv`: reading the decoder out never takes a
flushed record back, except below the start of the timeline, where the flush position does not
depend on it.
-/

namespace NeonStorage.Safekeeper

open Fallible TimelineState PhysicalStorage SafeKeeper
open Relation (ReflTransGen)

/-! ## Runs -/

inductive Event
  | message (msg : ProposerAcceptorMessage)
  | peerInfo (commitLsn lastLogTerm : ℕ)
  | termBump (target : Option ℕ)
  | membershipSwitch (conf : Configuration)
  | flushState

def Event.run : Event → SkM Unit
  | .message msg => (fun _ ↦ ()) <$> processMsg msg
  | .peerInfo commitLsn lastLogTerm => recordSafekeeperInfo commitLsn lastLogTerm
  | .termBump target => (fun _ ↦ ()) <$> onState (TimelineState.termBump target)
  | .membershipSwitch conf => (fun _ ↦ ()) <$> onState (TimelineState.membershipSwitch conf)
  | .flushState => onState TimelineState.flush

/-- Load a timeline from its control file and segment files, in which `find_end_of_wal` finds
`found`. -/
def load (pers : TimelinePersistentState) (disk : ℕ → UInt8) (diskEnd nodeId found : ℕ) :
    Except SkError SafeKeeper :=
  match PhysicalStorage.new pers disk diskEnd found with
  | .error e => .error e
  | .ok w => SafeKeeper.new (.new pers) w nodeId

variable (sk : SafeKeeper)

def restart (found : ℕ) : Except SkError SafeKeeper :=
  load sk.state.pers sk.walStore.disk sk.walStore.diskEnd sk.nodeId found

/-- Let the process die at the given disk operations. -/
def armed (n m : Option ℕ) : SafeKeeper :=
  { sk with
    state := { sk.state with crashAfter := n }
    walStore := { sk.walStore with crashAfter := m } }

/-- One step of a safekeeper. Whatever an event returns, the state it left stays; a safekeeper
that dies in or after an event is loaded again. -/
inductive SkStep : SafeKeeper → SafeKeeper → Prop
  | event (sk : SafeKeeper) (e : Event) : SkStep sk (exec e.run sk).2
  | restart (sk sk' : SafeKeeper) (found : ℕ) (h : restart sk found = .ok sk') : SkStep sk sk'
  | crash (sk sk' : SafeKeeper) (e : Event) (n m : Option ℕ) (found : ℕ)
    (h : restart (exec e.run (armed sk n m)).2 found = .ok sk') : SkStep sk sk'

/-- A timeline that was created with `commit_lsn` equal to its start and loaded. -/
def Created : Prop :=
  ∃ tenantId timelineId mconf pgVersion systemId walSegSize startLsn pers nodeId found,
    TimelinePersistentState.new tenantId timelineId mconf pgVersion systemId walSegSize startLsn
      startLsn = .ok pers ∧
    load pers (fun _ ↦ 0) startLsn nodeId found = .ok sk

/-! ## The invariant -/

/-- What the control file satisfies. A timeline whose start is not known yet has no history, or
one from the very beginning. -/
structure PersInv (s : TimelinePersistentState) : Prop where
  start_le : s.timelineStartLsn ≤ s.commitLsn
  head : s.timelineStartLsn = 0 → ∀ e, s.acceptorState.termHistory.head? = some e → e.lsn = 0

structure SkInv (sk : SafeKeeper) : Prop where
  pers : PersInv sk.state.pers
  pers_le : sk.state.pers.commitLsn ≤ sk.state.inmem.commitLsn
  commit_le : sk.state.inmem.commitLsn ≤ sk.flushLsn
  store : StoreInv sk.state.pers.timelineStartLsn sk.walStore
  unwritten : sk.walStore.writeRecordLsn = 0 → sk.state.pers.timelineStartLsn = 0

/-- No persisted value that elections and recovery rely on goes back. -/
structure PersLe (s s' : TimelinePersistentState) : Prop where
  term : s.acceptorState.term ≤ s'.acceptorState.term
  generation : s.mconf.generation ≤ s'.mconf.generation
  commit : s.commitLsn ≤ s'.commitLsn

theorem PersLe.refl (s : TimelinePersistentState) : PersLe s s := ⟨le_rfl, le_rfl, le_rfl⟩

theorem PersLe.trans {s s' s'' : TimelinePersistentState} (h : PersLe s s') (h' : PersLe s' s'') :
    PersLe s s'' :=
  ⟨h.term.trans h'.term, h.generation.trans h'.generation, h.commit.trans h'.commit⟩

/-- The process is not about to die. -/
def Calm : Prop :=
  sk.state.crashAfter = none ∧ sk.walStore.crashAfter = none

/-- What a request that starts in `sk` may leave behind when it is over. -/
structure Good (sk sk' : SafeKeeper) : Prop where
  inv : SkInv sk'
  le : PersLe sk.state.pers sk'.state.pers
  calm : Calm sk → Calm sk'

/-- What it may leave behind when the process dies in it. -/
structure Dead (sk sk' : SafeKeeper) : Prop where
  armed : ¬Calm sk
  pers : PersInv sk'.state.pers
  le : PersLe sk.state.pers sk'.state.pers

/-- What a request may leave behind together with an error. -/
structure GoodError (sk : SafeKeeper) (e : SkError) (sk' : SafeKeeper) : Prop where
  dead : e = .crashed → Dead sk sk'
  good : e ≠ .crashed → Good sk sk'
  panic : ∀ old new, e ≠ .panic (.commitMonotonicity old new)

/-- What the run of a request has to satisfy. -/
def Keeps {α : Type} (m : SkM α) (sk : SafeKeeper) : Prop :=
  wp m (fun _ sk' ↦ Good sk sk') (GoodError sk) sk

variable {sk : SafeKeeper}

theorem Good.refl (h : SkInv sk) : Good sk sk := ⟨h, .refl _, id⟩

theorem Good.trans {sk sk' sk'' : SafeKeeper} (h : Good sk sk') (h' : Good sk' sk'') :
    Good sk sk'' := ⟨h'.inv, h.le.trans h'.le, h'.calm ∘ h.calm⟩

variable {sk sk' : SafeKeeper}

theorem Good.dead (h : Good sk sk') (hc : ¬Calm sk') : Dead sk sk' :=
  ⟨fun h' ↦ hc (h.calm h'), h.inv.pers, h.le⟩

theorem Good.crashed (h : Good sk sk') (hc : ¬Calm sk') : GoodError sk .crashed sk' :=
  ⟨fun _ ↦ h.dead hc, absurd rfl, nofun⟩

theorem Good.error (h : Good sk sk') (e : SkError) (he : e.Ordinary) : GoodError sk e sk' :=
  ⟨by rintro rfl; exact he.elim, fun _ ↦ h, by rintro old new rfl; exact he⟩

/-! ## What the effects keep -/

section Effects

variable {sk sk' : SafeKeeper}

section

variable (h : SkInv sk)
include h

/-- Writing the control file with the values in memory, possibly in a higher term or
generation. -/
theorem SkInv.persisted {s : TimelinePersistentState} (hp : Persisted sk s sk')
    (hcommit : s.commitLsn = sk.state.inmem.commitLsn)
    (hstart : s.timelineStartLsn = sk.state.pers.timelineStartLsn)
    (hhist : s.acceptorState.termHistory = sk.state.pers.acceptorState.termHistory)
    (hterm : sk.state.pers.acceptorState.term ≤ s.acceptorState.term)
    (hgen : sk.state.pers.mconf.generation ≤ s.mconf.generation) : Good sk sk' := by
  obtain ⟨n, hn⟩ := hp
  have hpers : PersInv s := by
    refine ⟨?_, ?_⟩
    · rw [hstart, hcommit]
      exact h.pers.start_le.trans h.pers_le
    · rw [hstart, hhist]
      exact h.pers.head
  refine ⟨⟨hpers, le_rfl, ?_, ?_, ?_⟩, ⟨hterm, hgen, hcommit ▸ h.pers_le⟩, fun hc ↦ ⟨hn hc.1, hc.2⟩⟩
  · change s.commitLsn ≤ max _ s.timelineStartLsn
    rw [hcommit, hstart]
    exact h.commit_le
  · change StoreInv s.timelineStartLsn _
    rw [hstart]
    exact h.store
  · change _ → s.timelineStartLsn = 0
    rw [hstart]
    exact h.unwritten

variable {w : PhysicalStorage}

theorem SkInv.withStore (hs : StoreInv sk.state.pers.timelineStartLsn w)
    (hflush : sk.walStore.flushRecordLsn ≤ w.flushRecordLsn ∨
      sk.walStore.flushRecordLsn ≤ sk.state.pers.timelineStartLsn)
    (hzero : w.writeRecordLsn = 0 → sk.walStore.writeRecordLsn = 0)
    (hc : sk.walStore.crashAfter = none → w.crashAfter = none) : Good sk (sk.withStore w) := by
  refine ⟨⟨h.pers, h.pers_le, ?_, hs, fun h0 ↦ h.unwritten (hzero h0)⟩, .refl _,
    fun hcalm ↦ ⟨hcalm.1, hc hcalm.2⟩⟩
  have hle := h.commit_le
  unfold SafeKeeper.flushLsn at hle
  change sk.state.inmem.commitLsn ≤ max w.flushRecordLsn sk.state.pers.timelineStartLsn
  omega

theorem SkInv.flushed (hf : Flushed sk.walStore w) : Good sk (sk.withStore w) := by
  obtain ⟨hs, hle⟩ := h.store.flush hf
  exact h.withStore hs (.inl hle) (fun h0 ↦ hf.frame.2 ▸ h0) hf.frame.1

theorem SkInv.stored {msg : AppendRequest} (hw : Stored sk.walStore msg w) :
    Good sk (sk.withStore w) := by
  induction hw with
  | empty _ => exact .refl h
  | wrote hne w₁ hw =>
    obtain ⟨hs, hle⟩ := h.store.wrote hw
    obtain ⟨hcrash, hzero⟩ := hw.frame
    exact h.withStore hs hle hzero hcrash.trans
  | flushed w₁ w₂ _ hf ih => exact ih.trans (ih.inv.flushed hf)

theorem SkInv.withCommit {c : ℕ} (hold : sk.state.inmem.commitLsn ≤ c) (hflush : c ≤ sk.flushLsn) :
    Good sk (sk.withCommit c) :=
  ⟨⟨h.pers, h.pers_le.trans hold, hflush, h.store, h.unwritten⟩, .refl _, id⟩

theorem SkInv.commitUpdated {candidate : ℕ} (hc : CommitUpdated sk candidate sk') :
    Good sk sk' := by
  cases hc with
  | mem c hold hflush _ => exact h.withCommit hold hflush
  | file c hold hflush _ _ hp =>
    have hmem := h.withCommit hold hflush
    exact hmem.trans (hmem.inv.persisted hp rfl rfl rfl le_rfl le_rfl)

theorem SkInv.withHorizon (l : ℕ) : Good sk (sk.withHorizon l) :=
  ⟨⟨h.pers, h.pers_le, h.commit_le, h.store, h.unwritten⟩, .refl _, id⟩

theorem SkInv.raised {t : ℕ} (hr : Raised sk t sk') : Good sk sk' := by
  cases hr with
  | same _ => exact .refl h
  | raise hlt _ hp => exact h.persisted hp rfl rfl rfl hlt.le le_rfl

end

variable {msg : ProposerElected}

theorem adoptHistory_start (s : TimelinePersistentState) {e : Epoch}
    (he : msg.termHistory.head? = some e) : (adoptHistory s msg).timelineStartLsn =
      if s.timelineStartLsn = 0 then e.lsn else s.timelineStartLsn := by
  simp only [adoptHistory, he]

/-- **Truncating at the last common point** and taking over the proposer's history. A point above
everything written can only be the beginning of the proposer's history; then the timeline starts
there. -/
theorem SkInv.adopted (h : SkInv sk) (hel : Elects sk msg)
    (ht : Truncated sk.walStore msg.startStreamingAt w)
    (hp : Persisted (sk.withStore w) (adoptHistory sk.state.startChange msg) sk') :
    Good sk sk' := by
  obtain ⟨lcp, hlcp, hlsn⟩ := hel.lcp
  obtain ⟨e, he⟩ : ∃ e, msg.termHistory.head? = some e := by
    rcases lastCommonPoint_cases hlcp with he | ⟨-, e, he, -⟩ <;> exact ⟨_, he⟩
  have hstart := adoptHistory_start sk.state.startChange he
  have hcommit := hel.commit
  have hpers := h.pers.start_le.trans h.pers_le
  have hflush := h.store.flush_le
  generalize hs : adoptHistory sk.state.startChange msg = s at hp hstart
  have hsc : s.commitLsn = max sk.state.inmem.commitLsn s.timelineStartLsn := by rw [← hs]; rfl
  have hhead : s.acceptorState.termHistory.head? = some e := by rw [← hs]; exact he
  change s.timelineStartLsn = if sk.state.pers.timelineStartLsn = 0 then e.lsn
    else sk.state.pers.timelineStartLsn at hstart
  -- a point that is not above the old start makes the start of the timeline zero as well
  have hzero : msg.startStreamingAt = 0 → s.timelineStartLsn = 0 := by
    intro h0
    have hts : sk.state.pers.timelineStartLsn = 0 := by omega
    rw [hstart, if_pos hts]
    rcases lastCommonPoint_cases hlcp with he' | ⟨-, e', he', hsk⟩
    · cases he.symm.trans he'
      omega
    · cases he.symm.trans he'
      exact h.pers.head hts e hsk
  have hend : sk.walStore.writeRecordLsn = 0 → msg.startStreamingAt ≤ s.timelineStartLsn := by
    intro h0
    have hts := h.unwritten h0
    rw [hstart, if_pos hts]
    rcases lastCommonPoint_cases hlcp with he' | ⟨hle, -⟩
    · cases he.symm.trans he'
      omega
    · unfold SafeKeeper.flushLsn at hle
      omega
  have hle : sk.state.pers.timelineStartLsn ≤ s.timelineStartLsn := by
    rw [hstart]
    split <;> omega
  obtain ⟨hstore, hfl⟩ := h.store.truncate hle hend ht
  have hcalm : sk.walStore.crashAfter = none → w.crashAfter = none := by
    cases ht with
    | quick _ _ _ => exact id
    | cut _ n hn => exact hn
  have hterm : s.acceptorState.term = sk.term := by rw [← hs]; rfl
  have hgen : s.mconf.generation = sk.generation := by rw [← hs]; rfl
  obtain ⟨n, hn⟩ := hp
  refine ⟨⟨⟨?_, ?_⟩, le_rfl, ?_, hstore, fun h0 ↦ hzero ?_⟩, ⟨hterm.ge, hgen.ge, ?_⟩,
    fun hc ↦ ⟨hn hc.1, hcalm hc.2⟩⟩
  · exact hsc ▸ le_max_right _ _
  · intro h0 e' he'
    change s.acceptorState.termHistory.head? = some e' at he'
    cases hhead.symm.trans he'
    change s.timelineStartLsn = 0 at h0
    rw [hstart] at h0
    split at h0 <;> omega
  · change s.commitLsn ≤ max w.flushRecordLsn s.timelineStartLsn
    omega
  · change w.writeRecordLsn = 0 at h0
    have := hstore.flush_le
    omega
  · change sk.state.pers.commitLsn ≤ s.commitLsn
    have := h.pers_le
    omega

end Effects

/-! ## What the requests keep -/

section Requests

variable {sk : SafeKeeper}

theorem not_calm_of_state (h : sk.state.crashAfter ≠ none) : ¬Calm sk := fun hc ↦ h hc.1

theorem not_calm_of_store (h : sk.walStore.crashAfter ≠ none) : ¬Calm sk := fun hc ↦ h hc.2

section

variable (h : SkInv sk)
include h

theorem SkInv.handleGreeting (msg : ProposerGreeting) : Keeps (handleGreeting msg) sk := by
  have hserver : ∀ sk₁, ServerAdopted sk msg sk₁ → Good sk sk₁ := by
    rintro sk₁ ⟨-, _, hp⟩
    exact h.persisted hp rfl rfl rfl le_rfl le_rfl
  refine wp_handleGreeting (Good.refl h).error
    (fun hc ↦ (Good.refl h).crashed (not_calm_of_state hc))
    (fun sk₁ hp ↦ ⟨(hserver sk₁ hp).error, fun hc ↦ (hserver sk₁ hp).crashed
      (not_calm_of_state hc)⟩) fun sk₁ h₁ sk₂ h₂ ↦ ?_
  have hgood : Good sk sk₁ := h₁.elim (by rintro rfl; exact .refl h) (hserver sk₁)
  have hgen : sk₁.generation = sk.generation := by
    rcases h₁ with rfl | ⟨-, _, ⟨n, hn⟩⟩ <;> rfl
  rcases h₂ with ⟨-, rfl⟩ | ⟨hlt, -, hp⟩
  · exact hgood
  · exact hgood.trans (hgood.inv.persisted hp rfl rfl rfl le_rfl (hgen.trans_le hlt.le))

theorem SkInv.handleVoteRequest (msg : VoteRequest) : Keeps (handleVoteRequest msg) sk := by
  refine wp_handleVoteRequest (Good.refl h).error
    (fun hc ↦ (Good.refl h).crashed (not_calm_of_store hc)) (fun w hw _ ↦ h.flushed hw)
    fun w hw _ hlt ↦ ⟨fun hc ↦ (h.flushed hw).crashed (not_calm_of_state hc), fun sk' hp ↦ ?_⟩
  have hgood := h.flushed hw
  exact hgood.trans (hgood.inv.persisted hp rfl rfl rfl hlt.le le_rfl)

theorem SkInv.handleElected (msg : ProposerElected) : Keeps (handleElected msg) sk := by
  refine wp_handleElected (Good.refl h).error
    (fun hc ↦ (Good.refl h).crashed (not_calm_of_state hc)) (fun _ _ ↦ .refl h)
    (fun sk₁ hr _ ↦ (h.raised hr).error) (fun sk₁ hr _ hc ↦ ?_) fun sk₁ hr hel w ht ↦ ?_
  · -- the process dies with the positions moved; the control file has at most the new term
    have hgood := h.raised hr
    exact ⟨fun _ ↦ ⟨fun hcalm ↦ hc (hgood.calm hcalm).2, hgood.inv.pers, hgood.le⟩,
      absurd rfl, nofun⟩
  · have hgood := h.raised hr
    refine ⟨fun hc ↦ ?_, fun sk' hp ↦ ?_⟩
    · exact ⟨fun _ ↦ ⟨fun hcalm ↦ hc (hgood.calm hcalm).1, hgood.inv.pers, hgood.le⟩,
        absurd rfl, nofun⟩
    · have hadopt := hgood.trans (hgood.inv.adopted hel ht hp)
      refine ⟨fun e _ ↦ ⟨?_, hadopt.le, hadopt.calm⟩, fun _ ↦ hadopt.error _ trivial⟩
      exact ⟨hadopt.inv.pers, hadopt.inv.pers_le, hadopt.inv.commit_le, hadopt.inv.store,
        hadopt.inv.unwritten⟩

theorem SkInv.handleAppendRequest (msg : AppendRequest) (requireFlush : Bool) :
    Keeps (handleAppendRequest msg requireFlush) sk := by
  refine wp_handleAppendRequest (Good.refl h).error (fun _ _ ↦ .refl h) fun _ _ w hw ↦ ?_
  have hgood := h.stored hw
  have hinv := hgood.inv
  refine ⟨hgood.error, fun hc ↦ hgood.crashed (not_calm_of_store hc), fun hlt ↦ ?_,
    fun hc sk' hu ↦ ?_, fun sk₁ h₁ ↦ ?_⟩
  · exact absurd hlt (Nat.not_lt.mpr hinv.commit_le)
  · have hup := hgood.trans (hinv.commitUpdated hu)
    exact ⟨fun _ ↦ ⟨not_calm_of_state hc, hup.inv.pers, hup.le⟩, absurd rfl, nofun⟩
  · have hup : Good sk sk₁ :=
      h₁.elim (fun h' ↦ h' ▸ hgood) fun hu ↦ hgood.trans (hinv.commitUpdated hu)
    have hdone := hup.trans (hup.inv.withHorizon msg.h.truncateLsn)
    exact ⟨hdone, hdone⟩

theorem SkInv.handleFlush : Keeps handleFlush sk :=
  wp_handleFlush (Good.refl h).error (fun hc ↦ (Good.refl h).crashed (not_calm_of_store hc))
    fun _ hw ↦ h.flushed hw

theorem SkInv.recordSafekeeperInfo (commitLsn lastLogTerm : ℕ) :
    Keeps (recordSafekeeperInfo commitLsn lastLogTerm) sk := by
  refine wp_recordSafekeeperInfo (.refl h) (fun _ sk' hu ↦ h.commitUpdated hu) (fun hlt ↦ ?_)
    fun hc sk' hu ↦ ?_
  · exact absurd hlt (Nat.not_lt.mpr h.commit_le)
  · have hup := h.commitUpdated hu
    exact ⟨fun _ ↦ ⟨not_calm_of_state hc, hup.inv.pers, hup.le⟩, absurd rfl, nofun⟩

theorem SkInv.processMsg (msg : ProposerAcceptorMessage) : Keeps (processMsg msg) sk := by
  cases msg with
  | greeting msg => exact h.handleGreeting msg
  | voteRequest msg => exact h.handleVoteRequest msg
  | elected msg => exact h.handleElected msg
  | appendRequest msg => exact h.handleAppendRequest msg true
  | noFlushAppendRequest msg => exact h.handleAppendRequest msg false
  | flushWAL => exact h.handleFlush

/-- **Every event keeps the invariant**, and the monotonicity assertion does not fail in it. -/
theorem SkInv.event (e : Event) : Keeps e.run sk := by
  have hcrash : sk.state.crashAfter ≠ none → GoodError sk .crashed sk :=
    fun hc ↦ (Good.refl h).crashed (not_calm_of_state hc)
  cases e with
  | message msg => exact (wp_map _ _ _ _ _).mpr (h.processMsg msg)
  | peerInfo commitLsn lastLogTerm => exact h.recordSafekeeperInfo commitLsn lastLogTerm
  | termBump target =>
    refine (wp_map _ _ _ _ _).mpr ((wp_zoom _ _ _ _ _ _).mpr ?_)
    exact wp_termBump (fun _ ↦ .refl h)
      (fun _ term n hlt hn ↦ h.persisted (s := sk.state.withTerm term) (.mk n hn) rfl rfl rfl
        hlt.le le_rfl) hcrash
  | membershipSwitch conf =>
    refine (wp_map _ _ _ _ _).mpr ((wp_zoom _ _ _ _ _ _).mpr ?_)
    exact wp_membershipSwitch (fun _ _ ↦ .refl h)
      (fun hlt _ n hn ↦ h.persisted (s := { sk.state.startChange with mconf := conf }) (.mk n hn)
        rfl rfl rfl le_rfl hlt.le) hcrash
  | flushState =>
    exact wp_onState_flush (fun sk' hp ↦ h.persisted hp rfl rfl rfl le_rfl le_rfl) hcrash

end

end Requests

/-! ## Loading -/

def loaded (pers : TimelinePersistentState) (nodeId : ℕ) (w : PhysicalStorage) : SafeKeeper :=
  ⟨0, .new pers, w, nodeId⟩

variable {pers : TimelinePersistentState} {diskEnd nodeId found : ℕ} {disk : ℕ → UInt8}

theorem load_ok (h : load pers disk diskEnd nodeId found = .ok sk) :
    ∃ v w, sk = loaded pers nodeId (.opened pers.server.walSegSize v disk diskEnd w) ∧
      pgMajorVersion pers.server.pgVersion = some v ∧
      pers.commitLsn ≤ w ∧ w = if pers.commitLsn = 0 then 0 else found := by
  unfold load at h
  split at h
  · cases h
  · rename_i store hstore
    obtain ⟨v, w, rfl, hv, hle, hw⟩ := new_ok hstore
    unfold SafeKeeper.new at h
    split at h
    · cases h
    · cases h
      exact ⟨v, w, rfl, hv, hle, hw⟩

theorem SkInv.load (hpers : PersInv pers) (h : load pers disk diskEnd nodeId found = .ok sk) :
    (SkInv sk ∧ Calm sk) ∧ sk.state.pers = pers := by
  obtain ⟨v, w, rfl, -, hle, -⟩ := load_ok h
  refine ⟨⟨⟨hpers, le_rfl, hle.trans (le_max_left _ _), .opened _ _ _ _ _, fun h0 ↦ ?_⟩,
    rfl, rfl⟩, rfl⟩
  change w = 0 at h0
  have := hpers.start_le
  change pers.timelineStartLsn = 0
  omega

theorem Created.inv (h : Created sk) : SkInv sk ∧ Calm sk := by
  obtain ⟨tenantId, timelineId, mconf, pgVersion, systemId, walSegSize, startLsn, pers, nodeId,
    found, hnew, hload⟩ := h
  refine (SkInv.load ?_ hload).1
  unfold TimelinePersistentState.new at hnew
  split at hnew
  swap
  · cases hnew
  split at hnew
  · cases hnew
  split at hnew
  · cases hnew
  · cases hnew
    refine ⟨le_rfl, fun h0 e he ↦ ?_⟩
    change startLsn = 0 at h0
    rw [h0] at he
    cases he

/-! ## Whole runs -/

theorem SkInv.armed (h : SkInv sk) (n m : Option ℕ) : SkInv (armed sk n m) :=
  ⟨h.pers, h.pers_le, h.commit_le, ⟨h.store.flushed, h.store.flush_le, h.store.floor,
    h.store.write, h.store.zero⟩, h.unwritten⟩

/-- **Step lemma**: a step keeps the invariant and takes no persisted value back. -/
theorem SkStep.keeps (h : SkInv sk ∧ Calm sk) (hstep : SkStep sk sk') :
    (SkInv sk' ∧ Calm sk') ∧ PersLe sk.state.pers sk'.state.pers := by
  cases hstep with
  | event e =>
    have hgood : Good sk (exec e.run sk).2 := by
      refine wp_state (wp_mono (h.1.event e) (fun _ _ ↦ id) fun err sk' herr ↦ ?_)
      -- without a death of the process planned, it does not happen
      exact herr.good fun hc ↦ (herr.dead hc).armed h.2
    exact ⟨⟨hgood.inv, hgood.calm h.2⟩, hgood.le⟩
  | restart _ found hload =>
    obtain ⟨hinv, hpers⟩ := SkInv.load h.1.pers hload
    exact ⟨hinv, hpers ▸ .refl _⟩
  | crash _ e n m found hload =>
    have hleft : PersInv (exec e.run (Safekeeper.armed sk n m)).2.state.pers ∧
        PersLe sk.state.pers (exec e.run (Safekeeper.armed sk n m)).2.state.pers := by
      refine wp_state (P := fun s ↦ PersInv s.state.pers ∧ PersLe sk.state.pers s.state.pers)
        (wp_mono ((h.1.armed n m).event e) (fun _ _ hg ↦ ?_) fun err sk₁ herr ↦ ?_)
      · exact ⟨hg.inv.pers, hg.le⟩
      by_cases hc : err = .crashed
      · exact ⟨(herr.dead hc).pers, (herr.dead hc).le⟩
      · exact ⟨(herr.good hc).inv.pers, (herr.good hc).le⟩
    obtain ⟨hinv, hpers⟩ := SkInv.load hleft.1 hload
    exact ⟨hinv, hpers ▸ hleft.2⟩

/-- **Run lemma**: the invariant holds in every state that is reached. -/
theorem Created.inv_of_run {sk₀ sk : SafeKeeper} (hcreated : Created sk₀)
    (hrun : ReflTransGen SkStep sk₀ sk) : SkInv sk ∧ Calm sk :=
  run_induction (I := fun s ↦ SkInv s ∧ Calm s) (fun _ _ hs hstep ↦ (SkStep.keeps hs hstep).1)
    hcreated.inv hrun

theorem persLe_of_run (hinv : SkInv sk ∧ Calm sk) (hrun : ReflTransGen SkStep sk sk') :
    PersLe sk.state.pers sk'.state.pers :=
  run_relation (R := fun a b : SafeKeeper ↦ PersLe a.state.pers b.state.pers)
    (fun _ ↦ .refl _) (fun _ _ _ ↦ .trans) (fun _ _ hs ↦ (·.keeps hs)) hinv hrun

/-- **The single-node invariant over whole runs.** In every state that a safekeeper reaches from
its creation, the commit position in memory does not exceed the flush position, no event makes
the monotonicity assertion of `update_commit_lsn` fail, and whatever happens later, the persisted
term, generation and commit position are not below what they are now. -/
theorem commitLsn_le_flushLsn_of_run {sk₀ sk : SafeKeeper} (hcreated : Created sk₀)
    (hrun : ReflTransGen SkStep sk₀ sk) : sk.state.inmem.commitLsn ≤ sk.flushLsn ∧
      (∀ (e : Event) (n m : Option ℕ) (old new : ℕ),
        (exec e.run (armed sk n m)).1 ≠ .error (.panic (.commitMonotonicity old new))) ∧
      ∀ sk', ReflTransGen SkStep sk sk' → PersLe sk.state.pers sk'.state.pers := by
  have hinv := hcreated.inv_of_run hrun
  refine ⟨hinv.1.commit_le, fun e n m old new herr ↦ ?_, fun _ ↦ persLe_of_run hinv⟩
  have hkeeps := (hinv.1.armed n m).event e
  rcases hr : exec e.run (armed sk n m) with ⟨r, sk₁⟩
  rw [hr] at herr
  cases herr
  exact (wp_error hkeeps hr).panic old new rfl

theorem sampleSegSize_pos : 0 < 16777216 := by decide

/-- A timeline of a single safekeeper that starts at position 4096. -/
def sampleTimeline : TimelinePersistentState where
  tenantId := ⟨List.replicate 16 1, rfl⟩
  timelineId := ⟨List.replicate 16 2, rfl⟩
  mconf := ⟨1, ⟨[⟨1, "sk", 5454⟩], by decide⟩, none⟩
  acceptorState := ⟨0, [⟨0, 4096⟩]⟩
  server := ⟨170004, 7, ⟨16777216, sampleSegSize_pos⟩⟩
  timelineStartLsn := 4096
  localStartLsn := 4096
  commitLsn := 4096
  backupLsn := 4096
  peerHorizonLsn := 4096
  remoteConsistentLsn := 0

def sampleSafekeeper : SafeKeeper :=
  loaded sampleTimeline 1 (.opened sampleTimeline.server.walSegSize .PG17 (fun _ ↦ 0) 4096 4096)

theorem created_sampleSafekeeper : Created sampleSafekeeper :=
  ⟨sampleTimeline.tenantId, sampleTimeline.timelineId, sampleTimeline.mconf, 170004, 7, 16777216,
    4096, sampleTimeline, 1, 4096, rfl, rfl⟩

/-- The sample safekeeper votes and gets two bytes, with a commit position beyond them. -/
theorem commitLsn_le_flushLsn_sample : Created sampleSafekeeper ∧
      ∃ sk, ReflTransGen SkStep sampleSafekeeper sk ∧ sk.term = 3 ∧
        sk.walStore.writeLsn = 4098 ∧ sk.state.inmem.commitLsn ≤ sk.flushLsn := by
  have hrun := ((ReflTransGen.single
    (SkStep.event sampleSafekeeper (.message (.voteRequest ⟨1, 3⟩)))).tail
    (.event _ (.message (.elected ⟨1, 3, 4096, [⟨3, 4096⟩]⟩)))).tail
    (.event _ (.message (.appendRequest ⟨⟨1, 3, 4096, 4098, 5000, 4096⟩, [7, 7]⟩)))
  exact ⟨created_sampleSafekeeper, _, hrun, by decide +kernel, by decide +kernel,
    (commitLsn_le_flushLsn_of_run created_sampleSafekeeper hrun).1⟩

/-! ## What a safekeeper does not take back -/

/-- The request is answered with a vote, and `sk'` is left. -/
def Votes (sk : SafeKeeper) (msg : VoteRequest) (sk' : SafeKeeper) : Prop :=
  ∃ resp : VoteResponse, resp.voteGiven ∧
    exec (processMsg (.voteRequest msg)) sk = (.ok (some (.voteResponse resp)), sk')

/-- A vote raises the term, on disk before the answer. -/
theorem Votes.term {s s' : SafeKeeper} {msg : VoteRequest} (h : Votes s msg s') :
    s.term < msg.term ∧ s'.term = msg.term := by
  obtain ⟨resp, hgiven, hr⟩ := h
  have hrule : wp (handleVoteRequest msg) (fun r s' ↦ r = some (.voteResponse resp) →
      s.term < msg.term ∧ s'.term = msg.term) (fun _ _ ↦ True) s := by
    refine wp_handleVoteRequest (fun _ _ ↦ trivial) (fun _ ↦ trivial) (fun w _ _ hr ↦ ?_)
      fun w _ _ hlt ↦ ⟨fun _ ↦ trivial, fun s' hp _ ↦ ⟨hlt, ?_⟩⟩
    · cases hr
      cases hgiven
    · cases hp
      rfl
  exact wp_ok hrule hr rfl

/-- The configuration of the sender; a greeting comes with a configuration of its own. -/
def ProposerAcceptorMessage.generation? : ProposerAcceptorMessage → Option ℕ
  | .greeting _ | .flushWAL => none
  | .voteRequest msg => some msg.generation
  | .elected msg => some msg.generation
  | .appendRequest msg | .noFlushAppendRequest msg => some msg.h.generation

section

variable {sk₀ sk sk' : SafeKeeper} (hcreated : Created sk₀)
  (hrun : ReflTransGen SkStep sk₀ sk) (hrun' : ReflTransGen SkStep sk sk')
include hcreated hrun hrun'

/-- **A vote is a promise.** Whatever happens to a safekeeper after it has voted, also if it dies
and is loaded again, it votes in later terms only, and an append request of an earlier term leaves
it as it is. -/
theorem later_of_votes {s : SafeKeeper} {msg : VoteRequest} (hvote : Votes s msg sk) :
    (∀ msg' s', Votes sk' msg' s' → msg.term < msg'.term) ∧
      ∀ (req : AppendRequest) (requireFlush : Bool), req.h.term < msg.term →
        (exec (handleAppendRequest req requireFlush) sk').2 = sk' := by
  have hle : msg.term ≤ sk'.term :=
    hvote.term.2 ▸ (persLe_of_run (hcreated.inv_of_run hrun) hrun').term
  refine ⟨fun msg' s' hvote' ↦ hle.trans_lt hvote'.term.1, fun req flush hlt ↦ ?_⟩
  exact wp_state (P := (· = sk')) (wp_handleAppendRequest (fun _ _ ↦ rfl) (fun _ _ ↦ rfl)
    fun _ heq ↦ by omega)

/-- **A configuration fences off the earlier ones.** Once a safekeeper has a configuration, it
refuses every message from an earlier one, and is left as it is. -/
theorem refused_of_generation_lt {msg : ProposerAcceptorMessage} {g : ℕ}
    (hmsg : msg.generation? = some g) (hlt : g < sk.generation) :
    ∃ e, exec (processMsg msg) sk' = (.error e, sk') := by
  have hne : sk'.generation ≠ g :=
    (hlt.trans_le (persLe_of_run (hcreated.inv_of_run hrun) hrun').generation).ne'
  have h : wp (processMsg msg) (fun _ _ ↦ False) (fun _ s ↦ sk' = s) sk' := by
    cases msg with
    | greeting | flushWAL => cases hmsg
    | voteRequest | elected | appendRequest | noFlushAppendRequest =>
      cases hmsg
      simp only [processMsg, handleVoteRequest, handleElected, handleAppendRequest, wp_bind, wp_get,
        wp_refuseIf]
      exact ⟨fun _ ↦ trivial, fun h ↦ (h hne).elim⟩
  rcases hr : exec (processMsg msg) sk' with ⟨e | a, s⟩
  · exact ⟨e, wp_error h hr ▸ rfl⟩
  · exact (wp_ok h hr).elim

end

/-- The sample safekeeper votes in term 3, and then in term 5. -/
theorem later_of_votes_sample : ∃ sk sk', Votes sampleSafekeeper ⟨1, 3⟩ sk ∧
    Votes sk ⟨1, 5⟩ sk' ∧ ∀ msg' s', Votes sk msg' s' → 3 < msg'.term := by
  have hvote : Votes sampleSafekeeper ⟨1, 3⟩ _ := ⟨_, rfl, rfl⟩
  exact ⟨_, _, hvote, ⟨_, rfl, rfl⟩, (later_of_votes created_sampleSafekeeper
    (.single (.event _ (.message (.voteRequest ⟨1, 3⟩)))) .refl hvote).1⟩

/-- After the switch to generation 2 and a vote there, generation 1 is refused. -/
theorem refused_sample : ∃ sk, sk.term = 3 ∧
    ∃ e, exec (processMsg (.voteRequest ⟨1, 5⟩)) sk = (.error e, sk) := by
  have hrun := ReflTransGen.single
    (SkStep.event sampleSafekeeper
      (.membershipSwitch { sampleTimeline.mconf with generation := 2 }))
  exact ⟨_, by decide +kernel, refused_of_generation_lt created_sampleSafekeeper hrun
    (.single (.event _ (.message (.voteRequest ⟨2, 3⟩)))) rfl (by decide +kernel)⟩

end NeonStorage.Safekeeper
