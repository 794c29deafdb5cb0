import NeonStorage.Lib.Fallible
import NeonStorage.Safekeeper.Messages

/-!
# The control file and the state of a timeline

`TimelinePersistentState` is what the control file holds. `TimelineState` puts in-memory copies
of the values that change often on top of it: `startChange` merges them into a copy of the
persistent state, `finishChange` persists that copy and adopts it.

The process can die in the middle of a request. `crashAfter` says at which of the following
persists it does, if at all; a request that ends in `SkError.crashed` is followed by a restart
from what is on disk.
-/

namespace NeonStorage.Safekeeper

/-- `PgMajorVersion::try_from` of a full version number such as `170004`. -/
def pgMajorVersion (v : ℕ) : Option PgMajorVersion :=
  match v / 10000 with
  | 14 => some .PG14
  | 15 => some .PG15
  | 16 => some .PG16
  | 17 => some .PG17
  | _ => none

def UNKNOWN_SERVER_VERSION : ℕ := 0

/-- The assertions of the safekeeper, with the values they report. -/
inductive SkPanic
  | history (p : HistoryPanic)
  /-- "attempt to truncate committed data: .." -/
  | truncateCommitted (startStreamingAt commitLsn : ℕ)
  /-- "commit_lsn monotonicity violated: old=.. new=.." -/
  | commitMonotonicity (old new : ℕ)
  deriving DecidableEq

/-- Why a request to a safekeeper fails: the refusals of the source with the values they report,
a failed assertion, or the death of the process. -/
inductive SkError
  | uninitializedWalSegSize
  | uninitializedPgVersion
  /-- "commit_lsn .. is smaller than start_lsn .." -/
  | commitBelowStart (commitLsn startLsn : ℕ)
  | invalidPgVersion (version : ℕ)
  | incompatibleVersion (got expected : ℕ)
  | invalidTenant (got expected : HexId)
  | invalidTimeline (got expected : HexId)
  | invalidWalSegSize (got expected : ℕ)
  | notAMember (conf : Configuration) (node : ℕ)
  /-- "refusing .. due to generation mismatch: sk generation .." -/
  | generationMismatch (got expected : ℕ)
  | emptyTermHistory
  /-- "refusing ProposerElected with unexpected truncation point: .." -/
  | unexpectedTruncationPoint (lcp : Epoch) (startStreamingAt : ℕ)
  | appendBeforeElected
  /-- "append request rewrites WAL written before" and the same check of `write_wal` -/
  | rewritesWal (writeLsn startpos : ℕ)
  /-- "append request creates gap in written WAL" and the same check of `write_wal` -/
  | createsGap (writeLsn startpos : ℕ)
  | pendingTruncation (writeLsn startpos : ℕ)
  | walDecode (e : WalDecodeError)
  /-- "unexpected unflushed data with no open file, .." -/
  | unflushedNoFile (writeLsn flushLsn : ℕ)
  /-- "truncate_wal called on non-written WAL, .." -/
  | truncateNonWritten (writeRecordLsn endPos : ℕ)
  /-- "potential data loss: flush_lsn .. is less than commit_lsn .. from control file" -/
  | dataLoss (flushLsn commitLsn : ℕ)
  | emptyId
  | crashed
  | panic (p : SkPanic)
  deriving DecidableEq

/-- An error that leaves the process alive and is not the monotonicity assertion, which the rules
of the handlers treat by itself. -/
def SkError.Ordinary : SkError → Prop
  | .crashed | .panic (.commitMonotonicity _ _) => False
  | _ => True

/-! ## Persistent state -/

/-- `ServerInfo`; a timeline is only created with a segment size above zero. -/
structure ServerInfo where
  pgVersion : ℕ
  systemId : ℕ
  walSegSize : ℕ+
  deriving DecidableEq

structure AcceptorState where
  term : ℕ
  termHistory : List Epoch
  deriving DecidableEq

structure TimelinePersistentState where
  tenantId : HexId
  timelineId : HexId
  mconf : Configuration
  acceptorState : AcceptorState
  server : ServerInfo
  timelineStartLsn : ℕ
  localStartLsn : ℕ
  commitLsn : ℕ
  backupLsn : ℕ
  peerHorizonLsn : ℕ
  remoteConsistentLsn : ℕ
  deriving DecidableEq

/-- `TimelinePersistentState::new`: the history begins with the initial term when the position
is known. -/
def TimelinePersistentState.new (tenantId timelineId : HexId) (mconf : Configuration)
    (pgVersion systemId walSegSize startLsn commitLsn : ℕ) :
    Except SkError TimelinePersistentState :=
  if h : 0 < walSegSize then
    if pgVersion = UNKNOWN_SERVER_VERSION then .error .uninitializedPgVersion
    else if commitLsn < startLsn then .error (.commitBelowStart commitLsn startLsn)
    else .ok
      { tenantId, timelineId, mconf
        acceptorState :=
          ⟨INITIAL_TERM, if commitLsn ≠ 0 then [⟨INITIAL_TERM, startLsn⟩] else []⟩
        server := ⟨pgVersion, systemId, ⟨walSegSize, h⟩⟩
        timelineStartLsn := startLsn
        localStartLsn := startLsn
        commitLsn
        backupLsn := startLsn
        peerHorizonLsn := startLsn
        remoteConsistentLsn := 0 }
  else .error .uninitializedWalSegSize

/-! ## The in-memory layer -/

structure TimelineMemState where
  commitLsn : ℕ
  backupLsn : ℕ
  peerHorizonLsn : ℕ
  remoteConsistentLsn : ℕ

/-- `TimelineState`; `crashAfter` counts down the persists before the process dies. -/
structure TimelineState where
  inmem : TimelineMemState
  pers : TimelinePersistentState
  crashAfter : Option ℕ

abbrev CtrlM := Fallible SkError TimelineState

namespace TimelineState

open Fallible

variable (s : TimelinePersistentState)

def memOf : TimelineMemState :=
  ⟨s.commitLsn, s.backupLsn, s.peerHorizonLsn, s.remoteConsistentLsn⟩

def new : TimelineState := ⟨memOf s, s, none⟩

/-- `start_change`: a copy of the persistent state with the in-memory values applied. -/
def startChange (t : TimelineState) : TimelinePersistentState :=
  { t.pers with
    commitLsn := t.inmem.commitLsn
    backupLsn := t.inmem.backupLsn
    peerHorizonLsn := t.inmem.peerHorizonLsn
    remoteConsistentLsn := t.inmem.remoteConsistentLsn }

def persist : CtrlM Unit := do
  let t ← get
  refuseIf (t.crashAfter = some 0) .crashed
  set { t with pers := s, crashAfter := t.crashAfter.map (· - 1) }

def finishChange : CtrlM Unit := do
  let t ← get
  doIf (s ≠ t.pers) (persist s)
  modify fun t ↦ { t with inmem := memOf s }

def flush : CtrlM Unit := do
  let t ← get
  finishChange t.startChange

/-- `term_bump`; terms have 64 bits and the increment wraps. Returns the terms before and
after. -/
def termBump (target : Option ℕ) : CtrlM (ℕ × ℕ) := do
  let t ← get
  let before := t.pers.acceptorState.term
  let state := t.startChange
  let new := match target with
    | some n => max state.acceptorState.term n
    | none => (state.acceptorState.term + 1) % 2 ^ 64
  doIf (state.acceptorState.term < new) <|
    finishChange { state with acceptorState := { state.acceptorState with term := new } }
  let t ← get
  return (before, t.pers.acceptorState.term)

/-- `membership_switch`: only upward. Returns the configurations before and after. -/
def membershipSwitch (target : Configuration) : CtrlM (Configuration × Configuration) := do
  let t ← get
  let before := t.pers.mconf
  doIf (t.pers.mconf.generation < target.generation) <|
    finishChange { t.startChange with mconf := target }
  let t ← get
  return (before, t.pers.mconf)

variable {E : SkError → TimelineState → Prop} {t : TimelineState} {Q : Unit → TimelineState → Prop}

/-- **Specification of `finish_change`**: the given state is persisted and adopted, or, if
the process dies, nothing changes. -/
theorem wp_finishChange {s : TimelinePersistentState}
    (hok : ∀ n, (t.crashAfter = none → n = none) → Q () ⟨memOf s, s, n⟩)
    (herr : t.crashAfter ≠ none → E .crashed t) : wp (finishChange s) Q E t := by
  unfold finishChange persist
  simp only [wp_bind, wp_doIf, wp_refuseIf, wp_set, wp_modify]
  refine ⟨fun _ ↦ ⟨fun h ↦ herr (by simp [h]), fun _ ↦ hok _ fun h ↦ by simp [h]⟩, fun h ↦ ?_⟩
  have hs : s = t.pers := not_not.mp h
  subst hs
  exact hok _ id

theorem wp_flush (hok : ∀ n, (t.crashAfter = none → n = none) → Q () ⟨t.inmem, t.startChange, n⟩)
    (herr : t.crashAfter ≠ none → E .crashed t) : wp flush Q E t := by
  unfold flush
  rw [wp_bind]
  exact wp_finishChange hok herr

def withTerm (t : TimelineState) (term : ℕ) : TimelinePersistentState :=
  { t.startChange with acceptorState := { t.startChange.acceptorState with term := term } }

/-- **Specification of `term_bump`**: nothing changes or the term is raised. -/
theorem wp_termBump {target : Option ℕ} {Q : ℕ × ℕ → TimelineState → Prop} (hsame : ∀ r, Q r t)
    (hok : ∀ r term n, t.pers.acceptorState.term < term → (t.crashAfter = none → n = none) →
      Q r ⟨t.inmem, t.withTerm term, n⟩)
    (herr : t.crashAfter ≠ none → E .crashed t) : wp (termBump target) Q E t := by
  unfold termBump
  simp only [wp_bind, wp_doIf, wp_pure]
  refine ⟨fun h ↦ ?_, fun _ ↦ hsame _⟩
  exact wp_finishChange (fun n hn ↦ hok _ _ n h hn) herr

/-- **Specification of `membership_switch`**: nothing changes or the generation is raised. -/
theorem wp_membershipSwitch {target : Configuration}
    {Q : Configuration × Configuration → TimelineState → Prop}
    (hsame : target.generation ≤ t.pers.mconf.generation → ∀ r, Q r t)
    (hok : t.pers.mconf.generation < target.generation → ∀ r n, (t.crashAfter = none → n = none) →
      Q r ⟨t.inmem, { t.startChange with mconf := target }, n⟩)
    (herr : t.crashAfter ≠ none → E .crashed t) : wp (membershipSwitch target) Q E t := by
  unfold membershipSwitch
  simp only [wp_bind, wp_doIf, wp_pure]
  refine ⟨fun h ↦ ?_, fun h ↦ hsame (Nat.le_of_not_lt h) _⟩
  exact wp_finishChange (fun n hn ↦ hok h _ n hn) herr

end TimelineState

end NeonStorage.Safekeeper
