import NeonStorage.Safekeeper.WalStorage

/-!
# The safekeeper's message handlers

`SafeKeeper` combines the state of a timeline with its WAL storage. The handlers are the methods
of the source, in their order of checks and effects; a refusal leaves what was done before it.
Below them, one rule for each handler says which states it can leave.
-/

namespace NeonStorage.Safekeeper

structure SafeKeeper where
  termStartLsn : ℕ
  state : TimelineState
  walStore : PhysicalStorage
  nodeId : ℕ

abbrev SkM := Fallible SkError SafeKeeper

namespace SafeKeeper

open Fallible TimelineState PhysicalStorage

def onState {α : Type} (m : CtrlM α) : SkM α := zoom state (fun t sk ↦ { sk with state := t }) m

def onStore {α : Type} (m : StoreM α) : SkM α :=
  zoom walStore (fun w sk ↦ { sk with walStore := w }) m

def emptyId : HexId := ⟨List.replicate 16 0, rfl⟩

def new (state : TimelineState) (walStore : PhysicalStorage) (nodeId : ℕ) :
    Except SkError SafeKeeper :=
  if state.pers.tenantId = emptyId ∨ state.pers.timelineId = emptyId then .error .emptyId
  else .ok ⟨0, state, walStore, nodeId⟩

variable (sk : SafeKeeper)

/-- `flush_lsn`: not below the start of the timeline, also when there is no WAL yet. -/
def flushLsn : ℕ :=
  max sk.walStore.flushRecordLsn sk.state.pers.timelineStartLsn

def term (sk : SafeKeeper) : ℕ := sk.state.pers.acceptorState.term

def generation (sk : SafeKeeper) : ℕ := sk.state.pers.mconf.generation

/-- `get_term_history`: the switches of the available WAL. -/
def getTermHistory : List Epoch :=
  History.upTo sk.state.pers.acceptorState.termHistory sk.flushLsn

def getLastLogTerm : ℕ := History.lastTerm sk.getTermHistory

/-! ## Handlers -/

variable (s : TimelinePersistentState)

/-- The server info after a greeting with another system id. -/
def adoptServer (msg : ProposerGreeting) : TimelinePersistentState :=
  { s with server :=
    { s.server with
      systemId := msg.systemId
      pgVersion :=
        if msg.pgVersion ≠ UNKNOWN_SERVER_VERSION then msg.pgVersion else s.server.pgVersion } }

def handleGreeting (msg : ProposerGreeting) : SkM (Option AcceptorProposerMessage) := do
  let sk ← get
  let server := sk.state.pers.server
  let msgVersion ← someOr (pgMajorVersion msg.pgVersion) (.invalidPgVersion msg.pgVersion)
  let version ← someOr (pgMajorVersion server.pgVersion) (.invalidPgVersion server.pgVersion)
  refuseIf (msgVersion ≠ version ∧ server.pgVersion ≠ UNKNOWN_SERVER_VERSION)
    (.incompatibleVersion msg.pgVersion server.pgVersion)
  refuseIf (msg.tenantId ≠ sk.state.pers.tenantId)
    (.invalidTenant msg.tenantId sk.state.pers.tenantId)
  refuseIf (msg.timelineId ≠ sk.state.pers.timelineId)
    (.invalidTimeline msg.timelineId sk.state.pers.timelineId)
  refuseIf ((server.walSegSize : ℕ) ≠ msg.walSegSize)
    (.invalidWalSegSize msg.walSegSize server.walSegSize)
  -- sync-safekeepers does not know the system id and sends 0
  doIf (server.systemId ≠ msg.systemId ∧ msg.systemId ≠ 0) <|
    onState (finishChange (adoptServer sk.state.startChange msg))
  refuseIf (sk.generation < msg.mconf.generation ∧ msg.mconf.contains sk.nodeId = false)
    (.notAMember msg.mconf sk.nodeId)
  let _ ← onState (membershipSwitch msg.mconf)
  let sk ← get
  return some (.greeting ⟨sk.nodeId, sk.state.pers.mconf, sk.term⟩)

/-- The answer to a vote request, if the vote is refused. -/
def voteRefusal : VoteResponse :=
  { generation := sk.generation
    term := sk.term
    voteGiven := false
    flushLsn := sk.flushLsn
    truncateLsn := sk.state.inmem.peerHorizonLsn
    termHistory := sk.getTermHistory }

/-- `handle_vote_request`: what was received so far is flushed first. -/
def handleVoteRequest (msg : VoteRequest) : SkM (Option AcceptorProposerMessage) := do
  let sk ← get
  refuseIf (sk.generation ≠ msg.generation) (.generationMismatch msg.generation sk.generation)
  onStore flushWal
  let sk ← get
  let resp := sk.voteRefusal
  if sk.term < msg.term then
    onState (finishChange (sk.state.withTerm msg.term))
    let sk ← get
    return some (.voteResponse { resp with term := sk.term, voteGiven := true })
  else return some (.voteResponse resp)

/-- The point up to which the log of the proposer and ours are the same; without a common switch
it is the beginning of the proposer's history. -/
def lastCommonPoint (termHistory : List Epoch) : Except SkError Epoch :=
  match TermHistory.findHighestCommonPoint termHistory sk.getTermHistory sk.flushLsn with
  | .error p => .error (.panic (.history p))
  | .ok (some lcp) => .ok lcp
  | .ok none =>
    match termHistory.head? with
    | some e => .ok e
    | none => .error .emptyTermHistory

/-- The last common point is the beginning of the proposer's history, or it lies inside our WAL
and the two histories begin alike. -/
theorem lastCommonPoint_cases {sk : SafeKeeper} {th : List Epoch} {e : Epoch}
    (h : sk.lastCommonPoint th = .ok e) : th.head? = some e ∨ (e.lsn ≤ sk.flushLsn ∧
      ∃ e₀, th.head? = some e₀ ∧ sk.state.pers.acceptorState.termHistory.head? = some e₀) := by
  unfold lastCommonPoint at h
  split at h
  · cases h
  · rename_i lcp hfind
    cases h
    rcases TermHistory.findHighestCommonPoint_spec hfind with ⟨hr, -⟩ | ⟨n, e', hlen, -, hr⟩
    · cases hr
    · cases hr
      refine .inr ⟨TermHistory.divergence_le n fun q hq ↦ History.lsn_le_of_mem_upTo hq, ?_⟩
      obtain ⟨e₀, hp, hs⟩ := TermHistory.head?_eq_of_commonLen hlen
      obtain ⟨rest, hrest⟩ := History.upTo_isPrefix sk.state.pers.acceptorState.termHistory
        sk.flushLsn
      refine ⟨e₀, hp, ?_⟩
      rw [← hrest, List.head?_append]
      unfold getTermHistory at hs
      rw [hs]
      rfl
  · split at h
    · rename_i e' he
      cases h
      exact .inl he
    · cases h

variable (msg : ProposerElected)

/-- The persistent state that `handle_elected` writes after the truncation. -/
def adoptHistory : TimelinePersistentState :=
  let timelineStartLsn := match msg.termHistory.head? with
    | some e => if s.timelineStartLsn = 0 then e.lsn else s.timelineStartLsn
    | none => s.timelineStartLsn
  { s with
    timelineStartLsn
    peerHorizonLsn := if s.peerHorizonLsn = 0 then timelineStartLsn else s.peerHorizonLsn
    localStartLsn := if s.localStartLsn = 0 then msg.startStreamingAt else s.localStartLsn
    commitLsn := max s.commitLsn timelineStartLsn
    backupLsn := max s.backupLsn timelineStartLsn
    remoteConsistentLsn := max s.remoteConsistentLsn timelineStartLsn
    acceptorState := { s.acceptorState with termHistory := msg.termHistory } }

/-- The second half of `handle_elected`, in the term of the proposer. The initialisation of the
first segment writes below the truncation point only and is left out. -/
def truncateAndAdopt : SkM (Option AcceptorProposerMessage) := do
  let sk ← get
  let lcp ← orThrow (sk.lastCommonPoint msg.termHistory)
  refuseIf (lcp.lsn ≠ msg.startStreamingAt) (.unexpectedTruncationPoint lcp msg.startStreamingAt)
  refuseIf (msg.startStreamingAt < sk.state.inmem.commitLsn)
    (.panic (.truncateCommitted msg.startStreamingAt sk.state.inmem.commitLsn))
  onStore (truncateWal msg.startStreamingAt)
  onState (finishChange (adoptHistory sk.state.startChange msg))
  let last ← someOr msg.termHistory.getLast? .emptyTermHistory
  modify fun sk ↦ { sk with termStartLsn := last.lsn }
  return none

def handleElected : SkM (Option AcceptorProposerMessage) := do
  let sk ← get
  refuseIf (sk.generation ≠ msg.generation) (.generationMismatch msg.generation sk.generation)
  doIf (sk.term < msg.term) <| onState (finishChange (sk.state.withTerm msg.term))
  let sk ← get
  -- the next feedback will tell the compute about our term
  if msg.term < sk.term then return none
  else truncateAndAdopt msg

/-- `update_commit_lsn`: never above what is flushed here. -/
def updateCommitLsn (candidate : ℕ) : SkM Unit := do
  let sk ← get
  let old := sk.state.inmem.commitLsn
  let commitLsn := min (max candidate old) sk.flushLsn
  refuseIf (commitLsn < old) (.panic (.commitMonotonicity old commitLsn))
  modify fun sk ↦
    { sk with state := { sk.state with inmem := { sk.state.inmem with commitLsn := commitLsn } } }
  doIf (sk.termStartLsn ≤ commitLsn ∧ sk.state.pers.commitLsn < sk.termStartLsn) <|
    onState TimelineState.flush

def appendResponse : AppendResponse :=
  { generation := sk.generation
    term := sk.term
    flushLsn := sk.flushLsn
    commitLsn := sk.state.pers.commitLsn
    hsFeedback := .empty
    pageserverFeedback := none }

/-- The end of `handle_append_request`, once the WAL is stored. An answer is only useful if it
tells about flushed WAL; `flushLsn` is the flushed position of the storage before. -/
def finishAppend (msg : AppendRequest) (requireFlush : Bool) (flushLsn : ℕ) :
    SkM (Option AcceptorProposerMessage) := do
  doIf (msg.h.commitLsn ≠ 0) <| updateCommitLsn msg.h.commitLsn
  modify fun sk ↦
    { sk with state := { sk.state with inmem :=
      { sk.state.inmem with
        peerHorizonLsn := max sk.state.inmem.peerHorizonLsn msg.h.truncateLsn } } }
  let sk ← get
  if requireFlush = false ∧ flushLsn = sk.flushLsn then return none
  else return some (.appendResponse sk.appendResponse)

/-- The part of `handle_append_request` that runs in the term of the proposer. -/
def appendInTerm (msg : AppendRequest) (requireFlush : Bool) :
    SkM (Option AcceptorProposerMessage) := do
  let sk ← get
  let writeLsn := sk.walStore.writeLsn
  refuseIf (msg.h.beginLsn < writeLsn) (.rewritesWal writeLsn msg.h.beginLsn)
  refuseIf (writeLsn < msg.h.beginLsn ∧ writeLsn ≠ 0) (.createsGap writeLsn msg.h.beginLsn)
  doIf (msg.walData ≠ []) <| onStore (writeWal msg.h.beginLsn msg.walData)
  doIf (requireFlush = true) <| onStore flushWal
  finishAppend msg requireFlush sk.walStore.flushRecordLsn

def handleAppendRequest (msg : AppendRequest) (requireFlush : Bool) :
    SkM (Option AcceptorProposerMessage) := do
  let sk ← get
  refuseIf (sk.generation ≠ msg.h.generation)
    (.generationMismatch msg.h.generation sk.generation)
  refuseIf (sk.term < msg.h.term) .appendBeforeElected
  -- elected walproposers never advance the term, so they recognise the refusal by it
  if msg.h.term < sk.term then
    return some (.appendResponse (.termOnly sk.generation sk.term))
  else appendInTerm msg requireFlush

def handleFlush : SkM (Option AcceptorProposerMessage) := do
  onStore flushWal
  let sk ← get
  return some (.appendResponse sk.appendResponse)

/-- `record_safekeeper_info`: what a peer tells about the commit position, with its last log
term. -/
def recordSafekeeperInfo (commitLsn lastLogTerm : ℕ) : SkM Unit := do
  let sk ← get
  doIf (commitLsn ≠ 0 ∧ lastLogTerm = sk.getLastLogTerm) <| updateCommitLsn commitLsn

def processMsg (msg : ProposerAcceptorMessage) : SkM (Option AcceptorProposerMessage) :=
  match msg with
  | .greeting msg => handleGreeting msg
  | .voteRequest msg => handleVoteRequest msg
  | .elected msg => handleElected msg
  | .appendRequest msg => handleAppendRequest msg true
  | .noFlushAppendRequest msg => handleAppendRequest msg false
  | .flushWAL => handleFlush

/-! ## What the handlers can leave -/

def persisted (n : Option ℕ) : SafeKeeper :=
  { sk with state := ⟨memOf s, s, n⟩ }

def withStore (w : PhysicalStorage) : SafeKeeper := { sk with walStore := w }

def withCommit (c : ℕ) : SafeKeeper :=
  { sk with state := { sk.state with inmem := { sk.state.inmem with commitLsn := c } } }

def withHorizon (l : ℕ) : SafeKeeper :=
  { sk with state := { sk.state with inmem :=
    { sk.state.inmem with peerHorizonLsn := max sk.state.inmem.peerHorizonLsn l } } }

/-- A write of the control file that changes nothing but what `s` says; the process may be about
to die only if it was before. -/
inductive Persisted (sk : SafeKeeper) (s : TimelinePersistentState) : SafeKeeper → Prop
  | mk (n : Option ℕ) (hn : sk.state.crashAfter = none → n = none) :
    Persisted sk s (sk.persisted s n)

/-- What `update_commit_lsn` leaves. -/
inductive CommitUpdated (sk : SafeKeeper) (candidate : ℕ) : SafeKeeper → Prop
  | mem (c : ℕ) (hold : sk.state.inmem.commitLsn ≤ c) (hflush : c ≤ sk.flushLsn)
    (hcand : c ≤ max candidate sk.state.inmem.commitLsn) :
    CommitUpdated sk candidate (sk.withCommit c)
  | file (c : ℕ) (hold : sk.state.inmem.commitLsn ≤ c) (hflush : c ≤ sk.flushLsn)
    (hcand : c ≤ max candidate sk.state.inmem.commitLsn) (sk' : SafeKeeper)
    (hp : Persisted (sk.withCommit c) (sk.withCommit c).state.startChange sk') :
    CommitUpdated sk candidate sk'

/-- The storage after the WAL of an append request was taken and, where required, flushed. -/
inductive Stored (w : PhysicalStorage) (msg : AppendRequest) : PhysicalStorage → Prop
  | empty (h : msg.walData = []) : Stored w msg w
  | wrote (h : msg.walData ≠ []) (w₁ : PhysicalStorage)
    (hw : Wrote w msg.h.beginLsn msg.walData w₁) : Stored w msg w₁
  | flushed (w₁ w₂ : PhysicalStorage) (hw : Stored w msg w₁) (hf : Flushed w₁ w₂) :
    Stored w msg w₂

section Rules

variable {Q : Option AcceptorProposerMessage → SafeKeeper → Prop} {E : SkError → SafeKeeper → Prop}
  {sk : SafeKeeper}

theorem wp_onState_finishChange {s : TimelinePersistentState}
    {Q : Unit → SafeKeeper → Prop} (hok : ∀ sk', Persisted sk s sk' → Q () sk')
    (herr : sk.state.crashAfter ≠ none → E .crashed sk) : wp (onState (finishChange s)) Q E sk := by
  unfold onState
  rw [wp_zoom]
  exact wp_finishChange (fun n hn ↦ hok _ (.mk n hn)) herr

theorem wp_onState_flush {Q : Unit → SafeKeeper → Prop}
    (hok : ∀ sk', Persisted sk sk.state.startChange sk' → Q () sk')
    (herr : sk.state.crashAfter ≠ none → E .crashed sk) :
    wp (onState TimelineState.flush) Q E sk := by
  unfold onState
  rw [wp_zoom]
  exact wp_flush (fun n hn ↦ hok _ (.mk n hn)) herr

theorem wp_onStore {α : Type} {m : StoreM α} {Q : α → SafeKeeper → Prop} :
    wp (onStore m) Q E sk ↔ wp m (fun a w ↦ Q a (sk.withStore w)) (fun e w ↦ E e (sk.withStore w))
      sk.walStore := by
  unfold onStore
  rw [wp_zoom]
  rfl

/-- The safekeeper after the server info of a greeting was taken over; the major version stays,
unless it was not known. -/
inductive ServerAdopted (sk : SafeKeeper) (msg : ProposerGreeting) : SafeKeeper → Prop
  | mk (hver : pgMajorVersion msg.pgVersion = pgMajorVersion sk.state.pers.server.pgVersion ∨
      sk.state.pers.server.pgVersion = UNKNOWN_SERVER_VERSION) (sk' : SafeKeeper)
    (hp : Persisted sk (adoptServer sk.state.startChange msg) sk') : ServerAdopted sk msg sk'

/-- **Rule for `handle_greeting`**: the server info may be updated; then the configuration is
refused, kept or taken over. -/
theorem wp_handleGreeting {msg : ProposerGreeting}
    (href : ∀ e, e.Ordinary → E e sk) (hcrash : sk.state.crashAfter ≠ none → E .crashed sk)
    (hserver : ∀ sk', ServerAdopted sk msg sk' →
      (∀ e, e.Ordinary → E e sk') ∧ (sk'.state.crashAfter ≠ none → E .crashed sk'))
    (hok : ∀ sk₁, sk₁ = sk ∨ ServerAdopted sk msg sk₁ →
      ∀ sk₂, (msg.mconf.generation ≤ sk.generation ∧ sk₂ = sk₁) ∨
          (sk.generation < msg.mconf.generation ∧ msg.mconf.contains sk.nodeId = true ∧
            Persisted sk₁ { sk₁.state.startChange with mconf := msg.mconf } sk₂) →
        Q (some (.greeting ⟨sk₂.nodeId, sk₂.state.pers.mconf, sk₂.term⟩)) sk₂) :
    wp (handleGreeting msg) Q E sk := by
  -- the part behind the update of the server info, which is reached with and without it
  have htail : ∀ sk₁, sk₁ = sk ∨ ServerAdopted sk msg sk₁ →
      (∀ e, e.Ordinary → E e sk₁) → (sk₁.state.crashAfter ≠ none → E .crashed sk₁) →
      ¬(sk.generation < msg.mconf.generation ∧ msg.mconf.contains sk.nodeId = false) →
      wp (onState (membershipSwitch msg.mconf))
        (fun _ sk₂ ↦ Q (some (.greeting ⟨sk₂.nodeId, sk₂.state.pers.mconf, sk₂.term⟩)) sk₂)
        E sk₁ := by
    intro sk₁ h₁ hE hC hmem
    have hgen : sk₁.generation = sk.generation := by
      rcases h₁ with rfl | ⟨-, _, ⟨n, hn⟩⟩ <;> rfl
    unfold onState
    rw [wp_zoom]
    refine wp_membershipSwitch (fun hle _ ↦ ?_) (fun hlt _ n hn ↦ ?_) hC
    · exact hok sk₁ h₁ _ (.inl ⟨hgen ▸ hle, rfl⟩)
    · have hlt : sk.generation < msg.mconf.generation := hgen ▸ hlt
      exact hok sk₁ h₁ _ (.inr ⟨hlt, by simpa [hlt] using hmem, .mk n hn⟩)
  unfold handleGreeting
  simp only [wp_bind, wp_someOr, wp_refuseIf, wp_doIf, wp_pure]
  refine ⟨fun _ hm ↦ ⟨fun _ hs ↦ ⟨fun _ ↦ href _ trivial, fun hver ↦ ⟨fun _ ↦ href _ trivial,
    fun _ ↦ ⟨fun _ ↦ href _ trivial, fun _ ↦ ⟨fun _ ↦ href _ trivial, fun _ ↦
      ⟨fun _ ↦ ?_, fun _ ↦ ?_⟩⟩⟩⟩⟩, fun _ ↦ href _ trivial⟩, fun _ ↦ href _ trivial⟩
  · refine wp_onState_finishChange (fun sk₁ hp ↦ ?_) hcrash
    have h₁ : ServerAdopted sk msg sk₁ := by
      refine .mk ?_ sk₁ hp
      rw [hm, hs]
      by_cases hne : sk.state.pers.server.pgVersion = UNKNOWN_SERVER_VERSION
      · exact .inr hne
      · exact .inl (congrArg some (not_not.mp fun h ↦ hver ⟨h, hne⟩))
    obtain ⟨hE, hC⟩ := hserver sk₁ h₁
    exact ⟨fun _ ↦ hE _ trivial, htail sk₁ (.inr h₁) hE hC⟩
  · exact ⟨fun _ ↦ href _ trivial, htail sk (.inl rfl) href hcrash⟩

/-- The answer to a vote request, if the vote is given: it has the log of the refusal. -/
def voteGrant (sk : SafeKeeper) (term : ℕ) : VoteResponse :=
  { sk.voteRefusal with term, voteGiven := true }

theorem wp_handleVoteRequest {msg : VoteRequest} (href : ∀ e, e.Ordinary → E e sk)
    (hcrash : sk.walStore.crashAfter ≠ none → E .crashed sk)
    (hno : ∀ w, Flushed sk.walStore w → sk.generation = msg.generation →
      Q (some (.voteResponse (sk.withStore w).voteRefusal)) (sk.withStore w))
    (hyes : ∀ w, Flushed sk.walStore w → sk.generation = msg.generation → sk.term < msg.term →
      (sk.state.crashAfter ≠ none → E .crashed (sk.withStore w)) ∧
      ∀ sk', Persisted (sk.withStore w) ((sk.withStore w).state.withTerm msg.term) sk' →
        Q (some (.voteResponse ((sk.withStore w).voteGrant msg.term))) sk') :
    wp (handleVoteRequest msg) Q E sk := by
  unfold handleVoteRequest
  simp only [wp_bind, wp_get, wp_refuseIf, wp_onStore]
  refine ⟨fun _ ↦ href _ trivial, fun hgen ↦ ?_⟩
  have hgen := not_not.mp hgen
  refine wp_flushWal (fun w hw ↦ ?_) href hcrash
  rw [wp_ite]
  refine ⟨fun hlt ↦ ?_, fun _ ↦ hno w hw hgen⟩
  obtain ⟨hC, hQ⟩ := hyes w hw hgen hlt
  simp only [wp_bind, wp_get]
  refine wp_onState_finishChange (fun sk' h' ↦ ?_) hC
  have hterm : sk'.term = msg.term := by
    cases h'
    rfl
  rw [hterm]
  exact hQ sk' h'

/-- The safekeeper after a successful `handle_elected` (`sk` is the one after the truncation). -/
def elected (sk : SafeKeeper) (e : Epoch) : SafeKeeper := { sk with termStartLsn := e.lsn }

/-- The conditions under which `handle_elected` truncates and takes over the history. -/
structure Elects (sk : SafeKeeper) (msg : ProposerElected) : Prop where
  generation : sk.generation = msg.generation
  term : sk.term = msg.term
  lcp : ∃ e, sk.lastCommonPoint msg.termHistory = .ok e ∧ e.lsn = msg.startStreamingAt
  commit : sk.state.inmem.commitLsn ≤ msg.startStreamingAt

variable {msg : ProposerElected}

private theorem wp_truncateAndAdopt (hgen : sk.generation = msg.generation)
    (hterm : sk.term = msg.term) (href : ∀ e, e.Ordinary → E e sk)
    (hmoved : Elects sk msg → sk.walStore.crashAfter ≠ none →
      E .crashed (sk.withStore (sk.walStore.moved msg.startStreamingAt)))
    (hok : Elects sk msg → ∀ w, Truncated sk.walStore msg.startStreamingAt w →
      (sk.state.crashAfter ≠ none → E .crashed (sk.withStore w)) ∧
      ∀ sk', Persisted (sk.withStore w) (adoptHistory sk.state.startChange msg) sk' →
        (∀ e, msg.termHistory.getLast? = some e → Q none (sk'.elected e)) ∧
        (msg.termHistory = [] → E .emptyTermHistory sk')) : wp (truncateAndAdopt msg) Q E sk := by
  unfold truncateAndAdopt
  simp only [wp_bind, wp_orThrow, wp_refuseIf, wp_onStore, wp_someOr, wp_modify, wp_pure]
  refine ⟨fun lcp hlcp ↦ ⟨fun _ ↦ href _ trivial, fun hpt ↦ ⟨fun _ ↦ href _ trivial, fun hc ↦ ?_⟩⟩,
    fun e he ↦ href e ?_⟩
  · have hel : Elects sk msg :=
      ⟨hgen, hterm, ⟨lcp, hlcp, not_not.mp hpt⟩, Nat.le_of_not_lt hc⟩
    refine wp_truncateWal href (fun w hw ↦ ?_) (hmoved hel)
    obtain ⟨hC, hQ⟩ := hok hel w hw
    refine wp_onState_finishChange (fun sk' h' ↦ ?_) hC
    obtain ⟨hlast, hnil⟩ := hQ sk' h'
    exact ⟨hlast, fun h ↦ hnil (List.getLast?_eq_none_iff.mp h)⟩
  · unfold lastCommonPoint at he
    split at he
    · cases he
      trivial
    · cases he
    · split at he <;> cases he
      trivial

/-- The safekeeper after its term was made at least `t`. -/
inductive Raised (sk : SafeKeeper) (t : ℕ) : SafeKeeper → Prop
  | same (h : t ≤ sk.term) : Raised sk t sk
  | raise (h : sk.term < t) (sk' : SafeKeeper) (hp : Persisted sk (sk.state.withTerm t) sk') :
    Raised sk t sk'

/-- **Rule for `handle_elected`**: refused, ignored in a higher term, or the log is truncated at
the last common point and the history taken over. -/
theorem wp_handleElected
    (href : ∀ e, e.Ordinary → E e sk) (hcrash : sk.state.crashAfter ≠ none → E .crashed sk)
    (hign : sk.generation = msg.generation → msg.term < sk.term → Q none sk)
    (hraised : ∀ sk₁, Raised sk msg.term sk₁ → sk.generation = msg.generation →
      ∀ e, e.Ordinary → E e sk₁) (hmoved : ∀ sk₁, Raised sk msg.term sk₁ → Elects sk₁ msg →
      sk₁.walStore.crashAfter ≠ none →
      E .crashed (sk₁.withStore (sk₁.walStore.moved msg.startStreamingAt)))
    (hok : ∀ sk₁, Raised sk msg.term sk₁ → Elects sk₁ msg →
      ∀ w, Truncated sk₁.walStore msg.startStreamingAt w →
      (sk₁.state.crashAfter ≠ none → E .crashed (sk₁.withStore w)) ∧
      ∀ sk', Persisted (sk₁.withStore w) (adoptHistory sk₁.state.startChange msg) sk' →
        (∀ e, msg.termHistory.getLast? = some e → Q none (sk'.elected e)) ∧
        (msg.termHistory = [] → E .emptyTermHistory sk')) : wp (handleElected msg) Q E sk := by
  unfold handleElected
  simp only [wp_bind, wp_get, wp_refuseIf, wp_doIf]
  refine ⟨fun _ ↦ href _ trivial, fun hgen ↦ ?_⟩
  have hgen := not_not.mp hgen
  refine ⟨fun hlt ↦ wp_onState_finishChange (fun sk₁ h₁ ↦ ?_) hcrash, fun hge ↦ ?_⟩
  · have hr : Raised sk msg.term sk₁ := .raise hlt sk₁ h₁
    have hterm : sk₁.term = msg.term := by
      cases h₁
      rfl
    have hgen₁ : sk₁.generation = msg.generation := by
      cases h₁
      exact hgen
    rw [wp_ite]
    refine ⟨fun h ↦ absurd h (by omega), fun _ ↦ ?_⟩
    exact wp_truncateAndAdopt hgen₁ hterm (hraised sk₁ hr hgen) (hmoved sk₁ hr) (hok sk₁ hr)
  · have hr : Raised sk msg.term sk := .same (Nat.le_of_not_lt hge)
    rw [wp_ite]
    refine ⟨hign hgen, fun h ↦ ?_⟩
    exact wp_truncateAndAdopt hgen (by omega) href (hmoved sk hr) (hok sk hr)

/-- **Rule for `update_commit_lsn`**: the assertion fails only if the commit position is above
the flushed one. -/
theorem wp_updateCommitLsn {candidate : ℕ} {Q : Unit → SafeKeeper → Prop}
    (hok : ∀ sk', CommitUpdated sk candidate sk' → Q () sk')
    (hpanic : sk.flushLsn < sk.state.inmem.commitLsn →
      ∀ old new, E (.panic (.commitMonotonicity old new)) sk) (hcrash : sk.state.crashAfter ≠ none →
      ∀ sk', CommitUpdated sk candidate sk' → E .crashed sk') :
    wp (updateCommitLsn candidate) Q E sk := by
  unfold updateCommitLsn
  simp only [wp_bind, wp_refuseIf, wp_doIf, wp_modify]
  refine ⟨fun h ↦ hpanic (by omega) _ _, fun h ↦ ?_⟩
  have hold : sk.state.inmem.commitLsn ≤
      min (max candidate sk.state.inmem.commitLsn) sk.flushLsn := Nat.le_of_not_lt h
  have hmem := CommitUpdated.mem _ hold (min_le_right _ _) (min_le_left _ _)
  refine ⟨fun _ ↦ wp_onState_flush (fun sk' h' ↦ ?_) fun hc ↦ ?_, fun _ ↦ hok _ hmem⟩
  · exact hok _ (.file _ hold (min_le_right _ _) (min_le_left _ _) sk' h')
  · exact hcrash hc _ hmem

variable {msg : AppendRequest} {requireFlush : Bool}

private theorem wp_finishAppend {flushLsn : ℕ}
    (hok : ∀ sk₁, sk₁ = sk ∨ CommitUpdated sk msg.h.commitLsn sk₁ →
      Q none (sk₁.withHorizon msg.h.truncateLsn) ∧
      Q (some (.appendResponse (sk₁.withHorizon msg.h.truncateLsn).appendResponse))
        (sk₁.withHorizon msg.h.truncateLsn)) (hpanic : sk.flushLsn < sk.state.inmem.commitLsn →
      ∀ old new, E (.panic (.commitMonotonicity old new)) sk) (hcrash : sk.state.crashAfter ≠ none →
      ∀ sk', CommitUpdated sk msg.h.commitLsn sk' → E .crashed sk') :
    wp (finishAppend msg requireFlush flushLsn) Q E sk := by
  unfold finishAppend
  simp only [wp_bind, wp_doIf, wp_modify, wp_ite, wp_pure]
  refine ⟨fun _ ↦ wp_updateCommitLsn (fun sk₁ h₁ ↦ ?_) hpanic hcrash, fun _ ↦ ?_⟩
  · exact ⟨fun _ ↦ (hok sk₁ (.inr h₁)).1, fun _ ↦ (hok sk₁ (.inr h₁)).2⟩
  · exact ⟨fun _ ↦ (hok sk (.inl rfl)).1, fun _ ↦ (hok sk (.inl rfl)).2⟩

/-- What is left to show for a storage that `handle_append_request` can reach. -/
structure AppendGoal (Q : Option AcceptorProposerMessage → SafeKeeper → Prop)
    (E : SkError → SafeKeeper → Prop) (sk : SafeKeeper) (msg : AppendRequest)
    (w : PhysicalStorage) : Prop where
  refused : ∀ e, e.Ordinary → E e (sk.withStore w)
  crashed : w.crashAfter ≠ none → E .crashed (sk.withStore w)
  panic : (sk.withStore w).flushLsn < sk.state.inmem.commitLsn →
    ∀ old new, E (.panic (.commitMonotonicity old new)) (sk.withStore w)
  updating : sk.state.crashAfter ≠ none →
    ∀ sk', CommitUpdated (sk.withStore w) msg.h.commitLsn sk' → E .crashed sk'
  done : ∀ sk₁, sk₁ = sk.withStore w ∨ CommitUpdated (sk.withStore w) msg.h.commitLsn sk₁ →
    Q none (sk₁.withHorizon msg.h.truncateLsn) ∧
    Q (some (.appendResponse (sk₁.withHorizon msg.h.truncateLsn).appendResponse))
      (sk₁.withHorizon msg.h.truncateLsn)

private theorem wp_appendInTerm (href : ∀ e, e.Ordinary → E e sk)
    (hgoal : ∀ w, Stored sk.walStore msg w → AppendGoal Q E sk msg w) :
    wp (appendInTerm msg requireFlush) Q E sk := by
  have hfinish : ∀ w, Stored sk.walStore msg w → ∀ l,
      wp (finishAppend msg requireFlush l) Q E (sk.withStore w) := fun w hw l ↦
    wp_finishAppend (hgoal w hw).done (hgoal w hw).panic (hgoal w hw).updating
  have hflush : ∀ w, Stored sk.walStore msg w → ∀ l,
      wp flushWal (fun _ w' ↦ wp (finishAppend msg requireFlush l) Q E (sk.withStore w'))
        (fun e w' ↦ E e (sk.withStore w')) w := by
    intro w hw l
    exact wp_flushWal (fun w' hw' ↦ hfinish w' (.flushed w w' hw hw') l) (hgoal w hw).refused
      (hgoal w hw).crashed
  unfold appendInTerm
  simp only [wp_bind, wp_refuseIf, wp_doIf, wp_onStore]
  refine ⟨fun _ ↦ href _ trivial, fun _ ↦
    ⟨fun _ ↦ href _ trivial, fun _ ↦ ⟨fun hne ↦ ?_, fun he ↦ ?_⟩⟩⟩
  · refine wp_writeWal href fun w hw ↦ ?_
    have hw : Stored sk.walStore msg w := .wrote hne w hw
    exact ⟨⟨fun _ ↦ hflush w hw _, fun _ ↦ hfinish w hw _⟩, (hgoal w hw).refused⟩
  · have hw : Stored sk.walStore msg sk.walStore := .empty (not_not.mp he)
    exact ⟨fun _ ↦ hflush _ hw _, fun _ ↦ hfinish _ hw _⟩

/-- **Rule for `handle_append_request`**: refused, answered with a higher term, or stored. -/
theorem wp_handleAppendRequest (href : ∀ e, e.Ordinary → E e sk)
    (hterm : sk.generation = msg.h.generation → msg.h.term < sk.term →
      Q (some (.appendResponse (.termOnly sk.generation sk.term))) sk)
    (hgoal : sk.generation = msg.h.generation → sk.term = msg.h.term →
      ∀ w, Stored sk.walStore msg w → AppendGoal Q E sk msg w) :
    wp (handleAppendRequest msg requireFlush) Q E sk := by
  unfold handleAppendRequest
  simp only [wp_bind, wp_refuseIf, wp_ite, wp_pure]
  refine ⟨fun _ ↦ href _ trivial, fun hgen ↦ ⟨fun _ ↦ href _ trivial, fun hge ↦
    ⟨fun hlt ↦ hterm (not_not.mp hgen) hlt, fun hle ↦ ?_⟩⟩⟩
  exact wp_appendInTerm href (hgoal (not_not.mp hgen) (by omega))

theorem wp_handleFlush (href : ∀ e, e.Ordinary → E e sk)
    (hcrash : sk.walStore.crashAfter ≠ none → E .crashed sk) (hok : ∀ w, Flushed sk.walStore w →
      Q (some (.appendResponse (sk.withStore w).appendResponse)) (sk.withStore w)) :
    wp handleFlush Q E sk := by
  unfold handleFlush
  simp only [wp_bind, wp_pure, wp_onStore]
  exact wp_flushWal hok href hcrash

theorem wp_recordSafekeeperInfo {commitLsn lastLogTerm : ℕ} {Q : Unit → SafeKeeper → Prop}
    (hsame : Q () sk)
    (hok : lastLogTerm = sk.getLastLogTerm → ∀ sk', CommitUpdated sk commitLsn sk' → Q () sk')
    (hpanic : sk.flushLsn < sk.state.inmem.commitLsn →
      ∀ old new, E (.panic (.commitMonotonicity old new)) sk) (hcrash : sk.state.crashAfter ≠ none →
      ∀ sk', CommitUpdated sk commitLsn sk' → E .crashed sk') :
    wp (recordSafekeeperInfo commitLsn lastLogTerm) Q E sk := by
  unfold recordSafekeeperInfo
  simp only [wp_bind, wp_doIf]
  exact ⟨fun h ↦ wp_updateCommitLsn (hok h.2) hpanic hcrash, fun _ ↦ hsame⟩

end Rules

end SafeKeeper

end NeonStorage.Safekeeper
