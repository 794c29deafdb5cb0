import NeonStorage.Lib.History
import NeonStorage.Postgres.WalDecoder

/-!
# Membership, term histories and messages of the safekeeper protocol

The data that walproposer and safekeeper exchange: membership configurations, term histories and
the messages of the proposer/acceptor protocol. A `MemberSet` carries the proof that no id occurs
twice, which `MemberSet::new` and `MemberSet::add` check.

Terms, generations, node ids and LSNs are natural numbers; `0` is the invalid LSN, the initial
term and the generation of timelines that do not use generations.
-/

namespace NeonStorage.Safekeeper

open List

def INITIAL_TERM : ℕ := 0
def INVALID_GENERATION : ℕ := 0
def HexId : Type := { b : List UInt8 // b.length = 16 }
  deriving DecidableEq

/-! ## Membership -/

/-- `SafekeeperId`: membership is defined by `id`; host and port tell the walproposer where to
connect. -/
structure SafekeeperId where
  id : ℕ
  host : String
  pgPort : ℕ
  deriving DecidableEq

/-- `MemberSet`: no two members have the same id. -/
structure MemberSet where
  m : List SafekeeperId
  nodup : (m.map SafekeeperId.id).Nodup
  deriving DecidableEq

namespace MemberSet

def empty : MemberSet := ⟨[], nodup_nil⟩

def contains (s : MemberSet) (sk : ℕ) : Bool := s.m.any fun m ↦ m.id == sk

end MemberSet

/-- `Configuration`; new members make it a joint one. -/
structure Configuration where
  generation : ℕ
  members : MemberSet
  newMembers : Option MemberSet
  deriving DecidableEq

namespace Configuration

def empty : Configuration := ⟨INVALID_GENERATION, .empty, none⟩

def contains (c : Configuration) (sk : ℕ) : Bool :=
  c.members.contains sk || c.newMembers.any fun m ↦ m.contains sk

end Configuration

/-! ## Term histories -/

/-- The assertions of `find_highest_common_point`, with the values they report. -/
inductive HistoryPanic
  /-- "safekeeper term history end .. LSN is higher than WAL end .." -/
  | termHistoryEnd (last : Epoch) (walEnd : ℕ)
  /-- "same term .. has different start LSNs: prop .., sk .." -/
  | sameTermDifferentLsn (term propLsn skLsn : ℕ)
  deriving DecidableEq

namespace TermHistory

/-- The length of the common part of two histories, by term; equal terms must begin at the same
LSN. -/
def commonLen : List Epoch → List Epoch → Except HistoryPanic ℕ
  | p :: propTh, q :: skTh =>
    if p.term ≠ q.term then .ok 0
    else if p.lsn ≠ q.lsn then .error (.sameTermDifferentLsn p.term p.lsn q.lsn)
    else (· + 1) <$> commonLen propTh skTh
  | _, _ => .ok 0

/-- The assertion that the history of the safekeeper ends inside its WAL. -/
def endPanic (skTh : List Epoch) (skWalEnd : ℕ) : Option HistoryPanic :=
  match skTh.getLast? with
  | some last => if skWalEnd < last.lsn then some (.termHistoryEnd last skWalEnd) else none
  | none => none

/-- Where the common part of the two logs ends, if `n` is the index of the last common switch. If
the proposer's history ends there, everything the safekeeper has is common; otherwise the term
ends where the first of them leaves it. -/
def divergence (propTh skTh : List Epoch) (skWalEnd n : ℕ) : ℕ :=
  match propTh[n + 1]? with
  | none => skWalEnd
  | some next => min next.lsn (match skTh[n + 1]? with
    | some q => q.lsn
    | none => skWalEnd)

/-- `find_highest_common_point`: the point of divergence between the history of the proposer,
which has no end, and that of the safekeeper, which ends at `skWalEnd`. -/
def findHighestCommonPoint (propTh skTh : List Epoch) (skWalEnd : ℕ) :
    Except HistoryPanic (Option Epoch) :=
  match endPanic skTh skWalEnd with
  | some p => .error p
  | none =>
    match commonLen propTh skTh with
    | .error p => .error p
    | .ok 0 => .ok none
    | .ok (n + 1) =>
      .ok (propTh[n]?.map fun e ↦ ⟨e.term, divergence propTh skTh skWalEnd n⟩)

variable {propTh skTh : List Epoch}

theorem commonLen_spec {n : ℕ} (h : commonLen propTh skTh = .ok n) :
    n ≤ propTh.length ∧ n ≤ skTh.length ∧ propTh.take n = skTh.take n ∧
      ∀ p q, propTh[n]? = some p → skTh[n]? = some q → p.term ≠ q.term := by
  induction propTh, skTh using commonLen.induct generalizing n with
  | case1 p propTh q skTh hne =>
    rw [commonLen, if_pos hne] at h
    cases h
    simpa using hne
  | case2 p propTh q skTh heq hne =>
    rw [commonLen, if_neg heq, if_pos hne] at h
    cases h
  | case3 p propTh q skTh hterm hlsn ih =>
    rw [commonLen, if_neg hterm, if_neg hlsn] at h
    cases hrec : commonLen propTh skTh with
    | error e =>
      rw [hrec] at h
      cases h
    | ok m =>
      rw [hrec] at h
      cases h
      obtain ⟨h₁, h₂, h₃, h₄⟩ := ih hrec
      have hpq : p = q := by
        cases p
        cases q
        simp_all
      simp only [length_cons, take_succ_cons]
      exact ⟨by omega, by omega, by rw [h₃, hpq], h₄⟩
  | case4 propTh skTh hnil =>
    have hn : n = 0 := by
      unfold commonLen at h
      split at h
      · exact absurd rfl (hnil _ _ _ _ rfl)
      · cases h
        rfl
    subst hn
    refine ⟨Nat.zero_le _, Nat.zero_le _, rfl, fun p q hp hq ↦ ?_⟩
    rcases propTh with - | ⟨p', propTh⟩
    · cases hp
    rcases skTh with - | ⟨q', skTh⟩
    · cases hq
    exact (hnil _ _ _ _ rfl rfl).elim

theorem divergence_le {skWalEnd : ℕ} (n : ℕ) (h : ∀ q ∈ skTh, q.lsn ≤ skWalEnd) :
    divergence propTh skTh skWalEnd n ≤ skWalEnd := by
  unfold divergence
  split
  · exact le_rfl
  · refine (min_le_right _ _).trans ?_
    split
    · rename_i q hq
      exact h q (mem_of_getElem? hq)
    · exact le_rfl

theorem head?_eq_of_commonLen {n : ℕ} (h : commonLen propTh skTh = .ok (n + 1)) :
    ∃ e, propTh.head? = some e ∧ skTh.head? = some e := by
  obtain ⟨h₁, h₂, h₃, -⟩ := commonLen_spec h
  rcases propTh with - | ⟨p, propTh⟩
  · simp at h₁
  rcases skTh with - | ⟨q, skTh⟩
  · simp at h₂
  exact ⟨p, rfl, by rw [(cons.inj h₃).1, head?_cons]⟩

/-- **Specification of `find_highest_common_point`**: nothing is common, or the logs are the same
up to where the first of them switches to a term that the other does not have. -/
theorem findHighestCommonPoint_spec {skWalEnd : ℕ} {r : Option Epoch}
    (h : findHighestCommonPoint propTh skTh skWalEnd = .ok r) :
    (r = none ∧ commonLen propTh skTh = .ok 0) ∨
      ∃ n e, commonLen propTh skTh = .ok (n + 1) ∧ propTh[n]? = some e ∧
        r = some ⟨e.term, divergence propTh skTh skWalEnd n⟩ := by
  unfold findHighestCommonPoint at h
  split at h
  · cases h
  split at h
  · cases h
  · rename_i hlen
    cases h
    exact .inl ⟨rfl, hlen⟩
  · rename_i n hlen
    have hn := (commonLen_spec hlen).1
    obtain ⟨e, he⟩ : ∃ e, propTh[n]? = some e := ⟨_, getElem?_eq_getElem hn⟩
    rw [he] at h
    cases h
    exact .inr ⟨n, e, hlen, he, rfl⟩

end TermHistory

/-! ## Messages -/

structure ProposerGreeting where
  tenantId : HexId
  timelineId : HexId
  mconf : Configuration
  pgVersion : ℕ
  systemId : ℕ
  walSegSize : ℕ
  deriving DecidableEq

structure VoteRequest where
  generation : ℕ
  term : ℕ
  deriving DecidableEq

structure ProposerElected where
  generation : ℕ
  term : ℕ
  startStreamingAt : ℕ
  termHistory : List Epoch
  deriving DecidableEq

structure AppendRequestHeader where
  generation : ℕ
  term : ℕ
  beginLsn : ℕ
  endLsn : ℕ
  commitLsn : ℕ
  truncateLsn : ℕ
  deriving DecidableEq

structure AppendRequest where
  h : AppendRequestHeader
  walData : List UInt8
  deriving DecidableEq

/-- `ProposerAcceptorMessage`. The last two are not sent over the network: the safekeeper splits
an append request into one without a flush and a later flush. -/
inductive ProposerAcceptorMessage
  | greeting (msg : ProposerGreeting)
  | voteRequest (msg : VoteRequest)
  | elected (msg : ProposerElected)
  | appendRequest (msg : AppendRequest)
  | noFlushAppendRequest (msg : AppendRequest)
  | flushWAL
  deriving DecidableEq

structure AcceptorGreeting where
  nodeId : ℕ
  mconf : Configuration
  term : ℕ
  deriving DecidableEq

structure VoteResponse where
  generation : ℕ
  term : ℕ
  voteGiven : Bool
  flushLsn : ℕ
  truncateLsn : ℕ
  termHistory : List Epoch
  deriving DecidableEq

/-- `HotStandbyFeedback`: a timestamp and two transaction ids. -/
structure HotStandbyFeedback where
  ts : ℤ
  xmin : ℕ
  catalogXmin : ℕ
  deriving DecidableEq

def HotStandbyFeedback.empty : HotStandbyFeedback := ⟨0, 0, 0⟩

/-- `PageserverFeedback`; the reply time is in microseconds since the PostgreSQL epoch, as it is
sent. -/
structure PageserverFeedback where
  currentTimelineSize : ℕ
  lastReceivedLsn : ℕ
  diskConsistentLsn : ℕ
  remoteConsistentLsn : ℕ
  replytime : ℤ
  shardNumber : ℕ
  corruptionDetected : Bool
  deriving DecidableEq

structure AppendResponse where
  generation : ℕ
  term : ℕ
  flushLsn : ℕ
  commitLsn : ℕ
  hsFeedback : HotStandbyFeedback
  pageserverFeedback : Option PageserverFeedback
  deriving DecidableEq

/-- The answer to an append request of an older term: it carries the term only. -/
def AppendResponse.termOnly (generation term : ℕ) : AppendResponse :=
  ⟨generation, term, 0, 0, .empty, none⟩

inductive AcceptorProposerMessage
  | greeting (msg : AcceptorGreeting)
  | voteResponse (msg : VoteResponse)
  | appendResponse (msg : AppendResponse)
  deriving DecidableEq

end NeonStorage.Safekeeper
