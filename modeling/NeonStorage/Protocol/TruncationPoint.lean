import NeonStorage.Safekeeper.CommitLsn
import NeonStorage.WalProposer.Model
import Mathlib.Order.Bounds.Basic

/-!
# The truncation point

An elected walproposer tells a safekeeper from where it is going to stream, and the safekeeper
computes the same point again before it truncates its WAL. The two searches are written
independently and treat the end of the proposer's history differently: one looks for the last entry,
the other for the own term.

Both compare the histories index by index and stop at the first index at which the terms differ. The
point is therefore the end of the agreement of the two histories only if they are branches of one
tree, in which a term that both contain has the same beginning in both (`SharesBeginnings`).
-/

namespace NeonStorage.Protocol

open Safekeeper History TermHistory List WalProposer Option

/-! ## Agreement of histories -/

/-- The term that a history assigns to the position `x`, if there is one. -/
def assignedTerm (h : List Epoch) (x : ℕ) : Option ℕ := (upTo h x).getLast?.map Epoch.term

/-- The two histories assign the same term to every position below `l`. -/
def AgreeBelow (h k : List Epoch) (l : ℕ) : Prop := ∀ x < l, assignedTerm h x = assignedTerm k x

instance (h k : List Epoch) (l : ℕ) : Decidable (AgreeBelow h k l) :=
  inferInstanceAs (Decidable (∀ x < l, assignedTerm h x = assignedTerm k x))

/-- Equal terms at equal indexes start at equal positions. -/
def Consistent (h k : List Epoch) : Prop :=
  ∀ i < h.length, h[i]?.map Epoch.term = k[i]?.map Epoch.term →
    h[i]?.map Epoch.lsn = k[i]?.map Epoch.lsn

instance (h k : List Epoch) : Decidable (Consistent h k) :=
  inferInstanceAs (Decidable (∀ i < h.length, _ → _))

/-- A term that both histories contain has the same beginning in both. -/
def SharesBeginnings (h k : List Epoch) : Prop :=
  ∀ i < h.length, ∀ j < k.length, h[i]?.map Epoch.term = k[j]?.map Epoch.term →
    h.take (i + 1) = k.take (j + 1)

instance (h k : List Epoch) : Decidable (SharesBeginnings h k) :=
  inferInstanceAs (Decidable (∀ i < h.length, ∀ j < k.length, _ → _))

variable {h k : List Epoch} {l m x : ℕ}
variable {e : Epoch}

theorem getElem?_of_upTo {i : ℕ} (he : (upTo h x)[i]? = some e) : h[i]? = some e := by
  obtain ⟨hi, rfl⟩ := List.getElem?_eq_some_iff.mp he
  exact prefix_iff_getElem?.mp (upTo_isPrefix h x) i hi

/-- The entry that assigns the term of `x` is not before any entry at or below `x`. -/
theorem exists_assigned (hh : Sorted h) {a : Epoch} (ha : h[m]? = some a) (hle : a.lsn ≤ x) :
    ∃ i e, m ≤ i ∧ h[i]? = some e ∧ assignedTerm h x = some e.term := by
  have hlt : m < (upTo h x).length := by
    by_contra hge
    have hlen : (upTo h x).length < h.length :=
      (Nat.le_of_not_lt hge).trans_lt (List.getElem?_eq_some_iff.mp ha).1
    have hcut := lt_lsn_of_upTo (getElem?_eq_getElem hlen)
    have := hh.lsn_le_of_getElem? (Nat.le_of_not_lt hge) (getElem?_eq_getElem hlen) ha
    omega
  obtain ⟨e, he⟩ : ∃ e, (upTo h x).getLast? = some e :=
    ⟨_, getLast?_eq_some_getLast (ne_nil_of_length_pos (Nat.zero_lt_of_lt hlt))⟩
  refine ⟨(upTo h x).length - 1, e, by omega, ?_, by rw [assignedTerm, he, map_some]⟩
  rw [getLast?_eq_getElem?] at he
  exact getElem?_of_upTo he

theorem exists_of_assignedTerm {t : ℕ} (ht : assignedTerm h x = some t) :
    ∃ (i : ℕ) (e : Epoch), h[i]? = some e ∧ e.term = t := by
  obtain ⟨e, he, rfl⟩ := map_eq_some_iff.mp ht
  obtain ⟨i, hi⟩ := mem_iff_getElem?.mp (mem_of_getLast? he)
  exact ⟨i, e, getElem?_of_upTo hi, rfl⟩

theorem SharesBeginnings.symm (hshare : SharesBeginnings h k) : SharesBeginnings k h :=
  fun i hi j hj hij ↦ (hshare j hj i hi hij.symm).symm

theorem Consistent.lsn_eq (hcons : Consistent h k) {p q : Epoch} (hp : h[m]? = some p)
    (hq : k[m]? = some q) (hpq : p.term = q.term) : p.lsn = q.lsn := by
  have := hcons m (List.getElem?_eq_some_iff.mp hp).1
  simpa [hp, hq, hpq] using this

/-- Behind a common beginning of length `m`, an agreement at a position at which the first history
has left that beginning gives both histories the same entry `m`. -/
theorem getElem?_eq_of_assignedTerm_eq (hh : Sorted h) (hshare : SharesBeginnings h k) {a : Epoch}
    (ha : h[m]? = some a) (hle : a.lsn ≤ x) (heq : assignedTerm h x = assignedTerm k x) :
    k[m]? = some a := by
  obtain ⟨i, p, hmi, hp, hpt⟩ := exists_assigned hh ha hle
  obtain ⟨j, q, hq, hqt⟩ := exists_of_assignedTerm (heq ▸ hpt)
  have hi := (List.getElem?_eq_some_iff.mp hp).1
  have hj := (List.getElem?_eq_some_iff.mp hq).1
  have htake := hshare i hi j hj (by rw [hp, hq, map_some, map_some, hqt])
  have hij : i = j := by
    have hlen := congrArg List.length htake
    rw [length_take_of_le hi, length_take_of_le hj] at hlen
    omega
  subst hij
  rw [← getElem?_take_of_lt (Nat.lt_succ_of_le hmi), ← htake,
    getElem?_take_of_lt (Nat.lt_succ_of_le hmi), ha]

theorem agreeBelow_of_take_eq (htake : h.take m = k.take m) (hm : m ≤ h.length) (hk : m ≤ k.length)
    (hh : ∀ a, h[m]? = some a → l ≤ a.lsn) (hkl : ∀ a, k[m]? = some a → l ≤ a.lsn) :
    AgreeBelow h k l := by
  intro x hx
  have hcov : ∀ g : List Epoch, m ≤ g.length → (∀ a, g[m]? = some a → l ≤ a.lsn) →
      Covers g (g.take m) l := by
    intro g hg hnext
    refine ⟨List.take_prefix _ _, ?_⟩
    rwa [length_take_of_le hg]
  rw [assignedTerm, assignedTerm, (hcov h hm hh).upTo_eq hx, (hcov k hk hkl).upTo_eq hx, htake]

/-- Where the histories stop to agree: `l` is the end of the agreement below `f` if neither has left
the common beginning before `l`, and one of them does at `l` or `l` is `f`. -/
theorem isGreatest_agreeBelow {f : ℕ} (hh : Sorted h) (hk : Sorted k)
    (hshare : SharesBeginnings h k) (hcommon : commonLen h k = .ok m) (hlf : l ≤ f)
    (hhl : ∀ a, h[m]? = some a → l ≤ a.lsn) (hkl : ∀ a, k[m]? = some a → l ≤ a.lsn)
    (hleave : l = f ∨ (∃ a, h[m]? = some a ∧ a.lsn ≤ l) ∨ ∃ a, k[m]? = some a ∧ a.lsn ≤ l) :
    IsGreatest {l | l ≤ f ∧ AgreeBelow h k l} l := by
  obtain ⟨hm₁, hm₂, htake, hne⟩ := commonLen_spec hcommon
  refine ⟨⟨hlf, agreeBelow_of_take_eq htake hm₁ hm₂ hhl hkl⟩, ?_⟩
  rintro l' ⟨hl', hagree⟩
  by_contra hlt
  have heq := hagree l (Nat.lt_of_not_le hlt)
  rcases hleave with rfl | ⟨a, ha, hle⟩ | ⟨a, ha, hle⟩
  · exact hlt hl'
  · exact hne a a ha (getElem?_eq_of_assignedTerm_eq hh hshare ha hle heq) rfl
  · exact hne a a (getElem?_eq_of_assignedTerm_eq hk hshare.symm ha hle heq.symm) ha rfl

/-! ## The two searches -/

/-- On consistent histories the assertion on the starts of terms does not fail, and both searches
find the same common part. -/
theorem commonLen_eq_commonTerms
    (hcons : ∀ (i : ℕ) (p q : Epoch), h[i]? = some p → k[i]? = some q → p.term = q.term →
      p.lsn = q.lsn) : commonLen h k = .ok (commonTerms h k) := by
  induction h, k using commonLen.induct with
  | case1 p h q k hne =>
    rw [commonLen, if_pos hne, commonTerms, if_pos hne]
  | case2 p h q k heq hne =>
    exact absurd (hcons 0 p q rfl rfl (not_not.mp heq)) hne
  | case3 p h q k hterm hlsn ih =>
    rw [commonLen, if_neg hterm, if_neg hlsn, commonTerms, if_neg hterm,
      ih fun i p q hp hq ↦ hcons (i + 1) p q hp hq]
    rfl
  | case4 h k hnil =>
    rw [commonLen, commonTerms]
    · exact hnil
    · exact hnil

/-- The history of a safekeeper is cut to its WAL, so the assertion on its end does not fail. -/
theorem endPanic_getTermHistory (sk : SafeKeeper) :
    endPanic sk.getTermHistory sk.flushLsn = none := by
  unfold endPanic
  split
  · rename_i last hlast
    have := lsn_le_of_mem_upTo (mem_of_getLast? hlast)
    rw [if_neg (by omega)]
  · rfl

section Point

variable {wp : WalProposer} {sk : SafeKeeper} {r : VoteResponse}

section Own

variable {n : ℕ} (hP : Sorted wp.propTermHistory)
  (hown : wp.propTermHistory.getLast?.map Epoch.term = some wp.propTerm)
  (he : wp.propTermHistory[n]? = some e)
include hP hown he

/-- The own term is the last of the proposer's history, so looking for it is looking for the end. -/
theorem getElem?_succ_eq_none_iff : wp.propTermHistory[n + 1]? = none ↔ e.term = wp.propTerm := by
  obtain ⟨last, hlast, hterm⟩ := map_eq_some_iff.mp hown
  rw [getLast?_eq_getElem?] at hlast
  have hn := (List.getElem?_eq_some_iff.mp he).1
  rw [getElem?_eq_none_iff, ← hterm]
  constructor
  · intro hlen
    have : n = wp.propTermHistory.length - 1 := by omega
    rw [← this, he] at hlast
    cases hlast
    rfl
  · intro heq
    have := hP.index_unique he hlast heq
    omega

theorem startStreamingAt_succ (hcommon : commonTerms wp.propTermHistory r.termHistory = n + 1) :
    wp.startStreamingAt r = divergence wp.propTermHistory r.termHistory r.flushLsn n := by
  have hiff := getElem?_succ_eq_none_iff hP hown he
  unfold startStreamingAt
  rw [hcommon]
  simp only [he, map_some, some.injEq]
  unfold divergence
  cases hnext : wp.propTermHistory[n + 1]? with
  | none => rw [if_pos (hiff.mp hnext)]
  | some next =>
    have hterm : e.term ≠ wp.propTerm := fun hterm ↦ by
      cases (hiff.mpr hterm).symm.trans hnext
    rw [if_neg hterm]
    cases r.termHistory[n + 1]? <;> rfl

/-- The divergence is the end of the agreement, if the safekeeper has no later term. -/
theorem isGreatest_divergence {f : ℕ} (hk : Sorted k)
    (hshare : SharesBeginnings wp.propTermHistory k)
    (hcommon : commonLen wp.propTermHistory k = .ok (n + 1))
    (hterms : ∀ q ∈ k, q.term ≤ wp.propTerm) (hf : ∀ q ∈ k, q.lsn ≤ f) :
    IsGreatest {l | l ≤ f ∧ AgreeBelow wp.propTermHistory k l}
      (divergence wp.propTermHistory k f n) := by
  refine isGreatest_agreeBelow hP hk hshare hcommon (divergence_le n hf) ?_ ?_ ?_
  · intro a ha
    rw [divergence, ha]
    exact min_le_left _ _
  · intro a ha
    rw [divergence]
    cases hnext : wp.propTermHistory[n + 1]? with
    | none =>
      -- the safekeeper would have a term after ours
      obtain ⟨-, hlen, htake, -⟩ := commonLen_spec hcommon
      have hek : k[n]? = some e := by
        rw [← getElem?_take_of_lt n.lt_succ_self, ← htake, getElem?_take_of_lt n.lt_succ_self, he]
      have hlt := hk.term_lt_of_getElem? n.lt_succ_self hek ha
      have hle := hterms a (mem_of_getElem? ha)
      have := (getElem?_succ_eq_none_iff hP hown he).mp hnext
      omega
    | some next =>
      rw [ha]
      exact min_le_right _ _
  · rw [divergence]
    cases hnext : wp.propTermHistory[n + 1]? with
    | none => exact .inl rfl
    | some next =>
      cases hq : k[n + 1]? with
      | none =>
        rcases min_choice next.lsn f with hmin | hmin
        · exact .inr (.inl ⟨next, rfl, hmin.ge⟩)
        · exact .inl hmin
      | some q =>
        rcases min_choice next.lsn q.lsn with hmin | hmin
        · exact .inr (.inl ⟨next, rfl, hmin.ge⟩)
        · exact .inr (.inr ⟨q, rfl, hmin.ge⟩)

end Own

/-- The histories increase, equal terms begin at equal positions, and the proposer's history ends
with its own term. -/
structure Comparable (wp : WalProposer) (sk : SafeKeeper) : Prop where
  prop_sorted : Sorted wp.propTermHistory
  sk_sorted : Sorted sk.state.pers.acceptorState.termHistory
  consistent : Consistent wp.propTermHistory sk.state.pers.acceptorState.termHistory
  own : wp.propTermHistory.getLast?.map Epoch.term = some wp.propTerm

/-- The first position of the proposer's history is not behind the safekeeper's WAL, and nothing of
the safekeeper's history comes before it. -/
def BeginsInside (propTh skTh : List Epoch) (flushLsn : ℕ) : Prop :=
  start propTh ≤ flushLsn ∧ ∀ q ∈ skTh, start propTh ≤ q.lsn
  deriving Decidable

/-- **The two searches agree**: the point from which the walproposer streams to a safekeeper, by the
vote it got, is the point up to which the safekeeper keeps its WAL. If the safekeeper has no later
term than the proposer and the histories are branches of one tree, it is the end of the agreement of
the two histories. -/
theorem startStreamingAt_eq_lastCommonPoint (hcomp : Comparable wp sk)
    (hflush : r.flushLsn = sk.flushLsn) (hvote : r.termHistory = sk.getTermHistory) :
    ∃ lcp, sk.lastCommonPoint wp.propTermHistory = .ok lcp ∧ wp.startStreamingAt r = lcp.lsn ∧
      (BeginsInside wp.propTermHistory sk.getTermHistory sk.flushLsn →
        (∀ q ∈ sk.getTermHistory, q.term ≤ wp.propTerm) →
        SharesBeginnings wp.propTermHistory sk.getTermHistory →
        IsGreatest {l | l ≤ sk.flushLsn ∧ AgreeBelow wp.propTermHistory sk.getTermHistory l}
          lcp.lsn) := by
  obtain ⟨hP, hS, hcons, hown⟩ := hcomp
  have hS' : Sorted sk.getTermHistory := hS.of_isPrefix (upTo_isPrefix _ _)
  have hcommon : TermHistory.commonLen wp.propTermHistory sk.getTermHistory =
      .ok (commonTerms wp.propTermHistory sk.getTermHistory) :=
    commonLen_eq_commonTerms fun _ _ _ hp hq ↦ hcons.lsn_eq hp (getElem?_of_upTo hq)
  obtain ⟨first, hfirst⟩ : ∃ first, wp.propTermHistory.head? = some first := by
    cases hp : wp.propTermHistory with
    | nil => simp [hp] at hown
    | cons first t => exact ⟨first, rfl⟩
  have hstart := start_of_head? hfirst
  rw [head?_eq_getElem?] at hfirst
  unfold SafeKeeper.lastCommonPoint TermHistory.findHighestCommonPoint
  rw [endPanic_getTermHistory]
  rw [hcommon]
  cases hlen : commonTerms wp.propTermHistory sk.getTermHistory with
  | zero =>
    refine ⟨first, by simp [head?_eq_getElem?, hfirst], ?_, ?_⟩
    · rw [startStreamingAt, hvote, hlen, hstart]
    · intro hbegin _ hshare
      rw [BeginsInside, hstart] at hbegin
      rw [hlen] at hcommon
      refine isGreatest_agreeBelow hP hS' hshare hcommon hbegin.1 ?_ ?_
        (.inr (.inl ⟨first, hfirst, le_rfl⟩))
      · intro a ha
        cases hfirst.symm.trans ha
        exact le_rfl
      · intro a ha
        exact hbegin.2 a (mem_of_getElem? ha)
  | succ n =>
    rw [hlen] at hcommon
    obtain ⟨hn, hn', htake, -⟩ := TermHistory.commonLen_spec hcommon
    have he : wp.propTermHistory[n]? = some wp.propTermHistory[n] := getElem?_eq_getElem hn
    refine ⟨⟨wp.propTermHistory[n].term,
      TermHistory.divergence wp.propTermHistory sk.getTermHistory sk.flushLsn n⟩,
      by simp only [he, Option.map_some], ?_, ?_⟩
    · rw [startStreamingAt_succ hP hown he (by rw [hvote, hlen]), hvote, hflush]
    · intro _ hterms hshare
      exact isGreatest_divergence hP hown he hS' hshare hcommon hterms
        fun q hq ↦ lsn_le_of_mem_upTo hq

end Point

/-! ## Examples -/

/-- An elected walproposer with the given history. -/
def proposerWith (propTerm : ℕ) (history : List Epoch) : WalProposer :=
  { ((create ⟨0, [1], false, WAL_SEGMENT_SIZE, 0x100, false, 0⟩).get rfl) with
    propTerm, propTermHistory := history }

/-- A safekeeper with the given history and WAL up to `flushLsn`. -/
def safekeeperWith (history : List Epoch) (flushLsn : ℕ) : SafeKeeper :=
  loaded { sampleTimeline with acceptorState := ⟨lastTerm history, history⟩, timelineStartLsn := 0 }
    1
    (.opened sampleTimeline.server.walSegSize .PG17 (fun _ ↦ 0) flushLsn flushLsn)

/-- The streaming start is the common point, and it is the end of the agreement. -/
def PointIsEndOfAgreement (wp : WalProposer) (sk : SafeKeeper) : Prop :=
  ∃ lcp, sk.lastCommonPoint wp.propTermHistory = .ok lcp ∧
    wp.startStreamingAt sk.voteRefusal = lcp.lsn ∧
    IsGreatest {l | l ≤ sk.flushLsn ∧ AgreeBelow wp.propTermHistory sk.getTermHistory l} lcp.lsn

/-- The safekeeper has WAL of term 2 that the proposer of term 3 does not know. -/
theorem startStreamingAt_eq_lastCommonPoint_divergent :
    PointIsEndOfAgreement (proposerWith 3 [⟨1, 10⟩, ⟨3, 20⟩])
      (safekeeperWith [⟨1, 10⟩, ⟨2, 15⟩] 30) := by
  have hcomp : Comparable (proposerWith 3 [⟨1, 10⟩, ⟨3, 20⟩])
      (safekeeperWith [⟨1, 10⟩, ⟨2, 15⟩] 30) :=
    ⟨by decide, by decide, by decide, rfl⟩
  obtain ⟨lcp, hlcp, hstart, hgreatest⟩ := startStreamingAt_eq_lastCommonPoint hcomp
    (r := (safekeeperWith [⟨1, 10⟩, ⟨2, 15⟩] 30).voteRefusal) rfl rfl
  exact ⟨lcp, hlcp, hstart, hgreatest (by rw [BeginsInside]; decide) (by decide) (by decide)⟩

/-- The point is not the end of the agreement, first if the safekeeper has no WAL yet or has a term
before the proposer's first one, then if it has a term after the proposer's own, and last if a term
that both have begins differently: there it is too low, and WAL is truncated that both have. -/
theorem exists_not_pointIsEndOfAgreement :
    (∃ wp sk, Comparable wp sk ∧ ¬BeginsInside wp.propTermHistory sk.getTermHistory sk.flushLsn ∧
      ¬PointIsEndOfAgreement wp sk) ∧
    (∃ wp sk, Comparable wp sk ∧ start wp.propTermHistory ≤ sk.flushLsn ∧
      ¬BeginsInside wp.propTermHistory sk.getTermHistory sk.flushLsn ∧
      ¬PointIsEndOfAgreement wp sk) ∧
    (∃ wp sk, Comparable wp sk ∧ ¬(∀ q ∈ sk.getTermHistory, q.term ≤ wp.propTerm) ∧
      ¬PointIsEndOfAgreement wp sk) ∧
    ∃ wp sk, Comparable wp sk ∧ ¬SharesBeginnings wp.propTermHistory sk.getTermHistory ∧
      ¬PointIsEndOfAgreement wp sk := by
  refine ⟨⟨proposerWith 1 [⟨1, 10⟩], safekeeperWith [] 0, ?_, ?_, ?_⟩,
    ⟨proposerWith 2 [⟨2, 20⟩], safekeeperWith [⟨1, 10⟩] 30, ?_, by decide, ?_, ?_⟩,
    ⟨proposerWith 1 [⟨1, 10⟩], safekeeperWith [⟨1, 10⟩, ⟨2, 20⟩] 30, ?_, ?_, ?_⟩,
    ⟨proposerWith 3 [⟨1, 10⟩, ⟨3, 20⟩], safekeeperWith [⟨1, 10⟩, ⟨2, 20⟩, ⟨3, 20⟩] 30, ?_, ?_, ?_⟩⟩
  · exact ⟨by decide, by decide, by decide, rfl⟩
  · decide
  · rintro ⟨lcp, hlcp, -, hgreatest⟩
    cases hlcp
    exact absurd hgreatest.1.1 (by decide)
  · exact ⟨by decide, by decide, by decide, rfl⟩
  · decide
  · rintro ⟨lcp, hlcp, -, hgreatest⟩
    cases hlcp
    exact absurd (hgreatest.1.2 10 (by decide)) (by decide)
  · exact ⟨by decide, by decide, by decide, rfl⟩
  · decide
  · rintro ⟨lcp, hlcp, -, hgreatest⟩
    cases hlcp
    exact absurd (hgreatest.1.2 20 (by decide)) (by decide)
  · exact ⟨by decide, by decide, by decide, rfl⟩
  · decide
  · rintro ⟨lcp, hlcp, -, hgreatest⟩
    cases hlcp
    exact absurd (hgreatest.2 (show _ ∈ _ from ⟨le_refl 30, by decide⟩)) (by decide)

end NeonStorage.Protocol
