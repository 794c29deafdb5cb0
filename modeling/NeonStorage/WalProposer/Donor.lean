import NeonStorage.WalProposer.Quorums

/-!
# The choice of the donor

A successful count of votes makes the voter with the highest log the donor, whose history the
walproposer continues. The count starts anew each time, with one exception: the donor pointer of the
last count is kept, and votes without any log do not replace it. So after a count in which nobody
has any log the donor is the one of an earlier count, whose connection may be gone by then.

`donorChosen_iff` says exactly when the choice is right.
-/

namespace NeonStorage.WalProposer

open Safekeeper History

variable {wp : WalProposer}

/-- The nodes that a successful count looks at. -/
def candidates (wp : WalProposer) : List ℕ :=
  if wp.legacy then wp.config.safekeepers
  else wp.mappedMembers wp.mconf.members.m ++ wp.mappedMembers wp.newMembers

def countedVoters (wp : WalProposer) : List ℕ := wp.candidates.filter (wp.voted ·)

/-- The log that a node voted with: its last term and its end. -/
def voteLog (wp : WalProposer) (i : ℕ) : ℕ × ℕ :=
  (lastTerm (wp.slot i).voteResponse.termHistory, (wp.slot i).voteResponse.flushLsn)

def LogLe (a b : ℕ × ℕ) : Prop := a.1 < b.1 ∨ a.1 = b.1 ∧ a.2 ≤ b.2

/-- The donor is a voter with the highest log, and the other fields are its values. -/
def DonorChosen (wp : WalProposer) (t : Tally) : Prop :=
  ∃ d ∈ wp.countedVoters, t.donor = some d ∧
    (∀ i ∈ wp.countedVoters, LogLe (wp.voteLog i) (wp.voteLog d)) ∧
    t.donorLastLogTerm = (wp.voteLog d).1 ∧ t.propTermStartLsn = (wp.voteLog d).2

theorem mem_countedVoters {i : ℕ} : i ∈ wp.countedVoters ↔ i ∈ wp.candidates ∧ wp.voted i := by
  simp [countedVoters]

/-! ## The count as one fold -/

/-- The fields of a tally apart from the number of votes. -/
def Tally.SameChoice (t u : Tally) : Prop :=
  t.donor = u.donor ∧ t.donorLastLogTerm = u.donorLastLogTerm ∧
    t.propTermStartLsn = u.propTermStartLsn

theorem Tally.SameChoice.add {t u : Tally} (h : t.SameChoice u) (i : ℕ) :
    (t.add wp i).SameChoice (u.add wp i) := by
  obtain ⟨hdonor, hterm, hlsn⟩ := h
  unfold Tally.add
  dsimp only
  rw [hdonor, hterm, hlsn]
  split
  · split
    · exact ⟨rfl, rfl, rfl⟩
    · exact ⟨rfl, rfl, rfl⟩
  · exact ⟨hdonor, hterm, hlsn⟩

theorem Tally.SameChoice.foldl {l : List ℕ} : ∀ {t u : Tally}, t.SameChoice u →
    (l.foldl (Tally.add wp) t).SameChoice (l.foldl (Tally.add wp) u) := by
  induction l with
  | nil => exact fun h ↦ h
  | cons i l ih => exact fun h ↦ ih (h.add i)

/-- A successful count is one loop over all candidates, as far as the donor is concerned. -/
theorem votesCollected_sameChoice (h : wp.votesCollected.1 = true) : wp.votesCollected.2.SameChoice
      (wp.candidates.foldl (Tally.add wp) ⟨wp.donor, 0, 0, 0, 0⟩) := by
  unfold votesCollected candidates at *
  cases hleg : wp.legacy with
  | true =>
    exact ⟨rfl, rfl, rfl⟩
  | false =>
    simp only [hleg, if_false, Bool.false_eq_true] at h ⊢
    by_cases hold : (wp.votesCollectedMset wp.mconf.members.m ⟨wp.donor, 0, 0, 0, 0⟩).1 = false
    · rw [if_pos hold, hold] at h
      cases h
    rw [if_neg hold, List.foldl_append]
    by_cases hnew : wp.newMembers = []
    · rw [hnew]
      exact ⟨rfl, rfl, rfl⟩
    · rw [if_neg hnew]
      exact Tally.SameChoice.foldl ⟨rfl, rfl, rfl⟩

theorem foldl_donor {l : List ℕ} (hzero : ∀ i ∈ l, wp.voted i → wp.voteLog i = (0, 0)) :
    ∀ {t : Tally}, t.donor ≠ none → (l.foldl (Tally.add wp) t).donor = t.donor := by
  induction l with
  | nil => exact fun _ ↦ rfl
  | cons i l ih =>
    intro t hdonor
    have hadd : (t.add wp i).donor = t.donor := by
      unfold Tally.add
      dsimp only
      split
      · rename_i hv
        obtain ⟨hterm, hlsn⟩ := Prod.ext_iff.mp (hzero i List.mem_cons_self hv)
        dsimp only [voteLog] at hterm hlsn
        rw [hterm, hlsn, if_neg]
        rintro (hlt | ⟨-, hlt⟩ | hnone)
        · exact Nat.not_lt_zero _ hlt
        · exact Nat.not_lt_zero _ hlt
        · exact hdonor hnone
      · rfl
    rw [List.foldl_cons, ih (fun j hj ↦ hzero j (List.mem_cons_of_mem i hj)) (hadd ▸ hdonor), hadd]

/-! ## When the choice is right -/

/-- Somebody has a log, or there is no donor of an earlier count, or that one is counted again. -/
def FreshDonor (wp : WalProposer) : Prop :=
  wp.donor = none ∨ (∃ d ∈ wp.countedVoters, wp.donor = some d) ∨
    ∃ i ∈ wp.countedVoters, wp.voteLog i ≠ (0, 0)

theorem exists_countedVoter (h : wp.votesCollected.1 = true) : ∃ i, i ∈ wp.countedVoters := by
  have hpos : ∀ {l : List ℕ} {n : ℕ}, msetQuorum n ≤ l.countP (wp.voted ·) →
      ∃ i ∈ l, wp.voted i := by
    intro l n hle
    have hlt : 0 < msetQuorum n := Nat.succ_pos _
    obtain ⟨i, hi, hv⟩ := List.countP_pos_iff.mp (hlt.trans_le hle)
    exact ⟨i, hi, of_decide_eq_true hv⟩
  simp only [mem_countedVoters]
  unfold votesCollected at h
  unfold candidates
  cases hleg : wp.legacy with
  | true =>
    simp only [hleg] at h ⊢
    have hcount := of_decide_eq_true h
    rw [nVotes_foldl, Nat.zero_add] at hcount
    exact hpos hcount
  | false =>
    simp only [hleg, if_false, Bool.false_eq_true] at h ⊢
    by_cases hold : (wp.votesCollectedMset wp.mconf.members.m ⟨wp.donor, 0, 0, 0, 0⟩).1 = false
    · rw [if_pos hold, hold] at h
      cases h
    -- the members alone already give a voter
    have hcount := of_decide_eq_true (Bool.eq_true_of_not_eq_false hold)
    rw [nVotes_foldl, Nat.zero_add] at hcount
    obtain ⟨i, hi, hv⟩ := hpos hcount
    exact ⟨i, List.mem_append_left _ hi, hv⟩

theorem logLe_zero_iff {a : ℕ × ℕ} : LogLe a (0, 0) ↔ a = (0, 0) := by
  unfold LogLe
  rw [Prod.ext_iff]
  omega

/-- **The donor of a successful count** is the voter with the highest log if and only if it is not
left over from an earlier count. -/
theorem donorChosen_iff (h : wp.votesCollected.1 = true) :
    wp.DonorChosen wp.votesCollected.2 ↔ wp.FreshDonor := by
  have hbest : Best wp wp.candidates (wp.candidates.foldl (Tally.add wp) ⟨wp.donor, 0, 0, 0, 0⟩) :=
    (Best.nil wp 0 0).foldl
  obtain ⟨hdonor, hterm, hlsn⟩ := votesCollected_sameChoice h
  unfold DonorChosen
  rw [hdonor, hterm, hlsn]
  generalize ht : wp.candidates.foldl (Tally.add wp) ⟨wp.donor, 0, 0, 0, 0⟩ = t at hbest ⊢
  have hle : ∀ i ∈ wp.countedVoters,
    LogLe (wp.voteLog i) (t.donorLastLogTerm, t.propTermStartLsn) :=
    fun i hi ↦ hbest.le i (mem_countedVoters.mp hi).1 (mem_countedVoters.mp hi).2
  constructor
  · rintro ⟨d, hd, hdonor, -⟩
    by_contra hstale
    unfold FreshDonor at hstale
    push Not at hstale
    obtain ⟨hsome, hnot, hzero⟩ := hstale
    refine hnot d hd ?_
    rw [← hdonor, ← ht]
    exact (foldl_donor (t := ⟨wp.donor, 0, 0, 0, 0⟩)
      (fun i hi hv ↦ hzero i (mem_countedVoters.mpr ⟨hi, hv⟩)) hsome).symm
  · intro hfresh
    rcases hbest.donor with ⟨d, hd, hv, hdonor, hterm, hlsn⟩ | ⟨hdonor, hterm, hlsn, hnone⟩
    · refine ⟨d, mem_countedVoters.mpr ⟨hd, hv⟩, hdonor, fun i hi ↦ ?_, hterm, hlsn⟩
      have := hle i hi
      rwa [hterm, hlsn] at this
    · -- nobody has any log, so the donor is the old one
      rw [hterm, hlsn] at hle
      have hzero : ∀ i ∈ wp.countedVoters, wp.voteLog i = (0, 0) := fun i hi ↦
        logLe_zero_iff.mp (hle i hi)
      rcases hfresh with hfree | ⟨d, hd, hold⟩ | ⟨i, hi, hlog⟩
      · obtain ⟨i, hi⟩ := exists_countedVoter h
        obtain ⟨hcand, hv⟩ := mem_countedVoters.mp hi
        exact absurd hv (hnone (hdonor.trans hfree) i hcand)
      · refine ⟨d, hd, hdonor.trans hold, fun i hi ↦ ?_, ?_, ?_⟩
        · rw [hzero d hd]
          exact hle i hi
        · rw [hzero d hd, hterm]
        · rw [hzero d hd, hlsn]
      · exact absurd (hzero i hi) hlog

/-! ## Campaigns -/

/-- What happens to the connections during a campaign. -/
inductive CampaignEvent where
  /-- The connection is lost, and made again. -/
  | reset (i conn : ℕ)
  | message (i : ℕ) (msg : AcceptorProposerMessage)

def campaign (wp : WalProposer) (events : List CampaignEvent) : Option WalProposer :=
  events.foldlM (fun wp e ↦
    match e with
    | .reset i conn => some (wp.resetConnection i conn)
    | .message i msg => (wp.receive i msg (fun _ ↦ 0) (fun _ ↦ 0) 0).map Prod.fst) wp

def withVote (wp : WalProposer) (i : ℕ) (msg : VoteResponse) : WalProposer :=
  wp.setSlot i { wp.slot i with
    voteResponse := msg, historyFreed := false, voteWal := fun _ ↦ 0, state := .waitElected }

/-- Three nodes without generations that have greeted, and the given events after it. -/
def threeNodes (events : List CampaignEvent) : Option WalProposer :=
  (create ⟨0, [1, 2, 3], false, WAL_SEGMENT_SIZE, 0x100, false, 0⟩).bind fun wp ↦
    wp.campaign ([.reset 1 1, .reset 2 2, .reset 3 3] ++
      [1, 2, 3].map (fun i ↦ .message i (.greeting ⟨i, .empty, 0⟩)) ++ events)

def firstVote (flushLsn : ℕ) (termHistory : List Epoch) : VoteResponse :=
  ⟨0, 1, true, flushLsn, 0, termHistory⟩

theorem donorChosen_iff_threeNodes :
    ∃ wp, threeNodes [.message 1 (.voteResponse (firstVote 0x200 [⟨1, 0x100⟩])), .reset 1 4,
        .message 2 (.voteResponse (firstVote 0x180 [⟨1, 0x100⟩]))] = some wp ∧
      (wp.withVote 3 (firstVote 0 [])).DonorChosen
        (wp.withVote 3 (firstVote 0 [])).votesCollected.2 := by
  obtain ⟨wp, hwp, hcount, hlog⟩ : ∃ wp ∈ threeNodes [.message 1 (.voteResponse (firstVote 0x200
      [⟨1, 0x100⟩])), .reset 1 4, .message 2 (.voteResponse (firstVote 0x180 [⟨1, 0x100⟩]))],
      (wp.withVote 3 (firstVote 0 [])).votesCollected.1 = true ∧
        2 ∈ (wp.withVote 3 (firstVote 0 [])).countedVoters ∧
        (wp.withVote 3 (firstVote 0 [])).voteLog 2 ≠ (0, 0) := by
    decide
  exact ⟨wp, hwp, (donorChosen_iff hcount).mpr (.inr (.inr ⟨2, hlog⟩))⟩

/-- The first node votes, and loses its connection. The other two elect us, and the donor is still
the first one. Nobody has any log. -/
theorem exists_not_donorChosen :
    ∃ wp, threeNodes [.message 1 (.voteResponse (firstVote 0 [])), .reset 1 4,
        .message 2 (.voteResponse (firstVote 0 []))] = some wp ∧
      (wp.withVote 3 (firstVote 0 [])).votesCollected.1 = true ∧
      ¬(wp.withVote 3 (firstVote 0 [])).DonorChosen
        (wp.withVote 3 (firstVote 0 [])).votesCollected.2 := by
  unfold DonorChosen LogLe
  change ∃ wp ∈ threeNodes _, _
  decide

end NeonStorage.WalProposer
