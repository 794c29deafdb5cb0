import NeonStorage.WalProposer.Model

/-!
# What the walproposer's counting of votes establishes

The walproposer counts votes over arrays of connection slots and keeps the highest vote that it has
seen.

The donor survives from one count to the next although the positions it is compared by are reset.
So the donor of a count may be a node that has not voted in it, but then no vote has any log
(`Best`).
-/

namespace NeonStorage.WalProposer

open Safekeeper History

variable {wp : WalProposer}

def voted (wp : WalProposer) (i : ℕ) : Prop := (wp.slot i).state = .waitElected

instance (wp : WalProposer) : DecidablePred wp.voted := fun i ↦ by unfold voted; infer_instance

/-- What the loop over the votes has found among the nodes `seen`: the highest vote, or, with a
donor from an earlier count, no vote that has any log. -/
structure Best (wp : WalProposer) (seen : List ℕ) (t : Tally) : Prop where
  le : ∀ i ∈ seen, wp.voted i → lastTerm (wp.slot i).voteResponse.termHistory < t.donorLastLogTerm ∨
    lastTerm (wp.slot i).voteResponse.termHistory = t.donorLastLogTerm ∧
      (wp.slot i).voteResponse.flushLsn ≤ t.propTermStartLsn
  donor : (∃ d ∈ seen, wp.voted d ∧ t.donor = some d ∧
      t.donorLastLogTerm = lastTerm (wp.slot d).voteResponse.termHistory ∧
      t.propTermStartLsn = (wp.slot d).voteResponse.flushLsn) ∨
    t.donor = wp.donor ∧ t.donorLastLogTerm = 0 ∧ t.propTermStartLsn = 0 ∧
      (t.donor = none → ∀ i ∈ seen, ¬wp.voted i)

theorem Best.nil (wp : WalProposer) (n m : ℕ) : Best wp [] ⟨wp.donor, 0, 0, n, m⟩ :=
  ⟨nofun, .inr ⟨rfl, rfl, rfl, fun _ ↦ nofun⟩⟩

theorem Best.add {seen : List ℕ} {t : Tally} (h : Best wp seen t) (i : ℕ) :
    Best wp (seen ++ [i]) (t.add wp i) := by
  have hmem : ∀ {j}, j ∈ seen ++ [i] → j ∈ seen ∨ j = i := fun hj ↦ by simpa using hj
  unfold Tally.add
  by_cases hv : (wp.slot i).state = .waitElected
  swap
  · rw [if_neg hv]
    refine ⟨fun j hj hjv ↦ ?_, ?_⟩
    · rcases hmem hj with hj | rfl
      · exact h.le j hj hjv
      · exact absurd hjv hv
    · rcases h.donor with ⟨d, hd, hrest⟩ | ⟨hd, h₀, h₁, hnone⟩
      · exact .inl ⟨d, List.mem_append_left _ hd, hrest⟩
      · refine .inr ⟨hd, h₀, h₁, fun hn j hj ↦ ?_⟩
        rcases hmem hj with hj | rfl
        · exact hnone hn j hj
        · exact hv
  rw [if_pos hv]
  split
  · -- the vote is the highest one so far
    rename_i hbest
    refine ⟨fun j hj hjv ↦ ?_, .inl ⟨i, by simp, hv, rfl, rfl, rfl⟩⟩
    rcases hmem hj with hj | rfl
    swap
    · exact .inr ⟨rfl, le_rfl⟩
    rcases h.donor with ⟨d, -, -, hd, -⟩ | ⟨-, -, -, hnone⟩
    · have hle := h.le j hj hjv
      have hsome : t.donor ≠ none := by rw [hd]; exact Option.some_ne_none d
      dsimp only
      rcases hbest with hlt | ⟨heq, hlt⟩ | hn
      · omega
      · omega
      · exact absurd hn hsome
    · have hle := h.le j hj hjv
      dsimp only
      rcases hbest with hlt | ⟨heq, hlt⟩ | hn
      · omega
      · omega
      · exact absurd hjv (hnone hn j hj)
  · rename_i hbest
    push Not at hbest
    obtain ⟨h₀, h₁, hsome⟩ := hbest
    refine ⟨fun j hj hjv ↦ ?_, ?_⟩
    · rcases hmem hj with hj | rfl
      · exact h.le j hj hjv
      · dsimp only
        omega
    · rcases h.donor with ⟨d, hd, hrest⟩ | ⟨hd, hrest⟩
      · exact .inl ⟨d, List.mem_append_left _ hd, hrest⟩
      · exact .inr ⟨hd, hrest.1, hrest.2.1, fun hn ↦ absurd hn hsome⟩

theorem Best.foldl {l : List ℕ} : ∀ {seen : List ℕ} {t : Tally}, Best wp seen t →
    Best wp (seen ++ l) (l.foldl (Tally.add wp) t) := by
  induction l with
  | nil =>
    intro seen t h
    rw [List.append_nil]
    exact h
  | cons i l ih =>
    intro seen t h
    have hcons := ih (h.add i)
    rw [List.append_assoc] at hcons
    exact hcons

theorem nVotes_foldl (wp : WalProposer) {l : List ℕ} : ∀ t : Tally,
    (l.foldl (Tally.add wp) t).nVotes = t.nVotes + l.countP (wp.voted ·) := by
  induction l with
  | nil => exact fun t ↦ rfl
  | cons i l ih =>
    intro t
    have hadd : (t.add wp i).nVotes = t.nVotes + if wp.voted i then 1 else 0 := by
      unfold Tally.add
      by_cases hv : wp.voted i
      · have hstate : (wp.slot i).state = .waitElected := hv
        rw [if_pos hv, if_pos hstate]
        split <;> rfl
      · rw [if_neg hv]
        exact congrArg Tally.nVotes (if_neg hv)
    rw [List.foldl_cons, ih, List.countP_cons]
    simp only [decide_eq_true_eq]
    omega

end NeonStorage.WalProposer
