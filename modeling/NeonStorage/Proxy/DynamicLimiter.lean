import NeonStorage.Lib.Runs
import Mathlib.Data.Finset.Basic

/-!
# The dynamic limit of concurrent jobs

A `DynamicLimiter` counts the permits that are left, and counts them anew when a token is released
while fewer tokens are out than the limit says. If the limit falls below that, the old count stays,
and the permits in it are granted on top of a limit that is already reached.
-/

namespace NeonStorage.Proxy

inductive Outcome
  | success | overload
  deriving DecidableEq

structure Sample where
  latency : ℕ
  inFlight : ℕ
  outcome : Outcome

/-- The tasks are those that call `acquire`, and the tokens go by them. -/
structure DynamicLimiter (ι : Type) where
  available : ℕ
  limit : ℕ
  inFlight : ℕ
  /-- Whether `ready` keeps a notification for the next task. -/
  notified : Bool
  /-- The tasks that wait for a notification, and those that have one. -/
  waiting : List ι
  ready : Finset ι
  /-- The outstanding tokens. -/
  tokens : List ι

inductive LimiterAction (ι : Type)
  | poll (i : ι)
  | take (i : ι)
  | cancel (i : ι)
  | release (i : ι) (latency : ℕ) (outcome : Option Outcome)

namespace DynamicLimiter

variable {ι : Type} [DecidableEq ι]

def new (initialLimit : ℕ) : DynamicLimiter ι := ⟨initialLimit, initialLimit, 0, true, [], ∅, []⟩

def notifyOne (self : DynamicLimiter ι) : DynamicLimiter ι :=
  match self.waiting with
  | [] => { self with notified := true }
  | i :: waiting => { self with waiting, ready := insert i self.ready }

/-- The limit after a job, which an algorithm may change. -/
def updateLimit (update : ℕ → Sample → ℕ) (self : DynamicLimiter ι) (latency : ℕ) :
    Option Outcome → ℕ
  | none => self.limit
  | some outcome => update self.limit ⟨latency, self.inFlight, outcome⟩

/-- A task polls when it starts to acquire and each time it has found no permit; a notification
that it has not used when it is cancelled goes to the next one. -/
def step (update : ℕ → Sample → ℕ) (self : DynamicLimiter ι) :
    LimiterAction ι → Option (DynamicLimiter ι)
  | .poll i => if i ∈ self.waiting ∨ i ∈ self.ready then none
    else if self.notified then some { self with notified := false, ready := insert i self.ready }
    else some { self with waiting := self.waiting ++ [i] }
  | .take i => if i ∉ self.ready then none
    else if 1 ≤ self.available then
      let self := { self with
        available := self.available - 1, inFlight := self.inFlight + 1,
        ready := self.ready.erase i, tokens := i :: self.tokens }
      some (if 1 ≤ self.available then self.notifyOne else self)
    else some { self with ready := self.ready.erase i }
  | .cancel i => if i ∈ self.waiting then some { self with waiting := self.waiting.erase i }
    else if i ∈ self.ready then some { self with ready := self.ready.erase i }.notifyOne
    else none
  | .release i latency outcome => if i ∉ self.tokens then none
    else
      let self := { self with
        limit := self.updateLimit update latency outcome, inFlight := self.inFlight - 1,
        tokens := self.tokens.erase i }
      some (if self.inFlight < self.limit then
          { self with available := self.limit - self.inFlight }.notifyOne
        else self)

/-- A release leaves permits only if the limit is not reached. -/
def Clean (self : DynamicLimiter ι) : LimiterAction ι → DynamicLimiter ι → Prop
  | .release _ _ _, self' => self.available = 0 ∨ self'.inFlight < self'.limit
  | _, _ => True

/-- If a token is granted, there are at most as many as the limit says. -/
def Within (self : DynamicLimiter ι) : LimiterAction ι → DynamicLimiter ι → Prop
  | .take _, self' => 1 ≤ self.available → self'.tokens.length ≤ self'.limit
  | _, _ => True

variable {update : ℕ → Sample → ℕ} {self self' : DynamicLimiter ι} {a : LimiterAction ι}

def Counted (self : DynamicLimiter ι) : Prop := self.inFlight = self.tokens.length

/-- There are no permits, or at most those that the limit leaves. -/
def Fits (self : DynamicLimiter ι) : Prop :=
  self.available = 0 ∨ self.available + self.inFlight ≤ self.limit

section notifyOne

variable (self)

@[simp] theorem notifyOne_available : self.notifyOne.available = self.available := by
  unfold notifyOne
  split <;> rfl

@[simp] theorem notifyOne_limit : self.notifyOne.limit = self.limit := by
  unfold notifyOne
  split <;> rfl

@[simp] theorem notifyOne_inFlight : self.notifyOne.inFlight = self.inFlight := by
  unfold notifyOne
  split <;> rfl

@[simp] theorem notifyOne_tokens : self.notifyOne.tokens = self.tokens := by
  unfold notifyOne
  split <;> rfl

end notifyOne

theorem step_spec (h : Counted self) (hstep : step update self a = some self') :
    Counted self' ∧ (Fits self → Clean self a self' → Fits self' ∧ Within self a self') := by
  unfold Counted Fits at *
  cases a with
  | poll i =>
    simp only [step, Option.ite_none_left_eq_some] at hstep
    obtain ⟨-, hstep⟩ := hstep
    split at hstep <;> cases hstep <;> exact ⟨h, fun hfits _ ↦ ⟨hfits, trivial⟩⟩
  | take i =>
    simp only [step, Option.ite_none_left_eq_some] at hstep
    obtain ⟨-, hstep⟩ := hstep
    split at hstep
    · cases hstep
      split <;> simp [Within, h] <;> omega
    · cases hstep
      exact ⟨h, fun hfits _ ↦ ⟨hfits, fun _ ↦ by omega⟩⟩
  | cancel i =>
    simp only [step] at hstep
    split at hstep
    · cases hstep
      exact ⟨h, fun hfits _ ↦ ⟨hfits, trivial⟩⟩
    · simp only [Option.ite_none_right_eq_some, Option.some.injEq] at hstep
      obtain ⟨-, rfl⟩ := hstep
      simpa [Within] using ⟨h, fun h _ ↦ h⟩
  | release i latency outcome =>
    simp only [step, Option.ite_none_left_eq_some, not_not, Option.some.injEq] at hstep
    obtain ⟨hi, rfl⟩ := hstep
    have hpos := List.length_pos_of_mem hi
    have hlen := List.length_erase_of_mem hi
    split
    · next hlt =>
      simp [Within, Clean, h, hlen]
      omega
    · next hge =>
      simp [Within, Clean, h, hlen] at hge ⊢
      omega

/-- **Tokens are granted within the limit** as long as no release leaves permits at a limit that is
reached, and `inFlight` always counts them. -/
theorem acquire_within (update : ℕ → Sample → ℕ) (initialLimit : ℕ) (as : List (LimiterAction ι)) :
    Runs.EachStep (step update) (fun _ _ self' ↦ self'.inFlight = self'.tokens.length)
      (new initialLimit) as ∧
    (Runs.EachStep (step update) Clean (new initialLimit) as →
      Runs.EachStep (step update) Within (new initialLimit) as) := by
  have hnew : Counted (new initialLimit : DynamicLimiter ι) := rfl
  constructor
  · refine Runs.eachStep_of_inv (fun _ _ _ h _ hstep ↦ ?_) hnew fun _ _ ↦ trivial
    have h' := (step_spec h hstep).1
    exact ⟨h', h'⟩
  · refine Runs.EachStep.imp_inv (I := fun self ↦ Counted self ∧ Fits self)
      (fun _ _ _ h hclean hstep ↦ ?_) ⟨hnew, .inr le_rfl⟩
    obtain ⟨hcounted, hfits⟩ := step_spec h.1 hstep
    obtain ⟨hfits, hwithin⟩ := hfits h.2 hclean
    exact ⟨hwithin, hcounted, hfits⟩

/-- The limit is halved while a token is out, and the permits are counted again. -/
theorem acquire_within_sample : Runs.EachStep (step fun limit _ ↦ max 1 (limit / 2)) Within
    (new 4 : DynamicLimiter ℕ) [.poll 0, .take 0, .poll 1, .take 1,
      .release 0 5 (some .overload), .poll 2, .take 2] := by
  refine (acquire_within (fun limit _ ↦ max 1 (limit / 2)) 4 _).2 ?_
  iterate 4
    rintro _ ⟨⟩
    refine ⟨trivial, ?_⟩
  rintro _ ⟨⟩
  refine ⟨.inr (by decide), ?_⟩
  iterate 2
    rintro _ ⟨⟩
    refine ⟨trivial, ?_⟩
  trivial

/-- Of three permits one is left when the limit falls to the one token that is still out. -/
theorem take_over_limit :
    ([.poll 0, .take 0, .poll 1, .take 1, .release 0 5 (some .overload), .poll 2,
      .take 2].foldlM (step fun limit _ ↦ max 1 (limit / 2)) (new 3 : DynamicLimiter ℕ)).map
      (fun self ↦ (self.tokens, self.limit)) = some ([2, 1], 1) := by
  decide

end DynamicLimiter

end NeonStorage.Proxy
