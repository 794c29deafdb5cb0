import Mathlib.Logic.Basic

/-!
# Runs of a system whose steps can fail

A step has no successor if it fails, and a run goes as far as its steps succeed. If a step from a
good state leads to a good one exactly if it is clean, then a run stays in good states exactly if
all its steps are clean (`throughout_iff_eachStep`).
-/

namespace NeonStorage.Runs

variable {σ α : Type} (step : σ → α → Option σ)

/-- All states that the run comes through are good. -/
def Throughout (Good : σ → Prop) : σ → List α → Prop
  | s, [] => Good s
  | s, a :: as => Good s ∧ ∀ s', step s a = some s' → Throughout Good s' as

/-- All steps that the run takes are clean. -/
def EachStep (Clean : σ → α → σ → Prop) : σ → List α → Prop
  | _, [] => True
  | s, a :: as => ∀ s', step s a = some s' → Clean s a s' ∧ EachStep Clean s' as

variable {step} {I Good : σ → Prop} {Clean : σ → α → σ → Prop} {s : σ} {as : List α}

theorem Throughout.head (h : Throughout step Good s as) : Good s := by
  cases as with
  | nil => exact h
  | cons a as => exact h.1

theorem Throughout.last {s' : σ} (h : Throughout step Good s as)
    (hrun : as.foldlM step s = some s') : Good s' := by
  induction as generalizing s with
  | nil =>
    cases hrun
    exact h
  | cons a as ih =>
    obtain ⟨s₁, hs₁, hrun⟩ := Option.bind_eq_some_iff.mp hrun
    exact ih (h.2 s₁ hs₁) hrun

theorem inv_foldlM {P : α → Prop} {s' : σ}
    (hstep : ∀ s a s', I s → P a → step s a = some s' → I s') (hI : I s) (hP : ∀ a ∈ as, P a)
    (hrun : as.foldlM step s = some s') : I s' := by
  induction as generalizing s with
  | nil =>
    cases hrun
    exact hI
  | cons a as ih =>
    obtain ⟨s₁, hs₁, hrun⟩ := Option.bind_eq_some_iff.mp hrun
    obtain ⟨ha, has⟩ := List.forall_mem_cons.mp hP
    exact ih (hstep s a s₁ hI ha hs₁) has hrun

theorem throughout_iff_eachStep
    (hstep : ∀ s a s', I s → Good s → step s a = some s' → I s' ∧ (Good s' ↔ Clean s a s'))
    (hI : I s) (hGood : Good s) : Throughout step Good s as ↔ EachStep step Clean s as := by
  induction as generalizing s with
  | nil => exact iff_of_true hGood trivial
  | cons a as ih =>
    rw [Throughout, and_iff_right hGood]
    refine forall_congr' fun s' ↦ forall_congr' fun hs' ↦ ?_
    obtain ⟨hI', hiff⟩ := hstep s a s' hI hGood hs'
    constructor
    · intro h
      exact ⟨hiff.mp h.head, (ih hI' h.head).mp h⟩
    · rintro ⟨hclean, h⟩
      exact (ih hI' (hiff.mpr hclean)).mpr h

/-- If the actions of a run are such that an invariant is kept and makes the next step clean, all
its steps are clean. -/
theorem eachStep_of_inv {P : α → Prop}
    (hstep : ∀ s a s', I s → P a → step s a = some s' → Clean s a s' ∧ I s') (hI : I s)
    (hP : ∀ a ∈ as, P a) : EachStep step Clean s as := by
  induction as generalizing s with
  | nil => trivial
  | cons a as ih =>
    intro s' hs'
    obtain ⟨hclean, hI'⟩ := hstep s a s' hI (hP a List.mem_cons_self) hs'
    exact ⟨hclean, ih hI' fun b hb ↦ hP b (List.mem_cons_of_mem a hb)⟩

theorem EachStep.imp_inv {Clean' : σ → α → σ → Prop}
    (hstep : ∀ s a s', I s → Clean s a s' → step s a = some s' → Clean' s a s' ∧ I s') (hI : I s)
    (h : EachStep step Clean s as) : EachStep step Clean' s as := by
  induction as generalizing s with
  | nil => trivial
  | cons a as ih =>
    intro s' hs'
    obtain ⟨hclean, hI'⟩ := hstep s a s' hI (h s' hs').1 hs'
    exact ⟨hclean, ih hI' (h s' hs').2⟩

end NeonStorage.Runs
