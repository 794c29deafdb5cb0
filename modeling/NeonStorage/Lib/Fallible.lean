import Mathlib.Logic.Relation

/-!
# Fallible stateful computations

A computation of type `Fallible ε σ α` reads and writes a state `σ` and either returns a value
or stops with an error; an error does **not** roll the state back, exactly as a method with a
mutable receiver that returns early. `wp m Q E s` is the weakest precondition of such a
computation: `Q` speaks about a normal return, `E` about an early one, and both see the state
that was left behind.

The rules are stated so that `simp` executes a computation symbolically, one primitive at a
time; a caller of a function with its own specification uses `wp_mono` (or `wp_bind_mono`) and
never unfolds the callee.

The second half packages the induction over a run once: what one step preserves, every run
preserves.
-/

namespace NeonStorage

/-- A computation over the state `σ` that may stop early with an error and keeps the state it
had reached. -/
abbrev Fallible (ε σ : Type) := ExceptT ε (StateM σ)

namespace Fallible

variable {ε σ α β : Type} (m : Fallible ε σ α)

def exec (s : σ) : Except ε α × σ := m s

/-- Weakest precondition with one postcondition for each way of returning. -/
def wp (Q : α → σ → Prop) (E : ε → σ → Prop) (s : σ) : Prop :=
  match exec m s with
  | (.ok a, s') => Q a s'
  | (.error e, s') => E e s'

/-! ## Symbolic execution -/

variable (Q : α → σ → Prop) (E : ε → σ → Prop) (s : σ)

@[simp] theorem wp_pure (a : α) : wp (pure a : Fallible ε σ α) Q E s ↔ Q a s := .rfl

@[simp] theorem wp_throw (e : ε) : wp (throw e : Fallible ε σ α) Q E s ↔ E e s := .rfl

@[simp] theorem wp_get (Q : σ → σ → Prop) : wp (get : Fallible ε σ σ) Q E s ↔ Q s s := .rfl

@[simp] theorem wp_set (t : σ) (Q : PUnit → σ → Prop) :
    wp (set t : Fallible ε σ PUnit) Q E s ↔ Q ⟨⟩ t := .rfl

@[simp] theorem wp_modify (f : σ → σ) (Q : PUnit → σ → Prop) :
    wp (modify f : Fallible ε σ PUnit) Q E s ↔ Q ⟨⟩ (f s) := .rfl

@[simp] theorem wp_bind (f : α → Fallible ε σ β) (Q : β → σ → Prop) :
    wp (m >>= f) Q E s ↔ wp m (fun a s' ↦ wp (f a) Q E s') E s := by
  have hrun : exec (m >>= f) s = match exec m s with
      | (.ok a, s') => exec (f a) s'
      | (.error e, s') => (.error e, s') := by
    simp only [ExceptT.bind, ExceptT.mk, bind, StateT.bind, exec]
    rcases m s with ⟨a | e, s'⟩ <;> rfl
  unfold wp
  rw [hrun]
  rcases exec m s with ⟨a | e, s'⟩ <;> rfl

variable {p : Prop}

@[simp] theorem wp_ite [Decidable p] (n : Fallible ε σ α) :
    wp (if p then m else n) Q E s ↔ (p → wp m Q E s) ∧ (¬p → wp n Q E s) := by
  by_cases h : p <;> simp [h]

theorem wp_map (f : α → β) (Q : β → σ → Prop) :
    wp (f <$> m) Q E s ↔ wp m (fun a s' ↦ Q (f a) s') E s := by
  rw [← bind_pure_comp, wp_bind]
  simp only [wp_pure]

/-! ## Parts of the state, and outcomes computed elsewhere -/

/-- Run a computation on the part `get s` of a larger state; `put` writes the part back, also
after an error. -/
def zoom {τ : Type} (get : σ → τ) (put : τ → σ → σ) (m : Fallible ε τ α) : Fallible ε σ α :=
  fun s ↦ ((exec m (get s)).1, put (exec m (get s)).2 s)

@[simp] theorem wp_zoom {τ : Type} (get : σ → τ) (put : τ → σ → σ) (m : Fallible ε τ α) :
    wp (zoom get put m) Q E s ↔
      wp m (fun a t ↦ Q a (put t s)) (fun e t ↦ E e (put t s)) (get s) := by
  unfold wp
  change (match ((exec m (get s)).1, put (exec m (get s)).2 s) with
    | (.ok a, s') => Q a s'
    | (.error e, s') => E e s') ↔ _
  rcases exec m (get s) with ⟨e | a, t⟩ <;> rfl

/-- Stop with an error under a condition. -/
def refuseIf (p : Prop) [Decidable p] (e : ε) : Fallible ε σ Unit :=
  if p then throw e else pure ()

@[simp] theorem wp_refuseIf [Decidable p] (e : ε) (Q : Unit → σ → Prop) :
    wp (refuseIf p e) Q E s ↔ (p → E e s) ∧ (¬p → Q () s) := by
  unfold refuseIf
  rw [wp_ite, wp_throw, wp_pure]

def doIf (p : Prop) [Decidable p] (m : Fallible ε σ Unit) : Fallible ε σ Unit :=
  if p then m else pure ()

@[simp] theorem wp_doIf [Decidable p] (m : Fallible ε σ Unit) (Q : Unit → σ → Prop) :
    wp (doIf p m) Q E s ↔ (p → wp m Q E s) ∧ (¬p → Q () s) := by
  unfold doIf
  rw [wp_ite, wp_pure]

def orThrow (x : Except ε α) : Fallible ε σ α :=
  match x with
  | .ok a => pure a
  | .error e => throw e

@[simp] theorem wp_orThrow (x : Except ε α) :
    wp (orThrow x) Q E s ↔ (∀ a, x = .ok a → Q a s) ∧ ∀ e, x = .error e → E e s := by
  cases x <;> simp [orThrow]

def someOr (x : Option α) (e : ε) : Fallible ε σ α :=
  match x with
  | some a => pure a
  | none => throw e

@[simp] theorem wp_someOr (x : Option α) (e : ε) :
    wp (someOr x e) Q E s ↔ (∀ a, x = some a → Q a s) ∧ (x = none → E e s) := by
  cases x <;> simp [someOr]

/-! ## Using a specification -/

variable {m Q E s} {s' : σ}

theorem wp_mono {Q' : α → σ → Prop} {E' : ε → σ → Prop} (h : wp m Q E s)
    (hQ : ∀ a s', Q a s' → Q' a s') (hE : ∀ e s', E e s' → E' e s') : wp m Q' E' s := by
  unfold wp at h ⊢
  rcases hr : exec m s with ⟨e | a, s'⟩ <;> rw [hr] at h
  · exact hE _ _ h
  · exact hQ _ _ h

/-- A specification whose two postconditions do not look at the outcome speaks about the state
the computation leaves. -/
theorem wp_state {P : σ → Prop} (h : wp m (fun _ s' ↦ P s') (fun _ s' ↦ P s') s) :
    P (exec m s).2 := by
  unfold wp at h
  rcases hr : exec m s with ⟨e | a, s'⟩ <;> rw [hr] at h <;> exact h

theorem wp_ok {a : α} (h : wp m Q E s) (hr : exec m s = (.ok a, s')) : Q a s' := by
  unfold wp at h
  rwa [hr] at h

theorem wp_error {e : ε} (h : wp m Q E s) (hr : exec m s = (.error e, s')) : E e s' := by
  unfold wp at h
  rwa [hr] at h

end Fallible

/-! ## Runs -/

section Runs

variable {σ : Type} {Step : σ → σ → Prop} {I : σ → Prop}

/-- **Run lemma**: what every step preserves holds in every state a run reaches. -/
theorem run_induction (hstep : ∀ s s', I s → Step s s' → I s') {s s' : σ} (hI : I s)
    (hrun : Relation.ReflTransGen Step s s') : I s' := by
  induction hrun with
  | refl => exact hI
  | tail _ hlast ih => exact hstep _ _ ih hlast

/-- A reflexive and transitive relation that holds across every step from a state with the
invariant holds between the two ends of every run. -/
theorem run_relation {R : σ → σ → Prop} (hrefl : ∀ s, R s s)
    (htrans : ∀ a b c, R a b → R b c → R a c)
    (hstep : ∀ s s', I s → Step s s' → I s' ∧ R s s') {s s' : σ} (hI : I s)
    (hrun : Relation.ReflTransGen Step s s') : R s s' := by
  suffices h : I s' ∧ R s s' from h.2
  induction hrun with
  | refl => exact ⟨hI, hrefl s⟩
  | tail _ hlast ih =>
    obtain ⟨hI', hR⟩ := hstep _ _ ih.1 hlast
    exact ⟨hI', htrans _ _ _ ih.2 hR⟩

end Runs

end NeonStorage
