import Mathlib.Logic.Basic
import Mathlib.Tactic.SplitIfs

/-!
# Programs over an interface

A program calls operations and goes on with what they return, or stops with an error. What the
operations do is said by a handler, which executes a program on a state; an error does not roll the
state back.

Because a program is a tree, statements about all programs go by induction on it. `Calls` bounds the
operations that a program can call.
-/

namespace NeonStorage

/-- A program that calls operations `o : Op`, each of which returns a `Res o`. -/
inductive Prog {Op : Type} (Res : Op → Type) (ε α : Type) : Type where
  | ret (a : α)
  | fail (e : ε)
  | call (o : Op) (next : Res o → Prog Res ε α)

namespace Prog

variable {Op : Type} {Res : Op → Type} {ε α β σ : Type}

def bind : Prog Res ε α → (α → Prog Res ε β) → Prog Res ε β
  | ret a, f => f a
  | fail e, _ => fail e
  | call o next, f => call o fun r ↦ (next r).bind f

instance : Monad (Prog Res ε) where
  pure := ret
  bind := bind

instance : MonadExceptOf ε (Prog Res ε) where
  throw := fail
  tryCatch := go
where
  go {α : Type} : Prog Res ε α → (ε → Prog Res ε α) → Prog Res ε α
    | ret a, _ => ret a
    | fail e, handler => handler e
    | call o next, handler => call o fun r ↦ go (next r) handler

def perform (o : Op) : Prog Res ε (Res o) := call o ret

/-- Run a program to its end and return its error as a value. -/
def attempt : Prog Res ε α → Prog Res ε (Except ε α)
  | ret a => ret (.ok a)
  | fail e => ret (.error e)
  | call o next => call o fun r ↦ (next r).attempt

def each : List α → (α → Prog Res ε Unit) → Prog Res ε Unit
  | [], _ => ret ()
  | a :: as, f => (f a).bind fun _ ↦ each as f

def when (c : Prop) [Decidable c] (p : Prog Res ε Unit) : Prog Res ε Unit :=
  if c then p else ret ()

/-- Execute a program: the outcome and the state that it leaves. -/
def exec (handle : (o : Op) → σ → Res o × σ) : Prog Res ε α → σ → Except ε α × σ
  | ret a, s => (.ok a, s)
  | fail e, s => (.error e, s)
  | call o next, s => exec handle (next (handle o s).1) (handle o s).2

section Exec

variable {handle : (o : Op) → σ → Res o × σ} {p : Prog Res ε α} {s s' : σ}

theorem exec_bind (p : Prog Res ε α) (f : α → Prog Res ε β) (s : σ) : exec handle (p >>= f) s =
      match exec handle p s with
      | (.ok a, s') => exec handle (f a) s'
      | (.error e, s') => (.error e, s') := by
  induction p generalizing s with
  | ret a => rfl
  | fail e => rfl
  | call o next ih => exact ih _ _

theorem exec_attempt (p : Prog Res ε α) (s : σ) :
    exec handle p.attempt s = (.ok (exec handle p s).1, (exec handle p s).2) := by
  induction p generalizing s with
  | ret a => rfl
  | fail e => rfl
  | call o next ih => exact ih _ _

end Exec

/-! ## Pre- and postconditions -/

/-- `Q` holds of the outcome of the program and the state that it leaves. -/
def wp (handle : (o : Op) → σ → Res o × σ) (p : Prog Res ε α) (Q : Except ε α → σ → Prop) (s : σ) :
    Prop :=
  Q (exec handle p s).1 (exec handle p s).2

variable (Q : α → σ → Prop)

/-- A postcondition for the case that there is no error. -/
def onOk : Except ε α → σ → Prop
  | .ok a, s => Q a s
  | .error _, _ => True

@[simp] theorem onOk_ok (a : α) (s : σ) : onOk Q (.ok a : Except ε α) s ↔ Q a s := .rfl


variable {f : α → Prog Res ε Unit} {as : List α}

section Wp

variable {handle : (o : Op) → σ → Res o × σ} {p : Prog Res ε α} {s s' : σ}
  {Q Q' : Except ε α → σ → Prop}

theorem wp_bind (f : α → Prog Res ε β) (Q : Except ε β → σ → Prop) :
    wp handle (p >>= f) Q s ↔ wp handle p (fun r s' ↦
      match r with
      | .ok a => wp handle (f a) Q s'
      | .error e => Q (.error e) s') s := by
  rw [wp, wp, exec_bind]
  rcases exec handle p s with ⟨e | a, s'⟩ <;> rfl

theorem wp_mono (h : wp handle p Q s) (hQ : ∀ r s', Q r s' → Q' r s') : wp handle p Q' s := hQ _ _ h

theorem wp_bind_onOk {f : α → Prog Res ε β} {Q : β → σ → Prop}
    (h : wp handle p (onOk fun a s' ↦ wp handle (f a) (onOk Q) s') s) :
    wp handle (p >>= f) (onOk Q) s := by
  rw [wp_bind]
  refine wp_mono h ?_
  rintro (e | a) s' h'
  · trivial
  · exact h'

theorem wp_onOk_mono {Q Q' : α → σ → Prop} (h : wp handle p (onOk Q) s)
    (hQ : ∀ a s', Q a s' → Q' a s') : wp handle p (onOk Q') s := by
  refine wp_mono h ?_
  rintro (e | a) s' h'
  · trivial
  · exact hQ a s' h'

theorem wp_attempt (Q : Except ε (Except ε α) → σ → Prop) :
    wp handle p.attempt Q s ↔ wp handle p (fun r s' ↦ Q (.ok r) s') s := by
  rw [wp, wp, exec_attempt]

variable {Q : Except ε Unit → σ → Prop}

theorem wp_when {c : Prop} [Decidable c] {p : Prog Res ε Unit} :
    wp handle (when c p) Q s ↔ (c → wp handle p Q s) ∧ (¬c → Q (.ok ()) s) := by
  unfold when
  split_ifs with h
  · simp [h]
  · simp only [h, false_imp_iff, not_false_eq_true, true_imp_iff, true_and]
    rfl

theorem wp_ok {Q : α → σ → Prop} (h : wp handle p (onOk Q) s) {a : α}
    (hexec : exec handle p s = (.ok a, s')) : Q a s' := by
  rwa [wp, hexec] at h

variable {I : List α → σ → Prop}

/-- The rule for a loop: the invariant speaks of the elements that are left. -/
theorem wp_each (hstep : ∀ a as s, I (a :: as) s →
      wp handle (f a) (fun r s' ↦ match r with | .ok _ => I as s' | .error e => Q (.error e) s') s)
    (hdone : ∀ s, I [] s → Q (.ok ()) s) (h : I as s) : wp handle (each as f) Q s := by
  induction as generalizing s with
  | nil => exact hdone s h
  | cons a as ih =>
    refine (wp_bind (fun _ ↦ each as f) Q).mpr (wp_mono (hstep a as s h) ?_)
    rintro (e | u) s' hs'
    · exact hs'
    · exact ih hs'

theorem wp_each_onOk {Q : Unit → σ → Prop}
    (hstep : ∀ a as s, I (a :: as) s → wp handle (f a) (onOk fun _ s' ↦ I as s') s)
    (hdone : ∀ s, I [] s → Q () s) (h : I as s) : wp handle (each as f) (onOk Q) s := by
  refine wp_each (fun a as s hI ↦ wp_mono (hstep a as s hI) ?_) hdone h
  rintro (e | u) s' hs'
  · trivial
  · exact hs'

end Wp

/-! ## The operations of a program -/

/-- All operations that the program can call satisfy `P`, as long as what they return satisfies
`V`. -/
def Calls (P : Op → Prop) (V : (o : Op) → Res o → Prop) : Prog Res ε α → Prop
  | ret _ => True
  | fail _ => True
  | call o next => P o ∧ ∀ r, V o r → Calls P V (next r)

section Calls

variable {P : Op → Prop} {V : (o : Op) → Res o → Prop} {p : Prog Res ε α}

@[simp] theorem calls_pure (a : α) : Calls P V (pure a : Prog Res ε α) := trivial

theorem calls_perform {o : Op} (h : P o) : Calls P V (perform o : Prog Res ε (Res o)) :=
  ⟨h, fun _ _ ↦ trivial⟩

theorem Calls.bind {f : α → Prog Res ε β} (h : Calls P V p) (hf : ∀ a, Calls P V (f a)) :
    Calls P V (p >>= f) := by
  induction p with
  | ret a => exact hf a
  | fail e => trivial
  | call o next ih => exact ⟨h.1, fun r hr ↦ ih r (h.2 r hr)⟩

theorem Calls.mono {P' : Op → Prop} (h : Calls P V p) (hP : ∀ o, P o → P' o) : Calls P' V p := by
  induction p with
  | ret a => trivial
  | fail e => trivial
  | call o next ih => exact ⟨hP o h.1, fun r hr ↦ ih r (h.2 r hr)⟩

theorem Calls.attempt (h : Calls P V p) : Calls P V p.attempt := by
  induction p with
  | ret a => trivial
  | fail e => trivial
  | call o next ih => exact ⟨h.1, fun r hr ↦ ih r (h.2 r hr)⟩

theorem Calls.each (h : ∀ a ∈ as, Calls P V (f a)) : Calls P V (Prog.each as f) := by
  induction as with
  | nil => trivial
  | cons a as ih =>
    exact (h a List.mem_cons_self).bind fun _ ↦ ih fun b hb ↦ h b (List.mem_cons_of_mem _ hb)

theorem Calls.when {c : Prop} [Decidable c] {p : Prog Res ε Unit} (h : c → Calls P V p) :
    Calls P V (Prog.when c p) := by
  unfold Prog.when
  split_ifs with hc
  · exact h hc
  · trivial

/-- What the operations preserve, a program preserves that calls no others. -/
theorem exec_of_calls {handle : (o : Op) → σ → Res o × σ} {I : σ → Prop} (hp : Calls P V p)
    (h : ∀ o, P o → ∀ s, I s → V o (handle o s).1 ∧ I (handle o s).2) {s : σ} (hI : I s) :
    I (exec handle p s).2 := by
  induction p generalizing s with
  | ret a => exact hI
  | fail e => exact hI
  | call o next ih =>
    obtain ⟨hV, hI'⟩ := h o hp.1 s hI
    exact ih _ (hp.2 _ hV) hI'

end Calls

end Prog

end NeonStorage
