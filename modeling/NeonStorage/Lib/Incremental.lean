import Mathlib.Data.List.Basic

/-!
# Incremental readers

An incremental reader is fed input in chunks. Each `poll` returns an item, or nothing if it needs
more input, or an error; after each chunk it is polled until it returns nothing. The reader is
*resumable* if input that comes later changes nothing about what it returned before, and a poll that
returned nothing may as well not have been made. A reader may leave different states behind when it
fails, depending on how much input it had, so results are compared up to the state after an error.

`Resumable.readChunks_eq` says that such a reader reads the same items from its input however the
input is cut into chunks.
-/

namespace NeonStorage.Incremental

universe u v w x

variable {S : Type u} {B : Type v} {E : Type w} {R : Type x}

/-- The results are the same to a caller that stops at the first error. -/
def SameResult (p q : Except E (Option R) × S) : Prop :=
  p.1 = q.1 ∧ ∀ r, p.1 = .ok r → p.2 = q.2

theorem SameResult.refl (p : Except E (Option R) × S) : SameResult p p := ⟨rfl, fun _ _ ↦ rfl⟩

theorem SameResult.trans {p q r : Except E (Option R) × S} (h₁ : SameResult p q)
    (h₂ : SameResult q r) : SameResult p r :=
  ⟨h₁.1.trans h₂.1, fun a ha ↦ (h₁.2 a ha).trans (h₂.2 a (h₁.1 ▸ ha))⟩

theorem SameResult.eq_of_ok {p : Except E (Option R) × S} {r : Option R} {s : S}
    (h : SameResult p (.ok r, s)) : p = (.ok r, s) := Prod.ext h.1 (h.2 r h.1)

variable (feed : S → List B → S) (poll : S → Except E (Option R) × S)

/-- What the result `p` of a poll says about the result `q` of a poll with the further input `b`. -/
def Continues (b : List B) (p q : Except E (Option R) × S) : Prop :=
  match p with
  | (.ok (some r), s) => q = (.ok (some r), feed s b)
  | (.ok none, s) => SameResult q (poll (feed s b))
  | (.error e, _) => q.1 = .error e

theorem Continues.congr {feed : S → List B → S} {poll : S → Except E (Option R) × S} {b : List B}
    {p q q' : Except E (Option R) × S} (h : Continues feed poll b p q) (hq : SameResult q' q) :
    Continues feed poll b p q' := by
  rcases p with ⟨_ | _ | r, s⟩
  · exact hq.1.trans h
  · exact hq.trans h
  · subst h
    exact hq.eq_of_ok

/-- Input that comes later does not change what was read before. -/
structure Resumable : Prop where
  feed_nil : ∀ s, feed s [] = s
  feed_append : ∀ s a b, feed (feed s a) b = feed s (a ++ b)
  continues : ∀ s b, Continues feed poll b (poll s) (poll (feed s b))

/-- Polling from `s` until nothing is returned, or an error: the items, the error and the state. -/
inductive Drains : S → List R → Option E → S → Prop
  | stop {s s' : S} (h : poll s = (.ok none, s')) : Drains s [] none s'
  | fail {s s' : S} {e : E} (h : poll s = (.error e, s')) : Drains s [] (some e) s'
  | next {s s' t : S} {r : R} {rs : List R} {o : Option E} (h : poll s = (.ok (some r), s'))
      (ht : Drains s' rs o t) : Drains s (r :: rs) o t

variable {feed poll} {s t u : S} {b : List B} {rs qs : List R} {o o' : Option E} {e : E}

theorem Drains.functional (h : Drains poll s rs o t) (h' : Drains poll s qs o' u) :
    rs = qs ∧ o = o' ∧ t = u := by
  induction h generalizing qs with
  | stop hs =>
    cases h' with
    | stop hs' | fail hs' | next hs' => simp_all
  | fail hs =>
    cases h' with
    | stop hs' | fail hs' | next hs' => simp_all
  | next hs _ ih =>
    cases h' with
    | stop hs' | fail hs' => simp_all
    | next hs' ht' =>
      cases hs.symm.trans hs'
      obtain ⟨rfl, rfl, rfl⟩ := ih ht'
      exact ⟨rfl, rfl, rfl⟩

theorem Drains.of_sameResult (h : Drains poll s rs o t) (hs : SameResult (poll u) (poll s)) :
    ∃ t', Drains poll u rs o t' ∧ (o = none → t' = t) := by
  cases h with
  | stop h =>
    rw [h] at hs
    exact ⟨_, .stop hs.eq_of_ok, fun _ ↦ rfl⟩
  | fail h =>
    rw [h] at hs
    exact ⟨(poll u).2, .fail (Prod.ext hs.1 rfl), by simp⟩
  | next h ht =>
    rw [h] at hs
    exact ⟨_, .next hs.eq_of_ok ht, fun _ ↦ rfl⟩

section

variable (hr : Resumable feed poll)
include hr

theorem Drains.feed_of_fail (h : Drains poll s rs (some e) t) (b : List B) :
    ∃ t', Drains poll (feed s b) rs (some e) t' := by
  generalize ho : some e = o at h
  induction h with
  | stop h => cases ho
  | @fail s s' e' h =>
    have hc := hr.continues s b
    rw [h] at hc
    exact ⟨(poll (feed s b)).2, .fail (Prod.ext hc rfl)⟩
  | @next s s' t r rs o h ht ih =>
    obtain ⟨t', ht'⟩ := ih ho
    have hc := hr.continues s b
    rw [h] at hc
    exact ⟨t', .next hc ht'⟩

theorem Drains.feed_append (h : Drains poll s rs none t) (h' : Drains poll (feed t b) qs o u) :
    ∃ u', Drains poll (feed s b) (rs ++ qs) o u' ∧ (o = none → u' = u) := by
  generalize ho : (none : Option E) = o₁ at h
  induction h with
  | @stop s s' h =>
    have hc := hr.continues s b
    rw [h] at hc
    exact h'.of_sameResult hc
  | fail h => cases ho
  | @next s s' t r rs o₁ h ht ih =>
    obtain ⟨u', hu', heq⟩ := ih h' ho
    have hc := hr.continues s b
    rw [h] at hc
    exact ⟨u', .next hc hu', heq⟩

end

/-- Feed the chunks one after the other and drain the reader after each; stop at an error. -/
def readChunks (feed : S → List B → S) (drain : S → List R × Option E × S) :
    S → List (List B) → List R × Option E
  | _, [] => ([], none)
  | s, c :: cs =>
    match drain (feed s c) with
    | (rs, some e, _) => (rs, some e)
    | (rs, none, t) => (rs ++ (readChunks feed drain t cs).1, (readChunks feed drain t cs).2)

section

variable {drain : S → List R × Option E × S} (hr : Resumable feed poll)
  (hdrain : ∀ s, Drains poll s (drain s).1 (drain s).2.1 (drain s).2.2)
include hr hdrain

theorem Resumable.readChunks_append {s t : S} {rs : List R} (h : Drains poll s rs none t)
    (cs : List (List B)) : (rs ++ (readChunks feed drain t cs).1, (readChunks feed drain t cs).2) =
      ((drain (feed s cs.flatten)).1, (drain (feed s cs.flatten)).2.1) := by
  induction cs generalizing s t rs with
  | nil =>
    have hd := hdrain s
    obtain ⟨h₁, h₂, -⟩ := h.functional hd
    rw [List.flatten_nil, hr.feed_nil, ← h₁, ← h₂, readChunks, List.append_nil]
  | cons c cs ih =>
    have hc := hdrain (feed t c)
    rw [List.flatten_cons, ← hr.feed_append]
    unfold readChunks
    rcases hd : drain (feed t c) with ⟨qs, _ | e, u⟩
    · -- nothing more in this chunk
      rw [hd] at hc
      obtain ⟨u', hu', heq⟩ := h.feed_append hr hc
      rw [heq rfl] at hu'
      rw [← ih hu', List.append_assoc]
    · rw [hd] at hc
      obtain ⟨u', hu', -⟩ := h.feed_append hr hc
      obtain ⟨u'', hu''⟩ := hu'.feed_of_fail hr cs.flatten
      obtain ⟨h₁, h₂, -⟩ := hu''.functional (hdrain _)
      rw [← h₁, ← h₂]

/-- **Reading does not depend on the chunks**, from a reader that has nothing to return yet. -/
theorem Resumable.readChunks_eq (hs : poll s = (.ok none, s)) (cs : List (List B)) :
    readChunks feed drain s cs =
      ((drain (feed s cs.flatten)).1, (drain (feed s cs.flatten)).2.1) := by
  rw [← hr.readChunks_append hdrain (.stop hs) cs, List.nil_append]

end

end NeonStorage.Incremental
