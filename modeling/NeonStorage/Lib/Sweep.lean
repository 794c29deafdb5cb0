import Mathlib.Data.List.Sort

/-!
# Sweeping over sorted events

A sweep sorts its events and goes through them once. The sort is stable, so events with equal keys
stay in the order in which they were given. Elements whose verdict is not known yet are put off
until an event settles them; what is still open at the end gets a default verdict.
-/

namespace NeonStorage.Sweep

open List Option
variable {α β ι : Type}

/-! ### Stable sorting -/

section Stable

variable {r q : α → α → Prop} [DecidableRel r] [Std.Total r] [IsTrans α r] {a : α} {l : List α}

theorem stable_orderedInsert (hl : l.Pairwise fun a b ↦ r a b ∧ (r b a → q a b))
    (ha : ∀ b ∈ l, q a b) : (l.orderedInsert r a).Pairwise fun a b ↦ r a b ∧ (r b a → q a b) := by
  induction l with
  | nil => exact pairwise_singleton _ _
  | cons b l ih =>
    obtain ⟨hb, hl'⟩ := pairwise_cons.mp hl
    obtain ⟨hab, ha'⟩ := forall_mem_cons.mp ha
    rw [orderedInsert_cons]
    split_ifs with h
    · refine pairwise_cons.mpr ⟨forall_mem_cons.mpr ⟨⟨h, fun _ ↦ hab⟩, fun c hc ↦ ?_⟩, hl⟩
      exact ⟨trans_of r h (hb c hc).1, fun _ ↦ ha' c hc⟩
    · refine pairwise_cons.mpr ⟨fun c hc ↦ ?_, ih hl' ha'⟩
      rcases (mem_orderedInsert r).mp hc with rfl | hc
      · exact ⟨(Std.Total.total c b).resolve_left h, fun h' ↦ absurd h' h⟩
      · exact hb c hc

/-- **Sorting keeps the given order of elements that the sort does not tell apart.** -/
theorem stable_insertionSort (hl : l.Pairwise q) :
    (l.insertionSort r).Pairwise fun a b ↦ r a b ∧ (r b a → q a b) := by
  induction l with
  | nil => exact .nil
  | cons a l ih =>
    obtain ⟨ha, hl⟩ := pairwise_cons.mp hl
    exact stable_orderedInsert (ih hl) fun b hb ↦ ha b ((mem_insertionSort r).mp hb)

end Stable

/-! ### Verdicts that are put off -/

variable (settle : ι → α → Option β) (default : β)

/-- The verdict of the first event that settles the element. -/
def verdict (a : α) : List ι → β
  | [] => default
  | i :: is => (settle i a).getD (verdict a is)

variable {settle default}

/-- One event settles some of the open elements, and the others stay open. -/
theorem verdict_perm (i : ι) (is : List ι) (l : List α) :
    (l.map fun a ↦ (a, verdict settle default a (i :: is))).Perm
      ((l.filterMap fun a ↦ (settle i a).map fun b ↦ (a, b)) ++
        (l.filter fun a ↦ (settle i a).isNone).map fun a ↦ (a, verdict settle default a is)) := by
  induction l with
  | nil => exact .refl _
  | cons a l ih =>
    cases h : settle i a with
    | none =>
      simp only [map_cons, filterMap_cons, filter_cons, h, verdict, map_none,
        isNone_none, if_true, getD_none]
      exact (ih.cons _).trans perm_middle.symm
    | some b =>
      simp only [map_cons, filterMap_cons, filter_cons, h, verdict, map_some,
        isNone_some, getD_some, Bool.false_eq_true, if_false, cons_append]
      exact ih.cons _

theorem verdict_of_settle {a : α} {b : β} {i : ι} {is : List ι} (js : List ι)
    (h : ∀ j ∈ is, ∀ b', settle j a = some b' → b' = b) (hi : settle i a = some b) :
    verdict settle default a (is ++ i :: js) = b := by
  induction is with
  | nil => rw [nil_append, verdict, hi, getD_some]
  | cons j is ih =>
    obtain ⟨hj, his⟩ := forall_mem_cons.mp h
    rw [cons_append, verdict, ih his]
    cases hs : settle j a with
    | none => rfl
    | some b' => exact hj b' hs

theorem verdict_cases (settle : ι → α → Option β) (default : β) (a : α) (is : List ι) :
    (verdict settle default a is = default ∧ ∀ i ∈ is, settle i a = none) ∨
      ∃ before i after, is = before ++ i :: after ∧ (∀ j ∈ before, settle j a = none) ∧
        settle i a = some (verdict settle default a is) := by
  induction is with
  | nil => exact .inl ⟨rfl, by simp⟩
  | cons i is ih =>
    cases h : settle i a with
    | some b => exact .inr ⟨[], i, is, rfl, by simp, by rw [verdict, h]; rfl⟩
    | none =>
      rw [verdict, h]
      rcases ih with ⟨hv, hnone⟩ | ⟨before, j, after, rfl, hnone, hj⟩
      · exact .inl ⟨hv, forall_mem_cons.mpr ⟨h, hnone⟩⟩
      · exact .inr ⟨i :: before, j, after, rfl, forall_mem_cons.mpr ⟨h, hnone⟩, hj⟩

end NeonStorage.Sweep
