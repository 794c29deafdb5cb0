import Mathlib.Order.Lattice
import Mathlib.Data.List.Basic
import Mathlib.Algebra.GroupWithZero.Nat

/-!
# Merging sorted sources

A *source* gives its items in order. It is opened only when its lower bound is the least thing in
sight; until then only the bound is known. `drain` takes the least item of all sources again and
again, and fails if a source turns out not to be ordered. For ordered sources it gives all items, in
order (`drain_spec`).
-/

namespace NeonStorage.KMerge

open List
variable {α κ : Type} [LinearOrder κ]

structure Source (α κ : Type) where
  bound : κ
  opened : Bool
  items : List α

variable (key : α → κ)

namespace Source

/-- The least key the source may give next; `none` if it has run out. -/
def peek (s : Source α κ) : Option κ :=
  if s.opened then s.items.head?.map key else some s.bound

/-- The order in which sources are asked; those that have run out come last. -/
def le (s t : Source α κ) : Bool :=
  match s.peek key, t.peek key with
  | some a, some b => a ≤ b
  | some _, none => true
  | none, some _ => false
  | none, none => true

/-- What is left to do for a source: its items, to open it and to take it away. -/
def weight (s : Source α κ) : ℕ := s.items.length + 1 + if s.opened then 0 else 1

/-- The items are ordered, no neighbours are reported as `bad`, and the bound is one. -/
structure Ordered (key : α → κ) (bad : α → α → Bool) (s : Source α κ) : Prop where
  sorted : s.items.Pairwise fun a b ↦ key a ≤ key b
  good : s.items.Pairwise fun a b ↦ bad a b = false
  bound : ∀ a ∈ s.items, s.bound ≤ key a

end Source

open Source

def takeLeast (key : α → κ) : List (Source α κ) → Option (Source α κ × List (Source α κ))
  | [] => none
  | s :: rest =>
    match takeLeast key rest with
    | none => some (s, [])
    | some (t, others) => if s.le key t then some (s, rest) else some (t, s :: others)

/-- All items of the sources in order, or `none` if a source is not ordered. -/
def drain (key : α → κ) (bad : α → α → Bool) : ℕ → List (Source α κ) → Option (List α)
  | 0, _ => some []
  | n + 1, heap =>
    match takeLeast key heap with
    | none => some []
    | some (s, others) =>
      if !s.opened then
        if s.items.head?.any fun a ↦ key a < s.bound then none
        else drain key bad n ({ s with opened := true } :: others)
      else
        match s.items with
        | [] => drain key bad n others
        | a :: rest =>
          if rest.head?.any (bad a) then none
          else (drain key bad n ({ s with items := rest } :: others)).map (a :: ·)

def merge (bad : α → α → Bool) (heap : List (Source α κ)) : Option (List α) :=
  drain key bad (heap.map weight).sum heap

section Spec

variable {key : α → κ} {bad : α → α → Bool} {s t : Source α κ} {heap others : List (Source α κ)}

theorem takeLeast_eq_none : takeLeast key heap = none ↔ heap = [] := by
  cases heap with
  | nil => simp [takeLeast]
  | cons s rest =>
    simp only [takeLeast, reduceCtorEq, iff_false]
    split
    · simp
    · split <;> simp

theorem Source.le_trans {u : Source α κ} (h : s.le key t) (h' : t.le key u) : s.le key u := by
  unfold le at *
  revert h h'
  cases s.peek key <;> cases t.peek key <;> cases u.peek key <;>
    simp only [decide_eq_true_eq, Bool.false_eq_true, false_implies, implies_true]
  exact fun h h' ↦ h.trans h'

theorem Source.le_of_not_le (h : ¬s.le key t) : t.le key s := by
  unfold le at *
  revert h
  cases s.peek key <;> cases t.peek key <;>
    simp only [decide_eq_true_eq, not_true, not_false_eq_true, Bool.false_eq_true, false_implies,
      implies_true, not_le]
  exact fun h ↦ h.le

theorem takeLeast_spec (h : takeLeast key heap = some (s, others)) :
    heap.Perm (s :: others) ∧ ∀ t ∈ others, s.le key t := by
  induction heap generalizing s others with
  | nil => simp [takeLeast] at h
  | cons u rest ih =>
    rw [takeLeast] at h
    split at h
    · rename_i hnone
      cases h
      rw [takeLeast_eq_none.mp hnone]
      exact ⟨.refl _, by simp⟩
    · rename_i t others' hrest
      obtain ⟨hperm, hle⟩ := ih hrest
      split at h
      · rename_i hut
        cases h
        refine ⟨.refl _, fun v hv ↦ ?_⟩
        rcases mem_cons.mp (hperm.mem_iff.mp hv) with rfl | hv
        · exact hut
        · exact le_trans hut (hle v hv)
      · rename_i hut
        cases h
        refine ⟨(hperm.cons u).trans (.swap _ _ _), fun v hv ↦ ?_⟩
        rcases mem_cons.mp hv with rfl | hv
        · exact le_of_not_le hut
        · exact hle v hv

/-- Nothing a source may still give is below what it shows. -/
theorem Source.Ordered.le_items (ht : t.Ordered key bad) (hle : s.le key t) {k : κ}
    (hk : s.peek key = some k) {a : α} (ha : a ∈ t.items) : k ≤ key a := by
  have hne : t.items.head? ≠ none := by
    rw [Ne, List.head?_eq_none_iff]
    rintro h
    simp [h] at ha
  obtain ⟨b, hb⟩ := Option.ne_none_iff_exists'.mp hne
  have hba : key b ≤ key a := by
    obtain ⟨rest, hrest⟩ := List.head?_eq_some_iff.mp hb
    rw [hrest] at ha
    rcases mem_cons.mp ha with rfl | ha
    · exact le_rfl
    · exact (pairwise_cons.mp (hrest ▸ ht.sorted)).1 a ha
  unfold le at hle
  rw [hk] at hle
  by_cases ho : t.opened
  · have hpeek : t.peek key = some (key b) := by simp [peek, ho, hb]
    rw [hpeek] at hle
    exact (of_decide_eq_true hle).trans hba
  · have hpeek : t.peek key = some t.bound := by simp [peek, ho]
    rw [hpeek] at hle
    exact (of_decide_eq_true hle).trans (ht.bound a ha)

theorem Source.Ordered.open (hs : s.Ordered key bad) :
    ({ s with opened := true } : Source α κ).Ordered key bad := ⟨hs.sorted, hs.good, hs.bound⟩

theorem Source.Ordered.tail {a : α} {rest : List α} (hs : s.Ordered key bad)
    (hitems : s.items = a :: rest) : ({ s with items := rest } : Source α κ).Ordered key bad where
  sorted := (pairwise_cons.mp (hitems ▸ hs.sorted)).2
  good := (pairwise_cons.mp (hitems ▸ hs.good)).2
  bound b hb := hs.bound b (hitems ▸ mem_cons_of_mem _ hb)

/-- **Ordered sources are merged.** The induction is on the work that is left. -/
theorem drain_spec (heap : List (Source α κ)) {n : ℕ} (hheap : ∀ s ∈ heap, s.Ordered key bad)
    (hn : (heap.map weight).sum ≤ n) :
    ∃ out, drain key bad n heap = some out ∧ out.Perm (heap.flatMap items) ∧
      out.Pairwise fun a b ↦ key a ≤ key b := by
  induction n generalizing heap with
  | zero =>
    cases heap with
    | nil => exact ⟨[], rfl, by simp, .nil⟩
    | cons s rest => simp [weight] at hn
  | succ n ih =>
    rcases hleast : takeLeast key heap with - | ⟨s, others⟩
    · rw [takeLeast_eq_none.mp hleast]
      exact ⟨[], rfl, by simp, .nil⟩
    obtain ⟨hperm, hle⟩ := takeLeast_spec hleast
    have hs : s.Ordered key bad := hheap s (hperm.mem_iff.mpr mem_cons_self)
    have hothers : ∀ t ∈ others, t.Ordered key bad := fun t ht ↦
      hheap t (hperm.mem_iff.mpr (mem_cons_of_mem _ ht))
    have hwork : s.weight + (others.map weight).sum ≤ n + 1 := by
      have hsum := (hperm.map weight).sum_nat
      rw [map_cons, sum_cons] at hsum
      omega
    have hitems : (heap.flatMap items).Perm (s.items ++ others.flatMap items) := by
      simpa using hperm.flatMap_right items
    rw [drain, hleast]
    by_cases ho : s.opened
    · simp only [ho, Bool.not_true, Bool.false_eq_true, if_false]
      cases hsi : s.items with
      | nil =>
        obtain ⟨out, hout, hp, hsorted⟩ :=
          ih others hothers (by simp [weight, ho, hsi] at hwork; omega)
        exact ⟨out, hout, hp.trans (by simpa [hsi] using hitems.symm), hsorted⟩
      | cons a rest =>
        have hok : rest.head?.any (bad a) = false := by
          cases rest with
          | nil => rfl
          | cons b _ =>
            simpa using (pairwise_cons.mp (hsi ▸ hs.good)).1 b mem_cons_self
        obtain ⟨out, hout, hp, hsorted⟩ := ih ({ s with items := rest } :: others)
          (by
            intro t ht
            rcases mem_cons.mp ht with rfl | ht
            · exact hs.tail hsi
            · exact hothers t ht)
          (by simp [weight, ho, hsi] at hwork ⊢; omega)
        refine ⟨a :: out, by simp [hok, ho ▸ hout], ?_, pairwise_cons.mpr ⟨fun b hb ↦ ?_, hsorted⟩⟩
        · rw [hsi] at hitems
          exact ((hp.cons a).trans (by simp)).trans hitems.symm
        · -- what comes later was behind `a` in the same source, or in a source that was not less
          have hb := hp.mem_iff.mp hb
          rw [flatMap_cons, mem_append, mem_flatMap] at hb
          rcases hb with hb | ⟨t, ht, hbt⟩
          · exact (pairwise_cons.mp (hsi ▸ hs.sorted)).1 b hb
          · exact (hothers t ht).le_items (hle t ht) (by simp [peek, ho, hsi]) hbt
    · have hfirst : (s.items.head?.any fun a ↦ key a < s.bound) = false := by
        cases hsi : s.items with
        | nil => rfl
        | cons a _ => simpa [hsi] using hs.bound a (by simp [hsi])
      obtain ⟨out, hout, hp, hsorted⟩ := ih ({ s with opened := true } :: others)
        (by
          intro t ht
          rcases mem_cons.mp ht with rfl | ht
          · exact hs.open
          · exact hothers t ht)
        (by simp [weight, ho] at hwork ⊢; omega)
      refine ⟨out, by simp [ho, hfirst, hout], hp.trans ?_, hsorted⟩
      simpa using hitems.symm

theorem merge_spec (heap : List (Source α κ)) (hheap : ∀ s ∈ heap, s.Ordered key bad) :
    ∃ out, merge key bad heap = some out ∧ out.Perm (heap.flatMap items) ∧
      out.Pairwise fun a b ↦ key a ≤ key b := drain_spec heap hheap le_rfl

end Spec

end NeonStorage.KMerge
