import Mathlib.Data.List.Pairwise
import Mathlib.Tactic.SplitIfs
import NeonStorage.Lib.Snoc

/-!
# Versions of a value

The versions of one value, the oldest first, each with the position at which it was written. A
reader at a position sees the last version that is not behind it. A write at the position of the
last version takes its place.
-/

namespace NeonStorage.Versions

open List
variable {α β : Type*}

variable (vs : List (ℕ × α))

def asOf (pos : ℕ) : Option α :=
  (vs.filter (·.1 ≤ pos)).getLast?.map Prod.snd

def put (pos : ℕ) (a : α) : List (ℕ × α) :=
  match vs.getLast? with
  | some last => if last.1 = pos then vs.dropLast ++ [(pos, a)] else vs ++ [(pos, a)]
  | none => [(pos, a)]

def Ordered : Prop := vs.Pairwise (·.1 < ·.1)

theorem asOf_map (f : α → β) (vs : List (ℕ × α)) (pos : ℕ) :
    asOf (vs.map (Prod.map id f)) pos = (asOf vs pos).map f := by
  rw [asOf, asOf, filter_map, List.getLast?_map, Option.map_map, Option.map_map]
  rfl

variable {vs} {pos : ℕ}

theorem exists_mem_of_asOf {a : α} (h : asOf vs pos = some a) : ∃ v ∈ vs, v.1 ≤ pos ∧ v.2 = a := by
  obtain ⟨v, hv, rfl⟩ := Option.map_eq_some_iff.mp h
  obtain ⟨hmem, hle⟩ := mem_filter.mp (mem_of_getLast? hv)
  exact ⟨v, hmem, by simpa using hle, rfl⟩

theorem put_of_lt (h : ∀ v ∈ vs, v.1 < pos) (a : α) : put vs pos a = vs ++ [(pos, a)] := by
  rw [put]
  split
  · rename_i last hlast
    have := h last (mem_of_getLast? hlast)
    rw [if_neg (by omega)]
  · rename_i hnone
    rw [List.getLast?_eq_none_iff.mp hnone]
    rfl

variable {ws : List (ℕ × α)}

theorem foldl_put_of_lt (hws : Ordered ws) (h : ∀ v ∈ vs, ∀ w ∈ ws, v.1 < w.1) :
    ws.foldl (fun us w ↦ put us w.1 w.2) vs = vs ++ ws := by
  induction ws generalizing vs with
  | nil => simp
  | cons w ws ih =>
    rw [foldl_cons, put_of_lt fun v hv ↦ h v hv w mem_cons_self,
      ih hws.of_cons, append_assoc, singleton_append]
    intro v hv x hx
    rcases mem_snoc.mp hv with hv | rfl
    · exact h v hv x (mem_cons_of_mem _ hx)
    · exact rel_of_pairwise_cons hws hx

/-! ## Writing at the end -/

theorem mem_put {a : α} {v : ℕ × α} (h : v ∈ put vs pos a) : v ∈ vs ∨ v = (pos, a) := by
  rw [put] at h
  split at h
  · split_ifs at h
    · exact (mem_append.mp h).imp (dropLast_subset _ ·) mem_singleton.mp
    · exact (mem_append.mp h).imp_right mem_singleton.mp
  · exact .inr (mem_singleton.mp h)

@[simp] theorem getLast?_put (vs : List (ℕ × α)) (pos : ℕ) (a : α) :
    (put vs pos a).getLast? = some (pos, a) := by
  rw [put]
  split
  · split_ifs <;> simp
  · simp

@[simp] theorem put_put (vs : List (ℕ × α)) (pos : ℕ) (a b : α) :
    put (put vs pos a) pos b = put vs pos b := by
  rw [put, getLast?_put]
  simp only [if_true]
  rw [put, put]
  split
  · split_ifs <;> simp
  · simp

theorem foldl_put_put (vs ws : List (ℕ × α)) (pos : ℕ) (a : α) :
    (put ws pos a).foldl (fun us w ↦ put us w.1 w.2) vs =
      put (ws.foldl (fun us w ↦ put us w.1 w.2) vs) pos a := by
  rw [put]
  split
  · rename_i last hlast
    obtain ⟨before, rfl⟩ := List.getLast?_eq_some_iff.mp hlast
    split_ifs with hpos
    · subst hpos
      simp
    · rw [foldl_append]
      rfl
  · rename_i hnone
    rw [List.getLast?_eq_none_iff.mp hnone]
    rfl

theorem getLast?_foldl_put (vs : List (ℕ × α)) {last : ℕ × α} (h : ws.getLast? = some last) :
    (ws.foldl (fun us w ↦ put us w.1 w.2) vs).getLast? = some last := by
  obtain ⟨before, rfl⟩ := List.getLast?_eq_some_iff.mp h
  rw [foldl_append]
  exact getLast?_put _ _ _

theorem asOf_of_le (h : ∀ v ∈ vs, v.1 ≤ pos) : asOf vs pos = vs.getLast?.map Prod.snd := by
  rw [asOf, filter_eq_self.mpr fun v hv ↦ by simpa using h v hv]

theorem asOf_put (h : ∀ v ∈ vs, v.1 ≤ pos) (a : α) (l : ℕ) :
    asOf (put vs pos a) l = if pos ≤ l then some a else asOf vs l := by
  split_ifs with hl
  · have hle : ∀ v ∈ put vs pos a, v.1 ≤ l := by
      intro v hv
      rcases mem_put hv with hv | rfl
      · exact Nat.le_trans (h v hv) hl
      · exact hl
    rw [asOf_of_le hle, getLast?_put, Option.map_some]
  · -- the new version is behind the reader, and so is the one whose place it takes
    have hdrop : ∀ b : α, [(pos, b)].filter (·.1 ≤ l) = [] := fun b ↦ by simpa using hl
    rw [asOf, asOf, put]
    split
    · rename_i last hlast
      obtain ⟨before, rfl⟩ := List.getLast?_eq_some_iff.mp hlast
      split_ifs with hpos
      · have hlast' : [last].filter (·.1 ≤ l) = [] := by
          rw [show last = (pos, last.2) from by rw [← hpos]]
          exact hdrop _
        rw [dropLast_concat, filter_append, filter_append, hdrop, hlast']
      · rw [filter_append _ [(pos, a)], hdrop, append_nil]
    · rename_i hnone
      rw [hdrop, List.getLast?_eq_none_iff.mp hnone]
      rfl

theorem Ordered.put (hvs : Ordered vs) (h : ∀ v ∈ vs, v.1 ≤ pos) (a : α) :
    Ordered (put vs pos a) := by
  rw [Versions.put]
  split
  · rename_i last hlast
    obtain ⟨before, rfl⟩ := List.getLast?_eq_some_iff.mp hlast
    have hbefore : ∀ v ∈ before, v.1 < last.1 := (pairwise_snoc.mp hvs).2
    have hlast : last.1 ≤ pos := h last mem_snoc_self
    split_ifs with hpos
    · rw [dropLast_concat]
      exact pairwise_snoc.mpr ⟨(pairwise_snoc.mp hvs).1, hpos ▸ hbefore⟩
    · refine pairwise_snoc.mpr ⟨hvs, forall_mem_snoc.mpr ⟨fun v hv ↦ ?_, ?_⟩⟩
      · exact Nat.lt_of_lt_of_le (hbefore v hv) hlast
      · exact Nat.lt_of_le_of_ne hlast hpos
  · exact pairwise_singleton _ _

theorem asOf_of_mem (h : Ordered vs) {v : ℕ × α} (hv : v ∈ vs) : asOf vs v.1 = some v.2 := by
  obtain ⟨before, after, rfl⟩ := append_of_mem hv
  have hafter : ∀ w ∈ after, v.1 < w.1 := (pairwise_cons.mp (pairwise_append.mp h).2.1).1
  have hnil : after.filter (·.1 ≤ v.1) = [] :=
    filter_eq_nil_iff.mpr fun w hw ↦ by simpa using hafter w hw
  rw [asOf, filter_append, filter_cons_of_pos (by simp), hnil]
  simp

/-- A relation holds between each version and what is read at its position or behind it, if it holds
between each version and itself and those after it. -/
theorem forall_asOf_iff (h : Ordered vs) (R : α → α → Prop) :
    (∀ pos, ∀ v ∈ vs, v.1 ≤ pos → ∃ b, asOf vs pos = some b ∧ R v.2 b) ↔
      (∀ v ∈ vs, R v.2 v.2) ∧ vs.Pairwise fun v w ↦ R v.2 w.2 := by
  constructor
  · intro hall
    have hread : ∀ v ∈ vs, ∀ w ∈ vs, v.1 ≤ w.1 → R v.2 w.2 := by
      intro v hv w hw hle
      obtain ⟨b, hb, hR⟩ := hall w.1 v hv hle
      rw [asOf_of_mem h hw, Option.some_inj] at hb
      rwa [hb]
    exact ⟨fun v hv ↦ hread v hv v hv (Nat.le_refl _),
      h.imp_of_mem fun hv hw hlt ↦ hread _ hv _ hw (Nat.le_of_lt hlt)⟩
  · rintro ⟨hself, hpair⟩ pos v hv hle
    have hmem : v ∈ vs.filter (·.1 ≤ pos) := mem_filter.mpr ⟨hv, by simpa using hle⟩
    -- what is read is the last of the versions that are not behind the reader
    obtain ⟨w, hw⟩ : ∃ w, (vs.filter (·.1 ≤ pos)).getLast? = some w :=
      ⟨_, List.getLast?_eq_some_getLast (ne_nil_of_mem hmem)⟩
    refine ⟨w.2, by rw [asOf, hw, Option.map_some], ?_⟩
    obtain ⟨before, hsplit⟩ := List.getLast?_eq_some_iff.mp hw
    have hpair' := hpair.filter (·.1 ≤ pos)
    rw [hsplit] at hmem hpair'
    rcases mem_snoc.mp hmem with hbefore | rfl
    · exact (pairwise_append.mp hpair').2.2 v hbefore w mem_cons_self
    · exact hself v hv

end NeonStorage.Versions
