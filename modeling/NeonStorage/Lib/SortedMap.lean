import Mathlib.Data.List.Pairwise
import Mathlib.Data.List.Sort
import NeonStorage.Lib.BinarySearch

/-!
# Ordered maps

A map from a linear order as the list of its entries by increasing key. A change at a key is seen
by `lookup` at that key only, and leaves every part of the list alone that the key is not in
(`filter_insert`, `filter_erase`). An update that goes along a range of keys changes values only,
and may stop before the end of the range (`updateRange`).
-/

namespace NeonStorage

open List

structure SortedMap (K V : Type*) [LinearOrder K] where
  entries : List (K × V)
  sorted : entries.Pairwise (·.1 < ·.1)

namespace SortedMap

variable {K V : Type*} [LinearOrder K] (m : SortedMap K V)

def empty : SortedMap K V := ⟨[], .nil⟩

def lookup (k : K) : Option V := (m.entries.find? (·.1 = k)).map Prod.snd

/-- Put an entry into a sorted list, in the place of one with the same key. -/
def insertEntry (k : K) (v : V) (entries : List (K × V)) : List (K × V) :=
  (entries.filter (·.1 < k)) ++ (k, v) :: entries.filter (k < ·.1)

theorem insertEntry_sorted {entries : List (K × V)} (hs : entries.Pairwise (·.1 < ·.1)) (k : K)
    (v : V) : (insertEntry k v entries).Pairwise (·.1 < ·.1) := by
  refine pairwise_append.mpr ⟨hs.filter _, pairwise_cons.mpr ⟨?_, hs.filter _⟩, ?_⟩
  · intro e he
    simpa using (mem_filter.mp he).2
  · intro e he e' he'
    have hlt : e.1 < k := by simpa using (mem_filter.mp he).2
    rcases mem_cons.mp he' with rfl | he'
    · exact hlt
    · exact hlt.trans (by simpa using (mem_filter.mp he').2)

def insert (k : K) (v : V) : SortedMap K V :=
  ⟨insertEntry k v m.entries, insertEntry_sorted m.sorted k v⟩

def erase (k : K) : SortedMap K V := ⟨m.entries.filter (·.1 ≠ k), m.sorted.filter _⟩

variable {m} {k k' : K} {v : V}
variable {e : K × V}

theorem eq_of_mem {e' : K × V} (he : e ∈ m.entries) (he' : e' ∈ m.entries) (h : e.1 = e'.1) :
    e = e' := by
  by_contra hne
  have hsorted := m.sorted.imp fun h ↦ h.ne
  have : Std.Symm fun a b : K × V ↦ a.1 ≠ b.1 := ⟨fun _ _ h ↦ h.symm⟩
  exact hsorted.forall he he' hne h

theorem lookup_eq_some_iff : m.lookup k = some v ↔ (k, v) ∈ m.entries := by
  unfold lookup
  constructor
  · intro h
    obtain ⟨e, he, rfl⟩ := Option.map_eq_some_iff.mp h
    have hk : e.1 = k := by simpa using List.find?_some he
    exact hk ▸ mem_of_find?_eq_some he
  · intro h
    cases hf : m.entries.find? (·.1 = k) with
    | none => exact absurd (List.find?_eq_none.mp hf _ h) (by simp)
    | some e =>
      have hk : e.1 = k := by simpa using List.find?_some hf
      rw [eq_of_mem (mem_of_find?_eq_some hf) h hk]
      rfl

theorem mem_insert : e ∈ (m.insert k v).entries ↔ e = (k, v) ∨ e ∈ m.entries ∧ e.1 ≠ k := by
  simp only [insert, insertEntry, mem_append, mem_cons, mem_filter, decide_eq_true_eq]
  constructor
  · rintro (⟨he, hlt⟩ | rfl | ⟨he, hlt⟩)
    · exact .inr ⟨he, hlt.ne⟩
    · exact .inl rfl
    · exact .inr ⟨he, hlt.ne'⟩
  · rintro (rfl | ⟨he, hne⟩)
    · exact .inr (.inl rfl)
    · rcases lt_or_gt_of_ne hne with h | h
      · exact .inl ⟨he, h⟩
      · exact .inr (.inr ⟨he, h⟩)

theorem mem_erase : e ∈ (m.erase k).entries ↔ e ∈ m.entries ∧ e.1 ≠ k := by
  simp [erase]

theorem lookup_insert : (m.insert k v).lookup k' = if k' = k then some v else m.lookup k' := by
  refine Option.ext fun w ↦ ?_
  rw [lookup_eq_some_iff, mem_insert]
  split_ifs with h
  · simp [h, eq_comm]
  · simp [h, lookup_eq_some_iff]

theorem lookup_erase : (m.erase k).lookup k' = if k' = k then none else m.lookup k' := by
  refine Option.ext fun w ↦ ?_
  rw [lookup_eq_some_iff, mem_erase]
  split_ifs with h
  · simp [h]
  · simp [h, lookup_eq_some_iff]

theorem perm_insert (h : ∀ e ∈ m.entries, e.1 ≠ k) :
    (m.insert k v).entries.Perm ((k, v) :: m.entries) := by
  refine perm_middle.trans (.cons _ ?_)
  have hgt : m.entries.filter (k < ·.1) = m.entries.filter (fun e ↦ !decide (e.1 < k)) :=
    filter_congr fun e he ↦ by
      rw [← decide_not, decide_eq_decide, not_lt]
      exact ⟨le_of_lt, fun hle ↦ hle.lt_of_ne (h e he).symm⟩
  rw [hgt]
  exact filter_append_perm _ _

variable {p : K → Bool}

theorem filter_insert (hp : p k = false) :
    (m.insert k v).entries.filter (p ·.1) = m.entries.filter (p ·.1) := by
  refine List.Pairwise.eq_of_mem_iff
    ((m.insert k v).sorted.filter _) (m.sorted.filter _) fun e ↦ ?_
  rw [mem_filter, mem_filter, mem_insert]
  constructor
  · rintro ⟨rfl | ⟨he, -⟩, hpe⟩
    · exact absurd hpe (by simp [hp])
    · exact ⟨he, hpe⟩
  · rintro ⟨he, hpe⟩
    refine ⟨.inr ⟨he, ?_⟩, hpe⟩
    rintro rfl
    simp [hp] at hpe

theorem filter_erase (hp : p k = false) :
    (m.erase k).entries.filter (p ·.1) = m.entries.filter (p ·.1) := by
  rw [erase, filter_filter]
  refine filter_congr fun e _ ↦ ?_
  by_cases he : e.1 = k
  · simp [he, hp]
  · simp [he]

theorem entries_eq_filter_append_filter (hp : ∀ a b, a < b → p b → p a) :
    m.entries = m.entries.filter (p ·.1) ++ m.entries.filter (!p ·.1) :=
  (BinarySearch.filter_append_filter_not (m.sorted.imp fun h ↦ hp _ _ h)).symm

/-! ### Updates along a range -/

/-- Replace the values from `lo` on; `f` also says whether to go on to the next entry below `hi`. -/
def updateEntries (lo hi : K) (f : K → V → V × Bool) : List (K × V) → List (K × V)
  | [] => []
  | e :: es =>
    if e.1 < lo then e :: updateEntries lo hi f es
    else if e.1 < hi then
      (e.1, (f e.1 e.2).1) :: if (f e.1 e.2).2 then updateEntries lo hi f es else es
    else e :: es

variable {lo hi : K} {f : K → V → V × Bool} {es : List (K × V)}

theorem map_fst_updateEntries : (updateEntries lo hi f es).map Prod.fst = es.map Prod.fst := by
  induction es with
  | nil => rfl
  | cons e es ih =>
    rw [updateEntries]
    split_ifs <;> simp [ih]

theorem exists_mem_updateEntries (h : (k, v) ∈ es) :
    ∃ v', (k, v') ∈ updateEntries lo hi f es ∧ (v' = v ∨ v' = (f k v).1) := by
  induction es with
  | nil => cases h
  | cons e es ih =>
    rw [updateEntries]
    rcases mem_cons.mp h with rfl | h'
    · split_ifs
      · exact ⟨v, mem_cons_self, .inl rfl⟩
      · exact ⟨(f k v).1, mem_cons_self, .inr rfl⟩
      · exact ⟨(f k v).1, mem_cons_self, .inr rfl⟩
      · exact ⟨v, mem_cons_self, .inl rfl⟩
    · obtain ⟨v', hv', hor⟩ := ih h'
      split_ifs
      · exact ⟨v', mem_cons_of_mem _ hv', hor⟩
      · exact ⟨v', mem_cons_of_mem _ hv', hor⟩
      · exact ⟨v, mem_cons_of_mem _ h', .inl rfl⟩
      · exact ⟨v, mem_cons_of_mem _ h', .inl rfl⟩

theorem mem_updateEntries (hs : es.Pairwise (·.1 < ·.1)) (h : (k, v) ∈ es) (hlo : lo ≤ k)
    (hhi : k < hi) (hbefore : ∀ e ∈ es, lo ≤ e.1 → e.1 < k → (f e.1 e.2).2 = true) :
    (k, (f k v).1) ∈ updateEntries lo hi f es := by
  induction es with
  | nil => cases h
  | cons e es ih =>
    obtain ⟨he, hs⟩ := pairwise_cons.mp hs
    obtain ⟨hbefore_e, hbefore⟩ := forall_mem_cons.mp hbefore
    rw [updateEntries]
    rcases mem_cons.mp h with rfl | h'
    · rw [if_neg hlo.not_gt, if_pos hhi]
      exact mem_cons_self
    · have hlt : e.1 < k := he _ h'
      by_cases hlo' : e.1 < lo
      · rw [if_pos hlo']
        exact mem_cons_of_mem _ (ih hs h' hbefore)
      · rw [if_neg hlo', if_pos (hlt.trans hhi), if_pos (hbefore_e (le_of_not_gt hlo') hlt)]
        exact mem_cons_of_mem _ (ih hs h' hbefore)

/-- Update the values along a range of keys, from `lo` to `hi` or until `f` stops. -/
def updateRange (m : SortedMap K V) (lo hi : K) (f : K → V → V × Bool) : SortedMap K V where
  entries := updateEntries lo hi f m.entries
  sorted := by
    have hkeys : ((updateEntries lo hi f m.entries).map Prod.fst).Pairwise (· < ·) := by
      rw [map_fst_updateEntries]
      exact pairwise_map.mpr m.sorted
    exact pairwise_map.mp hkeys

def insertAll (m : SortedMap K V) (es : List (K × V)) : SortedMap K V :=
  es.foldl (fun m e ↦ m.insert e.1 e.2) m

theorem insertAll_cons (e : K × V) : m.insertAll (e :: es) = (m.insert e.1 e.2).insertAll es := rfl

theorem perm_insertAll (h : (m.entries.map Prod.fst ++ es.map Prod.fst).Nodup) :
    (m.insertAll es).entries.Perm (m.entries ++ es) := by
  induction es generalizing m with
  | nil => rw [append_nil]; rfl
  | cons e es ih =>
    have hnew : ∀ e' ∈ m.entries, e'.1 ≠ e.1 := fun e' he' ↦
      (nodup_append.mp h).2.2 _ (mem_map_of_mem he') _ mem_cons_self
    have hperm : (m.insert e.1 e.2).entries.Perm (e :: m.entries) := perm_insert hnew
    refine (ih ?_).trans ((hperm.append_right es).trans perm_middle.symm)
    refine ((hperm.map Prod.fst).append_right _).nodup_iff.mpr ?_
    exact perm_middle.nodup_iff.mp h

theorem mem_insertAll_of_ne (he : e ∈ m.entries) (hne : ∀ e' ∈ es, e'.1 ≠ e.1) :
    e ∈ (m.insertAll es).entries := by
  induction es generalizing m with
  | nil => exact he
  | cons e' es ih =>
    obtain ⟨hne', hne⟩ := forall_mem_cons.mp hne
    exact ih (mem_insert.mpr (.inr ⟨he, hne'.symm⟩)) hne

theorem mem_insertAll (hs : es.Pairwise (·.1 < ·.1)) (he : e ∈ es) :
    e ∈ (m.insertAll es).entries := by
  induction es generalizing m with
  | nil => cases he
  | cons e' es ih =>
    obtain ⟨hlt, hs⟩ := pairwise_cons.mp hs
    rw [insertAll_cons]
    rcases mem_cons.mp he with rfl | he
    · have hmem : e ∈ (m.insert e.1 e.2).entries := mem_insert.mpr (.inl rfl)
      exact mem_insertAll_of_ne hmem fun e' he' ↦ (hlt e' he').ne'
    · exact ih hs he

theorem of_mem_insertAll (he : e ∈ (m.insertAll es).entries) : e ∈ m.entries ∨ e ∈ es := by
  induction es generalizing m with
  | nil => exact .inl he
  | cons e' es ih =>
    rcases ih he with he | he
    · rcases mem_insert.mp he with rfl | ⟨he, -⟩
      · exact .inr mem_cons_self
      · exact .inl he
    · exact .inr (mem_cons_of_mem _ he)

end SortedMap

end NeonStorage
