import Mathlib.Tactic

/-!
# The synthetic size of a tenant

The points of interest on the timelines of a tenant form a forest of segments. `sizeHere` finds for
each segment the cheapest way to keep what is needed below it, once for a parent that is available
and once for one that is not. `calculate_isLeast` says that this is optimal among all assignments of
a method to each segment, and that the methods reported are such an assignment.

All sums are taken without a bound, as if they fit in 64 bits.
-/

namespace NeonStorage.Pageserver.TenantSize

open List Function
open Option (isSome_iff_exists ite_none_right_eq_some map_eq_some_iff)

structure Segment (n : ℕ) where
  parent : Option (Fin n)
  lsn : ℕ
  /-- The logical size at this point, if known. -/
  size : Option ℕ
  /-- The history from the parent to this point has to be kept. -/
  needed : Bool

inductive SegmentMethod where
  | snapshotHere
  | wal
  | skipped
deriving DecidableEq

/-- The input: `n` segments that form a forest. -/
structure StorageModel (n : ℕ) where
  segments : Fin n → Segment n
  lsn_le : ∀ c p, (segments c).parent = some p → (segments p).lsn ≤ (segments c).lsn
  noLoops : WellFounded fun c p ↦ (segments c).parent = some p

structure SegmentSize (n : ℕ) where
  method : SegmentMethod
  accumSize : ℕ
  segId : Fin n
  children : List (SegmentSize n)

/-- The subtree of a segment, from what the segment costs and from its children. -/
def SegmentSize.over {n : ℕ} (method : SegmentMethod) (own : ℕ) (segId : Fin n)
    (children : List (SegmentSize n)) : SegmentSize n :=
  ⟨method, own + (children.map (·.accumSize)).sum, segId, children⟩

structure SizeAlternatives (n : ℕ) where
  /-- The cheapest alternative if the parent is available. -/
  incremental : SegmentSize n
  /-- The cheapest alternative if it is not. -/
  nonIncremental : Option (SegmentSize n)

/-- What becomes of a subtree, by the method of the parent. -/
def SizeAlternatives.below {n : ℕ} (x : SizeAlternatives n) : SegmentMethod → SegmentSize n
  | .skipped => x.nonIncremental.getD x.incremental
  | _ => x.incremental

structure SegmentSizeResult where
  method : SegmentMethod
  accumSize : ℕ

structure SizeResult (n : ℕ) where
  totalSize : ℕ
  segments : Fin n → SegmentSizeResult

def fillSelectedSizes {n : ℕ} (selected : SegmentSize n) (result : Fin n → SegmentSizeResult) :
    Fin n → SegmentSizeResult :=
  selected.children.attach.foldl (fun result child ↦ fillSelectedSizes child.1 result)
    (update result selected.segId ⟨selected.method, selected.accumSize⟩)
termination_by selected
decreasing_by
  have hlt := sizeOf_lt_of_mem child.2
  cases selected
  simp only [SegmentSize.mk.sizeOf_spec] at hlt ⊢
  omega

namespace StorageModel

variable {n : ℕ} (m : StorageModel n)

def childList (seg : Fin n) : List (Fin n) :=
  (finRange n).filter fun c ↦ (m.segments c).parent = some seg

def roots : List (Fin n) := (finRange n).filter fun r ↦ (m.segments r).parent = none

def walLen (seg : Fin n) : ℕ :=
  match (m.segments seg).parent with
  | some p => (m.segments seg).lsn - (m.segments p).lsn
  | none => 0

section SizeHere

variable (seg : Fin n) (children : List (SizeAlternatives n))

/-- The segment is skipped, and snapshots are taken later in each subtree. -/
def snapshotLater : Option (SegmentSize n) :=
  if !(m.segments seg).needed && children.all (·.nonIncremental.isSome) then
    some (.over .skipped 0 seg (children.filterMap (·.nonIncremental)))
  else none

def snapshotHere : Option (SegmentSize n) :=
  if !(m.segments seg).needed || (m.segments seg).parent.isNone then
    (m.segments seg).size.map fun size ↦ .over .snapshotHere size seg (children.map (·.incremental))
  else none

def walHere : SegmentSize n := .over .wal (m.walLen seg) seg (children.map (·.incremental))

def cheapestNonIncremental : Option (SegmentSize n) :=
  match m.snapshotHere seg children, m.snapshotLater seg children with
  | some here, some later => some (if later.accumSize ≤ here.accumSize then later else here)
  | here, none => here
  | none, later => later

def cheapestIncremental : SegmentSize n :=
  match m.cheapestNonIncremental seg children with
  | some s => if (m.walHere seg children).accumSize < s.accumSize then m.walHere seg children else s
  | none => m.walHere seg children

end SizeHere

variable {m} {seg c i : Fin n}

open SizeAlternatives (below)

theorem mem_childList : c ∈ m.childList seg ↔ (m.segments c).parent = some seg := by
  simp [childList]

variable (m)

def sizeHere (seg : Fin n) : SizeAlternatives n :=
  let children := (m.childList seg).attach.map fun c ↦ sizeHere c.1
  ⟨m.cheapestIncremental seg children, m.cheapestNonIncremental seg children⟩
termination_by m.noLoops.wrap seg
decreasing_by exact mem_childList.mp c.2

def calculate : SizeResult n :=
  let selected := m.roots.filterMap fun root ↦ (m.sizeHere root).nonIncremental
  { totalSize := max (selected.map (·.accumSize)).sum 1
    segments := selected.foldl (fun result s ↦ fillSelectedSizes s result) fun _ ↦ ⟨.skipped, 0⟩ }

/-! ## Assignments -/

def subtree (seg : Fin n) : List (Fin n) :=
  seg :: (m.childList seg).attach.flatMap fun c ↦ subtree c.1
termination_by m.noLoops.wrap seg
decreasing_by exact mem_childList.mp c.2

def methodCost (seg : Fin n) : SegmentMethod → ℕ
  | .skipped => 0
  | .snapshotHere => (m.segments seg).size.getD 0
  | .wal => m.walLen seg

variable (a : Fin n → SegmentMethod)

/-- The snapshots and the WAL of an assignment in a subtree. -/
def cost (seg : Fin n) : ℕ := ((m.subtree seg).map fun i ↦ m.methodCost i (a i)).sum

/-- The method of the segment is one that it can have. -/
structure Admissible (i : Fin n) : Prop where
  needed : (m.segments i).needed →
    a i = if (m.segments i).parent.isSome then .wal else .snapshotHere
  wal : a i = .wal → ∃ p, (m.segments i).parent = some p ∧ a p ≠ .skipped
  snapshotHere : a i = .snapshotHere → (m.segments i).size.isSome

variable {m a} {seg c i : Fin n}

theorem subtree_eq (seg : Fin n) : m.subtree seg = seg :: (m.childList seg).flatMap m.subtree := by
  rw [subtree]
  simp [flatMap]

theorem self_mem_subtree : seg ∈ m.subtree seg := by
  rw [subtree_eq]
  exact mem_cons_self

theorem mem_subtree_of_parent (hp : i ∈ m.subtree seg) (hc : (m.segments c).parent = some i) :
    c ∈ m.subtree seg := by
  induction seg using m.noLoops.induction with
  | _ seg ih =>
    rw [subtree_eq, mem_cons, mem_flatMap] at hp ⊢
    rcases hp with rfl | ⟨d, hd, hp⟩
    · exact .inr ⟨c, mem_childList.mpr hc, self_mem_subtree⟩
    · exact .inr ⟨d, hd, ih d (mem_childList.mp hd) hp⟩

theorem cost_eq (seg : Fin n) :
    m.cost a seg = m.methodCost seg (a seg) + ((m.childList seg).map (m.cost a)).sum := by
  rw [cost, subtree_eq, map_cons, sum_cons, map_flatMap, flatMap_def, sum_flatten, map_map]
  rfl

/-! ## The alternatives of one segment -/

section Alternatives

variable (m) (seg : Fin n)

def children : List (SizeAlternatives n) := (m.childList seg).map m.sizeHere

def sized (μ : SegmentMethod) : SegmentSize n :=
  .over μ (m.methodCost seg μ) seg ((m.children seg).map (·.below μ))

def Possible : SegmentMethod → Prop
  | .skipped => ¬(m.segments seg).needed ∧ ∀ x ∈ m.children seg, x.nonIncremental.isSome
  | .snapshotHere =>
    ((m.segments seg).needed → (m.segments seg).parent = none) ∧ (m.segments seg).size.isSome
  | .wal => True

variable {m seg} {s : SegmentSize n} {μ : SegmentMethod}

theorem sizeHere_eq : m.sizeHere seg = ⟨m.cheapestIncremental seg (m.children seg),
    m.cheapestNonIncremental seg (m.children seg)⟩ := by
  rw [sizeHere]
  simp only [map_attach_eq_pmap, pmap_eq_map]
  rfl

theorem accumSize_sized : (m.sized seg μ).accumSize = m.methodCost seg μ +
    ((m.childList seg).map fun c ↦ ((m.sizeHere c).below μ).accumSize).sum := by
  rw [sized, children, map_map, SegmentSize.over, map_map]
  rfl

theorem snapshotHere_eq_some : m.snapshotHere seg (m.children seg) = some s ↔
    m.Possible seg .snapshotHere ∧ m.sized seg .snapshotHere = s := by
  rw [snapshotHere, ite_none_right_eq_some, map_eq_some_iff, Possible, sized, methodCost]
  cases (m.segments seg).size <;> cases (m.segments seg).needed <;> simp [below]

theorem snapshotLater_eq_some : m.snapshotLater seg (m.children seg) = some s ↔
    m.Possible seg .skipped ∧ m.sized seg .skipped = s := by
  have hbelow (h : ∀ x ∈ m.children seg, x.nonIncremental.isSome) :
      (m.children seg).filterMap (·.nonIncremental) = (m.children seg).map (·.below .skipped) := by
    rw [← filterMap_eq_map]
    refine filterMap_congr fun x hx ↦ ?_
    obtain ⟨t, ht⟩ := isSome_iff_exists.mp (h x hx)
    simp [below, ht]
  rw [snapshotLater, ite_none_right_eq_some, Option.some_inj, Bool.and_eq_true, all_eq_true,
    Bool.not_eq_true', ← Bool.not_eq_true]
  exact and_congr_right fun h ↦ by rw [hbelow h.2]; rfl

theorem nonIncremental_le (hμ : μ ≠ .wal) (hpossible : m.Possible seg μ) :
    ∃ s, (m.sizeHere seg).nonIncremental = some s ∧ s.accumSize ≤ (m.sized seg μ).accumSize := by
  rw [sizeHere_eq, cheapestNonIncremental]
  cases μ with
  | wal => exact absurd rfl hμ
  | snapshotHere =>
    rw [snapshotHere_eq_some.mpr ⟨hpossible, rfl⟩]
    grind
  | skipped =>
    rw [snapshotLater_eq_some.mpr ⟨hpossible, rfl⟩]
    grind

theorem of_nonIncremental (h : (m.sizeHere seg).nonIncremental = some s) :
    ∃ μ ≠ .wal, m.Possible seg μ ∧ m.sized seg μ = s := by
  rw [sizeHere_eq, cheapestNonIncremental] at h
  have hcases : m.snapshotHere seg (m.children seg) = some s ∨
      m.snapshotLater seg (m.children seg) = some s := by
    grind
  rcases hcases with h | h
  · exact ⟨.snapshotHere, nofun, snapshotHere_eq_some.mp h⟩
  · exact ⟨.skipped, nofun, snapshotLater_eq_some.mp h⟩

theorem incremental_eq : (m.sizeHere seg).incremental =
    match (m.sizeHere seg).nonIncremental with
    | some s => if (m.sized seg .wal).accumSize < s.accumSize then m.sized seg .wal else s
    | none => m.sized seg .wal := by
  rw [sizeHere_eq]
  rfl

theorem incremental_le (hpossible : m.Possible seg μ) :
    (m.sizeHere seg).incremental.accumSize ≤ (m.sized seg μ).accumSize := by
  rw [incremental_eq]
  by_cases hμ : μ = .wal
  · grind
  · obtain ⟨s, hs, hle⟩ := nonIncremental_le hμ hpossible
    rw [hs]
    grind

theorem below_cases (h : μ = .skipped → (m.sizeHere seg).nonIncremental.isSome) :
    ∃ ν, m.Possible seg ν ∧ m.sized seg ν = (m.sizeHere seg).below μ ∧
      (ν = .wal → μ ≠ .skipped) := by
  have hbelow : (m.sizeHere seg).nonIncremental = some ((m.sizeHere seg).below μ) ∨
      μ ≠ .skipped ∧ m.sized seg .wal = (m.sizeHere seg).below μ := by
    cases μ with
    | skipped =>
      obtain ⟨t, ht⟩ := isSome_iff_exists.mp (h rfl)
      exact .inl (by rw [below, ht, Option.getD_some])
    | _ =>
      change _ = some (m.sizeHere seg).incremental ∨ _ ∧ _ = (m.sizeHere seg).incremental
      rw [incremental_eq]
      grind
  rcases hbelow with h | ⟨hμ, h⟩
  · obtain ⟨ν, hne, hpossible, hs⟩ := of_nonIncremental h
    exact ⟨ν, hpossible, hs, fun hwal ↦ absurd hwal hne⟩
  · exact ⟨.wal, trivial, h, fun _ ↦ hμ⟩

end Alternatives

variable {s s' : SegmentSize n}

/-! ## No assignment is cheaper -/

theorem le_cost (h : ∀ i ∈ m.subtree seg, m.Admissible a i) :
    (m.sizeHere seg).incremental.accumSize ≤ m.cost a seg ∧
      (a seg ≠ .wal → ∃ s, (m.sizeHere seg).nonIncremental = some s ∧
        s.accumSize ≤ m.cost a seg) := by
  induction seg using m.noLoops.induction with
  | _ seg ih =>
    have hchild : ∀ c ∈ m.childList seg, ∀ i ∈ m.subtree c, m.Admissible a i := by
      intro c hc i hi
      refine h i ?_
      rw [subtree_eq]
      exact mem_cons_of_mem _ (mem_flatMap.mpr ⟨c, hc, hi⟩)
    have ih := fun c hc ↦ ih c (mem_childList.mp hc) (hchild c hc)
    -- below a skipped segment no one uses WAL
    have hnon : a seg = .skipped → ∀ c ∈ m.childList seg, ∃ s,
        (m.sizeHere c).nonIncremental = some s ∧ s.accumSize ≤ m.cost a c := by
      intro hskipped c hc
      refine (ih c hc).2 fun hwal ↦ ?_
      obtain ⟨p, hp, hne⟩ := (hchild c hc c self_mem_subtree).wal hwal
      cases (mem_childList.mp hc).symm.trans hp
      exact hne hskipped
    have hpossible : m.Possible seg (a seg) := by
      obtain ⟨hneeded, -, hsize⟩ := h seg self_mem_subtree
      cases hμ : a seg with
      | wal => trivial
      | snapshotHere => exact ⟨fun h ↦ by simpa [hμ] using hneeded h, hsize hμ⟩
      | skipped =>
        refine ⟨fun h ↦ by have := hneeded h; grind, fun x hx ↦ ?_⟩
        obtain ⟨c, hc, rfl⟩ := mem_map.mp hx
        obtain ⟨s, hs, -⟩ := hnon hμ c hc
        rw [hs]
        rfl
    have hle : (m.sized seg (a seg)).accumSize ≤ m.cost a seg := by
      rw [cost_eq, accumSize_sized]
      refine Nat.add_le_add_left (sum_le_sum fun c hc ↦ ?_) _
      cases hμ : a seg with
      | skipped =>
        obtain ⟨s, hs, hle⟩ := hnon hμ c hc
        simpa [below, hs] using hle
      | _ => exact (ih c hc).1
    refine ⟨(incremental_le hpossible).trans hle, fun hne ↦ ?_⟩
    obtain ⟨s, hs, hle'⟩ := nonIncremental_le hne hpossible
    exact ⟨s, hs, hle'.trans hle⟩

/-! ## The alternatives that are selected -/

inductive Selected (m : StorageModel n) : Fin n → SegmentSize n → Prop
  | root {root s} (hroot : (m.segments root).parent = none)
    (h : (m.sizeHere root).nonIncremental = some s) : Selected m root s
  | child {p c s} (hp : Selected m p s) (hc : (m.segments c).parent = some p) :
    Selected m c ((m.sizeHere c).below s.method)

theorem Selected.unique (h : m.Selected i s) (h' : m.Selected i s') : s = s' := by
  induction h generalizing s' with
  | root hroot h =>
    cases h' with
    | root _ h' => exact Option.some.inj (h.symm.trans h')
    | child _ hc => rw [hroot] at hc; cases hc
  | child hp hc ih =>
    cases h' with
    | root hroot => rw [hroot] at hc; cases hc
    | child hp' hc' =>
      cases hc.symm.trans hc'
      rw [ih hp']

theorem Selected.cases (h : m.Selected i s) : ∃ μ, m.Possible i μ ∧ m.sized i μ = s ∧
    (μ = .wal → ∃ p t, (m.segments i).parent = some p ∧ m.Selected p t ∧ t.method ≠ .skipped) := by
  induction h with
  | root hroot h =>
    obtain ⟨μ, hne, hpossible, hs⟩ := of_nonIncremental h
    exact ⟨μ, hpossible, hs, fun hwal ↦ absurd hwal hne⟩
  | @child p c _ hp hc ih =>
    obtain ⟨μ, hpossible, rfl, -⟩ := ih
    obtain ⟨ν, hpossible', hs, hwal⟩ := @below_cases n m c μ fun h ↦ by
      subst h
      exact hpossible.2 _ (mem_map_of_mem (mem_childList.mpr hc))
    exact ⟨ν, hpossible', hs, fun h ↦ ⟨p, _, hc, hp, hwal h⟩⟩

theorem Selected.of_mem_subtree {j : Fin n} (h : m.Selected i s) (hj : j ∈ m.subtree i) :
    ∃ t, m.Selected j t := by
  induction i using m.noLoops.induction generalizing s with
  | _ i ih =>
    rw [subtree_eq, mem_cons, mem_flatMap] at hj
    rcases hj with rfl | ⟨c, hc, hj⟩
    · exact ⟨s, h⟩
    · exact ih c (mem_childList.mp hc) (h.child (mem_childList.mp hc)) hj

section Assignment

variable (ha : ∀ i s, m.Selected i s → a i = s.method)
include ha

theorem Selected.admissible (h : m.Selected i s) : m.Admissible a i := by
  obtain ⟨μ, hpossible, rfl, hwal⟩ := h.cases
  have hi : a i = μ := ha i _ h
  cases μ with
  | wal =>
    obtain ⟨p, t, hp, ht, hne⟩ := hwal rfl
    refine ⟨fun _ ↦ by rw [hi, hp]; rfl, fun _ ↦ ⟨p, hp, ?_⟩, fun h ↦ ?_⟩
    · rwa [ha p t ht]
    · cases hi.symm.trans h
  | snapshotHere =>
    refine ⟨fun h ↦ by rw [hi, hpossible.1 h]; rfl, fun h ↦ ?_, fun _ ↦ hpossible.2⟩
    cases hi.symm.trans h
  | skipped =>
    refine ⟨fun h ↦ absurd h hpossible.1, fun h ↦ ?_, fun h ↦ ?_⟩ <;>
    · cases hi.symm.trans h

theorem Selected.cost_eq (h : m.Selected i s) : m.cost a i = s.accumSize := by
  induction i using m.noLoops.induction generalizing s with
  | _ i ih =>
    obtain ⟨μ, -, rfl, -⟩ := h.cases
    rw [StorageModel.cost_eq, ha i _ h, accumSize_sized]
    refine congrArg (_ + ·) (congrArg sum (map_congr_left fun c hc ↦ ?_))
    exact ih c (mem_childList.mp hc) (h.child (mem_childList.mp hc))

end Assignment

/-! ## The result -/

/-- The result has what is selected at the segment. -/
def Right (m : StorageModel n) (result : Fin n → SegmentSizeResult) (i : Fin n) : Prop :=
  ∀ s, m.Selected i s → result i = ⟨s.method, s.accumSize⟩

theorem right_foldl {β : Type} {l : List β} {S : β → List (Fin n)}
    {f : (Fin n → SegmentSizeResult) → β → Fin n → SegmentSizeResult}
    (h : ∀ b ∈ l, ∀ r, (∀ j, m.Right r j → m.Right (f r b) j) ∧ ∀ j ∈ S b, m.Right (f r b) j)
    (r : Fin n → SegmentSizeResult) :
    (∀ j, m.Right r j → m.Right (l.foldl f r) j) ∧ ∀ b ∈ l, ∀ j ∈ S b, m.Right (l.foldl f r) j := by
  induction l generalizing r with
  | nil => exact ⟨fun _ h ↦ h, nofun⟩
  | cons b l ih =>
    obtain ⟨hb, hl⟩ := forall_mem_cons.mp h
    obtain ⟨hkeep, hmake⟩ := ih hl (f r b)
    exact ⟨fun j hj ↦ hkeep j ((hb r).1 j hj),
      forall_mem_cons.mpr ⟨fun j hj ↦ hkeep j ((hb r).2 j hj), hmake⟩⟩

theorem Selected.segId_eq (h : m.Selected i s) : s.segId = i := by
  obtain ⟨μ, -, rfl, -⟩ := h.cases
  rfl

theorem Selected.right_fill (h : m.Selected i s) (r : Fin n → SegmentSizeResult) :
    (∀ j, m.Right r j → m.Right (fillSelectedSizes s r) j) ∧
      ∀ j ∈ m.subtree i, m.Right (fillSelectedSizes s r) j := by
  induction i using m.noLoops.induction generalizing s r with
  | _ i ih =>
    have hchildren : s.children = (m.children i).map (·.below s.method) := by
      obtain ⟨μ, -, rfl, -⟩ := h.cases
      rfl
    have hself : ∀ j, j = i ∨ m.Right r j →
        m.Right (update r i ⟨s.method, s.accumSize⟩) j := by
      intro j hj t ht
      by_cases hji : j = i
      · subst hji
        rw [update_self, h.unique ht]
      · rw [update_of_ne hji]
        exact hj.resolve_left hji t ht
    rw [fillSelectedSizes, foldl_attach (f := fun r s ↦ fillSelectedSizes s r), hchildren, children,
      foldl_map, foldl_map, h.segId_eq]
    obtain ⟨hkeep, hmake⟩ := right_foldl (fun c hc r ↦
      ih c (mem_childList.mp hc) (h.child (mem_childList.mp hc)) r)
      (update r i ⟨s.method, s.accumSize⟩)
    refine ⟨fun j hj ↦ hkeep j (hself j (.inr hj)), fun j hj ↦ ?_⟩
    rw [subtree_eq, mem_cons, mem_flatMap] at hj
    rcases hj with rfl | ⟨c, hc, hj⟩
    · exact hkeep j (hself j (.inl rfl))
    · exact hmake c hc j hj

theorem calculate_segments (h : m.Selected i s) :
    m.calculate.segments i = ⟨s.method, s.accumSize⟩ := by
  obtain ⟨root, t, hroot, ht, hi⟩ : ∃ root t, (m.segments root).parent = none ∧
      (m.sizeHere root).nonIncremental = some t ∧ i ∈ m.subtree root := by
    induction h with
    | root hroot h => exact ⟨_, _, hroot, h, self_mem_subtree⟩
    | child _ hc ih =>
      obtain ⟨root, t, hroot, ht, hp⟩ := ih
      exact ⟨root, t, hroot, ht, mem_subtree_of_parent hp hc⟩
  have hmake := (right_foldl (m := m) (l := m.roots.filterMap (m.sizeHere · |>.nonIncremental))
    (f := fun r s ↦ fillSelectedSizes s r) (S := (m.subtree ·.segId)) ?_ fun _ ↦ ⟨.skipped, 0⟩).2
  · exact hmake t (mem_filterMap.mpr ⟨root, by simpa [roots] using hroot, ht⟩) i
      (by rwa [(Selected.root hroot ht).segId_eq]) s h
  · intro s hs
    obtain ⟨root, hroot, hs⟩ := mem_filterMap.mp hs
    have hs := Selected.root (by simpa [roots] using hroot) hs
    rw [hs.segId_eq]
    exact hs.right_fill

/-- **The synthetic size is optimal.** -/
theorem calculate_isLeast {root : Fin n} (hroot : (m.segments root).parent = none) :
    match (m.sizeHere root).nonIncremental with
    | some selected =>
      IsLeast {size | ∃ a, (∀ i ∈ m.subtree root, m.Admissible a i) ∧ m.cost a root = size}
        selected.accumSize ∧
      (m.calculate.segments root).accumSize = selected.accumSize ∧
      (∀ i ∈ m.subtree root, m.Admissible (fun i ↦ (m.calculate.segments i).method) i) ∧
      m.cost (fun i ↦ (m.calculate.segments i).method) root = selected.accumSize
    | none => ∀ a, ¬∀ i ∈ m.subtree root, m.Admissible a i := by
  have hle : ∀ a, (∀ i ∈ m.subtree root, m.Admissible a i) → ∃ s,
      (m.sizeHere root).nonIncremental = some s ∧ s.accumSize ≤ m.cost a root := by
    intro a ha
    refine (le_cost ha).2 fun hwal ↦ ?_
    obtain ⟨p, hp, -⟩ := (ha root self_mem_subtree).wal hwal
    cases hroot.symm.trans hp
  split
  · rename_i selected hselected
    have hs : m.Selected root selected := .root hroot hselected
    have hmethods : ∀ i s, m.Selected i s → (m.calculate.segments i).method = s.method :=
      fun i s h ↦ by rw [calculate_segments h]
    have hadmissible : ∀ i ∈ m.subtree root,
        m.Admissible (fun i ↦ (m.calculate.segments i).method) i := by
      intro i hi
      obtain ⟨t, ht⟩ := hs.of_mem_subtree hi
      exact ht.admissible hmethods
    refine ⟨⟨⟨_, hadmissible, hs.cost_eq hmethods⟩, ?_⟩, by rw [calculate_segments hs], hadmissible,
      hs.cost_eq hmethods⟩
    rintro _ ⟨a, ha, rfl⟩
    obtain ⟨s, hs, hle⟩ := hle a ha
    rw [hselected, Option.some_inj] at hs
    rwa [hs]
  · rename_i hnone
    intro a ha
    obtain ⟨s, hs, -⟩ := hle a ha
    cases hnone.symm.trans hs

/-- A branch that is needed, 40 bytes of WAL after a point of size 100. -/
def sample : StorageModel 2 where
  segments i := if i.val = 0 then ⟨none, 10, some 100, false⟩
    else ⟨some ⟨0, Nat.two_pos⟩, 50, none, true⟩
  lsn_le := by decide
  noLoops := by
    refine ⟨fun p ↦ ⟨p, fun c hc ↦ ⟨c, fun d hd ↦ False.elim ?_⟩⟩⟩
    revert p c d
    decide

theorem calculate_isLeast_sample : (sample.segments 0).parent = none ∧
    IsLeast {size | ∃ a, (∀ i ∈ sample.subtree 0, sample.Admissible a i) ∧
      sample.cost a 0 = size} 140 := by
  have hchildren : sample.childList 0 = [1] ∧ sample.childList 1 = [] := by decide
  have h := @calculate_isLeast 2 sample 0 rfl
  have hsize : (sample.sizeHere 0).nonIncremental.map (·.accumSize) = some 140 := by
    rw [sizeHere_eq, children, hchildren.1, map_singleton, sizeHere_eq, children, hchildren.2]
    rfl
  obtain ⟨s, hs, hsize⟩ := map_eq_some_iff.mp hsize
  rw [hs] at h
  exact ⟨rfl, hsize ▸ h.1⟩

end StorageModel

end NeonStorage.Pageserver.TenantSize
