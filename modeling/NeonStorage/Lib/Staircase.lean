import Mathlib.Order.Nat
import NeonStorage.Lib.SortedMap

/-!
# A staircase over a line

The highest of many horizontal bars, seen from above: at each point of a line, the bar that reaches
highest there, or none. It is kept as the list of the points where it changes. A bar is laid over a
half-open interval and shows wherever it is higher than everything before (`view_insert`); what is
seen in an interval is found by following the changes from its beginning (`query_eq_follow`).
-/

namespace NeonStorage

open List
open SortedMap (insertEntry insertEntry_sorted)

/-- What is seen at a point: the height and the bar. -/
abbrev Staircase.Step (V : Type*) := Option (ℕ × V)

/-- The points where the view changes, in order, each with what is seen from there on. -/
structure Staircase (K V : Type*) [LinearOrder K] where
  nodes : List (K × Staircase.Step V)
  sorted : nodes.Pairwise (·.1 < ·.1)

namespace Staircase

variable {K V : Type*} [LinearOrder K]

/-- What is seen at `k`, if `d` is seen before the first node. -/
def atOr (d : Step V) (nodes : List (K × Step V)) (k : K) : Step V :=
  (nodes.filter fun n ↦ n.1 ≤ k).getLast?.elim d Prod.snd

section Nodes

variable {d : Step V} {nodes nodes' : List (K × Step V)} {k : K}

theorem atOr_cons (n : K × Step V) :
    atOr d (n :: nodes) k = atOr (if n.1 ≤ k then n.2 else d) nodes k := by
  unfold atOr
  rw [filter_cons]
  split_ifs with h h' h'
  · rw [List.getLast?_cons]
    cases (nodes.filter fun n ↦ n.1 ≤ k).getLast? <;> rfl
  · exact absurd (of_decide_eq_true h) h'
  · exact absurd (decide_eq_true h') h
  · rfl

theorem atOr_append : atOr d (nodes ++ nodes') k = atOr (atOr d nodes k) nodes' k := by
  induction nodes generalizing d with
  | nil => rfl
  | cons n nodes ih => rw [cons_append, atOr_cons, atOr_cons, ih]

theorem atOr_of_lt (h : ∀ n ∈ nodes, k < n.1) : atOr d nodes k = d := by
  induction nodes generalizing d with
  | nil => rfl
  | cons n nodes ih =>
    rw [atOr_cons, if_neg (h n mem_cons_self).not_ge]
    exact ih (forall_mem_cons.mp h).2

theorem atOr_filter_le {k' : K} (h : k ≤ k') :
    atOr d (nodes.filter fun n ↦ n.1 ≤ k) k' = atOr d nodes k := by
  unfold atOr
  rw [filter_filter]
  congr 2
  refine filter_congr fun n _ ↦ ?_
  by_cases hn : n.1 ≤ k
  · simp [hn, hn.trans h]
  · simp [hn]

theorem filter_append_filter (hs : nodes.Pairwise (·.1 < ·.1)) (p : K → Bool)
    (hp : ∀ a b, a < b → p b → p a) :
    nodes = (nodes.filter fun n ↦ p n.1) ++ nodes.filter fun n ↦ !p n.1 :=
  SortedMap.entries_eq_filter_append_filter (m := ⟨nodes, hs⟩) hp

end Nodes

/-! ## Nodes that change nothing -/

variable (nodes : List (K × Step V))

def addNode (k : K) : List (K × Step V) :=
  insertEntry k (atOr none nodes k) nodes

theorem atOr_addNode {nodes : List (K × Step V)} (hs : nodes.Pairwise (·.1 < ·.1)) (k k' : K) :
    atOr none (addNode nodes k) k' = atOr none nodes k' := by
  have hsplit := filter_append_filter hs (fun a ↦ decide (a ≤ k))
    fun a b hab hb ↦ decide_eq_true (hab.le.trans (of_decide_eq_true hb))
  have hupper : (nodes.filter fun n ↦ !decide (n.1 ≤ k)) = nodes.filter fun n ↦ k < n.1 :=
    filter_congr fun n _ ↦ by rw [← decide_not, decide_eq_decide, not_le]
  rw [hupper] at hsplit
  rw [addNode, insertEntry, atOr_append, atOr_cons]
  by_cases hk : k ≤ k'
  · conv_rhs => rw [hsplit, atOr_append, atOr_filter_le hk]
    rw [if_pos hk]
  · have hk := lt_of_not_ge hk
    have habove : ∀ n ∈ nodes.filter (fun n ↦ k < n.1), k' < n.1 := fun n hn ↦
      hk.trans (by simpa using (mem_filter.mp hn).2)
    rw [if_neg hk.not_ge, atOr_of_lt habove]
    unfold atOr
    rw [filter_filter]
    congr 2
    refine filter_congr fun n _ ↦ ?_
    by_cases hn : n.1 ≤ k'
    · simp [hn, hn.trans_lt hk]
    · simp [hn]

theorem mem_addNode_self (k : K) : (k, atOr none nodes k) ∈ addNode nodes k :=
  mem_append_right _ mem_cons_self

variable {n : K × Step V}

theorem exists_mem_addNode {nodes : List (K × Step V)} (hn : n ∈ nodes) (k : K) :
    ∃ x, (n.1, x) ∈ addNode nodes k := by
  rcases lt_trichotomy n.1 k with h | h | h
  · exact ⟨n.2, mem_append_left _ (mem_filter.mpr ⟨hn, by simpa using h⟩)⟩
  · rw [h]
    exact ⟨_, mem_addNode_self nodes k⟩
  · exact ⟨n.2, mem_append_right _
      (mem_cons_of_mem _ (mem_filter.mpr ⟨hn, by simpa using h⟩))⟩

/-! ## Laying a bar -/

/-- A bar of height `h` shows above `x`. -/
def needsCover (h : ℕ) : Step V → Bool
  | none => true
  | some (h', _) => decide (h' < h)

/-- What is seen where `x` was seen before the bar was laid. -/
def cover (h : ℕ) (v : V) (x : Step V) : Step V := if needsCover h x then some (h, v) else x

/-- Raise the nodes where the bar shows; of several in a row only the first one is kept.
`covered` says whether the last node needed it. -/
def raise (h : ℕ) (v : V) : Bool → List (K × Step V) → List (K × Step V)
  | _, [] => []
  | covered, (k, x) :: nodes =>
    if needsCover h x then
      if covered then raise h v true nodes else (k, some (h, v)) :: raise h v true nodes
    else (k, x) :: raise h v false nodes

/-- Lay a bar of height `h` over the interval from `lo` to `hi`, without `hi`. -/
def insertNodes (lo hi : K) (h : ℕ) (v : V) : List (K × Step V) :=
  let nodes := addNode (addNode nodes lo) hi
  (nodes.filter fun n ↦ n.1 < lo) ++
    raise h v false (nodes.filter fun n ↦ lo ≤ n.1 && n.1 < hi) ++
    nodes.filter fun n ↦ lo ≤ n.1 && hi ≤ n.1

section Raise

variable {h : ℕ} {v : V} {covered : Bool} {nodes : List (K × Step V)} {k : K}

omit [LinearOrder K] in
theorem exists_mem_of_mem_raise (hn : n ∈ raise h v covered nodes) : ∃ x, (n.1, x) ∈ nodes := by
  induction nodes generalizing covered with
  | nil => cases hn
  | cons m nodes ih =>
    unfold raise at hn
    have hrec : ∀ c, n ∈ raise h v c nodes → ∃ x, (n.1, x) ∈ m :: nodes := fun c hc ↦
      (ih hc).imp fun x hx ↦ mem_cons_of_mem _ hx
    split_ifs at hn
    · exact hrec _ hn
    · rcases mem_cons.mp hn with rfl | hn
      · exact ⟨m.2, mem_cons_self⟩
      · exact hrec _ hn
    · rcases mem_cons.mp hn with rfl | hn
      · exact ⟨m.2, mem_cons_self⟩
      · exact hrec _ hn

theorem lt_of_mem_raise {a : K} (ha : ∀ n ∈ nodes, a < n.1) (n : K × Step V)
    (hn : n ∈ raise h v covered nodes) : a < n.1 := by
  obtain ⟨x, hx⟩ := exists_mem_of_mem_raise hn
  exact ha (n.1, x) hx

theorem raise_sorted (hs : nodes.Pairwise (·.1 < ·.1)) :
    (raise h v covered nodes).Pairwise (·.1 < ·.1) := by
  induction nodes generalizing covered with
  | nil => exact .nil
  | cons m nodes ih =>
    obtain ⟨hm, hs⟩ := pairwise_cons.mp hs
    unfold raise
    split_ifs
    · exact ih hs
    · exact pairwise_cons.mpr ⟨lt_of_mem_raise hm, ih hs⟩
    · exact pairwise_cons.mpr ⟨lt_of_mem_raise hm, ih hs⟩

/-- Raising the nodes raises what is seen, if what is seen before the first node is raised as well.
The flag may only be set if the bar shows there. -/
theorem atOr_raise (hs : nodes.Pairwise (·.1 < ·.1)) (d : Step V) (hc : covered → needsCover h d) :
    atOr (cover h v d) (raise h v covered nodes) k = cover h v (atOr d nodes k) := by
  induction nodes generalizing covered d with
  | nil => rfl
  | cons n nodes ih =>
    obtain ⟨a, x⟩ := n
    by_cases hk : a ≤ k
    · obtain ⟨-, hs⟩ := pairwise_cons.mp hs
      rw [atOr_cons, if_pos hk]
      unfold raise
      by_cases hx : needsCover h x
      · have hcover : cover h v x = some (h, v) := if_pos hx
        rw [if_pos hx, ← ih hs x fun _ ↦ hx, hcover]
        by_cases hcov : covered
        · rw [if_pos hcov, cover, if_pos (hc hcov)]
        · rw [if_neg hcov, atOr_cons, if_pos hk]
      · have hcover : cover h v x = x := if_neg hx
        have hrest := ih hs x (nofun : false = true → needsCover h x = true)
        rw [if_neg hx, ← hrest, hcover, atOr_cons, if_pos hk]
    · -- the point is before all of the nodes
      have hbefore : ∀ n ∈ (a, x) :: nodes, k < n.1 := by
        obtain ⟨hm, -⟩ := pairwise_cons.mp hs
        intro n hn
        rcases mem_cons.mp hn with rfl | hn
        · exact lt_of_not_ge hk
        · exact (lt_of_not_ge hk).trans (hm n hn)
      rw [atOr_of_lt hbefore, atOr_of_lt (lt_of_mem_raise hbefore)]

end Raise

section Insert

variable {nodes : List (K × Step V)} {lo hi k : K} {h : ℕ} {v : V}

section

variable (hs : nodes.Pairwise (·.1 < ·.1))
include hs

private theorem split_interval (lo hi : K) :
    nodes = (nodes.filter fun n ↦ n.1 < lo) ++ (nodes.filter fun n ↦ lo ≤ n.1 && n.1 < hi) ++
      nodes.filter fun n ↦ lo ≤ n.1 && hi ≤ n.1 := by
  have hlo := filter_append_filter hs (fun a ↦ decide (a < lo))
    fun a b hab hb ↦ decide_eq_true (hab.trans (of_decide_eq_true hb))
  have hhi := filter_append_filter (hs.filter fun n ↦ !decide (n.1 < lo)) (fun a ↦ decide (a < hi))
    fun a b hab hb ↦ decide_eq_true (hab.trans (of_decide_eq_true hb))
  simp only [filter_filter, ← decide_not, not_lt] at hlo hhi
  conv_lhs => rw [hlo, hhi]
  rw [append_assoc]
  congr 3 <;> funext n <;> exact Bool.and_comm _ _

theorem insertNodes_sorted : (insertNodes nodes lo hi h v).Pairwise (·.1 < ·.1) := by
  have hs' := insertEntry_sorted (insertEntry_sorted hs lo (atOr none nodes lo)) hi
    (atOr none (addNode nodes lo) hi)
  have hmid := hs'.filter fun n ↦ lo ≤ n.1 && n.1 < hi
  refine pairwise_append.mpr ⟨pairwise_append.mpr ⟨hs'.filter _, raise_sorted hmid, ?_⟩,
    hs'.filter _, ?_⟩
  · intro n hn m hm
    obtain ⟨x, hx⟩ := exists_mem_of_mem_raise hm
    have hn := (mem_filter.mp hn).2
    have hx := (mem_filter.mp hx).2
    simp only [decide_eq_true_eq, Bool.and_eq_true] at hn hx
    exact hn.trans_le hx.1
  · intro n hn m hm
    have hm := (mem_filter.mp hm).2
    simp only [decide_eq_true_eq, Bool.and_eq_true] at hm
    rcases mem_append.mp hn with hn | hn
    · have hn := (mem_filter.mp hn).2
      simp only [decide_eq_true_eq] at hn
      exact hn.trans_le hm.1
    · obtain ⟨x, hx⟩ := exists_mem_of_mem_raise hn
      have hx := (mem_filter.mp hx).2
      simp only [decide_eq_true_eq, Bool.and_eq_true] at hx
      exact hx.2.trans_le hm.2

private theorem exists_eq_cons (hn : n ∈ nodes)
    (hmin : ∀ m ∈ nodes, n.1 ≤ m.1) : ∃ rest, nodes = n :: rest := by
  cases nodes with
  | nil => cases hn
  | cons m nodes =>
    rcases mem_cons.mp hn with rfl | hn
    · exact ⟨nodes, rfl⟩
    · exact absurd (hmin m mem_cons_self) ((pairwise_cons.mp hs).1 n hn).not_ge

private theorem atOr_congr (hn : n ∈ nodes)
    (hmin : ∀ m ∈ nodes, n.1 ≤ m.1) (hk : n.1 ≤ k) (d d' : Step V) :
    atOr d nodes k = atOr d' nodes k := by
  obtain ⟨rest, rfl⟩ := exists_eq_cons hs hn hmin
  rw [atOr_cons, atOr_cons, if_pos hk, if_pos hk]

theorem atOr_insertNodes : atOr none (insertNodes nodes lo hi h v) k =
      if lo ≤ k ∧ k < hi then cover h v (atOr none nodes k) else atOr none nodes k := by
  have hslo : (addNode nodes lo).Pairwise (·.1 < ·.1) := insertEntry_sorted hs lo _
  have hsN : (addNode (addNode nodes lo) hi).Pairwise (·.1 < ·.1) := insertEntry_sorted hslo hi _
  have hat : atOr none nodes k = atOr none (addNode (addNode nodes lo) hi) k := by
    rw [atOr_addNode hslo, atOr_addNode hs]
  obtain ⟨x, hlo⟩ := exists_mem_addNode (mem_addNode_self nodes lo) hi
  have hhi := mem_addNode_self (addNode nodes lo) hi
  rw [hat]
  unfold insertNodes
  generalize addNode (addNode nodes lo) hi = N at *
  conv_rhs => rw [split_interval hsN lo hi]
  have hsI := hsN.filter fun n ↦ lo ≤ n.1 && n.1 < hi
  have hsA := hsN.filter fun n ↦ lo ≤ n.1 && hi ≤ n.1
  have hI : ∀ n ∈ N.filter (fun n ↦ lo ≤ n.1 && n.1 < hi), lo ≤ n.1 ∧ n.1 < hi := fun n hn ↦ by
    simpa using (mem_filter.mp hn).2
  have hA : ∀ n ∈ N.filter (fun n ↦ lo ≤ n.1 && hi ≤ n.1), lo ≤ n.1 ∧ hi ≤ n.1 := fun n hn ↦ by
    simpa using (mem_filter.mp hn).2
  simp only [atOr_append]
  by_cases hk : lo ≤ k
  · by_cases hk' : k < hi
    · -- inside: the nodes after the interval do not matter, and the first one inside is at `lo`
      have hlast : ∀ n ∈ N.filter (fun n ↦ lo ≤ n.1 && hi ≤ n.1), k < n.1 :=
        fun n hn ↦ hk'.trans_le (hA n hn).2
      have hmem : (lo, x) ∈ N.filter fun n ↦ lo ≤ n.1 && n.1 < hi :=
        mem_filter.mpr ⟨hlo, by simpa using hk.trans_lt hk'⟩
      obtain ⟨rest, hrest⟩ := exists_eq_cons hsI hmem fun n hn ↦ (hI n hn).1
      rw [if_pos ⟨hk, hk'⟩, atOr_of_lt hlast, atOr_of_lt hlast,
        ← atOr_raise hsI _ (nofun : false = true → _), hrest]
      unfold raise
      rw [if_neg Bool.false_ne_true]
      split_ifs <;> rw [atOr_cons, atOr_cons, if_pos hk, if_pos hk]
    · -- after: there is a node at the end of the interval, or at its beginning if that is later
      have hk' := le_of_not_gt hk'
      rw [if_neg fun hin ↦ hk'.not_gt hin.2]
      rcases le_total lo hi with hle | hle
      · exact atOr_congr hsA (mem_filter.mpr ⟨hhi, by simpa using hle⟩)
          (fun n hn ↦ (hA n hn).2) hk' _ _
      · exact atOr_congr hsA (mem_filter.mpr ⟨hlo, by simpa using hle⟩)
          (fun n hn ↦ (hA n hn).1) hk _ _
  · -- before
    have hk := lt_of_not_ge hk
    have hinside : ∀ n ∈ N.filter (fun n ↦ lo ≤ n.1 && n.1 < hi), k < n.1 :=
      fun n hn ↦ hk.trans_le (hI n hn).1
    have hafter : ∀ n ∈ N.filter (fun n ↦ lo ≤ n.1 && hi ≤ n.1), k < n.1 :=
      fun n hn ↦ hk.trans_le (hA n hn).1
    rw [if_neg fun hin ↦ hk.not_ge hin.1, atOr_of_lt hafter, atOr_of_lt hafter,
      atOr_of_lt hinside, atOr_of_lt (lt_of_mem_raise hinside)]

end

end Insert

/-! ## Staircases -/

def empty : Staircase K V := ⟨[], .nil⟩

variable (s : Staircase K V)

/-- Lay a bar of height `h` over the interval from `lo` to `hi`. -/
def insert (lo hi : K) (h : ℕ) (v : V) : Staircase K V :=
  ⟨insertNodes s.nodes lo hi h v, insertNodes_sorted s.sorted⟩

/-- What is seen at `k`. -/
def view (k : K) : Step V := atOr none s.nodes k

def query (k : K) : Option V := (s.view k).map Prod.snd

def range (lo hi : K) : List (K × Option V) :=
  (s.nodes.filter fun n ↦ lo ≤ n.1 && n.1 < hi).map fun n ↦ (n.1, n.2.map Prod.snd)

variable {s} {lo hi k : K}

/-- **A bar shows within its interval, wherever it is higher than what was seen before.** -/
theorem view_insert {h : ℕ} {v : V} :
    (s.insert lo hi h v).view k = if lo ≤ k ∧ k < hi then cover h v (s.view k) else s.view k :=
  atOr_insertNodes s.sorted

theorem view_of_mem (hn : n ∈ s.nodes) : s.view n.1 = n.2 := by
  obtain ⟨before, after, heq⟩ := append_of_mem hn
  have hs := s.sorted
  rw [heq] at hs
  have hafter := (pairwise_cons.mp (pairwise_append.mp hs).2.1).1
  rw [view, heq, atOr_append, atOr_cons, if_pos le_rfl, atOr_of_lt hafter]

theorem of_mem_range {c : K × Option V} (hc : c ∈ s.range lo hi) :
    lo ≤ c.1 ∧ c.1 < hi ∧ s.query c.1 = c.2 := by
  obtain ⟨n, hn, rfl⟩ := mem_map.mp hc
  obtain ⟨hn, hin⟩ := mem_filter.mp hn
  simp only [Bool.and_eq_true, decide_eq_true_eq] at hin
  exact ⟨hin.1, hin.2, by rw [query, view_of_mem hn]⟩

theorem range_sorted : (s.range lo hi).Pairwise (·.1 < ·.1) :=
  pairwise_map.mpr (s.sorted.filter _)

/-! ## Following the changes -/

/-- What is seen at a point, going along the changes, if `d` is seen before the first one. -/
def follow (d : Option V) : List (K × Option V) → K → Option V
  | [], _ => d
  | c :: cs, k => if c.1 ≤ k then follow c.2 cs k else d

theorem follow_of_lt {d : Option V} {cs : List (K × Option V)} (h : ∀ c ∈ cs, k < c.1) :
    follow d cs k = d := by
  cases cs with
  | nil => rfl
  | cons c cs => exact if_neg (h c mem_cons_self).not_ge

theorem follow_nodes (d : Step V) {nodes : List (K × Step V)} (hs : nodes.Pairwise (·.1 < ·.1)) :
    follow (d.map Prod.snd) (nodes.map fun n ↦ (n.1, n.2.map Prod.snd)) k =
      (atOr d nodes k).map Prod.snd := by
  induction nodes generalizing d with
  | nil => rfl
  | cons n nodes ih =>
    obtain ⟨hn, hs⟩ := pairwise_cons.mp hs
    rw [map_cons, follow, atOr_cons]
    split_ifs with h
    · exact ih n.2 hs
    · rw [atOr_of_lt fun m hm ↦ (lt_of_not_ge h).trans (hn m hm)]

/-- The nodes before an interval matter only by what is seen at its beginning, and those after it do
not matter at all. -/
theorem atOr_eq_atOr_filter {nodes : List (K × Step V)}
    (hs : nodes.Pairwise (·.1 < ·.1)) (d : Step V) (hk : lo ≤ k) (hk' : k < hi) : atOr d nodes k =
      atOr (atOr d nodes lo) (nodes.filter fun n ↦ lo ≤ n.1 && n.1 < hi) k := by
  induction nodes generalizing d with
  | nil => rfl
  | cons n nodes ih =>
    obtain ⟨hn, hs⟩ := pairwise_cons.mp hs
    have ih := ih hs (if n.1 ≤ k then n.2 else d)
    rcases lt_or_ge n.1 lo with hlt | hge
    · rw [filter_cons_of_neg (by simp [hlt]), atOr_cons, atOr_cons, if_pos hlt.le, ih,
        if_pos (hlt.le.trans hk)]
    · -- from here on the nodes are behind the beginning
      have hbehind (x : Step V) : atOr x nodes lo = x := atOr_of_lt fun m hm ↦
        hge.trans_lt (hn m hm)
      rw [hbehind] at ih
      rcases lt_or_ge n.1 hi with hlt | hge'
      · rw [filter_cons_of_pos (by simp [hge, hlt]), atOr_cons, atOr_cons, atOr_cons, hbehind, ih]
        congr 1
        split_ifs with h h'
        · rfl
        · exact absurd (h'.trans hk) h
        · rfl
      · have hlt := hk'.trans_le hge'
        rw [filter_cons_of_neg (by simp [hge']), atOr_cons, atOr_cons, hbehind, ih,
          if_neg hlt.not_ge, if_neg (hk.trans_lt hlt).not_ge]

/-- **What is seen inside an interval is found by following its changes from its beginning.** -/
theorem query_eq_follow (hk : lo ≤ k) (hk' : k < hi) :
    s.query k = follow (s.query lo) (s.range lo hi) k := by
  rw [range, query, query, follow_nodes _ (s.sorted.filter _), view, view,
    atOr_eq_atOr_filter s.sorted none hk hk']

end Staircase

end NeonStorage
