import Mathlib.Algebra.BigOperators.Group.List.Basic
import Mathlib.Data.List.Flatten
import NeonStorage.Lib.BinarySearch
import Mathlib.Algebra.GroupWithZero.Nat

/-!
# Search trees in numbered pages

A page has a level and a list of entries. On the lowest level an entry is a key with its value, and
above it an entry is the first key of a subtree with the number of the page where the subtree
begins.

* `Kept` says that a subtree is in the pages; its contents are a list of keys and values.
* `walk` is the loop of a visitor with a stack of pages, in which the entries of a page that are
  still to be visited are kept as a list of indices.
* `walk_forward` and `walk_backward`: from any key, the walk visits just the pairs from the key on
  in ascending order, or those up to the key in descending order.
-/

namespace NeonStorage.SearchTree

open List Option
open BinarySearch

variable {K S : Type}

structure Page (K : Type) where
  level : ℕ
  entries : List (K × ℕ)

/-- A subtree: its first key, the number of its page (below the lowest level: the value), its pairs
and the number of its pages. -/
structure Subtree (K : Type) where
  key : K
  num : ℕ
  pairs : List (K × ℕ)
  size : ℕ

open Subtree

def Subtree.entry (s : Subtree K) : K × ℕ := (s.key, s.num)

/-- The subtree is in the pages, the first of which is on the level below the given one. -/
def Kept (pages : ℕ → Option (Page K)) : ℕ → Subtree K → Prop
  | 0, s => s.pairs = [(s.key, s.num)] ∧ s.size = 0
  | level + 1, s => ∃ subs : List (Subtree K),
      pages s.num = some ⟨level, subs.map entry⟩ ∧ (∀ c ∈ subs, Kept pages level c) ∧
      subs.head?.map key = some s.key ∧ s.pairs = subs.flatMap pairs ∧
      s.size = 1 + (subs.map size).sum

section Kept

variable {pages pages' : ℕ → Option (Page K)} {level : ℕ} {s : Subtree K}

section

variable (h : Kept pages level s)
include h

theorem Kept.mono (hpages : ∀ n p, pages n = some p → pages' n = some p) : Kept pages' level s := by
  induction level generalizing s with
  | zero => exact h
  | succ level ih =>
    obtain ⟨subs, hpage, hsubs, hrest⟩ := h
    exact ⟨subs, hpages _ _ hpage, fun c hc ↦ ih (hsubs c hc), hrest⟩

theorem Kept.head : ∃ v rest, s.pairs = (s.key, v) :: rest := by
  induction level generalizing s with
  | zero => exact ⟨s.num, [], h.1⟩
  | succ level ih =>
    obtain ⟨subs, -, hsubs, hhead, hpairs, -⟩ := h
    cases subs with
    | nil => cases hhead
    | cons c subs =>
      obtain ⟨v, rest, hc⟩ := ih (hsubs c mem_cons_self)
      have hkey : c.key = s.key := some.inj hhead
      refine ⟨v, rest ++ subs.flatMap pairs, ?_⟩
      rw [hpairs, flatMap_cons, hc, hkey, cons_append]

theorem Kept.key_mem : ∃ v, (s.key, v) ∈ s.pairs := by
  obtain ⟨v, rest, hpairs⟩ := h.head
  exact ⟨v, hpairs ▸ mem_cons_self⟩

end

variable {subs : List (Subtree K)}

theorem map_entry_of_kept_zero (hsubs : ∀ c ∈ subs, Kept pages 0 c) :
    subs.map entry = subs.flatMap pairs := by
  induction subs with
  | nil => rfl
  | cons c subs ih =>
    rw [map_cons, flatMap_cons, ih (forall_mem_cons.mp hsubs).2, (hsubs c mem_cons_self).1]
    rfl

def Subtree.node (key : K) (num : ℕ) (subs : List (Subtree K)) : Subtree K :=
  ⟨key, num, subs.flatMap pairs, 1 + (subs.map size).sum⟩

theorem Kept.node {num : ℕ} (hne : subs ≠ [])
    (hpage : pages num = some ⟨level, subs.map entry⟩) (hsubs : ∀ c ∈ subs, Kept pages level c) :
    Kept pages (level + 1) (.node (subs.head hne).key num subs) :=
  ⟨subs, hpage, hsubs, by rw [head?_eq_some_head hne]; rfl, rfl, rfl⟩

end Kept

/-! ### Loading a tree from sorted pairs

While a tree is loaded, each level has a page that is not written yet. A frame is the list of
subtrees in such a page; the frame of the lowest level comes first. -/

section Load

variable {level : ℕ} {s : Subtree K} {subs : List (Subtree K)} {frames : List (List (Subtree K))}

def contents : List (List (Subtree K)) → List (K × ℕ)
  | [] => []
  | subs :: frames => contents frames ++ subs.flatMap pairs

/-- The number of pages that the subtrees in some frames have. -/
def pageCount (frames : List (List (Subtree K))) : ℕ := (frames.flatten.map size).sum

/-- Each page of the subtree has at least two entries. -/
structure Full (level : ℕ) (s : Subtree K) : Prop where
  two_pow_le : 2 ^ level ≤ s.size + 1
  size_lt : s.size < s.pairs.length

theorem pageCount_cons : pageCount (subs :: frames) = (subs.map size).sum + pageCount frames := by
  simp [pageCount]

section

variable (h : ∀ c ∈ subs, Full level c)
include h

theorem sum_size_add_length_le :
    (subs.map size).sum + subs.length ≤ (subs.flatMap pairs).length := by
  induction subs with
  | nil => rfl
  | cons c subs ih =>
    have hc := (h c mem_cons_self).size_lt
    have := ih (forall_mem_cons.mp h).2
    simp only [map_cons, sum_cons, length_cons, flatMap_cons, length_append]
    omega

theorem two_pow_mul_le : 2 ^ level * subs.length ≤ (subs.map size).sum + subs.length := by
  induction subs with
  | nil => simp
  | cons c subs ih =>
    have hc := (h c mem_cons_self).two_pow_le
    have := ih (forall_mem_cons.mp h).2
    simp only [map_cons, sum_cons, length_cons, Nat.mul_succ]
    omega

theorem Full.node {key : K} {num : ℕ} (htwo : 2 ≤ subs.length) :
    Full (level + 1) (.node key num subs) where
  two_pow_le := by
    have hmul := Nat.mul_le_mul_left (2 ^ level - 1) htwo
    have hle := two_pow_mul_le h
    rw [Nat.sub_mul, Nat.sub_mul, Nat.one_mul, Nat.one_mul] at hmul
    simp only [Subtree.node]
    omega
  size_lt := by
    have := sum_size_add_length_le h
    simp only [Subtree.node]
    omega

theorem two_pow_le_pageCount (hne : subs ≠ []) (frames : List (List (Subtree K))) :
    2 ^ level ≤ pageCount (subs :: frames) + 1 := by
  cases subs with
  | nil => exact absurd rfl hne
  | cons c subs =>
    have := (h c mem_cons_self).two_pow_le
    rw [pageCount_cons, map_cons, sum_cons]
    omega

end

end Load

/-! ### The walk -/

def visitAll (visit : S → K → ℕ → S × Bool) : List (K × ℕ) → S → S × Bool
  | [], s => (s, true)
  | p :: ps, s => if (visit s p.1 p.2).2 then visitAll visit ps (visit s p.1 p.2).1
    else ((visit s p.1 p.2).1, false)

theorem visitAll_append (visit : S → K → ℕ → S × Bool) (ps qs : List (K × ℕ)) (s : S) :
    visitAll visit (ps ++ qs) s =
      if (visitAll visit ps s).2 then visitAll visit qs (visitAll visit ps s).1
      else visitAll visit ps s := by
  induction ps generalizing s with
  | nil => rfl
  | cons p ps ih =>
    rw [cons_append, visitAll, visitAll]
    by_cases h : (visit s p.1 p.2).2 = true
    · rw [if_pos h, if_pos h, ih]
    · rw [if_neg h, if_neg h]
      rfl

variable (pages : ℕ → Option (Page K)) (starts : Page K → Option (List ℕ))
  (visit : S → K → ℕ → S × Bool)

/-- The loop over a stack of pages with the indices that are still to be visited; `starts` gives
those of a new page, or ends the walk. No result if a page or an entry is missing, or the fuel runs
out. -/
def walk : ℕ → List (ℕ × Option (List ℕ)) → S → Option (S × Bool)
  | _, [], s => some (s, true)
  | 0, _ :: _, _ => none
  | fuel + 1, (n, todo) :: stack, s =>
    match pages n with
    | none => none
    | some page =>
      match todo.or (starts page) with
      | none => some (s, false)
      | some indices =>
        if page.level = 0 then
          if ∀ i ∈ indices, i < page.entries.length then
            let (s, goOn) := visitAll visit (indices.filterMap (page.entries[·]?)) s
            if goOn then walk fuel stack s else some (s, false)
          else none
        else
          match indices with
          | [] => walk fuel stack s
          | i :: indices =>
            match page.entries[i]? with
            | none => none
            | some e => walk fuel ((e.2, none) :: (n, some indices) :: stack) s

/-- What follows a visit of some pairs: the rest of the walk, unless the visitor asked to stop. -/
def resume (r : S × Bool) (rest : S → Option (S × Bool)) : Option (S × Bool) :=
  if r.2 then rest r.1 else some r

variable {pages starts visit}

theorem resume_visitAll_append (ps qs : List (K × ℕ)) (s : S) (rest : S → Option (S × Bool)) :
    resume (visitAll visit (ps ++ qs) s) rest =
      resume (visitAll visit ps s) fun s ↦ resume (visitAll visit qs s) rest := by
  rw [visitAll_append]
  by_cases h : (visitAll visit ps s).2 = true
  · rw [if_pos h, resume.eq_def (visitAll visit ps s), if_pos h]
  · rw [if_neg h, resume, resume, if_neg h, if_neg h]

variable (pages starts visit) in
/-- A walk that comes to page `num` visits the pairs `ps` before it goes on. -/
def Walks (num : ℕ) (ps : List (K × ℕ)) : Prop :=
  ∃ n, ∀ fuel stack s, walk pages starts visit (fuel + n) ((num, none) :: stack) s =
    resume (visitAll visit ps s) (walk pages starts visit fuel stack)

variable {indices : List ℕ}

theorem walks_leaf {num : ℕ} {entries : List (K × ℕ)}
    (hpage : pages num = some ⟨0, entries⟩) (hstarts : starts ⟨0, entries⟩ = some indices)
    (hindices : ∀ i ∈ indices, i < entries.length) :
    Walks pages starts visit num (indices.filterMap (entries[·]?)) := by
  refine ⟨1, fun fuel stack s ↦ ?_⟩
  simp only [walk, hpage, hstarts, none_or, if_true, resume]
  split_ifs with h
  · rfl
  · rw [← Bool.eq_false_iff.mpr h]

variable {out : Subtree K → List (K × ℕ)} {subs : List (Subtree K)}

theorem walk_indices {num level : ℕ}
    (hpage : pages num = some ⟨level + 1, subs.map entry⟩) (indices : List ℕ)
    (hindices : ∀ i ∈ indices, ∃ c, subs[i]? = some c ∧ Walks pages starts visit c.num (out c)) :
    ∃ n, ∀ fuel stack s, walk pages starts visit (fuel + n) ((num, some indices) :: stack) s =
      resume (visitAll visit ((indices.filterMap (subs[·]?)).flatMap out) s)
        (walk pages starts visit fuel stack) := by
  induction indices with
  | nil =>
    refine ⟨1, fun fuel stack s ↦ ?_⟩
    simp [walk, hpage, resume, visitAll]
  | cons i indices ih =>
    obtain ⟨c, hc, m, hm⟩ := hindices i mem_cons_self
    obtain ⟨n, hn⟩ := ih (forall_mem_cons.mp hindices).2
    refine ⟨n + m + 1, fun fuel stack s ↦ ?_⟩
    rw [filterMap_cons_some hc, flatMap_cons, resume_visitAll_append, ← Nat.add_assoc, walk, hpage]
    simp only [some_or, Nat.add_one_ne_zero, if_false, getElem?_map, hc, map_some]
    rw [← Nat.add_assoc, entry, hm]
    exact congrArg _ (funext fun s ↦ hn fuel stack s)

theorem walks_upper {num level : ℕ} (hpage : pages num = some ⟨level + 1, subs.map entry⟩)
    (hstarts : starts ⟨level + 1, subs.map entry⟩ = some indices)
    (hindices : ∀ i ∈ indices, ∃ c, subs[i]? = some c ∧ Walks pages starts visit c.num (out c)) :
    Walks pages starts visit num ((indices.filterMap (subs[·]?)).flatMap out) := by
  obtain ⟨n, hn⟩ := walk_indices hpage indices hindices
  -- Of a page that was just reached the loop makes a page with indices.
  have hnone (fuel : ℕ) (stack : List (ℕ × Option (List ℕ))) (s : S) :
      walk pages starts visit fuel ((num, none) :: stack) s =
        walk pages starts visit fuel ((num, some indices) :: stack) s := by
    cases fuel with
    | zero => rfl
    | succ fuel => simp only [walk, hpage, hstarts, none_or, some_or]
  exact ⟨n, fun fuel stack s ↦ by rw [hnone, hn]⟩

/-! ### Positions in lists -/

theorem filterMap_getElem?_range' {α : Type} (l : List α) (i : ℕ) :
    (List.range' i (l.length - i)).filterMap (l[·]?) = l.drop i := by
  induction hn : l.length - i generalizing i with
  | zero => rw [drop_eq_nil_of_le (by omega), range'_zero, filterMap_nil]
  | succ n ih =>
    have hlt : i < l.length := by omega
    rw [range'_succ, filterMap_cons_some (getElem?_eq_getElem hlt), ih (i + 1) (by omega),
      ← drop_eq_getElem_cons hlt]

theorem filterMap_getElem?_range {α : Type} (l : List α) (n : ℕ) :
    (List.range n).filterMap (l[·]?) = l.take n := by
  induction n with
  | zero => rfl
  | succ n ih =>
    rw [range_succ, filterMap_append, ih, take_add_one]
    cases h : l[n]? with
    | none => simp [h]
    | some a => simp [h]

/-! ### From a key onwards, or backwards -/

variable [LinearOrder K] (x : K)

/-- Forwards, a leaf is read from the first key that is not less, and an upper page from the last
key that is not greater. -/
def forwards (page : Page K) : Option (List ℕ) :=
  let i := if page.level = 0 then page.entries.countP (·.1 < x)
    else page.entries.countP (·.1 ≤ x) - 1
  some (List.range' i (page.entries.length - i))

/-- Backwards, a page is read from the last key that is not greater; without one the walk ends. -/
def backwards (page : Page K) : Option (List ℕ) :=
  let n := page.entries.countP (·.1 ≤ x)
  if n = 0 then none else some (List.range n).reverse

variable {x} {level : ℕ} {s : Subtree K} {subs : List (Subtree K)}

theorem pairwise_keys (hsubs : ∀ c ∈ subs, Kept pages level c)
    (hsorted : (subs.flatMap pairs).Pairwise (·.1 < ·.1)) :
    subs.Pairwise fun a b ↦ ∀ p ∈ a.pairs, p.1 < b.key := by
  refine (pairwise_flatMap.mp hsorted).2.imp_of_mem fun {a b} _ hb hlt p hp ↦ ?_
  obtain ⟨v, rest, hpairs⟩ := (hsubs b hb).head
  exact hlt p hp (b.key, v) (hpairs ▸ mem_cons_self)

theorem Kept.key_le (h : Kept pages level s) (hsorted : s.pairs.Pairwise (·.1 < ·.1))
    {p : K × ℕ} (hp : p ∈ s.pairs) : s.key ≤ p.1 := by
  obtain ⟨v, rest, hpairs⟩ := h.head
  rw [hpairs] at hsorted hp
  rcases mem_cons.mp hp with rfl | hp
  · exact le_rfl
  · exact (rel_of_pairwise_cons hsorted hp).le

section

variable (hsubs : ∀ c ∈ subs, Kept pages level c)
  (hsorted : (subs.flatMap pairs).Pairwise (·.1 < ·.1))
include hsubs hsorted

theorem sorted_keys : subs.Pairwise (·.key < ·.key) := by
  refine (pairwise_keys hsubs hsorted).imp_of_mem fun {a b} ha _ hlt ↦ ?_
  obtain ⟨v, hv⟩ := (hsubs a ha).key_mem
  exact hlt _ hv

/-- The subtrees before the last one whose key is not greater hold no pair from `x` on. -/
theorem filter_drop_forwards :
    ((subs.drop (subs.countP (·.key ≤ x) - 1)).flatMap fun c ↦ c.pairs.filter (x ≤ ·.1)) =
      (subs.flatMap pairs).filter (x ≤ ·.1) := by
  obtain ⟨i, hi⟩ : ∃ i, subs.countP (·.key ≤ x) - 1 = i := ⟨_, rfl⟩
  have htake : (subs.take i).flatMap (fun c ↦ c.pairs.filter (x ≤ ·.1)) = [] := by
    rw [flatMap_eq_nil_iff]
    intro a ha
    rw [filter_eq_nil_iff]
    intro p hp
    have hpos : 0 < i := by
      by_contra h0
      rw [Nat.eq_zero_of_not_pos h0] at ha
      cases ha
    have hlt : i < subs.length := by
      have := countP_le_length (p := fun c : Subtree K ↦ decide (c.key ≤ x)) (l := subs)
      omega
    -- The subtree at `i` is one of those whose key is not greater, and comes after `a`.
    have hle : subs[i].key ≤ x := (lt_countP_le_iff (sorted_keys hsubs hsorted) hlt).mp (by omega)
    have hbefore : p.1 < subs[i].key := by
      obtain ⟨j, hj, rfl⟩ := mem_take_iff_getElem.mp ha
      exact pairwise_iff_getElem.mp (pairwise_keys hsubs hsorted) j i (by omega) hlt (by omega) p hp
    simpa using hbefore.trans_le hle
  rw [filter_flatMap, hi]
  conv_rhs => rw [← take_append_drop i subs, flatMap_append, htake, nil_append]

end

/-- **From a key onwards, the walk of a subtree visits the pairs from the key on.** -/
theorem walks_forwards (h : Kept pages (level + 1) s) (hsorted : s.pairs.Pairwise (·.1 < ·.1)) :
    Walks pages (forwards x) visit s.num (s.pairs.filter (x ≤ ·.1)) := by
  induction level generalizing s with
  | zero =>
    obtain ⟨subs, hpage, hsubs, -, hpairs, -⟩ := h
    rw [map_entry_of_kept_zero hsubs, ← hpairs] at hpage
    have hout : s.pairs.filter (x ≤ ·.1) =
        (List.range' (s.pairs.countP (·.1 < x))
          (s.pairs.length - s.pairs.countP (·.1 < x))).filterMap
          (s.pairs[·]?) := by
      rw [filterMap_getElem?_range', ← filter_not_eq_drop_countP (down_lt x hsorted)]
      simp only [← decide_not, not_lt]
    rw [hout]
    refine walks_leaf hpage rfl fun i hi ↦ ?_
    have := mem_range'_1.mp hi
    omega
  | succ level ih =>
    obtain ⟨subs, hpage, hsubs, -, hpairs, -⟩ := h
    rw [hpairs] at hsorted ⊢
    obtain ⟨i, hi⟩ : ∃ i, subs.countP (·.key ≤ x) - 1 = i := ⟨_, rfl⟩
    have hstarts : forwards x ⟨level + 1, subs.map entry⟩ =
        some (List.range' i (subs.length - i)) := by
      rw [forwards, if_neg (Nat.add_one_ne_zero _), countP_map, length_map, ← hi]
      rfl
    rw [← filter_drop_forwards hsubs hsorted, hi, ← filterMap_getElem?_range']
    refine walks_upper hpage hstarts fun j hj ↦ ?_
    have hlt : j < subs.length := by
      have := mem_range'_1.mp hj
      omega
    have hmem : subs[j] ∈ subs := getElem_mem hlt
    exact ⟨subs[j], getElem?_eq_getElem hlt,
      ih (hsubs _ hmem) ((pairwise_flatMap.mp hsorted).1 _ hmem)⟩

theorem filter_take_backwards (hsubs : ∀ c ∈ subs, Kept pages level c)
    (hsorted : (subs.flatMap pairs).Pairwise (·.1 < ·.1)) :
    ((subs.take (subs.countP (·.key ≤ x))).flatMap fun c ↦ c.pairs.filter (·.1 ≤ x)) =
      (subs.flatMap pairs).filter (·.1 ≤ x) := by
  have hdown := down_le x (sorted_keys hsubs hsorted)
  have hdrop : (subs.drop (subs.countP (·.key ≤ x))).flatMap (fun c ↦ c.pairs.filter (·.1 ≤ x)) =
      [] := by
    rw [← filter_not_eq_drop_countP hdown, flatMap_eq_nil_iff]
    intro c hc
    obtain ⟨hc, hgt⟩ := mem_filter.mp hc
    rw [filter_eq_nil_iff]
    intro p hp hle
    have hkey := (hsubs c hc).key_le ((pairwise_flatMap.mp hsorted).1 _ hc) hp
    simp [hkey.trans (of_decide_eq_true hle)] at hgt
  rw [filter_flatMap]
  conv_rhs => rw [← take_append_drop (subs.countP (·.key ≤ x)) subs, flatMap_append, hdrop,
    append_nil]

/-- **From a key backwards, the walk of a subtree visits the pairs up to the key**, the last one
first, if there is one. -/
theorem walks_backwards (h : Kept pages (level + 1) s) (hsorted : s.pairs.Pairwise (·.1 < ·.1))
    (hkey : s.key ≤ x) :
    Walks pages (backwards x) visit s.num (s.pairs.filter (·.1 ≤ x)).reverse := by
  induction level generalizing s with
  | zero =>
    obtain ⟨v, hv⟩ := h.key_mem
    obtain ⟨subs, hpage, hsubs, -, hpairs, -⟩ := h
    rw [map_entry_of_kept_zero hsubs, ← hpairs] at hpage
    have hpos : s.pairs.countP (·.1 ≤ x) ≠ 0 :=
      (countP_pos_iff.mpr ⟨_, hv, decide_eq_true hkey⟩).ne'
    rw [filter_eq_take_countP (down_le x hsorted), ← filterMap_getElem?_range, ← filterMap_reverse]
    refine walks_leaf hpage (if_neg hpos) fun i hi ↦ ?_
    exact (mem_range.mp (mem_reverse.mp hi)).trans_le countP_le_length
  | succ level ih =>
    obtain ⟨subs, hpage, hsubs, hhead, hpairs, -⟩ := h
    rw [hpairs] at hsorted ⊢
    obtain ⟨n, hn⟩ : ∃ n, subs.countP (·.key ≤ x) = n := ⟨_, rfl⟩
    have hpos : n ≠ 0 := by
      obtain ⟨c, hc, hckey⟩ := map_eq_some_iff.mp hhead
      rw [← hn]
      exact (countP_pos_iff.mpr ⟨c, mem_of_head? hc, decide_eq_true (hckey.trans_le hkey)⟩).ne'
    have hstarts : backwards x ⟨level + 1, subs.map entry⟩ = some (List.range n).reverse := by
      rw [backwards, countP_map]
      exact (if_neg (hn ▸ hpos)).trans (by rw [← hn]; rfl)
    rw [← filter_take_backwards hsubs hsorted, reverse_flatMap, hn, ← filterMap_getElem?_range,
      ← filterMap_reverse]
    refine walks_upper hpage hstarts fun j hj ↦ ?_
    have hjn : j < n := mem_range.mp (mem_reverse.mp hj)
    have hlt : j < subs.length := hjn.trans_le (hn ▸ countP_le_length)
    have hmem : subs[j] ∈ subs := getElem_mem hlt
    have hle : subs[j].key ≤ x :=
      (lt_countP_le_iff (sorted_keys hsubs hsorted) hlt).mp (hjn.trans_eq hn.symm)
    exact ⟨subs[j], getElem?_eq_getElem hlt,
      ih (hsubs _ hmem) ((pairwise_flatMap.mp hsorted).1 _ hmem) hle⟩

theorem walk_backwards_of_lt (h : Kept pages (level + 1) s) (hsorted : s.pairs.Pairwise (·.1 < ·.1))
    (hkey : x < s.key) (fuel : ℕ) (stack : List (ℕ × Option (List ℕ))) (σ : S) :
    walk pages (backwards x) visit (fuel + 1) ((s.num, none) :: stack) σ = some (σ, false) := by
  obtain ⟨subs, hpage, hsubs, -, hpairs, -⟩ := id h
  have hnone : (subs.map entry).countP (·.1 ≤ x) = 0 := by
    rw [countP_map, countP_eq_zero]
    intro c hc hle
    obtain ⟨v, hv⟩ := (hsubs c hc).key_mem
    have hge := h.key_le hsorted (hpairs ▸ mem_flatMap.mpr ⟨c, hc, hv⟩)
    exact (hkey.trans_le hge).not_ge (of_decide_eq_true hle)
  simp only [walk, hpage, backwards, hnone, if_true, none_or]

end NeonStorage.SearchTree
