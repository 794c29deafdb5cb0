import Mathlib.Algebra.Order.Group.Nat
import Mathlib.Data.List.Basic
import Mathlib.Data.List.TakeWhile

/-!
# Term histories

A replicated log whose records carry no term is described by its *history*: the list of term
switches, each with the position at which the term began to write. The term that wrote a position
is the term of the last switch at or below it.

`Covers H h X` is the notion on which the consensus argument rests: the log with history `H`
contains the log with history `h` up to the position `X`. It asks that `h` is a prefix of `H` and
that the first switch behind it does not come before `X`; in particular a history covers itself
up to every position.
-/

namespace NeonStorage

open List

/-- A switch to the term `term`, which writes from `lsn` on. -/
structure Epoch where
  term : ℕ
  lsn : ℕ
  deriving DecidableEq

namespace History

def upTo (h : List Epoch) (l : ℕ) : List Epoch := h.takeWhile fun e ↦ e.lsn ≤ l

def lastTerm (h : List Epoch) : ℕ :=
  match h.getLast? with
  | some e => e.term
  | none => 0

def start (h : List Epoch) : ℕ :=
  match h with
  | e :: _ => e.lsn
  | [] => 0

theorem start_of_head? {h : List Epoch} {e : Epoch} (he : h.head? = some e) : start h = e.lsn := by
  obtain ⟨t, rfl⟩ := head?_eq_some_iff.mp he
  rfl

def Sorted (h : List Epoch) : Prop := h.Pairwise fun a b ↦ a.term < b.term ∧ a.lsn ≤ b.lsn
  deriving Decidable

/-- The log with history `H` contains the log with history `h` up to `X`. -/
def Covers (H h : List Epoch) (X : ℕ) : Prop :=
  h <+: H ∧ ∀ e, H[h.length]? = some e → X ≤ e.lsn

variable {H h : List Epoch} {X l x : ℕ} {e : Epoch}

/-! ## Truncated histories -/

theorem upTo_isPrefix (h : List Epoch) (l : ℕ) : upTo h l <+: h := takeWhile_prefix _

theorem lsn_le_of_mem_upTo (he : e ∈ upTo h l) : e.lsn ≤ l := by
  simpa using mem_takeWhile_imp he

theorem lt_lsn_of_upTo (he : h[(upTo h l).length]? = some e) : l < e.lsn := by
  induction h with
  | nil => simp at he
  | cons a t ih =>
    by_cases ha : a.lsn ≤ l
    · have : upTo (a :: t) l = a :: upTo t l := by simp [upTo, ha]
      rw [this] at he
      exact ih (by simpa using he)
    · have : upTo (a :: t) l = [] := by simp [upTo, ha]
      rw [this] at he
      have hae : a = e := by simpa using he
      subst hae
      omega

/-! ## Sorted histories -/

theorem Sorted.of_isPrefix (hH : Sorted H) (hp : h <+: H) : Sorted h := hH.sublist hp.sublist

variable {a b : Epoch} {i j : ℕ}

theorem Sorted.lsn_le_of_getElem? (hH : Sorted H) (hij : i ≤ j)
    (ha : H[i]? = some a) (hb : H[j]? = some b) : a.lsn ≤ b.lsn := by
  rcases hij.eq_or_lt with rfl | hlt
  · cases ha.symm.trans hb
    rfl
  · obtain ⟨hi, rfl⟩ := List.getElem?_eq_some_iff.mp ha
    obtain ⟨hj, rfl⟩ := List.getElem?_eq_some_iff.mp hb
    exact (pairwise_iff_getElem.mp hH i j hi hj hlt).2

theorem Sorted.term_lt_of_getElem? (hH : Sorted H) (hij : i < j)
    (ha : H[i]? = some a) (hb : H[j]? = some b) : a.term < b.term := by
  obtain ⟨hi, rfl⟩ := List.getElem?_eq_some_iff.mp ha
  obtain ⟨hj, rfl⟩ := List.getElem?_eq_some_iff.mp hb
  exact (pairwise_iff_getElem.mp hH i j hi hj hij).1

theorem Sorted.index_unique (hH : Sorted H) (ha : H[i]? = some a)
    (hb : H[j]? = some b) (hab : a.term = b.term) : i = j := by
  rcases Nat.lt_trichotomy i j with hlt | heq | hgt
  · have := hH.term_lt_of_getElem? hlt ha hb
    omega
  · exact heq
  · have := hH.term_lt_of_getElem? hgt hb ha
    omega

/-! ## Covering -/

theorem Covers.upTo_eq (hc : Covers H h X) (hx : x < X) : upTo H x = upTo h x := by
  obtain ⟨⟨r, rfl⟩, hnext⟩ := hc
  have hr : upTo r x = [] := by
    cases r with
    | nil => rfl
    | cons a t =>
      have : X ≤ a.lsn := hnext a (by simp)
      have ha : ¬a.lsn ≤ x := by omega
      simp [upTo, ha]
  unfold upTo at hr ⊢
  rw [takeWhile_append]
  split
  · rename_i hlen
    rw [hr, append_nil]
    exact (List.IsPrefix.eq_of_length ( takeWhile_prefix _) hlen).symm
  · rfl

end History

end NeonStorage
