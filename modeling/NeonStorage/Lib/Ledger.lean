import Mathlib.Order.Nat

/-!
# Numbers issued by a counter

A counter that gives each new number to one holder. The ledger remembers who got which number; a
number has at most one holder, and no number is issued twice.
-/

namespace NeonStorage

/-- The numbers issued so far, none above `last`. -/
structure Ledger (ι : Type*) where
  last : ℕ
  holder : ℕ → Option ι
  le_last : ∀ {k i}, holder k = some i → k ≤ last

namespace Ledger

variable {ι : Type*} {l : Ledger ι} {i j : ι} {k : ℕ}

def empty (last : ℕ) : Ledger ι := ⟨last, fun _ ↦ none, nofun⟩

def Holds (l : Ledger ι) (i : ι) (k : ℕ) : Prop := l.holder k = some i

theorem Holds.eq (h : l.Holds i k) (h' : l.Holds j k) : i = j :=
  Option.some.inj (.trans (Eq.symm h) h')

/-- The next number goes to `i`. -/
def issue (l : Ledger ι) (i : ι) : Ledger ι where
  last := l.last + 1
  holder := Function.update l.holder (l.last + 1) (some i)
  le_last := by
    intro k j hk
    rcases eq_or_ne k (l.last + 1) with rfl | hne
    · exact Nat.le_refl _
    · rw [Function.update_of_ne hne] at hk
      exact (l.le_last hk).trans (Nat.le_succ _)

theorem holds_issue : (l.issue i).Holds i (l.last + 1) := by
  simp [Holds, issue]

theorem Holds.issue (h : l.Holds j k) (i : ι) : (l.issue i).Holds j k := by
  have hne : k ≠ l.last + 1 := (Nat.lt_succ_of_le (l.le_last h)).ne
  simpa [Holds, Ledger.issue, hne] using h

end Ledger

end NeonStorage
