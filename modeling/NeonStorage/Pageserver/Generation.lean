import Mathlib.Data.Nat.Notation
import Mathlib.Order.Notation

/-!
# Generations and shard indices

The two parts of a remote path that tell apart the layers of one name: the generation of the
attachment in which a layer was written, and the shard that wrote it.
-/

namespace NeonStorage.Pageserver

/-- The generation of a tenant's attachment. Layers from before generations have `none`. -/
inductive Generation where
  | none
  | valid (v : ℕ)
  deriving DecidableEq

namespace Generation

/-- The generation before this one; before `0` a tenant had none. -/
def previous : Generation → Generation
  | none => none
  | valid 0 => none
  | valid (n + 1) => valid n

def next : Generation → Generation
  | none => valid 1
  | valid n => valid (n + 1)

/-- The derived order: no generation comes before every valid one. -/
def lt : Generation → Generation → Bool
  | none, none => false
  | none, valid _ => true
  | valid _, none => false
  | valid m, valid n => m < n

theorem next_previous {g : Generation} (h : g.previous ≠ none) : g.previous.next = g := by
  cases g with
  | none => exact absurd rfl h
  | valid n =>
    cases n with
    | zero => exact absurd rfl h
    | succ n => rfl

end Generation

/-- A shard of a tenant: its number, and how many there are. -/
structure ShardIndex where
  shardNumber : UInt8
  shardCount : UInt8
  deriving DecidableEq

end NeonStorage.Pageserver
