import NeonStorage.Pageserver.Key

/-!
# Which shard holds a key, and which one the compute asks

The pageserver places a key by `key_to_shard_number`; the compute sends a request for a block to
`get_shard_number` of its buffer tag. Both hash the relation and the stripe of the block. The
pageserver also keeps some keys on shard zero whatever their hash, and the compute does not know
of that rule.
-/

namespace NeonStorage.Pageserver

/-! ## The hash, as the pageserver computes it -/

def murmurhash32 (h : UInt32) : UInt32 :=
  let h := h ^^^ (h >>> 16)
  let h := h * 0x85ebca6b
  let h := h ^^^ (h >>> 13)
  let h := h * 0xc2b2ae35
  h ^^^ (h >>> 16)

def hashCombine (a b : UInt32) : UInt32 :=
  let b := b + 0x9e3779b9
  let b := b + (a <<< 6)
  let b := b + (a >>> 2)
  a ^^^ b

/-! ## Shards of a tenant -/

structure ShardParameters where
  count : UInt8
  stripeSize : UInt32
  count_ne_zero : count ≠ 0
  stripeSize_ne_zero : stripeSize ≠ 0

def keyIsShard0 (key : Key) : Bool :=
  let isInitfork := key.field5 == initForknum
  !key.isRelBlockKey || isInitfork

/-- A count of zero is a tenant that is not sharded at all. -/
def keyToShardNumber (count : UInt8) (stripeSize : UInt32) (key : Key) : UInt8 :=
  if count < 2 || keyIsShard0 key then 0
  else
    let hash := murmurhash32 key.field4
    let hash := hashCombine hash (murmurhash32 (key.field6 / stripeSize))
    (hash % count.toUInt32).toUInt8

/-- A shard as it knows itself: not sharded, or one of `count`. -/
structure ShardIdentity where
  number : UInt8
  count : UInt8
  stripeSize : UInt32
  valid : (number = 0 ∧ count = 0) ∨ (number < count ∧ stripeSize ≠ 0)

namespace ShardIdentity

/-- The identity of a tenant that is not sharded, with the default stripe size. -/
def unsharded : ShardIdentity := ⟨0, 0, 2048, .inl ⟨rfl, rfl⟩⟩

def isKeyLocal (self : ShardIdentity) (key : Key) : Bool :=
  if self.count < 2 || (keyIsShard0 key && self.number == 0) then true
  else keyToShardNumber self.count self.stripeSize key == self.number

def isKeyGlobal (key : Key) : Bool :=
  if key.isSlruBlockKey || key.isSlruSegmentSizeKey || key.isAuxFileKey || key.isSlruDirKey then
    false
  else if key.isRelBlockKey then false
  else if key.isRelSizeKey then true
  else true

def isKeyDisposable (self : ShardIdentity) (key : Key) : Bool :=
  if self.count < 2 then false
  else if isKeyGlobal key then false
  else !self.isKeyLocal key

end ShardIdentity

end NeonStorage.Pageserver
