import NeonStorage.Pageserver.Shard

/-!
# Compute and storage on the shard of a block

`get_shard_number` of the compute extension and `key_to_shard_number` of the pageserver agree on
every block that the pageserver does not keep on shard zero by rule. The blocks of an init fork are
kept there by rule; OrioleDB mirrors its map files into that fork and reads them back through the
storage manager, that is, through the compute's own hash.
-/

namespace NeonStorage.Compute

open Pageserver

structure BufferTag where
  spcOid : UInt32
  dbOid : UInt32
  relNumber : UInt32
  forkNum : UInt8
  blockNum : UInt32
  deriving DecidableEq

/-- The part of the shard map that routing depends on. -/
structure ShardMap where
  numShards : UInt16
  stripeSize : UInt64
  deriving DecidableEq

/-- `murmurhash32` of `common/hashfn.h`. -/
def murmurhash32 (data : UInt32) : UInt32 :=
  let h := data
  let h := h ^^^ (h >>> 16)
  let h := h * 0x85ebca6b
  let h := h ^^^ (h >>> 13)
  let h := h * 0xc2b2ae35
  h ^^^ (h >>> 16)

/-- `hash_combine` of `common/hashfn.h`. -/
def hashCombine (a b : UInt32) : UInt32 :=
  a ^^^ (b + (0x9e3779b9 : UInt32) + (a <<< 6) + (a >>> 2))

def getShardNumber (shardMap : ShardMap) (tag : BufferTag) : UInt16 :=
  let hash := murmurhash32 tag.relNumber
  let hash := hashCombine hash
    (murmurhash32 (tag.blockNum.toUInt64 / shardMap.stripeSize).toUInt32)
  (hash % shardMap.numShards.toUInt32).toUInt16

def BufferTag.ofBlock (rel : RelTag) (blknum : UInt32) : BufferTag :=
  ⟨rel.spcnode, rel.dbnode, rel.relnode, rel.forknum, blknum⟩

variable (p : ShardParameters)

/-- The shard map of a compute whose tenant has the given shards. -/
def ShardMap.ofParameters : ShardMap :=
  ⟨p.count.toUInt16, p.stripeSize.toUInt64⟩

/-! ## Both sides compute the same hash -/

theorem murmurhash32_eq (h : UInt32) : murmurhash32 h = Pageserver.murmurhash32 h := rfl

theorem hashCombine_eq (a b : UInt32) : hashCombine a b = Pageserver.hashCombine a b := rfl

theorem stripe_eq (blknum stripeSize : UInt32) :
    (blknum.toUInt64 / stripeSize.toUInt64).toUInt32 = blknum / stripeSize := by
  apply UInt32.toNat_inj.mp
  have := blknum.toNat_lt
  have hle : blknum.toNat / stripeSize.toNat ≤ blknum.toNat := Nat.div_le_self _ _
  simp only [UInt64.toNat_toUInt32, UInt64.toNat_div, UInt32.toNat_toUInt64]
  exact Nat.mod_eq_of_lt (by omega)

theorem toNat_getShardNumber (rel : RelTag) (blknum : UInt32) :
    (getShardNumber (.ofParameters p) (.ofBlock rel blknum)).toNat =
      (Pageserver.hashCombine (Pageserver.murmurhash32 rel.relnode)
        (Pageserver.murmurhash32 (blknum / p.stripeSize))).toNat % p.count.toNat := by
  have hcount : p.count.toNat ≠ 0 := fun h ↦ p.count_ne_zero (UInt8.toNat_inj.mp h)
  have hlt := p.count.toNat_lt
  simp only [getShardNumber, ShardMap.ofParameters, BufferTag.ofBlock, stripe_eq, murmurhash32_eq,
    hashCombine_eq, UInt32.toNat_toUInt16, UInt32.toNat_mod, UInt16.toNat_toUInt32,
    UInt8.toNat_toUInt16]
  exact Nat.mod_eq_of_lt ((Nat.mod_lt _ (Nat.pos_of_ne_zero hcount)).trans (by omega))

/-- On a block that is not kept on shard zero by rule, both sides agree. -/
theorem toNat_keyToShardNumber_of_not_shard0 (rel : RelTag) (blknum : UInt32)
    (h : keyIsShard0 (relBlockToKey rel blknum) = false) :
    (keyToShardNumber p.count p.stripeSize (relBlockToKey rel blknum)).toNat =
      (getShardNumber (.ofParameters p) (.ofBlock rel blknum)).toNat := by
  rw [toNat_getShardNumber]
  have hcount : p.count.toNat ≠ 0 := fun h ↦ p.count_ne_zero (UInt8.toNat_inj.mp h)
  have hlt := p.count.toNat_lt
  unfold keyToShardNumber
  by_cases hc : p.count < 2
  · have hone : p.count.toNat = 1 := by
      have : p.count.toNat < 2 := UInt8.lt_iff_toNat_lt.mp hc
      omega
    simp [hc, hone, Nat.mod_one]
  · rw [h, decide_eq_false hc]
    simp only [Bool.or_self, Bool.false_eq_true, if_false, UInt32.toNat_toUInt8, UInt32.toNat_mod,
      UInt8.toNat_toUInt32, relBlockToKey]
    exact Nat.mod_eq_of_lt ((Nat.mod_lt _ (Nat.pos_of_ne_zero hcount)).trans (by omega))

theorem keyIsShard0_relBlockToKey {rel : RelTag} (hrel : rel.relnode ≠ 0) (blknum : UInt32) :
    keyIsShard0 (relBlockToKey rel blknum) = true ↔
      rel.forknum = initForknum ∨ blknum = 0xffffffff := by
  simp only [keyIsShard0, relBlockToKey, Key.isRelBlockKey, Bool.or_eq_true, Bool.not_eq_true',
    Bool.and_eq_false_iff, beq_iff_eq, beq_self_eq_true, bne_eq_false_iff_eq,
    Bool.true_eq_false, false_or, hrel]
  tauto

/-- **Compute and storage agree on the shard of a block** exactly if the block is not kept on
shard zero by rule, or the number of shards divides the hash of its relation and stripe. -/
theorem getShardNumber_eq_keyToShardNumber_iff (p : ShardParameters) (rel : RelTag)
    (hrel : rel.relnode ≠ 0) (blknum : UInt32) :
    (getShardNumber (.ofParameters p) (.ofBlock rel blknum)).toNat =
        (keyToShardNumber p.count p.stripeSize (relBlockToKey rel blknum)).toNat ↔
      (rel.forknum ≠ initForknum ∧ blknum ≠ 0xffffffff) ∨
        p.count.toNat ∣ (hashCombine (murmurhash32 rel.relnode)
          (murmurhash32 (blknum / p.stripeSize))).toNat := by
  by_cases h : keyIsShard0 (relBlockToKey rel blknum) = true
  · have hzero : keyToShardNumber p.count p.stripeSize (relBlockToKey rel blknum) = 0 := by
      simp [keyToShardNumber, h]
    have hshard := (keyIsShard0_relBlockToKey hrel blknum).mp h
    rw [hzero, UInt8.toNat_zero, toNat_getShardNumber, ← Nat.dvd_iff_mod_eq_zero]
    exact (or_iff_right (by tauto)).symm
  · have hshard := mt (keyIsShard0_relBlockToKey hrel blknum).mpr h
    rw [toNat_keyToShardNumber_of_not_shard0 p rel blknum (by simpa using h)]
    tauto

/-- Block 0 of an init fork: the compute asks shard 1 of 2, the block is on shard 0. -/
theorem getShardNumber_ne_keyToShardNumber_initFork :
    getShardNumber (.ofParameters ⟨2, 2048, by decide, by decide⟩)
        (.ofBlock ⟨initForknum, 1663, 5, 16385⟩ 0) = 1 ∧
      keyToShardNumber 2 2048 (relBlockToKey ⟨initForknum, 1663, 5, 16385⟩ 0) = 0 := by
  decide

/-- Block 0 of a main fork, which both sides find on shard 1. -/
theorem getShardNumber_eq_keyToShardNumber_mainFork :
    (getShardNumber (.ofParameters ⟨2, 2048, by decide, by decide⟩)
        (.ofBlock ⟨mainForknum, 1663, 5, 16385⟩ 0)).toNat =
      (keyToShardNumber 2 2048 (relBlockToKey ⟨mainForknum, 1663, 5, 16385⟩ 0)).toNat ∧
    keyToShardNumber 2 2048 (relBlockToKey ⟨mainForknum, 1663, 5, 16385⟩ 0) = 1 :=
  ⟨(getShardNumber_eq_keyToShardNumber_iff ⟨2, 2048, by decide, by decide⟩
    ⟨mainForknum, 1663, 5, 16385⟩ (by decide) 0).mpr (.inl (by decide)), by decide⟩

end NeonStorage.Compute
