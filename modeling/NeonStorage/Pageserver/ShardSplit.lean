import Mathlib.Data.List.Nodup
import Mathlib.Data.List.Range
import Mathlib.Data.Nat.ModEq
import NeonStorage.Pageserver.Shard

/-!
# Splitting the shards of a tenant

`split` gives every shard the children that the keys it holds may go to. A key is placed by its hash
modulo the count, so that the shard which holds a key after the split is a child of the one that
held it before (`split_keeps_owner`).
-/

namespace NeonStorage.Pageserver

open List UInt8

/-! ## The owner of a key -/

variable (count : UInt8)

theorem toNat_max_one : (max count 1).toNat = max count.toNat 1 := by
  rw [show max count 1 = if count ≤ 1 then 1 else count from rfl]
  by_cases h : count ≤ 1
  · have hle : count.toNat ≤ 1 := le_iff_toNat_le.mp h
    rw [if_pos h, max_eq_right hle]
    rfl
  · rw [if_neg h, max_eq_left]
    exact (not_le.mp fun h' ↦ h (le_iff_toNat_le.mpr h')).le

variable (stripeSize : UInt32) (key : Key)

def shardHash : UInt32 :=
  hashCombine (murmurhash32 key.field4) (murmurhash32 (key.field6 / stripeSize))

/-- **A key goes to shard zero or to its hash modulo the count.** -/
theorem keyToShardNumber_toNat : (keyToShardNumber count stripeSize key).toNat =
      if keyIsShard0 key then 0 else (shardHash stripeSize key).toNat % max count.toNat 1 := by
  unfold keyToShardNumber
  cases hzero : keyIsShard0 key with
  | true => simp
  | false =>
    by_cases hcount : count < 2
    · have hlt : count.toNat < 2 := lt_iff_toNat_lt.mp hcount
      rw [max_eq_right (by omega : count.toNat ≤ 1)]
      simp [hcount, Nat.mod_one]
    · have hle : 2 ≤ count.toNat := not_lt.mp fun h ↦ hcount (lt_iff_toNat_lt.mpr h)
      have hmod : (shardHash stripeSize key).toNat % count.toNat < 256 :=
        (Nat.mod_lt _ (by omega)).trans (toNat_lt count)
      rw [max_eq_left (by omega : 1 ≤ count.toNat)]
      simp only [hcount, decide_false, Bool.or_self, Bool.false_eq_true, if_false,
        UInt32.toNat_toUInt8, UInt32.toNat_mod, toNat_toUInt32]
      exact Nat.mod_eq_of_lt hmod

theorem keyToShardNumber_lt :
    (keyToShardNumber count stripeSize key).toNat < max count.toNat 1 := by
  rw [keyToShardNumber_toNat]
  split_ifs
  · omega
  · exact Nat.mod_lt _ (by omega)

theorem keyToShardNumber_mod {c n : UInt8} (hdvd : max c.toNat 1 ∣ n.toNat) (hn : n ≠ 0)
    (stripeSize : UInt32) (key : Key) :
    keyToShardNumber n stripeSize key % max c 1 = keyToShardNumber c stripeSize key := by
  have hpos : 1 ≤ n.toNat := Nat.one_le_iff_ne_zero.mpr fun h ↦ hn (UInt8.toNat_inj.mp h)
  rw [← UInt8.toNat_inj, UInt8.toNat_mod, toNat_max_one, keyToShardNumber_toNat,
    keyToShardNumber_toNat, max_eq_left hpos]
  split_ifs
  · exact Nat.zero_mod _
  · exact Nat.mod_mod_of_dvd _ hdvd

variable (self : ShardIdentity)

namespace ShardIdentity

theorem number_lt : self.number.toNat < max self.count.toNat 1 := by
  rcases self.valid with ⟨hn, -⟩ | ⟨hlt, -⟩
  · rw [hn]
    exact lt_max_of_lt_right Nat.one_pos
  · exact lt_max_of_lt_left (lt_iff_toNat_lt.mp hlt)

theorem isKeyLocal_iff :
    self.isKeyLocal key = true ↔ self.number = keyToShardNumber self.count self.stripeSize key := by
  unfold isKeyLocal
  by_cases hcount : self.count < 2
  · -- there is only one shard
    have hlt : self.count.toNat < 2 := lt_iff_toNat_lt.mp hcount
    have hnum := self.number_lt
    have hkey := keyToShardNumber_lt self.count self.stripeSize key
    have heq : self.number = keyToShardNumber self.count self.stripeSize key :=
      UInt8.toNat_inj.mp (by omega)
    simp [hcount, ← heq]
  · by_cases hzero : keyIsShard0 key = true
    · have hkey : keyToShardNumber self.count self.stripeSize key = 0 := by
        simp [keyToShardNumber, hzero]
      rw [hkey]
      by_cases hn : self.number = 0
      · simp [hcount, hzero, hn]
      · simp [hcount, hn, Ne.symm hn]
    · simp only [hcount, hzero, decide_false, Bool.false_and, Bool.or_self, Bool.false_eq_true,
        if_false, beq_iff_eq]
      exact eq_comm

/-- The shards of a tenant that has `count` of them. -/
def IsShardOf (count : UInt8) (stripeSize : UInt32) : Prop :=
  self.count = count ∧ self.stripeSize = stripeSize

def owner (count : UInt8) (stripeSize : UInt32) (hstripe : stripeSize ≠ 0) (key : Key) :
    ShardIdentity where
  number := keyToShardNumber count stripeSize key
  count := count
  stripeSize := stripeSize
  valid := by
    have hlt := keyToShardNumber_lt count stripeSize key
    by_cases hzero : count = 0
    · subst hzero
      exact .inl ⟨UInt8.toNat_inj.mp (Nat.lt_one_iff.mp hlt), rfl⟩
    · have hpos : 1 ≤ count.toNat :=
        Nat.one_le_iff_ne_zero.mpr fun h ↦ hzero (UInt8.toNat_inj.mp h)
      rw [max_eq_left hpos] at hlt
      exact .inr ⟨lt_iff_toNat_lt.mpr hlt, hstripe⟩

theorem existsUnique_isKeyLocal {stripeSize : UInt32} (hstripe : stripeSize ≠ 0) (key : Key) :
    ∃! s : ShardIdentity, s.IsShardOf count stripeSize ∧ s.isKeyLocal key = true := by
  refine ⟨owner count stripeSize hstripe key, ⟨⟨rfl, rfl⟩, ?_⟩, ?_⟩
  · exact (isKeyLocal_iff _ _).mpr rfl
  · rintro ⟨number, count', stripeSize', valid⟩ ⟨⟨rfl, rfl⟩, hlocal⟩
    have hnumber := (isKeyLocal_iff _ _).mp hlocal
    dsimp only at hnumber
    subst hnumber
    rfl

end ShardIdentity

/-! ## The children of a shard -/

/-- A shard of a tenant. A count of zero is a tenant that is not sharded. -/
structure TenantShardId (TenantId : Type) where
  tenantId : TenantId
  shardNumber : UInt8
  shardCount : UInt8
  deriving DecidableEq

def ShardIdentity.tenantShardId {TenantId : Type} (self : ShardIdentity) (tenant : TenantId) :
    TenantShardId TenantId :=
  ⟨tenant, self.number, self.count⟩

namespace TenantShardId

variable {TenantId : Type}

/-- The children of a shard when the tenant is split into `newShardCount` shards. -/
def split (self : TenantShardId TenantId) (newShardCount : UInt8) : List (TenantShardId TenantId) :=
  let effectiveOldShardCount := max self.shardCount 1
  (List.range newShardCount.toNat).filterMap fun shardNumber ↦
    if ofNat shardNumber % effectiveOldShardCount == self.shardNumber then
      some ⟨self.tenantId, ofNat shardNumber, newShardCount⟩
    else none

variable (tenant : TenantId)

def shards (count : UInt8) : List (TenantShardId TenantId) :=
  (List.range (max count 1).toNat).map fun number ↦ ⟨tenant, ofNat number, count⟩

theorem mem_split {self child : TenantShardId TenantId} {n : UInt8} :
    child ∈ self.split n ↔ child.tenantId = self.tenantId ∧ child.shardCount = n ∧
      child.shardNumber < n ∧ child.shardNumber % max self.shardCount 1 = self.shardNumber := by
  simp only [split, mem_filterMap, mem_range, Option.ite_none_right_eq_some,
    Option.some.injEq, beq_iff_eq]
  constructor
  · rintro ⟨i, hi, hmod, rfl⟩
    have hi' : i < 256 := hi.trans (toNat_lt n)
    refine ⟨rfl, rfl, ?_, hmod⟩
    rw [lt_iff_toNat_lt, toNat_ofNat_of_lt' hi']
    exact hi
  · rintro ⟨htenant, hcount, hlt, hmod⟩
    refine ⟨child.shardNumber.toNat, lt_iff_toNat_lt.mp hlt, ?_, ?_⟩
    · rw [UInt8.ofNat_toNat]
      exact hmod
    · rw [UInt8.ofNat_toNat, ← htenant, ← hcount]

theorem mem_shards {tenant : TenantId} {count : UInt8} {id : TenantShardId TenantId} :
    id ∈ shards tenant count ↔ id.tenantId = tenant ∧ id.shardCount = count ∧
      id.shardNumber.toNat < max count.toNat 1 := by
  have hmax : max count.toNat 1 ≤ 256 := by
    have := toNat_lt count
    omega
  simp only [shards, mem_map, mem_range, toNat_max_one]
  constructor
  · rintro ⟨i, hi, rfl⟩
    refine ⟨rfl, rfl, ?_⟩
    rw [toNat_ofNat_of_lt' (by omega : i < 256)]
    exact hi
  · rintro ⟨rfl, rfl, hlt⟩
    exact ⟨id.shardNumber.toNat, hlt, by rw [UInt8.ofNat_toNat]⟩

theorem eq_of_ofNat_eq {i j : ℕ} (hi : i < 256) (hj : j < 256) (h : ofNat i = ofNat j) : i = j := by
  rw [← toNat_ofNat_of_lt' hi, ← toNat_ofNat_of_lt' hj, h]

theorem nodup_shards (count : UInt8) : (shards tenant count).Nodup := by
  refine List.Nodup.map_on (fun i hi j hj h ↦ ?_) nodup_range
  have hlt := toNat_lt (max count 1)
  exact eq_of_ofNat_eq ((mem_range.mp hi).trans hlt) ((mem_range.mp hj).trans hlt)
    (congrArg shardNumber h)

theorem nodup_split (self : TenantShardId TenantId) (n : UInt8) : (self.split n).Nodup := by
  refine pairwise_filterMap.mpr (nodup_range.imp_of_mem fun {i j} hi hj hne ↦ ?_)
  have hlt := toNat_lt n
  rintro x hx y hy rfl
  have heq :=
    (Option.ite_none_right_eq_some.mp hx).2.trans (Option.ite_none_right_eq_some.mp hy).2.symm
  exact hne (eq_of_ofNat_eq ((mem_range.mp hi).trans hlt) ((mem_range.mp hj).trans hlt)
    (congrArg shardNumber (Option.some.inj heq)))

/-- **The children of all shards are all shards of the split tenant, each once.** -/
theorem split_perm (c : UInt8) {n : UInt8} (hn : n ≠ 0) :
    ((shards tenant c).flatMap fun shard ↦ shard.split n).Perm (shards tenant n) := by
  have hpos : 1 ≤ n.toNat := Nat.one_le_iff_ne_zero.mpr fun h ↦ hn (UInt8.toNat_inj.mp h)
  have hnodup : ((shards tenant c).flatMap fun shard ↦ shard.split n).Nodup := by
    refine nodup_flatMap.mpr ⟨fun shard _ ↦ nodup_split shard n, ?_⟩
    refine (nodup_shards tenant c).imp_of_mem fun {s t} hs ht hne child hcs hct ↦ hne ?_
    -- a child determines its parent
    obtain ⟨hs₁, -, -, hs₂⟩ := mem_split.mp hcs
    obtain ⟨ht₁, -, -, ht₂⟩ := mem_split.mp hct
    have hsc := (mem_shards.mp hs).2.1
    have htc := (mem_shards.mp ht).2.1
    rw [hsc] at hs₂
    cases s
    cases t
    simp_all
  refine (perm_ext_iff_of_nodup hnodup (nodup_shards tenant n)).mpr fun child ↦ ?_
  rw [mem_flatMap, mem_shards, max_eq_left hpos]
  constructor
  · rintro ⟨shard, hshard, hchild⟩
    obtain ⟨htenant, hcount, hlt, -⟩ := mem_split.mp hchild
    exact ⟨htenant.trans (mem_shards.mp hshard).1, hcount, lt_iff_toNat_lt.mp hlt⟩
  · rintro ⟨htenant, hcount, hlt⟩
    refine ⟨⟨tenant, child.shardNumber % max c 1, c⟩, mem_shards.mpr ⟨rfl, rfl, ?_⟩,
      mem_split.mpr ⟨htenant, hcount, lt_iff_toNat_lt.mpr hlt, rfl⟩⟩
    rw [UInt8.toNat_mod, toNat_max_one]
    exact Nat.mod_lt _ (lt_max_of_lt_right Nat.one_pos)

/-- **A split keeps every key with the children of its owner.** Before and after the split exactly
one shard holds the key, the one after is a child of the one before, and the children of all shards
are all shards. -/
theorem split_keeps_owner (tenant : TenantId) (key : Key) {stripeSize : UInt32}
    (hstripe : stripeSize ≠ 0) {c n : UInt8} (hn : n ≠ 0) (hdvd : max c.toNat 1 ∣ n.toNat) :
    (∃! s : ShardIdentity, s.IsShardOf c stripeSize ∧ s.isKeyLocal key = true) ∧
    (∃! s : ShardIdentity, s.IsShardOf n stripeSize ∧ s.isKeyLocal key = true) ∧
    (∀ s t : ShardIdentity, s.IsShardOf c stripeSize → s.isKeyLocal key = true →
      t.IsShardOf n stripeSize → t.isKeyLocal key = true →
      t.tenantShardId tenant ∈ (s.tenantShardId tenant).split n) ∧
    ((shards tenant c).flatMap fun shard ↦ shard.split n).Perm (shards tenant n) := by
  refine ⟨ShardIdentity.existsUnique_isKeyLocal c hstripe key,
    ShardIdentity.existsUnique_isKeyLocal n hstripe key, ?_, split_perm tenant c hn⟩
  rintro s t ⟨rfl, rfl⟩ hs ⟨rfl, hstripes⟩ ht
  rw [ShardIdentity.isKeyLocal_iff] at hs ht
  refine mem_split.mpr ⟨rfl, rfl, ?_, ?_⟩
  · rcases t.valid with ⟨-, hzero⟩ | ⟨hlt, -⟩
    · exact absurd hzero hn
    · exact hlt
  · show t.number % max s.count 1 = s.number
    rw [ht, hs, hstripes]
    exact keyToShardNumber_mod hdvd hn _ key

/-- Two shards split into eight: the owner of the first block of relation 16384. -/
theorem split_keeps_owner_eight : ∃ s t : ShardIdentity, s.IsShardOf 2 2048 ∧ t.IsShardOf 8 2048 ∧
      s.isKeyLocal ⟨0, 1663, 5, 16384, 0, 0⟩ = true ∧
        t.isKeyLocal ⟨0, 1663, 5, 16384, 0, 0⟩ = true ∧
      t.tenantShardId () ∈ (s.tenantShardId ()).split 8 := by
  obtain ⟨⟨s, ⟨hs, hsl⟩, -⟩, ⟨t, ⟨ht, htl⟩, -⟩, hchild, -⟩ :=
    @split_keeps_owner _ () ⟨0, 1663, 5, 16384, 0, 0⟩ 2048 (by decide) 2 8 (by decide) (by decide)
  exact ⟨s, t, hs, ht, hsl, htl, hchild s t hs hsl ht htl⟩

end TenantShardId

end NeonStorage.Pageserver
