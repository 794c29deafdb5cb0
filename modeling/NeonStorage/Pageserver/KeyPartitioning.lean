import NeonStorage.Pageserver.KeySpace
import NeonStorage.Pageserver.ShardedRange

/-!
# Partitions of a key space

`KeySpace::partition` cuts the ranges of a key space into fragments and packs them into parts, in
order, as long as a part has at most the target number of blocks of the shard. A range that spans
relations is one fragment, and counts as 2 ^ 32 - 1 blocks; it gets a part for itself, but for
fragments without blocks.
-/

namespace NeonStorage.Pageserver

open List
open RangeSet (Within within_append within_cons)
open ShardedRange
open Tiling (Tiles)

namespace KeySpace

/-- The loop of `partition`: the complete parts, and the current part with its size. -/
structure Packing where
  parts : List (List (Key × Key)) := []
  currentPart : List (Key × Key) := []
  currentPartSize : ℕ := 0

def pack (target : UInt32) (s : Packing) (frag : Fragment) : Packing :=
  if target.toNat < s.currentPartSize + frag.size ∧ 0 < s.currentPartSize then
    ⟨s.parts ++ [s.currentPart], [(frag.start, frag.stop)], frag.size⟩
  else ⟨s.parts, s.currentPart ++ [(frag.start, frag.stop)], s.currentPartSize + frag.size⟩

/-- `partition`: the target is cut to 32 bits. -/
def partition (fuel : ℕ) (shard : ShardIdentity) (targetSize blockSize : ℕ)
    (ranges : List (Key × Key)) :
    Option (List (List (Key × Key))) := do
  let target : UInt32 := .ofNat (targetSize / blockSize)
  let s ← ranges.foldlM (fun s range ↦
    (fragment shard range.1 range.2 fuel target).map fun frags ↦ frags.foldl (pack target) s) {}
  return if s.currentPart.isEmpty then s.parts else s.parts ++ [s.currentPart]

/-- The range has more than one key and is not within one relation. -/
def Spans (range : Key × Key) : Prop :=
  isContiguousRange range.1 range.2 = false ∧ range.1.add 1 ≠ some range.2

def partBlocks (shard : ShardIdentity) (part : List (Key × Key)) : ℕ :=
  (part.map fun r ↦ localBlocks shard r.1 r.2).sum

/-- The size of a part is right: it has the blocks, not too many of them, or it has one range that
spans relations, and no blocks besides. -/
def Packed (shard : ShardIdentity) (target : UInt32) (part : List (Key × Key)) (size : ℕ) : Prop :=
  size = partBlocks shard part ∧ size ≤ target.toNat ∨
    size = 2 ^ 32 - 1 ∧ ∃ xs r ys, part = xs ++ r :: ys ∧ Spans r ∧ partBlocks shard (xs ++ ys) = 0

/-- The state after the fragments `done`. -/
structure PackingInv (shard : ShardIdentity) (target : UInt32) (done : List (Key × Key))
    (s : Packing) :
    Prop where
  flatten : s.parts.flatten ++ s.currentPart = done
  ne_nil : ∀ part ∈ s.parts, part ≠ []
  packed : ∀ part ∈ s.parts, ∃ size, Packed shard target part size
  current : Packed shard target s.currentPart s.currentPartSize

section Packing

variable {shard : ShardIdentity} {target : UInt32} {done : List (Key × Key)} {s : Packing}

theorem partBlocks_singleton (r : Key × Key) : partBlocks shard [r] = localBlocks shard r.1 r.2 :=
  sum_singleton

theorem partBlocks_append (xs ys : List (Key × Key)) :
    partBlocks shard (xs ++ ys) = partBlocks shard xs + partBlocks shard ys := by
  simp [partBlocks]

/-- What is known of the size of a fragment. -/
def Sized (shard : ShardIdentity) (target : UInt32) (frag : Fragment) : Prop :=
  frag.size = localBlocks shard frag.start frag.stop ∧ frag.size ≤ target.toNat ∨
    frag.size = 2 ^ 32 - 1 ∧ Spans (frag.start, frag.stop)

theorem Sized.packed {frag : Fragment} (h : Sized shard target frag) :
    Packed shard target [(frag.start, frag.stop)] frag.size := by
  rcases h with ⟨heq, hle⟩ | ⟨heq, hspans⟩
  · refine .inl ⟨?_, hle⟩
    rw [partBlocks_singleton]
    exact heq
  · exact .inr ⟨heq, [], _, [], rfl, hspans, rfl⟩

theorem PackingInv.pack (h : PackingInv shard target done s) {frag : Fragment}
    (hfrag : Sized shard target frag) :
    PackingInv shard target (done ++ [(frag.start, frag.stop)]) (pack target s frag) := by
  have htarget := target.toNat_lt
  unfold KeySpace.pack
  split_ifs with hfull
  · refine ⟨?_, ?_, ?_, hfrag.packed⟩
    · rw [flatten_append, flatten_singleton, h.flatten]
    · refine forall_mem_append.mpr ⟨h.ne_nil, forall_mem_singleton.mpr fun hnil ↦ ?_⟩
      have hcurrent := h.current
      rw [hnil] at hcurrent
      rcases hcurrent with ⟨hsize, -⟩ | ⟨-, xs, r, ys, hsplit, -⟩
      · exact absurd hsize hfull.2.ne'
      · simp at hsplit
    · exact forall_mem_append.mpr ⟨h.packed, forall_mem_singleton.mpr ⟨_, h.current⟩⟩
  · refine ⟨?_, h.ne_nil, h.packed, ?_⟩
    · rw [← h.flatten, append_assoc]
    · rw [not_and_or, not_lt, not_lt, Nat.le_zero] at hfull
      rcases h.current with ⟨hsize, hle⟩ | ⟨hsize, xs, r, ys, hsplit, hspans, hzero⟩
      · rcases hfrag with ⟨heq, hfle⟩ | ⟨heq, hspans⟩
        · refine .inl ⟨?_, ?_⟩
          · rw [partBlocks_append, partBlocks_singleton, ← hsize, heq]
          · dsimp only
            omega
        · -- a fragment that counts as too large: the part has no blocks yet
          have hempty : s.currentPartSize = 0 := by omega
          refine .inr ⟨by dsimp only; omega, s.currentPart, _, [], rfl, hspans, ?_⟩
          rw [append_nil, ← hsize, hempty]
      · rcases hfrag with ⟨heq, hfle⟩ | ⟨heq, -⟩
        · have hnone : frag.size = 0 := by omega
          refine .inr ⟨by dsimp only; omega, xs, r, ys ++ [(frag.start, frag.stop)], ?_, hspans, ?_⟩
          · rw [hsplit, append_assoc, cons_append]
          · rw [← append_assoc, partBlocks_append, partBlocks_singleton, hzero, ← heq, hnone]
        · omega

theorem PackingInv.foldl {frags : List Fragment} (h : PackingInv shard target done s)
    (hfrags : ∀ frag ∈ frags, Sized shard target frag) :
    PackingInv shard target (done ++ frags.map fun f ↦ (f.start, f.stop))
      (frags.foldl (KeySpace.pack target) s) := by
  induction frags generalizing done s with
  | nil => simpa using h
  | cons frag frags ih =>
    obtain ⟨hfrag, hfrags⟩ := forall_mem_cons.mp hfrags
    have hrest := ih (h.pack hfrag) hfrags
    rw [append_assoc] at hrest
    exact hrest

end Packing

/-! ## The whole key space -/

section Partition

variable {shard : ShardIdentity} {target : UInt32} {ranges : List (Key × Key)}

/-- The range can be cut: as a contiguous range it fits into 32 bits and is not mixed. -/
def Cuttable (shard : ShardIdentity) (range : Key × Key) : Prop :=
  isContiguousRange range.1 range.2 = true →
    localBlocks shard range.1 range.2 < 2 ^ 32 ∧ ¬ Mixed shard range.1 range.2

theorem fragment_sized {range : Key × Key} (hlt : range.1 < range.2) (htarget : 1 ≤ target)
    (hcut : Cuttable shard range) :
    ∃ n frags, (∀ fuel, n ≤ fuel → fragment shard range.1 range.2 fuel target = some frags) ∧
      Tiles range.1 range.2 (frags.map fun f ↦ (f.start, f.stop)) ∧
      ∀ frag ∈ frags, Sized shard target frag := by
  have hmax : range.1 ≠ .max := by
    intro h
    have hbound := range.2.rank_lt
    rw [h, Key.lt_iff_rank, show Key.max.rank = 2 ^ 144 - 1 by decide] at hlt
    omega
  obtain ⟨next, hadd, -⟩ := exists_succ hmax
  by_cases hwell : FragmentsWell shard range.1 range.2 target
  · obtain ⟨n, frags, pages, hrun, hfrags⟩ := hwell
    exact ⟨n, frags, fun fuel hfuel ↦ (hrun fuel hfuel).1, hfrags.tiles,
      fun frag hmem ↦ .inl ⟨hfrags.size_eq frag hmem, hfrags.size_le frag hmem⟩⟩
  -- the range is its only fragment
  have hcont : isContiguousRange range.1 range.2 = false := eq_false_of_ne_true fun hcont ↦
    hwell (fragmentsWell_of hcont htarget hlt.le hmax (hcut hcont).1 (hcut hcont).2)
  have hsingle : range.2 ≠ next := fun h ↦ hwell (fragmentsWell_single (h ▸ hadd) htarget)
  refine ⟨0, [⟨2 ^ 32 - 1, range.1, range.2⟩], fun fuel _ ↦ ?_, ⟨rfl, hlt, rfl⟩,
    forall_mem_singleton.mpr (.inr ⟨rfl, hcont, ?_⟩)⟩
  · rw [fragment, hadd, Option.bind_some, if_neg hsingle, hcont]
    rfl
  · rw [hadd]
    exact fun h ↦ hsingle (Option.some.inj h).symm

theorem within_tiles {lo hi k : Key} (h : Tiles lo hi ranges) :
    Within ranges k ↔ lo ≤ k ∧ k < hi := by
  constructor
  · rintro ⟨p, hp, hle, hlt⟩
    exact ⟨(h.lo_le hp).trans hle, hlt.trans_le (h.le_hi hp)⟩
  · exact h.exists_mem

theorem foldlM_pack (htarget : 1 ≤ target) (hcut : ∀ range ∈ ranges, Cuttable shard range)
    {done : List (Key × Key)} {s : Packing} (hinv : PackingInv shard target done s)
    (hspace : IsKeySpace (done ++ ranges)) :
    ∃ n s' tiles, (∀ fuel, n ≤ fuel → ranges.foldlM (fun s range ↦
        (fragment shard range.1 range.2 fuel target).map fun frags ↦ frags.foldl (pack target) s)
          s =
          some s') ∧
      PackingInv shard target (done ++ tiles) s' ∧ IsKeySpace (done ++ tiles) ∧
      ∀ k, Within tiles k ↔ Within ranges k := by
  induction ranges generalizing done s with
  | nil => exact ⟨0, s, [], fun _ _ ↦ rfl, (append_nil done).symm ▸ hinv, hspace, fun _ ↦ .rfl⟩
  | cons range ranges ih =>
    obtain ⟨hrange, hcut⟩ := forall_mem_cons.mp hcut
    have hlt : range.1 < range.2 := hspace.nonempty range (mem_append_right _ mem_cons_self)
    obtain ⟨n, frags, hfrag, htiles, hsized⟩ := fragment_sized hlt htarget hrange
    have hsplice := splice hspace ⟨fun p hp ↦ htiles.nonempty hp, htiles.pairwise⟩
      fun p hp ↦ ⟨htiles.lo_le hp, htiles.le_hi hp⟩
    rw [← append_assoc] at hsplice
    obtain ⟨m, s', tiles, hrun, hinv', hspace', hwithin⟩ := ih hcut (hinv.foldl hsized) hsplice
    rw [append_assoc] at hinv' hspace'
    refine ⟨max n m, s', _, fun fuel hfuel ↦ ?_, hinv', hspace', fun k ↦ ?_⟩
    · rw [foldlM_cons, hfrag fuel (le_of_max_le_left hfuel)]
      exact hrun fuel (le_of_max_le_right hfuel)
    · rw [within_append, within_tiles htiles, hwithin, within_cons]

/-- **The parts cover the key space**, in order and without overlap, and none of them has too many
blocks, except for one range that spans relations and is not cut. -/
theorem partition_spec {targetSize blockSize : ℕ} (h : IsKeySpace ranges)
    (htarget : 1 ≤ UInt32.ofNat (targetSize / blockSize))
    (hcut : ∀ range ∈ ranges, Cuttable shard range) :
    ∃ n parts, (∀ fuel, n ≤ fuel → partition fuel shard targetSize blockSize ranges = some parts) ∧
      IsKeySpace parts.flatten ∧ (∀ k, Within parts.flatten k ↔ Within ranges k) ∧
      ∀ part ∈ parts, part ≠ [] ∧ (partBlocks shard part * blockSize ≤ targetSize ∨
        ∃ xs range ys, part = xs ++ range :: ys ∧ Spans range ∧
          partBlocks shard (xs ++ ys) = 0) := by
  have hinit : PackingInv shard (.ofNat (targetSize / blockSize)) [] {} :=
    ⟨rfl, by simp, by simp, .inl ⟨rfl, Nat.zero_le _⟩⟩
  obtain ⟨n, s, tiles, hrun, hinv, hspace, hwithin⟩ := foldlM_pack htarget hcut hinit h
  -- a part within 32 bits of the target is within the target
  have hsize {part : List (Key × Key)} {size : ℕ}
      (hpart : Packed shard (.ofNat (targetSize / blockSize)) part size) :
      partBlocks shard part * blockSize ≤ targetSize ∨
        ∃ xs range ys, part = xs ++ range :: ys ∧ Spans range ∧
          partBlocks shard (xs ++ ys) = 0 := by
    refine hpart.imp (fun hle ↦ ?_) And.right
    rw [hle.1] at hle
    exact (Nat.mul_le_mul_right _ (hle.2.trans (Nat.mod_le _ _))).trans (Nat.div_mul_le_self _ _)
  have hparts : ∀ part ∈ s.parts, part ≠ [] ∧ _ := fun part hpart ↦
    ⟨hinv.ne_nil part hpart, hsize (hinv.packed part hpart).choose_spec⟩
  have hflatten := hinv.flatten
  refine ⟨n, if s.currentPart.isEmpty then s.parts else s.parts ++ [s.currentPart],
    fun fuel hfuel ↦ ?_, ?_⟩
  · rw [partition, hrun fuel hfuel]
    rfl
  · by_cases hempty : s.currentPart = []
    · rw [hempty, append_nil] at hflatten
      rw [hempty, isEmpty_nil, if_pos rfl, hflatten]
      exact ⟨hspace, hwithin, hparts⟩
    · rw [if_neg (by simpa using hempty), flatten_append, flatten_singleton, hflatten]
      refine ⟨hspace, hwithin, forall_mem_append.mpr ⟨hparts, ?_⟩⟩
      exact forall_mem_singleton.mpr ⟨hempty, hsize hinv.current⟩

/-- Three blocks in parts of two. -/
theorem partition_spec_three : ∃ n parts, (∀ fuel, n ≤ fuel →
        partition fuel .unsharded 20000 8192 [(blockOf 0 0, blockOf 0 3)] = some parts) ∧
      IsKeySpace parts.flatten ∧ (∀ k, Within parts.flatten k ↔
        Within [(blockOf 0 0, blockOf 0 3)] k) ∧
      ∀ part ∈ parts, part ≠ [] ∧ (partBlocks .unsharded part * 8192 ≤ 20000 ∨
        ∃ xs range ys, part = xs ++ range :: ys ∧ Spans range ∧
          partBlocks .unsharded (xs ++ ys) = 0) :=
  partition_spec (isKeySpace_singleton (by decide)) (by decide)
    (forall_mem_singleton.mpr fun _ ↦ ⟨by decide +kernel, by decide⟩)

theorem fragmentLoop_zero (fuel : ℕ) (frags : List Fragment) :
    fragmentLoop .unsharded (blockOf 0 2) 0 fuel (blockOf 0 0) frags = none := by
  induction fuel generalizing frags with
  | zero => rfl
  | succ fuel ih =>
    cases frags with
    | nil => exact ih _
    | cons frag frags => exact ih _

/-- With a target below one block `partition` does not end, nor with a range of 2 ^ 32 blocks; and a
range that spans relations shares its part with a range without blocks. -/
theorem partition_zero_and_shared :
    (∀ fuel, partition fuel .unsharded 1 8192 [(blockOf 0 0, blockOf 0 2)] = none) ∧
    (∀ fuel, partition fuel .unsharded 8192 8192 [(blockOf 0 0xffffffff, blockOf 1 0xffffffff)] =
      none) ∧
    IsKeySpace [(blockOf 0 0, blockOf 0 1), (blockOf 0 0xfffffffe, blockOf 1 2)] ∧
    (∀ fuel, partition fuel shardOne 8192 8192
        [(blockOf 0 0, blockOf 0 1), (blockOf 0 0xfffffffe, blockOf 1 2)] =
      some [[(blockOf 0 0, blockOf 0 1), (blockOf 0 0xfffffffe, blockOf 1 2)]]) ∧
    8192 < partBlocks shardOne [(blockOf 0 0, blockOf 0 1), (blockOf 0 0xfffffffe, blockOf 1 2)] *
      8192 := by
  have hstuck {lo hi : Key} {target : ℕ} (fuel : ℕ)
      (h : fragment .unsharded lo hi fuel (.ofNat (target / 8192)) = none) :
      partition fuel .unsharded target 8192 [(lo, hi)] = none := by
    rw [partition, foldlM_cons, h]
    rfl
  exact ⟨fun fuel ↦ hstuck fuel (fragmentLoop_zero fuel []),
    fun fuel ↦ hstuck fuel (fragmentLoop_wrapped fuel []), ⟨by decide, by decide⟩,
    fun fuel ↦ by rfl, by decide +kernel⟩

end Partition

end KeySpace

end NeonStorage.Pageserver
