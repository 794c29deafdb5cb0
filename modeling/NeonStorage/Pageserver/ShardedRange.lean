import NeonStorage.Lib.Tiling
import NeonStorage.Pageserver.Shard

/-!
# Ranges of keys as one shard sees them

`ShardedRange::fragment` cuts a range into fragments with at most a target number of blocks of the
shard. It walks over the range in stretches, which end at stripe boundaries, and takes the first key
of a stretch to know whether the shard holds it.

Contiguous ranges are best seen by the ranks of their keys: the blocks of one fork are 2 ^ 32 ranks
in a row, and a range may begin with the last key of the fork before (`Contiguous`). There are two
ranges that the arithmetic does not fit: one of 2 ^ 32 blocks, whose length wraps around to zero,
and one that begins with the key of an SLRU directory, which the shard may drop while it keeps the
keys after it.
-/

namespace NeonStorage.Pageserver

open List Key ShardIdentity Option
open Tiling (Tiles)

namespace Key

def ofRank (r : ℕ) : Key :=
  ⟨UInt8.ofNat (r / 2 ^ 136), UInt32.ofNat (r / 2 ^ 104), UInt32.ofNat (r / 2 ^ 72),
    UInt32.ofNat (r / 2 ^ 40), UInt8.ofNat (r / 2 ^ 32), UInt32.ofNat r⟩

theorem ofRank_rank (k : Key) : ofRank k.rank = k := by
  obtain ⟨f₁, f₂, f₃, f₄, f₅, f₆⟩ := k
  have h₁ := f₁.toNat_lt
  have h₂ := f₂.toNat_lt
  have h₃ := f₃.toNat_lt
  have h₄ := f₄.toNat_lt
  have h₅ := f₅.toNat_lt
  have h₆ := f₆.toNat_lt
  simp only [ofRank, rank, mk.injEq, ← UInt8.toNat_inj, ← UInt32.toNat_inj, UInt8.toNat_ofNat',
    UInt32.toNat_ofNat']
  omega

theorem rank_injective : Function.Injective rank := Function.LeftInverse.injective ofRank_rank

theorem rank_lt (k : Key) : k.rank < 2 ^ 144 := by
  have h₁ := k.field1.toNat_lt
  have h₂ := k.field2.toNat_lt
  have h₃ := k.field3.toNat_lt
  have h₄ := k.field4.toNat_lt
  have h₅ := k.field5.toNat_lt
  have h₆ := k.field6.toNat_lt
  unfold rank
  omega

theorem rank_ofRank {r : ℕ} (hr : r < 2 ^ 144) : (ofRank r).rank = r := by
  simp only [ofRank, rank, UInt8.toNat_ofNat', UInt32.toNat_ofNat']
  omega

theorem toNat_field6 (k : Key) : k.field6.toNat = k.rank % 2 ^ 32 := by
  have h₆ := k.field6.toNat_lt
  unfold rank
  omega

theorem exists_add {k : Key} {x : UInt32} (h : k.rank + x.toNat < 2 ^ 144) :
    ∃ k', k.add x = some k' ∧ k'.rank = k.rank + x.toNat := by
  rcases hk : k.add x with - | k'
  · unfold add at hk
    unfold rank at h
    split_ifs at hk
    omega
  · exact ⟨k', rfl, rank_add hk⟩

end Key

/-! ## Counting blocks -/

def keysBetween (lo hi : Key) : List Key := (List.range' lo.rank (hi.rank - lo.rank)).map ofRank

theorem mem_keysBetween {lo hi k : Key} : k ∈ keysBetween lo hi ↔ lo ≤ k ∧ k < hi := by
  simp only [keysBetween, List.mem_map, mem_range'_1, le_iff_rank, lt_iff_rank]
  constructor
  · rintro ⟨r, ⟨hlo, hhi⟩, rfl⟩
    have := hi.rank_lt
    rw [rank_ofRank (by omega)]
    omega
  · intro h
    exact ⟨k.rank, by omega, k.ofRank_rank⟩

theorem keysBetween_self (k : Key) : keysBetween k k = [] := by simp [keysBetween]

theorem keysBetween_cons {lo hi : Key} (h : lo < hi) :
    ∃ next, lo.next = some next ∧ keysBetween lo hi = lo :: keysBetween next hi := by
  rw [lt_iff_rank] at h
  have hone : (1 : UInt32).toNat = 1 := rfl
  obtain ⟨next, hnext, hrank⟩ := exists_add (k := lo) (x := 1) (by have := hi.rank_lt; omega)
  refine ⟨next, hnext, ?_⟩
  rw [keysBetween, keysBetween, hrank, hone,
    show hi.rank - lo.rank = hi.rank - (lo.rank + 1) + 1 by omega,
    List.range'_succ, map_cons, ofRank_rank]

def localBlocks (shard : ShardIdentity) (lo hi : Key) : ℕ :=
  (keysBetween lo hi).countP fun k ↦ !shard.isKeyDisposable k

section LocalBlocks

variable {shard : ShardIdentity} {lo mid hi : Key}

theorem localBlocks_add (hlo : lo ≤ mid) (hhi : mid ≤ hi) :
    localBlocks shard lo hi = localBlocks shard lo mid + localBlocks shard mid hi := by
  rw [le_iff_rank] at hlo hhi
  have hsplit : List.range' lo.rank (hi.rank - lo.rank) =
      List.range' lo.rank (mid.rank - lo.rank) ++ List.range' mid.rank (hi.rank - mid.rank) := by
    have := List.range'_append_1 (s := lo.rank) (m := mid.rank - lo.rank) (n := hi.rank - mid.rank)
    rw [show lo.rank + (mid.rank - lo.rank) = mid.rank by omega,
      show mid.rank - lo.rank + (hi.rank - mid.rank) = hi.rank - lo.rank by omega] at this
    exact this.symm
  simp only [localBlocks, keysBetween, hsplit, map_append, countP_append]

theorem localBlocks_uniform
    (h : ∀ k, lo ≤ k → k < hi → shard.isKeyDisposable k = shard.isKeyDisposable lo) :
    localBlocks shard lo hi = if shard.isKeyDisposable lo then 0 else hi.rank - lo.rank := by
  have hmem : ∀ k ∈ keysBetween lo hi, shard.isKeyDisposable k = shard.isKeyDisposable lo :=
    fun k hk ↦ h k (mem_keysBetween.mp hk).1 (mem_keysBetween.mp hk).2
  rw [localBlocks, countP_congr fun k hk ↦ by rw [hmem k hk]]
  cases shard.isKeyDisposable lo <;> simp [keysBetween]

end LocalBlocks

/-! ## The source -/

/-- `contiguous_range_len`, of 32 bits. -/
def contiguousRangeLen (start stop : Key) : ℕ :=
  if start.field6 = 0xffffffff then (stop.field6.toNat + 1) % 2 ^ 32
  else (stop.field6.toNat + 2 ^ 32 - start.field6.toNat) % 2 ^ 32

def isContiguousRange (start stop : Key) : Bool :=
  start.field1 == stop.field1 && start.field2 == stop.field2 && start.field3 == stop.field3
    && start.field4 == stop.field4
    && (start.field5 == stop.field5
      || (start.field6 == 0xffffffff && start.field5 + 1 == stop.field5))

namespace ShardedRange

variable (shard : ShardIdentity) (start stop cursor : Key)

def distanceToNextBoundary : ℕ :=
  let distanceToRangeEnd := contiguousRangeLen cursor stop
  if shard.count < 2 then distanceToRangeEnd
  -- from the size of one relation to the first block of the next one
  else if cursor.field6 = 0xffffffff then 1
  else
    let stripeIndex := cursor.field6.toNat / shard.stripeSize.toNat
    let stripeRemainder :=
      shard.stripeSize.toNat - (cursor.field6.toNat - stripeIndex * shard.stripeSize.toNat)
    min stripeRemainder distanceToRangeEnd

/-- A fragment: its blocks on the shard, where it starts and where it ends. -/
structure Fragment where
  size : ℕ
  start : Key
  stop : Key
  deriving DecidableEq

/-- What the loop does with the blocks up to `next`: they go to the last fragment if that is short,
or if they are not the shard's. The last fragment comes first. -/
def push (target : UInt32) (disposable : Bool) (size : ℕ) (cursor next : Key) :
    List Fragment → List Fragment
  | [] => [⟨size, cursor, next⟩]
  | frag :: frags =>
    if frag.size < target.toNat ∨ disposable then ⟨frag.size + size, frag.start, next⟩ :: frags
    else ⟨size, cursor, next⟩ :: frag :: frags

/-- How many blocks the next fragment needs. -/
def wantBlocks (target : UInt32) : List Fragment → ℕ
  | [] => target.toNat
  | frag :: _ => if frag.size < target.toNat then target.toNat - frag.size else target.toNat

def fragmentLoop (target : UInt32) : ℕ → Key → List Fragment → Option (List Fragment)
  | 0, _, _ => none
  | fuel + 1, cursor, frags =>
    if cursor < stop then
      let disposable := shard.isKeyDisposable cursor
      let distance := distanceToNextBoundary shard stop cursor
      let advanceBy := if disposable then distance else min distance (wantBlocks target frags)
      (cursor.add (.ofNat advanceBy)).bind fun next ↦ fragmentLoop target fuel next
        (push target disposable (if disposable then 0 else advanceBy) cursor next frags)
    else some frags.reverse

/-- The fragments of the range; `none` is the assertion of `Key::add`, or a lack of fuel. -/
def fragment (fuel : ℕ) (target : UInt32) : Option (List Fragment) :=
  (start.add 1).bind fun next ↦
    if stop = next then some [⟨if shard.isKeyDisposable start then 0 else 1, start, stop⟩]
    else if !isContiguousRange start stop then some [⟨2 ^ 32 - 1, start, stop⟩]
    else fragmentLoop shard stop target fuel start []

def pageCountLoop : ℕ → Key → ℕ → Option ℕ
  | 0, _, _ => none
  | fuel + 1, cursor, result =>
    if cursor < stop then
      let advanceBy := distanceToNextBoundary shard stop cursor
      (cursor.add (.ofNat advanceBy)).bind fun next ↦ pageCountLoop fuel next
        (if shard.isKeyDisposable cursor then result else result + advanceBy)
    else some result

def pageCount (fuel : ℕ) : Option ℕ :=
  (start.add 1).bind fun next ↦
    if stop = next then some (if shard.isKeyDisposable start then 0 else 1)
    else if !isContiguousRange start stop then some (2 ^ 32 - 1)
    else if shard.count < 2 then some (contiguousRangeLen start stop)
    else (pageCountLoop shard stop fuel start 0).map fun result ↦ min result (2 ^ 32 - 1)

/-! ## Stretches -/

/-- The cursor is in the fork of the end of the range, or at the last key of the fork before. -/
def Contiguous (cursor stop : Key) : Prop :=
  cursor.rank ≤ stop.rank ∧ cursor.rank / 2 ^ 40 = stop.rank / 2 ^ 40 ∧
    (cursor.rank / 2 ^ 32 = stop.rank / 2 ^ 32 ∨
      cursor.rank % 2 ^ 32 = 2 ^ 32 - 1 ∧ cursor.rank / 2 ^ 32 + 1 = stop.rank / 2 ^ 32)

/-- The stretch at the cursor begins with the key of an SLRU directory, which the shard drops, and
has other keys, which it keeps. -/
def Mixed (shard : ShardIdentity) (cursor stop : Key) : Prop :=
  2 ≤ shard.count ∧ shard.number ≠ 0 ∧ 2 ≤ shard.stripeSize ∧ cursor.isSlruDirKey = true ∧
    2 ≤ stop.field6
  deriving Decidable

variable {n : ℕ}

section Stretch

variable {shard : ShardIdentity} {start stop cursor next k : Key}

theorem field6_eq_max_iff : cursor.field6 = 0xffffffff ↔ cursor.rank % 2 ^ 32 = 2 ^ 32 - 1 := by
  rw [← UInt32.toNat_inj, toNat_field6]
  rfl

theorem contiguous_of_isContiguousRange (h : isContiguousRange start stop = true)
    (hle : start ≤ stop) :
    Contiguous start stop := by
  simp only [isContiguousRange, Bool.and_eq_true, Bool.or_eq_true, beq_iff_eq] at h
  obtain ⟨⟨⟨⟨h₁, h₂⟩, h₃⟩, h₄⟩, h₅⟩ := h
  rw [le_iff_rank] at hle
  have h₆ := start.field6.toNat_lt
  have h₆' := stop.field6.toNat_lt
  have h₅' := start.field5.toNat_lt
  have h₅'' := stop.field5.toNat_lt
  refine ⟨hle, ?_, ?_⟩
  · simp only [rank, h₁, h₂, h₃, h₄]
    omega
  rcases h₅ with h₅ | ⟨hmax, h₅⟩
  · simp only [rank, h₁, h₂, h₃, h₄, h₅]
    omega
  · have hmod := field6_eq_max_iff.mp hmax
    have hcarry : stop.field5.toNat = (start.field5.toNat + 1) % 2 ^ 8 := by
      rw [← h₅]
      rfl
    simp only [rank, h₁, h₂, h₃, h₄] at hle hmod ⊢
    omega

theorem distance_spec (hc : Contiguous cursor stop) (hlt : cursor < stop)
    (hfit : shard.count < 2 → stop.rank - cursor.rank < 2 ^ 32) :
    0 < distanceToNextBoundary shard stop cursor ∧
      cursor.rank + distanceToNextBoundary shard stop cursor ≤ stop.rank ∧
      distanceToNextBoundary shard stop cursor < 2 ^ 32 := by
  obtain ⟨hle, -, hc⟩ := hc
  rw [lt_iff_rank] at hlt
  unfold distanceToNextBoundary contiguousRangeLen
  simp only [field6_eq_max_iff, toNat_field6]
  by_cases hcount : shard.count < 2
  · have hfit := hfit hcount
    split_ifs <;> omega
  · have hstripe : 0 < shard.stripeSize.toNat := by
      rcases shard.valid with ⟨-, hzero⟩ | ⟨-, hne⟩
      · exact absurd (hzero ▸ by decide) hcount
      · exact Nat.pos_of_ne_zero fun h ↦ hne (UInt32.toNat_inj.mp h)
    have hdiv := Nat.div_add_mod (cursor.rank % 2 ^ 32) shard.stripeSize.toNat
    have hmod := Nat.mod_lt (cursor.rank % 2 ^ 32) hstripe
    rw [Nat.mul_comm] at hdiv
    split_ifs <;> omega

theorem Contiguous.eq_stop (hc : Contiguous cursor stop) (hlt : ¬ cursor < stop) :
    cursor = stop := by
  obtain ⟨hle, -⟩ := hc
  rw [lt_iff_rank] at hlt
  exact rank_injective (by omega)

theorem Contiguous.step (hc : Contiguous cursor stop) (hn : 0 < n)
    (hnext : next.rank = cursor.rank + n) (hle : cursor.rank + n ≤ stop.rank) :
    Contiguous next stop := by
  obtain ⟨-, hrel, hc⟩ := hc
  unfold Contiguous
  omega

theorem eq_of_fork {k l : Key} (h : k.rank / 2 ^ 32 = l.rank / 2 ^ 32) :
    k = { l with field6 := k.field6 } := by
  have hk := k.field6.toNat_lt
  have hl := l.field6.toNat_lt
  refine rank_injective ?_
  simp only [rank] at h ⊢
  omega

/-- Within a stripe, only the key of an SLRU directory is not like the others. -/
theorem isKeyDisposable_congr {l : Key} (hfork : k.rank / 2 ^ 32 = l.rank / 2 ^ 32)
    (hk : k.field6 ≠ 0xffffffff) (hl : l.field6 ≠ 0xffffffff)
    (hstripe : k.field6 / shard.stripeSize = l.field6 / shard.stripeSize)
    (hdir : k.isSlruDirKey = l.isSlruDirKey) :
      shard.isKeyDisposable k = shard.isKeyDisposable l := by
  rw [eq_of_fork hfork] at hdir ⊢
  have hk' : (k.field6 == 0xffffffff) = false := beq_false_of_ne hk
  have hl' : (l.field6 == 0xffffffff) = false := beq_false_of_ne hl
  simp only [isKeyDisposable, isKeyGlobal, isKeyLocal,
    keyToShardNumber, keyIsShard0, isSlruBlockKey, isSlruSegmentSizeKey, isAuxFileKey,
    isRelBlockKey, isRelSizeKey, bne, hk', hl', hstripe, hdir]

theorem isSlruDirKey_iff : k.isSlruDirKey = true ↔
    k.field1 = 1 ∧ k.field3 = 0 ∧ k.field4 = 0 ∧ k.field5 = 0 ∧ k.field6 = 0 := by
  simp [isSlruDirKey, and_assoc]

theorem isKeyDisposable_of_number_zero (hnumber : shard.number = 0) (hfield : k.field1 ≠ 0) :
    shard.isKeyDisposable k = false := by
  simp [isKeyDisposable, isKeyLocal, keyIsShard0, isRelBlockKey, hnumber, hfield]

/-- **The first key of a stretch speaks for all of it**, if the stretch is not mixed. -/
theorem uniform (hc : Contiguous cursor stop) (hlt : cursor < stop)
    (hfit : shard.count < 2 → stop.rank - cursor.rank < 2 ^ 32) (hmixed : ¬ Mixed shard cursor stop)
    (hle : cursor ≤ k) (hk : k.rank < cursor.rank + distanceToNextBoundary shard stop cursor) :
    shard.isKeyDisposable k = shard.isKeyDisposable cursor := by
  by_cases hcount : shard.count < 2
  · simp [isKeyDisposable, hcount]
  have hdist := distance_spec hc hlt hfit
  by_cases hone : distanceToNextBoundary shard stop cursor = 1
  · rw [le_iff_rank] at hle
    rw [rank_injective (show k.rank = cursor.rank by omega)]
  have hmax : cursor.field6 ≠ 0xffffffff := by
    intro hmax
    exact hone (by rw [distanceToNextBoundary, if_neg hcount, if_pos hmax])
  have hremainder : distanceToNextBoundary shard stop cursor ≤ shard.stripeSize.toNat -
      (cursor.rank % 2 ^ 32 - cursor.rank % 2 ^ 32 / shard.stripeSize.toNat *
        shard.stripeSize.toNat) := by
    rw [distanceToNextBoundary, if_neg hcount, if_neg hmax, toNat_field6]
    exact min_le_left _ _
  obtain ⟨d, hd⟩ : ∃ d, distanceToNextBoundary shard stop cursor = d := ⟨_, rfl⟩
  obtain ⟨-, -, hc⟩ := hc
  have hmod := mt field6_eq_max_iff.mpr hmax
  rw [le_iff_rank] at hle
  rcases hdir : cursor.isSlruDirKey with - | -
  · refine isKeyDisposable_congr (by omega) ?_ hmax ?_ ?_
    · rw [Ne, field6_eq_max_iff]
      omega
    · rw [← UInt32.toNat_inj, UInt32.toNat_div, UInt32.toNat_div, toNat_field6, toNat_field6]
      have hdiv := Nat.div_mul_le_self (cursor.rank % 2 ^ 32) shard.stripeSize.toNat
      refine Nat.div_eq_of_lt_le ?_ ?_
      · omega
      · rw [Nat.succ_mul]
        omega
    · rw [hdir, Bool.eq_false_iff]
      intro hk0
      have hzero : k.rank % 2 ^ 32 = 0 := by
        rw [← toNat_field6, (isSlruDirKey_iff.mp hk0).2.2.2.2]
        rfl
      have hsame : k = cursor := rank_injective (by omega)
      rw [hsame, hdir] at hk0
      cases hk0
  · have hfield := (isSlruDirKey_iff.mp hdir).1
    have hnumber : shard.number = 0 := by
      by_contra hnumber
      have hstripe : ¬ 2 ≤ shard.stripeSize ∨ ¬ 2 ≤ stop.field6 := by
        by_contra hboth
        rw [not_or, not_not, not_not] at hboth
        exact hmixed ⟨UInt8.not_lt.mp hcount, hnumber, hboth.1, hdir, hboth.2⟩
      have htwo : (2 : UInt32).toNat = 2 := rfl
      rw [UInt32.le_iff_toNat_le, UInt32.le_iff_toNat_le, toNat_field6] at hstripe
      omega
    have hfork : k.rank / 2 ^ 32 = cursor.rank / 2 ^ 32 := by omega
    have hkfield : k.field1 = cursor.field1 := by rw [eq_of_fork hfork]
    rw [isKeyDisposable_of_number_zero hnumber (by rw [hkfield, hfield]; decide),
      isKeyDisposable_of_number_zero hnumber (by rw [hfield]; decide)]

/-- What the loops know of the cursor. -/
structure Walk (shard : ShardIdentity) (cursor stop : Key) : Prop where
  contiguous : Contiguous cursor stop
  fits : shard.count < 2 → stop.rank - cursor.rank < 2 ^ 32
  not_mixed : ¬ Mixed shard cursor stop

/-- Behind the first stretch nothing is mixed. -/
theorem advance (hc : Contiguous cursor stop)
    (hfits : shard.count < 2 → stop.rank - cursor.rank < 2 ^ 32) (hlt : cursor < stop) (hn : 0 < n)
    (hle : n ≤ distanceToNextBoundary shard stop cursor) :
    ∃ next, cursor.add (.ofNat n) = some next ∧ next.rank = cursor.rank + n ∧ cursor < next ∧
      next ≤ stop ∧ Walk shard next stop := by
  obtain ⟨-, hstop, hsmall⟩ := distance_spec hc hlt hfits
  have hnat : (UInt32.ofNat n).toNat = n := by
    rw [UInt32.toNat_ofNat']
    omega
  have := stop.rank_lt
  obtain ⟨next, hadd, hrank⟩ := exists_add (k := cursor) (x := .ofNat n) (by omega)
  rw [hnat] at hrank
  refine ⟨next, hadd, hrank, ?_, ?_, hc.step hn hrank (by omega), fun hcount ↦ ?_, ?_⟩
  · rw [lt_iff_rank]
    omega
  · rw [le_iff_rank]
    omega
  · have := hfits hcount
    omega
  · rintro ⟨-, -, -, hdir, -⟩
    obtain ⟨-, -, -, h₅, h₆⟩ := isSlruDirKey_iff.mp hdir
    have hzero : next.rank % 2 ^ 40 = 0 := by
      simp only [rank, h₅, h₆, UInt8.toNat_zero, UInt32.toNat_zero]
      omega
    have hrel := hc.2.1
    omega

theorem Walk.step (h : Walk shard cursor stop) (hlt : cursor < stop) (hn : 0 < n)
    (hle : n ≤ distanceToNextBoundary shard stop cursor) :
    ∃ next, cursor.add (.ofNat n) = some next ∧ next.rank = cursor.rank + n ∧ cursor < next ∧
      next ≤ stop ∧ Walk shard next stop ∧
      localBlocks shard cursor next = if shard.isKeyDisposable cursor then 0 else n := by
  obtain ⟨next, hadd, hrank, hnext, hstop, hwalk⟩ := advance h.contiguous h.fits hlt hn hle
  refine ⟨next, hadd, hrank, hnext, hstop, hwalk, ?_⟩
  rw [localBlocks_uniform fun k hk hk' ↦ uniform h.contiguous hlt h.fits h.not_mixed hk ?_, hrank,
    Nat.add_sub_cancel_left]
  rw [lt_iff_rank] at hk'
  omega

end Stretch

/-! ## The loops -/

variable {frags : List Fragment}

section Loops

variable {shard : ShardIdentity} {start stop cursor next : Key} {target : UInt32}

theorem localBlocks_self : localBlocks shard stop stop = 0 := by simp [localBlocks, keysBetween]

theorem pageCountLoop_spec (h : Walk shard cursor stop) {fuel : ℕ}
    (hfuel : stop.rank - cursor.rank < fuel) (result : ℕ) :
    pageCountLoop shard stop fuel cursor result =
      some (result + localBlocks shard cursor stop) := by
  induction fuel generalizing cursor result with
  | zero => exact absurd hfuel (Nat.not_lt_zero _)
  | succ fuel ih =>
    unfold pageCountLoop
    by_cases hlt : cursor < stop
    · obtain ⟨hpos, -⟩ := distance_spec h.contiguous hlt h.fits
      obtain ⟨next, hadd, hrank, hnext, hstop, hwalk, hblocks⟩ := h.step hlt hpos le_rfl
      simp only [hadd, bind_some]
      have hless : stop.rank - next.rank < fuel := by
        rw [lt_iff_rank] at hlt
        omega
      rw [ih hwalk hless, localBlocks_add hnext.le hstop, hblocks]
      split_ifs
      · rw [Nat.zero_add]
      · rw [Nat.add_assoc]
    · rw [if_neg hlt, h.contiguous.eq_stop hlt, localBlocks_self, Nat.add_zero]

/-- Fragments up to the cursor, the last one first. Only a single fragment can have no block. -/
structure Fragments (shard : ShardIdentity) (target : UInt32) (start cursor : Key)
    (frags : List Fragment) : Prop where
  tiles : Tiles start cursor (frags.reverse.map fun f ↦ (f.start, f.stop))
  size_eq : ∀ f ∈ frags, f.size = localBlocks shard f.start f.stop
  size_le : ∀ f ∈ frags, f.size ≤ target.toNat
  pos : (∀ f ∈ frags, 0 < f.size) ∨ ∃ f, frags = [f] ∧ f.size = 0

theorem Fragments.append (h : Fragments shard target start cursor frags) (hnext : cursor < next)
    {size : ℕ} (hsize : size = localBlocks shard cursor next) (hle : size ≤ target.toNat)
    (hpos : frags = [] ∨ 0 < size ∧ ∀ f ∈ frags, 0 < f.size) :
    Fragments shard target start next (⟨size, cursor, next⟩ :: frags) := by
  refine ⟨?_, forall_mem_cons.mpr ⟨hsize, h.size_eq⟩, forall_mem_cons.mpr ⟨hle, h.size_le⟩, ?_⟩
  · rw [reverse_cons, map_append]
    exact h.tiles.push hnext
  · rcases hpos with rfl | hpos
    · rcases Nat.eq_zero_or_pos size with hzero | hpos
      · exact .inr ⟨_, rfl, hzero⟩
      · exact .inl (by simpa using hpos)
    · exact .inl (forall_mem_cons.mpr hpos)

theorem Fragments.extend {frag : Fragment} (h : Fragments shard target start cursor (frag :: frags))
    (hnext : cursor < next) {size : ℕ} (hsize : size = localBlocks shard cursor next)
    (hle : frag.size + size ≤ target.toNat) :
    Fragments shard target start next (⟨frag.size + size, frag.start, next⟩ :: frags) := by
  obtain ⟨hfrag, hfrags⟩ := forall_mem_cons.mp h.size_eq
  have htiles := h.tiles
  rw [reverse_cons, map_append] at htiles
  obtain ⟨-, hne, hstop⟩ := Tiling.tiles_append_singleton.mp htiles
  refine ⟨?_, forall_mem_cons.mpr ⟨?_, hfrags⟩,
    forall_mem_cons.mpr ⟨hle, (forall_mem_cons.mp h.size_le).2⟩, ?_⟩
  · rw [reverse_cons, map_append]
    exact htiles.widen hnext.le
  · obtain rfl : frag.stop = cursor := hstop
    rw [localBlocks_add hne.le hnext.le, ← hfrag, hsize]
  · rcases h.pos with hpos | ⟨f, hf, hzero⟩
    · obtain ⟨hpos, hrest⟩ := forall_mem_cons.mp hpos
      exact .inl (forall_mem_cons.mpr ⟨Nat.add_pos_left hpos size, hrest⟩)
    · cases hf
      rcases Nat.eq_zero_or_pos (frag.size + size) with hzero | hpos
      · exact .inr ⟨_, rfl, hzero⟩
      · exact .inl (by simpa using hpos)

theorem wantBlocks_pos (htarget : 0 < target.toNat) (frags : List Fragment) :
    0 < wantBlocks target frags := by
  cases frags with
  | nil => exact htarget
  | cons frag frags =>
    simp only [wantBlocks]
    split_ifs <;> omega

theorem Fragments.push (h : Fragments shard target start cursor frags) (htarget : 0 < target.toNat)
    (hnext : cursor < next) {disposable : Bool}
    (hn : disposable = false → 0 < n ∧ n ≤ wantBlocks target frags)
    (hsize : localBlocks shard cursor next = if disposable then 0 else n) :
    Fragments shard target start next
      (push target disposable (if disposable then 0 else n) cursor next frags) := by
  cases frags with
  | nil =>
    refine h.append hnext hsize.symm ?_ (.inl rfl)
    cases disposable with
    | true => exact Nat.zero_le _
    | false => exact (hn rfl).2
  | cons frag frags =>
    have hle := (forall_mem_cons.mp h.size_le).1
    rw [ShardedRange.push]
    by_cases hmerge : frag.size < target.toNat ∨ disposable = true
    · rw [if_pos hmerge]
      refine h.extend hnext hsize.symm ?_
      cases disposable with
      | true => exact hle
      | false =>
        obtain ⟨-, hn⟩ := hn rfl
        have hshort : frag.size < target.toNat := hmerge.resolve_right (by decide)
        simp only [wantBlocks, if_pos hshort] at hn
        simp only [Bool.false_eq_true, if_false]
        omega
    · rw [if_neg hmerge]
      rw [not_or] at hmerge
      obtain ⟨hfull, hdisp⟩ := hmerge
      have hfalse : disposable = false := Bool.eq_false_iff.mpr hdisp
      obtain ⟨hn0, hwant⟩ := hn hfalse
      subst hfalse
      simp only [wantBlocks, if_neg hfull] at hwant
      refine h.append hnext hsize.symm hwant (.inr ⟨hn0, ?_⟩)
      -- the last fragment is complete, so that it is not the one without blocks
      refine h.pos.resolve_right ?_
      rintro ⟨f, hf, hzero⟩
      cases hf
      omega

theorem fragmentLoop_spec (htarget : 0 < target.toNat) (h : Walk shard cursor stop)
    (hfrags : Fragments shard target start cursor frags) :
    ∃ frags', (∀ fuel, stop.rank - cursor.rank < fuel →
        fragmentLoop shard stop target fuel cursor frags = some frags'.reverse) ∧
      Fragments shard target start stop frags' := by
  -- each round comes closer to the end of the range
  induction hd : stop.rank - cursor.rank using Nat.strong_induction_on generalizing
    cursor frags with
  | _ d ih =>
    by_cases hlt : cursor < stop
    · obtain ⟨hdist, -⟩ := distance_spec h.contiguous hlt h.fits
      have hwant := wantBlocks_pos htarget frags
      obtain ⟨n, hn⟩ : ∃ n, (if shard.isKeyDisposable cursor then distanceToNextBoundary
        shard stop cursor
          else min (distanceToNextBoundary shard stop cursor) (wantBlocks target frags)) = n :=
            ⟨_, rfl⟩
      have hn0 : 0 < n := by
        rw [← hn]
        split_ifs <;> omega
      have hnle : n ≤ distanceToNextBoundary shard stop cursor := by
        rw [← hn]
        split_ifs <;> omega
      obtain ⟨next, hadd, hrank, hnext, -, hwalk, hblocks⟩ := h.step hlt hn0 hnle
      have hless : stop.rank - next.rank < d := by
        rw [lt_iff_rank] at hlt
        omega
      have hpush := hfrags.push htarget hnext (fun hdisp ↦ ⟨hn0, by
        rw [← hn, hdisp]
        exact min_le_right _ _⟩) hblocks
      obtain ⟨frags', heq, hfrags'⟩ := ih _ hless hwalk hpush rfl
      refine ⟨frags', fun fuel hfuel ↦ ?_, hfrags'⟩
      obtain ⟨fuel, rfl⟩ := Nat.exists_eq_succ_of_ne_zero (Nat.ne_zero_of_lt hfuel)
      rw [fragmentLoop, if_pos hlt]
      simp only [hn, hadd]
      exact heq fuel (by omega)
    · refine ⟨frags, fun fuel hfuel ↦ ?_, h.contiguous.eq_stop hlt ▸ hfrags⟩
      obtain ⟨fuel, rfl⟩ := Nat.exists_eq_succ_of_ne_zero (Nat.ne_zero_of_lt hfuel)
      rw [fragmentLoop, if_neg hlt]

theorem sum_size (htiles : Tiles start stop (frags.map fun f ↦ (f.start, f.stop)))
    (hsize : ∀ f ∈ frags, f.size = localBlocks shard f.start f.stop) :
    (frags.map Fragment.size).sum = localBlocks shard start stop := by
  induction frags generalizing start with
  | nil =>
    obtain rfl : start = stop := htiles
    exact localBlocks_self.symm
  | cons f frags ih =>
    obtain ⟨hf, hsize⟩ := forall_mem_cons.mp hsize
    obtain ⟨rfl, hlt, htiles⟩ := htiles
    rw [map_cons, sum_cons, ih htiles hsize, hf, ← localBlocks_add hlt.le htiles.le]

end Loops

/-! ## All ranges -/

section Ranges

variable {shard : ShardIdentity} {start stop : Key} {target : UInt32}

/-- What `fragment` and `page_count` are for. -/
structure Fragmented (shard : ShardIdentity) (start stop : Key) (target : UInt32)
    (frags : List Fragment) (pages : ℕ) : Prop where
  tiles : Tiles start stop (frags.map fun f ↦ (f.start, f.stop))
  size_eq : ∀ f ∈ frags, f.size = localBlocks shard f.start f.stop
  size_le : ∀ f ∈ frags, f.size ≤ target.toNat
  pages_eq : pages = (frags.map Fragment.size).sum
  exists_local : 0 < pages → ∀ f ∈ frags, ∃ k, f.start ≤ k ∧ k < f.stop ∧
    shard.isKeyDisposable k = false

theorem pos_localBlocks_iff {lo hi : Key} :
    0 < localBlocks shard lo hi ↔ ∃ k, lo ≤ k ∧ k < hi ∧ shard.isKeyDisposable k = false := by
  simp [localBlocks, countP_pos_iff, mem_keysBetween, and_assoc]

theorem Fragments.fragmented (h : Fragments shard target start stop frags) :
    Fragmented shard start stop target frags.reverse (localBlocks shard start stop) := by
  have hsize : ∀ f ∈ frags.reverse, f.size = localBlocks shard f.start f.stop :=
    fun f hf ↦ h.size_eq f (mem_reverse.mp hf)
  have hsum := sum_size h.tiles hsize
  refine ⟨h.tiles, hsize, fun f hf ↦ h.size_le f (mem_reverse.mp hf), hsum.symm, fun hpos f hf ↦ ?_⟩
  rw [← pos_localBlocks_iff, ← hsize f hf]
  rcases h.pos with hall | ⟨f', rfl, hzero⟩
  · exact hall f (mem_reverse.mp hf)
  · rw [← hsum] at hpos
    simp [hzero] at hpos

theorem contiguousRangeLen_eq (h : Contiguous start stop) (hlt : stop.rank - start.rank < 2 ^ 32) :
    contiguousRangeLen start stop = stop.rank - start.rank := by
  obtain ⟨hle, -, hc⟩ := h
  unfold contiguousRangeLen
  simp only [field6_eq_max_iff, toNat_field6]
  split_ifs <;> omega

def FragmentsWell (shard : ShardIdentity) (start stop : Key) (target : UInt32) : Prop :=
  ∃ n frags pages, (∀ fuel, n ≤ fuel → fragment shard start stop fuel target = some frags ∧
    pageCount shard start stop fuel = some pages) ∧ Fragmented shard start stop target frags pages

theorem exists_succ (hmax : start ≠ .max) :
    ∃ next, start.add 1 = some next ∧ next.rank = start.rank + 1 := by
  refine exists_add ?_
  have hlt := start.rank_lt
  have hne : start.rank ≠ 2 ^ 144 - 1 := fun h ↦ hmax (rank_injective (h.trans (by decide)))
  have hone : (1 : UInt32).toNat = 1 := rfl
  omega

theorem fragments_nil : Fragments shard target start start [] :=
    ⟨rfl, by simp, by simp, .inl (by simp)⟩

theorem fragmentsWell_single (hadd : start.add 1 = some stop) (htarget : 1 ≤ target) :
    FragmentsWell shard start stop target := by
  have hrank : stop.rank = start.rank + 1 := rank_add hadd
  have hlt : start < stop := by
    rw [lt_iff_rank]
    omega
  have hblocks : localBlocks shard start stop = if shard.isKeyDisposable start then 0 else 1 := by
    rw [localBlocks_uniform fun k hk hk' ↦ ?_, hrank, Nat.add_sub_cancel_left]
    rw [le_iff_rank] at hk
    rw [lt_iff_rank] at hk'
    rw [rank_injective (show k.rank = start.rank by omega)]
  have hone : localBlocks shard start stop ≤ target.toNat := by
    have htarget : 1 ≤ target.toNat := UInt32.le_iff_toNat_le.mp htarget
    rw [hblocks]
    split_ifs <;> omega
  refine ⟨0, _, _, fun fuel _ ↦ ?_, (fragments_nil.append hlt rfl hone (.inl rfl)).fragmented⟩
  simp [fragment, pageCount, hadd, hblocks]

theorem fragmentsWell_of (hcont : isContiguousRange start stop = true) (htarget : 1 ≤ target)
    (hle : start ≤ stop) (hmax : start ≠ .max) (hfit : localBlocks shard start stop < 2 ^ 32)
    (hmixed : ¬ Mixed shard start stop) : FragmentsWell shard start stop target := by
  obtain ⟨next, hadd, -⟩ := exists_succ hmax
  by_cases hsingle : stop = next
  · exact fragmentsWell_single (hsingle ▸ hadd) htarget
  · have hcontiguous := contiguous_of_isContiguousRange hcont hle
    have hall (hcount : shard.count < 2) :
      localBlocks shard start stop = stop.rank - start.rank := by
      have hkeep (k : Key) : shard.isKeyDisposable k = false := by
        simp [isKeyDisposable, hcount]
      rw [localBlocks_uniform fun k _ _ ↦ by rw [hkeep, hkeep], hkeep, if_neg Bool.false_ne_true]
    have hwalk : Walk shard start stop := ⟨hcontiguous, fun hcount ↦ hall hcount ▸ hfit, hmixed⟩
    obtain ⟨frags, hloop, hfrags⟩ :=
      fragmentLoop_spec (UInt32.le_iff_toNat_le.mp htarget) hwalk fragments_nil
    refine ⟨stop.rank - start.rank + 1, _, _, fun fuel hfuel ↦ ⟨?_, ?_⟩, hfrags.fragmented⟩
    · simp [fragment, hadd, hsingle, hcont, hloop fuel hfuel]
    · simp only [pageCount, hadd, bind_some, if_neg hsingle, hcont, Bool.not_true,
        Bool.false_eq_true, if_false]
      by_cases hcount : shard.count < 2
      · rw [if_pos hcount, hall hcount, contiguousRangeLen_eq hcontiguous (hall hcount ▸ hfit)]
      · rw [if_neg hcount, pageCountLoop_spec hwalk hfuel, Nat.zero_add, map_some,
          Nat.min_eq_left (by omega)]

theorem pageCount_lt {fuel pages : ℕ} (h : pageCount shard start stop fuel = some pages) :
    pages < 2 ^ 32 := by
  obtain ⟨next, -, h⟩ := bind_eq_some_iff.mp h
  split_ifs at h
  · cases h
    omega
  · cases h
    omega
  · cases h
    omega
  · cases h
    unfold contiguousRangeLen
    split_ifs <;> exact Nat.mod_lt _ (by omega)
  · obtain ⟨result, -, rfl⟩ := map_eq_some_iff.mp h
    omega

theorem exists_pageCount_lt (hcont : isContiguousRange start stop = true) (hle : start ≤ stop)
    (hmixed : Mixed shard start stop) :
    ∃ n pages, (∀ fuel, n ≤ fuel → pageCount shard start stop fuel = some pages) ∧
      pages < localBlocks shard start stop := by
  obtain ⟨hcount, hnumber, hstripe, hdir, hstop⟩ := hmixed
  have hc := contiguous_of_isContiguousRange hcont hle
  have hcount' : ¬ shard.count < 2 := UInt8.not_lt.mpr hcount
  obtain ⟨h₁, h₃, h₄, h₅, h₆⟩ := isSlruDirKey_iff.mp hdir
  have hzero : start.rank % 2 ^ 32 = 0 := by
    rw [← toNat_field6, h₆]
    rfl
  have htwo : (2 : UInt32).toNat = 2 := rfl
  rw [UInt32.le_iff_toNat_le] at hstripe hstop
  rw [toNat_field6] at hstop
  have hfork : start.rank / 2 ^ 32 = stop.rank / 2 ^ 32 := by
    have := hc.2.2
    omega
  have hlt : start < stop := by
    rw [lt_iff_rank]
    omega
  have hdisp : shard.isKeyDisposable start = true := by
    simp [isKeyDisposable, hcount', isKeyGlobal, hdir,
      isKeyLocal, keyIsShard0, keyToShardNumber, isRelBlockKey, h₁, hnumber, hnumber.symm]
  have hdist : 2 ≤ distanceToNextBoundary shard stop start := by
    have hne : ¬ start.field6 = 0xffffffff := by
      rw [h₆]
      decide
    simp only [distanceToNextBoundary, contiguousRangeLen, if_neg hcount', if_neg hne, toNat_field6,
      hzero, Nat.zero_div, Nat.zero_mul]
    omega
  obtain ⟨next, hadd, hrank, hnext, hnstop, hwalk⟩ :=
    advance hc (fun h ↦ absurd h hcount') hlt (Nat.lt_of_succ_lt hdist) le_rfl
  obtain ⟨succ, hsucc, hsrank⟩ := exists_succ fun hmax :
    start = .max ↦ absurd (hmax ▸ h₁) (by decide)
  -- the second key is one that all shards keep
  have hkept : 0 < localBlocks shard start next := by
    refine pos_localBlocks_iff.mpr ⟨succ, ?_, ?_, ?_⟩
    · rw [le_iff_rank]
      omega
    · rw [lt_iff_rank]
      omega
    · have hblock : succ.field6 ≠ 0 := by
        rw [Ne, ← UInt32.toNat_inj, toNat_field6, UInt32.toNat_zero]
        omega
      have hsame : succ = { start with field6 := succ.field6 } := eq_of_fork (by omega)
      rw [hsame]
      simp [isKeyDisposable, isKeyGlobal, isSlruBlockKey,
        isSlruSegmentSizeKey, isAuxFileKey, isSlruDirKey, isRelBlockKey, auxKeyPrefix,
        h₁, h₃, hblock]
  refine ⟨stop.rank - start.rank + 1, min (localBlocks shard next stop) (2 ^ 32 - 1),
    fun fuel hfuel ↦ ?_, ?_⟩
  · have hne : stop ≠ succ := by
      rintro rfl
      omega
    obtain ⟨fuel, rfl⟩ : ∃ m, fuel = m + 1 := ⟨fuel - 1, by omega⟩
    simp only [pageCount, hsucc, bind_some, if_neg hne, hcont, Bool.not_true, Bool.false_eq_true,
      if_false, if_neg hcount', pageCountLoop, if_pos hlt, hadd, hdisp, if_true]
    rw [pageCountLoop_spec hwalk (by omega), Nat.zero_add, map_some]
  · rw [localBlocks_add hnext.le hnstop]
    exact (min_le_left _ _).trans_lt (Nat.lt_add_of_pos_left hkept)

/-- **A contiguous range is fragmented well exactly if it is a range**, begins below the last key,
has less than 2 ^ 32 blocks of the shard, and does not begin with a mixed stretch. -/
theorem fragmentsWell_iff (hcont : isContiguousRange start stop = true) (htarget : 1 ≤ target) :
    FragmentsWell shard start stop target ↔
      start ≤ stop ∧ start ≠ .max ∧ localBlocks shard start stop < 2 ^ 32 ∧
        ¬ Mixed shard start stop := by
  constructor
  · rintro ⟨n, frags, pages, hrun, hfrags⟩
    have hle : start ≤ stop := hfrags.tiles.le
    have hpages : pages = localBlocks shard start stop :=
      hfrags.pages_eq.trans (sum_size hfrags.tiles hfrags.size_eq)
    refine ⟨hle, ?_, hpages ▸ pageCount_lt (hrun n le_rfl).2, fun hmixed ↦ ?_⟩
    · rintro rfl
      cases (hrun n le_rfl).1
    · obtain ⟨m, pages', hcount, hlt⟩ := exists_pageCount_lt hcont hle hmixed
      have hsame := (hrun (max n m) (le_max_left n m)).2.symm.trans (hcount _ (le_max_right n m))
      rw [← hpages, Option.some.inj hsame] at hlt
      exact lt_irrefl _ hlt
  · rintro ⟨hle, hmax, hfit, hmixed⟩
    exact fragmentsWell_of hcont htarget hle hmax hfit hmixed

/-- A block of the main fork of a relation, or its size. -/
def blockOf (fork : UInt8) (block : UInt32) : Key := ⟨0, 1663, 5, 16384, fork, block⟩

/-- The second of two shards, with stripes of one block. -/
def shardOne : ShardIdentity := ⟨1, 2, 1, .inr (by decide)⟩

/-- Of twelve blocks the shard has some, which it cuts into fragments of two. -/
theorem fragmentsWell_iff_two : localBlocks shardOne (blockOf 0 0) (blockOf 0 12) = 6 ∧
      FragmentsWell shardOne (blockOf 0 0) (blockOf 0 12) 2 :=
  ⟨by decide +kernel, (fragmentsWell_iff (by decide) (by decide)).mpr
    ⟨by decide, by decide, by decide +kernel, by decide⟩⟩

theorem fragmentLoop_wrapped (fuel : ℕ) (frags : List Fragment) :
    fragmentLoop .unsharded (blockOf 1 0xffffffff) 1 fuel (blockOf 0 0xffffffff) frags = none := by
  induction fuel generalizing frags with
  | zero => rfl
  | succ fuel ih => exact ih _

/-- From the size of one fork over 2 ^ 32 - 1 blocks of the next one: the cursor does not move. -/
theorem fragment_wrapped_eq_none :
    isContiguousRange (blockOf 0 0xffffffff) (blockOf 1 0xffffffff) = true ∧
      ∀ fuel, fragment .unsharded (blockOf 0 0xffffffff) (blockOf 1 0xffffffff) fuel 1 = none :=
  ⟨by decide, fun fuel ↦ fragmentLoop_wrapped fuel []⟩

end Ranges

end ShardedRange

end NeonStorage.Pageserver
