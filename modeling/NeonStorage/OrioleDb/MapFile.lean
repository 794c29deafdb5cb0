import NeonStorage.Lib.Blocks
import NeonStorage.Lib.Emission
import NeonStorage.Lib.Wire
import NeonStorage.OrioleDb.Buffers
import Mathlib.Data.List.Infix

/-!
# The mirror of a map file

A checkpoint of a tree writes a map file: a header, and the extents of the data file that are free.
`checkpoint_ix` mirrors the file to the pageserver, as images of the blocks of the INIT fork, one
record for each block and the header first. When the tree is created, block 0 alone is written. A
compute that starts without its local files puts the map file together again from the blocks.

Records carry the event that they come from, which nothing but `Consistent` looks at.
-/

namespace NeonStorage.OrioleDb

open List

/-! ## The file -/

structure CheckpointFileHeader where
  ctid : UInt64
  bridgeCtid : UInt64
  rootDownlink : UInt64
  datafileLength : UInt64
  numFreeBlocks : UInt64
  leafPagesNum : UInt32
  deriving DecidableEq

open CheckpointFileHeader

namespace CheckpointFileHeader

/-- `sizeof(CheckpointFileHeader)`, with four bytes of padding at the end. -/
def size : ℕ := 48

def ser (h : CheckpointFileHeader) : List UInt8 :=
  leBytes 8 h.ctid.toNat ++ (leBytes 8 h.bridgeCtid.toNat ++ (leBytes 8 h.rootDownlink.toNat ++
    (leBytes 8 h.datafileLength.toNat ++ (leBytes 8 h.numFreeBlocks.toNat ++
      (leBytes 4 h.leafPagesNum.toNat ++ List.replicate 4 0)))))

def des (bs : List UInt8) : Option (CheckpointFileHeader × List UInt8) := do
  let (ctid, bs) ← getLe 8 bs
  let (bridgeCtid, bs) ← getLe 8 bs
  let (rootDownlink, bs) ← getLe 8 bs
  let (datafileLength, bs) ← getLe 8 bs
  let (numFreeBlocks, bs) ← getLe 8 bs
  let (leafPagesNum, bs) ← getLe 4 bs
  let (_, bs) ← getBytes 4 bs
  pure (⟨.ofNat ctid, .ofNat bridgeCtid, .ofNat rootDownlink, .ofNat datafileLength,
    .ofNat numFreeBlocks, .ofNat leafPagesNum⟩, bs)

theorem length_ser (h : CheckpointFileHeader) : h.ser.length = size := by
  simp [ser, size]

theorem des_ser (h : CheckpointFileHeader) (rest : List UInt8) :
    des (h.ser ++ rest) = some (h, rest) := by
  have h64 : ∀ x : UInt64, x.toNat < 256 ^ 8 := fun x ↦ x.toNat_lt
  have h32 : h.leafPagesNum.toNat < 256 ^ 4 := h.leafPagesNum.toNat_lt
  simp only [ser, des, append_assoc, getLe_append _ (h64 _), getLe_append _ h32,
    getBytes_append rest length_replicate, Option.bind_eq_bind, Option.bind_some,
    UInt64.ofNat_toNat, UInt32.ofNat_toNat]
  rfl

end CheckpointFileHeader

/-- The size of an entry: a `uint32` offset, or a `FileExtent` if the tree is compressed or on a
device. -/
def entrySize (extents : Bool) : ℕ := if extents then 8 else 4

def entryBytes {size : ℕ} (e : Fin (256 ^ size)) : List UInt8 := leBytes size e.val

structure Checkpoint (extents : Bool) where
  ctid : UInt64
  bridgeCtid : UInt64
  rootDownlink : UInt64
  datafileLength : UInt64
  leafPagesNum : UInt32
  /-- The free extents, as numbers. -/
  free : List (Fin (256 ^ entrySize extents))

variable {extents : Bool}

namespace Checkpoint

variable (c : Checkpoint extents)

def header : CheckpointFileHeader where
  ctid := c.ctid
  bridgeCtid := c.bridgeCtid
  rootDownlink := c.rootDownlink
  datafileLength := c.datafileLength
  numFreeBlocks := .ofNat c.free.length
  leafPagesNum := c.leafPagesNum

def mapFile : List UInt8 := c.header.ser ++ c.free.flatMap entryBytes

def Fits : Prop := blockCount blcksz c.mapFile ≤ 2 ^ 32

end Checkpoint

/-! ## Records -/

/-- The header that `orioledb_page_wal_emit_map_header` writes. -/
def createdHeader (rootDownlink : UInt64) : CheckpointFileHeader := ⟨0, 0, rootDownlink, 1, 0, 1⟩

def headerPage (header : CheckpointFileHeader) : List UInt8 :=
  header.ser ++ List.replicate (blcksz - size) 0

inductive MapEvent (extents : Bool) where
  /-- A tree is created, with a root in the data file. -/
  | created (rootDownlink : UInt64)
  /-- A checkpoint, which is not mirrored if it is a shutdown checkpoint. -/
  | checkpoint (c : Checkpoint extents) (checkpointIsShutdown : Bool)

open MapEvent

/-- The image of a block of the INIT fork. -/
structure MapRecord (extents : Bool) where
  blkno : ℕ
  page : List UInt8
  origin : MapEvent extents

variable (e : MapEvent extents)

namespace MapEvent

def header : MapEvent extents → CheckpointFileHeader
  | created rootDownlink => createdHeader rootDownlink
  | checkpoint c _ => c.header

def free : MapEvent extents → List (Fin (256 ^ entrySize extents))
  | created _ => []
  | checkpoint c _ => c.free

/-- The loop at the end of `checkpoint_ix`. -/
def mirrorFile (file : List UInt8) : List (MapRecord extents) :=
  (blocks blcksz 0 file).zipIdx.map fun b ↦ ⟨b.2 % 2 ^ 32, b.1, e⟩

def records : MapEvent extents → List (MapRecord extents)
  | e@(created _) => [⟨0, headerPage e.header, e⟩]
  | e@(checkpoint c checkpointIsShutdown) =>
    if checkpointIsShutdown then [] else mirrorFile e c.mapFile

end MapEvent

/-! ## The pageserver, and rehydration -/

structure InitFork (extents : Bool) where
  pages : List (List UInt8)
  /-- Where block 0 comes from. -/
  origin : Option (MapEvent extents)

open InitFork

variable (fork : InitFork extents)

namespace InitFork

def empty : InitFork extents := ⟨[], none⟩

def put (r : MapRecord extents) : InitFork extents where
  pages := putBlock (List.replicate blcksz 0) fork.pages r.blkno r.page
  origin := if r.blkno = 0 then some r.origin else fork.origin

def replay (rs : List (MapRecord extents)) : InitFork extents := rs.foldl put empty

end InitFork

/-- The entries of a free list that are there, at most `n` of them. -/
def getEntries (size : ℕ) : ℕ → List UInt8 → List ℕ
  | 0, _ => []
  | n + 1, bs =>
    match getLe size bs with
    | none => []
    | some (e, rest) => e :: getEntries size n rest

/-- The part of `evictable_tree_init_meta` that puts the file together from all blocks of the fork,
with the free list that the header announces. -/
def rehydrate : Option (CheckpointFileHeader × List ℕ) :=
  if fork.pages.length = 0 then none
  else
    (des fork.pages.flatten).map fun (header, bs) ↦
      (header, getEntries (entrySize extents) header.numFreeBlocks.toNat bs)

/-- What is rehydrated is what one event recorded, the one that block 0 comes from. -/
def Consistent : Prop :=
  ∀ e, fork.origin = some e → rehydrate fork = some (e.header, e.free.map Fin.val)

/-! ## Reading the file back -/

theorem length_flatMap_entryBytes {size : ℕ} (es : List (Fin (256 ^ size))) :
    (es.flatMap entryBytes).length = es.length * size := by
  simp [length_flatMap, entryBytes]

theorem getEntries_eq_iff {size : ℕ} (es : List (Fin (256 ^ size))) (bs : List UInt8) :
    getEntries size es.length bs = es.map Fin.val ↔ es.flatMap entryBytes <+: bs := by
  induction es generalizing bs with
  | nil => simp [getEntries]
  | cons e es ih =>
    rw [length_cons, getEntries, getLe, getBytes, map_cons, flatMap_cons, entryBytes]
    by_cases hlen : size ≤ bs.length
    · rw [if_pos hlen]
      dsimp only [Option.map_some]
      have hsize : (bs.take size).length = size := length_take_of_le hlen
      have he : leNat (bs.take size) = e ↔ leBytes size e = bs.take size := by
        constructor
        · intro heq
          nth_rewrite 1 [← heq, ← hsize]
          exact leBytes_leNat _
        · intro heq
          rw [← heq, leNat_leBytes_of_lt e.isLt]
      rw [List.cons.injEq, ih, he]
      nth_rewrite 3 [← take_append_drop size bs]
      constructor
      · rintro ⟨heq, hpre⟩
        rw [heq]
        exact (prefix_append_right_inj _).mpr hpre
      · intro hpre
        have heq : leBytes size e = bs.take size :=
          (prefix_of_prefix_length_le ((prefix_append _ _).trans hpre)
            (prefix_append _ _) (by rw [hsize, length_leBytes])).eq_of_length
            (by rw [hsize, length_leBytes])
        rw [heq] at hpre
        exact ⟨heq, (prefix_append_right_inj _).mp hpre⟩
    · rw [if_neg hlen]
      constructor
      · intro h
        cases h
      · intro hpre
        have := hpre.length_le
        rw [length_append, length_leBytes] at this
        omega

namespace MapEvent

variable (e : MapEvent extents)

def mapFile : List UInt8 := e.header.ser ++ e.free.flatMap entryBytes

def Announced : Prop := e.header.numFreeBlocks.toNat = e.free.length

end MapEvent

/-- Once block 0 has the header of an event, the fork is consistent if it begins with the whole
file. -/
theorem consistent_iff_prefix {fork : InitFork extents} {e : MapEvent extents}
    (horigin : fork.origin = some e) (hann : e.Announced) (hpages : fork.pages ≠ [])
    (hheader : e.header.ser <+: fork.pages.flatten) :
    Consistent fork ↔ e.mapFile <+: fork.pages.flatten := by
  obtain ⟨rest, hrest⟩ := hheader
  have hread : rehydrate fork = some
    (e.header, getEntries (entrySize extents) e.free.length rest) := by
    rw [rehydrate, if_neg fun h ↦ hpages (eq_nil_of_length_eq_zero h), ← hrest,
      des_ser, Option.map_some]
    dsimp only
    rw [hann]
  have hcons : Consistent fork ↔ rehydrate fork = some (e.header, e.free.map Fin.val) := by
    constructor
    · exact fun h ↦ h e horigin
    · intro h e' he'
      rw [horigin] at he'
      exact Option.some.inj he' ▸ h
  rw [hcons, hread, Option.some.injEq, Prod.mk.injEq, getEntries_eq_iff, mapFile, ← hrest,
    prefix_append_right_inj]
  exact and_iff_right rfl

/-! ## Writing blocks over older ones -/

namespace InitFork

theorem foldl_put (bs : List (List UInt8)) (hbs : bs.length ≤ 2 ^ 32) :
    (bs.zipIdx.map fun b ↦ (⟨b.2 % 2 ^ 32, b.1, e⟩ : MapRecord extents)).foldl put fork =
      ⟨bs ++ fork.pages.drop bs.length, if bs.length = 0 then fork.origin else some e⟩ := by
  induction bs using List.reverseRecOn with
  | nil => rfl
  | append_singleton bs b ih =>
    rw [length_append, length_singleton] at hbs
    have hmod : bs.length % 2 ^ 32 = bs.length := Nat.mod_eq_of_lt (by omega)
    rw [zipIdx_append, map_append, foldl_append, ih (by omega)]
    simp only [Nat.zero_add, zipIdx_singleton, map_cons, map_nil, foldl_cons,
      foldl_nil, put, hmod, putBlock_append, length_append, length_singleton,
      drop_drop, append_assoc, singleton_append, Nat.succ_ne_zero, if_false]
    split_ifs <;> rfl

theorem length_of_mem_replay {rs : List (MapRecord extents)}
    (hrs : ∀ r ∈ rs, r.page.length = blcksz) :
    ∀ page ∈ (replay rs).pages, page.length = blcksz := by
  induction rs using List.reverseRecOn with
  | nil => exact nofun
  | append_singleton rs r ih =>
    intro page hp
    have hold := ih fun r' hr' ↦ hrs r' (mem_append_left _ hr')
    have hpage : r.page.length = blcksz := hrs r (mem_append_right _ (mem_singleton_self r))
    rw [replay, foldl_append, foldl_cons, foldl_nil, put] at hp
    dsimp only [putBlock] at hp
    split_ifs at hp
    · rcases mem_or_eq_of_mem_set hp with hp | rfl
      · exact hold page hp
      · exact hpage
    · rcases mem_append.mp hp with hp | hp
      · rcases mem_append.mp hp with hp | hp
        · exact hold page hp
        · rw [eq_of_mem_replicate hp, length_replicate]
      · rw [mem_singleton.mp hp, hpage]

end InitFork

namespace MapEvent

theorem mapFile_created (rootDownlink : UInt64) :
    (created rootDownlink : MapEvent extents).mapFile =
      (created rootDownlink : MapEvent extents).header.ser := append_nil _

theorem blockCount_created (rootDownlink : UInt64) :
    blockCount blcksz (created rootDownlink : MapEvent extents).mapFile = 1 := by
  rw [mapFile_created, blockCount, length_ser]
  rfl

theorem records_eq : e.records = [] ∨ e.records = mirrorFile e e.mapFile := by
  cases e with
  | created rootDownlink =>
    refine .inr ?_
    rw [mirrorFile, blocks, blockCount_created, mapFile_created]
    rfl
  | checkpoint c sd =>
    cases sd with
    | true => exact .inl rfl
    | false => exact .inr rfl

theorem length_page_of_mem : ∀ r ∈ e.records, r.page.length = blcksz := by
  intro r hr
  rcases e.records_eq with hnil | heq
  · rw [hnil] at hr
    cases hr
  · rw [heq] at hr
    obtain ⟨⟨page, k⟩, hb, rfl⟩ := mem_map.mp hr
    have hmem : page ∈ blocks blcksz 0 e.mapFile := (mem_zipIdx hb).2.2 ▸ getElem_mem _
    obtain ⟨i, -, rfl⟩ := mem_map.mp hmem
    exact length_block ..

end MapEvent

/-! ## Every prefix of the records -/

section Cut

variable {es₁ es₂ : List (MapEvent extents)} {e : MapEvent extents}

theorem length_free_le (e : MapEvent extents) : e.free.length ≤ e.mapFile.length := by
  have hsize : 0 < entrySize extents := by
    unfold entrySize
    split_ifs <;> decide
  rw [mapFile, length_append, length_flatMap_entryBytes]
  exact (Nat.le_mul_of_pos_right _ hsize).trans (Nat.le_add_left _ _)

theorem announced (hfit : blockCount blcksz e.mapFile ≤ 2 ^ 32) : e.Announced := by
  have hlen := (length_free_le e).trans (le_blockCount_mul blcksz e.mapFile (by decide))
  have hlt : e.free.length < 2 ^ 64 := by
    unfold blcksz at *
    omega
  cases e with
  | created _ => rfl
  | checkpoint c _ => exact UInt64.toNat_ofNat_of_lt' hlt

theorem length_records (hne : e.records ≠ []) : e.records.length = blockCount blcksz e.mapFile := by
  rw [e.records_eq.resolve_left hne, mirrorFile, length_map, length_zipIdx, length_blocks]

section

variable (hfit : blockCount blcksz e.mapFile ≤ 2 ^ 32)
include hfit

theorem replay_take {j : ℕ} (hj : 0 < j) (hle : j ≤ e.records.length)
    (rs : List (MapRecord extents)) : replay (rs ++ e.records.take j) =
      ⟨(blocks blcksz 0 e.mapFile).take j ++ (replay rs).pages.drop j, some e⟩ := by
  have hne : e.records ≠ [] := ne_nil_of_length_pos (hj.trans_le hle)
  rw [length_records hne] at hle
  have hlen : ((blocks blcksz 0 e.mapFile).take j).length = j := by
    rw [length_take, length_blocks, Nat.min_eq_left hle]
  rw [e.records_eq.resolve_left hne, mirrorFile, ← map_take, take_zipIdx,
    replay, foldl_append, foldl_put e _ _ (hlen.trans_le (hle.trans hfit)), hlen,
    if_neg hj.ne', replay]

theorem consistent_take_iff {j : ℕ} (hj : 0 < j) (hle : j ≤ e.records.length) :
    Consistent (replay (es₁.flatMap records ++ e.records.take j)) ↔
      e.mapFile.drop (j * blcksz) <+:
        (replay (es₁.flatMap records)).pages.flatten.drop (j * blcksz) := by
  have hpages : ∀ page ∈ (replay (es₁.flatMap records)).pages,
      page.length = blcksz := by
    refine length_of_mem_replay fun r hr ↦ ?_
    obtain ⟨e', -, hr⟩ := mem_flatMap.mp hr
    exact e'.length_page_of_mem r hr
  have hcount : j ≤ blockCount blcksz e.mapFile :=
    length_records (ne_nil_of_length_pos (hj.trans_le hle)) ▸ hle
  have hlen : ((blocks blcksz 0 e.mapFile).take j).length = j := by
    rw [length_take, length_blocks, Nat.min_eq_left hcount]
  rw [replay_take hfit hj hle, consistent_iff_prefix rfl (announced hfit),
    prefix_overwrite hpages hcount]
  · intro hnil
    rw [(append_eq_nil_iff.mp hnil).1, length_nil] at hlen
    omega
  · rw [flatten_append]
    refine (prefix_flatten_take 0 (prefix_append _ _) ?_ hcount).trans (prefix_append _ _)
    exact (show size ≤ 1 * blcksz by decide).trans (Nat.mul_le_mul_right _ hj)

end

theorem one_le_length_records (c : Checkpoint extents) :
    1 ≤ (checkpoint c false).records.length := by
  have hlen : size ≤ c.mapFile.length := by
    rw [Checkpoint.mapFile, length_append]
    exact Nat.le_add_right _ _
  have hcount := le_blockCount_mul blcksz c.mapFile (by decide)
  rw [show (checkpoint c false).records = mirrorFile _ c.mapFile from rfl,
    mirrorFile, length_map, length_zipIdx, length_blocks]
  simp only [size, blcksz] at *
  omega

/-- The mirror is consistent at every LSN if and only if each checkpoint finds in the fork what it
will write beyond the first block. -/
theorem consistent_iff {es : List (MapEvent extents)}
    (hfit : ∀ c checkpointIsShutdown, .checkpoint c checkpointIsShutdown ∈ es → c.Fits) :
    (∀ rs, rs <+: es.flatMap records → Consistent (replay rs)) ↔
      ∀ es₁ c es₂, es = es₁ ++ .checkpoint c false :: es₂ →
        c.mapFile.drop blcksz <+: (replay (es₁.flatMap records)).pages.flatten.drop blcksz := by
  have hfit' : ∀ e ∈ es, blockCount blcksz e.mapFile ≤ 2 ^ 32 := by
    rintro (root | ⟨c, sd⟩) he
    · rw [blockCount_created]
      decide
    · exact hfit c sd he
  rw [forall_prefix_flatMap nofun]
  constructor
  · rintro h es₁ c es₂ rfl
    have hfit₁ := hfit' (.checkpoint c false) (mem_append_right _ mem_cons_self)
    have hone := one_le_length_records c
    have hcut := (consistent_take_iff hfit₁ Nat.one_pos hone).mp
      (h es₁ _ es₂ rfl 1 Nat.one_pos hone)
    rwa [Nat.one_mul] at hcut
  · rintro h es₁ e es₂ rfl j hj hle
    have hfit₁ := hfit' e (mem_append_right _ mem_cons_self)
    rw [consistent_take_iff hfit₁ hj hle]
    have hblock : blcksz ≤ j * blcksz := Nat.le_mul_of_pos_left _ hj
    match e, hle with
    | .created root, _ =>
      rw [mapFile_created, drop_eq_nil_of_le]
      · exact nil_prefix
      · exact (show size ≤ blcksz by decide).trans hblock
    | .checkpoint c true, hle => exact absurd (hj.trans_le hle) (Nat.lt_irrefl 0)
    | .checkpoint c false, _ =>
      have hdrop := List.IsPrefix.drop (h es₁ c es₂ rfl) (j * blcksz - blcksz)
      rwa [drop_drop, drop_drop, Nat.add_sub_cancel' hblock] at hdrop

end Cut

/-! ## Two runs -/

def entryOne : Fin (256 ^ entrySize false) := ⟨1, by decide⟩

def entryTwo : Fin (256 ^ entrySize false) := ⟨2, by decide⟩

/-- Two map files of one block, the second one also at a shutdown checkpoint. -/
def shortRun : List (MapEvent false) :=
  [.created 0, .checkpoint ⟨0, 0, 0, 0, 1, [entryOne]⟩ false,
    .checkpoint ⟨0, 0, 0, 0, 1, [entryTwo]⟩ true, .checkpoint ⟨0, 0, 0, 0, 1, [entryTwo]⟩ false]

theorem consistent_iff_short : (shortRun.flatMap records).length = 3 ∧
    ∀ rs, rs <+: shortRun.flatMap records → Consistent (replay rs) := by
  have hmem {c : Checkpoint false} {sd : Bool} (hc : checkpoint c sd ∈ shortRun) :
      c.Fits ∧ c.mapFile.length ≤ blcksz := by
    rw [Checkpoint.Fits, blockCount]
    simp only [shortRun, mem_cons, checkpoint.injEq, reduceCtorEq, not_mem_nil, or_false,
      false_or] at hc
    rcases hc with ⟨rfl, -⟩ | ⟨rfl, -⟩ | ⟨rfl, -⟩ <;> decide
  refine ⟨rfl, (consistent_iff fun c sd hc ↦ (hmem hc).1).mpr fun es₁ c es₂ hes ↦ ?_⟩
  have hc : checkpoint c false ∈ shortRun := hes ▸ mem_append_right _ mem_cons_self
  rw [drop_eq_nil_of_le (hmem hc).2]
  exact nil_prefix

/-- A free list of one entry more than fits in the first block. -/
def sampleCheckpoint (x : Fin (256 ^ entrySize false)) : Checkpoint false :=
  ⟨0, 0, 0, 0, 1, List.replicate 2037 x⟩

/-- After the first block of the second checkpoint, the free list still ends with an entry of the
first checkpoint. -/
theorem exists_not_consistent :
    ∃ es : List (MapEvent false), (∀ c sd, .checkpoint c sd ∈ es → c.Fits) ∧
      ∃ rs, rs <+: es.flatMap records ∧ ¬ Consistent (replay rs) := by
  have hone : blockCount blcksz (checkpoint (sampleCheckpoint entryOne) false).mapFile ≤
    2 ^ 32 := by
    decide +kernel
  have htwo : blockCount blcksz (checkpoint (sampleCheckpoint entryTwo) false).mapFile ≤
    2 ^ 32 := by
    decide +kernel
  refine ⟨[.checkpoint (sampleCheckpoint entryOne) false,
    .checkpoint (sampleCheckpoint entryTwo) false],
    ?_, [checkpoint (sampleCheckpoint entryOne) false].flatMap records ++
      (checkpoint (sampleCheckpoint entryTwo) false).records.take 1, ?_, ?_⟩
  · intro c sd hc
    rcases mem_pair.mp hc with heq | heq
    · rw [(checkpoint.inj heq).1]
      exact hone
    · rw [(checkpoint.inj heq).1]
      exact htwo
  · rw [flatMap_singleton, flatMap_cons, flatMap_singleton]
    exact (prefix_append_right_inj _).mpr ( take_prefix _ _)
  · -- the second block has the last entry
    rw [consistent_take_iff htwo Nat.one_pos (one_le_length_records _),
      Nat.one_mul, flatMap_singleton]
    decide +kernel

end NeonStorage.OrioleDb
