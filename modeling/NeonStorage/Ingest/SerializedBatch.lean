import Mathlib.Data.List.Perm.Basic
import NeonStorage.Pageserver.CompactKey
import NeonStorage.Pageserver.Reconstruct
import NeonStorage.Pageserver.ShardSplit
import NeonStorage.Postgres.WalDecoder

/-!
# Batches of values for the shards

A WAL record names the blocks it changes. `fromDecodedFiltered` makes one batch for each shard of
the tenant: the value of a block goes to the shard that owns its key, and shard zero notes the keys
of the others. A value is the record itself, or the page if the record has it.

Across all shards each block is stored once (`fromDecodedFiltered_distributes`).
-/

namespace NeonStorage

open List

namespace Ingest

open Pageserver (Key RelTag ShardIdentity Value relBlockToKey)

/-! ## Decoded records -/

def blcksz : ℕ := 8192

def bkpimageIsCompressed (bimgInfo : UInt8) : PgMajorVersion → Bool
  | .PG14 => bimgInfo &&& 0x02 != 0
  | .PG15 | .PG16 | .PG17 => bimgInfo &&& (0x04 ||| 0x08 ||| 0x10) != 0

structure DecodedBkpBlock where
  rnodeSpcnode : UInt32
  rnodeDbnode : UInt32
  rnodeRelnode : UInt32
  forknum : UInt8
  blkno : UInt32
  hasImage : Bool := false
  applyImage : Bool := false
  willInit : Bool := false
  holeOffset : UInt16 := 0
  holeLength : UInt16 := 0
  bimgOffset : UInt32 := 0
  bimgLen : UInt16 := 0
  bimgInfo : UInt8 := 0
  deriving DecidableEq

structure DecodedWALRecord where
  xlInfo : UInt8
  xlRmid : UInt8
  /-- The raw record. -/
  record : List UInt8
  blocks : List DecodedBkpBlock

def DecodedBkpBlock.key (blk : DecodedBkpBlock) : Key :=
  let rel : RelTag :=
    { spcnode := blk.rnodeSpcnode
      dbnode := blk.rnodeDbnode
      relnode := blk.rnodeRelnode
      forknum := blk.forknum }
  relBlockToKey rel blk.blkno

/-! ## Values -/

/-- `NeonWalRecord::Postgres`. -/
structure PostgresRecord where
  willInit : Bool
  record : List UInt8
  deriving DecidableEq

abbrev PageValue := Value (List UInt8) PostgresRecord

namespace PageValue

def willInit : PageValue → Bool
  | .image _ => true
  | .walRecord r => r.willInit

/-- Big endian, with a number for the variant and the length before the bytes. -/
def ser : PageValue → List UInt8
  | .image img => beBytes 4 0 ++ (beBytes 8 img.length ++ img)
  | .walRecord r => beBytes 4 1 ++ (beBytes 4 0 ++ (beBytes 1 r.willInit.toNat ++
      (beBytes 8 r.record.length ++ r.record)))

/-- A length and as many bytes, with nothing after them. -/
def desBytes (buf : List UInt8) : Option (List UInt8) := do
  let (n, buf) ← getBe 8 buf
  let (bs, buf) ← getBytes n buf
  if buf.isEmpty then some bs else none

/-- The other variants of WAL records do not come from `fromDecodedFiltered`. -/
def des (buf : List UInt8) : Option PageValue := do
  let (variant, buf) ← getBe 4 buf
  if variant = 0 then (desBytes buf).map .image
  else if variant = 1 then
    let (variant, buf) ← getBe 4 buf
    if variant = 0 then
      let (willInit, buf) ← getBe 1 buf
      if willInit ≤ 1 then (desBytes buf).map fun record ↦ .walRecord ⟨willInit == 1, record⟩
      else none
    else none
  else none

theorem desBytes_append {bs : List UInt8} (h : bs.length < 2 ^ 64) :
    desBytes (beBytes 8 bs.length ++ bs) = some bs := by
  have hget : getBytes bs.length bs = some (bs, []) := by
    simp [getBytes]
  simp [desBytes, getBe_append bs (n := 8) h, hget]

def bytes : PageValue → List UInt8
  | .image img => img
  | .walRecord r => r.record

theorem des_ser (val : PageValue) (h : val.bytes.length < 2 ^ 64) : des val.ser = some val := by
  cases val with
  | image img =>
    have h : img.length < 2 ^ 64 := h
    simp [des, ser, getBe_append _, desBytes_append h]
  | walRecord r =>
    obtain ⟨willInit, record⟩ := r
    have h : record.length < 2 ^ 64 := h
    have hbool : willInit.toNat < 256 ^ 1 := by cases willInit <;> decide
    have hle : willInit.toNat ≤ 1 := by cases willInit <;> decide
    have hbeq : (willInit.toNat == 1) = willInit := by cases willInit <;> rfl
    simp [des, ser, getBe_append _ (x := 0), getBe_append _,
      getBe_append _ hbool, desBytes_append h, hle, hbeq]

end PageValue

/-! ## The value of a block -/

namespace DecodedWALRecord

variable (decoded : DecodedWALRecord) (blk : DecodedBkpBlock) (lsn : ℕ) (pgVersion : PgMajorVersion)

/-- Whether the page itself is stored, not the record. -/
def blockIsImage : Bool :=
  blk.applyImage && blk.hasImage
    && ((decoded.xlRmid == 0 && (decoded.xlInfo == 0xb0 || decoded.xlInfo == 0xa0))
      -- OrioleDB
      || decoded.xlRmid == 129)
    && !bkpimageIsCompressed blk.bimgInfo pgVersion
    && blk.bimgLen != 0

end DecodedWALRecord

def pageIsNew (pg : List UInt8) : Bool := pg.getD 14 0 == 0 && pg.getD 15 0 == 0

def pageSetLsn (pg : List UInt8) (lsn : ℕ) : List UInt8 :=
  leBytes 4 (lsn / 2 ^ 32) ++ (leBytes 4 lsn ++ pg.drop 8)

def insertHole (image : List UInt8) (offset length : ℕ) : List UInt8 :=
  image.take offset ++ (List.replicate length 0 ++ image.drop offset)

inductive IngestError where
  | unsupportedKey (lsn : ℕ) (key : Key)
  /-- An assertion or a range check of a slice. -/
  | panic
  deriving DecidableEq

namespace DecodedWALRecord

variable (decoded : DecodedWALRecord) (blk : DecodedBkpBlock) (lsn : ℕ) (pgVersion : PgMajorVersion)

/-- The bytes of the image as they are in the record. -/
def imageBytes : List UInt8 := (decoded.record.drop blk.bimgOffset.toNat).take blk.bimgLen.toNat

def filledImage : List UInt8 :=
  if blk.holeLength ≠ 0 then
    insertHole (decoded.imageBytes blk) blk.holeOffset.toNat blk.holeLength.toNat
  else decoded.imageBytes blk

def pageImage : List UInt8 :=
  let image := decoded.filledImage blk
  -- pages of OrioleDB have no LSN in their header
  if decoded.xlRmid != 129 && !pageIsNew image then pageSetLsn image lsn else image

/-- What is stored for a block, if nothing is wrong with its image. -/
def value : PageValue :=
  if decoded.blockIsImage blk pgVersion then .image (decoded.pageImage blk lsn)
  else .walRecord ⟨blk.willInit || blk.applyImage, decoded.record⟩

/-- The value of a block with the checks on the way: the range of the slice, the capacity that
`split_off` may not pass, the length of the page. -/
def blockValue : Except IngestError PageValue :=
  if decoded.blockIsImage blk pgVersion then
    if decoded.record.length < blk.bimgOffset.toNat + blk.bimgLen.toNat then .error .panic
    else if blk.holeLength ≠ 0 ∧ max blcksz blk.bimgLen.toNat < blk.holeOffset.toNat then
      .error .panic
    else if (decoded.pageImage blk lsn).length ≠ blcksz then .error .panic
    else .ok (decoded.value blk lsn pgVersion)
  else .ok (decoded.value blk lsn pgVersion)

/-- The images of a record fit: they lie inside, and with its hole each has the size of a page. Its
blocks are in tablespaces that keys can hold. -/
structure WellFormed : Prop where
  spcnode_le : ∀ blk ∈ decoded.blocks, blk.rnodeSpcnode ≤ 0xffff
  image_le : ∀ blk ∈ decoded.blocks, decoded.blockIsImage blk pgVersion = true →
    blk.bimgOffset.toNat + blk.bimgLen.toNat ≤ decoded.record.length
  image_length : ∀ blk ∈ decoded.blocks, decoded.blockIsImage blk pgVersion = true →
    blk.bimgLen.toNat + blk.holeLength.toNat = blcksz
  hole_le : ∀ blk ∈ decoded.blocks, decoded.blockIsImage blk pgVersion = true →
    blk.holeOffset.toNat ≤ blk.bimgLen.toNat
  record_lt : decoded.record.length < 2 ^ 32

/-- The record has the page, without the hole. -/
structure Carries (page : List UInt8) : Prop where
  length : page.length = blcksz
  bytes : decoded.imageBytes blk =
    page.take blk.holeOffset.toNat ++ page.drop (blk.holeOffset.toNat + blk.holeLength.toNat)

end DecodedWALRecord

section Value

variable {decoded : DecodedWALRecord} {blk : DecodedBkpBlock} {pgVersion : PgMajorVersion}

theorem length_insertHole (image : List UInt8) (offset length : ℕ) :
    (insertHole image offset length).length = image.length + length := by
  simp only [insertHole, length_append, length_take, length_replicate, length_drop]
  omega

theorem length_pageSetLsn {pg : List UInt8} (h : 8 ≤ pg.length) (lsn : ℕ) :
    (pageSetLsn pg lsn).length = pg.length := by
  simp only [pageSetLsn, length_append, length_leBytes, length_drop]
  omega

namespace DecodedWALRecord

variable (h : decoded.WellFormed pgVersion) (hblk : blk ∈ decoded.blocks)
  (himage : decoded.blockIsImage blk pgVersion = true)

include h hblk himage

theorem length_filledImage : (decoded.filledImage blk).length = blcksz := by
  have hlen : (decoded.imageBytes blk).length = blk.bimgLen.toNat := by
    rw [imageBytes, length_take, length_drop]
    have := h.image_le blk hblk himage
    omega
  rw [← h.image_length blk hblk himage, filledImage]
  split_ifs with hzero
  · rw [length_insertHole, hlen]
  · rw [hlen, not_not.mp hzero]
    rfl

theorem length_pageImage (lsn : ℕ) : (decoded.pageImage blk lsn).length = blcksz := by
  have hfilled := length_filledImage h hblk himage
  unfold pageImage
  dsimp only
  split_ifs
  · rw [length_pageSetLsn, hfilled]
    rw [hfilled]
    decide
  · exact hfilled

/-- **A page of OrioleDB is stored as it was**, with zeros in its hole. -/
theorem pageImage_of_carries (hrmid : decoded.xlRmid = 129) {page : List UInt8}
    (hpage : decoded.Carries blk page) (lsn : ℕ) :
    decoded.pageImage blk lsn = page.take blk.holeOffset.toNat ++
      (List.replicate blk.holeLength.toNat 0 ++
        page.drop (blk.holeOffset.toNat + blk.holeLength.toNat)) := by
  have hle := h.hole_le blk hblk himage
  have hlen := h.image_length blk hblk himage
  have htake : (page.take blk.holeOffset.toNat).length = blk.holeOffset.toNat := by
    rw [length_take, hpage.length]
    omega
  have hpi : decoded.pageImage blk lsn = decoded.filledImage blk := by simp [pageImage, hrmid]
  rw [hpi, filledImage, hpage.bytes]
  split_ifs with hzero
  · rw [insertHole, take_left' htake, drop_left' htake]
  · rw [not_not.mp hzero]
    rfl

omit himage in
theorem blockValue_eq (lsn : ℕ) :
    decoded.blockValue blk lsn pgVersion = .ok (decoded.value blk lsn pgVersion) := by
  unfold blockValue
  by_cases himage : decoded.blockIsImage blk pgVersion = true
  · have hle := h.image_le blk hblk himage
    have hhole := h.hole_le blk hblk himage
    have hcap : ¬ (blk.holeLength ≠ 0 ∧ max blcksz blk.bimgLen.toNat < blk.holeOffset.toNat) := by
      omega
    rw [if_pos himage, if_neg (not_lt.mpr hle), if_neg hcap,
      if_neg (not_not.mpr (length_pageImage h hblk himage lsn))]
  · rw [if_neg himage]

omit himage in
theorem length_value_lt (lsn : ℕ) : (decoded.value blk lsn pgVersion).bytes.length < 2 ^ 64 := by
  unfold value
  split_ifs with himage
  · refine (length_pageImage h hblk himage lsn).trans_lt ?_
    decide
  · exact h.record_lt.trans (by decide)

omit himage in
theorem fromCompact_key : Key.fromCompact blk.key.toCompact = blk.key :=
  Key.fromCompact_toCompact (show (0 : UInt8) < 0x80 by decide) (h.spcnode_le blk hblk)

omit himage in
theorem isValidKeyOnWritePath_key : blk.key.isValidKeyOnWritePath = true := by
  have hle : blk.key.field2 ≤ 0xffff := h.spcnode_le blk hblk
  simp [Key.isValidKeyOnWritePath, Key.isI128Representable, hle]

end DecodedWALRecord

end Value

/-! ## Batches -/

/-- Where a value lies in the buffer of its batch. -/
structure SerializedValueMeta where
  key : ℕ
  lsn : ℕ
  batchOffset : ℕ
  len : ℕ
  willInit : Bool
  deriving DecidableEq

inductive ValueMeta where
  | serialized (m : SerializedValueMeta)
  | observed (key lsn : ℕ)
  deriving DecidableEq

structure SerializedValueBatch where
  raw : List UInt8 := []
  metadata : List ValueMeta := []
  maxLsn : ℕ := 0
  len : ℕ := 0
  deriving DecidableEq

namespace SerializedValueBatch

variable (batch : SerializedValueBatch)

def isEmpty (batch : SerializedValueBatch) : Bool := batch.raw.isEmpty && batch.metadata.isEmpty

def observe (key : Key) (lsn : ℕ) : SerializedValueBatch :=
  { batch with metadata := batch.metadata ++ [.observed key.toCompact lsn] }

def store (key : Key) (lsn : ℕ) (val : PageValue) : SerializedValueBatch :=
  let relativeOff := batch.raw.length
  let raw := batch.raw ++ val.ser
  let valSerSize := raw.length - relativeOff
  { raw := raw
    metadata := batch.metadata ++
      [.serialized ⟨key.toCompact, lsn, relativeOff, valSerSize, val.willInit⟩]
    maxLsn := max batch.maxLsn lsn
    len := batch.len + 1 }

def read (raw : List UInt8) (m : SerializedValueMeta) : Key × ℕ × Option PageValue :=
  (.fromCompact m.key, m.lsn, PageValue.des ((raw.drop m.batchOffset).take m.len))

def readStored (raw : List UInt8) : ValueMeta → Option (Key × ℕ × Option PageValue)
  | .serialized m => some (read raw m)
  | .observed _ _ => none

def readObserved : ValueMeta → Option (Key × ℕ)
  | .serialized _ => none
  | .observed key lsn => some (.fromCompact key, lsn)

def stored : List (Key × ℕ × Option PageValue) :=
  batch.metadata.filterMap (readStored batch.raw)

def observed : List (Key × ℕ) :=
  batch.metadata.filterMap readObserved

/-- All values lie inside the buffer. -/
def Intact : Prop :=
  ∀ m, .serialized m ∈ batch.metadata → m.batchOffset + m.len ≤ batch.raw.length

variable {batch} {key : Key} {lsn : ℕ} {val : PageValue}

theorem Intact.observe (h : batch.Intact) : (batch.observe key lsn).Intact := by
  intro m hm
  simp only [SerializedValueBatch.observe, mem_append, mem_singleton, reduceCtorEq, or_false] at hm
  exact h m hm

theorem Intact.store (h : batch.Intact) : (batch.store key lsn val).Intact := by
  intro m hm
  simp only [SerializedValueBatch.store, mem_append, mem_singleton,
    ValueMeta.serialized.injEq, length_append] at hm ⊢
  rcases hm with hm | rfl
  · have := h m hm
    omega
  · dsimp only
    omega

theorem read_append {m : SerializedValueMeta} {raw more : List UInt8}
    (h : m.batchOffset + m.len ≤ raw.length) : read (raw ++ more) m = read raw m := by
  have hlen : m.len ≤ (raw.drop m.batchOffset).length := by
    rw [length_drop]
    omega
  rw [read, read, drop_append_of_le_length (by omega), take_append_of_le_length hlen]

theorem stored_store (h : batch.Intact) (hkey : Key.fromCompact key.toCompact = key)
    (hval : val.bytes.length < 2 ^ 64) :
    (batch.store key lsn val).stored = batch.stored ++ [(key, lsn, some val)] := by
  have hold : ∀ v ∈ batch.metadata,
      readStored (batch.raw ++ val.ser) v = readStored batch.raw v := by
    intro v hv
    cases v with
    | serialized m => exact congrArg some (read_append (h m hv))
    | observed key lsn => rfl
  have hnew : readStored (batch.raw ++ val.ser) (.serialized ⟨key.toCompact, lsn, batch.raw.length,
      (batch.raw ++ val.ser).length - batch.raw.length, val.willInit⟩) =
        some (key, lsn, some val) := by
    simp [readStored, read, hkey, PageValue.des_ser val hval]
  rw [stored, store, filterMap_append, filterMap_congr hold, filterMap_cons_some hnew]
  rfl

@[simp] theorem stored_observe : (batch.observe key lsn).stored = batch.stored := by
  simp [stored, observe, readStored]

@[simp] theorem observed_store : (batch.store key lsn val).observed = batch.observed := by
  simp [observed, store, readObserved]

theorem observed_observe (hkey : Key.fromCompact key.toCompact = key) :
    (batch.observe key lsn).observed = batch.observed ++ [(key, lsn)] := by
  simp [observed, observe, readObserved, hkey]

end SerializedValueBatch

/-! ## One record, all shards -/

variable (decoded : DecodedWALRecord)

def ingestBlock (lsn : ℕ) (pgVersion : PgMajorVersion) (blk : DecodedBkpBlock)
    (shard : ShardIdentity) (batch : SerializedValueBatch) :
    Except IngestError SerializedValueBatch := do
  let key := blk.key
  if !shard.isKeyLocal key then
    if shard.number == 0 then return batch.observe key lsn else return batch
  let val ← decoded.blockValue blk lsn pgVersion
  return batch.store key lsn val

/-- What all shards do with one block. -/
def ingestBlockFiltered (lsn : ℕ) (pgVersion : PgMajorVersion)
    (records : List (ShardIdentity × SerializedValueBatch)) (blk : DecodedBkpBlock) :
    Except IngestError (List (ShardIdentity × SerializedValueBatch)) :=
  if !blk.key.isValidKeyOnWritePath then .error (.unsupportedKey lsn blk.key)
  else records.mapM fun record ↦ do
    let batch ← ingestBlock decoded lsn pgVersion blk record.1 record.2
    return (record.1, batch)

def fromDecodedFiltered (shardRecords : List (ShardIdentity × SerializedValueBatch))
    (nextRecordLsn : ℕ) (pgVersion : PgMajorVersion) :
    Except IngestError (List (ShardIdentity × SerializedValueBatch)) :=
  if shardRecords.any fun record ↦ !record.2.isEmpty then .error .panic
  else decoded.blocks.foldlM (ingestBlockFiltered decoded nextRecordLsn pgVersion) shardRecords

section Distributes

variable {decoded : DecodedWALRecord} {pgVersion : PgMajorVersion} {lsn : ℕ}

/-- What `ingestBlock` does if nothing is wrong with the block. -/
def addBlock (decoded : DecodedWALRecord) (lsn : ℕ) (pgVersion : PgMajorVersion)
    (shard : ShardIdentity) (batch : SerializedValueBatch) (blk : DecodedBkpBlock) :
    SerializedValueBatch :=
  if shard.isKeyLocal blk.key then batch.store blk.key lsn (decoded.value blk lsn pgVersion)
  else if shard.number == 0 then batch.observe blk.key lsn
  else batch

variable {blk : DecodedBkpBlock}

theorem ingestBlock_eq (h : decoded.WellFormed pgVersion) (hblk : blk ∈ decoded.blocks)
    (shard : ShardIdentity) (batch : SerializedValueBatch) :
    ingestBlock decoded lsn pgVersion blk shard batch =
      .ok (addBlock decoded lsn pgVersion shard batch blk) := by
  unfold ingestBlock addBlock
  rw [DecodedWALRecord.blockValue_eq h hblk]
  cases hlocal : shard.isKeyLocal blk.key <;> cases shard.number == 0 <;>
    simp only [hlocal] <;> rfl

theorem mapM_eq_ok {α β ε : Type} {f : α → Except ε β} {g : α → β} {l : List α}
    (h : ∀ x ∈ l, f x = .ok (g x)) : l.mapM f = .ok (l.map g) := by
  induction l with
  | nil => rfl
  | cons x l ih =>
    rw [mapM_cons, h x mem_cons_self, ih fun y hy ↦ h y (mem_cons_of_mem x hy)]
    rfl

theorem ingestBlockFiltered_eq (h : decoded.WellFormed pgVersion) (hblk : blk ∈ decoded.blocks)
    (shards : List ShardIdentity) (batches : ShardIdentity → SerializedValueBatch) :
    ingestBlockFiltered decoded lsn pgVersion (shards.map fun shard ↦ (shard, batches shard)) blk =
      .ok (shards.map fun shard ↦
        (shard, addBlock decoded lsn pgVersion shard (batches shard) blk)) := by
  rw [ingestBlockFiltered, DecodedWALRecord.isValidKeyOnWritePath_key h hblk]
  have hstep : ∀ record ∈ shards.map fun shard ↦ (shard, batches shard),
      (do let batch ← ingestBlock decoded lsn pgVersion blk record.1 record.2
          return (record.1, batch)) =
        Except.ok (record.1, addBlock decoded lsn pgVersion record.1 record.2 blk) := by
    intro record _
    rw [ingestBlock_eq h hblk]
    rfl
  refine (mapM_eq_ok hstep).trans ?_
  rw [map_map]
  rfl

theorem fromDecodedFiltered_eq (h : decoded.WellFormed pgVersion) (shards : List ShardIdentity) :
    fromDecodedFiltered decoded (shards.map fun shard ↦ (shard, {})) lsn pgVersion =
      .ok (shards.map fun shard ↦
        (shard, decoded.blocks.foldl (addBlock decoded lsn pgVersion shard) {})) := by
  have hempty : ((shards.map fun shard ↦ (shard, ({} : SerializedValueBatch))).any
      fun record ↦ !record.2.isEmpty) = false := by
    simp [SerializedValueBatch.isEmpty]
  have hloop : ∀ (blocks : List DecodedBkpBlock) (batches : ShardIdentity → SerializedValueBatch),
      (∀ blk ∈ blocks, blk ∈ decoded.blocks) →
      blocks.foldlM (ingestBlockFiltered decoded lsn pgVersion)
        (shards.map fun shard ↦ (shard, batches shard)) =
        .ok (shards.map fun shard ↦
          (shard, blocks.foldl (addBlock decoded lsn pgVersion shard) (batches shard))) := by
    intro blocks
    induction blocks with
    | nil => exact fun _ _ ↦ rfl
    | cons blk blocks ih =>
      intro batches hblocks
      rw [foldlM_cons, ingestBlockFiltered_eq h (hblocks blk mem_cons_self)]
      exact ih _ (forall_mem_cons.mp hblocks).2
  rw [fromDecodedFiltered, hempty]
  exact hloop decoded.blocks (fun _ ↦ {}) fun _ hb ↦ hb

def entry (decoded : DecodedWALRecord) (lsn : ℕ) (pgVersion : PgMajorVersion)
    (blk : DecodedBkpBlock) : Key × ℕ × Option PageValue :=
  (blk.key, lsn, some (decoded.value blk lsn pgVersion))

variable {batch : SerializedValueBatch}

theorem addBlock_spec (lsn : ℕ) (h : decoded.WellFormed pgVersion) (hblk : blk ∈ decoded.blocks)
    (shard : ShardIdentity) (hbatch : batch.Intact) :
    (addBlock decoded lsn pgVersion shard batch blk).Intact ∧
    (addBlock decoded lsn pgVersion shard batch blk).stored = batch.stored ++
      ([blk].filter fun blk ↦ shard.isKeyLocal blk.key).map (entry decoded lsn pgVersion) ∧
    (addBlock decoded lsn pgVersion shard batch blk).observed = batch.observed ++
      ([blk].filter fun blk ↦ !shard.isKeyLocal blk.key && shard.number == 0).map
        fun blk ↦ (blk.key, lsn) := by
  have hkey := DecodedWALRecord.fromCompact_key h hblk
  unfold addBlock
  cases hlocal : shard.isKeyLocal blk.key with
  | true =>
    refine ⟨hbatch.store, ?_, ?_⟩
    · rw [if_pos rfl, SerializedValueBatch.stored_store hbatch hkey
        (DecodedWALRecord.length_value_lt h hblk lsn)]
      simp [hlocal, entry]
    · simp [hlocal]
  | false =>
    cases shard.number == 0 with
    | true =>
      refine ⟨hbatch.observe, by simp [hlocal], ?_⟩
      simp [hlocal, SerializedValueBatch.observed_observe hkey]
    | false => exact ⟨hbatch, by simp [hlocal], by simp⟩

theorem foldl_addBlock (lsn : ℕ) (h : decoded.WellFormed pgVersion) (shard : ShardIdentity)
    {blocks : List DecodedBkpBlock} (hblocks : ∀ blk ∈ blocks, blk ∈ decoded.blocks)
    (hbatch : batch.Intact) :
    (blocks.foldl (addBlock decoded lsn pgVersion shard) batch).stored = batch.stored ++
      (blocks.filter fun blk ↦ shard.isKeyLocal blk.key).map (entry decoded lsn pgVersion) ∧
    (blocks.foldl (addBlock decoded lsn pgVersion shard) batch).observed = batch.observed ++
      (blocks.filter fun blk ↦ !shard.isKeyLocal blk.key && shard.number == 0).map
        fun blk ↦ (blk.key, lsn) := by
  induction blocks generalizing batch with
  | nil => simp
  | cons blk blocks ih =>
    obtain ⟨hintact, hst, hob⟩ := addBlock_spec lsn h (hblocks blk mem_cons_self) shard hbatch
    obtain ⟨hst', hob'⟩ := ih (forall_mem_cons.mp hblocks).2 hintact
    rw [foldl_cons, hst', hob', hst, hob]
    constructor
    · rw [append_assoc, ← map_append, ← filter_append, singleton_append]
    · rw [append_assoc, ← map_append, ← filter_append, singleton_append]

theorem flatMap_filter_singleton {ι α : Type} (p : ι → α → Bool) (is : List ι) (x : α) :
    (is.flatMap fun i ↦ [x].filter (p i)) = (is.filter (p · x)).map fun _ ↦ x := by
  induction is with
  | nil => rfl
  | cons i is ih =>
    rw [flatMap_cons, ih]
    cases hi : p i x <;> simp [hi]

/-- If each element is picked by exactly one of `is`, picking with all of them gives every element
once. -/
theorem flatMap_filter_perm {ι α : Type} {p : ι → α → Bool} {is : List ι} (his : is.Nodup)
    {xs : List α} (h : ∀ x ∈ xs, ∃! i, i ∈ is ∧ p i x = true) :
    (is.flatMap fun i ↦ xs.filter (p i)).Perm xs := by
  induction xs with
  | nil => simp
  | cons x xs ih =>
    obtain ⟨i, ⟨hi, hpi⟩, hunique⟩ := h x mem_cons_self
    have hone : is.filter (p · x) = [i] := by
      refine perm_singleton.mp ((perm_ext_iff_of_nodup (his.filter _)
        (nodup_singleton i)).mpr fun j ↦ ?_)
      rw [mem_filter, mem_singleton]
      exact ⟨hunique j, fun hj ↦ hj ▸ ⟨hi, hpi⟩⟩
    have hhead : (is.flatMap fun j ↦ [x].filter (p j)) = [x] := by
      rw [flatMap_filter_singleton, hone]
      rfl
    have hsplit : (is.flatMap fun j ↦ (x :: xs).filter (p j)) =
        is.flatMap fun j ↦ [x].filter (p j) ++ xs.filter (p j) :=
      congrArg is.flatMap (funext fun j ↦ filter_append [x] xs)
    rw [hsplit]
    refine (flatMap_append_perm is _ _).symm.trans ?_
    rw [hhead]
    exact (ih (forall_mem_cons.mp h).2).cons x

/-- **Each block of a record is stored once across the shards of a tenant**, by the owner of its
key; shard zero notes the keys it does not own, the other shards note nothing, and an OrioleDB page
is stored as it was. -/
theorem fromDecodedFiltered_distributes (h : decoded.WellFormed pgVersion) {count : UInt8}
    {stripeSize : UInt32} (hstripe : stripeSize ≠ 0) {shards : List ShardIdentity}
    (hnodup : shards.Nodup) (hshards : ∀ s, s ∈ shards ↔ s.IsShardOf count stripeSize) (lsn : ℕ) :
    ∃ batches, fromDecodedFiltered decoded (shards.map fun shard ↦ (shard, {})) lsn pgVersion =
        .ok batches ∧ batches.map Prod.fst = shards ∧
      (batches.flatMap fun batch ↦ batch.2.stored).Perm
        (decoded.blocks.map (entry decoded lsn pgVersion)) ∧
      (∀ batch ∈ batches, batch.2.stored = (decoded.blocks.filter
        fun blk ↦ batch.1.isKeyLocal blk.key).map (entry decoded lsn pgVersion)) ∧
      (∀ batch ∈ batches, batch.2.observed = (decoded.blocks.filter
        fun blk ↦ !batch.1.isKeyLocal blk.key && batch.1.number == 0).map fun blk ↦
          (blk.key, lsn)) ∧
      ∀ blk ∈ decoded.blocks, decoded.xlRmid = 129 → ∀ page img, decoded.Carries blk page →
        decoded.value blk lsn pgVersion = .image img → img.length = blcksz ∧
          img = page.take blk.holeOffset.toNat ++ (List.replicate blk.holeLength.toNat 0 ++
            page.drop (blk.holeOffset.toNat + blk.holeLength.toNat)) := by
  have hintact : ({} : SerializedValueBatch).Intact := nofun
  have hspec := fun shard ↦ foldl_addBlock lsn h shard (fun _ hb ↦ hb) hintact
  refine ⟨_, fromDecodedFiltered_eq h shards, ?_, ?_, ?_, ?_, ?_⟩
  · rw [map_map]
    exact map_id _
  · rw [flatMap_map]
    have howner : ∀ blk ∈ decoded.blocks, ∃! s, s ∈ shards ∧ s.isKeyLocal blk.key = true := by
      intro blk _
      simpa only [hshards] using ShardIdentity.existsUnique_isKeyLocal count hstripe blk.key
    have hst : ∀ shard ∈ shards,
        (decoded.blocks.foldl (addBlock decoded lsn pgVersion shard) {}).stored =
          (decoded.blocks.filter fun blk ↦ shard.isKeyLocal blk.key).map
            (entry decoded lsn pgVersion) :=
      fun shard _ ↦ (hspec shard).1
    rw [flatMap_congr hst, ← map_flatMap]
    exact (flatMap_filter_perm hnodup howner).map _
  · rintro batch hbatch
    obtain ⟨shard, -, rfl⟩ := mem_map.mp hbatch
    exact (hspec shard).1
  · rintro batch hbatch
    obtain ⟨shard, -, rfl⟩ := mem_map.mp hbatch
    exact (hspec shard).2
  · intro blk hblk hrmid page img hpage hval
    unfold DecodedWALRecord.value at hval
    split_ifs at hval with himage
    obtain rfl : decoded.pageImage blk lsn = img := Value.image.inj hval
    exact ⟨DecodedWALRecord.length_pageImage h hblk himage lsn,
      DecodedWALRecord.pageImage_of_carries h hblk himage hrmid hpage lsn⟩

def orioleBlock (spcnode blkno : UInt32) : DecodedBkpBlock :=
  { rnodeSpcnode := spcnode, rnodeDbnode := 24577, rnodeRelnode := 24578, forknum := 0, blkno }

/-- A record of OrioleDB with the image of one block, and with a change of another one. -/
def orioleImage : DecodedWALRecord where
  xlInfo := 0x10
  xlRmid := 129
  record := List.replicate 8000 7
  blocks :=
    [{ orioleBlock 1663 7 with
        hasImage := true
        applyImage := true
        willInit := true
        holeOffset := 100
        holeLength := 192
        bimgLen := 8000 },
      orioleBlock 1663 8]

/-- A change of one block by OrioleDB, in tablespace `spcnode`. -/
def orioleDelta (spcnode : UInt32) : DecodedWALRecord where
  xlInfo := 0x10
  xlRmid := 129
  record := [1, 2, 3]
  blocks := [orioleBlock spcnode 7]

theorem orioleImage_wellFormed : orioleImage.WellFormed .PG17 where
  spcnode_le := by decide
  image_le := by
    have hlen : orioleImage.record.length = 8000 := length_replicate
    rw [hlen]
    decide
  image_length := by decide
  hole_le := by decide
  record_lt := length_replicate.trans_lt (by decide)

/-- One of two shards, with stripes of one block. -/
def oneOfTwo (n : UInt8) (h : n < 2) : ShardIdentity := ⟨n, 2, 1, .inr ⟨h, by decide⟩⟩

theorem mem_twoShards_iff (s : ShardIdentity) :
    s ∈ [oneOfTwo 0 (by decide), oneOfTwo 1 (by decide)] ↔ s.IsShardOf 2 1 := by
  rw [mem_pair]
  refine ⟨fun h ↦ by rcases h with rfl | rfl <;> exact ⟨rfl, rfl⟩, ?_⟩
  obtain ⟨number, count, stripeSize, valid⟩ := s
  rintro ⟨rfl, rfl⟩
  have hlt : number.toNat < 2 := UInt8.lt_iff_toNat_lt.mp (valid.resolve_left (by simp)).1
  have hcases : number = 0 ∨ number = 1 := by
    rw [← UInt8.toNat_inj, ← UInt8.toNat_inj]
    exact Nat.le_one_iff_eq_zero_or_eq_one.mp (Nat.le_of_lt_succ hlt)
  exact hcases.imp (by rintro rfl; rfl) (by rintro rfl; rfl)

/-- Each of two shards stores one block. -/
theorem fromDecodedFiltered_distributes_oriole : ∃ batches, fromDecodedFiltered orioleImage
        [(oneOfTwo 0 (by decide), {}), (oneOfTwo 1 (by decide), {})] 16 .PG17 = .ok batches ∧
      batches.map (fun batch ↦ batch.2.stored.length) = [1, 1] ∧
      (batches.flatMap fun batch ↦ batch.2.stored).Perm
        (orioleImage.blocks.map (entry orioleImage 16 .PG17)) := by
  have hstripe : (1 : UInt32) ≠ 0 := by decide
  have hnodup : [oneOfTwo 0 (by decide), oneOfTwo 1 (by decide)].Nodup := by
    simp [oneOfTwo]
  obtain ⟨batches, hok, hshards, hperm, hstored, -⟩ :=
    fromDecodedFiltered_distributes orioleImage_wellFormed hstripe hnodup mem_twoShards_iff 16
  refine ⟨batches, hok, ?_, hperm⟩
  calc batches.map (fun batch ↦ batch.2.stored.length)
      = (batches.map Prod.fst).map fun shard ↦
          (orioleImage.blocks.filter fun blk ↦ shard.isKeyLocal blk.key).length := by
        rw [map_map]
        exact map_congr_left fun batch hbatch ↦ by rw [hstored batch hbatch, length_map]; rfl
    _ = [1, 1] := by rw [hshards]; decide

/-- A block of a tablespace that keys cannot hold fails the whole record, and an image beyond the
end of the record panics. Of the two large tablespace numbers that are let through, only 16 bits are
stored. -/
theorem exists_not_distributes :
    (∃ key, fromDecodedFiltered (orioleDelta 70000) [(.unsharded, {})] 16 .PG17 =
      .error (.unsupportedKey 16 key)) ∧
    fromDecodedFiltered { orioleImage with record := [1, 2, 3] } [(.unsharded, {})] 16 .PG17 =
      .error .panic ∧
    ∃ batch, fromDecodedFiltered (orioleDelta 0x22222222) [(.unsharded, {})] 16 .PG17 =
        .ok [(.unsharded, batch)] ∧
      ∀ blk ∈ (orioleDelta 0x22222222).blocks, ∃ key ∈ batch.stored.map Prod.fst,
        key ≠ blk.key := by
  refine ⟨⟨⟨0, 70000, 24577, 24578, 0, 7⟩, rfl⟩, rfl, _, rfl, ?_⟩
  intro blk hblk
  rw [mem_singleton.mp hblk]
  exact ⟨⟨0, 0x2222, 24577, 24578, 0, 7⟩, by decide, by decide⟩

end Distributes

end Ingest

end NeonStorage
