import NeonStorage.Lib.Wire

/-!
# The cold-start summary

A compute that starts without its local files must not use an OXid or a commit sequence number
again. The pageserver scans the OrioleDB containers in the WAL for them, and keeps what it found in
a summary, packed into bytes that the compute reads at its start.

`decodePacked_append`: what was packed is read back, whatever follows it. The compute reads the same
numbers from the first 48 bytes (`applyColdStartSummary_of_decodePacked`). `decodePacked?` slices as
the source does and fails outside of the bytes; `decodePacked?_eq` says that this never happens.
-/

namespace NeonStorage.OrioleDb

open List

/-! ## Containers -/

variable (bs : List UInt8) (off : ℕ)

def u16At : UInt16 := .ofNat (leAt 2 off bs)

def u32At : UInt32 := .ofNat (leAt 4 off bs)

def u64At : UInt64 := .ofNat (leAt 8 off bs)

structure ContainerHeader where
  walVersion : UInt16
  flags : UInt8
  pgXid : Option UInt32
  bodyOffset : ℕ

inductive ContainerParseError where
  | tooShort
  deriving DecidableEq

/-- The part of `parse_container_header` behind the three bytes that are always there: an optional
structure of `len` bytes at the cursor. -/
def skipInfo (present : Bool) (len cursor : ℕ) (payload : List UInt8) :
    Except ContainerParseError ℕ :=
  if present then
    if payload.length < cursor + len then .error .tooShort else .ok (cursor + len)
  else .ok cursor

def parseContainerHeader (payload : List UInt8) : Except ContainerParseError ContainerHeader := do
  if payload.length < 3 then
    throw .tooShort
  let flags := payload.getD 2 0
  let hasXactInfo := flags &&& 1 != 0
  let cursor ← skipInfo hasXactInfo 12 3 payload
  let pgXid := if hasXactInfo then some (u32At payload 11) else none
  let cursor ← skipInfo (flags &&& 2 != 0) 10 cursor payload
  return ⟨u16At payload 0, flags, pgXid, cursor⟩

/-- What the summary needs from a record. -/
structure OrioleDbRecordDelta where
  pgXid : Option UInt32 := none
  maxOxidInBody : Option UInt64 := none
  maxCsnInBody : Option UInt64 := none
  deriving DecidableEq

/-- The larger of what was found so far and `x`. -/
def maxFound : Option UInt64 → UInt64 → Option UInt64
  | some prev, x => some (max prev x)
  | none, x => some x

/-- The loop of `scan_container_body`, on what is left of the body. -/
def scanFrom (body : List UInt8) (maxOxid maxCsn : Option UInt64) : Option UInt64 × Option UInt64 :=
  match body with
  | [] => (maxOxid, maxCsn)
  | recType :: bytes =>
    -- `WAL_REC_XID`
    if recType = 1 then
      if bytes.length < 16 then (maxOxid, maxCsn)
      else scanFrom (bytes.drop 16) (maxFound maxOxid (u64At bytes 0)) maxCsn
    -- `WAL_REC_COMMIT`
    else if recType = 2 then
      if bytes.length < 16 then (maxOxid, maxCsn)
      else scanFrom (bytes.drop 16) maxOxid (maxFound maxCsn (u64At bytes 8))
    -- `WAL_REC_ROLLBACK`: its sequence number says that it was aborted
    else if recType = 3 then
      if bytes.length < 16 then (maxOxid, maxCsn)
      else scanFrom (bytes.drop 16) maxOxid maxCsn
    -- `WAL_REC_JOINT_COMMIT`
    else if recType = 12 then
      if bytes.length < 20 then (maxOxid, maxCsn)
      else scanFrom (bytes.drop 20) maxOxid (maxFound maxCsn (u64At bytes 12))
    else (maxOxid, maxCsn)
  termination_by body.length
  decreasing_by all_goals (rw [length_drop, length_cons]; omega)

def scanContainerBody (body : List UInt8) : Option UInt64 × Option UInt64 := scanFrom body none none

def decodeContainerForSummary (payload : List UInt8) : OrioleDbRecordDelta :=
  match parseContainerHeader payload with
  | .error _ => {}
  | .ok header =>
    let (maxOxid, maxCsn) := scanContainerBody (payload.drop header.bodyOffset)
    ⟨header.pgXid, maxOxid, maxCsn⟩

/-! ## The summary -/

structure PerTreeCounters where
  treeId : UInt64
  ctid : UInt64
  bridgeCtid : UInt64
  numFreeBlocks : UInt64
  leafPagesNum : UInt64
  datafileLength : UInt64 × UInt64
  undoLocation : UInt64
  deriving DecidableEq

open PerTreeCounters

structure PendingSplit where
  treeId : UInt64
  leftBlkno : UInt32
  rightBlkno : UInt32
  childHikeyLsn : UInt64
  childHikeyOffset : UInt32
  reserved : UInt32
  deriving DecidableEq

structure PendingMerge where
  treeId : UInt64
  leftBlkno : UInt32
  parentBlkno : UInt32
  mergeLsn : UInt64
  deriving DecidableEq

structure OrioleDBColdStartSummary where
  ingestedCount : UInt64 := 0
  lastIngestedLsnRaw : UInt64 := 0
  lastPgXidSeen : UInt32 := 0
  nextOxid : UInt64 := 0
  nextCsn : UInt64 := 0
  perTree : List PerTreeCounters := []
  pendingSplits : List PendingSplit := []
  pendingMerges : List PendingMerge := []
  deriving DecidableEq

def saturatingSucc (x : UInt64) : UInt64 := if x = 0xFFFFFFFFFFFFFFFF then x else x + 1

/-- One past what was found, if that is larger. -/
def advance (next : UInt64) : Option UInt64 → UInt64
  | some found => if next < saturatingSucc found then saturatingSucc found else next
  | none => next

inductive IngestError where
  | parse (err : ContainerParseError)
  | nonMonotonicLsn (previous attempted : UInt64)
  deriving DecidableEq

variable (s : OrioleDBColdStartSummary)

namespace OrioleDBColdStartSummary

/-- The update of `ingest_delta`. -/
def absorb (delta : OrioleDbRecordDelta) (nextRecordLsnRaw : UInt64) : OrioleDBColdStartSummary :=
  { s with
    lastPgXidSeen := delta.pgXid.getD s.lastPgXidSeen
    nextOxid := advance s.nextOxid delta.maxOxidInBody
    nextCsn := advance s.nextCsn delta.maxCsnInBody
    ingestedCount := s.ingestedCount + 1
    lastIngestedLsnRaw := nextRecordLsnRaw }

def ingestDelta (delta : OrioleDbRecordDelta) (nextRecordLsnRaw : UInt64) :
    Except IngestError OrioleDBColdStartSummary :=
  if 0 < s.ingestedCount ∧ nextRecordLsnRaw ≤ s.lastIngestedLsnRaw then
    .error (.nonMonotonicLsn s.lastIngestedLsnRaw nextRecordLsnRaw)
  else .ok (s.absorb delta nextRecordLsnRaw)

end OrioleDBColdStartSummary

/-! ## Packing -/

def stateMagic : UInt32 := 0x534F524F

def stateVersion : UInt32 := 3

def stateV3MaxElements : ℕ := 2 ^ 20

def u32Bytes (x : UInt32) : List UInt8 := leBytes 4 x.toNat

def u64Bytes (x : UInt64) : List UInt8 := leBytes 8 x.toNat

inductive DecodeError where
  | tooShort
  | badMagic (magic : UInt32)
  | unsupportedVersion (version : UInt32)
  | tooManyElements (count : UInt32)
  deriving DecidableEq

variable (e : PerTreeCounters)

namespace PerTreeCounters

def ser : List UInt8 :=
  u64Bytes e.treeId ++ (u64Bytes e.ctid ++ (u64Bytes e.bridgeCtid ++ (u64Bytes e.numFreeBlocks ++
    (u64Bytes e.leafPagesNum ++ (u64Bytes e.datafileLength.1 ++ (u64Bytes e.datafileLength.2 ++
      u64Bytes e.undoLocation))))))

def read : PerTreeCounters :=
  ⟨u64At bs 0, u64At bs 8, u64At bs 16, u64At bs 24, u64At bs 32, (u64At bs 40, u64At bs 48),
    u64At bs 56⟩

end PerTreeCounters

namespace PendingSplit

def ser (e : PendingSplit) : List UInt8 :=
  u64Bytes e.treeId ++ (u32Bytes e.leftBlkno ++
    (u32Bytes e.rightBlkno ++ (u64Bytes e.childHikeyLsn ++
    (u32Bytes e.childHikeyOffset ++ u32Bytes e.reserved))))

def read : PendingSplit :=
  ⟨u64At bs 0, u32At bs 8, u32At bs 12, u64At bs 16, u32At bs 24, u32At bs 28⟩

end PendingSplit

namespace PendingMerge

def ser (e : PendingMerge) : List UInt8 :=
  u64Bytes e.treeId ++ (u32Bytes e.leftBlkno ++ (u32Bytes e.parentBlkno ++ u64Bytes e.mergeLsn))

def read : PendingMerge := ⟨u64At bs 0, u32At bs 8, u32At bs 12, u64At bs 16⟩

end PendingMerge

namespace OrioleDBColdStartSummary

/-- The prefix that version 2 has, and the counts that version 3 adds to it. -/
def header : List UInt8 :=
  u32Bytes stateMagic ++ (u32Bytes stateVersion ++ (u64Bytes s.nextOxid ++
    (u32Bytes s.lastPgXidSeen ++ (u32Bytes 0 ++ (u64Bytes s.lastIngestedLsnRaw ++
      (u64Bytes s.ingestedCount ++ (u64Bytes s.nextCsn ++ (u32Bytes (.ofNat s.perTree.length) ++
        (u32Bytes (.ofNat s.pendingSplits.length) ++ (u32Bytes (.ofNat s.pendingMerges.length) ++
          u32Bytes 0))))))))))

def encodePacked : List UInt8 :=
  s.header ++ (s.perTree.flatMap ser ++ (s.pendingSplits.flatMap PendingSplit.ser ++
    s.pendingMerges.flatMap PendingMerge.ser))

/-- The fields that version 2 has. -/
def readFixed : OrioleDBColdStartSummary where
  nextOxid := u64At bs 8
  lastPgXidSeen := u32At bs 16
  lastIngestedLsnRaw := u64At bs 24
  ingestedCount := u64At bs 32
  nextCsn := u64At bs 40

def decodeV3 : Except DecodeError OrioleDBColdStartSummary :=
  if bs.length < 64 then .error .tooShort
  else
    let treeCount := u32At bs 48
    let pendingSplitCount := u32At bs 52
    let pendingMergeCount := u32At bs 56
    match [treeCount, pendingSplitCount, pendingMergeCount].find?
      (stateV3MaxElements < ·.toNat) with
    | some count => .error (.tooManyElements count)
    | none =>
      let splitsAt := 64 + treeCount.toNat * 64
      let mergesAt := splitsAt + pendingSplitCount.toNat * 32
      if bs.length < mergesAt + pendingMergeCount.toNat * 24 then .error .tooShort
      else .ok { readFixed bs with
        perTree := entriesAt 64 read treeCount.toNat (bs.drop 64)
        pendingSplits := entriesAt 32 PendingSplit.read pendingSplitCount.toNat (bs.drop splitsAt)
        pendingMerges := entriesAt 24 PendingMerge.read pendingMergeCount.toNat (bs.drop mergesAt) }

def decodePacked : Except DecodeError OrioleDBColdStartSummary :=
  if bs.length < 48 then .error .tooShort
  else if u32At bs 0 ≠ stateMagic then .error (.badMagic (u32At bs 0))
  else if u32At bs 4 = 2 then .ok (readFixed bs)
  else if u32At bs 4 = 3 then decodeV3 bs
  else .error (.unsupportedVersion (u32At bs 4))

end OrioleDBColdStartSummary

/-! ## Slices -/

/-- `bytes[off..off + 4]`, which panics if the bytes end before. -/
def u32At? : Option UInt32 :=
  if off + 4 ≤ bs.length then some (u32At bs off) else none

def u64At? : Option UInt64 :=
  if off + 8 ≤ bs.length then some (u64At bs off) else none

def PerTreeCounters.read? (cursor : ℕ) : Option PerTreeCounters := do
  return ⟨← u64At? bs cursor, ← u64At? bs (cursor + 8), ← u64At? bs (cursor + 16),
    ← u64At? bs (cursor + 24), ← u64At? bs (cursor + 32),
    (← u64At? bs (cursor + 40), ← u64At? bs (cursor + 48)), ← u64At? bs (cursor + 56)⟩

def PendingSplit.read? (cursor : ℕ) : Option PendingSplit := do
  return ⟨← u64At? bs cursor, ← u32At? bs (cursor + 8), ← u32At? bs (cursor + 12),
    ← u64At? bs (cursor + 16), ← u32At? bs (cursor + 24), ← u32At? bs (cursor + 28)⟩

def PendingMerge.read? (cursor : ℕ) : Option PendingMerge := do
  return ⟨← u64At? bs cursor, ← u32At? bs (cursor + 8), ← u32At? bs (cursor + 12),
    ← u64At? bs (cursor + 16)⟩

namespace OrioleDBColdStartSummary

def readFixed? : Option OrioleDBColdStartSummary := do
  return { nextOxid := ← u64At? bs 8
           lastPgXidSeen := ← u32At? bs 16
           lastIngestedLsnRaw := ← u64At? bs 24
           ingestedCount := ← u64At? bs 32
           nextCsn := ← u64At? bs 40 }

def decodeV3? : Option (Except DecodeError OrioleDBColdStartSummary) :=
  if bs.length < 64 then some (.error .tooShort)
  else do
    let treeCount ← u32At? bs 48
    let pendingSplitCount ← u32At? bs 52
    let pendingMergeCount ← u32At? bs 56
    match [treeCount, pendingSplitCount, pendingMergeCount].find?
      (stateV3MaxElements < ·.toNat) with
    | some count => return .error (.tooManyElements count)
    | none =>
      let splitsAt := 64 + treeCount.toNat * 64
      let mergesAt := splitsAt + pendingSplitCount.toNat * 32
      if bs.length < mergesAt + pendingMergeCount.toNat * 24 then return .error .tooShort
      let perTree ← entriesAt? 64 (read? bs) treeCount.toNat 64
      let pendingSplits ← entriesAt? 32 (PendingSplit.read? bs) pendingSplitCount.toNat splitsAt
      let pendingMerges ← entriesAt? 24 (PendingMerge.read? bs) pendingMergeCount.toNat mergesAt
      return .ok { ← readFixed? bs with perTree, pendingSplits, pendingMerges }

def decodePacked? : Option (Except DecodeError OrioleDBColdStartSummary) :=
  if bs.length < 48 then some (.error .tooShort)
  else do
    let magic ← u32At? bs 0
    if magic ≠ stateMagic then return .error (.badMagic magic)
    let version ← u32At? bs 4
    if version = 2 then return .ok (← readFixed? bs)
    else if version = 3 then decodeV3? bs
    else return .error (.unsupportedVersion version)

end OrioleDBColdStartSummary

/-! ## The compute -/

/-- `OrioleDBStatePacked`, the structure that the compute fills from the file. -/
structure OrioleDBStatePacked where
  magic : UInt32
  version : UInt32
  nextOxid : UInt64
  lastPgXidSeen : UInt32
  reserved : UInt32
  lastIngestedLsnRaw : UInt64
  ingestedCount : UInt64
  nextCsn : UInt64
  deriving DecidableEq

/-- The structure over the first 48 bytes, if there are so many. -/
def OrioleDBStatePacked.read (file : List UInt8) : Option OrioleDBStatePacked :=
  let packed := file.take 48
  if packed.length = 48 then
    some ⟨u32At packed 0, u32At packed 4, u64At packed 8, u32At packed 16, u32At packed 20,
      u64At packed 24, u64At packed 32, u64At packed 40⟩
  else none

structure XidMeta where
  nextXid : UInt64
  runXmin : UInt64
  globalXmin : UInt64
  lastXidWhenUpdatedGlobalXmin : UInt64
  writtenXmin : UInt64
  writeInProgressXmin : UInt64
  cleanedXmin : UInt64
  deriving DecidableEq

/-- What `apply_orioledb_cold_start_summary` changes. -/
structure StartupState where
  xidMeta : XidMeta
  startupCommitSeqNo : UInt64
  deriving DecidableEq

/-- `pg_atomic_read_u64`, and `pg_atomic_write_u64` if the value is larger. -/
def raise (current x : UInt64) : UInt64 := if current < x then x else current

def XidMeta.raiseTo (m : XidMeta) (nextOxid : UInt64) : XidMeta :=
  if m.nextXid < nextOxid then
    { nextXid := nextOxid
      runXmin := raise m.runXmin nextOxid
      globalXmin := raise m.globalXmin nextOxid
      lastXidWhenUpdatedGlobalXmin := raise m.lastXidWhenUpdatedGlobalXmin nextOxid
      writtenXmin := raise m.writtenXmin nextOxid
      writeInProgressXmin := raise m.writeInProgressXmin nextOxid
      cleanedXmin := raise m.cleanedXmin nextOxid }
  else m

/-- `file` is `global/orioledb.state`, if the basebackup has it. -/
def applyColdStartSummary (file : Option (List UInt8)) (st : StartupState) : StartupState :=
  match file with
  | none => st
  | some bs =>
    let packed := bs.take 48
    if packed.length ≠ 48 then st
    else if u32At packed 0 ≠ stateMagic then st
    else if u32At packed 4 ≠ 2 ∧ u32At packed 4 ≠ stateVersion then st
    else
      { xidMeta := st.xidMeta.raiseTo (u64At packed 8)
        startupCommitSeqNo := raise st.startupCommitSeqNo (u64At packed 40) }

/-! ## Reading back -/

variable {bs}

section Readers

variable (rest : List UInt8) (x : UInt32) (y : UInt64) (off : ℕ)

@[simp] theorem length_u32Bytes : (u32Bytes x).length = 4 := length_leBytes _ _

@[simp] theorem length_u64Bytes : (u64Bytes y).length = 8 := length_leBytes _ _

@[simp] theorem u32At_u32Bytes : u32At (u32Bytes x ++ rest) 0 = x := by
  rw [u32At, u32Bytes, leAt_append rest x.toNat_lt, UInt32.ofNat_toNat]

@[simp] theorem u64At_u64Bytes : u64At (u64Bytes y ++ rest) 0 = y := by
  rw [u64At, u64Bytes, leAt_append rest y.toNat_lt, UInt64.ofNat_toNat]

@[simp] theorem u32At_skip_u32Bytes : u32At (u32Bytes x ++ rest) (off + 4) = u32At rest off := by
  rw [u32At, leAt_skip _ (length_u32Bytes x), u32At]

@[simp] theorem u32At_skip_u64Bytes : u32At (u64Bytes y ++ rest) (off + 8) = u32At rest off := by
  rw [u32At, leAt_skip _ (length_u64Bytes y), u32At]

@[simp] theorem u64At_skip_u32Bytes : u64At (u32Bytes x ++ rest) (off + 4) = u64At rest off := by
  rw [u64At, leAt_skip _ (length_u32Bytes x), u64At]

@[simp] theorem u64At_skip_u64Bytes : u64At (u64Bytes y ++ rest) (off + 8) = u64At rest off := by
  rw [u64At, leAt_skip _ (length_u64Bytes y), u64At]

theorem u32At_take {off k : ℕ} (h : off + 4 ≤ k) : u32At (bs.take k) off = u32At bs off := by
  rw [u32At, leAt_take _ h, u32At]

theorem u64At_take {off k : ℕ} (h : off + 8 ≤ k) : u64At (bs.take k) off = u64At bs off := by
  rw [u64At, leAt_take _ h, u64At]

theorem u32At_drop (bs : List UInt8) (cursor : ℕ) :
    u32At (bs.drop cursor) off = u32At bs (cursor + off) := by
  rw [u32At, leAt_drop, u32At]

theorem u64At_drop (bs : List UInt8) (cursor : ℕ) :
    u64At (bs.drop cursor) off = u64At bs (cursor + off) := by
  rw [u64At, leAt_drop, u64At]

theorem u32At?_of_le {off : ℕ} (h : off + 4 ≤ bs.length) :
    u32At? bs off = some (u32At bs off) := if_pos h

theorem u64At?_of_le {off : ℕ} (h : off + 8 ≤ bs.length) :
    u64At? bs off = some (u64At bs off) := if_pos h

end Readers

@[simp] theorem PerTreeCounters.length_ser : e.ser.length = 64 := by
  simp [ser]

variable (cursor : ℕ)

theorem PerTreeCounters.read?_eq (h : cursor + 64 ≤ bs.length) :
    read? bs cursor = some (read (bs.drop cursor)) := by
  simp (disch := omega) only [read?, u64At?_of_le, read, u64At_drop]
  rfl

theorem PerTreeCounters.read_ser (rest : List UInt8) : read (e.ser ++ rest) = e := by
  simp only [read, ser]
  simp

@[simp] theorem PendingSplit.length_ser (e : PendingSplit) : e.ser.length = 32 := by
  simp [ser]

theorem PendingSplit.read?_eq (h : cursor + 32 ≤ bs.length) :
    read? bs cursor = some (read (bs.drop cursor)) := by
  simp (disch := omega) only [read?, u64At?_of_le, u32At?_of_le, read, u64At_drop, u32At_drop]
  rfl

theorem PendingSplit.read_ser (e : PendingSplit) (rest : List UInt8) :
    read (e.ser ++ rest) = e := by
  simp only [read, ser]
  simp

@[simp] theorem PendingMerge.length_ser (e : PendingMerge) : e.ser.length = 24 := by
  simp [ser]

theorem PendingMerge.read?_eq (h : cursor + 24 ≤ bs.length) :
    read? bs cursor = some (read (bs.drop cursor)) := by
  simp (disch := omega) only [read?, u64At?_of_le, u32At?_of_le, read, u64At_drop, u32At_drop]
  rfl

theorem PendingMerge.read_ser (e : PendingMerge) (rest : List UInt8) :
    read (e.ser ++ rest) = e := by
  simp only [read, ser]
  simp

namespace OrioleDBColdStartSummary

/-- No part has more elements than a reader accepts. -/
def Small : Prop :=
  s.perTree.length ≤ stateV3MaxElements ∧ s.pendingSplits.length ≤ stateV3MaxElements ∧
    s.pendingMerges.length ≤ stateV3MaxElements

theorem length_header : s.header.length = 64 := by simp [header]

theorem length_encodePacked : s.encodePacked.length =
    64 + s.perTree.length * 64 + s.pendingSplits.length * 32 + s.pendingMerges.length * 24 := by
  simp only [encodePacked, length_append, length_header, length_flatMap_of_length length_ser,
    length_flatMap_of_length PendingSplit.length_ser,
      length_flatMap_of_length PendingMerge.length_ser]
  omega

theorem toNat_ofNat_length {n : ℕ} (h : n ≤ stateV3MaxElements) : (UInt32.ofNat n).toNat = n :=
  UInt32.toNat_ofNat_of_lt' (h.trans_lt (by decide))

section RoundTrip

variable (s : OrioleDBColdStartSummary) (rest : List UInt8)

theorem readFixed_append : readFixed (s.encodePacked ++ rest) =
    { s with perTree := [], pendingSplits := [], pendingMerges := [] } := by
  simp only [readFixed, encodePacked, header]
  simp

theorem drop_encodePacked : (s.encodePacked ++ rest).drop 64 =
    s.perTree.flatMap ser ++ (s.pendingSplits.flatMap PendingSplit.ser ++
      (s.pendingMerges.flatMap PendingMerge.ser ++ rest)) := by
  rw [encodePacked, append_assoc, append_assoc, append_assoc, drop_left' s.length_header]

theorem decodeV3_append (h : s.Small) : decodeV3 (s.encodePacked ++ rest) = .ok s := by
  obtain ⟨htrees, hsplits, hmerges⟩ := h
  have hcounts : u32At (s.encodePacked ++ rest) 48 = .ofNat s.perTree.length ∧
      u32At (s.encodePacked ++ rest) 52 = .ofNat s.pendingSplits.length ∧
      u32At (s.encodePacked ++ rest) 56 = .ofNat s.pendingMerges.length := by
    simp only [encodePacked, header]
    simp
  have hlen : (s.encodePacked ++ rest).length = s.encodePacked.length + rest.length := length_append
  rw [length_encodePacked] at hlen
  have htreesNat := toNat_ofNat_length htrees
  have hsplitsNat := toNat_ofNat_length hsplits
  have hmergesNat := toNat_ofNat_length hmerges
  -- none of the checks fails
  have hfind : [UInt32.ofNat s.perTree.length, .ofNat s.pendingSplits.length,
      .ofNat s.pendingMerges.length].find? (stateV3MaxElements < ·.toNat) = none := by
    simp only [List.find?_eq_none, mem_cons, not_mem_nil, or_false, forall_eq_or_imp,
      forall_eq, htreesNat, hsplitsNat, hmergesNat, decide_eq_true_eq, not_lt]
    exact ⟨htrees, hsplits, hmerges⟩
  have hsplitsAt : (s.encodePacked ++ rest).drop (64 + s.perTree.length * 64) =
      s.pendingSplits.flatMap PendingSplit.ser ++
        (s.pendingMerges.flatMap PendingMerge.ser ++ rest) := by
    rw [← drop_drop, drop_encodePacked, drop_left' (length_flatMap_of_length length_ser _)]
  have hmergesAt : (s.encodePacked ++ rest).drop
      (64 + s.perTree.length * 64 + s.pendingSplits.length * 32) =
      s.pendingMerges.flatMap PendingMerge.ser ++ rest := by
    rw [← drop_drop, hsplitsAt, drop_left' (length_flatMap_of_length PendingSplit.length_ser _)]
  rw [decodeV3, if_neg (by omega)]
  simp only [hcounts, hfind, htreesNat, hsplitsNat, hmergesNat]
  rw [if_neg (by omega), drop_encodePacked, hsplitsAt, hmergesAt, readFixed_append,
    entriesAt_flatMap _ length_ser read_ser,
    entriesAt_flatMap _ PendingSplit.length_ser PendingSplit.read_ser,
    entriesAt_flatMap _ PendingMerge.length_ser PendingMerge.read_ser]

theorem decodePacked_append (h : s.Small) : decodePacked (s.encodePacked ++ rest) = .ok s := by
  have hfields : u32At (s.encodePacked ++ rest) 0 = stateMagic ∧
      u32At (s.encodePacked ++ rest) 4 = 3 := by
    simp only [encodePacked, header]
    simp [stateVersion]
  have hlen : ¬ (s.encodePacked ++ rest).length < 48 := by
    rw [length_append, length_encodePacked]
    omega
  rw [decodePacked, if_neg hlen, if_neg (not_not.mpr hfields.1), hfields.2, if_neg (by decide),
    if_pos rfl, decodeV3_append s rest h]

theorem decodePacked_encodePacked (h : s.Small) : decodePacked s.encodePacked = .ok s := by
  simpa using decodePacked_append s [] h

end RoundTrip

variable {s : OrioleDBColdStartSummary}

theorem of_decodePacked (h : decodePacked bs = .ok s) :
    48 ≤ bs.length ∧ u32At bs 0 = stateMagic ∧ (u32At bs 4 = 2 ∨ u32At bs 4 = stateVersion) ∧
      s.nextOxid = u64At bs 8 ∧ s.nextCsn = u64At bs 40 := by
  rw [decodePacked] at h
  split_ifs at h with hlen hmagic hv2 hv3
  · cases h
    exact ⟨by omega, not_not.mp hmagic, .inl hv2, rfl, rfl⟩
  · rw [decodeV3] at h
    split_ifs at h
    dsimp only at h
    split at h
    · cases h
    · split_ifs at h
      cases h
      exact ⟨by omega, not_not.mp hmagic, .inr hv3, rfl, rfl⟩

/-- A file that can be unpacked raises the counters of the compute to what it holds. -/
theorem applyColdStartSummary_of_decodePacked
    (h : decodePacked bs = .ok s) (st : StartupState) : applyColdStartSummary (some bs) st =
      ⟨st.xidMeta.raiseTo s.nextOxid, raise st.startupCommitSeqNo s.nextCsn⟩ := by
  obtain ⟨hlen, hmagic, hversion, hoxid, hcsn⟩ := of_decodePacked h
  simp only [applyColdStartSummary]
  rw [if_neg (by simp [hlen]), u32At_take (by omega), u32At_take (by omega),
    if_neg (not_not.mpr hmagic), if_neg (fun hne ↦ hversion.elim hne.1 hne.2),
    u64At_take (by omega), u64At_take (by omega), hoxid, hcsn]

/-! ## No slice is out of bounds -/

theorem readFixed?_eq (h : 48 ≤ bs.length) : readFixed? bs = some (readFixed bs) := by
  simp (disch := omega) only [readFixed?, u64At?_of_le, u32At?_of_le]
  rfl

theorem decodeV3?_eq (bs : List UInt8) : decodeV3? bs = some (decodeV3 bs) := by
  rw [decodeV3?, decodeV3]
  split_ifs with hshort
  · rfl
  · rw [u32At?_of_le (by omega), u32At?_of_le (by omega), u32At?_of_le (by omega)]
    dsimp only [Option.bind_eq_bind, Option.bind_some]
    split
    · rfl
    · split_ifs with hfit
      · rfl
      · rw [entriesAt?_eq read?_eq _ _ (by omega),
          entriesAt?_eq PendingSplit.read?_eq _ _ (by omega),
          entriesAt?_eq PendingMerge.read?_eq _ _ (by omega), readFixed?_eq (by omega)]
        rfl

theorem decodePacked?_eq (bs : List UInt8) : decodePacked? bs = some (decodePacked bs) := by
  by_cases hshort : bs.length < 48
  · rw [decodePacked?, decodePacked, if_pos hshort, if_pos hshort]
  · rw [decodePacked?, decodePacked, if_neg hshort, if_neg hshort, u32At?_of_le (by omega),
      u32At?_of_le (by omega), readFixed?_eq (by omega), decodeV3?_eq]
    dsimp only [Option.bind_eq_bind, Option.bind_some]
    split_ifs <;> rfl

theorem decodePacked_eq_error (hversion : u32At bs 4 = stateVersion)
    (hfit : bs.length < 64 + (u32At bs 48).toNat * 64 + (u32At bs 52).toNat * 32 +
      (u32At bs 56).toNat * 24) : ∃ err, decodePacked bs = .error err := by
  rw [decodePacked, hversion]
  split_ifs with hshort hmagic hv2 hv3
  · exact ⟨_, rfl⟩
  · exact ⟨_, rfl⟩
  · cases hv2
  · rw [decodeV3]
    split_ifs
    · exact ⟨_, rfl⟩
    · dsimp only
      split
      · exact ⟨_, rfl⟩
      · exact ⟨_, if_pos hfit⟩
  · exact ⟨_, rfl⟩

theorem read_of_le (h : 48 ≤ bs.length) : OrioleDBStatePacked.read bs =
    some ⟨u32At bs 0, u32At bs 4, u64At bs 8, u32At bs 16, u32At bs 20, u64At bs 24, u64At bs 32,
      u64At bs 40⟩ := by
  have hlen : (bs.take 48).length = 48 := by simp [h]
  simp (disch := omega) only [OrioleDBStatePacked.read, hlen, if_true, u32At_take, u64At_take]

/-- The packed format. A summary is read back whatever follows it, and the compute finds its fields
in the structure; a blob of version 2 gives the fields of the structure and no lists; no bytes make
a slice of the decoder fail, and lists that do not fit are an error. -/
theorem packedFormat_spec : (∀ s : OrioleDBColdStartSummary, s.Small → ∀ rest,
      decodePacked (s.encodePacked ++ rest) = .ok s ∧
      OrioleDBStatePacked.read (s.encodePacked ++ rest) =
        some ⟨stateMagic, stateVersion, s.nextOxid,
        s.lastPgXidSeen, 0, s.lastIngestedLsnRaw, s.ingestedCount, s.nextCsn⟩) ∧
    (∀ bs packed, OrioleDBStatePacked.read bs = some packed → packed.magic = stateMagic →
      packed.version = 2 → decodePacked bs = .ok
        { ingestedCount := packed.ingestedCount, lastIngestedLsnRaw := packed.lastIngestedLsnRaw,
          lastPgXidSeen := packed.lastPgXidSeen, nextOxid := packed.nextOxid,
          nextCsn := packed.nextCsn, perTree := [], pendingSplits := [], pendingMerges := [] }) ∧
    (∀ bs, decodePacked? bs = some (decodePacked bs)) ∧
    ∀ bs, u32At bs 4 = stateVersion → bs.length < 64 + (u32At bs 48).toNat * 64 +
      (u32At bs 52).toNat * 32 + (u32At bs 56).toNat * 24 → ∃ err,
        decodePacked bs = .error err := by
  refine ⟨fun s hs rest ↦ ⟨decodePacked_append s rest hs, ?_⟩, fun bs packed hread hmagic hv2 ↦ ?_,
    decodePacked?_eq, fun bs ↦ decodePacked_eq_error⟩
  · rw [read_of_le (by rw [length_append, length_encodePacked]; omega)]
    simp only [encodePacked, header]
    simp
  · have hlen : ¬ bs.length < 48 := by
      intro hlt
      rw [OrioleDBStatePacked.read, if_neg (by simp; omega)] at hread
      cases hread
    rw [read_of_le (not_lt.mp hlen), Option.some.injEq] at hread
    subst hread
    rw [decodePacked, if_neg hlen, if_neg (not_not.mpr hmagic), if_pos hv2, readFixed]

end OrioleDBColdStartSummary

/-! ## Containers as they are written -/

/-- A sub-record: the types that the scan knows, or another type of `recovery/wal.h` with its
bytes. -/
inductive SubRecord where
  | xid (oxid : UInt64) (logicalXid heapXid : UInt32)
  | commit (xmin csn : UInt64)
  | rollback (xmin csn : UInt64)
  | jointCommit (pgXid : UInt32) (xmin csn : UInt64)
  | other (recType : UInt8) (bytes : List UInt8) (h : recType ∉ [1, 2, 3, 12])

namespace SubRecord

def ser : SubRecord → List UInt8
  | xid oxid logicalXid heapXid =>
    1 :: (u64Bytes oxid ++ (u32Bytes logicalXid ++ u32Bytes heapXid))
  | commit xmin csn => 2 :: (u64Bytes xmin ++ u64Bytes csn)
  | rollback xmin csn => 3 :: (u64Bytes xmin ++ u64Bytes csn)
  | jointCommit pgXid xmin csn => 12 :: (u32Bytes pgXid ++ (u64Bytes xmin ++ u64Bytes csn))
  | other recType bytes _ => recType :: bytes

def known : SubRecord → Bool
  | other .. => false
  | _ => true

def oxid : SubRecord → Option UInt64
  | xid oxid .. => some oxid
  | _ => none

def csn : SubRecord → Option UInt64
  | commit _ csn | jointCommit _ _ csn => some csn
  | _ => none

end SubRecord

theorem foldl_maxFound_some (x : UInt64) (xs : List UInt64) :
    xs.foldl maxFound (some x) = some (xs.foldl max x) := by
  induction xs generalizing x with
  | nil => rfl
  | cons y xs ih => exact ih (max x y)

theorem foldl_maxFound_none (xs : List UInt64) : xs.foldl maxFound none = xs.max? := by
  cases xs with
  | nil => rfl
  | cons x xs => exact foldl_maxFound_some x xs

theorem scanFrom_flatMap (rs : List SubRecord) (maxOxid maxCsn : Option UInt64) :
    scanFrom (rs.flatMap SubRecord.ser) maxOxid maxCsn =
      (((rs.takeWhile SubRecord.known).filterMap SubRecord.oxid).foldl maxFound maxOxid,
        ((rs.takeWhile SubRecord.known).filterMap SubRecord.csn).foldl maxFound maxCsn) := by
  induction rs generalizing maxOxid maxCsn with
  | nil =>
    rw [flatMap_nil, scanFrom, takeWhile_nil, filterMap_nil, filterMap_nil, foldl_nil, foldl_nil]
  | cons r rs ih =>
    rw [flatMap_cons]
    cases r with
    | xid oxid logicalXid heapXid =>
      rw [SubRecord.ser, cons_append, scanFrom, if_pos rfl, if_neg (by rw [length_append]; simp),
        drop_left' (by simp), ih, append_assoc, u64At_u64Bytes]
      rfl
    | commit xmin csn =>
      rw [SubRecord.ser, cons_append, scanFrom, if_neg (by decide), if_pos rfl,
        if_neg (by rw [length_append]; simp), drop_left' (by simp), ih, append_assoc,
        u64At_skip_u64Bytes _ _ 0, u64At_u64Bytes]
      rfl
    | rollback xmin csn =>
      rw [SubRecord.ser, cons_append, scanFrom, if_neg (by decide), if_neg (by decide), if_pos rfl,
        if_neg (by rw [length_append]; simp), drop_left' (by simp), ih]
      rfl
    | jointCommit pgXid xmin csn =>
      rw [SubRecord.ser, cons_append, scanFrom, if_neg (by decide), if_neg (by decide),
        if_neg (by decide), if_pos rfl, if_neg (by rw [length_append]; simp), drop_left' (by simp),
        ih, append_assoc, append_assoc, u64At_skip_u32Bytes _ _ 8, u64At_skip_u64Bytes _ _ 0,
        u64At_u64Bytes]
      rfl
    | other recType bytes h =>
      obtain ⟨h1, h2, h3, h12⟩ : recType ≠ 1 ∧ recType ≠ 2 ∧ recType ≠ 3 ∧ recType ≠ 12 := by
        simpa using h
      rw [SubRecord.ser, cons_append, scanFrom, if_neg h1, if_neg h2, if_neg h3, if_neg h12]
      rfl

/-- A container: the two flags say which structures follow them. -/
structure Container where
  walVersion : UInt16
  flags : UInt8
  xactTime : UInt64
  xid : UInt32
  origin : List UInt8
  origin_length : origin.length = 10
  body : List SubRecord

namespace Container

variable (c : Container)

def xactInfo : List UInt8 :=
  if c.flags &&& 1 != 0 then u64Bytes c.xactTime ++ u32Bytes c.xid else []

def originInfo : List UInt8 := if c.flags &&& 2 != 0 then c.origin else []

def front : List UInt8 := leBytes 2 c.walVersion.toNat ++ [c.flags]

def ser (c : Container) : List UInt8 :=
  c.front ++ (c.xactInfo ++ (c.originInfo ++ c.body.flatMap SubRecord.ser))

theorem skipInfo_append {present : Bool} {len : ℕ} (front : List UInt8) {info : List UInt8}
    (rest : List UInt8) (h : info.length = if present then len else 0) :
    skipInfo present len front.length (front ++ (info ++ rest)) = .ok (front ++ info).length := by
  cases present with
  | false => simp [skipInfo, h]
  | true =>
    have hlen : ¬ (front ++ (info ++ rest)).length < front.length + len := by
      simp only [length_append, h, if_true]
      omega
    rw [skipInfo, if_pos rfl, if_neg hlen, length_append, h, if_pos rfl]

theorem parseContainerHeader_ser : ∃ header, parseContainerHeader c.ser = .ok header ∧
    header.pgXid = (if c.flags &&& 1 != 0 then some c.xid else none) ∧
    c.ser.drop header.bodyOffset = c.body.flatMap SubRecord.ser := by
  have hxact : c.xactInfo.length = if c.flags &&& 1 != 0 then 12 else 0 := by
    rw [xactInfo]
    split_ifs <;> simp
  have horigin : c.originInfo.length = if c.flags &&& 2 != 0 then 10 else 0 := by
    rw [originInfo]
    split_ifs <;> simp [c.origin_length]
  have hskip := skipInfo_append c.front (c.originInfo ++ c.body.flatMap SubRecord.ser) hxact
  have hskip' := skipInfo_append (c.front ++ c.xactInfo) (c.body.flatMap SubRecord.ser) horigin
  rw [append_assoc c.front] at hskip'
  refine ⟨⟨u16At c.ser 0, c.flags, if c.flags &&& 1 != 0 then some (u32At c.ser 11) else none,
    (c.front ++ c.xactInfo ++ c.originInfo).length⟩, ?_, ?_, ?_⟩
  · change (skipInfo (c.flags &&& 1 != 0) 12 c.front.length c.ser >>= _) = _
    rw [ser, hskip]
    change (skipInfo (c.flags &&& 2 != 0) 10 (c.front ++ c.xactInfo).length c.ser >>= _) = _
    rw [ser, hskip']
    rfl
  · split_ifs with hflag
    · have hread : u32At c.ser (8 + 3) = c.xid := by
        rw [u32At, ser, leAt_skip (k := 3) _ rfl, xactInfo, if_pos hflag, ← u32At]
        exact (u32At_skip_u64Bytes _ _ 0).trans (u32At_u32Bytes _ _)
      rw [hread]
    · rfl
  · rw [ser, ← append_assoc, ← append_assoc, drop_left]

/-- **What a container gives.** The largest OXid and the largest sequence number of a commit, over
the sub-records before the first one that the scan does not know, and the XID of the header. -/
theorem decodeContainerForSummary_ser (c : Container) : decodeContainerForSummary c.ser =
      ⟨if c.flags &&& 1 != 0 then some c.xid else none,
        ((c.body.takeWhile SubRecord.known).filterMap SubRecord.oxid).max?,
        ((c.body.takeWhile SubRecord.known).filterMap SubRecord.csn).max?⟩ := by
  obtain ⟨header, hparse, hxid, hbody⟩ := c.parseContainerHeader_ser
  simp only [decodeContainerForSummary, hparse, hbody, hxid, scanContainerBody, scanFrom_flatMap,
    foldl_maxFound_none]

/-- A transaction that changes a row: its commit is behind a sub-record that the scan does not
know. -/
theorem exists_csn_not_found : ∃ c : Container, (c.body.filterMap SubRecord.csn).max? = some 9 ∧
    (decodeContainerForSummary c.ser).maxCsnInBody = none := by
  let c : Container := ⟨17, 0, 0, 0, List.replicate 10 0, rfl, [.xid 5 3 0,
    .other 5 [0, 1, 0, 255] (by decide), .commit 4 9]⟩
  obtain ⟨header, hparse, -, hbody⟩ := c.parseContainerHeader_ser
  refine ⟨c, rfl, ?_⟩
  simp only [decodeContainerForSummary, hparse, hbody, scanContainerBody, scanFrom_flatMap]
  rfl

end Container

end NeonStorage.OrioleDb
