import Mathlib.Data.List.Dedup
import Mathlib.Data.List.Perm.Basic
import NeonStorage.Lib.Program
import NeonStorage.Lib.Versions
import NeonStorage.Pageserver.Reconstruct

/-!
# The data directory of a timeline

What the pageserver keeps about a timeline beside the pages: which databases there are, which
relations, how long they are, and the files of the data directory. It is stored under keys, one
version for each LSN at which it changed. WAL is ingested through a modification, which holds its
writes back until it is committed.

`State` is a timeline with the modification that is open on it, and `handle` what the operations do
that `pgdatadir_mapping` and `walingest` are built from. Their functions are programs over these
operations.
-/

namespace NeonStorage.Datadir

open List Function Versions Prog

open Pageserver (Key RelTag Value)

abbrev Oid := UInt32

abbrev BlockNumber := UInt32

abbrev Bytes := List UInt8

/-! ## Keys and values -/

inductive SlruKind where
  | clog
  | multiXactMembers
  | multiXactOffsets
  deriving DecidableEq

/-- The keys of the metadata: all that postgres does not read itself. -/
inductive MetaKey where
  | dbdir
  | relDir (spcnode dbnode : Oid)
  | relmapFile (spcnode dbnode : Oid)
  | relSize (tag : RelTag)
  | relTagSparse (tag : RelTag)
  | slruDir (kind : SlruKind)
  | slruSegmentSize (kind : SlruKind) (segno : UInt32)
  | twophaseDir
  | twophaseFile (xid : UInt64)
  | checkpoint
  | replOrigin (originId : UInt16)
  | auxFile (key : Key)
  | orioledbState
  deriving DecidableEq

inductive RelDirExists where
  | present
  | removed
  deriving DecidableEq

/-- The fields of a checkpoint that are changed while WAL is ingested. `walLevel` is there since
PG17. -/
structure CheckPoint where
  redo : ℕ := 0
  nextXid : UInt64 := 0
  nextOid : UInt32 := 0
  nextMulti : UInt32 := 0
  nextMultiOffset : UInt32 := 0
  oldestXid : UInt32 := 0
  oldestXidDB : UInt32 := 0
  oldestMulti : UInt32 := 0
  oldestMultiDB : UInt32 := 0
  oldestActiveXid : UInt32 := 0
  walLevel : Option UInt32 := none
  deriving DecidableEq

/-- The databases, each with whether its relmapper file exists. -/
abbrev DbDirectory := List ((Oid × Oid) × Bool)

/-- The relations of a database, by relfilenode and fork. -/
abbrev RelDirectory := List (Oid × UInt8)

namespace MetaKey

/-- What is stored under a key. -/
abbrev Val : MetaKey → Type
  | dbdir => DbDirectory
  | relDir _ _ => RelDirectory
  | relmapFile _ _ => Bytes
  | relSize _ => BlockNumber
  | relTagSparse _ => RelDirExists
  | slruDir _ => List UInt32
  | slruSegmentSize _ _ => BlockNumber
  | twophaseDir => List UInt64
  | twophaseFile _ => Bytes
  | checkpoint => CheckPoint
  | replOrigin _ => ℕ
  | auxFile _ => List (Bytes × Bytes)
  | orioledbState => Bytes

end MetaKey

namespace DbDirectory

def insert (dbdirs : DbDirectory) (db : Oid × Oid) (relmap : Bool) : DbDirectory :=
  if dbdirs.any (·.1 = db) then dbdirs.map fun e ↦ if e.1 = db then (db, relmap) else e
  else dbdirs ++ [(db, relmap)]

def remove (dbdirs : DbDirectory) (db : Oid × Oid) : DbDirectory := dbdirs.filter (·.1 ≠ db)

def keys (dbdirs : DbDirectory) : List (Oid × Oid) := dbdirs.map Prod.fst

variable {dbdirs : DbDirectory} {db db' : Oid × Oid}

@[simp] theorem mem_keys_insert {relmap : Bool} :
    db' ∈ (dbdirs.insert db relmap).keys ↔ db' = db ∨ db' ∈ dbdirs.keys := by
  unfold insert
  split_ifs with h
  · -- the entry is there, its key stays
    have hkeys : keys (dbdirs.map fun e ↦ if e.1 = db then (db, relmap) else e) = dbdirs.keys := by
      rw [keys, map_map]
      refine map_congr_left fun e _ ↦ ?_
      rw [comp_apply]
      split_ifs with he
      · exact he.symm
      · rfl
    obtain ⟨e, he, hdb⟩ := any_eq_true.mp h
    have hmem : db ∈ dbdirs.keys := List.mem_map.mpr ⟨e, he, by simpa using hdb⟩
    rw [hkeys]
    exact ⟨.inr, fun h ↦ h.elim (fun h ↦ h ▸ hmem) id⟩
  · simp [keys, or_comm]

@[simp] theorem mem_keys_remove : db' ∈ (dbdirs.remove db).keys ↔ db' ≠ db ∧ db' ∈ dbdirs.keys := by
  simp only [keys, remove, List.mem_map, mem_filter, decide_eq_true_eq]
  constructor
  · rintro ⟨e, ⟨he, hne⟩, rfl⟩
    exact ⟨hne, e, he, rfl⟩
  · rintro ⟨hne, e, he, rfl⟩
    exact ⟨e, ⟨he, hne⟩, rfl⟩

theorem lookup_eq_none_iff {db : Oid × Oid} : dbdirs.lookup db = none ↔ db ∉ dbdirs.keys := by
  simp only [List.lookup_eq_none_iff, keys, List.mem_map, not_exists, not_and, bne_iff_ne]
  exact ⟨fun h e he heq ↦ h e he heq.symm, fun h e he heq ↦ h e he heq.symm⟩

end DbDirectory

inductive NeonWalRecord where
  | postgres (willInit : Bool) (record : Bytes)
  | clearVisibilityMapFlags (newHeapBlkno oldHeapBlkno : Option UInt32) (flags : UInt8)
  | clogSetCommitted (xids : List UInt32) (timestamp : Int)
  | clogSetAborted (xids : List UInt32)
  | multixactOffsetCreate (mid moff : UInt32)
  | multixactMembersCreate (moff : UInt32) (members : List (UInt32 × UInt32))
  | truncateVisibilityMap (truncByte truncOffs : ℕ)
  deriving DecidableEq

abbrev PageValue := Value Bytes NeonWalRecord

/-! ## State -/

inductive RelSizeMigration where
  | legacy
  | migrating
  | migrated
  deriving DecidableEq

/-- How one run of the migration to the v2 keyspace goes: in which order it visits the databases, at
which of them a read fails, and whether the upload of the new status fails. -/
structure MigrationRun where
  order : List (Oid × Oid) := []
  failing : Option (Oid × Oid) := none
  uploadFails : Bool := false

/-- The databases in the order of this run. -/
def MigrationRun.visit (run : MigrationRun) (dbs : List (Oid × Oid)) : List (Oid × Oid) :=
  if run.order.Perm dbs then run.order else dbs

@[simp] theorem MigrationRun.mem_visit {run : MigrationRun} {dbs : List (Oid × Oid)}
    {db : Oid × Oid} : db ∈ run.visit dbs ↔ db ∈ dbs := by
  unfold visit
  split_ifs with h
  · exact h.mem_iff
  · rfl

/-- A timeline and the modification that is open on it. -/
structure State where
  /-- The versions of a key on the timeline. -/
  store : (key : MetaKey) → List (ℕ × key.Val)
  /-- The versions of a page on the timeline. -/
  pages : Key → List (ℕ × PageValue)
  /-- The relations with a key in the v2 keyspace of the timeline. -/
  sparseRels : List RelTag
  lastRecordLsn : ℕ
  relSizeLatestCache : RelTag → Option (ℕ × BlockNumber)
  relSizeSnapshotCache : ℕ × RelTag → Option BlockNumber
  relSizeV2Status : RelSizeMigration
  relSizeMigratedAt : Option ℕ
  relSizeV2Enabled : Bool
  /-- How the coming runs of the migration go. -/
  migrationRuns : List MigrationRun
  /-- The LSN of the open modification. -/
  lsn : ℕ
  pendingMetadataPages : (key : MetaKey) → List (ℕ × key.Val)
  pendingSparseRels : List RelTag
  pendingDataBatch : List (Key × ℕ × PageValue)
  pendingNblocks : Int
  isImportingPgdata : Bool

/-- Where a function reads: on the timeline at an LSN, or through the modification. -/
inductive Version where
  | lsnRange (effectiveLsn : ℕ) (latest : Bool)
  | modified
  deriving DecidableEq

def Version.isLatest : Version → Bool
  | lsnRange _ latest => latest
  | modified => true

namespace State

variable (s : State)

def versionLsn : Version → ℕ
  | .lsnRange effectiveLsn _ => effectiveLsn
  | .modified => s.lsn

/-- A key as the modification sees it: what it wrote last, or else what the timeline has. -/
def view (key : MetaKey) : Option key.Val :=
  match (s.pendingMetadataPages key).getLast? with
  | some last => some last.2
  | none => Versions.asOf (s.store key) (max s.lastRecordLsn s.lsn)

def read : Version → (key : MetaKey) → Option key.Val
  | .lsnRange effectiveLsn _, key => Versions.asOf (s.store key) effectiveLsn
  | .modified, key => s.view key

/-- `put_metadata`. -/
def put (key : MetaKey) (val : key.Val) : State :=
  { s with
    pendingMetadataPages :=
      update s.pendingMetadataPages key (Versions.put (s.pendingMetadataPages key) s.lsn val)
    pendingSparseRels :=
      match key with
      | .relTagSparse tag => s.pendingSparseRels ++ [tag]
      | _ => s.pendingSparseRels }

def putData (key : Key) (val : PageValue) : State :=
  { s with pendingDataBatch := s.pendingDataBatch ++ [(key, s.lsn, val)] }

def getCachedRelSize (tag : RelTag) (version : Version) : Option BlockNumber :=
  match s.relSizeLatestCache tag with
  | some (cachedLsn, nblocks) =>
    if cachedLsn ≤ s.versionLsn version then some nblocks
    else s.relSizeSnapshotCache (s.versionLsn version, tag)
  | none => s.relSizeSnapshotCache (s.versionLsn version, tag)

def setCachedRelSize (tag : RelTag) (lsn : ℕ) (nblocks : BlockNumber) : State :=
  { s with relSizeLatestCache := update s.relSizeLatestCache tag (some (lsn, nblocks)) }

def removeCachedRelSize (tag : RelTag) : State :=
  { s with relSizeLatestCache := update s.relSizeLatestCache tag none }

/-- A newer entry of the cache is kept. -/
def updateCachedRelSize (tag : RelTag) (version : Version) (nblocks : BlockNumber) : State :=
  let lsn := s.versionLsn version
  if version.isLatest then
    match s.relSizeLatestCache tag with
    | some (cachedLsn, _) => if cachedLsn ≤ lsn then s.setCachedRelSize tag lsn nblocks else s
    | none => s.setCachedRelSize tag lsn nblocks
  else
    { s with
      relSizeSnapshotCache := update s.relSizeSnapshotCache (lsn, tag) (some nblocks) }

/-- The relations of a database that the v2 keyspace of the timeline has at an LSN. -/
def scanRels (spcnode dbnode : Oid) (lsn : ℕ) : List RelTag :=
  s.sparseRels.dedup.filter fun tag ↦
    let val : Option RelDirExists := Versions.asOf (s.store (.relTagSparse tag)) lsn
    tag.spcnode = spcnode ∧ tag.dbnode = dbnode ∧ val = some .present

/-- `DatadirModification::set_lsn`, if the LSN does not go back. -/
def setLsn (lsn : ℕ) : State := { s with lsn }

/-- All versions of a key once the modification is committed. -/
def versions (key : MetaKey) : List (ℕ × key.Val) :=
  (s.pendingMetadataPages key).foldl (fun vs v ↦ Versions.put vs v.1 v.2) (s.store key)

/-- All versions of a page once the modification is committed. -/
def pageVersions (key : Key) : List (ℕ × PageValue) :=
  (s.pendingDataBatch.filter (·.1 = key)).foldl
    (fun vs v ↦ Versions.put vs v.2.1 v.2.2) (s.pages key)

/-- `DatadirModification::commit`. Deletions do nothing on a timeline. -/
def commit : State :=
  { s with
    store := s.versions
    pages := s.pageVersions
    sparseRels := s.sparseRels ++ s.pendingSparseRels
    lastRecordLsn := s.lsn
    pendingMetadataPages := fun _ ↦ []
    pendingSparseRels := []
    pendingDataBatch := []
    pendingNblocks := 0 }

/-! ### What is written and what is seen -/

variable {s}

@[simp] theorem view_put (key : MetaKey) (val : key.Val) :
    (s.put key val).view = update s.view key (some val) := by
  funext key'
  rcases eq_or_ne key' key with rfl | h
  · simp [view, put]
  · simp [view, put, h]

theorem versions_put (key : MetaKey) (val : key.Val) : (s.put key val).versions =
      update s.versions key (Versions.put (s.versions key) s.lsn val) := by
  funext key'
  rcases eq_or_ne key' key with rfl | h
  · simp [versions, put, foldl_put_put]
  · simp [versions, put, h]

/-- The versions come in the order of their LSNs, first those of the timeline and then those of the
modification. -/
structure WellFormed (s : State) : Prop where
  lastRecordLsn_le : s.lastRecordLsn ≤ s.lsn
  ordered_store : ∀ key, Versions.Ordered (s.store key)
  store_le : ∀ key, ∀ v ∈ s.store key, v.1 ≤ s.lastRecordLsn
  ordered_pending : ∀ key, Versions.Ordered (s.pendingMetadataPages key)
  le_pending : ∀ key, ∀ v ∈ s.pendingMetadataPages key, s.lastRecordLsn ≤ v.1
  pending_le : ∀ key, ∀ v ∈ s.pendingMetadataPages key, v.1 ≤ s.lsn

theorem mem_versions {key : MetaKey} {v : ℕ × key.Val} (h : v ∈ s.versions key) :
    v ∈ s.store key ∨ v ∈ s.pendingMetadataPages key := by
  have hfold : ∀ {vs ws : List (ℕ × key.Val)},
      v ∈ ws.foldl (fun us w ↦ Versions.put us w.1 w.2) vs → v ∈ vs ∨ v ∈ ws := by
    intro vs ws
    induction ws generalizing vs with
    | nil => exact .inl
    | cons w ws ih =>
      intro hv
      rcases ih hv with hv | hv
      · refine (mem_put hv).imp_right fun hw ↦ ?_
        rw [hw]
        exact mem_cons_self
      · exact .inr (mem_cons_of_mem _ hv)
  exact hfold h

namespace WellFormed

section

variable (h : s.WellFormed)
include h

theorem versions_le (key : MetaKey) : ∀ v ∈ s.versions key, v.1 ≤ s.lsn := by
  intro v hv
  rcases mem_versions hv with hv | hv
  · exact Nat.le_trans (h.store_le key v hv) h.lastRecordLsn_le
  · exact h.pending_le key v hv

/-- From the LSN of the modification on there is what it sees. -/
theorem asOf_versions (key : MetaKey) {l : ℕ} (hl : s.lsn ≤ l) :
    Versions.asOf (s.versions key) l = s.view key := by
  rw [Versions.asOf_of_le fun v hv ↦ Nat.le_trans (h.versions_le key v hv) hl, view]
  split
  · rename_i last hlast
    rw [versions, getLast?_foldl_put _ hlast, Option.map_some]
  · rename_i hnone
    have hstore : ∀ v ∈ s.store key, v.1 ≤ max s.lastRecordLsn s.lsn := fun v hv ↦
      Nat.le_trans (h.store_le key v hv) (Nat.le_max_left _ _)
    rw [versions, getLast?_eq_none_iff.mp hnone, Versions.asOf_of_le hstore]
    rfl

theorem put (key : MetaKey) (val : key.Val) : (s.put key val).WellFormed where
  lastRecordLsn_le := h.lastRecordLsn_le
  ordered_store := h.ordered_store
  store_le := h.store_le
  ordered_pending key' := by
    rcases eq_or_ne key' key with rfl | hne
    · simpa [State.put] using (h.ordered_pending key').put (h.pending_le key') val
    · simpa [State.put, hne] using h.ordered_pending key'
  le_pending key' v hv := by
    rcases eq_or_ne key' key with rfl | hne
    · simp only [State.put, update_self] at hv
      rcases mem_put hv with hv | rfl
      · exact h.le_pending key' v hv
      · exact h.lastRecordLsn_le
    · simp only [State.put, update_of_ne hne] at hv
      exact h.le_pending key' v hv
  pending_le key' v hv := by
    rcases eq_or_ne key' key with rfl | hne
    · simp only [State.put, update_self] at hv
      rcases mem_put hv with hv | rfl
      · exact h.pending_le key' v hv
      · exact Nat.le_refl _
    · simp only [State.put, update_of_ne hne] at hv
      exact h.pending_le key' v hv

theorem setLsn {lsn : ℕ} (hle : s.lsn ≤ lsn) : (s.setLsn lsn).WellFormed :=
  { h with
    lastRecordLsn_le := Nat.le_trans h.lastRecordLsn_le hle
    pending_le := fun key v hv ↦ Nat.le_trans (h.pending_le key v hv) hle }

theorem ordered_versions (key : MetaKey) : Versions.Ordered (s.versions key) := by
  have hfold : ∀ {vs ws : List (ℕ × key.Val)}, Versions.Ordered vs → Versions.Ordered ws →
      (∀ v ∈ vs, ∀ w ∈ ws, v.1 ≤ w.1) →
      Versions.Ordered (ws.foldl (fun us w ↦ Versions.put us w.1 w.2) vs) := by
    intro vs ws hvs hws hle
    induction ws generalizing vs with
    | nil => exact hvs
    | cons w ws ih =>
      refine ih (hvs.put (fun v hv ↦ hle v hv w mem_cons_self) w.2) hws.of_cons ?_
      intro v hv w' hw'
      rcases mem_put hv with hv | rfl
      · exact hle v hv w' (mem_cons_of_mem _ hw')
      · exact Nat.le_of_lt (rel_of_pairwise_cons hws hw')
  exact hfold (h.ordered_store key) (h.ordered_pending key) fun v hv w hw ↦
    Nat.le_trans (h.store_le key v hv) (h.le_pending key w hw)

theorem commit : s.commit.WellFormed where
  lastRecordLsn_le := Nat.le_refl _
  ordered_store := h.ordered_versions
  store_le := h.versions_le
  ordered_pending _ := .nil
  le_pending _ v hv := by cases hv
  pending_le _ v hv := by cases hv

end

end WellFormed

end State

/-! ## Operations -/

/-- What the functions of the data directory are built from. -/
inductive Op where
  | get (version : Version) (key : MetaKey)
  | put (key : MetaKey) (val : key.Val)
  /-- Read a page as the timeline has it. -/
  | getPage (key : Key)
  | putData (key : Key) (val : PageValue)
  | hasDirtyData
  | getCachedRelSize (tag : RelTag) (version : Version)
  | updateCachedRelSize (tag : RelTag) (version : Version) (nblocks : BlockNumber)
  | setCachedRelSize (tag : RelTag) (nblocks : BlockNumber)
  | removeCachedRelSize (tag : RelTag)
  | versionLsn (version : Version)
  | setLsn (lsn : ℕ)
  | scan (spcnode dbnode : Oid) (version : Version)
  | getRelSizeV2Status
  | updateRelSizeV2Status (status : RelSizeMigration)
  | getRelSizeV2Enabled
  | isImportingPgdata
  | migrationRun
  | addNblocks (delta : Int)

abbrev Op.Res : Op → Type
  | get _ key => Option key.Val
  | put _ _ => Unit
  | getPage _ => Option Bytes
  | putData _ _ => Unit
  | hasDirtyData => Bool
  | getCachedRelSize _ _ => Option BlockNumber
  | updateCachedRelSize _ _ _ => Unit
  | setCachedRelSize _ _ => Unit
  | removeCachedRelSize _ => Unit
  | versionLsn _ => ℕ
  | setLsn _ => Unit
  | scan _ _ _ => List RelTag
  | getRelSizeV2Status => RelSizeMigration × Option ℕ
  | updateRelSizeV2Status _ => Unit
  | getRelSizeV2Enabled => Bool
  | isImportingPgdata => Bool
  | migrationRun => MigrationRun
  | addNblocks _ => Unit

/-- What the operations do. The page of some versions is reconstructed by `redo`. -/
def handle (redo : List PageValue → Option Bytes) : (o : Op) → State → o.Res × State
  | .get version key, s => (s.read version key, s)
  | .put key val, s => ((), s.put key val)
  | .getPage key, s =>
    (redo (((s.pages key).filter (·.1 ≤ max s.lastRecordLsn s.lsn)).map Prod.snd), s)
  | .putData key val, s => ((), s.putData key val)
  | .hasDirtyData, s => (!s.pendingDataBatch.isEmpty, s)
  | .getCachedRelSize tag version, s => (s.getCachedRelSize tag version, s)
  | .updateCachedRelSize tag version nblocks, s => ((), s.updateCachedRelSize tag version nblocks)
  | .setCachedRelSize tag nblocks, s => ((), s.setCachedRelSize tag s.lsn nblocks)
  | .removeCachedRelSize tag, s => ((), s.removeCachedRelSize tag)
  | .versionLsn version, s => (s.versionLsn version, s)
  | .setLsn lsn, s => ((), s.setLsn lsn)
  | .scan spcnode dbnode version, s => (s.scanRels spcnode dbnode (s.versionLsn version), s)
  | .getRelSizeV2Status, s => ((s.relSizeV2Status, s.relSizeMigratedAt), s)
  | .updateRelSizeV2Status status, s =>
    ((), { s with relSizeV2Status := status, relSizeMigratedAt := some s.lsn })
  | .getRelSizeV2Enabled, s => (s.relSizeV2Enabled, s)
  | .isImportingPgdata, s => (s.isImportingPgdata, s)
  | .migrationRun, s => (s.migrationRuns.headD {}, { s with migrationRuns := s.migrationRuns.tail })
  | .addNblocks delta, s => ((), { s with pendingNblocks := s.pendingNblocks + delta })

inductive Error where
  | missingKey (key : MetaKey)
  | missingPage (key : Key)
  | invalidRelnode
  | invalidKey (key : Key)
  | fileAlreadyExists (xid : UInt64)
  | slruAlreadyExists (kind : SlruKind) (segno : UInt32)
  | olderLsn (lsn current : ℕ)
  | xidWraparound (xid : UInt32)
  /-- A read or an upload that failed on its own. -/
  | failed
  deriving DecidableEq

abbrev Ingest (α : Type) : Type := Prog Op.Res Error α

/-! ## Reading through the operations -/

/-- `Version::sparse_get`, where a missing key is no error. -/
def sparseGet (version : Version) (key : MetaKey) : Ingest (Option key.Val) :=
  perform (Op.get version key)

def get (version : Version) (key : MetaKey) : Ingest key.Val := do
  match ← sparseGet version key with
  | some val => pure val
  | none => throw (.missingKey key)

def put (key : MetaKey) (val : key.Val) : Ingest Unit := perform (Op.put key val)

def getCachedRelSize (tag : RelTag) (version : Version) : Ingest (Option BlockNumber) :=
  perform (Op.getCachedRelSize tag version)

def updateCachedRelSize (tag : RelTag) (version : Version) (nblocks : BlockNumber) : Ingest Unit :=
  perform (Op.updateCachedRelSize tag version nblocks)

def setCachedRelSize (tag : RelTag) (nblocks : BlockNumber) : Ingest Unit :=
  perform (Op.setCachedRelSize tag nblocks)

def removeCachedRelSize (tag : RelTag) : Ingest Unit := perform (Op.removeCachedRelSize tag)

def versionLsn (version : Version) : Ingest ℕ := perform (Op.versionLsn version)

def scan (spcnode dbnode : Oid) (version : Version) : Ingest (List RelTag) :=
  perform (Op.scan spcnode dbnode version)

def getRelSizeV2Status : Ingest (RelSizeMigration × Option ℕ) := perform Op.getRelSizeV2Status

def updateRelSizeV2Status (status : RelSizeMigration) : Ingest Unit :=
  perform (Op.updateRelSizeV2Status status)

def getRelSizeV2Enabled : Ingest Bool := perform Op.getRelSizeV2Enabled

def isImportingPgdata : Ingest Bool := perform Op.isImportingPgdata

def migrationRun : Ingest MigrationRun := perform Op.migrationRun

def addNblocks (delta : Int) : Ingest Unit := perform (Op.addNblocks delta)

/-! ## What an operation leaves alone -/

section Handle

variable {redo : List PageValue → Option Bytes} {s : State}

/-- All operations but `setLsn` write at the LSN of the modification. -/
def Op.KeepsLsn : Op → Prop
  | setLsn _ => False
  | _ => True

structure State.SameKeys (s s' : State) : Prop where
  store_eq : s'.store = s.store
  pending_eq : s'.pendingMetadataPages = s.pendingMetadataPages
  lsn_eq : s'.lsn = s.lsn
  lastRecordLsn_eq : s'.lastRecordLsn = s.lastRecordLsn

namespace State.SameKeys

variable {s' s'' : State}

theorem refl (s : State) : s.SameKeys s := ⟨rfl, rfl, rfl, rfl⟩

theorem versions_eq (h : s.SameKeys s') : s'.versions = s.versions := by
  funext key
  rw [versions, versions, h.store_eq, h.pending_eq]

theorem view_eq (h : s.SameKeys s') : s'.view = s.view := by
  funext key
  rw [view, view, h.store_eq, h.pending_eq, h.lsn_eq, h.lastRecordLsn_eq]

theorem wellFormed (h : s.SameKeys s') (hs : s.WellFormed) : s'.WellFormed where
  lastRecordLsn_le := by rw [h.lsn_eq, h.lastRecordLsn_eq]; exact hs.lastRecordLsn_le
  ordered_store := by rw [h.store_eq]; exact hs.ordered_store
  store_le := by rw [h.store_eq, h.lastRecordLsn_eq]; exact hs.store_le
  ordered_pending := by rw [h.pending_eq]; exact hs.ordered_pending
  le_pending := by rw [h.pending_eq, h.lastRecordLsn_eq]; exact hs.le_pending
  pending_le := by rw [h.pending_eq, h.lsn_eq]; exact hs.pending_le

end State.SameKeys

/-- The operations that leave the keys alone. -/
def Op.KeepsKeys : Op → Prop
  | setLsn _ => False
  | put _ _ => False
  | _ => True

theorem sameKeys_updateCachedRelSize (tag : RelTag) (version : Version) (nblocks : BlockNumber) :
    s.SameKeys (s.updateCachedRelSize tag version nblocks) := by
  unfold State.updateCachedRelSize
  dsimp only
  split_ifs
  · split
    · split_ifs
      · exact ⟨rfl, rfl, rfl, rfl⟩
      · exact .refl s
    · exact ⟨rfl, rfl, rfl, rfl⟩
  · exact ⟨rfl, rfl, rfl, rfl⟩

variable {o : Op}

theorem sameKeys_handle (ho : o.KeepsKeys) : s.SameKeys (handle redo o s).2 := by
  cases o with
  | put key val => exact ho.elim
  | setLsn lsn => exact ho.elim
  | updateCachedRelSize tag version nblocks =>
    exact sameKeys_updateCachedRelSize tag version nblocks
  | _ => exact ⟨rfl, rfl, rfl, rfl⟩

/-- Below the LSN of the modification nothing has changed. -/
structure State.SameHistory (s s' : State) : Prop where
  wellFormed : s'.WellFormed
  lsn_eq : s'.lsn = s.lsn
  lastRecordLsn_eq : s'.lastRecordLsn = s.lastRecordLsn
  store_eq : s'.store = s.store
  asOf_eq : ∀ key l, l < s.lsn →
    Versions.asOf (s'.versions key) l = Versions.asOf (s.versions key) l

theorem State.WellFormed.sameHistory (h : s.WellFormed) : s.SameHistory s :=
  ⟨h, rfl, rfl, rfl, fun _ _ _ ↦ rfl⟩

variable {s' : State}

theorem State.SameHistory.put (h : s.SameHistory s') (key : MetaKey) (val : key.Val) :
    s.SameHistory (s'.put key val) where
  wellFormed := h.wellFormed.put key val
  lsn_eq := h.lsn_eq
  lastRecordLsn_eq := h.lastRecordLsn_eq
  store_eq := h.store_eq
  asOf_eq key' l hl := by
    rw [← h.asOf_eq key' l hl, versions_put]
    rcases eq_or_ne key' key with rfl | hne
    · rw [update_self, asOf_put (h.wellFormed.versions_le key'),
        if_neg (by rw [h.lsn_eq]; omega)]
    · rw [update_of_ne hne]

theorem State.SameHistory.sameKeys {s' s'' : State} (h : s.SameHistory s') (h' : s'.SameKeys s'') :
    s.SameHistory s'' where
  wellFormed := h'.wellFormed h.wellFormed
  lsn_eq := h'.lsn_eq.trans h.lsn_eq
  lastRecordLsn_eq := h'.lastRecordLsn_eq.trans h.lastRecordLsn_eq
  store_eq := h'.store_eq.trans h.store_eq
  asOf_eq := by rw [h'.versions_eq]; exact h.asOf_eq

theorem State.SameHistory.handle (h : s.SameHistory s') (ho : o.KeepsLsn) :
    s.SameHistory (handle redo o s').2 := by
  cases o with
  | put key val => exact h.put key val
  | setLsn lsn => exact ho.elim
  | _ => exact h.sameKeys (sameKeys_handle trivial)

/-- The operations that change nothing. -/
def Op.IsRead : Op → Prop
  | get _ _ | getPage _ | hasDirtyData | getCachedRelSize _ _ | versionLsn _ | scan _ _ _ => True
  | getRelSizeV2Status | getRelSizeV2Enabled | isImportingPgdata => True
  | _ => False

/-- The operations that change nothing but the caches. -/
def Op.IsLookup : Op → Prop
  | updateCachedRelSize _ _ _ => True
  | o => o.IsRead

theorem handle_of_isRead (h : o.IsRead) : (handle redo o s).2 = s := by
  cases o <;> first | rfl | exact h.elim

/-- The states differ in the caches only. -/
def State.SameButCaches (s s' : State) : Prop :=
  s' = { s with
    relSizeLatestCache := s'.relSizeLatestCache, relSizeSnapshotCache := s'.relSizeSnapshotCache }

theorem State.SameButCaches.sameKeys (h : s.SameButCaches s') : s.SameKeys s' := by
  rw [h]
  exact ⟨rfl, rfl, rfl, rfl⟩

theorem State.SameButCaches.handle (h : s.SameButCaches s') (ho : o.IsLookup) :
    s.SameButCaches (handle redo o s').2 := by
  cases o with
  | updateCachedRelSize tag version nblocks =>
    simp only [Datadir.handle, State.updateCachedRelSize]
    rw [h]
    split_ifs
    · split
      · split_ifs <;> rfl
      · rfl
    · rfl
  | _ => first | exact h | exact ho.elim

variable {α : Type} {p : Ingest α}

theorem exec_of_calls_isRead (hp : p.Calls Op.IsRead fun _ _ ↦ True)
    (s : State) : (p.exec (handle redo) s).2 = s := exec_of_calls (I := (· = s)) hp
    (fun _ ho _ hs' ↦ ⟨trivial, (handle_of_isRead ho).trans hs'⟩) rfl

theorem sameButCaches_exec (hp : p.Calls Op.IsLookup fun _ _ ↦ True)
    (s : State) : s.SameButCaches (p.exec (handle redo) s).2 :=
  exec_of_calls hp (fun _ ho _ hs' ↦ ⟨trivial, hs'.handle ho⟩) rfl

variable {key : MetaKey} {version : Version}

theorem sameHistory_exec (hp : p.Calls Op.KeepsLsn fun _ _ ↦ True)
    (h : s.WellFormed) : s.SameHistory (p.exec (handle redo) s).2 :=
  exec_of_calls hp (fun _ ho _ hs' ↦ ⟨trivial, hs'.handle ho⟩) h.sameHistory

/-! ### Pre- and postconditions -/

@[simp] theorem wp_sparseGet {Q : Except Error (Option key.Val) → State → Prop} :
    (sparseGet version key).wp (handle redo) Q s ↔ Q (.ok (s.read version key)) s := .rfl

theorem wp_get {Q : Except Error key.Val → State → Prop} : (get version key).wp (handle redo) Q s ↔
      match s.read version key with
      | some val => Q (.ok val) s
      | none => Q (.error (.missingKey key)) s := by
  unfold get
  rw [wp_bind, wp_sparseGet]
  rcases s.read version key with _ | val <;> rfl

section

variable {Q : Except Error Unit → State → Prop}

@[simp] theorem wp_put {val : key.Val} :
    (put key val).wp (handle redo) Q s ↔ Q (.ok ()) (s.put key val) := .rfl

@[simp] theorem wp_setCachedRelSize {tag : RelTag} {nblocks : BlockNumber} :
    (setCachedRelSize tag nblocks).wp (handle redo) Q s ↔
      Q (.ok ()) (s.setCachedRelSize tag s.lsn nblocks) := .rfl

@[simp] theorem wp_addNblocks {delta : Int} : (addNblocks delta).wp (handle redo) Q s ↔
      Q (.ok ()) { s with pendingNblocks := s.pendingNblocks + delta } := .rfl

end

section Bind

variable {α : Type} {version : Version} {key : MetaKey} {tag : RelTag} {nblocks : BlockNumber}
  {f : Unit → Ingest α} {Q : Except Error α → State → Prop}

theorem wp_sparseGet_bind {f : Option key.Val → Ingest α} :
    (sparseGet version key >>= f).wp (handle redo) Q s ↔
      (f (s.read version key)).wp (handle redo) Q s := .rfl

theorem wp_put_bind {val : key.Val} :
    (put key val >>= f).wp (handle redo) Q s ↔ (f ()).wp (handle redo) Q (s.put key val) := .rfl

theorem wp_setCachedRelSize_bind : (setCachedRelSize tag nblocks >>= f).wp (handle redo) Q s ↔
      (f ()).wp (handle redo) Q (s.setCachedRelSize tag s.lsn nblocks) := .rfl

theorem wp_addNblocks_bind {delta : Int} : (addNblocks delta >>= f).wp (handle redo) Q s ↔
      (f ()).wp (handle redo) Q { s with pendingNblocks := s.pendingNblocks + delta } := .rfl

theorem wp_updateRelSizeV2Status_bind {status : RelSizeMigration} :
    (updateRelSizeV2Status status >>= f).wp (handle redo) Q s ↔
      (f ()).wp (handle redo) Q
        { s with relSizeV2Status := status, relSizeMigratedAt := some s.lsn } := .rfl

theorem wp_getRelSizeV2Status_bind {f : RelSizeMigration × Option ℕ → Ingest α} :
    (getRelSizeV2Status >>= f).wp (handle redo) Q s ↔
      (f (s.relSizeV2Status, s.relSizeMigratedAt)).wp (handle redo) Q s := .rfl

theorem wp_getRelSizeV2Enabled_bind {f : Bool → Ingest α} :
    (getRelSizeV2Enabled >>= f).wp (handle redo) Q s ↔
      (f s.relSizeV2Enabled).wp (handle redo) Q s := .rfl

theorem wp_migrationRun_bind {f : MigrationRun → Ingest α} :
    (migrationRun >>= f).wp (handle redo) Q s ↔
      (f (s.migrationRuns.headD {})).wp (handle redo) Q
        { s with migrationRuns := s.migrationRuns.tail } := .rfl

end Bind

theorem wp_get_bind {f : key.Val → Ingest α} {Q : α → State → Prop}
    (h : ∀ val, s.read version key = some val → (f val).wp (handle redo) (onOk Q) s) :
    (get version key >>= f).wp (handle redo) (onOk Q) s := by
  refine wp_bind_onOk ?_
  rw [wp_get]
  split
  · rename_i val hval
    exact h val hval
  · trivial

end Handle

end NeonStorage.Datadir
