import NeonStorage.Pageserver.Datadir.Model

/-!
# Relations and databases

`pgdatadir_mapping`: which relations exist and how long they are, and the functions that change it.

The relations of a database are kept twice. The v1 directory is one value for each database. In the
v2 keyspace each relation has a key of its own, with a tombstone for a relation that was dropped. A
timeline starts with v1 alone (`legacy`), writes both once it is `migrating`, and v2 alone once it
is `migrated`.
-/

namespace NeonStorage.Datadir

open Pageserver (Key RelTag fsmForknum visibilitymapForknum)
open Prog (attempt each when Calls calls_pure calls_perform)

/-- The relation of a database with this relfilenode and fork. -/
def relTag (db : Oid × Oid) (rel : Oid × UInt8) : RelTag :=
  { forknum := rel.2, spcnode := db.1, dbnode := db.2, relnode := rel.1 }

/-! ## Reading -/

section Read

variable (tag : RelTag) (version : Version) (reldir : Option ((Oid × Oid) × RelDirectory))

/-- `reldir` is a directory that the caller has read already. -/
def getRelExistsInReldirV1 : Ingest Bool :=
  match reldir with
  | some (db, dir) =>
    if db = (tag.spcnode, tag.dbnode) then pure (dir.contains (tag.relnode, tag.forknum))
    else readDirectory
  | none => readDirectory
where
  readDirectory : Ingest Bool := do
    let dir : RelDirectory ← get version (.relDir tag.spcnode tag.dbnode)
    pure (dir.contains (tag.relnode, tag.forknum))

def getRelExistsInReldirV2 : Ingest Bool := do
  let val : Option RelDirExists ← sparseGet version (.relTagSparse tag)
  pure (val == some .present)

/-- While the timeline is migrating, v2 is read as well, but a difference is only logged. -/
def getRelExistsInReldir : Ingest Bool := do
  if tag.relnode = 0 then throw .invalidRelnode
  else
    match ← getCachedRelSize tag version with
    | some _ => pure true
    | none =>
      let dbdirs : DbDirectory ← get version .dbdir
      if (tag.spcnode, tag.dbnode) ∈ dbdirs.keys then
        let (v2Status, migratedLsn) ← getRelSizeV2Status
        let lsn ← versionLsn version
        match v2Status with
        | .legacy => getRelExistsInReldirV1 tag version reldir
        | .migrating => getRelExistsInReldirV1 tag version reldir
        | .migrated =>
          -- below the LSN of the migration there is only v1
          if lsn < migratedLsn.getD 0 then getRelExistsInReldirV1 tag version reldir
          else getRelExistsInReldirV2 tag version
      else pure false

def getRelExists : Ingest Bool := getRelExistsInReldir tag version none

def getRelSizeInReldir (allowMissing : Bool) : Ingest (Option BlockNumber) := do
  if tag.relnode = 0 then throw .invalidRelnode
  else
    match ← getCachedRelSize tag version with
    | some nblocks => pure (some nblocks)
    | none =>
      let missing ← (if allowMissing then notExists else pure false)
      if missing then pure none
      else
        let missingFork ←
          (if tag.forknum = fsmForknum ∨ tag.forknum = visibilitymapForknum then notExists
          else pure false)
        if missingFork then pure (some 0)
        else
          let nblocks : BlockNumber ← get version (.relSize tag)
          updateCachedRelSize tag version nblocks
          pure (some nblocks)
where
  notExists : Ingest Bool := do
    let found ← getRelExistsInReldir tag version reldir
    pure !found

end Read

section List

variable (spcnode dbnode : Oid) (version : Version)

def listRelsV1 : Ingest (List RelTag) := do
  let dir : RelDirectory ← get version (.relDir spcnode dbnode)
  pure (dir.map (relTag (spcnode, dbnode)))

/-- The scan sees the timeline only, also for a modification. -/
def listRelsV2 : Ingest (List RelTag) := scan spcnode dbnode version

def listRels : Ingest (List RelTag) := do
  let (v2Status, migratedLsn) ← getRelSizeV2Status
  let lsn ← versionLsn version
  match v2Status with
  | .legacy => listRelsV1 spcnode dbnode version
  | .migrating => listRelsV1 spcnode dbnode version
  | .migrated =>
    if lsn < migratedLsn.getD 0 then listRelsV1 spcnode dbnode version
    else listRelsV2 spcnode dbnode version

def sumRelSizes (reldir : RelDirectory) : List RelTag → Ingest ℕ
  | [] => pure 0
  | rel :: rels => do
    let nblocks ← getRelSizeInReldir rel version (some ((spcnode, dbnode), reldir)) false
    let total ← sumRelSizes reldir rels
    pure ((nblocks.getD 0).toNat + total)

def getDbSize : Ingest ℕ := do
  let rels ← listRels spcnode dbnode version
  if rels.isEmpty then pure 0
  else
    let reldir : RelDirectory ← get version (.relDir spcnode dbnode)
    sumRelSizes spcnode dbnode version reldir rels

end List

/-! ## Databases -/

/-- The status by which a function writes, and whether it is to initialize the v2 keyspace first. -/
def maybeEnableRelSizeV2 (isCreate : Bool) : Ingest (RelSizeMigration × Bool) := do
  let (status, _) ← getRelSizeV2Status
  let config ← getRelSizeV2Enabled
  match config, status with
  | true, .legacy =>
    let importing ← isImportingPgdata
    pure (.legacy, isCreate && !importing)
  | _, status => pure (status, false)

def putRelmapFile (spcnode dbnode : Oid) (img : Bytes) : Ingest Unit := do
  let dbdir : DbDirectory ← get .modified .dbdir
  let r := dbdir.lookup (spcnode, dbnode)
  when (r = none ∨ r = some false) (put .dbdir (dbdir.insert (spcnode, dbnode) true))
  when (r = none) (put (.relDir spcnode dbnode) [])
  put (.relmapFile spcnode dbnode) img

def dropDbdir (spcnode dbnode : Oid) : Ingest Unit := do
  let totalBlocks ← getDbSize spcnode dbnode .modified
  let dir : DbDirectory ← get .modified .dbdir
  when ((spcnode, dbnode) ∈ dir.keys) (put .dbdir (dir.remove (spcnode, dbnode)))
  addNblocks (-totalBlocks)

/-- Copy the directory of one database to the v2 keyspace. -/
def copyRelDirectory (db : Oid × Oid) : Ingest Unit := do
  let dir : RelDirectory ← get .modified (.relDir db.1 db.2)
  each dir fun rel ↦ put (.relTagSparse (relTag db rel)) .present

variable (dbdir : DbDirectory)

/-- The status is changed before its upload is scheduled. -/
def initializeRelSizeV2Keyspace : Ingest Unit := do
  let run ← migrationRun
  each (run.visit dbdir.keys) fun db ↦
    if run.failing = some db then throw .failed else copyRelDirectory db
  updateRelSizeV2Status .migrating
  when run.uploadFails (throw .failed)

/-! ## Relations -/

variable (rel : RelTag) (dbdirExists : Bool)

def putRelCreationV1 : Ingest Unit := do
  let relDir : RelDirectory ←
    (if dbdirExists then get .modified (.relDir rel.spcnode rel.dbnode) else pure [])
  when ((rel.relnode, rel.forknum) ∉ relDir)
    (put (.relDir rel.spcnode rel.dbnode) (relDir ++ [(rel.relnode, rel.forknum)]))

def putRelCreationV2 : Ingest Unit := do
  let val : Option RelDirExists ← sparseGet .modified (.relTagSparse rel)
  when (val ≠ some .present) (put (.relTagSparse rel) .present)

/-- Initialize the v2 keyspace if that is due. An error does not stop the creation of a relation. -/
def tryInitializeRelSizeV2 : Ingest RelSizeMigration := do
  let (currentStatus, isDue) ← maybeEnableRelSizeV2 true
  if isDue then
    match ← (initializeRelSizeV2Keyspace dbdir).attempt with
    | .ok () => pure .migrating
    | .error _ => pure currentStatus
  else pure currentStatus

variable (currentStatus : RelSizeMigration)

def enterRelation : Ingest Unit := do
  when (currentStatus ≠ .migrated) (putRelCreationV1 rel dbdirExists)
  when (currentStatus ≠ .legacy) do
    match ← (putRelCreationV2 rel).attempt with
    | .ok () => pure ()
    | .error e => when (currentStatus = .migrated) (throw e)

variable (nblocks : BlockNumber)

def putRelCreation : Ingest Unit := do
  if rel.relnode = 0 then throw .invalidRelnode
  else
    -- a relation that exists keeps its size
    let found ← (getRelExists rel .modified).attempt
    let relAlreadyExists := found.toOption.getD false
    let dbdir : DbDirectory ← get .modified .dbdir
    let dbdirExists : Bool := (rel.spcnode, rel.dbnode) ∈ dbdir.keys
    let dbdir := if dbdirExists then dbdir else dbdir.insert (rel.spcnode, rel.dbnode) false
    when (dbdirExists = false) (put .dbdir dbdir)
    let currentStatus ← tryInitializeRelSizeV2 dbdir
    enterRelation rel dbdirExists currentStatus
    when (relAlreadyExists = false) do
      put (.relSize rel) nblocks
      addNblocks nblocks.toNat
      setCachedRelSize rel nblocks

def putRelTruncation : Ingest Unit := do
  if rel.relnode = 0 then throw .invalidRelnode
  else
    let found ← getRelExists rel .modified
    when found do
      let oldSize : BlockNumber ← get .modified (.relSize rel)
      put (.relSize rel) nblocks
      setCachedRelSize rel nblocks
      addNblocks (nblocks.toNat - oldSize.toNat)

def putRelExtend : Ingest Unit := do
  if rel.relnode = 0 then throw .invalidRelnode
  else
    let oldSize : BlockNumber ← get .modified (.relSize rel)
    when (oldSize < nblocks) do
      put (.relSize rel) nblocks
      setCachedRelSize rel nblocks
      addNblocks (nblocks.toNat - oldSize.toNat)

/-- Drop relations from the directory of a database: what is left of it, and whether it has
changed. -/
def dropFromDirectory : List RelTag → RelDirectory → Bool → Ingest (RelDirectory × Bool)
  | [], dir, dirty => pure (dir, dirty)
  | tag :: tags, dir, dirty =>
    if (tag.relnode, tag.forknum) ∈ dir then do
      let oldSize : BlockNumber ← get .modified (.relSize tag)
      addNblocks (-oldSize.toNat)
      removeCachedRelSize tag
      dropFromDirectory tags (dir.filter (· ≠ (tag.relnode, tag.forknum))) true
    else dropFromDirectory tags dir dirty

variable (dropRelations : List ((Oid × Oid) × List RelTag))

def putRelDropV1 : Ingest Unit :=
  each dropRelations fun (db, tags) ↦ do
    let dir : RelDirectory ← get .modified (.relDir db.1 db.2)
    let (dir, dirty) ← dropFromDirectory tags dir false
    when dirty (put (.relDir db.1 db.2) dir)

def putRelDropV2 : Ingest Unit :=
  each dropRelations fun (db, tags) ↦ each tags fun tag ↦ do
    let key := relTag db (tag.relnode, tag.forknum)
    let val : Option RelDirExists ← sparseGet .modified (.relTagSparse key)
    when (val = some .present) (put (.relTagSparse key) .removed)

def putRelDrops : Ingest Unit := do
  let (currentStatus, _) ← maybeEnableRelSizeV2 false
  match currentStatus with
  | .legacy => putRelDropV1 dropRelations
  | .migrating =>
    putRelDropV1 dropRelations
    let _ ← (putRelDropV2 dropRelations).attempt
    pure ()
  | .migrated => putRelDropV2 dropRelations

/-! ## The writes of a modification -/

/-- `init_empty`, on shard zero. -/
def State.initEmpty (s : State) : State :=
  let s := (s.put .dbdir []).put .twophaseDir []
  ((s.put (.slruDir .clog) []).put (.slruDir .multiXactMembers) []).put
    (.slruDir .multiXactOffsets) []

/-- A timeline that has nothing, and a modification on it. -/
def State.empty (lsn : ℕ) (relSizeV2Enabled : Bool) (migrationRuns : List MigrationRun) :
    State where
  store _ := []
  pages _ := []
  sparseRels := []
  lastRecordLsn := lsn
  relSizeLatestCache _ := none
  relSizeSnapshotCache _ := none
  relSizeV2Status := .legacy
  relSizeMigratedAt := none
  relSizeV2Enabled
  migrationRuns
  lsn
  pendingMetadataPages _ := []
  pendingSparseRels := []
  pendingDataBatch := []
  pendingNblocks := 0
  isImportingPgdata := false

/-- The calls that change databases and relations. -/
inductive Write where
  | putRelCreation (rel : RelTag) (nblocks : BlockNumber)
  | putRelExtend (rel : RelTag) (nblocks : BlockNumber)
  | putRelTruncation (rel : RelTag) (nblocks : BlockNumber)
  | putRelDrops (dropRelations : List ((Oid × Oid) × List RelTag))
  | putRelmapFile (spcnode dbnode : Oid) (img : Bytes)
  | dropDbdir (spcnode dbnode : Oid)

def Write.prog : Write → Ingest Unit
  | putRelCreation rel nblocks => Datadir.putRelCreation rel nblocks
  | putRelExtend rel nblocks => Datadir.putRelExtend rel nblocks
  | putRelTruncation rel nblocks => Datadir.putRelTruncation rel nblocks
  | putRelDrops dropRelations => Datadir.putRelDrops dropRelations
  | putRelmapFile spcnode dbnode img => Datadir.putRelmapFile spcnode dbnode img
  | dropDbdir spcnode dbnode => Datadir.dropDbdir spcnode dbnode

def State.write (redo : List PageValue → Option Bytes) (s : State) (w : Write) : Option State :=
  match w.prog.exec (handle redo) s with
  | (.ok (), s') => some s'
  | (.error _, _) => none

variable {redo : List PageValue → Option Bytes}

theorem State.write_eq_some {s s' : State} {w : Write} (h : s.write redo w = some s') :
    w.prog.exec (handle redo) s = (.ok (), s') := by
  unfold write at h
  split at h
  · rename_i s₁ hexec
    rw [hexec, Option.some.inj h]
  · cases h

/-! ## What the functions call -/

/-- The operations that read at a version. -/
def Op.ReadsAt (version : Version) : Op → Prop
  | get v _ | getCachedRelSize _ v | versionLsn v => v = version
  | getRelSizeV2Status => True
  | _ => False

/-- The operations that read at a version and remember what they have read. -/
def Op.LooksUp (version : Version) : Op → Prop
  | updateCachedRelSize _ v _ => v = version
  | o => o.ReadsAt version

/-- The operations that read through the modification and write to it. -/
def Op.Plain : Op → Prop
  | put _ _ | putData _ _ | setCachedRelSize _ _ | removeCachedRelSize _ => True
  | updateRelSizeV2Status _ | getRelSizeV2Enabled | isImportingPgdata => True
  | migrationRun | addNblocks _ => True
  | o => o.LooksUp .modified

variable {o : Op} {version : Version}

theorem Op.ReadsAt.looksUp (h : o.ReadsAt version) : o.LooksUp version := by
  cases o <;> first | exact h | exact h.elim

theorem Op.LooksUp.plain (h : o.LooksUp .modified) : o.Plain := by
  cases o <;> first | exact h | exact h.elim

theorem Op.ReadsAt.isRead (h : o.ReadsAt version) : o.IsRead := by
  cases o <;> first | exact h.elim | trivial

theorem Op.LooksUp.isLookup (h : o.LooksUp version) : o.IsLookup := by
  cases o <;> first | exact h.elim | trivial

theorem Op.Plain.keepsLsn (h : o.Plain) : o.KeepsLsn := by
  cases o <;> first | exact h.elim | trivial

theorem Op.IsLookup.keepsLsn (h : o.IsLookup) : o.KeepsLsn := by
  cases o <;> first | exact h.elim | trivial

section Calls

variable {P : Op → Prop} {V : (o : Op) → o.Res → Prop} {tag : RelTag} {version : Version}
  {spcnode dbnode : Oid}

open Op.Plain (keepsLsn)

theorem calls_get {key : MetaKey} (h : P (.get version key)) : (get version key).Calls P V := by
  refine ⟨h, fun r _ ↦ ?_⟩
  cases r <;> trivial

variable (reldir : Option ((Oid × Oid) × RelDirectory))

theorem calls_getRelExistsInReldir :
    (getRelExistsInReldir tag version reldir).Calls (Op.ReadsAt version) V := by
  have hdir : (getRelExistsInReldirV1.readDirectory tag version).Calls (Op.ReadsAt version) V :=
    .bind (calls_get rfl) fun _ ↦ calls_pure _
  have hv1 : (getRelExistsInReldirV1 tag version reldir).Calls (Op.ReadsAt version) V := by
    unfold getRelExistsInReldirV1
    split
    · split_ifs
      · trivial
      · exact hdir
    · exact hdir
  have hv2 : (getRelExistsInReldirV2 tag version).Calls (Op.ReadsAt version) V :=
    .bind (calls_perform rfl) fun _ ↦ calls_pure _
  unfold getRelExistsInReldir
  split_ifs
  · trivial
  refine .bind (calls_perform rfl) fun cached ↦ ?_
  cases cached with
  | some n => trivial
  | none =>
    refine .bind (calls_get rfl) fun dbdirs ↦ ?_
    split_ifs
    · refine .bind (calls_perform trivial) fun (status, migratedLsn) ↦ ?_
      refine .bind (calls_perform rfl) fun lsn ↦ ?_
      cases status with
      | legacy => exact hv1
      | migrating => exact hv1
      | migrated =>
        split_ifs
        · exact hv1
        · exact hv2
    · trivial

theorem calls_getRelExists_plain : (getRelExists tag .modified).Calls Op.Plain V :=
  (calls_getRelExistsInReldir none).mono fun _ ho ↦ ho.looksUp.plain

theorem calls_getRelSizeInReldir (allowMissing : Bool) :
    (getRelSizeInReldir tag version reldir allowMissing).Calls (Op.LooksUp version) V := by
  have hexists : (getRelSizeInReldir.notExists tag version reldir).Calls (Op.LooksUp version) V :=
    ((calls_getRelExistsInReldir reldir).mono fun _ ho ↦ ho.looksUp).bind fun _ ↦ calls_pure _
  have hif : ∀ (c : Prop) [Decidable c],
      (if c then getRelSizeInReldir.notExists tag version reldir else pure false).Calls
        (Op.LooksUp version) V := by
    intro c _
    split_ifs
    · exact hexists
    · trivial
  unfold getRelSizeInReldir
  by_cases hzero : tag.relnode = 0
  · rw [if_pos hzero]
    trivial
  rw [if_neg hzero]
  refine .bind (calls_perform rfl) fun cached ↦ ?_
  cases cached with
  | some n => trivial
  | none =>
    refine .bind (hif _) fun missing ↦ ?_
    cases missing with
    | true => trivial
    | false =>
      refine .bind (hif _) fun missingFork ↦ ?_
      cases missingFork with
      | true => trivial
      | false =>
        refine .bind (calls_get rfl) fun nblocks ↦ ?_
        exact .bind (calls_perform rfl) fun _ ↦ calls_pure _

theorem calls_listRels : (listRels spcnode dbnode version).Calls Op.IsLookup V := by
  have hv1 : (listRelsV1 spcnode dbnode version).Calls Op.IsLookup V :=
    .bind (calls_get trivial) fun _ ↦ calls_pure _
  refine .bind (calls_perform trivial) fun (status, migratedLsn) ↦ ?_
  refine .bind (calls_perform trivial) fun lsn ↦ ?_
  cases status with
  | legacy => exact hv1
  | migrating => exact hv1
  | migrated =>
    split_ifs
    · exact hv1
    · exact calls_perform trivial

theorem calls_getDbSize : (getDbSize spcnode dbnode version).Calls Op.IsLookup V := by
  have hsum : ∀ reldir rels,
      (sumRelSizes spcnode dbnode version reldir rels).Calls Op.IsLookup V := by
    intro reldir rels
    induction rels with
    | nil => trivial
    | cons rel rels ih =>
      exact ((calls_getRelSizeInReldir _ _).mono fun _ ↦ Op.LooksUp.isLookup).bind fun _ ↦
        ih.bind fun _ ↦ calls_pure _
  refine calls_listRels.bind fun rels ↦ ?_
  split_ifs
  · trivial
  · exact .bind (calls_get trivial) fun reldir ↦ hsum reldir rels

theorem calls_maybeEnableRelSizeV2 (isCreate : Bool) :
    (maybeEnableRelSizeV2 isCreate).Calls Op.Plain V := by
  refine .bind (calls_perform trivial) fun (status, _) ↦ ?_
  refine .bind (calls_perform trivial) fun config ↦ ?_
  have himporting : Calls Op.Plain V (do
      let importing ← isImportingPgdata
      pure (RelSizeMigration.legacy, isCreate && !importing)) :=
    .bind (calls_perform trivial) fun _ ↦ calls_pure _
  cases config <;> cases status <;> trivial

theorem calls_putRelmapFile (img : Bytes) :
    (putRelmapFile spcnode dbnode img).Calls Op.Plain V := by
  refine .bind (calls_get rfl) fun _ ↦ ?_
  refine .bind (.when fun _ ↦ calls_perform trivial) fun _ ↦ ?_
  exact .bind (.when fun _ ↦ calls_perform trivial) fun _ ↦ calls_perform trivial

theorem calls_dropDbdir : (dropDbdir spcnode dbnode).Calls Op.KeepsLsn V := by
  refine .bind (calls_getDbSize.mono fun _ ↦ Op.IsLookup.keepsLsn) fun _ ↦ ?_
  refine .bind (calls_get trivial) fun _ ↦ ?_
  refine .bind (.when fun _ ↦ calls_perform trivial) fun _ ↦ calls_perform trivial

theorem calls_tryInitializeRelSizeV2 : (tryInitializeRelSizeV2 dbdir).Calls Op.Plain V := by
  have hcopy : ∀ db, (copyRelDirectory db).Calls Op.Plain V := fun db ↦
    .bind (calls_get rfl) fun _ ↦ .each fun _ _ ↦ calls_perform trivial
  have hinit : (initializeRelSizeV2Keyspace dbdir).Calls Op.Plain V := by
    refine .bind (calls_perform trivial) fun run ↦ ?_
    refine .bind (.each fun db _ ↦ ?_) fun _ ↦ ?_
    · split_ifs
      · trivial
      · exact hcopy db
    · exact .bind (calls_perform trivial) fun _ ↦
        .when fun _ ↦ trivial
  refine (calls_maybeEnableRelSizeV2 true).bind fun (currentStatus, isDue) ↦ ?_
  dsimp only
  split_ifs
  · refine hinit.attempt.bind fun r ↦ ?_
    split <;> trivial
  · trivial

theorem calls_enterRelation : (enterRelation tag dbdirExists currentStatus).Calls Op.Plain V := by
  have hv1 : (putRelCreationV1 tag dbdirExists).Calls Op.Plain V := by
    refine .bind ?_ fun _ ↦ .when fun _ ↦ calls_perform trivial
    cases dbdirExists with
    | true => exact calls_get rfl
    | false => trivial
  have hv2 : (putRelCreationV2 tag).Calls Op.Plain V :=
    .bind (calls_perform rfl) fun _ ↦ .when fun _ ↦ calls_perform trivial
  refine .bind (.when fun _ ↦ hv1) fun _ ↦ .when fun _ ↦ ?_
  refine hv2.attempt.bind fun r ↦ ?_
  split
  · trivial
  · exact .when fun _ ↦ trivial

variable (nblocks : BlockNumber)

theorem calls_putRelCreation : (putRelCreation tag nblocks).Calls Op.Plain V := by
  unfold putRelCreation
  by_cases hzero : tag.relnode = 0
  · rw [if_pos hzero]
    trivial
  rw [if_neg hzero]
  refine .bind calls_getRelExists_plain.attempt fun _ ↦ ?_
  refine .bind (calls_get rfl) fun dbdir ↦ ?_
  refine .bind (.when fun _ ↦ calls_perform trivial) fun _ ↦ ?_
  refine .bind (calls_tryInitializeRelSizeV2 _) fun _ ↦ ?_
  refine .bind (calls_enterRelation _ _) fun _ ↦ .when fun _ ↦ ?_
  exact .bind (calls_perform trivial) fun _ ↦
    .bind (calls_perform trivial) fun _ ↦ calls_perform trivial

theorem calls_putRelTruncation : (putRelTruncation tag nblocks).Calls Op.Plain V := by
  unfold putRelTruncation
  split_ifs
  · trivial
  refine .bind calls_getRelExists_plain fun _ ↦ .when fun _ ↦ ?_
  refine .bind (calls_get rfl) fun _ ↦ ?_
  exact .bind (calls_perform trivial) fun _ ↦
    .bind (calls_perform trivial) fun _ ↦ calls_perform trivial

theorem calls_putRelExtend : (putRelExtend tag nblocks).Calls Op.Plain V := by
  unfold putRelExtend
  split_ifs
  · trivial
  refine .bind (calls_get rfl) fun _ ↦ .when fun _ ↦ ?_
  exact .bind (calls_perform trivial) fun _ ↦
    .bind (calls_perform trivial) fun _ ↦ calls_perform trivial

theorem calls_putRelDrops : (putRelDrops dropRelations).Calls Op.Plain V := by
  have hdrop : ∀ tags dir dirty, (dropFromDirectory tags dir dirty).Calls Op.Plain V := by
    intro tags
    induction tags with
    | nil => exact fun _ _ ↦ trivial
    | cons t tags ih =>
      intro dir dirty
      unfold dropFromDirectory
      split_ifs
      · refine .bind (calls_get rfl) fun _ ↦ ?_
        exact .bind (calls_perform trivial) fun _ ↦
          .bind (calls_perform trivial) fun _ ↦ ih _ _
      · exact ih _ _
  have hv1 : (putRelDropV1 dropRelations).Calls Op.Plain V :=
    .each fun _ _ ↦ .bind (calls_get rfl) fun _ ↦
      .bind (hdrop _ _ _) fun _ ↦ .when fun _ ↦ calls_perform trivial
  have hv2 : (putRelDropV2 dropRelations).Calls Op.Plain V :=
    .each fun _ _ ↦ .each fun _ _ ↦
      .bind (calls_perform rfl) fun _ ↦ .when fun _ ↦ calls_perform trivial
  refine (calls_maybeEnableRelSizeV2 false).bind fun (currentStatus, isDue) ↦ ?_
  cases currentStatus with
  | legacy => exact hv1
  | migrating => exact hv1.bind fun _ ↦ hv2.attempt.bind fun _ ↦ calls_pure _
  | migrated => exact hv2

theorem Write.calls (w : Write) : w.prog.Calls Op.KeepsLsn fun _ _ ↦ True := by
  cases w with
  | putRelCreation rel nblocks => exact (calls_putRelCreation nblocks).mono fun _ ↦ keepsLsn
  | putRelExtend rel nblocks => exact (calls_putRelExtend nblocks).mono fun _ ↦ keepsLsn
  | putRelTruncation rel nblocks => exact (calls_putRelTruncation nblocks).mono fun _ ↦ keepsLsn
  | putRelDrops drops => exact (calls_putRelDrops drops).mono fun _ ↦ keepsLsn
  | putRelmapFile spcnode dbnode img => exact (calls_putRelmapFile img).mono fun _ ↦ keepsLsn
  | dropDbdir spcnode dbnode => exact calls_dropDbdir

theorem State.write_sameHistory {s s' : State} {w : Write} (hs : s.WellFormed)
    (h : s.write redo w = some s') : s.SameHistory s' := by
  have hhistory : s.SameHistory (w.prog.exec (handle redo) s).2 := sameHistory_exec w.calls hs
  rwa [write_eq_some h] at hhistory

end Calls

end NeonStorage.Datadir
