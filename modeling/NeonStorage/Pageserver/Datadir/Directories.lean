import NeonStorage.Lib.Runs
import NeonStorage.Pageserver.Datadir.Mapping

/-!
# The two relation directories

Once a timeline is migrating, every change of the v1 directory of a database is to be made in the v2
keyspace as well. `agrees_throughout_iff` says when the two have the same relations.

What a function does to the directories is stated on what the modification sees (`HasDb`, `InV1`,
`InV2`). Below its LSN nothing changes, and from its LSN on there is what it sees, so that a
statement about all LSNs comes from one about the view.
-/

namespace NeonStorage.Datadir

open List Function Or

open Pageserver (Key RelTag)
open Prog (attempt each when onOk wp_bind wp_when wp_mono wp_onOk_mono wp_bind_onOk
    wp_attempt wp_each wp_ok)

/-! ## The directories -/

abbrev dbOf (tag : RelTag) : Oid × Oid := (tag.spcnode, tag.dbnode)

abbrev relOf (tag : RelTag) : Oid × UInt8 := (tag.relnode, tag.forknum)

variable {db : Oid × Oid} {tag : RelTag}

@[simp] theorem relTag_dbOf_relOf (tag : RelTag) : relTag (dbOf tag) (relOf tag) = tag := rfl

theorem relTag_eq_iff {rel : Oid × UInt8} :
    tag = relTag db rel ↔ dbOf tag = db ∧ relOf tag = rel := by
  constructor
  · rintro rfl
    exact ⟨rfl, rfl⟩
  · rintro ⟨rfl, rfl⟩
    rfl

variable {rel : RelTag}

theorem tag_eq_iff : tag = rel ↔ dbOf tag = dbOf rel ∧ relOf tag = relOf rel := by
  rw [← relTag_eq_iff, relTag_dbOf_relOf]

section Directories

variable (rd : (key : MetaKey) → Option key.Val)

def HasDb (db : Oid × Oid) : Prop :=
  ∃ dbdirs : DbDirectory, rd .dbdir = some dbdirs ∧ db ∈ dbdirs.keys

def InV1 (tag : RelTag) : Prop :=
  ∃ dir : RelDirectory, rd (.relDir tag.spcnode tag.dbnode) = some dir ∧ relOf tag ∈ dir

def InV2 (tag : RelTag) : Prop := rd (.relTagSparse tag) = some RelDirExists.present

/-- For the databases that are there, the two directories have the same relations. -/
def Agree : Prop := ∀ tag, HasDb rd (dbOf tag) → (InV2 rd tag ↔ InV1 rd tag)

variable {rd} {key : MetaKey} {val : Option key.Val} {db : Oid × Oid} {tag : RelTag}

/-! ### After a write -/

@[simp] theorem hasDb_update_dbdir {v : Option DbDirectory} :
    HasDb (update rd .dbdir v) db ↔ ∃ dbdirs, v = some dbdirs ∧ db ∈ dbdirs.keys := by
  rw [HasDb, update_self]

@[simp] theorem hasDb_update_of_ne (h : key ≠ .dbdir) : HasDb (update rd key val) = HasDb rd := by
  funext db
  rw [HasDb, update_of_ne h.symm, HasDb]

@[simp] theorem inV1_update_relDir {spcnode dbnode : Oid} {v : Option RelDirectory} :
    InV1 (update rd (.relDir spcnode dbnode) v) tag ↔
      if dbOf tag = (spcnode, dbnode) then ∃ dir, v = some dir ∧
        relOf tag ∈ dir else InV1 rd tag := by
  split_ifs with h
  · cases h
    rw [InV1, update_self]
  · have hne : MetaKey.relDir tag.spcnode tag.dbnode ≠ .relDir spcnode dbnode := by
      intro heq
      rw [MetaKey.relDir.injEq] at heq
      exact h (Prod.ext heq.1 heq.2)
    rw [InV1, update_of_ne hne, InV1]

@[simp] theorem inV1_update_of_ne (h : ∀ spcnode dbnode, key ≠ .relDir spcnode dbnode) :
    InV1 (update rd key val) tag ↔ InV1 rd tag := by
  rw [InV1, update_of_ne (h _ _).symm, InV1]

@[simp] theorem inV2_update_sparse {t : RelTag} {v : Option RelDirExists} :
    InV2 (update rd (.relTagSparse t) v) tag ↔
      if tag = t then v = some .present else InV2 rd tag := by
  split_ifs with h
  · subst h
    rw [InV2, update_self]
  · have hne : MetaKey.relTagSparse tag ≠ .relTagSparse t := by simpa using h
    rw [InV2, update_of_ne hne, InV2]

@[simp] theorem inV2_update_of_ne (h : ∀ t, key ≠ .relTagSparse t) :
    InV2 (update rd key val) tag ↔ InV2 rd tag := by
  rw [InV2, update_of_ne (h _).symm, InV2]

end Directories

/-- The status of the migration and the LSN are the same. -/
structure State.SameStatus (s s' : State) : Prop where
  status_eq : s'.relSizeV2Status = s.relSizeV2Status
  migratedAt_eq : s'.relSizeMigratedAt = s.relSizeMigratedAt
  lsn_eq : s'.lsn = s.lsn

namespace State.SameStatus

variable {s s' s'' : State}

@[simp] theorem refl (s : State) : s.SameStatus s := ⟨rfl, rfl, rfl⟩

theorem trans (h : s.SameStatus s') (h' : s'.SameStatus s'') : s.SameStatus s'' :=
  ⟨h'.status_eq.trans h.status_eq, h'.migratedAt_eq.trans h.migratedAt_eq, h'.lsn_eq.trans h.lsn_eq⟩

@[simp] theorem put_iff {key : MetaKey} {val : key.Val} :
    s.SameStatus (s'.put key val) ↔ s.SameStatus s' :=
  ⟨fun ⟨h, h₁, h₂⟩ ↦ ⟨h, h₁, h₂⟩, fun ⟨h, h₁, h₂⟩ ↦ ⟨h, h₁, h₂⟩⟩

@[simp] theorem addNblocks_iff {n : Int} :
    s.SameStatus { s' with pendingNblocks := n } ↔ s.SameStatus s' :=
  ⟨fun ⟨h, h₁, h₂⟩ ↦ ⟨h, h₁, h₂⟩, fun ⟨h, h₁, h₂⟩ ↦ ⟨h, h₁, h₂⟩⟩

end State.SameStatus

@[simp] theorem State.view_addNblocks {s : State} {n : Int} :
    State.view { s with pendingNblocks := n } = s.view := rfl

variable {nblocks : BlockNumber}

@[simp] theorem State.view_setCachedRelSize {s : State} {lsn : ℕ} :
    (s.setCachedRelSize tag lsn nblocks).view = s.view := rfl

theorem State.SameButCaches.sameStatus {s s' : State} (h : s.SameButCaches s') :
    s.SameStatus s' := by
  rw [h]
  exact ⟨rfl, rfl, rfl⟩

/-! ## What the functions do to them -/

section Effects

variable {redo : List PageValue → Option Bytes} {s : State}

theorem wp_maybeEnableRelSizeV2 {isCreate : Bool}
    {Q : Except Error (RelSizeMigration × Bool) → State → Prop}
    (h : ∀ isDue, (isDue = true → s.relSizeV2Status = .legacy ∧ isCreate = true) →
      Q (.ok (s.relSizeV2Status, isDue)) s) :
    (maybeEnableRelSizeV2 isCreate).wp (handle redo) Q s := by
  refine wp_getRelSizeV2Status_bind.mpr (wp_getRelSizeV2Enabled_bind.mpr ?_)
  split
  · rename_i hstatus
    rw [hstatus] at h
    exact h _ fun hdue ↦ ⟨rfl, (Bool.and_eq_true_iff.mp hdue).1⟩
  · exact h false nofun

theorem hasDb_iff_of_view {dbdirs : DbDirectory} (h : s.view .dbdir = some dbdirs) :
    HasDb s.view db ↔ db ∈ dbdirs.keys := by
  simp [HasDb, h]

variable {dir : RelDirectory}

theorem inV1_iff_of_view (h : s.view (.relDir db.1 db.2) = some dir) (hdb : dbOf tag = db) :
    InV1 s.view tag ↔ relOf tag ∈ dir := by
  subst hdb
  have h : s.view (.relDir tag.spcnode tag.dbnode) = some dir := h
  simp [InV1, h]

theorem wp_getRelExists {Q : Except Error Bool → State → Prop} (h : ∀ r, Q r s) :
    (getRelExists rel .modified).wp (handle redo) Q s := by
  have hread : (getRelExists rel .modified).wp (handle redo) (fun _ s₁ ↦ s₁ = s) s :=
    exec_of_calls_isRead ((calls_getRelExistsInReldir none).mono fun _ ho ↦ ho.isRead) s
  refine wp_mono hread ?_
  rintro r s' rfl
  exact h r

variable {spcnode dbnode : Oid}

theorem wp_putRelmapFile {img : Bytes} :
    (putRelmapFile spcnode dbnode img).wp (handle redo) (onOk fun _ s' ↦
      s.SameStatus s' ∧
      (∀ db, HasDb s'.view db ↔ db = (spcnode, dbnode) ∨ HasDb s.view db) ∧
      (∀ tag, InV1 s'.view tag ↔
        InV1 s.view tag ∧ (dbOf tag = (spcnode, dbnode) → HasDb s.view (spcnode, dbnode))) ∧
      (∀ tag, InV2 s'.view tag ↔ InV2 s.view tag)) s := by
  refine wp_get_bind fun dbdir hdbdir ↦ ?_
  have hdb : ∀ db, HasDb s.view db ↔ db ∈ dbdir.keys := fun db ↦ hasDb_iff_of_view hdbdir
  rcases hr : dbdir.lookup (spcnode, dbnode) with _ | relmap
  · have hnew := DbDirectory.lookup_eq_none_iff.mp hr
    simp [wp_bind, wp_when, hdb, hnew, and_comm]
  · have hold : (spcnode, dbnode) ∈ dbdir.keys := by
      by_contra hnot
      cases (DbDirectory.lookup_eq_none_iff.mpr hnot).symm.trans hr
    simp [wp_bind, wp_when, hdb, hold]

theorem wp_dropDbdir : (dropDbdir spcnode dbnode).wp (handle redo) (onOk fun _ s' ↦
      s.SameStatus s' ∧
      (∀ db, HasDb s'.view db → HasDb s.view db) ∧
      (∀ tag, InV1 s'.view tag ↔ InV1 s.view tag) ∧
      (∀ tag, InV2 s'.view tag ↔ InV2 s.view tag)) s := by
  have hsize : (getDbSize spcnode dbnode .modified).wp (handle redo)
    (fun _ s₁ ↦ s.SameButCaches s₁) s :=
    sameButCaches_exec calls_getDbSize s
  refine wp_bind_onOk (wp_mono hsize ?_)
  rintro (e | total) s₁ hs₁
  · trivial
  have hview := hs₁.sameKeys.view_eq
  have hstatus := hs₁.sameStatus
  refine wp_get_bind fun dir hdir ↦ ?_
  have hdb : ∀ db, HasDb s.view db ↔ db ∈ dir.keys := fun db ↦ by
    rw [← hview]
    exact hasDb_iff_of_view hdir
  simp [wp_bind, wp_when, hview, hdb, hstatus]

/-! ### Dropping relations -/

def Dropped (dropRelations : List ((Oid × Oid) × List RelTag)) (tag : RelTag) : Prop :=
  ∃ group ∈ dropRelations, dbOf tag = group.1 ∧ relOf tag ∈ group.2.map relOf

@[simp] theorem not_dropped_nil (tag : RelTag) : ¬Dropped [] tag := by
  simp [Dropped]

theorem dropped_cons {group : (Oid × Oid) × List RelTag}
    {groups : List ((Oid × Oid) × List RelTag)} : Dropped (group :: groups) tag ↔
      (dbOf tag = group.1 ∧ relOf tag ∈ group.2.map relOf) ∨ Dropped groups tag := by
  simp only [Dropped, exists_mem_cons_iff]

variable {tags : List RelTag}

theorem wp_dropFromDirectory {dirty : Bool} :
    (dropFromDirectory tags dir dirty).wp (handle redo) (onOk fun r s' ↦
      s.SameKeys s' ∧ s.SameStatus s' ∧ (∀ rel, rel ∈ r.1 ↔ rel ∈ dir ∧ rel ∉ tags.map relOf) ∧
      (dirty = true → r.2 = true) ∧ (r.2 = false → r.1 = dir)) s := by
  induction tags generalizing dir dirty s with
  | nil => exact ⟨.refl s, .refl s, by simp, id, fun _ ↦ rfl⟩
  | cons tag tags ih =>
    unfold dropFromDirectory
    split_ifs with hmem
    · refine wp_get_bind fun oldSize _ ↦ ?_
      refine wp_onOk_mono ih ?_
      rintro ⟨dir', dirty'⟩ s' ⟨hkeys, hstatus, hdir, hdirty, -⟩
      refine ⟨⟨hkeys.store_eq, hkeys.pending_eq, hkeys.lsn_eq, hkeys.lastRecordLsn_eq⟩,
        ⟨hstatus.status_eq, hstatus.migratedAt_eq, hstatus.lsn_eq⟩, fun rel ↦
          ?_, fun _ ↦ hdirty rfl, ?_⟩
      · rw [hdir, mem_filter, map_cons, mem_cons, not_or, and_assoc, decide_eq_true_eq]
      · intro hfalse
        cases (hdirty rfl).symm.trans hfalse
    · refine wp_onOk_mono ih ?_
      rintro ⟨dir', dirty'⟩ s' ⟨hkeys, hstatus, hdir, hdirty, hsame⟩
      refine ⟨hkeys, hstatus, fun rel ↦ ?_, hdirty, hsame⟩
      rw [hdir, map_cons, mem_cons, not_or]
      have hne : rel ∈ dir → rel ≠ relOf tag := by
        rintro h rfl
        exact hmem h
      exact ⟨fun h ↦ ⟨h.1, hne h.1, h.2⟩, fun h ↦ ⟨h.1, h.2.2⟩⟩

/-- The status of the migration and the databases are the same. -/
structure State.SameDbs (s s' : State) : Prop where
  sameStatus : s.SameStatus s'
  hasDb_iff : ∀ db, HasDb s'.view db ↔ HasDb s.view db

theorem State.SameDbs.trans {s s' s'' : State} (h : s.SameDbs s') (h' : s'.SameDbs s'') :
    s.SameDbs s'' where
  sameStatus := h.sameStatus.trans h'.sameStatus
  hasDb_iff db := (h'.hasDb_iff db).trans (h.hasDb_iff db)

/-- Besides, the directories have these relations now. -/
structure State.Shows (s s' : State) (v1 v2 : RelTag → Prop) : Prop extends s.SameDbs s' where
  inV1_iff : ∀ tag, InV1 s'.view tag ↔ v1 tag
  inV2_iff : ∀ tag, InV2 s'.view tag ↔ v2 tag

theorem State.Shows.refl (s : State) : s.Shows s (InV1 s.view) (InV2 s.view) :=
  ⟨⟨.refl s, fun _ ↦ .rfl⟩, fun _ ↦ .rfl, fun _ ↦ .rfl⟩

open State (Shows)

theorem wp_putRelDropV1_group : (do
      let dir : RelDirectory ← get .modified (.relDir db.1 db.2)
      let (dir, dirty) ← dropFromDirectory tags dir false
      when dirty (put (.relDir db.1 db.2) dir) : Ingest Unit).wp (handle redo)
    (onOk fun _ s' ↦ s.Shows s'
      (fun tag ↦ InV1 s.view tag ∧ ¬(dbOf tag = db ∧ relOf tag ∈ tags.map relOf)) (InV2 s.view))
        s := by
  refine wp_get_bind fun dir hdir ↦ ?_
  refine wp_bind_onOk (wp_onOk_mono wp_dropFromDirectory ?_)
  rintro ⟨dir', dirty⟩ s₁ ⟨hkeys, hstatus, hmem, -, hsame⟩
  have hview := hkeys.view_eq
  have hold : ∀ tag, dbOf tag = db → (InV1 s.view tag ↔ relOf tag ∈ dir) :=
    fun tag ↦ inV1_iff_of_view hdir
  cases dirty with
  | true =>
    change onOk _ (.ok ()) (s₁.put (.relDir db.1 db.2) dir')
    refine ⟨⟨by simpa using hstatus, by simp [hview]⟩, fun tag ↦ ?_, ?_⟩
    · rw [State.view_put, hview, inV1_update_relDir]
      split_ifs with hdb
      · simp [hold tag hdb, hdb, hmem]
      · simp [show dbOf tag ≠ db from hdb]
    · simp [hview]
  | false =>
    obtain rfl : dir' = dir := hsame rfl
    change onOk _ (.ok ()) s₁
    refine ⟨⟨hstatus, by simp [hview]⟩, fun tag ↦ ?_, by simp [hview]⟩
    rw [hview]
    refine ⟨fun h ↦ ⟨h, fun ⟨hdb, hrel⟩ ↦ ?_⟩, And.left⟩
    exact ((hmem (relOf tag)).mp ((hold tag hdb).mp h)).2 hrel

variable {dropRelations : List ((Oid × Oid) × List RelTag)}

theorem wp_putRelDropV1 : (putRelDropV1 dropRelations).wp (handle redo) (onOk fun _ s' ↦ s.Shows s'
      (fun tag ↦ InV1 s.view tag ∧ ¬Dropped dropRelations tag) (InV2 s.view)) s := by
  -- the groups that are left drop what is still missing
  let I (groups : List ((Oid × Oid) × List RelTag)) (s' : State) : Prop := s.SameDbs s' ∧
    (∀ tag, InV1 s'.view tag ∧ ¬Dropped groups tag ↔ InV1 s.view tag ∧ ¬Dropped dropRelations tag) ∧
    (∀ tag, InV2 s'.view tag ↔ InV2 s.view tag)
  refine Prog.wp_each_onOk (I := I) ?_ ?_ ⟨(Shows.refl s).1, fun _ ↦ .rfl, fun _ ↦ .rfl⟩
  · rintro ⟨db, tags⟩ groups s₁ ⟨hdbs, hv1, hv2⟩
    refine wp_onOk_mono wp_putRelDropV1_group ?_
    rintro - s₂ ⟨hdbs', hv1', hv2'⟩
    refine ⟨hdbs.trans hdbs', fun tag ↦ ?_, fun tag ↦ (hv2' tag).trans (hv2 tag)⟩
    rw [hv1' tag, ← hv1 tag, dropped_cons, not_or, and_assoc]
  · rintro s' ⟨hdbs, hv1, hv2⟩
    exact ⟨hdbs, by simpa using hv1, hv2⟩

theorem wp_putTombstone {key : RelTag} : (do
      let val : Option RelDirExists ← sparseGet .modified (.relTagSparse key)
      when (val = some .present) (put (.relTagSparse key) .removed) : Ingest Unit).wp (handle redo)
    (fun r s' ↦ r = .ok () ∧ s.Shows s' (InV1 s.view) (fun tag ↦ InV2 s.view tag ∧ tag ≠ key))
      s := by
  refine wp_sparseGet_bind.mpr (wp_when.mpr ?_)
  constructor
  · intro _
    rw [wp_put]
    refine ⟨rfl, ⟨by simp, by simp⟩, by simp, fun tag ↦ ?_⟩
    simp [and_comm]
  · intro hval
    refine ⟨rfl, { Shows.refl s with inV2_iff := fun tag ↦ ⟨fun h ↦ ⟨h, ?_⟩, And.left⟩ }⟩
    rintro rfl
    exact hval h

theorem wp_putRelDropV2 :
    (putRelDropV2 dropRelations).wp (handle redo) (fun r s' ↦ r = .ok () ∧ s.Shows s' (InV1 s.view)
      (fun tag ↦ InV2 s.view tag ∧ ¬Dropped dropRelations tag)) s := by
  let I (groups : List ((Oid × Oid) × List RelTag)) (s' : State) : Prop := s.SameDbs s' ∧
    (∀ tag, InV1 s'.view tag ↔ InV1 s.view tag) ∧
    (∀ tag, InV2 s'.view tag ∧ ¬Dropped groups tag ↔ InV2 s.view tag ∧ ¬Dropped dropRelations tag)
  refine wp_each (I := I) ?_ ?_ ⟨(Shows.refl s).1, fun _ ↦ .rfl, fun _ ↦ .rfl⟩
  · rintro ⟨db, tags⟩ groups s₁ ⟨hdbs, hv1, hv2⟩
    -- within a group, the same with the relations that are left of it
    let J (rest : List RelTag) (s' : State) : Prop := s.SameDbs s' ∧
      (∀ tag, InV1 s'.view tag ↔ InV1 s.view tag) ∧
      (∀ tag, InV2 s'.view tag ∧ ¬Dropped ((db, rest) :: groups) tag ↔
        InV2 s.view tag ∧ ¬Dropped dropRelations tag)
    refine wp_each (I := J) ?_ ?_ ⟨hdbs, hv1, hv2⟩
    · rintro t rest s₂ ⟨hdbs, hv1, hv2⟩
      refine wp_mono wp_putTombstone ?_
      rintro - s₃ ⟨rfl, hdbs', hv1', hv2'⟩
      refine ⟨hdbs.trans hdbs', fun tag ↦ (hv1' tag).trans (hv1 tag), fun tag ↦ ?_⟩
      rw [hv2' tag, ← hv2 tag, dropped_cons, dropped_cons, ne_eq, relTag_eq_iff]
      simp only [map_cons, mem_cons]
      tauto
    · rintro s' ⟨hdbs, hv1, hv2⟩
      refine ⟨hdbs, hv1, fun tag ↦ ?_⟩
      simpa [dropped_cons] using hv2 tag
  · rintro s' ⟨hdbs, hv1, hv2⟩
    exact ⟨rfl, hdbs, hv1, by simpa using hv2⟩

theorem wp_putRelDrops_migrating (hstatus : s.relSizeV2Status = .migrating) :
    (putRelDrops dropRelations).wp (handle redo) (onOk fun _ s' ↦ s.Shows s'
      (fun tag ↦ InV1 s.view tag ∧ ¬Dropped dropRelations tag)
      (fun tag ↦ InV2 s.view tag ∧ ¬Dropped dropRelations tag)) s := by
  refine wp_bind_onOk (wp_maybeEnableRelSizeV2 fun isDue _ ↦ ?_)
  rw [hstatus]
  refine wp_bind_onOk (wp_onOk_mono wp_putRelDropV1 ?_)
  rintro - s₁ ⟨hdbs, hv1, hv2⟩
  refine wp_bind_onOk ?_
  rw [wp_attempt]
  refine wp_mono wp_putRelDropV2 ?_
  rintro - s₂ ⟨-, hdbs', hv1', hv2'⟩
  exact ⟨hdbs.trans hdbs', fun tag ↦ (hv1' tag).trans (hv1 tag),
    fun tag ↦ (hv2' tag).trans (and_congr_left' (hv2 tag))⟩

theorem wp_putRelDrops_legacy (hstatus : s.relSizeV2Status = .legacy) :
    (putRelDrops dropRelations).wp (handle redo) (onOk fun _ s' ↦ s.SameStatus s') s := by
  refine wp_bind_onOk (wp_maybeEnableRelSizeV2 fun isDue _ ↦ ?_)
  rw [hstatus]
  exact wp_onOk_mono wp_putRelDropV1 fun _ s' h ↦ h.sameStatus

/-! ### Creating a relation -/

theorem wp_copyRelDirectory : (copyRelDirectory db).wp (handle redo) (fun r s' ↦ s.SameDbs s' ∧
      (∀ tag, InV1 s'.view tag ↔ InV1 s.view tag) ∧
      (r = .ok () → ∀ tag, InV2 s'.view tag ↔ InV2 s.view tag ∨ dbOf tag = db ∧ InV1 s.view tag))
        s := by
  unfold copyRelDirectory
  rw [wp_bind, wp_get]
  split
  · rename_i dir hdir
    let I (rest : List (Oid × UInt8)) (s' : State) : Prop := s.SameDbs s' ∧
      (∀ tag, InV1 s'.view tag ↔ InV1 s.view tag) ∧
      (∀ tag, InV2 s'.view tag ∨ dbOf tag = db ∧ relOf tag ∈ rest ↔
        InV2 s.view tag ∨ dbOf tag = db ∧ relOf tag ∈ dir)
    refine wp_each (I := I) ?_ ?_ ⟨(Shows.refl s).1, fun _ ↦ .rfl, fun _ ↦ .rfl⟩
    · rintro rel rest s₁ ⟨hdbs, hv1, hv2⟩
      rw [wp_put]
      refine ⟨⟨by simpa using hdbs.sameStatus, ?_⟩, ?_, fun tag ↦ ?_⟩
      · simpa [-Prod.forall] using hdbs.hasDb_iff
      · simpa using hv1
      · rw [← hv2 tag, State.view_put, inV2_update_sparse, mem_cons]
        split_ifs with h
        · have h := relTag_eq_iff.mp h
          simp [h]
        · rw [relTag_eq_iff] at h
          tauto
    · rintro s' ⟨hdbs, hv1, hv2⟩
      refine ⟨hdbs, hv1, fun _ tag ↦ ?_⟩
      have := hv2 tag
      simp only [not_mem_nil, and_false, or_false] at this
      rw [this]
      exact or_congr_right (and_congr_right fun h ↦ (inV1_iff_of_view hdir h).symm)
  · exact ⟨(Shows.refl s).1, fun _ ↦ .rfl, nofun⟩

/-- All directories were copied, and the status is changed. -/
structure State.Initialized (s s' : State) (dbdir : DbDirectory) : Prop where
  status_eq : s'.relSizeV2Status = .migrating
  migratedAt_eq : s'.relSizeMigratedAt = some s.lsn
  lsn_eq : s'.lsn = s.lsn
  hasDb_iff : ∀ db, HasDb s'.view db ↔ HasDb s.view db
  inV1_iff : ∀ tag, InV1 s'.view tag ↔ InV1 s.view tag
  inV2_iff : ∀ tag, InV2 s'.view tag ↔ InV2 s.view tag ∨ dbOf tag ∈ dbdir.keys ∧ InV1 s.view tag

variable {dbdir : DbDirectory}

/-- The run fails before it changes the status, or with the upload, or not at all. -/
theorem wp_initializeRelSizeV2Keyspace :
    (initializeRelSizeV2Keyspace dbdir).wp (handle redo) (fun r s' ↦
      ((∃ e, r = .error e) ∧ s.SameStatus s') ∨
      ((∃ e, r = .error e) ∧ (s.migrationRuns.headD {}).uploadFails = true ∧
        s.Initialized s' dbdir) ∨
      (r = .ok () ∧ (s.migrationRuns.headD {}).uploadFails = false ∧ s.Initialized s' dbdir))
        s := by
  refine wp_migrationRun_bind.mpr ((wp_bind _ _).mpr ?_)
  let I (rest : List (Oid × Oid)) (s' : State) : Prop := s.SameDbs s' ∧
    (∀ tag, InV1 s'.view tag ↔ InV1 s.view tag) ∧
    (∀ tag, InV2 s'.view tag ∨ dbOf tag ∈ rest ∧ InV1 s.view tag ↔
      InV2 s.view tag ∨ dbOf tag ∈ dbdir.keys ∧ InV1 s.view tag)
  refine wp_each (I := I) ?_ ?_ ⟨⟨⟨rfl, rfl, rfl⟩, fun _ ↦ .rfl⟩, fun _ ↦ .rfl, ?_⟩
  · rintro db rest s₁ ⟨hdbs, hv1, hv2⟩
    split_ifs with hfail
    · exact inl ⟨⟨_, rfl⟩, hdbs.sameStatus⟩
    · refine wp_mono wp_copyRelDirectory ?_
      rintro (e | u) s₂ ⟨hdbs', hv1', hv2'⟩
      · exact inl ⟨⟨_, rfl⟩, (hdbs.trans hdbs').sameStatus⟩
      · refine ⟨hdbs.trans hdbs', fun tag ↦ (hv1' tag).trans (hv1 tag), fun tag ↦ ?_⟩
        rw [hv2' rfl tag, ← hv2 tag, hv1 tag, mem_cons]
        tauto
  · rintro s₁ ⟨hdbs, hv1, hv2⟩
    have hdone : s.Initialized
        { s₁ with relSizeV2Status := .migrating, relSizeMigratedAt := some s₁.lsn } dbdir := by
      refine ⟨rfl, congrArg some hdbs.sameStatus.lsn_eq, hdbs.sameStatus.lsn_eq,
        hdbs.hasDb_iff, hv1, fun tag ↦ ?_⟩
      have := hv2 tag
      simp only [not_mem_nil, false_and, or_false] at this
      exact this
    refine wp_updateRelSizeV2Status_bind.mpr (wp_when.mpr ⟨fun hupload ↦ ?_, fun hupload ↦ ?_⟩)
    · exact inr (inl ⟨⟨_, rfl⟩, hupload, hdone⟩)
    · exact inr (inr ⟨rfl, by simpa using hupload, hdone⟩)
  · intro tag
    rw [MigrationRun.mem_visit]
    rfl

variable {dbdirExists : Bool}

theorem wp_putRelCreationV1 :
    (putRelCreationV1 rel dbdirExists).wp (handle redo) (onOk fun _ s' ↦ s.Shows s'
      (fun tag ↦ tag = rel ∨ InV1 s.view tag ∧ (dbOf tag = dbOf rel → dbdirExists = true))
      (InV2 s.view)) s := by
  cases dbdirExists with
  | true =>
    refine wp_get_bind fun dir hdir ↦ wp_when.mpr ?_
    have hold : ∀ tag, dbOf tag = dbOf rel → (InV1 s.view tag ↔ relOf tag ∈ dir) :=
      fun tag ↦ inV1_iff_of_view hdir
    refine ⟨fun _ ↦ ?_, fun hmem ↦ { Shows.refl s with inV1_iff := fun tag ↦ ?_ }⟩
    · rw [wp_put]
      refine ⟨⟨by simp, by simp⟩, fun tag ↦ ?_, by simp⟩
      rw [State.view_put, inV1_update_relDir, tag_eq_iff]
      split_ifs with h
      · simp [h, hold tag h, or_comm]
      · simp [h]
    · have hrel : InV1 s.view rel := (hold rel rfl).mpr (not_not.mp hmem)
      simp only [imp_true_iff, and_true]
      exact ⟨inr, fun h ↦ h.elim (fun h ↦ h ▸ hrel) id⟩
  | false =>
    change onOk _ (.ok ()) (s.put (.relDir rel.spcnode rel.dbnode) [relOf rel])
    refine ⟨⟨by simp, by simp⟩, fun tag ↦ ?_, by simp⟩
    rw [State.view_put, inV1_update_relDir, tag_eq_iff]
    split_ifs with h <;> simp [h]

theorem wp_putRelCreationV2 : (putRelCreationV2 rel).wp (handle redo) (fun r s' ↦ r = .ok () ∧
      s.Shows s' (InV1 s.view) (fun tag ↦ tag = rel ∨ InV2 s.view tag)) s := by
  refine wp_sparseGet_bind.mpr (wp_when.mpr ⟨fun _ ↦ ?_, fun hval ↦ ?_⟩)
  · rw [wp_put]
    refine ⟨rfl, ⟨by simp, by simp⟩, by simp, fun tag ↦ ?_⟩
    rw [State.view_put, inV2_update_sparse]
    split_ifs with h <;> simp [h]
  · refine ⟨rfl, { Shows.refl s with inV2_iff := fun tag ↦ ⟨inr, fun h ↦ h.elim ?_ id⟩ }⟩
    rintro rfl
    exact not_not.mp hval

/-- What creating a relation does to the databases and to the v1 directory. -/
structure State.Created (s s' : State) (rel : RelTag) : Prop where
  hasDb_iff : ∀ db, HasDb s'.view db ↔ db = dbOf rel ∨ HasDb s.view db
  inV1_iff : ∀ tag, InV1 s'.view tag ↔
    tag = rel ∨ InV1 s.view tag ∧ (dbOf tag = dbOf rel → HasDb s.view (dbOf rel))

/-- How a creation goes on a timeline that is not migrated: the status stays, or the v2 keyspace is
initialized first. If only the upload of the status fails, then the relation is not entered into
v2. -/
def State.CreationOutcome (s s' : State) (rel : RelTag) : Prop :=
  (s.SameStatus s' ∧ (s.relSizeV2Status = .migrating →
    s.Created s' rel ∧ ∀ tag, InV2 s'.view tag ↔ tag = rel ∨ InV2 s.view tag)) ∨
  (s.relSizeV2Status = .legacy ∧ s'.relSizeV2Status = .migrating ∧
    s'.relSizeMigratedAt = some s.lsn ∧
    s.Created s' rel ∧ ∀ tag, InV2 s'.view tag ↔
      (tag = rel ∧ (s.migrationRuns.headD {}).uploadFails = false) ∨ InV2 s.view tag ∨
        (dbOf tag = dbOf rel ∨ HasDb s.view (dbOf tag)) ∧ InV1 s.view tag)

/-- The second half of `enterRelation`: the entry in the v2 keyspace. -/
def enterRelationV2 (rel : RelTag) (currentStatus : RelSizeMigration) : Ingest Unit :=
  when (currentStatus ≠ .legacy) do
    match ← (putRelCreationV2 rel).attempt with
    | .ok () => pure ()
    | .error e => when (currentStatus = .migrated) (throw e)

variable {currentStatus : RelSizeMigration}

theorem wp_enterRelationV2 {Q : Unit → State → Prop} (hQ : ∀ s', s.Shows s' (InV1 s.view)
      (fun tag ↦ (tag = rel ∧ currentStatus ≠ .legacy) ∨ InV2 s.view tag) → Q () s') :
    (enterRelationV2 rel currentStatus).wp (handle redo) (onOk Q) s := by
  refine wp_when.mpr ⟨fun hne ↦ wp_bind_onOk ?_, fun hlegacy ↦ ?_⟩
  · rw [wp_attempt]
    refine wp_mono wp_putRelCreationV2 ?_
    rintro - s' ⟨rfl, h⟩
    exact hQ s' { h with inV2_iff := fun tag ↦ by rw [h.inV2_iff tag, and_iff_left hne] }
  · exact hQ s { Shows.refl s with inV2_iff := fun tag ↦ by simp [not_not.mp hlegacy] }

theorem wp_enterRelation :
    (enterRelation rel dbdirExists currentStatus).wp (handle redo) (onOk fun _ s' ↦ s.SameDbs s' ∧
      (currentStatus ≠ .migrated → ∀ tag, InV1 s'.view tag ↔
        tag = rel ∨ InV1 s.view tag ∧ (dbOf tag = dbOf rel → dbdirExists = true)) ∧
      (∀ tag, InV2 s'.view tag ↔ (tag = rel ∧ currentStatus ≠ .legacy) ∨ InV2 s.view tag)) s := by
  refine wp_bind_onOk (wp_when.mpr ⟨fun _ ↦ wp_onOk_mono wp_putRelCreationV1 ?_, ?_⟩)
  · rintro - s₁ ⟨hdbs, h1, h2⟩
    refine wp_enterRelationV2 fun s₂ h ↦ ⟨hdbs.trans h.1, fun _ tag ↦ ?_, fun tag ↦ ?_⟩
    · rw [h.inV1_iff tag, h1 tag]
    · rw [h.inV2_iff tag, h2 tag]
  · intro hmigrated
    exact wp_enterRelationV2 fun s₂ h ↦ ⟨h.1, fun hne ↦ absurd hne hmigrated, h.inV2_iff⟩

theorem wp_tryInitializeRelSizeV2 :
    (tryInitializeRelSizeV2 dbdir).wp (handle redo) (onOk fun currentStatus s' ↦
      (currentStatus = s.relSizeV2Status ∧ s.SameStatus s' ∧
        (s.relSizeV2Status ≠ .legacy → s' = s)) ∨
      (s.relSizeV2Status = .legacy ∧ s.Initialized s' dbdir ∧ currentStatus ≠ .migrated ∧
        (currentStatus ≠ .legacy ↔ (s.migrationRuns.headD {}).uploadFails = false))) s := by
  refine wp_bind_onOk (wp_maybeEnableRelSizeV2 fun isDue hdue ↦ ?_)
  cases isDue with
  | false => exact inl ⟨rfl, .refl s, fun _ ↦ rfl⟩
  | true =>
    obtain ⟨hlegacy, -⟩ := hdue rfl
    refine wp_bind_onOk ?_
    rw [wp_attempt]
    refine wp_mono wp_initializeRelSizeV2Keyspace ?_
    rintro r s' (⟨⟨e, rfl⟩, hstatus⟩ | ⟨⟨e, rfl⟩, hupload, hdone⟩ | ⟨rfl, hupload, hdone⟩)
    · exact inl ⟨rfl, hstatus, absurd hlegacy⟩
    · refine inr ⟨hlegacy, hdone, ?_, ?_⟩
      · rw [hlegacy]
        exact nofun
      · rw [hlegacy, hupload]
        simp
    · exact inr ⟨hlegacy, hdone, nofun, iff_of_true nofun hupload⟩

theorem mem_keys_enter {db db' : Oid × Oid} :
    db' ∈ (if decide (db ∈ dbdir.keys) then dbdir else dbdir.insert db false).keys ↔
      db' = db ∨ db' ∈ dbdir.keys := by
  by_cases hold : db ∈ dbdir.keys
  · simp only [hold, decide_true, if_true]
    exact ⟨inr, fun h ↦ h.elim (fun h ↦ h ▸ hold) id⟩
  · simp [hold]

theorem wp_enterDb (hdbdir : s.view .dbdir = some dbdir) : (when (decide (db ∈ dbdir.keys) = false)
      (put .dbdir (if decide (db ∈ dbdir.keys) then dbdir else dbdir.insert db false))).wp
        (handle redo) (onOk fun _ s' ↦ s.SameStatus s' ∧ s'.migrationRuns = s.migrationRuns ∧
      (∀ db', HasDb s'.view db' ↔ db' = db ∨ HasDb s.view db') ∧
      (∀ tag, InV1 s'.view tag ↔ InV1 s.view tag) ∧ (∀ tag, InV2 s'.view tag ↔ InV2 s.view tag))
        s := by
  have hdb : ∀ db, HasDb s.view db ↔ db ∈ dbdir.keys := fun db ↦ hasDb_iff_of_view hdbdir
  refine wp_when.mpr ⟨fun hnew ↦ ?_, fun hold ↦ ?_⟩
  · rw [wp_put, hnew]
    refine ⟨by simp, rfl, fun db' ↦ ?_, by simp, by simp⟩
    simp [hdb]
  · have hold : db ∈ dbdir.keys := by simpa using hold
    refine ⟨.refl s, rfl, fun db' ↦ ?_, fun _ ↦ .rfl, fun _ ↦ .rfl⟩
    rw [hdb]
    exact ⟨inr, fun h ↦ h.elim (fun h ↦ h ▸ hold) id⟩

theorem wp_putRelCreation :
    (putRelCreation rel nblocks).wp (handle redo) (onOk fun _ s' ↦ s.CreationOutcome s' rel) s := by
  unfold putRelCreation
  split_ifs with hzero
  · trivial
  refine wp_bind_onOk ?_
  rw [wp_attempt]
  refine wp_getRelExists fun found ↦ ?_
  refine wp_get_bind fun dbdir hdbdir ↦ ?_
  have hdb : ∀ db, HasDb s.view db ↔ db ∈ dbdir.keys := fun db ↦ hasDb_iff_of_view hdbdir
  refine wp_bind_onOk (wp_onOk_mono (wp_enterDb hdbdir) ?_)
  rintro - s₁ ⟨hstatus, hruns, hdbs, hv1, hv2⟩
  refine wp_bind_onOk (wp_onOk_mono wp_tryInitializeRelSizeV2 fun currentStatus s₂ htry ↦ ?_)
  refine wp_bind_onOk (wp_onOk_mono wp_enterRelation ?_)
  rintro - s₃ ⟨hdbs', h1, h2⟩
  -- the size and the cache are no matter of the directories
  have hsize : ∀ s₄, s₃.Shows s₄ (InV1 s₃.view) (InV2 s₃.view) → s.CreationOutcome s₄ rel := by
    rintro s₄ ⟨hdbs'', hv1'', hv2''⟩
    have hdbs₄ := hdbs'.trans hdbs''
    have hfound : ∀ tag : RelTag,
        (dbOf tag = dbOf rel → decide ((rel.spcnode, rel.dbnode) ∈ dbdir.keys) = true) ↔
          (dbOf tag = dbOf rel → HasDb s.view (dbOf rel)) := fun tag ↦ by
      rw [decide_eq_true_iff, hdb]
    rcases htry with ⟨hcur, hstatus', hsame⟩ | ⟨hlegacy, hdone, hne, hupload⟩
    · refine inl ⟨(hstatus.trans hstatus').trans hdbs₄.sameStatus, fun hmigrating ↦ ?_⟩
      rw [← hstatus.status_eq] at hmigrating
      obtain rfl := hsame (by rw [hmigrating]; decide)
      rw [hmigrating] at hcur
      subst hcur
      refine ⟨⟨fun db ↦ (hdbs₄.hasDb_iff db).trans (hdbs db), fun tag ↦ ?_⟩, fun tag ↦ ?_⟩
      · rw [hv1'' tag, h1 (by decide) tag, hv1 tag, hfound tag]
      · rw [hv2'' tag, h2 tag, hv2 tag, and_iff_left (by decide)]
    · rw [hstatus.status_eq] at hlegacy
      rw [hruns] at hupload
      refine inr ⟨hlegacy, hdbs₄.sameStatus.status_eq.trans hdone.status_eq,
        hdbs₄.sameStatus.migratedAt_eq.trans
          (hdone.migratedAt_eq.trans (congrArg some hstatus.lsn_eq)),
        ⟨fun db ↦ ?_, fun tag ↦ ?_⟩, fun tag ↦ ?_⟩
      · rw [hdbs₄.hasDb_iff db, hdone.hasDb_iff db, hdbs db]
      · rw [hv1'' tag, h1 hne tag, hdone.inV1_iff tag, hv1 tag, hfound tag]
      · rw [hv2'' tag, h2 tag, hdone.inV2_iff tag, hv2 tag, hv1 tag, mem_keys_enter, hdb, hupload]
  refine wp_when.mpr ⟨fun _ ↦ ?_, fun _ ↦ hsize s₃ (.refl s₃)⟩
  refine wp_put_bind.mpr (wp_addNblocks_bind.mpr
    (wp_setCachedRelSize.mpr (hsize _ ⟨⟨⟨rfl, rfl, rfl⟩, ?_⟩, ?_, ?_⟩)))
  all_goals simp

/-! ### Sizes -/

structure State.SameDirs (s s' : State) : Prop where
  sameStatus : s.SameStatus s'
  hasDb_iff : ∀ db, HasDb s'.view db ↔ HasDb s.view db
  inV1_iff : ∀ tag, InV1 s'.view tag ↔ InV1 s.view tag
  inV2_iff : ∀ tag, InV2 s'.view tag ↔ InV2 s.view tag

theorem State.SameDirs.refl (s : State) : s.SameDirs s :=
  ⟨.refl s, fun _ ↦ .rfl, fun _ ↦ .rfl, fun _ ↦ .rfl⟩

theorem wp_putRelExtend :
    (putRelExtend rel nblocks).wp (handle redo) (onOk fun _ s' ↦ s.SameDirs s') s := by
  unfold putRelExtend
  split_ifs
  · trivial
  refine wp_get_bind fun oldSize _ ↦ wp_when.mpr ⟨fun _ ↦ ?_, fun _ ↦ .refl s⟩
  refine wp_put_bind.mpr (wp_setCachedRelSize_bind.mpr
    (wp_addNblocks.mpr ⟨⟨rfl, rfl, rfl⟩, ?_, ?_, ?_⟩))
  all_goals simp

theorem wp_putRelTruncation :
    (putRelTruncation rel nblocks).wp (handle redo) (onOk fun _ s' ↦ s.SameDirs s') s := by
  unfold putRelTruncation
  split_ifs
  · trivial
  refine wp_bind_onOk (wp_getRelExists ?_)
  rintro (e | found)
  · trivial
  rw [Prog.onOk_ok]
  refine wp_when.mpr ⟨fun _ ↦ ?_, fun _ ↦ .refl s⟩
  refine wp_get_bind fun oldSize _ ↦ wp_put_bind.mpr (wp_setCachedRelSize_bind.mpr ?_)
  refine wp_addNblocks.mpr ⟨⟨rfl, rfl, rfl⟩, ?_, ?_, ?_⟩
  all_goals simp

end Effects

/-! ## Runs -/

namespace Directories

/-- A step of a timeline: a write, the end of a record, the end of a modification or a change of the
configuration. -/
inductive Step where
  | write (w : Write)
  | setLsn (lsn : ℕ)
  /-- The next modification may be one that imports a data directory. -/
  | commit (isImportingPgdata : Bool)
  | setRelSizeV2Enabled (enabled : Bool)

variable (redo : List PageValue → Option Bytes)

/-- The writes succeed, or there is no successor. -/
def step (s : State) : Step → Option State
  | .write w => s.write redo w
  | .setLsn lsn => if s.lsn ≤ lsn then some (s.setLsn lsn) else none
  | .commit isImportingPgdata => some { s.commit with isImportingPgdata }
  | .setRelSizeV2Enabled enabled => some { s with relSizeV2Enabled := enabled }

/-- From the recorded LSN of the migration on, the two directories have the same relations. -/
def Agrees (s : State) : Prop :=
  ∀ m, s.relSizeMigratedAt = some m → ∀ l, m ≤ l →
    Agree fun key ↦ Versions.asOf (s.commit.store key) l

/-- A relation is created in a database that is not there: v1 begins with nothing but this relation,
so v2 must not have others of this database. -/
def CleanCreation (s : State) (rel : RelTag) : Prop :=
  ¬HasDb s.view (dbOf rel) → ∀ tag, tag ≠ rel → dbOf tag = dbOf rel → ¬InV2 s.view tag

/-- A migration adds what is in v1 to v2, where nothing else may be; and the status that it has
changed must not be one that the creation of the relation does not know. -/
structure CleanMigration (s : State) (rel : RelTag) : Prop where
  inV1_of_inV2 : ∀ tag, tag ≠ rel → HasDb s.view (dbOf tag) → InV2 s.view tag → InV1 s.view tag
  new_db : ¬HasDb s.view (dbOf rel) → ∀ tag, tag ≠ rel → dbOf tag = dbOf rel →
    ¬InV2 s.view tag ∧ ¬InV1 s.view tag
  upload : (s.migrationRuns.headD {}).uploadFails = true → InV2 s.view rel ∨ InV1 s.view rel

def Clean (s : State) : Step → State → Prop
  | .write (.putRelCreation rel _), s' =>
    (s.relSizeV2Status = .migrating → CleanCreation s rel) ∧
    (s.relSizeV2Status = .legacy → s'.relSizeV2Status = .migrating → CleanMigration s rel)
  | .write (.putRelmapFile spcnode dbnode _), _ =>
    s.relSizeV2Status = .migrating → ¬HasDb s.view (spcnode, dbnode) →
      ∀ tag, dbOf tag = (spcnode, dbnode) → ¬InV2 s.view tag
  | _, _ => True

structure Inv (s : State) : Prop where
  wellFormed : s.WellFormed
  legacy_or_migrating : (s.relSizeV2Status = .legacy ∧ s.relSizeMigratedAt = none) ∨
    (s.relSizeV2Status = .migrating ∧ ∃ m, s.relSizeMigratedAt = some m ∧ m ≤ s.lsn)

variable {redo} {s s' : State}

/-- How a write may change the status. -/
def Advances (s s' : State) : Prop :=
  (s'.relSizeV2Status = s.relSizeV2Status ∧ s'.relSizeMigratedAt = s.relSizeMigratedAt) ∨
  (s.relSizeV2Status = .legacy ∧ s'.relSizeV2Status = .migrating ∧
    s'.relSizeMigratedAt = some s.lsn)

theorem Inv.advance (hs : Inv s) (hhistory : s.SameHistory s') (h : Advances s s') : Inv s' where
  wellFormed := hhistory.wellFormed
  legacy_or_migrating := by
    rcases h with ⟨hstatus, hat⟩ | ⟨-, hstatus, hat⟩
    · rw [hstatus, hat, hhistory.lsn_eq]
      exact hs.legacy_or_migrating
    · exact inr ⟨hstatus, s.lsn, hat, hhistory.lsn_eq.ge⟩

/-- A write changes nothing below the LSN of the modification, so what it shows is all that
matters. -/
theorem agrees_iff_agree_view (hs : Inv s) (hagrees : Agrees s) (hhistory : s.SameHistory s')
    (h : Advances s s') : Agrees s' ↔ (s'.relSizeV2Status = .migrating → Agree s'.view) := by
  have hview : ∀ l, s.lsn ≤ l → (fun key ↦ Versions.asOf (s'.commit.store key) l) = s'.view := by
    intro l hl
    funext key
    exact hhistory.wellFormed.asOf_versions key (by rwa [hhistory.lsn_eq])
  have hs' := hs.advance hhistory h
  constructor
  · intro hagrees' hmigrating
    obtain ⟨hlegacy, -⟩ | ⟨-, m, hm, hle⟩ := hs'.legacy_or_migrating
    · cases hmigrating.symm.trans hlegacy
    · rw [← hview s.lsn le_rfl]
      exact hagrees' m hm s.lsn (by rwa [← hhistory.lsn_eq])
  · intro hagree m hm l hl
    have hmigrating : s'.relSizeV2Status = .migrating := by
      obtain ⟨-, hnone⟩ | ⟨hmigrating, -⟩ := hs'.legacy_or_migrating
      · cases hm.symm.trans hnone
      · exact hmigrating
    rcases Nat.lt_or_ge l s.lsn with hlt | hge
    · have hsame : (fun key ↦ Versions.asOf (s'.commit.store key) l) =
          fun key ↦ Versions.asOf (s.commit.store key) l := funext fun key ↦
            hhistory.asOf_eq key l hlt
      rw [hsame]
      rcases h with ⟨-, hat⟩ | ⟨-, -, hat⟩
      · exact hagrees m (hat ▸ hm) l hl
      · -- the migration is recorded at the LSN of the modification
        cases hat.symm.trans hm
        omega
    · rw [hview l hge]
      exact hagree hmigrating

/-! ### What a write shows -/

theorem Inv.agree_view (hs : Inv s) (hagrees : Agrees s)
    (hmigrating : s.relSizeV2Status = .migrating) : Agree s.view :=
  (agrees_iff_agree_view hs hagrees hs.wellFormed.sameHistory (inl ⟨rfl, rfl⟩)).mp
    hagrees hmigrating

theorem agree_created_iff (hagree : Agree s.view) (hcreated : s.Created s' rel)
    (hv2 : ∀ tag, InV2 s'.view tag ↔ tag = rel ∨ InV2 s.view tag) :
    Agree s'.view ↔ CleanCreation s rel := by
  constructor
  · intro h hnew tag hne hdb hin
    have hin' := (h tag ((hcreated.hasDb_iff _).mpr (inl hdb))).mp ((hv2 tag).mpr (inr hin))
    rcases (hcreated.inV1_iff tag).mp hin' with heq | ⟨-, hold⟩
    · exact hne heq
    · exact hnew (hold hdb)
  · intro h tag hdb
    rw [hv2, hcreated.inV1_iff]
    by_cases heq : tag = rel
    · simp [heq]
    simp only [heq, false_or]
    by_cases hold : HasDb s.view (dbOf tag)
    · rw [hagree tag hold, iff_self_and]
      intro _ hrel
      rwa [← hrel]
    · have hrel : dbOf tag = dbOf rel := ((hcreated.hasDb_iff _).mp hdb).resolve_right hold
      rw [hrel] at hold
      exact iff_of_false (h hold tag heq hrel) fun hin ↦ hold (hin.2 hrel)

theorem agree_migrated_iff (hcreated : s.Created s' rel) (hv2 : ∀ tag, InV2 s'.view tag ↔
      (tag = rel ∧ (s.migrationRuns.headD {}).uploadFails = false) ∨ InV2 s.view tag ∨
        (dbOf tag = dbOf rel ∨ HasDb s.view (dbOf tag)) ∧ InV1 s.view tag) :
    Agree s'.view ↔ CleanMigration s rel := by
  -- the two sides at one relation of a database that is there afterwards
  have hrel : (InV2 s'.view rel ↔ InV1 s'.view rel) ↔
      ((s.migrationRuns.headD {}).uploadFails = true → InV2 s.view rel ∨ InV1 s.view rel) := by
    rw [hv2, hcreated.inV1_iff]
    cases (s.migrationRuns.headD {}).uploadFails <;> simp
  have hold : ∀ tag, tag ≠ rel → HasDb s.view (dbOf tag) →
      ((InV2 s'.view tag ↔ InV1 s'.view tag) ↔ (InV2 s.view tag → InV1 s.view tag)) := by
    intro tag hne hdb
    have hdb' : dbOf tag = dbOf rel → HasDb s.view (dbOf rel) := fun h ↦ h ▸ hdb
    rw [hv2, hcreated.inV1_iff]
    simp only [hne, false_and, false_or, hdb, or_true, true_and]
    rw [and_iff_left hdb', or_iff_right_iff_imp]
  have hnew : ∀ tag, tag ≠ rel → dbOf tag = dbOf rel → ¬HasDb s.view (dbOf rel) →
      ((InV2 s'.view tag ↔ InV1 s'.view tag) ↔ ¬InV2 s.view tag ∧ ¬InV1 s.view tag) := by
    intro tag hne hdb hnot
    rw [hv2, hcreated.inV1_iff]
    simp only [hne, hdb, hnot, false_and, false_or, true_or, true_and, true_imp_iff, and_false]
    rw [iff_false, not_or]
  constructor
  · intro h
    refine ⟨fun tag hne hdb ↦ ?_, fun hnot tag hne hdb ↦ ?_, ?_⟩
    · exact (hold tag hne hdb).mp (h tag ((hcreated.hasDb_iff _).mpr (inr hdb)))
    · exact (hnew tag hne hdb hnot).mp (h tag ((hcreated.hasDb_iff _).mpr (inl hdb)))
    · exact hrel.mp (h rel ((hcreated.hasDb_iff _).mpr (inl rfl)))
  · intro h tag hdb
    by_cases heq : tag = rel
    · rw [heq]
      exact hrel.mpr h.upload
    by_cases hhas : HasDb s.view (dbOf tag)
    · exact (hold tag heq hhas).mpr (h.inV1_of_inV2 tag heq hhas)
    · have hdb' : dbOf tag = dbOf rel := ((hcreated.hasDb_iff _).mp hdb).resolve_right hhas
      rw [hdb'] at hhas
      exact (hnew tag heq hdb' hhas).mpr (h.new_db hhas tag heq hdb')

theorem agree_of_sameDirs (hagree : Agree s.view) (hdbs : ∀ db, HasDb s'.view db → HasDb s.view db)
    (h1 : ∀ tag, InV1 s'.view tag ↔ InV1 s.view tag)
      (h2 : ∀ tag, InV2 s'.view tag ↔ InV2 s.view tag) : Agree s'.view := by
  intro tag hdb
  rw [h1, h2]
  exact hagree tag (hdbs _ hdb)

theorem agree_relmap_iff (hagree : Agree s.view)
    (hdbs : ∀ db', HasDb s'.view db' ↔ db' = db ∨ HasDb s.view db')
    (h1 : ∀ tag, InV1 s'.view tag ↔ InV1 s.view tag ∧ (dbOf tag = db → HasDb s.view db))
    (h2 : ∀ tag, InV2 s'.view tag ↔ InV2 s.view tag) :
    Agree s'.view ↔ (¬HasDb s.view db → ∀ tag, dbOf tag = db → ¬InV2 s.view tag) := by
  constructor
  · intro h hnew tag hdb hin
    have hin' := (h tag ((hdbs _).mpr (inl hdb))).mp ((h2 tag).mpr hin)
    exact hnew (((h1 tag).mp hin').2 hdb)
  · intro h tag hdb
    rw [h1, h2]
    by_cases hold : HasDb s.view (dbOf tag)
    · rw [hagree tag hold, iff_self_and]
      rintro _ rfl
      exact hold
    · have heq : dbOf tag = db := ((hdbs _).mp hdb).resolve_right hold
      rw [heq] at hold
      exact iff_of_false (h hold tag heq) fun hin ↦ hold (hin.2 heq)

/-- What a write does to the status, and when the directories agree after it. -/
theorem write_spec {w : Write} (hs : Inv s) (hagrees : Agrees s) (h : s.write redo w = some s') :
    Advances s s' ∧
      ((s'.relSizeV2Status = .migrating → Agree s'.view) ↔ Clean s (.write w) s') := by
  have hexec := State.write_eq_some h
  have same : s.SameStatus s' → Advances s s' := fun h ↦ inl ⟨h.status_eq, h.migratedAt_eq⟩
  -- a write that does not migrate, by what it does while the timeline is migrating
  have migrating : ∀ {C : Prop}, s.SameStatus s' →
      (s.relSizeV2Status = .migrating → Agree s.view → (Agree s'.view ↔ C)) →
      ((s'.relSizeV2Status = .migrating → Agree s'.view) ↔
        (s.relSizeV2Status = .migrating → C)) := by
    intro C hstatus hiff
    rw [hstatus.status_eq]
    exact forall_congr' fun hm ↦ hiff hm (hs.agree_view hagrees hm)
  have keeps : s.SameStatus s' → (s.relSizeV2Status = .migrating → Agree s.view → Agree s'.view) →
      ((s'.relSizeV2Status = .migrating → Agree s'.view) ↔ True) := by
    intro hstatus hkeeps
    rw [migrating hstatus fun hm ha ↦ iff_true_intro (hkeeps hm ha)]
    simp
  cases w with
  | putRelCreation rel nblocks =>
    rcases wp_ok wp_putRelCreation hexec with ⟨hstatus, hcreated⟩ |
      ⟨hlegacy, hm, hat, hcreated, hv2⟩
    · refine ⟨same hstatus, ?_⟩
      have hnot : ¬(s.relSizeV2Status = .legacy ∧ s'.relSizeV2Status = .migrating) := by
        rw [hstatus.status_eq]
        rintro ⟨hl, hm⟩
        cases hl.symm.trans hm
      rw [migrating hstatus fun hm ha ↦
        agree_created_iff ha (hcreated hm).1 (hcreated hm).2]
      exact (and_iff_left fun hl hm ↦ absurd ⟨hl, hm⟩ hnot).symm
    · refine ⟨inr ⟨hlegacy, hm, hat⟩, ?_⟩
      rw [agree_migrated_iff hcreated hv2, Clean, hlegacy]
      simp
  | putRelExtend rel nblocks =>
    have hsame := wp_ok wp_putRelExtend hexec
    exact ⟨same hsame.sameStatus, keeps hsame.sameStatus fun _ ha ↦
      agree_of_sameDirs ha (fun db ↦ (hsame.hasDb_iff db).mp) hsame.inV1_iff hsame.inV2_iff⟩
  | putRelTruncation rel nblocks =>
    have hsame := wp_ok wp_putRelTruncation hexec
    exact ⟨same hsame.sameStatus, keeps hsame.sameStatus fun _ ha ↦
      agree_of_sameDirs ha (fun db ↦ (hsame.hasDb_iff db).mp) hsame.inV1_iff hsame.inV2_iff⟩
  | putRelDrops drops =>
    rcases hs.legacy_or_migrating with ⟨hlegacy, -⟩ | ⟨hm, -⟩
    · have hstatus := wp_ok (wp_putRelDrops_legacy hlegacy) hexec
      refine ⟨same hstatus, keeps hstatus fun hm ↦ ?_⟩
      cases hlegacy.symm.trans hm
    · obtain ⟨hdbs, h1, h2⟩ := wp_ok (wp_putRelDrops_migrating hm) hexec
      refine ⟨same hdbs.sameStatus, keeps hdbs.sameStatus fun _ ha tag hdb ↦ ?_⟩
      rw [h1, h2, ha tag ((hdbs.hasDb_iff _).mp hdb)]
  | putRelmapFile spcnode dbnode img =>
    obtain ⟨hstatus, hdbs, h1, h2⟩ := wp_ok wp_putRelmapFile hexec
    exact ⟨same hstatus, migrating hstatus fun _ ha ↦ agree_relmap_iff ha hdbs h1 h2⟩
  | dropDbdir spcnode dbnode =>
    obtain ⟨hstatus, hdbs, h1, h2⟩ := wp_ok wp_dropDbdir hexec
    exact ⟨same hstatus, keeps hstatus fun _ ha ↦ agree_of_sameDirs ha hdbs h1 h2⟩

/-! ### Whole runs -/

theorem inv_step {a : Step} (hs : Inv s) (hagrees : Agrees s) (h : step redo s a = some s') :
    Inv s' ∧ (Agrees s' ↔ Clean s a s') := by
  cases a with
  | write w =>
    have hhistory := State.write_sameHistory hs.wellFormed h
    obtain ⟨hadvances, hiff⟩ := write_spec hs hagrees h
    exact ⟨hs.advance hhistory hadvances,
      (agrees_iff_agree_view hs hagrees hhistory hadvances).trans hiff⟩
  | setLsn lsn =>
    simp only [step, Option.ite_none_right_eq_some, Option.some.injEq] at h
    obtain ⟨hle, rfl⟩ := h
    refine ⟨⟨hs.wellFormed.setLsn hle, ?_⟩, iff_of_true hagrees trivial⟩
    exact hs.legacy_or_migrating.imp_right fun ⟨hm, m, hat, hmle⟩ ↦ ⟨hm, m, hat, hmle.trans hle⟩
  | commit importing =>
    cases h
    have hkeys : s.commit.SameKeys { s.commit with isImportingPgdata := importing } :=
      ⟨rfl, rfl, rfl, rfl⟩
    exact ⟨⟨hkeys.wellFormed hs.wellFormed.commit, hs.legacy_or_migrating⟩,
      iff_of_true hagrees trivial⟩
  | setRelSizeV2Enabled enabled =>
    cases h
    have hkeys : s.SameKeys { s with relSizeV2Enabled := enabled } := ⟨rfl, rfl, rfl, rfl⟩
    exact ⟨⟨hkeys.wellFormed hs.wellFormed, hs.legacy_or_migrating⟩, iff_of_true hagrees trivial⟩

theorem inv_initEmpty (lsn : ℕ) (enabled : Bool) (runs : List MigrationRun) :
    Inv (State.empty lsn enabled runs).initEmpty := by
  refine ⟨?_, inl ⟨rfl, rfl⟩⟩
  have hempty : (State.empty lsn enabled runs).WellFormed :=
    ⟨le_rfl, fun _ ↦ .nil, nofun, fun _ ↦ .nil, nofun, nofun⟩
  exact ((((hempty.put _ _).put _ _).put _ _).put _ _).put _ _

theorem agrees_initEmpty (lsn : ℕ) (enabled : Bool) (runs : List MigrationRun) :
    Agrees (State.empty lsn enabled runs).initEmpty := by
  intro m hm
  cases hm

/-- On a timeline of any history, the directories agree throughout exactly if all steps are
clean. -/
theorem agrees_throughout_iff (lsn : ℕ) (enabled : Bool) (runs : List MigrationRun)
    (steps : List Step) :
    Runs.Throughout (step redo) Agrees (State.empty lsn enabled runs).initEmpty steps ↔
      Runs.EachStep (step redo) Clean (State.empty lsn enabled runs).initEmpty steps :=
  Runs.throughout_iff_eachStep (fun _ _ _ hs hagrees h ↦ inv_step hs hagrees h)
    (inv_initEmpty lsn enabled runs) (agrees_initEmpty lsn enabled runs)

/-- A database with a relation is dropped and comes back under its ids. -/
def recreation : List Step :=
  [.write (.putRelmapFile 1663 5 []), .write (.putRelCreation ⟨0, 1663, 5, 16384⟩ 1), .commit false,
    .setLsn 20, .write (.dropDbdir 1663 5), .commit false,
    .setLsn 30, .write (.putRelmapFile 1663 5 []), .commit false]

/-- In the new database, v1 is empty and v2 still has the relation of the old one. -/
theorem not_agrees_recreation :
    ¬Runs.Throughout (step fun _ ↦ none) Agrees (State.empty 10 true []).initEmpty recreation := by
  have hrun : ∃ s, recreation.foldlM (step fun _ ↦ none)
    (State.empty 10 true []).initEmpty = some s ∧
      s.relSizeMigratedAt = some 10 ∧
      Versions.asOf (s.commit.store .dbdir) 30 = some [((1663, 5), true)] ∧
      Versions.asOf (s.commit.store (.relDir 1663 5)) 30 = some [] ∧
      Versions.asOf (s.commit.store (.relTagSparse ⟨0, 1663, 5, 16384⟩)) 30 =
        some RelDirExists.present := by
    decide
  obtain ⟨s, hs, hat, hdbdir, hv1, hv2⟩ := hrun
  intro h
  have hagree := h.last hs 10 hat 30 (by decide) ⟨0, 1663, 5, 16384⟩ ⟨_, hdbdir, by decide⟩
  obtain ⟨dir, hdir, hmem⟩ := hagree.mp hv2
  cases hv1.symm.trans hdir
  cases hmem

end Directories

end NeonStorage.Datadir
