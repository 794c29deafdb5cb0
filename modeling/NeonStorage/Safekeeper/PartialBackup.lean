import NeonStorage.Lib.Runs
import Mathlib.Data.List.Basic
import NeonStorage.Lib.Snoc

/-!
# Backup of the partial segment

A safekeeper keeps the unfinished last segment of a timeline in remote storage. The control file
lists the objects that this may have left there, so that they can be collected later. `do_upload`
writes the new name to the control file, uploads the object, marks it `Uploaded` and everything
else `Deleting`, and calls `gc`, which deletes all objects but the uploaded one and then drops
their names.

The model takes one step per effect: a write of the control file, an upload, a deletion. Each of
them may fail, and the process may restart between any two. A write of the control file that
fails has reached the disk if only the `fsync` of the directory after the rename failed
(`CommitOutcome.failedAfterRename`), while the state in memory is still the old one.

The bookkeeping survives all failures but one kind of run: `gc` works from memory, so after such a
write of the `Uploaded` mark it may delete the object that the file on disk calls uploaded
(`consistent_throughout_iff`).
-/

namespace NeonStorage.Safekeeper.PartialBackup

open List

inductive UploadStatus where
  | inProgress
  | uploaded
  | deleting
  deriving DecidableEq

/-- `PartialRemoteSegment`; of the names only the equality matters. -/
structure PartialRemoteSegment (Name : Type) where
  status : UploadStatus
  name : Name
  commitLsn : ℕ
  flushLsn : ℕ
  term : ℕ
  deriving DecidableEq

/-- Where the task stands between two effects. -/
inductive Phase (Name : Type) where
  | idle
  /-- `do_upload` has committed `state_1`. -/
  | uploading (state₀ : List (PartialRemoteSegment Name)) (prepared : PartialRemoteSegment Name)
  /-- `upload_segment` has succeeded. -/
  | uploaded (state₀ : List (PartialRemoteSegment Name)) (prepared : PartialRemoteSegment Name)
  /-- `do_upload` has committed `state_2` and calls `gc`. -/
  | collecting
  /-- `gc` has deleted the objects. -/
  | deleted (newSegments : List (PartialRemoteSegment Name))
  /-- The assertion of `gc` has fired. -/
  | panicked
  deriving DecidableEq

/-- The control file on disk, its copy in memory, the state of the task, and remote storage. -/
structure State (Name : Type) where
  /-- `partial_backup` in the control file on disk. -/
  disk : List (PartialRemoteSegment Name)
  /-- `partial_backup` in the state that was persisted last, as the process knows it. -/
  pers : List (PartialRemoteSegment Name)
  /-- `PartialBackup::state`. -/
  mem : List (PartialRemoteSegment Name)
  /-- The objects in remote storage. -/
  objects : List Name
  /-- The objects that were fully uploaded and not deleted since. -/
  complete : List Name
  phase : Phase Name
  deriving DecidableEq

inductive CommitOutcome where
  | written
  /-- `finish_change` finds that nothing has changed and does not write. -/
  | unchanged
  | failed
  | failedAfterRename
  deriving DecidableEq

inductive UploadOutcome where
  | ok
  /-- The upload went through, but the term has changed meanwhile. -/
  | termChanged
  /-- The upload failed; the object may be there all the same. -/
  | failed (left : Bool)
  deriving DecidableEq

/-- How `delete_segments` ends; if it fails, some of the objects are deleted. -/
inductive DeleteOutcome (Name : Type) where
  | ok
  | failed (removed : List Name)
  deriving DecidableEq

variable {Name : Type}

namespace State

def new : State Name := ⟨[], [], [], [], [], .idle⟩

/-- `commit_state`: the new state and whether it succeeded; there is no result if the outcome is
not possible. -/
def commitState [DecidableEq Name] (s : State Name) (o : CommitOutcome)
    (newState : List (PartialRemoteSegment Name)) : Option (State Name × Bool) :=
  if s.pers ≠ s.mem then some ({ s with mem := s.pers }, false)
  else match o with
    | .written => some ({ s with disk := newState, pers := newState, mem := newState }, true)
    | .unchanged => if newState = s.pers then some ({ s with mem := newState }, true) else none
    | .failed => some (s, false)
    | .failedAfterRename => some ({ s with disk := newState }, false)

/-- `state_2` of `do_upload`. -/
def uploadedState (state₀ : List (PartialRemoteSegment Name))
    (prepared : PartialRemoteSegment Name) : List (PartialRemoteSegment Name) :=
  state₀.map (fun seg ↦ { seg with status := .deleting }) ++ [{ prepared with status := .uploaded }]

variable (segments : List (PartialRemoteSegment Name))

/-- `new_segments` of `gc`. -/
def uploadedSegments : List (PartialRemoteSegment Name) :=
  segments.filter (·.status = .uploaded)

/-- `segments_to_delete` of `gc`, before the name of the uploaded segment is taken out. -/
def otherNames : List Name :=
  (segments.filter (·.status ≠ .uploaded)).map (·.name)

/-- The names that `gc` deletes; no result if its assertion fires. -/
def segmentsToDelete [DecidableEq Name] (segments : List (PartialRemoteSegment Name)) :
    Option (List Name) :=
  match uploadedSegments segments with
  | [] => some (otherNames segments)
  | [seg] => some ((otherNames segments).filter (· ≠ seg.name))
  | _ :: _ :: _ => none

/-- The objects that a call of `delete_segments` removes. -/
def removed [DecidableEq Name] (o : DeleteOutcome Name) (names : List Name) : List Name :=
  match o with
  | .ok => names
  | .failed gone => names.filter (· ∈ gone)

def remove [DecidableEq Name] (s : State Name) (names : List Name) : State Name :=
  { s with
    objects := s.objects.filter (· ∉ names)
    complete := s.complete.filter (· ∉ names) }

def put (s : State Name) (name : Name) : State Name :=
  { s with objects := name :: s.objects }

end State

/-- The effects of the task. `beginUpload` is the first one of `do_upload` for a segment that
`prepare_upload` gives, which has status `InProgress`. -/
inductive Step (Name : Type) where
  | beginUpload (name : Name) (commitLsn flushLsn term : ℕ) (o : CommitOutcome)
  | uploadSegment (o : UploadOutcome)
  | commitUploaded (o : CommitOutcome)
  | deleteSegments (o : DeleteOutcome Name)
  | commitCollected (o : CommitOutcome)
  /-- The task is dropped and started again: `PartialBackup::new`. -/
  | newTask
  /-- The process restarts and reads the control file. -/
  | restart
  deriving DecidableEq

open State

/-- The phase after a commit, which is idle if it failed. -/
def next (r : State Name × Bool) (phase : Phase Name) : State Name :=
  { r.1 with phase := if r.2 then phase else .idle }

def step [DecidableEq Name] (s : State Name) : Step Name → Option (State Name)
  | .beginUpload name commitLsn flushLsn term o =>
    match s.phase with
    | .idle => do
      let prepared : PartialRemoteSegment Name := ⟨.inProgress, name, commitLsn, flushLsn, term⟩
      let r ← s.commitState o (s.mem ++ [prepared])
      some (next r (.uploading s.mem prepared))
    | _ => none
  | .uploadSegment o =>
    match s.phase with
    | .uploading state₀ prepared =>
      match o with
      | .ok => some { s.put prepared.name with
          complete := prepared.name :: s.complete
          phase := .uploaded state₀ prepared }
      | .termChanged => some { s.put prepared.name with
          complete := prepared.name :: s.complete
          phase := .idle }
      | .failed left => some { (if left then s.put prepared.name else s) with phase := .idle }
    | _ => none
  | .commitUploaded o =>
    match s.phase with
    | .uploaded state₀ prepared => do
      let r ← s.commitState o (uploadedState state₀ prepared)
      some (next r .collecting)
    | _ => none
  | .deleteSegments o =>
    if s.phase = .idle ∨ s.phase = .collecting then
      match segmentsToDelete s.mem with
      | none => some { s with phase := .panicked }
      | some names =>
        some { s.remove (removed o names) with
          phase := if o = .ok then .deleted (uploadedSegments s.mem) else .idle }
    else none
  | .commitCollected o =>
    match s.phase with
    | .deleted newSegments => do
      let r ← s.commitState o newSegments
      some (next r .idle)
    | _ => none
  | .newTask => if s.phase = .panicked then none else some { s with mem := s.pers, phase := .idle }
  | .restart => some { s with pers := s.disk, mem := s.disk, phase := .idle }

/-! ### The bookkeeping of one list -/

/-- A list of segments accounts for remote storage: it names every object, at most one segment
is uploaded, and the object of that one is there in full. -/
structure Accounts (s : State Name) (segments : List (PartialRemoteSegment Name)) : Prop where
  listed : ∀ name ∈ s.objects, ∃ seg ∈ segments, seg.name = name
  one : (uploadedSegments segments).length ≤ 1
  complete : ∀ seg ∈ segments, seg.status = .uploaded → seg.name ∈ s.complete

/-- The control file accounts for remote storage, and no assertion has fired. -/
structure Consistent (s : State Name) : Prop where
  accounts : Accounts s s.disk
  not_panicked : s.phase ≠ .panicked

variable {s s' : State Name} {segments : List (PartialRemoteSegment Name)}

theorem Accounts.congr (h : Accounts s segments) (hobjects : s'.objects = s.objects)
    (hcomplete : s'.complete = s.complete) : Accounts s' segments := by
  obtain ⟨hlisted, hone, hdone⟩ := h
  exact ⟨hobjects ▸ hlisted, hone, hcomplete ▸ hdone⟩

variable {prepared : PartialRemoteSegment Name}

theorem Accounts.append_inProgress (h : Accounts s segments)
    (hstatus : prepared.status = .inProgress) : Accounts s (segments ++ [prepared]) where
  listed name hname := by
    obtain ⟨seg, hseg, rfl⟩ := h.listed name hname
    exact ⟨seg, mem_append_left _ hseg, rfl⟩
  one := by
    have hone := h.one
    simpa [uploadedSegments, hstatus] using hone
  complete seg hseg hup := by
    rcases mem_snoc.mp hseg with hseg | rfl
    · exact h.complete seg hseg hup
    · cases hstatus.symm.trans hup

theorem Accounts.uploadedState {state₀ : List (PartialRemoteSegment Name)}
    (h : Accounts s (state₀ ++ [prepared]))
    (hcomplete : prepared.name ∈ s.complete) : Accounts s (uploadedState state₀ prepared) where
  listed name hname := by
    obtain ⟨seg, hseg, rfl⟩ := h.listed name hname
    rcases mem_snoc.mp hseg with hseg | rfl
    · exact ⟨_, mem_append_left _ (mem_map_of_mem hseg), rfl⟩
    · exact ⟨_, mem_append_right _ (mem_singleton_self _), rfl⟩
  one := by
    have hnone : (state₀.map fun seg ↦ { seg with status := .deleting }).filter
        (·.status = .uploaded) = [] := by
      simp [filter_eq_nil_iff]
    simp [uploadedSegments, State.uploadedState, hnone]
  complete seg hseg hup := by
    rcases mem_snoc.mp hseg with hseg | rfl
    · obtain ⟨seg', -, rfl⟩ := mem_map.mp hseg
      cases hup
    · exact hcomplete

variable {seg : PartialRemoteSegment Name}

theorem Accounts.put (h : Accounts s segments)
    (hseg : seg ∈ segments) : Accounts (s.put seg.name) segments where
  listed name hname := by
    rcases mem_cons.mp hname with rfl | hname
    · exact ⟨seg, hseg, rfl⟩
    · exact h.listed name hname
  one := h.one
  complete := h.complete

variable [DecidableEq Name]

/-- After a deletion, a list accounts for what is left exactly if the object of its uploaded
segment was not deleted. -/
theorem accounts_remove_iff (h : Accounts s segments) (names : List Name) :
    Accounts (s.remove names) segments ↔
      ∀ seg ∈ segments, seg.status = .uploaded → seg.name ∉ names := by
  constructor
  · intro h' seg hseg hup
    have hmem := h'.complete seg hseg hup
    simpa using (mem_filter.mp hmem).2
  · intro hkeep
    refine ⟨fun name hname ↦ h.listed name (mem_filter.mp hname).1, h.one, ?_⟩
    intro seg hseg hup
    exact mem_filter.mpr ⟨h.complete seg hseg hup, by simpa using hkeep seg hseg hup⟩

/-! ### What `gc` deletes -/

omit [DecidableEq Name] in
theorem mem_uploadedSegments :
    seg ∈ uploadedSegments segments ↔ seg ∈ segments ∧ seg.status = .uploaded := by
  simp [uploadedSegments]

/-- With at most one uploaded segment the assertion of `gc` does not fire, the object of that
segment is spared, and all others that the list names are deleted. -/
theorem segmentsToDelete_spec (h : (uploadedSegments segments).length ≤ 1) :
    ∃ names, segmentsToDelete segments = some names ∧
      (∀ seg ∈ segments, seg.status = .uploaded → seg.name ∉ names) ∧
      (∀ seg ∈ segments, seg.name ∈ names ∨ ∃ up ∈ uploadedSegments segments,
        up.name = seg.name) := by
  rw [segmentsToDelete]
  have hother {seg : PartialRemoteSegment Name} (hseg : seg ∈ segments)
      (hup : seg.status ≠ .uploaded) : seg.name ∈ otherNames segments :=
    mem_map_of_mem (mem_filter.mpr ⟨hseg, by simpa using hup⟩)
  match hup : uploadedSegments segments with
  | [] =>
    have hnone {seg : PartialRemoteSegment Name} (hseg : seg ∈ segments) :
        seg.status ≠ .uploaded := fun hs ↦ by
      have := mem_uploadedSegments.mpr ⟨hseg, hs⟩
      rw [hup] at this
      cases this
    exact ⟨_, rfl, fun seg hseg hs ↦ absurd hs (hnone hseg),
      fun seg hseg ↦ .inl (hother hseg (hnone hseg))⟩
  | [up] =>
    refine ⟨_, rfl, fun seg hseg hs hmem ↦ ?_, fun seg hseg ↦ ?_⟩
    · have hmem' := mem_uploadedSegments.mpr ⟨hseg, hs⟩
      rw [hup, mem_singleton] at hmem'
      simp [hmem'] at hmem
    · by_cases hname : up.name = seg.name
      · exact .inr ⟨up, mem_singleton_self up, hname⟩
      · refine .inl (mem_filter.mpr ⟨hother hseg fun hs ↦ hname ?_, by simpa using Ne.symm hname⟩)
        have hmem' := mem_uploadedSegments.mpr ⟨hseg, hs⟩
        rw [hup, mem_singleton] at hmem'
        rw [hmem']
  | _ :: _ :: _ =>
    rw [hup] at h
    simp at h

theorem removed_subset (o : DeleteOutcome Name) (names : List Name) : removed o names ⊆ names := by
  cases o with
  | ok => exact .refl _
  | failed gone => exact filter_subset_self _

/-! ### The invariant of the task -/

def PhaseInv (s : State Name) : Prop :=
  match s.phase with
  | .idle | .collecting => True
  | .uploading state₀ prepared =>
    s.mem = state₀ ++ [prepared] ∧ prepared ∈ s.disk
  | .uploaded state₀ prepared =>
    s.mem = state₀ ++ [prepared] ∧ prepared.name ∈ s.complete
  | .deleted newSegments =>
    newSegments = uploadedSegments s.mem ∧
      ∀ name ∈ s.objects, ∃ seg ∈ newSegments, seg.name = name
  | .panicked => False

/-- The state in memory accounts for remote storage on its own, whatever is on disk. -/
structure Inv (s : State Name) : Prop where
  pers_eq : s.pers = s.mem
  accounts : Accounts s s.mem
  phase : PhaseInv s

variable {o : CommitOutcome} {newState : List (PartialRemoteSegment Name)} {r : State Name × Bool}

/-- What `commit_state` can do: the state in memory and the one on disk each stay or become the new
one, and a successful commit of a new state reaches the disk. -/
theorem commitState_spec (h : s.pers = s.mem) (hr : s.commitState o newState = some r) :
    r.1.pers = r.1.mem ∧ r.1.objects = s.objects ∧ r.1.complete = s.complete ∧
      (r.1.disk = s.disk ∨ r.1.disk = newState) ∧
      (r.2 = true → r.1.mem = newState ∧ (newState ≠ s.mem → r.1.disk = newState)) ∧
      (r.2 = false → r.1.mem = s.mem) := by
  unfold State.commitState at hr
  rw [if_neg (not_not.mpr h)] at hr
  cases o with
  | written =>
    cases hr
    simp
  | unchanged =>
    split_ifs at hr with heq
    cases hr
    simp [heq, h]
  | failed =>
    cases hr
    simp [h]
  | failedAfterRename =>
    cases hr
    simp [h]

theorem inv_next (hinv : Inv s) (hdisk : Accounts s s.disk) (hnew : Accounts s newState)
    (hr : s.commitState o newState = some r) {phase : Phase Name}
    (hphase : r.2 = true → PhaseInv { r.1 with phase }) (hne : phase ≠ .panicked) :
    Inv (next r phase) ∧ Consistent (next r phase) := by
  obtain ⟨hpers, hobjects, hcomplete, hdisk', hok, hfail⟩ := commitState_spec hinv.pers_eq hr
  have hmem : Accounts s r.1.mem := by
    cases hr2 : r.2 with
    | true => exact (hok hr2).1 ▸ hnew
    | false => exact hfail hr2 ▸ hinv.accounts
  have hdisk'' : Accounts s r.1.disk := by
    rcases hdisk' with h | h
    · exact h ▸ hdisk
    · exact h ▸ hnew
  refine ⟨⟨hpers, hmem.congr hobjects hcomplete, ?_⟩, hdisk''.congr hobjects hcomplete, ?_⟩
  · cases hr2 : r.2 with
    | true => simpa [next, hr2] using hphase hr2
    | false => simp [next, hr2, PhaseInv]
  · cases hr2 : r.2 with
    | true => simpa [next, hr2] using hne
    | false => simp [next, hr2]

/-- `gc` does not delete the object that the control file on disk calls uploaded. -/
def Clean (s : State Name) (a : Step Name) (_ : State Name) : Prop :=
  match a with
  | .deleteSegments o => ∀ names, segmentsToDelete s.mem = some names →
      ∀ seg ∈ s.disk, seg.status = .uploaded → seg.name ∉ removed o names
  | _ => True

section

variable (hinv : Inv s) (hgood : Consistent s)
include hinv hgood

theorem inv_beginUpload {name : Name} {commitLsn flushLsn term : ℕ}
    (h : step s (.beginUpload name commitLsn flushLsn term o) = some s') :
    Inv s' ∧ Consistent s' := by
  simp only [step] at h
  split at h
  · obtain ⟨r, hr, h⟩ := Option.bind_eq_some_iff.mp h
    cases h
    refine inv_next hinv hgood.accounts (hinv.accounts.append_inProgress rfl) hr (fun hok ↦ ?_)
      (by simp)
    obtain ⟨hmem, hdisk⟩ := (commitState_spec hinv.pers_eq hr).2.2.2.2.1 hok
    refine ⟨hmem, ?_⟩
    rw [hdisk (by simp)]
    exact mem_append_right _ (mem_singleton_self _)
  · cases h

theorem inv_uploadSegment {o : UploadOutcome}
    (h : step s (.uploadSegment o) = some s') : Inv s' ∧ Consistent s' := by
  simp only [step] at h
  split at h
  · rename_i state₀ prepared hphase
    have hp := hinv.phase
    simp only [PhaseInv, hphase] at hp
    have hmem : prepared ∈ s.mem := hp.1 ▸ mem_append_right _ (mem_singleton_self _)
    have hm := hinv.accounts.put hmem
    have hd := hgood.accounts.put hp.2
    -- an object that is uploaded in full makes the list of complete objects longer
    have hcomplete {segments : List (PartialRemoteSegment Name)}
        (ha : Accounts (s.put prepared.name) segments) (phase : Phase Name) :
        Accounts { s.put prepared.name with complete := prepared.name :: s.complete, phase }
          segments :=
      ⟨ha.listed, ha.one, fun seg hseg hup ↦ mem_cons_of_mem _ (ha.complete seg hseg hup)⟩
    cases o with
    | ok =>
      cases h
      exact ⟨⟨hinv.pers_eq, hcomplete hm _, hp.1, mem_cons_self⟩, hcomplete hd _, by simp⟩
    | termChanged =>
      cases h
      exact ⟨⟨hinv.pers_eq, hcomplete hm _, trivial⟩, hcomplete hd _, by simp⟩
    | failed left =>
      cases h
      cases left with
      | true => exact ⟨⟨hinv.pers_eq, hm.congr rfl rfl, trivial⟩, hd.congr rfl rfl, by simp⟩
      | false =>
        exact ⟨⟨hinv.pers_eq, hinv.accounts.congr rfl rfl, trivial⟩,
          hgood.accounts.congr rfl rfl, by simp⟩
  · cases h

theorem inv_commitUploaded (h : step s (.commitUploaded o) = some s') : Inv s' ∧ Consistent s' := by
  simp only [step] at h
  split at h
  · rename_i state₀ prepared hphase
    obtain ⟨r, hr, h⟩ := Option.bind_eq_some_iff.mp h
    cases h
    have hp := hinv.phase
    simp only [PhaseInv, hphase] at hp
    have hmem := hinv.accounts
    rw [hp.1] at hmem
    exact inv_next hinv hgood.accounts (hmem.uploadedState hp.2) hr (fun _ ↦ trivial) (by simp)
  · cases h

theorem inv_commitCollected
    (h : step s (.commitCollected o) = some s') : Inv s' ∧ Consistent s' := by
  simp only [step] at h
  split at h
  · rename_i newSegments hphase
    obtain ⟨r, hr, h⟩ := Option.bind_eq_some_iff.mp h
    cases h
    have hp := hinv.phase
    simp only [PhaseInv, hphase] at hp
    obtain ⟨rfl, hlisted⟩ := hp
    have hnew : Accounts s (uploadedSegments s.mem) := by
      refine ⟨hlisted, ?_, fun seg hseg hup ↦ ?_⟩
      · simpa [uploadedSegments, filter_filter] using hinv.accounts.one
      · exact hinv.accounts.complete seg (mem_uploadedSegments.mp hseg).1 hup
    exact inv_next hinv hgood.accounts hnew hr (fun _ ↦ trivial) (by simp)
  · cases h

/-- `gc` deletes from memory: the invariant is kept, and the control file stays right exactly if
its uploaded object is spared. -/
theorem inv_deleteSegments {o : DeleteOutcome Name} (h : step s (.deleteSegments o) = some s') :
    Inv s' ∧ (Consistent s' ↔ Clean s (.deleteSegments o) s') := by
  obtain ⟨names, hnames, hspared, hcovered⟩ := segmentsToDelete_spec hinv.accounts.one
  have hclean : Clean s (.deleteSegments o) s' ↔
      ∀ seg ∈ s.disk, seg.status = .uploaded → seg.name ∉ removed o names := by
    simp [Clean, hnames]
  simp only [step, hnames] at h
  split at h
  swap
  · cases h
  cases h
  have hmem : Accounts (s.remove (removed o names)) s.mem :=
    (accounts_remove_iff hinv.accounts _).mpr fun seg hseg hup hmem ↦
      hspared seg hseg hup (removed_subset o names hmem)
  refine ⟨⟨hinv.pers_eq, hmem.congr rfl rfl, ?_⟩, ?_⟩
  · by_cases hok : o = .ok
    · subst hok
      refine ⟨rfl, fun name hname ↦ ?_⟩
      obtain ⟨hobject, hkept⟩ := mem_filter.mp hname
      obtain ⟨seg, hseg, rfl⟩ := hinv.accounts.listed name hobject
      rcases hcovered seg hseg with hdel | hup
      · simp [removed, hdel] at hkept
      · exact hup
    · simp [PhaseInv, hok]
  · refine .trans ⟨fun hc ↦ ?_, fun hc ↦ ⟨?_, ?_⟩⟩ hclean.symm
    · exact (accounts_remove_iff hgood.accounts _).mp (hc.accounts.congr rfl rfl)
    · exact ((accounts_remove_iff hgood.accounts _).mpr hc).congr rfl rfl
    · split_ifs <;> simp

theorem inv_step {a : Step Name} (h : step s a = some s') :
    Inv s' ∧ (Consistent s' ↔ Clean s a s') := by
  -- all steps but the deletion are clean
  have hkeep (hk : Inv s' ∧ Consistent s') (hc : Clean s a s') :
      Inv s' ∧ (Consistent s' ↔ Clean s a s') := ⟨hk.1, iff_of_true hk.2 hc⟩
  cases a with
  | beginUpload name commitLsn flushLsn term o =>
    exact hkeep (inv_beginUpload hinv hgood h) trivial
  | uploadSegment o => exact hkeep (inv_uploadSegment hinv hgood h) trivial
  | commitUploaded o => exact hkeep (inv_commitUploaded hinv hgood h) trivial
  | deleteSegments o => exact inv_deleteSegments hinv hgood h
  | commitCollected o => exact hkeep (inv_commitCollected hinv hgood h) trivial
  | newTask =>
    simp only [step] at h
    split_ifs at h
    cases h
    exact hkeep ⟨⟨rfl, hinv.pers_eq ▸ hinv.accounts.congr rfl rfl, trivial⟩,
      hgood.accounts.congr rfl rfl, by simp⟩ trivial
  | restart =>
    cases h
    exact hkeep ⟨⟨rfl, hgood.accounts.congr rfl rfl, trivial⟩,
      hgood.accounts.congr rfl rfl, by simp⟩ trivial

end

omit [DecidableEq Name] in
theorem accounts_new : Accounts (.new : State Name) [] :=
  ⟨by simp [State.new], Nat.zero_le 1, by simp⟩

omit [DecidableEq Name] in
theorem inv_new : Inv (.new : State Name) := ⟨rfl, accounts_new, trivial⟩

omit [DecidableEq Name] in
theorem consistent_new : Consistent (.new : State Name) := ⟨accounts_new, by simp [State.new]⟩

theorem throughout_consistent_iff (as : List (Step Name)) :
    Runs.Throughout step Consistent .new as ↔ Runs.EachStep step Clean .new as :=
  Runs.throughout_iff_eachStep (fun _ _ _ h h' ↦ inv_step h h') inv_new consistent_new

/-! ### Runs without a lost mark -/

/-- What the control file on disk calls uploaded, the task knows to be uploaded. -/
def Known (s : State Name) : Prop := ∀ seg ∈ s.disk, seg.status = .uploaded → seg ∈ s.mem

/-- A commit keeps this if the new list has the same uploaded segments as the old one. -/
theorem known_next (hinv : Inv s) (hknown : Known s)
    (hnew : ∀ seg, seg.status = .uploaded → (seg ∈ newState ↔ seg ∈ s.mem))
    (hr : s.commitState o newState = some r) (phase : Phase Name) : Known (next r phase) := by
  obtain ⟨-, -, -, hdisk, hok, hfail⟩ := commitState_spec hinv.pers_eq hr
  intro seg hseg hup
  have hmem : seg ∈ s.mem := by
    rcases hdisk with h | h
    · exact hknown seg (h ▸ hseg) hup
    · exact (hnew seg hup).mp (h ▸ hseg)
  cases hr2 : r.2 with
  | true => exact (hok hr2).1 ▸ (hnew seg hup).mpr hmem
  | false => exact hfail hr2 ▸ hmem

theorem known_step {a : Step Name} (hinv : Inv s) (hknown : Known s)
    (ha : a ≠ .commitUploaded .failedAfterRename) (h : step s a = some s') : Known s' := by
  cases a with
  | beginUpload name commitLsn flushLsn term o =>
    simp only [step] at h
    split at h
    · obtain ⟨r, hr, h⟩ := Option.bind_eq_some_iff.mp h
      cases h
      refine known_next hinv hknown (fun seg hup ↦ ?_) hr _
      rw [mem_append, mem_singleton, or_iff_left]
      rintro rfl
      cases hup
    · cases h
  | uploadSegment o =>
    simp only [step] at h
    split at h
    · rcases o with _ | _ | (_ | _) <;> cases h <;> exact hknown
    · cases h
  | commitUploaded o =>
    simp only [step] at h
    split at h
    · obtain ⟨r, hr, h⟩ := Option.bind_eq_some_iff.mp h
      cases h
      unfold State.commitState at hr
      rw [if_neg (not_not.mpr hinv.pers_eq)] at hr
      cases o with
      | written =>
        cases hr
        exact fun seg hseg _ ↦ hseg
      | unchanged =>
        split_ifs at hr with heq
        cases hr
        intro seg hseg hup
        exact (heq.trans hinv.pers_eq) ▸ hknown seg hseg hup
      | failed =>
        cases hr
        exact hknown
      | failedAfterRename => exact absurd rfl ha
    · cases h
  | deleteSegments o =>
    simp only [step] at h
    split at h
    · split at h <;> cases h <;> exact hknown
    · cases h
  | commitCollected o =>
    simp only [step] at h
    split at h
    · rename_i newSegments hphase
      obtain ⟨r, hr, h⟩ := Option.bind_eq_some_iff.mp h
      cases h
      have hp := hinv.phase
      simp only [PhaseInv, hphase] at hp
      obtain ⟨rfl, -⟩ := hp
      refine known_next hinv hknown (fun seg hup ↦ ?_) hr _
      rw [mem_uploadedSegments, and_iff_left hup]
    · cases h
  | newTask =>
    simp only [step] at h
    split_ifs at h
    cases h
    exact fun seg hseg hup ↦ hinv.pers_eq ▸ hknown seg hseg hup
  | restart =>
    cases h
    exact fun seg hseg _ ↦ hseg

/-- If no write of the `Uploaded` mark fails after its rename, all other failures are survived. -/
theorem consistent_of_no_lost_mark {as : List (Step Name)}
    (h : ∀ a ∈ as, a ≠ .commitUploaded .failedAfterRename) :
    Runs.Throughout step Consistent .new as := by
  rw [throughout_consistent_iff]
  refine Runs.eachStep_of_inv (I := fun s ↦ Inv s ∧ Consistent s ∧ Known s) ?_
    ⟨inv_new, consistent_new, nofun⟩ h
  rintro s a s' ⟨hinv, hgood, hknown⟩ ha hstep
  obtain ⟨hinv', hiff⟩ := inv_step hinv hgood hstep
  have hclean : Clean s a s' := by
    cases a with
    | deleteSegments o =>
      intro names hnames seg hseg hup hmem
      obtain ⟨names', hnames', hspared, -⟩ := segmentsToDelete_spec hinv.accounts.one
      cases hnames.symm.trans hnames'
      exact hspared seg (hknown seg hseg hup) hup (removed_subset o names hmem)
    | _ => trivial
  exact ⟨hclean, hinv', hiff.mpr hclean, known_step hinv hknown ha hstep⟩

/-- Along a run from the state of a new timeline, with any outcomes, the control file accounts for
remote storage and the assertion of `gc` has not fired in every state exactly if no deletion
removes the object that the control file on disk calls uploaded. This is so in every run where no
write of the `Uploaded` mark fails after its rename. -/
theorem consistent_throughout_iff (as : List (Step Name)) :
    (Runs.Throughout step Consistent .new as ↔ Runs.EachStep step Clean .new as) ∧
      ((∀ a ∈ as, a ≠ .commitUploaded .failedAfterRename) →
        Runs.Throughout step Consistent .new as) :=
  ⟨throughout_consistent_iff as, consistent_of_no_lost_mark⟩

/-- A failed upload that left its object, a second one that goes through, and the collection of
the first object after one failed attempt. -/
theorem consistent_retried_upload : Runs.Throughout step Consistent (.new : State ℕ)
      [.beginUpload 0 10 20 1 .written, .uploadSegment (.failed true),
        .beginUpload 1 10 30 1 .written, .uploadSegment .ok, .commitUploaded .written,
        .deleteSegments (.failed []), .deleteSegments .ok,
        .commitCollected .failedAfterRename] :=
  (consistent_throughout_iff _).2 (by decide)

/-- The first upload goes through, the write of its `Uploaded` mark fails after the rename, and
`gc` collects the object. -/
def lostMark : List (Step ℕ) :=
  [.beginUpload 0 10 20 1 .written, .uploadSegment .ok, .commitUploaded .failedAfterRename,
    .deleteSegments .ok]

/-- The control file on disk then calls an object uploaded that is gone. -/
theorem not_consistent_lostMark :
    ∃ s, lostMark.foldlM step .new = some s ∧ s.disk = [⟨.uploaded, 0, 10, 20, 1⟩] ∧
      s.objects = [] ∧ ¬ Consistent s := by
  refine ⟨_, rfl, rfl, rfl, fun h ↦ ?_⟩
  exact absurd (h.accounts.complete ⟨.uploaded, 0, 10, 20, 1⟩ (.head _) rfl) not_mem_nil

end NeonStorage.Safekeeper.PartialBackup
