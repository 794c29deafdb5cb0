import Mathlib.Algebra.Order.Group.Nat
import Mathlib.Tactic.Common

/-!
# Backup of WAL segments

The backup task of a safekeeper uploads whole segments, several at a time, and consumes the results
in the order of the segments; `backup_lsn` moves when a result is consumed. The safekeepers of a
timeline upload the same objects, and tell each other their positions.
-/

namespace NeonStorage.Safekeeper.WalBackup

open List

structure Segment where
  segNo : ℕ
  startLsn : ℕ
  endLsn : ℕ

def segmentsFrom (segSize first len : ℕ) : List Segment :=
  (range' first len).map fun s ↦ ⟨s, s * segSize, (s + 1) * segSize⟩

def getSegments (start stop segSize : ℕ) : List Segment :=
  segmentsFrom segSize (start / segSize) (stop / segSize - start / segSize)

/-- An upload that was begun, with its result once it has finished. -/
structure Upload where
  segment : Segment
  result : Option Bool

/-- `backup_lsn_range` while it waits for the first of `uploads`. -/
structure Offload where
  iter : List Segment
  uploads : List Upload

/-- The loop up to its next `await`: uploads are begun until there are `parallelJobs`. -/
def pushUploads (parallelJobs : ℕ) : List Segment → List Upload → Offload
  | [], uploads => ⟨[], uploads⟩
  | s :: iter, uploads =>
    if parallelJobs ≤ uploads.length + 1 then ⟨iter, uploads ++ [⟨s, none⟩]⟩
    else pushUploads parallelJobs iter (uploads ++ [⟨s, none⟩])

/-- A safekeeper: the position of its timeline, the variable of the backup task, and what that
does. -/
structure Node where
  walBackupLsn : ℕ
  backupLsn : ℕ
  offload : Option Offload

namespace Node

variable (segSize parallelJobs : ℕ) (n : Node)

def setWalBackupLsn (lsn : ℕ) : Node := { n with walBackupLsn := max n.walBackupLsn lsn }

/-- A turn of the loop of `run`, up to the uploads of a range. -/
def wake (commitLsn : ℕ) : Node :=
  if commitLsn / segSize ≤ n.backupLsn / segSize then n
  else
    let n := { n with backupLsn := n.walBackupLsn }
    if commitLsn / segSize ≤ n.backupLsn / segSize then n
    else if parallelJobs < 1 then n
    else { n with
      offload := some (pushUploads parallelJobs (getSegments n.backupLsn commitLsn segSize) []) }

/-- The result of the first upload; `none` while there is none. An error ends the range, also one of
`set_wal_backup_lsn` (`cancelled`). -/
def next (cancelled : Bool) : Option Node :=
  match n.offload with
  | none => none
  | some ⟨_, []⟩ | some ⟨_, ⟨_, some false⟩ :: _⟩ => some { n with offload := none }
  | some ⟨_, ⟨_, none⟩ :: _⟩ => none
  | some ⟨iter, ⟨segment, some true⟩ :: uploads⟩ =>
    if cancelled then some { n with offload := none }
    else some { n.setWalBackupLsn segment.endLsn with
      backupLsn := segment.endLsn, offload := some (pushUploads parallelJobs iter uploads) }

end Node

/-- The safekeepers and the segments that the remote storage has. -/
structure World (ι : Type) where
  node : ι → Node
  uploaded : List ℕ

inductive Action (ι : Type)
  /-- The position of the commit has moved, or it is time for another attempt. -/
  | wake (i : ι) (commitLsn : ℕ)
  /-- The upload at a place among those that are going finishes. -/
  | finish (i : ι) (k : ℕ) (ok : Bool)
  | next (i : ι) (cancelled : Bool)
  /-- The task ends; the next one begins from nothing. -/
  | cancel (i : ι)
  /-- A message with a position that `j` has or had. -/
  | peerInfo (i j : ι) (lsn : ℕ)

namespace World

variable {ι : Type} [DecidableEq ι] (segSize parallelJobs : ℕ) (w : World ι)

def set (i : ι) (n : Node) : World ι := { w with node := Function.update w.node i n }

def exec : Action ι → Option (World ι)
  | .wake i commitLsn =>
    if (w.node i).offload.isSome then none
    else some (w.set i ((w.node i).wake segSize parallelJobs commitLsn))
  | .finish i k ok => do
    let o ← (w.node i).offload
    match o.uploads[k]? with
    | some ⟨segment, none⟩ =>
      let w' := w.set i { w.node i with
        offload := some { o with uploads := o.uploads.set k ⟨segment, some ok⟩ } }
      return if ok then { w' with uploaded := segment.segNo :: w.uploaded } else w'
    | _ => none
  | .next i cancelled => (w.set i ·) <$> (w.node i).next parallelJobs cancelled
  | .cancel i => some (w.set i { w.node i with backupLsn := 0, offload := none })
  | .peerInfo i j lsn =>
    if lsn ≤ (w.node j).walBackupLsn then some (w.set i ((w.node i).setWalBackupLsn lsn)) else none

end World

/-! ## What holds of a safekeeper -/

/-- The segments between `base` and the position have been uploaded. The uploads that are going and
the segments after them follow the variable of the task. -/
structure Sound (segSize base : ℕ) (uploaded : List ℕ) (n : Node) : Prop where
  covered : ∀ s, base < (s + 1) * segSize → (s + 1) * segSize ≤ n.walBackupLsn → s ∈ uploaded
  behind : n.backupLsn ≤ n.walBackupLsn
  inOrder : ∀ o, n.offload = some o → ∃ len,
    o.uploads.map Upload.segment ++ o.iter = segmentsFrom segSize (n.backupLsn / segSize) len
  finished : ∀ o, n.offload = some o → ∀ u ∈ o.uploads, u.result = some true →
    u.segment.segNo ∈ uploaded

variable {segSize base parallelJobs : ℕ} {uploaded uploaded' : List ℕ} {n : Node}

theorem pushUploads_spec (parallelJobs : ℕ) (iter : List Segment) (uploads : List Upload) :
    (pushUploads parallelJobs iter uploads).uploads.map Upload.segment ++
        (pushUploads parallelJobs iter uploads).iter = uploads.map Upload.segment ++ iter ∧
      ∀ u ∈ (pushUploads parallelJobs iter uploads).uploads, u ∈ uploads ∨ u.result = none := by
  induction iter generalizing uploads with
  | nil => exact ⟨rfl, fun u ↦ .inl⟩
  | cons s iter ih =>
    have hnew : ∀ u ∈ uploads ++ [⟨s, none⟩], u ∈ uploads ∨ u.result = none := by
      intro u hu
      rcases mem_append.mp hu with hu | hu
      · exact .inl hu
      · exact .inr (by rw [mem_singleton.mp hu])
    rw [pushUploads]
    split_ifs
    · exact ⟨by simp, hnew⟩
    · obtain ⟨hmap, hres⟩ := ih (uploads ++ [⟨s, none⟩])
      exact ⟨by simp [hmap], fun u hu ↦ (hres u hu).elim (hnew u) .inr⟩

namespace Sound

section

variable (h : Sound segSize base uploaded n)
include h

theorem mono (hsub : uploaded ⊆ uploaded') : Sound segSize base uploaded' n :=
  { h with
    covered := fun s hb hs ↦ hsub (h.covered s hb hs)
    finished := fun o ho u hu hr ↦ hsub (h.finished o ho u hu hr) }

theorem setWalBackupLsn {lsn : ℕ}
    (hlsn : ∀ s, base < (s + 1) * segSize → (s + 1) * segSize ≤ lsn → s ∈ uploaded) :
    Sound segSize base uploaded (n.setWalBackupLsn lsn) :=
  { h with
    covered := fun s hb hs ↦ (le_max_iff.mp hs).elim (h.covered s hb) (hlsn s hb)
    behind := h.behind.trans (le_max_left _ _) }

theorem idle {lsn : ℕ} (hlsn : lsn ≤ n.walBackupLsn) :
    Sound segSize base uploaded { n with backupLsn := lsn, offload := none } :=
  ⟨h.covered, hlsn, fun o ho ↦ absurd ho (by simp), fun o ho ↦ absurd ho (by simp)⟩

theorem pushUploads {iter : List Segment} {uploads : List Upload} (len : ℕ)
    (hiter : uploads.map Upload.segment ++ iter = segmentsFrom segSize (n.backupLsn / segSize) len)
    (hfin : ∀ u ∈ uploads, u.result = some true → u.segment.segNo ∈ uploaded) :
    Sound segSize base uploaded
      { n with offload := some (WalBackup.pushUploads parallelJobs iter uploads) } := by
  obtain ⟨hmap, hres⟩ := pushUploads_spec parallelJobs iter uploads
  refine { h with inOrder := ?_, finished := ?_ }
  · rintro _ ⟨rfl⟩
    exact ⟨len, hmap.trans hiter⟩
  · rintro _ ⟨rfl⟩ u hu hr
    rcases hres u hu with hu | hu
    · exact hfin u hu hr
    · cases hr.symm.trans hu

theorem wake (hidle : n.offload = none) (commitLsn : ℕ) :
    Sound segSize base uploaded (n.wake segSize parallelJobs commitLsn) ∧
      n.walBackupLsn ≤ (n.wake segSize parallelJobs commitLsn).walBackupLsn := by
  have hread : Sound segSize base uploaded { n with backupLsn := n.walBackupLsn } :=
    hidle ▸ h.idle le_rfl
  unfold Node.wake
  dsimp only
  split_ifs
  · exact ⟨h, le_rfl⟩
  · exact ⟨hread, le_rfl⟩
  · exact ⟨hread, le_rfl⟩
  · exact ⟨hread.pushUploads _ rfl fun u hu ↦ absurd hu not_mem_nil, le_rfl⟩

theorem next (hseg : 0 < segSize) {cancelled : Bool} {n' : Node}
    (hn : n.next parallelJobs cancelled = some n') :
    Sound segSize base uploaded n' ∧ n.walBackupLsn ≤ n'.walBackupLsn := by
  unfold Node.next at hn
  split at hn
  · cases hn
  · cases hn
    exact ⟨h.idle h.behind, le_rfl⟩
  · cases hn
    exact ⟨h.idle h.behind, le_rfl⟩
  · cases hn
  next iter segment uploads ho =>
    split_ifs at hn
    · cases hn
      exact ⟨h.idle h.behind, le_rfl⟩
    cases hn
    obtain ⟨len, hlen⟩ := h.inOrder _ ho
    have hfin := h.finished _ ho
    cases len with
    | zero => cases hlen
    | succ len =>
      -- the segment is the one at the variable of the task
      obtain ⟨hsegment, hrest⟩ := cons.inj hlen
      subst hsegment
      have hlsn : ∀ s, base < (s + 1) * segSize →
          (s + 1) * segSize ≤ (n.backupLsn / segSize + 1) * segSize → s ∈ uploaded := by
        intro s hb hs
        have hle : s ≤ n.backupLsn / segSize :=
          Nat.le_of_succ_le_succ (Nat.le_of_mul_le_mul_right hs hseg)
        rcases hle.eq_or_lt with rfl | hlt
        · exact hfin _ mem_cons_self rfl
        · refine h.covered s hb ((Nat.mul_le_mul_right segSize hlt).trans ?_)
          exact (Nat.div_mul_le_self _ _).trans h.behind
      have hset : Sound segSize base uploaded
        { n.setWalBackupLsn ((n.backupLsn / segSize + 1) * segSize)
          with backupLsn := (n.backupLsn / segSize + 1) * segSize, offload := none } :=
        (h.setWalBackupLsn hlsn).idle (le_max_right _ _)
      refine ⟨hset.pushUploads len (hrest.trans ?_) (forall_mem_cons.mp hfin).2, le_max_left _ _⟩
      rw [Nat.mul_div_cancel _ hseg]
      rfl

theorem finish {o : Offload} (ho : n.offload = some o) {k : ℕ} {segment : Segment} {r : Option Bool}
    (hk : o.uploads[k]? = some ⟨segment, r⟩) {ok : Bool}
    (hok : ok = true → segment.segNo ∈ uploaded) : Sound segSize base uploaded
      { n with offload := some { o with uploads := o.uploads.set k ⟨segment, some ok⟩ } } := by
  refine { h with inOrder := ?_, finished := ?_ }
  · rintro _ ⟨rfl⟩
    obtain ⟨len, hlen⟩ := h.inOrder o ho
    obtain ⟨hlt, heq⟩ := List.getElem?_eq_some_iff.mp hk
    have hsame : (o.uploads.set k ⟨segment, some ok⟩).map Upload.segment =
        o.uploads.map Upload.segment := by
      rw [map_set, ← congrArg Upload.segment heq,
        ← getElem_map (h := by rwa [length_map]) Upload.segment, set_getElem_self]
    exact ⟨len, hsame.symm ▸ hlen⟩
  · rintro _ ⟨rfl⟩ u hu hr
    rcases mem_or_eq_of_mem_set hu with hu | rfl
    · exact h.finished o ho u hu hr
    · exact hok (Option.some.inj hr)

end

end Sound

/-! ## Runs -/

namespace World

variable {ι : Type} [DecidableEq ι] {w w' : World ι}

theorem set_keeps (h : ∀ i, Sound segSize base w.uploaded (w.node i)) (i : ι)
    (hn : Sound segSize base w.uploaded n ∧ (w.node i).walBackupLsn ≤ n.walBackupLsn) (j : ι) :
    Sound segSize base (w.set i n).uploaded ((w.set i n).node j) ∧
      (w.node j).walBackupLsn ≤ ((w.set i n).node j).walBackupLsn :=
  (Function.forall_update_iff w.node fun j n ↦ Sound segSize base w.uploaded n ∧
    (w.node j).walBackupLsn ≤ n.walBackupLsn).mpr ⟨hn, fun j _ ↦ ⟨h j, le_rfl⟩⟩ j

theorem exec_keeps (hseg : 0 < segSize) (h : ∀ i, Sound segSize base w.uploaded (w.node i))
    {a : Action ι} (hexec : w.exec segSize parallelJobs a = some w') (j : ι) :
    Sound segSize base w'.uploaded (w'.node j) ∧
      (w.node j).walBackupLsn ≤ (w'.node j).walBackupLsn := by
  cases a with
  | wake i commitLsn =>
    rw [exec] at hexec
    split_ifs at hexec with hidle
    cases hexec
    exact set_keeps h i ((h i).wake (by simpa using hidle) commitLsn) j
  | finish i k ok =>
    obtain ⟨o, ho, hexec⟩ := Option.bind_eq_some_iff.mp hexec
    split at hexec
    next segment hk =>
      cases hexec
      cases ok with
      | false => exact set_keeps h i ⟨(h i).finish ho hk fun hok ↦ absurd hok (by simp), le_rfl⟩ j
      | true =>
        let grown : World ι := { w with uploaded := segment.segNo :: w.uploaded }
        have hgrown : ∀ i, Sound segSize base grown.uploaded (grown.node i) := fun i ↦
          (h i).mono (subset_cons_self _ _)
        exact set_keeps hgrown i ⟨(hgrown i).finish ho hk fun _ ↦ mem_cons_self, le_rfl⟩ j
    · cases hexec
  | next i cancelled =>
    obtain ⟨n', hn, rfl⟩ := Option.map_eq_some_iff.mp hexec
    exact set_keeps h i ((h i).next hseg hn) j
  | cancel i =>
    cases hexec
    exact set_keeps h i ⟨(h i).idle (Nat.zero_le _), le_rfl⟩ j
  | peerInfo i j' lsn =>
    rw [exec] at hexec
    split_ifs at hexec with hle
    cases hexec
    refine set_keeps h i ⟨(h i).setWalBackupLsn fun s hb hs ↦ ?_, le_max_left _ _⟩ j
    exact (h j').covered s hb (hs.trans hle)

theorem run_keeps (hseg : 0 < segSize) (as : List (Action ι))
    (h : ∀ i, Sound segSize base w.uploaded (w.node i))
    (hrun : as.foldlM (exec segSize parallelJobs) w = some w') (j : ι) :
    Sound segSize base w'.uploaded (w'.node j) ∧
      (w.node j).walBackupLsn ≤ (w'.node j).walBackupLsn := by
  induction as generalizing w with
  | nil =>
    cases hrun
    exact ⟨h j, le_rfl⟩
  | cons a as ih =>
    obtain ⟨w₁, hw₁, hrun⟩ := Option.bind_eq_some_iff.mp hrun
    have hstep := exec_keeps hseg h hw₁
    obtain ⟨hsound, hle⟩ := ih (fun i ↦ (hstep i).1) hrun
    exact ⟨hsound, (hstep j).2.trans hle⟩

/-- **The position of a safekeeper never moves back, and the segments that it has passed have been
uploaded**, whichever uploads fail and in whatever order they finish. The positions of the peers are
right at the beginning. -/
theorem uploaded_of_run (hseg : 0 < segSize) {w₁ w₂ : World ι} {as bs : List (Action ι)}
    (hidle : ∀ i, (w.node i).offload = none ∧ (w.node i).backupLsn = 0) (i : ι)
    (hpeers : ∀ j s, (w.node i).walBackupLsn < (s + 1) * segSize →
      (s + 1) * segSize ≤ (w.node j).walBackupLsn → s ∈ w.uploaded)
    (hrun₁ : as.foldlM (exec segSize parallelJobs) w = some w₁)
    (hrun₂ : bs.foldlM (exec segSize parallelJobs) w₁ = some w₂) :
    (w₁.node i).walBackupLsn ≤ (w₂.node i).walBackupLsn ∧
      ∀ s, (w.node i).walBackupLsn < (s + 1) * segSize →
        (s + 1) * segSize ≤ (w₂.node i).walBackupLsn → s ∈ w₂.uploaded := by
  have hsound : ∀ j, Sound segSize (w.node i).walBackupLsn w.uploaded (w.node j) := fun j ↦
    ⟨hpeers j, (hidle j).2 ▸ Nat.zero_le _, fun o ho ↦ absurd ((hidle j).1.symm.trans ho) (by simp),
      fun o ho ↦ absurd ((hidle j).1.symm.trans ho) (by simp)⟩
  have hrun := run_keeps hseg bs (fun j ↦ (run_keeps hseg as hsound hrun₁ j).1) hrun₂ i
  exact ⟨hrun.2, hrun.1.covered⟩

/-- The upload of the second segment has finished when that of the first one fails. -/
def retriedRun : List (Action Unit) :=
  [.wake () 40, .finish () 1 true, .finish () 0 false, .next () false, .wake () 40,
    .finish () 0 true, .next () false]

theorem uploaded_of_run_retried :
    ∃ w, retriedRun.foldlM (exec 16 2) ⟨fun _ ↦ ⟨0, 0, none⟩, []⟩ = some w ∧
    (w.node ()).walBackupLsn = 16 ∧
    ∀ s, 0 < (s + 1) * 16 → (s + 1) * 16 ≤ (w.node ()).walBackupLsn → s ∈ w.uploaded := by
  refine ⟨_, rfl, rfl, ?_⟩
  exact (uploaded_of_run (by decide : 0 < 16) (fun _ ↦ ⟨rfl, rfl⟩) ()
    (fun j s hb hs ↦ absurd hb (Nat.not_lt.mpr hs))
    (rfl : retriedRun.foldlM (exec 16 2) ⟨fun _ ↦ ⟨0, 0, none⟩, []⟩ = some _)
    (rfl : [].foldlM (exec 16 2) _ = some _)).2

end World

end NeonStorage.Safekeeper.WalBackup
