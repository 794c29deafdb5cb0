import Mathlib.Data.List.Chain
import NeonStorage.Lib.Versions
import NeonStorage.OrioleDb.ColdStartSummary

/-!
# The stored versions of the cold-start summary

`WalIngest` keeps the summary in memory, and stores a new version of it with each OrioleDB record. A
new `WalIngest`, after a reconnection or a restart, goes on behind the last committed record, but
begins with an empty summary. So the versions that it stores know nothing of the records before it.

`covers_iff` says which ingestions store versions that cover the whole history all the same.
-/

namespace NeonStorage.OrioleDb

open List UInt64 Versions
open OrioleDBColdStartSummary

/-- A WAL record, as far as the summary is concerned. -/
structure WalRecord where
  nextRecordLsn : UInt64
  /-- The payload, if the record is one of OrioleDB. -/
  container : Option (List UInt8)

/-- `MetadataRecord::OrioleDb`. -/
def WalRecord.delta (r : WalRecord) : Option OrioleDbRecordDelta :=
  r.container.map decodeContainerForSummary

/-- The positions of the records of a WAL. -/
def IsWal (rs : List WalRecord) : Prop :=
  (∀ r ∈ rs, 0 < r.nextRecordLsn) ∧ rs.Pairwise (·.nextRecordLsn < ·.nextRecordLsn)

/-! ## Ingestion -/

/-- A timeline, with the versions under `ORIOLEDB_STATE_KEY`. -/
structure Timeline where
  lastRecordLsn : ℕ := 0
  stateVersions : List (ℕ × List UInt8) := []

variable (tl : Timeline)

def Timeline.getOrioledbState (lsn : ℕ) : Option (List UInt8) :=
  asOf tl.stateVersions lsn

/-- A `DatadirModification`, with what is pending under `ORIOLEDB_STATE_KEY`. -/
structure Modification where
  lsn : ℕ
  pendingState : List (ℕ × List UInt8) := []

namespace Modification

variable (m : Modification)

/-- Going back is refused. -/
def setLsn (lsn : ℕ) : Option Modification :=
  if lsn < m.lsn then none else some { m with lsn }

def putOrioledbState (img : List UInt8) : Modification :=
  { m with pendingState := put m.pendingState m.lsn img }

def commit (m : Modification) (tl : Timeline) : Modification × Timeline :=
  ({ m with pendingState := [] },
    { lastRecordLsn := m.lsn
      stateVersions := m.pendingState.foldl (fun vs v ↦ put vs v.1 v.2) tl.stateVersions })

end Modification

structure WalIngest where
  orioleSummary : OrioleDBColdStartSummary := {}
  orioleSummaryModified : Bool := false

namespace WalIngest

/-- The branch for an OrioleDB record. A summary that cannot take the record stays as it is. -/
def ingestDelta (w : WalIngest) (r : WalRecord) : WalIngest :=
  match r.delta with
  | none => w
  | some delta =>
    match w.orioleSummary.ingestDelta delta r.nextRecordLsn with
    | .ok s => ⟨s, true⟩
    | .error _ => w

def ingestRecord (st : WalIngest × Modification) (r : WalRecord) :
    Option (WalIngest × Modification) := do
  let m ← st.2.setLsn r.nextRecordLsn.toNat
  let w := st.1.ingestDelta r
  if w.orioleSummaryModified then
    some ({ w with orioleSummaryModified := false },
      m.putOrioledbState w.orioleSummary.encodePacked)
  else some (w, m)

end WalIngest

def ingestBatch (st : (WalIngest × Modification) × Timeline) (batch : List WalRecord) :
    Option ((WalIngest × Modification) × Timeline) := do
  let (w, m) ← batch.foldlM WalIngest.ingestRecord st.1
  let (m, tl) := m.commit st.2
  some ((w, m), tl)

/-- What one `WalIngest` commits, batch by batch. What it ingests after the last commit leaves
nothing behind. -/
def ingestInstance (batches : List (List WalRecord)) : Option Timeline :=
  (batches.foldlM ingestBatch (({}, ⟨tl.lastRecordLsn, []⟩), tl)).map Prod.snd

def ingest (history : List (List (List WalRecord))) : Option Timeline :=
  history.foldlM ingestInstance {}

/-! ## What the versions should hold -/

def deltas (rs : List WalRecord) : List OrioleDbRecordDelta := rs.filterMap WalRecord.delta

/-- The numbers of the record are used up, according to the summary. -/
def OrioleDbRecordDelta.CoveredBy (d : OrioleDbRecordDelta) (s : OrioleDBColdStartSummary) : Prop :=
  (∀ oxid ∈ d.maxOxidInBody, oxid < s.nextOxid) ∧ ∀ csn ∈ d.maxCsnInBody, csn < s.nextCsn

def Advances (s s' : OrioleDBColdStartSummary) : Prop :=
  s.nextOxid ≤ s'.nextOxid ∧ s.nextCsn ≤ s'.nextCsn ∧ s.ingestedCount ≤ s'.ingestedCount

/-- All versions can be unpacked, the version as of any position covers the records up to there, and
the counters do not go back from one version to the next. -/
def Covers (wal : List WalRecord) : Prop :=
  ∃ summaries : List OrioleDBColdStartSummary,
    tl.stateVersions.map (decodePacked ∘ Prod.snd) = summaries.map Except.ok ∧
    summaries.IsChain Advances ∧
    ∀ lsn, ∀ r ∈ wal, r.nextRecordLsn.toNat ≤ lsn → ∀ d ∈ r.delta,
      ∃ bs s, tl.getOrioledbState lsn = some bs ∧ decodePacked bs = .ok s ∧ d.CoveredBy s

/-- Something was found later that is at least as large as what was found before. -/
def Reaches (found found' : Option UInt64) : Prop := ∀ x ∈ found, ∃ y ∈ found', x ≤ y

/-- The numbers in `d` are all reached in `d'`. -/
def OrioleDbRecordDelta.ReachedBy (d d' : OrioleDbRecordDelta) : Prop :=
  Reaches d.maxOxidInBody d'.maxOxidInBody ∧ Reaches d.maxCsnInBody d'.maxCsnInBody

/-- Neither number is the largest there is. -/
def OrioleDbRecordDelta.Bounded (d : OrioleDbRecordDelta) : Prop :=
  d.maxOxidInBody ≠ some 0xFFFFFFFFFFFFFFFF ∧ d.maxCsnInBody ≠ some 0xFFFFFFFFFFFFFFFF

/-- All numbers have one behind them. And the first OrioleDB record of a `WalIngest` makes up for
those that earlier ones have met: each has met one at most, with numbers that the record reaches. -/
def Seamless (history : List (List (List WalRecord))) : Prop :=
  (∀ d ∈ deltas history.flatten.flatten, d.Bounded) ∧
  history.Pairwise fun before after ↦
    ∀ d' ∈ (deltas after.flatten).head?,
      (deltas before.flatten).length ≤ 1 ∧ ∀ d ∈ deltas before.flatten, d.ReachedBy d'

/-! ## Positions -/

/-- The position behind the records `rs`, which come after `lsn`. -/
def endLsn (lsn : ℕ) (rs : List WalRecord) : ℕ := rs.foldl (fun _ r ↦ r.nextRecordLsn.toNat) lsn

/-- The records come in order behind `lsn`. -/
def After : ℕ → List WalRecord → Prop
  | _, [] => True
  | lsn, r :: rs => lsn < r.nextRecordLsn.toNat ∧ After r.nextRecordLsn.toNat rs

section Positions

variable {lsn : ℕ} {rs rs' : List WalRecord}

@[simp] theorem endLsn_append : endLsn lsn (rs ++ rs') = endLsn (endLsn lsn rs) rs' := foldl_append

@[simp] theorem after_append :
    After lsn (rs ++ rs') ↔ After lsn rs ∧ After (endLsn lsn rs) rs' := by
  induction rs generalizing lsn with
  | nil => simp [After, endLsn]
  | cons r rs ih => simp only [cons_append, After, ih, and_assoc, endLsn, foldl_cons]

theorem After.lt (h : After lsn rs) : ∀ r ∈ rs, lsn < r.nextRecordLsn.toNat := by
  induction rs generalizing lsn with
  | nil => simp
  | cons r rs ih =>
    intro x hx
    rcases mem_cons.mp hx with rfl | hx
    · exact h.1
    · exact h.1.trans (ih h.2 x hx)

theorem After.le_endLsn (h : After lsn rs) : lsn ≤ endLsn lsn rs := by
  induction rs generalizing lsn with
  | nil => exact le_rfl
  | cons r rs ih => exact h.1.le.trans (ih h.2)

theorem IsWal.after (h : IsWal rs) : After 0 rs := by
  obtain ⟨hpos, hsorted⟩ := h
  have hall : ∀ lsn, (∀ r ∈ rs, lsn < r.nextRecordLsn.toNat) → After lsn rs := by
    clear hpos
    induction rs with
    | nil => intros; trivial
    | cons r rs ih =>
      intro lsn hlt
      have hrs := pairwise_cons.mp hsorted
      exact ⟨hlt r mem_cons_self, ih hrs.2 _ fun x hx ↦ lt_iff_toNat_lt.mp (hrs.1 x hx)⟩
  exact hall 0 fun r hr ↦ lt_iff_toNat_lt.mp (hpos r hr)

end Positions

/-! ## The stored versions -/

variable (s : OrioleDBColdStartSummary)

def absorbAll (rs : List WalRecord) : OrioleDBColdStartSummary :=
  rs.foldl (fun s r ↦ (r.delta.map (s.absorb · r.nextRecordLsn)).getD s) s

/-- For each OrioleDB record the position of its version, what it holds, and the summary after
it. -/
def rows (s : OrioleDBColdStartSummary) :
    List WalRecord → List (ℕ × (OrioleDbRecordDelta × OrioleDBColdStartSummary))
  | [] => []
  | r :: rs =>
    match r.delta with
    | none => rows s rs
    | some d =>
      (r.nextRecordLsn.toNat, (d, s.absorb d r.nextRecordLsn)) ::
        rows (s.absorb d r.nextRecordLsn) rs

/-- The versions that one `WalIngest` after the other stores. -/
def allRows (history : List (List (List WalRecord))) :
    List (ℕ × (OrioleDbRecordDelta × OrioleDBColdStartSummary)) :=
  history.flatMap fun i ↦ rows {} i.flatten

variable (v : ℕ × (OrioleDbRecordDelta × OrioleDBColdStartSummary))

def packed : ℕ × List UInt8 :=
  (v.1, v.2.2.encodePacked)

/-- The summary takes the records behind `lsn`. -/
def Ready (lsn : ℕ) : Prop := s.lastIngestedLsnRaw.toNat ≤ lsn

variable {r : WalRecord}

section Stored

variable {s : OrioleDBColdStartSummary} {lsn : ℕ} {rs rs' : List WalRecord}

theorem absorbAll_append (s : OrioleDBColdStartSummary) :
    absorbAll s (rs ++ rs') = absorbAll (absorbAll s rs) rs' := foldl_append

theorem rows_append (s : OrioleDBColdStartSummary) :
    rows s (rs ++ rs') = rows s rs ++ rows (absorbAll s rs) rs' := by
  induction rs generalizing s with
  | nil => rfl
  | cons r rs ih =>
    rw [cons_append, rows, rows, absorbAll, foldl_cons]
    cases r.delta with
    | none => exact ih s
    | some d => exact congrArg _ (ih _)

theorem rows_position (hv : v ∈ rows s rs) :
    ∃ r ∈ rs, v.1 = r.nextRecordLsn.toNat ∧ r.delta = some v.2.1 := by
  induction rs generalizing s with
  | nil => cases hv
  | cons r rs ih =>
    rw [rows] at hv
    cases hd : r.delta with
    | none =>
      rw [hd] at hv
      obtain ⟨x, hx, heq⟩ := ih hv
      exact ⟨x, mem_cons_of_mem _ hx, heq⟩
    | some d =>
      rw [hd] at hv
      rcases mem_cons.mp hv with rfl | hv
      · exact ⟨r, mem_cons_self, rfl, hd⟩
      · obtain ⟨x, hx, heq⟩ := ih hv
        exact ⟨x, mem_cons_of_mem _ hx, heq⟩

theorem exists_row {d : OrioleDbRecordDelta} (hr : r ∈ rs) (hd : r.delta = some d) :
    ∃ s', (r.nextRecordLsn.toNat, (d, s')) ∈ rows s rs := by
  obtain ⟨before, after, rfl⟩ := append_of_mem hr
  refine ⟨(absorbAll s before).absorb d r.nextRecordLsn, ?_⟩
  rw [rows_append, rows, hd]
  exact mem_append_right _ mem_cons_self

theorem rows_lt (h : After lsn rs) : ∀ v ∈ rows s rs, lsn < v.1 := by
  intro v hv
  obtain ⟨r, hr, hpos, -⟩ := rows_position v hv
  rw [hpos]
  exact h.lt r hr

theorem rows_ordered (h : After lsn rs) : Versions.Ordered (rows s rs) := by
  induction rs generalizing s lsn with
  | nil => exact .nil
  | cons r rs ih =>
    rw [rows]
    cases r.delta with
    | none => exact ih h.2
    | some d => exact pairwise_cons.mpr ⟨rows_lt h.2, ih h.2⟩

variable {pending : List (ℕ × List UInt8)}

theorem ingestRecord_eq (hready : Ready s lsn)
    (hlt : lsn < r.nextRecordLsn.toNat) (hpending : ∀ v ∈ pending, v.1 ≤ lsn) :
    WalIngest.ingestRecord (⟨s, false⟩, ⟨lsn, pending⟩) r =
      some (⟨absorbAll s [r], false⟩,
        ⟨r.nextRecordLsn.toNat, pending ++ (rows s [r]).map packed⟩) := by
  have hset : (⟨lsn, pending⟩ : Modification).setLsn r.nextRecordLsn.toNat =
      some ⟨r.nextRecordLsn.toNat, pending⟩ := if_neg (by simp only; omega)
  rw [WalIngest.ingestRecord, hset, WalIngest.ingestDelta, absorbAll, foldl_cons, foldl_nil, rows]
  cases r.delta with
  | none => simp [rows]
  | some d =>
    have haccepts : s.ingestDelta d r.nextRecordLsn = .ok (s.absorb d r.nextRecordLsn) := by
      refine if_neg fun hrefused ↦ ?_
      have := UInt64.le_iff_toNat_le.mp hrefused.2
      unfold Ready at hready
      omega
    have hput : ∀ img, put pending r.nextRecordLsn.toNat img =
        pending ++ [(r.nextRecordLsn.toNat, img)] :=
      put_of_lt fun v hv ↦ (hpending v hv).trans_lt hlt
    simp [haccepts, rows, Modification.putOrioledbState, hput, packed]

theorem ready_absorbAll (hready : Ready s lsn) (h : After lsn rs) :
    Ready (absorbAll s rs) (endLsn lsn rs) := by
  induction rs generalizing s lsn with
  | nil => exact hready
  | cons r rs ih =>
    refine ih ?_ h.2
    dsimp only
    cases r.delta with
    | none => exact hready.trans h.1.le
    | some d => exact le_rfl

theorem rows_le_endLsn (h : After lsn rs) : ∀ v ∈ rows s rs, v.1 ≤ endLsn lsn rs := by
  intro v hv
  obtain ⟨r, hr, hpos, -⟩ := rows_position v hv
  obtain ⟨before, after, rfl⟩ := append_of_mem hr
  obtain ⟨-, -, hafter⟩ := after_append.mp h
  rw [hpos, endLsn_append]
  exact hafter.le_endLsn

variable {vs : List (ℕ × List UInt8)}

theorem append_rows_le (h : After lsn rs) (hvs : ∀ v ∈ vs, v.1 ≤ lsn) :
    ∀ v ∈ vs ++ (rows s rs).map packed, v.1 ≤ endLsn lsn rs := by
  intro v hv
  rcases mem_append.mp hv with hv | hv
  · exact (hvs v hv).trans h.le_endLsn
  · obtain ⟨u, hu, rfl⟩ := mem_map.mp hv
    exact rows_le_endLsn h u hu

theorem foldlM_ingestRecord (hready : Ready s lsn)
    (h : After lsn rs) (hpending : ∀ v ∈ pending, v.1 ≤ lsn) :
    rs.foldlM WalIngest.ingestRecord (⟨s, false⟩, ⟨lsn, pending⟩) =
      some (⟨absorbAll s rs, false⟩, ⟨endLsn lsn rs, pending ++ (rows s rs).map packed⟩) := by
  induction rs generalizing s lsn pending with
  | nil => simp [absorbAll, endLsn, rows]
  | cons r rs ih =>
    have hone : After lsn [r] := ⟨h.1, trivial⟩
    have hpending' : ∀ v ∈ pending ++ (rows s [r]).map packed, v.1 ≤ r.nextRecordLsn.toNat :=
      append_rows_le hone hpending
    have hready' : Ready (absorbAll s [r]) r.nextRecordLsn.toNat := ready_absorbAll hready hone
    rw [foldlM_cons, ingestRecord_eq hready h.1 hpending, Option.bind_eq_bind, Option.bind_some,
      ih hready' h.2 hpending', append_assoc, ← map_append, ← rows_append,
      ← absorbAll_append]
    rfl

theorem ingestBatch_eq {l : ℕ} (hready : Ready s lsn)
    (h : After lsn rs) (hvs : ∀ v ∈ vs, v.1 ≤ lsn) :
    ingestBatch ((⟨s, false⟩, ⟨lsn, []⟩), ⟨l, vs⟩) rs =
      some ((⟨absorbAll s rs, false⟩, ⟨endLsn lsn rs, []⟩),
        ⟨endLsn lsn rs, vs ++ (rows s rs).map packed⟩) := by
  have hordered : Versions.Ordered ((rows s rs).map packed) := pairwise_map.mpr (rows_ordered h)
  have hbehind : ∀ v ∈ vs, ∀ w ∈ (rows s rs).map packed, v.1 < w.1 := by
    intro v hv w hw
    obtain ⟨u, hu, rfl⟩ := mem_map.mp hw
    exact (hvs v hv).trans_lt (rows_lt h u hu)
  rw [ingestBatch, foldlM_ingestRecord hready h (by simp)]
  simp only [Option.bind_eq_bind, Option.bind_some, Modification.commit, nil_append,
    foldl_put_of_lt hordered hbehind]

theorem foldlM_ingestBatch {batches : List (List WalRecord)} (hready : Ready s lsn)
    (h : After lsn batches.flatten) (hvs : ∀ v ∈ vs, v.1 ≤ lsn) :
    (batches.foldlM ingestBatch ((⟨s, false⟩, ⟨lsn, []⟩), ⟨lsn, vs⟩)).map Prod.snd =
      some ⟨endLsn lsn batches.flatten, vs ++ (rows s batches.flatten).map packed⟩ := by
  induction batches generalizing s lsn vs with
  | nil => simp [endLsn, rows]
  | cons batch batches ih =>
    obtain ⟨hbatch, hrest⟩ := after_append.mp h
    rw [foldlM_cons, ingestBatch_eq hready hbatch hvs, Option.bind_eq_bind, Option.bind_some,
      ih (ready_absorbAll hready hbatch) hrest (append_rows_le hbatch hvs), flatten_cons,
        endLsn_append, rows_append, map_append, append_assoc]

theorem foldlM_ingestInstance {history : List (List (List WalRecord))}
    (h : After lsn history.flatten.flatten) (hvs : ∀ v ∈ vs, v.1 ≤ lsn) :
    history.foldlM ingestInstance ⟨lsn, vs⟩ =
      some ⟨endLsn lsn history.flatten.flatten,
        vs ++ (allRows history).map packed⟩ := by
  induction history generalizing lsn vs with
  | nil => simp [endLsn, allRows]
  | cons batches history ih =>
    rw [flatten_cons, flatten_append] at h ⊢
    obtain ⟨hbatches, hrest⟩ := after_append.mp h
    have hready : Ready {} lsn := Nat.zero_le _
    rw [foldlM_cons, ingestInstance, foldlM_ingestBatch hready hbatches hvs, Option.bind_eq_bind,
      Option.bind_some,
      ih hrest (append_rows_le hbatches hvs), endLsn_append, append_assoc, ← map_append]
    rfl

end Stored

/-! ## Advancing -/

section Advance

variable {x y : UInt64} {s s' s'' : OrioleDBColdStartSummary} {d : OrioleDbRecordDelta} {lsn : ℕ}

theorem toNat_saturatingSucc (x : UInt64) :
    (saturatingSucc x).toNat = min (x.toNat + 1) 0xFFFFFFFFFFFFFFFF := by
  have hlt := x.toNat_lt
  rw [saturatingSucc]
  split_ifs with hmax
  · subst hmax
    rfl
  · have hne : x.toNat ≠ 0xFFFFFFFFFFFFFFFF := fun h ↦ hmax (UInt64.toNat_inj.mp h)
    rw [UInt64.toNat_add, UInt64.toNat_one]
    omega

theorem toNat_advance_some (next found : UInt64) : (advance next (some found)).toNat =
      max next.toNat (min (found.toNat + 1) 0xFFFFFFFFFFFFFFFF) := by
  rw [← toNat_saturatingSucc, advance]
  split_ifs with hlt
  · have := lt_iff_toNat_lt.mp hlt
    omega
  · have := UInt64.not_lt.mp hlt
    have := UInt64.le_iff_toNat_le.mp this
    omega

theorem le_advance (next : UInt64) (found : Option UInt64) : next ≤ advance next found := by
  rw [UInt64.le_iff_toNat_le]
  cases found with
  | none => exact le_rfl
  | some found =>
    rw [toNat_advance_some]
    exact le_max_left _ _

variable {found : Option UInt64}

theorem lt_advance_iff {next : UInt64} :
    (∀ z ∈ found, z < advance next found) ↔ found ≠ some 0xFFFFFFFFFFFFFFFF := by
  cases found with
  | none => simp
  | some z =>
    have hlt := z.toNat_lt
    have hnext := next.toNat_lt
    have hmax : z = 0xFFFFFFFFFFFFFFFF ↔ z.toNat = 0xFFFFFFFFFFFFFFFF := UInt64.toNat_inj.symm
    simp only [Option.mem_def, Option.some.injEq, forall_eq', ne_eq, hmax, lt_iff_toNat_lt,
      toNat_advance_some]
    omega

theorem lt_advance_zero_iff (hfound : found ≠ some 0xFFFFFFFFFFFFFFFF) :
    x < advance 0 found ↔ ∃ y ∈ found, x ≤ y := by
  cases found with
  | none => simp [advance]
  | some z =>
    have hlt := z.toNat_lt
    have hne : z.toNat ≠ 0xFFFFFFFFFFFFFFFF := fun h ↦
      hfound (congrArg some (UInt64.toNat_inj.mp h))
    simp only [Option.mem_def, Option.some.injEq, exists_eq_left', lt_iff_toNat_lt,
      UInt64.le_iff_toNat_le, toNat_advance_some, UInt64.toNat_zero]
    omega

theorem advance_le_advance {found' : Option UInt64} (h : Reaches found found') :
    advance 0 found ≤ advance 0 found' := by
  rw [UInt64.le_iff_toNat_le]
  cases found with
  | none => exact Nat.zero_le _
  | some x =>
    obtain ⟨y, rfl, hle⟩ := h x rfl
    have := UInt64.le_iff_toNat_le.mp hle
    simp only [toNat_advance_some]
    omega

theorem Advances.trans (h : Advances s s') (h' : Advances s' s'') : Advances s s'' :=
  ⟨UInt64.le_trans h.1 h'.1, UInt64.le_trans h.2.1 h'.2.1, UInt64.le_trans h.2.2 h'.2.2⟩

instance : Trans Advances Advances Advances := ⟨Advances.trans⟩

theorem OrioleDbRecordDelta.CoveredBy.mono (h : d.CoveredBy s) (h' : Advances s s') :
    d.CoveredBy s' := ⟨fun x hx ↦ UInt64.lt_of_lt_of_le (h.1 x hx) h'.1,
    fun x hx ↦ UInt64.lt_of_lt_of_le (h.2 x hx) h'.2.1⟩

theorem coveredBy_absorb_iff {l : UInt64} : d.CoveredBy (s.absorb d l) ↔ d.Bounded :=
  and_congr lt_advance_iff lt_advance_iff

end Advance

/-! ## One `WalIngest` -/

def orioleRecords (rs : List WalRecord) : List (UInt64 × OrioleDbRecordDelta) :=
  rs.filterMap fun r ↦ r.delta.map (r.nextRecordLsn, ·)

def scan (s : OrioleDBColdStartSummary) :
    List (UInt64 × OrioleDbRecordDelta) →
      List (ℕ × (OrioleDbRecordDelta × OrioleDBColdStartSummary))
  | [] => []
  | (l, d) :: xs => (l.toNat, (d, s.absorb d l)) :: scan (s.absorb d l) xs

/-- Positions leave room for the count. -/
def Counted : Prop :=
  s.ingestedCount.toNat ≤ s.lastIngestedLsnRaw.toNat

section Instance

variable {s : OrioleDBColdStartSummary} {l : UInt64} {d : OrioleDbRecordDelta}
  {xs ys : List (UInt64 × OrioleDbRecordDelta)}

theorem rows_eq_scan (s : OrioleDBColdStartSummary) (rs : List WalRecord) :
    rows s rs = scan s (orioleRecords rs) := by
  induction rs generalizing s with
  | nil => rfl
  | cons r rs ih =>
    rw [rows, orioleRecords, filterMap_cons]
    cases r.delta with
    | none => exact ih s
    | some d => exact congrArg _ (ih _)

theorem map_snd_orioleRecords (rs : List WalRecord) :
    (orioleRecords rs).map Prod.snd = deltas rs := by
  rw [orioleRecords, deltas, map_filterMap]
  simp [Option.map_map, Function.comp_def]

/-- The records come in order behind those that the summary has. -/
def Behind (s : OrioleDBColdStartSummary) (xs : List (UInt64 × OrioleDbRecordDelta)) : Prop :=
  (∀ x ∈ xs, s.lastIngestedLsnRaw < x.1) ∧ xs.Pairwise (·.1 < ·.1)

theorem advances_absorb (hs : Counted s) (hl : s.lastIngestedLsnRaw < l) :
    Advances s (s.absorb d l) ∧ Counted (s.absorb d l) := by
  have hlt := lt_iff_toNat_lt.mp hl
  have hl' := l.toNat_lt
  have hcount : (s.ingestedCount + 1).toNat = s.ingestedCount.toNat + 1 := by
    rw [UInt64.toNat_add, UInt64.toNat_one]
    unfold Counted at hs
    omega
  refine ⟨⟨le_advance _ _, le_advance _ _, ?_⟩, ?_⟩
  · rw [UInt64.le_iff_toNat_le]
    exact hcount.symm ▸ Nat.le_succ _
  · unfold Counted at hs ⊢
    simp only [absorb]
    omega

theorem advances_scan (hs : Counted s) (h : Behind s xs) : ∀ v ∈ scan s xs, Advances s v.2.2 := by
  induction xs generalizing s with
  | nil => simp [scan]
  | cons x xs ih =>
    obtain ⟨hadv, hs'⟩ := advances_absorb hs (h.1 x mem_cons_self)
    intro v hv
    rcases mem_cons.mp hv with rfl | hv
    · exact hadv
    · exact hadv.trans (ih hs' (pairwise_cons.mp h.2) v hv)

theorem pairwise_advances_scan (hs : Counted s) (h : Behind s xs) :
    (scan s xs).Pairwise fun v w ↦ Advances v.2.2 w.2.2 := by
  induction xs generalizing s with
  | nil => exact .nil
  | cons x xs ih =>
    obtain ⟨-, hs'⟩ := advances_absorb hs (h.1 x mem_cons_self)
    have hrest : Behind (s.absorb x.2 x.1) xs := pairwise_cons.mp h.2
    exact pairwise_cons.mpr ⟨advances_scan hs' hrest, ih hs' hrest⟩

theorem coveredBy_scan_iff (s : OrioleDBColdStartSummary) :
    (∀ v ∈ scan s xs, v.2.1.CoveredBy v.2.2) ↔ ∀ x ∈ xs, x.2.Bounded := by
  induction xs generalizing s with
  | nil => simp [scan]
  | cons x xs ih => rw [scan, forall_mem_cons, forall_mem_cons, ih, coveredBy_absorb_iff]

variable {d' : OrioleDbRecordDelta}

theorem coveredBy_first_iff (h : d'.Bounded) :
    d.CoveredBy (({} : OrioleDBColdStartSummary).absorb d' l) ↔ d.ReachedBy d' :=
  and_congr (forall₂_congr fun _ _ ↦ lt_advance_zero_iff h.1)
    (forall₂_congr fun _ _ ↦ lt_advance_zero_iff h.2)

theorem advances_first {l' : UInt64} (h : d.ReachedBy d') :
    Advances (({} : OrioleDBColdStartSummary).absorb d l)
      (({} : OrioleDBColdStartSummary).absorb d' l') :=
  ⟨advance_le_advance h.1, advance_le_advance h.2, UInt64.le_refl _⟩

/-- What a later `WalIngest` stores covers what an earlier one has met, if its first record reaches
it. -/
theorem scan_scan_iff (hys : ∀ y ∈ ys, y.2.Bounded) (hys' : Behind {} ys) :
    (∀ v ∈ scan {} xs, ∀ w ∈ scan {} ys, Advances v.2.2 w.2.2 ∧ v.2.1.CoveredBy w.2.2) ↔
      ∀ d' ∈ (ys.map Prod.snd).head?,
        xs.length ≤ 1 ∧ ∀ d ∈ xs.map Prod.snd, d.ReachedBy d' := by
  cases ys with
  | nil => simp [scan]
  | cons y ys =>
    have hy := hys y mem_cons_self
    -- all versions of the later one have advanced from its first
    have hfirst : ∀ w ∈ scan {} (y :: ys),
        w.2.2 = ({} : OrioleDBColdStartSummary).absorb y.2 y.1 ∨
          Advances (({} : OrioleDBColdStartSummary).absorb y.2 y.1) w.2.2 := by
      intro w hw
      rcases mem_cons.mp hw with rfl | hw
      · exact .inl rfl
      · have hs := advances_absorb (d := y.2) (Nat.le_refl _) (hys'.1 y mem_cons_self)
        exact .inr (advances_scan hs.2 (pairwise_cons.mp hys'.2) w hw)
    simp only [map_cons, List.head?_cons, Option.mem_def, Option.some.injEq, forall_eq']
    constructor
    · intro hall
      have hall' := fun v hv ↦ hall v hv _ mem_cons_self
      match xs, hall' with
      | [], _ => simp
      | [x], hall' =>
        have hcovered := (hall' _ mem_cons_self).2
        simpa using (coveredBy_first_iff hy).mp hcovered
      | x :: x' :: _, hall' =>
        -- the second record has been counted as such
        have hcount : (2 : UInt64) ≤ 1 := (hall' _ (mem_cons_of_mem _ mem_cons_self)).1.2.2
        exact absurd hcount (by decide)
    · rintro ⟨hlen, hreached⟩ v hv w hw
      match xs, hlen with
      | [x], _ =>
        obtain rfl := mem_singleton.mp hv
        have hx : x.2.ReachedBy y.2 := hreached _ mem_cons_self
        have hcovered := (coveredBy_first_iff (l := y.1) hy).mpr hx
        rcases hfirst w hw with heq | hadv
        · rw [heq]
          exact ⟨advances_first hx, hcovered⟩
        · exact ⟨(advances_first hx).trans hadv, hcovered.mono hadv⟩

end Instance

/-! ## All of them -/

section History

variable {history : List (List (List WalRecord))} {lsn : ℕ} {wal : List WalRecord}
  {vs : List (ℕ × (OrioleDbRecordDelta × OrioleDBColdStartSummary))}

theorem small_scan {s : OrioleDBColdStartSummary} {xs : List (UInt64 × OrioleDbRecordDelta)}
    (hs : s.Small) : ∀ v ∈ scan s xs, v.2.2.Small := by
  induction xs generalizing s with
  | nil => simp [scan]
  | cons x xs ih =>
    intro v hv
    rcases mem_cons.mp hv with rfl | hv
    · exact hs
    · exact ih (s := s.absorb x.2 x.1) hs v hv

theorem covers_iff_pairwise (hordered : Versions.Ordered vs) (hsmall : ∀ v ∈ vs, v.2.2.Small)
    (hwal : ∀ r ∈ wal, ∀ d ∈ r.delta, ∃ s, (r.nextRecordLsn.toNat, (d, s)) ∈ vs)
    (hvs : ∀ v ∈ vs, ∃ r ∈ wal, v.1 = r.nextRecordLsn.toNat ∧ r.delta = some v.2.1) :
    Covers ⟨lsn, vs.map packed⟩ wal ↔
      (∀ v ∈ vs, v.2.1.CoveredBy v.2.2) ∧
        vs.Pairwise fun v w ↦ Advances v.2.2 w.2.2 ∧ v.2.1.CoveredBy w.2.2 := by
  have hread : (∀ pos, ∀ r ∈ wal, r.nextRecordLsn.toNat ≤ pos → ∀ d ∈ r.delta,
      ∃ bs s, asOf (vs.map packed) pos = some bs ∧ decodePacked bs = .ok s ∧
        d.CoveredBy s) ↔
      ∀ pos, ∀ v ∈ vs, v.1 ≤ pos → ∃ b, asOf vs pos = some b ∧ v.2.1.CoveredBy b.2 := by
    have hasOf : ∀ pos, asOf (vs.map packed) pos =
        (asOf vs pos).map fun b ↦ b.2.encodePacked :=
      asOf_map (fun b : OrioleDbRecordDelta × OrioleDBColdStartSummary ↦ b.2.encodePacked) vs
    constructor
    · intro hall pos v hv hle
      obtain ⟨r, hr, hpos, hd⟩ := hvs v hv
      obtain ⟨bs, s, hbs, hs, hcovered⟩ := hall pos r hr (hpos ▸ hle) _ hd
      rw [hasOf] at hbs
      obtain ⟨b, hb, rfl⟩ := Option.map_eq_some_iff.mp hbs
      obtain ⟨w, hw, -, rfl⟩ := exists_mem_of_asOf hb
      rw [decodePacked_encodePacked _ (hsmall w hw), Except.ok.injEq] at hs
      exact ⟨w.2, hb, hs ▸ hcovered⟩
    · intro hall pos r hr hle d hd
      obtain ⟨s, hs⟩ := hwal r hr d hd
      obtain ⟨b, hb, hcovered⟩ := hall pos _ hs hle
      obtain ⟨w, hw, -, rfl⟩ := exists_mem_of_asOf hb
      exact ⟨_, w.2.2, by rw [hasOf, hb]; rfl, decodePacked_encodePacked _ (hsmall w hw), hcovered⟩
  have hdecoded : (vs.map packed).map (decodePacked ∘ Prod.snd) =
    (vs.map (·.2.2)).map Except.ok := by
    rw [map_map, map_map]
    exact map_congr_left fun v hv ↦ decodePacked_encodePacked _ (hsmall v hv)
  simp only [Covers, Timeline.getOrioledbState, hdecoded, hread,
    forall_asOf_iff hordered fun a b ↦ a.1.CoveredBy b.2]
  constructor
  · rintro ⟨summaries, hmap, hchain, hself, hlater⟩
    have heq : vs.map (·.2.2) = summaries := map_injective_iff.mpr (fun _ _ ↦ Except.ok.inj) hmap
    rw [← heq, isChain_iff_pairwise, pairwise_map] at hchain
    exact ⟨hself, hchain.and hlater⟩
  · rintro ⟨hself, hpair⟩
    refine ⟨_, rfl, ?_, hself, hpair.imp And.right⟩
    rw [isChain_iff_pairwise, pairwise_map]
    exact hpair.imp And.left

theorem allRows_eq (history : List (List (List WalRecord))) :
    allRows history = history.flatMap fun i ↦ scan {} (orioleRecords i.flatten) := by
  simp only [allRows, rows_eq_scan]

theorem mem_flatten_flatten {i : List (List WalRecord)} (hi : i ∈ history) (hr : r ∈ i.flatten) :
    r ∈ history.flatten.flatten := by
  rw [flatten_flatten]
  exact mem_flatten_of_mem (mem_map_of_mem hi) hr

theorem exists_mem_of_mem_flatten (hr : r ∈ history.flatten.flatten) :
    ∃ i ∈ history, r ∈ i.flatten := by
  rw [flatten_flatten] at hr
  obtain ⟨rs, hrs, hr⟩ := mem_flatten.mp hr
  obtain ⟨i, hi, rfl⟩ := mem_map.mp hrs
  exact ⟨i, hi, hr⟩

theorem IsWal.behind (h : IsWal wal) : Behind {} (orioleRecords wal) := by
  refine ⟨fun x hx ↦ ?_, pairwise_filterMap.mpr (h.2.imp fun hlt x hx y hy ↦ ?_)⟩
  · obtain ⟨r, hr, hx⟩ := mem_filterMap.mp hx
    obtain ⟨d, -, rfl⟩ := Option.map_eq_some_iff.mp hx
    exact h.1 r hr
  · obtain ⟨_, -, rfl⟩ := Option.map_eq_some_iff.mp hx
    obtain ⟨_, -, rfl⟩ := Option.map_eq_some_iff.mp hy
    exact hlt

theorem bounded_iff_forall_mem : (∀ d ∈ deltas history.flatten.flatten, d.Bounded) ↔
      ∀ i ∈ history, ∀ x ∈ orioleRecords i.flatten, x.2.Bounded := by
  have hdeltas : deltas history.flatten.flatten = history.flatMap fun i ↦ deltas i.flatten := by
    rw [flatten_flatten, deltas, filterMap_flatten, map_map]
    rfl
  simp only [hdeltas, forall_mem_flatMap, ← map_snd_orioleRecords, forall_mem_map]

theorem coveredBy_allRows_iff : (∀ v ∈ allRows history, v.2.1.CoveredBy v.2.2) ↔
      ∀ d ∈ deltas history.flatten.flatten, d.Bounded := by
  rw [allRows_eq, forall_mem_flatMap, bounded_iff_forall_mem]
  exact forall₂_congr fun i _ ↦ coveredBy_scan_iff {}

section

variable (h : IsWal history.flatten.flatten)
include h

theorem IsWal.instances : (∀ i ∈ history, IsWal i.flatten) ∧ history.Pairwise fun i j ↦
      ∀ r ∈ i.flatten, ∀ r' ∈ j.flatten, r.nextRecordLsn < r'.nextRecordLsn := by
  have hsorted := h.2
  rw [flatten_flatten, pairwise_flatten, pairwise_map] at hsorted
  exact ⟨fun i hi ↦ ⟨fun r hr ↦ h.1 r (mem_flatten_flatten hi hr),
    hsorted.1 _ (mem_map_of_mem hi)⟩, hsorted.2⟩

theorem ordered_allRows : Versions.Ordered (allRows history) := by
  obtain ⟨hinstances, hlt⟩ := h.instances
  refine pairwise_flatMap.mpr ⟨fun i hi ↦ rows_ordered (hinstances i hi).after,
    hlt.imp fun hlt v hv w hw ↦ ?_⟩
  obtain ⟨r, hr, hpos, -⟩ := rows_position v hv
  obtain ⟨r', hr', hpos', -⟩ := rows_position w hw
  rw [hpos, hpos']
  exact lt_iff_toNat_lt.mp (hlt r hr r' hr')

theorem pairwise_allRows_iff (hbounded : ∀ d ∈ deltas history.flatten.flatten, d.Bounded) :
    (allRows history).Pairwise (fun v w ↦ Advances v.2.2 w.2.2 ∧ v.2.1.CoveredBy w.2.2) ↔
      history.Pairwise fun before after ↦ ∀ d' ∈ (deltas after.flatten).head?,
        (deltas before.flatten).length ≤ 1 ∧ ∀ d ∈ deltas before.flatten, d.ReachedBy d' := by
  have hbehind : ∀ i ∈ history, Behind {} (orioleRecords i.flatten) :=
    fun i hi ↦ (h.instances.1 i hi).behind
  have hbounded' := bounded_iff_forall_mem.mp hbounded
  -- one instance alone does no harm
  have hwithin : ∀ i ∈ history, (scan {} (orioleRecords i.flatten)).Pairwise
      fun v w ↦ Advances v.2.2 w.2.2 ∧ v.2.1.CoveredBy w.2.2 := by
    intro i hi
    have hself := (coveredBy_scan_iff {}).mpr (hbounded' i hi)
    refine (pairwise_advances_scan (Nat.le_refl _) (hbehind i hi)).imp_of_mem fun hv _ hadv ↦ ?_
    exact ⟨hadv, (hself _ hv).mono hadv⟩
  rw [allRows_eq, pairwise_flatMap, and_iff_right hwithin]
  refine List.Pairwise.iff_of_mem fun {i j} _ hj ↦ ?_
  rw [scan_scan_iff (hbounded' j hj) (hbehind j hj), map_snd_orioleRecords, map_snd_orioleRecords,
    ← map_snd_orioleRecords i.flatten, length_map]

theorem ingest_eq : ingest history =
      some ⟨endLsn 0 history.flatten.flatten, (allRows history).map packed⟩ := by
  rw [ingest, foldlM_ingestInstance h.after (by simp), nil_append]

end

theorem covers_allRows_iff (history : List (List (List WalRecord)))
    (h : IsWal history.flatten.flatten) :
    Covers ⟨lsn, (allRows history).map packed⟩ history.flatten.flatten ↔ Seamless history := by
  rw [covers_iff_pairwise (ordered_allRows h), coveredBy_allRows_iff]
  · exact and_congr_right fun hbounded ↦ pairwise_allRows_iff h hbounded
  · intro v hv
    rw [allRows_eq] at hv
    obtain ⟨i, -, hv⟩ := mem_flatMap.mp hv
    exact small_scan ⟨Nat.zero_le _, Nat.zero_le _, Nat.zero_le _⟩ v hv
  · intro r hr d hd
    obtain ⟨i, hi, hr⟩ := exists_mem_of_mem_flatten hr
    obtain ⟨s, hs⟩ := exists_row hr hd
    exact ⟨s, mem_flatMap.mpr ⟨i, hi, hs⟩⟩
  · intro v hv
    obtain ⟨i, hi, hv⟩ := mem_flatMap.mp hv
    obtain ⟨r, hr, heq⟩ := rows_position v hv
    exact ⟨r, mem_flatten_flatten hi hr, heq⟩

/-- What is stored covers the whole history if and only if the ingestion was seamless. -/
theorem covers_iff (history : List (List (List WalRecord))) (h : IsWal history.flatten.flatten) :
    ∃ tl, ingest history = some tl ∧ (Covers tl history.flatten.flatten ↔ Seamless history) :=
  ⟨_, ingest_eq h, covers_allRows_iff history h⟩

/-! ## Two runs -/

def xidRecord : WalRecord :=
  ⟨100, some (16 :: 0 :: 0 :: 1 :: (leBytes 8 7 ++ List.replicate 8 0))⟩

def commitRecord : WalRecord :=
  ⟨200, some (16 :: 0 :: 0 :: 2 :: (leBytes 8 7 ++ leBytes 8 12))⟩

theorem isWal_records : IsWal [xidRecord, commitRecord] := by
  simp [IsWal]
  decide

def nextXidRecord : WalRecord :=
  ⟨300, some (16 :: 0 :: 0 :: 1 :: (leBytes 8 9 ++ List.replicate 8 0))⟩

private theorem deltas_xid : deltas [xidRecord] = [{ maxOxidInBody := some 7 }] := by decide +kernel

/-- A reconnection does no harm if the next record has a later transaction. -/
theorem covers_iff_two : ∃ tl, ingest [[[xidRecord]], [[nextXidRecord]]] = some tl ∧
      Covers tl [xidRecord, nextXidRecord] := by
  have hwal : IsWal [xidRecord, nextXidRecord] := by
    simp [IsWal]
    decide
  have hlater : deltas [nextXidRecord] = [{ maxOxidInBody := some 9 }] := by decide +kernel
  obtain ⟨tl, htl, hiff⟩ := covers_iff [[[xidRecord]], [[nextXidRecord]]] hwal
  refine ⟨tl, htl, hiff.mpr ⟨?_, pairwise_pair.mpr fun d' hd' ↦ ?_⟩⟩
  · unfold OrioleDbRecordDelta.Bounded
    decide +kernel
  · cases (congrArg head? hlater).symm.trans hd'
    rw [flatten_singleton, deltas_xid]
    refine ⟨le_rfl, forall_mem_singleton.mpr ⟨fun x hx ↦ ?_, fun x hx ↦ by cases hx⟩⟩
    cases hx
    exact ⟨9, rfl, by decide⟩

/-- A reconnection between the records, and the number of the transaction is lost. -/
theorem exists_not_covers : ∃ history tl, IsWal history.flatten.flatten ∧ ingest history = some tl ∧
      ¬Covers tl history.flatten.flatten := by
  refine ⟨[[[xidRecord]], [[commitRecord]]], _, isWal_records, ingest_eq isWal_records, ?_⟩
  rw [covers_allRows_iff [[[xidRecord]], [[commitRecord]]] isWal_records]
  rintro ⟨-, hpair⟩
  have hlater : deltas [commitRecord] = [{ maxCsnInBody := some 12 }] := by decide +kernel
  have hreached := (pairwise_pair.mp hpair _ (congrArg head? hlater)).2 _
    (deltas_xid ▸ mem_cons_self)
  obtain ⟨_, hnone, -⟩ := hreached.1 7 rfl
  cases hnone

end History

/-! ## Starting from what is stored -/

theorem le_raise (current x : UInt64) : x ≤ raise current x := by
  unfold raise
  split_ifs with h
  · exact UInt64.le_refl x
  · exact UInt64.not_lt.mp h

theorem nextXid_raiseTo (m : XidMeta) (x : UInt64) : (m.raiseTo x).nextXid = raise m.nextXid x := by
  unfold XidMeta.raiseTo raise
  split_ifs <;> rfl

/-- **A compute starts above all that was scanned.** If the ingestion was seamless, a compute that
starts from the summary as of some position, in whatever state, is beyond all transaction and commit
numbers that the scan has found in the WAL up to there. The scan of a record may stop early. -/
theorem startup_above_of_seamless (history : List (List (List WalRecord)))
    (hs : Seamless history) (h : IsWal history.flatten.flatten) :
    ∃ tl, ingest history = some tl ∧ ∀ lsn, ∀ r ∈ history.flatten.flatten,
      r.nextRecordLsn.toNat ≤ lsn → ∀ d ∈ r.delta, ∀ st st',
        applyColdStartSummary (tl.getOrioledbState lsn) st = st' →
          (∀ oxid ∈ d.maxOxidInBody, oxid < st'.xidMeta.nextXid) ∧
            ∀ csn ∈ d.maxCsnInBody, csn < st'.startupCommitSeqNo := by
  refine ⟨_, ingest_eq h, fun lsn r hr hlsn d hd st st' hst ↦ ?_⟩
  obtain ⟨_, -, -, hcovers⟩ := (covers_allRows_iff history h).mpr hs
  obtain ⟨bs, s, hstate, hs, hd⟩ := hcovers lsn r hr hlsn d hd
  rw [hstate, OrioleDBColdStartSummary.applyColdStartSummary_of_decodePacked hs] at hst
  subst hst
  rw [nextXid_raiseTo]
  exact ⟨fun x hx ↦ UInt64.lt_of_lt_of_le (hd.1 x hx) (le_raise _ _),
    fun x hx ↦ UInt64.lt_of_lt_of_le (hd.2 x hx) (le_raise _ _)⟩

/-- A compute that starts behind both records. -/
theorem startup_above_sample : ∃ tl st, ingest [[[xidRecord], [commitRecord]]] = some tl ∧
    7 < (applyColdStartSummary (tl.getOrioledbState 200) st).xidMeta.nextXid ∧
      12 < (applyColdStartSummary (tl.getOrioledbState 200) st).startupCommitSeqNo := by
  have hseamless : Seamless [[[xidRecord], [commitRecord]]] := by
    refine ⟨?_, pairwise_singleton ..⟩
    unfold OrioleDbRecordDelta.Bounded
    decide +kernel
  obtain ⟨tl, htl, habove⟩ := startup_above_of_seamless _ hseamless isWal_records
  have hxid := habove 200 xidRecord mem_cons_self (by decide) _ rfl ⟨⟨3, 3, 3, 3, 3, 3, 3⟩, 4⟩
  have hcommit := habove 200 commitRecord (mem_cons_of_mem _ mem_cons_self) (by decide) _ rfl
    ⟨⟨3, 3, 3, 3, 3, 3, 3⟩, 4⟩
  exact ⟨tl, _, htl, (hxid _ rfl).1 7 (by decide +kernel), (hcommit _ rfl).2 12 (by decide +kernel)⟩

end NeonStorage.OrioleDb
