import Mathlib.Data.List.TakeWhile
import NeonStorage.Pageserver.Compaction.KeyRetention

/-!
# gc-compaction keeps every retained version

Both the full history and what is kept of it are read by stepping through versions
(`Page.stepFrom`). Without duplicates that is a plain fold of `Page.step`, and the comparison goes
piece by piece: the running history of `generate_key_retention` always folds to the page at the end
of the last piece (`Agrees`), so an image produced from it may stand for the piece.
-/

namespace NeonStorage.Pageserver

open List hiding dedup
open Page Option
variable {Img Rec : Type} {w : WalRedo Img Rec} {l : List (Version Img Rec)}

/-- A history as the merge iterator gives it: in order of LSN, an image before a record of the same
LSN, and each image the page at its LSN. -/
structure WellFormedHistory (w : WalRedo Img Rec) (base : Option (ℕ × Img))
    (history : List (Version Img Rec)) : Prop where
  sorted : history.Pairwise fun a b ↦ a.1 ≤ b.1
  imageFirst : history.Pairwise fun a b ↦ a.1 = b.1 → a.2.isImage
  images : ∀ lsn img, (lsn, .image img) ∈ history → readPage w base history lsn = .here img

namespace KeyRetention

/-! ## Reading without duplicates -/

theorem stepFrom_eq_foldl (p : Page Img) (imageAt : Option ℕ)
    (hl : l.Pairwise fun a b ↦ a.1 = b.1 → b.2.isImage)
    (hat : ∀ v ∈ l, imageAt = some v.1 → v.2.isImage) :
    p.stepFrom w imageAt l = l.foldl (step w) p := by
  induction l generalizing p imageAt with
  | nil => rfl
  | cons v rest ih =>
    obtain ⟨hv, hrest⟩ := pairwise_cons.mp hl
    obtain ⟨lsn, img | rec⟩ := v
    · exact ih _ _ hrest fun u hu h ↦ hv u hu (Option.some.inj h)
    · rw [stepFrom, if_neg]
      · exact ih _ _ hrest (forall_mem_cons.mp hat).2
      · intro h
        exact Bool.false_ne_true (hat _ mem_cons_self h)

/-- Dropping what shares its LSN with the version before does not change what is read. -/
theorem stepFrom_eq_foldl_dedupFrom (p : Page Img) (imageAt prev : Option ℕ)
    (hsorted : l.Pairwise fun a b ↦ a.1 ≤ b.1)
    (hfirst : l.Pairwise fun a b ↦ a.1 = b.1 → a.2.isImage)
    (hsame : ∀ lsn i j, (lsn, .image i) ∈ l → (lsn, .image j) ∈ l → i = j)
    (hle : ∀ lsn, prev = some lsn → ∀ v ∈ l, lsn ≤ v.1) (hprev : ∀ v ∈ l, prev = some v.1 →
      imageAt = some v.1 ∧ ∀ i, v.2 = .image i → p = .here i)
    (hat : ∀ v ∈ l, imageAt = some v.1 → prev = some v.1) :
    p.stepFrom w imageAt l = (dedupFrom prev l).foldl (step w) p := by
  induction l generalizing p imageAt prev with
  | nil => rfl
  | cons v rest ih =>
    obtain ⟨hv, hrest⟩ := pairwise_cons.mp hsorted
    obtain ⟨hvi, hresti⟩ := pairwise_cons.mp hfirst
    have hsame' : ∀ lsn i j, (lsn, .image i) ∈ rest → (lsn, .image j) ∈ rest → i = j :=
      fun lsn i j hi hj ↦ hsame lsn i j (mem_cons_of_mem _ hi) (mem_cons_of_mem _ hj)
    rw [dedupFrom]
    by_cases hp : prev = some v.1
    · rw [if_pos hp]
      obtain ⟨hat', himg⟩ := hprev v mem_cons_self hp
      have hskip : p.stepFrom w imageAt (v :: rest) = p.stepFrom w imageAt rest := by
        obtain ⟨lsn, img | rec⟩ := v
        · rw [stepFrom, himg img rfl, hat']
        · rw [stepFrom, if_pos hat']
      rw [hskip]
      exact ih p imageAt prev hrest hresti hsame'
        (fun lsn h u hu ↦ hle lsn h u (mem_cons_of_mem _ hu))
        (forall_mem_cons.mp hprev).2
        (forall_mem_cons.mp hat).2
    · rw [if_neg hp]
      have hle' : ∀ lsn, some v.1 = some lsn → ∀ u ∈ rest, lsn ≤ u.1 := by
        rintro _ ⟨rfl⟩ u hu
        exact hv u hu
      obtain ⟨lsn, img | rec⟩ := v
      · refine ih _ _ _ hrest hresti hsame' hle' (fun u hu h ↦ ⟨h, fun i hi ↦ ?_⟩) fun u hu h ↦ h
        obtain ⟨ul, uv⟩ := u
        cases h
        obtain rfl : uv = .image i := hi
        rw [hsame lsn img i mem_cons_self (mem_cons_of_mem _ hu)]
      · have hskip : imageAt ≠ some lsn := fun h ↦ hp (hat _ mem_cons_self h)
        rw [stepFrom, if_neg hskip]
        refine ih _ _ _ hrest hresti hsame' hle' (fun u hu h ↦ ?_) fun u hu h ↦ ?_
        · exact absurd (hvi u hu (Option.some.inj h)) Bool.false_ne_true
        · -- the last image would be between the version before and this one
          have hpu := hat u (mem_cons_of_mem _ hu) h
          have h₁ := hle u.1 hpu (lsn, .walRecord rec) mem_cons_self
          have h₂ := hv u hu
          rw [le_antisymm h₂ h₁]

variable (prev : Option ℕ)

theorem dedupFrom_sublist (l : List (Version Img Rec)) : (dedupFrom prev l).Sublist l := by
  induction l generalizing prev with
  | nil => exact .refl _
  | cons v rest ih =>
    rw [dedupFrom]
    split_ifs
    · exact (ih prev).cons _
    · exact (ih _).cons_cons _

theorem dedupFrom_pairwise (hsorted : l.Pairwise fun a b ↦ a.1 ≤ b.1)
    (hle : ∀ lsn, prev = some lsn → ∀ v ∈ l, lsn ≤ v.1) :
    (dedupFrom prev l).Pairwise (fun a b ↦ a.1 < b.1) ∧
      ∀ lsn, prev = some lsn → ∀ v ∈ dedupFrom prev l, lsn < v.1 := by
  induction l generalizing prev with
  | nil => simp [dedupFrom]
  | cons v rest ih =>
    obtain ⟨hv, hrest⟩ := pairwise_cons.mp hsorted
    rw [dedupFrom]
    split_ifs with hp
    · exact ih prev hrest fun lsn h u hu ↦ hle lsn h u (mem_cons_of_mem _ hu)
    · obtain ⟨hpair, hlt⟩ := ih (some v.1) hrest (by rintro _ ⟨rfl⟩ u hu; exact hv u hu)
      refine ⟨pairwise_cons.mpr ⟨hlt v.1 rfl, hpair⟩, ?_⟩
      rintro lsn rfl u hu
      have hlv := hle lsn rfl v mem_cons_self
      have hne : lsn ≠ v.1 := fun h ↦ hp (congrArg some h)
      rcases mem_cons.mp hu with rfl | hu
      · omega
      · have := hlt v.1 rfl u hu
        omega

/-! ## The running history -/

/-- Behind a version that a read can stop at, it does not matter what was there before. -/
theorem foldl_step_congr (h : l.any (fun v ↦ v.2.willInit w))
    (p q : Page Img) : l.foldl (step w) p = l.foldl (step w) q := by
  induction l generalizing p q with
  | nil => simp at h
  | cons v rest ih =>
    rw [foldl_cons, foldl_cons]
    by_cases hrest : rest.any (fun v ↦ v.2.willInit w)
    · exact ih hrest _ _
    · have hv : v.2.willInit w = true := by simpa [hrest] using h
      obtain ⟨lsn, img | rec⟩ := v
      · rfl
      · have hrec : w.willInit rec = true := hv
        simp [step, hrec]

theorem foldl_sinceLastInit (l : List (Version Img Rec)) (p : Page Img) :
    (sinceLastInit w l).foldl (step w) p = l.foldl (step w) p := by
  induction l generalizing p with
  | nil => rfl
  | cons v rest ih =>
    rw [sinceLastInit]
    split_ifs with h
    · rw [ih]
      exact foldl_step_congr h _ _
    · rfl

variable {v : Version Img Rec}

theorem sinceLastInit_cons {l rest : List (Version Img Rec)}
    (h : sinceLastInit w l = v :: rest) : rest.any (fun v ↦ v.2.willInit w) = false := by
  induction l with
  | nil => cases h
  | cons u rest' ih =>
    rw [sinceLastInit] at h
    split_ifs at h with hinit
    · exact ih h
    · cases h
      simpa using hinit

theorem sinceLastInit_eq_nil : sinceLastInit w l = [] ↔ l = [] := by
  refine ⟨fun h ↦ ?_, by rintro rfl; rfl⟩
  induction l with
  | nil => rfl
  | cons v rest ih =>
    rw [sinceLastInit] at h
    split_ifs at h with hinit
    simp [ih h] at hinit

theorem walRecords_page {rs : List (ℕ × Rec)}
    (h : walRecords l = some rs) (hl : l.any (fun v ↦ v.2.willInit w) = false)
    (st : ValueReconstructState Img Rec) :
    (⟨st.img, rs.reverse ++ st.records⟩ : ValueReconstructState Img Rec).page w =
      l.foldl (step w) (st.page w) := by
  induction l generalizing rs st with
  | nil =>
    cases h
    rfl
  | cons v rest ih =>
    obtain ⟨lsn, img | rec⟩ := v
    · cases h
    · obtain ⟨rs', hrs', rfl⟩ := map_eq_some_iff.mp h
      simp only [any_cons, Bool.or_eq_false_iff] at hl
      have := ih hrs' hl.2 ⟨st.img, (lsn, rec) :: st.records⟩
      rw [foldl_cons, ← page_push hl.1, ← this]
      simp

variable {data : ValueReconstructState Img Rec}

theorem reconstructState_page {rest : List (Version Img Rec)}
    (h : reconstructState (v :: rest) = some data) (hv : v.2.willInit w)
    (hrest : rest.any (fun v ↦ v.2.willInit w) = false) :
    data.page w = (v :: rest).foldl (step w) .absent := by
  obtain ⟨lsn, img | rec⟩ := v
  · obtain ⟨rs, hrs, rfl⟩ := map_eq_some_iff.mp h
    have := walRecords_page hrs hrest ⟨some (lsn, img), []⟩
    rw [append_nil] at this
    rw [this]
    rfl
  · obtain ⟨rs, hrs, rfl⟩ := map_eq_some_iff.mp h
    obtain ⟨rs', hrs', rfl⟩ := map_eq_some_iff.mp hrs
    have := walRecords_page hrs' hrest ⟨none, [(lsn, rec)]⟩
    rw [reverse_cons, this, foldl_cons]
    have hrec : w.willInit rec = true := hv
    simp [ValueReconstructState.page, WalRedo.reconstructValue, step, hrec, WalRedo.requestRedo]

theorem page_of_reconstructValue {img : Img} (h : w.reconstructValue data = some img) :
    data.page w = .here img := by
  obtain ⟨_ | base, _ | rs⟩ := data
  · simp [WalRedo.reconstructValue] at h
  all_goals simp [ValueReconstructState.page, h, ofRedo]

/-- The running history makes the page `p`. -/
def Agrees (w : WalRedo Img Rec) (st : Running Img Rec) (p : Page Img) : Prop :=
  st.replayHistory.foldl (step w) .absent = p

variable {st : Running Img Rec}

/-- **One piece.** What is carried on agrees with the page at the end of the piece, and what is kept
of the piece makes that page. -/
theorem retainPiece_spec {threshold requestLsn : ℕ} {hasAncestor first last : Bool}
    {st' : Running Img Rec} {split logs : List (Version Img Rec)} {p : Page Img}
    (h : retainPiece w threshold hasAncestor first last requestLsn st split = some (st', logs))
    (hp : Agrees w st p) : Agrees w st' (split.foldl (step w) p) ∧
      logs.foldl (step w) p = split.foldl (step w) p ∧
      (logs = split ∨ (last → first) ∧ ∃ img, logs = [(requestLsn, .image img)]) := by
  have hall : (sinceLastInit w (st.replayHistory ++ split)).foldl (step w) .absent =
      split.foldl (step w) p := by
    rw [foldl_sinceLastInit, foldl_append, hp]
  unfold retainPiece at h
  dsimp only at h
  split at h
  · rename_i hnil
    split_ifs at h
    obtain ⟨-, rfl⟩ := append_eq_nil_iff.mp (sinceLastInit_eq_nil.mp hnil)
    cases h
    rw [hnil] at hall
    exact ⟨hall, rfl, .inl rfl⟩
  · rename_i v rest hcons
    split_ifs at h with hinit himg
    · obtain ⟨data, hdata, h⟩ := bind_eq_some_iff.mp h
      obtain ⟨img, himg', h⟩ := bind_eq_some_iff.mp h
      cases h
      -- the image is the page that the running history makes
      have hpage : split.foldl (step w) p = .here img := by
        rw [← hall, hcons, ← page_of_reconstructValue himg']
        rw [hcons] at hdata
        exact (reconstructState_page hdata (by simpa using hinit) (sinceLastInit_cons hcons)).symm
      refine ⟨?_, ?_, .inr ⟨fun hlast ↦ by simp_all [produceImage], img, rfl⟩⟩
      · rw [hpage]
        rfl
      · rw [hpage]
        rfl
    · cases h
      exact ⟨hall, rfl, .inl rfl⟩

/-! ## Piece by piece -/

theorem dedupFrom_append {a b : List (Version Img Rec)} (hab : ∀ u ∈ a, ∀ v ∈ b, u.1 ≠ v.1)
    (hprev : ∀ v ∈ b, prev ≠ some v.1) :
    dedupFrom prev (a ++ b) = dedupFrom prev a ++ dedupFrom none b := by
  induction a generalizing prev with
  | nil =>
    cases b with
    | nil => rfl
    | cons v rest => simp [dedupFrom, hprev v mem_cons_self]
  | cons u rest ih =>
    have hrest := (forall_mem_cons.mp hab).2
    rw [cons_append, dedupFrom, dedupFrom]
    split_ifs
    · exact ih prev hrest hprev
    · rw [ih (some u.1) hrest fun v hv h ↦ hab u mem_cons_self v hv (Option.some.inj h)]
      rfl

variable {h : List (Version Img Rec)}

theorem sorted_split (hsorted : h.Pairwise fun a b ↦ a.1 ≤ b.1)
    (q : ℕ) : (∀ v ∈ h.takeWhile fun v ↦ decide (v.1 ≤ q), v.1 ≤ q) ∧
      ∀ v ∈ h.dropWhile fun v ↦ decide (v.1 ≤ q), q < v.1 := by
  refine ⟨fun v hv ↦ by simpa using mem_takeWhile_imp hv, ?_⟩
  induction h with
  | nil => simp
  | cons u rest ih =>
    obtain ⟨hu, hrest⟩ := pairwise_cons.mp hsorted
    rw [dropWhile_cons]
    split_ifs with huq
    · exact ih hrest
    · have huq : q < u.1 := by simpa using huq
      intro v hv
      rcases mem_cons.mp hv with rfl | hv
      · exact huq
      · exact huq.trans_le (hu v hv)

private theorem filter_eq_self_of_le {T : ℕ}
    (h : ∀ v ∈ l, v.1 ≤ T) : l.filter (fun v ↦ decide (v.1 ≤ T)) = l :=
  filter_eq_self.mpr fun v hv ↦ decide_eq_true (h v hv)

private theorem filter_eq_nil_of_lt {T : ℕ}
    (h : ∀ v ∈ l, T < v.1) : l.filter (fun v ↦ decide (v.1 ≤ T)) = [] :=
  filter_eq_nil_iff.mpr fun v hv ↦ by simpa using h v hv

/-- **All pieces.** What is kept are versions of the history and images at the points; it reads like
the history at every point and above all of them. The induction is on the points. -/
theorem retain_spec {threshold : ℕ} {hasAncestor first : Bool} {points : List ℕ} {p : Page Img}
    {r : KeyHistoryRetention Img Rec} (hfirst : points = [] → first = false)
    (hpoints : points.Pairwise (· ≤ ·)) (hsorted : h.Pairwise fun a b ↦ a.1 ≤ b.1)
    (hp : Agrees w st p)
    (hr : retain w threshold hasAncestor first st points ((splitHistory points h).map dedup) =
      some r) : (∀ v ∈ r.versions, v ∈ h ∨ v.1 ∈ points ∧ v.2.isImage) ∧
      (r.versions.Pairwise fun a b ↦ a.1 = b.1 → b.2.isImage) ∧
      ∀ T, (T ∈ points ∨ ∀ q ∈ points, q ≤ T) →
        (r.versions.filter fun v ↦ decide (v.1 ≤ T)).foldl (step w) p =
          ((dedup h).filter fun v ↦ decide (v.1 ≤ T)).foldl (step w) p := by
  induction points generalizing first h st p r with
  | nil =>
    rw [hfirst rfl, splitHistory, map_cons, map_nil] at hr
    obtain ⟨⟨st', logs⟩, hlogs, hr⟩ := bind_eq_some_iff.mp hr
    cases hr
    obtain ⟨-, -, rfl | ⟨himg, -⟩⟩ := retainPiece_spec hlogs hp
    swap
    · cases himg rfl
    refine ⟨fun v hv ↦ .inl ((dedupFrom_sublist none h).subset hv), ?_, fun T _ ↦ rfl⟩
    exact (dedupFrom_pairwise none hsorted (by simp)).1.imp fun hlt heq ↦ absurd heq hlt.ne
  | cons q points ih =>
    obtain ⟨⟨st', logs⟩, hlogs, hr⟩ := bind_eq_some_iff.mp hr
    obtain ⟨r', hr', hr⟩ := bind_eq_some_iff.mp hr
    cases hr
    obtain ⟨hq, hpoints'⟩ := pairwise_cons.mp hpoints
    obtain ⟨hbelow, habove⟩ := sorted_split hsorted q
    have hcat := takeWhile_append_dropWhile (p := fun v : Version Img Rec ↦ decide (v.1 ≤ q))
      (l := h)
    generalize h.takeWhile (fun v ↦ decide (v.1 ≤ q)) = low at *
    generalize h.dropWhile (fun v ↦ decide (v.1 ≤ q)) = high at *
    subst hcat
    obtain ⟨hsortedLow, hsortedHigh, -⟩ := pairwise_append.mp hsorted
    obtain ⟨hagree, hpage, hshape⟩ := retainPiece_spec hlogs hp
    obtain ⟨hmem, hpair, hread⟩ := ih (fun _ ↦ rfl) hpoints' hsortedHigh hagree hr'
    have hdedup : ∀ v ∈ dedup low, v.1 ≤ q := fun v hv ↦
      hbelow v ((dedupFrom_sublist none low).subset hv)
    have hlogsq : ∀ v ∈ logs, v.1 ≤ q := by
      rcases hshape with rfl | ⟨-, img, rfl⟩
      · exact hdedup
      · simp
    have hversions : (⟨(q, logs) :: r'.belowHorizon, r'.aboveHorizon⟩ :
        KeyHistoryRetention Img Rec).versions = logs ++ r'.versions := by
      simp [KeyHistoryRetention.versions]
    rw [hversions]
    refine ⟨fun v hv ↦ ?_, ?_, fun T hT ↦ ?_⟩
    · rcases mem_append.mp hv with hv | hv
      · rcases hshape with rfl | ⟨-, img, rfl⟩
        · exact .inl (mem_append_left _ ((dedupFrom_sublist none low).subset hv))
        · rw [mem_singleton.mp hv]
          exact .inr ⟨mem_cons_self, rfl⟩
      · rcases hmem v hv with hv | ⟨hv, himg⟩
        · exact .inl (mem_append_right _ hv)
        · exact .inr ⟨mem_cons_of_mem _ hv, himg⟩
    · refine pairwise_append.mpr ⟨?_, hpair, fun a ha b hb hab ↦ ?_⟩
      · rcases hshape with rfl | ⟨-, img, rfl⟩
        · exact (dedupFrom_pairwise none hsortedLow (by simp)).1.imp fun hlt heq ↦ absurd heq hlt.ne
        · exact pairwise_singleton _ _
      · rcases hmem b hb with hb | hb
        · have := hlogsq a ha
          have := habove b hb
          omega
        · exact hb.2
    · have hqT : q ≤ T := by
        rcases hT with hT | hT
        · rcases mem_cons.mp hT with rfl | hT
          · exact le_rfl
          · exact hq T hT
        · exact hT q mem_cons_self
      have happ : dedup (low ++ high) = dedup low ++ dedup high := by
        refine dedupFrom_append none (fun u hu v hv heq ↦ ?_) (by simp)
        have := hbelow u hu
        have := habove v hv
        omega
      rw [happ, filter_append, filter_append, foldl_append, foldl_append,
        filter_eq_self_of_le fun v hv ↦ (hlogsq v hv).trans hqT,
        filter_eq_self_of_le fun v hv ↦ (hdedup v hv).trans hqT, hpage]
      by_cases hT' : T ∈ points ∨ ∀ q ∈ points, q ≤ T
      · exact hread T hT'
      · -- `T` is the end of this piece and of no later one, so all that is kept later is above it
        have hTq : T = q := by
          rcases hT with hT | hT
          · exact (mem_cons.mp hT).resolve_right fun h ↦ hT' (.inl h)
          · exact absurd (.inr fun q' hq' ↦ hT q' (mem_cons_of_mem _ hq')) hT'
        have hkept : ∀ v ∈ r'.versions, T < v.1 := by
          intro v hv
          rcases hmem v hv with hv | ⟨hv, -⟩
          · exact hTq ▸ habove v hv
          · have hne : v.1 ≠ T := fun h ↦ hT' (.inl (h ▸ hv))
            have := hq v.1 hv
            omega
        rw [filter_eq_nil_of_lt hkept, filter_eq_nil_of_lt fun v hv ↦
          hTq ▸ habove v ((dedupFrom_sublist none high).subset hv)]

/-- In a history in order, dropping duplicates and cutting at an LSN commute. -/
theorem dedupFrom_filter (hsorted : l.Pairwise fun a b ↦ a.1 ≤ b.1) (T : ℕ) :
    dedupFrom prev (l.filter fun v ↦ decide (v.1 ≤ T)) =
      (dedupFrom prev l).filter fun v ↦ decide (v.1 ≤ T) := by
  induction l generalizing prev with
  | nil => rfl
  | cons v rest ih =>
    obtain ⟨hv, hrest⟩ := pairwise_cons.mp hsorted
    by_cases hvT : v.1 ≤ T
    · rw [filter_cons_of_pos (by simpa using hvT), dedupFrom, dedupFrom]
      split_ifs
      · exact ih prev hrest
      · rw [filter_cons_of_pos (by simpa using hvT), ih (some v.1) hrest]
    · have hall : ∀ u ∈ v :: rest, T < u.1 := by
        intro u hu
        rcases mem_cons.mp hu with rfl | hu
        · omega
        · have := hv u hu
          omega
      rw [filter_eq_nil_of_lt hall, filter_eq_nil_of_lt fun u hu ↦
        hall u ((dedupFrom_sublist prev (v :: rest)).subset hu)]
      rfl

end KeyRetention

open KeyRetention

/-- **Every retained version can still be read.** At each retain LSN, at the horizon and at every
LSN above it, what is kept of a history reads like the history: the same page, or nothing in
both. -/
theorem generateKeyRetention_reads (w : WalRedo Img Rec) {history : List (Version Img Rec)}
    {horizon : ℕ} {retainLsnBelowHorizon : List ℕ} {deltaThresholdCnt : ℕ}
    {baseImgFromAncestor : Option (ℕ × Img)} {verification : Bool} {r : KeyHistoryRetention Img Rec}
    (hhistory : WellFormedHistory w baseImgFromAncestor history)
    (hsorted : retainLsnBelowHorizon.Pairwise (· ≤ ·))
    (hbelow : ∀ lsn ∈ retainLsnBelowHorizon, lsn < horizon)
    (hr : generateKeyRetention w history horizon retainLsnBelowHorizon deltaThresholdCnt
      baseImgFromAncestor verification = some r)
    {lsn : ℕ} (hlsn : lsn ∈ retainLsnBelowHorizon ∨ horizon ≤ lsn) :
    readPage w baseImgFromAncestor r.versions lsn =
      readPage w baseImgFromAncestor history lsn := by
  obtain ⟨r', hr', hr⟩ := bind_eq_some_iff.mp hr
  obtain rfl : r' = r := by
    split_ifs at hr
    exact Option.some.inj hr
  have hpoints : (retainLsnBelowHorizon ++ [horizon]).Pairwise (· ≤ ·) :=
    pairwise_append.mpr ⟨hsorted, pairwise_singleton _ _, fun a ha b hb ↦
      mem_singleton.mp hb ▸ (hbelow a ha).le⟩
  have hbase : Agrees w ⟨0, baseHistory baseImgFromAncestor, false⟩
      ((⟨baseImgFromAncestor, []⟩ : ValueReconstructState Img Rec).page w) := by
    cases baseImgFromAncestor <;> rfl
  obtain ⟨-, hpair, hread⟩ := retain_spec (by simp) hpoints hhistory.sorted hbase hr'
  have hT : lsn ∈ retainLsnBelowHorizon ++ [horizon] ∨
      ∀ q ∈ retainLsnBelowHorizon ++ [horizon], q ≤ lsn := by
    rcases hlsn with hlsn | hlsn
    · exact .inl (mem_append_left _ hlsn)
    · refine .inr fun q hq ↦ ?_
      rcases mem_append.mp hq with hq | hq
      · exact (hbelow q hq).le.trans hlsn
      · exact (mem_singleton.mp hq).le.trans hlsn
  unfold readPage WalRedo.collect
  rw [collectFrom_page, collectFrom_page, stepFrom_eq_foldl _ _ (hpair.filter _) (by simp),
    hread lsn hT, dedup, ← dedupFrom_filter none hhistory.sorted]
  refine (stepFrom_eq_foldl_dedupFrom _ none none (hhistory.sorted.filter _)
    (hhistory.imageFirst.filter _) (fun l i j hi hj ↦ ?_) (by simp) (by simp) (by simp)).symm
  have h₁ := hhistory.images l i (mem_filter.mp hi).1
  have h₂ := hhistory.images l j (mem_filter.mp hj).1
  rw [h₁] at h₂
  exact Page.here.inj h₂

/-- Pages are numbers and records are added to them. -/
private def sampleRedo : WalRedo ℕ ℕ := ⟨fun _ ↦ false, fun base rec ↦ base.map (· + rec.2)⟩

private def sampleHistory : List (Version ℕ ℕ) :=
  [(10, .image 1), (20, .image 3), (20, .walRecord 2), (30, .walRecord 3), (40, .walRecord 4)]

theorem generateKeyRetention_reads_sample :
    ∃ r, generateKeyRetention sampleRedo sampleHistory 30 [20] 5 none true = some r ∧
      r.versions = [(20, .image 3), (30, .walRecord 3), (40, .walRecord 4)] ∧
      readPage sampleRedo none r.versions 20 = readPage sampleRedo none sampleHistory 20 := by
  have hhistory : WellFormedHistory sampleRedo none sampleHistory := by
    refine ⟨by decide, by decide, fun lsn img h ↦ ?_⟩
    simp only [sampleHistory, mem_cons, Prod.mk.injEq, Value.image.injEq, reduceCtorEq,
      and_false, not_mem_nil, or_false] at h
    rcases h with ⟨rfl, rfl⟩ | ⟨rfl, rfl⟩ <;> rfl
  have hr : generateKeyRetention sampleRedo sampleHistory 30 [20] 5 none true =
      some ⟨[(20, [(20, .image 3)]), (30, [(30, .walRecord 3)])], [(40, .walRecord 4)]⟩ := rfl
  exact ⟨_, hr, rfl, generateKeyRetention_reads sampleRedo hhistory (pairwise_singleton _ _)
    (by decide) hr (.inl mem_cons_self)⟩

end NeonStorage.Pageserver
