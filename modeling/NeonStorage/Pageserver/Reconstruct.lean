import NeonStorage.Pageserver.Layer

/-!
# Reconstructing a page from its versions

A read collects versions of a key and hands them to WAL redo. `collect` takes the versions oldest
first and keeps what is needed: the last image, or the last record that initialises the page, and
the records after it. An image at an LSN already has the record of that LSN in it.

The result is a `Page`: nothing is there, the page, or versions from which no page can be made.
`collect_page` says that it is enough to step through the versions one by one.
-/

namespace NeonStorage.Pageserver

variable {Img Rec : Type}

/-- WAL redo: it applies a record to a page, or to none if the record initialises the page. -/
structure WalRedo (Img Rec : Type) where
  willInit : Rec → Bool
  apply : Option Img → ℕ × Rec → Option Img

open WalRedo

abbrev Version (Img Rec : Type) := ℕ × Value Img Rec

def Value.isImage : Value Img Rec → Bool
  | image _ => true
  | walRecord _ => false

variable (w : WalRedo Img Rec)

/-- Whether a read can stop at this version. -/
def Value.willInit (w : WalRedo Img Rec) : Value Img Rec → Bool
  | image _ => true
  | walRecord rec => w.willInit rec

/-- What a read has collected, with the newest record first. -/
structure ValueReconstructState (Img Rec : Type) where
  img : Option (ℕ × Img)
  records : List (ℕ × Rec)

namespace WalRedo

variable (w : WalRedo Img Rec)

/-- Apply the records, oldest first, one after the other. -/
def requestRedo : Option Img → List (ℕ × Rec) → Option Img
  | base, [] => base
  | base, rec :: records => (w.apply base rec).bind fun img ↦ requestRedo (some img) records

def reconstructValue (data : ValueReconstructState Img Rec) : Option Img :=
  match data.records.reverse with
  | [] => data.img.map Prod.snd
  | first :: rest =>
    if data.img.isNone && !w.willInit first.2 then none
    else w.requestRedo (data.img.map Prod.snd) (first :: rest)

/-- What a read keeps of versions that come oldest first, where `imageAt` is the LSN of the last
image among them. -/
def collectFrom : ValueReconstructState Img Rec → Option ℕ → List (Version Img Rec) →
    ValueReconstructState Img Rec
  | st, _, [] => st
  | _, _, (lsn, .image img) :: rest => collectFrom ⟨some (lsn, img), []⟩ (some lsn) rest
  | st, imageAt, (lsn, .walRecord rec) :: rest =>
    if imageAt = some lsn then collectFrom st imageAt rest
    else if w.willInit rec then collectFrom ⟨none, [(lsn, rec)]⟩ imageAt rest
    else collectFrom ⟨st.img, (lsn, rec) :: st.records⟩ imageAt rest

/-- What a read at `lsn` keeps, on top of a base image from the ancestor if there is one. -/
def collect (base : Option (ℕ × Img)) (versions : List (Version Img Rec)) (lsn : ℕ) :
    ValueReconstructState Img Rec :=
  w.collectFrom ⟨base, []⟩ none (versions.filter fun v ↦ decide (v.1 ≤ lsn))

end WalRedo

/-- What can be read of a key: nothing, the page, or versions that do not make a page. -/
inductive Page (Img : Type) where
  | absent
  | here (img : Img)
  | broken
  deriving DecidableEq

namespace Page

def ofRedo : Option Img → Page Img
  | some img => here img
  | none => broken

def step (p : Page Img) (v : Version Img Rec) : Page Img :=
  match v.2 with
  | .image img => here img
  | .walRecord rec =>
    if w.willInit rec then ofRedo (w.apply none (v.1, rec))
    else match p with
      | here img => ofRedo (w.apply (some img) (v.1, rec))
      | _ => broken

def stepFrom (w : WalRedo Img Rec) (p : Page Img) (imageAt : Option ℕ) :
    List (Version Img Rec) → Page Img
  | [] => p
  | (lsn, .image img) :: rest => stepFrom w (here img) (some lsn) rest
  | (lsn, .walRecord rec) :: rest =>
    if imageAt = some lsn then stepFrom w p imageAt rest
    else stepFrom w (p.step w (lsn, .walRecord rec)) imageAt rest

end Page

variable (st : ValueReconstructState Img Rec)

/-- The page that a read makes of what it has collected. -/
def ValueReconstructState.page : Page Img :=
  match st.img, st.records with
  | none, [] => .absent
  | _, _ => .ofRedo (w.reconstructValue st)

def readPage (base : Option (ℕ × Img)) (versions : List (Version Img Rec)) (lsn : ℕ) : Page Img :=
  (w.collect base versions lsn).page w

/-! ## Step by step -/

section Steps

variable {w : WalRedo Img Rec}

open ValueReconstructState (page)
open Page (step ofRedo)

theorem requestRedo_append (base : Option Img) (rs : List (ℕ × Rec)) (hne : rs ≠ []) (r : ℕ × Rec) :
    w.requestRedo base (rs ++ [r]) = (w.requestRedo base rs).bind fun img ↦
      w.apply (some img) r := by
  induction rs generalizing base with
  | nil => exact absurd rfl hne
  | cons first rest ih =>
    rw [List.cons_append, requestRedo, requestRedo, Option.bind_assoc]
    congr 1
    funext img
    cases rest with
    | nil => simp [requestRedo]
    | cons second rest => exact ih (some img) (by simp)

theorem page_push {st : ValueReconstructState Img Rec} {lsn : ℕ} {rec : Rec}
    (hinit : w.willInit rec = false) :
    (⟨st.img, (lsn, rec) :: st.records⟩ : ValueReconstructState Img Rec).page w =
      (st.page w).step w (lsn, .walRecord rec) := by
  obtain ⟨img, records⟩ := st
  cases records with
  | nil =>
    cases img with
    | none =>
      simp [page, reconstructValue, step, hinit, ofRedo]
    | some base =>
      simp [page, reconstructValue, step, hinit, ofRedo, requestRedo]
  | cons last older =>
    -- the oldest record decides whether there is a base, and it is the same for both
    obtain ⟨first, rest, hrev⟩ : ∃ first rest, (last :: older).reverse = first :: rest := by
      cases h : (last :: older).reverse with
      | nil => simp at h
      | cons first rest => exact ⟨first, rest, rfl⟩
    have hpage : ∀ data : ValueReconstructState Img Rec, data.records ≠ [] →
        data.page w = .ofRedo (w.reconstructValue data) := by
      rintro ⟨_ | _, _ | _⟩ h <;> first | rfl | exact absurd rfl h
    rw [hpage _ (by simp), hpage _ (by simp)]
    have hrev' : ((lsn, rec) :: last :: older).reverse = first :: (rest ++ [(lsn, rec)]) := by
      rw [List.reverse_cons, hrev, List.cons_append]
    simp only [reconstructValue, hrev, hrev']
    split_ifs
    · simp [ofRedo, step, hinit]
    · rw [← List.cons_append, requestRedo_append _ _ (by simp)]
      cases w.requestRedo (img.map Prod.snd) (first :: rest) with
      | none => simp [ofRedo, step, hinit]
      | some p => simp [ofRedo, step, hinit]

/-- **Collecting versions and reconstructing the page is stepping through the versions.** -/
theorem collectFrom_page (imageAt : Option ℕ) (versions : List (Version Img Rec)) :
    (w.collectFrom st imageAt versions).page w = (st.page w).stepFrom w imageAt versions := by
  induction versions generalizing st imageAt with
  | nil => rfl
  | cons v rest ih =>
    obtain ⟨lsn, img | rec⟩ := v
    · rw [collectFrom, ih]
      rfl
    · rw [collectFrom, Page.stepFrom]
      by_cases hat : imageAt = some lsn
      · rw [if_pos hat, if_pos hat, ih]
      · rw [if_neg hat, if_neg hat]
        by_cases hinit : w.willInit rec = true
        · rw [if_pos hinit, ih]
          simp [page, reconstructValue, step, hinit, requestRedo]
        · rw [if_neg hinit, ih, page_push (by simpa using hinit)]

end Steps

end NeonStorage.Pageserver
