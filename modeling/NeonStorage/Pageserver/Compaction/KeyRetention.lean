import NeonStorage.Pageserver.Reconstruct

/-!
# What gc-compaction keeps of a key

`generate_key_retention` cuts the history of a key at the LSNs that must stay readable (the retain
LSNs and the horizon), drops the records that an image of the same LSN has in it already, and goes
through the pieces with a running history of what a read would need. Where it produces an image, the
piece is replaced by that image, stamped with the end of the piece; above the horizon nothing
changes.
-/

namespace NeonStorage.Pageserver

variable {Img Rec : Type}

structure KeyHistoryRetention (Img Rec : Type) where
  /-- For each LSN to retain, the horizon last, the log up to it. -/
  belowHorizon : List (ℕ × List (Version Img Rec))
  aboveHorizon : List (Version Img Rec)

def KeyHistoryRetention.versions (r : KeyHistoryRetention Img Rec) : List (Version Img Rec) :=
  (r.belowHorizon.flatMap fun b ↦ b.2) ++ r.aboveHorizon

variable (w : WalRedo Img Rec)

namespace KeyRetention

def splitHistory : List ℕ → List (Version Img Rec) → List (List (Version Img Rec))
  | [], history => [history]
  | p :: points, history =>
    history.takeWhile (fun v ↦ decide (v.1 ≤ p)) ::
      splitHistory points (history.dropWhile fun v ↦ decide (v.1 ≤ p))

/-- Drop the versions at the LSN of the version before; `prevLsn` is that LSN. -/
def dedupFrom (prevLsn : Option ℕ) : List (Version Img Rec) → List (Version Img Rec)
  | [] => []
  | v :: rest =>
    if prevLsn = some v.1 then dedupFrom prevLsn rest else v :: dedupFrom (some v.1) rest

/-- Filter out duplicates due to the merge of image and delta layers. -/
def dedup (split : List (Version Img Rec)) : List (Version Img Rec) := dedupFrom none split

/-- The versions from the last one on that a read can stop at, all if there is none. -/
def sinceLastInit (w : WalRedo Img Rec) : List (Version Img Rec) → List (Version Img Rec)
  | [] => []
  | v :: rest => if rest.any (fun v ↦ v.2.willInit w) then sinceLastInit w rest else v :: rest

def walRecords : List (Version Img Rec) → Option (List (ℕ × Rec))
  | [] => some []
  | (_, .image _) :: _ => none
  | (lsn, .walRecord rec) :: rest => (walRecords rest).map ((lsn, rec) :: ·)

/-- What WAL redo gets for a running history: the image it begins with, if any, and records. -/
def reconstructState (history : List (Version Img Rec)) : Option (ValueReconstructState Img Rec) :=
  match history with
  | (lsn, .image img) :: rest => (walRecords rest).map fun rs ↦ ⟨some (lsn, img), rs.reverse⟩
  | _ => (walRecords history).map fun rs ↦ ⟨none, rs.reverse⟩

/-- What is carried from one piece to the next. -/
structure Running (Img Rec : Type) where
  recordsSinceLastImage : ℕ
  replayHistory : List (Version Img Rec)
  keyExists : Bool

/-- Whether to produce an image for a piece: always for the first one unless an ancestor has the
key, never above the horizon, and else when there are too many records. -/
def produceImage (first last hasAncestor : Bool) (recordsSinceLastImage deltaThresholdCnt : ℕ) :
    Bool :=
  if first && !hasAncestor then true
  else if last then false
  else if recordsSinceLastImage = 0 then false
  else decide (deltaThresholdCnt ≤ recordsSinceLastImage)

/-- One piece: what is carried on, and what is kept of it. -/
def retainPiece (deltaThresholdCnt : ℕ) (hasAncestor first last : Bool) (requestLsn : ℕ)
    (st : Running Img Rec) (split : List (Version Img Rec)) :
    Option (Running Img Rec × List (Version Img Rec)) :=
  let records := st.recordsSinceLastImage + split.length
  let replayHistory := sinceLastInit w (st.replayHistory ++ split)
  match replayHistory with
  | [] => if st.keyExists then none else some (⟨records, [], false⟩, [])
  | v :: _ =>
    -- "invalid history, no base image"
    if !v.2.willInit w then none
    else if produceImage first last hasAncestor records deltaThresholdCnt then do
      let data ← reconstructState replayHistory
      let img ← w.reconstructValue data
      some (⟨0, [(requestLsn, .image img)], true⟩, [(requestLsn, .image img)])
    else some (⟨records, replayHistory, true⟩, split)

/-- `Lsn::MAX`. -/
def lsnMax : ℕ := 2 ^ 64 - 1

/-- The pieces below the horizon with the LSNs they end at, and last the one above it. -/
def retain (w : WalRedo Img Rec) (deltaThresholdCnt : ℕ) (hasAncestor : Bool) :
    Bool → Running Img Rec → List ℕ → List (List (Version Img Rec)) →
    Option (KeyHistoryRetention Img Rec)
  | first, st, [], [split] => do
    let (_, logs) ← retainPiece w deltaThresholdCnt hasAncestor first true lsnMax st split
    some ⟨[], logs⟩
  | first, st, p :: points, split :: splits => do
    let (st, logs) ← retainPiece w deltaThresholdCnt hasAncestor first false p st split
    let r ← retain w deltaThresholdCnt hasAncestor false st points splits
    some { r with belowHorizon := (p, logs) :: r.belowHorizon }
  | _, _, _, _ => none

/-- The running history begins with the image from the ancestor. -/
def baseHistory : Option (ℕ × Img) → List (Version Img Rec)
  | some (lsn, img) => [(lsn, .image img)]
  | none => []

/-! ## Verification -/

variable (st : ValueReconstructState Img Rec)

/-- `collect_and_verify`: the versions make a page. -/
def verifyState (skipEmpty : Bool) : Bool :=
  if st.img.isNone && st.records.isEmpty then skipEmpty else (w.reconstructValue st).isSome

/-- One version on top of what has been collected. -/
def verifyPush (v : Version Img Rec) : ValueReconstructState Img Rec :=
  match v.2 with
  | .image img => ⟨some (v.1, img), []⟩
  | .walRecord rec =>
    if w.willInit rec then ⟨none, [(v.1, rec)]⟩ else ⟨st.img, (v.1, rec) :: st.records⟩

def verifyBelow (w : WalRedo Img Rec) (minLsn : ℕ) :
    ValueReconstructState Img Rec → List (ℕ × List (Version Img Rec)) →
    Option (ValueReconstructState Img Rec)
  | st, [] => some st
  | st, (retainLsn, logs) :: rest =>
    let st := logs.foldl (verifyPush w) st
    if retainLsn < minLsn || verifyState w st false then verifyBelow w minLsn st rest else none

def verifyAbove (w : WalRedo Img Rec) :
    ValueReconstructState Img Rec → List (Version Img Rec) →
    Option (ValueReconstructState Img Rec)
  | st, [] => some st
  | st, v :: rest =>
    if v.2.willInit w && !verifyState w st true then none
    else verifyAbove w (verifyPush w st v) rest

def verify (r : KeyHistoryRetention Img Rec) (baseImgFromAncestor : Option (ℕ × Img))
    (fullHistory : List (Version Img Rec)) : Bool :=
  match (fullHistory.map Prod.fst).min? with
  | none => true
  | some minLsn =>
    ((verifyBelow w minLsn ⟨baseImgFromAncestor, []⟩ r.belowHorizon).bind fun st ↦
      verifyAbove w st r.aboveHorizon).any fun st ↦ verifyState w st false

end KeyRetention

open KeyRetention in
/-- `none` if the history has no base image or WAL redo fails. -/
def generateKeyRetention (fullHistory : List (Version Img Rec)) (horizon : ℕ)
    (retainLsnBelowHorizon : List ℕ) (deltaThresholdCnt : ℕ)
    (baseImgFromAncestor : Option (ℕ × Img)) (verification : Bool) :
    Option (KeyHistoryRetention Img Rec) := do
  let lsnSplitPoints := retainLsnBelowHorizon ++ [horizon]
  let splits := (splitHistory lsnSplitPoints fullHistory).map dedup
  let r ← retain w deltaThresholdCnt baseImgFromAncestor.isSome true
    ⟨0, baseHistory baseImgFromAncestor, false⟩ lsnSplitPoints splits
  if verification && !verify w r baseImgFromAncestor fullHistory then none else some r

end NeonStorage.Pageserver
