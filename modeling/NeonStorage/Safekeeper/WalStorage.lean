import NeonStorage.Safekeeper.State

/-!
# WAL storage of a safekeeper

`PhysicalStorage` writes the WAL stream into segment files, knows through its decoder where the
last complete record ends and truncates the files when a new proposer is elected.

The segment files of a timeline are one array of bytes, zero where nothing was written. The
process can die in the disk work of `flushWal` and `truncateWal`; as for the control file,
`crashAfter` says when.

`StoreInv` relates the four positions to the decoder.
-/

namespace NeonStorage.Safekeeper

/-! ## The storage -/

/-- `PhysicalStorage`; `file` says whether the last segment is open. -/
structure PhysicalStorage where
  walSegSize : ℕ+
  writeLsn : ℕ
  writeRecordLsn : ℕ
  flushLsn : ℕ
  flushRecordLsn : ℕ
  decoder : WalStreamDecoder
  file : Bool
  pendingWalTruncation : Bool
  /-- The contents of the segment files. -/
  disk : ℕ → UInt8
  /-- How far a restart can find records in the segment files: the end of what was written, or
  of its last record (the padding after it may not be written yet). A truncation that is pending
  has moved the positions, but not yet the files. -/
  diskEnd : ℕ
  crashAfter : Option ℕ

abbrev StoreM := Fallible SkError PhysicalStorage

namespace PhysicalStorage

open Fallible

/-- A storage that was just opened: everything that was found is taken as flushed, and the files
have to be truncated before the first write. -/
def opened (walSegSize : ℕ+) (v : PgMajorVersion) (disk : ℕ → UInt8) (diskEnd writeLsn : ℕ) :
    PhysicalStorage :=
  { walSegSize, writeLsn
    writeRecordLsn := writeLsn
    flushLsn := writeLsn
    flushRecordLsn := writeLsn
    decoder := .new writeLsn v
    file := false
    pendingWalTruncation := true
    disk, diskEnd
    crashAfter := none }

/-- `PhysicalStorage::new` on files in which `find_end_of_wal` finds `found`. -/
def new (state : TimelinePersistentState) (disk : ℕ → UInt8) (diskEnd found : ℕ) :
    Except SkError PhysicalStorage :=
  match pgMajorVersion state.server.pgVersion with
  | none => .error (.invalidPgVersion state.server.pgVersion)
  | some v =>
    let writeLsn := if state.commitLsn = 0 then 0 else found
    if writeLsn < state.commitLsn then .error (.dataLoss writeLsn state.commitLsn)
    else .ok (opened state.server.walSegSize v disk diskEnd writeLsn)

theorem new_ok {state : TimelinePersistentState} {disk : ℕ → UInt8} {diskEnd found : ℕ}
    {s : PhysicalStorage} (h : new state disk diskEnd found = .ok s) :
    ∃ v w, s = opened state.server.walSegSize v disk diskEnd w ∧
      pgMajorVersion state.server.pgVersion = some v ∧ state.commitLsn ≤ w ∧
      w = if state.commitLsn = 0 then 0 else found := by
  unfold new at h
  split at h
  · cases h
  · rename_i hver
    by_cases hlt : (if state.commitLsn = 0 then 0 else found) < state.commitLsn
    · cases (if_pos hlt).symm.trans h
    · cases (if_neg hlt).symm.trans h
      exact ⟨_, _, rfl, hver, Nat.le_of_not_lt hlt, rfl⟩

/-- Disk work in which the process can die. -/
def diskWork : StoreM Unit := do
  let s ← get
  refuseIf (s.crashAfter = some 0) .crashed
  set { s with crashAfter := s.crashAfter.map (· - 1) }

variable (s : PhysicalStorage) (buf : List UInt8)

/-- `write_in_segment`: write bytes that lie in one segment; a completed segment is synced and
closed, which is reported. -/
def writeInSegment : Bool × PhysicalStorage :=
  let xlogoff := Lsn.segmentOffset s.writeLsn s.walSegSize
  let s' := { s with disk := writeAt s.disk s.writeLsn buf }
  if xlogoff + buf.length = s.walSegSize then (true, { s' with file := false })
  else (false, { s' with file := true })

/-- How many bytes of `buf` go into the segment at `write_lsn`. -/
def bytesWrite : ℕ :=
  let xlogoff := Lsn.segmentOffset s.writeLsn s.walSegSize
  if (s.walSegSize : ℕ) < xlogoff + buf.length then s.walSegSize - xlogoff else buf.length

variable {buf}

theorem bytesWrite_pos (h : buf ≠ []) : 0 < s.bytesWrite buf := by
  have hoff := Nat.mod_lt s.writeLsn s.walSegSize.pos
  have hlen := List.length_pos_iff.mpr h
  unfold bytesWrite
  dsimp only [Lsn.segmentOffset]
  split <;> omega

theorem bytesWrite_le (buf : List UInt8) : s.bytesWrite buf ≤ buf.length := by
  unfold bytesWrite
  dsimp only [Lsn.segmentOffset]
  split <;> omega

def writeSegment (buf : List UInt8) : PhysicalStorage :=
  let n := s.bytesWrite buf
  let (flushed, s') := s.writeInSegment (buf.take n)
  let s' := { s' with writeLsn := s'.writeLsn + n }
  if flushed then { s' with flushLsn := s'.writeLsn } else s'

def writeLoop (s : PhysicalStorage) (buf : List UInt8) : PhysicalStorage :=
  if _h : buf = [] then s else writeLoop (s.writeSegment buf) (buf.drop (s.bytesWrite buf))
termination_by buf.length
decreasing_by
  have := s.bytesWrite_pos _h
  have := List.length_pos_iff.mpr _h
  rw [List.length_drop]
  omega

def writeExact (pos : ℕ) (buf : List UInt8) : PhysicalStorage :=
  let s := if s.writeLsn ≠ pos then { s with file := false, writeLsn := pos } else s
  let s := s.writeLoop buf
  { s with diskEnd := max s.writeLsn s.writeRecordLsn }

/-- The storage after the decoder has moved on to `d` and found a record that ends at `lsn`. -/
def sawRecord (d : WalStreamDecoder) (lsn : ℕ) : PhysicalStorage :=
  { s with
    decoder := d
    writeRecordLsn := lsn
    flushRecordLsn := if lsn ≤ s.flushLsn then lsn else s.flushRecordLsn
    diskEnd := max s.diskEnd lsn }

/-- The loop of `write_wal` that reads the decoder out. -/
def drainDecoder (s : PhysicalStorage) : Except WalDecodeError Unit × PhysicalStorage :=
  match _h : s.decoder.pollDecode with
  | (.error e, d) => (.error e, { s with decoder := d })
  | (.ok none, d) => (.ok (), { s with decoder := d })
  | (.ok (some (lsn, _)), d) => drainDecoder (s.sawRecord d lsn)
termination_by s.decoder.inputbuf.length
decreasing_by exact WalStreamDecoder.pollDecode_length_lt _h

section

variable {s : PhysicalStorage} {d : WalStreamDecoder}

theorem drainDecoder_error {e : WalDecodeError} (h : s.decoder.pollDecode = (.error e, d)) :
    s.drainDecoder = (.error e, { s with decoder := d }) := by
  rw [drainDecoder]
  split <;> simp_all

theorem drainDecoder_none (h : s.decoder.pollDecode = (.ok none, d)) :
    s.drainDecoder = (.ok (), { s with decoder := d }) := by
  rw [drainDecoder]
  split <;> simp_all

theorem drainDecoder_some {lsn : ℕ} {r : List UInt8}
    (h : s.decoder.pollDecode = (.ok (some (lsn, r)), d)) :
    s.drainDecoder = (s.sawRecord d lsn).drainDecoder := by
  rw [drainDecoder]
  split <;> simp_all

end

variable (startpos : ℕ)

/-- The decoder that reads the bytes written at `startpos`: it is restarted unless it stands
there. -/
def decoderAt : WalStreamDecoder :=
  if s.decoder.available ≠ startpos then .new startpos s.decoder.pgVersion else s.decoder

/-- The state of `write_wal` before the decoder is read out. -/
def writeAndFeed (buf : List UInt8) : PhysicalStorage :=
  let s := s.writeExact startpos buf
  let s := { s with decoder := (s.decoderAt startpos).feedBytes buf }
  if s.writeRecordLsn ≤ s.flushLsn then { s with flushRecordLsn := s.writeRecordLsn } else s

/-- `write_wal`: only sequential writes, and none while a truncation is pending. -/
def writeWal (buf : List UInt8) : StoreM Unit := do
  let s ← get
  refuseIf (startpos < s.writeLsn) (.rewritesWal s.writeLsn startpos)
  refuseIf (s.writeLsn < startpos ∧ s.writeLsn ≠ 0) (.createsGap s.writeLsn startpos)
  refuseIf s.pendingWalTruncation (.pendingTruncation s.writeLsn startpos)
  let (r, s') := (s.writeAndFeed startpos buf).drainDecoder
  set s'
  orThrow (r.mapError .walDecode)

def flushWal : StoreM Unit := do
  let s ← get
  doIf (s.flushRecordLsn ≠ s.writeRecordLsn) do
    refuseIf (s.file = false) (.unflushedNoFile s.writeLsn s.flushRecordLsn)
    diskWork
    modify fun s ↦ { s with flushLsn := s.writeLsn, flushRecordLsn := s.writeRecordLsn }

/-- `truncate_wal`: the positions move first; writes are refused until the files have followed. -/
def truncateWal (endPos : ℕ) : StoreM Unit := do
  let s ← get
  refuseIf (s.writeRecordLsn ≠ 0 ∧ s.writeRecordLsn < endPos)
    (.truncateNonWritten s.writeRecordLsn endPos)
  doIf (¬(s.pendingWalTruncation = false ∧ endPos = s.writeLsn ∧ endPos = s.flushRecordLsn)) do
    set { s with
      pendingWalTruncation := true
      writeLsn := endPos
      flushLsn := endPos
      writeRecordLsn := endPos
      flushRecordLsn := endPos
      file := false }
    diskWork
    modify fun s ↦
      { s with
        pendingWalTruncation := false
        disk := fun x ↦ if x < endPos then s.disk x else 0
        diskEnd := endPos }

/-! ## What writing does -/

/-- The storage after `buf` was written at `writeLsn`, as far as segments do not matter. -/
def wrote (buf : List UInt8) (flushLsn : ℕ) (file : Bool) : PhysicalStorage :=
  { s with
    disk := writeAt s.disk s.writeLsn buf
    writeLsn := s.writeLsn + buf.length
    flushLsn := flushLsn
    file := file }

private theorem writeSegment_eq (buf : List UInt8) :
    ∃ fl fi, s.writeSegment buf = s.wrote (buf.take (s.bytesWrite buf)) fl fi ∧
      (s.flushLsn ≤ s.writeLsn → s.flushLsn ≤ fl ∧ fl ≤ s.writeLsn + s.bytesWrite buf) := by
  unfold writeSegment writeInSegment wrote
  rw [List.length_take_of_le (s.bytesWrite_le buf)]
  dsimp only
  split
  · exact ⟨s.writeLsn + s.bytesWrite buf, false, rfl, fun h ↦ ⟨by omega, le_rfl⟩⟩
  · exact ⟨s.flushLsn, true, rfl, fun h ↦ ⟨le_rfl, by omega⟩⟩

/-- The loop over the segments writes the whole buffer; only the flushed position and the open
file depend on where segments end. -/
theorem writeLoop_eq (buf : List UInt8) : ∃ fl fi, s.writeLoop buf = s.wrote buf fl fi ∧
      (s.flushLsn ≤ s.writeLsn → s.flushLsn ≤ fl ∧ fl ≤ s.writeLsn + buf.length) := by
  induction s, buf using writeLoop.induct with
  | case1 s => exact ⟨s.flushLsn, s.file, by simp [writeLoop, wrote], by simp⟩
  | case2 s buf hne ih =>
    rw [writeLoop, dif_neg hne]
    obtain ⟨fl₁, fi₁, hseg, hfl₁⟩ := s.writeSegment_eq buf
    obtain ⟨fl, fi, hrest, hfl⟩ := ih
    have hle := s.bytesWrite_le buf
    have hlen := List.length_take_of_le (s.bytesWrite_le buf)
    rw [hseg] at hrest hfl
    simp only [wrote, hlen, List.length_drop] at hfl
    refine ⟨fl, fi, ?_, fun h ↦ ?_⟩
    · rw [hseg, hrest]
      have happ := writeAt_append s.disk s.writeLsn (buf.take (s.bytesWrite buf))
        (buf.drop (s.bytesWrite buf))
      rw [List.take_append_drop, hlen] at happ
      simp only [wrote, hlen, List.length_drop]
      congr 1
      omega
    · have h₁ := hfl₁ h
      omega

/-- The storage after `buf` was written at `startpos` and fed to the decoder. -/
def fed (buf : List UInt8) (flushLsn : ℕ) (file : Bool) (flushRecordLsn : ℕ) : PhysicalStorage :=
  { s with
    disk := writeAt s.disk startpos buf
    diskEnd := max (startpos + buf.length) s.writeRecordLsn
    writeLsn := startpos + buf.length
    flushLsn := flushLsn
    file := file
    decoder := (s.decoderAt startpos).feedBytes buf
    flushRecordLsn := flushRecordLsn }

variable {startpos}

section

variable {s : PhysicalStorage} (buf : List UInt8)
  (hpos : s.writeLsn = startpos ∨ s.writeLsn = 0)
include hpos

theorem writeExact_eq : ∃ fl fi, s.writeExact startpos buf =
      { s with
        disk := writeAt s.disk startpos buf
        diskEnd := max (startpos + buf.length) s.writeRecordLsn
        writeLsn := startpos + buf.length
        flushLsn := fl
        file := fi } ∧
      (s.flushLsn ≤ s.writeLsn → s.flushLsn ≤ fl ∧ fl ≤ startpos + buf.length) := by
  unfold writeExact
  by_cases hne : s.writeLsn ≠ startpos
  · obtain ⟨fl, fi, hl, hfl⟩ :=
      writeLoop_eq { s with file := false, writeLsn := startpos } buf
    rw [if_pos hne]
    dsimp only
    rw [hl]
    exact ⟨fl, fi, rfl, fun h ↦ hfl (show s.flushLsn ≤ startpos by omega)⟩
  · obtain ⟨fl, fi, hl, hfl⟩ := s.writeLoop_eq buf
    rw [if_neg hne]
    dsimp only
    rw [hl]
    obtain rfl := not_not.mp hne
    exact ⟨fl, fi, rfl, hfl⟩

/-- The storage before the decoder is read out: a record that was written before may have become
flushed. -/
theorem writeAndFeed_fed :
    s.writeAndFeed startpos buf = s.fed startpos buf (s.writeExact startpos buf).flushLsn
      (s.writeExact startpos buf).file
      (if s.writeRecordLsn ≤ (s.writeExact startpos buf).flushLsn then s.writeRecordLsn
        else s.flushRecordLsn) := by
  obtain ⟨fl, fi, hx, -⟩ := writeExact_eq buf hpos
  unfold writeAndFeed
  rw [hx]
  dsimp only
  split <;> rfl

theorem writeAndFeed_eq : ∃ fl fi fr, s.writeAndFeed startpos buf = s.fed startpos buf fl fi fr ∧
      (fr = s.flushRecordLsn ∨ fr = s.writeRecordLsn) ∧
      (s.flushLsn ≤ s.writeLsn → s.flushLsn ≤ fl ∧ fl ≤ startpos + buf.length) := by
  obtain ⟨fl, fi, hx, hfl⟩ := writeExact_eq buf hpos
  refine ⟨_, _, _, writeAndFeed_fed buf hpos, ?_, by rw [hx]; exact hfl⟩
  split
  · exact .inr rfl
  · exact .inl rfl

end

/-- What `write_wal` leaves once it has started writing, whatever the decoder returned. -/
inductive Wrote (s : PhysicalStorage) (startpos : ℕ) (buf : List UInt8) : PhysicalStorage → Prop
  | mk (hpos : s.writeLsn = startpos ∨ s.writeLsn = 0) (hp : s.pendingWalTruncation = false) :
    Wrote s startpos buf (s.writeAndFeed startpos buf).drainDecoder.2

/-- What `flush_wal` leaves. -/
inductive Flushed (s : PhysicalStorage) : PhysicalStorage → Prop
  | same (h : s.flushRecordLsn = s.writeRecordLsn) : Flushed s s
  | sync (n : Option ℕ) (hn : s.crashAfter = none → n = none) : Flushed s
    { s with flushLsn := s.writeLsn, flushRecordLsn := s.writeRecordLsn, crashAfter := n }

/-- The storage once the positions have moved to the truncation point. -/
def moved (endPos : ℕ) : PhysicalStorage :=
  { s with
    pendingWalTruncation := true
    writeLsn := endPos
    flushLsn := endPos
    writeRecordLsn := endPos
    flushRecordLsn := endPos
    file := false }

def truncated (endPos : ℕ) (crashAfter : Option ℕ) : PhysicalStorage :=
  { s.moved endPos with
    pendingWalTruncation := false
    disk := fun x ↦ if x < endPos then s.disk x else 0
    diskEnd := endPos
    crashAfter := crashAfter }

/-- What `truncate_wal` leaves: there is nothing to do, or the files are cut. -/
inductive Truncated (s : PhysicalStorage) (endPos : ℕ) : PhysicalStorage → Prop
  | quick (hp : s.pendingWalTruncation = false) (hw : endPos = s.writeLsn)
    (hf : endPos = s.flushRecordLsn) : Truncated s endPos s
  | cut (hend : s.writeRecordLsn = 0 ∨ endPos ≤ s.writeRecordLsn) (n : Option ℕ)
    (hn : s.crashAfter = none → n = none) : Truncated s endPos (s.truncated endPos n)

section Rules

variable {Q : Unit → PhysicalStorage → Prop} {E : SkError → PhysicalStorage → Prop}
  {s : PhysicalStorage}

/-- **Rule for `write_wal`**: it refuses and changes nothing, or it writes and reads the decoder
out. -/
theorem wp_writeWal (href : ∀ e, e.Ordinary → E e s)
    (hok : ∀ s', Wrote s startpos buf s' → Q () s' ∧ ∀ e, e.Ordinary → E e s') :
    wp (writeWal startpos buf) Q E s := by
  unfold writeWal
  simp only [wp_bind, wp_refuseIf, wp_set, wp_orThrow]
  refine ⟨fun _ ↦ href _ trivial, fun h₁ ↦ ⟨fun _ ↦ href _ trivial, fun h₂ ↦
    ⟨fun _ ↦ href _ trivial, fun h₃ ↦ ?_⟩⟩⟩
  obtain ⟨hQ, hE⟩ := hok _ (.mk (by omega) (by simpa using h₃))
  refine ⟨fun _ _ ↦ hQ, fun e he ↦ hE e ?_⟩
  cases hr : (s.writeAndFeed startpos buf).drainDecoder.1 <;> rw [hr] at he <;> cases he
  trivial

theorem wp_flushWal (hok : ∀ s', Flushed s s' → Q () s') (href : ∀ e, e.Ordinary → E e s)
    (hcrash : s.crashAfter ≠ none → E .crashed s) : wp flushWal Q E s := by
  unfold flushWal diskWork
  simp only [wp_bind, wp_refuseIf, wp_doIf, wp_set, wp_modify]
  refine ⟨fun _ ↦ ⟨fun _ ↦ href _ trivial, fun _ ↦ ⟨fun h ↦ hcrash (by simp [h]), fun _ ↦ ?_⟩⟩,
    fun h ↦ hok _ (.same (not_not.mp h))⟩
  exact hok _ (.sync _ fun h ↦ by simp [h])

/-- **Rule for `truncate_wal`**: it refuses, it does its work, or the process dies after the
positions have moved. -/
theorem wp_truncateWal {endPos : ℕ} (href : ∀ e, e.Ordinary → E e s)
    (hok : ∀ s', Truncated s endPos s' → Q () s')
    (hcrash : s.crashAfter ≠ none → E .crashed (s.moved endPos)) :
    wp (truncateWal endPos) Q E s := by
  unfold truncateWal diskWork
  simp only [wp_bind, wp_get, wp_refuseIf, wp_doIf, wp_set]
  refine ⟨fun _ ↦ href _ trivial, fun h₁ ↦ ⟨fun _ ↦ ⟨fun h ↦ ?_, fun _ ↦ ?_⟩, fun h₂ ↦ ?_⟩⟩
  · exact hcrash (by simp [h])
  · exact hok _ (.cut (by omega) _ fun h ↦ by simp [h])
  · obtain ⟨hp, hw, hf⟩ := not_not.mp h₂
    exact hok _ (.quick hp hw hf)

end Rules

theorem drainDecoder_frame : ∃ d wr fr de, s.drainDecoder.2 =
      { s with decoder := d, writeRecordLsn := wr, flushRecordLsn := fr, diskEnd := de } ∧
      (wr = s.writeRecordLsn ∨ 0 < wr) := by
  induction s using drainDecoder.induct with
  | case1 s e d hpoll =>
    rw [drainDecoder_error hpoll]
    exact ⟨d, _, _, _, rfl, .inl rfl⟩
  | case2 s d hpoll =>
    rw [drainDecoder_none hpoll]
    exact ⟨d, _, _, _, rfl, .inl rfl⟩
  | case3 s lsn r d hpoll ih =>
    have hspec := s.decoder.pollDecode_spec
    rw [hpoll] at hspec
    obtain ⟨-, hlt, -, -⟩ := hspec
    obtain ⟨d', wr, fr, de, heq, hwr⟩ := ih
    rw [drainDecoder_some hpoll, heq]
    refine ⟨d', wr, fr, de, rfl, .inr ?_⟩
    rcases hwr with rfl | hwr
    · exact Nat.zero_lt_of_lt hlt
    · exact hwr

variable {s' : PhysicalStorage}

theorem Wrote.frame {s : PhysicalStorage} (h : Wrote s startpos buf s') :
    s'.crashAfter = s.crashAfter ∧ (s'.writeRecordLsn = 0 → s.writeRecordLsn = 0) := by
  obtain ⟨hpos, -⟩ := h
  obtain ⟨fl, fi, fr, heq, -⟩ := writeAndFeed_eq buf hpos
  obtain ⟨d, wr, fr', de, heq', hwr⟩ := drainDecoder_frame (s.fed startpos buf fl fi fr)
  rw [heq, heq']
  refine ⟨rfl, fun h0 ↦ ?_⟩
  change wr = 0 at h0
  rcases hwr with hwr | hwr
  · exact hwr.symm.trans h0
  · omega

theorem Flushed.frame {s : PhysicalStorage} (h : Flushed s s') :
    (s.crashAfter = none → s'.crashAfter = none) ∧ s'.writeRecordLsn = s.writeRecordLsn := by
  cases h with
  | same _ => exact ⟨id, rfl⟩
  | sync n hn => exact ⟨hn, rfl⟩

/-! ## The positions and the decoder -/

/-- How the positions are related, for a timeline that starts at `ts`. -/
structure StoreInv (ts : ℕ) (s : PhysicalStorage) : Prop where
  flushed : s.flushLsn ≤ s.writeLsn
  flush_le : s.flushRecordLsn ≤ s.writeRecordLsn
  /-- The decoder finds later records only. The exceptions are a storage in which nothing was
  written yet, and a truncation above everything written, which only the beginning of the
  timeline can be. -/
  floor : s.writeRecordLsn ≤ s.decoder.floor ∨ s.decoder.available = 0 ∨
    (s.writeRecordLsn ≤ ts ∧ s.writeRecordLsn ≤ s.flushLsn)
  /-- A record ends behind the written bytes only while the decoder skips its padding. -/
  write : s.decoder.available = s.writeLsn ∨ s.writeRecordLsn ≤ s.writeLsn
  zero : s.writeLsn = 0 → s.writeRecordLsn = 0

namespace StoreInv

variable {ts : ℕ} {s : PhysicalStorage}

theorem opened (walSegSize : ℕ+) (v : PgMajorVersion) (disk : ℕ → UInt8)
    (diskEnd writeLsn : ℕ) : StoreInv ts (.opened walSegSize v disk diskEnd writeLsn) :=
  ⟨le_rfl, le_rfl, .inl le_rfl, .inl rfl, id⟩

section

variable (h : StoreInv ts s)
include h

theorem mono {ts' : ℕ} (hts : ts ≤ ts') : StoreInv ts' s :=
  { h with floor := h.floor.imp_right (Or.imp_right fun h ↦ ⟨h.1.trans hts, h.2⟩) }

/-- Reading the decoder out keeps the relation; a record found there ends at or behind the last
one, or that one was the beginning of the timeline. -/
private theorem drain_aux (hfl : s.writeRecordLsn ≤ s.decoder.floor ∨
      (s.writeRecordLsn ≤ ts ∧ s.writeRecordLsn ≤ s.flushLsn))
    (hav : s.decoder.available = s.writeLsn) : StoreInv ts s.drainDecoder.2 ∧
      (s.flushRecordLsn ≤ s.drainDecoder.2.flushRecordLsn ∨ s.flushRecordLsn ≤ ts) := by
  induction s using drainDecoder.induct with
  | case1 s e d hpoll =>
    have hspec := s.decoder.pollDecode_spec
    rw [hpoll] at hspec
    obtain ⟨h₁, h₂, h₃⟩ := hspec
    rw [drainDecoder_error hpoll]
    refine ⟨⟨h.flushed, h.flush_le, ?_, .inr ?_, h.zero⟩, .inl le_rfl⟩
    · exact hfl.elim (fun hf ↦ .inl (hf.trans h₁)) fun hf ↦ .inr (.inr hf)
    · have := h.flushed
      change s.writeRecordLsn ≤ s.writeLsn
      omega
  | case2 s d hpoll =>
    have hspec := s.decoder.pollDecode_spec
    rw [hpoll] at hspec
    obtain ⟨h₁, h₂⟩ := hspec
    rw [drainDecoder_none hpoll]
    refine ⟨⟨h.flushed, h.flush_le, ?_, .inl (h₂.trans hav), h.zero⟩, .inl le_rfl⟩
    exact hfl.elim (fun hf ↦ .inl (hf.trans h₁)) fun hf ↦ .inr (.inr hf)
  | case3 s lsn r d hpoll ih =>
    have hspec := s.decoder.pollDecode_spec
    rw [hpoll] at hspec
    obtain ⟨h₁, h₂, h₃, h₄⟩ := hspec
    have hflush := h.flush_le
    have hle : (s.sawRecord d lsn).flushRecordLsn ≤ lsn := by
      unfold sawRecord
      dsimp only
      split <;> omega
    have hstep : s.flushRecordLsn ≤ (s.sawRecord d lsn).flushRecordLsn ∨
        s.flushRecordLsn ≤ ts := by
      unfold sawRecord
      dsimp only
      split <;> omega
    have hsaw : StoreInv ts (s.sawRecord d lsn) :=
      ⟨h.flushed, hle, .inl h₃.ge, .inl (h₄.trans hav), by
        change s.writeLsn = 0 → lsn = 0
        omega⟩
    obtain ⟨hinv, hmono⟩ := ih hsaw (.inl h₃.ge) (h₄.trans hav)
    rw [drainDecoder_some hpoll]
    exact ⟨hinv, by omega⟩

/-- **`write_wal` keeps the relation** and never takes a flushed record back. -/
theorem wrote (hw : Wrote s startpos buf s') :
    StoreInv ts s' ∧ (s.flushRecordLsn ≤ s'.flushRecordLsn ∨ s.flushRecordLsn ≤ ts) := by
  obtain ⟨hpos, -⟩ := hw
  have hflush := h.flush_le
  obtain ⟨fl, fi, fr, heq, hfr, hfl⟩ := writeAndFeed_eq buf hpos
  have hfl := hfl h.flushed
  rw [heq]
  -- a restarted decoder stands at the write position, which no known record exceeds
  have hdec : (s.decoderAt startpos).available = startpos ∧
      (s.writeRecordLsn ≤ (s.decoderAt startpos).floor ∨
        (s.writeRecordLsn ≤ ts ∧ s.writeRecordLsn ≤ s.flushLsn)) := by
    have hwrite := h.write
    have hzero := h.zero
    unfold decoderAt
    split
    · exact ⟨rfl, .inl (by rw [WalStreamDecoder.floor_new]; omega)⟩
    · rename_i hav
      obtain rfl := not_not.mp hav
      refine ⟨rfl, ?_⟩
      rcases h.floor with hf | hf | hf
      · exact .inl hf
      · exact .inl (by omega)
      · exact .inr hf
  have hav : ((s.decoderAt startpos).feedBytes buf).available = startpos + buf.length := by
    rw [WalStreamDecoder.available_feedBytes, hdec.1]
  have hfloor : s.writeRecordLsn ≤ ((s.decoderAt startpos).feedBytes buf).floor ∨
      (s.writeRecordLsn ≤ ts ∧ s.writeRecordLsn ≤ fl) :=
    hdec.2.imp_right fun hf ↦ ⟨hf.1, hf.2.trans hfl.1⟩
  have hfed : StoreInv ts (s.fed startpos buf fl fi fr) :=
    ⟨hfl.2, show fr ≤ s.writeRecordLsn by omega, hfloor.imp_right .inr, .inl hav,
      fun h0 ↦ h.zero (by change startpos + buf.length = 0 at h0; omega)⟩
  obtain ⟨hinv, hmono⟩ := drain_aux hfed hfloor hav
  refine ⟨hinv, ?_⟩
  change fr ≤ _ ∨ fr ≤ ts at hmono
  omega

theorem flush (hf : Flushed s s') : StoreInv ts s' ∧ s.flushRecordLsn ≤ s'.flushRecordLsn := by
  cases hf with
  | same _ => exact ⟨h, le_rfl⟩
  | sync n _ =>
    refine ⟨⟨le_rfl, le_rfl, ?_, h.write, h.zero⟩, h.flush_le⟩
    exact h.floor.imp_right (Or.imp_right fun hf ↦ ⟨hf.1, hf.2.trans h.flushed⟩)

/-- A truncation keeps the relation, if a point above everything written is the beginning of the
timeline. -/
theorem truncate {endPos ts' : ℕ} (hts : ts ≤ ts')
    (hend : s.writeRecordLsn = 0 → endPos ≤ ts') (ht : Truncated s endPos s') :
    StoreInv ts' s' ∧ s'.flushRecordLsn = endPos := by
  cases ht with
  | quick _ _ hf => exact ⟨h.mono hts, hf.symm⟩
  | cut hcut n _ =>
    refine ⟨⟨le_rfl, le_rfl, ?_, .inr le_rfl, id⟩, rfl⟩
    change endPos ≤ s.decoder.floor ∨ s.decoder.available = 0 ∨ endPos ≤ ts' ∧ endPos ≤ endPos
    rcases h.floor with hf | hf | hf <;> omega

end

end StoreInv

end PhysicalStorage

end NeonStorage.Safekeeper
