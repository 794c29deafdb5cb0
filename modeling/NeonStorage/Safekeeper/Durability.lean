import NeonStorage.Postgres.WalGenerator
import NeonStorage.Safekeeper.WalStorage

/-!
# The durable part of the WAL

Which bytes of the WAL have reached the disk. `PageCache` follows the files: the bytes that were
written and not covered by an `fdatasync` of their segment since. `RecordEnds` follows the records:
the position behind the last byte of the last written and of the last flushed record. The record
positions of the storage lie behind that, by the padding of the record, and the padding may arrive
later than the record.

After every run of successful calls, what is not covered lies in the open file and not below
`flush_lsn`, and the bytes of the last flushed record end at or below `flush_lsn`
(`durable_of_run`). So the records up to `flush_record_lsn` are durable. The padding behind the last
one need not be: it can be written after the flush, and `flush_wal` does not see it because it
compares record positions.

The decoder takes segments to have 16 MiB. With other sizes the end of an `XLOG_SWITCH` record is
reported behind the end of its segment, and `flush_wal` finds unflushed data but no open file.
-/

namespace NeonStorage.Safekeeper

open WalStreamDecoder Fallible PhysicalStorage Lsn

/-! ## Files -/

/-- The segment of the open file, if one is open, and the bytes that were written and not synced
since. -/
structure PageCache where
  fileSeg : ℕ
  dirty : ℕ → Bool

namespace PageCache

variable (c : PageCache)

def sync (segSz : ℕ) : PageCache :=
  { c with dirty := fun x ↦ c.dirty x && decide (segmentNumber x segSz ≠ c.fileSeg) }

variable (s : PhysicalStorage)

/-- `write_in_segment`: the file of the segment is opened unless there is an open one, and synced if
the segment is complete. -/
def writeSegment (buf : List UInt8) : PageCache :=
  let n := s.bytesWrite buf
  let c : PageCache :=
    { fileSeg := if s.file then c.fileSeg else segmentNumber s.writeLsn s.walSegSize
      dirty := fun x ↦ c.dirty x || decide (s.writeLsn ≤ x ∧ x < s.writeLsn + n) }
  if (s.writeInSegment (buf.take n)).1 then c.sync s.walSegSize else c

/-- The loop of `write_exact`. -/
def writeLoop (c : PageCache) (s : PhysicalStorage) (buf : List UInt8) : PageCache :=
  if _h : buf = [] then c
  else writeLoop (c.writeSegment s buf) (s.writeSegment buf) (buf.drop (s.bytesWrite buf))
termination_by buf.length
decreasing_by
  have := s.bytesWrite_pos _h
  have := List.length_pos_iff.mpr _h
  rw [List.length_drop]
  omega

/-- `write_exact`: an open file is synced before it is discarded. -/
def writeExact (pos : ℕ) (buf : List UInt8) : PageCache :=
  if s.writeLsn ≠ pos then
    (if s.file then c.sync s.walSegSize else c).writeLoop
      { s with file := false, writeLsn := pos } buf
  else c.writeLoop s buf

/-- `truncate_wal`: the open file is synced and closed, the segments behind are removed, and the
file of the last segment is synced once it is cut. -/
def truncate (endPos : ℕ) : PageCache :=
  let c := if s.file then c.sync s.walSegSize else c
  { c with dirty := fun x ↦ c.dirty x &&
      decide (segmentNumber x s.walSegSize < segmentNumber endPos s.walSegSize) }

/-- Bytes that are not synced are in the open file, and not below `flush_lsn`. The open file is the
one at `write_lsn`, which is not at its beginning nor at its end. -/
structure Inv (s : PhysicalStorage) (c : PageCache) : Prop where
  flushed : s.flushLsn ≤ s.writeLsn
  dirty : ∀ x, c.dirty x = true → s.file = true ∧ s.flushLsn ≤ x ∧ x < s.writeLsn ∧
    segmentNumber x s.walSegSize = c.fileSeg
  file : s.file = true → c.fileSeg = segmentNumber s.writeLsn s.walSegSize ∧
    segmentOffset s.writeLsn s.walSegSize ≠ 0

variable {c s}

theorem sync_dirty (h : Inv s c) (x : ℕ) : (c.sync s.walSegSize).dirty x = false := by
  cases hx : c.dirty x with
  | false => simp [sync, hx]
  | true => simp [sync, hx, (h.dirty x hx).2.2.2]

theorem Inv.dirty_of_closed (h : Inv s c) (hfile : s.file = false) (x : ℕ) : c.dirty x = false := by
  cases hx : c.dirty x with
  | false => rfl
  | true =>
    have hopen := (h.dirty x hx).1
    cases hfile.symm.trans hopen

theorem Inv.closed_of_zero (h : Inv s c) (hzero : s.writeLsn = 0) : s.file = false := by
  cases hf : s.file with
  | false => rfl
  | true => exact absurd (by rw [hzero]; exact Nat.zero_mod _) (h.file hf).2

theorem Inv.of_clean (hflush : s.flushLsn ≤ s.writeLsn) (hfile : s.file = false)
    (hdirty : ∀ x, c.dirty x = false) : Inv s c :=
  ⟨hflush, fun x hx ↦ by simp [hdirty x] at hx, fun hf ↦ by simp [hfile] at hf⟩

end PageCache

variable {l : ℕ}

theorem segment_add {n m : ℕ} (h : l % m + n < m) :
    (l + n) / m = l / m ∧ (l + n) % m = l % m + n := by
  have hdiv := Nat.div_add_mod l m
  have hl : l + n = l % m + n + m * (l / m) := by omega
  rw [hl, Nat.add_mul_div_left _ _ (by omega), Nat.div_eq_of_lt h, Nat.add_mul_mod_self_left,
    Nat.mod_eq_of_lt h]
  exact ⟨by omega, rfl⟩

section Segments

variable (s : PhysicalStorage) {buf : List UInt8}

theorem bytesWrite_le_segment (buf : List UInt8) :
    segmentOffset s.writeLsn s.walSegSize + s.bytesWrite buf ≤ s.walSegSize := by
  have hoff := Nat.mod_lt s.writeLsn s.walSegSize.pos
  unfold bytesWrite
  dsimp only [segmentOffset]
  split <;> omega

theorem writeInSegment_take (buf : List UInt8) :
    (s.writeInSegment (buf.take (s.bytesWrite buf))).1 =
      decide (segmentOffset s.writeLsn s.walSegSize + s.bytesWrite buf = s.walSegSize) := by
  unfold writeInSegment
  rw [List.length_take_of_le (s.bytesWrite_le buf)]
  dsimp only
  split <;> simp_all

theorem writeSegment_eq_ite (buf : List UInt8) : s.writeSegment buf =
      if segmentOffset s.writeLsn s.walSegSize + s.bytesWrite buf = s.walSegSize then { s with
          disk := writeAt s.disk s.writeLsn (buf.take (s.bytesWrite buf))
          writeLsn := s.writeLsn + s.bytesWrite buf
          flushLsn := s.writeLsn + s.bytesWrite buf
          file := false }
      else { s with
          disk := writeAt s.disk s.writeLsn (buf.take (s.bytesWrite buf))
          writeLsn := s.writeLsn + s.bytesWrite buf
          file := true } := by
  unfold writeSegment writeInSegment
  dsimp only
  rw [List.length_take_of_le (s.bytesWrite_le buf)]
  split <;> rfl

@[simp] theorem writeSegment_walSegSize (buf : List UInt8) :
    (s.writeSegment buf).walSegSize = s.walSegSize := by
  rw [writeSegment_eq_ite]
  split <;> rfl

end Segments

namespace PageCache

variable {s : PhysicalStorage} {c : PageCache}

section

variable (h : Inv s c)
include h

theorem writeSegment_dirty (buf : List UInt8) {x : ℕ}
    (hx : (c.dirty x || decide (s.writeLsn ≤ x ∧ x < s.writeLsn + s.bytesWrite buf)) = true) :
    s.flushLsn ≤ x ∧ x < s.writeLsn + s.bytesWrite buf ∧
      segmentNumber x s.walSegSize =
        if s.file then c.fileSeg else segmentNumber s.writeLsn s.walSegSize := by
  have hflush := h.flushed
  rcases Bool.or_eq_true_iff.mp hx with hx | hx
  · obtain ⟨hf, hle, hlt, hseg⟩ := h.dirty x hx
    exact ⟨hle, by omega, by rw [hf]; exact hseg⟩
  · obtain ⟨hle, hlt⟩ := of_decide_eq_true hx
    refine ⟨by omega, hlt, ?_⟩
    have hsame : segmentNumber x s.walSegSize = segmentNumber s.writeLsn s.walSegSize := by
      have hroom := bytesWrite_le_segment s buf
      unfold segmentOffset at hroom
      obtain ⟨k, rfl⟩ := Nat.exists_eq_add_of_le hle
      exact (segment_add (by omega)).1
    split
    · rename_i hf
      rw [hsame, (h.file hf).1]
    · exact hsame

/-- One round of the loop of `write_exact`. A closed file means that the segment is complete. -/
theorem Inv.writeSegment {buf : List UInt8} (hbuf : buf ≠ []) :
    Inv (s.writeSegment buf) (c.writeSegment s buf) ∧
      ((s.writeSegment buf).file = false →
        (s.writeSegment buf).flushLsn = (s.writeSegment buf).writeLsn ∧
        segmentOffset (s.writeSegment buf).writeLsn s.walSegSize = 0) := by
  have hpos := s.bytesWrite_pos hbuf
  have hroom := bytesWrite_le_segment s buf
  have hdirty : ∀ x, _ := fun x ↦ writeSegment_dirty h buf (x := x)
  unfold PageCache.writeSegment
  dsimp only
  rw [writeInSegment_take]
  by_cases hc : segmentOffset s.writeLsn s.walSegSize + s.bytesWrite buf = s.walSegSize
  · rw [if_pos (decide_eq_true hc), writeSegment_eq_ite, if_pos hc]
    refine ⟨.of_clean le_rfl rfl fun x ↦ ?_, fun _ ↦ ⟨rfl, ?_⟩⟩
    · -- everything that was dirty is in the completed segment
      cases hx : c.dirty x || decide (s.writeLsn ≤ x ∧ x < s.writeLsn + s.bytesWrite buf) with
      | false => simp only [sync, hx, Bool.false_and]
      | true => simp [sync, (hdirty x hx).2.2]
    · unfold segmentOffset at hc ⊢
      rw [← Nat.mod_add_mod, hc, Nat.mod_self]
  · rw [if_neg (by simpa using hc), writeSegment_eq_ite, if_neg hc]
    unfold segmentOffset at hc hroom
    obtain ⟨hdiv, hmod⟩ := segment_add (l := s.writeLsn) (n := s.bytesWrite buf)
      (m := s.walSegSize) (by omega)
    have hflush := h.flushed
    refine ⟨⟨?_, fun x hx ↦ ?_, fun _ ↦ ⟨?_, ?_⟩⟩, nofun⟩
    · exact hflush.trans (Nat.le_add_right _ _)
    · exact ⟨rfl, hdirty x hx⟩
    · change _ = (s.writeLsn + s.bytesWrite buf) / _
      rw [hdiv]
      split
      · exact (h.file ‹_›).1
      · rfl
    · have hne : (s.writeLsn + s.bytesWrite buf) % (s.walSegSize : ℕ) ≠ 0 := by omega
      exact hne

theorem Inv.writeLoop (buf : List UInt8) : Inv (s.writeLoop buf) (c.writeLoop s buf) ∧
      (buf ≠ [] → (s.writeLoop buf).file = false →
        (s.writeLoop buf).flushLsn = (s.writeLoop buf).writeLsn ∧
        segmentOffset (s.writeLoop buf).writeLsn s.walSegSize = 0) := by
  induction s, buf using PhysicalStorage.writeLoop.induct generalizing c with
  | case1 s =>
    rw [PhysicalStorage.writeLoop, PageCache.writeLoop, dif_pos rfl]
    exact ⟨h, absurd rfl⟩
  | case2 s buf hne ih =>
    obtain ⟨hinv, hclosed⟩ := h.writeSegment hne
    obtain ⟨hinv', hclosed'⟩ := ih hinv
    rw [PhysicalStorage.writeLoop, PageCache.writeLoop, dif_neg hne, dif_neg hne]
    refine ⟨hinv', fun _ ↦ ?_⟩
    by_cases hnil : buf.drop (s.bytesWrite buf) = []
    · rw [hnil, PhysicalStorage.writeLoop]
      exact hclosed
    · rw [writeSegment_walSegSize] at hclosed'
      exact hclosed' hnil

theorem Inv.writeExact {pos : ℕ} (hpos : s.writeLsn = pos ∨ s.writeLsn = 0) (buf : List UInt8) :
    Inv (s.writeExact pos buf) (c.writeExact s pos buf) ∧
      (buf ≠ [] → (s.writeExact pos buf).file = false →
        (s.writeExact pos buf).flushLsn = (s.writeExact pos buf).writeLsn ∧
        segmentOffset (s.writeExact pos buf).writeLsn s.walSegSize = 0) := by
  have hflush := h.flushed
  unfold PhysicalStorage.writeExact PageCache.writeExact
  by_cases hne : s.writeLsn ≠ pos
  · rw [if_pos hne, if_pos hne]
    have hzero : s.writeLsn = 0 := hpos.resolve_left hne
    have hfile : s.file = false := h.closed_of_zero hzero
    have hstart : Inv { s with file := false, writeLsn := pos } c :=
      .of_clean (show s.flushLsn ≤ pos by omega) rfl (h.dirty_of_closed hfile)
    obtain ⟨hinv, hclosed⟩ := hstart.writeLoop buf
    rw [hfile]
    exact ⟨⟨hinv.flushed, hinv.dirty, hinv.file⟩, hclosed⟩
  · rw [if_neg hne, if_neg hne]
    obtain ⟨hinv, hclosed⟩ := h.writeLoop buf
    exact ⟨⟨hinv.flushed, hinv.dirty, hinv.file⟩, hclosed⟩

theorem Inv.closed_of_writeExact_nil {pos : ℕ} (hpos : s.writeLsn = pos ∨ s.writeLsn = 0)
    (hfile : (s.writeExact pos []).file = false) : s.file = false := by
  by_cases hne : s.writeLsn ≠ pos
  · exact h.closed_of_zero (hpos.resolve_left hne)
  · unfold PhysicalStorage.writeExact at hfile
    rw [if_neg hne] at hfile
    dsimp only at hfile
    rw [PhysicalStorage.writeLoop] at hfile
    exact hfile

theorem truncate_dirty (endPos x : ℕ) : (c.truncate s endPos).dirty x = false := by
  unfold truncate
  cases hf : s.file with
  | false => simp [h.dirty_of_closed hf x]
  | true => simp [sync_dirty h x]

end

end PageCache

/-! ## Records -/

/-- The next position at or behind `l` at which the decoder takes a segment to begin. -/
def segmentCeil (l : ℕ) : ℕ := l + calcPadding l WAL_SEGMENT_SIZE

theorem segmentCeil_mono {l' : ℕ} (h : l ≤ l') : segmentCeil l ≤ segmentCeil l' := by
  unfold segmentCeil calcPadding WAL_SEGMENT_SIZE
  omega

/-- The position `l` is that of a record that ends at `e`: behind its padding, which is the rest of
the segment for an `XLOG_SWITCH`. -/
def Padded (e l : ℕ) : Prop := l = e ∨ l = align e ∨ l = segmentCeil e

theorem Padded.le {e : ℕ} (h : Padded e l) : e ≤ l := by
  rcases h with rfl | rfl | rfl
  · exact le_rfl
  · exact le_align e
  · exact Nat.le_add_right _ _

theorem Padded.le_segmentCeil {e : ℕ} (h : Padded e l) : l ≤ segmentCeil e := by
  rcases h with rfl | rfl | rfl
  · exact Nat.le_add_right _ _
  · unfold segmentCeil align calcPadding WAL_SEGMENT_SIZE
    omega
  · exact le_rfl

theorem padded_nextLsn (e : ℕ) (r : XLogRecord) : Padded e (nextLsn e r) := by
  unfold nextLsn
  split
  · exact .inr (.inr rfl)
  · exact .inr (.inl rfl)

/-- The positions behind the last byte of the last written and of the last flushed record. -/
structure RecordEnds where
  write : ℕ
  flush : ℕ

variable {d : WalStreamDecoder} {r : List UInt8}

namespace RecordEnds

/-- The loop of `write_wal` that reads the decoder out. A record ends where the decoder stands when
it reports it. -/
def drain (e : RecordEnds) (s : PhysicalStorage) : RecordEnds :=
  match _h : s.decoder.pollDecode with
  | (.ok (some (lsn, _)), d) =>
    drain ⟨d.lsn, if lsn ≤ s.flushLsn then d.lsn else e.flush⟩ (s.sawRecord d lsn)
  | _ => e
termination_by s.decoder.inputbuf.length
decreasing_by exact pollDecode_length_lt _h

def writeWal (e : RecordEnds) (s : PhysicalStorage) (startpos : ℕ) (buf : List UInt8) :
    RecordEnds :=
  let e := if s.writeRecordLsn ≤ (s.writeExact startpos buf).flushLsn then
    { e with flush := e.write } else e
  e.drain (s.writeAndFeed startpos buf)

/-- The record positions are behind the ends of the records, by their padding; the end of the last
written record is written, and that of the last flushed record is flushed. -/
structure Inv (s : PhysicalStorage) (e : RecordEnds) : Prop where
  write_le : e.write ≤ s.writeLsn
  flush_le : e.flush ≤ s.flushLsn
  write_pad : Padded e.write s.writeRecordLsn
  flush_pad : Padded e.flush s.flushRecordLsn

variable {s : PhysicalStorage} {e : RecordEnds}

theorem drain_some {lsn : ℕ} (h : s.decoder.pollDecode = (.ok (some (lsn, r)), d)) :
    e.drain s = drain ⟨d.lsn, if lsn ≤ s.flushLsn then d.lsn else e.flush⟩ (s.sawRecord d lsn) := by
  rw [drain]
  split <;> simp_all

theorem drain_stop (h : ∀ x d, s.decoder.pollDecode ≠ (.ok (some x), d)) : e.drain s = e := by
  rw [drain]
  split
  · rename_i lsn r d hpoll
    exact absurd hpoll (h _ _)
  · rfl

theorem Inv.sawRecord (h : Inv s e) {lsn : ℕ}
    (hpoll : s.decoder.pollDecode = (.ok (some (lsn, r)), d))
    (hav : s.decoder.available = s.writeLsn) :
    Inv (s.sawRecord d lsn) ⟨d.lsn, if lsn ≤ s.flushLsn then d.lsn else e.flush⟩ ∧
      (s.sawRecord d lsn).decoder.available = s.writeLsn ∧ lsn ≤ segmentCeil s.writeLsn := by
  have hspec := s.decoder.pollDecode_spec
  rw [hpoll] at hspec
  have havail : d.available = s.writeLsn := hspec.2.2.2.trans hav
  have hpad : Padded d.lsn lsn := pollDecode_next hpoll ▸ padded_nextLsn _ _
  have hle := hpad.le
  have hend : d.lsn ≤ s.writeLsn := by
    rw [← havail, available]
    omega
  have hflush := h.flush_le
  refine ⟨⟨hend, ?_, hpad, ?_⟩, havail, hpad.le_segmentCeil.trans (segmentCeil_mono hend)⟩
  · unfold PhysicalStorage.sawRecord
    dsimp only
    split <;> omega
  · unfold PhysicalStorage.sawRecord
    split
    · exact hpad
    · exact h.flush_pad

/-- The decoder is read out. If everything is flushed up to a segment boundary, so are the
records. -/
theorem Inv.drain (h : Inv s e) (hav : s.decoder.available = s.writeLsn) :
    Inv s.drainDecoder.2 (e.drain s) ∧
      (s.flushLsn = s.writeLsn → segmentCeil s.writeLsn = s.writeLsn →
        s.flushRecordLsn = s.writeRecordLsn →
        s.drainDecoder.2.flushRecordLsn = s.drainDecoder.2.writeRecordLsn) := by
  induction s using drainDecoder.induct generalizing e with
  | case1 s err d hpoll =>
    rw [drainDecoder_error hpoll, drain_stop (by simp [hpoll])]
    exact ⟨⟨h.write_le, h.flush_le, h.write_pad, h.flush_pad⟩, fun _ _ heq ↦ heq⟩
  | case2 s d hpoll =>
    rw [drainDecoder_none hpoll, drain_stop (by simp [hpoll])]
    exact ⟨⟨h.write_le, h.flush_le, h.write_pad, h.flush_pad⟩, fun _ _ heq ↦ heq⟩
  | case3 s lsn r d hpoll ih =>
    obtain ⟨hsaw, hav', hceil⟩ := h.sawRecord hpoll hav
    obtain ⟨hinv, hclosed⟩ := ih hsaw hav'
    rw [drainDecoder_some hpoll, drain_some hpoll]
    refine ⟨hinv, fun hflush hseg _ ↦ hclosed hflush hseg ?_⟩
    unfold PhysicalStorage.sawRecord
    rw [if_pos (by omega)]

end RecordEnds

/-! ## Calls -/

theorem pollDecode_idem {d' : WalStreamDecoder} (h : d.pollDecode = (.ok none, d')) :
    d'.pollDecode = (.ok none, d') := by
  have hc := resumable.continues d []
  rw [resumable.feed_nil, h] at hc
  change Incremental.SameResult _ (pollDecode (d'.feedBytes [])) at hc
  rw [resumable.feed_nil] at hc
  exact Prod.ext hc.1.symm (hc.2 none rfl).symm

theorem drainDecoder_ok {s s' : PhysicalStorage} (h : s.drainDecoder = (.ok (), s')) :
    s'.decoder.pollDecode = (.ok none, s'.decoder) := by
  induction s using drainDecoder.induct with
  | case1 s e d hpoll =>
    cases (drainDecoder_error hpoll).symm.trans h
  | case2 s d hpoll =>
    cases (drainDecoder_none hpoll).symm.trans h
    exact pollDecode_idem hpoll
  | case3 s lsn r d hpoll ih =>
    rw [drainDecoder_some hpoll] at h
    exact ih h

/-- A storage with what happens to its files and records. -/
structure Tracked where
  store : PhysicalStorage
  cache : PageCache
  ends : RecordEnds

inductive Call
  | writeWal (startpos : ℕ) (buf : List UInt8)
  | flushWal
  | truncateWal (endPos : ℕ)

namespace Tracked

def opened (walSegSize : ℕ+) (v : PgMajorVersion) (disk : ℕ → UInt8) (diskEnd lsn : ℕ) : Tracked :=
  ⟨.opened walSegSize v disk diskEnd lsn, ⟨0, fun _ ↦ false⟩, ⟨lsn, lsn⟩⟩

def writeWal (t : Tracked) (startpos : ℕ) (buf : List UInt8) : Option Tracked :=
  match exec (PhysicalStorage.writeWal startpos buf) t.store with
  | (.ok _, s) =>
    some ⟨s, t.cache.writeExact t.store startpos buf, t.ends.writeWal t.store startpos buf⟩
  | (.error _, _) => none

/-- A successful `flush_wal`, which does nothing if all records are flushed. -/
def flushWal (t : Tracked) : Option Tracked :=
  match exec PhysicalStorage.flushWal t.store with
  | (.ok _, s) =>
    if t.store.flushRecordLsn = t.store.writeRecordLsn then some { t with store := s }
    else some ⟨s, t.cache.sync t.store.walSegSize, ⟨t.ends.write, t.ends.write⟩⟩
  | (.error _, _) => none

def truncateWal (t : Tracked) (endPos : ℕ) : Option Tracked :=
  match exec (PhysicalStorage.truncateWal endPos) t.store with
  | (.ok _, s) =>
    if t.store.pendingWalTruncation = false ∧ endPos = t.store.writeLsn ∧
        endPos = t.store.flushRecordLsn then some { t with store := s }
    else some ⟨s, t.cache.truncate t.store endPos, ⟨endPos, endPos⟩⟩
  | (.error _, _) => none

def step (t : Tracked) : Call → Option Tracked
  | .writeWal startpos buf => t.writeWal startpos buf
  | .flushWal => t.flushWal
  | .truncateWal endPos => t.truncateWal endPos

def run (t : Tracked) (calls : List Call) : Option Tracked := calls.foldlM step t

structure Inv (t : Tracked) : Prop where
  seg : WAL_SEGMENT_SIZE ∣ t.store.walSegSize
  calm : t.store.crashAfter = none
  store : ∃ ts, PhysicalStorage.StoreInv ts t.store
  cache : t.cache.Inv t.store
  ends : t.ends.Inv t.store
  drained : t.store.decoder.pollDecode = (.ok none, t.store.decoder)
  /-- Without an open file all records are flushed. -/
  closed : t.store.file = false → t.store.flushRecordLsn = t.store.writeRecordLsn

end Tracked

variable {startpos : ℕ}

section Exec

variable {s s' : PhysicalStorage} {u : Unit}

theorem exec_writeWal {buf : List UInt8} (h : exec (writeWal startpos buf) s = (.ok u, s')) :
    (s.writeLsn = startpos ∨ s.writeLsn = 0) ∧ s.pendingWalTruncation = false ∧
      (s.writeAndFeed startpos buf).drainDecoder = (.ok (), s') := by
  apply (wp_ok (E := fun _ _ ↦ True) · h)
  unfold writeWal
  simp only [wp_bind, wp_refuseIf, wp_set, wp_orThrow]
  refine ⟨fun _ ↦ trivial, fun h₁ ↦ ⟨fun _ ↦ trivial, fun h₂ ↦ ⟨fun _ ↦ trivial, fun h₃ ↦
    ⟨fun u hu ↦ ⟨by omega, by simpa using h₃, ?_⟩, fun _ _ ↦ trivial⟩⟩⟩⟩
  cases hr : (s.writeAndFeed startpos buf).drainDecoder.1 with
  | error e =>
    rw [hr] at hu
    cases hu
  | ok u => exact Prod.ext hr rfl

section

variable (hcalm : s.crashAfter = none)
include hcalm

theorem exec_flushWal (h : exec flushWal s = (.ok u, s')) :
    (s.flushRecordLsn = s.writeRecordLsn ∧ s' = s) ∨
      (s.flushRecordLsn ≠ s.writeRecordLsn ∧ s.file = true ∧
        s' = { s with flushLsn := s.writeLsn, flushRecordLsn := s.writeRecordLsn }) := by
  apply (wp_ok (E := fun _ _ ↦ True) · h)
  unfold flushWal diskWork
  simp only [wp_bind, wp_get, wp_refuseIf, wp_doIf, wp_modify]
  refine ⟨fun hne ↦ ⟨fun _ ↦ trivial, fun hf ↦ ⟨fun _ ↦ trivial, fun _ ↦ .inr ⟨hne, ?_, ?_⟩⟩⟩,
    fun heq ↦ .inl ⟨not_not.mp heq, trivial⟩⟩
  · simpa using hf
  · simp [hcalm]

theorem exec_flushWal_ok (h : s.file = false → s.flushRecordLsn = s.writeRecordLsn) :
    (exec flushWal s).1 = .ok () := by
  have hwp : wp flushWal (fun _ _ ↦ True) (fun _ _ ↦ False) s := by
    unfold flushWal diskWork
    simp only [wp_bind, wp_refuseIf, wp_doIf, wp_set, wp_modify]
    refine ⟨fun hne ↦ ⟨fun hf ↦ hne (h hf), fun _ ↦ ⟨fun hc ↦ ?_, fun _ ↦ trivial⟩⟩,
      fun _ ↦ trivial⟩
    cases hcalm.symm.trans hc
  rcases hr : exec flushWal s with ⟨e | u, s'⟩
  · exact (wp_error hwp hr).elim
  · rfl

theorem exec_truncateWal {endPos : ℕ} (h : exec (truncateWal endPos) s = (.ok u, s')) :
    ((s.pendingWalTruncation = false ∧ endPos = s.writeLsn ∧ endPos = s.flushRecordLsn) ∧ s' = s) ∨
      (¬(s.pendingWalTruncation = false ∧ endPos = s.writeLsn ∧ endPos = s.flushRecordLsn) ∧
        (s.writeRecordLsn = 0 ∨ endPos ≤ s.writeRecordLsn) ∧ s' = s.truncated endPos none) := by
  apply (wp_ok (E := fun _ _ ↦ True) · h)
  unfold truncateWal diskWork
  simp only [wp_bind, wp_get, wp_refuseIf, wp_doIf, wp_modify]
  refine ⟨fun _ ↦ trivial, fun h₁ ↦ ⟨fun hne ↦ ⟨fun _ ↦ trivial, fun _ ↦ .inr ⟨hne, by omega, ?_⟩⟩,
    fun heq ↦ .inl ⟨not_not.mp heq, trivial⟩⟩⟩
  simp [truncated, moved, hcalm]

end

end Exec

/-! ## Steps and runs -/

namespace Tracked

variable {t t' : Tracked}

theorem Inv.opened {walSegSize : ℕ+} (hseg : WAL_SEGMENT_SIZE ∣ walSegSize) (v : PgMajorVersion)
    (disk : ℕ → UInt8) (diskEnd lsn : ℕ) : Inv (.opened walSegSize v disk diskEnd lsn) where
  seg := hseg
  calm := rfl
  store := ⟨0, .opened ..⟩
  cache := .of_clean le_rfl rfl fun _ ↦ rfl
  ends := ⟨le_rfl, le_rfl, .inl rfl, .inl rfl⟩
  drained := pollDecode_new lsn v
  closed _ := rfl

theorem Inv.flushWal (h : Inv t) (hstep : t.flushWal = some t') : Inv t' := by
  unfold Tracked.flushWal at hstep
  split at hstep
  swap
  · cases hstep
  rename_i u s hexec
  rcases exec_flushWal h.calm hexec with ⟨heq, rfl⟩ | ⟨hne, hfile, rfl⟩
  · cases (if_pos heq).symm.trans hstep
    exact h
  · cases (if_neg hne).symm.trans hstep
    obtain ⟨ts, hts⟩ := h.store
    refine ⟨h.seg, h.calm, ⟨ts, (hts.flush (.sync _ id)).1⟩, ⟨le_rfl, fun x hx ↦ ?_, h.cache.file⟩,
      ⟨h.ends.write_le, h.ends.write_le, h.ends.write_pad, h.ends.write_pad⟩, h.drained, fun _ ↦
        rfl⟩
    rw [PageCache.sync_dirty h.cache] at hx
    cases hx

theorem Inv.truncateWal (h : Inv t) {endPos : ℕ} (hstep : t.truncateWal endPos = some t') :
    Inv t' := by
  unfold Tracked.truncateWal at hstep
  split at hstep
  swap
  · cases hstep
  rename_i u s hexec
  rcases exec_truncateWal h.calm hexec with ⟨hquick, rfl⟩ | ⟨hcut, hend, rfl⟩
  · cases (if_pos hquick).symm.trans hstep
    exact h
  · cases (if_neg hcut).symm.trans hstep
    obtain ⟨ts, hts⟩ := h.store
    have hstore := hts.truncate (le_max_left ts endPos) (fun _ ↦ le_max_right ts endPos)
      (.cut hend none fun _ ↦ rfl)
    exact ⟨h.seg, rfl, ⟨_, hstore.1⟩,
      .of_clean le_rfl rfl (PageCache.truncate_dirty h.cache endPos),
      ⟨le_rfl, le_rfl, .inl rfl, .inl rfl⟩, h.drained,
      fun _ ↦ rfl⟩

theorem Inv.writeAndFeed_ends (h : Inv t) (buf : List UInt8)
    (hpos : t.store.writeLsn = startpos ∨ t.store.writeLsn = 0) :
    RecordEnds.Inv (t.store.writeAndFeed startpos buf)
      (if t.store.writeRecordLsn ≤ (t.store.writeExact startpos buf).flushLsn then
        { t.ends with flush := t.ends.write } else t.ends) := by
  obtain ⟨fl, fi, hx, hfl⟩ := writeExact_eq buf hpos
  have hfl := hfl h.cache.flushed
  have hwrite := h.ends.write_le
  have hflush := h.ends.flush_le
  have hpad := h.ends.write_pad
  have hrecord := hpad.le
  rw [writeAndFeed_fed buf hpos, hx]
  have hle : t.ends.write ≤ startpos + buf.length := by omega
  by_cases hrec : t.store.writeRecordLsn ≤ fl
  · rw [if_pos hrec, if_pos hrec]
    exact ⟨hle, show t.ends.write ≤ fl by omega, hpad, hpad⟩
  · rw [if_neg hrec, if_neg hrec]
    exact ⟨hle, show t.ends.flush ≤ fl by omega, hpad, h.ends.flush_pad⟩

theorem Inv.decoderAt (h : Inv t) (startpos : ℕ) :
    (t.store.decoderAt startpos).available = startpos ∧
      (t.store.decoderAt startpos).pollDecode = (.ok none, t.store.decoderAt startpos) := by
  unfold PhysicalStorage.decoderAt
  split
  · exact ⟨rfl, pollDecode_new ..⟩
  · exact ⟨not_not.mp ‹_›, h.drained⟩

theorem segmentCeil_of_offset {m : ℕ} (hm : WAL_SEGMENT_SIZE ∣ m) (hl : segmentOffset l m = 0) :
    segmentCeil l = l := by
  have hdvd : WAL_SEGMENT_SIZE ∣ l := hm.trans (Nat.dvd_of_mod_eq_zero hl)
  unfold segmentCeil calcPadding
  rw [Nat.mod_eq_zero_of_dvd hdvd, Nat.sub_zero, Nat.mod_self, Nat.add_zero]

/-- A write that leaves no open file has completed a segment, or has written nothing. Either way all
records are flushed. -/
theorem Inv.writeWal_closed (h : Inv t) (buf : List UInt8)
    (hpos : t.store.writeLsn = startpos ∨ t.store.writeLsn = 0)
    (hfile : (t.store.writeExact startpos buf).file = false) :
    (t.store.writeAndFeed startpos buf).drainDecoder.2.flushRecordLsn =
      (t.store.writeAndFeed startpos buf).drainDecoder.2.writeRecordLsn := by
  obtain ⟨-, hclosed⟩ := h.cache.writeExact hpos buf
  have hends := h.writeAndFeed_ends buf hpos
  obtain ⟨hav, hpoll⟩ := h.decoderAt startpos
  rw [writeAndFeed_fed buf hpos] at hends ⊢
  by_cases hbuf : buf = []
  · subst hbuf
    have hrec := h.closed (h.cache.closed_of_writeExact_nil hpos hfile)
    rw [drainDecoder_none
      (by rw [fed, resumable.feed_nil, hpoll])]
    simp [fed, hrec]
  · obtain ⟨hflush, hoff⟩ := hclosed hbuf hfile
    obtain ⟨fl, fi, hx, -⟩ := writeExact_eq buf hpos
    rw [hx] at hends hflush hoff ⊢
    dsimp only at hends hflush hoff ⊢
    have hceil := segmentCeil_of_offset h.seg hoff
    have hrec : t.store.writeRecordLsn ≤ fl := by
      have hwrite := h.ends.write_le
      have hmono := segmentCeil_mono (show t.ends.write ≤ startpos + buf.length by omega)
      have hpad := h.ends.write_pad.le_segmentCeil
      omega
    refine (hends.drain ?_).2 hflush hceil (if_pos hrec)
    change ((t.store.decoderAt startpos).feedBytes buf).available = startpos + buf.length
    rw [available_feedBytes, hav]

theorem Inv.writeWal (h : Inv t) {buf : List UInt8} (hstep : t.writeWal startpos buf = some t') :
    Inv t' := by
  unfold Tracked.writeWal at hstep
  split at hstep
  swap
  · cases hstep
  rename_i u s hexec
  cases hstep
  obtain ⟨hpos, hpending, hdrain⟩ := exec_writeWal hexec
  obtain ⟨ts, hts⟩ := h.store
  have hs : s = (t.store.writeAndFeed startpos buf).drainDecoder.2 := by rw [hdrain]
  have hclosed := h.writeWal_closed buf hpos
  obtain ⟨hcache, -⟩ := h.cache.writeExact hpos buf
  obtain ⟨fl, fi, hx, -⟩ := writeExact_eq buf hpos
  have hfed := writeAndFeed_fed buf hpos
  have hav : (t.store.writeAndFeed startpos buf).decoder.available =
      (t.store.writeAndFeed startpos buf).writeLsn := by
    rw [hfed]
    change ((t.store.decoderAt startpos).feedBytes buf).available = startpos + buf.length
    rw [available_feedBytes, (h.decoderAt startpos).1]
  obtain ⟨d, wr, fr, de, hframe, -⟩ := (t.store.writeAndFeed startpos buf).drainDecoder_frame
  rw [← hs, hfed, hx] at hframe
  have hends := ((h.writeAndFeed_ends buf hpos).drain hav).1
  rw [← hs] at hclosed hends
  rw [hx] at hcache hclosed
  have hseg : s.walSegSize = t.store.walSegSize := by rw [hframe]; rfl
  have hlsn : s.writeLsn = startpos + buf.length := by rw [hframe]; rfl
  have hflush : s.flushLsn = fl := by rw [hframe]; rfl
  have hfile : s.file = fi := by rw [hframe]; rfl
  have hcalm : s.crashAfter = t.store.crashAfter := by rw [hframe]; rfl
  refine ⟨hseg ▸ h.seg, hcalm.trans h.calm,
    ⟨ts, hs ▸ (hts.wrote (.mk hpos hpending)).1⟩, ⟨?_, ?_, ?_⟩,
    hends, drainDecoder_ok hdrain, fun hf ↦ hclosed (hfile ▸ hf)⟩
  · rw [hlsn, hflush]
    exact hcache.flushed
  · rw [hlsn, hflush, hfile, hseg]
    exact hcache.dirty
  · rw [hlsn, hfile, hseg]
    exact hcache.file

theorem Inv.step (h : Inv t) {call : Call} (hstep : t.step call = some t') : Inv t' := by
  cases call with
  | writeWal startpos buf => exact h.writeWal hstep
  | flushWal => exact h.flushWal hstep
  | truncateWal endPos => exact h.truncateWal hstep

theorem Inv.run (h : Inv t) {calls : List Call} (hrun : t.run calls = some t') : Inv t' := by
  induction calls generalizing t with
  | nil =>
    cases hrun
    exact h
  | cons call calls ih =>
    obtain ⟨t₁, hstep, hrun⟩ := Option.bind_eq_some_iff.mp hrun
    exact ih (h.step hstep) hrun

/-- **The flushed records are durable.** After any successful calls, a byte below `flush_record_lsn`
that was written and not synced since lies behind the last byte of the last flushed record, in its
padding; `flush_record_lsn` does not exceed `write_record_lsn`; and `flush_wal` succeeds. -/
theorem durable_of_run {walSegSize : ℕ+} (hseg : WAL_SEGMENT_SIZE ∣ walSegSize) {v : PgMajorVersion}
    {disk : ℕ → UInt8} {diskEnd lsn : ℕ} {calls : List Call}
    (hrun : (opened walSegSize v disk diskEnd lsn).run calls = some t) :
    (∀ x < min t.store.flushRecordLsn t.store.writeLsn, t.cache.dirty x = true → t.ends.flush ≤ x) ∧
      Padded t.ends.flush t.store.flushRecordLsn ∧
      t.store.flushRecordLsn ≤ t.store.writeRecordLsn ∧
      (exec PhysicalStorage.flushWal t.store).1 = .ok () := by
  have h := (Inv.opened hseg v disk diskEnd lsn).run hrun
  obtain ⟨ts, hts⟩ := h.store
  refine ⟨fun x _ hx ↦ ?_, h.ends.flush_pad, hts.flush_le, exec_flushWal_ok h.calm h.closed⟩
  exact h.ends.flush_le.trans (h.cache.dirty x hx).2.1

/-! ## Runs -/

/-- A record of 27 bytes, which is padded to 32. -/
def oddRecord : List UInt8 := WalGenerator.Record.encode ⟨1, 0, [7]⟩ 64

/-- A record is written and flushed, and then its padding is written. -/
def paddingLate : List Call :=
  [.truncateWal 64, .writeWal 64 oddRecord, .flushWal, .writeWal 91 [0, 0, 0, 0, 0]]

/-- The padding is not synced, although it lies below the flushed position. -/
theorem exists_run_paddingLate :
    ∃ t, (opened 16777216 .PG17 (fun _ ↦ 0) 64 64).run paddingLate = some t ∧
      92 < min t.store.flushRecordLsn t.store.writeLsn ∧ t.cache.dirty 92 = true := by
  change ∃ t ∈ Tracked.run _ _, _
  decide +kernel

/-- The record itself is durable in that run. -/
theorem durable_of_run_paddingLate :
    ∃ t, (opened 16777216 .PG17 (fun _ ↦ 0) 64 64).run paddingLate = some t ∧
      (∀ x < min t.store.flushRecordLsn t.store.writeLsn, t.cache.dirty x = true →
        t.ends.flush ≤ x) ∧
      Padded t.ends.flush t.store.flushRecordLsn ∧
      t.store.flushRecordLsn ≤ t.store.writeRecordLsn ∧
      (exec PhysicalStorage.flushWal t.store).1 = .ok () := by
  obtain ⟨t, ht, -⟩ := exists_run_paddingLate
  exact ⟨t, ht, durable_of_run (by decide) ht⟩

def switchRecord : List UInt8 := WalGenerator.Record.encode ⟨0, 0x40, []⟩ 1048552

/-- Two ways in which the bytes and the record positions part. The padding of a flushed record is
written later and not synced. With segments of 1 MiB, an `XLOG_SWITCH` record ends with its
segment, but is reported to end with the segment that the decoder assumes, and `flush_wal` fails. -/
theorem exists_run_not_durable :
    (∃ calls t, (opened 16777216 .PG17 (fun _ ↦ 0) 64 64).run calls = some t ∧
      ∃ x < min t.store.flushRecordLsn t.store.writeLsn, t.cache.dirty x = true) ∧
    ∃ calls t, (opened 1048576 .PG17 (fun _ ↦ 0) 1048552 1048552).run calls = some t ∧
      (exec PhysicalStorage.flushWal t.store).1 = .error (.unflushedNoFile 1048576 1048552) := by
  refine ⟨?_, [.truncateWal 1048552, .writeWal 1048552 switchRecord], ?_⟩
  · obtain ⟨t, ht, hlt, hdirty⟩ := exists_run_paddingLate
    exact ⟨paddingLate, t, ht, 92, hlt, hdirty⟩
  change ∃ t ∈ Tracked.run _ _, _
  decide +kernel

end Tracked

end NeonStorage.Safekeeper
