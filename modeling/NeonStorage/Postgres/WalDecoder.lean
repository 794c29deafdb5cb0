import Mathlib.Data.List.Basic
import Mathlib.Data.PNat.Basic
import NeonStorage.Lib.Bytes
import NeonStorage.Lib.Wire

/-!
# The WAL stream decoder

`WalStreamDecoder` finds the record boundaries of a WAL byte stream that arrives in chunks: it
validates page headers, reassembles records that cross pages, checks their CRC and skips the
padding after a record. Both the safekeeper (to know which records are complete on disk) and the
pageserver side of the protocol drive it.

Two positions matter to its users. `available` is the position up to which bytes were fed;
`floor` is the position below which the decoder can no longer report a record end: the padding
target while it skips, the position read so far otherwise. `pollDecode_spec` says how one call
moves them, whatever the bytes are: the floor never goes back, a reported record end *is* the new
floor and needs input beyond the old one, and only an invalid page header loses input.
-/

namespace NeonStorage

open List

/-! ## Positions in the WAL

A log sequence number (LSN) is a byte position, here a natural number; `0` is `Lsn::INVALID`. -/

def XLOG_BLCKSZ : ℕ := 8192
def WAL_SEGMENT_SIZE : ℕ := 16 * 1024 * 1024

namespace Lsn

/-- Offset inside a segment of `segSz` bytes. -/
def segmentOffset (l segSz : ℕ) : ℕ := l % segSz

def segmentNumber (l segSz : ℕ) : ℕ := l / segSz

variable (l : ℕ)

def blockOffset : ℕ := l % XLOG_BLCKSZ

/-- The bytes left in the block; a whole block at a block boundary. -/
def remainingInBlock : ℕ := XLOG_BLCKSZ - l % XLOG_BLCKSZ

/-- The bytes that fill up a chunk of `sz` bytes; none at a chunk boundary. -/
def calcPadding (l sz : ℕ) : ℕ := (sz - l % sz) % sz

/-- Round up to the 8-byte alignment of WAL records. -/
def align : ℕ := (l + 7) / 8 * 8

theorem le_align : l ≤ align l := by unfold align; omega

theorem remainingInBlock_pos : 0 < remainingInBlock l := by
  have : l % XLOG_BLCKSZ < XLOG_BLCKSZ := Nat.mod_lt _ (by decide)
  unfold remainingInBlock
  omega

/-- An LSN in messages, in hexadecimal digits. -/
def display (l : ℕ) : String :=
  let hex (n : ℕ) := (String.ofList (Nat.toDigits 16 n)).toUpper
  s!"{hex (l / 2 ^ 32)}/{hex (l % 2 ^ 32)}"

end Lsn

/-- `PgMajorVersion`; the decoder is compiled once for each of them. -/
inductive PgMajorVersion where
  | PG14 | PG15 | PG16 | PG17
  deriving DecidableEq

/-- `XLOG_PAGE_MAGIC` of the version's bindings. -/
def PgMajorVersion.xlogPageMagic : PgMajorVersion → ℕ
  | .PG14 => 0xD10D
  | .PG15 => 0xD110
  | .PG16 => 0xD113
  | .PG17 => 0xD116

def XLOG_SIZE_OF_XLOG_SHORT_PHD : ℕ := 24
def XLOG_SIZE_OF_XLOG_LONG_PHD : ℕ := 40
def XLOG_SIZE_OF_XLOG_RECORD : ℕ := 24
def XLOG_RECORD_CRC_OFFS : ℕ := 4 + 4 + 8 + 1 + 1 + 2
def XLP_FIRST_IS_CONTRECORD : ℕ := 0x0001
def XLOG_SWITCH : ℕ := 0x40
def RM_XLOG_ID : ℕ := 0

/-! ## Reading the structures of a WAL page -/

/-- The fields of `XLogPageHeaderData` that validation looks at. -/
structure XLogPageHeaderData where
  xlpMagic : ℕ
  xlpInfo : ℕ
  xlpPageaddr : ℕ
  xlpRemLen : ℕ

/-- Layout: `xlp_magic`, `xlp_info`, `xlp_tli`, `xlp_pageaddr`, `xlp_rem_len`; a long header
starts with the same fields. -/
def XLogPageHeaderData.fromBytes (b : List UInt8) : XLogPageHeaderData where
  xlpMagic := leNat (b.take 2)
  xlpInfo := leNat ((b.drop 2).take 2)
  xlpPageaddr := leNat ((b.drop 8).take 8)
  xlpRemLen := leNat ((b.drop 16).take 4)

/-- The fields of `XLogRecord` that the decoder looks at. -/
structure XLogRecord where
  xlInfo : ℕ
  xlRmid : ℕ
  xlCrc : ℕ

/-- Layout: `xl_tot_len`, `xl_xid`, `xl_prev`, `xl_info`, `xl_rmid`, two bytes of padding,
`xl_crc`. -/
def XLogRecord.fromSlice (b : List UInt8) : XLogRecord where
  xlInfo := leNat ((b.drop 16).take 1)
  xlRmid := leNat ((b.drop 17).take 1)
  xlCrc := leNat ((b.drop 20).take 4)

def XLogRecord.isXlogSwitchRecord (r : XLogRecord) : Bool :=
  r.xlInfo == XLOG_SWITCH && r.xlRmid == RM_XLOG_ID

def crc32cBit (c : UInt32) : UInt32 :=
  if c &&& 1 = 1 then (c >>> 1) ^^^ 0x82F63B78 else c >>> 1

def crc32cByte (c : UInt32) (b : UInt8) : UInt32 :=
  (range 8).foldl (fun c _ ↦ crc32cBit c) (c ^^^ b.toUInt32)

/-- `crc32c_append`: continue a checksum over more data. -/
def crc32cAppend (crc : UInt32) (data : List UInt8) : UInt32 :=
  ~~~(data.foldl crc32cByte (~~~crc))

/-! ## The decoder -/

structure WalDecodeError where
  msg : String
  lsn : ℕ
  deriving DecidableEq

inductive DecoderState
  | waitingForRecord
  | reassemblingRecord (recordbuf : List UInt8) (contlen : ℕ+)
  | skippingEverything (skipUntilLsn : ℕ)
  deriving DecidableEq

structure WalStreamDecoder where
  lsn : ℕ
  pgVersion : PgMajorVersion
  inputbuf : List UInt8
  state : DecoderState

namespace WalStreamDecoder

variable (lsn : ℕ)

def new (pgVersion : PgMajorVersion) : WalStreamDecoder :=
  { lsn, pgVersion, inputbuf := [], state := .waitingForRecord }

variable (d : WalStreamDecoder)

def available : ℕ := d.lsn + d.inputbuf.length

variable (buf : List UInt8)

def feedBytes : WalStreamDecoder :=
  { d with inputbuf := d.inputbuf ++ buf }

def advance (n : ℕ) : WalStreamDecoder :=
  { d with lsn := d.lsn + n, inputbuf := d.inputbuf.drop n }

/-- The checks of `validate_page_header`; `none` means that the header is valid. -/
def validatePageHeader (hdr : XLogPageHeaderData) : Option String :=
  if hdr.xlpMagic ≠ d.pgVersion.xlogPageMagic then
    some (s!"invalid xlog page header: xlp_magic={hdr.xlpMagic}, " ++
      s!"expected {d.pgVersion.xlogPageMagic}")
  else if hdr.xlpPageaddr ≠ d.lsn then
    some (s!"invalid xlog page header: xlp_pageaddr={hdr.xlpPageaddr}, " ++
      s!"expected {Lsn.display d.lsn}")
  else match d.state with
    | .waitingForRecord =>
      if hdr.xlpInfo % 2 = XLP_FIRST_IS_CONTRECORD then
        some "invalid xlog page header: unexpected XLP_FIRST_IS_CONTRECORD"
      else if hdr.xlpRemLen ≠ 0 then
        some s!"invalid xlog page header: xlp_rem_len={hdr.xlpRemLen}, but it's not a contrecord"
      else none
    | .reassemblingRecord _ contlen =>
      if hdr.xlpInfo % 2 ≠ XLP_FIRST_IS_CONTRECORD then
        some "invalid xlog page header: XLP_FIRST_IS_CONTRECORD expected, not found"
      else if hdr.xlpRemLen ≠ (contlen : ℕ) then
        some s!"invalid xlog page header: xlp_rem_len={hdr.xlpRemLen}, expected {contlen.val}"
      else none
    | .skippingEverything _ =>
      some "Should not be validating page header in the SkippingEverything state"

/-- What `poll_decode` returns: the LSN of the next record with the record's bytes, or nothing
when more input is needed, or an error. -/
abbrev PollResult := Except WalDecodeError (Option (ℕ × List UInt8))

/-- One turn of the loop in `poll_decode_internal`: go round again, or return. -/
inductive Turn
  | again (d : WalStreamDecoder)
  | done (r : PollResult) (d : WalStreamDecoder)

/-- The size of the page header at the decoder's position, if there is one. -/
def pageHeaderSize : ℕ :=
  if Lsn.segmentOffset lsn WAL_SEGMENT_SIZE = 0 then XLOG_SIZE_OF_XLOG_LONG_PHD
  else if Lsn.blockOffset lsn = 0 then XLOG_SIZE_OF_XLOG_SHORT_PHD
  else 0

theorem pageHeaderSize_behind : pageHeaderSize (lsn + pageHeaderSize lsn) = 0 := by
  unfold pageHeaderSize Lsn.segmentOffset Lsn.blockOffset WAL_SEGMENT_SIZE XLOG_BLCKSZ
    XLOG_SIZE_OF_XLOG_LONG_PHD XLOG_SIZE_OF_XLOG_SHORT_PHD
  split
  · rw [if_neg (by omega), if_neg (by omega)]
  · split
    · rw [if_neg (by omega), if_neg (by omega)]
    · rw [if_neg (by omega), if_neg (by omega)]

/-- The `next_lsn` of `complete_record`: an XLOG_SWITCH record spans until the next segment, any
other is padded to 8 bytes. -/
def nextLsn (xlogrec : XLogRecord) : ℕ :=
  if xlogrec.isXlogSwitchRecord then lsn + Lsn.calcPadding lsn WAL_SEGMENT_SIZE else Lsn.align lsn

variable (recordbuf : List UInt8)

def recordHeader : XLogRecord :=
  XLogRecord.fromSlice (recordbuf.take XLOG_SIZE_OF_XLOG_RECORD)

/-- The checksum over a record: the data first, then the header up to the stored checksum. -/
def recordCrc : UInt32 :=
  crc32cAppend (crc32cAppend 0 (recordbuf.drop (XLOG_RECORD_CRC_OFFS + 4)))
    (recordbuf.take XLOG_RECORD_CRC_OFFS)

/-- `complete_record`: check the CRC and start skipping the padding. -/
def completeRecord : Turn :=
  if (recordCrc recordbuf).toNat ≠ (recordHeader recordbuf).xlCrc then
    .done (.error ⟨"WAL record crc mismatch", d.lsn⟩) d
  else
    .done (.ok (some (nextLsn d.lsn (recordHeader recordbuf), recordbuf)))
      { d with state := .skippingEverything (nextLsn d.lsn (recordHeader recordbuf)) }

/-- The part of a turn that follows the page header. -/
def readPage : Turn :=
  match d.state with
  | .waitingForRecord =>
    -- need to have at least the xl_tot_len field
    if d.inputbuf.length < 4 then .done (.ok none) d
    else
      let xlTotLen := leNat (d.inputbuf.take 4)
      if xlTotLen < XLOG_SIZE_OF_XLOG_RECORD then
        .done (.error ⟨s!"invalid xl_tot_len {xlTotLen}", d.lsn⟩) d
      else if xlTotLen ≤ d.inputbuf.length ∧ xlTotLen ≤ Lsn.remainingInBlock d.lsn then
        completeRecord (d.advance xlTotLen) (d.inputbuf.take xlTotLen)
      else .again { d with state := .reassemblingRecord [] xlTotLen.toPNat' }
  | .reassemblingRecord recordbuf contlen =>
    let n := min (contlen : ℕ) (Lsn.remainingInBlock d.lsn)
    if d.inputbuf.length < n then .done (.ok none) d
    else
      let recordbuf' := recordbuf ++ d.inputbuf.take n
      if (contlen : ℕ) - n = 0 then
        completeRecord { d.advance n with state := .reassemblingRecord [] contlen } recordbuf'
      else
        let state := .reassemblingRecord recordbuf' ((contlen : ℕ) - n).toPNat'
        .again { d.advance n with state }
  | .skippingEverything skipUntilLsn =>
    let n := skipUntilLsn - d.lsn
    if d.inputbuf.length < n then .done (.ok none) d
    else .again { d.advance n with state := .waitingForRecord }

/-- One turn: the page header, if the position is at one and the state wants it, then the page
contents. An invalid header is consumed although the position does not move past it. -/
def pollTurn : Turn :=
  match d.state with
  | .skippingEverything _ => readPage d
  | _ =>
    let n := pageHeaderSize d.lsn
    if n = 0 then readPage d
    else if d.inputbuf.length < n then .done (.ok none) d
    else match d.validatePageHeader (XLogPageHeaderData.fromBytes (d.inputbuf.take n)) with
      | some msg => .done (.error ⟨msg, d.lsn⟩) { d with inputbuf := d.inputbuf.drop n }
      | none => readPage (d.advance n)

/-! ### Termination of the loop -/

/-- Every turn that goes round again has consumed input or moved on in the order skipping,
waiting, reassembling. -/
def measure : ℕ :=
  3 * d.inputbuf.length + match d.state with
    | .skippingEverything _ => 2
    | .waitingForRecord => 1
    | .reassemblingRecord _ _ => 0

private theorem measure_advance_le (n : ℕ) : (d.advance n).measure ≤ d.measure := by
  simp only [measure, advance, length_drop]
  omega

private theorem completeRecord_ne_again (d d' : WalStreamDecoder) (buf : List UInt8) :
    completeRecord d buf ≠ .again d' := by
  unfold completeRecord
  split <;> simp

private theorem readPage_measure {d d' : WalStreamDecoder} (h : readPage d = .again d') :
    d'.measure < d.measure := by
  unfold readPage at h
  cases hst : d.state with
  | waitingForRecord =>
    simp only [hst] at h
    split at h
    · cases h
    split at h
    · cases h
    split at h
    · exact absurd h (completeRecord_ne_again _ _ _)
    · cases h
      simp only [measure, hst]
      omega
  | reassemblingRecord recordbuf contlen =>
    simp only [hst] at h
    split at h
    · cases h
    split at h
    · exact absurd h (completeRecord_ne_again _ _ _)
    · -- the record goes on behind this page, so the whole rest of the page was consumed
      cases h
      have hpos := Lsn.remainingInBlock_pos d.lsn
      simp only [measure, advance, length_drop]
      omega
  | skippingEverything u =>
    simp only [hst] at h
    split at h
    · cases h
    · cases h
      simp only [measure, hst, advance, length_drop]
      omega

theorem pollTurn_measure {d d' : WalStreamDecoder} (h : pollTurn d = .again d') :
    d'.measure < d.measure := by
  unfold pollTurn at h
  split at h
  · exact readPage_measure h
  · dsimp only at h
    split at h
    · exact readPage_measure h
    split at h
    · cases h
    split at h
    · cases h
    · exact Nat.lt_of_lt_of_le (readPage_measure h) (measure_advance_le d _)

def pollDecode (d : WalStreamDecoder) : PollResult × WalStreamDecoder :=
  match _h : pollTurn d with
  | .again d' => pollDecode d'
  | .done r d' => (r, d')
termination_by d.measure
decreasing_by exact pollTurn_measure _h

theorem pollDecode_again {d d' : WalStreamDecoder} (h : pollTurn d = .again d') :
    pollDecode d = pollDecode d' := by
  rw [pollDecode]
  split
  · rename_i heq
    cases h.symm.trans heq
    rfl
  · rename_i heq
    cases h.symm.trans heq

theorem pollDecode_done {d d' : WalStreamDecoder} {r : PollResult} (h : pollTurn d = .done r d') :
    pollDecode d = (r, d') := by
  rw [pollDecode]
  split
  · rename_i heq
    cases h.symm.trans heq
  · rename_i heq
    cases h.symm.trans heq
    rfl

/-! ## How a call moves the decoder -/

/-- The position below which no further record end is reported. -/
def floor : ℕ :=
  match d.state with
  | .skippingEverything u => u
  | _ => d.lsn

@[simp] theorem floor_new (v : PgMajorVersion) : (new lsn v).floor = lsn := rfl

@[simp] theorem available_feedBytes : (d.feedBytes buf).available = d.available + buf.length := by
  simp [available, feedBytes]
  omega

variable {n : ℕ}

theorem available_advance {d : WalStreamDecoder} (h : n ≤ d.inputbuf.length) :
    (d.advance n).available = d.available := by
  simp only [available, advance, length_drop]
  omega

/-- What a turn guarantees, for each way it can end. -/
def Turn.Advances : Turn → Prop
  | .again d' => d.floor ≤ d'.floor ∧ d'.available = d.available
  | .done (.ok none) d' => d.floor ≤ d'.floor ∧ d'.available = d.available
  | .done (.ok (some (lsn, _))) d' =>
    d.floor < d.available ∧ d.floor < lsn ∧ d'.floor = lsn ∧ d'.available = d.available
  | .done (.error _) d' =>
    d.floor ≤ d'.floor ∧ d'.floor ≤ d.available ∧ d'.available ≤ d.available

theorem le_nextLsn (r : XLogRecord) : lsn ≤ nextLsn lsn r := by
  unfold nextLsn
  split
  · omega
  · exact Lsn.le_align lsn

private theorem completeRecord_advances {d d' : WalStreamDecoder}
    (hns : ∀ u, d'.state ≠ .skippingEverything u) (hfl : d.floor < d'.lsn)
    (hav : d'.available = d.available) : (completeRecord d' buf).Advances d := by
  have hfloor : d'.floor = d'.lsn := by
    unfold floor
    cases hst : d'.state with
    | skippingEverything u => exact absurd hst (hns u)
    | _ => rfl
  have hle : d'.lsn ≤ d'.available := by unfold available; omega
  unfold completeRecord
  split
  · exact ⟨by omega, by omega, by omega⟩
  · exact ⟨by omega, hfl.trans_le (le_nextLsn _ _), rfl, hav⟩

private theorem readPage_advances : (readPage d).Advances d := by
  have hle : d.lsn ≤ d.available := by unfold available; omega
  unfold readPage
  cases hst : d.state with
  | waitingForRecord =>
    have hfl : d.floor = d.lsn := by simp only [floor, hst]
    dsimp only
    split
    · exact ⟨le_rfl, rfl⟩
    split
    · exact ⟨le_rfl, by omega, le_rfl⟩
    split
    · rename_i htot hfit
      refine completeRecord_advances _ ?_ ?_ (available_advance hfit.1)
      · simp [advance, hst]
      · unfold XLOG_SIZE_OF_XLOG_RECORD at htot
        simp only [advance]
        omega
    · exact ⟨hfl.le, rfl⟩
  | reassemblingRecord recordbuf contlen =>
    have hfl : d.floor = d.lsn := by simp only [floor, hst]
    have hcont := contlen.pos
    dsimp only
    split
    · exact ⟨le_rfl, rfl⟩
    rename_i hlen
    have hav := available_advance (Nat.le_of_not_lt hlen)
    split
    · refine completeRecord_advances _ (by simp) ?_ hav
      simp only [advance]
      omega
    · refine ⟨?_, hav⟩
      change d.floor ≤ d.lsn + _
      omega
  | skippingEverything u =>
    have hfl : d.floor = u := by simp only [floor, hst]
    dsimp only
    split
    · exact ⟨le_rfl, rfl⟩
    · rename_i hlen
      refine ⟨?_, available_advance (Nat.le_of_not_lt hlen)⟩
      change d.floor ≤ d.lsn + (u - d.lsn)
      omega

private theorem Turn.Advances.of_advance {d : WalStreamDecoder} {t : Turn}
    (hlen : n ≤ d.inputbuf.length) (hfl : d.floor = d.lsn)
    (hst : (d.advance n).floor = d.lsn + n) (h : t.Advances (d.advance n)) : t.Advances d := by
  have hav := available_advance hlen
  match t, h with
  | .again _, h => exact ⟨by have := h.1; omega, h.2.trans hav⟩
  | .done (.ok none) _, h => exact ⟨by have := h.1; omega, h.2.trans hav⟩
  | .done (.ok (some _)) _, h =>
    obtain ⟨h1, h2, h3, h4⟩ := h
    exact ⟨by omega, by omega, h3, h4.trans hav⟩
  | .done (.error _) _, h =>
    obtain ⟨h1, h2, h3⟩ := h
    exact ⟨by omega, by omega, by omega⟩

theorem pollTurn_advances : (pollTurn d).Advances d := by
  have hle : d.lsn ≤ d.available := by unfold available; omega
  unfold pollTurn
  split
  · exact readPage_advances d
  · rename_i hns
    have hfloor : ∀ d' : WalStreamDecoder, d'.state = d.state → d'.floor = d'.lsn := by
      intro d' hst
      unfold floor
      split
      · rename_i u hu
        exact absurd (hst.symm.trans hu) (hns u)
      · rfl
    dsimp only
    split
    · exact readPage_advances d
    split
    · exact ⟨le_rfl, rfl⟩
    rename_i hlen
    have hlen := Nat.le_of_not_lt hlen
    split
    · have hfl (buf : List UInt8) : WalStreamDecoder.floor { d with inputbuf := buf } = d.lsn :=
        hfloor _ rfl
      refine ⟨?_, ?_, ?_⟩
      · exact (hfloor d rfl).trans_le (hfl _).ge
      · exact (hfl _).trans_le hle
      · simp only [available, length_drop]
        omega
    · exact (readPage_advances _).of_advance hlen (hfloor d rfl) (hfloor _ rfl)

variable {d d' : WalStreamDecoder}

/-- **How a call moves the decoder.** Whatever bytes were fed, the floor never goes back; a
reported record end is the new floor; and only an error loses input. -/
theorem pollDecode_spec : (Turn.done (pollDecode d).1 (pollDecode d).2).Advances d := by
  induction d using pollDecode.induct with
  | case1 d d' hturn ih =>
    have hadv := pollTurn_advances d
    rw [hturn] at hadv
    obtain ⟨hfl, hav⟩ := hadv
    rw [pollDecode_again hturn]
    rcases hr : pollDecode d' with ⟨e | _ | ⟨lsn, buf⟩, d''⟩ <;> rw [hr] at ih
    · obtain ⟨h1, h2, h3⟩ := ih
      exact ⟨hfl.trans h1, hav ▸ h2, hav ▸ h3⟩
    · exact ⟨hfl.trans ih.1, ih.2.trans hav⟩
    · obtain ⟨h1, h2, h3, h4⟩ := ih
      exact ⟨hav ▸ hfl.trans_lt h1, hfl.trans_lt h2, h3, h4.trans hav⟩
  | case2 d r d' hturn =>
    have hadv := pollTurn_advances d
    rw [hturn] at hadv
    rw [pollDecode_done hturn]
    exact hadv

/-! ## The reported position -/

private theorem completeRecord_next {buf r : List UInt8}
    (h : completeRecord d buf = .done (.ok (some (n, r))) d') :
    n = nextLsn d'.lsn (recordHeader r) := by
  unfold completeRecord at h
  split at h <;> cases h
  rfl

private theorem readPage_next {r : List UInt8}
    (h : readPage d = .done (.ok (some (n, r))) d') : n = nextLsn d'.lsn (recordHeader r) := by
  unfold readPage at h
  cases hst : d.state with
  | waitingForRecord =>
    simp only [hst] at h
    split at h
    · cases h
    split at h
    · cases h
    split at h
    · exact completeRecord_next h
    · cases h
  | reassemblingRecord recordbuf contlen =>
    simp only [hst] at h
    split at h
    · cases h
    split at h
    · exact completeRecord_next h
    · cases h
  | skippingEverything u =>
    simp only [hst] at h
    split at h <;> cases h

/-- A reported position is that of the record behind the decoder's position, with its padding. -/
theorem pollDecode_next {r : List UInt8}
    (h : pollDecode d = (.ok (some (n, r)), d')) : n = nextLsn d'.lsn (recordHeader r) := by
  induction d using pollDecode.induct with
  | case1 d d₁ hturn ih =>
    rw [pollDecode_again hturn] at h
    exact ih h
  | case2 d r₁ d₁ hturn =>
    cases (pollDecode_done hturn).symm.trans h
    unfold pollTurn at hturn
    split at hturn
    · exact readPage_next hturn
    · dsimp only at hturn
      split at hturn
      · exact readPage_next hturn
      split at hturn
      · cases hturn
      split at hturn
      · cases hturn
      · exact readPage_next hturn

/-! ## A reported record consumes input -/

private theorem completeRecord_inputbuf {buf : List UInt8}
    {r : PollResult} (h : completeRecord d buf = .done r d') : d'.inputbuf = d.inputbuf := by
  unfold completeRecord at h
  split at h <;> (cases h; rfl)

private theorem readPage_length :
    (∀ x, readPage d = .done (.ok (some x)) d' → d'.inputbuf.length < d.inputbuf.length) ∧
      (readPage d = .again d' → d'.inputbuf.length ≤ d.inputbuf.length) := by
  unfold readPage
  cases hst : d.state with
  | waitingForRecord =>
    dsimp only
    split
    · simp
    split
    · simp
    split
    · rename_i htot hfit
      refine ⟨fun x h ↦ ?_, fun h ↦ absurd h (completeRecord_ne_again _ _ _)⟩
      rw [completeRecord_inputbuf h, advance, length_drop]
      unfold XLOG_SIZE_OF_XLOG_RECORD at htot
      omega
    · refine ⟨fun x h ↦ (nomatch h), fun h ↦ ?_⟩
      cases h
      exact le_rfl
  | reassemblingRecord recordbuf contlen =>
    have hcont := contlen.pos
    dsimp only
    split
    · simp
    split
    · refine ⟨fun x h ↦ ?_, fun h ↦ absurd h (completeRecord_ne_again _ _ _)⟩
      rw [completeRecord_inputbuf h]
      simp only [advance, length_drop]
      omega
    · refine ⟨fun x h ↦ (nomatch h), fun h ↦ ?_⟩
      cases h
      simp only [advance, length_drop]
      omega
  | skippingEverything u =>
    dsimp only
    split
    · simp
    · refine ⟨fun x h ↦ (nomatch h), fun h ↦ ?_⟩
      cases h
      simp only [advance, length_drop]
      omega

private theorem pollTurn_length :
    (∀ x, pollTurn d = .done (.ok (some x)) d' → d'.inputbuf.length < d.inputbuf.length) ∧
      (pollTurn d = .again d' → d'.inputbuf.length ≤ d.inputbuf.length) := by
  unfold pollTurn
  split
  · exact readPage_length
  · dsimp only
    split
    · exact readPage_length
    split
    · simp
    split
    · simp
    · have hle : ∀ n, (d.advance n).inputbuf.length ≤ d.inputbuf.length := fun n ↦ by
        simp only [advance, length_drop]
        omega
      exact ⟨fun x h ↦ (readPage_length.1 x h).trans_le (hle _),
        fun h ↦ (readPage_length.2 h).trans (hle _)⟩

theorem pollDecode_length_lt {x : ℕ × List UInt8}
    (h : pollDecode d = (.ok (some x), d')) : d'.inputbuf.length < d.inputbuf.length := by
  induction d using pollDecode.induct with
  | case1 d d₁ hturn ih =>
    rw [pollDecode_again hturn] at h
    exact (ih h).trans_le (pollTurn_length.2 hturn)
  | case2 d r d₁ hturn =>
    cases (pollDecode_done hturn).symm.trans h
    exact pollTurn_length.1 x hturn

end WalStreamDecoder

end NeonStorage
