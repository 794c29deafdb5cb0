import NeonStorage.Postgres.WalChunks

/-!
# Generating WAL

`WalGenerator` writes records into the page layout of the WAL, for tests and benchmarks. The decoder
undoes it (`decodeChunks_generate`): both walk over the same pages, the generator with what is left
of a record, the decoder with the number of bytes it still expects.

Lengths are written in four bytes. A record of 4 GiB is written with a length that the decoder
refuses, so the statement is about records whose length fits.
-/

namespace NeonStorage

open List Lsn XLogPageHeaderData
open WalStreamDecoder

/-! ## Records -/

def XLR_BLOCK_ID_DATA_SHORT : UInt8 := 255
def XLR_BLOCK_ID_DATA_LONG : UInt8 := 254
def XLP_LONG_HEADER : ℕ := 0x0002
def XLP_BKP_REMOVABLE : ℕ := 0x0004

def XLogRecord.encode (xlTotLen xlPrev : ℕ) (xlInfo xlRmid : UInt8) (xlCrc : ℕ) : List UInt8 :=
  leBytes 4 xlTotLen ++ leBytes 4 0 ++ leBytes 8 xlPrev ++ [xlInfo, xlRmid, 0, 0] ++ leBytes 4 xlCrc

variable (r : Record)

namespace WalGenerator

structure Record where
  rmid : UInt8
  info : UInt8
  data : List UInt8

namespace Record

def dataHeader : List UInt8 :=
  if r.data.length = 0 then []
  else if r.data.length ≤ 255 then [XLR_BLOCK_ID_DATA_SHORT, UInt8.ofNat r.data.length]
  else XLR_BLOCK_ID_DATA_LONG :: leBytes 4 r.data.length

def totLen : ℕ := XLOG_SIZE_OF_XLOG_RECORD + r.dataHeader.length + r.data.length

/-- The checksum: the data first, then the header up to the checksum. -/
def crc (prevLsn : ℕ) : UInt32 :=
  crc32cAppend (crc32cAppend (crc32cAppend 0 r.dataHeader) r.data)
    ((XLogRecord.encode r.totLen prevLsn r.info r.rmid 0).take XLOG_RECORD_CRC_OFFS)

/-- `encode`: the record with its header. -/
def encode (r : Record) (prevLsn : ℕ) : List UInt8 :=
  XLogRecord.encode r.totLen prevLsn r.info r.rmid (r.crc prevLsn).toNat ++ r.dataHeader ++ r.data

def isXlogSwitch : Bool := r.info.toNat == XLOG_SWITCH && r.rmid.toNat == RM_XLOG_ID

end Record

end WalGenerator

/-! ## Pages -/

/-- `WalGenerator` without its source of records. -/
structure WalGenerator where
  lsn : ℕ
  prevLsn : ℕ

namespace WalGenerator

def SYS_ID : ℕ := 0
def TIMELINE_ID : ℕ := 1

def new (startLsn : ℕ) : WalGenerator := ⟨startLsn, startLsn⟩

variable (v : PgMajorVersion)

def pageHeaderBytes (xlpInfo xlpPageaddr xlpRemLen : ℕ) : List UInt8 :=
  leBytes 2 v.xlogPageMagic ++ leBytes 2 xlpInfo ++ leBytes 4 TIMELINE_ID ++ leBytes
    8 xlpPageaddr ++
    leBytes 4 xlpRemLen ++ [0, 0, 0, 0]

/-- The page header at `lsn`, with `remaining` of the `total` bytes of the record to come: a
continuation if the record has begun on an earlier page, and a long one at the start of a
segment. -/
def pageHeader (total remaining lsn : ℕ) : List UInt8 :=
  let cont := remaining < total
  let xlpRemLen := if cont then remaining else 0
  let xlpInfo := XLP_BKP_REMOVABLE ||| (if cont then XLP_FIRST_IS_CONTRECORD else 0)
  if segmentOffset lsn WAL_SEGMENT_SIZE = 0 then
    pageHeaderBytes v (xlpInfo ||| XLP_LONG_HEADER) lsn xlpRemLen ++
      leBytes 8 SYS_ID ++ leBytes 4 WAL_SEGMENT_SIZE ++ leBytes 4 XLOG_BLCKSZ
  else pageHeaderBytes v xlpInfo lsn xlpRemLen

/-- The page header that is inserted at `lsn`, if there is one. -/
def headerAt (total remaining lsn : ℕ) : List UInt8 :=
  if blockOffset lsn = 0 then pageHeader v total remaining lsn else []

def insertPagesLoop (v : PgMajorVersion) (total : ℕ) (remaining : List UInt8) (lsn : ℕ) :
    List UInt8 :=
  if _h : remaining = [] then []
  else
    let header := headerAt v total remaining.length lsn
    let start := lsn + header.length
    let n := min (remainingInBlock start) remaining.length
    header ++ remaining.take n ++ insertPagesLoop v total (remaining.drop n) (start + n)
termination_by remaining.length
decreasing_by
  have := remainingInBlock_pos (lsn + (headerAt v total remaining.length lsn).length)
  have := length_pos_iff.mpr _h
  rw [length_drop]
  omega

/-- `insert_pages`: page headers on the page boundaries. -/
def insertPages (record : List UInt8) (lsn : ℕ) : List UInt8 :=
  if record.length ≤ remainingInBlock lsn ∧ 0 < blockOffset lsn then record
  else insertPagesLoop v record.length record lsn

/-- `pad_record`: zeros up to the alignment of records. -/
def padRecord (record : List UInt8) (lsn : ℕ) : List UInt8 :=
  record ++ List.replicate (calcPadding (lsn + record.length) 8) 0

/-- What a call of `append_record` produces: the LSN and the WAL bytes it returns, the encoded
record that they contain, and the generator's LSN after it. -/
structure Appended where
  lsn : ℕ
  bytes : List UInt8
  record : List UInt8
  nextLsn : ℕ

/-- `append_record`; it panics if the LSN overflows. -/
def appendRecord (g : WalGenerator) (r : Record) : Option (Appended × WalGenerator) :=
  let record := r.encode g.prevLsn
  let bytes := padRecord (insertPages v record g.lsn) g.lsn
  if g.lsn + bytes.length < 2 ^ 64 then
    some (⟨g.lsn, bytes, record, g.lsn + bytes.length⟩, ⟨g.lsn + bytes.length, g.lsn⟩)
  else none

/-- The generator as an iterator over the given records. -/
def generate (v : PgMajorVersion) : WalGenerator → List Record → Option (List Appended)
  | _, [] => some []
  | g, r :: rs => do
    let (a, g) ← g.appendRecord v r
    let as ← generate v g rs
    return a :: as

/-! ## Encoded records -/

theorem crc32cAppend_append (c : UInt32) (a b : List UInt8) :
    crc32cAppend (crc32cAppend c a) b = crc32cAppend c (a ++ b) := by
  simp only [crc32cAppend, UInt32.not_not, foldl_append]

@[simp] theorem length_encode_header (t p : ℕ) (i r : UInt8) (c : ℕ) :
    (XLogRecord.encode t p i r c).length = XLOG_SIZE_OF_XLOG_RECORD := by
  simp [XLogRecord.encode, XLOG_SIZE_OF_XLOG_RECORD]

namespace Record

variable (r : Record) (prevLsn : ℕ)

theorem length_encode : (r.encode prevLsn).length = r.totLen := by
  simp only [encode, totLen, length_append, length_encode_header]

theorem take_encode_four : (r.encode prevLsn).take 4 = leBytes 4 r.totLen := by
  simp [encode, XLogRecord.encode]

theorem recordHeader_encode :
    recordHeader (r.encode prevLsn) = ⟨r.info.toNat, r.rmid.toNat, (r.crc prevLsn).toNat⟩ := by
  have htake : (r.encode prevLsn).take XLOG_SIZE_OF_XLOG_RECORD =
      XLogRecord.encode r.totLen prevLsn r.info r.rmid (r.crc prevLsn).toNat := by
    rw [encode, append_assoc, take_left' (length_encode_header ..)]
  have hdrop : (XLogRecord.encode r.totLen prevLsn r.info r.rmid (r.crc prevLsn).toNat).drop 16 =
      r.info :: r.rmid :: 0 :: 0 :: leBytes 4 (r.crc prevLsn).toNat := by
    rw [XLogRecord.encode, append_assoc]
    exact drop_left' (by simp)
  have hcrc : leNat (leBytes 4 (r.crc prevLsn).toNat) = (r.crc prevLsn).toNat :=
    leNat_leBytes_of_lt (r.crc prevLsn).toNat_lt
  rw [recordHeader, htake, XLogRecord.fromSlice, show (17 : ℕ) = 16 + 1 from rfl,
    show (20 : ℕ) = 16 + 4 from rfl, ← drop_drop, ← drop_drop, hdrop]
  simp [leNat, hcrc, take_of_length_le]

theorem recordCrc_encode : recordCrc (r.encode prevLsn) = r.crc prevLsn := by
  have htake : ∀ c, (XLogRecord.encode r.totLen prevLsn r.info r.rmid c).take XLOG_RECORD_CRC_OFFS =
      leBytes 4 r.totLen ++ leBytes 4 0 ++ leBytes 8 prevLsn ++ [r.info, r.rmid, 0, 0] :=
    fun c ↦ take_left' (by simp [XLOG_RECORD_CRC_OFFS])
  have hhead : (r.encode prevLsn).take XLOG_RECORD_CRC_OFFS =
      (XLogRecord.encode r.totLen prevLsn r.info r.rmid 0).take XLOG_RECORD_CRC_OFFS := by
    rw [encode, append_assoc, take_append_of_le_length (by simp [XLOG_RECORD_CRC_OFFS,
      XLOG_SIZE_OF_XLOG_RECORD]), htake, htake]
  have hdata : (r.encode prevLsn).drop (XLOG_RECORD_CRC_OFFS + 4) = r.dataHeader ++ r.data := by
    exact drop_left' (length_encode_header ..)
  rw [recordCrc, hhead, hdata, crc, ← crc32cAppend_append 0 r.dataHeader]

end Record

/-! ## Page headers -/

theorem length_pageHeaderBytes (i a m : ℕ) :
    (pageHeaderBytes v i a m).length = XLOG_SIZE_OF_XLOG_SHORT_PHD := by
  simp [pageHeaderBytes, XLOG_SIZE_OF_XLOG_SHORT_PHD]

theorem length_headerAt (total remaining lsn : ℕ) :
    (headerAt v total remaining lsn).length = pageHeaderSize lsn := by
  unfold headerAt pageHeader pageHeaderSize
  by_cases hseg : segmentOffset lsn WAL_SEGMENT_SIZE = 0
  · have hblock : blockOffset lsn = 0 := by
      unfold segmentOffset WAL_SEGMENT_SIZE at hseg
      unfold blockOffset XLOG_BLCKSZ
      omega
    rw [if_pos hblock, if_pos hseg, if_pos hseg]
    simp [length_pageHeaderBytes, XLOG_SIZE_OF_XLOG_LONG_PHD, XLOG_SIZE_OF_XLOG_SHORT_PHD]
  · rw [if_neg hseg, if_neg hseg]
    split
    · exact length_pageHeaderBytes ..
    · rfl

variable {v} {total remaining lsn : ℕ}

theorem headerAt_of_blockOffset (h : pageHeaderSize lsn = 0) :
    headerAt v total remaining lsn = [] := eq_nil_of_length_eq_zero ((length_headerAt ..).trans h)

theorem fromBytes_pageHeaderBytes {i a m : ℕ} (hi : i < 2 ^ 16) (ha : a < 2 ^ 64) (hm : m < 2 ^ 32)
    (rest : List UInt8) : fromBytes (pageHeaderBytes v i a m ++ rest) =
      ⟨v.xlogPageMagic, i, a, m⟩ := by
  have hmagic : v.xlogPageMagic < 256 ^ 2 := by cases v <;> decide
  simp only [fromBytes, pageHeaderBytes, append_assoc]
  congr 1
  · rw [take_left' (length_leBytes 2 _), leNat_leBytes_of_lt hmagic]
  · rw [drop_left' (length_leBytes 2 _), take_left' (length_leBytes 2 _), leNat_leBytes_of_lt hi]
  · rw [show (8 : ℕ) = 2 + (2 + 4) from rfl, ← drop_drop, ← drop_drop,
      drop_left' (length_leBytes 2 _), drop_left' (length_leBytes 2 _),
      drop_left' (length_leBytes 4 _), take_left' (length_leBytes _ _),
      leNat_leBytes_of_lt ha]
  · rw [show (16 : ℕ) = 2 + (2 + (4 + 8)) from rfl, ← drop_drop, ← drop_drop,
      ← drop_drop, drop_left' (length_leBytes 2 _), drop_left' (length_leBytes 2 _),
      drop_left' (length_leBytes 4 _), drop_left' (length_leBytes 8 _),
      take_left' (length_leBytes _ _), leNat_leBytes_of_lt hm]

theorem fromBytes_pageHeader (v : PgMajorVersion) (total : ℕ) (hlsn : lsn < 2 ^ 64)
    (hlen : remaining < 2 ^ 32) : ∃ i, fromBytes (pageHeader v total remaining lsn) =
        ⟨v.xlogPageMagic, i, lsn, if remaining < total then remaining else 0⟩ ∧
      i % 2 = if remaining < total then 1 else 0 := by
  have hrem : (if remaining < total then remaining else 0) < 2 ^ 32 := by
    split
    · exact hlen
    · decide
  unfold pageHeader
  dsimp only
  split
  · rw [append_assoc, append_assoc,
      fromBytes_pageHeaderBytes (by split <;> decide) hlsn hrem]
    exact ⟨_, rfl, by split <;> rfl⟩
  · rw [← append_nil (pageHeaderBytes ..),
      fromBytes_pageHeaderBytes (by split <;> decide) hlsn hrem]
    exact ⟨_, rfl, by split <;> rfl⟩

/-- The state of a decoder that expects the page header at a point of a record: it waits for a
record that has not begun, or it assembles one of which as many bytes are to come. -/
def Expects (total remaining : ℕ) : DecoderState → Prop
  | .waitingForRecord => remaining = total
  | .reassemblingRecord _ contlen => remaining < total ∧ (contlen : ℕ) = remaining
  | .skippingEverything _ => False

variable {d : WalStreamDecoder}

theorem validatePageHeader_pageHeader (hv : d.pgVersion = v) (hst : Expects total remaining d.state)
    (hlsn : d.lsn < 2 ^ 64) (hlen : remaining < 2 ^ 32) :
    d.validatePageHeader (fromBytes (pageHeader v total remaining d.lsn)) =
      none := by
  obtain ⟨i, hfrom, hi⟩ := fromBytes_pageHeader v total hlsn hlen
  rw [hfrom, validatePageHeader]
  rw [if_neg (by simp [hv]), if_neg (by simp), hi]
  cases hstate : d.state with
  | waitingForRecord =>
    rw [hstate] at hst
    change remaining = total at hst
    simp [hst, XLP_FIRST_IS_CONTRECORD]
  | reassemblingRecord buf contlen =>
    rw [hstate] at hst
    obtain ⟨hlt, hcont⟩ := hst
    simp [hlt, hcont, XLP_FIRST_IS_CONTRECORD]
  | skippingEverything u =>
    rw [hstate] at hst
    exact hst.elim

theorem pollTurn_headerAt {st : DecoderState}
    (hst : pageHeaderSize lsn = 0 ∨ Expects total remaining st) (hlsn : lsn < 2 ^ 64)
    (hlen : remaining < 2 ^ 32) (rest : List UInt8) :
    pollTurn ⟨lsn, v, headerAt v total remaining lsn ++ rest, st⟩ =
      readPage ⟨lsn + pageHeaderSize lsn, v, rest, st⟩ := by
  by_cases h0 : pageHeaderSize lsn = 0
  · rw [headerAt_of_blockOffset h0, pollTurn_of_pageHeaderSize h0, h0]
    rfl
  have hexp := hst.resolve_left h0
  have hskip : ∀ u, st ≠ .skippingEverything u := by
    rintro u rfl
    exact hexp
  have hlength := length_headerAt v total remaining lsn
  have hheader : headerAt v total remaining lsn = pageHeader v total remaining lsn := by
    refine if_pos ?_
    by_contra hblock
    exact h0 (by rw [← hlength, headerAt, if_neg hblock, length_nil])
  rw [pollTurn_header hskip rfl h0]
  dsimp only
  rw [if_neg (by rw [length_append, hlength]; omega), take_left' hlength, hheader,
    validatePageHeader_pageHeader rfl hexp hlsn hlen]
  rw [advance]
  rw [drop_left' (hheader ▸ hlength)]

/-! ## Reading a record back -/

variable {n : ℕ} {remaining : List UInt8}

variable (v)

theorem insertPagesLoop_behind (h : remaining ≠ [])
    (h0 : pageHeaderSize lsn = 0) (hn : min remaining.length (remainingInBlock lsn) = n) :
    insertPagesLoop v total remaining lsn =
      remaining.take n ++ insertPagesLoop v total (remaining.drop n) (lsn + n) := by
  rw [insertPagesLoop, dif_neg h]
  simp only [headerAt_of_blockOffset h0, length_nil, Nat.add_zero, nil_append,
    Nat.min_comm (remainingInBlock lsn), hn]

/-- With a page header in front or without, the loop goes on with the record behind it. -/
theorem insertPagesLoop_header (total lsn : ℕ) (h : remaining ≠ []) :
    insertPagesLoop v total remaining lsn = headerAt v total remaining.length lsn ++
      insertPagesLoop v total remaining (lsn + pageHeaderSize lsn) := by
  rw [insertPagesLoop_behind v h (pageHeaderSize_behind lsn) rfl, insertPagesLoop, dif_neg h]
  simp only [length_headerAt, Nat.min_comm remaining.length, append_assoc]

/-- What the decoder returns for a record that ends at `lsn`, with the input behind it. -/
def returned (record : List UInt8) (lsn : ℕ) (rest : List UInt8) :
    PollResult × WalStreamDecoder :=
  (.ok (some (nextLsn lsn (recordHeader record), record)),
    ⟨lsn, v, rest, .skippingEverything (nextLsn lsn (recordHeader record))⟩)

variable {record : List UInt8}

theorem completeRecord_run (hcrc : (recordCrc record).toNat = (recordHeader record).xlCrc) :
    (completeRecord d record).run = returned d.pgVersion record d.lsn d.inputbuf := by
  rw [completeRecord, if_neg (by simp [hcrc])]
  rfl

theorem readPage_reassembling {buf : List UInt8} {contlen : ℕ+}
    (hst : d.state = .reassemblingRecord buf contlen)
    (hn : min (contlen : ℕ) (remainingInBlock d.lsn) = n) (hlen : n ≤ d.inputbuf.length) :
    readPage d = if (contlen : ℕ) - n = 0 then
        completeRecord { d.advance n with state := .reassemblingRecord [] contlen }
          (buf ++ d.inputbuf.take n) else .again { d.advance n with
        state := .reassemblingRecord (buf ++ d.inputbuf.take n) ((contlen : ℕ) - n).toPNat' } := by
  unfold readPage
  rw [hst]
  dsimp only
  rw [hn, if_neg (by omega)]

/-- **A record is assembled from the pages it was distributed to.** The induction follows the pages;
`buf` is what came on the pages before. -/
theorem pollDecode_reassemble (htotal : total < 2 ^ 32) (rest : List UInt8)
    (hne : remaining ≠ []) (hle : remaining.length ≤ total)
    (hcont : pageHeaderSize lsn = 0 ∨ remaining.length < total)
    (hlsn : lsn + (insertPagesLoop v total remaining lsn).length < 2 ^ 64) (buf : List UInt8)
    (hcrc : (recordCrc (buf ++ remaining)).toNat = (recordHeader (buf ++ remaining)).xlCrc) :
    pollDecode ⟨lsn, v, insertPagesLoop v total remaining lsn ++ rest,
        .reassemblingRecord buf remaining.length.toPNat'⟩ =
      returned v (buf ++ remaining) (lsn + (insertPagesLoop v total remaining lsn).length)
        rest := by
  induction hlen : remaining.length using Nat.strong_induction_on generalizing
    remaining lsn buf with
  | _ len ih =>
    subst hlen
    have hpos : 0 < remaining.length := length_pos_iff.mpr hne
    have hval : (remaining.length.toPNat' : ℕ) = remaining.length := PNat.toPNat'_coe hpos
    -- the page header, if there is one
    have hsplit := insertPagesLoop_header v total lsn hne
    have hbehind := pageHeaderSize_behind lsn
    rw [hsplit, length_append, length_headerAt, ← Nat.add_assoc] at hlsn ⊢
    have hexp : pageHeaderSize lsn = 0 ∨ Expects total remaining.length
        (.reassemblingRecord buf remaining.length.toPNat') := hcont.imp_right fun hlt ↦ ⟨hlt, hval⟩
    rw [append_assoc, pollDecode_eq_run, pollTurn_headerAt hexp (by omega) (by omega)]
    -- the part of the record on this page
    generalize lsn + pageHeaderSize lsn = start at hlsn hbehind ⊢
    generalize hn : min remaining.length (remainingInBlock start) = n
    have hnle : n ≤ remaining.length := hn ▸ min_le_left _ _
    have hnpos : 0 < n := hn ▸ lt_min hpos (remainingInBlock_pos start)
    rw [insertPagesLoop_behind v hne hbehind hn] at hlsn ⊢
    rw [length_append, length_take_of_le hnle, ← Nat.add_assoc] at hlsn ⊢
    rw [readPage_reassembling rfl (by rw [hval, hn]) (by simp [hnle]), hval]
    simp only [append_assoc]
    rw [take_left' (length_take_of_le hnle)]
    by_cases hlast : remaining.length - n = 0
    · -- the record ends on this page
      have hdone : remaining.drop n = [] := drop_eq_nil_of_le (by omega)
      rw [if_pos hlast, completeRecord_run (by rwa [take_of_length_le (by omega)])]
      rw [hdone, insertPagesLoop, dif_pos rfl, length_nil, Nat.add_zero, nil_append,
        take_of_length_le (by omega)]
      simp only [advance]
      rw [drop_left' (by omega)]
    · have hdrop : (remaining.drop n).length = remaining.length - n := length_drop
      have hjoin : buf ++ remaining = buf ++ remaining.take n ++ remaining.drop n := by
        rw [append_assoc, take_append_drop]
      rw [if_neg hlast]
      simp only [advance]
      rw [drop_left' (length_take_of_le hnle), ← hdrop, hjoin]
      exact ih _ (by omega) (ne_nil_of_length_pos (by omega)) (by omega) (.inr (by omega)) hlsn _
        (hjoin ▸ hcrc) rfl

theorem insertPagesLoop_of_fits (hne : record ≠ [])
    (h0 : pageHeaderSize lsn = 0) (hfit : record.length ≤ remainingInBlock lsn) :
    insertPagesLoop v total record lsn = record := by
  rw [insertPagesLoop_behind v hne h0 (min_eq_left hfit), take_length, drop_length,
    insertPagesLoop, dif_pos rfl, append_nil]

theorem insertPages_eq (hne : record ≠ []) (lsn : ℕ) :
    insertPages v record lsn = insertPagesLoop v record.length record lsn := by
  unfold insertPages
  split
  · rename_i h
    refine (insertPagesLoop_of_fits v hne ?_ h.1).symm
    rw [← length_headerAt v 0 0 lsn, headerAt, if_neg (by omega), length_nil]
  · rfl

/-- At an aligned position the length of a record is on one page. -/
theorem take_four_insertPagesLoop (total : ℕ) (hlen : 4 ≤ record.length)
    (h0 : pageHeaderSize lsn = 0) (halign : lsn % 8 = 0) (rest : List UInt8) :
    (insertPagesLoop v total record lsn ++ rest).take 4 = record.take 4 := by
  have hpage : 4 ≤ remainingInBlock lsn := by
    unfold remainingInBlock XLOG_BLCKSZ
    omega
  have hn : 4 ≤ min record.length (remainingInBlock lsn) := le_min hlen hpage
  rw [insertPagesLoop_behind v (ne_nil_of_length_pos (by omega)) h0 rfl, append_assoc,
    take_append_of_le_length (by rw [length_take]; omega), take_take,
    Nat.min_eq_left hn]

theorem length_le_insertPagesLoop (total : ℕ) (record : List UInt8) (lsn : ℕ) :
    record.length ≤ (insertPagesLoop v total record lsn).length := by
  fun_induction insertPagesLoop v total record lsn with
  | case1 lsn => exact Nat.zero_le _
  | case2 record lsn hne header start n ih =>
    simp only [length_append, length_take, length_drop] at ih ⊢
    omega

theorem pageHeaderSize_mod (lsn : ℕ) : pageHeaderSize lsn % 8 = 0 := by
  unfold pageHeaderSize XLOG_SIZE_OF_XLOG_LONG_PHD XLOG_SIZE_OF_XLOG_SHORT_PHD
  split_ifs <;> rfl

/-- **One record is read back.** -/
theorem pollDecode_insertPages (record : List UInt8) (halign : lsn % 8 = 0)
    (hmin : XLOG_SIZE_OF_XLOG_RECORD ≤ record.length) (hmax : record.length < 2 ^ 32)
    (htot : leNat (record.take 4) = record.length)
    (hcrc : (recordCrc record).toNat = (recordHeader record).xlCrc)
    (hlsn : lsn + (insertPages v record lsn).length < 2 ^ 64) (rest : List UInt8) :
    pollDecode ⟨lsn, v, insertPages v record lsn ++ rest, .waitingForRecord⟩ =
      returned v record (lsn + (insertPages v record lsn).length) rest := by
  have hlen : 4 ≤ record.length := le_trans (by decide) hmin
  have hne : record ≠ [] := ne_nil_of_length_pos (by omega)
  rw [insertPages_eq v hne] at hlsn ⊢
  -- the page header, if there is one
  rw [insertPagesLoop_header v _ _ hne, length_append, length_headerAt, ← Nat.add_assoc] at hlsn ⊢
  rw [append_assoc, pollDecode_eq_run,
    pollTurn_headerAt (.inr (show Expects _ _ .waitingForRecord from rfl)) (by omega) hmax]
  have hbehind := pageHeaderSize_behind lsn
  have halign' : (lsn + pageHeaderSize lsn) % 8 = 0 := by
    have := pageHeaderSize_mod lsn
    omega
  generalize lsn + pageHeaderSize lsn = start at hlsn hbehind halign' ⊢
  -- the length of the record
  have hle := length_le_insertPagesLoop v record.length record start
  have hfour := take_four_insertPagesLoop v record.length hlen hbehind halign' rest
  unfold readPage
  dsimp only
  rw [if_neg (by rw [length_append]; omega), hfour, htot, if_neg (Nat.not_lt.mpr hmin)]
  split
  · rename_i hfit
    rw [insertPagesLoop_of_fits v hne hbehind hfit.2, take_left' rfl, completeRecord_run hcrc]
    simp only [advance, drop_left' rfl]
  · exact pollDecode_reassemble v hmax rest hne le_rfl (.inl hbehind) hlsn [] hcrc

theorem length_insertPagesLoop_le (total : ℕ) (record : List UInt8) (lsn : ℕ) :
    (insertPagesLoop v total record lsn).length ≤ 41 * record.length := by
  fun_induction insertPagesLoop v total record lsn with
  | case1 lsn => exact Nat.zero_le _
  | case2 record lsn hne header start n ih =>
    have hpos : 0 < record.length := length_pos_iff.mpr hne
    have hheader : header.length ≤ 40 := by
      rw [length_headerAt]
      unfold pageHeaderSize XLOG_SIZE_OF_XLOG_LONG_PHD XLOG_SIZE_OF_XLOG_SHORT_PHD
      split_ifs <;> decide
    have hn : 0 < n := lt_min (remainingInBlock_pos start) hpos
    simp only [length_append, length_take, length_drop] at ih ⊢
    omega

theorem length_padRecord_le (bytes : List UInt8) (lsn : ℕ) :
    (padRecord bytes lsn).length < bytes.length + 8 := by
  have hpad : calcPadding (lsn + bytes.length) 8 < 8 := Nat.mod_lt _ (by decide)
  rw [padRecord, length_append, length_replicate]
  omega

variable {g : WalGenerator} {r : Record}

/-- The generator does not panic while there is room for the record and its page headers. -/
theorem appendRecord_eq (h : g.lsn + 41 * r.totLen + 8 ≤ 2 ^ 64) :
    g.appendRecord v r = let bytes := padRecord (insertPages v (r.encode g.prevLsn) g.lsn) g.lsn
      some (⟨g.lsn, bytes, r.encode g.prevLsn, g.lsn + bytes.length⟩,
        ⟨g.lsn + bytes.length, g.lsn⟩) := by
  have hlen := r.length_encode g.prevLsn
  have hne : r.encode g.prevLsn ≠ [] := by
    refine ne_nil_of_length_pos ?_
    rw [hlen, Record.totLen, XLOG_SIZE_OF_XLOG_RECORD]
    omega
  have hpages := length_insertPagesLoop_le v (r.encode g.prevLsn).length (r.encode g.prevLsn) g.lsn
  have hpad := length_padRecord_le (insertPages v (r.encode g.prevLsn) g.lsn) g.lsn
  rw [insertPages_eq v hne] at hpad
  refine if_pos ?_
  rw [insertPages_eq v hne]
  omega

variable {v}

theorem pollDecode_skip (rest : List UInt8) :
    pollDecode ⟨lsn, v, List.replicate n 0 ++ rest, .skippingEverything (lsn + n)⟩ =
      pollDecode ⟨lsn + n, v, rest, .waitingForRecord⟩ := by
  refine pollDecode_again ?_
  rw [pollTurn_of_skipping rfl]
  unfold readPage
  dsimp only
  simp [advance]

/-! ## Decoding what was generated -/

theorem align_eq_add_calcPadding (l : ℕ) : align l = l + calcPadding l 8 := by
  unfold align calcPadding
  omega

/-- A record whose length fits into its four bytes, and that is not an `XLOG_SWITCH`. -/
def Record.Plain : Prop := r.isXlogSwitch = false ∧ r.totLen < 2 ^ 32

theorem nextLsn_encode (h : r.isXlogSwitch = false) (prevLsn lsn : ℕ) :
    nextLsn lsn (recordHeader (r.encode prevLsn)) = lsn + calcPadding lsn 8 := by
  have hswitch : (recordHeader (r.encode prevLsn)).isXlogSwitchRecord = false := by
    exact h
  rw [nextLsn, hswitch, align_eq_add_calcPadding]
  rfl

theorem pollDecode_appendRecord {g' : WalGenerator} {a : Appended}
    (halign : g.lsn % 8 = 0) (hr : r.Plain) (h : g.appendRecord v r = some (a, g'))
    (rest : List UInt8) : ∃ d, pollDecode ⟨g.lsn, v, a.bytes ++ rest, .waitingForRecord⟩ =
        (.ok (some (a.nextLsn, a.record)), d) ∧
      pollDecode d = pollDecode ⟨g'.lsn, v, rest, .waitingForRecord⟩ ∧
      a.nextLsn = g'.lsn ∧ g'.lsn % 8 = 0 := by
  unfold appendRecord at h
  dsimp only at h
  split at h
  swap
  · cases h
  rename_i hlsn
  cases h
  generalize hbytes : insertPages v (r.encode g.prevLsn) g.lsn = bytes at hlsn ⊢
  have hpad : (padRecord bytes g.lsn).length = bytes.length + calcPadding
    (g.lsn + bytes.length) 8 := by
    rw [padRecord, length_append, length_replicate]
  rw [hpad, ← Nat.add_assoc] at hlsn ⊢
  have hpoll := pollDecode_insertPages v (r.encode g.prevLsn) halign
    (by rw [Record.length_encode, Record.totLen]; omega) (by rw [Record.length_encode]; exact hr.2)
    (by rw [Record.take_encode_four, Record.length_encode]; exact leNat_leBytes_of_lt hr.2)
    (by rw [Record.recordCrc_encode, Record.recordHeader_encode]) (by rw [hbytes]; omega)
    (List.replicate (calcPadding (g.lsn + bytes.length) 8) 0 ++ rest)
  rw [hbytes, ← append_assoc, returned, nextLsn_encode hr.1] at hpoll
  refine ⟨_, hpoll, pollDecode_skip rest, rfl, ?_⟩
  change (_ + _) % 8 = 0
  rw [← align_eq_add_calcPadding]
  unfold align
  omega

theorem drain_congr {d' : WalStreamDecoder} (h : pollDecode d = pollDecode d') :
    drain d = drain d' := by
  rw [drain_eq, drain_eq d', h]

theorem drain_generate {rs : List Record} {as : List Appended} (halign : g.lsn % 8 = 0)
    (hplain : ∀ r ∈ rs, r.Plain) (h : generate v g rs = some as) :
    ∃ d, drain ⟨g.lsn, v, (as.map Appended.bytes).flatten, .waitingForRecord⟩ =
      (as.map fun a ↦ (a.nextLsn, a.record), none, d) := by
  induction rs generalizing g as with
  | nil =>
    cases h
    have hpoll := pollDecode_new g.lsn v
    unfold WalStreamDecoder.new at hpoll
    exact ⟨_, by rw [drain_eq, map_nil, flatten_nil, hpoll]; rfl⟩
  | cons r rs ih =>
    rw [generate, Option.bind_eq_bind, Option.bind_eq_some_iff] at h
    obtain ⟨⟨a, g'⟩, ha, h⟩ := h
    rw [Option.bind_eq_bind, Option.bind_eq_some_iff] at h
    obtain ⟨as, has, h⟩ := h
    cases h
    obtain ⟨d, hpoll, hskip, -, halign'⟩ := pollDecode_appendRecord halign
      (hplain r mem_cons_self) ha (as.map Appended.bytes).flatten
    obtain ⟨d', hd'⟩ := ih halign' (forall_mem_cons.mp hplain).2 has
    refine ⟨d', ?_⟩
    rw [map_cons, flatten_cons, drain_eq, hpoll]
    dsimp only
    rw [drain_congr hskip, hd', map_cons]

/-- **Decoding undoes generating**: the output of the generator, fed to a decoder at the start LSN,
gives the encoded records, each with the generator's LSN after it. -/
theorem decodeChunks_generate {v : PgMajorVersion} {start : ℕ} {rs : List Record}
    {as : List Appended} (halign : start % 8 = 0) (hplain : ∀ r ∈ rs, r.Plain)
    (h : generate v (new start) rs = some as) :
    decodeChunks (.new start v) [(as.map Appended.bytes).flatten] =
      (as.map fun a ↦ (a.nextLsn, a.record), none) := by
  obtain ⟨d, hd⟩ := drain_generate halign hplain h
  rw [decodeChunks_eq, flatten_singleton, WalStreamDecoder.new, feedBytes]
  exact congrArg (fun p ↦ (p.1, p.2.1)) hd

/-- A record that begins in front of a segment boundary. -/
theorem decodeChunks_generate_segment :
    ∃ as, generate .PG17 (new 16777208) [⟨10, 0, [1, 2, 3]⟩] = some as ∧
      decodeChunks (.new 16777208 .PG17) [(as.map Appended.bytes).flatten] =
        (as.map fun a ↦ (a.nextLsn, a.record), none) := by
  refine (Option.isSome_iff_exists.mp ?_).imp
    fun as has ↦ ⟨has, decodeChunks_generate (by decide) ?_ has⟩
  · decide +kernel
  · exact forall_mem_singleton.mpr ⟨by decide, by decide⟩

/-! ### Records that are too long -/

theorem readPage_refuse (hst : d.state = .waitingForRecord) (h4 : 4 ≤ d.inputbuf.length)
    (hn : leNat (d.inputbuf.take 4) = n) (hlt : n < XLOG_SIZE_OF_XLOG_RECORD) :
    readPage d = .done (.error ⟨s!"invalid xl_tot_len {n}", d.lsn⟩) d := by
  unfold readPage
  rw [hst]
  rw [if_neg (by omega), hn, if_pos hlt]

/-- A record of 4 GiB is written with the length zero, which the decoder refuses. -/
theorem decodeChunks_of_totLen (h : r.totLen = 2 ^ 32) : ∃ a, generate v (new 64) [r] = some [a] ∧
      decodeChunks (.new 64 v) [([a].map Appended.bytes).flatten] =
        ([], some ⟨"invalid xl_tot_len 0", 64⟩) := by
  have hlen : (r.encode 64).length = 2 ^ 32 := (r.length_encode 64).trans h
  have hne : r.encode 64 ≠ [] := ne_nil_of_length_pos (by omega)
  have happend := appendRecord_eq v (g := new 64) (by rw [h]; decide)
  dsimp only [new] at happend
  generalize hbytes : padRecord (insertPages v (r.encode 64) 64) 64 = bytes at happend
  have hmin : 4 ≤ bytes.length := by
    have hpages := length_le_insertPagesLoop v (r.encode 64).length (r.encode 64) 64
    rw [← hbytes, insertPages_eq v hne, padRecord, length_append]
    omega
  have hfour : bytes.take 4 = leBytes 4 (2 ^ 32) := by
    rw [← hbytes, padRecord, insertPages_eq v hne,
      take_four_insertPagesLoop v _ (by omega) (by decide)
      (by decide), Record.take_encode_four, h]
  have hturn : pollTurn ((WalStreamDecoder.new 64 v).feedBytes bytes) =
      .done (.error ⟨"invalid xl_tot_len 0", 64⟩)
        ((WalStreamDecoder.new 64 v).feedBytes bytes) := by
    rw [pollTurn_of_pageHeaderSize (show pageHeaderSize 64 = 0 by decide)]
    exact readPage_refuse (n := 0) rfl hmin
      (by rw [feedBytes]; exact congrArg leNat hfour) (by decide)
  refine ⟨_, by rw [generate, new, happend]; rfl, ?_⟩
  rw [decodeChunks_eq, flatten_singleton, map_singleton, flatten_singleton, drain_eq,
    pollDecode_done hturn]

def hugeRecord : Record := ⟨0, 0, List.replicate 4294967267 0⟩

theorem totLen_hugeRecord : hugeRecord.totLen = 2 ^ 32 := by
  have hlen : hugeRecord.data.length = 4294967267 := length_replicate
  rw [Record.totLen, Record.dataHeader, hlen, if_neg (by decide), if_neg (by decide), length_cons,
    length_leBytes]
  rfl

/-- The decoder does not return a record of 4 GiB. -/
theorem exists_decodeChunks_ne :
    ∃ r a, r.isXlogSwitch = false ∧ generate .PG17 (new 64) [r] = some [a] ∧
      decodeChunks (.new 64 .PG17) [([a].map Appended.bytes).flatten] ≠
        ([a].map fun a ↦ (a.nextLsn, a.record), none) := by
  obtain ⟨a, ha, hdecode⟩ := decodeChunks_of_totLen totLen_hugeRecord
  refine ⟨hugeRecord, a, rfl, ha, ?_⟩
  rw [hdecode]
  intro h
  cases congrArg Prod.snd h

end WalGenerator

end NeonStorage
