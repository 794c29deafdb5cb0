import NeonStorage.Lib.Incremental
import NeonStorage.Postgres.WalDecoder

/-!
# Decoding a WAL stream in chunks

The decoder is an incremental reader: what it returns does not depend on how the stream is cut into
`feed_bytes` calls. The one place where the amount of input decides which way a turn takes is the
choice between copying a whole record at once and assembling it; on a record that fits on its page
both give the same, except that a record with a wrong checksum leaves different states behind.
-/

namespace NeonStorage.WalStreamDecoder

open Incremental

/-! ## Turns with more input -/

/-- The result of a call of which the first turn is given. -/
def Turn.run : Turn → PollResult × WalStreamDecoder
  | .again d => pollDecode d
  | .done r d => (r, d)

theorem pollDecode_eq_run (d : WalStreamDecoder) : pollDecode d = (pollTurn d).run := by
  cases h : pollTurn d with
  | again d' => exact pollDecode_again h
  | done r d' => exact pollDecode_done h

variable (b : List UInt8)

/-- What the turn `t` of a decoder says about its turn `t'` with the further input `b`. -/
def Turn.Continues (b : List UInt8) (t t' : Turn) : Prop :=
  match t with
  | .again d => SameResult t'.run (pollDecode (d.feedBytes b))
  | .done r d => Incremental.Continues feedBytes pollDecode b (r, d) t'.run

variable {d : WalStreamDecoder} {n : ℕ}

@[simp] theorem feedBytes_lsn : (d.feedBytes b).lsn = d.lsn := rfl

@[simp] theorem feedBytes_state : (d.feedBytes b).state = d.state := rfl

theorem feedBytes_advance (hn : n ≤ d.inputbuf.length) :
    (d.feedBytes b).advance n = (d.advance n).feedBytes b := by
  simp only [feedBytes, advance, List.drop_append_of_le_length hn]

theorem take_feedBytes (hn : n ≤ d.inputbuf.length) :
    (d.feedBytes b).inputbuf.take n = d.inputbuf.take n := by
  simp only [feedBytes, List.take_append_of_le_length hn]

theorem length_feedBytes : (d.feedBytes b).inputbuf.length = d.inputbuf.length + b.length := by
  simp only [feedBytes, List.length_append]

theorem completeRecord_continues (b buf : List UInt8) :
    Turn.Continues b (completeRecord d buf) (completeRecord (d.feedBytes b) buf) := by
  unfold completeRecord
  split <;> rfl

/-- The state in which a record is completed is left behind only if its checksum is wrong. -/
theorem completeRecord_sameResult (st st' : DecoderState) (buf : List UInt8) :
    SameResult (completeRecord { d with state := st } buf).run
      (completeRecord { d with state := st' } buf).run := by
  unfold completeRecord
  split
  · exact ⟨rfl, by simp [Turn.run]⟩
  · exact .refl _

theorem pollTurn_of_pageHeaderSize (h : pageHeaderSize d.lsn = 0) : pollTurn d = readPage d := by
  unfold pollTurn
  split
  · rfl
  · exact if_pos h

theorem pollDecode_assemble (h : pageHeaderSize d.lsn = 0) (hpos : 0 < n)
    (hn : n ≤ d.inputbuf.length) (hfit : n ≤ Lsn.remainingInBlock d.lsn) :
    pollDecode { d with state := .reassemblingRecord [] n.toPNat' } =
      (completeRecord { d.advance n with state := .reassemblingRecord [] n.toPNat' }
        (d.inputbuf.take n)).run := by
  have hval : (n.toPNat' : ℕ) = n := PNat.toPNat'_coe hpos
  have hturn : pollTurn { d with state := .reassemblingRecord [] n.toPNat' } =
      readPage { d with state := .reassemblingRecord [] n.toPNat' } := pollTurn_of_pageHeaderSize h
  rw [pollDecode_eq_run, hturn]
  unfold readPage
  simp only [hval, Nat.min_eq_left hfit]
  rw [if_neg (by omega), if_pos (Nat.sub_self n)]
  rfl

/-! ## The parts of a turn -/

/-- Without enough input the decoder has not moved, so it is polled again as it is. -/
theorem stay_continues {b : List UInt8} {t : Turn} (h : pollTurn (d.feedBytes b) = t) :
    Turn.Continues b (.done (.ok none) d) t := by
  subst h
  change SameResult _ _
  rw [← pollDecode_eq_run]
  exact .refl _

theorem readPage_waiting_continues (hst : d.state = .waitingForRecord)
    (h : pageHeaderSize d.lsn = 0) : Turn.Continues b (readPage d) (readPage (d.feedBytes b)) := by
  have hlen := length_feedBytes (d := d) b
  by_cases h4 : d.inputbuf.length < 4
  · have hpage : readPage d = .done (.ok none) d := by
      unfold readPage
      rw [hst]
      exact if_pos h4
    rw [hpage]
    exact stay_continues (pollTurn_of_pageHeaderSize h)
  have h4' : ¬(d.feedBytes b).inputbuf.length < 4 := by omega
  unfold readPage
  rw [feedBytes_state, hst]
  dsimp only
  rw [if_neg h4, take_feedBytes b (by omega), feedBytes_lsn]
  split
  · rfl
  rename_i hlt
  generalize hn : leNat (d.inputbuf.take 4) = n at hlt ⊢
  have hpos : 0 < n := by
    unfold XLOG_SIZE_OF_XLOG_RECORD at hlt
    omega
  by_cases hfast : n ≤ d.inputbuf.length ∧ n ≤ Lsn.remainingInBlock d.lsn
  · have hfast' : n ≤ (d.feedBytes b).inputbuf.length ∧ n ≤ Lsn.remainingInBlock d.lsn := by omega
    rw [if_pos hfast, if_pos hfast', feedBytes_advance b hfast.1, take_feedBytes b hfast.1]
    exact completeRecord_continues b _
  · rw [if_neg hfast]
    split
    · -- the record is complete now: the two ways to copy it meet
      rename_i hnow
      change SameResult _ (pollDecode { d.feedBytes b with state := _ })
      rw [pollDecode_assemble (d := d.feedBytes b) h hpos hnow.1 hnow.2]
      exact completeRecord_sameResult (d := (d.feedBytes b).advance n) _ _ _
    · exact .refl _

theorem readPage_reassembling_continues {recordbuf : List UInt8} {contlen : ℕ+}
    (hst : d.state = .reassemblingRecord recordbuf contlen) (h : pageHeaderSize d.lsn = 0) :
    Turn.Continues b (readPage d) (readPage (d.feedBytes b)) := by
  have hlen := length_feedBytes (d := d) b
  generalize hn : min (contlen : ℕ) (Lsn.remainingInBlock d.lsn) = n
  by_cases hlt : d.inputbuf.length < n
  · have hpage : readPage d = .done (.ok none) d := by
      unfold readPage
      rw [hst]
      dsimp only
      rw [hn, if_pos hlt]
    rw [hpage]
    exact stay_continues (pollTurn_of_pageHeaderSize h)
  have hlt' : ¬(d.feedBytes b).inputbuf.length < n := by omega
  unfold readPage
  rw [feedBytes_state, hst]
  dsimp only
  rw [feedBytes_lsn, hn, if_neg hlt, if_neg hlt', take_feedBytes b (by omega),
    feedBytes_advance b (by omega)]
  split
  · exact completeRecord_continues b _
  · exact .refl _

theorem readPage_skipping_continues {u : ℕ} (hst : d.state = .skippingEverything u) :
    Turn.Continues b (readPage d) (readPage (d.feedBytes b)) := by
  have hlen := length_feedBytes (d := d) b
  by_cases hlt : d.inputbuf.length < u - d.lsn
  · have hpage : readPage d = .done (.ok none) d := by
      unfold readPage
      rw [hst]
      exact if_pos hlt
    rw [hpage]
    refine stay_continues ?_
    unfold pollTurn
    rw [feedBytes_state, hst]
  have hlt' : ¬(d.feedBytes b).inputbuf.length < u - d.lsn := by omega
  unfold readPage
  rw [feedBytes_state, hst]
  dsimp only
  rw [feedBytes_lsn, if_neg hlt, if_neg hlt', feedBytes_advance b (by omega)]
  exact .refl _

theorem readPage_continues (h : pageHeaderSize d.lsn = 0 ∨ ∃ u, d.state = .skippingEverything u) :
    Turn.Continues b (readPage d) (readPage (d.feedBytes b)) := by
  rcases h with h | ⟨u, hst⟩
  · cases hst : d.state with
    | waitingForRecord => exact readPage_waiting_continues b hst h
    | reassemblingRecord recordbuf contlen => exact readPage_reassembling_continues b hst h
    | skippingEverything u => exact readPage_skipping_continues b hst
  · exact readPage_skipping_continues b hst

theorem pollTurn_of_skipping {u : ℕ} (hst : d.state = .skippingEverything u) :
    pollTurn d = readPage d := by
  unfold pollTurn
  rw [hst]

theorem pollTurn_header (hst : ∀ u, d.state ≠ .skippingEverything u) (hn : pageHeaderSize d.lsn = n)
    (h0 : n ≠ 0) : pollTurn d = if d.inputbuf.length < n then .done (.ok none) d
      else match d.validatePageHeader (XLogPageHeaderData.fromBytes (d.inputbuf.take n)) with
        | some msg => .done (.error ⟨msg, d.lsn⟩) { d with inputbuf := d.inputbuf.drop n }
        | none => readPage (d.advance n) := by
  subst hn
  unfold pollTurn
  split
  · rename_i u hu
    exact absurd hu (hst u)
  · exact if_neg h0

/-- **One turn is not changed by input that comes later.** -/
theorem pollTurn_continues (d : WalStreamDecoder) (b : List UInt8) :
    Turn.Continues b (pollTurn d) (pollTurn (d.feedBytes b)) := by
  by_cases hskip : ∃ u, d.state = .skippingEverything u
  · obtain ⟨u, hst⟩ := hskip
    rw [pollTurn_of_skipping hst, pollTurn_of_skipping (d := d.feedBytes b) hst]
    exact readPage_continues b (.inr ⟨u, hst⟩)
  rw [not_exists] at hskip
  generalize hn : pageHeaderSize d.lsn = n
  by_cases h0 : n = 0
  · subst h0
    rw [pollTurn_of_pageHeaderSize hn, pollTurn_of_pageHeaderSize (d := d.feedBytes b) hn]
    exact readPage_continues b (.inl hn)
  by_cases hlt : d.inputbuf.length < n
  · have hpage : pollTurn d = .done (.ok none) d := by rw [pollTurn_header hskip hn h0, if_pos hlt]
    rw [hpage]
    exact stay_continues rfl
  have hlt' : ¬(d.feedBytes b).inputbuf.length < n := by
    rw [length_feedBytes]
    omega
  rw [pollTurn_header hskip hn h0, pollTurn_header (d := d.feedBytes b) hskip hn h0, if_neg hlt,
    if_neg hlt', take_feedBytes b (by omega), feedBytes_advance b (by omega)]
  have hvalid : ∀ hdr, (d.feedBytes b).validatePageHeader hdr = d.validatePageHeader hdr := fun _ ↦
    rfl
  rw [hvalid]
  split
  · rfl
  · refine readPage_continues b (.inl ?_)
    rw [← hn]
    exact pageHeaderSize_behind d.lsn

/-- **A call is not changed by input that comes later.** -/
theorem pollDecode_continues (d : WalStreamDecoder) (b : List UInt8) :
    Continues feedBytes pollDecode b (pollDecode d) (pollDecode (d.feedBytes b)) := by
  induction d using pollDecode.induct with
  | case1 d d' hturn ih =>
    have hc := pollTurn_continues d b
    rw [hturn] at hc
    rw [pollDecode_again hturn]
    refine ih.congr ?_
    rw [pollDecode_eq_run]
    exact hc
  | case2 d r d' hturn =>
    have hc := pollTurn_continues d b
    rw [hturn] at hc
    rw [pollDecode_done hturn, pollDecode_eq_run (d.feedBytes b)]
    exact hc

theorem resumable : Resumable feedBytes pollDecode where
  feed_nil d := by simp only [feedBytes, List.append_nil]
  feed_append d a b := by simp only [feedBytes, List.append_assoc]
  continues := pollDecode_continues

/-! ## Decoding in chunks -/

/-- Call `poll_decode` until it returns nothing, or an error. -/
def drain (d : WalStreamDecoder) :
    List (ℕ × List UInt8) × Option WalDecodeError × WalStreamDecoder :=
  match _h : d.pollDecode with
  | (.error e, d') => ([], some e, d')
  | (.ok none, d') => ([], none, d')
  | (.ok (some r), d') => (r :: (drain d').1, (drain d').2)
termination_by d.inputbuf.length
decreasing_by all_goals exact pollDecode_length_lt _h

theorem drain_eq (d : WalStreamDecoder) : drain d = match d.pollDecode with
      | (.error e, d') => ([], some e, d')
      | (.ok none, d') => ([], none, d')
      | (.ok (some r), d') => (r :: (drain d').1, (drain d').2) := by
  rw [drain]
  split <;> simp_all

theorem drains_drain (d : WalStreamDecoder) :
    Drains pollDecode d (drain d).1 (drain d).2.1 (drain d).2.2 := by
  induction d using drain.induct with
  | case1 d e d' h =>
    rw [drain_eq, h]
    exact .fail h
  | case2 d d' h =>
    rw [drain_eq, h]
    exact .stop h
  | case3 d r d' h ih =>
    rw [drain_eq, h]
    exact .next h ih

/-- Feed the chunks, and after each one read the decoder out: the records with the LSNs that follow
them, and the error that ends the decoding. -/
def decodeChunks (d : WalStreamDecoder) (chunks : List (List UInt8)) :
    List (ℕ × List UInt8) × Option WalDecodeError :=
  readChunks feedBytes drain d chunks

theorem pollDecode_new (lsn : ℕ) (v : PgMajorVersion) :
    pollDecode (new lsn v) = (.ok none, new lsn v) := by
  apply pollDecode_done
  generalize hn : pageHeaderSize lsn = n
  by_cases h0 : n = 0
  · subst h0
    rw [pollTurn_of_pageHeaderSize hn]
    rfl
  · rw [pollTurn_header (by simp [new]) hn h0]
    exact if_pos (Nat.pos_of_ne_zero h0)

theorem decodeChunks_eq (lsn : ℕ) (v : PgMajorVersion) (chunks : List (List UInt8)) :
    decodeChunks (new lsn v) chunks =
      ((drain ((new lsn v).feedBytes chunks.flatten)).1,
        (drain ((new lsn v).feedBytes chunks.flatten)).2.1) :=
  resumable.readChunks_eq drains_drain (pollDecode_new lsn v) chunks

/-- **Decoding does not depend on the chunks**: two ways to cut a stream give the same records with
the same LSNs, and the same error or none. -/
theorem decodeChunks_eq_of_flatten_eq (lsn : ℕ) (v : PgMajorVersion) {cs cs' : List (List UInt8)}
    (h : cs.flatten = cs'.flatten) :
    decodeChunks (new lsn v) cs = decodeChunks (new lsn v) cs' := by
  rw [decodeChunks_eq, decodeChunks_eq, h]

/-- The length of a record comes in two parts. -/
theorem decodeChunks_eq_of_flatten_eq_split :
    decodeChunks (new 64 .PG17) [[7, 0], [0, 0]] = decodeChunks (new 64 .PG17) [[7, 0, 0, 0]] ∧
      decodeChunks (new 64 .PG17) [[7, 0, 0, 0]] = ([], some ⟨"invalid xl_tot_len 7", 64⟩) := by
  refine ⟨decodeChunks_eq_of_flatten_eq 64 .PG17 rfl, ?_⟩
  have hpoll : pollDecode ((new 64 .PG17).feedBytes [7, 0, 0, 0]) =
      (.error ⟨"invalid xl_tot_len 7", 64⟩, (new 64 .PG17).feedBytes [7, 0, 0, 0]) :=
    pollDecode_done rfl
  rw [decodeChunks, readChunks, drain_eq, hpoll]

end NeonStorage.WalStreamDecoder
