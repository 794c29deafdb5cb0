import NeonStorage.Postgres.NextXid
import Mathlib.Data.UInt

/-!
# Truncation of the commit log

`WalIngest::ingest_clog_truncate` drops the segments of the commit log that lie before the page
of a truncation record. Two pages are compared through transaction ids on them, in the order
modulo `2 ^ 32`, and a segment is dropped when its first and its last page precede the cutoff.

The arithmetic is that of `u32` with overflow checks; `none` is an overflow. The second of the
two comparisons adds a whole page to an id of the cutoff page, which leaves the range on the last
page of all. In C the same sum wraps around.
-/

namespace NeonStorage.Postgres

open UInt32

def clogXactsPerPage : ℕ := 2 ^ 15

def slruPagesPerSegment : ℕ := 32

/-- A result of `u32` arithmetic, `none` if it overflows. -/
def checked (n : ℕ) : Option ℕ := if n < 2 ^ 32 then some n else none

/-- `transaction_id_precedes`: the ids that are not above the first normal one are compared as
numbers. -/
def transactionIdPrecedes (id1 id2 : ℕ) : Bool :=
  let first := firstNormalTransactionId.toNat
  if ¬first < id1 ∨ ¬first < id2 then id1 < id2
  else XidPrecedes (ofNat id1) (ofNat id2)

def clogpagePrecedes (page1 page2 : ℕ) : Option Bool := do
  let xid1 ← checked (page1 * clogXactsPerPage)
  let xid1 ← checked (xid1 + (firstNormalTransactionId.toNat + 1))
  let xid2 ← checked (page2 * clogXactsPerPage)
  let xid2 ← checked (xid2 + (firstNormalTransactionId.toNat + 1))
  if transactionIdPrecedes xid1 xid2 then
    let xid2 ← checked (xid2 + clogXactsPerPage)
    return transactionIdPrecedes xid1 (xid2 - 1)
  else return false

/-- A failed assertion is reported as an overflow is. -/
def slruMayDeleteClogsegment (segpage cutoffPage : ℕ) : Option Bool := do
  let segLastPage ← checked (segpage + slruPagesPerSegment)
  guard (segpage % slruPagesPerSegment = 0)
  if ← clogpagePrecedes segpage cutoffPage then clogpagePrecedes (segLastPage - 1) cutoffPage
  else return false

structure ClogTruncate where
  pageno : ℕ
  oldestXid : ℕ
  oldestXidDb : ℕ

/-- The fields of the checkpoint record that the truncation reads or writes. -/
structure CheckPoint where
  nextXid : UInt64
  oldestXid : ℕ
  oldestXidDb : ℕ

/-- The loop over the listed segments: the numbers of those that are dropped. -/
def dropClogSegments (pageno : ℕ) : List ℕ → Option (List ℕ)
  | [] => some []
  | segno :: segnos => do
    let segpage ← checked (segno * slruPagesPerSegment)
    let mayDelete ← slruMayDeleteClogsegment segpage pageno
    let dropped ← dropClogSegments pageno segnos
    return if mayDelete then segno :: dropped else dropped

/-- `WalIngest::ingest_clog_truncate` on the stored `segments`: the new checkpoint and the
dropped segments. -/
def ingestClogTruncate (isShardZero : Bool) (cp : CheckPoint) (truncate : ClogTruncate)
    (segments : List ℕ) : Option (CheckPoint × List ℕ) := do
  let cp := { cp with oldestXid := truncate.oldestXid, oldestXidDb := truncate.oldestXidDb }
  let latestPageNumber := cp.nextXid.toUInt32.toNat / clogXactsPerPage
  -- the current endpoint page must not be eligible for removal
  if ← clogpagePrecedes latestPageNumber truncate.pageno then return (cp, [])
  if isShardZero then return (cp, ← dropClogSegments truncate.pageno segments)
  else return (cp, [])

/-- No transaction id with its status in a dropped segment matters any more: it precedes every
id of the truncation page, and does not lie between that page and `nextXid`. -/
def DropsOnlyDead (nextXid : UInt64) (pageno : ℕ) (dropped : List ℕ) : Prop :=
  ∀ xid : UInt32, xid.toNat / clogXactsPerPage / slruPagesPerSegment ∈ dropped →
    (∀ cutoff : UInt32, cutoff.toNat / clogXactsPerPage = pageno → XidPrecedes xid cutoff) ∧
      let start := ofNat (pageno * clogXactsPerPage)
      ¬xid - start < nextXid.toUInt32 - start

/-! ### Pages as residues -/

/-- How far `page` is ahead of `cutoff`, modulo the number of pages. -/
def pageDistance (page cutoff : ℕ) : ℕ := (page + 2 ^ 17 - cutoff) % 2 ^ 17

/-- The page is ahead of the cutoff by more than half of all pages: it precedes the cutoff. -/
def PagePrecedes (page cutoff : ℕ) : Prop := 2 ^ 16 < pageDistance page cutoff
  deriving Decidable

theorem xidPrecedes_iff (a b : UInt32) :
    XidPrecedes a b ↔ 2 ^ 31 ≤ (2 ^ 32 - b.toNat + a.toNat) % 2 ^ 32 := by
  rw [XidPrecedes, toInt32_neg_iff, UInt32.toNat_sub]

theorem transactionIdPrecedes_iff {id1 id2 : ℕ} (h1 : 3 < id1) (h2 : 3 < id2)
    (hid1 : id1 < 2 ^ 32) (hid2 : id2 < 2 ^ 32) :
    transactionIdPrecedes id1 id2 = decide (2 ^ 31 ≤ (2 ^ 32 - id2 + id1) % 2 ^ 32) := by
  have hfirst : firstNormalTransactionId.toNat = 3 := rfl
  simp only [transactionIdPrecedes, xidPrecedes_iff, hfirst, h1, h2, toNat_ofNat_of_lt' hid1,
    toNat_ofNat_of_lt' hid2, not_true_eq_false, or_self, if_false]

/-- The two comparisons together; the second one overflows for the last page. -/
theorem clogpagePrecedes_eq {page cutoff : ℕ} (hpage : page < 2 ^ 17) (hcutoff : cutoff < 2 ^ 17) :
    clogpagePrecedes page cutoff =
      if cutoff = 2 ^ 17 - 1 ∧ 2 ^ 16 ≤ pageDistance page cutoff then none
      else some (decide (PagePrecedes page cutoff)) := by
  have hfirst : firstNormalTransactionId.toNat = 3 := rfl
  have hdistance : pageDistance page cutoff = (page + 2 ^ 17 - cutoff) % 2 ^ 17 := rfl
  have hchecked {n : ℕ} (h : n < 2 ^ 32) : checked n = some n := if_pos h
  simp only [clogpagePrecedes, clogXactsPerPage, hfirst]
  simp (disch := omega) only [hchecked, Option.bind_eq_bind, Option.bind_some,
    transactionIdPrecedes_iff, decide_eq_true_eq]
  by_cases hlast : cutoff = 2 ^ 17 - 1
  · subst hlast
    have hnone : checked ((2 ^ 17 - 1) * 2 ^ 15 + (3 + 1) + 2 ^ 15) = none := rfl
    rw [hnone]
    by_cases hd : 2 ^ 16 ≤ pageDistance page (2 ^ 17 - 1)
    · rw [if_pos (by omega), if_pos ⟨rfl, hd⟩]
      rfl
    · rw [if_neg (by omega), if_neg (by omega)]
      exact congrArg some (decide_eq_false fun h : _ < _ ↦ hd h.le).symm
  · rw [hchecked (by omega), Option.bind_some, if_neg fun h : cutoff = 2 ^ 17 - 1 ∧ _ ↦ hlast h.1,
      transactionIdPrecedes_iff] <;> try omega
    split_ifs
    · exact congrArg some (decide_eq_decide.mpr (by rw [PagePrecedes]; omega))
    · exact congrArg some (decide_eq_false (by rw [PagePrecedes]; omega)).symm

theorem clogpagePrecedes_of_le {page : ℕ} (hpage : 2 ^ 17 ≤ page) (cutoff : ℕ) :
    clogpagePrecedes page cutoff = none := by
  have hnone : checked (page * clogXactsPerPage) = none :=
    if_neg (by unfold clogXactsPerPage; omega)
  simp [clogpagePrecedes, hnone]

/-! ### Segments -/

/-- The segments whose pages can be compared with the page `pageno`. -/
def Comparable (pageno segno : ℕ) : Prop :=
  segno < 2 ^ 12 ∧ (pageno = 2 ^ 17 - 1 → segno < 2 ^ 11)
  deriving Decidable

/-- The first and the last page of the segment precede the page `pageno`. -/
def SegmentPrecedes (pageno segno : ℕ) : Prop :=
  PagePrecedes (segno * 32) pageno ∧ PagePrecedes (segno * 32 + 31) pageno
  deriving Decidable

theorem mayDelete_eq {pageno : ℕ} (hpageno : pageno < 2 ^ 17) (segno : ℕ) :
    (checked (segno * slruPagesPerSegment)).bind (slruMayDeleteClogsegment · pageno) =
      if Comparable pageno segno then some (decide (SegmentPrecedes pageno segno)) else none := by
  have hchecked {n : ℕ} (h : n < 2 ^ 32) : checked n = some n := if_pos h
  have hdistance : pageDistance (segno * 32) pageno = (segno * 32 + 2 ^ 17 - pageno) % 2 ^ 17 := rfl
  simp only [slruMayDeleteClogsegment, slruPagesPerSegment]
  by_cases hsegno : segno < 2 ^ 12
  · simp (disch := omega) only [hchecked, Option.bind_some, Option.bind_eq_bind]
    rw [clogpagePrecedes_eq (by omega) hpageno]
    split_ifs with hover hok hok <;> simp only [Comparable] at hok
    · omega
    · simp
    · by_cases hd : PagePrecedes (segno * 32) pageno
      · have hahead : 2 ^ 16 < pageDistance (segno * 32) pageno := hd
        have hlast : clogpagePrecedes (segno * 32 + 31) pageno = _ :=
          clogpagePrecedes_eq (by omega) hpageno
        rw [if_neg (by omega)] at hlast
        simp [SegmentPrecedes, hd, hlast]
      · simp [SegmentPrecedes, hd]
    · omega
  · rw [if_neg fun h ↦ hsegno h.1, Option.bind_eq_none_iff]
    intro segpage hsegpage
    have : segpage = segno * 32 := by simp [checked] at hsegpage; omega
    subst this
    simp [clogpagePrecedes_of_le (show 2 ^ 17 ≤ segno * 32 by omega)]

theorem dropClogSegments_eq {pageno : ℕ} (hpageno : pageno < 2 ^ 17) (segnos : List ℕ) :
    dropClogSegments pageno segnos =
      if segnos.all (Comparable pageno ·) then some (segnos.filter (SegmentPrecedes pageno ·))
      else none := by
  induction segnos with
  | nil => rfl
  | cons segno segnos ih =>
    have hstep := mayDelete_eq hpageno segno
    simp only [dropClogSegments, Option.bind_eq_bind, ← Option.bind_assoc] at hstep ⊢
    rw [hstep, ih, List.all_cons]
    cases segnos.all (Comparable pageno ·) <;> by_cases h : Comparable pageno segno <;>
      by_cases hp : SegmentPrecedes pageno segno <;> simp [h, hp]

theorem SegmentPrecedes.pagePrecedes {pageno page : ℕ} (hpageno : pageno < 2 ^ 17)
    (hpage : page < 2 ^ 17) (h : SegmentPrecedes pageno (page / 32)) :
    PagePrecedes page pageno := by
  simp only [SegmentPrecedes, PagePrecedes, pageDistance] at h ⊢
  omega

theorem dropsOnlyDead {nextXid : UInt64} {pageno : ℕ} (hpageno : pageno < 2 ^ 17)
    (hlatest : ¬PagePrecedes (nextXid.toUInt32.toNat / clogXactsPerPage) pageno)
    (segments : List ℕ) :
    DropsOnlyDead nextXid pageno (segments.filter (SegmentPrecedes pageno ·)) := by
  intro xid hxid
  have hlt := xid.toNat_lt
  have hnext := nextXid.toUInt32.toNat_lt
  simp only [List.mem_filter, decide_eq_true_eq, clogXactsPerPage, slruPagesPerSegment]
    at hxid hlatest ⊢
  have hd := hxid.2.pagePrecedes hpageno (by omega)
  simp only [PagePrecedes, pageDistance] at hd hlatest
  constructor
  · intro cutoff hcutoff
    have := cutoff.toNat_lt
    rw [xidPrecedes_iff]
    omega
  · rw [UInt32.lt_iff_toNat_lt, UInt32.toNat_sub, UInt32.toNat_sub,
      toNat_ofNat_of_lt' (by change _ < 2 ^ 32; omega)]
    omega

theorem dropsOnlyDead_nil (nextXid : UInt64) (pageno : ℕ) : DropsOnlyDead nextXid pageno [] :=
  fun _ h ↦ absurd h List.not_mem_nil

/-- The truncation goes through without an overflow and drops only dead segments, except on the
last page of the commit log: there it must compare neither the page of `nextXid` nor a segment
from the half of the pages before the last one. Segments beyond the last page, which no
transaction id has, cannot be compared with anything. -/
theorem ingestClogTruncate_safe_iff (isShardZero : Bool) (cp : CheckPoint)
    (truncate : ClogTruncate) (segments : List ℕ) (hpageno : truncate.pageno < 2 ^ 17) :
    (∃ cp' dropped, ingestClogTruncate isShardZero cp truncate segments = some (cp', dropped) ∧
        DropsOnlyDead cp.nextXid truncate.pageno dropped) ↔
      let latest := cp.nextXid.toUInt32.toNat / clogXactsPerPage
      ¬(truncate.pageno = 2 ^ 17 - 1 ∧ 2 ^ 16 - 1 ≤ latest ∧ latest < 2 ^ 17 - 1) ∧
        (isShardZero → ¬PagePrecedes latest truncate.pageno →
          ∀ segno ∈ segments, Comparable truncate.pageno segno) := by
  have hnext := cp.nextXid.toUInt32.toNat_lt
  have hlatest : cp.nextXid.toUInt32.toNat / clogXactsPerPage < 2 ^ 17 := by
    unfold clogXactsPerPage
    omega
  have hdead := @dropsOnlyDead cp.nextXid _ hpageno
  simp only [ingestClogTruncate, dropClogSegments_eq hpageno]
  generalize cp.nextXid.toUInt32.toNat / clogXactsPerPage = latest at *
  have hdistance : pageDistance latest truncate.pageno =
    (latest + 2 ^ 17 - truncate.pageno) % 2 ^ 17 := rfl
  rw [clogpagePrecedes_eq hlatest hpageno]
  by_cases hover : truncate.pageno = 2 ^ 17 - 1 ∧ 2 ^ 16 ≤ pageDistance latest truncate.pageno
  · rw [if_pos hover]
    simp
    omega
  rw [if_neg hover]
  have hfirst : ¬(truncate.pageno = 2 ^ 17 - 1 ∧ 2 ^ 16 - 1 ≤ latest ∧ latest < 2 ^ 17 - 1) := by
    omega
  by_cases hd : PagePrecedes latest truncate.pageno
  · simpa [hd, dropsOnlyDead_nil] using hfirst
  · cases isShardZero
    · simpa [hd, dropsOnlyDead_nil] using hfirst
    · by_cases hall : segments.all (Comparable truncate.pageno ·)
      · simpa [hd, hall, hdead hd segments] using ⟨by omega, by simpa using hall⟩
      · simpa [hd, hall] using fun _ ↦ by simpa using hall

theorem ingestClogTruncate_safe_sample :
    ∃ cp' dropped, ingestClogTruncate true ⟨2 ^ 32 + 2 ^ 15, 3, 1⟩ ⟨2 ^ 17 - 2, 2 ^ 32 - 2 ^ 16, 1⟩
        [4094, 4095, 0] = some (cp', dropped) ∧
      DropsOnlyDead (2 ^ 32 + 2 ^ 15) (2 ^ 17 - 2) dropped :=
  (ingestClogTruncate_safe_iff true ⟨2 ^ 32 + 2 ^ 15, 3, 1⟩ ⟨2 ^ 17 - 2, 2 ^ 32 - 2 ^ 16, 1⟩
    [4094, 4095, 0] (by decide)).mpr (by decide)

/-- One page later, the comparison of the segment that holds the truncation page overflows. -/
theorem ingestClogTruncate_overflow :
    ingestClogTruncate true ⟨2 ^ 32 + 2 ^ 15, 3, 1⟩ ⟨2 ^ 17 - 1, 2 ^ 32 - 2 ^ 15, 1⟩
      [4094, 4095, 0] = none := by
  decide

end NeonStorage.Postgres
