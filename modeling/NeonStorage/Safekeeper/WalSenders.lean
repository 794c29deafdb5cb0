import NeonStorage.Lib.Runs
import NeonStorage.Safekeeper.Messages
import Mathlib.Data.List.Perm.Basic
import Mathlib.Algebra.Ring.Int.Defs

/-!
# The registry of WAL senders and the aggregated standby feedback

`WalSenders` holds one slot per connected WAL receiver. A slot stores the last feedback of its
receiver, which is either a pageserver or a standby, and the registry keeps
`agg_standby_feedback`, the feedback that the safekeeper sends on to the compute.

`update_reply_feedback` computes the aggregate of the slots (`updateReplyFeedback_eq`), but only
`record_hs_feedback` and `unregister` call it. The stored value is therefore current along a run
exactly if every other recording operation replaces a contribution by one that cannot be seen
next to the remaining slots (`upToDate_throughout_iff`).
-/

namespace NeonStorage.Safekeeper.WalSenders

open List Option

/-! ### The least valid value -/

section LeastValid

variable {α : Type} [LinearOrder α] [Zero α]

/-- One step of the loop of `update_reply_feedback` for one field: `0` is the invalid value. -/
def minValid (agg v : α) : α :=
  if v ≠ 0 then (if agg ≠ 0 then min agg v else v) else agg

def leastValid (l : List α) : α := ((l.filter (· ≠ 0)).min?).getD 0

/-- Next to the least valid value `m` of the rest, `old` and `new` give the same minimum. -/
def Unseen (m old new : α) : Prop :=
  old = new ∨ m ≠ 0 ∧ (old = 0 ∨ m ≤ old) ∧ (new = 0 ∨ m ≤ new)
  deriving Decidable

@[simp]
theorem minValid_zero_right (a : α) : minValid a 0 = a := by
  simp [minValid]

@[simp]
theorem minValid_zero_left (a : α) : minValid 0 a = a := by
  by_cases ha : a = 0 <;> simp [minValid, ha]

theorem minValid_of_ne {a b : α} (ha : a ≠ 0) (hb : b ≠ 0) : minValid a b = min a b := by
  simp [minValid, ha, hb]

theorem min_ne_zero {a b : α} (ha : a ≠ 0) (hb : b ≠ 0) : min a b ≠ 0 := by
  rcases min_choice a b with h | h <;> rw [h] <;> assumption

theorem minValid_right_comm (a b c : α) :
    minValid (minValid a b) c = minValid (minValid a c) b := by
  by_cases hb : b = 0
  · simp [hb]
  by_cases hc : c = 0
  · simp [hc]
  by_cases ha : a = 0
  · rw [ha, minValid_zero_left, minValid_zero_left, minValid_of_ne hb hc, minValid_of_ne hc hb,
      min_comm]
  rw [minValid_of_ne ha hb, minValid_of_ne ha hc, minValid_of_ne (min_ne_zero ha hb) hc,
    minValid_of_ne (min_ne_zero ha hc) hb, min_right_comm]

theorem foldl_minValid_of_ne {a : α} (ha : a ≠ 0) (l : List α) :
    l.foldl minValid a = (l.filter (· ≠ 0)).foldl min a := by
  induction l generalizing a with
  | nil => rfl
  | cons v l ih =>
    by_cases hv : v = 0
    · simp [hv, ih ha]
    · rw [foldl_cons, minValid_of_ne ha hv, ih (min_ne_zero ha hv),
        filter_cons_of_pos (by simpa using hv), foldl_cons]

theorem foldl_minValid (l : List α) : l.foldl minValid 0 = leastValid l := by
  induction l with
  | nil => rfl
  | cons v l ih =>
    by_cases hv : v = 0
    · simpa [hv, leastValid] using ih
    · rw [foldl_cons, minValid_zero_left, foldl_minValid_of_ne hv, leastValid,
        filter_cons_of_pos (by simpa using hv), min?_cons', getD_some]

theorem minValid_eq_iff (m old new : α) : minValid m old = minValid m new ↔ Unseen m old new := by
  unfold Unseen
  by_cases hm : m = 0
  · simp [hm]
  by_cases ho : old = 0
  · by_cases hn : new = 0
    · simp [ho, hn]
    · simp [ho, minValid_of_ne hm hn, hm, hn, Ne.symm hn]
  · by_cases hn : new = 0
    · simp [hn, minValid_of_ne hm ho, hm, ho]
    · rw [minValid_of_ne hm ho, minValid_of_ne hm hn]
      simp only [hm, ho, hn, ne_eq, not_false_eq_true, true_and, false_or]
      rcases le_total m old with h | h <;> rcases le_total m new with h' | h'
      · simp [h, h']
      · simp only [min_eq_left h, min_eq_right h']
        constructor
        · rintro rfl
          exact .inr ⟨h, le_rfl⟩
        · rintro (rfl | ⟨-, h''⟩)
          · exact le_antisymm h h'
          · exact le_antisymm h'' h'
      · simp only [min_eq_right h, min_eq_left h']
        constructor
        · rintro rfl
          exact .inr ⟨le_rfl, h'⟩
        · rintro (rfl | ⟨h'', -⟩)
          · exact le_antisymm h h'
          · exact le_antisymm h h''
      · simp only [min_eq_right h, min_eq_right h']
        constructor
        · exact .inl
        · rintro (rfl | ⟨h₁, h₂⟩)
          · rfl
          · exact (le_antisymm h h₁).trans (le_antisymm h₂ h')

end LeastValid

/-! ### The registry -/

/-- `StandbyReply`: the standby status update; the LSNs and the timestamp are `0` if invalid. -/
structure StandbyReply where
  writeLsn : ℕ
  flushLsn : ℕ
  applyLsn : ℕ
  replyTs : ℤ
  replyRequested : Bool
  deriving DecidableEq

def StandbyReply.empty : StandbyReply := ⟨0, 0, 0, 0, false⟩

structure StandbyFeedback where
  reply : StandbyReply
  hsFeedback : HotStandbyFeedback
  deriving DecidableEq

def StandbyFeedback.empty : StandbyFeedback := ⟨.empty, .empty⟩

inductive ReplicationFeedback where
  | pageserver (feedback : PageserverFeedback)
  | standby (feedback : StandbyFeedback)
  deriving DecidableEq

/-- `WalSenderState`, of which the registry reads and writes the feedback only. -/
inductive WalSenderState where
  | vanilla (feedback : ReplicationFeedback)
  | interpreted (feedback : ReplicationFeedback)
  deriving DecidableEq

def WalSenderState.getFeedback : WalSenderState → ReplicationFeedback
  | vanilla f => f
  | interpreted f => f

def WalSenderState.setFeedback (f : ReplicationFeedback) : WalSenderState → WalSenderState
  | vanilla _ => vanilla f
  | interpreted _ => interpreted f

@[simp]
theorem WalSenderState.getFeedback_setFeedback (f : ReplicationFeedback) (w : WalSenderState) :
    (w.setFeedback f).getFeedback = f := by
  cases w <;> rfl

def PageserverFeedback.empty : PageserverFeedback := ⟨0, 0, 0, 0, 0, 0, false⟩

structure WalSendersShared where
  aggStandbyFeedback : StandbyFeedback
  lastPsFeedback : PageserverFeedback
  psFeedbackCounter : ℕ
  psCorruptionDetected : Bool
  slots : List (Option WalSenderState)
  deriving DecidableEq

def WalSendersShared.new : WalSendersShared :=
  ⟨.empty, PageserverFeedback.empty, 0, false, []⟩

namespace WalSendersShared

/-- The part of the loop body of `update_reply_feedback` that reads the hot standby feedback. -/
def absorbHs (agg hs : HotStandbyFeedback) : HotStandbyFeedback :=
  let agg := if hs.xmin ≠ 0 then
    { agg with xmin := minValid agg.xmin hs.xmin, ts := max agg.ts hs.ts } else agg
  if hs.catalogXmin ≠ 0 then
    { agg with catalogXmin := minValid agg.catalogXmin hs.catalogXmin, ts := max agg.ts hs.ts }
  else agg

/-- The part of the loop body that reads the reply. -/
def absorbReply (agg reply : StandbyReply) : StandbyReply where
  writeLsn := minValid agg.writeLsn reply.writeLsn
  flushLsn := minValid agg.flushLsn reply.flushLsn
  applyLsn := minValid agg.applyLsn reply.applyLsn
  replyTs := minValid agg.replyTs reply.replyTs
  replyRequested := agg.replyRequested

/-- One round of the loop of `update_reply_feedback`. -/
def absorb (agg : StandbyFeedback) (f : ReplicationFeedback) : StandbyFeedback :=
  match f with
  | .standby sf => ⟨absorbReply agg.reply sf.reply, absorbHs agg.hsFeedback sf.hsFeedback⟩
  | .pageserver _ => agg

/-- `slots.iter().flatten()`, of which the feedback is read. -/
def feedbacks (slots : List (Option WalSenderState)) : List ReplicationFeedback :=
  (slots.filterMap id).map WalSenderState.getFeedback

variable (s : WalSendersShared)

def updateReplyFeedback : WalSendersShared :=
  { s with aggStandbyFeedback := (feedbacks s.slots).foldl absorb .empty }

variable (i : ℕ)

/-- `get_slot_mut`, whose `expect` fails on an empty slot. -/
def getSlot : Option WalSenderState := s.slots[i]?.join

def setSlot (w : Option WalSenderState) : WalSendersShared :=
  { s with slots := s.slots.set i w }

/-- `WalSenders::register`; the id in the returned guard is the position of the slot. -/
def register (w : WalSenderState) : WalSendersShared × ℕ :=
  match s.slots.findIdx? (·.isNone) with
  | some pos => (s.setSlot pos (some w), pos)
  | none => ({ s with slots := s.slots ++ [some w] }, s.slots.length)

def recordPsFeedback (feedback : PageserverFeedback) : Option WalSendersShared := do
  let slot ← s.getSlot i
  some { s.setSlot i (some (slot.setFeedback (.pageserver feedback))) with
    lastPsFeedback := feedback
    psFeedbackCounter := s.psFeedbackCounter + 1
    psCorruptionDetected := s.psCorruptionDetected || feedback.corruptionDetected }

def withReply (reply : StandbyReply) : ReplicationFeedback → ReplicationFeedback
  | .standby sf => .standby { sf with reply }
  | .pageserver _ => .standby ⟨reply, .empty⟩

def recordStandbyReply (reply : StandbyReply) : Option WalSendersShared := do
  let slot ← s.getSlot i
  some (s.setSlot i (some (slot.setFeedback (withReply reply slot.getFeedback))))

def withHsFeedback (feedback : HotStandbyFeedback) : ReplicationFeedback → ReplicationFeedback
  | .standby sf => .standby { sf with hsFeedback := feedback }
  | .pageserver _ => .standby ⟨.empty, feedback⟩

def recordHsFeedback (feedback : HotStandbyFeedback) : Option WalSendersShared := do
  let slot ← s.getSlot i
  some (s.setSlot i (some (slot.setFeedback
    (withHsFeedback feedback slot.getFeedback)))).updateReplyFeedback

/-- `WalSenders::unregister`; the index must exist, the slot may be empty. -/
def unregister : Option WalSendersShared :=
  if i < s.slots.length then some (s.setSlot i none).updateReplyFeedback else none

/-! ### The aggregate of the slots -/

/-- A standby takes part in the transaction horizon. -/
def HoldsXmin (hs : HotStandbyFeedback) : Prop := hs.xmin ≠ 0 ∨ hs.catalogXmin ≠ 0
  deriving Decidable

/-- The aggregate of the feedback of some standbys: the least valid value of each field, and the
latest timestamp among the standbys that hold a transaction horizon. -/
def aggregate (fs : List StandbyFeedback) : StandbyFeedback where
  reply :=
    { writeLsn := leastValid (fs.map (·.reply.writeLsn))
      flushLsn := leastValid (fs.map (·.reply.flushLsn))
      applyLsn := leastValid (fs.map (·.reply.applyLsn))
      replyTs := leastValid (fs.map (·.reply.replyTs))
      replyRequested := false }
  hsFeedback :=
    { ts := ((fs.filter (HoldsXmin ·.hsFeedback)).map (·.hsFeedback.ts)).foldl max 0
      xmin := leastValid (fs.map (·.hsFeedback.xmin))
      catalogXmin := leastValid (fs.map (·.hsFeedback.catalogXmin)) }

def standbys (fs : List ReplicationFeedback) : List StandbyFeedback :=
  fs.filterMap fun
    | .standby sf => some sf
    | .pageserver _ => none

/-- What a slot contributes: a pageserver counts as a standby without valid values. -/
def contribution : ReplicationFeedback → StandbyFeedback
  | .standby sf => sf
  | .pageserver _ => .empty

theorem absorbHs_eq (agg hs : HotStandbyFeedback) : absorbHs agg hs =
      ⟨if HoldsXmin hs then max agg.ts hs.ts else agg.ts, minValid agg.xmin hs.xmin,
        minValid agg.catalogXmin hs.catalogXmin⟩ := by
  by_cases hx : hs.xmin = 0 <;> by_cases hc : hs.catalogXmin = 0 <;>
    simp [absorbHs, HoldsXmin, hx, hc]

theorem absorb_eq (agg : StandbyFeedback) (f : ReplicationFeedback) :
    absorb agg f = ⟨absorbReply agg.reply (contribution f).reply,
      absorbHs agg.hsFeedback (contribution f).hsFeedback⟩ := by
  cases f with
  | standby sf => rfl
  | pageserver pf =>
    simp [absorb, absorbReply, absorbHs_eq, contribution, StandbyFeedback.empty,
      StandbyReply.empty, HotStandbyFeedback.empty, HoldsXmin]

theorem foldl_absorb (a : StandbyFeedback) (fs : List ReplicationFeedback) : fs.foldl absorb a =
      { reply :=
          { writeLsn := ((standbys fs).map (·.reply.writeLsn)).foldl minValid a.reply.writeLsn
            flushLsn := ((standbys fs).map (·.reply.flushLsn)).foldl minValid a.reply.flushLsn
            applyLsn := ((standbys fs).map (·.reply.applyLsn)).foldl minValid a.reply.applyLsn
            replyTs := ((standbys fs).map (·.reply.replyTs)).foldl minValid a.reply.replyTs
            replyRequested := a.reply.replyRequested }
        hsFeedback :=
          { ts := (((standbys fs).filter (HoldsXmin ·.hsFeedback)).map (·.hsFeedback.ts)).foldl
              max a.hsFeedback.ts
            xmin := ((standbys fs).map (·.hsFeedback.xmin)).foldl minValid a.hsFeedback.xmin
            catalogXmin :=
              ((standbys fs).map (·.hsFeedback.catalogXmin)).foldl minValid
                a.hsFeedback.catalogXmin } } := by
  induction fs generalizing a with
  | nil => rfl
  | cons f fs ih =>
    rw [foldl_cons, ih]
    cases f with
    | pageserver pf => rfl
    | standby sf =>
      have hcons : standbys (.standby sf :: fs) = sf :: standbys fs := rfl
      by_cases hs : HoldsXmin sf.hsFeedback <;>
        simp [hcons, absorb, absorbReply, absorbHs_eq, hs]

theorem aggregate_eq_foldl (fs : List ReplicationFeedback) :
    aggregate (standbys fs) = fs.foldl absorb .empty := by
  rw [foldl_absorb]
  simp only [StandbyFeedback.empty, StandbyReply.empty, HotStandbyFeedback.empty, foldl_minValid,
    aggregate]

theorem updateReplyFeedback_eq :
    s.updateReplyFeedback.aggStandbyFeedback = aggregate (standbys (feedbacks s.slots)) :=
  (aggregate_eq_foldl (feedbacks s.slots)).symm

/-- The order of the slots does not matter. -/
instance : RightCommutative absorb where
  right_comm a f g := by
    rw [absorb_eq, absorb_eq, absorb_eq, absorb_eq]
    simp only [absorbReply, absorbHs_eq, minValid_right_comm _ (contribution f).reply.writeLsn,
      minValid_right_comm _ (contribution f).reply.flushLsn,
      minValid_right_comm _ (contribution f).reply.applyLsn,
      minValid_right_comm _ (contribution f).reply.replyTs,
      minValid_right_comm _ (contribution f).hsFeedback.xmin,
      minValid_right_comm _ (contribution f).hsFeedback.catalogXmin]
    split_ifs
    · rw [max_right_comm]
    all_goals rfl

variable {w : WalSenderState}

theorem aggregate_of_perm {slots rest : List (Option WalSenderState)}
    (h : slots.Perm (some w :: rest)) : aggregate (standbys (feedbacks slots)) =
      absorb (aggregate (standbys (feedbacks rest))) w.getFeedback := by
  have hperm : (feedbacks slots).Perm (feedbacks rest ++ [w.getFeedback]) :=
    ((h.filterMap id).map WalSenderState.getFeedback).trans
      (perm_append_singleton w.getFeedback (feedbacks rest)).symm
  rw [aggregate_eq_foldl, aggregate_eq_foldl, hperm.foldl_eq, foldl_append]
  rfl

/-! ### Runs -/

inductive PostgresClientProtocol where
  | vanilla
  | interpreted
  deriving DecidableEq

/-- The state with which `handle_start_replication_guts` registers a walsender. -/
def PostgresClientProtocol.newWalSender : PostgresClientProtocol → WalSenderState
  | vanilla => .vanilla (.pageserver PageserverFeedback.empty)
  | interpreted => .interpreted (.pageserver PageserverFeedback.empty)

inductive Step where
  | register (protocol : PostgresClientProtocol)
  | recordPsFeedback (i : ℕ) (feedback : PageserverFeedback)
  | recordStandbyReply (i : ℕ) (reply : StandbyReply)
  | recordHsFeedback (i : ℕ) (feedback : HotStandbyFeedback)
  | unregister (i : ℕ)
  deriving DecidableEq

/-- One operation; it fails if there is no walsender in the slot. -/
def step : Step → Option WalSendersShared
  | .register protocol => some (s.register protocol.newWalSender).1
  | .recordPsFeedback i feedback => s.recordPsFeedback i feedback
  | .recordStandbyReply i reply => s.recordStandbyReply i reply
  | .recordHsFeedback i feedback => s.recordHsFeedback i feedback
  | .unregister i => s.unregister i

/-- The stored aggregate is the aggregate of the slots. -/
def UpToDate : Prop :=
  s.aggStandbyFeedback = aggregate (standbys (feedbacks s.slots))
  deriving Decidable

def others : StandbyFeedback :=
  aggregate (standbys (feedbacks (s.slots.eraseIdx i)))

/-- Next to the aggregated reply `m` of the other slots, the change of a reply cannot be seen. -/
def UnseenReply (m old new : StandbyReply) : Prop :=
  Unseen m.writeLsn old.writeLsn new.writeLsn ∧ Unseen m.flushLsn old.flushLsn new.flushLsn ∧
    Unseen m.applyLsn old.applyLsn new.applyLsn ∧ Unseen m.replyTs old.replyTs new.replyTs

/-- Next to the aggregated hot standby feedback `m` of the other slots, `old` cannot be seen. -/
def UnseenHs (m old : HotStandbyFeedback) : Prop :=
  Unseen m.xmin old.xmin 0 ∧ Unseen m.catalogXmin old.catalogXmin 0 ∧
    (HoldsXmin old → old.ts ≤ m.ts)

/-- The operations that recompute the aggregate are clean, and so is the registration. The two
that do not recompute it are clean if the change of the slot cannot be seen next to the others. -/
def Clean (a : Step) (_ : WalSendersShared) : Prop :=
  match a with
  | .recordPsFeedback i _ => ∀ w, s.getSlot i = some w →
      UnseenReply (others s i).reply (contribution w.getFeedback).reply .empty ∧
        UnseenHs (others s i).hsFeedback (contribution w.getFeedback).hsFeedback
  | .recordStandbyReply i reply => ∀ w, s.getSlot i = some w →
      UnseenReply (others s i).reply (contribution w.getFeedback).reply reply
  | _ => True

variable {s} {i}

theorem getSlot_eq_some (h : s.getSlot i = some w) : s.slots[i]? = some (some w) :=
  join_eq_some_iff.mp h

theorem forall_getSlot (h : s.getSlot i = some w) {P : WalSenderState → Prop} :
    (∀ w', s.getSlot i = some w' → P w') ↔ P w := by
  simp [h]

theorem aggregate_slots (h : s.getSlot i = some w) :
    aggregate (standbys (feedbacks s.slots)) = absorb (others s i) w.getFeedback := by
  obtain ⟨hi, hw⟩ := List.getElem?_eq_some_iff.mp (getSlot_eq_some h)
  exact aggregate_of_perm (hw ▸ (getElem_cons_eraseIdx_perm hi).symm)

theorem aggregate_setSlot (hi : i < s.slots.length) (w : WalSenderState) :
    aggregate (standbys (feedbacks (s.setSlot i (some w)).slots)) =
      absorb (others s i) w.getFeedback := aggregate_of_perm (set_perm_cons_eraseIdx hi (some w))

theorem absorbReply_eq_iff (m old new : StandbyReply) :
    absorbReply m old = absorbReply m new ↔ UnseenReply m old new := by
  simp only [absorbReply, StandbyReply.mk.injEq, minValid_eq_iff, UnseenReply, and_true]

theorem absorbHs_eq_self_iff (m old : HotStandbyFeedback) :
    absorbHs m old = m ↔ UnseenHs m old := by
  have hmin (a b : ℕ) : minValid a b = a ↔ Unseen a b 0 := by
    rw [← minValid_eq_iff, minValid_zero_right]
  rw [absorbHs_eq, UnseenHs, ← hmin, ← hmin]
  cases m with
  | mk ts xmin catalogXmin =>
    simp only [HotStandbyFeedback.mk.injEq]
    by_cases h : HoldsXmin old
    · simp only [h, if_true, max_eq_left_iff]
      tauto
    · simp [h]

variable (m : StandbyFeedback)

theorem absorb_pageserver (pf : PageserverFeedback) : absorb m (.pageserver pf) = m := rfl

theorem absorb_eq_self_iff (f : ReplicationFeedback) :
    absorb m f = m ↔ UnseenReply m.reply (contribution f).reply .empty ∧
      UnseenHs m.hsFeedback (contribution f).hsFeedback := by
  have hreply : absorbReply m.reply .empty = m.reply := by
    simp [absorbReply, StandbyReply.empty]
  rw [absorb_eq, ← absorbReply_eq_iff, ← absorbHs_eq_self_iff, hreply]
  cases m
  simp

theorem absorb_eq_withReply_iff (f : ReplicationFeedback) (reply : StandbyReply) :
    absorb m f = absorb m (withReply reply f) ↔
      UnseenReply m.reply (contribution f).reply reply := by
  have hcontribution : contribution (withReply reply f) = ⟨reply, (contribution f).hsFeedback⟩ := by
    cases f <;> rfl
  rw [absorb_eq, absorb_eq, hcontribution, ← absorbReply_eq_iff]
  simp

/-- The registered walsender starts as a pageserver, whatever its protocol. -/
theorem getFeedback_newWalSender (protocol : PostgresClientProtocol) :
    protocol.newWalSender.getFeedback = .pageserver PageserverFeedback.empty := by
  cases protocol <;> rfl

theorem aggregate_register (s : WalSendersShared) (protocol : PostgresClientProtocol) :
    aggregate (standbys (feedbacks (s.register protocol.newWalSender).1.slots)) =
      aggregate (standbys (feedbacks s.slots)) := by
  rw [register]
  split
  · rename_i pos hpos
    obtain ⟨hlt, hnone, -⟩ := findIdx?_eq_some_iff_getElem.mp hpos
    have hperm : s.slots.Perm (none :: s.slots.eraseIdx pos) := by
      rw [← isNone_iff_eq_none.mp hnone]
      exact (getElem_cons_eraseIdx_perm hlt).symm
    have hrest : aggregate (standbys (feedbacks s.slots)) = others s pos := by
      rw [aggregate_eq_foldl, others, aggregate_eq_foldl]
      exact ((hperm.filterMap id).map WalSenderState.getFeedback).foldl_eq _
    rw [aggregate_setSlot hlt, getFeedback_newWalSender, absorb_pageserver, hrest]
  · rw [aggregate_of_perm (perm_append_singleton (some protocol.newWalSender) s.slots),
      getFeedback_newWalSender, absorb_pageserver]

theorem upToDate_setFeedback_iff (h : UpToDate s) (hw : s.getSlot i = some w)
    (f : ReplicationFeedback) : UpToDate (s.setSlot i (some (w.setFeedback f))) ↔
      absorb (others s i) w.getFeedback = absorb (others s i) f := by
  obtain ⟨hi, -⟩ := List.getElem?_eq_some_iff.mp (getSlot_eq_some hw)
  have hnew := aggregate_setSlot hi (w.setFeedback f)
  rw [WalSenderState.getFeedback_setFeedback] at hnew
  exact Eq.congr (h.trans (aggregate_slots hw)) hnew

theorem upToDate_step_iff {s' : WalSendersShared} {a : Step} (h : UpToDate s)
    (hstep : step s a = some s') : UpToDate s' ↔ Clean s a s' := by
  cases a with
  | register protocol =>
    cases hstep
    refine iff_of_true ?_ trivial
    have hagg : (s.register protocol.newWalSender).1.aggStandbyFeedback = s.aggStandbyFeedback := by
      rw [register]
      split <;> rfl
    rw [UpToDate, aggregate_register, hagg, h]
  | recordPsFeedback i feedback =>
    obtain ⟨w, hw, hs'⟩ := bind_eq_some_iff.mp hstep
    cases hs'
    rw [Clean, forall_getSlot hw]
    exact (upToDate_setFeedback_iff h hw _).trans (absorb_eq_self_iff _ _)
  | recordStandbyReply i reply =>
    obtain ⟨w, hw, hs'⟩ := bind_eq_some_iff.mp hstep
    cases hs'
    rw [Clean, forall_getSlot hw]
    exact (upToDate_setFeedback_iff h hw _).trans (absorb_eq_withReply_iff _ _ reply)
  | recordHsFeedback i feedback =>
    obtain ⟨w, hw, hs'⟩ := bind_eq_some_iff.mp hstep
    cases hs'
    exact iff_of_true (updateReplyFeedback_eq _) trivial
  | unregister i =>
    rw [step, unregister] at hstep
    split_ifs at hstep
    cases hstep
    exact iff_of_true (updateReplyFeedback_eq _) trivial

/-- Along a run from the empty registry, the stored aggregate is the aggregate of the slots in
every state exactly if no pageserver feedback and no standby reply changes what can be seen of
its slot. -/
theorem upToDate_throughout_iff (as : List Step) :
    Runs.Throughout step UpToDate .new as ↔ Runs.EachStep step Clean .new as :=
  Runs.throughout_iff_eachStep
    (fun _ _ _ _ h hstep ↦ ⟨trivial, upToDate_step_iff h hstep⟩) trivial rfl

/-- A standby connects and sends a status update. -/
def firstReply : List Step :=
  [.register .vanilla, .recordStandbyReply 0 ⟨30, 20, 10, 1, false⟩]

/-- After the first status update the aggregate still says that no standby has applied anything. -/
theorem not_upToDate_firstReply : ∃ s, firstReply.foldlM step .new = some s ∧
      s.aggStandbyFeedback.reply.applyLsn = 0 ∧
      (aggregate (standbys (feedbacks s.slots))).reply.applyLsn = 10 ∧ ¬ UpToDate s := by
  decide

end WalSendersShared

end NeonStorage.Safekeeper.WalSenders
