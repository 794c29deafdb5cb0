import NeonStorage.Protocol.TruncationPoint

/-!
# Streaming to a safekeeper

One connection of an elected walproposer. The proposer announces its election and then sends what
PostgreSQL writes, while the safekeeper stores what has arrived. Whatever the interleaving, nothing
is lost or stored twice, and the bytes are those of the compute (`wal_stored_of_stream`).
-/

namespace NeonStorage.Protocol

open Safekeeper SafeKeeper PhysicalStorage Fallible WalProposer

/-- A connection with the append requests on their way. -/
structure Stream where
  wp : WalProposer
  sk : SafeKeeper
  sent : List AppendRequest

namespace Stream

/-- A step of either side. A request that fails ends the connection. -/
inductive Step (i : ℕ) (s : Stream) : Stream → Prop
  | broadcast (endpos : ℕ) : Step i s { s with wp := s.wp.broadcast endpos }
  -- empty requests are heartbeats
  | send (h : (s.wp.slot i).streamingAt ≤ s.wp.availableLsn) :
    Step i s ⟨(s.wp.sendAppendRequest i).1, s.sk, s.sent ++ [s.wp.appendRequest i]⟩
  | response (resp : AppendResponse) {r : WalProposer × Outbox}
      (h : s.wp.recvAppendResponse i resp = some r) : Step i s { s with wp := r.1 }
  | append {msg : AppendRequest} {msgs : List AppendRequest} (hsent : s.sent = msg :: msgs)
      {flush : Bool} {reply : Option AcceptorProposerMessage} {sk : SafeKeeper}
      (h : exec (handleAppendRequest msg flush) s.sk = (.ok reply, sk)) : Step i s ⟨s.wp, sk, msgs⟩
  | flush {reply : Option AcceptorProposerMessage} {sk : SafeKeeper}
      (h : exec handleFlush s.sk = (.ok reply, sk)) : Step i s { s with sk }

/-- The requests carry the WAL from `pos` to `last`, one behind the other. -/
inductive Carries (wal : ℕ → UInt8) (term last : ℕ) : ℕ → List AppendRequest → Prop
  | nil : Carries wal term last last []
  | cons {msg : AppendRequest} {msgs : List AppendRequest} {n : ℕ} (hterm : msg.h.term = term)
      (hdata : msg.walData = bytesAt wal msg.h.beginLsn n)
      (h : Carries wal term last (msg.h.beginLsn + n) msgs) :
    Carries wal term last msg.h.beginLsn (msg :: msgs)

variable {wal disk : ℕ → UInt8} {term last pos n i start : ℕ} {msg : AppendRequest}
  {msgs : List AppendRequest} {flush : Bool} {reply : Option AcceptorProposerMessage}
  {sk sk₀ : SafeKeeper} {wp : WalProposer} {s s' : Stream}

theorem Carries.snoc (h : Carries wal term last pos msgs) (hterm : msg.h.term = term)
    (hlsn : msg.h.beginLsn = last) (hdata : msg.walData = bytesAt wal last n) :
    Carries wal term (last + n) pos (msgs ++ [msg]) := by
  induction h with
  | nil =>
    subst hlsn
    exact .cons hterm hdata .nil
  | cons hterm' hdata' _ ih => exact .cons hterm' hdata' ih

theorem Carries.le (h : Carries wal term last pos msgs) : pos ≤ last := by
  induction h with
  | nil => exact le_rfl
  | cons _ _ _ ih => omega

theorem Carries.eq_of_nil (h : Carries wal term last pos []) : pos = last := by
  cases h
  rfl

/-! ## The safekeeper -/

private theorem stored_frame {w w' : PhysicalStorage} (h : Stored w msg w')
    (hpos : w.writeLsn = msg.h.beginLsn) : w'.writeLsn = msg.h.beginLsn + msg.walData.length ∧
      w'.disk = writeAt w.disk msg.h.beginLsn msg.walData := by
  induction h with
  | empty h => simp [h, hpos]
  | wrote _ w₁ hw =>
    obtain ⟨hpos', -⟩ := hw
    obtain ⟨fl, fi, fr, heq, -⟩ := writeAndFeed_eq msg.walData hpos'
    obtain ⟨d, wr, fr', de, heq', -⟩ :=
      drainDecoder_frame (w.fed msg.h.beginLsn msg.walData fl fi fr)
    rw [heq, heq']
    exact ⟨rfl, rfl⟩
  | flushed w₁ w₂ _ hf ih =>
    cases hf with
    | same => exact ih
    | sync => exact ih

/-- A request in the term of the safekeeper is stored. -/
private theorem wp_append_stored (hterm : msg.h.term = sk.term) :
    Fallible.wp (handleAppendRequest msg flush)
      (fun _ sk' ↦ sk'.term = sk.term ∧ Stored sk.walStore msg sk'.walStore)
        (fun _ _ ↦ True) sk := by
  refine wp_handleAppendRequest (fun _ _ ↦ trivial) (fun _ hlt ↦ ?_) fun _ _ w hw ↦ ?_
  · omega
  · refine ⟨fun _ _ ↦ trivial, fun _ ↦ trivial, fun _ _ _ ↦ trivial, fun _ _ _ ↦ trivial, ?_⟩
    rintro sk₁ (rfl | ⟨c, -, -, -⟩ | ⟨c, -, -, -, -, ⟨n, -⟩⟩)
    all_goals exact ⟨⟨rfl, hw⟩, rfl, hw⟩

private theorem wp_flush_frame : Fallible.wp handleFlush (fun _ sk' ↦ sk'.term = sk.term ∧
      sk'.walStore.writeLsn = sk.walStore.writeLsn ∧ sk'.walStore.disk = sk.walStore.disk)
    (fun _ _ ↦ True) sk := by
  refine wp_handleFlush (fun _ _ ↦ trivial) (fun _ ↦ trivial) fun w hw ↦ ?_
  cases hw with
  | same => exact ⟨rfl, rfl, rfl⟩
  | sync => exact ⟨rfl, rfl, rfl⟩

/-- A safekeeper that accepts an election stands at the start of the stream. -/
private theorem wp_elected_frame {msg : ProposerElected} (hle : sk.term ≤ msg.term) :
    Fallible.wp (handleElected msg) (fun _ sk' ↦ sk'.term = msg.term ∧
      sk'.walStore.writeLsn = msg.startStreamingAt ∧
        ∀ x < msg.startStreamingAt, sk'.walStore.disk x = sk.walStore.disk x)
      (fun _ _ ↦ True) sk := by
  refine wp_handleElected (fun _ _ ↦ trivial) (fun _ ↦ trivial) (fun _ hlt ↦ ?_)
    (fun _ _ _ _ _ ↦ trivial) (fun _ _ _ _ ↦ trivial) fun sk₁ hr he w hw ↦ ?_
  · omega
  · refine ⟨fun _ ↦ trivial, fun sk₂ hp ↦ ⟨fun _ _ ↦ ?_, fun _ ↦ trivial⟩⟩
    have hstore : sk₁.walStore = sk.walStore := by
      rcases hr with _ | ⟨_, _, ⟨n, -⟩⟩
      all_goals rfl
    have hterm : sk₁.term = msg.term := he.term
    rw [hstore] at hw
    obtain ⟨n, -⟩ := hp
    refine ⟨hterm, ?_⟩
    rcases hw with ⟨-, hend, -⟩ | ⟨-, n', -⟩
    · exact ⟨hend.symm, fun _ _ ↦ rfl⟩
    · exact ⟨rfl, fun x hx ↦ if_pos hx⟩

/-! ## Both sides -/

private theorem response_frame {resp : AppendResponse} {r : WalProposer × Outbox}
    (h : wp.recvAppendResponse i resp = some r) : r.1.wal = wp.wal ∧ r.1.propTerm = wp.propTerm ∧
      (r.1.slot i).streamingAt = (wp.slot i).streamingAt := by
  unfold recvAppendResponse at h
  split_ifs at h
  obtain ⟨wp', hw, rfl⟩ := Option.map_eq_some_iff.mp h
  obtain ⟨-, hw⟩ := Option.ite_none_left_eq_some.mp hw
  cases hw
  simp [setSlot]

/-- What is stored and what is on its way are the compute's WAL from `start` on. -/
structure Inv (i start : ℕ) (wal disk : ℕ → UInt8) (s : Stream) : Prop where
  wal_eq : s.wp.wal = wal
  term_eq : s.sk.term = s.wp.propTerm
  carries : Carries wal s.wp.propTerm (s.wp.slot i).streamingAt s.sk.walStore.writeLsn s.sent
  start_le : start ≤ s.sk.walStore.writeLsn
  disk_eq : ∀ x < s.sk.walStore.writeLsn,
    s.sk.walStore.disk x = if x < start then disk x else wal x

namespace Inv

variable (h : Inv i start wal disk s)

include h

theorem send (hav : (s.wp.slot i).streamingAt ≤ s.wp.availableLsn) : Inv i start wal disk
      ⟨(s.wp.sendAppendRequest i).1, s.sk, s.sent ++ [s.wp.appendRequest i]⟩ := by
  refine ⟨h.wal_eq, h.term_eq, ?_, h.start_le, h.disk_eq⟩
  have hle : (s.wp.slot i).streamingAt ≤ (s.wp.appendRequest i).h.endLsn :=
    le_min (Nat.le_add_right _ _) hav
  have hdata : (s.wp.appendRequest i).walData = bytesAt wal (s.wp.slot i).streamingAt
      ((s.wp.appendRequest i).h.endLsn - (s.wp.slot i).streamingAt) := by
    rw [← h.wal_eq]
    rfl
  have hsnoc := h.carries.snoc rfl rfl hdata
  rw [Nat.add_sub_cancel' hle] at hsnoc
  simpa [sendAppendRequest, setSlot] using hsnoc

theorem append (hsent : s.sent = msg :: msgs)
    (hex : exec (handleAppendRequest msg flush) s.sk = (.ok reply, sk)) :
    Inv i start wal disk ⟨s.wp, sk, msgs⟩ := by
  have hc := h.carries
  rw [hsent] at hc
  generalize hpos : s.sk.walStore.writeLsn = pos at hc
  cases hc with
  | @cons _ _ n hterm hdata hrest =>
    obtain ⟨hterm', hstored⟩ := wp_ok (wp_append_stored (hterm.trans h.term_eq.symm)) hex
    obtain ⟨hwrite, hdisk⟩ := stored_frame hstored hpos
    have hlen : msg.walData.length = n := by simp [hdata, bytesAt]
    have hstart := h.start_le
    rw [hlen] at hwrite
    refine ⟨h.wal_eq, hterm'.trans h.term_eq, by rwa [hwrite], ?_, fun x hx ↦ ?_⟩
    · dsimp only
      omega
    · dsimp only at hx
      rw [hdisk, hdata, writeAt_bytesAt]
      -- the bytes of the request, or what was stored before
      split
      · rw [if_neg (by omega)]
      · exact h.disk_eq x (by omega)

theorem step (hs : Step i s s') : Inv i start wal disk s' := by
  cases hs with
  | broadcast endpos => exact ⟨h.wal_eq, h.term_eq, h.carries, h.start_le, h.disk_eq⟩
  | send hav => exact h.send hav
  | response resp hr =>
    obtain ⟨hwal, hterm, hat⟩ := response_frame hr
    exact ⟨hwal.trans h.wal_eq, h.term_eq.trans hterm.symm, by rw [hterm, hat]; exact h.carries,
      h.start_le, h.disk_eq⟩
  | append hsent hex => exact h.append hsent hex
  | flush hex =>
    obtain ⟨hterm, hwrite, hdisk⟩ := wp_ok wp_flush_frame hex
    exact ⟨h.wal_eq, hterm.trans h.term_eq, by rw [hwrite]; exact h.carries,
      by rw [hwrite]; exact h.start_le, by rw [hwrite, hdisk]; exact h.disk_eq⟩

end Inv

/-- **A safekeeper stores the WAL of the compute.** From the election on, whatever the two sides do
in turn, the WAL up to the write position is what the safekeeper had below the truncation point and
what PostgreSQL wrote from there on, and all that was sent once no request is on its way. -/
theorem wal_stored_of_stream {nodes : List ℕ} (hmem : i ∈ nodes) (hterm : sk₀.term ≤ wp.propTerm)
    (helected : exec (handleElected (wp.electedMsg i)) sk₀ = (.ok reply, sk))
    (hrun : Relation.ReflTransGen (Step i) ⟨(wp.sendProposerElected nodes).1, sk, []⟩ s) :
    s.sk.walStore.writeLsn ∈ Set.Icc (wp.electedMsg i).startStreamingAt (s.wp.slot i).streamingAt ∧
      (∀ x < s.sk.walStore.writeLsn, s.sk.walStore.disk x =
        if x < (wp.electedMsg i).startStreamingAt then sk₀.walStore.disk x else wp.wal x) ∧
      (s.sent = [] → s.sk.walStore.writeLsn = (s.wp.slot i).streamingAt) := by
  obtain ⟨hterm', hwrite, hdisk⟩ := wp_ok (wp_elected_frame hterm) helected
  have h₀ : Inv i (wp.electedMsg i).startStreamingAt wp.wal sk₀.walStore.disk
      ⟨(wp.sendProposerElected nodes).1, sk, []⟩ := by
    refine ⟨rfl, hterm', ?_, hwrite.ge, fun x hx ↦ ?_⟩
    · simp only [sendProposerElected, if_pos hmem, hwrite]
      exact .nil
    · have hx' : x < (wp.electedMsg i).startStreamingAt := hwrite ▸ hx
      rw [if_pos hx']
      exact hdisk x hx'
  have h := run_induction (fun _ _ h hs ↦ h.step hs) h₀ hrun
  exact ⟨⟨h.start_le, h.carries.le⟩, h.disk_eq, fun hnil ↦ Carries.eq_of_nil (hnil ▸ h.carries)⟩

/-- A proposer of term 3 that streams from where the sample safekeeper ends. -/
def sampleProposer : WalProposer :=
  { proposerWith 3 [⟨3, 4096⟩] with mconf := sampleTimeline.mconf, wal := fun _ ↦ 7 }

/-- The connection after the election. -/
def sampleStream : Stream :=
  ⟨(sampleProposer.sendProposerElected [1]).1,
    (exec (handleElected (sampleProposer.electedMsg 1)) sampleSafekeeper).2, []⟩

private theorem exists_eq_ok {ε α σ : Type} {x : Except ε α × σ} (h : x.1.isOk = true) :
    ∃ a, x = (.ok a, x.2) := by
  obtain ⟨e | a, s⟩ := x
  · cases h
  · exact ⟨a, rfl⟩

/-- Two bytes are sent and stored. -/
theorem wal_stored_of_stream_two :
    ∃ s, Relation.ReflTransGen (Step 1) sampleStream s ∧ s.sk.walStore.writeLsn = 4098 ∧
      s.sk.walStore.disk 4097 = 7 := by
  obtain ⟨_, helected⟩ : ∃ reply, exec (handleElected (sampleProposer.electedMsg 1))
      sampleSafekeeper = (.ok reply, sampleStream.sk) := exists_eq_ok (by decide +kernel)
  obtain ⟨_, happend⟩ := exists_eq_ok (x := exec (handleAppendRequest
    ((sampleStream.wp.broadcast 4098).appendRequest 1) true) sampleStream.sk) (by decide +kernel)
  have hrun := ((Relation.ReflTransGen.single
    (Step.broadcast (i := 1) (s := sampleStream) 4098)).tail
    (.send (by decide))).tail (.append rfl happend)
  exact ⟨_, hrun, by decide +kernel,
    (wal_stored_of_stream (by decide) (by decide) helected hrun).2.1 4097 (by decide +kernel)⟩

end Stream

end NeonStorage.Protocol
