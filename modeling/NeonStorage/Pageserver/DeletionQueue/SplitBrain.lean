import NeonStorage.Pageserver.DeletionQueue.ListWriter
import NeonStorage.Pageserver.DeletionQueue.Validator

/-!
# Deletions and stale generations

Along every run, what the deleter is given is confirmed, and so is every position that becomes
visible.
-/

namespace NeonStorage.Pageserver.DeletionQueue

variable {Tenant Timeline Path : Type} [DecidableEq Tenant] [DecidableEq Timeline]

theorem LsnFits.update {w : Facts Tenant}
    {table : List (Tenant × TenantLsnState Timeline (LsnTicket Tenant))} (h : LsnFits w table)
    {t : Tenant} {g : Generation} {time lsn : ℕ} (tl : Timeline) (htime : time < w.now) :
    LsnFits w (updateRemoteConsistentLsn table t tl g ⟨t, g, time, lsn⟩) := by
  unfold updateRemoteConsistentLsn
  split
  next =>
    intro p hp q hq
    rcases List.mem_append.mp hp with hp | hp
    · exact h p hp q hq
    · rw [List.mem_singleton.mp hp] at hq ⊢
      rw [List.mem_singleton.mp hq]
      exact ⟨rfl, rfl, htime⟩
  next =>
    intro p hp q hq
    obtain ⟨p', hp', rfl⟩ := List.mem_map.mp hp
    by_cases ht : p'.1 = t
    · by_cases hgen : p'.2.generation = g
      · simp only [ht, hgen, ne_eq, not_true_eq_false, if_false] at hq ⊢
        rcases List.mem_cons.mp hq with rfl | hq
        · exact ⟨rfl, rfl, htime⟩
        · obtain ⟨h₁, h₂, h₃⟩ := h p' hp' q (List.mem_filter.mp hq).1
          exact ⟨h₁.trans ht, h₂.trans hgen, h₃⟩
      · simp only [ht, hgen, ne_eq, not_false_eq_true] at hq ⊢
        rw [List.mem_singleton.mp hq]
        exact ⟨rfl, rfl, htime⟩
    · simp only [ht] at hq ⊢
      exact h p' hp' q hq

namespace Inv

variable {w w' : World Tenant Timeline Path}

theorem step (h : Inv w) (hs : Step w w') : Inv w' := by
  cases hs with
  | issue t g => exact h.mono ⟨Nat.le_succ _, subset_rfl, subset_rfl⟩ rfl
  | attach t g => exact h.mono ⟨Nat.le_succ _, Set.subset_insert _ _, subset_rfl⟩ rfl
  | enqueue t g paths hg hnone =>
    refine h.ticked.send (fun op hop ↦ ?_) nofun
    cases hop
    refine ⟨hnone, fun o ho ↦ ?_⟩
    obtain ⟨p, -, rfl⟩ := List.mem_map.mp ho
    exact ⟨rfl, rfl, Nat.lt_succ_self _⟩
  | publish t tl g lsn =>
    exact { h.ticked with lsnTable := h.ticked.lsnTable.update tl (Nat.lt_succ_self _) }
  | flush waiter => exact h.ticked.send nofun nofun
  | flushExecute waiter => exact h.ticked.send nofun nofun
  | listWriterTurn saved saved' hn => exact h.ticked.listWriterTurn hn
  | listWriterDeadline saved => exact h.ticked.flushList saved
  | validatorReceive hn => exact h.ticked.validatorReceive hn
  | autoflush hn => exact h.ticked.autoflush hn
  | answer valid htask hvalid hn => exact h.answered_step htask hvalid hn
  | trimNext saved hn => exact h.ticked.trimNext hn
  | finishValidate saved hn => exact h.ticked.finishValidate hn
  | executed hn => exact h.ticked.executed hn
  | cleanNext hn => exact h.ticked.cleanNext hn
  | crash => exact h.ticked.restarted
  | recover attached ha =>
    refine h.ticked.send nofun fun a haa ↦ ?_
    cases haa
    exact ha

theorem of_reachable (h : Reachable w) : Inv w := by
  obtain ⟨w₀, h₀, hrun⟩ := h
  induction hrun with
  | refl => exact initial h₀
  | tail _ hs ih => exact ih.step hs

end Inv

/-- **Whatever was enqueued, written, lost and recovered: what the deleter is given was enqueued in
a generation that was the latest one at a later validation, or whose next generation was, attached
on the same node; and what becomes visible was proposed in a generation that was.** -/
theorem confirmed_of_reachable {w : World Tenant Timeline Path} (h : Reachable w) :
    (∀ o ∈ w.node.deleter, w.Confirmed o) ∧ ∀ u ∈ w.node.visible, w.LsnConfirmed u :=
  ⟨(Inv.of_reachable h).deleter, (Inv.of_reachable h).visible⟩

/-- An object is enqueued in generation 1 and its list is written before the process ends. After the
restart in generation 2 it is validated and reaches the deleter. -/
theorem confirmed_of_reachable_reattached : ∃ w : World Unit Unit Unit, Reachable w ∧
    (w.node.deleter = [⟨(), .valid 1, 4, ()⟩] ∧ w.latest () = .valid 2) ∧
    ((∀ o ∈ w.node.deleter, w.Confirmed o) ∧ ∀ u ∈ w.node.visible, w.LsnConfirmed u) := by
  refine ⟨?w, ?reach, ?given, confirmed_of_reachable ?reach⟩
  case reach =>
    refine ⟨_, .mk fun _ ↦ .none, ?run⟩
    case run =>
      refine .head (.issue () (.valid 1) rfl) ?_
      refine .head (.attach () (.valid 1)) ?_
      refine .head (.recover (fun _ ↦ some (.valid 1)) fun t g hg ↦ ?_) ?_
      · cases hg
        exact .inl rfl
      refine .head (.listWriterTurn true true rfl) ?_
      refine .head (.enqueue () (.valid 1) [()] (.inl rfl) nofun) ?_
      refine .head (.listWriterTurn true true rfl) ?_
      refine .head (.flush 0) ?_
      refine .head (.listWriterTurn true true rfl) ?_
      refine .head .crash ?_
      refine .head (.issue () (.valid 2) rfl) ?_
      refine .head (.attach () (.valid 2)) ?_
      refine .head (.recover (fun _ ↦ some (.valid 2)) fun t g hg ↦ ?_) ?_
      · cases hg
        exact .inl rfl
      refine .head (.listWriterTurn true true rfl) ?_
      refine .head (.validatorReceive rfl) ?_
      refine .head (.autoflush rfl) ?_
      refine .head (.answer (fun _ ↦ true) rfl (fun _ _ ↦ rfl) rfl) ?_
      refine .head (.trimNext true rfl) ?_
      refine .head (.finishValidate true rfl) ?_
      exact .refl
  case given => exact ⟨rfl, rfl⟩

end NeonStorage.Pageserver.DeletionQueue
