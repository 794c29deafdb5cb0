import NeonStorage.Pageserver.DeletionQueue.Places
import NeonStorage.Lib.Fallible
import NeonStorage.Lib.Snoc

/-!
# What a flush waits for

A task that waits for `Flush` is notified when the objects that were sent before have left the list
writer. If it then waits for `FlushExecute`, it is notified when the deleter has executed them:
`Flushing` and `Executing` say what is known in between, and `Turn` is anything that the tasks of
the queue do on their own.
-/

namespace NeonStorage.Pageserver.DeletionQueue

open List
variable {Tenant Timeline Obj Upd : Type}

/-! ## Who waits for what -/

namespace Node

variable (n : Node Tenant Timeline Obj Upd) (v : ℕ)

def AwaitsFlush : Prop := .flush v ∈ n.listWriter.rx ∨ v ∈ n.listWriter.pendingFlushes

def AwaitsExecute : Prop :=
  .flushExecute v ∈ n.listWriter.rx ∨ .flush v ∈ n.validator.rx ∨
    n.validator.task.waiter = some v

/-- The number is in use. -/
def HasWaiter : Prop := n.AwaitsFlush v ∨ n.AwaitsExecute v ∨ v ∈ n.notified

end Node

variable {P : Obj → Prop} {v : ℕ} {n n' n'' : Node Tenant Timeline Obj Upd}

structure ByListWriter (n n' : Node Tenant Timeline Obj Upd) : Prop where
  forward : Forward n n'
  flush : ∀ v, n'.AwaitsFlush v → n.AwaitsFlush v
  execute : ∀ v, n'.AwaitsExecute v → n.AwaitsExecute v
  notified : ∀ v ∈ n'.notified, v ∈ n.notified ∨ n.AwaitsFlush v
  validator : ∃ sent, n'.validator = { n.validator with rx := n.validator.rx ++ sent } ∧
    ∀ m ∈ sent, ∀ o ∈ m.objects, ∃ i < 2, o ∈ n.place i
  deleter : n'.deleter = n.deleter
  recovered : n'.listWriter.recovered = n.listWriter.recovered

open ByListWriter

variable {rest : List (ListWriterQueueMessage Tenant Obj)}

namespace ByListWriter

theorem refl : ByListWriter n n :=
  ⟨.refl, fun _ ↦ id, fun _ ↦ id, fun _ ↦ .inl, ⟨[], by simp, nofun⟩, rfl, rfl⟩

theorem trans (h : ByListWriter n n') (h' : ByListWriter n' n'') : ByListWriter n n'' where
  forward := h.forward.trans h'.forward
  flush v hv := h.flush v (h'.flush v hv)
  execute v hv := h.execute v (h'.execute v hv)
  notified v hv := (h'.notified v hv).elim (h.notified v) fun hv ↦ .inr (h.flush v hv)
  validator := by
    obtain ⟨sent, heq, hsent⟩ := h.validator
    obtain ⟨sent', heq', hsent'⟩ := h'.validator
    refine ⟨sent ++ sent', by rw [heq', heq, append_assoc], fun m hm o ho ↦ ?_⟩
    rcases mem_append.mp hm with hm | hm
    · exact hsent m hm o ho
    · obtain ⟨i, hi, ho⟩ := hsent' m hm o ho
      obtain ⟨j, hj, ho⟩ := h.forward i o ho
      exact ⟨j, hj.trans_lt hi, ho⟩
  deleter := h'.deleter.trans h.deleter
  recovered := h'.recovered.trans h.recovered

theorem flushList (n : Node Tenant Timeline Obj Upd) (saved : Bool) :
    ByListWriter n (n.flushList saved) := by
  have hforward := forward_flushList n saved
  unfold Node.flushList at hforward ⊢
  split
  next hempty =>
    rw [if_pos hempty] at hforward
    refine ⟨hforward, fun v hv ↦ ?_, fun v ↦ id, fun v hv ↦ ?_,
      ⟨[], by simp, nofun⟩, rfl, rfl⟩
    · exact hv.imp_right nofun
    · exact (mem_append.mp hv).imp_right .inr
  next hne =>
    rw [if_neg hne] at hforward
    split
    next hsaved =>
      rw [if_pos hsaved] at hforward
      refine ⟨hforward, fun v hv ↦ ?_, fun v hv ↦ ?_, fun v hv ↦ ?_,
        ⟨[.delete n.listWriter.pending], rfl, fun m hm o ho ↦ ?_⟩, rfl, rfl⟩
      · exact hv.imp_right nofun
      · refine hv.imp_right (.imp_left fun h ↦ ?_)
        rcases mem_snoc.mp h with h | h
        · exact h
        · cases h
      · exact (mem_append.mp hv).imp_right .inr
      · rw [mem_singleton.mp hm] at ho
        exact ⟨1, Nat.one_lt_two, ho⟩
    · exact .refl

theorem flushIfNeeded (n : Node Tenant Timeline Obj Upd) (saved : Bool) :
    ByListWriter n (n.flushIfNeeded saved) := by
  unfold Node.flushIfNeeded
  split
  · exact flushList n saved
  · exact .refl

theorem taken {msg : ListWriterQueueMessage Tenant Obj} (hrx : n.listWriter.rx = msg :: rest) :
    ByListWriter n (n.taken rest) := by
  have hsub : rest ⊆ n.listWriter.rx := hrx ▸ subset_cons_self msg rest
  exact ⟨forward_taken hrx, fun v hv ↦ hv.imp_left (@hsub _), fun v hv ↦ hv.imp_left (@hsub _),
    fun _ ↦ .inl, ⟨[], by simp [Node.taken], nofun⟩, rfl, rfl⟩

theorem setPending [DecidableEq Tenant] {op : DeletionOp Tenant Obj}
    {l : DeletionList Tenant Obj} (h : ByListWriter n n') (hop : op.objects ⊆ n.place 0)
    (hpush : n'.listWriter.pending.push op = some l) : ByListWriter n (n'.setPending l) :=
  { h with forward := h.forward.setPending hop hpush }

theorem ingest [DecidableEq Tenant] {op : DeletionOp Tenant Obj} (h : ByListWriter n n')
    (hop : op.objects ⊆ n.place 0) (saved : Bool) : ByListWriter n (n'.ingest op saved) := by
  have h' := h.trans (flushList n' saved)
  unfold Node.ingest
  split
  next l hl => exact h.setPending hop hl
  next =>
    split
    next l hl => exact h'.setPending hop hl
    next => exact h'

end ByListWriter

variable {saved saved' : Bool}

theorem listWriterTurn_cases [DecidableEq Tenant] (hrec : n.listWriter.recovered = true)
    (h : n.listWriterTurn saved saved' = some n') : ∃ msg rest, n.listWriter.rx = msg :: rest ∧
      ((∃ op, msg = .delete op ∧ n' = ((n.taken rest).ingest op saved).flushIfNeeded saved') ∨
      (∃ v, msg = .flush v ∧ n.listWriter.pending.isEmpty = true ∧
        n' = { n.taken rest with notified := n.notified ++ [v] }.flushIfNeeded saved') ∨
      (∃ v, msg = .flush v ∧ n' = { n.taken rest with listWriter := { n.listWriter with
        rx := rest, pendingFlushes := n.listWriter.pendingFlushes ++ [v] } }.flushIfNeeded saved') ∨
      (∃ v, msg = .flushExecute v ∧ n' = { n.taken rest with validator := { n.validator with
        rx := n.validator.rx ++ [ValidatorQueueMessage.flush v] } }.flushIfNeeded saved') ∨
      n' = n.taken rest) := by
  unfold Node.listWriterTurn at h
  split at h
  · cases h
  next msg rest hrx =>
    refine ⟨msg, rest, hrx, ?_⟩
    unfold Node.receive at h
    split at h
    next op =>
      cases (if_pos hrec).symm.trans h
      exact .inl ⟨op, rfl, rfl⟩
    next v =>
      split at h
      next hempty =>
        cases h
        exact .inr (.inl ⟨v, rfl, hempty, rfl⟩)
      next =>
        cases h
        exact .inr (.inr (.inl ⟨v, rfl, rfl⟩))
    next v =>
      cases h
      exact .inr (.inr (.inr (.inl ⟨v, rfl, rfl⟩)))
    next =>
      cases (if_pos hrec).symm.trans h
      exact .inr (.inr (.inr (.inr rfl)))

theorem ByListWriter.listWriterTurn [DecidableEq Tenant] (hrec : n.listWriter.recovered = true)
    (h : n.listWriterTurn saved saved' = some n') : ByListWriter n n' := by
  obtain ⟨msg, rest, hrx, hcase⟩ := listWriterTurn_cases hrec h
  have ht := ByListWriter.taken hrx
  have hmem : msg ∈ n.listWriter.rx := hrx ▸ mem_cons_self
  rcases hcase with ⟨op, rfl, rfl⟩ | ⟨v, rfl, -, rfl⟩ | ⟨v, rfl, rfl⟩ | ⟨v, rfl, rfl⟩ | rfl
  · exact (ht.ingest (fun o ho ↦ mem_flatMap.mpr ⟨_, hmem, ho⟩) saved).trans
      (flushIfNeeded _ saved')
  · refine trans ?_ (flushIfNeeded _ saved')
    refine { ht with notified := fun v' hv' ↦ ?_ }
    rcases mem_snoc.mp hv' with hv' | rfl
    · exact .inl hv'
    · exact .inr (.inl hmem)
  · refine trans ?_ (flushIfNeeded _ saved')
    refine { ht with flush := fun v' hv' ↦ ?_ }
    rcases hv' with hv' | hv'
    · exact ht.flush v' (.inl hv')
    rcases mem_snoc.mp hv' with hv' | rfl
    · exact .inr hv'
    · exact .inl hmem
  · refine trans ?_ (flushIfNeeded _ saved')
    refine { ht with
      forward := fun i o ho ↦ ?_
      execute := fun v' hv' ↦ ?_
      validator := ⟨[.flush v], rfl, fun m hm o ho ↦ ?_⟩ }
    · refine ht.forward i o ?_
      match i with
      | 2 => simpa [Node.place, Node.taken] using ho
      | 0 | 1 | 3 | 4 | _ + 5 => exact ho
    · rcases hv' with hv' | hv' | hv'
      · exact ht.execute v' (.inl hv')
      · rcases mem_snoc.mp hv' with hv' | hv'
        · exact .inr (.inl hv')
        · cases hv'
          exact .inl hmem
      · exact .inr (.inr hv')
    · rw [mem_singleton.mp hm] at ho
      cases ho
  · exact ht

/-! ## Waiting for the list writer -/

section FlushList

variable {saved : Bool}

theorem flushList_rx : (n.flushList saved).listWriter.rx = n.listWriter.rx := by
  unfold Node.flushList
  split
  · rfl
  · split <;> rfl

theorem flushList_pendingFlushes (hv : v ∈ (n.flushList saved).listWriter.pendingFlushes) :
    v ∈ n.listWriter.pendingFlushes := by
  unfold Node.flushList at hv
  split at hv
  · cases hv
  · split at hv
    · cases hv
    · exact hv

theorem flushList_notified (hv : v ∈ (n.flushList saved).notified) : v ∈ n.notified ∨
    v ∈ n.listWriter.pendingFlushes ∧ (n.flushList saved).listWriter.pending.isEmpty = true := by
  unfold Node.flushList at hv ⊢
  split at hv
  next hempty =>
    rw [if_pos hempty]
    exact (mem_append.mp hv).imp_right fun h ↦ ⟨h, hempty⟩
  next hne =>
    rw [if_neg hne]
    split at hv
    next hsaved =>
      rw [if_pos hsaved]
      exact (mem_append.mp hv).imp_right fun h ↦ ⟨h, rfl⟩
    next => exact .inl hv

end FlushList

theorem Past.succ_of_isEmpty (h : Past P 1 n) (hempty : n.listWriter.pending.isEmpty = true) :
    Past P 2 n := by
  intro i hi o ho
  match i with
  | 0 => exact h 0 Nat.one_pos o ho
  | 1 =>
    rw [Node.place, DeletionList.objects_of_isEmpty hempty] at ho
    cases ho

/-- Someone waits for `Flush`, which was sent after the objects with the property `P`. -/
structure Flushing (P : Obj → Prop) (n : Node Tenant Timeline Obj Upd) (v : ℕ) : Prop where
  sent : ∀ pre post, n.listWriter.rx = pre ++ .flush v :: post →
    ∀ m ∈ post, ∀ o ∈ m.objects, ¬P o
  waiting : v ∈ n.listWriter.pendingFlushes → Past P 1 n
  notified : v ∈ n.notified → Past P 2 n
  own : ¬n.AwaitsExecute v

namespace Flushing

section

variable (h : Flushing P n v)
include h

theorem past_of_rx (hrx : n.listWriter.rx = .flush v :: rest) : Past P 1 (n.taken rest) := by
  intro i hi o ho
  obtain rfl : i = 0 := by omega
  obtain ⟨m, hm, ho⟩ := mem_flatMap.mp ho
  exact h.sent [] rest hrx m hm o ho

theorem taken {msg : ListWriterQueueMessage Tenant Obj} (hrx : n.listWriter.rx = msg :: rest) :
    Flushing P (n.taken rest) v where
  sent pre post heq := h.sent (msg :: pre) post (by rw [hrx, cons_append, ← heq]; rfl)
  waiting hv := (h.waiting hv).forward (forward_taken hrx)
  notified hv := (h.notified hv).forward (forward_taken hrx)
  own hv := h.own ((ByListWriter.taken hrx).execute v hv)

theorem flushList (saved : Bool) : Flushing P (n.flushList saved) v := by
  have hby := ByListWriter.flushList n saved
  refine ⟨?_, fun hv ↦ ?_, fun hv ↦ ?_, fun hv ↦ h.own (hby.execute v hv)⟩
  · rw [flushList_rx]
    exact h.sent
  · exact (h.waiting (flushList_pendingFlushes hv)).forward hby.forward
  · rcases flushList_notified hv with hv | ⟨hv, hempty⟩
    · exact (h.notified hv).forward hby.forward
    · exact ((h.waiting hv).forward hby.forward).succ_of_isEmpty hempty

theorem flushIfNeeded (saved : Bool) : Flushing P (n.flushIfNeeded saved) v := by
  unfold Node.flushIfNeeded
  split
  · exact h.flushList saved
  · exact h

end

section Ingest

variable [DecidableEq Tenant] {op : DeletionOp Tenant Obj}

theorem setPending {l : DeletionList Tenant Obj} (h : Flushing P n v)
    (hop : v ∈ n.notified → ∀ o ∈ op.objects, ¬P o)
    (hpush : n.listWriter.pending.push op = some l) : Flushing P (n.setPending l) v where
  sent := h.sent
  waiting hv i hi o ho := by
    obtain rfl : i = 0 := by omega
    exact h.waiting hv 0 hi o ho
  notified hv i hi o ho := by
    match i with
    | 0 => exact h.notified hv 0 hi o ho
    | 1 =>
      rcases DeletionList.mem_push hpush ho with ho | ho
      · exact hop hv o ho
      · exact h.notified hv 1 hi o ho
  own := h.own

theorem ingest (h : Flushing P n v)
    (hop : v ∈ n.notified ∨ v ∈ n.listWriter.pendingFlushes → ∀ o ∈ op.objects, ¬P o)
    (saved : Bool) : Flushing P (n.ingest op saved) v := by
  unfold Node.ingest
  split
  next l hl => exact h.setPending (fun hv ↦ hop (.inl hv)) hl
  next =>
    split
    next l hl =>
      refine (h.flushList saved).setPending (fun hv ↦ hop ?_) hl
      exact (flushList_notified hv).imp_right And.left
    next => exact h.flushList saved

theorem listWriterTurn (h : Flushing P n v) (hrec : n.listWriter.recovered = true)
    (hn : n.listWriterTurn saved saved' = some n') : Flushing P n' v := by
  obtain ⟨msg, rest, hrx, hcase⟩ := listWriterTurn_cases hrec hn
  have ht := h.taken hrx
  have hmem : msg ∈ n.listWriter.rx := hrx ▸ mem_cons_self
  rcases hcase with ⟨op, rfl, rfl⟩ | ⟨v', rfl, hempty, rfl⟩ | ⟨v', rfl, rfl⟩ | ⟨v', rfl, rfl⟩ | rfl
  · refine (ht.ingest (fun hv o ho ↦ ?_) saved).flushIfNeeded saved'
    have hpast : Past P 1 n := hv.elim (fun hv ↦ (h.notified hv).mono (Nat.le_succ 1)) h.waiting
    exact hpast 0 Nat.one_pos o (mem_flatMap.mpr ⟨_, hmem, ho⟩)
  · refine flushIfNeeded ?_ saved'
    refine { ht with notified := fun hv ↦ ?_ }
    rcases mem_snoc.mp hv with hv | rfl
    · exact ht.notified hv
    · exact (h.past_of_rx hrx).succ_of_isEmpty hempty
  · refine flushIfNeeded ?_ saved'
    refine { ht with waiting := fun hv ↦ ?_ }
    rcases mem_snoc.mp hv with hv | rfl
    · exact ht.waiting hv
    · exact h.past_of_rx hrx
  · have hne : v' ≠ v := fun heq ↦ h.own (.inl (heq ▸ hmem))
    refine flushIfNeeded ?_ saved'
    refine { ht with
      waiting := fun hv i hi o ho ↦ ?_, notified := fun hv i hi o ho ↦ ?_, own := fun hv ↦ ?_ }
    · obtain rfl : i = 0 := by omega
      exact ht.waiting hv 0 hi o ho
    · match i with
      | 0 | 1 => exact ht.notified hv _ hi o ho
    · rcases hv with hv | hv | hv
      · exact ht.own (.inl hv)
      · rcases mem_snoc.mp hv with hv | hv
        · exact ht.own (.inr (.inl hv))
        · cases hv
          exact hne rfl
      · exact ht.own (.inr (.inr hv))
  · exact ht

end Ingest

end Flushing

/-! ## What the validator can do -/

structure ByValidator (n n' : Node Tenant Timeline Obj Upd) : Prop where
  forward : Forward n n'
  listWriter : n'.listWriter = n.listWriter
  execute : ∀ v, n'.AwaitsExecute v → n.AwaitsExecute v
  notified : ∀ v ∈ n'.notified, v ∈ n.notified ∨ n.AwaitsExecute v

variable (task : ValidatorTask Tenant Timeline Obj Upd)

namespace ByValidator

variable {waiter : Option ℕ}

theorem refl : ByValidator n n :=
  ⟨.refl, rfl, fun _ ↦ id, fun _ ↦ .inl⟩

section

variable (h : ByValidator n n')
include h

theorem setTask (htrimmed : task.trimmed ⊆ n'.validator.task.trimmed)
    (hw : ∀ v, task.waiter = some v → n.AwaitsExecute v) : ByValidator n (n'.setTask task) := by
  refine ⟨h.forward.setTask task htrimmed, h.listWriter, fun v hv ↦ ?_, h.notified⟩
  rcases hv with hv | hv | hv
  · exact h.execute v (.inl hv)
  · exact h.execute v (.inr (.inl hv))
  · exact hw v hv

theorem flushed (hw : ∀ v, waiter = some v → n.AwaitsExecute v) :
    ByValidator n (n'.flushed waiter) := by
  refine { h.setTask .idle (nil_subset _) nofun with
    notified := fun v hv ↦ ?_ }
  rcases mem_append.mp hv with hv | hv
  · exact h.notified v hv
  · exact .inr (hw v (Option.mem_toList.mp hv))

theorem drain (hw : ∀ v, waiter = some v → n.AwaitsExecute v) :
    ByValidator n (n'.drain waiter) := by
  have hforward := h.forward.drain waiter
  unfold Node.drain at hforward ⊢
  split
  · exact h.flushed hw
  next hne =>
    rw [if_neg hne] at hforward
    have htask := h.setTask (.executing (n'.validator.validatedLists.map DeletionList.sequence)
      waiter) (nil_subset _) hw
    exact { htask with forward := hforward }

theorem beginFlush [DecidableEq Tenant] (hw : ∀ v, waiter = some v → n.AwaitsExecute v) :
    ByValidator n (n'.beginFlush waiter) := by
  have h' : ByValidator n { n' with lsnTable := [] } := { h with }
  unfold Node.beginFlush
  split
  · exact h'.drain hw
  · exact h'.setTask _ (nil_subset _) hw

end

end ByValidator

/-! ## Waiting for the deleter -/

/-- The list writer accepts deletions, and the deleter has objects only while the validator waits
for it. -/
structure Running (n : Node Tenant Timeline Obj Upd) : Prop where
  recovered : n.listWriter.recovered = true
  deleter : (∀ s w, n.validator.task ≠ .executing s w) → n.deleter = []

/-- Someone waits for `FlushExecute`, which was sent after the objects with the property `P` had
left the list writer. -/
structure Executing (P : Obj → Prop) (n : Node Tenant Timeline Obj Upd) (v : ℕ) : Prop where
  past : Past P 2 n
  sent : ∀ pre post, n.validator.rx = pre ++ .flush v :: post → ∀ m ∈ post, ∀ o ∈ m.objects, ¬P o
  waiting : n.validator.task.waiter = some v → Past P 3 n
  drained : ∀ s, n.validator.task = .executing s (some v) → Past P 4 n
  executed : ∀ s, n.validator.task = .cleaning s (some v) → Past P 5 n
  notified : v ∈ n.notified → Past P 5 n
  own : ¬n.AwaitsFlush v

theorem Executing.byListWriter (h : Executing P n v) (hby : ByListWriter n n') :
    Executing P n' v := by
  obtain ⟨sent, hval, hsent⟩ := hby.validator
  have htask : n'.validator.task = n.validator.task := by rw [hval]
  refine ⟨h.past.forward hby.forward, fun pre post heq m hm o ho ↦ ?_, fun hw ↦ ?_, fun s hs ↦ ?_,
    fun s hs ↦ ?_, fun hv ↦ ?_, fun hv ↦ h.own (hby.flush v hv)⟩
  · rw [hval, append_eq_append_iff] at heq
    have hnew : m ∈ sent → ¬P o := fun hm ↦ by
      obtain ⟨i, hi, ho⟩ := hsent m hm o ho
      exact h.past i hi o ho
    rcases heq with ⟨as, -, hsent'⟩ | ⟨bs, hrx, hpost⟩
    · refine hnew (hsent' ▸ mem_append_right _ (mem_cons_of_mem _ hm))
    · cases bs with
      | nil =>
        refine hnew ?_
        rw [nil_append] at hpost
        exact hpost ▸ mem_cons_of_mem _ hm
      | cons b bs =>
        rw [cons_append, List.cons.injEq] at hpost
        rcases mem_append.mp (hpost.2 ▸ hm) with hm | hm
        · exact h.sent pre bs (by rw [hrx, ← hpost.1]) m hm o ho
        · exact hnew hm
  · exact (h.waiting (htask ▸ hw)).forward hby.forward
  · exact (h.drained s (htask ▸ hs)).forward hby.forward
  · exact (h.executed s (htask ▸ hs)).forward hby.forward
  · rcases hby.notified v hv with hv | hv
    · exact (h.notified hv).forward hby.forward
    · exact absurd hv h.own

theorem Running.byListWriter (h : Running n) (hby : ByListWriter n n') : Running n' := by
  obtain ⟨sent, hval, -⟩ := hby.validator
  exact ⟨hby.recovered.trans h.recovered,
    fun htask ↦ hby.deleter.trans (h.deleter (by rwa [hval] at htask))⟩

theorem Flushing.byValidator (h : Flushing P n v) (hby : ByValidator n n') : Flushing P n' v := by
  refine ⟨hby.listWriter ▸ h.sent, fun hv ↦ ?_, fun hv ↦ ?_, fun hv ↦ h.own (hby.execute v hv)⟩
  · exact (h.waiting (hby.listWriter ▸ hv)).forward hby.forward
  · rcases hby.notified v hv with hv | hv
    · exact (h.notified hv).forward hby.forward
    · exact absurd hv h.own

namespace Executing

variable {waiter : Option ℕ}

section

variable (h : Executing P n v)
include h

theorem setTask (htrimmed : task.trimmed ⊆ n.validator.task.trimmed)
    (hw : task.waiter = some v → Past P 3 n) (hd : ∀ s, task = .executing s (some v) → Past P 4 n)
    (hc : ∀ s, task = .cleaning s (some v) → Past P 5 n) : Executing P (n.setTask task) v :=
  have hf := Forward.refl.setTask task htrimmed
  { past := h.past.forward hf
    sent := h.sent
    waiting := fun hv ↦ (hw hv).forward hf
    drained := fun s hs ↦ (hd s hs).forward hf
    executed := fun s hs ↦ (hc s hs).forward hf
    notified := fun hv ↦ (h.notified hv).forward hf
    own := h.own }

theorem flushed (hw : waiter = some v → Past P 5 n) : Executing P (n.flushed waiter) v := by
  have hidle := h.setTask .idle (nil_subset _) nofun nofun nofun
  refine { hidle with notified := fun hv ↦ ?_ }
  rcases mem_append.mp hv with hv | hv
  · exact hidle.notified hv
  · exact (hw (Option.mem_toList.mp hv)).forward
      ((Forward.refl (n := n)).setTask .idle (nil_subset _))

theorem drain (hlists : ∀ l ∈ n.validator.pendingLists, l.intoRemotePaths = [])
    (htrimmed : n.validator.validatedLists = [] → n.validator.task.trimmed = [])
    (hdel : n.deleter = []) (hw : waiter = some v → Past P 3 n) :
    Executing P (n.drain waiter) v := by
  have hpending : ∀ o, o ∉ n.validator.pendingLists.flatMap DeletionList.intoRemotePaths := by
    intro o ho
    obtain ⟨l, hl, ho⟩ := mem_flatMap.mp ho
    rw [hlists l hl] at ho
    cases ho
  have hforward := (Forward.refl (n := n)).drain waiter
  unfold Node.drain at hforward ⊢
  split
  next hempty =>
    rw [List.isEmpty_iff] at hempty
    refine h.flushed fun hv i hi o ho ↦ ?_
    obtain hlt | rfl | rfl : i < 3 ∨ i = 3 ∨ i = 4 := by omega
    · exact hw hv _ hlt o ho
    · rw [Node.place, Validator.held, hempty, htrimmed hempty, append_nil, append_nil] at ho
      exact absurd ho (hpending o)
    · rw [Node.place, hdel] at ho
      cases ho
  next hne =>
    rw [if_neg hne] at hforward
    refine ⟨h.past.forward hforward, h.sent, fun hv ↦ (hw hv).forward hforward,
      fun s hs i hi o ho ↦ ?_, fun s hs ↦ (by cases hs), fun hv ↦ (h.notified hv).forward hforward,
      h.own⟩
    obtain hlt | rfl : i < 3 ∨ i = 3 := by omega
    · cases hs
      exact ((hw rfl).forward hforward) _ hlt o ho
    · rw [Node.place, Validator.held] at ho
      exact absurd ho (by simpa [ValidatorTask.trimmed] using hpending o)

theorem beginFlush [DecidableEq Tenant] (hidle : n.validator.task = .idle) (hdel : n.deleter = [])
    (hw : waiter = some v → Past P 3 n) : Executing P (n.beginFlush waiter) v := by
  have h' : Executing P { n with lsnTable := [] } v := { h with }
  unfold Node.beginFlush
  split
  next hall =>
    rw [Bool.and_eq_true, all_eq_true] at hall
    refine h'.drain (fun l hl ↦ DeletionList.objects_of_isEmpty (hall.1 l hl)) (fun _ ↦ ?_) hdel hw
    rw [hidle]
    rfl
  next =>
    exact h'.setTask _ (nil_subset _) hw (fun _ hs ↦ by cases hs) fun _ hs ↦ by cases hs

end

end Executing

/-! ## Turns -/

/-- What a turn of the validator keeps. -/
structure Keeps (n n' : Node Tenant Timeline Obj Upd) : Prop where
  by_validator : ByValidator n n'
  running : Running n'
  executing : ∀ (P : Obj → Prop) (v : ℕ), Executing P n v → Executing P n' v

namespace Keeps

variable {waiter : Option ℕ} {saved : Bool}

theorem running_drain (h : Running n) (hdel : n.deleter = []) : Running (n.drain waiter) := by
  unfold Node.drain
  split
  · exact ⟨h.recovered, fun _ ↦ hdel⟩
  · exact ⟨h.recovered, fun hs ↦ absurd rfl (hs _ _)⟩

theorem running_beginFlush [DecidableEq Tenant] (h : Running n) (hdel : n.deleter = []) :
    Running (n.beginFlush waiter) := by
  unfold Node.beginFlush
  split
  · exact running_drain ⟨h.recovered, fun _ ↦ hdel⟩ hdel
  · exact ⟨h.recovered, fun _ ↦ hdel⟩

section

variable (h : Running n)
include h

theorem autoflush [DecidableEq Tenant] (hn : n.autoflush = some n') : Keeps n n' := by
  unfold Node.autoflush at hn
  split at hn
  next hidle =>
    cases hn
    have hdel : n.deleter = [] := h.deleter fun s w heq ↦ nomatch hidle.symm.trans heq
    exact ⟨ByValidator.refl.beginFlush fun v hv ↦ (nomatch hv), running_beginFlush h hdel,
      fun P v he ↦ he.beginFlush hidle hdel nofun⟩
  · cases hn

theorem validatorReceive [DecidableEq Tenant] (hn : n.validatorReceive = some n') : Keeps n n' := by
  have hforward := forward_validatorReceive hn
  unfold Node.validatorReceive at hn
  split at hn
  next l rest hidle hrx =>
    have hsub : rest ⊆ n.validator.rx := hrx ▸ subset_cons_self _ rest
    split at hn
    all_goals
      cases hn
      refine ⟨⟨hforward, rfl, fun v hv ↦ hv.imp_right (.imp_left (@hsub _)), fun v ↦ .inl⟩,
        ⟨h.recovered, h.deleter⟩, fun P v he ↦ ?_⟩
      refine ⟨he.past.forward hforward, fun pre post heq ↦ ?_, fun hw ↦ ?_, fun s hs ↦ ?_,
        fun s hs ↦ ?_, fun hv ↦ (he.notified hv).forward hforward, he.own⟩
      · exact he.sent (.delete l :: pre) post (by rw [hrx, cons_append, ← heq])
      · rw [hidle] at hw
        cases hw
      · cases hidle.symm.trans hs
      · cases hidle.symm.trans hs
  next v rest hidle hrx =>
    cases hn
    have hdel : n.deleter = [] := h.deleter fun s w heq ↦ by cases hidle.symm.trans heq
    have hsub : rest ⊆ n.validator.rx := hrx ▸ subset_cons_self _ rest
    have hf : Forward n { n with validator := { n.validator with rx := rest } } :=
      .of_places (by simp [Node.place]) (by simp [Node.place]) (by simp [Node.place, hrx])
        (by simp [Node.place, Validator.held]) (by simp [Node.place])
    have hby : ByValidator n { n with validator := { n.validator with rx := rest } } :=
      ⟨hf, rfl, fun v hv ↦ hv.imp_right (.imp_left (@hsub _)), fun v ↦ .inl⟩
    refine ⟨hby.beginFlush fun v' hv' ↦ ?_, running_beginFlush ⟨h.recovered, h.deleter⟩ hdel,
      fun P v' he ↦ ?_⟩
    · cases hv'
      exact .inr (.inl (hrx ▸ mem_cons_self))
    · refine Executing.beginFlush ⟨he.past.forward hf, fun pre post heq ↦ ?_, fun hw ↦ ?_,
        fun s hs ↦ ?_, fun s hs ↦ ?_, fun hv ↦ (he.notified hv).forward hf, he.own⟩ hidle hdel
        fun hv ↦ ?_
      · exact he.sent (.flush v :: pre) post (by rw [hrx, cons_append, ← heq])
      · cases (congrArg ValidatorTask.waiter hidle).symm.trans hw
      · cases hidle.symm.trans hs
      · cases hidle.symm.trans hs
      · -- everything that was sent before the message has arrived
        cases hv
        intro i hi o ho
        obtain hlt | rfl : i < 2 ∨ i = 2 := by omega
        · exact (he.past.forward hf) _ hlt o ho
        · obtain ⟨m, hm, ho⟩ := mem_flatMap.mp ho
          exact he.sent [] rest hrx m hm o ho
  · cases hn

private theorem of_trimming (hforward : Forward n n')
    (hval : n'.validator.rx = n.validator.rx) (hlw : n'.listWriter = n.listWriter)
    (hnot : n'.notified = n.notified) (hdel : n'.deleter = n.deleter)
    (hw : n'.validator.task.waiter = n.validator.task.waiter)
    (hold : ∀ s w, n.validator.task ≠ .executing s w)
    (hd : ∀ s w, n'.validator.task ≠ .executing s w)
    (hc : ∀ s w, n'.validator.task = .cleaning s w → ∃ s', n.validator.task = .cleaning s' w) :
    Keeps n n' := by
  refine ⟨⟨hforward, hlw, fun v hv ↦ ?_, fun v hv ↦ .inl (hnot ▸ hv)⟩,
    ⟨hlw ▸ h.recovered, fun _ ↦ hdel.trans (h.deleter hold)⟩, fun P v he ↦ ?_⟩
  · unfold Node.AwaitsExecute at hv ⊢
    rwa [hlw, hval, hw] at hv
  · refine ⟨he.past.forward hforward, hval ▸ he.sent, fun hv ↦ ?_, fun s hs ↦ absurd hs (hd _ _),
      fun s hs ↦ ?_, fun hv ↦ (he.notified (hnot ▸ hv)).forward hforward, ?_⟩
    · exact (he.waiting (hw ▸ hv)).forward hforward
    · obtain ⟨s', hs'⟩ := hc s _ hs
      exact (he.executed s' hs').forward hforward
    · unfold Node.AwaitsFlush
      rw [hlw]
      exact he.own

theorem answer {valid : Tenant → Bool} (hn : n.answer valid = some n') : Keeps n n' := by
  have hforward := forward_answer hn
  unfold Node.answer at hn
  split at hn
  next gens updates waiter htask =>
    cases hn
    exact of_trimming h hforward rfl rfl rfl rfl (congrArg ValidatorTask.waiter htask).symm
      (fun s w hs ↦ nomatch htask.symm.trans hs) nofun nofun
  · cases hn

theorem trimNext (hn : n.trimNext saved = some n') : Keeps n n' := by
  have hforward := forward_trimNext hn
  unfold Node.trimNext at hn
  split at hn
  next gens valid trimmed waiter l rest htask hlists =>
    have hw := (congrArg ValidatorTask.waiter htask).symm
    have hold : ∀ s w, n.validator.task ≠ .executing s w :=
      fun s w hs ↦ by cases htask.symm.trans hs
    split at hn
    on_goal 2 => split at hn
    all_goals
      cases hn
      exact of_trimming h hforward rfl rfl rfl rfl hw hold nofun nofun
  · cases hn

theorem finishValidate (hn : n.finishValidate saved = some n') : Keeps n n' := by
  unfold Node.finishValidate at hn
  split at hn
  next gens valid trimmed waiter htask hlists =>
    have hdel : n.deleter = [] := h.deleter fun s w hs ↦ nomatch htask.symm.trans hs
    have hkeep : ∀ disk : Disk Tenant Obj, Keeps n ({ n with
        disk := disk
        validator := { n.validator with
          validatedLists := n.validator.validatedLists ++ trimmed } }.drain waiter) := by
      intro disk
      have hf : Forward n { n with
          validator := { n.validator with
            validatedLists := n.validator.validatedLists ++ trimmed } } := by
        refine .of_places (by simp [Node.place]) (by simp [Node.place]) (by simp [Node.place])
          (fun o ho ↦ mem_append_right _ ?_) (by simp [Node.place])
        simp only [Node.place, Validator.held, htask, ValidatorTask.trimmed, flatMap_append,
          mem_append] at ho ⊢
        tauto
      refine ⟨ByValidator.drain ⟨hf, rfl, fun _ ↦ id, fun _ ↦ .inl⟩ fun v hv ↦ ?_,
        running_drain ⟨h.recovered, fun _ ↦ hdel⟩ hdel, fun P v he ↦ ?_⟩
      · exact .inr (.inr (by rw [htask]; exact hv))
      · refine Executing.drain ⟨he.past.forward hf, he.sent, fun hw ↦ (he.waiting hw).forward hf,
          fun s hs ↦ (he.drained s hs).forward hf, fun s hs ↦ (he.executed s hs).forward hf,
          fun hv ↦ (he.notified hv).forward hf, he.own⟩ (fun l hl ↦ ?_) (fun hempty ↦ ?_) hdel
          fun hv ↦ (he.waiting (by rw [htask]; exact hv)).forward hf
        · rw [hlists] at hl
          cases hl
        · rw [htask]
          exact (append_eq_nil_iff.mp hempty).2
    split at hn
    on_goal 1 => split at hn
    all_goals
      cases hn
      exact hkeep _
  · cases hn

theorem executed (hn : n.executed = some n') : Keeps n n' := by
  have hforward := forward_executed hn
  unfold Node.executed at hn
  split at hn
  next sequences waiter htask =>
    cases hn
    have hw := congrArg ValidatorTask.waiter htask
    refine ⟨⟨hforward, rfl, fun v hv ↦ ?_, fun v ↦ .inl⟩, ⟨h.recovered, fun _ ↦ rfl⟩,
      fun P v he ↦ ?_⟩
    · exact hv.imp_right (.imp_right hw.trans)
    · refine ⟨he.past.forward hforward, he.sent, fun hv ↦
        (he.waiting (hw.trans hv)).forward hforward,
        fun s hs ↦ (nomatch hs), fun s hs i hi o ho ↦ ?_, fun hv ↦
          (he.notified hv).forward hforward, he.own⟩
      cases hs
      have hpast := (he.drained _ htask).forward hforward
      match i with
      | 0 | 1 | 2 | 3 => exact hpast _ (by omega) o ho
      | 4 => cases ho
  · cases hn

theorem cleanNext (hn : n.cleanNext = some n') : Keeps n n' := by
  have hforward := forward_cleanNext hn
  unfold Node.cleanNext at hn
  split at hn
  next s rest waiter htask =>
    cases hn
    exact of_trimming h hforward rfl rfl rfl rfl (congrArg ValidatorTask.waiter htask).symm
      (fun s w hs ↦ nomatch htask.symm.trans hs) nofun fun s' w hs ↦ by
        cases hs
        exact ⟨_, htask⟩
  next waiter htask =>
    cases hn
    have hdel : n.deleter = [] := h.deleter fun s w hs ↦ nomatch htask.symm.trans hs
    refine ⟨ByValidator.refl.flushed fun v hv ↦ ?_, ⟨h.recovered, fun _ ↦ hdel⟩,
      fun P v he ↦ he.flushed fun hv ↦ he.executed [] (by rw [htask, hv])⟩
    exact .inr (.inr (by rw [htask]; exact hv))
  · cases hn

end

end Keeps

/-- What the tasks of the queue do on their own, except for the execution of deletions. -/
inductive Turn [DecidableEq Tenant] (n : Node Tenant Timeline Obj Upd) :
    Node Tenant Timeline Obj Upd → Prop
  | listWriterTurn (m : Node Tenant Timeline Obj Upd) (saved saved' : Bool)
      (h : n.listWriterTurn saved saved' = some m) : Turn n m
  | listWriterDeadline (saved : Bool) : Turn n (n.flushList saved)
  | validatorReceive (m : Node Tenant Timeline Obj Upd) (h : n.validatorReceive = some m) : Turn n m
  | autoflush (m : Node Tenant Timeline Obj Upd) (h : n.autoflush = some m) : Turn n m
  | answer (m : Node Tenant Timeline Obj Upd) (valid : Tenant → Bool)
      (h : n.answer valid = some m) : Turn n m
  | trimNext (m : Node Tenant Timeline Obj Upd) (saved : Bool) (h : n.trimNext saved = some m) :
    Turn n m
  | finishValidate (m : Node Tenant Timeline Obj Upd) (saved : Bool)
      (h : n.finishValidate saved = some m) : Turn n m
  | cleanNext (m : Node Tenant Timeline Obj Upd) (h : n.cleanNext = some m) : Turn n m

/-- **What a turn means to those who wait.** -/
structure Advances (n n' : Node Tenant Timeline Obj Upd) : Prop where
  running : Running n'
  forward : Forward n n'
  waiters : ∀ v, n'.HasWaiter v → n.HasWaiter v
  flushing : ∀ (P : Obj → Prop) (v : ℕ), Flushing P n v → Flushing P n' v
  executing : ∀ (P : Obj → Prop) (v : ℕ), Executing P n v → Executing P n' v

namespace Advances

theorem of_keeps (h : Keeps n n') : Advances n n' where
  running := h.running
  forward := h.by_validator.forward
  waiters v hv := by
    rcases hv with hv | hv | hv
    · unfold Node.AwaitsFlush at hv
      rw [h.by_validator.listWriter] at hv
      exact .inl hv
    · exact .inr (.inl (h.by_validator.execute v hv))
    · rcases h.by_validator.notified v hv with hv | hv
      · exact .inr (.inr hv)
      · exact .inr (.inl hv)
  flushing _ _ hf := hf.byValidator h.by_validator
  executing := h.executing

section

variable (hrun : Running n)
include hrun

theorem of_byListWriter (h : ByListWriter n n')
    (hflush : ∀ (P : Obj → Prop) (v : ℕ), Flushing P n v → Flushing P n' v) : Advances n n' where
  running := hrun.byListWriter h
  forward := h.forward
  waiters v hv := by
    rcases hv with hv | hv | hv
    · exact .inl (h.flush v hv)
    · exact .inr (.inl (h.execute v hv))
    · rcases h.notified v hv with hv | hv
      · exact .inr (.inr hv)
      · exact .inl hv
  flushing := hflush
  executing _ _ he := he.byListWriter h

theorem of_turn [DecidableEq Tenant] (h : Turn n n') : Advances n n' := by
  cases h with
  | listWriterTurn m saved saved' h =>
    exact of_byListWriter hrun (listWriterTurn hrun.recovered h)
      fun P v hf ↦ hf.listWriterTurn hrun.recovered h
  | listWriterDeadline saved =>
    exact of_byListWriter hrun (ByListWriter.flushList n saved) fun P v hf ↦ hf.flushList saved
  | validatorReceive m h => exact of_keeps (.validatorReceive hrun h)
  | autoflush m h => exact of_keeps (.autoflush hrun h)
  | answer m valid h => exact of_keeps (.answer hrun h)
  | trimNext m saved h => exact of_keeps (.trimNext hrun h)
  | finishValidate m saved h => exact of_keeps (.finishValidate hrun h)
  | cleanNext m h => exact of_keeps (.cleanNext hrun h)

theorem of_lsnTable (table : List (Tenant × TenantLsnState Timeline Upd)) :
    Advances n { n with lsnTable := table } where
  running := ⟨hrun.recovered, hrun.deleter⟩
  forward := .refl
  waiters _ := id
  flushing _ _ h := { h with }
  executing _ _ h := { h with }

theorem of_executed (h : n.executed = some n') : Advances n n' :=
  of_keeps (.executed hrun h)

end

end Advances

/-! ## Sending -/

section Send

variable {msg : ListWriterQueueMessage Tenant Obj} {k : ℕ}

theorem mem_place_send {i : ℕ} {o : Obj} (ho : o ∈ (n.send msg).place i) :
    o ∈ n.place i ∨ i = 0 ∧ o ∈ msg.objects := by
  match i with
  | 0 =>
    rw [Node.place, Node.send, flatMap_append, mem_append] at ho
    exact ho.imp_right fun ho ↦ ⟨rfl, by simpa using ho⟩
  | 1 | 2 | 3 | 4 | _ + 5 => exact .inl ho

theorem Past.send (h : Past P k n) (hmsg : ∀ o ∈ msg.objects, ¬P o) : Past P k (n.send msg) := by
  intro i hi o ho
  rcases mem_place_send ho with ho | ⟨-, ho⟩
  · exact h i hi o ho
  · exact hmsg o ho

theorem Running.send (h : Running n) : Running (n.send msg) :=
  ⟨h.recovered, h.deleter⟩

theorem awaitsFlush_send (hv : (n.send msg).AwaitsFlush v) : n.AwaitsFlush v ∨ msg = .flush v := by
  rcases hv with hv | hv
  · exact (mem_snoc.mp hv).imp .inl Eq.symm
  · exact .inl (.inr hv)

theorem awaitsExecute_send (hv : (n.send msg).AwaitsExecute v) :
    n.AwaitsExecute v ∨ msg = .flushExecute v := by
  rcases hv with hv | hv
  · exact (mem_snoc.mp hv).imp .inl Eq.symm
  · exact .inl (.inr hv)

theorem hasWaiter_send (hv : (n.send msg).HasWaiter v) : n.HasWaiter v ∨ msg.waiter = some v := by
  rcases hv with hv | hv | hv
  · rcases awaitsFlush_send hv with hv | rfl
    · exact .inl (.inl hv)
    · exact .inr rfl
  · rcases awaitsExecute_send hv with hv | rfl
    · exact .inl (.inr (.inl hv))
    · exact .inr rfl
  · exact .inl (.inr (.inr hv))

theorem Flushing.send (h : Flushing P n v) (hmsg : ∀ o ∈ msg.objects, ¬P o)
    (hw : msg.waiter ≠ some v) : Flushing P (n.send msg) v := by
  refine ⟨fun pre post heq m hm o ho ↦ ?_, fun hv ↦ (h.waiting hv).send hmsg,
    fun hv ↦ (h.notified hv).send hmsg, fun hv ↦ ?_⟩
  · rcases eq_nil_or_concat post with rfl | ⟨post', m', rfl⟩
    · cases hm
    · rw [concat_eq_append, ← cons_append, ← append_assoc] at heq
      obtain ⟨hrx, hlast⟩ := append_inj' heq rfl
      rw [concat_eq_append, mem_append] at hm
      rcases hm with hm | hm
      · exact h.sent pre post' hrx m hm o ho
      · rw [mem_singleton.mp hm, ← singleton_inj.mp hlast] at ho
        exact hmsg o ho
  · rcases awaitsExecute_send hv with hv | rfl
    · exact h.own hv
    · exact hw rfl

theorem Executing.send (h : Executing P n v) (hmsg : ∀ o ∈ msg.objects, ¬P o)
    (hw : msg.waiter ≠ some v) : Executing P (n.send msg) v := by
  refine ⟨h.past.send hmsg, h.sent, fun hv ↦ (h.waiting hv).send hmsg,
    fun s hs ↦ (h.drained s hs).send hmsg, fun s hs ↦ (h.executed s hs).send hmsg,
    fun hv ↦ (h.notified hv).send hmsg, fun hv ↦ ?_⟩
  rcases awaitsFlush_send hv with hv | rfl
  · exact h.own hv
  · exact hw rfl

theorem Flushing.start (P : Obj → Prop) (hv : ¬n.HasWaiter v) :
    Flushing P (n.send (.flush v)) v := by
  refine ⟨fun pre post heq m hm o ho ↦ ?_, fun h ↦ absurd (.inl (.inr h)) hv,
    fun h ↦ absurd (.inr (.inr h)) hv, fun h ↦ ?_⟩
  · -- the message that was sent is the only one with this number
    rcases eq_nil_or_concat post with rfl | ⟨post', m', rfl⟩
    · cases hm
    · rw [concat_eq_append, ← cons_append, ← append_assoc] at heq
      obtain ⟨hrx, -⟩ := append_inj' heq rfl
      exact absurd (.inl (.inl (hrx ▸ mem_append_right _ mem_cons_self))) hv
  · exact hv (.inr (.inl ((awaitsExecute_send h).resolve_right nofun)))

theorem Executing.start (h : Past P 2 n) (hv : ¬n.HasWaiter v) :
    Executing P (n.send (.flushExecute v)) v := by
  refine ⟨h.send nofun, fun pre post heq ↦ ?_, fun hw ↦ ?_, fun s hs ↦ ?_,
    fun s hs ↦ ?_, fun hn ↦ absurd (.inr (.inr hn)) hv, fun h ↦ ?_⟩
  · exact absurd (.inr (.inl (.inr (.inl (heq ▸ mem_append_right _ mem_cons_self))))) hv
  · exact absurd (.inr (.inl (.inr (.inr hw)))) hv
  · exact absurd (.inr (.inl (.inr (.inr (congrArg ValidatorTask.waiter hs))))) hv
  · exact absurd (.inr (.inl (.inr (.inr (congrArg ValidatorTask.waiter hs))))) hv
  · exact hv (.inl ((awaitsFlush_send h).resolve_right nofun))

end Send

/-! ## Executing everything -/

/-- What may happen while the task `v` waits; no objects with the property are enqueued. -/
inductive Meanwhile [DecidableEq Tenant] (P : Obj → Prop) (v : ℕ)
    (n : Node Tenant Timeline Obj Upd) : Node Tenant Timeline Obj Upd → Prop
  | turn {m : _} (h : Turn n m) : Meanwhile P v n m
  | executed {m : _} (h : n.executed = some m) : Meanwhile P v n m
  | lsnTable (table : List (Tenant × TenantLsnState Timeline Upd)) :
    Meanwhile P v n { n with lsnTable := table }
  | send (msg : ListWriterQueueMessage Tenant Obj) (hmsg : ∀ o ∈ msg.objects, ¬P o)
      (hw : msg.waiter ≠ some v) : Meanwhile P v n (n.send msg)

variable [DecidableEq Tenant]

theorem Meanwhile.keeps (hrun : Running n) (h : Meanwhile P v n n') : Running n' ∧
    (Flushing P n v → Flushing P n' v) ∧ (Executing P n v → Executing P n' v) := by
  have hadv (h : Advances n n') :=
    And.intro h.running (And.intro (h.flushing P v) (h.executing P v))
  cases h with
  | turn h => exact hadv (.of_turn hrun h)
  | executed h => exact hadv (.of_executed hrun h)
  | lsnTable table => exact hadv (.of_lsnTable hrun table)
  | send msg hmsg hw => exact ⟨hrun.send, (·.send hmsg hw), (·.send hmsg hw)⟩

end NeonStorage.Pageserver.DeletionQueue
