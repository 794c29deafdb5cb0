import NeonStorage.Pageserver.DeletionQueue.Confirmation
import NeonStorage.Lib.Snoc

/-!
# The list writer

What a turn of the list writer does to the invariant: the pending list is written before it is
handed on, and recovery gives the validator every list that is on disk.
-/

namespace NeonStorage.Pageserver.DeletionQueue

open List DeletionList ValidatorQueueMessage
variable {Tenant Timeline Path : Type}

variable {op : DeletionOp Tenant (Ticket Tenant Path)}

namespace DeletionList

variable {l l' : DeletionList Tenant (Ticket Tenant Path)}

theorem Exact.push [DecidableEq Tenant] {now : ℕ} (h : l.Exact now) (hpush : l.push op = some l')
    (hgen : op.generation ≠ .none)
    (hop : ∀ o ∈ op.objects, o.tenant = op.tenant ∧ o.generation = op.generation ∧ o.time < now) :
    l'.Exact now := by
  unfold DeletionList.push at hpush
  split at hpush
  · cases hpush
    exact h
  split at hpush
  next hnone =>
    cases hpush
    have hnew : op.tenant ∉ l.tenants.map Prod.fst := by
      intro hmem
      obtain ⟨p, hp, hpt⟩ := mem_map.mp hmem
      exact List.find?_eq_none.mp hnone p hp (by simpa using hpt)
    refine ⟨?_, ?_, ?_⟩
    · rw [map_append]
      exact pairwise_snoc.mpr ⟨h.keys, fun t ht (heq : t = op.tenant) ↦ hnew (heq ▸ ht)⟩
    · exact forall_mem_snoc.mpr ⟨h.generation, hgen⟩
    · exact forall_mem_snoc.mpr ⟨h.ticket, hop⟩
  next entry hentry =>
    split at hpush
    · cases hpush
    next hsame =>
      cases hpush
      have hentry' : entry.1 = op.tenant := by simpa using List.find?_some hentry
      have hmem := mem_of_find?_eq_some hentry
      -- the tenant is in the list once, with the generation of the operation
      have hone : ∀ p ∈ l.tenants, p.1 = op.tenant → p.2.generation = op.generation := by
        intro p hp hpt
        have heq := inj_on_of_nodup_map h.keys hp hmem (hpt.trans hentry'.symm)
        rw [heq]
        simpa using hsame
      refine ⟨?_, fun p hp ↦ ?_, fun p hp ↦ ?_⟩
      · have hkeys : (l.tenants.map fun p ↦ if p.1 = op.tenant then
            (p.1, { p.2 with objects := p.2.objects ++ op.objects }) else p).map Prod.fst =
            l.tenants.map Prod.fst := by
          rw [map_map]
          refine map_congr_left fun p _ ↦ ?_
          by_cases hpt : p.1 = op.tenant <;> simp [hpt]
        rw [hkeys]
        exact h.keys
      · obtain ⟨p', hp', rfl⟩ := mem_map.mp hp
        split
        · exact h.generation p' hp'
        · exact h.generation p' hp'
      · obtain ⟨p', hp', rfl⟩ := mem_map.mp hp
        split
        next hpt =>
          intro o ho
          rcases mem_append.mp ho with ho | ho
          · exact h.ticket p' hp' o ho
          · obtain ⟨h₁, h₂, h₃⟩ := hop o ho
            exact ⟨h₁.trans hpt.symm, h₂.trans (hone p' hp' hpt).symm, h₃⟩
        next => exact h.ticket p' hp'

theorem push_eq [DecidableEq Tenant] (hpush : l.push op = some l') :
    l'.sequence = l.sequence ∧ l'.validated = l.validated := by
  unfold push at hpush
  split at hpush
  · cases hpush
    exact ⟨rfl, rfl⟩
  split at hpush
  · cases hpush
    exact ⟨rfl, rfl⟩
  split at hpush
  · cases hpush
  · cases hpush
    exact ⟨rfl, rfl⟩

end DeletionList

variable {msg : ListWriterQueueMessage Tenant (Ticket Tenant Path)}

namespace Inv

variable {w : World Tenant Timeline Path}

theorem send (h : Inv w)
    (hop : ∀ op, msg = .delete op → op.generation ≠ .none ∧ ∀ o ∈ op.objects, o.tenant = op.tenant ∧
      o.generation = op.generation ∧ o.time < w.now)
    (ha : ∀ a, msg = .recover a → ∀ t g, a t = some g → (t, g) ∈ w.here) :
    Inv { w with node := w.node.send msg } :=
  { h with
    ops := fun op hmem ↦ (mem_append.mp hmem).elim (h.ops op)
      fun heq ↦ hop op (mem_singleton.mp heq).symm
    attached := fun a hmem ↦ (mem_append.mp hmem).elim (h.attached a)
      fun heq ↦ ha a (mem_singleton.mp heq).symm }

theorem writePending (h : Inv w) (hne : w.node.listWriter.pending.isEmpty = false)
    (flushes notified : List ℕ) : Inv { w with node := { w.node with
      disk := w.node.disk.save w.node.listWriter.pending
      listWriter := { w.node.listWriter with
        pending := .new (w.node.listWriter.pending.sequence + 1), pendingFlushes := flushes }
      validator := { w.node.validator with
        rx := w.node.validator.rx ++ [.delete w.node.listWriter.pending] }
      notified := notified } } := by
  have hrec : w.node.listWriter.recovered = true := by
    by_contra hr
    rw [Bool.not_eq_true] at hr
    rw [DeletionList.isEmpty, (h.fresh hr).1] at hne
    cases hne
  obtain ⟨hdisk, hheader⟩ := h.diskBelow hrec
  have hbacklog : ({ w.node.validator with
      rx := w.node.validator.rx ++ [.delete w.node.listWriter.pending] } :
      Validator Tenant Timeline _ _).backlog =
      w.node.validator.backlog ++ [w.node.listWriter.pending] := by
    simp [Validator.backlog, list?]
  refine { h with
    disk := ?_, pending := ⟨exact_new, rfl⟩, backlog := ?_, ordered := ?_, below := ?_
    positive := Nat.le_add_left _ _, diskBelow := fun _ ↦ ?_, covered := fun hr hf p hp ↦ ?_
    fresh := fun hr ↦ ?_ }
  · refine h.disk.save h.positive (fun hv ↦ ?_) (fun _ ↦ h.pending.1) fun i hi hle ↦ ?_
    · cases h.pending.2.symm.trans hv
    · exact absurd hle (Nat.not_le_of_lt (hheader i hi))
  · rw [hbacklog]
    refine forall_mem_snoc.mpr ⟨h.backlog, h.positive, fun hv ↦ ?_, fun _ ↦ h.pending.1.fits⟩
    cases h.pending.2.symm.trans hv
  · rw [hbacklog, ← append_assoc, map_append]
    exact pairwise_snoc.mpr ⟨h.ordered, forall_mem_map.mpr h.below⟩
  · rw [hbacklog, ← append_assoc]
    exact forall_mem_snoc.mpr
      ⟨fun l hl ↦ (h.below l hl).trans (Nat.lt_succ_self _), Nat.lt_succ_self _⟩
  · refine ⟨fun p hp ↦ ?_, fun i hi ↦ (hheader i hi).trans (Nat.lt_succ_self _)⟩
    rcases mem_save hp with rfl | ⟨hp, -⟩
    · exact Nat.lt_succ_self _
    · exact (hdisk p hp).trans (Nat.lt_succ_self _)
  · rw [hbacklog]
    rcases mem_save hp with rfl | ⟨hp, -⟩
    · exact .inr ⟨_, mem_append_right _ mem_cons_self, h.pending.2, rfl, fun _ ↦ id⟩
    · refine (h.covered hr hf p hp).imp_right ?_
      rintro ⟨l, hl, hrest⟩
      exact ⟨l, mem_append_left _ hl, hrest⟩
  · cases hrec.symm.trans hr

theorem flushList (h : Inv w) (saved : Bool) : Inv { w with node := w.node.flushList saved } := by
  unfold Node.flushList
  split
  · exact { h with }
  next hne =>
    split
    · exact h.writePending (by simpa using hne) [] _
    · exact h

theorem flushIfNeeded (h : Inv w) (saved : Bool) :
    Inv { w with node := w.node.flushIfNeeded saved } := by
  unfold Node.flushIfNeeded
  split
  · exact h.flushList saved
  · exact h

private theorem flushList_recovered
    (n : Node Tenant Timeline (Ticket Tenant Path) (LsnTicket Tenant))
    (saved : Bool) : (n.flushList saved).listWriter.recovered = n.listWriter.recovered := by
  unfold Node.flushList
  split
  · rfl
  split
  · rfl
  · rfl

theorem pushPending [DecidableEq Tenant] (h : Inv w) (hrec : w.node.listWriter.recovered = true)
    {l : DeletionList Tenant (Ticket Tenant Path)}
    (hpush : w.node.listWriter.pending.push op = some l) (hgen : op.generation ≠ .none)
    (hop : ∀ o ∈ op.objects, o.tenant = op.tenant ∧ o.generation = op.generation ∧ o.time < w.now) :
    Inv { w with node := w.node.setPending l } := by
  obtain ⟨hseq, hval⟩ := push_eq hpush
  refine { h with
    pending := ⟨h.pending.1.push hpush hgen hop, hval.trans h.pending.2⟩
    below := fun l' hl' ↦ ?_
    positive := ?_
    diskBelow := fun hr ↦ ?_
    fresh := fun hr ↦ ?_ }
  · exact hseq ▸ h.below l' hl'
  · exact hseq ▸ h.positive
  · exact hseq ▸ h.diskBelow hr
  · exact absurd (hrec.symm.trans hr) (by simp)

theorem ingest [DecidableEq Tenant] (h : Inv w) (hrec : w.node.listWriter.recovered = true)
    (hgen : op.generation ≠ .none)
    (hop : ∀ o ∈ op.objects, o.tenant = op.tenant ∧ o.generation = op.generation ∧ o.time < w.now)
    (saved : Bool) : Inv { w with node := w.node.ingest op saved } := by
  unfold Node.ingest
  split
  next l hpush => exact h.pushPending hrec hpush hgen hop
  next =>
    have h' := h.flushList saved
    split
    next l hpush =>
      exact h'.pushPending ((flushList_recovered _ _).trans hrec) hpush hgen hop
    next => exact h'

end Inv

/-! ### Recovery -/

namespace DeletionList

variable {l : DeletionList Tenant (Ticket Tenant Path)} {sequence : ℕ}
  {attached : Tenant → Option Generation}

theorem recovered_sequence : (l.recovered sequence attached).sequence = l.sequence := by
  unfold recovered
  split <;> rfl

variable (p : Tenant × TenantDeletionList (Ticket Tenant Path))

theorem reattach_fst : (reattach attached p).1 = p.1 := by
  unfold reattach
  split
  · split <;> rfl
  · rfl

theorem reattach_objects : (reattach attached p).2.objects = p.2.objects := by
  unfold reattach
  split
  · split <;> rfl
  · rfl

theorem intoRemotePaths_recovered :
    (l.recovered sequence attached).intoRemotePaths = l.intoRemotePaths := by
  unfold recovered
  split
  · rfl
  · simp only [intoRemotePaths, flatMap_map, reattach_objects]

/-- A generation that is replaced is the one before that of the attachment. -/
theorem Exact.fits_recovered {here : Set (Tenant × Generation)} {now : ℕ} (h : l.Exact now)
    (ha : ∀ t g, attached t = some g → (t, g) ∈ here) :
    (l.recovered sequence attached).Fits here now := by
  unfold recovered
  split
  · exact h.fits
  intro p' hp' o ho
  obtain ⟨p, hp, rfl⟩ := mem_map.mp hp'
  rw [reattach_objects] at ho
  obtain ⟨ht, hg, hnow⟩ := h.ticket p hp o ho
  rw [reattach_fst]
  refine ⟨ht, hnow, ?_⟩
  unfold reattach
  split
  next g hg' =>
    split
    next hprev =>
      have hnext : o.generation.next = g := by
        rw [hg, ← hprev]
        exact Generation.next_previous (hprev ▸ h.generation p hp)
      exact .inr ⟨hnext.symm, ha _ _ hg'⟩
    next => exact .inl hg.symm
  next => exact .inl hg.symm

theorem recovered_validated : (l.recovered sequence attached).validated =
    (decide (l.sequence ≤ sequence) || l.validated) := by
  unfold recovered
  split
  next h => simp [h]
  next h => simp [h]

end DeletionList

namespace Inv

variable {w : World Tenant Timeline Path}

private theorem le_foldl_max (lists : List (ℕ × DeletionList Tenant (Ticket Tenant Path))) (s : ℕ) :
    s ≤ lists.foldl (fun s p ↦ max s (p.1 + 1)) s ∧
      ∀ p ∈ lists, p.1 < lists.foldl (fun s p ↦ max s (p.1 + 1)) s := by
  induction lists generalizing s with
  | nil => simp
  | cons q lists ih =>
    obtain ⟨hle, hlt⟩ := ih (max s (q.1 + 1))
    refine ⟨(le_max_left _ _).trans hle, fun p hp ↦ ?_⟩
    rcases mem_cons.mp hp with rfl | hp
    · exact Nat.lt_of_succ_le ((le_max_right _ _).trans hle)
    · exact hlt p hp

private theorem sorted_keys {d : Disk Tenant (Ticket Tenant Path)}
    (h : (d.lists.map Prod.fst).Nodup) : (d.sorted.map Prod.fst).Pairwise (· < ·) := by
  have hle : d.sorted.Pairwise fun p p' ↦ p.1 ≤ p'.1 := pairwise_insertionSort _ _
  have hne : (d.sorted.map Prod.fst).Nodup :=
    ((perm_insertionSort _ d.lists).map Prod.fst).nodup_iff.mpr h
  refine pairwise_map.mpr ?_
  exact hle.imp₂ (fun _ _ h h' ↦ lt_of_le_of_ne h h') (pairwise_map.mp hne)

theorem recover (h : Inv w) (hrec : w.node.listWriter.recovered = false)
    {attached : Tenant → Option Generation} (ha : ∀ t g, attached t = some g → (t, g) ∈ w.here) :
    Inv { w with node := w.node.recover attached } := by
  obtain ⟨hpending, hbacklog, htrimmed⟩ := h.fresh hrec
  set seq := w.node.disk.header.getD 0 with hseq
  have hmem : ∀ p, p ∈ w.node.disk.sorted ↔ p ∈ w.node.disk.lists := fun p ↦
    mem_insertionSort _
  have hbelow := le_foldl_max w.node.disk.sorted (seq + 1)
  have hbacklog' : (w.node.recover attached).validator.backlog =
      w.node.disk.sorted.map fun p ↦ p.2.recovered seq attached := by
    have hrx : ∀ lists : List (ℕ × DeletionList Tenant (Ticket Tenant Path)),
        (lists.map fun p ↦ delete (p.2.recovered seq attached)).filterMap
          list? = lists.map fun p ↦ p.2.recovered seq attached := by
      intro lists
      induction lists with
      | nil => rfl
      | cons p lists ih => simpa [list?] using ih
    rw [Validator.backlog] at hbacklog ⊢
    rw [Node.recover, filterMap_append, ← append_assoc, hbacklog]
    exact hrx _
  have hgood : ∀ p ∈ w.node.disk.lists, (p.2.recovered seq attached).Good w.toFacts := by
    intro p hp
    obtain ⟨hkey, hpos⟩ := h.disk.key p hp
    refine ⟨?_, fun hv ↦ ?_, fun hv ↦ ?_⟩
    · rw [recovered_sequence, hkey]
      exact hpos
    · rw [DeletionList.Sound, intoRemotePaths_recovered]
      rw [recovered_validated, Bool.or_eq_true, decide_eq_true_eq, hkey] at hv
      rcases hv with hle | hv
      · cases hheader : w.node.disk.header with
        | none =>
          rw [hseq, hheader] at hle
          exact absurd (hpos.trans hle) (by simp)
        | some i =>
          rw [hseq, hheader] at hle
          exact h.disk.header i hheader p hp hle
      · exact h.disk.validated p hp hv
    · rw [recovered_validated, Bool.or_eq_false_iff] at hv
      exact (h.disk.exact p hp hv.2).fits_recovered ha
  refine { h with
    pending := ⟨⟨h.pending.1.keys, h.pending.1.generation, h.pending.1.ticket⟩, h.pending.2⟩
    backlog := ?_, ordered := ?_, below := ?_
    positive := (Nat.le_add_left 1 seq).trans hbelow.1
    diskBelow := fun _ ↦ ⟨fun p hp ↦ hbelow.2 p ((hmem p).mpr hp), fun i hi ↦ ?_⟩
    covered := fun _ _ p hp ↦ ?_
    fresh := fun hr ↦ (by cases hr) }
  · rw [hbacklog']
    intro l hl
    obtain ⟨p, hp, rfl⟩ := mem_map.mp hl
    exact hgood p ((hmem p).mp hp)
  · have htask : (w.node.recover attached).validator.task = w.node.validator.task := rfl
    have hkeys : w.node.disk.sorted.map
        (sequence ∘ fun p ↦ p.2.recovered seq attached) =
        w.node.disk.sorted.map Prod.fst := by
      refine map_congr_left fun p hp ↦ ?_
      exact recovered_sequence.trans (h.disk.key p ((hmem p).mp hp)).1
    rw [hbacklog', htask, htrimmed, nil_append, map_map, hkeys]
    exact sorted_keys h.disk.keys
  · have htask : (w.node.recover attached).validator.task = w.node.validator.task := rfl
    rw [hbacklog', htask, htrimmed]
    intro l hl
    obtain ⟨p, hp, rfl⟩ := mem_map.mp hl
    rw [recovered_sequence, (h.disk.key p ((hmem p).mp hp)).1]
    exact hbelow.2 p hp
  · refine Nat.lt_of_lt_of_le ?_ hbelow.1
    have hi' : w.node.disk.header = some i := hi
    rw [hseq, hi']
    exact Nat.lt_succ_self i
  · cases hv : (p.2.recovered seq attached).validated with
    | true =>
      left
      have := (hgood p hp).sound hv
      rwa [DeletionList.Sound, intoRemotePaths_recovered] at this
    | false =>
      right
      refine ⟨p.2.recovered seq attached, ?_, hv, ?_, fun o ho ↦ ?_⟩
      · rw [hbacklog']
        exact mem_map_of_mem ((hmem p).mpr hp)
      · rw [recovered_sequence, (h.disk.key p hp).1]
      · rwa [intoRemotePaths_recovered]

variable {n : Node Tenant Timeline (Ticket Tenant Path) (LsnTicket Tenant)} {saved saved' : Bool}

theorem receive [DecidableEq Tenant] (h : Inv w)
    (hop : ∀ op, msg = .delete op → op.generation ≠ .none ∧ ∀ o ∈ op.objects, o.tenant = op.tenant ∧
      o.generation = op.generation ∧ o.time < w.now)
    (ha : ∀ a, msg = .recover a → ∀ t g, a t = some g → (t, g) ∈ w.here)
    (hn : w.node.receive msg saved saved' = some n) : Inv { w with node := n } := by
  unfold Node.receive at hn
  cases msg with
  | delete op =>
    simp only [Option.ite_none_right_eq_some] at hn
    obtain ⟨hrec, hn⟩ := hn
    cases hn
    obtain ⟨hgen, hop⟩ := hop op rfl
    exact (h.ingest hrec hgen hop saved).flushIfNeeded saved'
  | flush waiter =>
    dsimp only at hn
    split at hn
    · cases hn
      have h' : Inv { w with node := { w.node with notified := w.node.notified ++ [waiter] } } :=
        { h with }
      exact h'.flushIfNeeded saved'
    · cases hn
      have h' : Inv { w with node := { w.node with listWriter := { w.node.listWriter with
          pendingFlushes := w.node.listWriter.pendingFlushes ++ [waiter] } } } := { h with }
      exact h'.flushIfNeeded saved'
  | flushExecute waiter =>
    cases hn
    have h' := h.setRx (w.node.validator.rx ++ [.flush waiter])
      (by simp [list?])
    exact h'.flushIfNeeded saved'
  | recover attached =>
    dsimp only at hn
    split at hn
    · cases hn
      exact h
    next hrec =>
      cases hn
      exact (h.recover (by simpa using hrec) (ha attached rfl)).flushIfNeeded saved'

theorem listWriterTurn [DecidableEq Tenant] (h : Inv w)
    (hn : w.node.listWriterTurn saved saved' = some n) : Inv { w with node := n } := by
  unfold Node.listWriterTurn at hn
  split at hn
  · cases hn
  next msg rest hrx =>
    have hmem : msg ∈ w.node.listWriter.rx := hrx ▸ mem_cons_self
    have h' : Inv { w with node := { w.node with
        listWriter := { w.node.listWriter with rx := rest } } } :=
      { h with
        ops := fun op hop ↦ h.ops op (hrx ▸ mem_cons_of_mem msg hop)
        attached := fun a ha ↦ h.attached a (hrx ▸ mem_cons_of_mem msg ha) }
    exact h'.receive (fun op heq ↦ h.ops op (heq ▸ hmem)) (fun a heq ↦ h.attached a (heq ▸ hmem)) hn

end Inv

end NeonStorage.Pageserver.DeletionQueue
