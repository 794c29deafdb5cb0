import NeonStorage.Pageserver.DeletionQueue.Model

/-!
# The way of an object through the deletion queue

Objects go through the deletion queue in one direction: from the channel of the list writer to the
pending list, the channel of the validator, the lists of the validator, and the deleter. These are
the places `0` to `4` (`Node.place`), and every function of the queue moves objects on only
(`Forward`).
-/

namespace NeonStorage.Pageserver.DeletionQueue

open List DeletionList Node Validator
variable {Tenant Timeline Obj Upd : Type}

/-! ## Places -/

namespace ListWriterQueueMessage

def objects : ListWriterQueueMessage Tenant Obj → List Obj
  | .delete op => op.objects
  | .flush _ | .flushExecute _ | .recover _ => []

def waiter : ListWriterQueueMessage Tenant Obj → Option ℕ
  | .flush v | .flushExecute v => some v
  | .delete _ | .recover _ => none

end ListWriterQueueMessage

namespace ValidatorQueueMessage

def objects : ValidatorQueueMessage Tenant Obj → List Obj
  | .delete l => l.intoRemotePaths
  | .flush _ => []

variable (l : DeletionList Tenant Obj) (v : ℕ)

@[simp] theorem objects_delete : (delete l).objects = l.intoRemotePaths := rfl
@[simp] theorem objects_flush : (flush v : ValidatorQueueMessage Tenant Obj).objects = [] := rfl

end ValidatorQueueMessage

/-- The task on behalf of which the validator flushes. -/
def ValidatorTask.waiter : ValidatorTask Tenant Timeline Obj Upd → Option ℕ
  | .idle => none
  | .validating _ _ waiter | .trimming _ _ _ waiter | .executing _ waiter | .cleaning _ waiter =>
    waiter

def Validator.held (v : Validator Tenant Timeline Obj Upd) : List (DeletionList Tenant Obj) :=
  v.pendingLists ++ v.validatedLists ++ v.task.trimmed

def Node.place (n : Node Tenant Timeline Obj Upd) : ℕ → List Obj
  | 0 => n.listWriter.rx.flatMap ListWriterQueueMessage.objects
  | 1 => n.listWriter.pending.intoRemotePaths
  | 2 => n.validator.rx.flatMap ValidatorQueueMessage.objects
  | 3 => n.validator.held.flatMap intoRemotePaths
  | 4 => n.deleter
  | _ => []

/-- No object with the property `P` is in the first `k` places. -/
def Past (P : Obj → Prop) (k : ℕ) (n : Node Tenant Timeline Obj Upd) : Prop :=
  ∀ i < k, ∀ o ∈ n.place i, ¬P o

/-- From `n` to `n'`, objects move on only. -/
def Forward (n n' : Node Tenant Timeline Obj Upd) : Prop :=
  ∀ i, ∀ o ∈ n'.place i, ∃ j ≤ i, o ∈ n.place j

variable {P : Obj → Prop} {k : ℕ} {n n' n'' : Node Tenant Timeline Obj Upd}

theorem Forward.refl : Forward n n :=
  fun i _ ho ↦ ⟨i, le_rfl, ho⟩

theorem Forward.trans (h : Forward n n') (h' : Forward n' n'') : Forward n n'' := by
  intro i o ho
  obtain ⟨j, hj, ho⟩ := h' i o ho
  obtain ⟨j', hj', ho⟩ := h j o ho
  exact ⟨j', hj'.trans hj, ho⟩

theorem Past.forward (h : Past P k n) (hf : Forward n n') : Past P k n' := by
  intro i hi o ho
  obtain ⟨j, hj, ho⟩ := hf i o ho
  exact h j (hj.trans_lt hi) o ho

theorem Past.mono {k' : ℕ} (h : Past P k n) (hk : k' ≤ k) : Past P k' n :=
  fun i hi ↦ h i (hi.trans_le hk)

variable {l l' : DeletionList Tenant Obj} {op : DeletionOp Tenant Obj}

theorem Forward.of_places (h₀ : n'.place 0 ⊆ n.place 0) (h₁ : n'.place 1 ⊆ n.place 0 ++ n.place 1)
    (h₂ : n'.place 2 ⊆ n.place 1 ++ n.place 2) (h₃ : n'.place 3 ⊆ n.place 2 ++ n.place 3)
    (h₄ : n'.place 4 ⊆ n.place 3 ++ n.place 4) : Forward n n' := by
  intro i o ho
  have hstep : ∀ j, o ∈ n.place j ++ n.place (j + 1) → ∃ j' ≤ j + 1, o ∈ n.place j' := by
    intro j hj
    rcases mem_append.mp hj with hj | hj
    · exact ⟨j, Nat.le_succ j, hj⟩
    · exact ⟨j + 1, le_rfl, hj⟩
  match i with
  | 0 => exact ⟨0, le_rfl, h₀ ho⟩
  | 1 => exact hstep 0 (h₁ ho)
  | 2 => exact hstep 1 (h₂ ho)
  | 3 => exact hstep 2 (h₃ ho)
  | 4 => exact hstep 3 (h₄ ho)
  | _ + 5 => cases ho

/-! ## The list writer -/

theorem DeletionList.objects_of_isEmpty (h : l.isEmpty = true) : l.intoRemotePaths = [] := by
  rw [isEmpty, List.isEmpty_iff] at h
  rw [intoRemotePaths, h, flatMap_nil]

theorem forward_flushList (n : Node Tenant Timeline Obj Upd) (saved : Bool) :
    Forward n (n.flushList saved) := by
  unfold flushList
  split
  · exact .of_places (by simp [place]) (by simp [place]) (by simp [place])
      (by simp [place]) (by simp [place])
  split
  · refine .of_places (by simp [place]) (by simp [place, intoRemotePaths,
      new]) ?_ (by simp [place, held]) (by simp [place])
    intro o ho
    simp [place] at ho ⊢
    tauto
  · exact .refl

theorem DeletionList.mem_push [DecidableEq Tenant] (h : l.push op = some l') {o : Obj}
    (ho : o ∈ l'.intoRemotePaths) : o ∈ op.objects ∨ o ∈ l.intoRemotePaths := by
  unfold push at h
  split at h
  · cases h
    exact .inr ho
  split at h
  · cases h
    rw [intoRemotePaths, flatMap_append, mem_append] at ho
    rcases ho with ho | ho
    · exact .inr ho
    · exact .inl (by simpa using ho)
  split at h
  · cases h
  · cases h
    obtain ⟨p, hp, ho⟩ := mem_flatMap.mp ho
    obtain ⟨p', hp', rfl⟩ := mem_map.mp hp
    have hmem : ∀ o' ∈ p'.2.objects, o' ∈ l.intoRemotePaths :=
      fun o' ho' ↦ mem_flatMap.mpr ⟨p', hp', ho'⟩
    split at ho
    · rcases mem_append.mp ho with ho | ho
      · exact .inr (hmem o ho)
      · exact .inl ho
    · exact .inr (hmem o ho)

section Messages

variable {rest : List (ListWriterQueueMessage Tenant Obj)}

/-- The list writer takes a message from its channel. -/
def Node.taken (n : Node Tenant Timeline Obj Upd)
    (rest : List (ListWriterQueueMessage Tenant Obj)) : Node Tenant Timeline Obj Upd :=
  { n with listWriter := { n.listWriter with rx := rest } }

theorem forward_taken {msg : ListWriterQueueMessage Tenant Obj}
    (hrx : n.listWriter.rx = msg :: rest) : Forward n (n.taken rest) := by
  refine .of_places ?_ (by simp [place, taken]) (by simp [place, taken])
    (by simp [place, taken]) (by simp [place, taken])
  intro o ho
  simp [place, taken, hrx] at ho ⊢
  exact .inr ho

theorem Forward.setPending [DecidableEq Tenant] (hf : Forward n n') (hop : op.objects ⊆ n.place 0)
    (hpush : n'.listWriter.pending.push op = some l) : Forward n (n'.setPending l) := by
  intro i o ho
  match i with
  | 1 =>
    rcases mem_push hpush ho with ho | ho
    · exact ⟨0, Nat.zero_le 1, hop ho⟩
    · exact hf 1 o ho
  | 0 | 2 | 3 | 4 | _ + 5 => exact hf _ o ho

end Messages

/-! ## The validator -/

section Validator

variable {waiter : Option ℕ}

theorem Forward.setTask (hf : Forward n n') (task : ValidatorTask Tenant Timeline Obj Upd)
    (htrimmed : task.trimmed ⊆ n'.validator.task.trimmed) : Forward n (n'.setTask task) := by
  intro i o ho
  match i with
  | 3 =>
    refine hf 3 o ?_
    simp only [place, held, flatMap_append, mem_append] at ho ⊢
    refine ho.imp_right fun ho ↦ ?_
    obtain ⟨l, hl, ho⟩ := mem_flatMap.mp ho
    exact mem_flatMap.mpr ⟨l, htrimmed hl, ho⟩
  | 0 | 1 | 2 | 4 | _ + 5 => exact hf _ o ho

theorem Forward.drain (hf : Forward n n') (waiter : Option ℕ) : Forward n (n'.drain waiter) := by
  unfold Node.drain
  split
  · exact hf.setTask .idle (nil_subset _)
  · have htask := hf.setTask (.executing (n'.validator.validatedLists.map
      sequence) waiter) (nil_subset _)
    intro i o ho
    match i with
    | 3 =>
      refine htask 3 o ?_
      simp only [place, held, flatMap_append, mem_append, append_nil] at ho ⊢
      exact ho.imp_left .inl
    | 4 =>
      rcases mem_append.mp ho with ho | ho
      · exact hf 4 o ho
      · obtain ⟨j, hj, hmem⟩ := hf 3 o (by
          simp only [place, held, flatMap_append, mem_append]
          exact .inl (.inr ho))
        exact ⟨j, hj.trans (Nat.le_succ 3), hmem⟩
    | 0 | 1 | 2 | _ + 5 => exact htask _ o ho

theorem Forward.beginFlush [DecidableEq Tenant] (hf : Forward n n') :
    Forward n (n'.beginFlush waiter) := by
  have hf' : Forward n { n' with lsnTable := [] } := hf
  unfold Node.beginFlush
  split
  · exact hf'.drain waiter
  · exact hf'.setTask _ (nil_subset _)

theorem forward_validatorReceive [DecidableEq Tenant] (h : n.validatorReceive = some n') :
    Forward n n' := by
  unfold validatorReceive at h
  split at h
  next l rest htask hrx =>
    -- the list is held instead of being in the channel
    have hheld : ∀ m : Node Tenant Timeline Obj Upd, m.listWriter = n.listWriter →
        m.validator.rx = rest → m.deleter = n.deleter →
        m.validator.held ⊆ l :: n.validator.held → Forward n m := by
      intro m h₁ h₂ h₃ h₄
      refine .of_places (by simp [place, h₁]) (by simp [place, h₁]) ?_ ?_
        (by simp [place, h₃])
      · simp [place, h₂, hrx]
      · intro o ho
        obtain ⟨l', hl', ho⟩ := mem_flatMap.mp ho
        simp only [place, hrx, flatMap_cons, mem_append, ValidatorQueueMessage.objects_delete]
        rcases mem_cons.mp (h₄ hl') with rfl | hl'
        · exact .inl (.inl ho)
        · exact .inr (mem_flatMap.mpr ⟨l', hl', ho⟩)
    split at h
    all_goals
      cases h
      refine hheld _ rfl rfl rfl fun l' hl' ↦ ?_
      simp only [held, mem_cons] at hl' ⊢
      grind
  next v rest htask hrx =>
    cases h
    exact Forward.beginFlush (.of_places (by simp [place]) (by simp [place])
      (by simp [place, hrx]) (by simp [place, held]) (by simp [place]))
  · cases h

variable {valid : Tenant → Bool}

theorem forward_answer (h : n.answer valid = some n') : Forward n n' := by
  unfold answer at h
  split at h
  next gens updates waiter htask =>
    cases h
    exact (Forward.refl (n := n)).setTask (.trimming gens valid [] waiter) (nil_subset _)
  · cases h

theorem DeletionList.retain_sublist (l : DeletionList Tenant Obj)
    (gens : Tenant → Option Generation) (valid : Tenant → Bool) :
    (l.retain gens valid).Sublist l.tenants := filter_sublist

private theorem forward_trimmed
    {rest trimmed : List (DeletionList Tenant Obj)} {gens : Tenant → Option Generation}
    (htask : n.validator.task = .trimming gens valid trimmed waiter)
    (hlists : n.validator.pendingLists = l :: rest) (hl : l'.intoRemotePaths ⊆ l.intoRemotePaths)
    (disk : Disk Tenant Obj) (failed : Option ℕ) :
    Forward n { n with disk := disk, validator := { n.validator with
      pendingLists := rest, listWriteFailed := failed
      task := .trimming gens valid (trimmed ++ [l']) waiter } } := by
  refine .of_places (by simp [place]) (by simp [place]) (by simp [place])
    (fun o ho ↦ mem_append_right _ ?_) (by simp [place])
  simp only [place, held, hlists, htask, ValidatorTask.trimmed,
    flatMap_append, flatMap_cons, flatMap_nil, append_nil,
    mem_append] at ho ⊢
  rcases ho with (ho | ho) | ho | ho
  · exact .inl (.inl (.inr ho))
  · exact .inl (.inr ho)
  · exact .inr ho
  · exact .inl (.inl (.inl (hl ho)))

theorem forward_trimNext {saved : Bool} (h : n.trimNext saved = some n') : Forward n n' := by
  unfold trimNext at h
  split at h
  next gens valid trimmed waiter l rest htask hlists =>
    have hsub : ({ l with tenants := l.retain gens valid, validated := true } :
        DeletionList Tenant Obj).intoRemotePaths ⊆ l.intoRemotePaths := by
      intro o ho
      obtain ⟨p, hp, ho⟩ := mem_flatMap.mp ho
      exact mem_flatMap.mpr ⟨p, (l.retain_sublist gens valid).mem hp, ho⟩
    split at h
    · cases h
      exact forward_trimmed htask hlists hsub _ _
    split at h
    · cases h
      exact forward_trimmed htask hlists hsub _ _
    · cases h
      exact forward_trimmed htask hlists (nil_subset _) _ _
  · cases h

theorem forward_executed (h : n.executed = some n') : Forward n n' := by
  unfold executed at h
  split at h
  next sequences waiter htask =>
    cases h
    have hf := (Forward.refl (n := n)).setTask (.cleaning sequences waiter) (nil_subset _)
    intro i o ho
    match i with
    | 4 => cases ho
    | 0 | 1 | 2 | 3 | _ + 5 => exact hf _ o ho
  · cases h

theorem forward_cleanNext (h : n.cleanNext = some n') : Forward n n' := by
  unfold cleanNext at h
  split at h
  next s rest waiter htask =>
    cases h
    exact (Forward.refl (n := n)).setTask (.cleaning rest waiter) (nil_subset _)
  next waiter htask =>
    cases h
    exact (Forward.refl (n := n)).setTask .idle (nil_subset _)
  · cases h

end Validator

end NeonStorage.Pageserver.DeletionQueue
