import NeonStorage.Pageserver.DeletionQueue.Confirmation
import NeonStorage.Lib.Snoc

/-!
# The validator

What the validator does to the invariant: an answer of the control plane confirms the lists that
were pending when it was given, and the header advances only past lists that are confirmed.
-/

namespace NeonStorage.Pageserver.DeletionQueue

open List ValidatorQueueMessage DeletionList
variable {Tenant Timeline Path : Type}

namespace Inv

variable {w : World Tenant Timeline Path}

theorem setTask (h : Inv w)
    (task : ValidatorTask Tenant Timeline (Ticket Tenant Path) (LsnTicket Tenant))
    (htrimmed : task.trimmed = [])
    (hquestion : ∀ gens updates waiter, task = .validating gens updates waiter →
      LsnFits w.toFacts updates)
    (hanswered : ∀ gens valid trimmed waiter, task ≠ .trimming gens valid trimmed waiter) :
    Inv { w with node := w.node.setTask task } :=
  { h with
    validated := fun l hl ↦ h.validated l (mem_append_left _ (by
      have hl' : l ∈ w.node.validator.validatedLists ++ task.trimmed := hl
      rwa [htrimmed, append_nil] at hl'))
    question := hquestion
    answered := fun gens valid trimmed waiter ht ↦ absurd ht (hanswered gens valid trimmed waiter)
    ordered := by
      change ((task.trimmed ++ w.node.validator.backlog).map sequence).Pairwise (· < ·)
      rw [htrimmed]
      exact h.ordered.sublist ((sublist_append_right _ _).map _)
    below := fun l hl ↦ h.below l (by
      have hl' : l ∈ task.trimmed ++ w.node.validator.backlog := hl
      rw [htrimmed] at hl'
      exact mem_append_right _ hl')
    fresh := fun hr ↦ ⟨(h.fresh hr).1, (h.fresh hr).2.1, htrimmed⟩ }

theorem flushed (h : Inv w) (waiter : Option ℕ) : Inv { w with node := w.node.flushed waiter } :=
  { h.setTask .idle rfl nofun nofun with }

theorem drain (h : Inv w) (waiter : Option ℕ) : Inv { w with node := w.node.drain waiter } := by
  unfold Node.drain
  split
  · exact h.flushed waiter
  · have h' := h.setTask (.executing (w.node.validator.validatedLists.map
      sequence) waiter) rfl (fun _ _ _ ht ↦ (by cases ht)) fun _ _ _ _ ht ↦ (by cases ht)
    refine { h' with validated := fun l hl ↦ (by cases hl), deleter := fun o ho ↦ ?_ }
    rcases mem_append.mp ho with ho | ho
    · exact h.deleter o ho
    · obtain ⟨l, hl, ho⟩ := mem_flatMap.mp ho
      exact h.validated l (mem_append_left _ hl) o ho

theorem beginFlush [DecidableEq Tenant] (h : Inv w) (waiter : Option ℕ) :
    Inv { w with node := w.node.beginFlush waiter } := by
  have h' : Inv { w with node := { w.node with lsnTable := [] } } :=
    { h with lsnTable := fun p hp ↦ (by cases hp) }
  unfold Node.beginFlush
  split
  · exact h'.drain waiter
  · refine h'.setTask _ rfl (fun gens updates waiter' ht ↦ ?_) fun _ _ _ _ ht ↦ (by cases ht)
    cases ht
    exact h.lsnTable

variable {n : Node Tenant Timeline (Ticket Tenant Path) (LsnTicket Tenant)}

theorem autoflush [DecidableEq Tenant] (h : Inv w) (hn : w.node.autoflush = some n) :
    Inv { w with node := n } := by
  unfold Node.autoflush at hn
  split at hn
  · cases hn
    exact h.beginFlush none
  · cases hn

theorem validatorReceive [DecidableEq Tenant] (h : Inv w) (hn : w.node.validatorReceive = some n) :
    Inv { w with node := n } := by
  unfold Node.validatorReceive at hn
  split at hn
  next l rest hidle hrx =>
    have hold : w.node.validator.backlog = w.node.validator.pendingLists ++
        l :: rest.filterMap list? := by
      rw [Validator.backlog, hrx]
      rfl
    split at hn
    next hv =>
      cases hn
      have hsub : ({ w.node.validator with rx := rest, validatedLists :=
          w.node.validator.validatedLists ++ [l] } : Validator Tenant Timeline _ _).backlog.Sublist
          w.node.validator.backlog := by
        rw [hold]
        exact (List.Sublist.refl _).append (sublist_cons_self _ _)
      refine { h with
        backlog := fun l' hl' ↦ h.backlog l' (hsub.mem hl')
        validated := fun l' hl' ↦ ?_
        ordered := h.ordered.sublist (((List.Sublist.refl _).append hsub).map _)
        below := fun l' hl' ↦ h.below l' (((List.Sublist.refl _).append hsub).mem hl')
        covered := fun hr hf p hp ↦ (h.covered hr hf p hp).imp_right ?_
        fresh := fun hr ↦ ?_ }
      · rcases mem_append.mp hl' with hl' | hl'
        · rcases mem_snoc.mp hl' with hl' | hl'
          · exact h.validated l' (mem_append_left _ hl')
          · rw [hl']
            exact (h.backlog l (hold ▸ mem_append_right _ mem_cons_self)).sound hv
        · exact h.validated l' (mem_append_right _ hl')
      · rintro ⟨l', hl', hv', hrest⟩
        refine ⟨l', ?_, hv', hrest⟩
        rw [hold] at hl'
        rcases mem_append.mp hl' with hl' | hl'
        · exact mem_append_left _ hl'
        · rcases mem_cons.mp hl' with rfl | hl'
          · cases hv.symm.trans hv'
          · exact mem_append_right _ hl'
      · obtain ⟨h₁, h₂, h₃⟩ := h.fresh hr
        rw [hold] at h₂
        simp at h₂
    next hv =>
      cases hn
      have hnew : ({ w.node.validator with rx := rest, pendingLists :=
          w.node.validator.pendingLists ++ [l] } : Validator Tenant Timeline _ _).backlog =
          w.node.validator.backlog := by
        rw [hold, Validator.backlog]
        simp
      exact { h with
        backlog := by rw [hnew]; exact h.backlog
        unvalidated := fun l' hl' ↦ (mem_append.mp hl').elim (h.unvalidated l') fun heq ↦ by
          rw [mem_singleton.mp heq]
          simpa using hv
        answered := fun gens valid trimmed waiter ht ↦ by
          cases hidle.symm.trans ht
        ordered := by rw [hnew]; exact h.ordered
        below := by rw [hnew]; exact h.below
        covered := by rw [hnew]; exact h.covered
        fresh := by rw [hnew]; exact h.fresh }
  next waiter rest hidle hrx =>
    cases hn
    exact (h.setRx rest (by rw [hrx]; rfl)).beginFlush (some waiter)
  · cases hn

variable {updates : List (Tenant × TenantLsnState Timeline (LsnTicket Tenant))}

variable {gens : Tenant → Option Generation} {valid : Tenant → Bool} {waiter : Option ℕ}

/-- The answer of a validation at time `τ`, which is after everything that was asked about. -/
theorem answer (h : Inv w) {τ : ℕ} (htask : w.node.validator.task = .validating gens updates waiter)
    (hvalid : ∀ t g, valid t = true → gens t = some g → (τ, t, g) ∈ w.validations)
    (hlists : ∀ l ∈ w.node.validator.pendingLists, ∀ o ∈ l.intoRemotePaths, o.time < τ)
    (hupdates : ∀ p ∈ updates, ∀ q ∈ p.2.timelines, q.2.tenant = p.1 ∧
      q.2.generation = p.2.generation ∧ q.2.time < τ)
    (hn : w.node.answer valid = some n) : Inv { w with node := n } := by
  unfold Node.answer at hn
  rw [htask] at hn
  cases hn
  have htrimmed : w.node.validator.task.trimmed = [] := by rw [htask]; rfl
  exact { h with
    validated := fun l hl ↦ h.validated l (by rw [htrimmed]; exact hl)
    question := nofun
    answered := fun gens' valid' trimmed' waiter' ht ↦ by
      cases ht
      exact ⟨τ, hvalid, hlists⟩
    visible := fun u hu ↦ by
      rcases mem_append.mp hu with hu | hu
      · exact h.visible u hu
      · obtain ⟨p, hp, hu⟩ := mem_flatMap.mp hu
        obtain ⟨q, hq, rfl⟩ := mem_map.mp hu
        obtain ⟨hp, hok⟩ := mem_filter.mp hp
        rw [Bool.and_eq_true, beq_iff_eq] at hok
        obtain ⟨ht, hg, hlt⟩ := hupdates p hp q hq
        exact ⟨τ, hlt, by rw [ht, hg]; exact hvalid p.1 p.2.generation hok.1 hok.2⟩
    ordered := by
      have hord := h.ordered
      rw [htrimmed] at hord
      exact hord
    below := fun l hl ↦ h.below l (by rw [htrimmed]; exact hl)
    fresh := fun hr ↦ ⟨(h.fresh hr).1, (h.fresh hr).2.1, rfl⟩ }

theorem answered_step (h : Inv w) (htask : w.node.validator.task = .validating gens updates waiter)
    (hvalid : ∀ t, valid t = true → gens t = some (w.latest t))
    (hn : w.node.answer valid = some n) : Inv (w.confirm valid n) := by
  have h₁ : Inv (w.confirm valid w.node) :=
    h.mono ⟨Nat.le_succ _, subset_rfl, Set.subset_union_left⟩ rfl
  refine h₁.answer (τ := w.now) htask (fun t g hv hg ↦ .inr ⟨t, hv, ?_⟩) (fun l hl o ho ↦ ?_)
    (h.question gens updates waiter htask) hn
  · rw [hvalid t hv] at hg
    rw [Option.some.inj hg]
  · obtain ⟨p, hp, hop⟩ := mem_intoRemotePaths.mp ho
    exact (((h.backlog l (mem_append_left _ hl)).fits (h.unvalidated l hl)) p hp o hop).2.1

theorem sound_retain {τ : ℕ} {f : Facts Tenant} {l : DeletionList Tenant (Ticket Tenant Path)}
    (hfits : l.Fits f.here f.now)
    (hvalid : ∀ t g, valid t = true → gens t = some g → (τ, t, g) ∈ f.validations)
    (htime : ∀ o ∈ l.intoRemotePaths, o.time < τ) :
    DeletionList.Sound f { l with tenants := l.retain gens valid, validated := true } := by
  intro o ho
  obtain ⟨p, hp, ho⟩ := mem_intoRemotePaths.mp ho
  obtain ⟨hp, hok⟩ := mem_filter.mp hp
  rw [Bool.and_eq_true, beq_iff_eq] at hok
  have hv := hvalid p.1 p.2.generation hok.1 hok.2
  obtain ⟨ht, -, hg⟩ := hfits p hp o ho
  refine ⟨τ, htime o (mem_intoRemotePaths.mpr ⟨p, hp, ho⟩), ?_⟩
  rw [ht]
  rcases hg with hg | ⟨hg, hhere⟩
  · exact .inl (hg ▸ hv)
  · exact .inr ⟨hg ▸ hv, hg ▸ hhere⟩

section Trimming

variable {gens : Tenant → Option Generation} {valid : Tenant → Bool} {waiter : Option ℕ}
  {trimmed rest : List (DeletionList Tenant (Ticket Tenant Path))}
  {l l' : DeletionList Tenant (Ticket Tenant Path)}

theorem trimOne (h : Inv w) {disk : Disk Tenant (Ticket Tenant Path)} {failed : Option ℕ}
    (htask : w.node.validator.task = .trimming gens valid trimmed waiter)
    (hlists : w.node.validator.pendingLists = l :: rest) (hseq : l'.sequence = l.sequence)
    (hsound : l'.Sound w.toFacts) (hdisk : DiskInv w.toFacts disk)
    (hkeys : ∀ p ∈ disk.lists, p.1 = l.sequence ∨ p ∈ w.node.disk.lists)
    (hheader : disk.header = w.node.disk.header)
    (hcovered : w.node.listWriter.recovered = true → failed = none →
      ∀ p ∈ disk.lists, p.2.Sound w.toFacts ∨
        ∃ b ∈ rest ++ w.node.validator.rx.filterMap list?,
          b.validated = false ∧ b.sequence = p.1 ∧
            ∀ o ∈ p.2.intoRemotePaths, o ∈ b.intoRemotePaths) : Inv { w with node := { w.node with
      disk := disk
      validator := { w.node.validator with
        pendingLists := rest
        listWriteFailed := failed
        task := .trimming gens valid (trimmed ++ [l']) waiter } } } := by
  have hbacklog : w.node.validator.backlog =
      l :: (rest ++ w.node.validator.rx.filterMap list?) := by
    rw [Validator.backlog, hlists]
    rfl
  have htrimmed : w.node.validator.task.trimmed = trimmed := by rw [htask]; rfl
  have hl : l ∈ w.node.validator.task.trimmed ++ w.node.validator.backlog :=
    mem_append_right _ (hbacklog ▸ mem_cons_self)
  have hmem : ∀ b, b ∈ rest ++ w.node.validator.rx.filterMap list? →
      b ∈ w.node.validator.backlog := fun b hb ↦ hbacklog ▸ mem_cons_of_mem l hb
  refine { h with
    disk := hdisk
    backlog := fun b hb ↦ h.backlog b (hmem b hb)
    unvalidated := fun b hb ↦ h.unvalidated b (hlists ▸ mem_cons_of_mem l hb)
    validated := fun b hb ↦ ?_
    question := fun _ _ _ ht ↦ (by cases ht)
    answered := fun gens' valid' trimmed' waiter' ht ↦ ?_
    ordered := ?_
    below := fun b hb ↦ ?_
    diskBelow := fun hr ↦ ⟨fun p hp ↦ ?_, fun i hi ↦ (h.diskBelow hr).2 i (hheader ▸ hi)⟩
    covered := hcovered
    fresh := fun hr ↦ ?_ }
  · rcases mem_append.mp hb with hb | hb
    · exact h.validated b (mem_append_left _ hb)
    · rcases mem_snoc.mp hb with hb | rfl
      · exact h.validated b (mem_append_right _ (htrimmed ▸ hb))
      · exact hsound
  · cases ht
    obtain ⟨τ, hv, ht⟩ := h.answered gens valid trimmed waiter htask
    exact ⟨τ, hv, fun b hb ↦ ht b (hlists ▸ mem_cons_of_mem l hb)⟩
  · have hord := h.ordered
    rw [htrimmed, hbacklog] at hord
    change ((trimmed ++ [l'] ++ (rest ++ w.node.validator.rx.filterMap
      list?)).map sequence).Pairwise (· < ·)
    simpa [hseq] using hord
  · rcases mem_append.mp hb with hb | hb
    · rcases mem_snoc.mp hb with hb | rfl
      · exact h.below b (mem_append_left _ (htrimmed ▸ hb))
      · rw [hseq]
        exact h.below l hl
    · exact h.below b (mem_append_right _ (hmem b hb))
  · rcases hkeys p hp with hp | hp
    · rw [hp]
      exact h.below l hl
    · exact (h.diskBelow hr).1 p hp
  · have := (h.fresh hr).2.1
    cases hbacklog.symm.trans this

theorem trimNext (h : Inv w) {saved : Bool} (hn : w.node.trimNext saved = some n) :
    Inv { w with node := n } := by
  unfold Node.trimNext at hn
  split at hn
  next gens valid trimmed waiter l rest htask hlists =>
    obtain ⟨τ, hvalid, htime⟩ := h.answered gens valid trimmed waiter htask
    have hl : l ∈ w.node.validator.pendingLists := hlists ▸ mem_cons_self
    have hl' : l ∈ w.node.validator.backlog := mem_append_left _ hl
    have hsound : DeletionList.Sound w.toFacts
        { l with tenants := l.retain gens valid, validated := true } :=
      sound_retain ((h.backlog l hl').fits (h.unvalidated l hl)) hvalid (htime l hl)
    have hbacklog : w.node.validator.backlog =
        l :: (rest ++ w.node.validator.rx.filterMap list?) := by
      rw [Validator.backlog, hlists]
      rfl
    split at hn
    next hall =>
      -- nothing was dropped: what is on disk is as sound as what was validated
      cases hn
      have hself : l.retain gens valid = l.tenants :=
        filter_eq_self.mpr (length_filter_eq_length_iff.mp hall)
      refine h.trimOne htask hlists rfl hsound h.disk (fun p hp ↦ .inr hp) rfl fun hr hf p hp ↦ ?_
      rcases h.covered hr hf p hp with hp' | ⟨b, hb, hv, hs, hsub⟩
      · exact .inl hp'
      · rw [hbacklog] at hb
        rcases mem_cons.mp hb with rfl | hb
        · refine .inl fun o ho ↦ hsound o ?_
          rw [hself]
          exact hsub o ho
        · exact .inr ⟨b, hb, hv, hs, hsub⟩
    next =>
      split at hn
      · -- the file is replaced by what is sound
        cases hn
        refine h.trimOne htask hlists rfl hsound
          (h.disk.save (h.backlog l hl').pos (fun _ ↦ hsound) (fun hv ↦ (by cases hv)) fun _ _ _ ↦
            hsound)
          (fun p hp ↦ ?_) rfl fun hr hf p hp ↦ ?_
        · rcases mem_save hp with rfl | ⟨hp, -⟩
          · exact .inl rfl
          · exact .inr hp
        · rcases mem_save hp with rfl | ⟨hp, hne⟩
          · exact .inl hsound
          · rcases h.covered hr hf p hp with hp' | ⟨b, hb, hv, hs, hsub⟩
            · exact .inl hp'
            · rw [hbacklog] at hb
              rcases mem_cons.mp hb with rfl | hb
              · exact absurd hs.symm hne
              · exact .inr ⟨b, hb, hv, hs, hsub⟩
      · -- the failure is remembered, so that nothing needs to be said about the disk
        cases hn
        refine h.trimOne htask hlists rfl (fun o ho ↦ (by cases ho)) h.disk (fun p hp ↦ .inr hp) rfl
          fun _ hf ↦ ?_
        cases hfailed : w.node.validator.listWriteFailed <;> simp [hfailed] at hf
  · cases hn

end Trimming

theorem finishValidate (h : Inv w) {saved : Bool} (hn : w.node.finishValidate saved = some n) :
    Inv { w with node := n } := by
  unfold Node.finishValidate at hn
  split at hn
  next gens valid trimmed waiter htask hlists =>
    have htrimmed : w.node.validator.task.trimmed = trimmed := by rw [htask]; rfl
    have h' : Inv { w with node := { w.node with validator := { w.node.validator with
        validatedLists := w.node.validator.validatedLists ++ trimmed } } } :=
      { h with
        validated := fun l hl ↦ h.validated l (by
          rcases mem_append.mp hl with hl | hl
          · rwa [htrimmed]
          · exact mem_append_right _ hl) }
    split at hn
    next l hlast =>
      have hl : l ∈ trimmed := mem_of_getLast? hlast
      split at hn
      next hok =>
        cases hn
        rw [Bool.and_eq_true, Option.isNone_iff_eq_none] at hok
        have hrec : w.node.listWriter.recovered = true := by
          by_contra hr
          rw [Bool.not_eq_true] at hr
          rw [← htrimmed, (h.fresh hr).2.2] at hl
          cases hl
        have h'' : Inv { w with node := { w.node with
            disk := { w.node.disk with header := some l.sequence }
            validator := { w.node.validator with
              validatedLists := w.node.validator.validatedLists ++ trimmed } } } :=
          { h' with
            disk := ⟨h.disk.keys, h.disk.key, h.disk.validated, h.disk.exact, fun i hi p hp hle ↦ by
              cases hi
              rcases h.covered hrec hok.1 p hp with hs | ⟨b, hb, -, hseq, -⟩
              · exact hs
              · -- a list that is still to be validated has a higher number
                have hord := h.ordered
                rw [map_append, pairwise_append, htrimmed] at hord
                have hlt := hord.2.2 l.sequence (mem_map_of_mem hl) b.sequence
                  (mem_map_of_mem hb)
                rw [hseq] at hlt
                exact absurd hle (Nat.not_le_of_lt hlt)⟩
            diskBelow := fun _ ↦ ⟨(h.diskBelow hrec).1, fun i hi ↦ by
              cases hi
              exact h.below l (mem_append_left _ (htrimmed ▸ hl))⟩ }
        exact h''.drain waiter
      next =>
        cases hn
        exact h'.drain waiter
    next =>
      cases hn
      exact h'.drain waiter
  · cases hn

theorem executed (h : Inv w) (hn : w.node.executed = some n) : Inv { w with node := n } := by
  unfold Node.executed at hn
  split at hn
  next sequences waiter htask =>
    cases hn
    have h' := h.setTask (.cleaning sequences waiter) rfl nofun nofun
    exact { h' with deleter := nofun }
  · cases hn

theorem cleanNext (h : Inv w) (hn : w.node.cleanNext = some n) : Inv { w with node := n } := by
  unfold Node.cleanNext at hn
  split at hn
  next s rest waiter htask =>
    cases hn
    have h' := h.setTask (.cleaning rest waiter) rfl nofun nofun
    have hsub : (w.node.disk.remove s).lists.Sublist w.node.disk.lists := filter_sublist
    exact { h' with
      disk := ⟨h.disk.keys.sublist (hsub.map _), fun p hp ↦ h.disk.key p (hsub.mem hp),
        fun p hp ↦ h.disk.validated p (hsub.mem hp), fun p hp ↦ h.disk.exact p (hsub.mem hp),
        fun i hi p hp ↦ h.disk.header i hi p (hsub.mem hp)⟩
      diskBelow := fun hr ↦ ⟨fun p hp ↦ (h.diskBelow hr).1 p (hsub.mem hp), (h.diskBelow hr).2⟩
      covered := fun hr hf p hp ↦ h.covered hr hf p (hsub.mem hp) }
  next waiter htask =>
    cases hn
    exact h.flushed waiter
  · cases hn

theorem restarted (h : Inv w) :
    Inv ({ w with node := .restarted w.node.disk } : World Tenant Timeline Path) := by
  constructor
  case disk => exact h.disk
  case pending => exact ⟨exact_new, rfl⟩
  all_goals
    simp [Node.restarted, new, Validator.backlog, ValidatorTask.trimmed, LsnFits]

end Inv

end NeonStorage.Pageserver.DeletionQueue
