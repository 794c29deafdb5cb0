import NeonStorage.StorageController.SafekeeperMigration

/-!
# When a migration may be finished

A migration replaces the set of safekeepers under conditions on both sets: a majority of the old set
has the joint configuration, and so has a majority of the new set, which also has everything that
was committed under the old configuration and terms as high as those of the old majority.

The driver makes sure of the configurations, and of the positions: the sync position is at least
every position that a majority of the old set has acknowledged. It does nothing about the terms.
They are right if there is no election during the migration: all safekeepers are in one term at the
start, and none votes in a higher one. Of the other steps it is asked that they take no timeline
from a member and cut no log.
-/

namespace NeonStorage.StorageController.Membership

open List Function
open Option (bind_eq_some_iff map_eq_some_iff)

/-! ## The conditions -/

/-- The safekeeper has had a configuration of the generation. -/
def HadSwitched (history : List Event) (i generation : ℕ) : Prop :=
  ∃ mconf, .switched i mconf ∈ history ∧ mconf.generation = generation

/-- A majority of the old set has told a walproposer of the old configuration that it has the log of
that term up to there. -/
def Committed (history : List Event) (j : Joint) (p : Position) : Prop :=
  ∃ M, Majority j.cur.toFinset M ∧ ∀ i ∈ M, ∃ generation q,
    .acked i generation q ∈ history ∧ generation + 1 = j.generation ∧
      (ofLex q).1 = (ofLex p).1 ∧ (ofLex p).2 ≤ (ofLex q).2

/-- The conditions under which the new set may replace the old one. -/
def World.FinishConditions (w : World) (j : Joint) : Prop :=
  ∃ Qo ⊆ j.cur.toFinset, Majority j.cur.toFinset Qo ∧
    (∀ o ∈ Qo, HadSwitched w.history o j.generation) ∧
    ∃ Qn ⊆ j.new.toFinset, Majority j.new.toFinset Qn ∧
      ∀ i ∈ Qn, HadSwitched w.history i j.generation ∧ ∃ t, (w.fleet.sk i).timeline = some t ∧
        (∀ p, Committed w.history j p → p ≤ t.position) ∧
        ∀ o ∈ Qo, ∀ t' ∈ (w.fleet.sk o).timeline, t'.term ≤ t.term

/-- A member that has seen the old configuration keeps its timeline, and the log is not cut. -/
def Fleet.Keeps (j : Joint) (f f' : Fleet) : Prop :=
  ∀ i ∈ j.cur ++ j.new, ∀ t ∈ (f.sk i).timeline, j.generation ≤ t.mconf.generation + 1 →
    ∃ t' ∈ (f'.sk i).timeline, t.position ≤ t'.position
  deriving Decidable

theorem Fleet.Keeps.refl {j : Joint} (f : Fleet) : Keeps j f f :=
  fun _ _ t ht _ ↦ ⟨t, ht, le_rfl⟩

/-- The term of a vote or an election. -/
def Action.term? : Action → Option ℕ
  | .write _ term .. => some term
  | _ => none

/-! ## What one action does to the safekeepers -/

theorem Timeline.le_membershipSwitch (t : Timeline) (mconf : Configuration) :
    t.mconf.generation ≤ (t.membershipSwitch mconf).mconf.generation := by
  unfold membershipSwitch
  split
  · exact le_rfl
  · exact (Nat.lt_of_not_le ‹_›).le

theorem Timeline.term_membershipSwitch (t : Timeline) (mconf : Configuration) :
    (t.membershipSwitch mconf).term = t.term := by
  unfold membershipSwitch
  split <;> rfl

variable {mconf : Configuration} {r : SwitchResponse}

namespace Fleet

variable {f f' : Fleet} {i k : ℕ} {t t' : Timeline} {voted : Option ℕ}

/-- The term is that of a timeline of the fleet, or it was voted for and is not below. -/
def HasTerm (f : Fleet) (voted : Option ℕ) (term : ℕ) : Prop :=
  ∃ i, ∃ t ∈ (f.sk i).timeline, term = t.term ∨ voted = some term ∧ t.term ≤ term

/-- Where both fleets have the timeline, its generation has not gone back, and its terms come from
the old fleet or were voted for. -/
structure Grows (voted : Option ℕ) (f f' : Fleet) : Prop where
  generation : ∀ i t t', (f.sk i).timeline = some t → (f'.sk i).timeline = some t' →
    t.mconf.generation ≤ t'.mconf.generation
  term : ∀ i, ∀ t ∈ (f'.sk i).timeline, f.HasTerm voted t.term

theorem Grows.refl (f : Fleet) : Grows voted f f where
  generation i t t' ht ht' := by
    cases ht.symm.trans ht'
    exact le_rfl
  term i t ht := ⟨i, t, ht, .inl rfl⟩

theorem Grows.of_set {sk : Safekeeper} (hf' : f'.sk = (f.set k sk).sk)
    (hgeneration : ∀ t t', (f.sk k).timeline = some t → sk.timeline = some t' →
      t.mconf.generation ≤ t'.mconf.generation)
    (hterm : ∀ t ∈ sk.timeline, f.HasTerm voted t.term) : Grows voted f f' where
  generation i t t' ht ht' := by
    have hrefl : Grows none f f := .refl f
    rw [hf'] at ht'
    by_cases hik : i = k
    · subst hik
      simp only [set, update_self] at ht'
      exact hgeneration t t' ht ht'
    · simp only [set, update_of_ne hik] at ht'
      exact hrefl.generation i t t' ht ht'
  term i t ht := by
    rw [hf'] at ht
    by_cases hik : i = k
    · subst hik
      simp only [set, update_self] at ht
      exact hterm t ht
    · simp only [set, update_of_ne hik] at ht
      exact (Grows.refl f).term i t ht

theorem Grows.of_timeline {sk : Safekeeper} (ht : (f.sk k).timeline = some t)
    (hf' : f'.sk = (f.set k sk).sk) (hsk : sk.timeline = some t')
    (h : t.mconf.generation ≤ t'.mconf.generation)
    (hterm : t'.term = t.term ∨ voted = some t'.term ∧ t.term ≤ t'.term) : Grows voted f f' := by
  refine .of_set hf' (fun t₁ t₂ h₁ h₂ ↦ ?_) fun t₂ h₂ ↦ ?_
  · cases ht.symm.trans h₁
    cases hsk.symm.trans h₂
    exact h
  · cases hsk.symm.trans h₂
    exact ⟨k, t, ht, hterm⟩

theorem Grows.switch {sk : Safekeeper} (ht : (f.sk k).timeline = some t)
    (hf' : f'.sk = (f.set k sk).sk) (hsk : sk.timeline = some (t.membershipSwitch mconf)) :
    Grows voted f f' :=
  .of_timeline ht hf' hsk (t.le_membershipSwitch mconf) (.inl (t.term_membershipSwitch mconf))

theorem grows_membership (k : ℕ) (mconf : Configuration) :
    Grows voted f (f.membership k mconf).1 := by
  unfold membership
  split
  · exact .refl f
  · split
    · exact .switch ‹_› rfl rfl
    · exact .refl f

theorem grows_pull (k : ℕ) (hosts answering : List ℕ) (mconf : Option Configuration) :
    Grows voted f (f.pull k hosts answering mconf).1 := by
  unfold pull
  split
  · split
    case h_1 t ht =>
      cases mconf with
      | none => exact .of_timeline ht rfl rfl le_rfl (.inl rfl)
      | some mconf => exact .switch ht rfl rfl
    case h_2 ht =>
      dsimp only
      split
      · exact .refl f
      split
      · exact .refl f
      split
      · exact .refl f
      case h_2 donor hdonor =>
        unfold loadTempTimeline
        split
        · exact .refl f
        refine .of_set rfl (fun t₁ _ h₁ ↦ absurd (ht.symm.trans h₁) nofun) fun t' ht' ↦ ?_
        -- the copy has the term of the donor
        obtain ⟨host, -, hhost⟩ := mem_filterMap.mp (mem_of_mostAdvanced hdonor)
        refine ⟨host, donor, hhost, .inl ?_⟩
        cases ht'
        cases mconf with
        | none => rfl
        | some mconf => exact donor.term_membershipSwitch mconf
  · exact .refl f

theorem grows_deleteOrExclude (k : ℕ) (action : Option Configuration) :
    Grows voted f (f.deleteOrExclude k action).1 := by
  unfold deleteOrExclude
  dsimp only
  split
  · exact .refl f
  split
  · exact .of_set rfl nofun nofun
  split
  · exact .refl f
  · exact .of_set rfl nofun nofun

theorem grows_handle (k : ℕ) (answering : List ℕ) (r : Request) :
    Grows voted f (f.handle k answering r).1 := by
  cases r with
  | membership mconf => exact grows_membership k mconf
  | pull hosts mconf => exact grows_pull k hosts answering mconf
  | exclude mconf =>
    simp only [handle]
    split
    · exact .refl f
    · exact grows_deleteOrExclude k (some mconf)
  | delete generation => exact grows_deleteOrExclude k none

/-- A successful switch: the answer tells the position of the timeline, which is now in the
configuration that was sent. -/
theorem membership_switched (h : (f.membership k mconf).2 = .switched r) :
    ∃ t, ((f.membership k mconf).1.sk k).timeline = some t ∧
      t.mconf.generation = mconf.generation ∧ r.position = t.position := by
  unfold membership at h ⊢
  cases ht : (f.sk k).timeline with
  | none => simp [ht] at h
  | some t =>
    simp only [ht] at h ⊢
    split at h
    · rename_i hmem
      simp only [if_pos hmem]
      split at h
      · rename_i hgen
        cases h
        exact ⟨t.membershipSwitch mconf, by simp [set], hgen.symm, rfl⟩
      · cases h
    · cases h

end Fleet

/-- The safekeepers are as the event says. -/
def Event.Observed (f : Fleet) : Event → Prop
  | .switched i mconf => ∃ t, (f.sk i).timeline = some t ∧ t.mconf = mconf
  | .acked i generation q =>
    ∃ t, (f.sk i).timeline = some t ∧ t.mconf.generation = generation ∧ t.position = q
  | .exclusion .. => True

namespace World

variable {cfg : Config} {w w' : World} {a : Action} {as : List Action} {voted : Option ℕ}

/-- What an action does to the safekeepers and to the history. -/
structure Observes (voted : Option ℕ) (w w' : World) : Prop where
  grows : w.fleet.Grows voted w'.fleet
  mono : ∀ e ∈ w.history, e ∈ w'.history
  observed : ∀ e ∈ w'.history, e ∈ w.history ∨ e.Observed w'.fleet

theorem Observes.of_append (es : List Event) (grows : w.fleet.Grows voted w'.fleet)
    (history : w'.history = es ++ w.history) (h : ∀ e ∈ es, e.Observed w'.fleet) :
    Observes voted w w' where
  grows
  mono _ he := history ▸ mem_append_right _ he
  observed e he := (mem_append.mp (history ▸ he)).symm.imp_right (h e)

theorem SameFleet.observes (h : SameFleet w w') : Observes voted w w' :=
  .of_append [] (h.fleet ▸ .refl _) h.history nofun

theorem handle_observes (i : ℕ) (answering : List ℕ) (r : Request) :
    Observes voted w (w.handle i answering r).1 := by
  refine .of_append _ (Fleet.grows_handle i answering r) rfl fun e he ↦ ?_
  cases r with
  | exclude mconf | delete generation =>
    obtain rfl := mem_singleton.mp he
    trivial
  | membership mconf | pull hosts mconf =>
    obtain ⟨t, ht, rfl⟩ := mem_map.mp he
    exact ⟨t, Option.mem_toList.mp ht, rfl⟩

variable {i : ℕ} {t : Timeline}

theorem exec_observes (h : w.exec cfg a = some w') : Observes a.term? w w' := by
  cases a with
  | migrate p newSkSet => exact (migrate_callStep h).sameFleet.observes
  | abort p => exact (abort_callStep h).sameFleet.observes
  | proceed p => exact (proceed_callStep h).sameFleet.observes
  | ask p i answering =>
    obtain ⟨r, -, rfl⟩ := map_eq_some_iff.mp h
    exact { handle_observes i answering r with }
  | deliver i answering r =>
    simp only [exec] at h
    split at h <;> cases h
    exact handle_observes i answering r
  | reconcileOne i answering =>
    obtain ⟨req, -, rfl⟩ := map_eq_some_iff.mp h
    dsimp only
    split
    · exact handle_observes i answering req.request
    · exact { handle_observes i answering req.request with }
  | greeting i mconf =>
    simp only [exec] at h
    split at h
    · obtain ⟨t, ht, hset⟩ := bind_eq_some_iff.mp h
      split at hset <;> cases hset
      refine .of_append [_] (.switch ht rfl rfl) rfl (forall_mem_singleton.mpr ?_)
      exact ⟨t.membershipSwitch mconf, by simp [setTimeline, Fleet.set], rfl⟩
    · cases h
  | write i term lastLogTerm flushLsn commitLsn =>
    obtain ⟨t, ht, hset⟩ := bind_eq_some_iff.mp h
    split at hset <;> cases hset
    refine .of_append [] (.of_timeline ht rfl rfl le_rfl (.inr ⟨rfl, ?_⟩)) rfl nofun
    exact not_lt.mp ‹_›
  | ack i =>
    obtain ⟨t, ht, rfl⟩ := map_eq_some_iff.mp h
    exact .of_append [_] (.refl _) rfl (forall_mem_singleton.mpr ⟨t, ht, rfl, rfl⟩)
  | send p i | sendOp i =>
    obtain ⟨r, -, rfl⟩ := map_eq_some_iff.mp h
    exact .of_append [] (.refl _) rfl nofun
  | restartSafekeeper i =>
    cases h
    have hrefl : w.fleet.Grows none w.fleet := .refl _
    exact .of_append [] (.of_set rfl (hrefl.generation i) (hrefl.term i)) rfl nofun
  | upload segment =>
    cases h
    have hrefl : w.fleet.Grows none w.fleet := .refl _
    exact .of_append [] { hrefl with } rfl nofun
  | fail p | stopReconciler i | restartController =>
    cases h
    exact .of_append [] (.refl _) rfl nofun

/-! ## What the members and the calls know -/

variable {T : ℕ} {j : Joint} {old new : Answers} {pos : Position}

/-- A member of the old set has what it acknowledged, a member that has switched to the joint
generation has not gone back, and all are in the same term. -/
structure Settled (T : ℕ) (j : Joint) (w : World) : Prop where
  acked : ∀ i ∈ j.cur, ∀ generation q, .acked i generation q ∈ w.history →
    generation + 1 = j.generation → ∃ t, (w.fleet.sk i).timeline = some t ∧
      generation ≤ t.mconf.generation ∧ q ≤ t.position
  switched : ∀ i, i ∈ j.cur ∨ i ∈ j.new → ∀ mconf, .switched i mconf ∈ w.history →
    j.generation ≤ mconf.generation →
    ∃ t, (w.fleet.sk i).timeline = some t ∧ j.generation ≤ t.mconf.generation
  term : ∀ i, ∀ t ∈ (w.fleet.sk i).timeline, t.term = T

theorem Settled.step (hs : Settled T j w) (ho : Observes voted w w')
    (hvoted : ∀ term ∈ voted, term ≤ T) (hk : Fleet.Keeps j w.fleet w'.fleet) : Settled T j w' where
  acked i hi generation q hq hgen := by
    rcases ho.observed _ hq with hold | ⟨t, ht, rfl, rfl⟩
    · obtain ⟨t, ht, hle, hpos⟩ := hs.acked i hi generation q hold hgen
      obtain ⟨t', ht', hkeep⟩ := hk i (mem_append_left _ hi) t ht (by omega)
      exact ⟨t', ht', hle.trans (ho.grows.generation i t t' ht ht'), hpos.trans hkeep⟩
    · exact ⟨t, ht, le_rfl, le_rfl⟩
  switched i hi mconf he hgen := by
    rcases ho.observed _ he with hold | ⟨t, ht, rfl⟩
    · obtain ⟨t, ht, hle⟩ := hs.switched i hi mconf hold hgen
      obtain ⟨t', ht', -⟩ := hk i (mem_append.mpr hi) t ht (by omega)
      exact ⟨t', ht', hle.trans (ho.grows.generation i t t' ht ht')⟩
    · exact ⟨t, ht, hgen⟩
  term i t ht := by
    obtain ⟨k, t₁, ht₁, hterm | ⟨rfl, hle⟩⟩ := ho.grows.term i t ht
    · exact hterm.trans (hs.term k t₁ ht₁)
    · exact le_antisymm (hvoted _ rfl) (hs.term k t₁ ht₁ ▸ hle)

theorem Settled.of_hadSwitched (hs : Settled T j w) (hi : i ∈ j.cur ∨ i ∈ j.new)
    (h : HadSwitched w.history i j.generation) :
    ∃ t, (w.fleet.sk i).timeline = some t ∧ j.generation ≤ t.mconf.generation := by
  obtain ⟨mconf, he, hgen⟩ := h
  exact hs.switched i hi mconf he hgen.ge

/-- The answers of the old set: each has the joint generation, and its position is not below what
the safekeeper had acknowledged under the old configuration. -/
structure OldAnswers (j : Joint) (w : World) (old : Answers) : Prop where
  nodup : (old.map Prod.fst).Nodup
  mem : ∀ a ∈ old, a.1 ∈ j.cur
  switched : ∀ a ∈ old, HadSwitched w.history a.1 j.generation
  acked : ∀ a ∈ old, ∀ generation q, .acked a.1 generation q ∈ w.history →
    generation + 1 = j.generation → q ≤ a.2.position

/-- The answers of the new set: each has the joint generation and reached the sync position, and the
safekeeper still has it. -/
structure NewAnswers (j : Joint) (w : World) (pos : Position) (new : Answers) : Prop where
  nodup : (new.map Prod.fst).Nodup
  mem : ∀ a ∈ new, a.1 ∈ j.new
  switched : ∀ a ∈ new, HadSwitched w.history a.1 j.generation
  holds : ∀ a ∈ new, ∃ t, (w.fleet.sk a.1).timeline = some t ∧ pos ≤ t.position

theorem Observes.hadSwitched {generation : ℕ} (ho : Observes voted w w')
    (h : HadSwitched w.history i generation) : HadSwitched w'.history i generation := by
  obtain ⟨mconf, he, hgen⟩ := h
  exact ⟨mconf, ho.mono _ he, hgen⟩

theorem OldAnswers.step (h : OldAnswers j w old) (hs : Settled T j w') (ho : Observes voted w w') :
    OldAnswers j w' old where
  nodup := h.nodup
  mem := h.mem
  switched a ha := ho.hadSwitched (h.switched a ha)
  acked a ha generation q hq hgen := by
    -- what the safekeeper acknowledges from now on has the joint generation at least
    rcases ho.observed _ hq with hold | ⟨t, ht, rfl, -⟩
    · exact h.acked a ha generation q hold hgen
    · obtain ⟨t', ht', hle⟩ := hs.of_hadSwitched (.inl (h.mem a ha))
        (ho.hadSwitched (h.switched a ha))
      cases ht.symm.trans ht'
      omega

theorem NewAnswers.step (h : NewAnswers j w pos new) (hs : Settled T j w) (ho : Observes voted w w')
    (hk : Fleet.Keeps j w.fleet w'.fleet) : NewAnswers j w' pos new where
  nodup := h.nodup
  mem := h.mem
  switched a ha := ho.hadSwitched (h.switched a ha)
  holds a ha := by
    obtain ⟨t, ht, hpos⟩ := h.holds a ha
    obtain ⟨t₁, ht₁, hle⟩ := hs.of_hadSwitched (.inr (h.mem a ha)) (h.switched a ha)
    cases ht.symm.trans ht₁
    obtain ⟨t', ht', hkeep⟩ := hk a.1 (mem_append_right _ (h.mem a ha)) t ht (by omega)
    exact ⟨t', ht', hpos.trans hkeep⟩

/-- What a call of the migration to `j` knows at the point it has reached. -/
def CallKnows (j : Joint) (w : World) : Call → Prop
  | .switchJoint j' answers => j' = j → OldAnswers j w answers
  | .pull j' old pos _ =>
    j' = j → OldAnswers j w old ∧ getSyncPosition j.cur old = some pos
  | .sync j' old pos answers =>
    j' = j → OldAnswers j w old ∧ getSyncPosition j.cur old = some pos ∧
      NewAnswers j w pos answers
  | .install j' old new =>
    j' = j → OldAnswers j w old ∧ quorumSize j.new ≤ new.length ∧
      ∃ pos, getSyncPosition j.cur old = some pos ∧ NewAnswers j w pos new
  | _ => True

variable {call : Call}

theorem CallKnows.step (h : CallKnows j w call) (hs : Settled T j w)
    (hs' : Settled T j w') (ho : Observes voted w w') (hk : Fleet.Keeps j w.fleet w'.fleet) :
    CallKnows j w' call := by
  cases call with
  | switchJoint j' answers => exact fun hj ↦ (h hj).step hs' ho
  | pull j' old pos pulled => exact fun hj ↦ ⟨(h hj).1.step hs' ho, (h hj).2⟩
  | sync j' old pos answers =>
    exact fun hj ↦ ⟨(h hj).1.step hs' ho, (h hj).2.1, (h hj).2.2.step hs ho hk⟩
  | install j' old new =>
    intro hj
    obtain ⟨hold, hquorum, pos, hpos, hnew⟩ := h hj
    exact ⟨hold.step hs' ho, hquorum, pos, hpos, hnew.step hs ho hk⟩
  | _ => trivial

theorem OldAnswers.cons (h : OldAnswers j w old) (hs : Settled T j w) (hi : i ∈ j.cur)
    (hnot : i ∉ old.map Prod.fst) (hsw : HadSwitched w.history i j.generation)
    (ht : (w.fleet.sk i).timeline = some t) (hr : r.position = t.position) :
    OldAnswers j w ((i, r) :: old) where
  nodup := nodup_cons.mpr ⟨hnot, h.nodup⟩
  mem := forall_mem_cons.mpr ⟨hi, h.mem⟩
  switched := forall_mem_cons.mpr ⟨hsw, h.switched⟩
  acked := by
    refine forall_mem_cons.mpr ⟨fun generation q hq hgen ↦ ?_, h.acked⟩
    obtain ⟨t', ht', -, hpos⟩ := hs.acked i hi generation q hq hgen
    cases ht.symm.trans ht'
    exact hpos.trans hr.ge

theorem NewAnswers.cons (h : NewAnswers j w pos new) (hi : i ∈ j.new)
    (hnot : i ∉ new.map Prod.fst) (hsw : HadSwitched w.history i j.generation)
    (ht : (w.fleet.sk i).timeline = some t) (hr : r.position = t.position)
    (hpos : ¬r.position < pos) : NewAnswers j w pos ((i, r) :: new) where
  nodup := nodup_cons.mpr ⟨hnot, h.nodup⟩
  mem := forall_mem_cons.mpr ⟨hi, h.mem⟩
  switched := forall_mem_cons.mpr ⟨hsw, h.switched⟩
  holds := forall_mem_cons.mpr ⟨⟨t, ht, (not_lt.mp hpos).trans hr.le⟩, h.holds⟩

theorem OldAnswers.nil : OldAnswers j w [] := ⟨nodup_nil, nofun, nofun, nofun⟩

theorem NewAnswers.nil : NewAnswers j w pos [] := ⟨nodup_nil, nofun, nofun, nofun⟩

variable {answering : List ℕ}

/-- A reply that counts comes from a safekeeper that is now in the configuration, and this is on
record. -/
theorem handle_switched (h : (w.handle i answering (.membership mconf)).2 = .switched r) :
    HadSwitched (w.handle i answering (.membership mconf)).1.history i mconf.generation ∧
      ∃ t, ((w.handle i answering (.membership mconf)).1.fleet.sk i).timeline = some t ∧
        r.position = t.position := by
  obtain ⟨t, ht, hgen, hpos⟩ := Fleet.membership_switched h
  refine ⟨⟨t.mconf, mem_append_left _ ?_, hgen⟩, t, ht, hpos⟩
  exact mem_map.mpr ⟨t, Option.mem_toList.mpr ht, rfl⟩

theorem CallKnows.answered {r : Request}
    (hreq : call.request i = some r) (hs : Settled T j (w.handle i answering r).1)
    (h : CallKnows j (w.handle i answering r).1 call) :
    CallKnows j (w.handle i answering r).1 (call.answered i (w.handle i answering r).2) := by
  rcases hreply : (w.handle i answering r).2 with _ | _ | resp
  · cases call <;> exact h
  · cases call <;> exact h
  · cases call with
    | switchJoint j' answers =>
      rintro rfl
      obtain ⟨hi, hr⟩ := Option.ite_none_right_eq_some.mp hreq
      cases hr
      obtain ⟨hsw, t, ht, hpos⟩ := handle_switched hreply
      exact (h rfl).cons hs hi.1 hi.2 hsw ht hpos
    | sync j' old pos answers =>
      simp only [Call.answered]
      split
      · exact h
      · rename_i hge
        rintro rfl
        obtain ⟨hi, hr⟩ := Option.ite_none_right_eq_some.mp hreq
        cases hr
        obtain ⟨hsw, t, ht, hpos⟩ := handle_switched hreply
        exact ⟨(h rfl).1, (h rfl).2.1, (h rfl).2.2.cons hi.1 hi.2 hsw ht hpos hge⟩
    | _ => exact h

/-- The next point of a call needs nothing that the call does not know. -/
def Follows (call call' : Call) : Prop :=
  ∀ j v, CallKnows j v call → CallKnows j v call'

variable {p : ℕ}

theorem Follows.update (hw' : w'.calls = update w.calls p call)
    (h : Follows (w.calls p) call) (q : ℕ) : Follows (w.calls q) (w'.calls q) := by
  rw [hw']
  by_cases hq : q = p
  · subst hq
    rwa [update_self]
  · rw [update_of_ne hq]
    exact fun j v hv ↦ hv

theorem le_length_of_quorumReached {targets : List ℕ} {answers : Answers}
    (h : quorumReached targets mconf answers = true) : quorumSize targets ≤ answers.length := by
  simp only [quorumReached, Bool.and_eq_true, decide_eq_true_eq] at h
  exact h.1

theorem Next.follows {call' : Call} (h : Next call call') : Follows call call' := by
  cases h with
  | other h =>
    intro j v _
    cases call' <;> trivial
  | switchJoint j' => exact fun _ _ _ _ ↦ .nil
  | pull hsync =>
    rintro j v hv rfl
    exact ⟨hv rfl, hsync⟩
  | sync => exact fun j v hv hj ↦ ⟨(hv hj).1, (hv hj).2, .nil⟩
  | install hquorum =>
    rintro j v hv rfl
    exact ⟨(hv rfl).1, le_length_of_quorumReached hquorum, _, (hv rfl).2⟩

theorem CallStep.follows (h : CallStep w w' p) (q : ℕ) : Follows (w.calls q) (w'.calls q) := by
  obtain ⟨db, queue, call, rfl, hnext⟩ := h
  exact .update rfl hnext.follows q

/-- Only a reply tells a call something new. -/
theorem exec_follows (h : w.exec cfg a = some w') (ha : ∀ p i answering, a ≠ .ask p i answering)
    (q : ℕ) : Follows (w.calls q) (w'.calls q) := by
  cases a with
  | migrate p newSkSet => exact (migrate_callStep h).follows q
  | abort p => exact (abort_callStep h).follows q
  | proceed p => exact (proceed_callStep h).follows q
  | ask p i answering => exact absurd rfl (ha p i answering)
  | fail p =>
    cases h
    refine .update rfl ?_ q
    exact fun _ _ _ ↦ trivial
  | restartController =>
    cases h
    exact fun _ _ _ ↦ trivial
  | deliver i answering r =>
    simp only [exec] at h
    split at h <;> cases h
    exact fun _ _ hv ↦ hv
  | reconcileOne i answering =>
    obtain ⟨req, -, rfl⟩ := map_eq_some_iff.mp h
    dsimp only
    split <;> exact fun _ _ hv ↦ hv
  | greeting i mconf =>
    simp only [exec] at h
    split at h
    · obtain ⟨t, -, hset⟩ := bind_eq_some_iff.mp h
      split at hset <;> cases hset
      exact fun _ _ hv ↦ hv
    · cases h
  | write i term lastLogTerm flushLsn commitLsn =>
    obtain ⟨t, -, hset⟩ := bind_eq_some_iff.mp h
    split at hset <;> cases hset
    exact fun _ _ hv ↦ hv
  | ack i | send p i | sendOp i =>
    obtain ⟨r, -, rfl⟩ := map_eq_some_iff.mp h
    exact fun _ _ hv ↦ hv
  | stopReconciler i | restartSafekeeper i | upload segment =>
    cases h
    exact fun _ _ hv ↦ hv

theorem calls_step (hs : Settled T j w) (hs' : Settled T j w')
    (hk : Fleet.Keeps j w.fleet w'.fleet) (h : w.exec cfg a = some w')
    (hcalls : ∀ q, CallKnows j w (w.calls q)) (q : ℕ) : CallKnows j w' (w'.calls q) := by
  have ho := exec_observes h
  by_cases ha : ∀ p i answering, a ≠ .ask p i answering
  · exact exec_follows h ha q j w' ((hcalls q).step hs hs' ho hk)
  · push Not at ha
    obtain ⟨p, i, answering, rfl⟩ := ha
    obtain ⟨r, hr, rfl⟩ := map_eq_some_iff.mp h
    have hs₁ : Settled T j (w.handle i answering r).1 := { hs' with }
    by_cases hq : q = p
    · subst hq
      have ho₁ : Observes none w (w.handle i answering r).1 := handle_observes i answering r
      have hcall := CallKnows.answered hr hs₁ ((hcalls q).step hs hs₁ ho₁ hk)
      have hknows := hcall.step hs₁ hs'
        (show Observes none _ _ from SameFleet.observes ⟨rfl, rfl, rfl⟩) (.refl _)
      simpa only [setCall, update_self] using hknows
    · simp only [setCall, update_of_ne hq]
      exact (hcalls q).step hs hs' ho hk

/-- The action takes no timeline from a member and cuts no log. -/
def StepKeeps (cfg : Config) (j : Joint) (w : World) (a : Action) : Prop :=
  ∀ w' ∈ w.exec cfg a, Fleet.Keeps j w.fleet w'.fleet
  deriving Decidable

theorem calls_run (hs : Settled T j w) (hcalls : ∀ q, CallKnows j w (w.calls q))
    (h : w.run cfg as = some w') (hvotes : ∀ a ∈ as, ∀ term ∈ a.term?, term ≤ T)
    (hk : w.Along cfg (StepKeeps cfg j) as) :
      Settled T j w' ∧ ∀ q, CallKnows j w' (w'.calls q) := by
  induction as generalizing w with
  | nil =>
    cases h
    exact ⟨hs, hcalls⟩
  | cons a as ih =>
    obtain ⟨w₁, hstep, hrun⟩ := run_cons.mp h
    obtain ⟨hvote, hvotes⟩ := forall_mem_cons.mp hvotes
    obtain ⟨hkeep, hrest⟩ := hk
    rw [hstep] at hrest
    have hs₁ := hs.step (exec_observes hstep) hvote (hkeep w₁ hstep)
    exact ih hs₁ (calls_step hs hs₁ (hkeep w₁ hstep) hstep hcalls) hrun hvotes hrest

/-! ## The sync position -/

theorem le_of_acked {p q : Position} (hterm : (ofLex q).1 = (ofLex p).1)
    (hlsn : (ofLex p).2 ≤ (ofLex q).2) : p ≤ q := Prod.Lex.le_iff.mpr (.inr ⟨hterm.symm, hlsn⟩)

/-- **The sync position** is at least every position that is committed under the old
configuration: those who answered with less are no majority of the old set. -/
theorem OldAnswers.le_syncPosition (h : OldAnswers j w old)
    (hpos : getSyncPosition j.cur old = some pos) {p : Position} (hp : Committed w.history j p) :
    p ≤ pos := by
  by_contra hlt
  unfold getSyncPosition at hpos
  split at hpos
  · cases hpos
  have hcount := succ_le_countP_of_sorted (perm_insertionSort _ _)
    (pairwise_insertionSort _ _) hpos
  rw [countP_map, countP_eq_length_filter] at hcount
  -- the safekeepers that answered with the sync position at most
  let low := (old.filter ((fun x ↦ decide (x ≤ pos)) ∘ fun a ↦ a.2.position)).map Prod.fst
  have hlow : Majority j.cur.toFinset low.toFinset := by
    refine majority_of_length ((filter_sublist.map _).nodup h.nodup) (fun i hi ↦ ?_) ?_
    · obtain ⟨a, ha, rfl⟩ := mem_map.mp hi
      exact h.mem a (mem_of_mem_filter ha)
    · rw [length_map]
      unfold quorumSize at hcount
      omega
  obtain ⟨M, hM, hacked⟩ := hp
  obtain ⟨i, -, hi, hiM⟩ := hlow.meet hM
  obtain ⟨a, ha, rfl⟩ := mem_map.mp (mem_toFinset.mp hi)
  obtain ⟨generation, q, hq, hgen, hterm, hlsn⟩ := hacked a.1 hiM
  obtain ⟨hmem, hle⟩ := mem_filter.mp ha
  have hge := (le_of_acked hterm hlsn).trans (h.acked a hmem generation q hq hgen)
  exact hlt (hge.trans (of_decide_eq_true hle))

/-! ## The migration is finished -/

structure Fresh (w : World) : Prop where
  history : w.history = []
  calls : ∀ p, w.calls p = .idle

/-- **A migration is finished under the conditions of the protocol** if no election comes between:
all safekeepers start in one term and none votes in a higher one, and the steps of the run take no
timeline from a member and cut no log. -/
theorem finishConditions_of_noElection {p : ℕ} (hw : Fresh w)
    (hterm : ∀ i, ∀ t ∈ (w.fleet.sk i).timeline, t.term = T)
    (hvotes : ∀ a ∈ as, ∀ term ∈ a.term?, term ≤ T) (hkeeps : w.Along cfg (StepKeeps cfg j) as)
    (h : w.run cfg as = some w') (hcall : w'.calls p = .install j old new) :
    w'.FinishConditions j := by
  have hsettled : Settled T j w := ⟨by simp [hw.history], by simp [hw.history], hterm⟩
  obtain ⟨hs, hcalls⟩ :=
    calls_run hsettled (fun q ↦ by rw [hw.calls q]; trivial) h hvotes hkeeps
  have hknows := hcalls p
  rw [hcall] at hknows
  obtain ⟨hold, hquorum, pos, hpos, hnew⟩ := hknows rfl
  have hquorum' : quorumSize j.cur ≤ old.length := by
    unfold getSyncPosition at hpos
    split at hpos
    · cases hpos
    · omega
  have hsubold : old.map Prod.fst ⊆ j.cur := fun i hi ↦ by
    obtain ⟨a, ha, rfl⟩ := mem_map.mp hi
    exact hold.mem a ha
  have hsubnew : new.map Prod.fst ⊆ j.new := fun i hi ↦ by
    obtain ⟨a, ha, rfl⟩ := mem_map.mp hi
    exact hnew.mem a ha
  refine ⟨(old.map Prod.fst).toFinset, fun i hi ↦ ?_,
    majority_of_length hold.nodup hsubold (by rwa [length_map]), fun i hi ↦ ?_,
    (new.map Prod.fst).toFinset, fun i hi ↦ ?_,
    majority_of_length hnew.nodup hsubnew (by rwa [length_map]), fun i hi ↦ ?_⟩
  · exact mem_toFinset.mpr (hsubold (mem_toFinset.mp hi))
  · obtain ⟨o, ho, rfl⟩ := mem_map.mp (mem_toFinset.mp hi)
    exact hold.switched o ho
  · exact mem_toFinset.mpr (hsubnew (mem_toFinset.mp hi))
  · obtain ⟨a, ha, rfl⟩ := mem_map.mp (mem_toFinset.mp hi)
    obtain ⟨t, ht, hholds⟩ := hnew.holds a ha
    refine ⟨hnew.switched a ha, t, ht, fun p hp ↦ ?_, fun o _ t' ht' ↦ ?_⟩
    · exact (hold.le_syncPosition hpos hp).trans hholds
    · exact (hs.term o t' ht').le.trans (hs.term a.1 t ht).ge

/-- Two safekeepers with the timeline; the second one has more of the log. -/
def samplePair : World where
  db := ⟨⟨1, [1, 2], none, 1, 1⟩, []⟩
  queue := fun _ ↦ none
  calls := fun _ ↦ .idle
  sent := []
  fleet :=
    { sk := fun i ↦
        if i = 1 then ⟨some ⟨⟨1, [1, 2], none⟩, 1, 1, 10, 10⟩, none⟩
        else if i = 2 then ⟨some ⟨⟨1, [1, 2], none⟩, 1, 1, 20, 10⟩, none⟩
        else ⟨none, none⟩
      remoteWal := [] }
  history := []

def samplePairConfig : Config := ⟨[1, 2, 3], 1, []⟩

/-- Both acknowledge what they have, and the timeline is migrated to a third safekeeper, up to the
update of the row. -/
def samplePairMigration : List Action :=
  [.ack 1, .ack 2, .migrate 0 [3], .proceed 0, .proceed 0, .ask 0 1 [], .ask 0 2 [], .proceed 0,
    .ask 0 3 [1, 2], .proceed 0, .ask 0 3 [], .proceed 0]

def samplePairJoint : Joint := ⟨2, [1, 2], [3]⟩

/-- The first safekeeper gets more of the log in the same term, and the migration is finished as it
should be. -/
theorem finishConditions_of_noElection_pair : ∃ w',
    samplePair.run samplePairConfig (.write 1 1 1 15 10 :: samplePairMigration) = some w' ∧
      w'.FinishConditions samplePairJoint := by
  obtain ⟨w', h, hcall⟩ :
      ∃ w ∈ samplePair.run samplePairConfig (.write 1 1 1 15 10 :: samplePairMigration),
        w.calls 0 = .install samplePairJoint [(2, ⟨2, 1, 20⟩), (1, ⟨2, 1, 15⟩)]
          [(3, ⟨2, 1, 20⟩)] := by
    decide
  refine ⟨w', h, finishConditions_of_noElection (T := 1) ⟨rfl, fun _ ↦ rfl⟩ (fun i t ht ↦ ?_)
    (by decide) (by decide) h hcall⟩
  simp only [samplePair] at ht
  split_ifs at ht <;> cases ht <;> rfl

/-- The first safekeeper votes in term 2. The new one is a copy of the second, which has more of the
log and is still in term 1; nothing raises its term, and the row is updated. -/
theorem exists_not_finishConditions : ∃ w w' old new, Fresh samplePair ∧
    samplePair.run samplePairConfig (.write 1 2 1 10 10 :: samplePairMigration) = some w ∧
    w.calls 0 = .install samplePairJoint old new ∧ w.proceed 0 = some w' ∧
    w'.db.timeline.skSet = [3] ∧ ¬w.FinishConditions samplePairJoint := by
  obtain ⟨w, h, hcall, hproceed, h1, h3⟩ :
      ∃ w ∈ samplePair.run samplePairConfig (.write 1 2 1 10 10 :: samplePairMigration),
        w.calls 0 = .install samplePairJoint [(2, ⟨2, 1, 20⟩), (1, ⟨2, 1, 10⟩)] [(3, ⟨2, 1, 20⟩)] ∧
        (w.proceed 0).map (·.db.timeline.skSet) = some [3] ∧
        (w.fleet.sk 1).timeline.map (·.term) = some 2 ∧
        (w.fleet.sk 3).timeline.map (·.term) = some 1 := by
    decide
  obtain ⟨w', hw', hset⟩ := map_eq_some_iff.mp hproceed
  refine ⟨w, w', _, _, ⟨rfl, fun _ ↦ rfl⟩, h, hcall, hw', hset, ?_⟩
  rintro ⟨Qo, -, hQo, -, Qn, -, hQn, hconds⟩
  have hmem1 : 1 ∈ Qo := hQo.subset_of_card_le_two (by decide) (by decide)
  have hmem3 : 3 ∈ Qn := hQn.subset_of_card_le_two (by decide) (by decide)
  obtain ⟨-, t, ht, -, hterm⟩ := hconds 3 hmem3
  obtain ⟨t', ht', ht'2⟩ := map_eq_some_iff.mp h1
  have hle := hterm 1 hmem1 t' ht'
  rw [ht, Option.map_some, Option.some.injEq] at h3
  omega

end World

end NeonStorage.StorageController.Membership
