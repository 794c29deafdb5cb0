import NeonStorage.Lib.Ledger
import NeonStorage.StorageController.Service
import NeonStorage.Lib.Snoc

/-!
# One pageserver per generation

Every generation is issued by the database for one pageserver. The controller keeps to it as long as
whatever it sends carries a generation issued for the receiver. Only the first call of a live
migration does not make sure of that: it sends the origin the generation of the reconciler, which
may have been issued for another pageserver, and not the one observed on the origin. If the two are
the same whenever a live migration starts, no generation is sent to two pageservers
(`onePageserver_of_reachable`); otherwise it happens (`exists_not_onePageserver`).
-/

namespace NeonStorage.StorageController

open List
variable {N τ : Type}

/-! ## Configurations that carry a generation of their node -/

/-- If the location is attached, its generation was issued for the node. -/
def Owned (l : Ledger N) (node : N) (conf : LocationConfig τ) : Prop :=
  conf.mode.isAttached → ∀ g, conf.generation = some g → l.Holds node g

/-- Everything that is believed of the pageservers is of this kind. -/
def Known (l : Ledger N) (observed : ObservedState N τ) : Prop :=
  ∀ node conf, observed node = some (some conf) → Owned l node conf

/-- What a stage needs to know of the generation of its reconciler, and of what it is going to
send. -/
def Stage.Sound (l : Ledger N) (generation : Option ℕ) : Stage N τ → Prop
  | stale origin _ => ∀ g, generation = some g → l.Holds origin g
  | multi _ dest | cutover _ dest | demote _ dest | single dest =>
    ∀ g, generation = some g → l.Holds dest g
  | configure node conf => Owned l node conf
  | changes todo _ => ∀ change ∈ todo, change.2.mode.isAttached = false
  | _ => True

structure Reconciler.Sound (l : Ledger N) (r : Reconciler N τ) : Prop where
  known : Known l r.observed
  stage : r.stage.Sound l r.generation

variable {node : N} {conf : LocationConfig τ}

section Ledgers

variable {l l' : Ledger N}

theorem Owned.of_not_isAttached (h : conf.mode.isAttached = false) : Owned l node conf :=
  fun ha ↦ absurd ha (by simp [h])

theorem Owned.mono (hl : ∀ i k, l.Holds i k → l'.Holds i k) (h : Owned l node conf) :
    Owned l' node conf :=
  fun ha g hg ↦ hl _ _ (h ha g hg)

variable {observed : ObservedState N τ}

theorem Known.mono (hl : ∀ i k, l.Holds i k → l'.Holds i k)
    (h : Known l observed) : Known l' observed :=
  fun node conf hc ↦ (h node conf hc).mono hl

variable {g : Option ℕ} {s : Stage N τ}

theorem Stage.Sound.mono (hl : ∀ i k, l.Holds i k → l'.Holds i k) (h : s.Sound l g) :
    s.Sound l' g := by
  cases s with
  | stale | multi | cutover | demote | single => exact fun g hg ↦ hl _ _ (h g hg)
  | configure => exact Owned.mono hl h
  | changes => exact h
  | _ => trivial

theorem Reconciler.Sound.mono (hl : ∀ i k, l.Holds i k → l'.Holds i k) {r : Reconciler N τ}
    (h : r.Sound l) : r.Sound l' := ⟨h.known.mono hl, h.stage.mono hl⟩

theorem Stage.Sound.next (h : s.Sound l g) : s.next.Sound l g := by
  cases s with
  | changes todo failed =>
    cases todo with
    | nil => exact h
    | cons change todo => exact (forall_mem_cons.mp h).2
  | multi | demote => exact h
  | _ => trivial

theorem Stage.Sound.afterFailure (h : s.Sound l g) : s.afterFailure.Sound l g := by
  cases s with
  | changes todo failed =>
    cases todo with
    | nil => trivial
    | cons change todo => exact (forall_mem_cons.mp h).2
  | _ => trivial

variable [DecidableEq N]

theorem Known.update (h : Known l observed) {location : Option (Option (LocationConfig τ))}
    (hc : ∀ conf, location = some (some conf) → Owned l node conf) :
    Known l (Function.update observed node location) := by
  intro n conf hn
  rcases eq_or_ne n node with rfl | hne
  · rw [Function.update_self] at hn
    exact hc conf hn
  · rw [Function.update_of_ne hne] at hn
    exact h n conf hn

end Ledgers

/-! ## One reconciler -/

namespace Reconciler

variable {l : Ledger N} {r r' : Reconciler N τ}

/-- Whatever a reconciler sends carries a generation of the receiver. -/
theorem Sound.owned_of_request (h : r.Sound l) (hr : r.request = some (node, conf)) :
    Owned l node conf := by
  have hs := h.stage
  unfold request at hr
  split at hr
  case h_1 heq | h_2 heq | h_4 heq =>
    rw [heq] at hs
    cases hr
    exact fun _ ↦ hs
  case h_3 =>
    cases hr
    exact .of_not_isAttached rfl
  case h_5 heq =>
    rw [heq] at hs
    cases hr
    exact hs
  case h_6 heq =>
    rw [heq] at hs
    split at hr
    · cases hr
      exact .of_not_isAttached (hs _ mem_cons_self)
    · cases hr
  case h_7 => cases hr

theorem Sound.attachStage [DecidableEq τ] (h : r.Sound l) : r.attachStage.Sound l r.generation := by
  unfold Reconciler.attachStage
  split
  · trivial
  · trivial
  case h_3 node g hn hg =>
    dsimp only
    split_ifs with hw hi
    · trivial
    · trivial
    -- the generation is kept only if the location observed is attached and has it
    unfold incrementsGeneration at hi
    split at hi
    · exact absurd rfl hi
    · exact absurd rfl hi
    case h_3 conf hconf =>
      simp only [Bool.or_eq_true, decide_eq_true_eq, not_or, not_not] at hi
      intro ha g' hg'
      refine h.known node conf hconf ?_ g' (hi.1.trans hg')
      rw [hi.2]
      exact ha

variable [DecidableEq N]

theorem Sound.collectSecondary [DecidableEq τ] (h : Known l r.observed) :
    Known l r.collectSecondary.1 ∧ ∀ c ∈ r.collectSecondary.2, c.2.mode.isAttached = false := by
  refine List.foldlRecOn (motive := fun acc : ObservedState N τ × List (N × LocationConfig τ) ↦
    Known l acc.1 ∧ ∀ c ∈ acc.2, c.2.mode.isAttached = false) _ _ ⟨h, nofun⟩ ?_
  rintro acc ⟨hk, hc⟩ node -
  split_ifs
  · exact ⟨hk, hc⟩
  · refine ⟨hk, fun c hmem ↦ ?_⟩
    rcases mem_snoc.mp hmem with hmem | rfl
    · exact hc c hmem
    · rfl
  · exact ⟨hk.update nofun, hc⟩

theorem Sound.collectChanges [DecidableEq τ] (h : r.Sound l) : r.collectChanges.Sound l where
  known := (Sound.collectSecondary h.known).1
  stage := by
    intro c hc
    rcases mem_append.mp hc with hc | hc
    · exact (Sound.collectSecondary h.known).2 c hc
    · obtain ⟨node, -, rfl⟩ := mem_map.mp hc
      rfl

/-- The origin is known to have the generation that the reconciler is going to send it. -/
def GenerationObserved (r : Reconciler N τ) (origin : N) : Prop :=
  (r.observed origin).join.bind (·.generation) = r.generation

theorem Sound.stale (h : r.Sound l) {origin dest : N} (ho : r.isOrigin origin)
    (hg : r.GenerationObserved origin) :
    (Stage.stale origin dest : Stage N τ).Sound l r.generation := by
  unfold isOrigin at ho
  split at ho
  case h_1 conf hconf =>
    simp only [Bool.and_eq_true, decide_eq_true_eq] at ho
    intro g hg'
    refine h.known origin conf hconf (by rw [ho.1.1]; rfl) g ?_
    rw [← hg', ← hg, hconf]
    rfl
  case h_2 => cases ho

/-- **A step of a reconciler keeps its knowledge sound**, if live migrations start as they
should. -/
theorem Sound.move [DecidableEq τ] {received reports : N → LocationConfig τ → Prop}
    (hreports : ∀ node conf, reports node conf → Owned l node conf) (h : r.Sound l)
    (hm : r.Move received reports GenerationObserved r') : r'.Sound l := by
  cases hm with
  | start | certain | indeterminate | noLiveMigrate | warm | notify | finish | abort =>
    exact ⟨h.known, trivial⟩
  | refreshed node conf _ _ hr =>
    refine ⟨h.known.update fun c hc ↦ ?_, trivial⟩
    cases hc
    exact hreports node conf hr
  | notFound node => exact ⟨h.known.update nofun, trivial⟩
  | liveMigrate origin dest _ _ ho hg => exact ⟨h.known, h.stale ho hg⟩
  | cutover origin dest hs =>
    have := h.stage
    rw [hs] at this
    exact ⟨h.known, this⟩
  | attach => exact ⟨h.known, h.attachStage⟩
  | collect => exact h.collectChanges
  | skip node conf todo failed hs =>
    have := h.stage
    rw [hs] at this
    exact ⟨h.known.update nofun, (forall_mem_cons.mp this).2⟩
  | call node conf =>
    unfold locationConfig
    split_ifs
    · exact ⟨h.known, h.stage.next⟩
    · exact ⟨h.known.update nofun, h.stage⟩
  | succeed node conf hr =>
    refine ⟨h.known.update fun c hc ↦ ?_, h.stage.next⟩
    split_ifs at hc
    cases hc
    exact h.owned_of_request hr
  | fail => exact ⟨h.known, h.stage.afterFailure⟩
  | unavailable => exact ⟨h.known, h.stage⟩

omit [DecidableEq N] in
theorem Sound.advanced (h : r.Sound l) {generation : Option ℕ}
    (hs : (∃ origin, r.stage = .advance origin node) ∨ ∃ wanted,
      r.stage = .advanceAttached node wanted)
    (hg : ∀ g, generation = some g → l.Holds node g) : (r.advanced generation).Sound l := by
  unfold Reconciler.advanced
  split
  case h_1 g origin dest heq =>
    refine ⟨h.known, ?_⟩
    rcases hs with ⟨_, hs⟩ | ⟨_, hs⟩ <;> rw [hs] at heq <;> cases heq
    exact hg
  case h_2 g n wanted heq =>
    refine ⟨h.known, ?_⟩
    rcases hs with ⟨_, hs⟩ | ⟨_, hs⟩ <;> rw [hs] at heq <;> cases heq
    exact fun _ ↦ hg
  case h_3 => exact ⟨h.known, trivial⟩

omit [DecidableEq N] in
theorem observed_of_upsert [DecidableEq τ] {conf : Option (LocationConfig τ)}
    (h : r.observedDeltas node = some (.upsert conf)) : r.observed node = some conf := by
  unfold observedDeltas at h
  split at h
  case h_1 heq =>
    split_ifs at h
    cases h
    exact heq
  case h_2 => cases h
  case h_3 => cases h

end Reconciler

/-! ## The shard in memory -/

namespace TenantShard

variable {l : Ledger N} {s : TenantShard N τ}

section

variable (h : Known l s.observed)
include h

theorem known_processResult {available : N → Bool} {result : ReconcileResult N τ}
    (hr : ∀ node conf, result.observedDeltas node = some (.upsert (some conf)) →
      Owned l node conf) : Known l (s.processResult available result).observed := by
  intro node conf hn
  simp only [processResult, applyObservedDeltas] at hn
  split at hn
  case h_1 => exact h node conf hn
  case h_2 => cases hn
  case h_3 c hc =>
    split_ifs at hn
    · cases hn
    cases hn
    obtain ⟨delta, hdelta, hf⟩ := Option.map_eq_some_iff.mp hc
    unfold filterDelta at hf
    split_ifs at hf
    · split at hf
      · cases hf
      · exact hr node conf (hf ▸ hdelta)
    · cases hf

variable [DecidableEq N]

theorem known_reAttached {g : ℕ} (hg : l.Holds node g) (emptyLocalDisk : Bool) :
    Known l (s.reAttached node g emptyLocalDisk).observed := by
  refine h.update fun conf hconf ↦ ?_
  obtain ⟨c, -, rfl⟩ := Option.map_eq_some_iff.mp (Option.some.inj hconf)
  intro _ g' hg'
  cases hg'
  exact hg

theorem known_nodeOffline (node : N) : Known l (s.nodeOffline node).observed := by
  refine h.update fun conf hconf ↦ ?_
  obtain ⟨c, -, hc⟩ := Option.map_eq_some_iff.mp hconf
  cases hc

theorem known_nodeActivateReconcile [DecidableEq τ] (node : N)
    (reported : Option (LocationConfig τ)) :
    Known l (s.nodeActivateReconcile node reported).observed := by
  refine h.update fun conf hconf ↦ ?_
  have hconf := Option.some.inj hconf
  split_ifs at hconf
  exact h node conf (Option.join_eq_some_iff.mp hconf)

end

end TenantShard

/-! ## Runs of the controller -/

namespace World

/-- Every generation that occurs somewhere was issued for the node it occurs with. -/
structure Inv (l : Ledger N) (w : World N τ) : Prop where
  row : ∀ g, w.row.generation = some g → g = l.last
  shard : Known l w.shard.observed
  reconcilers : ∀ r ∈ w.reconcilers, r.Sound l
  results : ∀ result ∈ w.results, ∀ node conf,
    result.observedDeltas node = some (.upsert (some conf)) → Owned l node conf
  reattaching : ∀ p ∈ w.reattaching, l.Holds p.1 p.2
  sent : ∀ node mode g, (node, mode, some g) ∈ w.sent → mode.isAttached → l.Holds node g

variable {l : Ledger N} {w w' : World N τ}

theorem Initial.inv (h : w.Initial) : w.Inv (Ledger.empty (w.row.generation.getD 0)) where
  row g hg := by rw [hg]; rfl
  shard node conf hc := by rw [h.observed] at hc; cases hc
  reconcilers r hr := by rw [h.reconcilers] at hr; cases hr
  results r hr := by rw [h.results] at hr; cases hr
  reattaching p hp := by rw [h.reattaching] at hp; cases hp
  sent n m g hs := by rw [h.sent] at hs; cases hs

theorem Inv.issue (h : w.Inv l) (node : N) :
    ∃ l' : Ledger N, (∀ g, w.row.generation.map (· + 1) = some g → l'.Holds node g) ∧
      ∀ p, Inv l' { w with row := ⟨w.row.generation.map (· + 1), p⟩ } := by
  cases hg : w.row.generation with
  | none =>
    refine ⟨l, nofun, fun p ↦ { h with row := nofun }⟩
  | some g =>
    obtain rfl := h.row g hg
    have hl : ∀ i k, l.Holds i k → (l.issue node).Holds i k := fun i k hk ↦ hk.issue node
    refine ⟨l.issue node, ?_, fun p ↦ ?_⟩
    · rintro _ ⟨⟩
      exact Ledger.holds_issue
    · exact {
        row := by rintro _ ⟨⟩; rfl
        shard := h.shard.mono hl
        reconcilers := fun r hr ↦ (h.reconcilers r hr).mono hl
        results := fun r hr n c hc ↦ (h.results r hr n c hc).mono hl
        reattaching := fun p hp ↦ hl _ _ (h.reattaching p hp)
        sent := fun n m g hs ha ↦ hl _ _ (h.sent n m g hs ha) }

theorem Inv.owned_of_reports (h : w.Inv l) (hr : w.Reports node conf) : Owned l node conf := by
  intro ha g hg
  obtain ⟨mode, hmode, hs⟩ := hr ha g hg
  exact h.sent node mode g hs hmode

theorem Inv.transmit (h : w.Inv l) {mode : LocationConfigMode} {generation : Option ℕ}
    (ho : mode.isAttached → ∀ g, generation = some g → l.Holds node g) :
    (w.transmit node mode generation).Inv l :=
  { h with
    sent := by
      intro n m g hs ha
      rcases mem_cons.mp hs with heq | hs
      · cases heq
        exact ho ha g rfl
      · exact h.sent n m g hs ha }

variable {rs : List (Reconciler N τ)}

theorem Inv.replace (h : w.Inv l) {r r' : Reconciler N τ}
    (hw : w.reconcilers = r :: rs) (hr : r.Sound l → r'.Sound l) :
    Inv l { w with reconcilers := r' :: rs } :=
  { h with
    reconcilers := by
      intro x hx
      rcases mem_cons.mp hx with rfl | hx
      · exact hr (h.reconcilers r (hw ▸ mem_cons_self))
      · exact h.reconcilers x (hw ▸ mem_cons_of_mem r hx) }

theorem Inv.remove (h : w.Inv l) {r : Reconciler N τ}
    (hw : w.reconcilers = r :: rs) : Inv l { w with reconcilers := rs } :=
  { h with reconcilers := fun x hx ↦ h.reconcilers x (hw ▸ mem_cons_of_mem r hx) }

variable [DecidableEq N] [DecidableEq τ]

/-- **A step keeps every generation with the node it was issued for.** -/
theorem Inv.step (h : w.Inv l) (hs : Step Reconciler.GenerationObserved w w') :
    ∃ l' : Ledger N, w'.Inv l' := by
  cases hs with
  | configure | clearPageserver | online => exact ⟨l, { h with }⟩
  | spawn detach =>
    refine ⟨l, { h with reconcilers := fun r hr ↦ ?_ }⟩
    rcases mem_snoc.mp hr with hr | rfl
    · exact h.reconcilers r hr
    · exact ⟨h.shard, trivial⟩
  | move r r' rs hw hm =>
    exact ⟨l, h.replace hw fun hr ↦ hr.move (fun _ _ ↦ h.owned_of_reports) hm⟩
  | transmit r rs node conf hw _ hr =>
    have hsound : r.Sound l := h.reconcilers r (hw ▸ mem_cons_self)
    exact ⟨l, h.transmit (hsound.owned_of_request hr)⟩
  | advance r rs origin dest hw hs =>
    obtain ⟨l', hnew, h'⟩ := h.issue dest
    exact ⟨l', (h' _).replace hw fun hr ↦ hr.advanced (.inl ⟨origin, hs⟩) hnew⟩
  | advanceAttached r rs node wanted hw hs =>
    obtain ⟨l', hnew, h'⟩ := h.issue node
    exact ⟨l', (h' _).replace hw fun hr ↦ hr.advanced (.inr ⟨wanted, hs⟩) hnew⟩
  | advanceLost r rs node hw hs =>
    obtain ⟨l', -, h'⟩ := h.issue node
    exact ⟨l', (h' _).replace hw fun hr ↦ hr.advanced hs nofun⟩
  | complete r rs success hw _ =>
    have hsound : r.Sound l := h.reconcilers r (hw ▸ mem_cons_self)
    refine ⟨l, { h.remove hw with results := fun result hr node conf hc ↦ ?_ }⟩
    rcases mem_snoc.mp hr with hr | rfl
    · exact h.results result hr node conf hc
    · exact hsound.known node conf (Reconciler.observed_of_upsert hc)
  | drop r rs hw _ => exact ⟨l, h.remove hw⟩
  | processResult result rest hw =>
    refine ⟨l, { h with shard := ?_, results := fun x hx ↦ ?_ }⟩
    · exact TenantShard.known_processResult h.shard (h.results result (hw ▸ mem_cons_self))
    · exact h.results x (hw ▸ mem_cons_of_mem result hx)
  | reAttach node g hg hn =>
    obtain ⟨l', hnew, h'⟩ := h.issue node
    have hrow : w.row.reAttach node = ⟨w.row.generation.map (· + 1), some node⟩ := by
      rw [TenantShardPersistence.reAttach, if_pos hn, ← hn]
    rw [hrow] at hg ⊢
    refine ⟨l', { h' (some node) with reattaching := fun p hp ↦ ?_ }⟩
    rcases mem_snoc.mp hp with hp | rfl
    · exact (h' (some node)).reattaching p hp
    · exact hnew g hg
  | reAttached node g before after emptyLocalDisk hw =>
    have hheld : l.Holds node g :=
      h.reattaching (node, g) (hw ▸ mem_append_right before mem_cons_self)
    have hshard := TenantShard.known_reAttached h.shard hheld emptyLocalDisk
    have hrest : ∀ p ∈ before ++ after, l.Holds p.1 p.2 := by
      intro p hp
      refine h.reattaching p (hw ▸ ?_)
      rcases mem_append.mp hp with hp | hp
      · exact mem_append_left _ hp
      · exact mem_append_right _ (mem_cons_of_mem _ hp)
    refine ⟨l, Inv.transmit ?_ fun _ k hk ↦ ?_⟩
    · exact { h with shard := hshard, reattaching := hrest }
    · cases hk
      exact hheld
  | offline node => exact ⟨l, { h with shard := TenantShard.known_nodeOffline h.shard node }⟩
  | activate node reported =>
    exact ⟨l, { h with shard := TenantShard.known_nodeActivateReconcile h.shard node reported }⟩
  | restart policy config intent observed available hobs =>
    have hshard : Known l observed := by
      rcases hobs with hobs | rfl
      · exact fun node conf hc ↦ h.owned_of_reports (hobs node conf hc)
      · exact h.shard
    refine ⟨l, { h with shard := hshard, reconcilers := ?_, results := ?_, reattaching := ?_ }⟩
    all_goals exact fun _ hx ↦ absurd hx not_mem_nil

theorem Inv.of_reachable (hw : Reachable Reconciler.GenerationObserved w) :
    ∃ l : Ledger N, w.Inv l := by
  obtain ⟨w₀, hinit, hrun⟩ := hw
  induction hrun with
  | refl => exact ⟨_, hinit.inv⟩
  | tail _ hstep ih =>
    obtain ⟨l, h⟩ := ih
    exact h.step hstep

end World

/-! ## Whole runs -/

/-- **One pageserver per generation**, if whenever a live migration starts, the generation observed
on the origin is the one of the reconciler. -/
theorem onePageserver_of_reachable [DecidableEq N] [DecidableEq τ] {w : World N τ}
    (hw : Reachable Reconciler.GenerationObserved w) : w.OnePageserver := by
  obtain ⟨l, h⟩ := World.Inv.of_reachable hw
  intro n n' m m' g hn hn' hm hm'
  exact (h.sent n m g hn hm).eq (h.sent n' m' g hn' hm')

/-- A shard that was just created, with an attached location on node 0 and a secondary on node 1. -/
def sampleWorld : World (Fin 2) Unit where
  row := ⟨some 0, none⟩
  shard := ⟨some 0, .attached 1, ⟨none, ()⟩, ⟨some 0, [1]⟩, fun _ ↦ none⟩
  available := fun _ ↦ true
  reconcilers := []
  results := []
  reattaching := []
  sent := []

/-- Node 0 has generation 1, and it is not known what happened on node 1; by now, node 1 should be
attached. -/
def sampleUncertain : World (Fin 2) Unit where
  row := ⟨some 1, some 0⟩
  shard :=
    { generation := some 1
      policy := .attached 1
      config := ⟨none, ()⟩
      intent := ⟨some 1, [0]⟩
      observed := fun node ↦
        if node = 0 then some (some (attachedLocationConf 1 ⟨none, ()⟩ (.attached 1) 1)) else some
          none }
  available := fun _ ↦ true
  reconcilers := []
  results := []
  reattaching := []
  sent := [(0, .attachedSingle, some 1)]

theorem byMove {ok : Reconciler (Fin 2) Unit → Fin 2 → Prop} {w w' : World (Fin 2) Unit}
    {r r' : Reconciler (Fin 2) Unit} (h : w.reconcilers = [r])
    (hm : r.Move w.Received w.Reports ok r')
    (hrest : Relation.ReflTransGen (Step ok) { w with reconcilers := [r'] } w') :
    Relation.ReflTransGen (Step ok) w w' := .head (.move _ _ _ [] h hm) hrest

theorem reachable_sampleUncertain (ok : Reconciler (Fin 2) Unit → Fin 2 → Prop) :
    Reachable ok sampleUncertain := by
  refine ⟨sampleWorld, ⟨rfl, rfl, fun _ ↦ rfl, rfl, rfl, rfl, rfl⟩, ?_⟩
  -- node 0 is attached, the call to node 1 fails
  refine .head (.spawn _ [] (by decide)) ?_
  refine byMove rfl (.start _ rfl) ?_
  refine byMove rfl (.certain _ rfl rfl) ?_
  refine byMove rfl (.noLiveMigrate _ rfl (.inr fun _ ↦ rfl)) ?_
  refine byMove rfl (.attach _ rfl) ?_
  refine .head (.advanceAttached _ _ [] 0 _ rfl rfl) ?_
  refine byMove rfl (.call _ 0 _ rfl rfl) ?_
  refine .head (.transmit _ _ [] 0 _ rfl rfl rfl) ?_
  refine byMove rfl (.succeed _ 0 _ rfl rfl mem_cons_self) ?_
  refine byMove rfl (.notify _ rfl) ?_
  refine byMove rfl (.collect _ rfl) ?_
  refine byMove rfl (.call _ 1 _ rfl rfl) ?_
  refine byMove rfl (.fail _ rfl) ?_
  refine byMove rfl (.finish _ true rfl) ?_
  refine .head (.complete _ _ [] false rfl rfl) ?_
  refine .head (.processResult _ _ [] rfl) ?_
  -- the intent changes
  refine .head (.configure _ (.attached 1) ⟨none, ()⟩ ⟨some 1, [0]⟩) ?_
  have hobserved : ∀ w : World (Fin 2) Unit, w = { sampleUncertain with
      shard := { sampleUncertain.shard with observed := w.shard.observed } } →
      (∀ node, w.shard.observed node = sampleUncertain.shard.observed node) →
      Relation.ReflTransGen (Step ok) w sampleUncertain := by
    intro w hw ho
    rw [hw, funext ho]
  exact hobserved _ rfl (by decide)

theorem onePageserver_of_reachable_migrated :
    ∃ w : World (Fin 2) Unit, Reachable Reconciler.GenerationObserved w ∧
      (0, .attachedStale, some 1) ∈ w.sent ∧ (1, .attachedMulti, some 2) ∈ w.sent ∧
      w.OnePageserver := by
  obtain ⟨w₀, hinit, hprefix⟩ := reachable_sampleUncertain Reconciler.GenerationObserved
  refine ⟨?w, ?reach, ?stale, ?multi, onePageserver_of_reachable ?reach⟩
  case reach =>
    refine ⟨w₀, hinit, hprefix.trans ?run⟩
    case run =>
      refine .head (.spawn _ [] (by decide)) ?_
      refine byMove rfl (.start _ rfl) ?_
      refine byMove rfl (.notFound _ 1 rfl rfl) ?_
      refine byMove rfl (.liveMigrate _ 0 1 rfl rfl rfl rfl) ?_
      refine byMove rfl (.call _ 0 _ rfl rfl) ?_
      refine .head (.transmit _ _ [] 0 _ rfl rfl rfl) ?_
      refine byMove rfl (.succeed _ 0 _ rfl rfl mem_cons_self) ?_
      refine byMove rfl (.warm _ 0 1 rfl) ?_
      refine .head (.advance _ _ [] 0 1 rfl rfl) ?_
      refine byMove rfl (.call _ 1 _ rfl rfl) ?_
      refine .head (.transmit _ _ [] 1 _ rfl rfl rfl) ?_
      exact .refl
  case stale => exact .tail _ (.head _)
  case multi => exact .head _

/-- The origin of a live migration is sent a generation that was sent to the destination before. -/
theorem exists_not_onePageserver :
    ∃ w : World (Fin 2) Unit, Reachable (fun _ _ ↦ True) w ∧ ¬ w.OnePageserver := by
  obtain ⟨w₀, hinit, hprefix⟩ := reachable_sampleUncertain fun _ _ ↦ True
  refine ⟨?w, ⟨w₀, hinit, hprefix.trans ?run⟩, ?_⟩
  case run =>
    -- the location of node 1 is being changed: generation 2 is issued for it, but the call fails
    refine .head (.spawn _ [] (by decide)) ?_
    refine byMove rfl (.start _ rfl) ?_
    refine byMove rfl (.indeterminate _ 1 rfl rfl) ?_
    refine byMove rfl (.noLiveMigrate _ rfl (.inl rfl)) ?_
    refine byMove rfl (.attach _ rfl) ?_
    refine .head (.advanceAttached _ _ [] 1 _ rfl rfl) ?_
    refine byMove rfl (.call _ 1 _ rfl rfl) ?_
    refine .head (.transmit _ _ [] 1 _ rfl rfl rfl) ?_
    refine byMove rfl (.fail _ rfl) ?_
    refine .head (.complete _ _ [] false rfl rfl) ?_
    refine .head (.processResult _ _ [] rfl) ?_
    -- node 1 answers that it has no location, so node 0 is migrated and sent generation 2
    refine .head (.spawn _ [] (by decide)) ?_
    refine byMove rfl (.start _ rfl) ?_
    refine byMove rfl (.notFound _ 1 rfl rfl) ?_
    refine byMove rfl (.liveMigrate _ 0 1 rfl rfl rfl trivial) ?_
    refine byMove rfl (.call _ 0 _ rfl rfl) ?_
    refine .head (.transmit _ _ [] 0 _ rfl rfl rfl) ?_
    exact .refl
  · intro h
    have := h 0 1 .attachedStale .attachedSingle 2 (.head _) (.tail _ (.head _)) rfl rfl
    cases this

end NeonStorage.StorageController
