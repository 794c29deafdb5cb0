import Mathlib.Algebra.GroupWithZero.Nat
import Mathlib.Order.Basic

/-!
# The bytes of all in-memory layers

Each in-memory layer holds `GlobalResourceUnits`, which keep its size in the global counter
`dirty_bytes`. The counter and the number of layers are atomics of their own: the calls of different
holders interleave between any two accesses, and `drop` gives up its layer before it takes back its
bytes.

The counter is the sum of the published sizes (`Exact`), as long as the sum fits. The average that
`publish_size` returns above the configured maximum divides by the number of layers, which can be
zero while the last layers are dropped at the same time.
-/

namespace NeonStorage.Pageserver.GlobalResources

open List

/-- Where a holder is between two atomic accesses. -/
inductive Phase where
  | idle
  /-- In `drop`, without its layer. -/
  | dropping
  /-- In `publish_size`, with the new value of the counter, before the load of the maximum. -/
  | published (newGlobalDirtyBytes : ℕ) (inDrop : Bool)
  /-- In `publish_size` above the maximum, before the load of the number of layers. -/
  | average (newGlobalDirtyBytes : ℕ) (inDrop : Bool)
  | dropped
  deriving DecidableEq

/-- `GlobalResourceUnits`, with what its last `publish_size` returned. -/
structure Holder where
  dirtyBytes : ℕ := 0
  phase : Phase := .idle
  layerLimit : Option ℕ := none
  deriving DecidableEq

inductive Fault where
  | underflow
  | divideByZero
  deriving DecidableEq

structure State where
  dirtyBytes : ℕ := 0
  dirtyLayers : ℕ := 0
  holders : List Holder := []
  faults : List Fault := []
  deriving DecidableEq

open State

inductive Event where
  | new
  | publishSize (i size : ℕ)
  | drop (i : ℕ)
  /-- The next access of a call in flight. -/
  | advance (i : ℕ)

namespace State

variable (s : State) (i : ℕ) (h : Holder)

def total : ℕ := (s.holders.map Holder.dirtyBytes).sum

/-- No call is in flight. -/
def Quiet : Prop := ∀ h ∈ s.holders, h.phase = .idle ∨ h.phase = .dropped

/-- The counter after it changed by as much as the size of the holder; it wraps around. -/
def counter (size : ℕ) : ℕ :=
  if h.dirtyBytes < size then (s.dirtyBytes + (size - h.dirtyBytes)) % 2 ^ 64
  else if size < h.dirtyBytes then (s.dirtyBytes + (2 ^ 64 - (h.dirtyBytes - size))) % 2 ^ 64
  else s.dirtyBytes

/-- The first access of `publish_size`. -/
def publish (size : ℕ) (inDrop : Bool) : State :=
  { s with
    dirtyBytes := s.counter h size
    holders := s.holders.set i
      { h with dirtyBytes := size, phase := .published (s.counter h size) inDrop }
    faults := if s.dirtyBytes < h.dirtyBytes - size then .underflow :: s.faults else s.faults }

/-- `publish_size` returns. -/
def finish (inDrop : Bool) (layerLimit : Option ℕ) : State :=
  { s with holders :=
      s.holders.set i { h with phase :=
        if inDrop then .dropped else .idle, layerLimit := layerLimit } }

/-- The next access of the call that the holder is in. -/
def advance (maxDirtyBytes : ℕ) : State :=
  match h.phase with
  | .idle | .dropped => s
  | .dropping => s.publish i h 0 true
  | .published g inDrop =>
    if 0 < maxDirtyBytes ∧ maxDirtyBytes < g then
      { s with holders := s.holders.set i { h with phase := .average g inDrop } }
    else s.finish i h inDrop none
  | .average g inDrop =>
    if s.dirtyLayers = 0 then
      { s.finish i h inDrop h.layerLimit with faults := .divideByZero :: s.faults }
    else s.finish i h inDrop (some (g / s.dirtyLayers))

/-- What a holder does, if there is such a holder. -/
def onHolder (f : Holder → State) : State := (s.holders[i]?).elim s f

/-- One access to the atomics. A holder makes one call at a time. -/
def step (maxDirtyBytes : ℕ) : Event → State
  | .new => { s with dirtyLayers := (s.dirtyLayers + 1) % 2 ^ 64, holders := s.holders ++ [{}] }
  | .publishSize i size => s.onHolder i fun h ↦
    if h.phase = .idle ∧ size < 2 ^ 64 then s.publish i h size false else s
  | .drop i => s.onHolder i fun h ↦
    if h.phase = .idle then
      { s with
        dirtyLayers := (s.dirtyLayers + (2 ^ 64 - 1)) % 2 ^ 64
        holders := s.holders.set i { h with phase := .dropping } }
    else s
  | .advance i => s.onHolder i fun h ↦ s.advance i h maxDirtyBytes

end State

/-- The states of all interleavings in which the published sizes do not exceed `bytes`. -/
inductive Reachable (maxDirtyBytes bytes : ℕ) : State → Prop
  | init : Reachable maxDirtyBytes bytes {}
  | step {s : State} (e : Event) : Reachable maxDirtyBytes bytes s →
      (s.step maxDirtyBytes e).total ≤ bytes →
        Reachable maxDirtyBytes bytes (s.step maxDirtyBytes e)

/-- Nothing failed, and the counter is the sum of the sizes when no call is in flight. -/
def Sound (s : State) : Prop := s.faults = [] ∧ (s.Quiet → s.dirtyBytes = s.total)

/-- The counter is the sum of the sizes at all times, and no call is on its way to a division. -/
structure Exact (bytes : ℕ) (s : State) : Prop where
  faults : s.faults = []
  dirtyBytes : s.dirtyBytes = s.total
  total_le : s.total ≤ bytes
  published_le : ∀ h ∈ s.holders, ∀ g inDrop, h.phase = .published g inDrop → g ≤ bytes
  not_average : ∀ h ∈ s.holders, ∀ g inDrop, h.phase ≠ .average g inDrop

section Exact

variable {s : State} {i m bytes : ℕ} {h : Holder}

theorem sum_map_set {α : Type} (f : α → ℕ) {l : List α} {i : ℕ} {x : α}
    (hi : l[i]? = some x) (y : α) : ((l.set i y).map f).sum + f x = (l.map f).sum + f y := by
  induction l generalizing i with
  | nil => cases hi
  | cons a l ih =>
    cases i with
    | zero =>
      cases hi
      simp only [set_cons_zero, map_cons, List.sum_cons]
      omega
    | succ i =>
      have hrest := ih hi
      simp only [set_cons_succ, map_cons, List.sum_cons]
      omega

section

variable (hs : Exact bytes s)
include hs

section

variable (hi : s.holders[i]? = some h)
include hi

theorem Exact.set {h' : Holder} {layers : ℕ} (hbytes : h'.dirtyBytes = h.dirtyBytes)
    (hp : ∀ g inDrop, h'.phase ≠ .published g inDrop)
    (ha : ∀ g inDrop, h'.phase ≠ .average g inDrop) :
    Exact bytes { s with dirtyLayers := layers, holders := s.holders.set i h' } := by
  have htotal : ((s.holders.set i h').map Holder.dirtyBytes).sum = s.total := by
    have := sum_map_set Holder.dirtyBytes hi h'
    rw [State.total]
    omega
  refine ⟨hs.faults, hs.dirtyBytes.trans htotal.symm, htotal.trans_le hs.total_le, ?_, ?_⟩
  · intro k hk g inDrop hphase
    rcases mem_or_eq_of_mem_set hk with hk | rfl
    · exact hs.published_le k hk g inDrop hphase
    · exact absurd hphase (hp g inDrop)
  · intro k hk
    rcases mem_or_eq_of_mem_set hk with hk | rfl
    · exact hs.not_average k hk
    · exact ha

theorem Exact.publish (hbytes : bytes < 2 ^ 64) {size : ℕ} {inDrop : Bool}
    (hle : (s.publish i h size inDrop).total ≤ bytes) :
    Exact bytes (s.publish i h size inDrop) := by
  have hsum : (s.publish i h size inDrop).total + h.dirtyBytes = s.total + size :=
    sum_map_set Holder.dirtyBytes hi _
  have hcounter := hs.dirtyBytes
  have hfits := hs.total_le
  have hnew : s.counter h size = (s.publish i h size inDrop).total := by
    -- neither branch wraps around, as the new sum fits
    unfold counter
    split_ifs <;> omega
  refine ⟨?_, hnew, hle, ?_, ?_⟩
  · have hno : ¬ s.dirtyBytes < h.dirtyBytes - size := by omega
    exact (if_neg hno).trans hs.faults
  · intro k hk g d hphase
    rcases mem_or_eq_of_mem_set hk with hk | rfl
    · exact hs.published_le k hk g d hphase
    · obtain ⟨rfl, -⟩ := Phase.published.inj hphase
      exact hnew.trans_le hle
  · intro k hk g d
    rcases mem_or_eq_of_mem_set hk with hk | rfl
    · exact hs.not_average k hk g d
    · exact Phase.noConfusion

theorem Exact.finish (inDrop : Bool) (limit : Option ℕ) : Exact bytes (s.finish i h inDrop limit) :=
  hs.set hi rfl (by cases inDrop <;> simp) (by cases inDrop <;> simp)

theorem Exact.advance (hbytes : bytes < 2 ^ 64) (hm : m = 0 ∨ bytes ≤ m)
    (hle : (s.advance i h m).total ≤ bytes) : Exact bytes (s.advance i h m) := by
  have hmem := mem_of_getElem? hi
  unfold State.advance at hle ⊢
  cases hphase : h.phase with
  | idle => exact hs
  | dropped => exact hs
  | dropping =>
    rw [hphase] at hle
    exact hs.publish hi hbytes hle
  | published g inDrop =>
    have hg := hs.published_le h hmem g inDrop hphase
    have hno : ¬ (0 < m ∧ m < g) := by omega
    simp only [if_neg hno]
    exact hs.finish hi inDrop none
  | average g inDrop => exact absurd hphase (hs.not_average h hmem g inDrop)

end

theorem Exact.onHolder {f : Holder → State}
    (hf : ∀ h, s.holders[i]? = some h → (f h).total ≤ bytes → Exact bytes (f h))
    (hle : (s.onHolder i f).total ≤ bytes) : Exact bytes (s.onHolder i f) := by
  unfold State.onHolder at hle ⊢
  cases hi : s.holders[i]? with
  | none => exact hs
  | some h =>
    rw [hi] at hle
    exact hf h hi hle

theorem Exact.step (hbytes : bytes < 2 ^ 64) (hm : m = 0 ∨ bytes ≤ m) (e : Event)
    (hle : (s.step m e).total ≤ bytes) : Exact bytes (s.step m e) := by
  cases e with
  | new =>
    have htotal : (s.step m .new).total = s.total := by simp [State.total, State.step]
    have hmem : ∀ k ∈ (s.step m .new).holders, k ∈ s.holders ∨ k = {} := by simp [State.step]
    refine ⟨hs.faults, hs.dirtyBytes.trans htotal.symm, hle, ?_, ?_⟩
    · intro k hk g inDrop hphase
      rcases hmem k hk with hk | rfl
      · exact hs.published_le k hk g inDrop hphase
      · cases hphase
    · intro k hk g inDrop hphase
      rcases hmem k hk with hk | rfl
      · exact hs.not_average k hk g inDrop hphase
      · cases hphase
  | publishSize i size =>
    refine hs.onHolder (fun h hi hle ↦ ?_) hle
    split_ifs at hle ⊢
    · exact hs.publish hi hbytes hle
    · exact hs
  | drop i =>
    refine hs.onHolder (fun h hi _ ↦ ?_) hle
    split_ifs
    · exact hs.set hi rfl (by simp) (by simp)
    · exact hs
  | advance i => exact hs.onHolder (fun h hi hle ↦ hs.advance hi hbytes hm hle) hle

end

open State (total step onHolder advance)

theorem Reachable.exact (hs : Reachable m bytes s) (hbytes : bytes < 2 ^ 64)
    (hm : m = 0 ∨ bytes ≤ m) :
    Exact bytes s := by
  induction hs with
  | init => exact ⟨rfl, rfl, Nat.zero_le _, by simp, by simp⟩
  | step e _ hle ih => exact ih.step hbytes hm e hle

end Exact

/-! ## Runs that fail -/

section Failing

variable {m bytes : ℕ}

theorem Reachable.to {s s' : State} (hs : Reachable m bytes s) (e : Event) (heq : s.step m e = s')
    (hle : s'.total ≤ bytes) : Reachable m bytes s' := by
  subst heq
  exact hs.step e hle

theorem reachable_pair {x : ℕ} (hx : x < 2 ^ 64) (hle : x ≤ bytes) :
    ∃ limit, Reachable m bytes ⟨x, 2, [⟨x, .idle, limit⟩, {}], []⟩ := by
  have hone : Reachable m bytes ⟨0, 1, [{}], []⟩ := Reachable.init.to .new rfl (Nat.zero_le _)
  have hnew : Reachable m bytes ⟨0, 2, [{}, {}], []⟩ := hone.to .new rfl (Nat.zero_le _)
  have hcounter : counter ⟨0, 2, [{}, {}], []⟩ {} x = x := by
    unfold counter
    split_ifs <;> dsimp only at * <;> omega
  have hpub : Reachable m bytes ⟨x, 2, [⟨x, .published x false, none⟩, {}], []⟩ := by
    refine hnew.to (.publishSize 0 x) ?_ (by simpa [total] using hle)
    simpa [step, onHolder, publish, hcounter] using hx
  by_cases hm : 0 < m ∧ m < x
  · have havg : Reachable m bytes ⟨x, 2, [⟨x, .average x false, none⟩, {}], []⟩ := by
      refine hpub.to (.advance 0) ?_ (by simpa [total] using hle)
      simp [step, onHolder, advance, hm]
    refine ⟨some (x / 2), havg.to (.advance 0) ?_ (by simpa [total] using hle)⟩
    simp [step, onHolder, advance, finish]
  · refine ⟨none, hpub.to (.advance 0) ?_ (by simpa [total] using hle)⟩
    simp [step, onHolder, advance, finish, hm]

/-- A sum of sizes that does not fit wraps around. -/
theorem exists_not_sound_of_le (h : 2 ^ 64 ≤ bytes) : ∃ s, Reachable m bytes s ∧ ¬ Sound s := by
  obtain ⟨limit, hpair⟩ := reachable_pair (x := 2 ^ 63) (by omega) (Nat.le_trans (by omega) h)
  have hpub : Reachable m bytes ⟨0, 2,
    [⟨2 ^ 63, .idle, limit⟩, ⟨2 ^ 63, .published 0 false, none⟩], []⟩ := by
    refine hpair.to (.publishSize 1 (2 ^ 63)) ?_ (by simp [total]; omega)
    simp [step, onHolder, publish, counter]
  refine ⟨⟨0, 2, [⟨2 ^ 63, .idle, limit⟩, ⟨2 ^ 63, .idle, none⟩], []⟩,
    hpub.to (.advance 1) ?_ (by simp [total]; omega), ?_⟩
  · simp [step, onHolder, advance, finish]
  · rintro ⟨-, hquiet⟩
    simp [State.Quiet, total] at hquiet

/-- Two layers give up their count before either takes back its bytes: the first to do so sees the
bytes of the other one, and no layer. -/
theorem reachable_divideByZero (hm : 0 < m) (hlt : m < bytes) (hbytes : bytes < 2 ^ 64) :
    ∃ limit, Reachable m bytes
      ⟨bytes, 0, [⟨bytes, .dropping, limit⟩, ⟨0, .dropped, none⟩], [.divideByZero]⟩ := by
  obtain ⟨limit, hpair⟩ := reachable_pair hbytes (Nat.le_refl bytes)
  have hdrop : Reachable m bytes ⟨bytes, 1, [⟨bytes, .dropping, limit⟩, {}], []⟩ := by
    refine hpair.to (.drop 0) ?_ (by simp [total])
    have hone : (2 + (2 ^ 64 - 1)) % 2 ^ 64 = 1 := by omega
    simp only [step, onHolder, getElem?_cons_zero, Option.elim_some, if_true, hone, set_cons_zero]
  have hdrop' : Reachable m bytes
    ⟨bytes, 0, [⟨bytes, .dropping, limit⟩, ⟨0, .dropping, none⟩], []⟩ := by
    refine hdrop.to (.drop 1) ?_ (by simp [total])
    have hzero : (1 + (2 ^ 64 - 1)) % 2 ^ 64 = 0 := by omega
    simp only [step, onHolder, getElem?_cons_succ, getElem?_cons_zero,
      Option.elim_some, if_true, hzero, set_cons_succ, set_cons_zero]
  have hpub : Reachable m bytes
      ⟨bytes, 0, [⟨bytes, .dropping, limit⟩, ⟨0, .published bytes true, none⟩], []⟩ := by
    refine hdrop'.to (.advance 1) ?_ (by simp [total])
    simp [step, onHolder, advance, publish, counter]
  have havg : Reachable m bytes
      ⟨bytes, 0, [⟨bytes, .dropping, limit⟩, ⟨0, .average bytes true, none⟩], []⟩ := by
    refine hpub.to (.advance 1) ?_ (by simp [total])
    simp [step, onHolder, advance, hm, hlt]
  refine ⟨limit, havg.to (.advance 1) ?_ (by simp [total])⟩
  simp [step, onHolder, advance, finish]

end Failing

/-- **The accounting is sound exactly if the published sizes fit and no limit below their sum is
configured.** -/
theorem sound_iff (maxDirtyBytes bytes : ℕ) : (∀ s, Reachable maxDirtyBytes bytes s → Sound s) ↔
      bytes < 2 ^ 64 ∧ (maxDirtyBytes = 0 ∨ bytes ≤ maxDirtyBytes) := by
  constructor
  · intro hsound
    have hbytes : bytes < 2 ^ 64 := by
      by_contra hle
      obtain ⟨s, hs, hnot⟩ := exists_not_sound_of_le (Nat.le_of_not_lt hle)
      exact hnot (hsound s hs)
    by_contra hm
    obtain ⟨limit, hs⟩ := reachable_divideByZero (m := maxDirtyBytes) (by omega) (by omega) hbytes
    cases (hsound _ hs).1
  · rintro ⟨hbytes, hm⟩ s hs
    have hexact := hs.exact hbytes hm
    exact ⟨hexact.faults, fun _ ↦ hexact.dirtyBytes⟩

/-- Two layers that are dropped at the same time, with a limit of one byte. -/
theorem exists_divideByZero : ∃ s, Reachable 1 2 s ∧ Fault.divideByZero ∈ s.faults := by
  obtain ⟨limit, hs⟩ := reachable_divideByZero Nat.one_pos (Nat.lt_succ_self 1) (by decide)
  exact ⟨_, hs, mem_singleton_self _⟩

end NeonStorage.Pageserver.GlobalResources
