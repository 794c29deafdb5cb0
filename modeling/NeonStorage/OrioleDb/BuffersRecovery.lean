import NeonStorage.OrioleDb.BuffersDisk

/-!
# Buffers survive a stateless restart, if their files have no holes

A local file that came into being after a restart has only what was written to it since. If a block
is written beyond its end, the blocks in between read as zeros, and nobody asks the pageserver for
them (`exists_read_ne_expected`). If that does not happen, all reads are right (`read_expected`).

The invariant is `OBuffers.Inv`: a block is in at most one buffer, a buffer has the values expected
of its block, and a byte that was not written out yet is in a dirty buffer. Between writing out the
old block of a buffer and loading a new one the buffer is `Disposable`.
-/

namespace NeonStorage.OrioleDb

open List

namespace OBuffers

variable (s : OBuffers)

theorem setBuffer_self (g : ℕ) (j : Fin 4) (buffer : OBuffer) :
    (s.setBuffer g j buffer).buffers (g, j) = buffer := Function.update_self ..

variable {g : ℕ} {j : Fin 4} {slot : ℕ × Fin 4}

theorem setBuffer_of_ne (buffer : OBuffer) (hne : slot ≠ (g, j)) :
    (s.setBuffer g j buffer).buffers slot = s.buffers slot := Function.update_of_ne hne ..

/-! ## The invariant -/

def Holds (slot : ℕ × Fin 4) (tag : Tag) (b : ℕ) : Prop :=
  (s.buffers slot).blockNum = some b ∧ (s.buffers slot).tag = tag

structure Inv (desc : OBuffersDesc) (s : OBuffers) : Prop where
  disk : DiskInv desc s.disk
  home : ∀ slot tag b, s.Holds slot tag b → slot.1 = b % desc.groupsCount
  unique : ∀ slot slot' tag b, s.Holds slot tag b → s.Holds slot' tag b → slot = slot'
  agrees : ∀ slot tag b, s.Holds slot tag b →
    Agrees desc s.disk.events tag b (s.buffers slot).data
  dirty : ∀ tag x v, expected desc s.disk.events tag x = some (v, false) →
    ∃ slot, s.Holds slot tag (x / blcksz) ∧ (s.buffers slot).dirty = true

/-- Every byte of the buffer was written out. -/
def Disposable (desc : OBuffersDesc) (s : OBuffers) (slot : ℕ × Fin 4) : Prop :=
  ∀ tag x v, s.Holds slot tag (x / blcksz) → expected desc s.disk.events tag x ≠ some (v, false)

section Inv

variable {desc : OBuffersDesc} {s s' : OBuffers} {slot : ℕ × Fin 4} {tag : Tag} {b : ℕ}

section

variable (h : s.Inv desc)
include h

/-- The buffers have the same blocks as before, and those that are no longer dirty were written
out. -/
theorem Inv.congr (hdisk : DiskInv desc s'.disk)
    (hbuf : ∀ slot, (s'.buffers slot).blockNum = (s.buffers slot).blockNum ∧
      (s'.buffers slot).tag = (s.buffers slot).tag ∧ (s'.buffers slot).data = (s.buffers slot).data)
    (hexp : ∀ tag x v fl, expected desc s'.disk.events tag x = some (v, fl) →
      ∃ fl', expected desc s.disk.events tag x = some (v, fl') ∧ (fl = false → fl' = false))
    (hdirty : ∀ slot, (s.buffers slot).dirty = true → (s'.buffers slot).dirty = true ∨
      s'.Disposable desc slot) : s'.Inv desc := by
  have hholds : ∀ slot tag b, s'.Holds slot tag b ↔ s.Holds slot tag b := by
    intro slot tag b
    rw [Holds, Holds, (hbuf slot).1, (hbuf slot).2.1]
  refine ⟨hdisk, ?_, ?_, ?_, ?_⟩
  · intro slot tag b hs
    exact h.home slot tag b ((hholds _ _ _).mp hs)
  · intro slot slot' tag b hs hs'
    exact h.unique slot slot' tag b ((hholds _ _ _).mp hs) ((hholds _ _ _).mp hs')
  · intro slot tag b hs x v fl hx he
    obtain ⟨fl', he', -⟩ := hexp tag x v fl he
    rw [(hbuf slot).2.2]
    exact h.agrees slot tag b ((hholds _ _ _).mp hs) x v fl' hx he'
  · intro tag x v he
    obtain ⟨fl', he', hfl⟩ := hexp tag x v false he
    rw [hfl rfl] at he'
    obtain ⟨slot, hs, hd⟩ := h.dirty tag x v he'
    refine ⟨slot, (hholds _ _ _).mpr hs, (hdirty slot hd).resolve_right ?_⟩
    exact fun hdisp ↦ hdisp tag x v ((hholds _ _ _).mpr hs) he

theorem Inv.setDisk {d : Disk} (hd : DiskInv desc d)
    (hexp : ∀ tag x e, expected desc d.events tag x = some e →
      expected desc s.disk.events tag x = some e) : Inv desc { s with disk := d } :=
  h.congr hd (fun _ ↦ ⟨rfl, rfl, rfl⟩) (fun tag x _ fl he ↦ ⟨fl, hexp tag x _ he, id⟩) fun _ ↦ .inl

theorem Inv.disposable (hclean : (s.buffers slot).dirty = false) : s.Disposable desc slot := by
  intro tag x v hs he
  obtain ⟨slot', hs', hd⟩ := h.dirty tag x v he
  rw [h.unique slot' slot tag _ hs' hs, hclean] at hd
  cases hd

theorem Inv.drop (hdisk : s'.disk = s.disk) (hbuf : ∀ slot, s'.buffers slot = s.buffers slot ∨
      ((s'.buffers slot).blockNum = none ∧ s.Disposable desc slot)) : s'.Inv desc := by
  have hholds : ∀ slot tag b, s'.Holds slot tag b →
      s'.buffers slot = s.buffers slot ∧ s.Holds slot tag b := by
    intro slot tag b hs
    rcases hbuf slot with heq | ⟨hnone, -⟩
    · refine ⟨heq, ?_⟩
      rwa [Holds, heq] at hs
    · rw [Holds, hnone] at hs
      cases hs.1
  refine ⟨hdisk ▸ h.disk, ?_, ?_, ?_, ?_⟩
  · intro slot tag b hs
    exact h.home slot tag b (hholds _ _ _ hs).2
  · intro slot slot' tag b hs hs'
    exact h.unique slot slot' tag b (hholds _ _ _ hs).2 (hholds _ _ _ hs').2
  · intro slot tag b hs
    rw [(hholds _ _ _ hs).1, hdisk]
    exact h.agrees slot tag b (hholds _ _ _ hs).2
  · intro tag x v he
    rw [hdisk] at he
    obtain ⟨slot, hs, hd⟩ := h.dirty tag x v he
    rcases hbuf slot with heq | ⟨-, hdisp⟩
    · exact ⟨slot, by rwa [Holds, heq], by rwa [heq]⟩
    · exact absurd he (hdisp tag x v hs)

theorem Inv.load (buffer : OBuffer) (hg : g = b % desc.groupsCount)
    (hempty : (s.buffers (g, j)).blockNum = none)
    (hfree : ∀ slot, ¬ s.Holds slot buffer.tag b) (hb : buffer.blockNum = some b)
    (hag : Agrees desc s.disk.events buffer.tag b buffer.data) :
    (s.setBuffer g j buffer).Inv desc := by
  have hholds : ∀ slot tag c, (s.setBuffer g j buffer).Holds slot tag c →
      (slot = (g, j) ∧ tag = buffer.tag ∧ c = b) ∨
        (slot ≠ (g, j) ∧ s.Holds slot tag c) := by
    intro slot tag c hs
    unfold Holds at hs
    by_cases hslot : slot = (g, j)
    · subst hslot
      rw [setBuffer_self, hb] at hs
      exact .inl ⟨rfl, hs.2.symm, (Option.some.inj hs.1).symm⟩
    · rw [setBuffer_of_ne s buffer hslot] at hs
      exact .inr ⟨hslot, hs⟩
  refine ⟨h.disk, ?_, ?_, ?_, ?_⟩
  · intro slot tag c hs
    rcases hholds slot tag c hs with ⟨rfl, -, rfl⟩ | ⟨-, hs⟩
    · exact hg
    · exact h.home slot tag c hs
  · intro slot slot' tag c hs hs'
    rcases hholds slot tag c hs with ⟨rfl, rfl, rfl⟩ | ⟨-, hold⟩ <;>
      rcases hholds slot' _ _ hs' with ⟨rfl, htag, hc⟩ | ⟨-, hold'⟩
    · rfl
    · exact absurd hold' (hfree slot')
    · exact absurd (htag ▸ hc ▸ hold) (hfree slot)
    · exact h.unique slot slot' tag c hold hold'
  · intro slot tag c hs
    rcases hholds slot tag c hs with ⟨rfl, rfl, rfl⟩ | ⟨hne, hs⟩
    · rw [setBuffer_self]
      exact hag
    · rw [setBuffer_of_ne s buffer hne]
      exact h.agrees slot tag c hs
  · intro tag x v he
    obtain ⟨slot, hs, hd⟩ := h.dirty tag x v he
    have hne : slot ≠ (g, j) := by
      rintro rfl
      rw [Holds, hempty] at hs
      cases hs.1
    refine ⟨slot, ?_, ?_⟩
    · rwa [Holds, setBuffer_of_ne s buffer hne]
    · rwa [setBuffer_of_ne s buffer hne]

end

/-- The disk goes on, and as long as its history is allowed the invariant is kept. -/
structure Advances (desc : OBuffersDesc) (s s' : OBuffers) : Prop where
  disk : Extends desc s.disk s'.disk
  inv : s.Inv desc → AllAllowed desc s'.disk.events → s'.Inv desc

namespace Advances

theorem refl : Advances desc s s := ⟨.refl _ _, fun h _ ↦ h⟩

theorem trans {s'' : OBuffers} (h : Advances desc s s') (h' : Advances desc s' s'') :
    Advances desc s s'' where
  disk := h.disk.trans h'.disk
  inv hs hall := h'.inv (h.inv hs (hall.of_suffix h'.disk.events)) hall

theorem foldl {α : Type} {f : OBuffers → α → OBuffers}
    (h : ∀ s a, Advances desc s (f s a)) (l : List α)
    (s : OBuffers) : Advances desc s (l.foldl f s) := by
  induction l generalizing s with
  | nil => exact .refl
  | cons a l ih => exact (h s a).trans (ih _)

theorem foldl_disk {f : Disk → ℕ → Disk} (h : ∀ s n, Advances desc s { s with disk := f s.disk n })
    (l : List ℕ) (s : OBuffers) : Advances desc s { s with disk := l.foldl f s.disk } := by
  induction l generalizing s with
  | nil => exact .refl
  | cons n l ih => exact (h s n).trans (ih _)

end Advances

end Inv

/-! ## Getting a buffer -/

section GetBuffer

variable {desc : OBuffersDesc} {s s' : OBuffers} {slot : ℕ × Fin 4} {p : ℕ}
  {checkpointIsShutdown missingOk : Bool} {tag : Tag} {b : ℕ} {r : Option (Fin 4)}

theorem Inv.writeOut (h : s.Inv desc) (hs : s.Holds slot tag b) (hdisk : s'.disk =
      s.disk.writeBufferData desc p checkpointIsShutdown tag b (s.buffers slot).data)
    (hall : AllAllowed desc s'.disk.events)
    (hbuf : ∀ slot, (s'.buffers slot).blockNum = (s.buffers slot).blockNum ∧
      (s'.buffers slot).tag = (s.buffers slot).tag ∧ (s'.buffers slot).data = (s.buffers slot).data)
    (hdirty : ∀ slot', slot' ≠ slot → (s'.buffers slot').dirty = (s.buffers slot').dirty) :
    s'.Inv desc ∧ s'.Disposable desc slot := by
  obtain ⟨-, len, m, hevents⟩ := writeBufferData_effect desc s.disk p checkpointIsShutdown
    tag b (s.buffers slot).data
  rw [← hdisk] at hevents
  have hdisp : s'.Disposable desc slot := by
    intro tag' x v hs' he
    rw [hevents] at he
    obtain ⟨fl', -, ⟨-, -, hfl⟩ | ⟨hne, -⟩⟩ := expected_flushed he
    · cases hfl
    · rw [Holds, (hbuf slot).1, (hbuf slot).2.1, hs.1, hs.2] at hs'
      exact hne ⟨hs'.2, (Option.some.inj hs'.1).symm⟩
  refine ⟨h.congr ?_ hbuf ?_ ?_, hdisp⟩
  · rw [hdisk] at hall ⊢
    exact writeBufferData_spec h.disk (h.agrees slot tag b hs) hall
  · intro tag' x v fl he
    rw [hevents] at he
    obtain ⟨fl', he', ⟨-, -, rfl⟩ | ⟨-, rfl⟩⟩ := expected_flushed he
    · exact ⟨fl', he', nofun⟩
    · exact ⟨fl', he', id⟩
  · intro slot' hd
    by_cases hslot : slot' = slot
    · exact .inr (hslot ▸ hdisp)
    · exact .inl ((hdirty slot' hslot).trans hd)

theorem halveUsage_buffers (s : OBuffers) (g : ℕ) (slot : ℕ × Fin 4) :
    ∃ usageCount, (s.halveUsage g).buffers slot = { s.buffers slot with usageCount } := by
  unfold halveUsage
  dsimp only
  split_ifs
  · exact ⟨_, rfl⟩
  · exact ⟨_, rfl⟩

theorem Inv.usage (h : s.Inv desc) (hdisk : s'.disk = s.disk)
    (hbuf : ∀ slot, ∃ usageCount, s'.buffers slot = { s.buffers slot with usageCount }) :
    s'.Inv desc := by
  refine h.congr (hdisk ▸ h.disk) ?_ ?_ ?_
  · intro slot
    obtain ⟨u, hu⟩ := hbuf slot
    rw [hu]
    exact ⟨rfl, rfl, rfl⟩
  · intro tag x v fl he
    exact ⟨fl, hdisk ▸ he, id⟩
  · intro slot hd
    obtain ⟨u, hu⟩ := hbuf slot
    rw [hu]
    exact .inl hd

theorem writeVictim_buffers (prev : OBuffer) :
    (s.writeVictim desc p checkpointIsShutdown prev).buffers = s.buffers := by
  unfold writeVictim
  split
  · split_ifs <;> rfl
  · rfl

theorem writeVictim_effect (desc : OBuffersDesc) (s : OBuffers) (p : ℕ)
    (checkpointIsShutdown : Bool)
    (prev : OBuffer) : Extends desc s.disk (s.writeVictim desc p checkpointIsShutdown prev).disk ∧
      Flushes s.disk.events (s.writeVictim desc p checkpointIsShutdown prev).disk.events := by
  unfold writeVictim
  split
  · split_ifs
    · obtain ⟨hext, len, m, hevents⟩ := writeBufferData_effect desc s.disk p checkpointIsShutdown
        prev.tag _ prev.data
      exact ⟨hext, hevents ▸ .flushed _ _ len m .refl⟩
    · exact ⟨.refl _ _, .refl⟩
  · exact ⟨.refl _ _, .refl⟩

theorem writeVictim_spec (h : s.Inv desc) {prev : OBuffer} {usageCount : ℕ}
    (hprev : s.buffers slot = { prev with usageCount })
    (hall : AllAllowed desc (s.writeVictim desc p checkpointIsShutdown prev).disk.events) :
    (s.writeVictim desc p checkpointIsShutdown prev).Inv desc ∧
      (s.writeVictim desc p checkpointIsShutdown prev).Disposable desc slot := by
  have hdata : (s.buffers slot).data = prev.data := by rw [hprev]
  unfold writeVictim at hall ⊢
  split at hall
  · next b hb =>
    split_ifs at hall ⊢ with hd
    · have hs : s.Holds slot prev.tag b := by
        rw [Holds, hprev]
        exact ⟨hb, rfl⟩
      rw [← hdata] at hall ⊢
      exact h.writeOut hs rfl hall (fun _ ↦ ⟨rfl, rfl, rfl⟩) fun _ _ ↦ rfl
    · refine ⟨h, h.disposable ?_⟩
      rw [hprev]
      exact Bool.eq_false_iff.mpr hd
  · next hb =>
    refine ⟨h, fun tag x v hs ↦ ?_⟩
    rw [Holds, hprev] at hs
    exact nomatch hb.symm.trans hs.1

theorem Inv.flushed_of_free (h : s.Inv desc) (hfree : ∀ slot, ¬ s.Holds slot tag b)
    (x : ℕ) (v : UInt8)
    (fl : Bool) (hx : x / blcksz = b) (he : expected desc s.disk.events tag x = some (v, fl)) :
    fl = true := by
  cases fl with
  | true => rfl
  | false =>
    obtain ⟨slot, hs, -⟩ := h.dirty tag x v he
    exact absurd (hx ▸ hs) (hfree slot)

theorem load_effect (hr : s.load desc p g j tag b missingOk = (r, s')) :
    SameData s.disk s'.disk ∧ (r = none → missingOk = true) := by
  unfold load at hr
  rcases hread : s.disk.readBuffer desc p tag b missingOk with ⟨o, d⟩
  obtain ⟨hsame, hnone⟩ := readBuffer_effect hread
  rw [hread] at hr
  cases o with
  | none =>
    cases hr
    exact ⟨hsame, fun _ ↦ hnone rfl⟩
  | some data =>
    cases hr
    exact ⟨hsame, nofun⟩

theorem load_spec (h : s.Inv desc) (hg : g = b % desc.groupsCount)
    (hall : AllAllowed desc s.disk.events)
    (hdisp : s.Disposable desc (g, j)) (hfree : ∀ slot, ¬ s.Holds slot tag b)
    (hr : s.load desc p g j tag b missingOk = (r, s')) :
    s'.Inv desc ∧ ∀ j', r = some j' → s'.Holds (g, j') tag b := by
  unfold load at hr
  rcases hread : s.disk.readBuffer desc p tag b missingOk with ⟨o, d⟩
  have hsame := (readBuffer_effect hread).1
  obtain ⟨hdisk, hag⟩ := readBuffer_spec h.disk hall (h.flushed_of_free hfree) hread
  have hinv := h.setDisk hdisk fun _ _ _ he ↦ hsame.events ▸ he
  -- first the old block is given up
  have hdrop : ∀ buffer : OBuffer, buffer.blockNum = none →
      (setBuffer { s with disk := d } g j buffer).Inv desc := by
    intro buffer hnone
    refine hinv.drop rfl fun slot ↦ ?_
    by_cases hslot : slot = (g, j)
    · subst hslot
      rw [setBuffer_self]
      refine .inr ⟨hnone, fun tag' x v hs he ↦ hdisp tag' x v hs (hsame.events ▸ he)⟩
    · exact .inl (setBuffer_of_ne _ _ hslot)
  rw [hread] at hr
  cases o with
  | none =>
    cases hr
    exact ⟨hdrop _ rfl, nofun⟩
  | some data =>
    cases hr
    refine ⟨?_, ?_⟩
    · have hempty := hdrop OBuffer.unused rfl
      have hload := hempty.load (j := j) ⟨some b, tag, 1, false, data⟩ hg ?_ ?_ rfl ?_
      · unfold setBuffer at hload ⊢
        rwa [Function.update_idem] at hload
      · rw [setBuffer_self]
        rfl
      · intro slot hs
        by_cases hslot : slot = (g, j)
        · subst hslot
          rw [Holds, setBuffer_self] at hs
          nomatch hs.1
        · rw [Holds, setBuffer_of_ne _ _ hslot] at hs
          exact hfree slot hs
      · show Agrees desc d.events tag b data
        rw [hsame.events]
        exact hag data rfl
    · rintro j' ⟨⟩
      rw [Holds, setBuffer_self]
      exact ⟨rfl, rfl⟩

theorem find?_eq_some (h : s.find? g tag b = some j) : s.Holds (g, j) tag b := by
  simpa [Holds] using find?_some h

theorem find?_eq_none (h : s.find? g tag b = none) (j : Fin 4) : ¬ s.Holds (g, j) tag b := by
  simpa [Holds] using List.find?_eq_none.mp h j (List.mem_finRange j)

theorem setBuffer_usage (g : ℕ) (j : Fin 4) (u : ℕ) (slot : ℕ × Fin 4) :
    ∃ usageCount, (s.setBuffer g j { s.buffers (g, j) with usageCount := u }).buffers slot =
      { s.buffers slot with usageCount } := by
  by_cases hslot : slot = (g, j)
  · subst hslot
    exact ⟨u, setBuffer_self ..⟩
  · exact ⟨_, setBuffer_of_ne s _ hslot⟩

theorem getBuffer_effect (hr : s.getBuffer desc p checkpointIsShutdown tag b missingOk = (r, s')) :
    Extends desc s.disk s'.disk ∧ Flushes s.disk.events s'.disk.events ∧
      (r = none → missingOk = true) := by
  unfold getBuffer at hr
  dsimp only at hr
  split at hr
  · cases hr
    exact ⟨.refl _ _, .refl, nofun⟩
  · obtain ⟨hsame, hnone⟩ := load_effect hr
    obtain ⟨hext, hfl⟩ := writeVictim_effect desc (s.halveUsage (b % desc.groupsCount)) p
      checkpointIsShutdown (s.buffers (b % desc.groupsCount, s.victim (b % desc.groupsCount)))
    refine ⟨hext.trans hsame.extends, ?_, hnone⟩
    rw [hsame.events]
    exact hfl

theorem getBuffer_spec (h : s.Inv desc)
    (hr : s.getBuffer desc p checkpointIsShutdown tag b missingOk = (r, s'))
    (hall : AllAllowed desc s'.disk.events) :
    s'.Inv desc ∧ ∀ j, r = some j → s'.Holds (b % desc.groupsCount, j) tag b := by
  unfold getBuffer at hr
  dsimp only at hr
  cases hfind : s.find? (b % desc.groupsCount) tag b with
  | some j =>
    rw [hfind] at hr
    cases hr
    refine ⟨h.usage rfl (setBuffer_usage _ j _), ?_⟩
    rintro j' ⟨⟩
    rw [Holds, setBuffer_self]
    exact find?_eq_some hfind
  | none =>
    rw [hfind] at hr
    set prev := s.buffers (b % desc.groupsCount, s.victim (b % desc.groupsCount))
    rw [(load_effect hr).1.events] at hall
    have hhalf : (s.halveUsage (b % desc.groupsCount)).Inv desc :=
      h.usage rfl (halveUsage_buffers s _)
    obtain ⟨u, hprev⟩ := halveUsage_buffers s (b % desc.groupsCount)
      (b % desc.groupsCount, s.victim (b % desc.groupsCount))
    obtain ⟨hinv, hdisp⟩ := writeVictim_spec hhalf hprev hall
    refine load_spec hinv rfl hall hdisp ?_ hr
    -- the block is not in its group, and therefore nowhere
    rintro ⟨g, j⟩ hs
    rw [Holds, writeVictim_buffers] at hs
    obtain ⟨u', hu'⟩ := halveUsage_buffers s (b % desc.groupsCount) (g, j)
    rw [hu'] at hs
    obtain rfl : g = b % desc.groupsCount := h.home (g, j) tag b hs
    exact find?_eq_none hfind j hs

end GetBuffer

/-! ## Reading and writing -/

section ReadWrite

variable {desc : OBuffersDesc} {s s' : OBuffers} {p : ℕ}
    {checkpointIsShutdown write missingOk : Bool}
  {tag : Tag} {b offset size : ℕ}

theorem copyRange_spec (hfirst : offset / blcksz ≤ b) (hlast : b ≤ (offset + size - 1) / blcksz) :
    b * blcksz + (copyRange offset size b).1 = max offset (b * blcksz) ∧
      b * blcksz + (copyRange offset size b).1 + (copyRange offset size b).2 =
        min (offset + size) ((b + 1) * blcksz) := by
  unfold copyRange
  dsimp only
  split_ifs
  all_goals
    simp only [blcksz] at *
    omega

theorem copyIn_self (s : OBuffers) (g : ℕ) (j : Fin 4) (tag : Tag) (b copyOffset copySize : ℕ)
    (src : ℕ → UInt8) : (s.copyIn g j tag b copyOffset copySize src).buffers (g, j) =
      { s.buffers (g, j) with
        dirty := true
        data := fun x ↦ if copyOffset ≤ x ∧ x < copyOffset + copySize then src (x - copyOffset)
          else (s.buffers (g, j)).data x } := setBuffer_self ..

theorem copyIn_of_ne (s : OBuffers) (tag : Tag) (b copyOffset copySize : ℕ) (src : ℕ → UInt8)
    (hne : slot ≠ (g, j)) :
    (s.copyIn g j tag b copyOffset copySize src).buffers slot = s.buffers slot :=
  setBuffer_of_ne _ _ hne

theorem copyIn_spec (h : s.Inv desc) {copyOffset copySize : ℕ} (src : ℕ → UInt8)
    (hs : s.Holds (g, j) tag b) (hle : copyOffset + copySize ≤ blcksz) :
    (s.copyIn g j tag b copyOffset copySize src).Inv desc := by
  have hblock : ∀ x, b * blcksz + copyOffset ≤ x → x < b * blcksz + copyOffset + copySize →
      x / blcksz = b := by
    simp only [blcksz] at *
    omega
  have hholds : ∀ slot tag' c, (s.copyIn g j tag b copyOffset copySize src).Holds slot tag' c ↔
      s.Holds slot tag' c := by
    intro slot tag' c
    by_cases hslot : slot = (g, j)
    · subst hslot
      rw [Holds, copyIn_self]
      rfl
    · rw [Holds, copyIn_of_ne s tag b copyOffset copySize src hslot]
      rfl
  refine ⟨h.disk.wrote _ _ _, ?_, ?_, ?_, ?_⟩
  · intro slot tag' c hc
    exact h.home slot tag' c ((hholds _ _ _).mp hc)
  · intro slot slot' tag' c hc hc'
    exact h.unique slot slot' tag' c ((hholds _ _ _).mp hc) ((hholds _ _ _).mp hc')
  · intro slot tag' c hc x v fl hx he
    rw [hholds] at hc
    by_cases hslot : slot = (g, j)
    · subst hslot
      obtain rfl : tag = tag' := hs.2.symm.trans hc.2
      cases hs.1.symm.trans hc.1
      have hmod : x = b * blcksz + x % blcksz := by
        rw [← hx, Nat.mul_comm, Nat.div_add_mod]
      rw [copyIn_self]
      dsimp only
      rcases expected_wrote he with ⟨-, hlo, hhi, rfl, -⟩ | ⟨hout, hold⟩
      · rw [if_pos (by omega)]
        exact congrArg src (by omega)
      · rw [if_neg fun hin ↦ hout ⟨rfl, by omega, by omega⟩]
        exact h.agrees _ _ _ hs x v fl hx hold
    · rw [copyIn_of_ne s tag b copyOffset copySize src hslot]
      rcases expected_wrote he with ⟨rfl, hlo, hhi, -, -⟩ | ⟨-, hold⟩
      · obtain rfl : b = c := (hblock x hlo hhi).symm.trans hx
        exact absurd (h.unique _ _ _ _ hc hs) hslot
      · exact h.agrees slot tag' c hc x v fl hx hold
  · intro tag' x v he
    rcases expected_wrote he with ⟨rfl, hlo, hhi, -, -⟩ | ⟨-, hold⟩
    · refine ⟨(g, j), (hholds _ _ _).mpr (hblock x hlo hhi ▸ hs), ?_⟩
      rw [copyIn_self]
    · obtain ⟨slot, hslot, hd⟩ := h.dirty tag' x v hold
      refine ⟨slot, (hholds _ _ _).mpr hslot, ?_⟩
      by_cases heq : slot = (g, j)
      · rw [heq, copyIn_self]
      · rwa [copyIn_of_ne s tag b copyOffset copySize src heq]

variable {buf out : ℕ → UInt8}

theorem rwLoop_advances {bs : List ℕ} {ptr : ℕ} {ok : Bool}
    (hbs : ∀ b ∈ bs, offset / blcksz ≤ b ∧ b ≤ (offset + size - 1) / blcksz)
    (hr : rwLoop desc p checkpointIsShutdown tag offset size write missingOk bs ptr buf s =
      (ok, out, s')) : Advances desc s s' ∧ (ok = false → missingOk = true) := by
  induction bs generalizing ptr buf s with
  | nil =>
    cases hr
    exact ⟨.refl, nofun⟩
  | cons b bs ih =>
    rw [rwLoop] at hr
    rcases hget : s.getBuffer desc p checkpointIsShutdown tag b missingOk with ⟨r, s₁⟩
    obtain ⟨hext, -, hnone⟩ := getBuffer_effect hget
    have hfirst : Advances desc s s₁ := ⟨hext, fun h hall ↦ (getBuffer_spec h hget hall).1⟩
    have hbs' : ∀ c ∈ bs, offset / blcksz ≤ c ∧ c ≤ (offset + size - 1) / blcksz :=
      fun c hc ↦ hbs c (mem_cons_of_mem b hc)
    rw [hget] at hr
    cases r with
    | none =>
      cases hr
      exact ⟨hfirst, fun _ ↦ hnone rfl⟩
    | some j =>
      dsimp only at hr
      split_ifs at hr with hw
      · obtain ⟨hrest, hok⟩ := ih hbs' hr
        have hcopy : Extends desc s₁.disk (s₁.copyIn (b % desc.groupsCount) j tag b
            (copyRange offset size b).1 (copyRange offset size b).2 fun x ↦ buf (ptr + x)).disk :=
          ⟨suffix_cons _ _, fun _ _ ↦ rfl⟩
        have hdisk := hcopy.trans hrest.disk
        refine ⟨⟨hext.trans hdisk, fun h hall ↦ hrest.inv ?_ hall⟩, hok⟩
        obtain ⟨hinv, hholds⟩ := getBuffer_spec h hget (hall.of_suffix hdisk.events)
        refine copyIn_spec hinv _ (hholds j rfl) ?_
        obtain ⟨hfirst, hlast⟩ := hbs b mem_cons_self
        obtain ⟨hlo, hhi⟩ := copyRange_spec hfirst hlast
        rw [Nat.succ_mul] at hhi
        omega
      · obtain ⟨hrest, hok⟩ := ih hbs' hr
        exact ⟨hfirst.trans hrest, hok⟩

theorem rwLoop_read {n ptr : ℕ} (h : s.Inv desc) (hfirst : offset / blcksz ≤ b)
    (hlast : b + n = (offset + size - 1) / blcksz + 1)
    (hptr : offset + ptr = min (offset + size) (max offset (b * blcksz)))
    (hr : rwLoop desc p checkpointIsShutdown tag offset size false missingOk
      (List.range' b n) ptr buf s = (true, out, s'))
    (hall : AllAllowed desc s'.disk.events) (i : ℕ) :
    (i < ptr → out i = buf i) ∧ (ptr ≤ i → i < size → ∀ v fl,
      expected desc s.disk.events tag (offset + i) = some (v, fl) → out i = v) := by
  induction n generalizing b ptr buf s with
  | zero =>
    cases hr
    refine ⟨fun _ ↦ rfl, fun hle hlt ↦ ?_⟩
    simp only [blcksz] at *
    omega
  | succ n ih =>
    rw [range'_succ, rwLoop] at hr
    rcases hget : s.getBuffer desc p checkpointIsShutdown tag b missingOk with ⟨r, s₁⟩
    rw [hget] at hr
    cases r with
    | none => cases hr
    | some j =>
      dsimp only at hr
      obtain ⟨hlo, hhi⟩ := copyRange_spec hfirst (show b ≤ (offset + size - 1) / blcksz by omega)
      have hstart : offset + ptr = b * blcksz + (copyRange offset size b).1 := by
        omega
      have hrest := (rwLoop_advances (fun c hc ↦ ?_) hr).1
      swap
      · rw [mem_range'_1] at hc
        omega
      obtain ⟨hinv, hholds⟩ := getBuffer_spec h hget (hall.of_suffix hrest.disk.events)
      obtain ⟨hbefore, hafter⟩ := ih hinv (by omega) (by omega) (by omega) hr
      refine ⟨fun hlt ↦ ?_, fun hle hlt v fl he ↦ ?_⟩
      · rw [hbefore (by omega), if_neg (by omega)]
      · obtain ⟨fl', he'⟩ := (getBuffer_effect hget).2.1.expected he
        by_cases hin : i < ptr + (copyRange offset size b).2
        · rw [hbefore hin, if_pos ⟨hle, hin⟩]
          have hdiv : (offset + i) / blcksz = b := by
            simp only [blcksz] at *
            omega
          have hmod : (copyRange offset size b).1 + (i - ptr) = (offset + i) % blcksz := by
            simp only [blcksz] at *
            omega
          rw [hmod]
          exact hinv.agrees _ _ _ (hholds j rfl) (offset + i) v fl' hdiv he'
        · exact hafter (by omega) hlt v fl' he'

theorem rw_advances {ok : Bool}
    (hr : s.rw desc p checkpointIsShutdown tag offset size write missingOk buf = (ok, out, s')) :
    Advances desc s s' ∧ (ok = false → missingOk = true) := by
  refine rwLoop_advances (fun b hb ↦ ?_) hr
  rw [mem_range'_1] at hb
  omega

theorem rw_read (h : s.Inv desc)
    (hr : s.rw desc p checkpointIsShutdown tag offset size false missingOk buf = (true, out, s'))
    (hall : AllAllowed desc s'.disk.events) {i : ℕ} (hi : i < size) {v : UInt8} {fl : Bool}
    (he : expected desc s.disk.events tag (offset + i) = some (v, fl)) : out i = v := by
  refine (rwLoop_read h le_rfl ?_ ?_ hr hall i).2 (Nat.zero_le i) hi v fl he
  · simp only [blcksz]
    omega
  · simp only [blcksz]
    omega

end ReadWrite

/-! ## Flushing, unlinking, restarting -/

section Sync

variable {desc : OBuffersDesc} {s : OBuffers} {p : ℕ} {checkpointIsShutdown : Bool} {tag : Tag}

theorem flushOne_advances (first last : ℤ) (s : OBuffers) (slot : ℕ × Fin 4) :
    Advances desc s (flushOne desc p checkpointIsShutdown tag first last s slot) := by
  unfold flushOne
  dsimp only
  split
  · next b hb =>
    split_ifs
    · refine ⟨(writeBufferData_effect desc s.disk p checkpointIsShutdown _ _ _).1, fun h hall ↦ ?_⟩
      refine (h.writeOut ⟨hb, rfl⟩ rfl hall ?_ ?_).1
      · intro slot'
        by_cases hslot : slot' = slot <;> simp [hslot]
      · intro slot' hslot
        simp [hslot]
    · exact .refl
  · exact .refl

theorem openFile_advances (s : OBuffers) (fileNumber : ℕ) :
    Advances desc s { s with disk := (s.disk.openFile p tag fileNumber true).2 } := by
  obtain ⟨hsame, -, hkeep⟩ :=
    openFile_spec desc (rfl : s.disk.openFile p tag fileNumber true = (_, _))
  refine ⟨hsame.extends, fun h _ ↦ h.setDisk (hkeep h.disk).1 fun _ _ _ he ↦ ?_⟩
  exact hsame.events ▸ he

theorem sync_advances (s : OBuffers) (fromOffset toOffset : ℕ) :
    Advances desc s (s.sync desc p checkpointIsShutdown tag fromOffset toOffset) :=
  (Advances.foldl (flushOne_advances _ _) _ s).trans (.foldl_disk openFile_advances _ _)

end Sync

section Unlink

variable {desc : OBuffersDesc} {s : OBuffers} {tag : Tag}

theorem unlinkFile_advances (s : OBuffers) (fileNumber : ℕ) :
    Advances desc s { s with disk := unlinkFile s.disk tag fileNumber } where
  disk := ⟨suffix_cons _ _, fun _ _ ↦ rfl⟩
  inv h _ := h.setDisk (h.disk.unlinkFile tag fileNumber) fun _ _ _ he ↦ (expected_unlinked he).2

theorem expected_foldl_unlinkFile {l : List ℕ} {d : Disk} {tag' : Tag} {x : ℕ} {e : UInt8 × Bool}
    (h : expected desc (l.foldl (fun d fileNumber ↦ unlinkFile d tag fileNumber) d).events tag' x =
      some e) :
    ¬ (tag = tag' ∧ x / desc.singleFileSize ∈ l) ∧ expected desc d.events tag' x = some e := by
  induction l generalizing d with
  | nil => exact ⟨fun hin ↦ not_mem_nil hin.2, h⟩
  | cons f l ih =>
    obtain ⟨hout, hold⟩ := ih h
    obtain ⟨hne, hold⟩ := expected_unlinked hold
    refine ⟨?_, hold⟩
    rintro ⟨htag, hmem⟩
    rcases mem_cons.mp hmem with hf | hmem
    · exact hne ⟨htag, hf⟩
    · exact hout ⟨htag, hmem⟩

theorem unlinkFilesRange_advances (s : OBuffers) (first last : ℕ) :
    Advances desc s (s.unlinkFilesRange desc tag first last) := by
  -- the files may as well be unlinked before the buffers are given up
  have hfiles := Advances.foldl_disk (f := fun d n ↦ unlinkFile d tag n)
    (fun s n ↦ (unlinkFile_advances s n : Advances desc s _))
      (List.range' first (last + 1 - first)) s
  refine ⟨hfiles.disk, fun h hall ↦ (hfiles.inv h hall).drop rfl fun slot ↦ ?_⟩
  unfold unlinkFilesRange wipe
  dsimp only
  split
  · next b hb =>
    split_ifs with hin
    · refine .inr ⟨rfl, fun tag' x v hs he ↦ (expected_foldl_unlinkFile he).1 ?_⟩
      obtain ⟨-, htag, hfirst, hlast⟩ := hin
      have hx : x / blcksz = b := Option.some.inj (hs.1.symm.trans hb)
      have hpos := desc.blocksPerFile_pos
      refine ⟨htag.symm.trans hs.2, ?_⟩
      rw [← fileNum_div, hx, mem_range'_1]
      have hle : first ≤ desc.fileNum b := (Nat.le_div_iff_mul_le hpos).mpr hfirst
      have hlt : desc.fileNum b < last + 1 := by
        refine (Nat.div_lt_iff_lt_mul hpos).mpr ?_
        have : 0 < (last + 1) * desc.blocksPerFile := Nat.mul_pos (Nat.succ_pos _) hpos
        omega
      omega
    · exact .inl rfl
  · exact .inl rfl

theorem restart_inv (h : s.Inv desc) : s.restart.Inv desc := by
  refine ⟨⟨nofun, nofun, nofun, ?_⟩, ?_, ?_, ?_, ?_⟩
  · intro tag x v he
    have hold := h.disk.onDisk tag x v (expected_restarted he).2
    exact ⟨hold.block_lt, hold.nblocks, hold.mirror, nofun⟩
  · exact fun _ _ _ hs ↦ nomatch hs.1
  · exact fun _ _ _ _ hs ↦ nomatch hs.1
  · exact fun _ _ _ hs ↦ nomatch hs.1
  · exact fun _ _ _ he ↦ nomatch (expected_restarted he).1

theorem init_inv (desc : OBuffersDesc) (mirror : ℕ → MirrorRel) : (init mirror).Inv desc := by
  refine ⟨⟨nofun, nofun, nofun, nofun⟩, ?_, ?_, ?_, nofun⟩
  · exact fun _ _ _ hs ↦ nomatch hs.1
  · exact fun _ _ _ _ hs ↦ nomatch hs.1
  · exact fun _ _ _ hs ↦ nomatch hs.1

end Unlink

end OBuffers

/-! ## Several logs at one pageserver -/

/-- The logs of a compute. The pages of all of them are at the same pageserver. -/
abbrev Logs := LogId → OBuffers

namespace Logs

/-- One log goes on; the others see what it sent to the pageserver. -/
def set (w : Logs) (id : LogId) (s : OBuffers) : Logs := fun i ↦
  if i = id then s else { w i with disk := { (w i).disk with mirror := s.disk.mirror } }

/-- What may happen to the logs. A process `p` reads, writes, syncs or unlinks, and writes out
buffers of other processes on the way; the compute is restarted without its local files. -/
inductive Step (descs : LogId → OBuffersDesc) (w : Logs) : Logs → Prop where
  | rw (id : LogId) (p : ℕ) (checkpointIsShutdown : Bool) (tag : Tag) (offset size : ℕ)
      (write missingOk : Bool) (buf : ℕ → UInt8) :
      Step descs w (w.set id
        ((w id).rw (descs id) p checkpointIsShutdown tag offset size write missingOk buf).2.2)
  | sync (id : LogId) (p : ℕ) (checkpointIsShutdown : Bool) (tag : Tag) (fromOffset toOffset : ℕ) :
      Step descs w (w.set id
        ((w id).sync (descs id) p checkpointIsShutdown tag fromOffset toOffset))
  | unlink (id : LogId) (tag : Tag) (firstFileNumber lastFileNumber : ℕ) :
      Step descs w (w.set id
        ((w id).unlinkFilesRange (descs id) tag firstFileNumber lastFileNumber))
  | restart : Step descs w fun id ↦ (w id).restart

def Reachable (descs : LogId → OBuffersDesc) (w : Logs) : Prop :=
  ∃ mirror, Relation.ReflTransGen (Step descs) (fun _ ↦ .init mirror) w

/-- The logs whose history is allowed are in order. -/
structure Inv (descs : LogId → OBuffersDesc) (w : Logs) : Prop where
  shared : ∀ i j, (w i).disk.mirror = (w j).disk.mirror
  log : ∀ id, AllAllowed (descs id) (w id).disk.events → (w id).Inv (descs id)

variable {descs : LogId → OBuffersDesc} {w w' : Logs}

theorem set_self (w : Logs) (id : LogId) (s : OBuffers) : w.set id s id = s := if_pos rfl

theorem set_of_ne (w : Logs) {i id : LogId} (s : OBuffers) (hne : i ≠ id) :
    w.set id s i = { w i with disk := { (w i).disk with mirror := s.disk.mirror } } := if_neg hne

theorem relnode_ne (hid : ∀ id, (descs id).planBLogId = id) {i id : LogId} (hne : i ≠ id)
    (tag tag' : Tag) : (descs i).relnode tag ≠ (descs id).relnode tag' := by
  intro heq
  unfold OBuffersDesc.relnode at heq
  rw [hid, hid] at heq
  exact hne (Subtype.ext (by omega))

/-- The log does not care for the relations of other logs. -/
theorem inv_of_mirror {desc : OBuffersDesc} {s : OBuffers} {mirror : ℕ → MirrorRel} (h : s.Inv desc)
    (hmirror : ∀ tag, mirror (desc.relnode tag) = s.disk.mirror (desc.relnode tag)) :
    OBuffers.Inv desc { s with disk := { s.disk with mirror } } := by
  refine h.setDisk ⟨h.disk.dir_lt, h.disk.dir_inj, ?_, ?_⟩ fun _ _ _ he ↦ he
  · intro q c hc
    have hopened := h.disk.cur q c hc
    exact ⟨hopened.lt, hopened.dir, hopened.name⟩
  · intro tag x v he
    have hold := h.disk.onDisk tag x v he
    refine ⟨hold.block_lt, ?_, ?_, hold.file⟩
    · dsimp only
      rw [hmirror]
      exact hold.nblocks
    · dsimp only
      rw [hmirror]
      exact hold.mirror

section

variable (hid : ∀ id, (descs id).planBLogId = id)
include hid

theorem Inv.set (h : Inv descs w) (id : LogId) {s : OBuffers}
    (hs : OBuffers.Advances (descs id) (w id) s) : Inv descs (w.set id s) := by
  have hmirror : ∀ i, (w.set id s i).disk.mirror = s.disk.mirror := by
    intro i
    by_cases hi : i = id
    · rw [hi, set_self]
    · rw [set_of_ne w s hi]
  refine ⟨fun i j ↦ (hmirror i).trans (hmirror j).symm, fun i hall ↦ ?_⟩
  by_cases hi : i = id
  · subst hi
    rw [set_self] at hall ⊢
    exact hs.inv (h.log i (hall.of_suffix hs.disk.events)) hall
  · rw [set_of_ne w s hi] at hall ⊢
    refine inv_of_mirror (h.log i hall) fun tag ↦ ?_
    rw [h.shared i id]
    exact hs.disk.mirror _ fun tag' ↦ relnode_ne hid hi tag tag'

theorem Inv.step (h : Inv descs w) (hs : Step descs w w') : Inv descs w' := by
  cases hs with
  | rw id p sd tag offset size write missingOk buf =>
    exact h.set hid id (OBuffers.rw_advances rfl).1
  | sync id p sd tag fromOffset toOffset => exact h.set hid id (OBuffers.sync_advances _ _ _)
  | unlink id tag first last => exact h.set hid id (OBuffers.unlinkFilesRange_advances _ _ _)
  | restart => exact ⟨h.shared, fun id hall ↦ OBuffers.restart_inv (h.log id hall.2)⟩

theorem Reachable.inv (hw : Reachable descs w) : Inv descs w := by
  obtain ⟨mirror, hrun⟩ := hw
  induction hrun with
  | refl => exact ⟨fun _ _ ↦ rfl, fun id _ ↦ OBuffers.init_inv (descs id) mirror⟩
  | tail _ hs ih => exact ih.step hid hs

end

/-- After every run that was `Allowed` for the log, `o_buffers_read` returns the expected values. -/
theorem read_expected (hid : ∀ id, (descs id).planBLogId = id) (hw : Reachable descs w) (id : LogId)
    {p : ℕ} {checkpointIsShutdown : Bool} {tag : Tag} {offset size : ℕ}
      {buf out : ℕ → UInt8} {ok : Bool} {s : OBuffers}
    (hr : (w id).rw (descs id) p checkpointIsShutdown tag offset size false false
      buf = (ok, out, s))
    (hall : AllAllowed (descs id) s.disk.events) : ok = true ∧ ∀ i < size, ∀ v flushed,
      expected (descs id) (w id).disk.events tag (offset + i) = some (v, flushed) → out i = v := by
  obtain ⟨hrw, hok⟩ := OBuffers.rw_advances hr
  obtain rfl : ok = true := by
    cases ok with
    | true => rfl
    | false => nomatch hok rfl
  have hinv := (hw.inv hid).log id (hall.of_suffix hrw.disk.events)
  exact ⟨rfl, fun i hi v fl he ↦ OBuffers.rw_read hinv hr hall hi he⟩

/-! ## Two runs -/

/-- Two blocks a file, and one group of buffers. -/
def sampleDescs (id : LogId) : OBuffersDesc := ⟨2, 4, id, by decide, by decide⟩

def sampleId : LogId := ⟨1, by decide⟩

theorem sampleTag_lt : 0 < 4 := by decide

def sampleWrite (w : Logs) (offset : ℕ) (v : UInt8) : Logs :=
  w.set sampleId
    ((w sampleId).rw (sampleDescs sampleId) 0 false ⟨0, sampleTag_lt⟩ offset 1 true false fun _ ↦
      v).2.2

def sampleSync (w : Logs) (fromOffset toOffset : ℕ) : Logs :=
  w.set sampleId
    ((w sampleId).sync (sampleDescs sampleId) 0 false ⟨0, sampleTag_lt⟩ fromOffset toOffset)

/-- Two blocks are written and synced, and the compute is restarted. -/
def sampleRestarted : Logs := fun id ↦
  (sampleSync (sampleWrite (sampleWrite (fun _ ↦ .init fun _ ↦ ⟨0, fun _ _ ↦ 0⟩) 0 7) 8192 8) 0
    16384
    id).restart

theorem reachable_sampleRestarted : Reachable sampleDescs sampleRestarted := by
  refine ⟨fun _ ↦ ⟨0, fun _ _ ↦ 0⟩, ?_⟩
  refine .head (.rw sampleId 0 false 0 0 1 true false fun _ ↦ 7) ?_
  refine .head (.rw sampleId 0 false 0 8192 1 true false fun _ ↦ 8) ?_
  refine .head (.sync sampleId 0 false 0 0 16384) ?_
  exact .single .restart

theorem read_expected_sample :
    ((sampleRestarted sampleId).rw (sampleDescs sampleId) 0 false 0 0 1 false false fun _ ↦ 0).1 =
      true ∧
      ((sampleRestarted sampleId).rw (sampleDescs sampleId) 0 false 0 0 1 false false
        fun _ ↦ 0).2.1 0 = 7 := by
  have hall : AllAllowed (sampleDescs sampleId)
    ((sampleRestarted sampleId).rw (sampleDescs sampleId) 0
      false 0 0 1 false false fun _ ↦ 0).2.2.disk.events := by
    refine ⟨trivial, ?_, ?_, ?_, ?_, trivial⟩
    · exact ⟨by decide, rfl, by decide⟩
    · exact ⟨by decide, rfl, by decide⟩
    · exact fun _ _ _ ↦ rfl
    · exact fun _ _ _ ↦ rfl
  obtain ⟨hok, hread⟩ := read_expected (fun _ ↦ rfl) reachable_sampleRestarted sampleId rfl hall
  exact ⟨hok, hread 0 (by decide) 7 true (by decide)⟩

/-- The second block is written again, to a new file, and what is before it in the file is a
hole. -/
theorem exists_read_ne_expected :
    ∃ descs w, (∀ id, (descs id).planBLogId = id) ∧ Reachable descs w ∧
      ∃ id p tag offset v, expected (descs id) (w id).disk.events tag offset = some (v, true) ∧
        ((w id).rw (descs id) p false tag offset 1 false false fun _ ↦ 0).2.1 0 ≠ v := by
  refine ⟨sampleDescs, sampleSync (sampleWrite sampleRestarted 8192 9) 8192 16384, fun _ ↦ rfl, ?_,
    sampleId, 0, 0, 0, 7, by decide, by decide⟩
  obtain ⟨mirror, hrun⟩ := reachable_sampleRestarted
  exact ⟨mirror, (hrun.tail (.rw sampleId 0 false 0 8192 1 true false fun _ ↦ 9)).tail
    (.sync sampleId 0 false 0 8192 16384)⟩

end Logs

end NeonStorage.OrioleDb
