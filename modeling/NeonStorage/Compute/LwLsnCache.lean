import Mathlib.Order.MinMax
import Mathlib.Algebra.Group.Nat.Defs
import Mathlib.Order.Nat

/-!
# The cache of last-written LSNs

The compute asks the pageserver for a block at an LSN that no write of the block is beyond. It
keeps the LSN of the last write for the blocks used most recently, and one maximum for all the
others; an entry that is evicted is folded into the maximum.

Both functions that look LSNs up release the lock when they miss, take it again, and insert what
they will return. A block can be written and evicted in between, and then an entry below its last
write goes into the cache and answers the lookups after that. The state carries, beside the
cache, the LSNs that were set for each block and whether the cache ever fell below one of them.
-/

namespace NeonStorage.Compute

open List Function

variable {ρ : Type}

/-- `LwLsnCacheCtl` with the hash table. A block is a relation fork and a block number. -/
structure LwLsnCache (ρ : Type) where
  lastWrittenLsnCacheSize : ℕ
  lastWrittenLsnCache : ρ × ℕ → Option ℕ
  /-- The blocks with an entry, the least recently used one first. -/
  lastWrittenLsnLRU : List (ρ × ℕ)
  maxLastWrittenLsn : ℕ
  /-- Not in the program: the largest LSN that the block was set to. -/
  written : ρ × ℕ → ℕ
  /-- Not in the program: a block without an entry got one below an LSN that it was set to, or the
  maximum was lowered. -/
  lowered : Bool

namespace LwLsnCache

variable [DecidableEq ρ] (c : LwLsnCache ρ)

def evict : LwLsnCache ρ :=
  match c.lastWrittenLsnLRU with
  | [] => c
  | victim :: rest =>
    { c with
      maxLastWrittenLsn := max c.maxLastWrittenLsn ((c.lastWrittenLsnCache victim).getD 0)
      lastWrittenLsnCache := update c.lastWrittenLsnCache victim none
      lastWrittenLsnLRU := rest }

/-- The body of the two loops that write entries, and the LSN that it goes on with. The block
is set to `x`, or to `0` where a lookup writes the entry. -/
def enter (x : ℕ) (key : ρ × ℕ) (lsn : ℕ) : LwLsnCache ρ × ℕ :=
  let written := update c.written key (max (c.written key) x)
  match c.lastWrittenLsnCache key with
  | some old =>
    let lsn := max lsn old
    ({ c with
        lastWrittenLsnCache := update c.lastWrittenLsnCache key (some lsn)
        lastWrittenLsnLRU := c.lastWrittenLsnLRU.erase key ++ [key]
        written }, lsn)
  | none =>
    let lowered := c.lowered || lsn < c.written key
    let c := if c.lastWrittenLsnCacheSize < c.lastWrittenLsnLRU.length + 1 then c.evict else c
    ({ c with
        lastWrittenLsnCache := update c.lastWrittenLsnCache key (some lsn)
        lastWrittenLsnLRU := c.lastWrittenLsnLRU ++ [key]
        written
        lowered }, lsn)

/-- The blocks of a range; block numbers wrap around. -/
def blocks (rel : ρ) (start n : ℕ) : List (ρ × ℕ) :=
  (range n).map fun i ↦ (rel, (start + i) % 2 ^ 32)

/-- `SetLastWrittenLSNForBlockRangeInternal`; without a relation, the set is one of the whole
database. -/
def setBlockRangeInternal (x lsn : ℕ) (rel : Option ρ) (start n : ℕ) : LwLsnCache ρ × ℕ :=
  match rel with
  | none =>
    let lsn := max lsn c.maxLastWrittenLsn
    ({ c with maxLastWrittenLsn := lsn }, lsn)
  | some rel => (blocks rel start n).foldl (fun r key ↦ r.1.enter x key r.2) (c, lsn)

/-- `neon_set_lwlsn_block_range`. -/
def setBlockRange (lsn : ℕ) (rel : Option ρ) (start n : ℕ) : LwLsnCache ρ × ℕ :=
  if lsn = 0 ∨ n = 0 ∨ c.lastWrittenLsnCacheSize = 0 then (c, lsn)
  else c.setBlockRangeInternal lsn lsn rel start n

/-- `neon_set_lwlsn_block_v`. -/
def setBlockV (lsns : List ℕ) (rel : Option ρ) (blockno : ℕ) : LwLsnCache ρ × ℕ :=
  match rel with
  | none => (c, 0)
  | some rel =>
    if c.lastWrittenLsnCacheSize = 0 then (c, 0)
    else
      ((blocks rel blockno lsns.length).zip lsns).foldl (fun r (key, lsn) ↦
        if lsn = 0 then r
        else
          let e := r.1.enter lsn key lsn
          (e.1, max r.2 e.2)) (c, 0)

/-- `neon_set_max_lwlsn`. -/
def setMax (lsn : ℕ) : LwLsnCache ρ :=
  { c with maxLastWrittenLsn := lsn, lowered := c.lowered || lsn < c.maxLastWrittenLsn }

/-- The maximum over all blocks, that the lookups return without a relation. -/
def maxOfAll : ℕ :=
  c.lastWrittenLsnLRU.foldl (fun lsn key ↦ max lsn ((c.lastWrittenLsnCache key).getD 0))
    c.maxLastWrittenLsn

end LwLsnCache

/-- A lookup that has missed and waits for the exclusive lock, with the LSNs that the blocks had
been set to when it began. -/
inductive LwLsnGet (ρ : Type)
  /-- `neon_get_lwlsn` with the maximum that it has read. -/
  | block (key : ρ × ℕ) (lsn needed : ℕ)
  /-- `neon_get_lwlsn_v`: each block, the LSN found for it or `0`, and the LSN needed. -/
  | blocks (items : List ((ρ × ℕ) × ℕ × ℕ))

/-- The shared cache, the lookups between their two critical sections, and for each block looked
up the LSN that it had been set to at the start and the LSN returned. -/
structure LwLsnSystem (ρ : Type) where
  cache : LwLsnCache ρ
  gets : List (LwLsnGet ρ)
  answers : List (ℕ × ℕ)

inductive LwLsnStep (ρ : Type)
  | setBlockRange (lsn : ℕ) (rel : Option ρ) (start n : ℕ)
  | setBlockV (lsns : List ℕ) (rel : Option ρ) (blockno : ℕ)
  | setMax (lsn : ℕ)
  | get (rel : Option ρ) (blkno : ℕ)
  | getV (rel : Option ρ) (blkno nblocks : ℕ)
  /-- The `i`-th waiting lookup gets the exclusive lock. -/
  | resume (i : ℕ)

namespace LwLsnSystem

variable [DecidableEq ρ]

/-- The second critical section of a lookup: the cache, and the answers. -/
def resume (c : LwLsnCache ρ) : LwLsnGet ρ → LwLsnCache ρ × List (ℕ × ℕ)
  | .block key lsn needed =>
    let r := c.setBlockRangeInternal 0 lsn (some key.1) key.2 1
    (r.1, [(needed, r.2)])
  | .blocks items =>
    let lsn := c.maxLastWrittenLsn
    (items.foldl (fun c item ↦
        if item.2.1 = 0 then (c.setBlockRangeInternal 0 lsn (some item.1.1) item.1.2 1).1 else c) c,
      items.map fun item ↦ (item.2.2, if item.2.1 = 0 then lsn else item.2.1))

def step (s : LwLsnSystem ρ) : LwLsnStep ρ → LwLsnSystem ρ
  | .setBlockRange lsn rel start n => { s with cache := (s.cache.setBlockRange lsn rel start n).1 }
  | .setBlockV lsns rel blockno => { s with cache := (s.cache.setBlockV lsns rel blockno).1 }
  | .setMax lsn => { s with cache := s.cache.setMax lsn }
  | .get none _ => { s with answers := s.answers ++ [(0, s.cache.maxOfAll)] }
  | .get (some rel) blkno =>
    let key := (rel, blkno)
    match s.cache.lastWrittenLsnCache key with
    | some lsn => { s with answers := s.answers ++ [(s.cache.written key, lsn)] }
    | none =>
      { s with gets := s.gets ++ [.block key s.cache.maxLastWrittenLsn (s.cache.written key)] }
  | .getV none _ nblocks =>
    { s with answers := s.answers ++ replicate nblocks (0, s.cache.maxOfAll) }
  | .getV (some rel) blkno nblocks =>
    let keys := LwLsnCache.blocks rel blkno nblocks
    let items := keys.map fun key ↦
      (key, (s.cache.lastWrittenLsnCache key).getD 0, s.cache.written key)
    if keys.any fun key ↦ (s.cache.lastWrittenLsnCache key).isNone then
      { s with gets := s.gets ++ [.blocks items] }
    else { s with answers := s.answers ++ items.map fun item ↦ (item.2.2, item.2.1) }
  | .resume i =>
    match s.gets[i]? with
    | none => s
    | some g =>
      let r := resume s.cache g
      { cache := r.1, gets := s.gets.eraseIdx i, answers := s.answers ++ r.2 }

/-- The state after startup: an empty cache and the redo pointer as the maximum. -/
def init (size redo : ℕ) : LwLsnSystem ρ where
  cache := ⟨size, fun _ ↦ none, [], redo, fun _ ↦ 0, false⟩
  gets := []
  answers := []

end LwLsnSystem

/-! ### The bound for one block -/

namespace LwLsnCache

variable (c : LwLsnCache ρ) {c' c'' : LwLsnCache ρ} {x lsn : ℕ}

/-- The LSN that the cache answers for a block. -/
def bound (b : ρ × ℕ) : ℕ := (c.lastWrittenLsnCache b).getD c.maxLastWrittenLsn

/-- The answers are not below the LSNs that the blocks were set to. -/
def Sound : Prop := ∀ b, c.written b ≤ c.bound b

/-- What a critical section does to the cache, unless it lowers a bound. -/
def Keeps (c c' : LwLsnCache ρ) : Prop :=
  c'.lowered = false →
    c.lowered = false ∧ c.maxLastWrittenLsn ≤ c'.maxLastWrittenLsn ∧ (c.Sound → c'.Sound)

theorem Keeps.refl : Keeps c c := fun h ↦ ⟨h, le_rfl, id⟩

variable {c}

theorem Keeps.trans (h : Keeps c c') (h' : Keeps c' c'') : Keeps c c'' := by
  intro hlow
  obtain ⟨hlow, hmax', hsound'⟩ := h' hlow
  obtain ⟨hlow, hmax, hsound⟩ := h hlow
  exact ⟨hlow, hmax.trans hmax', hsound' ∘ hsound⟩

theorem keeps_foldl {α β : Type} {f : LwLsnCache ρ × β → α → LwLsnCache ρ × β}
    (hf : ∀ r a, Keeps r.1 (f r a).1) (as : List α) (r : LwLsnCache ρ × β) :
    Keeps r.1 (as.foldl f r).1 := by
  induction as generalizing r with
  | nil => exact .refl r.1
  | cons a as ih => exact (hf r a).trans (ih (f r a))

theorem Sound.raise {m : ℕ} (h : c.Sound) (hm : c.maxLastWrittenLsn ≤ m) (b : ρ × ℕ) :
    c.written b ≤ (c.lastWrittenLsnCache b).getD m := by
  refine (h b).trans ?_
  unfold bound
  cases c.lastWrittenLsnCache b
  · exact hm
  · exact le_rfl

variable (c)

theorem keeps_setMax (lsn : ℕ) : Keeps c (c.setMax lsn) := by
  intro hlow
  simp only [setMax, Bool.or_eq_false_iff, decide_eq_false_iff_not, not_lt] at hlow
  exact ⟨hlow.1, hlow.2, fun hs ↦ hs.raise hlow.2⟩

variable [DecidableEq ρ]

theorem evict_spec : c.evict.written = c.written ∧ c.maxLastWrittenLsn ≤ c.evict.maxLastWrittenLsn ∧
      (c.Sound → c.evict.Sound) := by
  unfold evict
  split
  · exact ⟨rfl, le_rfl, id⟩
  · next victim rest _ =>
    refine ⟨rfl, le_max_left _ _, fun hs b ↦ (hs b).trans ?_⟩
    by_cases hb : b = victim
    · subst hb
      cases h : c.lastWrittenLsnCache b <;> simp [bound, h]
    · cases h : c.lastWrittenLsnCache b <;> simp [bound, hb, h]

variable {c} in
theorem Sound.update (h : c.Sound) {key : ρ × ℕ} (hlsn : max (c.written key) x ≤ lsn)
    (lru : List (ρ × ℕ)) (low : Bool) : Sound { c with
      lastWrittenLsnCache := update c.lastWrittenLsnCache key (some lsn)
      lastWrittenLsnLRU := lru
      written := update c.written key (max (c.written key) x)
      lowered := low } := by
  intro b
  by_cases hb : b = key
  · subst hb
    simpa [bound] using hlsn
  · simpa [bound, hb] using h b

theorem enter_spec (key : ρ × ℕ) (hx : x ≤ lsn) :
    lsn ≤ (c.enter x key lsn).2 ∧ Keeps c (c.enter x key lsn).1 := by
  unfold enter
  cases hkey : c.lastWrittenLsnCache key with
  | some old =>
    refine ⟨le_max_left _ _, fun hlow ↦ ⟨hlow, le_rfl, fun hs ↦ hs.update ?_ _ _⟩⟩
    have hold := hs key
    simp only [bound, hkey, Option.getD] at hold
    exact max_le (hold.trans (le_max_right _ _)) (hx.trans (le_max_left _ _))
  | none =>
    refine ⟨le_rfl, fun hlow ↦ ?_⟩
    simp only [Bool.or_eq_false_iff, decide_eq_false_iff_not, not_lt] at hlow ⊢
    obtain ⟨hwritten, hmax, hsound⟩ := c.evict_spec
    split_ifs
    · rw [← hwritten] at hlow ⊢
      exact ⟨hlow.1, hmax, fun hs ↦ (hsound hs).update (max_le hlow.2 hx) _ _⟩
    · exact ⟨hlow.1, le_rfl, fun hs ↦ hs.update (max_le hlow.2 hx) _ _⟩

theorem setBlockRangeInternal_spec (hx : x ≤ lsn) (rel : Option ρ) (start n : ℕ) :
    lsn ≤ (c.setBlockRangeInternal x lsn rel start n).2 ∧
      Keeps c (c.setBlockRangeInternal x lsn rel start n).1 := by
  cases rel with
  | none =>
    exact ⟨le_max_left _ _, fun hlow ↦
      ⟨hlow, le_max_right _ _, fun hs ↦ hs.raise (le_max_right _ _)⟩⟩
  | some rel =>
    simp only [setBlockRangeInternal]
    induction blocks rel start n generalizing c lsn with
    | nil => exact ⟨le_rfl, .refl c⟩
    | cons key keys ih =>
      obtain ⟨hle, hkeeps⟩ := c.enter_spec key hx
      obtain ⟨hle', hkeeps'⟩ := ih (c.enter x key lsn).1 (hx.trans hle)
      exact ⟨hle.trans hle', hkeeps.trans hkeeps'⟩

theorem keeps_setBlockRange (lsn : ℕ) (rel : Option ρ) (start n : ℕ) :
    Keeps c (c.setBlockRange lsn rel start n).1 := by
  unfold setBlockRange
  split_ifs
  · exact .refl c
  · exact (c.setBlockRangeInternal_spec le_rfl rel start n).2

theorem keeps_setBlockV (lsns : List ℕ) (rel : Option ρ) (blockno : ℕ) :
    Keeps c (c.setBlockV lsns rel blockno).1 := by
  unfold setBlockV
  cases rel with
  | none => exact .refl c
  | some rel =>
    dsimp only
    split_ifs
    · exact .refl c
    · refine keeps_foldl (fun r pair ↦ ?_) _ (c, 0)
      split_ifs
      · exact .refl r.1
      · exact (r.1.enter_spec pair.1 le_rfl).2

end LwLsnCache

/-! ### Runs -/

/-- A waiting lookup can still answer what is needed. -/
def LwLsnGet.Ok (maxLsn : ℕ) : LwLsnGet ρ → Prop
  | .block _ lsn needed => needed ≤ lsn
  | .blocks items => ∀ item ∈ items, item.2.2 ≤ if item.2.1 = 0 then maxLsn else item.2.1

variable {get : LwLsnGet ρ}

theorem LwLsnGet.Ok.mono {m n : ℕ} (h : get.Ok m) (hmn : m ≤ n) :
    get.Ok n := by
  cases get with
  | block => exact h
  | blocks items =>
    refine fun item hitem ↦ (h item hitem).trans ?_
    split_ifs
    · exact hmn
    · exact le_rfl

namespace LwLsnSystem

open LwLsnCache

variable {s : LwLsnSystem ρ}

structure Inv (s : LwLsnSystem ρ) : Prop where
  sound : s.cache.Sound
  gets : ∀ get ∈ s.gets, get.Ok s.cache.maxLastWrittenLsn
  answers : ∀ answer ∈ s.answers, answer.1 ≤ answer.2

theorem Inv.cache {c : LwLsnCache ρ} (h : Keeps s.cache c) (hlow : c.lowered = false)
    (hs : s.Inv) : Inv { s with cache := c } :=
  have ⟨_, hmax, hsound⟩ := h hlow
  ⟨hsound hs.sound, fun get hget ↦ (hs.gets get hget).mono hmax, hs.answers⟩

theorem Inv.answer {answers : List (ℕ × ℕ)} (hs : s.Inv) (h : ∀ a ∈ answers, a.1 ≤ a.2) :
    Inv { s with answers := s.answers ++ answers } :=
  ⟨hs.sound, hs.gets, forall_mem_append.mpr ⟨hs.answers, h⟩⟩

theorem Inv.wait (hs : s.Inv) (h : get.Ok s.cache.maxLastWrittenLsn) :
    Inv { s with gets := s.gets ++ [get] } :=
  ⟨hs.sound, forall_mem_append.mpr ⟨hs.gets, forall_mem_singleton.mpr h⟩, hs.answers⟩

variable [DecidableEq ρ]

theorem resume_spec (c : LwLsnCache ρ) (get : LwLsnGet ρ) :
    Keeps c (resume c get).1 ∧ (get.Ok c.maxLastWrittenLsn → ∀ a ∈ (resume c get).2,
      a.1 ≤ a.2) := by
  cases get with
  | block key lsn needed =>
    obtain ⟨hle, hkeeps⟩ := c.setBlockRangeInternal_spec lsn.zero_le (some key.1) key.2 1
    exact ⟨hkeeps, fun h ↦ forall_mem_singleton.mpr (h.trans hle)⟩
  | blocks items =>
    refine ⟨?_, fun h ↦ forall_mem_map.mpr h⟩
    simp only [resume]
    generalize c.maxLastWrittenLsn = lsn
    induction items generalizing c with
    | nil => exact .refl c
    | cons item items ih =>
      rw [foldl_cons]
      split_ifs
      · exact (c.setBlockRangeInternal_spec lsn.zero_le _ _ 1).2.trans (ih _)
      · exact ih c

theorem step_spec (s : LwLsnSystem ρ) (a : LwLsnStep ρ) (hlow : (s.step a).cache.lowered = false) :
    s.cache.lowered = false ∧ (s.Inv → (s.step a).Inv) := by
  have hbound (hs : s.Inv) (b : ρ × ℕ) := hs.sound b
  simp only [bound] at hbound
  cases a with
  | setBlockRange lsn rel start n =>
    have h := keeps_setBlockRange s.cache lsn rel start n
    exact ⟨(h hlow).1, .cache h hlow⟩
  | setBlockV lsns rel blockno =>
    have h := keeps_setBlockV s.cache lsns rel blockno
    exact ⟨(h hlow).1, .cache h hlow⟩
  | setMax lsn =>
    have h := keeps_setMax s.cache lsn
    exact ⟨(h hlow).1, .cache h hlow⟩
  | get rel blkno =>
    cases rel with
    | none => exact ⟨hlow, fun hs ↦ hs.answer (by simp)⟩
    | some rel =>
      simp only [step] at hlow ⊢
      split at hlow <;> rename_i hentry <;> refine ⟨hlow, fun hs ↦ ?_⟩
      · exact hs.answer (by simpa [hentry] using hbound hs (rel, blkno))
      · exact hs.wait (by simpa [hentry, LwLsnGet.Ok] using hbound hs (rel, blkno))
  | getV rel blkno nblocks =>
    cases rel with
    | none => exact ⟨hlow, fun hs ↦ hs.answer (by simp)⟩
    | some rel =>
      simp only [step] at hlow ⊢
      split_ifs at hlow ⊢ with hmissed <;> refine ⟨hlow, fun hs ↦ ?_⟩
      · refine hs.wait (forall_mem_map.mpr fun key _ ↦ ?_)
        have := hbound hs key
        cases h : s.cache.lastWrittenLsnCache key <;> simp only [h, Option.getD] at this ⊢
        · exact this
        · split_ifs <;> omega
      · refine hs.answer ?_
        simp only [any_eq_true, not_exists, not_and, map_map, forall_mem_map]
          at hmissed ⊢
        intro key hkey
        have := hbound hs key
        have hentry := hmissed key hkey
        cases h : s.cache.lastWrittenLsnCache key <;> simp_all
  | resume i =>
    simp only [step] at hlow ⊢
    split at hlow
    · exact ⟨hlow, id⟩
    · next get hget =>
      obtain ⟨h, hanswers⟩ := resume_spec s.cache get
      refine ⟨(h hlow).1, fun hs ↦ ?_⟩
      have hs' := (hs.cache h hlow).answer (hanswers (hs.gets get (mem_of_getElem? hget)))
      exact ⟨hs'.sound, fun g hg ↦ hs'.gets g (mem_of_mem_eraseIdx hg), hs'.answers⟩

theorem run_spec (steps : List (LwLsnStep ρ)) (s : LwLsnSystem ρ)
    (hlow : (steps.foldl step s).cache.lowered = false) :
    s.cache.lowered = false ∧ (s.Inv → (steps.foldl step s).Inv) := by
  induction steps generalizing s with
  | nil => exact ⟨hlow, id⟩
  | cons a steps ih =>
    obtain ⟨hlow, hrest⟩ := ih (s.step a) hlow
    obtain ⟨hlow, hstep⟩ := step_spec s a hlow
    exact ⟨hlow, hrest ∘ hstep⟩

/-- For every capacity and every interleaving of the critical sections, a lookup answers at least
what its block had been set to when it began, unless the cache was lowered: a block without an
entry got one below an LSN that it was set to (from a set, or from a lookup that had missed it),
or the maximum was set to a lower one. -/
theorem le_of_mem_answers (size redo : ℕ) (steps : List (LwLsnStep ρ))
    (hlow : (steps.foldl step (init size redo)).cache.lowered = false) :
    ∀ answer ∈ (steps.foldl step (init size redo)).answers, answer.1 ≤ answer.2 :=
  ((run_spec steps (init size redo) hlow).2 ⟨fun _ ↦ Nat.zero_le _, nofun, nofun⟩).answers

/-- Block `0` is written and evicted by the write of block `1`. -/
theorem le_of_mem_answers_evicted :
    let s := [.setBlockRange 50 (some ()) 0 1, .setBlockRange 60 (some ()) 1 1, .get (some ()) 0,
      .resume 0].foldl step (init 1 10)
    s.answers = [(50, 50)] ∧ ∀ answer ∈ s.answers, answer.1 ≤ answer.2 :=
  ⟨by decide, le_of_mem_answers 1 10 _ (by decide)⟩

/-- The same while a lookup of block `0` waits for the exclusive lock: it enters the maximum that
it has read before, and the next lookup answers `10` for a block that was set to `50`. -/
theorem answers_below_written :
    ([.get (some ()) 0, .setBlockRange 50 (some ()) 0 1, .setBlockRange 60 (some ()) 1 1,
      .resume 0, .get (some ()) 0].foldl step (init 1 10)).answers = [(0, 10), (50, 10)] := by
  decide

end LwLsnSystem

end NeonStorage.Compute
