import NeonStorage.Lib.SearchTree
import NeonStorage.Pageserver.DiskBtree.Node

/-!
# Building a disk B-tree

`DiskBtreeBuilder` (`tenant/disk_btree.rs`) takes pairs in ascending order and writes the pages of
the tree from the leaves up. It keeps one unfinished node per level; a node that is full is written,
and a downlink to it goes to the node above, which may be full in turn.

* `Frame` and `Stack` relate the unfinished nodes to subtrees that are in the pages already.
* `appendInternal_spec`: an append puts one more subtree into the node of its level, and keeps the
pairs.
* `build_spec`: if the writer does not fail, the pages have a tree with just the pairs that were
appended.
-/

namespace NeonStorage.Pageserver.DiskBtree

open List
open SearchTree

/-! ## The builder -/

/-- The trait `BlockWriter`: `writeBlk` writes a page and returns the number of the block, or
fails. -/
structure BlockWriter (W : Type) where
  writeBlk : W → List UInt8 → Option (ℕ × W)
  blocks : W → List (List UInt8)
  writeBlk_eq {w buf n w'} : writeBlk w buf = some (n, w') →
    n = (blocks w).length ∧ n < 2 ^ 32 ∧ blocks w' = blocks w ++ [buf]

/-- The leaf is the first node of the stack, and the root is the last one. -/
structure DiskBtreeBuilder (W : Type) (L : ℕ) where
  writer : W
  stack : List BuildNode
  lastKey : Option (Key L)

open DiskBtreeBuilder

namespace DiskBtreeBuilder

variable {W : Type} {L : ℕ} (bw : BlockWriter W)

def new (writer : W) : DiskBtreeBuilder W L := ⟨writer, [.new 0], none⟩

def writeBlk (writer : W) (buf : List UInt8) : Except (Failure L) (ℕ × W) := do
  assert (buf.length = pageSz)
  match bw.writeBlk writer buf with
  | some r => return r
  | none => .error (.error .io)

/-- Write the node at the bottom of the stack, and append a downlink to it to its parent. -/
def flushNodeWith
    (appendInternal : DiskBtreeBuilder W L → Key L → Value →
      Except (Failure L) (DiskBtreeBuilder W L))
    (b : DiskBtreeBuilder W L) : Except (Failure L) (DiskBtreeBuilder W L) :=
  match b.stack with
  | [] => .error .panic
  | last :: stack => do
    let buf ← last.pack
    let downlinkKey ← last.firstKey
    let (downlinkPtr, writer) ← writeBlk bw b.writer buf
    -- Without a parent this was the root, and a new root is created.
    let stack := if stack.isEmpty then [BuildNode.new ((last.level + 1) % 2 ^ 8)] else stack
    appendInternal { b with writer, stack } downlinkKey (Value.fromBlknum downlinkPtr)

def pushOrCompress (last : BuildNode) (key : Key L) (value : Value) :
    Except (Failure L) (BuildNode × Bool) := do
  let (last, pushed) ← last.push key value
  if pushed then
    return (last, true)
  else
    let (last, compressed) ← last.compress
    if compressed then last.push key value else return (last, false)

/-- Append an entry to the node at the bottom of the stack. The recursion goes up the stack. -/
def appendInternal : ℕ → DiskBtreeBuilder W L → Key L → Value →
    Except (Failure L) (DiskBtreeBuilder W L)
  | 0, _, _, _ => .error .fuel
  | fuel + 1, b, key, value =>
    match b.stack with
    | [] => .error .panic
    | last :: stack => do
      let level := last.level
      let (last, pushed) ← pushOrCompress last key value
      if pushed then
        return { b with stack := last :: stack }
      else
        let b ← flushNodeWith bw (appendInternal fuel) { b with stack := last :: stack }
        let (last, pushed) ← (BuildNode.new level).push key value
        if pushed then return { b with stack := last :: b.stack }
        else .error (.error .failedToPushToNewLeafNode)

def append (b : DiskBtreeBuilder W L) (key : Key L) (value : ℕ) :
    Except (Failure L) (DiskBtreeBuilder W L) :=
  if value > maxValue then .error (.error (.appendOverflow value))
  else
    match b.lastKey.filter (key ≤ ·) with
    | some lastKey => .error (.error (.unsortedInput key lastKey))
    | none => do
      let value ← Value.fromU64 value
      appendInternal bw (b.stack.length + 1) { b with lastKey := some key } key value

/-- The loop of `finish`, which flushes all levels except the root; a level is one byte. -/
def flushLevels : ℕ → DiskBtreeBuilder W L → Except (Failure L) (DiskBtreeBuilder W L)
  | 0, _ => .error .fuel
  | fuel + 1, b =>
    if b.stack.length > 1 then do
      let b ← flushNodeWith bw (appendInternal bw (b.stack.length + 1)) b
      flushLevels fuel b
    else .ok b

def finish (b : DiskBtreeBuilder W L) : Except (Failure L) (ℕ × W) := do
  let b ← flushLevels bw (2 ^ 8) b
  match b.stack.getLast? with
  | none => .error .panic
  | some root =>
    let buf ← root.pack
    writeBlk bw b.writer buf

def build (writer : W) (pairs : List (Key L × ℕ)) : Except (Failure L) (ℕ × W) := do
  let b ← pairs.foldlM (fun b p ↦ append bw b p.1 p.2) (new writer)
  finish bw b

end DiskBtreeBuilder

/-! ## Pages and unfinished nodes -/

variable {W : Type} {L : ℕ} {bw : BlockWriter W}

/-- An entry of a node on a level as it is stored: with a number, or with a block number. -/
def encode (level : ℕ) (e : Key L × ℕ) : Key L × Value :=
  (e.1, if level = 0 then ⟨beBytes 5 e.2, length_beBytes 5 e.2⟩ else Value.fromBlknum e.2)

/-- The number of an entry can be stored on the level. -/
def Fits (level : ℕ) (e : Key L × ℕ) : Prop := if level = 0 then e.2 ≤ maxValue else e.2 < 2 ^ 32

/-- A reader of the block finds the entries of the page. -/
structure Packed (buf : List UInt8) (page : Page (Key L)) : Prop where
  deparse : ∃ disk, (OnDiskNode.deparse buf : Except (Failure L) OnDiskNode) = .ok disk ∧
    disk.Shows page.level (page.entries.map (encode page.level))
  sorted : page.entries.Pairwise (·.1 < ·.1)
  fits : ∀ e ∈ page.entries, Fits page.level e
  ne_nil : page.entries ≠ []

/-- The node of a level that has the given subtrees. -/
structure Frame (written : List (Page (Key L))) (level : ℕ) (node : BuildNode)
    (subs : List (Subtree (Key L))) : Prop where
  level_eq : node.level = level
  holds : node.Holds ((subs.map Subtree.entry).map (encode level))
  kept : ∀ c ∈ subs, Kept (written[·]?) level c
  fits : ∀ c ∈ subs, Fits level c.entry

/-- The nodes from a level up, and the subtrees that they have. -/
inductive Stack (written : List (Page (Key L))) :
    ℕ → List BuildNode → List (List (Subtree (Key L))) → Prop
  | nil {level : ℕ} : Stack written level [] []
  | cons {level : ℕ} {node : BuildNode} {stack : List BuildNode} {subs : List (Subtree (Key L))}
      {frames : List (List (Subtree (Key L)))} :
      Frame written level node subs → subs ≠ [] → (∀ c ∈ subs, Full level c) →
      Stack written (level + 1) stack frames → Stack written level (node :: stack) (subs :: frames)

variable {written written' : List (Page (Key L))} {level : ℕ} {node : BuildNode}
  {stack : List BuildNode} {subs : List (Subtree (Key L))} {frames : List (List (Subtree (Key L)))}

open Subtree (entry)

theorem kept_mono {s : Subtree (Key L)} (h : Kept (written[·]?) level s)
    (hpre : written <+: written') : Kept (written'[·]?) level s := by
  refine h.mono fun n p hp ↦ ?_
  obtain ⟨rest, rfl⟩ := hpre
  have hlt := (List.getElem?_eq_some_iff.mp hp).1
  rwa [List.getElem?_append_left hlt]

theorem Frame.mono (h : Frame written level node subs) (hpre : written <+: written') :
    Frame written' level node subs :=
  ⟨h.level_eq, h.holds, fun c hc ↦ kept_mono (h.kept c hc) hpre, h.fits⟩

theorem Stack.mono (h : Stack written level stack frames) (hpre : written <+: written') :
    Stack written' level stack frames := by
  induction h with
  | nil => exact .nil
  | cons hframe hne hfull _ ih => exact .cons (hframe.mono hpre) hne hfull ih

theorem Stack.pageCount_le (h : Stack written level stack frames) :
    pageCount frames ≤ (contents frames).length := by
  induction h with
  | nil => exact le_rfl
  | cons _ _ hfull _ ih =>
    have := sum_size_add_length_le hfull
    rw [pageCount_cons, contents, length_append]
    omega

/-- The blocks of the writer are the pages of `written`. -/
structure Stored (bw : BlockWriter W) (w : W) (written : List (Page (Key L))) : Prop where
  packed : List.Forall₂ Packed (bw.blocks w) written
  length_le : written.length ≤ 2 ^ 32

/-- The writer failed when it had at most `n` blocks. -/
def WriterFails (bw : BlockWriter W) (n : ℕ) : Prop :=
  ∃ w buf, bw.writeBlk w buf = none ∧ (bw.blocks w).length ≤ n

variable {n : ℕ}

theorem WriterFails.mono {m : ℕ} (h : WriterFails bw m) (hle : m ≤ n) : WriterFails bw n := by
  obtain ⟨w, buf, hnone, hlen⟩ := h
  exact ⟨w, buf, hnone, hlen.trans hle⟩

variable {c : Subtree (Key L)}

section Write

variable (hL : 0 < L) (hmax : L ≤ 255)
include hL hmax

theorem Frame.write {w : W} (h : Frame written level node subs) (hne : subs ≠ [])
    (hlevel : level < 256) (hstored : Stored bw w written) :
    ∃ buf, (node.pack : Except (Failure L) (List UInt8)) = .ok buf ∧
      (node.firstKey : Except (Failure L) (Key L)) = .ok (subs.head hne).key ∧
      ((writeBlk bw w buf : Except (Failure L) (ℕ × W)) = .error (.error .io) ∧
          WriterFails bw written.length ∨
        ∃ w', (writeBlk bw w buf : Except (Failure L) (ℕ × W)) =
            .ok (written.length, w') ∧ written.length < 2 ^ 32 ∧
          Stored bw w' (written ++ [⟨level, subs.map entry⟩]) ∧
          Kept ((written ++ [⟨level, subs.map entry⟩])[·]?) (level + 1)
            (.node (subs.head hne).key written.length subs)) := by
  have hentries : (subs.map entry).map (encode level) ≠ [] := by simpa using hne
  obtain ⟨buf, disk, hpack, hlen, hdeparse, hshows⟩ :=
    deparse_pack hL hmax h.holds hentries (h.level_eq ▸ hlevel)
  refine ⟨buf, hpack, ?_, ?_⟩
  · rw [h.holds.firstKey hentries]
    simp [encode, entry]
  · have hblocks := hstored.packed.length_eq
    rw [writeBlk, assert_of hlen]
    cases hw : bw.writeBlk w buf with
    | none => exact .inl ⟨rfl, w, buf, hw, hblocks.le⟩
    | some r =>
      obtain ⟨n, w'⟩ := r
      obtain ⟨rfl, hlt, happend⟩ := bw.writeBlk_eq hw
      rw [hblocks] at hlt ⊢
      refine .inr ⟨w', rfl, hlt, ⟨?_, ?_⟩, ?_⟩
      · rw [happend]
        refine rel_append hstored.packed (.cons ?_ .nil)
        refine ⟨⟨disk, hdeparse, h.level_eq ▸ hshows⟩, ?_, ?_, by simpa using hne⟩
        · have := h.holds.sorted
          rw [pairwise_map] at this
          exact this
        · simpa using h.fits
      · rw [length_append]
        exact hlt
      · refine Kept.node hne ?_ fun c hc ↦ kept_mono (h.kept c hc) (prefix_append _ _)
        simp

theorem Frame.pushOrCompress (h : Frame written level node subs) (hc : Kept (written[·]?) level c)
    (hfits : Fits level c.entry) (hlt : ∀ a ∈ subs, a.key < c.key) :
    ∃ node' pushed, DiskBtreeBuilder.pushOrCompress node c.key (encode level c.entry).2 =
        .ok (node', pushed) ∧
      Frame written level node' (if pushed then subs ++ [c] else subs) ∧
      (pushed = false → 2 ≤ subs.length) := by
  have hkeys : ∀ e ∈ (subs.map entry).map (encode level), e.1 < c.key := by
    simpa [encode, entry] using hlt
  have hpushed {node' : BuildNode} (hholds : node'.Holds
      ((subs.map entry).map (encode level) ++ [(c.key, (encode level c.entry).2)]))
      (hlevel : node'.level = level) : Frame written level node' (subs ++ [c]) := by
    refine ⟨hlevel, ?_, ?_, ?_⟩
    · rw [map_append, map_append]
      exact hholds
    · simpa [or_imp, forall_and] using ⟨h.kept, hc⟩
    · simpa [or_imp, forall_and] using ⟨h.fits, hfits⟩
  rw [DiskBtreeBuilder.pushOrCompress]
  obtain ⟨node₁, hpush, hholds, hlevel⟩ | ⟨hpush, htwo⟩ :=
    h.holds.push hL hmax hkeys (encode level c.entry).2
  · rw [hpush]
    exact ⟨node₁, true, rfl, hpushed hholds (hlevel.trans h.level_eq), fun h ↦ by cases h⟩
  · obtain ⟨node₁, compressed, hcompress, hholds, hlevel⟩ := h.holds.compress hL htwo
    have hframe : Frame written level node₁ subs :=
      ⟨hlevel.trans h.level_eq, hholds, h.kept, h.fits⟩
    rw [length_map, length_map] at htwo
    rw [hpush]
    simp only [Bool.false_eq_true, if_false, hcompress, ok_bind]
    cases compressed with
    | false => exact ⟨node₁, false, rfl, hframe, fun _ ↦ htwo⟩
    | true =>
      obtain ⟨node₂, hpush, hholds, hlevel⟩ | ⟨hpush, -⟩ :=
        hframe.holds.push hL hmax hkeys (encode level c.entry).2
      · exact ⟨node₂, true, hpush, hpushed hholds (hlevel.trans hframe.level_eq),
          fun h ↦ by cases h⟩
      · exact ⟨node₁, false, hpush, hframe, fun _ ↦ htwo⟩

end Write

/-! ## Appending a subtree -/

theorem level_le (hne : subs ≠ []) (hfull : ∀ a ∈ subs, Full level a)
    (frames : List (List (Subtree (Key L)))) (hcount : pageCount (subs :: frames) ≤ 2 ^ 32) :
    level ≤ 32 := by
  by_contra hgt
  have hpow := Nat.pow_le_pow_right (show 0 < 2 by omega) (show 33 ≤ level by omega)
  have := two_pow_le_pageCount hfull hne frames
  omega

/-- The lowest node is on `level` and has `c` as its last subtree. The pages of the nodes are all
that was written, but for `extra` ones. -/
structure Bottom (bw : BlockWriter W) (b : DiskBtreeBuilder W L) (written : List (Page (Key L)))
    (level : ℕ) (subs : List (Subtree (Key L))) (c : Subtree (Key L))
    (frames : List (List (Subtree (Key L)))) (extra : ℕ) : Prop where
  stack : ∃ node stack, b.stack = node :: stack ∧ Frame written level node (subs ++ [c]) ∧
    Stack written (level + 1) stack frames
  full : ∀ a ∈ subs, Full level a
  stored : Stored bw b.writer written
  length_eq : written.length = pageCount ((subs ++ [c]) :: frames) + extra

/-- An append puts the subtree `c` at the end of the lowest node, or of a new one in its place. -/
def AppendSpec (bw : BlockWriter W) (L fuel : ℕ) : Prop :=
  ∀ (b : DiskBtreeBuilder W L) (written : List (Page (Key L))) (level : ℕ) (node : BuildNode)
    (stack : List BuildNode) (subs : List (Subtree (Key L)))
      (frames : List (List (Subtree (Key L))))
    (c : Subtree (Key L)) (extra n : ℕ),
    b.stack = node :: stack → Frame written level node subs → (∀ a ∈ subs, Full level a) →
    Stack written (level + 1) stack frames → Stored bw b.writer written →
    Kept (written[·]?) level c → Fits level c.entry →
    (contents (subs :: frames) ++ c.pairs).Pairwise (·.1 < ·.1) →
    written.length = pageCount (subs :: frames) + (c.size + extra) →
    (contents (subs :: frames)).length + (c.size + extra) ≤ n →
    0 < fuel → (subs ≠ [] → stack.length + 2 ≤ fuel) →
    (appendInternal bw fuel b c.key (encode level c.entry).2 = .error (.error .io) ∧
      WriterFails bw n) ∨
    ∃ b' written' subs' frames',
      appendInternal bw fuel b c.key (encode level c.entry).2 = .ok b' ∧
      Bottom bw b' written' level subs' c frames' extra ∧ b'.lastKey = b.lastKey ∧
      written <+: written' ∧ contents ((subs' ++ [c]) :: frames') =
        contents (subs :: frames) ++ c.pairs

section Append

variable (hL : 0 < L) (hmax : L ≤ 255)
include hL hmax
variable {b : DiskBtreeBuilder W L}

/-- Flushing the lowest node puts its subtree at the end of the node above. -/
theorem flush_spec {fuel extra : ℕ} (ih : AppendSpec bw L fuel) (hstack : b.stack = node :: stack)
    (hframe : Frame written level node subs) (hne : subs ≠ []) (hlevel : level + 1 < 256)
    (hrest : Stack written (level + 1) stack frames) (hstored : Stored bw b.writer written)
    (hsorted : (contents (subs :: frames)).Pairwise (·.1 < ·.1))
    (hcount : written.length = pageCount (subs :: frames) + extra) (hle : written.length ≤ n)
    (hn : (contents frames).length + (1 + (subs.map Subtree.size).sum + extra) ≤ n)
    (hfuel : stack.length + 1 ≤ fuel) : (flushNodeWith bw (appendInternal bw fuel) b =
        .error (.error .io) ∧ WriterFails bw n) ∨
    ∃ b' written' subs' frames',
      flushNodeWith bw (appendInternal bw fuel) b = .ok b' ∧
      Bottom bw b' written' (level + 1) subs'
        (.node (subs.head hne).key written.length subs) frames'
        extra ∧ b'.lastKey = b.lastKey ∧ written <+: written' ∧
      contents ((subs' ++ [.node (subs.head hne).key written.length subs]) :: frames') =
        contents (subs :: frames) := by
  obtain ⟨buf, hpack, hkey, hwrite⟩ := hframe.write hL hmax hne (by omega) hstored
  rw [flushNodeWith, hstack]
  simp only [hpack, hkey, ok_bind, hframe.level_eq]
  obtain ⟨hio, hfails⟩ | ⟨w', hok, hlt, hstored', hkept⟩ := hwrite
  · rw [hio]
    exact .inl ⟨rfl, hfails.mono hle⟩
  obtain ⟨c, hc⟩ : ∃ c : Subtree (Key L), c = .node (subs.head hne).key written.length subs :=
    ⟨_, rfl⟩
  have hsize : c.size = 1 + (subs.map Subtree.size).sum := by rw [hc]; rfl
  have hpairs : c.pairs = subs.flatMap Subtree.pairs := by rw [hc]; rfl
  have hentry : (c.key, Value.fromBlknum written.length) =
    encode (level + 1) c.entry := by rw [hc]; rfl
  have hpre : written <+: written ++ [⟨level, subs.map entry⟩] := prefix_append _ _
  -- The node above, which is a new root if this was the root.
  obtain ⟨node₁, stack₁, subs₁, frames₁, hstack₁, hframe₁, hfull₁, hrest₁, hcontents,
    hcount₁, hfuel₁⟩ :
      ∃ node₁ stack₁ subs₁ frames₁, (if stack.isEmpty then [BuildNode.new ((level + 1) % 2 ^ 8)]
          else stack) = node₁ :: stack₁ ∧ Frame written (level + 1) node₁ subs₁ ∧
        (∀ a ∈ subs₁, Full (level + 1) a) ∧ Stack written (level + 1 + 1) stack₁ frames₁ ∧
        contents (subs₁ :: frames₁) = contents frames ∧
          pageCount (subs₁ :: frames₁) = pageCount frames ∧
        (subs₁ ≠ [] → stack₁.length + 2 ≤ fuel) := by
    cases hrest with
    | nil =>
      rw [Nat.mod_eq_of_lt (show level + 1 < 2 ^ 8 by omega)]
      exact ⟨_, [], [], [], rfl, ⟨rfl, BuildNode.holds_new _, nofun, nofun⟩, nofun, .nil, rfl, rfl,
        absurd rfl⟩
    | cons hframe _ hfull hrest =>
      exact ⟨_, _, _, _, rfl, hframe, hfull, hrest, rfl, rfl, fun _ ↦ hfuel⟩
  have hspec := ih { b with writer := w', stack := node₁ :: stack₁ } _
    (level + 1) node₁ stack₁ subs₁
    frames₁ c extra n rfl (hframe₁.mono hpre) hfull₁ (hrest₁.mono hpre) hstored' (hc ▸ hkept)
    (by rw [hc]; exact hlt) (by rwa [hcontents, hpairs])
    (by rw [pageCount_cons] at hcount; rw [length_append, length_singleton, hcount₁, hsize]; omega)
    (by rwa [hcontents, hsize]) (by omega) hfuel₁
  rw [hok]
  simp only [hstack₁]
  subst hc
  obtain hfails | ⟨b', written', subs', frames', hb', hbottom, hlast, hpre', hcontents'⟩ := hspec
  · exact .inl hfails
  · refine .inr ⟨b', written', subs', frames', hb', hbottom, hlast, hpre.trans hpre', ?_⟩
    rw [hcontents', hcontents, hpairs, contents]

omit hL hmax in
theorem key_lt_of_sorted (hsubs : ∀ a ∈ subs, Kept (written[·]?) level a)
    (hc : Kept (written[·]?) level c)
    (hsorted : (contents (subs :: frames) ++ c.pairs).Pairwise (·.1 < ·.1)) :
    ∀ a ∈ subs, a.key < c.key := by
  intro a ha
  obtain ⟨v, hv⟩ := (hsubs a ha).key_mem
  obtain ⟨v', hv'⟩ := hc.key_mem
  exact (pairwise_append.mp hsorted).2.2 (a.key, v)
    (mem_append_right _ (mem_flatMap.mpr ⟨a, ha, hv⟩)) _ hv'

/-- **An append puts the subtree at the end of the lowest node**, by induction up the stack. -/
theorem appendInternal_spec (fuel : ℕ) : AppendSpec bw L fuel := by
  induction fuel with
  | zero =>
    intro _ _ _ _ _ _ _ _ _ _ _ _ _ _ _ _ _ _ _ _ hpos
    exact absurd hpos (lt_irrefl 0)
  | succ fuel ih =>
    intro b written level node stack subs frames c extra n hstack hframe hfull hrest
      hstored hc hfits
      hsorted hcount hn _ hfuel
    obtain ⟨node₁, pushed, hpush, hframe₁, htwo⟩ :=
      hframe.pushOrCompress hL hmax hc hfits (key_lt_of_sorted hframe.kept hc hsorted)
    rw [appendInternal, hstack]
    simp only [hpush, ok_bind]
    cases pushed with
    | true =>
      refine .inr ⟨_, written, subs, frames, rfl,
        ⟨⟨node₁, stack, rfl, hframe₁, hrest⟩, hfull, hstored, ?_⟩, rfl, prefix_rfl, ?_⟩
      · simp only [pageCount_cons, map_append, sum_append, map_singleton, sum_singleton] at hcount ⊢
        omega
      · simp [contents]
    | false =>
      have htwo := htwo rfl
      have hframe₁ : Frame written level node₁ subs := hframe₁
      have hne : subs ≠ [] := ne_nil_of_length_pos (by omega)
      have hsum := sum_size_add_length_le hfull
      have hpages := hrest.pageCount_le
      have hlevel : level ≤ 32 := by
        refine level_le hne hfull frames ?_
        have := hstored.length_le
        omega
      simp only [contents, length_append] at hn
      have hflush := flush_spec hL hmax (b := { b with stack := node₁ :: stack })
        (n := n) ih rfl hframe₁
        hne (by omega) hrest hstored (pairwise_append.mp hsorted).1 hcount
        (by rw [pageCount_cons] at hcount; omega) (by omega) (by have := hfuel hne; omega)
      obtain ⟨hio, hfails⟩ | ⟨b₂, written₂, subs₂, frames₂, hb₂, hbottom, hlast, hpre, hcontents⟩ :=
        hflush
      · rw [hio]
        exact .inl ⟨rfl, hfails⟩
      · obtain ⟨node₂, stack₂, hstack₂, hframe₂, hrest₂⟩ := hbottom.stack
        have hempty : Frame written₂ level (BuildNode.new level) ([] : List (Subtree (Key L))) :=
          ⟨rfl, BuildNode.holds_new level, nofun, nofun⟩
        have hkeys : ∀ e ∈ (([] : List (Subtree (Key L))).map entry).map (encode level),
            e.1 < c.key := nofun
        obtain ⟨node₃, hpush₃, hholds₃, hlevel₃⟩ | ⟨-, habsurd⟩ :=
          hempty.holds.push hL hmax hkeys (encode level c.entry).2
        swap
        · cases habsurd
        have hfull₂ : ∀ a ∈ subs₂ ++ [.node (subs.head hne).key written.length subs],
            Full (level + 1) a := by
          simpa [or_imp, forall_and] using ⟨hbottom.full, Full.node hfull htwo⟩
        rw [hb₂, ok_bind, hframe.level_eq, hpush₃, ok_bind]
        refine .inr ⟨_, written₂, [], _ :: frames₂, rfl, ⟨⟨node₃, node₂ :: stack₂, ?_, ?_,
          .cons hframe₂ (by simp) hfull₂ hrest₂⟩, nofun, hbottom.stored, ?_⟩, hlast, hpre, ?_⟩
        · rw [hstack₂]
        · refine ⟨hlevel₃.trans rfl, hholds₃, ?_, ?_⟩
          · simpa using kept_mono hc hpre
          · simpa using hfits
        · have hpages := hbottom.length_eq
          simp only [pageCount_cons, nil_append, map_singleton, sum_singleton] at hpages ⊢
          omega
        · rw [contents, hcontents]
          simp

/-! ## Building a tree -/

/-- The builder has the given pairs, and its nodes are full subtrees. -/
structure Loaded (bw : BlockWriter W) (b : DiskBtreeBuilder W L) (pairs : List (Key L × ℕ)) :
    Prop where
  frames : ∃ written node stack subs frames, b.stack = node :: stack ∧ Frame written 0 node subs ∧
    (∀ a ∈ subs, Full 0 a) ∧ Stack written 1 stack frames ∧ Stored bw b.writer written ∧
    written.length = pageCount (subs :: frames) ∧ contents (subs :: frames) = pairs ∧
    (pairs ≠ [] → subs ≠ [])
  lastKey : b.lastKey = pairs.getLast?.map Prod.fst

omit hL hmax in
theorem loaded_new {w : W} (hw : bw.blocks w = []) :
    Loaded bw (new w : DiskBtreeBuilder W L) [] where
  frames := ⟨[], .new 0, [], [], [], rfl, ⟨rfl, BuildNode.holds_new 0, nofun, nofun⟩, nofun, .nil,
    ⟨hw ▸ .nil, Nat.zero_le _⟩, rfl, rfl, absurd rfl⟩
  lastKey := rfl

variable {pairs : List (Key L × ℕ)}

theorem append_spec {p : Key L × ℕ} (h : Loaded bw b pairs)
    (hsorted : (pairs ++ [p]).Pairwise (·.1 < ·.1)) (hvalue : p.2 ≤ maxValue)
    (hn : pairs.length ≤ n) : (append bw b p.1 p.2 = .error (.error .io) ∧ WriterFails bw n) ∨
    ∃ b', append bw b p.1 p.2 = .ok b' ∧ Loaded bw b' (pairs ++ [p]) := by
  obtain ⟨written, node, stack, subs, frames, hstack, hframe, hfull, hrest, hstored,
    hcount, rfl, hne⟩ :=
    h.frames
  have hlast : b.lastKey.filter (p.1 ≤ ·) = none := by
    rw [h.lastKey, Option.filter_eq_none_iff]
    rintro k hk
    obtain ⟨q, hq, rfl⟩ := Option.map_eq_some_iff.mp hk
    have hlt := (pairwise_append.mp hsorted).2.2 q (mem_of_getLast? hq) p (mem_singleton_self p)
    simpa using hlt
  have hfullc : Full 0 (⟨p.1, p.2, [p], 0⟩ : Subtree (Key L)) := ⟨le_rfl, Nat.zero_lt_one⟩
  have hspec := appendInternal_spec hL hmax (b.stack.length + 1)
    { b with lastKey := some p.1 } written 0
    node stack subs frames ⟨p.1, p.2, [p], 0⟩ 0 n hstack hframe hfull hrest hstored
      ⟨rfl, rfl⟩ hvalue
    hsorted hcount hn (Nat.succ_pos _) fun _ ↦ by rw [hstack]; rfl
  rw [append, if_neg (not_lt.mpr hvalue), hlast]
  simp only [Value.fromU64, assert_of (show p.2 ≤ 0x7fffffffff from hvalue)]
  obtain hfails | ⟨b', written', subs', frames', hb', hbottom, hlast', -, hcontents⟩ := hspec
  · exact .inl hfails
  · obtain ⟨node', stack', hstack', hframe', hrest'⟩ := hbottom.stack
    refine .inr ⟨b', hb', ⟨written', node', stack', _, frames', hstack', hframe', ?_, hrest',
      hbottom.stored, hbottom.length_eq, hcontents, by simp⟩, ?_⟩
    · simpa [or_imp, forall_and] using ⟨hbottom.full, hfullc⟩
    · rw [hlast']
      simp

theorem foldlM_append_spec {rest : List (Key L × ℕ)} (h : Loaded bw b pairs)
    (hsorted : (pairs ++ rest).Pairwise (·.1 < ·.1)) (hvalues : ∀ p ∈ rest, p.2 ≤ maxValue)
    (hn : pairs.length + rest.length ≤ n) :
    (rest.foldlM (fun b p ↦ append bw b p.1 p.2) b = .error (.error .io) ∧ WriterFails bw n) ∨
    ∃ b', rest.foldlM (fun b p ↦ append bw b p.1 p.2) b = .ok b' ∧
      Loaded bw b' (pairs ++ rest) := by
  induction rest generalizing b pairs with
  | nil => exact .inr ⟨b, rfl, by rwa [append_nil]⟩
  | cons p rest ih =>
    have hassoc : pairs ++ p :: rest = pairs ++ [p] ++ rest := by simp
    rw [hassoc] at hsorted ⊢
    rw [foldlM_cons]
    obtain ⟨hio, hfails⟩ | ⟨b', hb', hloaded⟩ :=
      append_spec hL hmax h (pairwise_append.mp hsorted).1
      (hvalues p mem_cons_self) (show pairs.length ≤ n by omega)
    · rw [hio]
      exact .inl ⟨rfl, hfails⟩
    · rw [hb']
      refine ih hloaded hsorted (forall_mem_cons.mp hvalues).2 ?_
      simp only [length_append, length_cons, length_nil] at hn ⊢
      omega

omit hL hmax in
theorem Bottom.length_le (h : Bottom bw b written level subs c frames 0)
    (hc : c.size ≤ c.pairs.length + level) :
    written.length ≤ (contents ((subs ++ [c]) :: frames)).length + level := by
  obtain ⟨node, stack, -, -, hrest⟩ := h.stack
  have hpages := hrest.pageCount_le
  have hsum := sum_size_add_length_le h.full
  rw [h.length_eq, pageCount_cons]
  simp only [contents, map_append, sum_append, map_singleton, sum_singleton,
    flatMap_append, flatMap_singleton, length_append]
  omega

/-- The loop of `finish` ends with a root that has all pairs. Only the last subtree of each node
that it flushes may be less than full. -/
theorem flushLevels_spec {fuel : ℕ} (h : Bottom bw b written level subs c frames 0)
    (hc : c.size ≤ c.pairs.length + level)
    (hsorted : (contents ((subs ++ [c]) :: frames)).Pairwise (·.1 < ·.1)) (hlevel : level ≤ 32)
    (hfuel : 32 < fuel + level) (hn : (contents ((subs ++ [c]) :: frames)).length + 33 ≤ n) :
    (flushLevels bw fuel b = .error (.error .io) ∧ WriterFails bw n) ∨
    ∃ b' written' level' subs' c', flushLevels bw fuel b = .ok b' ∧
      Bottom bw b' written' level' subs' c' [] 0 ∧ level' ≤ 32 ∧
        c'.size ≤ c'.pairs.length + level' ∧
      contents [subs' ++ [c']] = contents ((subs ++ [c]) :: frames) := by
  induction fuel generalizing b written level subs c frames with
  | zero => omega
  | succ fuel ih =>
    obtain ⟨node, stack, hstack, hframe, hrest⟩ := h.stack
    rw [flushLevels]
    cases hrest with
    | nil =>
      rw [if_neg (by simp [hstack])]
      exact .inr ⟨b, written, level, subs, c, rfl, h, hlevel, hc, rfl⟩
    | @cons _ node₁ stack₁ subs₁ frames₁ hframe₁ hne₁ hfull₁ hrest₁ =>
      have hne : subs ++ [c] ≠ [] := by simp
      have hlen := h.length_le hc
      have hstored := h.stored.length_le
      have hsum := sum_size_add_length_le h.full
      have hcount := h.length_eq
      -- The node above has a full subtree, so the level is low.
      have hlevel₁ : level + 1 ≤ 32 := by
        refine level_le hne₁ hfull₁ frames₁ ?_
        rw [pageCount_cons] at hcount
        omega
      obtain ⟨hio, hfails⟩ | ⟨b₂, written₂, subs₂, frames₂, hb₂, hbottom, -, -, hcontents⟩ :=
        flush_spec hL hmax (n := n) (appendInternal_spec hL hmax (b.stack.length + 1))
          hstack hframe hne
          (by omega) (.cons hframe₁ hne₁ hfull₁ hrest₁) h.stored hsorted hcount (by omega)
          (by
            simp only [contents, map_append, sum_append, map_singleton, sum_singleton,
              flatMap_append, flatMap_singleton, length_append] at hn ⊢
            omega)
          (by rw [hstack]; simp)
      · rw [if_pos (by simp [hstack]), hio]
        exact .inl ⟨rfl, hfails⟩
      · rw [if_pos (by simp [hstack]), hb₂, ← hcontents]
        refine ih hbottom ?_ (hcontents ▸ hsorted) hlevel₁ (by omega) (hcontents ▸ hn)
        simp only [Subtree.node, map_append, sum_append, map_singleton, sum_singleton,
          flatMap_append, flatMap_singleton, length_append]
        omega

/-- **The blocks that a builder writes are a tree with the pairs that were appended**, unless the
writer fails; at most 33 blocks more than there are pairs are written. -/
theorem build_spec {w : W} (hw : bw.blocks w = []) (hne : pairs ≠ [])
    (hsorted : pairs.Pairwise (·.1 < ·.1)) (hvalues : ∀ p ∈ pairs, p.2 ≤ maxValue) :
    (build bw w pairs = .error (.error .io) ∧ WriterFails bw (pairs.length + 33)) ∨
    ∃ w' written level s, build bw w pairs = .ok (s.num, w') ∧
      Stored bw w' written ∧ Kept (written[·]?) (level + 1) s ∧ s.pairs = pairs := by
  rw [build]
  rw [← nil_append pairs] at hsorted
  obtain ⟨hio, hfails⟩ | ⟨b, hb, hloaded⟩ :=
    foldlM_append_spec hL hmax (loaded_new hw) hsorted hvalues
    (show [].length + pairs.length ≤ pairs.length + 33 by simp)
  · rw [hio]
    exact .inl ⟨rfl, hfails⟩
  obtain ⟨written, node, stack, subs, frames, hstack, hframe, hfull, hrest, hstored,
    hcount, hcontents, hsubs⟩ := hloaded.frames
  rw [nil_append] at hcontents hsorted
  obtain ⟨subs, c, rfl⟩ := (eq_nil_or_concat' subs).resolve_left (hsubs hne)
  have hbottom : Bottom bw b written 0 subs c frames 0 :=
    ⟨⟨node, stack, hstack, hframe, hrest⟩, fun a ha ↦
      hfull a (mem_append_left _ ha), hstored, hcount⟩
  rw [hb, ok_bind, finish]
  obtain ⟨hio, hfails⟩ | ⟨b', written', level', subs', c', hb', hbottom', hlevel',
    hc', hcontents'⟩ :=
    flushLevels_spec hL hmax hbottom (hfull c (by simp)).size_lt.le
      (hcontents ▸ hsorted) (by omega) (show 32 < 2 ^ 8 + 0 by omega) (by rw [hcontents])
  · rw [hio]
    exact .inl ⟨rfl, hfails⟩
  obtain ⟨root, stack', hstack', hroot, hrest'⟩ := hbottom'.stack
  obtain rfl : stack' = [] := by
    cases hrest'
    rfl
  have hne' : subs' ++ [c'] ≠ [] := by simp
  have hlen := hbottom'.length_le hc'
  rw [hcontents', hcontents] at hlen
  obtain ⟨buf, hpack, -, hwrite⟩ := hroot.write hL hmax hne' (by omega) hbottom'.stored
  rw [hb', ok_bind, hstack']
  simp only [List.getLast?_singleton, hpack, ok_bind]
  obtain ⟨hio, hfails⟩ | ⟨w', hok, -, hstored', hkept⟩ := hwrite
  · exact .inl ⟨hio, hfails.mono (by omega)⟩
  · refine .inr ⟨w', _, level', _, hok, hstored', hkept, ?_⟩
    rw [← hcontents, ← hcontents']
    rfl

end Append

end NeonStorage.Pageserver.DiskBtree
