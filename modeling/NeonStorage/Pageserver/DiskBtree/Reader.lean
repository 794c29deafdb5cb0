import NeonStorage.Pageserver.DiskBtree.Builder

/-!
# Reading a disk B-tree

`DiskBtreeReader` (`tenant/disk_btree.rs`) walks the pages of a tree from a search key on, forwards
or backwards, with a stack of nodes and the entries of each that are still to be read.

* `visitLoop_of_walk`: over blocks that are the pages of a tree, the loop of the reader does what
  the walk of a search tree does.
* `diskBtree_exact`: a tree that was built from a list of pairs answers all searches as the list
does.
-/

namespace NeonStorage.Pageserver.DiskBtree

open List
open SearchTree

/-! ## The reader -/

inductive VisitDirection where
  | forwards
  | backwards
  deriving DecidableEq

structure DiskBtreeReader where
  startBlk : ℕ
  rootBlk : ℕ
  readBlk : ℕ → Option (List UInt8)

open DiskBtreeReader

variable {L : ℕ} {S : Type}

/-- The entries to read of a node that the search comes to, in their order. The search ends if there
is none backwards. -/
def OnDiskNode.locate (node : OnDiskNode) (searchKey : Key L) : VisitDirection → Option (List ℕ)
  | .forwards =>
    let idx := match node.binarySearch searchKey with
      | .ok idx => idx
      | .error idx => if node.level = 0 then idx else idx - 1
    some (List.range' idx (node.numChildren - idx))
  | .backwards =>
    match node.binarySearch searchKey with
    | .ok idx => some (List.range (idx + 1)).reverse
    | .error 0 => none
    | .error (idx + 1) => some (List.range (idx + 1)).reverse

/-- Call the visitor for entries of a leaf until it returns `false`. -/
def OnDiskNode.visitLeaf (node : OnDiskNode) (visitor : S → List UInt8 → ℕ → S × Bool) :
    List ℕ → S → Except (Failure L) (S × Bool)
  | [], s => .ok (s, true)
  | idx :: iter, s => do
    let value ← node.value idx
    let (s, goOn) := visitor s (node.key idx) value.toU64
    if goOn then visitLeaf node visitor iter s else .ok (s, false)

namespace DiskBtreeReader

variable (r : DiskBtreeReader) (searchKey : Key L)

/-- The loop of `visit` and of `into_stream`. -/
def visitLoop (dir : VisitDirection) (visitor : S → List UInt8 → ℕ → S × Bool) :
    ℕ → List (ℕ × Option (List ℕ)) → S → Except (Failure L) (S × Bool)
  | _, [], s => .ok (s, true)
  | 0, _ :: _, _ => .error .fuel
  | fuel + 1, (nodeBlknum, optIter) :: stack, s =>
    match r.readBlk ((r.startBlk + nodeBlknum) % 2 ^ 32) with
    | none => .error (.error .io)
    | some buf => do
      let node ← OnDiskNode.deparse buf
      assert (0 < node.numChildren)
      match optIter.or (node.locate searchKey dir) with
      | none => .ok (s, false)
      | some iter =>
        if node.level = 0 then
          let (s, goOn) ← node.visitLeaf visitor iter s
          if goOn then visitLoop dir visitor fuel stack s else .ok (s, false)
        else
          match iter with
          | [] => visitLoop dir visitor fuel stack s
          | idx :: iter =>
            let value ← node.value idx
            let child ← value.toBlknum
            visitLoop dir visitor fuel ((child, none) :: (nodeBlknum, some iter) :: stack) s

/-- Scan the tree from a key; the visitor has the state `s`. -/
def visit (dir : VisitDirection) (visitor : S → List UInt8 → ℕ → S × Bool) (s : S) (fuel : ℕ) :
    Except (Failure L) (S × Bool) :=
  r.visitLoop searchKey dir visitor fuel [(r.rootBlk, none)] s

/-- The value of a key, if it is in the tree: the first pair from the key on is looked at. -/
def get (fuel : ℕ) : Except (Failure L) (Option ℕ) := do
  let (result, _) ← r.visit searchKey .forwards
    (fun result key value ↦ (if key = searchKey.bytes then some value else result, false)) none fuel
  return result

def intoStream (fuel : ℕ) : Except (Failure L) (List (List UInt8 × ℕ)) := do
  let (items, _) ← r.visitLoop searchKey .forwards
    (fun items key value ↦ (items ++ [(key, value)], true)) fuel [(r.rootBlk, none)] []
  return items

variable {e : Key L × ℕ}

/-- The blocks of the tree are in the file, from the start block on. -/
def Reads (blocks : List (List UInt8)) : Prop :=
  ∀ i buf, blocks[i]? = some buf → r.startBlk + i < 2 ^ 32 ∧ r.readBlk (r.startBlk + i) = some buf

end DiskBtreeReader

/-! ## The walk of the reader -/

theorem toBlknum_encode {level : ℕ} (hlevel : level ≠ 0) (h : Fits level e) :
    ((encode level e).2.toBlknum : Except (Failure L) ℕ) = .ok e.2 := by
  rw [Fits, if_neg hlevel] at h
  rw [encode, if_neg hlevel]
  have hlow : beNat (beBytes 4 e.2) = e.2 := beNat_beBytes_of_lt (by omega)
  exact congrArg Except.ok hlow

theorem toU64_encode (h : Fits 0 e) : (encode 0 e).2.toU64 = e.2 := by
  rw [Fits, if_pos rfl, maxValue] at h
  exact beNat_beBytes_of_lt (by omega)

/-- The entries at which the walk of a search tree starts in a page. -/
def VisitDirection.starts (x : Key L) : VisitDirection → Page (Key L) → Option (List ℕ)
  | .forwards => SearchTree.forwards x
  | .backwards => SearchTree.backwards x

section Page

variable {disk : OnDiskNode} {page : Page (Key L)}
  (hshows : disk.Shows page.level (page.entries.map (encode page.level)))
include hshows

open VisitDirection (starts)

theorem locate_eq (hsorted : page.entries.Pairwise (·.1 < ·.1)) (x : Key L) (dir : VisitDirection) :
    disk.locate x dir = dir.starts x page := by
  have hmap : (page.entries.map (encode page.level)).Pairwise (·.1 < ·.1) :=
    pairwise_map.mpr hsorted
  have hsearch := hshows.binarySearch hmap x
  have hlt : (page.entries.map (encode page.level)).countP (·.1 < x) =
    page.entries.countP (·.1 < x) :=
    countP_map
  have hle : (page.entries.map (encode page.level)).countP (·.1 ≤ x) =
    page.entries.countP (·.1 ≤ x) :=
    countP_map
  have hone := BinarySearch.countP_le_le (x := x) hsorted
  have hmono : page.entries.countP (·.1 < x) ≤ page.entries.countP (·.1 ≤ x) :=
    countP_mono_left fun p _ hp ↦ decide_eq_true (of_decide_eq_true hp).le
  have hlen := hshows.numChildren
  obtain ⟨c, hc⟩ : ∃ c, page.entries.countP (·.1 < x) = c := ⟨_, rfl⟩
  obtain ⟨d, hd⟩ : ∃ d, page.entries.countP (·.1 ≤ x) = d := ⟨_, rfl⟩
  rw [hlt, hle, hc, hd] at hsearch
  rcases Nat.lt_or_ge c d with hcd | hcd
  · -- The key at `c` is the one that is searched for.
    obtain rfl : d = c + 1 := by omega
    cases dir with
    | forwards => simp [OnDiskNode.locate, starts, forwards, hsearch, hlen, hc, hd]
    | backwards => simp [OnDiskNode.locate, starts, backwards, hsearch, hd]
  · obtain rfl : d = c := by omega
    rw [if_neg (by omega)] at hsearch
    cases dir with
    | forwards => simp [OnDiskNode.locate, starts, forwards, hsearch, hlen, hshows.level, hc, hd]
    | backwards =>
      simp only [OnDiskNode.locate, starts, backwards, hsearch, hd]
      cases d with
      | zero => rfl
      | succ d => rfl

theorem visitLeaf_eq (hlevel : page.level = 0) (hfits : ∀ e ∈ page.entries, Fits page.level e)
    (visitor : S → List UInt8 → ℕ → S × Bool) {iter : List ℕ}
    (hiter : ∀ i ∈ iter, i < page.entries.length) (s : S) :
    (disk.visitLeaf visitor iter s : Except (Failure L) (S × Bool)) =
      .ok (visitAll (fun s key ↦ visitor s key.bytes) (iter.filterMap (page.entries[·]?)) s) := by
  induction iter generalizing s with
  | nil => rfl
  | cons i iter ih =>
    have hi := hiter i mem_cons_self
    have hkey := hshows.key i (by rwa [length_map])
    have hvalue := hshows.value i (by rwa [length_map])
    have hfits := hfits _ (getElem_mem hi)
    simp only [hlevel, getElem_map] at hkey hvalue hfits
    rw [filterMap_cons_some (List.getElem?_eq_getElem hi), OnDiskNode.visitLeaf, hvalue, ok_bind,
      toU64_encode hfits, hkey, visitAll]
    simp only [encode]
    rcases visitor s page.entries[i].1.bytes page.entries[i].2 with ⟨s', goOn⟩
    cases goOn with
    | false => rfl
    | true => exact ih (forall_mem_cons.mp hiter).2 s'

end Page

variable {written : List (Page (Key L))} {blocks : List (List UInt8)}

theorem Packed.of_getElem?
    (hpacked : List.Forall₂ Packed blocks written) {num : ℕ} {page : Page (Key L)}
    (hpage : written[num]? = some page) : ∃ buf, blocks[num]? = some buf ∧ Packed buf page := by
  obtain ⟨hlt, rfl⟩ := List.getElem?_eq_some_iff.mp hpage
  have hlt' : num < blocks.length := hpacked.length_eq ▸ hlt
  exact ⟨blocks[num], List.getElem?_eq_getElem hlt', hpacked.get hlt' hlt⟩

/-- **The loop of the reader is a walk over the pages** that the blocks of the file contain. -/
theorem visitLoop_of_walk {r : DiskBtreeReader} (hpacked : List.Forall₂ Packed blocks written)
    (hreads : r.Reads blocks) (x : Key L) (dir : VisitDirection)
    (visitor : S → List UInt8 → ℕ → S × Bool) {fuel : ℕ}
      {stack : List (ℕ × Option (List ℕ))} {s : S} {res : S × Bool}
    (h : walk (written[·]?) (dir.starts x) (fun s key ↦ visitor s key.bytes) fuel stack
      s = some res) : r.visitLoop x dir visitor fuel stack s = .ok res := by
  induction fuel generalizing stack s with
  | zero =>
    cases stack with
    | nil => exact congrArg Except.ok (Option.some.inj h)
    | cons => cases h
  | succ fuel ih =>
    cases stack with
    | nil => exact congrArg Except.ok (Option.some.inj h)
    | cons top stack =>
      obtain ⟨num, todo⟩ := top
      rw [walk] at h
      cases hpage : written[num]? with
      | none =>
        simp only [hpage] at h
        cases h
      | some page =>
        obtain ⟨buf, hbuf, hpage'⟩ := Packed.of_getElem? hpacked hpage
        obtain ⟨disk, hdeparse, hshows⟩ := hpage'.deparse
        obtain ⟨hlt, hread⟩ := hreads num buf hbuf
        have hlocate := locate_eq hshows hpage'.sorted x dir
        have hpos : 0 < disk.numChildren := by
          rw [hshows.numChildren, length_map]
          exact length_pos_iff.mpr hpage'.ne_nil
        simp only [hpage] at h
        simp only [visitLoop, Nat.mod_eq_of_lt hlt, hread, hdeparse, ok_bind,
          assert_of hpos, hlocate, hshows.level]
        cases hiter : todo.or (dir.starts x page) with
        | none =>
          simp only [hiter] at h
          exact congrArg Except.ok (Option.some.inj h)
        | some iter =>
          simp only [hiter] at h
          by_cases hlevel : page.level = 0
          · by_cases hin : ∀ i ∈ iter, i < page.entries.length
            · simp only [if_pos hin] at h ⊢
              rw [visitLeaf_eq hshows hlevel hpage'.fits visitor hin, ok_bind]
              split_ifs at h ⊢ with hgo
              · exact ih h
              · exact congrArg Except.ok (Option.some.inj h)
            · simp only [if_pos hlevel, if_neg hin] at h
              cases h
          · simp only [if_neg hlevel] at h ⊢
            cases iter with
            | nil => exact ih h
            | cons idx iter =>
              simp only at h ⊢
              cases hentry : page.entries[idx]? with
              | none =>
                simp only [hentry] at h
                cases h
              | some e =>
                obtain ⟨hidx, rfl⟩ := List.getElem?_eq_some_iff.mp hentry
                have hvalue := hshows.value idx (by rwa [length_map])
                rw [getElem_map] at hvalue
                simp only [hentry] at h
                rw [hvalue, ok_bind, toBlknum_encode hlevel (hpage'.fits _ (getElem_mem hidx))]
                exact ih h

/-! ## Answers of a tree -/

/-- The reader answers searches for a key as the list of pairs does. A visit calls the visitor for
the pairs in order, until it returns `false`. -/
structure DiskBtreeReader.Answers (r : DiskBtreeReader) (pairs : List (Key L × ℕ)) (x : Key L) :
    Prop where
  get : ∃ m, ∀ fuel ≥ m, r.get x fuel = .ok (pairs.lookup x)
  intoStream : ∃ m, ∀ fuel ≥ m,
    r.intoStream x fuel = .ok ((pairs.filter (x ≤ ·.1)).map fun p ↦ (p.1.bytes, p.2))
  forwards : ∀ (S : Type) (visitor : S → List UInt8 → ℕ → S × Bool) (s : S), ∃ m, ∀ fuel ≥ m,
    r.visit x .forwards visitor s fuel =
      .ok (visitAll (fun s key ↦ visitor s key.bytes) (pairs.filter (x ≤ ·.1)) s)
  backwards : ∀ (S : Type) (visitor : S → List UInt8 → ℕ → S × Bool) (s : S), ∃ m, ∀ fuel ≥ m,
    r.visit x .backwards visitor s fuel = .ok (if pairs.filter (·.1 ≤ x) = [] then (s, false)
      else visitAll (fun s key ↦ visitor s key.bytes) (pairs.filter (·.1 ≤ x)).reverse s)

/-- The first pair from a key on decides whether the key is there. -/
theorem visitAll_get {pairs : List (Key L × ℕ)} (hsorted : pairs.Pairwise (·.1 < ·.1)) (x : Key L) :
    (visitAll (fun result (key : Key L) value ↦
      (if key.bytes = x.bytes then some value else result, false))
      (pairs.filter (x ≤ ·.1)) none).1 = pairs.lookup x := by
  induction pairs with
  | nil => rfl
  | cons p pairs ih =>
    have hrest (q : Key L × ℕ) (hq : q ∈ pairs) : p.1 < q.1 := rel_of_pairwise_cons hsorted hq
    rcases lt_trichotomy p.1 x with hlt | heq | hgt
    · rw [filter_cons_of_neg (by simpa using hlt), ih hsorted.of_cons, lookup_cons,
        beq_false_of_ne hlt.ne']
    · rw [lookup_cons, heq, beq_self_eq_true]
      simp [visitAll, heq]
    · have hnone : pairs.lookup x = none :=
        lookup_eq_none_iff.mpr fun q hq ↦ bne_iff_ne.mpr (hgt.trans (hrest q hq)).ne
      rw [filter_cons_of_pos (by simpa using hgt.le), lookup_cons, beq_false_of_ne hgt.ne, hnone]
      have hne : p.1.bytes ≠ x.bytes := fun h ↦ hgt.ne' (Key.ext h)
      simp [visitAll, hne]

theorem visitAll_collect (ps : List (Key L × ℕ)) (items : List (List UInt8 × ℕ)) :
    visitAll (fun items (key : Key L) value ↦ (items ++ [(key.bytes, value)], true)) ps items =
      (items ++ ps.map fun p ↦ (p.1.bytes, p.2), true) := by
  induction ps generalizing items with
  | nil => simp [visitAll]
  | cons p ps ih =>
    rw [visitAll, ih]
    simp

section Answers

variable {r : DiskBtreeReader} {blocks : List (List UInt8)}
    {written : List (Page (Key L))} {level : ℕ}
  {tree : Subtree (Key L)} (hpacked : List.Forall₂ Packed blocks written) (hreads : r.Reads blocks)
  (hroot : r.rootBlk = tree.num)
include hpacked hreads hroot

theorem visit_of_walks (x : Key L) (dir : VisitDirection) (visitor : S → List UInt8 → ℕ → S × Bool)
    {ps : List (Key L × ℕ)}
    (h : Walks (written[·]?) (dir.starts x) (fun s key ↦ visitor s key.bytes) tree.num ps) (s : S) :
    ∃ m, ∀ fuel ≥ m,
      r.visit x dir visitor s fuel = .ok (visitAll (fun s key ↦ visitor s key.bytes) ps s) := by
  obtain ⟨m, hm⟩ := h
  refine ⟨m, fun fuel hfuel ↦ ?_⟩
  obtain ⟨k, rfl⟩ := Nat.exists_eq_add_of_le' hfuel
  rw [visit, hroot]
  refine visitLoop_of_walk hpacked hreads x dir visitor ?_
  rw [hm k [] s, resume]
  split_ifs with hgo
  · rw [walk, ← hgo]
  · rfl

section

variable (hkept : Kept (written[·]?) (level + 1) tree)
include hkept

section

variable (hsorted : tree.pairs.Pairwise (·.1 < ·.1))
include hsorted

theorem visit_forwards (x : Key L) (visitor : S → List UInt8 → ℕ → S × Bool) (s : S) :
    ∃ m, ∀ fuel ≥ m, r.visit x .forwards visitor s fuel =
      .ok (visitAll (fun s key ↦ visitor s key.bytes) (tree.pairs.filter (x ≤ ·.1)) s) :=
  visit_of_walks hpacked hreads hroot x .forwards visitor (walks_forwards hkept hsorted) s

theorem visit_backwards (x : Key L) (visitor : S → List UInt8 → ℕ → S × Bool) (s : S) :
    ∃ m, ∀ fuel ≥ m, r.visit x .backwards visitor s fuel =
      .ok (if tree.pairs.filter (·.1 ≤ x) = [] then (s, false)
        else visitAll (fun s key ↦ visitor s key.bytes)
          (tree.pairs.filter (·.1 ≤ x)).reverse s) := by
  rcases le_or_gt tree.key x with hle | hgt
  · have hne : tree.pairs.filter (·.1 ≤ x) ≠ [] := by
      obtain ⟨v, hv⟩ := hkept.key_mem
      exact ne_nil_of_mem (mem_filter.mpr ⟨hv, decide_eq_true hle⟩)
    rw [if_neg hne]
    exact visit_of_walks hpacked hreads hroot x .backwards visitor
      (walks_backwards hkept hsorted hle) s
  · have hnil : tree.pairs.filter (·.1 ≤ x) = [] := by
      refine filter_eq_nil_iff.mpr fun p hp hpx ↦ ?_
      exact (hgt.trans_le (hkept.key_le hsorted hp)).not_ge (of_decide_eq_true hpx)
    rw [if_pos hnil]
    refine ⟨1, fun fuel hfuel ↦ ?_⟩
    obtain ⟨k, rfl⟩ := Nat.exists_eq_add_of_le' hfuel
    rw [visit, hroot]
    exact visitLoop_of_walk hpacked hreads x .backwards visitor
      (walk_backwards_of_lt hkept hsorted hgt k [] s)

theorem answers_of_kept (x : Key L) : r.Answers tree.pairs x := by
  refine ⟨?_, ?_, fun S ↦ visit_forwards hpacked hreads hroot hkept hsorted x,
    fun S ↦ visit_backwards hpacked hreads hroot hkept hsorted x⟩
  · obtain ⟨m, hm⟩ := visit_forwards hpacked hreads hroot hkept hsorted x
      (fun result key value ↦ (if key = x.bytes then some value else result, false)) none
    refine ⟨m, fun fuel hfuel ↦ ?_⟩
    rw [DiskBtreeReader.get, hm fuel hfuel]
    exact congrArg Except.ok (visitAll_get hsorted x)
  · obtain ⟨m, hm⟩ := visit_forwards hpacked hreads hroot hkept hsorted x
      (fun items key value ↦ (items ++ [(key, value)], true)) []
    refine ⟨m, fun fuel hfuel ↦ ?_⟩
    have hvisit := hm fuel hfuel
    rw [visit, visitAll_collect] at hvisit
    rw [intoStream, hvisit, ok_bind]
    rfl

end

end

end Answers

/-- **A disk B-tree answers exactly.**  For keys of any length from 1 to 255 bytes and any non-empty
list of pairs in strictly ascending order, with values that can be stored, the builder returns a
tree whose reader answers all searches as the list does, unless the writer fails to write a block;
the writer has at most 33 blocks more than there are pairs then. -/
theorem diskBtree_exact {W : Type} (bw : BlockWriter W) {w : W} (hw : bw.blocks w = []) (hL : 1 ≤ L)
    (hmax : L ≤ 255) {pairs : List (Key L × ℕ)} (hne : pairs ≠ [])
    (hsorted : pairs.Pairwise (·.1 < ·.1)) (hvalues : ∀ p ∈ pairs, p.2 ≤ maxValue) :
    (DiskBtreeBuilder.build bw w pairs = .error (.error .io) ∧ WriterFails bw (pairs.length + 33)) ∨
    ∃ root w', DiskBtreeBuilder.build bw w pairs = .ok (root, w') ∧
      ∀ r : DiskBtreeReader, r.rootBlk = root → r.Reads (bw.blocks w') →
        ∀ searchKey : Key L, r.Answers pairs searchKey := by
  obtain hfails | ⟨w', written, level, tree, hbuild, hstored, hkept, rfl⟩ :=
    build_spec hL hmax hw hne hsorted hvalues
  · exact .inl hfails
  · exact .inr ⟨tree.num, w', hbuild, fun r hroot hreads ↦
      answers_of_kept hstored.packed hreads hroot hkept hsorted⟩

/-- The writer of the layer files, which keeps the blocks in memory. -/
def blockBuf : BlockWriter (List (List UInt8)) where
  writeBlk blocks buf := if blocks.length <
    2 ^ 32 then some (blocks.length, blocks ++ [buf]) else none
  blocks := id
  writeBlk_eq {w buf n w'} h := by
    split_ifs at h with hlt
    cases h
    exact ⟨rfl, hlt, rfl⟩

theorem not_writerFails_blockBuf {n : ℕ} (hn : n < 2 ^ 32) : ¬ WriterFails blockBuf n := by
  rintro ⟨w, buf, hnone, hlen⟩
  have hsome : blockBuf.writeBlk w buf = some (w.length, w ++ [buf]) :=
    if_pos (lt_of_le_of_lt hlen hn)
  cases hsome.symm.trans hnone

/-- Two keys of one byte. -/
theorem diskBtree_exact_two :
    let pairs : List (Key 1 × ℕ) := [(⟨[3], rfl⟩, 7), (⟨[5], rfl⟩, maxValue)]
    ∃ root blocks, DiskBtreeBuilder.build blockBuf [] pairs = .ok (root, blocks) ∧
      ∀ r : DiskBtreeReader, r.rootBlk = root → r.Reads blocks →
        ∀ searchKey : Key 1, r.Answers pairs searchKey := by
  intro pairs
  exact (diskBtree_exact blockBuf rfl le_rfl (by decide) (by simp [pairs]) (by decide)
    (by decide)).resolve_left fun h ↦ not_writerFails_blockBuf (by decide) h.2

end NeonStorage.Pageserver.DiskBtree
