import Mathlib.Data.List.Lex
import NeonStorage.Lib.BinarySearch
import NeonStorage.Lib.Wire
import NeonStorage.Lib.Snoc

/-!
# Nodes of the disk B-tree

The pages of the B-tree index of a layer file (`tenant/disk_btree.rs`). A page has the keys of a
node without the prefix that they share, then the values, all of fixed length.

* `BuildNode` is a node under construction: keys are pushed to it in ascending order, and once it is
  full it takes the common prefix out of its keys (`compress`) to make room.
* `BuildNode.Holds` relates it to the list of its entries. `push` and `compress` keep the relation,
  and a node that refuses a key has at least two entries.
* `deparse_pack`: the node that is read from the page of a `BuildNode` shows the same entries.
* `OnDiskNode.Shows.binarySearch`: in such a node the search gives the position of the key.

Functions of the source that assert or index slices end in `Failure.panic` where it would.
-/

namespace NeonStorage.Pageserver.DiskBtree

open List
open NeonStorage

instance linearOrderByte : LinearOrder UInt8 where
  le_refl := UInt8.le_refl
  le_trans _ _ _ := UInt8.le_trans
  le_antisymm _ _ := UInt8.le_antisymm
  le_total := UInt8.le_total
  lt_iff_le_not_ge a b := Std.LawfulOrderLT.lt_iff a b
  toDecidableLE := inferInstance

/-! ## Keys, values and failures -/

@[ext]
structure Key (L : ℕ) where
  bytes : List UInt8
  length_bytes : bytes.length = L

/-- Keys are ordered as their bytes. -/
instance {L : ℕ} : LinearOrder (Key L) :=
  LinearOrder.lift' Key.bytes fun _ _ h ↦ Key.ext h

def valueSz : ℕ := 5

def maxValue : ℕ := 0x7fffffffff

def pageSz : ℕ := 8192

def nodeHdrSize : ℕ := 2 + 1 + 1 + 1

inductive DiskBtreeError (L : ℕ) where
  | appendOverflow (value : ℕ)
  | unsortedInput (key lastKey : Key L)
  | failedToPushToNewLeafNode
  | io
  deriving DecidableEq

/-- Why a call gives no result: an error, a panic, or a loop that the model cuts off. -/
inductive Failure (L : ℕ) where
  | error (e : DiskBtreeError L)
  | panic
  | fuel
  deriving DecidableEq

variable {L : ℕ} {α β : Type}

def assert (p : Prop) [Decidable p] : Except (Failure L) Unit :=
  if p then .ok () else .error .panic

def slice (buf : List UInt8) (off len : ℕ) : Except (Failure L) (List UInt8) :=
  if off + len ≤ buf.length then .ok ((buf.drop off).take len) else .error .panic

@[simp] theorem ok_bind (a : α) (f : α → Except (Failure L) β) : (Except.ok a >>= f) = f a := rfl

theorem assert_of {p : Prop} [Decidable p] (h : p) :
    (assert p : Except (Failure L) Unit) = .ok () :=
  if_pos h

/-- Five bytes: a number below `2 ^ 39`, or a block number after a byte with the highest bit. -/
abbrev Value := {b : List UInt8 // b.length = valueSz}

namespace Value

def fromSlice (bytes : List UInt8) : Except (Failure L) Value :=
  if h : bytes.length = valueSz then .ok ⟨bytes, h⟩ else .error .panic

def fromU64 (x : ℕ) : Except (Failure L) Value := do
  assert (x ≤ 0x7fffffffff)
  return ⟨beBytes 5 x, length_beBytes 5 x⟩

def fromBlknum (x : ℕ) : Value := ⟨0x80 :: beBytes 4 x, congrArg (· + 1) (length_beBytes 4 x)⟩

def toU64 (v : Value) : ℕ := beNat v.1

def toBlknum (v : Value) : Except (Failure L) ℕ := do
  assert (v.1.head? = some 0x80)
  return beNat v.1.tail

end Value

/-! ## A node under construction -/

structure BuildNode where
  numChildren : ℕ
  level : ℕ
  nodePrefix : List UInt8
  suffixLen : ℕ
  keys : List UInt8
  values : List UInt8
  size : ℕ
  deriving DecidableEq

/-- The length of the common prefix of two suffixes, as the loop of `compress` finds it. -/
def commonPrefixLen : List UInt8 → List UInt8 → ℕ
  | a :: as, b :: bs => if a = b then commonPrefixLen as bs + 1 else 0
  | _, _ => 0

/-- The loop of `compress` that rewrites the keys without the common prefix. -/
def stripKeys (suffixLen prefixLen : ℕ) : ℕ → List UInt8 → List UInt8
  | 0, _ => []
  | fuel + 1, keys => if keys = [] then [] else
      (keys.take suffixLen).drop prefixLen ++ stripKeys suffixLen prefixLen fuel
        (keys.drop suffixLen)

namespace BuildNode

def new (level : ℕ) : BuildNode := ⟨0, level, [], 0, [], [], nodeHdrSize⟩

variable (node : BuildNode)

/-- Add an entry to the node; `false` if it is full, or the key does not have the prefix. -/
def push (key : Key L) (value : Value) : Except (Failure L) (BuildNode × Bool) := do
  if 0 < node.numChildren ∧ node.nodePrefix.isPrefixOf key.1 = false then
    return (node, false)
  else
    let node := if 0 < node.numChildren then node else { node with suffixLen := key.1.length }
    if node.size + node.suffixLen + valueSz ≥ pageSz then
      return (node, false)
    else
      let node := { node with
        numChildren := (node.numChildren + 1) % 2 ^ 16
        keys := node.keys ++ key.1.drop node.nodePrefix.length
        values := node.values ++ value.1 }
      assert (node.keys.length = node.numChildren * node.suffixLen)
      assert (node.values.length = node.numChildren * valueSz)
      return ({ node with size := node.size + (node.suffixLen + valueSz) }, true)

def firstSuffix : Except (Failure L) (List UInt8) :=
  slice node.keys 0 node.suffixLen

def lastSuffix : Except (Failure L) (List UInt8) := do
  assert (node.suffixLen ≤ node.keys.length)
  slice node.keys (node.keys.length - node.suffixLen) node.suffixLen

/-- Move what the keys have in common to the prefix; `false` if that is nothing. -/
def compress : Except (Failure L) (BuildNode × Bool) := do
  let first ← node.firstSuffix
  let last ← node.lastSuffix
  let prefixLen := commonPrefixLen first last
  if prefixLen = 0 then
    return (node, false)
  else
    let node := { node with
      nodePrefix := node.nodePrefix ++ node.keys.take prefixLen
      keys := stripKeys node.suffixLen prefixLen node.keys.length node.keys
      suffixLen := node.suffixLen - prefixLen
      size := node.size - prefixLen * node.numChildren + prefixLen }
    assert (node.keys.length = node.numChildren * node.suffixLen)
    assert (node.values.length = node.numChildren * valueSz)
    return (node, true)

/-- The bytes of the node before they are padded to a page. -/
def bytes : List UInt8 :=
  beBytes 2 node.numChildren ++ (beBytes 1 node.level ++ (beBytes 1 node.nodePrefix.length ++
    (beBytes 1 node.suffixLen ++ (node.nodePrefix ++ (node.keys ++ node.values)))))

def pack : Except (Failure L) (List UInt8) := do
  assert (node.keys.length = node.numChildren * node.suffixLen)
  assert (node.values.length = node.numChildren * valueSz)
  assert (0 < node.numChildren)
  assert (node.bytes.length = node.size)
  assert (node.bytes.length ≤ pageSz)
  return node.bytes ++ List.replicate (pageSz - node.bytes.length) 0

def firstKey : Except (Failure L) (Key L) := do
  let suffix ← node.firstSuffix
  if h : (node.nodePrefix ++ suffix).length = L then return ⟨node.nodePrefix ++ suffix, h⟩
  else .error .panic

end BuildNode

/-! ## A node in a page -/

structure OnDiskNode where
  numChildren : ℕ
  level : ℕ
  prefixLen : ℕ
  suffixLen : ℕ
  nodePrefix : List UInt8
  keys : List UInt8
  values : List UInt8

/-- Read a fixed-width field from the front, or fail at the end of the buffer. -/
def readBe (n : ℕ) (buf : List UInt8) : Except (Failure L) (ℕ × List UInt8) :=
  match getBe n buf with
  | some r => .ok r
  | none => .error (.error .io)

namespace OnDiskNode

def deparse (buf : List UInt8) : Except (Failure L) OnDiskNode := do
  let (numChildren, rest) ← readBe 2 buf
  let (level, rest) ← readBe 1 rest
  let (prefixLen, rest) ← readBe 1 rest
  let (suffixLen, _) ← readBe 1 rest
  let keysOff := nodeHdrSize + prefixLen
  let keysLen := numChildren * suffixLen
  let nodePrefix ← slice buf nodeHdrSize prefixLen
  let keys ← slice buf keysOff keysLen
  let values ← slice buf (keysOff + keysLen) (numChildren * valueSz)
  return { numChildren, level, prefixLen, suffixLen, nodePrefix, keys, values }

variable (node : OnDiskNode)

def value (idx : ℕ) : Except (Failure L) Value := do
  Value.fromSlice (← slice node.values (idx * valueSz) valueSz)

/-- The key at `idx`, put together in the key buffer of the reader. The slice is within the keys of
a node that `deparse` returned. -/
def key (idx : ℕ) : List UInt8 :=
  node.nodePrefix ++ (node.keys.drop (idx * node.suffixLen)).take node.suffixLen

def binarySearch (searchKey : Key L) : Except ℕ ℕ :=
  BinarySearch.search (fun mid ↦ cmp (node.key mid) searchKey.1) node.numChildren 0 node.numChildren

end OnDiskNode

/-! ## Common prefixes -/

theorem commonPrefixLen_le (a b : List UInt8) : commonPrefixLen a b ≤ a.length := by
  fun_induction commonPrefixLen a b with
  | case1 a as bs ih => simpa using ih
  | case2 => simp
  | case3 => simp

theorem take_commonPrefixLen (a b : List UInt8) :
    a.take (commonPrefixLen a b) = b.take (commonPrefixLen a b) := by
  fun_induction commonPrefixLen a b with
  | case1 a as bs ih => simpa using ih
  | case2 => rfl
  | case3 => rfl

theorem prefix_of_between {p a b k : List UInt8} (ha : p <+: a) (hb : p <+: b) (hak : ¬ k < a)
    (hkb : ¬ b < k) : p <+: k := by
  induction p generalizing a b k with
  | nil => exact nil_prefix
  | cons c p ih =>
    obtain ⟨a, rfl⟩ := ha
    obtain ⟨b, rfl⟩ := hb
    cases k with
    | nil => exact absurd (nil_lt_cons _ _) hak
    | cons d k =>
      rw [cons_append, cons_lt_cons_iff, not_or, not_and] at hak hkb
      obtain rfl : d = c := le_antisymm (not_lt.mp hkb.1) (not_lt.mp hak.1)
      exact (prefix_cons_inj d).mpr
        (ih (prefix_append _ _) (prefix_append _ _) (hak.2 rfl) (hkb.2 rfl))

theorem length_suffix (n : ℕ) (e : Key L × Value) : (e.1.1.drop n).length = L - n := by
  rw [length_drop, e.1.2]

variable {f : α → List UInt8}

theorem stripKeys_flatMap {suffixLen : ℕ} (prefixLen : ℕ) (hpos : 0 < suffixLen)
    (hlen : ∀ a, (f a).length = suffixLen) {fuel : ℕ} {as : List α} (hfuel : as.length ≤ fuel) :
    stripKeys suffixLen prefixLen fuel (as.flatMap f) = as.flatMap fun a ↦
      (f a).drop prefixLen := by
  induction as generalizing fuel with
  | nil => cases fuel <;> rfl
  | cons a as ih =>
    cases fuel with
    | zero => cases hfuel
    | succ fuel =>
      have hne : f a ++ as.flatMap f ≠ [] := by
        intro hnil
        have := hlen a
        rw [(append_eq_nil_iff.mp hnil).1] at this
        exact hpos.ne this
      rw [flatMap_cons, flatMap_cons, stripKeys, if_neg hne, take_left' (hlen a),
        drop_left' (hlen a), ih (Nat.le_of_succ_le_succ hfuel)]

theorem slice_flatMap {size : ℕ} (hlen : ∀ a, (f a).length = size) {as : List α}
    {i : ℕ} (hi : i < as.length) :
    (slice (as.flatMap f) (i * size) size : Except (Failure L) (List UInt8)) = .ok (f as[i]) := by
  have hle := Nat.mul_le_mul_right size (show i + 1 ≤ as.length from hi)
  rw [slice, if_pos (by rwa [length_flatMap_of_length hlen, ← Nat.succ_mul]),
    take_drop_flatMap hlen]

/-! ## What a node under construction holds -/

/-- The keys of the entries are the prefix and the suffixes of the node. -/
structure BuildNode.Holds (node : BuildNode) (entries : List (Key L × Value)) : Prop where
  numChildren : node.numChildren = entries.length
  keys : node.keys = entries.flatMap fun e ↦ e.1.1.drop node.nodePrefix.length
  values : node.values = entries.flatMap fun e ↦ e.2.1
  hasPrefix : ∀ e ∈ entries, node.nodePrefix <+: e.1.1
  suffixLen : entries ≠ [] → node.suffixLen = L - node.nodePrefix.length
  size : node.size = nodeHdrSize + node.nodePrefix.length +
    entries.length * (L - node.nodePrefix.length + valueSz)
  size_lt : node.size < pageSz
  two_le : node.nodePrefix ≠ [] → 2 ≤ entries.length
  sorted : entries.Pairwise (·.1 < ·.1)

theorem BuildNode.holds_new (level : ℕ) : (new level).Holds ([] : List (Key L × Value)) where
  numChildren := rfl
  keys := rfl
  values := rfl
  hasPrefix _ h := nomatch h
  suffixLen h := absurd rfl h
  size := by simp [new]
  size_lt := by simp [new, nodeHdrSize, pageSz]
  two_le h := absurd rfl h
  sorted := .nil

variable {n : ℕ}

namespace BuildNode.Holds

variable {node : BuildNode} {entries : List (Key L × Value)} {key : Key L}

theorem length_keys (h : node.Holds entries) :
    node.keys.length = node.numChildren * (L - node.nodePrefix.length) := by
  rw [h.keys, h.numChildren, length_flatMap_of_length (length_suffix _)]

theorem length_values (h : node.Holds entries) :
    node.values.length = node.numChildren * valueSz := by
  rw [h.values, h.numChildren, length_flatMap_of_length fun e ↦ e.2.2]

section

variable (hL : 0 < L)
include hL

theorem prefix_lt (h : node.Holds entries) : node.nodePrefix.length < L := by
  by_cases hnil : node.nodePrefix = []
  · rwa [hnil]
  · have htwo := h.two_le hnil
    match entries, htwo, h.hasPrefix, h.sorted with
    | a :: b :: _, _, hpre, hsorted =>
      have ha := hpre a (by simp)
      have hb := hpre b (by simp)
      refine lt_of_le_of_ne (a.1.2 ▸ ha.length_le) fun heq ↦ ?_
      have hab : a.1 = b.1 := Key.ext
        ((ha.eq_of_length (heq.trans a.1.2.symm)).symm.trans
          (hb.eq_of_length (heq.trans b.1.2.symm)))
      exact (rel_of_pairwise_cons hsorted mem_cons_self).ne hab

theorem length_lt (h : node.Holds entries) : entries.length < 2 ^ 15 := by
  have hlt := h.size_lt
  have hp := h.prefix_lt hL
  rw [h.size] at hlt
  simp only [nodeHdrSize, valueSz, pageSz] at hlt
  have := Nat.mul_le_mul_left entries.length (show 1 ≤ L - node.nodePrefix.length + 5 by omega)
  omega

omit hL in
theorem setSuffixLen (h : node.Holds entries) (hne : entries ≠ []) :
    { node with suffixLen := L - node.nodePrefix.length } = node := by
  rw [← h.suffixLen hne]

/-- A key that comes after the others is pushed, unless there are at least two entries already. -/
theorem push (hmax : L ≤ 255) (h : node.Holds entries) (hlt : ∀ e ∈ entries, e.1 < key)
    (value : Value) :
    (∃ node', node.push key value = .ok (node', true) ∧ node'.Holds (entries ++ [(key, value)]) ∧
      node'.level = node.level) ∨ (node.push key value = .ok (node, false) ∧
        2 ≤ entries.length) := by
  have hempty (hnil : entries = []) : node.nodePrefix = [] := by
    by_contra hne
    have := h.two_le hne
    simp [hnil] at this
  by_cases hpre : 0 < node.numChildren ∧ node.nodePrefix.isPrefixOf key.1 = false
  · refine .inr ⟨by rw [BuildNode.push, if_pos hpre]; rfl, h.two_le fun hnil ↦ ?_⟩
    simp [hnil] at hpre
  -- The length of the suffixes is set by the first key.
  obtain ⟨hkey, hready⟩ : node.nodePrefix <+: key.1 ∧
      (if 0 < node.numChildren then node else { node with suffixLen := key.1.length }) =
        { node with suffixLen := L - node.nodePrefix.length } := by
    by_cases hnil : entries = []
    · have hzero : node.numChildren = 0 := by rw [h.numChildren, hnil, length_nil]
      simp [hempty hnil, hzero, key.2]
    · have hpos : 0 < node.numChildren := h.numChildren ▸ length_pos_iff.mpr hnil
      refine ⟨ isPrefixOf_iff_prefix.mp (Bool.of_not_eq_false fun hf ↦ hpre ⟨hpos, hf⟩), ?_⟩
      rw [if_pos hpos, h.setSuffixLen hnil]
  by_cases hfull : node.size + (L - node.nodePrefix.length) + valueSz ≥ pageSz
  · have htwo : 2 ≤ entries.length := by
      by_contra hone
      have hnil : node.nodePrefix = [] := by
        by_contra hne
        exact hone (h.two_le hne)
      have hle := Nat.mul_le_mul_right (L + valueSz) (show entries.length ≤ 1 by omega)
      rw [h.size, hnil] at hfull
      simp only [length_nil, Nat.sub_zero, nodeHdrSize, valueSz, pageSz] at hfull hle
      omega
    refine .inr ⟨?_, htwo⟩
    rw [BuildNode.push, if_neg hpre]
    simp only [hready, if_pos hfull]
    rw [h.setSuffixLen (ne_nil_of_length_pos (by omega))]
    rfl
  · have hnum : (node.numChildren + 1) % 2 ^ 16 = entries.length + 1 := by
      have := h.length_lt hL
      rw [h.numChildren, Nat.mod_eq_of_lt (by omega)]
    refine .inl ⟨{ node with
      suffixLen := L - node.nodePrefix.length
      numChildren := entries.length + 1
      keys := node.keys ++ key.1.drop node.nodePrefix.length
      values := node.values ++ value.1
      size := node.size + (L - node.nodePrefix.length + valueSz) }, ?_, ?_, rfl⟩
    · rw [BuildNode.push, if_neg hpre]
      simp only [hready, if_neg hfull, hnum]
      rw [assert_of, assert_of]
      · rfl
      · rw [length_append, h.length_values, h.numChildren, value.2, Nat.succ_mul]
      · rw [length_append, h.length_keys, h.numChildren, length_drop, key.2, Nat.succ_mul]
    · exact {
        numChildren := by simp
        keys := by simp [h.keys]
        values := by simp [h.values]
        hasPrefix := forall_mem_snoc.mpr ⟨h.hasPrefix, hkey⟩
        suffixLen := fun _ ↦ rfl
        size := by
          simp only [h.size, length_append, length_singleton, Nat.succ_mul]
          omega
        size_lt := by
          simp only
          omega
        two_le := fun hne ↦ (h.two_le hne).trans (by simp)
        sorted := pairwise_snoc.mpr ⟨h.sorted, hlt⟩ }

section

variable (h : node.Holds entries)
include h

section

variable (hne : entries ≠ [])
include hne

omit hL in
theorem firstSuffix : (node.firstSuffix : Except (Failure L) (List UInt8)) =
      .ok ((entries.head hne).1.1.drop node.nodePrefix.length) := by
  have hlen := length_suffix (L := L) node.nodePrefix.length
  have hslice := slice_flatMap (L := L) hlen (length_pos_iff.mpr hne)
  rw [Nat.zero_mul] at hslice
  rw [BuildNode.firstSuffix, h.keys, h.suffixLen hne, hslice, head_eq_getElem]

omit hL in
theorem lastSuffix : (node.lastSuffix : Except (Failure L) (List UInt8)) =
      .ok ((entries.getLast hne).1.1.drop node.nodePrefix.length) := by
  have hlen := length_suffix (L := L) node.nodePrefix.length
  have hpos := length_pos_iff.mpr hne
  have hslice := slice_flatMap (L := L) hlen (show entries.length - 1 < entries.length by omega)
  have hle := Nat.mul_le_mul_right (L - node.nodePrefix.length) hpos
  rw [BuildNode.lastSuffix, h.length_keys, h.suffixLen hne, h.numChildren,
    assert_of (by omega), ok_bind, ← Nat.sub_one_mul, h.keys, hslice, getLast_eq_getElem]

omit hL in
theorem length_take_keys (hle : n ≤ L - node.nodePrefix.length) :
    (node.keys.take n).length = n := by
  have hone := Nat.mul_le_mul_right (L - node.nodePrefix.length) (length_pos_iff.mpr hne)
  rw [length_take, h.length_keys, h.numChildren]
  omega

omit hL in
/-- What the first and the last key have in common, all keys have. -/
theorem prefix_append_take
    (hn : commonPrefixLen ((entries.head hne).1.1.drop node.nodePrefix.length)
      ((entries.getLast hne).1.1.drop node.nodePrefix.length) = n)
    {e : Key L × Value} (he : e ∈ entries) : node.nodePrefix ++ node.keys.take n <+: e.1.1 := by
  obtain ⟨k, hk⟩ : ∃ k, k = node.nodePrefix.length := ⟨_, rfl⟩
  have hlast := take_commonPrefixLen ((entries.head hne).1.1.drop k)
    ((entries.getLast hne).1.1.drop k)
  have hle := commonPrefixLen_le ((entries.head hne).1.1.drop k) ((entries.getLast hne).1.1.drop k)
  rw [← hk] at hn
  rw [hn] at hlast hle
  have hfirst : node.keys.take n = ((entries.head hne).1.1.drop k).take n := by
    conv_lhs => rw [h.keys, ← cons_head_tail hne, flatMap_cons, ← hk, take_append_of_le_length hle]
  have hof (d : Key L × Value) (hd : d ∈ entries) :
      node.nodePrefix ++ (d.1.1.drop k).take n <+: d.1.1 := by
    obtain ⟨rest, hrest⟩ := h.hasPrefix d hd
    rw [← hrest, hk, drop_left]
    exact (prefix_append_right_inj _).mpr ( take_prefix _ _)
  have hsorted := pairwise_iff_getElem.mp h.sorted
  obtain ⟨i, hi, rfl⟩ := getElem_of_mem he
  refine prefix_of_between (hfirst ▸ hof _ (head_mem hne))
    (hfirst ▸ hlast ▸ hof _ (getLast_mem hne)) ?_ ?_
  · rw [head_eq_getElem, not_lt]
    rcases Nat.eq_zero_or_pos i with rfl | hpos
    · exact le_rfl
    · exact (hsorted 0 i (by omega) hi hpos).le
  · rw [getLast_eq_getElem, not_lt]
    rcases Nat.lt_or_ge i (entries.length - 1) with hlt | hge
    · exact (hsorted i _ hi (by omega) hlt).le
    · have : i = entries.length - 1 := by omega
      subst this
      exact le_rfl

end

omit hL in
theorem strip (htwo : 2 ≤ entries.length) (hle : n ≤ L - node.nodePrefix.length)
    (hpre : ∀ e ∈ entries, node.nodePrefix ++ node.keys.take n <+: e.1.1) : { node with
      nodePrefix := node.nodePrefix ++ node.keys.take n
      keys := entries.flatMap fun e ↦ (e.1.1.drop node.nodePrefix.length).drop n
      suffixLen := L - node.nodePrefix.length - n
      size := node.size - n * entries.length + n : BuildNode }.Holds entries := by
  have hne : entries ≠ [] := ne_nil_of_length_pos (by omega)
  have hlen := h.length_take_keys hne hle
  have hmul : entries.length * (L - node.nodePrefix.length + valueSz) =
      entries.length * (L - node.nodePrefix.length - n + valueSz) + n * entries.length := by
    rw [Nat.mul_comm n, ← Nat.mul_add]
    congr 1
    omega
  have hone := Nat.mul_le_mul_left n (show 1 ≤ entries.length by omega)
  have hsize := h.size
  have hlt := h.size_lt
  exact {
    numChildren := h.numChildren
    keys := by simp only [length_append, hlen, drop_drop]
    values := h.values
    hasPrefix := hpre
    suffixLen := fun _ ↦ by simp only [length_append, hlen, Nat.sub_sub]
    size := by
      simp only [length_append, hlen, ← Nat.sub_sub]
      omega
    size_lt := by
      simp only
      omega
    two_le := fun _ ↦ htwo
    sorted := h.sorted }

theorem compress (htwo : 2 ≤ entries.length) :
    ∃ node' shorter, (node.compress : Except (Failure L) (BuildNode × Bool)) =
      .ok (node', shorter) ∧
      node'.Holds entries ∧ node'.level = node.level := by
  have hp := h.prefix_lt hL
  have hne : entries ≠ [] := ne_nil_of_length_pos (by omega)
  obtain ⟨n, hn⟩ : ∃ n, commonPrefixLen ((entries.head hne).1.1.drop node.nodePrefix.length)
      ((entries.getLast hne).1.1.drop node.nodePrefix.length) = n := ⟨_, rfl⟩
  rw [BuildNode.compress, h.firstSuffix hne, ok_bind, h.lastSuffix hne, ok_bind]
  simp only [hn]
  by_cases hzero : n = 0
  · rw [if_pos hzero]
    exact ⟨node, false, rfl, h, rfl⟩
  have hle : n ≤ L - node.nodePrefix.length := by
    rw [← hn]
    refine (commonPrefixLen_le _ _).trans_eq ?_
    rw [length_drop, (entries.head hne).1.2]
  have hlen := length_suffix (L := L) node.nodePrefix.length
  have hkeys : stripKeys node.suffixLen n node.keys.length node.keys =
      entries.flatMap fun e ↦ (e.1.1.drop node.nodePrefix.length).drop n := by
    have hfuel := Nat.mul_le_mul_left entries.length (show 1 ≤ L - node.nodePrefix.length by omega)
    rw [h.suffixLen hne, h.length_keys, h.numChildren, h.keys,
      stripKeys_flatMap n (by omega) hlen (by omega)]
  refine ⟨_, true, ?_, h.strip htwo hle fun e he ↦ h.prefix_append_take hne hn he, rfl⟩
  rw [if_neg hzero, hkeys, h.suffixLen hne, h.numChildren, assert_of, ok_bind, assert_of]
  · rw [← h.numChildren]
    rfl
  · rw [h.length_values, h.numChildren]
  · rw [length_flatMap_of_length fun e ↦ by rw [length_drop, hlen]]

omit hL in
theorem firstKey (hne : entries ≠ []) :
    (node.firstKey : Except (Failure L) (Key L)) = .ok (entries.head hne).1 := by
  have hkey : node.nodePrefix ++ (entries.head hne).1.1.drop node.nodePrefix.length =
      (entries.head hne).1.1 := by
    obtain ⟨rest, hrest⟩ := h.hasPrefix _ (head_mem hne)
    rw [← hrest, drop_left]
  have hlen := (congrArg List.length hkey).trans (entries.head hne).1.2
  rw [BuildNode.firstKey, h.firstSuffix hne, ok_bind, dif_pos hlen]
  exact congrArg Except.ok (Key.ext hkey)

omit hL in
theorem length_bytes : node.bytes.length = node.size := by
  simp only [bytes, length_append, length_beBytes, h.length_keys, h.length_values, h.numChildren,
    h.size, nodeHdrSize, Nat.mul_add]
  omega

end

end

end BuildNode.Holds

/-! ## Reading a page back -/

theorem slice_append {a b c : List UInt8} {off len : ℕ} (ha : a.length = off)
    (hb : b.length = len) :
    (slice (a ++ (b ++ c)) off len : Except (Failure L) (List UInt8)) = .ok b := by
  rw [slice, if_pos (by simp only [length_append]; omega), drop_left' ha, take_left' hb]

theorem readBe_append {x : ℕ} (rest : List UInt8) (h : x < 256 ^ n) :
    (readBe n (beBytes n x ++ rest) : Except (Failure L) (ℕ × List UInt8)) = .ok (x, rest) := by
  rw [readBe, getBe_append rest h]

theorem deparse_append {level k m : ℕ} {pre keys values : List UInt8} (rest : List UInt8)
    (hn : n < 256 ^ 2) (hlevel : level < 256 ^ 1) (hk : k < 256 ^ 1) (hm : m < 256 ^ 1)
    (hpre : pre.length = k) (hkeys : keys.length = n * m) (hvalues : values.length = n * valueSz) :
    (OnDiskNode.deparse (beBytes 2 n ++ (beBytes 1 level ++ (beBytes 1 k ++ (beBytes 1 m ++
      (pre ++ (keys ++ (values ++ rest))))))) : Except (Failure L) OnDiskNode) =
      .ok ⟨n, level, k, m, pre, keys, values⟩ := by
  obtain ⟨header, hheader⟩ : ∃ header, header =
      beBytes 2 n ++ (beBytes 1 level ++ (beBytes 1 k ++ beBytes 1 m)) := ⟨_, rfl⟩
  have hlen : header.length = nodeHdrSize := by
    rw [hheader]
    simp only [length_append, length_beBytes, nodeHdrSize]
  have hbuf (tail : List UInt8) : beBytes 2 n ++ (beBytes 1 level ++ (beBytes 1 k ++
      (beBytes 1 m ++ tail))) = header ++ tail := by
    rw [hheader]
    simp only [append_assoc]
  have hslice₁ := slice_append (L := L) (c := keys ++ (values ++ rest)) hlen hpre
  have hslice₂ := slice_append (L := L) (a := header ++ pre) (c := values ++ rest)
    (by rw [length_append, hlen, hpre]) hkeys
  have hslice₃ := slice_append (L := L) (a := header ++ pre ++ keys) (c := rest)
    (by rw [length_append, length_append, hlen, hpre, hkeys]) hvalues
  simp only [append_assoc] at hslice₂ hslice₃
  rw [OnDiskNode.deparse, readBe_append _ hn]
  simp only [readBe_append _ hlevel, readBe_append _ hk, readBe_append _ hm, ok_bind, hbuf, hslice₁,
    hslice₂, hslice₃]
  rfl

/-- What a reader finds in a node. -/
structure OnDiskNode.Shows (node : OnDiskNode) (level : ℕ) (entries : List (Key L × Value)) :
    Prop where
  level : node.level = level
  numChildren : node.numChildren = entries.length
  key : ∀ i (hi : i < entries.length), node.key i = entries[i].1.1
  value : ∀ i (hi : i < entries.length),
    (node.value i : Except (Failure L) Value) = .ok entries[i].2

variable {entries : List (Key L × Value)} {node : BuildNode}

theorem BuildNode.Holds.shows (h : node.Holds entries) (hne : entries ≠ []) :
    OnDiskNode.Shows ⟨node.numChildren, node.level, node.nodePrefix.length, node.suffixLen,
      node.nodePrefix, node.keys, node.values⟩ node.level entries where
  level := rfl
  numChildren := h.numChildren
  key i hi := by
    have hkey := take_drop_flatMap (length_suffix node.nodePrefix.length) entries hi
    obtain ⟨rest, hrest⟩ := h.hasPrefix _ (getElem_mem hi)
    rw [OnDiskNode.key, h.keys, h.suffixLen hne, hkey, ← hrest, drop_left]
  value i hi := by
    rw [OnDiskNode.value, h.values, slice_flatMap (fun e : Key L × Value ↦ e.2.2) hi, ok_bind,
      Value.fromSlice, dif_pos entries[i].2.2]

/-- **A node that is packed into a page is read from it with the same entries.** -/
theorem deparse_pack (hL : 0 < L) (hmax : L ≤ 255)
    (h : node.Holds entries) (hne : entries ≠ []) (hlevel : node.level < 256) :
    ∃ buf disk, (node.pack : Except (Failure L) (List UInt8)) = .ok buf ∧ buf.length = pageSz ∧
      (OnDiskNode.deparse buf : Except (Failure L) OnDiskNode) = .ok disk ∧
      disk.Shows node.level entries := by
  have hlen := h.length_bytes
  have hlt := h.size_lt
  have hp := h.prefix_lt hL
  have hcount := h.length_lt hL
  have hsuffix := h.suffixLen hne
  have hkeys : node.keys.length = node.numChildren * node.suffixLen := by
    rw [h.length_keys, hsuffix]
  have hn := h.numChildren
  refine ⟨node.bytes ++ List.replicate (pageSz - node.bytes.length) 0, _, ?_, ?_, ?_, h.shows hne⟩
  · rw [BuildNode.pack, assert_of hkeys, ok_bind, assert_of h.length_values, ok_bind,
      assert_of (hn ▸ length_pos_iff.mpr hne), ok_bind, assert_of hlen, ok_bind,
      assert_of (by omega), ok_bind]
    rfl
  · rw [length_append, length_replicate]
    omega
  · simp only [BuildNode.bytes, append_assoc]
    exact deparse_append _ (by omega) (by omega) (by omega) (by omega) rfl hkeys h.length_values

theorem OnDiskNode.Shows.binarySearch {node : OnDiskNode} {level : ℕ}
    (h : node.Shows level entries) (hsorted : entries.Pairwise (·.1 < ·.1)) (x : Key L) :
    node.binarySearch x = if entries.countP (·.1 < x) < entries.countP (·.1 ≤ x)
      then .ok (entries.countP (·.1 < x)) else .error (entries.countP (·.1 < x)) := by
  rw [OnDiskNode.binarySearch, h.numChildren]
  refine BinarySearch.search_sorted hsorted fun i hi ↦ ?_
  rw [h.key i hi]
  exact if_congr .rfl rfl (if_congr .rfl rfl rfl)

end NeonStorage.Pageserver.DiskBtree
