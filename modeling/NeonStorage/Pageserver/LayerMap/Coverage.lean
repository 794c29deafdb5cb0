import NeonStorage.Lib.Staircase
import Mathlib.Data.List.MinMax
import Mathlib.Data.Prod.Lex
import Mathlib.Order.Lattice.Nat
import NeonStorage.Lib.Snoc

/-!
# Layer coverage in the coordinates of the index

The index of the layer map does not know keys and layers: it works with key ranges of `i128`, LSN
ranges and values. `LayerCoverage` is the skyline of the layers inserted so far, and
`HistoricLayerCoverage` keeps it for each LSN at which a layer begins.

* A query finds the value of the layer that reaches highest, the first one of equals
  (`query_insertAll`).
* `BufferedHistoricLayerCoverage` collects updates and applies them by cutting the history back to
  the lowest changed LSN and inserting the rest again. The result is the index that is built from
  scratch from the layers now present (`getVersion_run`).
-/

namespace NeonStorage.Pageserver.Coverage

open List SortedMap Function
variable {Value : Type}

/-! ### The skyline of the layers -/

/-- `LayerCoverage`: the changes in coverage by increasing key, each with `lsn.end` and the
value. -/
abbrev LayerCoverage (Value : Type) := Staircase ℤ Value

def LayerCoverage.insert (c : LayerCoverage Value) (key : ℤ × ℤ) (lsn : ℕ × ℕ) (value : Value) :
    LayerCoverage Value :=
  Staircase.insert c key.1 key.2 lsn.2 value

/-- A layer as the index sees it, before it is known which kind it is. -/
structure Rectangle (Value : Type) where
  key : ℤ × ℤ
  lsn : ℕ × ℕ
  value : Value

def InRange (key : ℤ × ℤ) (k : ℤ) : Prop := key.1 ≤ k ∧ k < key.2
  deriving Decidable

def LayerCoverage.insertAll (layers : List (Rectangle Value)) : LayerCoverage Value :=
  layers.foldl (fun c l ↦ LayerCoverage.insert c l.key l.lsn l.value) .empty

/-- The layer that reaches highest at a key, the first one of equals. -/
def newest (layers : List (Rectangle Value)) (k : ℤ) : Option (Rectangle Value) :=
  (layers.filter (InRange ·.key k)).argmax (·.lsn.2)

section

variable (layers : List (Rectangle Value))

theorem insertAll_append (l : Rectangle Value) : LayerCoverage.insertAll (layers ++ [l]) =
      LayerCoverage.insert (LayerCoverage.insertAll layers) l.key l.lsn l.value := by
  rw [LayerCoverage.insertAll, foldl_append]
  rfl

theorem newest_append (l : Rectangle Value) (k : ℤ) : newest (layers ++ [l]) k =
      if InRange l.key k then match newest layers k with
        | none => some l
        | some c => if c.lsn.2 < l.lsn.2 then some l else some c
      else newest layers k := by
  unfold newest
  rw [filter_append]
  split_ifs with h
  · rw [filter_cons_of_pos (by simpa using h), filter_nil, argmax_concat]
    cases (layers.filter (InRange ·.key k)).argmax (·.lsn.2) <;> rfl
  · rw [filter_cons_of_neg (by simpa using h), filter_nil, append_nil]

theorem view_insertAll (k : ℤ) :
    (LayerCoverage.insertAll layers).view k = (newest layers k).map fun l ↦ (l.lsn.2, l.value) := by
  induction layers using List.reverseRecOn with
  | nil => rfl
  | append_singleton layers l ih =>
    rw [insertAll_append, newest_append, LayerCoverage.insert, Staircase.view_insert]
    change (if InRange l.key k then _ else _) = _
    split_ifs with h
    · rw [ih]
      cases hn : newest layers k with
      | none => rfl
      | some c =>
        by_cases hlt : c.lsn.2 < l.lsn.2 <;>
          simp [Staircase.cover, Staircase.needsCover, hlt]
    · exact ih

end

/-- Whatever layers are inserted, a query finds the value of the one that reaches highest among
those whose key range contains the key, the first inserted one of equals. -/
theorem query_insertAll (layers : List (Rectangle Value)) (k : ℤ) :
    (LayerCoverage.insertAll layers).query k = (newest layers k).map (·.value) := by
  rw [Staircase.query, view_insertAll, Option.map_map]
  rfl

example : (LayerCoverage.insertAll
    [⟨(0, 10), (0, 5), "a"⟩, ⟨(3, 6), (1, 9), "b"⟩, ⟨(5, 8), (2, 9), "c"⟩]).query 5 = some "b" := by
  decide

/-! ### One coverage for each LSN -/

structure LayerKey where
  key : ℤ × ℤ
  lsn : ℕ × ℕ
  isImage : Bool

variable {k : LayerKey}

namespace LayerKey

/-- The fields in the order in which they are compared. -/
def lex (k : LayerKey) : ℕ ×ₗ ℕ ×ₗ ℤ ×ₗ ℤ ×ₗ Bool :=
  toLex (k.lsn.1, toLex (k.lsn.2, toLex (k.key.1, toLex (k.key.2, k.isImage))))

theorem lex_injective : Function.Injective lex := by
  rintro ⟨⟨a₁, a₂⟩, ⟨a₃, a₄⟩, a₅⟩ ⟨⟨b₁, b₂⟩, ⟨b₃, b₄⟩, b₅⟩ h
  simp only [lex, EmbeddingLike.apply_eq_iff_eq, Prod.mk.injEq] at h
  simp [h]

instance : LinearOrder LayerKey := LinearOrder.lift' lex lex_injective

theorem lsn_start_le {k' : LayerKey} (h : k ≤ k') : k.lsn.1 ≤ k'.lsn.1 := by
  rcases Prod.Lex.le_iff.mp h with h | ⟨h, -⟩
  · exact h.le
  · exact h.le

theorem lt_of_lsn_start_lt {k' : LayerKey} (h : k.lsn.1 < k'.lsn.1) : k < k' := by
  have h : lex k < lex k' := Prod.Lex.lt_iff.mpr (.inl h)
  exact h

end LayerKey

abbrev Layer (Value : Type) := LayerKey × Value

structure LayerCoverageTuple (Value : Type) where
  imageCoverage : LayerCoverage Value
  deltaCoverage : LayerCoverage Value

variable (t : LayerCoverageTuple Value)

namespace LayerCoverageTuple

def empty : LayerCoverageTuple Value := ⟨.empty, .empty⟩

/-- The part of `HistoricLayerCoverage::insert` that changes the head. -/
def insert (t : LayerCoverageTuple Value) (l : Layer Value) : LayerCoverageTuple Value :=
  if l.1.isImage then
    { t with imageCoverage := LayerCoverage.insert t.imageCoverage l.1.key l.1.lsn l.2 }
  else { t with deltaCoverage := LayerCoverage.insert t.deltaCoverage l.1.key l.1.lsn l.2 }

def ofLayers (layers : List (Layer Value)) : LayerCoverageTuple Value := layers.foldl insert empty

def coverage (isImage : Bool) : LayerCoverage Value :=
  if isImage then t.imageCoverage else t.deltaCoverage

end LayerCoverageTuple

/-- `HistoricLayerCoverage`: the latest state and all states by the LSN of their last layer. -/
structure HistoricLayerCoverage (Value : Type) where
  head : LayerCoverageTuple Value
  historic : List (ℕ × LayerCoverageTuple Value)

namespace HistoricLayerCoverage

def new : HistoricLayerCoverage Value := ⟨.empty, []⟩

/-- `insert`; no result is the panic on a retroactive insert. -/
def insert (h : HistoricLayerCoverage Value) (l : Layer Value) :
    Option (HistoricLayerCoverage Value) :=
  if h.historic.getLast?.any fun e ↦ decide (l.1.lsn.1 < e.1) then none
  else
    let head := h.head.insert l
    some ⟨head, h.historic.filter (·.1 < l.1.lsn.1) ++ [(l.1.lsn.1, head)]⟩

/-- The coverage at an LSN, inclusive. -/
def getVersion (h : HistoricLayerCoverage Value) (lsn : ℕ) : Option (LayerCoverageTuple Value) :=
  (h.historic.filter (·.1 ≤ lsn)).getLast?.map Prod.snd

def latest (historic : List (ℕ × LayerCoverageTuple Value)) : LayerCoverageTuple Value :=
  (historic.getLast?.map Prod.snd).getD .empty

/-- Remove all entries after a certain LSN, inclusive. -/
def trim (h : HistoricLayerCoverage Value) (lsn : ℕ) : HistoricLayerCoverage Value :=
  ⟨latest (h.historic.filter (·.1 < lsn)), h.historic.filter (·.1 < lsn)⟩

def insertAll (h : HistoricLayerCoverage Value) (layers : List (Layer Value)) :
    Option (HistoricLayerCoverage Value) :=
  layers.foldlM insert h

end HistoricLayerCoverage

structure BufferedHistoricLayerCoverage (Value : Type) where
  historicCoverage : HistoricLayerCoverage Value
  buffer : SortedMap LayerKey (Option Value)
  layers : SortedMap LayerKey Value

variable (b : BufferedHistoricLayerCoverage Value) (layers : SortedMap LayerKey Value)

namespace BufferedHistoricLayerCoverage

def new : BufferedHistoricLayerCoverage Value := ⟨.new, .empty, .empty⟩

def insert (b : BufferedHistoricLayerCoverage Value) (k : LayerKey) (v : Value) :
    BufferedHistoricLayerCoverage Value :=
  { b with buffer := b.buffer.insert k (some v) }

def remove (k : LayerKey) : BufferedHistoricLayerCoverage Value :=
  { b with buffer := b.buffer.insert k none }

def applyUpdate (u : LayerKey × Option Value) : SortedMap LayerKey Value :=
  match u.2 with
  | some v => layers.insert u.1 v
  | none => layers.erase u.1

/-- The lower bound of the layers that `rebuild` inserts again. -/
def replayBound (rebuildSince : ℕ) : LayerKey := ⟨(0, 0), (rebuildSince, 0), false⟩

/-- `rebuild`; no result is the panic of an insertion. -/
def rebuild : Option (BufferedHistoricLayerCoverage Value) :=
  match b.buffer.entries with
  | [] => some b
  | u :: _ =>
    let rebuildSince := u.1.lsn.1
    let layers := b.buffer.entries.foldl applyUpdate b.layers
    let replayed := layers.entries.filter (replayBound rebuildSince ≤ ·.1)
    ((b.historicCoverage.trim rebuildSince).insertAll replayed).map (⟨·, .empty, layers⟩)

end BufferedHistoricLayerCoverage

/-! ### What is found in the coverage by a list of layers -/

theorem argmax_map {α β : Type} (f : β → ℕ) (g : α → β) (l : List α) :
    (l.map g).argmax f = (l.argmax fun a ↦ f (g a)).map g := by
  induction l using List.reverseRecOn with
  | nil => rfl
  | append_singleton l a ih =>
    rw [map_append, map_singleton, argmax_concat, argmax_concat, ih]
    cases l.argmax fun a ↦ f (g a) with
    | none => rfl
    | some c =>
      dsimp only [Option.map_some]
      split_ifs <;> rfl

theorem rel_of_argmax {α : Type} {f : α → ℕ} {r : α → α → Prop} {l : List α} {a b : α}
    (hl : l.Pairwise r) (ha : l.argmax f = some a) (hb : b ∈ l) (hle : f a ≤ f b) :
    b = a ∨ r a b := by
  induction l generalizing a with
  | nil => cases hb
  | cons c l ih =>
    obtain ⟨hc, hl⟩ := pairwise_cons.mp hl
    rw [argmax_cons] at ha
    cases hmax : l.argmax f with
    | none =>
      rw [hmax] at ha
      cases ha
      rw [argmax_eq_none.mp hmax] at hb
      exact .inl (mem_singleton.mp hb)
    | some d =>
      rw [hmax] at ha
      dsimp only at ha
      split_ifs at ha with hlt
      · cases ha
        rcases mem_cons.mp hb with rfl | hb
        · exact absurd hlt hle.not_gt
        · exact ih hl hmax hb hle
      · cases ha
        exact (mem_cons.mp hb).imp id (hc b)

namespace LayerCoverageTuple

theorem coverage_insert (l : Layer Value) (isImage : Bool) : (t.insert l).coverage isImage =
      if l.1.isImage = isImage then LayerCoverage.insert (t.coverage isImage) l.1.key l.1.lsn l.2
      else t.coverage isImage := by
  cases isImage <;> cases h : l.1.isImage <;> simp [insert, coverage, h]

variable (layers : List (Layer Value))

theorem coverage_ofLayers (isImage : Bool) :
    (ofLayers layers).coverage isImage = LayerCoverage.insertAll
      ((layers.filter (·.1.isImage = isImage)).map fun l ↦ ⟨l.1.key, l.1.lsn, l.2⟩) := by
  induction layers using List.reverseRecOn with
  | nil => cases isImage <;> rfl
  | append_singleton layers l ih =>
    rw [ofLayers, foldl_append, foldl_cons, foldl_nil, coverage_insert, filter_append, map_append]
    split_ifs with h
    · rw [filter_cons_of_pos (by simpa using h), filter_nil, map_singleton, insertAll_append, ← ih]
      rfl
    · rw [filter_cons_of_neg (by simpa using h), filter_nil, map_nil, append_nil, ← ih]
      rfl

theorem query_ofLayers (isImage : Bool) (k : ℤ) : ((ofLayers layers).coverage isImage).query k =
      ((layers.filter fun l ↦ l.1.isImage = isImage ∧ InRange l.1.key k).argmax (·.1.lsn.2)).map
        Prod.snd := by
  rw [coverage_ofLayers, query_insertAll, newest, filter_map, argmax_map, Option.map_map,
    filter_filter]
  refine congrArg (Option.map Prod.snd <| List.argmax (fun l : Layer Value ↦ l.1.lsn.2) ·)
    (filter_congr fun l _ ↦ ?_)
  simp [Bool.and_comm]

end LayerCoverageTuple

/-! ### The index built from scratch -/

namespace HistoricLayerCoverage

variable {h h' : HistoricLayerCoverage Value} {l : Layer Value} {layers more : List (Layer Value)}
  {lsn : ℕ}

def build (layers : List (Layer Value)) : Option (HistoricLayerCoverage Value) :=
  insertAll .new layers

theorem insertAll_append :
    h.insertAll (layers ++ more) = (h.insertAll layers).bind (·.insertAll more) := by
  rw [insertAll, foldlM_append]
  rfl

theorem insertAll_cons : h.insertAll (l :: layers) = (h.insert l).bind (·.insertAll layers) := by
  rfl

/-- The latest state is the one inserted last. -/
def Coherent (h : HistoricLayerCoverage Value) : Prop := h.head = latest h.historic

section

variable (hins : h.insert l = some h')
include hins

theorem insert_eq_some : h' = ⟨h.head.insert l,
      h.historic.filter (·.1 < l.1.lsn.1) ++ [(l.1.lsn.1, h.head.insert l)]⟩ := by
  unfold insert at hins
  split_ifs at hins
  exact (Option.some.inj hins).symm

theorem coherent_insert : Coherent h' := by
  rw [insert_eq_some hins]
  simp [Coherent, latest]

theorem trim_insert (hle : lsn ≤ l.1.lsn.1) : h'.trim lsn = h.trim lsn := by
  have hfilter : h'.historic.filter (·.1 < lsn) = h.historic.filter (·.1 < lsn) := by
    rw [insert_eq_some hins, filter_append, filter_filter,
      filter_cons_of_neg (by simpa using hle), filter_nil, append_nil]
    refine filter_congr fun e _ ↦ ?_
    by_cases he : e.1 < lsn
    · simp [he, he.trans_le hle]
    · simp [he]
  rw [trim, trim, hfilter]

end

section

variable (hins : h.insertAll layers = some h')
include hins

theorem trim_insertAll (hle : ∀ l ∈ layers, lsn ≤ l.1.lsn.1) : h'.trim lsn = h.trim lsn := by
  induction layers generalizing h with
  | nil =>
    cases hins
    rfl
  | cons l layers ih =>
    obtain ⟨h₁, hh₁, hins⟩ := Option.bind_eq_some_iff.mp hins
    rw [ih hins fun x hx ↦ hle x (mem_cons_of_mem l hx), trim_insert hh₁ (hle l mem_cons_self)]

theorem historic_lt (hh : ∀ e ∈ h.historic, e.1 < lsn) (hlt : ∀ l ∈ layers, l.1.lsn.1 < lsn) :
    ∀ e ∈ h'.historic, e.1 < lsn := by
  induction layers generalizing h with
  | nil =>
    cases hins
    exact hh
  | cons l layers ih =>
    obtain ⟨h₁, hh₁, hins⟩ := Option.bind_eq_some_iff.mp hins
    refine ih hins (fun e he ↦ ?_) fun x hx ↦ hlt x (mem_cons_of_mem l hx)
    rw [insert_eq_some hh₁] at he
    rcases mem_snoc.mp he with he | rfl
    · exact hh e (mem_filter.mp he).1
    · exact hlt l mem_cons_self

theorem coherent_insertAll (hh : Coherent h) : Coherent h' := by
  induction layers generalizing h with
  | nil =>
    cases hins
    exact hh
  | cons l layers ih =>
    obtain ⟨h₁, hh₁, hins⟩ := Option.bind_eq_some_iff.mp hins
    exact ih hins (coherent_insert hh₁)

end

theorem trim_build (hbuild : build (layers ++ more) = some h)
    (hlt : ∀ l ∈ layers, l.1.lsn.1 < lsn) (hle : ∀ l ∈ more, lsn ≤ l.1.lsn.1) :
    build layers = some (h.trim lsn) := by
  rw [build, insertAll_append] at hbuild
  obtain ⟨h₁, hh₁, hins⟩ := Option.bind_eq_some_iff.mp hbuild
  have hkeep : h₁.historic.filter (·.1 < lsn) = h₁.historic :=
    filter_eq_self.mpr fun e he ↦
      decide_eq_true (historic_lt hh₁ nofun hlt e he)
  have hcoherent : Coherent h₁ := coherent_insertAll hh₁ rfl
  rw [trim_insertAll hins hle, trim, hkeep, ← hcoherent]
  exact hh₁

theorem exists_insertAll (hsorted : layers.Pairwise (·.1.lsn.1 ≤ ·.1.lsn.1))
    (hh : ∀ e ∈ h.historic, ∀ l ∈ layers, e.1 ≤ l.1.lsn.1) :
      ∃ h', h.insertAll layers = some h' := by
  induction layers generalizing h with
  | nil => exact ⟨h, rfl⟩
  | cons l layers ih =>
    obtain ⟨hl, hsorted⟩ := pairwise_cons.mp hsorted
    have hlast : (h.historic.getLast?.any fun e ↦ decide (l.1.lsn.1 < e.1)) = false := by
      cases he : h.historic.getLast? with
      | none => rfl
      | some e => simpa using hh e (mem_of_getLast? he) l mem_cons_self
    obtain ⟨h₁, hh₁⟩ : ∃ h₁, h.insert l = some h₁ := ⟨_, if_neg (by simp [hlast])⟩
    rw [insertAll_cons, hh₁]
    refine ih hsorted fun e he x hx ↦ ?_
    rw [insert_eq_some hh₁] at he
    rcases mem_snoc.mp he with he | rfl
    · exact hh e (mem_filter.mp he).1 x (mem_cons_of_mem l hx)
    · exact hl x hx

theorem exists_build (hsorted : layers.Pairwise (·.1.lsn.1 ≤ ·.1.lsn.1)) :
    ∃ h : HistoricLayerCoverage Value, build layers = some h := exists_insertAll hsorted nofun

theorem head_insertAll (hins : h.insertAll layers = some h') :
    h'.head = layers.foldl LayerCoverageTuple.insert h.head := by
  induction layers generalizing h with
  | nil =>
    cases hins
    rfl
  | cons l layers ih =>
    obtain ⟨h₁, hh₁, hins⟩ := Option.bind_eq_some_iff.mp hins
    rw [ih hins, insert_eq_some hh₁]
    rfl

theorem exists_getLast (hins : h.insertAll layers = some h') (hne : layers ≠ []) :
    ∃ e, h'.historic.getLast? = some e ∧ e.2 = h'.head := by
  obtain ⟨ls, l, rfl⟩ := (eq_nil_or_concat' layers).resolve_left hne
  rw [insertAll_append] at hins
  obtain ⟨h₁, -, hins⟩ := Option.bind_eq_some_iff.mp hins
  obtain ⟨h₂, hh₂, hins⟩ := Option.bind_eq_some_iff.mp hins
  cases hins
  rw [insert_eq_some hh₂]
  exact ⟨_, List.getLast?_concat, rfl⟩

theorem eq_filter_append_filter (hsorted : layers.Pairwise (·.1.lsn.1 ≤ ·.1.lsn.1)) (lsn : ℕ) :
    layers = layers.filter (·.1.lsn.1 ≤ lsn) ++ layers.filter (lsn < ·.1.lsn.1) := by
  have hdown : layers.Pairwise fun l l' ↦ decide (l'.1.lsn.1 ≤ lsn) → decide (l.1.lsn.1 ≤ lsn) :=
    hsorted.imp fun h hl' ↦ decide_eq_true (h.trans (of_decide_eq_true hl'))
  conv_lhs => rw [← BinarySearch.filter_append_filter_not hdown]
  simp only [← decide_not, not_le]

/-- The coverage by the layers that begin at or below an LSN, if there are any. -/
def versionAt (layers : List (Layer Value)) (lsn : ℕ) : Option (LayerCoverageTuple Value) :=
  match layers.filter (·.1.lsn.1 ≤ lsn) with
  | [] => none
  | l :: ls => some (.ofLayers (l :: ls))

theorem getVersion_build (hsorted : layers.Pairwise (·.1.lsn.1 ≤ ·.1.lsn.1))
    (hbuild : build layers = some h) (lsn : ℕ) : h.getVersion lsn = versionAt layers lsn := by
  have htrim : build (layers.filter (·.1.lsn.1 ≤ lsn)) = some (h.trim (lsn + 1)) := by
    rw [eq_filter_append_filter hsorted lsn] at hbuild
    refine trim_build hbuild (fun l hl ↦ ?_) fun l hl ↦ ?_
    · exact Nat.lt_succ_of_le (of_decide_eq_true (mem_filter.mp hl).2)
    · exact Nat.succ_le_of_lt (of_decide_eq_true (mem_filter.mp hl).2)
  have hversion : h.getVersion lsn = (h.trim (lsn + 1)).historic.getLast?.map Prod.snd := by
    simp only [getVersion, trim, Nat.lt_succ_iff]
  rw [hversion, versionAt]
  generalize h.trim (lsn + 1) = h₁ at htrim
  split
  · rename_i hnil
    rw [hnil] at htrim
    cases htrim
    rfl
  · rename_i l ls hcons
    rw [hcons] at htrim
    obtain ⟨e, he, hhead⟩ := exists_getLast htrim (cons_ne_nil l ls)
    rw [he, Option.map_some, hhead, head_insertAll htrim]
    rfl

end HistoricLayerCoverage

/-! ### Buffered updates -/

namespace BufferedHistoricLayerCoverage

open HistoricLayerCoverage

/-- The operations on the buffered index. -/
inductive Update (Value : Type) where
  | insert (k : LayerKey) (v : Value)
  | remove (k : LayerKey)
  | rebuild

def step :
    Update Value → Option (BufferedHistoricLayerCoverage Value)
  | .insert k v => some (b.insert k v)
  | .remove k => some (b.remove k)
  | .rebuild => b.rebuild

variable (us : List (Update Value))

def present : LayerKey → Option Value :=
  us.foldl (fun f u ↦ match u with
    | .insert k v => update f k (some v)
    | .remove k => update f k none
    | .rebuild => f) fun _ ↦ none

/-- `rebuild` inserts the layer again if it begins at the lowest changed LSN. -/
def Replayable (k : LayerKey) : Prop := 0 < k.lsn.2 ∨ 0 ≤ k.key.1 ∧ 0 ≤ k.key.2
  deriving Decidable

theorem replayBound_le_iff (hk : Replayable k) (r : ℕ) : replayBound r ≤ k ↔ r ≤ k.lsn.1 := by
  refine ⟨LayerKey.lsn_start_le, fun h ↦ ?_⟩
  rcases h.lt_or_eq with h | rfl
  · exact (LayerKey.lt_of_lsn_start_lt h).le
  · have hlex : LayerKey.lex (replayBound k.lsn.1) ≤ LayerKey.lex k := by
      simp only [LayerKey.lex, replayBound, Prod.Lex.le_iff, ofLex_toLex, lt_self_iff_false,
        false_or, true_and]
      rcases hk with hk | ⟨hk, hk'⟩
      · exact .inl hk
      · rcases Nat.eq_zero_or_pos k.lsn.2 with h0 | h0
        · right
          rcases hk.lt_or_eq with hk | hk
          · exact ⟨h0.symm, .inl hk⟩
          · refine ⟨h0.symm, .inr ⟨hk, ?_⟩⟩
            rcases hk'.lt_or_eq with hk' | hk'
            · exact .inl hk'
            · exact .inr ⟨hk', Bool.false_le _⟩
        · exact .inl h0
    exact hlex

section ApplyUpdates

variable {layers : SortedMap LayerKey Value} {us : List (LayerKey × Option Value)}

theorem lookup_applyUpdate (u : LayerKey × Option Value) (k : LayerKey) :
    (applyUpdate layers u).lookup k = if k = u.1 then u.2 else layers.lookup k := by
  obtain ⟨k', v | _⟩ := u
  · exact lookup_erase
  · exact lookup_insert

theorem lookup_foldl_applyUpdate (hsorted : us.Pairwise (·.1 < ·.1)) (k : LayerKey) :
    (us.foldl applyUpdate layers).lookup k =
      ((us.find? (·.1 = k)).map Prod.snd).getD (layers.lookup k) := by
  induction us generalizing layers with
  | nil => rfl
  | cons u us ih =>
    obtain ⟨hu, hsorted⟩ := pairwise_cons.mp hsorted
    rw [foldl_cons, ih hsorted, lookup_applyUpdate]
    by_cases hk : u.1 = k
    · have hnone : us.find? (·.1 = k) = none :=
        List.find?_eq_none.mpr fun x hx ↦ by simpa [← hk] using (hu x hx).ne'
      rw [hnone]
      simp [hk]
    · rw [List.find?_cons_of_neg (by simpa using hk), if_neg (Ne.symm hk)]

theorem filter_foldl_applyUpdate {p : LayerKey → Bool} (hp : ∀ u ∈ us, p u.1 = false) :
    (us.foldl applyUpdate layers).entries.filter (p ·.1) = layers.entries.filter (p ·.1) := by
  induction us generalizing layers with
  | nil => rfl
  | cons u us ih =>
    rw [foldl_cons, ih fun x hx ↦ hp x (mem_cons_of_mem u hx)]
    have hpu := hp u mem_cons_self
    obtain ⟨k, v | _⟩ := u
    · exact filter_erase hpu
    · exact filter_insert hpu

end ApplyUpdates

/-- The index is that of the layers, and the layers and the buffer together are those present. -/
structure Inv (b : BufferedHistoricLayerCoverage Value) (f : LayerKey → Option Value) : Prop where
  built : build b.layers.entries = some b.historicCoverage
  present : ∀ k, (b.buffer.lookup k).getD (b.layers.lookup k) = f k
  replayable : ∀ k v, b.layers.lookup k = some v ∨ b.buffer.lookup k = some (some v) → Replayable k

theorem sorted_lsn : layers.entries.Pairwise (·.1.lsn.1 ≤ ·.1.lsn.1) :=
  layers.sorted.imp fun h ↦ LayerKey.lsn_start_le h.le

variable {b : BufferedHistoricLayerCoverage Value} {f : LayerKey → Option Value}

theorem inv_rebuild (h : Inv b f) :
    ∃ b', b.rebuild = some b' ∧ Inv b' f ∧ ∀ k, b'.layers.lookup k = f k := by
  unfold rebuild
  split
  · rename_i hbuffer
    refine ⟨b, rfl, h, fun k ↦ ?_⟩
    have hnone : b.buffer.lookup k = none := by
      rw [SortedMap.lookup, hbuffer]
      rfl
    rw [← h.present, hnone, Option.getD_none]
  · rename_i u us hbuffer
    dsimp only
    have hsince : ∀ x ∈ b.buffer.entries, u.1.lsn.1 ≤ x.1.lsn.1 := by
      intro x hx
      have hsorted := b.buffer.sorted
      rw [hbuffer] at hx hsorted
      rcases mem_cons.mp hx with rfl | hx
      · exact le_rfl
      · exact LayerKey.lsn_start_le ((pairwise_cons.mp hsorted).1 x hx).le
    have hlookup (k : LayerKey) : (b.buffer.entries.foldl applyUpdate b.layers).lookup k =
        (b.buffer.lookup k).getD (b.layers.lookup k) := lookup_foldl_applyUpdate b.buffer.sorted k
    -- the layers that begin below the lowest changed LSN are the same as before
    let below (k : LayerKey) : Bool := decide (k.lsn.1 < u.1.lsn.1)
    have hbelow : (b.buffer.entries.foldl applyUpdate b.layers).entries.filter (below ·.1) =
        b.layers.entries.filter (below ·.1) :=
      filter_foldl_applyUpdate fun x hx ↦ by simpa [below] using hsince x hx
    generalize b.buffer.entries.foldl applyUpdate b.layers = layers at hlookup hbelow ⊢
    have hreplayable : ∀ e ∈ layers.entries, Replayable e.1 := by
      intro e he
      have hl := lookup_eq_some_iff.mpr he
      rw [hlookup e.1] at hl
      cases hb : b.buffer.lookup e.1 with
      | none =>
        rw [hb, Option.getD_none] at hl
        exact h.replayable e.1 e.2 (.inl hl)
      | some w =>
        rw [hb, Option.getD_some] at hl
        exact h.replayable e.1 e.2 (.inr (hb.trans (congrArg some hl)))
    have hmono : ∀ k k', k < k' → below k' → below k := fun k k' hlt hk' ↦
      decide_eq_true ((LayerKey.lsn_start_le hlt.le).trans_lt (of_decide_eq_true hk'))
    have hreplayed : layers.entries.filter (replayBound u.1.lsn.1 ≤ ·.1) =
        layers.entries.filter (!below ·.1) := filter_congr fun e he ↦ by
        simp only [below, replayBound_le_iff (hreplayable e he), ← decide_not, not_lt]
    have htrim : build (b.layers.entries.filter (below ·.1)) =
        some (b.historicCoverage.trim u.1.lsn.1) := by
      have hbuilt := h.built
      rw [entries_eq_filter_append_filter hmono] at hbuilt
      refine trim_build hbuilt ?_ ?_
      · intro l hl
        exact of_decide_eq_true (mem_filter.mp hl).2
      · intro l hl
        simpa [below] using (mem_filter.mp hl).2
    obtain ⟨h', hh'⟩ := exists_build (sorted_lsn layers)
    have hins : (b.historicCoverage.trim u.1.lsn.1).insertAll
        (layers.entries.filter (!below ·.1)) = some h' := by
      rw [entries_eq_filter_append_filter hmono, build,
        HistoricLayerCoverage.insertAll_append, hbelow] at hh'
      rwa [← build, htrim, Option.bind_some] at hh'
    rw [hreplayed, hins]
    refine ⟨⟨h', .empty, layers⟩, rfl, ⟨hh', fun k ↦ ?_, fun k v hk ↦ ?_⟩, fun k ↦ ?_⟩
    · exact (hlookup k).trans (h.present k)
    · rcases hk with hk | hk
      · exact hreplayable (k, v) (lookup_eq_some_iff.mp hk)
      · cases hk
    · exact (hlookup k).trans (h.present k)

theorem inv_buffer (h : Inv b f) {v : Option Value} (hk : v.isSome → Replayable k) :
    Inv { b with buffer := b.buffer.insert k v } (update f k v) where
  built := h.built
  present k' := by
    rw [lookup_insert, update_apply]
    split_ifs
    · rfl
    · exact h.present k'
  replayable k' w hw := by
    rcases hw with hw | hw
    · exact h.replayable k' w (.inl hw)
    · rw [lookup_insert] at hw
      split_ifs at hw with heq
      · exact heq ▸ hk (Option.isSome_iff_exists.mpr ⟨w, Option.some.inj hw⟩)
      · exact h.replayable k' w (.inr hw)


theorem present_append (u : Update Value) : present (us ++ [u]) = match u with
      | .insert k v => update (present us) k (some v)
      | .remove k => update (present us) k none
      | .rebuild => present us := by
  rw [present, foldl_append]
  rfl

theorem inv_run (hus : ∀ k v, .insert k v ∈ us → Replayable k) :
    ∃ b, us.foldlM step new = some b ∧ Inv b (present us) := by
  induction us using List.reverseRecOn with
  | nil => exact ⟨new, rfl, rfl, fun k ↦ rfl, fun k v h ↦ by rcases h with h | h <;> cases h⟩
  | append_singleton us u ih =>
    obtain ⟨b, hb, hinv⟩ := ih fun k v hk ↦ hus k v (mem_append_left _ hk)
    rw [foldlM_append, hb, present_append]
    cases u with
    | insert k v =>
      exact ⟨b.insert k v, rfl, inv_buffer hinv fun _ ↦ hus k v (by simp)⟩
    | remove k => exact ⟨b.remove k, rfl, inv_buffer hinv fun h ↦ absurd h (by simp)⟩
    | rebuild =>
      obtain ⟨b', hb', hinv', -⟩ := inv_rebuild hinv
      exact ⟨b', by simpa [step] using hb', hinv'⟩

/-- After any operations and a rebuild, the coverage at every LSN is that of the index that is
built from scratch from the layers present, in the order of their keys. -/
theorem getVersion_run (us : List (Update Value)) (hus : ∀ k v, .insert k v ∈ us → Replayable k) :
    ∃ b h, (us ++ [Update.rebuild]).foldlM step new = some b ∧
      (∀ k, b.layers.lookup k = present us k) ∧
      build b.layers.entries = some h ∧
      ∀ lsn, b.historicCoverage.getVersion lsn = h.getVersion lsn := by
  obtain ⟨b, hb, hinv⟩ := inv_run us hus
  obtain ⟨b', hb', hinv', hpresent⟩ := inv_rebuild hinv
  refine ⟨b', b'.historicCoverage, ?_, hpresent, hinv'.built, fun _ ↦ rfl⟩
  rw [foldlM_append, hb]
  simpa [step] using hb'

/-- A delta layer that is replaced by a wider one, with a rebuild between. -/
def replacement : List (Update ℕ) :=
  [.insert ⟨(0, 5), (10, 20), false⟩ 1, .rebuild, .remove ⟨(0, 5), (10, 20), false⟩,
    .insert ⟨(0, 9), (10, 20), false⟩ 2]

theorem getVersion_replacement : ∃ b h, (replacement ++ [Update.rebuild]).foldlM step new = some b ∧
      (∀ k, b.layers.lookup k = present replacement k) ∧
      build b.layers.entries = some h ∧
      ∀ lsn, b.historicCoverage.getVersion lsn = h.getVersion lsn :=
  getVersion_run replacement fun k v h ↦ by
    simp only [replacement, mem_cons, not_mem_nil, Update.insert.injEq, reduceCtorEq,
      or_false, false_or] at h
    rcases h with ⟨rfl, -⟩ | ⟨rfl, -⟩ <;> decide

/-- A layer with end LSN `0` and a negative start key is below the lower bound of the layers that
`rebuild` inserts again: it is present, but not in the index. -/
theorem not_replayed :
    ∃ b h, [Update.insert ⟨(-5, 3), (5, 0), false⟩ 7, Update.rebuild].foldlM step new = some b ∧
      build b.layers.entries = some h ∧
      (b.historicCoverage.getVersion 5).isNone = true ∧
      (h.getVersion 5).bind (·.deltaCoverage.query 0) = some 7 :=
  ⟨_, _, rfl, rfl, rfl, rfl⟩

end BufferedHistoricLayerCoverage

end NeonStorage.Pageserver.Coverage
