import NeonStorage.Lib.Reorder
import NeonStorage.Pageserver.UploadQueue.Model
import Mathlib.Data.List.Pairwise
import Mathlib.Data.Set.BooleanAlgebra

/-!
# What it takes to be launched

What `can_bypass` decides about two operations adds up to a statement about the whole queue. Take
the queue as what will be performed one operation after the other. Then at each place there is an
active index and a set of layers that exist; no operation touches a layer of the index that is
active at its place, and every index finds its layers there (`InOrder`). An operation that is
launched ahead of its turn fits beside all that it overtakes (`Beside`), so this view of the queue
does not change.
-/

namespace NeonStorage.Pageserver.UploadQueue

open List UploadOp
open Reorder

variable {Name : Type}

/-! ## The effect of operations -/

theorem mem_perform_of_notMem {S : Set (RemoteLayer Name)} {o : UploadOp Name}
    {x : RemoteLayer Name} (hx : x ∉ o.modified) : x ∈ perform S o ↔ x ∈ S := by
  cases o with
  | uploadLayer y m =>
    have hne : x ≠ y := by simpa [modified] using hx
    simp [perform, hne]
  | delete d =>
    have hd : x ∉ d := hx
    simp [perform, hd]
  | uploadMetadata _ | barrier | shutdown => rfl

variable {o : UploadOp Name}

theorem perform_of_isMetadata {S : Set (RemoteLayer Name)}
    (h : o.isMetadata = true) : perform S o = S := by
  cases o with
  | uploadMetadata i => rfl
  | uploadLayer _ _ | delete _ | barrier | shutdown => simp [isMetadata] at h

variable {a b : UploadOp Name}

private theorem independent_of_perform_eq_self
    (h : ∀ S : Set (RemoteLayer Name), perform S b = S) : Independent perform a b := by
  intro S
  rw [h, h]

variable (index : IndexPart Name)

def activeAfter (ops : List (UploadOp Name)) : IndexPart Name :=
  ops.foldl nextActive index

variable (S : Set (RemoteLayer Name))

def performAll (ops : List (UploadOp Name)) : Set (RemoteLayer Name) :=
  ops.foldl perform S

@[simp] theorem activeAfter_append (l r : List (UploadOp Name)) :
    activeAfter index (l ++ r) = activeAfter (activeAfter index l) r :=
  foldl_append

@[simp] theorem activeAfter_cons (o : UploadOp Name) (l : List (UploadOp Name)) :
    activeAfter index (o :: l) = activeAfter (nextActive index o) l :=
  rfl

@[simp] theorem activeAfter_nil : activeAfter index [] = index := rfl

@[simp] theorem performAll_append (l r : List (UploadOp Name)) :
    performAll S (l ++ r) = performAll (performAll S l) r :=
  foldl_append

@[simp] theorem performAll_cons (o : UploadOp Name) (l : List (UploadOp Name)) :
    performAll S (o :: l) = performAll (perform S o) l :=
  rfl

@[simp] theorem performAll_nil : performAll S [] = S := rfl

variable {index : IndexPart Name}

theorem nextActive_of_isMetadata_eq_false
    (h : o.isMetadata = false) : nextActive index o = index := by
  cases o with
  | uploadMetadata i => simp [isMetadata] at h
  | uploadLayer _ _ | delete _ | barrier | shutdown => rfl

variable {ops : List (UploadOp Name)}

theorem activeAfter_of_isMetadata_eq_false
    (h : ∀ o ∈ ops, o.isMetadata = false) : activeAfter index ops = index := by
  induction ops with
  | nil => rfl
  | cons o ops ih =>
    rw [activeAfter_cons, nextActive_of_isMetadata_eq_false (h o mem_cons_self)]
    exact ih fun o' ho' ↦ h o' (mem_cons_of_mem o ho')

theorem performAll_of_isMetadata {S : Set (RemoteLayer Name)} (h : ∀ o ∈ ops, o.isMetadata = true) :
    performAll S ops = S := by
  induction ops with
  | nil => rfl
  | cons o ops ih =>
    rw [performAll_cons, perform_of_isMetadata (h o mem_cons_self)]
    exact ih fun o' ho' ↦ h o' (mem_cons_of_mem o ho')

theorem mem_performAll_of_notMem {S : Set (RemoteLayer Name)} {x : RemoteLayer Name}
    (h : ∀ o ∈ ops, x ∉ o.modified) : x ∈ performAll S ops ↔ x ∈ S := by
  induction ops generalizing S with
  | nil => rfl
  | cons o ops ih =>
    have hops : ∀ o' ∈ ops, x ∉ o'.modified :=
      fun o' ho' ↦ h o' (mem_cons_of_mem o ho')
    exact (ih hops).trans (mem_perform_of_notMem (h o mem_cons_self))

variable {pre post : List (UploadOp Name)}

theorem mem_scanActive : (o, activeAfter index pre) ∈ scanActive index (pre ++ o :: post) := by
  induction pre generalizing index with
  | nil => exact mem_cons_self
  | cons o' pre ih => exact mem_cons_of_mem _ ih

/-- `op` as it is queued, and as the task that performs it: the mode of an upload may differ. -/
inductive SameOp : UploadOp Name → UploadOp Name → Prop
  | refl (op : UploadOp Name) : SameOp op op
  | upload (x : RemoteLayer Name) (m m' : Option OpType) :
    SameOp (.uploadLayer x m) (.uploadLayer x m')

namespace SameOp

variable {op op' : UploadOp Name}

theorem modified (h : SameOp op op') : op'.modified = op.modified := by
  cases h <;> rfl

theorem perform (h : SameOp op op') (S : Set (RemoteLayer Name)) :
    UploadQueue.perform S op' = UploadQueue.perform S op := by
  cases h <;> rfl

theorem nextActive (h : SameOp op op') (i : IndexPart Name) :
    UploadQueue.nextActive i op' = UploadQueue.nextActive i op := by
  cases h <;> rfl

theorem uploadMetadata {i : IndexPart Name} (h : SameOp op (.uploadMetadata i)) :
    op = .uploadMetadata i := by
  cases h
  rfl

end SameOp

variable [DecidableEq Name]

/-! ## Pairs of operations -/

/-- What makes two operations fit beside each other: their order does not matter, at most one is an
index upload, and an index upload does not reference what the other one touches. -/
structure Beside (a b : UploadOp Name) : Prop where
  independent : Independent perform a b
  index : a.isMetadata = true → b.isMetadata = false
  left : ∀ i, a = .uploadMetadata i → ∀ x ∈ b.modified, i.references x = false
  right : ∀ i, b = .uploadMetadata i → ∀ x ∈ a.modified, i.references x = false

theorem Beside.symm (h : Beside a b) : Beside b a where
  independent := h.independent.symm
  index hb := by
    refine Bool.eq_false_iff.mpr fun ha ↦ ?_
    cases (h.index ha).symm.trans hb
  left := h.right
  right := h.left

instance : Std.Symm (α := UploadOp Name) Beside := ⟨fun _ _ h ↦ h.symm⟩

theorem SameOp.beside {op op' o : UploadOp Name} (h : SameOp op op') (hb : Beside op o) :
    Beside op' o := by
  cases h with
  | refl => exact hb
  | upload x m m' =>
    exact ⟨hb.independent, fun h ↦ (nomatch h), fun i hi ↦ (nomatch hi), hb.right⟩

namespace UploadOp

variable {c o : UploadOp Name} {a i : IndexPart Name} {x : RemoteLayer Name}

theorem canBypass_uploadMetadata_left (h : (uploadMetadata i).canBypass o a = true) :
    o.isMetadata = false ∧
      ∀ x ∈ o.modified, i.references x = false ∧ a.references x = false := by
  cases o with
  | uploadLayer y m => simpa [canBypass, isMetadata, modified] using h
  | delete d => simpa [canBypass, isMetadata, modified] using h
  | uploadMetadata _ | barrier | shutdown => simp [canBypass] at h

theorem canBypass_uploadMetadata_right (h : c.canBypass (uploadMetadata i) a = true) :
    c.isMetadata = false ∧
      ∀ x ∈ c.modified, i.references x = false ∧ a.references x = false := by
  have hcomm : (uploadMetadata i).canBypass c a = c.canBypass (uploadMetadata i) a := by
    cases c <;> rfl
  exact canBypass_uploadMetadata_left (hcomm.trans h)

variable {d : List (RemoteLayer Name)}

private theorem notMem_of_all (h : (d.all fun l ↦ !isSameRemoteLayerPath x l) = true) : x ∉ d := by
  intro hx
  have := all_eq_true.mp h x hx
  simp at this

variable {m : Option OpType}

theorem notMem_of_canBypass {a : IndexPart Name}
    (h : (uploadLayer x m).canBypass (delete d) a = true ∨
      (delete d).canBypass (uploadLayer x m) a = true) : x ∉ d :=
  h.elim notMem_of_all notMem_of_all

private theorem independent_uploadLayer_delete
    (hx : x ∉ d) : Independent perform (uploadLayer x m) (delete d) := by
  intro S
  ext y
  simp only [perform, Set.mem_sdiff, Set.mem_insert_iff, Set.mem_ofPred_eq]
  by_cases hy : y = x
  · simp [hy, hx]
  · simp [hy]

theorem independent_of_canBypass (h : c.canBypass o a = true) : Independent perform c o := by
  cases c with
  | barrier | shutdown => cases o <;> simp [canBypass] at h
  | uploadMetadata i => exact (independent_of_perform_eq_self fun _ ↦ rfl).symm
  | uploadLayer y m =>
    cases o with
    | barrier | shutdown => simp [canBypass] at h
    | uploadMetadata i => exact independent_of_perform_eq_self fun _ ↦ rfl
    | uploadLayer z m' =>
      intro S
      exact Set.insert_comm z y S
    | delete d => exact independent_uploadLayer_delete (notMem_of_all h)
  | delete d =>
    cases o with
    | barrier | shutdown => simp [canBypass] at h
    | uploadMetadata i => exact independent_of_perform_eq_self fun _ ↦ rfl
    | uploadLayer z m' => exact (independent_uploadLayer_delete (notMem_of_all h)).symm
    | delete d' =>
      intro S
      exact sdiff_sdiff_comm

theorem beside_of_canBypass (h : c.canBypass o a = true) : Beside c o where
  independent := independent_of_canBypass h
  index hc := by
    cases c with
    | uploadMetadata i => exact (canBypass_uploadMetadata_left h).1
    | uploadLayer _ _ | delete _ | barrier | shutdown => simp [isMetadata] at hc
  left i hi x hx := by
    subst hi
    exact ((canBypass_uploadMetadata_left h).2 x hx).1
  right i hi x hx := by
    subst hi
    exact ((canBypass_uploadMetadata_right h).2 x hx).1

end UploadOp

/-! ## The queue performed in order -/

/-- Performed one after the other from the active index `index` and the layers `S`, no operation
touches a layer of the index active at its place, and each index references layers that are
there. -/
def InOrder (index : IndexPart Name) (S : Set (RemoteLayer Name)) : List (UploadOp Name) → Prop
  | [] => True
  | o :: ops =>
    (∀ x ∈ o.modified, index.references x = false) ∧
      (∀ i, o = .uploadMetadata i → ∀ x, i.references x = true → x ∈ S) ∧
      InOrder (nextActive index o) (perform S o) ops

namespace InOrder

variable {index i : IndexPart Name} {S : Set (RemoteLayer Name)} {c o : UploadOp Name}
  {l r : List (UploadOp Name)}

theorem append_iff : InOrder index S (l ++ r) ↔
      InOrder index S l ∧ InOrder (activeAfter index l) (performAll S l) r := by
  induction l generalizing index S with
  | nil => simp [InOrder]
  | cons o l ih =>
    rw [cons_append, InOrder, InOrder, ih, activeAfter_cons, performAll_cons]
    simp only [and_assoc]

theorem perform_of_beside (h : InOrder index S l) (hc : ∀ o ∈ l, Beside c o) :
    InOrder index (perform S c) l := by
  induction l generalizing index S with
  | nil => trivial
  | cons o l ih =>
    have hco := hc o mem_cons_self
    refine ⟨h.1, fun i hi x hx ↦ ?_, ?_⟩
    · have hxc : x ∉ c.modified := fun hmem ↦ by
        cases (hco.right i hi x hmem).symm.trans hx
      exact (mem_perform_of_notMem hxc).mpr (h.2.1 i hi x hx)
    · rw [hco.independent S]
      exact ih h.2.2 fun o' ho' ↦ hc o' (mem_cons_of_mem o ho')

/-- Without index uploads among them, operations follow any index whose layers they do not
touch. -/
theorem of_forall_modified (h : ∀ o ∈ l, o.isMetadata = false ∧
    ∀ x ∈ o.modified, index.references x = false) : InOrder index S l := by
  induction l generalizing S with
  | nil => trivial
  | cons o l ih =>
    obtain ⟨hm, ho⟩ := h o mem_cons_self
    refine ⟨ho, fun i hi ↦ ?_, ?_⟩
    · rw [hi] at hm
      cases hm
    · rw [nextActive_of_isMetadata_eq_false hm]
      exact ih fun o' ho' ↦ h o' (mem_cons_of_mem o ho')

/-- The active index behind some operations is the same when one that fits beside them overtakes
them. -/
theorem activeAfter_overtake (hc : ∀ o ∈ l, Beside c o) :
    activeAfter (nextActive index c) l = nextActive (activeAfter index l) c := by
  cases hm : c.isMetadata with
  | false =>
    rw [nextActive_of_isMetadata_eq_false hm, nextActive_of_isMetadata_eq_false hm]
  | true =>
    cases c with
    | uploadMetadata i => exact activeAfter_of_isMetadata_eq_false fun o ho ↦ (hc o ho).index rfl
    | uploadLayer _ _ | delete _ | barrier | shutdown => simp [isMetadata] at hm

theorem overtake (h : InOrder index S l) (hc : ∀ o ∈ l, Beside c o) :
    InOrder (nextActive index c) (perform S c) l := by
  cases hm : c.isMetadata with
  | false =>
    rw [nextActive_of_isMetadata_eq_false hm]
    exact h.perform_of_beside hc
  | true =>
    cases c with
    | uploadMetadata i =>
      exact of_forall_modified fun o ho ↦ ⟨(hc o ho).index rfl, (hc o ho).left i rfl⟩
    | uploadLayer _ _ | delete _ | barrier | shutdown => simp [isMetadata] at hm

end InOrder

/-! ## Readiness -/

namespace UploadQueueInitialized

variable {q : UploadQueueInitialized Name} {sw : Switches} {c : UploadOp Name}
  {order ahead : List (UploadOp Name)}

section

variable (h : q.isReady order ahead c = true)
include h

variable {o : UploadOp Name}

/-- A candidate that is ready bypasses each operation, under the index active at its place. -/
theorem canBypass_of_isReady (heq : order ++ ahead = pre ++ o :: post) :
    c.canBypass o (activeAfter q.clean.1 pre) = true := by
  rw [isReady, all_eq_true, heq] at h
  exact h _ mem_scanActive

theorem exists_canBypass_of_isReady (ho : o ∈ order ++ ahead) : ∃ a, c.canBypass o a = true := by
  obtain ⟨pre, post, heq⟩ := append_of_mem ho
  exact ⟨_, canBypass_of_isReady h heq⟩

theorem beside_of_isReady (ho : o ∈ order ++ ahead) : Beside c o := by
  obtain ⟨a, ha⟩ := exists_canBypass_of_isReady h ho
  exact beside_of_canBypass ha

/-- If there is an index upload ahead, a candidate that is ready does not touch the clean index: it
is the one active at the first index upload. -/
theorem clean_references_of_isReady (ho : o ∈ order ++ ahead)
    (hm : o.isMetadata = true) : ∀ x ∈ c.modified, q.clean.1.references x = false := by
  obtain ⟨pre, f, post, heq, hf, hpre⟩ :
      ∃ pre f post, order ++ ahead = pre ++ f :: post ∧ f.isMetadata = true ∧
        ∀ o' ∈ pre, o'.isMetadata = false := by
    have hsome : ((order ++ ahead).find? isMetadata).isSome := by
      rw [List.find?_isSome]
      exact ⟨o, ho, hm⟩
    obtain ⟨f, hfind⟩ := Option.isSome_iff_exists.mp hsome
    obtain ⟨hf, pre, post, heq, hpre⟩ := List.find?_eq_some_iff_append.mp hfind
    exact ⟨pre, f, post, heq, hf, by simpa using hpre⟩
  have hby := canBypass_of_isReady h heq
  rw [activeAfter_of_isMetadata_eq_false hpre] at hby
  cases f with
  | uploadMetadata i => exact fun x hx ↦ ((canBypass_uploadMetadata_right hby).2 x hx).2
  | uploadLayer _ _ | delete _ | barrier | shutdown => simp [isMetadata] at hf

end

variable {behind rest : List (UploadOp Name)}

theorem coalesce_spec {op op' : UploadOp Name}
    (h : q.coalesce sw order ahead op behind = (op', rest)) (hm : op.isMetadata = true)
    (hready : q.isReady order ahead op = true) : ∃ skipped, op :: behind = skipped ++ op' :: rest ∧
      (∀ o ∈ skipped, o.isMetadata = true) ∧ op'.isMetadata = true ∧
      q.isReady order ahead op' = true := by
  fun_induction coalesce q sw order ahead op behind with
  | case1 op i behind _ =>
    cases h
    exact ⟨[], rfl, by simp, hm, hready⟩
  | case2 op i behind _ _ =>
    cases h
    exact ⟨[], rfl, by simp, hm, hready⟩
  | case3 op i behind _ hi ih =>
    obtain ⟨skipped, heq, hsk, hm', hr'⟩ := ih h rfl (by simpa using hi)
    refine ⟨op :: skipped, by rw [heq]; rfl, fun o ho ↦ ?_, hm', hr'⟩
    rcases mem_cons.mp ho with rfl | ho
    · exact hm
    · exact hsk o ho
  | case4 op behind _ =>
    cases h
    exact ⟨[], rfl, by simp, hm, hready⟩

variable {op : UploadOp Name}

private theorem nextReadyFrom_spec (h : q.nextReadyFrom sw order ahead behind = some (op, rest)) :
    ∃ ahead' skipped behind', ahead ++ behind = ahead' ++ (skipped ++ op :: behind') ∧
      rest = ahead' ++ behind' ∧ q.isReady order ahead' op = true ∧
      (∀ o ∈ skipped, o.isMetadata = true) ∧ (skipped ≠ [] → op.isMetadata = true) := by
  fun_induction nextReadyFrom q sw order ahead behind with
  | case1 => cases h
  | case2 => cases h
  | case3 ahead behind i op' rest' hready hc =>
    obtain ⟨skipped, heq, hsk, hm, hr⟩ := coalesce_spec hc rfl hready
    rw [hc] at h
    cases h
    exact ⟨ahead, skipped, rest', by rw [heq], rfl, hr, hsk, fun _ ↦ hm⟩
  | case4 ahead behind candidate _ _ hready =>
    cases h
    exact ⟨ahead, [], behind, rfl, rfl, hready, by simp, by simp⟩
  | case5 => cases h
  | case6 => cases h
  | case7 => cases h
  | case8 ahead candidate behind _ _ _ _ ih =>
    obtain ⟨ahead', skipped, behind', heq, hrest, hr⟩ := ih h
    exact ⟨ahead', skipped, behind', by rw [← heq]; simp, hrest, hr⟩

/-- What `next_ready` takes out of the queue: a ready operation, and index uploads right before it
if it is one itself. -/
theorem nextReady_spec {rest : List (UploadOp Name)} (h : q.nextReady sw order = some (op, rest)) :
    ∃ ahead skipped behind, q.queuedOperations = ahead ++ (skipped ++ op :: behind) ∧
      rest = ahead ++ behind ∧ q.isReady order ahead op = true ∧
      (∀ o ∈ skipped, o.isMetadata = true) ∧ (skipped ≠ [] → op.isMetadata = true) := by
  unfold nextReady at h
  split at h
  · cases h
  · exact nextReadyFrom_spec h

section

variable (q : UploadQueueInitialized Name)

theorem start_uploadLayer (x : RemoteLayer Name) (m : Option OpType) :
    ∃ m' deleted, q.start (.uploadLayer x m) =
      { q with recentlyDeleted := deleted }.addTask (.uploadLayer x m') := by
  by_cases hx : x.deletionKey ∈ q.recentlyDeleted
  · exact ⟨_, _, if_pos hx⟩
  · exact ⟨_, q.recentlyDeleted, if_neg hx⟩

theorem start_eq (op : UploadOp Name) : ∃ counter tasks deleted, q.start op = { q with
      taskCounter := counter, inprogressTasks := tasks, recentlyDeleted := deleted } := by
  cases op with
  | uploadLayer x m =>
    obtain ⟨m', deleted, heq⟩ := q.start_uploadLayer x m
    exact ⟨_, _, deleted, heq⟩
  | uploadMetadata _ | delete _ | barrier | shutdown => exact ⟨_, _, _, rfl⟩

theorem unlink_spec (names : List Name) : ∃ dirty, (q.unlink names).1 =
        { q with dirty := dirty
                 latestFilesChanges := q.latestFilesChanges + (q.unlink names).2.length } ∧
      (∀ y, dirty.references y = true → q.dirty.references y = true) ∧
      (∀ x ∈ (q.unlink names).2, dirty.references x = false) ∧
      ((q.unlink names).2 = [] → dirty = q.dirty) := by
  induction names generalizing q with
  | nil => exact ⟨q.dirty, rfl, fun _ ↦ id, by simp [unlink], fun _ ↦ rfl⟩
  | cons n names ih =>
    unfold unlink
    split
    next m hm =>
      obtain ⟨dirty, heq, hsub, hout, -⟩ := ih
        { q with dirty := q.dirty.remove n, latestFilesChanges := q.latestFilesChanges + 1 }
      refine ⟨dirty, ?_, fun y hy ↦ (IndexPart.references_remove.mp (hsub y hy)).2, ?_, nofun⟩
      · simp only [heq, length_cons]
        rw [Nat.add_right_comm, Nat.add_assoc]
      · intro x hx
        rcases mem_cons.mp hx with rfl | hx
        · refine Bool.eq_false_iff.mpr fun hne ↦ ?_
          exact (IndexPart.references_remove.mp (hsub _ hne)).1 rfl
        · exact hout x hx
    next hm => exact ih q

end

end UploadQueueInitialized

end NeonStorage.Pageserver.UploadQueue
