import NeonStorage.Pageserver.Compaction.Level0
import NeonStorage.Lib.Snoc

/-!
# Compaction of level 0 keeps the records

The merge loop reads the records in the order of key and LSN. At every point they are split into
those behind it, which are in finished layers or in the layer being written, and those ahead. The
invariant says where a record ahead can still go: not into the rectangle of a finished layer, and,
while a key is being cut, into the current piece only if its LSN is below the end of the piece.

The iterator over the keys needs no more than this: whatever it still gives was written somewhere
(`Inv.iter_mem`), and what it still gives of a key that is being cut is behind the current cut.
-/

namespace NeonStorage.Pageserver.Level0

open List Option DeltaLayerWriter Record
variable {Img Rec : Type}

/-! ## A file may become too large

The only way to fail is a file above the upload limit. -/

/-- `o` gives a result with `Q`, or fails because a file would be too large. -/
def Yields {σ : Type} (env : Env Img Rec) (o : Option σ) (Q : σ → Prop) : Prop :=
  (∃ s, o = some s ∧ Q s) ∨
    (o = none ∧ ∃ rs, s3UploadLimit < env.fileSize rs)

namespace Yields

variable {σ τ : Type} {env : Env Img Rec} {o : Option σ} {Q : σ → Prop} {R : τ → Prop}

theorem pure {s : σ} (h : Q s) : Yields env (some s) Q := .inl ⟨s, rfl, h⟩

theorem bind {f : σ → Option τ} (h : Yields env o Q) (hf : ∀ s, Q s → Yields env (f s) R) :
    Yields env (o.bind f) R := by
  rcases h with ⟨s, rfl, hs⟩ | ⟨rfl, hbig⟩
  · exact hf s hs
  · exact .inr ⟨rfl, hbig⟩

theorem map {f : σ → τ} (h : Yields env o Q) (hf : ∀ s, Q s → R (f s)) :
    Yields env (o.map f) R := by
  rcases h with ⟨s, rfl, hs⟩ | ⟨rfl, hbig⟩
  · exact .inl ⟨f s, rfl, hf s hs⟩
  · exact .inr ⟨rfl, hbig⟩

theorem of_some (h : Yields env o Q) {s : σ} (hs : o = some s) : Q s := by
  rcases h with ⟨s', hs', hq⟩ | ⟨hnone, -⟩
  · cases hs.symm.trans hs'
    exact hq
  · cases hs.symm.trans hnone

/-- A loop keeps an invariant over what it has read and what is ahead of it. -/
theorem foldlM {f : σ → τ → Option σ} {I : List τ → List τ → σ → Prop}
    (hstep : ∀ done t rest s, I done (t :: rest) s → Yields env (f s t) (I (done ++ [t]) rest)) :
    ∀ rest done s, I done rest s → Yields env (rest.foldlM f s) (I (done ++ rest) []) := by
  intro rest
  induction rest with
  | nil =>
    intro done s h
    simpa using pure h
  | cons t rest ih =>
    intro done s h
    refine bind (hstep done t rest s h) fun s' hs' ↦ ?_
    simpa using ih (done ++ [t]) s' hs'

end Yields

/-! ## The layers a compaction leaves -/

/-- No record of one layer is in the rectangle of the other. -/
def Apart (a b : NewLayer Img Rec) : Prop :=
  (∀ r ∈ b.records, ¬a.toRect.Contains r.key r.lsn) ∧
    ∀ r ∈ a.records, ¬b.toRect.Contains r.key r.lsn

/-- The finished layers hold their records, are apart, and nothing ahead lies in them. -/
structure Finished (layers : List (NewLayer Img Rec)) (ahead : List (Record Img Rec)) : Prop where
  inside : ∀ l ∈ layers, ∀ r ∈ l.records, l.toRect.Contains r.key r.lsn
  ahead : ∀ l ∈ layers, ∀ r ∈ ahead, ¬l.toRect.Contains r.key r.lsn
  apart : layers.Pairwise Apart

theorem Finished.tail {layers : List (NewLayer Img Rec)} {c : Record Img Rec}
    {ahead : List (Record Img Rec)} (h : Finished layers (c :: ahead)) : Finished layers ahead :=
  { h with ahead := fun l hl r hr ↦ h.ahead l hl r (mem_cons_of_mem _ hr) }

/-- The layer being written: its records fit, and its rectangle begins behind the finished
layers. -/
structure Writing (layers : List (NewLayer Img Rec)) (w : DeltaLayerWriter Img Rec) : Prop where
  lsn_lt : w.lsnStart < w.lsnEnd
  inside : ∀ r ∈ w.records, w.keyStart ≤ r.key ∧ w.lsnStart ≤ r.lsn ∧ r.lsn < w.lsnEnd
  outside : ∀ l ∈ layers, ∀ r ∈ w.records, ¬l.toRect.Contains r.key r.lsn
  after : ∀ l ∈ layers, ∀ r ∈ l.records, r.key < w.keyStart ∨ r.lsn < w.lsnStart

variable {r : Record Img Rec}

namespace Writing

variable {layers : List (NewLayer Img Rec)} {w : DeltaLayerWriter Img Rec}

theorem putValue (h : Writing layers w) (hkey : w.keyStart ≤ r.key) (hstart : w.lsnStart ≤ r.lsn)
    (hend : r.lsn < w.lsnEnd) (hlast : ∀ r' ∈ w.records, r'.pos < r.pos)
    (hout : ∀ l ∈ layers, ¬l.toRect.Contains r.key r.lsn) :
    w.putValue r = some { w with records := w.records ++ [r] } ∧
      Writing layers { w with records := w.records ++ [r] } := by
  constructor
  · have hall : (w.records.getLast?.all fun last ↦ decide (last.pos < r.pos)) = true := by
      cases hl : w.records.getLast? with
      | none => rfl
      | some last => simpa using hlast last (mem_of_getLast? hl)
    simp [DeltaLayerWriter.putValue, hstart, hall]
  · exact ⟨h.lsn_lt, forall_mem_snoc.mpr ⟨h.inside, hkey, hstart, hend⟩,
      fun l hl ↦ forall_mem_snoc.mpr ⟨h.outside l hl, hout l hl⟩, h.after⟩

end Writing

/-! ## The iterator over the keys -/

section Scan

variable {hi lsn : ℕ}

private def KeySize.Lt (a b : KeySize) : Prop := a.key < b.key ∨ a.key = b.key ∧ a.lsn < b.lsn

/-- The inner loop at a version of a key, with `e` the end of the piece before it (if the version
begins another piece, that is the version itself). Either the key is not cut, or the piece begins
here and ends at a later version, which is behind it in the iterator, or takes the rest. -/
theorem scanKey_spec (target : ℕ) (key : Key) {iter : List KeySize} (nextKeySize total : ℕ) {e : ℕ}
    (hhi : hi ≠ 0) (hlsn : lsn ≠ 0) (he : e = 0 ∨ e = lsn) (hiter : iter.Pairwise KeySize.Lt)
    (hvalid : ∀ q ∈ iter, q.lsn ≠ 0) :
    let s := (scanKey target hi key lsn iter nextKeySize total 0 e).close hi
    s.iter <:+ iter ∧
      (s.dupEndLsn = 0 ∧ e = 0 ∨
        s.dupEndLsn ≠ 0 ∧ s.dupStartLsn = lsn ∧
          (s.dupEndLsn = hi ∨
            ∃ q ∈ iter, q.key = key ∧ q.lsn = s.dupEndLsn ∧ q.lsn ≠ lsn ∧
              ∀ q' ∈ s.iter, q'.key = key → q.lsn < q'.lsn)) := by
  induction iter generalizing nextKeySize total with
  | nil =>
    rcases he with rfl | rfl <;> simp [scanKey, Scan.close, hlsn, hhi]
  | cons next iter ih =>
    obtain ⟨hnext, hrest⟩ := pairwise_cons.mp hiter
    have hn : next.lsn ≠ 0 := hvalid next mem_cons_self
    have hstart : (if e ≠ 0 then e else lsn) = lsn := by
      rcases he with rfl | rfl <;> simp
    rw [scanKey, hstart]
    split_ifs with hkey hdup hcut
    · -- another key: what remains of a cut key is its last piece
      have hel : e = lsn := he.resolve_left hdup
      simp [Scan.close, hel, hlsn, hhi, suffix_cons]
    · have he0 : e = 0 := by simpa using hdup
      simp [Scan.close, he0, suffix_cons]
    · simp only [Scan.close, hlsn, and_false, if_false]
      refine ⟨suffix_cons _ _, .inr ⟨hn, trivial, .inr ⟨next, mem_cons_self, ?_, rfl,
        fun h ↦ hcut.2 h.symm, fun q' hq' hk ↦ ?_⟩⟩⟩
      · simpa using Eq.symm (not_not.mp hkey)
      · rcases hnext q' hq' with h | h
        · exact absurd (hk.trans (not_not.mp hkey)) h.ne'
        · exact h.2
    · obtain ⟨hsuf, hres⟩ := ih next.size (total + next.size) hrest
        (forall_mem_cons.mp hvalid).2
      refine ⟨hsuf.trans (suffix_cons _ _), hres.imp_right ?_⟩
      rintro ⟨hne, hs, h | ⟨q, hq, hq'⟩⟩
      · exact ⟨hne, hs, .inl h⟩
      · exact ⟨hne, hs, .inr ⟨q, mem_cons_of_mem _ hq, hq'⟩⟩

end Scan

/-! ## The invariant of the merge loop -/

/-- What the loop reads: records in order, within the range of the compaction. -/
structure Input (lo hi : ℕ) (all : List (Record Img Rec)) : Prop where
  sorted : all.Pairwise fun a b ↦ a.pos < b.pos
  lsn : ∀ r ∈ all, (lo ≤ r.lsn ∧ r.lsn < hi) ∧ r.lsn ≠ 0
  key : ∀ r ∈ all, r.key < Key.max

def keeps (env : Env Img Rec) (r : Record Img Rec) : Bool := !env.shard.isKeyDisposable r.key

section Loop

variable {env : Env Img Rec} {lo hi : ℕ} {all behind ahead : List (Record Img Rec)}
  {c : Record Img Rec} {st : Merging Img Rec}

/-- The part of the invariant that a check at a boundary and a record put into a layer both keep:
`behind` is in the layers, `ahead` is not. -/
structure Held (env : Env Img Rec) (all behind ahead : List (Record Img Rec))
    (st : Merging Img Rec) : Prop where
  split : all = behind ++ ahead
  prev : st.prevKey = behind.getLast?.map key
  content : (st.newLayers.flatMap fun l ↦ l.records) ++ st.writer.elim [] (fun w ↦ w.records) =
    behind.filter (keeps env)
  finished : Finished st.newLayers ahead
  writing : ∀ w, st.writer = some w → Writing st.newLayers w
  iter_mem : ∀ q ∈ st.allKeysIter, ∃ r ∈ all, r.key = q.key ∧ r.lsn = q.lsn
  iter_sorted : st.allKeysIter.Pairwise KeySize.Lt

/-- The piece of `key` that ends at `stop` is the last one, or `stop` is the LSN of a version ahead
and the iterator is behind that version. -/
def CutAt (hi : ℕ) (key : Key) (stop : ℕ) (ahead : List (Record Img Rec)) (iter : List KeySize) :
    Prop :=
  stop = hi ∨ (∃ r ∈ ahead, r.key = key ∧ r.lsn = stop) ∧ ∀ q ∈ iter, q.key = key → stop < q.lsn

structure Inv (env : Env Img Rec) (lo hi : ℕ) (all behind ahead : List (Record Img Rec))
    (st : Merging Img Rec) : Prop extends Held env all behind ahead st where
  /-- A record that is kept leaves a layer open. -/
  opened : ∀ r, behind.getLast? = some r → keeps env r → st.writer ≠ none
  begun : ∀ w, st.writer = some w → ∃ k, st.prevKey = some k ∧ w.keyStart ≤ k
  /-- Outside a cut key, a layer has the whole LSN range. -/
  whole : st.dupEndLsn = 0 → ∀ w, st.writer = some w → w.lsnStart = lo ∧ w.lsnEnd = hi
  /-- Inside a cut key, a layer has only the current piece of it. -/
  piece : st.dupEndLsn ≠ 0 → ∀ w, st.writer = some w → st.prevKey = some w.keyStart ∧
    w.lsnEnd = st.dupEndLsn ∧ ∀ r ∈ ahead, r.key = w.keyStart → w.lsnStart ≤ r.lsn
  cut : st.dupEndLsn ≠ 0 → ∀ k, st.prevKey = some k →
    CutAt hi k st.dupEndLsn ahead st.allKeysIter

/-- The state in which the record `c` is put into a layer. -/
structure Ready (env : Env Img Rec) (lo hi : ℕ) (all behind : List (Record Img Rec))
    (c : Record Img Rec) (ahead : List (Record Img Rec)) (st : Merging Img Rec) : Prop
    extends Held env all behind (c :: ahead) st where
  /-- A layer that is open has the whole LSN range. -/
  whole : ∀ w, st.writer = some w →
    st.dupEndLsn = 0 ∧ w.keyStart ≤ c.key ∧ w.lsnStart = lo ∧ w.lsnEnd = hi
  piece : st.dupEndLsn ≠ 0 → st.dupStartLsn = c.lsn ∧ c.lsn < st.dupEndLsn ∧
    CutAt hi c.key st.dupEndLsn ahead st.allKeysIter
  fresh : st.writer = none → st.dupEndLsn = 0 → keeps env c → ∀ r ∈ behind, r.key < c.key

variable {w : DeltaLayerWriter Img Rec}

namespace Held

theorem mem_cur (h : Held env all behind (c :: ahead) st) : c ∈ all := by
  rw [h.split]
  simp

section

variable (h : Held env all behind ahead st)
include h

theorem key_le_prev (hin : Input lo hi all) {k : Key} (hk : st.prevKey = some k) (hr : r ∈ behind) :
    r.key ≤ k := by
  rw [h.prev] at hk
  obtain ⟨last, hlast, rfl⟩ := map_eq_some_iff.mp hk
  obtain ⟨init, rfl⟩ := List.getLast?_eq_some_iff.mp hlast
  have hsorted := (pairwise_append.mp (h.split ▸ hin.sorted)).1
  rcases mem_snoc.mp hr with hr | hr
  · have := (pairwise_append.mp hsorted).2.2 r hr last mem_cons_self
    rcases pos_lt_iff.mp this with h | h
    · exact h.le
    · exact h.1.le
  · rw [hr]

theorem prev_mem {k : Key} (hk : st.prevKey = some k) : ∃ r ∈ behind, r.key = k := by
  rw [h.prev] at hk
  obtain ⟨last, hlast, rfl⟩ := map_eq_some_iff.mp hk
  exact ⟨last, mem_of_getLast? hlast, rfl⟩

theorem writer_mem (hw : st.writer = some w) (hr : r ∈ w.records) : r ∈ behind := by
  have : r ∈ behind.filter (keeps env) := by
    rw [← h.content, hw]
    exact mem_append_right _ hr
  exact (mem_filter.mp this).1

theorem layer_mem {l : NewLayer Img Rec} (hl : l ∈ st.newLayers) (hr : r ∈ l.records) :
    r ∈ behind := by
  have : r ∈ behind.filter (keeps env) := by
    rw [← h.content]
    exact mem_append_left _ (mem_flatMap.mpr ⟨l, hl, hr⟩)
  exact (mem_filter.mp this).1

end

section

variable (h : Held env all behind (c :: ahead) st) (hin : Input lo hi all)
include h hin

theorem lt_cur (hr : r ∈ behind) : r.pos < c.pos :=
  (pairwise_append.mp (h.split ▸ hin.sorted)).2.2 r hr c mem_cons_self

theorem cur_lt (hr : r ∈ ahead) : c.pos < r.pos :=
  (pairwise_cons.mp (pairwise_append.mp (h.split ▸ hin.sorted)).2.1).1 r hr

/-- A new key is behind everything seen so far. -/
theorem key_lt_cur (hp : st.prevKey ≠ some c.key) (hr : r ∈ behind) : r.key < c.key := by
  rcases hkp : st.prevKey with - | k
  · rw [h.prev] at hkp
    simp only [map_eq_none_iff, List.getLast?_eq_none_iff] at hkp
    simp [hkp] at hr
  · obtain ⟨p, hpm, rfl⟩ := h.prev_mem hkp
    refine (h.key_le_prev hin hkp hr).trans_lt ?_
    rcases pos_lt_iff.mp (h.lt_cur hin hpm) with hlt | ⟨heq, -⟩
    · exact hlt
    · exact absurd (by rw [hkp, heq]) hp

theorem lsn_lt_of_key (hr : r ∈ ahead) (hk : r.key = c.key) : c.lsn < r.lsn := by
  rcases pos_lt_iff.mp (h.cur_lt hin hr) with hlt | ⟨-, hlt⟩
  · exact absurd hk.symm hlt.ne
  · exact hlt

end

end Held

/-- The finished layer ends behind the last key seen, so that a record ahead is in it only if it is
a version of that key inside the LSN range. -/
theorem Inv.flushWriter (h : Inv env lo hi all behind ahead st) (hin : Input lo hi all)
    (hw : st.writer = some w)
    (hout : ∀ k, st.prevKey = some k → ∀ r ∈ ahead, r.key ≤ k → w.lsnEnd ≤ r.lsn)
    {st' : Merging Img Rec} (hprev : st'.prevKey = st.prevKey)
    (hlayers : st'.newLayers = st.newLayers) :
    Yields env (flushWriter env st' w) fun s ↦ ∃ layer : NewLayer Img Rec,
      s = { st' with newLayers := st.newLayers ++ [layer], writer := none } ∧
        layer.records = w.records ∧ Finished (st.newLayers ++ [layer]) ahead := by
  obtain ⟨k, hk, hstart⟩ := h.begun w hw
  obtain ⟨p, hp, rfl⟩ := h.prev_mem hk
  have hwr := h.writing w hw
  obtain ⟨keyEnd, hnext⟩ := Key.exists_next
    (hin.key p (h.split ▸ mem_append_left _ hp))
  by_cases hsize : env.fileSize w.records ≤ s3UploadLimit
  · refine .inl ⟨_, ?_, ⟨⟨w.keyStart, keyEnd, w.lsnStart, w.lsnEnd⟩, w.records⟩, rfl, rfl,
      forall_mem_snoc.mpr ⟨h.finished.inside, fun r hr ↦ ?_⟩,
      forall_mem_snoc.mpr ⟨h.finished.ahead, fun r hr ↦ ?_⟩,
      pairwise_snoc.mpr ⟨h.finished.apart, fun l hl ↦ ⟨hwr.outside l hl, fun r hr hc ↦ ?_⟩⟩⟩
    · simp [Level0.flushWriter, hprev, hk, hnext, finish, hwr.lsn_lt, hsize, hlayers]
    · obtain ⟨h₁, h₂⟩ := hwr.inside r hr
      exact ⟨⟨h₁, (Key.lt_next_iff hnext).mpr (h.key_le_prev hin hk (h.writer_mem hw hr))⟩, h₂⟩
    · rintro ⟨⟨-, hlt⟩, -, hend⟩
      exact hend.not_ge (hout p.key hk r hr ((Key.lt_next_iff hnext).mp hlt))
    · rcases hwr.after l hl r hr with hlt | hlt
      · exact hc.1.1.not_gt hlt
      · exact hc.2.1.not_gt hlt
  · refine .inr ⟨?_, w.records, Nat.lt_of_not_le hsize⟩
    simp [Level0.flushWriter, hprev, hk, finish, hsize]

section

variable (h : Inv env lo hi all behind (c :: ahead) st) (hin : Input lo hi all)
  (hb : st.prevKey ≠ some c.key ∨ c.lsn = st.dupEndLsn)
include h hin hb

/-- At a boundary, the versions ahead of the last key seen are behind the piece being written. -/
theorem Inv.lsnEnd_le (hw : st.writer = some w) {k : Key} (hk : st.prevKey = some k)
    (hr : r ∈ c :: ahead) (hle : r.key ≤ k) : w.lsnEnd ≤ r.lsn := by
  obtain ⟨p, hp, rfl⟩ := h.prev_mem hk
  have hcr : c.pos ≤ r.pos := by
    rcases mem_cons.mp hr with rfl | hr
    · exact le_rfl
    · exact (h.cur_lt hin hr).le
  have hpc : p.key ≤ c.key :=
    (pos_lt_iff.mp (h.lt_cur hin hp)).elim le_of_lt fun h ↦ h.1.le
  rcases pos_le_iff.mp hcr with hlt | ⟨hkey, hlsn⟩
  · exact absurd (hpc.trans_lt hlt) hle.not_gt
  · have hdup : c.lsn = st.dupEndLsn :=
      hb.resolve_left fun hne ↦ hne (hk.trans (congrArg some (le_antisymm hpc (hkey ▸ hle))))
    rw [(h.piece (hdup ▸ (hin.lsn c h.mem_cur).2) w hw).2.1, ← hdup]
    exact hlsn

/-- After the scan at a boundary: the key is cut from here on or not at all. -/
theorem Inv.scan {s : Scan}
    (hs : (scanKey env.targetFileSize hi c.key c.lsn st.allKeysIter 0 st.keyValuesTotalSize 0
      (if st.prevKey == some c.key then st.dupEndLsn else 0)).close hi = s) :
    s.iter <:+ st.allKeysIter ∧
      (s.dupEndLsn = 0 ∧ st.prevKey ≠ some c.key ∨
        s.dupEndLsn ≠ 0 ∧ s.dupStartLsn = c.lsn ∧ c.lsn < s.dupEndLsn ∧
          CutAt hi c.key s.dupEndLsn ahead s.iter) := by
  obtain ⟨⟨-, hlt⟩, hne⟩ := hin.lsn c h.mem_cur
  have he : (if st.prevKey == some c.key then st.dupEndLsn else 0) = 0 ∨
      (if st.prevKey == some c.key then st.dupEndLsn else 0) = c.lsn := by
    by_cases hp : st.prevKey = some c.key
    · simp [hp, hb.resolve_left fun h ↦ h hp]
    · simp [hp]
  have hvalid : ∀ q ∈ st.allKeysIter, q.lsn ≠ 0 := by
    intro q hq
    obtain ⟨r, hr, -, hrq⟩ := h.iter_mem q hq
    exact hrq ▸ (hin.lsn r hr).2
  have hhi : hi ≠ 0 := by omega
  obtain ⟨hsuf, hres⟩ := scanKey_spec env.targetFileSize c.key 0 st.keyValuesTotalSize hhi hne he
    h.iter_sorted hvalid
  rw [hs] at hsuf hres
  refine ⟨hsuf, ?_⟩
  rcases hres with ⟨h0, he0⟩ | ⟨h0, hstart, hcut⟩
  · refine .inl ⟨h0, fun hp ↦ ?_⟩
    rw [hp, beq_self_eq_true, ← hb.resolve_left fun h ↦ h hp] at he0
    exact hne he0
  refine .inr ⟨h0, hstart, ?_⟩
  rcases hcut with hcut | ⟨q, hq, hqk, hqe, hql, hqi⟩
  · exact ⟨hcut ▸ hlt, .inl hcut⟩
  obtain ⟨r, hr, hrk, hrl⟩ := h.iter_mem q hq
  -- a version of this key in the iterator is not behind the current one
  have hahead : r ∈ ahead ∧ c.lsn < r.lsn := by
    rw [h.split] at hr
    rcases mem_append.mp hr with hr | hr
    · exfalso
      have hrc := pos_lt_iff.mp (h.lt_cur hin hr)
      rcases hrc with hrc | ⟨-, hrc⟩
      · exact hrc.ne (hrk.trans hqk)
      by_cases hp : st.prevKey = some c.key
      · have hdup := hb.resolve_left fun h ↦ h hp
        rcases h.cut (hdup ▸ hne) c.key hp with hend | ⟨-, hiter⟩
        · omega
        · have := hiter q hq hqk
          omega
      · exact (h.key_lt_cur hin hp hr).ne (hrk.trans hqk)
    · rcases mem_cons.mp hr with rfl | hr
      · exact absurd hrl.symm hql
      · exact ⟨hr, h.lsn_lt_of_key hin hr (hrk.trans hqk)⟩
  rw [← hqe, ← hrl]
  exact ⟨hahead.2, .inr ⟨⟨r, hahead.1, hrk.trans hqk, rfl⟩, hrl ▸ hqi⟩⟩

/-- **What a check at a boundary leaves.** -/
theorem Inv.checkBoundary :
    Yields env (checkBoundary env hi st c.key c.lsn (st.prevKey == some c.key))
      (Ready env lo hi all behind c ahead) := by
  unfold Level0.checkBoundary
  dsimp only
  generalize hs : (scanKey env.targetFileSize hi c.key c.lsn st.allKeysIter 0
    st.keyValuesTotalSize 0 (if st.prevKey == some c.key then st.dupEndLsn else 0)).close hi = s
  obtain ⟨hsuf, hcut⟩ := h.scan hin hb hs
  have hmem : ∀ q ∈ s.iter, ∃ r ∈ all, r.key = q.key ∧ r.lsn = q.lsn := fun q hq ↦
    h.iter_mem q (hsuf.subset hq)
  have hsorted := h.iter_sorted.sublist hsuf.sublist
  have hpiece : s.dupEndLsn ≠ 0 → s.dupStartLsn = c.lsn ∧ c.lsn < s.dupEndLsn ∧
      CutAt hi c.key s.dupEndLsn ahead s.iter := fun h0 ↦
    (hcut.resolve_left fun h ↦ h0 h.1).2
  have hfresh : s.dupEndLsn = 0 → ∀ r ∈ behind, r.key < c.key := fun h0 r hr ↦
    h.key_lt_cur hin (hcut.resolve_right fun h ↦ h.1 h0).2 hr
  unfold splitLayer
  dsimp only
  rcases hw : st.writer with - | w
  · refine .pure ⟨⟨h.split, h.prev, ?_, h.finished, by simp, hmem, hsorted⟩, by simp, hpiece,
      fun _ h0 _ ↦ hfresh h0⟩
    simpa [hw] using h.content
  · dsimp only
    refine .map (Q := Ready env lo hi all behind c ahead) ?_ fun s' hs' ↦
      ⟨⟨hs'.split, hs'.prev, hs'.content, hs'.finished, hs'.writing, hs'.iter_mem,
        hs'.iter_sorted⟩, hs'.whole, hs'.piece, hs'.fresh⟩
    split
    · refine .map (h.flushWriter hin hw (fun k hk r hr ↦ h.lsnEnd_le hin hb hw hk hr) rfl rfl) ?_
      rintro _ ⟨layer, rfl, hrec, hfin⟩
      refine ⟨⟨h.split, h.prev, ?_, hfin, by simp, hmem, hsorted⟩, by simp, hpiece,
        fun _ h0 _ ↦ hfresh h0⟩
      simpa [hw, hrec] using h.content
    · rename_i hflush
      have hold : st.dupEndLsn = 0 := by
        by_contra h0
        exact hflush (by simp [h0])
      have hdup : s.dupEndLsn = 0 := by
        by_contra h0
        exact hflush (by simp [h0])
      obtain ⟨k, hk, hstart⟩ := h.begun w hw
      obtain ⟨p, hpm, rfl⟩ := h.prev_mem hk
      refine .pure ⟨⟨h.split, h.prev, hw ▸ h.content, h.finished, ?_, hmem, hsorted⟩, ?_, hpiece,
        by simp⟩
      · exact fun w' hw' ↦ h.writing w' (hw.trans hw')
      · rintro _ ⟨rfl⟩
        exact ⟨hdup, hstart.trans (hfresh hdup p hpm).le, h.whole hold w hw⟩

end

/-! ## A turn of the loop -/

private theorem CutAt.advance {key : Key} {stop : ℕ} {iter : List KeySize}
    (h : CutAt hi key stop (c :: ahead) iter) (hne : c.lsn ≠ stop) :
    CutAt hi key stop ahead iter := by
  rcases h with h | ⟨⟨r, hr, hrk, hrl⟩, hiter⟩
  · exact .inl h
  · rcases mem_cons.mp hr with rfl | hr
    · exact absurd hrl hne
    · exact .inr ⟨⟨r, hr, hrk, hrl⟩, hiter⟩

theorem Held.push (h : Held env all behind (c :: ahead) st) (hin : Input lo hi all)
    (hk : keeps env c) (hw : Writing st.newLayers w)
    (hrec : st.writer.elim [] (fun w ↦ w.records) = w.records)
    (hkey : w.keyStart ≤ c.key) (hstart : w.lsnStart ≤ c.lsn) (hend : c.lsn < w.lsnEnd)
    (hwhole : st.dupEndLsn = 0 → w.lsnStart = lo ∧ w.lsnEnd = hi)
    (hpiece : st.dupEndLsn ≠ 0 → c.key = w.keyStart ∧ w.lsnEnd = st.dupEndLsn ∧
      ∀ r ∈ ahead, r.key = w.keyStart → w.lsnStart ≤ r.lsn)
    (hcut : st.dupEndLsn ≠ 0 → CutAt hi c.key st.dupEndLsn ahead st.allKeysIter) :
    Yields env ((w.putValue c).map fun w ↦ { st with writer := some w, prevKey := some c.key })
      (Inv env lo hi all (behind ++ [c]) ahead) := by
  have hlast : ∀ r ∈ w.records, r.pos < c.pos := by
    intro r hr
    have hmem : r ∈ behind.filter (keeps env) := by
      rw [← h.content, hrec]
      exact mem_append_right _ hr
    exact h.lt_cur hin (mem_filter.mp hmem).1
  obtain ⟨hput, hw'⟩ := hw.putValue hkey hstart hend hlast fun l hl ↦
    h.finished.ahead l hl c mem_cons_self
  rw [hput]
  refine .pure ⟨⟨by simp [h.split], by simp, ?_, h.finished.tail, by simpa using hw', h.iter_mem,
    h.iter_sorted⟩, by simp, by simpa, by simpa, by simpa, by simpa⟩
  rw [filter_append, ← h.content, hrec]
  simp [hk]

theorem Held.skip (h : Held env all behind (c :: ahead) st) (hk : ¬keeps env c) :
    Held env all (behind ++ [c]) ahead { st with prevKey := some c.key } := by
  refine ⟨by simp [h.split], by simp, ?_, h.finished.tail, h.writing, h.iter_mem, h.iter_sorted⟩
  rw [filter_append, ← h.content]
  simp [hk]

theorem Inv.putRecord (h : Inv env lo hi all behind (c :: ahead) st) (hin : Input lo hi all)
    (hprev : st.prevKey = some c.key) (hlsn : c.lsn ≠ st.dupEndLsn) :
    Yields env (putRecord env lo hi st c) (Inv env lo hi all (behind ++ [c]) ahead) := by
  have hcut : st.dupEndLsn ≠ 0 → CutAt hi c.key st.dupEndLsn ahead st.allKeysIter := fun h0 ↦
    (h.cut h0 c.key hprev).advance hlsn
  have hbegun : ∀ w, st.writer = some w → w.keyStart ≤ c.key := by
    intro w hw
    obtain ⟨k, hk, hle⟩ := h.begun w hw
    rw [hprev] at hk
    exact (Option.some.inj hk) ▸ hle
  have hpiece : st.dupEndLsn ≠ 0 → ∀ w, st.writer = some w → c.key = w.keyStart ∧
      w.lsnEnd = st.dupEndLsn ∧ ∀ r ∈ c :: ahead, r.key = w.keyStart → w.lsnStart ≤ r.lsn := by
    intro h0 w hw
    obtain ⟨hk, hrest⟩ := h.piece h0 w hw
    exact ⟨Option.some.inj (hprev.symm.trans hk), hrest⟩
  unfold Level0.putRecord
  by_cases hk : keeps env c
  · rw [if_neg (by simpa [keeps] using hk)]
    -- the version before this one left the layer open
    have hopen : st.writer ≠ none := by
      rw [h.prev] at hprev
      obtain ⟨last, hlast, hlk⟩ := map_eq_some_iff.mp hprev
      refine h.opened last hlast ?_
      simpa [keeps, hlk] using hk
    obtain ⟨w, hw⟩ := ne_none_iff_exists'.mp hopen
    have hroom : w.lsnStart ≤ c.lsn ∧ c.lsn < w.lsnEnd := by
      have hrange := (hin.lsn c h.mem_cur).1
      by_cases h0 : st.dupEndLsn = 0
      · obtain ⟨h₁, h₂⟩ := h.whole h0 w hw
        omega
      · obtain ⟨h₁, h₂, h₃⟩ := hpiece h0 w hw
        refine ⟨h₃ c mem_cons_self h₁, ?_⟩
        rw [h₂]
        rcases hcut h0 with hend | ⟨⟨r, hr, hrk, hrl⟩, -⟩
        · omega
        · have := h.lsn_lt_of_key hin hr hrk
          omega
    simp only [hw]
    refine h.push hin hk (h.writing w hw) (by simp [hw]) (hbegun w hw) hroom.1 hroom.2
      (fun h0 ↦ h.whole h0 w hw) (fun h0 ↦ ?_) hcut
    obtain ⟨h₁, h₂, h₃⟩ := hpiece h0 w hw
    exact ⟨h₁, h₂, (forall_mem_cons.mp h₃).2⟩
  · rw [if_pos (by simpa [keeps] using hk)]
    refine .pure ⟨h.skip hk, by simp [hk], by simpa, h.whole, fun h0 w hw ↦ ?_, by simpa⟩
    obtain ⟨h₁, h₂, h₃⟩ := hpiece h0 w hw
    exact ⟨congrArg some h₁, h₂, (forall_mem_cons.mp h₃).2⟩

theorem Ready.putRecord (h : Ready env lo hi all behind c ahead st) (hin : Input lo hi all) :
    Yields env (putRecord env lo hi st c) (Inv env lo hi all (behind ++ [c]) ahead) := by
  obtain ⟨hlo, hhi⟩ := (hin.lsn c h.mem_cur).1
  have hcut : st.dupEndLsn ≠ 0 → CutAt hi c.key st.dupEndLsn ahead st.allKeysIter := fun h0 ↦
    (h.piece h0).2.2
  unfold Level0.putRecord
  by_cases hk : keeps env c
  · rw [if_neg (by simpa [keeps] using hk)]
    rcases hw : st.writer with - | w
    · by_cases h0 : st.dupEndLsn = 0
      · have hnew : Writing st.newLayers (⟨c.key, lo, hi, []⟩ : DeltaLayerWriter Img Rec) :=
          ⟨hlo.trans_lt hhi, by simp, by simp, fun l hl r hr ↦
            .inl (h.fresh hw h0 hk r (h.layer_mem hl hr))⟩
        simp only [h0, ne_eq, not_true, if_false]
        exact h0 ▸ h.push hin hk hnew (by simp [hw]) le_rfl hlo hhi (fun _ ↦ ⟨rfl, rfl⟩)
          (absurd h0) hcut
      · obtain ⟨hstart, hlt, -⟩ := h.piece h0
        have hnew : Writing st.newLayers
            (⟨c.key, st.dupStartLsn, st.dupEndLsn, []⟩ : DeltaLayerWriter Img Rec) := by
          refine ⟨hstart ▸ hlt, by simp, by simp, fun l hl r hr ↦ ?_⟩
          rcases pos_lt_iff.mp (h.lt_cur hin (h.layer_mem hl hr)) with hlt | ⟨-, hlt⟩
          · exact .inl hlt
          · exact .inr (hstart ▸ hlt)
        simp only [ne_eq, h0, not_false_eq_true, if_true]
        exact h.push hin hk hnew (by simp [hw]) le_rfl hstart.le hlt (absurd · h0)
          (fun _ ↦ ⟨rfl, rfl, fun r hr hrk ↦ hstart ▸ (h.lsn_lt_of_key hin hr hrk).le⟩) hcut
    · obtain ⟨h0, hkey, hstart, hend⟩ := h.whole w hw
      exact h.push hin hk (h.writing w hw) (by simp [hw]) hkey (hstart ▸ hlo) (hend ▸ hhi)
        (fun _ ↦ ⟨hstart, hend⟩) (absurd h0) hcut
  · rw [if_pos (by simpa [keeps] using hk)]
    exact .pure ⟨h.skip hk, by simp [hk], fun w hw ↦ ⟨c.key, rfl, (h.whole w hw).2.1⟩,
      fun _ w hw ↦ (h.whole w hw).2.2, fun h0 w hw ↦ absurd (h.whole w hw).1 h0, by simpa⟩

/-- **One turn keeps the invariant.** -/
theorem Inv.turn (h : Inv env lo hi all behind (c :: ahead) st) (hin : Input lo hi all) :
    Yields env (turn env lo hi st c) (Inv env lo hi all (behind ++ [c]) ahead) := by
  unfold Level0.turn
  dsimp only
  split
  · rename_i hb
    refine .bind (h.checkBoundary hin ?_) fun s hs ↦ hs.putRecord hin
    simpa using hb
  · rename_i hb
    simp only [Bool.or_eq_true, Bool.not_eq_true', beq_eq_false_iff_ne, beq_iff_eq, not_or,
      not_not] at hb
    exact h.putRecord hin hb.1 hb.2

theorem run_spec (env : Env Img Rec) (hin : Input lo hi all) {iter : List KeySize}
    (hmem : ∀ q ∈ iter, ∃ r ∈ all, r.key = q.key ∧ r.lsn = q.lsn)
    (hiter : iter.Pairwise KeySize.Lt) :
    Yields env ((all.foldlM (turn env lo hi) ⟨[], none, none, 0, 0, 0, 0, iter⟩).bind
        (finishLast env)) fun layers ↦
      (layers.flatMap fun l ↦ l.records) = all.filter (keeps env) ∧ Finished layers [] := by
  have hinit : Inv env lo hi all [] all ⟨[], none, none, 0, 0, 0, 0, iter⟩ :=
    ⟨⟨rfl, rfl, rfl, ⟨by simp, by simp, .nil⟩, by simp, hmem, hiter⟩, by simp, by simp, by simp,
      by simp, by simp⟩
  refine .bind (Yields.foldlM (fun done t rest s h ↦ h.turn hin) all [] _ hinit) fun s h ↦ ?_
  unfold finishLast
  rcases hw : s.writer with - | w
  · refine .pure ⟨?_, h.finished⟩
    simpa [hw] using h.content
  · refine .map (h.flushWriter hin hw (by simp) rfl rfl) ?_
    rintro _ ⟨layer, rfl, hrec, hfin⟩
    refine ⟨?_, hfin⟩
    simpa [hw, hrec] using h.content

end Loop

/-! ## The input of the loop -/

/-- Where an item of the iterator over the keys begins. -/
private def KeySize.pos (q : KeySize) : Key ×ₗ ℕ := toLex (q.key, q.lsn)

private theorem KeySize.lt_iff {a b : KeySize} : a.Lt b ↔ a.pos < b.pos := by
  simp [Lt, pos, Prod.Lex.lt_iff]

private theorem coalesceFrom_sublist (target : ℕ) (prev : KeySize) (rest : List KeySize) :
    ((coalesceFrom target prev rest).map KeySize.pos).Sublist ((prev :: rest).map KeySize.pos) := by
  induction rest generalizing prev with
  | nil => exact .refl _
  | cons cur rest ih =>
    rw [coalesceFrom]
    split_ifs
    · exact (ih _).trans ((sublist_cons_self _ _).cons_cons _)
    · exact (ih cur).cons_cons _

private theorem coalesce_sublist (target : ℕ) (l : List KeySize) :
    ((coalesce target l).map KeySize.pos).Sublist (l.map KeySize.pos) := by
  cases l with
  | nil => exact .refl _
  | cons first rest => exact coalesceFrom_sublist target first rest

section Deltas

variable {env : Env Img Rec} {deltas : List (Delta Img Rec)}

def Successive (deltas : List (Delta Img Rec)) : Prop :=
  deltas.Pairwise fun a b ↦ a.lsnEnd ≤ b.lsnStart

def sizeOfFiles (deltas : List (Delta Img Rec)) : ℕ := (deltas.map fun l ↦ l.fileSize).sum

/-- The layers of a selection, which begins with the oldest one and goes on without a gap until the
limit is reached; the size of the first layer does not count. -/
structure Selects (env : Env Img Rec) (level0Deltas deltas : List (Delta Img Rec)) (fully : Bool) :
    Prop where
  ne_nil : deltas ≠ []
  contiguous : deltas.IsChain fun a b ↦ b.lsnStart = a.lsnEnd
  /-- If the limit is not reached, there is a gap before the next layer. -/
  oldest : ∃ others, (deltas ++ others).Perm level0Deltas ∧
    (deltas ++ others).Pairwise (·.lsnStart ≤ ·.lsnStart) ∧
    (fully = true → ∀ last ∈ deltas.getLast?, ∀ next ∈ others.head?, next.lsnStart ≠ last.lsnEnd)
  limit_le : fully = false → deltaSizeLimit env ≤ sizeOfFiles deltas.tail
  lt_limit : ∀ ls, ls <+: deltas.tail → ls ≠ [] → fully = true ∨ ls ≠ deltas.tail →
    sizeOfFiles ls < deltaSizeLimit env

private theorem follow_spec (limit : ℕ) (rest : List (Delta Img Rec)) (first : Delta Img Rec)
    (bytes : ℕ) {ls : List (Delta Img Rec)} {fully : Bool}
    (h : follow limit rest first.lsnEnd bytes = (ls, fully)) :
    (first :: ls).IsChain (fun a b ↦ b.lsnStart = a.lsnEnd) ∧
      (∃ others, rest = ls ++ others ∧ (fully = true → ∀ last ∈ (first :: ls).getLast?,
        ∀ next ∈ others.head?, next.lsnStart ≠ last.lsnEnd)) ∧
      (fully = false → limit ≤ bytes + sizeOfFiles ls) ∧
      ∀ ls', ls' <+: ls → ls' ≠ [] → fully = true ∨ ls' ≠ ls → bytes + sizeOfFiles ls' < limit := by
  induction rest generalizing first bytes ls with
  | nil =>
    cases h
    exact ⟨.singleton _, ⟨[], rfl, by simp⟩, by simp, fun ls' hls' hne ↦
      absurd (prefix_nil.mp hls') hne⟩
  | cons l rest ih =>
    rw [follow] at h
    split_ifs at h with hgap hlimit
    · cases h
      exact ⟨.singleton _, ⟨l :: rest, rfl, by simpa using hgap⟩, by simp, fun ls' hls' hne ↦
        absurd (prefix_nil.mp hls') hne⟩
    · cases h
      refine ⟨.cons_cons (not_not.mp hgap) (.singleton l), ⟨rest, rfl, by simp⟩, fun _ ↦ ?_,
        fun ls' hls' hne hproper ↦ ?_⟩
      · simpa [sizeOfFiles] using hlimit
      · rcases prefix_cons_iff.mp hls' with rfl | ⟨t, rfl, ht⟩
        · exact absurd rfl hne
        · rw [prefix_nil.mp ht] at hproper
          exact absurd hproper (by simp)
    · obtain ⟨ls₁, hls₁⟩ : ∃ ls₁, follow limit rest l.lsnEnd (bytes + l.fileSize) =
        (ls₁, fully) := by
        cases h
        exact ⟨_, rfl⟩
      rw [hls₁] at h
      cases h
      obtain ⟨hchain, ⟨others, hrest, hnext⟩, hle, hlt⟩ := ih l _ hls₁
      refine ⟨.cons_cons (not_not.mp hgap) hchain, ⟨others, by rw [hrest, cons_append], ?_⟩,
        fun hfully ↦ ?_, fun ls' hls' hne hproper ↦ ?_⟩
      · simpa using hnext
      · simpa [sizeOfFiles, Nat.add_assoc] using hle hfully
      · rcases prefix_cons_iff.mp hls' with rfl | ⟨t, rfl, ht⟩
        · exact absurd rfl hne
        rcases eq_or_ne t [] with rfl | hne'
        · simpa [sizeOfFiles] using hlimit
        · have := hlt t ht hne' (hproper.imp_right (mt (congrArg (l :: ·))))
          simpa [sizeOfFiles, Nat.add_assoc] using this

private theorem Selects.successive {level0Deltas : List (Delta Img Rec)} {fully : Bool}
    (h : Selects env level0Deltas deltas fully) : Successive deltas := by
  have : IsTrans (Delta Img Rec) fun a b ↦ a.lsnEnd ≤ b.lsnStart :=
    ⟨fun a b c hab hbc ↦ hab.trans (b.lsn_lt.le.trans hbc)⟩
  exact isChain_iff_pairwise.mp (h.contiguous.imp fun a b hab ↦ hab.ge)

theorem select_spec (env : Env Img Rec) {level0Deltas : List (Delta Img Rec)}
    (hne : level0Deltas ≠ []) :
    Selects env level0Deltas (select env level0Deltas).1 (select env level0Deltas).2 := by
  have hperm := mergeSort_perm level0Deltas fun a b ↦ decide (a.lsnStart ≤ b.lsnStart)
  have hsorted : (level0Deltas.mergeSort fun a b ↦ decide (a.lsnStart ≤ b.lsnStart)).Pairwise
      fun a b ↦ decide (a.lsnStart ≤ b.lsnStart) = true :=
    pairwise_mergeSort (by simp; omega) (by simp; omega) _
  unfold select
  split
  · rename_i hsort
    rw [hsort] at hperm
    exact absurd hperm.nil_eq.symm hne
  · rename_i first rest hsort
    rw [hsort] at hperm hsorted
    obtain ⟨hchain, ⟨others, hrest, hnext⟩, hle, hlt⟩ :=
      follow_spec (deltaSizeLimit env) rest first 0 rfl
    simp only [Nat.zero_add] at hle hlt
    rw [hrest] at hperm hsorted
    exact ⟨cons_ne_nil _ _, hchain,
      ⟨others, hperm, hsorted.imp of_decide_eq_true, hnext⟩, hle, hlt⟩

private theorem records_eq_map (deltas : List (Delta Img Rec)) :
    (deltas.flatMap fun l ↦ l.records) = (deltas.flatMap fun l ↦ l.entries).map Prod.fst := by
  simp [DeltaLayer.records, map_flatMap]

/-- The layers of a compaction hold the records of its inputs that this shard keeps, each once, each
in the rectangle of its layer and in that of no other layer. -/
structure Preserves (env : Env Img Rec) (res : Phase1Result Img Rec) : Prop where
  records : (res.newLayers.flatMap fun l ↦ l.records).Perm
    ((res.deltasToCompact.flatMap fun l ↦ l.records).filter (keeps env))
  once : (res.newLayers.flatMap fun l ↦ l.records).Pairwise fun a b ↦ a.pos ≠ b.pos
  inside : ∀ l ∈ res.newLayers, ∀ r ∈ l.records, l.toRect.Contains r.key r.lsn
  apart : res.newLayers.Pairwise Apart

variable (h : Successive deltas) {first last : Delta Img Rec}
  (hfirst : deltas.head? = some first) (hlast : deltas.getLast? = some last)
include h

private theorem Successive.entries_ne :
    (deltas.flatMap fun l ↦ l.entries).Pairwise fun a b ↦ a.1.pos ≠ b.1.pos := by
  refine pairwise_flatMap.mpr ⟨fun l _ ↦ l.sorted.imp fun h ↦ h.ne, h.imp ?_⟩
  intro a b hab x hx y hy hxy
  have h₁ := (a.inside x hx).2.2
  have h₂ := (b.inside y hy).2.1
  have h₃ := (pos_eq_iff.mp hxy).2
  omega

private theorem Successive.iter (target : ℕ) : (∀ q ∈ coalesce target (allKeys deltas),
        ∃ r ∈ deltas.flatMap fun l ↦ l.records, r.key = q.key ∧ r.lsn = q.lsn) ∧
      (coalesce target (allKeys deltas)).Pairwise KeySize.Lt := by
  have hperm := mergeSort_perm (deltas.flatMap fun l ↦ l.entries) fun a b ↦
    decide (a.1.pos ≤ b.1.pos)
  have hpos : (allKeys deltas).map KeySize.pos =
      (((deltas.flatMap fun l ↦ l.entries).mergeSort fun a b ↦
        decide (a.1.pos ≤ b.1.pos)).map Prod.fst).map pos := by
    simp [allKeys, KeySize.pos, pos, Function.comp_def]
  have hsub := coalesce_sublist target (allKeys deltas)
  rw [hpos] at hsub
  constructor
  · intro q hq
    obtain ⟨r, hr, hrq⟩ := mem_map.mp (hsub.subset (mem_map_of_mem hq))
    refine ⟨r, ?_, ?_⟩
    · rw [records_eq_map]
      exact (hperm.map Prod.fst).mem_iff.mp hr
    · simpa [pos, KeySize.pos] using hrq
  · have hsorted := @List.pairwise_mergeSort (Record Img Rec × ℕ)
      (fun a b ↦ decide (a.1.pos ≤ b.1.pos))
      (fun a b c h h' ↦ decide_eq_true ((of_decide_eq_true h).trans (of_decide_eq_true h')))
      (fun a b ↦ by simpa using le_total a.1.pos b.1.pos) (deltas.flatMap fun l ↦ l.entries)
    have hne := (hperm.pairwise_iff fun h ↦ h.symm).mpr h.entries_ne
    have hlt := hsorted.imp₂ (fun a b hle hne ↦ lt_of_le_of_ne (of_decide_eq_true hle) hne) hne
    have hall : ((((deltas.flatMap fun l ↦ l.entries).mergeSort fun a b ↦
        decide (a.1.pos ≤ b.1.pos)).map Prod.fst).map pos).Pairwise (· < ·) :=
      pairwise_map.mpr (pairwise_map.mpr hlt)
    exact (pairwise_map.mp (hall.sublist hsub)).imp KeySize.lt_iff.mpr

include hfirst hlast

private theorem Successive.range {l : Delta Img Rec} (hl : l ∈ deltas) :
    first.lsnStart ≤ l.lsnStart ∧ l.lsnEnd ≤ last.lsnEnd := by
  constructor
  · obtain ⟨rest, rfl⟩ := List.head?_eq_some_iff.mp hfirst
    rcases mem_cons.mp hl with rfl | hl
    · exact le_rfl
    · exact first.lsn_lt.le.trans ((pairwise_cons.mp h).1 l hl)
  · obtain ⟨init, rfl⟩ := List.getLast?_eq_some_iff.mp hlast
    rcases mem_snoc.mp hl with hl | hl
    · exact ((pairwise_append.mp h).2.2 l hl last mem_cons_self).trans last.lsn_lt.le
    · rw [hl]

private theorem Successive.input {all : List (Record Img Rec)}
    (hperm : all.Perm (deltas.flatMap fun l ↦ l.records))
    (hsorted : all.Pairwise fun a b ↦ a.pos ≤ b.pos) : Input first.lsnStart last.lsnEnd all := by
  have hmem : ∀ r ∈ all, ∃ l ∈ deltas, ∃ e ∈ l.entries, e.1 = r := by
    intro r hr
    obtain ⟨l, hl, hr⟩ := mem_flatMap.mp (hperm.mem_iff.mp hr)
    obtain ⟨e, he, rfl⟩ := mem_map.mp hr
    exact ⟨l, hl, e, he, rfl⟩
  refine ⟨?_, fun r hr ↦ ?_, fun r hr ↦ ?_⟩
  · have hne : all.Pairwise fun a b ↦ a.pos ≠ b.pos := by
      refine (hperm.pairwise_iff fun h ↦ h.symm).mpr ?_
      rw [records_eq_map]
      exact pairwise_map.mpr h.entries_ne
    exact hsorted.imp₂ (fun _ _ hle hne ↦ lt_of_le_of_ne hle hne) hne
  · obtain ⟨l, hl, e, he, rfl⟩ := hmem r hr
    have := l.inside e he
    have := h.range hfirst hlast hl
    unfold Rect.Contains at *
    exact ⟨by omega, l.valid e he⟩
  · obtain ⟨l, hl, e, he, rfl⟩ := hmem r hr
    exact l.keyEnd_eq ▸ (l.inside e he).1.2

theorem Successive.rewrite_spec (env : Env Img Rec) (fully : Bool) :
    Yields env (rewrite env deltas first.lsnStart last.lsnEnd) fun layers ↦
      Preserves env ⟨layers, deltas, fully⟩ := by
  obtain ⟨all, hall, hperm, hsorted⟩ := mergeIterator_spec (deltas.map fun l ↦ l.toDeltaLayer)
  rw [flatMap_map] at hperm
  have hin := h.input hfirst hlast hperm hsorted
  obtain ⟨hmem, hiter⟩ := h.iter env.targetFileSize
  have hrun := run_spec env hin (fun q hq ↦ by
    obtain ⟨r, hr, hrq⟩ := hmem q hq
    exact ⟨r, hperm.mem_iff.mpr hr, hrq⟩) hiter
  unfold rewrite
  rw [hall]
  rcases hrun with ⟨layers, hlayers, hrec, hfin⟩ | ⟨hnone, hbig⟩
  · refine .inl ⟨layers, hlayers, ⟨?_, ?_, hfin.inside, hfin.apart⟩⟩
    · rw [hrec]
      exact hperm.filter _
    · rw [hrec]
      exact (hin.sorted.imp fun h ↦ h.ne).filter _
  · exact .inr ⟨hnone, hbig⟩

end Deltas

/-! ## The result -/

theorem worthwhile_of_threshold {level0Deltas : List (Delta Img Rec)} (hne : level0Deltas ≠ [])
    (h : env.compactionThreshold ≤ level0Deltas.length ∨
      env.forceCompactionIgnoreThreshold = true) : worthwhile env level0Deltas = true := by
  unfold worthwhile
  rcases h with h | h
  · simp [hne, Nat.not_lt.mpr h]
  · simp [hne, h]

/-- What a compaction of level 0 does: it preserves the records of the layers that it selects, and
at the threshold it selects the oldest layer and those that follow it, up to the limit. -/
structure Compacts (env : Env Img Rec) (level0Deltas : List (Delta Img Rec))
    (res : Phase1Result Img Rec) : Prop extends Preserves env res where
  successive : Successive res.deltasToCompact
  mem : ∀ l ∈ res.deltasToCompact, l ∈ level0Deltas
  selects : level0Deltas ≠ [] →
    env.compactionThreshold ≤ level0Deltas.length ∨ env.forceCompactionIgnoreThreshold = true →
    Selects env level0Deltas res.deltasToCompact res.fullyCompacted

/-- **Compaction of level 0 preserves the records**, for any set of layers, target size, holes and
shard; it fails only if a file would be larger than the upload limit. -/
theorem compactLevel0Phase1_preserves (env : Env Img Rec) (level0Deltas : List (Delta Img Rec)) :
    (∀ res, compactLevel0Phase1 env level0Deltas = some res → Compacts env level0Deltas res) ∧
      ((∀ rs, env.fileSize rs ≤ s3UploadLimit) →
        ∃ res, compactLevel0Phase1 env level0Deltas = some res) := by
  have key : Yields env (compactLevel0Phase1 env level0Deltas) (Compacts env level0Deltas) := by
    unfold compactLevel0Phase1
    split
    · rename_i hworth
      have hlevel : level0Deltas ≠ [] := by
        rintro rfl
        simp [worthwhile] at hworth
      have hsel := select_spec env hlevel
      obtain ⟨others, hperm, -⟩ := hsel.oldest
      have hmem : ∀ l ∈ (select env level0Deltas).1, l ∈ level0Deltas := fun l hl ↦
        hperm.mem_iff.mp (mem_append_left _ hl)
      obtain ⟨first, hfirst⟩ := ne_none_iff_exists'.mp (mt List.head?_eq_none_iff.mp hsel.ne_nil)
      obtain ⟨last, hlast⟩ := ne_none_iff_exists'.mp (mt List.getLast?_eq_none_iff.mp hsel.ne_nil)
      have hrw := hsel.successive.rewrite_spec hfirst hlast env (select env level0Deltas).2
      rcases hrw with ⟨layers, hlayers, hpres⟩ | ⟨hnone, hbig⟩
      · exact .inl ⟨_, by simp [hfirst, hlast, hlayers], hpres, hsel.successive, hmem,
          fun _ _ ↦ hsel⟩
      · exact .inr ⟨by simp [hfirst, hlast, hnone], hbig⟩
    · rename_i hworth
      exact .pure ⟨⟨by simp, .nil, by simp, .nil⟩, .nil, by simp,
        fun hne h ↦ absurd (worthwhile_of_threshold hne h) hworth⟩
  refine ⟨fun res hres ↦ key.of_some hres, fun hsize ↦ ?_⟩
  rcases key with ⟨res, hres, -⟩ | ⟨-, rs, hbig⟩
  · exact ⟨res, hres⟩
  · exact absurd (hsize rs) hbig.not_ge

/-- Three versions of one key in a layer, with a target size that cuts the key after the first. -/
private def sampleDelta : Delta Unit Unit where
  keyStart := Key.min
  keyEnd := Key.max
  lsnStart := 16
  lsnEnd := 64
  entries := [(⟨⟨0, 1663, 5, 16385, 0, 7⟩, 16, .image ()⟩, 10),
    (⟨⟨0, 1663, 5, 16385, 0, 7⟩, 24, .walRecord ()⟩, 10),
    (⟨⟨0, 1663, 5, 16385, 0, 7⟩, 32, .walRecord ()⟩, 10)]
  fileSize := 30
  lsn_lt := by decide
  sorted := by decide
  inside := by decide
  valid := by decide
  keyStart_eq := rfl
  keyEnd_eq := rfl

private def sampleEnv : Env Unit Unit where
  targetFileSize := 10
  holes := []
  shard := .unsharded
  writtenSize rs := rs.length
  fileSize rs := min rs.length 100
  compactionThreshold := 1
  compactionUpperLimit := 10
  checkpointDistance := 1
  forceCompactionIgnoreThreshold := false
  forceCompactionLsn := none

/-- The layer after it, with a version of another key. -/
private def sampleNext : Delta Unit Unit where
  keyStart := Key.min
  keyEnd := Key.max
  lsnStart := 64
  lsnEnd := 72
  entries := [(⟨⟨0, 1663, 5, 16385, 0, 9⟩, 70, .walRecord ()⟩, 10)]
  fileSize := 10
  lsn_lt := by decide
  sorted := by decide
  inside := by decide
  valid := by decide
  keyStart_eq := rfl
  keyEnd_eq := rfl

/-- Both layers are selected, and all four records are written. -/
theorem compactLevel0Phase1_preserves_sample :
    ∃ res, compactLevel0Phase1 sampleEnv [sampleNext, sampleDelta] = some res ∧
      Compacts sampleEnv [sampleNext, sampleDelta] res ∧
      res.deltasToCompact = [sampleDelta, sampleNext] ∧
      (res.newLayers.flatMap fun l ↦ l.records).length = 4 := by
  obtain ⟨hspec, htotal⟩ := compactLevel0Phase1_preserves sampleEnv [sampleNext, sampleDelta]
  obtain ⟨res, hres⟩ := htotal fun rs ↦ (min_le_right _ _).trans (by decide)
  have hcompacts := hspec res hres
  have hsel := hcompacts.selects (by simp) (.inl (by decide))
  obtain ⟨others, hperm, hsorted, hnext⟩ := hsel.oldest
  have hsplit : res.deltasToCompact ++ others = [sampleDelta, sampleNext] := by
    refine (hperm.trans (.swap _ _ _)).eq_of_pairwise (fun a b ha hb hab hba ↦ ?_) hsorted
      (pairwise_pair.mpr (by decide))
    have ha := hperm.mem_iff.mp ha
    simp only [mem_cons, not_mem_nil, or_false] at ha hb
    rcases ha with rfl | rfl <;> rcases hb with rfl | rfl
    · exact absurd hab (by decide)
    · rfl
    · rfl
    · exact absurd hba (by decide)
  have hdeltas : res.deltasToCompact = [sampleDelta, sampleNext] := by
    rcases append_eq_cons_iff.mp hsplit with ⟨hnil, -⟩ | ⟨ls, hls, hrest⟩
    · exact absurd hnil hsel.ne_nil
    cases ls with
    | nil =>
      -- one layer alone is neither before a gap nor up to the limit
      have hothers : others.head? = some sampleNext := congrArg head? hrest.symm
      cases hfully : res.fullyCompacted with
      | true => exact absurd rfl (hnext hfully sampleDelta (by simp [hls]) sampleNext hothers)
      | false => exact absurd (hsel.limit_le hfully) (by rw [hls]; decide)
    | cons l ls =>
      simp only [cons_append, cons.injEq, nil_eq_append_iff] at hrest
      obtain ⟨rfl, rfl, -⟩ := hrest
      exact hls
  refine ⟨res, hres, hcompacts, hdeltas, ?_⟩
  rw [hcompacts.records.length_eq, hdeltas]
  rfl

end NeonStorage.Pageserver.Level0
