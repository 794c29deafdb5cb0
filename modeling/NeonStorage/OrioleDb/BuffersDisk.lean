import NeonStorage.OrioleDb.Buffers

/-!
# The local files and the mirror of a log

`expected` says which value a byte has according to the history of its log: the last one written,
unless it was still in a buffer when the compute was restarted, or its file was unlinked.

Bytes that were written out are at the pageserver, and a local file that is long enough to have them
agrees (`DiskInv`). Both writing out a block and reading one keep this, as long as what happens to
the log is `Allowed`.
-/

namespace NeonStorage.OrioleDb

open Function OBuffersDesc Prod

/-! ## What the history says -/

/-- The value of a byte, and whether it was written out. -/
def expected (desc : OBuffersDesc) : List Event → Tag → ℕ → Option (UInt8 × Bool)
  | [], _, _ => none
  | .wrote t offset size data :: es, tag, x =>
    if t = tag ∧ offset ≤ x ∧ x < offset + size then some (data (x - offset), false)
    else expected desc es tag x
  | .flushed t b _ _ :: es, tag, x =>
    if t = tag ∧ x / blcksz = b then (expected desc es tag x).map fun e ↦ (e.1, true)
    else expected desc es tag x
  | .unlinked t f :: es, tag, x =>
    if t = tag ∧ x / desc.singleFileSize = f then none else expected desc es tag x
  | .restarted :: es, tag, x => (expected desc es tag x).filter (·.2)

def unlinkedSince : List Event → Tag → ℕ → Bool
  | [], _, _ => false
  | .unlinked t f :: es, tag, fileNum => (t = tag ∧ f = fileNum) || unlinkedSince es tag fileNum
  | .restarted :: _, _, _ => false
  | .wrote _ _ _ _ :: es, tag, fileNum => unlinkedSince es tag fileNum
  | .flushed _ _ _ _ :: es, tag, fileNum => unlinkedSince es tag fileNum

/-- What may happen to a log: block numbers have 32 bits, a file is not written after it was
unlinked, a buffer is mirrored when it is written out, and no block is written beyond the end of its
file. -/
def Allowed (desc : OBuffersDesc) (es : List Event) : Event → Prop
  | .wrote tag offset size _ => ∀ x, offset ≤ x → x < offset + size →
      unlinkedSince es tag (x / desc.singleFileSize) = false
  | .flushed _ blockNum fileLen mirrored => blockNum < 2 ^ 32 - 1 ∧ mirrored = true ∧
      desc.filePos blockNum ≤ fileLen
  | .unlinked _ _ => True
  | .restarted => True

def AllAllowed (desc : OBuffersDesc) : List Event → Prop
  | [] => True
  | e :: es => Allowed desc es e ∧ AllAllowed desc es

variable {es : List Event} {x : ℕ} {desc : OBuffersDesc}

theorem expected_eq_none_of_unlinkedSince {tag : Tag}
    (h : AllAllowed desc es) (hu : unlinkedSince es tag (x / desc.singleFileSize) = true) :
    expected desc es tag x = none := by
  induction es with
  | nil => rfl
  | cons e es ih =>
    cases e with
    | wrote t offset size data =>
      rw [expected]
      split_ifs with hin
      · have := h.1 x hin.2.1 hin.2.2
        rw [hin.1, show unlinkedSince es tag _ = true from hu] at this
        contradiction
      · exact ih h.2 hu
    | flushed t b len m =>
      rw [expected, ih h.2 hu]
      simp
    | unlinked t f =>
      rw [expected]
      split_ifs with hin
      · rfl
      · refine ih h.2 ?_
        rw [unlinkedSince, Bool.or_eq_true] at hu
        exact hu.resolve_left fun ht ↦ hin ⟨(of_decide_eq_true ht).1, (of_decide_eq_true ht).2.symm⟩
    | restarted => nomatch hu

section Position

variable (desc : OBuffersDesc) (x : ℕ)

theorem fileNum_div : desc.fileNum (x / blcksz) = x / desc.singleFileSize := by
  rw [fileNum, singleFileSize, Nat.div_div_eq_div_mul, Nat.mul_comm]

theorem filePos_div : desc.filePos (x / blcksz) + x % blcksz = x % desc.singleFileSize := by
  rw [filePos, singleFileSize, Nat.mul_mod_mul_right,
    Nat.mul_comm desc.blocksPerFile, Nat.mod_mul, Nat.add_comm, Nat.mul_comm blcksz]

theorem filePos_eq (b : ℕ) : desc.filePos b = b % desc.blocksPerFile * blcksz := by
  rw [filePos, singleFileSize, Nat.mul_mod_mul_right]

variable {desc x}

theorem div_eq_of_filePos {b : ℕ} (hfile : x / desc.singleFileSize = desc.fileNum b)
    (hle : desc.filePos b ≤ x % desc.singleFileSize)
    (hlt : x % desc.singleFileSize < desc.filePos b + blcksz) : x / blcksz = b := by
  rw [← fileNum_div] at hfile
  rw [← filePos_div, filePos_eq, filePos_eq] at hle hlt
  have hmod : x / blcksz % desc.blocksPerFile = b % desc.blocksPerFile := by
    generalize x / blcksz % desc.blocksPerFile = c at *
    simp only [blcksz] at *
    omega
  rw [← Nat.div_add_mod (x / blcksz) desc.blocksPerFile, hmod]
  unfold fileNum at hfile
  rw [hfile, Nat.div_add_mod]

end Position

/-! ## Files and the mirror -/

/-- A byte of a page at the pageserver. If the local file has the byte too, they agree. -/
structure OnDisk (desc : OBuffersDesc) (d : Disk) (tag : Tag) (x : ℕ) (v : UInt8) : Prop where
  block_lt : x / blcksz < 2 ^ 32
  nblocks : x / blcksz < (d.mirror (desc.relnode tag)).nblocks
  mirror : (d.mirror (desc.relnode tag)).page (x / blcksz) (x % blcksz) = v
  file : ∀ i, d.dir (tag, x / desc.singleFileSize) = some i →
    x % desc.singleFileSize < (d.inodes i).len → (d.inodes i).byte (x % desc.singleFileSize) = v

/-- What a process has open under a name: the file of that name, unless it was unlinked, and in any
case not the file of another name. -/
structure Opened (d : Disk) (tag : Tag) (fileNum i : ℕ) : Prop where
  lt : i < d.nextInode
  dir : unlinkedSince d.events tag fileNum = false → d.dir (tag, fileNum) = some i
  name : ∀ name, d.dir name = some i → name = (tag, fileNum)

/-- The files of a log, and whatever was written out is there. -/
structure DiskInv (desc : OBuffersDesc) (d : Disk) : Prop where
  dir_lt : ∀ name i, d.dir name = some i → i < d.nextInode
  dir_inj : ∀ name name' i, d.dir name = some i → d.dir name' = some i → name = name'
  cur : ∀ p c, d.curFile p = some c → Opened d c.tag c.fileNum c.inode
  onDisk : ∀ tag x v, expected desc d.events tag x = some (v, true) → OnDisk desc d tag x v

/-- Opening a file changes neither pages nor the history. -/
structure SameData (d d' : Disk) : Prop where
  mirror : d'.mirror = d.mirror
  events : d'.events = d.events

/-- The history goes on, and the pages of other logs stay. -/
structure Extends (desc : OBuffersDesc) (d d' : Disk) : Prop where
  events : d.events <:+ d'.events
  mirror : ∀ relnode, (∀ tag, relnode ≠ desc.relnode tag) → d'.mirror relnode = d.mirror relnode

/-- The history goes on with blocks that are written out. -/
inductive Flushes (es : List Event) : List Event → Prop where
  | refl : Flushes es es
  | flushed {es' : List Event} (tag : Tag) (blockNum fileLen : ℕ) (mirrored : Bool)
      (h : Flushes es es') : Flushes es (.flushed tag blockNum fileLen mirrored :: es')

variable {v : UInt8} {fl : Bool}

section Extends

variable {desc : OBuffersDesc} {d d' d'' : Disk} {es es' es'' : List Event}

theorem Extends.refl (desc : OBuffersDesc) (d : Disk) : Extends desc d d :=
  ⟨List.suffix_refl _, fun _ _ ↦ rfl⟩

theorem Extends.trans (h : Extends desc d d') (h' : Extends desc d' d'') : Extends desc d d'' :=
  ⟨h.events.trans h'.events, fun r hr ↦ (h'.mirror r hr).trans (h.mirror r hr)⟩

theorem SameData.extends (h : SameData d d') : Extends desc d d' :=
  ⟨h.events ▸ List.suffix_refl _, fun _ _ ↦ by rw [h.mirror]⟩

theorem AllAllowed.of_suffix (h : AllAllowed desc es') (hs : es <:+ es') : AllAllowed desc es := by
  induction es' with
  | nil => rwa [List.suffix_nil.mp hs]
  | cons e es' ih =>
    rcases List.suffix_cons_iff.mp hs with rfl | hs
    · exact h
    · exact ih h.2 hs

theorem expected_flushed {t tag : Tag} {b len x : ℕ} {m : Bool}
    (h : expected desc (.flushed t b len m :: es) tag x = some (v, fl)) :
    ∃ fl', expected desc es tag x = some (v, fl') ∧
      ((t = tag ∧ x / blcksz = b ∧ fl = true) ∨ (¬ (t = tag ∧ x / blcksz = b) ∧ fl' = fl)) := by
  rw [expected] at h
  split_ifs at h with heq
  · obtain ⟨⟨v', fl'⟩, hold, hpair⟩ := Option.map_eq_some_iff.mp h
    cases hpair
    exact ⟨fl', hold, .inl ⟨heq.1, heq.2, rfl⟩⟩
  · exact ⟨fl, h, .inr ⟨heq, rfl⟩⟩

theorem Flushes.expected (h : Flushes es es') {tag : Tag}
    (he : expected desc es tag x = some (v, fl)) :
    ∃ fl', expected desc es' tag x = some (v, fl') := by
  induction h with
  | refl => exact ⟨fl, he⟩
  | flushed t b len m _ ih =>
    obtain ⟨fl', he'⟩ := ih
    rw [OrioleDb.expected, he']
    split_ifs
    · exact ⟨true, rfl⟩
    · exact ⟨fl', rfl⟩

end Extends

section OpenFile

variable {desc : OBuffersDesc} {d d' : Disk} {p : ℕ} {tag : Tag} {fileNum : ℕ} {create : Bool}
  {r : Option ℕ}

theorem DiskInv.setCur (h : DiskInv desc d) (p : ℕ) {o : Option OpenFile}
    (ho : ∀ c, o = some c → Opened d c.tag c.fileNum c.inode) :
    DiskInv desc { d with curFile := update d.curFile p o } where
  dir_lt := h.dir_lt
  dir_inj := h.dir_inj
  cur := by
    intro q c hc
    have hopened : Opened d c.tag c.fileNum c.inode := by
      by_cases hq : q = p
      · subst hq
        exact ho c ((update_self q o d.curFile).symm.trans hc)
      · exact h.cur q c ((update_of_ne hq o d.curFile).symm.trans hc)
    exact ⟨hopened.lt, hopened.dir, hopened.name⟩
  onDisk := fun tag x v hx ↦ ⟨(h.onDisk tag x v hx).block_lt, (h.onDisk tag x v hx).nblocks,
    (h.onDisk tag x v hx).mirror, (h.onDisk tag x v hx).file⟩

theorem DiskInv.opened (h : DiskInv desc d) {i : ℕ} (hdir : d.dir (tag, fileNum) = some i) :
    Opened d tag fileNum i :=
  ⟨h.dir_lt _ i hdir, fun _ ↦ hdir, fun name hname ↦ h.dir_inj name _ i hname hdir⟩

theorem DiskInv.newFile (h : DiskInv desc d) (hdir : d.dir (tag, fileNum) = none) :
    DiskInv desc { d with
      dir := update d.dir (tag, fileNum) (some d.nextInode)
      inodes := update d.inodes d.nextInode .empty
      nextInode := d.nextInode + 1 } := by
  have hcases : ∀ name i, update d.dir (tag, fileNum) (some d.nextInode) name = some i →
      (name = (tag, fileNum) ∧ i = d.nextInode) ∨ (d.dir name = some i ∧ i < d.nextInode) := by
    intro name i hi
    by_cases hname : name = (tag, fileNum)
    · subst hname
      rw [update_self] at hi
      exact .inl ⟨rfl, (Option.some.inj hi).symm⟩
    · rw [update_of_ne hname] at hi
      exact .inr ⟨hi, h.dir_lt name i hi⟩
  constructor
  · intro name i hi
    rcases hcases name i hi with ⟨-, rfl⟩ | ⟨-, hlt⟩
    · exact Nat.lt_succ_self _
    · exact hlt.trans (Nat.lt_succ_self _)
  · intro name name' i hi hi'
    rcases hcases name i hi with ⟨rfl, rfl⟩ | ⟨hi, hlt⟩ <;>
      rcases hcases name' _ hi' with ⟨rfl, heq⟩ | ⟨hi', hlt'⟩
    · rfl
    · exact absurd hlt' (lt_irrefl _)
    · exact absurd heq hlt.ne
    · exact h.dir_inj name name' i hi hi'
  · intro q c hc
    have hopened := h.cur q c hc
    refine ⟨hopened.lt.trans (Nat.lt_succ_self _), fun hun ↦ ?_, fun name hname ↦ ?_⟩
    · have hold := hopened.dir hun
      have hne : (c.tag, c.fileNum) ≠ (tag, fileNum) := by
        intro heq
        rw [heq, hdir] at hold
        cases hold
      exact (update_of_ne hne _ _).trans hold
    · rcases hcases name _ hname with ⟨-, heq⟩ | ⟨hold, -⟩
      · exact absurd heq hopened.lt.ne
      · exact hopened.name name hold
  · intro t x v hx
    have hold := h.onDisk t x v hx
    refine ⟨hold.block_lt, hold.nblocks, hold.mirror, fun i hi ↦ ?_⟩
    dsimp only at hi ⊢
    rcases hcases _ i hi with ⟨-, rfl⟩ | ⟨hi, hlt⟩
    · rw [update_self]
      exact fun hlen ↦ absurd hlen (Nat.not_lt_zero _)
    · rw [update_of_ne hlt.ne]
      exact hold.file i hi

theorem openPath_spec (desc : OBuffersDesc) (ho : d.openPath p tag fileNum create = (r, d')) :
    SameData d d' ∧ (r = none → create = false) ∧
      (DiskInv desc d → DiskInv desc d' ∧ ∀ i, r = some i → Opened d' tag fileNum i) := by
  unfold Disk.openPath at ho
  cases hdir : d.dir (tag, fileNum) with
  | some i =>
    rw [hdir] at ho
    cases ho
    refine ⟨⟨rfl, rfl⟩, nofun, fun h ↦ ?_⟩
    have hopened := h.opened hdir
    refine ⟨h.setCur p ?_, ?_⟩
    · rintro c ⟨⟩
      exact hopened
    · rintro j ⟨⟩
      exact ⟨hopened.lt, hopened.dir, hopened.name⟩
  | none =>
    rw [hdir] at ho
    cases create with
    | true =>
      cases ho
      refine ⟨⟨rfl, rfl⟩, nofun, fun h ↦ ?_⟩
      have hopened := (h.newFile hdir).opened (update_self (tag, fileNum) _ d.dir)
      refine ⟨(h.newFile hdir).setCur p ?_, ?_⟩
      · rintro c ⟨⟩
        exact hopened
      · rintro j ⟨⟩
        exact ⟨hopened.lt, hopened.dir, hopened.name⟩
    | false =>
      cases ho
      exact ⟨⟨rfl, rfl⟩, fun _ ↦ rfl, fun h ↦ ⟨h.setCur p nofun, nofun⟩⟩

theorem openFile_spec (desc : OBuffersDesc) (ho : d.openFile p tag fileNum create = (r, d')) :
    SameData d d' ∧ (r = none → create = false) ∧
      (DiskInv desc d → DiskInv desc d' ∧ ∀ i, r = some i → Opened d' tag fileNum i) := by
  unfold Disk.openFile at ho
  cases hcur : d.curFile p with
  | none =>
    rw [hcur] at ho
    exact openPath_spec desc ho
  | some c =>
    rw [hcur] at ho
    dsimp only at ho
    split_ifs at ho with heq
    · cases ho
      obtain ⟨rfl, rfl⟩ := heq
      refine ⟨⟨rfl, rfl⟩, nofun, fun h ↦ ⟨h, fun i hi ↦ ?_⟩⟩
      rw [← Option.some.inj hi]
      exact h.cur p c hcur
    · exact openPath_spec desc ho

end OpenFile

/-! ## Writing out and reading a block -/

/-- The page has the values that are expected of its block. -/
def Agrees (desc : OBuffersDesc) (es : List Event) (tag : Tag) (b : ℕ) (data : PageData) : Prop :=
  ∀ x v fl, x / blcksz = b → expected desc es tag x = some (v, fl) → data (x % blcksz) = v

theorem relnode_inj {tag tag' : Tag} (h : desc.relnode tag = desc.relnode tag') : tag = tag' := by
  unfold relnode at h
  exact Fin.ext (by omega)

section WriteOut

variable {desc : OBuffersDesc} {d d' : Disk} {p : ℕ} {tag : Tag} {b : ℕ} {data : PageData}

theorem DiskInv.putMirror (h : DiskInv desc d) (hag : Agrees desc d.events tag b data)
    (hb : b < 2 ^ 32) : DiskInv desc { d with
      mirror := update d.mirror (desc.relnode tag)
        ((d.mirror (desc.relnode tag)).put (b % 2 ^ 32) data) } where
  dir_lt := h.dir_lt
  dir_inj := h.dir_inj
  cur := fun q c hc ↦ have ⟨hlt, hdir, hname⟩ := h.cur q c hc; ⟨hlt, hdir, hname⟩
  onDisk := by
    intro t x v hx
    have hold := h.onDisk t x v hx
    rw [Nat.mod_eq_of_lt hb]
    by_cases ht : t = tag
    · subst ht
      refine ⟨hold.block_lt, ?_, ?_, hold.file⟩
      · dsimp only
        rw [update_self]
        exact hold.nblocks.trans_le (Nat.le_max_left _ _)
      · dsimp only
        rw [update_self, MirrorRel.put]
        dsimp only
        by_cases hxb : x / blcksz = b
        · rw [hxb, update_self]
          exact hag x v true hxb hx
        · rw [update_of_ne hxb]
          exact hold.mirror
    · have hne : desc.relnode t ≠ desc.relnode tag := fun heq ↦ ht (relnode_inj heq)
      refine ⟨hold.block_lt, ?_, ?_, hold.file⟩
      · dsimp only
        rw [update_of_ne hne]
        exact hold.nblocks
      · dsimp only
        rw [update_of_ne hne]
        exact hold.mirror

theorem DiskInv.writeBlock (h : DiskInv desc d) {i : ℕ} (ho : Opened d tag (desc.fileNum b) i)
    (hag : Agrees desc d.events tag b data) (hb : b < 2 ^ 32)
    (hblocks : b < (d.mirror (desc.relnode tag)).nblocks)
    (hpage : (d.mirror (desc.relnode tag)).page b = data)
    (hpos : desc.filePos b ≤ (d.inodes i).len) (hall : AllAllowed desc d.events) (m : Bool) :
    DiskInv desc { d with
      inodes := update d.inodes i ((d.inodes i).write (desc.filePos b) data)
      events := .flushed tag b (d.inodes i).len m :: d.events } where
  dir_lt := h.dir_lt
  dir_inj := h.dir_inj
  cur := fun q c hc ↦ have ⟨hlt, hdir, hname⟩ := h.cur q c hc; ⟨hlt, hdir, hname⟩
  onDisk := by
    intro t x v hx
    obtain ⟨fl, hold, hcase⟩ := expected_flushed hx
    have hin : t = tag → x / blcksz = b → data (x % blcksz) = v := by
      rintro rfl hxb
      exact hag x v fl hxb hold
    have hfile : ∀ j, d.dir (t, x / desc.singleFileSize) = some j →
        x % desc.singleFileSize < (update d.inodes i
          ((d.inodes i).write (desc.filePos b) data) j).len →
        (update d.inodes i ((d.inodes i).write (desc.filePos b) data) j).byte
          (x % desc.singleFileSize) = v := by
      intro j hj hlen
      by_cases hji : j = i
      · subst hji
        obtain ⟨rfl, hnum⟩ := mk.inj (ho.name _ hj)
        rw [update_self] at hlen ⊢
        rw [LocalFile.write] at hlen ⊢
        dsimp only at hlen ⊢
        split_ifs with hblock hlt
        · -- the block itself
          have hxb := div_eq_of_filePos hnum hblock.1 hblock.2
          rw [← hin rfl hxb, ← filePos_div, hxb, Nat.add_sub_cancel_left]
        · rcases hcase with ⟨-, hxb, -⟩ | ⟨-, rfl⟩
          · refine absurd ?_ hblock
            have hx : x % blcksz < blcksz := Nat.mod_lt _ (by decide)
            rw [← filePos_div, hxb]
            omega
          · exact (h.onDisk t x v hold).file j hj hlt
        · -- there is nothing between the old end of the file and the block
          omega
      · rw [update_of_ne hji] at hlen ⊢
        rcases hcase with ⟨rfl, hxb, -⟩ | ⟨-, rfl⟩
        · -- the name now stands for another file, so this one was unlinked
          rw [← hxb, fileNum_div] at ho
          cases hu : unlinkedSince d.events tag (x / desc.singleFileSize) with
          | false => exact absurd (Option.some.inj (hj.symm.trans (ho.dir hu))) hji
          | true =>
            rw [expected_eq_none_of_unlinkedSince hall hu] at hold
            nomatch hold
        · exact (h.onDisk t x v hold).file j hj hlen
    rcases hcase with ⟨rfl, hxb, -⟩ | ⟨hne, rfl⟩
    · refine ⟨hxb ▸ hb, hxb ▸ hblocks, ?_, hfile⟩
      rw [hxb, hpage]
      exact hin rfl hxb
    · have hdisk := h.onDisk t x v hold
      exact ⟨hdisk.block_lt, hdisk.nblocks, hdisk.mirror, hfile⟩

theorem writeBufferData_eq (desc : OBuffersDesc) (d : Disk) (p : ℕ) (checkpointIsShutdown : Bool)
    (tag : Tag) (b : ℕ) (data : PageData) : ∃ i d', Disk.openFile { d with
        mirror := if checkpointIsShutdown then d.mirror else update d.mirror (desc.relnode tag)
            ((d.mirror (desc.relnode tag)).put (b % 2 ^ 32) data) }
        p tag (desc.fileNum b) true = (some i, d') ∧
      d.writeBufferData desc p checkpointIsShutdown tag b data = { d' with
        inodes := update d'.inodes i ((d'.inodes i).write (desc.filePos b) data)
        events := .flushed tag b (d'.inodes i).len (!checkpointIsShutdown) :: d.events } := by
  unfold Disk.writeBufferData Disk.writeFile
  dsimp only
  rcases hopen : Disk.openFile _ p tag (desc.fileNum b) true with ⟨r, d'⟩
  obtain ⟨hsame, hsome, -⟩ := openFile_spec desc hopen
  cases r with
  | none => nomatch hsome rfl
  | some i =>
    refine ⟨i, d', rfl, ?_⟩
    dsimp only
    rw [hsame.events]

theorem writeBufferData_effect (desc : OBuffersDesc) (d : Disk) (p : ℕ)
    (checkpointIsShutdown : Bool) (tag : Tag) (b : ℕ) (data : PageData) :
    Extends desc d (d.writeBufferData desc p checkpointIsShutdown tag b data) ∧
      ∃ len m, (d.writeBufferData desc p checkpointIsShutdown tag b data).events =
        .flushed tag b len m :: d.events := by
  obtain ⟨i, d', hopen, heq⟩ := writeBufferData_eq desc d p checkpointIsShutdown tag b data
  rw [heq]
  refine ⟨⟨List.suffix_cons _ _, fun r hr ↦ ?_⟩, _, _, rfl⟩
  rw [(openFile_spec desc hopen).1.mirror]
  split_ifs
  · rfl
  · exact update_of_ne (hr tag) _ _

theorem writeBufferData_spec (h : DiskInv desc d) (hag : Agrees desc d.events tag b data)
    {checkpointIsShutdown : Bool}
    (hall : AllAllowed desc (d.writeBufferData desc p checkpointIsShutdown tag b data).events) :
    DiskInv desc (d.writeBufferData desc p checkpointIsShutdown tag b data) := by
  obtain ⟨i, d', hopen, heq⟩ := writeBufferData_eq desc d p checkpointIsShutdown tag b data
  rw [heq] at hall ⊢
  obtain ⟨⟨hb, hm, hpos⟩, hrest⟩ := hall
  obtain rfl : checkpointIsShutdown = false := by simpa using hm
  obtain ⟨hsame, -, hkeep⟩ := openFile_spec desc hopen
  obtain ⟨hinv, hopened⟩ := hkeep (h.putMirror hag (by omega))
  have hmirror : d'.mirror (desc.relnode tag) = (d.mirror (desc.relnode tag)).put b data := by
    rw [hsame.mirror, Nat.mod_eq_of_lt (by omega)]
    exact update_self ..
  have hwritten := hinv.writeBlock (hopened i rfl) (hsame.events ▸ hag) (by omega)
    (hmirror ▸ Nat.le_max_right _ _) (hmirror ▸ update_self ..) hpos (hsame.events ▸ hrest)
    !false
  rwa [hsame.events] at hwritten

end WriteOut

section ReadBack

variable {desc : OBuffersDesc} {d d' : Disk} {p : ℕ} {tag : Tag} {b : ℕ} {missingOk : Bool}
  {r : Option PageData}

theorem OnDisk.fallback (h : OnDisk desc d tag x v) :
    ∃ page, d.fallback desc tag (x / blcksz) = some page ∧ page (x % blcksz) = v := by
  refine ⟨_, ?_, h.mirror⟩
  have hlt := h.nblocks
  unfold Disk.fallback
  rw [Nat.mod_eq_of_lt h.block_lt, if_neg (Nat.ne_zero_of_lt hlt), if_neg (Nat.not_le.mpr hlt)]

theorem readBuffer_effect (hr : d.readBuffer desc p tag b missingOk = (r, d')) :
    SameData d d' ∧ (r = none → missingOk = true) := by
  unfold Disk.readBuffer at hr
  rcases hopen : d.openFile p tag (desc.fileNum b) !missingOk with ⟨o, d₁⟩
  obtain ⟨hsame, hnone, -⟩ := openFile_spec desc hopen
  rw [hopen] at hr
  cases o with
  | none =>
    cases hr
    exact ⟨hsame, fun _ ↦ by simpa using hnone rfl⟩
  | some i =>
    dsimp only at hr
    split_ifs at hr
    · cases hr
      exact ⟨hsame, nofun⟩
    · cases hr
      exact ⟨hsame, nofun⟩

theorem readBuffer_spec (h : DiskInv desc d) (hall : AllAllowed desc d.events)
    (hfl : ∀ x v fl, x / blcksz = b → expected desc d.events tag x = some (v, fl) → fl = true)
    (hr : d.readBuffer desc p tag b missingOk = (r, d')) :
    DiskInv desc d' ∧ ∀ data, r = some data → Agrees desc d.events tag b data := by
  unfold Disk.readBuffer at hr
  rcases hopen : d.openFile p tag (desc.fileNum b) !missingOk with ⟨o, d₁⟩
  obtain ⟨hsame, -, hkeep⟩ := openFile_spec desc hopen
  obtain ⟨hinv, hopened⟩ := hkeep h
  have hdisk : ∀ x v fl, x / blcksz = b → expected desc d.events tag x = some (v, fl) →
      OnDisk desc d₁ tag x v := by
    intro x v fl hx he
    obtain rfl := hfl x v fl hx he
    exact hinv.onDisk tag x v (hsame.events ▸ he)
  rw [hopen] at hr
  cases o with
  | none =>
    cases hr
    refine ⟨hinv, ?_⟩
    intro data hdata x v fl hx he
    obtain ⟨page, hpage, hv⟩ := (hdisk x v fl hx he).fallback
    rw [hx, hdata] at hpage
    exact Option.some.inj hpage ▸ hv
  | some i =>
    dsimp only at hr
    split_ifs at hr with hshort
    · cases hr
      refine ⟨hinv, ?_⟩
      rintro data ⟨⟩ x v fl hx he
      obtain ⟨page, hpage, hv⟩ := (hdisk x v fl hx he).fallback
      rw [← hx, hpage]
      exact hv
    · obtain ⟨rfl, rfl⟩ := mk.inj hr
      refine ⟨hinv, ?_⟩
      rintro data ⟨⟩ x v fl hx he
      -- an open file that something is expected of has its name
      have hname : d₁.dir (tag, x / desc.singleFileSize) = some i := by
        rw [← fileNum_div, hx]
        refine (hopened i rfl).dir ?_
        rw [← hx, fileNum_div, hsame.events, ← Bool.not_eq_true]
        intro hu
        rw [expected_eq_none_of_unlinkedSince hall hu] at he
        nomatch he
      have hlen : x % desc.singleFileSize < (d₁.inodes i).len := by
        have hlt : x % blcksz < blcksz := Nat.mod_lt _ (by decide)
        rw [← filePos_div, hx]
        omega
      rw [← (hdisk x v fl hx he).file i hname hlen, ← filePos_div, hx]

end ReadBack

/-! ## Other events -/

section OtherEvents

variable {desc : OBuffersDesc} {d : Disk} {tag : Tag}

theorem expected_wrote {t : Tag} {off n x : ℕ} {src : ℕ → UInt8}
    (h : expected desc (.wrote t off n src :: es) tag x = some (v, fl)) :
    (t = tag ∧ off ≤ x ∧ x < off + n ∧ v = src (x - off) ∧ fl = false) ∨
      (¬ (t = tag ∧ off ≤ x ∧ x < off + n) ∧ expected desc es tag x = some (v, fl)) := by
  rw [expected] at h
  split_ifs at h with hin
  · cases h
    exact .inl ⟨hin.1, hin.2.1, hin.2.2, rfl, rfl⟩
  · exact .inr ⟨hin, h⟩

theorem DiskInv.wrote (h : DiskInv desc d) (off n : ℕ)
    (src : ℕ → UInt8) : DiskInv desc { d with events := .wrote tag off n src :: d.events } where
  dir_lt := h.dir_lt
  dir_inj := h.dir_inj
  cur := fun q c hc ↦ have ⟨hlt, hdir, hname⟩ := h.cur q c hc; ⟨hlt, hdir, hname⟩
  onDisk := by
    intro t x v hx
    rcases expected_wrote hx with ⟨-, -, -, -, hfl⟩ | ⟨-, hold⟩
    · cases hfl
    · have hdisk := h.onDisk t x v hold
      exact ⟨hdisk.block_lt, hdisk.nblocks, hdisk.mirror, hdisk.file⟩

theorem expected_unlinked {t : Tag} {f x : ℕ} {e : UInt8 × Bool}
    (h : expected desc (.unlinked t f :: es) tag x = some e) :
    ¬ (t = tag ∧ x / desc.singleFileSize = f) ∧ expected desc es tag x = some e := by
  rw [expected] at h
  split_ifs at h with hin
  exact ⟨hin, h⟩

theorem DiskInv.unlinkFile (h : DiskInv desc d) (tag : Tag) (fileNumber : ℕ) :
    DiskInv desc (OBuffers.unlinkFile d tag fileNumber) := by
  have hdir : ∀ name i, (OBuffers.unlinkFile d tag fileNumber).dir name = some i →
      d.dir name = some i := by
    intro name i hi
    unfold OBuffers.unlinkFile at hi
    dsimp only at hi
    by_cases hname : name = (tag, fileNumber)
    · rw [hname, update_self] at hi
      cases hi
    · rwa [update_of_ne hname] at hi
  refine ⟨fun name i hi ↦ h.dir_lt name i (hdir name i hi), ?_, ?_, ?_⟩
  · exact fun name name' i hi hi' ↦ h.dir_inj name name' i (hdir name i hi) (hdir name' i hi')
  · intro q c hc
    have hopened := h.cur q c hc
    refine ⟨hopened.lt, fun hun ↦ ?_, fun name hname ↦ hopened.name name (hdir name _ hname)⟩
    rw [OBuffers.unlinkFile] at hun ⊢
    rw [unlinkedSince, Bool.or_eq_false_iff] at hun
    have hne : (c.tag, c.fileNum) ≠ (tag, fileNumber) := by
      intro heq
      cases heq
      simp at hun
    exact (update_of_ne hne none d.dir).trans (hopened.dir hun.2)
  · intro t x v hx
    have hold := h.onDisk t x v (expected_unlinked hx).2
    exact ⟨hold.block_lt, hold.nblocks, hold.mirror, fun i hi ↦ hold.file i (hdir _ i hi)⟩

theorem expected_restarted (h : expected desc (.restarted :: es) tag x = some (v, fl)) :
    fl = true ∧ expected desc es tag x = some (v, true) := by
  rw [expected, Option.filter_eq_some_iff] at h
  obtain rfl : fl = true := h.2
  exact ⟨rfl, h.1⟩

end OtherEvents

end NeonStorage.OrioleDb
