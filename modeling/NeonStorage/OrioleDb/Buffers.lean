import Mathlib.Data.Fintype.Defs
import Mathlib.Algebra.GroupWithZero.Nat

/-!
# Buffers of the undo log and the xid map

`o_buffers.c` keeps blocks of a log in shared buffers, with local files behind them. A compute loses
its local files when it is restarted. Whenever a buffer is written out, its page is therefore also
sent to the pageserver, as an image of a block of a relation made up for the log, and a read that
finds the local file missing or too short takes the page from there.

The model is one log, `OBuffers`: the shared buffers, the local files and the pages at the
pageserver. Every change is noted in a history, which `expected` reads: the value that a byte must
have.
-/

namespace NeonStorage.OrioleDb

open Function

/-- `ORIOLEDB_BLCKSZ`, and `BLCKSZ`. -/
def blcksz : ℕ := 8192

/-- The bytes of a page. Only those below `blcksz` count. -/
abbrev PageData := ℕ → UInt8

/-- `planBLogId`: a log that is mirrored. -/
abbrev LogId := { n : ℕ // 1 ≤ n ∧ n ≤ 14 }

/-- The tags of a log (`OBuffersMaxTags`). -/
abbrev Tag := Fin 4

structure OBuffersDesc where
  blocksPerFile : ℕ
  buffersCount : ℕ
  planBLogId : LogId
  blocksPerFile_pos : 0 < blocksPerFile
  buffersCount_pos : 0 < buffersCount

namespace OBuffersDesc

variable (desc : OBuffersDesc)

/-- A multiple of `blcksz`. -/
def singleFileSize : ℕ := desc.blocksPerFile * blcksz

def groupsCount : ℕ := (desc.buffersCount + 4 - 1) / 4

/-- The relation that the pages of a log and a tag go to. -/
def relnode (tag : Tag) : ℕ := 0xffffff00 + desc.planBLogId.val * 16 + tag.val % 16

def fileNum (blockNum : ℕ) : ℕ := blockNum / desc.blocksPerFile

def filePos (blockNum : ℕ) : ℕ := blockNum * blcksz % desc.singleFileSize

end OBuffersDesc

/-! ## Local files and the mirror -/

/-- A local file. Bytes beyond its length are not there. -/
structure LocalFile where
  len : ℕ
  byte : ℕ → UInt8

def LocalFile.empty : LocalFile := ⟨0, fun _ ↦ 0⟩

/-- Write a block. What lies between the old end of the file and the block is a hole of zeros. -/
def LocalFile.write (file : LocalFile) (pos : ℕ) (data : PageData) : LocalFile where
  len := max file.len (pos + blcksz)
  byte x :=
    if pos ≤ x ∧ x < pos + blcksz then data (x - pos) else if x < file.len then file.byte x else 0

/-- A relation at the pageserver. -/
structure MirrorRel where
  nblocks : ℕ
  page : ℕ → PageData

def MirrorRel.put (rel : MirrorRel) (blkno : ℕ) (data : PageData) : MirrorRel where
  nblocks := max rel.nblocks (blkno + 1)
  page := update rel.page blkno data

structure OpenFile where
  tag : Tag
  fileNum : ℕ
  inode : ℕ

inductive Event where
  /-- Bytes of one block were written, to the buffer. -/
  | wrote (tag : Tag) (offset size : ℕ) (data : ℕ → UInt8)
  /-- A buffer was written out, to a file that had `fileLen` bytes before. -/
  | flushed (tag : Tag) (blockNum fileLen : ℕ) (mirrored : Bool)
  | unlinked (tag : Tag) (fileNum : ℕ)
  /-- A stateless restart. -/
  | restarted

structure Disk where
  /-- The directory: which file has the name of a tag and a number. -/
  dir : Tag × ℕ → Option ℕ
  inodes : ℕ → LocalFile
  nextInode : ℕ
  /-- What each process has open. -/
  curFile : ℕ → Option OpenFile
  mirror : ℕ → MirrorRel
  /-- The newest event comes first. -/
  events : List Event

variable (d : Disk)

namespace Disk

def openPath (p : ℕ) (tag : Tag) (fileNum : ℕ) (create : Bool) : Option ℕ × Disk :=
  match d.dir (tag, fileNum) with
  | some i => (some i, { d with curFile := update d.curFile p (some ⟨tag, fileNum, i⟩) })
  | none =>
    if create then
      (some d.nextInode,
        { d with
          dir := update d.dir (tag, fileNum) (some d.nextInode)
          inodes := update d.inodes d.nextInode .empty
          nextInode := d.nextInode + 1
          curFile := update d.curFile p (some ⟨tag, fileNum, d.nextInode⟩) })
    else (none, { d with curFile := update d.curFile p none })

/-- `open_file`: a file that is open already is not looked up again. -/
def openFile (p : ℕ) (tag : Tag) (fileNum : ℕ) (create : Bool) : Option ℕ × Disk :=
  match d.curFile p with
  | some c =>
    if c.fileNum = fileNum ∧ c.tag = tag then (some c.inode, d) else d.openPath p tag fileNum create
  | none => d.openPath p tag fileNum create

/-- The part of `write_buffer_data` that writes the local file. -/
def writeFile (desc : OBuffersDesc) (p : ℕ) (tag : Tag) (blockNum : ℕ) (data : PageData)
    (mirrored : Bool) : Disk :=
  match d.openFile p tag (desc.fileNum blockNum) true with
  | (none, d) => d
  | (some i, d) =>
    { d with
      inodes := update d.inodes i ((d.inodes i).write (desc.filePos blockNum) data)
      events := .flushed tag blockNum (d.inodes i).len mirrored :: d.events }

/-- `write_buffer_data`: first the image to the WAL, unless a shutdown checkpoint is running, then
the local file. -/
def writeBufferData (desc : OBuffersDesc) (p : ℕ) (checkpointIsShutdown : Bool) (tag : Tag)
    (blockNum : ℕ) (data : PageData) : Disk :=
  let mirror :=
    if checkpointIsShutdown then d.mirror
    else update d.mirror (desc.relnode tag)
      ((d.mirror (desc.relnode tag)).put (blockNum % 2 ^ 32) data)
  { d with mirror }.writeFile desc p tag blockNum data !checkpointIsShutdown

/-- `read_buffer_planb_fallback`: the page at the pageserver, if the relation has the block. -/
def fallback (desc : OBuffersDesc) (tag : Tag) (blockNum : ℕ) : Option PageData :=
  let rel := d.mirror (desc.relnode tag)
  if rel.nblocks = 0 then none
  else if rel.nblocks ≤ blockNum % 2 ^ 32 then none
  else some (rel.page (blockNum % 2 ^ 32))

/-- `read_buffer`, with `none` if the file is missing and there is no mirror of it. -/
def readBuffer (desc : OBuffersDesc) (p : ℕ) (tag : Tag) (blockNum : ℕ) (missingOk : Bool) :
    Option PageData × Disk :=
  match d.openFile p tag (desc.fileNum blockNum) !missingOk with
  | (none, d) => (d.fallback desc tag blockNum, d)
  | (some i, d) =>
    let file := d.inodes i
    let pos := desc.filePos blockNum
    let result := min blcksz (file.len - pos)
    if result < blcksz then
      -- a short read: the mirror, or zeros after what was read
      (some ((d.fallback desc tag blockNum).getD fun x ↦
        if x < result then file.byte (pos + x) else 0), d)
    else (some fun x ↦ file.byte (pos + x), d)

end Disk

/-! ## Shared buffers -/

structure OBuffer where
  /-- `none` is an unused buffer. -/
  blockNum : Option ℕ
  tag : Tag
  usageCount : ℕ
  dirty : Bool
  data : PageData

def OBuffer.unused : OBuffer := ⟨none, 0, 0, false, fun _ ↦ 0⟩

structure OBuffers where
  /-- The buffers of each group. -/
  buffers : ℕ × Fin 4 → OBuffer
  disk : Disk

namespace OBuffers

variable (s : OBuffers)

def find? (g : ℕ) (tag : Tag) (blockNum : ℕ) : Option (Fin 4) :=
  (List.finRange 4).find? fun j ↦
    (s.buffers (g, j)).blockNum = some blockNum ∧ (s.buffers (g, j)).tag = tag

def victim (s : OBuffers) (g : ℕ) : Fin 4 :=
  (List.finRange 4).foldl (fun victim j ↦
    if (s.buffers (g, j)).usageCount < (s.buffers (g, victim)).usageCount then j else victim) 0

def setBuffer (g : ℕ) (j : Fin 4) (buffer : OBuffer) : OBuffers :=
  { s with buffers := update s.buffers (g, j) buffer }

/-- The search for a victim halves the counts of the group. -/
def halveUsage (g : ℕ) : OBuffers :=
  { s with
    buffers := fun slot ↦
      if slot.1 = g then { s.buffers slot with usageCount := (s.buffers slot).usageCount / 2 }
      else s.buffers slot }

variable (desc : OBuffersDesc)

/-- Write the old block of a buffer that is about to be used for another one. -/
def writeVictim (p : ℕ) (checkpointIsShutdown : Bool) (prev : OBuffer) : OBuffers :=
  match prev.blockNum with
  | some b =>
    if prev.dirty then
      { s with disk := s.disk.writeBufferData desc p checkpointIsShutdown prev.tag b prev.data }
    else s
  | none => s

/-- Load a block into the buffer `j`, which is free for it. -/
def load (p : ℕ) (g : ℕ) (j : Fin 4) (tag : Tag) (blockNum : ℕ) (missingOk : Bool) :
    Option (Fin 4) × OBuffers :=
  match s.disk.readBuffer desc p tag blockNum missingOk with
  | (some data, disk) =>
    (some j, { s with disk }.setBuffer g j ⟨some blockNum, tag, 1, false, data⟩)
  | (none, disk) => (none, { s with disk }.setBuffer g j ⟨none, tag, 1, false, fun _ ↦ 0⟩)

def getBuffer (p : ℕ) (checkpointIsShutdown : Bool) (tag : Tag) (blockNum : ℕ) (missingOk : Bool) :
    Option (Fin 4) × OBuffers :=
  let g := blockNum % desc.groupsCount
  match s.find? g tag blockNum with
  | some j =>
    let buffer := s.buffers (g, j)
    (some j, s.setBuffer g j { buffer with usageCount := buffer.usageCount + 1 })
  | none =>
    let j := s.victim g
    let prev := s.buffers (g, j)
    ((s.halveUsage g).writeVictim desc p checkpointIsShutdown prev).load desc p g j tag blockNum
      missingOk

/-! ## Reading and writing ranges -/

/-- Which bytes of a block belong to a range: where they begin, and how many they are. -/
def copyRange (offset size blockNum : ℕ) : ℕ × ℕ :=
  let firstBlockNum := offset / blcksz
  let lastBlockNum := (offset + size - 1) / blcksz
  if firstBlockNum = lastBlockNum then (offset % blcksz, size)
  else if blockNum = firstBlockNum then (offset % blcksz, blcksz - offset % blcksz)
  else if blockNum = lastBlockNum then (0, (offset + size - 1) % blcksz + 1)
  else (0, blcksz)

def copyIn (g : ℕ) (j : Fin 4) (tag : Tag) (blockNum copyOffset copySize : ℕ) (src : ℕ → UInt8) :
    OBuffers :=
  let buffer := s.buffers (g, j)
  let data : PageData := fun x ↦
    if copyOffset ≤ x ∧ x < copyOffset + copySize then src (x - copyOffset) else buffer.data x
  let s := s.setBuffer g j { buffer with data, dirty := true }
  { s with
    disk := { s.disk with
      events := .wrote tag (blockNum * blcksz + copyOffset) copySize src :: s.disk.events } }

def rwLoop (desc : OBuffersDesc) (p : ℕ) (checkpointIsShutdown : Bool) (tag : Tag) (offset size : ℕ)
    (write missingOk : Bool) :
    List ℕ → ℕ → (ℕ → UInt8) → OBuffers → Bool × (ℕ → UInt8) × OBuffers
  | [], _, buf, s => (true, buf, s)
  | b :: bs, ptr, buf, s =>
    match s.getBuffer desc p checkpointIsShutdown tag b missingOk with
    | (none, s) => (false, fun _ ↦ 0, s)
    | (some j, s) =>
      let (copyOffset, copySize) := copyRange offset size b
      let g := b % desc.groupsCount
      if write then
        rwLoop desc p checkpointIsShutdown tag offset size write missingOk bs (ptr + copySize) buf
          (s.copyIn g j tag b copyOffset copySize fun x ↦ buf (ptr + x))
      else
        let data := (s.buffers (g, j)).data
        rwLoop desc p checkpointIsShutdown tag offset size write missingOk bs (ptr + copySize)
          (fun i ↦ if ptr ≤ i ∧ i < ptr + copySize then data (copyOffset + (i - ptr)) else buf i) s

/-- `o_buffers_rw`. -/
def rw (p : ℕ) (checkpointIsShutdown : Bool) (tag : Tag) (offset size : ℕ) (write missingOk : Bool)
    (buf : ℕ → UInt8) : Bool × (ℕ → UInt8) × OBuffers :=
  let firstBlockNum := offset / blcksz
  let lastBlockNum := (offset + size - 1) / blcksz
  rwLoop desc p checkpointIsShutdown tag offset size write missingOk
    (List.range' firstBlockNum (lastBlockNum + 1 - firstBlockNum)) 0 buf s

/-! ## Flushing, unlinking, restarting -/

/-- The buffers, in the order in which they are visited. -/
def slots : List (ℕ × Fin 4) :=
  (List.range desc.groupsCount).flatMap fun g ↦ (List.finRange 4).map fun j ↦ (g, j)

def flushOne (p : ℕ) (checkpointIsShutdown : Bool) (tag : Tag)
    (firstBufferNumber lastBufferNumber : ℤ) (s : OBuffers) (slot : ℕ × Fin 4) : OBuffers :=
  let buffer := s.buffers slot
  match buffer.blockNum with
  | some b =>
    if buffer.dirty ∧ buffer.tag = tag ∧ firstBufferNumber ≤ b ∧ b ≤ lastBufferNumber then
      { s with
        disk := s.disk.writeBufferData desc p checkpointIsShutdown buffer.tag b buffer.data
        buffers := update s.buffers slot { buffer with dirty := false } }
    else s
  | none => s

/-- `o_buffers_flush`. -/
def flush (p : ℕ) (checkpointIsShutdown : Bool) (tag : Tag)
    (firstBufferNumber lastBufferNumber : ℤ) : OBuffers :=
  (slots desc).foldl (flushOne desc p checkpointIsShutdown tag firstBufferNumber lastBufferNumber) s

/-- The last number of a range that ends before `toOffset`. -/
def lastNumber (toOffset unit : ℕ) : ℤ :=
  if toOffset % unit = 0 then toOffset / unit - 1 else toOffset / unit

/-- `o_buffers_sync`. The files of the range are opened to be synced, and created if need be. -/
def sync (p : ℕ) (checkpointIsShutdown : Bool) (tag : Tag) (fromOffset toOffset : ℕ) : OBuffers :=
  let s := s.flush desc p checkpointIsShutdown tag (fromOffset / blcksz : ℕ)
    (lastNumber toOffset blcksz)
  let firstFileNumber := fromOffset / desc.singleFileSize
  let lastFileNumber := lastNumber toOffset desc.singleFileSize
  let files := List.range' firstFileNumber (lastFileNumber + 1 - firstFileNumber).toNat
  { s with disk := files.foldl (fun d fileNumber ↦ (d.openFile p tag fileNumber true).2) s.disk }

/-- `o_buffers_wipe` gives up dirty buffers; a clean one stays. -/
def wipe (tag : Tag) (firstBufferNumber lastBufferNumber : ℕ) : OBuffers :=
  { s with
    buffers := fun slot ↦
      let buffer := s.buffers slot
      match buffer.blockNum with
      | some b =>
        if buffer.dirty ∧ buffer.tag = tag ∧ firstBufferNumber ≤ b ∧ b ≤ lastBufferNumber then
          { buffer with blockNum := none, dirty := false, tag := 0 }
        else buffer
      | none => buffer }

/-- A process that has the file open keeps it. -/
def unlinkFile (tag : Tag) (fileNumber : ℕ) : Disk :=
  { d with
    dir := update d.dir (tag, fileNumber) none
    events := .unlinked tag fileNumber :: d.events }

/-- `o_buffers_unlink_files_range`. -/
def unlinkFilesRange (tag : Tag) (firstFileNumber lastFileNumber : ℕ) : OBuffers :=
  let s := s.wipe tag (firstFileNumber * desc.blocksPerFile)
    ((lastFileNumber + 1) * desc.blocksPerFile - 1)
  let files := List.range' firstFileNumber (lastFileNumber + 1 - firstFileNumber)
  { s with disk := files.foldl (fun d fileNumber ↦ unlinkFile d tag fileNumber) s.disk }

/-- A stateless restart: the local files and the shared buffers are gone, the mirror stays. -/
def restart : OBuffers where
  buffers := fun _ ↦ .unused
  disk := { s.disk with
    dir := fun _ ↦ none
    curFile := fun _ ↦ none
    events := .restarted :: s.disk.events }

def init (mirror : ℕ → MirrorRel) : OBuffers where
  buffers := fun _ ↦ .unused
  disk :=
    { dir := fun _ ↦ none
      inodes := fun _ ↦ .empty
      nextInode := 0
      curFile := fun _ ↦ none
      mirror := mirror
      events := [] }

end OBuffers

end NeonStorage.OrioleDb
