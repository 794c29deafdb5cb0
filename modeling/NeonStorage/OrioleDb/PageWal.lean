import NeonStorage.OrioleDb.MapFile

/-!
# Pages of a tree in the WAL

In Neon mode a page of a tree is a block of the MAIN fork of a relation at the pageserver, with the
offset of its extent as block number. `page_wal.c` emits images of pages, and gives a page its
extent when it is first emitted. The first counter of the meta page, `datafileLength[0]`, says how
many offsets were given out.

What a page has below its header does not matter here and is a type `Body`.
-/

namespace NeonStorage.OrioleDb

/-! ## Extents and downlinks -/

structure FileExtent where
  off : ℕ
  len : ℕ
  deriving DecidableEq

namespace FileExtent

/-- `FileExtentIsValid`. -/
def IsValid (e : FileExtent) : Prop := e.len ≠ 0 ∧ e.off < 0xFFFFFFFFFFFF
  deriving Decidable

end FileExtent

structure BTreePage (Body : Type*) where
  checkpointNum : ℕ
  body : Body

/-- A page in the data file, with the header `OrioleDBOndiskPageHeader`. -/
structure OndiskPage (Body : Type*) where
  checkpointNum : ℕ
  compressPageSize : ℕ
  compressVersion : ℕ
  pageVersion : ℕ
  body : Body

variable {Body : Type*}

structure PageDesc (Body : Type*) where
  page : BTreePage Body
  fileExtent : FileExtent
  dirty : Bool

/-- The forks of a tree at the pageserver, with the latest image of each block. -/
structure Pageserver (Body : Type*) where
  main : ℕ → Option (OndiskPage Body)
  init : List (List UInt8)

/-! ## Emission -/

variable (walEnabled : Bool)

/-- `orioledb_page_get_blkno`. -/
def PageDesc.blkno (desc : PageDesc Body) : Option ℕ :=
  if desc.fileExtent.IsValid then some (desc.fileExtent.off % 2 ^ 32) else none

end NeonStorage.OrioleDb
