import MiniExt4.Ext4.Layout
import MiniExt4.Machine.Records

/-!
# Extent trees

A node of an extent tree is a header and an array of 12-byte entries laid over a buffer: the 60 bytes
of `i_block` for the root, a block for every other node. `ExtTree d` is a tree of depth `d` apart
from its bytes, and `ExtTree.At rd buf t` says that the node in `buf` is the root of `t`, when blocks
are read with `rd`.
-/

namespace MiniExt4

/-- `struct ext4_extent`; the start is the 48-bit number of its two parts. -/
structure Extent where
  eeBlock : ℕ
  eeLen : ℕ
  eeStart : ℕ
  deriving DecidableEq

/-- `struct ext4_extent_idx` -/
structure ExtentIdx where
  eiBlock : ℕ
  eiLeaf : ℕ
  deriving DecidableEq

/-! ### Nodes -/

namespace Node

/-- `eh->eh_magic` -/
def magic (eh : Buf) : ℕ := eh.getField 0 Eh.magic

/-- `eh->eh_entries` -/
def entries (eh : Buf) : ℕ := eh.getField 0 Eh.entries

/-- `eh->eh_max` -/
def max (eh : Buf) : ℕ := eh.getField 0 Eh.max

/-- `eh->eh_depth` -/
def depth (eh : Buf) : ℕ := eh.getField 0 Eh.depth

/-- The offset of entry `i`. -/
def entryOff (i : ℕ) : ℕ := Buf.recordOff extEntrySize extEntrySize i

/-- Entry `i` of a leaf, with the start of `ext4_extent_pblock`. -/
def extentAt (eh : Buf) (i : ℕ) : Extent where
  eeBlock := eh.getField (entryOff i) Ee.block
  eeLen := eh.getField (entryOff i) Ee.len
  eeStart := eh.getField (entryOff i) Ee.startHi * 2 ^ 32 + eh.getField (entryOff i) Ee.startLo

/-- Entry `i` of an index node, with the block number of `ext4_idx_pblock`. -/
def idxAt (eh : Buf) (i : ℕ) : ExtentIdx where
  eiBlock := eh.getField (entryOff i) Ei.block
  eiLeaf := eh.getField (entryOff i) Ei.leafHi * 2 ^ 32 + eh.getField (entryOff i) Ei.leafLo

/-- The entries of a leaf. -/
def extents (eh : Buf) : List Extent := (List.range (entries eh)).map (extentAt eh)

/-- The entries of an index node. -/
def idxs (eh : Buf) : List ExtentIdx := (List.range (entries eh)).map (idxAt eh)

end Node

/-! ### Trees -/

/-- Extent trees of a depth: the extents of a leaf, the entries of an index node with the subtrees
below them. -/
@[reducible] def ExtTree : ℕ → Type
  | 0 => List Extent
  | d + 1 => List (ExtentIdx × ExtTree d)

namespace ExtTree

/-- The node in `eh` is the root of `t`. -/
def At (rd : ℕ → Buf) : {d : ℕ} → Buf → ExtTree d → Prop
  | 0, eh, t => Node.magic eh = ext4ExtMagic ∧ Node.depth eh = 0 ∧ Node.extents eh = t
  | d + 1, eh, t => Node.magic eh = ext4ExtMagic ∧ Node.depth eh = d + 1 ∧
      Node.idxs eh = t.map Prod.fst ∧ ∀ c ∈ t, At rd (rd c.1.eiLeaf) c.2

/-- The data blocks and the blocks of nodes of a tree, each node after what is below it. -/
def blocks : {d : ℕ} → ExtTree d → List ℕ
  | 0, t => t.flatMap fun e ↦ List.range' e.eeStart e.eeLen
  | _ + 1, t => t.flatMap fun c ↦ blocks c.2 ++ [c.1.eiLeaf]

/-- No extent is empty, and no node below the root is. -/
def Full : {d : ℕ} → ExtTree d → Prop
  | 0, t => ∀ e ∈ t, 0 < e.eeLen
  | _ + 1, t => t ≠ [] ∧ ∀ c ∈ t, Full c.2 ∧ blocks c.2 ≠ []

end ExtTree

end MiniExt4
