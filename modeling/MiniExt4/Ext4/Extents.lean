import MiniExt4.Ext4.Balloc
import MiniExt4.Ext4.ExtentNode
import MiniExt4.Ext4.InCore

/-!
# Mapping blocks by extents (`fs/ext4/extents.c`)

A path is the list of the nodes from a leaf up to the root, in the order in which an insertion
changes them. The root has block number 0: it is `i_block` itself, so a change of it is a change of
the inode even if the function then fails, while another node is changed by writing its block.

The buffers come from a pool of eight slots. `ext4_extents_read_path` keeps those of the nodes it has
read when it fails, and then they are lost.
-/

namespace MiniExt4

open StateErr

/-- A node of a path: its contents and its block, 0 for the root. -/
structure PathNode where
  eh : Buf
  blocknr : ℕ

namespace FsInode

/-- `malloc(block_size)` -/
def extMalloc : StateErr FsInode Unit := do
  let s ← get
  guard (s.fs.blockSize ≤ blockSizeDefault ∧ 0 < s.fs.extPool)
  modify fun s ↦ { s with fs := { s.fs with extPool := s.fs.extPool - 1 } }

/-- `free` of `n` buffers. -/
def extFree (n : ℕ) : StateErr FsInode Unit :=
  modify fun s ↦ { s with fs := { s.fs with extPool := s.fs.extPool + n } }

/-- The failing statement `x` with a buffer to give back. -/
def orFree {α : Type} (x : StateErr FsInode α) : StateErr FsInode α := do
  match ← attempt x with
  | some a => pure a
  | none =>
    extFree 1
    fail

/-- The nodes below the last one read, of a tree of so many levels. -/
def readPathLoop (lblock : ℕ) : ℕ → List PathNode → PathNode →
    StateErr FsInode (List PathNode)
  | 0, up, cur => pure (cur :: up)
  | levels + 1, up, cur => do
    guard (Node.entries cur.eh ≠ 0)
    let childBlk := u32 (chosenIdx lblock cur.eh).eiLeaf
    guard (childBlk ≠ 0)
    extMalloc
    let buf ← orFree (onFs (Fs.readBlock childBlk))
    guard (Node.magic buf = ext4ExtMagic)
    guard (Node.depth buf = u16 levels)
    readPathLoop lblock levels (cur :: up) ⟨buf, childBlk⟩

/-- `ext4_extents_read_path(inode, lblock, path, &depth)` -/
def ext4ExtentsReadPath (lblock : ℕ) : StateErr FsInode (List PathNode) := do
  let s ← get
  let eh := s.inode.iBlock
  guard (Node.magic eh = ext4ExtMagic)
  guard (Node.depth eh ≤ ext4ExtMaxDepth)
  readPathLoop lblock (Node.depth eh) [] ⟨eh, 0⟩

/-- `ext4_extents_free_path(path, depth)`; the root has no buffer. -/
def ext4ExtentsFreePath (path : List PathNode) : StateErr FsInode Unit := extFree (path.length - 1)

/-- `ext4_extents_fs_blocks_count(sb)` -/
def ext4ExtentsFsBlocksCount (fs : Fs) : ℕ :=
  if fs.sbi.sBlocksCount > 0 ∧
      (fs.fsBlocksCount = 0 ∨ fs.sbi.sBlocksCount < fs.fsBlocksCount) then fs.sbi.sBlocksCount
  else fs.fsBlocksCount

/-- The node of a path changed in memory. -/
def setNode (node : PathNode) (eh : Buf) : StateErr FsInode PathNode := do
  if node.blocknr = 0 then modifyInode fun inode ↦ { inode with iBlock := eh } else pure ()
  pure { node with eh }

/-- `ext4_extents_write_path_node(path, level)` -/
def ext4ExtentsWritePathNode (node : PathNode) : StateErr FsInode Unit :=
  if node.blocknr ≠ 0 then onFs (Fs.writeBlock node.blocknr node.eh) else pure ()

/-- `ext4_extents_lookup_mapped(leaf, lblock, &out)`: the physical block of a mapped block. -/
def ext4ExtentsLookupMapped (leaf : Buf) (lblock : ℕ) : Option ℕ :=
  (ext4ExtentsFind leaf lblock).map fun ex ↦ u32 (ex.eeStart + (lblock - ex.eeBlock))

/-- The length of a new extent, of a run of `len` blocks from `b`. -/
def extentLen (b len fsBlocksCount : ℕ) : ℕ :=
  let len := if len = 0 then 1 else len
  let len := if len > ext4ExtInitMaxLen then ext4ExtInitMaxLen else len
  if u32 (b + len) > fsBlocksCount then fsBlocksCount - b else len

/-- `ext4_extents_alloc_new_extent` -/
def ext4ExtentsAllocNewExtent (lblock fsBlocksCount : ℕ) : StateErr FsInode Extent := do
  let s ← get
  let r ← onFs (Fs.ext4NewBlocksInGroup s.fs.preallocGoalLen s.inode.iAllocGroupHint)
  guard (r.1 ≠ 0 ∧ fsBlocksCount ≠ 0 ∧ r.1 < fsBlocksCount)
  let len := extentLen r.1 r.2 fsBlocksCount
  guard (len ≠ 0)
  -- the caller accounts for one block, the rest of the run is accounted for here
  if len > 1 then
    modifyInode fun inode ↦
      { inode with
        iBlocks := u32 (inode.iBlocks + (len - 1) * ((s.fs.blockSize + 511) / 512)), dirty := true }
  else pure ()
  pure ⟨lblock, len, r.1⟩

/-- `ext4_extents_insert_at_leaf`: whether it succeeded, and the leaf as it left it. -/
def ext4ExtentsInsertAtLeaf (leaf : PathNode) (newEx : Extent) :
    StateErr FsInode (Bool × PathNode) := do
  match ext4ExtentsInsert leaf.eh newEx with
  -- no entry has been stored
  | (false, _) => pure (false, leaf)
  | (true, eh) =>
    let leaf ← setNode leaf eh
    match ← attempt (ext4ExtentsWritePathNode leaf) with
    | some _ => pure (true, leaf)
    | none => pure (false, leaf)

/-- A block for a new node. -/
def newNodeBlock (fsBlocksCount : ℕ) : StateErr FsInode ℕ := do
  let b ← onFs Fs.ext4NewBlock
  guard (b ≠ 0 ∧ b < fsBlocksCount)
  pure b

/-- The halves of a node that was cut go to the place of the node and to a new block. -/
def storeHalves (fsBlocksCount : ℕ) (node : PathNode) (left right : Buf) : StateErr FsInode ℕ := do
  extMalloc
  let node ← setNode node left
  orFree do
    let rightBlk ← newNodeBlock fsBlocksCount
    ext4ExtentsWritePathNode node
    onFs (Fs.writeBlock rightBlk right)
    extFree 1
    pure rightBlk

/-- The two halves of a full leaf and the key of the right one, when `newEx` goes to the place
`pos` of the `n` extents. -/
def splitLeafAt (leaf : Buf) (blockSize pos n : ℕ) (newEx : Extent) : Buf × Buf × ℕ :=
  Node.cutAt Node.setExtent Extent.eeBlock leaf blockSize 0 pos n newEx

/-- `ext4_extents_split_leaf`: the right leaf's block and its key. -/
def ext4ExtentsSplitLeaf (leaf : PathNode) (fsBlocksCount : ℕ) (newEx : Extent) :
    StateErr FsInode (ℕ × ℕ) := do
  let s ← get
  let n := Node.entries leaf.eh
  guard (0 < n ∧ n = Node.max leaf.eh)
  let pos := Node.insertPos leaf.eh newEx.eeBlock n
  let halves := splitLeafAt leaf.eh s.fs.blockSize pos n newEx
  let rightBlk ← storeHalves fsBlocksCount leaf halves.1 halves.2.1
  pure (rightBlk, halves.2.2)

/-- The two halves of a full index node and the key of the right one, when `newIdx` goes to the place
`pos` of the `n` entries. -/
def splitIndexAt (ieh : Buf) (blockSize pos n : ℕ) (newIdx : ExtentIdx) : Buf × Buf × ℕ :=
  Node.cutAt Node.setIdx ExtentIdx.eiBlock ieh blockSize (Node.depth ieh) pos n newIdx

/-- `ext4_extents_add_index` from the first node of the path upwards: nothing when there was room for
the new entry, the block and the key to grow the tree with when even the root was split. -/
def ext4ExtentsAddIndex (fsBlocksCount : ℕ) : List PathNode → ℕ → ℕ →
    StateErr FsInode (Option (ℕ × ℕ))
  | [], rightBlk, key => pure (some (rightBlk, key))
  | node :: up, rightBlk, key => do
    let s ← get
    let newIdx : ExtentIdx := ⟨key, rightBlk⟩
    let n := Node.entries node.eh
    if n < Node.max node.eh then
      let pos := Node.firstAbove node.eh key 0 n
      let node ← setNode node
        (Node.setEntries (Node.setIdx (Node.shiftUp node.eh pos n) pos newIdx) (n + 1))
      ext4ExtentsWritePathNode node
      pure none
    else
      guard (0 < n ∧ n = Node.max node.eh)
      let pos := Node.insertPos node.eh key n
      let halves := splitIndexAt node.eh s.fs.blockSize pos n newIdx
      let newIblk ← storeHalves fsBlocksCount node halves.1 halves.2.1
      ext4ExtentsAddIndex fsBlocksCount up newIblk halves.2.2

/-- `ext4_extents_grow_indepth` -/
def ext4ExtentsGrowIndepth (fsBlocksCount rightBlk key : ℕ) : StateErr FsInode Unit := do
  let s ← get
  let root := s.inode.iBlock
  let bs := s.fs.blockSize
  guard (Node.depth root < ext4ExtMaxDepth)
  guard (Node.entries root ≠ 0)
  let oldRootBlk ← newNodeBlock fsBlocksCount
  extMalloc
  let tmp := Node.copyEntries (Node.setEntries (Node.ext4ExtentsInitNode Buf.zero bs (Node.depth root))
    (Node.entries root)) root 0 (Node.entries root)
  orFree (onFs (Fs.writeBlock oldRootBlk tmp))
  extFree 1
  let grown := Node.setEntries (Node.ext4ExtentsInitNode root iBlockSize (Node.depth root + 1)) 2
  modifyInode fun inode ↦
    { inode with
      iBlock := Node.setIdx (Node.setIdx grown 0 ⟨Node.keyAt root 0, oldRootBlk⟩) 1 ⟨key, rightBlk⟩ }

/-- The part of `ext4_extents_insert_mapped_block` that puts the extent into the nodes of the path:
the block and the key to grow the tree with, if there are. -/
def insertAlong (fsBlocksCount : ℕ) (newEx : Extent) :
    List PathNode → StateErr FsInode (Option (ℕ × ℕ))
  | [] => fail
  | leaf :: up => do
    let r ← ext4ExtentsInsertAtLeaf leaf newEx
    if r.1 then pure none
    else
      guard (¬ Node.entries r.2.eh < Node.max r.2.eh)
      let right ← ext4ExtentsSplitLeaf r.2 fsBlocksCount newEx
      ext4ExtentsAddIndex fsBlocksCount up right.1 right.2

/-- `ext4_extents_insert_mapped_block(inode, path, depth, lblock, fs_blocks_count, &out, &is_new)`:
the new block. -/
def ext4ExtentsInsertMappedBlock (path : List PathNode) (lblock fsBlocksCount : ℕ) :
    StateErr FsInode ℕ := do
  let newEx ← ext4ExtentsAllocNewExtent lblock fsBlocksCount
  match ← insertAlong fsBlocksCount newEx path with
  | none => pure newEx.eeStart
  | some grow =>
    ext4ExtentsGrowIndepth fsBlocksCount grow.1 grow.2
    pure newEx.eeStart

/-- The path is freed whether or not the insertion succeeds. -/
def insertAndFreePath (path : List PathNode) (lblock : ℕ) : StateErr FsInode (ℕ × Bool) := do
  let s ← get
  let r ← attempt (ext4ExtentsInsertMappedBlock path lblock (ext4ExtentsFsBlocksCount s.fs))
  ext4ExtentsFreePath path
  match r with
  | some b => pure (b, true)
  | none => fail

/-- The part of `ext4_extents_get_block` after the root was made if need be. -/
def lookupOrInsert (lblock : ℕ) (create : Bool) : StateErr FsInode (ℕ × Bool) := do
  let path ← ext4ExtentsReadPath lblock
  match (path.head?).bind fun leaf ↦ ext4ExtentsLookupMapped leaf.eh lblock with
  | some b =>
    ext4ExtentsFreePath path
    pure (b, false)
  | none =>
    if !create then
      ext4ExtentsFreePath path
      pure (0, false)
    else insertAndFreePath path lblock

/-- `ext4_extents_get_block(inode, lblock, create, &out, &is_new)`: `*out`, which is 0 for a block that
is not mapped, and `*is_new`. -/
def ext4ExtentsGetBlock (lblock : ℕ) (create : Bool) : StateErr FsInode (ℕ × Bool) := do
  let s ← get
  guard (s.fs.blockSize ≠ 0 ∧ (sIsreg s.inode.iMode ∨ sIsdir s.inode.iMode))
  if Node.magic s.inode.iBlock ≠ ext4ExtMagic ∧ !create then pure (0, false)
  else
    if Node.magic s.inode.iBlock ≠ ext4ExtMagic then
      modifyInode fun inode ↦
        { inode with iBlock := Node.ext4ExtentsInitNode inode.iBlock iBlockSize 0 }
    else pure ()
    lookupOrInsert lblock create

end FsInode

end MiniExt4
