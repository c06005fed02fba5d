import MiniExt4.Ext4.File
import MiniExt4.Ext4.Release
import MiniExt4.Ext4.Rmdir

/-!
# What the operations on an inode leave alone

An operation on the blocks or the entries of an inode changes its size, its block counts, `i_block` and
`i_flags`, and the `I_DIRTY` bit. Everything else of the inode (`attrs`) stays, whatever the disk says and
wherever the operation fails: a directory that gets or loses entries is still the same directory.

The statements follow the functions one by one, each from those it calls, by the rules of `Keeps`. Nothing
has to be known of the disk for them, and they are what makes it safe to identify an in-core inode by its
number and its mode across any operation: the layers above use them wherever an operation on a directory is
followed by one that asks what kind of inode it is.
-/

namespace MiniExt4

open StateErr

namespace FsInode

/-- The inode without what goes with its contents. -/
def attrs (s : FsInode) : Inode :=
  { s.inode with iSize := 0, iBlocks := 0, dirty := false, iBlock := Buf.zero, iFlags := 0 }

/-- The filesystem is another component of the state. -/
theorem keeps_attrs_onFs {α : Type} (x : StateErr Fs α) : Keeps attrs (onFs x) := ⟨fun _ ↦ rfl⟩

/-- Storing the inode changes the device only. -/
theorem keeps_attrs_writeInode : Keeps attrs writeInode :=
  .get_bind fun _ ↦ (keeps_attrs_onFs _).attempt.bind fun _ ↦ .pure _

/-- Giving a block back on an error path is a call of the block allocator. -/
theorem keeps_attrs_freeAndFail {α : Type} (b : ℕ) : Keeps attrs (freeAndFail b : StateErr FsInode α) :=
  (keeps_attrs_onFs _).attempt.bind fun _ ↦ .fail

/-! ### Extents -/

/-- A slot of the pool is none of the inode. -/
theorem keeps_attrs_extMalloc : Keeps attrs extMalloc :=
  .get_bind fun _ ↦ (Keeps.guard _).bind fun _ ↦ ⟨fun _ ↦ rfl⟩

/-- Giving slots back is none of the inode either. -/
theorem keeps_attrs_extFree (n : ℕ) : Keeps attrs (extFree n) := ⟨fun _ ↦ rfl⟩

/-- Freeing a slot where a computation fails adds nothing to what it changes. -/
theorem keeps_attrs_orFree {α : Type} {x : StateErr FsInode α} (hx : Keeps attrs x) :
    Keeps attrs (orFree x) := by
  refine hx.attempt.bind fun r ↦ ?_
  cases r with
  | none => exact (keeps_attrs_extFree 1).bind fun _ ↦ .fail
  | some a => exact .pure _

/-- Reading the nodes of a path changes the pool and the device. -/
theorem keeps_attrs_readPathLoop (lblock levels : ℕ) (up : List PathNode) (cur : PathNode) :
    Keeps attrs (readPathLoop lblock levels up cur) := by
  induction levels generalizing up cur with
  | zero => exact .pure _
  | succ levels ih =>
    exact (Keeps.guard _).bind fun _ ↦ (Keeps.guard _).bind fun _ ↦ keeps_attrs_extMalloc.bind fun _ ↦
      (keeps_attrs_orFree (keeps_attrs_onFs _)).bind fun _ ↦ (Keeps.guard _).bind fun _ ↦
        (Keeps.guard _).bind fun _ ↦ ih ..

/-- Reading a path from the root. -/
theorem keeps_attrs_ext4ExtentsReadPath (lblock : ℕ) : Keeps attrs (ext4ExtentsReadPath lblock) :=
  .get_bind fun _ ↦ (Keeps.guard _).bind fun _ ↦ (Keeps.guard _).bind fun _ ↦ keeps_attrs_readPathLoop ..

/-- Putting a node into the root changes the words of the mapping. -/
theorem keeps_attrs_setNode (node : PathNode) (eh : Buf) : Keeps attrs (setNode node eh) :=
  .ite (Keeps.bind ⟨fun _ ↦ rfl⟩ fun _ ↦ .pure _) (.pure _)

/-- Writing a node back, into the inode or to its block. -/
theorem keeps_attrs_ext4ExtentsWritePathNode (node : PathNode) :
    Keeps attrs (ext4ExtentsWritePathNode node) :=
  .ite (keeps_attrs_onFs _) (.pure _)

/-- Allocating the block of a new node. -/
theorem keeps_attrs_newNodeBlock (n : ℕ) : Keeps attrs (newNodeBlock n) :=
  (keeps_attrs_onFs _).bind fun _ ↦ (Keeps.guard _).bind fun _ ↦ .pure _

/-- Writing the two halves of a node that was split. -/
theorem keeps_attrs_storeHalves (n : ℕ) (node : PathNode) (left right : Buf) :
    Keeps attrs (storeHalves n node left right) :=
  keeps_attrs_extMalloc.bind fun _ ↦ (keeps_attrs_setNode ..).bind fun _ ↦ keeps_attrs_orFree
    ((keeps_attrs_newNodeBlock n).bind fun _ ↦ (keeps_attrs_ext4ExtentsWritePathNode _).bind fun _ ↦
      (keeps_attrs_onFs _).bind fun _ ↦ (keeps_attrs_extFree 1).bind fun _ ↦ .pure _)

/-- Adding an index along a path: an induction on the path, one level for each node. -/
theorem keeps_attrs_ext4ExtentsAddIndex (n : ℕ) (path : List PathNode) (rightBlk key : ℕ) :
    Keeps attrs (ext4ExtentsAddIndex n path rightBlk key) := by
  induction path generalizing rightBlk key with
  | nil => exact .pure _
  | cons node up ih =>
    refine .get_bind fun s ↦ .ite ?_ ?_
    · exact (keeps_attrs_setNode ..).bind fun _ ↦ (keeps_attrs_ext4ExtentsWritePathNode _).bind fun _ ↦ .pure _
    · exact (Keeps.guard _).bind fun _ ↦ (keeps_attrs_storeHalves ..).bind fun _ ↦ ih ..

/-- A deeper tree changes the words of the root. -/
theorem keeps_attrs_ext4ExtentsGrowIndepth (n rightBlk key : ℕ) :
    Keeps attrs (ext4ExtentsGrowIndepth n rightBlk key) :=
  .get_bind fun _ ↦ (Keeps.guard _).bind fun _ ↦ (Keeps.guard _).bind fun _ ↦
    (keeps_attrs_newNodeBlock n).bind fun _ ↦ keeps_attrs_extMalloc.bind fun _ ↦
      (keeps_attrs_orFree (keeps_attrs_onFs _)).bind fun _ ↦ (keeps_attrs_extFree 1).bind fun _ ↦ ⟨fun _ ↦ rfl⟩

/-- Inserting into a leaf that has room. -/
theorem keeps_attrs_ext4ExtentsInsertAtLeaf (leaf : PathNode) (newEx : Extent) :
    Keeps attrs (ext4ExtentsInsertAtLeaf leaf newEx) := by
  rw [ext4ExtentsInsertAtLeaf]
  rcases ext4ExtentsInsert leaf.eh newEx with ⟨_ | _, eh⟩
  · exact .pure _
  · refine (keeps_attrs_setNode leaf eh).bind fun leaf ↦
      (keeps_attrs_ext4ExtentsWritePathNode leaf).attempt.bind fun r ↦ ?_
    cases r with
    | none => exact .pure _
    | some _ => exact .pure _

/-- Splitting a full leaf. -/
theorem keeps_attrs_ext4ExtentsSplitLeaf (leaf : PathNode) (n : ℕ) (newEx : Extent) :
    Keeps attrs (ext4ExtentsSplitLeaf leaf n newEx) :=
  .get_bind fun _ ↦ (Keeps.guard _).bind fun _ ↦ (keeps_attrs_storeHalves ..).bind fun _ ↦ .pure _

/-- Inserting along a path, whichever of the three ways it takes. -/
theorem keeps_attrs_insertAlong (n : ℕ) (newEx : Extent) (path : List PathNode) :
    Keeps attrs (insertAlong n newEx path) := by
  cases path with
  | nil => exact .fail
  | cons leaf up =>
    refine (keeps_attrs_ext4ExtentsInsertAtLeaf leaf newEx).bind fun r ↦ .ite (.pure _) ?_
    exact (Keeps.guard _).bind fun _ ↦ (keeps_attrs_ext4ExtentsSplitLeaf ..).bind fun _ ↦
      keeps_attrs_ext4ExtentsAddIndex ..

/-- Allocating the run of a new extent. -/
theorem keeps_attrs_ext4ExtentsAllocNewExtent (lblock n : ℕ) :
    Keeps attrs (ext4ExtentsAllocNewExtent lblock n) :=
  .get_bind fun _ ↦ (keeps_attrs_onFs _).bind fun _ ↦ (Keeps.guard _).bind fun _ ↦ (Keeps.guard _).bind fun _ ↦
    .ite (Keeps.bind ⟨fun _ ↦ rfl⟩ fun _ ↦ .pure _) (.pure _)

/-- Mapping a block of the file to the run that was allocated for it. -/
theorem keeps_attrs_ext4ExtentsInsertMappedBlock (path : List PathNode) (lblock n : ℕ) :
    Keeps attrs (ext4ExtentsInsertMappedBlock path lblock n) := by
  refine (keeps_attrs_ext4ExtentsAllocNewExtent ..).bind fun newEx ↦
    (keeps_attrs_insertAlong ..).bind fun r ↦ ?_
  cases r with
  | none => exact .pure _
  | some grow => exact (keeps_attrs_ext4ExtentsGrowIndepth ..).bind fun _ ↦ .pure _

/-- The insertion with what it leaves of the path. -/
theorem keeps_attrs_insertAndFreePath (path : List PathNode) (lblock : ℕ) :
    Keeps attrs (insertAndFreePath path lblock) := by
  refine .get_bind fun s ↦ (keeps_attrs_ext4ExtentsInsertMappedBlock ..).attempt.bind fun r ↦
    (keeps_attrs_extFree _).bind fun _ ↦ ?_
  cases r with
  | none => exact .fail
  | some b => exact .pure _

/-- A lookup, with the insertion if there is nothing to find. -/
theorem keeps_attrs_lookupOrInsert (lblock : ℕ) (create : Bool) : Keeps attrs (lookupOrInsert lblock create) := by
  refine (keeps_attrs_ext4ExtentsReadPath lblock).bind fun path ↦ ?_
  cases path.head?.bind fun leaf ↦ ext4ExtentsLookupMapped leaf.eh lblock with
  | some b => exact (keeps_attrs_extFree _).bind fun _ ↦ .pure _
  | none =>
    cases create with
    | false => exact (keeps_attrs_extFree _).bind fun _ ↦ .pure _
    | true => exact keeps_attrs_insertAndFreePath path lblock

/-- `get_block` changes the mapping and the size in blocks. -/
theorem keeps_attrs_ext4ExtentsGetBlock (lblock : ℕ) (create : Bool) :
    Keeps attrs (ext4ExtentsGetBlock lblock create) :=
  .get_bind fun _ ↦ (Keeps.guard _).bind fun _ ↦ .ite (.pure _)
    (.ite (Keeps.bind ⟨fun _ ↦ rfl⟩ fun _ ↦ keeps_attrs_lookupOrInsert ..) (keeps_attrs_lookupOrInsert ..))

/-! ### The block map of a directory -/

/-- Finding a block of a directory changes nothing of it. -/
theorem keeps_attrs_ext4DirGetBlocknr (lblock : ℕ) : Keeps attrs (ext4DirGetBlocknr lblock) :=
  .get_bind fun _ ↦ .ite
    ((keeps_attrs_ext4ExtentsGetBlock ..).bind fun _ ↦ (Keeps.guard _).bind fun _ ↦ .pure _)
    (.ite ((Keeps.guard _).bind fun _ ↦ .pure _)
      ((Keeps.guard _).bind fun _ ↦ (Keeps.guard _).bind fun _ ↦ (Keeps.guard _).bind fun _ ↦
        (keeps_attrs_onFs _).bind fun _ ↦ (keeps_attrs_onFs _).bind fun _ ↦ (Keeps.guard _).bind fun _ ↦ .pure _))

/-- A new block for a directory. -/
theorem keeps_attrs_dirNewBlock : Keeps attrs dirNewBlock :=
  (keeps_attrs_onFs _).bind fun _ ↦ (Keeps.guard _).bind fun _ ↦ .pure _

/-- The indirect block, allocated if there is none: a word of the mapping. -/
theorem keeps_attrs_indirectForWrite : Keeps attrs indirectForWrite := by
  refine .get_bind fun s ↦ .ite ?_ ?_
  · refine keeps_attrs_dirNewBlock.bind fun iblk ↦ Keeps.bind ⟨fun _ ↦ rfl⟩ fun _ ↦
      (keeps_attrs_onFs _).attempt.bind fun r ↦ ?_
    cases r with
    | none => exact Keeps.bind ⟨fun _ ↦ rfl⟩ fun _ ↦ keeps_attrs_freeAndFail iblk
    | some _ => exact .pure _
  · exact (keeps_attrs_onFs _).bind fun _ ↦ (keeps_attrs_onFs _).bind fun _ ↦ .pure _

/-- Mapping the first free block of an indexed directory. -/
theorem keeps_attrs_ext4HtreeAllocLblock (phys startLblk : ℕ) :
    Keeps attrs (ext4HtreeAllocLblock phys startLblk) := by
  refine (Keeps.guard _).bind fun _ ↦ .get_bind fun s ↦ ?_
  cases firstZero s.inode.word (12 - startLblk) startLblk with
  | some j => exact Keeps.bind ⟨fun _ ↦ rfl⟩ fun _ ↦ .pure _
  | none =>
    refine (Keeps.guard _).bind fun _ ↦ (Keeps.guard _).bind fun _ ↦ keeps_attrs_indirectForWrite.bind fun r ↦ ?_
    cases firstZero (fun idx ↦ r.2.le (4 * idx) 4) (s.fs.blockSize / 4 - (startLblk - 12)) (startLblk - 12) with
    | some idx => exact (keeps_attrs_onFs _).bind fun _ ↦ .pure _
    | none => exact .fail

/-- Taking such a mapping back. -/
theorem keeps_attrs_ext4HtreeUnmapLblock (lblk : ℕ) : Keeps attrs (ext4HtreeUnmapLblock lblk) :=
  .ite ⟨fun _ ↦ rfl⟩ (.get_bind fun _ ↦ (Keeps.guard _).bind fun _ ↦ (Keeps.guard _).bind fun _ ↦
    (Keeps.guard _).bind fun _ ↦ (keeps_attrs_onFs _).bind fun _ ↦ (keeps_attrs_onFs _).bind fun _ ↦
      keeps_attrs_onFs _)

/-- Mapping a block of a directory, directly or through the indirect block. -/
theorem keeps_attrs_ext4DirSetBlocknr (lblock phys : ℕ) : Keeps attrs (ext4DirSetBlocknr lblock phys) := by
  refine (Keeps.guard _).bind fun _ ↦ .get_bind fun s ↦ .ite ⟨fun _ ↦ rfl⟩ ?_
  refine (Keeps.guard _).bind fun _ ↦ (Keeps.guard _).bind fun _ ↦ (Keeps.guard _).bind fun _ ↦
    keeps_attrs_indirectForWrite.bind fun _ ↦ .ite ?_ (keeps_attrs_onFs _)
  exact Keeps.bind ⟨fun _ ↦ rfl⟩ fun _ ↦ keeps_attrs_onFs _

/-- Counting the blocks that are mapped. -/
theorem keeps_attrs_mappedBlocks (n i : ℕ) : Keeps attrs (mappedBlocks n i) := by
  induction n generalizing i with
  | zero => exact .pure _
  | succ n ih =>
    refine (keeps_attrs_ext4DirGetBlocknr i).attempt.bind fun r ↦ ?_
    cases r with
    | none => exact .pure _
    | some _ => exact ih (i + 1)

/-- Counting the blocks anew stores the size and the block count, which are no attributes. -/
theorem keeps_attrs_ext4DirRefreshSizeBlocks : Keeps attrs ext4DirRefreshSizeBlocks :=
  .get_bind fun _ ↦ .ite (.pure _) ((keeps_attrs_mappedBlocks ..).bind fun _ ↦ ⟨fun _ ↦ rfl⟩)

/-! ### Indexed directories -/

/-- Reading the index node that a hash leads to. -/
theorem keeps_attrs_readDxNode (rootBuf : Buf) (entries nent h32 : ℕ) :
    Keeps attrs (readDxNode rootBuf entries nent h32) :=
  .get_bind fun _ ↦ (keeps_attrs_ext4DirGetBlocknr _).bind fun _ ↦ (keeps_attrs_onFs _).bind fun _ ↦
    (keeps_attrs_onFs _).bind fun _ ↦ (Keeps.ofOption _).bind fun _ ↦ .pure _

/-- Picking the leaf of a hash. -/
theorem keeps_attrs_ext4HtreePickLeafFromRoot (rootBuf : Buf) (h32 : ℕ) :
    Keeps attrs (ext4HtreePickLeafFromRoot rootBuf h32) :=
  .get_bind fun _ ↦ (Keeps.ofOption _).bind fun _ ↦ .ite (.pure _)
    ((Keeps.guard _).bind fun _ ↦ (keeps_attrs_readDxNode ..).bind fun _ ↦ .pure _)

/-- The size of an indexed directory is counted in the same way. -/
theorem keeps_attrs_ext4HtreeRefreshDirInodeSize : Keeps attrs ext4HtreeRefreshDirInodeSize := by
  refine .get_bind fun s ↦ Keeps.bind (Keeps.attempt ?_) fun _ ↦ ⟨fun _ ↦ rfl⟩
  exact (Keeps.guard _).bind fun _ ↦ (keeps_attrs_onFs _).bind fun _ ↦ keeps_attrs_onFs _

/-- A new block of an indexed directory, mapped. -/
theorem keeps_attrs_newMappedBlock : Keeps attrs newMappedBlock := by
  refine keeps_attrs_dirNewBlock.bind fun phys ↦ (keeps_attrs_ext4HtreeAllocLblock phys 1).attempt.bind fun r ↦ ?_
  cases r with
  | none => exact keeps_attrs_freeAndFail phys
  | some lblk => exact .pure _

/-- Adding an entry to the index, with the split of a node that is full. -/
theorem keeps_attrs_ext4HtreeAddDxEntry (rootBuf : Buf) (rootPhys info : ℕ) (target : ℕ × Buf × DxIndex)
    (idx hMid newLblk : ℕ) :
    Keeps attrs (ext4HtreeAddDxEntry rootBuf rootPhys info target idx hMid newLblk) :=
  .get_bind fun _ ↦ .ite ((Keeps.guard _).bind fun _ ↦ (keeps_attrs_onFs _).bind fun _ ↦
    keeps_attrs_newMappedBlock.bind fun _ ↦ (keeps_attrs_onFs _).bind fun _ ↦ keeps_attrs_onFs _)
    (keeps_attrs_onFs _)

/-- Writing the upper half of a leaf to a new block. -/
theorem keeps_attrs_writeUpperHalf (leafBuf : Buf) (items : List LeafItem) :
    Keeps attrs (writeUpperHalf leafBuf items) := by
  refine .get_bind fun s ↦ keeps_attrs_newMappedBlock.bind fun new ↦
    (keeps_attrs_onFs _).attempt.bind fun r ↦ ?_
  cases r with
  | none => exact (keeps_attrs_ext4HtreeUnmapLblock _).attempt.bind fun _ ↦ keeps_attrs_freeAndFail _
  | some _ => exact .pure _

/-- Splitting a leaf of an indexed directory. -/
theorem keeps_attrs_ext4HtreeSplitLeaf (rootBuf : Buf) (rootPhys leafLblk : ℕ) (name : List Byte) (ino : ℕ) :
    Keeps attrs (ext4HtreeSplitLeaf rootBuf rootPhys leafLblk name ino) := by
  refine .get_bind fun s ↦ (Keeps.ofOption _).bind fun root ↦ ?_
  have hrest : ∀ target : ℕ × Buf × DxIndex, Keeps attrs (do
      let idx ← ofOption (ext4HtreeFindDxIndexForLblock target.2.1 target.2.2.entries target.2.2.nent leafLblk)
      let leafPhys ← ext4DirGetBlocknr leafLblk
      onFs Fs.mallocBlock
      let leafBuf ← onFs (Fs.readBlock leafPhys)
      let halves ← ofOption
        (splitItems (ext4HtreeNameHash32 s.fs.sbi.sDefHashVersion) leafBuf s.fs.blockSize name ino)
      let leafBuf := ext4HtreePackLeaf leafBuf s.fs.blockSize halves.1
      onFs (Fs.writeBlock leafPhys leafBuf)
      let newLblk ← writeUpperHalf leafBuf halves.2
      ext4HtreeAddDxEntry rootBuf rootPhys root.1 target idx ((halves.2.head?.map LeafItem.hash).getD 0) newLblk
      ext4HtreeRefreshDirInodeSize
      writeInode) := fun target ↦
    (Keeps.ofOption _).bind fun _ ↦ (keeps_attrs_ext4DirGetBlocknr _).bind fun _ ↦ (keeps_attrs_onFs _).bind fun _ ↦
      (keeps_attrs_onFs _).bind fun _ ↦ (Keeps.ofOption _).bind fun _ ↦ (keeps_attrs_onFs _).bind fun _ ↦
        (keeps_attrs_writeUpperHalf ..).bind fun _ ↦ (keeps_attrs_ext4HtreeAddDxEntry ..).bind fun _ ↦
          keeps_attrs_ext4HtreeRefreshDirInodeSize.bind fun _ ↦ keeps_attrs_writeInode
  exact .ite ((keeps_attrs_readDxNode ..).bind hrest) (hrest _)

/-- Reading the leaves of a directory that is about to be indexed. -/
theorem keeps_attrs_oldLeaves (n lblk : ℕ) : Keeps attrs (oldLeaves n lblk) := by
  induction n generalizing lblk with
  | zero => exact .pure _
  | succ n ih =>
    exact .get_bind fun _ ↦ (keeps_attrs_ext4DirGetBlocknr _).bind fun _ ↦ (keeps_attrs_onFs _).bind fun _ ↦
      (Keeps.ofOption _).bind fun _ ↦ (ih _).bind fun _ ↦ .pure _

/-- Turning a directory into an indexed one, after its blocks are allocated. -/
theorem keeps_attrs_upgradeBody (rootPhys oldLast newLeafLblk newLeafPhys : ℕ) :
    Keeps attrs (upgradeBody rootPhys oldLast newLeafLblk newLeafPhys) :=
  .get_bind fun _ ↦ (keeps_attrs_onFs _).bind fun _ ↦ (keeps_attrs_onFs _).bind fun _ ↦
    (Keeps.ofOption _).bind fun _ ↦ (keeps_attrs_onFs _).bind fun _ ↦ (Keeps.guard _).bind fun _ ↦
      (keeps_attrs_oldLeaves ..).bind fun _ ↦ (keeps_attrs_onFs _).bind fun _ ↦ (Keeps.ofOption _).bind fun _ ↦
        (Keeps.guard _).bind fun _ ↦ (keeps_attrs_onFs _).bind fun _ ↦ Keeps.bind ⟨fun _ ↦ rfl⟩ fun _ ↦
          keeps_attrs_ext4DirRefreshSizeBlocks.bind fun _ ↦ keeps_attrs_writeInode

/-- Undoing the mapping of the new leaf. -/
theorem keeps_attrs_unmapNewLeaf (lblk : ℕ) : Keeps attrs (unmapNewLeaf lblk) :=
  .get_bind fun _ ↦ .ite ⟨fun _ ↦ rfl⟩ (.ite ((keeps_attrs_onFs _).bind fun _ ↦ (keeps_attrs_onFs _).bind fun _ ↦
    (Keeps.guard _).bind fun _ ↦ keeps_attrs_onFs _) (.pure _))

/-- The upgrade sets the INDEX flag and keeps the other attributes. -/
theorem keeps_attrs_ext4DirUpgradeToHtree : Keeps attrs ext4DirUpgradeToHtree := by
  refine .get_bind fun s ↦ (Keeps.guard _).bind fun _ ↦ (Keeps.guard _).bind fun _ ↦
    (keeps_attrs_mappedBlocks ..).bind fun oldCnt ↦ (Keeps.guard _).bind fun _ ↦
      (keeps_attrs_ext4DirGetBlocknr 0).bind fun rootPhys ↦ (Keeps.guard _).bind fun _ ↦
        keeps_attrs_dirNewBlock.bind fun newLeafPhys ↦
          (keeps_attrs_ext4DirSetBlocknr oldCnt newLeafPhys).attempt.bind fun r ↦ ?_
  cases r with
  | none => exact keeps_attrs_freeAndFail newLeafPhys
  | some _ =>
    refine (keeps_attrs_upgradeBody ..).attempt.bind fun r ↦ ?_
    cases r with
    | some _ => exact .pure _
    | none => exact (keeps_attrs_unmapNewLeaf oldCnt).attempt.bind fun _ ↦ keeps_attrs_freeAndFail _

/-! ### Entries -/

/-- One more block for a linear directory. -/
theorem keeps_attrs_growDir (blkIdx : ℕ) : Keeps attrs (growDir blkIdx) := by
  refine .get_bind fun s ↦ ?_
  have hgrown : ∀ r : ℕ × Bool, Keeps attrs (do
      modifyInode fun inode ↦
        { inode with iSize := inode.iSize + s.fs.blockSize, iBlocks := u32 (inode.iBlocks + s.fs.blockSize / 512) }
      writeInode
      pure r.1) := fun r ↦ Keeps.bind ⟨fun _ ↦ rfl⟩ fun _ ↦ keeps_attrs_writeInode.bind fun _ ↦ .pure _
  have hrest : ∀ (r : ℕ × Bool) (k : Option Unit → StateErr FsInode ℕ), k none = freeAndFail r.1 →
      (∀ u, Keeps attrs (k (some u))) → Keeps attrs (if r.2 then
        attempt (onFs (Fs.writeBlock r.1 (emptyLeaf s.fs.blockSize))) >>= k else pure r.1) := by
    refine fun r k hnone hsome ↦ .ite ((keeps_attrs_onFs _).attempt.bind fun w ↦ ?_) (.pure _)
    cases w with
    | none => exact hnone ▸ keeps_attrs_freeAndFail r.1
    | some u => exact hsome u
  refine .ite ?_ ?_
  · exact (keeps_attrs_ext4ExtentsGetBlock ..).bind fun r ↦ (Keeps.guard _).bind fun _ ↦
      hrest r _ rfl fun _ ↦ hgrown r
  · refine keeps_attrs_dirNewBlock.bind fun blocknr ↦
      (keeps_attrs_ext4DirSetBlocknr ..).attempt.bind fun r ↦ ?_
    cases r with
    | some _ => exact (Keeps.pure (blocknr, true)).bind fun r ↦ hrest r _ rfl fun _ ↦ hgrown r
    | none => exact (keeps_attrs_freeAndFail blocknr).bind fun r ↦ hrest r _ rfl fun _ ↦ hgrown r

/-- Adding an entry to one block. -/
theorem keeps_attrs_addInBlock (name : List Byte) (ino blocknr : ℕ) :
    Keeps attrs (addInBlock name ino blocknr) := by
  refine .get_bind fun s ↦ (keeps_attrs_onFs _).bind fun buf ↦ (Keeps.ofOption _).bind fun r ↦ ?_
  cases r with
  | none => exact .pure _
  | some buf => exact (keeps_attrs_onFs _).bind fun _ ↦ .pure _

/-- Adding an entry to the first block with room, with an upgrade and a retry where there is none. -/
theorem keeps_attrs_addLinear {again : StateErr FsInode Unit} (hagain : Keeps attrs again) (name : List Byte)
    (ino n blkIdx : ℕ) : Keeps attrs (addLinear again name ino n blkIdx) := by
  induction n generalizing blkIdx with
  | zero => exact .fail
  | succ n ih =>
    have hblock : ∀ b, Keeps attrs (do
        if ← addInBlock name ino b then pure () else addLinear again name ino n (blkIdx + 1)) := fun b ↦
      (keeps_attrs_addInBlock name ino b).bind fun _ ↦ .ite (.pure _) (ih _)
    refine (keeps_attrs_ext4DirGetBlocknr blkIdx).attempt.bind fun r ↦ ?_
    cases r with
    | some b => exact hblock b
    | none =>
      refine .get_bind fun s ↦ Keeps.bind (Keeps.attempt ((Keeps.guard _).bind fun _ ↦
        keeps_attrs_ext4DirUpgradeToHtree)) fun r ↦ ?_
      cases r with
      | some _ => exact hagain
      | none => exact (keeps_attrs_growDir blkIdx).bind hblock

/-- Adding an entry through the index. -/
theorem keeps_attrs_addIndexed (name : List Byte) (ino : ℕ) : Keeps attrs (addIndexed name ino) := by
  refine .get_bind fun s ↦ (keeps_attrs_ext4DirGetBlocknr 0).bind fun rootPhys ↦
    (keeps_attrs_onFs _).bind fun root ↦
    (keeps_attrs_ext4HtreePickLeafFromRoot ..).bind fun leafLblk ↦
      (keeps_attrs_ext4DirGetBlocknr leafLblk).bind fun leafPhys ↦ (keeps_attrs_onFs _).bind fun leaf ↦ ?_
  rcases ext4HtreeTryInsertLeaf s.fs.blockSize name ino (ext4DirRecLen name.length) leaf with ⟨_ | _, leaf⟩
  · exact keeps_attrs_ext4HtreeSplitLeaf ..
  · exact keeps_attrs_onFs _

/-- Adding an entry leaves the directory what it is. -/
theorem keeps_attrs_ext4AddEntry (name : List Byte) (ino : ℕ) : Keeps attrs (ext4AddEntry name ino) := by
  have hcall : ∀ {again : StateErr FsInode Unit}, Keeps attrs again → Keeps attrs (addEntry again name ino) :=
    fun hagain ↦ (Keeps.guard _).bind fun _ ↦ (keeps_attrs_onFs _).bind fun _ ↦ .get_bind fun _ ↦
      .ite (keeps_attrs_addIndexed name ino) (keeps_attrs_addLinear hagain ..)
  exact hcall (hcall .fail)

/-- A scan of the blocks changes as much as the visit of one. -/
theorem keeps_attrs_scanBlocks {α : Type} {visit : ℕ → Buf → StateErr FsInode (Option α)}
    (h : ∀ b buf, Keeps attrs (visit b buf)) (n i : ℕ) : Keeps attrs (scanBlocks visit n i) := by
  induction n generalizing i with
  | zero => exact .pure _
  | succ n ih =>
    refine (keeps_attrs_ext4DirGetBlocknr i).attempt.bind fun r ↦ ?_
    cases r with
    | none => exact .pure _
    | some b =>
      refine (keeps_attrs_onFs _).bind fun buf ↦ (h b buf).bind fun r ↦ ?_
      cases r with
      | none => exact ih (i + 1)
      | some a => exact .pure _

/-- Removing an entry leaves the directory what it is. -/
theorem keeps_attrs_ext4RemoveEntry (name : List Byte) : Keeps attrs (ext4RemoveEntry name) := by
  rw [ext4RemoveEntry]
  generalize 2 ^ 32 = n
  refine (Keeps.guard _).bind fun _ ↦ (keeps_attrs_onFs _).bind fun _ ↦ .get_bind fun s ↦
    (keeps_attrs_scanBlocks (fun b buf ↦ ?_) n 0).bind fun _ ↦ .ofOption _
  refine (Keeps.ofOption _).bind fun r ↦ ?_
  cases r with
  | none => exact .pure _
  | some buf => exact (keeps_attrs_onFs _).bind fun _ ↦ .pure _

/-- Listing the entries of the blocks reads them. -/
theorem keeps_attrs_foreachBlocks {σ : Type} (filldir : σ → List Byte → ℕ → Bool × σ) (n i : ℕ) (ctx : σ) :
    Keeps attrs (foreachBlocks filldir n i ctx) := by
  induction n generalizing i ctx with
  | zero => exact .pure _
  | succ n ih =>
    refine (keeps_attrs_ext4DirGetBlocknr i).attempt.bind fun r ↦ ?_
    cases r with
    | none => exact .pure _
    | some b =>
      refine .get_bind fun s ↦ (keeps_attrs_onFs _).attempt.bind fun r ↦ ?_
      cases r with
      | none => exact .pure _
      | some buf =>
        dsimp only
        split
        · exact .pure _
        · exact .pure _
        · exact ih ..

/-- Listing a directory reads its blocks. -/
theorem keeps_attrs_ext4DirForeach {σ : Type} (filldir : σ → List Byte → ℕ → Bool × σ) (ctx : σ) :
    Keeps attrs (ext4DirForeach filldir ctx) := by
  rw [ext4DirForeach]
  generalize 2 ^ 32 = n
  refine (keeps_attrs_onFs _).attempt.bind fun r ↦ ?_
  cases r with
  | none => exact .pure _
  | some _ => exact keeps_attrs_foreachBlocks ..

/-! ### Files -/

/-- Freeing the data blocks clears the mapping and the size. -/
theorem keeps_attrs_ext4FreeInodeDataBlocks : Keeps attrs ext4FreeInodeDataBlocks := ⟨fun _ ↦ rfl⟩

end FsInode

/-- Closing a file gives back what was allocated ahead. -/
theorem FsFile.keeps_attrs_ext4FileRelease : Keeps FsInode.attrs ext4FileRelease := by
  refine .get_bind fun s ↦ .ite ((FsInode.keeps_attrs_onFs _).attempt.bind fun r ↦ ?_) (.pure _)
  cases r with
  | none => exact .pure _
  | some _ => exact ⟨fun _ ↦ rfl⟩

end MiniExt4
