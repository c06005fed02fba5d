import MiniExt4.Ext4.Htree
import MiniExt4.Ext4.Inode

/-!
# Directories (`fs/ext4/dir.c`)

A directory is a sequence of logical blocks, up to the first one that is not mapped. One without an
index is searched block by block, and when no block has room for a name it is rebuilt as an indexed one.

The pool behind `malloc` has eight slots of `BLOCK_SIZE` bytes; at most seven are in use.
-/

namespace MiniExt4

open StateErr
open Buf (Field)

/-! ### One block -/

/-- `de` has the name. -/
def entryIs (buf : Buf) (off : ℕ) (name : List Byte) : Bool :=
  buf.getField off De.inode ≠ 0 ∧ buf.getField off De.nameLen = name.length ∧
    nameAt buf off name.length = name

/-- The loop of `ext4_find_entry` over a block: the inode number and the offset of the entry, if there
is one; the outer `none` is a record of length 0. -/
def findLoop (blockSize : ℕ) (name : List Byte) (buf : Buf) : ℕ → ℕ → Option (Option (ℕ × ℕ))
  | 0, _ => some none
  | fuel + 1, off =>
    if off < blockSize then
      if buf.getField off De.recLen = 0 then none
      else if entryIs buf off name then some (some (buf.getField off De.inode, off))
      else findLoop blockSize name buf fuel (off + buf.getField off De.recLen)
    else some none

/-- The loop of `ext4_add_entry` over a block: the block with the entry, if there is room; the outer
`none` is a record that is not well formed. -/
def addLoop (blockSize : ℕ) (name : List Byte) (ino recLen : ℕ) (buf : Buf) :
    ℕ → ℕ → Option (Option Buf)
  | 0, _ => some none
  | fuel + 1, off =>
    if off + recLen ≤ blockSize then
      let dRecLen := buf.getField off De.recLen
      let dIno := buf.getField off De.inode
      let usedLen := if dIno ≠ 0 then ext4DirRecLen (buf.getField off De.nameLen) else 0
      if dRecLen = 0 ∨ dRecLen % 4 ≠ 0 ∨ off + dRecLen > blockSize then none
      else if usedLen > dRecLen then none
      else if dRecLen ≥ u16 (usedLen + recLen) then
        if dIno ≠ 0 then
          some (putEntry (buf.setField off De.recLen usedLen) (off + usedLen) ino (dRecLen - usedLen) 0 name)
        else some (putEntry buf off ino dRecLen 0 name)
      else addLoop blockSize name ino recLen buf fuel (off + dRecLen)
    else some none

/-- The first entry of a block is only blanked. -/
def blankEntry (buf : Buf) (off : ℕ) : Buf :=
  buf
    |>.setField off De.inode 0
    |>.setField off De.nameLen 0
    |>.setField off De.fileType 0

/-- The loop of `ext4_remove_entry` over a block: the block without the entry, if it is there. `prev` is
the offset of the record before, which is in the same block. -/
def removeLoop (blockSize : ℕ) (name : List Byte) (buf : Buf) : ℕ → ℕ → Option ℕ → Option (Option Buf)
  | 0, _, _ => some none
  | fuel + 1, off, prev =>
    if off < blockSize then
      let recLen := buf.getField off De.recLen
      if recLen = 0 then none
      else if entryIs buf off name then
        match prev with
        | none => some (blankEntry buf off)
        | some prevOff => some (buf.setField prevOff De.recLen (buf.getField prevOff De.recLen + recLen))
      else removeLoop blockSize name buf fuel (off + recLen) (some off)
    else some none

/-- How the loop of `ext4_dir_foreach` over a block ends. -/
inductive Foreach (σ : Type) where
  | error (ctx : σ)
  | stop (ctx : σ)
  | next (ctx : σ)

/-- The loop of `ext4_dir_foreach` over a block. The callback returns whether to stop. -/
def foreachLoop {σ : Type} (filldir : σ → List Byte → ℕ → Bool × σ) (blockSize : ℕ) (buf : Buf) :
    ℕ → ℕ → σ → Foreach σ
  | 0, _, ctx => .next ctx
  | fuel + 1, off, ctx =>
    if off < blockSize then
      let recLen := buf.getField off De.recLen
      let nameLen := buf.getField off De.nameLen
      let ino := buf.getField off De.inode
      if recLen = 0 then .error ctx
      else if ino ≠ 0 ∧ nameLen > 0 then
        let r := filldir ctx (nameAt buf off nameLen) ino
        if r.1 then .stop r.2 else foreachLoop filldir blockSize buf fuel (off + recLen) r.2
      else foreachLoop filldir blockSize buf fuel (off + recLen) ctx
    else .next ctx

/-- The loop of `ext4_dir_leaf_calc_max_hash`, with the greatest hash so far. -/
def maxHashLoop (hash32 : List Byte → ℕ) (leaf : Buf) (blockSize : ℕ) :
    ℕ → ℕ → Option ℕ → Option (Option ℕ)
  | 0, _, maxHash => some maxHash
  | fuel + 1, off, maxHash =>
    if off < blockSize then
      let recLen := leaf.getField off De.recLen
      let nl := leaf.getField off De.nameLen
      if recLen = 0 ∨ recLen % 4 ≠ 0 ∨ off + recLen > blockSize then none
      else
        let h := hash32 (nameAt leaf off nl)
        maxHashLoop hash32 leaf blockSize fuel (off + recLen)
          (if leaf.getField off De.inode ≠ 0 ∧ nl > 0 ∧ maxHash.all (h > ·) then some h else maxHash)
    else some maxHash

/-- `ext4_dir_leaf_calc_max_hash(dir, leaf, block_size, &out_max_hash)` -/
def ext4DirLeafCalcMaxHash (hash32 : List Byte → ℕ) (leaf : Buf) (blockSize : ℕ) : Option ℕ :=
  (maxHashLoop hash32 leaf blockSize blockSize 0 none).map (·.getD 0)

/-- `.` or `..` -/
def isDot (name : List Byte) : Bool := name = [46] ∨ name = [46, 46]

/-- The entries of block 0, but for `.` and `..`, are inserted into the new leaf one by one. -/
def migrateLoop (rootOld : Buf) (blockSize : ℕ) : ℕ → ℕ → StateErr Buf Unit
  | 0, _ => pure ()
  | fuel + 1, off =>
    if off < blockSize then do
      let recLen := rootOld.getField off De.recLen
      let nl := rootOld.getField off De.nameLen
      let ino := rootOld.getField off De.inode
      guard (recLen ≠ 0 ∧ recLen % 4 = 0 ∧ off + recLen ≤ blockSize)
      if ino ≠ 0 ∧ nl > 0 ∧ !isDot (nameAt rootOld off nl) then
        let _ ← ext4HtreeTryInsertLeaf blockSize (nameAt rootOld off nl) ino (ext4DirRecLen nl)
        migrateLoop rootOld blockSize fuel (off + recLen)
      else migrateLoop rootOld blockSize fuel (off + recLen)
    else pure ()

/-- A block with one dead entry. -/
def emptyLeaf (blockSize : ℕ) : Buf := putEntry Buf.zero 0 0 blockSize 0 []

/-- The new leaf of a directory whose block 0 is `rootOld`. -/
def migrated (rootOld : Buf) (blockSize : ℕ) : Option Buf :=
  match migrateLoop rootOld blockSize blockSize 0 (emptyLeaf blockSize) with
  | (some _, leaf) => some leaf
  | (none, _) => none

/-- `struct ext4_dir_leaf_meta` -/
structure LeafMeta where
  lblk : ℕ
  maxHash : ℕ
  deriving DecidableEq

/-- `dx_limit` of the root of an upgraded directory. -/
def dxRootLimit (blockSize : ℕ) : ℕ :=
  u16 ((blockSize - u16 (ext4DirRecLen 1 + ext4DirRecLen 2 + DxRootInfo.size)) / DxEntry.size)

/-- The entries of the index: a leaf starts behind the greatest hash of the one before it. -/
def putDxEntries (entries : ℕ) : List LeafMeta → ℕ → Option ℕ → Buf → Buf
  | [], _, _, b => b
  | leaf :: leaves, i, prev, b =>
    let b := b.setField (entries + i * DxEntry.size) DxEntry.block leaf.lblk
    let b := match prev with
      | none => b
      | some h =>
        b.setField (entries + i * DxEntry.size) DxEntry.hash (if h ≠ 0xffffffff then h + 1 else h)
    putDxEntries entries leaves (i + 1) (some leaf.maxHash) b

/-- Block 0 as the root of the index. -/
def dxRoot (blockSize ino parentIno hashVersion : ℕ) (leaves : List LeafMeta) : Buf :=
  let rec1 := ext4DirRecLen 1
  let info := rec1 + ext4DirRecLen 2
  let entries := info + DxRootInfo.size
  let b := putEntry Buf.zero 0 ino rec1 2 [46]
  let b := putEntry b rec1 parentIno (blockSize - rec1) 2 [46, 46]
  let b := b
    |>.setField info DxRootInfo.hashVersion hashVersion
    |>.setField info DxRootInfo.infoLength DxRootInfo.size
    |>.setField entries DxCountlimit.limit (dxRootLimit blockSize)
    |>.setField entries DxCountlimit.count leaves.length
  putDxEntries entries leaves 0 none b

namespace FsInode

/-! ### Mapping blocks -/

/-- `ext4_dir_set_blocknr(dir, lblock, phys)` -/
def ext4DirSetBlocknr (lblock phys : ℕ) : StateErr FsInode Unit := do
  guard (phys ≠ 0)
  let s ← get
  if lblock < 12 then modifyInode fun inode ↦ inode.setWord lblock phys
  else
    guard (!s.inode.hasExtents)
    guard (s.fs.blockSize ≠ 0 ∧ s.fs.blockSize % 4 = 0)
    guard (lblock - 12 < s.fs.blockSize / 4)
    let r ← indirectForWrite
    if s.inode.word 12 = 0 then
      modifyInode fun inode ↦ { inode with iBlocks := u32 (inode.iBlocks + s.fs.blockSize / 512) }
    else pure ()
    onFs (Fs.writeBlock r.1 (r.2.putLe (4 * (lblock - 12)) 4 phys))

/-- How many logical blocks from `i` on are mapped, of so many. -/
def mappedBlocks : ℕ → ℕ → StateErr FsInode ℕ
  | 0, i => pure i
  | n + 1, i => do
    match ← attempt (ext4DirGetBlocknr i) with
    | none => pure i
    | some _ => mappedBlocks n (i + 1)

/-- The number of logical blocks that `i_block` and one indirect block have. -/
def maxLblocks (blockSize : ℕ) : ℕ := 12 + if blockSize ≠ 0 ∧ blockSize % 4 = 0 then blockSize / 4 else 0

/-- `ext4_dir_refresh_size_blocks(dir)` -/
def ext4DirRefreshSizeBlocks : StateErr FsInode Unit := do
  let s ← get
  let bs := s.fs.blockSize
  if bs = 0 then pure ()
  else
    let cnt ← mappedBlocks (maxLblocks bs) 0
    modifyInode fun inode ↦
      { inode with
        iSize := bs * cnt
        iBlocks := u32 (bs / 512 * cnt + if inode.word 12 ≠ 0 then bs / 512 else 0) }

/-! ### Searching -/

/-- The loop over the logical blocks from `blkIdx` on, up to the first that is not mapped, with what is
to be done in each. -/
def scanBlocks {α : Type} (visit : ℕ → Buf → StateErr FsInode (Option α)) :
    ℕ → ℕ → StateErr FsInode (Option α)
  | 0, _ => pure none
  | n + 1, blkIdx => do
    match ← attempt (ext4DirGetBlocknr blkIdx) with
    | none => pure none
    | some blocknr =>
      let buf ← onFs (Fs.readBlock blocknr)
      match ← visit blocknr buf with
      | some a => pure (some a)
      | none => scanBlocks visit n (blkIdx + 1)

/-- What `ext4_find_entry` does with a block. -/
def findInBlock (blockSize : ℕ) (name : List Byte) (blocknr : ℕ) (buf : Buf) :
    StateErr FsInode (Option (ℕ × ℕ × ℕ)) := do
  let found ← ofOption (findLoop blockSize name buf blockSize 0)
  pure (found.map fun e ↦ (e.1, blocknr, e.2))

/-- The linear search of `ext4_find_entry`: the inode number, the block and the offset of the entry. -/
def findLinear (name : List Byte) : StateErr FsInode (ℕ × ℕ × ℕ) := do
  onFs Fs.mallocBlock
  let s ← get
  let r ← scanBlocks (findInBlock s.fs.blockSize name) (2 ^ 32) 0
  ofOption r

/-- The leaf that the index has for a name. -/
def indexedLeaf (name : List Byte) : StateErr FsInode ℕ := do
  let s ← get
  let rootPhys ← ext4DirGetBlocknr 0
  let root ← onFs (Fs.readBlock rootPhys)
  let leafLblk ← ext4HtreePickLeafFromRoot root (ext4HtreeNameHash32 s.fs.sbi.sDefHashVersion name)
  ext4DirGetBlocknr leafLblk

/-- `ext4_find_entry(dir, name, &out_ino, &out_blocknr, &out_off)`. Where the leaf does not have the name
the whole directory is searched. -/
def ext4FindEntry (name : List Byte) : StateErr FsInode (ℕ × ℕ × ℕ) := do
  guard (name.length ≠ 0 ∧ name.length ≤ 255)
  let s ← get
  let bs := s.fs.blockSize
  if s.inode.hasIndex then
    onFs Fs.mallocBlock
    match ← attempt (indexedLeaf name) with
    | none => findLinear name
    | some leafPhys =>
      match ← attempt (onFs (Fs.readBlock leafPhys)) with
      | none => findLinear name
      | some buf =>
        match findLoop bs name buf bs 0 with
        | some (some e) => pure (e.1, leafPhys, e.2)
        | _ => findLinear name
  else findLinear name

/-- What `ext4_remove_entry` does with a block. -/
def removeInBlock (blockSize : ℕ) (name : List Byte) (blocknr : ℕ) (buf : Buf) :
    StateErr FsInode (Option Unit) := do
  match ← ofOption (removeLoop blockSize name buf blockSize 0 none) with
  | none => pure none
  | some buf =>
    onFs (Fs.writeBlock blocknr buf)
    pure (some ())

/-- `ext4_remove_entry(dir, name)` -/
def ext4RemoveEntry (name : List Byte) : StateErr FsInode Unit := do
  guard (name.length ≠ 0)
  onFs Fs.mallocBlock
  let s ← get
  let r ← scanBlocks (removeInBlock s.fs.blockSize name) (2 ^ 32) 0
  ofOption r

/-- The loop of `ext4_dir_foreach` over the logical blocks: whether it returns 0, and `ctx`. -/
def foreachBlocks {σ : Type} (filldir : σ → List Byte → ℕ → Bool × σ) :
    ℕ → ℕ → σ → StateErr FsInode (Bool × σ)
  | 0, _, ctx => pure (true, ctx)
  | n + 1, blkIdx, ctx => do
    match ← attempt (ext4DirGetBlocknr blkIdx) with
    | none => pure (true, ctx)
    | some blocknr =>
      let s ← get
      match ← attempt (onFs (Fs.readBlock blocknr)) with
      | none => pure (false, ctx)
      | some buf =>
        match foreachLoop filldir s.fs.blockSize buf s.fs.blockSize 0 ctx with
        | .error ctx => pure (false, ctx)
        | .stop ctx => pure (true, ctx)
        | .next ctx => foreachBlocks filldir n (blkIdx + 1) ctx

/-- `ext4_dir_foreach(dir, ctx, filldir)`: whether it returns 0, and `ctx`. -/
def ext4DirForeach {σ : Type} (filldir : σ → List Byte → ℕ → Bool × σ) (ctx : σ) :
    StateErr FsInode (Bool × σ) := do
  match ← attempt (onFs Fs.mallocBlock) with
  | none => pure (false, ctx)
  | some _ => foreachBlocks filldir (2 ^ 32) 0 ctx

/-! ### From a linear directory to an indexed one -/

/-- The greatest hashes of the old blocks from `lblk` on that become leaves. -/
def oldLeaves : ℕ → ℕ → StateErr FsInode (List LeafMeta)
  | 0, _ => pure []
  | n + 1, lblk => do
    let s ← get
    let phys ← ext4DirGetBlocknr lblk
    let buf ← onFs (Fs.readBlock phys)
    let maxHash ← ofOption
      (ext4DirLeafCalcMaxHash (ext4HtreeNameHash32 s.fs.sbi.sDefHashVersion) buf s.fs.blockSize)
    let leaves ← oldLeaves n (lblk + 1)
    pure (⟨lblk, maxHash⟩ :: leaves)

/-- The part of `ext4_dir_upgrade_to_htree` that is undone if it fails. -/
def upgradeBody (rootPhys oldLast newLeafLblk newLeafPhys : ℕ) : StateErr FsInode Unit := do
  let s ← get
  let bs := s.fs.blockSize
  let hash32 := ext4HtreeNameHash32 s.fs.sbi.sDefHashVersion
  onFs Fs.mallocBlock
  let rootOld ← onFs (Fs.readBlock rootPhys)
  let dotdot := ext4DirRecLen 1
  let parentIno :=
    if rootOld.getField dotdot De.recLen ≥ ext4DirRecLen 2 then rootOld.getField dotdot De.inode
    else s.inode.iIno
  let leafBuf ← ofOption (migrated rootOld bs)
  onFs (Fs.writeBlock newLeafPhys leafBuf)
  -- `malloc(sizeof(*meta) * meta_n)`
  guard (8 * (oldLast + 1) ≤ blockSizeDefault)
  let old ← oldLeaves oldLast 1
  let buf ← onFs (Fs.readBlock newLeafPhys)
  let maxHash ← ofOption (ext4DirLeafCalcMaxHash hash32 buf bs)
  let leaves := ExchangeSort.sort LeafMeta.maxHash (old ++ [⟨newLeafLblk, maxHash⟩])
  guard (leaves.length ≤ dxRootLimit bs)
  onFs (Fs.writeBlock rootPhys (dxRoot bs s.inode.iIno parentIno s.fs.sbi.sDefHashVersion leaves))
  modifyInode fun inode ↦ { inode with iFlags := inode.iFlags ||| ext4InodeFlagIndex }
  ext4DirRefreshSizeBlocks
  writeInode

/-- The new leaf is not mapped any more. -/
def unmapNewLeaf (lblk : ℕ) : StateErr FsInode Unit := do
  let s ← get
  let iblk := s.inode.word 12
  if lblk < 12 then modifyInode fun inode ↦ inode.setWord lblk 0
  else if iblk ≠ 0 then
    onFs Fs.mallocBlock
    let ents ← onFs (Fs.readBlock iblk)
    guard (lblk - 12 < s.fs.blockSize / 4)
    onFs (Fs.writeBlock iblk (ents.putLe (4 * (lblk - 12)) 4 0))
  else pure ()

/-- `ext4_dir_upgrade_to_htree(dir)` -/
def ext4DirUpgradeToHtree : StateErr FsInode Unit := do
  let s ← get
  guard (!(s.inode.hasIndex || s.inode.hasExtents))
  guard (s.fs.blockSize ≠ 0 ∧ s.fs.blockSize % 4 = 0)
  let oldCnt ← mappedBlocks (maxLblocks s.fs.blockSize) 0
  guard (oldCnt ≠ 0)
  let rootPhys ← ext4DirGetBlocknr 0
  guard (oldCnt < maxLblocks s.fs.blockSize)
  let newLeafPhys ← dirNewBlock
  match ← attempt (ext4DirSetBlocknr oldCnt newLeafPhys) with
  | none => freeAndFail newLeafPhys
  | some _ =>
    match ← attempt (upgradeBody rootPhys (oldCnt - 1) oldCnt newLeafPhys) with
    | some _ => pure ()
    | none =>
      let _ ← attempt (unmapNewLeaf oldCnt)
      freeAndFail newLeafPhys

/-! ### Adding -/

/-- A directory grows by a block with one dead entry. -/
def growDir (blkIdx : ℕ) : StateErr FsInode ℕ := do
  let s ← get
  let bs := s.fs.blockSize
  let r ←
    if s.inode.hasExtents then do
      let r ← ext4ExtentsGetBlock blkIdx true
      guard (r.1 ≠ 0)
      pure r
    else do
      let blocknr ← dirNewBlock
      match ← attempt (ext4DirSetBlocknr blkIdx blocknr) with
      | some _ => pure (blocknr, true)
      | none => freeAndFail blocknr
  if r.2 then
    match ← attempt (onFs (Fs.writeBlock r.1 (emptyLeaf bs))) with
    | none => freeAndFail r.1
    | some _ =>
      modifyInode fun inode ↦
        { inode with iSize := inode.iSize + bs, iBlocks := u32 (inode.iBlocks + bs / 512) }
      writeInode
      pure r.1
  else pure r.1

/-- The rest of an iteration of the loop over the blocks, in block `blocknr`: whether the entry was
put there. -/
def addInBlock (name : List Byte) (ino blocknr : ℕ) : StateErr FsInode Bool := do
  let s ← get
  let bs := s.fs.blockSize
  let buf ← onFs (Fs.readBlock blocknr)
  match ← ofOption (addLoop bs name ino (ext4DirRecLen name.length) buf (bs + 1) 0) with
  | none => pure false
  | some buf =>
    onFs (Fs.writeBlock blocknr buf)
    pure true

/-- The loop of `ext4_add_entry` over the logical blocks. `again` is what is done in a directory that
was upgraded. -/
def addLinear (again : StateErr FsInode Unit) (name : List Byte) (ino : ℕ) : ℕ → ℕ → StateErr FsInode Unit
  | 0, _ => fail
  | n + 1, blkIdx => do
    match ← attempt (ext4DirGetBlocknr blkIdx) with
    | some blocknr =>
      if ← addInBlock name ino blocknr then pure () else addLinear again name ino n (blkIdx + 1)
    | none =>
      let s ← get
      let upgrade ← attempt (do
        guard (!(s.inode.hasIndex || s.inode.hasExtents) ∧ blkIdx ≥ 1)
        ext4DirUpgradeToHtree)
      match upgrade with
      | some _ => again
      | none =>
        let blocknr ← growDir blkIdx
        if ← addInBlock name ino blocknr then pure () else addLinear again name ino n (blkIdx + 1)

/-- The branch of `ext4_add_entry` for a directory with an index. -/
def addIndexed (name : List Byte) (ino : ℕ) : StateErr FsInode Unit := do
  let s ← get
  let bs := s.fs.blockSize
  let rootPhys ← ext4DirGetBlocknr 0
  let root ← onFs (Fs.readBlock rootPhys)
  let leafLblk ← ext4HtreePickLeafFromRoot root (ext4HtreeNameHash32 s.fs.sbi.sDefHashVersion name)
  let leafPhys ← ext4DirGetBlocknr leafLblk
  let leaf ← onFs (Fs.readBlock leafPhys)
  match ext4HtreeTryInsertLeaf bs name ino (ext4DirRecLen name.length) leaf with
  | (some _, leaf) => onFs (Fs.writeBlock leafPhys leaf)
  | (none, _) => ext4HtreeSplitLeaf root rootPhys leafLblk name ino

/-- A call of `ext4_add_entry`, where `again` is what its call of itself does. -/
def addEntry (again : StateErr FsInode Unit) (name : List Byte) (ino : ℕ) : StateErr FsInode Unit := do
  guard (name.length ≠ 0 ∧ name.length ≤ 255)
  onFs Fs.mallocBlock
  let s ← get
  if s.inode.hasIndex then addIndexed name ino
  else addLinear again name ino (if s.inode.hasExtents then 12 else 12 + s.fs.blockSize / 4) 0

/-- `ext4_add_entry(dir, name, ino)`. It calls itself on a directory with an index only, where there is
no further call. -/
def ext4AddEntry (name : List Byte) (ino : ℕ) : StateErr FsInode Unit :=
  addEntry (addEntry fail name ino) name ino

end FsInode

end MiniExt4
