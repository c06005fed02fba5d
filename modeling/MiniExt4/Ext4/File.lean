import MiniExt4.Ext4.Extents
import MiniExt4.Ext4.Inode

/-!
# Regular files (`fs/ext4/file.c`)

A logical block of a file is mapped by the 15 words of `i_block`, as pointers or as an extent tree, and
reading and writing go block by block, or by runs of whole blocks where the map allows it. The position
and the number of bytes left are what the loops count with.

`size_t` and `uint32_t` have 32 bits and `loff_t` has 64; the block arithmetic of both loops takes the
low 32 bits of the position. At most three of the four slots of the pool behind `malloc` are in use.
-/

namespace MiniExt4

open StateErr

namespace Inode

/-- `ei->i_block[i] = v` -/
def setWord (inode : Inode) (i v : ℕ) : Inode := { inode with iBlock := inode.iBlock.putLe (4 * i) 4 v }

end Inode

namespace Fs

/-- `ext4_read_blocks(blocknr, blocks, buf)` -/
def readBlocks (blocknr blocks : ℕ) : StateErr Fs Buf := fun fs ↦
  io (ext4ReadBlocks fs.blockSize blocknr blocks) fs

/-- `ext4_write_blocks(blocknr, blocks, buf)` -/
def writeBlocks (blocknr blocks : ℕ) (buf : Buf) : StateErr Fs Unit := fun fs ↦
  io (ext4WriteBlocks fs.blockSize blocknr blocks buf) fs

/-- Read a run of blocks, a single one with `ext4_read_block`. -/
def readRun (blocknr runBlocks : ℕ) : StateErr Fs Buf :=
  if runBlocks > 1 then readBlocks blocknr runBlocks else readBlock blocknr

/-- Write a run of blocks, a single one with `ext4_write_block`. -/
def writeRun (blocknr runBlocks : ℕ) (buf : Buf) : StateErr Fs Unit :=
  if runBlocks > 1 then writeBlocks blocknr runBlocks buf else writeBlock blocknr buf

/-- A block that is about to be written in part. -/
def oldBlock (blocknr : ℕ) (isNew : Bool) : StateErr Fs Buf :=
  if isNew then pure Buf.zero else readBlock blocknr

end Fs

namespace FsInode

/-! ### Mapping blocks -/

/-- `preferred_group` of `ext4_legacy_get_data_block` -/
def preferredGroup (s : FsInode) : ℕ :=
  if s.inode.iIno > 0 then
    if s.inode.iAllocGroupHint ≠ 0 ∨ s.fs.sbi.sInodesPerGroup = 0 then s.inode.iAllocGroupHint
    else (s.inode.iIno - 1) / s.fs.sbi.sInodesPerGroup
  else 0

/-- `ext4_new_block_in_group`, where 0 is a failure. -/
def newDataBlock (group : ℕ) : StateErr FsInode ℕ := do
  let blk ← onFs (Fs.ext4NewBlockInGroup group)
  guard (blk ≠ 0)
  pure blk

/-- Entry `index` of the indirect block `blk`, whose contents are `indBuf`. -/
def indirectEntry (group blk : ℕ) (indBuf : Buf) (index : ℕ) (create : Bool) :
    StateErr FsInode (ℕ × Bool) :=
  if indBuf.le (4 * index) 4 = 0 ∧ create then do
    let dataBlk ← newDataBlock group
    onFs (Fs.writeBlock blk (indBuf.putLe (4 * index) 4 dataBlk))
    pure (dataBlk, true)
  else pure (indBuf.le (4 * index) 4, false)

/-- Blocks below the single indirect block. -/
def legacySingle (group lblock : ℕ) (create : Bool) : StateErr FsInode (ℕ × Bool) := do
  onFs Fs.mallocBlock
  let s ← get
  let blk := s.inode.word 12
  if blk = 0 then
    if !create then pure (0, false)
    else
      let blk ← newDataBlock group
      modifyInode fun inode ↦ inode.setWord 12 blk
      onFs (Fs.writeBlock blk Buf.zero)
      indirectEntry group blk Buf.zero lblock create
  else
    let indBuf ← onFs (Fs.readBlock blk)
    indirectEntry group blk indBuf lblock create

/-- Blocks below entry `firstIndex` of the double indirect block `firstBlk`. -/
def legacySecond (group firstBlk : ℕ) (firstBuf : Buf) (firstIndex secondIndex : ℕ) (create : Bool) :
    StateErr FsInode (ℕ × Bool) := do
  let secondBlk := firstBuf.le (4 * firstIndex) 4
  onFs Fs.mallocBlock
  if secondBlk = 0 then
    if !create then pure (0, false)
    else
      let secondBlk ← newDataBlock group
      onFs (Fs.writeBlock firstBlk (firstBuf.putLe (4 * firstIndex) 4 secondBlk))
      onFs (Fs.writeBlock secondBlk Buf.zero)
      indirectEntry group secondBlk Buf.zero secondIndex create
  else
    let indBuf ← onFs (Fs.readBlock secondBlk)
    indirectEntry group secondBlk indBuf secondIndex create

/-- Blocks below the double indirect block. -/
def legacyDouble (group lblock ptrsPerBlock : ℕ) (create : Bool) : StateErr FsInode (ℕ × Bool) := do
  onFs Fs.mallocBlock
  let s ← get
  let firstBlk := s.inode.word 13
  if firstBlk = 0 then
    if !create then pure (0, false)
    else
      let firstBlk ← newDataBlock group
      modifyInode fun inode ↦ inode.setWord 13 firstBlk
      onFs (Fs.writeBlock firstBlk Buf.zero)
      legacySecond group firstBlk Buf.zero (lblock / ptrsPerBlock) (lblock % ptrsPerBlock) create
  else
    let firstBuf ← onFs (Fs.readBlock firstBlk)
    legacySecond group firstBlk firstBuf (lblock / ptrsPerBlock) (lblock % ptrsPerBlock) create

/-- `ext4_legacy_get_data_block(inode, lblock, create, &out, &is_new)`: `*out`, which is 0 for a block
that is not mapped, and `*is_new`. There is no triple indirection. -/
def ext4LegacyGetDataBlock (lblock : ℕ) (create : Bool) : StateErr FsInode (ℕ × Bool) := do
  let s ← get
  guard (s.fs.blockSize ≠ 0)
  let ptrsPerBlock := s.fs.blockSize / 4
  let group := s.preferredGroup
  if lblock < 12 then
    if s.inode.word lblock = 0 ∧ create then
      let blk ← newDataBlock group
      modifyInode fun inode ↦ inode.setWord lblock blk
      pure (blk, true)
    else pure (s.inode.word lblock, false)
  else if lblock - 12 < ptrsPerBlock then legacySingle group (lblock - 12) create
  else if lblock - 12 - ptrsPerBlock ≥ ptrsPerBlock * ptrsPerBlock then pure (0, false)
  else legacyDouble group (lblock - 12 - ptrsPerBlock) ptrsPerBlock create

/-- `ext4_get_data_block(inode, lblock, create, &out, &is_new)`. A write turns extents on. -/
def ext4GetDataBlock (lblock : ℕ) (create : Bool) : StateErr FsInode (ℕ × Bool) := do
  let s ← get
  if sIsreg s.inode.iMode then
    if create ∧ !s.inode.hasExtents then
      modifyInode fun inode ↦ { inode with iFlags := inode.iFlags ||| ext4InodeFlagExtents }
    else pure ()
    let s ← get
    if s.inode.hasExtents then ext4ExtentsGetBlock lblock create
    else ext4LegacyGetDataBlock lblock create
  else ext4LegacyGetDataBlock lblock create

/-- `ext4_extents_map_blocks(inode, lblock, max_blocks, &out_block, &out_len)` of `extents.c`: a run of
mapped blocks. Its variable `ex` is not initialised: `stale` is what it points at, unless it is null. -/
def ext4ExtentsMapBlocks (stale : Option Extent) (lblock maxBlocks : ℕ) : StateErr FsInode (ℕ × ℕ) := do
  guard (maxBlocks ≠ 0)
  let s ← get
  if Node.magic s.inode.iBlock ≠ ext4ExtMagic then pure (0, 0)
  else
    let path ← ext4ExtentsReadPath lblock
    ext4ExtentsFreePath path
    -- a search that finds nothing leaves `ex` as it is
    match ((path.head?).bind fun leaf ↦ ext4ExtentsFind leaf.eh lblock).or stale with
    | none => pure (0, 0)
    | some ex =>
      guard (ex.eeBlock ≤ lblock)
      guard (lblock - ex.eeBlock < ex.eeLen)
      let avail := ex.eeLen - (lblock - ex.eeBlock)
      pure (u32 (ex.eeStart + (lblock - ex.eeBlock)), if avail > maxBlocks then maxBlocks else avail)

end FsInode

/-! ### Open files -/

/-- A mounted filesystem, the inode of an open file, and the file's `f_pos`. -/
structure FsFile extends FsInode where
  fPos : ℕ

/-- `block_idx` at a position. -/
def blockIdx (blockSize pos : ℕ) : ℕ := u32 pos / blockSize

/-- `off_in_block` at a position. -/
def offInBlock (blockSize pos : ℕ) : ℕ := u32 pos % blockSize

/-- `to_copy`: what one block takes of `count` bytes. -/
def toCopy (blockSize pos count : ℕ) : ℕ :=
  if blockSize - offInBlock blockSize pos > count then count else blockSize - offInBlock blockSize pos

/-- The most blocks that are transferred at once: `count / block_size`, but not more than 64. -/
def maxRun (blockSize count : ℕ) : ℕ := if count / blockSize > 64 then 64 else count / blockSize

namespace FsFile

/-- Run a computation on the inode. -/
def onInode {α : Type} (x : StateErr FsInode α) : StateErr FsFile α :=
  zoom FsFile.toFsInode (fun s i ↦ { s with toFsInode := i }) x

/-- Run a computation on the filesystem. -/
def onFs {α : Type} (x : StateErr Fs α) : StateErr FsFile α := onInode (FsInode.onFs x)

/-- Move the position. -/
def advance (n : ℕ) : StateErr FsFile Unit := modify fun s ↦ { s with fPos := s.fPos + n }

/-! ### Reading -/

/-- One iteration of the loop of `ext4_file_read`: the bytes that were read and their number, or
nothing at the end of what is mapped. -/
def readStep (stale : Option Extent) (count : ℕ) : StateErr FsFile (Option (Buf × ℕ)) := do
  let s ← get
  let bs := s.fs.blockSize
  let off := offInBlock bs s.fPos
  let n := toCopy bs s.fPos count
  if off = 0 ∧ n = bs ∧ sIsreg s.inode.iMode ∧ s.inode.hasExtents then
    let run ← onInode (FsInode.ext4ExtentsMapBlocks stale (blockIdx bs s.fPos) (maxRun bs count))
    if run.1 = 0 ∨ run.2 = 0 then pure none
    else
      let buf ← onFs (Fs.readRun run.1 run.2)
      advance (run.2 * bs)
      pure (some (buf, run.2 * bs))
  else
    let r ← onInode (FsInode.ext4GetDataBlock (blockIdx bs s.fPos) false)
    if r.1 = 0 then pure none
    else
      let blockBuf ← onFs (Fs.readBlock r.1)
      advance n
      pure (some (Buf.zero.blit 0 blockBuf off n, n))

/-- The loop of `ext4_file_read`, with `count` bytes still to read and `read` already in `buf`. Every
iteration reads at least one byte. What the stack holds may differ from one iteration to the next. -/
def readLoop (stale : ℕ → Option Extent) : ℕ → ℕ → Buf → ℕ → StateErr FsFile (Buf × ℕ)
  | 0, _, buf, read => pure (buf, read)
  | fuel + 1, count, buf, read =>
    if count > 0 then do
      match ← readStep (stale read) count with
      | none => pure (buf, read)
      | some r => readLoop stale fuel (count - r.2) (buf.blit read r.1 0 r.2) (read + r.2)
    else pure (buf, read)

/-- `ext4_file_read(file, buf, count, pos)`: the bytes and their number. -/
def ext4FileRead (stale : ℕ → Option Extent) (count : ℕ) : StateErr FsFile (Buf × ℕ) := do
  let s ← get
  let stop := if s.fPos + count > s.inode.iSize then s.inode.iSize else s.fPos + count
  if s.fPos ≥ s.inode.iSize then pure (Buf.zero, 0)
  else
    let count := stop - s.fPos
    if count = 0 then pure (Buf.zero, 0)
    else
      onFs Fs.mallocBlock
      readLoop stale count count Buf.zero 0

/-! ### Writing -/

/-- The loop that looks for blocks to write in one run: `run_blocks` and `new_run_blocks`, with at most
so many blocks more. -/
def probeRun : ℕ → ℕ → ℕ → ℕ → ℕ → StateErr FsInode (ℕ × ℕ)
  | 0, runBlocks, newRunBlocks, _, _ => pure (runBlocks, newRunBlocks)
  | n + 1, runBlocks, newRunBlocks, nextLblock, prevPblock => do
    match ← attempt (FsInode.ext4GetDataBlock nextLblock true) with
    | none => pure (runBlocks, newRunBlocks)
    | some (pblk2, isNew2) =>
      if pblk2 = 0 ∨ pblk2 ≠ u32 (prevPblock + 1) then pure (runBlocks, newRunBlocks)
      else
        probeRun n (runBlocks + 1) (if isNew2 then newRunBlocks + 1 else newRunBlocks)
          (u32 (nextLblock + 1)) pblk2

/-- New blocks are counted in `i_blocks`. -/
def account (newBlocks : ℕ) : StateErr FsInode Unit := do
  let s ← get
  if newBlocks > 0 then
    FsInode.modifyInode fun inode ↦
      { inode with
        iBlocks := u32 (inode.iBlocks + newBlocks * ((s.fs.blockSize + 511) / 512)), dirty := true }
  else pure ()

/-- One iteration of the loop of `ext4_file_write`, where `count` bytes of `buf` are left from byte
`written` on: how many it wrote, or nothing where no block could be had. -/
def writeStep (buf : Buf) (count written : ℕ) : StateErr FsFile (Option ℕ) := do
  let s ← get
  let bs := s.fs.blockSize
  let idx := blockIdx bs s.fPos
  let off := offInBlock bs s.fPos
  let r ← onInode (FsInode.ext4GetDataBlock idx true)
  if r.1 = 0 then pure none
  else
    let n := toCopy bs s.fPos count
    if off = 0 ∧ n = bs then
      let run ← onInode
        (probeRun (maxRun bs count - 1) 1 (if r.2 then 1 else 0) (u32 (idx + 1)) r.1)
      onFs (Fs.writeRun r.1 run.1 fun i ↦ buf (written + i))
      onInode (account run.2)
      advance (run.1 * bs)
      pure (some (run.1 * bs))
    else
      let blockBuf ← onFs (Fs.oldBlock r.1 r.2)
      onFs (Fs.writeBlock r.1 (blockBuf.blit off buf written n))
      onInode (account (if r.2 then 1 else 0))
      advance n
      pure (some n)

/-- The loop of `ext4_file_write`, with `count` bytes still to write. Every iteration writes at least
one byte. -/
def writeLoop (buf : Buf) : ℕ → ℕ → ℕ → StateErr FsFile ℕ
  | 0, _, written => pure written
  | fuel + 1, count, written =>
    if count > 0 then do
      match ← writeStep buf count written with
      | none => pure written
      | some n => writeLoop buf fuel (count - n) (written + n)
    else pure written

/-- `ext4_file_write(file, buf, count, pos)`: the number of bytes written. -/
def ext4FileWrite (buf : Buf) (count : ℕ) : StateErr FsFile ℕ := do
  let s ← get
  let endPos := s.fPos + count
  onFs Fs.mallocBlock
  let written ← writeLoop buf count count 0
  onInode (FsInode.modifyInode fun inode ↦
    if endPos > inode.iSize then { inode with iSize := endPos, dirty := true } else inode)
  pure written

/-- `ext4_file_release(inode, file)` -/
def ext4FileRelease : StateErr FsInode Unit := do
  let s ← get
  if s.inode.dirty then
    match ← attempt (FsInode.onFs (Fs.ext4WriteInode s.inode)) with
    | some _ => FsInode.modifyInode fun inode ↦ { inode with dirty := false }
    | none => pure ()
  else pure ()

end FsFile

end MiniExt4
