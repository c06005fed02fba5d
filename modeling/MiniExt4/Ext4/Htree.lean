import MiniExt4.Machine.ExchangeSort
import MiniExt4.Ext4.Dirent
import MiniExt4.Ext4.Extents
import MiniExt4.Ext4.File

/-!
# Hashed directories (`fs/ext4/htree.c`)

The first block of an indexed directory has, behind `.` and `..`, a list of pairs of a hash and a
logical block, and the entries whose hash is from one pair up to the next are in the block of the first
of them: a leaf. There may be one level of index nodes in between. A leaf with no room for a name is
cut in two, and the index takes one more pair.

A buffer is a function, so that a store past its end is one like any other; only `block_size` bytes of
it are written to the device.
-/

namespace MiniExt4

open StateErr
open Buf (Field)

/-! ### The structures -/

/-! `struct ext4_dx_root_info` -/

namespace DxRootInfo

def reservedZero : Field := ⟨0, 4⟩
def hashVersion : Field := ⟨4, 1⟩
def infoLength : Field := ⟨5, 1⟩
def indirectLevels : Field := ⟨6, 1⟩
def unusedFlags : Field := ⟨7, 1⟩
def size : ℕ := 8

end DxRootInfo

/-! `struct ext4_dx_countlimit` -/

namespace DxCountlimit

def limit : Field := ⟨0, 2⟩
def count : Field := ⟨2, 2⟩

end DxCountlimit

/-! `struct ext4_dx_entry` -/

namespace DxEntry

def hash : Field := ⟨0, 4⟩
def block : Field := ⟨4, 4⟩
def size : ℕ := 8

end DxEntry

/-! `struct ext4_dx_node`: the header of an entry, `info` and `countlimit`. -/

namespace DxNode

def info : ℕ := 8
def countlimit : ℕ := 16
def size : ℕ := 20

end DxNode

/-- `EXT4_DX_HASH_LEGACY_UNSIGNED` -/
def ext4DxHashLegacyUnsigned : ℕ := 3

/-- `EXT4_HTREE_SPLIT_MAX_NAMES` -/
def ext4HtreeSplitMaxNames : ℕ := 512

/-! ### Hashes -/

/-- One step of the loop of both hash functions, for a character that was extended to 32 bits. -/
def dxHackStep (h : BitVec 32 × BitVec 32) (c : BitVec 32) : BitVec 32 × BitVec 32 :=
  let hash := h.2 + (h.1 ^^^ (c * 7152373#32))
  (if hash &&& 0x80000000#32 ≠ 0 then hash - 0x7fffffff#32 else hash, h.1)

/-- `dx_hack_hash_signed(name, len)` -/
def dxHackHashSigned (name : List Byte) : BitVec 32 :=
  (name.foldl (fun h c ↦ dxHackStep h (c.signExtend 32)) (0x12a3fe2d#32, 0x37abe8f9#32)).1 <<< 1

/-- `dx_hack_hash_unsigned(name, len)` -/
def dxHackHashUnsigned (name : List Byte) : BitVec 32 :=
  (name.foldl (fun h c ↦ dxHackStep h (c.zeroExtend 32)) (0x12a3fe2d#32, 0x37abe8f9#32)).1 <<< 1

/-- `ext4_htree_name_hash32(dir, name)`, where `ver` is `sbi->s_def_hash_version`. -/
def ext4HtreeNameHash32 (ver : ℕ) (name : List Byte) : ℕ :=
  let hash := if ver = ext4DxHashLegacyUnsigned then dxHackHashUnsigned name else dxHackHashSigned name
  let hash := hash &&& ~~~1#32
  if hash = 0xffffffff#32 then 0xfffffffe else hash.toNat

/-! ### Index blocks -/

/-- The entries of an index block: where they start, `limit` and `count`. -/
structure DxIndex where
  entries : ℕ
  cap : ℕ
  nent : ℕ
  deriving DecidableEq

/-- `ext4_htree_parse_root`: where `info` is, and the entries. -/
def ext4HtreeParseRoot (root : Buf) (blockSize : ℕ) : Option (ℕ × DxIndex) :=
  let r1 := root.getField 0 De.recLen
  let r2 := root.getField r1 De.recLen
  let dotdotMin := ext4DirRecLen (root.getField r1 De.nameLen)
  let dotdotEnd := r1 + r2
  let info := r1 + dotdotMin
  let entries := info + DxRootInfo.size
  let cap := root.getField entries DxCountlimit.limit
  let nent := root.getField entries DxCountlimit.count
  if r1 = 0 ∨ r2 = 0 then none
  else if r1 + r2 > blockSize then none
  else if r2 < dotdotMin then none
  else if info + DxRootInfo.size > dotdotEnd then none
  else if entries + DxEntry.size > dotdotEnd then none
  else if cap < 1 ∨ nent < 1 ∨ nent > cap then none
  else if entries + cap * DxEntry.size > dotdotEnd then none
  else if root.getField info DxRootInfo.infoLength ≠ DxRootInfo.size then none
  else some (info, ⟨entries, cap, nent⟩)

/-- `ext4_htree_parse_node` -/
def ext4HtreeParseNode (node : Buf) (blockSize : ℕ) : Option DxIndex :=
  let cap := node.getField DxNode.countlimit DxCountlimit.limit
  let nent := node.getField DxNode.countlimit DxCountlimit.count
  if cap < 1 ∨ nent < 1 ∨ nent > cap then none
  else if DxNode.countlimit + cap * DxEntry.size > blockSize then none
  else some ⟨DxNode.countlimit, cap, nent⟩

/-- `entries[i].hash` -/
def dxHash (b : Buf) (entries i : ℕ) : ℕ := b.getField (entries + i * DxEntry.size) DxEntry.hash

/-- `entries[i].block` -/
def dxBlock (b : Buf) (entries i : ℕ) : ℕ := b.getField (entries + i * DxEntry.size) DxEntry.block

/-- The loop of `ext4_htree_pick_leaf_lblock` over the `n` entries from `i` on. -/
def pickLeafLoop (b : Buf) (entries h32 : ℕ) : ℕ → ℕ → ℕ → ℕ
  | 0, _, chosen => chosen
  | n + 1, i, chosen =>
    if h32 < dxHash b entries i then chosen else pickLeafLoop b entries h32 n (i + 1) (dxBlock b entries i)

/-- `ext4_htree_pick_leaf_lblock(entries, n, h32)` -/
def ext4HtreePickLeafLblock (b : Buf) (entries n h32 : ℕ) : ℕ :=
  if n = 0 then 0 else pickLeafLoop b entries h32 (n - 1) 1 (dxBlock b entries 0)

/-- `ext4_htree_find_dx_index_for_lblock(entries, n, lblk)` -/
def ext4HtreeFindDxIndexForLblock (b : Buf) (entries n lblk : ℕ) : Option ℕ :=
  (List.range n).find? fun i ↦ dxBlock b entries i = lblk

/-- Entry `idx + 1` becomes `(hMid, lblk)`, and the `nent - idx - 1` entries from there on move up. -/
def dxInsert (b : Buf) (entries nent idx hMid lblk : ℕ) : Buf :=
  let b := if idx + 1 < nent then
      b.blit (entries + (idx + 2) * DxEntry.size) b (entries + (idx + 1) * DxEntry.size)
        ((nent - idx - 1) * DxEntry.size)
    else b
  (b.setField (entries + (idx + 1) * DxEntry.size) DxEntry.hash hMid).setField
    (entries + (idx + 1) * DxEntry.size) DxEntry.block lblk

/-! ### Leaves -/

/-- The loop of `ext4_htree_try_insert_leaf`. Every record it goes on to is at least one byte on. -/
def tryInsertLoop (blockSize : ℕ) (name : List Byte) (ino needRec : ℕ) : ℕ → ℕ → StateErr Buf ℕ
  | 0, _ => fail
  | fuel + 1, off =>
    if off + needRec ≤ blockSize then do
      let leaf ← get
      let dRec := leaf.getField off De.recLen
      let dNl := leaf.getField off De.nameLen
      let dIno := leaf.getField off De.inode
      guard (dRec ≠ 0)
      if dIno = 0 ∨ dRec ≥ u16 (needRec + if dNl = 0 then 0 else ext4DirRecLen dNl) then
        if dIno ≠ 0 ∧ dRec > needRec then
          modify fun leaf ↦
            putEntry (leaf.setField off De.recLen needRec) (off + needRec) ino (dRec - needRec) 0 name
          pure (off + needRec)
        else
          modify fun leaf ↦ putEntry leaf off ino dRec 0 name
          pure off
      else tryInsertLoop blockSize name ino needRec fuel (off + dRec)
    else fail

/-- `ext4_htree_try_insert_leaf(leaf, block_size, name, ino, need_rec, &out_de_off)` -/
def ext4HtreeTryInsertLeaf (blockSize : ℕ) (name : List Byte) (ino needRec : ℕ) : StateErr Buf ℕ :=
  tryInsertLoop blockSize name ino needRec (blockSize + 1) 0

/-- `struct ext4_htree_leaf_item` -/
structure LeafItem where
  hash : ℕ
  ino : ℕ
  name : List Byte
  deriving DecidableEq

/-- The loop of `ext4_htree_leaf_collect`, for a hash function. -/
def leafCollectLoop (hash32 : List Byte → ℕ) (leaf : Buf) (blockSize : ℕ) :
    ℕ → ℕ → List LeafItem → Option (List LeafItem)
  | 0, _, items => some items
  | fuel + 1, off, items =>
    if off < blockSize then
      let recLen := leaf.getField off De.recLen
      let nl := leaf.getField off De.nameLen
      let ino := leaf.getField off De.inode
      if recLen = 0 then none
      else if ino ≠ 0 ∧ nl > 0 then
        if items.length ≥ ext4HtreeSplitMaxNames then none
        else
          leafCollectLoop hash32 leaf blockSize fuel (off + recLen)
            (items ++ [⟨hash32 (nameAt leaf off nl), ino, nameAt leaf off nl⟩])
      else leafCollectLoop hash32 leaf blockSize fuel (off + recLen) items
    else some items

/-- `ext4_htree_leaf_collect(dir, leaf, block_size, items, &out_n)` -/
def ext4HtreeLeafCollect (hash32 : List Byte → ℕ) (leaf : Buf) (blockSize : ℕ) : Option (List LeafItem) :=
  leafCollectLoop hash32 leaf blockSize blockSize 0 []

/-- `ext4_htree_sort_items(items, n)` -/
def ext4HtreeSortItems (items : List LeafItem) : List LeafItem := ExchangeSort.sort LeafItem.hash items

/-- The loop of `ext4_htree_pack_leaf`: the buffer and `pos` after it. -/
def packLoop : List LeafItem → ℕ → Buf → Buf × ℕ
  | [], pos, leaf => (leaf, pos)
  | item :: items, pos, leaf =>
    packLoop items (pos + ext4DirRecLen item.name.length)
      (putEntry leaf pos item.ino (ext4DirRecLen item.name.length) 0 item.name)

/-- `ext4_htree_pack_leaf(leaf, block_size, items, n)` -/
def ext4HtreePackLeaf (leaf : Buf) (blockSize : ℕ) (items : List LeafItem) : Buf :=
  let r := packLoop items 0 (leaf.clear 0 blockSize)
  if r.2 < blockSize then putEntry r.1 r.2 0 (blockSize - r.2) 0 [] else r.1

/-- The items of both halves of a leaf that is cut to make room for a name. -/
def splitItems (hash32 : List Byte → ℕ) (leaf : Buf) (blockSize : ℕ) (name : List Byte) (ino : ℕ) :
    Option (List LeafItem × List LeafItem) := do
  let items ← ext4HtreeLeafCollect hash32 leaf blockSize
  if items.length ≥ ext4HtreeSplitMaxNames then none
  else
    let items := ext4HtreeSortItems (items ++ [⟨hash32 name, u32 ino, name⟩])
    let mid := items.length / 2
    if mid < 1 ∨ mid ≥ items.length then none else some (items.take mid, items.drop mid)

namespace FsInode

/-! ### The block map of a directory -/

/-- `ext4_dir_get_blocknr(dir, lblock, &out_blocknr)` -/
def ext4DirGetBlocknr (lblock : ℕ) : StateErr FsInode ℕ := do
  let s ← get
  if s.inode.hasExtents then
    let r ← ext4ExtentsGetBlock lblock false
    guard (r.1 ≠ 0)
    pure r.1
  else if lblock < 12 then
    guard (s.inode.word lblock ≠ 0)
    pure (s.inode.word lblock)
  else
    guard (s.fs.blockSize ≠ 0 ∧ s.fs.blockSize % 4 = 0)
    guard (lblock - 12 < s.fs.blockSize / 4)
    guard (s.inode.word 12 ≠ 0)
    onFs Fs.mallocBlock
    let ents ← onFs (Fs.readBlock (s.inode.word 12))
    guard (ents.le (4 * (lblock - 12)) 4 ≠ 0)
    pure (ents.le (4 * (lblock - 12)) 4)

/-- `ext4_new_block(sb)`, where 0 is a failure. -/
def dirNewBlock : StateErr FsInode ℕ := do
  let blk ← onFs Fs.ext4NewBlock
  guard (blk ≠ 0)
  pure blk

/-- `(void)ext4_free_block(sb, blocknr)` and the error return. -/
def freeAndFail {α : Type} (blocknr : ℕ) : StateErr FsInode α := do
  let _ ← attempt (onFs (Fs.ext4FreeBlock blocknr))
  fail

/-- The single indirect block of a directory and its contents, a new one where there is none yet. -/
def indirectForWrite : StateErr FsInode (ℕ × Buf) := do
  let s ← get
  if s.inode.word 12 = 0 then
    let iblk ← dirNewBlock
    modifyInode fun inode ↦ inode.setWord 12 iblk
    match ← attempt (onFs Fs.mallocBlock) with
    | none =>
      modifyInode fun inode ↦ inode.setWord 12 0
      freeAndFail iblk
    | some _ => pure (iblk, Buf.zero)
  else
    onFs Fs.mallocBlock
    let ents ← onFs (Fs.readBlock (s.inode.word 12))
    pure (s.inode.word 12, ents)

/-- The first word from `i` on that is 0, of the `n` words that follow. -/
def firstZero (word : ℕ → ℕ) : ℕ → ℕ → Option ℕ
  | 0, _ => none
  | n + 1, i => if word i = 0 then some i else firstZero word n (i + 1)

/-- `ext4_htree_alloc_lblock(sb, ei, phys, start_lblk, &out_lblk)` -/
def ext4HtreeAllocLblock (phys startLblk : ℕ) : StateErr FsInode ℕ := do
  guard (phys ≠ 0)
  let s ← get
  match firstZero s.inode.word (12 - startLblk) startLblk with
  | some j =>
    modifyInode fun inode ↦ inode.setWord j phys
    pure j
  | none =>
    guard (s.fs.blockSize ≠ 0 ∧ s.fs.blockSize % 4 = 0)
    let perIndirect := s.fs.blockSize / 4
    let idxStart := startLblk - 12
    guard (idxStart < perIndirect)
    let r ← indirectForWrite
    match firstZero (fun idx ↦ r.2.le (4 * idx) 4) (perIndirect - idxStart) idxStart with
    | some idx =>
      onFs (Fs.writeBlock r.1 (r.2.putLe (4 * idx) 4 phys))
      pure (idx + 12)
    | none => fail

/-- `ext4_htree_unmap_lblock(sb, ei, lblk)` -/
def ext4HtreeUnmapLblock (lblk : ℕ) : StateErr FsInode Unit := do
  if lblk < 12 then modifyInode fun inode ↦ inode.setWord lblk 0
  else
    let s ← get
    guard (s.fs.blockSize ≠ 0 ∧ s.fs.blockSize % 4 = 0)
    guard (lblk - 12 < s.fs.blockSize / 4)
    guard (s.inode.word 12 ≠ 0)
    onFs Fs.mallocBlock
    let ents ← onFs (Fs.readBlock (s.inode.word 12))
    onFs (Fs.writeBlock (s.inode.word 12) (ents.putLe (4 * (lblk - 12)) 4 0))

/-! ### Routing -/

/-- The index node that the root sends a hash to: its block, its contents and its entries. -/
def readDxNode (rootBuf : Buf) (entries nent h32 : ℕ) : StateErr FsInode (ℕ × Buf × DxIndex) := do
  let s ← get
  let nextPhys ← ext4DirGetBlocknr (ext4HtreePickLeafLblock rootBuf entries nent h32)
  onFs Fs.mallocBlock
  let node ← onFs (Fs.readBlock nextPhys)
  let dx ← ofOption (ext4HtreeParseNode node s.fs.blockSize)
  pure (nextPhys, node, dx)

/-- `ext4_htree_pick_leaf_from_root(dir, block_size, root_buf, h32, &out_leaf_lblk)` -/
def ext4HtreePickLeafFromRoot (rootBuf : Buf) (h32 : ℕ) : StateErr FsInode ℕ := do
  let s ← get
  let root ← ofOption (ext4HtreeParseRoot rootBuf s.fs.blockSize)
  let levels := rootBuf.getField root.1 DxRootInfo.indirectLevels
  if levels = 0 then pure (ext4HtreePickLeafLblock rootBuf root.2.entries root.2.nent h32)
  else
    guard (levels = 1)
    let node ← readDxNode rootBuf root.2.entries root.2.nent h32
    pure (ext4HtreePickLeafLblock node.2.1 node.2.2.entries node.2.2.nent h32)

/-! ### Splitting -/

/-- The last entry of the indirect block that is not 0, and one more. -/
def lastUsed (word : ℕ → ℕ) : ℕ → ℕ
  | 0 => 0
  | n + 1 => if word n ≠ 0 then n + 1 else lastUsed word n

/-- `ext4_htree_refresh_dir_inode_size(dir, ei, block_size)` -/
def ext4HtreeRefreshDirInodeSize : StateErr FsInode Unit := do
  let s ← get
  let bs := s.fs.blockSize
  let direct := lastUsed s.inode.word 12
  let ind ← attempt (do
    guard (s.inode.word 12 ≠ 0)
    onFs Fs.mallocBlock
    onFs (Fs.readBlock (s.inode.word 12)))
  let used := match ind with
    | some ents => lastUsed (fun i ↦ ents.le (4 * i) 4) (bs / 4)
    | none => 0
  let cnt := if used = 0 then direct else 12 + used
  modifyInode fun inode ↦
    { inode with
      iSize := bs * cnt
      iBlocks := u32 (bs / 512 * cnt + if s.inode.word 12 ≠ 0 then bs / 512 else 0) }

/-- `(void)dir->i_sb->s_op->write_inode(dir, NULL)` -/
def writeInode : StateErr FsInode Unit := do
  let s ← get
  let _ ← attempt (onFs (Fs.ext4WriteInode s.inode))
  pure ()

/-- The new index node of a root that is full, with the entries of the root and one more. -/
def grownNode (rootBuf : Buf) (blockSize info : ℕ) (dx : DxIndex) (idx hMid newLblk : ℕ) : Buf :=
  let node := Buf.zero
    |>.setField 0 De.recLen blockSize
    |>.setField DxNode.info DxRootInfo.hashVersion (rootBuf.getField info DxRootInfo.hashVersion)
    |>.setField DxNode.info DxRootInfo.infoLength DxRootInfo.size
    |>.setField DxNode.countlimit DxCountlimit.limit ((blockSize - DxNode.size) / DxEntry.size)
    |>.setField DxNode.countlimit DxCountlimit.count (dx.nent + 1)
  -- entry 0 brings `limit` and `count` of the root along
  let node := node.blit DxNode.countlimit rootBuf dx.entries (dx.nent * DxEntry.size)
  dxInsert node DxNode.countlimit dx.nent idx hMid newLblk

/-- The root above the only index node. -/
def grownRoot (rootBuf : Buf) (info entries nodeLblk : ℕ) : Buf :=
  rootBuf
    |>.setField entries DxCountlimit.count 1
    |>.setField entries DxEntry.block nodeLblk
    |>.setField info DxRootInfo.indirectLevels 1

/-- A new block that is mapped at the first logical block that is not, from 1 on. -/
def newMappedBlock : StateErr FsInode (ℕ × ℕ) := do
  let phys ← dirNewBlock
  match ← attempt (ext4HtreeAllocLblock phys 1) with
  | some lblk => pure (phys, lblk)
  | none => freeAndFail phys

/-- The index takes the new leaf: `target` is the block, the contents and the entries of the root or of
the index node. -/
def ext4HtreeAddDxEntry (rootBuf : Buf) (rootPhys info : ℕ) (target : ℕ × Buf × DxIndex)
    (idx hMid newLblk : ℕ) : StateErr FsInode Unit := do
  let s ← get
  let dx := target.2.2
  if dx.nent + 1 > dx.cap then
    guard (rootBuf.getField info DxRootInfo.indirectLevels = 0)
    onFs Fs.mallocBlock
    let node ← newMappedBlock
    onFs (Fs.writeBlock node.1 (grownNode rootBuf s.fs.blockSize info dx idx hMid newLblk))
    onFs (Fs.writeBlock rootPhys (grownRoot rootBuf info dx.entries node.2))
  else
    onFs (Fs.writeBlock target.1
      ((dxInsert target.2.1 dx.entries dx.nent idx hMid newLblk).setField dx.entries
        DxCountlimit.count (dx.nent + 1)))

/-- The upper half of the leaf goes to a new block. -/
def writeUpperHalf (leafBuf : Buf) (items : List LeafItem) : StateErr FsInode ℕ := do
  let s ← get
  let new ← newMappedBlock
  match ← attempt (onFs (Fs.writeBlock new.1 (ext4HtreePackLeaf leafBuf s.fs.blockSize items))) with
  | some _ => pure new.2
  | none =>
    let _ ← attempt (ext4HtreeUnmapLblock new.2)
    freeAndFail new.1

/-- `ext4_htree_split_leaf(dir, sb, ei, block_size, root_buf, root_phys, leaf_lblk, name, ino, need_rec)` -/
def ext4HtreeSplitLeaf (rootBuf : Buf) (rootPhys leafLblk : ℕ) (name : List Byte) (ino : ℕ) :
    StateErr FsInode Unit := do
  let s ← get
  let bs := s.fs.blockSize
  let hash32 := ext4HtreeNameHash32 s.fs.sbi.sDefHashVersion
  let root ← ofOption (ext4HtreeParseRoot rootBuf bs)
  let target ←
    if rootBuf.getField root.1 DxRootInfo.indirectLevels = 1 then
      readDxNode rootBuf root.2.entries root.2.nent (hash32 name)
    else pure (rootPhys, rootBuf, root.2)
  let dx := target.2.2
  let idx ← ofOption (ext4HtreeFindDxIndexForLblock target.2.1 dx.entries dx.nent leafLblk)
  let leafPhys ← ext4DirGetBlocknr leafLblk
  onFs Fs.mallocBlock
  let leafBuf ← onFs (Fs.readBlock leafPhys)
  let halves ← ofOption (splitItems hash32 leafBuf bs name ino)
  let leafBuf := ext4HtreePackLeaf leafBuf bs halves.1
  onFs (Fs.writeBlock leafPhys leafBuf)
  let newLblk ← writeUpperHalf leafBuf halves.2
  ext4HtreeAddDxEntry rootBuf rootPhys root.1 target idx ((halves.2.head?.map LeafItem.hash).getD 0) newLblk
  ext4HtreeRefreshDirInodeSize
  writeInode

end FsInode

end MiniExt4
