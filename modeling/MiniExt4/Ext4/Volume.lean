import MiniExt4.Ext4.Balloc

/-!
# Volumes

What a mounted volume is, apart from the code: `Volume` says where its metadata is and how its blocks
form groups, and `Volume.Mounted V U fs` that the device of `fs` holds such a volume whose block
bitmaps mark exactly the blocks of `U`.

The functions above the allocator are proved from this view: they never look into a bitmap, only at
the set of used blocks.

The conditions come in steps, and each module takes the weakest it can. `Volume.Placed` and `Volume.Laid`
are about numbers only; `Volume.Image` says that the device holds such a layout, whether it works or not;
`Volume.Carried` that it works too; `Volume.Coherent` that the cached bitmap is right besides. Only
`Volume.Mounted` gives the bits of the bitmaps a meaning. What holds of an allocation on any accepted
geometry is proved from the first, and what a caller may believe about block numbers from the last.

A block that no descriptor and no bitmap lies in may be stored to without any of this changing
(`AllocFrame.put`).
-/

namespace MiniExt4

open StateErr

/-! ### One filesystem block at a time -/

namespace Fs

/-- The filesystem after block `b` was stored. -/
def put (fs : Fs) (b : ℕ) (buf : Buf) : Fs := { fs with dev := fs.dev.putBlock fs.blockSize b buf }

variable {fs : Fs} {n b : ℕ}

/-- The block that was written. -/
@[simp] theorem block_put_self (fs : Fs) (b : ℕ) (buf : Buf) :
    (fs.put b buf).block b = Buf.clip fs.blockSize buf := fs.dev.block_putBlock_self _ _ _

/-- Another block. -/
theorem block_put_of_ne (fs : Fs) {b c : ℕ} (buf : Buf) (h : c ≠ b) :
    (fs.put b buf).block c = fs.block c := fs.dev.block_putBlock_of_ne _ _ h

/-- A block has nothing behind its end. -/
@[simp] theorem clip_block (fs : Fs) (b : ℕ) : Buf.clip fs.blockSize (fs.block b) = fs.block b :=
  fs.dev.clip_block _ _

/-- A write of a block leaves what is in memory. -/
@[simp] theorem put_sbi (b : ℕ) (buf : Buf) : (fs.put b buf).sbi = fs.sbi := rfl

/-- A write of a block leaves the block size. -/
@[simp] theorem put_blockSize (b : ℕ) (buf : Buf) : (fs.put b buf).blockSize = fs.blockSize := rfl

/-- The device of the filesystem works and holds `n` blocks. -/
def Usable (fs : Fs) (n : ℕ) : Prop := fs.dev.Usable fs.blockSize n

/-- A device that works goes on working after a write. -/
theorem Usable.put (h : fs.Usable n) (b : ℕ) (buf : Buf) : (fs.put b buf).Usable n :=
  BlockDevice.Usable.putBlock h b buf

/-- Reading a block of a device that works. -/
theorem Usable.readBlock (h : fs.Usable n) (hb : b < n) :
    Fs.readBlock b fs = (some (fs.block b), fs) := by
  have hread := BlockDevice.Usable.read h hb
  simp only [Fs.readBlock, io, zoom_apply, hread]
  rfl

/-- Writing a block of a device that works. -/
theorem Usable.writeBlock (h : fs.Usable n) (hb : b < n) (buf : Buf) :
    Fs.writeBlock b buf fs = (some (), fs.put b buf) := by
  have hwrite := BlockDevice.Usable.write h hb buf
  simp only [Fs.writeBlock, io, zoom_apply, hwrite]
  rfl

/-- The filesystem with other failures of its device ahead. -/
def withFaults (fs : Fs) (l : List Fault) : Fs := { fs with dev := fs.dev.withFaults l }

/-- Block `b` is on the device. -/
def HasBlock (fs : Fs) (b : ℕ) : Prop := fs.dev.HasBlock fs.blockSize b

instance (fs : Fs) (b : ℕ) : Decidable (fs.HasBlock b) := inferInstanceAs (Decidable (_ ≤ _))

/-- The blocks of the device are whole sectors. -/
def Sectored (fs : Fs) : Prop := fs.dev.Sectored fs.blockSize

/-- On a device that works a read fails exactly where there is no such block. -/
theorem Usable.readBlock_eq (h : fs.Usable n) (b : ℕ) :
    Fs.readBlock b fs = (if fs.HasBlock b then some (fs.block b) else none, fs) := by
  have hread := BlockDevice.Usable.read_eq h b
  simp only [Fs.readBlock, io, zoom_apply, hread]
  rfl

/-- A read that succeeds is of a block of the device, and uses up faults only. -/
theorem Sectored.of_readBlock_some (h : fs.Sectored) {buf : Buf} {fs' : Fs}
    (hrun : Fs.readBlock b fs = (some buf, fs')) :
    fs.HasBlock b ∧ buf = fs.block b ∧ ∃ l, fs' = fs.withFaults l := by
  simp only [Fs.readBlock, io, zoom_apply] at hrun
  rcases hread : ext4ReadBlock fs.blockSize b fs.dev with ⟨r, d⟩
  rw [hread] at hrun
  obtain ⟨rfl, rfl⟩ := Prod.mk.inj hrun
  obtain ⟨hin, rfl, l, rfl⟩ := BlockDevice.Sectored.of_read_some h hread
  exact ⟨hin, rfl, l, rfl⟩

/-- A write that succeeds stores its buffer in a block of the device. -/
theorem Sectored.of_writeBlock_some (h : fs.Sectored) {buf : Buf} {fs' : Fs}
    (hrun : Fs.writeBlock b buf fs = (some (), fs')) :
    fs.HasBlock b ∧ ∃ l, fs' = (fs.put b buf).withFaults l := by
  simp only [Fs.writeBlock, io, zoom_apply] at hrun
  rcases hwrite : ext4WriteBlock fs.blockSize b buf fs.dev with ⟨r, d⟩
  rw [hwrite] at hrun
  obtain ⟨rfl, rfl⟩ := Prod.mk.inj hrun
  obtain ⟨hin, l, rfl⟩ := BlockDevice.Sectored.of_write_some h hwrite
  exact ⟨hin, l, rfl⟩

/-- The pool has room for a block that fits its slots. -/
theorem mallocBlock_eq (h : fs.blockSize ≤ blockSizeDefault) : mallocBlock fs = (some (), fs) := by
  unfold mallocBlock
  rw [get_bind, guard_true h, pure_apply]

/-- The descriptor of group `g` as it is on the device. -/
def desc (fs : Fs) (g : ℕ) : Buf :=
  Buf.zero.blit 0 (fs.block (fs.sbi.descLoc fs.blockSize g).1) (fs.sbi.descLoc fs.blockSize g).2
    fs.sbi.copySz

end Fs

/-! ### The layout of a volume -/

/-- Where a volume has its metadata. -/
structure Volume where
  geom : SbGeom
  /-- the block bitmap of a group -/
  blockBitmap : ℕ → ℕ
  /-- the inode bitmap of a group -/
  inodeBitmap : ℕ → ℕ
  /-- the first block of a group's inode table -/
  inodeTable : ℕ → ℕ

namespace Volume

variable (V : Volume)

/-- The size of a block. -/
abbrev bs : ℕ := V.geom.sBlockSize

/-- The number of blocks. -/
abbrev blocks : ℕ := V.geom.sBlocksCount

/-- The number of groups. -/
abbrev groups : ℕ := V.geom.sGroupsCount

/-- The blocks of a group, but for a shorter last group. -/
abbrev perGroup : ℕ := V.geom.sBlocksPerGroup

/-- The block of the superblock. -/
def superBlock : ℕ := if V.bs = 1024 then 1 else 0

/-- The block of the descriptor of a group. -/
def descBlock (g : ℕ) : ℕ := (V.geom.descLoc V.bs g).1

/-- The offset of the descriptor of a group in its block. -/
def descOff (g : ℕ) : ℕ := (V.geom.descLoc V.bs g).2

/-- The number of blocks of group `g`. -/
def groupBlocks (g : ℕ) : ℕ := min V.perGroup (V.blocks - g * V.perGroup)

/-- The blocks of the inode table of a group. -/
def tableBlocks : ℕ := (V.geom.sInodesPerGroup * RawInode.size + V.bs - 1) / V.bs

/-- The block lies in the inode table of group `g`. -/
def InTable (g b : ℕ) : Prop := V.inodeTable g ≤ b ∧ b < V.inodeTable g + V.tableBlocks

/-- What the block allocator writes to. -/
def AllocMeta (b : ℕ) : Prop :=
  b = V.superBlock ∨ ∃ g < V.groups, b = V.descBlock g ∨ b = V.blockBitmap g

/-- The metadata of the volume. -/
def IsMeta (b : ℕ) : Prop :=
  V.AllocMeta b ∨ ∃ g < V.groups, b = V.inodeBitmap g ∨ V.InTable g b

/-- The layout is one the functions of `fs/ext4` can work with: the metadata is inside the volume
and its parts do not overlap. -/
structure WellFormed : Prop where
  bs_pos : 0 < V.bs
  bs_le : V.bs ≤ 65536
  perGroup_eq : V.perGroup = min (V.bs * 8) V.blocks
  groups_eq : V.groups = (V.blocks + V.perGroup - 1) / V.perGroup
  blocks_pos : 0 < V.blocks
  no_wrap : V.blocks + V.perGroup - 1 < 2 ^ 32
  meta_lt : ∀ b, V.IsMeta b → b < V.blocks
  descOff_le : ∀ g < V.groups, V.descOff g + V.geom.copySz ≤ V.bs
  copySz_ge : 32 ≤ V.geom.copySz
  copySz_le : V.geom.copySz ≤ V.geom.sDescSize
  descSize_no_wrap : V.groups * V.geom.sDescSize < 2 ^ 32
  superBlock_ne_desc : ∀ g < V.groups, V.superBlock ≠ V.descBlock g
  blockBitmap_ne_super : ∀ g < V.groups, V.blockBitmap g ≠ V.superBlock
  blockBitmap_ne_desc : ∀ g < V.groups, ∀ g' < V.groups, V.blockBitmap g ≠ V.descBlock g'
  blockBitmap_inj : ∀ g < V.groups, ∀ g' < V.groups, V.blockBitmap g = V.blockBitmap g' → g = g'
  blockBitmap_pos : ∀ g < V.groups, V.blockBitmap g ≠ 0
  inodeBitmap_not_alloc : ∀ g < V.groups, ¬ V.AllocMeta (V.inodeBitmap g)
  inodeBitmap_inj : ∀ g < V.groups, ∀ g' < V.groups, V.inodeBitmap g = V.inodeBitmap g' → g = g'
  inTable_not_alloc : ∀ g < V.groups, ∀ b, V.InTable g b → ¬ V.AllocMeta b
  inTable_ne_inodeBitmap : ∀ g < V.groups, ∀ g' < V.groups, ¬ V.InTable g (V.inodeBitmap g')
  inTable_inj : ∀ g < V.groups, ∀ g' < V.groups, ∀ b, V.InTable g b → V.InTable g' b → g = g'

/-- The group has a descriptor that lies inside one block. The code gives up on any other. -/
def Group (g : ℕ) : Prop := g < V.groups ∧ V.descOff g + V.geom.copySz ≤ V.bs

/-- The allocator's metadata is on a device of `n` blocks, and its parts do not overlap. Nothing is
said of which blocks the bits of a bitmap stand for. -/
structure Placed (n : ℕ) : Prop where
  alloc_lt : ∀ b, V.AllocMeta b → b < n
  superBlock_ne_desc : ∀ g, V.Group g → V.superBlock ≠ V.descBlock g
  blockBitmap_ne_super : ∀ g, V.Group g → V.blockBitmap g ≠ V.superBlock
  blockBitmap_ne_desc : ∀ g, V.Group g → ∀ g', V.Group g' → V.blockBitmap g ≠ V.descBlock g'
  blockBitmap_inj : ∀ g, V.Group g → ∀ g', V.Group g' → V.blockBitmap g = V.blockBitmap g' → g = g'
  blockBitmap_pos : ∀ g, V.Group g → V.blockBitmap g ≠ 0

/-- The numbers of the superblock are ones mounting accepts, and the allocator's metadata is in its
place. -/
structure Laid (n : ℕ) : Prop extends V.Placed n where
  bs_pos : 0 < V.bs
  bs_le : V.bs ≤ 65536
  blocks_pos : 0 < V.blocks
  blocks_lt : V.blocks < 2 ^ 32
  groups_pos : 0 < V.groups
  bits_no_wrap : V.bs ≤ blockSizeDefault → V.groups * min (V.bs * 8) V.blocks < 2 ^ 32
  copySz_ge : 32 ≤ V.geom.copySz
  copySz_le : V.geom.copySz ≤ V.geom.sDescSize
  descSize_no_wrap : V.groups * V.geom.sDescSize < 2 ^ 32

/-! ### A mounted volume -/

/-- The device of `fs` holds the layout, whether it works or not. -/
structure Image (n : ℕ) (fs : Fs) : Prop where
  laid : V.Laid n
  blockSize : fs.blockSize = V.bs
  geom : fs.sbi.toSbGeom = V.geom
  blocksCount : fs.fsBlocksCount = V.blocks
  groupDesc : fs.sbi.sGroupDesc.isSome
  desc_blockBitmap : ∀ g, V.Group g → (fs.desc g).getField 0 Gd.bgBlockBitmapLo = V.blockBitmap g

/-- The device of `fs` works and holds the layout. -/
structure Carried (n : ℕ) (fs : Fs) : Prop extends V.Image n fs where
  usable : fs.Usable n

/-- Between two operations the cached bitmap, if there is one, is what the device has. -/
structure Coherent (n : ℕ) (fs : Fs) : Prop extends V.Carried n fs where
  cache : fs.sbi.sBmapCacheValid = true →
    V.Group fs.sbi.sBmapCacheGroup ∧ fs.sbi.sBmapCacheDirty = false ∧
      Buf.clip V.bs fs.sbi.sBmapCacheBuf = fs.block (V.blockBitmap fs.sbi.sBmapCacheGroup)

/-- The device of `fs` holds the volume `V`, and its block bitmaps mark the blocks of `U`. -/
structure OnDisk (U : Set ℕ) (fs : Fs) : Prop where
  wf : V.WellFormed
  usable : fs.Usable V.blocks
  blockSize : fs.blockSize = V.bs
  geom : fs.sbi.toSbGeom = V.geom
  blocksCount : fs.fsBlocksCount = V.blocks
  groupDesc : fs.sbi.sGroupDesc.isSome
  desc_blockBitmap : ∀ g < V.groups, (fs.desc g).getField 0 Gd.bgBlockBitmapLo = V.blockBitmap g
  desc_inodeBitmap : ∀ g < V.groups, (fs.desc g).getField 0 Gd.bgInodeBitmapLo = V.inodeBitmap g
  desc_inodeTable : ∀ g < V.groups, (fs.desc g).getField 0 Gd.bgInodeTableLo = V.inodeTable g
  bit_iff : ∀ g < V.groups, ∀ i < V.groupBlocks g,
    (fs.block (V.blockBitmap g)).bit i = true ↔ g * V.perGroup + i ∈ U
  meta_used : ∀ b, V.IsMeta b → b ∈ U

/-- `fs` is the volume `V` mounted, with the blocks of `U` marked used, between two operations: the
cached bitmap, if there is one, is what the device has. -/
structure Mounted (U : Set ℕ) (fs : Fs) : Prop extends V.OnDisk U fs where
  cache : fs.sbi.sBmapCacheValid = true →
    fs.sbi.sBmapCacheGroup < V.groups ∧ fs.sbi.sBmapCacheDirty = false ∧
      Buf.clip V.bs fs.sbi.sBmapCacheBuf = fs.block (V.blockBitmap fs.sbi.sBmapCacheGroup)

/-- What the block allocator leaves alone. -/
structure AllocFrame (fs fs' : Fs) : Prop where
  block : ∀ b, ¬ V.AllocMeta b → fs'.block b = fs.block b
  preallocGoalLen : fs'.preallocGoalLen = fs.preallocGoalLen
  bgSyncBatch : fs'.bgSyncBatch = fs.bgSyncBatch
  superPool : fs'.superPool = fs.superPool
  extPool : fs'.extPool = fs.extPool

variable {V} {U : Set ℕ} {fs fs' fs'' : Fs}

/-- Nothing changed. -/
theorem AllocFrame.refl (fs : Fs) : V.AllocFrame fs fs := ⟨fun _ _ ↦ rfl, rfl, rfl, rfl, rfl⟩

/-- Two calls of the allocator, one after the other. -/
theorem AllocFrame.trans (h : V.AllocFrame fs fs') (h' : V.AllocFrame fs' fs'') :
    V.AllocFrame fs fs'' :=
  ⟨fun b hb ↦ (h'.block b hb).trans (h.block b hb), h'.preallocGoalLen.trans h.preallocGoalLen,
    h'.bgSyncBatch.trans h.bgSyncBatch, h'.superPool.trans h.superPool, h'.extPool.trans h.extPool⟩

/-- A block of the allocator was written. -/
theorem AllocFrame.put {b : ℕ} (hb : V.AllocMeta b) (buf : Buf) : V.AllocFrame fs (fs.put b buf) :=
  ⟨fun _ hc ↦ fs.block_put_of_ne buf fun heq ↦ hc (heq ▸ hb), rfl, rfl, rfl, rfl⟩

/-! ### Descriptors -/

/-- A group has blocks. -/
theorem WellFormed.perGroup_pos (h : V.WellFormed) : 0 < V.perGroup := by
  have := h.bs_pos
  have := h.blocks_pos
  rw [h.perGroup_eq]
  omega

/-- A volume has groups. -/
theorem WellFormed.groups_pos (h : V.WellFormed) : 0 < V.groups := by
  have hpos := h.perGroup_pos
  have := h.blocks_pos
  rw [h.groups_eq]
  exact Nat.div_pos (by omega) hpos

/-- The descriptor of every group is inside a block. -/
theorem WellFormed.group (h : V.WellFormed) {g : ℕ} (hg : g < V.groups) : V.Group g :=
  ⟨hg, h.descOff_le g hg⟩

/-- A well-formed volume's metadata is laid out on a device of its size. -/
theorem WellFormed.laid (h : V.WellFormed) : V.Laid V.blocks where
  alloc_lt b hb := h.meta_lt b (.inl hb)
  superBlock_ne_desc g hg := h.superBlock_ne_desc g hg.1
  blockBitmap_ne_super g hg := h.blockBitmap_ne_super g hg.1
  blockBitmap_ne_desc g hg g' hg' := h.blockBitmap_ne_desc g hg.1 g' hg'.1
  blockBitmap_inj g hg g' hg' := h.blockBitmap_inj g hg.1 g' hg'.1
  blockBitmap_pos g hg := h.blockBitmap_pos g hg.1
  bs_pos := h.bs_pos
  bs_le := h.bs_le
  blocks_pos := h.blocks_pos
  blocks_lt := by
    have := h.no_wrap
    have := h.perGroup_pos
    omega
  groups_pos := h.groups_pos
  bits_no_wrap _ := by
    have hmul : V.groups * V.perGroup ≤ V.blocks + V.perGroup - 1 := by
      rw [h.groups_eq]
      exact Nat.div_mul_le_self _ _
    have := h.no_wrap
    rw [h.perGroup_eq] at *
    omega
  copySz_ge := h.copySz_ge
  copySz_le := h.copySz_le
  descSize_no_wrap := h.descSize_no_wrap

/-- What a volume has on disk, without what its blocks are used for. -/
theorem OnDisk.carried (h : V.OnDisk U fs) : V.Carried V.blocks fs :=
  ⟨⟨h.wf.laid, h.blockSize, h.geom, h.blocksCount, h.groupDesc,
    fun g hg ↦ h.desc_blockBitmap g hg.1⟩, h.usable⟩

/-- A volume that is mounted, without what its blocks are used for. -/
theorem Mounted.coherent (h : V.Mounted U fs) : V.Coherent V.blocks fs :=
  ⟨h.toOnDisk.carried, fun hv ↦ ⟨h.wf.group (h.cache hv).1, (h.cache hv).2⟩⟩

variable {n : ℕ}

/-- The blocks of descriptors are on the device. -/
theorem Placed.descBlock_lt (h : V.Placed n) {g : ℕ} (hg : g < V.groups) : V.descBlock g < n :=
  h.alloc_lt _ (.inr ⟨g, hg, .inl rfl⟩)

/-- So are the bitmaps. -/
theorem Placed.blockBitmap_lt (h : V.Placed n) {g : ℕ} (hg : g < V.groups) : V.blockBitmap g < n :=
  h.alloc_lt _ (.inr ⟨g, hg, .inr rfl⟩)

/-- So is the superblock. -/
theorem Placed.superBlock_lt (h : V.Placed n) : V.superBlock < n := h.alloc_lt _ (.inl rfl)

/-- The descriptors of two groups that are in one block do not overlap. -/
theorem Laid.descOff_apart (h : V.Laid n) {g g' : ℕ} (hg : g < V.groups)
    (hg' : g' < V.groups) (hne : g ≠ g') (hblk : V.descBlock g = V.descBlock g') :
    V.descOff g + V.geom.copySz ≤ V.descOff g' ∨ V.descOff g' + V.geom.copySz ≤ V.descOff g := by
  have hsize := h.descSize_no_wrap
  have hcopy := h.copySz_le
  have hlt : ∀ k < V.groups, k * V.geom.sDescSize + V.geom.sDescSize < 2 ^ 32 := by
    intro k hk
    calc k * V.geom.sDescSize + V.geom.sDescSize = (k + 1) * V.geom.sDescSize := by ring
      _ ≤ V.groups * V.geom.sDescSize := Nat.mul_le_mul_right _ hk
      _ < 2 ^ 32 := hsize
  have hstep : ∀ k l, k < l → k * V.geom.sDescSize + V.geom.sDescSize ≤ l * V.geom.sDescSize := by
    intro k l hkl
    calc k * V.geom.sDescSize + V.geom.sDescSize = (k + 1) * V.geom.sDescSize := by ring
      _ ≤ l * V.geom.sDescSize := Nat.mul_le_mul_right _ hkl
  have hu : ∀ k < V.groups, u32 (k * V.geom.sDescSize) = k * V.geom.sDescSize := by
    intro k hk
    have := hlt k hk
    exact u32_of_lt (by omega)
  have hdm := Nat.div_add_mod (g * V.geom.sDescSize) V.bs
  have hdm' := Nat.div_add_mod (g' * V.geom.sDescSize) V.bs
  have hle := Nat.div_le_self (g * V.geom.sDescSize) V.bs
  have hle' := Nat.div_le_self (g' * V.geom.sDescSize) V.bs
  have hlt₁ := hlt g hg
  have hlt₂ := hlt g' hg'
  simp only [descBlock, descOff, SbGeom.descLoc, hu g hg, hu g' hg'] at hblk ⊢
  -- equal blocks are equal quotients, so the remainders are as far apart as the descriptors
  have hquot : g * V.geom.sDescSize / V.bs = g' * V.geom.sDescSize / V.bs :=
    u32_add_left_cancel (by omega) (by omega) hblk
  rw [hquot] at hdm
  rcases Nat.lt_or_gt_of_ne hne with hlt | hlt
  · have := hstep _ _ hlt
    omega
  · have := hstep _ _ hlt
    omega

/-- The code finds a descriptor where the layout has it. -/
theorem Image.descLoc_eq (h : V.Image n fs) (g : ℕ) :
    fs.sbi.descLoc fs.blockSize g = (V.descBlock g, V.descOff g) := by
  rw [h.blockSize, show fs.sbi.descLoc V.bs g = fs.sbi.toSbGeom.descLoc V.bs g from rfl, h.geom]
  rfl

/-- The code copies as much of a descriptor as the layout says. -/
theorem Image.copySz_eq (h : V.Image n fs) : fs.sbi.copySz = V.geom.copySz := by
  rw [show fs.sbi.copySz = fs.sbi.toSbGeom.copySz from rfl, h.geom]

/-- A descriptor in terms of the layout. -/
theorem Image.desc_eq (h : V.Image n fs) (g : ℕ) :
    fs.desc g = Buf.zero.blit 0 (fs.block (V.descBlock g)) (V.descOff g) V.geom.copySz := by
  rw [Fs.desc, h.descLoc_eq, h.copySz_eq]

end Volume

end MiniExt4
