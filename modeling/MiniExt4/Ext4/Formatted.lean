import MiniExt4.Ext4.MountGeometry

/-!
# Formatted volumes of 4096-byte blocks

What `ext4_mkfs` left on the device and what mounting finds there, also where the metadata of the last
group does not fit into the group. A device so large that the number of groups wraps to 0 is left
without a superblock; mounting then formats it anew.
-/

namespace MiniExt4

open StateErr

namespace Mkfs

variable {now total n : ℕ} {d d₁ d₂ : BlockDevice}

/-- `d₁` is the device `d` of `n` blocks after `ext4_mkfs(4096, total)`, with its superblock in place. -/
structure Formatted (now total n : ℕ) (d d₁ : BlockDevice) : Prop where
  spaced : Spaced 4096 total
  total_lt : total < 2 ^ 32
  total_pos : 0 < total
  groups_pos : 0 < groupsCount 4096 total
  table_pos : 0 < inodeTableBlocks 4096 total
  whole : d₁.Whole 4096 n
  writes_lt : ∀ w ∈ writes 4096 total now (writtenSuper 4096 total 2 now d), w.1 < n
  device : d₁ = putAll 4096 (writes 4096 total now (writtenSuper 4096 total 2 now d)) d

/-- With no groups the superblock is overwritten. -/
theorem not_hasMagic_of_no_groups (hG : groupsCount 4096 total = 0) {sb : Buf} :
    ¬ HasMagic ((putAll 4096 (writes 4096 total now sb) d).block 4096 0) := by
  have hblock : (putAll 4096 (writes 4096 total now sb) d).block 4096 0 =
      Buf.clip 4096 (rootDir 4096) := by
    rw [writes_of_no_groups (by norm_num) hG]
    exact BlockDevice.block_putBlock_self _ 4096 0 _
  have hzero : (Buf.clip 4096 (rootDir 4096)).getField 1024 Esb.sMagic = 0 := by
    rw [← Buf.le_zero_buf (1024 + Esb.sMagic.off) Esb.sMagic.size]
    refine Buf.le_congr fun i hi hlt ↦ ?_
    have hend : 1024 + Esb.sMagic.off + Esb.sMagic.size ≤ 4096 := by decide
    rw [Buf.clip_of_lt _ (by omega), rootDir_apply (by omega), Buf.zero_apply]
  rw [HasMagic, hblock, hzero]
  decide

theorem formatted_of_mkfs (hd : d.Usable 4096 n) (htotal : total < 2 ^ 32)
    (hmkfs : ext4Mkfs now 4096 total d = (some (), d₁)) (hmagic : HasMagic (d₁.block 4096 0)) :
    Formatted now total (d.bdNrSectors / (4096 / d.bdSectorSize)) d d₁ := by
  obtain ⟨log, hlog, hbpg, htable⟩ := checks_of_ext4Mkfs hmkfs
  obtain rfl := log_eq_two hlog
  have hwhole := hd.whole
  have hlt := writes_lt_of_ext4Mkfs hwhole hlog hmkfs
  obtain rfl : d₁ = putAll 4096 (writes 4096 total now (writtenSuper 4096 total 2 now d)) d :=
    congrArg Prod.snd (hmkfs.symm.trans
      (ext4Mkfs_of_writes_lt hwhole.toUsable hlog hbpg htable hlt))
  have hg : 0 < groupsCount 4096 total := by
    by_contra hG
    exact not_hasMagic_of_no_groups (by omega) hmagic
  have hpos : 0 < total := by
    by_contra hz
    obtain rfl : total = 0 := by omega
    exact hbpg (by decide)
  exact ⟨spaced_of_checks (by norm_num) (by norm_num) (by norm_num) ⟨12, rfl⟩ htotal hpos htable
      (no_wrap_of_groupsCount_pos htotal hg),
    htotal, hpos, hg, inodeTableBlocks_pos (by norm_num) (by norm_num) (Nat.pos_of_ne_zero hbpg),
    Whole.putAll _ hwhole, hlt, rfl⟩

/-! ### The blocks on the device -/

/-- A block of metadata that is written is on the device. -/
theorem Formatted.pos_lt (h : Formatted now total n d d₁) {b : ℕ} {buf : Buf}
    (hmem : (b, buf) ∈ writes 4096 total now (writtenSuper 4096 total 2 now d)) : b < n :=
  h.writes_lt _ hmem

theorem Formatted.block_groupDesc (h : Formatted now total n d d₁) {i : ℕ}
    (hi : i < gdBlocks 4096 total) : Role.pos 4096 total (.groupDesc 0 i) < n ∧
      d₁.block 4096 (Role.pos 4096 total (.groupDesc 0 i)) =
        Buf.clip 4096 (gdTableBlock 4096 total i) := by
  have hmem : (Role.pos 4096 total (.groupDesc 0 i), gdTableBlock 4096 total i) ∈
      writes 4096 total now (writtenSuper 4096 total 2 now d) := by
    simpa [Role.pos] using mem_writes_groupDesc hi
  refine ⟨h.pos_lt hmem, ?_⟩
  rw [h.device]
  exact h.spaced.block_written h.groups_pos h.table_pos (r := .groupDesc 0 i) ⟨h.groups_pos, hi⟩ hmem

theorem Formatted.block_blockBitmap (h : Formatted now total n d d₁) {g : ℕ}
    (hg : g < groupsCount 4096 total) :
    d₁.block 4096 (blockBitmapAbs 4096 total g) = Buf.clip 4096 (blockBitmap 4096 total g) := by
  rw [h.device]
  exact h.spaced.block_written h.groups_pos h.table_pos (r := .blockBitmap g) hg
    (mem_writes_blockBitmap 4096 total hg)

theorem Formatted.block_inodeBitmap (h : Formatted now total n d d₁) {g : ℕ}
    (hg : g < groupsCount 4096 total) : inodeBitmapAbs 4096 total g < n ∧
      d₁.block 4096 (inodeBitmapAbs 4096 total g) = Buf.clip 4096 (inodeBitmap 4096 total g) := by
  have hmem : (inodeBitmapAbs 4096 total g, inodeBitmap 4096 total g) ∈
      writes 4096 total now (writtenSuper 4096 total 2 now d) := mem_writes_inodeBitmap 4096 total hg
  refine ⟨h.pos_lt hmem, ?_⟩
  rw [h.device]
  exact h.spaced.block_written h.groups_pos h.table_pos (r := .inodeBitmap g) hg hmem

/-- The superblock reads back as it was written. -/
theorem Formatted.superFields (h : Formatted now total n d d₁) {f : Buf.Field} {v : ℕ}
    (hf : (f, v) ∈ superFields 4096 total 2) :
    (d₁.block 4096 0).getField 1024 f = v % 256 ^ f.size := by
  have hblock : d₁.block 4096 0 = Buf.clip 4096 (writtenSuper 4096 total 2 now d) := by
    rw [h.device]
    exact h.spaced.block_written h.groups_pos h.table_pos (r := .superBlock 0) (.inl rfl)
      (sbBlocknr_mem_writes 4096 total now _)
  rw [hblock, Buf.getField, Buf.le_clip]
  · exact getField_superBlock hf
  · simp only [Mkfs.superFields, List.mem_cons, Prod.mk.injEq, List.not_mem_nil, or_false] at hf
    rcases hf with ⟨rfl, -⟩ | ⟨rfl, -⟩ | ⟨rfl, -⟩ | ⟨rfl, -⟩ | ⟨rfl, -⟩ | ⟨rfl, -⟩ | ⟨rfl, -⟩ |
      ⟨rfl, -⟩ <;> decide

theorem Formatted.one_lt (h : Formatted now total n d d₁) : 1 < n := by
  have hgd : 0 < gdBlocks 4096 total := gdBlocks_pos (by norm_num) (by norm_num) h.total_lt h.groups_pos
  exact (h.block_groupDesc hgd).1

/-- Mounting finds the volume as it was formatted. -/
theorem Formatted.mount (h : Formatted now total n d d₁) {now' : ℕ} {sbi : SbInfo}
    (hmount : ext4FillSuper now' d₁ = (some sbi, d₂)) :
    GeomOf 4096 total sbi.toSbGeom ∧ d₂ = d₁ ∧ sbi.sGroupDesc.isSome ∧ sbi.sBmapCacheValid = false :=
  geomOf_of_fillSuper (fun _ _ hf ↦ h.superFields hf) h.total_lt h.total_pos h.whole.toUsable h.one_lt
    h.groups_pos (h.whole.toUsable.read (by have := h.one_lt; omega)) hmount

/-- The groups have fewer than `2 ^ 32` blocks in all, if the last is counted as a full one. -/
theorem Formatted.bits_lt (h : Formatted now total n d d₁) :
    groupsCount 4096 total * blocksPerGroup 4096 total < 2 ^ 32 := by
  refine lt_of_le_of_lt ?_ h.spaced.no_wrap
  rw [groupsCount, u32_of_lt h.spaced.no_wrap]
  exact Nat.div_mul_le_self _ _

/-- The superblock counts the inodes of all groups. -/
theorem Formatted.sInodesCount (h : Formatted now total n d d₁) {now' : ℕ} {sbi : SbInfo}
    (hmount : ext4FillSuper now' d₁ = (some sbi, d₂)) :
    sbi.sInodesCount = groupsCount 4096 total * inodesPerGroup 4096 total := by
  obtain ⟨buf, d', count, hreads⟩ := exists_of_fillSuper hmount
  have hread : FillSuper.readSuper now' d₁ = (some (d₁.block 4096 0), d₁) :=
    readSuper_eq (fun _ _ hf ↦ h.superFields hf)
      (h.whole.toUsable.read (by have := h.one_lt; omega))
  have hbuf : d₁.block 4096 0 = buf :=
    Option.some.inj (Prod.mk.inj (hread.symm.trans hreads.readSuper)).1
  have hlt := h.bits_lt
  have hfield := h.superFields (f := Esb.sInodesCount)
    (v := u32 (groupsCount 4096 total * blocksPerGroup 4096 total)) (by simp [Mkfs.superFields, inodesPerGroup])
  rw [show sbi.sInodesCount = buf.getField 1024 Esb.sInodesCount from
    congrArg SbGeom.sInodesCount hreads.geom, ← hbuf, hfield, u32_of_lt hlt]
  exact Nat.mod_eq_of_lt hlt

/-- The filesystem right after mounting a formatted volume. -/
structure Fresh (total n : ℕ) (d₁ : BlockDevice) (fs : Fs) : Prop where
  geom : GeomOf 4096 total fs.sbi.toSbGeom
  dev : fs.dev = d₁
  whole : fs.dev.Whole fs.blockSize n
  blockSize : fs.blockSize = 4096
  groupDesc : fs.sbi.sGroupDesc.isSome
  table : ∀ g < groupsCount 4096 total, ∀ f : Buf.Field, f.off + f.size ≤ 32 →
    (fs.desc g).getField 0 f =
      (gdTable 4096 total (groupsCount 4096 total)).getField (g * gdEntrySize) f

/-- The descriptors have the block numbers of the layout. -/
theorem Fresh.desc {fs : Fs} (h : Fresh total n d₁ fs) (g : ℕ) (hg : g < groupsCount 4096 total)
    (f : Buf.Field) (v : ℕ) (hf : (f, v) ∈ descFields 4096 total g) : (fs.desc g).getField 0 f = v := by
  rw [h.table g hg f (size_le_of_mem_descFields hf), getField_gdTable hg hf]

theorem Formatted.fresh (h : Formatted now total n d d₁) {now' : ℕ} {sbi : SbInfo}
    (hmount : ext4FillSuper now' d₁ = (some sbi, d₂)) (bgSyncBatch preallocGoalLen : ℕ) :
    Fresh total n d₁ (Fs.ofMount d₂ sbi bgSyncBatch preallocGoalLen) := by
  obtain ⟨hgeom, rfl, hdesc0, -⟩ := h.mount hmount
  have hsize : (Fs.ofMount d₂ sbi bgSyncBatch preallocGoalLen).blockSize = 4096 := hgeom.sBlockSize
  refine ⟨hgeom, rfl, hsize ▸ h.whole, hsize, hdesc0, fun g hg f hf ↦ ?_⟩
  refine hgeom.getField_desc_table h.spaced.ne_1024 (by norm_num) (by norm_num) h.total_lt h.groups_pos
    hg hsize rfl (fun i hi ↦ ?_) hf (by omega)
  rw [Fs.block, hsize]
  exact (h.block_groupDesc hi).2

/-! ### The layout on the device -/

/-- The allocator's metadata is where the functions of `fs/ext4` look for it. -/
theorem Formatted.laid (h : Formatted now total n d d₁) {geom : SbGeom}
    (hgeom : GeomOf 4096 total geom) : (volume 4096 total geom).Laid n := by
  have hgroups := hgeom.groups
  have hbs : (volume 4096 total geom).bs = 4096 := hgeom.sBlockSize
  have hblocks : (volume 4096 total geom).blocks = total := hgeom.sBlocksCount
  have hds : (volume 4096 total geom).geom.sDescSize = 32 := hgeom.sDescSize
  have hle : groupsCount 4096 total ≤ 2 ^ 19 := groupsCount_le (by norm_num) h.total_lt
  have hplaced := hgeom.placed (by norm_num) (by norm_num) h.total_lt h.groups_pos h.spaced (n := n) (by
    rintro b (rfl | ⟨g, hg, rfl | rfl⟩)
    · rw [hgeom.superBlock_eq]
      exact lt_trans (show sbBlocknr 4096 < 1 by decide) h.one_lt
    · obtain ⟨i, hi, hdesc⟩ := hgeom.descBlock_eq h.spaced.ne_1024 (by norm_num) (by norm_num)
        h.total_lt h.groups_pos (hgroups ▸ hg)
      rw [hdesc]
      exact (h.block_groupDesc hi).1
    · exact h.pos_lt (mem_writes_blockBitmap 4096 total (show g < groupsCount 4096 total from hgroups ▸ hg)))
  refine ⟨hplaced, ?_, ?_, ?_, ?_, ?_, fun _ ↦ ?_, ?_, ?_, ?_⟩
  · omega
  · omega
  · have := h.total_pos
    omega
  · have := h.total_lt
    omega
  · have := h.groups_pos
    omega
  · have hbits := h.bits_lt
    have hmin : min (4096 * 8) total = blocksPerGroup 4096 total := by
      unfold blocksPerGroup
      split <;> omega
    rwa [hgroups, hbs, hblocks, hmin]
  · rw [hgeom.copySz_eq]
  · rw [hgeom.copySz_eq, hds]
  · rw [hds]
    omega

/-- Right after mounting, the device carries the volume. -/
theorem Formatted.carried (h : Formatted now total n d d₁) {now' : ℕ} {sbi : SbInfo}
    (hmount : ext4FillSuper now' d₁ = (some sbi, d₂)) (bgSyncBatch preallocGoalLen : ℕ) :
    (volume 4096 total sbi.toSbGeom).Carried n (Fs.ofMount d₂ sbi bgSyncBatch preallocGoalLen) := by
  have hfresh := h.fresh hmount bgSyncBatch preallocGoalLen
  exact ⟨⟨h.laid hfresh.geom, rfl, rfl, rfl, hfresh.groupDesc, fun g hg ↦
    hfresh.desc g (hfresh.geom.groups ▸ hg.1) _ _ (by simp [descFields, volume])⟩, hfresh.whole.toUsable⟩

end Mkfs

end MiniExt4
