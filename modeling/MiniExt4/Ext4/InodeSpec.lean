import MiniExt4.Ext4.Formatted

/-!
# Inodes on the disk

`ext4_iget` and `ext4_write_inode` against the layout of a volume. An inode has a slot, 256 bytes of a
block of its group's inode table; slots of different inodes do not overlap. Writing an inode changes
its slot and nothing else, and reading it back gives what was written.

An inode is a list of fields laid over its slot (`storedFields`), and what `ext4_write_inode` stores and
what `ext4_iget` reads are the same list, so the round trip is a statement about disjoint fields and not
about each of them. Fields that the driver does not keep in memory come from the slot and go back there; the
frame says so.

That slots of two inodes are apart is arithmetic on the group and the index of a number
(`TablesLaid.slot_apart`), for tables that lie apart on the device.
-/

namespace MiniExt4

open StateErr

/-! ### One record -/

namespace Inode

/-- The ranges of the C types, and of what the record has room for. -/
structure InRange (inode : Inode) : Prop where
  iMode : inode.iMode < 2 ^ 16
  iSize : inode.iSize < 2 ^ 64
  iBlocks : inode.iBlocks < 2 ^ 32
  iAtime : inode.iAtime < 2 ^ 32
  iMtime : inode.iMtime < 2 ^ 32
  iCtime : inode.iCtime < 2 ^ 32
  iUid : inode.iUid < 2 ^ 32
  iGid : inode.iGid < 2 ^ 32
  iNlink : inode.iNlink < 2 ^ 16
  iFlags : inode.iFlags < 2 ^ 32

/-- The two inodes agree in everything a record keeps. -/
structure Same (inode inode' : Inode) : Prop where
  iMode : inode.iMode = inode'.iMode
  iSize : inode.iSize = inode'.iSize
  iBlocks : inode.iBlocks = inode'.iBlocks
  iAtime : inode.iAtime = inode'.iAtime
  iMtime : inode.iMtime = inode'.iMtime
  iCtime : inode.iCtime = inode'.iCtime
  iUid : inode.iUid = inode'.iUid
  iGid : inode.iGid = inode'.iGid
  iNlink : inode.iNlink = inode'.iNlink
  word : ∀ i < 15, inode.word i = inode'.word i
  iFlags : inode.iFlags = inode'.iFlags

variable {inode : Inode} {buf buf' : Buf} {o ino inodesPerGroup : ℕ}

/-- The fields of a record that are stored one by one. -/
def storedFields : List Buf.Field :=
  [RawInode.iMode, RawInode.iSizeLo, RawInode.iSizeHigh, RawInode.iBlocksLo, RawInode.iBlocksHi,
    RawInode.iAtime, RawInode.iMtime, RawInode.iCtime, RawInode.iUid, RawInode.iUidHigh, RawInode.iGid,
    RawInode.iGidHigh, RawInode.iLinksCount, RawInode.iFlags]

/-- The fields of an inode that are stored. -/
theorem map_fst_rawFields (inode : Inode) : inode.rawFields.map Prod.fst = storedFields := rfl

/-- No two of them overlap. -/
theorem storedFields_disjoint : storedFields.Pairwise Buf.Field.Disjoint := by decide

/-- They lie in the record, and none overlaps `i_block`. -/
theorem storedFields_apart : ∀ f ∈ storedFields, f.off + f.size ≤ RawInode.size ∧
    (f.off + f.size ≤ RawInode.iBlock ∨ RawInode.iBlock + iBlockSize ≤ f.off) := by decide

theorem mem_storedFields {fv : Buf.Field × ℕ} (h : fv ∈ inode.rawFields) : fv.1 ∈ storedFields :=
  inode.map_fst_rawFields ▸ List.mem_map_of_mem h

/-- A field is read back as it was stored, cut to its size. -/
theorem getField_store {f : Buf.Field} {v : ℕ} (h : (f, v) ∈ inode.rawFields) :
    (inode.store buf o).getField o f = v % 256 ^ f.size := by
  have hapart := (storedFields_apart f (mem_storedFields h)).2
  rw [store, Buf.getField, Buf.le_blit_out (by omega)]
  exact Buf.getField_foldl_setField_of_mem _ _
    (inode.map_fst_rawFields ▸ storedFields_disjoint) h

/-- A word of the mapping is read back as it was stored. -/
theorem word_store {i : ℕ} (hi : i < 15) :
    (fill ino (inode.store buf o) o inodesPerGroup).word i = inode.word i := by
  have hsize : iBlockSize = 60 := rfl
  rw [word, fill, Buf.le_blit_in (by omega) (by omega), store, Buf.le_blit_in (by omega) (by omega),
    word]
  congr 1
  omega

/-- A record outside the slot is left alone. -/
theorem store_out {i : ℕ} (h : i < o ∨ o + RawInode.size ≤ i) : inode.store buf o i = buf i := by
  have hsize : RawInode.iBlock + iBlockSize ≤ RawInode.size := by decide
  rw [store, Buf.blit_out (by omega)]
  exact Buf.foldl_setField_out _ (fun fv hfv ↦ (storedFields_apart _ (mem_storedFields hfv)).1) h

/-- **The record of an inode reads back as the inode.** -/
theorem fill_store_same (h : inode.InRange) :
    (fill ino (inode.store buf o) o inodesPerGroup).Same inode := by
  obtain ⟨hmode, hsize, hblocks, hatime, hmtime, hctime, huid, hgid, hnlink, hflags⟩ := h
  have hfield : ∀ f v, (f, v) ∈ inode.rawFields →
      (inode.store buf o).getField o f = v % 256 ^ f.size := fun f v hf ↦ getField_store hf
  constructor
  case word => exact fun i hi ↦ word_store hi
  case iSize =>
    simp only [fill]
    rw [hfield RawInode.iSizeLo inode.iSize (by simp [rawFields]),
      hfield RawInode.iSizeHigh (inode.iSize / 2 ^ 32) (by simp [rawFields])]
    simp only [RawInode.iSizeLo, RawInode.iSizeHigh]
    omega
  case iBlocks =>
    simp only [fill, u32]
    rw [hfield RawInode.iBlocksLo inode.iBlocks (by simp [rawFields]),
      hfield RawInode.iBlocksHi (inode.iBlocks / 2 ^ 32) (by simp [rawFields])]
    simp only [RawInode.iBlocksLo, RawInode.iBlocksHi]
    omega
  case iUid =>
    simp only [fill, u32]
    rw [hfield RawInode.iUid inode.iUid (by simp [rawFields]),
      hfield RawInode.iUidHigh (inode.iUid / 2 ^ 16 % 2 ^ 16) (by simp [rawFields])]
    simp only [RawInode.iUid, RawInode.iUidHigh]
    omega
  case iGid =>
    simp only [fill, u32]
    rw [hfield RawInode.iGid inode.iGid (by simp [rawFields]),
      hfield RawInode.iGidHigh (inode.iGid / 2 ^ 16 % 2 ^ 16) (by simp [rawFields])]
    simp only [RawInode.iGid, RawInode.iGidHigh]
    omega
  case iMode =>
    exact (hfield RawInode.iMode _ (by simp [rawFields])).trans (Nat.mod_eq_of_lt hmode)
  case iAtime => exact (hfield RawInode.iAtime _ (by simp [rawFields])).trans (Nat.mod_eq_of_lt hatime)
  case iMtime => exact (hfield RawInode.iMtime _ (by simp [rawFields])).trans (Nat.mod_eq_of_lt hmtime)
  case iCtime => exact (hfield RawInode.iCtime _ (by simp [rawFields])).trans (Nat.mod_eq_of_lt hctime)
  case iNlink => exact (hfield RawInode.iLinksCount _ (by simp [rawFields])).trans (Nat.mod_eq_of_lt hnlink)
  case iFlags => exact (hfield RawInode.iFlags _ (by simp [rawFields])).trans (Nat.mod_eq_of_lt hflags)

/-- Reading a record looks at its slot only. -/
theorem fill_congr (h : ∀ i, o ≤ i → i < o + RawInode.size → buf i = buf' i) :
    fill ino buf o inodesPerGroup = fill ino buf' o inodesPerGroup := by
  have hfield : ∀ f ∈ storedFields, buf.getField o f = buf'.getField o f := by
    intro f hf
    have := (storedFields_apart f hf).1
    exact Buf.getField_congr fun i hlo hhi ↦ h i (by omega) (by omega)
  have hsize : RawInode.iBlock + iBlockSize ≤ RawInode.size := by decide
  have hblock : Buf.zero.blit 0 buf (o + RawInode.iBlock) iBlockSize =
      Buf.zero.blit 0 buf' (o + RawInode.iBlock) iBlockSize := by
    funext i
    by_cases hi : i < iBlockSize
    · rw [Buf.blit_in (by omega) (by omega), Buf.blit_in (by omega) (by omega)]
      exact h _ (by omega) (by omega)
    · rw [Buf.blit_out (by omega), Buf.blit_out (by omega)]
  simp only [fill, hblock, hfield _ (by decide : RawInode.iMode ∈ storedFields),
    hfield _ (by decide : RawInode.iSizeLo ∈ storedFields),
    hfield _ (by decide : RawInode.iSizeHigh ∈ storedFields),
    hfield _ (by decide : RawInode.iBlocksLo ∈ storedFields),
    hfield _ (by decide : RawInode.iBlocksHi ∈ storedFields),
    hfield _ (by decide : RawInode.iAtime ∈ storedFields),
    hfield _ (by decide : RawInode.iMtime ∈ storedFields),
    hfield _ (by decide : RawInode.iCtime ∈ storedFields),
    hfield _ (by decide : RawInode.iUid ∈ storedFields),
    hfield _ (by decide : RawInode.iUidHigh ∈ storedFields),
    hfield _ (by decide : RawInode.iGid ∈ storedFields),
    hfield _ (by decide : RawInode.iGidHigh ∈ storedFields),
    hfield _ (by decide : RawInode.iLinksCount ∈ storedFields),
    hfield _ (by decide : RawInode.iFlags ∈ storedFields)]

end Inode

/-! ### Slots -/

namespace Volume

variable (V : Volume)

/-- The group of an inode. -/
def inodeGroup (ino : ℕ) : ℕ := (ino - 1) / V.geom.sInodesPerGroup

/-- The place of an inode in the table of its group. -/
def inodeIndex (ino : ℕ) : ℕ := (ino - 1) % V.geom.sInodesPerGroup

/-- The block and the offset in it of the record of an inode. -/
def slot (ino : ℕ) : ℕ × ℕ := inodeLoc V.bs (V.inodeTable (V.inodeGroup ino)) (V.inodeIndex ino)

/-- The inode tables are inside the volume, apart from each other and from the descriptors. -/
structure TablesLaid : Prop where
  bs_pos : 0 < V.bs
  bs_le : V.bs ≤ 65536
  size_dvd : RawInode.size ∣ V.bs
  inodesPerGroup_pos : 0 < V.geom.sInodesPerGroup
  table_no_wrap : V.geom.sInodesPerGroup * RawInode.size < 2 ^ 32
  blocks_lt : V.blocks < 2 ^ 32
  table_le : ∀ g < V.groups, V.inodeTable g + V.tableBlocks ≤ V.blocks
  inTable_ne_desc : ∀ g < V.groups, ∀ b, V.InTable g b → ∀ g' < V.groups, b ≠ V.descBlock g'
  inTable_inj : ∀ g < V.groups, ∀ g' < V.groups, ∀ b, V.InTable g b → V.InTable g' b → g = g'

variable {V} {ino ino' : ℕ}

/-- An inode number is its group and its index. -/
theorem ino_eq_of_group_of_index (h : ino ≠ 0) (h' : ino' ≠ 0)
    (hgroup : V.inodeGroup ino = V.inodeGroup ino') (hindex : V.inodeIndex ino = V.inodeIndex ino') :
    ino = ino' := by
  have hdm := Nat.div_add_mod (ino - 1) V.geom.sInodesPerGroup
  have hdm' := Nat.div_add_mod (ino' - 1) V.geom.sInodesPerGroup
  unfold inodeGroup at hgroup
  unfold inodeIndex at hindex
  rw [hgroup, hindex] at hdm
  omega

/-- An inode is in the table of its group. -/
theorem TablesLaid.index_lt (h : V.TablesLaid) (ino : ℕ) :
    V.inodeIndex ino < V.geom.sInodesPerGroup := Nat.mod_lt _ h.inodesPerGroup_pos

/-- A slot lies in the inode table of its group, and inside its block. -/
theorem TablesLaid.slot_eq (h : V.TablesLaid) (hg : V.inodeGroup ino < V.groups) :
    V.slot ino = (V.inodeTable (V.inodeGroup ino) + V.inodeIndex ino * RawInode.size / V.bs,
        V.inodeIndex ino * RawInode.size % V.bs) ∧
      V.InTable (V.inodeGroup ino) (V.slot ino).1 ∧ (V.slot ino).2 + RawInode.size ≤ V.bs := by
  have hpos := h.bs_pos
  have hindex := h.index_lt ino
  have hwrap := h.table_no_wrap
  have hmul : V.inodeIndex ino * RawInode.size + RawInode.size ≤
      V.geom.sInodesPerGroup * RawInode.size := by
    rw [← Nat.succ_mul]
    exact Nat.mul_le_mul_right _ hindex
  have hsize : RawInode.size = 256 := rfl
  have hblock : V.inodeIndex ino * RawInode.size / V.bs < V.tableBlocks := by
    unfold tableBlocks
    rw [Nat.lt_iff_add_one_le, Nat.le_div_iff_mul_le hpos, Nat.succ_mul]
    have := Nat.div_mul_le_self (V.inodeIndex ino * RawInode.size) V.bs
    omega
  have htable := h.table_le _ hg
  have hblocks := h.blocks_lt
  have heq : V.slot ino = (V.inodeTable (V.inodeGroup ino) + V.inodeIndex ino * RawInode.size / V.bs,
      V.inodeIndex ino * RawInode.size % V.bs) := by
    have hoff : u32 (V.inodeIndex ino * RawInode.size) = V.inodeIndex ino * RawInode.size :=
      u32_of_lt (by omega)
    simp only [slot, inodeLoc, hoff]
    rw [u32_of_lt (by omega)]
  refine ⟨heq, ?_, ?_⟩
  · rw [heq]
    exact ⟨Nat.le_add_right _ _, Nat.add_lt_add_left hblock _⟩
  · rw [heq]
    obtain ⟨c, hc⟩ := h.size_dvd
    rw [hc, Nat.mul_comm _ RawInode.size, Nat.mul_mod_mul_left]
    have := Nat.mod_lt (V.inodeIndex ino) (show 0 < c by rw [hc] at hpos; exact Nat.pos_of_mul_pos_left hpos)
    calc RawInode.size * (V.inodeIndex ino % c) + RawInode.size =
        RawInode.size * (V.inodeIndex ino % c + 1) := by ring
      _ ≤ RawInode.size * c := Nat.mul_le_mul_left _ this

/-- **The slots of different inodes do not overlap.** -/
theorem TablesLaid.slot_apart (h : V.TablesLaid) (hino : ino ≠ 0) (hino' : ino' ≠ 0)
    (hg : V.inodeGroup ino < V.groups) (hg' : V.inodeGroup ino' < V.groups) (hne : ino ≠ ino')
    (hblk : (V.slot ino).1 = (V.slot ino').1) :
    (V.slot ino).2 + RawInode.size ≤ (V.slot ino').2 ∨
      (V.slot ino').2 + RawInode.size ≤ (V.slot ino).2 := by
  obtain ⟨heq, hin, -⟩ := h.slot_eq hg
  obtain ⟨heq', hin', -⟩ := h.slot_eq hg'
  have hgroup := h.inTable_inj _ hg _ hg' _ hin (hblk ▸ hin')
  rw [heq, heq', hgroup] at hblk
  rw [heq, heq']
  have hquot : V.inodeIndex ino * RawInode.size / V.bs = V.inodeIndex ino' * RawInode.size / V.bs :=
    Nat.add_left_cancel hblk
  have hdm := Nat.div_add_mod (V.inodeIndex ino * RawInode.size) V.bs
  have hdm' := Nat.div_add_mod (V.inodeIndex ino' * RawInode.size) V.bs
  rw [hquot] at hdm
  have hstep : ∀ {i j : ℕ}, i < j → i * RawInode.size + RawInode.size ≤ j * RawInode.size := by
    intro i j hlt
    rw [← Nat.succ_mul]
    exact Nat.mul_le_mul_right _ hlt
  rcases Nat.lt_trichotomy (V.inodeIndex ino) (V.inodeIndex ino') with hlt | heq | hlt
  · have := hstep hlt
    omega
  · exact absurd (ino_eq_of_group_of_index hino hino' hgroup heq) hne
  · have := hstep hlt
    omega

/-! ### Finding, reading and writing a slot -/

/-- The device of `fs` holds the inode tables of the volume. Nothing is said of whether it works. -/
structure InodeImage (V : Volume) (fs : Fs) : Prop where
  laid : V.TablesLaid
  sectored : fs.Sectored
  blockSize : fs.blockSize = V.bs
  geom : fs.sbi.toSbGeom = V.geom
  groupDesc : fs.sbi.sGroupDesc.isSome
  desc_inodeTable : ∀ g < V.groups, (fs.desc g).getField 0 Gd.bgInodeTableLo = V.inodeTable g

/-- `ext4_get_inode_disk_loc` finds the slot if the device answers. -/
def Finds (V : Volume) (fs : Fs) (ino : ℕ) : Prop :=
  ino ≠ 0 ∧ V.inodeGroup ino < V.groups ∧ V.descOff (V.inodeGroup ino) + V.geom.copySz ≤ V.bs ∧
    0 < fs.superPool ∧ fs.HasBlock (V.descBlock (V.inodeGroup ino))

instance (fs : Fs) (ino : ℕ) : Decidable (V.Finds fs ino) := inferInstanceAs (Decidable (_ ∧ _))

variable {fs fs' : Fs} {inode : Inode}

/-- The tables do not depend on the faults to come. -/
theorem InodeImage.withFaults (h : V.InodeImage fs) (l : List Fault) :
    V.InodeImage (fs.withFaults l) :=
  { h with sectored := BlockDevice.Sectored.withFaults h.sectored l }

/-- The code finds a descriptor where the layout has it. -/
theorem InodeImage.descLoc_eq (h : V.InodeImage fs) (g : ℕ) :
    fs.sbi.descLoc V.bs g = (V.descBlock g, V.descOff g) := by
  rw [show fs.sbi.descLoc V.bs g = fs.sbi.toSbGeom.descLoc V.bs g from rfl, h.geom]
  rfl

/-- The code copies as much of a descriptor as the layout says. -/
theorem InodeImage.copySz_eq (h : V.InodeImage fs) : fs.sbi.copySz = V.geom.copySz := by
  rw [show fs.sbi.copySz = fs.sbi.toSbGeom.copySz from rfl, h.geom]

/-- A descriptor in terms of the layout. -/
theorem InodeImage.desc_eq (h : V.InodeImage fs) (g : ℕ) :
    fs.desc g = Buf.zero.blit 0 (fs.block (V.descBlock g)) (V.descOff g) V.geom.copySz := by
  rw [Fs.desc, h.blockSize, h.descLoc_eq, h.copySz_eq]

/-- Storing a block of an inode table leaves the tables where they are. -/
theorem InodeImage.put (h : V.InodeImage fs) {g b : ℕ} (hg : g < V.groups) (hb : V.InTable g b)
    (buf : Buf) : V.InodeImage (fs.put b buf) := by
  refine ⟨h.laid, BlockDevice.Sectored.putBlock h.sectored b buf, h.blockSize, h.geom, h.groupDesc,
    fun g' hg' ↦ ?_⟩
  have hdesc : (fs.put b buf).desc g' = fs.desc g' := by
    rw [h.desc_eq, Fs.desc, Fs.put_blockSize, Fs.put_sbi, h.blockSize, h.descLoc_eq, h.copySz_eq,
      fs.block_put_of_ne buf (h.laid.inTable_ne_desc g hg b hb g' hg').symm]
  rw [hdesc, h.desc_inodeTable g' hg']

/-- The location in the descriptor is the slot, and passes the last check. -/
theorem InodeImage.slot_of_desc (h : V.InodeImage fs) (hg : V.inodeGroup ino < V.groups) :
    inodeLoc V.bs ((Buf.zero.blit 0 (fs.block (V.descBlock (V.inodeGroup ino)))
        (V.descOff (V.inodeGroup ino)) V.geom.copySz).getField 0 Gd.bgInodeTableLo)
        (V.inodeIndex ino) = V.slot ino ∧ (V.slot ino).1 < V.blocks := by
  refine ⟨?_, ?_⟩
  · rw [← h.desc_eq, h.desc_inodeTable _ hg, slot]
  · obtain ⟨-, hin, -⟩ := h.laid.slot_eq hg
    exact hin.2.trans_le (h.laid.table_le _ hg)

/-- A slot is there. -/
theorem superMalloc_eq (h : V.InodeImage fs) {held : ℕ} (hpool : held < fs.superPool) :
    Fs.superMalloc held fs = (some (), fs) := by
  have hbs : fs.sbi.sBlockSize ≤ 65536 :=
    (congrArg SbGeom.sBlockSize h.geom : fs.sbi.sBlockSize = V.bs) ▸ h.laid.bs_le
  rw [Fs.superMalloc, get_bind, guard_true ⟨hbs, hpool⟩, pure_apply]

/-- Where a slot was given there was one. -/
theorem of_superMalloc_some {held : ℕ} (h : Fs.superMalloc held fs = (some (), fs')) :
    held < fs.superPool ∧ fs' = fs := by
  unfold Fs.superMalloc at h
  rw [get_bind] at h
  by_cases hpool : fs.sbi.sBlockSize ≤ 65536 ∧ held < fs.superPool
  · rw [guard_true hpool, pure_apply] at h
    exact ⟨hpool.2, (Prod.mk.inj h).2.symm⟩
  · simp [guard_false hpool] at h

/-- What `ext4_get_inode_disk_loc` finds is the slot, whatever the device does. -/
theorem InodeImage.of_getInodeDiskLoc_some (h : V.InodeImage fs) {loc : ℕ × ℕ}
    (hrun : Fs.ext4GetInodeDiskLoc ino fs = (some loc, fs')) :
    V.Finds fs ino ∧ loc = V.slot ino ∧ ∃ l, fs' = fs.withFaults l := by
  have hipg : fs.sbi.sInodesPerGroup = V.geom.sInodesPerGroup := congrArg SbGeom.sInodesPerGroup h.geom
  have hbs : fs.sbi.sBlockSize = V.bs := congrArg SbGeom.sBlockSize h.geom
  have hgroups : fs.sbi.sGroupsCount = V.groups := congrArg SbGeom.sGroupsCount h.geom
  unfold Fs.ext4GetInodeDiskLoc at hrun
  rw [get_bind, guard_bind_eq_some_iff, guard_bind_eq_some_iff, guard_bind_eq_some_iff,
    guard_bind_eq_some_iff, bind_eq_some_iff] at hrun
  obtain ⟨⟨-, hino⟩, -, hg, hin, _, fs₁, hmalloc, hrun⟩ := hrun
  obtain ⟨hpool, rfl⟩ := of_superMalloc_some hmalloc
  obtain ⟨buf, fs₂, hread, hrun⟩ := bind_eq_some_iff.1 hrun
  obtain ⟨hblock, rfl, l, rfl⟩ := h.sectored.of_readBlock_some hread
  rw [guard_bind_eq_some_iff] at hrun
  obtain ⟨-, hpure⟩ := hrun
  obtain ⟨hloc, rfl⟩ := Prod.mk.inj hpure
  rw [hipg, hgroups] at hg
  rw [hipg, hbs, h.descLoc_eq, h.copySz_eq] at hin
  rw [hipg, hbs, h.descLoc_eq] at hblock
  rw [Option.some.injEq, hipg, hbs, h.descLoc_eq, h.copySz_eq] at hloc
  exact ⟨⟨hino, hg, hin, hpool, hblock⟩, hloc.symm.trans (h.slot_of_desc hg).1, l, rfl⟩

/-- On a device that answers every call the slot is found. -/
theorem InodeImage.getInodeDiskLoc (h : V.InodeImage fs) (hquiet : fs.dev.faults = [])
    (hfinds : V.Finds fs ino) : Fs.ext4GetInodeDiskLoc ino fs = (some (V.slot ino), fs) := by
  obtain ⟨hino, hg, hin, hpool, hblock⟩ := hfinds
  have hipg : fs.sbi.sInodesPerGroup = V.geom.sInodesPerGroup := congrArg SbGeom.sInodesPerGroup h.geom
  have hbs : fs.sbi.sBlockSize = V.bs := congrArg SbGeom.sBlockSize h.geom
  have hgroups : fs.sbi.sGroupsCount = V.groups := congrArg SbGeom.sGroupsCount h.geom
  have hblocks : fs.sbi.sBlocksCount = V.blocks := congrArg SbGeom.sBlocksCount h.geom
  have hread := Fs.Usable.readBlock_eq (h.sectored.usable hquiet) (V.descBlock (V.inodeGroup ino))
  rw [if_pos hblock] at hread
  obtain ⟨hslot, hlt⟩ := h.slot_of_desc hg
  unfold Fs.ext4GetInodeDiskLoc
  rw [get_bind, guard_true ⟨h.groupDesc, hino⟩, pure_bind',
    guard_true (hipg ▸ h.laid.inodesPerGroup_pos.ne'), pure_bind',
    guard_true (by rw [hipg, hgroups]; exact hg), pure_bind',
    guard_true (by rw [hipg, hbs, h.descLoc_eq, h.copySz_eq]; exact hin), pure_bind',
    bind_of_eq_some (superMalloc_eq h hpool)]
  rw [bind_of_eq_some (show Fs.readBlock _ fs = _ by rw [hipg, hbs, h.descLoc_eq]; exact hread)]
  have hloc : inodeLoc fs.sbi.sBlockSize ((Buf.zero.blit 0 (fs.block (V.descBlock (V.inodeGroup ino)))
      (fs.sbi.descLoc fs.sbi.sBlockSize ((ino - 1) / fs.sbi.sInodesPerGroup)).2
      fs.sbi.copySz).getField 0 Gd.bgInodeTableLo) ((ino - 1) % fs.sbi.sInodesPerGroup) = V.slot ino := by
    rw [hipg, hbs, h.descLoc_eq, h.copySz_eq]
    exact hslot
  rw [hloc, guard_true (hblocks ▸ hlt), pure_bind', pure_apply]

/-- The inode that is on the disk. -/
def diskInode (V : Volume) (fs : Fs) (ino : ℕ) : Inode :=
  Inode.fill ino (fs.block (V.slot ino).1) (V.slot ino).2 V.geom.sInodesPerGroup

/-- `ext4_iget` reads the inode that is on the disk if the device has its block and the pool has room
for it. -/
def Reads (V : Volume) (fs : Fs) (ino : ℕ) : Prop :=
  V.Finds fs ino ∧ fs.HasBlock (V.slot ino).1 ∧ 1 < fs.superPool

/-- An inode that was read is the one on the device. -/
theorem InodeImage.of_iget_some (h : V.InodeImage fs) (hrun : Fs.ext4Iget ino fs = (some inode, fs')) :
    V.Reads fs ino ∧ inode = V.diskInode fs ino := by
  unfold Fs.ext4Iget at hrun
  obtain ⟨loc, fs₁, hloc, hrun⟩ := bind_eq_some_iff.1 hrun
  obtain ⟨hfinds, rfl, l, rfl⟩ := h.of_getInodeDiskLoc_some hloc
  obtain ⟨_, fs₂, hmalloc, hrun⟩ := bind_eq_some_iff.1 hrun
  obtain ⟨-, rfl⟩ := of_superMalloc_some hmalloc
  obtain ⟨buf, fs₃, hread, hrun⟩ := bind_eq_some_iff.1 hrun
  obtain ⟨hblock, rfl, l', rfl⟩ := (h.withFaults l).sectored.of_readBlock_some hread
  rw [get_bind, guard_bind_eq_some_iff] at hrun
  obtain ⟨hpool, hrun⟩ := hrun
  rw [modify_bind] at hrun
  obtain ⟨hinode, -⟩ := Prod.mk.inj hrun
  refine ⟨⟨hfinds, hblock, hpool⟩, (Option.some.inj hinode).symm.trans ?_⟩
  rw [diskInode, ← h.geom]
  rfl

/-- Where nothing fails the inode is read. -/
theorem InodeImage.iget (h : V.InodeImage fs) (hquiet : fs.dev.faults = []) (hreads : V.Reads fs ino) :
    (Fs.ext4Iget ino fs).1 = some (V.diskInode fs ino) := by
  obtain ⟨hfinds, hblock, hpool⟩ := hreads
  have hread := Fs.Usable.readBlock_eq (h.sectored.usable hquiet) (V.slot ino).1
  rw [if_pos hblock] at hread
  unfold Fs.ext4Iget
  rw [bind_of_eq_some (h.getInodeDiskLoc hquiet hfinds),
    bind_of_eq_some (superMalloc_eq h (by omega)), bind_of_eq_some hread, get_bind, guard_true hpool,
    pure_bind', modify_bind, pure_apply, diskInode, ← h.geom]

/-- Otherwise it is not. -/
theorem InodeImage.iget_of_not (h : V.InodeImage fs) (hreads : ¬ V.Reads fs ino) :
    (Fs.ext4Iget ino fs).1 = none := by
  rcases hrun : Fs.ext4Iget ino fs with ⟨_ | inode, fs'⟩
  · rfl
  · exact absurd (h.of_iget_some hrun).1 hreads

/-- The filesystem with the inode written into its slot. -/
def written (V : Volume) (fs : Fs) (inode : Inode) : Fs :=
  fs.put (V.slot inode.iIno).1
    (inode.store (fs.block (V.slot inode.iIno).1) (V.slot inode.iIno).2)

/-- What a successful `ext4_write_inode` has done, whatever the device did. -/
theorem InodeImage.of_writeInode_some (h : V.InodeImage fs)
    (hrun : Fs.ext4WriteInode inode fs = (some (), fs')) :
    V.Finds fs inode.iIno ∧ fs.HasBlock (V.slot inode.iIno).1 ∧
      ∃ l, fs' = (V.written fs inode).withFaults l := by
  unfold Fs.ext4WriteInode at hrun
  rw [guard_bind_eq_some_iff] at hrun
  obtain ⟨loc, fs₁, hloc, hrun⟩ := bind_eq_some_iff.1 hrun.2
  obtain ⟨hfinds, rfl, l, rfl⟩ := h.of_getInodeDiskLoc_some hloc
  obtain ⟨_, fs₂, hmalloc, hrun⟩ := bind_eq_some_iff.1 hrun
  obtain ⟨-, rfl⟩ := of_superMalloc_some hmalloc
  obtain ⟨buf, fs₃, hread, hwrite⟩ := bind_eq_some_iff.1 hrun
  obtain ⟨hblock, rfl, l', rfl⟩ := (h.withFaults l).sectored.of_readBlock_some hread
  obtain ⟨-, l'', rfl⟩ := ((h.withFaults l).withFaults l').sectored.of_writeBlock_some hwrite
  exact ⟨hfinds, hblock, l'', rfl⟩

/-! ### Other slots -/

/-- Writing an inode leaves the tables. -/
theorem InodeImage.written (h : V.InodeImage fs) (hfinds : V.Finds fs inode.iIno) :
    V.InodeImage (V.written fs inode) :=
  h.put hfinds.2.1 (h.laid.slot_eq hfinds.2.1).2.1 _

/-- Which inodes can be read does not depend on the contents of the blocks. -/
theorem reads_written : V.Reads (V.written fs inode) ino ↔ V.Reads fs ino := Iff.rfl

/-- Writing an inode leaves what is read of every other. -/
theorem InodeImage.diskInode_written (h : V.InodeImage fs) (hfinds : V.Finds fs inode.iIno)
    (hfinds' : V.Finds fs ino) (hne : ino ≠ inode.iIno) :
    V.diskInode (V.written fs inode) ino = V.diskInode fs ino := by
  obtain ⟨hino, hg, -⟩ := hfinds
  obtain ⟨hino', hg', -⟩ := hfinds'
  by_cases hblk : (V.slot ino).1 = (V.slot inode.iIno).1
  · have hapart := h.laid.slot_apart hino' hino hg' hg hne hblk
    have hend := (h.laid.slot_eq hg').2.2
    have hbs := h.blockSize
    refine Inode.fill_congr fun i hlo hhi ↦ ?_
    rw [Volume.written, hblk, Fs.block_put_self, Buf.clip_of_lt _ (by omega),
      Inode.store_out (by omega)]
  · rw [diskInode, Volume.written, fs.block_put_of_ne _ hblk, diskInode]

/-- What was written is what is read. -/
theorem InodeImage.diskInode_written_self (h : V.InodeImage fs) (hfinds : V.Finds fs inode.iIno)
    (hinode : inode.InRange) : (V.diskInode (V.written fs inode) inode.iIno).Same inode := by
  have hend := (h.laid.slot_eq hfinds.2.1).2.2
  have hbs := h.blockSize
  rw [diskInode, Volume.written, Fs.block_put_self,
    Inode.fill_congr fun i hlo hhi ↦ Buf.clip_of_lt _ (by omega)]
  exact Inode.fill_store_same hinode

/-- Every other inode is read as before. -/
theorem InodeImage.iget_written (h : V.InodeImage fs) (hquiet : fs.dev.faults = [])
    (hfinds : V.Finds fs inode.iIno) (hne : ino ≠ inode.iIno) :
    (Fs.ext4Iget ino (V.written fs inode)).1 = (Fs.ext4Iget ino fs).1 := by
  by_cases hreads : V.Reads fs ino
  · rw [(h.written hfinds).iget hquiet (reads_written.2 hreads), h.iget hquiet hreads,
      h.diskInode_written hfinds hreads.1 hne]
  · rw [(h.written hfinds).iget_of_not fun hr ↦ hreads (reads_written.1 hr), h.iget_of_not hreads]

end Volume

/-! ### A formatted volume -/

namespace Mkfs

variable {total n : ℕ} {d₁ : BlockDevice} {fs fs' : Fs}

/-- The inode tables of the volume lie below its end. -/
def TablesBelow (total : ℕ) : Prop :=
  ∀ g < groupsCount 4096 total, inodeTableAbs 4096 total g + inodeTableBlocks 4096 total ≤ total

/-- A new volume has its tables apart. -/
theorem GeomOf.tablesLaid {geom : SbGeom} (hgeom : GeomOf 4096 total geom) (h : Spaced 4096 total)
    (htotal : total < 2 ^ 32) (hpos : 0 < total) (hg : 0 < groupsCount 4096 total)
    (hbelow : TablesBelow total) : (volume 4096 total geom).TablesLaid := by
  have hgroups : (volume 4096 total geom).groups = groupsCount 4096 total := hgeom.sGroupsCount
  have hbs : (volume 4096 total geom).bs = 4096 := hgeom.sBlockSize
  have hipg : (volume 4096 total geom).geom.sInodesPerGroup = inodesPerGroup 4096 total :=
    hgeom.sInodesPerGroup
  have hblocks : (volume 4096 total geom).blocks = total := hgeom.sBlocksCount
  have htable : (volume 4096 total geom).tableBlocks = inodeTableBlocks 4096 total := by
    rw [inodeTableBlocks_eq (by norm_num), Volume.tableBlocks, hipg, hbs]
    rfl
  have hle : inodesPerGroup 4096 total ≤ 4096 * 8 := (blocksPerGroup_le 4096 total).2
  have hsize : RawInode.size = 256 := rfl
  refine ⟨by omega, by omega, by rw [hbs, hsize]; decide, ?_, ?_, by omega, fun g hlt ↦ ?_,
    fun g hlt b hb g' hlt' heq ↦ ?_, fun g hlt g' hlt' b hb hb' ↦ ?_⟩
  · rw [hipg, inodesPerGroup, blocksPerGroup]
    split <;> omega
  · rw [hipg, hsize]
    omega
  · rw [htable, hblocks]
    exact hbelow g (hgroups ▸ hlt)
  · rw [hgroups] at hlt hlt'
    obtain ⟨i, hi, rfl⟩ := hgeom.inTable_eq (by norm_num) hg hb
    obtain ⟨j, hj, hdesc⟩ := hgeom.descBlock_eq h.ne_1024 (by norm_num) (by norm_num) htotal hg hlt'
    have := @Spaced.pos_injective _ _ h hg (.inodeTable g i) (.groupDesc 0 j) ⟨hlt, hi⟩ ⟨hg, hj⟩
      (heq.trans hdesc)
    simp at this
  · rw [hgroups] at hlt hlt'
    obtain ⟨i, hi, heq⟩ := hgeom.inTable_eq (by norm_num) hg hb
    obtain ⟨i', hi', heq'⟩ := hgeom.inTable_eq (by norm_num) hg hb'
    have := @Spaced.pos_injective _ _ h hg (.inodeTable g i) (.inodeTable g' i') ⟨hlt, hi⟩
      ⟨hlt', hi'⟩ (heq ▸ heq')
    simp only [Role.inodeTable.injEq] at this
    exact this.1

/-- `fs'` is a later state of the volume mounted as `fs`: its geometry and the places of its inode
tables are the same. The rest of its contents, and what its device is going to do, may be anything. -/
structure LaterState (fs fs' : Fs) : Prop where
  geom : fs'.sbi.toSbGeom = fs.sbi.toSbGeom
  blockSize : fs'.blockSize = fs.blockSize
  groupDesc : fs'.sbi.sGroupDesc.isSome
  sectorSize : fs'.dev.bdSectorSize = fs.dev.bdSectorSize
  desc_inodeTable : ∀ g < fs.sbi.sGroupsCount,
    (fs'.desc g).getField 0 Gd.bgInodeTableLo = (fs.desc g).getField 0 Gd.bgInodeTableLo

/-- Nothing has happened yet. -/
theorem LaterState.refl (h : fs.sbi.sGroupDesc.isSome) : LaterState fs fs :=
  ⟨rfl, rfl, h, rfl, fun _ _ ↦ rfl⟩

/-- A volume that was formatted has its tables, whatever has happened since. -/
theorem Fresh.inodeImage (h : Fresh total n d₁ fs)
    (hlaid : (volume 4096 total fs.sbi.toSbGeom).TablesLaid) (hlater : LaterState fs fs') :
    (volume 4096 total fs.sbi.toSbGeom).InodeImage fs' := by
  have hsect := h.whole.sectored
  refine ⟨hlaid, ?_, ?_, hlater.geom, hlater.groupDesc, fun g hg ↦ ?_⟩
  · rw [Fs.Sectored, hlater.blockSize]
    exact ⟨hlater.sectorSize ▸ hsect.sectorSize_pos, hlater.sectorSize ▸ hsect.sectorSize_dvd,
      hsect.blockSize_pos⟩
  · rw [hlater.blockSize, h.blockSize]
    exact h.geom.sBlockSize.symm
  · rw [hlater.desc_inodeTable g hg]
    exact h.desc g (h.geom.sGroupsCount ▸ hg) _ _ (by simp [descFields, volume])

end Mkfs

open Mkfs in
/-- **What `ext4_write_inode` wrote is what `ext4_iget` reads**, and nothing else has changed: every
other inode reads as before, and so does every block but the one with the slot. The device may fail in
any way while the inode is written; a device that answers every call reads the inode back as long as
the pool has room for it. -/
theorem Inode.writeInode_roundTrip {now now' total n bgSyncBatch preallocGoalLen : ℕ}
    {d d₁ d₂ : BlockDevice} {sbi : SbInfo} {fs fs' : Fs} {inode : Inode} (hd : d.Usable 4096 n)
    (htotal : total < 2 ^ 32) (hmkfs : ext4Mkfs now 4096 total d = (some (), d₁))
    (hmagic : HasMagic (d₁.block 4096 0)) (hmount : ext4FillSuper now' d₁ = (some sbi, d₂))
    (hbelow : TablesBelow total)
    (hfs : LaterState (Fs.ofMount d₂ sbi bgSyncBatch preallocGoalLen) fs) (hinode : inode.InRange)
    (hrun : Fs.ext4WriteInode inode fs = (some (), fs')) :
    (∀ l read fs'', Fs.ext4Iget inode.iIno (fs'.withFaults l) = (some read, fs'') →
      read.Same inode) ∧
    (1 < fs.superPool → (Fs.ext4Iget inode.iIno (fs'.withFaults [])).1.isSome) ∧
    (∀ ino ≠ inode.iIno, (Fs.ext4Iget ino (fs'.withFaults [])).1 =
      (Fs.ext4Iget ino (fs.withFaults [])).1) ∧
    ∀ b ≠ inodeTableAbs 4096 total ((inode.iIno - 1) / inodesPerGroup 4096 total) +
        (inode.iIno - 1) % inodesPerGroup 4096 total / 16, fs'.block b = fs.block b := by
  have hformatted := formatted_of_mkfs hd htotal hmkfs hmagic
  have hfresh := hformatted.fresh hmount bgSyncBatch preallocGoalLen
  have hlaid := hfresh.geom.tablesLaid hformatted.spaced htotal hformatted.total_pos
    hformatted.groups_pos hbelow
  have h := hfresh.inodeImage hlaid hfs
  generalize hV : volume 4096 total (Fs.ofMount d₂ sbi bgSyncBatch preallocGoalLen).sbi.toSbGeom = V at *
  obtain ⟨hfinds, hblock, l, rfl⟩ := h.of_writeInode_some hrun
  -- the inode that is read back, a read that is possible, the other inodes, the other blocks
  refine ⟨fun l' read fs'' hread ↦ ?_, fun hpool ↦ ?_, fun ino hne ↦ ?_, fun b hb ↦ ?_⟩
  · obtain ⟨-, rfl⟩ := (((h.written hfinds).withFaults l).withFaults l').of_iget_some hread
    exact h.diskInode_written_self hfinds hinode
  · have hreads : V.Reads (V.written fs inode) inode.iIno := ⟨hfinds, hblock, hpool⟩
    exact Option.isSome_iff_exists.2 ⟨_, ((h.written hfinds).withFaults []).iget rfl hreads⟩
  · exact (h.withFaults []).iget_written rfl hfinds hne
  · refine fs.block_put_of_ne _ fun hslot ↦ hb ?_
    obtain ⟨heq, -⟩ := h.laid.slot_eq hfinds.2.1
    have hipg : V.geom.sInodesPerGroup = inodesPerGroup 4096 total := by
      rw [← hV]
      exact hfresh.geom.sInodesPerGroup
    have hbs : V.bs = 4096 := by
      rw [← hV]
      exact hfresh.geom.sBlockSize
    have htable : V.inodeTable = inodeTableAbs 4096 total := by
      rw [← hV]
      rfl
    rw [hslot, heq, Volume.inodeGroup, Volume.inodeIndex, hipg, hbs, htable]
    simp only [RawInode.size]
    omega

/-- A file of 5 GiB, owned by user 70000, as inode 12. -/
def Mkfs.bigFile : Inode where
  iIno := 12
  iNlink := 1
  iUid := 70000
  iGid := 70000
  iMode := 0o100644
  iAtime := 1
  iMtime := 2
  iCtime := 3
  iSize := 5 * 2 ^ 30
  iBlocks := 8
  dirty := true
  iBlock := fun i ↦ BitVec.ofNat 8 i
  iFlags := ext4InodeFlagExtents
  iAllocGroupHint := 0

open Mkfs in
theorem Inode.writeInode_roundTrip_small : ∃ read,
    (Fs.ext4Iget 12 ((Fs.ext4WriteInode bigFile smallFs).2.withFaults [])).1 = some read ∧
      read.Same bigFile := by
  have hd := (BlockDevice.holds_blank 512 8 64 (by norm_num) (by norm_num)).1
  have hinode : bigFile.InRange := by constructor <;> decide
  have hrun : Fs.ext4WriteInode bigFile smallFs = (some (), (Fs.ext4WriteInode bigFile smallFs).2) :=
    eq_of_fst_eq (by decide +kernel)
  have hlater : LaterState (Fs.ofMount (ext4FillSuper 0 smallDisk).2 smallSb 32 32) smallFs :=
    .refl (by decide +kernel)
  obtain ⟨hsame, hsome, -⟩ := Inode.writeInode_roundTrip hd (by norm_num) mkfs_small
    (by unfold HasMagic; decide +kernel) fillSuper_small_eq (by unfold TablesBelow; decide +kernel)
    hlater hinode hrun
  obtain ⟨read, hread⟩ := Option.isSome_iff_exists.1 (hsome (by decide +kernel))
  exact ⟨read, hread, hsame [] read _ (eq_of_fst_eq hread)⟩

end MiniExt4
