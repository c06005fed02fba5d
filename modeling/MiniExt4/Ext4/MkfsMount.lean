import MiniExt4.Ext4.MkfsRun
import MiniExt4.Ext4.Super
import MiniExt4.Ext4.BallocSpec

/-!
# Mounting what `ext4_mkfs` wrote

The superblock and the descriptors read back as they were written, so mounting a freshly formatted
volume of 4096-byte blocks that fits gives a mounted `Volume` whose used blocks are its metadata and
the root directory.

The numbers that mounting derives from a superblock are those that `ext4_mkfs` started from, field by field
(`geomOf_of_fillSuper`). Everything that is said of a formatted volume elsewhere goes through `GeomOf`, so
that no other module looks at what was written into a superblock. The volume of 64 blocks that the witnesses
share is mounted here once.
-/

namespace MiniExt4

open StateErr

namespace Mkfs

variable {bs total : ℕ}

/-! ### Reading the superblock back -/

/-- The fields the superblock of a new volume is mounted by. -/
def superFields (bs total log : ℕ) : List (Buf.Field × ℕ) :=
  [(Esb.sMagic, ext4SuperMagic), (Esb.sDescSize, gdEntrySize), (Esb.sLogBlockSize, log),
    (Esb.sBlocksPerGroup, blocksPerGroup bs total), (Esb.sInodesPerGroup, inodesPerGroup bs total),
    (Esb.sInodesCount, u32 (groupsCount bs total * inodesPerGroup bs total)),
    (Esb.sBlocksCountLo, total), (Esb.sFirstDataBlock, firstDataBlock bs)]

/-- The fields of the superblock that was written. -/
theorem getField_superBlock {log now : ℕ} {buf : Buf} {o : ℕ} {f : Buf.Field} {v : ℕ}
    (h : (f, v) ∈ superFields bs total log) :
    (superBlock bs total log now buf o).getField o f = v % 256 ^ f.size := by
  simp only [superFields, List.mem_cons, Prod.mk.injEq, List.not_mem_nil, or_false] at h
  unfold superBlock
  rcases h with ⟨rfl, rfl⟩ | ⟨rfl, rfl⟩ | ⟨rfl, rfl⟩ | ⟨rfl, rfl⟩ | ⟨rfl, rfl⟩ | ⟨rfl, rfl⟩ |
    ⟨rfl, rfl⟩ | ⟨rfl, rfl⟩ <;>
  simp (disch := decide) only [Buf.getField_setField_of_disjoint, Buf.getField_setField_self,
    Buf.getField_clear_of_disjoint, Buf.getField_foldl_putLe]

/-! ### Reading the descriptors back -/

/-- The block numbers a descriptor has. -/
def descFields (bs total g : ℕ) : List (Buf.Field × ℕ) :=
  [(Gd.bgBlockBitmapLo, blockBitmapAbs bs total g), (Gd.bgInodeBitmapLo, inodeBitmapAbs bs total g),
    (Gd.bgInodeTableLo, inodeTableAbs bs total g)]

/-- The fields of the descriptor that was written. -/
theorem getField_groupDesc_self {table : Buf} {g : ℕ} {f : Buf.Field} {v : ℕ}
    (h : (f, v) ∈ descFields bs total g) :
    (groupDesc bs total table g).getField (g * gdEntrySize) f = v := by
  have hv : v < 2 ^ 32 := by
    simp only [descFields, List.mem_cons, Prod.mk.injEq, List.not_mem_nil, or_false] at h
    rcases h with ⟨-, rfl⟩ | ⟨-, rfl⟩ | ⟨-, rfl⟩ <;> exact u32_lt _
  simp only [descFields, List.mem_cons, Prod.mk.injEq, List.not_mem_nil, or_false] at h
  unfold groupDesc
  rcases h with ⟨rfl, rfl⟩ | ⟨rfl, rfl⟩ | ⟨rfl, rfl⟩ <;>
  · simp (disch := decide) only [Buf.getField_setField_of_disjoint, Buf.getField_setField_self]
    exact Nat.mod_eq_of_lt hv

/-- Another descriptor of the table is as it was. -/
theorem getField_groupDesc_of_ne {table : Buf} {g g' : ℕ} (hne : g ≠ g') {f : Buf.Field}
    (hf : f.off + f.size ≤ 32) :
    (groupDesc bs total table g).getField (g' * gdEntrySize) f =
      table.getField (g' * gdEntrySize) f := by
  have hapart : ∀ k : Buf.Field, k.off + k.size ≤ 32 →
      g' * gdEntrySize + f.off + f.size ≤ g * gdEntrySize + k.off ∨
        g * gdEntrySize + k.off + k.size ≤ g' * gdEntrySize + f.off := by
    intro k hk
    unfold gdEntrySize
    omega
  unfold groupDesc
  repeat rw [Buf.getField_setField_apart _ _ (hapart _ (by decide))]

/-- What is stored in a descriptor is found in the table. -/
theorem getField_gdTable_of_self {n g : ℕ} (hg : g < n) {f : Buf.Field} {v : ℕ}
    (hf : f.off + f.size ≤ 32)
    (hself : ∀ table, (groupDesc bs total table g).getField (g * gdEntrySize) f = v) :
    (gdTable bs total n).getField (g * gdEntrySize) f = v := by
  induction n with
  | zero => omega
  | succ n ih =>
    rw [gdTable]
    rcases Nat.lt_or_eq_of_le (Nat.le_of_lt_succ hg) with hlt | rfl
    · rw [getField_groupDesc_of_ne (by omega) hf, ih hlt]
    · exact hself _

/-- The fields of a descriptor end within it. -/
theorem size_le_of_mem_descFields {g : ℕ} {f : Buf.Field} {v : ℕ}
    (h : (f, v) ∈ descFields bs total g) : f.off + f.size ≤ 32 := by
  simp only [descFields, List.mem_cons, Prod.mk.injEq, List.not_mem_nil, or_false] at h
  rcases h with ⟨rfl, -⟩ | ⟨rfl, -⟩ | ⟨rfl, -⟩ <;> decide

/-- The fields of every descriptor of the table: an induction on their number. -/
theorem getField_gdTable {n g : ℕ} (hg : g < n) {f : Buf.Field} {v : ℕ}
    (h : (f, v) ∈ descFields bs total g) :
    (gdTable bs total n).getField (g * gdEntrySize) f = v :=
  getField_gdTable_of_self hg (size_le_of_mem_descFields h) fun _ ↦ getField_groupDesc_self h

/-- A block holds whole descriptors. -/
theorem dvd_of_pow (hbs : 1024 ≤ bs) (hpow : ∃ k, bs = 2 ^ k) : 32 ∣ bs := by
  obtain ⟨k, rfl⟩ := hpow
  have hk : 5 ≤ k := by
    by_contra hlt
    have : 2 ^ k ≤ 2 ^ 4 := Nat.pow_le_pow_right (by norm_num) (by omega)
    omega
  exact pow_dvd_pow 2 hk

/-- Blocks of the table hold whole descriptors. -/
theorem add_le_of_dvd (h32 : 32 ∣ bs) (hbs : 0 < bs) (g : ℕ) : g * 32 % bs + 32 ≤ bs := by
  obtain ⟨c, rfl⟩ := h32
  rw [Nat.mul_comm g 32, Nat.mul_mod_mul_left]
  have := Nat.mod_lt g (show 0 < c by omega)
  omega

/-- A field of the descriptor of group `g`, read from its block of the table. -/
theorem getField_gdTableBlock {g : ℕ} (hbs : g * 32 % bs + 32 ≤ bs) {f : Buf.Field}
    (hf : f.off + f.size ≤ 32) :
    (Buf.clip bs (gdTableBlock bs total (g * 32 / bs))).getField (g * 32 % bs) f =
      (gdTable bs total (groupsCount bs total)).getField (g * gdEntrySize) f := by
  have hdm := Nat.div_add_mod' (g * 32) bs
  rw [Buf.getField, Buf.le_clip _ (by omega), Buf.getField]
  unfold gdTableBlock gdEntrySize
  rw [Buf.le_shift]
  congr 1
  omega

/-! ### The volume -/

/-- The volume `ext4_mkfs` makes, for the geometry it is mounted with. -/
def volume (bs total : ℕ) (geom : SbGeom) : Volume where
  geom
  blockBitmap := blockBitmapAbs bs total
  inodeBitmap := inodeBitmapAbs bs total
  inodeTable := inodeTableAbs bs total

/-- The blocks a new volume uses: its metadata and the root directory. -/
def initialUsed (bs total : ℕ) : Set ℕ := {b | ∃ r : Role, r.Valid bs total ∧ r.pos bs total = b}

/-- The geometry a new volume is mounted with. -/
structure GeomOf (bs total : ℕ) (geom : SbGeom) : Prop where
  sBlockSize : geom.sBlockSize = bs
  sBlocksCount : geom.sBlocksCount = total
  sBlocksPerGroup : geom.sBlocksPerGroup = blocksPerGroup bs total
  sInodesPerGroup : geom.sInodesPerGroup = inodesPerGroup bs total
  sGroupsCount : geom.sGroupsCount = groupsCount bs total
  sDescSize : geom.sDescSize = 32
  sFirstDataBlock : geom.sFirstDataBlock = 0

section Volume

variable {geom : SbGeom} (hgeom : GeomOf bs total geom) (hne : bs ≠ 1024) (hfit : Fits bs total)
  (hbs : 1024 ≤ bs) (hbs' : bs ≤ 65536) (hpow : ∃ k, bs = 2 ^ k) (htotal : total < 2 ^ 32)
  (hg : 0 < groupsCount bs total)

include hgeom hne hbs hbs' htotal hg

/-- The descriptor of group `g` is in block `g * 32 / bs` of the table. -/
theorem GeomOf.desc {g : ℕ} (h : g < groupsCount bs total) :
    (volume bs total geom).descBlock g = 1 + g * 32 / bs ∧
      (volume bs total geom).descOff g = g * 32 % bs ∧ g * 32 / bs < gdBlocks bs total := by
  have hle := groupsCount_le hbs htotal
  have hu : u32 (g * 32) = g * 32 := u32_of_lt (by omega)
  have hlt := descBlock_lt hbs hbs' htotal h
  have hgd : gdBlocks bs total < 2 ^ 22 := gdBlocks_lt hbs
  refine ⟨?_, ?_, hlt⟩
  · simp only [volume, Volume.descBlock, SbGeom.descLoc, Volume.bs, hgeom.sBlockSize, hgeom.sDescSize,
      hgeom.sFirstDataBlock, if_neg hne, hu]
    rw [u32_of_lt (show 0 + 1 < 2 ^ 32 by norm_num), u32_of_lt (by omega)]
  · simp only [volume, Volume.descOff, SbGeom.descLoc, Volume.bs, hgeom.sBlockSize, hgeom.sDescSize, hu]

omit hne hbs hbs' htotal hg in
/-- The volume has the groups that were formatted. -/
theorem GeomOf.groups : (volume bs total geom).groups = groupsCount bs total := hgeom.sGroupsCount

omit hne hbs hbs' htotal hg in
/-- Its superblock is the one of group 0. -/
theorem GeomOf.superBlock_eq :
    (volume bs total geom).superBlock = Role.pos bs total (.superBlock 0) := by
  simp only [Role.pos, sbBlocknr, Volume.superBlock, Volume.bs, volume, hgeom.sBlockSize, if_true]

/-- Its descriptors are in the blocks of group 0. -/
theorem GeomOf.descBlock_eq {g : ℕ} (h : g < groupsCount bs total) :
    ∃ i < gdBlocks bs total,
      (volume bs total geom).descBlock g = Role.pos bs total (.groupDesc 0 i) := by
  obtain ⟨hblk, -, hi⟩ := hgeom.desc hne hbs hbs' htotal hg h
  refine ⟨_, hi, ?_⟩
  rw [hblk]
  simp [Role.pos, gdBlock, firstDataBlock, hne]

omit hne hbs htotal in
/-- Its tables are where they were laid out. -/
theorem GeomOf.inTable_eq {g b : ℕ} (hb : (volume bs total geom).InTable g b) :
    ∃ i < inodeTableBlocks bs total, b = Role.pos bs total (.inodeTable g i) := by
  have htable : (volume bs total geom).tableBlocks = inodeTableBlocks bs total := by
    rw [inodeTableBlocks_eq hbs']
    simp only [volume, Volume.tableBlocks, Volume.bs, hgeom.sBlockSize, hgeom.sInodesPerGroup]
    rfl
  obtain ⟨hlo, hhi⟩ := hb
  rw [htable] at hhi
  simp only [volume] at hlo hhi
  refine ⟨b - inodeTableAbs bs total g, by omega, ?_⟩
  by_cases hz : g = 0
  · subst hz
    simp only [Role.pos, if_true, group0InodeTable, if_neg hg.ne']
    omega
  · simp only [Role.pos, if_neg hz]
    omega

/-- The allocator's metadata, by role. -/
theorem GeomOf.allocMeta_role {b : ℕ} (hb : (volume bs total geom).AllocMeta b) :
    ∃ r : Role, r.Valid bs total ∧ r.pos bs total = b ∧ (∀ g, r ≠ .inodeBitmap g) ∧
      (∀ g i, r ≠ .inodeTable g i) ∧ r ≠ .rootDir := by
  unfold Volume.AllocMeta at hb
  rw [hgeom.groups] at hb
  rcases hb with hb | ⟨g, hlt, hb | hb⟩
  · exact ⟨.superBlock 0, .inl rfl, hb ▸ hgeom.superBlock_eq.symm, by simp, by simp, by simp⟩
  · obtain ⟨i, hi, heq⟩ := hgeom.descBlock_eq hne hbs hbs' htotal hg hlt
    exact ⟨.groupDesc 0 i, ⟨hg, hi⟩, hb ▸ heq.symm, by simp, by simp, by simp⟩
  · exact ⟨.blockBitmap g, hlt, hb.symm, by simp, by simp, by simp⟩

/-- All metadata has a role. -/
theorem GeomOf.isMeta_role {b : ℕ} (hb : (volume bs total geom).IsMeta b) :
    ∃ r : Role, r.Valid bs total ∧ r.pos bs total = b ∧ r ≠ .rootDir := by
  unfold Volume.IsMeta at hb
  rw [hgeom.groups] at hb
  rcases hb with hb | ⟨g, hlt, hb | hb⟩
  · obtain ⟨r, hr, hpos, -, -, hroot⟩ := hgeom.allocMeta_role hne hbs hbs' htotal hg hb
    exact ⟨r, hr, hpos, hroot⟩
  · exact ⟨.inodeBitmap g, hlt, hb.symm, by simp⟩
  · obtain ⟨i, hi, heq⟩ := hgeom.inTable_eq hbs' hg hb
    exact ⟨.inodeTable g i, ⟨hlt, hi⟩, heq.symm, by simp⟩

omit hne hbs hbs' htotal hg in
/-- Its descriptors have 32 bytes. -/
theorem GeomOf.copySz_eq : (volume bs total geom).geom.copySz = 32 := by
  unfold SbGeom.copySz
  rw [show (volume bs total geom).geom.sDescSize = 32 from hgeom.sDescSize]
  decide

include hpow in
/-- Every group has its descriptor inside one block. -/
theorem GeomOf.group {g : ℕ} (hlt : g < groupsCount bs total) : (volume bs total geom).Group g := by
  refine ⟨hgeom.groups.symm ▸ hlt, ?_⟩
  rw [(hgeom.desc hne hbs hbs' htotal hg hlt).2.1, hgeom.copySz_eq,
    show (volume bs total geom).bs = bs from hgeom.sBlockSize]
  exact add_le_of_dvd (dvd_of_pow hbs hpow) (by omega) g

omit hne in
/-- The parts of the allocator's metadata are apart, also where the last group is too short. -/
theorem GeomOf.placed (h : Spaced bs total) {n : ℕ}
    (hlt : ∀ b, (volume bs total geom).AllocMeta b → b < n) : (volume bs total geom).Placed n := by
  have hin : ∀ g, (volume bs total geom).Group g → g < groupsCount bs total := fun g hG ↦
    hgeom.groups ▸ hG.1
  have hinj := fun r r' hr hr' ↦ @Spaced.pos_injective bs total h hg r r' hr hr'
  refine ⟨hlt, fun g hG heq ↦ ?_, fun g hG heq ↦ ?_, fun g hG g' hG' heq ↦ ?_,
    fun g hG g' hG' heq ↦ ?_, fun g hG ↦ ?_⟩
  · obtain ⟨i, hi, hdesc⟩ := hgeom.descBlock_eq h.ne_1024 hbs hbs' htotal hg (hin g hG)
    rw [hgeom.superBlock_eq, hdesc] at heq
    have := hinj (.superBlock 0) (.groupDesc 0 i) (.inl rfl) ⟨hg, hi⟩ heq
    simp at this
  · rw [hgeom.superBlock_eq] at heq
    have := hinj (.blockBitmap g) (.superBlock 0) (hin g hG) (.inl rfl) heq
    simp at this
  · obtain ⟨i, hi, hdesc⟩ := hgeom.descBlock_eq h.ne_1024 hbs hbs' htotal hg (hin g' hG')
    rw [hdesc] at heq
    have := hinj (.blockBitmap g) (.groupDesc 0 i) (hin g hG) ⟨hg, hi⟩ heq
    simp at this
  · have := hinj (.blockBitmap g) (.blockBitmap g') (hin g hG) (hin g' hG') heq
    simpa using this
  · have := (h.bitmaps (hin g hG)).1
    simp only [volume]
    omega

omit hne in
/-- The inode bitmaps are apart from each other and from what the block allocator writes to. -/
theorem GeomOf.inodeBitmap_apart (h : Spaced bs total) {g : ℕ} (hlt : g < groupsCount bs total) :
    ¬ (volume bs total geom).AllocMeta (inodeBitmapAbs bs total g) ∧
      ∀ g' < groupsCount bs total, inodeBitmapAbs bs total g = inodeBitmapAbs bs total g' → g = g' := by
  refine ⟨fun hb ↦ ?_, fun g' hlt' heq ↦ ?_⟩
  · obtain ⟨r, hr, hpos, hne, -⟩ := hgeom.allocMeta_role h.ne_1024 hbs hbs' htotal hg hb
    exact hne g (@Spaced.pos_injective bs total h hg r (.inodeBitmap g) hr hlt hpos)
  · have := @Spaced.pos_injective bs total h hg (.inodeBitmap g) (.inodeBitmap g') hlt hlt' heq
    simpa using this

omit hne in
include hfit hpow in
/-- The layout is one the code can work with. -/
theorem GeomOf.wellFormed : (volume bs total geom).WellFormed := by
  have hwrap := hfit.2.1
  have hper : (volume bs total geom).perGroup = blocksPerGroup bs total := hgeom.sBlocksPerGroup
  have hblocks : (volume bs total geom).blocks = total := hgeom.sBlocksCount
  have hsize : (volume bs total geom).bs = bs := hgeom.sBlockSize
  have hinj := fun r r' hr hr' ↦ @Fits.pos_injective bs total hfit hg r r' hr hr'
  have hcopy := hgeom.copySz_eq
  have htotal0 : 0 < total := by
    have := (hfit.metadata_le hg).2
    unfold metadataBlocks at this
    omega
  -- every block of metadata has a role, and a role has its place in the volume
  have hmeta : ∀ b, (volume bs total geom).IsMeta b → b < total := by
    intro b hb
    obtain ⟨r, hr, rfl, -⟩ := hgeom.isMeta_role hfit.1 hbs hbs' htotal hg hb
    obtain ⟨hlt, hpos, hoff⟩ := hfit.pos_eq hg hr
    have := (hfit.metadata_le hlt).2
    rw [hpos]
    omega
  have hplaced := hgeom.placed hbs hbs' htotal hg hfit.spaced fun b hb ↦ hmeta b (.inl hb)
  have hgroup : ∀ g < (volume bs total geom).groups, (volume bs total geom).Group g := fun g hlt ↦
    hgeom.group hfit.1 hbs hbs' hpow htotal hg (hgeom.groups ▸ hlt)
  constructor
  case bs_pos => rw [hsize]; omega
  case bs_le => rw [hsize]; exact hbs'
  case perGroup_eq =>
    rw [hper, hsize, hblocks]
    unfold blocksPerGroup
    split <;> omega
  case groups_eq =>
    rw [hgeom.groups, hblocks, hper, groupsCount, u32_of_lt hwrap]
  case blocks_pos => rw [hblocks]; exact htotal0
  case no_wrap => rw [hblocks, hper]; exact hwrap
  case meta_lt =>
    rw [hblocks]
    exact hmeta
  case descOff_le => exact fun g hlt ↦ (hgroup g hlt).2
  case copySz_ge => rw [hcopy]
  case copySz_le =>
    rw [hcopy, show (volume bs total geom).geom.sDescSize = 32 from hgeom.sDescSize]
  case descSize_no_wrap =>
    have := groupsCount_le hbs htotal
    rw [hgeom.groups, show (volume bs total geom).geom.sDescSize = 32 from hgeom.sDescSize]
    omega
  case superBlock_ne_desc => exact fun g hlt ↦ hplaced.superBlock_ne_desc g (hgroup g hlt)
  case blockBitmap_ne_super => exact fun g hlt ↦ hplaced.blockBitmap_ne_super g (hgroup g hlt)
  case blockBitmap_ne_desc =>
    exact fun g hlt g' hlt' ↦ hplaced.blockBitmap_ne_desc g (hgroup g hlt) g' (hgroup g' hlt')
  case blockBitmap_inj =>
    exact fun g hlt g' hlt' ↦ hplaced.blockBitmap_inj g (hgroup g hlt) g' (hgroup g' hlt')
  case blockBitmap_pos => exact fun g hlt ↦ hplaced.blockBitmap_pos g (hgroup g hlt)
  case inodeBitmap_not_alloc =>
    exact fun g hlt ↦
      (hgeom.inodeBitmap_apart hbs hbs' htotal hg hfit.spaced (hgeom.groups ▸ hlt)).1
  case inodeBitmap_inj =>
    exact fun g hlt g' hlt' ↦
      (hgeom.inodeBitmap_apart hbs hbs' htotal hg hfit.spaced (hgeom.groups ▸ hlt)).2 g'
        (hgeom.groups ▸ hlt')
  case inTable_not_alloc =>
    intro g hlt b hb hmeta
    rw [hgeom.groups] at hlt
    obtain ⟨i, hi, rfl⟩ := hgeom.inTable_eq hbs' hg hb
    obtain ⟨r, hr, hpos, -, hne, -⟩ := hgeom.allocMeta_role hfit.1 hbs hbs' htotal hg hmeta
    exact hne g i (hinj r (.inodeTable g i) hr ⟨hlt, hi⟩ hpos)
  case inTable_ne_inodeBitmap =>
    intro g hlt g' hlt' hb
    rw [hgeom.groups] at hlt hlt'
    obtain ⟨i, hi, heq⟩ := hgeom.inTable_eq hbs' hg hb
    have := hinj (.inodeBitmap g') (.inodeTable g i) hlt' ⟨hlt, hi⟩ heq
    simp at this
  case inTable_inj =>
    intro g hlt g' hlt' b hb hb'
    rw [hgeom.groups] at hlt hlt'
    obtain ⟨i, hi, heq⟩ := hgeom.inTable_eq hbs' hg hb
    obtain ⟨i', hi', heq'⟩ := hgeom.inTable_eq hbs' hg hb'
    have := hinj (.inodeTable g i) (.inodeTable g' i') ⟨hlt, hi⟩ ⟨hlt', hi'⟩ (heq ▸ heq')
    simp only [Role.inodeTable.injEq] at this
    exact this.1

omit hne hbs hbs' htotal in
include hfit in
/-- Of group `g` exactly the metadata and the root directory are used. -/
theorem GeomOf.mem_initialUsed {g i : ℕ} (h : g < groupsCount bs total)
    (hi : i < (volume bs total geom).groupBlocks g) :
    g * blocksPerGroup bs total + i ∈ initialUsed bs total ↔ i < metadataBlocks bs total g := by
  have hper : (volume bs total geom).perGroup = blocksPerGroup bs total := hgeom.sBlocksPerGroup
  have hlt : i < blocksPerGroup bs total := by
    rw [← hper]
    exact lt_of_lt_of_le hi (Nat.min_le_left _ _)
  constructor
  · rintro ⟨r, hr, hpos⟩
    obtain ⟨hlt', heq, hoff⟩ := hfit.pos_eq hg hr
    have hroom := (hfit.metadata_le hlt').1
    rw [heq] at hpos
    have hgroup : r.group = g := by
      have h₁ := congrArg (· / blocksPerGroup bs total) hpos
      simp only [Nat.mul_comm _ (blocksPerGroup bs total)] at h₁
      rwa [Nat.mul_add_div (by omega), Nat.mul_add_div (by omega), Nat.div_eq_of_lt (by omega),
        Nat.div_eq_of_lt hlt, Nat.add_zero, Nat.add_zero] at h₁
    rw [hgroup] at hpos hoff
    omega
  · intro hmeta
    obtain ⟨r, hr, rfl, rfl⟩ := exists_role_of_lt_metadataBlocks h hmeta
    exact ⟨r, hr, (hfit.pos_eq hg hr).2.1⟩

/-- The descriptors of a new volume, where the filesystem finds them. -/
theorem GeomOf.getField_desc_table {fs : Fs} {g : ℕ} (h : g < groupsCount bs total)
    (hblockSize : fs.blockSize = bs) (hsbi : fs.sbi.toSbGeom = geom)
    (htable : ∀ i < gdBlocks bs total,
      fs.block (Role.pos bs total (.groupDesc 0 i)) = Buf.clip bs (gdTableBlock bs total i))
    {f : Buf.Field} (hsize : f.off + f.size ≤ 32) (h32 : g * 32 % bs + 32 ≤ bs) :
    (fs.desc g).getField 0 f =
      (gdTable bs total (groupsCount bs total)).getField (g * gdEntrySize) f := by
  obtain ⟨hblk, hoff, hi⟩ := hgeom.desc hne hbs hbs' htotal hg h
  have hloc : fs.sbi.descLoc fs.blockSize g = (1 + g * 32 / bs, g * 32 % bs) := by
    rw [← hblk, ← hoff]
    show fs.sbi.toSbGeom.descLoc _ _ = _
    rw [hblockSize, hsbi]
    simp only [volume, Volume.descBlock, Volume.descOff, Volume.bs, hgeom.sBlockSize]
  have hcopy : fs.sbi.copySz = 32 := by
    show fs.sbi.toSbGeom.copySz = 32
    rw [hsbi, SbGeom.copySz, hgeom.sDescSize]
    decide
  have hpos : 1 + g * 32 / bs = Role.pos bs total (.groupDesc 0 (g * 32 / bs)) := by
    simp [Role.pos, gdBlock, firstDataBlock, hne]
  have hread := @getField_gdTableBlock bs total g h32 f hsize
  rw [Fs.desc, hloc, hcopy, hpos, htable _ hi, Buf.getField, Buf.le_blit_in (by omega) (by omega),
    ← hread, Buf.getField]
  congr 1
  omega

/-- Its descriptors are those that were written. -/
theorem GeomOf.getField_desc {fs : Fs} {g : ℕ} (h : g < groupsCount bs total)
    (hblockSize : fs.blockSize = bs) (hsbi : fs.sbi.toSbGeom = geom)
    (htable : ∀ i < gdBlocks bs total,
      fs.block (Role.pos bs total (.groupDesc 0 i)) = Buf.clip bs (gdTableBlock bs total i))
    {f : Buf.Field} {v : ℕ} (hf : (f, v) ∈ descFields bs total g) (h32 : g * 32 % bs + 32 ≤ bs) :
    (fs.desc g).getField 0 f = v := by
  rw [hgeom.getField_desc_table hne hbs hbs' htotal hg h hblockSize hsbi htable
    (size_le_of_mem_descFields hf) h32, getField_gdTable h hf]

end Volume

/-! ### Mounting -/

/-- The blocks of descriptors are among what is written. -/
theorem mem_writes_groupDesc {now : ℕ} {sb : Buf} {i : ℕ} (h : i < gdBlocks bs total) :
    (gdBlock bs + i, gdTableBlock bs total i) ∈ writes bs total now sb := by
  simp only [writes, List.mem_append, List.mem_flatMap, List.mem_range'_1]
  exact .inr (.inl ⟨i, by omega, by simp⟩)

section FillSuper

variable {buf : Buf}
  (hfields : ∀ f v, (f, v) ∈ superFields 4096 total 2 → buf.getField 1024 f = v % 256 ^ f.size)
  (htotal : total < 2 ^ 32)

include hfields

/-- A field whose value is in range reads back. -/
theorem getField_of_superFields {f : Buf.Field} {v : ℕ} (h : (f, v) ∈ superFields 4096 total 2)
    (hv : v < 256 ^ f.size) : buf.getField 1024 f = v := by
  rw [hfields f v h, Nat.mod_eq_of_lt hv]

/-- A superblock that has its magic is not formatted over. -/
theorem readSuper_eq {now : ℕ} {d : BlockDevice}
    (hread : ext4ReadBlock 4096 0 d = (some buf, d)) :
    FillSuper.readSuper now d = (some buf, d) := by
  have hmagic : buf.getField 1024 Esb.sMagic = ext4SuperMagic :=
    getField_of_superFields hfields (by simp [superFields]) (by decide)
  rw [FillSuper.readSuper, bind_of_eq_some (show ext4ReadBlock blockSizeDefault 0 d = _ from hread),
    if_neg (not_not_intro hmagic), pure_apply]

/-- The geometry of a superblock with the fields of a new volume. -/
theorem geomOf_geometry (hpos : 0 < total) : GeomOf 4096 total (FillSuper.geometry buf total) := by
  have hbpg := blocksPerGroup_le 4096 total
  have hbpgpos : 0 < blocksPerGroup 4096 total := by
    unfold blocksPerGroup
    split <;> omega
  have hlog : FillSuper.blockSize buf = 4096 := by
    rw [FillSuper.blockSize,
      getField_of_superFields hfields (v := 2) (by simp [superFields]) (by decide)]
    decide
  have hper : FillSuper.blocksPerGroup buf (FillSuper.blockSize buf) total =
      blocksPerGroup 4096 total := by
    rw [FillSuper.blocksPerGroup,
      getField_of_superFields hfields (v := blocksPerGroup 4096 total) (by simp [superFields])
        (by simp only [Esb.sBlocksPerGroup]; omega), if_pos hbpgpos.ne']
  have hinodes : FillSuper.inodesPerGroup buf (blocksPerGroup 4096 total) =
      inodesPerGroup 4096 total := by
    have hne : inodesPerGroup 4096 total ≠ 0 := hbpgpos.ne'
    rw [FillSuper.inodesPerGroup,
      getField_of_superFields hfields (v := inodesPerGroup 4096 total) (by simp [superFields])
        (by simp only [Esb.sInodesPerGroup, inodesPerGroup]; omega), if_pos hne]
  refine ⟨hlog, rfl, hper, ?_, ?_, ?_, ?_⟩
  · simp only [FillSuper.geometry, hper, hinodes]
  · simp only [FillSuper.geometry, hper, groupsCount]
  · show FillSuper.descSize buf = 32
    rw [FillSuper.descSize,
      getField_of_superFields hfields (v := 32) (by simp [superFields, gdEntrySize]) (by decide)]
    decide
  · exact getField_of_superFields hfields (by simp [superFields, firstDataBlock]) (by decide)

include htotal in
/-- What mounting keeps of a superblock with the fields of a new volume. -/
theorem geomOf_of_fillSuper {now n : ℕ} {d d' : BlockDevice} {sbi : SbInfo} (hpos : 0 < total)
    (hd : d.Usable 4096 n) (hn : 1 < n) (hg : 0 < groupsCount 4096 total)
    (hread : ext4ReadBlock 4096 0 d = (some buf, d))
    (hrun : ext4FillSuper now d = (some sbi, d')) :
    GeomOf 4096 total sbi.toSbGeom ∧ d' = d ∧ sbi.sGroupDesc.isSome ∧
      sbi.sBmapCacheValid = false := by
  have hgeom := geomOf_geometry hfields hpos
  have hcount : FillSuper.blocksCount buf (FillSuper.blockSize buf) d = some total := by
    rw [FillSuper.blocksCount,
      getField_of_superFields hfields (v := total) (by simp [superFields])
        (by simpa [Esb.sBlocksCountLo] using htotal), if_pos hpos.ne']
  have hblock : u32 (0 + 1) < n := lt_of_eq_of_lt (by decide) hn
  have hgroups : (FillSuper.geometry buf total).sGroupsCount > 0 := by rw [hgeom.sGroupsCount]; exact hg
  have hdesc : ∃ gd, FillSuper.readGroupDesc0 (FillSuper.geometry buf total) buf d =
      (some (some gd), d) := by
    rw [FillSuper.readGroupDesc0, if_pos hgroups, hgeom.sBlockSize, hgeom.sFirstDataBlock,
      if_neg (by decide), bind_of_eq_some (hd.read hblock)]
    exact ⟨_, rfl⟩
  obtain ⟨gd, hdesc⟩ := hdesc
  rw [ext4FillSuper, bind_of_eq_some (readSuper_eq hfields hread), guard_bind_eq_some_iff, get_bind,
    hcount, ofOption_some, pure_bind', guard_bind_eq_some_iff, bind_of_eq_some hdesc, pure_apply]
    at hrun
  obtain ⟨rfl, rfl⟩ : _ = sbi ∧ _ = d' := by simpa using hrun.2.2
  exact ⟨hgeom, rfl, rfl, rfl⟩

end FillSuper

theorem log_eq_two {log : ℕ} (h : ext4BlockSizeToLog 4096 = some log) : log = 2 := by
  have hlog : ext4BlockSizeToLog 4096 = some 2 := by decide
  rw [hlog] at h
  exact (Option.some.inj h).symm

/-- **A new volume of 4096-byte blocks that fits mounts as its layout says.** -/
theorem mounted_of_mkfs (bgSyncBatch preallocGoalLen : ℕ) {now now' : ℕ} {d d₁ d₂ : BlockDevice}
    {sbi : SbInfo} (hd : d.Usable 4096 total) (htotal : total < 2 ^ 32) (hfit : Fits 4096 total)
    (hmkfs : ext4Mkfs now 4096 total d = (some (), d₁))
    (hmount : ext4FillSuper now' d₁ = (some sbi, d₂)) :
    GeomOf 4096 total sbi.toSbGeom ∧
      (volume 4096 total sbi.toSbGeom).Mounted (initialUsed 4096 total)
        (Fs.ofMount d₂ sbi bgSyncBatch preallocGoalLen) := by
  obtain ⟨log, hlog, hbpg, htable⟩ := checks_of_ext4Mkfs hmkfs
  obtain rfl := log_eq_two hlog
  have hbs : 1024 ≤ 4096 := by norm_num
  have hbs' : 4096 ≤ 65536 := by norm_num
  have hbpgpos := Nat.pos_of_ne_zero hbpg
  have hle := blocksPerGroup_le 4096 total
  have hg : 0 < groupsCount 4096 total := by
    rw [groupsCount, u32_of_lt hfit.2.1]
    exact Nat.div_pos (by omega) hbpgpos
  have hit : 0 < inodeTableBlocks 4096 total := inodeTableBlocks_pos hbs hbs' hbpgpos
  set sb := writtenSuper 4096 total 2 now d
  obtain rfl : d₁ = putAll 4096 (writes 4096 total now sb) d := congrArg Prod.snd
    (hmkfs.symm.trans (ext4Mkfs_of_writes_lt hd hlog hbpg htable fun w hw ↦ hfit.writes_lt hg hit hw))
  set d₁ := putAll 4096 (writes 4096 total now sb) d with hd₁
  have husable : d₁.Usable 4096 total := Usable.putAll _ hd
  -- the superblock reads back as it was written
  have hsuper : d₁.block 4096 0 = Buf.clip 4096 sb :=
    hfit.spaced.block_written hg hit (r := .superBlock 0) (.inl rfl)
      (by simp [writes, content, Role.pos])
  have hfields : ∀ f v, (f, v) ∈ superFields 4096 total 2 →
      (d₁.block 4096 0).getField 1024 f = v % 256 ^ f.size := by
    intro f v hf
    rw [hsuper, Buf.getField, Buf.le_clip]
    · exact getField_superBlock hf
    · simp only [superFields, List.mem_cons, Prod.mk.injEq, List.not_mem_nil, or_false] at hf
      rcases hf with ⟨rfl, -⟩ | ⟨rfl, -⟩ | ⟨rfl, -⟩ | ⟨rfl, -⟩ | ⟨rfl, -⟩ | ⟨rfl, -⟩ | ⟨rfl, -⟩ |
        ⟨rfl, -⟩ <;> decide
  have htone : 1 < total := by
    have hroom := (hfit.metadata_le hg).2
    unfold metadataBlocks at hroom
    omega
  obtain ⟨hgeom, rfl, hdesc0, hcache⟩ := geomOf_of_fillSuper hfields htotal (by omega) husable
    htone hg (husable.read (by omega)) hmount
  refine ⟨hgeom, ?_⟩
  set fs := Fs.ofMount d₁ sbi bgSyncBatch preallocGoalLen with hfs
  have hsize : fs.blockSize = 4096 := hgeom.sBlockSize
  have hblock : ∀ b, fs.block b = d₁.block 4096 b := by
    intro b
    rw [Fs.block, hsize, hfs, Fs.ofMount]
  have htable : ∀ i < gdBlocks 4096 total,
      fs.block (Role.pos 4096 total (.groupDesc 0 i)) = Buf.clip 4096 (gdTableBlock 4096 total i) := by
    intro i hi
    rw [hblock]
    exact hfit.spaced.block_written hg hit (r := .groupDesc 0 i) ⟨hg, hi⟩
      (by simpa [Role.pos, content] using mem_writes_groupDesc hi)
  have hdesc : ∀ g < sbi.sGroupsCount, ∀ f v, (f, v) ∈ descFields 4096 total g →
      (fs.desc g).getField 0 f = v := by
    intro g h f v hf
    rw [hgeom.sGroupsCount] at h
    exact hgeom.getField_desc hfit.1 hbs hbs' htotal hg h hsize rfl htable hf (by omega)
  refine ⟨⟨hgeom.wellFormed hfit hbs hbs' ⟨12, rfl⟩ htotal hg, ?usable, rfl, rfl, rfl, hdesc0,
    fun g h ↦ hdesc g h _ _ (by simp [descFields, volume]),
    fun g h ↦ hdesc g h _ _ (by simp [descFields, volume]),
    fun g h ↦ hdesc g h _ _ (by simp [descFields, volume]), ?bits, ?used⟩, ?cache⟩
  case usable =>
    rw [Fs.Usable, hsize, show (volume 4096 total sbi.toSbGeom).blocks = total from
      hgeom.sBlocksCount]
    exact husable
  case bits =>
    intro g h i hi
    replace h : g < groupsCount 4096 total := hgeom.sGroupsCount ▸ h
    have hblocks : (volume 4096 total sbi.toSbGeom).groupBlocks g = groupBlocks 4096 total g := by
      rw [groupBlocks_eq hfit.2.1 h, Volume.groupBlocks,
        show (volume 4096 total sbi.toSbGeom).perGroup = _ from hgeom.sBlocksPerGroup,
        show (volume 4096 total sbi.toSbGeom).blocks = _ from hgeom.sBlocksCount]
    have hbitmap : d₁.block 4096 (blockBitmapAbs 4096 total g) =
        Buf.clip 4096 (blockBitmap 4096 total g) :=
      hfit.spaced.block_written hg hit (r := .blockBitmap g) h (mem_writes_blockBitmap 4096 total h)
    have hend := (hfit.groupBlocks_le h).1
    rw [show (volume 4096 total sbi.toSbGeom).perGroup = blocksPerGroup 4096 total from
      hgeom.sBlocksPerGroup, hgeom.mem_initialUsed hfit hg h hi, hblock]
    show (d₁.block 4096 (blockBitmapAbs 4096 total g)).bit i = true ↔ _
    rw [hbitmap, hfit.bit_blockBitmap h (by omega), decide_eq_true_eq]
    omega
  case used =>
    intro b hb
    obtain ⟨r, hr, hpos, -⟩ := hgeom.isMeta_role hfit.1 hbs hbs' htotal hg hb
    exact ⟨r, hr, hpos⟩
  case cache =>
    intro hvalid
    exact absurd hvalid (by simp [hfs, Fs.ofMount, hcache])

/-! ### A small volume -/

/-- A volume of 64 blocks, right after it was formatted. -/
def smallDisk : BlockDevice := (ext4Mkfs 0 4096 64 (BlockDevice.blank 512 512)).2

/-- A small volume, formatted. -/
theorem mkfs_small : ext4Mkfs 0 4096 64 (BlockDevice.blank 512 512) = (some (), smallDisk) :=
  eq_of_fst_eq (by decide +kernel)

/-- It mounts. -/
theorem fillSuper_small : (ext4FillSuper 0 smallDisk).1.isSome = true := by decide +kernel

/-- The superblock info of the small volume. -/
def smallSb : SbInfo := (ext4FillSuper 0 smallDisk).1.get fillSuper_small

theorem fillSuper_small_eq :
    ext4FillSuper 0 smallDisk = (some smallSb, (ext4FillSuper 0 smallDisk).2) :=
  eq_of_fst_eq (Option.some_get _).symm

/-- The small volume mounted. -/
def smallFs : Fs := Fs.ofMount (ext4FillSuper 0 smallDisk).2 smallSb 32 32

/-- Its metadata fits. -/
theorem fits_small : Fits 4096 64 := by
  refine ⟨by norm_num, by decide, fun g hg ↦ ?_⟩
  obtain rfl : g = 0 := Nat.lt_one_iff.1 hg
  decide

/-- It is mounted with the blocks of its metadata in use. -/
theorem mounted_small : GeomOf 4096 64 smallSb.toSbGeom ∧
    (volume 4096 64 smallSb.toSbGeom).Mounted (initialUsed 4096 64) smallFs :=
  mounted_of_mkfs 32 32 (BlockDevice.holds_blank 512 8 64 (by norm_num) (by norm_num)).1 (by norm_num)
    fits_small mkfs_small fillSuper_small_eq

/-- The metadata of the small volume and its root directory are the blocks below 9. -/
theorem not_isMeta_small {b : ℕ} (h : 9 ≤ b) (h' : b < 64) :
    ¬ (volume 4096 64 smallSb.toSbGeom).IsMeta b := by
  obtain ⟨hgeom, hmounted⟩ := mounted_small
  intro hmeta
  have hgroup : b < (volume 4096 64 smallSb.toSbGeom).groupBlocks 0 := by
    rw [Volume.groupBlocks, show (volume 4096 64 smallSb.toSbGeom).perGroup = _ from
      hgeom.sBlocksPerGroup, show (volume 4096 64 smallSb.toSbGeom).blocks = _ from hgeom.sBlocksCount]
    exact lt_of_lt_of_eq h' (by decide)
  have hmem := hgeom.mem_initialUsed fits_small (by decide) (by decide) hgroup
  rw [Nat.zero_mul, Nat.zero_add] at hmem
  have hlt : b < 9 := lt_of_lt_of_eq (hmem.1 (hmounted.meta_used b hmeta)) (by decide)
  omega

end Mkfs

end MiniExt4
