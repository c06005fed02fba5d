import MiniExt4.Ext4.MkfsMount
import MiniExt4.Machine.BitCount

/-!
# The counters of a new volume

`ext4_mkfs` computes the free counts of the superblock, those of the descriptors and the bitmaps by
three formulas. Descriptors and bitmaps agree unless 16 bits are too few. The count of the superblock
leaves out the blocks that are reserved and counts the metadata of the first group only, so it agrees
with the descriptors on volumes of fewer than 20 blocks and where the two differences cancel.

The three formulas are compared as formulas first, in arithmetic without a device
(`formulasAgree_iff_balanced`); that the device has these numbers is the other half, by the layout of
`MkfsLayout`, and for 1024-byte blocks, where the roles collide, by what was written last.
-/

namespace MiniExt4

open StateErr

namespace Mkfs

variable (bs total : ℕ)

/-- A field of the superblock on the device. -/
def diskSuper (d : BlockDevice) (f : Buf.Field) : ℕ :=
  (d.block bs (sbBlocknr bs)).getField (sbOffset bs) f

/-- A field of the descriptor of group `g` on the device. -/
def diskDesc (d : BlockDevice) (g : ℕ) (f : Buf.Field) : ℕ :=
  (d.block bs (gdBlock bs + g * gdEntrySize / bs)).getField (g * gdEntrySize % bs) f

/-- The counters agree: the superblock with the descriptors, the descriptors with the bitmaps. -/
structure CountersAgree (d : BlockDevice) : Prop where
  freeBlocks : diskSuper bs d Esb.sFreeBlocksCountLo + diskSuper bs d Esb.sFreeBlocksCountHi * 2 ^ 32 =
    ∑ g ∈ Finset.range (groupsCount bs total), diskDesc bs d g Gd.bgFreeBlocksCountLo
  freeInodes : diskSuper bs d Esb.sFreeInodesCount =
    ∑ g ∈ Finset.range (groupsCount bs total), diskDesc bs d g Gd.bgFreeInodesCountLo
  blockBits : ∀ g < groupsCount bs total, diskDesc bs d g Gd.bgFreeBlocksCountLo =
    (d.block bs (blockBitmapAbs bs total g)).clearBits (groupBlocks bs total g)
  inodeBits : ∀ g < groupsCount bs total, diskDesc bs d g Gd.bgFreeInodesCountLo =
    (d.block bs (inodeBitmapAbs bs total g)).clearBits (inodesPerGroup bs total)

/-- The volumes on which the counters agree: never with 1024-byte blocks; where the number of groups
wraps to none; where no blocks are reserved; and where the reserved blocks are by chance as many as
the metadata of the other groups. -/
def Balanced : Prop :=
  bs ≠ 1024 ∧ (2 ^ 32 < total + bs * 8 ∨ total < 20 ∨ bs = 2048 ∧ total = 17246 ∨
    bs = 4096 ∧ (total = 34492 ∨ 41040 ≤ total ∧ total ≤ 41059 ∨ total = 66825 ∨
      82080 ≤ total ∧ total ≤ 82099 ∨ total = 99157 ∨ 123120 ≤ total ∧ total ≤ 123139 ∨
      total = 131490))

variable {bs total}

/-! ### What is written -/

/-- The counters of the superblock. -/
def superCounts (bs total : ℕ) : List (Buf.Field × ℕ) :=
  [(Esb.sFreeInodesCount, u32 (u32 (groupsCount bs total * inodesPerGroup bs total) + 2 ^ 32 -
      reservedInodesG0 bs total)),
    (Esb.sFreeBlocksCountHi, 0), (Esb.sFreeBlocksCountLo, freeBlocksCount bs total)]

theorem getField_superBlock_of_superCounts {log now : ℕ} {buf : Buf} {o : ℕ} {f : Buf.Field} {v : ℕ}
    (h : (f, v) ∈ superCounts bs total) :
    (superBlock bs total log now buf o).getField o f = v % 256 ^ f.size := by
  simp only [superCounts, List.mem_cons, Prod.mk.injEq, List.not_mem_nil, or_false] at h
  unfold superBlock
  rcases h with ⟨rfl, rfl⟩ | ⟨rfl, rfl⟩ | ⟨rfl, rfl⟩ <;>
  simp (disch := decide) only [Buf.getField_setField_of_disjoint, Buf.getField_setField_self,
    Buf.getField_clear_of_disjoint, Buf.getField_foldl_putLe]

/-- The free inodes of a group, before they are cut to 16 bits. -/
def freeInodes (bs total g : ℕ) : ℕ :=
  inodesPerGroup bs total - (if g = 0 then reservedInodesG0 bs total else 0)

/-- The counters of a descriptor. -/
def descCounts (bs total g : ℕ) : List (Buf.Field × ℕ) :=
  [(Gd.bgFreeBlocksCountLo, u16 (groupBlocks bs total g - usedBlocks bs total g)),
    (Gd.bgFreeInodesCountLo, u16 (freeInodes bs total g))]

theorem getField_gdTable_of_descCounts {n g : ℕ} (hg : g < n) {f : Buf.Field} {v : ℕ}
    (h : (f, v) ∈ descCounts bs total g) :
    (gdTable bs total n).getField (g * gdEntrySize) f = v := by
  have hinodes : u16 (if g = 0 then inodesPerGroup bs total - reservedInodesG0 bs total
      else inodesPerGroup bs total) = u16 (freeInodes bs total g) := by
    unfold freeInodes
    split <;> simp
  simp only [descCounts, List.mem_cons, Prod.mk.injEq, List.not_mem_nil, or_false] at h
  rcases h with ⟨rfl, rfl⟩ | ⟨rfl, rfl⟩ <;>
  refine getField_gdTable_of_self hg (by decide) fun table ↦ ?_ <;>
  unfold groupDesc <;>
  simp (disch := decide) only [Buf.getField_setField_of_disjoint, Buf.getField_setField_self]
  · exact Nat.mod_eq_of_lt (u16_lt _)
  · rw [hinodes]
    exact Nat.mod_eq_of_lt (u16_lt _)

theorem clearBits_blockBitmap {g : ℕ} (h : groupBlocks bs total g ≤ bs * 8) :
    (Buf.clip bs (blockBitmap bs total g)).clearBits (groupBlocks bs total g) =
      groupBlocks bs total g - usedBlocks bs total g :=
  Buf.clearBits_of_prefix fun i hi ↦ by
    rw [bit_blockBitmap (by omega)]
    exact decide_eq_decide.2 (by omega)

theorem clearBits_inodeBitmap {g : ℕ} :
    (Buf.clip bs (inodeBitmap bs total g)).clearBits (inodesPerGroup bs total) =
      freeInodes bs total g := by
  have hle : inodesPerGroup bs total ≤ bs * 8 := (blocksPerGroup_le bs total).2
  rw [Buf.clearBits_of_prefix (k := if g = 0 then reservedInodesG0 bs total else 0)
    fun i hi ↦ ?_, freeInodes]
  rw [bit_inodeBitmap (by omega)]
  refine decide_eq_decide.2 ?_
  split <;> omega

/-! ### The counters on the device -/

/-- The formulas of the three counters agree. -/
def FormulasAgree (bs total : ℕ) : Prop :=
  freeBlocksCount bs total % 2 ^ 32 = ∑ g ∈ Finset.range (groupsCount bs total),
    u16 (groupBlocks bs total g - usedBlocks bs total g) ∧
  u32 (u32 (groupsCount bs total * inodesPerGroup bs total) + 2 ^ 32 - reservedInodesG0 bs total) =
    ∑ g ∈ Finset.range (groupsCount bs total), u16 (freeInodes bs total g) ∧
  ∀ g < groupsCount bs total,
    groupBlocks bs total g - usedBlocks bs total g < 2 ^ 16 ∧ freeInodes bs total g < 2 ^ 16

section Spaced

variable (h : Spaced bs total) (hbs : 1024 ≤ bs) (hbs' : bs ≤ 65536) (hpow : ∃ k, bs = 2 ^ k)
  (htotal : total < 2 ^ 32) (hg : 0 < groupsCount bs total)
  (hit : 0 < inodeTableBlocks bs total) {now log : ℕ} {buf : Buf} {d : BlockDevice}

include h hg hit

theorem Spaced.diskSuper_eq {f : Buf.Field} {v : ℕ} (hf : (f, v) ∈ superCounts bs total)
    (hsize : sbOffset bs + f.off + f.size ≤ bs) :
    diskSuper bs (putAll bs (writes bs total now (superBlock bs total log now buf (sbOffset bs))) d)
      f = v % 256 ^ f.size := by
  have hblock : (putAll bs (writes bs total now (superBlock bs total log now buf (sbOffset bs)))
      d).block bs (sbBlocknr bs) = Buf.clip bs (superBlock bs total log now buf (sbOffset bs)) :=
    h.block_written hg hit (r := .superBlock 0) (.inl rfl) (sbBlocknr_mem_writes bs total now _)
  rw [diskSuper, hblock, Buf.getField, Buf.le_clip _ hsize, ← getField_superBlock_of_superCounts hf,
    Buf.getField]

include hbs hbs' hpow htotal

theorem Spaced.diskDesc_eq {g : ℕ} (hlt : g < groupsCount bs total) {sb : Buf} {f : Buf.Field}
    {v : ℕ} (hf : (f, v) ∈ descCounts bs total g) :
    diskDesc bs (putAll bs (writes bs total now sb) d) g f = v := by
  have hi := descBlock_lt hbs hbs' htotal hlt
  have hblock : (putAll bs (writes bs total now sb) d).block bs (gdBlock bs + g * 32 / bs) =
      Buf.clip bs (gdTableBlock bs total (g * 32 / bs)) :=
    h.block_written hg hit (r := .groupDesc 0 (g * 32 / bs)) ⟨hg, hi⟩ (mem_writes_groupDesc hi)
  have hsize : f.off + f.size ≤ 32 := by
    simp only [descCounts, List.mem_cons, Prod.mk.injEq, List.not_mem_nil, or_false] at hf
    rcases hf with ⟨rfl, -⟩ | ⟨rfl, -⟩ <;> decide
  rw [diskDesc, gdEntrySize, hblock,
    getField_gdTableBlock (add_le_of_dvd (dvd_of_pow hbs hpow) (by omega) g) hsize,
    getField_gdTable_of_descCounts hlt hf]

/-- On the device every count is what its own formula gives. -/
theorem Spaced.countersAgree_iff (hsize : sbOffset bs + 1024 ≤ bs) :
    CountersAgree bs total
        (putAll bs (writes bs total now (superBlock bs total log now buf (sbOffset bs))) d) ↔
      FormulasAgree bs total := by
  set sb := superBlock bs total log now buf (sbOffset bs) with hsb
  have hblocks : ∀ g < groupsCount bs total,
      diskDesc bs (putAll bs (writes bs total now sb) d) g Gd.bgFreeBlocksCountLo =
        u16 (groupBlocks bs total g - usedBlocks bs total g) := fun g hlt ↦
    h.diskDesc_eq hbs hbs' hpow htotal hg hit hlt (by simp [descCounts])
  have hinodes : ∀ g < groupsCount bs total,
      diskDesc bs (putAll bs (writes bs total now sb) d) g Gd.bgFreeInodesCountLo =
        u16 (freeInodes bs total g) := fun g hlt ↦
    h.diskDesc_eq hbs hbs' hpow htotal hg hit hlt (by simp [descCounts])
  have hbb : ∀ g < groupsCount bs total,
      ((putAll bs (writes bs total now sb) d).block bs (blockBitmapAbs bs total g)).clearBits
        (groupBlocks bs total g) = groupBlocks bs total g - usedBlocks bs total g := by
    intro g hlt
    have hle : groupBlocks bs total g ≤ bs * 8 := by
      rw [groupBlocks_eq h.no_wrap hlt]
      exact (Nat.min_le_left _ _).trans (blocksPerGroup_le bs total).2
    rw [show (putAll bs (writes bs total now sb) d).block bs (blockBitmapAbs bs total g) = _ from
      h.block_written hg hit (r := .blockBitmap g) hlt (mem_writes_blockBitmap bs total hlt)]
    exact clearBits_blockBitmap hle
  have hib : ∀ g < groupsCount bs total,
      ((putAll bs (writes bs total now sb) d).block bs (inodeBitmapAbs bs total g)).clearBits
        (inodesPerGroup bs total) = freeInodes bs total g := by
    intro g hlt
    rw [show (putAll bs (writes bs total now sb) d).block bs (inodeBitmapAbs bs total g) = _ from
      h.block_written hg hit (r := .inodeBitmap g) hlt (mem_writes_inodeBitmap bs total hlt)]
    exact clearBits_inodeBitmap
  have hsuper : ∀ f v, (f, v) ∈ superCounts bs total →
      diskSuper bs (putAll bs (writes bs total now sb) d) f = v % 256 ^ f.size := by
    intro f v hf
    refine h.diskSuper_eq hg hit hf ?_
    have : f.off + f.size ≤ 1024 := by
      simp only [superCounts, List.mem_cons, Prod.mk.injEq, List.not_mem_nil, or_false] at hf
      rcases hf with ⟨rfl, -⟩ | ⟨rfl, -⟩ | ⟨rfl, -⟩ <;> decide
    omega
  -- the sums over the groups are those of the formulas
  have hsumBlocks := Finset.sum_congr rfl fun g hmem ↦ hblocks g (Finset.mem_range.1 hmem)
  have hsumInodes := Finset.sum_congr rfl fun g hmem ↦ hinodes g (Finset.mem_range.1 hmem)
  have hlo : diskSuper bs (putAll bs (writes bs total now sb) d) Esb.sFreeBlocksCountLo =
      freeBlocksCount bs total % 2 ^ 32 := hsuper _ _ (by simp [superCounts])
  have hhi := hsuper Esb.sFreeBlocksCountHi 0 (by simp [superCounts])
  have hino := hsuper Esb.sFreeInodesCount _ List.mem_cons_self
  have hmod : ∀ n, u16 n = n ↔ n < 2 ^ 16 := fun n ↦ Nat.mod_eq_iff_lt (by norm_num)
  constructor
  · rintro ⟨hfb, hfi, hb, hi⟩
    rw [hsumBlocks, hlo, hhi] at hfb
    rw [hsumInodes, hino] at hfi
    refine ⟨by simpa using hfb, ?_, fun g hlt ↦ ⟨?_, ?_⟩⟩
    · rw [← hfi]
      exact (Nat.mod_eq_of_lt (u32_lt _)).symm
    · rw [← hmod, ← hblocks g hlt, hb g hlt, hbb g hlt]
    · rw [← hmod, ← hinodes g hlt, hi g hlt, hib g hlt]
  · rintro ⟨hfb, hfi, hrange⟩
    refine ⟨?_, ?_, fun g hlt ↦ ?_, fun g hlt ↦ ?_⟩
    · rw [hsumBlocks, hlo, hhi]
      simpa using hfb
    · rw [hsumInodes, hino, ← hfi]
      exact Nat.mod_eq_of_lt (u32_lt _)
    · rw [hblocks g hlt, hbb g hlt, (hmod _).2 (hrange g hlt).1]
    · rw [hinodes g hlt, hib g hlt, (hmod _).2 (hrange g hlt).2]

end Spaced

/-! ### When the formulas agree -/

theorem gdBlocks_of_groupsCount_le (hbs : 1024 ≤ bs) (hbs' : bs ≤ 65536) (htotal : total < 2 ^ 32)
    (hg : 0 < groupsCount bs total) (hle : groupsCount bs total ≤ 32) : gdBlocks bs total = 1 := by
  rw [gdBlocks_eq hbs hbs' htotal, gdEntrySize]
  exact Nat.div_eq_of_lt_le (by omega) (by omega)

theorem reservedInodesG0_le (bs total : ℕ) : reservedInodesG0 bs total ≤ inodesPerGroup bs total := by
  unfold reservedInodesG0
  split
  · omega
  · split <;> omega

/-- With one group the superblock falls short by the reserved blocks. -/
theorem formulasAgree_iff_of_le (hbs : 1024 ≤ bs) (hbs' : bs ≤ 65536) (hne : bs ≠ 1024)
    (hpow : ∃ k, bs = 2 ^ k) (hpos : 0 < total) (hle : total ≤ bs * 8) :
    FormulasAgree bs total ↔ total < 20 := by
  have htotal : total < 2 ^ 32 := by omega
  have hone := groupsCount_eq_one hpos hle hbs'
  have hgd := gdBlocks_of_groupsCount_le hbs hbs' htotal (by omega) (by omega)
  have hbpg : blocksPerGroup bs total = total := if_pos hle
  have hipg : inodesPerGroup bs total = total := hbpg
  have hres := reservedInodesG0_le bs total
  rw [hipg] at hres
  have hblocks : groupBlocks bs total 0 = total := by
    rw [groupBlocks_eq (by rw [hbpg]; omega) (by omega), hbpg]
    omega
  -- one group has all of the metadata
  have hused : usedBlocks bs total 0 = min (5 + inodeTableBlocks bs total) total := by
    rw [usedBlocks, hblocks, metadataBlocks, hgd]
    simp only [if_true]
    split <;> omega
  have hfree : freeBlocksCount bs total =
      total - min (5 + inodeTableBlocks bs total) total - total / 20 := by
    simp only [freeBlocksCount, hbpg, hone, if_neg hne, if_true]
    split <;> split <;> omega
  have hinodes : freeInodes bs total 0 = total - reservedInodesG0 bs total := by
    rw [freeInodes, hipg, if_pos rfl]
  have hsum : u32 (u32 (1 * total) + 2 ^ 32 - reservedInodesG0 bs total) =
      total - reservedInodesG0 bs total := by
    rw [Nat.one_mul, u32_of_lt htotal, u32]
    omega
  have hit : inodeTableBlocks bs total ≤ total / 8 + 1 := by
    rw [inodeTableBlocks_eq hbs', hipg, inodeSize]
    have hbs₂ := two_mul_le_of_pow hbs hne hpow
    refine Nat.le_of_lt_succ ((Nat.div_lt_iff_lt_mul (by omega)).2 ?_)
    have : (total / 8 + 1) * 2048 ≤ (total / 8 + 1) * bs := Nat.mul_le_mul_left _ hbs₂
    rw [Nat.succ_mul]
    omega
  rw [FormulasAgree, hone, Finset.sum_range_one, Finset.sum_range_one, hfree, hipg, hsum, hinodes,
    hused, hblocks]
  constructor
  · rintro ⟨hfb, -, hrange⟩
    have hlt := (hrange 0 (by omega)).1
    rw [hblocks, hused] at hlt
    rw [u16_of_lt hlt, Nat.mod_eq_of_lt (by omega)] at hfb
    omega
  · intro h20
    have hfi : total - reservedInodesG0 bs total < 2 ^ 16 := by omega
    refine ⟨?_, (u16_of_lt hfi).symm, fun g hg ↦ ?_⟩
    · rw [u16_of_lt (by omega), Nat.mod_eq_of_lt (by omega)]
      omega
    · obtain rfl : g = 0 := by omega
      rw [hblocks, hused, hinodes]
      omega

/-- A sum over at least two groups that are alike but for the first and the last. -/
theorem sum_range_groups {f : ℕ → ℕ} {n b : ℕ} (hmid : ∀ g, 0 < g → g ≤ n → f g = b) :
    ∑ g ∈ Finset.range (n + 2), f g = f 0 + n * b + f (n + 1) := by
  have hconst : ∑ g ∈ Finset.range n, f (g + 1) = n * b := by
    rw [Finset.sum_congr rfl fun g hg ↦ hmid (g + 1) (by omega)
      (by have := Finset.mem_range.1 hg; omega), Finset.sum_const, Finset.card_range, smul_eq_mul]
  rw [Finset.sum_range_succ, Finset.sum_range_succ', hconst]
  omega

section Groups

variable {n last : ℕ} (hbs : 1024 ≤ bs) (hbs' : bs ≤ 65536) (hne : bs ≠ 1024)
  (hwrap : total + bs * 8 - 1 < 2 ^ 32) (hgd : gdBlocks bs total ≤ 32)
  (hG : groupsCount bs total = n + 2) (hlt : bs * 8 < total)

include hlt in
theorem blocksPerGroup_of_lt : blocksPerGroup bs total = bs * 8 := if_neg (by omega)

include hlt hwrap hG in
theorem groupBlocks_of_groups {g : ℕ} (hg : g < n + 2) :
    groupBlocks bs total g = min (bs * 8) (total - g * (bs * 8)) := by
  have hbpg := blocksPerGroup_of_lt hlt
  rw [groupBlocks_eq (by rwa [hbpg]) (by omega), hbpg]

include hlt hwrap hG in
/-- All groups but the last are full. -/
theorem groupBlocks_of_full {g : ℕ} (hg : g < n + 1) : groupBlocks bs total g = bs * 8 := by
  have hbpg := blocksPerGroup_of_lt hlt
  have hnext := mul_lt_of_lt_groupsCount (by rwa [hbpg]) (show g + 1 < groupsCount bs total by omega)
  rw [hbpg, Nat.add_mul, Nat.one_mul] at hnext
  rw [groupBlocks_of_groups hwrap hG hlt (by omega)]
  omega

include hbs hbs' hlt in
theorem usedBlocks_of_groups (g : ℕ) :
    usedBlocks bs total g =
      min (2051 + gdBlocks bs total + (if g = 0 then 1 else 0)) (groupBlocks bs total g) := by
  rw [usedBlocks, metadataBlocks, inodeTableBlocks_of_lt hbs hbs' hlt]
  split <;> split <;> omega

include hbs hbs' hne hwrap hgd hG hlt in
/-- The free blocks of all descriptors, of blocks small enough for 16-bit counts. -/
theorem sum_freeBlocks_of_groups (hpow : ∃ k, bs = 2 ^ k) (h16 : bs ≤ 4096) :
    ∑ g ∈ Finset.range (groupsCount bs total),
        u16 (groupBlocks bs total g - usedBlocks bs total g) =
      bs * 8 - (2052 + gdBlocks bs total) + n * (bs * 8 - (2051 + gdBlocks bs total)) +
        (total - (n + 1) * (bs * 8) - (2051 + gdBlocks bs total)) := by
  have hbs₂ := two_mul_le_of_pow hbs hne hpow
  have hfull := fun g (hg : g < n + 1) ↦ groupBlocks_of_full hwrap hG hlt hg
  have hend := groupBlocks_of_groups hwrap hG hlt (show n + 1 < n + 2 by omega)
  have hlast : total - (n + 1) * (bs * 8) ≤ bs * 8 := by
    have hbpg := blocksPerGroup_of_lt hlt
    have hdiv : total + bs * 8 - 1 < (n + 3) * (bs * 8) := by
      rw [groupsCount, hbpg, u32_of_lt hwrap] at hG
      exact (Nat.div_lt_iff_lt_mul (by omega)).1 (by omega)
    have h1 : (n + 3) * (bs * 8) = (n + 1) * (bs * 8) + bs * 8 + bs * 8 := by ring
    omega
  rw [hG, sum_range_groups (b := bs * 8 - (2051 + gdBlocks bs total)) fun g hpos hle ↦ ?_]
  · rw [usedBlocks_of_groups hbs hbs' hlt, usedBlocks_of_groups hbs hbs' hlt, hfull 0 (by omega), hend,
      if_pos rfl, if_neg (by omega), u16_of_lt (by omega), u16_of_lt (by omega)]
    omega
  · rw [usedBlocks_of_groups hbs hbs' hlt, hfull g (by omega), if_neg hpos.ne', u16_of_lt (by omega)]
    omega

include hlt hwrap hG in
/-- The inode counts agree where 16 bits are enough for them. -/
theorem freeInodes_of_groups (hbs : 1024 ≤ bs) (h16 : bs ≤ 4096) :
    (∀ g, freeInodes bs total g < 2 ^ 16) ∧
    u32 (u32 (groupsCount bs total * inodesPerGroup bs total) + 2 ^ 32 - reservedInodesG0 bs total) =
      ∑ g ∈ Finset.range (groupsCount bs total), u16 (freeInodes bs total g) := by
  have hbpg := blocksPerGroup_of_lt hlt
  have hipg : inodesPerGroup bs total = bs * 8 := hbpg
  have hres : reservedInodesG0 bs total = 10 := by
    rw [reservedInodesG0, hipg, if_pos (by omega)]
  have hfree : ∀ g, freeInodes bs total g < 2 ^ 16 := by
    intro g
    rw [freeInodes, hipg]
    omega
  refine ⟨hfree, ?_⟩
  have hmul : (n + 2) * (bs * 8) < 2 ^ 32 := by
    have hdiv := Nat.div_mul_le_self (total + bs * 8 - 1) (bs * 8)
    rw [groupsCount, hbpg, u32_of_lt hwrap] at hG
    rw [hG] at hdiv
    omega
  rw [hG, hipg, hres, u32_of_lt hmul, sum_range_groups (b := bs * 8) fun g hpos _ ↦ ?_]
  · rw [u16_of_lt (hfree 0), u16_of_lt (hfree (n + 1)), freeInodes, freeInodes, hipg, hres, if_pos rfl,
      if_neg (by omega), u32, Nat.add_mul] at *
    omega
  · rw [u16_of_lt (hfree g), freeInodes, hipg, if_neg hpos.ne', Nat.sub_zero]

end Groups

/-- The free blocks the superblock counts. -/
theorem freeBlocksCount_of_groups (hbs : 1024 ≤ bs) (hbs' : bs ≤ 65536) (hne : bs ≠ 1024)
    (hlt : bs * 8 < total) (htotal : total < 2 ^ 32) (hG : groupsCount bs total ≠ 1) :
    freeBlocksCount bs total % 2 ^ 32 = total - total / 20 - 2053 := by
  have hbpg := blocksPerGroup_of_lt hlt
  simp only [freeBlocksCount, hbpg, inodeTableBlocks_of_lt hbs hbs' hlt, if_neg hne, if_neg hG]
  rw [if_neg (by omega), u32]
  omega

/-- Blocks of 8192 bytes and more have groups of more inodes than 16 bits count. -/
theorem not_formulasAgree_of_le (hbs' : bs ≤ 65536) (h16 : 8192 ≤ bs) (hlt : bs * 8 < total)
    (hG : 1 < groupsCount bs total) : ¬ FormulasAgree bs total := by
  intro hagree
  have hfree := (hagree.2.2 1 hG).2
  rw [freeInodes, inodesPerGroup, blocksPerGroup_of_lt hlt, if_neg (by norm_num)] at hfree
  omega

/-- With small enough blocks it is the free blocks of the superblock that decide. -/
theorem formulasAgree_iff_of_groups {n : ℕ} (hbs : 1024 ≤ bs) (hne : bs ≠ 1024)
    (hpow : ∃ k, bs = 2 ^ k) (h16 : bs ≤ 4096) (hlt : bs * 8 < total) (htotal : total < 2 ^ 32)
    (hwrap : total + bs * 8 - 1 < 2 ^ 32) (hgd : gdBlocks bs total ≤ 32)
    (hG : groupsCount bs total = n + 2) :
    FormulasAgree bs total ↔ total - total / 20 - 2053 =
      bs * 8 - (2052 + gdBlocks bs total) + n * (bs * 8 - (2051 + gdBlocks bs total)) +
        (total - (n + 1) * (bs * 8) - (2051 + gdBlocks bs total)) := by
  obtain ⟨hinodes, hsum⟩ := freeInodes_of_groups hwrap hG hlt hbs h16
  have hblocks : ∀ g < groupsCount bs total,
      groupBlocks bs total g - usedBlocks bs total g < 2 ^ 16 := by
    intro g hg
    rw [groupBlocks_of_groups hwrap hG hlt (by omega)]
    omega
  rw [FormulasAgree, freeBlocksCount_of_groups hbs (by omega) hne hlt htotal (by omega),
    sum_freeBlocks_of_groups hbs (by omega) hne hwrap hgd hG hlt hpow h16]
  exact ⟨fun hagree ↦ hagree.1, fun heq ↦ ⟨heq, hsum, fun g hg ↦ ⟨hblocks g hg, hinodes g⟩⟩⟩

/-- **The formulas agree exactly on the balanced volumes.** -/
theorem formulasAgree_iff_balanced (hbs : 1024 ≤ bs) (hbs' : bs ≤ 65536) (hne : bs ≠ 1024)
    (hpow : ∃ k, bs = 2 ^ k) (htotal : total < 2 ^ 32) (hpos : 0 < total)
    (htable : u32 (gdBlocks bs total * bs) ≤ 65536)
    (hwrap : total + blocksPerGroup bs total - 1 < 2 ^ 32) :
    FormulasAgree bs total ↔ Balanced bs total := by
  have hbs₂ := two_mul_le_of_pow hbs hne hpow
  by_cases hle : total ≤ bs * 8
  · rw [formulasAgree_iff_of_le hbs hbs' hne hpow hpos hle, Balanced]
    omega
  have hlt : bs * 8 < total := by omega
  have hbpg := blocksPerGroup_of_lt hlt
  rw [hbpg] at hwrap
  have hdiv : groupsCount bs total = (total + bs * 8 - 1) / (bs * 8) := by
    rw [groupsCount, hbpg, u32_of_lt hwrap]
  have htwo : 2 ≤ groupsCount bs total := by
    rw [hdiv]
    exact (Nat.le_div_iff_mul_le (by omega)).2 (by omega)
  obtain ⟨n, hn⟩ : ∃ n, groupsCount bs total = n + 2 := ⟨_, (Nat.sub_add_cancel htwo).symm⟩
  have hgd : gdBlocks bs total ≤ 32 := by
    have hmul := mul_gdBlocks_le hbs hbs' htotal htable
    have : gdBlocks bs total * 2048 ≤ gdBlocks bs total * bs := Nat.mul_le_mul_left _ hbs₂
    omega
  have hgdpos := gdBlocks_pos hbs hbs' htotal (by omega)
  -- from 8192 bytes on the inodes of a whole group do not fit into 16 bits
  by_cases h16 : 8192 ≤ bs
  · refine iff_of_false (not_formulasAgree_of_le hbs' h16 hlt (by omega)) ?_
    rw [Balanced]
    omega
  have hcases : bs = 2048 ∨ bs = 4096 := by
    obtain ⟨k, rfl⟩ := hpow
    have hk : 10 < k := (Nat.pow_lt_pow_iff_right (a := 2) (by norm_num)).1 (by omega)
    have hk' : k < 13 := (Nat.pow_lt_pow_iff_right (a := 2) (by norm_num)).1 (by omega)
    interval_cases k <;> simp
  rw [formulasAgree_iff_of_groups hbs hne hpow (by omega) hlt htotal hwrap hgd hn, Balanced]
  rw [hn] at hdiv
  have hdivlt := Nat.lt_mul_div_succ (total + bs * 8 - 1) (show 0 < bs * 8 by omega)
  by_cases hfew : n ≤ 10
  · -- few groups: one descriptor block, and the equation is linear
    rw [gdBlocks_of_groupsCount_le hbs hbs' htotal (by omega) (by omega)]
    rcases hcases with rfl | rfl
    · interval_cases n <;> omega
    · interval_cases n <;> omega
  · -- many groups: their metadata outweighs the reserved blocks
    have hmany : n * (bs * 8 - (2051 + gdBlocks bs total)) ≤ n * (bs * 8 - 2052) :=
      Nat.mul_le_mul_left _ (by omega)
    refine iff_of_false (fun heq ↦ ?_) ?_
    · rcases hcases with rfl | rfl <;> omega
    · rcases hcases with rfl | rfl <;> omega

/-! ### A group count that wraps -/

/-- Blocks large enough for the root directory to be written over the superblock. -/
theorem countersAgree_of_no_groups (hbs : 1024 ≤ bs) (hne : bs ≠ 1024)
    (hG : groupsCount bs total = 0) {now : ℕ} {sb : Buf} {d : BlockDevice} :
    CountersAgree bs total (putAll bs (writes bs total now sb) d) := by
  have hblock : (putAll bs (writes bs total now sb) d).block bs (sbBlocknr bs) =
      Buf.clip bs (rootDir bs) := by
    rw [writes_of_no_groups hbs hG, sbBlocknr, if_neg hne]
    exact BlockDevice.block_putBlock_self _ bs 0 _
  have hzero : ∀ f, diskSuper bs (putAll bs (writes bs total now sb) d) f = 0 := by
    intro f
    rw [diskSuper, hblock, Buf.getField, sbOffset, if_neg hne, ← Buf.le_zero_buf (1024 + f.off) f.size]
    refine Buf.le_congr fun i hi _ ↦ ?_
    by_cases hlt : i < bs
    · rw [Buf.clip_of_lt _ hlt, rootDir_apply (by omega), Buf.zero_apply]
    · rw [Buf.clip_of_le _ (by omega), Buf.zero_apply]
  refine ⟨?_, ?_, fun g hg ↦ by omega, fun g hg ↦ by omega⟩
  · rw [hG, hzero, hzero]
    rfl
  · rw [hG, hzero]
    rfl

/-! ### Blocks of 1024 bytes -/

/-- The superblock has free blocks and no group has. -/
theorem not_countersAgree_of_no_groups (htotal : total < 2 ^ 32)
    (hwrap : ¬ total + blocksPerGroup 1024 total - 1 < 2 ^ 32) {log now : ℕ} {buf : Buf}
    {d : BlockDevice} :
    ¬ CountersAgree 1024 total
      (putAll 1024 (writes 1024 total now (superBlock 1024 total log now buf (sbOffset 1024))) d) := by
  have hG := groupsCount_eq_zero htotal hwrap
  have hlt : 1024 * 8 < total := by
    have := (blocksPerGroup_le 1024 total).2
    omega
  intro hagree
  have hfree := hagree.freeBlocks
  have hblock : (putAll 1024 (writes 1024 total now (superBlock 1024 total log now buf
      (sbOffset 1024))) d).block 1024 (sbBlocknr 1024) =
        Buf.clip 1024 (superBlock 1024 total log now buf (sbOffset 1024)) := by
    rw [writes_of_no_groups le_rfl hG]
    exact block_putAll_last [] (w := (sbBlocknr 1024, _)) (by simp [sbBlocknr])
  have hlo : diskSuper 1024 (putAll 1024 (writes 1024 total now (superBlock 1024 total log now buf
      (sbOffset 1024))) d) Esb.sFreeBlocksCountLo = freeBlocksCount 1024 total % 2 ^ 32 := by
    rw [diskSuper, hblock, Buf.getField, Buf.le_clip _ (by decide)]
    exact getField_superBlock_of_superCounts (by simp [superCounts])
  rw [hlo, hG, Finset.range_zero, Finset.sum_empty] at hfree
  have hbpg := blocksPerGroup_of_lt hlt
  rw [hbpg] at hwrap
  simp only [freeBlocksCount, hbpg, inodeTableBlocks_of_lt le_rfl (by norm_num) hlt, hG, if_true]
    at hfree
  rw [if_neg (by omega), if_neg (by omega), u32] at hfree
  omega

/-- The metadata of a group is below block `2 ^ 32`. -/
theorem metadata_lt_1024 (htotal : total < 2 ^ 32)
    (htable : u32 (gdBlocks 1024 total * 1024) ≤ 65536) {g : ℕ} (hg : g < groupsCount 1024 total) :
    g * blocksPerGroup 1024 total + metadataBlocks 1024 total g < 2 ^ 32 := by
  have hwrap := no_wrap_of_groupsCount_pos htotal (Nat.zero_lt_of_lt hg)
  have hmul := mul_lt_of_lt_groupsCount hwrap hg
  have hgd := mul_gdBlocks_le le_rfl (by norm_num) htotal htable
  have hit : inodeTableBlocks 1024 total ≤ 2048 := by
    have hle := (blocksPerGroup_le 1024 total).2
    rw [inodeTableBlocks_eq (by norm_num), inodesPerGroup, inodeSize]
    omega
  have hmeta : metadataBlocks 1024 total g ≤ 2116 := by
    rw [metadataBlocks]
    split <;> omega
  by_cases hle : total ≤ 8192
  · omega
  · have hbpg : blocksPerGroup 1024 total = 8192 := if_neg hle
    have hstart : g * blocksPerGroup 1024 total = g * 8192 := congrArg _ hbpg
    omega

/-- The last block of the descriptor table is overwritten by the first block bitmap. -/
theorem block_gdBlock_1024 (htotal : total < 2 ^ 32) (hG : 0 < groupsCount 1024 total)
    (htable : u32 (gdBlocks 1024 total * 1024) ≤ 65536) {now : ℕ} {sb : Buf} {d : BlockDevice} :
    (putAll 1024 (writes 1024 total now sb) d).block 1024 (1 + gdBlocks 1024 total) =
      Buf.clip 1024 (blockBitmap 1024 total 0) := by
  have hwrap := no_wrap_of_groupsCount_pos htotal hG
  have hpos := fun {g} (hg : g < groupsCount 1024 total) ↦
    bitmaps_eq hwrap hg (metadata_lt_1024 htotal htable hg)
  have hbpg : 0 < blocksPerGroup 1024 total :=
    Nat.pos_of_ne_zero fun h0 ↦ by simp [groupsCount, h0] at hG
  obtain ⟨hbb, hib, hit⟩ := hpos hG
  rw [Nat.zero_mul, Nat.zero_add] at hbb hib hit
  have hroot : rootDirBlock 1024 total =
      1 + gdBlocks 1024 total + 1 + 1 + inodeTableBlocks 1024 total := by
    have hend := metadata_lt_1024 htotal htable hG
    rw [metadataBlocks, if_pos rfl] at hend
    rw [rootDirBlock, if_neg hG.ne', hit, u32_of_lt (by omega)]
  have hrange : List.range' 0 (groupsCount 1024 total) =
      0 :: List.range' 1 (groupsCount 1024 total - 1) := by
    obtain ⟨n, hn⟩ : ∃ n, groupsCount 1024 total = n + 1 := ⟨_, (Nat.succ_pred_eq_of_pos hG).symm⟩
    rw [hn, List.range'_succ, Nat.zero_add, Nat.add_sub_cancel]
  -- the writes before the bitmap of group 0 and those after it
  set l := (sbBlocknr 1024, sb) :: ((List.range' 0 (gdBlocks 1024 total)).flatMap (fun i ↦
      [(gdBlock 1024 + i, gdTableBlock 1024 total i)]) ++
    (List.range' 1 (groupsCount 1024 total - 1)).flatMap (backupWrites 1024 total sb))
  set m := (inodeBitmapAbs 1024 total 0, inodeBitmap 1024 total 0) ::
    ((List.range' 1 (groupsCount 1024 total - 1)).flatMap (bitmapWrites 1024 total) ++
      [(group0InodeTable 1024 total, rootInode 1024 total now),
        (rootDirBlock 1024 total, rootDir 1024)]) with hm
  have hsplit : writes 1024 total now sb =
      l ++ (1 + gdBlocks 1024 total, blockBitmap 1024 total 0) :: m := by
    rw [writes, hrange, List.flatMap_cons, bitmapWrites, hbb]
    simp [l, m]
  rw [hsplit]
  refine block_putAll_last l (w := (1 + gdBlocks 1024 total, _)) fun x hx ↦ ?_
  simp only [hm, List.mem_cons, List.mem_append, List.mem_flatMap, List.mem_range'_1, bitmapWrites,
    List.not_mem_nil, or_false] at hx
  rcases hx with rfl | ⟨g, hg, rfl | rfl⟩ | rfl | rfl
  · simp only [hib]
    omega
  · obtain ⟨hb, -, -⟩ := @hpos g (by omega)
    have : 0 < g * blocksPerGroup 1024 total := Nat.mul_pos (by omega) hbpg
    simp only [hb]
    omega
  · obtain ⟨-, hi, -⟩ := @hpos g (by omega)
    simp only [hi]
    omega
  · simp only [group0InodeTable, if_neg hG.ne', hit]
    omega
  · simp only [hroot]
    omega

/-- A descriptor field that overlaps the first block bitmap. -/
theorem diskDesc_1024 (htotal : total < 2 ^ 32) (hG : 0 < groupsCount 1024 total)
    (htable : u32 (gdBlocks 1024 total * 1024) ≤ 65536) {now : ℕ} {sb : Buf} {d : BlockDevice}
    {f : Buf.Field} {k : ℕ} (hf : f.off + f.size ≤ 32) (hk : k ≤ 8 * f.size)
    (hbits : ∀ j < 8 * f.size, (8 * f.off + j < usedBlocks 1024 total 0 ∨
      groupBlocks 1024 total 0 ≤ 8 * f.off + j) ↔ j < k) :
    diskDesc 1024 (putAll 1024 (writes 1024 total now sb) d) ((gdBlocks 1024 total - 1) * 32) f =
      2 ^ k - 1 := by
  have hgd := gdBlocks_pos le_rfl (by norm_num) htotal hG
  rw [diskDesc, gdEntrySize, show (gdBlocks 1024 total - 1) * 32 * 32 / 1024 =
      gdBlocks 1024 total - 1 by omega, show (gdBlocks 1024 total - 1) * 32 * 32 % 1024 = 0 by omega,
    gdBlock, if_pos rfl, show 2 + (gdBlocks 1024 total - 1) = 1 + gdBlocks 1024 total by omega,
    block_gdBlock_1024 htotal hG htable, Buf.getField, Nat.zero_add]
  refine Buf.le_eq_of_prefix hk fun j hj ↦ ?_
  rw [bit_blockBitmap (by omega)]
  exact decide_eq_decide.2 (hbits j hj)

/-- With several groups the first descriptor of the overwritten block counts 65535 free blocks. -/
theorem not_countersAgree_of_lt_1024 (htotal : total < 2 ^ 32) (hG : 0 < groupsCount 1024 total)
    (htable : u32 (gdBlocks 1024 total * 1024) ≤ 65536) (hlt : 8192 < total) {now : ℕ} {sb : Buf}
    {d : BlockDevice} : ¬ CountersAgree 1024 total (putAll 1024 (writes 1024 total now sb) d) := by
  intro hagree
  have hbpg : blocksPerGroup 1024 total = 8192 := if_neg (by omega)
  have hwrap := no_wrap_of_groupsCount_pos htotal hG
  have hgd := gdBlocks_eq le_rfl (show 1024 ≤ 65536 by norm_num) htotal
  have hg : (gdBlocks 1024 total - 1) * 32 < groupsCount 1024 total := by
    rw [gdEntrySize] at hgd
    omega
  have hused : 112 ≤ usedBlocks 1024 total 0 := by
    rw [usedBlocks_of_groups le_rfl (by norm_num) hlt, groupBlocks_eq hwrap hG, hbpg]
    omega
  have hcount := hagree.blockBits _ hg
  rw [diskDesc_1024 htotal hG htable (f := Gd.bgFreeBlocksCountLo) (k := 16) (by decide) (by decide)
    fun j hj ↦ by simp only [Gd.bgFreeBlocksCountLo] at hj ⊢; omega] at hcount
  have hle := Buf.clearBits_le ((putAll 1024 (writes 1024 total now sb) d).block 1024
    (blockBitmapAbs 1024 total ((gdBlocks 1024 total - 1) * 32)))
    (groupBlocks 1024 total ((gdBlocks 1024 total - 1) * 32))
  rw [groupBlocks_eq hwrap hg, hbpg] at hle hcount
  omega

/-- With one group its descriptor is the start of the block bitmap. -/
theorem not_countersAgree_of_le_1024 (hpos : 0 < total) (hle : total ≤ 8192)
    {now : ℕ} {sb : Buf} {d : BlockDevice} :
    ¬ CountersAgree 1024 total (putAll 1024 (writes 1024 total now sb) d) := by
  intro hagree
  have htotal : total < 2 ^ 32 := by omega
  have hone := @groupsCount_eq_one 1024 total hpos (by omega) (by norm_num)
  have hG : 0 < groupsCount 1024 total := by omega
  have hwrap := no_wrap_of_groupsCount_pos htotal hG
  have hgd : gdBlocks 1024 total = 1 :=
    gdBlocks_of_groupsCount_le le_rfl (by norm_num) htotal hG (by omega)
  have htable : u32 (gdBlocks 1024 total * 1024) ≤ 65536 := by
    rw [hgd]
    decide
  have hbpg : blocksPerGroup 1024 total = total := if_pos (by omega)
  have hblocks : groupBlocks 1024 total 0 = total := by
    rw [groupBlocks_eq hwrap hG, hbpg]
    omega
  have hit : inodeTableBlocks 1024 total = (total * 256 + 1024 - 1) / 1024 := by
    rw [inodeTableBlocks_eq (by norm_num), inodesPerGroup, hbpg, inodeSize]
  have hused : usedBlocks 1024 total 0 = min (5 + inodeTableBlocks 1024 total) total := by
    rw [usedBlocks, hblocks, metadataBlocks, hgd]
    simp only [if_true]
    split <;> omega
  have hdesc := fun f k ↦ @diskDesc_1024 total htotal hG htable now sb d f k
  rw [hgd] at hdesc
  by_cases hall : total ≤ 112 ∨ 128 ≤ usedBlocks 1024 total 0
  · -- the count of free inodes is all ones
    have hcount := hagree.inodeBits 0 hG
    rw [hdesc Gd.bgFreeInodesCountLo 16 (by decide) (by decide) fun j hj ↦ by
      simp only [Gd.bgFreeInodesCountLo] at hj ⊢; omega] at hcount
    have hlt := Buf.clearBits_le ((putAll 1024 (writes 1024 total now sb) d).block 1024
      (inodeBitmapAbs 1024 total 0)) (inodesPerGroup 1024 total)
    rw [← hcount, inodesPerGroup, hbpg] at hlt
    omega
  · -- the count of free blocks is that many ones as the used blocks reach into it
    have hcount := hagree.blockBits 0 hG
    have hbb : blockBitmapAbs 1024 total 0 = 1 + gdBlocks 1024 total := by
      have := (bitmaps_eq hwrap hG (metadata_lt_1024 htotal htable hG)).1
      rwa [Nat.zero_mul, Nat.zero_add] at this
    rw [hdesc Gd.bgFreeBlocksCountLo (min 16 (usedBlocks 1024 total 0 - 96)) (by decide)
        (Nat.min_le_left _ _) fun j hj ↦ by simp only [Gd.bgFreeBlocksCountLo] at hj ⊢; omega,
      hbb, block_gdBlock_1024 htotal hG htable, clearBits_blockBitmap (by omega), hblocks] at hcount
    have hk : min 16 (usedBlocks 1024 total 0 - 96) ≤ 16 := Nat.min_le_left _ _
    generalize hkdef : min 16 (usedBlocks 1024 total 0 - 96) = k at hcount hk
    interval_cases k <;> omega

/-- **The counters of a new volume agree exactly when it is balanced.** -/
theorem countersAgree_iff_balanced {now bs total n : ℕ} {d d' : BlockDevice} (hd : d.Usable bs n)
    (htotal : total < 2 ^ 32) (hrun : ext4Mkfs now bs total d = (some (), d')) :
    CountersAgree bs total d' ↔ Balanced bs total := by
  obtain ⟨log, hlog, hbpg, htable⟩ := checks_of_ext4Mkfs hrun
  have hmkfs := ext4Mkfs_of_writes_lt hd.whole.toUsable hlog hbpg htable
    (writes_lt_of_ext4Mkfs hd.whole hlog hrun)
  obtain rfl : d' = _ := congrArg Prod.snd (hrun.symm.trans hmkfs)
  obtain ⟨hbs, hbs', hpow⟩ := pow_of_blockSizeToLog hlog
  have hpos : 0 < total := by
    have := (blocksPerGroup_le bs total).1
    omega
  by_cases hwrap : total + blocksPerGroup bs total - 1 < 2 ^ 32
  · have hg : 0 < groupsCount bs total := by
      have := (blocksPerGroup_le bs total).1
      rw [groupsCount, u32_of_lt hwrap]
      exact Nat.div_pos (by omega) (by omega)
    by_cases hne : bs = 1024
    · subst hne
      refine iff_of_false ?_ fun h ↦ h.1 rfl
      by_cases hle : total ≤ 8192
      · exact not_countersAgree_of_le_1024 hpos hle
      · exact not_countersAgree_of_lt_1024 htotal hg htable (by omega)
    · have hspaced := spaced_of_checks hbs hbs' hne hpow htotal hpos htable hwrap
      have hit := inodeTableBlocks_pos hbs hbs' (Nat.pos_of_ne_zero hbpg)
      have hsize : sbOffset bs + 1024 ≤ bs := by
        have hbs₂ := two_mul_le_of_pow hbs hne hpow
        rw [sbOffset, if_neg hne]
        omega
      rw [writtenSuper, hspaced.countersAgree_iff hbs hbs' hpow htotal hg hit hsize,
        formulasAgree_iff_balanced hbs hbs' hne hpow htotal hpos htable hwrap]
  · have hG := groupsCount_eq_zero htotal hwrap
    by_cases hne : bs = 1024
    · subst hne
      exact iff_of_false (not_countersAgree_of_no_groups htotal hwrap) fun h ↦ h.1 rfl
    · have hle := (blocksPerGroup_le bs total).2
      exact iff_of_true (countersAgree_of_no_groups hbs hne hG) ⟨hne, .inl (by omega)⟩

/-- A volume of 16 blocks of 4096 bytes is balanced. -/
theorem countersAgree_iff_balanced_16 :
    ∃ d', ext4Mkfs 0 4096 16 (BlockDevice.blank 512 128) = (some (), d') ∧
      (CountersAgree 4096 16 d' ↔ Balanced 4096 16) := by
  have hd := (BlockDevice.holds_blank 512 8 16 (by norm_num) (by norm_num)).toUsable
  have hrun := @ext4Mkfs_of_writes_lt 0 16 _ 2 _ _ hd
    (by decide) (by decide) (by decide) fun w hw ↦ ?_
  · exact ⟨_, hrun, countersAgree_iff_balanced hd (by norm_num) hrun⟩
  · have hpos : ∀ sb, (writes 4096 16 0 sb).map Prod.fst = [0, 1, 2, 3, 4, 5] := fun _ ↦ rfl
    exact writes_lt_of_positions (hpos _) (by decide) w hw

/-- On a volume of 64 blocks the superblock counts 52 free blocks and the descriptor 55. -/
theorem not_countersAgree_64 :
    ∃ d', ext4Mkfs 0 4096 64 (BlockDevice.blank 512 512) = (some (), d') ∧
      ¬ CountersAgree 4096 64 d' :=
  ⟨_, eq_of_fst_eq (by decide +kernel), fun h ↦ absurd h.freeBlocks (by decide +kernel)⟩

end Mkfs

end MiniExt4
