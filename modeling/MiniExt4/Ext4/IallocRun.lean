import MiniExt4.Ext4.IallocSpec
import MiniExt4.Ext4.MkfsCounts

/-!
# Runs of the inode allocator

A run interleaves `ext4_new_inode_in_group` and `ext4_free_inode` over a volume that was formatted with
4096-byte blocks. Beside the filesystem it remembers the outstanding inodes: those that were returned
and not yet freed. The bitmaps mark these and the reserved inodes of group 0, and nothing else.

The invariant is `Volume.InodesOnDisk` of the reserved and the outstanding inodes, with the counts in the
descriptors. So exclusiveness is a fact about a set with one element more or less, and completeness the rule
for a search that fails: it has seen every group full.
-/

namespace MiniExt4

open StateErr

/-! ### The inode bitmaps as they are on the device -/

/-- The inode bitmap of a group, where the group's descriptor says it is. -/
def Fs.inodeBitmapOf (fs : Fs) (g : ℕ) : Buf := fs.block ((fs.desc g).getField 0 Gd.bgInodeBitmapLo)

/-- Bit `i` of the bitmap of group `g` stands for an inode. -/
def SbGeom.InodeBit (sbi : SbGeom) (g i : ℕ) : Prop :=
  i < sbi.sInodesPerGroup ∧ g * sbi.sInodesPerGroup + i + 1 ≤ sbi.sInodesCount

instance (sbi : SbGeom) (g i : ℕ) : Decidable (sbi.InodeBit g i) := inferInstanceAs (Decidable (_ ∧ _))

/-- The number of clear bits of a group that stand for an inode. -/
def Fs.clearInodes (fs : Fs) (g : ℕ) : ℕ :=
  ((Finset.range fs.sbi.sInodesPerGroup).filter fun i ↦
    fs.sbi.InodeBit g i ∧ (fs.inodeBitmapOf g).bit i = false).card

namespace Volume

variable {V : Volume} {n g : ℕ} {I : Set ℕ} {fs : Fs}

theorem InodesOnDisk.inodeBitmapOf_eq (h : V.InodesOnDisk n I fs) (hg : g < V.groups) :
    fs.inodeBitmapOf g = fs.block (V.inodeBitmap g) := by
  rw [Fs.inodeBitmapOf, h.desc_inodeBitmap g hg]

/-- Every bit of a group stands for an inode. -/
theorem InodesOnDisk.inodeBit_iff (h : V.InodesOnDisk n I fs) (hg : g < V.groups) (i : ℕ) :
    fs.sbi.InodeBit g i ↔ i < V.geom.sInodesPerGroup := by
  have hipg : fs.sbi.sInodesPerGroup = V.geom.sInodesPerGroup :=
    congrArg SbGeom.sInodesPerGroup h.geom
  have hcount : fs.sbi.sInodesCount = V.geom.sInodesCount := congrArg SbGeom.sInodesCount h.geom
  rw [SbGeom.InodeBit, hipg, hcount]
  exact ⟨And.left, fun hi ↦ ⟨hi, h.bitmapsLaid.inodeNr_le hg hi⟩⟩

theorem InodesOnDisk.count_eq_clearInodes (h : V.InodesOnDisk n I fs) (hg : g < V.groups) :
    (fs.desc g).getField 0 Gd.bgFreeInodesCountLo = fs.clearInodes g := by
  have hipg : fs.sbi.sInodesPerGroup = V.geom.sInodesPerGroup :=
    congrArg SbGeom.sInodesPerGroup h.geom
  rw [h.count g hg, Buf.clearBits_eq_card, Fs.clearInodes, hipg, h.inodeBitmapOf_eq hg]
  refine congrArg _ (Finset.filter_congr fun i hi ↦ ?_)
  rw [h.inodeBit_iff hg, and_iff_right (Finset.mem_range.1 hi)]

/-- A full group has no clear bit that stands for an inode. -/
theorem InodesOnDisk.bit_of_groupFull (h : V.InodesOnDisk n I fs) (hg : g < V.groups)
    (hfull : V.GroupFull I g) {i : ℕ} (hi : fs.sbi.InodeBit g i) : (fs.inodeBitmapOf g).bit i = true := by
  have hlt := (h.inodeBit_iff hg i).1 hi
  rw [h.inodeBitmapOf_eq hg, h.bit_iff g hg i hlt]
  exact hfull i hlt

end Volume

namespace Mkfs

variable {now now' total n : ℕ} {d d₁ d₂ : BlockDevice} {sbi : SbInfo}

theorem Formatted.inodeBitmapsLaid (h : Formatted now total n d d₁)
    (hmount : ext4FillSuper now' d₁ = (some sbi, d₂)) :
    (volume 4096 total sbi.toSbGeom).InodeBitmapsLaid n := by
  obtain ⟨hgeom, -⟩ := h.mount hmount
  have hgroups := hgeom.groups
  have hbs : (volume 4096 total sbi.toSbGeom).bs = 4096 := hgeom.sBlockSize
  have hipg : (volume 4096 total sbi.toSbGeom).geom.sInodesPerGroup = inodesPerGroup 4096 total :=
    hgeom.sInodesPerGroup
  have hcount : (volume 4096 total sbi.toSbGeom).geom.sInodesCount =
      groupsCount 4096 total * inodesPerGroup 4096 total := h.sInodesCount hmount
  have hbits := h.bits_lt
  have hle : inodesPerGroup 4096 total ≤ 4096 * 8 := (blocksPerGroup_le 4096 total).2
  have hpos : 0 < inodesPerGroup 4096 total := by
    have := h.total_pos
    rw [inodesPerGroup, blocksPerGroup]
    split <;> omega
  refine ⟨hbs.le, fun g hg ↦ ?_, fun g hg ↦ ?_, fun g hg ↦ ?_, fun g hg ↦ ?_, fun g hg g' hg' ↦ ?_,
    by omega, by omega, by rw [hcount, hgroups, hipg], by rwa [hcount]⟩
  · exact hgeom.group h.spaced.ne_1024 (by norm_num) (by norm_num) ⟨12, rfl⟩ h.total_lt h.groups_pos
      (hgroups ▸ hg)
  · exact (h.block_inodeBitmap (hgroups ▸ hg)).1
  · have := (h.spaced.bitmaps (hgroups ▸ hg)).2.1
    show inodeBitmapAbs 4096 total g ≠ 0
    omega
  · exact (hgeom.inodeBitmap_apart (by norm_num) (by norm_num) h.total_lt h.groups_pos h.spaced
      (hgroups ▸ hg)).1
  · exact (hgeom.inodeBitmap_apart (by norm_num) (by norm_num) h.total_lt h.groups_pos h.spaced
      (hgroups ▸ hg)).2 g' (hgroups ▸ hg')

/-- On a new volume the reserved inodes of group 0 are in use. -/
theorem Formatted.inodesOnDisk (h : Formatted now total n d d₁)
    (hmount : ext4FillSuper now' d₁ = (some sbi, d₂)) (bgSyncBatch preallocGoalLen : ℕ) :
    (volume 4096 total sbi.toSbGeom).InodesOnDisk n (Set.Icc 1 (reservedInodesG0 4096 total))
      (Fs.ofMount d₂ sbi bgSyncBatch preallocGoalLen) := by
  have hfresh := h.fresh hmount bgSyncBatch preallocGoalLen
  have hlaid := h.inodeBitmapsLaid hmount
  have hcarried := h.carried hmount bgSyncBatch preallocGoalLen
  obtain ⟨hgeom, -⟩ := h.mount hmount
  set fs := Fs.ofMount d₂ sbi bgSyncBatch preallocGoalLen
  have hgroups := hgeom.groups
  have hipg : (volume 4096 total sbi.toSbGeom).geom.sInodesPerGroup = inodesPerGroup 4096 total :=
    hgeom.sInodesPerGroup
  have hle : inodesPerGroup 4096 total ≤ 4096 * 8 := (blocksPerGroup_le 4096 total).2
  have hreserved := reservedInodesG0_le 4096 total
  have hblock : ∀ g < groupsCount 4096 total, fs.block (inodeBitmapAbs 4096 total g) =
      Buf.clip 4096 (inodeBitmap 4096 total g) := fun g hg ↦ by
    rw [Fs.block, hfresh.dev, hfresh.blockSize]
    exact (h.block_inodeBitmap hg).2
  refine ⟨hcarried, hlaid, fun g hg ↦ ?_, fun g hg i hi ↦ ?_, fun g hg ↦ ?_⟩
  · exact hfresh.desc g (hgroups ▸ hg) _ _ (by simp [descFields, volume])
  · rw [hipg] at hi
    show (fs.block (inodeBitmapAbs 4096 total g)).bit i = true ↔ _
    rw [hblock g (hgroups ▸ hg), bit_inodeBitmap (by omega), decide_eq_true_iff, Volume.inodeNr, hipg,
      Set.mem_Icc]
    rcases Nat.eq_zero_or_pos g with rfl | hpos
    · omega
    · have hmul := Nat.mul_le_mul_right (inodesPerGroup 4096 total) (show 1 ≤ g from hpos)
      omega
  · show _ = (fs.block (inodeBitmapAbs 4096 total g)).clearBits _
    rw [hblock g (hgroups ▸ hg), hipg, clearBits_inodeBitmap,
      hfresh.table g (hgroups ▸ hg) _ (by decide),
      getField_gdTable_of_descCounts (hgroups ▸ hg) (v := u16 (freeInodes 4096 total g))
        (by simp [descCounts])]
    exact u16_of_lt (by unfold freeInodes; omega)

end Mkfs

namespace Ialloc

/-! ### Runs -/

/-- A filesystem and the inodes that were returned and are not freed. -/
structure State where
  fs : Fs
  outstanding : Set ℕ

/-- One call. A call that returns an error leaves the outstanding inodes as they were. -/
inductive Step : State → State → Prop
  | newInode {fs fs' : Fs} {out : Set ℕ} {preferredGroup ino : ℕ}
      (hrun : fs.ext4NewInodeInGroup preferredGroup = (some ino, fs')) :
      Step ⟨fs, out⟩ ⟨fs', insert ino out⟩
  | newInodeFail {fs fs' : Fs} {out : Set ℕ} {preferredGroup : ℕ}
      (hrun : fs.ext4NewInodeInGroup preferredGroup = (none, fs')) : Step ⟨fs, out⟩ ⟨fs', out⟩
  | freeInode {fs fs' : Fs} {out : Set ℕ} {ino : ℕ} (hino : ino ∈ out)
      (hrun : fs.ext4FreeInode ino = (some (), fs')) : Step ⟨fs, out⟩ ⟨fs', out \ {ino}⟩
  | freeInodeFail {fs fs' : Fs} {out : Set ℕ} {ino : ℕ} (hino : ino ∈ out)
      (hrun : fs.ext4FreeInode ino = (none, fs')) : Step ⟨fs, out⟩ ⟨fs', out⟩

/-- Any sequence of calls. -/
abbrev Run : State → State → Prop := Relation.ReflTransGen Step

/-- The inodes in use are the `reserved` ones, which are the first, and the outstanding ones. -/
structure Inv (V : Volume) (n reserved : ℕ) (s : State) : Prop where
  reserved_lt : ∀ ino ∈ s.outstanding, reserved < ino
  le_count : ∀ ino ∈ s.outstanding, ino ≤ V.geom.sInodesCount
  onDisk : V.InodesOnDisk n (Set.Icc 1 reserved ∪ s.outstanding) s.fs

variable {V : Volume} {n reserved : ℕ} {s s' : State}

/-- A new inode is neither reserved nor outstanding. -/
theorem Inv.allocated (h : Inv V n reserved s) {preferredGroup ino : ℕ} {fs' : Fs}
    (hrun : s.fs.ext4NewInodeInGroup preferredGroup = (some ino, fs')) :
    reserved < ino ∧ ino ≤ V.geom.sInodesCount ∧ ino ∉ s.outstanding ∧
      V.InodesOnDisk n (insert ino (Set.Icc 1 reserved ∪ s.outstanding)) fs' := by
  rcases h.onDisk.newInode preferredGroup with ⟨ino', fs'', hsome, halloc⟩ | ⟨hnone, -⟩
  · obtain ⟨hino, rfl⟩ := Prod.mk.inj (hrun.symm.trans hsome)
    obtain rfl := Option.some.inj hino
    have hfresh := halloc.fresh
    have hpos := halloc.pos
    rw [Set.mem_union, Set.mem_Icc, not_or] at hfresh
    exact ⟨by omega, halloc.le_count, hfresh.2, halloc.onDisk⟩
  · rw [hrun] at hnone
    simp at hnone

/-- A call that fails finds every bit of every group set, and changes nothing. -/
theorem Inv.full (h : Inv V n reserved s) {preferredGroup : ℕ} {fs' : Fs}
    (hrun : s.fs.ext4NewInodeInGroup preferredGroup = (none, fs')) :
    fs' = s.fs ∧ ∀ g < V.groups, V.GroupFull (Set.Icc 1 reserved ∪ s.outstanding) g := by
  rcases h.onDisk.newInode preferredGroup with ⟨ino', fs'', hsome, -⟩ | ⟨hnone, hfull⟩
  · rw [hrun] at hsome
    simp at hsome
  · exact ⟨(Prod.mk.inj (hrun.symm.trans hnone)).2, hfull⟩

theorem Inv.step (h : Inv V n reserved s) (hstep : Step s s') : Inv V n reserved s' := by
  cases hstep with
  | @newInode fs fs' out preferredGroup ino hrun =>
    obtain ⟨hlt, hle, -, honDisk⟩ := h.allocated hrun
    refine ⟨?_, ?_, ?_⟩
    · rintro i (rfl | hi)
      · exact hlt
      · exact h.reserved_lt i hi
    · rintro i (rfl | hi)
      · exact hle
      · exact h.le_count i hi
    · rwa [Set.union_insert]
  | @newInodeFail fs fs' out preferredGroup hrun =>
    obtain ⟨rfl, -⟩ := h.full hrun
    exact h
  | @freeInode fs fs' out ino hino hrun =>
    have hlt := h.reserved_lt ino hino
    obtain ⟨fs'', hfree, honDisk, -⟩ :=
      h.onDisk.freeInode (by omega) (h.le_count ino hino) (Set.mem_union_right _ hino)
    obtain rfl := (Prod.mk.inj (hrun.symm.trans hfree)).2
    refine ⟨fun i hi ↦ h.reserved_lt i hi.1, fun i hi ↦ h.le_count i hi.1, ?_⟩
    rwa [Set.union_sdiff_distrib, Set.sdiff_singleton_eq_self fun hin ↦ by
      have := hin.2
      omega] at honDisk
  | @freeInodeFail fs fs' out ino hino hrun =>
    have hlt := h.reserved_lt ino hino
    obtain ⟨fs'', hfree, -⟩ :=
      h.onDisk.freeInode (by omega) (h.le_count ino hino) (Set.mem_union_right _ hino)
    rw [hrun] at hfree
    simp at hfree

theorem Inv.run (h : Inv V n reserved s) (hrun : Run s s') : Inv V n reserved s' := by
  induction hrun with
  | refl => exact h
  | tail _ hstep ih => exact ih.step hstep

/-! ### From a new volume -/

/-- **Inode numbers are exclusive and counted.** In every state of a run each descriptor counts the
clear bits of its group's bitmap; a number that is returned is above the reserved ones, inside the
volume and not outstanding; and a call fails only where no bit that stands for an inode is clear. -/
theorem newInode_exclusive {now now' total n bgSyncBatch preallocGoalLen : ℕ} {d d₁ d₂ : BlockDevice}
    {sbi : SbInfo} (hd : d.Usable 4096 n) (htotal : total < 2 ^ 32)
    (hmkfs : ext4Mkfs now 4096 total d = (some (), d₁)) (hmagic : HasMagic (d₁.block 4096 0))
    (hmount : ext4FillSuper now' d₁ = (some sbi, d₂)) {s : State}
    (hrun : Run ⟨Fs.ofMount d₂ sbi bgSyncBatch preallocGoalLen, ∅⟩ s) :
    (∀ g < sbi.sGroupsCount,
      (s.fs.desc g).getField 0 Gd.bgFreeInodesCountLo = s.fs.clearInodes g) ∧
    (∀ preferredGroup ino fs', s.fs.ext4NewInodeInGroup preferredGroup = (some ino, fs') →
      Mkfs.reservedInodesG0 4096 total < ino ∧ ino ≤ sbi.sInodesCount ∧ ino ∉ s.outstanding) ∧
    ∀ preferredGroup fs', s.fs.ext4NewInodeInGroup preferredGroup = (none, fs') →
      ∀ g < sbi.sGroupsCount, ∀ i, sbi.InodeBit g i → (s.fs.inodeBitmapOf g).bit i = true := by
  have hformatted := Mkfs.formatted_of_mkfs hd htotal hmkfs hmagic
  have hstart : Inv (Mkfs.volume 4096 total sbi.toSbGeom) (d.bdNrSectors / (4096 / d.bdSectorSize))
      (Mkfs.reservedInodesG0 4096 total) ⟨Fs.ofMount d₂ sbi bgSyncBatch preallocGoalLen, ∅⟩ := by
    refine ⟨fun i hi ↦ absurd hi (Set.notMem_empty i), fun i hi ↦ absurd hi (Set.notMem_empty i), ?_⟩
    rw [Set.union_empty]
    exact hformatted.inodesOnDisk hmount bgSyncBatch preallocGoalLen
  have hinv := hstart.run hrun
  have hgeom : s.fs.sbi.toSbGeom = sbi.toSbGeom := hinv.onDisk.geom
  refine ⟨fun g hg ↦ hinv.onDisk.count_eq_clearInodes hg, fun preferredGroup ino fs' hnew ↦ ?_,
    fun preferredGroup fs' hfail g hg i hi ↦ ?_⟩
  · obtain ⟨hlt, hle, hout, -⟩ := hinv.allocated hnew
    exact ⟨hlt, hle, hout⟩
  · exact hinv.onDisk.bit_of_groupFull hg ((hinv.full hfail).2 g hg) (hgeom ▸ hi)

/-- On the small volume: take three inodes, free the second, take one more. -/
theorem exists_small_run : ∃ fs₁ fs₂ fs₃ fs₄ fs₅,
    Mkfs.smallFs.ext4NewInodeInGroup 0 = (some 11, fs₁) ∧
      fs₁.ext4NewInodeInGroup 7 = (some 12, fs₂) ∧ fs₂.ext4NewInodeInGroup 0 = (some 13, fs₃) ∧
        fs₃.ext4FreeInode 12 = (some (), fs₄) ∧ fs₄.ext4NewInodeInGroup 0 = (some 12, fs₅) :=
  ⟨_, _, _, _, _, eq_of_fst_eq (by decide +kernel), eq_of_fst_eq (by decide +kernel),
    eq_of_fst_eq (by decide +kernel), eq_of_fst_eq (by decide +kernel),
    eq_of_fst_eq (by decide +kernel)⟩

theorem newInode_exclusive_64 :
    10 < 12 ∧ 12 ≤ 64 ∧ 12 ∉ (insert 13 (insert 12 (insert 11 (∅ : Set ℕ))) \ {12}) := by
  obtain ⟨fs₁, fs₂, fs₃, fs₄, fs₅, h₁, h₂, h₃, h₄, h₅⟩ := exists_small_run
  have hstep₃ := @Step.newInode _ _ (insert 12 (insert 11 ∅)) _ _ h₃
  have hrun := (((Relation.ReflTransGen.single (@Step.newInode _ _ ∅ _ _ h₁)).tail
    (Step.newInode h₂)).tail hstep₃).tail (Step.freeInode (by simp) h₄)
  exact (newInode_exclusive (BlockDevice.holds_blank 512 8 64 (by norm_num) (by norm_num)).1
    (by norm_num) Mkfs.mkfs_small (by unfold HasMagic; decide +kernel) Mkfs.fillSuper_small_eq
    hrun).2.1 0 12 fs₅ h₅

end Ialloc

end MiniExt4
