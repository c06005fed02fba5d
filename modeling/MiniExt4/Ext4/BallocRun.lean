import MiniExt4.Ext4.MkfsMount

/-!
# Runs of the block allocator

A run interleaves `ext4_new_blocks_in_group` and `ext4_free_block` over one mounted volume. Beside the
filesystem it remembers the outstanding blocks: those that were returned and not yet freed. What ties
the two together is that the volume is mounted with exactly its metadata and the outstanding blocks
marked, and that no outstanding block is metadata.

The invariant is one line because `Volume.Mounted` carries the set of used blocks: the marks are the
metadata and the outstanding blocks, and the two have nothing in common. An allocation adds blocks that were
not marked (`Inv.allocated`), so that they are not outstanding, and a release takes one away.
-/

namespace MiniExt4

open StateErr

namespace Balloc

/-- A filesystem and the blocks that were returned and are not freed. -/
structure State where
  fs : Fs
  outstanding : Set ℕ

/-- One call. A call that returns an error leaves the outstanding blocks as they were. -/
inductive Step : State → State → Prop
  | newBlocks {fs fs' : Fs} {out : Set ℕ} {goalLen preferredGroup b len : ℕ}
      (hrun : fs.ext4NewBlocksInGroup goalLen preferredGroup = (some (b, len), fs')) :
      Step ⟨fs, out⟩ ⟨fs', out ∪ Set.Ico b (b + len)⟩
  | newBlocksFail {fs fs' : Fs} {out : Set ℕ} {goalLen preferredGroup : ℕ}
      (hrun : fs.ext4NewBlocksInGroup goalLen preferredGroup = (none, fs')) :
      Step ⟨fs, out⟩ ⟨fs', out⟩
  | freeBlock {fs fs' : Fs} {out : Set ℕ} {b : ℕ} (hb : b ∈ out)
      (hrun : fs.ext4FreeBlock b = (some (), fs')) : Step ⟨fs, out⟩ ⟨fs', out \ {b}⟩
  | freeBlockFail {fs fs' : Fs} {out : Set ℕ} {b : ℕ} (hb : b ∈ out)
      (hrun : fs.ext4FreeBlock b = (none, fs')) : Step ⟨fs, out⟩ ⟨fs', out⟩

/-- Any sequence of calls. -/
abbrev Run : State → State → Prop := Relation.ReflTransGen Step

/-! ### What every call preserves -/

/-- The blocks marked used are those of `base`, which are never freed, and the outstanding ones. -/
structure Inv (V : Volume) (base : Set ℕ) (s : State) : Prop where
  meta_mem : ∀ b, V.IsMeta b → b ∈ base
  disjoint : Disjoint base s.outstanding
  lt_blocks : ∀ b ∈ s.outstanding, b < V.blocks
  mounted : V.Mounted (base ∪ s.outstanding) s.fs

variable {V : Volume} {base : Set ℕ} {s s' : State}

/-- What is allocated is new: not outstanding, and not in the base. -/
theorem Inv.allocated (h : Inv V base s) {goalLen preferredGroup b len : ℕ} {fs' : Fs}
    (hrun : s.fs.ext4NewBlocksInGroup goalLen preferredGroup = (some (b, len), fs')) :
    V.Allocated (base ∪ s.outstanding) (max 1 goalLen) s.fs b len fs' := by
  have hpost := h.mounted.newBlocks goalLen preferredGroup
  rwa [wp_of_eq hrun] at hpost

theorem disjoint_of_allocated {goalLen b len : ℕ} {fs' : Fs}
    (halloc : V.Allocated (base ∪ s.outstanding) goalLen s.fs b len fs') :
    Disjoint base (Set.Ico b (b + len)) ∧ Disjoint s.outstanding (Set.Ico b (b + len)) := by
  have hfresh : Disjoint (base ∪ s.outstanding) (Set.Ico b (b + len)) :=
    Set.disjoint_right.2 fun c hc ↦ halloc.fresh c hc.1 hc.2
  exact Set.disjoint_union_left.1 hfresh

theorem Inv.step (h : Inv V base s) (hstep : Step s s') : Inv V base s' := by
  cases hstep with
  | @newBlocks fs fs' out goalLen preferredGroup b len hrun =>
    have halloc := h.allocated hrun
    refine ⟨h.meta_mem, h.disjoint.union_right (disjoint_of_allocated halloc).1, ?_, ?_⟩
    · rintro c (hc | hc)
      · exact h.lt_blocks c hc
      · exact lt_of_lt_of_le hc.2 halloc.le_blocks
    · simpa only [Set.union_assoc] using halloc.mounted
  | @newBlocksFail fs fs' out goalLen preferredGroup hrun =>
    have hpost := h.mounted.newBlocks goalLen preferredGroup
    rw [wp_of_eq hrun] at hpost
    exact ⟨h.meta_mem, h.disjoint, h.lt_blocks, hpost.1⟩
  | @freeBlock fs fs' out b hb hrun =>
    have hbase : b ∉ base := Set.disjoint_right.1 h.disjoint hb
    have hpost := h.mounted.freeBlock (h.lt_blocks b hb) fun hmeta ↦ hbase (h.meta_mem b hmeta)
    rw [wp_of_eq hrun] at hpost
    obtain ⟨-, ⟨-, hmounted⟩ | ⟨hnone, -⟩⟩ := hpost
    · refine ⟨h.meta_mem, h.disjoint.mono_right Set.sdiff_subset, fun c hc ↦ h.lt_blocks c hc.1, ?_⟩
      rwa [Set.union_sdiff_distrib, Set.sdiff_singleton_eq_self hbase] at hmounted
    · exact absurd hnone (by simp)
  | @freeBlockFail fs fs' out b hb hrun =>
    have hbase : b ∉ base := Set.disjoint_right.1 h.disjoint hb
    have hpost := h.mounted.freeBlock (h.lt_blocks b hb) fun hmeta ↦ hbase (h.meta_mem b hmeta)
    rw [wp_of_eq hrun] at hpost
    obtain ⟨-, ⟨hsome, -⟩ | ⟨-, -, rfl⟩⟩ := hpost
    · exact absurd hsome (by simp)
    · exact h

theorem Inv.run (h : Inv V base s) (hrun : Run s s') : Inv V base s' := by
  induction hrun with
  | refl => exact h
  | tail _ hstep ih => exact ih.step hstep

/-! ### From a new volume -/

/-- The invariant holds right after a new volume was mounted. -/
theorem inv_of_mkfs (bgSyncBatch preallocGoalLen : ℕ) {total now now' : ℕ}
    {d d₁ d₂ : BlockDevice} {sbi : SbInfo} (hd : d.Usable 4096 total) (htotal : total < 2 ^ 32)
    (hfit : Mkfs.Fits 4096 total) (hmkfs : ext4Mkfs now 4096 total d = (some (), d₁))
    (hmount : ext4FillSuper now' d₁ = (some sbi, d₂)) :
    Inv (Mkfs.volume 4096 total sbi.toSbGeom) (Mkfs.initialUsed 4096 total)
      ⟨Fs.ofMount d₂ sbi bgSyncBatch preallocGoalLen, ∅⟩ := by
  have hmounted :=
    (Mkfs.mounted_of_mkfs bgSyncBatch preallocGoalLen hd htotal hfit hmkfs hmount).2
  exact ⟨hmounted.meta_used, Set.disjoint_empty _, fun b hb ↦ absurd hb (Set.notMem_empty b),
    by simpa using hmounted⟩

/-- **No block is handed out twice.** A run of blocks that is returned lies in one group of the
volume, it is disjoint from every outstanding block, and none of it is metadata or the root
directory. -/
theorem newBlocks_disjoint {total now now' bgSyncBatch preallocGoalLen : ℕ} {d d₁ d₂ : BlockDevice}
    {sbi : SbInfo} (hd : d.Usable 4096 total) (htotal : total < 2 ^ 32)
    (hgroups : 0 < Mkfs.groupsCount 4096 total)
    (hroom : ∀ g < Mkfs.groupsCount 4096 total,
      Mkfs.metadataBlocks 4096 total g ≤ Mkfs.groupBlocks 4096 total g)
    (hmkfs : ext4Mkfs now 4096 total d = (some (), d₁))
    (hmount : ext4FillSuper now' d₁ = (some sbi, d₂)) {s : State}
    (hrun : Run ⟨Fs.ofMount d₂ sbi bgSyncBatch preallocGoalLen, ∅⟩ s)
    {goalLen preferredGroup b len : ℕ} {fs' : Fs}
    (halloc : s.fs.ext4NewBlocksInGroup goalLen preferredGroup = (some (b, len), fs')) :
    0 < len ∧ 0 < b ∧ b + len ≤ sbi.sBlocksCount ∧
      b / sbi.sBlocksPerGroup = (b + len - 1) / sbi.sBlocksPerGroup ∧
      Disjoint s.outstanding (Set.Ico b (b + len)) ∧
      ∀ r : Mkfs.Role, r.Valid 4096 total → r.pos 4096 total ∉ Set.Ico b (b + len) := by
  have hfit : Mkfs.Fits 4096 total :=
    ⟨by norm_num, Mkfs.no_wrap_of_groupsCount_pos htotal hgroups, hroom⟩
  have hinv :=
    (inv_of_mkfs bgSyncBatch preallocGoalLen hd htotal hfit hmkfs hmount).run hrun
  have hnew := hinv.allocated halloc
  obtain ⟨hbase, hout⟩ := disjoint_of_allocated hnew
  exact ⟨hnew.len_pos, hnew.pos, hnew.le_blocks, hnew.same_group, hout,
    fun r hr ↦ Set.disjoint_left.1 hbase ⟨r, hr, rfl⟩⟩

/-- On the small volume: take five blocks, free the second of them, take two more. -/
theorem exists_small_run : ∃ fs₁ fs₂ fs₃,
    Mkfs.smallFs.ext4NewBlocksInGroup 5 0 = (some (9, 5), fs₁) ∧
      fs₁.ext4FreeBlock 10 = (some (), fs₂) ∧
        fs₂.ext4NewBlocksInGroup 2 0 = (some (14, 2), fs₃) :=
  ⟨_, _, _, eq_of_fst_eq (by decide +kernel), eq_of_fst_eq (by decide +kernel),
    eq_of_fst_eq (by decide +kernel)⟩

theorem newBlocks_disjoint_64 :
    Disjoint ((∅ ∪ Set.Ico 9 (9 + 5)) \ {10}) (Set.Ico 14 (14 + 2)) := by
  obtain ⟨fs₁, fs₂, fs₃, hfirst, hfree, hnext⟩ := exists_small_run
  have hstep₁ := @Step.newBlocks _ _ ∅ _ _ _ _ hfirst
  have hstep₂ := @Step.freeBlock _ _ (∅ ∪ Set.Ico 9 (9 + 5)) 10 (by simp) hfree
  have hrun := (Relation.ReflTransGen.single hstep₁).tail hstep₂
  exact (newBlocks_disjoint (BlockDevice.holds_blank 512 8 64 (by norm_num) (by norm_num)).1
    (by norm_num) (by decide) (by decide) Mkfs.mkfs_small Mkfs.fillSuper_small_eq hrun
    hnext).2.2.2.2.1

end Balloc

end MiniExt4
