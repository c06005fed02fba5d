import MiniExt4.Ext4.BallocBits

/-!
# What the block allocator does

The results of `BallocBits` over the view of `Volume`, where bit `i` of the bitmap of group `g` stands
for block `g * perGroup + i`: on a mounted volume `ext4NewBlocksInGroup` either fails and changes no
mark, or marks a run of unmarked blocks inside one group (`Mounted.newBlocks`), and `ext4FreeBlock`
clears one mark (`Mounted.freeBlock`). Neither writes outside the allocator's own metadata.

The translation is division: block `b` is bit `b % perGroup` of group `b / perGroup`, which is right for
layouts whose first data block is 0 and whose groups are as large as a bitmap (`Volume.WellFormed`). The
modules above quote these two statements and know of no bitmap.
-/

namespace MiniExt4

open StateErr

namespace Volume

variable {V : Volume} {U U' : Set ℕ} {fs fs' fs'' : Fs} {g goalLen b len : ℕ}

/-! ### Marks under a change to a bitmap -/

/-- The marks are as they were if the bitmaps and descriptors are. -/
theorem Mounted.of_kept (h : V.Mounted U fs) (hkept : V.Kept fs fs') (h' : V.Coherent V.blocks fs') :
    V.Mounted U fs' where
  wf := h.wf
  usable := h'.usable
  blockSize := h'.blockSize
  geom := h'.geom
  blocksCount := h'.blocksCount
  groupDesc := h'.groupDesc
  desc_blockBitmap g hg := h'.desc_blockBitmap g (h.wf.group hg)
  desc_inodeBitmap g hg := by rw [hkept.desc g (h.wf.group hg), h.desc_inodeBitmap g hg]
  desc_inodeTable g hg := by rw [hkept.desc g (h.wf.group hg), h.desc_inodeTable g hg]
  bit_iff g hg := by rw [hkept.bitmap g (h.wf.group hg)]; exact h.bit_iff g hg
  meta_used := h.meta_used
  cache hv := ⟨(h'.cache hv).1.1, (h'.cache hv).2⟩

/-- The marks of one group's blocks change with its bitmap. -/
theorem Mounted.of_changed (h : V.Mounted U fs) {bitmap : Buf} {v : ℕ}
    (hchanged : V.Changed g bitmap ((fs.desc g).setField 0 Gd.bgFreeBlocksCountLo v) fs fs')
    (h' : V.Coherent V.blocks fs')
    (hself : ∀ i < V.groupBlocks g, bitmap.bit i = true ↔ g * V.perGroup + i ∈ U')
    (hother : ∀ g' < V.groups, g' ≠ g → ∀ i < V.groupBlocks g',
      g' * V.perGroup + i ∈ U' ↔ g' * V.perGroup + i ∈ U)
    (hmeta : ∀ b, V.IsMeta b → b ∈ U') : V.Mounted U' fs' := by
  have hdesc : ∀ g' < V.groups, ∀ f : Buf.Field, f.Disjoint Gd.bgFreeBlocksCountLo →
      (fs'.desc g').getField 0 f = (fs.desc g').getField 0 f := by
    intro g' hg' f hf
    by_cases heq : g' = g
    · rw [heq, hchanged.desc, Buf.getField_setField_of_disjoint _ _ _ hf]
    · rw [hchanged.desc_ne g' (h.wf.group hg') heq]
  refine { h' with
    wf := h.wf
    desc_blockBitmap := fun g' hg' ↦ h'.desc_blockBitmap g' (h.wf.group hg')
    cache := fun hv ↦ ⟨(h'.cache hv).1.1, (h'.cache hv).2⟩
    desc_inodeBitmap := fun g' hg' ↦ by rw [hdesc g' hg' _ (by decide), h.desc_inodeBitmap g' hg']
    desc_inodeTable := fun g' hg' ↦ by rw [hdesc g' hg' _ (by decide), h.desc_inodeTable g' hg']
    bit_iff := fun g' hg' i hi ↦ ?_
    meta_used := hmeta }
  by_cases heq : g' = g
  · subst heq
    have hlt : i < 8 * V.bs := by
      have hper := h.wf.perGroup_eq
      unfold groupBlocks at hi
      omega
    rw [hchanged.bitmap, Buf.bit_clip _ hlt]
    exact hself i hi
  · rw [hchanged.bitmap_ne g' (h.wf.group hg') heq, h.bit_iff g' hg' i hi, hother g' hg' heq i hi]

/-- Storing a block that is neither a descriptor nor a block bitmap. -/
theorem Mounted.put (h : V.Mounted U fs) {b : ℕ} (buf : Buf)
    (hdesc : ∀ g < V.groups, b ≠ V.descBlock g) (hbitmap : ∀ g < V.groups, b ≠ V.blockBitmap g) :
    V.Mounted U (fs.put b buf) := by
  obtain ⟨hput, hkept⟩ := h.toOnDisk.carried.put buf (fun g hg ↦ hdesc g hg.1) fun g hg ↦
    hbitmap g hg.1
  refine h.of_kept hkept ⟨hput, fun hv ↦ ?_⟩
  obtain ⟨hlt, hdirty, hbuf⟩ := h.coherent.cache hv
  exact ⟨hlt, hdirty, hbuf.trans (hkept.bitmap _ hlt).symm⟩

/-! ### The outcome of an allocation -/

/-- From `fs` with marks `U` the run `[b, b + len)` was allocated: it was unmarked, it lies in one
group, and now it is marked. -/
structure Allocated (V : Volume) (U : Set ℕ) (goalLen : ℕ) (fs : Fs) (b len : ℕ) (fs' : Fs) :
    Prop where
  bs_le : V.bs ≤ blockSizeDefault
  len_pos : 0 < len
  len_le : len ≤ goalLen
  pos : 0 < b
  mod_pos : 0 < b % V.perGroup
  le_blocks : b + len ≤ V.blocks
  same_group : b / V.perGroup = (b + len - 1) / V.perGroup
  fresh : ∀ c, b ≤ c → c < b + len → c ∉ U
  mounted : V.Mounted (U ∪ Set.Ico b (b + len)) fs'
  frame : V.AllocFrame fs fs'

/-- What `ext4_new_blocks_in_group` and its loops leave. -/
def AllocPost (V : Volume) (U : Set ℕ) (goalLen : ℕ) (fs : Fs) : Option (ℕ × ℕ) → Fs → Prop
  | none, fs' => V.Mounted U fs' ∧ V.AllocFrame fs fs'
  | some (b, len), fs' => V.Allocated U goalLen fs b len fs'

/-- A run is shorter than a group: the first block of a group is never allocated. -/
theorem Allocated.len_lt (h : V.Allocated U goalLen fs b len fs') : len < V.perGroup := by
  have hpos := h.mounted.wf.perGroup_pos
  have hmod := h.mod_pos
  have hlen := h.len_pos
  have hlast := Nat.div_add_mod (b + len - 1) V.perGroup
  have hfirst := Nat.div_add_mod b V.perGroup
  have hlt := Nat.mod_lt (b + len - 1) hpos
  rw [← h.same_group] at hlast
  omega

/-- The groups of an allocation are those of the volume, the last perhaps cut short. -/
theorem GroupGeom.groupBlocks_le {bpg bc gc : ℕ} (h : V.GroupGeom bpg bc gc)
    (hper : V.perGroup = min (V.bs * 8) V.blocks) (hg : g < gc) :
    g * bpg = g * V.perGroup ∧ min bpg (bc - g * bpg) ≤ V.groupBlocks g := by
  have hbpg := h.perGroup_le
  have hle := h.le_blocksCount
  have hbc := h.blocksCount_le
  have hmul := h.mul_lt hg
  have heq : g * bpg = g * V.perGroup := by
    rcases h.full_or_one with hfull | hone
    · rw [show bpg = V.perGroup by omega]
    · -- one group
      have hlt : g < 1 := (Nat.mul_lt_mul_right h.perGroup_pos).1 (by omega)
      obtain rfl : g = 0 := by omega
      rw [Nat.zero_mul, Nat.zero_mul]
  refine ⟨heq, ?_⟩
  rw [heq, groupBlocks]
  omega

/-- The blocks of one group have one quotient. -/
theorem div_perGroup_eq {j : ℕ} (hj : j < V.perGroup) : (g * V.perGroup + j) / V.perGroup = g := by
  rw [Nat.mul_comm, Nat.mul_add_div (by omega), Nat.div_eq_of_lt hj, Nat.add_zero]

/-- A run of bits of a group is a run of blocks. -/
theorem TookRun.allocated (h : V.Mounted U fs) {limit i : ℕ}
    (hrun : V.TookRun V.blocks goalLen limit fs g i len fs') (hlimit : limit ≤ V.groupBlocks g) :
    V.Allocated U goalLen fs (g * V.perGroup + i) len fs' := by
  have hg := hrun.changed.group.1
  have hlen := hrun.len_pos
  have hpos := hrun.pos
  have hend : i + len ≤ V.groupBlocks g := hrun.le_limit.trans hlimit
  have hper : V.groupBlocks g ≤ V.perGroup := Nat.min_le_left _ _
  have hin : g * V.perGroup + V.groupBlocks g ≤ V.blocks := by
    unfold groupBlocks at hend ⊢
    omega
  refine ⟨hrun.bs_le, hlen, hrun.len_le, by omega, ?_, by omega, ?_, fun c hc hc' ↦ ?_, ?_, hrun.frame⟩
  · rw [Nat.mul_add_mod_of_lt (by omega)]
    exact hpos
  · rw [div_perGroup_eq (by omega), Nat.add_assoc, Nat.add_sub_assoc (by omega),
      div_perGroup_eq (by omega)]
  · have hbit := h.bit_iff g hg (c - g * V.perGroup) (by omega)
    rw [hrun.clear _ (by omega) (by omega), show g * V.perGroup + (c - g * V.perGroup) = c by omega] at hbit
    exact fun hU ↦ Bool.false_ne_true (hbit.2 hU)
  · refine h.of_changed hrun.changed hrun.coherent (fun j hj ↦ ?_) (fun g' hg' hne j hj ↦ ?_)
      fun c hc ↦ .inl (h.meta_used c hc)
    · rw [Buf.bit_setBits, Bool.or_eq_true, h.bit_iff g hg j hj, Set.mem_union, Set.mem_Ico]
      refine or_congr_right ?_
      simp only [decide_eq_true_eq]
      omega
    · -- the run's blocks are of group `g`
      have hj' : j < V.perGroup := lt_of_lt_of_le hj (Nat.min_le_left _ _)
      rw [Set.mem_union]
      refine or_iff_left fun hmem ↦ hne ?_
      obtain ⟨hlo, hhi⟩ := Set.mem_Ico.1 hmem
      rw [← div_perGroup_eq (V := V) (g := g') hj',
        show g' * V.perGroup + j = g * V.perGroup + (g' * V.perGroup + j - g * V.perGroup) by omega,
        div_perGroup_eq (by omega)]

/-- **An allocation marks an unmarked run or fails and changes no mark.** -/
theorem Mounted.newBlocks (h : V.Mounted U fs) (goalLen preferredGroup : ℕ) :
    wp (Fs.ext4NewBlocksInGroup goalLen preferredGroup) (V.AllocPost U (max 1 goalLen) fs) fs := by
  refine wp_mono (h.coherent.newBlocks goalLen preferredGroup) fun r fs' hpost ↦ ?_
  cases r with
  | none => exact ⟨h.of_kept hpost.2.1 hpost.1, hpost.2.2.1⟩
  | some r =>
    obtain ⟨b, len⟩ := r
    obtain ⟨⟨bpg, bc, gc⟩, hgeom, g, hg, i, rfl, hrun⟩ := hpost
    obtain ⟨hmul, hle⟩ := (h.toOnDisk.carried.allocGeometry hrun.bs_le hgeom).groupBlocks_le h.wf.perGroup_eq hg
    show V.Allocated U (max 1 goalLen) fs (g * bpg + i) len fs'
    rw [hmul]
    exact hrun.allocated h hle

/-! ### Freeing -/

/-- The group and the bit of a block. -/
theorem WellFormed.mem_group (h : V.WellFormed) (hb : b < V.blocks) :
    b / V.perGroup < V.groups ∧ b % V.perGroup < V.groupBlocks (b / V.perGroup) := by
  have hpos := h.perGroup_pos
  have hdm := Nat.div_add_mod' b V.perGroup
  have hmod := Nat.mod_lt b hpos
  refine ⟨?_, ?_⟩
  · rw [h.groups_eq]
    refine (Nat.le_div_iff_mul_le hpos).2 ?_
    rw [Nat.succ_mul]
    omega
  · unfold groupBlocks
    omega

/-- The bit of a block that is not metadata was its mark. -/
theorem Freed.mounted (h : V.Mounted U fs) (hfreed : V.Freed V.blocks fs b fs') (hb : b < V.blocks)
    (hmeta : ¬ V.IsMeta b) : V.Mounted (U \ {b}) fs' := by
  obtain ⟨hg, hi⟩ := h.wf.mem_group hb
  have hdm := Nat.div_add_mod' b V.perGroup
  have hpos := h.wf.perGroup_pos
  refine h.of_changed hfreed.changed hfreed.coherent (fun i hi' ↦ ?_) (fun g' hg' hne i hi' ↦ ?_)
    fun c hc ↦ ⟨h.meta_used c hc, fun e ↦ hmeta (e ▸ hc)⟩
  · rw [Buf.bit_clearBit, Bool.and_eq_true, h.bit_iff _ hg i hi', Set.mem_sdiff,
      Set.mem_singleton_iff]
    refine and_congr_right fun _ ↦ ?_
    simp only [Bool.not_eq_true', decide_eq_false_iff_not]
    omega
  · have hle : V.groupBlocks g' ≤ V.perGroup := Nat.min_le_left _ _
    rw [Set.mem_sdiff, Set.mem_singleton_iff]
    refine and_iff_left_of_imp fun _ he ↦ hne ?_
    rw [← he, div_perGroup_eq (by omega)]

/-- **Freeing a block that is not metadata clears its mark.** On a volume whose blocks are too large
for the pool it fails and changes nothing. -/
theorem Mounted.freeBlock (h : V.Mounted U fs) (hb : b < V.blocks) (hmeta : ¬ V.IsMeta b) :
    wp (Fs.ext4FreeBlock b) (fun r fs' ↦ V.AllocFrame fs fs' ∧
      (r = some () ∧ V.Mounted (U \ {b}) fs' ∨ r = none ∧ blockSizeDefault < V.bs ∧ fs' = fs)) fs := by
  have hpos := h.wf.perGroup_pos
  have hper := h.wf.perGroup_eq
  obtain ⟨hg, hi⟩ := h.wf.mem_group hb
  have hmod := Nat.mod_lt b hpos
  by_cases hbs : V.bs ≤ blockSizeDefault
  · obtain ⟨fs', hrun, hpost⟩ := h.coherent.freeBlock ⟨hbs, h.wf.group hg, hmod, by omega⟩
    rw [wp, hrun]
    by_cases hset : (fs.block (V.blockBitmap (b / V.perGroup))).bit (b % V.perGroup) = true
    · rw [if_pos hset] at hpost
      exact ⟨hpost.frame, .inl ⟨rfl, hpost.mounted h hb hmeta⟩⟩
    · rw [if_neg hset] at hpost
      have hnot : b ∉ U := fun hU ↦ hset ((h.bit_iff _ hg _ hi).2 (by rwa [Nat.div_add_mod']))
      rw [hpost]
      refine ⟨.refl fs, .inl ⟨rfl, ?_⟩⟩
      rwa [Set.sdiff_singleton_eq_self hnot]
  · have hno : ¬ V.Reaches b := fun hreach ↦ hbs hreach.bs_le
    rw [wp, h.toOnDisk.carried.freeBlock_of_not hno]
    exact ⟨.refl fs, .inr ⟨rfl, by omega, rfl⟩⟩

end Volume

end MiniExt4
