import MiniExt4.Ext4.DirMap
import MiniExt4.Ext4.InodeSpec
import MiniExt4.Ext4.ReleaseSpec

/-!
# New blocks of a directory

A directory gets a block in two steps: the allocator marks one, and `i_block` or the indirect block, which
may have to be allocated too, takes its number. On a mounted volume this touches the metadata of the
allocator, the indirect block and a block that was free, and changes the map in one place (`NewBlock`).

There are three places that the number of a new block can go to: a direct word, an entry of the indirect
block, and the first entry of an indirect block that is made for it. `NewBlock` says the same of all of
them, so that the callers do not see which it was.
-/

namespace MiniExt4

open StateErr
open Releasing (IsData)

/-- The word that was set. -/
theorem Inode.word_setWord_self (inode : Inode) (i : ℕ) {v : ℕ} (hv : v < 2 ^ 32) :
    (inode.setWord i v).word i = v := by
  rw [Inode.word, Inode.setWord]
  exact Buf.le_putLe_of_lt (by norm_num; omega)

/-- Another word is as it was. -/
theorem Inode.word_setWord_of_ne (inode : Inode) {i j : ℕ} (v : ℕ) (h : j ≠ i) :
    (inode.setWord i v).word j = inode.word j := by
  rw [Inode.word, Inode.setWord]
  exact Buf.le_putLe_disjoint (by omega)

namespace FsInode

variable {V : Volume} {U : Set ℕ} {i j b v phys lblk : ℕ} {s s' : FsInode} {fs' : Fs}

/-! ### The map -/

/-- A place of the map depends on its word, and behind word 12 on the indirect block. -/
theorem dirWord_congr (hbs : s'.fs.blockSize = s.fs.blockSize)
    (hword : s'.inode.word i = s.inode.word i) (hind : s'.inode.word 12 = s.inode.word 12)
    (hblock : s.inode.word 12 ≠ 0 → s'.fs.block (s.inode.word 12) = s.fs.block (s.inode.word 12)) :
    s'.dirWord i = s.dirWord i := by
  unfold dirWord
  rw [hword, hind, hbs]
  by_cases h : s.inode.word 12 = 0
  · simp [h]
  · rw [hblock h]

/-- A block behind the first twelve is in the indirect block. -/
theorem lt_of_dirWord_ne_zero (h : s.dirWord i ≠ 0) (hi : 12 ≤ i) :
    i - 12 < s.fs.blockSize / 4 ∧ s.inode.word 12 ≠ 0 := by
  by_contra hout
  exact h (dirWord_of_not (by omega) hout)

/-- A block outside the metadata that is marked as used. -/
def InUse (V : Volume) (U : Set ℕ) (b : ℕ) : Prop := b ∈ U ∧ IsData V b

/-- A block in use stays in use as more blocks are. -/
theorem InUse.mono {U' : Set ℕ} (h : InUse V U b) (hsub : U ⊆ U') : InUse V U' b := ⟨hsub h.1, h.2⟩

/-- A directory with the direct and the indirect block map on a mounted volume. No block is mapped twice. -/
structure DirOn (V : Volume) (U : Set ℕ) (s : FsInode) : Prop where
  mounted : V.Mounted U s.fs
  dvd : 4 ∣ V.bs
  noExtents : s.inode.hasExtents = false
  indirect : s.inode.word 12 ≠ 0 → InUse V U (s.inode.word 12)
  inUse : ∀ i, s.dirWord i ≠ 0 → InUse V U (s.dirWord i)
  inj : ∀ i j, s.dirWord i ≠ 0 → s.dirWord i = s.dirWord j → i = j
  apart : ∀ i, s.dirWord i ≠ 0 → s.dirWord i ≠ s.inode.word 12

/-- A block of the directory is found where the map has it. -/
theorem DirOn.getBlocknr (h : DirOn V U s) (hbs : V.bs ≤ blockSizeDefault) (i : ℕ) :
    ext4DirGetBlocknr i s = (if s.dirWord i = 0 then none else some (s.dirWord i), s) := by
  have hbs' := h.mounted.blockSize
  refine getBlocknr_eq h.mounted.usable h.noExtents (fun hind ↦ (h.indirect hind).2.2.1) (fun _ ↦ ?_) ?_
  · rw [hbs']
    exact h.dvd
  · rwa [hbs']

/-- A buffer is given where the blocks fit, and nothing changes. -/
theorem of_onFs_mallocBlock_some (h : onFs Fs.mallocBlock s = (some (), s')) :
    s.fs.blockSize ≤ blockSizeDefault ∧ s = s' := by
  by_cases hbs : s.fs.blockSize ≤ blockSizeDefault
  · rw [onFs_mallocBlock hbs] at h
    exact ⟨hbs, (Prod.mk.inj h).2⟩
  · have hnone : (onFs Fs.mallocBlock s).1 = none := by
      rw [onFs, zoom_apply, Fs.mallocBlock, get_bind, guard_false hbs]
      rfl
    rw [h] at hnone
    simp at hnone

/-- Taking a buffer changes nothing. -/
theorem mallocBlock_snd (s : FsInode) : (onFs Fs.mallocBlock s).2 = s := by
  have hsnd : (Fs.mallocBlock s.fs).2 = s.fs := by
    unfold Fs.mallocBlock
    exact bind_snd rfl fun _ ↦ guard_snd _ _
  rw [onFs, zoom_apply, hsnd]

/-- On a mounted volume reading a block changes nothing. -/
theorem readBlock_snd (h : V.Mounted U s.fs) (b : ℕ) : (onFs (Fs.readBlock b) s).2 = s := by
  rw [onFs, zoom_apply, h.usable.readBlock_eq]

/-- Looking a block up reads only. -/
theorem DirOn.getBlocknr_snd (h : DirOn V U s) (i : ℕ) : (ext4DirGetBlocknr i s).2 = s := by
  unfold ext4DirGetBlocknr
  rw [get_bind, if_neg (by rw [h.noExtents]; exact Bool.false_ne_true)]
  split
  · exact bind_snd (guard_snd _ _) fun _ ↦ rfl
  · exact bind_snd (guard_snd _ _) fun _ ↦ bind_snd (guard_snd _ _) fun _ ↦ bind_snd (guard_snd _ _) fun _ ↦
      bind_snd (mallocBlock_snd s) fun _ ↦ bind_snd (readBlock_snd h.mounted _) fun _ ↦
        bind_snd (guard_snd _ _) fun _ ↦ rfl

/-- A block that was found is in the map. -/
theorem DirOn.of_getBlocknr_some (h : DirOn V U s) (hbs : V.bs ≤ blockSizeDefault)
    (hsome : (ext4DirGetBlocknr i s).1 = some b) : s.dirWord i = b ∧ b ≠ 0 := by
  rw [h.getBlocknr hbs] at hsome
  split at hsome
  · simp at hsome
  · rename_i hne
    obtain rfl := Option.some.inj hsome
    exact ⟨rfl, hne⟩

/-- A block in the map is found. -/
theorem DirOn.getBlocknr_of_ne (h : DirOn V U s) (hbs : V.bs ≤ blockSizeDefault) (hne : s.dirWord i ≠ 0) :
    (ext4DirGetBlocknr i s).1 = some (s.dirWord i) := by
  rw [h.getBlocknr hbs, if_neg hne]

/-- A change to the filesystem that leaves the volume mounted and the indirect block alone. -/
theorem DirOn.withFs {U' : Set ℕ} (h : DirOn V U s) (hmounted : V.Mounted U' fs') (hsub : U ⊆ U')
    (hblock : s.inode.word 12 ≠ 0 → fs'.block (s.inode.word 12) = s.fs.block (s.inode.word 12)) :
    DirOn V U' { s with fs := fs' } ∧ ∀ i, dirWord { s with fs := fs' } i = s.dirWord i := by
  have hword : ∀ i, dirWord { s with fs := fs' } i = s.dirWord i := fun i ↦
    dirWord_congr (hmounted.blockSize.trans h.mounted.blockSize.symm) rfl rfl hblock
  refine ⟨⟨hmounted, h.dvd, h.noExtents, fun hind ↦ (h.indirect hind).mono hsub, fun i hi ↦ ?_,
    fun i j hi heq ↦ ?_, fun i hi ↦ ?_⟩, hword⟩
  · rw [hword] at hi ⊢
    exact (h.inUse i hi).mono hsub
  · rw [hword] at hi
    rw [hword, hword] at heq
    exact h.inj i j hi heq
  · rw [hword] at hi ⊢
    exact h.apart i hi

/-- Storing a block that is neither metadata nor the indirect block. -/
theorem DirOn.put (h : DirOn V U s) (buf : Buf) (hb : ¬ V.IsMeta b) (hne : b ≠ s.inode.word 12) :
    DirOn V U { s with fs := s.fs.put b buf } ∧ ∀ i, dirWord { s with fs := s.fs.put b buf } i = s.dirWord i := by
  refine h.withFs (h.mounted.put buf (fun g hg heq ↦ hb ?_) fun g hg heq ↦ hb ?_) le_rfl fun _ ↦
    s.fs.block_put_of_ne _ hne.symm
  · exact .inl (.inr ⟨g, hg, .inl heq⟩)
  · exact .inl (.inr ⟨g, hg, .inr heq⟩)

/-! ### Allocating -/

/-- What `ext4_new_block` leaves: a block that was free, or the marks it found. -/
theorem dirNewBlock_spec (h : V.Mounted U s.fs) :
    wp dirNewBlock (fun r s' ↦ s'.inode = s.inode ∧ V.AllocFrame s.fs s'.fs ∧
      r.elim (V.Mounted U s'.fs) fun b ↦
        b ∉ U ∧ IsData V b ∧ V.Mounted (U ∪ {b}) s'.fs ∧ V.bs ≤ blockSizeDefault) s := by
  have hnew := h.newBlocks 1 (2 ^ 32 - 1)
  rcases hrun : Fs.ext4NewBlocksInGroup 1 (2 ^ 32 - 1) s.fs with ⟨_ | ⟨b, len⟩, fs'⟩
  · rw [wp_of_eq hrun] at hnew
    have hcall : onFs Fs.ext4NewBlock s = (none, { s with fs := fs' }) := by
      rw [onFs, zoom_apply, Fs.ext4NewBlock, Fs.ext4NewBlocks, bind_of_eq_none hrun]
    rw [wp, dirNewBlock, bind_of_eq_none hcall]
    exact ⟨rfl, hnew.2, hnew.1⟩
  · rw [wp_of_eq hrun] at hnew
    have hnew : V.Allocated U 1 s.fs b len fs' := hnew
    have hlen : len = 1 := by
      have := hnew.len_pos
      have := hnew.len_le
      omega
    subst hlen
    have hpos := hnew.pos
    have hle := hnew.le_blocks
    have hfresh : b ∉ U := hnew.fresh b le_rfl (by omega)
    have hcall : onFs Fs.ext4NewBlock s = (some b, { s with fs := fs' }) := by
      rw [onFs, zoom_apply, Fs.ext4NewBlock, Fs.ext4NewBlocks, bind_of_eq_some hrun]
      rfl
    have hmounted := hnew.mounted
    rw [show Set.Ico b (b + 1) = {b} by ext c; simp only [Set.mem_Ico, Set.mem_singleton_iff]; omega]
      at hmounted
    rw [wp, dirNewBlock, bind_of_eq_some hcall, guard_true (show b ≠ 0 by omega)]
    exact ⟨rfl, hnew.frame, hfresh, ⟨by omega, by omega, fun hmeta ↦ hfresh (h.meta_used b hmeta)⟩,
      hmounted, hnew.bs_le⟩

/-- The map of `s'` is that of `s` and one more block, of the blocks of `U'`. Other blocks in use keep
their contents, but for the indirect block. -/
structure NewBlock (V : Volume) (U U' : Set ℕ) (s s' : FsInode) (lblk phys : ℕ) : Prop where
  dir : DirOn V U' s'
  sub : U ⊆ U'
  unmapped : s.dirWord lblk = 0
  maps : s'.dirWord lblk = phys
  other : ∀ i, i ≠ lblk → s'.dirWord i = s.dirWord i
  block : ∀ b, InUse V U b → b ≠ s.inode.word 12 → s'.fs.block b = s.fs.block b
  indirect : ∀ b ∈ U, b ≠ s.inode.word 12 → b ≠ s'.inode.word 12
  flags : s'.inode.iFlags = s.inode.iFlags

theorem hasExtents_congr (h : s'.inode.iFlags = s.inode.iFlags) :
    s'.inode.hasExtents = s.inode.hasExtents := by
  rw [Inode.hasExtents, Inode.hasExtents, h]

/-- A block in use that is not part of the map yet. -/
structure Spare (V : Volume) (U : Set ℕ) (s : FsInode) (phys : ℕ) : Prop where
  inUse : InUse V U phys
  fresh : ∀ i, s.dirWord i ≠ phys
  ne_indirect : phys ≠ s.inode.word 12

/-- One more word of the map, with the rest as it was. -/
theorem NewBlock.of_dirWord {U' : Set ℕ} (h : DirOn V U s) (hphys : Spare V U' s phys)
    (hsub : U ⊆ U') (hmounted : V.Mounted U' s'.fs) (hflags : s'.inode.iFlags = s.inode.iFlags)
    (hunmapped : s.dirWord lblk = 0) (hmaps : s'.dirWord lblk = phys)
    (hother : ∀ i, i ≠ lblk → s'.dirWord i = s.dirWord i)
    (hblock : ∀ b, InUse V U b → b ≠ s.inode.word 12 → s'.fs.block b = s.fs.block b)
    (hind : s'.inode.word 12 = s.inode.word 12 ∨
      InUse V U' (s'.inode.word 12) ∧ s'.inode.word 12 ∉ U ∧ s'.inode.word 12 ≠ phys) :
    NewBlock V U U' s s' lblk phys := by
  -- the indirect block is the old one, or was free
  have hindirect : ∀ b ∈ U, b ≠ s.inode.word 12 → b ≠ s'.inode.word 12 := by
    intro b hb hne
    rcases hind with heq | ⟨-, hnot, -⟩
    · rwa [heq]
    · exact fun heq ↦ hnot (heq ▸ hb)
  refine ⟨⟨hmounted, h.dvd, (hasExtents_congr hflags).trans h.noExtents, fun hne ↦ ?_, fun i hi ↦ ?_,
    fun i j hi heq ↦ ?_, fun i hi ↦ ?_⟩, hsub, hunmapped, hmaps, hother, hblock, hindirect, hflags⟩
  · rcases hind with heq | ⟨huse, -, -⟩
    · rw [heq] at hne ⊢
      exact (h.indirect hne).mono hsub
    · exact huse
  · by_cases hil : i = lblk
    · rw [hil, hmaps]
      exact hphys.inUse
    · rw [hother i hil] at hi ⊢
      exact (h.inUse i hi).mono hsub
  · -- no block is mapped twice: the new one was nowhere in the map
    by_cases hil : i = lblk <;> by_cases hjl : j = lblk
    · rw [hil, hjl]
    · rw [hil, hmaps, hother j hjl] at heq
      exact absurd heq.symm (hphys.fresh j)
    · rw [hjl, hmaps, hother i hil] at heq
      exact absurd heq (hphys.fresh i)
    · rw [hother i hil] at hi heq
      rw [hother j hjl] at heq
      exact h.inj i j hi heq
  · by_cases hil : i = lblk
    · rw [hil, hmaps]
      rcases hind with heq | ⟨-, -, hne⟩
      · rw [heq]
        exact hphys.ne_indirect
      · exact hne.symm
    · rw [hother i hil] at hi ⊢
      exact hindirect _ (h.inUse i hi).1 (h.apart i hi)

/-- `ei->i_block[lblk] = phys` -/
theorem NewBlock.direct (h : DirOn V U s) (hphys : Spare V U s phys) (hlblk : lblk < 12)
    (hzero : s.inode.word lblk = 0) :
    NewBlock V U U s { s with inode := s.inode.setWord lblk phys } lblk phys := by
  have hlt : phys < 2 ^ 32 := lt_trans hphys.inUse.2.2.1 h.mounted.wf.laid.blocks_lt
  have hind := s.inode.word_setWord_of_ne phys (show 12 ≠ lblk by omega)
  refine .of_dirWord h hphys le_rfl h.mounted rfl ((dirWord_of_lt hlblk).trans hzero) ?_ (fun i hi ↦ ?_)
    (fun _ _ _ ↦ rfl) (.inl hind)
  · rw [dirWord_of_lt hlblk]
    exact s.inode.word_setWord_self lblk hlt
  · exact dirWord_congr rfl (s.inode.word_setWord_of_ne phys hi) hind fun _ ↦ rfl

/-- The map behind the direct blocks, where the indirect block was stored last. -/
theorem dirWord_of_put {fs : Fs} {ents : Buf} {iblk : ℕ} (hind : s'.inode.word 12 = iblk)
    (hfs : s'.fs = fs.put iblk (ents.putLe (4 * i) 4 phys)) (hne : iblk ≠ 0)
    (hlt : phys < 2 ^ 32) (hi : i < fs.blockSize / 4) :
    s'.dirWord (i + 12) = phys ∧ ∀ j < fs.blockSize / 4, j ≠ i → s'.dirWord (j + 12) = ents.le (4 * j) 4 := by
  have hbs : s'.fs.blockSize = fs.blockSize := by rw [hfs, Fs.put_blockSize]
  have hentry : ∀ j < fs.blockSize / 4,
      s'.dirWord (j + 12) = (ents.putLe (4 * i) 4 phys).le (4 * j) 4 := by
    intro j hj
    rw [dirWord_of_indirect (by omega) ⟨by omega, by rwa [hind]⟩, hind, hfs, Fs.block_put_self,
      Buf.le_clip _ (by omega), Nat.add_sub_cancel]
  refine ⟨?_, fun j hj hji ↦ ?_⟩
  · rw [hentry i hi]
    exact Buf.le_putLe_of_lt (by norm_num; omega)
  · rw [hentry j hj]
    exact Buf.le_putLe_disjoint (by omega)

/-- The indirect block that there is takes the number of the block. -/
theorem NewBlock.indirectBlock (h : DirOn V U s) (hphys : Spare V U s phys)
    (hin : i < s.fs.blockSize / 4) (hword : s.inode.word 12 ≠ 0)
    (hzero : (s.fs.block (s.inode.word 12)).le (4 * i) 4 = 0) :
    NewBlock V U U s
      { s with fs := s.fs.put (s.inode.word 12) ((s.fs.block (s.inode.word 12)).putLe (4 * i) 4 phys) }
      (i + 12) phys := by
  have hlt : phys < 2 ^ 32 := lt_trans hphys.inUse.2.2.1 h.mounted.wf.laid.blocks_lt
  have huse := h.indirect hword
  have hmounted := h.mounted.put ((s.fs.block (s.inode.word 12)).putLe (4 * i) 4 phys)
    (fun g hg heq ↦ huse.2.2.2 (.inl (.inr ⟨g, hg, .inl heq⟩)))
    fun g hg heq ↦ huse.2.2.2 (.inl (.inr ⟨g, hg, .inr heq⟩))
  have hold : ∀ j < s.fs.blockSize / 4,
      s.dirWord (j + 12) = (s.fs.block (s.inode.word 12)).le (4 * j) 4 := fun j hj ↦ by
    rw [dirWord_of_indirect (by omega) ⟨by omega, hword⟩, Nat.add_sub_cancel]
  obtain ⟨hmaps, hother⟩ := @dirWord_of_put i phys
    { s with fs := s.fs.put (s.inode.word 12) ((s.fs.block (s.inode.word 12)).putLe (4 * i) 4 phys) }
    s.fs _ _ rfl rfl hword hlt hin
  refine .of_dirWord h hphys le_rfl hmounted rfl ((hold i hin).trans hzero) hmaps (fun j hj ↦ ?_)
    (fun b _ hb ↦ s.fs.block_put_of_ne _ hb) (.inl rfl)
  by_cases hdirect : j < 12
  · rw [dirWord_of_lt hdirect, @dirWord_of_lt j s hdirect]
  obtain ⟨k, rfl⟩ : ∃ k, j = k + 12 := ⟨j - 12, by omega⟩
  by_cases hk : k < s.fs.blockSize / 4
  · rw [hother k hk (by omega), hold k hk]
  · refine (dirWord_of_not hdirect fun hc ↦ hk ?_).trans (dirWord_of_not hdirect fun hc ↦ hk ?_).symm
    · have hlt : k + 12 - 12 < s.fs.blockSize / 4 := hc.1
      omega
    · omega

/-- The indirect block that `s₁` has got is stored with the number of the block. -/
theorem NewBlock.newIndirect {s₁ : FsInode} {iblk : ℕ} (h : DirOn V U s) (hphys : Spare V U s phys)
    (hin : i < s.fs.blockSize / 4) (hzero : s.inode.word 12 = 0) (hinode : ∀ j < 12, s₁.inode.word j =
      s.inode.word j) (hflags : s₁.inode.iFlags = s.inode.iFlags) (hind : s₁.inode.word 12 = iblk)
    (hframe : V.AllocFrame s.fs s₁.fs) (hfresh : iblk ∉ U) (hdata : IsData V iblk)
    (hmounted : V.Mounted (U ∪ {iblk}) s₁.fs) :
    NewBlock V U (U ∪ {iblk}) s { s₁ with fs := s₁.fs.put iblk (Buf.zero.putLe (4 * i) 4 phys) }
      (i + 12) phys := by
  have hlt : phys < 2 ^ 32 := lt_trans hphys.inUse.2.2.1 h.mounted.wf.laid.blocks_lt
  have hbs : s₁.fs.blockSize = s.fs.blockSize := hmounted.blockSize.trans h.mounted.blockSize.symm
  have hmounted' := hmounted.put (Buf.zero.putLe (4 * i) 4 phys)
    (fun g hg heq ↦ hdata.2.2 (.inl (.inr ⟨g, hg, .inl heq⟩)))
    fun g hg heq ↦ hdata.2.2 (.inl (.inr ⟨g, hg, .inr heq⟩))
  have hold : ∀ j, s.dirWord (j + 12) = 0 := fun j ↦ dirWord_of_not (by omega) fun hc ↦ hc.2 hzero
  obtain ⟨hmaps, hother⟩ := @dirWord_of_put i phys
    { s₁ with fs := s₁.fs.put iblk (Buf.zero.putLe (4 * i) 4 phys) } s₁.fs _ _ hind rfl hdata.1 hlt
    (by rwa [hbs])
  refine .of_dirWord h ⟨hphys.inUse.mono Set.subset_union_left, hphys.fresh, hphys.ne_indirect⟩
    Set.subset_union_left hmounted' hflags (hold i) hmaps (fun j hj ↦ ?_) (fun b hb hne ↦ ?_) (.inr ⟨?_, ?_, ?_⟩)
  · by_cases hdirect : j < 12
    · exact (dirWord_of_lt hdirect).trans ((hinode j hdirect).trans (dirWord_of_lt hdirect).symm)
    obtain ⟨k, rfl⟩ : ∃ k, j = k + 12 := ⟨j - 12, by omega⟩
    rw [hold k]
    by_cases hk : k < s₁.fs.blockSize / 4
    · rw [hother k hk (by omega), Buf.le_zero_buf]
    · refine dirWord_of_not hdirect fun hc ↦ hk ?_
      have hlt : k + 12 - 12 < s₁.fs.blockSize / 4 := hc.1
      omega
  · have hbi : b ≠ iblk := fun heq ↦ hfresh (heq ▸ hb.1)
    exact (s₁.fs.block_put_of_ne _ hbi).trans (hframe.block b fun hm ↦ hb.2.2.2 (.inl hm))
  · show InUse V _ (s₁.inode.word 12)
    rw [hind]
    exact ⟨.inr rfl, hdata⟩
  · show s₁.inode.word 12 ∉ U
    rwa [hind]
  · show s₁.inode.word 12 ≠ phys
    rw [hind]
    exact fun heq ↦ hfresh (heq ▸ hphys.inUse.1)

/-! ### Mapping -/

/-- With an indirect block nothing is allocated for it. -/
theorem indirectForWrite_of_ne (h : DirOn V U s) (hbs : V.bs ≤ blockSizeDefault)
    (hne : s.inode.word 12 ≠ 0) :
    indirectForWrite s = (some (s.inode.word 12, s.fs.block (s.inode.word 12)), s) := by
  have hread : onFs (Fs.readBlock (s.inode.word 12)) s = (some (s.fs.block (s.inode.word 12)), s) := by
    rw [onFs, zoom_apply, h.mounted.usable.readBlock (h.indirect hne).2.2.1]
  rw [indirectForWrite, get_bind, if_neg hne,
    bind_of_eq_some (onFs_mallocBlock (h.mounted.blockSize ▸ hbs)), bind_of_eq_some hread]
  rfl

/-- The block that is allocated for an indirect block. -/
theorem indirectForWrite_of_zero (h : DirOn V U s) (hbs : V.bs ≤ blockSizeDefault)
    (hzero : s.inode.word 12 = 0) :
    wp indirectForWrite (fun r s' ↦ V.AllocFrame s.fs s'.fs ∧
      r.elim (s'.inode = s.inode ∧ V.Mounted U s'.fs) fun e ↦ e.2 = Buf.zero ∧
        s'.inode = s.inode.setWord 12 e.1 ∧ e.1 ∉ U ∧ IsData V e.1 ∧ V.Mounted (U ∪ {e.1}) s'.fs) s := by
  have hnew := dirNewBlock_spec h.mounted
  rw [indirectForWrite, wp, get_bind, if_pos hzero]
  rcases hrun : dirNewBlock s with ⟨_ | iblk, s₁⟩
  · rw [wp_of_eq hrun] at hnew
    rw [bind_of_eq_none hrun]
    exact ⟨hnew.2.1, hnew.1, hnew.2.2⟩
  · rw [wp_of_eq hrun] at hnew
    obtain ⟨hinode, hframe, hfresh, hdata, hmounted, -⟩ := hnew
    rw [bind_of_eq_some hrun]
    have hmalloc : onFs Fs.mallocBlock { s₁ with inode := s₁.inode.setWord 12 iblk } =
        (some (), { s₁ with inode := s₁.inode.setWord 12 iblk }) :=
      onFs_mallocBlock (show s₁.fs.blockSize ≤ _ from hmounted.blockSize ▸ hbs)
    rw [modifyInode, modify_bind, attempt_bind, hmalloc]
    exact ⟨hframe, rfl, by show s₁.inode.setWord 12 iblk = _; rw [hinode], hfresh, hdata, hmounted⟩

/-- The first zero word that was found. -/
theorem firstZero_eq_some {word : ℕ → ℕ} {n i j : ℕ} (h : firstZero word n i = some j) :
    i ≤ j ∧ j < i + n ∧ word j = 0 := by
  induction n generalizing i with
  | zero => simp [firstZero] at h
  | succ n ih =>
    unfold firstZero at h
    split at h
    · obtain rfl := Option.some.inj h
      exact ⟨le_rfl, by omega, by assumption⟩
    · obtain ⟨hle, hlt, hzero⟩ := ih h
      exact ⟨by omega, by omega, hzero⟩

/-- Where `ext4_htree_alloc_lblock` has mapped a block. -/
theorem DirOn.allocLblock_of_some (h : DirOn V U s) (hbs : V.bs ≤ blockSizeDefault) (hphys : Spare V U s phys)
    (hrun : ext4HtreeAllocLblock phys 1 s = (some lblk, s')) :
    1 ≤ lblk ∧ ∃ U', NewBlock V U U' s s' lblk phys := by
  unfold ext4HtreeAllocLblock at hrun
  obtain ⟨-, hrun⟩ := guard_bind_eq_some_iff.1 hrun
  rw [get_bind] at hrun
  -- the direct words come first, then the entries of the indirect block
  rcases hdirect : firstZero s.inode.word (12 - 1) 1 with _ | j
  · rw [hdirect] at hrun
    dsimp only at hrun
    obtain ⟨-, hrun⟩ := guard_bind_eq_some_iff.1 hrun
    obtain ⟨-, hrun⟩ := guard_bind_eq_some_iff.1 hrun
    obtain ⟨⟨iblk, ents⟩, s₁, hind, hrun⟩ := bind_eq_some_iff.1 hrun
    rcases hfirst : firstZero (fun idx ↦ ents.le (4 * idx) 4) (s.fs.blockSize / 4 - (1 - 12)) (1 - 12) with _ | i
    · rw [hfirst] at hrun
      simp at hrun
    rw [hfirst] at hrun
    dsimp only at hrun
    obtain ⟨-, hin, hzero⟩ := firstZero_eq_some hfirst
    obtain ⟨_, s₂, hwrite, hrun⟩ := bind_eq_some_iff.1 hrun
    obtain ⟨hl, rfl⟩ := Prod.mk.inj hrun
    obtain rfl := Option.some.inj hl
    refine ⟨by omega, ?_⟩
    have hwrite' : ∀ {n : ℕ}, s₁.fs.Usable n → iblk < n →
        s₂ = { s₁ with fs := s₁.fs.put iblk (ents.putLe (4 * i) 4 phys) } := by
      intro n husable hlt
      rw [onFs, zoom_apply, husable.writeBlock hlt] at hwrite
      exact (Prod.mk.inj hwrite).2.symm
    -- the indirect block may have to be made
    by_cases hword : s.inode.word 12 = 0
    · have hspec := indirectForWrite_of_zero h hbs hword
      rw [wp_of_eq hind] at hspec
      obtain ⟨hframe, rfl, hinode, hfresh, hdata, hmounted⟩ := hspec
      refine ⟨_, (hwrite' hmounted.usable hdata.2.1) ▸ NewBlock.newIndirect h hphys (by omega) hword
        (fun j hj ↦ ?_) ?_ ?_ hframe hfresh hdata hmounted⟩
      · rw [hinode]
        exact s.inode.word_setWord_of_ne iblk (by omega)
      · rw [hinode]
        rfl
      · rw [hinode]
        exact s.inode.word_setWord_self 12 (lt_trans hdata.2.1 h.mounted.wf.laid.blocks_lt)
    · rw [indirectForWrite_of_ne h hbs hword] at hind
      obtain ⟨he, rfl⟩ := Prod.mk.inj hind
      obtain ⟨rfl, rfl⟩ := Prod.mk.inj (Option.some.inj he)
      exact ⟨U, (hwrite' h.mounted.usable (h.indirect hword).2.2.1) ▸
        NewBlock.indirectBlock h hphys (by omega) hword hzero⟩
  · rw [hdirect] at hrun
    obtain ⟨hl, rfl⟩ := Prod.mk.inj hrun
    obtain rfl := Option.some.inj hl
    obtain ⟨hpos, hlt, hzero⟩ := firstZero_eq_some hdirect
    exact ⟨hpos, U, NewBlock.direct h hphys (by omega) hzero⟩

/-- Where a new block is mapped. -/
theorem DirOn.newMappedBlock_of_some (h : DirOn V U s) (hrun : newMappedBlock s = (some (phys, lblk), s')) :
    phys ∉ U ∧ phys ≠ 0 ∧ 1 ≤ lblk ∧ ∃ U', NewBlock V U U' s s' lblk phys := by
  have hnew := dirNewBlock_spec h.mounted
  obtain ⟨b, s₁, hblock, hrun⟩ := bind_eq_some_iff.1 hrun
  rw [wp_of_eq hblock] at hnew
  obtain ⟨hinode, hframe, hfresh, hdata, hmounted, hbs⟩ := hnew
  have hs₁ : s₁ = { s with fs := s₁.fs } := by rw [← hinode]
  rw [attempt_bind] at hrun
  rcases halloc : ext4HtreeAllocLblock b 1 s₁ with ⟨_ | lblk', s₂⟩
  · rw [halloc] at hrun
    have hfail : (freeAndFail b s₂ : Option (ℕ × ℕ) × FsInode).1 = none := rfl
    dsimp only at hrun
    rw [hrun] at hfail
    simp at hfail
  rw [halloc] at hrun
  obtain ⟨he, rfl⟩ := Prod.mk.inj hrun
  obtain ⟨rfl, rfl⟩ := Prod.mk.inj (Option.some.inj he)
  obtain ⟨h₁, hword⟩ := h.withFs hmounted Set.subset_union_left fun hne ↦
    hframe.block _ fun hm ↦ (h.indirect hne).2.2.2 (.inl hm)
  rw [← hs₁] at h₁ hword
  have hspare : Spare V (U ∪ {b}) s₁ b := by
    refine ⟨⟨.inr rfl, hdata⟩, fun i heq ↦ ?_, fun heq ↦ ?_⟩
    · rw [hword] at heq
      exact hfresh (heq ▸ (h.inUse i (heq ▸ hdata.1)).1)
    · rw [hinode] at heq
      exact hfresh (heq ▸ (h.indirect (heq ▸ hdata.1)).1)
  obtain ⟨hpos, U', hmap⟩ := h₁.allocLblock_of_some hbs hspare halloc
  refine ⟨hfresh, hdata.1, hpos, U', hmap.dir, Set.subset_union_left.trans hmap.sub,
    (hword _).symm.trans hmap.unmapped,
    hmap.maps, fun i hi ↦ (hmap.other i hi).trans (hword i), fun c hc hne ↦ ?_, fun c hc hne ↦ ?_, ?_⟩
  · rw [hmap.block c (hc.mono Set.subset_union_left) (by rwa [hinode])]
    exact hframe.block c fun hm ↦ hc.2.2.2 (.inl hm)
  · exact hmap.indirect c (.inl hc) (by rwa [hinode])
  · rw [hmap.flags, hinode]

/-! ### Writing the inode -/

/-- Taking a slot changes nothing. -/
theorem superMalloc_snd (held : ℕ) (fs : Fs) : (Fs.superMalloc held fs).2 = fs :=
  bind_snd rfl fun _ ↦ guard_snd _ _

/-- `ext4_get_inode_disk_loc` reads only. -/
theorem getInodeDiskLoc_snd (h : V.Mounted U fs') (ino : ℕ) : (Fs.ext4GetInodeDiskLoc ino fs').2 = fs' := by
  unfold Fs.ext4GetInodeDiskLoc
  refine bind_snd rfl fun fs ↦ bind_snd (guard_snd _ _) fun _ ↦ bind_snd (guard_snd _ _) fun _ ↦
    bind_snd (guard_snd _ _) fun _ ↦ bind_snd (guard_snd _ _) fun _ ↦
    bind_snd (superMalloc_snd _ _) fun _ ↦ bind_snd ?_ fun _ ↦ bind_snd (guard_snd _ _) fun _ ↦ rfl
  rw [h.usable.readBlock_eq]

/-- A mounted volume has its tables. -/
theorem inodeImage_of_mounted (h : V.Mounted U fs') (htables : V.TablesLaid) : V.InodeImage fs' :=
  ⟨htables, h.usable.sectored, h.blockSize, h.geom, h.groupDesc, h.desc_inodeTable⟩

/-- Whether the inode is written or not, only a block of an inode table may change. -/
theorem writeInode_spec (h : V.Mounted U s.fs) (htables : V.TablesLaid) :
    ∃ fs', writeInode s = (some (), { s with fs := fs' }) ∧ V.Mounted U fs' ∧
      ∀ b, ¬ V.IsMeta b → fs'.block b = s.fs.block b := by
  refine ⟨(Fs.ext4WriteInode s.inode s.fs).2, rfl, ?_⟩
  suffices hcases : (Fs.ext4WriteInode s.inode s.fs).2 = s.fs ∨ ∃ g < V.groups, ∃ b, V.InTable g b ∧
      ∃ buf, (Fs.ext4WriteInode s.inode s.fs).2 = s.fs.put b buf by
    rcases hcases with heq | ⟨g, hg, b, hb, buf, heq⟩
    · rw [heq]
      exact ⟨h, fun _ _ ↦ rfl⟩
    · rw [heq]
      have hnot := h.wf.inTable_not_alloc g hg b hb
      refine ⟨h.put buf (fun g' hg' he ↦ hnot (.inr ⟨g', hg', .inl he⟩)) fun g' hg' he ↦
        hnot (.inr ⟨g', hg', .inr he⟩), fun c hc ↦ s.fs.block_put_of_ne _ fun he ↦ hc ?_⟩
      exact .inr ⟨g, hg, .inr (he ▸ hb)⟩
  have himage := inodeImage_of_mounted h htables
  unfold Fs.ext4WriteInode
  by_cases hino : s.inode.iIno ≠ 0
  swap
  · rw [guard_false hino]
    exact .inl rfl
  rw [guard_true hino, pure_bind']
  have hloc := getInodeDiskLoc_snd h s.inode.iIno
  rcases hrun : Fs.ext4GetInodeDiskLoc s.inode.iIno s.fs with ⟨_ | loc, fs₁⟩
  · rw [hrun] at hloc
    rw [bind_of_eq_none hrun]
    exact .inl hloc
  rw [hrun] at hloc
  obtain rfl : fs₁ = s.fs := hloc
  obtain ⟨hfinds, rfl, -⟩ := himage.of_getInodeDiskLoc_some hrun
  obtain ⟨-, hin, -⟩ := htables.slot_eq hfinds.2.1
  have hlt : (V.slot s.inode.iIno).1 < V.blocks := hin.2.trans_le (htables.table_le _ hfinds.2.1)
  rw [bind_of_eq_some hrun, bind_of_eq_some (Volume.superMalloc_eq himage hfinds.2.2.2.1),
    bind_of_eq_some (h.usable.readBlock hlt), h.usable.writeBlock hlt]
  exact .inr ⟨_, hfinds.2.1, _, hin, _, rfl⟩

/-- The last statements of a change to a directory: its size and its inode are brought up to date. -/
theorem refresh_of_some (h : V.Mounted U s.fs) (htables : V.TablesLaid)
    (hrun : (ext4HtreeRefreshDirInodeSize >>= fun _ ↦ writeInode) s = (some (), s')) :
    ∃ fs' iSize iBlocks, s' = ⟨fs', { s.inode with iSize, iBlocks }⟩ ∧ V.Mounted U fs' ∧
      ∀ b, ¬ V.IsMeta b → fs'.block b = s.fs.block b := by
  obtain ⟨_, s₁, hsize, hwrite⟩ := bind_eq_some_iff.1 hrun
  have hs₁ : ∃ iSize iBlocks, s₁ = { s with inode := { s.inode with iSize, iBlocks } } := by
    unfold ext4HtreeRefreshDirInodeSize at hsize
    rw [get_bind, attempt_bind] at hsize
    have hsnd : ((StateErr.guard (s.inode.word 12 ≠ 0) >>= fun _ ↦ onFs Fs.mallocBlock >>= fun _ ↦
        onFs (Fs.readBlock (s.inode.word 12))) s).2 = s :=
      bind_snd (guard_snd _ _) fun _ ↦ bind_snd (mallocBlock_snd s) fun _ ↦ readBlock_snd h _
    rw [hsnd] at hsize
    exact ⟨_, _, (Prod.mk.inj hsize).2.symm⟩
  obtain ⟨iSize, iBlocks, rfl⟩ := hs₁
  obtain ⟨fs', hrun', hmounted, hblock⟩ :=
    @writeInode_spec V U { s with inode := { s.inode with iSize, iBlocks } } h htables
  rw [hrun'] at hwrite
  exact ⟨fs', iSize, iBlocks, (Prod.mk.inj hwrite).2.symm, hmounted, hblock⟩

/-- Storing the counts of the directory leaves its map. -/
theorem DirOn.refresh (h : DirOn V U s) (htables : V.TablesLaid)
    (hrun : (ext4HtreeRefreshDirInodeSize >>= fun _ ↦ writeInode) s = (some (), s')) :
    DirOn V U s' ∧ (∀ i, s'.dirWord i = s.dirWord i) ∧
      ∀ b, ¬ V.IsMeta b → s'.fs.block b = s.fs.block b := by
  obtain ⟨fs', iSize, iBlocks, rfl, hmounted, hblock⟩ := refresh_of_some h.mounted htables hrun
  obtain ⟨hdir, hword⟩ := h.withFs hmounted le_rfl fun hne ↦ hblock _ (h.indirect hne).2.2.2
  exact ⟨⟨hdir.mounted, hdir.dvd, hdir.noExtents, hdir.indirect, hdir.inUse, hdir.inj, hdir.apart⟩, hword, hblock⟩

end FsInode

end MiniExt4
