import MiniExt4.Ext4.BallocBits
import MiniExt4.Ext4.MountGeometry

/-!
# Where allocation and release look for a block

`ext4_new_blocks_in_group` takes the groups to be of `8 * block_size` blocks, cut down to what is on
the device, and counts blocks from 0. `ext4_free_block` takes them to be of `s_blocks_per_group`
blocks. Neither knows of `s_first_data_block`. This module says for which of the geometries that can
be mounted the two mean the same bit by a block.

The property quantifies over the states that later calls lead to, and over the contents of the bitmaps, so
the two directions are of different kinds. Where the numbers agree, the facts of one call are enough
(`Coherent.agreesAt`). Where they do not, a volume of that geometry is filled except for one bit, so that
the allocator has to take it (`onlyFree`, `Carried.exists_newBlocks`), and the number it returns is
compared.
-/

namespace MiniExt4

open StateErr

namespace Volume

variable {V : Volume} {n g i b len : ℕ} {fs fs' fs'' : Fs} {dev : BlockDevice}

/-! ### What a call does to the bits -/

/-- The bits `[i, i + len)` of the bitmap of group `g` were clear and were set, and no other bit of a
bitmap changed. -/
structure SetsRun (V : Volume) (fs fs' : Fs) (g i len : ℕ) : Prop where
  group : V.Group g
  clear : ∀ j, i ≤ j → j < i + len → (fs.block (V.blockBitmap g)).bit j = false
  bit : ∀ g', V.Group g' → ∀ j < 8 * V.bs, (fs'.block (V.blockBitmap g')).bit j =
    ((fs.block (V.blockBitmap g')).bit j || decide (g' = g ∧ i ≤ j ∧ j < i + len))

/-- Releasing block `b` succeeds, it clears bit `i` of the bitmap of group `g` and no other bit, and
one more block is free in the descriptor of group `g` and in no other. -/
structure Releases (V : Volume) (fs : Fs) (b g i : ℕ) : Prop where
  succeeds : (fs.ext4FreeBlock b).1 = some ()
  bit : ∀ g', V.Group g' → ∀ j < 8 * V.bs,
    ((fs.ext4FreeBlock b).2.block (V.blockBitmap g')).bit j =
      ((fs.block (V.blockBitmap g')).bit j && !decide (g' = g ∧ j = i))
  count : ((fs.ext4FreeBlock b).2.desc g).getField 0 Gd.bgFreeBlocksCountLo =
    ((fs.desc g).getField 0 Gd.bgFreeBlocksCountLo + 1) % 2 ^ 16
  desc_ne : ∀ g', V.Group g' → g' ≠ g → (fs.ext4FreeBlock b).2.desc g' = fs.desc g'

/-- What may come between an allocation and a release: calls of the allocator, and stores to blocks
that are not its metadata. -/
inductive Step (V : Volume) : Fs → Fs → Prop
  | newBlocks (fs : Fs) (goalLen preferredGroup : ℕ) :
      Step V fs (fs.ext4NewBlocksInGroup goalLen preferredGroup).2
  | freeBlock (fs : Fs) (b : ℕ) : Step V fs (fs.ext4FreeBlock b).2
  | flush (fs : Fs) : Step V fs (fs.ext4BallocFlush).2
  | store (fs : Fs) {b : ℕ} (buf : Buf)
      (hb : ∀ g, V.Group g → b ≠ V.descBlock g ∧ b ≠ V.blockBitmap g) : Step V fs (fs.put b buf)

/-- Any number of such steps. -/
abbrev Later (V : Volume) : Fs → Fs → Prop := Relation.ReflTransGen V.Step

/-- An allocation from `fs` sets the bits of the blocks it returns, counted from the first data block
in groups of `s_blocks_per_group`, and a later release of each of the blocks clears its bit again. -/
def AgreesAt (V : Volume) (fs : Fs) : Prop :=
  ∀ goalLen preferredGroup b len fs',
    fs.ext4NewBlocksInGroup goalLen preferredGroup = (some (b, len), fs') →
    ∃ g i, V.SetsRun fs fs' g i len ∧ ∀ k < len,
      b + k = V.geom.sFirstDataBlock + g * V.perGroup + (i + k) ∧
      ∀ fs'', V.Later fs' fs'' → (fs''.block (V.blockBitmap g)).bit (i + k) = true →
        V.Releases fs'' (b + k) g (i + k)

theorem TookRun.setsRun {goalLen limit : ℕ} (h : V.TookRun n goalLen limit fs g i len fs') :
    V.SetsRun fs fs' g i len := by
  refine ⟨h.changed.group, h.clear, fun g' hg' j hj ↦ ?_⟩
  by_cases hne : g' = g
  · subst hne
    rw [h.changed.bitmap, Buf.bit_clip _ hj, Buf.bit_setBits]
    simp
  · rw [h.changed.bitmap_ne g' hg' hne]
    simp [hne]

theorem Freed.releases (h : V.Freed n fs b fs') (hrun : fs.ext4FreeBlock b = (some (), fs')) :
    V.Releases fs b (b / V.perGroup) (b % V.perGroup) := by
  have hcount : (raiseFree (fs.desc (b / V.perGroup))).getField 0 Gd.bgFreeBlocksCountLo =
      ((fs.desc (b / V.perGroup)).getField 0 Gd.bgFreeBlocksCountLo + 1) % 2 ^ 16 := by
    rw [raiseFree, Buf.getField_setField_self]
    rfl
  refine ⟨by rw [hrun], fun g' hg' j hj ↦ ?_, by rw [hrun, h.changed.desc, hcount], fun g' hg' hne ↦ ?_⟩
  · rw [hrun]
    by_cases hne : g' = b / V.perGroup
    · subst hne
      rw [h.changed.bitmap, Buf.bit_clip _ hj, Buf.bit_clearBit]
      simp
    · rw [h.changed.bitmap_ne g' hg' hne]
      simp [hne]
  · rw [hrun]
    exact h.changed.desc_ne g' hg' hne

/-- A release that clears the bit of a block takes the block for that bit. -/
theorem Releases.addresses (h : V.Releases fs b g i) (hfs : V.Coherent n fs) (hg : V.Group g)
    (hi : i < 8 * V.bs) (hset : (fs.block (V.blockBitmap g)).bit i = true) :
    V.Reaches b ∧ b / V.perGroup = g ∧ b % V.perGroup = i := by
  by_cases hreach : V.Reaches b
  swap
  · have hnone := h.succeeds
    rw [hfs.toCarried.freeBlock_of_not hreach] at hnone
    simp at hnone
  refine ⟨hreach, ?_⟩
  obtain ⟨fs', hrun, hpost⟩ := hfs.freeBlock hreach
  have hcleared := h.bit g hg i hi
  rw [hrun, hset] at hcleared
  by_cases hbit : (fs.block (V.blockBitmap (b / V.perGroup))).bit (b % V.perGroup) = true
  · rw [if_pos hbit] at hpost
    have hother := (hpost.releases hrun).bit g hg i hi
    rw [hrun, hcleared, hset] at hother
    simp only [Bool.true_and, and_self, decide_true, Bool.not_true, Bool.false_eq,
      Bool.not_eq_false', decide_eq_true_eq] at hother
    exact ⟨hother.1.symm, hother.2.symm⟩
  · rw [if_neg hbit] at hpost
    rw [hpost, hset] at hcleared
    simp at hcleared

/-! ### Later states -/

theorem Coherent.ballocFlush (h : V.Coherent n fs) : V.Coherent n (fs.ext4BallocFlush).2 := by
  unfold Fs.ext4BallocFlush
  rw [bind_of_eq_some h.bmapCacheFlush, get_bind]
  by_cases hpending : fs.sbi.sBgSyncPending > 0
  swap
  · rw [if_neg hpending]
    exact h
  rw [if_pos hpending]
  have hsync := h.toCarried.syncSuperFreeCounts
  have h' : V.Coherent n (fs.ext4SyncSuperFreeCounts).2 := by
    rcases hsync with heq | ⟨buf, heq⟩
    · rw [heq]
      exact h
    · obtain ⟨hput, hkept⟩ := h.toCarried.put buf h.laid.superBlock_ne_desc fun g hg ↦
        (h.laid.blockBitmap_ne_super g hg).symm
      rw [heq]
      refine ⟨hput, fun hv ↦ ?_⟩
      obtain ⟨hg, hdirty, hbuf⟩ := h.cache hv
      exact ⟨hg, hdirty, hbuf.trans (hkept.bitmap _ hg).symm⟩
  rcases hres : fs.ext4SyncSuperFreeCounts with ⟨_ | _, fs₁⟩
  · rw [bind_of_eq_none hres]
    rwa [hres] at h'
  · rw [bind_of_eq_some hres, Fs.modifySbi, modify_apply]
    rw [hres] at h'
    exact ⟨h'.toCarried.withSbi _ rfl h'.groupDesc, h'.cache⟩

theorem Coherent.step (h : V.Coherent n fs) (hstep : V.Step fs fs') : V.Coherent n fs' := by
  cases hstep with
  | newBlocks goalLen preferredGroup =>
    have hpost := h.newBlocks goalLen preferredGroup
    rw [wp] at hpost
    rcases hr : (fs.ext4NewBlocksInGroup goalLen preferredGroup).1 with _ | ⟨b, len⟩
    · rw [hr] at hpost
      exact hpost.1
    · rw [hr] at hpost
      obtain ⟨geom, -, g, -, i, -, hrun⟩ := hpost
      exact hrun.coherent
  | freeBlock b =>
    by_cases hreach : V.Reaches b
    · obtain ⟨fs', hrun, hpost⟩ := h.freeBlock hreach
      rw [hrun]
      split at hpost
      · exact hpost.coherent
      · rw [hpost]
        exact h
    · rw [h.toCarried.freeBlock_of_not hreach]
      exact h
  | flush => exact h.ballocFlush
  | store buf hb =>
    obtain ⟨hput, hkept⟩ := h.toCarried.put buf (fun g hg ↦ (hb g hg).1) fun g hg ↦ (hb g hg).2
    refine ⟨hput, fun hv ↦ ?_⟩
    obtain ⟨hg, hdirty, hbuf⟩ := h.cache hv
    exact ⟨hg, hdirty, hbuf.trans (hkept.bitmap _ hg).symm⟩

theorem Coherent.later (h : V.Coherent n fs) (hlater : V.Later fs fs') : V.Coherent n fs' := by
  induction hlater with
  | refl => exact h
  | tail _ hstep ih => exact ih.step hstep

/-! ### The geometry of an allocation -/

/-- The blocks of the volume that are on the device. -/
def reach (V : Volume) (dev : BlockDevice) : ℕ :=
  let devBlocks := u32 dev.bdNrSectors / ext4SectorsPerBlock V.bs dev
  if 0 < devBlocks then min V.blocks devBlocks else V.blocks

/-- The superblock's numbers are those an allocation works with, as far as it can tell: a volume of
one group may say that the group is larger than it is. -/
def SameAddresses (V : Volume) (dev : BlockDevice) : Prop :=
  blockSizeDefault < V.bs ∨ V.reach dev ≤ 1 ∨
    V.geom.sFirstDataBlock = 0 ∧ min (V.bs * 8) (V.reach dev) ≤ V.perGroup ∧
      (V.bs * 8 + 1 < V.reach dev → 1 < V.groups → V.perGroup = V.bs * 8)

theorem Carried.allocGeometry_eq (h : V.Carried n fs) (hbs : V.bs ≤ blockSizeDefault)
    (hgroups : V.groups * 4 ≤ 65536) :
    ∃ gc, fs.allocGeometry = some (min (V.bs * 8) (V.reach fs.dev),
      min (V.reach fs.dev) (V.groups * min (V.bs * 8) (V.reach fs.dev)), gc) := by
  have hsb : fs.sbi.sBlocksCount = V.blocks := congrArg SbGeom.sBlocksCount h.geom
  have hsg : fs.sbi.sGroupsCount = V.groups := congrArg SbGeom.sGroupsCount h.geom
  have hbs₀ := h.laid.bs_pos
  have hpos := h.laid.groups_pos
  have hblocks := h.laid.blocks_pos
  have hlt := h.laid.blocks_lt
  simp only [blockSizeDefault] at hbs
  unfold Fs.allocGeometry
  simp only [h.blockSize, h.blocksCount, hsb, hsg, if_neg hbs₀.ne',
    u32_of_lt (show V.bs * 8 < 2 ^ 32 by omega), ite_self, if_neg hblocks.ne',
    if_neg (show ¬ V.bs * 8 = 0 by omega)]
  -- the volume is cut down to what is on the device, and then the group
  generalize hdev : (if u32 fs.dev.bdNrSectors / ext4SectorsPerBlock V.bs fs.dev > 0 ∧
    V.blocks > u32 fs.dev.bdNrSectors / ext4SectorsPerBlock V.bs fs.dev then
      u32 fs.dev.bdNrSectors / ext4SectorsPerBlock V.bs fs.dev else V.blocks) = c
  obtain rfl : V.reach fs.dev = c := by
    rw [← hdev, reach]
    split <;> split <;> omega
  set N := V.reach fs.dev with hN
  have hNpos : 0 < N := by
    rw [hN, reach]
    split <;> omega
  generalize hp : (if V.bs * 8 > N then N else V.bs * 8) = p
  obtain rfl : min (V.bs * 8) N = p := by
    rw [← hp]
    split <;> omega
  set p := min (V.bs * 8) N with hpdef
  have hp' : 0 < p ∧ p ≤ 32768 := by omega
  have hprod : p ≤ V.groups * p := Nat.le_mul_of_pos_left _ hpos
  have hbound : V.groups * p ≤ 16384 * 32768 := Nat.mul_le_mul (by omega) hp'.2
  rw [u32_of_lt (show V.groups * p < 2 ^ 32 by omega)]
  generalize hk : (if V.groups > 0 ∧ V.groups * p > 0 ∧ V.groups * p < N then V.groups * p else N) = k
  obtain rfl : min N (V.groups * p) = k := by
    rw [← hk]
    split <;> omega
  have hgc : u32 (min N (V.groups * p) + p - 1) / p ≠ 0 := by
    rw [u32_of_lt (by omega)]
    exact (Nat.div_pos (by omega) hp'.1).ne'
  rw [if_neg hgc]
  exact ⟨_, rfl⟩

/-- In the groups of an allocation a block is at its bit of the superblock's groups. -/
theorem SameAddresses.mul_eq (h : V.SameAddresses dev) (hbs : V.bs ≤ blockSizeDefault)
    (hi : 0 < i) (hlen : 0 < len)
    (hlimit : i + len ≤ min (min (V.bs * 8) (V.reach dev))
      (min (V.reach dev) (V.groups * min (V.bs * 8) (V.reach dev)) -
        g * min (V.bs * 8) (V.reach dev))) :
    V.geom.sFirstDataBlock = 0 ∧ g * min (V.bs * 8) (V.reach dev) = g * V.perGroup ∧
      i + len ≤ V.perGroup := by
  rcases h with hlt | hone | ⟨hfirst, hle, hsame⟩
  · omega
  · omega
  refine ⟨hfirst, ?_, by omega⟩
  set N := V.reach dev
  rcases Nat.eq_zero_or_pos g with rfl | hg
  · rw [Nat.zero_mul, Nat.zero_mul]
  -- there is a second group, with a block to allocate
  have hmul : min (V.bs * 8) N ≤ g * min (V.bs * 8) N := Nat.le_mul_of_pos_left _ hg
  have hgroups : 1 < V.groups := by
    by_contra hno
    have : V.groups * min (V.bs * 8) N ≤ 1 * min (V.bs * 8) N := Nat.mul_le_mul_right _ (by omega)
    omega
  rw [hsame (by omega) hgroups, Nat.min_eq_left (by omega)]

/-- Where the numbers agree, so do allocation and release. -/
theorem Coherent.agreesAt (h : V.Coherent n fs) (hgroups : V.groups * 4 ≤ 65536)
    (hsame : V.SameAddresses fs.dev) : V.AgreesAt fs := by
  intro goalLen preferredGroup b len fs' hnew
  have hpost := h.newBlocks goalLen preferredGroup
  rw [wp_of_eq hnew] at hpost
  obtain ⟨geom, hgeom, g, hg, i, rfl, hrun⟩ := hpost
  obtain ⟨gc, heq⟩ := h.toCarried.allocGeometry_eq hrun.bs_le hgroups
  obtain rfl := Option.some.inj (heq.symm.trans hgeom)
  obtain ⟨hfirst, hmul, hlt⟩ := hsame.mul_eq hrun.bs_le hrun.pos hrun.len_pos hrun.le_limit
  have hend := hrun.le_limit
  refine ⟨g, i, hrun.setsRun, fun k hk ↦ ⟨by rw [hfirst]; dsimp only; omega, fun fs'' hlater hset ↦ ?_⟩⟩
  have hb : g * min (V.bs * 8) (V.reach fs.dev) + i + k = g * V.perGroup + (i + k) := by omega
  have hdiv : (g * V.perGroup + (i + k)) / V.perGroup = g := by
    rw [Nat.mul_comm, Nat.mul_add_div (by omega), Nat.div_eq_of_lt (by omega), Nat.add_zero]
  have hmod : (g * V.perGroup + (i + k)) % V.perGroup = i + k := Nat.mul_add_mod_of_lt (by omega)
  have hcoherent := hrun.coherent.later hlater
  obtain ⟨fs₃, hfree, hfreed⟩ := hcoherent.freeBlock (b := g * V.perGroup + (i + k))
    ⟨hrun.bs_le, by rw [hdiv]; exact hrun.changed.group, by rw [hmod]; omega, by rw [hmod]; omega⟩
  rw [hdiv, hmod, if_pos hset] at hfreed
  have hreleases := hfreed.releases hfree
  rwa [hdiv, hmod, ← hb] at hreleases

/-! ### Where the numbers differ -/

instance (V : Volume) (g : ℕ) : Decidable (V.Group g) := inferInstanceAs (Decidable (_ ∧ _))

/-- A bitmap in which every bit is set but `i`. -/
def onlyFree (V : Volume) (i : ℕ) : Buf := (Buf.zero.setBits 0 (V.bs * 8)).clearBit i

/-- The bitmaps of the groups below `m` with every bit set but bit `i` of group `g`. -/
def fill (V : Volume) (g i : ℕ) : ℕ → Fs → Fs
  | 0, fs => { fs with sbi := { fs.sbi with sBmapCacheValid := false } }
  | m + 1, fs =>
    if V.Group m then
      (V.fill g i m fs).put (V.blockBitmap m) (V.onlyFree (if m = g then i else V.bs * 8))
    else V.fill g i m fs

theorem bit_onlyFree {j : ℕ} (hj : j < V.bs * 8) : (V.onlyFree i).bit j = !decide (j = i) := by
  rw [onlyFree, Buf.bit_clearBit, Buf.bit_setBits]
  simp [hj]

theorem Carried.fill (h : V.Carried n fs) (g i : ℕ) :
    ∀ m, V.Carried n (V.fill g i m fs) ∧ (V.fill g i m fs).dev.bdNrSectors = fs.dev.bdNrSectors ∧
      (V.fill g i m fs).dev.bdSectorSize = fs.dev.bdSectorSize ∧
      (V.fill g i m fs).sbi.sBmapCacheValid = false ∧
      ∀ g' < m, V.Group g' → (V.fill g i m fs).block (V.blockBitmap g') =
        Buf.clip V.bs (V.onlyFree (if g' = g then i else V.bs * 8)) := by
  intro m
  induction m with
  | zero => exact ⟨h.withSbi _ rfl h.groupDesc, rfl, rfl, rfl, fun _ hlt ↦ absurd hlt (by omega)⟩
  | succ m ih =>
    obtain ⟨hcarried, hsectors, hsize, hvalid, hbits⟩ := ih
    unfold Volume.fill
    by_cases hm : V.Group m
    swap
    · rw [if_neg hm]
      refine ⟨hcarried, hsectors, hsize, hvalid, fun g' hlt hg' ↦ hbits g' ?_ hg'⟩
      have hne : g' ≠ m := fun heq ↦ hm (heq ▸ hg')
      omega
    rw [if_pos hm]
    obtain ⟨-, hself, hother, -⟩ :=
      hcarried.toImage.putBitmap hm (V.onlyFree (if m = g then i else V.bs * 8))
    have hput := hcarried.putBitmap hm (V.onlyFree (if m = g then i else V.bs * 8))
    refine ⟨hput, hsectors, hsize, hvalid, fun g' hlt hg' ↦ ?_⟩
    by_cases hne : g' = m
    · rw [hne, hself]
    · rw [hother g' hg' hne, hbits g' (by omega) hg']

/-- With one clear bit left, that is the one an allocation takes. -/
theorem Carried.exists_newBlocks (h : V.Carried n fs) (hbs : V.bs ≤ blockSizeDefault)
    {bpg bc gc : ℕ} (hgeom : fs.allocGeometry = some (bpg, bc, gc)) (hg : g < gc) (hgroup : V.Group g)
    (hi : 1 ≤ i) (hlimit : i < min bpg (bc - g * bpg)) :
    ∃ fs₁ fs₂, V.Coherent n fs₁ ∧ fs₁.dev.bdNrSectors = fs.dev.bdNrSectors ∧
      fs₁.dev.bdSectorSize = fs.dev.bdSectorSize ∧
      fs₁.ext4NewBlocksInGroup 1 0 = (some (g * bpg + i, 1), fs₂) ∧
      V.TookRun n 1 (min bpg (bc - g * bpg)) fs₁ g i 1 fs₂ := by
  obtain ⟨hcarried, hsectors, hsize, hvalid, hbits⟩ := h.fill g i V.groups
  set fs₁ := V.fill g i V.groups fs with hfs₁
  have hcoherent : V.Coherent n fs₁ := ⟨hcarried, fun hv ↦ absurd hv (by simp [hvalid])⟩
  have hsame : fs₁.allocGeometry = some (bpg, bc, gc) := by
    rw [← hgeom]
    simp only [Fs.allocGeometry, hcarried.blockSize, hcarried.blocksCount, h.blockSize,
      h.blocksCount, hsectors, ext4SectorsPerBlock, hsize,
      show fs₁.sbi.sBlocksCount = V.blocks from congrArg SbGeom.sBlocksCount hcarried.geom,
      show fs.sbi.sBlocksCount = V.blocks from congrArg SbGeom.sBlocksCount h.geom,
      show fs₁.sbi.sGroupsCount = V.groups from congrArg SbGeom.sGroupsCount hcarried.geom,
      show fs.sbi.sGroupsCount = V.groups from congrArg SbGeom.sGroupsCount h.geom]
  have hle : bpg ≤ V.bs * 8 := (h.allocGeometry hbs hgeom).perGroup_le
  -- every bit that an allocation looks at is set, but for the one
  have hbit : ∀ g', V.Group g' → ∀ j < V.bs * 8,
      (fs₁.block (V.blockBitmap g')).bit j = !decide (g' = g ∧ j = i) := by
    intro g' hg' j hj
    rw [hbits g' hg'.1 hg', Buf.bit_clip _ (by omega), bit_onlyFree hj]
    by_cases hne : g' = g
    · simp [hne]
    · simp [hne, hj.ne]
  have hpost := hcoherent.newBlocks 1 0
  rw [wp] at hpost
  rcases hnew : fs₁.ext4NewBlocksInGroup 1 0 with ⟨_ | ⟨b, len⟩, fs₂⟩
  · -- the clear bit says the group is not full
    rw [hnew] at hpost
    have hfull := hpost.2.2.2 hbs _ hsame g hg hgroup i hi hlimit
    rw [hbit g hgroup i (by omega)] at hfull
    simp at hfull
  · rw [hnew] at hpost
    obtain ⟨geom, hgeom', g', hg', i', rfl, hrun⟩ := hpost
    obtain rfl := Option.some.inj (hsame.symm.trans hgeom')
    have hpos := hrun.len_pos
    have hlen := hrun.len_le
    have hend := hrun.le_limit
    dsimp only at hend
    -- the run that was found is clear, so it is that bit
    have hclear := hrun.clear i' le_rfl (by omega)
    rw [hbit g' hrun.changed.group i' (by omega)] at hclear
    obtain ⟨rfl, rfl⟩ : g' = g ∧ i' = i := by simpa using hclear
    obtain rfl : len = 1 := by omega
    exact ⟨fs₁, fs₂, hcoherent, hsectors, hsize, hnew, hrun⟩

/-- What the two must agree on if that bit is the one an allocation takes. -/
theorem AgreesAt.addresses (h : V.AgreesAt fs) {bpg limit : ℕ}
    (hnew : fs.ext4NewBlocksInGroup 1 0 = (some (g * bpg + i, 1), fs'))
    (hrun : V.TookRun n 1 limit fs g i 1 fs') (hi : i < 8 * V.bs) :
    g * bpg = V.geom.sFirstDataBlock + g * V.perGroup ∧ i < V.perGroup := by
  have hself := hrun.setsRun.bit g hrun.changed.group i hi
  rw [hrun.clear i le_rfl (by omega)] at hself
  simp only [le_refl, Nat.lt_succ_self, and_self, decide_true, Bool.or_true] at hself
  obtain ⟨g', i', hsets, hagree⟩ := h _ _ _ _ _ hnew
  obtain ⟨haddr, hrelease⟩ := hagree 0 (by omega)
  -- only one bit was set
  have hbit := hsets.bit g hrun.changed.group i hi
  rw [hself, hrun.clear i le_rfl (by omega)] at hbit
  obtain ⟨rfl, hlo, hhi⟩ : g = g' ∧ i' ≤ i ∧ i < i' + 1 := by simpa using hbit.symm
  obtain rfl : i' = i := by omega
  obtain ⟨hreach, -, hmod⟩ := (hrelease fs' .refl hself).addresses hrun.coherent hrun.changed.group hi
    hself
  have hlt := hreach.mod_lt
  rw [Nat.add_zero, Nat.add_zero] at *
  exact ⟨by omega, by omega⟩

/-- **Allocation and release agree exactly where the superblock's numbers are those of an
allocation.** -/
theorem Carried.agreesAt_iff (h : V.Carried n fs) (hbs : 1024 ≤ V.bs) (hgroups : V.groups * 4 ≤ 65536)
    (hsize : V.geom.sDescSize ≤ 64) :
    (∀ fs', V.Coherent n fs' → fs'.dev.bdNrSectors = fs.dev.bdNrSectors →
      fs'.dev.bdSectorSize = fs.dev.bdSectorSize → V.AgreesAt fs') ↔ V.SameAddresses fs.dev := by
  have hreach : ∀ fs' : Fs, fs'.dev.bdNrSectors = fs.dev.bdNrSectors →
      fs'.dev.bdSectorSize = fs.dev.bdSectorSize → V.reach fs'.dev = V.reach fs.dev := by
    intro fs' hsectors hsize
    rw [reach, reach, ext4SectorsPerBlock, ext4SectorsPerBlock, hsectors, hsize]
  constructor
  swap
  · intro hsame fs' h' hsectors hsize
    refine h'.agreesAt hgroups ?_
    rwa [SameAddresses, hreach fs' hsectors hsize]
  intro hall
  by_cases hlarge : blockSizeDefault < V.bs
  · exact .inl hlarge
  by_cases hone : V.reach fs.dev ≤ 1
  · exact .inr (.inl hone)
  right
  right
  rw [Nat.not_lt] at hlarge
  obtain ⟨gc, hgeom⟩ := h.allocGeometry_eq hlarge hgroups
  have hgroup : V.GroupGeom _ _ gc := h.allocGeometry hlarge hgeom
  dsimp only at hgroup
  set N := V.reach fs.dev with hN
  set bpg := min (V.bs * 8) N with hbpg
  set bc := min N (V.groups * bpg) with hbc
  have hpos := h.laid.groups_pos
  have hprod : bpg ≤ V.groups * bpg := Nat.le_mul_of_pos_left _ hpos
  have hds := h.laid.copySz_le
  -- an allocation that must take bit `i` of group `g`
  have htarget : ∀ g i, g < gc → V.Group g → 1 ≤ i → i < min bpg (bc - g * bpg) →
      g * bpg = V.geom.sFirstDataBlock + g * V.perGroup ∧ i < V.perGroup := by
    intro g i hg hV hi hlimit
    obtain ⟨fs₁, fs₂, h₁, hsectors, hsize, hnew, hrun⟩ :=
      h.exists_newBlocks hlarge hgeom hg hV hi hlimit
    exact (hall fs₁ h₁ hsectors hsize).addresses hnew hrun (by omega)
  have hzero : V.Group 0 := ⟨hpos, by
    have hoff : V.descOff 0 = 0 := by simp [descOff, SbGeom.descLoc, u32]
    omega⟩
  have hgpos : 0 < gc := Fs.groupsCount_pos_of_allocGeometry hgeom
  obtain ⟨hfirst, -⟩ := htarget 0 1 hgpos hzero le_rfl (by omega)
  obtain ⟨-, hlast⟩ := htarget 0 (bpg - 1) hgpos hzero (by omega) (by omega)
  refine ⟨by omega, by omega, fun hmore htwo ↦ ?_⟩
  have hdouble : 2 * bpg ≤ V.groups * bpg := Nat.mul_le_mul_right _ htwo
  have hgc : 1 < gc := by
    rw [hgroup.groups_eq]
    exact (Nat.le_div_iff_mul_le hgroup.perGroup_pos).2 (by omega)
  have hone : V.Group 1 := ⟨htwo, by
    have hle : V.descOff 1 ≤ V.geom.sDescSize % 2 ^ 32 := by
      simp only [descOff, SbGeom.descLoc, u32, Nat.one_mul]
      exact Nat.mod_le _ _
    have := Nat.mod_le V.geom.sDescSize (2 ^ 32)
    omega⟩
  obtain ⟨hsecond, -⟩ := htarget 1 1 hgc hone le_rfl (by omega)
  omega

/-! ### The geometries that can be mounted -/

/-- Metadata that is in its place is laid out as the code needs it. -/
theorem Placed.laid (h : V.Placed n) {sbi : SbInfo} (haccepted : sbi.Accepted)
    (hgd : sbi.sGroupDesc.isSome) (hgeom : V.geom = sbi.toSbGeom) : V.Laid n := by
  have hcopy : V.geom.copySz = sbi.sDescSize := by
    rw [hgeom]
    unfold SbGeom.copySz
    exact if_neg (Nat.not_lt.2 haccepted.descSize_le)
  have hgroups : V.groups * 4 ≤ 65536 := by
    show V.geom.sGroupsCount * 4 ≤ 65536
    rw [hgeom]
    exact haccepted.groups_le
  have hbs : V.bs = sbi.sBlockSize := congrArg SbGeom.sBlockSize hgeom
  have hblocks : V.blocks = sbi.sBlocksCount := congrArg SbGeom.sBlocksCount hgeom
  have hsize : V.geom.sDescSize = sbi.sDescSize := congrArg SbGeom.sDescSize hgeom
  have hpos : 0 < V.groups := by
    show 0 < V.geom.sGroupsCount
    rw [hgeom]
    exact haccepted.groups_pos hgd
  have hge := haccepted.bs_ge
  have hle := haccepted.descSize_le
  refine ⟨h, by omega, by rw [hbs]; exact haccepted.bs_le, by rw [hblocks]; exact haccepted.blocks_pos,
    by rw [hblocks]; exact haccepted.blocks_lt, hpos, fun hdefault ↦ ?_,
    by rw [hcopy]; exact haccepted.descSize_ge, by rw [hcopy, hsize], ?_⟩
  · simp only [blockSizeDefault] at hdefault
    calc V.groups * min (V.bs * 8) V.blocks ≤ 16384 * 32768 := Nat.mul_le_mul (by omega) (by omega)
      _ < 2 ^ 32 := by norm_num
  · calc V.groups * V.geom.sDescSize ≤ 16384 * 64 := Nat.mul_le_mul (by omega) (by omega)
      _ < 2 ^ 32 := by norm_num

/-- **Allocation and release agree on where a block lives exactly where the superblock's numbers are
those of an allocation.** Of the image that was mounted only the numbers and the places of the
allocator's metadata matter, not what the bitmaps say. -/
theorem agreesAt_iff_sameAddresses {now bgSyncBatch preallocGoalLen : ℕ} {d dev : BlockDevice}
    {sbi : SbInfo} (hmount : ext4FillSuper now d = (some sbi, dev)) (hgd : sbi.sGroupDesc.isSome)
    (hgeom : V.geom = sbi.toSbGeom) (hplaced : V.Placed n) (husable : dev.Usable V.bs n)
    (hdesc : ∀ g, V.Group g → ((Fs.ofMount dev sbi bgSyncBatch preallocGoalLen).desc g).getField 0
      Gd.bgBlockBitmapLo = V.blockBitmap g) :
    (∀ fs, V.Coherent n fs → fs.dev.bdNrSectors = dev.bdNrSectors →
      fs.dev.bdSectorSize = dev.bdSectorSize → V.AgreesAt fs) ↔ V.SameAddresses dev := by
  have haccepted := accepted_of_fillSuper hmount
  have hbs : V.bs = sbi.sBlockSize := congrArg SbGeom.sBlockSize hgeom
  have husable' : (Fs.ofMount dev sbi bgSyncBatch preallocGoalLen).Usable n := by
    show dev.Usable sbi.sBlockSize n
    rwa [← hbs]
  have hcarried : V.Carried n (Fs.ofMount dev sbi bgSyncBatch preallocGoalLen) :=
    ⟨⟨hplaced.laid haccepted hgd hgeom, hbs.symm, hgeom.symm,
      (congrArg SbGeom.sBlocksCount hgeom).symm, hgd, hdesc⟩, husable'⟩
  refine hcarried.agreesAt_iff (by rw [hbs]; exact haccepted.bs_ge) ?_ ?_
  · show V.geom.sGroupsCount * 4 ≤ 65536
    rw [hgeom]
    exact haccepted.groups_le
  · rw [hgeom]
    exact haccepted.descSize_le

/-- On a new volume of 64 blocks of 4096 bytes they agree. -/
theorem agreesAt_iff_sameAddresses_64 :
    (Mkfs.volume 4096 64 Mkfs.smallSb.toSbGeom).AgreesAt Mkfs.smallFs := by
  obtain ⟨hgeom, hmounted⟩ := Mkfs.mounted_small
  have hblocks : (Mkfs.volume 4096 64 Mkfs.smallSb.toSbGeom).blocks = 64 := hgeom.sBlocksCount
  have hlaid := hmounted.wf.laid
  have husable := hmounted.usable
  have hsome : Mkfs.smallSb.sGroupDesc.isSome = true := by decide +kernel
  have hsame : (Mkfs.volume 4096 64 Mkfs.smallSb.toSbGeom).SameAddresses
      (ext4FillSuper 0 Mkfs.smallDisk).2 := by
    unfold SameAddresses
    decide +kernel
  have hcoherent := hmounted.coherent
  rw [hblocks] at hlaid husable hcoherent
  have hall := (@agreesAt_iff_sameAddresses _ _ 0 32 32 _ _ _
    Mkfs.fillSuper_small_eq hsome rfl hlaid.toPlaced husable
    fun g hg ↦ hmounted.desc_blockBitmap g hg.1).2 hsame
  exact hall Mkfs.smallFs hcoherent rfl rfl

/-! ### An image with a boot block -/

/-- An image of 64 blocks of 1024 bytes whose first data block is 1: block 0 is the boot block, the
superblock, the descriptors and the bitmaps are blocks 1 to 4, the inode table is blocks 5 to 8 and
block 9 is the root directory. Bit `i` of the bitmap is block `1 + i`. -/
def bootDisk : BlockDevice :=
  { BlockDevice.blank 512 128 with
    media := Buf.zero
      |>.setField 1024 Esb.sMagic ext4SuperMagic
      |>.setField 1024 Esb.sLogBlockSize 0
      |>.setField 1024 Esb.sBlocksCountLo 64
      |>.setField 1024 Esb.sFirstDataBlock 1
      |>.setField 1024 Esb.sBlocksPerGroup 8192
      |>.setField 1024 Esb.sInodesPerGroup 16
      |>.setField 1024 Esb.sInodesCount 16
      |>.setField 1024 Esb.sFirstIno 11
      |>.setField 1024 Esb.sDescSize 32
      |>.setField 2048 Gd.bgBlockBitmapLo 3
      |>.setField 2048 Gd.bgInodeBitmapLo 4
      |>.setField 2048 Gd.bgInodeTableLo 5
      |>.setField 2048 Gd.bgFreeBlocksCountLo 54
      |>.setField 2048 Gd.bgFreeInodesCountLo 5
      |>.setField 2048 Gd.bgUsedDirsCountLo 1
      |>.setBits (3072 * 8) (3072 * 8 + 9)
      |>.setBits (3072 * 8 + 63) (4096 * 8) }

theorem fillSuper_boot : (ext4FillSuper 0 bootDisk).1.isSome = true := by decide +kernel

/-- The superblock info of the image. -/
def bootSb : SbInfo := (ext4FillSuper 0 bootDisk).1.get fillSuper_boot

theorem fillSuper_boot_eq :
    ext4FillSuper 0 bootDisk = (some bootSb, (ext4FillSuper 0 bootDisk).2) :=
  eq_of_fst_eq (Option.some_get _).symm

/-- The image mounted. -/
def bootFs : Fs := Fs.ofMount (ext4FillSuper 0 bootDisk).2 bootSb 32 32

/-- Where the image has its metadata. -/
def bootVolume : Volume := ⟨bootSb.toSbGeom, fun _ ↦ 3, fun _ ↦ 4, fun _ ↦ 5⟩

theorem group_boot {g : ℕ} (hg : bootVolume.Group g) : g = 0 := by
  have hgroups : bootVolume.groups = 1 := by decide +kernel
  have := hg.1
  omega

theorem coherent_boot : bootVolume.Coherent 64 bootFs := by
  have hsuper : bootVolume.superBlock = 1 := by decide +kernel
  have hdesc : bootVolume.descBlock 0 = 2 := by decide +kernel
  have hgroups : bootVolume.groups = 1 := by decide +kernel
  have hplaced : bootVolume.Placed 64 := by
    refine ⟨fun b hb ↦ ?_, fun g hg ↦ ?_, fun g hg ↦ ?_, fun g hg g' hg' ↦ ?_,
      fun g hg g' hg' _ ↦ (group_boot hg).trans (group_boot hg').symm, fun g hg ↦ ?_⟩
    · rcases hb with rfl | ⟨g, hg, rfl | rfl⟩
      · omega
      · obtain rfl : g = 0 := by omega
        omega
      · exact show 3 < 64 by norm_num
    · obtain rfl := group_boot hg
      omega
    · exact fun h ↦ absurd (h.trans hsuper) (show ¬ 3 = 1 by norm_num)
    · obtain rfl := group_boot hg'
      exact fun h ↦ absurd (h.trans hdesc) (show ¬ 3 = 2 by norm_num)
    · exact show 3 ≠ 0 by norm_num
  have haccepted := accepted_of_fillSuper fillSuper_boot_eq
  have hsome : bootSb.sGroupDesc.isSome = true := by decide +kernel
  have husable : bootFs.Usable 64 :=
    ⟨by decide +kernel, by decide +kernel, by decide +kernel, by decide +kernel, by decide +kernel⟩
  refine ⟨⟨⟨hplaced.laid haccepted hsome rfl, rfl, rfl, rfl, hsome, fun g hg ↦ ?_⟩, husable⟩,
    fun hv ↦ absurd hv (by rw [show bootFs.sbi = bootSb from rfl, haccepted.cache]; simp)⟩
  obtain rfl := group_boot hg
  decide +kernel

/-- The first allocation returns block 9, the root directory: it set bit 9, which is block 10. -/
theorem not_agreesAt_boot : ext4FillSuper 0 bootDisk = (some bootSb, bootFs.dev) ∧
    bootVolume.Coherent 64 bootFs ∧ ¬ bootVolume.AgreesAt bootFs := by
  refine ⟨fillSuper_boot_eq, coherent_boot, fun h ↦ ?_⟩
  have hnew : ∃ fs', bootFs.ext4NewBlocksInGroup 1 0 = (some (9, 1), fs') :=
    ⟨_, eq_of_fst_eq (by decide +kernel)⟩
  obtain ⟨fs', hnew⟩ := hnew
  obtain ⟨g, i, hsets, hagree⟩ := h 1 0 9 1 fs' hnew
  obtain rfl := group_boot hsets.group
  have hfirst : bootVolume.geom.sFirstDataBlock = 1 := by decide +kernel
  have haddr := (hagree 0 (by norm_num)).1
  rw [hfirst] at haddr
  obtain rfl : i = 8 := by omega
  have hclear := hsets.clear 8 le_rfl (by norm_num)
  have hset : (bootFs.block (bootVolume.blockBitmap 0)).bit 8 = true := by decide +kernel
  rw [hset] at hclear
  simp at hclear

end Volume

end MiniExt4
