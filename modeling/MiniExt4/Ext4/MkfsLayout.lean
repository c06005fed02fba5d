import MiniExt4.Ext4.Mkfs

/-!
# The layout `ext4_mkfs` produces

`Mkfs.Role` names every block of metadata and `Mkfs.Role.pos` says where `ext4_mkfs` puts it. The
function is a sequence of block writes (`Writes`), so what a successful run leaves in a block is the
last thing written there; when the roles do not collide that is the content of the block's role.

The roles collide on every volume of 1024-byte blocks: the superblock is in block 1 there and the
descriptors start in block 2, but the bitmaps are placed as if the superblock were in block 0.
-/

namespace MiniExt4

open StateErr

/-! ### Runs that are sequences of block writes -/

/-- The device after the blocks of a list were stored, in order. -/
def putAll (bs : ℕ) : List (ℕ × Buf) → BlockDevice → BlockDevice
  | [], d => d
  | w :: ws, d => putAll bs ws (d.putBlock bs w.1 w.2)

/-- Storing two lists of blocks is storing one after the other. -/
theorem putAll_append (bs : ℕ) (l m : List (ℕ × Buf)) (d : BlockDevice) :
    putAll bs (l ++ m) d = putAll bs m (putAll bs l d) := by
  induction l generalizing d with
  | nil => rfl
  | cons w ws ih => exact ih _

/-- The device keeps its size. -/
theorem Whole.putAll {bs n : ℕ} (l : List (ℕ × Buf)) {d : BlockDevice} (h : d.Whole bs n) :
    (putAll bs l d).Whole bs n := by
  induction l generalizing d with
  | nil => exact h
  | cons w ws ih => exact ih (h.putBlock _ _)

/-- A block no write goes to keeps its contents. -/
theorem block_putAll_of_forall_ne {bs b : ℕ} {l : List (ℕ × Buf)} {d : BlockDevice}
    (h : ∀ w ∈ l, b ≠ w.1) : (putAll bs l d).block bs b = d.block bs b := by
  induction l generalizing d with
  | nil => rfl
  | cons w ws ih =>
    rw [putAll, ih fun x hx ↦ h x (List.mem_cons_of_mem _ hx)]
    exact d.block_putBlock_of_ne bs w.2 (h w List.mem_cons_self)

/-- A block all of whose writes agree holds what was written. -/
theorem block_putAll_of_mem {bs : ℕ} {l : List (ℕ × Buf)} {d : BlockDevice} {w : ℕ × Buf}
    (hw : w ∈ l) (hagree : ∀ x ∈ l, x.1 = w.1 → x.2 = w.2) :
    (putAll bs l d).block bs w.1 = Buf.clip bs w.2 := by
  induction l generalizing d with
  | nil => simp at hw
  | cons x xs ih =>
    rw [putAll]
    by_cases hlater : ∃ y ∈ xs, y.1 = w.1
    · obtain ⟨y, hy, hpos⟩ := hlater
      obtain rfl : y = w := Prod.ext hpos (hagree y (List.mem_cons_of_mem _ hy) hpos)
      exact ih hy fun z hz ↦ hagree z (List.mem_cons_of_mem _ hz)
    · -- the head is the last write to the block
      have hnot : w ∉ xs := fun h ↦ hlater ⟨w, h, rfl⟩
      obtain rfl : w = x := (List.mem_cons.1 hw).resolve_right hnot
      rw [block_putAll_of_forall_ne fun y hy heq ↦ hlater ⟨y, hy, heq.symm⟩]
      exact d.block_putBlock_self bs w.1 w.2

/-- A block holds the last thing written to it. -/
theorem block_putAll_last {bs : ℕ} (l : List (ℕ × Buf)) {m : List (ℕ × Buf)} {w : ℕ × Buf}
    {d : BlockDevice} (h : ∀ x ∈ m, w.1 ≠ x.1) :
    (putAll bs (l ++ w :: m) d).block bs w.1 = Buf.clip bs w.2 := by
  rw [putAll_append, putAll, block_putAll_of_forall_ne h]
  exact BlockDevice.block_putBlock_self _ bs w.1 w.2

/-- The device goes on working. -/
theorem Usable.putAll {bs n : ℕ} (l : List (ℕ × Buf)) {d : BlockDevice} (h : d.Usable bs n) :
    (putAll bs l d).Usable bs n := by
  induction l generalizing d with
  | nil => exact h
  | cons w ws ih => exact ih (h.putBlock _ _)

/-- `x` does the writes of `l` when they are inside a device with room for `n` blocks; on a device
with room for no more it succeeds only then. -/
structure Writes (bs n : ℕ) (x : StateErr BlockDevice Unit) (l : List (ℕ × Buf)) : Prop where
  run : ∀ {d}, d.Usable bs n → (∀ w ∈ l, w.1 < n) → x d = (some (), putAll bs l d)
  inside : ∀ {d d'}, d.Whole bs n → x d = (some (), d') → ∀ w ∈ l, w.1 < n

/-- One block is written. -/
theorem Writes.block (bs n b : ℕ) (buf : Buf) :
    Writes bs n (ext4WriteBlock bs b buf) [(b, buf)] where
  run h hin := h.write (hin _ (List.mem_singleton.2 rfl)) buf
  inside h hrun w hw := by
    rw [List.mem_singleton.1 hw]
    exact h.lt_of_write hrun

/-- Nothing is written. -/
theorem Writes.nil (bs n : ℕ) : Writes bs n (pure ()) [] :=
  ⟨fun _ _ ↦ rfl, fun _ _ _ hw ↦ absurd hw List.not_mem_nil⟩

/-- What two computations write, one after the other. -/
theorem Writes.append {bs n : ℕ} {x y : StateErr BlockDevice Unit} {l m : List (ℕ × Buf)}
    (hx : Writes bs n x l) (hy : Writes bs n y m) :
    Writes bs n (x >>= fun _ ↦ y) (l ++ m) where
  run h hin := by
    have hl := hx.run h fun w hw ↦ hin w (List.mem_append_left _ hw)
    rw [bind_of_eq_some hl, hy.run (Usable.putAll l h) fun w hw ↦ hin w (List.mem_append_right _ hw),
      putAll_append]
  inside h hrun w hw := by
    obtain ⟨_, d₁, h₁, h₂⟩ := bind_eq_some_iff.1 hrun
    have hl := hx.inside h h₁
    obtain rfl : putAll bs l _ = d₁ := congrArg Prod.snd ((hx.run h.toUsable hl).symm.trans h₁)
    exact (List.mem_append.1 hw).elim (hl w) (hy.inside (Whole.putAll l h) h₂ w)

/-- What a counted loop writes is what its rounds write, in order. -/
theorem Writes.forUp {bs n : ℕ} {body : ℕ → StateErr BlockDevice Unit}
    {l : ℕ → List (ℕ × Buf)} (h : ∀ k, Writes bs n (body k) (l k)) (lo m : ℕ) :
    Writes bs n (StateErr.forUp body lo m) ((List.range' lo m).flatMap l) := by
  induction m generalizing lo with
  | zero => exact Writes.nil bs n
  | succ m ih =>
    rw [List.range'_succ, List.flatMap_cons]
    exact (h lo).append (ih (lo + 1))

/-! ### The blocks of metadata -/

namespace Mkfs

variable (bs total : ℕ)

/-- The block size is one `ext4_mkfs` accepts. -/
theorem pow_of_blockSizeToLog {bs log : ℕ} (h : ext4BlockSizeToLog bs = some log) :
    1024 ≤ bs ∧ bs ≤ 65536 ∧ ∃ k, bs = 2 ^ k := by
  unfold ext4BlockSizeToLog at h
  split at h
  · simp at h
  · rename_i hrange
    split at h
    · simp at h
    · rename_i hpow
      have hz : bs &&& (bs - 1) = 0 := by simpa using hpow
      obtain ⟨k, hk⟩ := (Nat.and_sub_one_eq_zero_iff_isPowerOfTwo (by omega)).1 hz
      exact ⟨by omega, by omega, k, hk⟩

/-- What `ext4_mkfs` places: by group, and by index where a role takes several blocks. -/
inductive Role where
  | superBlock (g : ℕ)
  | groupDesc (g i : ℕ)
  | blockBitmap (g : ℕ)
  | inodeBitmap (g : ℕ)
  | inodeTable (g i : ℕ)
  | rootDir
  deriving DecidableEq

namespace Role

/-- The group a block belongs to. -/
def group : Role → ℕ
  | superBlock g | groupDesc g _ | blockBitmap g | inodeBitmap g | inodeTable g _ => g
  | rootDir => 0

/-- The roles of the volume. The primary superblock and the root directory are written whatever the
number of groups is. -/
def Valid : Role → Prop
  | superBlock g => g = 0 ∨ g < groupsCount bs total
  | groupDesc g i => g < groupsCount bs total ∧ i < gdBlocks bs total
  | blockBitmap g | inodeBitmap g => g < groupsCount bs total
  | inodeTable g i => g < groupsCount bs total ∧ i < inodeTableBlocks bs total
  | rootDir => True

/-- Where `ext4_mkfs` puts it. -/
def pos : Role → ℕ
  | superBlock g => if g = 0 then sbBlocknr bs else groupStart bs total g
  | groupDesc g i => if g = 0 then gdBlock bs + i else groupStart bs total g + 1 + i
  | blockBitmap g => blockBitmapAbs bs total g
  | inodeBitmap g => inodeBitmapAbs bs total g
  | inodeTable g i => if g = 0 then group0InodeTable bs total + i else inodeTableAbs bs total g + i
  | rootDir => rootDirBlock bs total

end Role

/-- The layout of a volume, with the bitmaps as written on `d`. -/
structure NonOverlapping (d : BlockDevice) : Prop where
  disjoint : ∀ r r', Role.Valid bs total r → Role.Valid bs total r' → r ≠ r' →
    r.pos bs total ≠ r'.pos bs total
  inside : ∀ r, Role.Valid bs total r → r.group < groupsCount bs total ∧
    groupStart bs total r.group ≤ r.pos bs total ∧
    r.pos bs total < groupStart bs total r.group + groupBlocks bs total r.group ∧
    r.pos bs total < total
  marked : ∀ r, Role.Valid bs total r →
    (d.block bs (blockBitmapAbs bs total r.group)).bit
      (r.pos bs total - groupStart bs total r.group) = true
  free : ∀ g < groupsCount bs total, ∀ i < groupBlocks bs total g,
    (∀ r, Role.Valid bs total r → r.group = g → r.pos bs total ≠ groupStart bs total g + i) →
      (d.block bs (blockBitmapAbs bs total g)).bit i = false
  padding : ∀ g < groupsCount bs total, ∀ i, groupBlocks bs total g ≤ i → i < bs * 8 →
    (d.block bs (blockBitmapAbs bs total g)).bit i = true
  inodes : ∀ g < groupsCount bs total, ∀ i < bs * 8,
    (d.block bs (inodeBitmapAbs bs total g)).bit i =
      decide (g = 0 ∧ i < reservedInodesG0 bs total ∨ inodesPerGroup bs total ≤ i)

/-- When the layout is right: not for 1024-byte blocks, when the number of groups does not wrap, and
when the metadata of every group fits in the group (only the last one can be too short). -/
def Fits : Prop :=
  bs ≠ 1024 ∧ total + blocksPerGroup bs total - 1 < 2 ^ 32 ∧
    ∀ g < groupsCount bs total, metadataBlocks bs total g ≤ groupBlocks bs total g

/-! ### The arithmetic of the layout -/

section Arithmetic

variable {bs total}

/-- A group has no more blocks than the volume, nor than its bitmap has bits. -/
theorem blocksPerGroup_le (bs total : ℕ) :
    blocksPerGroup bs total ≤ total ∧ blocksPerGroup bs total ≤ bs * 8 := by
  unfold blocksPerGroup
  split <;> omega

theorem gdBlocks_lt (hbs : 1024 ≤ bs) : gdBlocks bs total < 2 ^ 22 := by
  have h := u32_lt (u32 (groupsCount bs total * gdEntrySize) + bs - 1)
  calc gdBlocks bs total ≤ u32 (u32 (groupsCount bs total * gdEntrySize) + bs - 1) / 1024 :=
        Nat.div_le_div_left hbs (by norm_num)
    _ < 2 ^ 22 := by omega

theorem inodeTableBlocks_lt (hbs : 1024 ≤ bs) : inodeTableBlocks bs total < 2 ^ 22 := by
  have h := u32_lt (u32 (inodesPerGroup bs total * inodeSize) + bs - 1)
  calc inodeTableBlocks bs total ≤ u32 (u32 (inodesPerGroup bs total * inodeSize) + bs - 1) / 1024 :=
        Nat.div_le_div_left hbs (by norm_num)
    _ < 2 ^ 22 := by omega

/-- The group count is at most what 32-byte descriptors in `2 ^ 32` bytes allow. -/
theorem groupsCount_le (hbs : 1024 ≤ bs) (htotal : total < 2 ^ 32) :
    groupsCount bs total ≤ 2 ^ 19 := by
  unfold groupsCount
  by_cases h : total ≤ bs * 8
  · have hbpg : blocksPerGroup bs total = total := if_pos h
    rw [hbpg]
    rcases Nat.eq_zero_or_pos total with rfl | hpos
    · simp
    · have hle : u32 (total + total - 1) ≤ total + total - 1 := Nat.mod_le _ _
      have hdiv : u32 (total + total - 1) / total < 2 :=
        (Nat.div_lt_iff_lt_mul hpos).2 (by omega)
      omega
  · have hbpg : blocksPerGroup bs total = bs * 8 := if_neg h
    rw [hbpg]
    have hlt := u32_lt (total + bs * 8 - 1)
    calc u32 (total + bs * 8 - 1) / (bs * 8) ≤ u32 (total + bs * 8 - 1) / 8192 :=
          Nat.div_le_div_left (by omega) (by norm_num)
      _ ≤ 2 ^ 19 := by omega

/-- The number of blocks of descriptors is not wrapped. -/
theorem gdBlocks_eq (hbs : 1024 ≤ bs) (hbs' : bs ≤ 65536) (htotal : total < 2 ^ 32) :
    gdBlocks bs total = (groupsCount bs total * gdEntrySize + bs - 1) / bs := by
  have hle := groupsCount_le hbs htotal
  unfold gdBlocks gdEntrySize
  rw [u32_of_lt (n := groupsCount bs total * 32) (by omega), u32_of_lt (by omega)]

/-- Nor is that of a table. -/
theorem inodeTableBlocks_eq (hbs' : bs ≤ 65536) :
    inodeTableBlocks bs total = (inodesPerGroup bs total * inodeSize + bs - 1) / bs := by
  have hle := (blocksPerGroup_le bs total).2
  unfold inodeTableBlocks inodesPerGroup inodeSize
  rw [u32_of_lt (n := blocksPerGroup bs total * 256) (by omega), u32_of_lt (by omega)]

/-- There is a block of descriptors. -/
theorem gdBlocks_pos (hbs : 1024 ≤ bs) (hbs' : bs ≤ 65536) (htotal : total < 2 ^ 32)
    (hg : 0 < groupsCount bs total) : 0 < gdBlocks bs total := by
  rw [gdBlocks_eq hbs hbs' htotal]
  refine Nat.div_pos ?_ (by omega)
  unfold gdEntrySize
  omega

/-- The descriptor of a group is inside the table. -/
theorem descBlock_lt (hbs : 1024 ≤ bs) (hbs' : bs ≤ 65536) (htotal : total < 2 ^ 32) {g : ℕ}
    (h : g < groupsCount bs total) : g * 32 / bs < gdBlocks bs total := by
  rw [gdBlocks_eq hbs hbs' htotal]
  unfold gdEntrySize
  refine (Nat.div_lt_iff_lt_mul (by omega)).2 ?_
  have := Nat.lt_div_mul_add (a := groupsCount bs total * 32 + bs - 1) (b := bs) (by omega)
  omega

/-- There is a block of the table. -/
theorem inodeTableBlocks_pos (hbs : 1024 ≤ bs) (hbs' : bs ≤ 65536)
    (hpos : 0 < blocksPerGroup bs total) : 0 < inodeTableBlocks bs total := by
  rw [inodeTableBlocks_eq hbs']
  refine Nat.div_pos ?_ (by omega)
  unfold inodesPerGroup inodeSize
  omega

/-- A wrapped sum leaves no group. -/
theorem no_wrap_of_groupsCount_pos (htotal : total < 2 ^ 32) (hg : 0 < groupsCount bs total) :
    total + blocksPerGroup bs total - 1 < 2 ^ 32 := by
  by_contra hwrap
  have hle := (blocksPerGroup_le bs total).1
  have hsmall : u32 (total + blocksPerGroup bs total - 1) < blocksPerGroup bs total := by
    unfold u32
    omega
  rw [groupsCount, Nat.div_eq_of_lt hsmall] at hg
  omega

/-- Every group starts below the end of the device. -/
theorem mul_lt_of_lt_groupsCount (hwrap : total + blocksPerGroup bs total - 1 < 2 ^ 32) {g : ℕ}
    (hg : g < groupsCount bs total) : g * blocksPerGroup bs total < total := by
  rw [groupsCount, u32_of_lt hwrap] at hg
  have hpos : 0 < blocksPerGroup bs total := by
    by_contra h0
    simp [Nat.eq_zero_of_not_pos h0] at hg
  have hle := (Nat.le_div_iff_mul_le hpos).1 (show g + 1 ≤ _ from hg)
  rw [Nat.add_mul, Nat.one_mul] at hle
  omega

/-- The first block of a group is not wrapped. -/
theorem groupStart_eq (hwrap : total + blocksPerGroup bs total - 1 < 2 ^ 32) {g : ℕ}
    (hg : g < groupsCount bs total) : groupStart bs total g = g * blocksPerGroup bs total := by
  have hlt := mul_lt_of_lt_groupsCount hwrap hg
  exact u32_of_lt (by omega)

/-- A group ends at its `blocks_per_group` or at the end of the device, whichever is first. -/
theorem groupBlocks_eq (hwrap : total + blocksPerGroup bs total - 1 < 2 ^ 32) {g : ℕ}
    (hg : g < groupsCount bs total) : groupBlocks bs total g =
      min (blocksPerGroup bs total) (total - g * blocksPerGroup bs total) := by
  have hlt := mul_lt_of_lt_groupsCount hwrap hg
  rw [groupBlocks, groupStart_eq hwrap hg, u32_of_lt (by omega)]
  split <;> omega

/-- Where the bitmaps and the inode table of a group are. -/
theorem bitmaps_eq (hwrap : total + blocksPerGroup bs total - 1 < 2 ^ 32) {g : ℕ}
    (hlt : g < groupsCount bs total)
    (hend : g * blocksPerGroup bs total + metadataBlocks bs total g < 2 ^ 32) :
    blockBitmapAbs bs total g = g * blocksPerGroup bs total + (1 + gdBlocks bs total) ∧
    inodeBitmapAbs bs total g = g * blocksPerGroup bs total + (1 + gdBlocks bs total + 1) ∧
    inodeTableAbs bs total g = g * blocksPerGroup bs total + (1 + gdBlocks bs total + 1 + 1) := by
  unfold metadataBlocks at hend
  have hb : blockBitmapAbs bs total g =
      g * blocksPerGroup bs total + (1 + gdBlocks bs total) := by
    rw [blockBitmapAbs, groupStart_eq hwrap hlt, u32_of_lt (by omega)]
    omega
  have hi : inodeBitmapAbs bs total g =
      g * blocksPerGroup bs total + (1 + gdBlocks bs total + 1) := by
    rw [inodeBitmapAbs, hb, u32_of_lt (by omega)]
    omega
  have ht : g * blocksPerGroup bs total + (1 + gdBlocks bs total + 1) + 1 < 2 ^ 32 := by omega
  refine ⟨hb, hi, ?_⟩
  rw [inodeTableAbs, hi, u32_of_lt ht]
  omega

end Arithmetic

/-! ### Where the metadata of groups that are apart lies -/

namespace Role

/-- Where a role is counted from the start of its group. -/
def offset : Role → ℕ
  | superBlock _ => 0
  | groupDesc _ i => 1 + i
  | blockBitmap _ => 1 + gdBlocks bs total
  | inodeBitmap _ => 1 + gdBlocks bs total + 1
  | inodeTable _ i => 1 + gdBlocks bs total + 1 + 1 + i
  | rootDir => 1 + gdBlocks bs total + 1 + 1 + inodeTableBlocks bs total

end Role

/-- The metadata of the groups is apart, also where that of the last group goes past its end. -/
structure Spaced : Prop where
  ne_1024 : bs ≠ 1024
  no_wrap : total + blocksPerGroup bs total - 1 < 2 ^ 32
  inner : ∀ g, g + 1 < groupsCount bs total → metadataBlocks bs total g ≤ blocksPerGroup bs total
  lt : ∀ g < groupsCount bs total,
    g * blocksPerGroup bs total + metadataBlocks bs total g < 2 ^ 32

section Spaced

variable {bs total} (h : Spaced bs total) (hg : 0 < groupsCount bs total)

include h

/-- Where the groups are spaced. -/
theorem Spaced.groupStart {g : ℕ} (hlt : g < groupsCount bs total) :
    groupStart bs total g = g * blocksPerGroup bs total := groupStart_eq h.no_wrap hlt

/-- The bitmaps and the table of a group, from its first block on. -/
theorem Spaced.bitmaps {g : ℕ} (hlt : g < groupsCount bs total) :
    blockBitmapAbs bs total g = g * blocksPerGroup bs total + (1 + gdBlocks bs total) ∧
    inodeBitmapAbs bs total g = g * blocksPerGroup bs total + (1 + gdBlocks bs total + 1) ∧
    inodeTableAbs bs total g = g * blocksPerGroup bs total + (1 + gdBlocks bs total + 1 + 1) :=
  bitmaps_eq h.no_wrap hlt (h.lt g hlt)

include hg

/-- Every role sits at its offset in its group, inside the group's metadata. -/
theorem Spaced.pos_eq {r : Role} (hr : r.Valid bs total) :
    r.group < groupsCount bs total ∧
      r.pos bs total = r.group * blocksPerGroup bs total + r.offset bs total ∧
      r.offset bs total < metadataBlocks bs total r.group := by
  have hne : bs ≠ 1024 := h.ne_1024
  have h0 := h.bitmaps hg
  have hend := h.lt 0 hg
  unfold metadataBlocks at hend ⊢
  -- each role has its place behind the start of its group
  cases r with
  | superBlock g =>
    have hlt : g < groupsCount bs total := by
      rcases hr with rfl | h
      · exact hg
      · exact h
    refine ⟨hlt, ?_, by simp [Role.offset, Role.group]⟩
    by_cases hz : g = 0
    · simp [Role.pos, Role.group, Role.offset, hz, sbBlocknr, hne]
    · simp [Role.pos, Role.group, Role.offset, hz, h.groupStart hlt]
  | groupDesc g i =>
    obtain ⟨hlt, hi⟩ := hr
    refine ⟨hlt, ?_, by simp only [Role.offset, Role.group]; omega⟩
    by_cases hz : g = 0
    · simp [Role.pos, Role.group, Role.offset, hz, gdBlock, firstDataBlock, hne]
    · simp only [Role.pos, Role.group, Role.offset, hz, if_false, h.groupStart hlt]
      omega
  | blockBitmap g =>
    exact ⟨hr, (h.bitmaps hr).1, by simp only [Role.offset, Role.group]; omega⟩
  | inodeBitmap g =>
    exact ⟨hr, (h.bitmaps hr).2.1, by simp only [Role.offset, Role.group]; omega⟩
  | inodeTable g i =>
    obtain ⟨hlt, hi⟩ := hr
    refine ⟨hlt, ?_, by simp only [Role.offset, Role.group]; omega⟩
    have hb := (h.bitmaps hlt).2.2
    by_cases hz : g = 0
    · subst hz
      simp only [Role.pos, Role.group, Role.offset, if_true, group0InodeTable,
        if_neg (Nat.ne_of_gt hg), hb]
      omega
    · simp only [Role.pos, Role.group, Role.offset, hz, if_false, hb]
      omega
  | rootDir =>
    refine ⟨hg, ?_, by simp [Role.offset, Role.group]⟩
    have hb := h0.2.2
    simp only [Role.pos, Role.group, Role.offset, rootDirBlock, if_neg (Nat.ne_of_gt hg), hb]
    rw [u32_of_lt (by simp at hend; omega)]
    omega

omit h hg in
/-- Roles of one group at one offset are one role. -/
theorem Role.eq_of_offset_eq {r r' : Role} (hr : r.Valid bs total) (hr' : r'.Valid bs total)
    (hgroup : r.group = r'.group) (hoff : r.offset bs total = r'.offset bs total) : r = r' := by
  cases r <;> cases r' <;>
    simp only [Role.group, Role.offset, Role.Valid, Role.superBlock.injEq, Role.groupDesc.injEq,
      Role.blockBitmap.injEq, Role.inodeBitmap.injEq, Role.inodeTable.injEq,
      reduceCtorEq] at * <;> omega

/-- A role of an earlier group comes before every role of a later one. -/
theorem Spaced.pos_lt_of_group_lt {r r' : Role} (hr : r.Valid bs total) (hr' : r'.Valid bs total)
    (hlt : r.group < r'.group) : r.pos bs total < r'.pos bs total := by
  obtain ⟨-, heq, hoff⟩ := h.pos_eq hg hr
  obtain ⟨hgroup, heq', -⟩ := h.pos_eq hg hr'
  have hroom := h.inner r.group (by omega)
  calc r.pos bs total < (r.group + 1) * blocksPerGroup bs total := by
        rw [heq, Nat.add_mul, Nat.one_mul]
        omega
    _ ≤ r'.group * blocksPerGroup bs total := Nat.mul_le_mul_right _ hlt
    _ ≤ r'.pos bs total := by omega

/-- Positions determine roles. -/
theorem Spaced.pos_injective {r r' : Role} (hr : r.Valid bs total) (hr' : r'.Valid bs total)
    (hpos : r.pos bs total = r'.pos bs total) : r = r' := by
  rcases Nat.lt_trichotomy r.group r'.group with hlt | hgroup | hgt
  · have := h.pos_lt_of_group_lt hg hr hr' hlt
    omega
  · have heq := (h.pos_eq hg hr).2.1
    have heq' := (h.pos_eq hg hr').2.1
    rw [hgroup] at heq
    exact Role.eq_of_offset_eq hr hr' hgroup (by omega)
  · have := h.pos_lt_of_group_lt hg hr' hr hgt
    omega

end Spaced

section Fits

variable {bs total} (hfit : Fits bs total) (hg : 0 < groupsCount bs total)

include hfit

/-- A group's metadata ends inside the group, and before the end of the device. -/
theorem Fits.metadata_le {g : ℕ} (h : g < groupsCount bs total) :
    metadataBlocks bs total g ≤ blocksPerGroup bs total ∧
      g * blocksPerGroup bs total + metadataBlocks bs total g ≤ total := by
  have hroom := hfit.2.2 g h
  have hlt := mul_lt_of_lt_groupsCount hfit.2.1 h
  rw [groupBlocks_eq hfit.2.1 h] at hroom
  omega

/-- Where the metadata fits the groups are spaced. -/
theorem Fits.spaced : Spaced bs total where
  ne_1024 := hfit.1
  no_wrap := hfit.2.1
  inner _ hlt := (hfit.metadata_le (by omega)).1
  lt g hlt := by
    have hend := (hfit.metadata_le hlt).2
    have hroom := (hfit.metadata_le hlt).1
    have hpos : 0 < metadataBlocks bs total g := by
      unfold metadataBlocks
      omega
    have := hfit.2.1
    omega

theorem Fits.groupStart {g : ℕ} (h : g < groupsCount bs total) :
    groupStart bs total g = g * blocksPerGroup bs total := groupStart_eq hfit.2.1 h

include hg

/-- Each piece of metadata is in its group, at its offset. -/
theorem Fits.pos_eq {r : Role} (hr : r.Valid bs total) :
    r.group < groupsCount bs total ∧
      r.pos bs total = r.group * blocksPerGroup bs total + r.offset bs total ∧
      r.offset bs total < metadataBlocks bs total r.group := hfit.spaced.pos_eq hg hr

/-- **Two pieces of metadata in one block are the same piece.** -/
theorem Fits.pos_injective {r r' : Role} (hr : r.Valid bs total) (hr' : r'.Valid bs total)
    (hpos : r.pos bs total = r'.pos bs total) : r = r' := hfit.spaced.pos_injective hg hr hr' hpos

omit hg hfit in
/-- Every offset in a group's metadata has its role. -/
theorem exists_role_of_lt_metadataBlocks {g i : ℕ} (h : g < groupsCount bs total)
    (hi : i < metadataBlocks bs total g) :
    ∃ r : Role, r.Valid bs total ∧ r.group = g ∧ r.offset bs total = i := by
  unfold metadataBlocks at hi
  rcases Nat.eq_zero_or_pos i with rfl | hpos
  · exact ⟨.superBlock g, .inr h, rfl, rfl⟩
  by_cases h₁ : i < 1 + gdBlocks bs total
  · exact ⟨.groupDesc g (i - 1), ⟨h, by omega⟩, rfl, by simp only [Role.offset]; omega⟩
  by_cases h₂ : i = 1 + gdBlocks bs total
  · exact ⟨.blockBitmap g, h, rfl, h₂.symm⟩
  by_cases h₃ : i = 1 + gdBlocks bs total + 1
  · exact ⟨.inodeBitmap g, h, rfl, h₃.symm⟩
  by_cases h₄ : i < 1 + gdBlocks bs total + 1 + 1 + inodeTableBlocks bs total
  · exact ⟨.inodeTable g (i - (1 + gdBlocks bs total + 1 + 1)), ⟨h, by omega⟩, rfl,
      by simp only [Role.offset]; omega⟩
  · by_cases hz : g = 0
    · rw [if_pos hz] at hi
      exact ⟨.rootDir, trivial, hz.symm, by simp only [Role.offset]; omega⟩
    · rw [if_neg hz] at hi
      omega

end Fits

/-! ### Accepted volumes

The checks of `ext4_mkfs` keep the groups apart for every block size but 1024. -/

section Accepted

variable {bs total}

/-- The checks of `ext4_mkfs` bound the descriptor table. -/
theorem mul_gdBlocks_le (hbs : 1024 ≤ bs) (hbs' : bs ≤ 65536) (htotal : total < 2 ^ 32)
    (htable : u32 (gdBlocks bs total * bs) ≤ 65536) : gdBlocks bs total * bs ≤ 65536 := by
  have hle := groupsCount_le hbs htotal
  have hmul : gdBlocks bs total * bs ≤ groupsCount bs total * gdEntrySize + bs - 1 := by
    rw [gdBlocks_eq hbs hbs' htotal]
    exact Nat.div_mul_le_self _ _
  unfold gdEntrySize at hmul
  rwa [u32_of_lt (by omega)] at htable

/-- The inode table of a full group. -/
theorem inodeTableBlocks_of_lt (hbs : 1024 ≤ bs) (hbs' : bs ≤ 65536) (hlt : bs * 8 < total) :
    inodeTableBlocks bs total = 2048 := by
  rw [inodeTableBlocks_eq hbs', inodesPerGroup, blocksPerGroup, if_neg (by omega), inodeSize]
  rw [show bs * 8 * 256 + bs - 1 = bs - 1 + bs * 2048 by omega, Nat.add_mul_div_left _ _ (by omega),
    Nat.div_eq_of_lt (by omega)]

/-- A volume that one bitmap covers has one group. -/
theorem groupsCount_eq_one (hpos : 0 < total) (hle : total ≤ bs * 8) (hbs' : bs ≤ 65536) :
    groupsCount bs total = 1 := by
  rw [groupsCount, blocksPerGroup, if_pos hle, u32_of_lt (by omega)]
  exact Nat.div_eq_of_lt_le (by omega) (by omega)

theorem two_mul_le_of_pow (hbs : 1024 ≤ bs) (hne : bs ≠ 1024) (hpow : ∃ k, bs = 2 ^ k) :
    2048 ≤ bs := by
  obtain ⟨k, rfl⟩ := hpow
  have hk : 10 < k := by
    by_contra hk
    have := Nat.pow_le_pow_right (n := 2) (by norm_num) (Nat.le_of_not_lt hk)
    omega
  exact Nat.pow_le_pow_right (n := 2) (by norm_num) hk

/-- The metadata of the groups of an accepted volume is apart. -/
theorem spaced_of_checks (hbs : 1024 ≤ bs) (hbs' : bs ≤ 65536) (hne : bs ≠ 1024)
    (hpow : ∃ k, bs = 2 ^ k) (htotal : total < 2 ^ 32) (hpos : 0 < total)
    (htable : u32 (gdBlocks bs total * bs) ≤ 65536)
    (hwrap : total + blocksPerGroup bs total - 1 < 2 ^ 32) : Spaced bs total := by
  have hbs₂ := two_mul_le_of_pow hbs hne hpow
  have hgd : gdBlocks bs total ≤ 32 := by
    have hmul := mul_gdBlocks_le hbs hbs' htotal htable
    have : gdBlocks bs total * 2048 ≤ gdBlocks bs total * bs := Nat.mul_le_mul_left _ hbs₂
    omega
  by_cases hle : total ≤ bs * 8
  · have hone := groupsCount_eq_one hpos hle hbs'
    have hit : inodeTableBlocks bs total < 2 ^ 22 := inodeTableBlocks_lt hbs
    refine ⟨hne, hwrap, fun g hg ↦ by omega, fun g hg ↦ ?_⟩
    obtain rfl : g = 0 := by omega
    rw [metadataBlocks, if_pos rfl]
    omega
  · have hbpg : blocksPerGroup bs total = bs * 8 := if_neg hle
    have hmeta : ∀ g, metadataBlocks bs total g ≤ 2084 := by
      intro g
      rw [metadataBlocks, inodeTableBlocks_of_lt hbs hbs' (by omega)]
      split <;> omega
    refine ⟨hne, hwrap, fun g _ ↦ (hmeta g).trans (by omega), fun g hg ↦ ?_⟩
    have := mul_lt_of_lt_groupsCount hwrap hg
    have := hmeta g
    omega

end Accepted

end Mkfs

end MiniExt4
