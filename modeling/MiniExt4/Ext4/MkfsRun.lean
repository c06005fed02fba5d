import MiniExt4.Ext4.MkfsLayout

/-!
# What a successful `ext4_mkfs` leaves on the device

The function writes the list `Mkfs.writes` of blocks (`ext4Mkfs_of_writes_lt`), and every one of them
is the content of a role at the role's position. So a layout that fits is exactly the layout that is
found on the device afterwards.

Both directions of the equivalence are about the list: with positions that are different, each block is
written once and keeps its content (`Fits.nonOverlapping`), and where two roles have one position, or a role
lies outside its group, the layout is not what it should be although the function succeeds
(`NonOverlapping.fits`).
-/

namespace MiniExt4

open StateErr

namespace Mkfs

variable (bs total : ℕ)

/-- The backup copies in group `g`. -/
def backupWrites (sb : Buf) (g : ℕ) : List (ℕ × Buf) :=
  (groupStart bs total g, Buf.zero.blit 0 (fun i ↦ sb (sbOffset bs + i)) 0 Esb.size) ::
    (List.range' 0 (gdBlocks bs total)).flatMap fun i ↦
      [(groupStart bs total g + 1 + i, gdTableBlock bs total i)]

/-- The bitmaps of group `g`. -/
def bitmapWrites (g : ℕ) : List (ℕ × Buf) :=
  [(blockBitmapAbs bs total g, blockBitmap bs total g),
    (inodeBitmapAbs bs total g, inodeBitmap bs total g)]

/-- Every block write of `ext4_mkfs`, in order. -/
def writes (now : ℕ) (sb : Buf) : List (ℕ × Buf) :=
  [(sbBlocknr bs, sb)] ++
    ((List.range' 0 (gdBlocks bs total)).flatMap (fun i ↦
        [(gdBlock bs + i, gdTableBlock bs total i)]) ++
      ((List.range' 1 (groupsCount bs total - 1)).flatMap (backupWrites bs total sb) ++
        ((List.range' 0 (groupsCount bs total)).flatMap (bitmapWrites bs total) ++
          ([(group0InodeTable bs total, rootInode bs total now)] ++
            [(rootDirBlock bs total, rootDir bs)]))))

/-- What is written for a role. -/
def content (now : ℕ) (sb : Buf) : Role → Buf
  | .superBlock g => if g = 0 then sb else Buf.zero.blit 0 (fun i ↦ sb (sbOffset bs + i)) 0 Esb.size
  | .groupDesc _ i => gdTableBlock bs total i
  | .blockBitmap g => blockBitmap bs total g
  | .inodeBitmap g => inodeBitmap bs total g
  | .inodeTable _ _ => rootInode bs total now
  | .rootDir => rootDir bs

/-- Every write is the content of a role at its position. -/
theorem exists_role_of_mem_writes {now : ℕ} {sb : Buf} (hg : 0 < groupsCount bs total)
    (hit : 0 < inodeTableBlocks bs total) {w : ℕ × Buf} (hw : w ∈ writes bs total now sb) :
    ∃ r : Role, r.Valid bs total ∧ w = (r.pos bs total, content bs total now sb r) := by
  simp only [writes, List.mem_append, List.mem_flatMap, List.mem_range'_1, List.mem_singleton]
    at hw
  rcases hw with rfl | ⟨i, hi, rfl⟩ | ⟨g, hlt, hw⟩ | ⟨g, hlt, hw⟩ | rfl | rfl
  · exact ⟨.superBlock 0, .inl rfl, rfl⟩
  · exact ⟨.groupDesc 0 i, ⟨hg, by omega⟩, rfl⟩
  · have hne : g ≠ 0 := by omega
    simp only [backupWrites, List.mem_cons, List.mem_flatMap, List.mem_range'_1,
      List.not_mem_nil, or_false] at hw
    rcases hw with rfl | ⟨i, hi, rfl⟩
    · exact ⟨.superBlock g, .inr (by omega), by simp [Role.pos, content, hne]⟩
    · exact ⟨.groupDesc g i, ⟨by omega, by omega⟩, by simp [Role.pos, content, hne]⟩
  · simp only [bitmapWrites, List.mem_cons, List.not_mem_nil, or_false] at hw
    rcases hw with rfl | rfl
    · exact ⟨.blockBitmap g, by simpa [Role.Valid] using hlt, rfl⟩
    · exact ⟨.inodeBitmap g, by simpa [Role.Valid] using hlt, rfl⟩
  · exact ⟨.inodeTable 0 0, ⟨hg, hit⟩, by simp [Role.pos, content]⟩
  · exact ⟨.rootDir, trivial, rfl⟩

theorem mem_writes_blockBitmap {now : ℕ} {sb : Buf} {g : ℕ} (h : g < groupsCount bs total) :
    (blockBitmapAbs bs total g, blockBitmap bs total g) ∈ writes bs total now sb := by
  simp only [writes, List.mem_append, List.mem_flatMap, List.mem_range'_1]
  exact .inr (.inr (.inr (.inl ⟨g, by omega, by simp [bitmapWrites]⟩)))

theorem mem_writes_inodeBitmap {now : ℕ} {sb : Buf} {g : ℕ} (h : g < groupsCount bs total) :
    (inodeBitmapAbs bs total g, inodeBitmap bs total g) ∈ writes bs total now sb := by
  simp only [writes, List.mem_append, List.mem_flatMap, List.mem_range'_1]
  exact .inr (.inr (.inr (.inl ⟨g, by omega, by simp [bitmapWrites]⟩)))

end Mkfs

open Mkfs

/-- The superblock `ext4_mkfs` writes on a device. -/
def Mkfs.writtenSuper (bs total log now : ℕ) (d : BlockDevice) : Buf :=
  superBlock bs total log now (d.block bs (sbBlocknr bs)) (sbOffset bs)

/-- The writing part of `ext4_mkfs` does the writes of the list. -/
theorem writes_mkfs {bs total now : ℕ} {sb : Buf} (n : ℕ) :
    Writes bs n (do
      ext4WriteBlock bs (sbBlocknr bs) sb
      forUp (fun i ↦ ext4WriteBlock bs (gdBlock bs + i) (gdTableBlock bs total i)) 0
        (gdBlocks bs total)
      forUp (fun g ↦ do
          ext4WriteBlock bs (groupStart bs total g)
            (Buf.zero.blit 0 (fun i ↦ sb (sbOffset bs + i)) 0 Esb.size)
          forUp (fun i ↦ ext4WriteBlock bs (groupStart bs total g + 1 + i)
            (gdTableBlock bs total i)) 0 (gdBlocks bs total))
        1 (groupsCount bs total - 1)
      forUp (fun g ↦ do
          ext4WriteBlock bs (blockBitmapAbs bs total g) (blockBitmap bs total g)
          ext4WriteBlock bs (inodeBitmapAbs bs total g) (inodeBitmap bs total g))
        0 (groupsCount bs total)
      ext4WriteBlock bs (group0InodeTable bs total) (rootInode bs total now)
      ext4WriteBlock bs (rootDirBlock bs total) (rootDir bs))
      (writes bs total now sb) := by
  have hblock := Writes.block bs n
  refine Writes.append (hblock _ _) (Writes.append ?_ (Writes.append ?_ (Writes.append ?_
    (Writes.append (hblock _ _) (hblock _ _)))))
  · exact Writes.forUp (fun i ↦ hblock _ _) _ _
  · exact Writes.forUp (fun g ↦ Writes.append (hblock _ _)
      (Writes.forUp (fun i ↦ hblock _ _) _ _)) _ _
  · exact Writes.forUp (fun g ↦ Writes.append (hblock _ _) (hblock _ _)) _ _

/-- A run of `ext4_mkfs` that succeeds passed its checks. -/
theorem checks_of_ext4Mkfs {now bs total : ℕ} {d d' : BlockDevice}
    (h : ext4Mkfs now bs total d = (some (), d')) :
    ∃ log, ext4BlockSizeToLog bs = some log ∧ blocksPerGroup bs total ≠ 0 ∧
      u32 (gdBlocks bs total * bs) ≤ 65536 := by
  unfold ext4Mkfs at h
  rcases hlog : ext4BlockSizeToLog bs with _ | log
  · simp [hlog] at h
  rw [hlog, ofOption_some, pure_bind', guard_bind_eq_some_iff] at h
  obtain ⟨hbpg, hrun⟩ := h
  obtain ⟨_, _, -, hrun⟩ := bind_eq_some_iff.1 hrun
  obtain ⟨_, _, -, hrun⟩ := bind_eq_some_iff.1 hrun
  exact ⟨log, rfl, hbpg, (guard_bind_eq_some_iff.1 hrun).1⟩

/-- After its checks `ext4_mkfs` does the writes of the list. -/
theorem ext4Mkfs_eq (now : ℕ) {bs total log n : ℕ} {d : BlockDevice} (h : d.Usable bs n)
    (hlog : ext4BlockSizeToLog bs = some log) (hbpg : blocksPerGroup bs total ≠ 0)
    (htable : u32 (gdBlocks bs total * bs) ≤ 65536) (hsb : sbBlocknr bs < n) :
    ∃ x : StateErr BlockDevice Unit, ext4Mkfs now bs total d = x d ∧
      Writes bs n x (writes bs total now (writtenSuper bs total log now d)) := by
  refine ⟨_, ?_, writes_mkfs n⟩
  rw [ext4Mkfs, hlog, ofOption_some, pure_bind', guard_true hbpg, pure_bind',
    bind_of_eq_some (h.read hsb)]
  simp only [guard_true htable, pure_bind']
  rfl

theorem sbBlocknr_mem_writes (bs total now : ℕ) (sb : Buf) :
    (sbBlocknr bs, sb) ∈ writes bs total now sb := by
  simp [writes]

/-- `ext4_mkfs` does its writes when they are inside the device. -/
theorem ext4Mkfs_of_writes_lt {now total bs log n : ℕ} {d : BlockDevice} (h : d.Usable bs n)
    (hlog : ext4BlockSizeToLog bs = some log) (hbpg : blocksPerGroup bs total ≠ 0)
    (htable : u32 (gdBlocks bs total * bs) ≤ 65536)
    (hin : ∀ w ∈ writes bs total now (writtenSuper bs total log now d), w.1 < n) :
    ext4Mkfs now bs total d =
      (some (), putAll bs (writes bs total now (writtenSuper bs total log now d)) d) := by
  obtain ⟨x, hx, hw⟩ := ext4Mkfs_eq now h hlog hbpg htable
    (hin _ (sbBlocknr_mem_writes bs total now _))
  rw [hx, hw.run h hin]

/-- `ext4_mkfs` succeeds only if its writes are inside the device. -/
theorem writes_lt_of_ext4Mkfs {now bs total log n : ℕ} {d d' : BlockDevice} (h : d.Whole bs n)
    (hlog : ext4BlockSizeToLog bs = some log) (hrun : ext4Mkfs now bs total d = (some (), d')) :
    ∀ w ∈ writes bs total now (writtenSuper bs total log now d), w.1 < n := by
  obtain ⟨_, -, hbpg, htable⟩ := checks_of_ext4Mkfs hrun
  have hsb : sbBlocknr bs < n := by
    rw [ext4Mkfs, hlog, ofOption_some, pure_bind', guard_true hbpg, pure_bind'] at hrun
    obtain ⟨_, _, hread, -⟩ := bind_eq_some_iff.1 hrun
    exact h.lt_of_read hread
  obtain ⟨x, hx, hw⟩ := ext4Mkfs_eq now h.toUsable hlog hbpg htable hsb
  exact hw.inside h (hx.symm.trans hrun)

/-! ### The layout on the device -/

namespace Mkfs

variable {bs total : ℕ}

/-- The writes of a layout that fits are inside the volume. -/
theorem Fits.writes_lt (hfit : Fits bs total) (hg : 0 < groupsCount bs total)
    (hit : 0 < inodeTableBlocks bs total) {now : ℕ} {sb : Buf} {w : ℕ × Buf}
    (hw : w ∈ writes bs total now sb) : w.1 < total := by
  obtain ⟨r, hr, rfl⟩ := exists_role_of_mem_writes bs total hg hit hw
  obtain ⟨hlt, hpos, hoff⟩ := hfit.pos_eq hg hr
  have := (hfit.metadata_le hlt).2
  rw [hpos]
  omega

/-- The count of groups wraps to none. -/
theorem groupsCount_eq_zero (htotal : total < 2 ^ 32)
    (hwrap : ¬ total + blocksPerGroup bs total - 1 < 2 ^ 32) : groupsCount bs total = 0 :=
  Nat.eq_zero_of_not_pos fun hg ↦ hwrap (no_wrap_of_groupsCount_pos htotal hg)

/-- With no groups the superblock is written, and then block 0 twice. -/
theorem writes_of_no_groups (hbs : 1024 ≤ bs) (hG : groupsCount bs total = 0) {now : ℕ} {sb : Buf} :
    writes bs total now sb = [(sbBlocknr bs, sb), (0, rootInode bs total now), (0, rootDir bs)] := by
  have hgd : gdBlocks bs total = 0 := by
    rw [gdBlocks, hG, Nat.zero_mul, u32_of_lt (show 0 < 2 ^ 32 by norm_num), Nat.zero_add]
    exact Nat.div_eq_of_lt (lt_of_le_of_lt (Nat.mod_le _ _) (by omega))
  simp [writes, hG, hgd, group0InodeTable, rootDirBlock]

/-- The root directory's block is empty from its 44th byte on. -/
theorem rootDir_apply {i : ℕ} (hi : 44 ≤ i) : rootDir bs i = 0 := by
  unfold rootDir
  simp only [Buf.setField]
  repeat rw [Buf.putLe_of_le (le_trans (by decide) hi)]
  rfl

/-- A block of metadata holds its role's content, if `ext4_mkfs` writes it. -/
theorem Spaced.block_written (h : Spaced bs total) (hg : 0 < groupsCount bs total)
    (hit : 0 < inodeTableBlocks bs total) {now : ℕ} {sb : Buf} {d : BlockDevice} {r : Role}
    (hr : r.Valid bs total)
    (hmem : (r.pos bs total, content bs total now sb r) ∈ writes bs total now sb) :
    (putAll bs (writes bs total now sb) d).block bs (r.pos bs total) =
      Buf.clip bs (content bs total now sb r) := by
  refine block_putAll_of_mem hmem fun x hx hpos ↦ ?_
  obtain ⟨r', hr', rfl⟩ := exists_role_of_mem_writes bs total hg hit hx
  obtain rfl : r' = r := h.pos_injective hg hr' hr hpos
  rfl

theorem Fits.groupBlocks_le (hfit : Fits bs total) {g : ℕ} (h : g < groupsCount bs total) :
    groupBlocks bs total g ≤ bs * 8 ∧
      g * blocksPerGroup bs total + groupBlocks bs total g ≤ total := by
  have hle := (blocksPerGroup_le bs total).2
  have hlt := mul_lt_of_lt_groupsCount hfit.2.1 h
  rw [groupBlocks_eq hfit.2.1 h]
  omega

/-- The bits of a group's block bitmap. -/
theorem bit_blockBitmap {g i : ℕ} (hi : i < bs * 8) :
    (Buf.clip bs (blockBitmap bs total g)).bit i =
      decide (i < usedBlocks bs total g ∨ groupBlocks bs total g ≤ i) := by
  rw [Buf.bit_clip _ (by omega), blockBitmap, Buf.bit_setBits, Buf.bit_setBits]
  have hzero : Buf.zero.bit i = false := by simp [Buf.bit]
  rw [hzero, Bool.eq_iff_iff]
  simp only [Bool.false_or, Bool.or_eq_true, decide_eq_true_eq]
  omega

theorem Fits.bit_blockBitmap (hfit : Fits bs total) {g i : ℕ} (h : g < groupsCount bs total)
    (hi : i < bs * 8) :
    (Buf.clip bs (blockBitmap bs total g)).bit i =
      decide (i < metadataBlocks bs total g ∨ groupBlocks bs total g ≤ i) := by
  have hused : usedBlocks bs total g = metadataBlocks bs total g :=
    if_neg (Nat.not_lt.2 (hfit.2.2 g h))
  rw [Mkfs.bit_blockBitmap hi, hused]

theorem bit_inodeBitmap {g i : ℕ} (hi : i < bs * 8) :
    (Buf.clip bs (inodeBitmap bs total g)).bit i =
      decide (g = 0 ∧ i < reservedInodesG0 bs total ∨ inodesPerGroup bs total ≤ i) := by
  rw [Buf.bit_clip _ (by omega), inodeBitmap, Buf.bit_setBits, Buf.bit_setBits]
  have hzero : Buf.zero.bit i = false := by simp [Buf.bit]
  rw [hzero, Bool.eq_iff_iff]
  simp only [Bool.false_or, Bool.or_eq_true, decide_eq_true_eq]
  split <;> omega

/-- A layout that fits is found on the device. -/
theorem Fits.nonOverlapping (hfit : Fits bs total) (hg : 0 < groupsCount bs total)
    (hit : 0 < inodeTableBlocks bs total) (now : ℕ) (sb : Buf) (d : BlockDevice) :
    NonOverlapping bs total (putAll bs (writes bs total now sb) d) := by
  have hbb : ∀ g < groupsCount bs total,
      (putAll bs (writes bs total now sb) d).block bs (blockBitmapAbs bs total g) =
        Buf.clip bs (blockBitmap bs total g) := fun g h ↦
    hfit.spaced.block_written hg hit (r := .blockBitmap g) h (mem_writes_blockBitmap bs total h)
  have hib : ∀ g < groupsCount bs total,
      (putAll bs (writes bs total now sb) d).block bs (inodeBitmapAbs bs total g) =
        Buf.clip bs (inodeBitmap bs total g) := fun g h ↦
    hfit.spaced.block_written hg hit (r := .inodeBitmap g) h (mem_writes_inodeBitmap bs total h)
  refine ⟨?disjoint, ?inside, ?marked, ?free, ?padding, ?inodes⟩
  case disjoint =>
    exact fun r r' hr hr' hne hpos ↦ hne (hfit.pos_injective hg hr hr' hpos)
  case inside =>
    intro r hr
    obtain ⟨hlt, hpos, hoff⟩ := hfit.pos_eq hg hr
    have hroom := hfit.2.2 _ hlt
    have hend := (hfit.groupBlocks_le hlt).2
    rw [hpos, hfit.groupStart hlt]
    omega
  case marked =>
    intro r hr
    obtain ⟨hlt, hpos, hoff⟩ := hfit.pos_eq hg hr
    have hroom := hfit.2.2 _ hlt
    have hend := (hfit.groupBlocks_le hlt).1
    rw [hbb _ hlt, hpos, hfit.groupStart hlt, Nat.add_sub_cancel_left,
      hfit.bit_blockBitmap hlt (by omega)]
    exact decide_eq_true (.inl hoff)
  case free =>
    intro g h i hi hnone
    have hend := (hfit.groupBlocks_le h).1
    rw [hbb g h, hfit.bit_blockBitmap h (by omega)]
    refine decide_eq_false fun hor ↦ ?_
    obtain ⟨r, hr, rfl, hoff⟩ := exists_role_of_lt_metadataBlocks h
      (hor.resolve_right (by omega))
    have hpos := (hfit.pos_eq hg hr).2.1
    exact hnone r hr rfl (by rw [hpos, hoff, hfit.groupStart h])
  case padding =>
    intro g h i hle hi
    rw [hbb g h, hfit.bit_blockBitmap h hi]
    exact decide_eq_true (.inr hle)
  case inodes =>
    intro g h i hi
    rw [hib g h, bit_inodeBitmap hi]

/-- A layout that does not overlap fits: the last block of metadata of a group is inside it. -/
theorem NonOverlapping.fits (hbs : 1024 ≤ bs) (hbs' : bs ≤ 65536) (htotal : total < 2 ^ 32)
    {d : BlockDevice} (h : NonOverlapping bs total d) : Fits bs total := by
  have hg : 0 < groupsCount bs total := (h.inside .rootDir trivial).1
  have hwrap := no_wrap_of_groupsCount_pos htotal hg
  have hgd : gdBlocks bs total < 2 ^ 22 := gdBlocks_lt hbs
  have hit : inodeTableBlocks bs total < 2 ^ 22 := inodeTableBlocks_lt hbs
  have hgdpos := gdBlocks_pos hbs hbs' htotal hg
  have hsmall := mul_lt_of_lt_groupsCount hwrap hg
  have hitpos : 0 < inodeTableBlocks bs total := by
    refine inodeTableBlocks_pos hbs hbs' (Nat.pos_of_ne_zero fun h0 ↦ ?_)
    simp [groupsCount, h0] at hg
  refine ⟨fun h1024 ↦ ?_, hwrap, fun g hlt ↦ ?_⟩
  · -- the last descriptor block of 1024 bytes is the block bitmap
    subst h1024
    refine h.disjoint (.groupDesc 0 (gdBlocks 1024 total - 1)) (.blockBitmap 0)
      ⟨hg, by omega⟩ hg (by simp) ?_
    have hb : blockBitmapAbs 1024 total 0 = 1 + gdBlocks 1024 total := by
      rw [blockBitmapAbs, groupStart_eq hwrap hg, Nat.zero_mul, Nat.zero_add, u32_of_lt (by omega)]
    simp only [Role.pos, if_true, gdBlock, hb]
    omega
  · -- nothing wraps, since each block lies behind the start of its group
    have hb : blockBitmapAbs bs total g = groupStart bs total g + 1 + gdBlocks bs total :=
      u32_of_le (a := groupStart bs total g) (h.inside (.blockBitmap g) hlt).2.1 (by omega)
    have hi : inodeBitmapAbs bs total g = blockBitmapAbs bs total g + 1 :=
      u32_of_le (a := groupStart bs total g) (h.inside (.inodeBitmap g) hlt).2.1 (by omega)
    have ht : inodeTableAbs bs total g = inodeBitmapAbs bs total g + 1 := by
      obtain ⟨-, hle, -⟩ := h.inside (.inodeTable g 0) ⟨hlt, hitpos⟩
      refine u32_of_le (a := groupStart bs total g) ?_ (by omega)
      rw [← inodeTableAbs]
      by_cases hz : g = 0
      · subst hz
        simpa [Role.pos, Role.group, group0InodeTable, hg.ne'] using hle
      · simpa [Role.pos, Role.group, hz] using hle
    unfold metadataBlocks
    by_cases hz : g = 0
    · subst hz
      obtain ⟨-, hle, hin, -⟩ := h.inside .rootDir trivial
      simp only [Role.pos, Role.group, rootDirBlock, if_neg hg.ne'] at hle hin
      rw [u32_of_le hle (by omega)] at hin
      rw [if_pos rfl]
      omega
    · obtain ⟨-, -, hin, -⟩ :=
        h.inside (.inodeTable g (inodeTableBlocks bs total - 1)) ⟨hlt, by omega⟩
      simp only [Role.pos, Role.group, if_neg hz] at hin
      rw [if_neg hz]
      omega

/-- **`ext4_mkfs` lays the volume out without overlaps exactly when the layout fits.** -/
theorem nonOverlapping_iff_fits {now bs total : ℕ} {d d' : BlockDevice} (hd : d.Holds bs total)
    (htotal : total < 2 ^ 32) (hrun : ext4Mkfs now bs total d = (some (), d')) :
    NonOverlapping bs total d' ↔ Fits bs total := by
  obtain ⟨log, hlog, hbpg, htable⟩ := checks_of_ext4Mkfs hrun
  have hmkfs := ext4Mkfs_of_writes_lt hd.toUsable hlog hbpg htable
    (writes_lt_of_ext4Mkfs hd.whole hlog hrun)
  obtain rfl : d' = _ := congrArg Prod.snd (hrun.symm.trans hmkfs)
  obtain ⟨hbs, hbs', -⟩ := pow_of_blockSizeToLog hlog
  refine ⟨fun h ↦ h.fits hbs hbs' htotal, fun hfit ↦ ?_⟩
  have hpos := Nat.pos_of_ne_zero hbpg
  have hg : 0 < groupsCount bs total := by
    have hle := (blocksPerGroup_le bs total).1
    rw [groupsCount, u32_of_lt hfit.2.1]
    exact Nat.div_pos (by omega) hpos
  exact hfit.nonOverlapping hg (inodeTableBlocks_pos hbs hbs' hpos) now _ d

theorem writes_lt_of_positions {l : List (ℕ × Buf)} {ps : List ℕ} {n : ℕ}
    (h : l.map Prod.fst = ps) (hps : ∀ b ∈ ps, b < n) : ∀ w ∈ l, w.1 < n :=
  fun w hw ↦ hps w.1 (h ▸ List.mem_map_of_mem hw)

/-- A volume of one full group of 4096-byte blocks. -/
theorem nonOverlapping_iff_fits_4096 :
    ∃ d', ext4Mkfs 0 4096 32768 (BlockDevice.blank 512 262144) = (some (), d') ∧
      (NonOverlapping 4096 32768 d' ↔ Fits 4096 32768) := by
  have hd := BlockDevice.holds_blank 512 8 32768 (by norm_num) (by norm_num)
  have hrun := @ext4Mkfs_of_writes_lt 0 32768 _ 2 _ _ hd.toUsable
    (by decide) (by decide) (by decide) fun w hw ↦ ?_
  · exact ⟨_, hrun, nonOverlapping_iff_fits hd (by norm_num) hrun⟩
  · have hpos : ∀ sb, (writes 4096 32768 0 sb).map Prod.fst = [0, 1, 2, 3, 4, 2052] := fun _ ↦ rfl
    exact writes_lt_of_positions (hpos _) (by decide) w hw

/-- With 1024-byte blocks the descriptor table and the block bitmap of group 0 are both put in
block 2. -/
theorem overlapping_1024 :
    ∃ d', ext4Mkfs 0 1024 8192 (BlockDevice.blank 512 16384) = (some (), d') ∧
      ¬ NonOverlapping 1024 8192 d' := by
  have hd := BlockDevice.holds_blank 512 2 8192 (by norm_num) (by norm_num)
  have hrun := @ext4Mkfs_of_writes_lt 0 8192 _ 0 _ _ hd.toUsable
    (by decide) (by decide) (by decide) fun w hw ↦ ?_
  · refine ⟨_, hrun, fun h ↦ ?_⟩
    exact h.disjoint (.groupDesc 0 0) (.blockBitmap 0) ⟨by decide, by decide⟩
      (show 0 < groupsCount 1024 8192 by decide) (by decide) (by decide)
  · have hpos : ∀ sb, (writes 1024 8192 0 sb).map Prod.fst = [1, 2, 2, 3, 4, 2052] := fun _ ↦ rfl
    exact writes_lt_of_positions (hpos _) (by decide) w hw

end Mkfs

end MiniExt4
