import MiniExt4.Block.Blkdev

/-!
# Block I/O (`fs/ext4/io.c`)

Filesystem blocks over the sectors of the device. `BlockDevice.block` is what a block holds and
`BlockDevice.putBlock` the device after the block was stored; on a device that is `Usable` the two
functions of the source are these, and everything above this module is proved from that.

Three strengths of device are told apart. On one that is `Usable` every call inside it succeeds. On one that
is `Sectored` calls may fail, but what a call that succeeded has done is known. On one that is `Atomic` a
block is one call of the driver, so that a write that failed has stored nothing. The modules about volumes
use the first, those about faults the third.
-/

namespace MiniExt4

/-- `ext4_sectors_per_block` -/
def ext4SectorsPerBlock (bs : ℕ) (d : BlockDevice) : ℕ :=
  let spp := bs / d.bdSectorSize
  if spp ≠ 0 then spp else 1

/-- `ext4_read_block(blocknr, buf)`, with the destination it leaves. -/
def ext4ReadBlockInto (bs blocknr : ℕ) (buf : Buf) (d : BlockDevice) : (Bool × Buf) × BlockDevice :=
  let sectorsPerBlock := ext4SectorsPerBlock bs d
  blkdevReadSectors (blocknr * sectorsPerBlock) sectorsPerBlock buf d

/-- `ext4_read_block` into a fresh buffer that is given up when the read fails. -/
def ext4ReadBlock (bs blocknr : ℕ) : StateErr BlockDevice Buf := fun d ↦
  match ext4ReadBlockInto bs blocknr Buf.zero d with
  | ((true, buf), d') => (some buf, d')
  | ((false, _), d') => (none, d')

/-- `ext4_read_blocks(blocknr, blocks, buf)` -/
def ext4ReadBlocks (bs blocknr blocks : ℕ) : StateErr BlockDevice Buf := fun d ↦
  let sectorsPerBlock := ext4SectorsPerBlock bs d
  let totalSectors := blocks * sectorsPerBlock % 2 ^ 32
  if blocks = 0 then (none, d)
  else
    match blkdevReadSectors (blocknr * sectorsPerBlock) totalSectors Buf.zero d with
    | ((true, buf), d') => (some buf, d')
    | ((false, _), d') => (none, d')

/-- `ext4_write_block(blocknr, buf)` -/
def ext4WriteBlock (bs blocknr : ℕ) (buf : Buf) : StateErr BlockDevice Unit := fun d ↦
  let sectorsPerBlock := ext4SectorsPerBlock bs d
  match blkdevWriteSectors (blocknr * sectorsPerBlock) sectorsPerBlock buf d with
  | (true, d') => (some (), d')
  | (false, d') => (none, d')

/-- `ext4_write_blocks(blocknr, blocks, buf)` -/
def ext4WriteBlocks (bs blocknr blocks : ℕ) (buf : Buf) : StateErr BlockDevice Unit := fun d ↦
  let sectorsPerBlock := ext4SectorsPerBlock bs d
  let totalSectors := blocks * sectorsPerBlock % 2 ^ 32
  if blocks = 0 then (none, d)
  else
    match blkdevWriteSectors (blocknr * sectorsPerBlock) totalSectors buf d with
    | (true, d') => (some (), d')
    | (false, d') => (none, d')

namespace BlockDevice

/-- The contents of block `b`. -/
def block (d : BlockDevice) (bs b : ℕ) : Buf := Buf.clip bs fun i ↦ d.media (b * bs + i)

/-- The device after block `b` was stored. -/
def putBlock (d : BlockDevice) (bs b : ℕ) (buf : Buf) : BlockDevice := d.store (b * bs) buf 0 bs

/-- The device works and holds `n` blocks of `bs` bytes. -/
structure Usable (d : BlockDevice) (bs n : ℕ) : Prop where
  quiet : d.faults = []
  sectorSize_pos : 0 < d.bdSectorSize
  sectorSize_dvd : d.bdSectorSize ∣ bs
  blockSize_pos : 0 < bs
  room : n * (bs / d.bdSectorSize) ≤ d.bdNrSectors

variable {d : BlockDevice} {bs n : ℕ}

/-! ### The view of the blocks -/

/-- The block that was written. -/
theorem block_putBlock_self (d : BlockDevice) (bs b : ℕ) (buf : Buf) :
    (d.putBlock bs b buf).block bs b = Buf.clip bs buf := by
  funext i
  by_cases h : i < bs
  · simp only [block, Buf.clip_of_lt _ h, putBlock, store]
    rw [Buf.blit_in (by omega) (by omega)]
    congr 1
    omega
  · rw [block, Buf.clip_of_le _ (by omega), Buf.clip_of_le _ (by omega)]

/-- Storing one block leaves every other block alone. -/
theorem block_putBlock_of_ne (d : BlockDevice) (bs : ℕ) {b b' : ℕ} (buf : Buf) (h : b' ≠ b) :
    (d.putBlock bs b buf).block bs b' = d.block bs b' := by
  funext i
  by_cases hi : i < bs
  · simp only [block, Buf.clip_of_lt _ hi, putBlock, store]
    refine Buf.blit_out ?_
    rcases Nat.lt_or_gt_of_ne h with hlt | hgt
    · left
      calc b' * bs + i < b' * bs + bs := by omega
        _ = (b' + 1) * bs := by ring
        _ ≤ b * bs := Nat.mul_le_mul_right bs hlt
    · right
      calc b * bs + bs = (b + 1) * bs := by ring
        _ ≤ b' * bs := Nat.mul_le_mul_right bs hgt
        _ ≤ b' * bs + i := by omega
  · rw [block, block, Buf.clip_of_le _ (by omega), Buf.clip_of_le _ (by omega)]

/-- A block has nothing behind its end. -/
@[simp] theorem clip_block (d : BlockDevice) (bs b : ℕ) :
    Buf.clip bs (d.block bs b) = d.block bs b := Buf.clip_clip _ _

/-- A device that works goes on working after a write. -/
theorem Usable.putBlock (h : d.Usable bs n) (b : ℕ) (buf : Buf) :
    (d.putBlock bs b buf).Usable bs n :=
  ⟨h.quiet, h.sectorSize_pos, h.sectorSize_dvd, h.blockSize_pos, h.room⟩

/-! ### Reads and writes on a usable device -/

/-- A block has a sector. -/
theorem Usable.sectorsPerBlock_pos (h : d.Usable bs n) : 0 < bs / d.bdSectorSize :=
  Nat.div_pos (Nat.le_of_dvd h.blockSize_pos h.sectorSize_dvd) h.sectorSize_pos

/-- The code counts the sectors of a block right. -/
theorem Usable.ext4SectorsPerBlock_eq (h : d.Usable bs n) :
    ext4SectorsPerBlock bs d = bs / d.bdSectorSize := by
  have := h.sectorsPerBlock_pos
  simp only [ext4SectorsPerBlock]
  rw [if_pos (by omega)]

/-- Whole blocks are whole runs of sectors. -/
theorem Usable.sectors_mul (h : d.Usable bs n) (b : ℕ) :
    b * (bs / d.bdSectorSize) * d.bdSectorSize = b * bs := by
  rw [Nat.mul_assoc, Nat.div_mul_cancel h.sectorSize_dvd]

/-- The sectors of the blocks are on the device. -/
theorem Usable.sectors_le (h : d.Usable bs n) {b k : ℕ} (hb : b + k ≤ n) :
    b * (bs / d.bdSectorSize) + k * (bs / d.bdSectorSize) ≤ d.bdNrSectors := by
  rw [← Nat.add_mul]
  exact (Nat.mul_le_mul_right _ hb).trans h.room

/-- Copying from the media is copying from the block. -/
theorem blit_media_eq_blit_block (d : BlockDevice) (bs b : ℕ) (buf : Buf) :
    buf.blit 0 d.media (b * bs) bs = buf.blit 0 (d.block bs b) 0 bs := by
  funext i
  by_cases hi : i < bs
  · rw [Buf.blit_in (by omega) (by omega), Buf.blit_in (by omega) (by omega)]
    simp [block, hi]
  · rw [Buf.blit_out (by omega), Buf.blit_out (by omega)]

/-- A read copies the block to the buffer. -/
theorem Usable.readInto (h : d.Usable bs n) {b : ℕ} (hb : b < n) (buf : Buf) :
    ext4ReadBlockInto bs b buf d = ((true, buf.blit 0 (d.block bs b) 0 bs), d) := by
  have hin := h.sectors_le (b := b) (k := 1) (by omega)
  rw [Nat.one_mul] at hin
  simp only [ext4ReadBlockInto, h.ext4SectorsPerBlock_eq]
  rw [blkdevReadSectors_quiet h.quiet h.sectorsPerBlock_pos hin, h.sectors_mul,
    Nat.div_mul_cancel h.sectorSize_dvd, blit_media_eq_blit_block]

/-- A block copied to an empty buffer. -/
theorem blit_zero_block (d : BlockDevice) (bs b : ℕ) :
    Buf.zero.blit 0 (d.block bs b) 0 bs = d.block bs b := by
  funext i
  by_cases hi : i < bs
  · rw [Buf.blit_in (by omega) (by omega)]
    simp
  · rw [Buf.blit_out (by omega), block, Buf.clip_of_le _ (by omega), Buf.zero_apply]

/-- A read of a device that works. -/
theorem Usable.read (h : d.Usable bs n) {b : ℕ} (hb : b < n) :
    ext4ReadBlock bs b d = (some (d.block bs b), d) := by
  rw [ext4ReadBlock, h.readInto hb, blit_zero_block]

/-- A write to a device that works. -/
theorem Usable.write (h : d.Usable bs n) {b : ℕ} (hb : b < n) (buf : Buf) :
    ext4WriteBlock bs b buf d = (some (), d.putBlock bs b buf) := by
  have hin := h.sectors_le (b := b) (k := 1) (by omega)
  rw [Nat.one_mul] at hin
  simp only [ext4WriteBlock, h.ext4SectorsPerBlock_eq]
  rw [blkdevWriteSectors_quiet h.quiet h.sectorsPerBlock_pos hin, h.sectors_mul,
    Nat.div_mul_cancel h.sectorSize_dvd]
  rfl

/-! ### A device of exactly `n` blocks -/

/-- The device works and holds exactly `n` blocks of `bs` bytes. -/
structure Holds (d : BlockDevice) (bs n : ℕ) : Prop extends d.Usable bs n where
  exact : d.bdNrSectors = n * (bs / d.bdSectorSize)

/-- A blank device of `n` blocks of `k` sectors. -/
theorem holds_blank (sectorSize k n : ℕ) (hs : 0 < sectorSize) (hk : 0 < k) :
    (blank sectorSize (n * k)).Holds (sectorSize * k) n :=
  ⟨⟨rfl, hs, Nat.dvd_mul_right _ _, Nat.mul_pos hs hk, by simp [blank, hs]⟩, by simp [blank, hs]⟩

/-- The device works and holds `n` blocks, and no room for another. -/
structure Whole (d : BlockDevice) (bs n : ℕ) : Prop extends d.Usable bs n where
  last : d.bdNrSectors < (n + 1) * (bs / d.bdSectorSize)

/-- A device that holds its blocks holds whole ones. -/
theorem Holds.whole (h : d.Holds bs n) : d.Whole bs n := by
  have hpos := h.sectorsPerBlock_pos
  refine ⟨h.toUsable, ?_⟩
  rw [h.exact, Nat.add_mul, Nat.one_mul]
  omega

/-- Every device that works holds some number of whole blocks. -/
theorem Usable.whole (h : d.Usable bs n) : d.Whole bs (d.bdNrSectors / (bs / d.bdSectorSize)) :=
  ⟨⟨h.quiet, h.sectorSize_pos, h.sectorSize_dvd, h.blockSize_pos, Nat.div_mul_le_self _ _⟩,
    Nat.lt_mul_of_div_lt (Nat.lt_succ_self _) h.sectorsPerBlock_pos⟩

/-- A write leaves the size of the device. -/
theorem Whole.putBlock (h : d.Whole bs n) (b : ℕ) (buf : Buf) : (d.putBlock bs b buf).Whole bs n :=
  ⟨h.toUsable.putBlock b buf, h.last⟩

/-- A block whose sectors are on the device is one of its blocks. -/
theorem Whole.lt_of_le (h : d.Whole bs n) {b : ℕ}
    (hin : b * (bs / d.bdSectorSize) + bs / d.bdSectorSize ≤ d.bdNrSectors) : b < n := by
  have hlt : (b + 1) * (bs / d.bdSectorSize) < (n + 1) * (bs / d.bdSectorSize) := by
    rw [Nat.add_mul b, Nat.one_mul]
    exact hin.trans_lt h.last
  have := Nat.lt_of_mul_lt_mul_right hlt
  omega

/-- A read past the end of the device reports an error. -/
theorem Whole.lt_of_read (h : d.Whole bs n) {b : ℕ} {buf : Buf} {d' : BlockDevice}
    (hrun : ext4ReadBlock bs b d = (some buf, d')) : b < n := by
  have hpos := h.sectorsPerBlock_pos
  simp only [ext4ReadBlock, ext4ReadBlockInto, h.ext4SectorsPerBlock_eq, blkdevReadSectors,
    if_neg hpos.ne'] at hrun
  rcases hloop : blkdevReadLoop (bs / d.bdSectorSize) (b * (bs / d.bdSectorSize))
    (bs / d.bdSectorSize) 0 Buf.zero d with ⟨⟨_ | _, buf₁⟩, d₁⟩
  · simp [hloop] at hrun
  · exact h.lt_of_le (le_of_blkdevReadLoop _ _ _ _ _ d hpos le_rfl hloop)

/-- A write past the end of the device reports an error. -/
theorem Whole.lt_of_write (h : d.Whole bs n) {b : ℕ} {buf : Buf} {d' : BlockDevice}
    (hrun : ext4WriteBlock bs b buf d = (some (), d')) : b < n := by
  have hpos := h.sectorsPerBlock_pos
  simp only [ext4WriteBlock, h.ext4SectorsPerBlock_eq, blkdevWriteSectors,
    if_neg hpos.ne'] at hrun
  rcases hloop : blkdevWriteLoop (bs / d.bdSectorSize) (b * (bs / d.bdSectorSize))
    (bs / d.bdSectorSize) 0 buf d with ⟨_ | _, d₁⟩
  · simp [hloop] at hrun
  · exact h.lt_of_le ((blkdevWriteLoop_of_true _ _ _ _ _ d le_rfl hloop).1 hpos)

/-! ### Reads of a device that does not fail -/

/-- The block is on the device. -/
def HasBlock (d : BlockDevice) (bs b : ℕ) : Prop := (b + 1) * ext4SectorsPerBlock bs d ≤ d.bdNrSectors

instance (d : BlockDevice) (bs b : ℕ) : Decidable (d.HasBlock bs b) :=
  inferInstanceAs (Decidable (_ ≤ _))

/-- A read succeeds exactly on a block of the device, and leaves it. -/
theorem read_quiet_cases (h : d.faults = []) (bs b : ℕ) :
    (∃ buf, ext4ReadBlock bs b d = (some buf, d) ∧ d.HasBlock bs b) ∨
      ext4ReadBlock bs b d = (none, d) ∧ ¬ d.HasBlock bs b := by
  have hpos : 0 < ext4SectorsPerBlock bs d := by
    unfold ext4SectorsPerBlock
    dsimp only
    split
    · rename_i hne
      exact Nat.pos_of_ne_zero hne
    · exact Nat.one_pos
  unfold HasBlock
  rw [Nat.succ_mul]
  rcases hread : blkdevReadSectors (b * ext4SectorsPerBlock bs d) (ext4SectorsPerBlock bs d) Buf.zero
    d with ⟨⟨r, buf⟩, d'⟩
  have hloop := hread
  rw [blkdevReadSectors, if_neg hpos.ne'] at hloop
  obtain rfl : d' = d := by
    have hsnd := blkdevReadLoop_snd h (ext4SectorsPerBlock bs d) (b * ext4SectorsPerBlock bs d)
      (ext4SectorsPerBlock bs d) 0 Buf.zero
    rw [hloop] at hsnd
    exact hsnd
  cases r with
  | true =>
    exact .inl ⟨buf, by simp only [ext4ReadBlock, ext4ReadBlockInto, hread],
      le_of_blkdevReadLoop _ _ _ _ _ _ hpos le_rfl hloop⟩
  | false =>
    refine .inr ⟨by simp only [ext4ReadBlock, ext4ReadBlockInto, hread], fun hin ↦ ?_⟩
    rw [blkdevReadSectors_quiet h hpos hin] at hread
    simp at hread

/-! ### What succeeded

Whatever failures are ahead, a read that succeeded has read the block, and a write that succeeded has
stored it. -/

/-- The blocks of a device are whole sectors. -/
structure Sectored (d : BlockDevice) (bs : ℕ) : Prop where
  sectorSize_pos : 0 < d.bdSectorSize
  sectorSize_dvd : d.bdSectorSize ∣ bs
  blockSize_pos : 0 < bs

/-- A device that works has its blocks in whole sectors. -/
theorem Usable.sectored (h : d.Usable bs n) : d.Sectored bs :=
  ⟨h.sectorSize_pos, h.sectorSize_dvd, h.blockSize_pos⟩

/-- A device without faults to come works. -/
theorem Sectored.usable (h : d.Sectored bs) (hquiet : d.faults = []) : d.Usable bs 0 :=
  ⟨hquiet, h.sectorSize_pos, h.sectorSize_dvd, h.blockSize_pos, by simp⟩

/-- The faults to come do not change the sectors. -/
theorem Sectored.withFaults (h : d.Sectored bs) (l : List Fault) : (d.withFaults l).Sectored bs :=
  ⟨h.sectorSize_pos, h.sectorSize_dvd, h.blockSize_pos⟩

/-- Nor does a write. -/
theorem Sectored.putBlock (h : d.Sectored bs) (b : ℕ) (buf : Buf) : (d.putBlock bs b buf).Sectored bs :=
  ⟨h.sectorSize_pos, h.sectorSize_dvd, h.blockSize_pos⟩

theorem Sectored.sectorsPerBlock_pos (h : d.Sectored bs) : 0 < bs / d.bdSectorSize :=
  (h.withFaults []).usable rfl |>.sectorsPerBlock_pos

theorem Sectored.ext4SectorsPerBlock_eq (h : d.Sectored bs) :
    ext4SectorsPerBlock bs d = bs / d.bdSectorSize :=
  ((h.withFaults []).usable rfl).ext4SectorsPerBlock_eq

/-- The first sector of a block, in bytes. -/
theorem Sectored.sectors_mul (h : d.Sectored bs) (b : ℕ) :
    b * (bs / d.bdSectorSize) * d.bdSectorSize = b * bs := by
  rw [Nat.mul_assoc, Nat.div_mul_cancel h.sectorSize_dvd]

/-- A read that succeeds is of a block of the device. -/
theorem Sectored.of_read_some (h : d.Sectored bs) {b : ℕ} {buf : Buf} {d' : BlockDevice}
    (hrun : ext4ReadBlock bs b d = (some buf, d')) :
    d.HasBlock bs b ∧ buf = d.block bs b ∧ ∃ l, d' = d.withFaults l := by
  have hpos := h.sectorsPerBlock_pos
  simp only [ext4ReadBlock, ext4ReadBlockInto, h.ext4SectorsPerBlock_eq, blkdevReadSectors,
    if_neg hpos.ne'] at hrun
  rcases hloop : blkdevReadLoop (bs / d.bdSectorSize) (b * (bs / d.bdSectorSize))
    (bs / d.bdSectorSize) 0 Buf.zero d with ⟨⟨_ | _, buf₁⟩, d₁⟩
  · simp [hloop] at hrun
  have hin := le_of_blkdevReadLoop _ _ _ _ _ d hpos le_rfl hloop
  obtain ⟨l, hread | ⟨buf', hread⟩⟩ := blkdevReadLoop_cases (bs / d.bdSectorSize)
    (b * (bs / d.bdSectorSize)) (bs / d.bdSectorSize) 0 Buf.zero d le_rfl
  · simp only [hread, h.sectors_mul, Nat.div_mul_cancel h.sectorSize_dvd, blit_media_eq_blit_block,
      blit_zero_block, Prod.mk.injEq, Option.some.injEq] at hrun
    refine ⟨?_, hrun.1.symm, l, hrun.2.symm⟩
    rw [HasBlock, h.ext4SectorsPerBlock_eq, Nat.succ_mul]
    exact hin
  · simp [hread] at hrun

/-- A write that succeeds stores its buffer in a block of the device. -/
theorem Sectored.of_write_some (h : d.Sectored bs) {b : ℕ} {buf : Buf} {d' : BlockDevice}
    (hrun : ext4WriteBlock bs b buf d = (some (), d')) :
    d.HasBlock bs b ∧ ∃ l, d' = (d.putBlock bs b buf).withFaults l := by
  have hpos := h.sectorsPerBlock_pos
  simp only [ext4WriteBlock, h.ext4SectorsPerBlock_eq, blkdevWriteSectors, if_neg hpos.ne'] at hrun
  rcases hloop : blkdevWriteLoop (bs / d.bdSectorSize) (b * (bs / d.bdSectorSize))
    (bs / d.bdSectorSize) 0 buf d with ⟨_ | _, d₁⟩
  · simp [hloop] at hrun
  obtain ⟨hin, l, rfl⟩ := blkdevWriteLoop_of_true _ _ _ _ _ d le_rfl hloop
  simp only [hloop, h.sectors_mul, Nat.div_mul_cancel h.sectorSize_dvd, Prod.mk.injEq, true_and]
    at hrun
  refine ⟨?_, l, hrun.symm⟩
  rw [HasBlock, h.ext4SectorsPerBlock_eq, Nat.succ_mul]
  exact hin hpos

/-- On a device that answers every call a read succeeds on the blocks the device has. -/
theorem Usable.read_eq (h : d.Usable bs n) (b : ℕ) :
    ext4ReadBlock bs b d = (if d.HasBlock bs b then some (d.block bs b) else none, d) := by
  rcases read_quiet_cases h.quiet bs b with ⟨buf, hread, hin⟩ | ⟨hread, hout⟩
  · obtain ⟨-, rfl, -⟩ := h.sectored.of_read_some hread
    rw [hread, if_pos hin]
  · rw [hread, if_neg hout]

/-! ### Reads and writes on a device that may fail -/

/-- A block is a whole number of sectors, few enough for one driver call: a write that fails stores
nothing. -/
structure Atomic (d : BlockDevice) (bs : ℕ) : Prop where
  sectorSize_pos : 0 < d.bdSectorSize
  sectorSize_dvd : d.bdSectorSize ∣ bs
  blockSize_pos : 0 < bs
  one_call : bs / d.bdSectorSize ≤ 255

@[simp] theorem block_withFaults (d : BlockDevice) (l : List Fault) (bs b : ℕ) :
    (d.withFaults l).block bs b = d.block bs b := rfl

/-- The faults to come do not change how a write fails. -/
theorem Atomic.withFaults (h : d.Atomic bs) (l : List Fault) : (d.withFaults l).Atomic bs :=
  ⟨h.sectorSize_pos, h.sectorSize_dvd, h.blockSize_pos, h.one_call⟩

/-- Nor does a write. -/
theorem Atomic.putBlock (h : d.Atomic bs) (b : ℕ) (buf : Buf) : (d.putBlock bs b buf).Atomic bs :=
  ⟨h.sectorSize_pos, h.sectorSize_dvd, h.blockSize_pos, h.one_call⟩

theorem Atomic.sectored (h : d.Atomic bs) : d.Sectored bs :=
  ⟨h.sectorSize_pos, h.sectorSize_dvd, h.blockSize_pos⟩

/-- A read succeeds, or leaves anything in its destination. -/
theorem Atomic.readInto (h : d.Atomic bs) (b : ℕ) (buf : Buf) : ∃ l,
    ext4ReadBlockInto bs b buf d = ((true, buf.blit 0 (d.block bs b) 0 bs), d.withFaults l) ∨
      ∃ buf', ext4ReadBlockInto bs b buf d = ((false, buf'), d.withFaults l) := by
  have hpos := h.sectored.sectorsPerBlock_pos
  obtain ⟨l, hread⟩ := blkdevReadLoop_cases (bs / d.bdSectorSize) (b * (bs / d.bdSectorSize))
    (bs / d.bdSectorSize) 0 buf d le_rfl
  refine ⟨l, ?_⟩
  simp only [ext4ReadBlockInto, h.sectored.ext4SectorsPerBlock_eq, blkdevReadSectors,
    if_neg hpos.ne']
  rw [h.sectored.sectors_mul, Nat.div_mul_cancel h.sectorSize_dvd] at hread
  rwa [blit_media_eq_blit_block] at hread

/-- A read gives the block or fails. -/
theorem Atomic.read (h : d.Atomic bs) (b : ℕ) : ∃ l,
    ext4ReadBlock bs b d = (some (d.block bs b), d.withFaults l) ∨
      ext4ReadBlock bs b d = (none, d.withFaults l) := by
  obtain ⟨l, hread | ⟨buf', hread⟩⟩ := h.readInto b Buf.zero
  · exact ⟨l, .inl (by rw [ext4ReadBlock, hread, blit_zero_block])⟩
  · exact ⟨l, .inr (by rw [ext4ReadBlock, hread])⟩

/-- A write stores the block or nothing. -/
theorem Atomic.write (h : d.Atomic bs) (b : ℕ) (buf : Buf) : ∃ l,
    ext4WriteBlock bs b buf d = (some (), (d.putBlock bs b buf).withFaults l) ∨
      ext4WriteBlock bs b buf d = (none, d.withFaults l) := by
  obtain ⟨l, hwrite⟩ := blkdevWriteSectors_cases d (b * (bs / d.bdSectorSize)) buf
    h.sectored.sectorsPerBlock_pos h.one_call
  refine ⟨l, ?_⟩
  rw [h.sectored.sectors_mul, Nat.div_mul_cancel h.sectorSize_dvd] at hwrite
  simp only [ext4WriteBlock, h.sectored.ext4SectorsPerBlock_eq]
  rcases hwrite with hwrite | hwrite
  · rw [hwrite]
    exact .inl rfl
  · rw [hwrite]
    exact .inr rfl

end BlockDevice

end MiniExt4
