import MiniExt4.Block.Driver
import MiniExt4.Ext4.Io

/-!
# Bulk block I/O over any driver (`fs/ext4/io.c`)

`ext4_read_blocks` and `ext4_write_blocks` hand a run of blocks to the block layer as one request, which
is cut into calls of 255 sectors wherever a block ends. They do what one call for each block does.

The two functions of the block layer are parameters with what the block functions rely on: a call that
succeeds has moved all its sectors, one that fails has stored some from the first on
(`BlockDeviceOps.Stores`). For the equality with the calls one by one it is needed besides that calls inside
the device succeed (`BlockDeviceOps.Works`); a request for no sector at all is never made. The two cuts of a
run, into blocks and into requests of 255 sectors, meet in `Divides.stored_blocks`.
-/

namespace MiniExt4

namespace BlockDeviceOps

variable {σ : Type} (ops : BlockDeviceOps σ) (bs : ℕ)

/-- `ext4_sectors_per_block(bdev)` -/
def ext4SectorsPerBlock : ℕ :=
  let spp := bs / ops.bdSectorSize
  if spp ≠ 0 then spp else 1

/-- `ext4_read_block(blocknr, buf)` -/
def ext4ReadBlock (blocknr : ℕ) (buf : Buf) (s : σ) : (Bool × Buf) × σ :=
  let sectorsPerBlock := ops.ext4SectorsPerBlock bs
  ops.blkdevReadSectors (blocknr * sectorsPerBlock) sectorsPerBlock buf s

/-- `ext4_read_blocks(blocknr, blocks, buf)` -/
def ext4ReadBlocks (blocknr blocks : ℕ) (buf : Buf) (s : σ) : (Bool × Buf) × σ :=
  if blocks = 0 then ((false, buf), s)
  else
    let sectorsPerBlock := ops.ext4SectorsPerBlock bs
    ops.blkdevReadSectors (blocknr * sectorsPerBlock) (blocks * sectorsPerBlock % 2 ^ 32) buf s

/-- `ext4_write_block(blocknr, buf)` -/
def ext4WriteBlock (blocknr : ℕ) (buf : Buf) (s : σ) : Bool × σ :=
  let sectorsPerBlock := ops.ext4SectorsPerBlock bs
  ops.blkdevWriteSectors (blocknr * sectorsPerBlock) sectorsPerBlock buf s

/-- `ext4_write_blocks(blocknr, blocks, buf)` -/
def ext4WriteBlocks (blocknr blocks : ℕ) (buf : Buf) (s : σ) : Bool × σ :=
  if blocks = 0 then (false, s)
  else
    let sectorsPerBlock := ops.ext4SectorsPerBlock bs
    ops.blkdevWriteSectors (blocknr * sectorsPerBlock) (blocks * sectorsPerBlock % 2 ^ 32) buf s

/-- `ext4_write_block(b + k, buf + k * block_size)` for `k` from 0 to `n - 1`: whether all succeeded, and
the device. -/
def writeEach (b : ℕ) (buf : Buf) : ℕ → σ → Bool × σ
  | 0, s => (true, s)
  | n + 1, s =>
    let r := writeEach b buf n s
    let r' := ops.ext4WriteBlock bs (b + n) (fun i ↦ buf (n * bs + i)) r.2
    (r.1 && r'.1, r'.2)

/-- `ext4_read_block(b + k, ..)` for `k` from 0 to `n - 1`: whether all succeeded, what they read, and the
device. -/
def readEach (b : ℕ) : ℕ → σ → (Bool × List Buf) × σ
  | 0, s => ((true, []), s)
  | n + 1, s =>
    let r := readEach b n s
    let r' := ops.ext4ReadBlock bs (b + n) Buf.zero r.2
    ((r.1.1 && r'.1.1, r.1.2 ++ [r'.1.2]), r'.2)

/-- The size of a block is a number of sectors. -/
structure Divides : Prop where
  sectorSize_pos : 0 < ops.bdSectorSize
  sectorSize_dvd : ops.bdSectorSize ∣ bs
  blockSize_pos : 0 < bs

variable {ops bs} {media : σ → Buf} {W : σ → Prop} {nr b n : ℕ} {buf : Buf} {s : σ}

/-! ### Blocks and sectors -/

theorem Divides.sectors_pos (h : ops.Divides bs) : 0 < bs / ops.bdSectorSize :=
  Nat.div_pos (Nat.le_of_dvd h.blockSize_pos h.sectorSize_dvd) h.sectorSize_pos

theorem Divides.sectorsPerBlock_eq (h : ops.Divides bs) :
    ops.ext4SectorsPerBlock bs = bs / ops.bdSectorSize := if_pos h.sectors_pos.ne'

theorem Divides.sectors_mul (h : ops.Divides bs) (b : ℕ) :
    b * (bs / ops.bdSectorSize) * ops.bdSectorSize = b * bs := by
  rw [Nat.mul_assoc, Nat.div_mul_cancel h.sectorSize_dvd]

/-- The sectors of `n` blocks, stored at the sector of block `b`. -/
theorem Divides.stored_blocks (h : ops.Divides bs) (m : Buf) (b n : ℕ) (buf : Buf) :
    ops.stored m (b * (bs / ops.bdSectorSize)) 0 (n * (bs / ops.bdSectorSize)) buf =
      m.blit (b * bs) buf 0 (n * bs) := by
  rw [stored, h.sectors_mul, h.sectors_mul]

/-! ### One block at a time -/

theorem writeBlock_works (hdiv : ops.Divides bs) (hstores : ops.Stores media) (hworks : ops.Works W nr)
    (hs : W s) (hin : (b + 1) * (bs / ops.bdSectorSize) ≤ nr) (buf : Buf) :
    (ops.ext4WriteBlock bs b buf s).1 = true ∧ W (ops.ext4WriteBlock bs b buf s).2 ∧
      media (ops.ext4WriteBlock bs b buf s).2 = (media s).blit (b * bs) buf 0 bs := by
  have hpos := hdiv.sectors_pos
  rw [Nat.add_mul, Nat.one_mul] at hin
  simp only [ext4WriteBlock, hdiv.sectorsPerBlock_eq, blkdevWriteSectors, if_neg hpos.ne']
  obtain ⟨hok, hW⟩ := @writeLoop_works _ _ _ _ (bs / ops.bdSectorSize) _ _ 0 buf s hworks hs hin
  obtain ⟨j, -, hmedia, hall⟩ := @writeLoop_spec _ _ _ (bs / ops.bdSectorSize)
    (b * (bs / ops.bdSectorSize)) (bs / ops.bdSectorSize) 0 buf s hstores le_rfl
  refine ⟨hok, hW, ?_⟩
  have hone := hdiv.stored_blocks (media s) b 1 buf
  rw [Nat.one_mul, Nat.one_mul] at hone
  rw [hmedia, hall hok, hone]

theorem readBlock_works (hdiv : ops.Divides bs) (hstores : ops.Stores media) (hworks : ops.Works W nr)
    (hs : W s) (hin : (b + 1) * (bs / ops.bdSectorSize) ≤ nr) (buf : Buf) :
    (ops.ext4ReadBlock bs b buf s).1.1 = true ∧ W (ops.ext4ReadBlock bs b buf s).2 ∧
      media (ops.ext4ReadBlock bs b buf s).2 = media s ∧
      (ops.ext4ReadBlock bs b buf s).1.2 = buf.blit 0 (media s) (b * bs) bs := by
  have hpos := hdiv.sectors_pos
  rw [Nat.add_mul, Nat.one_mul] at hin
  simp only [ext4ReadBlock, hdiv.sectorsPerBlock_eq, blkdevReadSectors, if_neg hpos.ne']
  obtain ⟨hok, hW⟩ := @readLoop_works _ _ _ _ (bs / ops.bdSectorSize) _ _ 0 buf s hworks hs hin
  obtain ⟨hmedia, hread⟩ := @readLoop_spec _ _ _ (bs / ops.bdSectorSize)
    (b * (bs / ops.bdSectorSize)) (bs / ops.bdSectorSize) 0 buf s hstores le_rfl
  refine ⟨hok, hW, hmedia, ?_⟩
  rw [hread hok, hdiv.sectors_mul, Nat.div_mul_cancel hdiv.sectorSize_dvd]

theorem le_sectors {k m : ℕ} (hk : k ≤ m) (hin : m * (bs / ops.bdSectorSize) ≤ nr) :
    k * (bs / ops.bdSectorSize) ≤ nr := (Nat.mul_le_mul_right _ hk).trans hin

/-- The calls for one block after the other store the whole run. -/
theorem writeEach_works (hdiv : ops.Divides bs) (hstores : ops.Stores media) (hworks : ops.Works W nr)
    (hs : W s) (hin : (b + n) * (bs / ops.bdSectorSize) ≤ nr) :
    (ops.writeEach bs b buf n s).1 = true ∧ W (ops.writeEach bs b buf n s).2 ∧
      media (ops.writeEach bs b buf n s).2 = (media s).blit (b * bs) buf 0 (n * bs) := by
  induction n with
  | zero => exact ⟨rfl, hs, by simp [writeEach]⟩
  | succ n ih =>
    obtain ⟨hok, hW, hmedia⟩ := ih (le_sectors (by omega) hin)
    obtain ⟨hok', hW', hmedia'⟩ := writeBlock_works hdiv hstores hworks hW
      (show (b + n + 1) * (bs / ops.bdSectorSize) ≤ nr from hin) fun i ↦ buf (n * bs + i)
    refine ⟨?_, hW', ?_⟩
    · rw [writeEach, hok, hok']
      rfl
    · change media (ops.ext4WriteBlock bs (b + n) _ _).2 = _
      have hshift : ∀ m : Buf, m.blit ((b + n) * bs) (fun i ↦ buf (n * bs + i)) 0 bs =
          m.blit (b * bs + n * bs) buf (0 + n * bs) bs := by
        intro m
        rw [← Nat.add_mul]
        funext i
        simp only [Buf.blit, Nat.zero_add]
      rw [hmedia', hmedia, hshift, Buf.blit_blit_adjacent, Nat.add_mul n 1 bs, Nat.one_mul]

theorem readEach_works (hdiv : ops.Divides bs) (hstores : ops.Stores media) (hworks : ops.Works W nr)
    (hs : W s) (hin : (b + n) * (bs / ops.bdSectorSize) ≤ nr) :
    (ops.readEach bs b n s).1.1 = true ∧ W (ops.readEach bs b n s).2 ∧
      media (ops.readEach bs b n s).2 = media s ∧
      (ops.readEach bs b n s).1.2 = (List.range n).map fun k ↦ Buf.zero.blit 0 (media s) ((b + k) * bs) bs := by
  induction n with
  | zero => exact ⟨rfl, hs, rfl, rfl⟩
  | succ n ih =>
    obtain ⟨hok, hW, hmedia, hbufs⟩ := ih (le_sectors (by omega) hin)
    obtain ⟨hok', hW', hmedia', hbuf⟩ := readBlock_works hdiv hstores hworks hW
      (show (b + n + 1) * (bs / ops.bdSectorSize) ≤ nr from hin) Buf.zero
    refine ⟨?_, hW', hmedia'.trans hmedia, ?_⟩
    · rw [readEach, hok, hok']
      rfl
    · rw [readEach, List.range_succ, List.map_append, ← hbufs, hbuf, hmedia]
      rfl

/-! ### Main result -/

/-- Bulk I/O does what the calls for the single blocks do. -/
structure BulkEqSingle (ops : BlockDeviceOps σ) (media : σ → Buf) (bs b n : ℕ) (buf : Buf) (s : σ) :
    Prop where
  write_ok : (ops.ext4WriteBlocks bs b n buf s).1 = true ∧ (ops.writeEach bs b buf n s).1 = true
  write_eq : media (ops.ext4WriteBlocks bs b n buf s).2 = media (ops.writeEach bs b buf n s).2
  write_frame : ∀ i, i < b * bs ∨ (b + n) * bs ≤ i →
    media (ops.ext4WriteBlocks bs b n buf s).2 i = media s i
  read_ok : (ops.ext4ReadBlocks bs b n buf s).1.1 = true ∧ (ops.readEach bs b n s).1.1 = true
  read_eq : (ops.readEach bs b n s).1.2.length = n ∧ ∀ k (hk : k < (ops.readEach bs b n s).1.2.length),
    ∀ i < bs, (ops.ext4ReadBlocks bs b n buf s).1.2 (k * bs + i) = (ops.readEach bs b n s).1.2[k] i
  read_frame : media (ops.ext4ReadBlocks bs b n buf s).2 = media s

/-- Within 32 bits a bulk write is one request to the block layer. -/
theorem Divides.writeBlocks_eq (h : ops.Divides bs) (hn : 1 ≤ n)
    (hsectors : n * (bs / ops.bdSectorSize) < 2 ^ 32) (buf : Buf) (s : σ) :
    ops.ext4WriteBlocks bs b n buf s = ops.writeLoop (n * (bs / ops.bdSectorSize))
      (b * (bs / ops.bdSectorSize)) (n * (bs / ops.bdSectorSize)) 0 buf s := by
  have hpos := Nat.mul_pos hn h.sectors_pos
  simp only [ext4WriteBlocks, if_neg (show n ≠ 0 by omega), h.sectorsPerBlock_eq,
    Nat.mod_eq_of_lt hsectors, blkdevWriteSectors, if_neg hpos.ne']

/-- And so is a bulk read. -/
theorem Divides.readBlocks_eq (h : ops.Divides bs) (hn : 1 ≤ n)
    (hsectors : n * (bs / ops.bdSectorSize) < 2 ^ 32) (buf : Buf) (s : σ) :
    ops.ext4ReadBlocks bs b n buf s = ops.readLoop (n * (bs / ops.bdSectorSize))
      (b * (bs / ops.bdSectorSize)) (n * (bs / ops.bdSectorSize)) 0 buf s := by
  have hpos := Nat.mul_pos hn h.sectors_pos
  simp only [ext4ReadBlocks, if_neg (show n ≠ 0 by omega), h.sectorsPerBlock_eq,
    Nat.mod_eq_of_lt hsectors, blkdevReadSectors, if_neg hpos.ne']

/-- A bulk write stores a prefix of the sectors asked for, and all the bytes of `buf` when it succeeds. -/
theorem writeBlocks_stores (hdiv : ops.Divides bs) (hstores : ops.Stores media) (hn : 1 ≤ n)
    (hsectors : n * (bs / ops.bdSectorSize) < 2 ^ 32) (buf : Buf) (s : σ) :
    (∃ j ≤ n * (bs / ops.bdSectorSize), media (ops.ext4WriteBlocks bs b n buf s).2 =
        ops.stored (media s) (b * (bs / ops.bdSectorSize)) 0 j buf) ∧
      ((ops.ext4WriteBlocks bs b n buf s).1 = true →
        media (ops.ext4WriteBlocks bs b n buf s).2 = (media s).blit (b * bs) buf 0 (n * bs)) := by
  obtain ⟨j, hj, hmedia, hall⟩ := @writeLoop_spec _ _ _ (n * (bs / ops.bdSectorSize))
    (b * (bs / ops.bdSectorSize)) (n * (bs / ops.bdSectorSize)) 0 buf s hstores le_rfl
  rw [hdiv.writeBlocks_eq hn hsectors]
  refine ⟨⟨j, hj, hmedia⟩, fun htrue ↦ ?_⟩
  rw [hmedia, hall htrue, hdiv.stored_blocks]

/-- For every driver that stores up to 255 sectors in a call, bulk I/O within the device does what the
calls for the single blocks do. A call that returns 0 has stored the buffer, and where it fails, what was
stored is a prefix of the request. -/
theorem bulkIo (hdiv : ops.Divides bs) (hstores : ops.Stores media) (hworks : ops.Works W nr)
    (hn : 1 ≤ n) (hsectors : n * (bs / ops.bdSectorSize) < 2 ^ 32) (buf : Buf) :
    (∀ s, W s → (b + n) * (bs / ops.bdSectorSize) ≤ nr → BulkEqSingle ops media bs b n buf s) ∧
    (∀ s, (ops.ext4WriteBlocks bs b n buf s).1 = true →
      media (ops.ext4WriteBlocks bs b n buf s).2 = (media s).blit (b * bs) buf 0 (n * bs)) ∧
    ∀ s, (ops.ext4WriteBlocks bs b n buf s).1 = false → ∃ j ≤ n * (bs / ops.bdSectorSize),
      media (ops.ext4WriteBlocks bs b n buf s).2 =
        ops.stored (media s) (b * (bs / ops.bdSectorSize)) 0 j buf := by
  have hstored := writeBlocks_stores (b := b) hdiv hstores hn hsectors buf
  refine ⟨fun s hs hin ↦ ?_, fun s ↦ (hstored s).2, fun s _ ↦ (hstored s).1⟩
  have hin' : b * (bs / ops.bdSectorSize) + n * (bs / ops.bdSectorSize) ≤ nr := by
    rwa [← Nat.add_mul]
  obtain ⟨hok, -, hmedia⟩ := @writeEach_works _ _ _ _ _ _ _ _ buf _ hdiv hstores hworks hs hin
  obtain ⟨hok', -, hmedia', hbufs⟩ := readEach_works hdiv hstores hworks hs hin
  obtain ⟨hwok, -⟩ := @writeLoop_works _ _ _ _ (n * (bs / ops.bdSectorSize)) _ _ 0 buf s hworks hs hin'
  rw [← hdiv.writeBlocks_eq hn hsectors] at hwok
  have hwmedia := (hstored s).2 hwok
  obtain ⟨hrok, -⟩ := @readLoop_works _ _ _ _ (n * (bs / ops.bdSectorSize)) _ _ 0 buf s hworks hs hin'
  obtain ⟨hrmedia, hrbuf⟩ := @readLoop_spec _ _ _ (n * (bs / ops.bdSectorSize))
    (b * (bs / ops.bdSectorSize)) (n * (bs / ops.bdSectorSize)) 0 buf s hstores le_rfl
  rw [← hdiv.readBlocks_eq hn hsectors] at hrok hrmedia hrbuf
  refine ⟨⟨hwok, hok⟩, by rw [hwmedia, hmedia], fun i hi ↦ ?_, ⟨hrok, hok'⟩,
    ⟨by rw [hbufs]; simp, fun k hk i hi ↦ ?_⟩, hrmedia⟩
  · rw [hwmedia]
    exact Buf.blit_out (by rwa [← Nat.add_mul])
  · have hkn : k < n := by
      rw [hbufs] at hk
      simpa using hk
    have hbound : k * bs + i < n * bs := by
      calc k * bs + i < k * bs + bs := by omega
        _ = (k + 1) * bs := by ring
        _ ≤ n * bs := Nat.mul_le_mul_right bs hkn
    have hplace : b * bs + (k * bs + i) = (b + k) * bs + i := by ring
    have hsingle : (ops.readEach bs b n s).1.2[k] = Buf.zero.blit 0 (media s) ((b + k) * bs) bs := by
      rw [List.getElem_of_eq hbufs hk]
      simp
    rw [hsingle, hrbuf hrok, hdiv.sectors_mul, hdiv.sectors_mul, Buf.blit_in (by omega) (by omega),
      Buf.blit_in (by omega) (by omega), Nat.sub_zero, Nat.sub_zero, hplace]

end BlockDeviceOps

/-! ### The device of the model -/

namespace Medium

variable {sectorSize bs b n : ℕ} {buf : Buf}

theorem ext4SectorsPerBlock_eq (d : Medium sectorSize) (bs : ℕ) :
    MiniExt4.ext4SectorsPerBlock bs d.1 = (ops sectorSize).ext4SectorsPerBlock bs := by
  rw [MiniExt4.ext4SectorsPerBlock, d.2]
  rfl

/-- Bulk writes on the device of `Block.Blkdev` are bulk writes over its driver. -/
theorem ext4WriteBlocks_eq (d : Medium sectorSize) :
    MiniExt4.ext4WriteBlocks bs b n buf d.1 =
      ((if ((ops sectorSize).ext4WriteBlocks bs b n buf d).1 then some () else none),
        ((ops sectorSize).ext4WriteBlocks bs b n buf d).2.1) := by
  have hspb := d.ext4SectorsPerBlock_eq bs
  simp only [MiniExt4.ext4WriteBlocks, BlockDeviceOps.ext4WriteBlocks, hspb, blkdevWriteSectors,
    BlockDeviceOps.blkdevWriteSectors, blkdevWriteLoop_eq]
  rcases eq_or_ne n 0 with hn | hn
  · simp only [if_pos hn]
    rfl
  rcases eq_or_ne (n * (ops sectorSize).ext4SectorsPerBlock bs % 2 ^ 32) 0 with hzero | hzero
  · simp only [if_neg hn, if_pos hzero]
    rfl
  · simp only [if_neg hn, if_neg hzero]
    generalize (ops sectorSize).writeLoop _ _ _ _ _ d = r
    obtain ⟨_ | _, d'⟩ := r <;> rfl

/-- Bulk reads likewise. -/
theorem ext4ReadBlocks_eq (d : Medium sectorSize) :
    MiniExt4.ext4ReadBlocks bs b n d.1 =
      ((if ((ops sectorSize).ext4ReadBlocks bs b n Buf.zero d).1.1 then
          some ((ops sectorSize).ext4ReadBlocks bs b n Buf.zero d).1.2 else none),
        ((ops sectorSize).ext4ReadBlocks bs b n Buf.zero d).2.1) := by
  have hspb := d.ext4SectorsPerBlock_eq bs
  simp only [MiniExt4.ext4ReadBlocks, BlockDeviceOps.ext4ReadBlocks, hspb, blkdevReadSectors,
    BlockDeviceOps.blkdevReadSectors, blkdevReadLoop_eq]
  rcases eq_or_ne n 0 with hn | hn
  · simp only [if_pos hn]
    rfl
  rcases eq_or_ne (n * (ops sectorSize).ext4SectorsPerBlock bs % 2 ^ 32) 0 with hzero | hzero
  · simp only [if_neg hn, if_pos hzero]
    rfl
  · simp only [if_neg hn, if_neg hzero]
    generalize (ops sectorSize).readLoop _ _ _ _ _ d = r
    obtain ⟨⟨_ | _, buf⟩, d'⟩ := r <;> rfl

end Medium

/-- Blocks of two sectors on a blank device of 64 sectors. -/
theorem bulkIo_blank :
    (∀ s : Medium 512, s.1.faults = [] ∧ s.1.bdNrSectors = 64 → (3 + 4) * (1024 / 512) ≤ 64 →
      BlockDeviceOps.BulkEqSingle (Medium.ops 512) (fun d ↦ d.1.media) 1024 3 4 Buf.zero s) ∧
    (∀ s, ((Medium.ops 512).ext4WriteBlocks 1024 3 4 Buf.zero s).1 = true →
      ((Medium.ops 512).ext4WriteBlocks 1024 3 4 Buf.zero s).2.1.media =
        s.1.media.blit (3 * 1024) Buf.zero 0 (4 * 1024)) ∧
    ∀ s, ((Medium.ops 512).ext4WriteBlocks 1024 3 4 Buf.zero s).1 = false → ∃ j ≤ 4 * (1024 / 512),
      ((Medium.ops 512).ext4WriteBlocks 1024 3 4 Buf.zero s).2.1.media =
        (Medium.ops 512).stored s.1.media (3 * (1024 / 512)) 0 j Buf.zero :=
  BlockDeviceOps.bulkIo ⟨by decide, by decide, by decide⟩ (Medium.stores_ops 512) (Medium.works_ops 512 64)
    (by decide) (by decide) Buf.zero

end MiniExt4
