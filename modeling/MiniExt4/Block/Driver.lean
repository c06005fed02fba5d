import MiniExt4.Block.Blkdev

/-!
# Any driver (`struct block_device_operations`)

The block layer calls a driver through two function pointers and knows nothing else of it. Here the two
are parameters, and what is assumed of them is what a driver promises: a call of 1 to 255 sectors that
succeeds has moved all of them, and one that fails has stored a prefix of them. Of a call for no sectors
nothing is assumed, as the ATA driver refuses it and the loops never make it. The device of `Block.Blkdev`
is one such driver, and its loops are these.
-/

namespace MiniExt4

/-- `struct block_device_operations` and `bd_sector_size`. `σ` are the states of the device. -/
structure BlockDeviceOps (σ : Type) where
  bdSectorSize : ℕ
  /-- `read_sectors(bdev, sector, count, buf + p)` -/
  readSectors : ℕ → ℕ → ℕ → Buf → σ → (Bool × Buf) × σ
  /-- `write_sectors(bdev, sector, count, buf + p)` -/
  writeSectors : ℕ → ℕ → ℕ → Buf → σ → Bool × σ

namespace BlockDeviceOps

variable {σ : Type} (ops : BlockDeviceOps σ)

/-- The loop of `blkdev_read_sectors`, whose iterations the sectors asked for bound. -/
def readLoop : ℕ → ℕ → ℕ → ℕ → Buf → σ → (Bool × Buf) × σ
  | 0, _, _, _, buf, s => ((true, buf), s)
  | fuel + 1, sector, remaining, p, buf, s =>
    if remaining = 0 then ((true, buf), s)
    else
      let chunk := if remaining > 255 then 255 else remaining
      match ops.readSectors sector chunk p buf s with
      | ((false, buf), s) => ((false, buf), s)
      | ((true, buf), s) =>
        readLoop fuel (sector + chunk) (remaining - chunk) (p + chunk * ops.bdSectorSize) buf s

/-- `blkdev_read_sectors(bdev, sector, count, buf)` -/
def blkdevReadSectors (sector count : ℕ) (buf : Buf) (s : σ) : (Bool × Buf) × σ :=
  if count = 0 then ((false, buf), s) else ops.readLoop count sector count 0 buf s

/-- The loop of `blkdev_write_sectors`. -/
def writeLoop : ℕ → ℕ → ℕ → ℕ → Buf → σ → Bool × σ
  | 0, _, _, _, _, s => (true, s)
  | fuel + 1, sector, remaining, p, buf, s =>
    if remaining = 0 then (true, s)
    else
      let chunk := if remaining > 255 then 255 else remaining
      match ops.writeSectors sector chunk p buf s with
      | (false, s) => (false, s)
      | (true, s) =>
        writeLoop fuel (sector + chunk) (remaining - chunk) (p + chunk * ops.bdSectorSize) buf s

/-- `blkdev_write_sectors(bdev, sector, count, buf)` -/
def blkdevWriteSectors (sector count : ℕ) (buf : Buf) (s : σ) : Bool × σ :=
  if count = 0 then (false, s) else ops.writeLoop count sector count 0 buf s

/-- The medium after the first `j` sectors of a request at `sector` were stored from `buf + p`. -/
def stored (media : Buf) (sector p j : ℕ) (buf : Buf) : Buf :=
  media.blit (sector * ops.bdSectorSize) buf p (j * ops.bdSectorSize)

/-- What a driver promises of a call of 1 to 255 sectors; `media` are the bytes of all sectors. -/
structure Stores (media : σ → Buf) : Prop where
  read_media : ∀ {sector count : ℕ} (p buf s), 0 < count → count ≤ 255 →
    media (ops.readSectors sector count p buf s).2 = media s
  read_true : ∀ {sector count p : ℕ} {buf buf' : Buf} {s s' : σ}, 0 < count → count ≤ 255 →
    ops.readSectors sector count p buf s = ((true, buf'), s') →
      buf' = buf.blit p (media s) (sector * ops.bdSectorSize) (count * ops.bdSectorSize)
  write_true : ∀ {sector count p : ℕ} {buf : Buf} {s s' : σ}, 0 < count → count ≤ 255 →
    ops.writeSectors sector count p buf s = (true, s') →
      media s' = ops.stored (media s) sector p count buf
  write_false : ∀ {sector count p : ℕ} {buf : Buf} {s s' : σ}, 0 < count → count ≤ 255 →
    ops.writeSectors sector count p buf s = (false, s') →
      ∃ j ≤ count, media s' = ops.stored (media s) sector p j buf

/-- In the states of `W` calls of 1 to 255 of the first `n` sectors succeed, and lead to states of `W`. -/
structure Works (W : σ → Prop) (n : ℕ) : Prop where
  read : ∀ {sector count : ℕ} (p buf) {s : σ}, W s → 0 < count → count ≤ 255 → sector + count ≤ n →
    (ops.readSectors sector count p buf s).1.1 = true ∧ W (ops.readSectors sector count p buf s).2
  write : ∀ {sector count : ℕ} (p buf) {s : σ}, W s → 0 < count → count ≤ 255 → sector + count ≤ n →
    (ops.writeSectors sector count p buf s).1 = true ∧ W (ops.writeSectors sector count p buf s).2

variable {ops} {media : σ → Buf} {W : σ → Prop} {n fuel sector remaining count p : ℕ} {buf : Buf} {s : σ}

/-! ### The loops -/

/-- Storing goes on where it stopped. -/
theorem stored_stored (m : Buf) (i j : ℕ) :
    ops.stored (ops.stored m sector p i buf) (sector + i) (p + i * ops.bdSectorSize) j buf =
      ops.stored m sector p (i + j) buf := by
  simp only [stored, Nat.add_mul, Buf.blit_blit_adjacent]

/-- However the request is cut into calls, a prefix of it is stored, and all of it on success. -/
theorem writeLoop_spec (h : ops.Stores media) (hfuel : remaining ≤ fuel) :
    ∃ j ≤ remaining, media (ops.writeLoop fuel sector remaining p buf s).2 =
        ops.stored (media s) sector p j buf ∧
      ((ops.writeLoop fuel sector remaining p buf s).1 = true → j = remaining) := by
  induction fuel generalizing sector remaining p s with
  | zero => exact ⟨0, Nat.zero_le _, by simp [writeLoop, stored], fun _ ↦ by omega⟩
  | succ fuel ih =>
    rcases Nat.eq_zero_or_pos remaining with rfl | hpos
    · exact ⟨0, le_rfl, by simp [writeLoop, stored], fun _ ↦ rfl⟩
    rw [writeLoop, if_neg hpos.ne']
    set chunk := if remaining > 255 then 255 else remaining with hchunk
    have hle : chunk ≤ remaining ∧ 0 < chunk ∧ chunk ≤ 255 := by
      rw [hchunk]
      split <;> omega
    rcases hwrite : ops.writeSectors sector chunk p buf s with ⟨_ | _, s₁⟩
    · obtain ⟨j, hj, hmedia⟩ := h.write_false hle.2.1 hle.2.2 hwrite
      simp only [hwrite]
      exact ⟨j, hj.trans hle.1, hmedia, by simp⟩
    · have hmedia := h.write_true hle.2.1 hle.2.2 hwrite
      obtain ⟨j, hj, hrest, hall⟩ := @ih (sector + chunk) (remaining - chunk)
        (p + chunk * ops.bdSectorSize) s₁ (by omega)
      simp only [hwrite]
      refine ⟨chunk + j, by omega, ?_, fun htrue ↦ ?_⟩
      · rw [hrest, hmedia, stored_stored]
      · have hj' := hall htrue
        omega

theorem writeLoop_works (h : ops.Works W n) (hs : W s) (hin : sector + remaining ≤ n) :
    (ops.writeLoop fuel sector remaining p buf s).1 = true ∧
      W (ops.writeLoop fuel sector remaining p buf s).2 := by
  induction fuel generalizing sector remaining p s with
  | zero => exact ⟨rfl, hs⟩
  | succ fuel ih =>
    rcases Nat.eq_zero_or_pos remaining with rfl | hpos
    · exact ⟨rfl, hs⟩
    rw [writeLoop, if_neg hpos.ne']
    set chunk := if remaining > 255 then 255 else remaining with hchunk
    have hle : chunk ≤ remaining ∧ 0 < chunk ∧ chunk ≤ 255 := by
      rw [hchunk]
      split <;> omega
    obtain ⟨hok, hs'⟩ := h.write p buf hs hle.2.1 hle.2.2 (show sector + chunk ≤ n by omega)
    rcases hwrite : ops.writeSectors sector chunk p buf s with ⟨ok, s₁⟩
    rw [hwrite] at hok hs'
    dsimp only at hok hs'
    subst hok
    simp only [hwrite]
    exact ih hs' (by omega)

/-- A read leaves the medium as it is, and on success has moved what was asked for. -/
theorem readLoop_spec (h : ops.Stores media) (hfuel : remaining ≤ fuel) :
    media (ops.readLoop fuel sector remaining p buf s).2 = media s ∧
      ((ops.readLoop fuel sector remaining p buf s).1.1 = true →
        (ops.readLoop fuel sector remaining p buf s).1.2 =
          buf.blit p (media s) (sector * ops.bdSectorSize) (remaining * ops.bdSectorSize)) := by
  induction fuel generalizing sector remaining p buf s with
  | zero =>
    obtain rfl : remaining = 0 := by omega
    exact ⟨rfl, fun _ ↦ by simp [readLoop]⟩
  | succ fuel ih =>
    rcases Nat.eq_zero_or_pos remaining with rfl | hpos
    · exact ⟨rfl, fun _ ↦ by simp [readLoop]⟩
    rw [readLoop, if_neg hpos.ne']
    set chunk := if remaining > 255 then 255 else remaining with hchunk
    have hle : chunk ≤ remaining ∧ 0 < chunk ∧ chunk ≤ 255 := by
      rw [hchunk]
      split <;> omega
    have hmedia := @h.read_media sector chunk p buf s hle.2.1 hle.2.2
    rcases hread : ops.readSectors sector chunk p buf s with ⟨⟨_ | _, buf₁⟩, s₁⟩
    · rw [hread] at hmedia
      simp only [hread]
      exact ⟨hmedia, by simp⟩
    · rw [hread] at hmedia
      have hbuf := h.read_true hle.2.1 hle.2.2 hread
      obtain ⟨hrest, hall⟩ := @ih (sector + chunk) (remaining - chunk) (p + chunk * ops.bdSectorSize)
        buf₁ s₁ (by omega)
      simp only [hread]
      refine ⟨hrest.trans hmedia, fun htrue ↦ ?_⟩
      rw [hall htrue, hmedia, hbuf, Nat.add_mul, Buf.blit_blit_adjacent, ← Nat.add_mul,
        Nat.add_sub_cancel' hle.1]

theorem readLoop_works (h : ops.Works W n) (hs : W s) (hin : sector + remaining ≤ n) :
    (ops.readLoop fuel sector remaining p buf s).1.1 = true ∧
      W (ops.readLoop fuel sector remaining p buf s).2 := by
  induction fuel generalizing sector remaining p buf s with
  | zero => exact ⟨rfl, hs⟩
  | succ fuel ih =>
    rcases Nat.eq_zero_or_pos remaining with rfl | hpos
    · exact ⟨rfl, hs⟩
    rw [readLoop, if_neg hpos.ne']
    set chunk := if remaining > 255 then 255 else remaining with hchunk
    have hle : chunk ≤ remaining ∧ 0 < chunk ∧ chunk ≤ 255 := by
      rw [hchunk]
      split <;> omega
    obtain ⟨hok, hs'⟩ := h.read p buf hs hle.2.1 hle.2.2 (show sector + chunk ≤ n by omega)
    rcases hread : ops.readSectors sector chunk p buf s with ⟨⟨ok, buf₁⟩, s₁⟩
    rw [hread] at hok hs'
    dsimp only at hok hs'
    subst hok
    simp only [hread]
    exact ih hs' (by omega)

end BlockDeviceOps

/-! ### The device of the model -/

/-- A device with sectors of `sectorSize` bytes. -/
abbrev Medium (sectorSize : ℕ) : Type := {d : BlockDevice // d.bdSectorSize = sectorSize}

namespace Medium

variable {sectorSize sector chunk p : ℕ} {buf : Buf} {d : Medium sectorSize}

theorem bdSectorSize_readSectors : (d.1.readSectors sector chunk p buf).2.bdSectorSize = sectorSize := by
  obtain ⟨l, hread | ⟨buf', hread⟩⟩ := d.1.readSectors_cases sector chunk p buf
  · rw [hread]
    exact d.2
  · rw [hread]
    exact d.2

theorem bdSectorSize_writeSectors : (d.1.writeSectors sector chunk p buf).2.bdSectorSize = sectorSize := by
  obtain ⟨l, hwrite | hwrite⟩ := d.1.writeSectors_cases sector chunk p buf
  · rw [hwrite]
    exact d.2
  · rw [hwrite]
    exact d.2

/-- The driver that the device of `Block.Blkdev` is. -/
def ops (sectorSize : ℕ) : BlockDeviceOps (Medium sectorSize) where
  bdSectorSize := sectorSize
  readSectors sector chunk p buf d :=
    ((d.1.readSectors sector chunk p buf).1, ⟨_, @bdSectorSize_readSectors _ sector chunk p buf d⟩)
  writeSectors sector chunk p buf d :=
    ((d.1.writeSectors sector chunk p buf).1, ⟨_, @bdSectorSize_writeSectors _ sector chunk p buf d⟩)

/-- The loop of `Block.Blkdev` is the loop over its driver. -/
theorem blkdevWriteLoop_eq (fuel sector remaining p : ℕ) (d : Medium sectorSize) :
    blkdevWriteLoop fuel sector remaining p buf d.1 =
      (((ops sectorSize).writeLoop fuel sector remaining p buf d).1,
        ((ops sectorSize).writeLoop fuel sector remaining p buf d).2.1) := by
  induction fuel generalizing sector remaining p d with
  | zero => rfl
  | succ fuel ih =>
    rw [blkdevWriteLoop, BlockDeviceOps.writeLoop]
    split
    next => rfl
    next =>
      set chunk := if remaining > 255 then 255 else remaining
      have hsize := @bdSectorSize_writeSectors _ sector chunk p buf d
      rcases hwrite : d.1.writeSectors sector chunk p buf with ⟨ok, d'⟩
      rw [hwrite] at hsize
      have hops : (ops sectorSize).writeSectors sector chunk p buf d = (ok, ⟨d', hsize⟩) :=
        Prod.ext (show (d.1.writeSectors sector chunk p buf).1 = ok by rw [hwrite])
          (Subtype.ext (show (d.1.writeSectors sector chunk p buf).2 = d' by rw [hwrite]))
      simp only [hwrite, hops]
      cases ok with
      | false => rfl
      | true =>
        rw [d.2]
        exact ih _ _ _ ⟨d', hsize⟩

theorem blkdevReadLoop_eq (fuel sector remaining p : ℕ) (buf : Buf) (d : Medium sectorSize) :
    blkdevReadLoop fuel sector remaining p buf d.1 =
      (((ops sectorSize).readLoop fuel sector remaining p buf d).1,
        ((ops sectorSize).readLoop fuel sector remaining p buf d).2.1) := by
  induction fuel generalizing sector remaining p buf d with
  | zero => rfl
  | succ fuel ih =>
    rw [blkdevReadLoop, BlockDeviceOps.readLoop]
    split
    next => rfl
    next =>
      set chunk := if remaining > 255 then 255 else remaining
      have hsize := @bdSectorSize_readSectors _ sector chunk p buf d
      rcases hread : d.1.readSectors sector chunk p buf with ⟨⟨ok, buf'⟩, d'⟩
      rw [hread] at hsize
      have hops : (ops sectorSize).readSectors sector chunk p buf d = ((ok, buf'), ⟨d', hsize⟩) :=
        Prod.ext (show (d.1.readSectors sector chunk p buf).1 = (ok, buf') by rw [hread])
          (Subtype.ext (show (d.1.readSectors sector chunk p buf).2 = d' by rw [hread]))
      simp only [hread, hops]
      cases ok with
      | false => rfl
      | true =>
        rw [d.2]
        exact ih _ _ _ _ ⟨d', hsize⟩

/-- It keeps the promises of a driver: a call that fails has stored nothing. -/
theorem stores_ops (sectorSize : ℕ) : (ops sectorSize).Stores fun d ↦ d.1.media := by
  refine ⟨fun {sector count} p buf d _ _ ↦ ?_, fun {sector count p buf buf' d d'} _ _ hread ↦ ?_,
    fun {sector count p buf d d'} _ _ hwrite ↦ ?_, fun {sector count p buf d d'} _ _ hwrite ↦ ?_⟩
  · obtain ⟨l, hread | ⟨buf', hread⟩⟩ := d.1.readSectors_cases sector count p buf
    · change (d.1.readSectors sector count p buf).2.media = _
      rw [hread]
      rfl
    · change (d.1.readSectors sector count p buf).2.media = _
      rw [hread]
      rfl
  · have hfst := congrArg Prod.fst hread
    change (d.1.readSectors sector count p buf).1 = (true, buf') at hfst
    obtain ⟨l, hcase | ⟨buf₁, hcase⟩⟩ := d.1.readSectors_cases sector count p buf
    · rw [hcase, d.2] at hfst
      exact (congrArg Prod.snd hfst).symm
    · rw [hcase] at hfst
      cases congrArg Prod.fst hfst
  · have hfst : (d.1.writeSectors sector count p buf).1 = true := congrArg Prod.fst hwrite
    have hsnd : (d.1.writeSectors sector count p buf).2 = d'.1 :=
      congrArg (fun r : Bool × Medium sectorSize ↦ r.2.1) hwrite
    obtain ⟨l, hcase | hcase⟩ := d.1.writeSectors_cases sector count p buf
    · rw [← hsnd, hcase, d.2]
      rfl
    · rw [hcase] at hfst
      cases hfst
  · have hfst : (d.1.writeSectors sector count p buf).1 = false := congrArg Prod.fst hwrite
    have hsnd : (d.1.writeSectors sector count p buf).2 = d'.1 :=
      congrArg (fun r : Bool × Medium sectorSize ↦ r.2.1) hwrite
    obtain ⟨l, hcase | hcase⟩ := d.1.writeSectors_cases sector count p buf
    · rw [hcase] at hfst
      cases hfst
    · refine ⟨0, Nat.zero_le _, ?_⟩
      rw [← hsnd, hcase]
      simp [BlockDeviceOps.stored, BlockDevice.withFaults]

/-- Without faults ahead it works within its sectors. -/
theorem works_ops (sectorSize n : ℕ) :
    (ops sectorSize).Works (fun d ↦ d.1.faults = [] ∧ d.1.bdNrSectors = n) n := by
  refine ⟨fun {sector count} p buf d hd _ _ hin ↦ ?_, fun {sector count} p buf d hd _ _ hin ↦ ?_⟩
  · have hread := @BlockDevice.readSectors_quiet d.1 hd.1 sector count p buf (hin.trans_eq hd.2.symm)
    change (d.1.readSectors sector count p buf).1.1 = true ∧
      (d.1.readSectors sector count p buf).2.faults = [] ∧ _
    exact ⟨by rw [hread], by rw [hread]; exact hd.1,
      (congrArg (fun r : (Bool × Buf) × BlockDevice ↦ r.2.bdNrSectors) hread).trans hd.2⟩
  · have hwrite := @BlockDevice.writeSectors_quiet d.1 hd.1 sector count p buf (hin.trans_eq hd.2.symm)
    change (d.1.writeSectors sector count p buf).1 = true ∧
      (d.1.writeSectors sector count p buf).2.faults = [] ∧ _
    exact ⟨by rw [hwrite], by rw [hwrite]; exact hd.1,
      (congrArg (fun r : Bool × BlockDevice ↦ r.2.bdNrSectors) hwrite).trans hd.2⟩

end Medium

end MiniExt4
