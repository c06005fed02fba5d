import MiniExt4.Machine.Bytes
import MiniExt4.Machine.StateErr

/-!
# The block device (`block/blkdev.c`)

A device is its sectors and the faults its driver is going to report. One entry of `faults` is used
up by each driver call, so a list of them describes any pattern of failing calls; a device with none
left works, and then fails only beyond its last sector.

`blkdev_read_sectors` and `blkdev_write_sectors` hand the driver at most 255 sectors at a time.
-/

namespace MiniExt4

/-- The outcome of one driver call: a failing read may have scribbled over its destination. -/
inductive Fault where
  | pass
  | fail (scribble : Buf)

/-- `struct block_device` with the contents of the medium. -/
structure BlockDevice where
  /-- `bd_sector_size` -/
  bdSectorSize : ℕ
  /-- `bd_nr_sectors` -/
  bdNrSectors : ℕ
  /-- the bytes of all sectors, in order -/
  media : Buf
  /-- what the next driver calls do -/
  faults : List Fault

namespace BlockDevice

/-- A device full of zeros that reports no faults. -/
def blank (sectorSize nrSectors : ℕ) : BlockDevice := ⟨sectorSize, nrSectors, Buf.zero, []⟩

/-- Take the next fault off the list. -/
def nextFault (d : BlockDevice) : Option Buf × BlockDevice :=
  match d.faults with
  | [] => (none, d)
  | .pass :: fs => (none, { d with faults := fs })
  | .fail g :: fs => (some g, { d with faults := fs })

/-- `bd_ops->read_sectors(bdev, sector, chunk, p)` into `buf + p`. -/
def readSectors (sector chunk p : ℕ) (buf : Buf) (d : BlockDevice) : (Bool × Buf) × BlockDevice :=
  match d.nextFault with
  | (some g, d') => ((false, buf.blit p g 0 (chunk * d.bdSectorSize)), d')
  | (none, d') =>
    if sector + chunk ≤ d.bdNrSectors then
      ((true, buf.blit p d.media (sector * d.bdSectorSize) (chunk * d.bdSectorSize)), d')
    else ((false, buf), d')

/-- The device with `n` bytes from `buf + p` stored at byte `a` of its medium. -/
def store (d : BlockDevice) (a : ℕ) (buf : Buf) (p n : ℕ) : BlockDevice :=
  { d with media := d.media.blit a buf p n }

/-- `bd_ops->write_sectors(bdev, sector, chunk, p)` from `buf + p`. -/
def writeSectors (sector chunk p : ℕ) (buf : Buf) (d : BlockDevice) : Bool × BlockDevice :=
  match d.nextFault with
  | (some _, d') => (false, d')
  | (none, d') =>
    if sector + chunk ≤ d.bdNrSectors then
      (true, d'.store (sector * d.bdSectorSize) buf p (chunk * d.bdSectorSize))
    else (false, d')

end BlockDevice

/-- The loop of `blkdev_read_sectors`; `fuel` bounds its iterations by the sectors asked for. -/
def blkdevReadLoop : ℕ → ℕ → ℕ → ℕ → Buf → BlockDevice → (Bool × Buf) × BlockDevice
  | 0, _, _, _, buf, d => ((true, buf), d)
  | fuel + 1, sector, remaining, p, buf, d =>
    if remaining = 0 then ((true, buf), d)
    else
      let chunk := if remaining > 255 then 255 else remaining
      match d.readSectors sector chunk p buf with
      | ((false, buf'), d') => ((false, buf'), d')
      | ((true, buf'), d') =>
        blkdevReadLoop fuel (sector + chunk) (remaining - chunk) (p + chunk * d.bdSectorSize) buf' d'

/-- `blkdev_read_sectors(bdev, sector, count, buf)`, with the destination it leaves. -/
def blkdevReadSectors (sector count : ℕ) (buf : Buf) (d : BlockDevice) :
    (Bool × Buf) × BlockDevice :=
  if count = 0 then ((false, buf), d) else blkdevReadLoop count sector count 0 buf d

/-- The loop of `blkdev_write_sectors`. -/
def blkdevWriteLoop : ℕ → ℕ → ℕ → ℕ → Buf → BlockDevice → Bool × BlockDevice
  | 0, _, _, _, _, d => (true, d)
  | fuel + 1, sector, remaining, p, buf, d =>
    if remaining = 0 then (true, d)
    else
      let chunk := if remaining > 255 then 255 else remaining
      match d.writeSectors sector chunk p buf with
      | (false, d') => (false, d')
      | (true, d') =>
        blkdevWriteLoop fuel (sector + chunk) (remaining - chunk) (p + chunk * d.bdSectorSize) buf d'

/-- `blkdev_write_sectors(bdev, sector, count, buf)`. -/
def blkdevWriteSectors (sector count : ℕ) (buf : Buf) (d : BlockDevice) : Bool × BlockDevice :=
  if count = 0 then (false, d) else blkdevWriteLoop count sector count 0 buf d

/-! ### A device that reports no faults -/

namespace BlockDevice

variable {d : BlockDevice}

theorem nextFault_quiet (h : d.faults = []) : d.nextFault = (none, d) := by
  rw [nextFault, h]

theorem readSectors_quiet (h : d.faults = []) {sector chunk p : ℕ} {buf : Buf}
    (hin : sector + chunk ≤ d.bdNrSectors) :
    d.readSectors sector chunk p buf =
      ((true, buf.blit p d.media (sector * d.bdSectorSize) (chunk * d.bdSectorSize)), d) := by
  rw [readSectors, nextFault_quiet h]
  exact if_pos hin

theorem writeSectors_quiet (h : d.faults = []) {sector chunk p : ℕ} {buf : Buf}
    (hin : sector + chunk ≤ d.bdNrSectors) :
    d.writeSectors sector chunk p buf =
      (true, d.store (sector * d.bdSectorSize) buf p (chunk * d.bdSectorSize)) := by
  rw [writeSectors, nextFault_quiet h]
  exact if_pos hin

end BlockDevice

theorem blkdevReadLoop_quiet {d : BlockDevice} (h : d.faults = []) :
    ∀ fuel sector remaining p buf, remaining ≤ fuel → sector + remaining ≤ d.bdNrSectors →
      blkdevReadLoop fuel sector remaining p buf d =
        ((true, buf.blit p d.media (sector * d.bdSectorSize) (remaining * d.bdSectorSize)), d) := by
  intro fuel
  induction fuel with
  | zero =>
    intro sector remaining p buf hfuel _
    obtain rfl : remaining = 0 := by omega
    simp [blkdevReadLoop]
  | succ fuel ih =>
    intro sector remaining p buf hfuel hin
    rcases Nat.eq_zero_or_pos remaining with rfl | hpos
    · simp [blkdevReadLoop]
    · rw [blkdevReadLoop, if_neg (by omega)]
      set chunk := if remaining > 255 then 255 else remaining with hchunk
      have hle : chunk ≤ remaining ∧ 0 < chunk := by
        rw [hchunk]
        split <;> omega
      simp only [BlockDevice.readSectors_quiet h (show sector + chunk ≤ d.bdNrSectors by omega)]
      rw [ih _ _ _ _ (by omega) (by omega), Nat.add_mul, Buf.blit_blit_adjacent, ← Nat.add_mul,
        Nat.add_sub_cancel' hle.1]

/-- Without faults a read inside the device copies the sectors, in however many driver calls. -/
theorem blkdevReadSectors_quiet {d : BlockDevice} (h : d.faults = []) {sector count : ℕ} {buf : Buf}
    (hpos : 0 < count) (hin : sector + count ≤ d.bdNrSectors) :
    blkdevReadSectors sector count buf d =
      ((true, buf.blit 0 d.media (sector * d.bdSectorSize) (count * d.bdSectorSize)), d) := by
  rw [blkdevReadSectors, if_neg (by omega)]
  exact blkdevReadLoop_quiet h _ _ _ _ _ le_rfl hin

theorem blkdevWriteLoop_quiet : ∀ fuel sector remaining p buf (d : BlockDevice), d.faults = [] →
    remaining ≤ fuel → sector + remaining ≤ d.bdNrSectors →
      blkdevWriteLoop fuel sector remaining p buf d =
        (true, d.store (sector * d.bdSectorSize) buf p (remaining * d.bdSectorSize)) := by
  intro fuel
  induction fuel with
  | zero =>
    intro sector remaining p buf d _ hfuel _
    obtain rfl : remaining = 0 := by omega
    simp [blkdevWriteLoop, BlockDevice.store]
  | succ fuel ih =>
    intro sector remaining p buf d h hfuel hin
    rcases Nat.eq_zero_or_pos remaining with rfl | hpos
    · simp [blkdevWriteLoop, BlockDevice.store]
    · rw [blkdevWriteLoop, if_neg (by omega)]
      set chunk := if remaining > 255 then 255 else remaining with hchunk
      have hle : chunk ≤ remaining ∧ 0 < chunk := by
        rw [hchunk]
        split <;> omega
      simp only [BlockDevice.writeSectors_quiet h (show sector + chunk ≤ d.bdNrSectors by omega)]
      rw [ih (sector + chunk) (remaining - chunk) (p + chunk * d.bdSectorSize) buf
        (d.store (sector * d.bdSectorSize) buf p (chunk * d.bdSectorSize)) h
        (by omega) (by show sector + chunk + (remaining - chunk) ≤ d.bdNrSectors; omega)]
      simp only [BlockDevice.store, Nat.add_mul, Buf.blit_blit_adjacent]
      rw [← Nat.add_mul, Nat.add_sub_cancel' hle.1]

/-- Without faults a write inside the device stores the sectors. -/
theorem blkdevWriteSectors_quiet {d : BlockDevice} (h : d.faults = []) {sector count : ℕ}
    {buf : Buf} (hpos : 0 < count) (hin : sector + count ≤ d.bdNrSectors) :
    blkdevWriteSectors sector count buf d =
      (true, d.store (sector * d.bdSectorSize) buf 0 (count * d.bdSectorSize)) := by
  rw [blkdevWriteSectors, if_neg (by omega)]
  exact blkdevWriteLoop_quiet _ _ _ _ _ d h le_rfl hin

/-! ### What succeeded was inside the device -/

namespace BlockDevice

/-- The device with other failures ahead. -/
def withFaults (d : BlockDevice) (faults : List Fault) : BlockDevice := { d with faults }

theorem exists_nextFault (d : BlockDevice) : ∃ r l, d.nextFault = (r, d.withFaults l) := by
  rcases hf : d.faults with _ | ⟨_ | g, l⟩
  · exact ⟨none, d.faults, nextFault_quiet hf⟩
  · exact ⟨none, l, by rw [nextFault, hf]; rfl⟩
  · exact ⟨some g, l, by rw [nextFault, hf]; rfl⟩

variable {d d' : BlockDevice} {sector chunk p : ℕ} {buf buf' : Buf}

theorem le_of_readSectors (hrun : d.readSectors sector chunk p buf = ((true, buf'), d')) :
    sector + chunk ≤ d.bdNrSectors ∧ d'.bdNrSectors = d.bdNrSectors := by
  obtain ⟨r, l, hnext⟩ := d.exists_nextFault
  rw [readSectors, hnext] at hrun
  cases r with
  | some g => simp at hrun
  | none =>
    dsimp only at hrun
    split at hrun
    · rename_i hin
      simp only [Prod.mk.injEq] at hrun
      exact ⟨hin, hrun.2 ▸ rfl⟩
    · simp at hrun

/-- A driver call that succeeded has stored what was handed to it. -/
theorem writeSectors_of_true (hrun : d.writeSectors sector chunk p buf = (true, d')) :
    sector + chunk ≤ d.bdNrSectors ∧ ∃ l, d' =
      (d.store (sector * d.bdSectorSize) buf p (chunk * d.bdSectorSize)).withFaults l := by
  obtain ⟨r, l, hnext⟩ := d.exists_nextFault
  rw [writeSectors, hnext] at hrun
  cases r with
  | some g => simp at hrun
  | none =>
    dsimp only at hrun
    split at hrun
    · rename_i hin
      simp only [Prod.mk.injEq, true_and] at hrun
      exact ⟨hin, l, hrun.symm⟩
    · simp at hrun

end BlockDevice

theorem le_of_blkdevReadLoop : ∀ fuel sector remaining p buf (d : BlockDevice) {buf' d'},
    0 < remaining → remaining ≤ fuel →
      blkdevReadLoop fuel sector remaining p buf d = ((true, buf'), d') →
        sector + remaining ≤ d.bdNrSectors := by
  intro fuel
  induction fuel with
  | zero =>
    intro sector remaining p buf d buf' d' hpos hfuel
    omega
  | succ fuel ih =>
    intro sector remaining p buf d buf' d' hpos hfuel hrun
    rw [blkdevReadLoop, if_neg (by omega)] at hrun
    set chunk := if remaining > 255 then 255 else remaining with hchunk
    have hle : chunk ≤ remaining ∧ 0 < chunk := by
      rw [hchunk]
      split <;> omega
    rcases hread : d.readSectors sector chunk p buf with ⟨⟨_ | _, buf₁⟩, d₁⟩
    · simp [hread] at hrun
    · obtain ⟨hin, hsectors⟩ := BlockDevice.le_of_readSectors hread
      simp only [hread] at hrun
      rcases Nat.eq_zero_or_pos (remaining - chunk) with hzero | hrest
      · omega
      · have := ih _ _ _ _ _ hrest (by omega) hrun
        omega

/-- Reading leaves such a device as it is. -/
theorem blkdevReadLoop_snd {d : BlockDevice} (h : d.faults = []) :
    ∀ fuel sector remaining p buf, (blkdevReadLoop fuel sector remaining p buf d).2 = d := by
  intro fuel
  induction fuel with
  | zero => exact fun _ _ _ _ ↦ rfl
  | succ fuel ih =>
    intro sector remaining p buf
    rw [blkdevReadLoop]
    by_cases hzero : remaining = 0
    · rw [if_pos hzero]
    rw [if_neg hzero]
    simp only [BlockDevice.readSectors, BlockDevice.nextFault_quiet h]
    by_cases hin : sector + (if remaining > 255 then 255 else remaining) ≤ d.bdNrSectors
    · simp only [if_pos hin]
      exact ih ..
    · simp only [if_neg hin]

/-- A write that succeeded was inside the device, and has stored everything in however many driver
calls. -/
theorem blkdevWriteLoop_of_true : ∀ fuel sector remaining p buf (d : BlockDevice) {d'},
    remaining ≤ fuel → blkdevWriteLoop fuel sector remaining p buf d = (true, d') →
      (0 < remaining → sector + remaining ≤ d.bdNrSectors) ∧ ∃ l, d' =
        (d.store (sector * d.bdSectorSize) buf p (remaining * d.bdSectorSize)).withFaults l := by
  intro fuel
  induction fuel with
  | zero =>
    intro sector remaining p buf d d' hfuel hrun
    obtain rfl : remaining = 0 := by omega
    obtain rfl : d = d' := by simpa [blkdevWriteLoop] using hrun
    exact ⟨by simp, d.faults, by simp [BlockDevice.store, BlockDevice.withFaults]⟩
  | succ fuel ih =>
    intro sector remaining p buf d d' hfuel hrun
    rcases Nat.eq_zero_or_pos remaining with rfl | hpos
    · obtain rfl : d = d' := by simpa [blkdevWriteLoop] using hrun
      exact ⟨by simp, d.faults, by simp [BlockDevice.store, BlockDevice.withFaults]⟩
    rw [blkdevWriteLoop, if_neg (by omega)] at hrun
    set chunk := if remaining > 255 then 255 else remaining with hchunk
    have hle : chunk ≤ remaining ∧ 0 < chunk := by
      rw [hchunk]
      split <;> omega
    rcases hwrite : d.writeSectors sector chunk p buf with ⟨_ | _, d₁⟩
    · simp [hwrite] at hrun
    obtain ⟨hin, l, rfl⟩ := BlockDevice.writeSectors_of_true hwrite
    simp only [hwrite] at hrun
    obtain ⟨hrest, l', rfl⟩ := ih _ _ _ _ _ (by omega) hrun
    refine ⟨fun _ ↦ ?_, l', ?_⟩
    · rcases Nat.eq_zero_or_pos (remaining - chunk) with hzero | hmore
      · omega
      · have hsum : sector + chunk + (remaining - chunk) ≤ d.bdNrSectors := hrest hmore
        omega
    · simp only [BlockDevice.store, BlockDevice.withFaults, Nat.add_mul, Buf.blit_blit_adjacent]
      rw [← Nat.add_mul, Nat.add_sub_cancel' hle.1]

/-! ### A device that may fail -/

namespace BlockDevice

/-- A driver call reads what was asked for, or leaves anything in the destination. -/
theorem readSectors_cases (d : BlockDevice) (sector chunk p : ℕ) (buf : Buf) : ∃ l,
    d.readSectors sector chunk p buf =
        ((true, buf.blit p d.media (sector * d.bdSectorSize) (chunk * d.bdSectorSize)),
          d.withFaults l) ∨
      ∃ buf', d.readSectors sector chunk p buf = ((false, buf'), d.withFaults l) := by
  obtain ⟨r, l, hnext⟩ := d.exists_nextFault
  refine ⟨l, ?_⟩
  unfold readSectors
  rw [hnext]
  cases r with
  | some g => exact .inr ⟨_, rfl⟩
  | none =>
    dsimp only
    split
    · exact .inl rfl
    · exact .inr ⟨_, rfl⟩

/-- A driver call stores what was handed to it or nothing. -/
theorem writeSectors_cases (d : BlockDevice) (sector chunk p : ℕ) (buf : Buf) : ∃ l,
    d.writeSectors sector chunk p buf =
        (true, (d.store (sector * d.bdSectorSize) buf p (chunk * d.bdSectorSize)).withFaults l) ∨
      d.writeSectors sector chunk p buf = (false, d.withFaults l) := by
  obtain ⟨r, l, hnext⟩ := d.exists_nextFault
  refine ⟨l, ?_⟩
  unfold writeSectors
  rw [hnext]
  cases r with
  | some g => exact .inr rfl
  | none =>
    dsimp only
    split
    · exact .inl rfl
    · exact .inr rfl

end BlockDevice

theorem blkdevReadLoop_cases : ∀ fuel sector remaining p buf (d : BlockDevice), remaining ≤ fuel →
    ∃ l, blkdevReadLoop fuel sector remaining p buf d =
        ((true, buf.blit p d.media (sector * d.bdSectorSize) (remaining * d.bdSectorSize)),
          d.withFaults l) ∨
      ∃ buf', blkdevReadLoop fuel sector remaining p buf d = ((false, buf'), d.withFaults l) := by
  intro fuel
  induction fuel with
  | zero =>
    intro sector remaining p buf d hfuel
    obtain rfl : remaining = 0 := by omega
    exact ⟨d.faults, .inl (by simp [blkdevReadLoop, BlockDevice.withFaults])⟩
  | succ fuel ih =>
    intro sector remaining p buf d hfuel
    rcases Nat.eq_zero_or_pos remaining with rfl | hpos
    · exact ⟨d.faults, .inl (by simp [blkdevReadLoop, BlockDevice.withFaults])⟩
    rw [blkdevReadLoop, if_neg (by omega)]
    set chunk := if remaining > 255 then 255 else remaining with hchunk
    have hle : chunk ≤ remaining ∧ 0 < chunk := by
      rw [hchunk]
      split <;> omega
    obtain ⟨l, hread | ⟨buf', hread⟩⟩ := d.readSectors_cases sector chunk p buf
    · simp only [hread]
      obtain ⟨l', hrest⟩ := ih (sector + chunk) (remaining - chunk) (p + chunk * d.bdSectorSize)
        (buf.blit p d.media (sector * d.bdSectorSize) (chunk * d.bdSectorSize)) (d.withFaults l)
        (by omega)
      refine ⟨l', ?_⟩
      simp only [BlockDevice.withFaults, Nat.add_mul, Buf.blit_blit_adjacent] at hrest ⊢
      rwa [← Nat.add_mul, Nat.add_sub_cancel' hle.1] at hrest
    · exact ⟨l, .inr ⟨buf', by simp only [hread]⟩⟩

/-- A write of few enough sectors is one driver call. -/
theorem blkdevWriteSectors_cases (d : BlockDevice) (sector : ℕ) {count : ℕ} (buf : Buf)
    (hpos : 0 < count) (hle : count ≤ 255) : ∃ l,
    blkdevWriteSectors sector count buf d =
        (true, (d.store (sector * d.bdSectorSize) buf 0 (count * d.bdSectorSize)).withFaults l) ∨
      blkdevWriteSectors sector count buf d = (false, d.withFaults l) := by
  obtain ⟨count, rfl⟩ : ∃ k, count = k + 1 := ⟨count - 1, by omega⟩
  rw [blkdevWriteSectors, if_neg (by omega), blkdevWriteLoop, if_neg (by omega)]
  simp only [if_neg (show ¬ count + 1 > 255 by omega)]
  obtain ⟨l, hwrite | hwrite⟩ := d.writeSectors_cases sector (count + 1) 0 buf
  · refine ⟨l, .inl ?_⟩
    simp only [hwrite]
    rw [Nat.sub_self]
    cases count <;> simp [blkdevWriteLoop]
  · exact ⟨l, .inr (by simp only [hwrite])⟩

end MiniExt4
