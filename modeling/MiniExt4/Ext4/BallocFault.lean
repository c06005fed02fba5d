import MiniExt4.Ext4.MkfsMount

/-!
# The bitmap cache on a device that may fail

What the allocator keeps in memory of the device when any read or write of a block may fail. A read
that fails may leave anything in its destination, a write that fails stores nothing. The cached bitmap
goes wrong in two places: where a load fails after it has overwritten the buffer, and where a release
stops between writing the bitmap and dropping the cache.

`Synced` is the invariant: a bitmap that is cached is that of a group of the volume, it is what the device
has unless it is dirty, and a dirty one has every bit set that the device has set. The steps of `BallocWalk`
keep it but for two, which the predicates `TearsNew` and `StopsBeforeDrop` describe on the state before the
call; each of them follows the calls of the source up to the read that fails. A run without such calls is a
run that keeps the cache clean, with any other faults in it.

A faulty device is one like any other here: `Flaky` asks for a layout on it, and for blocks that are written
as a whole or not at all.
-/

namespace MiniExt4

open StateErr

/-! ### Reads and writes of blocks -/

namespace Fs

/-- A write of a block that fails stores nothing. -/
def Atomic (fs : Fs) : Prop := fs.dev.Atomic fs.blockSize

variable {fs : Fs}

/-- A read gives the block or fails; what is left of the faults is all that changes. -/
theorem Atomic.readBlock (h : fs.Atomic) (b : ℕ) : ∃ l,
    Fs.readBlock b fs = (some (fs.block b), fs.withFaults l) ∨
      Fs.readBlock b fs = (none, fs.withFaults l) := by
  obtain ⟨l, hread | hread⟩ := BlockDevice.Atomic.read h b
  · exact ⟨l, .inl (by simp only [Fs.readBlock, io, zoom_apply, hread]; rfl)⟩
  · exact ⟨l, .inr (by simp only [Fs.readBlock, io, zoom_apply, hread]; rfl)⟩

/-- A write stores its buffer or fails and stores nothing. -/
theorem Atomic.writeBlock (h : fs.Atomic) (b : ℕ) (buf : Buf) : ∃ l,
    Fs.writeBlock b buf fs = (some (), (fs.put b buf).withFaults l) ∨
      Fs.writeBlock b buf fs = (none, fs.withFaults l) := by
  obtain ⟨l, hwrite | hwrite⟩ := BlockDevice.Atomic.write h b buf
  · exact ⟨l, .inl (by simp only [Fs.writeBlock, io, zoom_apply, hwrite]; rfl)⟩
  · exact ⟨l, .inr (by simp only [Fs.writeBlock, io, zoom_apply, hwrite]; rfl)⟩

end Fs

namespace Volume

variable {V : Volume} {n g : ℕ} {fs fs' fs'' : Fs} {gd : Buf}

/-! ### Steps that leave the cache and the bitmaps -/

/-- The device holds the layout, and a write that fails stores nothing. -/
structure Flaky (V : Volume) (n : ℕ) (fs : Fs) : Prop extends V.Image n fs where
  atomic : fs.Atomic

/-- The layout does not depend on the faults to come. -/
theorem Image.withFaults (h : V.Image n fs) (l : List Fault) : V.Image n (fs.withFaults l) :=
  { h with }

theorem Flaky.withFaults (h : V.Flaky n fs) (l : List Fault) : V.Flaky n (fs.withFaults l) :=
  ⟨h.toImage.withFaults l, BlockDevice.Atomic.withFaults h.atomic l⟩

/-- A write that leaves the layout. -/
theorem Flaky.put (h : V.Flaky n fs) {b : ℕ} {buf : Buf} (h' : V.Image n (fs.put b buf)) :
    V.Flaky n (fs.put b buf) := ⟨h', BlockDevice.Atomic.putBlock h.atomic b buf⟩

/-- What is in memory can change, all but the geometry. -/
theorem Flaky.withSbi (h : V.Flaky n fs) (sbi : SbInfo) (hgeom : sbi.toSbGeom = fs.sbi.toSbGeom)
    (hgd : sbi.sGroupDesc.isSome) : V.Flaky n { fs with sbi := sbi } :=
  ⟨h.toImage.withSbi sbi hgeom hgd, h.atomic⟩

/-- From `fs` neither the cached bitmap nor a bitmap on the device has changed. -/
structure Still (V : Volume) (n : ℕ) (fs fs' : Fs) : Prop where
  flaky : V.Flaky n fs'
  cache : SameCache fs fs'
  bitmap : ∀ g, V.Group g → fs'.block (V.blockBitmap g) = fs.block (V.blockBitmap g)

theorem Still.refl (h : V.Flaky n fs) : V.Still n fs fs := ⟨h, .refl fs, fun _ _ ↦ rfl⟩

/-- Two steps that leave the cache, one after the other. -/
theorem Still.trans (h : V.Still n fs fs') (h' : V.Still n fs' fs'') : V.Still n fs fs'' :=
  ⟨h'.flaky, h.cache.trans h'.cache, fun g hg ↦ (h'.bitmap g hg).trans (h.bitmap g hg)⟩

/-- A failure changes neither the cache nor the bitmaps. -/
theorem Flaky.still_withFaults (h : V.Flaky n fs) (l : List Fault) : V.Still n fs (fs.withFaults l) :=
  ⟨h.withFaults l, ⟨rfl, rfl, rfl, rfl⟩, fun _ _ ↦ rfl⟩

/-- A copy of the descriptor of group `g` in memory, whatever its counts. -/
structure IsDesc (V : Volume) (g : ℕ) (gd : Buf) : Prop where
  group : V.Group g
  blockBitmap : gd.getField 0 Gd.bgBlockBitmapLo = V.blockBitmap g
  end_zero : ∀ i, V.geom.copySz ≤ i → gd i = 0

/-- A descriptor of the device is one in memory. -/
theorem Image.isDesc (h : V.Image n fs) (hg : V.Group g) : V.IsDesc g (fs.desc g) :=
  ⟨hg, h.desc_blockBitmap g hg, fun _ hi ↦ h.desc_of_le hi⟩

/-- A new count leaves the place of the bitmap. -/
theorem IsDesc.setFree (h : V.IsDesc g gd) (hlaid : V.Laid n) (v : ℕ) :
    V.IsDesc g (gd.setField 0 Gd.bgFreeBlocksCountLo v) := by
  have hsz := hlaid.copySz_ge
  refine ⟨h.group, ?_, fun i hi ↦ ?_⟩
  · rw [Buf.getField_setField_of_disjoint _ _ _ (by decide), h.blockBitmap]
  · rw [Buf.setField_of_le (by simp only [Gd.bgFreeBlocksCountLo]; omega), h.end_zero i hi]

/-- The pool gives a buffer for blocks that fit its slots. -/
theorem mallocBlock_cases (fs : Fs) :
    Fs.mallocBlock fs = (some (), fs) ∧ fs.blockSize ≤ blockSizeDefault ∨
      Fs.mallocBlock fs = (none, fs) := by
  unfold Fs.mallocBlock
  rw [get_bind]
  by_cases hbs : fs.blockSize ≤ blockSizeDefault
  · exact .inl ⟨by rw [guard_true hbs, pure_apply], hbs⟩
  · exact .inr (by rw [guard_false hbs, fail_apply])

/-- Reading a descriptor leaves the cache, and what was read has the place of the bitmap. -/
theorem Flaky.readGroupDesc (h : V.Flaky n fs) (g : ℕ) :
    wp (Fs.readGroupDesc g) (fun r fs' ↦ V.Still n fs fs' ∧
      ∀ gd, r = some gd → V.bs ≤ blockSizeDefault ∧ (g < V.groups → V.IsDesc g gd)) fs := by
  have hnone : V.Still n fs fs ∧ ∀ gd, (none : Option Buf) = some gd →
      V.bs ≤ blockSizeDefault ∧ (g < V.groups → V.IsDesc g gd) := ⟨.refl h, by simp⟩
  unfold Fs.readGroupDesc
  rw [wp, get_bind]
  by_cases hsize : fs.sbi.sDescSize ≠ 0
  swap
  · rw [guard_false hsize, fail_bind]
    exact hnone
  rw [guard_true hsize, pure_bind']
  by_cases hin : (fs.sbi.descLoc fs.blockSize g).2 + fs.sbi.copySz ≤ fs.blockSize
  swap
  · rw [guard_false hin, fail_bind]
    exact hnone
  rw [guard_true hin, pure_bind']
  rw [h.descLoc_eq, h.copySz_eq, h.blockSize] at hin
  rcases mallocBlock_cases fs with ⟨hmalloc, hbs⟩ | hmalloc
  swap
  · rw [bind_of_eq_none hmalloc]
    exact hnone
  rw [h.blockSize] at hbs
  rw [bind_of_eq_some hmalloc]
  obtain ⟨l, hread | hread⟩ := h.atomic.readBlock (fs.sbi.descLoc fs.blockSize g).1
  · rw [bind_of_eq_some hread]
    refine ⟨h.still_withFaults l, fun gd hgd ↦ ?_⟩
    obtain rfl : fs.desc g = gd := Option.some.inj hgd
    exact ⟨hbs, fun hg ↦ h.toImage.isDesc ⟨hg, hin⟩⟩
  · rw [bind_of_eq_none hread]
    exact ⟨h.still_withFaults l, by simp⟩

/-- Writing a descriptor leaves the cache and the bitmaps. -/
theorem Flaky.writeGroupDesc (h : V.Flaky n fs) (hgd : V.IsDesc g gd) :
    wp (Fs.writeGroupDesc g gd) (fun _ fs' ↦ V.Still n fs fs') fs := by
  unfold Fs.writeGroupDesc
  rw [wp, get_bind]
  by_cases hsize : fs.sbi.sDescSize ≠ 0
  swap
  · rw [guard_false hsize, fail_bind]
    exact .refl h
  rw [guard_true hsize, pure_bind']
  by_cases hin : (fs.sbi.descLoc fs.blockSize g).2 + fs.sbi.copySz ≤ fs.blockSize
  swap
  · rw [guard_false hin, fail_bind]
    exact .refl h
  rw [guard_true hin, pure_bind']
  rcases mallocBlock_cases fs with ⟨hmalloc, -⟩ | hmalloc
  swap
  · rw [bind_of_eq_none hmalloc]
    exact .refl h
  rw [bind_of_eq_some hmalloc, h.descLoc_eq, h.copySz_eq]
  dsimp only
  obtain ⟨l, hread | hread⟩ := h.atomic.readBlock (V.descBlock g)
  swap
  · rw [bind_of_eq_none hread]
    exact h.still_withFaults l
  rw [bind_of_eq_some hread]
  have h₁ := h.withFaults l
  obtain ⟨l', hwrite | hwrite⟩ := h₁.atomic.writeBlock (V.descBlock g) (V.descStored fs g gd)
  · rw [show (fs.block (V.descBlock g)).blit (V.descOff g) gd 0 V.geom.copySz =
      V.descStored fs g gd from rfl, hwrite]
    obtain ⟨himage, -, -, hbitmap⟩ := h₁.toImage.putDesc hgd.group hgd.end_zero hgd.blockBitmap
    exact ⟨(h₁.put himage).withFaults l', ⟨rfl, rfl, rfl, rfl⟩, fun g' hg' ↦ hbitmap g' hg'⟩
  · rw [show (fs.block (V.descBlock g)).blit (V.descOff g) gd 0 V.geom.copySz =
      V.descStored fs g gd from rfl, hwrite]
    exact (h.still_withFaults l).trans (h₁.still_withFaults l')

/-- So does storing it in memory as well. -/
theorem Flaky.storeGroupDesc (h : V.Flaky n fs) (hgd : V.IsDesc g gd) :
    wp (Fs.storeGroupDesc g gd) (fun _ fs' ↦ V.Still n fs fs') fs := by
  unfold Fs.storeGroupDesc
  refine wp_seq (h.writeGroupDesc hgd) (fun _ h' ↦ h') fun _ fs₁ h₁ ↦ ?_
  have hgeom : (if g = 0 then { fs₁.sbi with sGroupDesc := some gd } else fs₁.sbi).toSbGeom =
      fs₁.sbi.toSbGeom := by split <;> rfl
  refine h₁.trans ⟨h₁.flaky.withSbi _ hgeom ?_, ?_, fun _ _ ↦ rfl⟩
  · split
    · rfl
    · exact h₁.flaky.groupDesc
  · simp only [Fs.modifySbi, modify_apply]
    split <;> exact ⟨rfl, rfl, rfl, rfl⟩

/-- Summing the counts only reads: an induction on the groups that are left. -/
theorem Flaky.sumFreeCounts : ∀ m g cur buf freeBlocks freeInodes (fs : Fs), V.Flaky n fs →
    wp (Fs.sumFreeCounts m g cur buf freeBlocks freeInodes) (fun _ fs' ↦ V.Still n fs fs') fs := by
  intro m
  induction m with
  | zero => exact fun g cur buf a b fs h ↦ .refl h
  | succ m ih =>
    intro g cur buf a b fs h
    unfold Fs.sumFreeCounts Fs.refillGdBuf
    rw [wp, get_bind]
    dsimp only
    split
    · exact ih _ _ _ _ _ _ h
    · split
      · obtain ⟨l, hread | hread⟩ := h.atomic.readBlock (fs.sbi.descLoc fs.sbi.sBlockSize g).1
        · rw [bind_of_eq_some hread]
          exact (h.still_withFaults l).trans (ih _ _ _ _ _ _ (h.withFaults l))
        · rw [bind_of_eq_none hread]
          exact h.still_withFaults l
      · rw [pure_bind']
        exact ih _ _ _ _ _ _ h

/-- Writing the superblock leaves the cache and the bitmaps. -/
theorem Flaky.syncSuperFreeCounts (h : V.Flaky n fs) :
    wp Fs.ext4SyncSuperFreeCounts (fun _ fs' ↦ V.Still n fs fs') fs := by
  have hbs : fs.sbi.sBlockSize = V.bs := congrArg SbGeom.sBlockSize h.geom
  have hsuper : (if fs.sbi.sBlockSize = 1024 then 1 else 0) = V.superBlock := by
    rw [hbs, Volume.superBlock]
  unfold Fs.ext4SyncSuperFreeCounts
  rw [wp, get_bind, guard_true h.groupDesc, pure_bind', hsuper]
  by_cases hpool : fs.sbi.sBlockSize ≤ 65536 ∧ 2 ≤ fs.superPool
  swap
  · rw [guard_false hpool, fail_bind]
    exact .refl h
  simp only [guard_true hpool, pure_bind']
  obtain ⟨l, hread | hread⟩ := h.atomic.readBlock V.superBlock
  swap
  · rw [bind_of_eq_none hread]
    exact h.still_withFaults l
  rw [bind_of_eq_some hread]
  have h₁ := h.still_withFaults l
  show wp _ (fun _ fs' ↦ V.Still n fs fs') _
  refine wp_seq (Flaky.sumFreeCounts _ _ _ _ _ _ _ h₁.flaky) (fun _ h₂ ↦ h₁.trans h₂)
    fun free fs₂ h₂ ↦ ?_
  replace h₂ := h₁.trans h₂
  rw [wp]
  generalize (((fs.block V.superBlock).setField _ Esb.sFreeBlocksCountLo _).setField _
    Esb.sFreeBlocksCountHi _).setField _ Esb.sFreeInodesCount _ = buf
  obtain ⟨l', hwrite | hwrite⟩ := h₂.flaky.atomic.writeBlock V.superBlock buf
  · obtain ⟨himage, hkept⟩ := h₂.flaky.toImage.put buf h.laid.superBlock_ne_desc fun g hg ↦
      (h.laid.blockBitmap_ne_super g hg).symm
    rw [hwrite]
    exact h₂.trans ⟨(h₂.flaky.put himage).withFaults l', ⟨rfl, rfl, rfl, rfl⟩, fun g hg ↦
      hkept.bitmap g hg⟩
  · rw [hwrite]
    exact h₂.trans (h₂.flaky.still_withFaults l')

/-- Counting a change never fails. -/
theorem Flaky.bgSync (h : V.Flaky n fs) :
    wp Fs.bgSync (fun r fs' ↦ r = some () ∧ V.Still n fs fs') fs := by
  set fs₁ : Fs := { fs with sbi := { fs.sbi with sBgSyncPending := u32 (fs.sbi.sBgSyncPending + 1) } }
    with hfs₁
  have h₁ : V.Still n fs fs₁ := ⟨h.withSbi _ rfl h.groupDesc, ⟨rfl, rfl, rfl, rfl⟩, fun _ _ ↦ rfl⟩
  unfold Fs.bgSync Fs.modifySbi
  rw [wp, modify_bind, get_bind, ← hfs₁]
  by_cases hbatch : fs₁.sbi.sBgSyncPending ≥ fs₁.bgSyncBatch
  · rw [if_pos hbatch, attempt_bind]
    have hsync : V.Still n fs₁ (Fs.ext4SyncSuperFreeCounts fs₁).2 := h₁.flaky.syncSuperFreeCounts
    have h₂ := h₁.trans hsync
    exact ⟨rfl, h₂.trans ⟨h₂.flaky.withSbi _ rfl h₂.flaky.groupDesc, ⟨rfl, rfl, rfl, rfl⟩,
      fun _ _ ↦ rfl⟩⟩
  · rw [if_neg hbatch]
    exact ⟨rfl, h₁⟩

/-! ### The cached bitmap -/

/-- A cache that is clean is the bitmap of its group on the device. -/
def CleanCache (V : Volume) (fs : Fs) : Prop :=
  fs.sbi.sBmapCacheValid = true → fs.sbi.sBmapCacheDirty = false →
    Buf.clip V.bs fs.sbi.sBmapCacheBuf = fs.block (V.blockBitmap fs.sbi.sBmapCacheGroup)

/-- What holds of the cache, but for a clean cache of group `g`: it is what the device has, and a dirty
one has every bit set that is set on the device. -/
structure SyncedBut (V : Volume) (n : ℕ) (except : ℕ → Prop) (fs : Fs) : Prop
    extends V.Flaky n fs where
  group : fs.sbi.sBmapCacheValid = true → V.Group fs.sbi.sBmapCacheGroup
  clean : fs.sbi.sBmapCacheValid = true → fs.sbi.sBmapCacheDirty = false →
    ¬ except fs.sbi.sBmapCacheGroup →
      Buf.clip V.bs fs.sbi.sBmapCacheBuf = fs.block (V.blockBitmap fs.sbi.sBmapCacheGroup)
  le : fs.sbi.sBmapCacheValid = true → ∀ j < 8 * V.bs,
    (fs.block (V.blockBitmap fs.sbi.sBmapCacheGroup)).bit j = true →
      fs.sbi.sBmapCacheBuf.bit j = true

/-- What holds of the cache between two calls. -/
abbrev Synced (V : Volume) (n : ℕ) (fs : Fs) : Prop := V.SyncedBut n (fun _ ↦ False) fs

theorem Synced.cleanCache (h : V.Synced n fs) : V.CleanCache fs := fun hv hd ↦ h.clean hv hd id

/-- A step that leaves cache and bitmaps leaves what is known of the cache. -/
theorem SyncedBut.still {except : ℕ → Prop} (h : V.SyncedBut n except fs) (h' : V.Still n fs fs') :
    V.SyncedBut n except fs' := by
  refine ⟨h'.flaky, fun hv ↦ ?_, fun hv hd hne ↦ ?_, fun hv j hj hbit ↦ ?_⟩
  · rw [h'.cache.group]
    exact h.group (h'.cache.valid ▸ hv)
  · have hg := h.group (h'.cache.valid ▸ hv)
    rw [h'.cache.group] at hne ⊢
    rw [h'.cache.buf, h'.bitmap _ hg]
    exact h.clean (h'.cache.valid ▸ hv) (h'.cache.dirty ▸ hd) hne
  · have hg := h.group (h'.cache.valid ▸ hv)
    rw [h'.cache.group, h'.bitmap _ hg] at hbit
    rw [h'.cache.buf]
    exact h.le (h'.cache.valid ▸ hv) j hj hbit

/-- No bit of a bitmap on the device was cleared. -/
def Grew (V : Volume) (fs fs' : Fs) : Prop :=
  ∀ g, V.Group g → ∀ j < 8 * V.bs, (fs.block (V.blockBitmap g)).bit j = true →
    (fs'.block (V.blockBitmap g)).bit j = true

theorem Grew.refl (fs : Fs) : V.Grew fs fs := fun _ _ _ _ h ↦ h

/-- What is set stays set over two steps. -/
theorem Grew.trans (h : V.Grew fs fs') (h' : V.Grew fs' fs'') : V.Grew fs fs'' :=
  fun g hg j hj hbit ↦ h' g hg j hj (h g hg j hj hbit)

theorem Still.grew (h : V.Still n fs fs') : V.Grew fs fs' := fun g hg j _ hbit ↦ by
  rwa [h.bitmap g hg]

/-- Storing the bitmap of one group. -/
theorem Flaky.putBitmap (h : V.Flaky n fs) (hg : V.Group g) (buf : Buf) (l : List Fault) :
    V.Flaky n ((fs.put (V.blockBitmap g) buf).withFaults l) ∧
      ((fs.put (V.blockBitmap g) buf).withFaults l).block (V.blockBitmap g) = Buf.clip V.bs buf ∧
      ∀ g', V.Group g' → g' ≠ g →
        ((fs.put (V.blockBitmap g) buf).withFaults l).block (V.blockBitmap g') =
          fs.block (V.blockBitmap g') := by
  obtain ⟨himage, hself, hother, -⟩ := h.toImage.putBitmap hg buf
  exact ⟨(h.put himage).withFaults l, hself, hother⟩

/-- What writing the cached bitmap back leaves. -/
structure FlushPost (V : Volume) (n : ℕ) (fs : Fs) (r : Option Unit) (fs' : Fs) : Prop where
  synced : V.Synced n fs'
  grew : V.Grew fs fs'
  valid : fs'.sbi.sBmapCacheValid = fs.sbi.sBmapCacheValid
  group : fs'.sbi.sBmapCacheGroup = fs.sbi.sBmapCacheGroup
  not_dirty : r = some () → fs'.sbi.sBmapCacheValid = true → fs'.sbi.sBmapCacheDirty = false

/-- A flush that fails before the write. -/
theorem Synced.flushPost_none (h : V.Synced n fs) (h' : V.Still n fs fs') :
    V.FlushPost n fs none fs' :=
  ⟨h.still h', h'.grew, h'.cache.valid, h'.cache.group, by simp⟩

/-- A flush that writes makes the cache clean: it is what the device has from then on. -/
theorem Synced.bmapCacheFlush (h : V.Synced n fs) : wp Fs.bmapCacheFlush (V.FlushPost n fs) fs := by
  unfold Fs.bmapCacheFlush
  rw [wp, get_bind]
  by_cases hdirty : (fs.sbi.sBmapCacheValid && fs.sbi.sBmapCacheDirty) = true
  swap
  · rw [if_neg hdirty]
    refine ⟨h, .refl fs, rfl, rfl, fun _ hv ↦ ?_⟩
    simpa [show fs.sbi.sBmapCacheValid = true from hv] using hdirty
  rw [if_pos hdirty]
  have hv : fs.sbi.sBmapCacheValid = true := by
    rw [Bool.and_eq_true] at hdirty
    exact hdirty.1
  have hg := h.group hv
  -- without the descriptor the cache stays dirty
  refine wp_seq (Q := V.FlushPost n fs) (h.toFlaky.readGroupDesc _)
    (fun _ hr ↦ h.flushPost_none hr.1) fun gd fs₁ hr ↦ ?_
  obtain ⟨h₁, hgd⟩ := hr
  have hdesc := (hgd gd rfl).2 hg.1
  rw [hdesc.blockBitmap]
  have hpos := h.laid.blockBitmap_pos _ hg
  unfold Fs.writeBlockBitmap
  rw [guard_true hpos, pure_bind', wp]
  -- the write is done or not done at all
  obtain ⟨l, hwrite | hwrite⟩ := h₁.flaky.atomic.writeBlock
    (V.blockBitmap fs.sbi.sBmapCacheGroup) fs.sbi.sBmapCacheBuf
  swap
  · rw [bind_of_eq_none hwrite]
    exact h.flushPost_none (h₁.trans (h₁.flaky.still_withFaults l))
  rw [bind_of_eq_some hwrite, Fs.modifySbi, modify_apply]
  obtain ⟨h₂, hself, hother⟩ := h₁.flaky.putBitmap hg fs.sbi.sBmapCacheBuf l
  set fs₂ := (fs₁.put (V.blockBitmap fs.sbi.sBmapCacheGroup) fs.sbi.sBmapCacheBuf).withFaults l
    with hfs₂
  have hgroup : fs₂.sbi.sBmapCacheGroup = fs.sbi.sBmapCacheGroup := h₁.cache.group
  have hbuf : fs₂.sbi.sBmapCacheBuf = fs.sbi.sBmapCacheBuf := h₁.cache.buf
  refine ⟨⟨h₂.withSbi _ rfl h₂.groupDesc, fun _ ↦ hgroup ▸ hg, fun _ _ _ ↦ ?_, fun _ j hj hbit ↦ ?_⟩,
    fun g hg' j hj hbit ↦ ?_, h₁.cache.valid, hgroup, fun _ _ ↦ rfl⟩
  · show Buf.clip V.bs fs₂.sbi.sBmapCacheBuf = fs₂.block (V.blockBitmap fs₂.sbi.sBmapCacheGroup)
    rw [hgroup, hbuf, hself]
  · replace hbit : (fs₂.block (V.blockBitmap fs₂.sbi.sBmapCacheGroup)).bit j = true := hbit
    show fs₂.sbi.sBmapCacheBuf.bit j = true
    rw [hgroup, hself, Buf.bit_clip _ hj] at hbit
    rw [hbuf, hbit]
  · -- what was set on the device is set in the cache
    show (fs₂.block (V.blockBitmap g)).bit j = true
    by_cases hne : g = fs.sbi.sBmapCacheGroup
    · rw [hne, hself, Buf.bit_clip _ hj]
      rw [hne] at hbit
      exact h.le hv j hj hbit
    · rw [hother g hg' hne, h₁.bitmap g hg']
      exact hbit

end Volume

/-! ### Where the cache goes wrong -/

namespace Fs

/-- A load of the bitmap of `group` fails after it has overwritten the bitmap of another group. -/
def TearsLoad (group : ℕ) (fs : Fs) : Prop :=
  fs.sbi.sBmapCacheValid = true ∧ fs.sbi.sBmapCacheGroup ≠ group ∧
    ∃ fs₁ gd fs₂ fs₃, bmapCacheFlush fs = (some (), fs₁) ∧ readGroupDesc group fs₁ = (some gd, fs₂) ∧
      gd.getField 0 Gd.bgBlockBitmapLo ≠ 0 ∧
      readBmapCache (gd.getField 0 Gd.bgBlockBitmapLo) fs₂ = (none, fs₃)

/-- An iteration of an allocation over group `g` tears the cache. -/
def TearsGroup (blocksPerGroup blocksCount g : ℕ) (fs : Fs) : Prop :=
  g * blocksPerGroup < blocksCount ∧ 1 < min blocksPerGroup (blocksCount - g * blocksPerGroup) ∧
    ∃ gd fs₁, readGroupDesc g fs = (some gd, fs₁) ∧ gd.getField 0 Gd.bgBlockBitmapLo ≠ 0 ∧
      fs₁.TearsLoad g

/-- A call of `ext4_new_blocks_in_group` tears the cache, in its first pass or in its second. -/
def TearsNew (goalLen preferredGroup : ℕ) (fs : Fs) : Prop :=
  MeetsNew (fun _ _ blocksPerGroup blocksCount _ g fs ↦ fs.TearsGroup blocksPerGroup blocksCount g)
    goalLen preferredGroup fs

/-- A call of `ext4_free_block` stops after it has written the bitmap of the group whose bitmap is
cached, before it drops the cache: the descriptor cannot be read or written. -/
def StopsBeforeDrop (blocknr : ℕ) (fs : Fs) : Prop :=
  fs.sbi.sBmapCacheValid = true ∧ fs.sbi.sBmapCacheDirty = false ∧
    fs.sbi.sBmapCacheGroup = blocknr / fs.sbi.sBlocksPerGroup ∧
    ∃ bitmap fs₁ fs₂, readBlockBitmap (blocknr / fs.sbi.sBlocksPerGroup) fs = (some bitmap, fs₁) ∧
      bitmap.2.bit (blocknr % fs.sbi.sBlocksPerGroup) = true ∧
      writeBlockBitmap bitmap.1 (bitmap.2.clearBit (blocknr % fs.sbi.sBlocksPerGroup)) fs₁ =
        (some (), fs₂) ∧
      ((readGroupDesc (blocknr / fs.sbi.sBlocksPerGroup) fs₂).1 = none ∨
        ∃ gd fs₃, readGroupDesc (blocknr / fs.sbi.sBlocksPerGroup) fs₂ = (some gd, fs₃) ∧
          (writeGroupDesc (blocknr / fs.sbi.sBlocksPerGroup) (Volume.raiseFree gd) fs₃).1 = none)

end Fs

namespace Volume

variable {V : Volume} {n g goalLen bpg bc gc : ℕ} {fs fs' fs'' : Fs} {gd : Buf}

/-! ### Loading and searching a bitmap -/

/-- What loading the bitmap of group `g` leaves. -/
structure LoadPost (V : Volume) (n g : ℕ) (fs : Fs) (r : Option Buf) (fs' : Fs) : Prop where
  synced : V.Synced n fs'
  grew : V.Grew fs fs'
  isDesc : ∀ gd, r = some gd → V.IsDesc g gd
  valid : r.isSome → fs'.sbi.sBmapCacheValid = true
  group : r.isSome → fs'.sbi.sBmapCacheGroup = g

/-- A load that does not tear the cache keeps it in step with the device. -/
theorem Synced.bmapCacheLoad (h : V.Synced n fs) (hgd : V.IsDesc g gd) (hsafe : ¬ fs.TearsLoad g) :
    wp (Fs.bmapCacheLoad g gd) (V.LoadPost n g fs) fs := by
  have hnone : ∀ {fs'}, V.Synced n fs' → V.Grew fs fs' → V.LoadPost n g fs none fs' := fun h' hgrew ↦
    ⟨h', hgrew, by simp, by simp, by simp⟩
  unfold Fs.bmapCacheLoad
  rw [wp, get_bind]
  by_cases hhit : (fs.sbi.sBmapCacheValid && fs.sbi.sBmapCacheGroup == g) = true
  · rw [if_pos hhit]
    simp only [Bool.and_eq_true, beq_iff_eq] at hhit
    exact ⟨h, .refl fs, fun gd' hgd' ↦ Option.some.inj hgd' ▸ hgd, fun _ ↦ hhit.1, fun _ ↦ hhit.2⟩
  rw [if_neg hhit]
  -- a dirty bitmap is written first; from then on the cache is clean
  rcases hflush : Fs.bmapCacheFlush fs with ⟨_ | _, fs₁⟩
  · have hpost := h.bmapCacheFlush
    rw [wp_of_eq hflush] at hpost
    rw [bind_of_eq_none hflush]
    exact hnone hpost.synced hpost.grew
  have hpost := h.bmapCacheFlush
  rw [wp_of_eq hflush] at hpost
  have h₁ := hpost.synced
  rw [bind_of_eq_some hflush]
  rcases hread : Fs.readGroupDesc g fs₁ with ⟨_ | gd₁, fs₂⟩
  · have hpost₂ := h₁.toFlaky.readGroupDesc g
    rw [wp_of_eq hread] at hpost₂
    rw [bind_of_eq_none hread]
    exact hnone (h₁.still hpost₂.1) (hpost.grew.trans hpost₂.1.grew)
  have hpost₂ := h₁.toFlaky.readGroupDesc g
  rw [wp_of_eq hread] at hpost₂
  have hdesc := (hpost₂.2 gd₁ rfl).2 hgd.group.1
  have h₂ := h₁.still hpost₂.1
  have hgrew := hpost.grew.trans hpost₂.1.grew
  have hpos := h.laid.blockBitmap_pos g hgd.group
  have hptr : gd₁.getField 0 Gd.bgBlockBitmapLo ≠ 0 := by rwa [hdesc.blockBitmap]
  rw [bind_of_eq_some hread, guard_true hptr, pure_bind']
  -- the read goes into the buffer of the cache, whether it succeeds or not
  obtain ⟨l, hinto | ⟨buf, hinto⟩⟩ := BlockDevice.Atomic.readInto h₂.atomic
    (gd₁.getField 0 Gd.bgBlockBitmapLo) fs₂.sbi.sBmapCacheBuf
  · -- the bitmap is in the buffer
    set buf := fs₂.sbi.sBmapCacheBuf.blit 0
      (fs₂.dev.block fs₂.blockSize (gd₁.getField 0 Gd.bgBlockBitmapLo)) 0 fs₂.blockSize with hbuf
    have hclip : Buf.clip V.bs buf = fs₂.block (V.blockBitmap g) := by
      have hsize := h₂.blockSize
      funext i
      rw [hbuf, hdesc.blockBitmap, ← hsize]
      by_cases hi : i < fs₂.blockSize
      · rw [Buf.clip_of_lt _ hi, Buf.blit_in (by omega) (by omega)]
        simp [Fs.block]
      · rw [Buf.clip_of_le _ (by omega), Fs.block, BlockDevice.block, Buf.clip_of_le _ (by omega)]
    have hload : Fs.readBmapCache (gd₁.getField 0 Gd.bgBlockBitmapLo) fs₂ =
        (some (), { fs₂.withFaults l with sbi := { fs₂.sbi with sBmapCacheBuf := buf } }) := by
      simp only [Fs.readBmapCache, hinto]
      rfl
    rw [bind_of_eq_some hload, Fs.modifySbi, modify_bind]
    refine ⟨⟨(h₂.toFlaky.withFaults l).withSbi _ rfl h₂.groupDesc, fun _ ↦ hgd.group,
      fun _ _ _ ↦ hclip, fun _ j hj hbit ↦ ?_⟩, hgrew, fun gd' hgd' ↦ Option.some.inj hgd' ▸ hdesc,
      fun _ ↦ rfl, fun _ ↦ rfl⟩
    replace hbit : (fs₂.block (V.blockBitmap g)).bit j = true := hbit
    rwa [← hclip, Buf.bit_clip _ hj] at hbit
  · -- the buffer is lost: there was nothing in it
    have hload : Fs.readBmapCache (gd₁.getField 0 Gd.bgBlockBitmapLo) fs₂ =
        (none, { fs₂.withFaults l with sbi := { fs₂.sbi with sBmapCacheBuf := buf } }) := by
      simp only [Fs.readBmapCache, hinto]
      rfl
    have hvalid : fs₂.sbi.sBmapCacheValid ≠ true := by
      intro hv
      rw [hpost₂.1.cache.valid, hpost.valid] at hv
      have hne : fs.sbi.sBmapCacheGroup ≠ g := fun heq ↦ hhit (by simp [hv, heq])
      exact hsafe ⟨hv, hne, fs₁, gd₁, fs₂, _, hflush, hread, hptr, hload⟩
    rw [bind_of_eq_none hload]
    exact hnone ⟨(h₂.toFlaky.withFaults l).withSbi _ rfl h₂.groupDesc, fun hv ↦ absurd hv hvalid,
      fun hv ↦ absurd hv hvalid, fun hv ↦ absurd hv hvalid⟩ hgrew

/-- The blocks `[b, b + len)` were free on the device. -/
def WereFree (V : Volume) (blocksPerGroup : ℕ) (fs : Fs) (b len : ℕ) : Prop :=
  ∃ g i, V.Group g ∧ b = g * blocksPerGroup + i ∧ 0 < len ∧ i + len ≤ 8 * V.bs ∧
    ∀ j, i ≤ j → j < i + len → (fs.block (V.blockBitmap g)).bit j = false

/-- What is clear after bits were set was clear before. -/
theorem Grew.wereFree (h : V.Grew fs fs') {b len : ℕ} {i : ℕ} (hg : V.Group g)
    (hb : b = g * bpg + i) (hlen : 0 < len) (hend : i + len ≤ 8 * V.bs)
    (hfree : ∀ j, i ≤ j → j < i + len → (fs'.block (V.blockBitmap g)).bit j = false) :
    V.WereFree bpg fs b len := by
  refine ⟨g, i, hg, hb, hlen, hend, fun j hj hj' ↦ ?_⟩
  by_contra hset
  have := h g hg j (by omega) (by simpa using hset)
  rw [hfree j hj hj'] at this
  simp at this

/-- A clear run of the cached bitmap is free on the device: what is set there is set in the cache. -/
theorem Synced.wereFree (h : V.Synced n fs) (hg : V.Group g) (hv : fs.sbi.sBmapCacheValid = true)
    (hgroup : fs.sbi.sBmapCacheGroup = g) {groupBlocks i l : ℕ} (hl : 0 < l)
    (hrun : ClearRun fs.sbi.sBmapCacheBuf 1 groupBlocks i l) (hbits : groupBlocks ≤ V.bs * 8) :
    V.WereFree bpg fs (g * bpg + i) l := by
  have hend := hrun.le_hi
  refine ⟨g, i, hg, rfl, hl, by omega, fun j hj hj' ↦ ?_⟩
  by_contra hset
  have := h.le hv j (by omega) (by rw [hgroup]; simpa using hset)
  rw [hrun.clear j hj hj'] at this
  simp at this

/-- A cached bitmap in which more bits are set, to be written back. -/
theorem Synced.setRun (h : V.Synced n fs) (i l : ℕ) : V.Synced n (fs.setRun i l).setDirty := by
  refine ⟨h.toFlaky.withSbi _ rfl h.groupDesc, h.group, fun _ hd ↦ absurd hd (by simp [Fs.setDirty]),
    fun hv j hj hbit ↦ ?_⟩
  show (fs.sbi.sBmapCacheBuf.setBits i (i + l)).bit j = true
  rw [Buf.bit_setBits, h.le hv j hj hbit, Bool.true_or]

/-- Moving the cursors changes neither the cache nor the device. -/
theorem Flaky.still_advanceGoal (h : V.Flaky n fs) (g nextBit groupBlocks gc : ℕ) :
    V.Still n fs { fs with sbi := fs.sbi.advanceGoal g nextBit groupBlocks gc } := by
  obtain ⟨hgeom, hgdesc, hvalid, hcg, hcd, hcb⟩ := fs.sbi.advanceGoal_keeps g nextBit groupBlocks gc
  exact ⟨h.withSbi _ hgeom (by rw [hgdesc]; exact h.groupDesc), ⟨hvalid, hcg, hcd, hcb⟩,
    fun _ _ ↦ rfl⟩

/-- Marking a run that fits. -/
theorem Synced.markRun (h : V.Synced n fs) (hgd : V.IsDesc g gd) {start groupBlocks i l : ℕ}
    (hfits : Fs.RunFits bc start i l) :
    wp (Fs.markRun bc gc g start groupBlocks i l gd) (fun _ fs' ↦ V.Synced n fs' ∧ V.Grew fs fs')
      fs := by
  have hgrew : V.Grew fs (fs.setRun i l).setDirty := .refl fs
  have hflushed : ∀ {r fs₁}, Fs.bmapCacheFlush (fs.setRun i l).setDirty = (r, fs₁) →
      V.Synced n fs₁ ∧ V.Grew fs fs₁ := fun hrun ↦ by
    have hpost := (h.setRun i l).bmapCacheFlush
    rw [wp_of_eq hrun] at hpost
    exact ⟨hpost.synced, hgrew.trans hpost.grew⟩
  have hstored : ∀ {r fs₁ fs₂}, V.Synced n fs₁ ∧ V.Grew fs fs₁ →
      Fs.storeGroupDesc g (lowerFree gd l) fs₁ = (r, fs₂) → V.Synced n fs₂ ∧ V.Grew fs fs₂ := by
    rintro r fs₁ fs₂ ⟨h₁, hgrew₁⟩ hrun
    have hpost : wp (Fs.storeGroupDesc g (lowerFree gd l)) (fun _ fs' ↦ V.Still n fs₁ fs') fs₁ :=
      h₁.toFlaky.storeGroupDesc (hgd.setFree h.laid _)
    rw [wp_of_eq hrun] at hpost
    exact ⟨h₁.still hpost, hgrew₁.trans hpost.grew⟩
  refine wp_mono (Fs.wp_markRun bc gc g start groupBlocks i l gd fs) fun r fs' hmarks ↦ ?_
  cases hmarks with
  | outside hno => exact absurd hfits hno
  | noFlush _ hflush => exact hflushed hflush
  | noStore _ hflush hstore => exact hstored (hflushed hflush) hstore
  | marked _ hflush hstore =>
    obtain ⟨h₂, hgrew₂⟩ := hstored (hflushed hflush) hstore
    have h₃ := h₂.toFlaky.still_advanceGoal g (u32 (i + l)) groupBlocks gc
    exact ⟨h₂.still h₃, hgrew₂.trans h₃.grew⟩

/-- What searching the groups leaves. -/
structure SearchPost (V : Volume) (n bpg : ℕ) (fs : Fs) (r : Option (Option (ℕ × ℕ))) (fs' : Fs) :
    Prop where
  synced : V.Synced n fs'
  grew : V.Grew fs fs'
  free : ∀ b len, r = some (some (b, len)) → V.WereFree bpg fs b len

/-- Blocks that are free after bits were set were free before. -/
theorem WereFree.of_grew (hgrew : V.Grew fs fs') {b len : ℕ} (h : V.WereFree bpg fs' b len) :
    V.WereFree bpg fs b len := by
  obtain ⟨g, i, hg, hb, hlen, hend, hfree⟩ := h
  exact hgrew.wereFree hg hb hlen hend hfree

/-- An iteration that does not tear the cache works on what the device has. -/
theorem Synced.tryGroup (h : V.Synced n fs)
    (hgeom : V.bs ≤ blockSizeDefault → V.GroupGeom bpg bc gc) (hg : g < gc) (hgoal : 0 < goalLen)
    (requireFullGoal : Bool) (hsafe : ¬ fs.TearsGroup bpg bc g) :
    wp (Fs.tryGroup goalLen requireFullGoal bpg bc gc g) (V.SearchPost n bpg fs) fs := by
  have hskip : ∀ {fs'}, V.Synced n fs' → V.Grew fs fs' → V.SearchPost n bpg fs (some none) fs' :=
    fun h' hgrew ↦ ⟨h', hgrew, by simp⟩
  have hread : ∀ {r fs₁}, Fs.readGroupDesc g fs = (r, fs₁) → V.Still n fs fs₁ ∧
      ∀ gd, r = some gd → V.IsDesc g gd ∧ V.GroupGeom bpg bc gc := fun hrun ↦ by
    have hpost := h.toFlaky.readGroupDesc g
    rw [wp_of_eq hrun] at hpost
    refine ⟨hpost.1, fun gd hgd ↦ ?_⟩
    obtain ⟨hbs, hdesc⟩ := hpost.2 gd hgd
    exact ⟨hdesc (lt_of_lt_of_le hg (hgeom hbs).groups_le), hgeom hbs⟩
  have hloaded : ∀ {gd fs₁ r fs₂}, Fs.LooksAt bpg bc g → Fs.readGroupDesc g fs = (some gd, fs₁) →
      gd.getField 0 Gd.bgBlockBitmapLo ≠ 0 → Fs.bmapCacheLoad g gd fs₁ = (r, fs₂) →
        V.LoadPost n g fs₁ r fs₂ := fun hlooks hrun hblock hload ↦ by
    obtain ⟨h₁, hgd⟩ := hread hrun
    obtain ⟨hdesc, hgeom⟩ := hgd _ rfl
    have hpost := Synced.bmapCacheLoad (h.still h₁) hdesc fun htears ↦
      hsafe ⟨hgeom.mul_lt hg, hgeom.groupBits_eq hg ▸ hlooks.2, _, _, hrun, hblock, htears⟩
    rwa [wp_of_eq hload] at hpost
  -- what is marked was free on the device
  have hmarked : ∀ {gd gd' fs₁ fs₂ r fs₃ i len}, Fs.LooksAt bpg bc g →
      Fs.readGroupDesc g fs = (some gd, fs₁) → gd.getField 0 Gd.bgBlockBitmapLo ≠ 0 →
      Fs.bmapCacheLoad g gd fs₁ = (some gd', fs₂) →
      fs₂.scanGroup g (Fs.groupBits bpg bc g) goalLen requireFullGoal = (true, i, len) →
      Fs.markRun bc gc g (u32 (g * bpg)) (Fs.groupBits bpg bc g) i len gd' fs₂ = (r, fs₃) →
        V.Synced n fs₃ ∧ V.Grew fs fs₃ ∧ V.WereFree bpg fs (u32 (u32 (g * bpg) + i)) len := by
    intro gd gd' fs₁ fs₂ r fs₃ i len hlooks hrun hblock hload hfound hmark
    have hpost := hloaded hlooks hrun hblock hload
    have hgrew := (hread hrun).1.grew.trans hpost.grew
    have hgeom := ((hread hrun).2 _ rfl).2
    have hdesc := hpost.isDesc _ rfl
    obtain ⟨hl, -, hclear⟩ := Fs.clearRun_of_scanGroup hgoal hlooks.2 hfound
    obtain ⟨hfits, hstart⟩ := hgeom.runFits hg hl hclear
    have hmarked : wp (Fs.markRun bc gc g (u32 (g * bpg)) (Fs.groupBits bpg bc g) i len gd')
      (fun _ fs' ↦ V.Synced n fs' ∧ V.Grew fs₂ fs') fs₂ := hpost.synced.markRun hdesc hfits
    rw [wp_of_eq hmark] at hmarked
    have hwere : V.WereFree bpg fs₂ (g * bpg + i) len := hpost.synced.wereFree hdesc.group
      (hpost.valid rfl) (hpost.group rfl) hl hclear (hgeom.groupBits_le hg).1
    rw [hstart]
    exact ⟨hmarked.1, hgrew.trans hmarked.2, hwere.of_grew hgrew⟩
  refine wp_mono (Fs.wp_tryGroup goalLen requireFullGoal bpg bc gc g fs) fun r fs' htries ↦ ?_
  cases htries with
  | skip _ => exact hskip h (.refl fs)
  | noDesc _ hrun | noBitmap _ hrun _ => exact hskip (h.still (hread hrun).1) (hread hrun).1.grew
  | noLoad hlooks hrun hblock hload | noRun hlooks hrun hblock hload _ =>
    have hpost := hloaded hlooks hrun hblock hload
    exact hskip hpost.synced ((hread hrun).1.grew.trans hpost.grew)
  | noMark hlooks hrun hblock hload hfound hmark =>
    obtain ⟨h₃, hgrew, -⟩ := hmarked hlooks hrun hblock hload hfound hmark
    exact ⟨h₃, hgrew, by simp⟩
  | took hlooks hrun hblock hload hfound hmark =>
    obtain ⟨h₃, hgrew, hwere⟩ := hmarked hlooks hrun hblock hload hfound hmark
    have hsync := h₃.toFlaky.bgSync.2
    refine ⟨h₃.still hsync, hgrew.trans hsync.grew, fun b len hr ↦ ?_⟩
    obtain ⟨rfl, rfl⟩ := Prod.mk.inj (Option.some.inj (Option.some.inj hr))
    exact hwere

/-- What an allocation leaves. -/
structure NewSafePost (V : Volume) (n : ℕ) (fs : Fs) (r : Option (ℕ × ℕ)) (fs' : Fs) : Prop where
  synced : V.Synced n fs'
  free : ∀ b len, r = some (b, len) →
    ∃ geom, fs.allocGeometry = some geom ∧ V.WereFree geom.1 fs b len

/-- An allocation that does not tear the cache takes blocks that are free on the device. -/
theorem Synced.newBlocks (h : V.Synced n fs) {goalLen preferredGroup : ℕ}
    (hsafe : ¬ fs.TearsNew goalLen preferredGroup) :
    wp (Fs.ext4NewBlocksInGroup goalLen preferredGroup) (V.NewSafePost n fs) fs := by
  rcases hgeom : fs.allocGeometry with _ | ⟨bpg, bc, gc⟩
  · rw [wp, Fs.newBlocks_of_geometry_none h.groupDesc hgeom]
    exact ⟨h, by simp⟩
  have hgeom' : V.bs ≤ blockSizeDefault → V.GroupGeom bpg bc gc := fun hbs ↦
    h.toImage.allocGeometry hbs hgeom
  have hlt := fs.startGroup_lt preferredGroup (Fs.groupsCount_pos_of_allocGeometry hgeom)
  refine Fs.wp_newBlocks (I := fun _ _ fs' ↦ V.Synced n fs' ∧ V.Grew fs fs') h.groupDesc hgeom hsafe
    ⟨h, .refl fs⟩ ?_ (fun _ _ hI ↦ hI) fun fs' hI ↦ ⟨hI.1, by simp⟩
  rintro full k fs' hk ⟨h', hgrew⟩ hbad
  refine wp_mono (h'.tryGroup hgeom' (visit_lt hlt hk) (by omega) full hbad) fun r fs'' hpost ↦ ?_
  split
  · exact ⟨hpost.synced, hgrew.trans hpost.grew⟩
  · refine ⟨hpost.synced, fun b len hr ↦ ⟨_, hgeom, (hpost.free b len ?_).of_grew hgrew⟩⟩
    rwa [Option.join_eq_some_iff] at hr

/-! ### Freeing and flushing -/

/-- Reading a bitmap leaves the cache. -/
theorem Flaky.readBlockBitmap (h : V.Flaky n fs) (g : ℕ) :
    wp (Fs.readBlockBitmap g) (fun r fs' ↦ V.Still n fs fs' ∧ ∀ b buf, r = some (b, buf) →
      V.Group g ∧ b = V.blockBitmap g ∧ buf = fs.block (V.blockBitmap g)) fs := by
  have hgroups : fs.sbi.sGroupsCount = V.groups := congrArg SbGeom.sGroupsCount h.geom
  have hnone : ∀ {fs'}, V.Still n fs fs' → V.Still n fs fs' ∧
      ∀ b buf, (none : Option (ℕ × Buf)) = some (b, buf) →
        V.Group g ∧ b = V.blockBitmap g ∧ buf = fs.block (V.blockBitmap g) := fun h' ↦ ⟨h', by simp⟩
  unfold Fs.readBlockBitmap
  rw [wp, get_bind, hgroups]
  by_cases hg : g < V.groups
  swap
  · rw [guard_false hg, fail_bind]
    exact hnone (.refl h)
  rw [guard_true hg, pure_bind']
  refine wp_seq (Q := fun r fs' ↦ V.Still n fs fs' ∧ ∀ b buf, r = some (b, buf) →
    V.Group g ∧ b = V.blockBitmap g ∧ buf = fs.block (V.blockBitmap g)) (h.readGroupDesc g)
    (fun _ hr ↦ hnone hr.1) fun gd fs₁ hr ↦ ?_
  obtain ⟨h₁, hgd⟩ := hr
  have hdesc := (hgd gd rfl).2 hg
  dsimp only
  rw [hdesc.blockBitmap, wp]
  obtain ⟨l, hread | hread⟩ := h₁.flaky.atomic.readBlock (V.blockBitmap g)
  swap
  · rw [bind_of_eq_none hread]
    exact hnone (h₁.trans (h₁.flaky.still_withFaults l))
  rw [bind_of_eq_some hread, guard_true (h.laid.blockBitmap_pos g hdesc.group), pure_bind']
  refine ⟨h₁.trans (h₁.flaky.still_withFaults l), fun b buf hb ↦ ?_⟩
  obtain ⟨rfl, rfl⟩ := Prod.mk.inj (Option.some.inj hb)
  exact ⟨hdesc.group, rfl, h₁.bitmap g hdesc.group⟩

/-- Writing a bitmap stores it or fails and stores nothing. -/
theorem Flaky.writeBlockBitmap (h : V.Flaky n fs) (hg : V.Group g) (buf : Buf) : ∃ l,
    Fs.writeBlockBitmap (V.blockBitmap g) buf fs =
        (some (), (fs.put (V.blockBitmap g) buf).withFaults l) ∨
      Fs.writeBlockBitmap (V.blockBitmap g) buf fs = (none, fs.withFaults l) := by
  unfold Fs.writeBlockBitmap
  rw [guard_true (h.laid.blockBitmap_pos g hg), pure_bind']
  exact h.atomic.writeBlock _ _

/-- The exception is no more, once the cache is not a clean one of that group. -/
theorem SyncedBut.synced (h : V.SyncedBut n (· = g) fs)
    (hne : ¬ (fs.sbi.sBmapCacheValid = true ∧ fs.sbi.sBmapCacheDirty = false ∧
      fs.sbi.sBmapCacheGroup = g)) : V.Synced n fs :=
  ⟨h.toFlaky, h.group, fun hv hd _ ↦ h.clean hv hd fun hg ↦ hne ⟨hv, hd, hg⟩, h.le⟩

/-- Once the cache of the group is dropped there is no exception left. -/
theorem SyncedBut.dropBmapCache (h : V.SyncedBut n (· = g) fs) :
    V.Synced n { fs with sbi := fs.sbi.dropBmapCache g } := by
  obtain ⟨hgeom, hgd⟩ := fs.sbi.dropBmapCache_keeps g
  have hkeep : (fs.sbi.dropBmapCache g).sBmapCacheValid = true →
      fs.sbi.dropBmapCache g = fs.sbi ∧ fs.sbi.sBmapCacheGroup ≠ g :=
    SbInfo.eq_of_dropBmapCache_valid
  refine ⟨h.toFlaky.withSbi _ hgeom (by rw [hgd]; exact h.groupDesc), fun hv ↦ ?_,
    fun hv hd _ ↦ ?_, fun hv ↦ ?_⟩
  all_goals
    obtain ⟨heq, hne⟩ := hkeep hv
    simp only [heq] at *
  · exact h.group hv
  · exact h.clean hv hd hne
  · exact h.le hv

/-- Clearing a bit of a bitmap on the device. A clean cache of that group, if there is one, has the bit
still set. -/
theorem Synced.writeCleared (h : V.Synced n fs) (hg : V.Group g) (i : ℕ) :
    wp (Fs.writeBlockBitmap (V.blockBitmap g) ((fs.block (V.blockBitmap g)).clearBit i))
      (fun r fs' ↦ SameCache fs fs' ∧ (r = none → V.Synced n fs') ∧
        (r = some () → V.SyncedBut n (· = g) fs')) fs := by
  set cleared := (fs.block (V.blockBitmap g)).clearBit i with hcleared
  obtain ⟨l, hwrite | hwrite⟩ := h.toFlaky.writeBlockBitmap hg cleared
  · rw [wp_of_eq hwrite]
    obtain ⟨hflaky, hself, hother⟩ := h.toFlaky.putBitmap hg cleared l
    refine ⟨⟨rfl, rfl, rfl, rfl⟩, by simp, fun _ ↦ ⟨hflaky, h.group, fun hv hd hne ↦ ?_,
      fun hv j hj hbit ↦ ?_⟩⟩
    · rw [hother ((fs.put (V.blockBitmap g) cleared).withFaults l).sbi.sBmapCacheGroup (h.group hv) hne]
      exact h.clean hv hd id
    · refine h.le hv j hj ?_
      replace hbit : (((fs.put (V.blockBitmap g) cleared).withFaults l).block
        (V.blockBitmap fs.sbi.sBmapCacheGroup)).bit j = true := hbit
      by_cases heq : fs.sbi.sBmapCacheGroup = g
      · rw [heq, hself, Buf.bit_clip _ hj, hcleared, Buf.bit_clearBit, Bool.and_eq_true] at hbit
        rw [heq]
        exact hbit.1
      · rwa [hother _ (h.group hv) heq] at hbit
  · rw [wp_of_eq hwrite]
    exact ⟨⟨rfl, rfl, rfl, rfl⟩, fun _ ↦ SyncedBut.still h (h.toFlaky.still_withFaults l), by simp⟩

/-- Storing a descriptor fails where writing it does. -/
theorem writeGroupDesc_of_storeGroupDesc (hstore : Fs.storeGroupDesc g gd fs = (none, fs')) :
    (Fs.writeGroupDesc g gd fs).1 = none := by
  unfold Fs.storeGroupDesc at hstore
  rcases hwrite : Fs.writeGroupDesc g gd fs with ⟨_ | _, fs₁⟩
  · rfl
  · rw [bind_of_eq_some hwrite, Fs.modifySbi, modify_apply] at hstore
    simp at hstore

/-- A release that gets as far as dropping the cache, or has none to drop, keeps it in step with the
device. -/
theorem Synced.freeBlock (h : V.Synced n fs) {blocknr : ℕ} (hsafe : ¬ fs.StopsBeforeDrop blocknr) :
    wp (Fs.ext4FreeBlock blocknr) (fun _ fs' ↦ V.Synced n fs') fs := by
  unfold Fs.StopsBeforeDrop at hsafe
  have hfrees := Fs.wp_freeBlock h.groupDesc blocknr
  generalize blocknr / fs.sbi.sBlocksPerGroup = g at hsafe hfrees
  generalize blocknr % fs.sbi.sBlocksPerGroup = i at hsafe hfrees
  have hread : ∀ {r fs₁}, Fs.readBlockBitmap g fs = (r, fs₁) → V.Still n fs fs₁ ∧
      ∀ bitmap, r = some bitmap → V.Group g ∧ bitmap = (V.blockBitmap g, fs₁.block (V.blockBitmap g)) :=
    fun hrun ↦ by
      have hpost := h.toFlaky.readBlockBitmap g
      rw [wp_of_eq hrun] at hpost
      refine ⟨hpost.1, fun bitmap hbitmap ↦ ?_⟩
      obtain ⟨hg, hblock, hbuf⟩ := hpost.2 bitmap.1 bitmap.2 hbitmap
      exact ⟨hg, Prod.ext hblock (hbuf.trans (hpost.1.bitmap g hg).symm)⟩
  have hwritten : ∀ {bitmap fs₁ r fs₂}, fs.ReadsBit g i bitmap fs₁ →
      Fs.writeBlockBitmap bitmap.1 (bitmap.2.clearBit i) fs₁ = (r, fs₂) → V.Group g ∧ SameCache fs fs₂ ∧
        (r = none → V.Synced n fs₂) ∧ (r = some () → V.SyncedBut n (· = g) fs₂) := fun hreads hrun ↦ by
    obtain ⟨h₁, hbitmap⟩ := hread hreads.read
    obtain ⟨hg, rfl⟩ := hbitmap _ rfl
    have hpost := Synced.writeCleared (SyncedBut.still h h₁) hg i
    rw [wp_of_eq hrun] at hpost
    exact ⟨hg, h₁.cache.trans hpost.1, hpost.2⟩
  have hdesc : ∀ {fs₂ r fs₃}, V.Group g → V.Flaky n fs₂ → Fs.readGroupDesc g fs₂ = (r, fs₃) →
      V.Still n fs₂ fs₃ ∧ ∀ gd, r = some gd → V.IsDesc g (raiseFree gd) := fun hg h₂ hrun ↦ by
    have hpost := h₂.readGroupDesc g
    rw [wp_of_eq hrun] at hpost
    exact ⟨hpost.1, fun gd hgd ↦ ((hpost.2 gd hgd).2 hg.1).setFree h.laid _⟩
  -- a call that stops here has no clean bitmap of the group in the cache
  have hstop : ∀ {bitmap fs₁ fs₂ fs'}, fs.ReadsBit g i bitmap fs₁ → bitmap.2.bit i = true →
      Fs.writeBlockBitmap bitmap.1 (bitmap.2.clearBit i) fs₁ = (some (), fs₂) → V.Still n fs₂ fs' →
      ((Fs.readGroupDesc g fs₂).1 = none ∨ ∃ gd fs₃, Fs.readGroupDesc g fs₂ = (some gd, fs₃) ∧
        (Fs.writeGroupDesc g (raiseFree gd) fs₃).1 = none) → V.Synced n fs' := by
    intro bitmap fs₁ fs₂ fs' hreads hbit hwrite h' hfail
    obtain ⟨-, hcache, -, h₂⟩ := hwritten hreads hwrite
    refine ((h₂ rfl).still h').synced fun hclean ↦ hsafe ?_
    obtain ⟨hv, hd, hg'⟩ := hclean
    have hcache' := hcache.trans h'.cache
    exact ⟨hcache'.valid ▸ hv, hcache'.dirty ▸ hd, hcache'.group ▸ hg', _, fs₁, fs₂, hreads.read, hbit,
      hwrite, hfail⟩
  refine wp_mono hfrees fun r fs' hfrees ↦ ?_
  cases hfrees with
  | refuse _ => exact h
  | noBitmap _ hrun | outside _ hrun _ => exact SyncedBut.still h (hread hrun).1
  | clear hreads _ => exact SyncedBut.still h (hread hreads.read).1
  | noWrite hreads _ hwrite => exact (hwritten hreads hwrite).2.2.1 rfl
  | noDesc hreads hbit hwrite hrun =>
    obtain ⟨hg, -, -, h₂⟩ := hwritten hreads hwrite
    exact hstop hreads hbit hwrite (hdesc hg (h₂ rfl).toFlaky hrun).1 (.inl (by rw [hrun]))
  | noStore hreads hbit hwrite hrun hstore =>
    obtain ⟨hg, -, -, h₂⟩ := hwritten hreads hwrite
    obtain ⟨h₃, hgd⟩ := hdesc hg (h₂ rfl).toFlaky hrun
    have h₄ := h₃.flaky.storeGroupDesc (hgd _ rfl)
    rw [wp_of_eq hstore] at h₄
    exact hstop hreads hbit hwrite (h₃.trans h₄)
      (.inr ⟨_, _, hrun, writeGroupDesc_of_storeGroupDesc hstore⟩)
  | freed hreads _ hwrite hrun hstore =>
    obtain ⟨hg, -, -, h₂⟩ := hwritten hreads hwrite
    obtain ⟨h₃, hgd⟩ := hdesc hg (h₂ rfl).toFlaky hrun
    have h₄ := h₃.flaky.storeGroupDesc (hgd _ rfl)
    rw [wp_of_eq hstore] at h₄
    exact ((h₂ rfl).still (h₃.trans (h₄.trans h₄.flaky.bgSync.2))).dropBmapCache

/-- A flush of the allocator keeps the cache in step. -/
theorem Synced.ballocFlush (h : V.Synced n fs) :
    wp Fs.ext4BallocFlush (fun _ fs' ↦ V.Synced n fs') fs := by
  unfold Fs.ext4BallocFlush
  refine wp_seq h.bmapCacheFlush (fun _ h' ↦ h'.synced) fun _ fs₁ h₁ ↦ ?_
  rw [wp, get_bind]
  split
  · refine wp_seq (Q := fun _ fs' ↦ V.Synced n fs') h₁.synced.toFlaky.syncSuperFreeCounts
      (fun _ h₂ ↦ SyncedBut.still h₁.synced h₂) fun _ fs₂ h₂ ↦ ?_
    exact SyncedBut.still h₁.synced
      (h₂.trans ⟨h₂.flaky.withSbi _ rfl h₂.flaky.groupDesc, ⟨rfl, rfl, rfl, rfl⟩, fun _ _ ↦ rfl⟩)
  · exact h₁.synced

end Volume

/-! ### Runs -/

namespace Fs

/-- One call of the block allocator, whatever it returns. -/
inductive BallocStep : Fs → Fs → Prop
  | newBlocks (goalLen preferredGroup : ℕ) (fs : Fs) :
      BallocStep fs (fs.ext4NewBlocksInGroup goalLen preferredGroup).2
  | freeBlock (blocknr : ℕ) (fs : Fs) : BallocStep fs (fs.ext4FreeBlock blocknr).2
  | ballocFlush (fs : Fs) : BallocStep fs fs.ext4BallocFlush.2

/-- One call whose failures, if any, are not where the cache goes wrong. -/
inductive SafeStep : Fs → Fs → Prop
  | newBlocks {goalLen preferredGroup : ℕ} {fs : Fs} (hsafe : ¬ fs.TearsNew goalLen preferredGroup) :
      SafeStep fs (fs.ext4NewBlocksInGroup goalLen preferredGroup).2
  | freeBlock {blocknr : ℕ} {fs : Fs} (hsafe : ¬ fs.StopsBeforeDrop blocknr) :
      SafeStep fs (fs.ext4FreeBlock blocknr).2
  | ballocFlush (fs : Fs) : SafeStep fs fs.ext4BallocFlush.2

end Fs

namespace Volume

variable {V : Volume} {n : ℕ} {fs fs' : Fs}

/-- **Each safe call keeps the cache in step with the device.** -/
theorem Synced.step (h : V.Synced n fs) (hstep : Fs.SafeStep fs fs') : V.Synced n fs' := by
  cases hstep with
  | newBlocks hsafe => exact (h.newBlocks hsafe).synced
  | freeBlock hsafe => exact h.freeBlock hsafe
  | ballocFlush => exact h.ballocFlush

/-- So does every run of safe calls. -/
theorem Synced.run (h : V.Synced n fs) (hrun : Relation.ReflTransGen Fs.SafeStep fs fs') :
    V.Synced n fs' := by
  induction hrun with
  | refl => exact h
  | tail _ hstep ih => exact ih.step hstep

/-- Without a cache there is nothing to be in step. -/
theorem Flaky.synced (h : V.Flaky n fs) (hvalid : fs.sbi.sBmapCacheValid = false) :
    V.Synced n fs :=
  ⟨h, fun hv ↦ absurd hv (by simp [hvalid]), fun hv ↦ absurd hv (by simp [hvalid]),
    fun hv ↦ absurd hv (by simp [hvalid])⟩

/-- **The bitmap cache is coherent in every run that avoids two failures.** From a volume without a
cached bitmap, on a device that may fail any read and any write: as long as no load fails over another
group's bitmap and no release stops between writing its bitmap and dropping a clean cache of it, a clean
cache is what the device has, and what an allocation returns was free there. -/
theorem cleanCache_of_safeRun (h : V.Flaky n fs) (hvalid : fs.sbi.sBmapCacheValid = false)
    (hrun : Relation.ReflTransGen Fs.SafeStep fs fs') :
    V.CleanCache fs' ∧ ∀ goalLen preferredGroup b len fs'', ¬ fs'.TearsNew goalLen preferredGroup →
      fs'.ext4NewBlocksInGroup goalLen preferredGroup = (some (b, len), fs'') →
        ∃ geom, fs'.allocGeometry = some geom ∧ V.WereFree geom.1 fs' b len := by
  have hsynced := (h.synced hvalid).run hrun
  refine ⟨hsynced.cleanCache, fun goalLen preferredGroup b len fs'' hsafe hnew ↦ ?_⟩
  have hpost := hsynced.newBlocks hsafe
  rw [wp_of_eq hnew] at hpost
  exact hpost.free b len rfl

/-- A call for one block that ends with the first group it looks at tears the cache there or nowhere. -/
theorem not_tearsNew_of_first {fs : Fs} {preferredGroup bpg bc gc g : ℕ}
    (hgeom : fs.allocGeometry = some (bpg, bc, gc)) (hstart : fs.startGroup preferredGroup gc = g)
    (hends : (Fs.tryGroup 1 false bpg bc gc g fs).1 ≠ some none) (hsafe : ¬ fs.TearsGroup bpg bc g) :
    ¬ fs.TearsNew 1 preferredGroup := by
  rintro ⟨bpg', bc', gc', hgeom', htears⟩
  obtain ⟨rfl, rfl, rfl⟩ : bpg = bpg' ∧ bc = bc' ∧ gc = gc' := by simpa [hgeom] using hgeom'
  have hpos := Fs.groupsCount_pos_of_allocGeometry hgeom
  have hvisit : visit (fs.startGroup preferredGroup gc) gc 0 = g :=
    (if_neg (Nat.not_le.2 (fs.startGroup_lt preferredGroup hpos))).trans hstart
  obtain ⟨m, rfl⟩ := Nat.exists_eq_succ_of_ne_zero hpos.ne'
  rcases htears with (hbad | ⟨fs₁, htry, -⟩) | ⟨_, -, hone, -⟩
  · exact hsafe (hvisit ▸ hbad)
  · exact hends (hvisit ▸ congrArg Prod.fst htry)
  · exact hone rfl

/-- An image of 8208 blocks of 1024 bytes in two groups, the second one of 16 blocks. Their bitmaps are
blocks 3 and 4, and the blocks below 16 are in use. -/
def twinDisk : BlockDevice :=
  { BlockDevice.blank 512 16416 with
    media := Buf.zero
      |>.setField 1024 Esb.sMagic ext4SuperMagic
      |>.setField 1024 Esb.sBlocksCountLo 8208
      |>.setField 1024 Esb.sBlocksPerGroup 8192
      |>.setField 1024 Esb.sInodesPerGroup 16
      |>.setField 1024 Esb.sInodesCount 32
      |>.setField 1024 Esb.sFirstIno 11
      |>.setField 1024 Esb.sDescSize 32
      |>.setField 2048 Gd.bgBlockBitmapLo 3
      |>.setField 2048 Gd.bgInodeBitmapLo 5
      |>.setField 2048 Gd.bgInodeTableLo 7
      |>.setField 2048 Gd.bgFreeBlocksCountLo 8176
      |>.setField 2048 Gd.bgFreeInodesCountLo 5
      |>.setField 2080 Gd.bgBlockBitmapLo 4
      |>.setField 2080 Gd.bgInodeBitmapLo 6
      |>.setField 2080 Gd.bgInodeTableLo 11
      |>.setField 2080 Gd.bgFreeBlocksCountLo 16
      |>.setField 2080 Gd.bgFreeInodesCountLo 16
      |>.setBits (3072 * 8) (3072 * 8 + 16)
      |>.setBits (4096 * 8 + 16) (5120 * 8) }

/-- It mounts. -/
theorem fillSuper_twin : (ext4FillSuper 0 twinDisk).1.isSome = true := by decide +kernel

/-- The superblock info of the image. -/
def twinSb : SbInfo := (ext4FillSuper 0 twinDisk).1.get fillSuper_twin

/-- The image mounted. -/
def twinFs : Fs := Fs.ofMount (ext4FillSuper 0 twinDisk).2 twinSb 32 32

/-- Where it has its metadata. -/
def twinVolume : Volume := ⟨twinSb.toSbGeom, fun g ↦ 3 + g, fun g ↦ 5 + g, fun g ↦ 7 + 4 * g⟩


/-- The groups of the image are two. -/
theorem lt_two_of_twin {g : ℕ} (hg : g < twinVolume.groups) : g < 2 :=
  hg.trans_eq (by decide +kernel)

/-- The image on a device that may fail. -/
theorem flaky_twin (l : List Fault) : twinVolume.Flaky 15 (twinFs.withFaults l) := by
  have hdesc : ∀ g < 2, twinVolume.descBlock g = 2 := by decide +kernel
  have hbitmap : ∀ g < 2, (twinFs.desc g).getField 0 Gd.bgBlockBitmapLo = 3 + g := by decide +kernel
  have hsuper : twinVolume.superBlock = 1 := by decide +kernel
  have hplaced : twinVolume.Placed 15 := by
    refine ⟨fun b hb ↦ ?_, fun g hg ↦ ?_, fun g hg ↦ ?_, fun g hg g' hg' ↦ ?_,
      fun g hg g' hg' heq ↦ Nat.add_left_cancel heq, fun g hg ↦ ?_⟩
    · rcases hb with rfl | ⟨g, hg, rfl | rfl⟩
      · omega
      · rw [hdesc g (lt_two_of_twin hg)]
        omega
      · have := lt_two_of_twin hg
        show 3 + g < 15
        omega
    · rw [hdesc g (lt_two_of_twin hg.1)]
      omega
    · rw [hsuper]
      show 3 + g ≠ 1
      omega
    · rw [hdesc g' (lt_two_of_twin hg'.1)]
      show 3 + g ≠ 2
      omega
    · show 3 + g ≠ 0
      omega
  have hlaid : twinVolume.Laid 15 :=
    ⟨hplaced, by decide +kernel, by decide +kernel, by decide +kernel, by decide +kernel, by decide +kernel,
      by decide +kernel, by decide +kernel, by decide +kernel, by decide +kernel⟩
  have himage : twinVolume.Image 15 twinFs :=
    ⟨hlaid, by decide +kernel, rfl, by decide +kernel, by decide +kernel,
      fun g hg ↦ hbitmap g (lt_two_of_twin hg.1)⟩
  have hatomic : twinFs.dev.Atomic twinFs.blockSize :=
    ⟨by decide +kernel, by decide +kernel, by decide +kernel, by decide +kernel⟩
  exact ⟨himage.withFaults l, hatomic.withFaults l⟩

/-- The device fails its fourth call. -/
def twinFailing : Fs := twinFs.withFaults (List.replicate 3 .pass ++ [.fail Buf.zero])

/-- What an allocation in the second group leaves: its bitmap could not be written. -/
def twinNext : Fs := (twinFailing.ext4NewBlocksInGroup 1 1).2

/-- Its bitmap stays in the cache. -/
theorem newBlocks_twin : twinFailing.ext4NewBlocksInGroup 1 1 = (none, twinNext) ∧
    twinNext.sbi.sBmapCacheGroup = 1 :=
  ⟨eq_of_fst_eq (by decide +kernel), by decide +kernel⟩

/-- Nothing is cached when that allocation looks at the second group. -/
theorem not_tearsGroup_twin : ¬ twinFailing.TearsGroup 8192 8208 1 := by
  rintro ⟨-, -, gd, fs₁, hrun, -, hvalid, -⟩
  obtain rfl : (Fs.readGroupDesc 1 twinFailing).2 = fs₁ := congrArg Prod.snd hrun
  have hnone : (Fs.readGroupDesc 1 twinFailing).2.sbi.sBmapCacheValid = false := by decide +kernel
  rw [hnone] at hvalid
  cases hvalid

/-- The bitmap of the first group can be read after it. -/
theorem not_tearsGroup_twinNext : ¬ twinNext.TearsGroup 8192 8208 0 := by
  rintro ⟨-, -, _, fs₁, hrun, -, -, -, fs₂, gd, fs₃, fs₄, hflush, hdesc, -, hread⟩
  obtain rfl : (Fs.readGroupDesc 0 twinNext).2 = fs₁ := congrArg Prod.snd hrun
  obtain rfl := congrArg Prod.snd hflush
  obtain rfl := congrArg Prod.snd hdesc
  set fs := (Fs.bmapCacheFlush (Fs.readGroupDesc 0 twinNext).2).2 with hfs
  have hblock : (Fs.readGroupDesc 0 fs).1.map (fun gd ↦ gd.getField 0 Gd.bgBlockBitmapLo) = some 3 := by
    decide +kernel
  have hok : (Fs.readBmapCache 3 (Fs.readGroupDesc 0 fs).2).1.isSome = true := by decide +kernel
  rw [congrArg Prod.fst hdesc, Option.map_some, Option.some.injEq] at hblock
  rw [hblock] at hread
  rw [congrArg Prod.fst hread] at hok
  cases hok

/-- On the image with two groups: the first call fails and leaves the bitmap of the second group in the
cache, the second one writes it and goes over to the first group. -/
theorem cleanCache_of_safeRun_twin : twinFailing.ext4NewBlocksInGroup 1 1 = (none, twinNext) ∧
    twinNext.sbi.sBmapCacheGroup = 1 ∧ ∃ fs, twinNext.ext4NewBlocksInGroup 1 0 = (some (16, 1), fs) ∧
    twinVolume.CleanCache fs ∧
    ∃ geom, twinNext.allocGeometry = some geom ∧ twinVolume.WereFree geom.1 twinNext 16 1 := by
  have hgeom : twinFailing.allocGeometry = some (8192, 8208, 2) := by decide +kernel
  have hgeom' : twinNext.allocGeometry = some (8192, 8208, 2) := by decide +kernel
  have hsafe : ¬ twinFailing.TearsNew 1 1 :=
    not_tearsNew_of_first hgeom rfl (by decide +kernel) not_tearsGroup_twin
  have hsafe' : ¬ twinNext.TearsNew 1 0 :=
    not_tearsNew_of_first hgeom' rfl (by decide +kernel) not_tearsGroup_twinNext
  have hvalid : twinFailing.sbi.sBmapCacheValid = false := by decide +kernel
  have hnew : twinNext.ext4NewBlocksInGroup 1 0 = (some (16, 1), (twinNext.ext4NewBlocksInGroup 1 0).2) :=
    eq_of_fst_eq (by decide +kernel)
  have hrun : Relation.ReflTransGen Fs.SafeStep twinFailing twinNext := .single (.newBlocks hsafe)
  exact ⟨newBlocks_twin.1, newBlocks_twin.2, _, hnew,
    (cleanCache_of_safeRun (flaky_twin _) hvalid (hrun.tail (.newBlocks hsafe'))).1,
    (cleanCache_of_safeRun (flaky_twin _) hvalid hrun).2 1 0 16 1 _ hsafe' hnew⟩

/-- A new volume of 64 blocks on a device that may fail. -/
theorem flaky_small (l : List Fault) :
    (Mkfs.volume 4096 64 Mkfs.smallSb.toSbGeom).Flaky 64 (Mkfs.smallFs.withFaults l) := by
  obtain ⟨hgeom, hmounted⟩ := Mkfs.mounted_small
  have himage := hmounted.coherent.toImage
  rw [show (Mkfs.volume 4096 64 Mkfs.smallSb.toSbGeom).blocks = 64 from hgeom.sBlocksCount] at himage
  have hatomic : Mkfs.smallFs.dev.Atomic Mkfs.smallFs.blockSize :=
    ⟨by decide +kernel, by decide +kernel, by decide +kernel, by decide +kernel⟩
  exact ⟨himage.withFaults l, hatomic.withFaults l⟩

/-- The device fails its eleventh call. -/
def failingFs : Fs := Mkfs.smallFs.withFaults (List.replicate 10 .pass ++ [.fail Buf.zero])

/-- Take five blocks and free the second of them: the bitmap is written, reading the descriptor fails,
and the cache is left with the bit that is clear on the device. -/
theorem not_cleanCache_failing :
    (Mkfs.volume 4096 64 Mkfs.smallSb.toSbGeom).Flaky 64 failingFs ∧
      failingFs.sbi.sBmapCacheValid = false ∧
      Relation.ReflTransGen Fs.BallocStep failingFs
        ((failingFs.ext4NewBlocksInGroup 5 0).2.ext4FreeBlock 10).2 ∧
      ¬ (Mkfs.volume 4096 64 Mkfs.smallSb.toSbGeom).CleanCache
        ((failingFs.ext4NewBlocksInGroup 5 0).2.ext4FreeBlock 10).2 := by
  refine ⟨flaky_small _, by decide +kernel,
    (Relation.ReflTransGen.single (.newBlocks 5 0 _)).tail (.freeBlock 10 _), fun h ↦ ?_⟩
  set fs := ((failingFs.ext4NewBlocksInGroup 5 0).2.ext4FreeBlock 10).2
  have hv : fs.sbi.sBmapCacheValid = true := by decide +kernel
  have hd : fs.sbi.sBmapCacheDirty = false := by decide +kernel
  have hbit := congrArg (Buf.bit · 10) (h hv hd)
  have hcache : (Buf.clip (Mkfs.volume 4096 64 Mkfs.smallSb.toSbGeom).bs
      fs.sbi.sBmapCacheBuf).bit 10 = true := by decide +kernel
  have hdisk : (fs.block ((Mkfs.volume 4096 64 Mkfs.smallSb.toSbGeom).blockBitmap
      fs.sbi.sBmapCacheGroup)).bit 10 = false := by decide +kernel
  rw [hcache, hdisk] at hbit
  simp at hbit

end Volume

end MiniExt4
