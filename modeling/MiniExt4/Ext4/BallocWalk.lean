import MiniExt4.Ext4.Balloc

/-!
# The walk of an allocation through the groups, and the steps of a release

What one iteration of `ext4_new_blocks_in_group` can do, said once: `Tries` has one case for each way in
which an iteration over a group ends, `Marks` one for each end of the part that marks a run, and `Frees`
one for each end of `ext4_free_block`. Each case carries the calls that led there, with the states between
them, and assumes nothing of the volume or of the device.

The loop over the groups and the two passes over them are the rules `wp_scanGroups` and `wp_newBlocks`: an
invariant that the iterations over the groups of the first pass keep, and those of the second, holds at
the end. An iteration may be excluded by a condition on the state it starts in (`MeetsNew`).

Three invariants are carried along these rules: what the calls do to the bits (`BallocBits`), that the
cached bitmap is that of the device although calls fail (`BallocFault`), and that the counts of the
superblock are true or a sync is pending (`SuperCounts`). A change to the order of the statements of
`ext4_new_blocks_in_group` changes a case here and the lemmas that look at this case there.
-/

namespace MiniExt4

open StateErr

namespace Volume

/-- The descriptor of a group of which `len` more blocks are used. -/
def lowerFree (gd : Buf) (len : ℕ) : Buf :=
  gd.setField 0 Gd.bgFreeBlocksCountLo
    (if gd.getField 0 Gd.bgFreeBlocksCountLo > len then gd.getField 0 Gd.bgFreeBlocksCountLo - len
      else 0)

/-- The descriptor of a group of which one more block is free. -/
def raiseFree (gd : Buf) : Buf :=
  gd.setField 0 Gd.bgFreeBlocksCountLo (gd.getField 0 Gd.bgFreeBlocksCountLo + 1)

/-! ### The order of the visits -/

/-- The group an iteration is over. -/
def visit (startGroup groupsCount scanned : ℕ) : ℕ :=
  if startGroup + scanned ≥ groupsCount then startGroup + scanned - groupsCount
  else startGroup + scanned

/-- An iteration is over a group of the volume. -/
theorem visit_lt {startGroup gc k : ℕ} (hstart : startGroup < gc) (hk : k < gc) :
    visit startGroup gc k < gc := by
  unfold visit
  split <;> omega

/-- The loop comes to every group. -/
theorem exists_visit_eq {startGroup gc g : ℕ} (hstart : startGroup < gc) (hg : g < gc) :
    ∃ k < gc, visit startGroup gc k = g := by
  rcases Nat.lt_or_ge g startGroup with hlt | hge
  · refine ⟨gc - startGroup + g, by omega, ?_⟩
    rw [visit, if_pos (by omega)]
    omega
  · refine ⟨g - startGroup, by omega, ?_⟩
    rw [visit, if_neg (by omega)]
    omega

end Volume

namespace Fs

/-- The group an allocation starts with. -/
def startGroup (fs : Fs) (preferredGroup groupsCount : ℕ) : ℕ :=
  let start := if preferredGroup < groupsCount then preferredGroup else fs.sbi.goalGroup
  if start ≥ groupsCount then 0 else start

theorem startGroup_lt (fs : Fs) (preferredGroup : ℕ) {groupsCount : ℕ} (h : 0 < groupsCount) :
    fs.startGroup preferredGroup groupsCount < groupsCount := by
  unfold startGroup
  generalize (if preferredGroup < groupsCount then preferredGroup else fs.sbi.goalGroup) = start
  dsimp only
  split <;> omega

/-- A geometry that an allocation works with has a group. -/
theorem groupsCount_pos_of_allocGeometry {fs : Fs} {bpg bc gc : ℕ}
    (h : fs.allocGeometry = some (bpg, bc, gc)) : 0 < gc := by
  unfold allocGeometry at h
  dsimp only at h
  repeat' split at h
  all_goals first | simp at h; done | skip
  all_goals simp only [Option.some.injEq, Prod.mk.injEq] at h; omega

/-! ### Counting a change -/

/-- One more change is pending. -/
def bumpPending (fs : Fs) : Fs :=
  { fs with sbi := { fs.sbi with sBgSyncPending := u32 (fs.sbi.sBgSyncPending + 1) } }

theorem bgSync_apply (fs : Fs) : bgSync fs =
    if fs.bgSyncBatch ≤ fs.bumpPending.sbi.sBgSyncPending then
      (modifySbi fun sbi ↦ { sbi with sBgSyncPending := 0 }) (ext4SyncSuperFreeCounts fs.bumpPending).2
    else (some (), fs.bumpPending) := by
  unfold bgSync
  rw [modifySbi, modify_bind, get_bind]
  show (if fs.bgSyncBatch ≤ fs.bumpPending.sbi.sBgSyncPending then _ else _ : StateErr Fs Unit)
    fs.bumpPending = _
  split
  · rw [attempt_bind]
  · rfl

/-- A sync that fails is not reported. -/
theorem bgSync_eq (fs : Fs) : bgSync fs = (some (), (bgSync fs).2) := by
  refine eq_of_fst_eq ?_
  rw [bgSync_apply]
  split <;> rfl

/-! ### Marking a run -/

/-- `takeRun` up to the point where the change is counted. -/
def markRun (blocksCount groupsCount g groupStart groupBlocks i allocLen : ℕ) (gd : Buf) :
    StateErr Fs Unit := do
  modifySbi fun sbi ↦ { sbi with sBmapCacheBuf := sbi.sBmapCacheBuf.setBits i (i + allocLen) }
  let newBlock := u32 (groupStart + i)
  guard (¬ (newBlock < groupStart ∨ newBlock ≥ blocksCount))
  guard (allocLen ≠ 0)
  guard (u32 (newBlock + allocLen) ≤ blocksCount)
  modifySbi fun sbi ↦ { sbi with sBmapCacheDirty := true }
  bmapCacheFlush
  let free := gd.getField 0 Gd.bgFreeBlocksCountLo
  storeGroupDesc g
    (gd.setField 0 Gd.bgFreeBlocksCountLo (if free > allocLen then free - allocLen else 0))
  modifySbi fun sbi ↦ sbi.advanceGoal g (u32 (i + allocLen)) groupBlocks groupsCount

theorem takeRun_eq (blocksCount groupsCount g groupStart groupBlocks i allocLen : ℕ) (gd : Buf) :
    takeRun blocksCount groupsCount g groupStart groupBlocks i allocLen gd =
      (markRun blocksCount groupsCount g groupStart groupBlocks i allocLen gd >>= fun _ ↦ do
        bgSync
        pure (u32 (groupStart + i), allocLen)) := by
  simp only [takeRun, markRun, bind_assoc']

/-- The cached bitmap with the bits `[i, i + len)` set. -/
def setRun (i len : ℕ) (fs : Fs) : Fs :=
  { fs with sbi := { fs.sbi with sBmapCacheBuf := fs.sbi.sBmapCacheBuf.setBits i (i + len) } }

/-- The cached bitmap is not what the device has. -/
def setDirty (fs : Fs) : Fs := { fs with sbi := { fs.sbi with sBmapCacheDirty := true } }

/-- The blocks `[groupStart + i, groupStart + i + len)` are some of the volume's. -/
def RunFits (blocksCount groupStart i len : ℕ) : Prop :=
  ¬ (u32 (groupStart + i) < groupStart ∨ u32 (groupStart + i) ≥ blocksCount) ∧ len ≠ 0 ∧
    u32 (u32 (groupStart + i) + len) ≤ blocksCount

/-- The ways in which marking the run of `len` bits from bit `i` of group `g` ends. -/
inductive Marks (blocksCount groupsCount g groupStart groupBlocks i len : ℕ) (gd : Buf) (fs : Fs) :
    Option Unit → Fs → Prop
  | outside (hfits : ¬ RunFits blocksCount groupStart i len) :
      Marks blocksCount groupsCount g groupStart groupBlocks i len gd fs none (fs.setRun i len)
  | noFlush {fs₁ : Fs} (hfits : RunFits blocksCount groupStart i len)
      (hflush : bmapCacheFlush (fs.setRun i len).setDirty = (none, fs₁)) :
      Marks blocksCount groupsCount g groupStart groupBlocks i len gd fs none fs₁
  | noStore {fs₁ fs₂ : Fs} (hfits : RunFits blocksCount groupStart i len)
      (hflush : bmapCacheFlush (fs.setRun i len).setDirty = (some (), fs₁))
      (hstore : storeGroupDesc g (Volume.lowerFree gd len) fs₁ = (none, fs₂)) :
      Marks blocksCount groupsCount g groupStart groupBlocks i len gd fs none fs₂
  | marked {fs₁ fs₂ : Fs} (hfits : RunFits blocksCount groupStart i len)
      (hflush : bmapCacheFlush (fs.setRun i len).setDirty = (some (), fs₁))
      (hstore : storeGroupDesc g (Volume.lowerFree gd len) fs₁ = (some (), fs₂)) :
      Marks blocksCount groupsCount g groupStart groupBlocks i len gd fs (some ())
        { fs₂ with sbi := fs₂.sbi.advanceGoal g (u32 (i + len)) groupBlocks groupsCount }

/-- Marking a run ends in one of these ways. -/
theorem wp_markRun (bc gc g groupStart groupBlocks i len : ℕ) (gd : Buf) (fs : Fs) :
    wp (markRun bc gc g groupStart groupBlocks i len gd)
      (fs.Marks bc gc g groupStart groupBlocks i len gd) fs := by
  have houtside : ¬ RunFits bc groupStart i len →
      fs.Marks bc gc g groupStart groupBlocks i len gd none (fs.setRun i len) := .outside
  have hset : modifySbi (fun sbi ↦ { sbi with sBmapCacheBuf := sbi.sBmapCacheBuf.setBits i (i + len) })
      fs = (some (), fs.setRun i len) := rfl
  have hdirty : modifySbi (fun sbi ↦ { sbi with sBmapCacheDirty := true }) (fs.setRun i len) =
      (some (), (fs.setRun i len).setDirty) := rfl
  unfold markRun
  refine wp_bind_of_eq_some hset ?_
  rw [wp]
  by_cases hlt : ¬ (u32 (groupStart + i) < groupStart ∨ u32 (groupStart + i) ≥ bc)
  swap
  · rw [guard_false hlt, fail_bind]
    exact houtside fun h ↦ hlt h.1
  rw [guard_true hlt, pure_bind']
  by_cases hlen : len ≠ 0
  swap
  · rw [guard_false hlen, fail_bind]
    exact houtside fun h ↦ hlen h.2.1
  rw [guard_true hlen, pure_bind']
  by_cases hend : u32 (u32 (groupStart + i) + len) ≤ bc
  swap
  · rw [guard_false hend, fail_bind]
    exact houtside fun h ↦ hend h.2.2
  have hfits : RunFits bc groupStart i len := ⟨hlt, hlen, hend⟩
  rw [guard_true hend, pure_bind', bind_of_eq_some hdirty]
  rcases hflush : bmapCacheFlush (fs.setRun i len).setDirty with ⟨_ | _, fs₁⟩
  · rw [bind_of_eq_none hflush]
    exact .noFlush hfits hflush
  rw [bind_of_eq_some hflush, ← Volume.lowerFree]
  rcases hstore : storeGroupDesc g (Volume.lowerFree gd len) fs₁ with ⟨_ | _, fs₂⟩
  · rw [bind_of_eq_none hstore]
    exact .noStore hfits hflush hstore
  · rw [bind_of_eq_some hstore]
    exact .marked hfits hflush hstore

/-! ### One group -/

/-- `group_blocks`, the blocks of group `g` that are the volume's. -/
def groupBits (blocksPerGroup blocksCount g : ℕ) : ℕ :=
  if u32 (u32 (g * blocksPerGroup) + blocksPerGroup) > blocksCount then
    blocksCount - u32 (g * blocksPerGroup)
  else blocksPerGroup

/-- Group `g` has a block to look for. -/
def LooksAt (blocksPerGroup blocksCount g : ℕ) : Prop :=
  u32 (g * blocksPerGroup) < blocksCount ∧ 1 < groupBits blocksPerGroup blocksCount g

/-- The ways in which an iteration over group `g` ends. -/
inductive Tries (goalLen : ℕ) (requireFullGoal : Bool) (blocksPerGroup blocksCount groupsCount g : ℕ)
    (fs : Fs) : Option (Option (ℕ × ℕ)) → Fs → Prop
  | skip (hlooks : ¬ LooksAt blocksPerGroup blocksCount g) :
      Tries goalLen requireFullGoal blocksPerGroup blocksCount groupsCount g fs (some none) fs
  | noDesc {fs₁ : Fs} (hlooks : LooksAt blocksPerGroup blocksCount g)
      (hread : readGroupDesc g fs = (none, fs₁)) :
      Tries goalLen requireFullGoal blocksPerGroup blocksCount groupsCount g fs (some none) fs₁
  | noBitmap {fs₁ : Fs} {gd : Buf} (hlooks : LooksAt blocksPerGroup blocksCount g)
      (hread : readGroupDesc g fs = (some gd, fs₁)) (hblock : gd.getField 0 Gd.bgBlockBitmapLo = 0) :
      Tries goalLen requireFullGoal blocksPerGroup blocksCount groupsCount g fs (some none) fs₁
  | noLoad {fs₁ fs₂ : Fs} {gd : Buf} (hlooks : LooksAt blocksPerGroup blocksCount g)
      (hread : readGroupDesc g fs = (some gd, fs₁)) (hblock : gd.getField 0 Gd.bgBlockBitmapLo ≠ 0)
      (hload : bmapCacheLoad g gd fs₁ = (none, fs₂)) :
      Tries goalLen requireFullGoal blocksPerGroup blocksCount groupsCount g fs (some none) fs₂
  | noRun {fs₁ fs₂ : Fs} {gd gd' : Buf} (hlooks : LooksAt blocksPerGroup blocksCount g)
      (hread : readGroupDesc g fs = (some gd, fs₁)) (hblock : gd.getField 0 Gd.bgBlockBitmapLo ≠ 0)
      (hload : bmapCacheLoad g gd fs₁ = (some gd', fs₂))
      (hfound : (fs₂.scanGroup g (groupBits blocksPerGroup blocksCount g) goalLen requireFullGoal).1 =
        false) :
      Tries goalLen requireFullGoal blocksPerGroup blocksCount groupsCount g fs (some none) fs₂
  | noMark {fs₁ fs₂ fs₃ : Fs} {gd gd' : Buf} {i len : ℕ} (hlooks : LooksAt blocksPerGroup blocksCount g)
      (hread : readGroupDesc g fs = (some gd, fs₁)) (hblock : gd.getField 0 Gd.bgBlockBitmapLo ≠ 0)
      (hload : bmapCacheLoad g gd fs₁ = (some gd', fs₂))
      (hfound : fs₂.scanGroup g (groupBits blocksPerGroup blocksCount g) goalLen requireFullGoal =
        (true, i, len))
      (hmark : markRun blocksCount groupsCount g (u32 (g * blocksPerGroup))
        (groupBits blocksPerGroup blocksCount g) i len gd' fs₂ = (none, fs₃)) :
      Tries goalLen requireFullGoal blocksPerGroup blocksCount groupsCount g fs none fs₃
  | took {fs₁ fs₂ fs₃ : Fs} {gd gd' : Buf} {i len : ℕ} (hlooks : LooksAt blocksPerGroup blocksCount g)
      (hread : readGroupDesc g fs = (some gd, fs₁)) (hblock : gd.getField 0 Gd.bgBlockBitmapLo ≠ 0)
      (hload : bmapCacheLoad g gd fs₁ = (some gd', fs₂))
      (hfound : fs₂.scanGroup g (groupBits blocksPerGroup blocksCount g) goalLen requireFullGoal =
        (true, i, len))
      (hmark : markRun blocksCount groupsCount g (u32 (g * blocksPerGroup))
        (groupBits blocksPerGroup blocksCount g) i len gd' fs₂ = (some (), fs₃)) :
      Tries goalLen requireFullGoal blocksPerGroup blocksCount groupsCount g fs
        (some (some (u32 (u32 (g * blocksPerGroup) + i), len))) (bgSync fs₃).2

/-- An iteration ends in one of these ways. -/
theorem wp_tryGroup (goalLen : ℕ) (requireFullGoal : Bool) (bpg bc gc g : ℕ) (fs : Fs) :
    wp (tryGroup goalLen requireFullGoal bpg bc gc g) (fs.Tries goalLen requireFullGoal bpg bc gc g)
      fs := by
  unfold tryGroup
  rw [wp]
  dsimp only
  by_cases hstart : u32 (g * bpg) ≥ bc
  · rw [if_pos hstart]
    exact .skip fun h ↦ absurd h.1 (by omega)
  rw [if_neg hstart, ← groupBits]
  by_cases hsmall : groupBits bpg bc g ≤ 1
  · rw [if_pos hsmall]
    exact .skip fun h ↦ absurd h.2 (by omega)
  rw [if_neg hsmall]
  have hlooks : LooksAt bpg bc g := ⟨Nat.lt_of_not_le hstart, Nat.lt_of_not_le hsmall⟩
  rw [attempt_bind]
  rcases hread : readGroupDesc g fs with ⟨_ | gd, fs₁⟩
  · exact .noDesc hlooks hread
  dsimp only
  by_cases hblock : gd.getField 0 Gd.bgBlockBitmapLo = 0
  · rw [if_pos hblock]
    exact .noBitmap hlooks hread hblock
  rw [if_neg hblock, attempt_bind]
  rcases hload : bmapCacheLoad g gd fs₁ with ⟨_ | gd', fs₂⟩
  · exact .noLoad hlooks hread hblock hload
  dsimp only
  rw [get_bind]
  rcases hfound : fs₂.scanGroup g (groupBits bpg bc g) goalLen requireFullGoal with ⟨_ | _, i, len⟩
  · simp only [Bool.not_false, if_true]
    exact .noRun hlooks hread hblock hload (congrArg Prod.fst hfound)
  simp only [Bool.not_true, Bool.false_eq_true, if_false]
  rw [takeRun_eq, bind_assoc']
  rcases hmark : markRun bc gc g (u32 (g * bpg)) (groupBits bpg bc g) i len gd' fs₂ with ⟨_ | _, fs₃⟩
  · rw [bind_of_eq_none hmark]
    exact .noMark hlooks hread hblock hload hfound hmark
  · rw [bind_of_eq_some hmark, bind_assoc', bind_of_eq_some (bgSync_eq fs₃)]
    exact .took hlooks hread hblock hload hfound hmark

/-! ### All groups -/

/-- One of the `n` iterations from the one `scanned` after `startGroup` starts where `bad` holds. -/
def MeetsScan (bad : ℕ → Fs → Prop) (goalLen : ℕ) (requireFullGoal : Bool)
    (blocksPerGroup blocksCount groupsCount startGroup : ℕ) : ℕ → ℕ → Fs → Prop
  | 0, _, _ => False
  | n + 1, scanned, fs =>
    let g := Volume.visit startGroup groupsCount scanned
    bad g fs ∨
      ∃ fs₁, tryGroup goalLen requireFullGoal blocksPerGroup blocksCount groupsCount g fs =
          (some none, fs₁) ∧
        MeetsScan bad goalLen requireFullGoal blocksPerGroup blocksCount groupsCount startGroup n
          (scanned + 1) fs₁

/-- An iteration of a call of `ext4_new_blocks_in_group`, in its first pass or in its second, starts where
`bad` holds. -/
def MeetsNew (bad : ℕ → Bool → ℕ → ℕ → ℕ → ℕ → Fs → Prop) (goalLen preferredGroup : ℕ) (fs : Fs) :
    Prop :=
  ∃ bpg bc gc, fs.allocGeometry = some (bpg, bc, gc) ∧
    let goalLen := if goalLen = 0 then 1 else goalLen
    let start := fs.startGroup preferredGroup gc
    MeetsScan (bad goalLen (decide (goalLen > 1)) bpg bc gc) goalLen (decide (goalLen > 1)) bpg bc gc
        start gc 0 fs ∨
      ∃ fs₁, scanGroups goalLen (decide (goalLen > 1)) bpg bc gc start gc 0 fs = (some none, fs₁) ∧
        goalLen ≠ 1 ∧ MeetsScan (bad goalLen false bpg bc gc) goalLen false bpg bc gc start gc 0 fs₁

/-- What never holds is not met. -/
theorem not_meetsNew_of_never (goalLen preferredGroup : ℕ) (fs : Fs) :
    ¬ MeetsNew (fun _ _ _ _ _ _ _ ↦ False) goalLen preferredGroup fs := by
  have hscan : ∀ full bpg bc gc start m k fs,
      ¬ MeetsScan (fun _ _ ↦ False) (if goalLen = 0 then 1 else goalLen) full bpg bc gc start m k fs := by
    intro full bpg bc gc start m
    induction m with
    | zero => exact fun k fs h ↦ h
    | succ m ih =>
      rintro k fs (h | ⟨fs₁, -, h⟩)
      · exact h
      · exact ih _ fs₁ h
  rintro ⟨bpg, bc, gc, -, h | ⟨fs₁, -, -, h⟩⟩
  · exact hscan _ _ _ _ _ _ _ _ h
  · exact hscan _ _ _ _ _ _ _ _ h

/-- **The loop over the groups.** `I k` is what holds once `k` groups were passed over; an iteration passes
over its group or ends the loop with `Q`. -/
theorem wp_scanGroups {goalLen : ℕ} {requireFullGoal : Bool} {bpg bc gc start : ℕ}
    {bad : ℕ → Fs → Prop} {I : ℕ → Fs → Prop} {Q : Option (Option (ℕ × ℕ)) → Fs → Prop}
    (hstep : ∀ k fs, k < gc → I k fs → ¬ bad (Volume.visit start gc k) fs →
      wp (tryGroup goalLen requireFullGoal bpg bc gc (Volume.visit start gc k))
        (fun r fs' ↦ if r = some none then I (k + 1) fs' else Q r fs') fs)
    (hend : ∀ fs, I gc fs → Q (some none) fs) :
    ∀ m k fs, k + m = gc → I k fs →
      ¬ MeetsScan bad goalLen requireFullGoal bpg bc gc start m k fs →
      wp (scanGroups goalLen requireFullGoal bpg bc gc start m k) Q fs := by
  intro m
  induction m with
  | zero =>
    intro k fs hk h _
    obtain rfl : k = gc := hk
    exact hend fs h
  | succ m ih =>
    intro k fs hk h hsafe
    have htry := hstep k fs (by omega) h fun hbad ↦ hsafe (.inl hbad)
    unfold scanGroups
    dsimp only
    rw [← Volume.visit]
    rcases hrun : tryGroup goalLen requireFullGoal bpg bc gc (Volume.visit start gc k) fs with
      ⟨_ | _ | r, fs₁⟩ <;> rw [wp_of_eq hrun] at htry
    · exact wp_bind_of_eq_none hrun htry
    · exact wp_bind_of_eq_some hrun (ih (k + 1) fs₁ (by omega) htry fun hmeets ↦
        hsafe (.inr ⟨fs₁, hrun, hmeets⟩))
    · exact wp_bind_of_eq_some hrun htry

/-- Without a geometry an allocation fails at once. -/
theorem newBlocks_of_geometry_none {fs : Fs} (hgd : fs.sbi.sGroupDesc.isSome)
    (hgeom : fs.allocGeometry = none) (goalLen preferredGroup : ℕ) :
    ext4NewBlocksInGroup goalLen preferredGroup fs = (none, fs) := by
  unfold ext4NewBlocksInGroup
  rw [get_bind, guard_true hgd, pure_bind', hgeom, ofOption_none, fail_bind, fail_apply]

/-- **The two passes of an allocation.** `I full k` is what holds once `k` groups of the pass that looks
for a full run, or of the one that takes any, were passed over. -/
theorem wp_newBlocks {fs : Fs} {goalLen preferredGroup bpg bc gc : ℕ}
    {bad : ℕ → Bool → ℕ → ℕ → ℕ → ℕ → Fs → Prop} {I : Bool → ℕ → Fs → Prop}
    {Q : Option (ℕ × ℕ) → Fs → Prop} (hgd : fs.sbi.sGroupDesc.isSome)
    (hgeom : fs.allocGeometry = some (bpg, bc, gc)) (hsafe : ¬ MeetsNew bad goalLen preferredGroup fs)
    (hfirst : I (decide (max 1 goalLen > 1)) 0 fs)
    (hstep : ∀ full k fs', k < gc → I full k fs' →
      ¬ bad (max 1 goalLen) full bpg bc gc (Volume.visit (fs.startGroup preferredGroup gc) gc k) fs' →
      wp (tryGroup (max 1 goalLen) full bpg bc gc (Volume.visit (fs.startGroup preferredGroup gc) gc k))
        (fun r fs'' ↦ if r = some none then I full (k + 1) fs'' else Q r.join fs'') fs')
    (hnext : ∀ fs', max 1 goalLen > 1 → I true gc fs' → I false 0 fs')
    (hend : ∀ fs', I false gc fs' → Q none fs') :
    wp (ext4NewBlocksInGroup goalLen preferredGroup) Q fs := by
  have hlen : (if goalLen = 0 then 1 else goalLen) = max 1 goalLen := by split <;> omega
  unfold MeetsNew at hsafe
  unfold ext4NewBlocksInGroup
  rw [wp, get_bind, guard_true hgd, pure_bind', hgeom, ofOption_some, pure_bind']
  dsimp only
  rw [← startGroup]
  simp only [hlen] at hsafe ⊢
  have hpos : 0 < max 1 goalLen := by omega
  generalize max 1 goalLen = len at hpos hsafe hfirst hstep hnext ⊢
  -- both passes are one loop, with another demand on the length of the run
  have hpass : ∀ full fs', I full 0 fs' →
      ¬ MeetsScan (bad len full bpg bc gc) len full bpg bc gc (fs.startGroup preferredGroup gc) gc 0
        fs' →
      wp (scanGroups len full bpg bc gc (fs.startGroup preferredGroup gc) gc 0)
        (fun r fs'' ↦ if r = some none then I full gc fs'' else Q r.join fs'') fs' :=
    fun full fs' h hmeets ↦ wp_scanGroups
      (fun k fs₁ hk hI hbad ↦ wp_mono (hstep full k fs₁ hk hI hbad) fun r fs₂ hr ↦ by
        split at hr <;> rename_i hr' <;> simpa [hr'] using hr)
      (fun fs₁ hI ↦ by simpa using hI) gc 0 fs' (Nat.zero_add gc) h hmeets
  have hpost := hpass (decide (len > 1)) fs hfirst fun hmeets ↦
    hsafe ⟨bpg, bc, gc, hgeom, .inl hmeets⟩
  -- the first pass fails, finds nothing, or allocates
  rcases hrun : scanGroups len (decide (len > 1)) bpg bc gc (fs.startGroup preferredGroup gc) gc 0 fs
    with ⟨_ | _ | r, fs₁⟩ <;> rw [wp_of_eq hrun] at hpost
  · rw [bind_of_eq_none hrun]
    exact hpost
  · rw [bind_of_eq_some hrun]
    dsimp only
    rw [if_pos rfl] at hpost
    by_cases hone : len = 1
    · rw [if_pos hone]
      exact hend fs₁ (by simpa [hone] using hpost)
    have hmany : len > 1 := by omega
    simp only [hmany, decide_true] at hpost hrun
    -- a call for one block makes no second pass
    have hpost₂ := hpass false fs₁ (hnext fs₁ hmany hpost) fun hmeets ↦
      hsafe ⟨bpg, bc, gc, hgeom, .inr ⟨fs₁, by simpa only [hmany, decide_true] using hrun, hone, hmeets⟩⟩
    rw [if_neg hone]
    rcases hrun₂ : scanGroups len false bpg bc gc (fs.startGroup preferredGroup gc) gc 0 fs₁ with
      ⟨_ | _ | r, fs₂⟩ <;> rw [wp_of_eq hrun₂] at hpost₂
    · rw [bind_of_eq_none hrun₂]
      exact hpost₂
    · rw [bind_of_eq_some hrun₂]
      exact hend fs₂ hpost₂
    · rw [bind_of_eq_some hrun₂]
      exact hpost₂
  · rw [bind_of_eq_some hrun]
    exact hpost

/-! ### Freeing -/

/-- The call gets as far as bit `i` of the bitmap of group `g`. -/
structure ReadsBit (fs : Fs) (g i : ℕ) (bitmap : ℕ × Buf) (fs₁ : Fs) : Prop where
  group_lt : g < fs.sbi.sGroupsCount
  bit_lt : i < fs.sbi.sBlocksPerGroup
  bs_le : fs.blockSize ≤ blockSizeDefault
  read : readBlockBitmap g fs = (some bitmap, fs₁)
  byte_lt : i / 8 < fs.blockSize

/-- The ways in which freeing the block of bit `i` of group `g` ends. -/
inductive Frees (g i : ℕ) (fs : Fs) : Option Unit → Fs → Prop
  | refuse (hin : ¬ (g < fs.sbi.sGroupsCount ∧ i < fs.sbi.sBlocksPerGroup ∧
      fs.blockSize ≤ blockSizeDefault)) : Frees g i fs none fs
  | noBitmap {fs₁ : Fs} (hg : g < fs.sbi.sGroupsCount) (hread : readBlockBitmap g fs = (none, fs₁)) :
      Frees g i fs none fs₁
  | outside {fs₁ : Fs} {bitmap : ℕ × Buf} (hg : g < fs.sbi.sGroupsCount)
      (hread : readBlockBitmap g fs = (some bitmap, fs₁)) (hbyte : ¬ i / 8 < fs.blockSize) :
      Frees g i fs none fs₁
  | clear {fs₁ : Fs} {bitmap : ℕ × Buf} (hreads : fs.ReadsBit g i bitmap fs₁)
      (hbit : bitmap.2.bit i = false) : Frees g i fs (some ()) fs₁
  | noWrite {fs₁ fs₂ : Fs} {bitmap : ℕ × Buf} (hreads : fs.ReadsBit g i bitmap fs₁)
      (hbit : bitmap.2.bit i = true)
      (hwrite : writeBlockBitmap bitmap.1 (bitmap.2.clearBit i) fs₁ = (none, fs₂)) :
      Frees g i fs none fs₂
  | noDesc {fs₁ fs₂ fs₃ : Fs} {bitmap : ℕ × Buf} (hreads : fs.ReadsBit g i bitmap fs₁)
      (hbit : bitmap.2.bit i = true)
      (hwrite : writeBlockBitmap bitmap.1 (bitmap.2.clearBit i) fs₁ = (some (), fs₂))
      (hdesc : readGroupDesc g fs₂ = (none, fs₃)) : Frees g i fs none fs₃
  | noStore {fs₁ fs₂ fs₃ fs₄ : Fs} {bitmap : ℕ × Buf} {gd : Buf}
      (hreads : fs.ReadsBit g i bitmap fs₁) (hbit : bitmap.2.bit i = true)
      (hwrite : writeBlockBitmap bitmap.1 (bitmap.2.clearBit i) fs₁ = (some (), fs₂))
      (hdesc : readGroupDesc g fs₂ = (some gd, fs₃))
      (hstore : storeGroupDesc g (Volume.raiseFree gd) fs₃ = (none, fs₄)) : Frees g i fs none fs₄
  | freed {fs₁ fs₂ fs₃ fs₄ : Fs} {bitmap : ℕ × Buf} {gd : Buf}
      (hreads : fs.ReadsBit g i bitmap fs₁) (hbit : bitmap.2.bit i = true)
      (hwrite : writeBlockBitmap bitmap.1 (bitmap.2.clearBit i) fs₁ = (some (), fs₂))
      (hdesc : readGroupDesc g fs₂ = (some gd, fs₃))
      (hstore : storeGroupDesc g (Volume.raiseFree gd) fs₃ = (some (), fs₄)) :
      Frees g i fs (some ()) { (bgSync fs₄).2 with sbi := (bgSync fs₄).2.sbi.dropBmapCache g }

/-- A release ends in one of these ways. -/
theorem wp_freeBlock {fs : Fs} (hgd : fs.sbi.sGroupDesc.isSome) (blocknr : ℕ) :
    wp (ext4FreeBlock blocknr)
      (fs.Frees (blocknr / fs.sbi.sBlocksPerGroup) (blocknr % fs.sbi.sBlocksPerGroup)) fs := by
  unfold ext4FreeBlock
  rw [wp, get_bind, guard_true hgd, pure_bind']
  generalize blocknr / fs.sbi.sBlocksPerGroup = g
  generalize blocknr % fs.sbi.sBlocksPerGroup = i
  by_cases hg : g < fs.sbi.sGroupsCount
  swap
  · rw [guard_false hg, fail_bind]
    exact .refuse fun h ↦ hg h.1
  rw [guard_true hg, pure_bind']
  by_cases hi : i < fs.sbi.sBlocksPerGroup
  swap
  · rw [guard_false hi, fail_bind]
    exact .refuse fun h ↦ hi h.2.1
  rw [guard_true hi, pure_bind', mallocBlock, bind_assoc', get_bind]
  by_cases hbs : fs.blockSize ≤ blockSizeDefault
  swap
  · rw [guard_false hbs, fail_bind]
    exact .refuse fun h ↦ hbs h.2.2
  rw [guard_true hbs, pure_bind']
  rcases hread : readBlockBitmap g fs with ⟨_ | bitmap, fs₁⟩
  · rw [bind_of_eq_none hread]
    exact .noBitmap hg hread
  rw [bind_of_eq_some hread]
  by_cases hbyte : i / 8 < fs.blockSize
  swap
  · rw [guard_false hbyte, fail_bind]
    exact .outside hg hread hbyte
  have hreads : fs.ReadsBit g i bitmap fs₁ := ⟨hg, hi, hbs, hread, hbyte⟩
  rw [guard_true hbyte, pure_bind']
  -- a block that is free already is left as it is
  cases hbit : bitmap.2.bit i with
  | false =>
    rw [Bool.not_false, if_pos rfl]
    exact .clear hreads hbit
  | true =>
    rw [Bool.not_true, if_neg (by decide)]
    rcases hwrite : writeBlockBitmap bitmap.1 (bitmap.2.clearBit i) fs₁ with ⟨_ | _, fs₂⟩
    · rw [bind_of_eq_none hwrite]
      exact .noWrite hreads hbit hwrite
    rw [bind_of_eq_some hwrite]
    rcases hdesc : readGroupDesc g fs₂ with ⟨_ | gd, fs₃⟩
    · rw [bind_of_eq_none hdesc]
      exact .noDesc hreads hbit hwrite hdesc
    rw [bind_of_eq_some hdesc, ← Volume.raiseFree]
    rcases hstore : storeGroupDesc g (Volume.raiseFree gd) fs₃ with ⟨_ | _, fs₄⟩
    · rw [bind_of_eq_none hstore]
      exact .noStore hreads hbit hwrite hdesc hstore
    · rw [bind_of_eq_some hstore, bind_of_eq_some (bgSync_eq fs₄)]
      exact .freed hreads hbit hwrite hdesc hstore

end Fs

end MiniExt4
