import MiniExt4.Ext4.Formatted

/-!
# What the search for free blocks finds

`ext4_new_blocks_in_group` fails only where every group is full but for its bit 0
(`Balloc.newBlocks_complete`). It searches each group on the two sides of its cursor, from the cursor
on and then before it, and so misses a run that lies across the cursor; in its second pass it takes
what the first group with a clear bit has to give. `Balloc.getsRun_iff` says in which states a call for
several blocks gets a run of that length where there is one, and the longest there is where there is
none.

What a call finds depends on the state of the cursor and on the bitmaps only. `Searched` and `Chosen` of
`BallocBits` say what every group that was passed over looked like, and the two conditions are read off
them: `HasOneSided`, that some group has the run on one side of its cursor, and `FirstIsLongest`, that the
group which the second pass settles for has the longest run of all.
-/

namespace MiniExt4

open StateErr

namespace Volume

variable {V : Volume} {n g goalLen bpg bc gc : ℕ} {fs fs' : Fs}

/-! ### The geometry -/

/-- Nothing wraps, so the allocator has groups to search. -/
theorem Image.allocGeometry_isSome (h : V.Image n fs)
    (hwrap : V.blocks + min (V.bs * 8) V.blocks - 1 < 2 ^ 32) : fs.allocGeometry.isSome := by
  have hsb : fs.sbi.sBlocksCount = V.blocks := congrArg SbGeom.sBlocksCount h.geom
  have hbs := h.laid.bs_pos
  have hle := h.laid.bs_le
  have hblocks := h.laid.blocks_pos
  unfold Fs.allocGeometry
  simp only [h.blockSize, h.blocksCount, hsb, if_neg hbs.ne', ite_self, if_neg hblocks.ne',
    u32_of_lt (show V.bs * 8 < 2 ^ 32 by omega), if_neg (show ¬ V.bs * 8 = 0 by omega)]
  generalize hdev : (if u32 fs.dev.bdNrSectors / ext4SectorsPerBlock V.bs fs.dev > 0 ∧
    V.blocks > u32 fs.dev.bdNrSectors / ext4SectorsPerBlock V.bs fs.dev then
      u32 fs.dev.bdNrSectors / ext4SectorsPerBlock V.bs fs.dev else V.blocks) = c
  have hc : 0 < c ∧ c ≤ V.blocks := by
    rw [← hdev]
    split <;> omega
  generalize hp : (if V.bs * 8 > c then c else V.bs * 8) = p
  have hp' : 0 < p ∧ p ≤ min (V.bs * 8) V.blocks := by
    rw [← hp]
    split <;> omega
  generalize hk : (if fs.sbi.sGroupsCount > 0 ∧ u32 (fs.sbi.sGroupsCount * p) > 0 ∧
    u32 (fs.sbi.sGroupsCount * p) < c then u32 (fs.sbi.sGroupsCount * p) else c) = k
  have hk' : 0 < k ∧ k ≤ c := by
    rw [← hk]
    split <;> omega
  have hne : ¬ u32 (k + p - 1) / p = 0 := by
    rw [u32_of_lt (by omega)]
    exact (Nat.div_pos (by omega) hp'.1).ne'
  rw [if_neg hne]
  rfl

/-- On a device that holds all blocks of the volume, the groups are those of the volume. -/
theorem Image.allocGeometry_eq (h : V.Image n fs) (hper : V.perGroup = min (V.bs * 8) V.blocks)
    (hgroups : V.groups = u32 (V.blocks + V.perGroup - 1) / V.perGroup)
    (hwrap : V.groups * V.perGroup < 2 ^ 32) (hcover : V.blocks ≤ V.groups * V.perGroup)
    (hdev : V.blocks ≤ u32 fs.dev.bdNrSectors / ext4SectorsPerBlock V.bs fs.dev) :
    fs.allocGeometry = some (V.perGroup, V.blocks, V.groups) := by
  have hsb : fs.sbi.sBlocksCount = V.blocks := congrArg SbGeom.sBlocksCount h.geom
  have hsg : fs.sbi.sGroupsCount = V.groups := congrArg SbGeom.sGroupsCount h.geom
  have hbs := h.laid.bs_pos
  have hle := h.laid.bs_le
  have hblocks := h.laid.blocks_pos
  have hpos := h.laid.groups_pos
  have hmin : (if V.bs * 8 > V.blocks then V.blocks else V.bs * 8) = V.perGroup := by
    rw [hper]
    split <;> omega
  have hcap : (if u32 fs.dev.bdNrSectors / ext4SectorsPerBlock V.bs fs.dev > 0 ∧
      V.blocks > u32 fs.dev.bdNrSectors / ext4SectorsPerBlock V.bs fs.dev then
        u32 fs.dev.bdNrSectors / ext4SectorsPerBlock V.bs fs.dev else V.blocks) = V.blocks :=
    if_neg fun hsmall ↦ absurd hsmall.2 (Nat.not_lt.2 hdev)
  have hby : (if V.groups > 0 ∧ u32 (V.groups * V.perGroup) > 0 ∧
      u32 (V.groups * V.perGroup) < V.blocks then u32 (V.groups * V.perGroup) else V.blocks) =
        V.blocks :=
    if_neg fun hfew ↦ absurd (u32_of_lt hwrap ▸ hfew.2.2) (Nat.not_lt.2 hcover)
  unfold Fs.allocGeometry
  simp only [h.blockSize, h.blocksCount, hsb, hsg, if_neg hbs.ne', ite_self, if_neg hblocks.ne',
    u32_of_lt (show V.bs * 8 < 2 ^ 32 by omega), if_neg (show ¬ V.bs * 8 = 0 by omega), hcap, hmin,
    hby, ← hgroups, if_neg hpos.ne']

/-! ### Runs of a given length -/

/-- Some group has `l` consecutive clear bits, bit 0 apart. -/
def HasRun (V : Volume) (fs : Fs) (l : ℕ) : Prop :=
  ∃ bpg bc gc, fs.allocGeometry = some (bpg, bc, gc) ∧ ∃ g < gc, ∃ i,
    ClearRun (fs.block (V.blockBitmap g)) 1 (min bpg (bc - g * bpg)) i l

/-- A call for `goalLen` blocks gets as many if some group has as many in a row, and otherwise the
longest run of all groups; what it gets is a clear run. -/
structure GetsRun (V : Volume) (goalLen : ℕ) (fs : Fs) (r : Option (ℕ × ℕ)) : Prop where
  run : ∀ b len, r = some (b, len) → ∃ bpg bc gc, fs.allocGeometry = some (bpg, bc, gc) ∧
    ∃ g < gc, ∃ i, b = g * bpg + i ∧
      ClearRun (fs.block (V.blockBitmap g)) 1 (min bpg (bc - g * bpg)) i len
  full : V.HasRun fs goalLen → ∃ b, r = some (b, goalLen)
  longest : ¬ V.HasRun fs goalLen → ∀ l, 0 < l → V.HasRun fs l →
    ∃ b len, r = some (b, len) ∧ l ≤ len

/-- The code can read the descriptor of the group. -/
def Searches (V : Volume) (g : ℕ) : Prop := V.bs ≤ blockSizeDefault ∧ V.Group g

/-- Some group has `goalLen` clear bits in a row on one side of its cursor. -/
def HasOneSided (V : Volume) (goalLen : ℕ) (fs : Fs) : Prop :=
  ∃ bpg bc gc, fs.allocGeometry = some (bpg, bc, gc) ∧
    ∃ g < gc, V.Searches g ∧ V.OneSidedIn bpg bc fs g goalLen

/-- The first group with a clear bit, in the order in which the groups are searched, has a run as long
as any on the side of its cursor that is taken. -/
def FirstIsLongest (V : Volume) (preferredGroup : ℕ) (fs : Fs) : Prop :=
  ∃ bpg bc gc, fs.allocGeometry = some (bpg, bc, gc) ∧
    let group := visit (fs.startGroup preferredGroup gc) gc
    ∃ k < gc, (∀ j < k, V.Searches (group j) → V.Full bpg bc fs (group j)) ∧ V.Searches (group k) ∧
      ∃ l, V.NextFitIn bpg bc fs (group k) l ∧ ∀ l', V.HasRun fs l' → l' ≤ l

/-- A run on one side of the cursor is a run. -/
theorem OneSidedIn.exists_run {l : ℕ} (h : V.OneSidedIn bpg bc fs g l) (hl : 0 < l) :
    ∃ i, ClearRun (fs.block (V.blockBitmap g)) 1 (min bpg (bc - g * bpg)) i l := by
  have hstart := fs.one_le_startBit g (min bpg (bc - g * bpg))
  obtain ⟨i, hrun | hrun⟩ := h
  · exact ⟨i, hrun.mono hstart le_rfl⟩
  · have hlo := hrun.lo_le
    have hhi := hrun.le_hi
    have hend : 1 < min bpg (bc - g * bpg) := by
      by_contra hsmall
      unfold Fs.startBit at hhi
      split at hhi <;> (try split at hhi) <;> omega
    have hlt := fs.startBit_lt g hend
    exact ⟨i, hrun.mono le_rfl (by omega)⟩

theorem NextFitIn.oneSidedIn {l : ℕ} (h : V.NextFitIn bpg bc fs g l) : V.OneSidedIn bpg bc fs g l := by
  obtain ⟨-, hlong | ⟨-, hlong⟩⟩ := h
  · exact hlong.exists_run.imp fun _ ↦ .inl
  · exact hlong.exists_run.imp fun _ ↦ .inr

theorem OneSidedIn.take {l l' : ℕ} (h : V.OneSidedIn bpg bc fs g l') (hle : l ≤ l') :
    V.OneSidedIn bpg bc fs g l :=
  h.imp fun _ hrun ↦ hrun.imp (·.take hle) (·.take hle)

/-- What a group has to give is something. -/
theorem NextFitIn.not_full {l : ℕ} (h : V.NextFitIn bpg bc fs g l) : ¬ V.Full bpg bc fs g := by
  intro hfull
  obtain ⟨i, hrun⟩ := h.oneSidedIn.exists_run h.1
  have hpos := h.1
  have hhi := hrun.le_hi
  have hused := hfull i hrun.lo_le (by omega)
  rw [hrun.clear i le_rfl (by omega)] at hused
  exact Bool.false_ne_true hused

theorem NextFitIn.unique {l l' : ℕ} (h : V.NextFitIn bpg bc fs g l) (h' : V.NextFitIn bpg bc fs g l') :
    l = l' := by
  have hone : ∀ {lo hi l l'}, IsLongest (fs.block (V.blockBitmap g)) lo hi l →
      IsLongest (fs.block (V.blockBitmap g)) lo hi l' → l = l' := by
    intro lo hi l l' hl hl'
    obtain ⟨s, hs⟩ := hl.exists_run
    obtain ⟨s', hs'⟩ := hl'.exists_run
    exact le_antisymm (hl'.le s l hs) (hl.le s' l' hs')
  obtain ⟨hpos, hhigh | ⟨hzero, hlow⟩⟩ := h <;> obtain ⟨hpos', hhigh' | ⟨hzero', hlow'⟩⟩ := h'
  · exact hone hhigh hhigh'
  · have := hone hhigh hzero'
    omega
  · have := hone hhigh' hzero
    omega
  · exact hone hlow hlow'

theorem HasOneSided.hasRun (h : V.HasOneSided goalLen fs) (hgoal : 0 < goalLen) :
    V.HasRun fs goalLen := by
  obtain ⟨bpg, bc, gc, hgeom, g, hg, -, hsided⟩ := h
  exact ⟨bpg, bc, gc, hgeom, g, hg, hsided.exists_run hgoal⟩

/-! ### When the search gets the longest run -/

/-- What is known of the outcome `r` of a call for `goalLen` blocks. -/
structure Outcome (V : Volume) (goalLen preferredGroup : ℕ) (fs : Fs) (r : Option (ℕ × ℕ)) : Prop where
  bs_le : r.isSome → V.bs ≤ blockSizeDefault
  run : ∀ b len, r = some (b, len) → ∃ bpg bc gc, fs.allocGeometry = some (bpg, bc, gc) ∧
    ∃ g < gc, ∃ i, b = g * bpg + i ∧
      ClearRun (fs.block (V.blockBitmap g)) 1 (min bpg (bc - g * bpg)) i len
  chosen : V.bs ≤ blockSizeDefault → ∀ bpg bc gc, fs.allocGeometry = some (bpg, bc, gc) →
    V.Chosen goalLen bpg bc gc (fs.startGroup preferredGroup gc) fs r

theorem Coherent.outcome (h : V.Coherent n fs) (hgoal : 0 < goalLen) (preferredGroup : ℕ) :
    V.Outcome goalLen preferredGroup fs (Fs.ext4NewBlocksInGroup goalLen preferredGroup fs).1 := by
  obtain ⟨hnew, hchosen⟩ := h.newBlocks_chosen goalLen preferredGroup
  rw [show max 1 goalLen = goalLen by omega] at hnew hchosen
  generalize (Fs.ext4NewBlocksInGroup goalLen preferredGroup fs).1 = r at hnew hchosen
  refine ⟨fun hsome ↦ ?_, fun b len hr ↦ ?_, hchosen⟩
  · obtain ⟨⟨b, len⟩, rfl⟩ := Option.isSome_iff_exists.1 hsome
    obtain ⟨_, -, g, -, i, -, hrun⟩ := hnew
    exact hrun.bs_le
  · subst hr
    obtain ⟨⟨bpg, bc, gc⟩, hgeom, g, hg, i, hb, hrun⟩ := hnew
    exact ⟨bpg, bc, gc, hgeom, g, hg, i, hb, hrun.pos, hrun.le_limit, hrun.clear⟩

theorem Outcome.getsRun_of_hasOneSided {preferredGroup : ℕ} {r : Option (ℕ × ℕ)}
    (h : V.Outcome goalLen preferredGroup fs r) (hgoal : 1 < goalLen) (hsided : V.HasOneSided goalLen fs) :
    V.GetsRun goalLen fs r := by
  refine ⟨h.run, fun _ ↦ ?_, fun hno ↦ absurd (hsided.hasRun (by omega)) hno⟩
  obtain ⟨bpg, bc, gc, hgeom, g, hg, ⟨hbs, hV⟩, hrun⟩ := hsided
  have hchosen := h.chosen hbs bpg bc gc hgeom
  rcases r with _ | ⟨b, len⟩
  · exact absurd (hrun.take (by simp; omega)) (hchosen g hg hV)
  · rcases hchosen hgoal with ⟨-, rfl⟩ | ⟨hno, -⟩
    · exact ⟨b, rfl⟩
    · exact absurd hrun (hno g hg hV)

theorem Outcome.getsRun_of_firstIsLongest {preferredGroup : ℕ} {r : Option (ℕ × ℕ)}
    (h : V.Outcome goalLen preferredGroup fs r) (hgoal : 1 < goalLen) (hno : ¬ V.HasRun fs goalLen)
    (hfirst : V.FirstIsLongest preferredGroup fs) : V.GetsRun goalLen fs r := by
  refine ⟨h.run, fun hrun ↦ absurd hrun hno, fun _ l hl hrun ↦ ?_⟩
  obtain ⟨bpg, bc, gc, hgeom, k, hk, hbefore, ⟨hbs, hV⟩, l₀, hfit, hmax⟩ := hfirst
  have hchosen := h.chosen hbs bpg bc gc hgeom
  have hgc : 0 < gc := by omega
  have hlt := visit_lt (fs.startGroup_lt preferredGroup hgc) hk
  rcases r with _ | ⟨b, len⟩
  · exact absurd (hfit.oneSidedIn.take hfit.1) (hchosen _ hlt hV)
  refine ⟨b, len, rfl, (hmax l hrun).trans_eq ?_⟩
  rcases hchosen hgoal with ⟨⟨g, hg, hV', hsided⟩, -⟩ | ⟨-, k', hk', hbefore', hV', hfit'⟩
  · exact absurd ⟨bpg, bc, gc, hgeom, g, hg, hsided.exists_run (by omega)⟩ hno
  rcases Nat.lt_trichotomy k k' with hlt | rfl | hlt
  · exact absurd ((hbefore' k hlt).full hV) hfit.not_full
  · exact hfit.unique hfit'
  · exact absurd (hbefore k' hlt ⟨hbs, hV'⟩) hfit'.not_full

theorem Outcome.condition_of_getsRun {preferredGroup : ℕ} {r : Option (ℕ × ℕ)}
    (h : V.Outcome goalLen preferredGroup fs r) (hgoal : 1 < goalLen) (hgets : V.GetsRun goalLen fs r) :
    V.HasOneSided goalLen fs ∨ ¬ V.HasRun fs goalLen ∧
      ((∀ l, V.HasRun fs l → l = 0) ∨ V.FirstIsLongest preferredGroup fs) := by
  -- what a call that succeeds chose
  have hcases : ∀ b len, r = some (b, len) → V.HasOneSided goalLen fs ∨
      ∃ bpg bc gc, fs.allocGeometry = some (bpg, bc, gc) ∧
        let group := visit (fs.startGroup preferredGroup gc) gc
        ∃ k < gc, (∀ j < k, V.Searches (group j) → V.Full bpg bc fs (group j)) ∧
          V.Searches (group k) ∧ V.NextFitIn bpg bc fs (group k) len := by
    rintro b len rfl
    have hbs := h.bs_le rfl
    obtain ⟨bpg, bc, gc, hgeom, -⟩ := h.run b len rfl
    rcases h.chosen hbs bpg bc gc hgeom hgoal with ⟨⟨g, hg, hV, hsided⟩, -⟩ |
      ⟨-, k, hk, hbefore, hV, hfit⟩
    · exact .inl ⟨bpg, bc, gc, hgeom, g, hg, ⟨hbs, hV⟩, hsided⟩
    · exact .inr ⟨bpg, bc, gc, hgeom, k, hk, fun j hj hs ↦ (hbefore j hj).full hs.2, ⟨hbs, hV⟩, hfit⟩
  by_cases hrun : V.HasRun fs goalLen
  · obtain ⟨b, hr⟩ := hgets.full hrun
    rcases hcases b goalLen hr with hsided | ⟨bpg, bc, gc, hgeom, k, hk, -, hs, hfit⟩
    · exact .inl hsided
    · exact .inl ⟨bpg, bc, gc, hgeom, _, visit_lt (fs.startGroup_lt preferredGroup (by omega)) hk, hs,
        hfit.oneSidedIn⟩
  · refine .inr ⟨hrun, ?_⟩
    by_cases hany : ∀ l, V.HasRun fs l → l = 0
    · exact .inl hany
    push Not at hany
    obtain ⟨l, hl, hpos⟩ := hany
    obtain ⟨b, len, hr, -⟩ := hgets.longest hrun l (by omega) hl
    rcases hcases b len hr with hsided | ⟨bpg, bc, gc, hgeom, k, hk, hbefore, hs, hfit⟩
    · exact absurd (hsided.hasRun (by omega)) hrun
    refine .inr ⟨bpg, bc, gc, hgeom, k, hk, hbefore, hs, len, hfit, fun l' hl' ↦ ?_⟩
    rcases Nat.eq_zero_or_pos l' with rfl | hpos'
    · exact Nat.zero_le _
    · obtain ⟨b', len', hr', hle⟩ := hgets.longest hrun l' hpos' hl'
      obtain ⟨-, rfl⟩ : b = b' ∧ len = len' := by simpa using hr.symm.trans hr'
      exact hle

end Volume

/-! ### The two properties -/

namespace Balloc

open Volume

/-- The bits of the block bitmaps after a call: one run of one group is set, and nothing else. -/
def SetsRun (V : Volume) (fs fs' : Fs) (gc g i len : ℕ) : Prop :=
  ∀ g' < gc, ∀ j < 8 * V.bs, (fs'.block (V.blockBitmap g')).bit j =
    ((fs.block (V.blockBitmap g')).bit j || decide (g' = g ∧ i ≤ j ∧ j < i + len))

/-- What a call returns: 0 if every group is full but for its bit 0, and otherwise a run of at most
`goalLen` blocks whose bits were clear, and are the only ones that changed. -/
def Completes (V : Volume) (goalLen : ℕ) (fs : Fs) (bpg bc gc : ℕ) : Option (ℕ × ℕ) × Fs → Prop
  | (none, _) => ∀ g < gc, ∀ i, 1 ≤ i → i < min bpg (bc - g * bpg) →
      (fs.block (V.blockBitmap g)).bit i = true
  | (some (b, len), fs') => ∃ g < gc, ∃ i, b = g * bpg + i ∧ 1 ≤ len ∧ len ≤ goalLen ∧
      ClearRun (fs.block (V.blockBitmap g)) 1 (min bpg (bc - g * bpg)) i len ∧
      SetsRun V fs fs' gc g i len

theorem setsRun_of_changed {V : Volume} {fs fs' : Fs} {gc g i len : ℕ} {gd : Buf}
    (hchanged : V.Changed g ((fs.block (V.blockBitmap g)).setBits i (i + len)) gd fs fs')
    (hgroup : ∀ g' < gc, V.Group g') : SetsRun V fs fs' gc g i len := by
  intro g' hg' j hj
  by_cases heq : g' = g
  · rw [heq, hchanged.bitmap, Buf.bit_clip _ hj, Buf.bit_setBits]
    simp
  · rw [hchanged.bitmap_ne g' (hgroup g' hg') heq]
    simp [heq]

theorem completes {V : Volume} {n bpg bc gc : ℕ} {fs : Fs} (h : V.Coherent n fs)
    (hbs : V.bs ≤ blockSizeDefault) (hgeom : fs.allocGeometry = some (bpg, bc, gc))
    (hgroup : ∀ g < gc, V.Group g) {goalLen : ℕ} (hgoal : 1 ≤ goalLen) (preferredGroup : ℕ) :
    Completes V goalLen fs bpg bc gc (Fs.ext4NewBlocksInGroup goalLen preferredGroup fs) := by
  have hpost := h.newBlocks goalLen preferredGroup
  rw [show max 1 goalLen = goalLen by omega] at hpost
  rcases hrun : Fs.ext4NewBlocksInGroup goalLen preferredGroup fs with ⟨_ | ⟨b, len⟩, fs'⟩ <;>
    rw [wp_of_eq hrun] at hpost
  · exact fun g hg i hi hi' ↦ hpost.2.2.2 hbs _ hgeom g hg (hgroup g hg) i hi hi'
  · obtain ⟨geom, hgeom', g, hg, i, hb, htook⟩ := hpost
    obtain rfl : (bpg, bc, gc) = geom := Option.some.inj (hgeom.symm.trans hgeom')
    exact ⟨g, hg, i, hb, htook.len_pos, htook.len_le, ⟨htook.pos, htook.le_limit, htook.clear⟩,
      setsRun_of_changed htook.changed hgroup⟩

/-- **The allocator finds free space if there is any.** `fs` is any state of a volume of 4096-byte
blocks that was formatted and mounted: any bitmaps, any cursors, any cached bitmap. The groups are
those that `ext4_new_blocks_in_group` works with, all of the volume's where the device holds them. -/
theorem newBlocks_complete {now now' total n : ℕ} {d d₁ d₂ : BlockDevice} {sbi : SbInfo} {fs : Fs}
    (hd : d.Usable 4096 n) (htotal : total < 2 ^ 32)
    (hmkfs : ext4Mkfs now 4096 total d = (some (), d₁)) (hmagic : HasMagic (d₁.block 4096 0))
    (hmount : ext4FillSuper now' d₁ = (some sbi, d₂))
    (hfs : (Mkfs.volume 4096 total sbi.toSbGeom).Coherent n fs) {goalLen : ℕ} (hgoal : 1 ≤ goalLen)
    (preferredGroup : ℕ) :
    ∃ bpg bc gc, fs.allocGeometry = some (bpg, bc, gc) ∧
      (total ≤ u32 fs.dev.bdNrSectors / ext4SectorsPerBlock 4096 fs.dev →
        (bpg, bc, gc) =
          (Mkfs.blocksPerGroup 4096 total, total, Mkfs.groupsCount 4096 total)) ∧
      Completes (Mkfs.volume 4096 total sbi.toSbGeom) goalLen fs bpg bc gc
        (Fs.ext4NewBlocksInGroup goalLen preferredGroup fs) := by
  have hformatted := Mkfs.formatted_of_mkfs hd htotal hmkfs hmagic
  obtain ⟨hgeom, -⟩ := hformatted.mount hmount
  set V := Mkfs.volume 4096 total sbi.toSbGeom with hV
  have hbs : V.bs = 4096 := hgeom.sBlockSize
  have hblocks : V.blocks = total := hgeom.sBlocksCount
  have hgroups : V.groups = Mkfs.groupsCount 4096 total := hgeom.sGroupsCount
  have hper : V.perGroup = Mkfs.blocksPerGroup 4096 total := hgeom.sBlocksPerGroup
  have hmin : Mkfs.blocksPerGroup 4096 total = min (4096 * 8) total := by
    rw [Mkfs.blocksPerGroup]
    split <;> omega
  have hwrap := hformatted.spaced.no_wrap
  have hpos := hformatted.total_pos
  have hsome := hfs.allocGeometry_isSome (by rw [hblocks, hbs, ← hmin]; exact hwrap)
  obtain ⟨⟨bpg, bc, gc⟩, halloc⟩ := Option.isSome_iff_exists.1 hsome
  have hle : V.bs ≤ blockSizeDefault := by
    rw [hbs]
    decide
  have hgc := (hfs.allocGeometry hle halloc).groups_le
  refine ⟨bpg, bc, gc, halloc, fun hdev ↦ ?_, completes hfs hle halloc (fun g hg ↦ ?_) hgoal _⟩
  · -- the last group may be shorter, and the groups cover all blocks
    have hcover : total ≤ Mkfs.groupsCount 4096 total * Mkfs.blocksPerGroup 4096 total := by
      have hdiv := Nat.div_add_mod' (total + Mkfs.blocksPerGroup 4096 total - 1)
        (Mkfs.blocksPerGroup 4096 total)
      have hmod := Nat.mod_lt (total + Mkfs.blocksPerGroup 4096 total - 1)
        (show 0 < Mkfs.blocksPerGroup 4096 total by omega)
      rw [Mkfs.groupsCount, u32_of_lt hwrap]
      omega
    have heq := hfs.toCarried.toImage.allocGeometry_eq (by rw [hper, hmin, hbs, hblocks])
      (by rw [hgroups, hblocks, hper, Mkfs.groupsCount])
      (by rw [hgroups, hper]; exact hformatted.bits_lt) (by rwa [hgroups, hper, hblocks])
      (by rwa [hblocks, hbs])
    rw [halloc, hper, hblocks, hgroups] at heq
    exact Option.some.inj heq
  · exact hgeom.group hformatted.spaced.ne_1024 (by norm_num) (by norm_num) ⟨12, rfl⟩ htotal
      hformatted.groups_pos (hgroups ▸ lt_of_lt_of_le hg hgc)

theorem coherent_small : (Mkfs.volume 4096 64 Mkfs.smallSb.toSbGeom).Coherent 64 Mkfs.smallFs := by
  obtain ⟨hgeom, hmounted⟩ := Mkfs.mounted_small
  have hcoherent := hmounted.coherent
  rwa [show (Mkfs.volume 4096 64 Mkfs.smallSb.toSbGeom).blocks = 64 from hgeom.sBlocksCount]
    at hcoherent

theorem newBlocks_complete_64 : ∃ bpg bc gc, Mkfs.smallFs.allocGeometry = some (bpg, bc, gc) ∧
    (64 ≤ u32 Mkfs.smallFs.dev.bdNrSectors / ext4SectorsPerBlock 4096 Mkfs.smallFs.dev →
      (bpg, bc, gc) = (Mkfs.blocksPerGroup 4096 64, 64, Mkfs.groupsCount 4096 64)) ∧
    Completes (Mkfs.volume 4096 64 Mkfs.smallSb.toSbGeom) 5 Mkfs.smallFs bpg bc gc
      (Fs.ext4NewBlocksInGroup 5 0 Mkfs.smallFs) :=
  newBlocks_complete (BlockDevice.holds_blank 512 8 64 (by norm_num) (by norm_num)).1 (by norm_num)
    Mkfs.mkfs_small (by unfold HasMagic; decide +kernel) Mkfs.fillSuper_small_eq coherent_small
    (by norm_num) 0

/-- **When a call for several blocks gets the run it asks for.** It does if some group has that many
clear bits in a row on one side of its cursor. If no group has as many in a row at all, it gets the
longest run where nothing is clear, or where the first group with a clear bit has it. -/
theorem getsRun_iff {V : Volume} {n : ℕ} {fs : Fs} (h : V.Coherent n fs) {goalLen : ℕ}
    (hgoal : 1 < goalLen) (preferredGroup : ℕ) :
    V.GetsRun goalLen fs (Fs.ext4NewBlocksInGroup goalLen preferredGroup fs).1 ↔
      V.HasOneSided goalLen fs ∨ ¬ V.HasRun fs goalLen ∧
        ((∀ l, V.HasRun fs l → l = 0) ∨ V.FirstIsLongest preferredGroup fs) := by
  have houtcome := h.outcome (show 0 < goalLen by omega) preferredGroup
  refine ⟨houtcome.condition_of_getsRun hgoal, ?_⟩
  rintro (hsided | ⟨hno, hzero | hfirst⟩)
  · exact houtcome.getsRun_of_hasOneSided hgoal hsided
  · exact ⟨houtcome.run, fun hrun ↦ absurd hrun hno, fun _ l hl hrun ↦ by
      have := hzero l hrun
      omega⟩
  · exact houtcome.getsRun_of_firstIsLongest hgoal hno hfirst

/-- The run of the example: five blocks from block 9 on. -/
theorem getsRun_iff_64 :
    (Mkfs.volume 4096 64 Mkfs.smallSb.toSbGeom).GetsRun 5 Mkfs.smallFs
      (Fs.ext4NewBlocksInGroup 5 0 Mkfs.smallFs).1 := by
  refine (getsRun_iff coherent_small (by norm_num) 0).2 (.inl ⟨64, 64, 1, by decide +kernel, 0, one_pos,
    ⟨?_, coherent_small.laid.groups_pos, ?_⟩, 9, .inl ⟨?_, ?_, ?_⟩⟩)
  all_goals decide +kernel

/-- A run of five clear bits, 58 to 62, lies across the cursor, which is at bit 60: a call for five
blocks gets four. -/
theorem not_getsRun_across : ∃ fs₁ fs₂ fs₃,
    Mkfs.smallFs.ext4NewBlocksInGroup 51 0 = (some (9, 51), fs₁) ∧
      fs₁.ext4FreeBlock 58 = (some (), fs₂) ∧ fs₂.ext4FreeBlock 59 = (some (), fs₃) ∧
        ¬ (Mkfs.volume 4096 64 Mkfs.smallSb.toSbGeom).GetsRun 5 fs₃
          (Fs.ext4NewBlocksInGroup 5 0 fs₃).1 := by
  refine ⟨_, _, _, eq_of_fst_eq (by decide +kernel), eq_of_fst_eq (by decide +kernel),
    eq_of_fst_eq (by decide +kernel), fun h ↦ ?_⟩
  obtain ⟨b, hb⟩ := h.full ⟨64, 64, 1, by decide +kernel, 0, one_pos, 58, by norm_num, by norm_num,
    by decide +kernel⟩
  have hfour := hb.symm.trans (show _ = some (60, 4) by decide +kernel)
  simp at hfour

end Balloc

end MiniExt4
