import MiniExt4.Ext4.BallocWalk
import MiniExt4.Ext4.Volume

/-!
# What the allocator does to bitmaps and descriptors

The functions of `fs/ext4/balloc.c` over a layout of any geometry: which bits of which group's bitmap
they set or clear, and what they store in the descriptors. No block number has a meaning here but as
the place of some metadata; which blocks the bits stand for is the business of `BallocSpec`.

The walk through the groups and the ways in which an iteration can end are those of `BallocWalk`. What is
added here is what each of them means for the bits: an iteration takes a run that was clear, and a run that
the scan passes over is none of the length wanted (`scanGroup_spec`, `NextFit`). So a call that fails has
seen every group full (`Lacks`), and one that succeeds has changed one run of one bitmap and the counts
(`TookRun`).

Nothing is assumed of what else is on the device. The two results that `BallocSpec` and `BallocAgree` start
from are `Coherent.newBlocks` and `Coherent.freeBlock`.
-/

namespace MiniExt4

open StateErr

/-! ### Searching a bitmap -/

/-- The `l` bits from bit `s` are clear and lie in `[lo, hi)`. -/
structure ClearRun (bitmap : Buf) (lo hi s l : ℕ) : Prop where
  lo_le : lo ≤ s
  le_hi : s + l ≤ hi
  clear : ∀ j, s ≤ j → j < s + l → bitmap.bit j = false

/-- A clear run of an interval is one of a larger interval. -/
theorem ClearRun.mono {bitmap : Buf} {lo hi lo' hi' s l : ℕ} (h : ClearRun bitmap lo hi s l)
    (hlo : lo' ≤ lo) (hhi : hi ≤ hi') : ClearRun bitmap lo' hi' s l :=
  ⟨hlo.trans h.lo_le, h.le_hi.trans hhi, h.clear⟩

/-- Before bit `i`: the `r.len` bits below it are clear, from bit `r.start`, and the best run so far
is at least that long and shorter than what is looked for. -/
structure FreeRun.Inv (bitmap : Buf) (lo i goalLen : ℕ) (r : FreeRun) : Prop where
  lo_le : lo + r.len ≤ i
  clear : ∀ j, i - r.len ≤ j → j < i → bitmap.bit j = false
  start : 0 < r.len → r.start + r.len = i
  le_alloc : r.len ≤ r.allocLen
  short : r.allocLen < goalLen

/-- The search ends with the run it started with or with a clear run of at most `goalLen` bits. -/
theorem scanLoop_spec (bitmap : Buf) (goalLen lo hi s₀ l₀ : ℕ) :
    ∀ n i (r : FreeRun), i + n = hi → r.Inv bitmap lo i goalLen →
      (r.startBit = s₀ ∧ r.allocLen = l₀ ∨ ClearRun bitmap lo i r.startBit r.allocLen) →
      let r' := scanLoop bitmap goalLen n i r
      (r'.startBit = s₀ ∧ r'.allocLen = l₀ ∨ ClearRun bitmap lo hi r'.startBit r'.allocLen) ∧
        r'.allocLen ≤ goalLen := by
  intro n
  -- the best run so far lies behind the bits that were seen, and the current one ends with them
  induction n with
  | zero =>
    intro i r hend hinv hbest
    obtain rfl : i = hi := hend
    exact ⟨hbest, hinv.short.le⟩
  | succ n ih =>
    intro i r hend hinv hbest
    obtain ⟨hle, hclear, hstart, halloc, hshort⟩ := hinv
    by_cases hbit : bitmap.bit i = true
    · -- a used bit ends the current run
      have hno : ¬ goalLen ≤ r.allocLen := by omega
      simp only [scanLoop, hbit, if_true, gt_iff_lt, Nat.not_lt_zero, if_false, ge_iff_le, hno]
      refine ih (i + 1) _ (by omega) ⟨by simp only; omega, ?_, by simp, by simp, hshort⟩ ?_
      · intro j hj hj'
        simp only at hj
        omega
      · exact hbest.imp_right fun h ↦ h.mono le_rfl (by omega)
    · -- a clear bit extends it
      have hfree : bitmap.bit i = false := by simpa using hbit
      have hnew : (if r.len = 0 then i else r.start) + (r.len + 1) = i + 1 := by
        split <;> omega
      have hrun : ∀ j, i + 1 - (r.len + 1) ≤ j → j < i + 1 → bitmap.bit j = false := by
        intro j hj hj'
        rcases Nat.lt_or_eq_of_le (Nat.le_of_lt_succ hj') with hlt | rfl
        · exact hclear j (by omega) hlt
        · exact hfree
      simp only [scanLoop, hfree, Bool.false_eq_true, if_false, gt_iff_lt, ge_iff_le]
      by_cases hlonger : r.allocLen < r.len + 1
      · have hbetter : ClearRun bitmap lo (i + 1) (if r.len = 0 then i else r.start) (r.len + 1) :=
          ⟨by omega, by omega, fun j hj hj' ↦ hrun j (by omega) (by omega)⟩
        simp only [if_pos hlonger]
        by_cases hdone : goalLen ≤ r.len + 1
        · simp only [if_pos hdone]
          exact ⟨.inr (hbetter.mono le_rfl (by omega)), by omega⟩
        · simp only [if_neg hdone]
          exact ih (i + 1) _ (by omega)
            ⟨by simp only; omega, hrun, fun _ ↦ hnew, le_rfl, by simp only; omega⟩ (.inr hbetter)
      · have hno : ¬ goalLen ≤ r.allocLen := by omega
        simp only [if_neg hlonger, if_neg hno]
        exact ih (i + 1) _ (by omega)
          ⟨by simp only; omega, hrun, fun _ ↦ hnew, by simp only; omega, hshort⟩
          (hbest.imp_right fun h ↦ h.mono le_rfl (by omega))

/-- A search that finds something new finds a clear run. -/
theorem bmapScanFreeRun_spec (bitmap : Buf) (blockSize lo hi : ℕ) {goalLen s₀ l₀ : ℕ}
    (mustFull : Bool) (hl₀ : l₀ < goalLen) :
    let r := bmapScanFreeRun bitmap blockSize lo hi goalLen s₀ l₀ mustFull
    (r.2.1 = s₀ ∧ r.2.2 = l₀ ∨ ClearRun bitmap lo hi r.2.1 r.2.2) ∧ r.2.2 ≤ goalLen ∧
      (r.1 = true → 0 < r.2.2 ∧ (mustFull = true → goalLen ≤ r.2.2)) ∧
      (r.1 = false → (l₀ = 0 ∨ mustFull = true) → r.2.2 < if mustFull then goalLen else 1) := by
  unfold bmapScanFreeRun
  by_cases hbig : hi > blockSize * 8
  · rw [if_pos hbig]
    refine ⟨.inl ⟨rfl, rfl⟩, hl₀.le, by simp, fun _ h ↦ ?_⟩
    cases mustFull <;> simp at h ⊢ <;> omega
  by_cases hempty : lo ≥ hi
  · rw [if_neg hbig, if_pos hempty]
    refine ⟨.inl ⟨rfl, rfl⟩, hl₀.le, by simp, fun _ h ↦ ?_⟩
    cases mustFull <;> simp at h ⊢ <;> omega
  rw [if_neg hbig, if_neg hempty]
  obtain ⟨hrun, hle⟩ := scanLoop_spec bitmap goalLen lo hi s₀ l₀ (hi - lo) lo
    ⟨0, 0, s₀, l₀⟩ (by omega)
    ⟨by simp, fun j hj hj' ↦ by simp only at hj; omega, by simp, by simp, hl₀⟩ (.inl ⟨rfl, rfl⟩)
  refine ⟨hrun, hle, ?_, ?_⟩
  · cases mustFull with
    | false => simp
    | true =>
      simp
      omega
  · cases mustFull <;> simp
    omega

/-- Before bit `i`: no clear run from `lo` on that ends here is longer than the current one, and none
at all is longer than the best. -/
structure FreeRun.Max (bitmap : Buf) (lo i : ℕ) (r : FreeRun) : Prop where
  current : ∀ s l, ClearRun bitmap lo i s l → s + l = i → l ≤ r.len
  best : ∀ s l, ClearRun bitmap lo i s l → l ≤ r.allocLen

/-- The beginning of a clear run is one. -/
theorem ClearRun.take {bitmap : Buf} {lo hi s l l' : ℕ} (h : ClearRun bitmap lo hi s l') (hle : l ≤ l') :
    ClearRun bitmap lo hi s l :=
  ⟨h.lo_le, by have := h.le_hi; omega, fun j hj hj' ↦ h.clear j hj (by omega)⟩

/-- A clear run that ends before the last bit. -/
theorem ClearRun.of_succ {bitmap : Buf} {lo i s l : ℕ} (h : ClearRun bitmap lo (i + 1) s l)
    (hend : s + l ≤ i) : ClearRun bitmap lo i s l := ⟨h.lo_le, hend, h.clear⟩

/-- A run that ends with bit `i` without that bit. -/
theorem ClearRun.pred {bitmap : Buf} {lo i s l : ℕ} (h : ClearRun bitmap lo (i + 1) s (l + 1))
    (hend : s + (l + 1) = i + 1) : ClearRun bitmap lo i s l :=
  ⟨h.lo_le, by omega, fun j hj hj' ↦ h.clear j hj (by omega)⟩

/-- The search ends with a run that is as long as any, or as long as it was to be. -/
theorem le_scanLoop (bitmap : Buf) (goalLen lo hi : ℕ) :
    ∀ n i (r : FreeRun), i + n = hi → r.Max bitmap lo i →
      ∀ s l, ClearRun bitmap lo hi s l → min l goalLen ≤ (scanLoop bitmap goalLen n i r).allocLen := by
  intro n
  induction n with
  | zero =>
    intro i r hend hmax s l hrun
    obtain rfl : i = hi := hend
    exact (Nat.min_le_left _ _).trans (hmax.best s l hrun)
  | succ n ih =>
    intro i r hend ⟨hcurrent, hbest⟩ s l hrun
    by_cases hbit : bitmap.bit i = true
    · -- a run that is not over before a used bit is empty
      have hempty : ∀ s l, ClearRun bitmap lo (i + 1) s l → s + l = i + 1 → l = 0 := by
        intro s l h hend'
        by_contra hne
        exact Bool.false_ne_true ((h.clear i (by omega) (by omega)).symm.trans hbit)
      simp only [scanLoop, hbit, if_true, gt_iff_lt, Nat.not_lt_zero, if_false]
      by_cases hdone : r.allocLen ≥ goalLen
      · simp only [if_pos hdone]
        exact (Nat.min_le_right _ _).trans hdone
      simp only [if_neg hdone]
      refine ih (i + 1) _ (by omega) ⟨fun s l h hend' ↦ (hempty s l h hend').le, fun s l h ↦ ?_⟩ s l hrun
      rcases Nat.lt_or_ge i (s + l) with hlt | hge
      · rw [hempty s l h (le_antisymm h.le_hi hlt)]
        exact Nat.zero_le _
      · exact hbest s l (h.of_succ hge)
    · have hfree : bitmap.bit i = false := by simpa using hbit
      have hnext : ∀ s l, ClearRun bitmap lo (i + 1) s l → s + l = i + 1 → l ≤ r.len + 1 := by
        intro s l h hend'
        rcases l with _ | l
        · omega
        · have := hcurrent s l (h.pred hend') (by omega)
          omega
      simp only [scanLoop, hfree, Bool.false_eq_true, if_false, gt_iff_lt, ge_iff_le]
      by_cases hlonger : r.allocLen < r.len + 1
      · simp only [if_pos hlonger]
        by_cases hdone : goalLen ≤ r.len + 1
        · simp only [if_pos hdone]
          omega
        simp only [if_neg hdone]
        refine ih (i + 1) _ (by omega) ⟨hnext, fun s l h ↦ ?_⟩ s l hrun
        rcases Nat.lt_or_ge i (s + l) with hlt | hge
        · exact hnext s l h (le_antisymm h.le_hi hlt)
        · have := hbest s l (h.of_succ hge)
          simp only
          omega
      · simp only [if_neg hlonger]
        by_cases hdone : goalLen ≤ r.allocLen
        · simp only [if_pos hdone]
          exact (Nat.min_le_right _ _).trans hdone
        simp only [if_neg hdone]
        refine ih (i + 1) _ (by omega) ⟨hnext, fun s l h ↦ ?_⟩ s l hrun
        rcases Nat.lt_or_ge i (s + l) with hlt | hge
        · have := hnext s l h (le_antisymm h.le_hi hlt)
          simp only
          omega
        · exact hbest s l (h.of_succ hge)

/-- No run of the bits that were searched is longer than the one that is found. -/
theorem le_bmapScanFreeRun (bitmap : Buf) {blockSize lo hi : ℕ} (goalLen s₀ l₀ : ℕ)
    (mustFull : Bool) (hhi : hi ≤ blockSize * 8) {s l : ℕ} (hrun : ClearRun bitmap lo hi s l) :
    min l goalLen ≤ (bmapScanFreeRun bitmap blockSize lo hi goalLen s₀ l₀ mustFull).2.2 := by
  unfold bmapScanFreeRun
  rw [if_neg (by omega)]
  by_cases hempty : lo ≥ hi
  · have := hrun.lo_le
    have := hrun.le_hi
    rw [if_pos hempty]
    simp only
    omega
  rw [if_neg hempty]
  refine le_scanLoop bitmap goalLen lo hi (hi - lo) lo _ (by omega) ⟨fun s l h _ ↦ ?_, fun s l h ↦ ?_⟩
    s l hrun
  all_goals
    have := h.lo_le
    have := h.le_hi
    omega

/-! ### What a search finds -/

/-- `l` is the length of the longest clear run in `[lo, hi)`. -/
structure IsLongest (bitmap : Buf) (lo hi l : ℕ) : Prop where
  exists_run : ∃ s, ClearRun bitmap lo hi s l
  le : ∀ s l', ClearRun bitmap lo hi s l' → l' ≤ l

/-- There is a clear run of `l` bits on one side of the cursor: from it on, or before it. -/
def OneSided (bitmap : Buf) (cursor hi l : ℕ) : Prop :=
  ∃ s, ClearRun bitmap cursor hi s l ∨ ClearRun bitmap 1 cursor s l

/-- The longest clear run from the cursor on has `l` bits, or the longest one before it where no bit
from the cursor on is clear. -/
def NextFit (bitmap : Buf) (cursor hi l : ℕ) : Prop :=
  0 < l ∧ (IsLongest bitmap cursor hi l ∨ IsLongest bitmap cursor hi 0 ∧ IsLongest bitmap 1 cursor l)

section

variable {bitmap bitmap' : Buf} {lo hi cursor s l : ℕ}

/-- Only the bits below `hi` matter. -/
theorem ClearRun.congr (heq : ∀ j < hi, bitmap.bit j = bitmap'.bit j) (h : ClearRun bitmap lo hi s l) :
    ClearRun bitmap' lo hi s l :=
  ⟨h.lo_le, h.le_hi, fun j hj hj' ↦ (heq j (by have := h.le_hi; omega)).symm.trans (h.clear j hj hj')⟩

/-- The runs of a bitmap depend on its bits below the end only. -/
theorem OneSided.congr (hcursor : cursor ≤ hi) (heq : ∀ j < hi, bitmap.bit j = bitmap'.bit j)
    (h : OneSided bitmap cursor hi l) : OneSided bitmap' cursor hi l :=
  h.imp fun _ hrun ↦ hrun.imp (.congr heq) (.congr fun j hj ↦ heq j (by omega))

theorem IsLongest.congr (heq : ∀ j < hi, bitmap.bit j = bitmap'.bit j) (h : IsLongest bitmap lo hi l) :
    IsLongest bitmap' lo hi l :=
  ⟨h.exists_run.imp fun _ ↦ .congr heq, fun s l' hrun ↦ h.le s l' (hrun.congr fun j hj ↦ (heq j hj).symm)⟩

theorem NextFit.congr (hcursor : cursor ≤ hi) (heq : ∀ j < hi, bitmap.bit j = bitmap'.bit j)
    (h : NextFit bitmap cursor hi l) : NextFit bitmap' cursor hi l := by
  have hlow : ∀ j < cursor, bitmap.bit j = bitmap'.bit j := fun j hj ↦ heq j (by omega)
  exact ⟨h.1, h.2.imp (.congr heq) (.imp (.congr heq) (.congr hlow))⟩

end

namespace Fs

/-- The search never starts with bit 0. -/
theorem one_le_startBit (fs : Fs) (g groupBlocks : ℕ) : 1 ≤ fs.startBit g groupBlocks := by
  unfold startBit
  split
  · split <;> omega
  · exact le_rfl

/-- The search starts inside the group. -/
theorem startBit_lt (fs : Fs) (g : ℕ) {groupBlocks : ℕ} (h : 1 < groupBlocks) :
    fs.startBit g groupBlocks < groupBlocks := by
  unfold startBit
  split
  · split <;> omega
  · exact h

/-- The bits before the cursor are searched if those from it on do not do. Before a cursor at bit 1
there are none. -/
theorem scanGroup_eq (fs : Fs) (g groupBlocks goalLen : ℕ) (requireFullGoal : Bool) :
    fs.scanGroup g groupBlocks goalLen requireFullGoal =
      let r := bmapScanFreeRun fs.sbi.sBmapCacheBuf fs.blockSize (fs.startBit g groupBlocks)
        groupBlocks goalLen 0 0 requireFullGoal
      if r.1 then r
      else bmapScanFreeRun fs.sbi.sBmapCacheBuf fs.blockSize 1 (fs.startBit g groupBlocks) goalLen
        r.2.1 r.2.2 requireFullGoal := by
  have hstart := fs.one_le_startBit g groupBlocks
  unfold scanGroup
  dsimp only
  generalize bmapScanFreeRun fs.sbi.sBmapCacheBuf fs.blockSize (fs.startBit g groupBlocks)
    groupBlocks goalLen 0 0 requireFullGoal = r
  obtain ⟨found, s, l⟩ := r
  cases found with
  | true => rfl
  | false =>
    by_cases hcursor : fs.startBit g groupBlocks > 1
    · simp [hcursor]
    · have hone : fs.startBit g groupBlocks = 1 := by omega
      simp [hone, bmapScanFreeRun]

/-- The search of a group finds at most `goalLen` clear bits, and never bit 0. -/
theorem scanGroup_spec {fs : Fs} {g groupBlocks goalLen : ℕ} {requireFullGoal : Bool}
    (hgoal : 0 < goalLen) (hgroup : 1 < groupBlocks)
    (hfound : (fs.scanGroup g groupBlocks goalLen requireFullGoal).1 = true) :
    let r := fs.scanGroup g groupBlocks goalLen requireFullGoal
    0 < r.2.2 ∧ r.2.2 ≤ goalLen ∧ ClearRun fs.sbi.sBmapCacheBuf 1 groupBlocks r.2.1 r.2.2 ∧
      OneSided fs.sbi.sBmapCacheBuf (fs.startBit g groupBlocks) groupBlocks r.2.2 ∧
      (requireFullGoal = true → r.2.2 = goalLen) := by
  have hstart := fs.one_le_startBit g groupBlocks
  have hstart' := fs.startBit_lt g hgroup
  obtain ⟨hrun, hle, hyes, hno⟩ := bmapScanFreeRun_spec fs.sbi.sBmapCacheBuf fs.blockSize
    (fs.startBit g groupBlocks) groupBlocks requireFullGoal hgoal
  rw [scanGroup_eq] at hfound ⊢
  simp only at hfound ⊢
  generalize hr : bmapScanFreeRun fs.sbi.sBmapCacheBuf fs.blockSize (fs.startBit g groupBlocks)
    groupBlocks goalLen 0 0 requireFullGoal = r at *
  obtain ⟨found, s, l⟩ := r
  cases found with
  | true =>
    obtain ⟨hpos, hfull⟩ := hyes rfl
    rcases hrun with ⟨-, h0⟩ | hrun
    · simp only at h0 hpos
      omega
    · exact ⟨hpos, hle, hrun.mono hstart le_rfl, ⟨_, .inl hrun⟩, fun h ↦ le_antisymm hle (hfull h)⟩
  | false =>
    have hshort := hno rfl (.inl rfl)
    simp only [Bool.false_eq_true, if_false] at hfound ⊢
    -- what the search from the cursor on found is too short, so the one before it is made
    have hl : l < goalLen := by
      cases requireFullGoal <;> simp at hshort <;> omega
    obtain ⟨hrun₂, hle₂, hyes₂, -⟩ := bmapScanFreeRun_spec fs.sbi.sBmapCacheBuf
      fs.blockSize 1 (fs.startBit g groupBlocks) requireFullGoal hl
    obtain ⟨hpos, hfull⟩ := hyes₂ hfound
    rcases hrun₂ with ⟨-, h0⟩ | hrun₂
    · -- the run of the first search was not good enough
      cases requireFullGoal with
      | true =>
        have := hfull rfl
        omega
      | false =>
        simp at hshort
        omega
    · exact ⟨hpos, hle₂, hrun₂.mono le_rfl (by omega), ⟨_, .inr hrun₂⟩,
        fun h ↦ le_antisymm hle₂ (hfull h)⟩

/-- The run a search has found. -/
theorem clearRun_of_scanGroup {fs : Fs} {g groupBlocks goalLen i len : ℕ} {requireFullGoal : Bool}
    (hgoal : 0 < goalLen) (hgroup : 1 < groupBlocks)
    (hfound : fs.scanGroup g groupBlocks goalLen requireFullGoal = (true, i, len)) :
    0 < len ∧ len ≤ goalLen ∧ ClearRun fs.sbi.sBmapCacheBuf 1 groupBlocks i len := by
  obtain ⟨hl, hle, hrun, -, -⟩ := scanGroup_spec hgoal hgroup (congrArg Prod.fst hfound)
  rw [hfound] at hl hle hrun
  exact ⟨hl, hle, hrun⟩

/-- Where the search of a group finds nothing, there is nothing to find on either side of the cursor. -/
theorem not_oneSided_of_not_scanGroup {fs : Fs} {g groupBlocks goalLen : ℕ} {requireFullGoal : Bool}
    (hgoal : 0 < goalLen) (hbits : groupBlocks ≤ fs.blockSize * 8) (hgroup : 1 < groupBlocks)
    (hno : (fs.scanGroup g groupBlocks goalLen requireFullGoal).1 = false) :
    ¬ OneSided fs.sbi.sBmapCacheBuf (fs.startBit g groupBlocks) groupBlocks
      (if requireFullGoal then goalLen else 1) := by
  have hstart' := fs.startBit_lt g hgroup
  set want := if requireFullGoal then goalLen else 1 with hwant
  have hle : want ≤ goalLen := by
    rw [hwant]
    split <;> omega
  obtain ⟨-, -, -, hshort⟩ := @bmapScanFreeRun_spec fs.sbi.sBmapCacheBuf fs.blockSize
    (fs.startBit g groupBlocks) groupBlocks _ 0 _ requireFullGoal hgoal
  have hmax := @le_bmapScanFreeRun fs.sbi.sBmapCacheBuf fs.blockSize (fs.startBit g groupBlocks)
    groupBlocks goalLen 0 0 requireFullGoal hbits
  rw [scanGroup_eq] at hno
  dsimp only at hno hshort
  generalize bmapScanFreeRun fs.sbi.sBmapCacheBuf fs.blockSize (fs.startBit g groupBlocks)
    groupBlocks goalLen 0 0 requireFullGoal = r at hno hshort hmax
  by_cases hfirst : r.1 = true
  · rw [if_pos hfirst, hfirst] at hno
    exact absurd hno (by simp)
  have hlt := hshort (by simpa using hfirst) (.inl rfl)
  rw [if_neg hfirst] at hno
  obtain ⟨-, -, -, hshort₂⟩ := @bmapScanFreeRun_spec fs.sbi.sBmapCacheBuf fs.blockSize 1
    (fs.startBit g groupBlocks) _ r.2.1 _ requireFullGoal (lt_of_lt_of_le hlt hle)
  have hlt₂ := hshort₂ hno (by cases requireFullGoal <;> simp at hlt ⊢; omega)
  rintro ⟨s, hrun | hrun⟩
  · have := hmax hrun
    omega
  · have := le_bmapScanFreeRun fs.sbi.sBmapCacheBuf goalLen r.2.1 r.2.2 requireFullGoal
      (show fs.startBit g groupBlocks ≤ fs.blockSize * 8 by omega) hrun
    omega

/-- What a search for any run finds, if there is no full one to find. -/
theorem nextFit_of_scanGroup {fs : Fs} {g groupBlocks goalLen : ℕ}
    (hgoal : 0 < goalLen) (hbits : groupBlocks ≤ fs.blockSize * 8) (hgroup : 1 < groupBlocks)
    (hfound : (fs.scanGroup g groupBlocks goalLen false).1 = true)
    (hshort : ¬ OneSided fs.sbi.sBmapCacheBuf (fs.startBit g groupBlocks) groupBlocks goalLen) :
    NextFit fs.sbi.sBmapCacheBuf (fs.startBit g groupBlocks) groupBlocks
      (fs.scanGroup g groupBlocks goalLen false).2.2 := by
  have hstart := fs.one_le_startBit g groupBlocks
  have hstart' := fs.startBit_lt g hgroup
  obtain ⟨hrun, -, hyes, hno⟩ := @bmapScanFreeRun_spec fs.sbi.sBmapCacheBuf fs.blockSize
    (fs.startBit g groupBlocks) groupBlocks _ 0 _ false hgoal
  have hmax := @le_bmapScanFreeRun fs.sbi.sBmapCacheBuf fs.blockSize (fs.startBit g groupBlocks)
    groupBlocks goalLen 0 0 false hbits
  rw [scanGroup_eq] at hfound ⊢
  dsimp only at hfound hrun hyes hno ⊢
  generalize bmapScanFreeRun fs.sbi.sBmapCacheBuf fs.blockSize (fs.startBit g groupBlocks)
    groupBlocks goalLen 0 0 false = r at *
  by_cases hfirst : r.1 = true
  · rw [if_pos hfirst] at hfound ⊢
    obtain ⟨hpos, -⟩ := hyes hfirst
    refine ⟨hpos, .inl ⟨⟨r.2.1, hrun.resolve_left fun h ↦ ?_⟩, fun s l' h ↦ ?_⟩⟩
    · omega
    · have := hmax h
      have hlt : l' < goalLen := Nat.lt_of_not_le fun hle ↦ hshort ⟨s, .inl (h.take hle)⟩
      omega
  · rw [if_neg hfirst] at hfound ⊢
    have hzero := hno (by simpa using hfirst) (.inl rfl)
    simp only [Bool.false_eq_true, if_false] at hzero
    obtain ⟨hrun₂, -, hyes₂, -⟩ := @bmapScanFreeRun_spec fs.sbi.sBmapCacheBuf fs.blockSize 1
      (fs.startBit g groupBlocks) _ r.2.1 _ false (show r.2.2 < goalLen by omega)
    obtain ⟨hpos, -⟩ := hyes₂ hfound
    refine ⟨hpos, .inr ⟨⟨⟨fs.startBit g groupBlocks, le_rfl, by omega, fun j _ _ ↦ by omega⟩,
      fun s l' h ↦ ?_⟩, ⟨_, hrun₂.resolve_left fun h ↦ ?_⟩, fun s l' h ↦ ?_⟩⟩
    · have := hmax h
      omega
    · omega
    · have := le_bmapScanFreeRun fs.sbi.sBmapCacheBuf goalLen r.2.1 r.2.2 false
        (show fs.startBit g groupBlocks ≤ fs.blockSize * 8 by omega) h
      have hlt : l' < goalLen := Nat.lt_of_not_le fun hle ↦ hshort ⟨s, .inr (h.take hle)⟩
      omega

end Fs

namespace Volume

variable {V : Volume} {n g : ℕ} {fs fs' fs'' : Fs} {bitmap gd : Buf}

/-! ### Changes to the bitmaps and descriptors -/

/-- The bitmaps and descriptors of the groups are as they were. -/
structure Kept (V : Volume) (fs fs' : Fs) : Prop where
  bitmap : ∀ g, V.Group g → fs'.block (V.blockBitmap g) = fs.block (V.blockBitmap g)
  desc : ∀ g, V.Group g → fs'.desc g = fs.desc g
  memory : fs'.sbi.sGroupDesc = fs.sbi.sGroupDesc

/-- Of group `g` the bitmap and the descriptor are now `bitmap` and `gd`, and of no other group have
they changed. -/
structure Changed (V : Volume) (g : ℕ) (bitmap gd : Buf) (fs fs' : Fs) : Prop where
  group : V.Group g
  bitmap : fs'.block (V.blockBitmap g) = Buf.clip V.bs bitmap
  bitmap_ne : ∀ g', V.Group g' → g' ≠ g → fs'.block (V.blockBitmap g') = fs.block (V.blockBitmap g')
  desc : fs'.desc g = gd
  desc_ne : ∀ g', V.Group g' → g' ≠ g → fs'.desc g' = fs.desc g'
  memory : fs'.sbi.sGroupDesc = if g = 0 then some gd else fs.sbi.sGroupDesc

theorem Kept.refl (fs : Fs) : V.Kept fs fs := ⟨fun _ _ ↦ rfl, fun _ _ ↦ rfl, rfl⟩

/-- Two steps that leave bitmaps and descriptors, one after the other. -/
theorem Kept.trans (h : V.Kept fs fs') (h' : V.Kept fs' fs'') : V.Kept fs fs'' :=
  ⟨fun g hg ↦ (h'.bitmap g hg).trans (h.bitmap g hg), fun g hg ↦ (h'.desc g hg).trans (h.desc g hg),
    h'.memory.trans h.memory⟩

/-- A step that leaves them after a change. -/
theorem Changed.trans_kept (h : V.Changed g bitmap gd fs fs') (h' : V.Kept fs' fs'') :
    V.Changed g bitmap gd fs fs'' where
  group := h.group
  bitmap := (h'.bitmap g h.group).trans h.bitmap
  bitmap_ne g' hg' hne := (h'.bitmap g' hg').trans (h.bitmap_ne g' hg' hne)
  desc := (h'.desc g h.group).trans h.desc
  desc_ne g' hg' hne := (h'.desc g' hg').trans (h.desc_ne g' hg' hne)
  memory := h'.memory.trans h.memory

/-- A step that leaves them before a change. -/
theorem Kept.trans_changed (h : V.Kept fs fs') (h' : V.Changed g bitmap gd fs' fs'') :
    V.Changed g bitmap gd fs fs'' where
  group := h'.group
  bitmap := h'.bitmap
  bitmap_ne g' hg' hne := (h'.bitmap_ne g' hg' hne).trans (h.bitmap g' hg')
  desc := h'.desc
  desc_ne g' hg' hne := (h'.desc_ne g' hg' hne).trans (h.desc g' hg')
  memory := by rw [h'.memory, h.memory]

/-- The cached bitmap is as it was. -/
structure SameCache (fs fs' : Fs) : Prop where
  valid : fs'.sbi.sBmapCacheValid = fs.sbi.sBmapCacheValid
  group : fs'.sbi.sBmapCacheGroup = fs.sbi.sBmapCacheGroup
  dirty : fs'.sbi.sBmapCacheDirty = fs.sbi.sBmapCacheDirty
  buf : fs'.sbi.sBmapCacheBuf = fs.sbi.sBmapCacheBuf

theorem SameCache.refl (fs : Fs) : SameCache fs fs := ⟨rfl, rfl, rfl, rfl⟩

/-- Two steps that leave the cache, one after the other. -/
theorem SameCache.trans (h : SameCache fs fs') (h' : SameCache fs' fs'') : SameCache fs fs'' :=
  ⟨h'.valid.trans h.valid, h'.group.trans h.group, h'.dirty.trans h.dirty, h'.buf.trans h.buf⟩

/-- What is in memory is no block. -/
theorem AllocFrame.withSbi (fs : Fs) (sbi : SbInfo) : V.AllocFrame fs { fs with sbi := sbi } :=
  ⟨fun _ _ ↦ rfl, rfl, rfl, rfl, rfl⟩

/-! ### The layout under a store -/

/-- A descriptor depends only on its own block. -/
theorem Image.desc_congr (h : V.Image n fs) (hsbi : fs'.sbi.toSbGeom = fs.sbi.toSbGeom)
    (hbs : fs'.blockSize = fs.blockSize) (hblock : fs'.block (V.descBlock g) = fs.block (V.descBlock g)) :
    fs'.desc g = fs.desc g := by
  have hloc : fs'.sbi.descLoc fs'.blockSize g = (V.descBlock g, V.descOff g) := by
    rw [hbs, ← h.descLoc_eq g]
    show fs'.sbi.toSbGeom.descLoc _ _ = fs.sbi.toSbGeom.descLoc _ _
    rw [hsbi]
  have hcopy : fs'.sbi.copySz = fs.sbi.copySz := by
    show fs'.sbi.toSbGeom.copySz = fs.sbi.toSbGeom.copySz
    rw [hsbi]
  rw [Fs.desc, Fs.desc, hloc, h.descLoc_eq, hcopy, hblock]

/-- A change to the variables of the superblock info. -/
theorem Image.withSbi (h : V.Image n fs) (sbi : SbInfo)
    (hgeom : sbi.toSbGeom = fs.sbi.toSbGeom) (hgd : sbi.sGroupDesc.isSome) :
    V.Image n { fs with sbi := sbi } :=
  { h with
    geom := hgeom.trans h.geom
    groupDesc := hgd
    desc_blockBitmap := fun g hg ↦ by
      have hdesc : ({ fs with sbi := sbi } : Fs).desc g = fs.desc g := h.desc_congr hgeom rfl rfl
      rw [hdesc, h.desc_blockBitmap g hg] }

/-- What is in memory can change, all but the geometry. -/
theorem Carried.withSbi (h : V.Carried n fs) (sbi : SbInfo)
    (hgeom : sbi.toSbGeom = fs.sbi.toSbGeom) (hgd : sbi.sGroupDesc.isSome) :
    V.Carried n { fs with sbi := sbi } := ⟨h.toImage.withSbi sbi hgeom hgd, h.usable⟩

/-- A change to variables that are neither the geometry nor the copy of the first descriptor. -/
theorem Image.kept_withSbi (h : V.Image n fs) (sbi : SbInfo)
    (hgeom : sbi.toSbGeom = fs.sbi.toSbGeom) (hgd : sbi.sGroupDesc = fs.sbi.sGroupDesc) :
    V.Kept fs { fs with sbi := sbi } :=
  ⟨fun _ _ ↦ rfl, fun _ _ ↦ h.desc_congr hgeom rfl rfl, hgd⟩

/-- Storing a block that is neither a descriptor nor a block bitmap. -/
theorem Image.put (h : V.Image n fs) {b : ℕ} (buf : Buf) (hdesc : ∀ g, V.Group g → b ≠ V.descBlock g)
    (hbitmap : ∀ g, V.Group g → b ≠ V.blockBitmap g) :
    V.Image n (fs.put b buf) ∧ V.Kept fs (fs.put b buf) := by
  have hkept : V.Kept fs (fs.put b buf) :=
    ⟨fun g hg ↦ fs.block_put_of_ne buf (hbitmap g hg).symm,
      fun g hg ↦ h.desc_congr rfl rfl (fs.block_put_of_ne buf (hdesc g hg).symm), rfl⟩
  exact ⟨{ h with
    desc_blockBitmap := fun g hg ↦ by rw [hkept.desc g hg, h.desc_blockBitmap g hg] }, hkept⟩

/-- Storing the bitmap of a group. -/
theorem Image.putBitmap (h : V.Image n fs) (hg : V.Group g) (buf : Buf) :
    V.Image n (fs.put (V.blockBitmap g) buf) ∧
    (fs.put (V.blockBitmap g) buf).block (V.blockBitmap g) = Buf.clip V.bs buf ∧
    (∀ g', V.Group g' → g' ≠ g →
      (fs.put (V.blockBitmap g) buf).block (V.blockBitmap g') = fs.block (V.blockBitmap g')) ∧
    ∀ g', V.Group g' → (fs.put (V.blockBitmap g) buf).desc g' = fs.desc g' := by
  have hdesc : ∀ g', V.Group g' → (fs.put (V.blockBitmap g) buf).desc g' = fs.desc g' := fun g' hg' ↦
    h.desc_congr rfl rfl (fs.block_put_of_ne buf (h.laid.blockBitmap_ne_desc g hg g' hg').symm)
  refine ⟨{ h with
    desc_blockBitmap := fun g' hg' ↦ by rw [hdesc g' hg', h.desc_blockBitmap g' hg'] }, ?_, ?_, hdesc⟩
  · rw [Fs.block_put_self, h.blockSize]
  · exact fun g' hg' hne ↦ fs.block_put_of_ne buf fun e ↦ hne (h.laid.blockBitmap_inj g' hg' g hg e)

/-- The descriptor block after a descriptor was stored in it. -/
def descStored (V : Volume) (fs : Fs) (g : ℕ) (gd : Buf) : Buf :=
  (fs.block (V.descBlock g)).blit (V.descOff g) gd 0 V.geom.copySz

/-- A descriptor in memory has nothing behind what is copied of it. -/
theorem Image.desc_of_le (h : V.Image n fs) {i : ℕ} (hi : V.geom.copySz ≤ i) : fs.desc g i = 0 := by
  rw [h.desc_eq, Buf.blit_out (by omega), Buf.zero_apply]

/-- Storing a descriptor changes this one and no other. -/
theorem Image.putDesc (h : V.Image n fs) (hg : V.Group g)
    (hend : ∀ i, V.geom.copySz ≤ i → gd i = 0)
    (hbb : gd.getField 0 Gd.bgBlockBitmapLo = V.blockBitmap g) :
    V.Image n (fs.put (V.descBlock g) (V.descStored fs g gd)) ∧
    (fs.put (V.descBlock g) (V.descStored fs g gd)).desc g = gd ∧
    (∀ g', V.Group g' → g' ≠ g →
      (fs.put (V.descBlock g) (V.descStored fs g gd)).desc g' = fs.desc g') ∧
    ∀ g', V.Group g' → (fs.put (V.descBlock g) (V.descStored fs g gd)).block (V.blockBitmap g') =
      fs.block (V.blockBitmap g') := by
  set fs₁ := fs.put (V.descBlock g) (V.descStored fs g gd) with hfs₁
  have heq : ∀ g', fs₁.desc g' =
      Buf.zero.blit 0 (fs₁.block (V.descBlock g')) (V.descOff g') V.geom.copySz := by
    intro g'
    rw [Fs.desc, show fs₁.sbi.descLoc fs₁.blockSize g' = (V.descBlock g', V.descOff g') from
      h.descLoc_eq g', show fs₁.sbi.copySz = V.geom.copySz from h.copySz_eq]
  have hbs := h.blockSize
  -- what was stored is read back
  have hself : fs₁.desc g = gd := by
    have hoff := hg.2
    funext i
    rw [heq g]
    by_cases hi : i < V.geom.copySz
    · rw [Buf.blit_in (by omega) (by omega), hfs₁, Fs.block_put_self, Buf.clip_of_lt _ (by omega),
        descStored, Buf.blit_in (by omega) (by omega)]
      congr 1
      omega
    · rw [Buf.blit_out (by omega), Buf.zero_apply, hend i (by omega)]
  have hother : ∀ g', V.Group g' → g' ≠ g → fs₁.desc g' = fs.desc g' := by
    intro g' hg' hne
    have hoff := hg'.2
    rw [heq g', h.desc_eq g']
    by_cases hblk : V.descBlock g' = V.descBlock g
    · -- the two descriptors are apart in their block
      have hapart := h.laid.descOff_apart hg'.1 hg.1 hne hblk
      funext i
      by_cases hi : i < V.geom.copySz
      · rw [Buf.blit_in (by omega) (by omega), Buf.blit_in (by omega) (by omega), hblk, hfs₁,
          Fs.block_put_self, Buf.clip_of_lt _ (by omega), descStored, Buf.blit_out (by omega)]
      · rw [Buf.blit_out (by omega), Buf.blit_out (by omega)]
    · rw [hfs₁, fs.block_put_of_ne _ hblk]
  refine ⟨{ h with
    desc_blockBitmap := fun g' hg' ↦ ?_ }, hself, hother,
    fun g' hg' ↦ fs.block_put_of_ne _ (h.laid.blockBitmap_ne_desc g' hg' g hg)⟩
  by_cases hne : g' = g
  · rw [hne, hself, hbb]
  · rw [hother g' hg' hne, h.desc_blockBitmap g' hg']

/-- A block that is neither a descriptor's nor a bitmap can be written. -/
theorem Carried.put (h : V.Carried n fs) {b : ℕ} (buf : Buf)
    (hdesc : ∀ g, V.Group g → b ≠ V.descBlock g) (hbitmap : ∀ g, V.Group g → b ≠ V.blockBitmap g) :
    V.Carried n (fs.put b buf) ∧ V.Kept fs (fs.put b buf) :=
  ⟨⟨(h.toImage.put buf hdesc hbitmap).1, h.usable.put _ _⟩, (h.toImage.put buf hdesc hbitmap).2⟩

/-- A bitmap can be written. -/
theorem Carried.putBitmap (h : V.Carried n fs) (hg : V.Group g) (buf : Buf) :
    V.Carried n (fs.put (V.blockBitmap g) buf) :=
  ⟨(h.toImage.putBitmap hg buf).1, h.usable.put _ _⟩

/-- A descriptor can be written that keeps the place of its bitmap. -/
theorem Carried.putDesc (h : V.Carried n fs) (hg : V.Group g)
    (hend : ∀ i, V.geom.copySz ≤ i → gd i = 0)
    (hbb : gd.getField 0 Gd.bgBlockBitmapLo = V.blockBitmap g) :
    V.Carried n (fs.put (V.descBlock g) (V.descStored fs g gd)) :=
  ⟨(h.toImage.putDesc hg hend hbb).1, h.usable.put _ _⟩

/-! ### Descriptors and counts -/

variable (hbs : V.bs ≤ blockSizeDefault)

include hbs

/-- The descriptor of a group can be read. -/
theorem Carried.readGroupDesc (h : V.Carried n fs) (hg : V.Group g) :
    Fs.readGroupDesc g fs = (some (fs.desc g), fs) := by
  have hsz := h.laid.copySz_ge
  have hszle := h.laid.copySz_le
  have hoff : (fs.sbi.descLoc fs.blockSize g).2 + fs.sbi.copySz ≤ fs.blockSize := by
    rw [h.descLoc_eq, h.copySz_eq, h.blockSize]
    exact hg.2
  have hds : fs.sbi.sDescSize = V.geom.sDescSize := congrArg SbGeom.sDescSize h.geom
  have hblock : fs.blockSize ≤ blockSizeDefault := h.blockSize ▸ hbs
  unfold Fs.readGroupDesc
  simp only [get_bind, h.descLoc_eq, h.copySz_eq]
  rw [guard_true (by omega), pure_bind', guard_true hoff, pure_bind',
    bind_of_eq_some (Fs.mallocBlock_eq hblock),
    bind_of_eq_some (h.usable.readBlock (h.laid.descBlock_lt hg.1)), Fs.desc, h.descLoc_eq, h.copySz_eq]
  rfl

/-- Writing a descriptor stores its block with the descriptor in it. -/
theorem Carried.writeGroupDesc (h : V.Carried n fs) (hg : V.Group g) (gd : Buf) :
    Fs.writeGroupDesc g gd fs = (some (), fs.put (V.descBlock g) (V.descStored fs g gd)) := by
  have hsz := h.laid.copySz_ge
  have hszle := h.laid.copySz_le
  have hoff : (fs.sbi.descLoc fs.blockSize g).2 + fs.sbi.copySz ≤ fs.blockSize := by
    rw [h.descLoc_eq, h.copySz_eq, h.blockSize]
    exact hg.2
  have hds : fs.sbi.sDescSize = V.geom.sDescSize := congrArg SbGeom.sDescSize h.geom
  have hblock : fs.blockSize ≤ blockSizeDefault := h.blockSize ▸ hbs
  unfold Fs.writeGroupDesc
  simp only [get_bind, h.descLoc_eq, h.copySz_eq]
  rw [guard_true (by omega), pure_bind', guard_true hoff, pure_bind',
    bind_of_eq_some (Fs.mallocBlock_eq hblock),
    bind_of_eq_some (h.usable.readBlock (h.laid.descBlock_lt hg.1)),
    h.usable.writeBlock (h.laid.descBlock_lt hg.1)]
  rfl

omit hbs

/-- A block too large for the pool's slots, or a descriptor that is not inside one block. -/
theorem Carried.readGroupDesc_of_not (h : V.Carried n fs)
    (hno : ¬ (V.bs ≤ blockSizeDefault ∧ V.descOff g + V.geom.copySz ≤ V.bs)) :
    Fs.readGroupDesc g fs = (none, fs) := by
  unfold Fs.readGroupDesc
  rw [get_bind]
  by_cases h₁ : fs.sbi.sDescSize ≠ 0
  swap
  · rw [guard_false h₁, fail_bind, fail_apply]
  rw [guard_true h₁, pure_bind']
  by_cases h₂ : (fs.sbi.descLoc fs.blockSize g).2 + fs.sbi.copySz ≤ fs.blockSize
  swap
  · rw [guard_false h₂, fail_bind, fail_apply]
  have hblock : ¬ fs.blockSize ≤ blockSizeDefault := by
    rw [h.descLoc_eq, h.copySz_eq, h.blockSize] at h₂
    rw [h.blockSize]
    exact fun hbs ↦ hno ⟨hbs, h₂⟩
  have hmalloc : Fs.mallocBlock fs = (none, fs) := by
    rw [Fs.mallocBlock, get_bind, guard_false hblock, fail_apply]
  rw [guard_true h₂, pure_bind', bind_of_eq_none hmalloc]

/-- The descriptors are only read. -/
theorem Carried.sumFreeCounts (h : V.Carried n fs) :
    ∀ m g cur buf freeBlocks freeInodes, g + m ≤ V.groups →
      ∃ r, Fs.sumFreeCounts m g cur buf freeBlocks freeInodes fs = (some r, fs) := by
  intro m
  induction m with
  | zero => exact fun g cur buf a b _ ↦ ⟨(a, b), rfl⟩
  | succ m ih =>
    intro g cur buf a b hg
    have hbs : fs.sbi.sBlockSize = fs.blockSize := by
      rw [h.blockSize]
      exact congrArg SbGeom.sBlockSize h.geom
    have hread := h.usable.readBlock (h.laid.descBlock_lt (show g < V.groups by omega))
    unfold Fs.sumFreeCounts Fs.refillGdBuf
    rw [get_bind, hbs, h.descLoc_eq]
    by_cases hin : V.descOff g + fs.sbi.copySz > fs.blockSize
    · simp only [if_pos hin]
      exact ih _ _ _ _ _ (by omega)
    simp only [if_neg hin]
    by_cases hcur : V.descBlock g ≠ cur
    · simp only [if_pos hcur]
      rw [bind_of_eq_some hread]
      exact ih _ _ _ _ _ (by omega)
    · simp only [if_neg hcur, pure_bind']
      exact ih _ _ _ _ _ (by omega)

/-- Writing the counts back stores at most the superblock. -/
theorem Carried.syncSuperFreeCounts (h : V.Carried n fs) :
    wp Fs.ext4SyncSuperFreeCounts (fun _ fs' ↦ fs' = fs ∨ ∃ buf, fs' = fs.put V.superBlock buf)
      fs := by
  have hbs : fs.sbi.sBlockSize = V.bs := congrArg SbGeom.sBlockSize h.geom
  have hgroups : fs.sbi.sGroupsCount = V.groups := congrArg SbGeom.sGroupsCount h.geom
  have hsuper : (if fs.sbi.sBlockSize = 1024 then 1 else 0) = V.superBlock := by
    rw [hbs, Volume.superBlock]
  unfold wp Fs.ext4SyncSuperFreeCounts
  rw [get_bind, guard_true h.groupDesc, pure_bind', hsuper, hgroups]
  by_cases hpool : fs.sbi.sBlockSize ≤ 65536 ∧ 2 ≤ fs.superPool
  · obtain ⟨r, hr⟩ := h.sumFreeCounts V.groups 0 (2 ^ 32 - 1) Buf.zero 0 0 (by omega)
    simp only [guard_true hpool, pure_bind']
    rw [bind_of_eq_some (h.usable.readBlock h.laid.superBlock_lt), bind_of_eq_some hr,
      h.usable.writeBlock h.laid.superBlock_lt]
    exact .inr ⟨_, rfl⟩
  · rw [guard_false hpool, fail_bind]
    exact .inl rfl

/-- Counting a change leaves bitmaps, descriptors and the cache. -/
theorem Carried.bgSync (h : V.Carried n fs) :
    ∃ fs', Fs.bgSync fs = (some (), fs') ∧ V.Carried n fs' ∧ V.Kept fs fs' ∧ V.AllocFrame fs fs' ∧
      SameCache fs fs' := by
  set fs₁ : Fs := { fs with sbi := { fs.sbi with sBgSyncPending := u32 (fs.sbi.sBgSyncPending + 1) } }
    with hfs₁
  have h₁ : V.Carried n fs₁ := h.withSbi _ rfl h.groupDesc
  have hkept : V.Kept fs fs₁ := h.kept_withSbi _ rfl rfl
  have hframe : V.AllocFrame fs fs₁ := .withSbi ..
  unfold Fs.bgSync Fs.modifySbi
  rw [modify_bind, get_bind, ← hfs₁]
  by_cases hbatch : fs₁.sbi.sBgSyncPending ≥ fs₁.bgSyncBatch
  · rw [if_pos hbatch, attempt_bind]
    have hsync := h₁.syncSuperFreeCounts
    set fs₂ := (Fs.ext4SyncSuperFreeCounts fs₁).2
    have h₂ : V.Carried n fs₂ ∧ V.Kept fs fs₂ ∧ V.AllocFrame fs fs₂ ∧ SameCache fs fs₂ := by
      rcases hsync with heq | ⟨buf, heq⟩
      · rw [show fs₂ = fs₁ from heq]
        exact ⟨h₁, hkept, hframe, rfl, rfl, rfl, rfl⟩
      · obtain ⟨hput, hkept'⟩ := h₁.put buf h.laid.superBlock_ne_desc fun g hg ↦
          (h.laid.blockBitmap_ne_super g hg).symm
        rw [show fs₂ = _ from heq]
        exact ⟨hput, hkept.trans hkept', hframe.trans (.put (.inl rfl) buf), rfl, rfl, rfl, rfl⟩
    exact ⟨_, rfl, h₂.1.withSbi _ rfl h₂.1.groupDesc, h₂.2.1.trans (h₂.1.kept_withSbi _ rfl rfl),
      h₂.2.2.1.trans (.withSbi ..), h₂.2.2.2.trans ⟨rfl, rfl, rfl, rfl⟩⟩
  · rw [if_neg hbatch]
    exact ⟨fs₁, rfl, h₁, hkept, hframe, rfl, rfl, rfl, rfl⟩

include hbs

/-- Storing a descriptor, in memory too if it is the first. -/
theorem Carried.storeGroupDesc (h : V.Carried n fs) (hg : V.Group g)
    (hend : ∀ i, V.geom.copySz ≤ i → gd i = 0)
    (hbb : gd.getField 0 Gd.bgBlockBitmapLo = V.blockBitmap g) :
    ∃ fs', Fs.storeGroupDesc g gd fs = (some (), fs') ∧ V.Carried n fs' ∧
      V.Changed g (fs.block (V.blockBitmap g)) gd fs fs' ∧ V.AllocFrame fs fs' ∧ SameCache fs fs' := by
  obtain ⟨-, hself, hother, hbitmap⟩ := h.toImage.putDesc hg hend hbb
  have h₁ := h.putDesc hg hend hbb
  set fs₁ := fs.put (V.descBlock g) (V.descStored fs g gd) with hfs₁
  have hgeom : (if g = 0 then { fs₁.sbi with sGroupDesc := some gd } else fs₁.sbi).toSbGeom =
      fs₁.sbi.toSbGeom := by split <;> rfl
  have hmem : (if g = 0 then { fs₁.sbi with sGroupDesc := some gd } else fs₁.sbi).sGroupDesc =
      if g = 0 then some gd else fs.sbi.sGroupDesc := by split <;> rfl
  set fs₂ : Fs :=
    { fs₁ with sbi := if g = 0 then { fs₁.sbi with sGroupDesc := some gd } else fs₁.sbi } with hfs₂
  have hdesc : ∀ g', fs₂.desc g' = fs₁.desc g' := fun g' ↦ h₁.desc_congr hgeom rfl rfl
  refine ⟨fs₂, ?_, h₁.withSbi _ hgeom ?_, ⟨hg, ?_, fun g' hg' _ ↦ hbitmap g' hg', ?_,
    fun g' hg' hne ↦ ?_, hmem⟩,
    (AllocFrame.put (.inr ⟨g, hg.1, .inl rfl⟩) _).trans (.withSbi ..), ?_⟩
  · unfold Fs.storeGroupDesc
    rw [bind_of_eq_some (h.writeGroupDesc hbs hg gd)]
    rfl
  · rw [hmem]
    split
    · rfl
    · exact h.groupDesc
  · rw [← h.blockSize, Fs.clip_block]
    exact hbitmap g hg
  · rw [hdesc, hself]
  · rw [hdesc, hother g' hg' hne]
  · rw [hfs₂]
    split <;> exact ⟨rfl, rfl, rfl, rfl⟩

omit hbs in
/-- A cache that is what the device has is not written. -/
theorem Coherent.bmapCacheFlush (h : V.Coherent n fs) : Fs.bmapCacheFlush fs = (some (), fs) := by
  have hclean : (fs.sbi.sBmapCacheValid && fs.sbi.sBmapCacheDirty) = false := by
    cases hv : fs.sbi.sBmapCacheValid with
    | false => rfl
    | true => exact (h.cache hv).2.1
  unfold Fs.bmapCacheFlush
  rw [get_bind, hclean]
  rfl

omit hbs in
/-- Reading a block into the cached bitmap. -/
theorem Carried.readBmapCache (h : V.Carried n fs) {b : ℕ} (hb : b < n) :
    ∃ buf, Fs.readBmapCache b fs =
        (some (), { fs with sbi := { fs.sbi with sBmapCacheBuf := buf } }) ∧
      Buf.clip V.bs buf = fs.block b := by
  have hread := BlockDevice.Usable.readInto h.usable hb fs.sbi.sBmapCacheBuf
  refine ⟨fs.sbi.sBmapCacheBuf.blit 0 (fs.dev.block fs.blockSize b) 0 fs.blockSize, ?_, ?_⟩
  · simp only [Fs.readBmapCache, hread]
    rfl
  · funext i
    rw [← h.blockSize]
    by_cases hi : i < fs.blockSize
    · rw [Buf.clip_of_lt _ hi, Buf.blit_in (by omega) (by omega)]
      simp [Fs.block]
    · rw [Buf.clip_of_le _ (by omega), Fs.block, BlockDevice.block, Buf.clip_of_le _ (by omega)]

/-- Loading the bitmap of a group. -/
theorem Coherent.bmapCacheLoad (h : V.Coherent n fs) (hg : V.Group g) :
    ∃ fs', Fs.bmapCacheLoad g (fs.desc g) fs = (some (fs'.desc g), fs') ∧ V.Coherent n fs' ∧
      V.Kept fs fs' ∧ V.AllocFrame fs fs' ∧ fs'.sbi.sBmapCacheValid = true ∧
      fs'.sbi.sBmapCacheGroup = g ∧ fs'.sbi.goalBitPerGroup = fs.sbi.goalBitPerGroup := by
  unfold Fs.bmapCacheLoad
  rw [get_bind]
  by_cases hhit : (fs.sbi.sBmapCacheValid && fs.sbi.sBmapCacheGroup == g) = true
  · rw [if_pos hhit]
    simp only [Bool.and_eq_true, beq_iff_eq] at hhit
    exact ⟨fs, rfl, h, .refl fs, .refl fs, hhit.1, hhit.2, rfl⟩
  · have hne : (fs.desc g).getField 0 Gd.bgBlockBitmapLo ≠ 0 := by
      rw [h.desc_blockBitmap g hg]
      exact h.laid.blockBitmap_pos g hg
    obtain ⟨buf, hread, hbuf⟩ := h.readBmapCache (h.laid.blockBitmap_lt hg.1)
    rw [← h.desc_blockBitmap g hg] at hread
    rw [if_neg hhit, bind_of_eq_some h.bmapCacheFlush,
      bind_of_eq_some (h.toCarried.readGroupDesc hbs hg), guard_true hne, pure_bind',
      bind_of_eq_some hread]
    set sbi' : SbInfo := { fs.sbi with
      sBmapCacheBuf := buf, sBmapCacheGroup := g, sBmapCacheValid := true, sBmapCacheDirty := false }
      with hsbi
    have hdesc : ({ fs with sbi := sbi' } : Fs).desc g = fs.desc g := h.desc_congr rfl rfl rfl
    refine ⟨{ fs with sbi := sbi' }, ?_, ⟨h.withSbi sbi' rfl h.groupDesc, fun _ ↦ ⟨hg, rfl, hbuf⟩⟩,
      h.kept_withSbi sbi' rfl rfl, .withSbi .., rfl, rfl, rfl⟩
    rw [hdesc]
    rfl

/-! ### Allocation -/

omit hbs in
/-- A count that is stored in a descriptor leaves what is behind it. -/
theorem Image.setFree_of_le (h : V.Image n fs) {v i : ℕ} (hi : V.geom.copySz ≤ i) :
    (fs.desc g).setField 0 Gd.bgFreeBlocksCountLo v i = 0 := by
  have hsz := h.laid.copySz_ge
  rw [Buf.setField_of_le (by simp only [Gd.bgFreeBlocksCountLo]; omega), h.desc_of_le hi]

/-- Marking a run in the cached bitmap and flushing it marks the run on the device. -/
theorem Coherent.flushRun (h : V.Coherent n fs) (hv : fs.sbi.sBmapCacheValid = true)
    (hgroup : fs.sbi.sBmapCacheGroup = g) (i l : ℕ) :
    ∃ fs', Fs.bmapCacheFlush (fs.setRun i l).setDirty = (some (), fs') ∧ V.Coherent n fs' ∧
      fs'.block (V.blockBitmap g) =
        Buf.clip V.bs ((fs.block (V.blockBitmap g)).setBits i (i + l)) ∧
      (∀ g', V.Group g' → g' ≠ g → fs'.block (V.blockBitmap g') = fs.block (V.blockBitmap g')) ∧
      (∀ g', V.Group g' → fs'.desc g' = fs.desc g') ∧ fs'.sbi.sGroupDesc = fs.sbi.sGroupDesc ∧
      V.AllocFrame fs fs' := by
  set marked := fs.sbi.sBmapCacheBuf.setBits i (i + l) with hmarked
  have hg : V.Group g := hgroup ▸ (h.cache hv).1
  have hcache : Buf.clip V.bs fs.sbi.sBmapCacheBuf = fs.block (V.blockBitmap g) :=
    hgroup ▸ (h.cache hv).2.2
  set fs₁ := (fs.setRun i l).setDirty with hfs₁
  have h₁ : V.Carried n fs₁ := h.toCarried.withSbi _ rfl h.groupDesc
  have hkept₁ : V.Kept fs fs₁ := h.toCarried.kept_withSbi _ rfl rfl
  obtain ⟨-, hself, hother, hdesc⟩ := h₁.toImage.putBitmap hg marked
  have h₂ := h₁.putBitmap hg marked
  -- the cached bitmap goes to the block of its group
  have hwrite : Fs.writeBlockBitmap ((fs₁.desc g).getField 0 Gd.bgBlockBitmapLo) marked fs₁ =
      (some (), fs₁.put (V.blockBitmap g) marked) := by
    rw [h₁.desc_blockBitmap g hg, Fs.writeBlockBitmap, guard_true (h.laid.blockBitmap_pos g hg),
      pure_bind', h₁.usable.writeBlock (h.laid.blockBitmap_lt hg.1)]
  have hdirty : (fs₁.sbi.sBmapCacheValid && fs₁.sbi.sBmapCacheDirty) = true := by
    rw [show fs₁.sbi.sBmapCacheValid = true from hv]
    rfl
  have hclip : Buf.clip V.bs marked =
      Buf.clip V.bs ((fs.block (V.blockBitmap g)).setBits i (i + l)) := by
    rw [← hcache]
    funext j
    by_cases hj : j < V.bs
    · rw [Buf.clip_of_lt _ hj, Buf.clip_of_lt _ hj]
      simp only [hmarked, Buf.setBits, Buf.clip_of_lt _ hj]
    · rw [Buf.clip_of_le _ (by omega), Buf.clip_of_le _ (by omega)]
  set fs₂ := fs₁.put (V.blockBitmap g) marked with hfs₂
  set sbi₃ : SbInfo := { fs₂.sbi with sBmapCacheDirty := false } with hsbi₃
  have hkept₃ : V.Kept fs₂ { fs₂ with sbi := sbi₃ } := h₂.kept_withSbi sbi₃ rfl rfl
  refine ⟨{ fs₂ with sbi := sbi₃ }, ?_,
    ⟨h₂.withSbi sbi₃ rfl h.groupDesc, fun _ ↦ ⟨hgroup ▸ hg, rfl, ?_⟩⟩, ?_,
    fun g' hg' hne ↦ ?_, fun g' hg' ↦ ?_, rfl, ?_⟩
  · unfold Fs.bmapCacheFlush
    rw [get_bind, hdirty, if_pos rfl, show fs₁.sbi.sBmapCacheGroup = g from hgroup,
      bind_of_eq_some (h₁.readGroupDesc hbs hg), show fs₁.sbi.sBmapCacheBuf = marked from rfl,
      bind_of_eq_some hwrite]
    rfl
  · show Buf.clip V.bs marked = fs₂.block (V.blockBitmap fs.sbi.sBmapCacheGroup)
    rw [hgroup, hself]
  · exact (hkept₃.bitmap g hg).trans (hself.trans hclip)
  · exact (hkept₃.bitmap g' hg').trans ((hother g' hg' hne).trans (hkept₁.bitmap g' hg'))
  · exact (hkept₃.desc g' hg').trans ((hdesc g' hg').trans (hkept₁.desc g' hg'))
  · exact (AllocFrame.withSbi fs _).trans
      ((AllocFrame.put (.inr ⟨g, hg.1, .inr rfl⟩) _).trans (.withSbi _ _))

omit hbs

/-- The geometry an allocation works with. -/
structure GroupGeom (V : Volume) (blocksPerGroup blocksCount groupsCount : ℕ) : Prop where
  perGroup_pos : 0 < blocksPerGroup
  perGroup_le : blocksPerGroup ≤ V.bs * 8
  le_blocksCount : blocksPerGroup ≤ blocksCount
  blocksCount_le : blocksCount ≤ V.blocks
  no_wrap : blocksCount + blocksPerGroup - 1 < 2 ^ 32
  groups_eq : groupsCount = (blocksCount + blocksPerGroup - 1) / blocksPerGroup
  groups_le : groupsCount ≤ V.groups
  full_or_one : blocksPerGroup = V.bs * 8 ∨ blocksCount = blocksPerGroup

/-- The geometry that an allocation computes is that of the volume, clipped to the device. -/
theorem Image.allocGeometry (h : V.Image n fs) (hbs' : V.bs ≤ blockSizeDefault) {geom : ℕ × ℕ × ℕ}
    (hgeom : fs.allocGeometry = some geom) : V.GroupGeom geom.1 geom.2.1 geom.2.2 := by
  have hsb : fs.sbi.sBlocksCount = V.blocks := congrArg SbGeom.sBlocksCount h.geom
  have hsg : fs.sbi.sGroupsCount = V.groups := congrArg SbGeom.sGroupsCount h.geom
  have hbs := h.laid.bs_pos
  have hle := h.laid.bs_le
  have hgroups := h.laid.groups_pos
  have hblocks := h.laid.blocks_pos
  have hlt := h.laid.blocks_lt
  unfold Fs.allocGeometry at hgeom
  simp only [h.blockSize, h.blocksCount, hsb, hsg, if_neg hbs.ne',
    u32_of_lt (show V.bs * 8 < 2 ^ 32 by omega), ite_self, if_neg hblocks.ne',
    if_neg (show ¬ V.bs * 8 = 0 by omega)] at hgeom
  -- the device may be smaller than the volume says
  generalize hdev : (if u32 fs.dev.bdNrSectors / ext4SectorsPerBlock V.bs fs.dev > 0 ∧
    V.blocks > u32 fs.dev.bdNrSectors / ext4SectorsPerBlock V.bs fs.dev then
      u32 fs.dev.bdNrSectors / ext4SectorsPerBlock V.bs fs.dev else V.blocks) = c at hgeom
  have hc : 0 < c ∧ c ≤ V.blocks := by
    rw [← hdev]
    split <;> omega
  generalize hp : (if V.bs * 8 > c then c else V.bs * 8) = p at hgeom
  have hp' : 0 < p ∧ p ≤ c ∧ p ≤ V.bs * 8 ∧ (p = V.bs * 8 ∨ p = c) := by
    rw [← hp]
    split <;> omega
  have hprod : p ≤ V.groups * p := Nat.le_mul_of_pos_left _ hgroups
  have hnowrap : V.groups * p < 2 ^ 32 :=
    lt_of_le_of_lt (Nat.mul_le_mul_left _ (by omega)) (h.laid.bits_no_wrap hbs')
  rw [u32_of_lt hnowrap] at hgeom
  generalize hk : (if V.groups > 0 ∧ V.groups * p > 0 ∧ V.groups * p < c then V.groups * p else c) = k
    at hgeom
  have hk' : k ≤ c ∧ k ≤ V.groups * p ∧ p ≤ k := by
    rw [← hk]
    split <;> omega
  have hwrap : u32 (k + p - 1) / p ≠ 0 → k + p - 1 < 2 ^ 32 := by
    intro hne
    by_contra hw
    refine hne (Nat.div_eq_of_lt ?_)
    unfold u32
    omega
  split at hgeom
  · simp at hgeom
  · rename_i hne
    obtain rfl : (p, k, u32 (k + p - 1) / p) = geom := by simpa using hgeom
    rw [u32_of_lt (hwrap hne)]
    refine ⟨hp'.1, hp'.2.2.1, hk'.2.2, hk'.1.trans hc.2, hwrap hne, rfl, ?_, ?_⟩
    · exact Nat.le_of_lt_succ ((Nat.div_lt_iff_lt_mul hp'.1).2 (by rw [Nat.succ_mul]; omega))
    · rcases hp'.2.2.2 with heq | heq
      · exact .inl heq
      · exact .inr (by show k = p; omega)

/-! ### The loops of an allocation -/

/-- From `fs` the `len` bits from bit `i` of group `g`, all clear and below `limit`, were set. -/
structure TookRun (V : Volume) (n goalLen limit : ℕ) (fs : Fs) (g i len : ℕ) (fs' : Fs) : Prop where
  bs_le : V.bs ≤ blockSizeDefault
  len_pos : 0 < len
  len_le : len ≤ goalLen
  pos : 0 < i
  le_limit : i + len ≤ limit
  clear : ∀ j, i ≤ j → j < i + len → (fs.block (V.blockBitmap g)).bit j = false
  changed : V.Changed g ((fs.block (V.blockBitmap g)).setBits i (i + len)) (lowerFree (fs.desc g) len)
    fs fs'
  coherent : V.Coherent n fs'
  frame : V.AllocFrame fs fs'

/-- What the loops leave: a run of a group was taken, or nothing changed. -/
def TookPost (V : Volume) (n goalLen blocksPerGroup blocksCount groupsCount : ℕ) (fs : Fs) :
    Option (ℕ × ℕ) → Fs → Prop
  | none, fs' => V.Coherent n fs' ∧ V.Kept fs fs' ∧ V.AllocFrame fs fs'
  | some (b, len), fs' => ∃ g < groupsCount, ∃ i, b = g * blocksPerGroup + i ∧
      V.TookRun n goalLen (min blocksPerGroup (blocksCount - g * blocksPerGroup)) fs g i len fs'

/-- Every block of the group but its first is used. -/
def Full (V : Volume) (blocksPerGroup blocksCount : ℕ) (fs : Fs) (g : ℕ) : Prop :=
  ∀ j, 1 ≤ j → j < min blocksPerGroup (blocksCount - g * blocksPerGroup) →
    (fs.block (V.blockBitmap g)).bit j = true

variable {goalLen bpg bc gc : ℕ}

/-- A run that is taken after a step that leaves bitmaps and descriptors. -/
theorem TookRun.of_kept {limit i len : ℕ} (hkept : V.Kept fs fs') (hframe : V.AllocFrame fs fs')
    (h : V.TookRun n goalLen limit fs' g i len fs'') : V.TookRun n goalLen limit fs g i len fs'' := by
  have hg := h.changed.group
  have hchanged := h.changed
  rw [hkept.bitmap g hg, hkept.desc g hg] at hchanged
  exact ⟨h.bs_le, h.len_pos, h.len_le, h.pos, h.le_limit, by rw [← hkept.bitmap g hg]; exact h.clear,
    hkept.trans_changed hchanged, h.coherent, hframe.trans h.frame⟩

/-- What the loops leave after such a step. -/
theorem TookPost.of_kept {r : Option (ℕ × ℕ)} (hkept : V.Kept fs fs') (hframe : V.AllocFrame fs fs')
    (h : V.TookPost n goalLen bpg bc gc fs' r fs'') : V.TookPost n goalLen bpg bc gc fs r fs'' := by
  cases r with
  | none => exact ⟨h.1, hkept.trans h.2.1, hframe.trans h.2.2⟩
  | some r =>
    obtain ⟨g, hg, i, hb, hrun⟩ := h
    exact ⟨g, hg, i, hb, hrun.of_kept hkept hframe⟩

/-- The groups of an allocation start inside the volume. -/
theorem GroupGeom.mul_lt (h : V.GroupGeom bpg bc gc) (hg : g < gc) : g * bpg < bc := by
  have hpos := h.perGroup_pos
  have hle : (g + 1) * bpg ≤ bc + bpg - 1 :=
    (Nat.le_div_iff_mul_le hpos).1 (h.groups_eq ▸ hg)
  rw [Nat.add_mul, Nat.one_mul] at hle
  omega

/-- The first block of a group is not wrapped. -/
theorem GroupGeom.u32_start (h : V.GroupGeom bpg bc gc) (hg : g < gc) : u32 (g * bpg) = g * bpg := by
  have := h.mul_lt hg
  have := h.no_wrap
  have := h.perGroup_pos
  exact u32_of_lt (by omega)

/-- A group has `bpg` blocks, and the last one what is left. -/
theorem GroupGeom.groupBits_eq (h : V.GroupGeom bpg bc gc) (hg : g < gc) :
    Fs.groupBits bpg bc g = min bpg (bc - g * bpg) := by
  have := h.mul_lt hg
  have := h.no_wrap
  have := h.perGroup_pos
  rw [Fs.groupBits, h.u32_start hg, u32_of_lt (show g * bpg + bpg < 2 ^ 32 by omega)]
  split <;> omega

/-- The search is over bits of the bitmap that stand for blocks of the volume. -/
theorem GroupGeom.groupBits_le (h : V.GroupGeom bpg bc gc) (hg : g < gc) :
    Fs.groupBits bpg bc g ≤ V.bs * 8 ∧ g * bpg + Fs.groupBits bpg bc g ≤ bc ∧ bc < 2 ^ 32 := by
  have := h.mul_lt hg
  have := h.perGroup_le
  have := h.no_wrap
  have := h.perGroup_pos
  rw [h.groupBits_eq hg]
  omega

/-- A clear run of the bits of a group is one of blocks of the volume. -/
theorem GroupGeom.runFits (h : V.GroupGeom bpg bc gc) (hg : g < gc) {bitmap : Buf} {i l : ℕ} (hl : 0 < l)
    (hrun : ClearRun bitmap 1 (Fs.groupBits bpg bc g) i l) :
    Fs.RunFits bc (u32 (g * bpg)) i l ∧ u32 (u32 (g * bpg) + i) = g * bpg + i := by
  obtain ⟨-, hend, hbc⟩ := h.groupBits_le hg
  have := hrun.le_hi
  rw [Fs.RunFits, h.u32_start hg, u32_of_lt (show g * bpg + i < 2 ^ 32 by omega), u32_of_lt (by omega)]
  omega

/-- Only a group without a block to look for is left out. -/
theorem GroupGeom.groupBits_of_not_looksAt (h : V.GroupGeom bpg bc gc) (hg : g < gc)
    (hlooks : ¬ Fs.LooksAt bpg bc g) : Fs.groupBits bpg bc g ≤ 1 :=
  Nat.le_of_not_lt fun hbits ↦ hlooks ⟨by rw [h.u32_start hg]; exact h.mul_lt hg, hbits⟩

/-- Marking a clear run of the cached bitmap, and counting it, takes the run. -/
theorem Coherent.markRun (hbs : V.bs ≤ blockSizeDefault) (h : V.Coherent n fs)
    (hv : fs.sbi.sBmapCacheValid = true) (hgroup : fs.sbi.sBmapCacheGroup = g) (gc : ℕ)
    {start groupBlocks i l : ℕ} (hl : 0 < l) (hle : l ≤ goalLen)
    (hrun : ClearRun fs.sbi.sBmapCacheBuf 1 groupBlocks i l) (hbits : groupBlocks ≤ V.bs * 8)
    (hfits : Fs.RunFits bc start i l) :
    ∃ fs', Fs.markRun bc gc g start groupBlocks i l (fs.desc g) fs = (some (), fs') ∧
      V.TookRun n goalLen groupBlocks fs g i l (Fs.bgSync fs').2 := by
  have hg : V.Group g := hgroup ▸ (h.cache hv).1
  have hcache : Buf.clip V.bs fs.sbi.sBmapCacheBuf = fs.block (V.blockBitmap g) :=
    hgroup ▸ (h.cache hv).2.2
  obtain ⟨hlo, hhi, hclear⟩ := hrun
  obtain ⟨fs₂, hflush, h₂, hbitmap₂, hother₂, hdesc₂, hmem₂, hframe₂⟩ := h.flushRun hbs hv hgroup i l
  -- the descriptor with the lower count keeps its block numbers
  have hbb : (lowerFree (fs.desc g) l).getField 0 Gd.bgBlockBitmapLo = V.blockBitmap g := by
    rw [lowerFree, Buf.getField_setField_of_disjoint _ _ _ (by decide), h.desc_blockBitmap g hg]
  obtain ⟨fs₃, hstore, h₃, hchanged₃, hframe₃, hcache₃⟩ := h₂.toCarried.storeGroupDesc hbs hg
    (fun i hi ↦ by rw [lowerFree, h.setFree_of_le hi]) hbb
  set sbi₄ := fs₃.sbi.advanceGoal g (u32 (i + l)) groupBlocks gc with hsbi₄
  obtain ⟨hgeom, hgdesc, hvalid, hcg, hcd, hcb⟩ :=
    fs₃.sbi.advanceGoal_keeps g (u32 (i + l)) groupBlocks gc
  have h₄ : V.Carried n { fs₃ with sbi := sbi₄ } :=
    h₃.withSbi _ hgeom (by rw [hgdesc]; exact h₃.groupDesc)
  have hkept₄ : V.Kept fs₃ { fs₃ with sbi := sbi₄ } := h₃.kept_withSbi _ hgeom hgdesc
  obtain ⟨fs₅, hsync, h₅, hkept₅, hframe₅, hcache₅⟩ := h₄.bgSync
  have hkept := hkept₄.trans hkept₅
  have hsame : SameCache fs₂ fs₅ := hcache₃.trans (SameCache.trans ⟨hvalid, hcg, hcd, hcb⟩ hcache₅)
  have hchanged := hchanged₃.trans_kept hkept
  rw [hbitmap₂] at hchanged
  have hbitmaps : ∀ g', V.Group g' → fs₅.block (V.blockBitmap g') = fs₂.block (V.blockBitmap g') := by
    intro g' hg'
    by_cases hne : g' = g
    · rw [hne, hchanged.bitmap, hbitmap₂, Buf.clip_clip]
    · exact hchanged.bitmap_ne g' hg' hne
  have hlast : V.Changed g ((fs.block (V.blockBitmap g)).setBits i (i + l)) (lowerFree (fs.desc g) l)
      fs fs₅ :=
    ⟨hg, by rw [hchanged.bitmap, Buf.clip_clip],
      fun g' hg' hne ↦ (hchanged.bitmap_ne g' hg' hne).trans (hother₂ g' hg' hne), hchanged.desc,
      fun g' hg' hne ↦ (hchanged.desc_ne g' hg' hne).trans (hdesc₂ g' hg'), by
        rw [hchanged.memory, hmem₂]⟩
  refine ⟨{ fs₃ with sbi := sbi₄ }, ?_, ?_⟩
  · have hmarks := Fs.wp_markRun bc gc g start groupBlocks i l (fs.desc g) fs
    rcases hrun : Fs.markRun bc gc g start groupBlocks i l (fs.desc g) fs with ⟨r, fs'⟩
    rw [wp_of_eq hrun] at hmarks
    cases hmarks with
    | outside hno => exact absurd hfits hno
    | noFlush _ hno => simp [hflush] at hno
    | noStore _ hflush' hno =>
      obtain rfl : fs₂ = _ := congrArg Prod.snd (hflush.symm.trans hflush')
      simp [hstore] at hno
    | marked _ hflush' hstore' =>
      obtain rfl : fs₂ = _ := congrArg Prod.snd (hflush.symm.trans hflush')
      obtain rfl : fs₃ = _ := congrArg Prod.snd (hstore.symm.trans hstore')
      rfl
  · rw [hsync]
    refine ⟨hbs, hl, hle, by omega, hhi, fun j hj hj' ↦ ?_, hlast, ⟨h₅, fun hv ↦ ?_⟩,
      hframe₂.trans (hframe₃.trans ((AllocFrame.withSbi _ _).trans hframe₅))⟩
    · rw [← hcache, Buf.bit_clip _ (by omega)]
      exact hclear j hj hj'
    · rw [hsame.valid] at hv
      obtain ⟨hlt, hdirty, hbuf⟩ := h₂.cache hv
      rw [hsame.group, hsame.dirty, hsame.buf, hbitmaps _ hlt]
      exact ⟨hlt, hdirty, hbuf⟩

/-- In group `g` there is a clear run of `l` bits on one side of the cursor. -/
def OneSidedIn (V : Volume) (bpg bc : ℕ) (fs : Fs) (g l : ℕ) : Prop :=
  OneSided (fs.block (V.blockBitmap g)) (fs.startBit g (min bpg (bc - g * bpg)))
    (min bpg (bc - g * bpg)) l

/-- In group `g` the longest clear run on the side of the cursor that is taken has `l` bits. -/
def NextFitIn (V : Volume) (bpg bc : ℕ) (fs : Fs) (g l : ℕ) : Prop :=
  NextFit (fs.block (V.blockBitmap g)) (fs.startBit g (min bpg (bc - g * bpg)))
    (min bpg (bc - g * bpg)) l

/-- A search of group `g` takes a run of `l` bits: a full one if it looks for one, the longest on one
side of the cursor if it looks for any and there is no full one. -/
structure Picks (V : Volume) (goalLen : ℕ) (requireFullGoal : Bool) (bpg bc : ℕ) (fs : Fs)
    (g l : ℕ) : Prop where
  group : V.Group g
  full : requireFullGoal = true → l = goalLen ∧ V.OneSidedIn bpg bc fs g goalLen
  any : requireFullGoal = false → ¬ V.OneSidedIn bpg bc fs g goalLen → V.NextFitIn bpg bc fs g l

/-- A search passes over group `g`. -/
def Lacks (V : Volume) (goalLen : ℕ) (requireFullGoal : Bool) (bpg bc : ℕ) (fs : Fs) (g : ℕ) : Prop :=
  V.Group g → ¬ V.OneSidedIn bpg bc fs g (if requireFullGoal then goalLen else 1)

/-- The bitmaps and the cursors of the groups are as they were. -/
structure SameGoal (V : Volume) (fs fs' : Fs) : Prop where
  kept : V.Kept fs fs'
  goalBit : fs'.sbi.goalBitPerGroup = fs.sbi.goalBitPerGroup
  groups : fs'.sbi.sGroupsCount = fs.sbi.sGroupsCount

theorem SameGoal.refl (fs : Fs) : V.SameGoal fs fs := ⟨.refl fs, rfl, rfl⟩

/-- Two steps that leave bitmaps and cursors, one after the other. -/
theorem SameGoal.trans (h : V.SameGoal fs fs') (h' : V.SameGoal fs' fs'') : V.SameGoal fs fs'' :=
  ⟨h.kept.trans h'.kept, h'.goalBit.trans h.goalBit, h'.groups.trans h.groups⟩

/-- The search of a group starts where it did. -/
theorem SameGoal.startBit_eq (h : V.SameGoal fs fs') (g groupBlocks : ℕ) :
    fs'.startBit g groupBlocks = fs.startBit g groupBlocks := by
  rw [Fs.startBit, Fs.startBit, h.goalBit, h.groups]

/-- The runs of a group are what they were. -/
theorem SameGoal.oneSidedIn (h : V.SameGoal fs fs') (hg : V.Group g) {l : ℕ} :
    V.OneSidedIn bpg bc fs' g l ↔ V.OneSidedIn bpg bc fs g l := by
  rw [OneSidedIn, OneSidedIn, h.startBit_eq, h.kept.bitmap g hg]

theorem SameGoal.nextFitIn (h : V.SameGoal fs fs') (hg : V.Group g) {l : ℕ} :
    V.NextFitIn bpg bc fs' g l ↔ V.NextFitIn bpg bc fs g l := by
  rw [NextFitIn, NextFitIn, h.startBit_eq, h.kept.bitmap g hg]

/-- A group that has nothing to give had nothing to give. -/
theorem SameGoal.lacks (h : V.SameGoal fs fs') {requireFullGoal : Bool}
    (hlacks : V.Lacks goalLen requireFullGoal bpg bc fs' g) :
    V.Lacks goalLen requireFullGoal bpg bc fs g :=
  fun hg hsided ↦ hlacks hg ((h.oneSidedIn hg).2 hsided)

/-- What is picked now would have been picked then. -/
theorem SameGoal.picks (h : V.SameGoal fs fs') {requireFullGoal : Bool} {l : ℕ}
    (hpicks : V.Picks goalLen requireFullGoal bpg bc fs' g l) :
    V.Picks goalLen requireFullGoal bpg bc fs g l where
  group := hpicks.group
  full hfull := (hpicks.full hfull).imp_right (h.oneSidedIn hpicks.group).1
  any hany hno := (h.nextFitIn hpicks.group).1
    (hpicks.any hany fun hsided ↦ hno ((h.oneSidedIn hpicks.group).1 hsided))

/-- A group with nothing clear on either side of the cursor is full. -/
theorem Lacks.full (h : V.Lacks goalLen false bpg bc fs g) (hg : V.Group g) : V.Full bpg bc fs g := by
  intro j hj hj'
  by_contra hbit
  have hclear : ∀ k, j ≤ k → k < j + 1 → (fs.block (V.blockBitmap g)).bit k = false := by
    intro k hk hk'
    obtain rfl : k = j := by omega
    simpa using hbit
  refine h hg ⟨j, ?_⟩
  rcases Nat.lt_or_ge j (fs.startBit g (min bpg (bc - g * bpg))) with hlt | hge
  · exact .inr ⟨hj, hlt, hclear⟩
  · exact .inl ⟨hge, hj', hclear⟩

/-- What an iteration found in its group. -/
def Searched (V : Volume) (goalLen : ℕ) (requireFullGoal : Bool) (bpg bc : ℕ) (fs : Fs) (g : ℕ) :
    Option (ℕ × ℕ) → Fs → Prop
  | none, fs' => V.SameGoal fs fs' ∧ V.Lacks goalLen requireFullGoal bpg bc fs g
  | some (_, len), _ => V.Picks goalLen requireFullGoal bpg bc fs g len

/-! ### One group -/

/-- A group that is not looked at has nothing to give. -/
theorem GroupGeom.lacks (hgeom : V.GroupGeom bpg bc gc) (hg : g < gc) (hgoal : 0 < goalLen)
    (hlooks : ¬ Fs.LooksAt bpg bc g) (requireFullGoal : Bool) :
    V.Lacks goalLen requireFullGoal bpg bc fs g := by
  have hsmall := hgeom.groupBits_of_not_looksAt hg hlooks
  rw [hgeom.groupBits_eq hg] at hsmall
  have hwant : 1 ≤ if requireFullGoal then goalLen else 1 := by split <;> omega
  have hstart := fs.one_le_startBit g (min bpg (bc - g * bpg))
  have hend : fs.startBit g (min bpg (bc - g * bpg)) ≤ 1 := by
    unfold Fs.startBit
    split <;> (try split) <;> omega
  rintro - ⟨s, hrun | hrun⟩
  all_goals
    have := hrun.lo_le
    have := hrun.le_hi
    omega

/-- A descriptor that could be read is that of a group. -/
theorem Carried.of_readGroupDesc (hbs : V.bs ≤ blockSizeDefault) (h : V.Carried n fs) (hg : g < V.groups)
    (hread : Fs.readGroupDesc g fs = (some gd, fs')) : V.Group g ∧ gd = fs.desc g ∧ fs' = fs := by
  by_cases hV : V.Group g
  · rw [h.readGroupDesc hbs hV] at hread
    obtain ⟨hgd, rfl⟩ := Prod.mk.inj hread
    exact ⟨hV, (Option.some.inj hgd).symm, rfl⟩
  · rw [h.readGroupDesc_of_not fun hin ↦ hV ⟨hg, hin.2⟩] at hread
    simp at hread

/-- The bitmap of group `g` is in the cache, as the device has it. -/
structure Loaded (V : Volume) (n g : ℕ) (fs : Fs) : Prop extends V.Coherent n fs where
  valid : fs.sbi.sBmapCacheValid = true
  cached : fs.sbi.sBmapCacheGroup = g

/-- The bits of the cached bitmap are those of the device. -/
theorem Loaded.bit_eq (h : V.Loaded n g fs) {j : ℕ} (hj : j < 8 * V.bs) :
    fs.sbi.sBmapCacheBuf.bit j = (fs.block (V.blockBitmap g)).bit j := by
  rw [← h.cached, ← (h.cache h.valid).2.2, Buf.bit_clip _ hj]

/-- A search of the cached bitmap is one of the group. -/
theorem Loaded.oneSided_iff (h : V.Loaded n g fs) (hgeom : V.GroupGeom bpg bc gc) (hg : g < gc)
    (hlooks : Fs.LooksAt bpg bc g) (l : ℕ) :
    OneSided fs.sbi.sBmapCacheBuf (fs.startBit g (Fs.groupBits bpg bc g)) (Fs.groupBits bpg bc g) l ↔
      V.OneSidedIn bpg bc fs g l := by
  have hbits := (hgeom.groupBits_le hg).1
  have hcursor := (fs.startBit_lt g hlooks.2).le
  have heq : ∀ j < Fs.groupBits bpg bc g,
      fs.sbi.sBmapCacheBuf.bit j = (fs.block (V.blockBitmap g)).bit j := fun j hj ↦ h.bit_eq (by omega)
  rw [OneSidedIn, ← hgeom.groupBits_eq hg]
  exact ⟨.congr hcursor heq, .congr hcursor fun j hj ↦ (heq j hj).symm⟩

/-- A search that finds nothing passes over the group. -/
theorem Loaded.lacks (h : V.Loaded n g fs) (hgeom : V.GroupGeom bpg bc gc) (hg : g < gc)
    (hlooks : Fs.LooksAt bpg bc g) (hgoal : 0 < goalLen) {requireFullGoal : Bool}
    (hfound : (fs.scanGroup g (Fs.groupBits bpg bc g) goalLen requireFullGoal).1 = false) :
    V.Lacks goalLen requireFullGoal bpg bc fs g := by
  have hbits : Fs.groupBits bpg bc g ≤ fs.blockSize * 8 := h.blockSize ▸ (hgeom.groupBits_le hg).1
  exact fun _ hs ↦ Fs.not_oneSided_of_not_scanGroup hgoal hbits hlooks.2 hfound
    ((h.oneSided_iff hgeom hg hlooks _).2 hs)

/-- A search that finds a run picks it. -/
theorem Loaded.picks (h : V.Loaded n g fs) (hgeom : V.GroupGeom bpg bc gc) (hg : g < gc)
    (hlooks : Fs.LooksAt bpg bc g) (hgoal : 0 < goalLen) {requireFullGoal : Bool} {i len : ℕ}
    (hfound : fs.scanGroup g (Fs.groupBits bpg bc g) goalLen requireFullGoal = (true, i, len)) :
    V.Picks goalLen requireFullGoal bpg bc fs g len := by
  have hbits : Fs.groupBits bpg bc g ≤ fs.blockSize * 8 := h.blockSize ▸ (hgeom.groupBits_le hg).1
  obtain ⟨-, -, -, hside, hfull⟩ := Fs.scanGroup_spec hgoal hlooks.2 (congrArg Prod.fst hfound)
  rw [hfound] at hside hfull
  refine ⟨h.cached ▸ (h.cache h.valid).1, fun hf ↦ ⟨hfull hf, ?_⟩, fun hany hno ↦ ?_⟩
  · rw [← h.oneSided_iff hgeom hg hlooks, ← hfull hf]
    exact hside
  · subst hany
    have hnext := Fs.nextFit_of_scanGroup hgoal hbits hlooks.2 (congrArg Prod.fst hfound)
      fun hs ↦ hno ((h.oneSided_iff hgeom hg hlooks goalLen).1 hs)
    rw [hfound] at hnext
    rw [NextFitIn, ← hgeom.groupBits_eq hg]
    exact .congr (fs.startBit_lt g hlooks.2).le
      (fun j hj ↦ h.bit_eq (by have := (hgeom.groupBits_le hg).1; omega)) hnext

/-- Loading the bitmap of a group whose descriptor was read. -/
theorem Coherent.loaded (hbs : V.bs ≤ blockSizeDefault) (h : V.Coherent n fs) (hg : V.Group g) :
    ∃ fs', Fs.bmapCacheLoad g (fs.desc g) fs = (some (fs'.desc g), fs') ∧ V.Loaded n g fs' ∧
      V.SameGoal fs fs' ∧ V.AllocFrame fs fs' := by
  obtain ⟨fs', hload, h', hkept, hframe, hvalid, hgroup, hgoalBit⟩ := h.bmapCacheLoad hbs hg
  exact ⟨fs', hload, ⟨h', hvalid, hgroup⟩,
    ⟨hkept, hgoalBit, congrArg SbGeom.sGroupsCount (h'.geom.trans h.geom.symm)⟩, hframe⟩

/-- **One iteration takes a run of its group or changes nothing.** -/
theorem Coherent.tryGroup (hbs : V.bs ≤ blockSizeDefault) (h : V.Coherent n fs)
    (hgeom : V.GroupGeom bpg bc gc) (hg : g < gc) (hgoal : 0 < goalLen) (requireFullGoal : Bool) :
    wp (Fs.tryGroup goalLen requireFullGoal bpg bc gc g) (fun r fs' ↦ ∃ x, r = some x ∧
      V.TookPost n goalLen bpg bc gc fs x fs' ∧ V.Searched goalLen requireFullGoal bpg bc fs g x fs')
      fs := by
  have hskip : V.TookPost n goalLen bpg bc gc fs none fs := ⟨h, .refl fs, .refl fs⟩
  have hle := lt_of_lt_of_le hg hgeom.groups_le
  have hread : ∀ {gd fs₁}, Fs.readGroupDesc g fs = (some gd, fs₁) →
      V.Group g ∧ gd = fs.desc g ∧ fs₁ = fs := fun hread ↦ h.toCarried.of_readGroupDesc hbs hle hread
  have hbits := (hgeom.groupBits_le hg).1
  -- what is marked is a run of the loaded bitmap
  have hmarks : ∀ {fs₁ fs₂ fs₃ : Fs} {gd gd' : Buf} {r : Option Unit} {i len : ℕ},
      Fs.LooksAt bpg bc g → Fs.readGroupDesc g fs = (some gd, fs₁) →
      Fs.bmapCacheLoad g gd fs₁ = (some gd', fs₂) →
      fs₂.scanGroup g (Fs.groupBits bpg bc g) goalLen requireFullGoal = (true, i, len) →
      Fs.markRun bc gc g (u32 (g * bpg)) (Fs.groupBits bpg bc g) i len gd' fs₂ = (r, fs₃) →
        r = some () ∧ u32 (u32 (g * bpg) + i) = g * bpg + i ∧ V.SameGoal fs fs₂ ∧ V.AllocFrame fs fs₂ ∧
          V.TookRun n goalLen (Fs.groupBits bpg bc g) fs₂ g i len (Fs.bgSync fs₃).2 ∧
          V.Picks goalLen requireFullGoal bpg bc fs₂ g len := by
    intro fs₁ fs₂ fs₃ gd gd' r i len hlooks hrun hload hfound hmark
    obtain ⟨hV, rfl, rfl⟩ := hread hrun
    obtain ⟨fs₂', hload', hloaded, hsame, hframe⟩ := h.loaded hbs hV
    obtain ⟨hgd', rfl⟩ := Prod.mk.inj (hload'.symm.trans hload)
    obtain rfl := Option.some.inj hgd'
    obtain ⟨hl, hlen, hclear⟩ := Fs.clearRun_of_scanGroup hgoal hlooks.2 hfound
    obtain ⟨fs₃', hmark', htook⟩ := hloaded.toCoherent.markRun hbs hloaded.valid hloaded.cached gc hl hlen
      hclear hbits (hgeom.runFits hg hl hclear).1
    obtain ⟨rfl, rfl⟩ := Prod.mk.inj (hmark'.symm.trans hmark)
    exact ⟨rfl, (hgeom.runFits hg hl hclear).2, hsame, hframe, htook,
      hloaded.picks hgeom hg hlooks hgoal hfound⟩
  refine wp_mono (Fs.wp_tryGroup goalLen requireFullGoal bpg bc gc g fs) fun r fs' htries ↦ ?_
  cases htries with
  | skip hlooks => exact ⟨none, rfl, hskip, .refl fs, hgeom.lacks hg hgoal hlooks requireFullGoal⟩
  | noDesc _ hrun =>
    by_cases hV : V.Group g
    · rw [h.toCarried.readGroupDesc hbs hV] at hrun
      simp at hrun
    · rw [h.toCarried.readGroupDesc_of_not fun hin ↦ hV ⟨hle, hin.2⟩] at hrun
      obtain rfl : fs = fs' := congrArg Prod.snd hrun
      exact ⟨none, rfl, hskip, .refl fs, fun hV' ↦ absurd hV' hV⟩
  | noBitmap _ hrun hblock =>
    obtain ⟨hV, rfl, rfl⟩ := hread hrun
    rw [h.desc_blockBitmap g hV] at hblock
    exact absurd hblock (h.laid.blockBitmap_pos g hV)
  | noLoad _ hrun _ hload =>
    obtain ⟨hV, rfl, rfl⟩ := hread hrun
    obtain ⟨fs₂, hload', -⟩ := h.loaded hbs hV
    rw [hload'] at hload
    simp at hload
  | noRun hlooks hrun _ hload hfound =>
    obtain ⟨hV, rfl, rfl⟩ := hread hrun
    obtain ⟨fs₂, hload', hloaded, hsame, hframe⟩ := h.loaded hbs hV
    obtain rfl : fs₂ = fs' := congrArg Prod.snd (hload'.symm.trans hload)
    exact ⟨none, rfl, ⟨hloaded.toCoherent, hsame.kept, hframe⟩, hsame,
      hsame.lacks (hloaded.lacks hgeom hg hlooks hgoal hfound)⟩
  | noMark hlooks hrun _ hload hfound hmark =>
    exact absurd (hmarks hlooks hrun hload hfound hmark).1 (by simp)
  | took hlooks hrun _ hload hfound hmark =>
    obtain ⟨-, hstart, hsame, hframe, htook, hpicks⟩ := hmarks hlooks hrun hload hfound hmark
    rw [hstart]
    rw [hgeom.groupBits_eq hg] at htook
    exact ⟨_, rfl, ⟨g, hg, _, rfl, htook.of_kept hsame.kept hframe⟩, hsame.picks hpicks⟩

/-- On blocks too large for the pool an iteration does nothing. -/
theorem Carried.tryGroup_of_lt (hbs : blockSizeDefault < V.bs) (h : V.Carried n fs) (goalLen : ℕ)
    (requireFullGoal : Bool) (bpg bc gc g : ℕ) :
    wp (Fs.tryGroup goalLen requireFullGoal bpg bc gc g) (fun r fs' ↦ r = some none ∧ fs' = fs) fs := by
  have hnone : Fs.readGroupDesc g fs = (none, fs) :=
    h.readGroupDesc_of_not fun hin ↦ absurd hin.1 (by omega)
  refine wp_mono (Fs.wp_tryGroup goalLen requireFullGoal bpg bc gc g fs) fun r fs' htries ↦ ?_
  cases htries with
  | skip _ => exact ⟨rfl, rfl⟩
  | noDesc _ hrun => exact ⟨rfl, (congrArg Prod.snd (hnone.symm.trans hrun)).symm⟩
  | noBitmap _ hrun _ | noLoad _ hrun _ _ | noRun _ hrun _ _ _ | noMark _ hrun _ _ _ _
  | took _ hrun _ _ _ _ =>
    rw [hnone] at hrun
    simp at hrun

/-! ### All groups -/

/-- What `ext4_new_blocks_in_group` leaves. -/
def NewPost (V : Volume) (n goalLen : ℕ) (fs : Fs) : Option (ℕ × ℕ) → Fs → Prop
  | none, fs' => V.Coherent n fs' ∧ V.Kept fs fs' ∧ V.AllocFrame fs fs' ∧
      (V.bs ≤ blockSizeDefault → ∀ geom, fs.allocGeometry = some geom →
        ∀ g < geom.2.2, V.Group g → V.Full geom.1 geom.2.1 fs g)
  | some r, fs' => ∃ geom, fs.allocGeometry = some geom ∧
      V.TookPost n goalLen geom.1 geom.2.1 geom.2.2 fs (some r) fs'

/-- What a call for `goalLen` blocks chooses: a full run if there is one on one side of a cursor, and
else what the first group in the order of the visits with a clear bit has to give. -/
def Chosen (V : Volume) (goalLen bpg bc gc startGroup : ℕ) (fs : Fs) : Option (ℕ × ℕ) → Prop
  | none => ∀ g < gc, V.Lacks goalLen false bpg bc fs g
  | some (_, len) => 1 < goalLen →
      (∃ g < gc, V.Group g ∧ V.OneSidedIn bpg bc fs g goalLen) ∧ len = goalLen ∨
      (∀ g < gc, V.Group g → ¬ V.OneSidedIn bpg bc fs g goalLen) ∧
        ∃ k < gc, (∀ j < k, V.Lacks goalLen false bpg bc fs (visit startGroup gc j)) ∧
          V.Group (visit startGroup gc k) ∧ V.NextFitIn bpg bc fs (visit startGroup gc k) len

/-- What holds while the groups are gone through: nothing has changed, the first `k` groups of the pass
have nothing to give, and in the second pass no group has a full run. -/
structure Passing (V : Volume) (n goalLen bpg bc gc start : ℕ) (fs : Fs) (requireFullGoal : Bool) (k : ℕ)
    (fs' : Fs) : Prop where
  coherent : V.Coherent n fs'
  same : V.SameGoal fs fs'
  frame : V.AllocFrame fs fs'
  lacks : ∀ j < k, V.Lacks goalLen requireFullGoal bpg bc fs (visit start gc j)
  short : requireFullGoal = false → 1 < goalLen →
    ∀ g < gc, V.Group g → ¬ V.OneSidedIn bpg bc fs g goalLen

/-- What is picked after the groups that have nothing to give is what the call chooses. -/
theorem Passing.chosen {start k b len : ℕ} {requireFullGoal : Bool}
    (h : V.Passing n goalLen bpg bc gc start fs requireFullGoal k fs') (hstart : start < gc) (hk : k < gc)
    (hpicks : V.Picks goalLen requireFullGoal bpg bc fs' (visit start gc k) len) :
    V.Chosen goalLen bpg bc gc start fs (some (b, len)) := by
  have hpicks := h.same.picks hpicks
  intro hmany
  cases requireFullGoal with
  | true =>
    obtain ⟨hlen, hsided⟩ := hpicks.full rfl
    exact .inl ⟨⟨_, visit_lt hstart hk, hpicks.group, hsided⟩, hlen⟩
  | false =>
    have hshort := h.short rfl hmany
    exact .inr ⟨hshort, k, hk, h.lacks, hpicks.group,
      hpicks.any rfl (hshort _ (visit_lt hstart hk) hpicks.group)⟩

/-- One more group has nothing to give. -/
theorem Passing.skip {start k : ℕ} {requireFullGoal : Bool}
    (h : V.Passing n goalLen bpg bc gc start fs requireFullGoal k fs')
    (hpost : V.TookPost n goalLen bpg bc gc fs' none fs'')
    (hsearched : V.Searched goalLen requireFullGoal bpg bc fs' (visit start gc k) none fs'') :
    V.Passing n goalLen bpg bc gc start fs requireFullGoal (k + 1) fs'' where
  coherent := hpost.1
  same := h.same.trans hsearched.1
  frame := h.frame.trans hpost.2.2
  lacks j hj := by
    rcases Nat.lt_succ_iff_lt_or_eq.1 hj with hj | rfl
    · exact h.lacks j hj
    · exact h.same.lacks hsearched.2
  short := h.short

/-- Every group was passed over. -/
theorem Passing.lacks_all {start : ℕ} {requireFullGoal : Bool}
    (h : V.Passing n goalLen bpg bc gc start fs requireFullGoal gc fs') (hstart : start < gc) :
    ∀ g < gc, V.Lacks goalLen requireFullGoal bpg bc fs g := by
  intro g hg
  obtain ⟨k, hk, rfl⟩ := exists_visit_eq hstart hg
  exact h.lacks k hk

/-- Where no group has a full run, the second pass takes any. -/
theorem Passing.next {start : ℕ} (h : V.Passing n goalLen bpg bc gc start fs true gc fs')
    (hstart : start < gc) : V.Passing n goalLen bpg bc gc start fs false 0 fs' where
  coherent := h.coherent
  same := h.same
  frame := h.frame
  lacks j hj := absurd hj (Nat.not_lt_zero j)
  short _ _ g hg hV hsided := h.lacks_all hstart g hg hV (by simpa using hsided)

/-- **An allocation takes a run of clear bits or fails and changes nothing.** It fails only if there is
no clear bit to take. -/
theorem Coherent.newBlocks_chosen (h : V.Coherent n fs) (goalLen preferredGroup : ℕ) :
    wp (Fs.ext4NewBlocksInGroup goalLen preferredGroup)
      (fun r fs' ↦ V.NewPost n (max 1 goalLen) fs r fs' ∧ (V.bs ≤ blockSizeDefault →
        ∀ bpg bc gc, fs.allocGeometry = some (bpg, bc, gc) →
          V.Chosen (max 1 goalLen) bpg bc gc (fs.startGroup preferredGroup gc) fs r)) fs := by
  rcases hgeom : fs.allocGeometry with _ | ⟨bpg, bc, gc⟩
  · rw [wp, Fs.newBlocks_of_geometry_none h.groupDesc hgeom]
    exact ⟨⟨h, .refl fs, .refl fs, fun _ geom hsome ↦ by simp [hgeom] at hsome⟩, by simp⟩
  by_cases hbs : V.bs ≤ blockSizeDefault
  swap
  · refine Fs.wp_newBlocks (I := fun _ _ fs' ↦ fs' = fs) h.groupDesc hgeom
      (Fs.not_meetsNew_of_never _ _ _) rfl ?_ (fun _ _ heq ↦ heq) ?_
    · rintro full k fs' - rfl -
      refine wp_mono (h.toCarried.tryGroup_of_lt (Nat.lt_of_not_le hbs) ..) fun r fs'' hr ↦ ?_
      rw [if_pos hr.1]
      exact hr.2
    · rintro fs' rfl
      exact ⟨⟨h, .refl fs', .refl fs', fun hbs' ↦ absurd hbs' hbs⟩, fun hbs' ↦ absurd hbs' hbs⟩
  have hg := h.toCarried.allocGeometry hbs hgeom
  dsimp only at hg
  set start := fs.startGroup preferredGroup gc with hstart
  have hlt : start < gc :=
    fs.startGroup_lt preferredGroup (Fs.groupsCount_pos_of_allocGeometry hgeom)
  -- what the caller is told of this geometry holds of any
  have hpost : ∀ r fs', V.NewPost n (max 1 goalLen) fs r fs' →
      V.Chosen (max 1 goalLen) bpg bc gc start fs r →
      V.NewPost n (max 1 goalLen) fs r fs' ∧ (V.bs ≤ blockSizeDefault →
        ∀ bpg' bc' gc', some (bpg, bc, gc) = some (bpg', bc', gc') →
          V.Chosen (max 1 goalLen) bpg' bc' gc' (fs.startGroup preferredGroup gc') fs r) := by
    intro r fs' hnew hchosen
    refine ⟨hnew, fun _ bpg' bc' gc' heq ↦ ?_⟩
    obtain ⟨rfl, rfl, rfl⟩ : bpg = bpg' ∧ bc = bc' ∧ gc = gc' := by simpa using heq
    exact hchosen
  refine Fs.wp_newBlocks (I := V.Passing n (max 1 goalLen) bpg bc gc start fs) h.groupDesc hgeom
    (Fs.not_meetsNew_of_never _ _ _) ⟨h, .refl fs, .refl fs, fun j hj ↦ absurd hj (Nat.not_lt_zero j), ?_⟩
    ?_ (fun fs' _ hI ↦ hI.next hlt) ?_
  · intro hone hmany
    simp only [decide_eq_false_iff_not] at hone
    exact absurd hmany hone
  · intro full k fs' hk hI _
    refine wp_mono (hI.coherent.tryGroup hbs hg (visit_lt hlt hk) (by omega) full) ?_
    rintro r fs'' ⟨_ | ⟨b, len⟩, rfl, htook, hsearched⟩
    · rw [if_pos rfl]
      exact hI.skip htook hsearched
    · rw [if_neg (by simp)]
      exact hpost _ fs'' ⟨_, hgeom, htook.of_kept hI.same.kept hI.frame⟩ (hI.chosen hlt hk hsearched)
  · intro fs' hI
    refine hpost none fs' ⟨hI.coherent, hI.same.kept, hI.frame, fun _ geom hsome g hg' hV ↦ ?_⟩
      (hI.lacks_all hlt)
    obtain rfl : (bpg, bc, gc) = geom := Option.some.inj (hgeom.symm.trans hsome)
    exact (hI.lacks_all hlt g hg').full hV

/-- What an allocation leaves, without what it chose. -/
theorem Coherent.newBlocks (h : V.Coherent n fs) (goalLen preferredGroup : ℕ) :
    wp (Fs.ext4NewBlocksInGroup goalLen preferredGroup) (V.NewPost n (max 1 goalLen) fs) fs :=
  wp_mono (h.newBlocks_chosen goalLen preferredGroup) fun _ _ hpost ↦ hpost.1

/-! ### Freeing -/

/-- From `fs` the bit of block `b` was cleared, in the bitmap of the group the call takes it for. -/
structure Freed (V : Volume) (n : ℕ) (fs : Fs) (b : ℕ) (fs' : Fs) : Prop where
  bs_le : V.bs ≤ blockSizeDefault
  byte_lt : b % V.perGroup / 8 < V.bs
  set : (fs.block (V.blockBitmap (b / V.perGroup))).bit (b % V.perGroup) = true
  changed : V.Changed (b / V.perGroup)
    ((fs.block (V.blockBitmap (b / V.perGroup))).clearBit (b % V.perGroup))
    (raiseFree (fs.desc (b / V.perGroup))) fs fs'
  coherent : V.Coherent n fs'
  frame : V.AllocFrame fs fs'

/-- The call gets as far as the bitmap. -/
structure Reaches (V : Volume) (b : ℕ) : Prop where
  bs_le : V.bs ≤ blockSizeDefault
  group : V.Group (b / V.perGroup)
  mod_lt : b % V.perGroup < V.perGroup
  byte_lt : b % V.perGroup / 8 < V.bs

/-- The bitmap of a group can be read. -/
theorem Carried.readBlockBitmap (hbs : V.bs ≤ blockSizeDefault) (h : V.Carried n fs)
    (hg : V.Group g) :
    Fs.readBlockBitmap g fs = (some (V.blockBitmap g, fs.block (V.blockBitmap g)), fs) := by
  have hgroups : fs.sbi.sGroupsCount = V.groups := congrArg SbGeom.sGroupsCount h.geom
  unfold Fs.readBlockBitmap
  rw [get_bind, hgroups, guard_true hg.1, pure_bind', bind_of_eq_some (h.readGroupDesc hbs hg)]
  rw [h.desc_blockBitmap g hg, bind_of_eq_some (h.usable.readBlock (h.laid.blockBitmap_lt hg.1)),
    guard_true (h.laid.blockBitmap_pos g hg), pure_bind']
  rfl

/-- Where a descriptor cannot be read the bitmap cannot either, and nothing changes. -/
theorem Carried.readBlockBitmap_eq_none (h : V.Carried n fs) (hread : Fs.readBlockBitmap g fs = (none, fs')) :
    fs' = fs := by
  have hgroups : fs.sbi.sGroupsCount = V.groups := congrArg SbGeom.sGroupsCount h.geom
  by_cases hg : g < V.groups
  · by_cases hin : V.bs ≤ blockSizeDefault ∧ V.descOff g + V.geom.copySz ≤ V.bs
    · rw [h.readBlockBitmap hin.1 ⟨hg, hin.2⟩] at hread
      simp at hread
    · unfold Fs.readBlockBitmap at hread
      rw [get_bind, hgroups, guard_true hg, pure_bind',
        bind_of_eq_none (h.readGroupDesc_of_not hin)] at hread
      exact (congrArg Prod.snd hread).symm
  · unfold Fs.readBlockBitmap at hread
    rw [get_bind, hgroups, guard_false hg, fail_bind, fail_apply] at hread
    exact (congrArg Prod.snd hread).symm

/-- A bitmap that could be read is that of a group, as it is on the device. -/
theorem Carried.of_readBlockBitmap (h : V.Carried n fs) {bitmap : ℕ × Buf}
    (hread : Fs.readBlockBitmap g fs = (some bitmap, fs')) :
    V.bs ≤ blockSizeDefault ∧ V.Group g ∧ bitmap = (V.blockBitmap g, fs.block (V.blockBitmap g)) ∧
      fs' = fs := by
  have hgroups : fs.sbi.sGroupsCount = V.groups := congrArg SbGeom.sGroupsCount h.geom
  by_cases hg : g < V.groups
  swap
  · unfold Fs.readBlockBitmap at hread
    rw [get_bind, hgroups, guard_false hg, fail_bind, fail_apply] at hread
    simp at hread
  by_cases hin : V.bs ≤ blockSizeDefault ∧ V.descOff g + V.geom.copySz ≤ V.bs
  swap
  · unfold Fs.readBlockBitmap at hread
    rw [get_bind, hgroups, guard_true hg, pure_bind',
      bind_of_eq_none (h.readGroupDesc_of_not hin)] at hread
    simp at hread
  rw [h.readBlockBitmap hin.1 ⟨hg, hin.2⟩] at hread
  obtain ⟨hbitmap, rfl⟩ := Prod.mk.inj hread
  exact ⟨hin.1, ⟨hg, hin.2⟩, (Option.some.inj hbitmap).symm, rfl⟩

/-- A call that reads the bit of the block gets as far as the bitmap. -/
theorem Carried.reaches (h : V.Carried n fs) {b : ℕ} {bitmap : ℕ × Buf}
    (hreads : fs.ReadsBit (b / V.perGroup) (b % V.perGroup) bitmap fs') : V.Reaches b := by
  have hper : fs.sbi.sBlocksPerGroup = V.perGroup := congrArg SbGeom.sBlocksPerGroup h.geom
  obtain ⟨hbs, hg, -, -⟩ := h.of_readBlockBitmap hreads.read
  exact ⟨hbs, hg, hper ▸ hreads.bit_lt, h.blockSize ▸ hreads.byte_lt⟩

/-- Where a call stops before the bitmap it changes nothing. -/
theorem Carried.freeBlock_of_not (h : V.Carried n fs) {b : ℕ} (hb : ¬ V.Reaches b) :
    Fs.ext4FreeBlock b fs = (none, fs) := by
  have hper : fs.sbi.sBlocksPerGroup = V.perGroup := congrArg SbGeom.sBlocksPerGroup h.geom
  have hfrees := Fs.wp_freeBlock h.groupDesc b
  rcases hrun : Fs.ext4FreeBlock b fs with ⟨r, fs'⟩
  rw [wp_of_eq hrun, hper] at hfrees
  cases hfrees with
  | refuse _ => rfl
  | noBitmap _ hread => rw [h.readBlockBitmap_eq_none hread]
  | outside _ hread _ => rw [(h.of_readBlockBitmap hread).2.2.2]
  | clear hreads _ | noWrite hreads _ _ | noDesc hreads _ _ _ | noStore hreads _ _ _ _
  | freed hreads _ _ _ _ => exact absurd (h.reaches hreads) hb

/-- Storing a bitmap with a bit cleared. -/
theorem Carried.writeBlockBitmap (h : V.Carried n fs) (hg : V.Group g) (buf : Buf) :
    Fs.writeBlockBitmap (V.blockBitmap g) buf fs = (some (), fs.put (V.blockBitmap g) buf) := by
  unfold Fs.writeBlockBitmap
  rw [guard_true (h.laid.blockBitmap_pos g hg), pure_bind',
    h.usable.writeBlock (h.laid.blockBitmap_lt hg.1)]

/-- Storing the descriptor of a group of which one more block is free. -/
theorem Carried.storeRaised (hbs : V.bs ≤ blockSizeDefault) (h : V.Carried n fs) (hg : V.Group g) :
    ∃ fs', Fs.storeGroupDesc g (raiseFree (fs.desc g)) fs = (some (), fs') ∧ V.Carried n fs' ∧
      V.Changed g (fs.block (V.blockBitmap g)) (raiseFree (fs.desc g)) fs fs' ∧ V.AllocFrame fs fs' ∧
      SameCache fs fs' := by
  refine h.storeGroupDesc hbs hg (fun i hi ↦ by rw [raiseFree, h.setFree_of_le hi]) ?_
  rw [raiseFree, Buf.getField_setField_of_disjoint _ _ _ (by decide), h.desc_blockBitmap g hg]

/-- What a release that goes through leaves: the bitmap is written, the descriptor stored, the change
counted, and the cached bitmap dropped. -/
theorem Coherent.freed (h : V.Coherent n fs) {b : ℕ} (hb : V.Reaches b)
    (hbit : (fs.block (V.blockBitmap (b / V.perGroup))).bit (b % V.perGroup) = true)
    (hstore : Fs.storeGroupDesc (b / V.perGroup)
      (raiseFree ((fs.put (V.blockBitmap (b / V.perGroup))
        ((fs.block (V.blockBitmap (b / V.perGroup))).clearBit (b % V.perGroup))).desc (b / V.perGroup)))
      (fs.put (V.blockBitmap (b / V.perGroup))
        ((fs.block (V.blockBitmap (b / V.perGroup))).clearBit (b % V.perGroup))) = (some (), fs')) :
    V.Freed n fs b
      { (Fs.bgSync fs').2 with sbi := (Fs.bgSync fs').2.sbi.dropBmapCache (b / V.perGroup) } := by
  obtain ⟨hbs, hg, hmod, hbyte⟩ := hb
  set g := b / V.perGroup with hgdef
  set i := b % V.perGroup with hidef
  set cleared := (fs.block (V.blockBitmap g)).clearBit i with hcleared
  set fs₁ := fs.put (V.blockBitmap g) cleared with hfs₁
  obtain ⟨-, hself, hother, hdesc⟩ := h.toImage.putBitmap hg cleared
  have h₁ := h.toCarried.putBitmap hg cleared
  obtain ⟨fs₂, hstore', h₂, hchanged₂, hframe₂, hcache₂⟩ := h₁.storeRaised hbs hg
  obtain rfl : fs₂ = fs' := congrArg Prod.snd (hstore'.symm.trans hstore)
  obtain ⟨fs₃, hsync, h₃, hkept₃, hframe₃, hcache₃⟩ := h₂.bgSync
  have hchanged := hchanged₂.trans_kept hkept₃
  have hput : SameCache fs fs₁ := ⟨rfl, rfl, rfl, rfl⟩
  have hsame : SameCache fs fs₃ := hput.trans (hcache₂.trans hcache₃)
  rw [hsync]
  set sbi₄ := fs₃.sbi.dropBmapCache g with hsbi₄
  obtain ⟨hgeom, hgdesc⟩ := fs₃.sbi.dropBmapCache_keeps g
  have hkept₄ : V.Kept fs₃ { fs₃ with sbi := sbi₄ } := h₃.kept_withSbi _ hgeom hgdesc
  have hchanged₄ := hchanged.trans_kept hkept₄
  rw [hself, hdesc g hg] at hchanged₄
  refine ⟨hbs, hbyte, hbit,
    ⟨hg, by rw [hchanged₄.bitmap, Buf.clip_clip], fun g' hg' hne ↦
      (hchanged₄.bitmap_ne g' hg' hne).trans (hother g' hg' hne), hchanged₄.desc,
      fun g' hg' hne ↦ (hchanged₄.desc_ne g' hg' hne).trans (hdesc g' hg'), hchanged₄.memory⟩,
    ⟨h₃.withSbi _ hgeom (by rw [hgdesc]; exact h₃.groupDesc), fun hv ↦ ?_⟩,
    (AllocFrame.put (.inr ⟨g, hg.1, .inr rfl⟩) _).trans
      (hframe₂.trans (hframe₃.trans (.withSbi ..)))⟩
  -- a cache that is still there is of another group
  obtain ⟨heq, hne⟩ := SbInfo.eq_of_dropBmapCache_valid hv
  simp only [hsbi₄, heq] at hv ⊢
  rw [hsame.group] at hne
  obtain ⟨hlt, hdirty, hbuf⟩ := h.cache (hsame.valid ▸ hv)
  refine ⟨hsame.group ▸ hlt, hsame.dirty.trans hdirty, ?_⟩
  show Buf.clip V.bs fs₃.sbi.sBmapCacheBuf = fs₃.block (V.blockBitmap fs₃.sbi.sBmapCacheGroup)
  rw [hsame.buf, hsame.group, hchanged.bitmap_ne _ hlt hne, hother _ hlt hne]
  exact hbuf

/-- **Freeing a block clears its bit.** Where the bit is clear nothing changes. -/
theorem Coherent.freeBlock (h : V.Coherent n fs) {b : ℕ} (hb : V.Reaches b) :
    ∃ fs', Fs.ext4FreeBlock b fs = (some (), fs') ∧
      if (fs.block (V.blockBitmap (b / V.perGroup))).bit (b % V.perGroup) then V.Freed n fs b fs'
      else fs' = fs := by
  have hper : fs.sbi.sBlocksPerGroup = V.perGroup := congrArg SbGeom.sBlocksPerGroup h.geom
  have hgroups : fs.sbi.sGroupsCount = V.groups := congrArg SbGeom.sGroupsCount h.geom
  have hfreed := fun hbit fs' ↦ @Coherent.freed V n fs fs' h b hb hbit
  obtain ⟨hbs, hg, hmod, hbyte⟩ := hb
  have hfrees := Fs.wp_freeBlock h.groupDesc b
  rcases hrun : Fs.ext4FreeBlock b fs with ⟨r, fs'⟩
  rw [wp_of_eq hrun, hper] at hfrees
  generalize b / V.perGroup = g at *
  generalize b % V.perGroup = i at *
  have hread := h.toCarried.readBlockBitmap hbs hg
  have hwrite := h.toCarried.writeBlockBitmap hg ((fs.block (V.blockBitmap g)).clearBit i)
  have h₁ := h.toCarried.putBitmap hg ((fs.block (V.blockBitmap g)).clearBit i)
  have hdesc := h₁.readGroupDesc hbs hg
  obtain ⟨fs₂, hstore, -⟩ := h₁.storeRaised hbs hg
  -- on this device every read and write succeeds, so that only two ways to end are left
  have hreads : ∀ {bitmap fs₂}, fs.ReadsBit g i bitmap fs₂ →
      bitmap = (V.blockBitmap g, fs.block (V.blockBitmap g)) ∧ fs = fs₂ := fun hreads ↦ by
    obtain ⟨-, -, hbitmap, heq⟩ := h.toCarried.of_readBlockBitmap hreads.read
    exact ⟨hbitmap, heq.symm⟩
  cases hfrees with
  | refuse hin => exact absurd ⟨hgroups ▸ hg.1, hper ▸ hmod, h.blockSize ▸ hbs⟩ hin
  | noBitmap _ hno => simp [hread] at hno
  | outside _ _ hno => exact absurd (h.blockSize ▸ hbyte) hno
  | clear hbitmap hbit =>
    obtain ⟨rfl, rfl⟩ := hreads hbitmap
    exact ⟨_, rfl, by rw [if_neg (by simpa using hbit)]⟩
  | noWrite hbitmap _ hno =>
    obtain ⟨rfl, rfl⟩ := hreads hbitmap
    exact absurd (hwrite.symm.trans hno) (by simp)
  | noDesc hbitmap _ hwrite' hno =>
    obtain ⟨rfl, rfl⟩ := hreads hbitmap
    obtain rfl := congrArg Prod.snd (hwrite.symm.trans hwrite')
    exact absurd (hdesc.symm.trans hno) (by simp)
  | noStore hbitmap _ hwrite' hdesc' hno =>
    obtain ⟨rfl, rfl⟩ := hreads hbitmap
    obtain rfl := congrArg Prod.snd (hwrite.symm.trans hwrite')
    obtain ⟨hgd, rfl⟩ := Prod.mk.inj (hdesc.symm.trans hdesc')
    obtain rfl := Option.some.inj hgd
    exact absurd (hstore.symm.trans hno) (by simp)
  | freed hbitmap hbit hwrite' hdesc' hstore' =>
    obtain ⟨rfl, rfl⟩ := hreads hbitmap
    obtain rfl := congrArg Prod.snd (hwrite.symm.trans hwrite')
    obtain ⟨hgd, rfl⟩ := Prod.mk.inj (hdesc.symm.trans hdesc')
    obtain rfl := Option.some.inj hgd
    exact ⟨_, rfl, by rw [if_pos (show _ = true from hbit)]; exact hfreed hbit _ hstore'⟩

end Volume

end MiniExt4
