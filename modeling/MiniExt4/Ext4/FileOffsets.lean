import MiniExt4.Ext4.File
import MiniExt4.Ext4.ExtentRun
import MiniExt4.Ext4.MountGeometry

/-!
# Where the bytes of a file are stored

An iteration of the loops of `ext4_file_read` and `ext4_file_write` starts at a position and moves the
bytes of one block, or of a run of blocks. `bytePlace` is the pair of logical block and offset in the
block that it computes for a byte. The pair determines the position modulo `2 ^ 32` and no more.

`readStep_spec` and `writeStep_spec` are what connects the pair with the code: whatever a call does before
and after, the block that an iteration looks up, and the offset it copies at, are those of `bytePlace`. The
rest is arithmetic, and one file in which two positions share a byte.
-/

namespace MiniExt4

open StateErr

/-- `sb->s_maxbytes` -/
def sMaxbytes : ℕ := 2 ^ 60 - 1

/-- An iteration that starts at position `s` can move the byte of position `p`: it is in the block of
`s`, or in one of the 64 blocks of a run that starts there. -/
def Covers (bs s p : ℕ) : Prop :=
  s ≤ p ∧ (offInBlock bs s + (p - s) < bs ∨ offInBlock bs s = 0 ∧ p - s < 64 * bs)

/-- The logical block and the offset in it that such an iteration computes for the byte. The blocks of
a run are counted up from that of `s`. -/
def bytePlace (bs s p : ℕ) : ℕ × ℕ :=
  (u32 (blockIdx bs s + (offInBlock bs s + (p - s)) / bs), (offInBlock bs s + (p - s)) % bs)

/-! ### Pairs and positions -/

section

variable {bs s p : ℕ}

theorem covers_self (hbs : 0 < bs) (p : ℕ) : Covers bs p p :=
  ⟨le_rfl, .inl (by rw [Nat.sub_self, Nat.add_zero]; exact Nat.mod_lt _ hbs)⟩

/-- The pair is the address of the byte, counted on from the low half of the position `s`. -/
theorem bytePlace_linear (hbs : 1024 ≤ bs) (h : Covers bs s p) :
    (bytePlace bs s p).1 * bs + (bytePlace bs s p).2 = u32 s + (p - s) := by
  have hdm := Nat.div_add_mod' (u32 s) bs
  have hidx : blockIdx bs s < 2 ^ 22 := by
    refine lt_of_le_of_lt (Nat.div_le_div_left hbs (by norm_num)) ?_
    have := u32_lt s
    omega
  have hrun : (offInBlock bs s + (p - s)) / bs < 64 := by
    rcases h.2 with hin | ⟨hzero, hin⟩
    · rw [Nat.div_eq_of_lt hin]
      norm_num
    · rw [hzero, Nat.zero_add]
      exact Nat.div_lt_of_lt_mul (by rwa [Nat.mul_comm])
  have hu : u32 (blockIdx bs s + (offInBlock bs s + (p - s)) / bs) =
      blockIdx bs s + (offInBlock bs s + (p - s)) / bs := u32_of_lt (by omega)
  have hdm' := Nat.div_add_mod' (offInBlock bs s + (p - s)) bs
  rw [bytePlace, hu, Nat.add_mul]
  unfold blockIdx offInBlock at *
  omega

theorem bytePlace_linear_mod (hbs : 1024 ≤ bs) (h : Covers bs s p) :
    ((bytePlace bs s p).1 * bs + (bytePlace bs s p).2) % 2 ^ 32 = p % 2 ^ 32 := by
  have hle := h.1
  rw [bytePlace_linear hbs h]
  unfold u32
  omega

/-- An iteration that starts at the byte itself sees only the low half of the position. -/
theorem bytePlace_self_congr {p q : ℕ} (h : p % 2 ^ 32 = q % 2 ^ 32) :
    bytePlace bs p p = bytePlace bs q q := by
  have hu : u32 p = u32 q := h
  simp only [bytePlace, blockIdx, offInBlock, Nat.sub_self, hu]

end

/-! ### What an iteration moves -/

namespace FsFile

variable {buf : Buf} {count written n : ℕ} {s s' : FsFile}

/-- What is run on the inode leaves the position. -/
theorem of_onInode {α : Type} {x : StateErr FsInode α} {a : α} (h : onInode x s = (some a, s')) :
    x s.toFsInode = (some a, s'.toFsInode) ∧ s'.fPos = s.fPos := by
  unfold onInode at h
  rw [zoom_apply] at h
  obtain ⟨hfst, rfl⟩ := Prod.mk.inj h
  exact ⟨Prod.ext hfst rfl, rfl⟩

/-- The blocks of a run are those the map has for the logical blocks from `nextLblock` on, as long as
they follow one another. -/
theorem probeRun_spec : ∀ n runBlocks newRunBlocks nextLblock prevPblock {r : ℕ × ℕ} {i i' : FsInode},
    nextLblock < 2 ^ 32 →
    probeRun n runBlocks newRunBlocks nextLblock prevPblock i = (some r, i') →
      runBlocks ≤ r.1 ∧ r.1 ≤ runBlocks + n ∧ ∀ j < r.1 - runBlocks, ∃ i₁ i₂ isNew,
        FsInode.ext4GetDataBlock (u32 (nextLblock + j)) true i₁ =
          (some (u32 (prevPblock + 1 + j), isNew), i₂) := by
  intro n
  induction n with
  | zero =>
    intro runBlocks newRunBlocks nextLblock prevPblock r i i' _ h
    obtain rfl := Option.some.inj (Prod.mk.inj h).1
    exact ⟨le_rfl, le_rfl, fun j hj ↦ by omega⟩
  | succ n ih =>
    intro runBlocks newRunBlocks nextLblock prevPblock r i i' hnext h
    -- the loop ends here in three ways, each with the run as it is
    have hstop : ∀ {i₁ i₂ : FsInode}, (pure (runBlocks, newRunBlocks) : StateErr FsInode (ℕ × ℕ)) i₁ =
        (some r, i₂) → runBlocks ≤ r.1 ∧ r.1 ≤ runBlocks + (n + 1) ∧ ∀ j < r.1 - runBlocks,
          ∃ i₁ i₂ isNew, FsInode.ext4GetDataBlock (u32 (nextLblock + j)) true i₁ =
            (some (u32 (prevPblock + 1 + j), isNew), i₂) := by
      intro i₁ i₂ hpure
      obtain rfl := Option.some.inj (Prod.mk.inj hpure).1
      exact ⟨le_rfl, Nat.le_add_right _ _, fun j hj ↦ by omega⟩
    unfold probeRun at h
    rw [attempt_bind] at h
    rcases hget : FsInode.ext4GetDataBlock nextLblock true i with ⟨_ | ⟨pblk2, isNew2⟩, i₁⟩
    · rw [hget] at h
      exact hstop h
    · rw [hget] at h
      by_cases hbreak : pblk2 = 0 ∨ pblk2 ≠ u32 (prevPblock + 1)
      · simp only [if_pos hbreak] at h
        exact hstop h
      · simp only [if_neg hbreak] at h
        obtain ⟨hlo, hhi, hasked⟩ := ih _ _ _ _ (u32_lt _) h
        refine ⟨by omega, by omega, fun j hj ↦ ?_⟩
        have hpblk : pblk2 = u32 (prevPblock + 1) := by
          by_contra hne
          exact hbreak (.inr hne)
        -- the first block that was asked for here, or a later one
        rcases j with _ | j
        · refine ⟨i, i₁, isNew2, ?_⟩
          rw [Nat.add_zero, Nat.add_zero, u32_of_lt hnext, hget, hpblk]
        · obtain ⟨i₂, i₃, isNew, hrun⟩ := hasked j (by omega)
          refine ⟨i₂, i₃, isNew, ?_⟩
          have hl : u32 (nextLblock + (j + 1)) = u32 (u32 (nextLblock + 1) + j) := by
            unfold u32
            omega
          have hp : u32 (prevPblock + 1 + (j + 1)) = u32 (pblk2 + 1 + j) := by
            rw [hpblk]
            unfold u32
            omega
          rw [hl, hp, hrun]

/-- The byte is in block `k` of a run. -/
theorem bytePlace_of_aligned {bs p q : ℕ} (hoff : offInBlock bs q = 0) :
    bytePlace bs q p = (u32 (blockIdx bs q + (p - q) / bs), (p - q) % bs) := by
  rw [bytePlace, hoff, Nat.zero_add]

/-- The byte is in the block where the iteration starts. -/
theorem bytePlace_of_lt {bs p q : ℕ} (hin : offInBlock bs q + (p - q) < bs) :
    bytePlace bs q p = (blockIdx bs q, offInBlock bs q + (p - q)) := by
  have hidx : blockIdx bs q < 2 ^ 32 := lt_of_le_of_lt (Nat.div_le_self _ _) (u32_lt q)
  rw [bytePlace, Nat.div_eq_of_lt hin, Nat.mod_eq_of_lt hin, Nat.add_zero, u32_of_lt hidx]

/-- Every byte that an iteration of the write loop moves goes to the block that the map has for the
byte's logical block. In a run these blocks follow one another. -/
theorem writeStep_spec (hbs : 1024 ≤ s.fs.blockSize)
    (h : writeStep buf count written s = (some (some n), s')) {p : ℕ} (hlo : s.fPos ≤ p)
    (hhi : p < s.fPos + n) :
    Covers s.fs.blockSize s.fPos p ∧ ∃ first, first ≠ 0 ∧ ∃ i i' isNew,
      FsInode.ext4GetDataBlock (bytePlace s.fs.blockSize s.fPos p).1 true i =
        (some (if p - s.fPos < s.fs.blockSize then first
          else u32 (first + (p - s.fPos) / s.fs.blockSize), isNew), i') := by
  unfold writeStep at h
  rw [get_bind] at h
  obtain ⟨r, s₁, hget, h⟩ := bind_eq_some_iff.1 h
  obtain ⟨hmap, -⟩ := of_onInode hget
  by_cases hzero : r.1 = 0
  · rw [if_pos hzero, pure_apply] at h
    simp at h
  rw [if_neg hzero] at h
  by_cases hwhole : offInBlock s.fs.blockSize s.fPos = 0 ∧
    toCopy s.fs.blockSize s.fPos count = s.fs.blockSize
  · -- a run of whole blocks
    rw [if_pos hwhole] at h
    obtain ⟨run, s₂, hprobe, h⟩ := bind_eq_some_iff.1 h
    obtain ⟨_, s₃, -, h⟩ := bind_eq_some_iff.1 h
    obtain ⟨_, s₄, -, h⟩ := bind_eq_some_iff.1 h
    obtain ⟨_, s₅, -, h⟩ := bind_eq_some_iff.1 h
    obtain rfl : run.1 * s.fs.blockSize = n := Option.some.inj (Option.some.inj (Prod.mk.inj h).1)
    obtain ⟨hrun₁, hrun₂, hasked⟩ := probeRun_spec _ _ _ _ _ (u32_lt _) (of_onInode hprobe).1
    have hmax : maxRun s.fs.blockSize count ≤ 64 := by
      unfold maxRun
      split <;> omega
    have hbytes : p - s.fPos < run.1 * s.fs.blockSize := by omega
    have hblocks : (p - s.fPos) / s.fs.blockSize < run.1 :=
      Nat.div_lt_of_lt_mul (by rwa [Nat.mul_comm])
    have hmul : run.1 * s.fs.blockSize ≤ 64 * s.fs.blockSize := Nat.mul_le_mul_right _ (by omega)
    refine ⟨⟨hlo, .inr ⟨hwhole.1, by omega⟩⟩, r.1, hzero, ?_⟩
    rw [bytePlace_of_aligned hwhole.1]
    -- the first block was asked for by the call itself, the others by the probe
    by_cases hfirst : p - s.fPos < s.fs.blockSize
    · have hidx : blockIdx s.fs.blockSize s.fPos < 2 ^ 32 :=
        lt_of_le_of_lt (Nat.div_le_self _ _) (u32_lt _)
      refine ⟨s.toFsInode, s₁.toFsInode, r.2, ?_⟩
      rw [if_pos hfirst, Nat.div_eq_of_lt hfirst, Nat.add_zero, u32_of_lt hidx, hmap]
    · have hpos : 0 < (p - s.fPos) / s.fs.blockSize := Nat.div_pos (by omega) (by omega)
      obtain ⟨i₁, i₂, isNew, hasked⟩ := hasked ((p - s.fPos) / s.fs.blockSize - 1) (by omega)
      refine ⟨i₁, i₂, isNew, ?_⟩
      generalize (p - s.fPos) / s.fs.blockSize = k at *
      have hl : u32 (blockIdx s.fs.blockSize s.fPos + k) =
          u32 (u32 (blockIdx s.fs.blockSize s.fPos + 1) + (k - 1)) := by
        unfold u32
        omega
      rw [if_neg hfirst, hl, hasked, show r.1 + 1 + (k - 1) = r.1 + k by omega]
  · -- part of one block
    rw [if_neg hwhole] at h
    obtain ⟨_, s₂, -, h⟩ := bind_eq_some_iff.1 h
    obtain ⟨_, s₃, -, h⟩ := bind_eq_some_iff.1 h
    obtain ⟨_, s₄, -, h⟩ := bind_eq_some_iff.1 h
    obtain ⟨_, s₅, -, h⟩ := bind_eq_some_iff.1 h
    obtain rfl : toCopy s.fs.blockSize s.fPos count = n :=
      Option.some.inj (Option.some.inj (Prod.mk.inj h).1)
    have hle : toCopy s.fs.blockSize s.fPos count ≤
        s.fs.blockSize - offInBlock s.fs.blockSize s.fPos := by
      unfold toCopy
      split <;> omega
    have hin : offInBlock s.fs.blockSize s.fPos + (p - s.fPos) < s.fs.blockSize := by omega
    refine ⟨⟨hlo, .inl hin⟩, r.1, hzero, s.toFsInode, s₁.toFsInode, r.2, ?_⟩
    rw [bytePlace_of_lt hin, if_pos (by omega), hmap]

/-- A run is not longer than asked for. -/
theorem mapBlocks_le {stale : Option Extent} {lblock maxBlocks : ℕ} {r : ℕ × ℕ} {i i' : FsInode}
    (h : FsInode.ext4ExtentsMapBlocks stale lblock maxBlocks i = (some r, i')) : r.2 ≤ maxBlocks := by
  unfold FsInode.ext4ExtentsMapBlocks at h
  rw [guard_bind_eq_some_iff, get_bind] at h
  obtain ⟨-, h⟩ := h
  by_cases hmagic : Node.magic i.inode.iBlock ≠ ext4ExtMagic
  · rw [if_pos hmagic, pure_apply] at h
    obtain rfl := Option.some.inj (Prod.mk.inj h).1
    exact Nat.zero_le _
  · rw [if_neg hmagic] at h
    obtain ⟨path, s₁, -, h⟩ := bind_eq_some_iff.1 h
    obtain ⟨_, s₂, -, h⟩ := bind_eq_some_iff.1 h
    rcases hfind : ((path.head?).bind fun leaf ↦ ext4ExtentsFind leaf.eh lblock).or stale with _ | ex
    · rw [hfind] at h
      obtain rfl := Option.some.inj (Prod.mk.inj h).1
      exact Nat.zero_le _
    · rw [hfind] at h
      simp only [guard_bind_eq_some_iff] at h
      obtain rfl := Option.some.inj (Prod.mk.inj h.2.2).1
      simp only
      split <;> omega

/-- Every byte that an iteration of the read loop moves comes from the block that the map has for the
byte's logical block, or from a run that the extents have from the first logical block on. -/
theorem readStep_spec {stale : Option Extent} {out : Buf}
    (h : readStep stale count s = (some (some (out, n)), s')) {p : ℕ} (hlo : s.fPos ≤ p)
    (hhi : p < s.fPos + n) :
    Covers s.fs.blockSize s.fPos p ∧ ∃ first i', first ≠ 0 ∧
      ((∃ isNew, FsInode.ext4GetDataBlock (bytePlace s.fs.blockSize s.fPos p).1 false s.toFsInode =
          (some (first, isNew), i')) ∨
        ∃ len, FsInode.ext4ExtentsMapBlocks stale (blockIdx s.fs.blockSize s.fPos)
            (maxRun s.fs.blockSize count) s.toFsInode = (some (first, len), i') ∧
          bytePlace s.fs.blockSize s.fPos p = (u32 (blockIdx s.fs.blockSize s.fPos +
            (p - s.fPos) / s.fs.blockSize), (p - s.fPos) % s.fs.blockSize) ∧
          p - s.fPos < len * s.fs.blockSize) := by
  unfold readStep at h
  rw [get_bind] at h
  by_cases hwhole : offInBlock s.fs.blockSize s.fPos = 0 ∧ toCopy s.fs.blockSize s.fPos count =
    s.fs.blockSize ∧ sIsreg s.inode.iMode ∧ s.inode.hasExtents
  · -- whole blocks of a regular file with an extent tree
    rw [if_pos hwhole] at h
    obtain ⟨run, s₁, hmap, h⟩ := bind_eq_some_iff.1 h
    by_cases hend : run.1 = 0 ∨ run.2 = 0
    · rw [if_pos hend, pure_apply] at h
      simp at h
    rw [if_neg hend] at h
    obtain ⟨_, s₂, -, h⟩ := bind_eq_some_iff.1 h
    obtain ⟨_, s₃, -, h⟩ := bind_eq_some_iff.1 h
    obtain rfl : run.2 * s.fs.blockSize = n :=
      congrArg Prod.snd (Option.some.inj (Option.some.inj (Prod.mk.inj h).1))
    obtain ⟨hmap', -⟩ := of_onInode hmap
    have hmax : maxRun s.fs.blockSize count ≤ 64 := by
      unfold maxRun
      split <;> omega
    have hmul : run.2 * s.fs.blockSize ≤ 64 * s.fs.blockSize :=
      Nat.mul_le_mul_right _ ((mapBlocks_le hmap').trans hmax)
    exact ⟨⟨hlo, .inr ⟨hwhole.1, by omega⟩⟩, run.1, s₁.toFsInode, fun h0 ↦ hend (.inl h0),
      .inr ⟨run.2, hmap', bytePlace_of_aligned hwhole.1, by omega⟩⟩
  · -- at most one block
    rw [if_neg hwhole] at h
    obtain ⟨r, s₁, hget, h⟩ := bind_eq_some_iff.1 h
    by_cases hend : r.1 = 0
    · rw [if_pos hend, pure_apply] at h
      simp at h
    rw [if_neg hend] at h
    obtain ⟨_, s₂, -, h⟩ := bind_eq_some_iff.1 h
    obtain ⟨_, s₃, -, h⟩ := bind_eq_some_iff.1 h
    obtain rfl : toCopy s.fs.blockSize s.fPos count = n :=
      congrArg Prod.snd (Option.some.inj (Option.some.inj (Prod.mk.inj h).1))
    have hle : toCopy s.fs.blockSize s.fPos count ≤
        s.fs.blockSize - offInBlock s.fs.blockSize s.fPos := by
      unfold toCopy
      split <;> omega
    have hin : offInBlock s.fs.blockSize s.fPos + (p - s.fPos) < s.fs.blockSize := by omega
    refine ⟨⟨hlo, .inl hin⟩, r.1, s₁.toFsInode, hend, .inl ⟨r.2, ?_⟩⟩
    rw [bytePlace_of_lt hin]
    exact (of_onInode hget).1

/-! ### Two positions of one file -/

/-- **Two positions have different places exactly when they differ modulo `2 ^ 32`**, whatever the
positions are from which the loops come to them. -/
theorem bytePlace_ne_iff {now p q : ℕ} {d dev : BlockDevice} {sbi : SbInfo}
    (hmount : ext4FillSuper now d = (some sbi, dev)) (_hlt : p < q) (_hq : q < sMaxbytes) :
    (∀ s t, Covers sbi.sBlockSize s p → Covers sbi.sBlockSize t q →
      bytePlace sbi.sBlockSize s p ≠ bytePlace sbi.sBlockSize t q) ↔ p % 2 ^ 32 ≠ q % 2 ^ 32 := by
  have hbs := (accepted_of_fillSuper hmount).bs_ge
  constructor
  · intro hall heq
    exact hall p q (covers_self (by omega) p) (covers_self (by omega) q) (bytePlace_self_congr heq)
  · intro hne s t hs ht heq
    have hp := bytePlace_linear_mod hbs hs
    rw [heq, bytePlace_linear_mod hbs ht] at hp
    exact hne hp.symm

theorem bytePlace_ne_iff_4096 : bytePlace 4096 0 4095 ≠ bytePlace 4096 (2 ^ 32) (2 ^ 32) := by
  have hbs : Mkfs.smallSb.sBlockSize = 4096 := Mkfs.mounted_small.1.sBlockSize
  have hne := (bytePlace_ne_iff Mkfs.fillSuper_small_eq (show 4095 < 2 ^ 32 by norm_num)
    (by decide)).2 (by norm_num) 0 (2 ^ 32)
  rw [hbs] at hne
  exact hne ⟨by norm_num, .inl (by decide)⟩ ⟨le_rfl, .inl (by decide)⟩

/-- The file with one byte written at position 0 and then one at position `2 ^ 32`. -/
def wrapped : FsFile :=
  (ext4FileWrite (fun _ ↦ 66) 1
    { (ext4FileWrite (fun _ ↦ 65) 1 ⟨FsInode.smallFile 1, 0⟩).2 with fPos := 2 ^ 32 }).2

/-- Both writes succeed, and the second has overwritten the byte of the first. -/
theorem bytePlace_wrapped : 0 < 2 ^ 32 ∧ 2 ^ 32 < sMaxbytes ∧
    bytePlace 4096 0 0 = bytePlace 4096 (2 ^ 32) (2 ^ 32) ∧
    (ext4FileWrite (fun _ ↦ 65) 1 ⟨FsInode.smallFile 1, 0⟩).1 = some 1 ∧
    wrapped.fPos = 2 ^ 32 + 1 ∧
    (ext4FileRead (fun _ ↦ none) 1 { wrapped with fPos := 0 }).1.map (fun r ↦ (r.1 0, r.2)) = some (66, 1) := by
  refine ⟨by norm_num, by decide, by decide, by decide +kernel, by decide +kernel, by decide +kernel⟩

end FsFile

end MiniExt4
