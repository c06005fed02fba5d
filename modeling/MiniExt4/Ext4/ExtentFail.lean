import MiniExt4.Ext4.ExtentRun

/-!
# Calls that fail to map a block

`ext4_extents_get_block` allocates the blocks of the new extent before it looks for room in the tree,
and it gives nothing back when there is none. So a call that fails changes nothing exactly if it fails
for want of data blocks (`NoRoom`).

That a failing call with no data blocks changes nothing is the rule for an allocation that fails. For the
other direction it is enough that a bit was set: the first block of the new extent is marked afterwards and
was not before (`NewExtent.not_unchanged`), whatever happened to the tree.
-/

namespace MiniExt4

open StateErr Keyed ExtTree
open Releasing (IsData)

/-- The bits that are set in the block bitmaps, by group and place in it. -/
def Volume.usedBits (V : Volume) (fs : Fs) : Set (ℕ × ℕ) :=
  {p | p.1 < V.groups ∧ p.2 < V.groupBlocks p.1 ∧ (fs.block (V.blockBitmap p.1)).bit p.2 = true}

theorem Volume.Mounted.mem_usedBits {V : Volume} {U : Set ℕ} {fs : Fs} (h : V.Mounted U fs)
    {p : ℕ × ℕ} : p ∈ V.usedBits fs ↔
      p.1 < V.groups ∧ p.2 < V.groupBlocks p.1 ∧ p.1 * V.perGroup + p.2 ∈ U :=
  and_congr_right fun hg ↦ and_congr_right fun hi ↦ h.bit_iff p.1 hg p.2 hi

/-- Two sets of marks with the same bits agree on the blocks of the volume. -/
theorem Volume.Mounted.mem_of_usedBits {V : Volume} {U U' : Set ℕ} {fs fs' : Fs}
    (h : V.Mounted U fs) (h' : V.Mounted U' fs') (heq : V.usedBits fs' = V.usedBits fs) {b : ℕ}
    (hb : b < V.blocks) (hmem : b ∈ U') : b ∈ U := by
  have hpos := h.wf.perGroup_pos
  have hdm := Nat.div_add_mod b V.perGroup
  have hmod := Nat.mod_lt b hpos
  rw [Nat.mul_comm] at hdm
  have hg : b / V.perGroup < V.groups := by
    rw [h.wf.groups_eq, Nat.div_lt_iff_lt_mul hpos]
    have hup := Nat.lt_div_mul_add (a := V.blocks + V.perGroup - 1) hpos
    omega
  have hi : b % V.perGroup < V.groupBlocks (b / V.perGroup) := by
    unfold Volume.groupBlocks
    omega
  have hbit := (h'.mem_usedBits (p := (b / V.perGroup, b % V.perGroup))).2
    ⟨hg, hi, by rwa [hdm]⟩
  rw [heq] at hbit
  have hold := (h.mem_usedBits.1 hbit).2.2
  rwa [hdm] at hold

namespace FsInode

variable {V : Volume} {U : Set ℕ} {s s' : FsInode} {d x b : ℕ} {t : ExtTree d}

/-- What a call for block `x` that fails should leave: the map, with `x` not in it, the count of
blocks and the bitmaps as they were. -/
structure Unchanged (V : Volume) (x : ℕ) (s s' : FsInode) : Prop where
  old : ∀ y b, Resolves s y b → Resolves s' y b
  free : ∀ b, ¬ Resolves s' x b
  iBlocks : s'.inode.iBlocks = s.inode.iBlocks
  usedBits : V.usedBits s'.fs = V.usedBits s.fs

/-- The allocator is asked for the blocks of the new extent and has none. -/
@[irreducible] def NoRoom (x : ℕ) (s : FsInode) : Prop :=
  let s₁ := (ext4ExtentsReadPath x s).2
  (Fs.ext4NewBlocksInGroup s₁.fs.preallocGoalLen s₁.inode.iAllocGroupHint s₁.fs).1 = none

theorem Tree.unchanged_of_noExtent (h : Tree V U s t) (hfree : ∀ b, ¬ t.Maps x b)
    (h' : Tree V U s' t) (hinode : s'.inode = s.inode) : Unchanged V x s s' := by
  refine ⟨fun y b hy ↦ h'.resolves_iff.2 (h.resolves_iff.1 hy), fun b hb ↦
    hfree b (h'.resolves_iff.1 hb), by rw [hinode], ?_⟩
  ext p
  rw [h'.mounted.mem_usedBits, h.mounted.mem_usedBits]

/-- What a failed insertion has allocated is marked. -/
theorem NewExtent.not_unchanged {s₁ s₂ s₃ : FsInode} {ex : Extent} {fresh : List ℕ} {B : Set ℕ}
    {n : ℕ} (h : V.Mounted U s.fs) (hnew : NewExtent V U x s₁ ex s₂)
    (hchanged : Changed V (U ∪ {b | b ∈ ex.blocks}) B fresh s₂ s₃) :
    ¬ Unchanged V x s (s₃.setPool n) := fun hsame ↦ by
  have hmem : ex.eeStart ∈ ex.blocks :=
    mem_blocks_iff.2 ⟨le_rfl, Nat.lt_add_of_pos_right hnew.pos⟩
  obtain ⟨hU, hdata⟩ := hnew.isNew _ hmem
  exact hU (h.mem_of_usedBits (mounted_setPool hchanged.mounted n) hsame.usedBits hdata.2.1
    (.inl (.inr hmem)))

/-- **A call that fails changes nothing exactly if there was no room for data.** -/
theorem getBlock_unchanged_iff (h : Tree V U s t) (hfree : ∀ b, ¬ Resolves s x b)
    (hrun : ext4ExtentsGetBlock x true s = (none, s')) : Unchanged V x s s' ↔ NoRoom x s := by
  have hfree' : ∀ b, ¬ t.Maps x b := fun b hb ↦ hfree b (h.resolves_iff.2 hb)
  have halloc := allocNewExtent_spec (mounted_setPool h.mounted (s.fs.extPool - d)) x
  have hroom : NoRoom x s ↔ (Fs.ext4NewBlocksInGroup (s.withPath d).fs.preallocGoalLen
      (s.withPath d).inode.iAllocGroupHint (s.withPath d).fs).1 = none := by
    unfold NoRoom
    rw [h.readPath x]
  rw [hroom]
  rcases hr : ext4ExtentsAllocNewExtent x V.blocks (s.withPath d) with ⟨_ | ex, s₂⟩
  · rw [wp_of_eq hr] at halloc
    obtain ⟨-, hno⟩ := halloc.resolve_right fun ⟨ex, heq, _⟩ ↦ by simp at heq
    obtain ⟨s₃, hget, htree, hinode⟩ := h.create_of_noExtent hfree' hr hno
    obtain rfl : s₃ = s' := by
      rw [hget] at hrun
      exact congrArg Prod.snd hrun
    exact iff_of_true (h.unchanged_of_noExtent hfree' htree hinode) hno.run
  · rw [wp_of_eq hr] at halloc
    obtain ⟨_, heq, hnew⟩ := halloc.resolve_left fun ⟨heq, _⟩ ↦ by simp at heq
    obtain rfl := Option.some.inj heq
    rcases hins : insertAndGrow V.blocks ex (t.path s.fs.block x s.rootNode) s₂ with ⟨r, s₃⟩
    have hplace : ∀ node ∈ t.path s.fs.block x s.rootNode,
        InPlace V (U ∪ {b | b ∈ ex.blocks}) node := fun node hnode ↦ by
      rcases mem_path hnode with heq | hmem
      · exact .inl heq
      · have hused := h.used _ (nodes_subset _ hmem)
        exact .inr ⟨hused.2, .inl hused.1⟩
    have hgrows := insertAndGrow_grows hnew.mounted hplace ex
    rw [wp_of_eq hins] at hgrows
    obtain ⟨fresh, hchanged, -⟩ := hgrows
    have hend : s' = s₃.setPool (s₃.fs.extPool + d) := by
      rw [h.create_of_newExtent hfree' hr hins] at hrun
      exact (congrArg Prod.snd hrun).symm
    have hsome := hnew.run
    refine iff_of_false ?_ (by rw [hsome]; simp)
    rw [hend]
    exact hnew.not_unchanged h.mounted hchanged

/-- The extents of a root that is full. -/
def fullTree : ExtTree 0 := [⟨0, 1, 9⟩, ⟨2, 1, 10⟩, ⟨4, 1, 11⟩, ⟨6, 1, 12⟩]

/-- The root with the extents of `fullTree`. -/
def fullRoot : Buf :=
  let eh := Node.setEntries (Node.ext4ExtentsInitNode Buf.zero iBlockSize 0) 4
  let eh := Node.setExtent eh 0 ⟨0, 1, 9⟩
  let eh := Node.setExtent eh 1 ⟨2, 1, 10⟩
  let eh := Node.setExtent eh 2 ⟨4, 1, 11⟩
  Node.setExtent eh 3 ⟨6, 1, 12⟩

/-- The small volume with all blocks but the last one in use. -/
def fullFs : Fs := { (Mkfs.smallFs.ext4NewBlocksInGroup 54 0).2 with preallocGoalLen := 1 }

theorem fullFs_mounted : ext4ExtMaxDepth < fullFs.extPool ∧
    (Mkfs.volume 4096 64 Mkfs.smallSb.toSbGeom).Mounted
      (Mkfs.initialUsed 4096 64 ∪ Set.Ico 9 (9 + 54)) fullFs := by
  have hrun : Mkfs.smallFs.ext4NewBlocksInGroup 54 0 = (some (9, 54), _) :=
    eq_of_fst_eq (by decide +kernel)
  exact mounted_of_newBlocks Mkfs.mounted_small.2 (by decide) hrun

/-- A file with a full root on the volume with one free block. -/
def fullFile : FsInode where
  fs := fullFs
  inode := { (smallFile 1).inode with iBlock := fullRoot }

theorem fullFile_tree : Tree (Mkfs.volume 4096 64 Mkfs.smallSb.toSbGeom)
    (Mkfs.initialUsed 4096 64 ∪ Set.Ico 9 (9 + 54)) fullFile fullTree := by
  have hgeom := Mkfs.mounted_small.1
  have hmem : ∀ b ∈ fullTree.blocks, 9 ≤ b ∧ b < 13 := by decide
  have hheader : Node.magic fullRoot = ext4ExtMagic ∧ Node.depth fullRoot = 0 ∧
    Node.max fullRoot = rootCap ∧ Node.entries fullRoot = 4 := by decide
  have hlist : Node.extents fullRoot = fullTree := by decide
  rw [Node.extents, hheader.2.2.2] at hlist
  exact {
    mounted := fullFs_mounted.2
    bs_ge := by
      show 1024 ≤ Mkfs.smallSb.sBlockSize
      rw [hgeom.sBlockSize]
      norm_num
    kind := .inl (show sIsreg 0o100644 by decide)
    pool := fullFs_mounted.1
    depth_le := Nat.zero_le _
    bs_le := fun h0 ↦ absurd h0 (lt_irrefl _)
    holds := ⟨⟨⟨hheader.1, hheader.2.1, hheader.2.2.1, hheader.2.2.2⟩, hlist⟩, by decide⟩
    ordered := ⟨0, by decide, by decide, by decide⟩
    nodup := by decide
    used := fun b hb ↦ by
      obtain ⟨hlo, hhi⟩ := hmem b hb
      have hblocks : (Mkfs.volume 4096 64 Mkfs.smallSb.toSbGeom).blocks = 64 := hgeom.sBlocksCount
      exact ⟨.inr ⟨hlo, by omega⟩, by omega, by rw [hblocks]; omega,
        Mkfs.not_isMeta_small hlo (by omega)⟩ }

theorem fullFile_free (b : ℕ) : ¬ Resolves fullFile 3 b := by
  rintro ⟨hne, heq⟩
  have hrun : (ext4ExtentsGetBlock 3 false fullFile).1 = some (0, false) := by decide +kernel
  rw [hrun] at heq
  exact hne (by simpa using heq.symm)

theorem fullFile_fails : ext4ExtentsGetBlock 3 true fullFile =
    (none, (ext4ExtentsGetBlock 3 true fullFile).2) :=
  eq_of_fst_eq (by decide +kernel)

theorem getBlock_unchanged_iff_small :
    Unchanged (Mkfs.volume 4096 64 Mkfs.smallSb.toSbGeom) 3 fullFile
      (ext4ExtentsGetBlock 3 true fullFile).2 ↔ NoRoom 3 fullFile :=
  getBlock_unchanged_iff fullFile_tree fullFile_free fullFile_fails

/-- The last free block goes to the new extent, and the root is cut before there is no block for its
right half: block 4 is lost. -/
theorem getBlock_fails_changed : ¬ ∀ (V : Volume) (U : Set ℕ) (s s' : FsInode) (d : ℕ)
    (t : ExtTree d) (x : ℕ), Tree V U s t → (∀ b, ¬ Resolves s x b) →
      ext4ExtentsGetBlock x true s = (none, s') → Unchanged V x s s' := by
  intro hall
  have hsame := hall _ _ _ _ _ _ _ fullFile_tree fullFile_free fullFile_fails
  have hold : Resolves fullFile 4 11 := ⟨by norm_num, by decide +kernel⟩
  exact absurd (hsame.old 4 11 hold).2 (by decide +kernel)

end FsInode

end MiniExt4
