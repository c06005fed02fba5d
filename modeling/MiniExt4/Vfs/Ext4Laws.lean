import MiniExt4.Vfs.Ext4Ops
import MiniExt4.Vfs.WalkRefs

/-!
# Path walking over ext4

A lookup in an ext4 directory reads the disk and leaves the filesystem as it was, or takes a slot of the
inode pool and one `ext4_inode_info`, which destroying the inode gives back. So ext4 obeys the laws that the
path walker relies on (`ext4Laws`).

As it was means up to what a lookup may use up (`Ext4State.Same`): the answers of the device, the buffers of
`extents.c` in a directory with extents, and what is at address 0, where no in-core inode is free. A finer
relation, `Ext4State.SameButFaults`, leaves out the answers of the device only. A lookup in a directory
without extents that finds an inode free keeps to it.
-/

namespace MiniExt4

open StateErr

/-! ### Reading -/

namespace Fs

/-- What finding the record of an inode leaves alone. -/
theorem keeps_ext4GetInodeDiskLoc {ρ : Type} {f : Fs → ρ} (h : ∀ b, Keeps f (readBlock b)) (ino : ℕ) :
    Keeps f (ext4GetInodeDiskLoc ino) :=
  .get_bind fun _ ↦ (Keeps.guard _).bind fun _ ↦ (Keeps.guard _).bind fun _ ↦ (Keeps.guard _).bind fun _ ↦
    (Keeps.guard _).bind fun _ ↦ Keeps.bind (.get_bind fun _ ↦ .guard _) fun _ ↦
      (h _).bind fun _ ↦ (Keeps.guard _).bind fun _ ↦ .pure _

/-- Reading an inode changes what reading blocks changes. -/
theorem keeps_readRawInode {ρ : Type} {f : Fs → ρ} (h : ∀ b, Keeps f (readBlock b)) (ino : ℕ) :
    Keeps f (readRawInode ino) :=
  (keeps_ext4GetInodeDiskLoc h ino).bind fun _ ↦ Keeps.bind (.get_bind fun _ ↦ .guard _) fun _ ↦
    (h _).bind fun _ ↦ .pure _

variable {fs fs' : Fs}

/-- The slots are as they were. -/
theorem superPool_eq_of_still (h : fs'.still = fs.still) : fs'.superPool = fs.superPool :=
  (congrArg superPool h : fs'.still.superPool = fs.still.superPool)

theorem sbi_eq_of_still (h : fs'.still = fs.still) : fs'.sbi = fs.sbi :=
  (congrArg sbi h : fs'.still.sbi = fs.still.sbi)

/-- The device and the variables that reading an inode looks at are the same. -/
structure SameDisk (fs fs' : Fs) : Prop where
  dev : fs.dev.withFaults [] = fs'.dev.withFaults []
  blockSize : fs.blockSize = fs'.blockSize
  sbi : fs.sbi = fs'.sbi

/-- Two steps that leave the disk, one after the other. -/
theorem SameDisk.trans {fs'' : Fs} (h : SameDisk fs fs') (h' : SameDisk fs' fs'') : SameDisk fs fs'' :=
  ⟨h.dev.trans h'.dev, h.blockSize.trans h'.blockSize, h.sbi.trans h'.sbi⟩

/-- What only reads leaves the disk. -/
theorem sameDisk_of_still (h : fs'.still = fs.still) : SameDisk fs' fs :=
  ⟨congrArg dev h, (congrArg blockSize h : fs'.still.blockSize = fs.still.blockSize), sbi_eq_of_still h⟩

/-- The devices differ in the faults to come only. -/
theorem SameDisk.dev_eq (h : SameDisk fs fs') : fs.dev = fs'.dev.withFaults fs.dev.faults :=
  (congrArg (BlockDevice.withFaults · fs.dev.faults) h.dev : _)

/-- The blocks are the same. -/
theorem SameDisk.block_eq (h : SameDisk fs fs') (b : ℕ) : fs.block b = fs'.block b := by
  rw [block, block, h.dev_eq, h.blockSize, BlockDevice.block_withFaults]

theorem SameDisk.sectored (h : SameDisk fs fs') (h' : fs'.Sectored) : fs.Sectored := by
  rw [Sectored, h.dev_eq, h.blockSize]
  exact BlockDevice.Sectored.withFaults h' _

/-- The slot of inode `ino`, as the descriptor of its group has it on the device. -/
def rawSlot (fs : Fs) (ino : ℕ) : ℕ × ℕ :=
  let loc := fs.sbi.descLoc fs.sbi.sBlockSize ((ino - 1) / fs.sbi.sInodesPerGroup)
  let gd := Buf.zero.blit 0 (fs.block loc.1) loc.2 fs.sbi.copySz
  inodeLoc fs.sbi.sBlockSize (gd.getField 0 Gd.bgInodeTableLo) ((ino - 1) % fs.sbi.sInodesPerGroup)

/-- An inode is at the same place. -/
theorem SameDisk.rawSlot_eq (h : SameDisk fs fs') (ino : ℕ) : fs.rawSlot ino = fs'.rawSlot ino := by
  rw [rawSlot, rawSlot, h.sbi, h.block_eq]

/-- An inode that was read is the one in the slot on the device. -/
theorem readRawInode_of_some (h : fs.Sectored) {ino : ℕ} {buf : Buf} {o : ℕ}
    (hrun : (readRawInode ino fs).1 = some (buf, o)) :
    ino ≠ 0 ∧ fs.sbi.sInodesPerGroup ≠ 0 ∧ (ino - 1) / fs.sbi.sInodesPerGroup < fs.sbi.sGroupsCount ∧
      buf = fs.block (fs.rawSlot ino).1 ∧ o = (fs.rawSlot ino).2 := by
  obtain ⟨fs', hrun⟩ : ∃ fs', readRawInode ino fs = (some (buf, o), fs') := ⟨_, Prod.ext hrun rfl⟩
  unfold readRawInode ext4GetInodeDiskLoc at hrun
  obtain ⟨loc, fs₁, hloc, hrun⟩ := bind_eq_some_iff.1 hrun
  rw [get_bind, guard_bind_eq_some_iff, guard_bind_eq_some_iff, guard_bind_eq_some_iff,
    guard_bind_eq_some_iff, bind_eq_some_iff] at hloc
  obtain ⟨⟨-, hino⟩, hipg, hgroup, -, _, fs₂, hmalloc, hloc⟩ := hloc
  obtain ⟨-, rfl⟩ := Volume.of_superMalloc_some hmalloc
  obtain ⟨gd, fs₃, hread, hloc⟩ := bind_eq_some_iff.1 hloc
  obtain ⟨-, rfl, l, rfl⟩ := h.of_readBlock_some hread
  obtain ⟨-, hpure⟩ := guard_bind_eq_some_iff.1 hloc
  obtain ⟨hslot, rfl⟩ := Prod.mk.inj hpure
  obtain rfl := Option.some_inj.1 hslot
  obtain ⟨_, fs₄, hmalloc, hrun⟩ := bind_eq_some_iff.1 hrun
  obtain ⟨-, rfl⟩ := Volume.of_superMalloc_some hmalloc
  obtain ⟨buf', fs₅, hread, hrun⟩ := bind_eq_some_iff.1 hrun
  have hsect : (fs₂.withFaults l).Sectored := h.withFaults l
  obtain ⟨-, rfl, l', rfl⟩ := hsect.of_readBlock_some hread
  obtain ⟨hpair, -⟩ := Prod.mk.inj hrun
  obtain ⟨rfl, rfl⟩ := Prod.mk.inj (Option.some_inj.1 hpair)
  exact ⟨hino, hipg, hgroup, rfl, rfl⟩

end Fs

namespace FsInode

/-- What neither looking for a block of a directory nor reading one changes. -/
structure KeptByReads {ρ : Type} (f : FsInode → ρ) : Prop where
  getBlocknr : ∀ lblock, Keeps f (ext4DirGetBlocknr lblock)
  readBlock : ∀ b, Keeps f (onFs (Fs.readBlock b))
  mallocBlock : Keeps f (onFs Fs.mallocBlock)

namespace KeptByReads

variable {ρ : Type} {f : FsInode → ρ}

/-- A scan keeps what its visits keep. -/
theorem scanBlocks {α : Type} {visit : ℕ → Buf → StateErr FsInode (Option α)} (hf : KeptByReads f)
    (h : ∀ b buf, Keeps f (visit b buf)) (n i : ℕ) : Keeps f (scanBlocks visit n i) := by
  induction n generalizing i with
  | zero => exact .pure _
  | succ n ih =>
    refine (hf.getBlocknr i).attempt.bind fun r ↦ ?_
    cases r with
    | none => exact .pure _
    | some b =>
      refine (hf.readBlock b).bind fun buf ↦ (h b buf).bind fun r ↦ ?_
      cases r with
      | none => exact ih (i + 1)
      | some a => exact .pure _

/-- So does the search of a linear directory. -/
theorem findLinear (hf : KeptByReads f) (name : List Byte) : Keeps f (findLinear name) := by
  rw [FsInode.findLinear]
  generalize 2 ^ 32 = n
  refine hf.mallocBlock.bind fun _ ↦ .get_bind fun s ↦ ?_
  refine (hf.scanBlocks (fun b buf ↦ ?_) n 0).bind fun _ ↦ .ofOption _
  exact (Keeps.ofOption _).bind fun _ ↦ .pure _

/-- So does the search of the index. -/
theorem ext4HtreePickLeafFromRoot (hf : KeptByReads f) (rootBuf : Buf) (h32 : ℕ) :
    Keeps f (ext4HtreePickLeafFromRoot rootBuf h32) := by
  refine .get_bind fun _ ↦ (Keeps.ofOption _).bind fun root ↦ .ite (.pure _) ?_
  refine (Keeps.guard _).bind fun _ ↦ Keeps.bind ?_ fun _ ↦ .pure _
  exact .get_bind fun _ ↦ (hf.getBlocknr _).bind fun _ ↦ hf.mallocBlock.bind fun _ ↦
    (hf.readBlock _).bind fun _ ↦ (Keeps.ofOption _).bind fun _ ↦ .pure _

/-- A search does not change it either. -/
theorem ext4FindEntry (hf : KeptByReads f) (name : List Byte) : Keeps f (ext4FindEntry name) := by
  have hleaf : Keeps f (indexedLeaf name) :=
    .get_bind fun _ ↦ (hf.getBlocknr 0).bind fun _ ↦ (hf.readBlock _).bind fun _ ↦
      (hf.ext4HtreePickLeafFromRoot _ _).bind fun _ ↦ hf.getBlocknr _
  refine (Keeps.guard _).bind fun _ ↦ .get_bind fun s ↦ .ite ?_ (hf.findLinear name)
  refine hf.mallocBlock.bind fun _ ↦ hleaf.attempt.bind fun r ↦ ?_
  cases r with
  | none => exact hf.findLinear name
  | some leafPhys =>
    refine (hf.readBlock leafPhys).attempt.bind fun r ↦ ?_
    cases r with
    | none => exact hf.findLinear name
    | some buf =>
      dsimp only
      split
      · exact .pure _
      · exact hf.findLinear name

end KeptByReads

/-- The directory and the disk are left alone. -/
theorem keptByReads_still : KeptByReads still :=
  ⟨keeps_still_ext4DirGetBlocknr, keeps_still_readBlock, keeps_still_mallocBlock⟩

/-- The free buffers of `extents.c`, for a directory without extents. -/
def directPool (s : FsInode) : Option ℕ := if s.inode.hasExtents then none else some s.pool

/-- What leaves the pool leaves it in a directory. -/
theorem directPool_onFs {α : Type} {x : StateErr Fs α} (h : Keeps Fs.extPool x) : Keeps directPool (onFs x) :=
  ⟨fun s ↦ congrArg (fun n ↦ if s.inode.hasExtents then none else some n) (h.snd_eq s.fs)⟩

/-- Without extents no buffer of `extents.c` is needed. -/
theorem keptByReads_directPool : KeptByReads directPool := by
  have hread : ∀ b, Keeps directPool (onFs (Fs.readBlock b)) := fun b ↦ directPool_onFs (Fs.keeps_readBlock b)
  have hmalloc : Keeps directPool (onFs Fs.mallocBlock) := directPool_onFs Fs.keeps_mallocBlock
  refine ⟨fun lblock ↦ ⟨fun s ↦ ?_⟩, hread, hmalloc⟩
  by_cases hext : s.inode.hasExtents
  · have hinode := congrArg FsInode.inode ((keeps_still_ext4DirGetBlocknr lblock).snd_eq s)
    change ((ext4DirGetBlocknr lblock s).2).inode = s.inode at hinode
    rw [directPool, directPool, hinode, if_pos hext, if_pos hext]
  · rw [ext4DirGetBlocknr, get_bind, if_neg hext]
    refine (Keeps.ite ((Keeps.guard _).bind fun _ ↦ .pure _) ?_).snd_eq s
    exact (Keeps.guard _).bind fun _ ↦ (Keeps.guard _).bind fun _ ↦ (Keeps.guard _).bind fun _ ↦
      hmalloc.bind fun _ ↦ (hread _).bind fun _ ↦ (Keeps.guard _).bind fun _ ↦ .pure _

end FsInode

/-! ### The laws -/

/-- The states of ext4 that differ in what lookups may use up: answers of the device, buffers of `extents.c`,
and that an inode at address 0 has been filled in. -/
def Ext4State.Same (s t : Ext4State) : Prop := s.fs.still = t.fs.still ∧ s.now = t.now

/-- Sameness is an equivalence. -/
theorem Ext4State.same_equivalence : Equivalence Ext4State.Same where
  refl _ := ⟨rfl, rfl⟩
  symm h := ⟨h.1.symm, h.2.symm⟩
  trans h h' := ⟨h.1.trans h'.1, h.2.trans h'.2⟩

/-- What `Same` leaves open, said outright. -/
theorem Ext4State.same_iff {s t : Ext4State} : s.Same t ↔ ∃ l n b,
    t = { s with fs := { s.fs.withFaults l with extPool := n }, nullWrite := b } := by
  constructor
  · obtain ⟨⟨⟨_, _, _, l⟩, _, _, _, _, _, _, _⟩, _, _⟩ := s
    obtain ⟨⟨⟨_, _, _, l'⟩, _, _, _, _, _, _, n⟩, _, b⟩ := t
    rintro ⟨hstill, hnow⟩
    refine ⟨l', n, b, ?_⟩
    cases hnow
    simp only [Fs.still, BlockDevice.withFaults, Fs.mk.injEq, BlockDevice.mk.injEq] at hstill
    obtain ⟨⟨rfl, rfl, rfl, -⟩, rfl, rfl, rfl, rfl, rfl, rfl, -⟩ := hstill
    rfl
  · rintro ⟨l, n, b, rfl⟩
    exact ⟨rfl, rfl⟩

/-- They differ in the answers of the device that are used up, and in nothing else. -/
def Ext4State.SameButFaults (s t : Ext4State) : Prop := ∃ l, t = { s with fs := s.fs.withFaults l }

/-- With the pool and the null write alike, only the faults to come differ. -/
theorem Ext4State.Same.sameButFaults {s t : Ext4State} (h : s.Same t) (hpool : s.fs.extPool = t.fs.extPool)
    (hnull : s.nullWrite = t.nullWrite) : s.SameButFaults t := by
  obtain ⟨l, n, b, rfl⟩ := Ext4State.same_iff.1 h
  obtain rfl : s.fs.extPool = n := hpool
  obtain rfl : s.nullWrite = b := hnull
  exact ⟨l, rfl⟩

/-- What the filesystem is after a lookup that has read an inode or nothing. -/
def Ext4State.withFs (s : Ext4State) (fs : Fs) : Ext4State := { s with fs := fs }

/-- A slot that was taken and given back. -/
theorem Ext4State.freeInfo_takeInfo {s : Ext4State} (h : 0 < s.fs.superPool) : s.takeInfo.freeInfo = s := by
  rw [freeInfo, takeInfo]
  simp only [Nat.sub_add_cancel h]

open Ext4Vfs

/-- A search in a directory leaves the caches alone, and without extents no buffer is lost. -/
theorem onInode_findEntry (dir : ℕ) (name : List Byte) (v : Ext4Vfs) : ∃ fs', fs'.still = v.fs.fs.still ∧
    ((∀ n, v.inodes dir = some n → n.node.info.hasExtents = false) → fs'.extPool = v.fs.fs.extPool) ∧
      (onInode dir (FsInode.ext4FindEntry name) v).2 = { v with fs := v.fs.withFs fs' } := by
  rw [onInode]
  rcases hi : v.inodes dir with _ | n
  · exact ⟨v.fs.fs, rfl, fun _ ↦ rfl, rfl⟩
  have hstill := (FsInode.keptByReads_still.ext4FindEntry name).snd_eq ⟨v.fs.fs, n.node.info⟩
  have hpool := (FsInode.keptByReads_directPool.ext4FindEntry name).snd_eq ⟨v.fs.fs, n.node.info⟩
  dsimp only
  generalize FsInode.ext4FindEntry name ⟨v.fs.fs, n.node.info⟩ = r at hstill hpool ⊢
  obtain ⟨r, s⟩ := r
  obtain ⟨hfs, hinode⟩ := FsInode.mk.inj hstill
  dsimp only at hfs hinode hpool ⊢
  refine ⟨s.fs, hfs, fun hdir ↦ ?_, ?_⟩
  · have hext := hdir n rfl
    rw [FsInode.directPool, FsInode.directPool, hinode, hext] at hpool
    exact Option.some_inj.1 hpool
  · have hsame : Function.update v.inodes dir (some { n with node := { n.node with info := s.inode } }) =
        v.inodes := by
      rw [hinode, ← hi, Function.update_eq_self]
    rw [hsame]
    rfl

/-- Only directories have a lookup, `ext4_lookup`. -/
theorem Ext4Inode.lookup_eq {n : Ext4Inode} {ops : InodeOperations Ext4Inode Ext4State}
    {lookup : ℕ → ℕ → Ext4Vfs → Option ℕ × Ext4Vfs} (hops : ext4FileSystem.iOp n = some ops)
    (hlookup : ops.lookup = some lookup) : n.dirOps = true ∧ lookup = ext4Lookup := by
  have htable : (if n.dirOps then ext4DirInodeOperations else ext4FileInodeOperations) = ops :=
    Option.some_inj.1 hops
  subst htable
  split at hlookup
  next hdir => exact ⟨hdir, (Option.some_inj.1 hlookup).symm⟩
  next => exact absurd hlookup.symm (Option.some_ne_none lookup)

/-- What `ext4_alloc_inode` does: nothing where a pool is used up, or it takes a slot and an
`ext4_inode_info`. -/
theorem ext4AllocInode_cases (held : ℕ) (n : Ext4Inode) (v : Ext4Vfs) :
    ((freeInode v = none ∨ v.fs.fs.superPool ≤ held) ∧ ext4AllocInode held n v = (none, v)) ∨
    ∃ i < vfsMaxInodes, v.inodes i = none ∧ held < v.fs.fs.superPool ∧ ext4AllocInode held n v =
      (some i, { v with inodes := Function.update v.inodes i (some ⟨1, n⟩), fs := v.fs.takeInfo }) := by
  rw [ext4AllocInode, vfsAllocInode]
  rcases hfree : freeInode v with _ | i
  · exact Or.inl ⟨Or.inl rfl, rfl⟩
  have hfind := List.find?_some hfree
  have hi : v.inodes i = none := Option.isNone_iff_eq_none.1 hfind
  have hlt : i < vfsMaxInodes := List.mem_range.1 (List.mem_of_find?_eq_some hfree)
  by_cases hpool : held < v.fs.fs.superPool
  · exact Or.inr ⟨i, hlt, hi, hpool, if_pos hpool⟩
  · have hundo : vfsFreeInode i (v.setInode i (some ⟨1, n⟩)) = v := by
      rw [vfsFreeInode, Vfs.setInode, Vfs.setInode, Function.update_idem, ← hi, Function.update_eq_self]
    exact Or.inl ⟨Or.inr (Nat.not_lt.1 hpool), (if_neg hpool).trans (congrArg (Prod.mk none) hundo)⟩

/-- What `ext4_iget` does: nothing but reading where it cannot read the inode, a write through NULL where
none can be allocated, or it takes a slot and an `ext4_inode_info` and fills in what was read. -/
theorem ext4Iget_cases (ino : ℕ) (v : Ext4Vfs) : ∃ fs', fs'.still = v.fs.fs.still ∧
    fs'.extPool = v.fs.fs.extPool ∧
    (ext4Iget ino v = (none, { v with fs := v.fs.withFs fs' }) ∨
      (freeInode v = none ∨ v.fs.fs.superPool ≤ 1) ∧
        ext4Iget ino v = (none, { v with fs := { v.fs.withFs fs' with nullWrite := true } }) ∨
      ∃ i < vfsMaxInodes, v.inodes i = none ∧ 1 < v.fs.fs.superPool ∧ ∃ buf o,
        (Fs.readRawInode ino v.fs.fs).1 = some (buf, o) ∧ ext4Iget ino v = (some i, { v with
          inodes := Function.update v.inodes i (some ⟨1, Ext4Inode.fill ino buf o v.fs.fs.sbi.sInodesPerGroup⟩)
          fs := (v.fs.withFs fs').takeInfo })) := by
  have hstill := (Fs.keeps_readRawInode Fs.keeps_still_readBlock ino).snd_eq v.fs.fs
  have hpool := (Fs.keeps_readRawInode Fs.keeps_readBlock ino).snd_eq v.fs.fs
  rcases hrun : Fs.readRawInode ino v.fs.fs with ⟨r, fs'⟩
  rw [hrun] at hstill hpool
  dsimp only at hstill hpool
  refine ⟨fs', hstill, hpool, ?_⟩
  have hread : onFs (Fs.readRawInode ino) v = (r, { v with fs := v.fs.withFs fs' }) := by
    rw [onFs, zoom_apply, hrun]
    rfl
  rw [ext4Iget, hread]
  rcases r with _ | ⟨buf, o⟩
  · exact Or.inl rfl
  have hsuper := Fs.superPool_eq_of_still hstill
  have hsbi := Fs.sbi_eq_of_still hstill
  dsimp only
  rw [show (v.fs.withFs fs').fs.sbi = v.fs.fs.sbi from hsbi, ← hsuper]
  rcases ext4AllocInode_cases 1 (Ext4Inode.fill ino buf o v.fs.fs.sbi.sInodesPerGroup)
    ({ v with fs := v.fs.withFs fs' } : Ext4Vfs) with ⟨hfull, halloc⟩ | ⟨i, hlt, hi, hone, halloc⟩
  · rw [halloc]
    exact Or.inr (Or.inl ⟨hfull, rfl⟩)
  · rw [halloc]
    exact Or.inr (Or.inr ⟨i, hlt, hi, hone, buf, o, rfl, rfl⟩)

/-- What `ext4_lookup` does with the directory `dir`: nothing but reading, or what `ext4_iget` does. -/
theorem ext4Lookup_cases (dir d : ℕ) (v : Ext4Vfs) : ∃ fs', fs'.still = v.fs.fs.still ∧
    ((∀ n, v.inodes dir = some n → n.node.info.hasExtents = false) → fs'.extPool = v.fs.fs.extPool) ∧
    (ext4Lookup dir d v = (some d, { v with fs := v.fs.withFs fs' }) ∨
      (freeInode v = none ∨ v.fs.fs.superPool ≤ 1) ∧
        ext4Lookup dir d v = (some d, { v with fs := { v.fs.withFs fs' with nullWrite := true } }) ∨
      ∃ i < vfsMaxInodes, v.inodes i = none ∧ 1 < v.fs.fs.superPool ∧ ∃ ino fs buf o,
        fs.still = v.fs.fs.still ∧ (Fs.readRawInode ino fs).1 = some (buf, o) ∧
        ext4Lookup dir d v = (some d, dInstantiate d i { v with
          inodes := Function.update v.inodes i (some ⟨1, Ext4Inode.fill ino buf o fs.sbi.sInodesPerGroup⟩)
          fs := (v.fs.withFs fs').takeInfo })) := by
  rw [ext4Lookup]
  rcases v.dcache d with _ | e
  · exact ⟨v.fs.fs, rfl, fun _ ↦ rfl, Or.inl rfl⟩
  obtain ⟨fs₁, hstill, hpool, hfind⟩ := onInode_findEntry dir e.dName.1 v
  dsimp only
  rcases hr : onInode dir (FsInode.ext4FindEntry e.dName.1) v with ⟨found, w⟩
  rw [hr] at hfind
  obtain rfl : w = { v with fs := v.fs.withFs fs₁ } := hfind
  cases found with
  | none => exact ⟨fs₁, hstill, hpool, Or.inl rfl⟩
  | some found =>
    obtain ⟨fs₂, hstill', hpool', hget⟩ := ext4Iget_cases found.1 ({ v with fs := v.fs.withFs fs₁ } : Ext4Vfs)
    have hsuper := Fs.superPool_eq_of_still hstill
    refine ⟨fs₂, hstill'.trans hstill, fun hdir ↦ hpool'.trans (hpool hdir), ?_⟩
    dsimp only
    rcases hget with hget | ⟨hfull, hget⟩ | ⟨i, hlt, hi, hone, buf, o, hread, hget⟩
    · rw [hget]
      exact Or.inl rfl
    · rw [hget]
      exact Or.inr (Or.inl ⟨hsuper ▸ hfull, rfl⟩)
    · rw [hget]
      exact Or.inr (Or.inr ⟨i, hlt, hi, hsuper ▸ hone, found.1, fs₁, buf, o, hstill, hread, rfl⟩)

/-- What path walking relies on. -/
def ext4Laws : ext4FileSystem.Laws where
  free := Ext4State.freeInfo
  same := Ext4State.Same
  equiv := Ext4State.same_equivalence
  free_congr h := ⟨congrArg (fun fs : Fs ↦ { fs with superPool := fs.superPool + 1 }) h.1, h.2⟩
  destroyInode_eq _ _ := rfl
  lookup_cases := by
    intro n ops lookup hops hlookup dir d v
    obtain ⟨-, rfl⟩ := Ext4Inode.lookup_eq hops hlookup
    obtain ⟨fs', hstill, -, hlook | ⟨-, hlook⟩ | ⟨i, -, hi, hone, ino, fs, buf, o, -, -, hlook⟩⟩ :=
      ext4Lookup_cases dir d v
    · exact Or.inl ⟨v.fs.withFs fs', ⟨hstill.symm, rfl⟩, hlook⟩
    · exact Or.inl ⟨{ v.fs.withFs fs' with nullWrite := true }, ⟨hstill.symm, rfl⟩, hlook⟩
    · refine Or.inr ⟨_, i, _, ?_, hi, hlook⟩
      have hsuper := Fs.superPool_eq_of_still hstill
      rw [Ext4State.freeInfo_takeInfo (show 0 < fs'.superPool by omega)]
      exact ⟨hstill.symm, rfl⟩

end MiniExt4
