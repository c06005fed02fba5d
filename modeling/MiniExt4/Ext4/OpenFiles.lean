import MiniExt4.Ext4.FileWrite
import MiniExt4.Ext4.InodeSpec

/-!
# The open files of a volume

The files of a volume take their blocks from one bitmap. Their contents are independent arrays of bytes all the
same (`OpenFiles.read_of_run`): in a run of calls on any of the files, in any order, each read returns what the
writes to its own file have stored, and the blocks that were in use when the files were empty stay as they are.
So it is after a file was closed and its inode read again: what is known of an inode that is not marked is on
the disk (`Synced`).

A write to a file sees the blocks of the others as part of the volume that it must not touch, which is how the
frame of the invariant for one file gives that for all (`Files.write`).
-/

/-- The first `n` bytes. -/
def Buf.toList (b : Buf) (n : ℕ) : List Byte := (List.range n).map b

/-- A little-endian number tells its bytes. -/
theorem Buf.eq_of_le_eq {b c : Buf} {o n : ℕ} (h : b.le o n = c.le o n) {i : ℕ} (hlo : o ≤ i) (hhi : i < o + n) :
    b i = c i := by
  induction n generalizing o with
  | zero => omega
  | succ n ih =>
    have hb := (b o).isLt
    have hc := (c o).isLt
    simp only [le] at h
    rcases hlo.eq_or_lt with rfl | hlt
    · exact BitVec.eq_of_toNat_eq (by omega)
    · have hrest : b.le (o + 1) n = c.le (o + 1) n := by omega
      exact ih hrest hlt (by omega)

namespace MiniExt4

open FsInode FsFile StateErr
open Releasing (IsData)

/-! ### Arrays of bytes -/

/-- The array after `data` was written at position `pos`. -/
def overwrite (ref : List Byte) (pos : ℕ) (data : List Byte) : List Byte :=
  ref.take pos ++ data ++ ref.drop (pos + data.length)

theorem length_overwrite {ref : List Byte} {pos : ℕ} (h : pos ≤ ref.length) (buf : Buf) (count : ℕ) :
    (overwrite ref pos (buf.toList count)).length = max ref.length (pos + count) := by
  simp only [overwrite, Buf.toList, List.length_append, List.length_take, List.length_drop, List.length_map,
    List.length_range]
  omega

theorem getD_overwrite {ref : List Byte} {pos : ℕ} (h : pos ≤ ref.length) (buf : Buf) (count i : ℕ) :
    (overwrite ref pos (buf.toList count)).getD i 0 = stored (fun i ↦ ref.getD i 0) buf pos 0 count i := by
  have hlen : (buf.toList count).length = count := by
    rw [Buf.toList, List.length_map, List.length_range]
  have htake : (ref.take pos).length = pos := List.length_take_of_le h
  have hfront : (ref.take pos ++ buf.toList count).length = pos + count := by
    rw [List.length_append, htake, hlen]
  rw [overwrite, stored]
  by_cases hlt : i < pos + count
  · rw [List.getD_append _ _ _ _ (by omega)]
    by_cases hin : pos ≤ i
    · rw [if_pos ⟨hin, hlt⟩, List.getD_append_right _ _ _ _ (by omega), htake, Buf.toList, Nat.zero_add,
        List.getD_eq_getElem _ _ (by rw [List.length_map, List.length_range]; omega), List.getElem_map,
        List.getElem_range]
    · rw [if_neg (by omega), List.getD_append _ _ _ _ (by omega), List.getD_eq_getElem?_getD,
        List.getElem?_take_of_lt (by omega), List.getD_eq_getElem?_getD]
  · rw [if_neg (by omega), List.getD_append_right _ _ _ _ (by omega), hfront, hlen, List.getD_eq_getElem?_getD,
      List.getElem?_drop, Nat.add_sub_cancel' (by omega), List.getD_eq_getElem?_getD]

namespace Volume

variable {V : Volume} {U : Set ℕ} {fs fs' : Fs} {inode : Inode} {ino : ℕ}

/-! ### Inodes of a mounted volume -/

theorem Mounted.inodeImage (h : V.Mounted U fs) (hlaid : V.TablesLaid) : V.InodeImage fs :=
  ⟨hlaid, BlockDevice.Usable.sectored h.usable, h.blockSize, h.geom, h.groupDesc, h.desc_inodeTable⟩

theorem Mounted.withSuperPool (h : V.Mounted U fs) (n : ℕ) : V.Mounted U { fs with superPool := n } :=
  ⟨⟨h.wf, h.usable, h.blockSize, h.geom, h.blocksCount, h.groupDesc, h.desc_blockBitmap,
    h.desc_inodeBitmap, h.desc_inodeTable, h.bit_iff, h.meta_used⟩, h.cache⟩

theorem Mounted.hasBlock (h : V.Mounted U fs) {b : ℕ} (hb : b < V.blocks) : fs.HasBlock b := by
  have hread := h.usable.readBlock_eq b
  rw [h.usable.readBlock hb] at hread
  by_contra hno
  rw [if_neg hno] at hread
  exact absurd (Prod.mk.inj hread).1 (Option.some_ne_none _)

/-- Writing an inode on a device that works. -/
theorem Mounted.writeInode (h : V.Mounted U fs) (hlaid : V.TablesLaid)
    (hrun : Fs.ext4WriteInode inode fs = (some (), fs')) : V.Finds fs inode.iIno ∧ fs' = V.written fs inode := by
  have himage := h.inodeImage hlaid
  obtain ⟨hfinds, -, -⟩ := himage.of_writeInode_some hrun
  have hlt := (himage.slot_of_desc hfinds.2.1).2
  unfold Fs.ext4WriteInode at hrun
  rw [guard_true hfinds.1, pure_bind', bind_of_eq_some (himage.getInodeDiskLoc h.usable.quiet hfinds),
    bind_of_eq_some (superMalloc_eq himage hfinds.2.2.2.1), bind_of_eq_some (h.usable.readBlock hlt),
    h.usable.writeBlock hlt] at hrun
  exact ⟨hfinds, (Prod.mk.inj hrun).2.symm⟩

/-- Reading an inode takes a slot of the pool for it. -/
theorem Mounted.iget (h : V.Mounted U fs) (hlaid : V.TablesLaid)
    (hrun : Fs.ext4Iget ino fs = (some inode, fs')) :
    V.Finds fs ino ∧ inode = V.diskInode fs ino ∧ fs' = { fs with superPool := fs.superPool - 1 } := by
  have himage := h.inodeImage hlaid
  obtain ⟨⟨hfinds, hblock, hpool⟩, rfl⟩ := himage.of_iget_some hrun
  have hlt := (himage.slot_of_desc hfinds.2.1).2
  unfold Fs.ext4Iget at hrun
  rw [bind_of_eq_some (himage.getInodeDiskLoc h.usable.quiet hfinds),
    bind_of_eq_some (superMalloc_eq himage (by omega)), bind_of_eq_some (h.usable.readBlock hlt), get_bind,
    guard_true hpool, pure_bind', modify_bind, pure_apply] at hrun
  exact ⟨hfinds, rfl, (Prod.mk.inj hrun).2.symm⟩

/-- The block of a slot is in no bitmap, descriptor or file. -/
theorem Mounted.slot_isMeta (h : V.Mounted U fs) (hlaid : V.TablesLaid) (hg : V.inodeGroup ino < V.groups) :
    V.IsMeta (V.slot ino).1 ∧ ¬ V.AllocMeta (V.slot ino).1 := by
  obtain ⟨-, hin, -⟩ := hlaid.slot_eq hg
  exact ⟨.inr ⟨_, hg, .inr hin⟩, h.wf.inTable_not_alloc _ hg _ hin⟩

theorem Mounted.written (h : V.Mounted U fs) (hlaid : V.TablesLaid) (hfinds : V.Finds fs inode.iIno) :
    V.Mounted U (V.written fs inode) := by
  obtain ⟨-, hno⟩ := h.slot_isMeta hlaid hfinds.2.1
  exact h.put _ (fun g hg heq ↦ hno (.inr ⟨g, hg, .inl heq⟩)) fun g hg heq ↦ hno (.inr ⟨g, hg, .inr heq⟩)

theorem diskInode_congr (h : fs'.block (V.slot ino).1 = fs.block (V.slot ino).1) :
    V.diskInode fs' ino = V.diskInode fs ino := by
  rw [diskInode, diskInode, h]

end Volume

namespace Inode

variable {n n' : Inode}

/-- Adding blocks keeps an inode in range. -/
theorem InRange.later (h : n.InRange) (hlater : n.Later n') {size : ℕ} (hsize : size < 2 ^ 64) (dirty : Bool) :
    InRange { n' with iSize := size, dirty := dirty } := by
  have hfield : ∀ {α : Type} (field : Inode → α), field n'.fixed = field n.fixed := fun field ↦
    congrArg field hlater.fixed
  exact {
    iMode := (hfield Inode.iMode).trans_lt h.iMode
    iSize := hsize
    iBlocks := hlater.iBlocks h.iBlocks
    iAtime := (hfield Inode.iAtime).trans_lt h.iAtime
    iMtime := (hfield Inode.iMtime).trans_lt h.iMtime
    iCtime := (hfield Inode.iCtime).trans_lt h.iCtime
    iUid := (hfield Inode.iUid).trans_lt h.iUid
    iGid := (hfield Inode.iGid).trans_lt h.iGid
    iNlink := (hfield Inode.iNlink).trans_lt h.iNlink
    iFlags := (hfield Inode.iFlags).trans_lt h.iFlags }

theorem Same.mark (h : n.Same n') (dirty : Bool) : n.Same { n' with dirty := dirty } :=
  ⟨h.iMode, h.iSize, h.iBlocks, h.iAtime, h.iMtime, h.iCtime, h.iUid, h.iGid, h.iNlink, h.word, h.iFlags⟩

theorem Same.inRange (h : n.Same n') (hr : n'.InRange) : n.InRange :=
  ⟨h.iMode ▸ hr.iMode, h.iSize ▸ hr.iSize, h.iBlocks ▸ hr.iBlocks, h.iAtime ▸ hr.iAtime, h.iMtime ▸ hr.iMtime,
    h.iCtime ▸ hr.iCtime, h.iUid ▸ hr.iUid, h.iGid ▸ hr.iGid, h.iNlink ▸ hr.iNlink, h.iFlags ▸ hr.iFlags⟩

/-- The words of `i_block` are its bytes. -/
theorem Same.iBlock (h : n.Same n') {o : ℕ} (ho : o < iBlockSize) : n.iBlock o = n'.iBlock o := by
  unfold iBlockSize at ho
  exact Buf.eq_of_le_eq (h.word (o / 4) (by omega)) (show 4 * (o / 4) ≤ o by omega) (by omega)

end Inode

/-- A mounted filesystem and the inodes of the files that are open. -/
structure OpenFiles (ι : Type) where
  fs : Fs
  inode : ι → Inode

namespace OpenFiles

variable {ι : Type}

/-- File `i` at a position. -/
def file (σ : OpenFiles ι) (i : ι) (pos : ℕ) : FsFile := ⟨⟨σ.fs, σ.inode i⟩, pos⟩

/-! ### The invariant -/

/-- The bytes of an array, zero behind its end. -/
def bytesOf (ref : List Byte) : ℕ → Byte := fun i ↦ ref.getD i 0

/-- The inode `n` is marked, or it is the one on the disk. -/
def Synced (V : Volume) (fs : Fs) (n : Inode) : Prop :=
  n.dirty = false → n.iIno ≠ 0 ∧ V.inodeGroup n.iIno < V.groups → (V.diskInode fs n.iIno).Same n

/-- `own i` are the blocks of file `i`, which has the bytes of `refs i`. The blocks `R`, which no file has, are
those of `img`. -/
structure Files (V : Volume) (R : Set ℕ) (img : ℕ → Buf) (U : Set ℕ) (own : ι → Set ℕ) (σ : OpenFiles ι)
    (refs : ι → List Byte) : Prop where
  laid : V.TablesLaid
  started : ∀ i, Started V (U \ own i) σ.fs.block (bytesOf (refs i)) (refs i).length U ⟨σ.fs, σ.inode i⟩
  size : ∀ i, (σ.inode i).iSize = (refs i).length
  le : ∀ i, (refs i).length ≤ 2 ^ 32
  fits : ∀ i, 0 < (refs i).length → V.bs ≤ blockSizeDefault
  sub : ∀ i, own i ⊆ U
  disjoint : ∀ i j, i ≠ j → Disjoint (own i) (own j)
  rest : ∀ b ∈ R, b ∈ U ∧ ∀ i, b ∉ own i
  same : ∀ b ∈ R, IsData V b → σ.fs.block b = img b
  meta_mem : ∀ b, V.IsMeta b → b ∈ R
  ino_ne : ∀ i j, i ≠ j → (σ.inode i).iIno ≠ (σ.inode j).iIno
  inRange : ∀ i, (σ.inode i).InRange
  synced : ∀ i, Synced V σ.fs (σ.inode i)

variable {V : Volume} {R U : Set ℕ} {img : ℕ → Buf} {own : ι → Set ℕ} {σ σ' : OpenFiles ι}
  {refs refs' : ι → List Byte}

/-- What a read returns, and that it changes nothing. -/
theorem Files.read (h : Files V R img U own σ refs) (i : ι) (pos count : ℕ) (stale : ℕ → Option Extent) :
    ∃ buf p, ext4FileRead stale count (σ.file i pos) =
        (some (buf, min count ((refs i).length - pos)), σ.file i p) ∧
      ∀ j < min count ((refs i).length - pos), buf j = bytesOf (refs i) (pos + j) :=
  fileRead_keeps (s := σ.file i pos) (h.started i) (h.size i) (h.le i) (h.fits i) stale count

/-- What is in no file may change. -/
theorem Files.withFs (h : Files V R img U own σ refs) {fs : Fs} (hmounted : V.Mounted U σ.fs → V.Mounted U fs)
    (hpool : fs.extPool = σ.fs.extPool) (hblock : ∀ b, IsData V b → fs.block b = σ.fs.block b)
    (hsynced : ∀ i, Synced V fs (σ.inode i)) : Files V R img U own { σ with fs := fs } refs :=
  { h with
    started := fun i ↦ by
      obtain ⟨hm, -, hroom⟩ := (h.started i).mounted
      exact (h.started i).frame (hmounted hm) (hpool ▸ hroom) Set.sdiff_subset
        (fun b hb hout ↦ ⟨hb, hout, hblock b⟩) fun _ _ _ ↦ rfl
    same := fun b hb hdata ↦ (hblock b hdata).trans (h.same b hb hdata)
    synced := hsynced }

theorem Files.setGoal (h : Files V R img U own σ refs) (n : ℕ) :
    Files V R img U own { σ with fs := { σ.fs with preallocGoalLen := n } } refs :=
  h.withFs (fun hm ↦ hm.withGoal n) rfl (fun _ _ ↦ rfl) h.synced

/-- Closing a file writes its inode, or finds it on the disk. -/
theorem Files.release (h : Files V R img U own σ refs) {i : ι} {s' : FsInode}
    (hrun : ext4FileRelease ⟨σ.fs, σ.inode i⟩ = (some (), s')) (hclean : s'.inode.dirty = false) :
    s'.inode = { σ.inode i with dirty := false } ∧ Files V R img U own { σ with fs := s'.fs } refs ∧
      Synced V s'.fs s'.inode := by
  have hm := (h.started i).mounted.1
  unfold ext4FileRelease at hrun
  rw [get_bind] at hrun
  -- an inode that is not marked is not written
  by_cases hdirty : (σ.inode i).dirty = true
  swap
  · -- the inode is on the disk
    rw [if_neg hdirty] at hrun
    obtain rfl : (⟨σ.fs, σ.inode i⟩ : FsInode) = s' := (Prod.mk.inj hrun).2
    refine ⟨?_, h, h.synced i⟩
    show σ.inode i = _
    rw [← hclean]
  rw [if_pos hdirty, attempt_bind] at hrun
  rcases hw : Fs.ext4WriteInode (σ.inode i) σ.fs with ⟨_ | _, fs'⟩ <;>
    rw [FsInode.onFs, zoom_apply, hw] at hrun
  · -- an inode that could not be written stays marked
    obtain rfl := (Prod.mk.inj hrun).2
    exact absurd (hclean.symm.trans hdirty) Bool.false_ne_true
  obtain rfl := (Prod.mk.inj hrun).2
  obtain ⟨hfinds, rfl⟩ := hm.writeInode h.laid hw
  have himage := hm.inodeImage h.laid
  obtain ⟨hmeta, -⟩ := hm.slot_isMeta h.laid hfinds.2.1
  refine ⟨rfl, h.withFs (fun hm ↦ hm.written h.laid hfinds) rfl (fun b hb ↦ ?_) fun j hclean' hg ↦ ?_, fun _ _ ↦ ?_⟩
  · exact σ.fs.block_put_of_ne _ fun heq ↦ hb.2.2 (heq ▸ hmeta)
  -- the slots of the other inodes are apart from this one
  · rcases eq_or_ne j i with rfl | hj
    · exact absurd (hclean'.symm.trans hdirty) Bool.false_ne_true
    have hfinds' : V.Finds σ.fs (σ.inode j).iIno := ⟨hg.1, hg.2, hm.wf.descOff_le _ hg.2, hfinds.2.2.2.1,
      hm.hasBlock (hm.wf.meta_lt _ (.inl (.inr ⟨_, hg.2, .inl rfl⟩)))⟩
    rw [himage.diskInode_written hfinds hfinds' (h.ino_ne j i hj)]
    exact h.synced j hclean' hg
  · exact (himage.diskInode_written_self hfinds (h.inRange i)).mark false

/-- What the record of an inode does not keep may change. -/
theorem Files.setInode [DecidableEq ι] (h : Files V R img U own σ refs) {i : ι} {n : Inode}
    (hsame : n.Same (σ.inode i)) (hino : n.iIno = (σ.inode i).iIno) (hsynced : Synced V σ.fs n) :
    Files V R img U own ⟨σ.fs, Function.update σ.inode i n⟩ refs := by
  have hiIno : ∀ j, (Function.update σ.inode i n j).iIno = (σ.inode j).iIno :=
    (Function.forall_update_iff σ.inode fun j m ↦ m.iIno = (σ.inode j).iIno).2 ⟨hino, fun _ _ ↦ rfl⟩
  refine { h with
    started := (Function.forall_update_iff σ.inode fun j m ↦
      Started V (U \ own j) σ.fs.block (bytesOf (refs j)) (refs j).length U ⟨σ.fs, m⟩).2 ⟨?_, fun j _ ↦ h.started j⟩
    size := (Function.forall_update_iff σ.inode fun j m ↦ m.iSize = (refs j).length).2
      ⟨hsame.iSize.trans (h.size i), fun j _ ↦ h.size j⟩
    ino_ne := fun j k hjk ↦ ?_
    inRange := (Function.forall_update_iff σ.inode fun _ m ↦ m.InRange).2
      ⟨hsame.inRange (h.inRange i), fun j _ ↦ h.inRange j⟩
    synced := (Function.forall_update_iff σ.inode fun _ m ↦ Synced V σ.fs m).2 ⟨hsynced, fun j _ ↦ h.synced j⟩ }
  · exact (h.started i).withInode (fun o ho ↦ hsame.iBlock ho) hsame.iMode hsame.iFlags
  · show (Function.update σ.inode i n j).iIno ≠ (Function.update σ.inode i n k).iIno
    rw [hiIno, hiIno]
    exact h.ino_ne j k hjk

/-- **A file that was closed is read back from the disk.** -/
theorem Files.reload [DecidableEq ι] (h : Files V R img U own σ refs) {i : ι} {inode : Inode} {s' : FsInode}
    {fs' : Fs} (hrelease : ext4FileRelease ⟨σ.fs, σ.inode i⟩ = (some (), s')) (hclean : s'.inode.dirty = false)
    (hget : Fs.ext4Iget (σ.inode i).iIno { s'.fs with superPool := s'.fs.superPool + 1 } = (some inode, fs')) :
    Files V R img U own ⟨fs', Function.update σ.inode i inode⟩ refs := by
  obtain ⟨hinode, hfiles, hsynced⟩ := h.release hrelease hclean
  have hm := (hfiles.started i).mounted.1
  obtain ⟨hfinds, rfl, rfl⟩ := (hm.withSuperPool _).iget h.laid hget
  have hino : s'.inode.iIno = (σ.inode i).iIno := (congrArg Inode.iIno hinode).trans rfl
  -- what the record keeps is what the inode had
  have hdisk : (V.diskInode s'.fs (σ.inode i).iIno).Same s'.inode := by
    rw [← hino]
    exact hsynced hclean (hino ▸ ⟨hfinds.1, hfinds.2.1⟩)
  have hsame : (V.diskInode s'.fs (σ.inode i).iIno).Same (σ.inode i) := by
    rw [hinode] at hdisk
    exact hdisk.mark (σ.inode i).dirty
  have hpool := hfiles.withFs (fun hm ↦ (hm.withSuperPool _).withSuperPool _) rfl (fun _ _ ↦ rfl) hfiles.synced
  exact hpool.setInode hsame rfl fun _ _ ↦ ⟨rfl, rfl, rfl, rfl, rfl, rfl, rfl, rfl, rfl, fun _ _ ↦ rfl, rfl⟩

/-- All files are empty, and their inodes are different. -/
structure Fresh (V : Volume) (U : Set ℕ) (σ : OpenFiles ι) : Prop where
  laid : V.TablesLaid
  mounted : V.Mounted U σ.fs
  empty : ∀ i, EmptyFile V U ⟨σ.fs, σ.inode i⟩
  size : ∀ i, (σ.inode i).iSize = 0
  extents : ∀ i, (σ.inode i).hasExtents
  ino_ne : ∀ i j, i ≠ j → (σ.inode i).iIno ≠ (σ.inode j).iIno
  inRange : ∀ i, (σ.inode i).InRange
  synced : ∀ i, Synced V σ.fs (σ.inode i)

theorem Fresh.files (h : Fresh V U σ) : Files V U σ.fs.block U (fun _ ↦ ∅) σ fun _ ↦ [] where
  laid := h.laid
  started i := by
    have hempty := h.empty i
    by_cases hmagic : Node.magic (σ.inode i).iBlock = ext4ExtMagic
    · have hroot := hempty.empty.resolve_left (not_not_intro hmagic)
      exact .inl ⟨0, 0, [], hempty.solid hroot Set.sdiff_subset (h.extents i) fun _ _ _ ↦ rfl⟩
    · exact .inr ⟨rfl, Set.sdiff_subset, hmagic, hempty, h.extents i, fun _ _ _ ↦ rfl⟩
  size := h.size
  le _ := Nat.zero_le _
  fits _ hlt := absurd hlt (lt_irrefl 0)
  sub _ := Set.empty_subset U
  disjoint _ _ _ := Set.disjoint_empty _
  rest b hb := ⟨hb, fun _ ↦ Set.notMem_empty b⟩
  same _ _ _ := rfl
  meta_mem b hb := h.mounted.meta_used b hb
  ino_ne := h.ino_ne
  inRange := h.inRange
  synced := h.synced

/-! ### A write to one of the files -/

/-- The blocks of another file are not those of file `i`. -/
theorem Files.own_sub (h : Files V R img U own σ refs) {i j : ι} (hj : j ≠ i) : own j ⊆ U \ own i :=
  fun _ hb ↦ ⟨h.sub j hb, fun hbi ↦ Set.disjoint_left.1 (h.disjoint j i hj) hb hbi⟩

/-- A file that was written has its old blocks and those that were not in use. -/
theorem started_self {U₀ U₁ : Set ℕ} {f : ℕ → Byte} {K : ℕ} {s : FsInode} (h : Started V U₀ img f K U₁ s) :
    Started V (U₁ \ (U₁ \ U₀)) s.fs.block f K U₁ s := by
  obtain ⟨hmounted, -, hpool⟩ := h.mounted
  refine h.frame hmounted hpool Set.sdiff_subset (fun b hb hout ↦ ⟨hb, fun hin ↦ ?_, fun _ ↦ rfl⟩)
    fun _ _ _ ↦ rfl
  exact hin.2 ⟨hb, hout⟩

section Write

variable {i : ι} {U₁ : Set ℕ} {f : ℕ → Byte} {K : ℕ} {s : FsInode} (h : Files V R img U own σ refs)
  (hwritten : Started V (U \ own i) σ.fs.block f K U₁ s)

include h hwritten

/-- The blocks of another file were in use, and are not of file `i`: the write leaves them. -/
theorem Files.started_other {j : ι} (hj : j ≠ i) : Started V (U₁ \ own j) s.fs.block (bytesOf (refs j))
    (refs j).length U₁ ⟨s.fs, σ.inode j⟩ := by
  obtain ⟨hmounted, -, hpool⟩ := hwritten.mounted
  refine (h.started j).frame hmounted hpool Set.sdiff_subset (fun b hb hout ↦ ?_) fun _ _ _ ↦ rfl
  have hown : b ∈ own j := by_contra fun hnot ↦ hout ⟨hb, hnot⟩
  exact ⟨hwritten.base (h.own_sub hj hown), fun hin ↦ hin.2 hown, fun hdata ↦
    hwritten.others b (h.own_sub hj hown) (not_allocMeta_of_isData hdata)⟩

/-- The inode tables are not written to. -/
theorem Files.synced_write (n : Inode) (hsync : Synced V σ.fs n) : Synced V s.fs n := by
  intro hclean hg
  obtain ⟨hmeta, hno⟩ := (h.started i).mounted.1.slot_isMeta h.laid hg.2
  obtain ⟨hbU, hbown⟩ := h.rest _ (h.meta_mem _ hmeta)
  rw [Volume.diskInode_congr (hwritten.others _ ⟨hbU, hbown i⟩ hno)]
  exact hsync hclean hg

end Write

/-! ### Runs -/

variable [DecidableEq ι]

/-- What a call on file `i` leaves. -/
def put (σ : OpenFiles ι) (i : ι) (s : FsFile) : OpenFiles ι := ⟨s.fs, Function.update σ.inode i s.inode⟩

/-- A call on one of the files, and the arrays of bytes before and after it: a write that starts in the file or
at its end and is not short, of a count that `ssize_t` has room for, a read at any position, a change of the
number of blocks that are allocated at once, or a release after which the inode is destroyed and read again
(`ext4_destroy_inode`, `ext4_iget`). -/
inductive Call : OpenFiles ι × (ι → List Byte) → OpenFiles ι × (ι → List Byte) → Prop
  | write {σ : OpenFiles ι} {refs : ι → List Byte} {i : ι} {pos count : ℕ} {buf : Buf} {s' : FsFile}
      (hpos : pos ≤ (σ.inode i).iSize) (hend : pos + count ≤ 2 ^ 32) (hcount : count < 2 ^ 31)
      (hrun : ext4FileWrite buf count (σ.file i pos) = (some count, s')) :
      Call (σ, refs) (σ.put i s', Function.update refs i (overwrite (refs i) pos (buf.toList count)))
  | read {σ : OpenFiles ι} {refs : ι → List Byte} {i : ι} {pos count : ℕ} {stale : ℕ → Option Extent}
      {r : Option (Buf × ℕ)} {s' : FsFile} (hrun : ext4FileRead stale count (σ.file i pos) = (r, s')) :
      Call (σ, refs) (σ.put i s', refs)
  | setGoal {σ : OpenFiles ι} {refs : ι → List Byte} (n : ℕ) :
      Call (σ, refs) ({ σ with fs := { σ.fs with preallocGoalLen := n } }, refs)
  | reload {σ : OpenFiles ι} {refs : ι → List Byte} {i : ι} {inode : Inode} {s' : FsInode} {fs' : Fs}
      (hrelease : ext4FileRelease ⟨σ.fs, σ.inode i⟩ = (some (), s')) (hclean : s'.inode.dirty = false)
      (hget : Fs.ext4Iget (σ.inode i).iIno { s'.fs with superPool := s'.fs.superPool + 1 } = (some inode, fs')) :
      Call (σ, refs) (⟨fs', Function.update σ.inode i inode⟩, refs)

/-- A share that takes over all that is new stays apart from the others. -/
theorem Files.disjoint_update (h : Files V R img U own σ refs) (i : ι) (U₁ : Set ℕ) (j k : ι) (hjk : j ≠ k) :
    Disjoint (Function.update own i (U₁ \ (U \ own i)) j) (Function.update own i (U₁ \ (U \ own i)) k) := by
  have hapart : ∀ j, j ≠ i → Disjoint (own j) (U₁ \ (U \ own i)) := fun j hj ↦
    Set.disjoint_left.2 fun b hb hin ↦ hin.2 (h.own_sub hj hb)
  rcases eq_or_ne j i with rfl | hj
  · simp only [Function.update_self, Function.update_of_ne hjk.symm]
    exact (hapart k hjk.symm).symm
  rcases eq_or_ne k i with rfl | hk
  · simp only [Function.update_self, Function.update_of_ne hj]
    exact hapart j hj
  · simp only [Function.update_of_ne hj, Function.update_of_ne hk]
    exact h.disjoint j k hjk

/-- What no file has stays in use and in no share. -/
theorem Files.rest_update (h : Files V R img U own σ refs) {i : ι} {U₁ : Set ℕ} (hbase : U \ own i ⊆ U₁) {b : ℕ}
    (hb : b ∈ R) : b ∈ U₁ ∧ ∀ j, b ∉ Function.update own i (U₁ \ (U \ own i)) j := by
  obtain ⟨hbU, hbown⟩ := h.rest b hb
  refine ⟨hbase ⟨hbU, hbown i⟩, fun j ↦ ?_⟩
  rcases eq_or_ne j i with rfl | hj
  · simp only [Function.update_self]
    exact fun hin ↦ hin.2 ⟨hbU, hbown j⟩
  · simp only [Function.update_of_ne hj]
    exact hbown j

/-- **A write to one file keeps the invariant of all.** -/
theorem Files.write {i : ι} {pos count : ℕ} {buf : Buf} {s' : FsFile} (h : Files V R img U own σ refs)
    (hpos : pos ≤ (σ.inode i).iSize) (hend : pos + count ≤ 2 ^ 32)
    (hrun : ext4FileWrite buf count (σ.file i pos) = (some count, s')) : ∃ U' own',
      Files V R img U' own' (σ.put i s') (Function.update refs i (overwrite (refs i) pos (buf.toList count))) := by
  have hsize := h.size i
  have hwrote := fileWrite_keeps (s := σ.file i pos) (h.started i) (show pos ≤ _ by omega) hend hsize hrun
  obtain ⟨U₁, hwritten⟩ := hwrote.started
  obtain ⟨n, hlater, hinode⟩ := hwrote.later
  have hlen := length_overwrite (show pos ≤ (refs i).length by omega) buf count
  have hbase := hwritten.base
  have hino : ∀ j, ((σ.put i s').inode j).iIno = (σ.inode j).iIno := by
    refine (Function.forall_update_iff σ.inode fun j n ↦ n.iIno = (σ.inode j).iIno).2 ⟨?_, fun _ _ ↦ rfl⟩
    rw [hinode]
    exact (congrArg Inode.iIno hlater.fixed).trans rfl
  have hrange : s'.inode.InRange := by
    rw [hinode]
    have hle := h.le i
    have hfPos : (σ.file i pos).fPos = pos := rfl
    exact (h.inRange i).later hlater (by rw [hwrote.size, hfPos]; omega) _
  have hsynced : Synced V s'.fs s'.inode := by
    rcases hwrote.kept with hdirty | hsame
    · exact fun hclean ↦ absurd (hclean.symm.trans hdirty) Bool.false_ne_true
    · rw [hsame]
      exact h.synced_write hwritten _ (h.synced i)
  -- what the file gained is in use now, and its own
  refine ⟨U₁, Function.update own i (U₁ \ (U \ own i)), h.laid, fun j ↦ ?_, fun j ↦ ?_, fun j ↦ ?_, fun j hlt ↦ ?_,
    fun j ↦ ?_, h.disjoint_update i U₁, fun b hb ↦ h.rest_update hbase hb, fun b hb hdata ↦ ?_, h.meta_mem,
    fun j k hjk ↦ ?_, ?_, ?_⟩
  · rcases eq_or_ne j i with rfl | hj
    · simp only [Function.update_self, put]
      rw [hlen]
      exact Started.congr (started_self hwritten) fun x _ ↦ getD_overwrite (show pos ≤ _ by omega) buf count x
    · simp only [Function.update_of_ne hj, put]
      exact h.started_other hwritten hj
  · rcases eq_or_ne j i with rfl | hj
    · simp only [Function.update_self, put]
      rw [hlen, hwrote.size]
      rfl
    · simp only [Function.update_of_ne hj, put]
      exact h.size j
  · rcases eq_or_ne j i with rfl | hj
    · simp only [Function.update_self]
      rw [hlen]
      exact max_le (h.le j) hend
    · simp only [Function.update_of_ne hj]
      exact h.le j
  · rcases eq_or_ne j i with rfl | hj
    · exact hwrote.fits
    · simp only [Function.update_of_ne hj] at hlt
      exact h.fits j hlt
  · rcases eq_or_ne j i with rfl | hj
    · simp only [Function.update_self]
      exact Set.sdiff_subset
    · simp only [Function.update_of_ne hj]
      exact (h.own_sub hj).trans hbase
  · obtain ⟨hbU, hbown⟩ := h.rest b hb
    rw [← h.same b hb hdata]
    exact hwritten.others b ⟨hbU, hbown i⟩ (not_allocMeta_of_isData hdata)
  · rw [hino, hino]
    exact h.ino_ne j k hjk
  · exact (Function.forall_update_iff σ.inode fun _ n ↦ n.InRange).2 ⟨hrange, fun j _ ↦ h.inRange j⟩
  · exact (Function.forall_update_iff σ.inode fun _ n ↦ Synced V s'.fs n).2
      ⟨hsynced, fun j _ ↦ h.synced_write hwritten _ (h.synced j)⟩

/-- Every call keeps the invariant. -/
theorem Files.step (h : Files V R img U own σ refs) (hcall : Call (σ, refs) (σ', refs')) :
    ∃ U' own', Files V R img U' own' σ' refs' := by
  cases hcall with
  | write hpos hend _ hrun => exact h.write hpos hend hrun
  | @read _ _ i pos count stale r s' hrun =>
    obtain ⟨buf, p, hread, -⟩ := h.read i pos count stale
    obtain rfl : σ.file i p = s' := (Prod.mk.inj (hread.symm.trans hrun)).2
    have hsame : σ.put i (σ.file i p) = σ := by
      simp only [put, file, Function.update_eq_self]
    rw [hsame]
    exact ⟨U, own, h⟩
  | setGoal n => exact ⟨U, own, h.setGoal n⟩
  | reload hrelease hclean hget => exact ⟨U, own, h.reload hrelease hclean hget⟩

/-- The invariant of a whole run. -/
theorem Fresh.run (h : Fresh V U σ) (hrun : Relation.ReflTransGen Call (σ, fun _ ↦ []) (σ', refs)) :
    ∃ U' own, Files V U σ.fs.block U' own σ' refs := by
  generalize hend : (σ', refs) = x at hrun
  induction hrun generalizing σ' refs with
  | refl =>
    obtain ⟨rfl, rfl⟩ := Prod.mk.inj hend
    exact ⟨U, _, h.files⟩
  | @tail y z _ hcall ih =>
    subst hend
    obtain ⟨U', own, hfiles⟩ := @ih y.1 y.2 rfl
    exact hfiles.step hcall

/-- **Files are arrays of bytes.** After any run of calls on any of the files, a read of file `i` copies the
bytes of its own array, up to the end of the file, and no data block that was in use before is changed. It
returns the number of the bytes, where there are fewer than `2 ^ 31` of them. -/
theorem read_of_run (h : Fresh V U σ) (hrun : Relation.ReflTransGen Call (σ, fun _ ↦ []) (σ', refs)) :
    (∀ i, (σ'.inode i).iSize = (refs i).length ∧ ∀ pos count stale, ∃ r p,
      ext4FileRead stale count (σ'.file i pos) = (some r, σ'.file i p) ∧
        (∀ j < min count ((refs i).length - pos), (refs i)[pos + j]? = some (r.1 j)) ∧
        (ssizeT r.2 = min count ((refs i).length - pos) ↔ min count ((refs i).length - pos) < 2 ^ 31)) ∧
      ∀ b ∈ U, IsData V b → σ'.fs.block b = σ.fs.block b := by
  obtain ⟨U', own, hfiles⟩ := h.run hrun
  refine ⟨fun i ↦ ⟨hfiles.size i, fun pos count stale ↦ ?_⟩, hfiles.same⟩
  obtain ⟨buf, p, hread, hbytes⟩ := hfiles.read i pos count stale
  have hle := hfiles.le i
  refine ⟨_, p, hread, fun j hj ↦ ?_, ssizeT_eq_iff (by omega)⟩
  have hlt : pos + j < (refs i).length := by omega
  dsimp only
  rw [hbytes j hj, bytesOf, List.getD_eq_getElem _ _ hlt, List.getElem?_eq_getElem hlt]

/-- Two files on the small volume. -/
def smallFiles : OpenFiles Bool where
  fs := (smallFile 1).fs
  inode i := { (smallFile 1).inode with iIno := if i then 13 else 12, dirty := true }

theorem smallFiles_fresh :
    Fresh (Mkfs.volume 4096 64 Mkfs.smallSb.toSbGeom) (Mkfs.initialUsed 4096 64) smallFiles := by
  have hd := (BlockDevice.holds_blank 512 8 64 (by norm_num) (by norm_num)).1
  have hformatted := Mkfs.formatted_of_mkfs hd (by norm_num) Mkfs.mkfs_small (by unfold HasMagic; decide +kernel)
  have hlaid := Mkfs.mounted_small.1.tablesLaid hformatted.spaced (by norm_num) hformatted.total_pos
    hformatted.groups_pos (by unfold Mkfs.TablesBelow; decide +kernel)
  have hempty := smallFile_empty 1
  exact {
    laid := hlaid
    mounted := hempty.mounted
    empty := fun _ ↦ ⟨hempty.mounted, hempty.bs_ge, hempty.kind, hempty.pool, hempty.empty⟩
    size := fun _ ↦ rfl
    extents := fun _ ↦ show (smallFile 1).inode.hasExtents by decide
    ino_ne := by decide
    inRange := fun i ↦ by constructor <;> cases i <;> decide
    synced := fun _ hclean ↦ absurd hclean.symm Bool.false_ne_true }

/-- They are after `A` was written to the first. -/
def oneWritten : OpenFiles Bool :=
  smallFiles.put false (ext4FileWrite (fun _ ↦ 65) 1 (smallFiles.file false 0)).2

/-- And they are after `B` was written to the second. -/
def bothWritten : OpenFiles Bool :=
  oneWritten.put true (ext4FileWrite (fun _ ↦ 66) 1 (oneWritten.file true 0)).2

/-- The first file is closed. -/
def released : FsInode := (ext4FileRelease ⟨bothWritten.fs, bothWritten.inode false⟩).2

/-- Its inode is read again. -/
def reread : Option Inode × Fs :=
  Fs.ext4Iget (bothWritten.inode false).iIno { released.fs with superPool := released.fs.superPool + 1 }

/-- And they are after the first was closed and opened again. -/
def reopened : OpenFiles Bool :=
  ⟨reread.2, Function.update bothWritten.inode false (reread.1.getD (bothWritten.inode false))⟩

theorem read_of_run_small : ∃ r p, ext4FileRead (fun _ ↦ none) 5 (reopened.file false 0) =
    (some r, reopened.file false p) ∧ ssizeT r.2 = 1 ∧ r.1 0 = 65 := by
  have hfirst : ext4FileWrite (fun _ ↦ 65) 1 (smallFiles.file false 0) = (some 1, _) :=
    eq_of_fst_eq (by decide +kernel)
  have hsecond : ext4FileWrite (fun _ ↦ 66) 1 (oneWritten.file true 0) = (some 1, _) :=
    eq_of_fst_eq (by decide +kernel)
  have hrelease : ext4FileRelease ⟨bothWritten.fs, bothWritten.inode false⟩ = (some (), released) :=
    eq_of_fst_eq (by decide +kernel)
  have hclean : released.inode.dirty = false := by decide +kernel
  obtain ⟨inode, hinode⟩ := Option.isSome_iff_exists.1 (show reread.1.isSome = true by decide +kernel)
  have hget : reread = (some inode, reread.2) := eq_of_fst_eq hinode
  have hreopened : reopened = ⟨reread.2, Function.update bothWritten.inode false inode⟩ := by
    rw [reopened, hinode, Option.getD_some]
  have hcall₁ : Call (smallFiles, fun _ ↦ []) (oneWritten, _) :=
    .write (Nat.zero_le _) (by norm_num) (by norm_num) hfirst
  have hcall₂ : ∀ refs, Call (oneWritten, refs) (bothWritten, _) := fun _ ↦
    .write (Nat.zero_le _) (by norm_num) (by norm_num) hsecond
  have hcall₃ : ∀ refs, Call (bothWritten, refs) (reopened, refs) := fun _ ↦ by
    rw [hreopened]
    exact .reload hrelease hclean (show Fs.ext4Iget _ _ = _ from hget)
  have hrun := ((Relation.ReflTransGen.single hcall₁).tail (hcall₂ _)).tail (hcall₃ _)
  obtain ⟨r, p, hread, hbyte, hcount⟩ := ((read_of_run smallFiles_fresh hrun).1 false).2 0 5 fun _ ↦ none
  exact ⟨r, p, hread, hcount.2 (by decide), (Option.some.inj (hbyte 0 (by decide))).symm⟩

end OpenFiles

end MiniExt4
