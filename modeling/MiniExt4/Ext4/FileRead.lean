import MiniExt4.Ext4.ExtentFail
import MiniExt4.Ext4.FileOffsets

/-!
# Reading a regular file

`ext4_extents_map_blocks` is a lookup of several blocks at once. Where it finds nothing, it goes by a
variable that was never initialised, so it agrees with `ext4_extents_get_block` only on blocks that are
mapped, or where the stack holds a null pointer (`FsInode.agreesMap_iff`). `ext4_file_read` stops at the
first block that is not mapped, and so reads what it is asked for only where there is no hole in it
(`FsFile.readsAll_iff`).

The number of bytes is proved before anything is said of their contents: an iteration either moves at least
one byte or ends the loop, and it ends early exactly at a block that is not mapped. The variable that was
never initialised is an argument of the model (`stale`), so that what depends on it shows in the statements.
-/

namespace MiniExt4

open StateErr Keyed ExtTree

/-! ### Trees whose extents do not overlap -/

namespace ExtTree

variable {d m lo first hi x y b : ℕ} {t : ExtTree d}

/-- Every extent ends before the range of its leaf does. -/
def Inside : {d : ℕ} → (lo hi : ℕ) → ExtTree d → Prop
  | 0, _, hi, t => ∀ e ∈ t, e.stop ≤ hi
  | _ + 1, lo, hi, t => Divides entryKey (fun lo hi c ↦ Inside lo hi c.2) hi lo t

/-- What the search in the leaf for `x` finds has `x`, and maps what comes after `x` too. -/
theorem path_find {rd : ℕ → Buf} {cap : ℕ} {node : PathNode} {e : Extent}
    (hholds : t.Holds rd cap m node.eh) (ht : t.Ordered lo first hi) (hin : t.Inside lo hi)
    (hfind : ((t.path rd x node).head?.bind fun leaf ↦ ext4ExtentsFind leaf.eh x) = some e) :
    e.eeBlock ≤ x ∧ x < e.stop ∧ e.stop ≤ hi ∧
      ∀ y, x ≤ y → y < e.stop → t.Maps y (e.eeStart + (y - e.eeBlock)) := by
  induction d generalizing node m lo first hi with
  -- a leaf is searched by its extents
  | zero =>
    have hnode := hholds.1
    have hleaf : Leaf lo hi t := ht
    have hext : Node.extents node.eh = t := by
      have hlist := hnode.list
      rw [← hnode.header.entries] at hlist
      exact hlist
    simp only [path, List.head?_cons, Option.bind_some, ext4ExtentsFind, hnode.header.magic, ne_eq,
      not_true_eq_false, if_false, hext, findExtent_eq_some_iff hleaf.sorted hleaf.ok] at hfind
    obtain ⟨he, hle, hlt⟩ := hfind
    exact ⟨hle, hlt, hin e he, fun y hxy hy ↦ ⟨e, he, by omega, hy, rfl⟩⟩
  | succ d ih =>
    -- an inner node has the key in one child, and the path goes on there
    obtain ⟨pre, c, post, rfl, hfocus⟩ := exists_focus entryKey x ht.ne_nil
    have hpath : @path rd x (d + 1) node (pre ++ c :: post) =
        path rd x ⟨rd c.1.eiLeaf, c.1.eiLeaf⟩ c.2 ++ [node] := by
      rw [path, hfocus.locate ht.sorted]
    have hne : c.2.path rd x ⟨rd c.1.eiLeaf, c.1.eiLeaf⟩ ≠ [] := FsInode.path_ne_nil
    obtain ⟨leaf, up, hleaf⟩ := List.exists_cons_of_ne_nil hne
    have hfind' : ((c.2.path rd x ⟨rd c.1.eiLeaf, c.1.eiLeaf⟩).head?.bind
        fun leaf ↦ ext4ExtentsFind leaf.eh x) = some e := by
      rw [hpath, hleaf] at hfind
      rw [hleaf]
      exact hfind
    have hbelow := (show Divides entryKey _ hi lo (pre ++ c :: post) from hin).focus
    have hchild : Holds rd cap cap (PathNode.eh ⟨rd c.1.eiLeaf, c.1.eiLeaf⟩) c.2 :=
      hholds.2.2 c (by simp)
    obtain ⟨hle, hlt, hstop, hmaps⟩ := ih hchild ht.2.focus.2.2 hbelow hfind'
    refine ⟨hle, hlt, hstop.trans ?_, fun y hxy hy ↦ ?_⟩
    · exact (FsInode.headKey_le ht).1
    · -- the blocks after `x` are looked up in the same child
      have hfocus' : Focus entryKey y pre c post :=
        ⟨fun hpre ↦ (hfocus.le hpre).trans hxy, fun p hp ↦ by
          have hkey : headKey entryKey hi post = entryKey p := by
            rw [headKey, hp]
            rfl
          omega⟩
      exact (ht.maps_focus hfocus').2 (hmaps y hxy hy)

end ExtTree

namespace FsInode

variable {V : Volume} {U : Set ℕ} {s : FsInode} {d x b maxBlocks : ℕ} {t : ExtTree d}
  {stale : Option Extent}

/-! ### A run of mapped blocks -/

/-- What `ext4_extents_map_blocks` makes of `ex`. -/
def runOf (lblock maxBlocks : ℕ) : Option Extent → Option (ℕ × ℕ)
  | none => some (0, 0)
  | some ex =>
    if ex.eeBlock ≤ lblock ∧ lblock - ex.eeBlock < ex.eeLen then
      some (u32 (ex.eeStart + (lblock - ex.eeBlock)),
        if ex.eeLen - (lblock - ex.eeBlock) > maxBlocks then maxBlocks
        else ex.eeLen - (lblock - ex.eeBlock))
    else none

/-- The extent that the search in the leaf for `x` finds. -/
def found (s : FsInode) (t : ExtTree d) (x : ℕ) : Option Extent :=
  (t.path s.fs.block x s.rootNode).head?.bind fun leaf ↦ ext4ExtentsFind leaf.eh x

theorem Tree.mapBlocks_eq (h : Tree V U s t) (x : ℕ) (hmax : maxBlocks ≠ 0) (stale : Option Extent) :
    ext4ExtentsMapBlocks stale x maxBlocks s = (runOf x maxBlocks ((s.found t x).or stale), s) := by
  obtain ⟨_, hheader⟩ := h.holds.header
  unfold ext4ExtentsMapBlocks
  rw [guard_true hmax, pure_bind', get_bind, if_neg (not_not_intro hheader.magic),
    bind_of_eq_some (h.readPath x), bind_of_eq_some (freePath_eq h x), ← found]
  rcases (s.found t x).or stale with _ | ex
  · rfl
  · dsimp only
    rw [runOf]
    by_cases hle : ex.eeBlock ≤ x
    swap
    · rw [guard_false hle, fail_bind, fail_apply, if_neg fun hc ↦ hle hc.1]
    by_cases hlt : x - ex.eeBlock < ex.eeLen
    swap
    · rw [guard_true hle, pure_bind', guard_false hlt, fail_bind, fail_apply, if_neg fun hc ↦ hlt hc.2]
    rw [guard_true hle, pure_bind', guard_true hlt, pure_bind',
      if_pos (show ex.eeBlock ≤ x ∧ x - ex.eeBlock < ex.eeLen from ⟨hle, hlt⟩)]
    rfl

/-- The search finds nothing exactly where nothing is mapped. -/
theorem Tree.found_eq_none_iff (h : Tree V U s t) : s.found t x = none ↔ ∀ b, ¬ t.Maps x b := by
  obtain ⟨first, hord⟩ := h.ordered
  have hlookup := fun b ↦ @path_lookup _ _ _ _ _ x b t s.fs.block _ s.rootNode h.holds hord
    fun b hb ↦ h.lt_two_pow hb
  have hmap : (t.path s.fs.block x s.rootNode).head?.bind
      (fun leaf ↦ ext4ExtentsLookupMapped leaf.eh x) =
        (s.found t x).map fun ex ↦ u32 (ex.eeStart + (x - ex.eeBlock)) := by
    rw [found, Option.map_bind]
    rfl
  simp only [hmap] at hlookup
  constructor
  · intro hnone b hb
    have := (hlookup b).2 hb
    simp [hnone] at this
  · intro hfree
    rcases hfound : s.found t x with _ | ex
    · rfl
    · rw [hfound] at hlookup
      exact absurd ((hlookup _).1 rfl) (hfree _)

/-- **A run starts at a mapped block and is mapped throughout.** -/
theorem Tree.mapBlocks_of_maps (h : Tree V U s t) (hin : t.Inside 0 (2 ^ 32)) (hmax : maxBlocks ≠ 0)
    (hb : t.Maps x b) (stale : Option Extent) :
    ∃ len, 1 ≤ len ∧ len ≤ maxBlocks ∧ ext4ExtentsMapBlocks stale x maxBlocks s = (some (b, len), s) ∧
      ∀ k < len, t.Maps (x + k) (b + k) := by
  obtain ⟨first, hord⟩ := h.ordered
  obtain ⟨ex, hfound⟩ := Option.ne_none_iff_exists'.1 fun hnone ↦ h.found_eq_none_iff.1 hnone b hb
  obtain ⟨hle, hlt, -, hmaps⟩ := path_find h.holds hord hin hfound
  have hunique : ∀ {c}, t.Maps x c → c = b := by
    intro c hc
    have hlookup := fun b ↦ @path_lookup _ _ _ _ _ x b t s.fs.block _ s.rootNode h.holds hord
      fun b hb ↦ h.lt_two_pow hb
    exact Option.some.inj (((hlookup c).2 hc).symm.trans ((hlookup b).2 hb))
  have hstart : ex.eeStart + (x - ex.eeBlock) = b := hunique (hmaps x le_rfl hlt)
  have hwrap : u32 b = b := u32_of_lt (h.lt_two_pow hb.mem_blocks)
  unfold Extent.stop at hlt hmaps
  refine ⟨if ex.eeLen - (x - ex.eeBlock) > maxBlocks then maxBlocks else ex.eeLen - (x - ex.eeBlock),
    ?_, ?_, ?_, fun k hk ↦ ?_⟩
  · split <;> omega
  · split <;> omega
  · rw [h.mapBlocks_eq x hmax stale, hfound, Option.some_or, runOf,
      if_pos ⟨hle, by omega⟩, hstart, hwrap]
  · have hk' : k < ex.eeLen - (x - ex.eeBlock) := by
      split at hk <;> omega
    have := hmaps (x + k) (by omega) (by omega)
    rwa [show ex.eeStart + (x + k - ex.eeBlock) = b + k by omega] at this

/-- Where nothing is mapped, what the stack holds decides. -/
theorem Tree.mapBlocks_of_not_maps (h : Tree V U s t) (hmax : maxBlocks ≠ 0)
    (hfree : ∀ b, ¬ t.Maps x b) (stale : Option Extent) :
    ext4ExtentsMapBlocks stale x maxBlocks s = (runOf x maxBlocks stale, s) := by
  rw [h.mapBlocks_eq x hmax stale, h.found_eq_none_iff.2 hfree, Option.none_or]

/-- `ext4_extents_map_blocks` agrees with `ext4_extents_get_block` at `x`: it finds no run exactly where
the block is not mapped, and a run of up to `maxBlocks` blocks elsewhere. -/
structure AgreesMap (stale : Option Extent) (x maxBlocks : ℕ) (s : FsInode) : Prop where
  unmapped : (∃ b, (ext4ExtentsMapBlocks stale x maxBlocks s).1 = some (b, 0)) ↔
    (ext4ExtentsGetBlock x false s).1 = some (0, false)
  mapped : (ext4ExtentsGetBlock x false s).1 ≠ some (0, false) →
    ∃ b len, (ext4ExtentsMapBlocks stale x maxBlocks s).1 = some (b, len) ∧ 1 ≤ len ∧
      len ≤ maxBlocks ∧ ∀ k < len, (ext4ExtentsGetBlock (x + k) false s).1 = some (b + k, false)

theorem Tree.getBlock_eq_of_maps (h : Tree V U s t) (hb : t.Maps x b) :
    (ext4ExtentsGetBlock x false s).1 = some (b, false) := (h.resolves_iff.2 hb).2

/-- **The two maps agree where the block is mapped, and where it is not only if the variable happens to
be a null pointer.** -/
theorem agreesMap_iff (h : Tree V U s t) (hin : t.Inside 0 (2 ^ 32)) (x : ℕ) (hmax : 1 ≤ maxBlocks)
    (stale : Option Extent) :
    AgreesMap stale x maxBlocks s ↔ (∃ b, Resolves s x b) ∨ stale = none := by
  have hne : maxBlocks ≠ 0 := by omega
  rcases h.getBlock x false with ⟨b, hb, hrun⟩ | ⟨hfree, hrun⟩
  · -- the block is mapped
    refine iff_of_true ?_ (.inl ⟨b, h.resolves_iff.2 hb⟩)
    obtain ⟨len, hlen, hle, hmap, hmaps⟩ := h.mapBlocks_of_maps hin hne hb stale
    have hpos : b ≠ 0 := (h.used _ hb.mem_blocks).2.1
    refine ⟨?_, fun _ ↦ ⟨b, len, by rw [hmap], hlen, hle, fun k hk ↦ h.getBlock_eq_of_maps (hmaps k hk)⟩⟩
    rw [hmap, hrun]
    simp [hpos]
    omega
  · have hno : ¬ ∃ b, Resolves s x b := fun ⟨b, hb⟩ ↦ hfree b (h.resolves_iff.1 hb)
    have hget : (ext4ExtentsGetBlock x false s).1 = some (0, false) := by
      rw [hrun]
      rfl
    rw [or_iff_right hno]
    constructor
    · intro hagrees
      obtain ⟨b, hb⟩ := hagrees.unmapped.2 hget
      rw [h.mapBlocks_of_not_maps hne hfree stale] at hb
      rcases stale with _ | ex
      · rfl
      · -- a run of what the pointer points at is not empty
        simp only [runOf] at hb
        split at hb
        · rename_i hin
          have := congrArg Prod.snd (Option.some.inj hb)
          simp only at this
          split at this <;> omega
        · simp at hb
    · rintro rfl
      refine ⟨?_, fun hmapped ↦ absurd hget hmapped⟩
      rw [h.mapBlocks_of_not_maps hne hfree none, hget]
      simp [runOf]

theorem agreesMap_iff_small : AgreesMap (some ⟨0, 1, 9⟩) 2 4 fullFile :=
  (agreesMap_iff fullFile_tree (show ∀ e ∈ fullTree, e.stop ≤ 2 ^ 32 by decide) 2 (by norm_num) _).2
    (.inl ⟨10, by norm_num, by decide +kernel⟩)

/-- Block 3 is in a hole of the file. The pointer is still that to the first extent, from an earlier
call, and the call fails. -/
theorem not_agreesMap_hole : ¬ AgreesMap (some ⟨0, 1, 9⟩) 3 4 fullFile := by
  intro h
  obtain ⟨b, hb⟩ := h.unmapped.2 (by decide +kernel)
  have hfails : (ext4ExtentsMapBlocks (some ⟨0, 1, 9⟩) 3 4 fullFile).1 = none := by decide +kernel
  simp [hfails] at hb

end FsInode

/-! ### Runs of blocks -/

/-- What is read of a run of `k` blocks from block `b` on. -/
theorem BlockDevice.Usable.readBlocks {d : BlockDevice} {bs n b k : ℕ} (h : d.Usable bs n)
    (hb : b + k ≤ n) (hk : 0 < k) (hwrap : k * bs < 2 ^ 32) :
    ext4ReadBlocks bs b k d = (some (Buf.zero.blit 0 d.media (b * bs) (k * bs)), d) := by
  have hpos := h.sectorsPerBlock_pos
  have hle : k * (bs / d.bdSectorSize) ≤ k * bs := Nat.mul_le_mul_left _ (Nat.div_le_self _ _)
  unfold ext4ReadBlocks
  simp only [h.ext4SectorsPerBlock_eq]
  rw [if_neg (by omega), Nat.mod_eq_of_lt (by omega),
    blkdevReadSectors_quiet h.quiet (Nat.mul_pos hk hpos) (h.sectors_le hb), h.sectors_mul, h.sectors_mul]

/-- Byte `i` of a run is byte `i % bs` of its block `i / bs`. -/
theorem BlockDevice.blit_media_apply (d : BlockDevice) {bs b k i : ℕ} (hbs : 0 < bs)
    (hi : i < k * bs) :
    (Buf.zero.blit 0 d.media (b * bs) (k * bs)) i = d.block bs (b + i / bs) (i % bs) := by
  have hdm := Nat.div_add_mod' i bs
  rw [Buf.blit_in (by omega) (by omega), BlockDevice.block, Buf.clip_of_lt _ (Nat.mod_lt _ hbs),
    Nat.add_mul]
  congr 1
  omega

namespace FsFile

variable {V : Volume} {U : Set ℕ} {s : FsFile} {d p count : ℕ} {t : ExtTree d}
  {stale : Option Extent}

/-! ### Files with holes -/

/-- A regular file with extents that do not overlap. Any logical block may be in a hole. -/
structure Sparse (V : Volume) (U : Set ℕ) (s : FsFile) {d : ℕ} (t : ExtTree d) : Prop where
  tree : FsInode.Tree V U s.toFsInode t
  inside : t.Inside 0 (2 ^ 32)
  regular : sIsreg s.inode.iMode
  extents : s.inode.hasExtents

/-- The byte of position `p` is in a block that is mapped. -/
def MappedAt (s : FsFile) (p : ℕ) : Prop :=
  ∃ b, FsInode.Resolves s.toFsInode (p / s.fs.blockSize) b

/-- `v` is the byte of the file at position `p`: that of the block which is mapped there, and zero in a
hole. -/
def ByteAt (s : FsFile) (p : ℕ) (v : Byte) : Prop :=
  (∀ b, FsInode.Resolves s.toFsInode (p / s.fs.blockSize) b →
    v = s.fs.block b (p % s.fs.blockSize)) ∧ (¬ s.MappedAt p → v = 0)

theorem Sparse.advance (h : Sparse V U s t) (n : ℕ) : Sparse V U { s with fPos := n } t :=
  ⟨h.tree, h.inside, h.regular, h.extents⟩

theorem Sparse.blockSize (h : Sparse V U s t) : s.fs.blockSize = V.bs := h.tree.mounted.blockSize

theorem Sparse.mappedAt_iff (h : Sparse V U s t) :
    s.MappedAt p ↔ ∃ b, t.Maps (p / s.fs.blockSize) b :=
  exists_congr fun _ ↦ h.tree.resolves_iff

theorem Sparse.byteAt (h : Sparse V U s t) {b : ℕ} (hb : t.Maps (p / s.fs.blockSize) b) :
    s.MappedAt p ∧ s.ByteAt p (s.fs.block b (p % s.fs.blockSize)) := by
  have hresolves := h.tree.resolves_iff.2 hb
  refine ⟨⟨b, hresolves⟩, fun c hc ↦ ?_, fun hno ↦ absurd ⟨b, hresolves⟩ hno⟩
  have heq : some (b, false) = some (c, false) := hresolves.2.symm.trans hc.2
  obtain rfl : b = c := by simpa using heq
  rfl

/-- Reading a run of blocks leaves everything as it is. -/
theorem Sparse.readRun (h : Sparse V U s t) {b k : ℕ} (hb : b + k ≤ V.blocks) (hk : 0 < k)
    (hle : k ≤ 64) : ∃ buf, onFs (Fs.readRun b k) s = (some buf, s) ∧
      ∀ i < k * s.fs.blockSize, buf i = s.fs.block (b + i / s.fs.blockSize) (i % s.fs.blockSize) := by
  have husable := h.tree.mounted.usable
  have hbs := h.tree.bs_ge
  have hbs' := h.tree.mounted.wf.bs_le
  have hsize := h.blockSize
  by_cases hone : k > 1
  · have hwrap : k * s.fs.blockSize < 2 ^ 32 := by
      calc k * s.fs.blockSize ≤ 64 * 65536 := Nat.mul_le_mul hle (by omega)
        _ < 2 ^ 32 := by norm_num
    have hread := BlockDevice.Usable.readBlocks husable hb hk hwrap
    refine ⟨_, ?_, fun i hi ↦ s.fs.dev.blit_media_apply (by omega) hi⟩
    rw [Fs.readRun, if_pos hone, onFs, onInode, zoom_apply, FsInode.onFs, zoom_apply, Fs.readBlocks,
      Fs.io, zoom_apply, hread]
  · obtain rfl : k = 1 := by omega
    have hread := husable.readBlock (show b < V.blocks by omega)
    refine ⟨s.fs.block b, ?_, fun i hi ↦ ?_⟩
    · rw [Fs.readRun, if_neg hone, onFs, onInode, zoom_apply, FsInode.onFs, zoom_apply, hread]
    · rw [Nat.one_mul] at hi
      rw [Nat.div_eq_of_lt hi, Nat.mod_eq_of_lt hi, Nat.add_zero]

/-- The map of a regular file is its tree. -/
theorem Sparse.getDataBlock (h : Sparse V U s t) (x : ℕ) :
    FsInode.ext4GetDataBlock x false s.toFsInode = FsInode.ext4ExtentsGetBlock x false s.toFsInode := by
  unfold FsInode.ext4GetDataBlock
  rw [get_bind, if_pos h.regular]
  simp only [Bool.false_eq_true, false_and, if_false]
  rw [get_bind, if_pos h.extents]

theorem Sparse.getBlock_eq_of_maps (h : Sparse V U s t) {x b : ℕ} (hb : t.Maps x b) :
    FsInode.ext4ExtentsGetBlock x false s.toFsInode = (some (b, false), s.toFsInode) := by
  rcases h.tree.getBlock x false with ⟨c, -, hrun⟩ | ⟨hfree, -⟩
  · have hval := h.tree.getBlock_eq_of_maps hb
    rw [hrun] at hval ⊢
    obtain rfl : c = b := by simpa using hval
    rfl
  · exact absurd hb (hfree b)

/-- The logical block of a position below `2 ^ 32`. -/
theorem blockIdx_of_lt (bs : ℕ) (hp : p < 2 ^ 32) : blockIdx bs p = p / bs ∧ offInBlock bs p = p % bs := by
  rw [blockIdx, offInBlock, u32_of_lt hp]
  exact ⟨rfl, rfl⟩

/-- The block and the offset of a position behind `q`, counted on from those of `q`. -/
theorem place_add {bs : ℕ} (hbs : 0 < bs) (q i : ℕ) :
    (q + i) / bs = q / bs + (q % bs + i) / bs ∧ (q + i) % bs = (q % bs + i) % bs := by
  have hsum : q + i = bs * (q / bs) + (q % bs + i) := by
    have := Nat.div_add_mod q bs
    omega
  refine ⟨?_, ?_⟩
  · conv_lhs => rw [hsum]
    exact Nat.mul_add_div hbs _ _
  · conv_lhs => rw [hsum]
    exact Nat.mul_add_mod _ _ _

/-- What an iteration leaves that reads `n` bytes. -/
structure StepRead (s : FsFile) (count n : ℕ) (buf : Buf) : Prop where
  pos : 0 < n
  le : n ≤ count
  bytes : ∀ i < n, s.MappedAt (s.fPos + i) ∧ s.ByteAt (s.fPos + i) (buf i)

/-- Where the position is in a block that is mapped, an iteration reads on. -/
theorem Sparse.readStep_mapped (h : Sparse V U s t) (hcount : 0 < count)
    (hend : s.fPos + count ≤ 2 ^ 32) (hmap : s.MappedAt s.fPos) (stale : Option Extent) :
    ∃ buf n, readStep stale count s = (some (some (buf, n)), { s with fPos := s.fPos + n }) ∧
      StepRead s count n buf := by
  obtain ⟨b, hb⟩ := h.mappedAt_iff.1 hmap
  have hbs := h.tree.bs_ge
  have hsize := h.blockSize
  have hpos : b ≠ 0 := (h.tree.used _ hb.mem_blocks).2.1
  obtain ⟨hidx, hoff⟩ := blockIdx_of_lt s.fs.blockSize (show s.fPos < 2 ^ 32 by omega)
  have hmod := Nat.mod_lt s.fPos (show s.fs.blockSize > 0 by omega)
  unfold readStep
  rw [get_bind]
  rw [hidx, hoff]
  by_cases hwhole : s.fPos % s.fs.blockSize = 0 ∧ toCopy s.fs.blockSize s.fPos count =
    s.fs.blockSize ∧ sIsreg s.inode.iMode ∧ s.inode.hasExtents
  · -- a run of whole blocks
    rw [if_pos hwhole]
    have hle : s.fs.blockSize ≤ count := by
      have := hwhole.2.1
      unfold toCopy at this
      split at this <;> omega
    have hmax : maxRun s.fs.blockSize count ≠ 0 ∧ maxRun s.fs.blockSize count ≤ 64 ∧
        maxRun s.fs.blockSize count ≤ count / s.fs.blockSize := by
      have := Nat.div_pos hle (by omega)
      unfold maxRun
      split <;> omega
    obtain ⟨len, hlen, hlenle, hrun, hmaps⟩ := h.tree.mapBlocks_of_maps h.inside hmax.1 hb stale
    have hbytes : len * s.fs.blockSize ≤ count :=
      (Nat.mul_le_mul_right _ (hlenle.trans hmax.2.2)).trans (Nat.div_mul_le_self _ _)
    have hlast := (h.tree.used _ (hmaps (len - 1) (by omega)).mem_blocks).2.2.1
    obtain ⟨buf, hread, hbuf⟩ := h.readRun (show b + len ≤ V.blocks by omega) hlen (by omega)
    have hrun' : onInode (FsInode.ext4ExtentsMapBlocks stale (s.fPos / s.fs.blockSize)
        (maxRun s.fs.blockSize count)) s = (some (b, len), s) := by
      rw [onInode, zoom_apply, hrun]
    refine ⟨buf, len * s.fs.blockSize, ?_, Nat.mul_pos hlen (by omega), hbytes, fun i hi ↦ ?_⟩
    · rw [bind_of_eq_some hrun', if_neg (by omega), bind_of_eq_some hread]
      rfl
    · have hk : i / s.fs.blockSize < len := Nat.div_lt_of_lt_mul (by rwa [Nat.mul_comm])
      obtain ⟨hdiv, hrem⟩ := place_add (show 0 < s.fs.blockSize by omega) s.fPos i
      rw [hwhole.1, Nat.zero_add] at hdiv hrem
      have hi' : t.Maps ((s.fPos + i) / s.fs.blockSize) (b + i / s.fs.blockSize) := by
        rw [hdiv]
        exact hmaps _ hk
      rw [hbuf i hi, ← hrem]
      exact h.byteAt hi'
  · -- part of one block
    rw [if_neg hwhole]
    have hget : onInode (FsInode.ext4GetDataBlock (s.fPos / s.fs.blockSize) false) s =
        (some (b, false), s) := by
      rw [onInode, zoom_apply, h.getDataBlock, h.getBlock_eq_of_maps hb]
    have hread : onFs (Fs.readBlock b) s = (some (s.fs.block b), s) := by
      rw [onFs, onInode, zoom_apply, FsInode.onFs, zoom_apply,
        h.tree.mounted.usable.readBlock (h.tree.used _ hb.mem_blocks).2.2.1]
    have hcopy : 0 < toCopy s.fs.blockSize s.fPos count ∧
        toCopy s.fs.blockSize s.fPos count ≤ count ∧
          s.fPos % s.fs.blockSize + toCopy s.fs.blockSize s.fPos count ≤ s.fs.blockSize := by
      rw [toCopy, hoff]
      split <;> omega
    refine ⟨Buf.zero.blit 0 (s.fs.block b) (s.fPos % s.fs.blockSize) (toCopy s.fs.blockSize s.fPos count),
      toCopy s.fs.blockSize s.fPos count, ?_, hcopy.1, hcopy.2.1, fun i hi ↦ ?_⟩
    · rw [bind_of_eq_some hget, if_neg hpos, bind_of_eq_some hread]
      rfl
    · obtain ⟨hdiv, hrem⟩ := place_add (show 0 < s.fs.blockSize by omega) s.fPos i
      have hin : s.fPos % s.fs.blockSize + i < s.fs.blockSize := by omega
      rw [Nat.div_eq_of_lt hin, Nat.add_zero] at hdiv
      rw [Nat.mod_eq_of_lt hin] at hrem
      rw [Buf.blit_in (by omega) (by omega), Nat.sub_zero, ← hrem]
      exact h.byteAt (by rwa [hdiv])

/-- Where it is in a hole, and the stack holds a null pointer, the loop ends. -/
theorem Sparse.readStep_hole (h : Sparse V U s t) (hpos : s.fPos < 2 ^ 32)
    (hhole : ¬ s.MappedAt s.fPos) : readStep none count s = (some none, s) := by
  have hbs := h.tree.bs_ge
  have hsize := h.blockSize
  have hfree : ∀ b, ¬ t.Maps (s.fPos / s.fs.blockSize) b := fun b hb ↦
    hhole (h.mappedAt_iff.2 ⟨b, hb⟩)
  obtain ⟨hidx, hoff⟩ := blockIdx_of_lt s.fs.blockSize hpos
  unfold readStep
  rw [get_bind, hidx, hoff]
  by_cases hwhole : s.fPos % s.fs.blockSize = 0 ∧ toCopy s.fs.blockSize s.fPos count =
    s.fs.blockSize ∧ sIsreg s.inode.iMode ∧ s.inode.hasExtents
  · rw [if_pos hwhole]
    have hmax : maxRun s.fs.blockSize count ≠ 0 := by
      have hle : s.fs.blockSize ≤ count := by
        have := hwhole.2.1
        unfold toCopy at this
        split at this <;> omega
      have := Nat.div_pos hle (by omega)
      unfold maxRun
      split <;> omega
    have hrun : onInode (FsInode.ext4ExtentsMapBlocks none (s.fPos / s.fs.blockSize)
        (maxRun s.fs.blockSize count)) s = (some (0, 0), s) := by
      rw [onInode, zoom_apply, h.tree.mapBlocks_of_not_maps hmax hfree]
      rfl
    rw [bind_of_eq_some hrun, if_pos (.inl rfl)]
    rfl
  · rw [if_neg hwhole]
    have hget : onInode (FsInode.ext4GetDataBlock (s.fPos / s.fs.blockSize) false) s =
        (some (0, false), s) := by
      rw [onInode, zoom_apply, h.getDataBlock]
      rcases h.tree.getBlock (s.fPos / s.fs.blockSize) false with ⟨b, hb, -⟩ | ⟨-, hrun⟩
      · exact absurd hb (hfree b)
      · rw [hrun]
        rfl
    rw [bind_of_eq_some hget, if_pos rfl]
    rfl

/-! ### The loop -/

/-- What the loop leaves that has read `k` bytes behind the `read` bytes of `buf`. -/
structure LoopRead (s : FsFile) (count k read : ℕ) (buf buf' : Buf) : Prop where
  le : k ≤ count
  kept : ∀ i < read, buf' i = buf i
  bytes : ∀ i < k, s.MappedAt (s.fPos + i) ∧ s.ByteAt (s.fPos + i) (buf' (read + i))
  /-- It ends before the last byte only in a hole. -/
  stops : k < count → ¬ s.MappedAt (s.fPos + k)

/-- The loop reads on up to the first hole, if there is none or the stack holds null pointers. -/
theorem readLoop_spec {stale : ℕ → Option Extent} {fuel read : ℕ} {buf : Buf} (h : Sparse V U s t)
    (hfuel : count ≤ fuel) (hend : s.fPos + count ≤ 2 ^ 32)
    (hstale : (∀ i < count, s.MappedAt (s.fPos + i)) ∨ stale = fun _ ↦ none) :
    ∃ buf' k, readLoop stale fuel count buf read s =
      (some (buf', read + k), { s with fPos := s.fPos + k }) ∧ LoopRead s count k read buf buf' := by
  induction fuel generalizing s count read buf with
  | zero =>
    exact ⟨buf, 0, rfl, Nat.zero_le _, fun _ _ ↦ rfl, fun _ hi ↦ by omega, fun hlt ↦ by omega⟩
  | succ fuel ih =>
    unfold readLoop
    by_cases hcount : count > 0
    swap
    · rw [if_neg hcount]
      exact ⟨buf, 0, rfl, Nat.zero_le _, fun _ _ ↦ rfl, fun _ hi ↦ by omega, fun hlt ↦ by omega⟩
    rw [if_pos hcount]
    -- the induction goes over what is left to read; a step takes a part of it or ends at a hole
    by_cases hmap : s.MappedAt s.fPos
    · obtain ⟨out, n, hstep, hn⟩ := h.readStep_mapped hcount hend hmap (stale read)
      have hpos := hn.pos
      have hle := hn.le
      have hrest : (∀ i < count - n, MappedAt { s with fPos := s.fPos + n } (s.fPos + n + i)) ∨
          stale = fun _ ↦ none := by
        refine hstale.imp_left fun hall i hi ↦ ?_
        have := hall (n + i) (by omega)
        rwa [← Nat.add_assoc] at this
      obtain ⟨buf', k, hloop, hk⟩ := @ih { s with fPos := s.fPos + n } (count - n) (read + n)
        (buf.blit read out 0 n) (h.advance _) (by omega) (show s.fPos + n + (count - n) ≤ 2 ^ 32 by omega) hrest
      have hkle := hk.le
      refine ⟨buf', n + k, ?_, by omega, fun i hi ↦ ?_, fun i hi ↦ ?_, fun hlt ↦ ?_⟩
      · rw [bind_of_eq_some hstep]
        dsimp only
        rw [hloop, Nat.add_assoc, Nat.add_assoc]
      · rw [hk.kept i (by omega), Buf.blit_out (.inl hi)]
      · by_cases hin : i < n
        · rw [hk.kept _ (by omega), Buf.blit_in (by omega) (by omega), show 0 + (read + i - read) = i by omega]
          exact hn.bytes i hin
        · have := hk.bytes (i - n) (by omega)
          rwa [show s.fPos + n + (i - n) = s.fPos + i by omega,
            show read + n + (i - n) = read + i by omega] at this
      · have := hk.stops (by omega)
        rwa [Nat.add_assoc] at this
    · -- only null pointers are left
      have hnull : stale = fun _ ↦ none := hstale.resolve_left fun hall ↦ hmap (hall 0 hcount)
      refine ⟨buf, 0, ?_, Nat.zero_le _, fun _ _ ↦ rfl, fun _ hi ↦ by omega, fun _ ↦ hmap⟩
      rw [hnull, bind_of_eq_some (h.readStep_hole (by omega) hmap)]
      rfl

/-! ### What a call returns -/

/-- `ssize_t` has 32 bits. -/
def ssizeT (n : ℕ) : ℤ := (BitVec.ofNat 32 n).toInt

/-- It holds the counts below half its range. -/
theorem ssizeT_eq_iff {n : ℕ} (h : n ≤ 2 ^ 32) : ssizeT n = n ↔ n < 2 ^ 31 := by
  rw [ssizeT, BitVec.toInt_eq_toNat_cond, BitVec.toNat_ofNat]
  split <;> omega

/-- The number of bytes from the position to the end of the file, or `count`. -/
def left (s : FsFile) (count : ℕ) : ℕ := min count (s.inode.iSize - s.fPos)

/-- The call returns the number of bytes up to `count` or the end of the file, and they are those of the
file. -/
def ReadsAll (stale : ℕ → Option Extent) (count : ℕ) (s : FsFile) : Prop :=
  ∃ r s', ext4FileRead stale count s = (some r, s') ∧ ssizeT r.2 = s.left count ∧
    ∀ i < s.left count, s.ByteAt (s.fPos + i) (r.1 i)

/-- **A read returns all the bytes, whatever is on the stack, exactly where there is no hole among
them** (and a block fits the buffer, and the count `ssize_t`). -/
theorem readsAll_iff (h : Sparse V U s t) (hpos : s.fPos < s.inode.iSize)
    (hsize : s.inode.iSize < 2 ^ 32) (count : ℕ) :
    (∀ stale, ReadsAll stale count s) ↔ count = 0 ∨ V.bs ≤ blockSizeDefault ∧
      s.left count < 2 ^ 31 ∧ ∀ i < s.left count, s.MappedAt (s.fPos + i) := by
  have hleft : (if s.fPos + count > s.inode.iSize then s.inode.iSize else s.fPos + count) - s.fPos =
      s.left count := by
    unfold left
    split <;> omega
  have hle : s.left count ≤ s.inode.iSize - s.fPos := Nat.min_le_right _ _
  have hrun : ∀ stale, ext4FileRead stale count s = if s.left count = 0 then (some (Buf.zero, 0), s)
      else (onFs Fs.mallocBlock >>= fun _ ↦ readLoop stale (s.left count) (s.left count) Buf.zero 0) s := by
    intro stale
    unfold ext4FileRead
    rw [get_bind, if_neg (by omega), hleft]
    split <;> rfl
  rcases Nat.eq_zero_or_pos count with rfl | hcount
  · -- nothing is asked for
    refine iff_of_true (fun stale ↦ ⟨(Buf.zero, 0), s, ?_, ?_, ?_⟩) (.inl rfl)
    · rw [hrun, if_pos (by simp [left])]
    · simp [left, ssizeT]
    · simp [left]
  have hne : s.left count ≠ 0 := by
    unfold left
    omega
  have hbs : s.fs.blockSize = V.bs := h.blockSize
  simp only [or_iff_right (show count ≠ 0 by omega)]
  by_cases hfits : V.bs ≤ blockSizeDefault
  swap
  · -- the buffer for a block cannot be had
    refine iff_of_false (fun hall ↦ ?_) fun hc ↦ hfits hc.1
    obtain ⟨r, s', hread, -⟩ := hall fun _ ↦ none
    have hmalloc : onFs Fs.mallocBlock s = (none, s) := by
      rw [onFs, onInode, zoom_apply, FsInode.onFs, zoom_apply, Fs.mallocBlock, get_bind,
        guard_false (by rwa [hbs])]
      rfl
    rw [hrun, if_neg hne, bind_of_eq_none hmalloc] at hread
    simp at hread
  have hmalloc : onFs Fs.mallocBlock s = (some (), s) := by
    rw [onFs, onInode, zoom_apply, FsInode.onFs, zoom_apply, Fs.mallocBlock, get_bind,
      guard_true (by rwa [hbs])]
    rfl
  have hloop : ∀ stale, ext4FileRead stale count s =
      readLoop stale (s.left count) (s.left count) Buf.zero 0 s := by
    intro stale
    rw [hrun, if_neg hne, bind_of_eq_some hmalloc]
  constructor
  · intro hall
    -- null pointers are the best case
    obtain ⟨r, s', hread, hret, -⟩ := hall fun _ ↦ none
    obtain ⟨buf, k, hspec, hk⟩ := @readLoop_spec _ _ s _ _ t _ _ 0 Buf.zero h le_rfl
      (show s.fPos + s.left count ≤ 2 ^ 32 by omega) (.inr rfl)
    have hkle := hk.le
    rw [hloop, hspec] at hread
    obtain rfl := Option.some.inj (Prod.mk.inj hread).1
    simp only [Nat.zero_add] at hret
    have hall' : k = s.left count ∧ k < 2 ^ 31 := by
      rw [ssizeT, BitVec.toInt_eq_toNat_cond, BitVec.toNat_ofNat,
        Nat.mod_eq_of_lt (show k < 2 ^ 32 by omega)] at hret
      split at hret <;> omega
    exact ⟨hfits, by omega, fun i hi ↦ (hk.bytes i (by omega)).1⟩
  · rintro ⟨-, hlt, hall⟩ stale
    obtain ⟨buf, k, hspec, hk⟩ := @readLoop_spec _ _ s _ _ t stale _ 0 Buf.zero h le_rfl
      (show s.fPos + s.left count ≤ 2 ^ 32 by omega) (.inl hall)
    have hkeq : k = s.left count := by
      by_contra hno
      have := hk.le
      exact hk.stops (by omega) (hall k (by omega))
    refine ⟨_, _, (hloop stale).trans hspec, ?_, fun i hi ↦ ?_⟩
    · show ssizeT (0 + k) = _
      rw [Nat.zero_add, hkeq]
      exact (ssizeT_eq_iff (by omega)).2 hlt
    · have := (hk.bytes i (by omega)).2
      rwa [Nat.zero_add] at this

/-- A file of seven blocks, where blocks 1, 3 and 5 are in holes. -/
def holedFile : FsFile where
  fs := FsInode.fullFile.fs
  inode := { FsInode.fullFile.inode with iSize := 7 * 4096 }
  fPos := 0

theorem holedFile_sparse : Sparse (Mkfs.volume 4096 64 Mkfs.smallSb.toSbGeom)
    (Mkfs.initialUsed 4096 64 ∪ Set.Ico 9 (9 + 54)) holedFile FsInode.fullTree where
  tree := ⟨FsInode.fullFile_tree.mounted, FsInode.fullFile_tree.bs_ge, FsInode.fullFile_tree.kind,
    FsInode.fullFile_tree.pool, FsInode.fullFile_tree.depth_le, FsInode.fullFile_tree.bs_le,
    FsInode.fullFile_tree.holds, FsInode.fullFile_tree.ordered, FsInode.fullFile_tree.nodup,
    FsInode.fullFile_tree.used⟩
  inside := show ∀ e ∈ FsInode.fullTree, e.stop ≤ 2 ^ 32 by decide
  regular := by decide
  extents := by decide

theorem readsAll_iff_small : (∀ stale, ReadsAll stale 4096 holedFile) ∧ holedFile.left 4096 = 4096 := by
  have hvol : (Mkfs.volume 4096 64 Mkfs.smallSb.toSbGeom).bs = 4096 := Mkfs.mounted_small.1.sBlockSize
  have hbs : holedFile.fs.blockSize = 4096 := holedFile_sparse.blockSize.trans hvol
  have hleft : holedFile.left 4096 = 4096 := by decide
  have hfits : (Mkfs.volume 4096 64 Mkfs.smallSb.toSbGeom).bs ≤ blockSizeDefault := by
    rw [hvol]
    exact le_rfl
  refine ⟨(readsAll_iff holedFile_sparse (by decide) (by decide) 4096).2
    (.inr ⟨hfits, by rw [hleft]; norm_num, fun i hi ↦ ?_⟩), hleft⟩
  rw [hleft] at hi
  have hdiv : (holedFile.fPos + i) / holedFile.fs.blockSize = 0 := by
    rw [hbs]
    exact Nat.div_eq_of_lt (by show 0 + i < 4096; omega)
  rw [MappedAt, hdiv]
  exact ⟨9, by norm_num, by decide +kernel⟩

/-- Two blocks are asked for and one is returned: block 1 is in a hole, and the file goes on behind
it. -/
theorem not_readsAll_hole : ¬ ∀ stale, ReadsAll stale 8192 holedFile := by
  intro hall
  obtain ⟨r, s', hread, hret, -⟩ := hall fun _ ↦ none
  have hshort : (ext4FileRead (fun _ ↦ none) 8192 holedFile).1.map Prod.snd = some 4096 := by
    decide +kernel
  have hleft : holedFile.left 8192 = 8192 := by decide
  rw [hread] at hshort
  obtain hr : r.2 = 4096 := by simpa using hshort
  rw [hr, hleft] at hret
  exact absurd hret (by decide)

end FsFile

end MiniExt4
