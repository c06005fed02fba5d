import MiniExt4.Ext4.MkfsMount
import MiniExt4.Ext4.Release

/-!
# Which blocks a release frees

`Calls V fs₀ x l` says that `x` makes the calls of `l`, from any filesystem that differs from `fs₀` by
releases only. A block map that is well formed names blocks outside the metadata, so releasing some
of its blocks leaves the others, and the nodes of the map among them, as they were.

The order of the calls matters: an extent node is read after blocks below earlier entries were released, and
an indirect block before the blocks it names. A release changes bitmaps and descriptors only, so that what
is read is what was there at first (`Like`), as long as no block that is released is metadata. The lists
`freed`, `ptrs` and `freedLegacy` are what the code frees, by the code's own recursion, and they are
compared with the blocks of the map at the end.
-/

namespace MiniExt4

open StateErr

namespace Releasing

/-! ### Sequences of calls -/

/-- The volume `V`, mounted, with the blocks of `fs₀` but for the metadata of the allocator. -/
structure Like (V : Volume) (fs₀ fs : Fs) : Prop where
  mounted : ∃ U, V.Mounted U fs
  frame : V.AllocFrame fs₀ fs

/-- `x` makes the calls of `l`. -/
def Calls (V : Volume) (fs₀ : Fs) (x : StateErr Releasing Unit) (l : List ℕ) : Prop :=
  ∀ s : Releasing, Like V fs₀ s.fs →
    ∃ fs', x s = (some (), ⟨fs', s.calls ++ l⟩) ∧ Like V fs₀ fs'

variable {V : Volume} {fs₀ : Fs}

/-- Nothing is freed. -/
theorem calls_nil : Calls V fs₀ (pure ()) [] := fun s h ↦ ⟨s.fs, by simp, h⟩

/-- What two computations free, one after the other. -/
theorem Calls.append {x y : StateErr Releasing Unit} {l m : List ℕ} (hx : Calls V fs₀ x l)
    (hy : Calls V fs₀ y m) : Calls V fs₀ (x >>= fun _ ↦ y) (l ++ m) := by
  intro s h
  obtain ⟨fs₁, h₁, hlike₁⟩ := hx s h
  obtain ⟨fs₂, h₂, hlike₂⟩ := hy ⟨fs₁, s.calls ++ l⟩ hlike₁
  exact ⟨fs₂, by rw [bind_of_eq_some h₁, h₂, List.append_assoc], hlike₂⟩

/-- What a counted loop frees is what its rounds free, in order. -/
theorem calls_forUp {body : ℕ → StateErr Releasing Unit} {l : ℕ → List ℕ} {lo n : ℕ}
    (h : ∀ k, lo ≤ k → k < lo + n → Calls V fs₀ (body k) (l k)) :
    Calls V fs₀ (StateErr.forUp body lo n) ((List.range' lo n).flatMap l) := by
  induction n generalizing lo with
  | zero => exact calls_nil
  | succ n ih =>
    rw [List.range'_succ, List.flatMap_cons]
    exact (h lo le_rfl (by omega)).append (ih fun k hlo hlt ↦ h k (by omega) (by omega))

/-- A block outside the metadata. -/
def IsData (V : Volume) (b : ℕ) : Prop := b ≠ 0 ∧ b < V.blocks ∧ ¬ V.IsMeta b

/-- One block is freed. -/
theorem calls_freeBlock {b : ℕ} (hb : IsData V b) : Calls V fs₀ (freeBlock b) [b] := by
  intro s h
  obtain ⟨U, hmounted⟩ := h.mounted
  obtain ⟨hframe, hpost⟩ := hmounted.freeBlock hb.2.1 hb.2.2
  refine ⟨(Fs.ext4FreeBlock b s.fs).2, rfl, ?_, h.frame.trans hframe⟩
  rcases hpost with ⟨-, hfreed⟩ | ⟨-, -, hsame⟩
  · exact ⟨_, hfreed⟩
  · exact ⟨U, by rwa [hsame]⟩

/-- The number of a data block fits in 32 bits. -/
theorem u32_of_isData (hwf : V.WellFormed) {b : ℕ} (hb : IsData V b) : u32 b = b := by
  have := hwf.no_wrap
  have := hwf.perGroup_pos
  have := hb.2.1
  exact u32_of_lt (by omega)

/-- A block outside the metadata reads as it was. -/
theorem Like.readBlock {fs : Fs} (h : Like V fs₀ fs) {b : ℕ} (hb : IsData V b) :
    Fs.readBlock b fs = (some (fs₀.block b), fs) := by
  obtain ⟨U, hmounted⟩ := h.mounted
  rw [hmounted.usable.readBlock hb.2.1, h.frame.block b fun hmeta ↦ hb.2.2 (.inl hmeta)]

/-! ### Extent trees -/

/-- The calls for a tree when the pool has so many slots: without one, a node is freed and what it
points to is not. -/
def freed : ℕ → {d : ℕ} → ExtTree d → List ℕ
  | _, 0, t => t.blocks
  | 0, _ + 1, t => t.map fun c ↦ c.1.eiLeaf
  | slots + 1, _ + 1, t => t.flatMap fun c ↦ freed slots c.2 ++ [c.1.eiLeaf]

/-- A leaf needs no slot: all of its blocks are freed. -/
theorem freed_zero (slots : ℕ) (t : ExtTree 0) : freed slots t = t.blocks := by
  cases slots <;> rfl

/-- With a slot for each level every block of the tree is freed. -/
theorem freed_eq_blocks {slots d : ℕ} (h : d ≤ slots) (t : ExtTree d) : freed slots t = t.blocks := by
  induction d generalizing slots with
  | zero => exact freed_zero slots t
  | succ d ih =>
    obtain ⟨slots, rfl⟩ : ∃ k, slots = k + 1 := ⟨slots - 1, by omega⟩
    simp only [freed, ExtTree.blocks, ih (Nat.le_of_succ_le_succ h)]

/-- Everything below a node that finds no slot is leaked. -/
theorem length_freed_lt {slots d : ℕ} (h : slots < d) {t : ExtTree d} (ht : t.Full) :
    (freed slots t).length < t.blocks.length := by
  induction d generalizing slots with
  | zero => omega
  | succ d ih =>
    obtain ⟨hne, hchild⟩ := ht
    cases slots with
    | zero =>
      have hlt : ∀ c ∈ t, 1 < (c.2.blocks ++ [c.1.eiLeaf]).length := fun c hc ↦ by
        have := List.length_pos_iff.2 (hchild c hc).2
        rw [List.length_append, List.length_singleton]
        omega
      have hone : (freed 0 t).length = (t.map fun _ ↦ 1).sum := by simp [freed]
      rw [hone, ExtTree.blocks, List.length_flatMap]
      obtain ⟨c, hc⟩ := List.exists_mem_of_ne_nil t hne
      exact List.sum_lt_sum _ _ (fun c hc ↦ (hlt c hc).le) ⟨c, hc, hlt c hc⟩
    | succ slots =>
      have hlt : ∀ c ∈ t, (freed slots c.2 ++ [c.1.eiLeaf]).length <
          (c.2.blocks ++ [c.1.eiLeaf]).length := fun c hc ↦ by
        have := ih (Nat.lt_of_succ_lt_succ h) (hchild c hc).1
        simp only [List.length_append, List.length_singleton]
        omega
      rw [freed, ExtTree.blocks, List.length_flatMap, List.length_flatMap]
      obtain ⟨c, hc⟩ := List.exists_mem_of_ne_nil t hne
      exact List.sum_lt_sum _ _ (fun c hc ↦ (hlt c hc).le) ⟨c, hc, hlt c hc⟩

/-- The blocks of an extent are freed one by one. -/
theorem calls_freeExtent (hwf : V.WellFormed) {ex : Extent}
    (h : ∀ b ∈ List.range' ex.eeStart ex.eeLen, IsData V b) :
    Calls V fs₀ (freeExtent ex) (List.range' ex.eeStart ex.eeLen) := by
  unfold freeExtent
  by_cases hlen : ex.eeLen = 0
  · rw [if_pos (.inl hlen), hlen]
    exact calls_nil
  · have hstart : ex.eeStart ≠ 0 := (h ex.eeStart (by simp; omega)).1
    rw [if_neg (by simp [hlen, hstart])]
    have hcalls : Calls V fs₀ (forUp (fun j ↦ freeBlock (u32 (ex.eeStart + j))) 0 ex.eeLen)
        ((List.range' 0 ex.eeLen).flatMap fun j ↦ [ex.eeStart + j]) := by
      refine calls_forUp fun j _ hj ↦ ?_
      have hb := h (ex.eeStart + j) (by simp; omega)
      rw [u32_of_isData hwf hb]
      exact calls_freeBlock hb
    rwa [← List.map_eq_flatMap, ← List.range_eq_range', ← List.range'_eq_map_range] at hcalls

/-- Without a slot the node is freed and what is below it is not. -/
theorem calls_freeChild_none (hwf : V.WellFormed) {ix : ExtentIdx} (h : IsData V ix.eiLeaf) :
    Calls V fs₀ (freeChild none ix) [ix.eiLeaf] := by
  simp only [freeChild, u32_of_isData hwf h, if_neg h.1]
  exact calls_freeBlock h

/-- With a slot what is below the node is freed, and then the node. -/
theorem calls_freeChild_some (hwf : V.WellFormed) {ix : ExtentIdx} (h : IsData V ix.eiLeaf)
    {node : Buf → StateErr Releasing Unit} {l : List ℕ}
    (hnode : Calls V fs₀ (node (fs₀.block ix.eiLeaf)) l) :
    Calls V fs₀ (freeChild (some node) ix) (l ++ [ix.eiLeaf]) := by
  simp only [freeChild, u32_of_isData hwf h, if_neg h.1]
  intro s hlike
  have hread : onFs (Fs.readBlock ix.eiLeaf) s = (some (fs₀.block ix.eiLeaf), s) := by
    rw [onFs, zoom_apply, hlike.readBlock h]
  rw [attempt_bind, hread]
  exact hnode.append (calls_freeBlock h) s hlike

/-- The entries of a node, one after the other; `f` is what the node has of each of `t`. -/
theorem calls_entries {α β : Type} {body : α → StateErr Releasing Unit} {entry : ℕ → α} {n : ℕ}
    {f : β → α} {l : β → List ℕ} {t : List β} (ht : (List.range n).map entry = t.map f)
    (h : ∀ c ∈ t, Calls V fs₀ (body (f c)) (l c)) :
    Calls V fs₀ (forUp (fun i ↦ body (entry i)) 0 n) (t.flatMap l) := by
  rw [forUp_eq_forEach, ← List.range_eq_range', ht]
  clear ht
  induction t with
  | nil => exact calls_nil
  | cons c t ih =>
    rw [List.map_cons, forEach, List.flatMap_cons]
    exact (h c List.mem_cons_self).append (ih fun c hc ↦ h c (List.mem_cons_of_mem _ hc))

/-- Releasing a tree makes the calls of `freed`. -/
theorem calls_freeExtentTreeNode (hwf : V.WellFormed) {slots d : ℕ} {eh : Buf} {t : ExtTree d}
    (hat : ExtTree.At fs₀.block eh t) (hdata : ∀ b ∈ t.blocks, IsData V b) :
    Calls V fs₀ (ext4FreeExtentTreeNode slots eh) (freed slots t) := by
  have hleaf : ∀ (child : Option (Buf → StateErr Releasing Unit)) (eh : Buf) (t : ExtTree 0),
      ExtTree.At fs₀.block eh t → (∀ b ∈ t.blocks, IsData V b) →
      Calls V fs₀ (freeNode child eh) t.blocks := by
    intro child eh t hat hdata
    obtain ⟨hmagic, hdepth, rfl⟩ := hat
    rw [freeNode, if_neg (by simp [hmagic]), if_pos hdepth]
    exact calls_entries (List.map_id _).symm fun ex hex ↦
      calls_freeExtent hwf fun b hb ↦ hdata b (List.mem_flatMap.2 ⟨ex, hex, hb⟩)
  induction slots generalizing d eh with
  | zero =>
    cases d with
    | zero => exact hleaf _ _ _ hat hdata
    | succ d =>
      obtain ⟨hmagic, hdepth, hidxs, -⟩ := hat
      have hmem : ∀ c ∈ t, ∀ b ∈ c.2.blocks ++ [c.1.eiLeaf], IsData V b := fun c hc b hb ↦
        hdata b (List.mem_flatMap.2 ⟨c, hc, hb⟩)
      rw [ext4FreeExtentTreeNode, freeNode, if_neg (by simp [hmagic]), if_neg (by omega)]
      rw [freed, List.map_eq_flatMap]
      exact calls_entries hidxs fun c hc ↦ calls_freeChild_none hwf (hmem c hc c.1.eiLeaf (by simp))
  | succ slots ih =>
    cases d with
    | zero => exact hleaf _ _ _ hat hdata
    | succ d =>
      obtain ⟨hmagic, hdepth, hidxs, hchild⟩ := hat
      have hmem : ∀ c ∈ t, ∀ b ∈ c.2.blocks ++ [c.1.eiLeaf], IsData V b := fun c hc b hb ↦
        hdata b (List.mem_flatMap.2 ⟨c, hc, hb⟩)
      rw [ext4FreeExtentTreeNode, freeNode, if_neg (by simp [hmagic]), if_neg (by omega)]
      refine calls_entries hidxs fun c hc ↦ calls_freeChild_some hwf (hmem c hc _ (by simp)) ?_
      exact ih (hchild c hc) fun b hb ↦ hmem c hc b (List.mem_append_left _ hb)

/-! ### Direct and indirect blocks -/

/-- The first `n` pointers in a buffer that are not 0. -/
def ptrs (n : ℕ) (buf : Buf) : List ℕ :=
  ((List.range n).map fun i ↦ buf.le (4 * i) 4).filter (· ≠ 0)

/-- The calls for an indirect block. -/
def freedIndirect (rd : ℕ → Buf) (slots n blk : ℕ) : List ℕ :=
  (if slots = 0 then [] else ptrs n (rd blk)) ++ [blk]

/-- The calls for a double indirect block. -/
def freedDouble (rd : ℕ → Buf) (slots n blk : ℕ) : List ℕ :=
  (if slots = 0 then [] else (ptrs n (rd blk)).flatMap (freedIndirect rd (slots - 1) n)) ++ [blk]

/-- `l blk`, unless the pointer is 0. -/
def unlessNull (l : ℕ → List ℕ) (blk : ℕ) : List ℕ := if blk ≠ 0 then l blk else []

/-- The calls for the pointers of an inode. -/
def freedLegacy (rd : ℕ → Buf) (slots n : ℕ) (inode : Inode) : List ℕ :=
  ptrs 12 inode.iBlock ++ (unlessNull (freedIndirect rd slots n) (inode.word 12) ++
    unlessNull (freedDouble rd slots n) (inode.word 13))

/-- Null pointers are passed over. -/
theorem flatMap_unlessNull (l : List ℕ) (f : ℕ → List ℕ) :
    l.flatMap (unlessNull f) = (l.filter (· ≠ 0)).flatMap f := by
  induction l with
  | nil => rfl
  | cons a l ih =>
    rw [List.flatMap_cons, ih]
    by_cases ha : a = 0 <;> simp [unlessNull, ha]

/-- The pointers of a buffer, one after the other. -/
theorem calls_ptrs {body : ℕ → StateErr Releasing Unit} {l : ℕ → List ℕ} {n : ℕ} {buf : Buf}
    (hnull : body 0 = pure ()) (h : ∀ b ∈ ptrs n buf, Calls V fs₀ (body b) (l b)) :
    Calls V fs₀ (forUp (fun i ↦ body (buf.le (4 * i) 4)) 0 n) ((ptrs n buf).flatMap l) := by
  rw [ptrs, ← flatMap_unlessNull]
  refine calls_entries (List.map_id _).symm fun b hb ↦ ?_
  unfold unlessNull
  split
  · exact h b (List.mem_filter.2 ⟨hb, by simpa⟩)
  · obtain rfl : b = 0 := by omega
    rw [id, hnull]
    exact calls_nil

/-- The pointers of a block are freed in order. -/
theorem calls_freePtrs {n : ℕ} {buf : Buf} (h : ∀ b ∈ ptrs n buf, IsData V b) :
    Calls V fs₀ (forUp (fun i ↦ freePtr (buf.le (4 * i) 4)) 0 n) (ptrs n buf) := by
  have hcalls : Calls V fs₀ (forUp (fun i ↦ freePtr (buf.le (4 * i) 4)) 0 n)
      ((ptrs n buf).flatMap fun b ↦ [b]) :=
    calls_ptrs (by simp [freePtr]) fun b hb ↦ by
      rw [freePtr, if_pos (h b hb).1]
      exact calls_freeBlock (h b hb)
  rwa [List.flatMap_singleton'] at hcalls

/-- Work on the contents of an indirect block, then the block itself. -/
theorem calls_withIndirect {slots blk : ℕ} {free : Buf → StateErr Releasing Unit} {l : List ℕ}
    (hblk : IsData V blk) (h : slots ≠ 0 → Calls V fs₀ (free (fs₀.block blk)) l) :
    Calls V fs₀ (do withIndirect slots blk free; freeBlock blk)
      ((if slots = 0 then [] else l) ++ [blk]) := by
  refine Calls.append ?_ (calls_freeBlock hblk)
  unfold withIndirect
  split
  · exact calls_nil
  · intro s hlike
    have hread : onFs (Fs.readBlock blk) s = (some (fs₀.block blk), s) := by
      rw [onFs, zoom_apply, hlike.readBlock hblk]
    rw [attempt_bind, hread]
    exact h ‹_› s hlike

/-- The blocks below an indirect block are freed, and then it. -/
theorem calls_freeIndirect {slots n blk : ℕ}
    (h : ∀ b ∈ unlessNull (freedIndirect fs₀.block slots n) blk, IsData V b) :
    Calls V fs₀ (freeIndirect slots n blk) (unlessNull (freedIndirect fs₀.block slots n) blk) := by
  unfold freeIndirect unlessNull
  unfold unlessNull at h
  split
  · rw [if_pos ‹_›] at h
    refine calls_withIndirect (h blk (by simp [freedIndirect])) fun hslots ↦ calls_freePtrs ?_
    exact fun b hb ↦ h b (by simp [freedIndirect, hslots, hb])
  · exact calls_nil

/-- The blocks below a double indirect block are freed, and then it. -/
theorem calls_freeDoubleIndirect {slots n blk : ℕ}
    (h : ∀ b ∈ unlessNull (freedDouble fs₀.block slots n) blk, IsData V b) :
    Calls V fs₀ (freeDoubleIndirect slots n blk)
      (unlessNull (freedDouble fs₀.block slots n) blk) := by
  unfold freeDoubleIndirect unlessNull
  unfold unlessNull at h
  split
  · rw [if_pos ‹_›] at h
    refine calls_withIndirect (h blk (by simp [freedDouble])) fun hslots ↦
      calls_ptrs (by simp [freeIndirect]) fun b hb ↦ ?_
    have hne : b ≠ 0 := by simpa using (List.mem_filter.1 hb).2
    have hcalls := @calls_freeIndirect V fs₀ (slots - 1) n b
    rw [unlessNull, if_pos hne] at hcalls
    refine hcalls fun c hc ↦ h c ?_
    rw [freedDouble, if_neg hslots]
    exact List.mem_append_left _ (List.mem_flatMap.2 ⟨b, hb, hc⟩)
  · exact calls_nil

/-- The twelve pointers, the indirect block and the double indirect one. -/
theorem calls_freeLegacyDataBlocks {inode : Inode} (h14 : inode.word 14 = 0)
    (h : ∀ b ∈ freedLegacy fs₀.block (poolSlots V.bs) (V.bs / 4) inode, IsData V b) :
    Calls V fs₀ (ext4FreeLegacyDataBlocks inode)
      (freedLegacy fs₀.block (poolSlots V.bs) (V.bs / 4) inode) := by
  simp only [freedLegacy, List.mem_append] at h
  intro s hlike
  obtain ⟨U, hmounted⟩ := hlike.mounted
  have hrest : Calls V fs₀ (freePtr (inode.word 14)) [] := by
    rw [h14]
    exact calls_nil
  have hcalls := (calls_freePtrs fun b hb ↦ h b (.inl hb)).append
    ((calls_freeIndirect fun b hb ↦ h b (.inr (.inl hb))).append
      ((calls_freeDoubleIndirect fun b hb ↦ h b (.inr (.inr hb))).append hrest))
  rw [List.append_nil] at hcalls
  rw [ext4FreeLegacyDataBlocks, get_bind, hmounted.blockSize]
  exact hcalls s hlike

/-- With two slots an indirection is freed with everything it points to. -/
theorem freedLegacy_of_two_le {rd : ℕ → Buf} {slots slots' n : ℕ} (h : 2 ≤ slots) (h' : 2 ≤ slots')
    (inode : Inode) : freedLegacy rd slots n inode = freedLegacy rd slots' n inode := by
  have hind : ∀ k k' : ℕ, 0 < k → 0 < k' → freedIndirect rd k n = freedIndirect rd k' n := by
    intro k k' hk hk'
    funext blk
    rw [freedIndirect, freedIndirect, if_neg (by omega), if_neg (by omega)]
  have hdouble : freedDouble rd slots n = freedDouble rd slots' n := by
    funext blk
    rw [freedDouble, freedDouble, if_neg (by omega), if_neg (by omega),
      hind _ (slots' - 1) (by omega) (by omega)]
  rw [freedLegacy, freedLegacy, hdouble, hind slots slots' (by omega) (by omega)]

/-! ### Block maps -/

/-- How an inode finds its blocks. -/
inductive BlockMap where
  /-- an extent tree in `i_block` -/
  | extents (d : ℕ) (t : ExtTree d)
  /-- direct, indirect and double indirect pointers in `i_block` -/
  | pointers

namespace BlockMap

/-- The data blocks and the index or indirect blocks of the map. -/
def blocks (V : Volume) (rd : ℕ → Buf) (inode : Inode) : BlockMap → List ℕ
  | extents _ t => t.blocks
  | pointers => freedLegacy rd 2 (V.bs / 4) inode

/-- The inode has this map: regular files and directories with an extent tree of at most
`EXT4_EXT_MAX_DEPTH` levels, regular files with double indirect pointers and directories with
indirect ones. -/
def Has (rd : ℕ → Buf) (inode : Inode) : BlockMap → Prop
  | extents d t => inode.hasExtents ∧ (sIsreg inode.iMode ∨ sIsdir inode.iMode) ∧
      d ≤ ext4ExtMaxDepth ∧ ExtTree.At rd inode.iBlock t ∧ t.Full
  | pointers => ¬ inode.hasExtents ∧ inode.word 14 = 0 ∧
      (sIsreg inode.iMode ∨ sIsdir inode.iMode ∧ inode.word 13 = 0)

/-- The map is well formed: its blocks are different blocks outside the metadata. -/
structure WellFormed (V : Volume) (fs : Fs) (inode : Inode) (m : BlockMap) : Prop where
  has : m.Has fs.block inode
  nodup : (m.blocks V fs.block inode).Nodup
  data : ∀ b ∈ m.blocks V fs.block inode, IsData V b

/-- The condition for a release to free all of the map: it is not a directory with extents, and every
node or indirect block that has something below it finds a slot of the pool. -/
def Releasable (V : Volume) (rd : ℕ → Buf) (inode : Inode) : BlockMap → Prop
  | extents d _ => sIsreg inode.iMode ∧ d ≤ poolSlots V.bs
  | pointers => V.bs ≤ blockSizeDefault ∨
      unlessNull (fun blk ↦ ptrs (V.bs / 4) (rd blk)) (inode.word 12) = [] ∧
        unlessNull (fun blk ↦ ptrs (V.bs / 4) (rd blk)) (inode.word 13) = []

end BlockMap

/-- Without a slot nothing below an indirection is freed. -/
theorem length_unlessNull_freedIndirect (rd : ℕ → Buf) (n blk : ℕ) :
    (unlessNull (freedIndirect rd 2 n) blk).length =
      (unlessNull (freedIndirect rd 0 n) blk).length +
        (unlessNull (fun blk ↦ ptrs n (rd blk)) blk).length := by
  unfold unlessNull
  split
  · simp [freedIndirect]
    omega
  · rfl

/-- Without a slot the indirect blocks are freed and the data below them is not. -/
theorem length_unlessNull_freedDouble (rd : ℕ → Buf) (n blk : ℕ) :
    (unlessNull (freedDouble rd 0 n) blk).length +
        (unlessNull (fun blk ↦ ptrs n (rd blk)) blk).length ≤
      (unlessNull (freedDouble rd 2 n) blk).length := by
  have hle : ∀ l : List ℕ, l.length ≤ (l.flatMap (freedIndirect rd 1 n)).length := by
    intro l
    induction l with
    | nil => simp
    | cons a l ih =>
      rw [List.flatMap_cons, List.length_append, List.length_cons, freedIndirect, List.length_append,
        List.length_singleton]
      omega
  unfold unlessNull
  split
  · have := hle (ptrs n (rd blk))
    simp only [freedDouble, if_true, List.length_append, List.length_singleton, List.length_nil,
      OfNat.ofNat_ne_zero, if_false, Nat.add_one_sub_one, Nat.reduceSub]
    omega
  · simp

/-- What is freed without a slot is freed with two. -/
theorem freedLegacy_zero_sublist (rd : ℕ → Buf) (n : ℕ) (inode : Inode) :
    ∀ b ∈ freedLegacy rd 0 n inode, b ∈ freedLegacy rd 2 n inode := by
  intro b hb
  simp only [freedLegacy, List.mem_append, unlessNull] at hb ⊢
  refine hb.imp_right (Or.imp ?_ ?_)
  · split <;> simp +contextual [freedIndirect]
  · split <;> simp +contextual [freedDouble]

/-- Without slots all is freed exactly when nothing is below an indirection. -/
theorem freedLegacy_zero_perm_iff (rd : ℕ → Buf) (n : ℕ) (inode : Inode) :
    (freedLegacy rd 0 n inode).Perm (freedLegacy rd 2 n inode) ↔
      unlessNull (fun blk ↦ ptrs n (rd blk)) (inode.word 12) = [] ∧
        unlessNull (fun blk ↦ ptrs n (rd blk)) (inode.word 13) = [] := by
  constructor
  · intro hperm
    have hlen := hperm.length_eq
    simp only [freedLegacy, List.length_append] at hlen
    have hind := length_unlessNull_freedIndirect rd n (inode.word 12)
    have hdouble := length_unlessNull_freedDouble rd n (inode.word 13)
    rw [← List.length_eq_zero_iff, ← List.length_eq_zero_iff]
    omega
  · rintro ⟨hind, hdouble⟩
    have hind' : unlessNull (freedIndirect rd 0 n) (inode.word 12) =
        unlessNull (freedIndirect rd 2 n) (inode.word 12) := by
      unfold unlessNull at hind ⊢
      split at hind <;> simp_all [freedIndirect]
    have hdouble' : unlessNull (freedDouble rd 0 n) (inode.word 13) =
        unlessNull (freedDouble rd 2 n) (inode.word 13) := by
      unfold unlessNull at hdouble ⊢
      split at hdouble <;> simp_all [freedDouble]
    rw [freedLegacy, freedLegacy, hind', hdouble']

/-! ### The header of a directory's extent tree read as pointers -/

/-- A computation that only adds calls. -/
def Grows (x : StateErr Releasing Unit) : Prop := ∀ s, s.calls <+: (x s).2.calls

/-- A sequence frees at least what its parts free. -/
theorem grows_bind {α : Type} {x : StateErr Releasing α} {f : α → StateErr Releasing Unit}
    (hx : ∀ s, s.calls <+: (x s).2.calls) (hf : ∀ a, Grows (f a)) : Grows (x >>= f) := by
  intro s
  have hstart := hx s
  rw [bind_apply]
  rcases hrun : x s with ⟨_ | a, s'⟩
  · rwa [hrun] at hstart
  · rw [hrun] at hstart
    exact hstart.trans (hf a s')

/-- So does a loop. -/
theorem grows_forUp {body : ℕ → StateErr Releasing Unit} (h : ∀ k, Grows (body k)) (lo n : ℕ) :
    Grows (forUp body lo n) := by
  induction n generalizing lo with
  | zero => exact fun s ↦ List.prefix_rfl
  | succ n ih => exact grows_bind (h lo) fun _ ↦ ih (lo + 1)

theorem grows_freeBlock (b : ℕ) : Grows (freeBlock b) := fun s ↦ List.prefix_append s.calls [b]

theorem grows_freePtr (b : ℕ) : Grows (freePtr b) := by
  unfold freePtr
  split
  · exact grows_freeBlock b
  · exact fun s ↦ List.prefix_rfl

/-- So does what is done below an indirect block. -/
theorem grows_withIndirect {slots blk : ℕ} {free : Buf → StateErr Releasing Unit}
    (h : ∀ buf, Grows (free buf)) : Grows (do withIndirect slots blk free; freeBlock blk) := by
  refine grows_bind ?_ fun _ ↦ grows_freeBlock blk
  unfold withIndirect
  split
  · exact fun s ↦ List.prefix_rfl
  · refine grows_bind (fun s ↦ List.prefix_rfl) fun r ↦ ?_
    cases r with
    | none => exact fun s ↦ List.prefix_rfl
    | some buf => exact h buf

theorem grows_freeIndirect (slots n blk : ℕ) : Grows (freeIndirect slots n blk) := by
  unfold freeIndirect
  split
  · exact grows_withIndirect fun buf ↦ grows_forUp (fun i ↦ grows_freePtr _) 0 n
  · exact fun s ↦ List.prefix_rfl

theorem grows_freeDoubleIndirect (slots n blk : ℕ) : Grows (freeDoubleIndirect slots n blk) := by
  unfold freeDoubleIndirect
  split
  · exact grows_withIndirect fun buf ↦ grows_forUp (fun i ↦ grows_freeIndirect _ _ _) 0 n
  · exact fun s ↦ List.prefix_rfl

/-- What the first statement freed is among the calls. -/
theorem mem_calls_bind {b : ℕ} {x : StateErr Releasing Unit} {f : Unit → StateErr Releasing Unit}
    (hx : ∀ s, b ∈ (x s).2.calls) (hf : ∀ a, Grows (f a)) (s : Releasing) :
    b ∈ ((x >>= f) s).2.calls := by
  have hstart := hx s
  rw [bind_apply]
  rcases hrun : x s with ⟨_ | a, s'⟩
  · rwa [hrun] at hstart
  · rw [hrun] at hstart
    exact (hf a s').subset hstart

/-- The first pointer of an inode is freed whatever it is. -/
theorem word_zero_mem_calls {inode : Inode} (h : inode.word 0 ≠ 0) (s : Releasing) :
    inode.word 0 ∈ (ext4FreeLegacyDataBlocks inode s).2.calls := by
  have hfirst : ∀ s, inode.word 0 ∈ (freePtr (inode.word 0) s).2.calls := by
    intro s
    rw [freePtr, if_pos h]
    exact List.mem_append_right _ (List.mem_singleton.2 rfl)
  have hdirect : ∀ s, inode.word 0 ∈ (forUp (fun i ↦ freePtr (inode.word i)) 0 12 s).2.calls :=
    mem_calls_bind hfirst fun _ ↦ grows_forUp (fun i ↦ grows_freePtr _) 1 11
  exact mem_calls_bind hdirect (fun _ ↦ grows_bind (grows_freeIndirect _ _ _) fun _ ↦
    grows_bind (grows_freeDoubleIndirect _ _ _) fun _ ↦ grows_freePtr _) s

/-- The first word of an extent header is not 0. -/
theorem word_zero_ne_zero {inode : Inode} (h : Node.magic inode.iBlock = ext4ExtMagic) :
    inode.word 0 ≠ 0 := by
  have hword : inode.word 0 = Node.magic inode.iBlock + 65536 * inode.iBlock.le 2 2 := by
    simp only [Inode.word, Node.magic, Buf.getField, Eh.magic, Buf.le, Nat.mul_zero, Nat.zero_add,
      Nat.reduceAdd]
    omega
  rw [hword, h]
  unfold ext4ExtMagic
  omega

/-! ### The release of an inode -/

variable {U : Set ℕ} {fs : Fs} {inode : Inode} {m : BlockMap}

/-- What `ext4_free_inode_data_blocks` frees is what the map it takes frees. -/
theorem calls_freeInodeDataBlocks {l : List ℕ} (hm : V.Mounted U fs)
    (h : Calls V fs (if sIsreg inode.iMode && inode.hasExtents then
      ext4FreeExtentTreeNode (poolSlots V.bs) inode.iBlock else ext4FreeLegacyDataBlocks inode) l) :
    (freeInodeDataBlocks inode ⟨fs, []⟩).2.calls = l := by
  obtain ⟨fs', hrun, -⟩ := h ⟨fs, []⟩ ⟨⟨U, hm⟩, .refl fs⟩
  rw [freeInodeDataBlocks, get_bind, hm.blockSize]
  exact congrArg (fun r ↦ r.2.calls) hrun

/-- **A release frees exactly the blocks of the map, once each, if the map is releasable**, and
otherwise only if a directory's extent header happens to spell block numbers of its own map. -/
theorem freeInodeDataBlocks_exact (hm : V.Mounted U fs) (hmap : m.WellFormed V fs inode) :
    (m.Releasable V fs.block inode →
      (freeInodeDataBlocks inode ⟨fs, []⟩).2.calls.Perm (m.blocks V fs.block inode)) ∧
    ((freeInodeDataBlocks inode ⟨fs, []⟩).2.calls.Perm (m.blocks V fs.block inode) →
      m.Releasable V fs.block inode ∨ ¬ sIsreg inode.iMode ∧ inode.hasExtents ∧
        inode.word 0 ∈ m.blocks V fs.block inode) := by
  cases m with
  | extents d t =>
    obtain ⟨hext, -, -, hat, hfull⟩ := hmap.has
    by_cases hreg : sIsreg inode.iMode
    · -- a regular file: the tree is walked as deep as there are slots
      have hcalls : (freeInodeDataBlocks inode ⟨fs, []⟩).2.calls = freed (poolSlots V.bs) t := by
        refine calls_freeInodeDataBlocks hm ?_
        rw [if_pos (by simp [hreg, hext])]
        exact calls_freeExtentTreeNode hm.wf hat hmap.data
      rw [hcalls]
      refine ⟨fun hrel ↦ ?_, fun hperm ↦ .inl ⟨hreg, ?_⟩⟩
      · rw [freed_eq_blocks hrel.2]
        exact .refl _
      · -- a deeper tree keeps the blocks below the last slot
        by_contra hdeep
        have hlt := length_freed_lt (Nat.lt_of_not_le hdeep) hfull
        have heq := hperm.length_eq
        simp only [BlockMap.blocks] at heq
        omega
    · -- a directory: its header is read as pointers
      refine ⟨fun hrel ↦ absurd hrel.1 hreg, fun hperm ↦ .inr ⟨hreg, hext, hperm.subset ?_⟩⟩
      have hmagic : Node.magic inode.iBlock = ext4ExtMagic := by
        cases d with
        | zero => exact hat.1
        | succ d => exact hat.1
      have hcalls := word_zero_mem_calls (word_zero_ne_zero hmagic) ⟨fs, []⟩
      rwa [freeInodeDataBlocks, get_bind, if_neg (by simp [hreg])]
  | pointers =>
    obtain ⟨hext, h14, -⟩ := hmap.has
    have hrun : ∀ l, freedLegacy fs.block (poolSlots V.bs) (V.bs / 4) inode = l →
        (∀ b ∈ l, IsData V b) → (freeInodeDataBlocks inode ⟨fs, []⟩).2.calls = l := by
      rintro l rfl hdata
      refine calls_freeInodeDataBlocks hm ?_
      rw [if_neg (by simp [hext])]
      exact calls_freeLegacyDataBlocks h14 hdata
    -- a slot holds a block of at most 4096 bytes
    by_cases hbs : V.bs ≤ blockSizeDefault
    · have hslots : poolSlots V.bs = 4 := if_pos hbs
      rw [hrun _ (by rw [hslots]; exact freedLegacy_of_two_le (by omega) le_rfl inode) hmap.data]
      exact ⟨fun _ ↦ .refl _, fun _ ↦ .inl (.inl hbs)⟩
    · have hslots : poolSlots V.bs = 0 := if_neg hbs
      rw [hrun _ (by rw [hslots]) fun b hb ↦ hmap.data b (freedLegacy_zero_sublist _ _ _ b hb)]
      refine ⟨fun hrel ↦ ?_, fun hperm ↦ .inl (.inr ?_)⟩
      · exact (freedLegacy_zero_perm_iff _ _ _).2 (hrel.resolve_left hbs)
      · exact (freedLegacy_zero_perm_iff _ _ _).1 hperm

/-- A root with one extent, of blocks 9 and 10. -/
def smallRoot : Buf :=
  Buf.zero
    |>.setField 0 Eh.magic ext4ExtMagic
    |>.setField 0 Eh.entries 1
    |>.setField 0 Eh.max 4
    |>.setField (Node.entryOff 0) Ee.len 2
    |>.setField (Node.entryOff 0) Ee.startLo 9

/-- An inode with `smallRoot`. -/
def smallInode (mode : ℕ) : Inode where
  iIno := 12
  iNlink := 1
  iUid := 0
  iGid := 0
  iMode := mode
  iAtime := 0
  iMtime := 0
  iCtime := 0
  iSize := 8192
  iBlocks := 16
  dirty := false
  iBlock := smallRoot
  iFlags := ext4InodeFlagExtents
  iAllocGroupHint := 0

/-- The map of `smallInode`. -/
def smallMap : BlockMap := .extents 0 [⟨0, 2, 9⟩]

/-- The map of the example. -/
theorem smallMap_wellFormed {mode : ℕ} (h : sIsreg mode ∨ sIsdir mode) :
    smallMap.WellFormed (Mkfs.volume 4096 64 Mkfs.smallSb.toSbGeom) Mkfs.smallFs
      (smallInode mode) := by
  have hblocks : ∀ rd, smallMap.blocks (Mkfs.volume 4096 64 Mkfs.smallSb.toSbGeom) rd
      (smallInode mode) = [9, 10] := fun _ ↦ rfl
  have hat : Node.magic smallRoot = ext4ExtMagic ∧ Node.depth smallRoot = 0 ∧
      Node.extents smallRoot = [⟨0, 2, 9⟩] := by decide
  have hext : (ext4InodeFlagExtents &&& ext4InodeFlagExtents != 0) = true := by decide
  refine ⟨⟨hext, h, by decide, hat, ?_⟩, ?_, ?_⟩
  · intro e he
    rw [List.mem_singleton.1 he]
    decide
  · rw [hblocks]
    decide
  · rw [hblocks]
    intro b hb
    have hrange : 9 ≤ b ∧ b < 64 := by
      simp only [List.mem_cons, List.not_mem_nil, or_false] at hb
      omega
    have htotal : (Mkfs.volume 4096 64 Mkfs.smallSb.toSbGeom).blocks = 64 :=
      Mkfs.mounted_small.1.sBlocksCount
    exact ⟨by omega, by rw [htotal]; exact hrange.2, Mkfs.not_isMeta_small hrange.1 hrange.2⟩

/-- The release of a small regular file. -/
theorem freeInodeDataBlocks_exact_small :
    (freeInodeDataBlocks (smallInode 0o100644) ⟨Mkfs.smallFs, []⟩).2.calls.Perm [9, 10] :=
  (freeInodeDataBlocks_exact Mkfs.mounted_small.2 (smallMap_wellFormed (.inl (by decide)))).1
    ⟨by decide, Nat.zero_le _⟩

/-- A directory with the same extent has the words of its header freed, and not its blocks. -/
theorem freeInodeDataBlocks_directory :
    smallMap.WellFormed (Mkfs.volume 4096 64 Mkfs.smallSb.toSbGeom) Mkfs.smallFs
        (smallInode 0o040755) ∧
      (freeInodeDataBlocks (smallInode 0o040755) ⟨Mkfs.smallFs, []⟩).2.calls = [127754, 4, 2, 9] ∧
        ¬ (freeInodeDataBlocks (smallInode 0o040755) ⟨Mkfs.smallFs, []⟩).2.calls.Perm [9, 10] := by
  have hcalls : (freeInodeDataBlocks (smallInode 0o040755) ⟨Mkfs.smallFs, []⟩).2.calls =
      [127754, 4, 2, 9] := by decide +kernel
  refine ⟨smallMap_wellFormed (.inr (by decide)), hcalls, fun hperm ↦ ?_⟩
  rw [hcalls] at hperm
  exact absurd hperm.length_eq (by decide)

end Releasing

end MiniExt4
