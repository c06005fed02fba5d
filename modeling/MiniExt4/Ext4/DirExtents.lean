import MiniExt4.Ext4.DxSplit

/-!
# A new leaf in a directory with extents

`ext4_dir_get_blocknr` looks a block of a directory up in the block map or, with the `EXTENTS` flag, in
the extent tree; `ext4_htree_alloc_lblock` takes the first word of `i_block` that is 0 either way. A split
that succeeds leaves the map of the directory alone, and maps the new leaf, exactly where there are no
extents (`respectsMap_iff`): in an extent root the word goes to the header, and what a lookup finds is
still one of the blocks that the entries of the tree are for. So the index of a directory with extents has
no entry that leads to the new leaf, and of all directories those without extents whose root is not full
are the ones that a split leaves well indexed (`insertsEntry_iff`).

The two halves have different proofs. Without extents a split is a run of steps on a mounted volume, and the
map changes in one place. With extents the words that can be taken are two, `eh_generation` and after it
`ee_block` of the first entry (`firstZero_le`): everything else of the tree is as it was (`KeepsTree`), so
that a lookup still ends in a block that the tree had before, and the new leaf is none of these.
-/

namespace MiniExt4

open StateErr Keyed
open Releasing (IsData)

namespace ExtTree

variable {rd : ℕ → Buf} {cap m d x b : ℕ} {eh eh' : Buf} {t : ExtTree d}

/-- What is mapped is not a node. -/
theorem Maps.not_mem_nodes (h : t.Maps x b) (hnodup : t.blocks.Nodup) : b ∉ t.nodes := by
  induction d with
  | zero => simp [nodes]
  | succ d ih =>
    obtain ⟨c, hc, hmaps⟩ := h
    have hmem := locate_mem hc
    obtain ⟨hself, hpair⟩ := List.nodup_flatMap.1 hnodup
    obtain ⟨hblocks, -, hleaf⟩ := List.nodup_append.1 (hself c hmem)
    intro hnodes
    obtain ⟨c', hc', hb⟩ := List.mem_flatMap.1 hnodes
    by_cases hsame : c = c'
    · subst hsame
      rcases List.mem_append.1 hb with hb | hb
      · exact ih hmaps hblocks hb
      · exact hleaf b hmaps.mem_blocks b hb rfl
    · have hsymm : Std.Symm (Function.onFun List.Disjoint fun c : ExtentIdx × ExtTree d ↦
          c.2.blocks ++ [c.1.eiLeaf]) := ⟨fun _ _ hxy ↦ List.Disjoint.symm hxy⟩
      refine hpair.forall hmem hc' hsame (List.mem_append_left _ hmaps.mem_blocks) ?_
      rcases List.mem_append.1 hb with hb | hb
      · exact List.mem_append_left _ (nodes_subset b hb)
      · exact List.mem_append_right _ hb

/-- The blocks that the entries below a node are for, whatever their keys. -/
def Covers (rd : ℕ → Buf) : ℕ → Buf → Set ℕ
  | 0, eh => {b | ∃ e ∈ Node.extents eh, ∃ k < e.eeLen, b = u32 (e.eeStart + k)}
  | d + 1, eh => {b | ∃ ix ∈ Node.idxs eh, b ∈ Covers rd d (rd (u32 ix.eiLeaf))}

/-- What the nodes on the device cover is blocks of the tree. -/
theorem Holds.covers_subset (h : t.Holds rd cap m eh) (hlt : ∀ b ∈ t.blocks, b < 2 ^ 32) :
    Covers rd d eh ⊆ {b | b ∈ t.blocks} := by
  induction d generalizing m eh with
  | zero =>
    have hlist := h.1.list
    rw [← h.1.header.entries] at hlist
    rintro b ⟨e, he, k, hk, rfl⟩
    have hmem : e.eeStart + k ∈ blocks (d := 0) t :=
      List.mem_flatMap.2 ⟨e, (show e ∈ t from hlist ▸ he), List.mem_range'_1.2 (by omega)⟩
    rw [u32_of_lt (hlt _ hmem)]
    exact hmem
  | succ d ih =>
    obtain ⟨hnode, -, hchild⟩ := h
    have hlist := hnode.list
    rw [← hnode.header.entries] at hlist
    rintro b ⟨ix, hix, hb⟩
    obtain ⟨c, hc, rfl⟩ := List.mem_map.1 (show ix ∈ t.map Prod.fst from hlist ▸ hix)
    have hsub : ∀ b ∈ c.2.blocks ++ [c.1.eiLeaf], b ∈ blocks (d := d + 1) t := fun b hb ↦
      List.mem_flatMap.2 ⟨c, hc, hb⟩
    rw [u32_of_lt (hlt _ (hsub _ (by simp)))] at hb
    have hbelow := ih (hchild c hc) (fun b hb ↦ hlt b (hsub b (List.mem_append_left _ hb))) hb
    exact hsub b (List.mem_append_left _ hbelow)

/-- The generation and the first key do not count. -/
theorem covers_congr (h : ∀ i, i < 8 ∨ 16 ≤ i → eh' i = eh i) : Covers rd d eh' = Covers rd d eh := by
  have hfield : ∀ (o : ℕ) (f : Buf.Field), o + f.off + f.size ≤ 8 ∨ 16 ≤ o + f.off →
      eh'.getField o f = eh.getField o f := fun o f ho ↦ Buf.getField_congr fun i hi hlt ↦ h i (by omega)
  have hentries : Node.entries eh' = Node.entries eh := hfield 0 Eh.entries (.inl (by decide))
  have hoff : ∀ i, 12 ≤ Node.entryOff i := fun i ↦ Nat.le_add_right _ _
  cases d with
  | zero =>
    have hext : ∀ i, (Node.extentAt eh' i).eeLen = (Node.extentAt eh i).eeLen ∧
        (Node.extentAt eh' i).eeStart = (Node.extentAt eh i).eeStart := by
      intro i
      have := hoff i
      refine ⟨hfield _ _ (.inr ?_), ?_⟩
      · simp only [Ee.len]
        omega
      · simp only [Node.extentAt]
        rw [hfield _ _ (.inr (by simp only [Ee.startHi]; omega)),
          hfield _ _ (.inr (by simp only [Ee.startLo]; omega))]
    ext b
    simp only [Covers, Node.extents, List.mem_map, Set.mem_ofPred_eq, exists_exists_and_eq_and, hentries, hext]
  | succ d =>
    have hidx : ∀ i, (Node.idxAt eh' i).eiLeaf = (Node.idxAt eh i).eiLeaf := by
      intro i
      have := hoff i
      simp only [Node.idxAt]
      rw [hfield _ _ (.inr (by simp only [Ei.leafHi]; omega)),
        hfield _ _ (.inr (by simp only [Ei.leafLo]; omega))]
    ext b
    simp only [Covers, Node.idxs, List.mem_map, Set.mem_ofPred_eq, exists_exists_and_eq_and, hentries, hidx]

end ExtTree

namespace FsInode

open ExtTree

variable {V : Volume} {U U' : Set ℕ} {s s' s'' : FsInode} {d x b i phys lblk newPhys newLblk : ℕ}

/-! ### Looking up -/

/-- An extent that was found covers the block. -/
theorem of_findExtent_eq_some {l : List Extent} {e : Extent} (h : findExtent x l = some e) :
    e ∈ l ∧ e.eeBlock ≤ x ∧ x < u32 (e.eeBlock + e.eeLen) := by
  induction l with
  | nil => simp [findExtent] at h
  | cons a l ih =>
    unfold findExtent at h
    split at h
    · exact ⟨List.mem_cons_of_mem a (ih h).1, (ih h).2⟩
    · split at h
      · obtain rfl := Option.some.inj h
        exact ⟨List.mem_cons_self .., by assumption⟩
      · split at h
        · simp at h
        · exact ⟨List.mem_cons_of_mem a (ih h).1, (ih h).2⟩

/-- The index that is chosen is one of the node's. -/
theorem chosenIdx_mem {eh : Buf} (h : Node.entries eh ≠ 0) : chosenIdx x eh ∈ Node.idxs eh := by
  have hchoose : ∀ (l : List ExtentIdx) (c : ExtentIdx), chooseIdx x c l = c ∨ chooseIdx x c l ∈ l := by
    intro l
    induction l with
    | nil => exact fun c ↦ .inl rfl
    | cons a l ih =>
      intro c
      unfold chooseIdx
      split
      · refine .inr ((ih a).elim (fun heq ↦ ?_) (List.mem_cons_of_mem a))
        rw [heq]
        exact List.mem_cons_self ..
      · exact .inl rfl
  have hfirst : Node.idxAt eh 0 ∈ Node.idxs eh := List.mem_map.2 ⟨0, List.mem_range.2 (by omega), rfl⟩
  exact (hchoose _ _).elim (fun heq ↦ (show chosenIdx x eh = _ from heq) ▸ hfirst) id

/-- What the leaf at the end of a descent maps a block to is covered by the node it began at. -/
theorem readPathLoop_covers {node : PathNode} {up path : List PathNode} (h : V.Mounted U s.fs)
    (hrun : readPathLoop x d up node s = (some path, s'))
    (hmap : (path.head?.bind fun leaf ↦ ext4ExtentsLookupMapped leaf.eh x) = some b) :
    b ∈ Covers s.fs.block d node.eh := by
  induction d generalizing s node up with
  | zero =>
    obtain rfl := Option.some.inj (Prod.mk.inj hrun).1
    obtain ⟨e, he, rfl⟩ := Option.map_eq_some_iff.1 hmap
    unfold ext4ExtentsFind at he
    split at he
    · simp at he
    obtain ⟨hmem, hle, hlt⟩ := of_findExtent_eq_some he
    have hwrap := Nat.mod_le (e.eeBlock + e.eeLen) (2 ^ 32)
    exact ⟨e, hmem, x - e.eeBlock, by unfold u32 at hlt; omega, rfl⟩
  | succ d ih =>
    unfold readPathLoop at hrun
    obtain ⟨hentries, hrun⟩ := guard_bind_eq_some_iff.1 hrun
    obtain ⟨-, hrun⟩ := guard_bind_eq_some_iff.1 hrun
    obtain ⟨_, s₁, hmalloc, hrun⟩ := bind_eq_some_iff.1 hrun
    obtain ⟨buf, s₂, hread, hrun⟩ := bind_eq_some_iff.1 hrun
    obtain ⟨-, hrun⟩ := guard_bind_eq_some_iff.1 hrun
    obtain ⟨-, hrun⟩ := guard_bind_eq_some_iff.1 hrun
    obtain ⟨n, rfl⟩ : ∃ n, s₁ = s.setPool n := by
      unfold extMalloc at hmalloc
      rw [get_bind] at hmalloc
      obtain ⟨-, hmalloc⟩ := guard_bind_eq_some_iff.1 hmalloc
      exact ⟨_, (Prod.mk.inj hmalloc).2.symm⟩
    have h₁ := mounted_setPool h n
    have hread := of_orFree_eq_some hread
    rw [onFs, zoom_apply, h₁.usable.readBlock_eq] at hread
    obtain ⟨hsome, rfl⟩ := Prod.mk.inj hread
    simp only [Option.ite_none_right_eq_some] at hsome
    obtain rfl := Option.some.inj hsome.2
    exact ⟨_, chosenIdx_mem hentries, ih h₁ hrun⟩

/-- What a lookup finds is covered by the root. -/
theorem getBlocknr_covers (h : V.Mounted U s.fs) (hext : s.inode.hasExtents = true)
    (hrun : (ext4DirGetBlocknr x s).1 = some b) :
    b ∈ Covers s.fs.block (Node.depth s.inode.iBlock) s.inode.iBlock := by
  have hrun := eq_of_fst_eq hrun
  unfold ext4DirGetBlocknr at hrun
  rw [get_bind, if_pos hext] at hrun
  obtain ⟨⟨b', isNew⟩, s₁, hget, hrun⟩ := bind_eq_some_iff.1 hrun
  obtain ⟨hne, hrun⟩ := guard_bind_eq_some_iff.1 hrun
  obtain rfl := Option.some.inj (Prod.mk.inj hrun).1
  unfold ext4ExtentsGetBlock at hget
  rw [get_bind] at hget
  obtain ⟨-, hget⟩ := guard_bind_eq_some_iff.1 hget
  by_cases hmagic : Node.magic s.inode.iBlock = ext4ExtMagic
  swap
  · rw [if_pos ⟨hmagic, rfl⟩] at hget
    exact absurd (Prod.mk.inj (Option.some.inj (Prod.mk.inj hget).1)).1.symm hne
  rw [if_neg fun hc ↦ hc.1 hmagic, if_neg (not_not_intro hmagic)] at hget
  unfold lookupOrInsert ext4ExtentsReadPath at hget
  obtain ⟨path, s₂, hpath, hget⟩ := bind_eq_some_iff.1 hget
  rw [get_bind] at hpath
  obtain ⟨-, hpath⟩ := guard_bind_eq_some_iff.1 hpath
  obtain ⟨-, hpath⟩ := guard_bind_eq_some_iff.1 hpath
  rcases hmap : path.head?.bind fun leaf ↦ ext4ExtentsLookupMapped leaf.eh x with _ | c <;> rw [hmap] at hget
  · exact absurd (Prod.mk.inj (Option.some.inj (Prod.mk.inj hget).1)).1.symm hne
  · obtain rfl : c = b' := (Prod.mk.inj (Option.some.inj (Prod.mk.inj hget).1)).1
    exact readPathLoop_covers h hpath hmap

/-- An indexed directory with an extent tree. Its root has no generation, as `ext4_extents_init_node`
leaves it, and its first entry is for the logical blocks from 0 on. -/
structure ExtentDir (V : Volume) (U : Set ℕ) (s : FsInode) {d : ℕ} (t : ExtTree d) : Prop where
  tree : Tree V U s t
  ext : s.inode.hasExtents = true
  generation : s.inode.word 2 = 0
  first : s.inode.word 3 = 0

variable {t : ExtTree d}

/-- A block of the directory is found in the tree or not at all. -/
theorem ExtentDir.getBlocknr (h : ExtentDir V U s t) (i : ℕ) :
    (∃ b, t.Maps i b ∧ ext4DirGetBlocknr i s = (some b, s)) ∨ ext4DirGetBlocknr i s = (none, s) := by
  unfold ext4DirGetBlocknr
  rw [get_bind, if_pos h.ext]
  rcases h.tree.getBlock i false with ⟨b, hmaps, hrun⟩ | ⟨-, hrun⟩
  · rw [bind_of_eq_some hrun, guard_true (h.tree.used b hmaps.mem_blocks).2.1]
    exact .inl ⟨b, hmaps, rfl⟩
  · rw [bind_of_eq_some hrun]
    exact .inr rfl

/-- What is found is in the tree. -/
theorem ExtentDir.maps_of_some (h : ExtentDir V U s t) (hrun : (ext4DirGetBlocknr i s).1 = some b) :
    t.Maps i b := by
  rcases h.getBlocknr i with ⟨b', hmaps, hrun'⟩ | hrun'
  · rw [hrun'] at hrun
    exact Option.some.inj hrun ▸ hmaps
  · rw [hrun'] at hrun
    simp at hrun

/-- A lookup changes nothing. -/
theorem ExtentDir.looksUp (h : ExtentDir V U s t) : LooksUp V U s := by
  refine ⟨h.tree.mounted, fun i ↦ ?_, fun _ i b hb ↦ h.tree.used b (h.maps_of_some hb).mem_blocks⟩
  rcases h.getBlocknr i with ⟨_, -, hrun⟩ | hrun <;> rw [hrun]

/-! ### A split -/

/-- From `s` to `s'` the nodes of a tree and its root were left alone, but for the words of the root that
`ext4_htree_alloc_lblock` takes. -/
structure KeepsTree (V : Volume) (N : Set ℕ) (U U' : Set ℕ) (s s' : FsInode) : Prop where
  sub : U ⊆ U'
  mounted : V.Mounted U' s'.fs
  flags : s'.inode.iFlags = s.inode.iFlags
  iBlock : ∀ i, i < 8 ∨ 16 ≤ i → s'.inode.iBlock i = s.inode.iBlock i
  nodes : ∀ b ∈ N, s'.fs.block b = s.fs.block b

variable {N : Set ℕ} {U'' : Set ℕ}

/-- Two steps that keep the tree, one after the other. -/
theorem KeepsTree.trans (h : KeepsTree V N U U' s s') (h' : KeepsTree V N U' U'' s' s'') :
    KeepsTree V N U U'' s s'' :=
  ⟨h.sub.trans h'.sub, h'.mounted, h'.flags.trans h.flags, fun i hi ↦ (h'.iBlock i hi).trans (h.iBlock i hi),
    fun b hb ↦ (h'.nodes b hb).trans (h.nodes b hb)⟩

/-- A block that is not a node is stored. -/
theorem KeepsTree.put (h : V.Mounted U s.fs) (buf : Buf) (hb : ¬ V.IsMeta b) (hnot : b ∉ N) :
    KeepsTree V N U U s { s with fs := s.fs.put b buf } where
  sub := le_rfl
  mounted := h.put buf (fun g hg heq ↦ hb (.inl (.inr ⟨g, hg, .inl heq⟩)))
    fun g hg heq ↦ hb (.inl (.inr ⟨g, hg, .inr heq⟩))
  flags := rfl
  iBlock := fun _ _ ↦ rfl
  nodes := fun _ hc ↦ s.fs.block_put_of_ne _ fun heq ↦ hnot (heq ▸ hc)

/-- The first zero word is not after another. -/
theorem firstZero_le {word : ℕ → ℕ} {n i j : ℕ} (hij : i ≤ j) (hj : j < i + n) (hzero : word j = 0) :
    ∃ l, firstZero word n i = some l ∧ l ≤ j := by
  induction n generalizing i with
  | zero => omega
  | succ n ih =>
    unfold firstZero
    by_cases hi : word i = 0
    · exact ⟨i, if_pos hi, hij⟩
    · rw [if_neg hi]
      have hne : i ≠ j := fun heq ↦ hi (heq ▸ hzero)
      exact ih (by omega) (by omega)

/-- The block that is mapped in an extent root goes to a word of its header or to its first key. -/
theorem newMappedBlock_of_zero (h : V.Mounted U s.fs) (hN : ∀ b ∈ N, InUse V U b) (hheader : s.inode.word 1 ≠ 0)
    (hi : 2 ≤ i) (hi' : i ≤ 3) (hzero : s.inode.word i = 0) (hrun : newMappedBlock s = (some (phys, lblk), s')) :
    phys ∉ U ∧ 2 ≤ lblk ∧ lblk ≤ i ∧ InUse V (U ∪ {phys}) phys ∧ s'.inode = s.inode.setWord lblk phys ∧
      KeepsTree V N U (U ∪ {phys}) s s' := by
  have hnew := dirNewBlock_spec h
  obtain ⟨b, s₁, hblock, hrun⟩ := bind_eq_some_iff.1 hrun
  rw [wp_of_eq hblock] at hnew
  obtain ⟨hinode, hframe, hfresh, hdata, hmounted, -⟩ := hnew
  obtain ⟨l, hfirst, hle⟩ := firstZero_le (show 1 ≤ i by omega) (show i < 1 + (12 - 1) by omega) hzero
  obtain ⟨hpos, -, hl⟩ := firstZero_eq_some hfirst
  have hl2 : l ≠ 1 := fun heq ↦ hheader (heq ▸ hl)
  have halloc : ext4HtreeAllocLblock b 1 s₁ = (some l, { s₁ with inode := s₁.inode.setWord l b }) := by
    unfold ext4HtreeAllocLblock
    rw [guard_true hdata.1, pure_bind', get_bind, hinode, hfirst, ← hinode]
    rfl
  rw [attempt_bind, halloc] at hrun
  obtain ⟨he, rfl⟩ := Prod.mk.inj hrun
  obtain ⟨rfl, rfl⟩ := Prod.mk.inj (Option.some.inj he)
  refine ⟨hfresh, by omega, hle, ⟨.inr rfl, hdata⟩, congrArg (·.setWord l b) hinode, Set.subset_union_left,
    hmounted, (show s₁.inode.iFlags = _ from congrArg Inode.iFlags hinode), fun k hk ↦ ?_, fun c hc ↦ ?_⟩
  · show (s₁.inode.setWord l b).iBlock k = _
    rw [hinode]
    rcases hk with hk | hk
    · exact Buf.putLe_of_lt (by omega)
    · exact Buf.putLe_of_le (by omega)
  · exact hframe.block c fun hm ↦ (hN c hc).2.2.2 (.inl hm)

/-- With word 2 zero and the header in word 1, the block of the upper half is mapped in word 2. -/
theorem writeUpperHalfNew_of_zero {c : Buf} {items : List LeafItem} (h : V.Mounted U s.fs)
    (hN : ∀ b ∈ N, InUse V U b) (hheader : s.inode.word 1 ≠ 0) (hzero : s.inode.word 2 = 0)
    (hrun : writeUpperHalfNew c items s = (some (newPhys, newLblk), s')) :
    newPhys ∉ U ∧ s'.inode = s.inode.setWord 2 newPhys ∧ KeepsTree V N U (U ∪ {newPhys}) s s' := by
  unfold writeUpperHalfNew at hrun
  rw [get_bind] at hrun
  obtain ⟨⟨phys, lblk⟩, s₁, hnew, hrun⟩ := bind_eq_some_iff.1 hrun
  obtain ⟨hfresh, hlo, hhi, huse, hinode, hkeeps⟩ :=
    newMappedBlock_of_zero h hN hheader le_rfl (by norm_num) hzero hnew
  obtain rfl : lblk = 2 := by omega
  dsimp only at hrun
  rw [attempt_bind, writeBlock_eq hkeeps.mounted huse.2] at hrun
  obtain ⟨he, rfl⟩ := Prod.mk.inj hrun
  obtain ⟨rfl, rfl⟩ := Prod.mk.inj (Option.some.inj he)
  exact ⟨hfresh, hinode, hkeeps.trans (.put hkeeps.mounted _ huse.2.2.2 fun hmem ↦ hfresh (hN _ hmem).1)⟩

/-- With word 3 zero a node is mapped in word 3 at most. -/
theorem addDxEntry_keeps {rootBuf : Buf} {rootPhys info idx hMid : ℕ} {target : ℕ × Buf × DxIndex}
    (h : V.Mounted U s.fs) (hN : ∀ b ∈ N, InUse V U b) (hheader : s.inode.word 1 ≠ 0)
    (hzero : s.inode.word 3 = 0) (hroot : IsData V rootPhys ∧ rootPhys ∉ N)
    (htarget : IsData V target.1 ∧ target.1 ∉ N)
    (hrun : ext4HtreeAddDxEntry rootBuf rootPhys info target idx hMid newLblk s = (some (), s')) :
    ∃ U', KeepsTree V N U U' s s' := by
  by_cases hfull : target.2.2.nent + 1 > target.2.2.cap
  · obtain ⟨-, phys, lblk, s₁, hnew, hrun⟩ := addDxEntry_of_full hfull hrun
    obtain ⟨hfresh, -, -, huse, -, hkeeps⟩ := newMappedBlock_of_zero h hN hheader (by norm_num) le_rfl hzero hnew
    rw [bind_of_eq_some (writeBlock_eq hkeeps.mounted huse.2 _)] at hrun
    have hkeeps' := hkeeps.trans (.put hkeeps.mounted
      (grownNode rootBuf s.fs.blockSize info target.2.2 idx hMid newLblk)
      huse.2.2.2 fun hmem ↦ hfresh (hN _ hmem).1)
    rw [writeBlock_eq hkeeps'.mounted hroot.1] at hrun
    obtain rfl := (Prod.mk.inj hrun).2
    exact ⟨_, hkeeps'.trans (.put hkeeps'.mounted _ hroot.1.2.2 hroot.2)⟩
  · unfold ext4HtreeAddDxEntry at hrun
    rw [get_bind, if_neg hfull, writeBlock_eq h htarget.1] at hrun
    obtain rfl := (Prod.mk.inj hrun).2
    exact ⟨U, .put h _ htarget.1.2.2 htarget.2⟩

variable {rootPhys leafLblk ino : ℕ} {name : List Byte}

/-- A split that succeeds has parsed the root. -/
theorem exists_parseRoot {rootBuf : Buf} {new : ℕ × ℕ}
    (hrun : splitLeafNew rootBuf rootPhys leafLblk name ino s = (some new, s')) :
    ∃ info dx, ext4HtreeParseRoot rootBuf s.fs.blockSize = some (info, dx) := by
  unfold splitLeafNew at hrun
  rw [get_bind] at hrun
  obtain ⟨⟨info, dx⟩, _, hparse, -⟩ := bind_eq_some_iff.1 hrun
  exact ⟨info, dx, (ofOption_eq_some hparse).1⟩

/-- With an extent tree a lookup does not find the new leaf. -/
theorem ExtentDir.not_mapped (h : ExtentDir V U s t) (htables : V.TablesLaid)
    (hroot : (ext4DirGetBlocknr 0 s).1 = some rootPhys)
    (hrun : splitLeafNew (s.fs.block rootPhys) rootPhys leafLblk name ino s = (some (newPhys, newLblk), s')) :
    (ext4DirGetBlocknr newLblk s').1 ≠ some newPhys := by
  obtain ⟨info, dx, hparse⟩ := exists_parseRoot hrun
  obtain ⟨hbs, target, idx, leafPhys, lower, item, upper, c, s₃, s₄, htarget, -, hleaf, -, hupper, hadd,
    hrefresh⟩ :=
    h.looksUp.splitNew_of_some hparse hrun
  -- the blocks that are stored are data blocks of the tree, or new
  have hmapped : ∀ {i b}, (ext4DirGetBlocknr i s).1 = some b → IsData V b ∧ b ∉ {b | b ∈ t.nodes} := fun hb ↦
    ⟨(h.tree.used _ (h.maps_of_some hb).mem_blocks).2, (h.maps_of_some hb).not_mem_nodes h.tree.nodup⟩
  have hN : ∀ b ∈ {b | b ∈ t.nodes}, InUse V U b := fun b hb ↦ h.tree.used b (nodes_subset b hb)
  obtain ⟨_, hroot₀⟩ := h.tree.holds.header
  have hheader : s.inode.word 1 ≠ 0 := fun hzero ↦ by
    have hmax : s.inode.iBlock.le 4 2 = 4 := hroot₀.max
    have hword : s.inode.iBlock.le 4 4 = 0 := hzero
    have hsplit : s.inode.iBlock.le 4 4 = s.inode.iBlock.le 4 2 + 2 ^ 16 * s.inode.iBlock.le 6 2 := by
      simp only [Buf.le, Nat.reduceAdd]
      omega
    omega
  have htargetData : IsData V target.1 ∧ target.1 ∉ {b | b ∈ t.nodes} := by
    split at htarget
    · obtain ⟨phys, node, dx'⟩ := target
      exact hmapped (h.looksUp.readDxNode_of_some htarget).2.1
    · obtain rfl := Option.some.inj (Prod.mk.inj htarget).1
      exact hmapped hroot
  have hput : KeepsTree V {b | b ∈ t.nodes} U U s { s with fs := s.fs.put leafPhys c } :=
    .put h.tree.mounted c (hmapped hleaf).1.2.2 (hmapped hleaf).2
  obtain ⟨hfresh, hinode, hkeeps⟩ := writeUpperHalfNew_of_zero hput.mounted hN hheader h.generation hupper
  have hword : ∀ i, i ≠ 2 → s₃.inode.word i = s.inode.word i := fun i hi ↦ by
    rw [hinode]
    exact s.inode.word_setWord_of_ne newPhys hi
  obtain ⟨U', hadded⟩ := addDxEntry_keeps hkeeps.mounted (fun b hb ↦ (hN b hb).mono hkeeps.sub)
    (hword 1 (by norm_num) ▸ hheader) ((hword 3 (by norm_num)).trans h.first) (hmapped hroot) htargetData hadd
  obtain ⟨fs', iSize, iBlocks, rfl, hmounted, hblock⟩ := refresh_of_some hadded.mounted htables hrefresh
  have hall := (hput.trans hkeeps).trans hadded
  intro hfound
  have hext : ({ s₄.inode with iSize, iBlocks } : Inode).hasExtents = true := by
    rw [Inode.hasExtents, show ({ s₄.inode with iSize, iBlocks } : Inode).iFlags = s.inode.iFlags from hall.flags]
    exact h.ext
  have hcovers := @getBlocknr_covers V U' ⟨fs', { s₄.inode with iSize, iBlocks }⟩ _ _ hmounted hext hfound
  have hdepth : Node.depth s₄.inode.iBlock = d :=
    (Buf.getField_congr fun i _ hlt ↦
      hall.iBlock i (.inl (by simp only [Eh.depth] at hlt; omega))).trans hroot₀.depth
  have hholds : t.Holds fs'.block (nodeCap V.bs) rootCap s.inode.iBlock :=
    h.tree.holds.congr fun b hb ↦ (hblock b (hN b hb).2.2.2).trans (hall.nodes b hb)
  change newPhys ∈ Covers fs'.block (Node.depth s₄.inode.iBlock) s₄.inode.iBlock at hcovers
  rw [hdepth, covers_congr hall.iBlock] at hcovers
  exact hfresh (h.tree.used _ (hholds.covers_subset (fun b hb ↦ h.tree.lt_two_pow hb) hcovers)).1

/-- The index of `s` is in its block 0, and the directory has the block map or an extent tree. -/
structure OnVolume (V : Volume) (U : Set ℕ) (s : FsInode) (rootPhys : ℕ) : Prop where
  tables : V.TablesLaid
  root : (ext4DirGetBlocknr 0 s).1 = some rootPhys
  map : DirOn V U s ∨ ∃ d, ∃ t : ExtTree d, ExtentDir V U s t

/-- The split of a leaf leaves what the directory maps alone, and maps the new leaf at the logical block
that goes into the index. -/
def RespectsMap (s s' : FsInode) (rootPhys leafLblk : ℕ) (name : List Byte) (ino : ℕ) : Prop :=
  ∃ new, (splitLeafNew (s.fs.block rootPhys) rootPhys leafLblk name ino s).1 = some new ∧
    (∀ lblk b, (ext4DirGetBlocknr lblk s).1 = some b → (ext4DirGetBlocknr lblk s').1 = some b) ∧
    (ext4DirGetBlocknr new.2 s').1 = some new.1

/-- In a directory without extents the map is respected. -/
theorem DirOn.respectsMap (h : DirOn V U s) (htables : V.TablesLaid)
    (hroot : (ext4DirGetBlocknr 0 s).1 = some rootPhys)
    (hrun : splitLeafNew (s.fs.block rootPhys) rootPhys leafLblk name ino s = (some (newPhys, newLblk), s')) :
    RespectsMap s s' rootPhys leafLblk name ino := by
  obtain ⟨info, dx, hparse⟩ := exists_parseRoot hrun
  obtain ⟨hbs, target, idx, lower, item, upper, c, U', s₃, s₄, htarget, -, -, -, hh, -, hadd, hrefresh⟩ :=
    h.splitNew_of_some hparse hrun
  have hmapped : ∀ {i b}, (ext4DirGetBlocknr i s).1 = some b →
      InUse V U b ∧ b ≠ s.inode.word 12 := fun {i b} hb ↦ by
    obtain ⟨rfl, hne⟩ := h.of_getBlocknr_some hbs hb
    exact ⟨h.inUse i hne, h.apart i hne⟩
  have htargetUse : InUse V U target.1 ∧ target.1 ≠ s.inode.word 12 := by
    split at htarget
    · obtain ⟨phys, node, dx'⟩ := target
      exact hmapped (h.looksUp.readDxNode_of_some htarget).2.1
    · obtain rfl := Option.some.inj (Prod.mk.inj htarget).1
      exact hmapped hroot
  have hadded : ∃ U'', DirOn V U'' s₄ ∧ ∀ i, s₃.dirWord i ≠ 0 → s₄.dirWord i = s₃.dirWord i := by
    by_cases hfull : target.2.2.nent + 1 > target.2.2.cap
    · obtain ⟨-, -, U'', -, hdir, -, hkept, -⟩ := hh.dir.grow_of_full hfull ((hmapped hroot).1.mono hh.sub)
        (hh.indirect _ (hmapped hroot).1.1 (hmapped hroot).2) hadd
      exact ⟨U'', hdir, hkept⟩
    · unfold ext4HtreeAddDxEntry at hadd
      rw [get_bind, if_neg hfull, writeBlock_eq hh.dir.mounted htargetUse.1.2] at hadd
      obtain rfl := (Prod.mk.inj hadd).2
      obtain ⟨hdir, hword⟩ := hh.dir.put _ htargetUse.1.2.2.2 (hh.indirect _ htargetUse.1.1 htargetUse.2)
      exact ⟨U', hdir, fun i _ ↦ hword i⟩
  obtain ⟨U'', hdir, hkept⟩ := hadded
  obtain ⟨hdir', hword', -⟩ := hdir.refresh htables hrefresh
  have hresolves : ∀ i b, b ≠ 0 → s₃.dirWord i = b → (ext4DirGetBlocknr i s').1 = some b := by
    rintro i _ hne rfl
    have heq : s'.dirWord i = s₃.dirWord i := (hword' i).trans (hkept i hne)
    rw [hdir'.getBlocknr_of_ne hbs (heq ▸ hne), heq]
  refine ⟨_, congrArg Prod.fst hrun, fun i b hb ↦ ?_, hresolves newLblk newPhys hh.ne_zero hh.maps⟩
  obtain ⟨rfl, hne⟩ := h.of_getBlocknr_some hbs hb
  exact hresolves i _ hne (hh.other i fun heq ↦ hne (heq ▸ hh.unmapped))

/-- **A split that succeeds leaves the map of the directory alone and maps the new leaf, exactly where the
directory has no extents.** -/
theorem respectsMap_iff (h : OnVolume V U s rootPhys)
    (hrun : ext4HtreeSplitLeaf (s.fs.block rootPhys) rootPhys leafLblk name ino s = (some (), s')) :
    RespectsMap s s' rootPhys leafLblk name ino ↔ s.inode.hasExtents = false := by
  obtain ⟨⟨newPhys, newLblk⟩, hnew⟩ := exists_splitLeafNew hrun
  rcases h.map with hdir | ⟨d, t, hext⟩
  · exact iff_of_true (hdir.respectsMap h.tables h.root hnew) hdir.noExtents
  · refine iff_of_false ?_ (by rw [hext.ext]; exact Bool.true_eq_false_eq_False)
    rintro ⟨new, hnew', -, hmaps⟩
    rw [hnew] at hnew'
    obtain rfl := Option.some.inj hnew'
    exact hext.not_mapped h.tables h.root hnew hmaps

/-! ### The index -/

/-- An indexed directory with the block map or an extent tree. The index nodes are blocks of their own: not
the root, not leaves, and not two of them in one block. -/
structure IndexedOn (V : Volume) (U : Set ℕ) (s : FsInode) (rootPhys : ℕ) (nodes seq : List (ℕ × ℕ)) : Prop
    extends OnVolume V U s rootPhys where
  bs_ge : 1024 ≤ V.bs
  index : IsIndex s rootPhys nodes seq
  nodes_nodup : (0 :: nodes.map Prod.snd).Nodup
  leaves : ∀ e ∈ seq, e.2 ∉ 0 :: nodes.map Prod.snd

variable {nodes seq : List (ℕ × ℕ)}

/-- With the block map it is one of those that `Ext4.DxSplit` is about. -/
theorem IndexedOn.indexed (h : IndexedOn V U s rootPhys nodes seq) (hdir : DirOn V U s)
    (hbs : V.bs ≤ blockSizeDefault) : Indexed V U s rootPhys nodes seq := by
  obtain ⟨hword, hne⟩ := hdir.of_getBlocknr_some hbs h.root
  exact {
    dir := hdir
    tables := h.tables
    bs_ge := h.bs_ge
    rootPhys_ne := hword ▸ hne
    root := hword
    index := h.index
    nodes_nodup := h.nodes_nodup
    leaves := h.leaves }

/-- **A split that succeeds enters the new leaf behind the one that was split, exactly where the root is not
full with the leaves in it, and the directory has no extents.** -/
theorem insertsEntry_iff (h : IndexedOn V U s rootPhys nodes seq)
    (hrun : ext4HtreeSplitLeaf (s.fs.block rootPhys) rootPhys leafLblk name ino s = (some (), s')) :
    InsertsEntry s s' rootPhys leafLblk name ino seq ↔
      ¬ FullRoot s rootPhys ∧ s.inode.hasExtents = false := by
  obtain ⟨⟨newPhys, newLblk⟩, hnew⟩ := exists_splitLeafNew hrun
  rcases h.map with hdir | ⟨d, t, hext⟩
  · obtain ⟨info, dx, hparse⟩ := exists_parseRoot hnew
    have hindexed := h.indexed hdir (hdir.splitNew_of_some hparse hnew).1
    exact ⟨fun hinserts ↦ ⟨fun hfull ↦ hindexed.not_insertsEntry hfull hrun hinserts, hdir.noExtents⟩,
      fun hroom ↦ hindexed.insertsEntry hroom.1 hrun⟩
  · -- the logical block that goes into the index does not lead to the new leaf
    refine iff_of_false ?_ fun hroom ↦ Bool.false_ne_true (hroom.2.symm.trans hext.ext)
    rintro ⟨pre, e, post, leafPhys, lower, item, upper, lblk, phys, nodes', -, -, -, -, hnew', -, hmaps, -, -⟩
    rw [hnew] at hnew'
    obtain ⟨rfl, rfl⟩ := Prod.mk.inj (Option.some.inj hnew')
    exact hext.not_mapped h.tables h.root hnew hmaps

/-! ### Two small directories -/

theorem indexDir_indexedOn {limit : ℕ} (h : limit = 1 ∨ limit = 508) :
    IndexedOn indexVolume indexUsed (indexDir limit) 9 [] [(0, 1)] := by
  obtain ⟨hdir, htables, hge, -, -, hindex, hnodup, hleaves⟩ := indexDir_indexed h
  refine ⟨⟨htables, ?_, .inl hdir⟩, hge, hindex, hnodup, hleaves⟩
  rcases h with rfl | rfl <;> decide +kernel

theorem insertsEntry_iff_room :
    InsertsEntry (indexDir 508) (ext4HtreeSplitLeaf ((indexDir 508).fs.block 9) 9 1 [98] 13 (indexDir 508)).2 9 1
      [98] 13 [(0, 1)] ↔ ¬ FullRoot (indexDir 508) 9 ∧ (indexDir 508).inode.hasExtents = false :=
  insertsEntry_iff (indexDir_indexedOn (.inr rfl)) (eq_of_fst_eq (by decide +kernel))

theorem not_insertsEntry_full : ¬ ∀ (V : Volume) (U : Set ℕ) (s s' : FsInode) (rootPhys leafLblk ino : ℕ)
    (name : List Byte) (nodes seq : List (ℕ × ℕ)), IndexedOn V U s rootPhys nodes seq →
      ext4HtreeSplitLeaf (s.fs.block rootPhys) rootPhys leafLblk name ino s = (some (), s') →
        InsertsEntry s s' rootPhys leafLblk name ino seq := by
  intro hall
  have hrun : ext4HtreeSplitLeaf ((indexDir 1).fs.block 9) 9 1 [98] 13 (indexDir 1) = (some (), _) :=
    eq_of_fst_eq (by decide +kernel)
  refine (indexDir_indexed (.inl rfl)).not_insertsEntry ⟨24, ⟨32, 1, 1⟩, ?_, ?_, rfl⟩ hrun
    (hall _ _ _ _ _ _ _ _ _ _ (indexDir_indexedOn (.inl rfl)) hrun)
  · decide +kernel
  · decide +kernel

/-- The root of an extent tree for the blocks 9 and 10. -/
def extentsRoot : Buf :=
  Node.setExtent (Node.setEntries (Node.ext4ExtentsInitNode Buf.zero iBlockSize 0) 1) 0 ⟨0, 2, 9⟩

/-- The directory of `indexDir`, with an extent tree. -/
def extentsDir : FsInode :=
  ⟨indexFs 508, { indexInode with iFlags := ext4InodeFlagIndex ||| ext4InodeFlagExtents, iBlock := extentsRoot }⟩

theorem extentsDir_extentDir : @ExtentDir indexVolume indexUsed extentsDir 0 [⟨0, 2, 9⟩] := by
  have hgeom := Mkfs.mounted_small.1
  have hheader : Node.magic extentsRoot = ext4ExtMagic ∧ Node.depth extentsRoot = 0 ∧
    Node.max extentsRoot = rootCap ∧ Node.entries extentsRoot = 1 := by decide
  have hlist : Node.extents extentsRoot = [⟨0, 2, 9⟩] := by decide
  rw [Node.extents, hheader.2.2.2] at hlist
  refine ⟨?_, ?_, ?_, ?_⟩
  · exact {
      mounted := indexDir_mounted 508
      bs_ge := by
        show 1024 ≤ Mkfs.smallSb.sBlockSize
        rw [hgeom.sBlockSize]
        norm_num
      kind := .inr (show sIsdir 0o40755 by decide)
      pool := by
        show ext4ExtMaxDepth < (indexFs 508).extPool
        decide +kernel
      depth_le := Nat.zero_le _
      bs_le := fun h0 ↦ absurd h0 (lt_irrefl _)
      holds := ⟨⟨⟨hheader.1, hheader.2.1, hheader.2.2.1, hheader.2.2.2⟩, hlist⟩, by decide⟩
      ordered := ⟨0, by decide, by decide, by decide⟩
      nodup := by decide
      used := fun b hb ↦ by
        have hmem : ∀ b ∈ @ExtTree.blocks 0 [⟨0, 2, 9⟩], 9 ≤ b ∧ b < 12 := by decide
        exact indexUsed_inUse (hmem b hb).1 (hmem b hb).2 }
  · show ((ext4InodeFlagIndex ||| ext4InodeFlagExtents) &&& ext4InodeFlagExtents != 0) = true
    decide
  · show extentsRoot.le 8 4 = 0
    decide
  · show extentsRoot.le 12 4 = 0
    decide

theorem extentsDir_onVolume : OnVolume indexVolume indexUsed extentsDir 9 :=
  ⟨indexVolume_tablesLaid, by decide +kernel, .inr ⟨0, _, extentsDir_extentDir⟩⟩

theorem extentsDir_split : ext4HtreeSplitLeaf (extentsDir.fs.block 9) 9 1 [98] 13 extentsDir =
    (some (), (ext4HtreeSplitLeaf (extentsDir.fs.block 9) 9 1 [98] 13 extentsDir).2) :=
  eq_of_fst_eq (by decide +kernel)

theorem respectsMap_iff_small :
    RespectsMap extentsDir (ext4HtreeSplitLeaf (extentsDir.fs.block 9) 9 1 [98] 13 extentsDir).2 9 1 [98] 13 ↔
      extentsDir.inode.hasExtents = false :=
  respectsMap_iff extentsDir_onVolume extentsDir_split

theorem not_respectsMap_extents : ¬ ∀ (V : Volume) (U : Set ℕ) (s s' : FsInode) (rootPhys leafLblk ino : ℕ)
    (name : List Byte), OnVolume V U s rootPhys →
      ext4HtreeSplitLeaf (s.fs.block rootPhys) rootPhys leafLblk name ino s = (some (), s') →
        RespectsMap s s' rootPhys leafLblk name ino := by
  intro hall
  obtain ⟨⟨newPhys, newLblk⟩, hnew⟩ := exists_splitLeafNew extentsDir_split
  obtain ⟨new, hnew', -, hmaps⟩ := hall _ _ _ _ _ _ _ _ extentsDir_onVolume extentsDir_split
  rw [hnew] at hnew'
  obtain rfl := Option.some.inj hnew'
  exact extentsDir_extentDir.not_mapped extentsDir_onVolume.tables extentsDir_onVolume.root hnew hmaps

end FsInode

end MiniExt4
