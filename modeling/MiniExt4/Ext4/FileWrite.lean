import MiniExt4.Ext4.DirExtents
import MiniExt4.Ext4.ExtentAppend
import MiniExt4.Ext4.FileRead

/-!
# Writing a regular file

A file that was made empty and is written at or before its end is an array of bytes: a read returns what the
last write to each position has stored (`FsFile.fileWrite_keeps`, `FsFile.fileRead_keeps`). Its tree is packed,
and the blocks in it are its own, so that no write changes a block that was in use before the file was made. The
invariant of a write that is under way is `Solid`, for the bytes that are known at that point.

A write may find no room for a block that it looks for ahead. Nothing in the tree is changed then, and the
write goes on with the blocks that it has.

A step of the loop may look up blocks ahead of the position and create them, store a run of whole blocks or
one block with the bytes around those that are written, and move the end of the file. `Looked` is what the
first part leaves, and `writeStep_keeps` the rule for the whole step, from which the one for the loop is an
induction on the bytes that are left.
-/

/-- In lists without repetition an element of a part tells the part. -/
theorem List.eq_of_mem_flatMap {α β : Type*} {f : α → List β} {l : List α} {a a' : α} {b : β}
    (h : (l.flatMap f).Nodup) (ha : a ∈ l) (ha' : a' ∈ l) (hb : b ∈ f a) (hb' : b ∈ f a') : a = a' := by
  by_contra hne
  have : Std.Symm (Function.onFun List.Disjoint f) := ⟨fun _ _ hdisj _ hx hy ↦ hdisj hy hx⟩
  exact (List.nodup_flatMap.1 h).2.forall ha ha' hne hb hb'

namespace MiniExt4

open StateErr Keyed ExtTree
open Releasing (IsData)

/-! ### The blocks of a tree -/

namespace ExtTree

variable {d lo first k hi H x y b : ℕ} {t : ExtTree d}

/-- A block has the data of one logical block. -/
theorem Maps.inj (h : t.Maps x b) (h' : t.Maps y b) (hnodup : t.blocks.Nodup) : x = y := by
  induction d with
  | zero =>
    obtain ⟨e, he, hle, hlt, hb⟩ := h
    obtain ⟨e', he', hle', hlt', hb'⟩ := h'
    unfold Extent.stop at hlt hlt'
    have hmem : b ∈ List.range' e.eeStart e.eeLen := List.mem_range'_1.2 (by omega)
    have hmem' : b ∈ List.range' e'.eeStart e'.eeLen := List.mem_range'_1.2 (by omega)
    obtain rfl : e = e' := List.eq_of_mem_flatMap hnodup he he' hmem hmem'
    omega
  | succ d ih =>
    obtain ⟨c, hc, hmaps⟩ := h
    obtain ⟨e, he, hmaps'⟩ := h'
    obtain rfl : c = e := List.eq_of_mem_flatMap hnodup (locate_mem hc) (locate_mem he)
      (List.mem_append_left _ hmaps.mem_blocks) (List.mem_append_left _ hmaps'.mem_blocks)
    exact ih hmaps hmaps' (List.nodup_append.1 ((List.nodup_flatMap.1 hnodup).1 c (locate_mem hc))).1

/-- A root is where its entries can be. -/
theorem Holds.congr_root {rd : ℕ → Buf} {cap m : ℕ} {eh eh' : Buf} (h : t.Holds rd cap m eh)
    (heq : ∀ o < Node.entryOff m, eh' o = eh o) : t.Holds rd cap m eh' := by
  have hoff : ∀ {n}, n ≤ m → Node.entryOff n ≤ Node.entryOff m := fun hn ↦
    Nat.add_le_add_left (Nat.mul_le_mul_right _ hn) _
  cases d with
  | zero => exact ⟨h.1.congr fun o ho ↦ heq o (ho.trans_le (hoff h.2)), h.2⟩
  | succ d =>
    refine ⟨h.1.congr fun o ho ↦ heq o (ho.trans_le (hoff ?_)), h.2⟩
    rw [List.length_map]
    exact h.2.1

/-- The extents of a packed tree end before the ranges of their leaves do. -/
theorem Packed.inside (h : t.Packed lo hi) (hle : hi ≤ H) : t.Inside lo H := by
  induction d generalizing lo hi H with
  | zero =>
    intro e he
    obtain ⟨lo', hi', -, -, hhi, -, hstop⟩ := Chained.of_mem h he
    exact (hstop.trans_le hhi).trans hle
  | succ d ih =>
    change Divides entryKey (fun lo hi c ↦ Inside lo hi c.2) H lo t
    induction t generalizing lo with
    | nil => trivial
    | cons c t iht =>
      obtain ⟨mid, hlt, ⟨hkey, hc⟩, hrest⟩ := h
      cases t with
      | nil =>
        obtain rfl : mid = hi := hrest
        exact ⟨ih hc hle, trivial⟩
      | cons c' t =>
        have hmid : entryKey c' = mid := Chained.head_key (fun _ _ _ hp ↦ hp.1) hrest
        refine ⟨ih hc hmid.ge, ?_⟩
        rw [headKey_cons, hmid]
        exact iht hrest

end ExtTree

/-! ### Storing a run of blocks -/

namespace Fs

/-- The filesystem after a run of `n` blocks from block `b` on was stored. -/
def putRun (fs : Fs) (b : ℕ) (buf : Buf) : ℕ → Fs
  | 0 => fs
  | n + 1 => (fs.putRun b buf n).put (b + n) fun i ↦ buf (n * fs.blockSize + i)

theorem putRun_blockSize (fs : Fs) (b : ℕ) (buf : Buf) (n : ℕ) : (fs.putRun b buf n).blockSize = fs.blockSize := by
  induction n with
  | zero => rfl
  | succ n ih => exact ih

/-- The blocks of a run are one piece of the device. -/
theorem putRun_eq (fs : Fs) (b : ℕ) (buf : Buf) (n : ℕ) :
    fs.putRun b buf n = { fs with dev := fs.dev.store (b * fs.blockSize) buf 0 (n * fs.blockSize) } := by
  induction n with
  | zero => rw [putRun, Nat.zero_mul, BlockDevice.store, Buf.blit_zero_len]
  | succ n ih =>
    have hshift : ∀ (dst : Buf) (o k m : ℕ), dst.blit o (fun i ↦ buf (k + i)) 0 m = dst.blit o buf (0 + k) m := by
      intro dst o k m
      funext i
      simp only [Buf.blit, Nat.zero_add]
    have hpieces := Buf.blit_blit_adjacent fs.dev.media buf (b * fs.blockSize) 0 (n * fs.blockSize) fs.blockSize
    rw [putRun, ih]
    simp only [put, BlockDevice.putBlock, BlockDevice.store, hshift, Nat.add_mul, Nat.one_mul, hpieces]

theorem block_putRun_of_notMem (fs : Fs) {b c : ℕ} (buf : Buf) {n : ℕ} (h : c < b ∨ b + n ≤ c) :
    (fs.putRun b buf n).block c = fs.block c := by
  induction n with
  | zero => rfl
  | succ n ih => rw [putRun, block_put_of_ne _ _ (by omega), ih (by omega)]

theorem block_putRun (fs : Fs) (b : ℕ) (buf : Buf) {n j : ℕ} (h : j < n) :
    (fs.putRun b buf n).block (b + j) = Buf.clip fs.blockSize fun i ↦ buf (j * fs.blockSize + i) := by
  induction n with
  | zero => exact absurd h (Nat.not_lt_zero j)
  | succ n ih =>
    rw [putRun]
    by_cases hj : j = n
    · rw [hj, block_put_self, putRun_blockSize]
    · rw [block_put_of_ne _ _ (by omega), ih (by omega)]

/-- Writing a run on a device that works. -/
theorem Usable.writeRun {fs : Fs} {N b n : ℕ} (h : fs.Usable N) (hb : b + n ≤ N) (hn : 0 < n)
    (hwrap : n * fs.blockSize < 2 ^ 32) (buf : Buf) :
    Fs.writeRun b n buf fs = (some (), fs.putRun b buf n) := by
  rw [Fs.writeRun]
  by_cases hone : n > 1
  · have hpos := BlockDevice.Usable.sectorsPerBlock_pos h
    have hle : n * (fs.blockSize / fs.dev.bdSectorSize) ≤ n * fs.blockSize :=
      Nat.mul_le_mul_left _ (Nat.div_le_self _ _)
    rw [if_pos hone, putRun_eq, writeBlocks, io, zoom_apply, ext4WriteBlocks]
    simp only [BlockDevice.Usable.ext4SectorsPerBlock_eq h]
    rw [if_neg hn.ne', Nat.mod_eq_of_lt (by omega), blkdevWriteSectors_quiet h.quiet (Nat.mul_pos hn hpos)
      (BlockDevice.Usable.sectors_le h hb), BlockDevice.Usable.sectors_mul h, BlockDevice.Usable.sectors_mul h]
  · obtain rfl : n = 1 := by omega
    rw [if_neg hone, h.writeBlock (by omega), putRun, putRun, Nat.zero_mul]
    simp only [Nat.zero_add, Nat.add_zero]

end Fs

namespace FsInode

variable {V : Volume} {U₀ U : Set ℕ} {img : ℕ → Buf} {f : ℕ → Byte} {K d k x b : ℕ} {s s' : FsInode} {t : ExtTree d}

/-! ### A file that is written -/

/-- The file has the packed tree `t`, whose blocks were not in use before, and its first `K` bytes are those
of `f`. The blocks that were in use before are those of `img`. -/
structure Solid (V : Volume) (U₀ : Set ℕ) (img : ℕ → Buf) (f : ℕ → Byte) (K : ℕ) (U : Set ℕ) (s : FsInode)
    {d : ℕ} (t : ExtTree d) (k : ℕ) : Prop where
  base : U₀ ⊆ U
  tree : Tree V U s t
  packed : t.Packed 0 k
  own : ∀ b ∈ t.blocks, b ∉ U₀
  others : ∀ b ∈ U₀, ¬ V.AllocMeta b → s.fs.block b = img b
  regular : sIsreg s.inode.iMode
  extents : s.inode.hasExtents
  le : K ≤ k * V.bs
  bytes : ∀ i < K, ∀ b, t.Maps (i / V.bs) b → s.fs.block b (i % V.bs) = f i

theorem Tree.maps_unique (h : Tree V U s t) {c : ℕ} (hb : t.Maps x b) (hc : t.Maps x c) : b = c := by
  have heq := (h.resolves_iff.2 hb).2.symm.trans (h.resolves_iff.2 hc).2
  exact congrArg Prod.fst (Option.some.inj heq)

theorem Solid.maps_iff (h : Solid V U₀ img f K U s t k) (y : ℕ) : (∃ b, t.Maps y b) ↔ y < k := by
  obtain ⟨_, hord⟩ := h.tree.ordered
  rw [h.packed.maps_iff hord y]
  exact and_iff_right (Nat.zero_le y)

/-- There are not more logical blocks than blocks on the volume. -/
theorem Solid.le_blocks (h : Solid V U₀ img f K U s t k) : k ≤ V.blocks := by
  choose! g hg using fun y ↦ (h.maps_iff y).2
  have hcard := Finset.card_le_card_of_injOn (s := Finset.range k) (t := Finset.range V.blocks) g
    (fun y hy ↦ Finset.mem_coe.2 (Finset.mem_range.2
      (h.tree.used _ (hg y (Finset.mem_range.1 hy)).mem_blocks).2.2.1))
    (fun y hy z hz heq ↦ (hg y (Finset.mem_range.1 hy)).inj (heq ▸ hg z (Finset.mem_range.1 hz)) h.tree.nodup)
  rwa [Finset.card_range, Finset.card_range] at hcard

/-- The block of a byte that is known is mapped. -/
theorem Solid.exists_maps (h : Solid V U₀ img f K U s t k) {i : ℕ} (hi : i < K) : ∃ b, t.Maps (i / V.bs) b :=
  (h.maps_iff _).2 (Nat.div_lt_of_lt_mul (by rw [Nat.mul_comm]; exact hi.trans_le h.le))

/-- What is not in `i_block`, the mode or the flags may change. -/
theorem Solid.withInode (h : Solid V U₀ img f K U s t k) {n : Inode}
    (hroot : ∀ o < iBlockSize, n.iBlock o = s.inode.iBlock o) (hmode : n.iMode = s.inode.iMode)
    (hflags : n.iFlags = s.inode.iFlags) : Solid V U₀ img f K U { s with inode := n } t k :=
  { h with
    tree := { h.tree with
      kind := by
        change sIsreg n.iMode ∨ sIsdir n.iMode
        rw [hmode]
        exact h.tree.kind
      holds := h.tree.holds.congr_root fun o ho ↦ hroot o (ho.trans_le (by decide)) }
    regular := by
      change sIsreg n.iMode
      rw [hmode]
      exact h.regular
    extents := by
      change n.hasExtents
      rw [Inode.hasExtents, hflags]
      exact h.extents }

/-- The tree may grow. -/
theorem Solid.grew {U' : Set ℕ} {d' k' : ℕ} {t' : ExtTree d'} (h : Solid V U₀ img f K U s t k)
    (hgrew : Grew V U U' s s' t t' k') (hk : k ≤ k') : Solid V U₀ img f K U' s' t' k' where
  base := h.base.trans hgrew.marks
  tree := hgrew.tree
  packed := hgrew.packed
  own b hb hU := (hgrew.isNew b hb).elim (fun hb ↦ h.own b hb hU) fun hb ↦ hb (h.base hU)
  others b hU hb := by
    rw [← h.others b hU hb]
    exact hgrew.block b (h.base hU) hb fun hmem ↦ h.own b (nodes_subset b hmem) hU
  regular := by
    rw [hgrew.later.iMode]
    exact h.regular
  extents := by
    rw [Inode.hasExtents, hgrew.later.iFlags]
    exact h.extents
  le := h.le.trans (Nat.mul_le_mul_right _ hk)
  bytes i hi b hb := by
    obtain ⟨c, hc⟩ := h.exists_maps hi
    obtain rfl := hgrew.tree.maps_unique hb (hgrew.old _ _ hc)
    obtain ⟨hU, hdata⟩ := h.tree.used b hc.mem_blocks
    rw [hgrew.block b hU (not_allocMeta_of_isData hdata) (hc.not_mem_nodes h.tree.nodup), h.bytes i hi b hc]

theorem mounted_putRun {fs : Fs} (h : V.Mounted U fs) (buf : Buf) {n : ℕ} (hdata : ∀ j < n, IsData V (b + j)) :
    V.Mounted U (fs.putRun b buf n) := by
  induction n with
  | zero => exact h
  | succ n ih => exact mounted_put (ih fun j hj ↦ hdata j (by omega)) _ (hdata n (Nat.lt_succ_self n))

/-- A run of blocks of the file is stored. -/
theorem Solid.putRun {f' : ℕ → Byte} {K' n : ℕ} (h : Solid V U₀ img f K U s t k)
    (hmaps : ∀ j < n, t.Maps (x + j) (b + j)) (buf : Buf) (hK : K' ≤ k * V.bs)
    (hf : ∀ i < K', (x * V.bs ≤ i ∧ i < (x + n) * V.bs ∧ f' i = buf (i - x * V.bs)) ∨
      (i < x * V.bs ∨ (x + n) * V.bs ≤ i) ∧ i < K ∧ f' i = f i) :
    Solid V U₀ img f' K' U { s with fs := s.fs.putRun b buf n } t k := by
  have hbs := h.tree.mounted.blockSize
  have hpos : 0 < V.bs := lt_of_lt_of_le (by norm_num) h.tree.bs_ge
  have hnotin : ∀ {c}, (∀ j < n, c ≠ b + j) → c < b ∨ b + n ≤ c := fun {c} hc ↦ by
    by_contra hin
    exact hc (c - b) (by omega) (by omega)
  refine { h with
    tree := h.tree.of_same subset_rfl (mounted_putRun h.tree.mounted buf fun j hj ↦
      (h.tree.used _ (hmaps j hj).mem_blocks).2) ?_ (.refl _) rfl fun c hc ↦ ?_
    others := fun c hc hdatac ↦ ?_
    le := hK
    bytes := fun i hi c hc ↦ ?_ }
  · rw [Fs.putRun_eq]
  · refine s.fs.block_putRun_of_notMem buf (hnotin fun j hj heq ↦ ?_)
    exact (hmaps j hj).not_mem_nodes h.tree.nodup (heq ▸ hc)
  · rw [← h.others c hc hdatac]
    refine s.fs.block_putRun_of_notMem buf (hnotin fun j hj heq ↦ ?_)
    exact h.own _ (hmaps j hj).mem_blocks (heq ▸ hc)
  show (s.fs.putRun b buf n).block c (i % V.bs) = _
  have hdm := Nat.div_add_mod' i V.bs
  have hmod := Nat.mod_lt i hpos
  -- a byte of the run is the new one, another is the old one
  rcases hf i hi with ⟨hle, hlt, hval⟩ | ⟨hout, hlt, hval⟩
  · -- the byte is in the run
    have hx : x ≤ i / V.bs := (Nat.le_div_iff_mul_le hpos).2 hle
    have hxn : i / V.bs < x + n := Nat.div_lt_of_lt_mul (by rwa [Nat.mul_comm])
    obtain ⟨j, hj⟩ := Nat.exists_eq_add_of_le hx
    rw [hj] at hc
    obtain rfl := h.tree.maps_unique hc (hmaps j (by omega))
    rw [Fs.block_putRun _ _ _ (show j < n by omega), hbs, Buf.clip_of_lt _ hmod, hval]
    congr 1
    rw [hj, Nat.add_mul] at hdm
    omega
  · have hne : ∀ j < n, c ≠ b + j := by
      rintro j hj rfl
      have hij := hc.inj (hmaps j hj) h.tree.nodup
      rcases hout with hout | hout
      · exact absurd (Nat.div_lt_of_lt_mul (by rwa [Nat.mul_comm])) (show ¬ i / V.bs < x by omega)
      · exact absurd ((Nat.le_div_iff_mul_le hpos).2 hout) (by omega)
    rw [s.fs.block_putRun_of_notMem buf (hnotin hne), h.bytes i hlt c hc, hval]

/-! ### Looking for the next blocks -/

/-- The map of a regular file with extents is its tree. -/
theorem getDataBlock_eq (hreg : sIsreg s.inode.iMode) (hext : s.inode.hasExtents) (x : ℕ) (create : Bool) :
    ext4GetDataBlock x create s = ext4ExtentsGetBlock x create s := by
  unfold ext4GetDataBlock
  rw [get_bind, if_pos hreg, if_neg (by rw [hext]; simp)]
  dsimp only
  rw [get_bind, if_pos hext]

/-- What is known after a block was looked up: it is mapped, or the call has failed, and the bytes are what
they were. -/
def Looked (V : Volume) (U₀ : Set ℕ) (img : ℕ → Buf) (f : ℕ → Byte) (K x k : ℕ) (s : FsInode)
    (maps : ℕ → ℕ → Prop) :
    Option (ℕ × Bool) → FsInode → Prop := fun r s' ↦
  s.inode.Later s'.inode ∧ (x < k → s' = s) ∧ ∃ U' d' k', ∃ t' : ExtTree d', k ≤ k' ∧
    Solid V U₀ img f K U' s' t' k' ∧ (∀ y b, maps y b → t'.Maps y b) ∧ ∀ r₀ ∈ r, x < k' ∧ t'.Maps x r₀.1 ∧
      (r₀.2 = true → k ≤ x)

/-- **A block that is mapped is found, and the one behind the last is made.** -/
theorem Solid.getDataBlock (h : Solid V U₀ img f K U s t k) (hx : x ≤ k) (hlt : x + ext4ExtInitMaxLen < 2 ^ 32) :
    wp (ext4GetDataBlock x true) (Looked V U₀ img f K x k s fun y b ↦ t.Maps y b) s := by
  have hrun := getDataBlock_eq h.regular h.extents x true
  rcases Nat.lt_or_eq_of_le hx with hx | rfl
  · obtain ⟨b, hb⟩ := (h.maps_iff x).2 hx
    rcases h.tree.getBlock x true with ⟨c, hc, hget⟩ | ⟨hfree, -⟩
    · rw [wp_of_eq (hrun.trans hget)]
      refine ⟨.refl _, fun _ ↦ rfl, U, d, k, t, le_rfl, h, fun _ _ hy ↦ hy, fun r₀ hr ↦ ?_⟩
      obtain rfl := Option.some.inj hr
      exact ⟨hx, hc, nofun⟩
    · exact absurd hb (hfree b)
  · have happ := h.tree.append h.packed hlt
    unfold wp at happ ⊢
    rw [hrun]
    rcases hr : ext4ExtentsGetBlock x true s with ⟨_ | r₀, s'⟩ <;> rw [hr] at happ
    · obtain ⟨U', hgrew⟩ := happ
      exact ⟨hgrew.later, fun hlt ↦ absurd hlt (lt_irrefl x), U', d, x, t, le_rfl, h.grew hgrew le_rfl,
        fun _ _ hy ↦ hy, nofun⟩
    · obtain ⟨U', d', k', t', hk, -, hmaps, hgrew⟩ := happ
      refine ⟨hgrew.later, fun hlt ↦ absurd hlt (lt_irrefl x), U', d', k', t', hk.le, h.grew hgrew hk.le,
        hgrew.old, fun r hr ↦ ?_⟩
      obtain rfl := Option.some.inj hr
      exact ⟨hk, hmaps, fun _ ↦ le_rfl⟩

/-- The file has the bytes of `f` below `K`, or it has no root yet. -/
def Started (V : Volume) (U₀ : Set ℕ) (img : ℕ → Buf) (f : ℕ → Byte) (K : ℕ) (U : Set ℕ) (s : FsInode) : Prop :=
  (∃ d k, ∃ t : ExtTree d, Solid V U₀ img f K U s t k) ∨
    K = 0 ∧ U₀ ⊆ U ∧ Node.magic s.inode.iBlock ≠ ext4ExtMagic ∧ EmptyFile V U s ∧ s.inode.hasExtents ∧
      ∀ b ∈ U₀, ¬ V.AllocMeta b → s.fs.block b = img b

theorem Started.mounted (h : Started V U₀ img f K U s) :
    V.Mounted U s.fs ∧ 1024 ≤ V.bs ∧ ext4ExtMaxDepth < s.fs.extPool := by
  rcases h with ⟨d, k, t, h⟩ | ⟨-, -, -, h, -⟩
  · exact ⟨h.tree.mounted, h.tree.bs_ge, h.tree.pool⟩
  · exact ⟨h.mounted, h.bs_ge, h.pool⟩

theorem Started.others (h : Started V U₀ img f K U s) : ∀ b ∈ U₀, ¬ V.AllocMeta b → s.fs.block b = img b := by
  rcases h with ⟨d, k, t, h⟩ | ⟨-, -, -, -, -, h⟩
  · exact h.others
  · exact h

theorem Started.base (h : Started V U₀ img f K U s) : U₀ ⊆ U := by
  rcases h with ⟨d, k, t, h⟩ | ⟨-, h, -⟩
  · exact h.base
  · exact h

/-- A file without blocks. -/
theorem EmptyFile.solid (h : EmptyFile V U s) (hroot : Node.IsNode Node.extentView 0 rootCap [] s.inode.iBlock)
    (hU : U₀ ⊆ U) (hext : s.inode.hasExtents) (himg : ∀ b ∈ U₀, ¬ V.AllocMeta b → s.fs.block b = img b) :
    @Solid V U₀ img f 0 U s 0 [] 0 where
  base := hU
  tree := h.tree hroot
  packed := rfl
  own _ hb := absurd hb List.not_mem_nil
  others := himg
  regular := h.kind
  extents := hext
  le := Nat.zero_le _
  bytes _ hi := absurd hi (Nat.not_lt_zero _)

/-- The blocks of the file are its own: the rest of the volume may change. -/
theorem Started.frame {U' U₁ : Set ℕ} {fs : Fs} {img' : ℕ → Buf} (h : Started V U₀ img f K U s)
    (hmounted : V.Mounted U' fs) (hpool : ext4ExtMaxDepth < fs.extPool) (hU : U₁ ⊆ U')
    (hown : ∀ b ∈ U, b ∉ U₀ → b ∈ U' ∧ b ∉ U₁ ∧ (IsData V b → fs.block b = s.fs.block b))
    (himg : ∀ b ∈ U₁, ¬ V.AllocMeta b → fs.block b = img' b) : Started V U₁ img' f K U' { s with fs := fs } := by
  rcases h with ⟨d, k, t, h⟩ | ⟨hK, -, hmagic, h, hext, -⟩
  · have hblocks : ∀ b ∈ t.blocks, b ∈ U' ∧ b ∉ U₁ ∧ fs.block b = s.fs.block b := fun b hb ↦
      have ⟨hbU, hdata⟩ := h.tree.used b hb
      have ⟨hb', hb₁, hsame⟩ := hown b hbU (h.own b hb)
      ⟨hb', hb₁, hsame hdata⟩
    refine .inl ⟨d, k, t, { h with
      base := hU
      tree := { h.tree with
        mounted := hmounted
        pool := hpool
        holds := h.tree.holds.congr fun b hb ↦ (hblocks b (nodes_subset b hb)).2.2
        used := fun b hb ↦ ⟨(hblocks b hb).1, (h.tree.used b hb).2⟩ }
      own := fun b hb ↦ (hblocks b hb).2.1
      others := himg
      bytes := fun i hi b hb ↦ ?_ }⟩
    show fs.block b _ = _
    rw [(hblocks b hb.mem_blocks).2.2]
    exact h.bytes i hi b hb
  · exact .inr ⟨hK, hU, hmagic, ⟨hmounted, h.bs_ge, h.kind, hpool, h.empty⟩, hext, himg⟩

/-- What is not in `i_block`, the mode or the flags may change. -/
theorem Started.withInode (h : Started V U₀ img f K U s) {n : Inode}
    (hroot : ∀ o < iBlockSize, n.iBlock o = s.inode.iBlock o) (hmode : n.iMode = s.inode.iMode)
    (hflags : n.iFlags = s.inode.iFlags) : Started V U₀ img f K U { s with inode := n } := by
  rcases h with ⟨d, k, t, h⟩ | ⟨hK, hU, hmagic, h, hext, himg⟩
  · exact .inl ⟨d, k, t, h.withInode hroot hmode hflags⟩
  · have hsame : Node.magic n.iBlock = Node.magic s.inode.iBlock :=
      Buf.getField_congr fun o _ ho ↦ hroot o (ho.trans_le (by decide))
    refine .inr ⟨hK, hU, ?_, ⟨h.mounted, h.bs_ge, ?_, h.pool, .inl ?_⟩, ?_, himg⟩
    · rwa [← hsame] at hmagic
    · show sIsreg n.iMode
      rw [hmode]
      exact h.kind
    · rwa [← hsame] at hmagic
    · show n.hasExtents
      rw [Inode.hasExtents, hflags]
      exact hext

/-- What is known of the bytes is what matters. -/
theorem Started.congr {f' : ℕ → Byte} (h : Started V U₀ img f K U s) (hf : ∀ i < K, f' i = f i) :
    Started V U₀ img f' K U s := by
  rcases h with ⟨d, k, t, h⟩ | h
  · exact .inl ⟨d, k, t, { h with bytes := fun i hi b hb ↦ (h.bytes i hi b hb).trans (hf i hi).symm }⟩
  · exact .inr h

/-- A block at or before the end of what is known is found or made. -/
theorem Started.getDataBlock {r₀ : ℕ × Bool} (h : Started V U₀ img f K U s) (hx : x * V.bs ≤ K)
    (hlt : x + ext4ExtInitMaxLen < 2 ^ 32) (hrun : ext4GetDataBlock x true s = (some r₀, s')) :
    s.inode.Later s'.inode ∧ (x * V.bs < K → s' = s) ∧
      ∃ U d k, ∃ t : ExtTree d, Solid V U₀ img f K U s' t k ∧ x < k ∧
      t.Maps x r₀.1 ∧ (r₀.2 = true → K ≤ x * V.bs) := by
  have hpos : 0 < V.bs := lt_of_lt_of_le (by norm_num) h.mounted.2.1
  rcases h with ⟨d, k, t, h⟩ | ⟨rfl, hU, hmagic, h, hext, himg⟩
  · have hget := h.getDataBlock (Nat.le_of_mul_le_mul_right (hx.trans h.le) hpos) hlt
    rw [wp_of_eq hrun] at hget
    obtain ⟨hlater, hkept, U', d', k', t', -, h', -, hnew⟩ := hget
    obtain ⟨hk, hb, hisNew⟩ := hnew r₀ rfl
    exact ⟨hlater, fun hin ↦ hkept (Nat.lt_of_mul_lt_mul_right (hin.trans_le h.le)), U', d', k', t', h', hk, hb,
      fun hr ↦ h.le.trans (Nat.mul_le_mul_right _ (hisNew hr))⟩
  · -- the first call makes the root
    have hroot : Node.IsNode Node.extentView 0 rootCap [] s.initRoot.inode.iBlock :=
      Node.isNode_init _ _ (by norm_num) (by decide)
    have hempty : EmptyFile V U s.initRoot := ⟨h.mounted, h.bs_ge, h.kind, h.pool, .inr hroot⟩
    have hinit : @Solid V U₀ img f 0 U s.initRoot 0 [] 0 := hempty.solid hroot hU hext himg
    obtain rfl : x = 0 := by
      rcases Nat.eq_zero_or_pos x with hx0 | hx0
      · exact hx0
      · exact absurd (Nat.mul_pos hx0 hpos) (by omega)
    have hget := hinit.getDataBlock le_rfl hlt
    have hsame : ext4GetDataBlock 0 true s.initRoot = ext4GetDataBlock 0 true s := by
      rw [getDataBlock_eq hinit.regular hinit.extents, getDataBlock_eq h.kind hext, h.getBlock_eq hmagic]
    rw [wp_of_eq (hsame.trans hrun)] at hget
    obtain ⟨hlater, -, U', d', k', t', -, h', -, hnew⟩ := hget
    obtain ⟨hk, hb, -⟩ := hnew r₀ rfl
    have hroot' : s.inode.Later s.initRoot.inode := .of_root rfl
    exact ⟨hroot'.trans hlater, fun hin ↦ absurd hin (Nat.not_lt_zero _), U', d', k', t', h', hk, hb,
      fun _ ↦ Nat.zero_le _⟩

end FsInode

namespace FsFile

open FsInode

section Steps

variable {V : Volume} {U₀ U : Set ℕ} {img : ℕ → Buf} {f : ℕ → Byte} {K d k x b : ℕ} {i : FsInode} {t : ExtTree d}

/-- The blocks that are looked for ahead. -/
def Probed (V : Volume) (U₀ : Set ℕ) (img : ℕ → Buf) (f : ℕ → Byte) (K x b k lo hi new : ℕ) (i : FsInode) :
    Option (ℕ × ℕ) → FsInode → Prop := fun r i' ↦
  i.inode.Later i'.inode ∧ ∃ r₀, r = some r₀ ∧ lo ≤ r₀.1 ∧ r₀.1 ≤ hi ∧ (x + hi ≤ k → i' = i ∧ r₀.2 = new) ∧
    ∃ U' d' k', ∃ t' : ExtTree d', k ≤ k' ∧ Solid V U₀ img f K U' i' t' k' ∧ ∀ j < r₀.1, t'.Maps (x + j) (b + j)

/-- The loop that looks for more blocks finds a run of blocks of the file. Where there is no room for one it
ends, and the file is as it was. -/
theorem probeRun_keeps {n run new next prev : ℕ} (h : Solid V U₀ img f K U i t k) (hrun : 0 < run)
    (hmaps : ∀ j < run, t.Maps (x + j) (b + j)) (hnext : next = x + run) (hprev : prev = b + (run - 1))
    (hlt : x + run + n + ext4ExtInitMaxLen < 2 ^ 32) :
    wp (probeRun n run new next prev) (Probed V U₀ img f K x b k run (run + n) new i) i := by
  induction n generalizing run new next prev i U d k t with
  | zero => exact ⟨.refl _, _, rfl, le_rfl, le_rfl, fun _ ↦ ⟨rfl, rfl⟩, U, d, k, t, le_rfl, h, hmaps⟩
  | succ n ih =>
    have hlast := (h.maps_iff (x + (run - 1))).1 ⟨_, hmaps (run - 1) (by omega)⟩
    have hget := h.getDataBlock (show next ≤ k by omega) (by omega)
    unfold probeRun
    unfold wp at hget ⊢
    rw [attempt_bind]
    rcases hr : ext4GetDataBlock next true i with ⟨_ | ⟨pblk2, isNew2⟩, i₁⟩ <;> rw [hr] at hget
    · -- there is no room
      obtain ⟨hlater, hkept, U', d', k', t', hk, h', hold, -⟩ := hget
      exact ⟨hlater, _, rfl, le_rfl, by omega, fun hin ↦ ⟨hkept (by omega), rfl⟩, U', d', k', t', hk, h',
        fun j hj ↦ hold _ _ (hmaps j hj)⟩
    obtain ⟨hlater, hkept, U', d', k', t', hk, h', hold, hnew⟩ := hget
    obtain ⟨-, hb, hisNew⟩ := hnew _ rfl
    have hmaps' : ∀ j < run, t'.Maps (x + j) (b + j) := fun j hj ↦ hold _ _ (hmaps j hj)
    -- the block may belong to the file already: the loop ends where it is not behind the last one on the disk
    by_cases hbreak : pblk2 = 0 ∨ pblk2 ≠ u32 (prev + 1)
    · simp only [if_pos hbreak]
      exact ⟨hlater, _, rfl, le_rfl, by omega, fun hin ↦ ⟨hkept (by omega), rfl⟩, U', d', k', t', hk, h', hmaps'⟩
    · simp only [if_neg hbreak]
      have hpblk : pblk2 = b + run := by
        have hbound := (h'.tree.used _ (hmaps' (run - 1) (by omega)).mem_blocks).2.2.1
        have hwrap := h'.tree.mounted.wf.no_wrap
        have hper := h'.tree.mounted.wf.perGroup_pos
        have hu : u32 (prev + 1) = prev + 1 := u32_of_lt (by omega)
        have heq : pblk2 = u32 (prev + 1) := not_not.1 fun hne ↦ hbreak (.inr hne)
        omega
      -- the counters of the loop are of 32 bits, and do not wrap
      have hrest := @ih U' d' k' i₁ t' (run + 1) (if isNew2 then new + 1 else new) (u32 (next + 1)) pblk2 h'
        (Nat.succ_pos run) (fun j hj ↦ ?_) ?_ (by omega) (by omega)
      · obtain ⟨hlater', r₀, hr₀, hlo, hhi, hkept', U₂, d₂, k₂, t₂, hk₂, hsolid⟩ := hrest
        refine ⟨hlater.trans hlater', r₀, hr₀, by omega, by omega, fun hin ↦ ?_, U₂, d₂, k₂, t₂,
          hk.trans hk₂, hsolid⟩
        -- a block that is mapped is not new
        obtain ⟨hsame, hcount⟩ := hkept' (by omega)
        have hmapped : ¬ isNew2 = true := fun hr ↦ absurd (hisNew hr) (by omega)
        exact ⟨hsame.trans (hkept (by omega)), by rw [hcount, if_neg hmapped]⟩
      · rcases Nat.lt_or_eq_of_le (Nat.le_of_lt_succ hj) with hj | rfl
        · exact hmaps' j hj
        · rw [hnext, hpblk] at hb
          exact hb
      · rw [u32_of_lt (by omega)]
        omega

/-- Counting new blocks. -/
theorem account_eq (n : ℕ) (i : FsInode) : ∃ n', account n i = (some (), { i with inode := n' }) ∧
    n'.iBlock = i.inode.iBlock ∧ i.inode.Later n' ∧ (n = 0 → n' = i.inode) := by
  unfold account
  rw [get_bind]
  by_cases hn : n > 0
  · rw [if_pos hn]
    exact ⟨_, rfl, rfl, ⟨rfl, fun _ ↦ u32_lt _⟩, fun h0 ↦ absurd h0 hn.ne'⟩
  · rw [if_neg hn]
    exact ⟨_, rfl, rfl, .refl _, fun _ ↦ rfl⟩

/-- The bytes after `n` bytes of `buf` from `written` on were stored at position `p`. -/
def stored (f : ℕ → Byte) (buf : Buf) (p written n : ℕ) : ℕ → Byte := fun i ↦
  if p ≤ i ∧ i < p + n then buf (written + (i - p)) else f i

/-- What a successful iteration leaves. -/
structure Wrote (V : Volume) (U₀ : Set ℕ) (img : ℕ → Buf) (f : ℕ → Byte) (K : ℕ) (buf : Buf) (count written n : ℕ)
    (s s' : FsFile) : Prop where
  pos : 0 < n
  le : n ≤ count
  fPos : s'.fPos = s.fPos + n
  later : s.inode.Later s'.inode
  kept : s.fPos + count ≤ K → s'.inode = s.inode
  solid : ∃ U d k, ∃ t : ExtTree d, Solid V U₀ img (stored f buf s.fPos written n) (max K (s.fPos + n)) U
    s'.toFsInode t k

variable {s s' : FsFile} {buf : Buf} {count written n : ℕ}

/-- A run of blocks of the file is overwritten, or the file goes on with it. -/
theorem writeRun_solid (h : Solid V U₀ img f K U s.toFsInode t k) (hmaps : ∀ j < n, t.Maps (x + j) (b + j))
    (hn : 0 < n) (hle : n ≤ 64) (hx : x * V.bs ≤ K) (buf : Buf) (written : ℕ) :
    onFs (Fs.writeRun b n fun i ↦ buf (written + i)) s =
        (some (), { s with fs := s.fs.putRun b (fun i ↦ buf (written + i)) n }) ∧
      Solid V U₀ img (stored f buf (x * V.bs) written (n * V.bs)) (max K (x * V.bs + n * V.bs)) U
        { s.toFsInode with fs := s.fs.putRun b (fun i ↦ buf (written + i)) n } t k := by
  have hbs := h.tree.mounted.blockSize
  have hlast := (h.tree.used _ (hmaps (n - 1) (by omega)).mem_blocks).2.2.1
  have hk := (h.maps_iff _).1 ⟨_, hmaps (n - 1) (by omega)⟩
  have hwrap : n * s.fs.blockSize < 2 ^ 32 := by
    calc n * s.fs.blockSize ≤ 64 * 65536 := Nat.mul_le_mul hle (hbs.le.trans h.tree.mounted.wf.bs_le)
      _ < 2 ^ 32 := by norm_num
  constructor
  · rw [onFs, onInode, zoom_apply, FsInode.onFs, zoom_apply,
      h.tree.mounted.usable.writeRun (by omega) hn hwrap]
  · rw [← Nat.add_mul]
    refine h.putRun hmaps _ (max_le h.le (Nat.mul_le_mul_right _ (by omega))) fun i hi ↦ ?_
    -- a byte outside of the run is below the old end
    by_cases hin : x * V.bs ≤ i ∧ i < (x + n) * V.bs
    · exact .inl ⟨hin.1, hin.2, if_pos (by rwa [← Nat.add_mul])⟩
    · refine .inr ⟨by omega, by omega, if_neg (by rwa [← Nat.add_mul])⟩

/-- A block of which a part is written has the bytes that are known of it. -/
theorem oldBlock_solid {isNew : Bool} (h : Solid V U₀ img f K U s.toFsInode t k) (hb : t.Maps x b)
    (hnew : isNew = true → K ≤ x * V.bs) : ∃ old, onFs (Fs.oldBlock b isNew) s = (some old, s) ∧
      ∀ j < V.bs, x * V.bs + j < K → old j = f (x * V.bs + j) := by
  have hpos : 0 < V.bs := lt_of_lt_of_le (by norm_num) h.tree.bs_ge
  -- a new block is taken as zero, an old one is read
  rcases isNew with _ | _
  · refine ⟨s.fs.block b, ?_, fun j hj hlt ↦ ?_⟩
    · rw [onFs, onInode, zoom_apply, FsInode.onFs, zoom_apply, Fs.oldBlock, if_neg (by simp),
        h.tree.mounted.usable.readBlock (h.tree.used _ hb.mem_blocks).2.2.1]
    · have hdiv : (x * V.bs + j) / V.bs = x := by
        rw [Nat.mul_comm, Nat.mul_add_div hpos, Nat.div_eq_of_lt hj, Nat.add_zero]
      have hmod : (x * V.bs + j) % V.bs = j := by
        rw [Nat.mul_comm, Nat.mul_add_mod, Nat.mod_eq_of_lt hj]
      have hbyte := h.bytes _ hlt b (by rwa [hdiv])
      rwa [hmod] at hbyte
  · refine ⟨Buf.zero, rfl, fun j _ hlt ↦ ?_⟩
    exact absurd (hnew rfl) (by omega)

/-- A part of a block of the file is overwritten, or the file goes on with it. -/
theorem writeBlock_solid {off : ℕ} {old : Buf} (h : Solid V U₀ img f K U s.toFsInode t k) (hb : t.Maps x b)
    (hold : ∀ j < V.bs, x * V.bs + j < K → old j = f (x * V.bs + j)) (hoff : off + n ≤ V.bs)
    (hx : x * V.bs + off ≤ K) (buf : Buf) (written : ℕ) :
    ∃ s', onFs (Fs.writeBlock b (old.blit off buf written n)) s = (some (), s') ∧ s'.fPos = s.fPos ∧
      s'.inode = s.inode ∧ Solid V U₀ img (stored f buf (x * V.bs + off) written n)
        (max K (x * V.bs + off + n)) U s'.toFsInode t k := by
  -- one block is a run of length one
  have hone : s.fs.putRun b (old.blit off buf written n) 1 = s.fs.put b (old.blit off buf written n) := by
    rw [Fs.putRun, Fs.putRun]
    simp only [Nat.zero_mul, Nat.zero_add, Nat.add_zero]
  have hk := (h.maps_iff _).1 ⟨_, hb⟩
  have hkmul : (x + 1) * V.bs ≤ k * V.bs := Nat.mul_le_mul_right _ hk
  rw [Nat.add_mul, Nat.one_mul] at hkmul
  refine ⟨{ s with fs := s.fs.put b (old.blit off buf written n) }, ?_, rfl, rfl, ?_⟩
  · rw [onFs, onInode, zoom_apply, FsInode.onFs, zoom_apply,
      h.tree.mounted.usable.writeBlock (h.tree.used _ hb.mem_blocks).2.2.1]
  show Solid V U₀ img _ _ U { s.toFsInode with fs := s.fs.put b (old.blit off buf written n) } t k
  rw [← hone]
  have hmaps : ∀ j < 1, t.Maps (x + j) (b + j) := fun j hj ↦ by
    obtain rfl : j = 0 := by omega
    exact hb
  refine h.putRun hmaps _ (max_le h.le (by omega)) fun i hi ↦ ?_
  rw [Nat.add_mul, Nat.one_mul]
  by_cases hin : x * V.bs ≤ i ∧ i < x * V.bs + V.bs
  swap
  · exact .inr ⟨by omega, by omega, if_neg (by omega)⟩
  refine .inl ⟨hin.1, hin.2, ?_⟩
  -- in the block, but outside of the part, the old bytes are written back
  by_cases hmid : x * V.bs + off ≤ i ∧ i < x * V.bs + off + n
  · rw [stored, if_pos hmid, Buf.blit_in (by omega) (by omega)]
    congr 1
    omega
  · have hknown := hold (i - x * V.bs) (by omega) (by omega)
    rw [show x * V.bs + (i - x * V.bs) = i by omega] at hknown
    rw [stored, if_neg hmid, Buf.blit_out (by omega), hknown]

/-- New blocks are counted. -/
theorem account_solid (h : Solid V U₀ img f K U s.toFsInode t k) (m : ℕ) :
    ∃ s', onInode (account m) s = (some (), s') ∧ s'.fPos = s.fPos ∧ s.inode.Later s'.inode ∧
      (m = 0 → s'.inode = s.inode) ∧ Solid V U₀ img f K U s'.toFsInode t k := by
  obtain ⟨n', hrun, hroot, hlater, hzero⟩ := account_eq m s.toFsInode
  refine ⟨{ s with inode := n' }, by rw [onInode, zoom_apply, hrun], rfl, hlater, hzero, ?_⟩
  exact h.withInode (fun o _ ↦ congrFun hroot o) hlater.iMode hlater.iFlags

/-- What was written from the state after a lookup was written from the state before it. -/
theorem Wrote.of_lookup {s₁ : FsFile} (h : Wrote V U₀ img f K buf count written n s₁ s')
    (hfPos : s₁.fPos = s.fPos) (hlater : s.inode.Later s₁.inode)
    (hkept : s.fPos + count ≤ K → s₁.inode = s.inode) : Wrote V U₀ img f K buf count written n s s' where
  pos := h.pos
  le := h.le
  fPos := hfPos ▸ h.fPos
  later := hlater.trans h.later
  kept hin := (h.kept (hfPos ▸ hin)).trans (hkept hin)
  solid := hfPos ▸ h.solid

/-- What an iteration does with whole blocks, from the block `x` on. -/
theorem writeBlocks_keeps {isNew : Bool} (h : Solid V U₀ img f K U s.toFsInode t k) (hb : t.Maps x b)
    (hnew : isNew = true → K ≤ x * V.bs) (hx : s.fPos = x * V.bs) (hpos : s.fPos ≤ K)
    (hend : s.fPos + count ≤ 2 ^ 32) (hwhole : V.bs ≤ count)
    (hrun : (do
      let run ← onInode (probeRun (maxRun V.bs count - 1) 1 (if isNew then 1 else 0) (u32 (x + 1)) b)
      onFs (Fs.writeRun b run.1 fun i ↦ buf (written + i))
      onInode (account run.2)
      advance (run.1 * V.bs)
      pure (some (run.1 * V.bs)) : StateErr FsFile (Option ℕ)) s = (some (some n), s')) :
    Wrote V U₀ img f K buf count written n s s' := by
  have hge := h.tree.bs_ge
  have hlt : x ≤ 2 ^ 32 / 1024 := by
    calc x = x * V.bs / V.bs := (Nat.mul_div_cancel _ (by omega)).symm
      _ ≤ 2 ^ 32 / 1024 := Nat.div_le_div (by omega) hge (by norm_num)
  have hmax : 1 ≤ maxRun V.bs count ∧ maxRun V.bs count ≤ 64 ∧ maxRun V.bs count ≤ count / V.bs := by
    have := Nat.div_pos hwhole (by omega)
    unfold maxRun
    split <;> omega
  -- the blocks behind the first one are probed before anything is written
  obtain ⟨run, s₁, hprobe, hrun⟩ := bind_eq_some_iff.1 hrun
  obtain ⟨hprobe, hfPos⟩ := of_onInode hprobe
  have hmaps : ∀ j < 1, t.Maps (x + j) (b + j) := fun j hj ↦ by
    obtain rfl : j = 0 := by omega
    exact hb
  have hahead := @probeRun_keeps V U₀ U img f K d k x b s.toFsInode t (maxRun V.bs count - 1) 1
    (if isNew then 1 else 0) _ b h Nat.one_pos hmaps (u32_of_lt (show x + 1 < 2 ^ 32 by omega)) rfl
    (by unfold ext4ExtInitMaxLen; omega)
  rw [wp_of_eq hprobe] at hahead
  obtain ⟨hlater₁, r₀, hr₀, hlo, hhi, hkept₁, U₁, d₁, k₁, t₁, -, h₁, hmaps₁⟩ := hahead
  obtain rfl := Option.some.inj hr₀
  obtain ⟨hwrite, h₂⟩ := writeRun_solid h₁ hmaps₁ hlo (by omega) (by omega) buf written
  rw [bind_of_eq_some hwrite] at hrun
  obtain ⟨s₃, haccount, hfPos₃, hlater₃, hkept₃, h₃⟩ := @account_solid _ _ _ _ _ _ _ _ _
    { s₁ with fs := s₁.fs.putRun b (fun i ↦ buf (written + i)) run.1 } h₂ run.2
  rw [bind_of_eq_some haccount] at hrun
  obtain ⟨hn, rfl⟩ := Prod.mk.inj hrun
  obtain rfl := Option.some.inj (Option.some.inj hn)
  have hle : run.1 * V.bs ≤ count :=
    (Nat.mul_le_mul_right _ (show run.1 ≤ count / V.bs by omega)).trans (Nat.div_mul_le_self _ _)
  rw [← hx] at h₃
  refine ⟨Nat.mul_pos hlo (by omega), hle, ?_, hlater₁.trans hlater₃, fun hin ↦ ?_, U₁, d₁, k₁, t₁, h₃⟩
  · show s₃.fPos + _ = _
    rw [hfPos₃, show s₁.fPos = _ from hfPos]
  · -- all the blocks of the run were there before
    have hrange : (x + maxRun V.bs count) * V.bs ≤ k * V.bs := by
      have hmul := (Nat.mul_le_mul_right V.bs hmax.2.2).trans (Nat.div_mul_le_self count V.bs)
      have hK := h.le
      rw [Nat.add_mul]
      omega
    have hin' := Nat.le_of_mul_le_mul_right hrange (by omega)
    obtain ⟨hsame, hcount⟩ := hkept₁ (by omega)
    have hold : ¬ isNew = true := fun hr ↦ absurd (hnew hr) (by omega)
    rw [if_neg hold] at hcount
    exact (hkept₃ hcount).trans (congrArg FsInode.inode hsame :)

/-- What an iteration does with a part of the block `x`, from the byte `off` on. -/
theorem writePart_keeps {isNew : Bool} {off m : ℕ} (h : Solid V U₀ img f K U s.toFsInode t k) (hb : t.Maps x b)
    (hnew : isNew = true → K ≤ x * V.bs) (hx : s.fPos = x * V.bs + off) (hpos : s.fPos ≤ K) (hm : 0 < m)
    (hle : m ≤ count) (hoff : off + m ≤ V.bs)
    (hrun : (do
      let blockBuf ← onFs (Fs.oldBlock b isNew)
      onFs (Fs.writeBlock b (blockBuf.blit off buf written m))
      onInode (account (if isNew then 1 else 0))
      advance m
      pure (some m) : StateErr FsFile (Option ℕ)) s = (some (some n), s')) :
    Wrote V U₀ img f K buf count written n s s' := by
  obtain ⟨old, hread, hold⟩ := oldBlock_solid h hb hnew
  rw [bind_of_eq_some hread] at hrun
  obtain ⟨s₁, hwrite, hfPos₁, hinode₁, h₁⟩ := writeBlock_solid h hb hold hoff (hx ▸ hpos) buf written
  rw [bind_of_eq_some hwrite] at hrun
  obtain ⟨s₂, haccount, hfPos₂, hlater₂, hkept₂, h₂⟩ := account_solid h₁ (if isNew then 1 else 0)
  rw [bind_of_eq_some haccount] at hrun
  obtain ⟨hn, rfl⟩ := Prod.mk.inj hrun
  obtain rfl := Option.some.inj (Option.some.inj hn)
  rw [← hx] at h₂
  refine ⟨hm, hle, ?_, hinode₁ ▸ hlater₂, fun hin ↦ ?_, U, d, k, t, h₂⟩
  · show s₂.fPos + _ = _
    rw [hfPos₂, hfPos₁]
  · have hold : ¬ isNew = true := fun hr ↦ absurd (hnew hr) (by omega)
    exact (hkept₂ (if_neg hold)).trans hinode₁

/-- **One iteration of the write loop.** -/
theorem writeStep_keeps (h : Started V U₀ img f K U s.toFsInode) (hpos : s.fPos ≤ K)
    (hend : s.fPos + count ≤ 2 ^ 32) (hcount : 0 < count)
    (hrun : writeStep buf count written s = (some (some n), s')) :
    Wrote V U₀ img f K buf count written n s s' := by
  obtain ⟨hmounted, hge, -⟩ := h.mounted
  have hbs := hmounted.blockSize
  obtain ⟨hidx, hoff⟩ := blockIdx_of_lt V.bs (show s.fPos < 2 ^ 32 by omega)
  have hdm := Nat.div_add_mod' s.fPos V.bs
  have hmod := Nat.mod_lt s.fPos (show 0 < V.bs by omega)
  have hx : s.fPos / V.bs ≤ 2 ^ 32 / 1024 := Nat.div_le_div (by omega) hge (by norm_num)
  unfold writeStep at hrun
  rw [get_bind] at hrun
  simp only [hbs, hidx, hoff] at hrun
  obtain ⟨r, s₁, hget, hrun⟩ := bind_eq_some_iff.1 hrun
  obtain ⟨hmap, hfPos⟩ := of_onInode hget
  obtain ⟨hlater, hkept, U, d, k, t, hsolid, hk, hb, hnew⟩ :=
    h.getDataBlock (show s.fPos / V.bs * V.bs ≤ K by omega)
    (by unfold ext4ExtInitMaxLen; omega) hmap
  have hne : r.1 ≠ 0 := (hsolid.tree.used _ hb.mem_blocks).2.1
  rw [if_neg hne] at hrun
  have hpos₁ : s₁.fPos ≤ K := hfPos ▸ hpos
  have hsame : s.fPos + count ≤ K → s₁.inode = s.inode := fun hin ↦
    congrArg FsInode.inode (hkept (by omega))
  refine @Wrote.of_lookup V U₀ img f K s s' buf count written n s₁ ?_ hfPos hlater hsame
  by_cases hwhole : s.fPos % V.bs = 0 ∧ toCopy V.bs s.fPos count = V.bs
  · rw [if_pos hwhole] at hrun
    have hle : V.bs ≤ count := by
      have hcopy := hwhole.2
      unfold toCopy at hcopy
      split at hcopy <;> omega
    exact writeBlocks_keeps hsolid hb hnew (by omega) hpos₁ (hfPos ▸ hend) hle hrun
  · rw [if_neg hwhole] at hrun
    have hcopy : 0 < toCopy V.bs s.fPos count ∧ toCopy V.bs s.fPos count ≤ count ∧
        s.fPos % V.bs + toCopy V.bs s.fPos count ≤ V.bs := by
      rw [toCopy, hoff]
      split <;> omega
    exact writePart_keeps hsolid hb hnew (by omega) hpos₁ hcopy.1 hcopy.2.1 hcopy.2.2 hrun

/-! ### The loop -/

theorem stored_zero (f : ℕ → Byte) (buf : Buf) (p written : ℕ) : stored f buf p written 0 = f := by
  funext i
  exact if_neg (by omega)

/-- Two pieces that follow one another. -/
theorem stored_stored (f : ℕ → Byte) (buf : Buf) (p written m n : ℕ) :
    stored (stored f buf p written m) buf (p + m) (written + m) n = stored f buf p written (m + n) := by
  funext i
  by_cases h₂ : p + m ≤ i ∧ i < p + m + n
  · rw [stored, if_pos h₂, stored, if_pos (by omega)]
    congr 1
    omega
  rw [stored, if_neg h₂]
  by_cases h₁ : p ≤ i ∧ i < p + m
  · rw [stored, if_pos h₁, stored, if_pos (by omega)]
  · rw [stored, if_neg h₁, stored, if_neg (by omega)]

/-- What a call that writes all its bytes leaves. -/
structure WroteAll (V : Volume) (U₀ : Set ℕ) (img : ℕ → Buf) (f : ℕ → Byte) (K : ℕ) (buf : Buf) (count written : ℕ)
    (s s' : FsFile) : Prop where
  fPos : s'.fPos = s.fPos + count
  later : s.inode.Later s'.inode
  kept : s.fPos + count ≤ K → s'.inode = s.inode
  started : ∃ U, Started V U₀ img (stored f buf s.fPos written count) (max K (s.fPos + count)) U s'.toFsInode

/-- There is nothing to write. -/
theorem wroteAll_zero (h : Started V U₀ img f K U s.toFsInode) (hpos : s.fPos ≤ K) (hcount : count = 0)
    (hrun : (some (written + count), s) = (some (written + count), s')) :
    WroteAll V U₀ img f K buf count written s s' := by
  subst hcount
  obtain rfl := (Prod.mk.inj hrun).2
  refine ⟨rfl, .refl _, fun _ ↦ rfl, U, ?_⟩
  rw [stored_zero, Nat.add_zero, max_eq_left hpos]
  exact h

/-- **The loop stores the bytes of the buffer**, if it comes to its end. -/
theorem writeLoop_keeps {fuel : ℕ} (h : Started V U₀ img f K U s.toFsInode) (hpos : s.fPos ≤ K)
    (hend : s.fPos + count ≤ 2 ^ 32) (hfuel : count ≤ fuel)
    (hrun : writeLoop buf fuel count written s = (some (written + count), s')) :
    WroteAll V U₀ img f K buf count written s s' := by
  induction fuel generalizing s count written U f K with
  | zero =>
    obtain rfl : count = 0 := by omega
    exact wroteAll_zero h hpos rfl hrun
  | succ fuel ih =>
    unfold writeLoop at hrun
    by_cases hcount : count > 0
    swap
    · obtain rfl : count = 0 := by omega
      rw [if_neg hcount] at hrun
      exact wroteAll_zero h hpos rfl hrun
    rw [if_pos hcount] at hrun
    obtain ⟨_ | n, s₁, hstep, hrun⟩ := bind_eq_some_iff.1 hrun
    · -- a loop that stops here has not written all the bytes
      have hres := Option.some.inj (Prod.mk.inj hrun).1
      omega
    have hwrote := writeStep_keeps h hpos hend hcount hstep
    have hle := hwrote.le
    have hn := hwrote.fPos
    obtain ⟨U₁, d, k, t, hsolid⟩ := hwrote.solid
    have hstarted : Started V U₀ img (stored f buf s.fPos written n) (max K (s.fPos + n)) U₁ s₁.toFsInode :=
      .inl ⟨d, k, t, hsolid⟩
    -- the rest of the loop writes the rest of the bytes, behind those that were just written
    have hrun' : writeLoop buf fuel (count - n) (written + n) s₁ = (some (written + n + (count - n)), s') := by
      rw [show written + n + (count - n) = written + count by omega]
      exact hrun
    have hpos₁ : s₁.fPos ≤ max K (s.fPos + n) := hn.le.trans (le_max_right _ _)
    have hn₀ := hwrote.pos
    have hrest := ih hstarted hpos₁ (by omega) (by omega) hrun'
    obtain ⟨U', hlast⟩ := hrest.started
    refine ⟨by rw [hrest.fPos, hn]; omega, hwrote.later.trans hrest.later, fun hin ↦ ?_, U', ?_⟩
    · exact (hrest.kept (by omega)).trans (hwrote.kept hin)
    rw [hn, stored_stored, max_assoc, show n + (count - n) = count by omega,
      max_eq_right (show s.fPos + n ≤ s.fPos + n + (count - n) by omega),
      show s.fPos + n + (count - n) = s.fPos + count by omega] at hlast
    exact hlast

/-- What a write that is not short leaves. -/
structure FileWrote (V : Volume) (U₀ : Set ℕ) (img : ℕ → Buf) (f : ℕ → Byte) (K : ℕ) (buf : Buf) (count : ℕ)
    (s s' : FsFile) : Prop where
  fits : V.bs ≤ blockSizeDefault
  size : s'.inode.iSize = max K (s.fPos + count)
  later : ∃ n, s.inode.Later n ∧ s'.inode = { n with iSize := s'.inode.iSize, dirty := s'.inode.dirty }
  kept : s'.inode.dirty = true ∨ s'.inode = s.inode
  started : ∃ U, Started V U₀ img (stored f buf s.fPos 0 count) (max K (s.fPos + count)) U s'.toFsInode

/-- **A write that is not short stores the bytes of the buffer**, and the file ends where the write does or
where it did. The inode is marked where it has changed. -/
theorem fileWrite_keeps (h : Started V U₀ img f K U s.toFsInode) (hpos : s.fPos ≤ K)
    (hend : s.fPos + count ≤ 2 ^ 32)
    (hsize : s.inode.iSize = K) (hrun : ext4FileWrite buf count s = (some count, s')) :
    FileWrote V U₀ img f K buf count s s' := by
  have hbs := h.mounted.1.blockSize
  unfold ext4FileWrite at hrun
  rw [get_bind] at hrun
  by_cases hfits : V.bs ≤ blockSizeDefault
  swap
  · have hmalloc : onFs Fs.mallocBlock s = (none, s) := by
      rw [onFs, onInode, zoom_apply, FsInode.onFs, zoom_apply, Fs.mallocBlock, get_bind,
        guard_false (by rwa [hbs])]
      rfl
    rw [bind_of_eq_none hmalloc] at hrun
    simp at hrun
  have hmalloc : onFs Fs.mallocBlock s = (some (), s) := by
    rw [onFs, onInode, zoom_apply, FsInode.onFs, zoom_apply, Fs.mallocBlock, get_bind,
      guard_true (by rwa [hbs])]
    rfl
  rw [bind_of_eq_some hmalloc] at hrun
  obtain ⟨written, s₁, hloop, hrun⟩ := bind_eq_some_iff.1 hrun
  obtain ⟨hn, rfl⟩ := Prod.mk.inj hrun
  obtain rfl := Option.some.inj hn
  have hall := @writeLoop_keeps V U₀ U img f K s s₁ buf written 0 written h hpos hend le_rfl (by rwa [Nat.zero_add])
  obtain ⟨U', hstarted⟩ := hall.started
  have hsize₁ : s₁.inode.iSize = K := hall.later.iSize.trans hsize
  -- the size goes up to the end of what was written
  have hinode : ∀ n : Inode, n.iSize = K → ∃ size dirty, size = max K (s.fPos + written) ∧
      (dirty = true ∨ s.fPos + written ≤ K ∧ dirty = n.dirty) ∧
      (if s.fPos + written > n.iSize then { n with iSize := s.fPos + written, dirty := true } else n) =
        { n with iSize := size, dirty := dirty } := by
    intro n hK
    by_cases hlt : s.fPos + written > n.iSize
    · rw [if_pos hlt]
      exact ⟨_, _, (max_eq_right (by omega)).symm, .inl rfl, rfl⟩
    · rw [if_neg hlt]
      exact ⟨n.iSize, n.dirty, by rw [hK, max_eq_left (by omega)], .inr ⟨by omega, rfl⟩, rfl⟩
  obtain ⟨size, dirty, hmax, hdirty, heq⟩ := hinode s₁.inode hsize₁
  have hlast := hstarted.withInode (n := { s₁.inode with iSize := size, dirty := dirty }) (fun _ _ ↦ rfl) rfl rfl
  have hafter : ∀ s' : FsFile,
      s'.toFsInode = { s₁.toFsInode with inode := { s₁.inode with iSize := size, dirty := dirty } } →
      FileWrote V U₀ img f K buf written s s' := by
    rintro ⟨s', p⟩ rfl
    refine ⟨hfits, hmax, ⟨s₁.inode, hall.later, rfl⟩, hdirty.imp_right fun hkept ↦ ?_, U', hlast⟩
    obtain ⟨hin, hsame⟩ := hkept
    -- nothing has changed
    show ({ s₁.inode with iSize := size, dirty := dirty } : Inode) = s.inode
    rw [← hall.kept hin, hsame, hmax, max_eq_left hin, ← hsize₁]
  exact hafter _ (congrArg (fun n ↦ { s₁.toFsInode with inode := n }) heq)

/-! ### Reading what was written -/

theorem Solid.sparse (h : Solid V U₀ img f K U s.toFsInode t k) : Sparse V U s t where
  tree := h.tree
  inside := h.packed.inside (h.le_blocks.trans (by
    have := h.tree.mounted.wf.no_wrap
    have := h.tree.mounted.wf.perGroup_pos
    omega))
  regular := h.regular
  extents := h.extents

/-- **A read returns the bytes of the file**, up to its end, whatever is on the stack. -/
theorem fileRead_keeps (h : Started V U₀ img f K U s.toFsInode) (hsize : s.inode.iSize = K) (hK : K ≤ 2 ^ 32)
    (hfits : 0 < K → V.bs ≤ blockSizeDefault) (stale : ℕ → Option Extent) (count : ℕ) :
    ∃ buf p, ext4FileRead stale count s = (some (buf, min count (K - s.fPos)), { s with fPos := p }) ∧
      ∀ j < min count (K - s.fPos), buf j = f (s.fPos + j) := by
  have hleft : (if s.fPos + count > s.inode.iSize then s.inode.iSize else s.fPos + count) - s.fPos =
      min count (K - s.fPos) := by
    split <;> omega
  unfold ext4FileRead
  rw [get_bind]
  by_cases hend : s.fPos ≥ s.inode.iSize
  · have hzero : min count (K - s.fPos) = 0 := by omega
    rw [if_pos hend, hzero]
    exact ⟨Buf.zero, s.fPos, rfl, fun j hj ↦ absurd hj (Nat.not_lt_zero j)⟩
  rw [if_neg hend, hleft]
  by_cases hzero : min count (K - s.fPos) = 0
  · simp only [hzero]
    exact ⟨Buf.zero, s.fPos, rfl, fun j hj ↦ absurd hj (Nat.not_lt_zero j)⟩
  simp only [if_neg hzero]
  have hbs := h.mounted.1.blockSize
  have hmalloc : onFs Fs.mallocBlock s = (some (), s) := by
    rw [onFs, onInode, zoom_apply, FsInode.onFs, zoom_apply, Fs.mallocBlock, get_bind,
      guard_true (by rw [hbs]; exact hfits (by omega))]
    rfl
  rw [bind_of_eq_some hmalloc]
  rcases h with ⟨d, k, t, h⟩ | ⟨hK₀, -⟩
  swap
  · omega
  have hsparse := Solid.sparse h
  have hbyte : ∀ i < K, s.MappedAt i ∧ s.ByteAt i (f i) := fun i hi ↦ by
    obtain ⟨b, hb⟩ := h.exists_maps hi
    have hat := hsparse.byteAt (p := i) (by rwa [hbs])
    rwa [hbs, h.bytes i hi b hb] at hat
  -- no hole stops the loop, so it reads all that is left
  obtain ⟨buf, n, hrun, hread⟩ :=
    @readLoop_spec V U s d (min count (K - s.fPos)) t stale _ 0 Buf.zero hsparse le_rfl
    (by omega) (.inl fun i hi ↦ (hbyte _ (by omega)).1)
  have hn : n = min count (K - s.fPos) := by
    by_contra hne
    have hlt := hread.le
    exact hread.stops (by omega) (hbyte _ (by omega)).1
  rw [Nat.zero_add] at hrun
  refine ⟨buf, _, hn ▸ hrun, fun j hj ↦ ?_⟩
  obtain ⟨⟨b, hb⟩, hat⟩ := hread.bytes j (by omega)
  rw [Nat.zero_add] at hat
  exact (hat.1 b hb).trans ((hbyte _ (by omega)).2.1 b hb).symm

end Steps

end FsFile

end MiniExt4
