import MiniExt4.Ext4.DirBlock
import MiniExt4.Ext4.ExtentRun
import MiniExt4.Machine.Ring

/-!
# A linear directory as a finite map

The blocks of a linear directory, taken together, hold each name once. Looking a name up, adding one
where there is room and removing one are then what they are on a map from names to inode numbers, and
the enumeration lists the map (`isMap_iff`).

`Linear` ties the logical blocks, up to the first that is not mapped, to the chains in them, no name twice,
and `Represents` says that the entries of all chains are the pairs of a map. A call on a block is one of
`DirBlock`; what is new is that the loops over the blocks stop at the first block that answers
(`scanBlocks_eq_some`), so that a name is found in the one block that has it.

A directory that would have to grow or to be rebuilt is not the subject here: `DirOp.Legal` asks for room.
-/

namespace MiniExt4

open StateErr Dirent
open Buf (ChainView)
open Buf.ChainView (locate_eq_none)

/-- Of the elements with a property there is a first one. -/
theorem exists_first {α : Type} {p : α → Prop} {l : List α} (h : ∃ a ∈ l, p a) :
    ∃ pre a post, l = pre ++ a :: post ∧ p a ∧ ∀ b ∈ pre, ¬ p b := by
  induction l with
  | nil => simp at h
  | cons a l ih =>
    by_cases ha : p a
    · exact ⟨[], a, l, rfl, ha, by simp⟩
    · obtain ⟨pre, b, post, rfl, hb, hpre⟩ := ih (by simpa [ha] using h)
      refine ⟨a :: pre, b, post, rfl, hb, fun c hc ↦ ?_⟩
      rcases List.mem_cons.1 hc with rfl | hc
      · exact ha
      · exact hpre c hc

namespace FsInode

variable {n i fuel b : ℕ} {s : FsInode} {name : List Byte} {ino : ℕ}

/-! ### The loops over the blocks -/

/-- The blocks of a directory, in order. All of them can be read. -/
structure DirMapped (s : FsInode) (blocks : List ℕ) : Prop where
  mapped : ∀ i (h : i < blocks.length), ext4DirGetBlocknr i s = (some blocks[i], s)
  ended : ext4DirGetBlocknr blocks.length s = (none, s)
  readable : ∀ b ∈ blocks, onFs (Fs.readBlock b) s = (some (s.fs.block b), s)
  lt : blocks.length < 2 ^ 32

/-- A block of the directory is found. -/
theorem DirMapped.at {pre post : List ℕ} (h : DirMapped s (pre ++ b :: post)) :
    ext4DirGetBlocknr pre.length s = (some b, s) := by
  simpa using h.mapped pre.length (by simp)

section

variable {α : Type} {visit : ℕ → Buf → StateErr FsInode (Option α)} {pre post : List ℕ}

/-- A block in which nothing is done leads on to the next. -/
theorem scanBlocks_next (h : DirMapped s (pre ++ b :: post))
    (hvisit : visit b (s.fs.block b) s = (some none, s)) :
    scanBlocks visit (fuel + 1) pre.length s = scanBlocks visit fuel (pre ++ [b]).length s := by
  rw [scanBlocks, attempt_bind, h.at]
  dsimp only
  rw [bind_of_eq_some (h.readable b (by simp)), bind_of_eq_some hvisit]
  simp

/-- A scan that visits every block and stops at none. -/
theorem scanBlocks_eq_none (h : DirMapped s (pre ++ post)) (hfuel : post.length < fuel)
    (hvisit : ∀ b ∈ post, visit b (s.fs.block b) s = (some none, s)) :
    scanBlocks visit fuel pre.length s = (some none, s) := by
  induction post generalizing pre fuel with
  | nil =>
    obtain ⟨fuel, rfl⟩ : ∃ m, fuel = m + 1 := ⟨fuel - 1, by simp at hfuel; omega⟩
    have hend := h.ended
    rw [List.append_nil] at hend
    rw [scanBlocks, attempt_bind, hend]
    rfl
  | cons b post ih =>
    obtain ⟨fuel, rfl⟩ : ∃ m, fuel = m + 1 := ⟨fuel - 1, by simp at hfuel; omega⟩
    rw [scanBlocks_next h (hvisit b (by simp))]
    refine ih (by rwa [List.append_assoc]) (by simp at hfuel; omega) fun c hc ↦ hvisit c (by simp [hc])

/-- A scan that stops at a block. -/
theorem scanBlocks_eq_some {a : α} {s' : FsInode} {mid : List ℕ}
    (h : DirMapped s (pre ++ (mid ++ b :: post)))
    (hfuel : mid.length < fuel) (hmid : ∀ c ∈ mid, visit c (s.fs.block c) s = (some none, s))
    (hvisit : visit b (s.fs.block b) s = (some (some a), s')) :
    scanBlocks visit fuel pre.length s = (some (some a), s') := by
  induction mid generalizing pre fuel with
  | nil =>
    obtain ⟨fuel, rfl⟩ : ∃ m, fuel = m + 1 := ⟨fuel - 1, by simp at hfuel; omega⟩
    rw [scanBlocks, attempt_bind, h.at]
    dsimp only
    rw [bind_of_eq_some (h.readable b (by simp)), bind_of_eq_some hvisit]
    rfl
  | cons c mid ih =>
    obtain ⟨fuel, rfl⟩ : ∃ m, fuel = m + 1 := ⟨fuel - 1, by simp at hfuel; omega⟩
    rw [scanBlocks_next h (hmid c (by simp))]
    exact ih (by rwa [List.append_assoc]) (by simp at hfuel; omega) fun d hd ↦ hmid d (by simp [hd])

end

section

variable {α : Type} {visit : ℕ → Buf → StateErr FsInode (Option α)} {dir pre post : List (ℕ × List Dirent)}

/-- Nothing is done in any block. -/
theorem DirMapped.scan_none (h : DirMapped s (dir.map Prod.fst))
    (hvisit : ∀ e ∈ dir, visit e.1 (s.fs.block e.1) s = (some none, s)) :
    scanBlocks visit (2 ^ 32) 0 s = (some none, s) := by
  refine @scanBlocks_eq_none _ s _ visit [] (dir.map Prod.fst) h h.lt fun c hc ↦ ?_
  obtain ⟨e, he, rfl⟩ := List.mem_map.1 hc
  exact hvisit e he

/-- Nothing is done in the blocks before one, and the search ends there. -/
theorem DirMapped.scan_some {e : ℕ × List Dirent} {a : α} {s' : FsInode}
    (h : DirMapped s ((pre ++ e :: post).map Prod.fst))
    (hpre : ∀ e ∈ pre, visit e.1 (s.fs.block e.1) s = (some none, s))
    (hvisit : visit e.1 (s.fs.block e.1) s = (some (some a), s')) :
    scanBlocks visit (2 ^ 32) 0 s = (some (some a), s') := by
  have hlt := h.lt
  rw [List.map_append, List.map_cons] at h
  refine @scanBlocks_eq_some _ e.1 s _ visit [] (post.map Prod.fst) a s' (pre.map Prod.fst) h ?_
    (fun c hc ↦ ?_) hvisit
  · simp only [List.length_map, List.length_append, List.length_cons] at hlt ⊢
    omega
  · obtain ⟨e, he, rfl⟩ := List.mem_map.1 hc
    exact hpre e he

end

/-- The enumeration goes through the entries of the blocks from `pre.length` on. -/
theorem foreachBlocks_eq {σ : Type} {filldir : σ → List Byte → ℕ → Bool × σ} {ctx : σ}
    {pre post : List (ℕ × List Dirent)} (h : DirMapped s ((pre ++ post).map Prod.fst))
    (htiles : ∀ e ∈ post, Tiles (s.fs.block e.1) s.fs.blockSize e.2) (hfuel : post.length < fuel) :
    foreachBlocks filldir fuel pre.length ctx s =
      (some (true, (fillAll filldir ctx (post.flatMap fun e ↦ live e.2)).2), s) := by
  induction post generalizing pre fuel ctx with
  | nil =>
    obtain ⟨fuel, rfl⟩ : ∃ m, fuel = m + 1 := ⟨fuel - 1, by simp at hfuel; omega⟩
    have hend := h.ended
    rw [List.append_nil, List.length_map] at hend
    rw [foreachBlocks, attempt_bind, hend]
    rfl
  | cons e post ih =>
    obtain ⟨fuel, rfl⟩ : ∃ m, fuel = m + 1 := ⟨fuel - 1, by simp at hfuel; omega⟩
    have hget : ext4DirGetBlocknr pre.length s = (some e.1, s) := by
      have := h.mapped pre.length (by simp)
      simpa using this
    rw [foreachBlocks, attempt_bind, hget]
    dsimp only
    rw [get_bind, attempt_bind, h.readable e.1 (by simp)]
    dsimp only
    rw [foreachLoop_eq (htiles e (by simp)) (by omega), List.flatMap_cons, fillAll_append, fillEnd]
    rcases hstop : (fillAll filldir ctx (live e.2)).1
    · rw [if_neg Bool.false_ne_true, if_neg Bool.false_ne_true]
      have := @ih fuel (fillAll filldir ctx (live e.2)).2 (pre ++ [e]) (by rwa [List.append_assoc])
        (fun e he ↦ htiles e (by simp [he])) (by simp at hfuel; omega)
      rwa [List.length_append] at this
    · rw [if_pos rfl, if_pos rfl]
      rfl

/-! ### Linear directories -/

/-- What `i_block` and the indirect block have for a logical block, 0 where it is not mapped. -/
def dirWord (s : FsInode) (i : ℕ) : ℕ :=
  if i < 12 then s.inode.word i
  else if i - 12 < s.fs.blockSize / 4 ∧ s.inode.word 12 ≠ 0 then
    (s.fs.block (s.inode.word 12)).le (4 * (i - 12)) 4
  else 0

/-- The first twelve blocks are in the inode. -/
theorem dirWord_of_lt (h : i < 12) : s.dirWord i = s.inode.word i := if_pos h

/-- The others are in the indirect block. -/
theorem dirWord_of_indirect (h : ¬ i < 12) (hin : i - 12 < s.fs.blockSize / 4 ∧ s.inode.word 12 ≠ 0) :
    s.dirWord i = (s.fs.block (s.inode.word 12)).le (4 * (i - 12)) 4 := by
  rw [dirWord, if_neg h, if_pos hin]

/-- Without an indirect block there are no others. -/
theorem dirWord_of_not (h : ¬ i < 12) (hout : ¬ (i - 12 < s.fs.blockSize / 4 ∧ s.inode.word 12 ≠ 0)) :
    s.dirWord i = 0 := by
  rw [dirWord, if_neg h, if_neg hout]

/-- The pool gives a buffer. -/
theorem onFs_mallocBlock (hbs : s.fs.blockSize ≤ blockSizeDefault) : onFs Fs.mallocBlock s = (some (), s) := by
  rw [onFs, zoom_apply, Fs.mallocBlock_eq hbs]

/-- What the map of a directory without extents has for a logical block. -/
theorem getBlocknr_eq (husable : s.fs.Usable n) (hext : s.inode.hasExtents = false)
    (hind : s.inode.word 12 ≠ 0 → s.inode.word 12 < n) (hdvd : 12 ≤ i → 4 ∣ s.fs.blockSize)
    (hbs : s.fs.blockSize ≤ blockSizeDefault) :
    ext4DirGetBlocknr i s = (if s.dirWord i = 0 then none else some (s.dirWord i), s) := by
  unfold ext4DirGetBlocknr
  rw [get_bind, if_neg (by rw [hext]; exact Bool.false_ne_true)]
  by_cases hdirect : i < 12
  · rw [if_pos hdirect, dirWord_of_lt hdirect]
    by_cases hzero : s.inode.word i = 0
    · rw [guard_false (not_not_intro hzero), if_pos hzero]
      rfl
    · rw [guard_true hzero, if_neg hzero]
      rfl
  have hmod := Nat.mod_eq_zero_of_dvd (hdvd (by omega))
  have hpos : 0 < s.fs.blockSize := BlockDevice.Usable.blockSize_pos husable
  rw [if_neg hdirect, guard_true (show s.fs.blockSize ≠ 0 ∧ s.fs.blockSize % 4 = 0 from ⟨by omega, hmod⟩),
    pure_bind']
  by_cases hin : i - 12 < s.fs.blockSize / 4
  swap
  · rw [guard_false hin, if_pos (dirWord_of_not hdirect fun hc ↦ hin hc.1)]
    rfl
  rw [guard_true hin, pure_bind']
  by_cases hword : s.inode.word 12 = 0
  · rw [guard_false (not_not_intro hword), if_pos (dirWord_of_not hdirect fun hc ↦ hc.2 hword)]
    rfl
  have hread : onFs (Fs.readBlock (s.inode.word 12)) s = (some (s.fs.block (s.inode.word 12)), s) := by
    rw [onFs, zoom_apply, husable.readBlock (hind hword)]
  rw [guard_true hword, pure_bind', bind_of_eq_some (onFs_mallocBlock hbs), bind_of_eq_some hread,
    dirWord_of_indirect hdirect ⟨hin, hword⟩]
  by_cases hzero : (s.fs.block (s.inode.word 12)).le (4 * (i - 12)) 4 = 0
  · rw [guard_false (not_not_intro hzero), if_pos hzero]
    rfl
  · rw [guard_true hzero, if_neg hzero]
    rfl

/-- All entries of the blocks of a directory. -/
def entries (dir : List (ℕ × List Dirent)) : List (List Byte × ℕ) := dir.flatMap fun e ↦ live e.2

/-- A directory without an index and without extents on a device of `n` blocks that works: `dir` is the
list of its blocks with their entries. No block is mapped twice, and no name is there twice. -/
structure Linear (n : ℕ) (s : FsInode) (dir : List (ℕ × List Dirent)) : Prop where
  usable : s.fs.Usable n
  noIndex : s.inode.hasIndex = false
  noExtents : s.inode.hasExtents = false
  indirect : s.inode.word 12 ≠ 0 → s.inode.word 12 < n ∧ s.inode.word 12 ∉ dir.map Prod.fst
  mapped : ∀ i (h : i < dir.length), s.dirWord i = dir[i].1
  ended : s.dirWord dir.length = 0
  used : ∀ e ∈ dir, e.1 ≠ 0 ∧ e.1 < n
  nodup : (dir.map Prod.fst).Nodup
  tiles : ∀ e ∈ dir, Tiles (s.fs.block e.1) s.fs.blockSize e.2
  names : ((entries dir).map Prod.fst).Nodup

variable {dir pre post : List (ℕ × List Dirent)} {l l' : List Dirent} {m : List Byte → Option ℕ}

/-- The entries of a directory around one of its blocks. -/
theorem entries_middle : entries (pre ++ (b, l) :: post) = entries pre ++ (live l ++ entries post) := by
  simp [entries]

/-- Blocks are chains of records of four bytes. -/
theorem Linear.dvd (h : Linear n s dir) (hne : dir ≠ []) : 4 ∣ s.fs.blockSize := by
  obtain ⟨e, dir', rfl⟩ := List.exists_cons_of_ne_nil hne
  exact dvd_of_chain (h.tiles e (by simp)) (Nat.dvd_zero 4)

/-- A directory has no more blocks than its map has places. -/
theorem Linear.length_le (h : Linear n s dir) : dir.length ≤ 12 + s.fs.blockSize / 4 := by
  by_contra hgt
  have hword := h.mapped (12 + s.fs.blockSize / 4) (by omega)
  have hne := (h.used dir[12 + s.fs.blockSize / 4] (List.getElem_mem _)).1
  rw [dirWord, if_neg (by omega), if_neg (by omega)] at hword
  omega

/-- A block of the directory is found where the map has it. -/
theorem Linear.getBlocknr (h : Linear n s dir) (hbs : s.fs.blockSize ≤ blockSizeDefault)
    (hi : i ≤ dir.length) : ext4DirGetBlocknr i s =
      (if s.dirWord i = 0 then none else some (s.dirWord i), s) := by
  refine getBlocknr_eq h.usable h.noExtents (fun hind ↦ (h.indirect hind).1) (fun hge ↦ h.dvd ?_) hbs
  rintro rfl
  simp at hi
  omega

/-- Every block of the directory is found. -/
theorem Linear.dirMapped (h : Linear n s dir) (hbs : s.fs.blockSize ≤ blockSizeDefault) :
    DirMapped s (dir.map Prod.fst) where
  mapped i hi := by
    rw [List.length_map] at hi
    rw [h.getBlocknr hbs hi.le, h.mapped i hi, if_neg (h.used _ (List.getElem_mem _)).1, List.getElem_map]
  ended := by rw [List.length_map, h.getBlocknr hbs le_rfl, h.ended, if_pos rfl]
  readable b hb := by
    obtain ⟨e, he, rfl⟩ := List.mem_map.1 hb
    rw [onFs, zoom_apply, h.usable.readBlock (h.used e he).2]
  lt := by
    have := h.length_le
    have : blockSizeDefault = 4096 := rfl
    rw [List.length_map]
    omega

/-- A block is exchanged for one with other entries. -/
theorem Linear.put (h : Linear n s (pre ++ (b, l) :: post)) {buf : Buf} (htiles : Tiles buf s.fs.blockSize l')
    (hnames : ((entries (pre ++ (b, l') :: post)).map Prod.fst).Nodup) :
    Linear n { s with fs := s.fs.put b buf } (pre ++ (b, l') :: post) := by
  have hblocks : (pre ++ (b, l') :: post).map Prod.fst = (pre ++ (b, l) :: post).map Prod.fst := by simp
  -- the indirect block is none of the blocks of the directory, so the map stays
  have hword : ∀ i, dirWord { s with fs := s.fs.put b buf } i = s.dirWord i := by
    intro i
    unfold dirWord
    by_cases hind : s.inode.word 12 = 0
    · simp [hind]
    · have hne : s.inode.word 12 ≠ b := fun heq ↦ (h.indirect hind).2 (by simp [heq])
      simp only [Fs.put_blockSize, Fs.block_put_of_ne _ _ hne]
  have hnodup := h.nodup
  have hother : ∀ e ∈ pre ++ post, e.1 ≠ b := by
    intro e he heq
    rw [List.map_append, List.map_cons] at hnodup
    have hmid := (List.nodup_middle.1 hnodup)
    rw [List.nodup_cons, ← List.map_append] at hmid
    exact hmid.1 (List.mem_map.2 ⟨e, he, heq⟩)
  have hmem : ∀ e ∈ pre ++ (b, l') :: post, e = (b, l') ∨ e ∈ pre ++ post := by
    intro e he
    simp only [List.mem_append, List.mem_cons] at he ⊢
    tauto
  refine ⟨h.usable.put b buf, h.noIndex, h.noExtents, ?_, fun i hi ↦ ?_, ?_, fun e he ↦ ?_, ?_,
    fun e he ↦ ?_, hnames⟩
  · rw [hblocks]
    exact h.indirect
  · have hi' : i < (pre ++ (b, l) :: post).length := by simpa using hi
    have hsame : (pre ++ (b, l') :: post)[i].1 = (pre ++ (b, l) :: post)[i].1 := by
      have h₁ := List.getElem_map Prod.fst (l := pre ++ (b, l') :: post) (i := i) (h := by simpa using hi)
      have h₂ := List.getElem_map Prod.fst (l := pre ++ (b, l) :: post) (i := i) (h := by simpa using hi')
      rw [← h₁, ← h₂]
      simp only [hblocks]
    rw [hword, hsame]
    exact h.mapped i hi'
  · rw [hword]
    have := h.ended
    simpa using this
  · rcases hmem e he with rfl | he
    · exact h.used (b, l) (by simp)
    · exact h.used e (by simp only [List.mem_append, List.mem_cons] at he ⊢; tauto)
  · rw [hblocks]
    exact hnodup
  · rcases hmem e he with rfl | he
    · rw [Fs.block_put_self]
      exact htiles.congr fun i _ hlt ↦ Buf.clip_of_lt _ hlt
    · rw [Fs.block_put_of_ne _ _ (hother e he)]
      exact h.tiles e (by simp only [List.mem_append, List.mem_cons] at he ⊢; tauto)

/-- The directory holds the map. -/
def Represents (dir : List (ℕ × List Dirent)) (m : List Byte → Option ℕ) : Prop :=
  ∀ name ino, (name, ino) ∈ entries dir ↔ m name = some ino

/-- The entry with the name, if there is one, is the first that has it. -/
theorem Represents.find_cases (hm : Represents dir m) (name : List Byte) :
    (∃ pre b lpre r lpost post, dir = pre ++ (b, lpre ++ r :: lpost) :: post ∧ m name = some r.inode ∧
      named name r ∧ (∀ q ∈ lpre, named name q = false) ∧ ∀ e ∈ pre, ∀ q ∈ e.2, named name q = false) ∨
    m name = none ∧ ∀ e ∈ dir, ∀ r ∈ e.2, named name r = false := by
  by_cases hex : ∃ e ∈ dir, ∃ r ∈ e.2, named name r
  · left
    obtain ⟨pre, ⟨b, l⟩, post, rfl, hl, hpre⟩ := exists_first hex
    obtain ⟨lpre, r, lpost, rfl, hr, hlpre⟩ := exists_first hl
    refine ⟨pre, b, lpre, r, lpost, post, rfl, (hm _ _).1 ?_, hr, fun q hq ↦ ?_, fun e he q hq ↦ ?_⟩
    · exact List.mem_flatMap.2 ⟨(b, lpre ++ r :: lpost), by simp, mem_live.2 ⟨r, by simp, hr, rfl⟩⟩
    · simpa using hlpre q hq
    · by_contra hc
      exact hpre e he ⟨q, hq, by simpa using hc⟩
  · right
    have hfree : ∀ e ∈ dir, ∀ r ∈ e.2, named name r = false := fun e he r hr ↦ by
      by_contra hc
      exact hex ⟨e, he, r, hr, by simpa using hc⟩
    refine ⟨?_, hfree⟩
    rcases hname : m name with _ | ino
    · rfl
    · obtain ⟨e, he, hlive⟩ := List.mem_flatMap.1 ((hm name ino).2 hname)
      obtain ⟨r, hr, hnamed, -⟩ := mem_live.1 hlive
      rw [hfree e he r hr] at hnamed
      simp at hnamed

/-- Names have at least one character and at most 255. -/
theorem Linear.name_length (h : Linear n s dir) (hm : Represents dir m) (hname : m name = some ino) :
    1 ≤ name.length ∧ name.length ≤ 255 := by
  obtain ⟨e, he, hlive⟩ := List.mem_flatMap.1 ((hm name ino).2 hname)
  obtain ⟨r, hr, hnamed, -⟩ := mem_live.1 hlive
  obtain ⟨hino, rfl⟩ : r.inode ≠ 0 ∧ r.name = name := by simpa [named] using hnamed
  obtain ⟨pre, post, hsplit⟩ := List.append_of_mem hr
  have hchain := h.tiles e he
  rw [hsplit] at hchain
  obtain ⟨-, hread, hok, -⟩ := ChainView.chain_append.1 hchain
  refine ⟨List.length_pos_of_ne_nil (hok.named hino), ?_⟩
  have := nameLen_lt (s.fs.block e.1) (0 + view.total pre)
  rw [← view_read, hread] at this
  omega

/-- An entry more is a name more of the map. -/
theorem Represents.add {dir' : List (ℕ × List Dirent)} (hm : Represents dir m) (hnew : m name = none)
    (hnames : ((entries dir).map Prod.fst).Nodup) (hperm : (entries dir').Perm ((name, ino) :: entries dir)) :
    Represents dir' (Function.update m name (some ino)) ∧ ((entries dir').map Prod.fst).Nodup := by
  have hfresh : ∀ i, (name, i) ∉ entries dir := fun i hi ↦ by
    rw [(hm name i).1 hi] at hnew
    simp at hnew
  refine ⟨fun nm i ↦ ?_, ?_⟩
  · rw [hperm.mem_iff, List.mem_cons, Prod.mk.injEq]
    by_cases heq : nm = name
    · subst heq
      rw [Function.update_self, or_iff_left (hfresh i)]
      simp [eq_comm]
    · rw [Function.update_of_ne heq, ← hm nm i]
      simp [heq]
  · rw [(hperm.map Prod.fst).nodup_iff, List.map_cons, List.nodup_cons]
    refine ⟨fun hmem ↦ ?_, hnames⟩
    obtain ⟨⟨nm, i⟩, hi, rfl⟩ := List.mem_map.1 hmem
    exact hfresh i hi

/-- An entry less is a name less of the map. -/
theorem Represents.remove {dir' : List (ℕ × List Dirent)} (hm : Represents dir m)
    (hnames : ((entries dir).map Prod.fst).Nodup) (hperm : (entries dir).Perm ((name, ino) :: entries dir')) :
    Represents dir' (Function.update m name none) ∧ ((entries dir').map Prod.fst).Nodup := by
  rw [(hperm.map Prod.fst).nodup_iff, List.map_cons, List.nodup_cons] at hnames
  refine ⟨fun nm i ↦ ?_, hnames.2⟩
  by_cases heq : nm = name
  · subst heq
    rw [Function.update_self]
    simp only [reduceCtorEq, iff_false]
    exact fun hi ↦ hnames.1 (List.mem_map.2 ⟨_, hi, rfl⟩)
  · rw [Function.update_of_ne heq, ← hm nm i, hperm.mem_iff, List.mem_cons, Prod.mk.injEq]
    simp [heq]

/-! ### The calls -/

/-- A search finds what the map has. -/
theorem Linear.findEntry (h : Linear n s dir) (hm : Represents dir m) (hbs : s.fs.blockSize ≤ blockSizeDefault)
    (name : List Byte) : (ext4FindEntry name s).1.map Prod.fst = m name := by
  unfold ext4FindEntry
  by_cases hlen : name.length ≠ 0 ∧ name.length ≤ 255
  swap
  · rw [guard_false hlen]
    rcases hname : m name with _ | ino
    · rfl
    · have := h.name_length hm hname
      omega
  rw [guard_true hlen, pure_bind', get_bind, if_neg (by rw [h.noIndex]; exact Bool.false_ne_true), findLinear,
    bind_of_eq_some (onFs_mallocBlock hbs), get_bind]
  have hmapped := h.dirMapped hbs
  have hvisit : ∀ e ∈ dir, findInBlock s.fs.blockSize name e.1 (s.fs.block e.1) s =
      (some ((view.locate (named name) 0 e.2).map fun r ↦ (r.2.inode, e.1, r.1)), s) := by
    intro e he
    rw [findInBlock, findLoop_eq (h.tiles e he) (by omega), ofOption_some, pure_bind', Option.map_map]
    rfl
  rcases hm.find_cases name with ⟨pre, b, lpre, r, lpost, post, rfl, hname, hr, hlpre, hpre⟩ | ⟨hname, hfree⟩
  · have hfound := hvisit (b, lpre ++ r :: lpost) (by simp)
    rw [ChainView.locate_append hlpre hr] at hfound
    rw [bind_of_eq_some (hmapped.scan_some (fun e he ↦ ?_) hfound), hname]
    · rfl
    · rw [hvisit e (by simp [he]), locate_eq_none.2 (hpre e he)]
      rfl
  · rw [bind_of_eq_some (hmapped.scan_none fun e he ↦ ?_), hname]
    · rfl
    · rw [hvisit e he, locate_eq_none.2 (hfree e he)]
      rfl

/-- Writing a block of the directory. -/
theorem Linear.writeBlock (h : Linear n s (pre ++ (b, l) :: post)) (buf : Buf) :
    onFs (Fs.writeBlock b buf) s = (some (), { s with fs := s.fs.put b buf }) := by
  rw [onFs, zoom_apply, h.usable.writeBlock (h.used (b, l) (by simp)).2]

/-- A removal takes the name out of the map. -/
theorem Linear.removeEntry (h : Linear n s dir) (hm : Represents dir m)
    (hbs : s.fs.blockSize ≤ blockSizeDefault) (hname : m name ≠ none) :
    ∃ s' dir', ext4RemoveEntry name s = (some (), s') ∧ Linear n s' dir' ∧
      Represents dir' (Function.update m name none) ∧ s'.fs.blockSize = s.fs.blockSize := by
  have hmapped := h.dirMapped hbs
  have hlt : s.fs.blockSize < 2 ^ 16 := by
    have : blockSizeDefault = 4096 := rfl
    omega
  obtain ⟨ino, hino⟩ := Option.ne_none_iff_exists'.1 hname
  have hlen := h.name_length hm hino
  rcases hm.find_cases name with ⟨pre, b, lpre, r, lpost, post, rfl, hmr, hr, hlpre, hpre⟩ | ⟨hnone, -⟩
  swap
  · exact absurd hnone hname
  have hchain := h.tiles (b, lpre ++ r :: lpost) (by simp)
  obtain ⟨l', hchain', hlive⟩ := removePlaced_chain hchain hlt
  have hcons : live (r :: lpost) = (name, r.inode) :: live lpost := by
    obtain ⟨hne, rfl⟩ : r.inode ≠ 0 ∧ r.name = name := by simpa [named] using hr
    simp [live_cons, hne]
  have hperm : (entries (pre ++ (b, lpre ++ r :: lpost) :: post)).Perm
      ((name, r.inode) :: entries (pre ++ (b, l') :: post)) := by
    rw [entries_middle, entries_middle, hlive, live_append, live_append, hcons, List.append_assoc,
      List.append_assoc, List.cons_append]
    exact (List.perm_middle.append_left _).trans List.perm_middle
  obtain ⟨hm', hnames'⟩ := hm.remove h.names hperm
  refine ⟨_, _, ?_, h.put hchain' hnames', hm', rfl⟩
  unfold ext4RemoveEntry
  rw [guard_true (by omega), pure_bind', bind_of_eq_some (onFs_mallocBlock hbs), get_bind]
  have hfound : removeInBlock s.fs.blockSize name b (s.fs.block b) s = (some (some ()), { s with
      fs := s.fs.put b (removePlaced (s.fs.block b) (view.total lpre) (lastOff 0 none lpre) r) }) := by
    rw [removeInBlock, removeLoop_some hchain (by omega) hlpre hr, Nat.zero_add, ofOption_some, pure_bind']
    dsimp only
    rw [bind_of_eq_some (h.writeBlock _)]
    rfl
  rw [bind_of_eq_some (hmapped.scan_some (fun e he ↦ ?_) hfound)]
  · rfl
  · rw [removeInBlock, removeLoop_none (h.tiles e (by simp [he])) (by omega) (hpre e he)]
    rfl

/-- What an addition does in a block. -/
theorem Linear.addInBlock (h : Linear n s (pre ++ (b, l) :: post)) (hlen : name.length ≤ 255) :
    addInBlock name ino b s = match view.locate (hasRoom (ext4DirRecLen name.length)) 0 l with
      | none => (some false, s)
      | some e => (some true, { s with fs := s.fs.put b (addPlaced (s.fs.block b) name ino e.1 e.2) }) := by
  have hbounds := ext4DirRecLen_bounds name.length
  have hread : onFs (Fs.readBlock b) s = (some (s.fs.block b), s) := by
    rw [onFs, zoom_apply, h.usable.readBlock (h.used (b, l) (by simp)).2]
  unfold FsInode.addInBlock
  rw [get_bind, bind_of_eq_some hread, addLoop_eq (h.tiles (b, l) (by simp)) (by omega) (by omega) (by omega),
    ofOption_some, pure_bind']
  rcases view.locate (hasRoom (ext4DirRecLen name.length)) 0 l with _ | e
  · rfl
  · exact bind_of_eq_some (h.writeBlock _)

/-- The loop over the blocks goes on to the first one with room. -/
theorem Linear.addLinear {again : StateErr FsInode Unit} {e : ℕ × Dirent} {mid : List (ℕ × List Dirent)}
    (h : Linear n s (pre ++ (mid ++ (b, l) :: post))) (hbs : s.fs.blockSize ≤ blockSizeDefault)
    (hlen : name.length ≤ 255) (hfuel : mid.length < fuel)
    (hmid : ∀ e ∈ mid, view.locate (hasRoom (ext4DirRecLen name.length)) 0 e.2 = none)
    (hl : view.locate (hasRoom (ext4DirRecLen name.length)) 0 l = some e) :
    FsInode.addLinear again name ino fuel pre.length s =
      (some (), { s with fs := s.fs.put b (addPlaced (s.fs.block b) name ino e.1 e.2) }) := by
  induction mid generalizing pre fuel with
  | nil =>
    obtain ⟨fuel, rfl⟩ : ∃ k, fuel = k + 1 := ⟨fuel - 1, by simp at hfuel; omega⟩
    rw [List.nil_append] at h
    have hmapped := h.dirMapped hbs
    rw [List.map_append, List.map_cons] at hmapped
    have hget := hmapped.at
    have hadd := @Linear.addInBlock n b s name ino pre post l h hlen
    rw [hl] at hadd
    rw [List.length_map] at hget
    rw [FsInode.addLinear, attempt_bind, hget]
    dsimp only
    rw [bind_of_eq_some hadd]
    rfl
  | cons c mid ih =>
    obtain ⟨fuel, rfl⟩ : ∃ k, fuel = k + 1 := ⟨fuel - 1, by simp at hfuel; omega⟩
    have hmapped := h.dirMapped hbs
    rw [List.map_append, List.cons_append, List.map_cons] at hmapped
    have hget := hmapped.at
    have hadd := @Linear.addInBlock n c.1 s name ino pre (mid ++ (b, l) :: post) c.2 h hlen
    rw [hmid c (by simp)] at hadd
    rw [List.length_map] at hget
    rw [FsInode.addLinear, attempt_bind, hget]
    dsimp only
    rw [bind_of_eq_some hadd, if_neg Bool.false_ne_true]
    have := @ih fuel (pre ++ [c]) (by rwa [List.append_assoc]) (by simp at hfuel; omega)
      fun e he ↦ hmid e (by simp [he])
    rwa [List.length_append] at this

/-- An addition to a directory with room enters the name into the map. -/
theorem Linear.addEntry (h : Linear n s dir) (hm : Represents dir m)
    (hbs : s.fs.blockSize ≤ blockSizeDefault) (hnew : m name = none) (hlen : 1 ≤ name.length)
    (hlen' : name.length ≤ 255) (hino : 0 < ino) (hino' : ino < 2 ^ 32)
    (hroom : ∃ e ∈ dir, ∃ r ∈ e.2, hasRoom (ext4DirRecLen name.length) r) :
    ∃ s' dir', ext4AddEntry name ino s = (some (), s') ∧ Linear n s' dir' ∧
      Represents dir' (Function.update m name (some ino)) ∧ s'.fs.blockSize = s.fs.blockSize := by
  obtain ⟨pre, ⟨b, l⟩, post, rfl, hl, hpre⟩ := exists_first hroom
  obtain ⟨lpre, r, lpost, rfl, hr, hlpre⟩ := exists_first hl
  have hlocate := @ChainView.locate_append _ view 0 r _ lpre lpost
    (fun q hq ↦ by simpa using hlpre q hq) hr
  rw [Nat.zero_add] at hlocate
  have hchain := h.tiles (b, lpre ++ r :: lpost) (by simp)
  obtain ⟨q, hchain', hq⟩ := addPlaced_chain hchain hr (by omega) hlen' hino hino'
  rw [Nat.zero_add] at hchain'
  have hperm : (entries (pre ++ (b, lpre ++ (q ++ lpost)) :: post)).Perm
      ((name, ino) :: entries (pre ++ (b, lpre ++ r :: lpost) :: post)) := by
    rw [entries_middle, entries_middle]
    exact (((Leaf.live_replace hq).append_right _).append_left _).trans List.perm_middle
  obtain ⟨hm', hnames'⟩ := hm.add hnew h.names hperm
  refine ⟨_, _, ?_, h.put hchain' hnames', hm', rfl⟩
  have hlength := h.length_le
  rw [ext4AddEntry, FsInode.addEntry, guard_true (by omega), pure_bind',
    bind_of_eq_some (onFs_mallocBlock hbs), get_bind, if_neg (by rw [h.noIndex]; exact Bool.false_ne_true),
    if_neg (by rw [h.noExtents]; exact Bool.false_ne_true)]
  refine @Linear.addLinear n _ b s name ino [] post (lpre ++ r :: lpost) _ (view.total lpre, r) pre h hbs hlen'
    ?_ (fun e he ↦ ?_) hlocate
  · simp only [List.length_append, List.length_cons] at hlength
    omega
  · exact locate_eq_none.2 fun q hq ↦ by
      by_contra hc
      exact hpre e he ⟨q, hq, by simpa using hc⟩

/-- A callback that lists what it is given. -/
def collect (acc : List (List Byte × ℕ)) (name : List Byte) (ino : ℕ) : Bool × List (List Byte × ℕ) :=
  (false, acc ++ [(name, ino)])

theorem fillAll_collect (acc l : List (List Byte × ℕ)) : fillAll collect acc l = (false, acc ++ l) := by
  induction l generalizing acc with
  | nil => simp [fillAll]
  | cons e l ih =>
    rw [fillAll]
    simp only [collect, Bool.false_eq_true, if_false]
    rw [ih]
    simp

/-- Listing the directory gives its entries in order. -/
theorem Linear.foreach (h : Linear n s dir) (hbs : s.fs.blockSize ≤ blockSizeDefault) :
    ext4DirForeach collect [] s = (some (true, entries dir), s) := by
  have hmapped := h.dirMapped hbs
  have hlt := hmapped.lt
  rw [List.length_map] at hlt
  rw [ext4DirForeach, attempt_bind, onFs_mallocBlock hbs]
  have hall := @foreachBlocks_eq (2 ^ 32) s _ collect [] [] dir
    hmapped h.tiles hlt
  refine hall.trans ?_
  rw [fillAll_collect, List.nil_append]
  rfl

/-! ### Runs -/

/-- A call that changes the directory. -/
inductive DirOp where
  | add (name : List Byte) (ino : ℕ)
  | remove (name : List Byte)

namespace DirOp

/-- The call. -/
def call : DirOp → StateErr FsInode Unit
  | add name ino => ext4AddEntry name ino
  | remove name => ext4RemoveEntry name

/-- What it is on a map. -/
def onMap : DirOp → (List Byte → Option ℕ) → List Byte → Option ℕ
  | add name ino, m => Function.update m name (some ino)
  | remove name, m => Function.update m name none

/-- The directory and the map after it. -/
def step (sm : FsInode × (List Byte → Option ℕ)) (op : DirOp) : FsInode × (List Byte → Option ℕ) :=
  ((op.call sm.1).2, op.onMap sm.2)

end DirOp

/-- The logical block `i` is in front of the first that is not mapped. -/
def Mapped (s : FsInode) (i : ℕ) : Prop := ∀ j ≤ i, s.dirWord j ≠ 0

/-- Some record of a mapped block has room for so many bytes. -/
def RoomIn (s : FsInode) (recLen : ℕ) : Prop :=
  ∃ i l, s.Mapped i ∧ Tiles (s.fs.block (s.dirWord i)) s.fs.blockSize l ∧ ∃ r ∈ l, hasRoom recLen r

/-- The names that are added are new and find room, and those that are removed are there. -/
def DirOp.Legal (sm : FsInode × (List Byte → Option ℕ)) : DirOp → Prop
  | add name ino => sm.2 name = none ∧ 1 ≤ name.length ∧ name.length ≤ 255 ∧ 0 < ino ∧ ino < 2 ^ 32 ∧
      RoomIn sm.1 (ext4DirRecLen name.length)
  | remove name => sm.2 name ≠ none

/-- The directory is the map: its blocks are chains of entries, the search finds exactly the names of the
map, and the enumeration lists each of them once. -/
structure IsMap (s : FsInode) (m : List Byte → Option ℕ) : Prop where
  chains : ∀ i, s.Mapped i → ∃ l, Tiles (s.fs.block (s.dirWord i)) s.fs.blockSize l
  finds : ∀ name, (ext4FindEntry name s).1.map Prod.fst = m name
  lists : ∃ l s', ext4DirForeach collect [] s = (some (true, l), s') ∧ (l.map Prod.fst).Nodup ∧
    ∀ name ino, (name, ino) ∈ l ↔ m name = some ino

/-- A place that is mapped is a block of the directory. -/
theorem Linear.of_mapped (h : Linear n s dir) (hi : s.Mapped i) :
    ∃ hi : i < dir.length, s.dirWord i = dir[i].1 := by
  have hlt : i < dir.length := by
    by_contra hge
    exact hi dir.length (by omega) h.ended
  exact ⟨hlt, h.mapped i hlt⟩

/-- A directory whose entries are those of a map is that map. -/
theorem Linear.isMap (h : Linear n s dir) (hm : Represents dir m)
    (hbs : s.fs.blockSize ≤ blockSizeDefault) : IsMap s m where
  chains i hi := by
    obtain ⟨hlt, hword⟩ := h.of_mapped hi
    rw [hword]
    exact ⟨_, h.tiles _ (List.getElem_mem hlt)⟩
  finds := h.findEntry hm hbs
  lists := ⟨_, _, h.foreach hbs, h.names, hm⟩

/-- A legal call succeeds and keeps the directory and the map together. -/
theorem Linear.step (h : Linear n s dir) (hm : Represents dir m) (hbs : s.fs.blockSize ≤ blockSizeDefault)
    {op : DirOp} (hop : DirOp.Legal (s, m) op) : ∃ s' dir', op.call s = (some (), s') ∧ Linear n s' dir' ∧
      Represents dir' (op.onMap m) ∧ s'.fs.blockSize = s.fs.blockSize := by
  cases op with
  | add name ino =>
    obtain ⟨hnew, hlen, hlen', hino, hino', i, l, hi, hl, r, hr, hroom⟩ := hop
    obtain ⟨hlt, hword⟩ := h.of_mapped hi
    rw [hword] at hl
    obtain rfl := hl.eq (h.tiles _ (List.getElem_mem hlt))
    exact h.addEntry hm hbs hnew hlen hlen' hino hino' ⟨_, List.getElem_mem hlt, r, hr, hroom⟩
  | remove name => exact h.removeEntry hm hbs hop

/-- **A linear directory is a finite map in every run of legal calls, where a block fits the buffers of
the directory code.** -/
theorem isMap_iff (h : Linear n s dir) (hm : Represents dir m) :
    (∀ ops, Calls.Along DirOp.step DirOp.Legal ops (s, m) →
      IsMap (ops.foldl DirOp.step (s, m)).1 (ops.foldl DirOp.step (s, m)).2 ∧
        ∀ op, DirOp.Legal (ops.foldl DirOp.step (s, m)) op →
          (op.call (ops.foldl DirOp.step (s, m)).1).1 = some ()) ↔
      s.fs.blockSize ≤ blockSizeDefault := by
  constructor
  · intro hall
    by_contra hbs
    obtain ⟨_, _, hlist, -⟩ := (hall [] trivial).1.lists
    have hmalloc : onFs Fs.mallocBlock s = (none, s) := by
      rw [onFs, zoom_apply, Fs.mallocBlock, get_bind, guard_false hbs]
      rfl
    rw [List.foldl_nil, ext4DirForeach, attempt_bind, hmalloc] at hlist
    simp at hlist
  · intro hbs ops hops
    have hinv := @Calls.inv_of_along _ _ DirOp.step DirOp.Legal (fun sm ↦ ∃ dir, Linear n sm.1 dir ∧
      Represents dir sm.2 ∧ sm.1.fs.blockSize ≤ blockSizeDefault) (fun sm op hinv hop ↦ by
        obtain ⟨dir, hlin, hrep, hle⟩ := hinv
        obtain ⟨s', dir', hcall, hlin', hrep', heq⟩ := hlin.step hrep hle hop
        refine ⟨dir', ?_, hrep', ?_⟩
        · rwa [DirOp.step, hcall]
        · rw [DirOp.step, hcall, heq]
          exact hle) ops (s, m) ⟨dir, h, hm, hbs⟩ hops
    obtain ⟨dir', hlin, hrep, hle⟩ := hinv
    refine ⟨hlin.isMap hrep hle, fun op hop ↦ ?_⟩
    obtain ⟨s', -, hcall, -⟩ := hlin.step hrep hle hop
    rw [hcall]

/-- The block of a directory that was just made, with `.` and `..`. -/
def dotsBlock (bs : ℕ) : Buf := putEntry (putEntry Buf.zero 0 2 12 2 [46]) 12 2 (bs - 12) 2 [46, 46]

/-- A directory on a device with blocks of `bs` bytes. Its only block is block 9. -/
def dotsDir (bs : ℕ) : FsInode where
  fs :=
    { Mkfs.smallFs with
      dev := (BlockDevice.blank 512 (16 * (bs / 512))).putBlock bs 9 (dotsBlock bs)
      blockSize := bs
      sbi := { Mkfs.smallSb with sBlockSize := bs } }
  inode := { (smallFile 1).inode with iMode := 0o40755, iFlags := 0, iBlock := Buf.zero.putLe 0 4 9 }

/-- The entries of its block. -/
def dots (bs : ℕ) : List (ℕ × List Dirent) := [(9, [⟨2, 12, [46]⟩, ⟨2, bs - 12, [46, 46]⟩])]

/-- The map with `.` and `..`. -/
def dotsMap (name : List Byte) : Option ℕ := if name = [46] ∨ name = [46, 46] then some 2 else none

/-- The empty directory of the example. -/
theorem dotsDir_linear {bs : ℕ} (h : bs = 4096 ∨ bs = 8192) : Linear 16 (dotsDir bs) (dots bs) := by
  rcases h with rfl | rfl <;>
  exact ⟨⟨rfl, by decide, by decide, by decide, by decide⟩, rfl, rfl, by decide, by decide, by decide,
    by decide, by decide, by decide +kernel, by decide⟩

theorem dots_represents (bs : ℕ) : Represents (dots bs) dotsMap := by
  intro name ino
  have hentries : entries (dots bs) = [([46], 2), ([46, 46], 2)] := rfl
  rw [hentries, dotsMap]
  split <;> rename_i hname
  · rcases hname with rfl | rfl <;> simp [eq_comm]
  · obtain ⟨hdot, hdots⟩ := not_or.1 hname
    simp only [List.mem_cons, Prod.mk.injEq, hdot, hdots, false_and, List.not_mem_nil, or_self, reduceCtorEq]

theorem isMap_iff_4096 : (dotsDir 4096).fs.blockSize ≤ blockSizeDefault ∧
    ∀ ops, Calls.Along DirOp.step DirOp.Legal ops (dotsDir 4096, dotsMap) →
      IsMap (ops.foldl DirOp.step (dotsDir 4096, dotsMap)).1 (ops.foldl DirOp.step (dotsDir 4096, dotsMap)).2 ∧
        ∀ op, DirOp.Legal (ops.foldl DirOp.step (dotsDir 4096, dotsMap)) op →
          (op.call (ops.foldl DirOp.step (dotsDir 4096, dotsMap)).1).1 = some () :=
  ⟨le_rfl, (isMap_iff (dotsDir_linear (.inl rfl)) (dots_represents 4096)).2 le_rfl⟩

/-- `ext4_find_entry` does not find `.` in a block of 8192 bytes: it has no buffer to read the block. -/
theorem not_isMap_8192 : ¬ ∀ (n : ℕ) (s : FsInode) (dir : List (ℕ × List Dirent)) (m : List Byte → Option ℕ),
    Linear n s dir → Represents dir m → IsMap s m := by
  intro hall
  have hfind := (hall _ _ _ _ (dotsDir_linear (.inr rfl)) (dots_represents 8192)).finds [46]
  exact absurd hfind (by decide +kernel)

end FsInode

end MiniExt4
