import MiniExt4.Ext4.DirAlloc

/-!
# Reading directories (`ext4_dir_readdir` in `fs/ext4/file.c`)

The position of an open directory is the number of entries that the scan of `ext4_dir_foreach` has gone
through. Each call scans from the start, skips as many entries, and offers the others to `filldir` until
it refuses one.

As long as nothing changes, the scan of any directory offers one and the same list of entries to its
callback (`Steady.exists_entries`), whatever the contents of its blocks are.
-/

namespace MiniExt4

open StateErr

/-! ### The code -/

/-- `struct ext4_readdir_ctx` -/
structure ReaddirCtx (σ : Type) where
  dirent : σ
  offset : ℕ
  startPos : ℕ

/-- `ext4_readdir_fill`. The callback gets a name, an offset and an inode number, and returns whether it
refuses the entry. -/
def ext4ReaddirFill {σ : Type} (filldir : σ → List Byte → ℕ → ℕ → Bool × σ) (rctx : ReaddirCtx σ)
    (name : List Byte) (ino : ℕ) : Bool × ReaddirCtx σ :=
  if rctx.offset < rctx.startPos then (false, { rctx with offset := rctx.offset + 1 })
  else
    let r := filldir rctx.dirent name rctx.offset ino
    if r.1 then (true, { rctx with dirent := r.2 })
    else (false, { rctx with dirent := r.2, offset := rctx.offset + 1 })

/-- `ext4_dir_readdir(file, dirent, filldir)`: whether it returns 0, and `dirent`. -/
def FsFile.ext4DirReaddir {σ : Type} (filldir : σ → List Byte → ℕ → ℕ → Bool × σ) (dirent : σ) :
    StateErr FsFile (Bool × σ) := do
  let f ← get
  let r ← FsFile.onInode (FsInode.ext4DirForeach (ext4ReaddirFill filldir) ⟨dirent, 0, f.fPos⟩)
  modify fun f ↦ { f with fPos := r.2.offset }
  pure (r.1, r.2.dirent)

/-! ### Enumerating any directory -/

/-- An entry as the scan offers it: a name of at most 255 bytes and an inode number. -/
def Offered (e : List Byte × ℕ) : Prop := e.1.length < 256 ∧ e.2 < 2 ^ 32

/-- How the loop over a block ends that comes to its end or to a record of length 0. -/
def scanEnd {σ : Type} (ok : Bool) (r : Bool × σ) : Foreach σ :=
  if r.1 then .stop r.2 else if ok then .next r.2 else .error r.2

/-- The loop over a block offers a list of entries. -/
theorem exists_blockEntries (buf : Buf) (bs fuel off : ℕ) : ∃ (ok : Bool) (l : List (List Byte × ℕ)),
    (∀ e ∈ l, Offered e) ∧ ∀ {σ : Type} (filldir : σ → List Byte → ℕ → Bool × σ) (ctx : σ),
      foreachLoop filldir bs buf fuel off ctx = scanEnd ok (fillAll filldir ctx l) := by
  induction fuel generalizing off with
  | zero => exact ⟨true, [], by simp, fun _ _ ↦ rfl⟩
  | succ fuel ih =>
    unfold foreachLoop
    by_cases hoff : off < bs
    swap
    · exact ⟨true, [], by simp, fun _ _ ↦ if_neg hoff⟩
    by_cases hrec : buf.getField off De.recLen = 0
    · exact ⟨false, [], by simp, fun _ _ ↦ by rw [if_pos hoff, if_pos hrec]; rfl⟩
    obtain ⟨ok, l, hl, hrest⟩ := ih (off + buf.getField off De.recLen)
    by_cases hlive : buf.getField off De.inode ≠ 0 ∧ buf.getField off De.nameLen > 0
    swap
    · refine ⟨ok, l, hl, fun filldir ctx ↦ ?_⟩
      rw [if_pos hoff, if_neg hrec, if_neg hlive, hrest]
    refine ⟨ok, (nameAt buf off (buf.getField off De.nameLen), buf.getField off De.inode) :: l, ?_, ?_⟩
    · intro e he
      rcases List.mem_cons.1 he with rfl | he
      · exact ⟨by rw [length_nameAt]; exact Buf.getField_lt .., Buf.getField_lt ..⟩
      · exact hl e he
    · intro σ filldir ctx
      rw [if_pos hoff, if_neg hrec, if_pos hlive, fillAll]
      dsimp only
      by_cases hstop :
        (filldir ctx (nameAt buf off (buf.getField off De.nameLen)) (buf.getField off De.inode)).1 = true
      · rw [if_pos hstop, if_pos hstop]
        rfl
      · rw [if_neg hstop, if_neg hstop, hrest]

namespace FsInode

variable {s : FsInode}

/-- A directory that does not change: looking its blocks up and reading them leaves everything as it is,
with no failure pending and no buffer lost. -/
structure Steady (s : FsInode) : Prop where
  lookup : ∀ i, (ext4DirGetBlocknr i s).2 = s
  read : ∀ b, (onFs (Fs.readBlock b) s).2 = s

/-- What the scan returns that comes to its end or to an error. -/
def scanResult {σ : Type} (ok : Bool) (r : Bool × σ) : Bool × σ := (r.1 || ok, r.2)

theorem Steady.foreachBlocks (h : Steady s) (n i : ℕ) : ∃ (ok : Bool) (l : List (List Byte × ℕ)),
    (∀ e ∈ l, Offered e) ∧ ∀ {σ : Type} (filldir : σ → List Byte → ℕ → Bool × σ) (ctx : σ),
      foreachBlocks filldir n i ctx s = (some (scanResult ok (fillAll filldir ctx l)), s) := by
  induction n generalizing i with
  | zero => exact ⟨true, [], by simp, fun _ _ ↦ rfl⟩
  | succ n ih =>
    have hget := h.lookup i
    rcases hb : ext4DirGetBlocknr i s with ⟨_ | b, s₁⟩ <;> obtain rfl : s₁ = s := by rw [← hget, hb]
    · refine ⟨true, [], by simp, fun filldir ctx ↦ ?_⟩
      rw [FsInode.foreachBlocks, attempt_bind, hb]
      rfl
    have hread := h.read b
    rcases hbuf : onFs (Fs.readBlock b) s₁ with ⟨_ | buf, s₂⟩ <;> obtain rfl : s₂ = s₁ := by rw [← hread, hbuf]
    · refine ⟨false, [], by simp, fun filldir ctx ↦ ?_⟩
      rw [FsInode.foreachBlocks, attempt_bind, hb]
      dsimp only
      rw [get_bind, attempt_bind, hbuf]
      rfl
    obtain ⟨ok, l, hl, hblock⟩ := exists_blockEntries buf s₂.fs.blockSize s₂.fs.blockSize 0
    obtain ⟨ok', l', hl', hrest⟩ := ih (i + 1)
    cases ok with
    | false =>
      refine ⟨false, l, hl, fun filldir ctx ↦ ?_⟩
      rw [FsInode.foreachBlocks, attempt_bind, hb]
      dsimp only
      rw [get_bind, attempt_bind, hbuf]
      dsimp only
      rw [hblock, scanEnd, scanResult]
      rcases (fillAll filldir ctx l).1 <;> rfl
    | true =>
      -- the scan goes on behind this block
      refine ⟨ok', l ++ l', fun e he ↦ ?_, fun filldir ctx ↦ ?_⟩
      · rcases List.mem_append.1 he with he | he
        · exact hl e he
        · exact hl' e he
      · rw [FsInode.foreachBlocks, attempt_bind, hb]
        dsimp only
        rw [get_bind, attempt_bind, hbuf]
        dsimp only
        rw [hblock, scanEnd, fillAll_append]
        rcases (fillAll filldir ctx l).1
        · exact hrest filldir _
        · rfl

/-- The scan offers one and the same list of entries to every callback. -/
theorem Steady.exists_entries (h : Steady s) : ∃ (ok : Bool) (l : List (List Byte × ℕ)),
    (∀ e ∈ l, Offered e) ∧ ∀ {σ : Type} (filldir : σ → List Byte → ℕ → Bool × σ) (ctx : σ),
      ext4DirForeach filldir ctx s = (some (scanResult ok (fillAll filldir ctx l)), s) := by
  by_cases hbs : s.fs.blockSize ≤ blockSizeDefault
  · obtain ⟨ok, l, hl, hall⟩ := h.foreachBlocks (2 ^ 32) 0
    refine ⟨ok, l, hl, fun filldir ctx ↦ ?_⟩
    rw [ext4DirForeach, attempt_bind, onFs_mallocBlock hbs]
    exact hall filldir ctx
  · refine ⟨false, [], by simp, fun filldir ctx ↦ ?_⟩
    have hmalloc : onFs Fs.mallocBlock s = (none, s) := by
      rw [onFs, zoom_apply, Fs.mallocBlock, get_bind, guard_false hbs]
      rfl
    rw [ext4DirForeach, attempt_bind, hmalloc]
    rfl

/-- A directory without extents does not change where no failure is pending. -/
theorem steady_of_quiet (hquiet : s.fs.dev.faults = []) (hext : s.inode.hasExtents = false) : Steady s := by
  have hread : ∀ b, (onFs (Fs.readBlock b) s).2 = s := by
    intro b
    rw [onFs, zoom_apply, Fs.readBlock]
    rcases BlockDevice.read_quiet_cases hquiet s.fs.blockSize b with ⟨buf, h, -⟩ | ⟨h, -⟩
    all_goals simp only [Fs.io, zoom_apply, h]
  refine ⟨fun i ↦ ?_, hread⟩
  unfold ext4DirGetBlocknr
  rw [get_bind, if_neg (by rw [hext]; exact Bool.false_ne_true)]
  split
  · exact bind_snd (guard_snd _ _) fun _ ↦ rfl
  · exact bind_snd (guard_snd _ _) fun _ ↦ bind_snd (guard_snd _ _) fun _ ↦ bind_snd (guard_snd _ _) fun _ ↦
      bind_snd (mallocBlock_snd s) fun _ ↦ bind_snd (hread _) fun _ ↦ bind_snd (guard_snd _ _) fun _ ↦ rfl

/-- A callback that makes a list of what it gets. -/
theorem Steady.entries (h : Steady s) {ok : Bool} {l : List (List Byte × ℕ)}
    (henum : (ext4DirForeach collect [] s).1 = some (ok, l)) : (∀ e ∈ l, Offered e) ∧
      ∀ {σ : Type} (filldir : σ → List Byte → ℕ → Bool × σ) (ctx : σ),
        ext4DirForeach filldir ctx s = (some (scanResult ok (fillAll filldir ctx l)), s) := by
  obtain ⟨ok', l', hl, hall⟩ := h.exists_entries
  rw [hall, fillAll_collect] at henum
  obtain ⟨rfl, rfl⟩ := Prod.mk.inj (Option.some.inj henum)
  exact ⟨hl, hall⟩

end FsInode

/-! ### The cursor -/

section

variable {σ : Type} {filldir : σ → List Byte → ℕ → ℕ → Bool × σ}

/-- The entries before the position are skipped. -/
theorem fillAll_skip (d : σ) (o start : ℕ) (l : List (List Byte × ℕ)) (h : start ≤ o + l.length) (hle : o ≤ start) :
    fillAll (ext4ReaddirFill filldir) ⟨d, o, start⟩ l =
      fillAll (ext4ReaddirFill filldir) ⟨d, start, start⟩ (l.drop (start - o)) := by
  induction l generalizing o with
  | nil =>
    obtain rfl : o = start := by
      rw [List.length_nil] at h
      omega
    simp
  | cons e l ih =>
    rcases Nat.eq_or_lt_of_le hle with rfl | hlt
    · rw [Nat.sub_self, List.drop_zero]
    · rw [List.length_cons] at h
      rw [fillAll, ext4ReaddirFill]
      simp only [if_pos hlt, Bool.false_eq_true, if_false]
      rw [ih (o + 1) (by omega) (by omega), show start - o = start - (o + 1) + 1 by omega, List.drop_succ_cons]

/-- With the position behind all entries, all are skipped. -/
theorem fillAll_skip_all (d : σ) (o start : ℕ) (l : List (List Byte × ℕ)) (h : o + l.length ≤ start) :
    fillAll (ext4ReaddirFill filldir) ⟨d, o, start⟩ l = (false, ⟨d, o + l.length, start⟩) := by
  induction l generalizing o with
  | nil => rfl
  | cons e l ih =>
    rw [List.length_cons] at h ⊢
    rw [fillAll, ext4ReaddirFill]
    simp only [if_pos (show o < start by omega), Bool.false_eq_true, if_false]
    rw [ih (o + 1) (by omega), show o + 1 + l.length = o + (l.length + 1) by omega]

end

end MiniExt4
