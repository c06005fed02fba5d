import MiniExt4.Ext4.File
import MiniExt4.Ext4.Readdir
import MiniExt4.Machine.Chain

/-!
# Listing directories (`vfs_getdents` in `fs/open.c`, `cmd_ls` in `kernel/cmds.cpp`)

`vfs_getdents` fills a buffer with records of a directory, from the position of the open file on, and
`cmd_ls` goes through the records of one buffer after the other until a call returns no length. What it
lists is the directory as `ext4_dir_foreach` offers it, each name up to its first NUL, wherever the
buffers are cut (`getdents_listing`).

The processor has words of 32 bits: the name of a `struct linux_dirent` is at offset 10, and the
structure takes 12 bytes.

A call hands the scan a callback that refuses the first record for which there is no room, and puts the
position where the next call goes on. So the records of one call are a middle part of the list of entries
(`exists_vfsGetdents`), and the listing is an induction on what is left of it (`exists_listing`). That a
call makes progress rests on the size of the buffer alone: one that takes the longest record there is.
-/

namespace MiniExt4

open StateErr
open Buf (ChainView Field)

/-! ### The code -/

namespace Ld

/-- `d_ino` -/
def ino : Field := ⟨0, 4⟩

/-- `d_off` -/
def off : Field := ⟨4, 4⟩

/-- `d_reclen` -/
def reclen : Field := ⟨8, 2⟩

/-- The offset of `d_name`. -/
def name : ℕ := 10

/-- `sizeof(struct linux_dirent)` -/
def size : ℕ := 12

end Ld

/-- `(sizeof(struct linux_dirent) + name_len + 1 + 3) & ~3` -/
def ldReclen (nameLen : ℕ) : ℕ := (Ld.size + nameLen + 1 + 3) / 4 * 4

/-- The stores that fill in the record at `o`. -/
def putLd (b : Buf) (o ino off reclen : ℕ) (name : List Byte) : Buf :=
  (b
    |>.setField o Ld.ino ino
    |>.setField o Ld.off off
    |>.setField o Ld.reclen reclen
    |>.blit (o + Ld.name) (fun i ↦ name.getD i 0) 0 name.length).putLe (o + Ld.name + name.length) 1 0

/-- `struct getdents_context` -/
structure GetdentsContext where
  buf : Buf
  count : ℕ
  written : ℕ
  error : ℤ

/-- `-EINVAL` -/
def eInval : ℤ := -22

/-- `filldir_getdents`: whether it refuses the entry, because the buffer is full. -/
def filldirGetdents (p : GetdentsContext) (name : List Byte) (off ino : ℕ) : Bool × GetdentsContext :=
  let reclen := ldReclen name.length
  if u32 (p.written + reclen) > p.count then
    (true, if p.written = 0 then { p with error := eInval } else p)
  else
    (false,
      { p with
        buf := putLd p.buf p.written ino off reclen name
        written := u32 (p.written + reclen) })

/-- 32 bits as an `int`. -/
def toInt (n : ℕ) : ℤ := if n < 2 ^ 31 then n else n - 2 ^ 32

/-- `vfs_getdents(fd, dirent, count)` for the descriptor of a directory: what it returns, and the
buffer. -/
def FsFile.vfsGetdents (dirent : Buf) (count : ℕ) : StateErr FsFile (ℤ × Buf) := do
  let r ← FsFile.ext4DirReaddir filldirGetdents ⟨dirent, count, 0, 0⟩
  pure (if r.2.error < 0 then r.2.error else if r.1 = false ∧ r.2.written = 0 then -1 else toInt r.2.written,
    r.2.buf)

/-- The bytes from `o` up to a NUL. -/
def cString (b : Buf) : ℕ → ℕ → List Byte
  | 0, _ => []
  | n + 1, o => if b o = 0 then [] else b o :: cString b n (o + 1)

/-- A `struct linux_dirent` as `cmd_ls` reads it. -/
structure LinuxDirent where
  ino : ℕ
  reclen : ℕ
  name : List Byte
  deriving DecidableEq

namespace LinuxDirent

/-- The record at `o`. -/
def read (b : Buf) (o : ℕ) : LinuxDirent where
  ino := b.getField o Ld.ino
  reclen := b.getField o Ld.reclen
  name := cString b (2 ^ 32) (o + Ld.name)

end LinuxDirent

/-- The loop of `cmd_ls` over a buffer: the records with their offsets. -/
def lsLoop (buf : Buf) (nread : ℕ) : ℕ → ℕ → List (ℕ × LinuxDirent)
  | 0, _ => []
  | fuel + 1, bpos =>
    if bpos < nread then
      let d := LinuxDirent.read buf bpos
      (bpos, d) :: lsLoop buf nread fuel (bpos + d.reclen)
    else []

/-- What `cmd_ls` finds in a buffer of which `nread` bytes were filled. -/
def cmdLs (buf : Buf) (nread : ℤ) : List (ℕ × LinuxDirent) := lsLoop buf nread.toNat nread.toNat 0

/-- Call number `k` of a sequence of calls, each with what its buffer holds before and its size. -/
def FsFile.getdentsCall (calls : ℕ → Buf × ℕ) : ℕ → FsFile → Option (ℤ × Buf) × FsFile
  | 0, f => FsFile.vfsGetdents (calls 0).1 (calls 0).2 f
  | k + 1, f =>
    FsFile.getdentsCall (fun i ↦ calls (i + 1)) k (FsFile.vfsGetdents (calls 0).1 (calls 0).2 f).2

/-! ### Records -/

/-- A string depends on its bytes and the NUL behind them. -/
theorem cString_congr {b c : Buf} {n o : ℕ}
    (h : ∀ i, o ≤ i → i ≤ o + (cString b n o).length → c i = b i) : cString c n o = cString b n o := by
  induction n generalizing o with
  | zero => rfl
  | succ n ih =>
    have hhead : c o = b o := h o le_rfl (Nat.le_add_right _ _)
    rw [cString, cString, hhead]
    by_cases hzero : b o = 0
    · rw [if_pos hzero, if_pos hzero]
    · rw [if_neg hzero, if_neg hzero]
      rw [cString, if_neg hzero, List.length_cons] at h
      rw [ih fun i hlo hle ↦ h i (by omega) (by omega)]

/-- A name with a NUL behind it is read up to its first NUL. -/
theorem cString_eq {b : Buf} {n o : ℕ} {name : List Byte} (hn : name.length < n)
    (hname : ∀ i, i < name.length → b (o + i) = name.getD i 0) (hend : b (o + name.length) = 0) :
    cString b n o = name.takeWhile (· ≠ 0) := by
  induction name generalizing n o with
  | nil =>
    obtain ⟨n, rfl⟩ : ∃ m, n = m + 1 := ⟨n - 1, by omega⟩
    rw [cString, if_pos (by simpa using hend)]
    rfl
  | cons c name ih =>
    rw [List.length_cons] at hn
    obtain ⟨n, rfl⟩ : ∃ m, n = m + 1 := ⟨n - 1, by omega⟩
    have hhead : b o = c := by simpa using hname 0 (by simp)
    have htail : ∀ i, i < name.length → b (o + 1 + i) = name.getD i 0 := by
      intro i hi
      have := hname (i + 1) (by simpa using hi)
      rw [show o + 1 + i = o + (i + 1) by omega, this, List.getD_cons_succ]
    have hend' : b (o + 1 + name.length) = 0 := by
      rw [show o + 1 + name.length = o + (c :: name).length by rw [List.length_cons]; omega]
      exact hend
    rw [cString, hhead]
    by_cases hzero : c = 0
    · rw [if_pos hzero, List.takeWhile_cons_of_neg (by simp [hzero])]
    · rw [if_neg hzero, List.takeWhile_cons_of_pos (by simpa using hzero), ih (by omega) htail hend']

namespace LinuxDirent

/-- A record is aligned and holds its header and its name with the NUL. -/
structure Ok (d : LinuxDirent) : Prop where
  aligned : 4 ∣ d.reclen
  fits : Ld.name + d.name.length + 1 ≤ d.reclen

/-- Chains of records. -/
def view : ChainView LinuxDirent where
  read
  len := reclen
  Ok
  len_pos h := by
    have := h.fits
    omega
  read_congr {b c o} hok heq := by
    have hfits := hok.fits
    have hfield : ∀ f : Field, f.off + f.size ≤ 10 → c.getField o f = b.getField o f := fun f hf ↦
      Buf.getField_congr fun i hlo hlt ↦ heq i (by omega) (by simp only [Ld.name] at hfits; omega)
    have hname : cString c (2 ^ 32) (o + Ld.name) = cString b (2 ^ 32) (o + Ld.name) := by
      have hlen : (read b o).name.length = (cString b (2 ^ 32) (o + Ld.name)).length := rfl
      exact cString_congr fun i hlo hle ↦ heq i (by omega) (by omega)
    simp only [read, hfield Ld.ino (by decide), hfield Ld.reclen (by decide), hname]

@[simp] theorem view_len (d : LinuxDirent) : view.len d = d.reclen := rfl

@[simp] theorem view_read (b : Buf) (o : ℕ) : view.read b o = read b o := rfl

end LinuxDirent

open LinuxDirent (view)

theorem ldReclen_bounds (n : ℕ) : Ld.name + n + 1 ≤ ldReclen n ∧ ldReclen n ≤ n + 16 ∧ 4 ∣ ldReclen n := by
  unfold ldReclen
  simp only [Ld.name, Ld.size]
  exact ⟨by omega, by omega, Nat.dvd_mul_left _ _⟩

/-- The record of an entry. -/
def toLinuxDirent (e : List Byte × ℕ) : LinuxDirent := ⟨e.2, ldReclen e.1.length, e.1.takeWhile (· ≠ 0)⟩

theorem toLinuxDirent_ok (e : List Byte × ℕ) : (toLinuxDirent e).Ok where
  aligned := (ldReclen_bounds _).2.2
  fits := by
    have hlen : (e.1.takeWhile (· ≠ 0)).length ≤ e.1.length := (List.takeWhile_sublist _).length_le
    have := (ldReclen_bounds e.1.length).1
    simp only [toLinuxDirent]
    omega

variable {b : Buf} {o : ℕ} {e : List Byte × ℕ} {l : List (List Byte × ℕ)}

theorem putLd_of_lt {ino off reclen i : ℕ} {name : List Byte} (h : i < o) :
    putLd b o ino off reclen name i = b i := by
  unfold putLd
  rw [Buf.putLe_of_lt (by omega), Buf.blit_out (.inl (by omega)), Buf.setField_of_lt (by omega),
    Buf.setField_of_lt (by omega), Buf.setField_of_lt (by omega)]

/-- What is stored is read back. -/
theorem read_putLd (he : Offered e) (off : ℕ) :
    LinuxDirent.read (putLd b o e.2 off (ldReclen e.1.length) e.1) o = toLinuxDirent e := by
  obtain ⟨hlen, hino⟩ := he
  have hreclen : ldReclen e.1.length < 256 ^ Ld.reclen.size := by
    have := (ldReclen_bounds e.1.length).2.1
    simp only [Ld.reclen]
    omega
  have hfield : ∀ f : Field, f.off + f.size ≤ Ld.name → (putLd b o e.2 off (ldReclen e.1.length) e.1).getField o f =
      (((b.setField o Ld.ino e.2).setField o Ld.off off).setField o Ld.reclen
        (ldReclen e.1.length)).getField o f := by
    intro f hf
    refine Buf.getField_congr fun i hlo hlt ↦ ?_
    unfold putLd
    rw [Buf.putLe_of_lt (by omega), Buf.blit_out (.inl (by omega))]
  have hname : cString (putLd b o e.2 off (ldReclen e.1.length) e.1) (2 ^ 32) (o + Ld.name) =
      e.1.takeWhile (· ≠ 0) := by
    refine cString_eq (by omega) (fun i hi ↦ ?_) ?_
    · unfold putLd
      rw [Buf.putLe_of_lt (by omega), Buf.blit_in (by omega) (by omega), Nat.zero_add, Nat.add_sub_cancel_left]
    · unfold putLd
      simp [Buf.putLe]
  rw [LinuxDirent.read, toLinuxDirent, hfield _ (by decide), hfield _ (by decide), hname,
    Buf.getField_setField_self, Nat.mod_eq_of_lt hreclen,
    Buf.getField_setField_of_disjoint _ _ _ (by decide), Buf.getField_setField_of_disjoint _ _ _ (by decide),
    Buf.getField_setField_self, Nat.mod_eq_of_lt (show e.2 < 256 ^ Ld.ino.size from hino)]

/-- A record is put behind others. -/
theorem chain_putLd {recs : List LinuxDirent} (h : view.Chain b o 0 recs) (he : Offered e) (off : ℕ) :
    view.Chain (putLd b o e.2 off (ldReclen e.1.length) e.1) (o + ldReclen e.1.length) 0
      (recs ++ [toLinuxDirent e]) := by
  have hend := h.hi_eq
  rw [Nat.zero_add] at hend
  refine ChainView.chain_append.2 ⟨?_, ?_⟩
  · rw [Nat.zero_add, ← hend]
    exact h.congr fun i _ hlt ↦ putLd_of_lt hlt
  · rw [Nat.zero_add, ← hend]
    exact ⟨read_putLd he off, toLinuxDirent_ok e, rfl⟩

/-! ### Going through a buffer -/

/-- The records of a list with their offsets, from `o` on. -/
def placed : ℕ → List LinuxDirent → List (ℕ × LinuxDirent)
  | _, [] => []
  | o, d :: recs => (o, d) :: placed (o + d.reclen) recs

theorem lsLoop_eq {hi fuel : ℕ} {recs : List LinuxDirent} (h : view.Chain b hi o recs) (hfuel : hi ≤ o + fuel) :
    lsLoop b hi fuel o = placed o recs := by
  induction fuel generalizing o recs with
  | zero =>
    rcases recs with _ | ⟨d, recs⟩
    · rfl
    · have hpos := view.len_pos h.2.1
      have := h.2.2.le
      omega
  | succ fuel ih =>
    unfold lsLoop
    rcases recs with _ | ⟨d, recs⟩
    · obtain rfl : o = hi := h
      rw [if_neg (lt_irrefl _)]
      rfl
    obtain ⟨hread, hok, hrest⟩ := h
    have hpos := view.len_pos hok
    have hle := hrest.le
    rw [LinuxDirent.view_read] at hread
    rw [LinuxDirent.view_len] at hrest hpos hle
    simp only [hread]
    rw [if_pos (by omega), placed, ih hrest (by omega)]

theorem map_snd_placed (o : ℕ) (recs : List LinuxDirent) : (placed o recs).map Prod.snd = recs := by
  induction recs generalizing o with
  | nil => rfl
  | cons d recs ih => rw [placed, List.map_cons, ih]

/-- A record lies inside what was filled. -/
theorem inside_of_mem_placed {hi : ℕ} {recs : List LinuxDirent} (h : view.Chain b hi o recs) (haligned : 4 ∣ o)
    {d : ℕ × LinuxDirent} (hd : d ∈ placed o recs) : 4 ∣ d.1 ∧ d.1 + d.2.reclen ≤ hi ∧ d.2.Ok := by
  induction recs generalizing o with
  | nil => simp [placed] at hd
  | cons a recs ih =>
    obtain ⟨-, hok, hrest⟩ := h
    rcases List.mem_cons.1 hd with rfl | hd
    · exact ⟨haligned, hrest.le, hok⟩
    · exact ih hrest (Nat.dvd_add haligned hok.aligned) hd

/-! ### One call -/

/-- The bytes that the records of entries take. -/
def ldBytes (l : List (List Byte × ℕ)) : ℕ := (l.map fun e ↦ ldReclen e.1.length).sum

@[simp] theorem ldBytes_nil : ldBytes [] = 0 := rfl

@[simp] theorem ldBytes_cons (e : List Byte × ℕ) (l : List (List Byte × ℕ)) :
    ldBytes (e :: l) = ldReclen e.1.length + ldBytes l := rfl

@[simp] theorem ldBytes_append (l l' : List (List Byte × ℕ)) : ldBytes (l ++ l') = ldBytes l + ldBytes l' := by
  simp [ldBytes]

theorem ldBytes_pos (h : l ≠ []) : 0 < ldBytes l := by
  obtain ⟨e, l, rfl⟩ := List.exists_cons_of_ne_nil h
  have := (ldReclen_bounds e.1.length).1
  rw [ldBytes_cons]
  omega

/-- The size of a buffer that takes any record of a list, where `int` can hold what a call returns. -/
structure SizeFor (l : List (List Byte × ℕ)) (count : ℕ) : Prop where
  lt : count < 2 ^ 32
  record : ∀ e ∈ l, ldReclen e.1.length ≤ count
  int : min count (ldBytes l) < 2 ^ 31

/-- A call that is under way takes entries up to the first that does not fit. -/
theorem exists_filled {p : GetdentsContext} {recs : List LinuxDirent} {start : ℕ}
    (hchain : view.Chain p.buf p.written 0 recs) (hl : ∀ e ∈ l, Offered e) (hle : p.written ≤ p.count)
    (hrecord : ∀ e ∈ l, ldReclen e.1.length ≤ p.count) (hint : min p.count (p.written + ldBytes l) < 2 ^ 31)
    (hstart : start ≤ o) : ∃ pre post stop p', l = pre ++ post ∧
      fillAll (ext4ReaddirFill filldirGetdents) ⟨p, o, start⟩ l = (stop, ⟨p', o + pre.length, start⟩) ∧
      (stop = true ↔ post ≠ []) ∧ view.Chain p'.buf p'.written 0 (recs ++ pre.map toLinuxDirent) ∧
      p'.written = p.written + ldBytes pre ∧ p'.written ≤ p.count ∧ p'.error = p.error ∧
      (p'.written = 0 → post = []) := by
  induction l generalizing p recs o with
  | nil => exact ⟨[], [], false, p, rfl, rfl, by simp, by simpa using hchain, rfl, hle, rfl, fun _ ↦ rfl⟩
  | cons e l ih =>
    have hbounds := (ldReclen_bounds e.1.length).2.1
    have hlen := (hl e (by simp)).1
    rw [ldBytes_cons] at hint
    have hword : u32 (p.written + ldReclen e.1.length) = p.written + ldReclen e.1.length :=
      Nat.mod_eq_of_lt (by omega)
    -- one call of the filler appends a record or refuses it
    have hfill : ext4ReaddirFill filldirGetdents ⟨p, o, start⟩ e.1 e.2 =
        if p.written + ldReclen e.1.length > p.count then
          (true, ⟨if p.written = 0 then { p with error := eInval } else p, o, start⟩)
        else (false, ⟨{ p with
          buf := putLd p.buf p.written e.2 o (ldReclen e.1.length) e.1
          written := p.written + ldReclen e.1.length }, o + 1, start⟩) := by
      rw [ext4ReaddirFill]
      simp only [filldirGetdents, hword]
      rw [if_neg (by omega)]
      split <;> rfl
    rw [fillAll, hfill]
    by_cases hfull : p.written + ldReclen e.1.length > p.count
    · -- the buffer is full, and there is a record in it
      have hne : p.written ≠ 0 := by
        have := hrecord e (by simp)
        omega
      rw [if_pos hfull, if_neg hne]
      exact ⟨[], e :: l, true, p, rfl, rfl, by simp, by simpa using hchain, rfl, hle, rfl, fun h ↦ absurd h hne⟩
    · rw [if_neg hfull]
      simp only [Bool.false_eq_true, if_false]
      obtain ⟨pre, post, stop, p', rfl, hrun, hstop, hchain', hwritten, hle', herror, hpost⟩ :=
        @ih (o + 1) { p with
          buf := putLd p.buf p.written e.2 o (ldReclen e.1.length) e.1
          written := p.written + ldReclen e.1.length }
          (recs ++ [toLinuxDirent e]) (chain_putLd hchain (hl e (by simp)) o) (fun a ha ↦ hl a (by simp [ha]))
          (by dsimp only; omega) (fun a ha ↦ hrecord a (by simp [ha])) (by dsimp only; omega) (by omega)
      refine ⟨e :: pre, post, stop, p', rfl, ?_, hstop, ?_, ?_, hle', herror, hpost⟩
      · rw [hrun, List.length_cons, show o + 1 + pre.length = o + (pre.length + 1) by omega]
      · rwa [List.append_assoc] at hchain'
      · rw [hwritten, ldBytes_cons, Nat.add_assoc]

variable {f : FsFile} {ok : Bool}

/-- The value of a directory that does not change: what its scan offers to every callback. -/
def Scans (s : FsInode) (ok : Bool) (l : List (List Byte × ℕ)) : Prop :=
  ∀ {σ : Type} (filldir : σ → List Byte → ℕ → Bool × σ) (ctx : σ),
    FsInode.ext4DirForeach filldir ctx s = (some (FsInode.scanResult ok (fillAll filldir ctx l)), s)

/-- What the scan of `ext4_dir_readdir` makes of the context: it takes entries from the position on. -/
theorem exists_readdir (hscan : Scans f.toFsInode ok l) (hl : ∀ e ∈ l, Offered e) {count : ℕ}
    (hsize : SizeFor l count) (stale : Buf) : ∃ pre post stop p', l.drop f.fPos = pre ++ post ∧
      FsFile.ext4DirReaddir filldirGetdents ⟨stale, count, 0, 0⟩ f =
        (some (stop || ok, p'), { f with fPos := min f.fPos l.length + pre.length }) ∧
      (stop = true ↔ post ≠ []) ∧ view.Chain p'.buf (ldBytes pre) 0 (pre.map toLinuxDirent) ∧
      p'.written = ldBytes pre ∧ ldBytes pre ≤ count ∧ p'.error = 0 ∧ (pre = [] → post = []) := by
  have hbytes : ldBytes (l.drop f.fPos) ≤ ldBytes l := by
    have := congrArg ldBytes (List.take_append_drop f.fPos l)
    rw [ldBytes_append] at this
    omega
  have hint := hsize.int
  obtain ⟨pre, post, stop, p', hdrop, hrun, hstop, hchain, hwritten, hle, herror, hpost⟩ :=
    @exists_filled f.fPos (l.drop f.fPos) ⟨stale, count, 0, 0⟩ [] f.fPos rfl
      (fun e he ↦ hl e (List.mem_of_mem_drop he)) (Nat.zero_le _)
      (fun e he ↦ hsize.record e (List.mem_of_mem_drop he)) (by dsimp only; omega) le_rfl
  dsimp only at hwritten hle herror
  rw [Nat.zero_add] at hwritten
  rw [List.nil_append, hwritten] at hchain
  refine ⟨pre, post, stop, p', hdrop, ?_, hstop, hchain, hwritten, hwritten ▸ hle, herror,
    fun hpre ↦ hpost (by rw [hwritten, hpre]; rfl)⟩
  have hall : fillAll (ext4ReaddirFill filldirGetdents) ⟨⟨stale, count, 0, 0⟩, 0, f.fPos⟩ l =
      (stop, ⟨p', min f.fPos l.length + pre.length, f.fPos⟩) := by
    rcases Nat.le_total f.fPos l.length with hpos | hpos
    · rw [fillAll_skip _ _ _ _ (by omega) (Nat.zero_le _), Nat.sub_zero, hrun, Nat.min_eq_left hpos]
    · -- the position is behind all entries
      rw [List.drop_of_length_le hpos] at hdrop hrun
      obtain ⟨rfl, rfl⟩ := List.append_eq_nil_iff.1 hdrop.symm
      obtain ⟨rfl, hctx⟩ := Prod.mk.inj hrun
      obtain ⟨rfl, -⟩ := ReaddirCtx.mk.inj hctx
      rw [fillAll_skip_all _ _ _ _ (by omega), Nat.zero_add, Nat.min_eq_right hpos]
      rfl
  rw [FsFile.ext4DirReaddir, get_bind]
  have honInode : FsFile.onInode (FsInode.ext4DirForeach (ext4ReaddirFill filldirGetdents)
      ⟨⟨stale, count, 0, 0⟩, 0, f.fPos⟩) f =
        (some (stop || ok, ⟨p', min f.fPos l.length + pre.length, f.fPos⟩), f) := by
    rw [FsFile.onInode, zoom_apply, hscan, hall]
    rfl
  rw [bind_of_eq_some honInode]
  rfl

/-- One call takes entries from the position on, at least one if there is one. -/
theorem exists_vfsGetdents (hscan : Scans f.toFsInode ok l) (hl : ∀ e ∈ l, Offered e) {count : ℕ}
    (hsize : SizeFor l count) (stale : Buf) :
    ∃ pre post buf, l.drop f.fPos = pre ++ post ∧ (pre = [] → post = []) ∧
      FsFile.vfsGetdents stale count f =
        (some (if pre = [] then (if ok then 0 else -1) else (ldBytes pre : ℤ), buf),
          { f with fPos := min f.fPos l.length + pre.length }) ∧
      view.Chain buf (ldBytes pre) 0 (pre.map toLinuxDirent) := by
  obtain ⟨pre, post, stop, p', hdrop, hreaddir, hstop, hchain, hwritten, hle, herror, hpost⟩ :=
    exists_readdir hscan hl hsize stale
  refine ⟨pre, post, p'.buf, hdrop, hpost, ?_, hchain⟩
  rw [FsFile.vfsGetdents, bind_of_eq_some hreaddir]
  dsimp only
  rw [pure_apply, herror, if_neg (lt_irrefl _), hwritten]
  by_cases hpre : pre = []
  · subst hpre
    have hnot : stop = false := by
      rw [← Bool.not_eq_true, hstop, not_not]
      exact hpost rfl
    subst hnot
    cases ok <;> simp [toInt]
  · have hbytes := ldBytes_pos hpre
    have hlt : ldBytes pre < 2 ^ 31 := by
      have hint := hsize.int
      have hall := congrArg ldBytes (List.take_append_drop f.fPos l)
      rw [hdrop, ldBytes_append, ldBytes_append] at hall
      omega
    rw [if_neg (by omega), if_neg hpre, toInt, if_pos hlt]

/-! ### Calls up to the last -/

/-- What a sequence of calls returns up to call `n`, and what `cmd_ls` makes of it. -/
structure Listing (calls : ℕ → Buf × ℕ) (f : FsFile) (n : ℕ) (ret : ℕ → ℤ) (out : ℕ → Buf) (last : ℤ)
    (l : List (ℕ × List Byte)) : Prop where
  returns : ∀ k ≤ n, (FsFile.getdentsCall calls k f).1 = some (ret k, out k)
  positive : ∀ k < n, 0 < ret k
  ended : ret n = last
  inside : ∀ k < n, ∀ d ∈ cmdLs (out k) (ret k),
    4 ∣ d.1 ∧ (d.1 + d.2.reclen : ℤ) ≤ ret k ∧ Ld.name + d.2.name.length + 1 ≤ d.2.reclen
  decoded : ((List.range n).flatMap fun k ↦ (cmdLs (out k) (ret k)).map fun d ↦ (d.2.ino, d.2.name)) = l

/-- What `cmd_ls` lists of an entry: the inode number, and the name up to its first NUL. -/
def listed (e : List Byte × ℕ) : ℕ × List Byte := (e.2, e.1.takeWhile (· ≠ 0))

/-- A listing goes on behind a call. -/
theorem Listing.cons {calls : ℕ → Buf × ℕ} {n : ℕ} {ret : ℕ → ℤ} {out : ℕ → Buf} {last : ℤ} {f' : FsFile}
    {l' : List (ℕ × List Byte)} {buf : Buf} (h : Listing (fun i ↦ calls (i + 1)) f' n ret out last l')
    (hcall : FsFile.vfsGetdents (calls 0).1 (calls 0).2 f = (some ((ldBytes l : ℤ), buf), f'))
    (hne : l ≠ []) (hchain : view.Chain buf (ldBytes l) 0 (l.map toLinuxDirent)) :
    Listing calls f (n + 1) (fun | 0 => ldBytes l | k + 1 => ret k) (fun | 0 => buf | k + 1 => out k) last
      (l.map listed ++ l') := by
  have hls : cmdLs buf (ldBytes l : ℤ) = placed 0 (l.map toLinuxDirent) := by
    rw [cmdLs, Int.toNat_natCast]
    exact lsLoop_eq hchain (by omega)
  refine ⟨fun k hk ↦ ?_, fun k hk ↦ ?_, h.ended, fun k hk d hd ↦ ?_, ?_⟩
  · cases k with
    | zero => rw [FsFile.getdentsCall, hcall]
    | succ k =>
      rw [FsFile.getdentsCall, hcall]
      exact h.returns k (by omega)
  · cases k with
    | zero => exact Int.natCast_pos.2 (ldBytes_pos hne)
    | succ k => exact h.positive k (by omega)
  · cases k with
    | zero =>
      change d ∈ cmdLs buf (ldBytes l) at hd
      rw [hls] at hd
      obtain ⟨haligned, hin, hok⟩ := inside_of_mem_placed hchain (Nat.dvd_zero 4) hd
      exact ⟨haligned, show ((d.1 : ℤ) + d.2.reclen) ≤ (ldBytes l : ℤ) by exact_mod_cast hin, hok.fits⟩
    | succ k => exact h.inside k (by omega) d hd
  · rw [List.range_succ_eq_map, List.flatMap_cons, List.flatMap_map, h.decoded]
    dsimp only
    rw [hls]
    have hmap : (placed 0 (l.map toLinuxDirent)).map (fun d ↦ (d.2.ino, d.2.name)) =
        ((placed 0 (l.map toLinuxDirent)).map Prod.snd).map fun d ↦ (d.ino, d.name) := by
      rw [List.map_map]
      rfl
    rw [hmap, map_snd_placed, List.map_map]
    rfl

/-- The calls from any position on list the entries from there on. -/
theorem exists_listing (hscan : Scans f.toFsInode ok l) (hl : ∀ e ∈ l, Offered e) (hpos : f.fPos ≤ l.length)
    {calls : ℕ → Buf × ℕ} (hsize : ∀ k, SizeFor l (calls k).2) :
    ∃ n ret out, Listing calls f n ret out (if ok then 0 else -1) ((l.drop f.fPos).map listed) := by
  -- the induction is on the number of entries that are left
  induction hleft : l.length - f.fPos using Nat.strong_induction_on generalizing f calls with
  | _ left ih =>
    obtain ⟨pre, post, buf, hdrop, hpost, hcall, hchain⟩ := exists_vfsGetdents hscan hl (hsize 0) (calls 0).1
    rw [Nat.min_eq_left hpos] at hcall
    by_cases hpre : pre = []
    · rw [hdrop, hpre, hpost hpre]
      rw [if_pos hpre] at hcall
      refine ⟨0, fun _ ↦ if ok then 0 else -1, fun _ ↦ buf, fun k hk ↦ ?_, by simp, rfl, by simp, rfl⟩
      obtain rfl : k = 0 := by omega
      rw [FsFile.getdentsCall, hcall]
    · rw [if_neg hpre] at hcall
      have hlen := congrArg List.length hdrop
      rw [List.length_drop, List.length_append] at hlen
      have hprepos := List.length_pos_of_ne_nil hpre
      have hpos' : f.fPos + pre.length ≤ l.length := by omega
      obtain ⟨n, ret, out, hrest⟩ := @ih (l.length - (f.fPos + pre.length)) (by omega)
        { f with fPos := f.fPos + pre.length } hscan hpos' (fun i ↦ calls (i + 1)) (fun k ↦ hsize (k + 1)) rfl
      have hrest' : l.drop (f.fPos + pre.length) = post := by
        rw [← List.drop_drop, hdrop, List.drop_left]
      dsimp only at hrest
      rw [hrest'] at hrest
      rw [hdrop, List.map_append]
      exact ⟨n + 1, _, _, hrest.cons hcall hpre hchain⟩

/-- **A directory that does not change is listed as `ext4_dir_foreach` offers it, in any number of
calls**, each name up to its first NUL. All calls but the last return a positive length, and the last
returns 0, or -1 if `ext4_dir_foreach` does. -/
theorem getdents_listing (hsteady : f.toFsInode.Steady) (hpos : f.fPos = 0)
    (henum : (FsInode.ext4DirForeach FsInode.collect [] f.toFsInode).1 = some (ok, l))
    {calls : ℕ → Buf × ℕ} (hsize : ∀ k, SizeFor l (calls k).2) :
    ∃ n ret out, Listing calls f n ret out (if ok then 0 else -1) (l.map listed) := by
  obtain ⟨hl, hscan⟩ := hsteady.entries henum
  have hlisting := @exists_listing _ f ok @hscan hl (by omega) calls hsize
  rwa [hpos, List.drop_zero] at hlisting

/-- A directory with `.` and `..`, just opened. -/
def dotsFile : FsFile := { FsInode.dotsDir 4096 with fPos := 0 }

theorem getdents_listing_dots : ∃ n ret out,
    Listing (fun _ ↦ (Buf.zero, 16)) dotsFile n ret out 0 [(2, [46]), (2, [46, 46])] :=
  @getdents_listing [([46], 2), ([46, 46], 2)] dotsFile true (FsInode.steady_of_quiet rfl rfl) rfl
    (by decide +kernel) _ fun _ ↦ ⟨by decide, by decide, by decide⟩

/-- What the calls return determines the listing. -/
theorem Listing.eq {calls : ℕ → Buf × ℕ} {n n' : ℕ} {ret ret' : ℕ → ℤ} {out out' : ℕ → Buf} {last last' : ℤ}
    {l l' : List (ℕ × List Byte)} (h : Listing calls f n ret out last l)
    (h' : Listing calls f n' ret' out' last' l') (hlast : last ≤ 0) (hlast' : last' ≤ 0) :
    last = last' ∧ l = l' := by
  have hsame : ∀ k, k ≤ n → k ≤ n' → ret k = ret' k ∧ out k = out' k := by
    intro k hk hk'
    have := (h.returns k hk).symm.trans (h'.returns k hk')
    exact Prod.mk.inj (Option.some.inj this)
  have hn : n = n' := by
    rcases Nat.lt_trichotomy n n' with hlt | heq | hgt
    · have hpos := h'.positive n hlt
      have := h.ended
      rw [(hsame n le_rfl hlt.le).1] at this
      omega
    · exact heq
    · have hpos := h.positive n' hgt
      have := h'.ended
      rw [← (hsame n' hgt.le le_rfl).1] at this
      omega
  subst hn
  refine ⟨by rw [← h.ended, ← h'.ended, (hsame n le_rfl le_rfl).1], ?_⟩
  rw [← h.decoded, ← h'.decoded]
  refine List.flatMap_congr fun k hk ↦ ?_
  have hk := List.mem_range.1 hk
  rw [(hsame k hk.le hk.le).1, (hsame k hk.le hk.le).2]

/-- A directory with a name that has a NUL, before a record of length 0. -/
def oddFile : FsFile :=
  let dir := FsInode.dotsDir 4096
  { fs := dir.fs.put 9 (putEntry Buf.zero 0 2 12 2 [97, 0, 98]), inode := dir.inode, fPos := 0 }

/-- The name is listed up to its NUL, and the last call returns -1. -/
theorem not_getdents_listing_odd :
    (¬ ∀ (f : FsFile) (ok : Bool) (l : List (List Byte × ℕ)) (calls : ℕ → Buf × ℕ), f.toFsInode.Steady →
      f.fPos = 0 → (FsInode.ext4DirForeach FsInode.collect [] f.toFsInode).1 = some (ok, l) →
        (∀ k, SizeFor l (calls k).2) →
          ∃ n ret out, Listing calls f n ret out (if ok then 0 else -1) (l.map fun e ↦ (e.2, e.1))) ∧
    ¬ ∀ (f : FsFile) (ok : Bool) (l : List (List Byte × ℕ)) (calls : ℕ → Buf × ℕ), f.toFsInode.Steady →
      f.fPos = 0 → (FsInode.ext4DirForeach FsInode.collect [] f.toFsInode).1 = some (ok, l) →
        (∀ k, SizeFor l (calls k).2) → ∃ n ret out, Listing calls f n ret out 0 (l.map listed) := by
  have hsteady : oddFile.toFsInode.Steady := FsInode.steady_of_quiet rfl rfl
  have henum : (FsInode.ext4DirForeach FsInode.collect [] oddFile.toFsInode).1 =
      some (false, [([97, 0, 98], 2)]) := by decide +kernel
  have hfor : SizeFor [([97, 0, 98], 2)] 16 := ⟨by decide, by decide, by decide⟩
  have hsize : ∀ k : ℕ, SizeFor [([97, 0, 98], 2)] ((fun _ ↦ (Buf.zero, 16) : ℕ → Buf × ℕ) k).2 := fun _ ↦ hfor
  obtain ⟨hl, hscan⟩ := hsteady.entries henum
  obtain ⟨n, ret, out, hlisting⟩ := @exists_listing _ oddFile false @hscan hl (Nat.zero_le _) _ hsize
  constructor
  · intro hall
    obtain ⟨n', ret', out', hclaim⟩ := hall oddFile false _ _ hsteady rfl henum hsize
    exact absurd (hlisting.eq hclaim (by decide) (by decide)).2 (by decide)
  · intro hall
    obtain ⟨n', ret', out', hclaim⟩ := hall oddFile false _ _ hsteady rfl henum hsize
    exact absurd (hlisting.eq hclaim (by decide) le_rfl).1 (by decide)

end MiniExt4
