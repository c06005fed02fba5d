import MiniExt4.Machine.Cursor
import MiniExt4.Vfs.Getdents

/-!
# Removing entries while a directory is listed

The position of an open directory is a number of entries, and `ext4_remove_entry` takes an entry out of
the scan that the position counts in. The calls of `vfs_getdents` and the removals of names that were
listed are the operations of a `Cursor` on the list of entries, so that an entry is passed over exactly
where a name is removed while there is still an entry to list (`listsOnce_iff`).

The connection is `IsCursor`: the list of the cursor is that of the entries on the disk, its position that
of the open file, and what was taken out is what the caller has seen. Each of the two calls is one operation
of the cursor under it, and everything that is said of the runs is proved there, about lists.
-/

namespace MiniExt4

open StateErr Dirent
open Buf (ChainView)

namespace FsInode

variable {s : FsInode} {b n : ℕ} {blocks : List ℕ} {dir pre post : List (ℕ × List Dirent)} {name : List Byte}
  {ino : ℕ}

/-! ### Directories that can be listed -/

/-- The state with other contents in some blocks. -/
def puts (s : FsInode) : List (ℕ × Buf) → FsInode
  | [] => s
  | e :: l => puts { s with fs := s.fs.put e.1 e.2 } l

/-- The blocks of a directory, in order. Whatever is in them, they can be found, read and written. -/
structure Holds (s : FsInode) (blocks : List ℕ) : Prop where
  fits : s.fs.blockSize ≤ blockSizeDefault
  nodup : blocks.Nodup
  mapped : ∀ l, (∀ e ∈ l, e.1 ∈ blocks) → DirMapped (s.puts l) blocks
  writable : ∀ l, (∀ e ∈ l, e.1 ∈ blocks) → ∀ b ∈ blocks, ∀ buf,
    onFs (Fs.writeBlock b buf) (s.puts l) = (some (), { s.puts l with fs := (s.puts l).fs.put b buf })

theorem Holds.dirMapped (h : Holds s blocks) : DirMapped s blocks := h.mapped [] (by simp)

theorem Holds.writeBlock (h : Holds s blocks) (hb : b ∈ blocks) (buf : Buf) :
    onFs (Fs.writeBlock b buf) s = (some (), { s with fs := s.fs.put b buf }) := h.writable [] (by simp) b hb buf

theorem Holds.put (h : Holds s blocks) (hb : b ∈ blocks) (buf : Buf) :
    Holds { s with fs := s.fs.put b buf } blocks where
  fits := h.fits
  nodup := h.nodup
  mapped l hl := h.mapped ((b, buf) :: l) (List.forall_mem_cons.2 ⟨hb, hl⟩)
  writable l hl := h.writable ((b, buf) :: l) (List.forall_mem_cons.2 ⟨hb, hl⟩)

theorem puts_dirWord (l : List (ℕ × Buf)) (hl : ∀ e ∈ l, e.1 ≠ s.inode.word 12) :
    (s.puts l).inode = s.inode ∧ (s.puts l).fs.blockSize = s.fs.blockSize ∧
      (s.fs.Usable n → (s.puts l).fs.Usable n) ∧ ∀ i, (s.puts l).dirWord i = s.dirWord i := by
  induction l generalizing s with
  | nil => exact ⟨rfl, rfl, id, fun _ ↦ rfl⟩
  | cons e l ih =>
    obtain ⟨hne, hl⟩ := List.forall_mem_cons.1 hl
    obtain ⟨hinode, hbs, husable, hword⟩ := @ih { s with fs := s.fs.put e.1 e.2 } hl
    refine ⟨hinode, hbs, fun h ↦ husable (h.put e.1 e.2), fun i ↦ (hword i).trans ?_⟩
    unfold dirWord
    simp only [Fs.put_blockSize, Fs.block_put_of_ne _ _ hne.symm]

/-- The blocks of a directory that is mapped by pointers. -/
theorem holds_of_pointers (husable : s.fs.Usable n) (hext : s.inode.hasExtents = false)
    (hfits : s.fs.blockSize ≤ blockSizeDefault) (hdvd : 4 ∣ s.fs.blockSize) (hnodup : blocks.Nodup)
    (hind : s.inode.word 12 < n ∧ s.inode.word 12 ∉ blocks)
    (hmapped : ∀ i (h : i < blocks.length), s.dirWord i = blocks[i]) (hended : s.dirWord blocks.length = 0)
    (hused : ∀ b ∈ blocks, b ≠ 0 ∧ b < n) (hlt : blocks.length < 2 ^ 32) : Holds s blocks := by
  have hputs : ∀ l : List (ℕ × Buf), (∀ e ∈ l, e.1 ∈ blocks) → (s.puts l).inode = s.inode ∧
      (s.puts l).fs.blockSize = s.fs.blockSize ∧ (s.fs.Usable n → (s.puts l).fs.Usable n) ∧
        ∀ i, (s.puts l).dirWord i = s.dirWord i :=
    fun l hl ↦ puts_dirWord l fun e he heq ↦ hind.2 (heq ▸ hl e he)
  refine ⟨hfits, hnodup, fun l hl ↦ ?_, fun l hl b hb buf ↦ ?_⟩
  · obtain ⟨hinode, hbs, husable', hword⟩ := hputs l hl
    have hget : ∀ i, ext4DirGetBlocknr i (s.puts l) =
        (if s.dirWord i = 0 then none else some (s.dirWord i), s.puts l) := by
      intro i
      rw [getBlocknr_eq (husable' husable) (by rw [hinode]; exact hext) (fun _ ↦ by rw [hinode]; exact hind.1)
        (fun _ ↦ by rw [hbs]; exact hdvd) (by rw [hbs]; exact hfits), hword]
    refine ⟨fun i hi ↦ ?_, ?_, fun b hb ↦ ?_, hlt⟩
    · rw [hget, hmapped i hi, if_neg (hused _ (List.getElem_mem hi)).1]
    · rw [hget, hended, if_pos rfl]
    · rw [onFs, zoom_apply, (husable' husable).readBlock (hused b hb).2]
  · rw [onFs, zoom_apply, ((hputs l hl).2.2.1 husable).writeBlock (hused b hb).2]

/-- A directory, linear or with an index, whose blocks hold chains of records. No two names are the same
up to a NUL. -/
structure Listable (s : FsInode) (dir : List (ℕ × List Dirent)) : Prop where
  holds : Holds s (dir.map Prod.fst)
  tiles : ∀ e ∈ dir, Tiles (s.fs.block e.1) s.fs.blockSize e.2
  strings : ((entries dir).map fun e ↦ (listed e).2).Nodup

theorem Listable.names (h : Listable s dir) : ((entries dir).map Prod.fst).Nodup := by
  have hmap : (entries dir).map (fun e ↦ (listed e).2) =
      ((entries dir).map Prod.fst).map fun name ↦ name.takeWhile (· ≠ 0) := by
    rw [List.map_map]
    rfl
  exact List.Nodup.of_map _ (hmap ▸ h.strings)

theorem Listable.entries_nodup (h : Listable s dir) : (entries dir).Nodup := List.Nodup.of_map _ h.names

/-- The scan offers the entries. -/
theorem Listable.scans (h : Listable s dir) : Scans s true (entries dir) := by
  intro σ filldir ctx
  have hmapped := h.holds.dirMapped
  have hlt := hmapped.lt
  rw [List.length_map] at hlt
  rw [ext4DirForeach, attempt_bind, onFs_mallocBlock h.holds.fits, scanResult, Bool.or_true]
  exact @foreachBlocks_eq (2 ^ 32) s _ filldir ctx [] dir hmapped h.tiles hlt

theorem Listable.offered (h : Listable s dir) : ∀ e ∈ entries dir, Offered e := by
  intro a ha
  obtain ⟨e, he, hlive⟩ := List.mem_flatMap.1 ha
  obtain ⟨r, hr, hpair⟩ := List.mem_filterMap.1 hlive
  obtain ⟨pre, post, hsplit⟩ := List.append_of_mem hr
  have hchain := h.tiles e he
  rw [hsplit] at hchain
  obtain ⟨-, hread, -, -⟩ := ChainView.chain_append.1 hchain
  rw [view_read] at hread
  have hlen := nameLen_lt (s.fs.block e.1) (0 + view.total pre)
  have hino : (Dirent.read (s.fs.block e.1) (0 + view.total pre)).inode < 2 ^ 32 := Buf.getField_lt ..
  rw [hread] at hlen hino
  unfold pair at hpair
  split at hpair
  · simp at hpair
  · obtain rfl := Option.some.inj hpair
    exact ⟨hlen, hino⟩

/-- The name of an entry is not empty. -/
theorem Listable.name_pos (h : Listable s dir) (hmem : (name, ino) ∈ entries dir) : 0 < name.length := by
  obtain ⟨e, he, hlive⟩ := List.mem_flatMap.1 hmem
  obtain ⟨r, hr, hnamed, -⟩ := mem_live.1 hlive
  obtain ⟨hino, rfl⟩ : r.inode ≠ 0 ∧ r.name = name := by simpa [named] using hnamed
  obtain ⟨pre, post, hsplit⟩ := List.append_of_mem hr
  have hchain := h.tiles e he
  rw [hsplit] at hchain
  obtain ⟨-, -, hok, -⟩ := ChainView.chain_append.1 hchain
  exact List.length_pos_of_ne_nil (hok.named hino)

theorem Listable.removeInBlock_none (h : Listable s dir) {e : ℕ × List Dirent} (he : e ∈ dir)
    (hfree : ∀ r ∈ e.2, named name r = false) :
    removeInBlock s.fs.blockSize name e.1 (s.fs.block e.1) s = (some none, s) := by
  rw [removeInBlock, removeLoop_none (h.tiles e he) (by omega) hfree]
  rfl

/-- A name that is not there is not removed. -/
theorem Listable.removeEntry_none (h : Listable s dir) (hnot : ∀ ino, (name, ino) ∉ entries dir) :
    (ext4RemoveEntry name s).2 = s := by
  have hfree : ∀ e ∈ dir, ∀ r ∈ e.2, named name r = false := by
    intro e he r hr
    by_contra hc
    exact hnot r.inode (List.mem_flatMap.2 ⟨e, he, mem_live.2 ⟨r, hr, by simpa using hc, rfl⟩⟩)
  unfold ext4RemoveEntry
  by_cases hlen : name.length ≠ 0
  swap
  · rw [guard_false hlen]
    rfl
  rw [guard_true hlen, pure_bind', bind_of_eq_some (onFs_mallocBlock h.holds.fits), get_bind,
    bind_of_eq_some (h.holds.dirMapped.scan_none fun e he ↦ h.removeInBlock_none he (hfree e he))]
  rfl

/-- A removal takes one entry out of the list. -/
theorem Listable.removeEntry (h : Listable s dir) (hmem : (name, ino) ∈ entries dir) :
    ∃ s' dir', ext4RemoveEntry name s = (some (), s') ∧ Listable s' dir' ∧
      entries dir' = (entries dir).erase (name, ino) := by
  have hmapped := h.holds.dirMapped
  have hlen := h.name_pos hmem
  have hlt : s.fs.blockSize < 2 ^ 16 := by
    have := h.holds.fits
    have : blockSizeDefault = 4096 := rfl
    omega
  have hex : ∃ e ∈ dir, ∃ r ∈ e.2, named name r := by
    obtain ⟨e, he, hlive⟩ := List.mem_flatMap.1 hmem
    obtain ⟨r, hr, hnamed, -⟩ := mem_live.1 hlive
    exact ⟨e, he, r, hr, hnamed⟩
  obtain ⟨pre, ⟨b, l⟩, post, rfl, hl, hpre⟩ := exists_first hex
  obtain ⟨lpre, r, lpost, rfl, hr, hlpre⟩ := exists_first hl
  have hchain := h.tiles (b, lpre ++ r :: lpost) (by simp)
  have hlive : r.inode ≠ 0 ∧ r.name = name := by simpa [named] using hr
  obtain ⟨l', hchain', hlive'⟩ := removePlaced_chain hchain hlt
  -- the entry that goes is the one with the name
  have hsplit : entries (pre ++ (b, lpre ++ r :: lpost) :: post) =
      (entries pre ++ live lpre) ++ (name, r.inode) :: (live lpost ++ entries post) := by
    rw [entries_middle, live_append, live_cons, if_neg hlive.1, hlive.2]
    simp only [List.append_assoc, List.cons_append]
  have hafter : entries (pre ++ (b, l') :: post) =
      (entries pre ++ live lpre) ++ (live lpost ++ entries post) := by
    rw [entries_middle, hlive', live_append]
    simp only [List.append_assoc]
  have hnotpre : ∀ i, (name, i) ∉ entries pre ++ live lpre := by
    intro i hi
    rcases List.mem_append.1 hi with hi | hi
    · obtain ⟨e, he, hlive⟩ := List.mem_flatMap.1 hi
      obtain ⟨q, hq, hnamed, -⟩ := mem_live.1 hlive
      exact hpre e he ⟨q, hq, hnamed⟩
    · obtain ⟨q, hq, hnamed, -⟩ := mem_live.1 hi
      exact hlpre q hq hnamed
  have hino : ino = r.inode := by
    have hnames := h.names
    rw [hsplit, List.map_append, List.map_cons] at hnames
    have hfree := (List.nodup_cons.1 (List.nodup_middle.1 hnames)).1
    rw [hsplit] at hmem
    rcases List.mem_append.1 hmem with hi | hi
    · exact absurd hi (hnotpre ino)
    · rcases List.mem_cons.1 hi with heq | hi
      · exact (Prod.mk.inj heq).2
      · exact absurd (List.mem_append_right _ (List.mem_map_of_mem (f := Prod.fst) hi)) hfree
  have herase : entries (pre ++ (b, l') :: post) =
      (entries (pre ++ (b, lpre ++ r :: lpost) :: post)).erase (name, ino) := by
    rw [hafter, hsplit, hino, List.erase_append_right _ (hnotpre _), List.erase_cons_head]
  have hblocks : (pre ++ (b, l') :: post).map Prod.fst = (pre ++ (b, lpre ++ r :: lpost) :: post).map Prod.fst := by
    simp
  have hb : b ∈ (pre ++ (b, lpre ++ r :: lpost) :: post).map Prod.fst := by simp
  refine ⟨{ s with fs := s.fs.put b (removePlaced (s.fs.block b) (view.total lpre) (lastOff 0 none lpre) r) },
    pre ++ (b, l') :: post, ?_, ⟨hblocks ▸ h.holds.put hb _, ?_, ?_⟩, herase⟩
  · unfold ext4RemoveEntry
    rw [guard_true hlen.ne', pure_bind', bind_of_eq_some (onFs_mallocBlock h.holds.fits), get_bind]
    have hfound : removeInBlock s.fs.blockSize name b (s.fs.block b) s = (some (some ()), { s with
        fs := s.fs.put b (removePlaced (s.fs.block b) (view.total lpre) (lastOff 0 none lpre) r) }) := by
      rw [removeInBlock, removeLoop_some hchain (by omega) (fun q hq ↦ by simpa using hlpre q hq) hr, Nat.zero_add,
        ofOption_some, pure_bind']
      exact bind_of_eq_some (h.holds.writeBlock hb _)
    rw [bind_of_eq_some (hmapped.scan_some (fun e he ↦ ?_) hfound)]
    · rfl
    · exact h.removeInBlock_none (by simp [he]) fun q hq ↦ by
        by_contra hc
        exact hpre e he ⟨q, hq, by simpa using hc⟩
  · -- the other blocks are not touched
    intro e he
    have hnodup := h.holds.nodup
    rw [List.map_append, List.map_cons] at hnodup
    have hmid := (List.nodup_cons.1 (List.nodup_middle.1 hnodup)).1
    rw [← List.map_append] at hmid
    have hmem' : e = (b, l') ∨ e ∈ pre ++ post := by
      simp only [List.mem_append, List.mem_cons] at he ⊢
      tauto
    rcases hmem' with rfl | he
    · rw [Fs.block_put_self]
      exact hchain'.congr fun i _ hlt ↦ Buf.clip_of_lt _ hlt
    · have hne : e.1 ≠ b := fun heq ↦ hmid (List.mem_map.2 ⟨e, he, heq⟩)
      rw [Fs.block_put_of_ne _ _ hne]
      exact h.tiles e (by simp only [List.mem_append, List.mem_cons] at he ⊢; tauto)
  · rw [herase]
    exact h.strings.sublist (List.erase_sublist.map _)

end FsInode

/-! ### Listing and removing -/

/-- An open directory, and what was listed of it. -/
structure Lister where
  file : FsFile
  out : List (ℕ × List Byte)

/-- A call of `vfs_getdents` with a buffer, or of `ext4_remove_entry`. -/
inductive ListOp where
  | getdents (stale : Buf) (count : ℕ)
  | remove (name : List Byte)

namespace Lister

open FsInode

variable {f : FsFile} {t : Lister} {op : ListOp} {l : List (List Byte × ℕ)} {dir : List (ℕ × List Dirent)}
  {c : Cursor (List Byte × ℕ)}

/-- What `cmd_ls` lists after a call of `vfs_getdents`. -/
def lsCall : Option (ℤ × Buf) → List (ℕ × List Byte)
  | none => []
  | some (nread, buf) => (cmdLs buf nread).map fun d ↦ (d.2.ino, d.2.name)

/-- What a call does. -/
def step (t : Lister) : ListOp → Lister
  | .getdents stale count =>
    let r := t.file.vfsGetdents stale count
    ⟨r.2, t.out ++ lsCall r.1⟩
  | .remove name => ⟨(FsFile.onInode (ext4RemoveEntry name) t.file).2, t.out⟩

/-- The entries that `ext4_dir_foreach` offers. -/
def entries (t : Lister) : List (List Byte × ℕ) :=
  ((ext4DirForeach collect [] t.file.toFsInode).1.map Prod.snd).getD []

/-- A buffer takes any record, and a name that is removed was listed. -/
def Legal (l : List (List Byte × ℕ)) (t : Lister) : ListOp → Prop
  | .getdents _ count => SizeFor l count
  | .remove name => name ∈ t.out.map Prod.snd

/-- No entry is removed while there is one behind the position. -/
def NothingAhead (t : Lister) : ListOp → Prop
  | .getdents _ _ => True
  | .remove name => (∃ ino, (name, ino) ∈ t.entries) → t.entries.length ≤ t.file.fPos

/-- The next call returns 0. -/
def Ended (l : List (List Byte × ℕ)) (t : Lister) : Prop :=
  ∃ stale count buf, SizeFor l count ∧ (t.file.vfsGetdents stale count).1 = some (0, buf)

/-- Of the entries of the list, each one that is there at the end was listed exactly once. -/
def ListsOnce (l : List (List Byte × ℕ)) (t : Lister) : Prop :=
  ∀ e ∈ l, e ∈ t.entries → t.out.count (listed e) = 1

/-! ### A cursor in the list of entries -/

/-- The open directory is a cursor in the list of its entries, which are some of those of `l`. -/
structure IsCursor (l : List (List Byte × ℕ)) (t : Lister) (c : Cursor (List Byte × ℕ)) : Prop where
  directory : ∃ dir, Listable t.file.toFsInode dir ∧ FsInode.entries dir = c.live
  pos : t.file.fPos = c.pos
  out : t.out = c.out.map listed
  live_sub : List.Sublist c.live l
  out_sub : ∀ e ∈ c.out, e ∈ l

theorem IsCursor.entries_eq (h : IsCursor l t c) : t.entries = c.live := by
  obtain ⟨dir, hdir, hlive⟩ := h.directory
  rw [entries, hdir.scans, fillAll_collect, List.nil_append, hlive]
  rfl

theorem SizeFor.sublist {l' : List (List Byte × ℕ)} {count : ℕ} (h : SizeFor l count) (hsub : List.Sublist l' l) :
    SizeFor l' count where
  lt := h.lt
  record e he := h.record e (hsub.subset he)
  int := by
    have hint := h.int
    have hle : ldBytes l' ≤ ldBytes l := (hsub.map _).sum_le_sum (fun _ _ ↦ Nat.zero_le _)
    omega

/-- What a call of `vfs_getdents` does to the cursor. -/
theorem IsCursor.getdents (h : IsCursor l t c) {count : ℕ} (hsize : SizeFor l count) (stale : Buf) :
    ∃ n ret buf, t.file.vfsGetdents stale count = (some (ret, buf), (t.step (.getdents stale count)).file) ∧
      IsCursor l (t.step (.getdents stale count)) (c.step (.fetch n)) ∧ (ret = 0 → c.live.length ≤ c.pos) := by
  obtain ⟨dir, hdir, hlive⟩ := h.directory
  have hscan := @Listable.scans _ _ hdir
  rw [hlive] at hscan
  have hoffered := hdir.offered
  rw [hlive] at hoffered
  obtain ⟨pre, post, buf, hdrop, hpost, hcall, hchain⟩ :=
    exists_vfsGetdents hscan hoffered (SizeFor.sublist hsize h.live_sub) stale
  have htake : (c.live.drop c.pos).take pre.length = pre := by
    rw [← h.pos, hdrop, List.take_left]
  -- a record of the buffer becomes a line of the output
  have hnext : t.step (.getdents stale count) = ⟨{ t.file with fPos := min t.file.fPos c.live.length + pre.length },
      t.out ++ pre.map listed⟩ := by
    rw [step, hcall]
    dsimp only
    congr 2
    by_cases hpre : pre = []
    · rw [if_pos hpre, hpre]
      rfl
    · rw [if_neg hpre, lsCall, cmdLs, Int.toNat_natCast, lsLoop_eq hchain (by omega)]
      have hmap : (placed 0 (pre.map toLinuxDirent)).map (fun d ↦ (d.2.ino, d.2.name)) =
          ((placed 0 (pre.map toLinuxDirent)).map Prod.snd).map fun d ↦ (d.ino, d.name) := by
        rw [List.map_map]
        rfl
      rw [hmap, map_snd_placed, List.map_map]
      rfl
  refine ⟨pre.length, _, buf, by rw [hnext]; exact hcall, ?_, fun hzero ↦ ?_⟩
  · rw [hnext]
    refine ⟨⟨dir, hdir, hlive⟩, ?_, ?_, h.live_sub, fun e he ↦ ?_⟩
    · rw [Cursor.step_fetch_pos, htake, ← h.pos]
    · change t.out ++ pre.map listed = (c.out ++ _).map listed
      rw [htake, List.map_append, h.out]
    · change e ∈ c.out ++ _ at he
      rcases List.mem_append.1 he with he | he
      · exact h.out_sub e he
      · exact h.live_sub.subset (List.mem_of_mem_drop (List.mem_of_mem_take he))
  · by_cases hpre : pre = []
    · rw [hpre, hpost hpre, List.append_nil, List.drop_eq_nil_iff, h.pos] at hdrop
      exact hdrop
    · rw [if_neg hpre] at hzero
      have := ldBytes_pos hpre
      omega

/-- What a removal does to the cursor. -/
theorem IsCursor.remove (h : IsCursor l t c) (hstrings : (l.map fun e ↦ (listed e).2).Nodup) {name : List Byte}
    (hname : name ∈ t.out.map Prod.snd) : ∃ e, IsCursor l (t.step (.remove name)) (c.step (.remove e)) ∧
      c.Legal (.remove e) ∧ (t.NothingAhead (.remove name) ↔ c.NothingAhead (.remove e)) := by
  obtain ⟨dir, hdir, hlive⟩ := h.directory
  have hentries := h.entries_eq
  by_cases hmem : ∃ ino, (name, ino) ∈ c.live
  · obtain ⟨ino, hmem⟩ := hmem
    obtain ⟨s', dir', hcall, hdir', herase⟩ := hdir.removeEntry (hlive ▸ hmem)
    have hfile : (t.step (.remove name)).file = { t.file with toFsInode := s' } := by
      simp only [step, FsFile.onInode, zoom_apply, hcall]
    refine ⟨(name, ino), ⟨⟨dir', by rwa [hfile], by rw [herase, hlive]; rfl⟩, ?_, h.out, ?_, h.out_sub⟩,
      fun _ ↦ ?_, ?_⟩
    · rw [hfile]
      exact h.pos
    · exact List.erase_sublist.trans h.live_sub
    · -- the entry with the name is the one that was listed
      obtain ⟨a, ha, hcut⟩ := List.mem_map.1 hname
      rw [h.out] at ha
      obtain ⟨e, he, rfl⟩ := List.mem_map.1 ha
      have hsame : (listed e).2 = (listed (name, ino)).2 := by
        rw [hcut]
        have hnul : ∀ x ∈ name, decide (x ≠ 0) = true := by
          rw [← hcut]
          exact fun x hx ↦ @List.mem_takeWhile_imp _ (fun x : Byte ↦ decide (x ≠ 0)) _ _ hx
        exact (List.takeWhile_eq_self_iff.2 hnul).symm
      rwa [List.inj_on_of_nodup_map hstrings (h.out_sub e he) (h.live_sub.subset hmem) hsame] at he
    · simp only [NothingAhead, Cursor.NothingAhead, hentries, h.pos]
      exact ⟨fun hc _ ↦ hc ⟨ino, hmem⟩, fun hc _ ↦ hc hmem⟩
  · have hnot : (name, 0) ∉ c.live := fun hc ↦ hmem ⟨0, hc⟩
    have hsame : t.step (.remove name) = t := by
      simp only [step, FsFile.onInode, zoom_apply, hdir.removeEntry_none fun ino hi ↦ hmem ⟨ino, hlive ▸ hi⟩]
    have hcursor : c.step (.remove (name, 0)) = c := by
      rw [Cursor.step, List.erase_of_not_mem hnot]
    refine ⟨(name, 0), by rwa [hsame, hcursor], fun hc ↦ absurd hc hnot, ?_⟩
    simp only [NothingAhead, Cursor.NothingAhead, hentries]
    exact iff_of_true (fun hc ↦ absurd hc hmem) fun hc ↦ absurd hc hnot

/-- A run is a run of the cursor. -/
theorem IsCursor.run (h : IsCursor l t c) (hstrings : (l.map fun e ↦ (listed e).2).Nodup) {ops : List ListOp}
    (hops : Calls.Along step (Legal l) ops t) : ∃ cops : List (Cursor.Op (List Byte × ℕ)),
      IsCursor l (ops.foldl step t) (cops.foldl Cursor.step c) ∧ Calls.Along Cursor.step Cursor.Legal cops c ∧
        (Calls.Along step NothingAhead ops t ↔ Calls.Along Cursor.step Cursor.NothingAhead cops c) := by
  induction ops generalizing t c with
  | nil => exact ⟨[], h, trivial, Iff.rfl⟩
  | cons op ops ih =>
    obtain ⟨hop, hops⟩ := hops
    obtain ⟨cop, hstep, hlegal, hahead⟩ : ∃ cop, IsCursor l (t.step op) (c.step cop) ∧ c.Legal cop ∧
        (t.NothingAhead op ↔ c.NothingAhead cop) := by
      cases op with
      | getdents stale count =>
        obtain ⟨n, -, -, -, hstep, -⟩ := h.getdents hop stale
        exact ⟨.fetch n, hstep, trivial, Iff.rfl⟩
      | remove name =>
        obtain ⟨e, hstep, hlegal, hahead⟩ := h.remove hstrings hop
        exact ⟨.remove e, hstep, hlegal, hahead⟩
    obtain ⟨cops, hrun, hlegals, haheads⟩ := ih hstep hops
    exact ⟨cop :: cops, hrun, ⟨hlegal, hlegals⟩, and_congr hahead haheads⟩

/-- **Every entry that stays is listed exactly once if and only if no name is removed while there is still
an entry to list.** -/
theorem listsOnce_iff (h : Listable f.toFsInode dir) (hpos : f.fPos = 0) {ops : List ListOp}
    (hops : Calls.Along step (Legal (FsInode.entries dir)) ops ⟨f, []⟩)
    (hended : Ended (FsInode.entries dir) (ops.foldl step ⟨f, []⟩)) :
    ListsOnce (FsInode.entries dir) (ops.foldl step ⟨f, []⟩) ↔ Calls.Along step NothingAhead ops ⟨f, []⟩ := by
  have hstart : IsCursor (FsInode.entries dir) ⟨f, []⟩ ⟨FsInode.entries dir, 0, []⟩ :=
    ⟨⟨dir, h, rfl⟩, hpos, rfl, List.Sublist.refl _, by simp⟩
  obtain ⟨cops, hrun, hlegal, hahead⟩ := hstart.run h.strings hops
  obtain ⟨stale, count, buf, hsize, hzero⟩ := hended
  obtain ⟨n, ret, buf', hcall, -, hend⟩ := hrun.getdents hsize stale
  have hlast := hend (by
    rw [hcall] at hzero
    exact (Prod.mk.inj (Option.some.inj hzero)).1)
  rw [hahead]
  have hinj : ∀ e ∈ FsInode.entries dir, ∀ e' ∈ FsInode.entries dir, listed e = listed e' → e = e' :=
    fun e he e' he' heq ↦ List.inj_on_of_nodup_map h.strings he he' (congrArg Prod.snd heq)
  rcases Cursor.takesAll_or_skips (Cursor.inStep_start h.entries_nodup) hlegal with ⟨hsafe, hin⟩ | ⟨hpassed, hskips⟩
  · refine iff_of_true (fun e he hlive ↦ ?_) hsafe
    rw [hrun.entries_eq] at hlive
    rw [hrun.out]
    exact List.count_eq_one_of_mem
      (hin.out_nodup.map_on fun a ha b hb ↦ hinj a (hrun.out_sub a ha) b (hrun.out_sub b hb))
      (List.mem_map_of_mem (hin.all_taken hlast hlive))
  · refine iff_of_false (fun hall ↦ ?_) hpassed
    obtain ⟨e, he, hout⟩ := hskips.skipped
    have hlive := List.mem_of_mem_take he
    have hmem := hrun.live_sub.subset hlive
    have hcount := hall e hmem (hrun.entries_eq ▸ hlive)
    have hpos : 0 < (ops.foldl step ⟨f, []⟩).out.count (listed e) := by omega
    rw [hrun.out, List.count_pos_iff, List.mem_map] at hpos
    obtain ⟨e', he', heq⟩ := hpos
    exact hout (hinj e' (hrun.out_sub e' he') e hmem heq ▸ he')

/-- The block of a directory with the names a, b and c. -/
def abcBlock : Buf :=
  putEntry (putEntry (putEntry (putEntry (putEntry Buf.zero 0 2 12 2 [46]) 12 2 12 2 [46, 46])
    24 12 12 1 [97]) 36 13 12 1 [98]) 48 14 4048 1 [99]

/-- This directory, just opened. -/
def abcFile : FsFile := { fs := (dotsDir 4096).fs.put 9 abcBlock, inode := (dotsDir 4096).inode, fPos := 0 }

/-- Its entries. -/
def abcDir : List (ℕ × List Dirent) :=
  [(9, [⟨2, 12, [46]⟩, ⟨2, 12, [46, 46]⟩, ⟨12, 12, [97]⟩, ⟨13, 12, [98]⟩, ⟨14, 4048, [99]⟩])]

theorem abcFile_listable : Listable abcFile.toFsInode abcDir where
  holds := @holds_of_pointers _ 16 [9] ⟨rfl, by decide, by decide, by decide, by decide⟩ rfl (by decide) (by decide)
    (by decide) (by decide) (by decide) (by decide) (by decide) (by decide)
  tiles := by decide +kernel
  strings := by decide

theorem abc_sizeFor : SizeFor (FsInode.entries abcDir) 48 := ⟨by decide, by decide, by decide⟩

theorem listsOnce_iff_abc : ListsOnce (FsInode.entries abcDir)
    ([.getdents Buf.zero 48, .getdents Buf.zero 48, .remove [97]].foldl step ⟨abcFile, []⟩) := by
  have hzero : (([ListOp.getdents Buf.zero 48, .getdents Buf.zero 48, .remove [97]].foldl step
      ⟨abcFile, []⟩).file.vfsGetdents Buf.zero 48).1.map Prod.fst = some 0 := by decide +kernel
  obtain ⟨⟨_, buf⟩, hcall, rfl⟩ := Option.map_eq_some_iff.1 hzero
  exact (@listsOnce_iff abcFile abcDir abcFile_listable rfl
    [.getdents Buf.zero 48, .getdents Buf.zero 48, .remove [97]]
    ⟨abc_sizeFor, abc_sizeFor, by unfold Legal; decide +kernel, trivial⟩
    ⟨Buf.zero, 48, buf, abc_sizeFor, hcall⟩).2 ⟨trivial, trivial, fun _ ↦ by decide +kernel, trivial⟩

/-- The first call lists a, a is removed, and the second call lists c: b is not listed. -/
theorem not_listsOnce_abc : ¬ ∀ (f : FsFile) (dir : List (ℕ × List Dirent)) (ops : List ListOp),
    Listable f.toFsInode dir → f.fPos = 0 → Calls.Along step (Legal (FsInode.entries dir)) ops ⟨f, []⟩ →
      Ended (FsInode.entries dir) (ops.foldl step ⟨f, []⟩) →
        ListsOnce (FsInode.entries dir) (ops.foldl step ⟨f, []⟩) := by
  intro hall
  have hzero : (([ListOp.getdents Buf.zero 48, .remove [97], .getdents Buf.zero 48].foldl step
      ⟨abcFile, []⟩).file.vfsGetdents Buf.zero 48).1.map Prod.fst = some 0 := by decide +kernel
  obtain ⟨⟨_, buf⟩, hcall, rfl⟩ := Option.map_eq_some_iff.1 hzero
  have honce :=
    hall abcFile abcDir [.getdents Buf.zero 48, .remove [97], .getdents Buf.zero 48] abcFile_listable rfl
    ⟨abc_sizeFor, by unfold Legal; decide +kernel, abc_sizeFor, trivial⟩ ⟨Buf.zero, 48, buf, abc_sizeFor, hcall⟩
  have hcount := honce ([98], 13) (by decide) (by decide +kernel)
  exact absurd hcount (by decide +kernel)

end Lister

end MiniExt4
