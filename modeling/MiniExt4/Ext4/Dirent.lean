import MiniExt4.Machine.Chain
import MiniExt4.Ext4.Layout

/-!
# Directory entries (`struct ext4_dir_entry`)

A block of a directory is a chain of entries, each as long as its `rec_len` says. An entry with inode
number 0 is dead: its name does not count, and the space is there to be used again.
-/

namespace MiniExt4

open Buf (Field ChainView)

/-- The size of a record is that of its header and name, rounded up to four. -/
theorem ext4DirRecLen_bounds (n : ℕ) :
    n + 8 ≤ ext4DirRecLen n ∧ ext4DirRecLen n ≤ n + 11 ∧ 4 ∣ ext4DirRecLen n := by
  refine ⟨?_, ?_, Nat.dvd_mul_left 4 _⟩ <;> unfold ext4DirRecLen <;> omega

/-- The `n` bytes of the name of the entry at `o`. -/
def nameAt (b : Buf) (o n : ℕ) : List Byte := (List.range n).map fun i ↦ b (o + De.name + i)

@[simp] theorem length_nameAt (b : Buf) (o n : ℕ) : (nameAt b o n).length = n := by simp [nameAt]

/-- `memcpy(de->name, name->name, name->len)` -/
def putName (b : Buf) (o : ℕ) (name : List Byte) : Buf :=
  b.blit (o + De.name) (fun i ↦ name.getD i 0) 0 name.length

/-- The stores that fill in the entry at `o`. -/
def putEntry (b : Buf) (o ino recLen fileType : ℕ) (name : List Byte) : Buf :=
  putName
    (b
      |>.setField o De.inode ino
      |>.setField o De.recLen recLen
      |>.setField o De.nameLen name.length
      |>.setField o De.fileType fileType)
    o name

/-- An entry as it is read: the name of a dead entry is left out. -/
structure Dirent where
  inode : ℕ
  recLen : ℕ
  name : List Byte
  deriving DecidableEq

namespace Dirent

/-- The entry at `o`. -/
def read (b : Buf) (o : ℕ) : Dirent where
  inode := b.getField o De.inode
  recLen := b.getField o De.recLen
  name := if b.getField o De.inode = 0 then [] else nameAt b o (b.getField o De.nameLen)

/-- The record is aligned and holds its header and its name, and a live entry has a name. -/
structure Ok (r : Dirent) : Prop where
  aligned : 4 ∣ r.recLen
  fits : ext4DirRecLen r.name.length ≤ r.recLen
  named : r.inode ≠ 0 → r.name ≠ []

instance : DecidablePred Ok := fun r ↦
  decidable_of_iff (4 ∣ r.recLen ∧ ext4DirRecLen r.name.length ≤ r.recLen ∧ (r.inode ≠ 0 → r.name ≠ []))
    ⟨fun h ↦ ⟨h.1, h.2.1, h.2.2⟩, fun h ↦ ⟨h.aligned, h.fits, h.named⟩⟩

/-- The name and the inode number of a live entry. -/
def pair (r : Dirent) : Option (List Byte × ℕ) := if r.inode = 0 then none else some (r.name, r.inode)

/-- A record has room for its header. -/
theorem Ok.eight_le {r : Dirent} (h : r.Ok) : 8 ≤ r.recLen := by
  have := h.fits
  have := (ext4DirRecLen_bounds r.name.length).1
  omega

/-- The name of a record that is not live is not read. -/
theorem read_name_of_dead {b : Buf} {o : ℕ} (h : (read b o).inode = 0) : (read b o).name = [] :=
  if_pos h

/-- The name of a live record. -/
theorem read_name_of_live {b : Buf} {o : ℕ} (h : (read b o).inode ≠ 0) :
    (read b o).name = nameAt b o (b.getField o De.nameLen) := if_neg h

/-- The length field of a live record is that of its name. -/
theorem nameLen_eq {b : Buf} {o : ℕ} (h : (read b o).inode ≠ 0) :
    b.getField o De.nameLen = (read b o).name.length := by
  rw [read_name_of_live h, length_nameAt]

/-- A name has less than 256 bytes. -/
theorem nameLen_lt (b : Buf) (o : ℕ) : (read b o).name.length < 256 := by
  by_cases h : (read b o).inode = 0
  · rw [read_name_of_dead h]
    norm_num
  · rw [← nameLen_eq h]
    exact Buf.getField_lt ..

/-- A name depends on its own bytes. -/
theorem nameAt_congr {b c : Buf} {o n : ℕ} (h : ∀ i, o + De.name ≤ i → i < o + De.name + n → c i = b i) :
    nameAt c o n = nameAt b o n :=
  List.map_congr_left fun i hi ↦ h _ (by omega) (by have := List.mem_range.1 hi; omega)

/-- What is read of the header alone. -/
theorem header_congr {b c : Buf} {o : ℕ} (h : ∀ i, o ≤ i → i < o + 8 → c i = b i) :
    (read c o).inode = (read b o).inode ∧ (read c o).recLen = (read b o).recLen ∧
      (read c o).name.length = (read b o).name.length := by
  have hfield : ∀ f : Field, f.off + f.size ≤ 8 → c.getField o f = b.getField o f := fun f hf ↦
    Buf.getField_congr fun i hlo hlt ↦ h i (by omega) (by omega)
  have hino := hfield De.inode (by decide)
  refine ⟨hino, hfield De.recLen (by decide), ?_⟩
  simp only [read, hino, apply_ite List.length, length_nameAt, hfield De.nameLen (by decide)]

/-- What the header and the name of an entry are made of. -/
theorem read_congr {b c : Buf} {o : ℕ} (h8 : ∀ i, o ≤ i → i < o + 8 → c i = b i)
    (hname : (read b o).inode ≠ 0 → ∀ i, o + 8 ≤ i → i < o + 8 + (read b o).name.length → c i = b i) :
    read c o = read b o := by
  have hfield : ∀ f : Field, f.off + f.size ≤ 8 → c.getField o f = b.getField o f := fun f hf ↦
    Buf.getField_congr fun i hlo hlt ↦ h8 i (by omega) (by omega)
  have hino := hfield De.inode (by decide)
  have hrec := hfield De.recLen (by decide)
  have hlen := hfield De.nameLen (by decide)
  by_cases hlive : (read b o).inode = 0
  · simp only [read, hino, hrec]
    rw [if_pos (show b.getField o De.inode = 0 from hlive),
      if_pos (show b.getField o De.inode = 0 from hlive)]
  · have hname' := hname hlive
    rw [← nameLen_eq hlive] at hname'
    simp only [read, hino, hrec, hlen, nameAt_congr hname']

/-- Chains of entries. -/
def view : ChainView Dirent where
  read
  len := recLen
  Ok
  len_pos h := by
    have := h.eight_le
    omega
  read_congr {b c o} hok heq := by
    have hfits := hok.fits
    have hbounds := ext4DirRecLen_bounds (read b o).name.length
    have h8 := hok.eight_le
    exact read_congr (fun i hlo hlt ↦ heq i hlo (by omega)) fun _ i hlo hlt ↦ heq i (by omega) (by omega)

@[simp] theorem view_len (r : Dirent) : view.len r = r.recLen := rfl

@[simp] theorem view_read (b : Buf) (o : ℕ) : view.read b o = read b o := rfl

instance : DecidablePred view.Ok := inferInstanceAs (DecidablePred Ok)

/-- The live entries of a list. -/
def live (l : List Dirent) : List (List Byte × ℕ) := l.filterMap pair

@[simp] theorem live_nil : live [] = [] := rfl

@[simp] theorem live_append (l₁ l₂ : List Dirent) : live (l₁ ++ l₂) = live l₁ ++ live l₂ :=
  List.filterMap_append

theorem live_cons (r : Dirent) (l : List Dirent) :
    live (r :: l) = if r.inode = 0 then live l else (r.name, r.inode) :: live l := by
  by_cases h : r.inode = 0 <;> simp [live, pair, h]

/-- `block_size` bytes of the buffer are a chain of the entries of `l`. -/
abbrev Tiles (b : Buf) (blockSize : ℕ) (l : List Dirent) : Prop := view.Chain b blockSize 0 l

/-- Records are aligned, so a chain that starts aligned ends so. -/
theorem dvd_of_chain {b : Buf} {hi o : ℕ} {l : List Dirent} (h : view.Chain b hi o l) (ho : 4 ∣ o) :
    4 ∣ hi := by
  induction l generalizing o with
  | nil =>
    obtain rfl : o = hi := h
    exact ho
  | cons r l ih => exact ih h.2.2 (Nat.dvd_add ho h.2.1.aligned)

/-! ### Storing entries -/

section

variable (b : Buf) (o ino rec fileType : ℕ) (name : List Byte)

/-- What is outside the record stays. -/
theorem putEntry_out {b : Buf} {o ino rec fileType i : ℕ} {name : List Byte}
    (h : i < o ∨ o + 8 + name.length ≤ i) : putEntry b o ino rec fileType name i = b i := by
  unfold putEntry putName
  rw [Buf.blit_out (by simp only [De.name]; omega)]
  have hout : ∀ {c : Buf} (f : Field) (v : ℕ), f.off + f.size ≤ 8 → c.setField o f v i = c i := by
    intro c f v hf
    rcases h with h | h
    · exact Buf.setField_of_lt (by omega)
    · exact Buf.setField_of_le (by omega)
  rw [hout _ _ (by decide), hout _ _ (by decide), hout _ _ (by decide), hout _ _ (by decide)]

/-- The name is stored behind the header. -/
theorem getField_putName {f : Field} (hf : f.off + f.size ≤ 8) :
    (putName b o name).getField o f = b.getField o f :=
  Buf.le_blit_out (.inl (by simp only [De.name]; omega))

/-- The inode that was stored. -/
theorem putEntry_inode : (putEntry b o ino rec fileType name).getField o De.inode = ino % 2 ^ 32 := by
  rw [putEntry, getField_putName _ _ _ (by decide), Buf.getField_setField_of_disjoint _ _ _ (by decide),
    Buf.getField_setField_of_disjoint _ _ _ (by decide), Buf.getField_setField_of_disjoint _ _ _ (by decide),
    Buf.getField_setField_self]
  norm_num [De.inode]

/-- The length of the record that was stored. -/
theorem putEntry_recLen : (putEntry b o ino rec fileType name).getField o De.recLen = rec % 2 ^ 16 := by
  rw [putEntry, getField_putName _ _ _ (by decide), Buf.getField_setField_of_disjoint _ _ _ (by decide),
    Buf.getField_setField_of_disjoint _ _ _ (by decide), Buf.getField_setField_self]
  norm_num [De.recLen]

/-- The length of the name that was stored. -/
theorem putEntry_nameLen :
    (putEntry b o ino rec fileType name).getField o De.nameLen = name.length % 2 ^ 8 := by
  rw [putEntry, getField_putName _ _ _ (by decide), Buf.getField_setField_of_disjoint _ _ _ (by decide),
    Buf.getField_setField_self]
  norm_num [De.nameLen]

/-- The name that was stored. -/
theorem nameAt_putEntry : nameAt (putEntry b o ino rec fileType name) o name.length = name := by
  refine List.ext_getElem (by simp) fun i hi _ ↦ ?_
  simp only [length_nameAt] at hi
  simp [nameAt, putEntry, putName, Buf.blit_in (Nat.le_add_right _ _) (Nat.add_lt_add_left hi _), hi]

end

/-- What is stored is what is read. -/
theorem read_putEntry (b : Buf) (o fileType : ℕ) {ino rec : ℕ} {name : List Byte} (hino : ino < 2 ^ 32)
    (hrec : rec < 2 ^ 16) (hname : name.length < 2 ^ 8) :
    read (putEntry b o ino rec fileType name) o = ⟨ino, rec, if ino = 0 then [] else name⟩ := by
  simp only [read, putEntry_inode, putEntry_recLen, putEntry_nameLen, Nat.mod_eq_of_lt hino,
    Nat.mod_eq_of_lt hrec, Nat.mod_eq_of_lt hname, nameAt_putEntry]

/-- Storing the length of a record leaves the rest of the entry. -/
theorem read_setField_recLen (b : Buf) (o : ℕ) {rec : ℕ} (hrec : rec < 2 ^ 16) :
    read (b.setField o De.recLen rec) o = { read b o with recLen := rec } := by
  have hino : (b.setField o De.recLen rec).getField o De.inode = b.getField o De.inode :=
    Buf.getField_setField_of_disjoint _ _ _ (by decide)
  have hlen : (b.setField o De.recLen rec).getField o De.nameLen = b.getField o De.nameLen :=
    Buf.getField_setField_of_disjoint _ _ _ (by decide)
  have hname : ∀ n, nameAt (b.setField o De.recLen rec) o n = nameAt b o n := fun n ↦
    nameAt_congr fun i hlo _ ↦ Buf.setField_of_le (by simp only [De.recLen, De.name] at *; omega)
  have hself : (b.setField o De.recLen rec).getField o De.recLen = rec := by
    rw [Buf.getField_setField_self]
    exact Nat.mod_eq_of_lt hrec
  simp only [read, hino, hlen, hname, hself]

end Dirent

end MiniExt4
