import MiniExt4.Ext4.Htree

/-!
# Inserting into a leaf

`ext4_htree_try_insert_leaf` takes the first record that is dead or has room behind its name. It uses a
dead one whatever its size, and cuts a live one off at the length of the *new* entry, so that the leaf
stays well formed exactly where the record it takes has room for that (`keepsLeaf_iff`).

`taken` is the record that the loop stops at and `placed` what it makes of it; that the loop does this is
one lemma (`tryInsertLoop_eq`), and the rest is about lists of records. Two cases are exact: a dead record
is long enough or not (`fits_of_dead`), and behind a live one there is room or not (`fits_of_live`). The
sibling in `dir.c` gets both right, which is why the linear directories of `DirMap` need no such condition.
-/

namespace MiniExt4

open StateErr Dirent
open Buf (ChainView)
open Buf.ChainView (chain_append)

namespace Leaf

variable {b : Buf} {bs o p ino needRec fuel : ℕ} {l pre post : List Dirent} {r : Dirent} {name : List Byte}

/-- The record that the loop takes, of the records from `o` on, and its offset. -/
def taken (bs needRec : ℕ) : ℕ → List Dirent → Option (ℕ × Dirent)
  | _, [] => none
  | o, r :: l =>
    if o + needRec ≤ bs then
      if r.inode = 0 ∨ needRec + ext4DirRecLen r.name.length ≤ r.recLen then some (o, r)
      else taken bs needRec (o + r.recLen) l
    else none

/-- What the loop makes of the record. -/
def placed (b : Buf) (name : List Byte) (ino needRec p : ℕ) (r : Dirent) : Option ℕ × Buf :=
  if r.inode ≠ 0 ∧ r.recLen > needRec then
    (some (p + needRec),
      putEntry (b.setField p De.recLen needRec) (p + needRec) ino (r.recLen - needRec) 0 name)
  else (some p, putEntry b p ino r.recLen 0 name)

/-- The loop over a chain. -/
theorem tryInsertLoop_eq (hneed : needRec < 2 ^ 15) (hpos : 0 < needRec) (h : view.Chain b bs o l)
    (hfuel : bs < o + fuel) : tryInsertLoop bs name ino needRec fuel o b =
      ((taken bs needRec o l).elim (none, b) fun t ↦ placed b name ino needRec t.1 t.2) := by
  induction fuel generalizing o l with
  | zero =>
    have := h.le
    omega
  | succ fuel ih =>
    unfold tryInsertLoop
    rcases l with _ | ⟨r, l⟩
    · obtain rfl : o = bs := h
      rw [if_neg (by omega)]
      rfl
    by_cases hroom : o + needRec ≤ bs
    swap
    · rw [if_neg hroom, taken, if_neg hroom]
      rfl
    obtain ⟨hread, hok, hrest⟩ := h
    have h8 := hok.eight_le
    have hrec : b.getField o De.recLen = r.recLen := congrArg recLen hread
    have hino : b.getField o De.inode = r.inode := congrArg inode hread
    have hlt := nameLen_lt b o
    rw [show Dirent.read b o = r from hread] at hlt
    have hbounds := ext4DirRecLen_bounds r.name.length
    -- the test of the code is that of `taken`: nothing wraps
    have hcond : (r.inode = 0 ∨ r.recLen ≥ u16 (needRec + if b.getField o De.nameLen = 0 then 0
        else ext4DirRecLen (b.getField o De.nameLen))) ↔
        r.inode = 0 ∨ needRec + ext4DirRecLen r.name.length ≤ r.recLen := by
      refine or_congr_right' fun hlive ↦ ?_
      have hlen : b.getField o De.nameLen = r.name.length := by
        have := nameLen_eq (b := b) (o := o) (by rwa [show Dirent.read b o = r from hread])
        rwa [show Dirent.read b o = r from hread] at this
      have hne : r.name.length ≠ 0 := fun h0 ↦ hok.named hlive (List.eq_nil_of_length_eq_zero h0)
      rw [hlen, if_neg hne, u16_of_lt (by omega)]
    rw [if_pos hroom, get_bind, taken, if_pos hroom]
    simp only [hrec, hino, hcond]
    rw [guard_true (by omega), pure_bind']
    by_cases htake : r.inode = 0 ∨ needRec + ext4DirRecLen r.name.length ≤ r.recLen
    · rw [if_pos htake, if_pos htake, Option.elim_some, placed]
      split <;> rfl
    · rw [if_neg htake, if_neg htake]
      exact ih hrest (by omega)

/-- Where the record lies that is taken. -/
theorem taken_eq_some (h : taken bs needRec o l = some (p, r)) : ∃ pre post, l = pre ++ (r :: post) ∧
    p = o + view.total pre ∧ p + needRec ≤ bs ∧
      (r.inode = 0 ∨ needRec + ext4DirRecLen r.name.length ≤ r.recLen) := by
  induction l generalizing o with
  | nil => simp [taken] at h
  | cons a l ih =>
    unfold taken at h
    split at h
    · rename_i hroom
      split at h
      · rename_i htake
        obtain ⟨rfl, rfl⟩ := Prod.mk.inj (Option.some.inj h)
        exact ⟨[], l, rfl, rfl, hroom, htake⟩
      · obtain ⟨pre, post, rfl, rfl, hin, htake⟩ := ih h
        exact ⟨a :: pre, post, rfl, by simp [Nat.add_assoc], hin, htake⟩
    · simp at h

/-- A record has room for a new entry of `needRec` bytes, the way the code cuts it. -/
def Spare (needRec : ℕ) (r : Dirent) : Prop :=
  if r.inode = 0 then needRec ≤ r.recLen
  else ext4DirRecLen r.name.length ≤ needRec ∧ 2 * needRec ≤ r.recLen

/-- The call keeps the leaf well formed: where it returns 0, the block is a chain of entries again, with
one live entry more, and `*out_de_off` is its offset; where it returns -1, the block is as it was. -/
structure KeepsLeaf (b : Buf) (bs : ℕ) (l : List Dirent) (name : List Byte) (ino needRec : ℕ) : Prop where
  inserted : ∀ off b', ext4HtreeTryInsertLeaf bs name ino needRec b = (some off, b') →
    ∃ pre r post, Tiles b' bs (pre ++ r :: post) ∧ r.pair = some (name, ino) ∧ off = view.total pre ∧
      (live (pre ++ r :: post)).Perm ((name, ino) :: live l)
  full : ∀ b', ext4HtreeTryInsertLeaf bs name ino needRec b = (none, b') → b' = b

section

variable (h : view.Chain b bs o (pre ++ (r :: post))) (hname : 0 < name.length) (hname' : name.length ≤ 255)
  (hino : 0 < ino) (hino' : ino < 2 ^ 32)

include h hname' hino hino' hname

/-- A dead record takes the entry, if it is long enough. -/
theorem chain_dead (hneed : ext4DirRecLen name.length ≤ r.recLen) :
    view.Chain (putEntry b (o + view.total pre) ino r.recLen 0 name) bs o
      (pre ++ (⟨ino, r.recLen, name⟩ :: post)) := by
  obtain ⟨hread, hok, -⟩ := (chain_append.1 h).2
  have hbounds := ext4DirRecLen_bounds name.length
  have hrec : r.recLen < 2 ^ 16 := by
    rw [← hread]
    exact Buf.getField_lt ..
  refine @ChainView.Chain.replace _ _ b _ bs o pre [r] [⟨ino, r.recLen, name⟩] post h
    ⟨?_, ⟨hok.aligned, hneed, fun _ ↦ List.ne_nil_of_length_pos hname⟩, ?_⟩ fun i hi ↦ ?_
  · refine (read_putEntry b _ 0 hino' hrec (by omega)).trans ?_
    rw [if_neg (by omega)]
  · simp [ChainView.Chain]
  · refine putEntry_out ?_
    simp only [ChainView.total_cons, ChainView.total_nil, view_len] at hi
    omega

/-- A live record is cut off at `m` bytes, and the entry takes the rest. -/
theorem chain_live {m : ℕ} (hm : 4 ∣ m) (hold : ext4DirRecLen r.name.length ≤ m)
    (hnew : m + ext4DirRecLen name.length ≤ r.recLen) :
    view.Chain (putEntry (b.setField (o + view.total pre) De.recLen m) (o + view.total pre + m) ino
      (r.recLen - m) 0 name) bs o (pre ++ (({ r with recLen := m } : Dirent) ::
        ⟨ino, r.recLen - m, name⟩ :: post)) := by
  obtain ⟨hread, hok, -⟩ := (chain_append.1 h).2
  have hbounds := ext4DirRecLen_bounds name.length
  have hbounds' := ext4DirRecLen_bounds r.name.length
  have hrec : r.recLen < 2 ^ 16 := by
    rw [← hread]
    exact Buf.getField_lt ..
  have hcut : read (b.setField (o + view.total pre) De.recLen m) (o + view.total pre) =
      { r with recLen := m } := by
    rw [read_setField_recLen _ _ (by omega), show read b (o + view.total pre) = r from hread]
  have hokCut : Ok { r with recLen := m } := ⟨hm, hold, hok.named⟩
  refine @ChainView.Chain.replace _ _ b _ bs o pre [r]
    [{ r with recLen := m }, ⟨ino, r.recLen - m, name⟩] post h ⟨?_, hokCut, ?_, ⟨?_, ?_, ?_⟩, ?_⟩
    fun i hi ↦ ?_
  · rw [← hcut] at hokCut ⊢
    refine view.read_congr hokCut fun i _ hlt ↦ putEntry_out (.inl ?_)
    rwa [view_len, view_read, hcut] at hlt
  · refine (read_putEntry _ _ 0 hino' (by omega) (by omega)).trans ?_
    rw [if_neg (by omega)]
  · exact Nat.dvd_sub hok.aligned hm
  · show ext4DirRecLen name.length ≤ r.recLen - m
    omega
  · exact fun _ ↦ List.ne_nil_of_length_pos hname
  · simp only [ChainView.Chain, ChainView.total_cons, ChainView.total_nil, view_len]
    omega
  · simp only [ChainView.total_cons, ChainView.total_nil, view_len] at hi
    rw [putEntry_out (by omega)]
    rcases hi with hi | hi
    · exact Buf.setField_of_lt (by omega)
    · exact Buf.setField_of_le (by simp only [De.recLen]; omega)

/-- A dead record that took the entry was long enough, if the block is a chain again: the entry itself says
its length. -/
theorem fits_of_dead {t : List Dirent} (hin : o + view.total pre + 8 ≤ bs)
    (ht : view.Chain (putEntry b (o + view.total pre) ino r.recLen 0 name) bs o t) :
    ext4DirRecLen name.length ≤ r.recLen := by
  obtain ⟨hpre, hread, -, -⟩ := chain_append.1 h
  have hrec : r.recLen < 2 ^ 16 := by
    rw [← hread]
    exact Buf.getField_lt ..
  obtain ⟨rest, -, hrest⟩ := ChainView.Chain.of_agree hpre
    (fun i _ hlt ↦ putEntry_out (.inl (by omega))) ht (by omega)
  obtain ⟨a, rest, rfl, hreada, hoka, -⟩ := hrest.of_lt (by omega)
  have hnew := read_putEntry b (o + view.total pre) 0 hino' hrec (show name.length < 2 ^ 8 by omega)
  rw [if_neg (by omega)] at hnew
  obtain rfl : a = ⟨ino, r.recLen, name⟩ := hreada.symm.trans hnew
  exact hoka.fits

/-- So was a live record that was cut off at `m` bytes: the header of neither part is overwritten. -/
theorem fits_of_live {m : ℕ} {t : List Dirent} (hm : 8 ≤ m) (hlen : m + 8 ≤ r.recLen)
    (ht : view.Chain (putEntry (b.setField (o + view.total pre) De.recLen m) (o + view.total pre + m) ino
      (r.recLen - m) 0 name) bs o t) :
    ext4DirRecLen r.name.length ≤ m ∧ m + ext4DirRecLen name.length ≤ r.recLen := by
  obtain ⟨hpre, hread, hok, hpost⟩ := chain_append.1 h
  have hle := hpost.le
  have hrec : r.recLen < 2 ^ 16 := by
    rw [← hread]
    exact Buf.getField_lt ..
  obtain ⟨rest, -, hrest⟩ := ChainView.Chain.of_agree hpre (fun i _ hlt ↦ by
    rw [putEntry_out (.inl (by omega)), Buf.setField_of_lt (by omega)]) ht (by omega)
  generalize hp : o + view.total pre = p at *
  obtain ⟨a, rest, rfl, hreada, hoka, hresta⟩ := hrest.of_lt (by simp only [view_len] at hle; omega)
  have hcut : read (b.setField p De.recLen m) p = { r with recLen := m } := by
    rw [read_setField_recLen _ _ (by omega), show read b p = r from hread]
  obtain ⟨-, hrecLen, hnameLen⟩ := header_congr (b := b.setField p De.recLen m)
    (c := putEntry (b.setField p De.recLen m) (p + m) ino (r.recLen - m) 0 name) (o := p)
    fun i _ hlt ↦ putEntry_out (.inl (by omega))
  rw [hcut, ← view_read, hreada] at hrecLen hnameLen
  dsimp only at hrecLen hnameLen
  have hold := hoka.fits
  rw [hnameLen, hrecLen] at hold
  rw [view_len, hrecLen] at hresta
  obtain ⟨a', rest, rfl, hreada', hoka', -⟩ := hresta.of_lt (by simp only [view_len] at hle; omega)
  have hnew := read_putEntry (b.setField p De.recLen m) (p + m) 0 hino'
    (show r.recLen - m < 2 ^ 16 by omega) (show name.length < 2 ^ 8 by omega)
  rw [if_neg (by omega)] at hnew
  obtain rfl : a' = ⟨ino, r.recLen - m, name⟩ := hreada'.symm.trans hnew
  have hfits := hoka'.fits
  dsimp only at hfits
  exact ⟨hold, by omega⟩

end

theorem live_replace {q : List Dirent} (hq : (live q).Perm ((name, ino) :: live [r])) :
    (live (pre ++ (q ++ post))).Perm ((name, ino) :: live (pre ++ r :: post)) := by
  rw [show pre ++ r :: post = pre ++ ([r] ++ post) from rfl]
  simp only [live_append]
  refine ((hq.append_right _).append_left _).trans ?_
  rw [List.cons_append]
  exact List.perm_middle

/-- A call that stores an entry keeps the leaf if what it leaves is a chain with it. -/
theorem keepsLeaf_iff_of_some {needRec off : ℕ} {c : Buf}
    (hrun : ext4HtreeTryInsertLeaf bs name ino needRec b = (some off, c)) :
    KeepsLeaf b bs l name ino needRec ↔ ∃ pre r post, Tiles c bs (pre ++ r :: post) ∧
      r.pair = some (name, ino) ∧ off = view.total pre ∧
        (live (pre ++ r :: post)).Perm ((name, ino) :: live l) := by
  refine ⟨fun h ↦ h.inserted off c hrun, fun h ↦ ⟨fun off' b' hsome ↦ ?_, fun b' hnone ↦ ?_⟩⟩
  · obtain ⟨hoff, rfl⟩ := Prod.mk.inj (hrun.symm.trans hsome)
    obtain rfl := Option.some.inj hoff
    exact h
  · simp [hrun] at hnone

/-- **The leaf stays well formed exactly where the record that is taken has room for the new entry** in
the way it is cut. -/
theorem keepsLeaf_iff (_hbs : 1024 ≤ bs) (_hbs' : bs ≤ 4096) (h : Tiles b bs l) (hname : 1 ≤ name.length)
    (hname' : name.length ≤ 255) (_habsent : name ∉ (live l).map Prod.fst) (hino : ino ≠ 0)
    (hino' : ino < 2 ^ 32) :
    KeepsLeaf b bs l name ino (ext4DirRecLen name.length) ↔
      ∀ p r, taken bs (ext4DirRecLen name.length) 0 l = some (p, r) →
        Spare (ext4DirRecLen name.length) r := by
  have hbounds := ext4DirRecLen_bounds name.length
  generalize hneed : ext4DirRecLen name.length = needRec at *
  have hrun := @tryInsertLoop_eq _ _ _ ino needRec _ _ name (by omega) (by omega) h
    (show bs < 0 + (bs + 1) by omega)
  rw [show tryInsertLoop bs name ino needRec (bs + 1) 0 b = ext4HtreeTryInsertLeaf bs name ino needRec b
    from rfl] at hrun
  have hpos : 0 < ino := Nat.pos_of_ne_zero hino
  rcases htaken : taken bs needRec 0 l with _ | ⟨p, r⟩
  · -- there is no room
    rw [htaken] at hrun
    refine iff_of_true ⟨fun off b' hsome ↦ ?_, fun b' hnone ↦ ?_⟩ (by simp)
    · simp [hrun] at hsome
    · rw [hrun] at hnone
      exact (Prod.mk.inj hnone).2.symm
  rw [htaken, Option.elim_some] at hrun
  dsimp only at hrun
  obtain ⟨pre, post, rfl, hp, hin, htake⟩ := taken_eq_some htaken
  simp only [Option.some.injEq, Prod.mk.injEq, and_imp, forall_eq', forall_apply_eq_imp_iff]
  by_cases hlive : r.inode = 0
  · -- a dead record
    rw [placed, if_neg (by simp [hlive])] at hrun
    rw [keepsLeaf_iff_of_some hrun, Spare, if_pos hlive, ← hneed]
    constructor
    · rintro ⟨pre', r', post', htiles, -⟩
      rw [hp] at htiles
      exact fits_of_dead h hname hname' hpos hino' (by omega) htiles
    · intro hfits
      have hchain := chain_dead h hname hname' hpos hino' hfits
      rw [← hp] at hchain
      refine ⟨pre, ⟨ino, r.recLen, name⟩, post, hchain, by simp [pair, hino], by omega, ?_⟩
      exact live_replace (q := [⟨ino, r.recLen, name⟩]) (by simp [live_cons, hlive, hino])
  · -- a live record
    have htake := htake.resolve_left hlive
    have hbounds' := ext4DirRecLen_bounds r.name.length
    rw [placed, if_pos ⟨hlive, by omega⟩] at hrun
    rw [keepsLeaf_iff_of_some hrun, Spare, if_neg hlive]
    constructor
    · rintro ⟨pre', r', post', htiles, -⟩
      rw [hp] at htiles
      obtain ⟨hold, hnew⟩ := fits_of_live h hname hname' hpos hino' (by omega) (by omega) htiles
      exact ⟨hold, by omega⟩
    · rintro ⟨hold, hnew⟩
      have hchain := chain_live h hname hname' hpos hino' hbounds.2.2 hold (by omega)
      rw [← hp] at hchain
      refine ⟨pre ++ [{ r with recLen := needRec }], ⟨ino, r.recLen - needRec, name⟩, post, ?_,
        by simp [pair, hino], ?_, ?_⟩
      · rwa [List.append_assoc]
      · rw [ChainView.total_append, ChainView.total_cons, ChainView.total_nil, view_len]
        dsimp only
        omega
      · rw [List.append_assoc]
        refine live_replace (q := [{ r with recLen := needRec }, ⟨ino, r.recLen - needRec, name⟩]) ?_
        simp only [live_cons, hlive, hino, if_false, live_nil]
        exact List.Perm.swap ..

/-- A leaf of 1024 bytes with the entry `abcdefgh` and the rest behind it. -/
def oneName : Buf := putEntry Buf.zero 0 12 1024 0 [97, 98, 99, 100, 101, 102, 103, 104]

theorem oneName_tiles : Tiles oneName 1024 [⟨12, 1024, [97, 98, 99, 100, 101, 102, 103, 104]⟩] := by
  decide +kernel

theorem keepsLeaf_iff_ijklmnop :
    KeepsLeaf oneName 1024 [⟨12, 1024, [97, 98, 99, 100, 101, 102, 103, 104]⟩]
      [105, 106, 107, 108, 109, 110, 111, 112] 13 16 := by
  refine (keepsLeaf_iff (by norm_num) (by norm_num) oneName_tiles (by decide) (by decide) (by decide)
    (by norm_num) (by norm_num)).2 fun p r h ↦ ?_
  obtain ⟨-, rfl⟩ := Prod.mk.inj (Option.some.inj h)
  norm_num [Spare, ext4DirRecLen]

/-- `b` is put 12 bytes behind the start of the entry `abcdefgh`, which needs 16. -/
theorem not_keepsLeaf_b : ¬ KeepsLeaf oneName 1024 [⟨12, 1024, [97, 98, 99, 100, 101, 102, 103, 104]⟩]
    [98] 13 12 := by
  intro hkeeps
  have hrun : ext4HtreeTryInsertLeaf 1024 [98] 13 12 oneName =
      (some 12, (ext4HtreeTryInsertLeaf 1024 [98] 13 12 oneName).2) := eq_of_fst_eq (by decide +kernel)
  obtain ⟨pre, r, post, htiles, -⟩ := hkeeps.inserted _ _ hrun
  obtain ⟨a, l, -, hread, hok, -⟩ := htiles.of_lt (by norm_num)
  have hfits := hok.fits
  rw [← hread] at hfits
  revert hfits
  decide +kernel

end Leaf

end MiniExt4
