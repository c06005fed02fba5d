import MiniExt4.Ext4.Dir
import MiniExt4.Ext4.LeafInsert

/-!
# The loops over one block of a directory

On a chain of entries each loop of `dir.c` is a function of the list of entries: the search for a name
(`findLoop_eq`), the search for room (`addLoop_eq`), the removal of a name (`removeLoop_eq`) and the
enumeration (`foreachLoop_eq`).

`addPlaced` and `removePlaced` are what the loops do to the list, without bytes: the first entry with room
is cut in two, or the dead one taken, and a removal lengthens the entry before it or kills the first. That
the buffer afterwards is the chain of the new list is one lemma for each (`addPlaced_chain`,
`removePlaced_chain`), and the loops themselves are inductions on the chain, where `Chain` gives the next
record at every step.
-/

namespace MiniExt4

open Dirent
open Buf (ChainView)
open Buf.ChainView (chain_append locate_eq_none)

namespace Dirent

/-- The entry is live and has the name. -/
def named (name : List Byte) (r : Dirent) : Bool := r.inode ≠ 0 ∧ r.name = name

/-- What of the record is in use. -/
def usedLen (r : Dirent) : ℕ := if r.inode ≠ 0 then ext4DirRecLen r.name.length else 0

/-- Behind what is in use there is room for `recLen` bytes. -/
def hasRoom (recLen : ℕ) (r : Dirent) : Bool := r.usedLen + recLen ≤ r.recLen

/-- A live entry is a record with its name and inode. -/
theorem mem_live {l : List Dirent} {name : List Byte} {ino : ℕ} :
    (name, ino) ∈ live l ↔ ∃ r ∈ l, named name r ∧ r.inode = ino := by
  simp only [live, List.mem_filterMap, pair, named]
  constructor
  · rintro ⟨r, hr, heq⟩
    by_cases h : r.inode = 0
    · simp [h] at heq
    · rw [if_neg h] at heq
      obtain ⟨rfl, rfl⟩ := Prod.mk.inj (Option.some.inj heq)
      exact ⟨r, hr, by simp [h], rfl⟩
  · rintro ⟨r, hr, hnamed, rfl⟩
    obtain ⟨h, rfl⟩ : r.inode ≠ 0 ∧ r.name = name := by simpa using hnamed
    exact ⟨r, hr, by rw [if_neg h]⟩

/-- The comparison of the code is one of the record at that place. -/
theorem entryIs_eq (b : Buf) (o : ℕ) (name : List Byte) : entryIs b o name = named name (Dirent.read b o) := by
  rw [entryIs, named, decide_eq_decide]
  refine and_congr_right fun hlive ↦ ?_
  have hlive' : (Dirent.read b o).inode ≠ 0 := hlive
  rw [nameLen_eq hlive', read_name_of_live hlive', length_nameAt]
  constructor
  · rintro ⟨hlen, hname⟩
    rwa [hlen]
  · intro hname
    have hlen := congrArg List.length hname
    rw [length_nameAt] at hlen
    refine ⟨hlen, ?_⟩
    rwa [← hlen]

end Dirent

variable {b : Buf} {bs o fuel ino recLen : ℕ} {l pre post : List Dirent} {r : Dirent} {name : List Byte}

/-! ### Finding -/

/-- The search stops at the first record of that name: an induction on the chain of records. -/
theorem findLoop_eq (h : view.Chain b bs o l) (hfuel : bs ≤ o + fuel) : findLoop bs name b fuel o =
    some ((view.locate (named name) o l).map fun e ↦ (e.2.inode, e.1)) := by
  induction fuel generalizing o l with
  | zero =>
    rcases l with _ | ⟨r, l⟩
    · rfl
    · have := h.2.2.le
      have := h.2.1.eight_le
      simp only [view_len] at *
      omega
  | succ fuel ih =>
    unfold findLoop
    rcases l with _ | ⟨r, l⟩
    · obtain rfl : o = bs := h
      rw [if_neg (lt_irrefl _)]
      rfl
    obtain ⟨hread, hok, hrest⟩ := h
    have h8 := hok.eight_le
    rw [view_len] at hrest
    have hle := hrest.le
    have hrec : b.getField o De.recLen = r.recLen := congrArg Dirent.recLen hread
    have hino : b.getField o De.inode = r.inode := congrArg inode hread
    rw [if_pos (by omega), hrec, if_neg (by omega), entryIs_eq, ← view_read, hread, ChainView.locate]
    by_cases hname : named name r
    · rw [if_pos hname, if_pos hname, hino]
      rfl
    · rw [if_neg hname, if_neg hname]
      exact ih hrest (by omega)

/-! ### Adding -/

/-- The block with an entry in the record at `p`. -/
def addPlaced (b : Buf) (name : List Byte) (ino p : ℕ) (r : Dirent) : Buf :=
  if r.inode ≠ 0 then
    putEntry (b.setField p De.recLen r.usedLen) (p + r.usedLen) ino (r.recLen - r.usedLen) 0 name
  else putEntry b p ino r.recLen 0 name

/-- The entry is placed at the first record with room for it. -/
theorem addLoop_eq (h : view.Chain b bs o l) (hfuel : bs < o + fuel) (hneed : recLen < 2 ^ 15)
    (hpos : 0 < recLen) : addLoop bs name ino recLen b fuel o =
      some ((view.locate (hasRoom recLen) o l).map fun e ↦ addPlaced b name ino e.1 e.2) := by
  -- the chain from the offset on gets shorter by a record with each iteration
  induction fuel generalizing o l with
  | zero =>
    have := h.le
    omega
  | succ fuel ih =>
    unfold addLoop
    rcases l with _ | ⟨r, l⟩
    · obtain rfl : o = bs := h
      rw [if_neg (by omega)]
      rfl
    by_cases hin : o + recLen ≤ bs
    swap
    · -- no record behind has so many bytes
      have hnone : view.locate (hasRoom recLen) o (r :: l) = none := by
        refine locate_eq_none.2 fun a ha ↦ ?_
        obtain ⟨pre, post, hsplit⟩ := List.append_of_mem ha
        rw [hsplit] at h
        have hend := (chain_append.1 h).2.2.2.le
        simp only [view_len] at hend
        simp only [hasRoom, decide_eq_false_iff_not]
        omega
      rw [if_neg hin, hnone]
      rfl
    obtain ⟨hread, hok, hrest⟩ := h
    have h8 := hok.eight_le
    rw [view_len] at hrest
    have hle := hrest.le
    have hrec : b.getField o De.recLen = r.recLen := congrArg Dirent.recLen hread
    have hino : b.getField o De.inode = r.inode := congrArg inode hread
    have hlt := nameLen_lt b o
    rw [← view_read, hread] at hlt
    have hbounds := ext4DirRecLen_bounds r.name.length
    -- a dead record is free from its first byte on
    have hused : (if r.inode ≠ 0 then ext4DirRecLen (b.getField o De.nameLen) else 0) = r.usedLen := by
      rw [usedLen]
      by_cases hlive : r.inode ≠ 0
      · rw [if_pos hlive, if_pos hlive]
        have := nameLen_eq (b := b) (o := o) (by rwa [← view_read, hread])
        rw [this, ← view_read, hread]
      · rw [if_neg hlive, if_neg hlive]
    have husedle : r.usedLen ≤ r.recLen := by
      have := hok.fits
      rw [usedLen]
      split <;> omega
    have husedlt : r.usedLen < 2 ^ 15 := by
      rw [usedLen]
      split <;> omega
    have haligned : r.recLen % 4 = 0 := Nat.mod_eq_zero_of_dvd hok.aligned
    simp only [hrec, hino, hused]
    rw [if_pos hin, if_neg (by omega), if_neg (by omega), u16_of_lt (by omega), ChainView.locate]
    by_cases hroom : r.usedLen + recLen ≤ r.recLen
    · rw [if_pos hroom, if_pos (show hasRoom recLen r = true by simpa [hasRoom] using hroom),
        Option.map_some, addPlaced]
      split <;> rfl
    · rw [if_neg hroom, if_neg (show ¬ hasRoom recLen r = true by simpa [hasRoom] using hroom)]
      exact ih hrest (by omega)

/-- What an addition makes of a chain. -/
theorem addPlaced_chain (h : view.Chain b bs o (pre ++ (r :: post))) (hroom : hasRoom (ext4DirRecLen name.length) r)
    (hname : 0 < name.length) (hname' : name.length ≤ 255) (hino : 0 < ino) (hino' : ino < 2 ^ 32) :
    ∃ q, view.Chain (addPlaced b name ino (o + view.total pre) r) bs o (pre ++ (q ++ post)) ∧
      (live q).Perm ((name, ino) :: live [r]) := by
  have hroom' : r.usedLen + ext4DirRecLen name.length ≤ r.recLen := by simpa [hasRoom] using hroom
  by_cases hlive : r.inode ≠ 0
  · have hused : r.usedLen = ext4DirRecLen r.name.length := if_pos hlive
    have hbounds := ext4DirRecLen_bounds r.name.length
    rw [hused] at hroom'
    refine ⟨[{ r with recLen := r.usedLen }, ⟨ino, r.recLen - r.usedLen, name⟩], ?_, ?_⟩
    · rw [addPlaced, if_pos hlive, hused]
      exact Leaf.chain_live h hname hname' hino hino' hbounds.2.2 le_rfl hroom'
    · simp only [live_cons, if_neg hlive, if_neg hino.ne', live_nil]
      exact List.Perm.swap ..
  · refine ⟨[⟨ino, r.recLen, name⟩], ?_, ?_⟩
    · rw [addPlaced, if_neg hlive]
      exact Leaf.chain_dead h hname hname' hino hino' (by omega)
    · have hdead : r.inode = 0 := not_not.1 hlive
      simp [live_cons, hdead, hino.ne']

/-! ### Removing -/

/-- The offset of the record before, behind the records of `l`. -/
def lastOff : ℕ → Option ℕ → List Dirent → Option ℕ
  | _, prev, [] => prev
  | o, _, r :: l => lastOff (o + r.recLen) (some o) l

/-- The record before the end of a list. -/
theorem lastOff_append (o : ℕ) (prev : Option ℕ) (pre : List Dirent) (r : Dirent) :
    lastOff o prev (pre ++ [r]) = some (o + view.total pre) := by
  induction pre generalizing o prev with
  | nil => rfl
  | cons a pre ih => rw [List.cons_append, lastOff, ih, ChainView.total_cons, view_len, Nat.add_assoc]

/-- The block without the record at `p`, where `prev` is the offset of the record before. -/
def removePlaced (b : Buf) (p : ℕ) (prev : Option ℕ) (r : Dirent) : Buf :=
  match prev with
  | none => blankEntry b p
  | some prevOff => b.setField prevOff De.recLen (b.getField prevOff De.recLen + r.recLen)

/-- Without a record of that name nothing is removed. -/
theorem removeLoop_none {prev : Option ℕ} (h : view.Chain b bs o l) (hfuel : bs ≤ o + fuel)
    (hfree : ∀ r ∈ l, named name r = false) : removeLoop bs name b fuel o prev = some none := by
  induction fuel generalizing o l prev with
  | zero => rfl
  | succ fuel ih =>
    unfold removeLoop
    rcases l with _ | ⟨r, l⟩
    · obtain rfl : o = bs := h
      rw [if_neg (lt_irrefl _)]
    obtain ⟨hread, hok, hrest⟩ := h
    have h8 := hok.eight_le
    rw [view_len] at hrest
    have hle := hrest.le
    have hrec : b.getField o De.recLen = r.recLen := congrArg Dirent.recLen hread
    simp only [hrec, entryIs_eq]
    rw [if_pos (by omega), if_neg (by omega), ← view_read, hread, hfree r (by simp),
      if_neg Bool.false_ne_true]
    exact ih hrest (by omega) fun a ha ↦ hfree a (by simp [ha])

/-- The first record of that name is removed, into the record before it if there is one. -/
theorem removeLoop_some {prev : Option ℕ} (h : view.Chain b bs o (pre ++ (r :: post)))
    (hfuel : bs ≤ o + fuel) (hpre : ∀ a ∈ pre, named name a = false) (hr : named name r) :
    removeLoop bs name b fuel o prev =
      some (some (removePlaced b (o + view.total pre) (lastOff o prev pre) r)) := by
  induction pre generalizing o fuel prev with
  | nil =>
    obtain ⟨hread, hok, hrest⟩ := h
    have h8 := hok.eight_le
    rw [view_len] at hrest
    have hle := hrest.le
    have hrec : b.getField o De.recLen = r.recLen := congrArg Dirent.recLen hread
    obtain ⟨fuel, rfl⟩ : ∃ n, fuel = n + 1 := ⟨fuel - 1, by omega⟩
    unfold removeLoop
    simp only [hrec, entryIs_eq]
    rw [if_pos (by omega), if_neg (by omega), ← view_read, hread, if_pos hr]
    rcases prev with _ | prevOff <;> rfl
  | cons a pre ih =>
    obtain ⟨hread, hok, hrest⟩ := h
    have h8 := hok.eight_le
    rw [view_len] at hrest
    have hle := hrest.le
    have hrec : b.getField o De.recLen = a.recLen := congrArg Dirent.recLen hread
    obtain ⟨fuel, rfl⟩ : ∃ n, fuel = n + 1 := ⟨fuel - 1, by omega⟩
    unfold removeLoop
    simp only [hrec, entryIs_eq]
    rw [if_pos (by omega), if_neg (by omega), ← view_read, hread, hpre a (by simp),
      if_neg Bool.false_ne_true, ChainView.total_cons, lastOff, ← Nat.add_assoc]
    exact ih hrest (by omega) fun c hc ↦ hpre c (by simp [hc])

/-- Blanking an entry leaves what is behind its header. -/
theorem blankEntry_of_le {p i : ℕ} (h : p + 8 ≤ i) : blankEntry b p i = b i := by
  have hout : ∀ {c : Buf} (f : Buf.Field) (v : ℕ), f.off + f.size ≤ 8 → c.setField p f v i = c i :=
    fun f v hf ↦ Buf.setField_of_le (by omega)
  rw [blankEntry, hout _ _ (by decide), hout _ _ (by decide), hout _ _ (by decide)]

/-- What a removal makes of a chain: the record is dead, or part of the one before it. -/
theorem removePlaced_chain (h : view.Chain b bs 0 (pre ++ (r :: post))) (hbs : bs < 2 ^ 16) :
    ∃ l', view.Chain (removePlaced b (view.total pre) (lastOff 0 none pre) r) bs 0 l' ∧
      live l' = live (pre ++ post) := by
  obtain ⟨-, hread, hok, hrest⟩ := chain_append.1 h
  rw [Nat.zero_add] at hread hrest
  have hend := hrest.le
  have h8 := hok.eight_le
  rcases List.eq_nil_or_concat pre with rfl | ⟨pre, q, rfl⟩
  · -- the first record is blanked
    have hino : (blankEntry b 0).getField 0 De.inode = 0 := by
      rw [blankEntry, Buf.getField_setField_of_disjoint _ _ _ (by decide),
        Buf.getField_setField_of_disjoint _ _ _ (by decide), Buf.getField_setField_self, Nat.zero_mod]
    have hrecLen : (blankEntry b 0).getField 0 De.recLen = r.recLen := by
      rw [blankEntry, Buf.getField_setField_of_disjoint _ _ _ (by decide),
        Buf.getField_setField_of_disjoint _ _ _ (by decide),
        Buf.getField_setField_of_disjoint _ _ _ (by decide)]
      exact congrArg Dirent.recLen hread
    have hblank : Dirent.read (blankEntry b 0) 0 = ⟨0, r.recLen, []⟩ := by
      simp only [Dirent.read, hino, hrecLen, if_true]
    refine ⟨⟨0, r.recLen, []⟩ :: post, ⟨hblank, ⟨hok.aligned, ?_, by simp⟩, ?_⟩, ?_⟩
    · simp only [List.length_nil, ext4DirRecLen]
      omega
    · refine hrest.congr fun i hi _ ↦ ?_
      simp only [ChainView.total_nil, view_len, Nat.zero_add] at hi
      exact blankEntry_of_le (show view.total [] + 8 ≤ i by rw [ChainView.total_nil]; omega)
    · simp [live_cons]
  · -- the record before takes the bytes
    rw [List.concat_eq_append, List.append_assoc, List.singleton_append] at h
    obtain ⟨-, hreadq, hokq, -⟩ := chain_append.1 h
    rw [Nat.zero_add] at hreadq
    have hrecq : b.getField (view.total pre) De.recLen = q.recLen := congrArg Dirent.recLen hreadq
    have h8q := hokq.eight_le
    rw [List.concat_eq_append, lastOff_append, removePlaced, Nat.zero_add, hrecq]
    simp only [List.concat_eq_append, ChainView.total_append, ChainView.total_cons, ChainView.total_nil,
      view_len] at hend
    have hgrown : Dirent.read (b.setField (view.total pre) De.recLen (q.recLen + r.recLen)) (view.total pre) =
        { q with recLen := q.recLen + r.recLen } := by
      rw [read_setField_recLen _ _ (by omega), ← view_read, hreadq]
    have hfits := hokq.fits
    refine ⟨pre ++ ([{ q with recLen := q.recLen + r.recLen }] ++ post), ?_, ?_⟩
    · refine @ChainView.Chain.replace _ _ b _ bs 0 pre [q, r] _ post h ⟨?_, ⟨?_, ?_, hokq.named⟩, ?_⟩
        fun i hi ↦ ?_
      · rw [Nat.zero_add]
        exact hgrown
      · exact Nat.dvd_add hokq.aligned hok.aligned
      · show ext4DirRecLen q.name.length ≤ q.recLen + r.recLen
        omega
      · simp only [ChainView.Chain, ChainView.total_cons, ChainView.total_nil, view_len]
        omega
      · simp only [ChainView.total_cons, ChainView.total_nil, view_len] at hi
        rcases hi with hi | hi
        · exact Buf.setField_of_lt (by omega)
        · exact Buf.setField_of_le (by simp only [De.recLen]; omega)
    · simp [live_cons]

/-! ### Enumerating -/

/-- The callback on one entry after the other, until it asks to stop: whether it did, and `ctx`. -/
def fillAll {σ : Type} (filldir : σ → List Byte → ℕ → Bool × σ) : σ → List (List Byte × ℕ) → Bool × σ
  | ctx, [] => (false, ctx)
  | ctx, e :: l =>
    let r := filldir ctx e.1 e.2
    if r.1 then (true, r.2) else fillAll filldir r.2 l

/-- A listing of two lists is one after the other, unless the first was stopped. -/
theorem fillAll_append {σ : Type} (filldir : σ → List Byte → ℕ → Bool × σ) (ctx : σ)
    (l₁ l₂ : List (List Byte × ℕ)) : fillAll filldir ctx (l₁ ++ l₂) =
      if (fillAll filldir ctx l₁).1 then (true, (fillAll filldir ctx l₁).2)
      else fillAll filldir (fillAll filldir ctx l₁).2 l₂ := by
  induction l₁ generalizing ctx with
  | nil => rfl
  | cons e l₁ ih =>
    rw [List.cons_append, fillAll, fillAll]
    by_cases h : (filldir ctx e.1 e.2).1 = true
    · simp [h]
    · simp only [if_neg h, ih]

/-- How the loop over a block ends. -/
def fillEnd {σ : Type} (r : Bool × σ) : Foreach σ := if r.1 then .stop r.2 else .next r.2

/-- The listing of a block is that of its live entries. -/
theorem foreachLoop_eq {σ : Type} {filldir : σ → List Byte → ℕ → Bool × σ} {ctx : σ}
    (h : view.Chain b bs o l) (hfuel : bs ≤ o + fuel) : foreachLoop filldir bs b fuel o ctx =
      fillEnd (fillAll filldir ctx (live l)) := by
  induction fuel generalizing o l ctx with
  | zero =>
    rcases l with _ | ⟨r, l⟩
    · rfl
    · have := h.2.2.le
      have := h.2.1.eight_le
      simp only [view_len] at *
      omega
  | succ fuel ih =>
    unfold foreachLoop
    rcases l with _ | ⟨r, l⟩
    · obtain rfl : o = bs := h
      rw [if_neg (lt_irrefl _)]
      rfl
    obtain ⟨hread, hok, hrest⟩ := h
    have h8 := hok.eight_le
    rw [view_len] at hrest
    have hle := hrest.le
    have hrec : b.getField o De.recLen = r.recLen := congrArg Dirent.recLen hread
    have hino : b.getField o De.inode = r.inode := congrArg inode hread
    simp only [hrec, hino]
    rw [if_pos (by omega), if_neg (by omega), live_cons]
    -- a dead record is passed over, and a live one has a name
    by_cases hlive : r.inode = 0
    · rw [if_neg (by simp [hlive]), if_pos hlive]
      exact ih hrest (by omega)
    · have hlive' : (Dirent.read b o).inode ≠ 0 := by rwa [← view_read, hread]
      have hname := read_name_of_live hlive'
      have hlen := nameLen_eq hlive'
      rw [← view_read, hread] at hname hlen
      have hne : 0 < b.getField o De.nameLen := by
        rw [hlen]
        exact List.length_pos_of_ne_nil (hok.named hlive)
      rw [if_pos ⟨hlive, hne⟩, if_neg hlive, ← hname, fillAll]
      by_cases hstop : (filldir ctx r.name r.inode).1 = true
      · rw [if_pos hstop]
        simp only [hstop]
        rfl
      · rw [if_neg hstop, ih hrest (by omega)]
        simp only [if_neg hstop]

end MiniExt4
