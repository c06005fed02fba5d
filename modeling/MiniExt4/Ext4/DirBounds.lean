import MiniExt4.Ext4.Dir
import MiniExt4.Machine.Touch

/-!
# What the loops over a directory block touch

`ext4_find_entry`, `ext4_remove_entry`, `ext4_dir_foreach` and `ext4_htree_leaf_collect` go from record
to record as `rec_len` says, and stop at a record of length 0 or past the end of the block. Each is
`walk` with a body of its own, and computes what the loop of the same name in `Dir` does. They look at
the header of every record that begins in the block, whether or not it ends there: all four stay inside
the block exactly where the records do (`parsersInside_iff`).

The loops here are those of `Dir`, over `Touch`, and each is shown to compute the same value. Where they
stay is one induction for all of them (`walk_within`), since a body reads the header of a record and the
name of a live one, and this is what `RecordInside` asks to be in the block. The converse needs one loop
only: the enumeration looks at every record there is (`records_inside_of_foreach`).
-/

namespace MiniExt4

open Touch

namespace DirWalk

variable {σ ρ : Type} {buf : Buf} {bs fuel off o : ℕ} {name : List Byte}

/-! ### The loops -/

/-- `while (off < block_size)` over the records of a block. The body gets the offset, `rec_len`,
`name_len` and `inode`, and either ends the loop or goes on to the next record. -/
def walk (visit : σ → ℕ → ℕ → ℕ → ℕ → Touch (ρ ⊕ σ)) (zero done : σ → ρ) (buf : Buf) (bs : ℕ) :
    ℕ → ℕ → σ → Touch ρ
  | 0, _, s => pure (done s)
  | fuel + 1, off, s =>
    if off < bs then do
      let recLen ← field buf off De.recLen
      let nameLen ← field buf off De.nameLen
      let ino ← field buf off De.inode
      if recLen = 0 then pure (zero s)
      else
        match ← visit s off recLen nameLen ino with
        | .inl r => pure r
        | .inr s => walk visit zero done buf bs fuel (off + recLen) s
    else pure (done s)

/-- `ino != 0 && name_len == name->len && memcmp(de->name, name->name, name_len) == 0` -/
def nameMatches (name : List Byte) (buf : Buf) (off nameLen ino : ℕ) : Touch Bool :=
  if ino ≠ 0 ∧ nameLen = name.length then memcmpEq buf (off + De.name) name else pure false

/-- The loop of `ext4_find_entry` over a block. -/
def findWalk (bs : ℕ) (name : List Byte) (buf : Buf) (fuel off : ℕ) : Touch (Option (Option (ℕ × ℕ))) :=
  walk
    (fun _ off _ nameLen ino ↦ do
      if ← nameMatches name buf off nameLen ino then pure (.inl (some (some (ino, off)))) else pure (.inr ()))
    (fun _ ↦ none) (fun _ ↦ some none) buf bs fuel off ()

/-- The stores that blank the first entry of a block. -/
def blankWalk (buf : Buf) (off : ℕ) : Touch Buf := do
  touch (off + De.inode.off) De.inode.size
  touch (off + De.nameLen.off) De.nameLen.size
  touch (off + De.fileType.off) De.fileType.size
  pure (blankEntry buf off)

/-- `pde->rec_len = prev_rec + rec_len` -/
def mergeWalk (buf : Buf) (prevOff recLen : ℕ) : Touch Buf := do
  let prevRec ← field buf prevOff De.recLen
  touch (prevOff + De.recLen.off) De.recLen.size
  pure (buf.setField prevOff De.recLen (prevRec + recLen))

/-- The entry at `off` goes: it is blanked, or its record goes to the one before it. -/
def unlinkWalk (buf : Buf) (prev : Option ℕ) (off recLen : ℕ) : Touch Buf :=
  match prev with
  | none => blankWalk buf off
  | some prevOff => mergeWalk buf prevOff recLen

/-- The loop of `ext4_remove_entry` over a block. -/
def removeWalk (bs : ℕ) (name : List Byte) (buf : Buf) (fuel off : ℕ) (prev : Option ℕ) :
    Touch (Option (Option Buf)) :=
  walk
    (fun prev off recLen nameLen ino ↦ do
      if ← nameMatches name buf off nameLen ino then
        let buf ← unlinkWalk buf prev off recLen
        pure (.inl (some (some buf)))
      else pure (.inr (some off)))
    (fun _ ↦ none) (fun _ ↦ some none) buf bs fuel off prev

/-- The loop of `ext4_dir_foreach` over a block. The callback reads the name. -/
def foreachWalk (filldir : σ → List Byte → ℕ → Bool × σ) (bs : ℕ) (buf : Buf) (fuel off : ℕ) (ctx : σ) :
    Touch (Foreach σ) :=
  walk
    (fun ctx off _ nameLen ino ↦
      if ino ≠ 0 ∧ nameLen > 0 then do
        touch (off + De.name) nameLen
        let r := filldir ctx (nameAt buf off nameLen) ino
        if r.1 then pure (.inl (.stop r.2)) else pure (.inr r.2)
      else pure (.inr ctx))
    .error .next buf bs fuel off ctx

/-- The loop of `ext4_htree_leaf_collect`. -/
def leafCollectWalk (hash32 : List Byte → ℕ) (leaf : Buf) (bs fuel off : ℕ) (items : List LeafItem) :
    Touch (Option (List LeafItem)) :=
  walk
    (fun items off _ nl ino ↦
      if ino ≠ 0 ∧ nl > 0 then
        if items.length ≥ ext4HtreeSplitMaxNames then pure (.inl none)
        else do
          touch (off + De.name) nl
          pure (.inr (items ++ [⟨hash32 (nameAt leaf off nl), ino, nameAt leaf off nl⟩]))
      else pure (.inr items))
    (fun _ ↦ none) some leaf bs fuel off items

/-! ### What they compute -/

theorem val_walk_succ {visit : σ → ℕ → ℕ → ℕ → ℕ → Touch (ρ ⊕ σ)} {zero done : σ → ρ} {s : σ} :
    (walk visit zero done buf bs (fuel + 1) off s).val =
      if off < bs then
        if buf.getField off De.recLen = 0 then zero s
        else
          match (visit s off (buf.getField off De.recLen) (buf.getField off De.nameLen)
            (buf.getField off De.inode)).val with
          | .inl r => r
          | .inr s => (walk visit zero done buf bs fuel (off + buf.getField off De.recLen) s).val
      else done s := by
  rw [walk]
  by_cases hoff : off < bs
  · rw [if_pos hoff, if_pos hoff, val_bind, val_bind, val_bind]
    by_cases hrec : (field buf off De.recLen).val = 0
    · rw [if_pos hrec]
      exact (if_pos hrec).symm
    · rw [if_neg hrec, if_neg (show ¬ buf.getField off De.recLen = 0 from hrec), val_bind]
      simp only [val_field]
      split <;> rfl
  · rw [if_neg hoff, if_neg hoff]
    rfl

theorem val_nameMatches : (nameMatches name buf off (buf.getField off De.nameLen) (buf.getField off De.inode)).val =
    entryIs buf off name := by
  unfold nameMatches entryIs
  by_cases h : buf.getField off De.inode ≠ 0 ∧ buf.getField off De.nameLen = name.length
  · rw [if_pos h, val_memcmpEq]
    simp only [h, true_and, ne_eq, not_false_eq_true]
    rfl
  · rw [if_neg h]
    exact (decide_eq_false fun hc ↦ h ⟨hc.1, hc.2.1⟩).symm

theorem val_findWalk : (findWalk bs name buf fuel off).val = findLoop bs name buf fuel off := by
  induction fuel generalizing off with
  | zero => rfl
  | succ fuel ih =>
    unfold findWalk findLoop
    simp only [val_walk_succ, val_bind, val_nameMatches]
    cases entryIs buf off name with
    | true => rfl
    | false =>
      refine if_congr Iff.rfl (if_congr Iff.rfl rfl ?_) rfl
      exact ih

theorem val_removeWalk {prev : Option ℕ} :
    (removeWalk bs name buf fuel off prev).val = removeLoop bs name buf fuel off prev := by
  induction fuel generalizing off prev with
  | zero => rfl
  | succ fuel ih =>
    unfold removeWalk removeLoop
    simp only [val_walk_succ, val_bind, val_nameMatches]
    cases entryIs buf off name with
    | true => cases prev <;> rfl
    | false =>
      refine if_congr Iff.rfl (if_congr Iff.rfl rfl ?_) rfl
      exact ih

theorem val_foreachWalk {filldir : σ → List Byte → ℕ → Bool × σ} {ctx : σ} :
    (foreachWalk filldir bs buf fuel off ctx).val = foreachLoop filldir bs buf fuel off ctx := by
  induction fuel generalizing off ctx with
  | zero => rfl
  | succ fuel ih =>
    unfold foreachWalk foreachLoop
    rw [val_walk_succ]
    refine if_congr Iff.rfl (if_congr Iff.rfl rfl ?_) rfl
    by_cases hlive : buf.getField off De.inode ≠ 0 ∧ buf.getField off De.nameLen > 0
    · rw [if_pos hlive, if_pos hlive]
      rw [val_bind]
      dsimp only
      by_cases hstop : (filldir ctx (nameAt buf off (buf.getField off De.nameLen)) (buf.getField off De.inode)).1
      · rw [if_pos hstop, if_pos hstop]
        rfl
      · rw [if_neg hstop, if_neg hstop]
        exact ih
    · rw [if_neg hlive, if_neg hlive]
      exact ih

theorem val_leafCollectWalk {hash32 : List Byte → ℕ} {items : List LeafItem} :
    (leafCollectWalk hash32 buf bs fuel off items).val = leafCollectLoop hash32 buf bs fuel off items := by
  induction fuel generalizing off items with
  | zero => rfl
  | succ fuel ih =>
    unfold leafCollectWalk leafCollectLoop
    rw [val_walk_succ]
    refine if_congr Iff.rfl (if_congr Iff.rfl rfl ?_) rfl
    by_cases hlive : buf.getField off De.inode ≠ 0 ∧ buf.getField off De.nameLen > 0
    · rw [if_pos hlive, if_pos hlive]
      by_cases hmax : items.length ≥ ext4HtreeSplitMaxNames
      · rw [if_pos hmax, if_pos hmax]
        rfl
      · rw [if_neg hmax, if_neg hmax]
        exact ih
    · rw [if_neg hlive, if_neg hlive]
      exact ih

/-! ### The records of a block -/

/-- The offsets of the records that a loop comes to. -/
def records (buf : Buf) (bs : ℕ) : ℕ → ℕ → List ℕ
  | 0, _ => []
  | fuel + 1, off =>
    if off < bs then
      off :: if buf.getField off De.recLen = 0 then [] else records buf bs fuel (off + buf.getField off De.recLen)
    else []

/-- What is read of the header of the record at `o` is inside the block, and so is the name of a live one
that has a length. -/
def RecordInside (buf : Buf) (bs o : ℕ) : Prop :=
  o + De.fileType.off ≤ bs ∧ (buf.getField o De.recLen ≠ 0 → buf.getField o De.inode ≠ 0 →
    0 < buf.getField o De.nameLen → o + De.name + buf.getField o De.nameLen ≤ bs)

/-- All records that begin in the block are inside. -/
def RecordsInside (buf : Buf) (bs : ℕ) : Prop := ∀ o ∈ records buf bs bs 0, RecordInside buf bs o

instance : DecidablePred (RecordInside buf bs) := fun _ ↦ inferInstanceAs (Decidable (_ ∧ _))

instance : Decidable (RecordsInside buf bs) := inferInstanceAs (Decidable (∀ o ∈ _, _))

/-! ### Where they stay -/

section

variable {visit : σ → ℕ → ℕ → ℕ → ℕ → Touch (ρ ⊕ σ)} {zero done : σ → ρ} {s : σ}

/-- A record is at least one byte long, so `block_size` steps are enough. -/
theorem walk_eq_of_le {fuel' : ℕ} (h : bs ≤ off + fuel) (h' : bs ≤ off + fuel') :
    walk visit zero done buf bs fuel off s = walk visit zero done buf bs fuel' off s := by
  induction fuel generalizing off s fuel' with
  | zero =>
    cases fuel' with
    | zero => rfl
    | succ fuel' => exact (if_neg (by omega)).symm
  | succ fuel ih =>
    cases fuel' with
    | zero => exact if_neg (by omega)
    | succ fuel' =>
      unfold walk
      refine if_congr Iff.rfl (bind_congr' (bind_congr' (bind_congr' ?_))) rfl
      by_cases hrec : (field buf off De.recLen).val = 0
      · rw [if_pos hrec, if_pos hrec]
      · rw [if_neg hrec, if_neg hrec]
        refine bind_congr' ?_
        split
        · rfl
        · exact ih (by omega) (by omega)

/-- What a step touches: the header, and what the body does. -/
theorem within_walk_succ (hoff : off < bs) : (walk visit zero done buf bs (fuel + 1) off s).Within bs ↔
    off + De.fileType.off ≤ bs ∧ (buf.getField off De.recLen ≠ 0 →
      (visit s off (buf.getField off De.recLen) (buf.getField off De.nameLen)
        (buf.getField off De.inode)).Within bs ∧
      ∀ s', (visit s off (buf.getField off De.recLen) (buf.getField off De.nameLen)
        (buf.getField off De.inode)).val = .inr s' →
          (walk visit zero done buf bs fuel (off + buf.getField off De.recLen) s').Within bs) := by
  have hheader : (off + De.recLen.off + De.recLen.size ≤ bs ∧ off + De.nameLen.off + De.nameLen.size ≤ bs ∧
      off + De.inode.off + De.inode.size ≤ bs) ↔ off + De.fileType.off ≤ bs := by
    simp only [De.recLen, De.nameLen, De.inode, De.fileType]
    omega
  rw [walk, if_pos hoff, within_bind, within_bind, within_bind, within_field (by decide), within_field (by decide),
    within_field (by decide), ← and_assoc, ← and_assoc, @and_assoc (off + De.recLen.off + _ ≤ bs), hheader]
  refine and_congr_right fun _ ↦ ?_
  by_cases hrec : (field buf off De.recLen).val = 0
  · rw [if_pos hrec]
    exact iff_of_true (within_pure _) fun hne ↦ absurd hrec hne
  · rw [if_neg hrec, within_bind]
    refine Iff.trans ?_ (forall_prop_of_true (show buf.getField off De.recLen ≠ 0 from hrec)).symm
    refine and_congr_right fun _ ↦ ?_
    simp only [val_field]
    cases (visit s off (buf.getField off De.recLen) (buf.getField off De.nameLen)
      (buf.getField off De.inode)).val with
    | inl r => exact iff_of_true (within_pure r) fun _ h ↦ by simp at h
    | inr s' => exact ⟨fun h _ heq ↦ Sum.inr.inj heq ▸ h, fun h ↦ h s' rfl⟩

/-- Where all records are inside, a loop is whose body stays inside a record that is. -/
theorem walk_within {Inv : σ → Prop}
    (hvisit : ∀ s off, Inv s → RecordInside buf bs off → buf.getField off De.recLen ≠ 0 →
      (visit s off (buf.getField off De.recLen) (buf.getField off De.nameLen)
        (buf.getField off De.inode)).Within bs ∧
      ∀ s', (visit s off (buf.getField off De.recLen) (buf.getField off De.nameLen)
        (buf.getField off De.inode)).val = .inr s' → Inv s')
    (hs : Inv s) (hall : ∀ o ∈ records buf bs fuel off, RecordInside buf bs o) :
    (walk visit zero done buf bs fuel off s).Within bs := by
  induction fuel generalizing off s with
  | zero => exact within_pure _
  | succ fuel ih =>
    by_cases hoff : off < bs
    · unfold records at hall
      rw [if_pos hoff] at hall
      have hself := hall off (List.mem_cons_self ..)
      refine (within_walk_succ hoff).2 ⟨hself.1, fun hrec ↦ ?_⟩
      obtain ⟨hbody, hinv⟩ := hvisit s off hs hself hrec
      rw [if_neg hrec] at hall
      exact ⟨hbody, fun s' hs' ↦ ih (hinv s' hs') fun o ho ↦ hall o (List.mem_cons_of_mem off ho)⟩
    · unfold walk
      rw [if_neg hoff]
      exact within_pure _

end

theorem nameMatches_within (h : RecordInside buf bs off) (hrec : buf.getField off De.recLen ≠ 0)
    (hname : name ≠ []) :
    (nameMatches name buf off (buf.getField off De.nameLen) (buf.getField off De.inode)).Within bs := by
  unfold nameMatches
  split
  · rename_i hc
    have hpos := List.length_pos_iff.2 hname
    have := h.2 hrec hc.1 (by omega)
    exact within_memcmpEq buf (by omega)
  · exact within_pure _

theorem findWalk_within (h : RecordsInside buf bs) (hname : name ≠ []) :
    (findWalk bs name buf bs 0).Within bs := by
  refine @walk_within _ _ _ _ _ _ _ _ _ _ (fun _ ↦ True) (fun _ off _ hin hrec ↦ ⟨?_, fun _ _ ↦ trivial⟩) trivial h
  refine (nameMatches_within hin hrec hname).bind ?_
  split <;> exact within_pure _

/-- The record before the one that is removed is inside too. -/
theorem removeWalk_within (h : RecordsInside buf bs) (hname : name ≠ []) :
    (removeWalk bs name buf bs 0 none).Within bs := by
  refine @walk_within _ _ _ _ _ _ _ _ _ _ (fun prev ↦ ∀ p ∈ prev, p + De.fileType.off ≤ bs)
    (fun prev off hprev hin hrec ↦ ⟨(nameMatches_within hin hrec hname).bind ?_, fun s' hs' ↦ ?_⟩) (by simp) h
  · by_cases hfound : entryIs buf off name = true
    · rw [val_nameMatches, if_pos hfound]
      refine Within.bind ?_ (within_pure _)
      unfold unlinkWalk
      cases prev with
      | none =>
        obtain ⟨hlive, hlen, -⟩ :
            buf.getField off De.inode ≠ 0 ∧ buf.getField off De.nameLen = name.length ∧ _ := by
          simpa [entryIs] using hfound
        have hpos := List.length_pos_iff.2 hname
        have hend := hin.2 hrec hlive (by omega)
        simp only [De.name] at hend
        refine ((within_touch (by decide)).2 ?_).bind
          (((within_touch (by decide)).2 ?_).bind (((within_touch (by decide)).2 ?_).bind (within_pure _))) <;>
          simp only [De.inode, De.nameLen, De.fileType] <;> omega
      | some p =>
        have hp := hprev p rfl
        simp only [De.fileType] at hp
        refine ((within_field (by decide)).2 ?_).bind (((within_touch (by decide)).2 ?_).bind (within_pure _)) <;>
          simp only [De.recLen] <;> omega
    · rw [val_nameMatches, if_neg hfound]
      exact within_pure _
  · rw [val_bind, val_nameMatches] at hs'
    split at hs'
    · rw [val_bind] at hs'
      simp at hs'
    · obtain rfl := Sum.inr.inj hs'
      simpa using hin.1

theorem foreachWalk_within (h : RecordsInside buf bs) (filldir : σ → List Byte → ℕ → Bool × σ) (ctx : σ) :
    (foreachWalk filldir bs buf bs 0 ctx).Within bs := by
  refine @walk_within _ _ _ _ _ _ _ _ _ _ (fun _ ↦ True) (fun _ off _ hin hrec ↦ ⟨?_, fun _ _ ↦ trivial⟩) trivial h
  split
  · rename_i hlive
    refine ((within_touch hlive.2).2 (hin.2 hrec hlive.1 hlive.2)).bind ?_
    dsimp only
    split <;> exact within_pure _
  · exact within_pure _

theorem leafCollectWalk_within (h : RecordsInside buf bs) (hash32 : List Byte → ℕ) :
    (leafCollectWalk hash32 buf bs bs 0 []).Within bs := by
  refine @walk_within _ _ _ _ _ _ _ _ _ _ (fun _ ↦ True) (fun _ off _ hin hrec ↦ ⟨?_, fun _ _ ↦ trivial⟩) trivial h
  split
  · rename_i hlive
    split
    · exact within_pure _
    · exact ((within_touch hlive.2).2 (hin.2 hrec hlive.1 hlive.2)).bind (within_pure _)
  · exact within_pure _

/-- A callback that never stops is handed all names. -/
theorem records_inside_of_foreach
    (h : (foreachWalk (fun _ _ _ ↦ (false, ())) bs buf fuel off ()).Within bs) :
    ∀ o ∈ records buf bs fuel off, RecordInside buf bs o := by
  induction fuel generalizing off with
  | zero => simp [records]
  | succ fuel ih =>
    unfold records
    split
    swap
    · simp
    rename_i hoff
    obtain ⟨hheader, hbody⟩ := (within_walk_succ hoff).1 h
    have hnext : buf.getField off De.recLen ≠ 0 →
        (foreachWalk (fun _ _ _ ↦ (false, ())) bs buf fuel (off + buf.getField off De.recLen) ()).Within bs := by
      refine fun hrec ↦ (hbody hrec).2 () ?_
      split <;> rfl
    intro o ho
    rcases List.mem_cons.1 ho with rfl | ho
    · refine ⟨hheader, fun hrec hlive hlen ↦ ?_⟩
      have htouch := (hbody hrec).1
      rw [if_pos ⟨hlive, hlen⟩, within_bind] at htouch
      exact (within_touch hlen).1 htouch.1
    · split at ho
      · simp at ho
      · exact ih (hnext (by assumption)) o ho

/-- A loop ends after at most `block_size` steps and touches the block only. -/
def StaysInside {α : Type} (bs : ℕ) (loop : ℕ → Touch α) : Prop :=
  (∀ fuel, bs ≤ fuel → loop fuel = loop bs) ∧ (loop bs).Within bs

/-- The loops over a block with what a search for a name, any callback and any hash can do. -/
structure ParsersInside (buf : Buf) (bs : ℕ) (name : List Byte) : Prop where
  findEntry : StaysInside bs fun fuel ↦ findWalk bs name buf fuel 0
  removeEntry : StaysInside bs fun fuel ↦ removeWalk bs name buf fuel 0 none
  foreach : ∀ (σ : Type) (filldir : σ → List Byte → ℕ → Bool × σ) (ctx : σ),
    StaysInside bs fun fuel ↦ foreachWalk filldir bs buf fuel 0 ctx
  leafCollect : ∀ hash32, StaysInside bs fun fuel ↦ leafCollectWalk hash32 buf bs fuel 0 []

/-- **The loops stay inside the block exactly where the records that begin in it do.** -/
theorem parsersInside_iff (buf : Buf) (bs : ℕ) {name : List Byte} (hname : name.length ∈ Set.Icc 1 255) :
    ParsersInside buf bs name ↔ RecordsInside buf bs := by
  have hne : name ≠ [] := fun h ↦ by simp [h] at hname
  constructor
  · exact fun h ↦ records_inside_of_foreach (h.foreach _ _ _).2
  · intro h
    exact {
      findEntry := ⟨fun fuel hf ↦ walk_eq_of_le (by omega) (by omega), findWalk_within h hne⟩
      removeEntry := ⟨fun fuel hf ↦ walk_eq_of_le (by omega) (by omega), removeWalk_within h hne⟩
      foreach := fun _ filldir ctx ↦
        ⟨fun fuel hf ↦ walk_eq_of_le (by omega) (by omega), foreachWalk_within h filldir ctx⟩
      leafCollect := fun hash32 ↦
        ⟨fun fuel hf ↦ walk_eq_of_le (by omega) (by omega), leafCollectWalk_within h hash32⟩ }

/-- A block whose second record has four bytes of its header in the block. -/
def cutHeader : Buf := Buf.zero.setField 0 De.recLen 1020

theorem parsersInside_iff_cutHeader : ParsersInside cutHeader 1024 [97] ↔ RecordsInside cutHeader 1024 :=
  parsersInside_iff cutHeader 1024 (by simp)

theorem not_parsersInside_cutHeader : ¬ ∀ (buf : Buf) (bs : ℕ) (name : List Byte), name.length ∈ Set.Icc 1 255 →
    ParsersInside buf bs name := by
  intro hall
  have hinside : RecordsInside cutHeader 1024 :=
    records_inside_of_foreach ((hall cutHeader 1024 [97] (by simp)).foreach _ _ _).2
  exact absurd hinside (by decide +kernel)

end DirWalk

end MiniExt4
