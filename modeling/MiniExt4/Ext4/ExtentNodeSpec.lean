import MiniExt4.Ext4.ExtentInsert
import MiniExt4.Ext4.ExtentNode

/-!
# What the operations on a node do to its entries

`IsNode v depth max l eh` says that the buffer `eh` is a node with the entries `l`, seen through `v`:
as extents or as index entries. The operations of `fs/ext4/extents.c` on the bytes of a node are
operations on this list.

Extents and index entries are two instances of `RecordView` with the same places for the keys, so most of
the lemmas are stated for a view and used twice. A header is kept apart from the entries (`Header.congr`),
because the functions set the count first and move the entries afterwards, or the other way round.
-/

namespace MiniExt4

open Buf (RecordView)

namespace Node

/-! ### Entries -/

/-- A 48-bit number from its two parts. -/
theorem parts_48 {v : ℕ} (h : v < 2 ^ 48) : v / 2 ^ 32 % 256 ^ 2 * 2 ^ 32 + v % 256 ^ 4 = v := by
  omega

/-- The entries of a leaf. -/
def extentView : RecordView Extent extEntrySize extEntrySize where
  get := extentAt
  set := setExtent
  Fits ex := ex.eeBlock < 2 ^ 32 ∧ ex.eeLen < 2 ^ 16 ∧ ex.eeStart < 2 ^ 48
  fits_get b i := by
    have hhi := b.getField_lt (entryOff i) Ee.startHi
    have hlo := b.getField_lt (entryOff i) Ee.startLo
    refine ⟨b.getField_lt (entryOff i) Ee.block, b.getField_lt (entryOff i) Ee.len, ?_⟩
    simp only [extentAt, Ee.startHi, Ee.startLo] at hhi hlo ⊢
    omega
  get_congr h := by
    unfold extentAt entryOff
    rw [Buf.getField_record_congr (by decide) h, Buf.getField_record_congr (by decide) h,
      Buf.getField_record_congr (by decide) h, Buf.getField_record_congr (by decide) h]
  get_set_self b i ex hfit := by
    obtain ⟨hblock, hlen, hstart⟩ := hfit
    have hb : ex.eeBlock % 256 ^ 4 = ex.eeBlock := Nat.mod_eq_of_lt (by omega)
    have hl : ex.eeLen % 256 ^ 2 = ex.eeLen := Nat.mod_eq_of_lt (by omega)
    unfold extentAt setExtent
    simp (disch := decide) only [Buf.getField_setField_of_disjoint, Buf.getField_setField_self]
    simp only [Ee.block, Ee.len, Ee.startHi, Ee.startLo, hb, hl, parts_48 hstart]
  set_outside b i ex o ho := by
    have hout : ∀ (c : Buf) {f : Buf.Field} (v : ℕ), f.off + f.size ≤ extEntrySize →
        c.setField (entryOff i) f v o = c o := fun c f v hf ↦
      Buf.setField_outside_record c v hf ho
    unfold setExtent
    rw [hout _ _ (by decide), hout _ _ (by decide), hout _ _ (by decide), hout _ _ (by decide)]

/-- The entries of an index node. -/
def idxView : RecordView ExtentIdx extEntrySize extEntrySize where
  get := idxAt
  set := setIdx
  Fits ix := ix.eiBlock < 2 ^ 32 ∧ ix.eiLeaf < 2 ^ 48
  fits_get b i := by
    have hhi := b.getField_lt (entryOff i) Ei.leafHi
    have hlo := b.getField_lt (entryOff i) Ei.leafLo
    refine ⟨b.getField_lt (entryOff i) Ei.block, ?_⟩
    simp only [idxAt, Ei.leafHi, Ei.leafLo] at hhi hlo ⊢
    omega
  get_congr h := by
    unfold idxAt entryOff
    rw [Buf.getField_record_congr (by decide) h, Buf.getField_record_congr (by decide) h,
      Buf.getField_record_congr (by decide) h]
  get_set_self b i ix hfit := by
    obtain ⟨hblock, hleaf⟩ := hfit
    have hb : ix.eiBlock % 256 ^ 4 = ix.eiBlock := Nat.mod_eq_of_lt (by omega)
    unfold idxAt setIdx
    simp (disch := decide) only [Buf.getField_setField_of_disjoint, Buf.getField_setField_self]
    simp only [Ei.block, Ei.leafLo, Ei.leafHi, hb, parts_48 hleaf]
  set_outside b i ix o ho := by
    have hout : ∀ (c : Buf) {f : Buf.Field} (v : ℕ), f.off + f.size ≤ extEntrySize →
        c.setField (entryOff i) f v o = c o := fun c f v hf ↦
      Buf.setField_outside_record c v hf ho
    unfold setIdx
    rw [hout _ _ (by decide), hout _ _ (by decide), hout _ _ (by decide), hout _ _ (by decide)]

/-! ### Nodes -/

/-- The header of a node: its depth, and the number of entries there is room for and there are. -/
structure Header (eh : Buf) (d m n : ℕ) : Prop where
  magic : magic eh = ext4ExtMagic
  depth : depth eh = d
  max : max eh = m
  entries : entries eh = n

/-- A node with the entries `l`. -/
structure IsNode {α : Type} (v : RecordView α extEntrySize extEntrySize) (d m : ℕ) (l : List α)
    (eh : Buf) : Prop where
  header : Header eh d m l.length
  list : v.list eh l.length = l

variable {α : Type} {v : RecordView α extEntrySize extEntrySize} {d m n : ℕ} {l r : List α} {a x : α}
  {eh eh' : Buf}

/-- The header is in the bytes before the entries. -/
theorem Header.congr (h : Header eh d m n)
    (hle : ∀ o k, o + k ≤ extEntrySize → eh'.le o k = eh.le o k) : Header eh' d m n := by
  obtain ⟨hmagic, hdepth, hmax, hentries⟩ := h
  exact ⟨(hle _ _ (by decide)).trans hmagic, (hle _ _ (by decide)).trans hdepth,
    (hle _ _ (by decide)).trans hmax, (hle _ _ (by decide)).trans hentries⟩

theorem Header.setEntries (h : Header eh d m n) {k : ℕ} (hk : k < 2 ^ 16) :
    Header (setEntries eh k) d m k := by
  obtain ⟨hmagic, hdepth, hmax, hentries⟩ := h
  have hd : Eh.magic.Disjoint Eh.entries ∧ Eh.depth.Disjoint Eh.entries ∧
    Eh.max.Disjoint Eh.entries := by decide
  refine ⟨(Buf.getField_setField_of_disjoint _ _ _ hd.1).trans hmagic,
    (Buf.getField_setField_of_disjoint _ _ _ hd.2.1).trans hdepth,
    (Buf.getField_setField_of_disjoint _ _ _ hd.2.2).trans hmax, ?_⟩
  rw [Node.entries, Node.setEntries, Buf.getField_setField_self]
  exact Nat.mod_eq_of_lt hk

theorem list_setEntries (eh : Buf) (k n : ℕ) : v.list (setEntries eh k) n = v.list eh n :=
  v.list_congr fun o ho _ ↦ Buf.setField_of_le (by
    have : 0 + Eh.entries.off + Eh.entries.size ≤ extEntrySize := by decide
    omega)

/-- The entries are those counted. -/
theorem IsNode.of_entries (h : Header eh d m n) (hl : v.list eh l.length = l)
    (hlen : l.length < 2 ^ 16) : IsNode v d m l (setEntries eh l.length) :=
  ⟨h.setEntries hlen, by rw [list_setEntries, hl]⟩

theorem IsNode.length_lt (h : IsNode v d m l eh) : l.length < 2 ^ 16 := by
  rw [← h.header.entries]
  exact Buf.getField_lt eh 0 Eh.entries

theorem IsNode.congr (h : IsNode v d m l eh)
    (heq : ∀ o < entryOff l.length, eh' o = eh o) : IsNode v d m l eh' := by
  have hoff : extEntrySize ≤ entryOff l.length := Nat.le_add_right _ _
  refine ⟨h.header.congr fun o k hk ↦ Buf.le_congr fun i _ hi ↦ heq i (by omega), ?_⟩
  rw [v.list_congr fun o _ ho ↦ heq o ho, h.list]

theorem IsNode.clip (h : IsNode v d m l eh) (hn : entryOff l.length ≤ n) :
    IsNode v d m l (Buf.clip n eh) := h.congr fun _ ho ↦ Buf.clip_of_lt _ (by omega)

/-- A new node has no entries. -/
theorem isNode_init (v : RecordView α extEntrySize extEntrySize) (eh : Buf) {bytes : ℕ}
    (hd : d < 2 ^ 16) (hmax : bytes ≤ 2 ^ 16) :
    IsNode v d ((bytes - extEntrySize) / extEntrySize) [] (ext4ExtentsInitNode eh bytes d) := by
  have hdepth : d % 256 ^ 2 = d := Nat.mod_eq_of_lt (by omega)
  have hroom : (bytes - extEntrySize) / extEntrySize % 256 ^ 2 =
      (bytes - extEntrySize) / extEntrySize := by
    have := Nat.div_le_self (bytes - extEntrySize) extEntrySize
    have : 0 < extEntrySize := by decide
    exact Nat.mod_eq_of_lt (by omega)
  refine ⟨⟨?_, ?_, ?_, ?_⟩, rfl⟩
  · unfold magic ext4ExtentsInitNode
    simp (disch := decide) only [Buf.getField_setField_of_disjoint, Buf.getField_setField_self]
    rfl
  · unfold depth ext4ExtentsInitNode
    simp (disch := decide) only [Buf.getField_setField_of_disjoint, Buf.getField_setField_self]
    exact hdepth
  · unfold max ext4ExtentsInitNode
    simp (disch := decide) only [Buf.getField_setField_self]
    exact hroom
  · unfold entries ext4ExtentsInitNode
    simp (disch := decide) only [Buf.getField_setField_of_disjoint, Buf.getField_setField_self]
    rfl

/-- What is put in at a place. -/
theorem IsNode.insert (h : IsNode v d m (l ++ r) eh) (ha : v.Fits a)
    (hlen : (l ++ r).length + 1 < 2 ^ 16) :
    IsNode v d m (l ++ a :: r) (setEntries (v.set (shiftUp eh l.length (l ++ r).length) l.length a)
      ((l ++ r).length + 1)) := by
  have hle : l.length ≤ (l ++ r).length := by simp
  have hlist := v.list_shiftUp_set eh hle ha
  rw [h.list, List.take_left, List.drop_left] at hlist
  have hcount : (l ++ a :: r).length = (l ++ r).length + 1 := by
    simp only [List.length_append, List.length_cons, Nat.add_assoc]
  rw [← hcount] at hlist hlen ⊢
  refine .of_entries (n := (l ++ r).length) (h.header.congr fun o k hk ↦ ?_) hlist hlen
  rw [v.le_set _ _ _ hk, Buf.le_shiftUp _ _ _ hk]

/-- What is stored in the place of another entry. -/
theorem IsNode.set (h : IsNode v d m (l ++ x :: r) eh) (ha : v.Fits a) :
    IsNode v d m (l ++ a :: r) (v.set eh l.length a) := by
  have hcount : (l ++ a :: r).length = (l ++ x :: r).length := by simp
  refine ⟨?_, ?_⟩
  · rw [hcount]
    exact h.header.congr fun o k hk ↦ v.le_set _ _ _ hk
  · rw [hcount, v.list_set _ ha, h.list, List.set_append_right _ _ le_rfl, Nat.sub_self,
      List.set_cons_zero]

/-- What is taken out. -/
theorem IsNode.erase (h : IsNode v d m (l ++ x :: r) eh) :
    IsNode v d m (l ++ r) (setEntries (shiftDown eh l.length (l ++ x :: r).length)
      ((l ++ x :: r).length - 1)) := by
  have hlt : l.length < (l ++ x :: r).length := by simp
  have hlist := v.list_shiftDown eh hlt
  have hcount : (l ++ x :: r).length - 1 = (l ++ r).length := by simp
  have hlen := h.length_lt
  rw [h.list, List.eraseIdx_append_of_length_le le_rfl, Nat.sub_self, List.eraseIdx_cons_zero,
    hcount] at hlist
  rw [hcount]
  refine .of_entries (h.header.congr fun o k hk ↦ Buf.le_shiftDown _ _ _ hk) hlist ?_
  rw [List.length_append] at hlt ⊢
  rw [List.length_append, List.length_cons] at hlen
  omega

/-- The entries of one node as those of another one. -/
theorem IsNode.copy (h : v.list eh (l ++ r).length = l ++ r) (h' : Header eh' d m n)
    (hlen : r.length < 2 ^ 16) :
    IsNode v d m r (setEntries (copyEntries eh' eh l.length r.length) r.length) := by
  have hlist := v.list_copyRecords eh' eh l.length (l ++ r).length
  have hcount : (l ++ r).length - l.length = r.length := by simp
  rw [h, List.drop_left, hcount] at hlist
  exact .of_entries (h'.congr fun o k hk ↦ Buf.le_copyRecords _ _ _ _ hk) hlist hlen

/-- All entries of a node in a new one. -/
theorem IsNode.copyAll (h : IsNode v d m l eh) (h' : Header eh' d n 0) :
    IsNode v d n l (copyEntries (setEntries eh' l.length) eh 0 l.length) := by
  have hlist := v.list_copyRecords (setEntries eh' l.length) eh 0 l.length
  rw [h.list, List.drop_zero] at hlist
  exact ⟨(h'.setEntries h.length_lt).congr fun o k hk ↦ Buf.le_copyRecords _ _ _ _ hk, hlist⟩

/-- A new node with two entries. -/
theorem isNode_pair {b : α} (h : Header eh d m 0) (ha : v.Fits a) (hb : v.Fits b) :
    IsNode v d m [a, b] (v.set (v.set (setEntries eh 2) 0 a) 1 b) := by
  refine ⟨(h.setEntries (by norm_num)).congr fun o k hk ↦ ?_, ?_⟩
  · rw [v.le_set _ _ _ hk, v.le_set _ _ _ hk]
    rfl
  · have hzero : v.list (v.set (setEntries eh 2) 0 a) 1 = [a] := by
      simp [RecordView.list, v.get_set_self _ _ ha]
    rw [List.length_cons, List.length_singleton, v.list_succ, v.list_set_of_le _ _ le_rfl, hzero,
      v.get_set_self _ _ hb]
    rfl

/-- How the entries `l`, `a` and `r` of a full node are cut: after `a`, or before it if it is the
last. -/
def Cut (l : List α) (a : α) (r ls rs : List α) : Prop :=
  r = [] ∧ ls = l ∧ rs = [a] ∨ r ≠ [] ∧ ls = l ++ [a] ∧ rs = r

theorem Cut.append_eq {ls rs : List α} (h : Cut l a r ls rs) : ls ++ rs = l ++ a :: r := by
  rcases h with ⟨rfl, rfl, rfl⟩ | ⟨-, rfl, rfl⟩
  · rfl
  · rw [List.append_assoc, List.singleton_append]

/-- **A full node is cut in two.** -/
theorem IsNode.cutAt (h : IsNode v d m (l ++ r) eh) (ha : v.Fits a) {bytes : ℕ} {key : α → ℕ}
    (hkey : ∀ b i, key (v.get b i) = keyAt b i) (hd : d < 2 ^ 16) (hmax : bytes ≤ 2 ^ 16)
    (hlen : l.length + 1 < 2 ^ 16) {left right : Buf} {k : ℕ}
    (hcut : Node.cutAt v.set key eh bytes d l.length (l ++ r).length a = (left, right, k)) :
    ∃ ls y rs, Cut l a r ls (y :: rs) ∧ k = key y ∧ IsNode v d m ls left ∧
      IsNode v d ((bytes - extEntrySize) / extEntrySize) (y :: rs) right := by
  have hinit := isNode_init v Buf.zero hd hmax
  cases r with
  | nil =>
    rw [Node.cutAt, if_pos (by simp)] at hcut
    obtain ⟨rfl, rfl, rfl⟩ := hcut
    refine ⟨l, a, [], .inl ⟨rfl, rfl, rfl⟩, rfl, by simpa using h, ?_⟩
    have hset : v.list (v.set (ext4ExtentsInitNode Buf.zero bytes d) 0 a) [a].length = [a] := by
      simp [RecordView.list, v.get_set_self _ _ ha]
    exact .of_entries (hinit.header.congr fun o k hk ↦ v.le_set _ _ _ hk) hset (by simp)
  | cons b r =>
    rw [Node.cutAt, if_neg (by simp)] at hcut
    obtain ⟨rfl, rfl, rfl⟩ := hcut
    have hcount : (l ++ b :: r).length - l.length = (b :: r).length := by simp
    have hlt := h.length_lt
    rw [List.length_append] at hlt
    have hright := IsNode.copy h.list hinit.header (show (b :: r).length < 2 ^ 16 by omega)
    rw [hcount]
    refine ⟨l ++ [a], b, r, .inr ⟨by simp, rfl, rfl⟩, ?_, ?_, hright⟩
    · rw [← hkey, v.get_zero_of_list hright.list]
    · have hprefix : v.list eh l.length = l := by
        rw [v.list_take eh (show l.length ≤ (l ++ b :: r).length by simp), h.list, List.take_left]
      have hleft : v.list (v.set (clearEntries (setEntries eh l.length) l.length (max eh)) l.length a)
          (l ++ [a]).length = l ++ [a] := by
        rw [List.length_append, List.length_singleton, v.list_succ, v.list_set_of_le _ _ le_rfl,
          v.get_set_self _ _ ha, v.list_clearRecords, list_setEntries, hprefix]
      have hhead := h.header.setEntries (show l.length < 2 ^ 16 by omega)
      have hone : (l ++ [a]).length = l.length + 1 := by simp
      rw [← hone] at hlen ⊢
      refine .of_entries (hhead.congr fun o k hk ↦ ?_) hleft hlen
      rw [v.le_set _ _ _ hk, Buf.le_clearRecords _ _ _ hk]

/-! ### Places -/

theorem IsNode.get_eq (h : IsNode v d m l eh) {i : ℕ} (hi : i < l.length) : v.get eh i = l[i] := by
  have hget := v.getElem?_list eh hi
  rw [h.list, List.getElem?_eq_getElem hi] at hget
  exact (Option.some.inj hget).symm

theorem IsNode.get_at (h : IsNode v d m (l ++ a :: r) eh) : v.get eh l.length = a := by
  rw [h.get_eq (show l.length < (l ++ a :: r).length by simp)]
  simp

theorem IsNode.mem_fits (h : IsNode v d m l eh) (ha : a ∈ l) : v.Fits a :=
  v.fits_of_mem (h.list ▸ ha)

/-- The search from the end stops after the last key that is not above. -/
theorem insertPos_eq {k pos n : ℕ} (hn : pos ≤ n) (hle : 0 < pos → keyAt eh (pos - 1) ≤ k)
    (hgt : ∀ i, pos ≤ i → i < n → k < keyAt eh i) : insertPos eh k n = pos := by
  induction n with
  | zero => rw [insertPos, Nat.le_zero.1 hn]
  | succ n ih =>
    rw [insertPos]
    rcases Nat.lt_or_ge n pos with hlt | hge
    · obtain rfl : pos = n + 1 := by omega
      have := hle (by omega)
      rw [if_neg (by rw [Nat.add_sub_cancel] at this; omega)]
    · rw [if_pos (hgt n hge (by omega)), ih hge fun i hi hlt ↦ hgt i hi (by omega)]

/-- The search from the start stops at the first key that is above. -/
theorem firstAbove_eq {k j pos n : ℕ} (hj : j ≤ pos) (hn : pos ≤ j + n)
    (hle : ∀ i, j ≤ i → i < pos → keyAt eh i ≤ k) (hgt : pos < j + n → k < keyAt eh pos) :
    firstAbove eh k j n = pos := by
  induction n generalizing j with
  | zero =>
    rw [firstAbove]
    omega
  | succ n ih =>
    rw [firstAbove]
    rcases Nat.lt_or_ge j pos with hlt | hge
    · have := hle j le_rfl hlt
      rw [if_neg (by omega)]
      exact ih hlt (by omega) (fun i hi hip ↦ hle i (by omega) hip) fun h ↦ hgt (by omega)
    · obtain rfl : j = pos := by omega
      rw [if_pos (hgt (by omega))]

variable {key : α → ℕ} {k : ℕ}

theorem IsNode.insertPos (h : IsNode v d m (l ++ r) eh)
    (hkey : ∀ b i, key (v.get b i) = keyAt b i) (hl : ∀ a ∈ l, key a ≤ k)
    (hr : ∀ b ∈ r, k < key b) : insertPos eh k (l ++ r).length = l.length := by
  refine insertPos_eq (by simp) (fun hpos ↦ ?_) fun i hi hlt ↦ ?_
  · rw [← hkey, h.get_eq (by simp; omega), List.getElem_append_left (by omega)]
    exact hl _ (List.getElem_mem _)
  · rw [← hkey, h.get_eq hlt, List.getElem_append_right hi]
    exact hr _ (List.getElem_mem _)

theorem IsNode.firstAbove (h : IsNode v d m (l ++ r) eh)
    (hkey : ∀ b i, key (v.get b i) = keyAt b i) (hl : ∀ a ∈ l, key a ≤ k)
    (hr : ∀ b ∈ r, k < key b) : firstAbove eh k 0 (l ++ r).length = l.length := by
  refine firstAbove_eq (Nat.zero_le _) (by simp) (fun i _ hlt ↦ ?_) fun hlt ↦ ?_
  · rw [← hkey, h.get_eq (by simp; omega), List.getElem_append_left hlt]
    exact hl _ (List.getElem_mem _)
  · rw [Nat.zero_add] at hlt
    rw [← hkey, h.get_eq hlt, List.getElem_append_right le_rfl]
    exact hr _ (List.getElem_mem _)

end Node

/-! ### Searching -/

/-- The loop finds the one extent that has the block. -/
theorem findExtent_eq_some_iff {t : List Extent} {x : ℕ} {e : Extent}
    (hsorted : t.Pairwise fun a b ↦ a.stop ≤ b.eeBlock)
    (hok : ∀ e ∈ t, 0 < e.eeLen ∧ e.stop < 2 ^ 32) :
    findExtent x t = some e ↔ e ∈ t ∧ e.eeBlock ≤ x ∧ x < e.stop := by
  induction t with
  | nil => simp [findExtent]
  | cons a t ih =>
    obtain ⟨hpos, hstop⟩ := hok a (by simp)
    obtain ⟨ha, ht⟩ := List.pairwise_cons.1 hsorted
    rw [findExtent, if_neg (by omega), show a.eeBlock + a.eeLen = a.stop from rfl,
      u32_of_lt hstop]
    by_cases hin : a.eeBlock ≤ x ∧ x < a.stop
    · rw [if_pos hin]
      refine ⟨fun h ↦ ?_, fun ⟨he, hle, hlt⟩ ↦ ?_⟩
      · obtain rfl : a = e := by simpa using h
        exact ⟨by simp, hin⟩
      · rcases List.mem_cons.1 he with rfl | he
        · rfl
        · have := ha e he
          omega
    · rw [if_neg hin]
      by_cases habove : a.eeBlock > x
      · rw [if_pos habove]
        refine ⟨by simp, fun ⟨he, hle, hlt⟩ ↦ ?_⟩
        rcases List.mem_cons.1 he with rfl | he
        · omega
        · have := ha e he
          unfold Extent.stop at this
          omega
      · rw [if_neg habove, ih ht fun e he ↦ hok e (List.mem_cons_of_mem _ he)]
        refine ⟨fun ⟨he, h⟩ ↦ ⟨List.mem_cons_of_mem _ he, h⟩, fun ⟨he, h⟩ ↦ ⟨?_, h⟩⟩
        rcases List.mem_cons.1 he with rfl | he
        · exact absurd h hin
        · exact he

/-- The loop over an index node is a lookup. -/
theorem chooseIdx_eq {l : List ExtentIdx} {a : ExtentIdx} {x : ℕ} :
    some (chooseIdx x a l) = Keyed.locate ExtentIdx.eiBlock x (a :: l) := by
  induction l generalizing a with
  | nil => rfl
  | cons b l ih =>
    rw [chooseIdx, Keyed.locate]
    by_cases hb : b.eiBlock ≤ x
    · rw [if_pos hb, if_neg (by omega), ih]
    · rw [if_neg hb, if_pos (by omega)]

/-! ### Inserting -/

namespace ExtInsert

open Node

variable {m : ℕ} {l r : List Extent} {ex : Extent} {eh : Buf}

theorem joins_iff {a b : Extent} (ha : a.stop < 2 ^ 32) :
    (u32 (a.eeBlock + a.eeLen) = b.eeBlock ∧ a.eeStart + a.eeLen = b.eeStart ∧
      a.eeLen + b.eeLen ≤ ext4ExtInitMaxLen) ↔ a.Joins b := by
  rw [show a.eeBlock + a.eeLen = a.stop from rfl, u32_of_lt ha]
  rfl

theorem fits_join {a b : Extent} (ha : extentView.Fits a) (h : a.Joins b) :
    extentView.Fits (a.join b) := by
  obtain ⟨hblock, -, hstart⟩ := ha
  refine ⟨hblock, ?_, hstart⟩
  have hlen : a.eeLen + b.eeLen ≤ 0x7fff := h.2.2
  show a.eeLen + b.eeLen < 2 ^ 16
  omega

/-- Merged to the left, the new extent is joined with its left neighbour, and that with its right
neighbour if it can be. -/
theorem mergeLeft_spec {a : Extent} (h : IsNode extentView 0 m (l ++ a :: r) eh)
    (hjoins : a.Joins ex) (hstop : ex.stop < 2 ^ 32) :
    ∃ t, IsNode extentView 0 m t (mergeLeft eh ex (l.length + 1)) ∧ Joined (l ++ a :: ex :: r) t ∧
      t.length ≤ (l ++ a :: r).length := by
  have ha : extentAt eh l.length = a := h.get_at
  have hfit := fits_join (h.mem_fits (show a ∈ l ++ a :: r by simp)) hjoins
  have hset := h.set hfit
  have hstep : Joined (l ++ a :: ex :: r) (l ++ a.join ex :: r) := .single (.mk l r hjoins)
  have hn : entries (setExtent eh l.length (a.join ex)) = (l ++ a.join ex :: r).length :=
    hset.header.entries
  have hjoin : ({ a with eeLen := a.eeLen + ex.eeLen } : Extent) = a.join ex := rfl
  unfold mergeLeft
  simp only [Nat.add_sub_cancel, ha, hjoin, hn]
  cases r with
  | nil =>
    rw [if_neg (by simp)]
    exact ⟨_, hset, hstep, by simp⟩
  | cons b r =>
    have hb : extentAt (setExtent eh l.length (a.join ex)) (l.length + 1) = b := by
      rw [List.append_cons] at hset
      have hget := hset.get_at
      rwa [List.length_append, List.length_singleton] at hget
    have hstop' : (a.join ex).stop < 2 ^ 32 := by rwa [hjoins.stop_join]
    simp only [hb]
    by_cases hjoins' : (a.join ex).Joins b
    · rw [if_pos ⟨by simp, (joins_iff hstop').2 hjoins'⟩]
      have hset' := hset.set (fits_join hfit hjoins')
      rw [List.append_cons] at hset'
      have herase := hset'.erase
      have hone : (l ++ [(a.join ex).join b]).length = l.length + 1 := by simp
      have hall : (l ++ [(a.join ex).join b] ++ b :: r).length =
        (l ++ a.join ex :: b :: r).length := by simp
      rw [hall, hone, ← List.append_cons] at herase
      exact ⟨_, herase, hstep.tail (.mk l r hjoins'), by simp⟩
    · rw [if_neg fun hcond ↦ hjoins' ((joins_iff hstop').1 hcond.2)]
      exact ⟨_, hset, hstep, by simp⟩

/-- Merged to the right, the new extent is joined with its right neighbour. -/
theorem mergeRight_spec {b : Extent} (h : IsNode extentView 0 m (l ++ b :: r) eh)
    (hex : extentView.Fits ex) (hjoins : ex.Joins b) :
    IsNode extentView 0 m (l ++ ex.join b :: r) (mergeRight eh ex l.length) := by
  have hb : extentAt eh l.length = b := h.get_at
  have hset := h.set (fits_join hex hjoins)
  unfold mergeRight
  simp only [hb, Nat.add_comm b.eeLen]
  exact hset

end ExtInsert

open Node ExtInsert in
/-- **A leaf takes in an extent unless it is full.** -/
theorem ext4ExtentsInsert_spec {m : ℕ} {l r : List Extent} {ex : Extent} {eh : Buf}
    (h : IsNode extentView 0 m (l ++ r) eh) (hroom : (l ++ r).length ≤ m) (hm : m < 2 ^ 16)
    (hl : ∀ e ∈ l, e.eeBlock ≤ ex.eeBlock) (hr : ∀ e ∈ r, ex.eeBlock < e.eeBlock)
    (hok : ∀ e ∈ l ++ r, e.stop < 2 ^ 32) (hex : extentView.Fits ex) (hstop : ex.stop < 2 ^ 32) :
    (∃ t eh', ext4ExtentsInsert eh ex = (true, eh') ∧ IsNode extentView 0 m t eh' ∧
      Joined (l ++ ex :: r) t ∧ t.length ≤ m) ∨
    ext4ExtentsInsert eh ex = (false, eh) ∧ (l ++ r).length = m := by
  have hkey : ∀ b i, Extent.eeBlock (extentView.get b i) = keyAt b i := fun _ _ ↦ rfl
  have hpos := h.insertPos hkey hl hr
  unfold ext4ExtentsInsert
  rw [if_neg (by rw [h.header.magic]; simp), h.header.entries, h.header.max, if_neg (by omega)]
  simp only [hpos]
  -- it may continue the extent on its left, or be continued by the one on its right
  by_cases hleft : l.length > 0 ∧ joinsLeft eh ex l.length = true
  · rw [if_pos hleft]
    obtain ⟨l, a, rfl⟩ := (List.eq_nil_or_concat' l).resolve_left (List.length_pos_iff.1 hleft.1)
    rw [List.append_assoc, List.singleton_append] at h hroom hok
    have ha : extentAt eh l.length = a := h.get_at
    have hjoins : a.Joins ex := by
      have hdec := hleft.2
      unfold joinsLeft at hdec
      simp only [List.length_append, List.length_singleton, Nat.add_sub_cancel, ha] at hdec
      exact (joins_iff (hok a (by simp))).1 (of_decide_eq_true hdec)
    obtain ⟨t, ht, hjoined, hlen⟩ := mergeLeft_spec h hjoins hstop
    rw [List.append_assoc, List.singleton_append, List.length_append, List.length_singleton]
    exact .inl ⟨t, _, rfl, ht, hjoined, hlen.trans hroom⟩
  rw [if_neg hleft]
  by_cases hright : l.length < (l ++ r).length ∧ joinsRight eh ex l.length = true
  · rw [if_pos hright]
    obtain ⟨b, r, rfl⟩ : ∃ b r', r = b :: r' := List.exists_cons_of_ne_nil fun hnil ↦ by
      simp [hnil] at hright
    have hb : extentAt eh l.length = b := h.get_at
    have hjoins : ex.Joins b := by
      have hdec := hright.2
      unfold joinsRight at hdec
      simp only [hb, Nat.add_comm b.eeLen] at hdec
      exact (joins_iff hstop).1 (of_decide_eq_true hdec)
    refine .inl ⟨_, _, rfl, mergeRight_spec h hex hjoins, .single (.mk l r hjoins), ?_⟩
    simpa using hroom
  rw [if_neg hright]
  -- otherwise it needs an entry of its own
  by_cases hfull : (l ++ r).length = m
  · exact .inr ⟨by rw [if_pos hfull], hfull⟩
  · rw [if_neg hfull]
    refine .inl ⟨_, _, rfl, h.insert hex (by omega), .refl, ?_⟩
    simp only [List.length_append, List.length_cons] at hroom hfull ⊢
    omega

end MiniExt4
