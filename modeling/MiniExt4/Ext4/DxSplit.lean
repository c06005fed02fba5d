import MiniExt4.Ext4.DirAlloc
import MiniExt4.Ext4.LeafSplit

/-!
# The index after a split

What the index of a directory says is a list of hashes and leaves, in the root or in the index nodes below
it. A split enters the new leaf behind the old one, in the root or in the node that has it
(`insertsEntry_iff`). Where the root is full its entries are copied to a new node, and with them goes the
number of entries the root had: the last entry of the list is lost.

A split is cut into the part that cares for the leaf and the new block, and the part that enters a pair into
the index (`ext4HtreeSplitLeaf_eq`). `LooksUp` is what a split asks of the block map: looking a block up
reads only, and finds a block in use. It holds of directories with extents as well as of those without. The
flat index and the one with nodes are two lemmas with one statement (`Indexed.insertsEntry_flat`,
`Indexed.insertsEntry_deep`), and the full root is the third case, in which the pair is not there afterwards
(`Indexed.not_insertsEntry`).
-/

namespace MiniExt4

open StateErr

variable {b c : Buf} {bs info idx n lblk hMid h₀ i k o : ℕ} {dx : DxIndex}

/-! ### The entries of an index block -/

/-- Entry `i` of an index block. The hash of the first one is not stored in it. -/
def dxEntry (b : Buf) (entries h₀ i : ℕ) : ℕ × ℕ :=
  (if i = 0 then h₀ else dxHash b entries i, dxBlock b entries i)

/-- The entries of an index block, in order. -/
def dxList (b : Buf) (dx : DxIndex) (h₀ : ℕ) : List (ℕ × ℕ) :=
  (List.range dx.nent).map (dxEntry b dx.entries h₀)

@[simp] theorem length_dxList (b : Buf) (dx : DxIndex) (h₀ : ℕ) : (dxList b dx h₀).length = dx.nent := by
  simp [dxList]

theorem getElem_dxList (hi : i < (dxList b dx h₀).length) :
    (dxList b dx h₀)[i] = dxEntry b dx.entries h₀ i := by
  simp [dxList]

/-- An entry depends on its own bytes, the first one on the last four of them. -/
theorem dxEntry_congr (h : ∀ j, o + 4 ≤ j → o + i * DxEntry.size ≤ j → j < o + (i + 1) * DxEntry.size → c j = b j) :
    dxEntry c o h₀ i = dxEntry b o h₀ i := by
  have hsize : DxEntry.size = 8 := rfl
  rw [hsize] at h
  unfold dxEntry
  congr 1
  · by_cases hi : i = 0
    · rw [if_pos hi, if_pos hi]
    · rw [if_neg hi, if_neg hi]
      refine Buf.getField_congr fun j hlo hlt ↦ h j ?_ ?_ ?_ <;>
        simp only [hsize, DxEntry.hash] at hlo hlt <;> omega
  · refine Buf.getField_congr fun j hlo hlt ↦ h j ?_ ?_ ?_ <;>
      simp only [hsize, DxEntry.block] at hlo hlt <;> omega

/-- The list depends on the entries without the first four bytes. -/
theorem dxList_congr (h : ∀ j, dx.entries + 4 ≤ j → j < dx.entries + dx.nent * DxEntry.size → c j = b j) :
    dxList c dx h₀ = dxList b dx h₀ := by
  refine List.map_congr_left fun i hi ↦ dxEntry_congr fun j h4 _ hlt ↦ h j h4 (hlt.trans_le ?_)
  have hmul := Nat.mul_le_mul_right DxEntry.size (show i + 1 ≤ dx.nent from List.mem_range.1 hi)
  omega

/-- Below the place of the new entry nothing is stored. -/
theorem dxInsert_of_lt (hi : i < o + (idx + 1) * DxEntry.size) : dxInsert b o n idx hMid lblk i = b i := by
  unfold dxInsert
  rw [Buf.setField_of_lt (by simp only [DxEntry.block]; omega),
    Buf.setField_of_lt (by simp only [DxEntry.hash]; omega)]
  split
  · exact Buf.blit_out (by simp only [DxEntry.size] at *; omega)
  · rfl

/-- The entry that was inserted. -/
theorem dxEntry_dxInsert_self (hlblk : lblk < 2 ^ 32) (hMid' : hMid < 2 ^ 32) :
    dxEntry (dxInsert b o n idx hMid lblk) o h₀ (idx + 1) = (hMid, lblk) := by
  unfold dxEntry dxInsert dxHash dxBlock
  rw [if_neg (by omega), Buf.getField_setField_of_disjoint _ _ _ (by decide), Buf.getField_setField_self,
    Buf.getField_setField_self]
  simp only [DxEntry.hash, DxEntry.block]
  norm_num
  omega

/-- The entries behind the new one have moved up. -/
theorem dxEntry_dxInsert_of_gt (hk : idx + 1 < k) (hkn : k ≤ n) :
    dxEntry (dxInsert b o n idx hMid lblk) o h₀ k = dxEntry b o h₀ (k - 1) := by
  have hsize : DxEntry.size = 8 := rfl
  have hfield : ∀ f : Buf.Field, f.off + f.size ≤ 8 →
      (dxInsert b o n idx hMid lblk).getField (o + k * DxEntry.size) f =
        b.getField (o + (k - 1) * DxEntry.size) f := by
    intro f hf
    unfold dxInsert
    rw [if_pos (show idx + 1 < n by omega),
      Buf.getField_setField_apart _ _ (by rw [hsize]; simp only [DxEntry.block]; omega),
      Buf.getField_setField_apart _ _ (by rw [hsize]; simp only [DxEntry.hash]; omega), Buf.getField,
      Buf.le_blit_in (by rw [hsize]; omega) (by rw [hsize]; omega), Buf.getField]
    congr 1
    rw [hsize]
    omega
  unfold dxEntry dxHash dxBlock
  rw [hfield _ (by decide), hfield _ (by decide), if_neg (by omega), if_neg (by omega)]

/-- An insertion into an index block, with the number of entries stored. -/
theorem dxList_dxInsert (hidx : idx < dx.nent) (hlblk : lblk < 2 ^ 32) (hMid' : hMid < 2 ^ 32) :
    dxList ((dxInsert b dx.entries dx.nent idx hMid lblk).setField dx.entries DxCountlimit.count (dx.nent + 1))
        { dx with nent := dx.nent + 1 } h₀ = (dxList b dx h₀).insertIdx (idx + 1) (hMid, lblk) := by
  have hcount : dxList ((dxInsert b dx.entries dx.nent idx hMid lblk).setField dx.entries DxCountlimit.count
      (dx.nent + 1)) { dx with nent := dx.nent + 1 } h₀ =
        dxList (dxInsert b dx.entries dx.nent idx hMid lblk) { dx with nent := dx.nent + 1 } h₀ :=
    dxList_congr fun j hlo _ ↦ Buf.setField_of_le (by simp only [DxCountlimit.count]; dsimp only at hlo; omega)
  rw [hcount]
  refine List.ext_getElem (by rw [List.length_insertIdx]; simp; omega) fun k hk hk' ↦ ?_
  rw [length_dxList] at hk
  dsimp only at hk
  rw [getElem_dxList, List.getElem_insertIdx]
  dsimp only
  split
  · rename_i hlt
    rw [getElem_dxList]
    exact dxEntry_congr fun j _ _ hj ↦ dxInsert_of_lt (hj.trans_le (by
      have := Nat.mul_le_mul_right DxEntry.size (show k + 1 ≤ idx + 1 by omega)
      omega))
  · split
    · rename_i heq
      rw [heq]
      exact dxEntry_dxInsert_self hlblk hMid'
    · rw [getElem_dxList]
      exact dxEntry_dxInsert_of_gt (by omega) (by omega)

/-- The entry that is found for a leaf. -/
theorem findDxIndex_eq_some (h₀ : ℕ) (h : ext4HtreeFindDxIndexForLblock b dx.entries dx.nent lblk = some idx) :
    ∃ pre e post, dxList b dx h₀ = pre ++ e :: post ∧ pre.length = idx ∧ e.2 = lblk := by
  have hmem := List.mem_of_find?_eq_some h
  have hlblk := List.find?_some h
  rw [List.mem_range] at hmem
  have hlen : idx < (dxList b dx h₀).length := by rwa [length_dxList]
  refine ⟨(dxList b dx h₀).take idx, (dxList b dx h₀)[idx], (dxList b dx h₀).drop (idx + 1), ?_, ?_, ?_⟩
  · rw [List.getElem_cons_drop, List.take_append_drop]
  · rw [List.length_take]
    omega
  · rw [getElem_dxList, dxEntry]
    exact of_decide_eq_true hlblk

/-- What a hash is sent to is one of the entries. -/
theorem pickLeaf_mem (b : Buf) (h₀ h32 : ℕ) (hn : 0 < dx.nent) :
    ∃ e ∈ dxList b dx h₀, e.2 = ext4HtreePickLeafLblock b dx.entries dx.nent h32 := by
  have hloop : ∀ m j chosen, (∃ k < dx.nent, dxBlock b dx.entries k = chosen) → j + m ≤ dx.nent →
      ∃ k < dx.nent, dxBlock b dx.entries k = pickLeafLoop b dx.entries h32 m j chosen := by
    intro m
    induction m with
    | zero => exact fun j chosen hchosen _ ↦ hchosen
    | succ m ih =>
      intro j chosen hchosen hle
      unfold pickLeafLoop
      split
      · exact hchosen
      · exact ih _ _ ⟨j, by omega, rfl⟩ (by omega)
  obtain ⟨k, hk, heq⟩ := hloop (dx.nent - 1) 1 (dxBlock b dx.entries 0) ⟨0, hn, rfl⟩ (by omega)
  refine ⟨dxEntry b dx.entries h₀ k, List.mem_map.2 ⟨k, List.mem_range.2 hk, rfl⟩, ?_⟩
  rw [ext4HtreePickLeafLblock, if_neg (by omega)]
  exact heq

/-- The index block that takes the new entry: what is written to the disk. -/
def enteredBlock (b : Buf) (dx : DxIndex) (idx hMid lblk : ℕ) : Buf :=
  (dxInsert b dx.entries dx.nent idx hMid lblk).setField dx.entries DxCountlimit.count (dx.nent + 1)

/-- Inserting right after an element. -/
theorem insertIdx_length_succ {α : Type} (pre post : List α) (e x : α) :
    (pre ++ e :: post).insertIdx (pre.length + 1) x = pre ++ e :: x :: post := by
  induction pre with
  | nil => simp
  | cons a pre ih => simpa using ih

/-- The entries of the index block that is stored. -/
theorem dxList_enteredBlock {pre post : List (ℕ × ℕ)} {e : ℕ × ℕ} (hcap : dx.entries + dx.cap * DxEntry.size ≤ bs)
    (hroom : dx.nent + 1 ≤ dx.cap) (hlist : dxList b dx h₀ = pre ++ e :: post) (hlblk : lblk < 2 ^ 32)
    (hMid' : hMid < 2 ^ 32) :
    dxList (Buf.clip bs (enteredBlock b dx pre.length hMid lblk)) { dx with nent := dx.nent + 1 } h₀ =
      pre ++ e :: (hMid, lblk) :: post := by
  have hlen := congrArg List.length hlist
  rw [length_dxList, List.length_append, List.length_cons] at hlen
  have hmul := Nat.mul_le_mul_right DxEntry.size hroom
  rw [dxList_congr (b := enteredBlock b dx pre.length hMid lblk) fun j _ hj ↦
      Buf.clip_of_lt _ (by dsimp only at hj; omega), enteredBlock,
    dxList_dxInsert (by omega) hlblk hMid', hlist, insertIdx_length_succ]

/-- Before its first entry the index block that is stored is as it was, but for the number of entries. -/
theorem enteredBlock_of_lt (hbs : dx.entries + DxEntry.size ≤ bs) (hi : i < dx.entries) :
    Buf.clip bs (enteredBlock b dx idx hMid lblk) i = b i := by
  rw [Buf.clip_of_lt _ (by omega), enteredBlock,
    Buf.setField_of_lt (by simp only [DxCountlimit.count]; omega), dxInsert_of_lt (by omega)]

/-- The block keeps its limit. -/
theorem enteredBlock_limit (hbs : dx.entries + DxEntry.size ≤ bs) :
    (Buf.clip bs (enteredBlock b dx idx hMid lblk)).getField dx.entries DxCountlimit.limit =
      b.getField dx.entries DxCountlimit.limit := by
  have hsize : DxEntry.size = 8 := rfl
  refine Buf.getField_congr fun i hlo hlt ↦ ?_
  simp only [DxCountlimit.limit] at hlo hlt
  rw [Buf.clip_of_lt _ (by omega), enteredBlock,
    Buf.setField_of_lt (by simp only [DxCountlimit.count]; omega),
    dxInsert_of_lt (by rw [hsize]; omega)]

/-- The block has one entry more. -/
theorem enteredBlock_count (hbs : dx.entries + DxEntry.size ≤ bs) (hnent : dx.nent + 1 < 2 ^ 16) :
    (Buf.clip bs (enteredBlock b dx idx hMid lblk)).getField dx.entries DxCountlimit.count = dx.nent + 1 := by
  have hsize : DxEntry.size = 8 := rfl
  rw [Buf.getField, Buf.le_clip _ (by simp only [DxCountlimit.count]; omega), ← Buf.getField, enteredBlock,
    Buf.getField_setField_self]
  exact Nat.mod_eq_of_lt (by simpa [DxCountlimit.count] using hnent)

/-! ### The headers of index blocks -/

/-- What is known of a root that was accepted: `r1` and `r2` are the lengths of its two entries. -/
theorem parseRoot_eq_some (h : ext4HtreeParseRoot b bs = some (info, dx)) : ∃ r1 r2 nl,
    b.getField 0 De.recLen = r1 ∧ b.getField r1 De.recLen = r2 ∧ b.getField r1 De.nameLen = nl ∧
      r1 ≠ 0 ∧ r2 ≠ 0 ∧ r1 + r2 ≤ bs ∧ info = r1 + ext4DirRecLen nl ∧
      dx.entries = info + DxRootInfo.size ∧ dx.entries + dx.cap * DxEntry.size ≤ r1 + r2 ∧
      0 < dx.nent ∧ dx.nent ≤ dx.cap ∧ b.getField dx.entries DxCountlimit.limit = dx.cap ∧
      b.getField dx.entries DxCountlimit.count = dx.nent ∧
      b.getField info DxRootInfo.infoLength = DxRootInfo.size := by
  unfold ext4HtreeParseRoot at h
  dsimp only at h
  simp only [Option.ite_none_left_eq_some] at h
  obtain ⟨hzero, hle, hmin, hinfo, hentry, hcount, hcap, hlen, heq⟩ := h
  obtain ⟨rfl, rfl⟩ := Prod.mk.inj (Option.some.inj heq)
  exact ⟨_, _, _, rfl, rfl, rfl, by tauto, by tauto, by omega, rfl, rfl, by dsimp only; omega,
    by dsimp only; omega, by dsimp only; omega, rfl, rfl, by tauto⟩

/-- The entries of a root that is accepted are within the block. -/
theorem parseRoot_bounds (h : ext4HtreeParseRoot b bs = some (info, dx)) :
    dx.entries = info + DxRootInfo.size ∧ dx.entries + dx.cap * DxEntry.size ≤ bs ∧ 0 < dx.nent ∧
      dx.nent ≤ dx.cap := by
  obtain ⟨r1, r2, nl, -, -, -, -, -, hle, -, hentries, hcap, hpos, hnent, -⟩ := parseRoot_eq_some h
  exact ⟨hentries, by omega, hpos, hnent⟩

/-- A root with another number of entries. -/
theorem parseRoot_congr (h : ext4HtreeParseRoot b bs = some (info, dx))
    (heq : ∀ i < dx.entries, i ≠ info + DxRootInfo.indirectLevels.off → c i = b i)
    (hlimit : c.getField dx.entries DxCountlimit.limit = dx.cap)
    (hcount : c.getField dx.entries DxCountlimit.count = n) (hpos : 0 < n) (hn : n ≤ dx.cap) :
    ext4HtreeParseRoot c bs = some (info, { dx with nent := n }) := by
  obtain ⟨r1, r2, nl, hr1, hr2, hnl, hne1, hne2, hle, hinfo, hentries, hcap, -, -, -, -, hlen⟩ :=
    parseRoot_eq_some h
  have hrec := (ext4DirRecLen_bounds nl).1
  have hlev : DxRootInfo.indirectLevels.off = 6 := rfl
  have hsize : DxRootInfo.size = 8 := rfl
  have hfield : ∀ (f : Buf.Field) (o : ℕ), o + f.off + f.size ≤ info + 6 →
      c.getField o f = b.getField o f := fun f o hf ↦
    Buf.getField_congr fun i hlo hlt ↦ heq i (by omega) (by omega)
  have hr1' : c.getField 0 De.recLen = r1 := by rw [hfield _ _ (by simp only [De.recLen]; omega), hr1]
  have hr2' : c.getField r1 De.recLen = r2 := by rw [hfield _ _ (by simp only [De.recLen]; omega), hr2]
  have hnl' : c.getField r1 De.nameLen = nl := by rw [hfield _ _ (by simp only [De.nameLen]; omega), hnl]
  have hlen' : c.getField info DxRootInfo.infoLength = DxRootInfo.size := by
    rw [hfield _ _ (by simp only [DxRootInfo.infoLength]; omega), hlen]
  unfold ext4HtreeParseRoot
  dsimp only
  rw [hr1', hr2', hnl', ← hinfo, ← hentries, hlimit, hcount, hlen']
  have hmul : DxEntry.size ≤ dx.cap * DxEntry.size := Nat.le_mul_of_pos_left _ (by omega)
  rw [if_neg (by omega), if_neg (by omega), if_neg (by omega), if_neg (by omega), if_neg (by omega),
    if_neg (by omega), if_neg (by omega), if_neg (by omega)]

/-- What is known of an index node that was accepted. -/
theorem parseNode_eq_some (h : ext4HtreeParseNode b bs = some dx) :
    dx.entries = DxNode.countlimit ∧ dx.entries + dx.cap * DxEntry.size ≤ bs ∧ 0 < dx.nent ∧
      dx.nent ≤ dx.cap ∧ b.getField dx.entries DxCountlimit.limit = dx.cap ∧
      b.getField dx.entries DxCountlimit.count = dx.nent := by
  unfold ext4HtreeParseNode at h
  dsimp only at h
  simp only [Option.ite_none_left_eq_some] at h
  obtain ⟨hcount, hcap, heq⟩ := h
  obtain rfl := Option.some.inj heq
  exact ⟨rfl, by dsimp only; omega, by dsimp only; omega, by dsimp only; omega, rfl, rfl⟩

/-- A node whose header is the same but for the count. -/
theorem parseNode_congr (h : ext4HtreeParseNode b bs = some dx)
    (hlimit : c.getField dx.entries DxCountlimit.limit = dx.cap)
    (hcount : c.getField dx.entries DxCountlimit.count = n) (hpos : 0 < n) (hn : n ≤ dx.cap) :
    ext4HtreeParseNode c bs = some { dx with nent := n } := by
  obtain ⟨hentries, hcap, -⟩ := parseNode_eq_some h
  unfold ext4HtreeParseNode
  dsimp only
  rw [← hentries, hlimit, hcount, if_neg (by omega), if_neg (by omega)]

namespace FsInode

open Leaf

variable {V : Volume} {U : Set ℕ} {s s' : FsInode} {rootPhys leafLblk ino : ℕ} {name : List Byte}
  {nodes seq : List (ℕ × ℕ)}

/-! ### The index of a directory -/

/-- The place of an element, and what stands there in the other list. -/
theorem forall₂_split {α β : Type} {R : α → β → Prop} {a : α} {l : List α} {l' : List β}
    (h : List.Forall₂ R l l') (ha : a ∈ l) : ∃ p q x p' q', l = p ++ a :: q ∧ l' = p' ++ x :: q' ∧ R a x ∧
      List.Forall₂ R p p' ∧ List.Forall₂ R q q' := by
  induction h with
  | nil => simp at ha
  | @cons y z m m' hyz hrest ih =>
    rcases List.mem_cons.1 ha with rfl | ha
    · exact ⟨[], m, z, [], m', rfl, rfl, hyz, .nil, hrest⟩
    · obtain ⟨p, q, x, p', q', rfl, rfl, hax, hp, hq⟩ := ih ha
      exact ⟨y :: p, q, x, z :: p', q', rfl, rfl, hax, .cons hyz hp, hq⟩

/-- What the index node of an entry of the root says. -/
def IsNode (s : FsInode) (e : ℕ × ℕ) (l : List (ℕ × ℕ)) : Prop :=
  ∃ phys dx, (ext4DirGetBlocknr e.2 s).1 = some phys ∧
    ext4HtreeParseNode (s.fs.block phys) s.fs.blockSize = some dx ∧ l = dxList (s.fs.block phys) dx e.1

/-- The index of a directory whose root is in block `rootPhys`: its index nodes, and the hashes and the
leaves that can be reached from the root. -/
inductive IsIndex (s : FsInode) (rootPhys : ℕ) : List (ℕ × ℕ) → List (ℕ × ℕ) → Prop
  | flat {info : ℕ} {dx : DxIndex}
      (root : ext4HtreeParseRoot (s.fs.block rootPhys) s.fs.blockSize = some (info, dx))
      (levels : (s.fs.block rootPhys).getField info DxRootInfo.indirectLevels = 0) :
      IsIndex s rootPhys [] (dxList (s.fs.block rootPhys) dx 0)
  | deep {info : ℕ} {dx : DxIndex} {lists : List (List (ℕ × ℕ))}
      (root : ext4HtreeParseRoot (s.fs.block rootPhys) s.fs.blockSize = some (info, dx))
      (levels : (s.fs.block rootPhys).getField info DxRootInfo.indirectLevels = 1)
      (below : List.Forall₂ (IsNode s) (dxList (s.fs.block rootPhys) dx 0) lists) :
      IsIndex s rootPhys (dxList (s.fs.block rootPhys) dx 0) lists.flatten

/-- The root is full, and there are no index nodes. -/
def FullRoot (s : FsInode) (rootPhys : ℕ) : Prop :=
  ∃ info dx, ext4HtreeParseRoot (s.fs.block rootPhys) s.fs.blockSize = some (info, dx) ∧
    (s.fs.block rootPhys).getField info DxRootInfo.indirectLevels = 0 ∧ dx.nent = dx.cap

/-- An indexed directory on a mounted volume. The index nodes are blocks of their own: not the root, not
leaves, and not two of them in one block. -/
structure Indexed (V : Volume) (U : Set ℕ) (s : FsInode) (rootPhys : ℕ) (nodes seq : List (ℕ × ℕ)) :
    Prop where
  dir : DirOn V U s
  tables : V.TablesLaid
  bs_ge : 1024 ≤ V.bs
  rootPhys_ne : rootPhys ≠ 0
  root : s.dirWord 0 = rootPhys
  index : IsIndex s rootPhys nodes seq
  nodes_nodup : (0 :: nodes.map Prod.snd).Nodup
  leaves : ∀ e ∈ seq, e.2 ∉ 0 :: nodes.map Prod.snd

/-! ### The steps of a split -/

/-- Items have the hashes of their names. -/
theorem hash_lt_of_splitItems {lower upper : List LeafItem} {ver : ℕ} {leaf : Buf}
    (h : splitItems (ext4HtreeNameHash32 ver) leaf bs name ino = some (lower, upper)) :
    upper ≠ [] ∧ ∀ item ∈ upper, item.hash < 2 ^ 32 := by
  -- the hash of all ones is kept for the end of a directory
  have hlt : ∀ x : BitVec 32, (if x = 0xffffffff#32 then 0xfffffffe else x.toNat) < 2 ^ 32 := by
    intro x
    split
    · norm_num
    · exact x.isLt
  have hname : ∀ n, ext4HtreeNameHash32 ver n < 2 ^ 32 := fun n ↦ hlt _
  -- the loop computes the hashes of the items it collects
  have hloop : ∀ fuel o (items items' : List LeafItem), (∀ item ∈ items, item.hash < 2 ^ 32) →
      leafCollectLoop (ext4HtreeNameHash32 ver) leaf bs fuel o items = some items' →
        ∀ item ∈ items', item.hash < 2 ^ 32 := by
    intro fuel
    induction fuel with
    | zero =>
      intro o items items' hitems hrun
      obtain rfl := Option.some.inj hrun
      exact hitems
    | succ fuel ih =>
      intro o items items' hitems hrun
      unfold leafCollectLoop at hrun
      dsimp only at hrun
      split at hrun
      · split at hrun
        · simp at hrun
        · split at hrun
          · split at hrun
            · simp at hrun
            · refine ih _ _ _ (fun item hitem ↦ ?_) hrun
              rcases List.mem_append.1 hitem with hitem | hitem
              · exact hitems item hitem
              · obtain rfl := List.mem_singleton.1 hitem
                exact hname _
          · exact ih _ _ _ hitems hrun
      · obtain rfl := Option.some.inj hrun
        exact hitems
  unfold splitItems at h
  obtain ⟨items, hcollect, h⟩ := Option.bind_eq_some_iff.1 h
  dsimp only at h
  simp only [Option.ite_none_left_eq_some] at h
  obtain ⟨-, hmid, heq⟩ := h
  obtain ⟨rfl, rfl⟩ := Prod.mk.inj (Option.some.inj heq)
  have hitems := hloop _ _ _ _ (by simp) hcollect
  refine ⟨fun hnil ↦ ?_, fun item hitem ↦ ?_⟩
  · rw [List.drop_eq_nil_iff] at hnil
    omega
  · -- sorting them keeps the items, and the new name is one of them
    have hmem := (@ExchangeSort.sort_perm _ _ _ LeafItem.hash _).mem_iff.1 (List.mem_of_mem_drop hitem)
    rcases List.mem_append.1 hmem with hmem | hmem
    · exact hitems item hmem
    · obtain rfl := List.mem_singleton.1 hmem
      exact hname _

/-- The lower half of the leaf is stored in its block, and the upper half in a new one. -/
structure Halved (V : Volume) (U U' : Set ℕ) (s s' : FsInode) (leafPhys newLblk newPhys : ℕ) : Prop where
  dir : DirOn V U' s'
  sub : U ⊆ U'
  fresh : newPhys ∉ U
  ne_zero : newPhys ≠ 0
  unmapped : s.dirWord newLblk = 0
  maps : s'.dirWord newLblk = newPhys
  other : ∀ i, i ≠ newLblk → s'.dirWord i = s.dirWord i
  block : ∀ b, InUse V U b → b ≠ leafPhys → b ≠ s.inode.word 12 → s'.fs.block b = s.fs.block b
  indirect : ∀ b ∈ U, b ≠ s.inode.word 12 → b ≠ s'.inode.word 12

/-- Looking a block of the directory up reads only, and what it finds is in use. -/
structure LooksUp (V : Volume) (U : Set ℕ) (s : FsInode) : Prop where
  mounted : V.Mounted U s.fs
  snd : ∀ i, (ext4DirGetBlocknr i s).2 = s
  inUse : V.bs ≤ blockSizeDefault → ∀ i b, (ext4DirGetBlocknr i s).1 = some b → InUse V U b

/-- In a directory without extents a lookup changes nothing. -/
theorem DirOn.looksUp (h : DirOn V U s) : LooksUp V U s := by
  refine ⟨h.mounted, h.getBlocknr_snd, fun hbs i b hb ↦ ?_⟩
  obtain ⟨rfl, hne⟩ := h.of_getBlocknr_some hbs hb
  exact h.inUse i hne

/-- Nor does reading a node of the index. -/
theorem LooksUp.readDxNode_snd (h : LooksUp V U s) (rootBuf : Buf) (entries nent h32 : ℕ) :
    (readDxNode rootBuf entries nent h32 s).2 = s := by
  unfold readDxNode
  rw [get_bind]
  refine bind_snd (h.snd _) fun phys ↦ bind_snd (mallocBlock_snd s) fun _ ↦
    bind_snd (readBlock_snd h.mounted _) fun node ↦ bind_snd ?_ fun _ ↦ rfl
  cases ext4HtreeParseNode node s.fs.blockSize <;> rfl

/-- `writeUpperHalf` with the block as well as the logical block. -/
def writeUpperHalfNew (leafBuf : Buf) (items : List LeafItem) : StateErr FsInode (ℕ × ℕ) := do
  let s ← get
  let new ← newMappedBlock
  match ← attempt (onFs (Fs.writeBlock new.1 (ext4HtreePackLeaf leafBuf s.fs.blockSize items))) with
  | some _ => pure new
  | none =>
    let _ ← attempt (ext4HtreeUnmapLblock new.2)
    freeAndFail new.1

/-- `ext4HtreeSplitLeaf` with the block and the logical block of the new leaf. -/
def splitLeafNew (rootBuf : Buf) (rootPhys leafLblk : ℕ) (name : List Byte) (ino : ℕ) :
    StateErr FsInode (ℕ × ℕ) := do
  let s ← get
  let bs := s.fs.blockSize
  let hash32 := ext4HtreeNameHash32 s.fs.sbi.sDefHashVersion
  let root ← ofOption (ext4HtreeParseRoot rootBuf bs)
  let target ←
    if rootBuf.getField root.1 DxRootInfo.indirectLevels = 1 then
      readDxNode rootBuf root.2.entries root.2.nent (hash32 name)
    else pure (rootPhys, rootBuf, root.2)
  let dx := target.2.2
  let idx ← ofOption (ext4HtreeFindDxIndexForLblock target.2.1 dx.entries dx.nent leafLblk)
  let leafPhys ← ext4DirGetBlocknr leafLblk
  onFs Fs.mallocBlock
  let leafBuf ← onFs (Fs.readBlock leafPhys)
  let halves ← ofOption (splitItems hash32 leafBuf bs name ino)
  let leafBuf := ext4HtreePackLeaf leafBuf bs halves.1
  onFs (Fs.writeBlock leafPhys leafBuf)
  let new ← writeUpperHalfNew leafBuf halves.2
  ext4HtreeAddDxEntry rootBuf rootPhys root.1 target idx ((halves.2.head?.map LeafItem.hash).getD 0) new.2
  ext4HtreeRefreshDirInodeSize
  writeInode
  pure new

/-- The upper half with the block it went to, which the code keeps in a variable. -/
theorem writeUpperHalf_eq (leafBuf : Buf) (items : List LeafItem) :
    writeUpperHalf leafBuf items = writeUpperHalfNew leafBuf items >>= fun new ↦ pure new.2 := by
  unfold writeUpperHalf writeUpperHalfNew
  rw [bind_assoc']
  refine congrArg (get >>= ·) (funext fun s ↦ ?_)
  rw [bind_assoc']
  refine congrArg (newMappedBlock >>= ·) (funext fun new ↦ ?_)
  rw [bind_assoc']
  refine congrArg (_ >>= ·) (funext fun r ↦ ?_)
  cases r <;> rfl

/-- The split with the blocks it made, which the code does not return. -/
theorem ext4HtreeSplitLeaf_eq (rootBuf : Buf) (rootPhys leafLblk : ℕ) (name : List Byte) (ino : ℕ) :
    ext4HtreeSplitLeaf rootBuf rootPhys leafLblk name ino =
      splitLeafNew rootBuf rootPhys leafLblk name ino >>= fun _ ↦ pure () := by
  unfold ext4HtreeSplitLeaf splitLeafNew
  simp only [bind_assoc', writeUpperHalf_eq, pure_bind']
  refine congrArg (get >>= ·) (funext fun s ↦ congrArg (_ >>= ·) (funext fun root ↦ ?_))
  split <;> simp only [bind_assoc', pure_bind', bind_unit]

/-- A split that succeeds made some blocks. -/
theorem exists_splitLeafNew {rootBuf : Buf}
    (hrun : ext4HtreeSplitLeaf rootBuf rootPhys leafLblk name ino s = (some (), s')) :
    ∃ new, splitLeafNew rootBuf rootPhys leafLblk name ino s = (some new, s') := by
  rw [ext4HtreeSplitLeaf_eq] at hrun
  obtain ⟨new, s₁, hnew, hrun⟩ := bind_eq_some_iff.1 hrun
  obtain ⟨-, rfl⟩ := Prod.mk.inj hrun
  exact ⟨new, hnew⟩

/-- The statements of a split that succeeds, with what they have found. -/
theorem LooksUp.splitNew_of_some {newPhys newLblk : ℕ} (h : LooksUp V U s)
    (hroot : ext4HtreeParseRoot (s.fs.block rootPhys) s.fs.blockSize = some (info, dx))
    (hrun : splitLeafNew (s.fs.block rootPhys) rootPhys leafLblk name ino s = (some (newPhys, newLblk), s')) :
    V.bs ≤ blockSizeDefault ∧ ∃ target idx leafPhys lower item upper c s₃ s₄,
      (if (s.fs.block rootPhys).getField info DxRootInfo.indirectLevels = 1 then
          readDxNode (s.fs.block rootPhys) dx.entries dx.nent (ext4HtreeNameHash32 s.fs.sbi.sDefHashVersion name)
        else pure (rootPhys, s.fs.block rootPhys, dx)) s = (some target, s) ∧
      ext4HtreeFindDxIndexForLblock target.2.1 target.2.2.entries target.2.2.nent leafLblk = some idx ∧
      (ext4DirGetBlocknr leafLblk s).1 = some leafPhys ∧
      splitItems (ext4HtreeNameHash32 s.fs.sbi.sDefHashVersion) (s.fs.block leafPhys) s.fs.blockSize name ino =
        some (lower, item :: upper) ∧
      writeUpperHalfNew c (item :: upper) { s with fs := s.fs.put leafPhys c } = (some (newPhys, newLblk), s₃) ∧
      ext4HtreeAddDxEntry (s.fs.block rootPhys) rootPhys info target idx item.hash newLblk s₃ = (some (), s₄) ∧
      (ext4HtreeRefreshDirInodeSize >>= fun _ ↦ writeInode) s₄ = (some (), s') := by
  unfold splitLeafNew at hrun
  rw [get_bind, hroot, ofOption_some, pure_bind'] at hrun
  dsimp only at hrun
  obtain ⟨target, s₁, htarget, hrun⟩ := ite_bind_eq_some hrun
  -- finding the index block and the leaf changes nothing
  obtain rfl : s = s₁ := by
    have hsnd := congrArg Prod.snd htarget
    split at hsnd
    · exact (h.readDxNode_snd _ _ _ _).symm.trans hsnd
    · exact hsnd
  obtain ⟨idx, s₂, hfind, hrun⟩ := bind_eq_some_iff.1 hrun
  obtain ⟨hidx, rfl⟩ := ofOption_eq_some hfind
  obtain ⟨leafPhys, s₃, hleaf, hrun⟩ := bind_eq_some_iff.1 hrun
  obtain rfl : _ = s₃ := (h.snd _).symm.trans (congrArg Prod.snd hleaf)
  obtain ⟨_, s₄, hmalloc, hrun⟩ := bind_eq_some_iff.1 hrun
  obtain ⟨hbs, rfl⟩ := of_onFs_mallocBlock_some hmalloc
  rw [h.mounted.blockSize] at hbs
  have huse := h.inUse hbs leafLblk leafPhys (congrArg Prod.fst hleaf)
  have hread : onFs (Fs.readBlock leafPhys) s = (some (s.fs.block leafPhys), s) := by
    rw [onFs, zoom_apply, h.mounted.usable.readBlock huse.2.2.1]
  rw [bind_of_eq_some hread] at hrun
  obtain ⟨⟨lower, upper⟩, s₅, hhalves, hrun⟩ := bind_eq_some_iff.1 hrun
  obtain ⟨hsplit, rfl⟩ := ofOption_eq_some hhalves
  dsimp only at hrun
  -- the upper half has an item, whose hash goes into the index
  obtain ⟨item, upper, rfl⟩ : ∃ item rest, upper = item :: rest :=
    List.exists_cons_of_ne_nil (hash_lt_of_splitItems hsplit).1
  set c := ext4HtreePackLeaf (s.fs.block leafPhys) s.fs.blockSize lower with hc
  have hwrite : onFs (Fs.writeBlock leafPhys c) s = (some (), { s with fs := s.fs.put leafPhys c }) := by
    rw [onFs, zoom_apply, h.mounted.usable.writeBlock huse.2.2.1]
  rw [bind_of_eq_some hwrite] at hrun
  obtain ⟨⟨phys, lblk⟩, s₆, hupper, hrun₆⟩ := bind_eq_some_iff.1 hrun
  obtain ⟨_, s₇, hadd, hrun₇⟩ := bind_eq_some_iff.1 hrun₆
  obtain ⟨_, s₉, hrefresh, hrun₉⟩ := bind_eq_some_iff.1 hrun₇
  obtain ⟨_, s₁₀, hinode, hend⟩ := bind_eq_some_iff.1 hrun₉
  obtain ⟨he, rfl⟩ := Prod.mk.inj hend
  obtain ⟨rfl, rfl⟩ := Prod.mk.inj (Option.some.inj he)
  exact ⟨hbs, target, idx, leafPhys, lower, item, upper, c, s₆, s₇, htarget, hidx, congrArg Prod.fst hleaf,
    hsplit, hupper, hadd, bind_of_eq_some hrefresh ▸ hinode⟩

/-- What a split that succeeds has done before it enters the new leaf into the index. -/
theorem DirOn.splitNew_of_some {newPhys newLblk : ℕ} (h : DirOn V U s)
    (hroot : ext4HtreeParseRoot (s.fs.block rootPhys) s.fs.blockSize = some (info, dx))
    (hrun : splitLeafNew (s.fs.block rootPhys) rootPhys leafLblk name ino s = (some (newPhys, newLblk), s')) :
    V.bs ≤ blockSizeDefault ∧ ∃ target idx lower item upper c U' s₃ s₄,
      (if (s.fs.block rootPhys).getField info DxRootInfo.indirectLevels = 1 then
          readDxNode (s.fs.block rootPhys) dx.entries dx.nent (ext4HtreeNameHash32 s.fs.sbi.sDefHashVersion name)
        else pure (rootPhys, s.fs.block rootPhys, dx)) s = (some target, s) ∧
      ext4HtreeFindDxIndexForLblock target.2.1 target.2.2.entries target.2.2.nent leafLblk = some idx ∧
      s.dirWord leafLblk ≠ 0 ∧
      splitItems (ext4HtreeNameHash32 s.fs.sbi.sDefHashVersion) (s.fs.block (s.dirWord leafLblk))
        s.fs.blockSize name ino = some (lower, item :: upper) ∧
      Halved V U U' s s₃ (s.dirWord leafLblk) newLblk newPhys ∧
      s₃.fs.block newPhys = Buf.clip s.fs.blockSize (ext4HtreePackLeaf c s.fs.blockSize (item :: upper)) ∧
      ext4HtreeAddDxEntry (s.fs.block rootPhys) rootPhys info target idx item.hash newLblk s₃ = (some (), s₄) ∧
      (ext4HtreeRefreshDirInodeSize >>= fun _ ↦ writeInode) s₄ = (some (), s') := by
  obtain ⟨hbs, target, idx, leafPhys, lower, item, upper, c, s₆, s₇, htarget, hidx, hleaf, hsplit, hupper, hadd,
    hrefresh⟩ := h.looksUp.splitNew_of_some hroot hrun
  obtain ⟨rfl, hne⟩ := h.of_getBlocknr_some hbs hleaf
  have huse := h.inUse leafLblk hne
  obtain ⟨hlower, hlword⟩ := h.put c huse.2.2.2 (h.apart leafLblk hne)
  unfold writeUpperHalfNew at hupper
  rw [get_bind] at hupper
  obtain ⟨⟨phys', lblk'⟩, s₈, hnew, hupper⟩ := bind_eq_some_iff.1 hupper
  obtain ⟨hfresh, hne₀, -, U', hmap⟩ := hlower.newMappedBlock_of_some hnew
  dsimp only at hupper
  have hne₈ : s₈.dirWord lblk' ≠ 0 := hmap.maps ▸ hne₀
  have huse₈ := hmap.dir.inUse lblk' hne₈
  have hapart₈ := hmap.dir.apart lblk' hne₈
  rw [hmap.maps] at huse₈ hapart₈
  set d := ext4HtreePackLeaf c (s.fs.put (s.dirWord leafLblk) c).blockSize (item :: upper) with hd
  have hwrite₈ : onFs (Fs.writeBlock phys' d) s₈ = (some (), { s₈ with fs := s₈.fs.put phys' d }) := by
    rw [onFs, zoom_apply, hmap.dir.mounted.usable.writeBlock huse₈.2.2.1]
  rw [attempt_bind, hwrite₈] at hupper
  obtain ⟨he, rfl⟩ := Prod.mk.inj hupper
  obtain ⟨rfl, rfl⟩ := Prod.mk.inj (Option.some.inj he)
  obtain ⟨hdir, hword⟩ := hmap.dir.put d huse₈.2.2.2 hapart₈
  have hbs₈ : s₈.fs.blockSize = s.fs.blockSize :=
    hmap.dir.mounted.blockSize.trans h.mounted.blockSize.symm
  refine ⟨hbs, target, idx, lower, item, upper, c, U', _, s₇, htarget, hidx, hne, hsplit,
    ⟨hdir, hmap.sub, hfresh, hne₀, ?_, (hword _).trans hmap.maps, fun i hi ↦ ?_, fun b hb hleafb hind ↦ ?_,
      hmap.indirect⟩, ?_, hadd, hrefresh⟩
  · rw [← hlword]
    exact hmap.unmapped
  · rw [hword, hmap.other i hi, hlword]
  · have hbn : b ≠ phys' := fun heq ↦ hfresh (heq ▸ hb.1)
    rw [s₈.fs.block_put_of_ne _ hbn, hmap.block b hb hind]
    exact s.fs.block_put_of_ne _ hleafb
  · rw [s₈.fs.block_put_self, hbs₈, hd, Fs.put_blockSize]

/-- A block of the index is stored after the split, and the inode is brought up to date. -/
structure Entered (V : Volume) (U' U : Set ℕ) (s s₃ s' : FsInode) (leafPhys phys : ℕ) (buf : Buf) : Prop where
  dir : DirOn V U' s'
  word : ∀ i, s'.dirWord i = s₃.dirWord i
  stored : s'.fs.block phys = Buf.clip V.bs buf
  kept : ∀ b, InUse V U' b → b ≠ phys → s'.fs.block b = s₃.fs.block b
  block : ∀ b, InUse V U b → b ≠ leafPhys → b ≠ phys → b ≠ s.inode.word 12 → s'.fs.block b = s.fs.block b

/-- After the leaf was halved, an entry of the index is stored. -/
theorem Halved.entered {U' : Set ℕ} {s₃ : FsInode} {leafPhys newLblk newPhys phys : ℕ} {buf : Buf}
    (hh : Halved V U U' s s₃ leafPhys newLblk newPhys) (htables : V.TablesLaid) (hphys : InUse V U phys)
    (hind : phys ≠ s.inode.word 12)
    (hrun : (ext4HtreeRefreshDirInodeSize >>= fun _ ↦ writeInode) { s₃ with fs := s₃.fs.put phys buf } =
      (some (), s')) : Entered V U' U s s₃ s' leafPhys phys buf := by
  obtain ⟨hput, hword⟩ := hh.dir.put buf hphys.2.2.2 (hh.indirect phys hphys.1 hind)
  obtain ⟨hdir, hword', hblock⟩ := hput.refresh htables hrun
  have hkept : ∀ b, InUse V U' b → b ≠ phys → s'.fs.block b = s₃.fs.block b := fun b hb hne ↦
    (hblock b hb.2.2.2).trans (s₃.fs.block_put_of_ne buf hne)
  refine ⟨hdir, fun i ↦ (hword' i).trans (hword i), (hblock phys hphys.2.2.2).trans ?_, hkept,
    fun b hb hleaf hne hindb ↦ (hkept b (hb.mono hh.sub) hne).trans (hh.block b hb hleaf hindb)⟩
  rw [← hh.dir.mounted.blockSize]
  exact s₃.fs.block_put_self phys buf

/-! ### The index after a split -/

/-- After the split of a leaf for a name the index has one more entry, behind that of the leaf: the hash of
the first name of the upper half, and the logical block at which the block is found that the split has
allocated and has filled with this half. -/
def InsertsEntry (s s' : FsInode) (rootPhys leafLblk : ℕ) (name : List Byte) (ino : ℕ)
    (seq : List (ℕ × ℕ)) : Prop :=
  ∃ pre e post leafPhys lower item upper newLblk newPhys nodes',
    seq = pre ++ e :: post ∧ e.2 = leafLblk ∧
    (ext4DirGetBlocknr leafLblk s).1 = some leafPhys ∧
    splitItems (ext4HtreeNameHash32 s.fs.sbi.sDefHashVersion) (s.fs.block leafPhys) s.fs.blockSize name ino =
      some (lower, item :: upper) ∧
    (splitLeafNew (s.fs.block rootPhys) rootPhys leafLblk name ino s).1 = some (newPhys, newLblk) ∧
    (ext4DirGetBlocknr newLblk s).1 = none ∧ (ext4DirGetBlocknr newLblk s').1 = some newPhys ∧
    (∃ c, s'.fs.block newPhys = Buf.clip s.fs.blockSize (ext4HtreePackLeaf c s.fs.blockSize (item :: upper))) ∧
    IsIndex s' rootPhys nodes' (pre ++ e :: (item.hash, newLblk) :: post)

/-- A root that takes the entry of a new leaf. -/
theorem IsIndex.flat_entered {pre post : List (ℕ × ℕ)} {e : ℕ × ℕ}
    (hroot : ext4HtreeParseRoot (s.fs.block rootPhys) V.bs = some (info, dx))
    (hlevels : (s.fs.block rootPhys).getField info DxRootInfo.indirectLevels = 0)
    (hlist : dxList (s.fs.block rootPhys) dx 0 = pre ++ e :: post) (hroom : dx.nent + 1 ≤ dx.cap)
    (hlblk : lblk < 2 ^ 32) (hMid' : hMid < 2 ^ 32) (hbs : s'.fs.blockSize = V.bs)
    (hstored : s'.fs.block rootPhys =
      Buf.clip V.bs (enteredBlock (s.fs.block rootPhys) dx pre.length hMid lblk)) :
    IsIndex s' rootPhys [] (pre ++ e :: (hMid, lblk) :: post) := by
  obtain ⟨r1, r2, nl, -, -, -, -, -, -, -, hentries, -, -, -, hlimit, -, -⟩ := parseRoot_eq_some hroot
  obtain ⟨-, hcap, hpos, -⟩ := parseRoot_bounds hroot
  have hcap16 := hlimit ▸ (s.fs.block rootPhys).getField_lt dx.entries DxCountlimit.limit
  have hmul := Nat.mul_le_mul_right DxEntry.size (show 1 ≤ dx.cap by omega)
  have hsize : DxRootInfo.size = 8 := rfl
  have hlow : ∀ i < dx.entries, s'.fs.block rootPhys i = s.fs.block rootPhys i := fun i hi ↦ by
    rw [hstored, enteredBlock_of_lt (by omega) hi]
  have hroot' := parseRoot_congr hroot (fun i hi _ ↦ hlow i hi)
    (by rw [hstored, enteredBlock_limit (by omega), hlimit])
    (by rw [hstored, enteredBlock_count (by omega) (by norm_num [DxCountlimit.limit] at hcap16 ⊢; omega)])
    (Nat.succ_pos _) hroom
  rw [← dxList_enteredBlock hcap hroom hlist hlblk hMid', ← hstored]
  rw [← hbs] at hroot'
  refine .flat hroot' ((Buf.getField_congr fun i hlo hlt ↦ hlow i ?_).trans hlevels)
  simp only [DxRootInfo.indirectLevels] at hlo hlt
  omega

/-- An index node that takes the entry of a new leaf. -/
theorem IsNode.entered {pre post : List (ℕ × ℕ)} {e r : ℕ × ℕ} {phys : ℕ}
    (hnode : ext4HtreeParseNode (s.fs.block phys) V.bs = some dx)
    (hlist : dxList (s.fs.block phys) dx r.1 = pre ++ e :: post) (hroom : dx.nent + 1 ≤ dx.cap)
    (hlblk : lblk < 2 ^ 32) (hMid' : hMid < 2 ^ 32) (hbs : s'.fs.blockSize = V.bs)
    (hphys : (ext4DirGetBlocknr r.2 s').1 = some phys)
    (hstored : s'.fs.block phys = Buf.clip V.bs (enteredBlock (s.fs.block phys) dx pre.length hMid lblk)) :
    IsNode s' r (pre ++ e :: (hMid, lblk) :: post) := by
  obtain ⟨-, hcap, hpos, -, hlimit, -⟩ := parseNode_eq_some hnode
  have hcap16 := hlimit ▸ (s.fs.block phys).getField_lt dx.entries DxCountlimit.limit
  have hmul := Nat.mul_le_mul_right DxEntry.size (show 1 ≤ dx.cap by omega)
  refine ⟨phys, { dx with nent := dx.nent + 1 }, hphys, ?_, ?_⟩
  · rw [hbs]
    refine parseNode_congr hnode ?_ ?_ (Nat.succ_pos _) hroom
    · rw [hstored, enteredBlock_limit (by omega), hlimit]
    · rw [hstored, enteredBlock_count (by omega) (by norm_num [DxCountlimit.limit] at hcap16 ⊢; omega)]
  · rw [hstored, dxList_enteredBlock hcap hroom hlist hlblk hMid']

/-- The index node that `readDxNode` has found. -/
theorem LooksUp.readDxNode_of_some {rootBuf node : Buf} {entries nent h32 phys : ℕ} (h : LooksUp V U s)
    (hrun : readDxNode rootBuf entries nent h32 s = (some (phys, node, dx), s')) :
    V.bs ≤ blockSizeDefault ∧
      (ext4DirGetBlocknr (ext4HtreePickLeafLblock rootBuf entries nent h32) s).1 = some phys ∧
      s.fs.block phys = node ∧ ext4HtreeParseNode node V.bs = some dx := by
  unfold readDxNode at hrun
  rw [get_bind] at hrun
  obtain ⟨phys', s₁, hphys, hrun⟩ := bind_eq_some_iff.1 hrun
  obtain rfl : s = s₁ := (h.snd _).symm.trans (congrArg Prod.snd hphys)
  obtain ⟨_, s₂, hmalloc, hrun⟩ := bind_eq_some_iff.1 hrun
  obtain ⟨hbs, rfl⟩ := of_onFs_mallocBlock_some hmalloc
  obtain ⟨node', s₃, hnode, hrun⟩ := bind_eq_some_iff.1 hrun
  obtain ⟨dx', s₄, hdx, hrun⟩ := bind_eq_some_iff.1 hrun
  obtain ⟨hparse, rfl⟩ := ofOption_eq_some hdx
  obtain ⟨he, -⟩ := Prod.mk.inj hrun
  obtain ⟨rfl, hpair⟩ := Prod.mk.inj (Option.some.inj he)
  obtain ⟨rfl, rfl⟩ := Prod.mk.inj hpair
  rw [h.mounted.blockSize] at hbs hparse
  have huse := h.inUse hbs _ _ (congrArg Prod.fst hphys)
  rw [onFs, zoom_apply, h.mounted.usable.readBlock huse.2.2.1] at hnode
  exact ⟨hbs, congrArg Prod.fst hphys, Option.some.inj (Prod.mk.inj hnode).1, hparse⟩

theorem parseRoot_grownRoot {nodeLblk : ℕ} (hroot : ext4HtreeParseRoot b bs = some (info, dx))
    (hnode : nodeLblk < 2 ^ 32) :
    let r := Buf.clip bs (grownRoot b info dx.entries nodeLblk)
    ext4HtreeParseRoot r bs = some (info, { dx with nent := 1 }) ∧
      r.getField info DxRootInfo.indirectLevels = 1 ∧
      dxList r { dx with nent := 1 } 0 = [(0, nodeLblk)] := by
  obtain ⟨r1, r2, nl, -, -, -, -, -, -, -, hentries, -, -, -, hlimit, -, -⟩ := parseRoot_eq_some hroot
  obtain ⟨-, hcap, hpos, hnent⟩ := parseRoot_bounds hroot
  have hmul := Nat.mul_le_mul_right DxEntry.size (show 1 ≤ dx.cap by omega)
  have hsize : DxRootInfo.size = 8 := rfl
  have hsize' : DxEntry.size = 8 := rfl
  have hclip : ∀ (f : Buf.Field) (o : ℕ), o + f.off + f.size ≤ bs →
      (Buf.clip bs (grownRoot b info dx.entries nodeLblk)).getField o f =
        (grownRoot b info dx.entries nodeLblk).getField o f := fun f o hf ↦ Buf.le_clip _ hf
  refine ⟨parseRoot_congr hroot (fun i hi hne ↦ ?_) ?_ ?_ one_pos (hpos.trans_le hnent), ?_, ?_⟩
  · rw [Buf.clip_of_lt _ (by omega), grownRoot]
    simp only [DxRootInfo.indirectLevels] at hne
    rcases Nat.lt_or_gt_of_ne hne with hlt | hgt
    · rw [Buf.setField_of_lt hlt, Buf.setField_of_lt (by omega), Buf.setField_of_lt (by omega)]
    · rw [Buf.setField_of_le (by simp only [DxRootInfo.indirectLevels]; omega), Buf.setField_of_lt (by omega),
        Buf.setField_of_lt (by omega)]
  · rw [hclip _ _ (by simp only [DxCountlimit.limit]; omega), grownRoot,
      Buf.getField_setField_apart _ _ (by simp only [DxCountlimit.limit, DxRootInfo.indirectLevels]; omega),
      Buf.getField_setField_of_disjoint _ _ _ (by decide),
      Buf.getField_setField_of_disjoint _ _ _ (by decide), hlimit]
  · rw [hclip _ _ (by simp only [DxCountlimit.count]; omega), grownRoot,
      Buf.getField_setField_apart _ _ (by simp only [DxCountlimit.count, DxRootInfo.indirectLevels]; omega),
      Buf.getField_setField_of_disjoint _ _ _ (by decide), Buf.getField_setField_self]
    rfl
  · rw [hclip _ _ (by simp only [DxRootInfo.indirectLevels]; omega), grownRoot, Buf.getField_setField_self]
    rfl
  · simp only [dxList, List.range_one, List.map_singleton, dxEntry, if_pos, dxBlock, zero_mul, add_zero]
    rw [hclip _ _ (by simp only [DxEntry.block]; omega), grownRoot,
      Buf.getField_setField_apart _ _ (by simp only [DxEntry.block, DxRootInfo.indirectLevels]; omega),
      Buf.getField_setField_self, Nat.mod_eq_of_lt (by simpa [DxEntry.block] using hnode)]

/-- What says how many entries the new index node has is the copy of the root. -/
theorem count_grownNode {nodeBs : ℕ} (hpos : 0 < dx.nent) (hbs : DxNode.countlimit + DxEntry.size ≤ bs) :
    (Buf.clip bs (grownNode b nodeBs info dx idx hMid lblk)).getField DxNode.countlimit DxCountlimit.count =
      b.getField dx.entries DxCountlimit.count := by
  have hsize : DxEntry.size = 8 := rfl
  have hle := Nat.mul_le_mul_right DxEntry.size hpos
  rw [Buf.getField, Buf.le_clip _ (by simp only [DxCountlimit.count]; omega), Buf.getField, grownNode,
    Buf.le_congr fun i hlo hlt ↦ dxInsert_of_lt
      (by rw [hsize]; simp only [DxCountlimit.count] at hlo hlt; omega),
    Buf.le_blit_in (by omega) (by simp only [DxCountlimit.count]; omega)]
  congr 1

/-- Where there is room the new entry goes into the index block that has been found. -/
theorem addDxEntry_of_room {rootBuf : Buf} {target : ℕ × Buf × DxIndex} {newLblk : ℕ} (h : DirOn V U s)
    (hphys : target.1 < V.blocks) (hnent : target.2.2.nent ≤ target.2.2.cap)
    (hroom : target.2.2.nent = target.2.2.cap → rootBuf.getField info DxRootInfo.indirectLevels ≠ 0)
    (hrun : ext4HtreeAddDxEntry rootBuf rootPhys info target idx hMid newLblk s = (some (), s')) :
    target.2.2.nent + 1 ≤ target.2.2.cap ∧
      s' = { s with fs := s.fs.put target.1 (enteredBlock target.2.1 target.2.2 idx hMid newLblk) } := by
  unfold ext4HtreeAddDxEntry at hrun
  rw [get_bind] at hrun
  split at hrun
  · obtain ⟨hlevels, -⟩ := guard_bind_eq_some_iff.1 hrun
    exact absurd hlevels (hroom (by omega))
  · rw [onFs, zoom_apply, h.mounted.usable.writeBlock hphys] at hrun
    exact ⟨by omega, (Prod.mk.inj hrun).2.symm⟩

/-- The blocks of a directory can be counted in 32 bits. -/
theorem lblk_lt (h : DirOn V U s) (hbs : V.bs ≤ blockSizeDefault) (hne : s.dirWord lblk ≠ 0) :
    lblk < 2 ^ 32 := by
  by_cases hdirect : lblk < 12
  · omega
  · have hlt := (lt_of_dirWord_ne_zero hne (by omega)).1
    rw [h.mounted.blockSize] at hlt
    simp only [blockSizeDefault] at hbs
    omega

/-- What is left to show of a split: that the index of `s'` has the new entry. -/
theorem Entered.insertsEntry {pre post nodes' : List (ℕ × ℕ)} {e : ℕ × ℕ} {U' : Set ℕ} {s₃ : FsInode}
    {newLblk newPhys phys : ℕ} {buf : Buf} {lower upper : List LeafItem} {item : LeafItem}
    (hent : Entered V U' U s s₃ s' (s.dirWord leafLblk) phys buf) (h : DirOn V U s)
    (hbs : V.bs ≤ blockSizeDefault) (hphys : InUse V U phys) (hleaf : s.dirWord leafLblk ≠ 0)
    (hh : Halved V U U' s s₃ (s.dirWord leafLblk) newLblk newPhys)
    (hsplit : splitItems (ext4HtreeNameHash32 s.fs.sbi.sDefHashVersion) (s.fs.block (s.dirWord leafLblk))
      s.fs.blockSize name ino = some (lower, item :: upper))
    (hstored : s₃.fs.block newPhys = Buf.clip s.fs.blockSize (ext4HtreePackLeaf c s.fs.blockSize (item :: upper)))
    (hrun : splitLeafNew (s.fs.block rootPhys) rootPhys leafLblk name ino s = (some (newPhys, newLblk), s'))
    (hseq : seq = pre ++ e :: post) (he : e.2 = leafLblk)
    (hindex : IsIndex s' rootPhys nodes' (pre ++ e :: (item.hash, newLblk) :: post)) :
    InsertsEntry s s' rootPhys leafLblk name ino seq := by
  have hmaps : s'.dirWord newLblk = newPhys := (hent.word newLblk).trans hh.maps
  have huse : InUse V U' newPhys := hmaps ▸ hent.dir.inUse newLblk (hmaps ▸ hh.ne_zero)
  have hnew : (ext4DirGetBlocknr newLblk s').1 = some newPhys :=
    hmaps ▸ hent.dir.getBlocknr_of_ne hbs (hmaps ▸ hh.ne_zero)
  have hnone : (ext4DirGetBlocknr newLblk s).1 = none := by rw [h.getBlocknr hbs, if_pos hh.unmapped]
  have hapart : newPhys ≠ phys := fun heq ↦ hh.fresh (heq ▸ hphys.1)
  exact ⟨pre, e, post, s.dirWord leafLblk, lower, item, upper, newLblk, newPhys, nodes', hseq, he,
    h.getBlocknr_of_ne hbs hleaf, hsplit, congrArg Prod.fst hrun, hnone, hnew,
    ⟨c, (hent.kept newPhys huse hapart).trans hstored⟩, hindex⟩

/-- So can the new one. -/
theorem Halved.newLblk_lt {U' : Set ℕ} {leafPhys newLblk newPhys : ℕ} (hbs : V.bs ≤ blockSizeDefault)
    (hh : Halved V U U' s s' leafPhys newLblk newPhys) : newLblk < 2 ^ 32 :=
  lblk_lt hh.dir hbs (hh.maps ▸ hh.ne_zero)

/-- An index node that was not stored again. -/
theorem IsNode.kept {U' : Set ℕ} {s₃ : FsInode} {newLblk newPhys t : ℕ} {buf : Buf} {x : ℕ × ℕ}
    {l : List (ℕ × ℕ)} (hnode : IsNode s x l) (h : DirOn V U s) (hbs : V.bs ≤ blockSizeDefault)
    (hh : Halved V U U' s s₃ (s.dirWord leafLblk) newLblk newPhys)
    (hent : Entered V U' U s s₃ s' (s.dirWord leafLblk) (s.dirWord t) buf) (hleaf : x.2 ≠ leafLblk)
    (ht : x.2 ≠ t) : IsNode s' x l := by
  obtain ⟨phys, dx, hphys, hparse, rfl⟩ := hnode
  obtain ⟨rfl, hne⟩ := h.of_getBlocknr_some hbs hphys
  have hword : s'.dirWord x.2 = s.dirWord x.2 :=
    (hent.word x.2).trans (hh.other x.2 fun heq ↦ hne (heq ▸ hh.unmapped))
  have hblock : s'.fs.block (s.dirWord x.2) = s.fs.block (s.dirWord x.2) :=
    hent.block _ (h.inUse _ hne) (fun heq ↦ hleaf (h.inj _ _ hne heq)) (fun heq ↦ ht (h.inj _ _ hne heq))
      (h.apart _ hne)
  refine ⟨s.dirWord x.2, dx, ?_, ?_, ?_⟩
  · rw [hent.dir.getBlocknr_of_ne hbs (hword ▸ hne), hword]
  · rw [hblock, hent.dir.mounted.blockSize, ← h.mounted.blockSize]
    exact hparse
  · rw [hblock]

/-- So are all but the one that was. -/
theorem Entered.nodes_kept {U' : Set ℕ} {s₃ : FsInode} {newLblk newPhys t : ℕ} {buf : Buf}
    {m : List (ℕ × ℕ)} {m' : List (List (ℕ × ℕ))}
    (hent : Entered V U' U s s₃ s' (s.dirWord leafLblk) (s.dirWord t) buf) (h : DirOn V U s)
    (hbs : V.bs ≤ blockSizeDefault) (hh : Halved V U U' s s₃ (s.dirWord leafLblk) newLblk newPhys)
    (hm : ∀ x ∈ m, x.2 ≠ leafLblk ∧ x.2 ≠ t) (hnodes : List.Forall₂ (IsNode s) m m') :
    List.Forall₂ (IsNode s') m m' :=
  ((List.forall₂_and_left m m').2 ⟨hm, hnodes⟩).imp fun _ _ hx ↦ hx.2.kept h hbs hh hent hx.1.1 hx.1.2

/-- Index nodes that have blocks of their own are apart from each other and from a leaf. -/
theorem snd_ne_of_nodup {p q : List (ℕ × ℕ)} {e r : ℕ × ℕ} (h : ((p ++ r :: q).map Prod.snd).Nodup)
    (he : e.2 ∉ (p ++ r :: q).map Prod.snd) : ∀ x ∈ p ++ q, x.2 ≠ e.2 ∧ x.2 ≠ r.2 := by
  intro x hx
  have hmem : x ∈ p ++ r :: q := by rcases List.mem_append.1 hx with hx | hx <;> simp [hx]
  refine ⟨fun heq ↦ he (heq ▸ List.mem_map_of_mem hmem), fun heq ↦ ?_⟩
  rw [List.map_append, List.map_cons, List.perm_middle.nodup_iff, List.nodup_cons, ← List.map_append] at h
  exact h.1 (heq ▸ List.mem_map_of_mem hx)

/-- The block of the root is in use, and is not the indirect block. -/
theorem Indexed.rootUse (h : Indexed V U s rootPhys nodes seq) :
    InUse V U rootPhys ∧ rootPhys ≠ s.inode.word 12 :=
  ⟨h.root ▸ h.dir.inUse 0 (h.root ▸ h.rootPhys_ne), h.root ▸ h.dir.apart 0 (h.root ▸ h.rootPhys_ne)⟩

/-- The root takes the entry, where it has the leaves and is not full. -/
theorem Indexed.insertsEntry_flat {newPhys newLblk : ℕ}
    (h : Indexed V U s rootPhys nodes (dxList (s.fs.block rootPhys) dx 0))
    (hroot : ext4HtreeParseRoot (s.fs.block rootPhys) s.fs.blockSize = some (info, dx))
    (hlevels : (s.fs.block rootPhys).getField info DxRootInfo.indirectLevels = 0) (hroom : dx.nent ≠ dx.cap)
    (hrun : splitLeafNew (s.fs.block rootPhys) rootPhys leafLblk name ino s = (some (newPhys, newLblk), s')) :
    InsertsEntry s s' rootPhys leafLblk name ino (dxList (s.fs.block rootPhys) dx 0) := by
  obtain ⟨hrootUse, hrootInd⟩ := h.rootUse
  obtain ⟨hbs, target, idx, lower, item, upper, c, U', s₃, s₄, htarget, hfind, hleaf, hsplit, hh, hstored,
    hadd, hrefresh⟩ := h.dir.splitNew_of_some hroot hrun
  have hMid := (hash_lt_of_splitItems hsplit).2 item (List.mem_cons_self ..)
  rw [if_neg (by omega)] at htarget
  obtain rfl := Option.some.inj (Prod.mk.inj htarget).1
  dsimp only at hfind
  obtain ⟨pre, e, post, hlist, rfl, he⟩ := findDxIndex_eq_some 0 hfind
  obtain ⟨hroom, rfl⟩ := addDxEntry_of_room hh.dir hrootUse.2.2.1 (parseRoot_bounds hroot).2.2.2
    (fun heq ↦ absurd heq hroom) hadd
  dsimp only at hrefresh
  have hent := hh.entered h.tables hrootUse hrootInd hrefresh
  rw [h.dir.mounted.blockSize] at hroot
  exact hent.insertsEntry h.dir hbs hrootUse hleaf hh hsplit hstored hrun hlist he
    (.flat_entered hroot hlevels hlist hroom (hh.newLblk_lt hbs) hMid hent.dir.mounted.blockSize hent.stored)

/-- The index node with the leaf takes the entry, where there are index nodes. -/
theorem Indexed.insertsEntry_deep {newPhys newLblk : ℕ} {lists : List (List (ℕ × ℕ))}
    (h : Indexed V U s rootPhys (dxList (s.fs.block rootPhys) dx 0) lists.flatten)
    (hroot : ext4HtreeParseRoot (s.fs.block rootPhys) s.fs.blockSize = some (info, dx))
    (hlevels : (s.fs.block rootPhys).getField info DxRootInfo.indirectLevels = 1)
    (hbelow : List.Forall₂ (IsNode s) (dxList (s.fs.block rootPhys) dx 0) lists)
    (hrun : splitLeafNew (s.fs.block rootPhys) rootPhys leafLblk name ino s = (some (newPhys, newLblk), s')) :
    InsertsEntry s s' rootPhys leafLblk name ino lists.flatten := by
  have hdir := h.dir
  obtain ⟨hrootUse, hrootInd⟩ := h.rootUse
  obtain ⟨hbs, target, idx, lower, item, upper, c, U', s₃, s₄, htarget, hfind, hleaf, hsplit, hh, hstored,
    hadd, hrefresh⟩ := hdir.splitNew_of_some hroot hrun
  have hMid := (hash_lt_of_splitItems hsplit).2 item (List.mem_cons_self ..)
  -- the node `r` that was picked, and its entries
  rw [if_pos hlevels] at htarget
  obtain ⟨phys, node, dxn⟩ := target
  obtain ⟨-, hphys, rfl, hnode⟩ := hdir.looksUp.readDxNode_of_some htarget
  obtain ⟨r, hr, hpick⟩ := pickLeaf_mem (s.fs.block rootPhys) 0
    (ext4HtreeNameHash32 s.fs.sbi.sDefHashVersion name) (parseRoot_bounds hroot).2.2.1
  rw [← hpick] at hphys
  obtain ⟨rfl, hrne⟩ := hdir.of_getBlocknr_some hbs hphys
  obtain ⟨p, q, l, p', q', hl, rfl, hrl, hp, hq⟩ := forall₂_split hbelow hr
  obtain ⟨phys', dx', hphys', hparse', rfl⟩ := hrl
  rw [hphys] at hphys'
  obtain rfl := Option.some.inj hphys'
  rw [hdir.mounted.blockSize, hnode] at hparse'
  obtain rfl := Option.some.inj hparse'
  dsimp only at hfind
  obtain ⟨pre, e, post, hlist, rfl, he⟩ := findDxIndex_eq_some r.1 hfind
  have huse := hdir.inUse r.2 hrne
  obtain ⟨hroom, rfl⟩ := addDxEntry_of_room hh.dir huse.2.2.1 (parseNode_eq_some hnode).2.2.2.1
    (fun _ ↦ by omega) hadd
  dsimp only at hrefresh
  have hent := hh.entered h.tables huse (hdir.apart r.2 hrne) hrefresh
  have hseq : (p' ++ dxList (s.fs.block (s.dirWord r.2)) dxn r.1 :: q').flatten =
      (p'.flatten ++ pre) ++ e :: (post ++ q'.flatten) := by simp [hlist]
  -- the root and the other nodes are left alone
  have hleaves := h.leaves e (by rw [hseq]; simp)
  obtain ⟨hzero, hnodup⟩ := List.nodup_cons.1 h.nodes_nodup
  rw [he, List.mem_cons, not_or] at hleaves
  have hnodes := snd_ne_of_nodup (hl ▸ hnodup) (hl ▸ (he.symm ▸ hleaves.2 : e.2 ∉ _))
  rw [he] at hnodes
  have hrootBlock : s'.fs.block rootPhys = s.fs.block rootPhys := by
    refine hent.block rootPhys hrootUse (fun heq ↦ hleaves.1 ?_) (fun heq ↦ hzero ?_) hrootInd
    · exact hdir.inj leafLblk 0 hleaf (heq.symm.trans h.root.symm)
    · exact List.mem_map.2 ⟨r, hr, hdir.inj r.2 0 hrne (heq.symm.trans h.root.symm)⟩
  have hphys' : (ext4DirGetBlocknr r.2 s').1 = some (s.dirWord r.2) := by
    have hword' : s'.dirWord r.2 = s.dirWord r.2 :=
      (hent.word r.2).trans (hh.other r.2 fun heq ↦ hrne (heq ▸ hh.unmapped))
    rw [hent.dir.getBlocknr_of_ne hbs (hword' ▸ hrne), hword']
  have hr' :=
    IsNode.entered hnode hlist hroom (hh.newLblk_lt hbs) hMid hent.dir.mounted.blockSize hphys' hent.stored
  have hbelow' : List.Forall₂ (IsNode s') (dxList (s'.fs.block rootPhys) dx 0)
      (p' ++ (pre ++ e :: (item.hash, newLblk) :: post) :: q') := by
    rw [hrootBlock, hl]
    exact List.rel_append (hent.nodes_kept hdir hbs hh (fun x hx ↦ hnodes x (List.mem_append_left _ hx)) hp)
      (.cons hr' (hent.nodes_kept hdir hbs hh (fun x hx ↦ hnodes x (List.mem_append_right _ hx)) hq))
  have hroot' : ext4HtreeParseRoot (s'.fs.block rootPhys) s'.fs.blockSize = some (info, dx) := by
    rw [hrootBlock, hent.dir.mounted.blockSize, ← hdir.mounted.blockSize, hroot]
  have hindex : IsIndex s' rootPhys (dxList (s'.fs.block rootPhys) dx 0)
      ((p'.flatten ++ pre) ++ e :: (item.hash, newLblk) :: (post ++ q'.flatten)) := by
    simpa using IsIndex.deep hroot' (hrootBlock ▸ hlevels) hbelow'
  exact hent.insertsEntry hdir hbs huse hleaf hh hsplit hstored hrun hseq he hindex

/-- Where the index has room a split enters the new leaf. -/
theorem Indexed.insertsEntry (h : Indexed V U s rootPhys nodes seq) (hfull : ¬ FullRoot s rootPhys)
    (hrun : ext4HtreeSplitLeaf (s.fs.block rootPhys) rootPhys leafLblk name ino s = (some (), s')) :
    InsertsEntry s s' rootPhys leafLblk name ino seq := by
  obtain ⟨⟨newPhys, newLblk⟩, hnew⟩ := exists_splitLeafNew hrun
  cases h.index with
  | flat hroot hlevels =>
    exact h.insertsEntry_flat hroot hlevels (fun heq ↦ hfull ⟨_, _, hroot, hlevels, heq⟩) hnew
  | deep hroot hlevels hbelow => exact h.insertsEntry_deep hroot hlevels hbelow hnew

/-- Where there is no room the entries of the root go to a new node. -/
theorem addDxEntry_of_full {rootBuf : Buf} {target : ℕ × Buf × DxIndex} {newLblk : ℕ}
    (hfull : target.2.2.nent + 1 > target.2.2.cap)
    (hrun : ext4HtreeAddDxEntry rootBuf rootPhys info target idx hMid newLblk s = (some (), s')) :
    rootBuf.getField info DxRootInfo.indirectLevels = 0 ∧ ∃ nodePhys nodeLblk s₁,
      newMappedBlock s = (some (nodePhys, nodeLblk), s₁) ∧
      (onFs (Fs.writeBlock nodePhys (grownNode rootBuf s.fs.blockSize info target.2.2 idx hMid newLblk)) >>= fun _ ↦
        onFs (Fs.writeBlock rootPhys (grownRoot rootBuf info target.2.2.entries nodeLblk))) s₁ = (some (), s') := by
  unfold ext4HtreeAddDxEntry at hrun
  rw [get_bind, if_pos hfull] at hrun
  obtain ⟨hlevels, hrun⟩ := guard_bind_eq_some_iff.1 hrun
  obtain ⟨_, s₀, hmalloc, hrun⟩ := bind_eq_some_iff.1 hrun
  obtain ⟨-, rfl⟩ := of_onFs_mallocBlock_some hmalloc
  obtain ⟨⟨nodePhys, nodeLblk⟩, s₁, hnew, hrun⟩ := bind_eq_some_iff.1 hrun
  exact ⟨hlevels, nodePhys, nodeLblk, s₁, hnew, hrun⟩

/-- A full root is stored with one entry, that of a node which says it has as many as the root had. -/
theorem DirOn.grow_of_full {target : ℕ × Buf × DxIndex} {newLblk : ℕ} (h : DirOn V U s)
    (hfull : target.2.2.nent + 1 > target.2.2.cap) (hroot : InUse V U rootPhys)
    (hind : rootPhys ≠ s.inode.word 12)
    (hrun : ext4HtreeAddDxEntry b rootPhys info target idx hMid newLblk s = (some (), s')) :
    ∃ nodePhys nodeLblk U', nodePhys ≠ 0 ∧ DirOn V U' s' ∧ s'.dirWord nodeLblk = nodePhys ∧
      (∀ i, s.dirWord i ≠ 0 → s'.dirWord i = s.dirWord i) ∧ ¬ V.IsMeta rootPhys ∧ ¬ V.IsMeta nodePhys ∧
      s'.fs.block rootPhys = Buf.clip V.bs (grownRoot b info target.2.2.entries nodeLblk) ∧
      s'.fs.block nodePhys = Buf.clip V.bs (grownNode b V.bs info target.2.2 idx hMid newLblk) := by
  obtain ⟨-, nodePhys, nodeLblk, s₁, hnew, hrun⟩ := addDxEntry_of_full hfull hrun
  obtain ⟨hfresh, hne, -, U', hmap⟩ := h.newMappedBlock_of_some hnew
  have huse := hmap.dir.inUse nodeLblk (hmap.maps ▸ hne)
  have hapart := hmap.dir.apart nodeLblk (hmap.maps ▸ hne)
  rw [hmap.maps] at huse hapart
  set node := grownNode b s.fs.blockSize info target.2.2 idx hMid newLblk with hnode
  rw [bind_of_eq_some (writeBlock_eq hmap.dir.mounted huse.2 _)] at hrun
  obtain ⟨hput, hword⟩ := hmap.dir.put node huse.2.2.2 hapart
  set root := grownRoot b info target.2.2.entries nodeLblk with hroot'
  rw [writeBlock_eq hput.mounted hroot.2] at hrun
  obtain rfl := (Prod.mk.inj hrun).2
  obtain ⟨hput', hword'⟩ := hput.put root hroot.2.2.2 (hmap.indirect rootPhys hroot.1 hind)
  have hne' : nodePhys ≠ rootPhys := fun heq ↦ hfresh (heq ▸ hroot.1)
  have hbs₁ : s₁.fs.blockSize = V.bs := hmap.dir.mounted.blockSize
  refine ⟨nodePhys, nodeLblk, U', hne, hput', ?_, fun i hi ↦ ?_, hroot.2.2.2, huse.2.2.2, ?_, ?_⟩
  · rw [hword', hword, hmap.maps]
  · rw [hword', hword, hmap.other i fun heq ↦ hi (heq ▸ hmap.unmapped)]
  · rw [Fs.block_put_self, Fs.put_blockSize, hbs₁]
  · rw [Fs.block_put_of_ne _ _ hne', Fs.block_put_self, hbs₁, hnode, h.mounted.blockSize]

/-- Where the root has the leaves and is full, a split loses an entry. -/
theorem Indexed.not_insertsEntry (h : Indexed V U s rootPhys nodes seq) (hfull : FullRoot s rootPhys)
    (hrun : ext4HtreeSplitLeaf (s.fs.block rootPhys) rootPhys leafLblk name ino s = (some (), s')) :
    ¬ InsertsEntry s s' rootPhys leafLblk name ino seq := by
  obtain ⟨hdir, htables, hge, hne, hword, hindex, -, -⟩ := h
  obtain ⟨info, dx, hroot, hlevels, hcap⟩ := hfull
  have hrootUse : InUse V U rootPhys := hword ▸ hdir.inUse 0 (hword ▸ hne)
  have hrootInd : rootPhys ≠ s.inode.word 12 := hword ▸ hdir.apart 0 (hword ▸ hne)
  have hlength : seq.length = dx.nent := by
    cases hindex with
    | flat hroot₁ _ =>
      rw [hroot] at hroot₁
      obtain ⟨rfl, rfl⟩ := Prod.mk.inj (Option.some.inj hroot₁)
      exact length_dxList ..
    | deep hroot₁ hlevels₁ _ =>
      rw [hroot] at hroot₁
      obtain ⟨rfl, rfl⟩ := Prod.mk.inj (Option.some.inj hroot₁)
      omega
  obtain ⟨⟨newPhys, newLblk⟩, hnew⟩ := exists_splitLeafNew hrun
  obtain ⟨hbs, target, idx, lower, item, upper, c, U', s₃, s₄, htarget, hfind, hleaf, hsplit, hh, hstored,
    hadd, hrefresh⟩ := hdir.splitNew_of_some hroot hnew
  rw [if_neg (by omega)] at htarget
  obtain rfl := Option.some.inj (Prod.mk.inj htarget).1
  obtain ⟨nodePhys, nodeLblk, U'', hnode, hdir₄, hmaps, -, hmetaRoot, hmetaNode, hblockRoot, hblockNode⟩ :=
    hh.dir.grow_of_full (show dx.nent + 1 > dx.cap by omega) (hrootUse.mono hh.sub)
      (hh.indirect _ hrootUse.1 hrootInd) hadd
  obtain ⟨hdir', hword', hblock'⟩ := hdir₄.refresh htables hrefresh
  have hnodeLblk : nodeLblk < 2 ^ 32 := lblk_lt hdir₄ hbs (hmaps ▸ hnode)
  rw [hdir.mounted.blockSize] at hroot
  obtain ⟨hrootNew, hlevelsNew, hlistNew⟩ := parseRoot_grownRoot hroot hnodeLblk
  rw [← hblockRoot, ← hblock' rootPhys hmetaRoot] at hrootNew hlevelsNew hlistNew
  rintro ⟨pre, e, post, -, -, item', -, newLblk', -, nodes', hseq, -, -, -, -, -, -, -, hindex'⟩
  -- the one entry of the root leads to a list as long as that of the root was
  have hlength' : (pre ++ e :: (item'.hash, newLblk') :: post).length = dx.nent := by
    rw [← hdir'.mounted.blockSize] at hrootNew
    generalize hseq' : pre ++ e :: (item'.hash, newLblk') :: post = seq' at hindex'
    cases hindex' with
    | flat hroot₁ hlevels₁ =>
      rw [hrootNew] at hroot₁
      obtain ⟨rfl, rfl⟩ := Prod.mk.inj (Option.some.inj hroot₁)
      omega
    | @deep info₁ dx₁ lists hroot₁ _ hbelow =>
      rw [hrootNew] at hroot₁
      obtain ⟨rfl, rfl⟩ := Prod.mk.inj (Option.some.inj hroot₁)
      rw [hlistNew, List.forall₂_cons_left_iff] at hbelow
      obtain ⟨l, rest, ⟨phys, dxn, hphys, hparse, rfl⟩, hrest, rfl⟩ := hbelow
      obtain rfl := List.forall₂_nil_left_iff.1 hrest
      obtain ⟨rfl, -⟩ := hdir'.of_getBlocknr_some hbs hphys
      obtain ⟨hentries, -, -, -, -, hcount⟩ := parseNode_eq_some hparse
      obtain ⟨-, -, -, -, -, -, -, -, -, -, -, -, hpos, -, -, hrootCount, -⟩ := parseRoot_eq_some hroot
      rw [hword', hmaps, hblock' nodePhys hmetaNode, hblockNode, hentries,
        count_grownNode hpos (by simp only [DxNode.countlimit, DxEntry.size]; omega), hrootCount] at hcount
      simp [hcount]
  rw [hseq] at hlength
  simp only [List.length_append, List.length_cons] at hlength hlength'
  omega

/-- The volume of a small directory. -/
abbrev indexVolume : Volume := Mkfs.volume 4096 64 Mkfs.smallSb.toSbGeom

/-- The blocks in use on it. -/
abbrev indexUsed : Set ℕ := Mkfs.initialUsed 4096 64 ∪ Set.Ico 9 (9 + 3)

/-- The root of an index with one leaf and room for `limit` entries. -/
def indexRoot (limit : ℕ) : Buf :=
  let root := (dotsBlock 4096).setField 24 DxRootInfo.infoLength DxRootInfo.size
  let root := (root.setField 32 DxCountlimit.limit limit).setField 32 DxCountlimit.count 1
  root.setField 32 DxEntry.block 1

/-- A leaf with one name. -/
def indexLeaf : Buf := ext4HtreePackLeaf Buf.zero 4096 [itemOf (ext4HtreeNameHash32 0) ([97], 12)]

/-- The small volume with three blocks more in use, the root and the leaf. -/
def indexFs (limit : ℕ) : Fs :=
  Fs.put (Fs.put { (Mkfs.smallFs.ext4NewBlocksInGroup 3 0).2 with preallocGoalLen := 1 } 9
    (indexRoot limit)) 10 indexLeaf

/-- The inode of a directory whose blocks are the root and the leaf. -/
def indexInode : Inode :=
  { (smallFile 1).inode with
    iMode := 0o40755, iFlags := ext4InodeFlagIndex, iBlock := (Buf.zero.putLe 0 4 9).putLe 4 4 10 }

/-- A directory with an index of one leaf. -/
def indexDir (limit : ℕ) : FsInode := ⟨indexFs limit, indexInode⟩

theorem indexVolume_tablesLaid : indexVolume.TablesLaid :=
  Mkfs.mounted_small.1.tablesLaid Mkfs.fits_small.spaced (by norm_num) (by norm_num) (by decide)
    (by unfold Mkfs.TablesBelow; decide +kernel)

theorem indexUsed_inUse {b : ℕ} (h : 9 ≤ b) (h' : b < 12) : InUse indexVolume indexUsed b := by
  have hblocks : indexVolume.blocks = 64 := Mkfs.mounted_small.1.sBlocksCount
  exact ⟨.inr ⟨h, h'⟩, by omega, by omega, Mkfs.not_isMeta_small h (by omega)⟩

/-- The example is a volume. -/
theorem indexDir_mounted (limit : ℕ) : indexVolume.Mounted indexUsed (indexFs limit) := by
  have hrun : Mkfs.smallFs.ext4NewBlocksInGroup 3 0 = (some (9, 3), _) := eq_of_fst_eq (by decide +kernel)
  have hmounted := (mounted_of_newBlocks Mkfs.mounted_small.2 (by decide) hrun).2
  have hput : ∀ {fs : Fs} {b : ℕ} (buf : Buf), indexVolume.Mounted indexUsed fs → InUse indexVolume indexUsed b →
      indexVolume.Mounted indexUsed (fs.put b buf) := fun buf h hb ↦
    h.put buf (fun g hg heq ↦ hb.2.2.2 (.inl (.inr ⟨g, hg, .inl heq⟩)))
      fun g hg heq ↦ hb.2.2.2 (.inl (.inr ⟨g, hg, .inr heq⟩))
  exact hput _ (hput _ hmounted (indexUsed_inUse le_rfl (by norm_num)))
    (indexUsed_inUse (by norm_num) (by norm_num))

theorem indexInode_word : ∀ i < 13, indexInode.word i = if i = 0 then 9 else if i = 1 then 10 else 0 := by
  decide +kernel

theorem indexDir_dirWord (limit i : ℕ) :
    (indexDir limit).dirWord i = if i = 0 then 9 else if i = 1 then 10 else 0 := by
  by_cases hi : i < 12
  · exact (dirWord_of_lt hi).trans (indexInode_word i (by omega))
  · rw [dirWord_of_not hi fun hc ↦ hc.2 (indexInode_word 12 (by norm_num)), if_neg (by omega),
      if_neg (by omega)]

/-- The example is a directory of it. -/
theorem indexDir_dirOn (limit : ℕ) : DirOn indexVolume indexUsed (indexDir limit) := by
  have hbs : indexVolume.bs = 4096 := Mkfs.mounted_small.1.sBlockSize
  have hind : (indexDir limit).inode.word 12 = 0 := indexInode_word 12 (by norm_num)
  have hword := indexDir_dirWord limit
  refine ⟨indexDir_mounted limit, by rw [hbs]; decide, (by decide : indexInode.hasExtents = false),
    fun hne ↦ absurd hind hne, fun i hi ↦ ?_,
    fun i j hi heq ↦ ?_, fun i hi ↦ hind ▸ hi⟩
  · rw [hword] at hi ⊢
    split at hi <;> rename_i h0
    · rw [if_pos h0]
      exact indexUsed_inUse le_rfl (by norm_num)
    · split at hi <;> rename_i h1
      · rw [if_neg h0, if_pos h1]
        exact indexUsed_inUse (by norm_num) (by norm_num)
      · exact absurd rfl hi
  · rw [hword] at hi
    rw [hword, hword] at heq
    grind

/-- The directory of the example has an index. -/
theorem indexDir_indexed {limit : ℕ} (h : limit = 1 ∨ limit = 508) :
    Indexed indexVolume indexUsed (indexDir limit) 9 [] [(0, 1)] := by
  have hroot : ext4HtreeParseRoot ((indexDir limit).fs.block 9) (indexDir limit).fs.blockSize =
      some (24, ⟨32, limit, 1⟩) := by
    rcases h with rfl | rfl <;> decide +kernel
  have hlevels : ((indexDir limit).fs.block 9).getField 24 DxRootInfo.indirectLevels = 0 := by
    rcases h with rfl | rfl <;> decide +kernel
  have hlist : dxList ((indexDir limit).fs.block 9) ⟨32, limit, 1⟩ 0 = [(0, 1)] := by
    rcases h with rfl | rfl <;> decide +kernel
  refine ⟨indexDir_dirOn limit, indexVolume_tablesLaid, ?_, by norm_num, ?_, ?_, by simp, by simp⟩
  · rw [show indexVolume.bs = 4096 from Mkfs.mounted_small.1.sBlockSize]
    norm_num
  · rw [indexDir_dirWord, if_pos rfl]
  · rw [← hlist]
    exact .flat hroot hlevels

end FsInode

end MiniExt4
