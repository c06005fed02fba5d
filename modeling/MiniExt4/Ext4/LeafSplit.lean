import MiniExt4.Ext4.LeafInsert

/-!
# Splitting a leaf

A leaf with no room is cut in two by the number of its names in the order of their hashes. Nothing looks
at how long the names are, so a half need not fit into a block; and where it falls four bytes short, the
dead record behind it does not fit (`splitsLeaf_iff`).

The names of a leaf become items with their hashes, are sorted, cut in two in the middle of the list and
packed into two blocks. Nothing is lost up to there (`halves_perm`), whatever the hashes are. Packing is an
induction on the items (`packLoop_chain`), and `Fits` is the condition on one half under which the chain
ends at the end of the block; that the condition is needed is read off the offset at which the packing
stops.
-/

namespace MiniExt4

open StateErr Dirent
open Buf (ChainView)
open Buf.ChainView (chain_append)

namespace Leaf

variable {b c : Buf} {bs ino needRec fuel o : ℕ} {l : List Dirent} {name : List Byte}
  {hash32 : List Byte → ℕ} {items : List LeafItem} {item : LeafItem}

/-! ### Items -/

/-- The item of a name and an inode number. -/
def itemOf (hash32 : List Byte → ℕ) (e : List Byte × ℕ) : LeafItem := ⟨hash32 e.1, e.2, e.1⟩

/-- The name and the inode number of an item. -/
def pairOf (item : LeafItem) : List Byte × ℕ := (item.name, item.ino)

/-- The record that is stored for an item. -/
def record (item : LeafItem) : Dirent := ⟨item.ino, ext4DirRecLen item.name.length, item.name⟩

/-- The item is that of a name of a directory. -/
structure Sound (hash32 : List Byte → ℕ) (item : LeafItem) : Prop where
  hash : item.hash = hash32 item.name
  pos : 0 < item.ino
  lt : item.ino < 2 ^ 32
  name_pos : 1 ≤ item.name.length
  name_le : item.name.length ≤ 255

/-- The bytes of the records of so many items. -/
def bytes (items : List LeafItem) : ℕ := view.total (items.map record)

@[simp] theorem bytes_nil : bytes [] = 0 := rfl

@[simp] theorem bytes_cons (item : LeafItem) (items : List LeafItem) :
    bytes (item :: items) = ext4DirRecLen item.name.length + bytes items := rfl

@[simp] theorem bytes_append (i₁ i₂ : List LeafItem) : bytes (i₁ ++ i₂) = bytes i₁ + bytes i₂ := by
  simp [bytes]

/-- Records end on a multiple of four. -/
theorem four_dvd_bytes (items : List LeafItem) : 4 ∣ bytes items := by
  induction items with
  | nil => exact Nat.dvd_zero 4
  | cons item items ih => exact Nat.dvd_add (ext4DirRecLen_bounds _).2.2 ih

/-- The record of a sound item is well formed. -/
theorem Sound.record_ok (h : Sound hash32 item) : (record item).Ok where
  aligned := (ext4DirRecLen_bounds _).2.2
  fits := le_rfl
  named _ hnil := by
    have := h.name_pos
    rw [show item.name = [] from hnil] at this
    simp at this

/-- Packed items are live. -/
theorem live_records (h : ∀ item ∈ items, Sound hash32 item) : live (items.map record) = items.map pairOf := by
  induction items with
  | nil => rfl
  | cons item items ih =>
    have hpos := (h item (by simp)).pos
    rw [List.map_cons, live_cons, if_neg (show (record item).inode ≠ 0 by simp only [record]; omega),
      ih fun i hi ↦ h i (by simp [hi])]
    rfl

/-! ### Collecting -/

/-- The names that are collected from a chain. -/
theorem leafCollectLoop_eq (h : view.Chain b bs o l) (hfuel : bs ≤ o + fuel)
    (hroom : items.length + (live l).length ≤ ext4HtreeSplitMaxNames) :
    leafCollectLoop hash32 b bs fuel o items = some (items ++ (live l).map (itemOf hash32)) := by
  induction fuel generalizing o l items with
  | zero =>
    have hle := h.le
    rcases l with _ | ⟨r, l⟩
    · simp [leafCollectLoop]
    · have := h.2.1.eight_le
      have := h.2.2.le
      simp only [view_len] at this
      omega
  | succ fuel ih =>
    unfold leafCollectLoop
    rcases l with _ | ⟨r, l⟩
    · obtain rfl : o = bs := h
      simp
    obtain ⟨hread, hok, hrest⟩ := h
    have h8 := hok.eight_le
    have hrec : b.getField o De.recLen = r.recLen := congrArg recLen hread
    have hino : b.getField o De.inode = r.inode := congrArg inode hread
    have hlt := hrest.le
    simp only [view_len] at hlt hrest
    rw [if_pos (show o < bs by omega)]
    simp only [hrec, hino]
    rw [if_neg (show r.recLen ≠ 0 by omega)]
    -- a dead record is passed over
    by_cases hlive : r.inode = 0
    · rw [live_cons, if_pos hlive] at hroom ⊢
      rw [if_neg (by simp [hlive]), ih hrest (by omega) hroom]
    · have hnl : b.getField o De.nameLen = r.name.length := by
        rw [← show Dirent.read b o = r from hread]
        exact nameLen_eq (by rw [show Dirent.read b o = r from hread]; exact hlive)
      have hname : nameAt b o r.name.length = r.name := by
        rw [← hnl]
        conv_rhs => rw [← show Dirent.read b o = r from hread]
        exact (read_name_of_live (by rw [show Dirent.read b o = r from hread]; exact hlive)).symm
      have hpos := List.length_pos_of_ne_nil (hok.named hlive)
      rw [live_cons, if_neg hlive, List.length_cons] at hroom
      rw [hnl, if_pos ⟨hlive, hpos⟩, if_neg (by omega), hname, ih hrest (by omega) (by simp; omega),
        live_cons, if_neg hlive]
      simp [itemOf]

/-- A live entry takes at least 12 bytes. -/
theorem length_live_le (h : view.Chain b bs o l) : o + 12 * (live l).length ≤ bs := by
  induction l generalizing o with
  | nil =>
    obtain rfl : o = bs := h
    simp
  | cons r l ih =>
    obtain ⟨-, hok, hrest⟩ := h
    have hle := ih hrest
    simp only [view_len] at hle
    by_cases hlive : r.inode = 0
    · rw [live_cons, if_pos hlive]
      omega
    · have hpos := List.length_pos_of_ne_nil (hok.named hlive)
      have hfits := hok.fits
      have haligned := (ext4DirRecLen_bounds r.name.length)
      rw [live_cons, if_neg hlive, List.length_cons]
      have : 12 ≤ ext4DirRecLen r.name.length := by
        obtain ⟨k, hk⟩ := haligned.2.2
        omega
      omega

/-- The live names of a chain are those of entries. -/
theorem sound_of_live (h : view.Chain b bs o l) {e : List Byte × ℕ} (he : e ∈ live l) :
    Sound hash32 (itemOf hash32 e) := by
  obtain ⟨r, hr, hpair⟩ := List.mem_filterMap.1 he
  obtain ⟨pre, post, rfl⟩ := List.append_of_mem hr
  obtain ⟨-, hread, hok, -⟩ := chain_append.1 h
  have hlive : r.inode ≠ 0 := fun hzero ↦ by simp [pair, hzero] at hpair
  obtain rfl : (r.name, r.inode) = e := by simpa [pair, hlive] using hpair
  refine ⟨rfl, Nat.pos_of_ne_zero hlive, ?_, List.length_pos_of_ne_nil (hok.named hlive), ?_⟩
  · have hino := Buf.getField_lt b (o + view.total pre) De.inode
    rwa [show b.getField (o + view.total pre) De.inode = r.inode from congrArg inode hread] at hino
  · have := nameLen_lt b (o + view.total pre)
    rw [show Dirent.read b (o + view.total pre) = r from hread] at this
    exact Nat.le_of_lt_succ this

/-- The names of a leaf and a new one, in the order of their hashes, in two parts. -/
def halves (hash32 : List Byte → ℕ) (l : List Dirent) (name : List Byte) (ino : ℕ) :
    List LeafItem × List LeafItem :=
  let items := ext4HtreeSortItems ((live l ++ [(name, ino)]).map (itemOf hash32))
  (items.take (items.length / 2), items.drop (items.length / 2))

/-- The halves have the entries of the leaf and the new one, each once. -/
theorem halves_perm (hash32 : List Byte → ℕ) (l : List Dirent) (name : List Byte) (ino : ℕ) :
    ((halves hash32 l name ino).1 ++ (halves hash32 l name ino).2).Perm
      ((live l ++ [(name, ino)]).map (itemOf hash32)) := by
  simp only [halves, List.take_append_drop]
  exact ExchangeSort.sort_perm _

/-- Neither half is empty. -/
theorem halves_ne_nil (hlive : live l ≠ []) :
    (halves hash32 l name ino).1 ≠ [] ∧ (halves hash32 l name ino).2 ≠ [] := by
  have hpos := List.length_pos_of_ne_nil hlive
  have hlen := (halves_perm hash32 l name ino).length_eq
  simp only [List.length_append, List.length_map, List.length_singleton] at hlen
  have hhalf : (halves hash32 l name ino).1.length = ((live l).length + 1) / 2 := by
    simp only [halves, ext4HtreeSortItems, List.length_take, ExchangeSort.length_sort, List.length_map,
      List.length_append, List.length_singleton]
    omega
  constructor <;> refine List.ne_nil_of_length_pos ?_ <;> omega

/-- The lower half has the lower hashes. -/
theorem halves_le : ∀ i₁ ∈ (halves hash32 l name ino).1, ∀ i₂ ∈ (halves hash32 l name ino).2,
    i₁.hash ≤ i₂.hash := by
  have hsorted := @ExchangeSort.sort_sorted _ _ _ LeafItem.hash
    ((live l ++ [(name, ino)]).map (itemOf hash32))
  rw [← List.take_append_drop ((ext4HtreeSortItems ((live l ++ [(name, ino)]).map (itemOf hash32))).length / 2)
    (ExchangeSort.sort LeafItem.hash ((live l ++ [(name, ino)]).map (itemOf hash32)))] at hsorted
  exact (List.pairwise_append.1 hsorted).2.2

/-- The items of both halves are sound. -/
theorem halves_sound (h : view.Chain b bs o l) (hino : 0 < ino) (hino' : ino < 2 ^ 32)
    (hname : 1 ≤ name.length) (hname' : name.length ≤ 255) :
    ∀ item ∈ (halves hash32 l name ino).1 ++ (halves hash32 l name ino).2, Sound hash32 item := by
  intro item hitem
  obtain ⟨e, he, rfl⟩ := List.mem_map.1 ((halves_perm hash32 l name ino).mem_iff.1 hitem)
  rcases List.mem_append.1 he with he | he
  · exact sound_of_live h he
  · obtain rfl := List.mem_singleton.1 he
    exact ⟨rfl, hino, hino', hname, hname'⟩

/-- What is collected and cut in two. -/
theorem splitItems_eq (h : Tiles b bs l) (hbs : bs ≤ 4096) (hlive : live l ≠ []) (hino : ino < 2 ^ 32) :
    splitItems hash32 b bs name ino = some (halves hash32 l name ino) := by
  have hlen := length_live_le h
  have hmax : ext4HtreeSplitMaxNames = 512 := rfl
  have hpos := List.length_pos_of_ne_nil hlive
  have hcollect : ext4HtreeLeafCollect hash32 b bs = some ((live l).map (itemOf hash32)) := by
    have := @leafCollectLoop_eq b bs bs 0 l hash32 [] h (by omega) (by rw [hmax, List.length_nil]; omega)
    rwa [List.nil_append] at this
  have hitems : (live l).map (itemOf hash32) ++ [⟨hash32 name, u32 ino, name⟩] =
      (live l ++ [(name, ino)]).map (itemOf hash32) := by
    rw [u32_of_lt hino, List.map_append]
    rfl
  have hsort : (ext4HtreeSortItems ((live l ++ [(name, ino)]).map (itemOf hash32))).length =
      (live l).length + 1 := by
    rw [ext4HtreeSortItems, ExchangeSort.length_sort]
    simp
  unfold splitItems
  rw [hcollect]
  show (if ((live l).map (itemOf hash32)).length ≥ ext4HtreeSplitMaxNames then none else _) = _
  rw [if_neg (by rw [List.length_map, hmax]; omega), hitems, if_neg (by rw [hsort]; omega)]
  rfl

/-! ### Packing -/

/-- Packing two lists is packing one after the other. -/
theorem packLoop_append (i₁ i₂ : List LeafItem) (o : ℕ) (b : Buf) :
    packLoop (i₁ ++ i₂) o b = packLoop i₂ (packLoop i₁ o b).2 (packLoop i₁ o b).1 := by
  induction i₁ generalizing o b with
  | nil => rfl
  | cons item i₁ ih => exact ih _ _

/-- Where packing ends. -/
theorem packLoop_end (items : List LeafItem) (o : ℕ) (b : Buf) : (packLoop items o b).2 = o + bytes items := by
  induction items generalizing o b with
  | nil => rfl
  | cons item items ih => rw [packLoop, ih, bytes_cons, Nat.add_assoc]

/-- Packing leaves what is outside. -/
theorem packLoop_out {i : ℕ} (items : List LeafItem) (b : Buf) (h : i < o ∨ o + bytes items ≤ i) :
    (packLoop items o b).1 i = b i := by
  induction items generalizing o b with
  | nil => rfl
  | cons item items ih =>
    have hrec := (ext4DirRecLen_bounds item.name.length).1
    rw [bytes_cons] at h
    rw [packLoop, ih _ (by omega), putEntry_out (by omega)]

/-- What is packed is a chain of records. -/
theorem packLoop_chain (h : ∀ item ∈ items, Sound hash32 item) (o : ℕ) (b : Buf) :
    view.Chain (packLoop items o b).1 (o + bytes items) o (items.map record) := by
  induction items generalizing o b with
  | nil => rfl
  | cons item items ih =>
    have hitem := h item (by simp)
    have hbounds := ext4DirRecLen_bounds item.name.length
    have hrest := ih (fun i hi ↦ h i (by simp [hi])) (o + ext4DirRecLen item.name.length)
      (putEntry b o item.ino (ext4DirRecLen item.name.length) 0 item.name)
    have hle := hitem.name_le
    have hput := read_putEntry b o 0 hitem.lt (show ext4DirRecLen item.name.length < 2 ^ 16 by omega)
      (show item.name.length < 2 ^ 8 by omega)
    rw [if_neg hitem.pos.ne'] at hput
    have hput : Dirent.read _ o = record item := hput
    have hread : Dirent.read (packLoop (item :: items) o b).1 o = record item := by
      rw [← hput]
      refine view.read_congr (by rw [view_read, hput]; exact hitem.record_ok) fun i _ hlt ↦ ?_
      rw [view_read, hput] at hlt
      exact packLoop_out _ _ (.inl hlt)
    rw [List.map_cons]
    refine ⟨hread, hitem.record_ok, ?_⟩
    rw [bytes_cons, ← Nat.add_assoc]
    exact hrest

/-- The records fit into a block, and the header of a dead one fits behind them if there is a gap. -/
def Fits (bs : ℕ) (items : List LeafItem) : Prop := bytes items ≤ bs ∧ bytes items + 4 ≠ bs

instance : Decidable (Fits bs items) := inferInstanceAs (Decidable (_ ∧ _))

/-- What is left behind the items is nothing or room for a record. -/
theorem Fits.gap (h : Fits bs items) (h4 : 4 ∣ bs) : bytes items = bs ∨ bytes items + 8 ≤ bs := by
  have hdvd := four_dvd_bytes items
  obtain ⟨hle, hne⟩ := h
  omega

/-- Nothing is stored behind the block. -/
theorem Fits.pack_out (h : Fits bs items) (h4 : 4 ∣ bs) (c : Buf) {i : ℕ} (hi : bs ≤ i) :
    ext4HtreePackLeaf c bs items i = c i := by
  have hend := packLoop_end items 0 (c.clear 0 bs)
  have hgap := h.gap h4
  have hout : (packLoop items 0 (c.clear 0 bs)).1 i = c i := by
    rw [packLoop_out _ _ (.inr (by have := h.1; omega)), Buf.clear_out (.inr (by omega))]
  rw [Nat.zero_add] at hend
  simp only [ext4HtreePackLeaf, hend]
  split
  · rw [putEntry_out (.inr (by rw [List.length_nil]; omega)), hout]
  · exact hout

/-- The records of the items, and a dead one for the rest of the block. -/
def packed (bs : ℕ) (items : List LeafItem) : List Dirent :=
  items.map record ++ if bytes items < bs then [⟨0, bs - bytes items, []⟩] else []

/-- The live entries of a packed leaf are its items. -/
theorem live_packed (h : ∀ item ∈ items, Sound hash32 item) : live (packed bs items) = items.map pairOf := by
  rw [packed, live_append, live_records h]
  split <;> simp [live_cons]

/-- The block is a chain of the records. -/
theorem Fits.pack_tiles (h : Fits bs items) (h4 : 4 ∣ bs) (hbs : bs < 2 ^ 16)
    (hitems : ∀ item ∈ items, Sound hash32 item) (c : Buf) :
    Tiles (ext4HtreePackLeaf c bs items) bs (packed bs items) := by
  have hend := packLoop_end items 0 (c.clear 0 bs)
  have hchain := packLoop_chain hitems 0 (c.clear 0 bs)
  rw [Nat.zero_add] at hend hchain
  simp only [ext4HtreePackLeaf, hend, packed]
  rcases h.gap h4 with hfull | hgap
  · rw [if_neg (by omega), if_neg (by omega), List.append_nil]
    exact hfull ▸ hchain
  · rw [if_pos (by omega), if_pos (by omega)]
    have htail := read_putEntry (packLoop items 0 (c.clear 0 bs)).1 (bytes items) 0
      (show 0 < 2 ^ 32 by norm_num) (show bs - bytes items < 2 ^ 16 by omega)
      (show ([] : List Byte).length < 2 ^ 8 by norm_num)
    rw [if_pos rfl] at htail
    refine chain_append.2 ⟨?_, ?_, ?_, ?_⟩
    · rw [Nat.zero_add]
      exact hchain.congr fun i _ hlt ↦ putEntry_out (.inl hlt)
    · rw [Nat.zero_add]
      exact htail
    · exact ⟨Nat.dvd_sub h4 (four_dvd_bytes items), by simp [ext4DirRecLen]; omega, by simp⟩
    · show 0 + bytes items + (bs - bytes items) = bs
      omega

/-- Where the bytes of the name are stored. -/
theorem putEntry_name (b : Buf) (o recLen fileType : ℕ) {k : ℕ} (hk : k < name.length) :
    putEntry b o ino recLen fileType name (o + De.name + k) = name[k] := by
  have hname := congrArg (fun n : List Byte ↦ n[k]?) (nameAt_putEntry b o ino recLen fileType name)
  simpa [nameAt, hk] using hname

/-- If nothing is ever stored behind the block then the records fit. -/
theorem fits_of_pack_out (h4 : 4 ∣ bs) (hitems : ∀ item ∈ items, Sound hash32 item) (hne : items ≠ [])
    (h : ∀ x : Byte, ∃ c : Buf, (∀ i, bs ≤ i → c i = x) ∧ ∀ i, bs ≤ i → ext4HtreePackLeaf c bs items i = x) :
    Fits bs items := by
  have hend : ∀ c : Buf, (packLoop items 0 (c.clear 0 bs)).2 = bytes items := fun c ↦ by
    rw [packLoop_end, Nat.zero_add]
  have hdvd := four_dvd_bytes items
  constructor
  · -- otherwise the last byte of the last name is stored there
    by_contra hgt
    obtain ⟨init, item, rfl⟩ := (List.eq_nil_or_concat' items).resolve_left hne
    have hname := (hitems item (by simp)).name_pos
    have hbounds := (ext4DirRecLen_bounds item.name.length)
    simp only [bytes_append, bytes_cons, bytes_nil] at hgt hdvd hend
    obtain ⟨c, -, hout⟩ := h (item.name[item.name.length - 1] + 1)
    have hlast := hout (bytes init + De.name + (item.name.length - 1)) (by simp only [De.name]; omega)
    have hpack : ext4HtreePackLeaf c bs (init ++ [item]) = (packLoop (init ++ [item]) 0 (c.clear 0 bs)).1 := by
      simp only [ext4HtreePackLeaf, hend]
      rw [if_neg (by omega)]
    rw [hpack, packLoop_append, packLoop_end, Nat.zero_add, packLoop, packLoop] at hlast
    dsimp only at hlast
    rw [putEntry_name _ _ _ _ (show item.name.length - 1 < item.name.length by omega)] at hlast
    simp at hlast
  · -- otherwise the length of the dead record is stored there
    intro hgap
    obtain ⟨c, -, hout⟩ := h 0
    have hlen := putEntry_recLen (packLoop items 0 (c.clear 0 bs)).1 (bytes items) 0 (bs - bytes items) 0 []
    have hpack : ext4HtreePackLeaf c bs items =
        putEntry (packLoop items 0 (c.clear 0 bs)).1 (bytes items) 0 (bs - bytes items) 0 [] := by
      simp only [ext4HtreePackLeaf, hend]
      rw [if_pos (by omega)]
    rw [← hpack, show bs - bytes items = 4 by omega] at hlen
    have hzero : (ext4HtreePackLeaf c bs items).getField (bytes items) De.recLen =
        Buf.zero.getField (bytes items) De.recLen :=
      Buf.getField_congr fun i hlo _ ↦ hout i (by simp only [De.recLen] at hlo; omega)
    rw [hlen, Buf.getField, Buf.le_zero_buf] at hzero
    simp at hzero

/-! ### The split -/

/-- In a leaf with no room there is a name. -/
theorem live_ne_nil_of_noRoom (hbs : 1024 ≤ bs) (h : Tiles b bs l) (hname : name.length ≤ 255)
    (hnone : (ext4HtreeTryInsertLeaf bs name ino (ext4DirRecLen name.length) b).1 = none) : live l ≠ [] := by
  intro hnil
  have hbounds := ext4DirRecLen_bounds name.length
  have hrun := @tryInsertLoop_eq b bs 0 ino (ext4DirRecLen name.length) (bs + 1) l name (by omega) (by omega) h
    (by omega)
  obtain ⟨r, rest, rfl, -⟩ := h.of_lt (by omega)
  have hdead : r.inode = 0 := by
    by_contra hlive
    rw [live_cons, if_neg hlive] at hnil
    simp at hnil
  rw [taken, if_pos (by omega), if_pos (.inl hdead)] at hrun
  rw [ext4HtreeTryInsertLeaf, hrun] at hnone
  simp [placed, hdead] at hnone

/-- The two calls of `ext4_htree_pack_leaf` for a leaf and a new name: whatever is in memory behind the
block stays, both blocks are chains, they have the old entries and the new one, and the hashes of the first
are not above those of the second. -/
def SplitsLeaf (ver : ℕ) (b : Buf) (bs : ℕ) (l : List Dirent) (name : List Byte) (ino : ℕ) : Prop :=
  ∃ lower upper, splitItems (ext4HtreeNameHash32 ver) b bs name ino = some (lower, upper) ∧
    (∀ c : Buf, (∀ i, i < bs → c i = b i) → ∀ i, bs ≤ i → ext4HtreePackLeaf c bs lower i = c i ∧
      ext4HtreePackLeaf (ext4HtreePackLeaf c bs lower) bs upper i = c i) ∧
    ∃ l₁ l₂, Tiles (ext4HtreePackLeaf b bs lower) bs l₁ ∧
      Tiles (ext4HtreePackLeaf (ext4HtreePackLeaf b bs lower) bs upper) bs l₂ ∧
      (live l₁ ++ live l₂).Perm ((name, ino) :: live l) ∧
      ∀ e₁ ∈ live l₁, ∀ e₂ ∈ live l₂, ext4HtreeNameHash32 ver e₁.1 ≤ ext4HtreeNameHash32 ver e₂.1

/-- Nothing is stored behind the block only where both halves fit. -/
theorem SplitsLeaf.fits {ver : ℕ} (hsplits : SplitsLeaf ver b bs l name ino) (hbs' : bs ≤ 4096)
    (h : Tiles b bs l) (hlive : live l ≠ []) (hname : 1 ≤ name.length) (hname' : name.length ≤ 255)
    (hino : 0 < ino) (hino' : ino < 2 ^ 32) :
    Fits bs (halves (ext4HtreeNameHash32 ver) l name ino).1 ∧
      Fits bs (halves (ext4HtreeNameHash32 ver) l name ino).2 := by
  obtain ⟨lower, upper, hsome, hout, -⟩ := hsplits
  have hsplit := (splitItems_eq h hbs' hlive hino').symm.trans hsome
  have hsound := @halves_sound b bs ino 0 l name (ext4HtreeNameHash32 ver) h hino hino' hname hname'
  obtain ⟨hlower, hupper⟩ := @halves_ne_nil ino l name (ext4HtreeNameHash32 ver) hlive
  have h4 : 4 ∣ bs := dvd_of_chain h (Nat.dvd_zero 4)
  rw [Option.some.inj hsplit] at hsound hlower hupper ⊢
  have hmem : ∀ x : Byte, ∃ c : Buf, (∀ i, i < bs → c i = b i) ∧ ∀ i, bs ≤ i → c i = x := fun x ↦
    ⟨fun i ↦ if i < bs then b i else x, fun i hi ↦ if_pos hi, fun i hi ↦ if_neg (by omega)⟩
  constructor
  · refine fits_of_pack_out h4 (fun item hi ↦ hsound item (by simp [hi])) hlower fun x ↦ ?_
    obtain ⟨c, hin, hx⟩ := hmem x
    exact ⟨c, hx, fun i hi ↦ ((hout c hin i hi).1).trans (hx i hi)⟩
  · refine fits_of_pack_out h4 (fun item hi ↦ hsound item (by simp [hi])) hupper fun x ↦ ?_
    obtain ⟨c, hin, hx⟩ := hmem x
    exact ⟨_, fun i hi ↦ ((hout c hin i hi).1).trans (hx i hi),
      fun i hi ↦ ((hout c hin i hi).2).trans (hx i hi)⟩

/-- **A leaf is split as it should be exactly where both halves fit into a block.** -/
theorem splitsLeaf_iff (ver : ℕ) (hbs : 1024 ≤ bs) (hbs' : bs ≤ 4096) (h : Tiles b bs l)
    (hname : 1 ≤ name.length) (hname' : name.length ≤ 255) (hino : 0 < ino) (hino' : ino < 2 ^ 32)
    (hnone : (ext4HtreeTryInsertLeaf bs name ino (ext4DirRecLen name.length) b).1 = none) :
    SplitsLeaf ver b bs l name ino ↔ Fits bs (halves (ext4HtreeNameHash32 ver) l name ino).1 ∧
      Fits bs (halves (ext4HtreeNameHash32 ver) l name ino).2 := by
  have hlive := live_ne_nil_of_noRoom hbs h hname' hnone
  refine ⟨fun hsplits ↦ hsplits.fits hbs' h hlive hname hname' hino hino', fun ⟨hfits₁, hfits₂⟩ ↦ ?_⟩
  set hash32 := ext4HtreeNameHash32 ver with hhash
  have hsplit := @splitItems_eq b bs ino l name hash32 h hbs' hlive hino'
  have hsound := @halves_sound b bs ino 0 l name hash32 h hino hino' hname hname'
  have hperm := halves_perm hash32 l name ino
  have hle := @halves_le ino l name hash32
  have h4 : 4 ∣ bs := dvd_of_chain h (Nat.dvd_zero 4)
  rcases hhalves : halves hash32 l name ino with ⟨lower, upper⟩
  rw [hhalves] at hsplit hsound hperm hle hfits₁ hfits₂
  have hsound₁ : ∀ item ∈ lower, Sound hash32 item := fun item hi ↦ hsound item (by simp [hi])
  have hsound₂ : ∀ item ∈ upper, Sound hash32 item := fun item hi ↦ hsound item (by simp [hi])
  refine ⟨lower, upper, hsplit, fun c _ i hi ↦ ⟨hfits₁.pack_out h4 c hi, ?_⟩, ?_⟩
  · rw [hfits₂.pack_out h4 _ hi, hfits₁.pack_out h4 c hi]
  refine ⟨_, _, hfits₁.pack_tiles h4 (by omega) hsound₁ b, hfits₂.pack_tiles h4 (by omega) hsound₂ _, ?_, ?_⟩
  · rw [live_packed hsound₁, live_packed hsound₂, ← List.map_append]
    have := hperm.map pairOf
    rw [List.map_map, show pairOf ∘ itemOf hash32 = id from rfl, List.map_id] at this
    exact this.trans List.perm_append_comm
  · rw [live_packed hsound₁, live_packed hsound₂]
    rintro _ he₁ _ he₂
    obtain ⟨i₁, hi₁, rfl⟩ := List.mem_map.1 he₁
    obtain ⟨i₂, hi₂, rfl⟩ := List.mem_map.1 he₂
    show hash32 i₁.name ≤ hash32 i₂.name
    rw [← (hsound₁ i₁ hi₁).hash, ← (hsound₂ i₂ hi₂).hash]
    exact hle i₁ hi₁ i₂ hi₂

/-- A name of 255 equal characters. -/
def longName (c : Byte) : List Byte := List.replicate 255 c

/-- Three long names. -/
def longNames : List (List Byte × ℕ) := [(longName 97, 11), (longName 99, 12), (longName 113, 13)]

/-- The same with four short ones whose hashes are above theirs. -/
def mixedNames : List (List Byte × ℕ) := longNames ++ [([118], 14), ([119], 15), ([120], 16), ([121], 17)]

/-- The items of a list of names. -/
def itemsOf (l : List (List Byte × ℕ)) : List LeafItem := l.map (itemOf (ext4HtreeNameHash32 0))

/-- A leaf of 1024 bytes with a list of names. -/
def leafOf (l : List (List Byte × ℕ)) : Buf := ext4HtreePackLeaf Buf.zero 1024 (itemsOf l)

/-- The leaf of the example is tiled. -/
theorem leafOf_tiles {l : List (List Byte × ℕ)} (hfits : Fits 1024 (itemsOf l))
    (h : ∀ e ∈ l, 0 < e.2 ∧ e.2 < 2 ^ 32 ∧ 1 ≤ e.1.length ∧ e.1.length ≤ 255) :
    Tiles (leafOf l) 1024 (packed 1024 (itemsOf l)) := by
  refine @Fits.pack_tiles 1024 (ext4HtreeNameHash32 0) _ hfits (by norm_num) (by norm_num) (fun item hitem ↦ ?_) _
  obtain ⟨e, he, rfl⟩ := List.mem_map.1 hitem
  obtain ⟨hpos, hlt, hname, hname'⟩ := h e he
  exact ⟨rfl, hpos, hlt, hname, hname'⟩

theorem splitsLeaf_iff_longNames :
    SplitsLeaf 0 (leafOf longNames) 1024 (packed 1024 (itemsOf longNames)) (longName 120) 18 :=
  (splitsLeaf_iff 0 le_rfl (by norm_num) (leafOf_tiles (by decide +kernel) (by decide +kernel))
    (by decide +kernel) (by decide +kernel) (by norm_num) (by norm_num) (by decide +kernel)).2
    ⟨by decide +kernel, by decide +kernel⟩

/-- All four names of the lower half are long: their records take 1056 bytes. -/
theorem not_splitsLeaf_mixedNames :
    Tiles (leafOf mixedNames) 1024 (packed 1024 (itemsOf mixedNames)) ∧
      (ext4HtreeTryInsertLeaf 1024 (longName 120) 18 (ext4DirRecLen 255) (leafOf mixedNames)).1 = none ∧
      ¬ SplitsLeaf 0 (leafOf mixedNames) 1024 (packed 1024 (itemsOf mixedNames)) (longName 120) 18 := by
  have htiles := leafOf_tiles (l := mixedNames) (by decide +kernel) (by decide +kernel)
  refine ⟨htiles, by decide +kernel, fun h ↦ ?_⟩
  have hfits := (h.fits (by norm_num) htiles (by decide +kernel) (by decide +kernel) (by decide +kernel)
    (by norm_num) (by norm_num)).1
  exact absurd hfits (by decide +kernel)

end Leaf

end MiniExt4
