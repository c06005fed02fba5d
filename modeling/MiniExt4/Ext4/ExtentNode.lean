import MiniExt4.Ext4.ExtentTree

/-!
# Operations on one node of an extent tree (`fs/ext4/extents.c`)

The functions that search and change the entries of one node, over its bytes, and for each of them
what it is on the list of entries. The loops that move entries up or down by one place are copies of
a region.

The loops are written as the source has them, over positions in the buffer; that they are insertions,
deletions and copies in the list of entries is proved in `ExtentNodeSpec`. `ext4ExtentsInsert` returns the
buffer also where it fails.
-/

namespace MiniExt4

namespace Node

/-- `ei_block` or `ee_block` of entry `i`, which are at the same place. -/
def keyAt (eh : Buf) (i : ℕ) : ℕ := eh.getField (entryOff i) Ee.block

/-- `extents[i] = *ex` -/
def setExtent (eh : Buf) (i : ℕ) (ex : Extent) : Buf :=
  eh
    |>.setField (entryOff i) Ee.block ex.eeBlock
    |>.setField (entryOff i) Ee.len ex.eeLen
    |>.setField (entryOff i) Ee.startHi (ex.eeStart / 2 ^ 32)
    |>.setField (entryOff i) Ee.startLo ex.eeStart

/-- `idxs[i] = ix` -/
def setIdx (eh : Buf) (i : ℕ) (ix : ExtentIdx) : Buf :=
  eh
    |>.setField (entryOff i) Ei.block ix.eiBlock
    |>.setField (entryOff i) Ei.leafLo ix.eiLeaf
    |>.setField (entryOff i) Ei.leafHi (ix.eiLeaf / 2 ^ 32)
    |>.setField (entryOff i) Ei.unused 0

/-- `eh->eh_entries = n` -/
def setEntries (eh : Buf) (n : ℕ) : Buf := eh.setField 0 Eh.entries n

/-- `ext4_extents_init_node(eh, bytes, depth)`; entries of both kinds have 12 bytes. -/
def ext4ExtentsInitNode (eh : Buf) (bytes depth : ℕ) : Buf :=
  (eh.clear 0 bytes)
    |>.setField 0 Eh.magic ext4ExtMagic
    |>.setField 0 Eh.entries 0
    |>.setField 0 Eh.depth depth
    |>.setField 0 Eh.max ((bytes - extEntrySize) / extEntrySize)

/-- `for (i = n; i > pos; i--) extents[i] = extents[i - 1];` -/
abbrev shiftUp (eh : Buf) (pos n : ℕ) : Buf := Buf.shiftUp extEntrySize extEntrySize eh pos n

/-- `for (i = pos; i < n - 1; i++) extents[i] = extents[i + 1];` -/
abbrev shiftDown (eh : Buf) (pos n : ℕ) : Buf := Buf.shiftDown extEntrySize extEntrySize eh pos n

/-- `for (i = 0; i < cnt; i++) dst[i] = src[pos + i];` -/
abbrev copyEntries (dst src : Buf) (pos cnt : ℕ) : Buf :=
  Buf.copyRecords extEntrySize extEntrySize dst src pos cnt

/-- `for (i = pos; i < max; i++) memset(&entries[i], 0, 12);` -/
abbrev clearEntries (eh : Buf) (pos max : ℕ) : Buf :=
  Buf.clearRecords extEntrySize extEntrySize eh pos max

/-- `while (insert_pos > 0 && entries[insert_pos - 1].block > key) insert_pos--;` -/
def insertPos (eh : Buf) (key : ℕ) : ℕ → ℕ
  | 0 => 0
  | n + 1 => if keyAt eh n > key then insertPos eh key n else n + 1

/-- The first of the `n` entries from `j` with a key above `key`, or the end. -/
def firstAbove (eh : Buf) (key : ℕ) : ℕ → ℕ → ℕ
  | j, 0 => j
  | j, n + 1 => if keyAt eh j > key then j else firstAbove eh key (j + 1) n

/-- The two halves of a full node and the key of the right one, when `a` is to be entry `pos` of the
`n + 1`: the entries from there on move to a new node, or `a` does if there are none. -/
def cutAt {α : Type} (set : Buf → ℕ → α → Buf) (key : α → ℕ) (eh : Buf) (blockSize depth pos n : ℕ)
    (a : α) : Buf × Buf × ℕ :=
  let right := ext4ExtentsInitNode Buf.zero blockSize depth
  if pos = n then (eh, setEntries (set right 0 a) 1, key a)
  else
    let right := setEntries (copyEntries right eh pos (n - pos)) (n - pos)
    let eh := clearEntries (setEntries eh pos) pos (max eh)
    (setEntries (set eh pos a) (pos + 1), right, keyAt right 0)

end Node

/-- The loop of `ext4_extents_find`. -/
def findExtent (lblock : ℕ) : List Extent → Option Extent
  | [] => none
  | ex :: rest =>
    if ex.eeLen = 0 then findExtent lblock rest
    else if ex.eeBlock ≤ lblock ∧ lblock < u32 (ex.eeBlock + ex.eeLen) then some ex
    else if ex.eeBlock > lblock then none
    else findExtent lblock rest

/-- `ext4_extents_find(eh, lblock, &ex, &prev)`: the extent. -/
def ext4ExtentsFind (eh : Buf) (lblock : ℕ) : Option Extent :=
  if Node.magic eh ≠ ext4ExtMagic then none else findExtent lblock (Node.extents eh)

/-- The loop of `ext4_extents_read_path` over the entries of an index node. -/
def chooseIdx (lblock : ℕ) (chosen : ExtentIdx) : List ExtentIdx → ExtentIdx
  | [] => chosen
  | ix :: rest => if ix.eiBlock ≤ lblock then chooseIdx lblock ix rest else chosen

/-- The entry of an index node that `ext4_extents_read_path` goes to. -/
def chosenIdx (lblock : ℕ) (eh : Buf) : ExtentIdx :=
  chooseIdx lblock (Node.idxAt eh 0) (Node.idxs eh)

namespace ExtInsert

open Node

variable (eh : Buf) (newEx : Extent) (pos : ℕ)

/-- The new extent continues the one to its left. -/
def joinsLeft : Bool :=
  let left := extentAt eh (pos - 1)
  decide (u32 (left.eeBlock + left.eeLen) = newEx.eeBlock ∧ left.eeStart + left.eeLen = newEx.eeStart
    ∧ left.eeLen + newEx.eeLen ≤ ext4ExtInitMaxLen)

/-- The new extent is continued by the one to its right. -/
def joinsRight : Bool :=
  let right := extentAt eh pos
  decide (u32 (newEx.eeBlock + newEx.eeLen) = right.eeBlock ∧
    newEx.eeStart + newEx.eeLen = right.eeStart ∧ right.eeLen + newEx.eeLen ≤ ext4ExtInitMaxLen)

/-- The left neighbour takes in the new extent, and its right neighbour too if that continues it. -/
def mergeLeft : Buf :=
  let left := extentAt eh (pos - 1)
  let left := { left with eeLen := left.eeLen + newEx.eeLen }
  let eh := setExtent eh (pos - 1) left
  let n := entries eh
  let right := extentAt eh pos
  if pos < n ∧ u32 (left.eeBlock + left.eeLen) = right.eeBlock ∧
      left.eeStart + left.eeLen = right.eeStart ∧
      left.eeLen + right.eeLen ≤ ext4ExtInitMaxLen then
    setEntries (shiftDown (setExtent eh (pos - 1) { left with eeLen := left.eeLen + right.eeLen })
      pos n) (n - 1)
  else eh

/-- The right neighbour takes in the new extent. -/
def mergeRight : Buf :=
  let right := extentAt eh pos
  setExtent eh pos ⟨newEx.eeBlock, right.eeLen + newEx.eeLen, newEx.eeStart⟩

end ExtInsert

open Node ExtInsert in
/-- `ext4_extents_insert(eh, new_ex)`: whether it returns 0, and the node. The extent is merged with a
neighbour or inserted between them; a full node has no room for it. -/
def ext4ExtentsInsert (eh : Buf) (newEx : Extent) : Bool × Buf :=
  if magic eh ≠ ext4ExtMagic then (false, eh)
  else if entries eh > max eh then (false, eh)
  else
    let pos := insertPos eh newEx.eeBlock (entries eh)
    if pos > 0 ∧ joinsLeft eh newEx pos then (true, mergeLeft eh newEx pos)
    else if pos < entries eh ∧ joinsRight eh newEx pos then (true, mergeRight eh newEx pos)
    else if entries eh = max eh then (false, eh)
    else (true, setEntries (setExtent (shiftUp eh pos (entries eh)) pos newEx) (entries eh + 1))

end MiniExt4
