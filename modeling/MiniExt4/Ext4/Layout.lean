import MiniExt4.Machine.Bytes

/-!
# The on-disk structures (`include/fs/ext4/ext4.h`)

Offsets and sizes of the fields of the packed structures, and the constants of the format. Only
fields that some modelled function reads or writes are listed.
-/

namespace MiniExt4

open Buf (Field)

/-- `uint32_t` arithmetic. -/
def u32 (n : ℕ) : ℕ := n % 2 ^ 32

/-- `(uint16_t)` -/
def u16 (n : ℕ) : ℕ := n % 2 ^ 16

theorem u32_of_lt {n : ℕ} (h : n < 2 ^ 32) : u32 n = n := Nat.mod_eq_of_lt h

theorem u16_of_lt {n : ℕ} (h : n < 2 ^ 16) : u16 n = n := Nat.mod_eq_of_lt h

/-- A sum that is not below one of its terms after the wrap did not wrap. -/
theorem u32_of_le {a n : ℕ} (h : a ≤ u32 n) (hn : n < a + 2 ^ 32) : u32 n = n := by
  unfold u32 at *
  omega

theorem u32_add_left_cancel {n a b : ℕ} (ha : a < 2 ^ 32) (hb : b < 2 ^ 32)
    (h : u32 (n + a) = u32 (n + b)) : a = b := by
  unfold u32 at h
  omega

theorem u32_lt (n : ℕ) : u32 n < 2 ^ 32 := Nat.mod_lt _ (by norm_num)

theorem u16_lt (n : ℕ) : u16 n < 2 ^ 16 := Nat.mod_lt _ (by norm_num)

/-- `BLOCK_SIZE` -/
def blockSizeDefault : ℕ := 4096

/-- `EXT4_SUPER_MAGIC` -/
def ext4SuperMagic : ℕ := 0xEF53

/-! ### `struct ext4_super_block` -/

namespace Esb

def sInodesCount : Field := ⟨0, 4⟩
def sBlocksCountLo : Field := ⟨4, 4⟩
def sRBlocksCountLo : Field := ⟨8, 4⟩
def sFreeBlocksCountLo : Field := ⟨12, 4⟩
def sFreeInodesCount : Field := ⟨16, 4⟩
def sFirstDataBlock : Field := ⟨20, 4⟩
def sLogBlockSize : Field := ⟨24, 4⟩
def sLogClusterSize : Field := ⟨28, 4⟩
def sBlocksPerGroup : Field := ⟨32, 4⟩
def sClustersPerGroup : Field := ⟨36, 4⟩
def sInodesPerGroup : Field := ⟨40, 4⟩
def sMtime : Field := ⟨44, 4⟩
def sWtime : Field := ⟨48, 4⟩
def sMntCount : Field := ⟨52, 2⟩
def sMaxMntCount : Field := ⟨54, 2⟩
def sMagic : Field := ⟨56, 2⟩
def sState : Field := ⟨58, 2⟩
def sErrors : Field := ⟨60, 2⟩
def sMinorRevLevel : Field := ⟨62, 2⟩
def sLastcheck : Field := ⟨64, 4⟩
def sCheckinterval : Field := ⟨68, 4⟩
def sCreatorOs : Field := ⟨72, 4⟩
def sRevLevel : Field := ⟨76, 4⟩
def sDefResuid : Field := ⟨80, 2⟩
def sDefResgid : Field := ⟨82, 2⟩
def sFirstIno : Field := ⟨84, 4⟩
def sInodeSize : Field := ⟨88, 2⟩
def sBlockGroupNr : Field := ⟨90, 2⟩
def sFeatureCompat : Field := ⟨92, 4⟩
def sFeatureIncompat : Field := ⟨96, 4⟩
def sFeatureRoCompat : Field := ⟨100, 4⟩
def sUuid : ℕ := 104
def sVolumeName : ℕ := 120
def sLastMounted : ℕ := 136
def sJournalInum : Field := ⟨224, 4⟩
def sJournalDev : Field := ⟨228, 4⟩
def sLastOrphan : Field := ⟨232, 4⟩
def sHashSeed : ℕ := 236
def sDefHashVersion : Field := ⟨252, 1⟩
def sJnlBackupType : Field := ⟨253, 1⟩
def sDescSize : Field := ⟨254, 2⟩
def sMkfsTime : Field := ⟨264, 4⟩
def sBlocksCountHi : Field := ⟨336, 4⟩
def sRBlocksCountHi : Field := ⟨340, 4⟩
def sFreeBlocksCountHi : Field := ⟨344, 4⟩

/-- `sizeof(struct ext4_super_block)`, more than the 1024 bytes of the format because of its tail. -/
def size : ℕ := 1412

end Esb

/-! ### `struct ext4_group_desc` -/

namespace Gd

def bgBlockBitmapLo : Field := ⟨0, 4⟩
def bgInodeBitmapLo : Field := ⟨4, 4⟩
def bgInodeTableLo : Field := ⟨8, 4⟩
def bgFreeBlocksCountLo : Field := ⟨12, 2⟩
def bgFreeInodesCountLo : Field := ⟨14, 2⟩
def bgUsedDirsCountLo : Field := ⟨16, 2⟩
def bgFlags : Field := ⟨18, 2⟩
def bgExcludeBitmapLo : Field := ⟨20, 4⟩
def bgBlockBitmapCsumLo : Field := ⟨24, 2⟩
def bgInodeBitmapCsumLo : Field := ⟨26, 2⟩
def bgItableUnusedLo : Field := ⟨28, 2⟩
def bgChecksum : Field := ⟨30, 2⟩
def bgFreeBlocksCountHi : Field := ⟨44, 2⟩
def bgFreeInodesCountHi : Field := ⟨46, 2⟩
def bgItableUnusedHi : Field := ⟨50, 2⟩

/-- `sizeof(struct ext4_group_desc)` -/
def size : ℕ := 64

end Gd

/-! ### `struct ext4_inode` -/

namespace RawInode

def iMode : Field := ⟨0, 2⟩
def iUid : Field := ⟨2, 2⟩
def iSizeLo : Field := ⟨4, 4⟩
def iAtime : Field := ⟨8, 4⟩
def iCtime : Field := ⟨12, 4⟩
def iMtime : Field := ⟨16, 4⟩
def iDtime : Field := ⟨20, 4⟩
def iGid : Field := ⟨24, 2⟩
def iLinksCount : Field := ⟨26, 2⟩
def iBlocksLo : Field := ⟨28, 4⟩
def iFlags : Field := ⟨32, 4⟩
def iOsd1 : Field := ⟨36, 4⟩
/-- `i_block[15]` is 60 bytes at this offset. -/
def iBlock : ℕ := 40
def iGeneration : Field := ⟨100, 4⟩
def iFileAclLo : Field := ⟨104, 4⟩
def iSizeHigh : Field := ⟨108, 4⟩
def iObsoFaddr : Field := ⟨112, 4⟩
def iObsoOsd2 : Field := ⟨116, 2⟩
def iBlocksHi : Field := ⟨118, 2⟩
def iFileAclHigh : Field := ⟨120, 4⟩
def iUidHigh : Field := ⟨124, 4⟩
def iGidHigh : Field := ⟨128, 4⟩
def iChecksumLo : Field := ⟨132, 4⟩
def iReserved2 : Field := ⟨136, 4⟩

/-- `EXT4_DISK_INODE_SIZE` -/
def size : ℕ := 256

end RawInode

/-- `sizeof(ei->i_block)` -/
def iBlockSize : ℕ := 60

/-- `EXT4_INODE_FLAG_EXTENTS` -/
def ext4InodeFlagExtents : ℕ := 0x00080000

/-- `EXT4_INODE_FLAG_INDEX` -/
def ext4InodeFlagIndex : ℕ := 0x00001000

/-! ### `struct ext4_dir_entry` -/

namespace De

def inode : Field := ⟨0, 4⟩
def recLen : Field := ⟨4, 2⟩
def nameLen : Field := ⟨6, 1⟩
def fileType : Field := ⟨7, 1⟩
def name : ℕ := 8

end De

/-! ### Extents -/

/-- `EXT4_EXT_MAGIC` -/
def ext4ExtMagic : ℕ := 0xF30A

/-- `EXT4_EXT_MAX_DEPTH` -/
def ext4ExtMaxDepth : ℕ := 5

/-- `EXT4_EXT_INIT_MAX_LEN` -/
def ext4ExtInitMaxLen : ℕ := 0x7fff

/-- The size of a header and of an entry of either kind. -/
def extEntrySize : ℕ := 12

/-! `struct ext4_extent_header` -/

namespace Eh

def magic : Field := ⟨0, 2⟩
def entries : Field := ⟨2, 2⟩
def max : Field := ⟨4, 2⟩
def depth : Field := ⟨6, 2⟩

end Eh

/-! `struct ext4_extent` -/

namespace Ee

def block : Field := ⟨0, 4⟩
def len : Field := ⟨4, 2⟩
def startHi : Field := ⟨6, 2⟩
def startLo : Field := ⟨8, 4⟩

end Ee

/-! `struct ext4_extent_idx` -/

namespace Ei

def block : Field := ⟨0, 4⟩
def leafLo : Field := ⟨4, 4⟩
def leafHi : Field := ⟨8, 2⟩
def unused : Field := ⟨10, 2⟩

end Ei

/-! ### Modes -/

/-- `S_IFMT` -/
def sIfmt : ℕ := 0o170000

/-- `S_IFREG` -/
def sIfreg : ℕ := 0o100000

/-- `S_IFDIR` -/
def sIfdir : ℕ := 0o040000

/-- `S_ISREG(m)` -/
def sIsreg (m : ℕ) : Bool := m &&& sIfmt == sIfreg

/-- `S_ISDIR(m)` -/
def sIsdir (m : ℕ) : Bool := m &&& sIfmt == sIfdir

/-- `EXT4_DIR_REC_LEN(name_len)`: the header and the name, rounded up to a multiple of 4. -/
def ext4DirRecLen (nameLen : ℕ) : ℕ := (nameLen + 8 + 3) / 4 * 4

end MiniExt4
