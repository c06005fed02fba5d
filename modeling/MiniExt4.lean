import MiniExt4.Ext4.MkfsCounts
import MiniExt4.Ext4.BallocSpec
import MiniExt4.Ext4.BallocAgree
import MiniExt4.Ext4.BallocRun
import MiniExt4.Ext4.SuperCounts
import MiniExt4.Ext4.Release
import MiniExt4.Ext4.ReleaseSpec
import MiniExt4.Ext4.ExtentNode
import MiniExt4.Ext4.ExtentFail
import MiniExt4.Ext4.ExtentPool
import MiniExt4.Ext4.GroupDesc
import MiniExt4.Machine.Records
import MiniExt4.Ext4.InodeSpec
import MiniExt4.Ext4.IallocRun
import MiniExt4.Ext4.FreeCounts
import MiniExt4.Ext4.BallocSearch
import MiniExt4.Ext4.FileRead
import MiniExt4.Ext4.DirMap
import MiniExt4.Ext4.DirExtents
import MiniExt4.Ext4.DirBounds
import MiniExt4.Ext4.Rmdir
import MiniExt4.Vfs.ListRemove
import MiniExt4.Kernel.Shell
import MiniExt4.Kernel.Multitasking
import MiniExt4.Drivers.Rtc
import MiniExt4.Ext4.ExtentUnion
import MiniExt4.Ext4.BulkIo
import MiniExt4.Kernel.Glob
import MiniExt4.Mm.Gdt
import MiniExt4.Drivers.FbConsole
import MiniExt4.Vfs.PathArrays
import MiniExt4.Vfs.WalkRefs
import MiniExt4.Vfs.Ext4Laws
import MiniExt4.Vfs.OpenRoot
import MiniExt4.Vfs.RmdirPair
import MiniExt4.Vfs.Getcwd
import MiniExt4.Ext4.ExtentAppend
import MiniExt4.Ext4.FileWrite
import MiniExt4.Ext4.OpenFiles
