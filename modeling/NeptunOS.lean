import NeptunOS.Util.BitArray
import NeptunOS.Heap.Integrity
import NeptunOS.Heap.Aligned
import NeptunOS.Heap.Contents
import NeptunOS.Storage.Bounds
import NeptunOS.Storage.VectorList
import NeptunOS.Storage.StringText
import NeptunOS.Storage.ArenaIter
import NeptunOS.Storage.BitmapGrowth
import NeptunOS.Storage.Balance
import NeptunOS.Util.UstarLookup
import NeptunOS.Mm.Accounting
import NeptunOS.Mm.Placement
import NeptunOS.Mm.Watermark
import NeptunOS.Arch.Madt
import NeptunOS.Loader.KernelHalf
import NeptunOS.Loader.Segments
import NeptunOS.Devmgr.Relocation
import NeptunOS.Fs.Mount
import NeptunOS.Fs.VfsRange
import NeptunOS.Fs.VfsReaddir
import NeptunOS.Fs.FatNames
import NeptunOS.Fs.FatRead
import NeptunOS.Devmgr.Gpt
import NeptunOS.Devmgr.Ahci
import NeptunOS.Pci.Registers
import NeptunOS.Input.ScanCodes
import NeptunOS.Cmdline.Evaluate
import NeptunOS.Gfx.Console
import NeptunOS.Sched.Preemption
import NeptunOS.Devmgr.UsbTree
