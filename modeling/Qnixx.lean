import Qnixx.Lib.ByteMem
import Qnixx.Lib.Runs
import Qnixx.Lib.Cyclic
import Qnixx.LibKern
import Qnixx.Tailq
import Qnixx.NumberStrings
import Qnixx.Process
import Qnixx.ProcessMem
import Qnixx.Kcalloc
import Qnixx.Smp
import Qnixx.ApBoot
import Qnixx.Sched
import Qnixx.SchedInv
import Qnixx.SchedStart
import Qnixx.SchedFrames
import Qnixx.RoundRobin
import Qnixx.Lib.X86
import Qnixx.Trap
import Qnixx.ContextSwitch
import Qnixx.TimerStub
import Qnixx.Bitmap
import Qnixx.BitmapSet
import Qnixx.Pmm
import Qnixx.PmmOwnership
import Qnixx.PmmInit
import Qnixx.PmmUndo
import Qnixx.BitmapSize
import Qnixx.Pid
import Qnixx.PidBounds
import Qnixx.Lib.Radix
import Qnixx.Paging
import Qnixx.Vmm
import Qnixx.VmmMap
import Qnixx.VmmPoint
import Qnixx.PageRights
import Qnixx.AddressSpace
import Qnixx.KernelHalf
import Qnixx.VmmOom
import Qnixx.GetPhys
import Qnixx.Vfs
import Qnixx.PathLookup
import Qnixx.Console
import Qnixx.Printk
import Qnixx.FbClear
import Qnixx.Rtl8139
import Qnixx.RxRing
import Qnixx.RxDelivery
import Qnixx.RxInterrupt
import Qnixx.RxDrain
import Qnixx.TxSend
import Qnixx.TxBounds
import Qnixx.TxFrame
import Qnixx.Madt
import Qnixx.Acpi
import Qnixx.Lib.RecordWalk
import Qnixx.MadtWalk
import Qnixx.Interrupts
import Qnixx.IdtGates
import Qnixx.Hpet
import Qnixx.Lib.Search
import Qnixx.Pci
import Qnixx.PciSearch
import Qnixx.Lib.Spinlock
import Qnixx.IrqLocks
import Qnixx.Lib.Dlist
import Qnixx.Lib.Tiling
import Qnixx.TlsfClass
import Qnixx.Tlsf
import Qnixx.TlsfBlocks
import Qnixx.TlsfLists
import Qnixx.TlsfRep
import Qnixx.TlsfHeap
import Qnixx.TlsfRealloc
import Qnixx.TlsfPools
import Qnixx.TlsfCheck
import Qnixx.TlsfRuns
import Qnixx.HeapSystem
import Qnixx.Lib.Crc
import Qnixx.Lib.Probing
import Qnixx.Hashmap
import Qnixx.HashmapTable
import Qnixx.HashmapPut
import Qnixx.HashmapRuns
import Qnixx.VfsHashmap
