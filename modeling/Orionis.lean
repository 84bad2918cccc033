import Orionis.Foundations.ByteMemory
import Orionis.Foundations.Dyadic
import Orionis.Foundations.Links
import Orionis.Foundations.Run
import Orionis.Mem.MemoryMap
import Orionis.Mem.Buddy
import Orionis.Mem.BuddySteps
import Orionis.Mem.BuddyInit
import Orionis.Mem.BuddyHeap
import Orionis.Mem.BuddySafety
import Orionis.Mem.BuddyCoalescing
import Orionis.Mem.BuddyAlloc
import Orionis.Foundations.BitArray
import Orionis.Mem.Bitmap
import Orionis.Mem.BitmapInit
import Orionis.Mem.BitmapPages
import Orionis.Mem.NextFit
import Orionis.Foundations.IndexRing
import Orionis.Virtio.Queue
import Orionis.Virtio.World
import Orionis.Virtio.InFlight
import Orionis.Virtio.Transmit
import Orionis.Virtio.Receive
import Orionis.Virtio.Pci
import Orionis.Virtio.Init
import Orionis.Virtio.Leftovers
import Orionis.Virtio.Failure
import Orionis.Foundations.CString
import Orionis.E1000.Transmit
import Orionis.E1000.Receive
import Orionis.Shell.Command
import Orionis.Shell.CommandReads
import Orionis.Shell.Input
import Orionis.Shell.LineEditor
import Orionis.Console.Tty
import Orionis.Lib.Memmove
import Orionis.Shell.Echo
import Orionis.Console.Cells
import Orionis.Console.ScreenLine
import Orionis.Console.Kernel
import Orionis.Console.Geometry
import Orionis.Console.KernelPrint
import Orionis.Console.Scrolling
import Orionis.Console.Picture
import Orionis.Time.Clock
import Orionis.Time.Rtc
import Orionis.Ata.Address
import Orionis.Pci.Scan
import Orionis.Time.RtcModes
import Orionis.Ata.Read
import Orionis.Virtio.CapWalk
import Orionis.Virtio.BarLayout
import Orionis.Virtio.QueueSizes
import Orionis.Virtio.TxBuffers
import Orionis.Virtio.QueueMemory
import Orionis.Foundations.Numeral
import Orionis.Console.Numerals
import Orionis.Lib.Itob
import Orionis.Time.Calendar
import Orionis.Time.Beijing
import Orionis.Shell.Keyboard
import Orionis.E1000.Slots
import Orionis.Virtio.ResetWait
import Orionis.Mem.BuddyOrders
import Orionis.Mem.BitmapBounds
import Orionis.Cpu.Timer
import Orionis.Foundations.SelectionSort
import Orionis.Limine.Memmap
import Orionis.Limine.Sanitise
import Orionis.Limine.Ranges
import Orionis.Limine.Handover
import Orionis.Foundations.RadixTable
import Orionis.Limine.Paging
import Orionis.Mem.BuddyFrame
import Orionis.Limine.AddressSpace
import Orionis.Foundations.WordStack
import Orionis.Cpu.Stubs
import Orionis.Cpu.Idt
import Orionis.Cpu.Pic
import Orionis.Cpu.Irq
import Orionis.Limine.Disk
import Orionis.Foundations.ChainedBlocks
import Orionis.Limine.Fat32
import Orionis.Limine.Elf
import Orionis.Limine.Stivale
import Orionis.Foundations.LineSections
import Orionis.Limine.Config
import Orionis.Limine.ConfigFile
import Orionis.Limine.LineInput
import Orionis.Limine.Menu
