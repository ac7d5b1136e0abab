import Nyrix.Base.AccessLog
import Nyrix.Base.BlockPool
import Nyrix.Base.BoundedLoop
import Nyrix.Base.ByteLayout
import Nyrix.Base.ByteMemory
import Nyrix.Base.CharBuffer
import Nyrix.Base.Decimal
import Nyrix.Base.FreeList
import Nyrix.Base.IA32
import Nyrix.Base.Interrupts
import Nyrix.Base.Inversion
import Nyrix.Base.LineEditor
import Nyrix.Base.Overwriting
import Nyrix.Base.PackedBits
import Nyrix.Base.PageTable
import Nyrix.Base.PartialRuns
import Nyrix.Base.Pic8259
import Nyrix.Base.PicService
import Nyrix.Base.Pit8254
import Nyrix.Base.Protection
import Nyrix.Base.RecentList
import Nyrix.Base.RingChange
import Nyrix.Base.TextPage
import Nyrix.Base.TextRows
import Nyrix.Base.Uart
import Nyrix.Base.WideMemory
import Nyrix.Boot
import Nyrix.Commands
import Nyrix.DescriptorTables
import Nyrix.Gdt
import Nyrix.Gfx
import Nyrix.GfxBounds
import Nyrix.GfxBytes
import Nyrix.GfxDepth
import Nyrix.GfxLine
import Nyrix.GfxOverlay
import Nyrix.GfxPixels
import Nyrix.GfxRedraw
import Nyrix.GfxRuns
import Nyrix.GfxText
import Nyrix.HeapExclusive
import Nyrix.HeapFootprint
import Nyrix.HeapMapped
import Nyrix.HeapNull
import Nyrix.HeapPartition
import Nyrix.HeapPool
import Nyrix.HeapRuns
import Nyrix.HeapSteps
import Nyrix.InterruptCommon
import Nyrix.InterruptDelivery
import Nyrix.InterruptFrame
import Nyrix.Irq
import Nyrix.Keyboard
import Nyrix.KeyboardBounds
import Nyrix.KeyboardBrowse
import Nyrix.KeyboardCalls
import Nyrix.KeyboardHistory
import Nyrix.KeyboardKeys
import Nyrix.KeyboardLines
import Nyrix.KeyboardModifiers
import Nyrix.KeyboardPress
import Nyrix.KeyboardRecord
import Nyrix.KeyboardScancode
import Nyrix.KeyboardSteps
import Nyrix.KeyboardStored
import Nyrix.KeyboardSubmit
import Nyrix.Kmalloc
import Nyrix.LineDisplay
import Nyrix.LineRedraw
import Nyrix.MainLoop
import Nyrix.MapIntact
import Nyrix.MapLog
import Nyrix.MapWalk
import Nyrix.Multiboot
import Nyrix.Paging
import Nyrix.PagingExact
import Nyrix.PagingIdentity
import Nyrix.PagingMap
import Nyrix.PagingOverlay
import Nyrix.PagingRep
import Nyrix.PagingSpace
import Nyrix.PagingTables
import Nyrix.Pit
import Nyrix.Pmm
import Nyrix.PmmAllocatable
import Nyrix.PmmCount
import Nyrix.PmmInit
import Nyrix.PmmRuns
import Nyrix.PmmSteps
import Nyrix.PmmTwoRuns
import Nyrix.PmmVisits
import Nyrix.ProcessCommand
import Nyrix.Scheduler
import Nyrix.SchedulerRuns
import Nyrix.SchedulerTick
import Nyrix.SerialInput
import Nyrix.SerialPort
import Nyrix.SessionFramebuffer
import Nyrix.SessionRows
import Nyrix.SessionScreen
import Nyrix.SharedConsole
import Nyrix.SharedScreen
import Nyrix.Syscall
import Nyrix.SyscallReturn
import Nyrix.TagChain
import Nyrix.TagScan
import Nyrix.TaskSwitch
import Nyrix.Terminal
import Nyrix.TerminalBounds
import Nyrix.TerminalErase
import Nyrix.TerminalPage
import Nyrix.TerminalRedraw
import Nyrix.TerminalRows
import Nyrix.TerminalSerial
import Nyrix.Timer
import Nyrix.UserMode
import Nyrix.UserPorts
