import Learnix.Lib.Run
import Learnix.Lib.Tiling
import Learnix.Lib.Gaps
import Learnix.Heap
import Learnix.HeapLayout
import Learnix.HeapRefinement
import Learnix.HeapRuns
import Learnix.HeapIntegrity
import Learnix.HeapPlacement
import Learnix.Lib.Bitmap
import Learnix.Pmm
import Learnix.KernelMemory
import Learnix.Lib.Ring
import Learnix.Process
import Learnix.ProcessRing
import Learnix.RingIntegrity
import Learnix.SavedContext
import Learnix.SchedulerStart
import Learnix.Scheduling
import Learnix.Lib.X86
import Learnix.SystemCall
import Learnix.Fat16
import Learnix.Lib.Blocks
import Learnix.Fat16Read
import Learnix.Fat16List
import Learnix.Fat16Lookup
import Learnix.FileText
import Learnix.SystemCallRegisters
import Learnix.RunCommand
import Learnix.SyscallHalt
import Learnix.Lib.X86Interrupt
import Learnix.ContextSwitch
import Learnix.Lib.PageWalk
import Learnix.Paging
import Learnix.Lib.LeastFree
import Learnix.PmmRuns
import Learnix.MultibootMemory
import Learnix.Lib.RoundRobin
import Learnix.ProportionalShare
import Learnix.KernelHeap
import Learnix.HeapOwnership
import Learnix.ProcessCapacity
import Learnix.Elf
import Learnix.ElfSegments
import Learnix.ElfImage
import Learnix.ElfReads
import Learnix.ElfHistory
import Learnix.ElfHeap
import Learnix.ShortReads
import Learnix.Vga
import Learnix.VgaTerminal
import Learnix.Lib.Padded
import Learnix.ShellNames
import Learnix.Lib.LineEditor
import Learnix.LineReader
import Learnix.InterruptFrames
import Learnix.ElfAtomic
import Learnix.Lib.WhileLoop
import Learnix.Fat16Copy
import Learnix.PmmSelfTest
import Learnix.MemoryMap
import Learnix.ScreenText
import Learnix.VgaPrintAt
import Learnix.Lib.Decimal
import Learnix.VgaPrintInt
import Learnix.LineEcho
import Learnix.ProcessStats
import Learnix.Ata
import Learnix.Lib.RunCost
import Learnix.ProcessorTime
import Learnix.BoundedWaiting
import Learnix.Foreground
import Learnix.Lib.Reversal
import Learnix.Suma
import Learnix.SumaProgram
import Learnix.Transcript
import Learnix.Listings
import Learnix.Lib.Lockstep
import Learnix.ShellCommands
import Learnix.ShellSession
import Learnix.ShellCat
import Learnix.KeyboardHandler
import Learnix.AtaStore
import Learnix.HeapReport
import Learnix.MappedFrames
import Learnix.ProgramCalls
import Learnix.Preemption
import Learnix.ElfConsole
