import Linda.ByteMemory
import Linda.FuelLoop
import Linda.CallHistory
import Linda.LinkedSegment
import Linda.IntervalCover
import Linda.Machine
import Linda.WordStack
import Linda.X86
import Linda.FrameStack
import Linda.Kernel
import Linda.KernelPages
import Linda.KvmHistory
import Linda.KernelHeap
import Linda.ChunkList
import Linda.HeapLayout
import Linda.HeapSteps
import Linda.HeapRefinement
import Linda.HeapHistory
import Linda.HeapRequests
import Linda.Coalescing
import Linda.HeapTermination
import Linda.Scheduler
import Linda.ProcessTable
import Linda.TrapEntry
import Linda.Pic8259
import Linda.TrapDispatch
import Linda.TrapDelivery
import Linda.Bitfields
import Linda.DescriptorTables
import Linda.Descriptors
import Linda.SchedulerInvariant
import Linda.InterruptFlag
import Linda.RoundRobin
import Linda.SchedulerFairness
import Linda.HeapClients
import Linda.ZeroedBlocks
import Linda.PageWalk
import Linda.KernelMmap
import Linda.PageForest
import Linda.MapList
import Linda.MapFrames
import Linda.MmapSteps
import Linda.MmapEffects
import Linda.MmapHistory
import Linda.Boot
import Linda.BootState
import Linda.BootPaging
import Linda.DirectMap
import Linda.PageUpdates
import Linda.ProcessPages
import Linda.AddressSpace
import Linda.PagingRuns
import Linda.Permissions
import Linda.PageFaults
import Linda.KernelHalves
import Linda.KernelEntries
import Linda.ProgramLoad
import Linda.FrameIsolation
import Linda.PageStatus
import Linda.FaultProgress
import Linda.MemoryMap
import Linda.FrameDrain
import Linda.BootHandout
import Linda.ContextSwitch
import Linda.ProcessStack
import Linda.ProcessSwitches
import Linda.ProcessResumption
import Linda.Keyboard
import Linda.Printf
import Linda.PrintfLength
import Linda.NumberLoops
import Linda.NumberReading
import Linda.CStrings
import Linda.StringLibrary
import Linda.ByteCopies
import Linda.StringSearch
import Linda.Syscalls
import Linda.PrintfScan
import Linda.Print
import Linda.StackFootprint
import Linda.SyscallEntry
import Linda.FormatScan
import Linda.BufQueue
import Linda.Disk
import Linda.DiskRequests
import Linda.DiskLocks
import Linda.DiskSectors
import Linda.BufLinks
import Linda.ListLinks
import Linda.FailedReads
import Linda.Loader
import Linda.Console
import Linda.ConsoleColor
import Linda.ConsoleLayout
import Linda.KeyboardCharacters
import Linda.ConsoleTyping
import Linda.UserPrograms
import Linda.ProcessMemory
import Linda.FormatLanguage
import Linda.CharacterSearch
