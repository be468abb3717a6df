import LunaOS.FreelistSafety
import LunaOS.RangePartition
import LunaOS.LinkedQueue
import LunaOS.JobScheduler
import LunaOS.SchedulerQueues
import LunaOS.SchedulerRuns
import LunaOS.PointerTree
import LunaOS.PageTables
import LunaOS.PageTableTree
import LunaOS.PageMapping
import LunaOS.FrameExclusivity
import LunaOS.PageTranslation
import LunaOS.PageUnmapping
import LunaOS.PageRecycling
import LunaOS.UserspaceAllocator
import LunaOS.UserSpace
import LunaOS.KernelHalf
import LunaOS.UserUnmap
import LunaOS.UserMemory
import LunaOS.ElfLoader
import LunaOS.RangeGrants
import LunaOS.ElfImage
import LunaOS.ElfFidelity
import LunaOS.ElfBounds
import LunaOS.AhciPort
import LunaOS.AhciTransfer
import LunaOS.ContextSwitch
import LunaOS.ContextInvariant
import LunaOS.DescriptorRefinement
import LunaOS.StandardStreams
import LunaOS.SharedKernelHalf
import LunaOS.Coalescing
import LunaOS.ChunkMerging
import LunaOS.RangeRestoration
import LunaOS.HeapConservation
import LunaOS.HeapAccounting
import LunaOS.SyscallTable
import LunaOS.DirectoryListing
import LunaOS.FrameSearch
import LunaOS.MemoryMap
import LunaOS.BitmapBounds
import LunaOS.MemoryAccounting
import LunaOS.PriorityBoost
import LunaOS.JobSelection
import LunaOS.SchedulingBounds
import LunaOS.ProcessTeardown
import LunaOS.DyadicTiling
import LunaOS.CircularList
import LunaOS.BuddyAllocator
import LunaOS.BuddyHeaders
import LunaOS.BuddyInvariant
import LunaOS.BuddyCalls
import LunaOS.BuddyRuns
import LunaOS.HeapBounds
import LunaOS.RangeRequests
import LunaOS.EmptinessScan
import LunaOS.Exhaustion
import LunaOS.BuddyReleases
import LunaOS.BuddyLimits
import LunaOS.UserAccess
import LunaOS.UserGrants
import LunaOS.PagingInitialize
import LunaOS.ElfFormat
import LunaOS.OpenFlags
import LunaOS.MadtParsing
import LunaOS.Shutdown
import LunaOS.AcpiMapping
import LunaOS.HeapGrowth
import LunaOS.ProcessCreation
import LunaOS.ThreadSetup
import LunaOS.CommandSlots
import LunaOS.CountedLoop
import LunaOS.Formatter
import LunaOS.IoApic
import LunaOS.LineEditor
import LunaOS.MadtRecords
import LunaOS.PciEnumeration
import LunaOS.RealTimeClock
import LunaOS.DecimalRendering
import LunaOS.StringCompare
import LunaOS.BootModules
import LunaOS.DescriptorTables
import LunaOS.IntervalTimer
import LunaOS.GrowableList
import LunaOS.HeapCoalescing
import LunaOS.FontTable
