import Cs3650.Lib.Buckets
import Cs3650.Lib.Memory
import Cs3650.Lib.RefCount
import Cs3650.Lib.Region
import Cs3650.Nush.Astree
import Cs3650.Tsort.Barrier
import Cs3650.Tsort.SampleSort
import Cs3650.Tsort.SampleSortProof
import Cs3650.Malloc.Os
import Cs3650.Malloc.FreeList
import Cs3650.Malloc.FreeListProof
import Cs3650.Malloc.HwxMalloc
import Cs3650.Malloc.Layout
import Cs3650.Malloc.HwxProof
import Cs3650.Malloc.HwxInvariant
import Cs3650.Malloc.OptMalloc
import Cs3650.Malloc.OptProof
import Cs3650.Malloc.OptTrace
import Cs3650.Nush.Discipline
import Cs3650.Lib.Footprint
import Cs3650.Lib.Statement
import Cs3650.Nufs.Inode
import Cs3650.Nufs.Directory
import Cs3650.Nufs.Storage
import Cs3650.Lib.Ownership
import Cs3650.Nufs.PageOwnership
import Cs3650.Nufs.PageRuns
import Cs3650.Nufs.Slots
import Cs3650.Nufs.LinkCounts
import Cs3650.Nufs.Names
import Cs3650.Nufs.Namespace
import Cs3650.Nufs.NamespaceRuns
import Cs3650.Nufs.RootFull
import Cs3650.Nufs.Rename
import Cs3650.Nush.Tokens
import Cs3650.Nush.Subshell
import Cs3650.Nush.Script
import Cs3650.Nush.ScriptRuns
import Cs3650.Lib.MaximalRuns
import Cs3650.Malloc.HwxHistory
import Cs3650.Lib.Buddy
import Cs3650.Malloc.OptPartition
import Cs3650.Malloc.Hmalloc
import Cs3650.Malloc.HmallocProof
import Cs3650.Malloc.HmallocStats
import Cs3650.Malloc.HmallocAgree
import Cs3650.Nufs.GrowEffect
import Cs3650.Lib.SlotTable
import Cs3650.Nufs.DirectoryMap
import Cs3650.Nufs.StoreRuns
import Cs3650.Nufs.FailClean
import Cs3650.Nufs.ShrinkEffect
import Cs3650.Nufs.HeldPages
import Cs3650.Nufs.ResizeEffect
import Cs3650.Nufs.NewDirectory
import Cs3650.Nufs.FoundNames
import Cs3650.Nufs.GrownPages
import Cs3650.Xv6.FileTable
import Cs3650.Xv6.IoStats
import Cs3650.Xv6.IoRuns
import Cs3650.Nufs.WriteEffect
import Cs3650.Nufs.Isolation
import Cs3650.Lib.Extent
import Cs3650.Nufs.FileContents
import Cs3650.Lib.Scanner
import Cs3650.Nush.TokenRuns
import Cs3650.Malloc.OptCascade
import Cs3650.Malloc.HwxRealloc
import Cs3650.Malloc.RequestSizes
import Cs3650.Malloc.Alignment
import Cs3650.Tsort.LostElements
import Cs3650.Ssort.BucketPlan
import Cs3650.Nush.ShortCircuit
import Cs3650.Nush.Redirections
import Cs3650.Nush.ShellSafety
import Cs3650.Lib.Rearrange
import Cs3650.Lib.Returns
import Cs3650.Vectors.Svec
import Cs3650.Vectors.SvecProof
import Cs3650.Xv6.ReadToEnd
import Cs3650.Lib.AdjacentSort
import Cs3650.Vectors.LengthSort
import Cs3650.Vectors.Refinement
import Cs3650.Nufs.PageCount
import Cs3650.Sort.Quicksort
import Cs3650.Nufs.Allocators
import Cs3650.Nufs.Split
import Cs3650.Lib.RedoLog
import Cs3650.Xv6.BlockFiles
import Cs3650.Xv6.BlockRuns
import Cs3650.Xv6.Log
import Cs3650.Xv6.LogAdmission
import Cs3650.Xv6.LogCrash
import Cs3650.Lib.Machine
import Cs3650.Lib.Mutex
import Cs3650.Lib.Ring
import Cs3650.Xv6.Pipe
import Cs3650.Xv6.PipeEnds
import Cs3650.Xv6.PipeRuns
import Cs3650.Lib.LinkedList
import Cs3650.Lib.MoveToFront
import Cs3650.Xv6.BufCache
import Cs3650.Xv6.BufCacheCoherence
import Cs3650.Lib.RoundRobin
import Cs3650.Xv6.Proc
import Cs3650.Xv6.ProcFamily
import Cs3650.Xv6.ProcRuns
import Cs3650.Xv6.Dirs
import Cs3650.Xv6.DirFiles
import Cs3650.Xv6.Paths
import Cs3650.Xv6.PathFiles
import Cs3650.Nush.ScriptDiscipline
