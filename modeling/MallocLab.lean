import MallocLab.Lib.Logged
import MallocLab.Lib.Words
import MallocLab.Lib.Tiling
import MallocLab.Lib.BlockList
import MallocLab.Basic.Memlib
import MallocLab.Basic.MM
import MallocLab.Heap.Layout
import MallocLab.Heap.Place
import MallocLab.Heap.Coalesce
import MallocLab.Heap.Extend
import MallocLab.Heap.Malloc
import MallocLab.Client.System
import MallocLab.Client.Invariant
import MallocLab.Client.Safety
import MallocLab.Client.Request
import MallocLab.Client.Isolation
import MallocLab.Driver.Ranges
import MallocLab.Driver.Valid
import MallocLab.Basic.Sbrk
import MallocLab.Client.Blocks
import MallocLab.Client.Frees
import MallocLab.Client.ReallocLaw
import MallocLab.Driver.Agree
import MallocLab.Driver.Capacity
import MallocLab.Driver.Draws
import MallocLab.Driver.Fcyc
import MallocLab.Driver.Fragmentation
import MallocLab.Driver.HighWater
import MallocLab.Driver.Main
import MallocLab.Driver.NoWrap
import MallocLab.Driver.Scripts
import MallocLab.Driver.Served
import MallocLab.Driver.Speed
import MallocLab.Driver.Steady
import MallocLab.Driver.Tables
import MallocLab.Driver.Util
import MallocLab.Driver.Utilization
import MallocLab.Driver.Verdict
import MallocLab.Heap.Failure
import MallocLab.Heap.Realloc
import MallocLab.Heap.Walk
import MallocLab.Lib.Always
import MallocLab.Lib.Canonical
import MallocLab.Lib.Commands
import MallocLab.Lib.FirstFit
import MallocLab.Lib.Growth
import MallocLab.Lib.Holes
import MallocLab.Lib.Past
import MallocLab.Lib.Respects
import MallocLab.Lib.Rounding
import MallocLab.Lib.Runs
import MallocLab.Lib.Scan
import MallocLab.Lib.Smallest
import MallocLab.Lib.Text
import MallocLab.Lib.Yields
import MallocLab.Traces.Balance
import MallocLab.Traces.CheckTrace
import MallocLab.Traces.GenRandom
import MallocLab.Traces.Generators
import MallocLab.Traces.Load
import MallocLab.Traces.RandomFile
import MallocLab.Traces.ReadFile
import MallocLab.Traces.ReadSafe
import MallocLab.Traces.ReadTrace
