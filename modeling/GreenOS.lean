import GreenOS.StepRun
import GreenOS.FirstMax
import GreenOS.SchedulerFairness
import GreenOS.EnergyBudget
import GreenOS.FreeSlots
import GreenOS.PipeRuns
import GreenOS.PipeFifo
import GreenOS.LogAtomicity
import GreenOS.BlockRuns
import GreenOS.SleepCounts
import GreenOS.TimerTicks
import GreenOS.LogSpace
import GreenOS.CommitIsolation
import GreenOS.CommitBuffers
import GreenOS.DispatchExclusive
import GreenOS.LostWakeups
import GreenOS.MkfsHoles
import GreenOS.MkfsRead
import GreenOS.VirtioRuns
import GreenOS.PageUsers
import GreenOS.EnergyRange
import GreenOS.EnergyTop
import GreenOS.ConsoleLine
import GreenOS.FileBytes
import GreenOS.FsLogged
import GreenOS.WriteChunk
import GreenOS.LoggedFiles
import GreenOS.SharedTiles
import GreenOS.OrphanReclaim
import GreenOS.HeapSize
import GreenOS.ForkUndo
import GreenOS.ExecFile
import GreenOS.IdleGovernor
import GreenOS.CopyRuns
import GreenOS.StreamReads
import GreenOS.FileReads
import GreenOS.SlotMap
import GreenOS.DirMap
import GreenOS.NumberFormat
import GreenOS.Grep
import GreenOS.MallocLimits
import GreenOS.KernelHeap
import GreenOS.WordMove
