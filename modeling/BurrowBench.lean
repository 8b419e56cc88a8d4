import BurrowBench.Harness.SearchRobust
import BurrowBench.Harness.SearchReach
import BurrowBench.Harness.WindowsClock
import BurrowBench.Harness.BenchMain
import BurrowBench.Tools.RunFilter
import BurrowBench.Tools.Table
import BurrowBench.Tools.RunSh
import BurrowBench.Tools.AcceptedPairs
import BurrowBench.Scheduler.Handoff
import BurrowBench.Scheduler.NotePingpong
import BurrowBench.Scheduler.CondProgress
import BurrowBench.Scheduler.ChanPingpong
import BurrowBench.Scheduler.SelectPingpong
import BurrowBench.Scheduler.SynctestPingpong
import BurrowBench.Scheduler.ProducerConsumer
import BurrowBench.Scheduler.TimerBurst
import BurrowBench.Scheduler.WaitGroup
import BurrowBench.Scheduler.Batch
import BurrowBench.Scheduler.Contended
import BurrowBench.Tools.AbRounds
import BurrowBench.Tools.CheckPairs
import BurrowBench.Tools.FetchBurrow
import BurrowBench.Scheduler.ParkedWait
import BurrowBench.Scheduler.SelectRing
import BurrowBench.Workloads.GeneratedInputs
import BurrowBench.Workloads.RandTotals
import BurrowBench.Workloads.SizedInput
import BurrowBench.Workloads.Reclaim
import BurrowBench.Workloads.Documents
import BurrowBench.Workloads.KeyedMaps
import BurrowBench.Workloads.SortRows
import BurrowBench.Workloads.StreamRows
import BurrowBench.Workloads.SyncPool
import BurrowBench.Workloads.NumRows
import BurrowBench.Workloads.RuneRows
import BurrowBench.Workloads.FailurePaths
