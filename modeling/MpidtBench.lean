import MpidtBench.Library.ByteMemory
import MpidtBench.Library.CInteger
import MpidtBench.Library.Chunks
import MpidtBench.Library.Collective
import MpidtBench.Library.Datatype
import MpidtBench.Library.Doubling
import MpidtBench.Library.Exchange
import MpidtBench.Library.IoVec
import MpidtBench.Library.Ledger
import MpidtBench.Library.Marked
import MpidtBench.Library.Pages
import MpidtBench.Library.Phases
import MpidtBench.Library.Progress
import MpidtBench.Library.Related
import MpidtBench.Library.Session
import MpidtBench.Library.Sharing
import MpidtBench.Library.Stored
import MpidtBench.Library.Tickets
import MpidtBench.Library.Tiling
import MpidtBench.Library.Traced
import MpidtBench.Library.Windows
import MpidtBench.Model.Actions
import MpidtBench.Model.Cma
import MpidtBench.Model.CopyTests
import MpidtBench.Model.Effects
import MpidtBench.Model.Latency
import MpidtBench.Model.LatencyData
import MpidtBench.Model.Main
import MpidtBench.Model.Options
import MpidtBench.Model.Pipeline
import MpidtBench.Model.Ranks
import MpidtBench.Model.Region
import MpidtBench.Model.Shmem
import MpidtBench.Model.Standalone
import MpidtBench.Model.TypeTests
import MpidtBench.Model.World
import MpidtBench.Model.Xpmem
import MpidtBench.Proofs.AttachSplits
import MpidtBench.Proofs.CmaBatches
import MpidtBench.Proofs.CmaLoops
import MpidtBench.Proofs.CmaOutcomes
import MpidtBench.Proofs.Delivery
import MpidtBench.Proofs.IntExact
import MpidtBench.Proofs.LatencyEcho
import MpidtBench.Proofs.LatencySweep
import MpidtBench.Proofs.OptionParsing
import MpidtBench.Proofs.PipelineBounds
import MpidtBench.Proofs.PipelineDomain
import MpidtBench.Proofs.PipelineLoops
import MpidtBench.Proofs.PipelineProtocol
import MpidtBench.Proofs.PipelineRefinement
import MpidtBench.Proofs.PipelineSafety
import MpidtBench.Proofs.PlainCopy
import MpidtBench.Proofs.PlainRoundTrip
import MpidtBench.Proofs.RegionLifecycle
import MpidtBench.Proofs.SharedDelivery
import MpidtBench.Proofs.SharedRounds
import MpidtBench.Proofs.StandaloneDelivery
import MpidtBench.Proofs.StandaloneLifetime
import MpidtBench.Proofs.StandaloneProgress
import MpidtBench.Proofs.SweepAgreement
import MpidtBench.Proofs.SweepArithmetic
import MpidtBench.Proofs.SweepDelivery
import MpidtBench.Proofs.SweepProgress
import MpidtBench.Proofs.SweepRuns
import MpidtBench.Proofs.SweepSafety
import MpidtBench.Proofs.SweepShape
import MpidtBench.Proofs.SweepSizes
import MpidtBench.Proofs.SweepTrace
import MpidtBench.Proofs.SweepWaiting
import MpidtBench.Proofs.SweepWindows
import MpidtBench.Proofs.TestAgreement
import MpidtBench.Proofs.TestProgress
import MpidtBench.Proofs.TypeDelivery
import MpidtBench.Proofs.XpmemBalance
import MpidtBench.Proofs.XpmemBounds
import MpidtBench.Proofs.XpmemCached
import MpidtBench.Proofs.XpmemFailure
import MpidtBench.Proofs.XpmemLive
import MpidtBench.Proofs.XpmemLoops
import MpidtBench.Proofs.XpmemMapped
import MpidtBench.Proofs.XpmemPermits
