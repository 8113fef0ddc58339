import Elbencho.Library.Transition
import Elbencho.Library.SharedLock
import Elbencho.Library.PackedCells
import Elbencho.Library.CellFlags
import Elbencho.Library.Word64
import Elbencho.Library.Lcg
import Elbencho.Library.Checks
import Elbencho.Library.Blocks
import Elbencho.Library.Numbered
import Elbencho.Library.PropertyTree
import Elbencho.Library.Parties
import Elbencho.Library.XorSums
import Elbencho.Library.DigitGroups
import Elbencho.Library.LogLinear
import Elbencho.Library.InPlace
import Elbencho.Library.PairedLog
import Elbencho.Journal.Cells
import Elbencho.Journal.CellOps
import Elbencho.Journal.VerifiableCount
import Elbencho.Journal.Tile
import Elbencho.Journal.Content
import Elbencho.Journal.Locking
import Elbencho.Journal.BlockIO
import Elbencho.Journal.Guards
import Elbencho.Journal.Invariant
import Elbencho.Journal.Soundness
import Elbencho.Journal.Durability
import Elbencho.Journal.Sequential
import Elbencho.Journal.Generations
import Elbencho.Journal.Store
import Elbencho.OffsetGen.Generators
import Elbencho.OffsetGen.FullCoverage
import Elbencho.OffsetGen.Dispatch
import Elbencho.OffsetGen.RandomGrid
import Elbencho.OffsetGen.FullRuns
import Elbencho.OffsetGen.CoverCycles
import Elbencho.Args.PathDependent
import Elbencho.Args.BlockSizeText
import Elbencho.Args.MixDraws
import Elbencho.Args.SizeTexts
import Elbencho.Args.SquareBrackets
import Elbencho.Args.BracketStep
import Elbencho.Args.BracketProduct
import Elbencho.Args.ServiceTransfer
import Elbencho.Args.CommandLine
import Elbencho.Worker.RwBlockSized
import Elbencho.Worker.ShortResults
import Elbencho.Worker.VerifyPattern
import Elbencho.Worker.AioBlockSized
import Elbencho.Worker.Engines
import Elbencho.Worker.Threads
import Elbencho.Worker.FileModeRand
import Elbencho.Worker.FileModeSeq
import Elbencho.Worker.FileModeStrided
import Elbencho.Worker.RankOffset
import Elbencho.Worker.Alignment
import Elbencho.Worker.SpdkSectors
import Elbencho.Worker.OpsLog
import Elbencho.Worker.SpdkOpsLog
import Elbencho.Worker.StoneWall
import Elbencho.Worker.PhaseCounting
import Elbencho.Worker.RateLimiter
import Elbencho.Worker.RwMixBalance
import Elbencho.Tree.PathStore
import Elbencho.Tree.Sublists
import Elbencho.Tree.Partition
import Elbencho.Tree.Base64
import Elbencho.Tree.TreeFile
import Elbencho.S3.MultiPart
import Elbencho.S3.SharedParts
import Elbencho.S3.UploadStore
import Elbencho.S3.UploadLedger
import Elbencho.S3.SharedUploads
import Elbencho.S3.ObjectNames
import Elbencho.S3.RandomReads
import Elbencho.Stats.LatencyHistogram
import Elbencho.Stats.LatencySlots
import Elbencho.Stats.Percentiles
import Elbencho.Stats.GroupedHistogram
import Elbencho.Stats.LiveLatency
import Elbencho.Stats.PhaseResults
import Elbencho.Stats.Aggregation
import Elbencho.Net.ClientTransfer
import Elbencho.Net.Connections
import Elbencho.Net.Connection
import Elbencho.Net.Protocol
import Elbencho.Net.Runs
import Elbencho.Service.PasswordHash
import Elbencho.Service.Requests
import Elbencho.S3.ParallelListing
