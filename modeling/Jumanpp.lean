import Jumanpp.Util.CsvProgress
import Jumanpp.Util.CsvRoundTrip
import Jumanpp.Util.SerialStatus
import Jumanpp.Core.Analysis.BestPath
import Jumanpp.Core.Analysis.LatticeSeeds
import Jumanpp.Core.Analysis.NodeSeeds
import Jumanpp.Core.Training.FeatureDiff
import Jumanpp.Core.Training.ExecutorView
import Jumanpp.Core.Impl.ScoringAgreement
import Jumanpp.Core.Impl.ModelRoundTrip
import Jumanpp.Core.Analysis.RnnResolveIds
import Jumanpp.Core.Spec.SpecSer
import Jumanpp.Core.Analysis.ChunkWords
import Jumanpp.Core.Analysis.OnomatopoeiaWords
import Jumanpp.Core.Dic.EntryRoundTrip
import Jumanpp.Core.Analysis.RnnGather
import Jumanpp.Core.Dic.StringStorageReads
import Jumanpp.Core.Analysis.AdjustedScores
import Jumanpp.Core.Analysis.RnnScorerRoundTrip
import Jumanpp.Core.Analysis.Connectability
import Jumanpp.Util.CodedBuffer
import Jumanpp.Core.Analysis.NumericReads
import Jumanpp.Util.CharacterCount
import Jumanpp.Core.Training.ComparisonWalk
import Jumanpp.Core.Spec.QuotedString
import Jumanpp.Core.Dic.ListImport
import Jumanpp.Core.Dic.ListImportReads
import Jumanpp.Core.Spec.FilledFeatures
import Jumanpp.Core.Spec.PatternGroups
import Jumanpp.Util.MurmurHash
import Jumanpp.Core.Training.PartialFeatures
import Jumanpp.Core.Training.GoldExample
import Jumanpp.Core.Spec.TrainSpec
import Jumanpp.Core.Analysis.GbeamAccesses
import Jumanpp.Core.Impl.ValueSlots
import Jumanpp.Core.Dic.MatchFeatures
import Jumanpp.Core.Input.PartialFileReads
import Jumanpp.Lib.Binary32
import Jumanpp.Core.Analysis.PackedCandidate
import Jumanpp.Lib.Heap
import Jumanpp.Core.Analysis.EntryBeam
import Jumanpp.Util.BoundedQueueRuns
import Jumanpp.Rnn.MikolovReader
import Jumanpp.Rnn.MikolovMaxent
import Jumanpp.Rnn.MikolovBatch
import Jumanpp.Core.Dic.EntryWalks
import Jumanpp.Core.Analysis.OutputManager
import Jumanpp.Jumandic.MdicPrinting
import Jumanpp.Jumandic.MdicReading
import Jumanpp.Jumandic.MdicFormat
import Jumanpp.Jumandic.MdicRoundTrip
import Jumanpp.Core.Training.ExecutorRuns
import Jumanpp.Core.Training.ExecutorCalls
import Jumanpp.Lib.Assoc
import Jumanpp.Util.LruCache
import Jumanpp.Core.Dic.EntryIndex
import Jumanpp.Util.MemoryRuns
import Jumanpp.Jumandic.LatticePaths
