import Libtt.Trace.DispatchCorrect
import Libtt.Store.TcpSystem
import Libtt.Store.Progress
import Libtt.Rng.Streams
import Libtt.Allocator.TraceDramCorrect
import Libtt.Execute.Donation
import Libtt.ControlFlow.OutlineCorrect
import Libtt.WidthScan.Kernels
import Libtt.HostCopy.Gather
import Libtt.MatmulFp32.KernelsCorrect
import Libtt.Trace.CacheCorrect
import Libtt.AllReduce.HandshakeProgress
import Libtt.ShardedGather.Sum
import Libtt.ConstEval.HashCorrect
import Libtt.ChloScan.Lowering
import Libtt.ShardedReduce.Combined
import Libtt.IndexedRows.EmbeddingCorrect
import Libtt.IndexedRows.UpdateSliceCorrect
import Libtt.Sfpu.ReducePrecision
import Libtt.IndexedRows.Reduce
import Libtt.Matmul1D.Split
import Libtt.TopK.Plan
import Libtt.SliceFusions.RowsCorrect
import Libtt.Pooling.SelectAndScatterCorrect
import Libtt.Cumulative.MatchCorrect
import Libtt.Dots.UnitDims
import Libtt.Dots.StrengthReduction
import Libtt.Convolutions.ZeroDimensional
import Libtt.Reductions.Bitwise
import Libtt.Reductions.ComplexCorrect
import Libtt.Convolutions.Transposed
import Libtt.TiledReshape.KernelCorrect
import Libtt.Sfpu.Bfp4Correct
import Libtt.MultiProcess.DevicesCorrect
import Libtt.ScaledSum.Pattern
import Libtt.MatmulDecode.ProposalsCorrect
import Libtt.Sorting.FloatRows
import Libtt.TraceHoist.Partitions
import Libtt.FusedMoe.Lowering
import Libtt.AllReduce.DirectCorrect
import Libtt.MoeRings.ChunkOwnersCorrect
import Libtt.IndexedRows.StreamsCorrect
import Libtt.IndexedRows.Decode
import Libtt.Reductions.WideRows
import Libtt.DecodeFusions.Correct
