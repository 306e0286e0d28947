import MorelloWorkloads.Lib.FlatMemory
import MorelloWorkloads.Lib.Slabs
import MorelloWorkloads.MatrixMultiply.Product
import MorelloWorkloads.TopDown.Checks
import MorelloWorkloads.Lbm.Grid
import MorelloWorkloads.Lbm.Collision
import MorelloWorkloads.Lbm.Original
import MorelloWorkloads.Lbm.Threads
import MorelloWorkloads.Lbm.Step
import MorelloWorkloads.Lbm.Port
import MorelloWorkloads.Lbm.Setup
import MorelloWorkloads.Lib.Tiles
import MorelloWorkloads.Pxz.Chunking
import MorelloWorkloads.Pxz.CompressStream
import MorelloWorkloads.Pxz.Archive
import MorelloWorkloads.Lib.Gaps
import MorelloWorkloads.Pmu.VerboseList
import MorelloWorkloads.Pmu.DataSet
import MorelloWorkloads.Pmu.Correlation
import MorelloWorkloads.Lbm.Conservation
import MorelloWorkloads.TopDown.Scaling
import MorelloWorkloads.Lib.PyLiteral
import MorelloWorkloads.TopDown.Main
import MorelloWorkloads.TopDown.Proportion
import MorelloWorkloads.TopDown.Pipeline
import MorelloWorkloads.TopDown.Results
import MorelloWorkloads.TopDown.ReadBack
import MorelloWorkloads.Lib.Rounding
import MorelloWorkloads.SqliteBench.Random
import MorelloWorkloads.Lib.Paths
import MorelloWorkloads.SqliteBench.Database
import MorelloWorkloads.SqliteBench.Write
import MorelloWorkloads.Lib.CheckedInt
import MorelloWorkloads.Lib.Mersenne
import MorelloWorkloads.SqliteBench.Generator
import MorelloWorkloads.Lib.Digits
import MorelloWorkloads.SqliteBench.Raw
import MorelloWorkloads.Lib.Buckets
import MorelloWorkloads.SqliteBench.Histogram
import MorelloWorkloads.SqliteBench.Keys
import MorelloWorkloads.Lib.Doubling
import MorelloWorkloads.SqliteBench.Report
import MorelloWorkloads.SqliteBench.Bounds
import MorelloWorkloads.MatrixMultiply.Overflow
import MorelloWorkloads.Lbm.PrivateBounds
import MorelloWorkloads.Lbm.Flow
import MorelloWorkloads.Lib.SharedMemory
import MorelloWorkloads.Lbm.Parallel
import MorelloWorkloads.Lbm.Statistics
import MorelloWorkloads.Lbm.Run
import MorelloWorkloads.SqliteBench.Benchmarks
import MorelloWorkloads.SqliteBench.Progress
import MorelloWorkloads.SqliteBench.Merge
import MorelloWorkloads.SqliteBench.RawText
import MorelloWorkloads.Lib.CString
import MorelloWorkloads.Speedtest.NumberName
import MorelloWorkloads.Speedtest.Replaces
import MorelloWorkloads.Speedtest.VerificationHash
import MorelloWorkloads.Speedtest.Arguments
import MorelloWorkloads.Lbm.Files
import MorelloWorkloads.QuickJs.BigInt
import MorelloWorkloads.QuickJs.Arithmetic
import MorelloWorkloads.QuickJs.Shifts
import MorelloWorkloads.QuickJs.Logic
