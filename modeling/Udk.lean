import Udk.Variable.ReadBack
import Udk.Variable.Enumeration
import Udk.Variable.PeiSpec
import Udk.Variable.Frame
import Udk.Variable.PowerLoss
import Udk.Variable.Accounting
import Udk.Variable.Query
import Udk.Gcd.Pointwise
import Udk.Event.Delivery
import Udk.Event.TimerLoop
import Udk.Handle.Exclusivity
import Udk.Handle.Rollback
import Udk.Handle.Completeness
import Udk.Pool.Soundness
import Udk.Depex.Schedulable
import Udk.Depex.Readiness
import Udk.DiskIo.Flat
import Udk.NetBuffer.Sequence
import Udk.NetBuffer.Trim
import Udk.NetBuffer.ExtTable
import Udk.NetBuffer.Checksum
import Udk.NetBuffer.QueueStream
import Udk.Ip4.Sound
import Udk.Ip4.RouteCache
import Udk.Ip4.Options
import Udk.Partition.Discovery
import Udk.Partition.MbrScan
import Udk.Partition.ElToritoScan
import Udk.Pcd.Once
import Udk.PeCoff.Runtime
import Udk.Smi.Dispatch
import Udk.Smm.PageSound
import Udk.Pei.Heap
import Udk.Ppi.Once
import Udk.Hii.Blocks
import Udk.Hii.MergeSound
import Udk.Hii.BlockToConfig
import Udk.Collation.PatternLanguage
import Udk.DevicePath.Locate
import Udk.DevicePath.Instances
import Udk.Tcp4.Retransmission
import Udk.Tcp4.SendRun
import Udk.Variable.BlockWrite
import Udk.Variable.LanguageTags
import Udk.Variable.PeiIndex
import Udk.Huffman.Agreement
import Udk.Gcd.MemorySearch
import Udk.Compress.Fields
import Udk.DevicePath.Append
import Udk.DevicePath.Instances
