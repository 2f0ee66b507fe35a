import Pspin.FifoRefine
import Pspin.MpqContract
import Pspin.MpqIsolation
import Pspin.MpqPipeline
import Pspin.Sync
import Pspin.NicHandshake
import Pspin.NicFeedback
import Pspin.ClusterRb
import Pspin.ClusterRbShim
import Pspin.FifoV3
import Pspin.ClusterScheduler
import Pspin.ClusterMemory
import Pspin.ClusterDispatch
import Pspin.CmdFrontend
import Pspin.HpuDriver
import Pspin.CmdIds
import Pspin.CmdAccounting
import Pspin.CmdTest
import Pspin.HpuRuns
import Pspin.HpuFeedback
import Pspin.HpuHandles
import Pspin.SchedulerRuns
import Pspin.TaskRuns
import Pspin.CmdUnitRuns
import Pspin.CmdEncoders
import Pspin.RwLock
import Pspin.DmaFrontend
import Pspin.DmaHandles
import Pspin.AxiDriver
import Pspin.AxiIncr
import Pspin.AxiMaster
import Pspin.AxiSplit
import Pspin.AxiReads
import Pspin.AxiSlave
import Pspin.PcieSlave
import Pspin.DelayLine
import Pspin.PcieReadRuns
import Pspin.AxiWrites
import Pspin.Progress
import Pspin.BurstMarks
import Pspin.NicWrites
import Pspin.NicWriteRuns
import Pspin.NicOutbound
import Pspin.NicSends
import Pspin.NicCuts
import Pspin.NicReads
import Pspin.NicSendRuns
import Pspin.RingSpace
import Pspin.NicLedger
import Pspin.NicSpaceRuns
import Pspin.NicSpace
import Pspin.ClusterRbRuns
import Pspin.SocDmaRuns
import Pspin.HostDirect
import Pspin.HostDirectRuns
import Pspin.HostWrite
import Pspin.NicRing
import Pspin.PcieMaster
import Pspin.HpuPmp
import Pspin.NicPacketizer
import Pspin.IpChecksum
import Pspin.AxiResponses
import Pspin.LazylistSafety
import Pspin.DatatypeCalls
import Pspin.DatatypeFlowRuns
import Pspin.SlmpRuns
import Pspin.AxiLogs
import Pspin.ByteLanes
import Pspin.Cursor
import Pspin.DmaBackend
import Pspin.DmaBursts
import Pspin.DmaChannels
import Pspin.DmaMarks
import Pspin.DmaProgress
