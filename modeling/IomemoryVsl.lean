import IomemoryVsl.Transition
import IomemoryVsl.SixLock
import IomemoryVsl.SixLockSystem
import IomemoryVsl.SixLockBooks
import IomemoryVsl.SixLockLedger
import IomemoryVsl.SixLockRuns
import IomemoryVsl.SixLockSafety
import IomemoryVsl.SixLockOrder
import IomemoryVsl.SixLockWakeups
import IomemoryVsl.SixLockSole
import IomemoryVsl.BioMerge
import IomemoryVsl.BioKickoff
import IomemoryVsl.Scatter
import IomemoryVsl.BioPlug
import IomemoryVsl.BioFaithful
import IomemoryVsl.DiskRefs
import IomemoryVsl.MqBinding
import IomemoryVsl.CompletionRace
import IomemoryVsl.MqCompletion
import IomemoryVsl.ScatterOps
import IomemoryVsl.ScatterSound
import IomemoryVsl.ScatterPins
import IomemoryVsl.BioRequest
import IomemoryVsl.AtomicList
import IomemoryVsl.SeqFile
import IomemoryVsl.Hotplug
import IomemoryVsl.StateVar
import IomemoryVsl.Kinfo
import IomemoryVsl.KinfoTree
import IomemoryVsl.KinfoRemove
import IomemoryVsl.KinfoSound
import IomemoryVsl.ByteMemory
import IomemoryVsl.KinfoFind
import IomemoryVsl.KinfoPath
import IomemoryVsl.FusionList
import IomemoryVsl.ScatterBytes
import IomemoryVsl.ScatterDma
import IomemoryVsl.ScatterBuffer
import IomemoryVsl.ScatterWrites
import IomemoryVsl.ScatterCopy
import IomemoryVsl.ScatterCopyFits
import IomemoryVsl.ScatterCopyExact
import IomemoryVsl.SixLockImmediate
import IomemoryVsl.SixLockTrylock
import IomemoryVsl.SixLockRefusal
import IomemoryVsl.KinfoSubtree
import IomemoryVsl.KinfoWalk
import IomemoryVsl.KinfoListing
import IomemoryVsl.Ktime
import IomemoryVsl.Kcpu
import IomemoryVsl.KcpuNodes
import IomemoryVsl.KcpuQueues
import IomemoryVsl.KcpuShares
import IomemoryVsl.Decimal
import IomemoryVsl.KinfoProc
import IomemoryVsl.KinfoProcRead
import IomemoryVsl.KinfoProcWrite
import IomemoryVsl.KinfoProcLeak
import IomemoryVsl.KinfoProcRoundTrip
import IomemoryVsl.KinfoHandle
import IomemoryVsl.DiskExpose
import IomemoryVsl.DiskExposeRuns
import IomemoryVsl.MachineWord
import IomemoryVsl.KtimeTicks
import IomemoryVsl.SerialOrder
import IomemoryVsl.SixLockSerial
import IomemoryVsl.StateArcs
import IomemoryVsl.Ranges
import IomemoryVsl.ScatterPages
import IomemoryVsl.KfioStrncpy
import IomemoryVsl.FirstHit
import IomemoryVsl.PciSlot
import IomemoryVsl.PciSlotEntries
import IomemoryVsl.PciSlotReads
import IomemoryVsl.MakeRequest
import IomemoryVsl.MakeRequestLedger
import IomemoryVsl.MakeRequestRuns
import IomemoryVsl.Monitor
import IomemoryVsl.Kcondvar
import IomemoryVsl.KcondvarRefines
import IomemoryVsl.DiskState
import IomemoryVsl.DiskStateRuns
import IomemoryVsl.DiskHistory
import IomemoryVsl.Transfer
import IomemoryVsl.BioMeaning
import IomemoryVsl.RequestMeaning
import IomemoryVsl.SeqRecords
import IomemoryVsl.PciDriver
import IomemoryVsl.NumaOverride
import IomemoryVsl.SixLockProgram
import IomemoryVsl.SixLockRefines
import IomemoryVsl.SpinLock
import IomemoryVsl.SpinLockRuns
import IomemoryVsl.ScatterTransfer
import IomemoryVsl.StateProgram
