import Fsys.Base.Bytes
import Fsys.Base.Disk
import Fsys.Platform
import Fsys.Platform.WriteLoops
import Fsys.Platform.Ring
import Fsys.Platform.ReadRange
import Fsys.Crud.TempFile
import Fsys.Crud.AtomicReplace
import Fsys.Crud.ReplaceSafety
import Fsys.Crud.Calls
import Fsys.Crud.TempNames
import Fsys.Jail.ResolvePath
import Fsys.Jail.Confinement
import Fsys.Jail.WriteConfined
import Fsys.Base.Prog
import Fsys.Base.Scan
import Fsys.Base.Transition
import Fsys.Base.Words
import Fsys.Base.ShiftRegister
import Fsys.Journal.Frame
import Fsys.Journal.PlainScan
import Fsys.Journal.Reader
import Fsys.Journal.SplitIter
import Fsys.Journal.ReaderFaults
import Fsys.Journal.ReaderScan
import Fsys.Journal.Tail
import Fsys.Journal.TailSafety
import Fsys.Journal.Handle
import Fsys.Journal.Resume
import Fsys.Journal.Reopen
import Fsys.Journal.SoloBuffer
import Fsys.Journal.ReopenAppend
import Fsys.Journal.TornTail
import Fsys.Journal.FrameDamage
import Fsys.Journal.ReadAt
import Fsys.Journal.Interrupts
import Fsys.Journal.FailStop
import Fsys.Journal.BatchAppend
import Fsys.Base.Tally
import Fsys.Base.Owner
import Fsys.Base.Tree
import Fsys.Journal.Gate
import Fsys.Journal.GateSafety
import Fsys.Journal.ClosedGate
import Fsys.Journal.Preallocate
import Fsys.Journal.PreallocateSafety
import Fsys.Journal.GroupCommit
import Fsys.Journal.GroupCommitInv
import Fsys.Journal.GroupCommitSafety
import Fsys.Async.CompletionDriver
import Fsys.Async.OpLife
import Fsys.Async.DriverInv
import Fsys.Async.DriverSafety
import Fsys.Journal.Holes
import Fsys.Journal.LogBuffer
import Fsys.Journal.AppendFrame
import Fsys.Journal.LogBufferInv
import Fsys.Journal.LogBufferSafety
import Fsys.Pipeline.Group
import Fsys.Pipeline.Dispatch
import Fsys.Pipeline.ShardFlow
import Fsys.Pipeline.DispatchInv
import Fsys.Pipeline.DispatchSteps
import Fsys.Pipeline.DispatchSafety
import Fsys.Capability.TomlLite
import Fsys.Capability.TomlRoundTrip
import Fsys.Capability.TomlSoundness
import Fsys.Capability.Types
import Fsys.Capability.CacheRoundTrip
import Fsys.Capability.Probe
import Fsys.Handle.MethodWord
import Fsys.Handle.MethodSafety
import Fsys.Base.Text
import Fsys.Platform.NvmeDevice
import Fsys.Dir.Braces
import Fsys.Dir.Listing
import Fsys.Dir.ScanAll
import Fsys.Dir.FindSafety
import Fsys.Dir.MkdirAllSafety
import Fsys.Buffer.PoolWaits
import Fsys.Base.Stable
import Fsys.Journal.GateRecords
import Fsys.Journal.DirectWrites
import Fsys.Journal.DirectSync
import Fsys.Journal.PowerLoss
import Fsys.Journal.FollowSafety
import Fsys.Base.Client
import Fsys.Base.PrivateFile
import Fsys.Crud.SharedCalls
import Fsys.Crud.SharedRuns
import Fsys.Crud.SharedStore
import Fsys.Crud.SharedMoves
import Fsys.Crud.SharedSafety
import Fsys.Crud.SharedReads
import Fsys.Crud.SharedHistory
import Fsys.Crud.PowerCut
