import RainRuntime.CoroutineBody
import RainRuntime.Transition
import RainRuntime.CondVar
import RainRuntime.Slotmap
import RainRuntime.Types
import RainRuntime.TimerWheel
import RainRuntime.TimerIds
import RainRuntime.TimerWindow
import RainRuntime.TimerCascade
import RainRuntime.TimerFiring
import RainRuntime.ArmedInterest
import RainRuntime.Awaiters
import RainRuntime.WaitInvariant
import RainRuntime.WaitSteps
import RainRuntime.WaitRuns
import RainRuntime.WaitOutcome
import RainRuntime.StopCallbacks
import RainRuntime.LoopSteps
import RainRuntime.CrossCore
import RainRuntime.LoopWorld
import RainRuntime.LoopExit
import RainRuntime.LoopClock
import RainRuntime.Combinators
import RainRuntime.Channel
import RainRuntime.ChannelMonitor
import RainRuntime.ThreadPool
import RainRuntime.Bridge
import RainRuntime.BridgeDelivery
import RainRuntime.TaskMachine
import RainRuntime.TaskChains
import RainRuntime.TaskRuns
import RainRuntime.TaskCalls
import RainRuntime.LoopPoll
import RainRuntime.JoinHandles
import RainRuntime.JoinRuns
import RainRuntime.Signals
import RainRuntime.StopTokens
import RainRuntime.TaskLoop
import RainRuntime.StopReach
import RainRuntime.ReactorDispatch
import RainRuntime.RearmFaults
import RainRuntime.SimReactor
import RainRuntime.TimerExpired
import RainRuntime.NextDeadline
import RainRuntime.OwnSlots
import RainRuntime.OverdueWaits
import RainRuntime.Contests
import RainRuntime.LoopThread
import RainRuntime.RaceLedger
import RainRuntime.RaceScenes
import RainRuntime.RaceSteps
import RainRuntime.RaceRuns
import RainRuntime.CallOutcomes
import RainRuntime.CrowdedTimeout
import RainRuntime.TimerPhase
import RainRuntime.Scripted
import RainRuntime.StreamIo
import RainRuntime.TimerRecords
import RainRuntime.BulkTransfers
import RainRuntime.TimedIo
import RainRuntime.DeadlineRange
import RainRuntime.FileIo
import RainRuntime.WholeFiles
import RainRuntime.FileHandles
import RainRuntime.RetryStops
import RainRuntime.Addresses
import RainRuntime.BlockOn
import RainRuntime.Executor
import RainRuntime.ExecutorRuns
import RainRuntime.GracefulStop
import RainRuntime.LoopTurns
import RainRuntime.Custody
import RainRuntime.SocketRuns
import RainRuntime.SocketUse
import RainRuntime.SignalDelivery
import RainRuntime.ThreadContext
import RainRuntime.TimerCalendar
