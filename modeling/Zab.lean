import Zab.Basic.Automaton
import Zab.Basic.Chain
import Zab.Basic.TaggedWord
import Zab.Basic.Slots
import Zab.Basic.WaitQueue
import Zab.Basic.Phases
import Zab.Basic.Custody
import Zab.Basic.Countdown
import Zab.Basic.FifoLock
import Zab.Basic.Movers
import Zab.Engine.StrongTypes
import Zab.Engine.UserEvents
import Zab.Engine.EventLoop
import Zab.Engine.UserData
import Zab.Engine.Proxy
import Zab.Engine.ReusableFuture
import Zab.Engine.DeferBlock
import Zab.Engine.SignalHandler
import Zab.Engine.SignalPipes
import Zab.Engine.TimerService
import Zab.Engine.TimerServiceSound
import Zab.Sync.PauseToken
import Zab.Sync.PauseTokenInv
import Zab.Sync.AsyncLatch
import Zab.Sync.AsyncLatchInv
import Zab.Sync.FirstOf
import Zab.Sync.WaitFor
import Zab.Sync.WaitForInv
import Zab.Sync.WaitForVectorInv
import Zab.Sync.Observable
import Zab.Sync.ObservableInv
import Zab.Sync.BinarySemaphore
import Zab.Sync.BinarySemaphoreInv
import Zab.Sync.CountingSemaphore
import Zab.Sync.CountingSemaphoreInv
import Zab.Sync.CountingSemaphoreSound
import Zab.Sync.CountingRelease
import Zab.Sync.Barrier
import Zab.Sync.BarrierStart
import Zab.Sync.BarrierList
import Zab.Sync.BarrierPhases
import Zab.Sync.BarrierPhasesSound
import Zab.File.AsyncFile
import Zab.File.ReadFile
import Zab.Net.NetworkOperation
import Zab.Net.CancelToken
import Zab.Basic.Lifetime
import Zab.Basic.Spread
import Zab.Sync.BarrierMemory
import Zab.Sync.LookBack
import Zab.Engine.TimerBookkeeping
import Zab.Engine.DelayedResume
import Zab.Engine.GenericAwaitable
import Zab.Engine.TimerAwait
import Zab.Net.TcpStream
import Zab.Net.TcpConnect
import Zab.Net.Requests
import Zab.Net.TcpAcceptor
import Zab.File.ReadLoop
import Zab.File.Descriptors
import Zab.File.WriteSequence
import Zab.Sync.BarrierWindow
import Zab.Sync.BarrierExtract
import Zab.Basic.FifoLock
import Zab.Basic.Movers
import Zab.Basic.Homing
import Zab.Sync.Homes
import Zab.Sync.BarrierHomes
import Zab.Sync.HomeThread
import Zab.Engine.ThreadResume
import Zab.Sync.LatchTryWait
import Zab.Sync.RecursiveSpinLock
import Zab.Engine.SimpleFuture
import Zab.Engine.SimpleFutureHeap
import Zab.Engine.SimpleFutureSound
import Zab.Basic.Simulation
import Zab.Basic.Resumption
import Zab.Engine.SimpleFutureDirect
import Zab.Sync.AsyncMutex
import Zab.Engine.UserEventsLocked
import Zab.Engine.LifecycleStop
import Zab.Engine.SignalDeliverySound
