import Zab.Sync.BarrierHomes
import Zab.Sync.Homes

set_option autoImplicit false

/-! # Coroutines that come back to their own thread

A coroutine that runs on a worker of the engine and waits on a primitive is given to
`thread_resume` by whoever wakes it. All primitives but one resume it on its own worker.
`async_mutex` builds the awaiter of its semaphore without a thread, so that the coroutine goes on
at any worker.
-/

namespace Zab

open Automaton Homing

/-- The primitives that a coroutine can wait on, and what they are made with. -/
inductive SyncPrimitive where
  | pauseToken
  | asyncLatch (amount : AsyncLatch.Amount)
  | asyncCountingSemaphore (start : Int)
  | asyncBinarySemaphore (unlocked : Bool) (creator : Coro)
  | asyncMutex
  | asyncBarrier (cfg : Barrier.Config)
  | observable

/-- What a primitive does and records. `async_mutex` has a semaphore that starts unlocked, and its
`operator co_await` leaves `thread_` at its default. -/
def SyncPrimitive.primitive : SyncPrimitive → Primitive Coro ThreadT
  | .pauseToken => PauseToken.primitive
  | .asyncLatch amount => AsyncLatch.primitive amount
  | .asyncCountingSemaphore start => CountingSemaphore.primitive start
  | .asyncBinarySemaphore unlocked creator => BinarySemaphore.primitive unlocked creator id
  | .asyncMutex => BinarySemaphore.primitive true 0 fun _ => ThreadT.anyThread
  | .asyncBarrier cfg => Barrier.primitive cfg
  | .observable => Observable.primitive

/-- The id of a worker of the engine. -/
def ThreadT.IsWorker (t : ThreadT) : Prop := t ≠ ThreadT.anyThread

instance (t : ThreadT) : Decidable t.IsWorker := inferInstanceAs (Decidable (t ≠ _))

/-- The states of all runs in which every step is taken on a worker. -/
def SyncPrimitive.Reachable (p : SyncPrimitive) : Placed p.primitive → Prop :=
  p.primitive.PlacedReachable ThreadT.IsWorker

instance : ∀ (s : Placed SyncPrimitive.pauseToken.primitive)
    (l : SyncPrimitive.pauseToken.primitive.Label × ThreadT),
    Decidable (SyncPrimitive.pauseToken.primitive.okAt ThreadT.IsWorker s l) :=
  fun s l => inferInstanceAs (Decidable (anyStep s.base l.1 ∧ l.2.IsWorker))

instance : ∀ (s : Placed SyncPrimitive.asyncMutex.primitive)
    (l : SyncPrimitive.asyncMutex.primitive.Label × ThreadT),
    Decidable (SyncPrimitive.asyncMutex.primitive.okAt ThreadT.IsWorker s l) :=
  fun s l => inferInstanceAs (Decidable (anyStep s.base l.1 ∧ l.2.IsWorker))

end Zab
