import Zab.Basic.Homing
import Zab.Sync.AsyncLatchInv
import Zab.Sync.BinarySemaphoreInv
import Zab.Sync.CountingSemaphoreInv
import Zab.Sync.ObservableInv
import Zab.Sync.PauseTokenInv

set_option autoImplicit false

/-! # What the primitives record of a coroutine that waits

`operator co_await` builds the awaiter of a primitive, with the field `thread_` that the wake-up
hands to `thread_resume`. Whether it is the thread of the coroutine depends on the arguments of
that constructor; from then on the awaiter belongs to the coroutine alone, nobody writes the field,
and the wake-up reads it in the awaiter of the coroutine that it resumes.
-/

open Automaton Homing

/-! ## `pause_token` -/

namespace Zab.PauseToken

/-- The arguments of a call of `thread_resume`. -/
def Resumption.call (r : Resumption) : Option Coro × ThreadT := (r.handle, r.thread)

/-- `operator co_await` passes `engine_->current_id()`. -/
def primitive : Primitive Coro ThreadT where
  State := State
  Label := Coro × Action
  step := step
  ok := anyStep
  start := (· = init)
  awaits
    | (c, .coAwait _ t) => some (c, t)
    | _ => none
  dispatches s _ t :=
    (gained (s.resumed.map Resumption.call) (t.resumed.map Resumption.call)).filterMap named
  record := id

/-- The `pauser` of `c` has the thread `x` in it. -/
def Recorded (s : State) : Coro → ThreadT → Prop :=
  InSlot (fun c => (s.pc c).pauser) fun p => (s.mem p).thread

section

variable {s s' : State} {ch : List Addr} {loc : Coro → List Addr} {c d : Coro} {x : ThreadT}

theorem Inv.slots (h : Inv s ch loc) : Slots (fun c => (s.pc c).pauser) s.live :=
  ⟨h.live, h.owner⟩

end

end Zab.PauseToken

/-! ## `async_latch` -/

namespace Zab.AsyncLatch

/-- `wait` and `arrive_and_wait` return the awaiter of `complete_`. -/
def primitive (amount : Amount) : Primitive Coro ThreadT where
  State := State
  Label := Coro × Action
  step := step
  ok := anyStep
  start := (· = init amount)
  awaits
    | (c, .wait _ t) => some (c, t)
    | _ => none
  dispatches s _ t :=
    (gained (s.complete.resumed.map PauseToken.Resumption.call)
      (t.complete.resumed.map PauseToken.Resumption.call)).filterMap named
  record := id

end Zab.AsyncLatch

/-! ## `async_counting_semaphore<1>` and `async_mutex` -/

namespace Zab.BinarySemaphore

/-- `record` is what `operator co_await` writes into `thread_` on a thread: that of the semaphore
passes `engine_->current_id()`, that of `async_mutex` passes the semaphore only. -/
def primitive (unlocked : Bool) (creator : Coro) (record : ThreadT → ThreadT) :
    Primitive Coro ThreadT where
  State := State
  Label := Coro × Action
  step := step
  ok := anyStep
  start := (· = init unlocked creator)
  awaits
    | (c, .coAwait _ t) => some (c, t)
    | _ => none
  dispatches s _ t := (gained s.resumed t.resumed).filterMap named
  record := record

/-- The `waiter` of `c` has the thread `x` in it. -/
def Recorded (s : State) : Coro → ThreadT → Prop :=
  InSlot (fun c => (s.pc c).status.node) fun w => (s.mem w).thread

section

variable {s s' : State} {lc tr ch : List Addr} {c d : Coro} {x : ThreadT}

end

end Zab.BinarySemaphore

/-! ## `async_counting_semaphore`, the general template -/

namespace Zab.CountingSemaphore

/-- `operator co_await` passes `engine_->current_id()`. -/
def primitive (start : Int) : Primitive Coro ThreadT where
  State := State
  Label := Action
  step := step
  ok := positive
  start := (· = init start)
  awaits
    | .coAwait c _ t => some (c, t)
    | _ => none
  dispatches s _ t := (gained s.resumed t.resumed).filterMap named
  record := id

/-- The `waiter` of `c` has the thread `x` in it. -/
def Recorded (s : State) : Coro → ThreadT → Prop :=
  InSlot (fun c => (s.pc c).status.node) fun w => (s.mem w).thread

section

variable {start : Int} {P : Prop} {s s' : State} {lc tr ch : List Addr} {cnt : List Coro}
  {srv : Server} {c d : Coro} {x : ThreadT}

end

end Zab.CountingSemaphore

/-! ## The observers of an `observable` -/

namespace Zab.Observable

/-- The observer whose consumer is resumed by the next step of the holder of the mutex. -/
def State.wakes (s : State) : Action → List (Observer × ThreadT)
  | .hold =>
      match s.holder with
      | .emitting _ (o :: _) => (s.handle o).toList.map fun t => (o, t)
      | _ => []
  | _ => []

/-- An observer has one consumer. Its `await_suspend` stores `engine_->current_id()`. -/
def primitive : Primitive Observer ThreadT where
  State := State
  Label := Action
  step := step
  ok := anyStep
  start := (· = init)
  awaits
    | .awaitSuspend o t => some (o, t)
    | _ => none
  dispatches s a _ := s.wakes a
  record := id

/-- The consumer of `o` waits, with the thread `t` in the observer. -/
def Recorded (s : State) (o : Observer) (t : ThreadT) : Prop := s.handle o = some t

section

variable {s s' : State} {o : Observer} {t : ThreadT}

end

end Zab.Observable
