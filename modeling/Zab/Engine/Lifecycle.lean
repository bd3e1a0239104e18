import Zab.Basic.Automaton
import Zab.Basic.Countdown
import Zab.Engine.WorkerInv

set_option autoImplicit false

/-! # `engine::start` and `engine::stop`

`start` creates the threads of the workers under the mutex of the engine, waits with them at a
latch, and joins them one after the other; then it takes the mutex again and forgets the threads.
`stop` takes the mutex and requests a stop of every thread that there is, which calls the callback
of the thread if one is registered. It may be called by a handler of a worker and by anybody else,
at any time and by many at once; a worker that is in a call of `stop` does nothing else.

`start` is called once. The steps of a worker are those of `Worker`; the signal handler, which `stop`
stops before it takes the mutex, and the timers are not part of them. `counted` and `stops` are read
by no branch of the code: the first lists who has arrived at the latch, the second the calls of
`stop` that have returned, with the number of threads that they have seen.
-/

namespace Zab.Lifecycle

open Automaton Workers

/-- Who calls `stop`. -/
inductive Caller where
  /-- A handler of the worker `i`. -/
  | worker (i : Nat)
  | other (k : Nat)
  deriving DecidableEq

/-- Who has locked the mutex. -/
inductive Holder where
  | start
  | stop (c : Caller)
  deriving DecidableEq

/-- Where `start` is. -/
inductive Start where
  /-- It has not been called. -/
  | idle
  /-- Before it locks the mutex. -/
  | lock
  /-- It has created the threads below `k`. -/
  | create (k : Nat)
  /-- Before it arrives at the latch. -/
  | arrive
  | latch
  /-- It has joined the threads below `k`. -/
  | join (k : Nat)
  /-- Before it locks the mutex again. -/
  | clear
  | returned
  /-- The engine has been destroyed. -/
  | destroyed
  deriving DecidableEq

/-- Where a call of `stop` is. -/
inductive Stop where
  | idle
  /-- Before it locks the mutex. -/
  | lock
  /-- Before `request_stop` of the thread `j`. -/
  | request (j : Nat)
  /-- Before the call of the callback of the thread `j`. -/
  | callback (j : Nat)
  deriving DecidableEq

structure State where
  worker : Nat → Worker
  /-- `threads_.size()` -/
  threads : Nat
  start : Start
  stop : Caller → Stop
  mtx : Option Holder
  /-- The counter of the latch. -/
  latch : Int
  counted : List (Option Nat)
  stops : List (Caller × Nat)

/-- The engine after its construction, for `n` threads. -/
def init (n : Nat) : State where
  worker := fun _ => Workers.init
  threads := 0
  start := .idle
  stop := fun _ => .idle
  mtx := none
  latch := (n : Int) + 1
  counted := []
  stops := []

inductive Action where
  /-- The next step of `start`, and of the destructor after it. -/
  | start
  /-- The next step of the thread of the worker `i`. -/
  | worker (i : Nat) (full : Bool) (amount : Nat)
  | outside (i : Nat) (o : Outside)
  /-- The next step of a call of `stop`. -/
  | stop (c : Caller)
  deriving DecidableEq

def State.setWorker (s : State) (i : Nat) (w : Worker) : State :=
  { s with worker := Function.update s.worker i w }

/-- Somebody arrives at the latch: a worker, or `none` for `start`. -/
def State.arrive (s : State) (p : Option Nat) : State :=
  { s with latch := s.latch - 1, counted := s.counted ++ [p] }

def State.setStop (s : State) (c : Caller) (q : Stop) : State :=
  { s with stop := Function.update s.stop c q }

/-- `start()`, and `~engine` after it. -/
def State.startStep (n : Nat) (s : State) : Option State :=
  match s.start with
  | .idle => some { s with start := .lock }
  | .lock => if s.mtx = none then some { s with start := .create 0, mtx := some .start } else none
  | .create k =>
      -- the mutex is kept until all threads are there
      if k < n then
        some { s.setWorker k { s.worker k with pc := .created } with
          threads := s.threads + 1, start := .create (k + 1) }
      else some { s with start := .arrive, mtx := none }
  | .arrive => some { s.arrive none with start := .latch }
  | .latch => if s.latch = 0 then some { s with start := .join 0 } else none
  | .join k =>
      if k < n then
        if (s.worker k).pc = .exited then some { s with start := .join (k + 1) } else none
      else some { s with start := .clear }
  | .clear => if s.mtx = none then some { s with threads := 0, start := .returned } else none
  | .returned => some { s with worker := fun i => (s.worker i).destruct, start := .destroyed }
  | .destroyed => none

/-- The next step of the thread of a worker. -/
def State.workerStep (s : State) (i : Nat) (full : Bool) (amount : Nat) : Option State :=
  match (s.worker i).pc with
  | .arrive => some ((s.arrive (some i)).setWorker i { s.worker i with pc := .latch })
  | .latch => if s.latch = 0 then some (s.setWorker i (s.worker i).enter) else none
  | _ => ((s.worker i).advance full amount).map fun w => s.setWorker i w

/-- `stop()` -/
def State.stopStep (s : State) (c : Caller) : Option State :=
  match s.stop c with
  | .idle =>
      match c with
      | .worker i => if (s.worker i).inHandler = true then some (s.setStop c .lock) else none
      | .other _ => some (s.setStop c .lock)
  | .lock =>
      if s.mtx = none then some { s.setStop c (.request 0) with mtx := some (.stop c) } else none
  | .request j =>
      if j < s.threads then
        -- only the first request of a stop calls the callback
        if (s.worker j).requested then some (s.setStop c (.request (j + 1)))
        else
          some ((s.setWorker j (s.worker j).request).setStop c
            (if (s.worker j).callback then .callback j else .request (j + 1)))
      else some { s.setStop c .idle with mtx := none, stops := s.stops ++ [(c, s.threads)] }
  | .callback j => some ((s.setWorker j (s.worker j).callBack).setStop c (.request (j + 1)))

def step (n : Nat) (s : State) (a : Action) : Option State :=
  if s.start = .destroyed then none
  else
    match a with
    | .start => s.startStep n
    | .worker i full amount =>
        if s.stop (.worker i) = .idle then s.workerStep i full amount else none
    | .outside i o => ((s.worker i).outside o).map fun w => s.setWorker i w
    | .stop c => s.stopStep c

/-- The engine is not destroyed while somebody calls `stop`. -/
def intended (s : State) (a : Action) : Prop :=
  a = .start → s.start = .returned → ∀ c, s.stop c = .idle

def Reachable (n : Nat) : State → Prop := Reaches (step n) intended (· = init n)

end Zab.Lifecycle
