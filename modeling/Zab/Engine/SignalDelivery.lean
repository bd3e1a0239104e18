import Zab.Engine.SignalHandler
import Zab.Engine.StrongTypes
import Mathlib.Data.List.Sort

set_option autoImplicit false

/-! # `signal_handler::run` and `signal_handler::stop`

The trampoline of a signal writes a byte to the pipe. The coroutine `run` reads the pipe byte by
byte. For each byte it locks the functions and hands those of the signal to the engine, which calls
each on the thread that it was registered with. `stop` clears `running_`, restores the dispositions
of the signals that have functions, without the lock, and writes `SIGKILL` to the pipe. It may be
called by many at once.

The functions and the dispositions are those of `SignalHandler`, for the active object at `a`. A
write waits while `capacity` bytes are in the pipe. A worker calls what it is handed in the order
of its queue of user events. The read of `run` fails when the submission queue is full, or when the
kernel says so.

`written`, `taken`, `handed`, `called`, `restored`, `stopped`, `made` and `freed` are read by no
branch of the code.
-/

namespace Zab.SignalDelivery

open Automaton
open SignalHandler hiding Addr

/-- The address of a `signal_handler`. -/
abbrev Addr := SignalHandler.Addr

/-- What is cast to `char`. -/
def toChar (n : Int) : Int := n.bmod 256

/-- `SIGKILL` -/
def sigKill : Int := 9

/-- A function that is called, with the signal it is called for. -/
abbrev Delivery := Int × Entry

/-- Where `run` is. -/
inductive Loop where
  /-- It has not been called. -/
  | unborn
  /-- At `while (running_)`. -/
  | test
  /-- Suspended, the read submitted. -/
  | reading
  /-- Suspended, with a byte that has been read, or with an error. -/
  | completed (byte : Option Int)
  /-- Before it locks the functions. -/
  | lock (sig : Int)
  /-- With the lock, before it hands over `rest`. -/
  | handing (sig : Int) (rest : List Entry)
  | ended
  deriving DecidableEq

/-- Where a call of `stop` is. -/
inductive Stop where
  | idle
  /-- Before it restores the dispositions of `rest`. -/
  | restore (rest : List Int)
  /-- Before it writes to the pipe. -/
  | write
  deriving DecidableEq

structure State where
  process : SignalHandler.State
  /-- The keys of `handlers_`. -/
  keys : List Int
  pipe : List Int
  /-- `running_` -/
  running : Bool
  loop : Loop
  /-- `handle_` is set. -/
  handle : Bool
  /-- The calls of `stop`. -/
  stop : Nat → Stop
  /-- What the workers are to call. -/
  queue : Nat → List Delivery
  destroyed : Bool
  /-- The signals that have been written, with the functions that they had then. -/
  written : List (Int × List Entry)
  /-- The signals that `run` has taken, with the functions that it has found. -/
  taken : List (Int × List Entry)
  /-- What has been handed to the workers. -/
  handed : List (Nat × Delivery)
  called : Nat → List Delivery
  /-- The signals whose dispositions have been restored. -/
  restored : List Int
  /-- A call of `stop` has returned, and `run` has not set `running_` since it was cleared. -/
  stopped : Bool
  made : Nat
  freed : Nat

/-- Before `run`, in a process with an active object. -/
def init (process : SignalHandler.State) : State where
  process := process
  keys := []
  pipe := []
  running := false
  loop := .unborn
  handle := false
  stop := fun _ => .idle
  queue := fun _ => []
  destroyed := false
  written := []
  taken := []
  handed := []
  called := fun _ => []
  restored := []
  stopped := false
  made := 0
  freed := 0

def Loop.suspended : Loop → Bool
  | .reading | .completed _ => true
  | .unborn | .test | .lock _ | .handing _ _ | .ended => false

/-- `run` has the lock. -/
def Loop.locked : Loop → Bool
  | .handing _ _ => true
  | .unborn | .test | .reading | .completed _ | .lock _ | .ended => false

/-- The thread that a function is called on; `anyThread` is what `get_any_thread()` returns. -/
def Entry.target (e : Entry) (anyThread : Nat) : Nat :=
  if e.thread = ThreadT.kAnyThread.toNat then anyThread else e.thread

def State.setStop (s : State) (k : Nat) (q : Stop) : State :=
  { s with stop := Function.update s.stop k q }

/-- A byte for the signal `sig`. -/
def State.write (s : State) (a : Addr) (sig : Int) : State :=
  { s with
    pipe := s.pipe ++ [toChar sig], written := s.written ++ [(sig, s.process.handlersOf a sig)] }

/-- `engine::execute` -/
def State.execute (s : State) (thread : Nat) (d : Delivery) : State :=
  { s with
    queue := Function.update s.queue thread (s.queue thread ++ [d])
    handed := s.handed ++ [(thread, d)] }

/-- The call of `run`. -/
def State.run (s : State) (a : Addr) : State :=
  if s.process.isActive a then
    { s with running := true, loop := .test, made := s.made + 1, stopped := false }
  else { s with loop := .ended, made := s.made + 1, freed := s.freed + 1 }

/-- The next step of `run`; `full` says that the submission queue has no room. -/
def State.advance (s : State) (a : Addr) (full : Bool) (anyThread : Nat) : Option State :=
  match s.loop with
  | .unborn | .reading | .ended => none
  | .test =>
      if s.running then
        some { s with loop := if full then .completed none else .reading, handle := true }
      else some { s with loop := .ended, freed := s.freed + 1 }
  | .completed (some byte) => some { s with loop := .lock byte, handle := false }
  -- anything but one byte ends the loop at the next test
  | .completed none => some { s with loop := .test, handle := false, running := false }
  | .lock sig =>
      -- the functions cannot change until they have been handed over
      some { s with
        loop := .handing sig (s.process.handlersOf a sig)
        taken := s.taken ++ [(sig, s.process.handlersOf a sig)] }
  | .handing _ [] => some { s with loop := .test }
  | .handing sig (e :: rest) =>
      some { s.execute (Entry.target e anyThread) (sig, e) with loop := .handing sig rest }

/-- `handle(_sig, _thread, _function)` -/
def State.addHandler (s : State) (a : Addr) (c : Call) : State :=
  { s with
    process := (s.process.handleAt a c).1
    keys := if s.process.isActive a ∧ c.sig ∉ s.keys then s.keys.orderedInsert (· ≤ ·) c.sig
      else s.keys }

/-- The next step of a call of `stop`; `ok` says whether `::signal` succeeds. -/
def State.stopStep (s : State) (capacity : Nat) (a : Addr) (k : Nat) (ok : Bool) : Option State :=
  match s.stop k with
  | .idle =>
      if s.process.isActive a then some { s.setStop k (.restore s.keys) with running := false }
      else some s
  | .restore [] => some (s.setStop k .write)
  | .restore (sig :: rest) =>
      some { s.setStop k (.restore rest) with
        process := (s.process.signal sig .sigDfl ok).1
        restored := if ok then s.restored ++ [sig] else s.restored }
  | .write =>
      if s.pipe.length < capacity then
        -- `run` may have set `running_` since it was cleared
        some { (s.write a sigKill).setStop k .idle with stopped := s.stopped || !s.running }
      else none

/-- `~signal_handler` -/
def State.destroy (s : State) : State :=
  { s with
    destroyed := true, freed := if s.handle then s.freed + 1 else s.freed, handle := false }

inductive Action where
  | run
  | advance (full : Bool) (anyThread : Nat)
  /-- The read of the pipe completes. -/
  | read
  | readFails
  /-- The process gets a signal. -/
  | signal (sig : Int)
  | handle (c : Call)
  | stop (k : Nat) (ok : Bool)
  /-- The worker `t` goes on with its queue. -/
  | call (t : Nat)
  | destroy
  deriving DecidableEq

def step (capacity : Nat) (a : Addr) (s : State) (act : Action) : Option State :=
  if s.destroyed then none
  else
    match act with
    | .run => if s.loop = .unborn then some (s.run a) else none
    | .advance full anyThread => s.advance a full anyThread
    | .read =>
        match s.loop, s.pipe with
        | .reading, byte :: rest => some { s with loop := .completed (some byte), pipe := rest }
        | _, _ => none
    | .readFails => if s.loop = .reading then some { s with loop := .completed none } else none
    | .signal sig =>
        if 1 ≤ sig ∧ sig ≤ 64 ∧ s.process.disposition sig = .trampoline ∧
            s.pipe.length < capacity then some (s.write a sig)
        else none
    | .handle c => if s.loop.locked then none else some (s.addHandler a c)
    | .stop k ok => s.stopStep capacity a k ok
    | .call t =>
        match s.queue t with
        | [] => none
        | d :: rest =>
            some { s with
              queue := Function.update s.queue t rest
              called := Function.update s.called t (s.called t ++ [d]) }
    | .destroy => some s.destroy

/-- No function is added while a call of `stop` goes through the signals, and the object is not
destroyed while `run` or a call of `stop` is under way. -/
def intended (s : State) : Action → Prop
  | .handle _ => ∀ k rest, s.stop k ≠ .restore rest
  | .destroy => (s.loop.suspended = true ∨ s.loop = .unborn ∨ s.loop = .ended) ∧
      ∀ k, s.stop k = .idle
  | _ => True

/-- A process with an object at `a` that is active and has no functions yet. -/
structure Fresh (a : Addr) (process : SignalHandler.State) : Prop where
  active : Active process a
  empty : ∀ sig, process.handlersOf a sig = []
  disposition : ∀ sig, process.disposition sig ≠ .trampoline

def Reachable (capacity : Nat) (a : Addr) : State → Prop :=
  Reaches (step capacity a) intended fun s => ∃ process, Fresh a process ∧ s = init process

end Zab.SignalDelivery
