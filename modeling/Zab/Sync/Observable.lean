import Zab.Basic.Automaton
import Zab.Basic.Chain
import Zab.Basic.Countdown
import Zab.Engine.StrongTypes

set_option autoImplicit false

/-! # `observable`

An `emit` holds the mutex of the observable while it appends one `pending_result` to the list of
every connected observer and wakes those that wait; it then counts down its latch and waits for
it. A consumer takes the results of its observer from the list, and each of them is counted down
when its guard is destroyed. A disconnection holds the mutex while it counts down the results that
are left in the list.

The mutex of the observable is held for several steps, one for each observer or each result; a
section under the mutex of an observer is one step. Of the latch, `count_down` is its `fetch_sub`
and then, if that takes the counter to zero, a call of `unpause`, and the wait of an `emit` is one
step (`AsyncLatchInv` has the steps inside). An `std::deque` has far fewer than `2 ^ 63` elements,
so the counter of a latch does not wrap around.

An `emit` is numbered by the order in which the mutex was held; its frame holds the results, the
tuple they point to and the latch. The fields `present`, `counted`, `received`, `dropped` and
`returned` of the state record history and are read by no branch.
-/

namespace Zab.Observable

open Automaton

/-- The number of an `emit`. -/
abbrev Emit := Nat

/-- An `internal_observer`, numbered by its connection. -/
abbrev Observer := Nat

/-- The address of a `pending_result`: the one that an `emit` made for an observer. Its `latch_`
and its `items_` are in the frame of that `emit`. -/
structure PendingResult where
  emit : Emit
  observer : Observer
  deriving DecidableEq

/-- Where the consumer of an observer is. -/
inductive Consumer where
  /-- In its own code, between two operations on the observer. -/
  | running
  /-- Suspended in a `co_await` of the observer. -/
  | suspended
  /-- Before `await_resume`: not suspended, or handed to `thread_resume`. -/
  | resuming (thread : ThreadT)
  /-- In `disconnect`, without the mutex. -/
  | disconnecting
  | disconnected
  deriving DecidableEq

/-- Where an `emit` is. -/
inductive Emitter where
  /-- It holds the mutex, or has not held it yet. -/
  | delivering
  /-- Before the `count_down` of `arrive_and_wait`. -/
  | arriving
  /-- In the call of `unpause`, because this `count_down` was the last one. -/
  | unpausing
  /-- Before the `co_await` of the latch. -/
  | arrived
  | suspended
  | returned
  deriving DecidableEq

/-- Who holds the mutex of the observable. -/
inductive Holder where
  | free
  /-- An `emit` that has not reached `rest`. -/
  | emitting (e : Emit) (rest : List Observer)
  /-- The destructor of an observer, at the result `tmp`. -/
  | erasing (o : Observer) (tmp : Option PendingResult)
  deriving DecidableEq

structure State where
  /-- `observers_`. -/
  observers : List Observer
  /-- How many observers were connected. -/
  connected : Nat
  /-- The fields `next_` of all results. -/
  next : PendingResult → Option PendingResult
  /-- The field `result_` of every observer. -/
  result : Observer → Option PendingResult
  /-- The fields `handle_` and `thread_` of every observer. -/
  handle : Observer → Option ThreadT
  consumer : Observer → Consumer
  /-- The guards that exist. -/
  guards : List PendingResult
  holder : Holder
  /-- How many `emit`s have held the mutex. -/
  emits : Nat
  emitter : Emit → Emitter
  /-- The counter of every latch. -/
  count : Emit → Int
  /-- The last `count_down` is before its call of `unpause`. -/
  crossed : Emit → Bool
  /-- The token of every latch is unpaused. -/
  unpaused : Emit → Bool
  /-- The observers that were connected at every `emit`. -/
  present : Emit → List Observer
  /-- Who has counted down every latch: the `emit` itself, or for an observer. -/
  counted : Emit → List (Option Observer)
  /-- What every consumer got from `await_resume`. -/
  received : Observer → List Emit
  /-- What every observer left in its list when it was disconnected. -/
  dropped : Observer → List Emit
  returned : List Emit

def init : State where
  observers := []
  connected := 0
  next := fun _ => none
  result := fun _ => none
  handle := fun _ => none
  consumer := fun _ => .disconnected
  guards := []
  holder := .free
  emits := 0
  emitter := fun _ => .delivering
  count := fun _ => 0
  crossed := fun _ => false
  unpaused := fun _ => false
  present := fun _ => []
  counted := fun _ => []
  received := fun _ => []
  dropped := fun _ => []
  returned := []

/-- `fetch_sub` takes the counter from a positive value to one that is not. -/
def State.crosses (s : State) (e : Emit) : Bool := decide (s.count e > 0 ∧ s.count e ≤ 1)

/-- The `fetch_sub` of `count_down`, by `x`. -/
def State.fetchSub (s : State) (e : Emit) (x : Option Observer) : State :=
  { s with
    count := Function.update s.count e (s.count e - 1)
    counted := Function.update s.counted e (s.counted e ++ [x]) }

/-- The `count_down` for an observer. -/
def State.countDown (s : State) (n : PendingResult) : State :=
  { s.fetchSub n.emit (some n.observer) with
    crossed := if s.crosses n.emit then Function.update s.crossed n.emit true else s.crossed }

/-- The last result of the list that starts at `n`. A list has at most one result of every `emit`,
so the number of `emit`s is enough `fuel`. -/
def lastResult (next : PendingResult → Option PendingResult) :
    Nat → PendingResult → PendingResult
  | 0, n => n
  | fuel + 1, n =>
      match next n with
      | none => n
      | some m => lastResult next fuel m

/-- Append a result to the list of its observer. -/
def State.append (s : State) (n : PendingResult) : State :=
  let s := { s with next := Function.update s.next n none }
  match s.result n.observer with
  | none => { s with result := Function.update s.result n.observer (some n) }
  | some m => { s with next := Function.update s.next (lastResult s.next s.emits m) (some n) }

/-- Wake the consumer of an observer if it waits. -/
def State.wake (s : State) (o : Observer) : State :=
  match s.handle o with
  | none => s
  | some t =>
      { s with
        handle := Function.update s.handle o none
        consumer := Function.update s.consumer o (.resuming t) }

/-- `~internal_observer` counts down the result `n` and goes on to the next one. -/
def State.drop (s : State) (o : Observer) (n : PendingResult) : State :=
  { s.countDown n with
    holder := .erasing o (s.next n)
    dropped := Function.update s.dropped o (s.dropped o ++ [n.emit]) }

/-- An `emit` appends its result for `o`, wakes the consumer, and goes on to `rest`. -/
def State.deliver (s : State) (e : Emit) (o : Observer) (rest : List Observer) : State :=
  { (s.append ⟨e, o⟩).wake o with holder := .emitting e rest }

/-- The next step of the holder of the mutex. -/
def State.hold (s : State) : Option State :=
  match s.holder with
  | .free => none
  | .emitting e (o :: rest) => some (s.deliver e o rest)
  | .emitting e [] =>
      some { s with holder := .free, emitter := Function.update s.emitter e .arriving }
  | .erasing o (some n) => some (s.drop o n)
  | .erasing _ none => some { s with holder := .free }

/-- An `emit` constructs its latch. -/
def State.emitToAll (s : State) : State :=
  { s with
    emits := s.emits + 1
    present := Function.update s.present s.emits s.observers
    count := Function.update s.count s.emits (s.observers.length + 1)
    holder := .emitting s.emits s.observers }

/-- Without observers an `emit` returns at once. -/
def State.emitToNobody (s : State) : State :=
  { s with
    emits := s.emits + 1
    emitter := Function.update s.emitter s.emits .returned
    returned := s.returned ++ [s.emits] }

/-- An `emit` gets the mutex. -/
def State.emit (s : State) : State :=
  if s.observers.length ≠ 0 then s.emitToAll else s.emitToNobody

/-- `connect`. -/
def State.connect (s : State) : State :=
  { s with
    observers := s.observers ++ [s.connected]
    connected := s.connected + 1
    consumer := Function.update s.consumer s.connected .running }

/-- `disconnect` gets the mutex: the observer is erased and its destructor runs. -/
def State.erase (s : State) (o : Observer) : State :=
  { s with
    observers := s.observers.erase o
    result := Function.update s.result o none
    consumer := Function.update s.consumer o .disconnected
    holder := .erasing o (s.result o) }

/-- `await_suspend` of an observer, on thread `t`. -/
def State.awaitSuspend (s : State) (o : Observer) (t : ThreadT) : State :=
  if s.result o = none then
    { s with
      handle := Function.update s.handle o (some t)
      consumer := Function.update s.consumer o .suspended }
  else { s with consumer := Function.update s.consumer o (.resuming t) }

/-- The consumer of an observer takes the result `n` out of the list and gets a guard for it. -/
def State.take (s : State) (o : Observer) (n : PendingResult) : State :=
  { s with
    result := Function.update s.result o (s.next n)
    consumer := Function.update s.consumer o .running
    guards := s.guards ++ [n]
    received := Function.update s.received o (s.received o ++ [n.emit]) }

/-- `await_resume` of an observer; it dereferences `result_`. -/
def State.awaitResume (s : State) (o : Observer) : Option State := (s.result o).map (s.take o)

/-- An `emit` continues after its latch. -/
def State.finish (s : State) (e : Emit) : State :=
  { s with
    emitter := Function.update s.emitter e .returned
    returned := s.returned ++ [e] }

/-- `unpause` of the token of a latch: resume the `emit` if it waits. -/
def State.unpause (s : State) (e : Emit) : State :=
  let s := { s with
    crossed := Function.update s.crossed e false
    unpaused := Function.update s.unpaused e true }
  if s.emitter e = .suspended then s.finish e else s

/-- The next step of an `emit` after it has released the mutex. -/
def State.emitStep (s : State) (e : Emit) : Option State :=
  match s.emitter e with
  | .arriving =>
      some { s.fetchSub e none with
        emitter := Function.update s.emitter e (if s.crosses e then .unpausing else .arrived) }
  | .unpausing =>
      some { s with
        unpaused := Function.update s.unpaused e true
        emitter := Function.update s.emitter e .arrived }
  | .arrived =>
      if s.unpaused e then some (s.finish e)
      else some { s with emitter := Function.update s.emitter e .suspended }
  | _ => none

inductive Action where
  | connect
  | emit
  /-- The next step of the holder of the mutex. -/
  | hold
  /-- The next step of an `emit` after it has released the mutex. -/
  | emitStep (e : Emit)
  /-- The last `count_down` of a latch calls `unpause`. -/
  | unpause (e : Emit)
  | awaitSuspend (o : Observer) (t : ThreadT)
  | awaitResume (o : Observer)
  /-- A guard is destroyed. -/
  | destroyGuard (n : PendingResult)
  /-- `disconnect`, or the destructor of the observer. -/
  | disconnect (o : Observer)
  | erase (o : Observer)
  deriving DecidableEq

/-- Every observer has one consumer, which disconnects it only while it is not awaiting. -/
def step (s : State) : Action → Option State
  | .connect => if s.holder = .free then some s.connect else none
  | .emit => if s.holder = .free then some s.emit else none
  | .hold => s.hold
  | .emitStep e => s.emitStep e
  | .unpause e => if s.crossed e then some (s.unpause e) else none
  | .awaitSuspend o t => if s.consumer o = .running then some (s.awaitSuspend o t) else none
  | .awaitResume o =>
      match s.consumer o with
      | .resuming _ => s.awaitResume o
      | _ => none
  | .destroyGuard n =>
      if n ∈ s.guards then some ({ s with guards := s.guards.erase n }.countDown n) else none
  | .disconnect o =>
      if s.consumer o = .running then
        some { s with consumer := Function.update s.consumer o .disconnecting }
      else none
  | .erase o =>
      if s.holder = .free ∧ s.consumer o = .disconnecting then some (s.erase o) else none

/-- The states of all interleavings of all operations on an observable. -/
def Reachable : State → Prop := Reaches step anyStep (· = init)

/-- The first result that an observer has not received. -/
def State.root (s : State) (o : Observer) : Option PendingResult :=
  match s.holder with
  | .erasing p tmp => if p = o then tmp else s.result o
  | _ => s.result o

/-- What the holder of the mutex has still to deliver to an observer. -/
def State.underway (s : State) (o : Observer) : List Emit :=
  match s.holder with
  | .emitting e rest => if o ∈ rest then [e] else []
  | _ => []

/-- The `emit`s that found an observer connected, in their order. -/
def State.events (s : State) (o : Observer) : List Emit :=
  (List.range s.emits).filter fun e => decide (o ∈ s.present e)

/-- The list of an observer holds exactly the results of `backlog`. -/
def State.Backlog (s : State) (o : Observer) (backlog : List Emit) : Prop :=
  Chain some s.next none (s.root o) (backlog.map fun e => ⟨e, o⟩)

/-- Who has to count down the latch of an `emit`. -/
def parties (present : List Observer) : List (Option Observer) := none :: present.map some

end Zab.Observable
