import Zab.Basic.Automaton
import Zab.Engine.StrongTypes
import Mathlib.Tactic

set_option autoImplicit false

/-! # `timer_service`

The service keeps a map from marks to the handles that wait for them. A mark is relative to
`current_`, a counter of nanoseconds that only `run()` moves: when a read of the timerfd
returns a number of expirations, `run()` adds that many times the interval that is set at that
moment, resumes every handle whose mark is not above `current_`, and sets the timer to the
distance of the next mark, or disarms it and starts again from `0` when no mark is left. `wait`
adds a mark `current_ + ns`, and restarts the timer with period `ns` if the mark is the first.

The clock is a step of its own, and so are the completion of the timerfd read and the
resumption of `run()`; a call of `wait` and the work of `run()` after its resumption happen on
one thread and are one step each. `settime` restarts a periodic timer from now and clears the
expiration count, a read returns the number of expirations since the last read or settime, and
`gettime` reports the interval that is set. The 64 bit counters wrap.

An entry of the map also records when it was registered and with which delay, and `dispatched`
records the entries resumed with the time of their resumption; no branch of the code reads
these.
-/

namespace Zab.TimerService

open Automaton

/-- `kNanoInSeconds`. -/
def kNanoInSeconds : Nat := 1000000000

/-- A `struct timespec`. -/
structure Timespec where
  tvSec : Nat
  tvNsec : Nat
  deriving DecidableEq

def Timespec.nanos (t : Timespec) : Nat := kNanoInSeconds * t.tvSec + t.tvNsec

/-- The kernel's timer; an interval of zero means that it is disarmed. -/
structure TimerFd where
  interval : Timespec
  /-- The time of the last settime. -/
  setAt : Nat
  /-- Expirations since then that a read has returned. -/
  consumed : Nat
  deriving DecidableEq

/-- A handle in the map, with the thread to resume it in. -/
structure Entry (η : Type) where
  handle : η
  thread : ThreadT
  registered : Nat
  delay : Nat
  deriving DecidableEq

/-- The time at which an entry is due. -/
def Entry.due {η : Type} (e : Entry η) : Nat := e.registered + e.delay

/-- `waiting_`: the marks in increasing order, each with its handles. -/
abbrev Waiting (η : Type) := List (Nat × List (Entry η))

/-- Where `run()` is. -/
inductive RunPc where
  /-- Suspended in the read of the timerfd. -/
  | reading
  /-- The read has completed with this count in `read_buffer_`; `run()` is not resumed yet. -/
  | readDone (readBuffer : Nat)
  deriving DecidableEq

structure State (η : Type) where
  now : Nat
  timer : TimerFd
  current : Nat
  waiting : Waiting η
  run : RunPc
  dispatched : List (Entry η × Nat)

def init (η : Type) : State η where
  now := 0
  timer := ⟨⟨0, 0⟩, 0, 0⟩
  current := 0
  waiting := []
  run := .reading
  dispatched := []

/-- Addition of `std::uint64_t`. -/
def add64 (a b : Nat) : Nat := (a + b) % 2 ^ 64

/-- Subtraction of `std::uint64_t`. -/
def sub64 (a b : Nat) : Nat := (a + (2 ^ 64 - b)) % 2 ^ 64

section

variable {η : Type}

/-- `waiting_.emplace` of a mark that is not there. -/
def emplace (mark : Nat) (es : List (Entry η)) : Waiting η → Waiting η
  | [] => [(mark, es)]
  | m :: w => if mark < m.1 then (mark, es) :: m :: w else m :: emplace mark es w

/-- `it->second.emplace_back` at the mark `mark`. -/
def emplaceBack (mark : Nat) (e : Entry η) (w : Waiting η) : Waiting η :=
  w.map fun m => if m.1 = mark then (m.1, m.2 ++ [e]) else m

/-- `timerfd_settime` with `it_value` and `it_interval` both equal to `value`. -/
def State.settime (s : State η) (value : Timespec) : State η :=
  { s with timer := ⟨value, s.now, 0⟩ }

def State.changeTimer (s : State η) (nanoSeconds : Nat) : State η :=
  s.settime ⟨nanoSeconds / kNanoInSeconds, nanoSeconds % kNanoInSeconds⟩

/-- `wait(_handle, _nano_seconds, _thread)`, called on the thread `currentId`. A handle whose
mark is new is stored with `currentId`, one that joins a mark with `_thread`. -/
def State.wait (s : State η) (handle : η) (nanoSeconds : Nat) (thread currentId : ThreadT) :
    State η :=
  let sleepMark := add64 s.current nanoSeconds
  if s.waiting.all (·.1 ≠ sleepMark) then
    let s := { s with
      waiting := emplace sleepMark [⟨handle, currentId, s.now, nanoSeconds⟩] s.waiting }
    let changeRate := s.waiting.head?.map Prod.fst = some sleepMark
    if changeRate then s.changeTimer nanoSeconds else s
  else { s with waiting := emplaceBack sleepMark ⟨handle, thread, s.now, nanoSeconds⟩ s.waiting }

/-- Expirations that no read has returned. -/
def State.expirations (s : State η) : Nat :=
  (s.now - s.timer.setAt) / s.timer.interval.nanos - s.timer.consumed

/-- `run()`, from its resumption to the next read. -/
def State.runLoop (s : State η) (readBuffer : Nat) : State η :=
  let s := { s with run := .reading }
  if readBuffer ≠ 0 then
    let current := add64 s.current (s.timer.interval.nanos * readBuffer)
    let expired := s.waiting.takeWhile (·.1 ≤ current)
    let s := { s with
      current := current
      waiting := s.waiting.dropWhile (·.1 ≤ current)
      dispatched := s.dispatched ++ (expired.flatMap Prod.snd).map fun e => (e, s.now) }
    match s.waiting with
    | [] => { s with current := 0 }.settime ⟨0, 0⟩
    | m :: _ => s.changeTimer (sub64 m.1 current)
  else s

inductive Action (η : Type) where
  /-- The clock moves on. -/
  | tick (d : Nat)
  | wait (handle : η) (nanoSeconds : Fin (2 ^ 64)) (thread currentId : ThreadT)
  /-- The read of the timerfd completes. -/
  | read
  /-- The event loop resumes `run()`. -/
  | resume
  deriving DecidableEq

def step (s : State η) : Action η → Option (State η)
  | .tick d => some { s with now := s.now + d }
  | .wait handle ns thread currentId => some (s.wait handle ns.val thread currentId)
  | .read =>
      if s.run = .reading ∧ 0 < s.expirations then
        some { s with
          run := .readDone s.expirations
          timer := { s.timer with consumed := s.timer.consumed + s.expirations } }
      else none
  | .resume =>
      match s.run with
      | .reading => none
      | .readDone readBuffer => some (s.runLoop readBuffer)

/-- Every call of `wait` has a positive delay. -/
def positive (_ : State η) : Action η → Prop
  | .wait _ ns _ _ => 1 ≤ ns.val
  | _ => True

instance : ∀ (s : State η) (a : Action η), Decidable (positive s a)
  | _, .wait _ ns _ _ => inferInstanceAs (Decidable (1 ≤ ns.val))
  | _, .tick _ | _, .read | _, .resume => inferInstanceAs (Decidable True)

/-- The states of all runs. -/
def Reachable : State η → Prop := Reaches step positive (· = init η)

/-- The service processes expirations at the instant they happen: the clock does not pass an
expiration before `run()` has read it and dealt with it, and no `wait` comes in between. -/
def prompt (s : State η) : Action η → Prop
  | .tick d => s.run = .reading ∧
      (s.timer.interval.nanos = 0 ∨
        s.now + d ≤ s.timer.setAt + (s.timer.consumed + 1) * s.timer.interval.nanos)
  | .wait _ ns _ _ => s.run = .reading ∧ 1 ≤ ns.val
  | _ => True

/-- No handle has been dispatched before it was due. -/
def NoneEarly (s : State η) : Prop := ∀ d ∈ s.dispatched, d.1.due ≤ d.2

/-- The time of the first expiration that `run()` has not dealt with. -/
def State.nextExpiration (s : State η) : Nat :=
  match s.run with
  | .reading => s.timer.setAt + (s.timer.consumed + 1) * s.timer.interval.nanos
  | .readDone readBuffer =>
      s.timer.setAt + (s.timer.consumed - readBuffer + 1) * s.timer.interval.nanos

/-- If a handle is pending, the timer is armed and expires no later than the handle is due. -/
def NonePushedBack (s : State η) : Prop :=
  ∀ m ∈ s.waiting, ∀ e ∈ m.2, 0 < s.timer.interval.nanos ∧ s.nextExpiration ≤ e.due

end

end Zab.TimerService
