import Zab.Basic.Automaton
import Zab.Basic.Chain
import Zab.Basic.TaggedWord
import Zab.Engine.StrongTypes
import Mathlib.Algebra.Group.Nat.Defs

set_option autoImplicit false

/-! # `async_counting_semaphore`, the general template

`active_count` holds the free permits when it is positive and, negated, the coroutines that
counted themselves down and wait when it is negative. A `release` only adds to
`release_count`; whoever lifts it from `0` starts the coroutine `control`, which serves one
permit per round: it looks for a waiter (`transfer`), adds the permit to `active_count`, wakes
the waiter, and takes the permit off `release_count`. The round that takes the last one is the
last of that `control`.

Every access to the three atomics is one step, and so is every round of the reversing loop in
`transfer`. The list `transfer_` belongs to `control`; reads and writes of it are taken
together with the step they stand next to. `control` starts running inside the `release` that
calls it, and that `release` returns when `control` suspends for the first time or ends. The
two counters are integers: a wrap of `std::ptrdiff_t` takes `2 ^ 63` permits.

`added`, `taken`, `pushed` and `resumed` are read by no branch of the code. They count the
permits that `control` added, the permits taken by a compare-and-swap, and log the pushes and
the calls to `thread_resume`.
-/

namespace Zab.CountingSemaphore

open Automaton

/-- `async_counting_semaphore::waiter`, the awaiter of the semaphore. -/
structure Waiter where
  thread : ThreadT
  nextWaiting : Nat
  handle : Option Coro
  deriving DecidableEq

/-- Where a coroutine is in its operation on the semaphore. -/
inductive Pc where
  | idle
  /-- `try_aquire`, before its load. -/
  | tryLoad
  /-- `try_aquire`, at the test of its loop. -/
  | tryLoop (result : Int)
  /-- `await_suspend`, before its load. -/
  | awaitLoad (w : Addr)
  /-- `await_suspend`, at the test of its loop. -/
  | awaitLoop (w : Addr) (result : Int)
  /-- `await_suspend`, before its `fetch_sub`. -/
  | awaitSub (w : Addr)
  /-- `suspend(waiter*)`, before its load. -/
  | suspendLoad (w : Addr)
  /-- `suspend(waiter*)`, in its loop. -/
  | suspendLoop (w : Addr) (previous : Nat)
  /-- `await_suspend` returned true. -/
  | suspended (w : Addr)
  /-- `release`, before its `fetch_add`. -/
  | release (n : Int) (t : ThreadT)
  /-- `release`, before its call of `control`. -/
  | startControl (t : ThreadT)
  /-- `release`, inside the call of `control` number `k`. -/
  | inControl (k : Nat)
  deriving DecidableEq

/-- Where a `control` coroutine is. `inner` tells the call of `transfer` in the loop
`while (!resume)` from the one at the top of the outer loop. -/
inductive ControlPc where
  | unborn
  /-- `transfer`, at its beginning. -/
  | transfer (inner : Bool)
  /-- `transfer`, before its exchange. -/
  | exchange (inner : Bool)
  /-- `transfer`, before a round of the reversing loop. -/
  | reverse (inner : Bool) (head next : Nat)
  /-- `transfer`, before `transfer_ = head->next_waiting_`. -/
  | take (inner : Bool) (head : Nat)
  /-- Before the `fetch_add` of the branch without a waiter. -/
  | addNone
  /-- Before the `fetch_add` of the branch with a waiter. -/
  | addSome (head : Nat)
  /-- In the loop `while (!resume)`, suspended in its `yield`. -/
  | yieldInner
  /-- Before `thread_resume`. -/
  | resume (head : Nat)
  /-- Before the `fetch_sub` of `release_count_`. -/
  | finish
  /-- Suspended in the `yield` of every 64th round. -/
  | yieldOuter
  | done
  deriving DecidableEq

/-- A `control` coroutine and its locals. -/
structure Control where
  pc : ControlPc
  thread : ThreadT
  count : Nat
  deriving DecidableEq

structure State where
  resuming : Nat
  activeCount : Int
  releaseCount : Int
  transfer : Nat
  /-- The `waiter` objects, by address. -/
  mem : Nat → Waiter
  /-- Addresses of the `waiter` objects that exist. -/
  live : Nat → Bool
  pc : Coro → Pc
  control : Nat → Control
  /-- How many `control` coroutines have been started. -/
  controls : Nat
  added : Nat
  taken : Nat
  pushed : List Coro
  resumed : List (Option Coro × ThreadT)

/-- The semaphore after its construction with `_start` permits. -/
def init (start : Int) : State where
  resuming := 0
  activeCount := start
  releaseCount := 0
  transfer := 0
  mem := fun _ => ⟨ThreadT.anyThread, 0, none⟩
  live := fun _ => false
  pc := fun _ => .idle
  control := fun _ => ⟨.unborn, ThreadT.anyThread, 0⟩
  controls := 0
  added := 0
  taken := 0
  pushed := []
  resumed := []

/-- `c` continues at `q`. -/
def State.goto (s : State) (c : Coro) (q : Pc) : State :=
  { s with pc := Function.update s.pc c q }

/-- `control` number `k` continues at `q`. -/
def State.gotoControl (s : State) (k : Nat) (q : ControlPc) : State :=
  { s with control := Function.update s.control k { s.control k with pc := q } }

def State.write (s : State) (w : Nat) (n : Waiter) : State :=
  { s with mem := Function.update s.mem w n }

/-- The `co_await` of `c` is over. -/
def State.leave (s : State) (c : Coro) (w : Nat) : State :=
  { s.goto c .idle with live := Function.update s.live w false }

/-- `thread_resume` of the handle in the `waiter` at `head`, if there is one. -/
def State.threadResume (s : State) (head : Nat) : State :=
  let n := s.mem head
  match n.handle with
  | some h => { s with resumed := s.resumed ++ [(n.handle, n.thread)] }.leave h head
  | none => s

/-- The next step of the operation that `c` is in. -/
def State.advance (s : State) (c : Coro) (spurious : Bool) : Option State :=
  match s.pc c with
  | .idle => none
  | .suspended _ => none
  | .tryLoad => some (s.goto c (.tryLoop s.activeCount))
  | .tryLoop result =>
      if result > 0 then
        if s.activeCount = result ∧ spurious = false then
          some { s.goto c .idle with activeCount := result - 1, taken := s.taken + 1 }
        else some (s.goto c (.tryLoop s.activeCount))
      else some (s.goto c .idle)
  | .awaitLoad w => some (s.goto c (.awaitLoop w s.activeCount))
  | .awaitLoop w result =>
      if result > 0 then
        if s.activeCount = result ∧ spurious = false then
          some { s.leave c w.val with activeCount := result - 1, taken := s.taken + 1 }
        else some (s.goto c (.awaitLoop w s.activeCount))
      else some (s.goto c (.awaitSub w))
  | .awaitSub w =>
      -- the result of this `fetch_sub` is not looked at
      let s := { s with activeCount := s.activeCount - 1 }
      some ((s.write w.val { s.mem w.val with handle := some c }).goto c (.suspendLoad w))
  | .suspendLoad w => some (s.goto c (.suspendLoop w s.resuming))
  | .suspendLoop w previous =>
      let s := s.write w.val { s.mem w.val with nextWaiting := previous }
      if s.resuming = previous ∧ spurious = false then
        some { s.goto c (.suspended w) with resuming := w.val, pushed := s.pushed ++ [c] }
      else some (s.goto c (.suspendLoop w s.resuming))
  | .release n t =>
      let count := s.releaseCount
      let s := { s with releaseCount := count + n }
      if count = 0 then some (s.goto c (.startControl t)) else some (s.goto c .idle)
  | .startControl t =>
      some { s.goto c (.inControl s.controls) with
        control := Function.update s.control s.controls ⟨.transfer false, t, 0⟩
        controls := s.controls + 1 }
  | .inControl k =>
      match (s.control k).pc with
      | .yieldInner | .yieldOuter | .done => some (s.goto c .idle)
      | _ => none

/-- `transfer` returns `head` to `control` number `k`. -/
def State.found (s : State) (k : Nat) (inner : Bool) (head : Nat) : State :=
  if inner then s.gotoControl k (.resume head) else s.gotoControl k (.addSome head)

/-- `transfer` returns `nullptr` to `control` number `k`. -/
def State.notFound (s : State) (k : Nat) (inner : Bool) : State :=
  if inner then s.gotoControl k .yieldInner else s.gotoControl k .addNone

/-- The next step of `control` number `k`. -/
def State.advanceControl (s : State) (k : Nat) : Option State :=
  match (s.control k).pc with
  | .unborn => none
  | .done => none
  | .transfer inner =>
      let head := s.transfer
      if head = 0 then some (s.gotoControl k (.exchange inner))
      else some ({ s with transfer := (s.mem head).nextWaiting }.found k inner head)
  | .exchange inner =>
      let previous := s.resuming
      let s := { s with resuming := 0 }
      if previous = 0 then some (s.notFound k inner)
      else some (s.gotoControl k (.reverse inner 0 previous))
  | .reverse inner head next =>
      let temp := (s.mem next).nextWaiting
      let s := s.write next { s.mem next with nextWaiting := head }
      if temp ≠ 0 then some (s.gotoControl k (.reverse inner next temp))
      else some (s.gotoControl k (.take inner next))
  | .take inner head =>
      some ({ s with transfer := (s.mem head).nextWaiting }.found k inner head)
  | .addNone =>
      let result := s.activeCount
      let s := { s with activeCount := result + 1, added := s.added + 1 }
      if result < 0 then some (s.gotoControl k .yieldInner) else some (s.gotoControl k .finish)
  | .addSome head =>
      let s := { s with activeCount := s.activeCount + 1, added := s.added + 1 }
      some (s.gotoControl k (.resume head))
  | .yieldInner => some (s.gotoControl k (.transfer true))
  | .resume head => some ((s.threadResume head).gotoControl k .finish)
  | .finish =>
      let waiting := s.releaseCount
      let s := { s with releaseCount := waiting - 1 }
      if waiting = 1 then some (s.gotoControl k .done)
      else
        let count := ((s.control k).count + 1) % 2 ^ 64
        let q := if count &&& 0b1000000 ≠ 0 then .yieldOuter else .transfer false
        some { s with control := Function.update s.control k ⟨q, (s.control k).thread, count⟩ }
  | .yieldOuter => some (s.gotoControl k (.transfer false))

inductive Action where
  | tryAquire (c : Coro)
  /-- Start a `co_await` on thread `t`, with the `waiter` at address `w`. -/
  | coAwait (c : Coro) (w : Addr) (t : ThreadT)
  /-- `release(n)` on thread `t`. -/
  | release (c : Coro) (n : Int) (t : ThreadT)
  /-- Take the next step of the operation in progress. -/
  | advance (c : Coro) (spurious : Bool)
  /-- Take the next step of `control` number `k`. -/
  | control (k : Nat)
  deriving DecidableEq

def step (s : State) : Action → Option State
  | .tryAquire c => if s.pc c = .idle then some (s.goto c .tryLoad) else none
  | .coAwait c w t =>
      if s.pc c = .idle ∧ s.live w.val = false then
        some { (s.write w.val ⟨t, 0, none⟩).goto c (.awaitLoad w) with
          live := Function.update s.live w.val true }
      else none
  | .release c n t => if s.pc c = .idle then some (s.goto c (.release n t)) else none
  | .advance c spurious => s.advance c spurious
  | .control k => s.advanceControl k

/-- Only calls `release(n)` with `n ≥ 1` are made. -/
def positive (_ : State) : Action → Prop
  | .release _ n _ => 1 ≤ n
  | _ => True

instance : ∀ (s : State) (a : Action), Decidable (positive s a)
  | _, .release _ n _ => inferInstanceAs (Decidable (1 ≤ n))
  | _, .tryAquire _ | _, .coAwait _ _ _ | _, .advance _ _ | _, .control _ =>
      inferInstanceAs (Decidable True)

/-- The states of all interleavings of a semaphore with `start` permits. -/
def Reachable (start : Int) : State → Prop := Reaches step positive (· = init start)

end Zab.CountingSemaphore
