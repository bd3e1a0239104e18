import Zab.Basic.Automaton
import Zab.Basic.Chain
import Zab.Basic.TaggedWord
import Zab.Engine.StrongTypes

set_option autoImplicit false

/-! # `async_counting_semaphore<1>`, the binary semaphore behind `async_mutex`

One atomic word, `resuming`, is `0` (free), `kLockFlag` (owned, nobody queued) or the root of
a list of waiting coroutines that `kLockFlag` ends. A second list, `transfer`, is private to
the owner: a release that finds it empty takes the whole first list with one exchange,
reverses it node by node, and hands the semaphore to the coroutine that has waited longest.

Every atomic access is one step, and so is every round of the reversing loop; reads and
writes of `transfer` are made by the owner alone and are taken together with the step they
stand next to. `async_mutex` is this semaphore with other names (`try_lock`, `unlock`, and a
guard whose destructor calls `release`); its awaiter leaves `thread_` at its default.

`owns` records who owns the semaphore: a coroutine becomes an owner when `try_aquire`
succeeds, when `await_suspend` returns false, or when a release gives it to `thread_resume`,
and it stays one until its own release stores `0` or resumes a waiter. `owns`, `pushed` and
`resumed` are read by no branch of the code; `release` is started by an owner only.
-/

namespace Zab.BinarySemaphore

open Automaton

/-- `async_counting_semaphore<1>::kLockFlag`. -/
def kLockFlag : Nat := 0b1

/-- `async_counting_semaphore<1>::waiter`, the awaiter of the semaphore. -/
structure Waiter where
  thread : ThreadT
  nextWaiting : Nat
  handle : Option Coro
  deriving DecidableEq

/-- Where a coroutine is in its operation on the semaphore. -/
inductive Pc where
  | idle
  /-- `try_aquire`, before its compare-and-swap. -/
  | tryAquire
  /-- `await_ready`, before the compare-and-swap of its `try_aquire`. -/
  | awaitReady (w : Addr)
  /-- `suspend(waiter*)`, before its load. -/
  | suspendLoad (w : Addr)
  /-- `suspend(waiter*)`, at the top of its loop. -/
  | suspendLoop (w : Addr) (previous : Nat)
  /-- `await_suspend` returned true. -/
  | suspended (w : Addr)
  /-- `release`, at its beginning. -/
  | releaseStart
  /-- `release`, before its compare-and-swap. -/
  | releaseCas
  /-- `release`, before its exchange. -/
  | releaseExchange
  /-- `release`, before a round of the reversing loop. -/
  | releaseReverse (head next : Nat)
  /-- `release`, before `transfer_ = head->next_waiting_`. -/
  | releaseTransfer (head : Nat)
  /-- `release`, before its `thread_resume`. -/
  | releaseResume (head : Nat)
  deriving DecidableEq

structure State where
  resuming : Nat
  transfer : Nat
  /-- The `waiter` objects, by address. -/
  mem : Nat → Waiter
  /-- Addresses of the `waiter` objects that exist. -/
  live : Nat → Bool
  pc : Coro → Pc
  owns : Coro → Bool
  pushed : List Coro
  resumed : List (Option Coro × ThreadT)

/-- The semaphore after its construction; one that starts locked belongs to its creator. -/
def init (unlocked : Bool) (creator : Coro) : State where
  resuming := if unlocked then 0 else kLockFlag
  transfer := 0
  mem := fun _ => ⟨ThreadT.anyThread, 0, none⟩
  live := fun _ => false
  pc := fun _ => .idle
  owns := fun c => !unlocked && c == creator
  pushed := []
  resumed := []

/-- `c` continues at `q`. -/
def State.goto (s : State) (c : Coro) (q : Pc) : State :=
  { s with pc := Function.update s.pc c q }

def State.write (s : State) (w : Nat) (n : Waiter) : State :=
  { s with mem := Function.update s.mem w n }

def State.setOwner (s : State) (c : Coro) (b : Bool) : State :=
  { s with owns := Function.update s.owns c b }

/-- The `co_await` of `c` is over, with the semaphore in its hands. -/
def State.enter (s : State) (c : Coro) (w : Nat) : State :=
  { (s.goto c .idle).setOwner c true with live := Function.update s.live w false }

/-- `thread_resume` of the handle in the `waiter` at `head`, if there is one. -/
def State.threadResume (s : State) (head : Nat) : State :=
  let n := s.mem head
  match n.handle with
  | some h => { s with resumed := s.resumed ++ [(n.handle, n.thread)] }.enter h head
  | none => s

/-- The next step of the operation that `c` is in. -/
def State.advance (s : State) (c : Coro) (spurious : Bool) : Option State :=
  match s.pc c with
  | .idle => none
  | .suspended _ => none
  | .tryAquire =>
      if s.resuming = 0 then
        some { (s.goto c .idle).setOwner c true with resuming := kLockFlag }
      else some (s.goto c .idle)
  | .awaitReady w =>
      if s.resuming = 0 then some { s.enter c w.val with resuming := kLockFlag }
      else
        -- `await_suspend` stores the handle and calls `suspend(this)`
        some ((s.write w.val { s.mem w.val with handle := some c }).goto c (.suspendLoad w))
  | .suspendLoad w => some (s.goto c (.suspendLoop w s.resuming))
  | .suspendLoop w previous =>
      if previous = 0 then
        if s.resuming = previous ∧ spurious = false then
          some { s.enter c w.val with resuming := kLockFlag }
        else some (s.goto c (.suspendLoop w s.resuming))
      else
        let s := s.write w.val { s.mem w.val with nextWaiting := previous }
        if s.resuming = previous ∧ spurious = false then
          some { s.goto c (.suspended w) with resuming := w.val, pushed := s.pushed ++ [c] }
        else some (s.goto c (.suspendLoop w s.resuming))
  | .releaseStart =>
      let head := s.transfer
      if head = 0 then some (s.goto c .releaseCas)
      else some { s.goto c (.releaseResume head) with transfer := (s.mem head).nextWaiting }
  | .releaseCas =>
      if s.resuming = kLockFlag then
        some { (s.goto c .idle).setOwner c false with resuming := 0 }
      else some (s.goto c .releaseExchange)
  | .releaseExchange =>
      some { s.goto c (.releaseReverse 0 s.resuming) with resuming := kLockFlag }
  | .releaseReverse head next =>
      let temp := (s.mem next).nextWaiting
      let s := s.write next { s.mem next with nextWaiting := head }
      if temp ≠ 0 ∧ temp ≠ kLockFlag then some (s.goto c (.releaseReverse next temp))
      else some (s.goto c (.releaseTransfer next))
  | .releaseTransfer head =>
      some { s.goto c (.releaseResume head) with transfer := (s.mem head).nextWaiting }
  | .releaseResume head => some (((s.setOwner c false).threadResume head).goto c .idle)

inductive Action where
  | tryAquire
  /-- Start a `co_await` on thread `t`, with the `waiter` at address `w`. -/
  | coAwait (w : Addr) (t : ThreadT)
  | release
  /-- Take the next step of the operation in progress. -/
  | advance (spurious : Bool)
  deriving DecidableEq

def step (s : State) : Coro × Action → Option State
  | (c, .tryAquire) => if s.pc c = .idle then some (s.goto c .tryAquire) else none
  | (c, .coAwait w t) =>
      if s.pc c = .idle ∧ s.live w.val = false then
        some { (s.write w.val ⟨t, 0, none⟩).goto c (.awaitReady w) with
          live := Function.update s.live w.val true }
      else none
  | (c, .release) =>
      if s.pc c = .idle ∧ s.owns c = true then some (s.goto c .releaseStart) else none
  | (c, .advance spurious) => s.advance c spurious

/-- The states of all interleavings in which only owners call `release`. -/
def Reachable (unlocked : Bool) (creator : Coro) : State → Prop :=
  Reaches step anyStep (· = init unlocked creator)

end Zab.BinarySemaphore
