import Zab.Basic.Automaton
import Zab.Basic.Chain
import Zab.Basic.TaggedWord
import Zab.Engine.StrongTypes

set_option autoImplicit false

/-! # `pause_token`

The token is one atomic word, `resuming`: the flag `kUnpausedFlag`, or the root of a list of
paused coroutines that is threaded through their `pauser` objects (`0` ends it). A coroutine
pauses by pushing its own `pauser`; `unpause` takes the whole list with one exchange and
resumes its members one by one.

Every atomic access is one step, and a weak compare-and-swap may fail without reason (the
`spurious` argument of `Action.advance`). The address of a `pauser` is chosen by the step
that starts a `co_await`, among the addresses that are free at that moment; it becomes free
again as soon as the coroutine is resumed, so addresses are reused.

The fields `exchanges`, `pushed` and `resumed` of the state record history and are read by no
branch. An exchange is named by the number of exchanges before it; a coroutine is suspended
`since n` when `n` exchanges preceded its push, so exchange `n` is the first one after it.
-/

namespace Zab.PauseToken

open Automaton

/-- `pause_token::kUnpausedFlag`. -/
def kUnpausedFlag : Nat := 0b1

/-- `pause_token::pauser`, the awaiter of a token. -/
structure Pauser where
  thread : ThreadT
  nextWaiting : Nat
  handle : Option Coro
  deriving DecidableEq

/-- Where a coroutine is in its operation on the token. -/
inductive Pc where
  | idle
  /-- `await_ready`, before its load. -/
  | awaitReady (p : Addr)
  /-- `pause(pauser*)`, before its load. -/
  | suspendLoad (p : Addr)
  /-- `pause(pauser*)`, at the top of its loop. -/
  | suspendLoop (p : Addr) (previous : Nat)
  /-- `await_suspend` returned true; `since` exchanges preceded the push. -/
  | suspended (p : Addr) (since : Nat)
  /-- `pause()`, before its load. -/
  | pauseLoad
  /-- `pause()`, before its compare-and-swap. -/
  | pauseCas (currentState : Nat)
  /-- `unpause()`, before its exchange. -/
  | unpauseExchange
  /-- `unpause()`, at the top of its loop; this is exchange number `k`. -/
  | unpauseWalk (k : Nat) (oldPause : Nat)
  /-- `unpause()`, before its `thread_resume`. -/
  | unpauseResume (k : Nat) (oldPause tmp : Nat)
  deriving DecidableEq

/-- A call of `thread_resume` by exchange number `exchange`. -/
structure Resumption where
  handle : Option Coro
  thread : ThreadT
  exchange : Nat
  deriving DecidableEq

structure State where
  resuming : Nat
  /-- The `pauser` objects, by address. -/
  mem : Nat → Pauser
  /-- Addresses of the `pauser` objects that exist. -/
  live : Nat → Bool
  pc : Coro → Pc
  exchanges : Nat
  pushed : List (Coro × Nat)
  resumed : List Resumption

/-- The token right after its construction (`resuming_ = 0`). -/
def init : State where
  resuming := 0
  mem := fun _ => ⟨ThreadT.anyThread, 0, none⟩
  live := fun _ => false
  pc := fun _ => .idle
  exchanges := 0
  pushed := []
  resumed := []

/-- `paused()` on a loaded word. -/
def paused (w : Nat) : Bool := !(w &&& kUnpausedFlag != 0)

/-- `c` continues at `q`. -/
def State.goto (s : State) (c : Coro) (q : Pc) : State :=
  { s with pc := Function.update s.pc c q }

/-- The `co_await` of `c` is over: it goes on, and its `pauser` is gone. -/
def State.leave (s : State) (c : Coro) (p : Nat) : State :=
  { s with pc := Function.update s.pc c .idle, live := Function.update s.live p false }

def State.write (s : State) (p : Nat) (n : Pauser) : State :=
  { s with mem := Function.update s.mem p n }

/-- `thread_resume` of the handle in the `pauser` at `oldPause`, by exchange number `k`. -/
def State.threadResume (s : State) (k oldPause : Nat) : State :=
  let n := s.mem oldPause
  let s := { s with resumed := s.resumed ++ [⟨n.handle, n.thread, k⟩] }
  match n.handle with
  | some h => s.leave h oldPause
  | none => s

/-- The next step of the operation that `c` is in. -/
def State.advance (s : State) (c : Coro) (spurious : Bool) : Option State :=
  match s.pc c with
  | .idle => none
  | .suspended _ _ => none
  | .awaitReady p =>
      if paused s.resuming then
        -- `await_suspend` stores the handle and calls `pause(this)`
        some ((s.write p.val { s.mem p.val with handle := some c }).goto c (.suspendLoad p))
      else some (s.leave c p.val)
  | .suspendLoad p => some (s.goto c (.suspendLoop p s.resuming))
  | .suspendLoop p previous =>
      if previous = kUnpausedFlag then some (s.leave c p.val)
      else
        let s := s.write p.val { s.mem p.val with nextWaiting := previous }
        if s.resuming = previous ∧ spurious = false then
          some { s.goto c (.suspended p s.exchanges) with
            resuming := p.val
            pushed := s.pushed ++ [(c, s.exchanges)] }
        else some (s.goto c (.suspendLoop p s.resuming))
  | .pauseLoad =>
      if s.resuming ≠ kUnpausedFlag then some (s.goto c .idle)
      else some (s.goto c (.pauseCas s.resuming))
  | .pauseCas currentState =>
      if s.resuming = currentState ∧ spurious = false then
        some { s.goto c .idle with resuming := 0 }
      else if s.resuming = kUnpausedFlag then some (s.goto c (.pauseCas s.resuming))
      else some (s.goto c .idle)
  | .unpauseExchange =>
      let k := s.exchanges
      let oldValue := s.resuming
      let s := { s with resuming := kUnpausedFlag, exchanges := k + 1 }
      if oldValue = kUnpausedFlag then some (s.goto c .idle)
      else some (s.goto c (.unpauseWalk k oldValue))
  | .unpauseWalk k oldPause =>
      if oldPause = 0 then some (s.goto c .idle)
      else some (s.goto c (.unpauseResume k oldPause (s.mem oldPause).nextWaiting))
  | .unpauseResume k oldPause tmp =>
      some ((s.threadResume k oldPause).goto c (.unpauseWalk k tmp))

inductive Action where
  /-- Start a `co_await` on thread `t`, with the `pauser` at address `p`. -/
  | coAwait (p : Addr) (t : ThreadT)
  | pause
  | unpause
  /-- Take the next step of the operation in progress. -/
  | advance (spurious : Bool)
  deriving DecidableEq

def step (s : State) : Coro × Action → Option State
  | (c, .coAwait p t) =>
      if s.pc c = .idle ∧ s.live p.val = false then
        some { (s.write p.val ⟨t, 0, none⟩).goto c (.awaitReady p) with
          live := Function.update s.live p.val true }
      else none
  | (c, .pause) => if s.pc c = .idle then some (s.goto c .pauseLoad) else none
  | (c, .unpause) => if s.pc c = .idle then some (s.goto c .unpauseExchange) else none
  | (c, .advance spurious) => s.advance c spurious

/-- The states of all interleavings of all operations. -/
def Reachable : State → Prop := Reaches step anyStep (· = init)

end Zab.PauseToken
