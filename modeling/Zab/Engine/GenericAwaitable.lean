import Mathlib.Tactic.Common

set_option autoImplicit false

/-! # `generic_awaitable` and `stateful_awaitable`

The awaitables of the library are made from one functor each. A `generic_awaitable` calls it with
a tag that says which part of the await protocol is wanted, and what becomes of a call depends on
the type that the functor returns for that tag. A `stateful_awaitable` is notified of results while
its awaiter stays suspended, and the functor decides after each of them how to go on.

A functor works on a state `σ`: what it has captured, and what its captures refer to.
-/

namespace Zab

/-! ## `generic_awaitable` -/

/-- What a functor is called with: a `tagged_event`, a `ready_tag` or a `resume_tag`. -/
inductive Tag (H : Type) where
  | suspend (handle : H)
  | ready
  | resume
  deriving DecidableEq

/-- The event that is the tag. -/
def Tag.handle {H : Type} : Tag H → Option H
  | .suspend handle => some handle
  | .ready | .resume => none

/-- `is_suspend<T>()`. -/
def Tag.isSuspend {H : Type} (t : Tag H) : Bool := t.handle.isSome

/-- What a call of the functor returns. No functor of the library returns an event to go on
with. -/
inductive Returned where
  | void
  | bool (b : Bool)
  deriving DecidableEq

/-- The functor of a `generic_awaitable` without a result. -/
abbrev GenericAwaitable (σ H : Type) := Tag H → σ → σ × Returned

/-- What a `co_await` does to the coroutine. -/
inductive Awaited where
  | continues
  | suspends
  deriving DecidableEq

namespace GenericAwaitable

variable {σ H : Type}

/-- `await_ready`: a functor that returns nothing for a `ready_tag` is not ready. -/
def awaitReady (f : GenericAwaitable σ H) (s : σ) : σ × Bool :=
  match f .ready s with
  | (s, .bool b) => (s, b)
  | (s, .void) => (s, false)

/-- `await_suspend`: a functor that returns nothing for an event stays suspended, a `bool` says
whether it does. -/
def awaitSuspend (f : GenericAwaitable σ H) (handle : H) (s : σ) : σ × Bool :=
  match f (.suspend handle) s with
  | (s, .bool b) => (s, b)
  | (s, .void) => (s, true)

/-- `co_await`, up to `await_resume` or the suspension. -/
def coAwait (f : GenericAwaitable σ H) (handle : H) (s : σ) : σ × Awaited :=
  match f.awaitReady s with
  | (s, true) => (s, .continues)
  | (s, false) =>
      match f.awaitSuspend handle s with
      | (s, true) => (s, .suspends)
      | (s, false) => (s, .continues)

end GenericAwaitable

/-! ## `stateful_awaitable` -/

/-- `notify_ctl`. -/
inductive NotifyCtl where
  | kSuspend
  | kResume
  | kReady
  deriving DecidableEq

/-- The functor of a `stateful_awaitable` that is notified of values of type `ν` and returns a
value of type `ρ`; what it returns for a suspension is `void`. -/
structure StatefulAwaitable (σ ν ρ : Type) where
  ready : σ → Bool
  suspend : σ → σ
  notify : ν → σ → σ × NotifyCtl
  resume : σ → σ × ρ

/-- An awaiter: the state of the functor, whether it is suspended, and what it was resumed
with. -/
structure Awaiter (σ ρ : Type) where
  state : σ
  suspended : Bool
  returned : List ρ

namespace StatefulAwaitable

variable {σ ν ρ : Type}

/-- `await_suspend()`: the functor starts an operation. -/
def awaitSuspend (f : StatefulAwaitable σ ν ρ) (a : Awaiter σ ρ) : Awaiter σ ρ :=
  { a with state := f.suspend a.state, suspended := true }

/-- `execute_event(underlying_)`: the awaiter goes on with `await_resume`. -/
def execute (f : StatefulAwaitable σ ν ρ) (a : Awaiter σ ρ) : Awaiter σ ρ :=
  { state := (f.resume a.state).1, suspended := false
    returned := a.returned ++ [(f.resume a.state).2] }

/-- The loop of `notify()`; after `kReady` it goes round once more. -/
def proceed (f : StatefulAwaitable σ ν ρ) (a : Awaiter σ ρ) : NotifyCtl → Awaiter σ ρ
  | .kSuspend => f.awaitSuspend a
  | .kResume => f.execute a
  | .kReady => if f.ready a.state then f.execute a else f.awaitSuspend a

/-- `notify()`, when the operation has completed with `result`. -/
def onNotify (f : StatefulAwaitable σ ν ρ) (result : ν) (a : Awaiter σ ρ) : Awaiter σ ρ :=
  f.proceed { a with state := (f.notify result a.state).1 } (f.notify result a.state).2

/-- `co_await`: `await_ready`, and then `await_resume` or `await_suspend`. -/
def coAwait (f : StatefulAwaitable σ ν ρ) (s : σ) : Awaiter σ ρ :=
  f.proceed ⟨s, false, []⟩ .kReady

/-- The awaiter after `n` completions, if completion number `i` comes with `results i`; when it is
no longer suspended there are none. -/
def after (f : StatefulAwaitable σ ν ρ) (s : σ) (results : Nat → ν) : Nat → Awaiter σ ρ
  | 0 => f.coAwait s
  | n + 1 =>
      let a := f.after s results n
      if a.suspended then f.onNotify (results n) a else a

end StatefulAwaitable

end Zab
