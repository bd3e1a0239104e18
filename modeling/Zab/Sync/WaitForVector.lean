import Zab.Sync.AsyncLatchInv
import Mathlib.Algebra.Order.BigOperators.Group.Finset

set_option autoImplicit false

/-! # `wait_for` over a vector of futures

`wait_for(engine*, vector)` makes a latch for one more than there are futures and starts a detached
coroutine, a waiter, for each of them. A waiter awaits its future, stores the value in its place of
the result vector and counts the latch down; `wait_for` itself arrives at the latch last and waits
for it. Without futures there is no latch.

A future runs inside the call that starts its waiter until it completes or suspends for the first
time. A suspended one completes at any time, on any thread; its waiter goes on from there. The
steps on the latch are those of `AsyncLatch`, so that every access to its atomics is a step.

The fields `value` and `completed` of the state record history and are read by no branch.
-/

namespace Zab.WaitForVector

open Automaton

/-- The number of elements of a vector of handles. -/
abbrev Size := Fin (2 ^ 60)

/-- Where a waiter is. -/
inductive WaiterPc where
  | unborn
  /-- Its future runs inside the loop of `wait_for`. -/
  | inside
  /-- Its future has suspended. -/
  | suspended
  /-- In `latch.count_down()`; `inside` if the loop of `wait_for` waits for that. -/
  | counting (inside : Bool)
  | done
  deriving DecidableEq

/-- Where `wait_for` is. -/
inductive MainPc where
  /-- At the top of its loop. -/
  | start (count : Nat)
  /-- In the call that starts waiter number `count`. -/
  | inside (count : Nat)
  /-- In the `count_down` of `arrive_and_wait`. -/
  | arriving
  /-- In the `co_await` of the latch. -/
  | waiting
  /-- Before `co_return`. -/
  | ret
  | done
  deriving DecidableEq

structure State (α : Type) where
  latch : AsyncLatch.State
  main : MainPc
  waiter : Nat → WaiterPc
  result : List α
  /-- What the futures have completed with. -/
  value : Nat → Option α
  /-- What `wait_for` has completed with, each time. -/
  completed : List (List α)

theorem size_succ_lt (n : Size) : n.val + 1 < 2 ^ 63 := by omega

theorem one_lt : 1 < 2 ^ 63 := by omega

/-- `futures.size() + 1`. -/
def amount (n : Size) : AsyncLatch.Amount := ⟨n.val + 1, size_succ_lt n⟩

/-- What each of the parties counts down by. -/
def one : AsyncLatch.Amount := ⟨1, one_lt⟩

@[simp] theorem one_val : one.val = 1 := rfl

/-- How `wait_for` and its waiters are called on the latch. -/
def self : Coro := 0

def waiterOf (i : Nat) : Coro := i + 1

section

variable {α : Type}

/-- The first run of `wait_for` on `n` futures, up to its loop. -/
def init [Inhabited α] (n : Size) : State α where
  latch := AsyncLatch.init (amount n)
  main := if 0 < n.val then .start 0 else .ret
  waiter := fun _ => .unborn
  result := List.replicate n.val default
  value := fun _ => none
  completed := []

/-- A step on the latch. -/
def State.onLatch (s : State α) (a : Coro × AsyncLatch.Action) : Option (State α) :=
  (AsyncLatch.step s.latch a).map fun latch => { s with latch := latch }

def State.setWaiter (s : State α) (i : Nat) (q : WaiterPc) : State α :=
  { s with waiter := Function.update s.waiter i q }

/-- The next step of `wait_for`. -/
def State.advance (s : State α) (n : Size) (spurious : Bool) : Option (State α) :=
  match s.main with
  | .start count =>
      if count < n.val then some { s.setWaiter count .inside with main := .inside count }
      else { s with main := .arriving }.onLatch (self, .arriveAndWait one)
  | .inside count =>
      match s.waiter count with
      | .inside | .counting true => none
      | _ => some { s with main := .start (count + 1) }
  | .arriving => s.onLatch (self, .advance spurious)
  | .waiting =>
      if s.latch.pc self = .idle then some { s with main := .ret }
      else s.onLatch (self, .advance spurious)
  | .ret => some { s with main := .done, completed := s.completed ++ [s.result] }
  | .done => none

/-- The future of waiter number `i` has completed: `_result = co_await _future`, and then
`latch.count_down()`. -/
def State.complete (s : State α) (i : Nat) (a : α) (inside : Bool) : Option (State α) :=
  { s.setWaiter i (.counting inside) with
    result := s.result.set i a
    value := Function.update s.value i (some a) }.onLatch (waiterOf i, .countDown one)

inductive Action (α : Type) where
  /-- The next step of `wait_for`. -/
  | main (spurious : Bool)
  /-- Its `co_await` of the latch on thread `t`, with the `pauser` at address `p`. -/
  | wait (p : Addr) (t : ThreadT)
  /-- The future of waiter number `i` suspends. -/
  | suspend (i : Nat)
  | complete (i : Nat) (a : α)
  /-- The next step of waiter number `i` on the latch. -/
  | waiter (i : Nat) (spurious : Bool)
  deriving DecidableEq

/-- A weak compare-and-swap of the step fails for no reason. -/
def Action.spurious : Action α → Bool
  | .main spurious | .waiter _ spurious => spurious
  | _ => false

def step (n : Size) (s : State α) : Action α → Option (State α)
  | .main spurious => s.advance n spurious
  | .wait p t =>
      if s.main = .arriving ∧ s.latch.pc self = .arrived then
        { s with main := .waiting }.onLatch (self, .wait p t)
      else none
  | .suspend i => if s.waiter i = .inside then some (s.setWaiter i .suspended) else none
  | .complete i a =>
      match s.waiter i with
      | .inside => s.complete i a true
      | .suspended => s.complete i a false
      | _ => none
  | .waiter i spurious =>
      match s.waiter i with
      | .counting _ =>
          if s.latch.pc (waiterOf i) = .idle then some (s.setWaiter i .done)
          else s.onLatch (waiterOf i, .advance spurious)
      | _ => none

/-- The states of all runs. -/
def Reachable [Inhabited α] (n : Size) : State α → Prop := Reaches (step n) anyStep (· = init n)

/-! ## What is left to do -/

/-- The steps to come of an operation on a token, at most. -/
def tokenWork : PauseToken.Pc → Nat
  | .awaitReady _ => 9
  | .suspendLoad _ => 8
  | .suspendLoop _ previous => if previous = PauseToken.kUnpausedFlag then 3 else 6
  | .suspended _ _ => 2
  | .unpauseExchange => 8
  | .unpauseWalk _ oldPause => if oldPause = 0 then 1 else 5
  | .unpauseResume _ _ tmp => if tmp = 0 then 4 else 6
  | .idle | .pauseLoad | .pauseCas _ => 0

/-- The steps to come of an operation on the latch, at most. -/
def latchWork (s : AsyncLatch.State) (c : Coro) : Nat :=
  tokenWork (s.complete.pc c) + match s.pc c with
    | .fetchSub _ _ => 14
    | .unpausing _ => 4
    | .awaiting => 1
    | .idle | .arrived => 0

def WaiterPc.work : WaiterPc → Nat
  | .unborn => 24
  | .inside => 23
  | .suspended => 22
  | .counting _ => 5
  | .done => 0

def MainPc.work (n : Size) : MainPc → Nat
  | .start count => 2 * (n.val - count) + 60
  | .inside count => 2 * (n.val - count) + 59
  | .arriving => 30
  | .waiting => 15
  | .ret => 2
  | .done => 0

/-- The steps to come of `wait_for` and of each waiter. -/
def State.workOf (s : State α) (n : Size) : Nat → Nat
  | 0 => s.main.work n + latchWork s.latch self
  | i + 1 => (s.waiter i).work + latchWork s.latch (waiterOf i)

/-- A bound on the number of steps to come that do not fail spuriously. -/
def State.work (s : State α) (n : Size) : Nat := ∑ c ∈ Finset.range (n.val + 1), s.workOf n c

/-- **`wait_for` completes once, after all futures.** -/
structure WaitsForAll (n : Size) (s : State α) : Prop where
  once : s.completed.length ≤ 1
  /-- It completes after every future, with a vector of their values. -/
  after : ∀ r ∈ s.completed, r.length = n.val ∧
    ∀ i < n.val, ∃ a, s.value i = some a ∧ r[i]? = some a
  /-- Without futures it does not wait. -/
  empty : n.val = 0 → s.main = .ret ∨ s.main = .done
  /-- Every run ends, up to spurious failures, -/
  ends : ∀ a s', step n s a = some s' → s'.work n ≤ s.work n ∧
    (a.spurious = false → s'.work n < s.work n)
  /-- and not before `wait_for` has completed. -/
  runs : (∀ a, step n s a = none) → s.completed.length = 1

end

end Zab.WaitForVector
