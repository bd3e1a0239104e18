import Zab.Basic.Automaton
import Zab.Basic.Countdown
import Mathlib.Algebra.GroupWithZero.Nat

set_option autoImplicit false

/-! # `wait_for`

`wait_for` starts its waiters in order, each with an event that calls it back, and counts the
callbacks with a counter that has one more count for itself. Whoever takes the counter to zero, the
starter after its loop or a callback, executes the event that was given to the `wait_for`. The
waiters are `simple_future`s or again `wait_for`s, so that the awaited coroutines are the leaves of
a tree.

A thread is the stack of the calls that it is in. The starter is the first one; a coroutine that
suspends is completed by a new thread. A coroutine that completes while it is being started calls
back on the stack of the starter.

A waiter is named by its path in the tree. A `wait_for` of nothing is not an awaitable; nothing
below depends on that. The field `counted` of the state records history and is read by no branch.
-/

namespace Zab.WaitFor

open Automaton

/-- The awaitables: coroutines, and `wait_for` of its waiters. -/
inductive Tree where
  /-- A `simple_future`, and whether its type is `void`. -/
  | future (isVoid : Bool)
  | waitFor (waiters : List Tree)

/-- The indices from a waiter up to the root. -/
abbrev Path := List Nat

/-- The waiters of an awaitable. -/
def Tree.waiters : Tree → List Tree
  | .future _ => []
  | .waitFor waiters => waiters

/-- The awaitable at a path. -/
def Tree.sub (t : Tree) : Path → Option Tree
  | [] => some t
  | i :: p => (t.sub p).bind fun u => u.waiters[i]?

/-- What a `co_await` returns: the value of a coroutine, or the tuple of the results. -/
inductive Result (α : Type) where
  | value (a : α)
  | promiseVoid
  | tuple (results : List (Result α))

mutual

/-- `get_inline_result` of the awaitable at `p`, from the values of the coroutines. -/
def Tree.result {α : Type} (data : Path → α) : Tree → Path → Result α
  | .future true, _ => .promiseVoid
  | .future false, p => .value (data p)
  | .waitFor waiters, p => .tuple (fillInResults data waiters p 0)

/-- `fill_in_results`: one result for each waiter, from number `i` on. -/
def fillInResults {α : Type} (data : Path → α) : List Tree → Path → Nat → List (Result α)
  | [], _, _ => []
  | u :: waiters, p, i => u.result data (i :: p) :: fillInResults data waiters p (i + 1)

end

/-- Where a coroutine is. -/
inductive Future (α : Type) where
  | idle
  | running
  | complete (a : α)
  deriving DecidableEq

/-- `data()` of the promise; before the coroutine returns nothing is there. -/
def Future.data {α : Type} [Inhabited α] : Future α → α
  | .complete a => a
  | _ => default

/-- A call on the stack of a thread. -/
inductive Frame where
  /-- `await_suspend` of the `wait_for` at `p`. -/
  | starting (p : Path)
  /-- `execute_event` with the event that was given to the awaitable at `p`. -/
  | executeEvent (p : Path)
  deriving DecidableEq

/-- Who counts down a `wait_for`: the starter, or the callback of a waiter. -/
abbrev Party := Option Nat

structure State (α : Type) where
  threads : List (List Frame)
  /-- How many waiters of every `wait_for` have been started. -/
  index : Path → Nat
  /-- The `counter_` of every `wait_for`. -/
  counter : Path → Int
  future : Path → Future α
  /-- What the continuation got, each time it was executed. -/
  executed : List (Result α)
  /-- Who has counted down every `wait_for`. -/
  counted : Path → List Party

/-- How many waiters the `wait_for` at `p` has. -/
def Tree.size (t : Tree) (p : Path) : Nat := ((t.sub p).map fun u => u.waiters.length).getD 0

/-- A coroutine awaits the `wait_for` `t`. -/
def init {α : Type} (t : Tree) : State α where
  threads := [[.starting []]]
  index := fun _ => 0
  counter := fun p => t.size p + 1
  future := fun _ => .idle
  executed := []
  counted := fun _ => []

section

variable {α : Type}

/-- Thread `k` continues with the calls `l`. -/
def State.goto (s : State α) (k : Nat) (l : List Frame) : State α :=
  { s with threads := s.threads.set k l }

/-- `inline_co_await` of waiter number `i` of `p`: a coroutine suspends or completes with `sync`. -/
def State.inlineCoAwait (s : State α) (k : Nat) (p : Path) (i : Nat) (u : Tree)
    (sync : Option α) (below : List Frame) : State α :=
  let s := { s with index := Function.update s.index p (i + 1) }
  match u, sync with
  | .waitFor _, _ => s.goto k (.starting (i :: p) :: .starting p :: below)
  | .future _, none =>
      { s.goto k (.starting p :: below) with
        future := Function.update s.future (i :: p) .running }
  | .future _, some a =>
      { s.goto k (.executeEvent (i :: p) :: .starting p :: below) with
        future := Function.update s.future (i :: p) (.complete a) }

/-- `counter_.fetch_sub(1)` of the `wait_for` at `p` by `x`; at zero its event is executed. -/
def State.fetchSub (s : State α) (k : Nat) (p : Path) (x : Party) (below : List Frame) : State α :=
  let number := s.counter p
  let s := { s with
    counter := Function.update s.counter p (number - 1)
    counted := Function.update s.counted p (s.counted p ++ [x]) }
  s.goto k (if number = 1 then .executeEvent p :: below else below)

inductive Action (α : Type) where
  /-- The next step of thread `k`; a coroutine that it starts completes with `sync`, if any. -/
  | run (k : Nat) (sync : Option α)
  /-- A coroutine that was suspended completes, on a thread of its own. -/
  | complete (p : Path) (a : α)
  deriving DecidableEq

def step [Inhabited α] (t : Tree) (s : State α) : Action α → Option (State α)
  | .run k sync =>
      match s.threads[k]? with
      | some (.starting p :: below) =>
          match t.sub (s.index p :: p) with
          | some u => some (s.inlineCoAwait k p (s.index p) u sync below)
          | none => some (s.fetchSub k p none below)
      | some (.executeEvent (i :: p) :: below) => some (s.fetchSub k p (some i) below)
      | some (.executeEvent [] :: below) =>
          some { s.goto k below with
            executed := s.executed ++ [t.result (fun p => (s.future p).data) []] }
      | _ => none
  | .complete p a =>
      match s.future p with
      | .running =>
          some { s with
            future := Function.update s.future p (.complete a)
            threads := s.threads ++ [[.executeEvent p]] }
      | _ => none

/-- The states of all runs. -/
def Reachable [Inhabited α] (t : Tree) : State α → Prop :=
  Reaches (step t) anyStep (· = init t)

end

/-! ## What is left to do -/

mutual

def Tree.depth : Tree → Nat
  | .future _ => 0
  | .waitFor waiters => depths waiters + 1

def depths : List Tree → Nat
  | [] => 0
  | u :: waiters => max u.depth (depths waiters)

end

/-- The paths of length `k`. -/
def Tree.level (t : Tree) : Nat → List Path
  | 0 => [[]]
  | k + 1 => (t.level k).flatMap fun p => (List.range (t.size p)).map fun i => i :: p

/-- All paths. -/
def Tree.paths (t : Tree) : List Path := (List.range (t.depth + 1)).flatMap t.level

section

variable {α : Type}

def Future.isComplete : Future α → Bool
  | .complete _ => true
  | _ => false

/-- The steps to come for the awaitable at `p`: waiters to start, counts, and the completion of a
coroutine. -/
def State.workAt (s : State α) (t : Tree) (p : Path) : Nat :=
  (t.size p - s.index p) + (s.counter p).toNat + (!(s.future p).isComplete).toNat

/-- A bound on the number of steps to come. -/
def State.work (s : State α) (t : Tree) : Nat :=
  (t.paths.map (s.workAt t)).sum + (1 - s.executed.length)

end

end Zab.WaitFor
