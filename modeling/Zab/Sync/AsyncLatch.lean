import Zab.Sync.PauseTokenInv

set_option autoImplicit false

/-! # `async_latch`

A latch is an atomic counter `count_` and a `pause_token` `complete_`. `count_down` subtracts its
amount with one `fetch_sub`, and unpauses the token if this takes the counter from a positive
value to one that is not; `wait` is a `co_await` of the token, and `arrive_and_wait` counts down
first. The token is never paused again.

The latch is a layer over the model of the token: the steps inside `complete_` are the steps of
`PauseToken`. The counter is a `std::ptrdiff_t`, whose atomic subtraction wraps around.

The fields `decrements`, `unpauses`, `returned` and `continued` of the state record history and
are read by no branch.
-/

namespace Zab.AsyncLatch

open Automaton

/-- The value range of a non-negative `std::ptrdiff_t`. -/
abbrev Amount := Fin (2 ^ 63)

/-- The conversion to `std::ptrdiff_t`. -/
def toPtrdiff (z : Int) : Int := Int.bmod z (2 ^ 64)

/-- Where a coroutine is in its operation on the latch. -/
inductive Pc where
  | idle
  /-- `count_down(amount)`, before its `fetch_sub`; `wait` if called by `arrive_and_wait`. -/
  | fetchSub (amount : Amount) (wait : Bool)
  /-- In the call of `complete_.unpause()`. -/
  | unpausing (wait : Bool)
  /-- `arrive_and_wait`, after its `count_down`. -/
  | arrived
  /-- In a `co_await` of `complete_`. -/
  | awaiting
  deriving DecidableEq

structure State where
  count : Int
  complete : PauseToken.State
  pc : Coro → Pc
  /-- The amounts subtracted so far, and by whom. -/
  decrements : List (Coro × Nat)
  /-- The calls of `unpause`: the caller, and the number of decrements before its own. -/
  unpauses : List (Coro × Nat)
  /-- How many calls of `unpause` have returned. -/
  returned : Nat
  /-- Who has continued after a `co_await`. -/
  continued : List Coro

/-- The latch right after its construction. -/
def init (amount : Amount) : State where
  count := amount.val
  complete := PauseToken.init
  pc := fun _ => .idle
  decrements := []
  unpauses := []
  returned := 0
  continued := []

/-- How much has been subtracted. -/
def total (decrements : List (Coro × Nat)) : Nat := (decrements.map Prod.snd).sum

/-- `c` continues at `q`. -/
def State.goto (s : State) (c : Coro) (q : Pc) : State :=
  { s with pc := Function.update s.pc c q }

/-- Where `count_down` returns to. -/
def afterCountDown (wait : Bool) : Pc := if wait then .arrived else .idle

/-- The next step inside `complete_`. -/
def State.inside (s : State) (a : Coro × PauseToken.Action) : Option State :=
  (PauseToken.step s.complete a).map fun t => { s with complete := t }

/-- The next step of the operation that `c` is in. -/
def State.advance (s : State) (c : Coro) (spurious : Bool) : Option State :=
  match s.pc c with
  | .idle => none
  | .arrived => none
  | .fetchSub amount wait =>
      let number := s.count
      let s' := { s with
        count := toPtrdiff (s.count - amount.val)
        decrements := s.decrements ++ [(c, amount.val)] }
      if number > 0 ∧ number ≤ amount.val then
        { s'.goto c (.unpausing wait) with
          unpauses := s.unpauses ++ [(c, s.decrements.length)] }.inside (c, .unpause)
      else some (s'.goto c (afterCountDown wait))
  | .unpausing wait =>
      if s.complete.pc c = .idle then
        some { s.goto c (afterCountDown wait) with returned := s.returned + 1 }
      else s.inside (c, .advance spurious)
  | .awaiting =>
      if s.complete.pc c = .idle then
        some { s.goto c .idle with continued := s.continued ++ [c] }
      else s.inside (c, .advance spurious)

inductive Action where
  | countDown (amount : Amount)
  | arriveAndWait (amount : Amount)
  /-- `wait()`, or the end of `arrive_and_wait`: start the `co_await` of `complete_` on thread
  `t`, with the `pauser` at address `p`. -/
  | wait (p : Addr) (t : ThreadT)
  /-- Take the next step of the operation in progress. -/
  | advance (spurious : Bool)
  deriving DecidableEq

def step (s : State) : Coro × Action → Option State
  | (c, .countDown amount) =>
      if s.pc c = .idle then some (s.goto c (.fetchSub amount false)) else none
  | (c, .arriveAndWait amount) =>
      if s.pc c = .idle then some (s.goto c (.fetchSub amount true)) else none
  | (c, .wait p t) =>
      if s.pc c = .idle ∨ s.pc c = .arrived then
        (s.goto c .awaiting).inside (c, .coAwait p t)
      else none
  | (c, .advance spurious) => s.advance c spurious

/-- The states of all interleavings of all operations on a latch made with `amount`. -/
def Reachable (amount : Amount) : State → Prop := Reaches step anyStep (· = init amount)

/-- **The latch opens once.** -/
structure OpensOnce (amount : Amount) (s : State) : Prop where
  /-- Before the decrements add up to `amount`, nobody has unpaused the token. -/
  closed : total s.decrements < amount.val → s.unpauses = []
  /-- Afterwards exactly one call of `unpause` has been made, by the decrement that completed the
  sum. -/
  crossing : amount.val ≤ total s.decrements → ∃ before c n after,
    s.decrements = before ++ (c, n) :: after ∧ total before < amount.val ∧
      amount.val ≤ total before + n ∧ s.unpauses = [(c, before.length)]
  /-- Nobody continues before the decrements add up to `amount`. -/
  early : total s.decrements < amount.val →
    s.continued = [] ∧ ∀ c, s.pc c = .awaiting → s.complete.pc c ≠ .idle
  /-- When the call of `unpause` has returned, nobody is suspended. -/
  released : s.returned ≠ 0 → ∀ c p n, s.complete.pc c ≠ .suspended p n
  /-- Then everybody who was has been resumed, once. -/
  resumed : s.returned ≠ 0 → s.complete.pushed.Nodup ∧
    (∀ x ∈ s.complete.pushed, s.complete.resumptions x.1 x.2 = 1) ∧
    ∀ r ∈ s.complete.resumed, ∃ c, r.handle = some c ∧ (c, r.exchange) ∈ s.complete.pushed

end Zab.AsyncLatch
