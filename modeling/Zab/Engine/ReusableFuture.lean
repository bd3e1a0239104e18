import Zab.Basic.Automaton
import Zab.Engine.StrongTypes
import Mathlib.Data.List.Basic
import Mathlib.Tactic.Common

set_option autoImplicit false

/-! # `reusable_future` and `for_each`

A generator is a coroutine with a `reusable_promise`, and every `co_await` of its
`reusable_future` lets it run to its next value. The promise has a slot for the value, and a state
that tells whether there is one and whether it is the last.

The generator is arbitrary. While it runs it may suspend in awaits of its own, from which it is
resumed by somebody else, at any time; it may yield, with any of the overloads of `yield_value`,
and it may return. One coroutine at a time awaits the future, each time another one if it likes.
What it gets is a reference to the slot, so that it may leave anything there.

The fields `awaits`, `returned`, `resumptions`, `yielded` and `result` of the state record history
and are read by no branch.
-/

namespace Zab.ReusableFuture

open Automaton

variable {V : Type}

/-! ## `reusable_promise` -/

/-- The member `state_`. -/
inductive PromiseState where
  | kEmpty
  | kItem
  | kComplete
  deriving DecidableEq

/-- The operand of `co_yield` and `co_return`, by the overload that takes it. -/
inductive Operand (V : Type) where
  /-- `Args&&...`: the value is constructed in the slot. -/
  | args (v : V)
  /-- `std::optional<T>&&` and `std::optional<T>&`: it is swapped with the slot. -/
  | optional (o : Option V)
  /-- `std::nullopt_t`: the slot is left alone. -/
  | nullopt
  deriving DecidableEq

/-- The optional value that an operand stands for. -/
def Operand.value : Operand V → Option V
  | .args v => some v
  | .optional o => o
  | .nullopt => none

/-- What an operand puts into a slot that holds `data`. -/
def Operand.fill (data : Option V) : Operand V → Option V
  | .args v => some v
  | .optional o => o
  | .nullopt => data

structure Promise (V : Type) where
  underlying : Option Coro
  data : Option V
  state : PromiseState
  deriving DecidableEq

namespace Promise

def init : Promise V := ⟨none, none, .kEmpty⟩

def complete (p : Promise V) : Bool := p.state = .kComplete

def valueReady (p : Promise V) : Bool := p.state ≠ .kEmpty

def setUnderlying (p : Promise V) (under : Coro) : Promise V := { p with underlying := some under }

def prepare (p : Promise V) : Promise V :=
  { p with state := if p.state = .kItem then .kEmpty else p.state, data := none }

/-- `final_suspend`: the handle to go on with is taken out. -/
def finalSuspend (p : Promise V) : Promise V × Option Coro :=
  ({ p with underlying := none }, p.underlying)

/-- `yield_value`, which ends with `final_suspend`. -/
def yieldValue (p : Promise V) (operand : Operand V) : Promise V × Option Coro :=
  { p with state := .kItem, data := operand.fill p.data }.finalSuspend

/-- `return_value`; the coroutine then comes to `final_suspend`. -/
def returnValue (p : Promise V) (operand : Operand V) : Promise V × Option Coro :=
  { p with state := .kComplete, data := operand.fill p.data }.finalSuspend

end Promise

/-! ## The future and its generator -/

/-- Where the generator is. -/
inductive GeneratorPc where
  /-- At `initial_suspend` or in a `co_yield`: its handle may be resumed. -/
  | suspended
  | running
  /-- In an await of its own. -/
  | waiting
  | final
  deriving DecidableEq

structure State (V : Type) where
  promise : Promise V
  generator : GeneratorPc
  /-- The coroutine that is suspended in a `co_await` of the future. -/
  awaiting : Option Coro
  /-- Who has begun a `co_await`. -/
  awaits : List Coro
  /-- Who has been given what by its `co_await`. -/
  returned : List (Coro × Option V)
  /-- How often a `co_await` has resumed the generator. -/
  resumptions : Nat
  /-- What the generator has yielded. -/
  yielded : List (Option V)
  /-- What it has returned. -/
  result : Option (Option V)

def init : State V := ⟨Promise.init, .suspended, none, [], [], 0, [], none⟩

/-- `complete()`. -/
def State.complete (s : State V) : Bool := s.promise.complete

/-- `await_resume` of `c`: it is given what is in the slot. -/
def State.awaitResume (s : State V) (c : Coro) : State V :=
  { s with
    awaiting := s.awaiting.filter (· ≠ c)
    returned := s.returned ++ [(c, s.promise.data)] }

/-- `final_suspension` passes control on. -/
def State.transfer (s : State V) (p : Promise V × Option Coro) : State V :=
  match p.2 with
  | some next => { s with promise := p.1 }.awaitResume next
  | none => { s with promise := p.1 }

/-- `co_await` by `c`; a handle can be resumed only if the generator is suspended. -/
def State.coAwait (s : State V) (c : Coro) : Option (State V) :=
  let s := { s with promise := s.promise.prepare, awaits := s.awaits ++ [c] }
  if s.promise.valueReady then some (s.awaitResume c)
  else if s.generator = .suspended then
    some { s with
      promise := s.promise.setUnderlying c
      generator := .running
      awaiting := some c
      resumptions := s.resumptions + 1 }
  else none

inductive Action (V : Type) where
  | coAwait (c : Coro)
  /-- Whoever has been given the value leaves `data` in the slot. -/
  | consume (data : Option V)
  /-- The generator suspends in an await of its own. -/
  | suspend
  /-- It is resumed from there. -/
  | wake
  | yield (operand : Operand V)
  | ret (operand : Operand V)
  deriving DecidableEq

def step (s : State V) : Action V → Option (State V)
  | .coAwait c => if s.awaiting = none then s.coAwait c else none
  | .consume data =>
      if s.awaiting = none then some { s with promise := { s.promise with data := data } } else none
  | .suspend => if s.generator = .running then some { s with generator := .waiting } else none
  | .wake => if s.generator = .waiting then some { s with generator := .running } else none
  | .yield operand =>
      if s.generator = .running then
        some ({ s with
          generator := .suspended
          yielded := s.yielded ++ [operand.value] }.transfer (s.promise.yieldValue operand))
      else none
  | .ret operand =>
      if s.generator = .running then
        some ({ s with
          generator := .final
          result := some operand.value }.transfer (s.promise.returnValue operand))
      else none

/-- The states of all runs of all generators. -/
def Reachable : State V → Prop := Reaches step anyStep (· = init)

/-- What the generator has produced, in order. -/
def State.produced (s : State V) : List (Option V) := s.yielded ++ s.result.toList

/-! ## `for_each` -/

/-- `for_ctl`. -/
inductive ForCtl where
  | kBreak
  | kContinue
  deriving DecidableEq

inductive LoopPc where
  /-- At the test of the loop. -/
  | test
  | awaiting
  | done
  deriving DecidableEq

/-- The coroutine `for_each` on a future that nobody has awaited. -/
structure Loop (V : Type) where
  base : State V
  pc : LoopPc
  /-- The calls of the functor, and what they returned. -/
  calls : List (Option V × ForCtl)

def Loop.init : Loop V := ⟨ReusableFuture.init, .test, []⟩

/-- The handle of the coroutine. -/
def Loop.self : Coro := 0

/-- The next step of the loop. The functor, if it is called, is given the slot; it leaves `left`
there and returns `ctl`. One that returns nothing lets the loop go on. -/
def Loop.advance (l : Loop V) (ctl : ForCtl) (left : Option V) : Option (Loop V) :=
  match l.pc with
  | .test =>
      if l.base.complete then some { l with pc := .done }
      else (ReusableFuture.step l.base (.coAwait Loop.self)).map fun base =>
        { l with base := base, pc := .awaiting }
  | .awaiting =>
      (ReusableFuture.step l.base (.consume left)).map fun base =>
        { base := base
          pc := if ctl = .kBreak then .done else .test
          calls := l.calls ++ [(l.base.promise.data, ctl)] }
  | .done => none

inductive LoopAction (V : Type) where
  | advance (ctl : ForCtl) (left : Option V)
  /-- A step of the generator. -/
  | generator (a : Action V)
  deriving DecidableEq

def Loop.step (l : Loop V) : LoopAction V → Option (Loop V)
  | .advance ctl left => l.advance ctl left
  | .generator (.coAwait _) | .generator (.consume _) => none
  | .generator a => (ReusableFuture.step l.base a).map fun base => { l with base := base }

/-- The states of all runs of the loop. -/
def Loop.Reachable : Loop V → Prop := Reaches Loop.step anyStep (· = Loop.init)

/-! ## What is replayed -/

/-- **The future replays its generator.** -/
structure Replays (s : State V) : Prop where
  /-- Awaits are given the yielded values in order, then what is returned, then nothing. -/
  values : ∃ late, s.returned.map Prod.snd = s.produced ++ List.replicate late none
  /-- Everybody who began a `co_await` is given its result, once, and nobody else is; the last one
  may still be suspended. -/
  awaiters : s.awaits = s.returned.map Prod.fst ++ s.awaiting.toList
  /-- The future is complete from the return on. -/
  complete : s.complete = true ↔ s.result ≠ none
  /-- Only the awaits up to that of the returned value have resumed the generator. -/
  resumptions : s.resumptions = s.produced.length + s.awaiting.toList.length
  /-- A suspended awaiter is resumed by the next value. -/
  answered : ∀ c, s.awaiting = some c → ∀ operand a s', a = .yield operand ∨ a = .ret operand →
    step s a = some s' → s'.awaiting = none ∧ s'.returned = s.returned ++ [(c, operand.value)]
  /-- It waits for the generator alone. -/
  goesOn : ∀ c, s.awaiting = some c → s.generator = .running ∨ s.generator = .waiting
  /-- The future can be awaited whenever nobody does. -/
  ready : s.awaiting = none → ∀ c, ∃ s', step s (.coAwait c) = some s'

/-- **The functor is called on what the generator produces.** -/
structure CallsInOrder (l : Loop V) : Prop where
  /-- On every value, once and in order; the last one may not have been handed over yet. -/
  values : ∃ rest, l.base.produced = l.calls.map Prod.fst ++ rest ∧
    rest.length ≤ 1 ∧ (l.pc ≠ .awaiting → rest = [])
  /-- Up to the first value for which it returns `kBreak`, -/
  continued : ∀ c ∈ l.calls.dropLast, c.2 = .kContinue
  /-- or to the returned one; then the loop is done, -/
  ended : l.pc = .done → (∃ v, l.calls.getLast? = some (v, .kBreak)) ∨ l.base.result ≠ none
  /-- and otherwise it goes on. -/
  goesOn : l.pc ≠ .done → ∀ c ∈ l.calls, c.2 = .kContinue
  /-- When it is done nothing more happens. -/
  atEnd : l.pc = .done → ∀ a, Loop.step l a = none
  /-- It waits for the generator alone. -/
  ready : l.pc = .test ∨ l.pc = .awaiting ∧ l.base.awaiting = none → ∀ ctl left,
    ∃ l', Loop.step l (.advance ctl left) = some l'

/-! ## The invariant -/

/-- While somebody waits the generator is at work, and otherwise it is not. -/
structure Inv (s : State V) : Prop where
  underlying : s.promise.underlying = s.awaiting
  working : s.awaiting ≠ none ↔ s.generator = .running ∨ s.generator = .waiting
  final : s.generator = .final ↔ s.result ≠ none
  complete : s.promise.state = .kComplete ↔ s.result ≠ none
  /-- The slot is prepared for the value that is waited for. -/
  prepared : s.awaiting ≠ none → s.promise.state = .kEmpty ∧ s.promise.data = none
  values : ∃ late, s.returned.map Prod.snd = s.produced ++ List.replicate late none ∧
    (s.result = none → late = 0)
  awaiters : s.awaits = s.returned.map Prod.fst ++ s.awaiting.toList
  resumptions : s.resumptions = s.produced.length + s.awaiting.toList.length

section

variable {s s' : State V} {c : Coro} {operand : Operand V} {data : Option V}

theorem inv_init : Inv (init : State V) := by
  refine ⟨rfl, ?_, ?_, ?_, fun h => absurd rfl h, ⟨0, rfl, fun _ => rfl⟩, rfl, rfl⟩
  all_goals simp [init, Promise.init]

/-- An operand puts its value into a slot that is prepared. -/
theorem Operand.fill_none (operand : Operand V) : operand.fill none = operand.value := by
  cases operand <;> rfl

/-- The generator is at work only before it has returned. -/
theorem Inv.result_of_running (h : Inv s) (hrun : s.generator = .running) : s.result = none := by
  by_contra hne
  have hfinal := h.final.mpr hne
  rw [hrun] at hfinal
  cases hfinal

theorem Inv.awaiting_of_running (h : Inv s) (hrun : s.generator = .running) :
    ∃ c, s.awaiting = some c :=
  Option.ne_none_iff_exists'.mp (h.working.mpr (Or.inl hrun))

/-- A `co_await` of a future that is not complete resumes the generator. -/
theorem Inv.coAwait_eq (h : Inv s) (hfree : s.awaiting = none) (hres : s.result = none)
    (c : Coro) : step s (.coAwait c) = some { s with
      promise := ⟨some c, none, .kEmpty⟩
      generator := .running
      awaiting := some c
      awaits := s.awaits ++ [c]
      resumptions := s.resumptions + 1 } := by
  have hstate : s.promise.state ≠ .kComplete := fun hc => h.complete.mp hc hres
  have hgen : s.generator = .suspended := by
    cases hg : s.generator with
    | suspended => rfl
    | running | waiting => exact absurd hfree (h.working.mpr (by simp [hg]))
    | final => exact absurd hres (h.final.mp hg)
  have hempty : s.promise.prepare.state = .kEmpty := by
    cases hs : s.promise.state with
    | kComplete => exact absurd hs hstate
    | kItem | kEmpty => simp [Promise.prepare, hs]
  have hprepare : s.promise.prepare.setUnderlying c = ⟨some c, none, .kEmpty⟩ := by
    rw [← hempty]
    rfl
  simp only [step, if_pos hfree, State.coAwait, Promise.valueReady, hempty, ne_eq, not_true,
    decide_false, Bool.false_eq_true, if_false, if_pos hgen, hprepare]

/-- A `co_await` of a complete future is given nothing, and does not resume the generator. -/
theorem Inv.coAwait_complete (h : Inv s) (hfree : s.awaiting = none) (hres : s.result ≠ none)
    (c : Coro) : step s (.coAwait c) = some { s with
      promise := { s.promise with data := none }
      awaits := s.awaits ++ [c]
      returned := s.returned ++ [(c, none)] } := by
  have hstate := h.complete.mpr hres
  have hprepare : s.promise.prepare = { s.promise with data := none } := by
    simp [Promise.prepare, hstate]
  simp only [step, if_pos hfree, State.coAwait, Promise.valueReady, hprepare, hstate]
  simp [State.awaitResume, hfree]

/-- What is produced is given to the awaiter. -/
theorem Inv.transfer_eq (h : Inv s) (hc : s.awaiting = some c) {state : PromiseState}
    {t : State V} (hawait : t.awaiting = s.awaiting) :
    t.transfer ({ s.promise with state := state, data := operand.fill s.promise.data }.finalSuspend)
      = { t with
        promise := ⟨none, operand.value, state⟩
        awaiting := none
        returned := t.returned ++ [(c, operand.value)] } := by
  have hdata : s.promise.data = none := (h.prepared (by simp [hc])).2
  have hunder : s.promise.underlying = some c := h.underlying.trans hc
  simp [State.transfer, Promise.finalSuspend, hunder, State.awaitResume, hawait, hc, hdata,
    Operand.fill_none]

theorem Inv.yield_eq (h : Inv s) (hrun : s.generator = .running) (hc : s.awaiting = some c)
    (operand : Operand V) : step s (.yield operand) = some { s with
      promise := ⟨none, operand.value, .kItem⟩
      generator := .suspended
      awaiting := none
      returned := s.returned ++ [(c, operand.value)]
      yielded := s.yielded ++ [operand.value] } := by
  simp only [step, if_pos hrun, Promise.yieldValue]
  rw [h.transfer_eq hc]
  rfl

theorem Inv.ret_eq (h : Inv s) (hrun : s.generator = .running) (hc : s.awaiting = some c)
    (operand : Operand V) : step s (.ret operand) = some { s with
      promise := ⟨none, operand.value, .kComplete⟩
      generator := .final
      awaiting := none
      returned := s.returned ++ [(c, operand.value)]
      result := some operand.value } := by
  simp only [step, if_pos hrun, Promise.returnValue]
  rw [h.transfer_eq hc]
  rfl

/-- What has been given so far is what was produced, when the generator goes on. -/
theorem Inv.values_of_none (h : Inv s) (hres : s.result = none) :
    s.returned.map Prod.snd = s.yielded := by
  obtain ⟨late, hvalues, hlate⟩ := h.values
  rw [hvalues, hlate hres]
  simp [State.produced, hres]

theorem Inv.awaiters_eq (h : Inv s) (hc : s.awaiting = some c) (v : Option V) :
    s.awaits = (s.returned ++ [(c, v)]).map Prod.fst := by
  rw [h.awaiters, hc]
  simp

theorem Inv.coAwait (h : Inv s) (hs : step s (.coAwait c) = some s') : Inv s' := by
  have hfree : s.awaiting = none := by
    by_contra hne
    simp [step, hne] at hs
  by_cases hres : s.result = none
  · rw [h.coAwait_eq hfree hres c] at hs
    obtain rfl := Option.some.inj hs
    refine ⟨rfl, by simp, ?_, ?_, fun _ => ⟨rfl, rfl⟩, h.values, ?_, ?_⟩
    · simp [hres]
    · simp [hres]
    · simp [h.awaiters, hfree]
    · have := h.resumptions
      rw [hfree] at this
      exact congrArg (· + 1) this
  · rw [h.coAwait_complete hfree hres c] at hs
    obtain rfl := Option.some.inj hs
    refine ⟨h.underlying, h.working, h.final, h.complete, fun hne => absurd hfree hne, ?_, ?_,
      h.resumptions⟩
    · obtain ⟨late, hvalues, -⟩ := h.values
      refine ⟨late + 1, ?_, fun hnone => absurd hnone hres⟩
      rw [List.map_append, hvalues, List.replicate_succ', ← List.append_assoc]
      rfl
    · simp [h.awaiters, hfree]

theorem Inv.yield (h : Inv s) (hs : step s (.yield operand) = some s') : Inv s' := by
  have hrun : s.generator = .running := by
    by_contra hne
    simp [step, hne] at hs
  obtain ⟨c, hc⟩ := h.awaiting_of_running hrun
  have hres := h.result_of_running hrun
  rw [h.yield_eq hrun hc operand] at hs
  obtain rfl := Option.some.inj hs
  refine ⟨rfl, by simp, ?_, ?_, fun hne => absurd rfl hne, ⟨0, ?_, fun _ => rfl⟩, ?_, ?_⟩
  · simp [hres]
  · simp [hres]
  · simp [State.produced, hres, h.values_of_none hres]
  · simpa using h.awaiters_eq hc operand.value
  · simp [h.resumptions, State.produced, hres, hc]

theorem Inv.ret (h : Inv s) (hs : step s (.ret operand) = some s') : Inv s' := by
  have hrun : s.generator = .running := by
    by_contra hne
    simp [step, hne] at hs
  obtain ⟨c, hc⟩ := h.awaiting_of_running hrun
  have hres := h.result_of_running hrun
  rw [h.ret_eq hrun hc operand] at hs
  obtain rfl := Option.some.inj hs
  refine ⟨rfl, by simp, by simp, by simp, fun hne => absurd rfl hne,
    ⟨0, ?_, fun hnone => by cases hnone⟩, ?_, ?_⟩
  · simp [State.produced, h.values_of_none hres]
  · simpa using h.awaiters_eq hc operand.value
  · simp [h.resumptions, State.produced, hres, hc]

theorem Inv.step {a : Action V} (h : Inv s) (hs : step s a = some s') : Inv s' := by
  cases a with
  | coAwait c => exact h.coAwait hs
  | yield operand => exact h.yield hs
  | ret operand => exact h.ret hs
  | consume data =>
      simp only [ReusableFuture.step] at hs
      split at hs
      · rename_i hfree
        obtain rfl := Option.some.inj hs
        exact { h with prepared := fun hne => absurd hfree hne }
      · cases hs
  | suspend | wake =>
      simp only [ReusableFuture.step] at hs
      split at hs
      · rename_i hg
        obtain rfl := Option.some.inj hs
        refine { h with working := ?_, final := ?_ }
        · simpa [hg] using h.working
        · simpa [hg] using h.final
      · cases hs

theorem Reachable.inv (h : Reachable s) : Inv s := by
  refine Reaches.invariant (I := Inv) h ?_ ?_
  · rintro s rfl
    exact inv_init
  · rintro s a s' - hi - hs
    exact hi.step hs

theorem Inv.complete_iff (h : Inv s) : s.complete = true ↔ s.result ≠ none := by
  rw [← h.complete]
  simp [State.complete, Promise.complete]

/-- The future can be awaited whenever nobody does. -/
theorem Inv.ready (h : Inv s) (hfree : s.awaiting = none) (c : Coro) :
    ∃ s', ReusableFuture.step s (.coAwait c) = some s' := by
  by_cases hres : s.result = none
  · exact ⟨_, h.coAwait_eq hfree hres c⟩
  · exact ⟨_, h.coAwait_complete hfree hres c⟩

theorem Inv.replays (h : Inv s) : Replays s := by
  obtain ⟨late, hvalues, -⟩ := h.values
  refine ⟨⟨late, hvalues⟩, h.awaiters, h.complete_iff, h.resumptions, ?_, ?_, h.ready⟩
  · intro c hc operand a s' ha hs
    have hrun : s.generator = .running := by
      by_contra hne
      rcases ha with rfl | rfl <;> simp [ReusableFuture.step, hne] at hs
    rcases ha with rfl | rfl
    · rw [h.yield_eq hrun hc operand] at hs
      obtain rfl := Option.some.inj hs
      exact ⟨rfl, rfl⟩
    · rw [h.ret_eq hrun hc operand] at hs
      obtain rfl := Option.some.inj hs
      exact ⟨rfl, rfl⟩
  · intro c hc
    exact h.working.mp (by simp [hc])

end

/-! ## The loop -/

/-- The loop and its future: `rest` is what has been produced and not handed to the functor. -/
structure Loop.Inv (l : Loop V) : Prop where
  base : ReusableFuture.Inv l.base
  free : l.pc ≠ .awaiting → l.base.awaiting = none
  /-- The functor is behind by the value in the slot. -/
  values : l.base.produced = l.calls.map Prod.fst ++
    if l.pc = .awaiting ∧ l.base.awaiting = none then [l.base.promise.data] else []
  continued : ∀ c ∈ l.calls.dropLast, c.2 = .kContinue
  ended : l.pc = .done → (∃ v, l.calls.getLast? = some (v, .kBreak)) ∨ l.base.result ≠ none
  goesOn : l.pc ≠ .done → ∀ c ∈ l.calls, c.2 = .kContinue

section

variable {l l' : Loop V}

theorem Loop.inv_init : Loop.Inv (Loop.init : Loop V) := by
  refine ⟨ReusableFuture.inv_init, fun _ => rfl, rfl, ?_, ?_, ?_⟩
  all_goals simp [Loop.init]

theorem Loop.Inv.advance (h : l.Inv) {ctl : ForCtl} {left : Option V}
    (hs : l.advance ctl left = some l') : l'.Inv := by
  cases hpc : l.pc with
  | done => simp [Loop.advance, hpc] at hs
  | test =>
      have hfree : l.base.awaiting = none := h.free (by simp [hpc])
      simp only [Loop.advance, hpc] at hs
      split at hs
      · rename_i hcomplete
        obtain rfl := Option.some.inj hs
        have hres := h.base.complete_iff.mp hcomplete
        refine ⟨h.base, fun _ => hfree, ?_, h.continued, fun _ => Or.inr hres, ?_⟩
        · simpa [hpc] using h.values
        · exact fun hne => absurd rfl hne
      · rename_i hcomplete
        obtain ⟨base, hbase, rfl⟩ := Option.map_eq_some_iff.mp hs
        have hres : l.base.result = none := by
          by_contra hne
          exact hcomplete (h.base.complete_iff.mpr hne)
        refine ⟨h.base.step hbase, fun hne => absurd rfl hne, ?_, h.continued,
          fun hdone => (by cases hdone), fun _ => h.goesOn (by simp [hpc])⟩
        rw [h.base.coAwait_eq hfree hres] at hbase
        obtain rfl := Option.some.inj hbase
        simpa [hpc, State.produced] using h.values
  | awaiting =>
      simp only [Loop.advance, hpc] at hs
      obtain ⟨base, hbase, rfl⟩ := Option.map_eq_some_iff.mp hs
      have hi := h.base.step hbase
      have hfree : l.base.awaiting = none := by
        by_contra hne
        simp [ReusableFuture.step, hne] at hbase
      simp only [ReusableFuture.step, if_pos hfree] at hbase
      obtain rfl := Option.some.inj hbase
      have hvalues : l.base.produced = l.calls.map Prod.fst ++ [l.base.promise.data] := by
        simpa [hpc, hfree] using h.values
      have hcalls := h.goesOn (by simp [hpc])
      refine ⟨hi, fun _ => hfree, ?_, ?_, ?_, ?_⟩
      · have hne : (if ctl = .kBreak then LoopPc.done else .test) ≠ .awaiting := by
          split <;> simp
        simpa [hne, State.produced] using hvalues
      · simpa using hcalls
      · intro hdone
        left
        have hbreak : ctl = .kBreak := by
          by_contra hne
          simp [hne] at hdone
        exact ⟨l.base.promise.data, by simp [hbreak]⟩
      · intro hne c hc
        rcases List.mem_append.mp hc with hc | hc
        · exact hcalls c hc
        · obtain rfl := List.mem_singleton.mp hc
          cases ctl with
          | kContinue => rfl
          | kBreak => exact absurd rfl hne

/-- The generator produces a value: the loop was waiting for it. -/
theorem Loop.Inv.produce (h : l.Inv) {base : State V} {v : Option V}
    (hbase : ReusableFuture.Inv base) (hwait : l.base.awaiting ≠ none)
    (hprod : base.produced = l.base.produced ++ [v]) (hdata : base.promise.data = v)
    (hfree : base.awaiting = none) : Loop.Inv { l with base := base } := by
  have hpc : l.pc = .awaiting := by
    by_contra hne
    exact hwait (h.free hne)
  refine ⟨hbase, fun _ => hfree, ?_, h.continued, fun hdone => ?_, h.goesOn⟩
  · have hvalues : l.base.produced = l.calls.map Prod.fst := by simpa [hwait] using h.values
    show base.produced = _
    rw [hprod, hvalues, if_pos ⟨hpc, hfree⟩, hdata]
  · have hdone : l.pc = .done := hdone
    rw [hpc] at hdone
    cases hdone

/-- The generator suspends or is resumed. -/
theorem Loop.Inv.pause (h : l.Inv) {g : GeneratorPc}
    (hbase : ReusableFuture.Inv { l.base with generator := g }) :
    Loop.Inv { l with base := { l.base with generator := g } } :=
  ⟨hbase, h.free, h.values, h.continued, h.ended, h.goesOn⟩

theorem Loop.Inv.step {a : LoopAction V} (h : l.Inv) (hs : Loop.step l a = some l') : l'.Inv := by
  cases a with
  | advance ctl left => exact h.advance hs
  | generator a =>
      cases a with
      | coAwait c => cases hs
      | consume data => cases hs
      | suspend | wake =>
          obtain ⟨base, hbase, rfl⟩ := Option.map_eq_some_iff.mp hs
          have hi := h.base.step hbase
          simp only [ReusableFuture.step] at hbase
          split at hbase
          · obtain rfl := Option.some.inj hbase
            exact h.pause hi
          · cases hbase
      | yield operand =>
          obtain ⟨base, hbase, rfl⟩ := Option.map_eq_some_iff.mp hs
          have hi := h.base.step hbase
          have hrun : l.base.generator = .running := by
            by_contra hne
            simp [ReusableFuture.step, hne] at hbase
          obtain ⟨c, hc⟩ := h.base.awaiting_of_running hrun
          have hres := h.base.result_of_running hrun
          rw [h.base.yield_eq hrun hc operand] at hbase
          obtain rfl := Option.some.inj hbase
          refine h.produce (v := operand.value) hi (by simp [hc]) ?_ rfl rfl
          simp [State.produced, hres]
      | ret operand =>
          obtain ⟨base, hbase, rfl⟩ := Option.map_eq_some_iff.mp hs
          have hi := h.base.step hbase
          have hrun : l.base.generator = .running := by
            by_contra hne
            simp [ReusableFuture.step, hne] at hbase
          obtain ⟨c, hc⟩ := h.base.awaiting_of_running hrun
          have hres := h.base.result_of_running hrun
          rw [h.base.ret_eq hrun hc operand] at hbase
          obtain rfl := Option.some.inj hbase
          refine h.produce (v := operand.value) hi (by simp [hc]) ?_ rfl rfl
          simp [State.produced, hres]

theorem Loop.Reachable.inv (h : Loop.Reachable l) : l.Inv := by
  refine Reaches.invariant (I := Loop.Inv) h ?_ ?_
  · rintro l rfl
    exact Loop.inv_init
  · rintro l a l' - hi - hs
    exact hi.step hs

/-- When the loop is done its generator is not at work. -/
theorem Loop.Inv.atEnd (h : l.Inv) (hdone : l.pc = .done) (a : LoopAction V) :
    Loop.step l a = none := by
  have hfree : l.base.awaiting = none := h.free (by simp [hdone])
  have hidle : ¬ (l.base.generator = .running ∨ l.base.generator = .waiting) :=
    fun hwork => h.base.working.mpr hwork hfree
  rw [not_or] at hidle
  cases a with
  | advance ctl left => simp [Loop.step, Loop.advance, hdone]
  | generator a => cases a <;> simp [Loop.step, ReusableFuture.step, hidle.1, hidle.2]

theorem Loop.Inv.callsInOrder (h : l.Inv) : CallsInOrder l := by
  refine ⟨⟨_, h.values, ?_, fun hne => if_neg fun hw => hne hw.1⟩, h.continued, h.ended, h.goesOn,
    h.atEnd, ?_⟩
  · split
    · exact Nat.le_refl _
    · exact Nat.zero_le _
  · rintro (hpc | ⟨hpc, hfree⟩) ctl left
    · simp only [Loop.step, Loop.advance, hpc]
      split
      · exact ⟨_, rfl⟩
      · obtain ⟨base, hbase⟩ := h.base.ready (h.free (by simp [hpc])) Loop.self
        rw [hbase]
        exact ⟨_, rfl⟩
    · simp only [Loop.step, Loop.advance, hpc, ReusableFuture.step, if_pos hfree]
      exact ⟨_, rfl⟩

end

/-- **`reusable_future` and `for_each` replay the generator.** -/
theorem reusableFuture_replays :
    (∀ s : State V, Reachable s → Replays s) ∧ ∀ l : Loop V, Loop.Reachable l → CallsInOrder l :=
  ⟨fun _ h => h.inv.replays, fun _ h => h.inv.callsInOrder⟩

/-- The generator yields `1`, then nothing after an await of its own, and returns `2`; one more
`co_await` comes too late. -/
def twoAndNothing : List (Action Nat) :=
  [.coAwait 7, .yield (.args 1), .consume none, .coAwait 8, .suspend, .wake, .yield .nullopt,
    .coAwait 7, .ret (.optional (some 2)), .coAwait 7]

/-- The loop over that generator, with a functor that breaks at the second value. -/
def breakAtSecond : List (LoopAction Nat) :=
  [.advance .kContinue none, .generator (.yield (.args 1)), .advance .kContinue none,
    .advance .kContinue none, .generator (.yield .nullopt), .advance .kBreak none]

theorem reusableFuture_replays_twoAndNothing :
    (∃ s, run step anyStep init twoAndNothing = some s ∧
      s.returned = [(7, some 1), (8, none), (7, some 2), (7, none)] ∧ Replays s) ∧
    ∃ l, run Loop.step anyStep Loop.init breakAtSecond = some l ∧
      l.calls = [(some 1, .kContinue), (none, .kBreak)] ∧ l.pc = .done ∧ CallsInOrder l := by
  refine ⟨?_, ?_⟩
  · have hend : (run step anyStep init twoAndNothing).map State.returned
        = some [(7, some 1), (8, none), (7, some 2), (7, none)] := by decide +kernel
    obtain ⟨s, hs, hret⟩ := Option.map_eq_some_iff.mp hend
    exact ⟨s, hs, hret, reusableFuture_replays.1 s (Reaches.run (Reaches.start rfl) hs)⟩
  · have hend : (run Loop.step anyStep Loop.init breakAtSecond).map (fun l => (l.calls, l.pc))
        = some ([(some 1, .kContinue), (none, .kBreak)], .done) := by decide +kernel
    obtain ⟨l, hl, hcalls⟩ := Option.map_eq_some_iff.mp hend
    obtain ⟨hcalls, hpc⟩ := Prod.mk.inj hcalls
    exact ⟨l, hl, hcalls, hpc, reusableFuture_replays.2 l (Reaches.run (Reaches.start rfl) hl)⟩

end Zab.ReusableFuture
