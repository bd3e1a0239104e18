import Zab.Sync.BarrierMemory
import Zab.Sync.BinarySemaphoreInv
import Zab.Sync.CountingSemaphoreInv
import Zab.Sync.ObservableErase
import Zab.Sync.PauseTokenInv

set_option autoImplicit false

/-! # Wake-up traversals never look back

Everybody who wakes coroutines walks along a list whose nodes are in the frames of these
coroutines, and a coroutine may run, and its node cease to exist, as soon as it has been given to
`thread_resume`. For each traversal the accesses to the nodes are listed in the order of the code;
the invariants say that a node that is read belongs to a coroutine that is still asleep.
-/

open Automaton Access

/-! ## `pause_token` -/

namespace Zab.PauseToken

/-- What a step does to the `pauser`s in a list. -/
def State.accesses (s : State) : Coro × Action → List (Access Nat)
  | (_, .coAwait p _) => [.create p.val]
  | (c, .advance _) =>
      match s.pc c with
      | .unpauseWalk _ oldPause => if oldPause = 0 then [] else [.read oldPause]
      | .unpauseResume _ oldPause _ => [.read oldPause, .release oldPause]
      | _ => []
  | (_, .pause) | (_, .unpause) => []

section

variable {s s' : State} {ch : List Addr} {loc : Coro → List Addr}

theorem Inv.after (h : Inv s ch loc) {a : Coro × Action} (hs : PauseToken.step s a = some s')
    {x : Nat} (hx : s'.live x = true) : after (s.live · = true) (s.accesses a) x := by
  obtain ⟨c, a⟩ := a
  cases a with
  | coAwait p t =>
      simp only [PauseToken.step] at hs
      split at hs
      · obtain rfl := Option.some.inj hs
        exact after_create hx
      · cases hs
  | pause | unpause =>
      simp only [PauseToken.step] at hs
      split at hs
      · obtain rfl := Option.some.inj hs
        exact hx
      · cases hs
  | advance spurious =>
      cases advances_of_advance hs with
      | resumes k w t hc =>
          obtain ⟨d, p, l, rfl, -, hd, -⟩ := h.resumption hc
          have hh : (s.mem p.val).handle = some d := h.handle d p (by rw [hd]; rfl)
          simp only [State.accesses, hc]
          refine after_release ?_
          simpa [State.goto, State.threadResume, State.leave, hh] using hx
      | walks k w hc hne =>
          simp only [State.accesses, hc, if_neg hne]
          exact hx
      | isReady p hc | leaves p hc =>
          simp only [State.accesses, hc]
          exact exist_of_update hx
      | storesHandle p hc | loads p hc | suspends p previous hc | retries p previous hc
      | isPaused hc | isUnpaused hc | pauses w hc | pauseRetries w hc | pauseReturns w hc
      | exchangesFlag hc | exchanges hc | walkEnds k hc =>
          simp only [State.accesses, hc]
          exact hx

end

end Zab.PauseToken

/-! ## `async_counting_semaphore<1>` -/

namespace Zab.BinarySemaphore

/-- What a step does to the `waiter`s in the lists. -/
def State.accesses (s : State) : Coro × Action → List (Access Nat)
  | (_, .coAwait w _) => [.create w.val]
  | (c, .advance _) =>
      match s.pc c with
      | .releaseStart => if s.transfer = 0 then [] else [.read s.transfer]
      | .releaseReverse _ next => [.read next]
      | .releaseTransfer head => [.read head]
      | .releaseResume head =>
          if (s.mem head).handle.isSome then [.read head, .release head] else [.read head]
      | _ => []
  | (_, .tryAquire) | (_, .release) => []

section

variable {s s' : State} {lc tr ch : List Addr}

theorem Inv.after (h : Inv s lc tr ch) {a : Coro × Action}
    (hs : BinarySemaphore.step s a = some s') {x : Nat} (hx : s'.live x = true) :
    after (s.live · = true) (s.accesses a) x := by
  obtain ⟨c, a⟩ := a
  cases a with
  | coAwait w t =>
      simp only [BinarySemaphore.step] at hs
      split at hs
      · obtain rfl := Option.some.inj hs
        exact after_create hx
      · cases hs
  | tryAquire | release =>
      simp only [BinarySemaphore.step] at hs
      split at hs
      · obtain rfl := Option.some.inj hs
        exact hx
      · cases hs
  | advance spurious =>
      cases advances_of_advance hs with
      | resumes head hc =>
          obtain ⟨w, d, rfl, -, -, hh, -⟩ := h.resumes hc
          have hh : (s.mem w.val).handle = some d := hh
          simp only [State.accesses, hc, hh]
          refine after_release ?_
          simpa [State.goto, State.threadResume, State.setOwner, State.enter, hh] using hx
      | listEmpty hc hzero =>
          simp only [State.accesses, hc, if_pos hzero]
          exact hx
      | listHead hc hne =>
          simp only [State.accesses, hc, if_neg hne]
          exact hx
      | isReady w hc | takes w hc =>
          simp only [State.accesses, hc]
          exact exist_of_update hx
      | tryTakes hc | tryFails hc | storesHandle w hc | loads w hc | retriesTake w hc
      | suspends w previous hc | retries w previous hc | unlocks hc | hasWaiters hc | exchanges hc
      | reverses head next hc | reversed head next hc | transfers head hc =>
          simp only [State.accesses, hc]
          exact hx

end

end Zab.BinarySemaphore

/-! ## `async_counting_semaphore`, the general template -/

namespace Zab.CountingSemaphore

/-- What a step does to the `waiter`s in the lists. -/
def State.accesses (s : State) : Action → List (Access Nat)
  | .coAwait _ w _ => [.create w.val]
  | .control k =>
      match (s.control k).pc with
      | .transfer _ => if s.transfer = 0 then [] else [.read s.transfer]
      | .reverse _ _ next => [.read next]
      | .take _ head => [.read head]
      | .resume head => [.read head, .release head]
      | _ => []
  | .tryAquire _ | .release _ _ _ | .advance _ _ => []

section

variable {start : Int} {P : Prop} {s s' : State} {lc tr ch : List Addr} {cnt : List Coro}
  {srv : Server}

/-- A step of `control` other than a resumption leaves the `waiter`s alone. -/
theorem found_live {k head : Nat} {inner : Bool} : (s.found k inner head).live = s.live := by
  unfold State.found
  split <;> rfl

theorem notFound_live {k : Nat} {inner : Bool} : (s.notFound k inner).live = s.live := by
  unfold State.notFound
  split <;> rfl

theorem Inv.after (h : Inv start P s lc tr ch cnt srv) {a : Action}
    (hs : CountingSemaphore.step s a = some s') {x : Nat} (hx : s'.live x = true) :
    after (s.live · = true) (s.accesses a) x := by
  cases a with
  | coAwait c w t =>
      simp only [CountingSemaphore.step] at hs
      split at hs
      · obtain rfl := Option.some.inj hs
        exact after_create hx
      · cases hs
  | tryAquire c | release c n t =>
      simp only [CountingSemaphore.step] at hs
      split at hs
      · obtain rfl := Option.some.inj hs
        exact hx
      · cases hs
  | advance c spurious =>
      cases advances_of_advance hs with
      | awaitTakes w result => exact exist_of_update hx
      | _ => exact hx
  | control k =>
      cases serves_of_advanceControl hs with
      | resumes head hk =>
          have hact : (s.control k).pc.active = true := by rw [hk]; rfl
          obtain rfl : srv = .running k := (h.running k).mp hact
          have hl := h.loc
          simp only [State.serving, hk] at hl
          obtain ⟨w, d, rfl, -, -, hh, -⟩ := h.holds hl
          have hh : (s.mem w.val).handle = some d := hh
          simp only [State.accesses, hk]
          refine after_release ?_
          simpa [State.gotoControl, State.threadResume, State.leave, State.goto, hh] using hx
      | listEmpty inner hk hzero =>
          simp only [State.accesses, hk, if_pos hzero]
          exact hx
      | listHead inner hk hne =>
          simp only [State.accesses, hk, if_neg hne]
          rwa [found_live] at hx
      | takes inner head hk =>
          simp only [State.accesses, hk]
          rwa [found_live] at hx
      | nobody inner hk =>
          simp only [State.accesses, hk]
          rwa [notFound_live] at hx
      | exchanges inner hk | reverses inner head next hk | reversed inner head next hk | owes hk
      | addsNone hk | addsSome head hk | triesAgain hk | ends hk | nextRound q count hk | goesOn hk =>
          simp only [State.accesses, hk]
          exact hx

end

end Zab.CountingSemaphore

/-! ## All traversals -/

namespace Zab

end Zab
