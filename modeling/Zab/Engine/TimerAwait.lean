import Zab.Engine.GenericAwaitable
import Zab.Engine.TimerService

set_option autoImplicit false

/-! # `co_await timer_service::wait`

The awaitable forms of `wait` are `generic_awaitable`s around the callback forms. Their functor
asks for `is_suspend` twice where it should first ask for `is_ready`: what was written for
`await_ready` is done by `await_suspend`, and the call of the callback form is never reached.
-/

namespace Zab.TimerService

variable {H : Type}

/-- The functor of both forms; `callback` is the call in its second branch. -/
def waitFunctor (nanoSeconds : Nat) (callback : H → State H → State H) :
    GenericAwaitable (State H) H := fun tag s =>
  if tag.isSuspend then (s, .bool (nanoSeconds == 0))
  else if tag.isSuspend then
    match tag.handle with
    | some handle => (callback handle s, .void)
    | none => (s, .void)
  else (s, .void)

/-- `wait(_nano_seconds)`, on the thread `currentId`. -/
def waitHere (nanoSeconds : Nat) (currentId : ThreadT) : GenericAwaitable (State H) H :=
  waitFunctor nanoSeconds fun handle s => s.wait handle nanoSeconds currentId currentId

/-- `wait(_nano_seconds, _thread)`, on the thread `currentId`. -/
def waitIn (nanoSeconds : Nat) (thread currentId : ThreadT) : GenericAwaitable (State H) H :=
  waitFunctor nanoSeconds fun handle s => s.wait handle nanoSeconds thread currentId

/-- A `co_await` agrees with the callback form: without a delay it neither suspends nor changes
the service, and with one it suspends and does what the callback form does for its handle. -/
def Agrees (f : GenericAwaitable (State H) H) (nanoSeconds : Nat)
    (callback : H → State H → State H) (handle : H) (s : State H) : Prop :=
  f.coAwait handle s =
    if nanoSeconds = 0 then (s, .continues) else (callback handle s, .suspends)

/-- What the awaitable does: it leaves the service alone, and suspends for good if there is no
delay. -/
theorem coAwait_waitFunctor (nanoSeconds : Nat) (callback : H → State H → State H) (handle : H)
    (s : State H) :
    (waitFunctor nanoSeconds callback).coAwait handle s =
      (s, if nanoSeconds = 0 then .suspends else .continues) := by
  have hready : (waitFunctor nanoSeconds callback).awaitReady s = (s, false) := rfl
  have hsuspend : (waitFunctor nanoSeconds callback).awaitSuspend handle s =
      (s, nanoSeconds == 0) := rfl
  simp only [GenericAwaitable.coAwait, hready, hsuspend]
  by_cases h : nanoSeconds = 0
  · rw [if_pos h, h]
    rfl
  · rw [if_neg h, beq_false_of_ne h]

theorem not_agrees_waitFunctor (nanoSeconds : Nat) (callback : H → State H → State H) (handle : H)
    (s : State H) : ¬ Agrees (waitFunctor nanoSeconds callback) nanoSeconds callback handle s := by
  intro hagrees
  have houtcome := congrArg Prod.snd hagrees
  rw [coAwait_waitFunctor] at houtcome
  by_cases h : nanoSeconds = 0
  · simp only [if_pos h] at houtcome
    cases houtcome
  · simp only [if_neg h] at houtcome
    cases houtcome

/-- **The awaitable timer never agrees with the callback timer**, in neither of its forms. -/
theorem timerService_neverAgrees (s : State H) (handle : H) (nanoSeconds : Fin (2 ^ 64))
    (thread currentId : ThreadT) :
    ¬ Agrees (waitIn nanoSeconds.val thread currentId) nanoSeconds.val
        (fun handle s => s.wait handle nanoSeconds.val thread currentId) handle s ∧
      ¬ Agrees (waitHere nanoSeconds.val currentId) nanoSeconds.val
        (fun handle s => s.wait handle nanoSeconds.val currentId currentId) handle s :=
  ⟨not_agrees_waitFunctor _ _ _ _, not_agrees_waitFunctor _ _ _ _⟩

/-- On a new service, a delay of five nanoseconds is not waited for and nothing is registered,
and a `co_await` without a delay suspends although nobody has its handle. -/
theorem timerService_awaitFive :
    (waitIn 5 ⟨0⟩ ⟨0⟩).coAwait 1 (init Nat) = (init Nat, .continues) ∧
      (waitIn 0 ⟨0⟩ ⟨0⟩).coAwait 1 (init Nat) = (init Nat, .suspends) ∧
      ¬ Agrees (waitIn 5 ⟨0⟩ ⟨0⟩) 5 (fun handle s => s.wait handle 5 ⟨0⟩ ⟨0⟩) 1 (init Nat) :=
  ⟨rfl, rfl, not_agrees_waitFunctor _ _ _ _⟩

end Zab.TimerService
