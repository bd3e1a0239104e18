import Zab.Basic.Automaton
import Mathlib.Tactic

set_option autoImplicit false

/-! # The user event queue of `event_loop`

Any thread hands a handle to a loop with `dispatch_user_event`: under the lock it appends the
handle to the write deque, and after the unlock, if the deque was empty before, it wakes the
loop by a write to an eventfd. `run_user_space` swaps the two deques under the lock, executes
the handles of the read deque, clears it, and waits for a read of the eventfd.

The locked sections are one step each, and the write and the read of the eventfd are steps of
their own: a write adds one to the counter, a read blocks at zero and otherwise returns the
size of the counter and zeroes it. A dispatching thread is `some t`, or `none` for the loop's
own thread, which dispatches from inside a handle it executes: a handle of the read deque, or
another completion of the ring while `run_user_space` is suspended in its read.

`dispatched` and `executed` are read by no branch of the code.
-/

namespace Zab.UserEvents

open Automaton

/-- `sizeof(count)`, what a read of the eventfd returns. -/
def sizeofCount : Int := 8

/-- Where a thread is in `dispatch_user_event`. -/
inductive DispatchPc where
  | idle
  /-- After the unlock, before the `wake()`. -/
  | notify
  deriving DecidableEq

/-- Where `run_user_space` is. -/
inductive LoopPc where
  /-- Before the swap of the deques. -/
  | swap
  /-- At the test of the `for` loop, before handle number `i`. -/
  | next (i : Nat)
  /-- Inside `execute_event` of handle number `i`. -/
  | handler (i : Nat)
  /-- Suspended in the read of the eventfd. -/
  | reading
  /-- The read has completed with a result; the coroutine has not been resumed. -/
  | readDone (result : Int)
  | ended
  deriving DecidableEq

/-- Threads other than the loop's own are numbered. -/
abbrev Thread := Option Nat

structure State (η : Type) where
  /-- `handles_[kReadIndex]`. -/
  read : List η
  /-- `handles_[kWriteIndex]`. -/
  write : List η
  size : Nat
  eventFd : Nat
  stopRequested : Bool
  loop : LoopPc
  pc : Thread → DispatchPc
  dispatched : List η
  executed : List η

def init (η : Type) : State η where
  read := []
  write := []
  size := 0
  eventFd := 0
  stopRequested := false
  loop := .swap
  pc := fun _ => .idle
  dispatched := []
  executed := []

/-- The loop's own thread is free to run a handle that dispatches. -/
def LoopPc.inHandler : LoopPc → Bool
  | .handler _ | .reading | .readDone _ => true
  | _ => false

inductive Action (η : Type) where
  /-- The locked section of `dispatch_user_event`. -/
  | dispatch (t : Thread) (handle : η)
  | wake (t : Thread)
  /-- The next step of `run_user_space`. -/
  | loop
  /-- The read of the eventfd completes. -/
  | read (result : Int)
  | requestStop
  deriving DecidableEq

section

variable {η : Type}

/-- The locked section of `dispatch_user_event`. -/
def State.dispatchUserEvent (s : State η) (t : Thread) (handle : η) : State η :=
  let write := s.write ++ [handle]
  let notify := write.length == 1
  { s with
    write := write
    size := s.size + 1
    pc := Function.update s.pc t (if notify then .notify else .idle)
    dispatched := s.dispatched ++ [handle] }

/-- `wake()`: a write of `1` to the eventfd. -/
def State.wake (s : State η) (t : Thread) : State η :=
  { s with eventFd := s.eventFd + 1, pc := Function.update s.pc t .idle }

/-- The next step of `run_user_space`. -/
def State.runUserSpace (s : State η) : Option (State η) :=
  match s.loop with
  | .swap => some { s with read := s.write, write := s.read, size := 0, loop := .next 0 }
  | .next i =>
      match s.read[i]? with
      | some handle => some { s with executed := s.executed ++ [handle], loop := .handler i }
      | none => some { s with read := [], loop := .reading }
  | .handler i => if s.pc none = .idle then some { s with loop := .next (i + 1) } else none
  | .reading => none
  | .readDone result =>
      if s.pc none ≠ .idle then none
      else if result < 0 then some { s with loop := .ended }
      else if result ≠ sizeofCount then some { s with loop := .ended }
      else if s.stopRequested = false then some { s with loop := .swap }
      else some { s with loop := .ended }
  | .ended => none

def step (s : State η) : Action η → Option (State η)
  | .dispatch t handle =>
      if s.pc t = .idle ∧ (t = none → s.loop.inHandler = true) then
        some (s.dispatchUserEvent t handle)
      else none
  | .wake t => if s.pc t = .notify then some (s.wake t) else none
  | .loop => s.runUserSpace
  | .read result =>
      if s.loop = .reading then
        if result = sizeofCount then
          if 0 < s.eventFd then some { s with eventFd := 0, loop := .readDone result } else none
        else some { s with loop := .readDone result }
      else none
  | .requestStop => some { s with stopRequested := true }

/-- Nobody requests a stop, and reads of the eventfd do not fail. -/
def running (_ : State η) : Action η → Prop
  | .read result => result = sizeofCount
  | .requestStop => False
  | _ => True

instance : ∀ (s : State η) (a : Action η), Decidable (running s a)
  | _, .read result => inferInstanceAs (Decidable (result = sizeofCount))
  | _, .requestStop => inferInstanceAs (Decidable False)
  | _, .dispatch _ _ | _, .wake _ | _, .loop => inferInstanceAs (Decidable True)

/-- The states of all interleavings before a stop is requested. -/
def Reachable : State η → Prop := Reaches step running (· = init η)

/-! ## No event is lost, duplicated or reordered -/

/-- The handles of the read deque that have not been executed. -/
def State.unread (s : State η) : List η :=
  match s.loop with
  | .next i => s.read.drop i
  | .handler i => s.read.drop (i + 1)
  | _ => []

/-- `run_user_space` will swap the deques before it waits: it is between its start, or a
completed read, and the swap. -/
def LoopPc.beforeSwap : LoopPc → Bool
  | .swap | .readDone _ => true
  | _ => false

/-- Outside the `for` loop the read deque is empty. -/
def LoopPc.between : LoopPc → Bool
  | .next _ | .handler _ => false
  | _ => true

structure Inv (s : State η) : Prop where
  size : s.size = s.write.length
  order : s.dispatched = s.executed ++ s.unread ++ s.write
  read : s.loop.between = true → s.read = []
  loop : s.stopRequested = false ∧ s.loop ≠ .ended ∧ ∀ r, s.loop = .readDone r → r = sizeofCount
  /-- A handle in the write deque has been announced to the loop or is about to be. -/
  woken : s.write ≠ [] →
    0 < s.eventFd ∨ (∃ t, s.pc t = .notify) ∨ s.loop.beforeSwap = true

variable {s s' : State η}

theorem inv_init : Inv (init η) where
  size := rfl
  order := rfl
  read := fun _ => rfl
  loop := ⟨rfl, by simp [init], by simp [init]⟩
  woken := fun h => absurd rfl h

theorem Inv.dispatch (h : Inv s) (t : Thread) (handle : η) (ht : s.pc t = .idle) :
    Inv (s.dispatchUserEvent t handle) where
  size := by
    simp only [State.dispatchUserEvent, List.length_append, List.length_singleton]
    rw [h.size]
  order := by
    show s.dispatched ++ [handle] = s.executed ++ s.unread ++ (s.write ++ [handle])
    rw [h.order, List.append_assoc _ s.write]
  read := h.read
  loop := h.loop
  woken := by
    intro _
    by_cases hw : s.write = []
    · -- the deque was empty, so this dispatcher wakes the loop
      refine Or.inr (Or.inl ⟨t, ?_⟩)
      simp [State.dispatchUserEvent, hw]
    · refine (h.woken hw).imp_right (Or.imp_left ?_)
      rintro ⟨u, hu⟩
      have hut : u ≠ t := by
        rintro rfl
        rw [ht] at hu; cases hu
      exact ⟨u, by simpa [State.dispatchUserEvent, hut] using hu⟩

theorem Inv.wake (h : Inv s) (t : Thread) : Inv (s.wake t) :=
  { h with woken := fun _ => Or.inl (Nat.succ_pos _) }

/-- The swap takes the whole write deque. -/
theorem Inv.swap (h : Inv s) (hl : s.loop = .swap) :
    Inv { s with read := s.write, write := s.read, size := 0, loop := .next 0 } := by
  have hread : s.read = [] := h.read (by rw [hl]; rfl)
  refine ⟨?_, ?_, ?_, ?_, ?_⟩
  · simp [hread]
  · have := h.order
    simpa [State.unread, hl, hread] using this
  · intro hb; cases hb
  · exact ⟨h.loop.1, by simp, by simp⟩
  · intro hw
    exact absurd hread hw

/-- A step of the `for` loop executes the next handle of the read deque. -/
theorem Inv.execute (h : Inv s) {i : Nat} {handle : η} (hl : s.loop = .next i)
    (hget : s.read[i]? = some handle) :
    Inv { s with executed := s.executed ++ [handle], loop := .handler i } := by
  obtain ⟨hi, rfl⟩ := List.getElem?_eq_some_iff.mp hget
  have hunread : s.unread = s.read[i] :: s.read.drop (i + 1) := by
    simp [State.unread, hl]
  refine ⟨h.size, ?_, ?_, ?_, ?_⟩
  · have := h.order
    rw [hunread] at this
    simpa [State.unread] using this
  · intro hb; cases hb
  · exact ⟨h.loop.1, by simp, by simp⟩
  · simpa [hl, LoopPc.beforeSwap] using h.woken

/-- The deque has been worked off and is cleared. -/
theorem Inv.clear (h : Inv s) {i : Nat} (hl : s.loop = .next i) (hget : s.read[i]? = none) :
    Inv { s with read := [], loop := .reading } := by
  have hunread : s.unread = [] := by
    simpa [State.unread, hl] using hget
  refine ⟨h.size, ?_, fun _ => rfl, ⟨h.loop.1, by simp, by simp⟩, ?_⟩
  · have := h.order
    rw [hunread] at this
    simpa [State.unread] using this
  · simpa [hl, LoopPc.beforeSwap] using h.woken

theorem Inv.runUserSpace (h : Inv s) (hs : s.runUserSpace = some s') : Inv s' := by
  unfold State.runUserSpace at hs
  split at hs
  · rename_i hl
    obtain rfl := Option.some.inj hs
    exact h.swap hl
  · rename_i i hl
    split at hs <;> obtain rfl := Option.some.inj hs <;> rename_i hget
    · exact h.execute hl hget
    · exact h.clear hl hget
  · rename_i i hl
    split at hs
    · obtain rfl := Option.some.inj hs
      refine ⟨h.size, ?_, ?_, ⟨h.loop.1, by simp, by simp⟩, ?_⟩
      · simpa [State.unread, hl] using h.order
      · intro hb; cases hb
      · simpa [hl, LoopPc.beforeSwap] using h.woken
    · cases hs
  · cases hs
  · rename_i result hl
    -- before a stop, a completed read leads back to the swap
    have hres := h.loop.2.2 result hl
    rw [if_neg (show ¬ result < 0 by rw [hres]; decide), if_neg (not_not.mpr hres),
      if_pos h.loop.1] at hs
    split at hs
    · cases hs
    · obtain rfl := Option.some.inj hs
      have hread : s.read = [] := h.read (by rw [hl]; rfl)
      refine ⟨h.size, ?_, fun _ => hread, ⟨h.loop.1, by simp, by simp⟩,
        fun _ => Or.inr (Or.inr rfl)⟩
      simpa [State.unread, hl] using h.order
  · cases hs

theorem Inv.step {a : Action η} (h : Inv s) (hok : running s a) (hs : step s a = some s') :
    Inv s' := by
  cases a with
  | dispatch t handle =>
      simp only [UserEvents.step] at hs
      split at hs
      · rename_i ht
        obtain rfl := Option.some.inj hs
        exact h.dispatch t handle ht.1
      · cases hs
  | wake t =>
      simp only [UserEvents.step] at hs
      split at hs
      · obtain rfl := Option.some.inj hs
        exact h.wake t
      · cases hs
  | loop => exact h.runUserSpace hs
  | read result =>
      have hok : result = sizeofCount := hok
      simp only [UserEvents.step, hok, if_true] at hs
      split at hs
      · rename_i hl
        split at hs
        · obtain rfl := Option.some.inj hs
          have hread : s.read = [] := h.read (by rw [hl]; rfl)
          refine ⟨h.size, ?_, fun _ => hread, ⟨h.loop.1, by simp, by simp⟩,
            fun _ => Or.inr (Or.inr rfl)⟩
          simpa [State.unread, hl] using h.order
        · cases hs
      · cases hs
  | requestStop => exact hok.elim

theorem Reachable.inv (h : Reachable s) : Inv s := by
  refine Reaches.invariant (I := Inv) h ?_ ?_
  · rintro s rfl
    exact inv_init
  · intro s a s' _ ih hok hs
    exact ih.step hok hs

/-- No event is lost, executed twice or out of order, and no wake-up is lost. -/
structure Sound (s : State η) : Prop where
  /-- Every dispatched handle has been executed or is in one of the deques, in dispatch order. -/
  kept : s.dispatched = s.executed ++ s.unread ++ s.write
  order : s.executed <+: s.dispatched
  /-- If all dispatched handles are different, no handle is executed twice. -/
  once : s.dispatched.Nodup → s.executed.Nodup
  size : s.size = s.write.length
  woken : s.write ≠ [] →
    0 < s.eventFd ∨ (∃ t, s.pc t = .notify) ∨ s.loop.beforeSwap = true

/-- **The user event queue**, in every state of every interleaving before a stop. -/
theorem userEvents_sound (h : Reachable s) : Sound s := by
  have hinv := h.inv
  have hprefix : s.executed <+: s.dispatched :=
    ⟨s.unread ++ s.write, by rw [hinv.order, List.append_assoc]⟩
  exact ⟨hinv.order, hprefix, fun hnd => hnd.sublist hprefix.sublist, hinv.size, hinv.woken⟩

end

/-- Two threads dispatch before the loop starts; the first handle dispatches a third one. -/
def reentrant : List (Action Nat) :=
  [.dispatch (some 0) 10, .dispatch (some 1) 11, .wake (some 0), .loop, .loop,
    .dispatch none 12, .wake none, .loop, .loop, .loop, .loop, .read 8]

theorem userEvents_sound_reentrant :
    ∃ s, run step running (init Nat) reentrant = some s ∧ s.dispatched = [10, 11, 12] ∧
      s.executed = [10, 11] ∧ s.write = [12] ∧ s.eventFd = 0 ∧ Sound s := by
  obtain ⟨s, hs, h1, h2, h3, h4⟩ : ∃ s, run step running (init Nat) reentrant = some s ∧
      s.dispatched = [10, 11, 12] ∧ s.executed = [10, 11] ∧ s.write = [12] ∧ s.eventFd = 0 :=
    ⟨_, rfl, rfl, rfl, rfl, rfl⟩
  exact ⟨s, hs, h1, h2, h3, h4, userEvents_sound (Reaches.run (Reaches.start rfl) hs)⟩

end Zab.UserEvents
