import Zab.Basic.Movers
import Zab.Engine.UserEvents

set_option autoImplicit false

/-! # The user event queue with its `spin_lock`

In the model of the user event queue the locked sections of `dispatch_user_event` and of
`run_user_space` are one step each. Here `mtx_` is a word: `lock()` exchanges it for `true` until it
finds `false`, and waits for `false` with loads in between, `unlock()` stores `false`. The
statements of a section are steps of their own, and every other thread goes on between any two of
them: it spins, works off its read deque, reads or writes the eventfd.

`notify` is a local of `dispatch_user_event`: it is what makes the thread go on with a `wake()`.
-/

namespace Zab.UserEvents

open Automaton

section

variable {η : Type}

/-! ## The statements of the locked sections -/

/-- `handles_[kWriteIndex].emplace_back(_handle)` -/
def State.emplaceBack (handle : η) (s : State η) : State η :=
  { s with write := s.write ++ [handle], dispatched := s.dispatched ++ [handle] }

/-- `notify = handles_[kWriteIndex].size() == 1` -/
def State.setNotify (t : Thread) (s : State η) : State η :=
  { s with pc := Function.update s.pc t (if s.write.length == 1 then .notify else .idle) }

/-- `size_.fetch_add(1)` -/
def State.sizeFetchAdd (s : State η) : State η := { s with size := s.size + 1 }

/-- `handles_[kReadIndex].swap(handles_[kWriteIndex])` -/
def State.swapHandles (s : State η) : State η := { s with read := s.write, write := s.read }

/-- `size_.store(0)` -/
def State.sizeStore (s : State η) : State η := { s with size := 0 }

/-- The `for` loop begins. -/
def State.enterFor (s : State η) : State η := { s with loop := .next 0 }

/-- The section that a step is, with its statements. -/
def locked (s : State η) : Action η → Option (List (State η → State η))
  | .dispatch t handle =>
      if s.pc t = .idle ∧ (t = none → s.loop.inHandler = true) then
        some [State.emplaceBack handle, State.setNotify t, State.sizeFetchAdd]
      else none
  | .loop =>
      if s.loop = .swap then some [State.swapHandles, State.sizeStore, State.enterFor] else none
  | .wake _ | .read _ | .requestStop => none

/-- The thread that takes a step; `none` stands for the kernel and for whoever stops the engine. -/
def actor : Action η → Option Thread
  | .dispatch t _ | .wake t => some t
  | .loop => some none
  | .read _ | .requestStop => none

/-- The queue with sections of one step, before a stop is requested. -/
def coarse : State η → Action η → Option (State η) := restrict step running

/-! ## The statements can be moved -/

/-- The statements of the sections of a thread. -/
theorem micro_cases {t : Option Thread} {m : State η → State η} (h : IsMicro actor locked t m) :
    (∃ u, t = some u ∧
      ((∃ handle, m = State.emplaceBack handle) ∨ m = State.setNotify u ∨
        m = State.sizeFetchAdd)) ∨
    (t = some none ∧ (m = State.swapHandles ∨ m = State.sizeStore ∨ m = State.enterFor)) := by
  obtain ⟨s, a, todo, hl, rfl, hm⟩ := h
  cases a with
  | dispatch u handle =>
      refine Or.inl ⟨u, rfl, ?_⟩
      simp only [locked] at hl
      split at hl
      · obtain rfl := Option.some.inj hl
        simp only [List.mem_cons, List.not_mem_nil, or_false] at hm
        exact hm.imp_left fun h => ⟨handle, h⟩
      · cases hl
  | loop =>
      refine Or.inr ⟨rfl, ?_⟩
      simp only [locked] at hl
      split at hl
      · obtain rfl := Option.some.inj hl
        simpa using hm
      · cases hl
  | wake u | read r | requestStop => cases hl

/-- A section as a whole. -/
theorem whole (s : State η) (a : Action η) (todo : List (State η → State η))
    (hl : locked s a = some todo) : coarse s a = some (applyAll todo s) := by
  cases a with
  | dispatch t handle =>
      simp only [locked] at hl
      split at hl
      · rename_i hc
        obtain rfl := Option.some.inj hl
        simp only [coarse, restrict, running, if_true, UserEvents.step, if_pos hc]
        rfl
      · cases hl
  | loop =>
      simp only [locked] at hl
      split at hl
      · rename_i hc
        obtain rfl := Option.some.inj hl
        simp only [coarse, restrict, running, if_true, UserEvents.step, State.runUserSpace, hc]
        rfl
      · cases hl
  | wake u | read r | requestStop => cases hl

variable {s s' : State η}

/-- What another thread does to a thread, -/
theorem pc_of_coarse {b : Action η} {u : Thread} (hs : coarse s b = some s')
    (hb : actor b ≠ some u) : s'.pc u = s.pc u := by
  simp only [coarse, restrict] at hs
  split at hs
  swap
  · cases hs
  cases b with
  | dispatch t handle =>
      have hut : u ≠ t := fun h => hb (by rw [h]; rfl)
      simp only [UserEvents.step] at hs
      split at hs
      · obtain rfl := Option.some.inj hs
        simp [State.dispatchUserEvent, hut]
      · cases hs
  | wake t =>
      have hut : u ≠ t := fun h => hb (by rw [h]; rfl)
      simp only [UserEvents.step] at hs
      split at hs
      · obtain rfl := Option.some.inj hs
        simp [State.wake, hut]
      · cases hs
  | loop =>
      simp only [UserEvents.step, State.runUserSpace] at hs
      split at hs
      · obtain rfl := Option.some.inj hs
        rfl
      · split at hs <;> obtain rfl := Option.some.inj hs <;> rfl
      · split at hs
        · obtain rfl := Option.some.inj hs
          rfl
        · cases hs
      · cases hs
      · split_ifs at hs <;> obtain rfl := Option.some.inj hs <;> rfl
      · cases hs
  | read r =>
      simp only [UserEvents.step] at hs
      split_ifs at hs <;> obtain rfl := Option.some.inj hs <;> rfl
  | requestStop =>
      obtain rfl := Option.some.inj hs
      rfl

/-- and to the loop. -/
theorem loop_of_coarse {b : Action η} (hs : coarse s b = some s') (hb : actor b ≠ some none) :
    s'.loop = s.loop ∨ ∃ r, s.loop = .reading ∧ s'.loop = .readDone r := by
  simp only [coarse, restrict] at hs
  split at hs
  swap
  · cases hs
  cases b with
  | dispatch t handle | wake t =>
      simp only [UserEvents.step] at hs
      split at hs
      · obtain rfl := Option.some.inj hs
        exact Or.inl rfl
      · cases hs
  | loop => exact absurd rfl hb
  | read r =>
      simp only [UserEvents.step] at hs
      split at hs
      · rename_i hl
        refine Or.inr ⟨r, hl, ?_⟩
        split_ifs at hs <;> obtain rfl := Option.some.inj hs <;> rfl
      · cases hs
  | requestStop =>
      obtain rfl := Option.some.inj hs
      exact Or.inl rfl

theorem stable (s s' : State η) (a b : Action η) (todo : List (State η → State η))
    (hab : actor b ≠ actor a) (hl : locked s a = some todo) (hs : coarse s b = some s') :
    locked s' a = some todo := by
  cases a with
  | dispatch t handle =>
      simp only [locked] at hl
      split at hl
      · rename_i hc
        rw [← hl]
        refine if_pos ⟨(pc_of_coarse hs hab).trans hc.1, ?_⟩
        rintro rfl
        -- a handle runs while the read of the eventfd completes
        have hin := hc.2 rfl
        rcases loop_of_coarse hs hab with h | ⟨r, -, h⟩
        · rw [h]
          exact hin
        · rw [h]
          rfl
      · cases hl
  | loop =>
      simp only [locked] at hl
      split at hl
      · rename_i hc
        rw [← hl]
        refine if_pos ?_
        rcases loop_of_coarse hs hab with h | ⟨r, h, -⟩
        · exact h.trans hc
        · rw [hc] at h
          cases h
      · cases hl
  | wake u | read r | requestStop => cases hl

/-- A statement in a section of `dispatch_user_event` leaves the loop alone, -/
theorem micro_loop {t : Option Thread} {m : State η → State η} (hm : IsMicro actor locked t m)
    (ht : t ≠ some none) (s : State η) :
    (m s).loop = s.loop ∧ (m s).read = s.read ∧ (m s).executed = s.executed := by
  rcases micro_cases hm with ⟨u, -, ⟨handle, rfl⟩ | rfl | rfl⟩ | ⟨rfl, -⟩
  · exact ⟨rfl, rfl, rfl⟩
  · exact ⟨rfl, rfl, rfl⟩
  · exact ⟨rfl, rfl, rfl⟩
  · exact absurd rfl ht

/-- and every statement the other threads. -/
theorem micro_pc {t : Option Thread} {m : State η → State η} (hm : IsMicro actor locked t m)
    {u : Thread} (hu : some u ≠ t) (s : State η) : (m s).pc u = s.pc u := by
  rcases micro_cases hm with ⟨v, rfl, ⟨handle, rfl⟩ | rfl | rfl⟩ | ⟨-, rfl | rfl | rfl⟩
  · rfl
  · have huv : u ≠ v := fun h => hu (by rw [h])
    simp [State.setNotify, huv]
  all_goals rfl

theorem keeps (s : State η) (t : Option Thread) (m : State η → State η) (a : Action η)
    (hm : IsMicro actor locked t m) (ha : actor a ≠ t) : locked (m s) a = locked s a := by
  cases a with
  | dispatch u handle =>
      have hu : some u ≠ t := ha
      simp only [locked, micro_pc hm hu s]
      cases u with
      | none => rw [(micro_loop hm (Ne.symm hu) s).1]
      | some n => simp
  | loop =>
      have hu : some none ≠ t := ha
      simp only [locked, (micro_loop hm (Ne.symm hu) s).1]
  | wake u | read r | requestStop => rfl

/-- A wake-up, -/
theorem micro_wake {t : Option Thread} {m : State η → State η} (hm : IsMicro actor locked t m)
    {u : Thread} (hu : some u ≠ t) (s : State η) : (m s).wake u = m (s.wake u) := by
  rcases micro_cases hm with ⟨v, rfl, ⟨handle, rfl⟩ | rfl | rfl⟩ | ⟨-, rfl | rfl | rfl⟩
  · rfl
  · have huv : u ≠ v := fun h => hu (by rw [h])
    simp only [State.wake, State.setNotify, Function.update_comm huv]
    rfl
  all_goals rfl

/-- and a step of the loop outside of its section can be moved. -/
theorem micro_runUserSpace {t : Option Thread} {m : State η → State η}
    (hm : IsMicro actor locked t m) (ht : t ≠ some none) (s : State η) (hl : s.loop ≠ .swap) :
    (m s).runUserSpace = s.runUserSpace.map m := by
  have hpc : (m s).pc none = s.pc none := micro_pc hm (Ne.symm ht) s
  obtain ⟨hloop, hread, hexec⟩ := micro_loop hm ht s
  have hstop : ((m s).stopRequested = false) = (s.stopRequested = false) := by
    rcases micro_cases hm with ⟨v, -, ⟨handle, rfl⟩ | rfl | rfl⟩ | ⟨rfl, -⟩
    any_goals rfl
    exact absurd rfl ht
  -- a statement does not see what the loop changes
  have hset : ∀ q : LoopPc, { m s with loop := q } = m { s with loop := q } := by
    intro q
    rcases micro_cases hm with ⟨v, -, ⟨handle, rfl⟩ | rfl | rfl⟩ | ⟨rfl, -⟩
    any_goals rfl
    exact absurd rfl ht
  cases hq : s.loop with
  | swap => exact absurd hq hl
  | next i =>
      simp only [State.runUserSpace, hloop, hq, hread, hexec]
      cases s.read[i]? with
      | some handle =>
          rcases micro_cases hm with ⟨v, -, ⟨handle', rfl⟩ | rfl | rfl⟩ | ⟨rfl, -⟩
          any_goals rfl
          exact absurd rfl ht
      | none =>
          rcases micro_cases hm with ⟨v, -, ⟨handle', rfl⟩ | rfl | rfl⟩ | ⟨rfl, -⟩
          any_goals rfl
          exact absurd rfl ht
  | handler i =>
      simp only [State.runUserSpace, hloop, hq, hpc]
      split
      · rw [hset]
        rfl
      · rfl
  | reading | ended =>
      simp only [State.runUserSpace, hloop, hq]
      rfl
  | readDone r =>
      simp only [State.runUserSpace, hloop, hq, hpc, hstop]
      split_ifs
      · rfl
      all_goals
        rw [hset]
        rfl

theorem move (s x : State η) (t : Option Thread) (m : State η → State η) (b : Action η)
    (hm : IsMicro actor locked t m) (hb : actor b ≠ t) (hfree : locked s b = none)
    (hs : coarse (m s) b = some x) : ∃ s', coarse s b = some s' ∧ x = m s' := by
  have hok : running s b := by
    simp only [coarse, restrict] at hs
    split at hs
    · assumption
    · cases hs
  simp only [coarse, restrict, if_pos (show running (m s) b from hok)] at hs
  simp only [coarse, restrict, if_pos hok]
  cases b with
  | dispatch u handle =>
      have hnone := (keeps s t m (.dispatch u handle) hm hb).trans hfree
      simp only [locked] at hnone
      simp only [UserEvents.step] at hs
      split at hs
      · rename_i hc
        rw [if_pos hc] at hnone
        cases hnone
      · cases hs
  | wake u =>
      simp only [UserEvents.step, micro_pc hm hb s, micro_wake hm hb s] at hs
      simp only [UserEvents.step]
      split at hs
      · rename_i hc
        exact ⟨s.wake u, if_pos hc, (Option.some.inj hs).symm⟩
      · cases hs
  | loop =>
      have hl : s.loop ≠ .swap := by
        intro hl
        simp [locked, hl] at hfree
      simp only [UserEvents.step, micro_runUserSpace hm (Ne.symm hb) s hl] at hs
      obtain ⟨s', hs', rfl⟩ := Option.map_eq_some_iff.mp hs
      exact ⟨s', hs', rfl⟩
  | read r =>
      simp only [UserEvents.step] at hs ⊢
      rcases micro_cases hm with ⟨v, -, ⟨handle, rfl⟩ | rfl | rfl⟩ | ⟨-, rfl | rfl | rfl⟩
      all_goals
        split at hs
        · rename_i hl
          split at hs
          · split at hs
            · rename_i hr hpos
              first
                | cases hl
                | exact ⟨{ s with eventFd := 0, loop := .readDone r },
                    (if_pos hl).trans ((if_pos hr).trans (if_pos hpos)),
                    (Option.some.inj hs).symm⟩
            · cases hs
          · rename_i hr
            exact absurd hok hr
        · cases hs
  | requestStop => exact hok.elim

end

end Zab.UserEvents
