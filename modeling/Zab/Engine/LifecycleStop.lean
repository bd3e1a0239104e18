import Zab.Engine.LifecycleSound

set_option autoImplicit false

/-! # The end of the engine

A call of `stop` reaches every worker whose thread it finds (`stop_reaches`). The frames of
`run_user_space` are freed once (`userSpace_freedOnce`). When a stop has reached all workers and
they are left alone, `start` returns (`stop_returns`): each step takes a rank down, and as long as
`start` has not returned somebody has a step.
-/

namespace Zab.Lifecycle

open Automaton Workers

section

variable {n : Nat} {s s' : State}

/-- `start` has not returned. -/
def started (s : State) (a : Action) : Prop := a = .start → s.start ≠ .returned

instance (s : State) (a : Action) : Decidable (started s a) :=
  inferInstanceAs (Decidable (a = .start → s.start ≠ .returned))

theorem Reachable.of_run {l : List Action} (h : (run (step n) started (init n) l).isSome = true) :
    Reachable n ((run (step n) started (init n) l).getD (init n)) := by
  obtain ⟨s, hs⟩ := Option.isSome_iff_exists.mp h
  rw [hs]
  have hinit : Reaches (step n) started (· = init n) (init n) := Reaches.start rfl
  exact (hinit.run hs).mono fun _ _ hne ha hret => absurd hret (hne ha)

/-! ## Whom a stop reaches -/

/-- **A stop is not lost.** A call of `stop` that has returned has reached the workers whose threads
it has found, and these are all of them if a handler has called it. A worker that it has reached
does not sleep through it, unless the read of its eventfd has failed before. -/
theorem stop_reaches (h : Reachable n s) {c : Caller} {m : Nat} (hm : (c, m) ∈ s.stops) :
    (∀ i, c = .worker i → m = n) ∧
      ∀ i < m, (s.worker i).requested = true ∧
        ((s.worker i).pc = .wait → (s.worker i).cq = [] → (s.worker i).userSpace ≠ .ended true →
          (s.worker i).userSpace = .submitted ∧ 0 < (s.worker i).eventFd) := by
  have I := h.inv
  obtain ⟨hreached, hall⟩ := I.stops c m hm
  refine ⟨hall, fun i hi => ⟨(hreached i hi).1, fun hpc hcq hfail => ?_⟩⟩
  have hd : s.start ≠ .destroyed := by
    intro hd
    have hlt : i < n := I.lt_of_born (by rw [hpc]; simp)
    have := I.joined i (by rw [hd]; exact hlt)
    rw [hpc] at this
    cases this
  exact (I.ok hd i).wakes hpc hcq (hreached i hi).1 (hreached i hi).2 hfail

/-- The first event that the worker executes calls `stop`. -/
theorem stop_reaches_itself : ∃ s, Reachable 1 s ∧ ∃ m, (.worker 0, m) ∈ s.stops ∧ m = 1 ∧
    (s.worker 0).requested = true := by
  have h : Reachable 1 _ := Reachable.of_run (l :=
    [.start, .start, .start, .start, .start, .worker 0 false 0, .worker 0 false 0,
      .worker 0 false 0, .worker 0 false 0, .stop (.worker 0), .stop (.worker 0),
      .stop (.worker 0), .stop (.worker 0), .stop (.worker 0)]) rfl
  have hm : (Caller.worker 0, 1) ∈ [(Caller.worker 0, 1)] := List.mem_singleton_self _
  obtain ⟨-, hreq⟩ := stop_reaches h hm
  exact ⟨_, h, 1, hm, (stop_reaches h hm).1 0 rfl, (hreq 0 Nat.one_pos).1⟩

/-! ## The frames of `run_user_space` -/

theorem Ok.destruct {w : Worker} (h : Ok w) (hpc : w.pc = .unborn ∨ w.pc = .exited) :
    w.destruct.freed = w.destruct.made ∧ w.destruct.made ≤ 1 := by
  have hphase := h.phase
  have hmade := h.made
  have hfreed := h.freed
  have hhandle := h.handle
  rcases hpc with hpc | hpc <;> rw [hpc] at hphase
  · rw [hphase] at hmade hfreed hhandle
    simp [Worker.destruct, hmade, hfreed, hhandle, UserSpace.suspended, UserSpace.isEnded]
  · rcases hphase with hu | ⟨ok, hu⟩ | ⟨failed, hu⟩ <;> rw [hu] at hmade hfreed hhandle <;>
      simp [Worker.destruct, hmade, hfreed, hhandle, UserSpace.suspended, UserSpace.isEnded]

theorem workerStep_start {i : Nat} {full : Bool} {amount : Nat}
    (hs : s.workerStep i full amount = some s') : s'.start = s.start := by
  simp only [State.workerStep] at hs
  split at hs
  · obtain rfl := Option.some.inj hs
    rfl
  · split at hs
    · obtain rfl := Option.some.inj hs
      rfl
    · cases hs
  · obtain ⟨w, -, rfl⟩ := Option.map_eq_some_iff.mp hs
    rfl

theorem stopStep_start {c : Caller} (hs : s.stopStep c = some s') : s'.start = s.start := by
  simp only [State.stopStep] at hs
  split at hs
  · cases c with
    | worker i =>
        simp only at hs
        split at hs
        · obtain rfl := Option.some.inj hs
          rfl
        · cases hs
    | other k =>
        obtain rfl := Option.some.inj hs
        rfl
  · split at hs
    · obtain rfl := Option.some.inj hs
      rfl
    · cases hs
  · split at hs
    · split at hs <;> obtain rfl := Option.some.inj hs <;> rfl
    · obtain rfl := Option.some.inj hs
      rfl
  · obtain rfl := Option.some.inj hs
    rfl

/-- The last step before the destruction. -/
theorem step_destroyed {a : Action} (hs : step n s a = some s') (hd : s'.start = .destroyed) :
    s.start = .returned ∧ s'.worker = fun i => (s.worker i).destruct := by
  simp only [step] at hs
  split at hs
  · cases hs
  rename_i hne
  cases a with
  | start =>
      cases hq : s.start with
      | returned =>
          simp only [State.startStep, hq] at hs
          obtain rfl := Option.some.inj hs
          exact ⟨rfl, rfl⟩
      | destroyed => exact absurd hq hne
      | idle | arrive =>
          simp only [State.startStep, hq] at hs
          obtain rfl := Option.some.inj hs
          cases hd
      | lock | latch | clear =>
          simp only [State.startStep, hq] at hs
          split at hs
          · obtain rfl := Option.some.inj hs
            cases hd
          · cases hs
      | create k =>
          simp only [State.startStep, hq] at hs
          split at hs <;> obtain rfl := Option.some.inj hs <;> cases hd
      | join k =>
          simp only [State.startStep, hq] at hs
          split at hs
          · split at hs
            · obtain rfl := Option.some.inj hs
              cases hd
            · cases hs
          · obtain rfl := Option.some.inj hs
            cases hd
  | worker i full amount =>
      simp only at hs
      split at hs
      · exact absurd ((workerStep_start hs).symm.trans hd) hne
      · cases hs
  | outside i o =>
      obtain ⟨w, -, rfl⟩ := Option.map_eq_some_iff.mp hs
      exact absurd hd hne
  | stop c => exact absurd ((stopStep_start hs).symm.trans hd) hne

theorem Reachable.destroyed (h : Reachable n s) (hd : s.start = .destroyed) (i : Nat) :
    (s.worker i).freed = (s.worker i).made ∧ (s.worker i).made ≤ 1 := by
  refine h.invariant (I := fun s => s.start = .destroyed →
    (s.worker i).freed = (s.worker i).made ∧ (s.worker i).made ≤ 1) ?_ ?_ hd
  · rintro s rfl hd
    cases hd
  · intro s a s' h _ _ hs hd
    obtain ⟨hq, hw⟩ := step_destroyed hs hd
    have I := Reachable.inv h
    have hpc : (s.worker i).pc = .unborn ∨ (s.worker i).pc = .exited := by
      by_cases hi : i < n
      · exact Or.inr (I.joined i (by rw [hq]; exact hi))
      · exact Or.inl ((I.born i).mpr (by rw [hq]; exact hi))
    rw [hw]
    exact Ok.destruct (I.ok (by rw [hq]; simp) i) hpc

/-- **Every frame of `run_user_space` is freed once.** It is freed when the coroutine returns, so
that a completion of its read and the handle that the destructor of the event loop destroys belong
to a frame that is there; the destructor frees what is left. -/
theorem userSpace_freedOnce (h : Reachable n s) (i : Nat) :
    (s.worker i).made ≤ 1 ∧ (s.worker i).freed ≤ (s.worker i).made ∧
      (s.start = .destroyed → (s.worker i).freed = (s.worker i).made) ∧
      (s.start ≠ .destroyed →
        (s.worker i).items.countP Item.isUserRead ≤ 1 ∧
        ((∃ ok, .userRead ok ∈ (s.worker i).items) ∨ (s.worker i).handle = true ∨
          (s.worker i).userSpace.running = true →
            (s.worker i).made = 1 ∧ (s.worker i).freed = 0)) := by
  by_cases hd : s.start = .destroyed
  · obtain ⟨hfreed, hmade⟩ := h.destroyed hd i
    exact ⟨hmade, hfreed.le, fun _ => hfreed, fun hne => absurd hd hne⟩
  · have hok : Ok (s.worker i) := h.inv.ok hd i
    have hmade := hok.made
    have hfreed := hok.freed
    refine ⟨?_, ?_, fun h => absurd h hd, fun _ => ⟨hok.once, fun hlive => ?_⟩⟩
    · rw [hmade]
      split <;> omega
    · rw [hmade, hfreed]
      cases (s.worker i).userSpace <;> simp [UserSpace.isEnded]
    · have hlive : (∃ ok, (s.worker i).userSpace = .completed ok) ∨
          (s.worker i).userSpace.suspended = true ∨ (s.worker i).userSpace.running = true := by
        refine hlive.imp (fun ⟨ok, hok'⟩ => ⟨ok, (hok.items ok).mp hok'⟩) (Or.imp ?_ id)
        rw [hok.handle]
        exact id
      rw [hmade, hfreed]
      cases hu : (s.worker i).userSpace with
      | unborn | ended failed => simp [hu, UserSpace.suspended, UserSpace.running] at hlive
      | _ => exact ⟨rfl, rfl⟩

/-- The worker exits because it cannot wait for completions, and the destructor frees the frame. -/
theorem userSpace_freedOnce_destructor : ∃ s, Reachable 1 s ∧ s.start = .destroyed ∧
    (s.worker 0).made = 1 ∧ (s.worker 0).freed = (s.worker 0).made := by
  have h : Reachable 1 _ := Reachable.of_run (l :=
    [.start, .start, .start, .start, .start, .worker 0 false 0, .worker 0 false 0,
      .worker 0 false 0, .worker 0 false 0, .worker 0 false 0, .worker 0 false 0,
      .worker 0 false 0, .worker 0 false 0, .outside 0 .waitFails, .start, .start, .start,
      .start]) rfl
  have h : Reachable 1 _ := h.next (a := .start) (fun _ _ _ => rfl) rfl
  exact ⟨_, h, rfl, rfl, (userSpace_freedOnce h 0).2.2.1 rfl⟩

/-! ## `start` returns

From now on nobody calls `stop`, no operation completes but the reads of the eventfds, and the
submission queues have room. -/

def quiet (s : State) : Action → Prop
  | .start => s.start ≠ .returned
  | .worker _ full _ => full = false
  | .outside _ o => o = .read
  | .stop _ => False

instance (s : State) (a : Action) : Decidable (quiet s a) := by
  cases a <;> unfold quiet <;> infer_instance

def Start.rank (n : Nat) : Start → Nat
  | .idle => 2 * n + 7
  | .lock => 2 * n + 6
  | .create k => (n - k) + n + 5
  | .arrive => n + 4
  | .latch => n + 3
  | .join k => (n - k) + 2
  | .clear => 1
  | .returned | .destroyed => 0

/-- A bound on the steps until `start` returns. -/
def State.rank (s : State) (n : Nat) : Nat :=
  s.start.rank n + ∑ i ∈ Finset.range n, (s.worker i).rank

/-- A stop has reached all workers, and their reads work. -/
structure Ending (n : Nat) (s : State) : Prop where
  inv : Inv n s
  here : s.start ≠ .destroyed
  idle : ∀ c, s.stop c = .idle
  stopping : ∀ i < n, Stopping (s.worker i)

theorem rank_setWorker {i : Nat} {w : Worker} (hi : i < n) (hlt : w.rank < (s.worker i).rank) :
    (s.setWorker i w).rank n < s.rank n := by
  refine Nat.add_lt_add_left (Finset.sum_lt_sum (fun j _ => ?_) ⟨i, Finset.mem_range.mpr hi, ?_⟩) _
  · rw [setWorker_worker]
    split
    · rename_i hj
      exact hj ▸ hlt.le
    · exact Nat.le_refl _
  · rw [setWorker_worker, if_pos rfl]
    exact hlt

theorem Ending.setWorker (E : Ending n s) {i : Nat} {w : Worker} (I' : Inv n (s.setWorker i w))
    (hw : Stopping w) : Ending n (s.setWorker i w) where
  inv := I'
  here := E.here
  idle := E.idle
  stopping := fun j hj => by
    rw [setWorker_worker]
    split
    · exact hw
    · exact E.stopping j hj

/-- **A step of `start`.** -/
theorem Ending.startStep (E : Ending n s) (hs : s.startStep n = some s')
    (hq : s.start ≠ .returned) : s'.rank n < s.rank n ∧ Ending n s' := by
  have I' := E.inv.startStep hs
  have hgo : ∀ {q : Start}, s'.start = q → s'.worker = s.worker → s'.stop = s.stop →
      q ≠ .destroyed → q.rank n < s.start.rank n → s'.rank n < s.rank n ∧ Ending n s' := by
    rintro q rfl hworker hstop hne hlt
    refine ⟨?_, I', hne, fun c => hstop ▸ E.idle c, fun i hi => hworker ▸ E.stopping i hi⟩
    rw [State.rank, State.rank, hworker]
    omega
  cases hstart : s.start with
  | idle | arrive =>
      simp only [State.startStep, hstart] at hs
      obtain rfl := Option.some.inj hs
      exact hgo rfl rfl rfl (by simp) (by simp [hstart, Start.rank])
  | lock | latch | clear =>
      simp only [State.startStep, hstart] at hs
      split at hs
      · obtain rfl := Option.some.inj hs
        refine hgo rfl rfl rfl (by simp) ?_
        rw [hstart]
        simp only [Start.rank]
        omega
      · cases hs
  | create k =>
      simp only [State.startStep, hstart] at hs
      split at hs
      · rename_i hk
        obtain rfl := Option.some.inj hs
        have S := E.stopping k hk
        have hpc : (s.worker k).pc = .unborn :=
          (E.inv.born k).mpr (by rw [hstart]; exact Nat.lt_irrefl k)
        have hrank : ({ s.worker k with pc := .created } : Worker).rank < (s.worker k).rank := by
          simp only [Worker.rank, hpc, Pc.rank]
          omega
        refine ⟨?_, I', by simp, E.idle, fun i hi => ?_⟩
        · have := rank_setWorker (s := s) hk hrank
          simp only [State.rank, State.setWorker, hstart, Start.rank] at this ⊢
          omega
        · show Stopping ((s.setWorker k _).worker i)
          rw [setWorker_worker]
          split
          · exact ⟨S.ok.create hpc, S.requested, S.owed, S.healthy⟩
          · exact E.stopping i hi
      · obtain rfl := Option.some.inj hs
        refine hgo rfl rfl rfl (by simp) ?_
        rw [hstart]
        simp only [Start.rank]
        omega
  | join k =>
      simp only [State.startStep, hstart] at hs
      split at hs
      · split at hs
        · obtain rfl := Option.some.inj hs
          refine hgo rfl rfl rfl (by simp) ?_
          rw [hstart]
          simp only [Start.rank]
          omega
        · cases hs
      · obtain rfl := Option.some.inj hs
        refine hgo rfl rfl rfl (by simp) ?_
        rw [hstart]
        simp only [Start.rank]
        omega
  | returned => exact absurd hstart hq
  | destroyed => exact absurd hstart E.here

/-- **A step of a worker.** -/
theorem Ending.workerStep (E : Ending n s) {i amount : Nat}
    (hs : s.workerStep i false amount = some s') : s'.rank n < s.rank n ∧ Ending n s' := by
  have I' := E.inv.workerStep E.here (E.idle (.worker i)) hs
  have hi : i < n := by
    refine E.inv.lt_of_born fun hpc => ?_
    simp [State.workerStep, Worker.advance, hpc] at hs
  have S := E.stopping i hi
  simp only [State.workerStep] at hs
  split at hs
  · rename_i hpc
    obtain rfl := Option.some.inj hs
    have hrank : ({ s.worker i with pc := .latch } : Worker).rank < (s.worker i).rank := by
      simp only [Worker.rank, hpc, Pc.rank]
      omega
    refine ⟨rank_setWorker (s := s) hi hrank, I', E.here, E.idle, fun j hj => ?_⟩
    rw [setWorker_worker]
    split
    · exact ⟨S.ok.arrive hpc, S.requested, S.owed, S.healthy⟩
    · exact E.stopping j hj
  · rename_i hpc
    split at hs
    · obtain rfl := Option.some.inj hs
      have hu : (s.worker i).userSpace = .unborn := by
        have := S.ok.phase
        rwa [hpc] at this
      have hrank : (s.worker i).enter.rank < (s.worker i).rank := by
        simp only [Worker.rank, Worker.enter, hpc, hu, Pc.rank, UserSpace.rank]
        omega
      exact ⟨rank_setWorker hi hrank, E.setWorker I' ⟨S.ok.enter hpc, S.requested, S.owed, rfl⟩⟩
    · cases hs
  · obtain ⟨w, hw, rfl⟩ := Option.map_eq_some_iff.mp hs
    obtain ⟨hrank, S'⟩ := S.alone (a := .advance amount) hw
    exact ⟨rank_setWorker hi hrank, E.setWorker I' S'⟩

theorem Ending.step (E : Ending n s) {a : Action} (hq : quiet s a) (hs : step n s a = some s') :
    s'.rank n < s.rank n ∧ Ending n s' := by
  have I' := E.inv.step hs
  simp only [Lifecycle.step, if_neg E.here] at hs
  cases a with
  | start => exact E.startStep hs hq
  | worker i full amount =>
      obtain rfl : full = false := hq
      simp only at hs
      rw [if_pos (E.idle (.worker i))] at hs
      exact E.workerStep hs
  | outside i o =>
      obtain rfl : o = .read := hq
      obtain ⟨w, hw, rfl⟩ := Option.map_eq_some_iff.mp hs
      have hi : i < n := by
        refine E.inv.lt_of_born fun hpc => ?_
        have hphase := (E.inv.ok E.here i).phase
        rw [hpc] at hphase
        have hphase : (s.worker i).userSpace = .unborn := hphase
        simp [Worker.outside, hphase] at hw
      obtain ⟨hrank, S'⟩ := (E.stopping i hi).alone (a := .read) hw
      exact ⟨rank_setWorker hi hrank, E.setWorker I' S'⟩
  | stop c => cases hq

/-- When nobody has a step, every worker has exited, if all threads are there and the latch is open
for `start`. -/
theorem Ending.stuck_worker (E : Ending n s) (hstuck : ∀ a, quiet s a → Lifecycle.step n s a = none)
    (hborn : s.start.born n = n) (harrived : s.start.arrived = true) {i : Nat} (hi : i < n) :
    (s.worker i).pc = .exited := by
  have hworker : ∀ j amount, s.workerStep j false amount = none := by
    intro j amount
    have := hstuck (.worker j false amount) rfl
    simpa [Lifecycle.step, E.here, E.idle (.worker j)] using this
  have hadvance : ∀ j amount, (s.worker j).pc.inRun = true →
      (s.worker j).advance false amount = none := by
    intro j amount hrun
    have := hworker j amount
    simp only [State.workerStep] at this
    split at this
    · rename_i hpc
      rw [hpc] at hrun
      cases hrun
    · rename_i hpc
      rw [hpc] at hrun
      cases hrun
    · exact Option.map_eq_none_iff.mp this
  -- everybody has arrived at the latch
  have hall : ∀ j < n, arrivedAt (s.worker j).pc = true := by
    intro j hj
    have hunborn : (s.worker j).pc ≠ .unborn := fun hpc =>
      (E.inv.born j).mp hpc (by rw [hborn]; exact hj)
    have := hworker j 0
    cases hpc : (s.worker j).pc with
    | unborn => exact absurd hpc hunborn
    | created | callback | arrive =>
        simp [State.workerStep, Worker.advance, hpc, (E.stopping j hj).requested] at this
    | _ => rfl
  have hzero : s.latch = 0 := by
    refine E.inv.latch.eq_zero_iff.mpr fun p hp => ?_
    cases p with
    | none => exact E.inv.countedStart.mpr harrived
    | some j => exact (E.inv.countedWorker j).mpr (hall j (mem_parties.mp hp j rfl))
  have hrun : (s.worker i).pc.inRun = true := by
    have harr := hall i hi
    have := hworker i 0
    cases hpc : (s.worker i).pc with
    | latch => simp [State.workerStep, hpc, hzero] at this
    | unborn | created | callback | arrive =>
        rw [hpc] at harr
        cases harr
    | _ => rfl
  refine (E.stopping i hi).exited hrun fun a => ?_
  cases a with
  | advance amount => exact hadvance i amount hrun
  | read =>
      have := hstuck (.outside i .read) rfl
      simpa [Lifecycle.step, E.here, Worker.alone] using this

/-- As long as `start` has not returned, somebody has a step. -/
theorem Ending.returned (E : Ending n s)
    (hstuck : ∀ a, quiet s a → Lifecycle.step n s a = none) : s.start = .returned := by
  by_contra hne
  have hstart : s.startStep n = none := by
    have := hstuck .start hne
    simpa [Lifecycle.step, E.here] using this
  have hfree : s.start.creates = false → s.mtx = none := by
    intro hc
    cases hm : s.mtx with
    | none => rfl
    | some holder =>
        cases holder with
        | start =>
            have := E.inv.mtxStart.mp hm
            rw [hc] at this
            cases this
        | stop c =>
            have := (E.inv.mtxStop c).mp hm
            rw [E.idle c] at this
            cases this
  cases hq : s.start with
  | idle | arrive => simp [State.startStep, hq] at hstart
  | lock | clear => simp [State.startStep, hq, hfree (by rw [hq]; rfl)] at hstart
  | create k =>
      simp only [State.startStep, hq] at hstart
      split at hstart <;> cases hstart
  | latch =>
      have hzero : s.latch = 0 := by
        refine E.inv.latch.eq_zero_iff.mpr fun p hp => ?_
        cases p with
        | none => exact E.inv.countedStart.mpr (by rw [hq]; rfl)
        | some j =>
            have hpc := E.stuck_worker hstuck (by rw [hq]; rfl) (by rw [hq]; rfl)
              (mem_parties.mp hp j rfl)
            exact (E.inv.countedWorker j).mpr (by rw [hpc]; rfl)
      simp [State.startStep, hq, hzero] at hstart
  | join k =>
      simp only [State.startStep, hq] at hstart
      split at hstart
      · rename_i hk
        rw [if_pos (E.stuck_worker hstuck (by rw [hq]; rfl) (by rw [hq]; rfl) hk)] at hstart
        cases hstart
      · cases hstart
  | returned => exact hne hq
  | destroyed => exact E.here hq

/-- **A stop makes `start` return.** A call of `stop` that has found all threads has returned, and
the workers are left alone: then there are at most `rank` steps, and who cannot go on has come out
of `start`. -/
theorem stop_returns (h : Reachable n s) (hd : s.start ≠ .destroyed) {c : Caller}
    (hm : (c, n) ∈ s.stops) (hidle : ∀ c, s.stop c = .idle)
    (hfail : ∀ i < n, (s.worker i).userSpace.failing = false) {l : List Action}
    (hl : run (step n) quiet s l = some s') :
    l.length ≤ s.rank n ∧
      ((∀ a, quiet s' a → step n s' a = none) → s'.start = .returned) := by
  have I := h.inv
  have E : Ending n s := ⟨I, hd, hidle, fun i hi =>
    ⟨I.ok hd i, ((I.stops c n hm).1 i hi).1, ((I.stops c n hm).1 i hi).2, hfail i hi⟩⟩
  obtain ⟨m, hlen, E', -⟩ := run_bounded (I := fun m s => Ending n s ∧ s.rank n ≤ m)
    (fun m s a s' h hq hs => by
      obtain ⟨hlt, E'⟩ := h.1.step hq hs
      exact ⟨s'.rank n, Nat.lt_of_lt_of_le hlt h.2, E', Nat.le_refl _⟩) ⟨E, Nat.le_refl _⟩ hl
  exact ⟨by omega, E'.returned⟩

/-- A stop comes before the thread of the worker has registered its callback. -/
theorem stop_returns_early : ∃ s l s', Reachable 1 s ∧ run (step 1) quiet s l = some s' ∧
    l.length ≤ s.rank 1 ∧ ((∀ a, quiet s' a → step 1 s' a = none) → s'.start = .returned) := by
  have h : Reachable 1 _ := Reachable.of_run (l :=
    [.start, .start, .start, .start, .stop (.other 0), .stop (.other 0), .stop (.other 0),
      .stop (.other 0)]) rfl
  have hm : (Caller.other 0, 1) ∈ [(Caller.other 0, 1)] := List.mem_singleton_self _
  refine ⟨_, [.start, .worker 0 false 0, .worker 0 false 0], _, h, rfl,
    stop_returns h nofun hm (fun c => ?_) (fun i hi => ?_) rfl⟩
  · match c with
    | .worker i => rfl
    | .other 0 => rfl
    | .other (k + 1) => rfl
  · obtain rfl := Nat.lt_one_iff.mp hi
    rfl

end

end Zab.Lifecycle
