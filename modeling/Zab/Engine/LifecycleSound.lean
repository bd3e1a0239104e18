import Zab.Engine.Lifecycle

set_option autoImplicit false

/-! # A stop reaches every worker

`Inv` says which threads there are at each point of `start`, who has the mutex, who has arrived at
the latch, and how far the calls of `stop` are. A handler runs only after the latch has opened, and
`start` forgets the threads only after all of them have exited; so a call of `stop` by a handler
finds all workers.
-/

namespace Zab.Lifecycle

open Automaton Workers

/-- The threads below this one have been created. -/
def Start.born (n : Nat) : Start → Nat
  | .idle | .lock => 0
  | .create k => k
  | .arrive | .latch | .join _ | .clear | .returned | .destroyed => n

/-- The size of `threads_`. -/
def Start.threads (n : Nat) : Start → Nat
  | .idle | .lock | .returned | .destroyed => 0
  | .create k => k
  | .arrive | .latch | .join _ | .clear => n

/-- The threads below this one have been joined. -/
def Start.joined (n : Nat) : Start → Nat
  | .idle | .lock | .create _ | .arrive | .latch => 0
  | .join k => k
  | .clear | .returned | .destroyed => n

/-- `start` has arrived at the latch. -/
def Start.arrived : Start → Bool
  | .idle | .lock | .create _ | .arrive => false
  | .latch | .join _ | .clear | .returned | .destroyed => true

def Start.creates : Start → Bool
  | .create _ => true
  | .idle | .lock | .arrive | .latch | .join _ | .clear | .returned | .destroyed => false

/-- The call of `stop` has the mutex. -/
def Stop.holds : Stop → Bool
  | .request _ | .callback _ => true
  | .idle | .lock => false

/-- The worker has arrived at the latch. -/
def arrivedAt : Pc → Bool
  | .unborn | .created | .callback | .arrive => false
  | .latch | .userSpace | .submit | .test | .wait | .peek | .execute _ | .handler _
  | .exited => true

/-- How far a call of `stop` is. -/
def Progress (worker : Nat → Worker) : Stop → Prop
  | .idle | .lock => True
  | .request j => ∀ i < j, (worker i).requested = true
  | .callback j => (∀ i < j, (worker i).requested = true) ∧ (worker j).requested = true

/-- Everybody who arrives at the latch. -/
def parties (n : Nat) : List (Option Nat) := none :: (List.range n).map some

structure Inv (n : Nat) (s : State) : Prop where
  ok : s.start ≠ .destroyed → ∀ i, Ok (s.worker i)
  born : ∀ i, (s.worker i).pc = .unborn ↔ ¬ i < s.start.born n
  bound : s.start.born n ≤ n
  threads : s.threads = s.start.threads n
  mtxStart : s.mtx = some .start ↔ s.start.creates = true
  mtxStop : ∀ c, s.mtx = some (.stop c) ↔ (s.stop c).holds = true
  latch : Countdown (parties n) s.counted s.latch
  countedStart : none ∈ s.counted ↔ s.start.arrived = true
  countedWorker : ∀ i, some i ∈ s.counted ↔ arrivedAt (s.worker i).pc = true
  opened : ∀ i, (s.worker i).pc.inRun = true → s.latch = 0
  joined : ∀ i < s.start.joined n, (s.worker i).pc = .exited
  caller : ∀ i, s.stop (.worker i) ≠ .idle → (s.worker i).inHandler = true
  progress : ∀ c, Progress s.worker (s.stop c)
  owed : ∀ i, (s.worker i).owed = true → ∃ c, s.stop c = .callback i
  stops : ∀ c m, (c, m) ∈ s.stops →
    (∀ i < m, (s.worker i).requested = true ∧ (s.worker i).owed = false) ∧
      ∀ i, c = .worker i → m = n

section

variable {n : Nat} {s s' : State}

theorem inv_init : Inv n (init n) where
  ok := fun _ _ => ok_init
  born := fun i => by simp [init, Workers.init, Start.born]
  bound := Nat.zero_le n
  threads := rfl
  mtxStart := by simp [init, Start.creates]
  mtxStop := by simp [init, Stop.holds]
  latch := by
    have hnd : (parties n).Nodup := by
      refine List.nodup_cons.mpr ⟨by simp, ?_⟩
      exact List.Nodup.map (Option.some_injective _) List.nodup_range
    have := Countdown.start hnd
    simpa [init, parties] using this
  countedStart := by simp [init, Start.arrived]
  countedWorker := by simp [init, Workers.init, arrivedAt]
  opened := fun i h => by cases h
  joined := fun i h => absurd h (Nat.not_lt_zero i)
  caller := fun i h => absurd rfl h
  progress := fun c => trivial
  owed := fun i h => by cases h
  stops := fun c m h => by cases h

/-! ## Frames -/

theorem Progress.mono {worker worker' : Nat → Worker} {q : Stop} (h : Progress worker q)
    (hle : ∀ i, (worker i).requested = true → (worker' i).requested = true) :
    Progress worker' q := by
  cases q with
  | idle | lock => trivial
  | request j => exact fun i hi => hle i (h i hi)
  | callback j => exact ⟨fun i hi => hle i (h.1 i hi), hle j h.2⟩

@[simp] theorem setWorker_worker (s : State) (i : Nat) (w : Worker) (j : Nat) :
    (s.setWorker i w).worker j = if j = i then w else s.worker j := Function.update_apply ..

/-- **A worker changes, but not its token.** The calls of `stop` are as far as they were. -/
theorem Inv.sameToken (I : Inv n s) {i : Nat} {w : Worker}
    (hr : w.requested = (s.worker i).requested) (ho : w.owed = (s.worker i).owed) :
    (∀ c, Progress (s.setWorker i w).worker (s.stop c)) ∧
      (∀ j, ((s.setWorker i w).worker j).owed = true → ∃ c, s.stop c = .callback j) ∧
      ∀ c m, (c, m) ∈ s.stops →
        (∀ j < m, ((s.setWorker i w).worker j).requested = true ∧
          ((s.setWorker i w).worker j).owed = false) ∧ ∀ j, c = .worker j → m = n := by
  have hsame : ∀ j, ((s.setWorker i w).worker j).requested = (s.worker j).requested ∧
      ((s.setWorker i w).worker j).owed = (s.worker j).owed := by
    intro j
    rw [setWorker_worker]
    split
    · rename_i hj
      rw [hj]
      exact ⟨hr, ho⟩
    · exact ⟨rfl, rfl⟩
  refine ⟨fun c => (I.progress c).mono fun j hj => (hsame j).1.trans hj, fun j hj => ?_,
    fun c m hm => ?_⟩
  · exact I.owed j ((hsame j).2.symm.trans hj)
  · obtain ⟨h₁, h₂⟩ := I.stops c m hm
    exact ⟨fun j hj => ⟨(hsame j).1.trans (h₁ j hj).1, (hsame j).2.trans (h₁ j hj).2⟩, h₂⟩

/-- What a step of a worker, or something from outside, may change of it. -/
structure Frame (w w' : Worker) : Prop where
  born : w'.pc = .unborn ↔ w.pc = .unborn
  arrived : arrivedAt w'.pc = arrivedAt w.pc
  inRun : w'.pc.inRun = w.pc.inRun
  exited : w.pc = .exited → w'.pc = .exited
  requested : w'.requested = w.requested
  owed : w'.owed = w.owed

/-- **A worker changes, and nothing else.** -/
theorem Inv.setWorker (I : Inv n s) {i : Nat} {w : Worker} (F : Frame (s.worker i) w)
    (hok : s.start ≠ .destroyed → Ok w)
    (hcaller : s.stop (.worker i) ≠ .idle → (s.worker i).inHandler = true → w.inHandler = true) :
    Inv n (s.setWorker i w) := by
  obtain ⟨hprogress, howed, hstops⟩ := I.sameToken F.requested F.owed
  refine { I with
    ok := ?_, born := ?_, countedWorker := ?_, opened := ?_, joined := ?_, caller := ?_
    progress := hprogress, owed := howed, stops := hstops }
  · intro hd j
    rw [setWorker_worker]
    split
    · exact hok hd
    · exact I.ok hd j
  · intro j
    rw [setWorker_worker]
    split
    · rename_i hj
      rw [hj, F.born]
      exact I.born i
    · exact I.born j
  · intro j
    rw [setWorker_worker]
    split
    · rename_i hj
      rw [hj, F.arrived]
      exact I.countedWorker i
    · exact I.countedWorker j
  · intro j hj
    rw [setWorker_worker] at hj
    split at hj
    · rw [F.inRun] at hj
      exact I.opened i hj
    · exact I.opened j hj
  · intro j hj
    rw [setWorker_worker]
    split
    · rename_i hji
      exact F.exited (hji ▸ I.joined j hj)
    · exact I.joined j hj
  · intro j hj
    rw [setWorker_worker]
    split
    · rename_i hji
      subst hji
      exact hcaller hj (I.caller j hj)
    · exact I.caller j hj

theorem frame_runUserSpace {w w' : Worker} {full : Bool} (hs : w.runUserSpace full = some w') :
    Frame w w' := by
  unfold Worker.runUserSpace at hs
  split at hs
  · obtain rfl := Option.some.inj hs
    exact ⟨Iff.rfl, rfl, rfl, id, rfl, rfl⟩
  · split at hs <;> obtain rfl := Option.some.inj hs <;> exact ⟨Iff.rfl, rfl, rfl, id, rfl, rfl⟩
  · split at hs
    · obtain rfl := Option.some.inj hs
      exact ⟨Iff.rfl, rfl, rfl, id, rfl, rfl⟩
    · split at hs <;> obtain rfl := Option.some.inj hs <;> exact ⟨Iff.rfl, rfl, rfl, id, rfl, rfl⟩
  all_goals cases hs

theorem frame_goto {w w' : Worker} {p q : Pc} (hpc : w.pc = p) (hpc' : w'.pc = q)
    (hp : p ≠ .unborn ∧ p ≠ .exited) (hq : q ≠ .unborn) (ha : arrivedAt q = arrivedAt p)
    (hr : q.inRun = p.inRun) (hreq : w'.requested = w.requested) (howed : w'.owed = w.owed) :
    Frame w w' := by
  subst hpc hpc'
  exact ⟨iff_of_false hq hp.1, ha, hr, fun h => absurd h hp.2, hreq, howed⟩

theorem submit_frame (w : Worker) :
    w.submit.requested = w.requested ∧ w.submit.owed = w.owed := by
  unfold Worker.submit
  split <;> exact ⟨rfl, rfl⟩

theorem frame_advance {w w' : Worker} {full : Bool} {amount : Nat}
    (hs : w.advance full amount = some w') : Frame w w' := by
  obtain ⟨hsr, hso⟩ := submit_frame w
  cases hpc : w.pc with
  | unborn | arrive | latch | exited => simp [Worker.advance, hpc] at hs
  | created | test =>
      simp only [Worker.advance, hpc] at hs
      split at hs <;> obtain rfl := Option.some.inj hs <;>
        exact frame_goto hpc rfl (by simp) (by simp) rfl rfl rfl rfl
  | peek =>
      simp only [Worker.advance, hpc] at hs
      split at hs
      · obtain rfl := Option.some.inj hs
        exact frame_goto hpc rfl (by simp) (by simp) rfl rfl rfl rfl
      · split at hs
        · obtain rfl := Option.some.inj hs
          exact frame_goto hpc rfl (by simp) (by simp) rfl rfl rfl rfl
        · cases hs
  | callback | handler rest =>
      simp only [Worker.advance, hpc] at hs
      obtain rfl := Option.some.inj hs
      exact frame_goto hpc rfl (by simp) (by simp) rfl rfl rfl rfl
  | submit =>
      simp only [Worker.advance, hpc] at hs
      obtain rfl := Option.some.inj hs
      exact frame_goto hpc rfl (by simp) (by simp) rfl rfl hsr hso
  | wait =>
      simp only [Worker.advance, hpc] at hs
      split at hs
      · cases hs
      · obtain rfl := Option.some.inj hs
        exact frame_goto hpc rfl (by simp) (by simp) rfl rfl rfl rfl
  | userSpace =>
      simp only [Worker.advance, hpc] at hs
      split at hs
      · exact frame_runUserSpace hs
      · obtain rfl := Option.some.inj hs
        exact frame_goto hpc rfl (by simp) (by simp) rfl rfl rfl rfl
  | execute rest =>
      simp only [Worker.advance, hpc] at hs
      split at hs
      · exact frame_runUserSpace hs
      · split at hs <;> obtain rfl := Option.some.inj hs
        · exact frame_goto hpc rfl (by simp) (by simp) rfl rfl hsr hso
        all_goals
          exact frame_goto hpc rfl (by simp) (by simp) rfl rfl rfl rfl

/-- While the read of the eventfd is in the kernel, only a handler runs code of the user. -/
theorem inHandler_complete {w w' : Worker} (hu : w.userSpace = .submitted) (hpc : w'.pc = w.pc)
    (h : w.inHandler = true) : w'.inHandler = true := by
  unfold Worker.inHandler at h ⊢
  rw [hu] at h
  rw [hpc]
  cases hq : w.pc with
  | handler rest => rfl
  | _ =>
      rw [hq] at h
      cases h

theorem frame_outside {w w' : Worker} {o : Outside} (hs : w.outside o = some w') :
    Frame w w' ∧ (w.inHandler = true → w'.inHandler = true) := by
  cases o with
  | wake | other =>
      obtain rfl := Option.some.inj hs
      exact ⟨⟨Iff.rfl, rfl, rfl, id, rfl, rfl⟩, id⟩
  | read =>
      simp only [Worker.outside] at hs
      split at hs
      · rename_i hc
        obtain rfl := Option.some.inj hs
        exact ⟨⟨Iff.rfl, rfl, rfl, id, rfl, rfl⟩, inHandler_complete hc.1 rfl⟩
      · cases hs
  | readFails =>
      simp only [Worker.outside] at hs
      split at hs
      · rename_i hu
        obtain rfl := Option.some.inj hs
        exact ⟨⟨Iff.rfl, rfl, rfl, id, rfl, rfl⟩, inHandler_complete hu rfl⟩
      · cases hs
  | waitFails =>
      simp only [Worker.outside] at hs
      split at hs
      · rename_i hpc
        obtain rfl := Option.some.inj hs
        refine ⟨frame_goto hpc rfl (by simp) (by simp) rfl rfl rfl rfl, fun h => ?_⟩
        simp [Worker.inHandler, hpc] at h
      · cases hs

/-! ## `start` -/

/-- `start` goes on, and nothing else changes but the mutex, which it takes or releases. -/
theorem Inv.startGoto (I : Inv n s) {q : Start} {mtx : Option Holder} (hs : s.start ≠ .destroyed)
    (hborn : q.born n = s.start.born n)
    (hthreads : q.threads n = s.threads) (harrived : q.arrived = s.start.arrived)
    (hjoined : ∀ i < q.joined n, (s.worker i).pc = .exited)
    (hstart : mtx = some .start ↔ q.creates = true)
    (hstop : ∀ c, mtx = some (.stop c) ↔ (s.stop c).holds = true) :
    Inv n { s with start := q, mtx := mtx } :=
  { I with
    ok := fun _ => I.ok hs
    born := by
      intro i
      rw [hborn]
      exact I.born i
    bound := by
      rw [hborn]
      exact I.bound
    threads := hthreads.symm
    mtxStart := hstart
    mtxStop := hstop
    countedStart := by
      rw [harrived]
      exact I.countedStart
    joined := hjoined }

/-- A thread is created. -/
theorem Inv.create (I : Inv n s) {k : Nat} (hs : s.start = .create k) (hk : k < n) :
    Inv n { s.setWorker k { s.worker k with pc := .created } with
      threads := s.threads + 1, start := .create (k + 1) } := by
  have hd : s.start ≠ .destroyed := by simp [hs]
  have hborn := I.born
  rw [hs] at hborn
  have hpc : (s.worker k).pc = .unborn := (hborn k).mpr (Nat.lt_irrefl k)
  obtain ⟨hprogress, howed, hstops⟩ :=
    I.sameToken (i := k) (w := { s.worker k with pc := .created }) rfl rfl
  have hcaller : s.stop (.worker k) = .idle := by
    by_contra hne
    have := I.caller k hne
    simp [Worker.inHandler, hpc] at this
  refine { I with
    ok := ?_, born := ?_, bound := hk, threads := ?_, mtxStart := ?_, countedStart := ?_
    countedWorker := ?_, opened := ?_, joined := ?_, caller := ?_, progress := hprogress
    owed := howed, stops := hstops }
  · intro _ i
    show Ok ((s.setWorker k _).worker i)
    rw [setWorker_worker]
    split
    · exact (I.ok hd k).create hpc
    · exact I.ok hd i
  · intro i
    show ((s.setWorker k _).worker i).pc = .unborn ↔ ¬ i < k + 1
    rw [setWorker_worker]
    split
    · rename_i hi
      simp [hi]
    · rename_i hi
      rw [hborn i]
      show ¬ i < k ↔ ¬ i < k + 1
      omega
  · show s.threads + 1 = k + 1
    rw [I.threads, hs]
    rfl
  · have := I.mtxStart
    rw [hs] at this
    exact this
  · have := I.countedStart
    rw [hs] at this
    exact this
  · intro i
    show some i ∈ s.counted ↔ arrivedAt ((s.setWorker k _).worker i).pc = true
    rw [setWorker_worker]
    split
    · rename_i hi
      rw [hi, I.countedWorker k, hpc]
      rfl
    · exact I.countedWorker i
  · intro i hi
    have hi : ((s.setWorker k { s.worker k with pc := .created }).worker i).pc.inRun = true := hi
    rw [setWorker_worker] at hi
    split at hi
    · cases hi
    · exact I.opened i hi
  · exact fun i hi => absurd hi (Nat.not_lt_zero i)
  · intro i hi
    show ((s.setWorker k _).worker i).inHandler = true
    rw [setWorker_worker]
    split
    · rename_i hik
      rw [hik] at hi
      exact absurd hcaller hi
    · exact I.caller i hi

theorem mem_parties {p : Option Nat} : p ∈ parties n ↔ ∀ i, p = some i → i < n := by
  cases p with
  | none => simp [parties]
  | some i => simp [parties]

/-- A worker that has got beyond its creation is one of the `n`. -/
theorem Inv.lt_of_born (I : Inv n s) {i : Nat} (hi : (s.worker i).pc ≠ .unborn) : i < n := by
  have := I.bound
  by_contra hn
  exact hi ((I.born i).mpr (by omega))

/-- A worker in `run` has passed the latch, and so has `start`. -/
theorem Inv.start_of_inRun (I : Inv n s) {i : Nat} (hi : (s.worker i).pc.inRun = true) :
    s.start.arrived = true := by
  have hzero := I.opened i hi
  exact I.countedStart.mp ((I.latch.eq_zero_iff.mp hzero) none (mem_parties.mpr nofun))

/-- **`start` arrives at the latch.** -/
theorem Inv.startArrives (I : Inv n s) (hs : s.start = .arrive) :
    Inv n { s.arrive none with start := .latch } := by
  have hd : s.start ≠ .destroyed := by simp [hs]
  have hborn := I.born
  have hbound := I.bound
  have hthreads := I.threads
  have hstart := I.mtxStart
  have hnew : none ∉ s.counted := by
    rw [I.countedStart, hs]
    simp [Start.arrived]
  rw [hs] at hborn hbound hthreads hstart
  refine { I with
    ok := fun _ => I.ok hd, born := hborn, bound := hbound, threads := hthreads, mtxStart := hstart
    latch := I.latch.arrive (mem_parties.mpr nofun) hnew, countedStart := ?_
    countedWorker := ?_, opened := ?_, joined := fun i hi => absurd hi (Nat.not_lt_zero i) }
  · exact iff_of_true (List.mem_append_right _ (List.mem_singleton_self _)) rfl
  · intro i
    have hmem : some i ∈ s.counted ++ [none] ↔ some i ∈ s.counted := by simp
    exact hmem.trans (I.countedWorker i)
  · intro i hi
    have := I.start_of_inRun hi
    rw [hs] at this
    cases this

/-- **A worker arrives at the latch.** -/
theorem Inv.workerArrives (I : Inv n s) (hd : s.start ≠ .destroyed) {i : Nat}
    (hpc : (s.worker i).pc = .arrive) (hidle : s.stop (.worker i) = .idle) :
    Inv n ((s.arrive (some i)).setWorker i { s.worker i with pc := .latch }) := by
  have hnew : some i ∉ s.counted := by
    rw [I.countedWorker i, hpc]
    simp [arrivedAt]
  obtain ⟨hprogress, howed, hstops⟩ :=
    I.sameToken (i := i) (w := { s.worker i with pc := .latch }) rfl rfl
  refine { I with
    ok := ?_, born := ?_
    latch := I.latch.arrive (mem_parties.mpr ?_) hnew, countedStart := ?_
    countedWorker := ?_, opened := ?_, joined := ?_, caller := ?_, progress := hprogress
    owed := howed, stops := hstops }
  · intro _ j
    rw [setWorker_worker]
    split
    · exact (I.ok hd i).arrive hpc
    · exact I.ok hd j
  · intro j
    rw [setWorker_worker]
    split
    · rename_i hj
      rw [hj]
      have := I.born i
      rw [hpc] at this
      exact (iff_of_false (by simp) (by simp)).trans this
    · exact I.born j
  · intro j hj
    cases hj
    exact I.lt_of_born (by simp [hpc])
  · have hmem : none ∈ s.counted ++ [some i] ↔ none ∈ s.counted := by simp
    exact hmem.trans I.countedStart
  · intro j
    rw [setWorker_worker]
    split
    · rename_i hj
      rw [hj]
      exact iff_of_true (List.mem_append_right _ (List.mem_singleton_self _)) rfl
    · rename_i hj
      have hmem : some j ∈ s.counted ++ [some i] ↔ some j ∈ s.counted := by simp [hj]
      exact hmem.trans (I.countedWorker j)
  · intro j hj
    rw [setWorker_worker] at hj
    split at hj
    · cases hj
    · -- the latch is open only when everybody has arrived
      have hpos := I.latch.pos (mem_parties.mpr fun j hj => by
        cases hj
        exact I.lt_of_born (by simp [hpc])) hnew
      have := I.opened j hj
      omega
  · intro j hj
    rw [setWorker_worker]
    split
    · rename_i hji
      have := I.joined j hj
      rw [hji, hpc] at this
      cases this
    · exact I.joined j hj
  · intro j hj
    rw [setWorker_worker]
    split
    · rename_i hji
      rw [hji] at hj
      exact absurd hidle hj
    · exact I.caller j hj

/-- A worker passes the latch. -/
theorem Inv.workerEnters (I : Inv n s) (hd : s.start ≠ .destroyed) {i : Nat}
    (hpc : (s.worker i).pc = .latch) (hidle : s.stop (.worker i) = .idle) (hzero : s.latch = 0) :
    Inv n (s.setWorker i (s.worker i).enter) := by
  obtain ⟨hprogress, howed, hstops⟩ := I.sameToken (i := i) (w := (s.worker i).enter) rfl rfl
  refine { I with
    ok := ?_, born := ?_, countedWorker := ?_, opened := fun _ _ => hzero, joined := ?_
    caller := ?_, progress := hprogress, owed := howed, stops := hstops }
  · intro _ j
    rw [setWorker_worker]
    split
    · exact (I.ok hd i).enter hpc
    · exact I.ok hd j
  · intro j
    rw [setWorker_worker]
    split
    · rename_i hj
      rw [hj]
      have := I.born i
      rw [hpc] at this
      exact (iff_of_false (by simp [Worker.enter]) (by simp)).trans this
    · exact I.born j
  · intro j
    rw [setWorker_worker]
    split
    · rename_i hj
      have := I.countedWorker i
      rw [hpc] at this
      rw [hj]
      exact this
    · exact I.countedWorker j
  · intro j hj
    rw [setWorker_worker]
    split
    · rename_i hji
      have := I.joined j hj
      rw [hji, hpc] at this
      cases this
    · exact I.joined j hj
  · intro j hj
    rw [setWorker_worker]
    split
    · rename_i hji
      rw [hji] at hj
      exact absurd hidle hj
    · exact I.caller j hj

/-- `~engine` -/
theorem Inv.destroy (I : Inv n s) (hs : s.start = .returned) :
    Inv n { s with worker := fun i => (s.worker i).destruct, start := .destroyed } := by
  have hpc : ∀ w : Worker, w.destruct.pc = w.pc ∧ w.destruct.requested = w.requested ∧
      w.destruct.owed = w.owed ∧ w.destruct.inHandler = w.inHandler := by
    intro w
    unfold Worker.destruct
    split <;> exact ⟨rfl, rfl, rfl, rfl⟩
  have hborn := I.born
  have hbound := I.bound
  have hthreads := I.threads
  have hstart := I.mtxStart
  have hcounted := I.countedStart
  have hjoined := I.joined
  rw [hs] at hborn hbound hthreads hstart hcounted hjoined
  exact
    { ok := fun h => absurd rfl h
      born := fun i => by
        rw [(hpc (s.worker i)).1]
        exact hborn i
      bound := hbound
      threads := hthreads
      mtxStart := hstart
      mtxStop := I.mtxStop
      latch := I.latch
      countedStart := hcounted
      countedWorker := fun i => by
        rw [(hpc (s.worker i)).1]
        exact I.countedWorker i
      opened := fun i hi => by
        rw [(hpc (s.worker i)).1] at hi
        exact I.opened i hi
      joined := fun i hi => (hpc (s.worker i)).1.trans (hjoined i hi)
      caller := fun i hi => (hpc (s.worker i)).2.2.2.trans (I.caller i hi)
      progress := fun c => (I.progress c).mono fun i hi => (hpc (s.worker i)).2.1.trans hi
      owed := fun i hi => I.owed i ((hpc (s.worker i)).2.2.1.symm.trans hi)
      stops := fun c m hm =>
        ⟨fun i hi => ⟨(hpc (s.worker i)).2.1.trans ((I.stops c m hm).1 i hi).1,
          (hpc (s.worker i)).2.2.1.trans ((I.stops c m hm).1 i hi).2⟩, (I.stops c m hm).2⟩ }

theorem Inv.startStep (I : Inv n s) (hs : s.startStep n = some s') : Inv n s' := by
  have hbound := I.bound
  have hthreads := I.threads
  have hmtx := I.mtxStart
  have hjoined := I.joined
  cases hq : s.start with
  | idle =>
      simp only [State.startStep, hq] at hs
      obtain rfl := Option.some.inj hs
      rw [hq] at hthreads hmtx hjoined
      exact I.startGoto (by simp [hq]) (by rw [hq]; rfl) hthreads.symm (by rw [hq]; rfl)
        hjoined hmtx I.mtxStop
  | lock =>
      simp only [State.startStep, hq] at hs
      split at hs
      · rename_i hfree
        obtain rfl := Option.some.inj hs
        rw [hq] at hthreads hjoined
        refine I.startGoto (by simp [hq]) (by rw [hq]; rfl) hthreads.symm
          (by rw [hq]; rfl) hjoined (by simp [Start.creates]) fun c => ?_
        rw [← I.mtxStop c, hfree]
        simp
      · cases hs
  | create k =>
      rw [hq] at hbound
      simp only [State.startStep, hq] at hs
      split at hs
      · rename_i hk
        obtain rfl := Option.some.inj hs
        exact I.create hq hk
      · rename_i hk
        obtain rfl := Option.some.inj hs
        have hbound : k ≤ n := hbound
        obtain rfl : k = n := by omega
        rw [hq] at hthreads hjoined hmtx
        have hlock : s.mtx = some .start := hmtx.mpr rfl
        refine I.startGoto (by simp [hq]) (by rw [hq]; rfl) hthreads.symm
          (by rw [hq]; rfl) hjoined (by simp [Start.creates]) fun c => ?_
        rw [← I.mtxStop c, hlock]
        simp
  | arrive =>
      simp only [State.startStep, hq] at hs
      obtain rfl := Option.some.inj hs
      exact I.startArrives hq
  | latch =>
      simp only [State.startStep, hq] at hs
      split at hs
      · obtain rfl := Option.some.inj hs
        rw [hq] at hthreads hmtx
        exact I.startGoto (by simp [hq]) (by rw [hq]; rfl) hthreads.symm
          (by rw [hq]; rfl) (fun i hi => absurd hi (Nat.not_lt_zero i)) hmtx I.mtxStop
      · cases hs
  | join k =>
      rw [hq] at hthreads hmtx hjoined
      simp only [State.startStep, hq] at hs
      split at hs
      · split at hs
        · rename_i hk hexit
          obtain rfl := Option.some.inj hs
          refine I.startGoto (by simp [hq]) (by rw [hq]; rfl) hthreads.symm
            (by rw [hq]; rfl) (fun i hi => ?_) hmtx I.mtxStop
          rcases Nat.lt_succ_iff_lt_or_eq.mp hi with hi | rfl
          · exact hjoined i hi
          · exact hexit
        · cases hs
      · rename_i hk
        obtain rfl := Option.some.inj hs
        refine I.startGoto (by simp [hq]) (by rw [hq]; rfl) hthreads.symm
          (by rw [hq]; rfl) (fun i hi => hjoined i ?_) hmtx I.mtxStop
        exact Nat.lt_of_lt_of_le hi (Nat.not_lt.mp hk)
  | clear =>
      simp only [State.startStep, hq] at hs
      split at hs
      · obtain rfl := Option.some.inj hs
        rw [hq] at hmtx hjoined
        have hborn := I.born
        have hcounted := I.countedStart
        rw [hq] at hborn hbound hcounted
        exact { I with
          ok := fun _ => I.ok (by simp [hq]), born := hborn, bound := hbound, threads := rfl
          mtxStart := hmtx, countedStart := hcounted, joined := hjoined }
      · cases hs
  | returned =>
      simp only [State.startStep, hq] at hs
      obtain rfl := Option.some.inj hs
      exact I.destroy hq
  | destroyed => simp [State.startStep, hq] at hs

/-! ## The workers -/

theorem Inv.workerStep (I : Inv n s) (hd : s.start ≠ .destroyed) {i : Nat} {full : Bool}
    {amount : Nat} (hidle : s.stop (.worker i) = .idle)
    (hs : s.workerStep i full amount = some s') : Inv n s' := by
  simp only [State.workerStep] at hs
  split at hs
  · rename_i hpc
    obtain rfl := Option.some.inj hs
    exact I.workerArrives hd hpc hidle
  · rename_i hpc
    split at hs
    · rename_i hzero
      obtain rfl := Option.some.inj hs
      exact I.workerEnters hd hpc hidle hzero
    · cases hs
  · obtain ⟨w, hw, rfl⟩ := Option.map_eq_some_iff.mp hs
    exact I.setWorker (frame_advance hw) (fun hd => (I.ok hd i).advance hw)
      fun hne => absurd hidle hne

theorem Inv.outside (I : Inv n s) {i : Nat} {o : Outside} {w : Worker}
    (hs : (s.worker i).outside o = some w) : Inv n (s.setWorker i w) :=
  I.setWorker (frame_outside hs).1 (fun hd => (I.ok hd i).outside hs) fun _ => (frame_outside hs).2

/-! ## `stop` -/

/-- Only one call of `stop` has the mutex. -/
theorem Inv.holder (I : Inv n s) {c c' : Caller} (h : (s.stop c).holds = true)
    (h' : (s.stop c').holds = true) : c' = c := by
  have := ((I.mtxStop c).mpr h).symm.trans ((I.mtxStop c').mpr h')
  cases this
  rfl

/-- A call of `stop` that neither takes the mutex nor releases it leaves who has it. -/
theorem Inv.mtx_update (I : Inv n s) {c : Caller} {q : Stop} (hq : (s.stop c).holds = q.holds)
    (c' : Caller) : s.mtx = some (.stop c') ↔ (Function.update s.stop c q c').holds = true := by
  rw [I.mtxStop c', Function.update_apply]
  split
  · rename_i hc
    rw [hc, hq]
  · exact Iff.rfl

/-- A call of `stop` goes on without touching a worker; it may take the mutex or release it. -/
theorem Inv.setStop (I : Inv n s) {c : Caller} {q : Stop} {mtx : Option Holder}
    (hstart : mtx = some .start ↔ s.start.creates = true)
    (hstop : ∀ c', mtx = some (.stop c') ↔ (Function.update s.stop c q c').holds = true)
    (hcaller : q ≠ .idle → ∀ i, c = .worker i → (s.worker i).inHandler = true)
    (hprogress : Progress s.worker q) (howed : ∀ i, s.stop c ≠ .callback i) :
    Inv n { s.setStop c q with mtx := mtx } := by
  refine { I with mtxStart := hstart, mtxStop := hstop, caller := ?_, progress := ?_, owed := ?_ }
  · intro i hi
    have hi : Function.update s.stop c q (.worker i) ≠ .idle := hi
    rw [Function.update_apply] at hi
    split at hi
    · rename_i hc
      exact hcaller hi i hc.symm
    · exact I.caller i hi
  · intro c'
    show Progress s.worker (Function.update s.stop c q c')
    rw [Function.update_apply]
    split
    · exact hprogress
    · exact I.progress c'
  · intro i hi
    obtain ⟨c', hc'⟩ := I.owed i hi
    have hne : c' ≠ c := by
      rintro rfl
      exact howed i hc'
    exact ⟨c', (Function.update_of_ne hne ..).trans hc'⟩

/-- **The call of `stop` that has the mutex goes on with a worker**, of which it sets the token or
calls the callback. -/
theorem Inv.reach (I : Inv n s) {c : Caller} {q : Stop} {i : Nat} {w : Worker}
    (hholds : (s.stop c).holds = true) (hq : q.holds = true) (hpc : w.pc = (s.worker i).pc)
    (hspace : w.userSpace = (s.worker i).userSpace) (hok : s.start ≠ .destroyed → Ok w)
    (hreq : w.requested = true)
    (hfresh : w.owed = true → (s.worker i).requested = false)
    (hprogress : Progress (s.setWorker i w).worker q)
    (howed : ∀ j, ((s.setWorker i w).worker j).owed = true → q = .callback j) :
    Inv n ((s.setWorker i w).setStop c q) := by
  have hmono : ∀ j, (s.worker j).requested = true →
      ((s.setWorker i w).worker j).requested = true := by
    intro j hj
    rw [setWorker_worker]
    split
    · exact hreq
    · exact hj
  have hpcs : ∀ j, ((s.setWorker i w).worker j).pc = (s.worker j).pc ∧
      ((s.setWorker i w).worker j).inHandler = (s.worker j).inHandler := by
    intro j
    rw [setWorker_worker]
    split
    · rename_i hj
      subst hj
      exact ⟨hpc, by rw [Worker.inHandler, Worker.inHandler, hpc, hspace]⟩
    · exact ⟨rfl, rfl⟩
  refine { I with
    ok := ?_, born := fun j => ?_, mtxStop := fun c' => ?_, countedWorker := fun j => ?_
    opened := fun j hj => ?_, joined := fun j hj => ?_, caller := fun j hj => ?_
    progress := fun c' => ?_, owed := fun j hj => ?_, stops := fun c' m hm => ?_ }
  · intro hd j
    show Ok ((s.setWorker i w).worker j)
    rw [setWorker_worker]
    split
    · exact hok hd
    · exact I.ok hd j
  · exact (hpcs j).1 ▸ I.born j
  · exact I.mtx_update (hholds.trans hq.symm) c'
  · exact (hpcs j).1 ▸ I.countedWorker j
  · exact I.opened j ((hpcs j).1 ▸ hj)
  · exact (hpcs j).1.trans (I.joined j hj)
  · refine (hpcs j).2.trans (I.caller j ?_)
    have hj : Function.update s.stop c q (.worker j) ≠ .idle := hj
    rw [Function.update_apply] at hj
    split at hj
    · rename_i hc
      intro hidle
      rw [hc] at hidle
      rw [hidle] at hholds
      cases hholds
    · exact hj
  · show Progress (s.setWorker i w).worker (Function.update s.stop c q c')
    rw [Function.update_apply]
    split
    · exact hprogress
    · exact (I.progress c').mono hmono
  · exact ⟨c, (Function.update_self ..).trans (howed j hj)⟩
  · obtain ⟨h₁, h₂⟩ := I.stops c' m hm
    refine ⟨fun j hj => ?_, h₂⟩
    show ((s.setWorker i w).worker j).requested = true ∧ ((s.setWorker i w).worker j).owed = false
    rw [setWorker_worker]
    split
    · rename_i hji
      subst hji
      refine ⟨hreq, Bool.eq_false_iff.mpr fun ho => ?_⟩
      exact absurd ((hfresh ho).symm.trans (h₁ j hj).1) (by simp)
    · exact h₁ j hj

/-- While a call of `stop` has the mutex, nobody else owes a worker the call of its callback. -/
theorem Inv.owes (I : Inv n s) {c : Caller} (hholds : (s.stop c).holds = true) {i : Nat}
    (hi : (s.worker i).owed = true) : s.stop c = .callback i := by
  obtain ⟨c', hc'⟩ := I.owed i hi
  obtain rfl : c' = c := I.holder hholds (by rw [hc']; rfl)
  exact hc'

theorem inRun_of_inHandler {w : Worker} (h : w.inHandler = true) : w.pc.inRun = true := by
  unfold Worker.inHandler at h
  split at h
  · rename_i hpc
    rw [hpc]
    rfl
  · rename_i hpc
    rw [hpc]
    rfl
  · rename_i hpc
    rw [hpc]
    rfl
  · cases h

/-- A handler runs while all threads are in `threads_`. -/
theorem Inv.threads_of_inHandler (I : Inv n s) (hd : s.start ≠ .destroyed) {i : Nat}
    (hi : (s.worker i).inHandler = true) : s.threads = n := by
  have hrun := inRun_of_inHandler hi
  have harrived := I.start_of_inRun hrun
  have hlt : i < n := I.lt_of_born fun hpc => by
    rw [hpc] at hrun
    cases hrun
  rw [I.threads]
  cases hs : s.start with
  | idle | lock | create k | arrive =>
      rw [hs] at harrived
      cases harrived
  | latch | join k | clear => rfl
  | returned =>
      -- the worker has exited
      have hpc := I.joined i (by rw [hs]; exact hlt)
      simp [Worker.inHandler, hpc] at hi
  | destroyed => exact absurd hs hd

theorem Inv.called (I : Inv n s) {c : Caller} (hq : s.stop c = .idle)
    (hcaller : ∀ i, c = .worker i → (s.worker i).inHandler = true) : Inv n (s.setStop c .lock) :=
  I.setStop I.mtxStart (I.mtx_update (by rw [hq]; rfl)) (fun _ => hcaller) trivial (by simp [hq])

theorem Inv.locked (I : Inv n s) {c : Caller} (hq : s.stop c = .lock) (hfree : s.mtx = none) :
    Inv n { s.setStop c (.request 0) with mtx := some (.stop c) } := by
  refine I.setStop ?_ (fun c' => ?_) (fun _ i hc => ?_) (fun i hi => ?_) (by simp [hq])
  · rw [← I.mtxStart, hfree]
    simp
  · rw [Function.update_apply]
    split
    · rename_i hc
      rw [hc]
      exact iff_of_true rfl rfl
    · rename_i hc
      rw [← I.mtxStop c', hfree]
      simpa using Ne.symm hc
  · exact I.caller i (by rw [← hc, hq]; simp)
  · exact absurd hi (Nat.not_lt_zero i)

/-- No callback is owed while the call of `stop` that has the mutex is between two workers. -/
theorem Inv.not_owed (I : Inv n s) {c : Caller} {j : Nat} (hq : s.stop c = .request j) (i : Nat) :
    (s.worker i).owed = false := by
  refine Bool.eq_false_iff.mpr fun ho => ?_
  have hholds : (s.stop c).holds = true := by
    rw [hq]
    rfl
  exact absurd (hq.symm.trans (I.owes hholds ho)) (by simp)

/-- Somebody has requested the stop of the worker before. -/
theorem Inv.passes (I : Inv n s) {c : Caller} {j : Nat} (hq : s.stop c = .request j)
    (hr : (s.worker j).requested = true) : Inv n (s.setStop c (.request (j + 1))) := by
  have hprogress : Progress s.worker (.request j) := hq ▸ I.progress c
  refine I.setStop I.mtxStart (I.mtx_update (by rw [hq]; rfl)) (fun _ i hc => ?_)
    (fun i hi => ?_) (by simp [hq])
  · exact I.caller i (by rw [← hc, hq]; simp)
  · rcases Nat.lt_succ_iff_lt_or_eq.mp hi with hi | rfl
    · exact hprogress i hi
    · exact hr

/-- The token of a worker is set, and its callback is next if one is registered. -/
theorem Inv.requests (I : Inv n s) {c : Caller} {j : Nat} (hq : s.stop c = .request j)
    (hr : (s.worker j).requested = false) :
    Inv n ((s.setWorker j (s.worker j).request).setStop c
      (if (s.worker j).callback then .callback j else .request (j + 1))) := by
  have hprogress : Progress s.worker (.request j) := hq ▸ I.progress c
  have hreq : ∀ i < j + 1, ((s.setWorker j (s.worker j).request).worker i).requested = true := by
    intro i hi
    rw [setWorker_worker]
    split
    · rfl
    · exact hprogress i (by omega)
  have howed : ∀ i, ((s.setWorker j (s.worker j).request).worker i).owed = true →
      i = j ∧ (s.worker j).callback = true := by
    intro i hi
    rw [setWorker_worker] at hi
    split at hi
    · rename_i hij
      exact ⟨hij, hi⟩
    · rw [I.not_owed hq i] at hi
      cases hi
  refine I.reach (by rw [hq]; rfl) ?_ rfl rfl (fun hd => (I.ok hd j).request hr) rfl
    (fun _ => hr) ?_ fun i hi => ?_
  · split <;> rfl
  · split
    · exact ⟨fun i hi => hreq i (by omega), hreq j (by omega)⟩
    · exact hreq
  · obtain ⟨rfl, hc⟩ := howed i hi
    rw [if_pos hc]

/-- The call returns. It has been through all the threads there are, which are all the workers if
a worker has called. -/
theorem Inv.returns (I : Inv n s) (hd : s.start ≠ .destroyed) {c : Caller} {j : Nat}
    (hq : s.stop c = .request j) (hj : s.threads ≤ j) :
    Inv n { s.setStop c .idle with mtx := none, stops := s.stops ++ [(c, s.threads)] } := by
  have hprogress : Progress s.worker (.request j) := hq ▸ I.progress c
  have hlock : s.mtx = some (.stop c) := (I.mtxStop c).mpr (by rw [hq]; rfl)
  have I' : Inv n { s.setStop c .idle with mtx := none } := by
    refine I.setStop ?_ (fun c' => ?_) (fun h => absurd rfl h) trivial (by simp [hq])
    · rw [← I.mtxStart, hlock]
      simp
    · rw [Function.update_apply]
      split
      · simp [Stop.holds]
      · rename_i hc
        rw [← I.mtxStop c', hlock]
        simpa using Ne.symm hc
  refine { I' with stops := fun c' m hm => ?_ }
  rcases List.mem_append.mp hm with hm | hm
  · exact I.stops c' m hm
  · obtain ⟨rfl, rfl⟩ := Prod.mk.inj (List.mem_singleton.mp hm)
    refine ⟨fun i hi => ⟨hprogress i (by omega), I.not_owed hq i⟩, fun i hc => ?_⟩
    exact I.threads_of_inHandler hd (I.caller i (by rw [← hc, hq]; simp))

theorem Inv.callsBack (I : Inv n s) {c : Caller} {j : Nat} (hq : s.stop c = .callback j) :
    Inv n ((s.setWorker j (s.worker j).callBack).setStop c (.request (j + 1))) := by
  have hholds : (s.stop c).holds = true := by
    rw [hq]
    rfl
  have hsame : (s.worker j).callBack.pc = (s.worker j).pc ∧
      (s.worker j).callBack.userSpace = (s.worker j).userSpace ∧
      (s.worker j).callBack.requested = (s.worker j).requested ∧
      (s.worker j).callBack.owed = false := by
    unfold Worker.callBack
    split <;> exact ⟨rfl, rfl, rfl, rfl⟩
  have hprogress : Progress s.worker (.callback j) := hq ▸ I.progress c
  refine I.reach hholds rfl hsame.1 hsame.2.1 (fun hd => (I.ok hd j).callBack)
    (hsame.2.2.1.trans hprogress.2) (fun ho => absurd (ho.symm.trans hsame.2.2.2) (by simp))
    (fun i hi => ?_) fun i hi => ?_
  · rw [setWorker_worker]
    split
    · exact hsame.2.2.1.trans hprogress.2
    · exact hprogress.1 i (by omega)
  · -- the one callback that was owed is the one that has been called
    rw [setWorker_worker] at hi
    split at hi
    · exact absurd (hi.symm.trans hsame.2.2.2) (by simp)
    · rename_i hij
      have := hq.symm.trans (I.owes hholds hi)
      cases this
      exact absurd rfl hij

theorem Inv.stopStep (I : Inv n s) (hd : s.start ≠ .destroyed) {c : Caller}
    (hs : s.stopStep c = some s') : Inv n s' := by
  cases hq : s.stop c with
  | idle =>
      simp only [State.stopStep, hq] at hs
      cases c with
      | worker i =>
          simp only at hs
          split at hs
          · rename_i hi
            obtain rfl := Option.some.inj hs
            refine I.called hq fun j hj => ?_
            cases hj
            exact hi
          · cases hs
      | other k =>
          obtain rfl := Option.some.inj hs
          exact I.called hq nofun
  | lock =>
      simp only [State.stopStep, hq] at hs
      split at hs
      · rename_i hfree
        obtain rfl := Option.some.inj hs
        exact I.locked hq hfree
      · cases hs
  | request j =>
      simp only [State.stopStep, hq] at hs
      split at hs
      · split at hs <;> rename_i hr <;> obtain rfl := Option.some.inj hs
        · exact I.passes hq hr
        · exact I.requests hq (Bool.eq_false_iff.mpr hr)
      · rename_i hj
        obtain rfl := Option.some.inj hs
        exact I.returns hd hq (Nat.le_of_not_lt hj)
  | callback j =>
      simp only [State.stopStep, hq] at hs
      obtain rfl := Option.some.inj hs
      exact I.callsBack hq

/-! ## All steps -/

theorem Inv.step (I : Inv n s) {a : Action} (hs : step n s a = some s') : Inv n s' := by
  simp only [Lifecycle.step] at hs
  split at hs
  · cases hs
  rename_i hd
  cases a with
  | start => exact I.startStep hs
  | worker i full amount =>
      simp only at hs
      split at hs
      · rename_i hidle
        exact I.workerStep hd hidle hs
      · cases hs
  | outside i o =>
      obtain ⟨w, hw, rfl⟩ := Option.map_eq_some_iff.mp hs
      exact I.outside hw
  | stop c => exact I.stopStep hd hs

theorem Reachable.inv (h : Reachable n s) : Inv n s :=
  h.invariant (fun _ hinit => hinit ▸ inv_init) fun _ _ _ _ I _ hs => I.step hs

end

end Zab.Lifecycle
