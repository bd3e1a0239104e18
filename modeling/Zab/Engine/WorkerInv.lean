import Zab.Engine.Worker
import Mathlib.Tactic

set_option autoImplicit false

/-! # A worker wakes up for a stop and exits

`Ok` is kept by every step of a worker and by everything that comes from outside. With it, a worker
that sleeps although a stop has reached it has something to wake up for (`Ok.wakes`). When a worker
is left alone after a stop, every step lowers its rank (`Stopping.alone`), and it has a step until
it has left `run` (`Stopping.exited`).
-/

namespace Zab.Workers

/-! ## The invariant -/

/-- The completions that have not been executed. -/
def Worker.items (w : Worker) : List Item :=
  w.cq ++
    match w.pc with
    | .execute rest | .handler rest => rest
    | _ => []

def Item.isUserRead : Item → Bool
  | .userRead _ => true
  | .other => false

/-- The coroutine will read the eventfd before it looks at the token again. -/
def UserSpace.willRead : UserSpace → Bool
  | .unborn | .swap | .executing | .prepared | .submitted => true
  | .completed _ | .resumed _ | .ended _ => false

def UserSpace.isEnded : UserSpace → Bool
  | .ended _ => true
  | _ => false

/-- The callback has been registered, or has been called by its constructor. -/
def Pc.listening : Pc → Bool
  | .unborn | .created | .callback | .exited => false
  | .arrive | .latch | .userSpace | .submit | .test | .wait | .peek | .execute _
  | .handler _ => true

/-- Where the coroutine is while the thread is at `q`. -/
def Phase (u : UserSpace) : Pc → Prop
  | .unborn | .created | .callback | .arrive | .latch => u = .unborn
  | .userSpace => u = .swap ∨ u = .executing ∨ u = .prepared ∨ ∃ failed, u = .ended failed
  | .submit => u = .prepared ∨ ∃ failed, u = .ended failed
  | .test | .wait | .peek | .exited =>
      u = .submitted ∨ (∃ ok, u = .completed ok) ∨ ∃ failed, u = .ended failed
  | .execute _ => u ≠ .unborn
  | .handler _ => u ≠ .unborn ∧ u.running = false

structure Ok (w : Worker) : Prop where
  phase : Phase w.userSpace w.pc
  items : ∀ ok, .userRead ok ∈ w.items ↔ w.userSpace = .completed ok
  once : w.items.countP Item.isUserRead ≤ 1
  made : w.made = if w.userSpace = .unborn then 0 else 1
  freed : w.freed = if w.userSpace.isEnded then 1 else 0
  handle : w.handle = w.userSpace.suspended
  stopped : w.userSpace = .ended false → w.requested = true
  /-- A worker whose coroutine has seen the stop does not sleep. -/
  awake : w.pc = .wait → w.userSpace ≠ .ended false
  callback : w.callback = true → w.pc.listening = true
  early : w.pc = .callback → w.requested = true
  registered : w.pc.listening = true → w.requested = false → w.callback = true
  owed : w.owed = true → w.requested = true
  attached : w.owed = true → w.callback = true ∨ w.pc = .exited
  /-- What a stop has written to the eventfd is there until it is read. -/
  token : w.requested = true → w.owed = false → w.pc.listening = true →
    w.userSpace.willRead = true → 0 < w.eventFd

theorem ok_init : Ok init where
  phase := rfl
  items := by simp [init, Worker.items]
  once := by simp [init, Worker.items]
  made := rfl
  freed := rfl
  handle := rfl
  stopped := fun h => (nomatch h)
  awake := fun h => (nomatch h)
  callback := fun h => (nomatch h)
  early := fun h => (nomatch h)
  registered := fun h => (nomatch h)
  owed := fun h => (nomatch h)
  attached := fun h => (nomatch h)
  token := fun h => (nomatch h)

section

variable {w w' : Worker}

/-- A step of the thread that leaves the coroutine alone and loses no completion of its read. -/
theorem Ok.goto (h : Ok w) {q : Pc} {cq : List Item} (hq : Phase w.userSpace q)
    (hmem : ∀ ok, .userRead ok ∈ ({ w with pc := q, cq := cq } : Worker).items ↔
      .userRead ok ∈ w.items)
    (hcount : ({ w with pc := q, cq := cq } : Worker).items.countP Item.isUserRead =
      w.items.countP Item.isUserRead)
    (hl : q.listening = w.pc.listening) (hexit : w.pc = .exited → q = .exited)
    (hawake : q = .wait → w.userSpace ≠ .ended false)
    (hearly : q = .callback → w.requested = true) : Ok { w with pc := q, cq := cq } where
  phase := hq
  items := fun ok => (hmem ok).trans (h.items ok)
  once := hcount ▸ h.once
  made := h.made
  freed := h.freed
  handle := h.handle
  stopped := h.stopped
  awake := hawake
  callback := fun hc => hl.trans (h.callback hc)
  early := hearly
  registered := fun hq hr => h.registered (hl.symm.trans hq) hr
  owed := h.owed
  attached := fun ho => (h.attached ho).imp id hexit
  token := fun hr ho hq => h.token hr ho (hl.symm.trans hq)

/-- The coroutine, which runs, comes to `u`. -/
theorem Ok.become (h : Ok w) {u : UserSpace} {handle : Bool} {freed : Nat}
    (hrun : w.userSpace.running = true) (hwait : w.pc ≠ .wait) (hphase : Phase u w.pc)
    (hborn : u ≠ .unborn) (hcompleted : ∀ ok, u ≠ .completed ok)
    (hhandle : handle = u.suspended) (hfreed : freed = if u.isEnded then 1 else 0)
    (hstopped : u = .ended false → w.requested = true)
    (htoken : w.requested = true → u.willRead = true → w.userSpace.willRead = true) :
    Ok { w with userSpace := u, handle := handle, freed := freed } where
  phase := hphase
  items := by
    intro ok
    refine iff_of_false (fun hmem => ?_) (hcompleted ok)
    have := (h.items ok).mp hmem
    rw [this] at hrun
    cases hrun
  once := h.once
  made := by
    have hu : w.userSpace ≠ .unborn := by
      intro hu
      rw [hu] at hrun
      cases hrun
    have := h.made
    rw [if_neg hu] at this
    rw [if_neg hborn]
    exact this
  freed := hfreed
  handle := hhandle
  stopped := hstopped
  awake := fun hpc => absurd hpc hwait
  callback := h.callback
  early := h.early
  registered := h.registered
  owed := h.owed
  attached := h.attached
  token := fun hr ho hl hu => h.token hr ho hl (htoken hr hu)

/-- **A step of the coroutine.** -/
theorem Ok.runUserSpace (h : Ok w) {full : Bool} (hs : w.runUserSpace full = some w')
    (hpc : w.pc = .userSpace ∨ ∃ rest, w.pc = .execute rest) : Ok w' := by
  have hwait : w.pc ≠ .wait := by
    rcases hpc with hpc | ⟨rest, hpc⟩ <;> rw [hpc] <;> simp
  have hphase : ∀ {u : UserSpace}, (u = .swap ∨ u = .executing ∨ u = .prepared ∨
      ∃ failed, u = .ended failed) → Phase u w.pc := by
    intro u hu
    rcases hpc with hpc | ⟨rest, hpc⟩
    · rw [hpc]
      exact hu
    · rw [hpc]
      show u ≠ .unborn
      rcases hu with rfl | rfl | rfl | ⟨failed, rfl⟩ <;> simp
  have hfreed : w.userSpace.running = true → w.freed = 0 := by
    intro hrun
    rw [h.freed]
    cases hu : w.userSpace with
    | ended failed =>
        rw [hu] at hrun
        cases hrun
    | _ => rfl
  have hend : ∀ {failed : Bool}, w.userSpace.running = true →
      (failed = false → w.requested = true) → Ok (w.endUserSpace failed) := by
    intro failed hrun hstop
    refine h.become hrun hwait (hphase (by simp)) (by simp) (by simp) ?_ ?_ ?_ ?_
    · have := h.handle
      cases hu : w.userSpace with
      | swap | executing | resumed ok => rw [this, hu]; rfl
      | _ =>
          rw [hu] at hrun
          cases hrun
    · rw [hfreed hrun]
      rfl
    · intro he
      cases he
      exact hstop rfl
    · intro _ hw
      cases hw
  cases hu : w.userSpace with
  | unborn | prepared | submitted | completed ok | ended failed =>
      simp [Worker.runUserSpace, hu] at hs
  | swap =>
      simp only [Worker.runUserSpace, hu] at hs
      obtain rfl := Option.some.inj hs
      refine h.become (by rw [hu]; rfl) hwait (hphase (by simp)) (by simp) (by simp) ?_ ?_
        (by simp) (fun _ _ => by rw [hu]; rfl)
      · rw [h.handle, hu]
        rfl
      · rw [hfreed (by rw [hu]; rfl)]
        rfl
  | executing =>
      simp only [Worker.runUserSpace, hu] at hs
      split at hs <;> obtain rfl := Option.some.inj hs
      · exact hend (by rw [hu]; rfl) (by simp)
      · refine h.become (by rw [hu]; rfl) hwait (hphase (by simp)) (by simp) (by simp) rfl ?_
          (by simp) (fun _ _ => by rw [hu]; rfl)
        rw [hfreed (by rw [hu]; rfl)]
        rfl
  | resumed ok =>
      simp only [Worker.runUserSpace, hu] at hs
      split at hs
      · obtain rfl := Option.some.inj hs
        exact hend (by rw [hu]; rfl) (by simp)
      · split at hs <;> rename_i hr <;> obtain rfl := Option.some.inj hs
        · -- no stop so far: nothing is owed to the token
          refine h.become (by rw [hu]; rfl) hwait (hphase (by simp)) (by simp) (by simp) ?_ ?_
            (by simp) (fun hr' => ?_)
          · rw [h.handle, hu]
            rfl
          · rw [hfreed (by rw [hu]; rfl)]
            rfl
          · rw [hr] at hr'
            cases hr'
        · exact hend (by rw [hu]; rfl) (fun _ => by simpa using hr)

/-- `io_uring_submit`, after which the thread goes on at `q`. -/
theorem Ok.submit (h : Ok w) {q : Pc} (hrun : w.userSpace.running = false)
    (hborn : w.userSpace ≠ .unborn) (hq : q = .test ∨ q = .peek)
    (hitems : ({ w with pc := q } : Worker).items = w.items) (hl : w.pc.listening = true) :
    Ok { w.submit with pc := q } := by
  have hlq : q.listening = true := by
    rcases hq with rfl | rfl <;> rfl
  have hwait : q ≠ .wait ∧ q ≠ .callback := by
    rcases hq with rfl | rfl <;> simp
  have hphase : ∀ {u : UserSpace}, (u = .submitted ∨ (∃ ok, u = .completed ok) ∨
      ∃ failed, u = .ended failed) → Phase u q := by
    intro u hu
    rcases hq with rfl | rfl <;> exact hu
  have hexit : w.pc ≠ .exited := by
    intro he
    rw [he] at hl
    cases hl
  by_cases hp : w.userSpace = .prepared
  · have hform : { w.submit with pc := q } = { w with userSpace := .submitted, pc := q } := by
      rw [Worker.submit, if_pos hp]
    rw [hform]
    have hmade := h.made
    have hfreed := h.freed
    have hhandle := h.handle
    have htoken := h.token
    rw [hp] at hmade hfreed hhandle htoken
    refine ⟨hphase (Or.inl rfl), fun ok => ?_, ?_, hmade, hfreed, hhandle, fun h => (nomatch h),
      fun h => absurd h hwait.1, fun _ => hlq, fun h => absurd h hwait.2, fun _ => h.registered hl,
      h.owed, fun ho => (h.attached ho).imp id fun he => absurd he hexit,
      fun hr ho _ _ => htoken hr ho hl rfl⟩
    · have hi := h.items ok
      rw [hp, ← hitems] at hi
      exact hi.trans (iff_of_false (by simp) (by simp))
    · have ho := h.once
      rw [← hitems] at ho
      exact ho
  · have hform : { w.submit with pc := q } = { w with pc := q } := by
      rw [Worker.submit, if_neg hp]
    rw [hform]
    refine h.goto (hphase ?_) (fun ok => by rw [hitems]) (by rw [hitems]) (hlq.trans hl.symm)
      (fun he => absurd he hexit) (fun hw => absurd hw hwait.1) fun hw => absurd hw hwait.2
    cases hu : w.userSpace with
    | unborn => exact absurd hu hborn
    | swap | executing | resumed ok =>
        rw [hu] at hrun
        cases hrun
    | prepared => exact absurd hu hp
    | submitted => exact Or.inl rfl
    | completed ok => exact Or.inr (Or.inl ⟨ok, rfl⟩)
    | ended failed => exact Or.inr (Or.inr ⟨failed, rfl⟩)

/-- The completion of the read is executed: the coroutine is resumed. -/
theorem Ok.resume (h : Ok w) {ok : Bool} {rest : List Item}
    (hpc : w.pc = .execute (.userRead ok :: rest)) :
    Ok { w with userSpace := .resumed ok, handle := false, pc := .execute rest } := by
  have hitems : w.items = w.cq ++ .userRead ok :: rest := by simp [Worker.items, hpc]
  have hu : w.userSpace = .completed ok := (h.items ok).mp (by rw [hitems]; simp)
  -- it was the only one
  have hcount : (w.cq ++ rest).countP Item.isUserRead = 0 := by
    have := h.once
    rw [hitems, List.countP_append, List.countP_cons_of_pos rfl] at this
    rw [List.countP_append]
    omega
  have hmade := h.made
  have hfreed := h.freed
  rw [hu] at hmade hfreed
  refine ⟨(nofun), fun ok' => ?_, ?_, hmade, hfreed, rfl, fun h => (nomatch h),
    fun h => (nomatch h), fun _ => rfl, fun h => (nomatch h),
    fun _ => h.registered (by rw [hpc]; rfl), h.owed,
    fun ho => (h.attached ho).imp id fun he => absurd (hpc.symm.trans he) (by simp),
    fun _ _ _ h => (nomatch h)⟩
  · refine iff_of_false (fun hmem => ?_) (by simp)
    exact List.countP_eq_zero.mp hcount _ hmem rfl
  · show (w.cq ++ rest).countP Item.isUserRead ≤ 1
    omega

/-- A step of the thread within its batch: the completions stay as they are. -/
theorem Ok.move (h : Ok w) {p q : Pc} (hpc : w.pc = p) (hq : Phase w.userSpace q)
    (hitems : ({ w with pc := q } : Worker).items = w.items)
    (hl : q.listening = p.listening) (hexit : p ≠ .exited) (hwait : q ≠ .wait)
    (hearly : q ≠ .callback) : Ok { w with pc := q } :=
  h.goto hq (fun ok => by rw [hitems]) (by rw [hitems]) (hl.trans (by rw [hpc]))
    (fun he => absurd (hpc.symm.trans he) hexit) (fun h => absurd h hwait)
    fun h => absurd h hearly

/-- The constructor of the `stop_callback` has registered the callback. -/
theorem Ok.register (h : Ok w) (hpc : w.pc = .created) (hr : w.requested = false) :
    Ok { w with pc := .arrive, callback := true } := by
  have hphase := h.phase
  rw [hpc] at hphase
  refine { h with
    phase := hphase, items := fun ok => ?_, once := ?_, awake := (nofun)
    callback := fun _ => rfl, early := (nofun), registered := fun _ _ => rfl
    attached := fun _ => Or.inl rfl, token := fun hr' => absurd (hr.symm.trans hr') (by simp) }
  · have := h.items ok
    simpa [Worker.items, hpc] using this
  · have := h.once
    simpa [Worker.items, hpc] using this

/-- The constructor of the `stop_callback` has found a stop, and calls the callback itself. -/
theorem Ok.callEarly (h : Ok w) (hpc : w.pc = .callback) : Ok { w.wake with pc := .arrive } := by
  have hphase := h.phase
  rw [hpc] at hphase
  refine { h with
    phase := hphase, items := fun ok => ?_, once := ?_, awake := (nofun)
    callback := fun _ => rfl, early := (nofun)
    registered := fun _ hr => ?_, token := fun _ _ _ _ => Nat.succ_pos _
    attached := fun ho =>
      (h.attached ho).imp id fun he => absurd (hpc.symm.trans he) (by simp) }
  · have := h.items ok
    simpa [Worker.items, Worker.wake, hpc] using this
  · have := h.once
    simpa [Worker.items, Worker.wake, hpc] using this
  · exact absurd ((h.early hpc).symm.trans hr) (by simp)

/-- The thread leaves `run`, and the callback is deregistered. -/
theorem Ok.exit (h : Ok w) (hpc : w.pc = .test ∨ w.pc = .wait) :
    Ok { w with pc := .exited, callback := false } := by
  have hphase : Phase w.userSpace .exited := by
    have := h.phase
    rcases hpc with hpc | hpc <;> rw [hpc] at this <;> exact this
  have hitems : ({ w with pc := .exited, callback := false } : Worker).items = w.items := by
    rcases hpc with hpc | hpc <;> simp [Worker.items, hpc]
  exact { h with
    phase := hphase, items := fun ok => by rw [hitems]; exact h.items ok, once := hitems ▸ h.once
    awake := (nofun), callback := (nofun), early := (nofun), registered := (nofun)
    token := (nofun), attached := fun _ => Or.inr rfl }

/-- A batch is taken from the completion queue. -/
theorem Ok.batch (h : Ok w) (hpc : w.pc = .peek) (amount : Nat) :
    Ok { w with pc := .execute (w.cq.take amount), cq := w.cq.drop amount } := by
  have hphase := h.phase
  rw [hpc] at hphase
  have hperm : (w.cq.drop amount ++ w.cq.take amount).Perm w.cq :=
    List.perm_append_comm.trans (by rw [List.take_append_drop])
  refine h.goto ?_ (fun ok => ?_) ?_ (by rw [hpc]; rfl) (by simp [hpc]) (by simp) (by simp)
  · rcases hphase with hu | ⟨ok, hu⟩ | ⟨failed, hu⟩ <;> rw [hu] <;> exact nofun
  · simpa [Worker.items, hpc] using hperm.mem_iff (a := Item.userRead ok)
  · simpa [Worker.items, hpc] using hperm.countP_eq Item.isUserRead

/-- **A step of the thread.** -/
theorem Ok.advance (h : Ok w) {full : Bool} {amount : Nat} (hs : w.advance full amount = some w') :
    Ok w' := by
  have hphase := h.phase
  cases hpc : w.pc with
  | unborn | arrive | latch | exited => simp [Worker.advance, hpc] at hs
  | created =>
      rw [hpc] at hphase
      simp only [Worker.advance, hpc] at hs
      split at hs <;> rename_i hr <;> obtain rfl := Option.some.inj hs
      · exact h.goto hphase (fun ok => by simp [Worker.items, hpc]) (by simp [Worker.items, hpc])
          (by rw [hpc]; rfl) (by simp [hpc]) (by simp) fun _ => hr
      · exact h.register hpc (Bool.eq_false_iff.mpr hr)
  | callback =>
      simp only [Worker.advance, hpc] at hs
      obtain rfl := Option.some.inj hs
      exact h.callEarly hpc
  | userSpace =>
      rw [hpc] at hphase
      simp only [Worker.advance, hpc] at hs
      split at hs <;> rename_i hrun
      · exact h.runUserSpace hs (Or.inl hpc)
      · obtain rfl := Option.some.inj hs
        refine h.move hpc ?_ (by simp [Worker.items, hpc]) rfl (by simp) (by simp) (by simp)
        -- the coroutine has been left where it waits, or has ended
        rcases hphase with hu | hu | hu | hu
        · rw [hu] at hrun
          exact absurd rfl hrun
        · rw [hu] at hrun
          exact absurd rfl hrun
        · exact Or.inl hu
        · exact Or.inr hu
  | submit =>
      rw [hpc] at hphase
      simp only [Worker.advance, hpc] at hs
      obtain rfl := Option.some.inj hs
      refine h.submit ?_ ?_ (Or.inl rfl) (by simp [Worker.items, hpc]) (by rw [hpc]; rfl)
      · rcases hphase with hu | ⟨failed, hu⟩ <;> rw [hu] <;> rfl
      · rcases hphase with hu | ⟨failed, hu⟩ <;> rw [hu] <;> simp
  | test =>
      rw [hpc] at hphase
      simp only [Worker.advance, hpc] at hs
      split at hs <;> rename_i hr <;> obtain rfl := Option.some.inj hs
      · exact h.exit (Or.inl hpc)
      · exact h.goto hphase (fun ok => by simp [Worker.items, hpc]) (by simp [Worker.items, hpc])
          (by rw [hpc]; rfl) (by simp [hpc]) (fun _ hu => hr (h.stopped hu)) (by simp)
  | wait =>
      rw [hpc] at hphase
      simp only [Worker.advance, hpc] at hs
      split at hs
      · cases hs
      · obtain rfl := Option.some.inj hs
        exact h.move hpc hphase (by simp [Worker.items, hpc]) rfl (by simp) (by simp) (by simp)
  | peek =>
      rw [hpc] at hphase
      simp only [Worker.advance, hpc] at hs
      split at hs
      · obtain rfl := Option.some.inj hs
        exact h.move hpc hphase (by simp [Worker.items, hpc]) rfl (by simp) (by simp) (by simp)
      · split at hs
        · obtain rfl := Option.some.inj hs
          exact h.batch hpc amount
        · cases hs
  | execute rest =>
      rw [hpc] at hphase
      simp only [Worker.advance, hpc] at hs
      split at hs <;> rename_i hrun
      · exact h.runUserSpace hs (Or.inr ⟨rest, hpc⟩)
      · have hrun : w.userSpace.running = false := Bool.eq_false_iff.mpr hrun
        cases rest with
        | nil =>
            obtain rfl := Option.some.inj hs
            exact h.submit hrun hphase (Or.inr rfl) (by simp [Worker.items, hpc]) (by rw [hpc]; rfl)
        | cons item rest =>
            cases item with
            | userRead ok =>
                obtain rfl := Option.some.inj hs
                exact h.resume hpc
            | other =>
                obtain rfl := Option.some.inj hs
                exact h.goto ⟨hphase, hrun⟩ (fun ok => by simp [Worker.items, hpc])
                  (by simp [Worker.items, hpc, Item.isUserRead]) (by rw [hpc]; rfl)
                  (by simp [hpc]) (by simp) (by simp)
  | handler rest =>
      rw [hpc] at hphase
      simp only [Worker.advance, hpc] at hs
      obtain rfl := Option.some.inj hs
      exact h.move hpc hphase.1 (by simp [Worker.items, hpc]) rfl (by simp) (by simp) (by simp)

/-! ## What comes from outside -/

/-- The worker arrives at the latch. -/
theorem Ok.arrive (h : Ok w) (hpc : w.pc = .arrive) : Ok { w with pc := .latch } := by
  have hphase := h.phase
  rw [hpc] at hphase
  exact h.move hpc hphase (by simp [Worker.items, hpc]) rfl (by simp) (by simp) (by simp)

theorem Ok.enter (h : Ok w) (hpc : w.pc = .latch) : Ok w.enter := by
  have hu : w.userSpace = .unborn := by
    have := h.phase
    rwa [hpc] at this
  have hmade := h.made
  have hfreed := h.freed
  have hhandle := h.handle
  have hitems := h.items
  have honce := h.once
  have htoken := h.token
  rw [hu] at hmade hfreed hhandle htoken
  refine ⟨Or.inl rfl, fun ok => ?_, ?_, ?_, hfreed, hhandle, nofun, nofun, fun _ => rfl, nofun,
    fun _ => h.registered (by rw [hpc]; rfl), h.owed,
    fun ho => (h.attached ho).imp id fun he => absurd (hpc.symm.trans he) (by simp),
    fun hr ho _ _ => htoken hr ho (by rw [hpc]; rfl) rfl⟩
  · have := hitems ok
    simpa [Worker.items, Worker.enter, hpc, hu] using this
  · simpa [Worker.items, Worker.enter, hpc] using honce
  · show w.made + 1 = 1
    rw [hmade]
    rfl

/-- The thread is created. -/
theorem Ok.create (h : Ok w) (hpc : w.pc = .unborn) : Ok { w with pc := .created } := by
  have hphase := h.phase
  rw [hpc] at hphase
  exact h.move hpc hphase (by simp [Worker.items, hpc]) rfl (by simp) (by simp) (by simp)

theorem Ok.wake (h : Ok w) : Ok w.wake :=
  { h with token := fun _ _ _ _ => Nat.succ_pos _ }

/-- The read of the eventfd completes. -/
theorem Ok.complete (h : Ok w) {ok : Bool} {eventFd : Nat} (hu : w.userSpace = .submitted) :
    Ok { w with
      userSpace := .completed ok, eventFd := eventFd, cq := w.cq ++ [.userRead ok] } := by
  have hphase := h.phase
  have hmade := h.made
  have hfreed := h.freed
  have hhandle := h.handle
  rw [hu] at hphase hmade hfreed hhandle
  have hitems : ∀ cq, ({ w with
      userSpace := .completed ok, eventFd := eventFd, cq := cq } : Worker).items =
        cq ++ (w.items.drop w.cq.length) := by
    intro cq
    simp [Worker.items]
  have hsplit : w.items = w.cq ++ w.items.drop w.cq.length := by simp [Worker.items]
  have hnone : ∀ x, Item.userRead x ∉ w.items := by
    intro x hx
    have := (h.items x).mp hx
    rw [hu] at this
    cases this
  refine ⟨?_, fun ok' => ?_, ?_, hmade, hfreed, hhandle, nofun, nofun, h.callback, h.early,
    h.registered, h.owed, h.attached, nofun⟩
  · cases hpc : w.pc with
    | unborn | created | callback | arrive | latch =>
        rw [hpc] at hphase
        cases hphase
    | userSpace =>
        rw [hpc] at hphase
        rcases hphase with h | h | h | ⟨failed, h⟩ <;> cases h
    | submit =>
        rw [hpc] at hphase
        rcases hphase with h | ⟨failed, h⟩ <;> cases h
    | test | wait | peek | exited => exact Or.inr (Or.inl ⟨ok, rfl⟩)
    | execute rest => exact nofun
    | handler rest => exact ⟨nofun, rfl⟩
  · rw [hitems]
    have := hnone ok'
    rw [hsplit] at this
    simp only [List.mem_append, not_or] at this
    simp [this.1, this.2, eq_comm]
  · rw [hitems]
    have hzero : w.items.countP Item.isUserRead = 0 := by
      rw [List.countP_eq_zero]
      intro x hx hread
      cases x with
      | userRead x => exact hnone x hx
      | other => cases hread
    rw [hsplit, List.countP_append] at hzero
    rw [List.countP_append, List.countP_append]
    have : [Item.userRead ok].countP Item.isUserRead = 1 := rfl
    omega

theorem Ok.outside (h : Ok w) {o : Outside} (hs : w.outside o = some w') : Ok w' := by
  cases o with
  | wake =>
      obtain rfl := Option.some.inj hs
      exact h.wake
  | other =>
      obtain rfl := Option.some.inj hs
      have hperm : ({ w with cq := w.cq ++ [.other] } : Worker).items.Perm (.other :: w.items) := by
        show (w.cq ++ [Item.other] ++ _).Perm (Item.other :: (w.cq ++ _))
        rw [List.append_assoc]
        exact List.perm_middle
      refine h.goto h.phase (fun ok => ?_) ?_ rfl id h.awake h.early
      · exact hperm.mem_iff.trans (by simp)
      · exact (hperm.countP_eq _).trans (by simp [Item.isUserRead])
  | read =>
      simp only [Worker.outside] at hs
      split at hs
      · rename_i hc
        obtain rfl := Option.some.inj hs
        exact h.complete hc.1
      · cases hs
  | readFails =>
      simp only [Worker.outside] at hs
      split at hs
      · rename_i hu
        obtain rfl := Option.some.inj hs
        exact h.complete hu
      · cases hs
  | waitFails =>
      simp only [Worker.outside] at hs
      split at hs
      · rename_i hpc
        obtain rfl := Option.some.inj hs
        exact h.exit (Or.inr hpc)
      · cases hs

/-- A stop is requested for the first time. -/
theorem Ok.request (h : Ok w) (hr : w.requested = false) : Ok w.request where
  phase := h.phase
  items := h.items
  once := h.once
  made := h.made
  freed := h.freed
  handle := h.handle
  stopped := fun _ => rfl
  awake := h.awake
  callback := h.callback
  early := fun _ => rfl
  registered := fun _ hr => (nomatch hr)
  owed := fun _ => rfl
  attached := fun ho => Or.inl ho
  token := by
    intro _ ho hl
    -- a worker that listens has a callback, which is still to be called
    have hc := h.registered hl hr
    exact absurd (hc.symm.trans ho) (by simp)

/-- The callback is called. -/
theorem Ok.callBack (h : Ok w) : Ok w.callBack := by
  unfold Worker.callBack
  split
  · exact
      { h with owed := (nofun), attached := (nofun), token := fun _ _ _ _ => Nat.succ_pos _ }
  · rename_i hc
    refine { h with owed := (nofun), attached := (nofun), token := fun hr _ hl hu => ?_ }
    cases ho : w.owed with
    | false => exact h.token hr ho hl hu
    | true =>
        -- the worker has deregistered it and does not sleep any more
        have hexit : w.pc = .exited := (h.attached ho).resolve_left hc
        have hl : w.pc.listening = true := hl
        rw [hexit] at hl
        cases hl

/-! ## A stop wakes the worker -/

/-- **No worker sleeps through a stop.** A worker that sleeps without a completion, although a stop
was requested and the callback called, has its read in the kernel and something to read; or the
read has failed before. -/
theorem Ok.wakes (h : Ok w) (hpc : w.pc = .wait) (hcq : w.cq = []) (hr : w.requested = true)
    (ho : w.owed = false) (hfail : w.userSpace ≠ .ended true) :
    w.userSpace = .submitted ∧ 0 < w.eventFd := by
  have hphase := h.phase
  rw [hpc] at hphase
  rcases hphase with hu | ⟨ok, hu⟩ | ⟨failed, hu⟩
  · exact ⟨hu, h.token hr ho (by rw [hpc]; rfl) (by rw [hu]; rfl)⟩
  · have := (h.items ok).mpr hu
    simp [Worker.items, hpc, hcq] at this
  · cases failed with
    | true => exact absurd hu hfail
    | false => exact absurd hu (h.awake hpc)

/-! ## A worker that is left alone exits

No operation completes any more but the read of the eventfd, and handlers start none. -/

/-- What a worker that is left alone goes on with. -/
inductive Alone where
  | advance (amount : Nat)
  | read
  deriving DecidableEq

def Worker.alone (w : Worker) : Alone → Option Worker
  | .advance amount => w.advance false amount
  | .read => w.outside .read

/-- The read has failed, or will be found to have failed. -/
def UserSpace.failing : UserSpace → Bool
  | .completed ok | .resumed ok => !ok
  | .ended failed => failed
  | .unborn | .swap | .executing | .prepared | .submitted => false

/-- The thread is in `run`, or has left it. -/
def Pc.inRun : Pc → Bool
  | .unborn | .created | .callback | .arrive | .latch => false
  | .userSpace | .submit | .test | .wait | .peek | .execute _ | .handler _ | .exited => true

def UserSpace.rank : UserSpace → Nat
  | .unborn => 32
  | .swap => 30
  | .executing => 28
  | .prepared => 26
  | .submitted => 24
  | .completed _ => 10
  | .resumed _ => 8
  | .ended _ => 0

def Pc.rank : Pc → Nat
  | .unborn => 24
  | .created => 23
  | .callback => 22
  | .arrive => 21
  | .latch | .userSpace => 20
  | .submit => 19
  | .wait => 8
  | .peek => 6
  | .execute rest => 7 + 2 * rest.length
  | .handler rest => 8 + 2 * rest.length
  | .test => 2
  | .exited => 0

/-- A bound on the steps of a worker that is left alone. -/
def Worker.rank (w : Worker) : Nat := w.pc.rank + w.userSpace.rank + 4 * w.cq.length

/-- A stop has reached the worker, and its read works. -/
structure Stopping (w : Worker) : Prop where
  ok : Ok w
  requested : w.requested = true
  owed : w.owed = false
  healthy : w.userSpace.failing = false

theorem rank_runUserSpace (hr : w.requested = true) (hfail : w.userSpace.failing = false)
    (hs : w.runUserSpace false = some w') :
    w'.rank < w.rank ∧ w'.requested = w.requested ∧ w'.owed = w.owed ∧
      w'.userSpace.failing = false := by
  cases hu : w.userSpace with
  | unborn | prepared | submitted | completed ok | ended failed =>
      simp [Worker.runUserSpace, hu] at hs
  | swap | executing =>
      simp only [Worker.runUserSpace, hu] at hs
      obtain rfl := Option.some.inj hs
      refine ⟨?_, rfl, rfl, rfl⟩
      simp only [Worker.rank, hu, UserSpace.rank]
      omega
  | resumed ok =>
      rw [hu] at hfail
      have hok : ok = true := by simpa [UserSpace.failing] using hfail
      subst hok
      simp only [Worker.runUserSpace, hu, hr, Bool.true_eq_false, if_false] at hs
      obtain rfl := Option.some.inj hs
      refine ⟨?_, rfl, rfl, rfl⟩
      simp only [Worker.rank, Worker.endUserSpace, hu, UserSpace.rank]
      omega

/-- A step that leaves the coroutine alone. -/
theorem Stopping.goto (S : Stopping w) {q : Pc} {cq : List Item} {callback : Bool} {eventFd : Nat}
    (h : q.rank + 4 * cq.length < w.pc.rank + 4 * w.cq.length) :
    ({ w with pc := q, cq := cq, callback := callback, eventFd := eventFd } : Worker).rank <
        w.rank ∧
      w.requested = true ∧ w.owed = false ∧ w.userSpace.failing = false := by
  refine ⟨?_, S.requested, S.owed, S.healthy⟩
  simp only [Worker.rank]
  omega

theorem Stopping.submit (S : Stopping w) {q : Pc} (h : q.rank < w.pc.rank) :
    ({ w.submit with pc := q } : Worker).rank < w.rank ∧ w.submit.requested = true ∧
      w.submit.owed = false ∧ w.submit.userSpace.failing = false := by
  unfold Worker.submit
  split
  · rename_i hu
    refine ⟨?_, S.requested, S.owed, rfl⟩
    simp only [Worker.rank, hu, UserSpace.rank]
    omega
  · refine ⟨?_, S.requested, S.owed, S.healthy⟩
    simp only [Worker.rank]
    omega

theorem Stopping.runUserSpace (S : Stopping w) (hs : w.runUserSpace false = some w') :
    w'.rank < w.rank ∧ w'.requested = true ∧ w'.owed = false ∧ w'.userSpace.failing = false := by
  obtain ⟨hlt, hr, ho, hfail⟩ := rank_runUserSpace S.requested S.healthy hs
  exact ⟨hlt, hr.trans S.requested, ho.trans S.owed, hfail⟩

/-- The coroutine is resumed with the completion of its read, which has not failed. -/
theorem Stopping.resume (S : Stopping w) {ok : Bool} {rest : List Item}
    (hpc : w.pc = .execute (.userRead ok :: rest)) :
    ({ w with userSpace := .resumed ok, handle := false, pc := .execute rest } : Worker).rank <
        w.rank ∧
      w.requested = true ∧ w.owed = false ∧ (UserSpace.resumed ok).failing = false := by
  have hu : w.userSpace = .completed ok := (S.ok.items ok).mp (by simp [Worker.items, hpc])
  have hfail := S.healthy
  rw [hu] at hfail
  refine ⟨?_, S.requested, S.owed, hfail⟩
  simp only [Worker.rank, hpc, hu, Pc.rank, UserSpace.rank, List.length_cons]
  omega

theorem rank_advance (S : Stopping w) {amount : Nat} (hs : w.advance false amount = some w') :
    w'.rank < w.rank ∧ w'.requested = true ∧ w'.owed = false ∧
      w'.userSpace.failing = false := by
  cases hpc : w.pc with
  | unborn | arrive | latch | exited => simp [Worker.advance, hpc] at hs
  | created | test =>
      -- the stop has been requested, so there is one branch only
      simp only [Worker.advance, hpc] at hs
      rw [if_pos S.requested] at hs
      obtain rfl := Option.some.inj hs
      exact S.goto (by simp [hpc, Pc.rank])
  | callback =>
      simp only [Worker.advance, hpc] at hs
      obtain rfl := Option.some.inj hs
      exact S.goto (by simp [Worker.wake, hpc, Pc.rank])
  | userSpace =>
      simp only [Worker.advance, hpc] at hs
      split at hs
      · exact S.runUserSpace hs
      · obtain rfl := Option.some.inj hs
        exact S.goto (by simp [hpc, Pc.rank])
  | submit =>
      simp only [Worker.advance, hpc] at hs
      obtain rfl := Option.some.inj hs
      exact S.submit (by simp [hpc, Pc.rank])
  | wait =>
      simp only [Worker.advance, hpc] at hs
      split at hs
      · cases hs
      · obtain rfl := Option.some.inj hs
        exact S.goto (by simp [hpc, Pc.rank])
  | peek =>
      simp only [Worker.advance, hpc] at hs
      split at hs
      · obtain rfl := Option.some.inj hs
        exact S.goto (by simp [hpc, Pc.rank])
      · split at hs
        · -- a completion weighs less in the batch than in the queue
          obtain rfl := Option.some.inj hs
          refine S.goto ?_
          simp only [hpc, Pc.rank, List.length_take, List.length_drop]
          omega
        · cases hs
  | execute rest =>
      simp only [Worker.advance, hpc] at hs
      split at hs
      · exact S.runUserSpace hs
      · cases rest with
        | nil =>
            obtain rfl := Option.some.inj hs
            exact S.submit (by simp [hpc, Pc.rank])
        | cons item rest =>
            cases item with
            | userRead ok =>
                obtain rfl := Option.some.inj hs
                exact S.resume hpc
            | other =>
                obtain rfl := Option.some.inj hs
                refine S.goto ?_
                simp only [hpc, Pc.rank, List.length_cons]
                omega
  | handler rest =>
      simp only [Worker.advance, hpc] at hs
      obtain rfl := Option.some.inj hs
      exact S.goto (by simp [hpc, Pc.rank])

theorem Stopping.alone (S : Stopping w) {a : Alone} (hs : w.alone a = some w') :
    w'.rank < w.rank ∧ Stopping w' := by
  cases a with
  | advance amount =>
      obtain ⟨hlt, hr, ho, hfail⟩ := rank_advance S hs
      exact ⟨hlt, S.ok.advance hs, hr, ho, hfail⟩
  | read =>
      have hok : Ok w' := S.ok.outside (o := .read) hs
      simp only [Worker.alone, Worker.outside] at hs
      split at hs
      · rename_i hc
        obtain rfl := Option.some.inj hs
        refine ⟨?_, hok, S.requested, S.owed, rfl⟩
        simp only [Worker.rank, hc.1, UserSpace.rank, List.length_append, List.length_singleton]
        omega
      · cases hs

/-- As long as the worker has not left `run`, it has a step. -/
theorem Stopping.exited (S : Stopping w) (hrun : w.pc.inRun = true)
    (hstuck : ∀ a, w.alone a = none) : w.pc = .exited := by
  have hadvance : ∀ amount, w.advance false amount = none := fun amount =>
    hstuck (.advance amount)
  have hcoroutine : w.userSpace.running = true → w.runUserSpace false ≠ none := by
    intro hrunning
    cases hu : w.userSpace with
    | unborn | prepared | submitted | completed ok | ended failed =>
        rw [hu] at hrunning
        cases hrunning
    | swap | executing => simp [Worker.runUserSpace, hu]
    | resumed ok =>
        simp only [Worker.runUserSpace, hu]
        split <;> [skip; split] <;> simp
  cases hpc : w.pc with
  | unborn | created | callback | arrive | latch =>
      rw [hpc] at hrun
      cases hrun
  | exited => rfl
  | userSpace =>
      have := hadvance 0
      simp only [Worker.advance, hpc] at this
      split at this
      · rename_i hrunning
        exact absurd this (hcoroutine hrunning)
      · cases this
  | submit =>
      have := hadvance 0
      simp [Worker.advance, hpc] at this
  | test =>
      have := hadvance 0
      simp [Worker.advance, hpc, S.requested] at this
  | wait =>
      -- either a completion is there, or the read of the eventfd completes
      exfalso
      by_cases hcq : w.cq = []
      · have hfail : w.userSpace ≠ .ended true := by
          intro hu
          have := S.healthy
          rw [hu] at this
          cases this
        have hread := S.ok.wakes hpc hcq S.requested S.owed hfail
        have := hstuck .read
        simp [Worker.alone, Worker.outside, hread] at this
      · have := hadvance 0
        simp [Worker.advance, hpc, hcq] at this
  | peek =>
      have := hadvance 1
      simp only [Worker.advance, hpc] at this
      split at this
      · cases this
      · rename_i hcq
        have hlen : 1 ≤ w.cq.length := List.length_pos_iff.mpr hcq
        rw [if_pos ⟨Nat.le_refl 1, by decide, hlen⟩] at this
        cases this
  | execute rest =>
      have := hadvance 0
      simp only [Worker.advance, hpc] at this
      split at this
      · rename_i hrunning
        exact absurd this (hcoroutine hrunning)
      · cases rest with
        | nil => cases this
        | cons item rest => cases item <;> cases this
  | handler rest =>
      have := hadvance 0
      simp [Worker.advance, hpc] at this

end

end Zab.Workers
