import Zab.Engine.TimerBookkeeping

set_option autoImplicit false

/-! # `engine::delayed_resume`

Every worker of the engine has a timer service of its own. `delayed_resume` hands its handle to
the service of the worker it is called on, together with the thread that the handle is to be
resumed in. What `timer_service::wait` does with that thread depends on its history: a handle that
joins a mark is stored with the thread it asks for, a handle whose mark is new with the thread of
the caller.
-/

namespace Zab.DelayedResume

open Automaton TimerService

/-- An engine with `n` workers. -/
structure State (n : Nat) (H : Type) where
  timers : Fin n → Logged H
  /-- The calls of `thread_resume` that `delayed_resume` has made at once. -/
  resumed : List (H × ThreadT)

/-- `this_thead_` of a worker. -/
def currentId {n : Nat} (w : Fin n) : ThreadT := ⟨UInt16.ofNat w.val⟩

/-- The id of a worker; `kAnyThread` is nobody's. -/
def IsWorker (n : Nat) (t : ThreadT) : Prop := t.thread.toNat < n ∧ t ≠ ThreadT.anyThread

instance (n : Nat) (t : ThreadT) : Decidable (IsWorker n t) := inferInstanceAs (Decidable (_ ∧ _))

section

variable {n : Nat} {H : Type}

def init (n : Nat) (H : Type) : State n H := ⟨fun _ => Logged.init H, []⟩

def State.set (s : State n H) (timer : Fin n) (l : Logged H) : State n H :=
  { s with timers := Function.update s.timers timer l }

/-- `wait` of the service of the worker `timer`, called on the worker `caller`. -/
def State.wait (s : State n H) (timer caller : Fin n) (handle : H) (nanoSeconds : Nat)
    (thread : ThreadT) : State n H :=
  s.set timer ((s.timers timer).wait handle nanoSeconds thread (currentId caller))

/-- `delayed_resume(_handle, _order, _thread)`, called on the worker `w`; `anyThread` is what
`get_any_thread()` returns. -/
def State.delayedResume (s : State n H) (w : Fin n) (handle : H) (order : Nat)
    (thread anyThread : ThreadT) : State n H :=
  let thread := if thread = ThreadT.anyThread then anyThread else thread
  if order ≠ 0 then s.wait w w handle order thread
  else { s with resumed := s.resumed ++ [(handle, thread)] }

inductive Action (n : Nat) (H : Type) where
  | delayedResume (w : Fin n) (handle : H) (order : Fin (2 ^ 64)) (thread anyThread : ThreadT)
  | wait (timer caller : Fin n) (handle : H) (nanoSeconds : Fin (2 ^ 64)) (thread : ThreadT)
  /-- `run()` of a timer service processes `readBuffer` expirations. -/
  | expire (timer : Fin n) (readBuffer : Nat)
  deriving DecidableEq

def step (s : State n H) : Action n H → Option (State n H)
  | .delayedResume w handle order thread anyThread =>
      some (s.delayedResume w handle order.val thread anyThread)
  | .wait timer caller handle ns thread => some (s.wait timer caller handle ns.val thread)
  | .expire timer readBuffer => some (s.set timer ((s.timers timer).expire readBuffer))

/-- Handles are delayed, and a worker is asked for. -/
def asked (_ : State n H) : Action n H → Prop
  | .delayedResume _ _ order thread _ => 0 < order.val ∧ IsWorker n thread
  | .wait _ _ _ _ thread => IsWorker n thread
  | .expire _ _ => True

instance : ∀ (s : State n H) (a : Action n H), Decidable (asked s a)
  | _, .delayedResume _ _ _ _ _ => inferInstanceAs (Decidable (_ ∧ _))
  | _, .wait _ _ _ _ _ => inferInstanceAs (Decidable (IsWorker _ _))
  | _, .expire _ _ => inferInstanceAs (Decidable True)

/-- Whatever has been dispatched was sent to the thread that its call asked for. -/
def Lands (s : State n H) : Prop :=
  ∀ w, ∀ d ∈ (s.timers w).service.dispatched, d.1.thread = d.1.handle.thread

/-- The call joined a mark that was there, or asked for the thread that it was made on. -/
def Kept (c : Call H) : Prop := c.joins = true ∨ c.thread = c.caller

instance (c : Call H) : Decidable (Kept c) := inferInstanceAs (Decidable (_ ∨ _))

/-! ## What is stored -/

/-- The thread that `wait` stores. -/
def storedThread (c : Call H) : ThreadT := if c.joins then c.thread else c.caller

theorem storedThread_eq_iff (c : Call H) : storedThread c = c.thread ↔ Kept c := by
  unfold storedThread Kept
  cases c.joins with
  | true => simp
  | false => simp [eq_comm]

/-- Every handle, in the map or dispatched, has the thread that `wait` stored with it. -/
structure Stored (s : Logged H) : Prop where
  waiting : ∀ m ∈ s.service.waiting, ∀ e ∈ m.2, e.thread = storedThread e.handle
  dispatched : ∀ d ∈ s.service.dispatched, d.1.thread = storedThread d.1.handle

theorem stored_init (H : Type) : Stored (Logged.init H) where
  waiting m hm := by cases hm
  dispatched d hd := by cases hd

theorem Stored.wait {s : Logged H} (h : Stored s) (handle : H) (ns : Nat)
    (thread caller : ThreadT) : Stored (s.wait handle ns thread caller) := by
  obtain ⟨c, hc⟩ : ∃ c, s.call handle ns thread caller = c := ⟨_, rfl⟩
  have hthread : c.thread = thread := by rw [← hc]; rfl
  have hcaller : c.caller = caller := by rw [← hc]; rfl
  have hjoins : c.joins = decide (add64 s.service.current ns ∈ keys s.service.waiting) := by
    rw [← hc]; rfl
  simp only [Logged.wait, hc, TimerService.State.wait]
  by_cases hk : add64 s.service.current ns ∈ keys s.service.waiting
  · -- `emplace_back(_handle, _thread)`
    rw [if_neg fun hall => all_ne_iff.mp hall hk]
    refine ⟨fun m hm e he => ?_, h.dispatched⟩
    rcases mem_emplaceBack hm he with ⟨-, rfl⟩ | ⟨es, hes, he⟩
    · simp [storedThread, hjoins, hk, hthread]
    · exact h.waiting _ hes e he
  · -- a new mark is stored with `engine_->current_id()`, whatever `_thread` is
    rw [if_pos (all_ne_iff.mpr hk)]
    have hnew : ∀ m ∈ emplace (add64 s.service.current ns)
        [(⟨c, caller, s.service.now, ns⟩ : Entry (Call H))] s.service.waiting,
        ∀ e ∈ m.2, e.thread = storedThread e.handle := by
      intro m hm e he
      rcases mem_emplace.mp hm with rfl | hm
      · rw [List.mem_singleton.mp he]
        simp [storedThread, hjoins, hk, hcaller]
      · exact h.waiting m hm e he
    split
    · exact ⟨hnew, h.dispatched⟩
    · exact ⟨hnew, h.dispatched⟩

theorem Stored.expire {s : Logged H} (h : Stored s) (readBuffer : Nat) :
    Stored (s.expire readBuffer) := by
  simp only [Logged.expire]
  by_cases hn : readBuffer = 0
  · rw [hn]
    exact ⟨h.waiting, h.dispatched⟩
  obtain ⟨c, hc⟩ :
      ∃ c, c = add64 s.service.current (s.service.timer.interval.nanos * readBuffer) := ⟨_, rfl⟩
  have hdispatched : ∀ d ∈ s.service.dispatched ++
      (s.service.expired c).map (fun e => (e, s.service.now)),
      d.1.thread = storedThread d.1.handle := by
    intro d hd
    rcases List.mem_append.mp hd with hd | hd
    · exact h.dispatched d hd
    · obtain ⟨e, he, rfl⟩ := List.mem_map.mp hd
      obtain ⟨m, hm, hem, -⟩ := mem_expired he
      exact h.waiting m hm e hem
  rcases runLoop_cases hn hc with ⟨-, heq⟩ | ⟨m, l, hp, heq⟩
  · rw [heq]
    exact ⟨fun m hm => absurd hm (List.not_mem_nil), hdispatched⟩
  · rw [heq, ← hp]
    exact ⟨fun m hm => h.waiting m (mem_of_mem_pending hm), hdispatched⟩

theorem stored_set {s : State n H} (h : ∀ w, Stored (s.timers w)) {w : Fin n} {l : Logged H}
    (hl : Stored l) : ∀ v, Stored ((s.set w l).timers v) :=
  (Function.forall_update_iff s.timers fun _ => Stored).mpr ⟨hl, fun v _ => h v⟩

theorem stored_step {s s' : State n H} {a : Action n H} (h : ∀ w, Stored (s.timers w))
    (hs : step s a = some s') : ∀ w, Stored (s'.timers w) := by
  cases a with
  | delayedResume w handle order thread anyThread =>
      obtain rfl := Option.some.inj hs
      simp only [State.delayedResume]
      split
      · exact stored_set h ((h w).wait ..)
      · exact h
  | wait timer caller handle ns thread =>
      obtain rfl := Option.some.inj hs
      exact stored_set h ((h timer).wait ..)
  | expire timer readBuffer =>
      obtain rfl := Option.some.inj hs
      exact stored_set h ((h timer).expire readBuffer)

/-- **Delayed resumes land in the requested thread** exactly if every call of `wait` whose handle
was dispatched joined a mark or asked for its own thread. -/
theorem delayedResume_lands_iff {s : State n H} (h : Reaches step asked (· = init n H) s) :
    Lands s ↔ ∀ w, ∀ d ∈ (s.timers w).service.dispatched, Kept d.1.handle := by
  have hstored : ∀ w, Stored (s.timers w) := by
    refine h.invariant (I := fun s => ∀ w, Stored (s.timers w)) ?_ ?_
    · rintro s rfl w
      exact stored_init H
    · intro s a s' _ hs _ hstep
      exact stored_step hs hstep
  refine forall_congr' fun w => forall₂_congr fun d hd => ?_
  rw [(hstored w).dispatched d hd]
  exact storedThread_eq_iff d.1.handle

end

/-- The worker `0` of two delays a handle for its own thread, and another one for the thread `1`
that joins its mark. -/
theorem delayedResume_lands_iff_sameMark :
    ∃ s, Reaches step asked (· = init 2 Nat) s ∧
      ((s.timers 0).service.dispatched.map fun d => (d.1.handle.handle, d.1.thread)) =
        [(1, ⟨0⟩), (2, ⟨1⟩)] ∧ Lands s := by
  obtain ⟨s, hs, h1, h2⟩ : ∃ s, run step asked (init 2 Nat)
      [.delayedResume 0 1 5 ⟨0⟩ ⟨0⟩, .delayedResume 0 2 5 ⟨1⟩ ⟨0⟩, .expire 0 1] = some s ∧
      ((s.timers 0).service.dispatched.map fun d => (d.1.handle.handle, d.1.thread)) =
        [(1, ⟨0⟩), (2, ⟨1⟩)] ∧
      ∀ w, ∀ d ∈ (s.timers w).service.dispatched, Kept d.1.handle := ⟨_, rfl, rfl, by decide⟩
  have hr : Reaches step asked (· = init 2 Nat) s := Reaches.run (Reaches.start rfl) hs
  exact ⟨s, hr, h1, (delayedResume_lands_iff hr).mpr h2⟩

/-- The worker `0` delays a handle for the thread `1`; it is resumed in the thread `0`. -/
theorem delayedResume_staysOnCaller :
    ∃ s, Reaches step asked (· = init 2 Nat) s ∧
      ((s.timers 0).service.dispatched.map fun d => (d.1.handle.thread, d.1.thread)) =
        [(⟨1⟩, ⟨0⟩)] ∧ ¬ Lands s := by
  obtain ⟨s, hs, h1⟩ : ∃ s, run step asked (init 2 Nat)
      [.delayedResume 0 1 5 ⟨1⟩ ⟨0⟩, .expire 0 1] = some s ∧
      ((s.timers 0).service.dispatched.map fun d => (d.1.handle.thread, d.1.thread)) =
        [(⟨1⟩, ⟨0⟩)] := ⟨_, rfl, rfl⟩
  refine ⟨s, Reaches.run (Reaches.start rfl) hs, h1, fun hlands => ?_⟩
  obtain ⟨d, hd⟩ := List.map_eq_singleton_iff.mp h1
  have := hlands 0 d (by rw [hd.1]; exact List.mem_singleton_self d)
  rw [Prod.mk.injEq] at hd
  rw [hd.2.1, hd.2.2] at this
  exact absurd this (by decide)

end Zab.DelayedResume
