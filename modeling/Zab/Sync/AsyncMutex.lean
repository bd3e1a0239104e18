import Zab.Basic.FifoLock
import Zab.Sync.BinarySemaphoreInv

set_option autoImplicit false

/-! # `async_mutex` is a lock that is handed on in the order of arrival

`calls` says what a step of the semaphore means for a `FifoLock`: a compare-and-swap that finds
`0` takes the lock, the one that publishes a waiter queues its coroutine up, the one that stores
`0` frees the lock, and a `thread_resume` hands it to the coroutine whose handle is in the waiter.
Every other step, the reversing loop among them, means nothing. The semaphore is simulated by the
lock (`simulates`).

The second part is the guard. `async_mutex` has no `unlock` that its users have to remember: the
`co_await` returns an `async_lock_guard`, which can be moved and not copied, and whose destructor
calls `release`. The semaphore does not check who calls `release`; with guards, nobody calls it who
does not own the semaphore.
-/

namespace Zab.BinarySemaphore

open Automaton

/-- What a step means for the lock. -/
def calls (s : State) : Coro × Action → List (FifoLock.Call Coro)
  | (c, .advance spurious) =>
      match s.pc c with
      | .tryAquire => if s.resuming = 0 then [.take c] else [.refuse c]
      | .awaitReady _ => if s.resuming = 0 then [.take c] else []
      | .suspendLoop _ previous =>
          if s.resuming = previous ∧ spurious = false then
            if previous = 0 then [.take c] else [.queue c]
          else []
      | .releaseCas => if s.resuming = kLockFlag then [.release c none] else []
      | .releaseResume head => [.release c (s.mem head).handle]
      | _ => []
  | _ => []

/-- The lock after the construction of the semaphore. -/
def initLock (unlocked : Bool) (creator : Coro) : FifoLock Coro :=
  ⟨if unlocked then none else some creator, []⟩

/-- The lock has the owner and the queue of the semaphore. -/
structure Refines (s : State) (l : FifoLock Coro) : Prop where
  inv : ∃ lc tr ch, Inv s lc tr ch
  owner : ∀ c, s.owns c = true ↔ l.owner = some c
  waiting : s.pushed.map some = s.resumed.map Prod.fst ++ l.waiting.map some

section

variable {s s' : State} {l : FifoLock Coro}

theorem refines_init (unlocked : Bool) (creator : Coro) :
    Refines (init unlocked creator) (initLock unlocked creator) where
  inv := ⟨[], [], [], inv_init unlocked creator⟩
  owner := by
    intro c
    cases unlocked with
    | true => simp [init, initLock]
    | false =>
        simp only [init, initLock, Bool.not_false, Bool.true_and, beq_iff_eq, Bool.false_eq_true,
          if_false, Option.some.injEq]
        exact eq_comm
  waiting := rfl

theorem Refines.owner_none (R : Refines s l) : l.owner = none ↔ s.resuming = 0 := by
  obtain ⟨lc, tr, ch, h⟩ := R.inv
  rw [h.free]
  constructor
  · intro hl c
    refine Bool.eq_false_iff.mpr fun hc => ?_
    rw [(R.owner c).mp hc] at hl
    cases hl
  · intro hall
    refine Option.eq_none_iff_forall_not_mem.mpr fun c hc => ?_
    have := (R.owner c).mpr hc
    rw [hall c] at this
    cases this

/-- A step that means nothing. -/
theorem Refines.silent (R : Refines s l) (hinv : ∃ lc tr ch, Inv s' lc tr ch)
    (hown : s'.owns = s.owns) (hpushed : s'.pushed = s.pushed) (hresumed : s'.resumed = s.resumed) :
    Refines s' l := by
  refine ⟨hinv, ?_, ?_⟩
  · rw [hown]
    exact R.owner
  · rw [hpushed, hresumed]
    exact R.waiting

/-- A coroutine takes the lock. -/
theorem Refines.take (R : Refines s l) {c : Coro} (hinv : ∃ lc tr ch, Inv s' lc tr ch)
    (hfree : s.resuming = 0) (hown : s'.owns = Function.update s.owns c true)
    (hpushed : s'.pushed = s.pushed) (hresumed : s'.resumed = s.resumed) :
    ∃ l', l.step (.take c) = some l' ∧ Refines s' l' := by
  have hnone := R.owner_none.mpr hfree
  refine ⟨{ l with owner := some c }, if_pos hnone, hinv, fun d => ?_, ?_⟩
  · rw [hown]
    by_cases hd : d = c
    · subst hd
      simp
    · rw [Function.update_of_ne hd, R.owner d, hnone]
      simp [Ne.symm hd]
  · rw [hpushed, hresumed]
    exact R.waiting

/-- The owner frees the lock: nobody waits for it. -/
theorem Refines.unlock (R : Refines s l) {c : Coro} (hc : s.pc c = .releaseCas)
    (hinv : ∃ lc tr ch,
      Inv { (s.goto c .idle).setOwner c false with resuming := 0 } lc tr ch) :
    ∃ l', l.step (.release c none) = some l' ∧
      Refines { (s.goto c .idle).setOwner c false with resuming := 0 } l' := by
  obtain ⟨lc, tr, ch, h⟩ := hinv
  have hwait : l.waiting = [] := by
    have hq := h.queue.fifo
    obtain ⟨rfl, rfl, rfl⟩ := h.empty rfl
    have : s.resumed.map Prod.fst ++ l.waiting.map some = s.resumed.map Prod.fst ++ [] :=
      R.waiting.symm.trans hq
    simpa using List.append_cancel_left this
  obtain ⟨lc₀, tr₀, ch₀, h₀⟩ := R.inv
  have how : s.owns c = true := h₀.releasing c (by rw [hc]; rfl)
  have howner := (R.owner c).mp how
  refine ⟨⟨none, l.waiting.tail⟩, if_pos ⟨howner, by rw [hwait]; rfl⟩, ⟨lc, tr, ch, h⟩,
    fun d => ?_, ?_⟩
  · have hfree := h.free.mp rfl d
    rw [hfree]
    simp
  · rw [hwait]
    have := R.waiting
    rw [hwait] at this
    exact this

/-- The owner hands the lock on. -/
theorem Refines.handOver (R : Refines s l) {c : Coro} {head : Nat}
    (hc : s.pc c = .releaseResume head)
    (hinv : ∃ lc tr ch,
      Inv (((s.setOwner c false).threadResume head).goto c .idle) lc tr ch) :
    ∃ l', l.step (.release c (s.mem head).handle) = some l' ∧
      Refines (((s.setOwner c false).threadResume head).goto c .idle) l' := by
  obtain ⟨lc₀, tr₀, ch₀, h₀⟩ := R.inv
  have how : s.owns c = true := h₀.releasing c (by rw [hc]; rfl)
  obtain ⟨w, d, rfl, -, -, hh, hcd⟩ := h₀.resumes hc
  have hh : (s.mem w.val).handle = some d := hh
  have hform : ((s.setOwner c false).threadResume w.val).goto c .idle = { s with
      pc := Function.update (Function.update s.pc d .idle) c .idle
      owns := Function.update (Function.update s.owns c false) d true
      live := Function.update s.live w.val false
      resumed := s.resumed ++ [(some d, (s.mem w.val).thread)] } := by
    simp [State.threadResume, State.setOwner, State.enter, State.goto, hh]
  obtain ⟨lc, tr, ch, h⟩ := hinv
  have hq := h.queue.fifo
  rw [hform] at hq h ⊢
  rw [hh]
  -- what is resumed next has waited longest
  have hwait : l.waiting.map some = some d :: (lc ++ tr ++ ch.reverse).map s.handle := by
    have heq := R.waiting.symm.trans hq
    rw [List.map_append, List.append_assoc] at heq
    exact List.append_cancel_left heq
  obtain ⟨rest, hrest⟩ : ∃ rest, l.waiting = d :: rest := by
    cases hl : l.waiting with
    | nil => simp [hl] at hwait
    | cons e rest =>
        rw [hl, List.map_cons, List.cons.injEq, Option.some.injEq] at hwait
        exact ⟨rest, by rw [hwait.1]⟩
  refine ⟨⟨some d, l.waiting.tail⟩, if_pos ⟨(R.owner c).mp how, by rw [hrest]; rfl⟩,
    ⟨lc, tr, ch, h⟩, fun e => ?_, ?_⟩
  · show Function.update (Function.update s.owns c false) d true e = true ↔ some d = some e
    rw [Function.update_apply]
    split
    · rename_i he
      simp [he]
    · rename_i he
      have hne : some d ≠ some e := fun h => he (Option.some.inj h).symm
      rw [Function.update_apply]
      split
      · simp [hne]
      · rename_i hec
        exact iff_of_false (fun h' => hec (h₀.owner e c h' how)) hne
  · have hw := R.waiting
    rw [hrest] at hw ⊢
    show s.pushed.map some = (s.resumed ++ [(some d, (s.mem w.val).thread)]).map Prod.fst ++
      rest.map some
    rw [hw]
    simp

theorem write_resuming (s : State) (w : Nat) (n : Waiter) :
    (s.write w n).resuming = s.resuming := rfl

/-- A step of an operation. -/
theorem Refines.advance (R : Refines s l) {c : Coro} {spurious : Bool}
    (hs : s.advance c spurious = some s') :
    ∃ l', follow FifoLock.step l (calls s (c, .advance spurious)) = some l' ∧ Refines s' l' := by
  obtain ⟨lc, tr, ch, h⟩ := R.inv
  have hinv := h.advance hs
  have hsilent : calls s (c, .advance spurious) = [] → s'.owns = s.owns → s'.pushed = s.pushed →
      s'.resumed = s.resumed →
      ∃ l', follow FifoLock.step l (calls s (c, .advance spurious)) = some l' ∧ Refines s' l' := by
    intro hcalls hown hpushed hresumed
    rw [hcalls]
    exact ⟨l, rfl, R.silent hinv hown hpushed hresumed⟩
  cases hc : s.pc c with
  | idle | suspended w => simp [State.advance, hc] at hs
  | tryAquire =>
      simp only [State.advance, hc] at hs
      simp only [calls, hc]
      split at hs <;> rename_i hfree <;> obtain rfl := Option.some.inj hs
      · rw [if_pos hfree, follow_singleton]
        exact R.take hinv hfree rfl rfl rfl
      · rw [if_neg hfree, follow_singleton]
        refine ⟨l, ?_, R.silent hinv rfl rfl rfl⟩
        exact if_neg fun hnone => hfree (R.owner_none.mp hnone)
  | awaitReady w =>
      simp only [State.advance, hc] at hs
      simp only [calls, hc]
      split at hs <;> rename_i hfree <;> obtain rfl := Option.some.inj hs
      · rw [if_pos hfree, follow_singleton]
        exact R.take hinv hfree rfl rfl rfl
      · rw [if_neg hfree]
        exact ⟨l, rfl, R.silent hinv rfl rfl rfl⟩
  | suspendLoad w =>
      simp only [State.advance, hc] at hs
      obtain rfl := Option.some.inj hs
      exact hsilent (by simp [calls, hc]) rfl rfl rfl
  | suspendLoop w previous =>
      simp only [State.advance, hc] at hs
      simp only [calls, hc]
      by_cases hcas : s.resuming = previous ∧ spurious = false
      · rw [if_pos hcas]
        by_cases hzero : previous = 0
        · rw [if_pos hzero, if_pos hcas] at hs
          obtain rfl := Option.some.inj hs
          rw [if_pos hzero, follow_singleton]
          exact R.take hinv (hcas.1.trans hzero) rfl rfl rfl
        · rw [if_neg hzero, write_resuming, if_pos hcas] at hs
          obtain rfl := Option.some.inj hs
          rw [if_neg hzero, follow_singleton]
          have hne : l.owner ≠ none := fun hnone =>
            hzero (hcas.1.symm.trans (R.owner_none.mp hnone))
          refine ⟨{ l with waiting := l.waiting ++ [c] }, if_neg hne, hinv, R.owner, ?_⟩
          show (s.pushed ++ [c]).map some =
            s.resumed.map Prod.fst ++ (l.waiting ++ [c]).map some
          rw [List.map_append, R.waiting, List.map_append, List.append_assoc]
      · rw [if_neg hcas]
        by_cases hzero : previous = 0
        · rw [if_pos hzero, if_neg hcas] at hs
          obtain rfl := Option.some.inj hs
          exact ⟨l, rfl, R.silent hinv rfl rfl rfl⟩
        · rw [if_neg hzero, write_resuming, if_neg hcas] at hs
          obtain rfl := Option.some.inj hs
          exact ⟨l, rfl, R.silent hinv rfl rfl rfl⟩
  | releaseStart =>
      simp only [State.advance, hc] at hs
      split at hs <;> obtain rfl := Option.some.inj hs
      · exact hsilent (by simp [calls, hc]) rfl rfl rfl
      · exact hsilent (by simp [calls, hc]) rfl rfl rfl
  | releaseCas =>
      simp only [State.advance, hc] at hs
      simp only [calls, hc]
      split at hs <;> rename_i hlock <;> obtain rfl := Option.some.inj hs
      · rw [if_pos hlock, follow_singleton]
        exact R.unlock hc hinv
      · rw [if_neg hlock]
        exact ⟨l, rfl, R.silent hinv rfl rfl rfl⟩
  | releaseExchange =>
      simp only [State.advance, hc] at hs
      obtain rfl := Option.some.inj hs
      exact hsilent (by simp [calls, hc]) rfl rfl rfl
  | releaseReverse head next =>
      simp only [State.advance, hc] at hs
      split at hs <;> obtain rfl := Option.some.inj hs
      · exact hsilent (by simp [calls, hc]) rfl rfl rfl
      · exact hsilent (by simp [calls, hc]) rfl rfl rfl
  | releaseTransfer head =>
      simp only [State.advance, hc] at hs
      obtain rfl := Option.some.inj hs
      exact hsilent (by simp [calls, hc]) rfl rfl rfl
  | releaseResume head =>
      simp only [State.advance, hc] at hs
      simp only [calls, hc]
      obtain rfl := Option.some.inj hs
      rw [follow_singleton]
      exact R.handOver hc hinv

/-- A call begins. -/
theorem Refines.begin (R : Refines s l) {c : Coro} {a : Action}
    (hs : BinarySemaphore.step s (c, a) = some s') (ha : ∀ spurious, a ≠ .advance spurious) :
    calls s (c, a) = [] ∧ Refines s' l := by
  obtain ⟨lc, tr, ch, h⟩ := R.inv
  have hinv := h.step hs
  cases a with
  | advance spurious => exact absurd rfl (ha spurious)
  | tryAquire | coAwait w t | release =>
      simp only [BinarySemaphore.step] at hs
      split at hs
      · obtain rfl := Option.some.inj hs
        exact ⟨rfl, R.silent hinv rfl rfl rfl⟩
      · cases hs

/-- **The simulation.** -/
theorem simulates (unlocked : Bool) (creator : Coro) :
    Simulates BinarySemaphore.step anyStep (· = init unlocked creator) FifoLock.step
      (· = initLock unlocked creator) calls Refines where
  start := by
    rintro s rfl
    exact ⟨_, rfl, refines_init unlocked creator⟩
  next := by
    rintro s ⟨c, a⟩ s' l - R - hs
    cases a with
    | advance spurious => exact R.advance hs
    | tryAquire | coAwait w t | release =>
        obtain ⟨hcalls, R'⟩ := R.begin hs (by simp)
        rw [hcalls]
        exact ⟨l, rfl, R'⟩

/-- **`async_mutex` is a lock that is handed on in the order of arrival.** -/
theorem asyncMutex_fifoLock {unlocked : Bool} {creator : Coro} {l : List (FifoLock.Call Coro)}
    (h : ReachesBy step anyStep (· = init unlocked creator) calls s l) :
    ∃ t, follow FifoLock.step (initLock unlocked creator) l = some t ∧
      (∀ c, s.owns c = true ↔ t.owner = some c) ∧
      FifoLock.queued l = FifoLock.handed l ++ t.waiting ∧
      ∀ c, c ∈ t.waiting ↔ ∃ w, s.pc c = .suspended w := by
  obtain ⟨_, t, rfl, ht, R⟩ := (simulates unlocked creator).run h
  refine ⟨t, ht, R.owner, FifoLock.follow_order ht, fun c => ?_⟩
  obtain ⟨lc, tr, ch, hinv⟩ := R.inv
  -- both sides are what is pushed and not resumed
  have hq : t.waiting.map some = (lc ++ tr ++ ch.reverse).map s.handle :=
    List.append_cancel_left (R.waiting.symm.trans hinv.queue.fifo)
  have hmem : c ∈ t.waiting ↔ some c ∈ (lc ++ tr ++ ch.reverse).map s.handle := by
    rw [← hq]
    simp
  rw [hmem, List.mem_map]
  constructor
  · rintro ⟨w, hw, hh⟩
    obtain ⟨d, hd⟩ := (hinv.queue.mem w).mp hw
    obtain rfl : c = d := by
      have := hinv.queue.names d w (by rw [hd]; rfl)
      exact Option.some.inj (hh.symm.trans this)
    exact ⟨w, Pc.eq_of_asleep hd⟩
  · rintro ⟨w, hw⟩
    refine ⟨w, (hinv.queue.mem w).mpr ⟨c, by rw [hw]; rfl⟩, ?_⟩
    exact hinv.queue.names c w (by rw [hw]; rfl)

/-- The release of `twoQueued` goes on to its end. -/
def handedOn : List (Coro × Action) := twoQueued ++ List.replicate 3 (1, .advance false)

theorem asyncMutex_fifoLock_handedOn : ∃ (s : State) (t : FifoLock Coro), s.pc 2 = .idle ∧
    follow FifoLock.step (initLock true 0)
      [.take 1, .queue 2, .queue 3, .release 1 (some 2)] = some t ∧ t.owner = some 2 ∧
      s.owns 2 = true := by
  have h : ReachesBy step anyStep (· = init true 0) calls
      ((follow step (init true 0) handedOn).getD (init true 0))
      [.take 1, .queue 2, .queue 3, .release 1 (some 2)] :=
    Reaches.follow (s := (init true 0, [])) (l := handedOn) (Reaches.start ⟨rfl, rfl⟩)
      (fun _ _ _ => trivial) rfl
  obtain ⟨t, ht, hown, -⟩ := asyncMutex_fifoLock h
  exact ⟨(follow step (init true 0) handedOn).getD (init true 0), t, rfl, ht,
    (hown 2).mp rfl, rfl⟩
end

end Zab.BinarySemaphore

namespace Zab.AsyncMutex

open Automaton BinarySemaphore

/-! ## The guard -/

/-- A mutex and what its users have of it. -/
structure State where
  sem : BinarySemaphore.State
  /-- The guards of a coroutine, by whether `sem_` is set. -/
  guards : Coro → List Bool
  /-- The last `try_lock` has returned true, and `unlock` was not called since. -/
  locked : Coro → Bool
  /-- The coroutine is in a `co_await` of the mutex. -/
  awaiting : Coro → Bool
  /-- Somebody has called `release` who does not own the semaphore. -/
  fault : Bool

/-- The constructor of `async_mutex` makes a semaphore that is unlocked. -/
def init (creator : Coro) : State where
  sem := BinarySemaphore.init true creator
  guards := fun _ => []
  locked := fun _ => false
  awaiting := fun _ => false
  fault := false

inductive Action where
  | tryLock (c : Coro)
  /-- `co_await`, with the `waiter` at address `w`. -/
  | coAwait (c : Coro) (w : Addr)
  /-- The next step of the semaphore's operation that `c` is in. -/
  | advance (c : Coro) (spurious : Bool)
  /-- `await_resume` makes the guard. -/
  | awaitResume (c : Coro)
  /-- A guard is made from the guard `i`, which is moved from. -/
  | moveGuard (c : Coro) (i : Nat)
  /-- The guard `i` is destroyed. -/
  | dropGuard (c : Coro) (i : Nat)
  | unlock (c : Coro)
  deriving DecidableEq

/-- `c` runs code of its own. -/
def State.running (s : State) (c : Coro) : Prop := s.sem.pc c = .idle ∧ s.awaiting c = false

instance (s : State) (c : Coro) : Decidable (s.running c) :=
  inferInstanceAs (Decidable (_ ∧ _))

def State.setGuards (s : State) (c : Coro) (l : List Bool) : State :=
  { s with guards := Function.update s.guards c l }

def State.setLocked (s : State) (c : Coro) (b : Bool) : State :=
  { s with locked := Function.update s.locked c b }

def State.setAwaiting (s : State) (c : Coro) (b : Bool) : State :=
  { s with awaiting := Function.update s.awaiting c b }

def State.call (s : State) (c : Coro) (a : BinarySemaphore.Action) : Option State :=
  (BinarySemaphore.step s.sem (c, a)).map fun sem => { s with sem := sem }

/-- `sem_->release()`. -/
def State.release (s : State) (c : Coro) : State :=
  (s.call c .release).getD { s with fault := true }

def step (s : State) : Action → Option State
  | .tryLock c => if s.running c then s.call c .tryAquire else none
  | .coAwait c w =>
      if s.running c then
        (s.call c (.coAwait w ThreadT.anyThread)).map fun s => s.setAwaiting c true
      else none
  | .advance c spurious =>
      (s.call c (.advance spurious)).map fun s' =>
        -- `try_lock` returns true if the compare-and-swap finds the semaphore unlocked
        if s.sem.pc c = .tryAquire ∧ s.sem.resuming = 0 then s'.setLocked c true else s'
  | .awaitResume c =>
      if s.sem.pc c = .idle ∧ s.awaiting c = true then
        some ((s.setGuards c (s.guards c ++ [true])).setAwaiting c false)
      else none
  | .moveGuard c i =>
      if s.running c then
        (s.guards c)[i]?.map fun sem => s.setGuards c ((s.guards c).set i false ++ [sem])
      else none
  | .dropGuard c i =>
      if s.running c then
        (s.guards c)[i]?.map fun sem =>
          let s := s.setGuards c ((s.guards c).eraseIdx i)
          if sem then s.release c else s
      else none
  | .unlock c =>
      if s.running c ∧ s.locked c = true then some ((s.setLocked c false).release c) else none

def Reachable (creator : Coro) : State → Prop := Reaches step anyStep (· = init creator)

/-! ### What a step of the semaphore does to its users -/

/-- What an operation is for. -/
inductive Kind where
  | idle
  | trying
  | awaiting
  | releasing
  deriving DecidableEq

def kind : Pc → Kind
  | .idle => .idle
  | .tryAquire => .trying
  | .awaitReady _ | .suspendLoad _ | .suspendLoop _ _ | .suspended _ => .awaiting
  | .releaseStart | .releaseCas | .releaseExchange | .releaseReverse _ _ | .releaseTransfer _
  | .releaseResume _ => .releasing

theorem kind_idle {q : Pc} : kind q = .idle ↔ q = .idle := by
  cases q <;> simp [kind]

/-- What a step of an operation of `c` does. -/
inductive Effect (s : BinarySemaphore.State) (c : Coro) : BinarySemaphore.State → Prop
  | goesOn {s' : BinarySemaphore.State} (q : Pc) (hpc : s'.pc = Function.update s.pc c q)
      (howns : s'.owns = s.owns) (hkind : kind q = kind (s.pc c)) (hidle : kind q ≠ .idle)
      (htry : s.pc c ≠ .tryAquire) : Effect s c s'
  | refused {s' : BinarySemaphore.State} (hpc : s'.pc = Function.update s.pc c .idle)
      (howns : s'.owns = s.owns) (htry : s.pc c = .tryAquire) (hne : s.resuming ≠ 0) :
      Effect s c s'
  | takes {s' : BinarySemaphore.State} (hpc : s'.pc = Function.update s.pc c .idle)
      (howns : s'.owns = Function.update s.owns c true) (hfree : s.resuming = 0)
      (hkind : s.pc c = .tryAquire ∨ kind (s.pc c) = .awaiting) : Effect s c s'
  | frees {s' : BinarySemaphore.State} (hpc : s'.pc = Function.update s.pc c .idle)
      (howns : s'.owns = Function.update s.owns c false) (hkind : kind (s.pc c) = .releasing) :
      Effect s c s'
  | hands {s' : BinarySemaphore.State} (d : Coro) (hne : d ≠ c)
      (hpc : s'.pc = Function.update (Function.update s.pc d .idle) c .idle)
      (howns : s'.owns = Function.update (Function.update s.owns c false) d true)
      (hkind : kind (s.pc c) = .releasing) (hd : kind (s.pc d) = .awaiting) : Effect s c s'

theorem effect_of_advance {s s' : BinarySemaphore.State} {lc tr ch : List Addr} (h : Inv s lc tr ch)
    {c : Coro} {b : Bool} (hs : s.advance c b = some s') : Effect s c s' := by
  cases advances_of_advance hs with
  | tryTakes hc hfree => exact .takes rfl rfl hfree (.inl hc)
  | tryFails hc hne => exact .refused rfl rfl hc hne
  | isReady w hc hfree | takes w hc hfree =>
      exact .takes rfl rfl hfree (.inr (by rw [hc]; rfl))
  | storesHandle w hc | loads w hc | retriesTake w hc | suspends w _ hc | retries w _ hc
  | listEmpty hc | listHead hc | hasWaiters hc | exchanges hc | reverses _ _ hc | reversed _ _ hc
  | transfers _ hc =>
      exact .goesOn _ rfl rfl (by rw [hc]; rfl) (by simp [kind]) (by simp [hc])
  | unlocks hc => exact .frees rfl rfl (by rw [hc]; rfl)
  | resumes head hc =>
      obtain ⟨w, d, rfl, -, hd, hh, hcd⟩ := h.resumes hc
      have hh : (s.mem w.val).handle = some d := hh
      refine .hands d (Ne.symm hcd) ?_ ?_ (by rw [hc]; rfl) (by rw [hd]; rfl)
      all_goals simp [State.threadResume, State.setOwner, State.enter, State.goto, hh]

/-! ### The invariant -/

/-- What a coroutine has to do with the mutex. -/
structure Use where
  guards : List Bool
  locked : Bool
  awaiting : Bool
  kind : Kind
  owns : Bool

def State.use (s : State) (c : Coro) : Use :=
  ⟨s.guards c, s.locked c, s.awaiting c, AsyncMutex.kind (s.sem.pc c), s.sem.owns c⟩

/-- An idle coroutine whose `co_await` is over will make a guard, and one in a `release` has
destroyed one. -/
def Use.pending (u : Use) : Nat :=
  match u.kind with
  | .idle => u.awaiting.toNat
  | .releasing => 1
  | .trying | .awaiting => 0

/-- How many times the coroutine has the lock. -/
def Use.held (u : Use) : Nat := u.guards.count true + u.locked.toNat + u.pending

/-- The coroutine has the lock exactly if it owns the semaphore, and once. -/
structure Use.Ok (u : Use) : Prop where
  held : u.held = u.owns.toNat
  asks : u.kind = .awaiting → u.awaiting = true
  awaits : u.awaiting = true → u.kind = .awaiting ∨ u.kind = .idle

theorem Use.Ok.awaiting_false {u : Use} (h : u.Ok) (hk : u.kind ≠ .awaiting) (hi : u.kind ≠ .idle) :
    u.awaiting = false := by
  refine Bool.eq_false_iff.mpr fun ha => ?_
  rcases h.awaits ha with hk' | hi'
  · exact hk hk'
  · exact hi hi'

/-- A `try_lock` that returns false. -/
theorem Use.Ok.refused {u : Use} (h : u.Ok) (hk : u.kind = .trying) :
    Use.Ok { u with kind := .idle } := by
  have ha : u.awaiting = false := h.awaiting_false (by simp [hk]) (by simp [hk])
  refine ⟨?_, (fun h => by cases h), fun _ => Or.inr rfl⟩
  have := h.held
  simpa [Use.held, Use.pending, hk, ha] using this

/-- A `try_lock` that returns true. -/
theorem Use.Ok.tryTakes {u : Use} (h : u.Ok) (hk : u.kind = .trying) (ho : u.owns = false) :
    Use.Ok { u with kind := .idle, owns := true, locked := true } := by
  have ha : u.awaiting = false := h.awaiting_false (by simp [hk]) (by simp [hk])
  refine ⟨?_, (fun h => by cases h), fun _ => Or.inr rfl⟩
  have := h.held
  simp only [Use.held, ho, Bool.toNat_false] at this
  simp only [Use.held, Use.pending, ha, Bool.toNat_false, Bool.toNat_true]
  omega

/-- A `co_await` is over. -/
theorem Use.Ok.takes {u : Use} (h : u.Ok) (hk : u.kind = .awaiting) (ho : u.owns = false) :
    Use.Ok { u with kind := .idle, owns := true } := by
  refine ⟨?_, (fun h => by cases h), fun _ => Or.inr rfl⟩
  have := h.held
  simp only [Use.held, ho, Bool.toNat_false] at this
  simp only [Use.held, Use.pending, h.asks hk, Bool.toNat_true]
  omega

/-- A `release` is over. -/
theorem Use.Ok.frees {u : Use} (h : u.Ok) (hk : u.kind = .releasing) :
    Use.Ok { u with kind := .idle, owns := false } := by
  have ha : u.awaiting = false := h.awaiting_false (by simp [hk]) (by simp [hk])
  refine ⟨?_, (fun h => by cases h), fun _ => Or.inr rfl⟩
  have hheld := h.held
  have hle : u.owns.toNat ≤ 1 := Bool.toNat_le u.owns
  simp only [Use.held, Use.pending, hk] at hheld
  simp only [Use.held, Use.pending, ha, Bool.toNat_false]
  omega

structure Guarded (s : State) : Prop where
  sem : ∃ lc tr ch, Inv s.sem lc tr ch
  use : ∀ c, (s.use c).Ok
  fault : s.fault = false

section

variable {s s' : State} {c : Coro}

/-- A step that concerns `c` alone. -/
theorem Guarded.of_use (G : Guarded s) (c : Coro) (hinv : ∃ lc tr ch, Inv s'.sem lc tr ch)
    (hfault : s'.fault = s.fault) (hc : (s'.use c).Ok) (hother : ∀ d, d ≠ c → s'.use d = s.use d) :
    Guarded s' := by
  refine ⟨hinv, fun d => ?_, hfault.trans G.fault⟩
  by_cases hd : d = c
  · rw [hd]
    exact hc
  · rw [hother d hd]
    exact G.use d

/-- What has the lock owns the semaphore. -/
theorem Guarded.owns (G : Guarded s) (h : 0 < (s.use c).held) : s.sem.owns c = true := by
  have hheld := (G.use c).held
  by_contra hown
  have hfalse : s.sem.owns c = false := Bool.eq_false_iff.mpr hown
  have : (s.use c).held = 0 := by
    rw [hheld]
    show (s.sem.owns c).toNat = 0
    rw [hfalse]
    rfl
  omega

/-- The beginning of a call on the semaphore. -/
theorem call_begins {a : BinarySemaphore.Action} (ha : ∀ b, a ≠ .advance b)
    (hs : s.call c a = some s') : ∃ q, s'.sem.pc = Function.update s.sem.pc c q ∧
      s'.sem.owns = s.sem.owns ∧ s'.guards = s.guards ∧ s'.locked = s.locked ∧
      s'.awaiting = s.awaiting ∧ s'.fault = s.fault ∧
      kind q = match a with
        | .tryAquire => .trying
        | .coAwait _ _ => .awaiting
        | _ => .releasing := by
  obtain ⟨sem, hsem, rfl⟩ := Option.map_eq_some_iff.mp hs
  cases a with
  | advance b => exact absurd rfl (ha b)
  | tryAquire | coAwait w t | release =>
      simp only [BinarySemaphore.step] at hsem
      split at hsem
      · obtain rfl := Option.some.inj hsem
        exact ⟨_, rfl, rfl, rfl, rfl, rfl, rfl, rfl⟩
      · cases hsem

theorem call_inv {a : BinarySemaphore.Action} (G : Guarded s) (hs : s.call c a = some s') :
    ∃ lc tr ch, Inv s'.sem lc tr ch := by
  obtain ⟨sem, hsem, rfl⟩ := Option.map_eq_some_iff.mp hs
  obtain ⟨lc, tr, ch, h⟩ := G.sem
  exact h.step hsem

/-- **Whoever has the lock can release it**, once: `s` is the state in which what gave the lock to
`c` is gone, and `u` what `c` had before. -/
theorem Guarded.release {u : Use} (hinv : ∃ lc tr ch, Inv s.sem lc tr ch) (hfault : s.fault = false)
    (hother : ∀ d, d ≠ c → (s.use d).Ok) (hrun : s.running c) (hu : u.Ok)
    (howns : u.owns = s.sem.owns c) (hheld : (s.use c).held + 1 = u.held) :
    Guarded (s.release c) := by
  have hown : s.sem.owns c = true := by
    have hle := hu.held
    rw [howns] at hle
    by_contra hown
    rw [Bool.eq_false_iff.mpr hown] at hle
    simp only [Bool.toNat_false] at hle
    omega
  have hstep : BinarySemaphore.step s.sem (c, .release) = some (s.sem.goto c .releaseStart) :=
    if_pos ⟨hrun.1, hown⟩
  have heq : s.release c = { s with sem := s.sem.goto c .releaseStart } := by
    simp [State.release, State.call, hstep]
  obtain ⟨lc, tr, ch, h⟩ := hinv
  rw [heq]
  refine ⟨h.step hstep, fun d => ?_, hfault⟩
  by_cases hd : d = c
  · subst hd
    have hkind : AsyncMutex.kind (s.sem.pc d) = .idle := kind_idle.mpr hrun.1
    have huse : State.use { s with sem := s.sem.goto d .releaseStart } d =
        { s.use d with kind := .releasing } := by
      simp [State.use, kind, BinarySemaphore.State.goto]
    rw [huse]
    refine ⟨?_, (fun h => by cases h), fun h => ?_⟩
    · -- the guard that is gone is now the `release` in progress
      have hpend : (s.use d).pending = 0 := by
        simp [Use.pending, State.use, hkind, hrun.2]
      have hnow : Use.held { s.use d with kind := .releasing } = (s.use d).held + 1 := by
        simp only [Use.held, hpend]
        rfl
      rw [hnow, hheld, hu.held, howns]
      rfl
    · have : s.awaiting d = true := h
      rw [hrun.2] at this
      cases this
  · have huse : State.use { s with sem := s.sem.goto c .releaseStart } d = s.use d := by
      simp [State.use, hd, BinarySemaphore.State.goto]
    rw [huse]
    exact hother d hd

theorem Guarded.tryLock (G : Guarded s) (hrun : s.running c) (hs : s.call c .tryAquire = some s') :
    Guarded s' := by
  obtain ⟨q, hpc, howns, hg, hl, ha, hf, hq⟩ := call_begins (by simp) hs
  have hkind : kind (s.sem.pc c) = .idle := kind_idle.mpr hrun.1
  have huse : s'.use c = { s.use c with kind := .trying } := by
    simp [State.use, hpc, howns, hg, hl, ha, hq]
  refine G.of_use c (call_inv G hs) hf ?_ fun d hd => ?_
  swap
  · simp [State.use, hpc, howns, hg, hl, ha, hd]
  rw [huse]
  refine ⟨?_, (fun h => by cases h), fun h => ?_⟩
  · have := (G.use c).held
    simpa [Use.held, Use.pending, State.use, hkind, hrun.2] using this
  · exact absurd (hrun.2.symm.trans h) (by simp)

theorem Guarded.coAwait (G : Guarded s) {w : Addr} {t : ThreadT} (hrun : s.running c)
    (hs : s.call c (.coAwait w t) = some s') : Guarded (s'.setAwaiting c true) := by
  obtain ⟨q, hpc, howns, hg, hl, ha, hf, hq⟩ := call_begins (by simp) hs
  have hkind : kind (s.sem.pc c) = .idle := kind_idle.mpr hrun.1
  have huse : (s'.setAwaiting c true).use c =
      { s.use c with kind := .awaiting, awaiting := true } := by
    simp [State.use, State.setAwaiting, hpc, howns, hg, hl, hq]
  have hinv := call_inv G hs
  refine G.of_use c hinv hf ?_ fun d hd => ?_
  swap
  · simp [State.use, State.setAwaiting, hpc, howns, hg, hl, ha, hd]
  rw [huse]
  refine ⟨?_, fun _ => rfl, fun _ => Or.inl rfl⟩
  have := (G.use c).held
  simpa [Use.held, Use.pending, State.use, hkind, hrun.2] using this

theorem Guarded.awaitResume (G : Guarded s) (hc : s.sem.pc c = .idle) (ha : s.awaiting c = true) :
    Guarded ((s.setGuards c (s.guards c ++ [true])).setAwaiting c false) := by
  have hkind : kind (s.sem.pc c) = .idle := kind_idle.mpr hc
  have huse : ((s.setGuards c (s.guards c ++ [true])).setAwaiting c false).use c =
      { s.use c with guards := s.guards c ++ [true], awaiting := false } := by
    simp [State.use, State.setAwaiting, State.setGuards]
  refine G.of_use c G.sem rfl ?_ fun d hd => ?_
  · rw [huse]
    refine ⟨?_, fun h => ?_, (fun h => by cases h)⟩
    · -- what was pending is the new guard
      have := (G.use c).held
      simp only [Use.held, Use.pending, State.use, hkind, ha, Bool.toNat_true] at this
      simp only [Use.held, Use.pending, State.use, hkind, List.count_append, Bool.toNat_false]
      rw [List.count_singleton_self]
      omega
    · have h : kind (s.sem.pc c) = .awaiting := h
      rw [hkind] at h
      cases h
  · simp [State.use, State.setAwaiting, State.setGuards, hd]

/-- A step of `c` on its guards that changes neither how many of them have the lock nor anything
else. -/
theorem Guarded.setGuards (G : Guarded s) {l : List Bool}
    (hcount : l.count true = (s.guards c).count true) : Guarded (s.setGuards c l) := by
  have huse : (s.setGuards c l).use c = { s.use c with guards := l } := by
    simp [State.use, State.setGuards]
  refine G.of_use c G.sem rfl ?_ fun d hd => ?_
  · rw [huse]
    refine ⟨?_, (G.use c).asks, (G.use c).awaits⟩
    have := (G.use c).held
    simpa [Use.held, Use.pending, State.use, hcount] using this
  · simp [State.use, State.setGuards, hd]

/-- **A step of an operation.** -/
theorem Guarded.advance (G : Guarded s) {b : Bool} {sem : BinarySemaphore.State}
    (hs : s.sem.advance c b = some sem) :
    Guarded (if s.sem.pc c = .tryAquire ∧ s.sem.resuming = 0 then
      State.setLocked { s with sem := sem } c true else { s with sem := sem }) := by
  obtain ⟨lc, tr, ch, h⟩ := G.sem
  have hinv := h.advance hs
  have hnone : s.sem.resuming = 0 → ∀ d, s.sem.owns d = false := h.free.mp
  cases effect_of_advance h hs with
  | goesOn q hpc howns hkind _ htry =>
      rw [if_neg fun hc => htry hc.1]
      have huse : ∀ d, State.use { s with sem := sem } d = s.use d := by
        intro d
        by_cases hd : d = c
        · simp [State.use, hpc, howns, hd, hkind]
        · simp [State.use, hpc, howns, hd]
      exact ⟨hinv, fun d => huse d ▸ G.use d, G.fault⟩
  | refused hpc howns htry hne =>
      rw [if_neg fun hc => hne hc.2]
      refine G.of_use c hinv rfl ?_ fun d hd => by simp [State.use, hpc, howns, hd]
      have huse : State.use { s with sem := sem } c = { s.use c with kind := .idle } := by
        simp [State.use, hpc, howns, kind]
      rw [huse]
      exact (G.use c).refused (by simp [State.use, htry, kind])
  | takes hpc howns hfree hkind =>
      by_cases htry : s.sem.pc c = .tryAquire
      · rw [if_pos ⟨htry, hfree⟩]
        refine G.of_use c hinv rfl ?_ fun d hd => by
          simp [State.use, State.setLocked, hpc, howns, hd]
        have huse : State.use (State.setLocked { s with sem := sem } c true) c =
            { s.use c with kind := .idle, owns := true, locked := true } := by
          simp [State.use, State.setLocked, hpc, howns, kind]
        rw [huse]
        exact (G.use c).tryTakes (by simp [State.use, htry, kind]) (hnone hfree c)
      · rw [if_neg fun hc => htry hc.1]
        refine G.of_use c hinv rfl ?_ fun d hd => by simp [State.use, hpc, howns, hd]
        have huse : State.use { s with sem := sem } c =
            { s.use c with kind := .idle, owns := true } := by
          simp [State.use, hpc, howns, kind]
        rw [huse]
        exact (G.use c).takes (hkind.resolve_left htry) (hnone hfree c)
  | frees hpc howns hkind =>
      rw [if_neg fun hc => by rw [hc.1] at hkind; cases hkind]
      refine G.of_use c hinv rfl ?_ fun d hd => by simp [State.use, hpc, howns, hd]
      have huse : State.use { s with sem := sem } c =
          { s.use c with kind := .idle, owns := false } := by
        simp [State.use, hpc, howns, kind]
      rw [huse]
      exact (G.use c).frees hkind
  | hands d hne hpc howns hkind hd =>
      rw [if_neg fun hc => by rw [hc.1] at hkind; cases hkind]
      -- `c` has the lock until now, so `d` does not
      have hc : s.sem.owns c = true := G.owns (by
        have : 0 < (s.use c).pending := by simp [Use.pending, State.use, hkind]
        unfold Use.held
        omega)
      have hdown : s.sem.owns d = false :=
        Bool.eq_false_iff.mpr fun hd => hne (h.owner d c hd hc)
      refine ⟨hinv, fun e => ?_, G.fault⟩
      by_cases hec : e = c
      · have huse : State.use { s with sem := sem } e =
            { s.use c with kind := .idle, owns := false } := by
          simp [State.use, hpc, howns, hec, Ne.symm hne, kind]
        rw [huse]
        exact (G.use c).frees hkind
      · by_cases hed : e = d
        · have huse : State.use { s with sem := sem } e =
              { s.use d with kind := .idle, owns := true } := by
            simp [State.use, hpc, howns, hed, hne, kind]
          rw [huse]
          exact (G.use d).takes hd hdown
        · have huse : State.use { s with sem := sem } e = s.use e := by
            simp [State.use, hpc, howns, hec, hed]
          rw [huse]
          exact G.use e

/-- A guard that has the lock is destroyed. -/
theorem Guarded.dropGuard (G : Guarded s) {i : Nat} (hrun : s.running c)
    (hi : (s.guards c)[i]? = some true) :
    Guarded ((s.setGuards c ((s.guards c).eraseIdx i)).release c) := by
  have huse : ∀ d, d ≠ c → (s.setGuards c ((s.guards c).eraseIdx i)).use d = s.use d := by
    intro d hd
    simp [State.use, State.setGuards, hd]
  refine Guarded.release G.sem G.fault (fun d hd => huse d hd ▸ G.use d) hrun (G.use c) rfl ?_
  obtain ⟨hlt, hget⟩ := List.getElem?_eq_some_iff.mp hi
  have hcount : ((s.guards c).eraseIdx i).count true + 1 = (s.guards c).count true := by
    have hperm := List.getElem_cons_eraseIdx_perm hlt
    rw [← hperm.count_eq true, hget, List.count_cons_self]
  simp only [Use.held, Use.pending, State.use, State.setGuards, Function.update_self]
  omega

theorem Guarded.unlock (G : Guarded s) (hrun : s.running c) (hl : s.locked c = true) :
    Guarded ((s.setLocked c false).release c) := by
  have huse : ∀ d, d ≠ c → (s.setLocked c false).use d = s.use d := by
    intro d hd
    simp [State.use, State.setLocked, hd]
  refine Guarded.release G.sem G.fault (fun d hd => huse d hd ▸ G.use d) hrun (G.use c) rfl ?_
  simp only [Use.held, Use.pending, State.use, State.setLocked, Function.update_self, hl,
    Bool.toNat_false, Bool.toNat_true]
  omega

theorem Guarded.step {a : Action} (G : Guarded s) (hs : step s a = some s') : Guarded s' := by
  cases a with
  | tryLock c =>
      simp only [AsyncMutex.step] at hs
      split at hs
      · rename_i hrun
        exact G.tryLock hrun hs
      · cases hs
  | coAwait c w =>
      simp only [AsyncMutex.step] at hs
      split at hs
      · rename_i hrun
        obtain ⟨t, ht, rfl⟩ := Option.map_eq_some_iff.mp hs
        exact G.coAwait hrun ht
      · cases hs
  | advance c spurious =>
      obtain ⟨t, ht, rfl⟩ := Option.map_eq_some_iff.mp hs
      obtain ⟨sem, hsem, rfl⟩ := Option.map_eq_some_iff.mp ht
      exact G.advance hsem
  | awaitResume c =>
      simp only [AsyncMutex.step] at hs
      split at hs
      · rename_i hc
        obtain rfl := Option.some.inj hs
        exact G.awaitResume hc.1 hc.2
      · cases hs
  | moveGuard c i =>
      simp only [AsyncMutex.step] at hs
      split at hs
      · obtain ⟨sem, hi, rfl⟩ := Option.map_eq_some_iff.mp hs
        refine G.setGuards ?_
        -- the new guard has what the old one had
        obtain ⟨hlt, hget⟩ := List.getElem?_eq_some_iff.mp hi
        rw [List.count_append, List.count_set hlt, hget]
        cases sem with
        | false => simp
        | true =>
            have : 0 < (s.guards c).count true :=
              List.count_pos_iff.mpr (hget ▸ List.getElem_mem hlt)
            simp
            omega
      · cases hs
  | dropGuard c i =>
      simp only [AsyncMutex.step] at hs
      split at hs
      · rename_i hrun
        obtain ⟨sem, hi, rfl⟩ := Option.map_eq_some_iff.mp hs
        cases sem with
        | true => exact G.dropGuard hrun hi
        | false =>
            refine G.setGuards ?_
            obtain ⟨hlt, hget⟩ := List.getElem?_eq_some_iff.mp hi
            have hperm := List.getElem_cons_eraseIdx_perm hlt
            rw [← hperm.count_eq true, hget]
            simp
      · cases hs
  | unlock c =>
      simp only [AsyncMutex.step] at hs
      split at hs
      · rename_i hc
        obtain rfl := Option.some.inj hs
        exact G.unlock hc.1 hc.2
      · cases hs

end

end Zab.AsyncMutex
