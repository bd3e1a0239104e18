import Zab.Sync.CountingSemaphoreInv

set_option autoImplicit false

/-! # What the counting semaphore guarantees

Nobody is admitted without a permit, there is one `control` at a time, and waiters are resumed
in push order: these hold in every interleaving. That nobody sleeps through a release does not.
`await_suspend` decides to sleep from a load, and its later `fetch_sub` does not look at the
value it finds; a permit that arrives in between is counted away again and the coroutine goes
to sleep beside it. Where no permit arrives in between, no wake-up is lost.
-/

namespace Zab.CountingSemaphore

open Automaton

section

variable {start : Int} {P : Prop} {s : State} {lc tr ch : List Addr}
variable {cnt : List Coro} {srv : Server}

/-! ## Admission and the single controller -/

/-- `control` is in its loop `while (!resume)`. -/
def ControlPc.innerWait : ControlPc → Bool
  | .transfer inner | .exchange inner | .reverse inner _ _ | .take inner _ => inner
  | .yieldInner => true
  | _ => false

theorem ControlPc.owes_of_innerWait {q : ControlPc} (h : q.innerWait = true) : q.owes = 1 := by
  cases q <;> simp_all [ControlPc.innerWait, ControlPc.owes]

theorem Inv.single (h : Inv start P s lc tr ch cnt srv) :
    (∀ k l, (s.control k).pc.active = true → (s.control l).pc.active = true → k = l) ∧
    (∀ c d, (s.pc c).starting = true → (s.pc d).starting = true → c = d) ∧
    ∀ c k, (s.pc c).starting = true → (s.control k).pc.active = false := by
  refine ⟨fun k l hk hl => ?_, fun c d hc hd => ?_, fun c k hc => ?_⟩
  · have := ((h.running k).mp hk).symm.trans ((h.running l).mp hl)
    simpa using this
  · have := ((h.starter c).mp hc).symm.trans ((h.starter d).mp hd)
    simpa using this
  · rw [(h.starter c).mp hc] at h
    simpa using h.running k

theorem Inv.served (h : Inv start P s lc tr ch cnt srv) :
    0 < s.releaseCount ↔
      (∃ c, (s.pc c).starting = true) ∨ ∃ k, (s.control k).pc.active = true := by
  rw [h.release.2]
  simp only [h.starter, h.running]
  cases srv <;> simp

theorem Pc.sleeps_iff {q : Pc} : q.status.sleeps = true ↔ ∃ w, q = .suspended w := by
  cases q <;> simp [Pc.status]

theorem Inv.fifo (h : Inv start P s lc tr ch cnt srv) :
    ∃ waiting : List Coro, waiting.Nodup ∧ (∀ c, c ∈ waiting ↔ ∃ w, s.pc c = .suspended w) ∧
      s.pushed.map some = s.resumed.map Prod.fst ++ waiting.map some := by
  obtain ⟨l, hnd, hmem, hl⟩ := h.queue.parties
  exact ⟨l, hnd, fun c => (hmem c).trans Pc.sleeps_iff, hl ▸ h.queue.fifo⟩

theorem Inv.awaited (h : Inv start P s lc tr ch cnt srv) (hstart : 0 ≤ start) {k : Nat}
    (hk : (s.control k).pc.innerWait = true) : ∃ c, (s.pc c).counted = true := by
  have howes := ControlPc.owes_of_innerWait hk
  have hact : (s.control k).pc.active = true := by
    cases hq : (s.control k).pc <;> simp_all [ControlPc.innerWait, ControlPc.active]
  obtain rfl : srv = .running k := (h.running k).mp hact
  have hdebt : (s.control k).pc.owes ≤ cnt.length := h.debt hstart
  obtain ⟨c, hc⟩ := List.exists_mem_of_length_pos (l := cnt) (by omega)
  exact ⟨c, (h.counted c).mp hc⟩

/-- A coroutine in an acquire, after its first load. -/
def Pc.acquiring : Pc → Bool
  | .tryLoop _ | .awaitLoop _ _ | .awaitSub _ | .suspendLoad _ | .suspendLoop _ _ => true
  | _ => false

/-- No acquire is between its first load and its return, no `control` is active and there are
no permits left to serve. -/
def Quiescent (s : State) : Prop :=
  (∀ c, (s.pc c).acquiring = false) ∧ (∀ k, (s.control k).pc.active = false) ∧ s.releaseCount = 0

def Pc.subs : Pc → Bool
  | .awaitSub _ => true
  | _ => false

/-- The `fetch_sub` of `await_suspend` still finds no permit, as the load before it did. -/
def timelySub (s : State) : Action → Prop
  | .advance c _ => (s.pc c).subs = true → s.activeCount ≤ 0
  | _ => True

/-- Only calls `release(n)` with `n ≥ 1`, and no permit comes between the last load of an
`await_suspend` and its `fetch_sub`. -/
def timely (s : State) (a : Action) : Prop := positive s a ∧ timelySub s a

theorem Reachable.balanced (h : Reaches step timely (· = init start) s) (hstart : 0 ≤ start) :
    ∃ lc tr ch cnt srv, Inv start True s lc tr ch cnt srv := by
  refine Reaches.invariant (I := fun s => ∃ lc tr ch cnt srv, Inv start True s lc tr ch cnt srv)
    h ?_ ?_
  · rintro s rfl
    exact ⟨[], [], [], [], .nobody, inv_init True fun _ => hstart⟩
  · rintro s a s' - ⟨lc, tr, ch, cnt, srv, h⟩ ⟨hpos, hsub⟩ hs
    refine h.step hpos (fun c b w ha hw _ => ?_) hs
    rw [ha] at hsub
    exact hsub (by rw [hw]; rfl)

instance : ∀ (s : State) (a : Action), Decidable (timelySub s a)
  | _, .advance _ _ => inferInstanceAs (Decidable (_ → _))
  | _, .tryAquire _ | _, .coAwait _ _ _ | _, .release _ _ _ | _, .control _ =>
      inferInstanceAs (Decidable True)

instance (s : State) (a : Action) : Decidable (timely s a) :=
  inferInstanceAs (Decidable (_ ∧ _))

/-! ### Runs that end in a quiescent state -/

/-- The coroutine that acts. -/
def Action.coro : Action → Option Coro
  | .tryAquire c | .coAwait c _ _ | .release c _ _ | .advance c _ => some c
  | .control _ => none

theorem threadResume_idle {c : Coro} (head : Nat) (hc : s.pc c = .idle) :
    (s.threadResume head).pc c = .idle := by
  simp only [State.threadResume, State.leave]
  split
  · rw [goto_pc]
    split
    · rfl
    · exact hc
  · exact hc

/-- A coroutine at rest stays at rest until it acts itself. -/
theorem idle_of_step {a : Action} {s' : State} {c : Coro} (hs : step s a = some s')
    (hc : s.pc c = .idle) (ha : a.coro ≠ some c) : s'.pc c = .idle := by
  have hgo : ∀ (s : State) d q, s.pc c = .idle → some d ≠ some c → (s.goto d q).pc c = .idle := by
    intro s d q h hd
    rw [goto_pc, if_neg fun hcd => hd (by rw [hcd])]
    exact h
  cases a with
  | control k =>
      cases serves_of_advanceControl hs with
      | resumes head => exact threadResume_idle head hc
      | listHead inner | takes inner head => cases inner <;> exact hc
      | nobody inner => cases inner <;> exact hc
      | _ => exact hc
  | advance d spurious => cases advances_of_advance hs <;> exact hgo _ _ _ hc ha
  | tryAquire d | coAwait d w t | release d n t =>
      obtain ⟨-, hs⟩ := Option.ite_none_right_eq_some.mp hs
      obtain rfl := Option.some.inj hs
      exact hgo _ _ _ hc ha

theorem idle_of_run {ok : State → Action → Prop} [∀ s a, Decidable (ok s a)] {l : List Action}
    {s' : State} {c : Coro} (hs : run step ok s l = some s') (hc : s.pc c = .idle)
    (ha : ∀ a ∈ l, a.coro ≠ some c) : s'.pc c = .idle := by
  induction l generalizing s with
  | nil =>
      have : s = s' := by simpa [run] using hs
      exact this ▸ hc
  | cons a l ih =>
      simp only [run] at hs
      split at hs
      · obtain ⟨t, ht, hs⟩ := Option.bind_eq_some_iff.mp hs
        exact ih hs (idle_of_step ht hc (ha a (by simp))) fun b hb => ha b (by simp [hb])
      · cases hs

/-- To see that a run ends in a quiescent state, look at the coroutines that took part. -/
theorem quiescent_of_run {ok : State → Action → Prop} [∀ s a, Decidable (ok s a)]
    {l : List Action} (hok : ∀ s a, ok s a → positive s a)
    (hs : run step ok (init start) l = some s) (hrel : s.releaseCount = 0)
    (hpc : ∀ a ∈ l, ∀ c, a.coro = some c → (s.pc c).acquiring = false) : Quiescent s := by
  have hreach : Reaches step ok (· = init start) s := Reaches.run (Reaches.start rfl) hs
  have hreach : Reachable start s := hreach.mono hok
  obtain ⟨lc, tr, ch, cnt, srv, h⟩ := hreach.inv
  refine ⟨fun c => ?_, fun k => ?_, hrel⟩
  · by_cases hc : ∃ a ∈ l, a.coro = some c
    · obtain ⟨a, ha, hac⟩ := hc
      exact hpc a ha c hac
    · rw [idle_of_run hs rfl fun a ha hac => hc ⟨a, ha, hac⟩]
      rfl
  · by_contra hk
    have := h.served.mpr (Or.inr ⟨k, by simpa using hk⟩)
    omega

/-- Without permits, 1 goes to sleep. -/
def oneAsleep : List Action :=
  [.coAwait 1 (.nth 0) ⟨0⟩, .advance 1 false, .advance 1 false, .advance 1 false,
    .advance 1 false, .advance 1 false]

end

end Zab.CountingSemaphore
