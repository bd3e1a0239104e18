import Zab.Sync.Barrier

set_option autoImplicit false

/-! # Who starts a phase of the barrier

Two places start `complete_phase`: the arrival whose `fetch_sub` returned `1`, and the test
`count <= -expected_` at the end of `resume_frames`, which compares the counter saved before
the entries were resumed with `expected_` as it is afterwards. By then the entries may have
arrived again, and the next phase may have lowered `expected_`; the old counter can then pass
the test of a phase that is not its own. As long as that does not happen, every phase is
started exactly once, and at any time one party at most is in charge of it.
-/

namespace Zab.Barrier

open Automaton

/-- The arrival will call `complete_phase`: its `fetch_sub` returned `1`. -/
def ArrivalPc.starting : ArrivalPc → Bool
  | .load _ _ amount | .push _ _ amount _ => amount = 1
  | .call => true
  | .idle => false

/-- The activation has not given the places of the next phase to `count_` yet. -/
def ActivationPc.early : ActivationPc → Bool
  | .idle | .resume _ _ | .test _ => false
  | _ => true

/-- The counter that `resume_frames` keeps for its test. -/
def ActivationPc.saved : ActivationPc → Option Int
  | .resume _ saved | .test saved => some saved
  | _ => none

/-- A party that is going to start an activation: an arrival whose `fetch_sub` returned `1`, or
a `resume_frames` whose saved counter passes its test. -/
def Pending (s : State) : Starter → Prop
  | .arrival i => (s.arrival i).starting = true
  | .test k => ∃ x ∈ (s.activation k).saved, x ≤ -s.expected

/-- **Every phase is started exactly once.** Phases are numbered by how often places have been
given back to `count_`. -/
structure EachPhaseOnce (s : State) : Prop where
  /-- The phases that have been started, in the order of the starts. -/
  once : s.starts.map Start.phase = List.range s.starts.length
  /-- A phase is started by an arrival or by the `resume_frames` of the phase before. -/
  starter : ∀ p ∈ s.starts, ∀ k, p.starter = .test k → k + 1 = p.phase
  /-- While the current phase has free places, it has not been started and nobody will. -/
  free : 0 < s.count → s.starts.length = s.phase ∧ ∀ st, ¬ Pending s st
  /-- Once it has none, either it has been started, and nobody will start it again, or there is
  exactly one party that will. -/
  full : s.count ≤ 0 → (s.starts.length = s.phase + 1 ∧ ∀ st, ¬ Pending s st) ∨
    s.starts.length = s.phase ∧ ∃! st, Pending s st

/-- No `resume_frames` that has yet to do its test will find, after the write of `expected_`, a
saved counter that passes the test and did not pass it before. -/
def noStaleTest (s : State) : Action → Prop
  | .activation k _ => ∀ v ∈ (s.activation k).writes, ∀ j < s.activations,
      ∀ x ∈ (s.activation j).saved, x ≤ -v → x ≤ -s.expected
  | _ => True

/-- `expected_` stays at least one, and no write of it makes a saved counter pass. -/
def steady (s : State) (a : Action) : Prop := keepsOne s a ∧ noStaleTest s a

/-! ## The party in charge -/

/-- The party in charge of the current phase. -/
inductive Holder where
  | nobody
  | starter (st : Starter)
  | active
  deriving DecidableEq

/-- What activation number `k` knows about `expected_`. -/
def ActivationPc.Knows (e : Int) : ActivationPc → Prop
  | .reduceWrite _ v => v ≤ e
  | .addCount _ a => a = e
  | _ => True

/-- The party `h` is in charge, and nobody else. Runs in which `expected_` stays at least one take
`P := True`. -/
structure Charge (P : Prop) (s : State) (h : Holder) : Prop where
  expected_pos : P → 1 ≤ s.expected
  fresh : ∀ k, s.activations ≤ k → s.activation k = .idle
  freshArrival : ∀ i, s.arrivals ≤ i → s.arrival i = .idle
  knows : ∀ k, (s.activation k).Knows s.expected
  pending : ∀ st, Pending s st ↔ h = .starter st
  early : ∀ k, (s.activation k).early = true ↔ h = .active ∧ k = s.phase
  full : h ≠ .nobody → s.count ≤ 0
  free : P → s.count ≤ 0 → h ≠ .nobody
  number : s.activations = if h = .active then s.phase + 1 else s.phase
  previous : ∀ k, h = .starter (.test k) → k + 1 = s.phase
  phases : s.starts.map Start.phase = List.range s.activations
  starter : ∀ p ∈ s.starts, ∀ k, p.starter = .test k → k + 1 = p.phase

theorem charge_init {P : Prop} {cfg : Config} (hcfg : P → 1 ≤ cfg.expected) :
    Charge P (init cfg) .nobody where
  expected_pos := hcfg
  fresh _ _ := rfl
  freshArrival _ _ := rfl
  knows _ := trivial
  pending st := by cases st <;> simp [Pending, init, ArrivalPc.starting, ActivationPc.saved]
  early k := by simp [init, ActivationPc.early]
  full hne := absurd rfl hne
  free p := by
    have := hcfg p
    simp [init]
    omega
  number := rfl
  previous k h := by cases h
  phases := rfl
  starter p hp := by cases hp

section

variable {P : Prop} {cfg : Config} {s s' : State} {h : Holder} {k i : Nat}

/-- The two states agree on the counters and on what has been started. -/
structure SameCounters (s s' : State) : Prop where
  expected : s'.expected = s.expected
  count : s'.count = s.count
  phase : s'.phase = s.phase
  starts : s'.starts = s.starts
  activations : s'.activations = s.activations
  arrivals : s'.arrivals = s.arrivals

theorem sameCounters_release (s : State) (ptr : Nat) :
    SameCounters s (s.release ptr) ∧ (s.release ptr).arrival = s.arrival ∧
      (s.release ptr).activation = s.activation := by
  obtain ⟨live, busy, log, h⟩ := release_eq s ptr
  rw [h]
  exact ⟨⟨rfl, rfl, rfl, rfl, rfl, rfl⟩, rfl, rfl⟩

/-- A step that leaves the counters alone, and who is going to start a phase. -/
theorem Charge.still (hc : Charge P s h) (hsame : SameCounters s s')
    (hfresh : ∀ j, s.activations ≤ j → s'.activation j = .idle)
    (hfreshArrival : ∀ j, s.arrivals ≤ j → s'.arrival j = .idle)
    (hknows : ∀ j, (s'.activation j).Knows s.expected)
    (hpending : ∀ st, Pending s' st ↔ Pending s st)
    (hearly : ∀ j, (s'.activation j).early = (s.activation j).early) : Charge P s' h := by
  obtain ⟨he, hcount, hphase, hstarts, hacts, harrs⟩ := hsame
  exact {
    expected_pos := he ▸ hc.expected_pos
    fresh := hacts ▸ hfresh
    freshArrival := harrs ▸ hfreshArrival
    knows := he ▸ hknows
    pending := fun st => (hpending st).trans (hc.pending st)
    early := fun j => by rw [hearly, hphase, hc.early j]
    full := hcount ▸ hc.full
    free := hcount ▸ hc.free
    number := by rw [hacts, hphase, hc.number]
    previous := hphase ▸ hc.previous
    phases := by rw [hstarts, hacts, hc.phases]
    starter := hstarts ▸ hc.starter }

/-- An activation that is under way has been counted. -/
theorem Charge.lt_of_activation (hc : Charge P s h) (hidle : s.activation k ≠ .idle) :
    k < s.activations := by
  by_contra hge
  exact hidle (hc.fresh k (by omega))

/-- An arrival that is under way has been counted. -/
theorem Charge.lt_of_arrival (hc : Charge P s h) (hidle : s.arrival i ≠ .idle) :
    i < s.arrivals := by
  by_contra hge
  exact hidle (hc.freshArrival i (by omega))

/-- An activation that moves on without touching the counters. -/
theorem Charge.moveActivation {q : ActivationPc} (hc : Charge P s h) (hsame : SameCounters s s')
    (harr : s'.arrival = s.arrival) (hact : s'.activation = Function.update s.activation k q)
    (hidle : s.activation k ≠ .idle) (hearly : q.early = (s.activation k).early)
    (hsaved : q.saved = (s.activation k).saved) (hknows : q.Knows s.expected) :
    Charge P s' h := by
  have hlt : k < s.activations := hc.lt_of_activation hidle
  refine hc.still hsame ?_ (harr ▸ hc.freshArrival) ?_ ?_ ?_
  · -- the counted activations are the same
    intro j hj
    rw [hact, Function.update_of_ne (by omega)]
    exact hc.fresh j hj
  · -- what it knows about `expected_`
    intro j
    rw [hact, Function.update_apply]
    split
    · exact hknows
    · exact hc.knows j
  · -- it keeps the same counter for its test
    intro st
    cases st with
    | arrival i => simp only [Pending, harr]
    | test j =>
        simp only [Pending, hact, hsame.expected, Function.update_apply]
        split
        · subst j
          rw [hsaved]
        · rfl
  · -- and stays on the same side of its `fetch_add`
    intro j
    rw [hact, Function.update_apply]
    split
    · subst j
      exact hearly
    · rfl

/-- An arrival that moves on without touching the counters. -/
theorem Charge.moveArrival {q : ArrivalPc} (hc : Charge P s h) (hsame : SameCounters s s')
    (hact : s'.activation = s.activation) (harr : s'.arrival = Function.update s.arrival i q)
    (hidle : s.arrival i ≠ .idle) (hstart : q.starting = (s.arrival i).starting) :
    Charge P s' h := by
  have hlt : i < s.arrivals := hc.lt_of_arrival hidle
  refine hc.still hsame (hact ▸ hc.fresh) ?_ (hact ▸ hc.knows) ?_ (fun j => by rw [hact])
  · -- the counted arrivals are the same
    intro j hj
    rw [harr, Function.update_of_ne (by omega)]
    exact hc.freshArrival j hj
  · -- what its `fetch_sub` returned does not change
    intro st
    cases st with
    | arrival j =>
        simp only [Pending, harr, Function.update_apply]
        split
        · subst j
          rw [hstart]
        · rfl
    | test j => simp only [Pending, hact, hsame.expected]

/-- A new arrival takes charge if it takes the last place. -/
theorem Charge.arrive (hc : Charge P s h) (x : Item) (w : Addr) (n : Node) :
    Charge P (s.arrive x w n) (if s.count = 1 then .starter (.arrival s.arrivals) else h) := by
  have hnone : s.count = 1 → h = .nobody := by
    intro h1
    by_contra hne
    have := hc.full hne
    omega
  have hno : ¬ Pending s (.arrival s.arrivals) := by
    simp [Pending, hc.freshArrival s.arrivals (Nat.le_refl _), ArrivalPc.starting]
  refine { hc with
    freshArrival := ?_, pending := ?_, early := ?_, full := ?_, free := ?_, number := ?_,
    previous := ?_ }
  · intro j hj
    simp only [State.arrive] at hj ⊢
    rw [Function.update_of_ne (by omega)]
    exact hc.freshArrival j (by omega)
  · -- the new arrival is going to start the phase if its `fetch_sub` returned `1`
    intro st
    have hst := hc.pending st
    by_cases hnew : st = .arrival s.arrivals
    · subst hnew
      have hno' := (hc.pending _).not.mp hno
      simp [Pending, State.arrive, ArrivalPc.starting, hno']
    · have hsame : Pending (s.arrive x w n) st ↔ Pending s st := by
        cases st with
        | arrival j =>
            have : j ≠ s.arrivals := fun e => hnew (by rw [e])
            simp [Pending, State.arrive, this]
        | test j => rfl
      rw [hsame, hst]
      split
      · rename_i h1
        simp [hnone h1, Ne.symm hnew]
      · rfl
  · intro j
    show (s.activation j).early = true ↔ _ ∧ j = s.phase
    rw [hc.early j]
    split
    · rename_i h1
      simp [hnone h1]
    · rfl
  · -- either the last place is taken now, or there was none before
    show _ → s.count - 1 ≤ 0
    split
    · omega
    · intro hne
      have := hc.full hne
      omega
  · -- if there was a place and there is none now, this was the last one
    intro p (hle : s.count - 1 ≤ 0)
    split
    · simp
    · exact hc.free p (by omega)
  · show s.activations = if _ then s.phase + 1 else s.phase
    rw [hc.number]
    by_cases h1 : s.count = 1
    · simp [h1, hnone h1]
    · simp [h1]
  · intro j hj
    split at hj
    · cases hj
    · exact hc.previous j hj

/-- The party in charge starts the phase. `s'` is the state in which it has left its place. -/
theorem Charge.completePhase {st : Starter} {q : ActivationPc} (hc : Charge P s (.starter st))
    (hq : q.early = true) (hsaved : q.saved = none) (hknows : q.Knows s.expected)
    (hsame : SameCounters s s') (hleft : ¬ Pending s' st)
    (harr : ∀ j, s'.arrival j = s.arrival j ∨ s'.arrival j = .idle)
    (hact : ∀ j, s'.activation j = s.activation j ∨ s'.activation j = .idle)
    (hprev : ∀ j, st = .test j → j + 1 = s.phase) :
    Charge P (s'.completePhase q st) .active := by
  obtain ⟨he, hcount, hphase, hstarts, hacts, harrs⟩ := hsame
  have hnum : s.activations = s.phase := by simpa using hc.number
  have hnone : ∀ st', ¬ Pending s' st' := by
    intro st' hp
    have hp' : Pending s st' := by
      cases st' with
      | arrival j => rcases harr j with e | e <;> simp_all [Pending, ArrivalPc.starting]
      | test j => rcases hact j with e | e <;> simp_all [Pending, ActivationPc.saved]
    obtain rfl : st = st' := by simpa using (hc.pending st').mp hp'
    exact hleft hp
  have hlate : ∀ j, (s'.activation j).early = false := by
    intro j
    rcases hact j with e | e
    · rw [e]
      simpa using hc.early j
    · rw [e]
      rfl
  refine ⟨?_, ?_, ?_, ?_, ?_, ?_, ?_, ?_, ?_, ?_, ?_, ?_⟩
  · exact he ▸ hc.expected_pos
  · intro j hj
    simp only [State.completePhase] at hj ⊢
    rw [Function.update_of_ne (by omega)]
    rcases hact j with e | e
    · exact e.trans (hc.fresh j (by omega))
    · exact e
  · intro j hj
    rcases harr j with e | e
    · exact e.trans (hc.freshArrival j (by rw [← harrs]; exact hj))
    · exact e
  · intro j
    simp only [State.completePhase, Function.update_apply, he]
    split
    · exact hknows
    · rcases hact j with e | e
      · exact e ▸ hc.knows j
      · rw [e]
        trivial
  · -- the starter was the only one, and it has left
    intro st'
    refine iff_of_false (fun hp => hnone st' ?_) (by simp)
    cases st' with
    | arrival j => exact hp
    | test j =>
        simp only [Pending, State.completePhase, Function.update_apply] at hp ⊢
        split at hp
        · simp [hsaved] at hp
        · exact hp
  · -- the new activation is the only one before its `fetch_add`
    intro j
    simp only [State.completePhase, Function.update_apply, true_and]
    rw [hacts, hnum, hphase]
    by_cases hj : j = s.phase
    · simp [hj, hq]
    · simp [hj, hlate j]
  · exact fun _ => hcount ▸ hc.full (by simp)
  · exact fun _ _ => by simp
  · -- the phases started are those before this one, and this one
    show s'.activations + 1 = s'.phase + 1
    rw [hacts, hphase, hnum]
  · intro j hj
    cases hj
  · show (s'.starts ++ [_]).map Start.phase = List.range (s'.activations + 1)
    rw [List.map_append, List.range_succ, hstarts, hacts, hphase, hc.phases, ← hnum]
    rfl
  · -- the new start has the number of the phase
    intro p hp j hj
    simp only [State.completePhase, List.mem_append, List.mem_singleton] at hp
    rcases hp with hp | rfl
    · exact hc.starter p (hstarts ▸ hp) j hj
    · exact (hprev j hj).trans hphase.symm

theorem Charge.of_early (hc : Charge P s h) (hk : (s.activation k).early = true) :
    h = .active ∧ k = s.phase := (hc.early k).mp hk

/-- One activation at most is before its `fetch_add`. -/
theorem Charge.late {j : Nat} (hc : Charge P s h) (hk : (s.activation k).early = true)
    (hj : j ≠ k) : (s.activation j).early = false := by
  by_contra hearly
  have h1 := hc.of_early (k := j) (by simpa using hearly)
  have h2 := hc.of_early hk
  exact hj (h1.2.trans h2.2.symm)

/-- `expected_` is lowered: the same saved counters pass the test as before. -/
theorem Charge.reduce {start : Nat} {v : Int} (hc : Charge P s h)
    (hk : s.activation k = .reduceWrite start v) (hv : P → 1 ≤ v)
    (hstale : ∀ j < s.activations, ∀ x ∈ (s.activation j).saved, x ≤ -v → x ≤ -s.expected) :
    Charge P { s.goto k (.addRead start) with expected := v } h := by
  have hle : v ≤ s.expected := by simpa [hk, ActivationPc.Knows] using hc.knows k
  have hone : ∀ j, (s.activation j).early = true → j = k := by
    intro j hj
    have h1 := hc.of_early hj
    have h2 := hc.of_early (k := k) (by rw [hk]; rfl)
    rw [h1.2, h2.2]
  have hlt : k < s.activations := hc.lt_of_activation (by simp [hk])
  refine { hc with expected_pos := hv, fresh := ?_, knows := ?_, pending := ?_, early := ?_ }
  · intro j hj
    have hne : j ≠ k := by
      have : s.activations ≤ j := hj
      omega
    simpa [hne] using hc.fresh j hj
  · -- only this activation has read `expected_`, and it has written it now
    intro j
    simp only [goto_activation]
    split
    · trivial
    · rename_i hne
      have hnot : (s.activation j).early ≠ true := fun hj => hne (hone j hj)
      cases hj : s.activation j <;> simp_all [ActivationPc.early, ActivationPc.Knows]
  · -- a counter passes for the lower `expected_` only if it passed before
    intro st
    rw [← hc.pending st]
    cases st with
    | arrival j => rfl
    | test j =>
        simp only [Pending, goto_activation]
        split
        · subst j
          simp [hk, ActivationPc.saved]
        · constructor
          · rintro ⟨x, hx, hle'⟩
            refine ⟨x, hx, hstale j ?_ x hx hle'⟩
            by_contra hge
            rw [hc.fresh j (by omega)] at hx
            simp [ActivationPc.saved] at hx
          · rintro ⟨x, hx, hle'⟩
            exact ⟨x, hx, by omega⟩
  · intro j
    refine Iff.trans ?_ (hc.early j)
    simp only [goto_activation]
    split
    · subst j
      rw [hk]
      rfl
    · rfl

/-- The places of the next phase are given to `count_`. If the arrivals that are waiting take
all of them, the activation stays in charge until its test. -/
theorem Charge.add {start : Nat} {e : Int} (hc : Charge P s h)
    (hk : s.activation k = .addCount start e) :
    Charge P { s.goto k (.resume start s.count) with
      count := s.count + e, phase := s.phase + 1 }
      (if s.count ≤ -s.expected then .starter (.test k) else .nobody) := by
  obtain rfl : e = s.expected := by simpa [hk, ActivationPc.Knows] using hc.knows k
  obtain ⟨rfl, hkp⟩ := hc.of_early (k := k) (by rw [hk]; rfl)
  have hnum : s.activations = s.phase + 1 := by simpa using hc.number
  refine { hc with
    fresh := ?_, knows := ?_, pending := ?_, early := ?_, full := ?_, free := ?_, number := ?_,
    previous := ?_ }
  · intro j hj
    have hne : j ≠ k := by
      have : s.activations ≤ j := hj
      omega
    simpa [hne] using hc.fresh j hj
  · intro j
    simp only [goto_activation]
    split
    · trivial
    · exact hc.knows j
  · -- the counter that it keeps is what `fetch_add` returned
    intro st
    have hno : ¬ Pending s st := by simp [hc.pending st]
    cases st with
    | arrival j =>
        refine iff_of_false hno ?_
        split <;> simp
    | test j =>
        simp only [Pending, goto_activation]
        split
        · subst j
          have he : (s.goto k (.resume start s.count)).expected = s.expected := rfl
          by_cases hle : s.count ≤ -s.expected <;> simp [hle, he, ActivationPc.saved]
        · rename_i hne
          refine iff_of_false hno ?_
          split <;> simp [Ne.symm hne]
  · intro j
    simp only [goto_activation]
    split
    · simp [ActivationPc.early]
      split <;> simp
    · have := hc.early j
      split <;> simp_all
  · -- still no place: the arrivals that wait have taken all of them
    show _ → s.count + s.expected ≤ 0
    split
    · omega
    · simp
  · -- and then the test will be passed
    intro p (hle : s.count + s.expected ≤ 0)
    rw [if_pos (by omega)]
    simp
  · show s.activations = if _ then s.phase + 1 + 1 else s.phase + 1
    split <;> simp_all
  · -- the next phase is started by this activation
    intro j hj
    split at hj
    · simp at hj
      show j + 1 = s.phase + 1
      omega
    · cases hj

/-- A saved counter that does not pass its test. -/
theorem Charge.endTest {saved : Int} (hc : Charge P s h) (hk : s.activation k = .test saved)
    (hgt : ¬ saved ≤ -s.expected) : Charge P (s.goto k .idle) h := by
  refine hc.still ⟨rfl, rfl, rfl, rfl, rfl, rfl⟩ ?_ hc.freshArrival ?_ ?_ ?_
  · intro j hj
    have := hc.fresh j hj
    simp [this]
  · intro j
    simp only [goto_activation]
    split
    · trivial
    · exact hc.knows j
  · -- neither before nor after is the activation going to start one
    intro st
    cases st with
    | arrival j => rfl
    | test j =>
        simp only [Pending, goto_activation]
        split
        · subst j
          simpa [hk, ActivationPc.saved] using hgt
        · rfl
  · intro j
    simp only [goto_activation]
    split
    · subst j
      rw [hk]
      rfl
    · rfl

/-- One step of an arrival. -/
theorem Charge.arrival {b : Bool} (hc : Charge P s h)
    (hs : s.advanceArrival i b = some s') : ∃ h', Charge P s' h' := by
  have hmove : ∀ {q : ArrivalPc} {s'}, SameCounters s s' → s'.activation = s.activation →
      s'.arrival = Function.update s.arrival i q → s.arrival i ≠ .idle →
      q.starting = (s.arrival i).starting → ∃ h', Charge P s' h' :=
    fun h1 h2 h3 h4 h5 => ⟨h, hc.moveArrival h1 h2 h3 h4 h5⟩
  cases arrives_of_advance hs with
  | load hi | again hi =>
      exact hmove ⟨rfl, rfl, rfl, rfl, rfl, rfl⟩ rfl rfl (by simp [hi]) (by rw [hi]; rfl)
  | @push x w amount hi =>
      refine hmove ⟨rfl, rfl, rfl, rfl, rfl, rfl⟩ rfl rfl (by simp [hi]) ?_
      by_cases h1 : amount = 1 <;> simp [hi, ArrivalPc.starting, h1]
  | call hi =>
      obtain rfl : h = .starter (.arrival i) := (hc.pending (.arrival i)).mp (by
        simp [Pending, hi, ArrivalPc.starting])
      refine ⟨.active, hc.completePhase rfl rfl trivial ⟨rfl, rfl, rfl, rfl, rfl, rfl⟩ ?_ ?_
        (fun j => Or.inl rfl) (by simp)⟩
      · simp [Pending, ArrivalPc.starting]
      · intro j
        simp only [gotoArrival_arrival]
        split <;> simp

/-- An activation touches the counters in three of its steps only. -/
theorem quiet_step {t : ThreadT} (hs : s.advanceActivation cfg k t = some s') :
    (∃ q : ActivationPc, SameCounters s s' ∧ s'.arrival = s.arrival ∧
      s'.activation = Function.update s.activation k q ∧
      q.early = (s.activation k).early ∧ q.saved = (s.activation k).saved ∧
      q.Knows s.expected) ∨
    (∃ start v, s.activation k = .reduceWrite start v) ∨
    (∃ start e, s.activation k = .addCount start e) ∨ ∃ saved, s.activation k = .test saved := by
  have hgo : ∀ {q : ActivationPc} {u : State}, SameCounters s u → u.arrival = s.arrival →
      u.activation = Function.update s.activation k q → q.early = (s.activation k).early →
      q.saved = (s.activation k).saved → q.Knows s.expected →
      ∃ q : ActivationPc, SameCounters s u ∧ u.arrival = s.arrival ∧
        u.activation = Function.update s.activation k q ∧ q.early = (s.activation k).early ∧
        q.saved = (s.activation k).saved ∧ q.Knows s.expected :=
    fun h1 h2 h3 h4 h5 h6 => ⟨_, h1, h2, h3, h4, h5, h6⟩
  cases activates_of_advance hs with
  | reduceWrite hp => exact Or.inr (Or.inl ⟨_, _, hp⟩)
  | addCount hp => exact Or.inr (Or.inr (Or.inl ⟨_, _, hp⟩))
  | pass _ hp | ends _ hp => exact Or.inr (Or.inr (Or.inr ⟨_, hp⟩))
  | @release ptr saved hptr hp =>
      obtain ⟨hsame, harr, hact⟩ := sameCounters_release s ptr
      refine Or.inl (hgo (q := .resume (s.getNext ptr) saved) ?_ harr ?_ ?_ ?_ trivial)
      · exact ⟨hsame.1, hsame.2, hsame.3, hsame.4, hsame.5, hsame.6⟩
      · exact congrArg (Function.update · k _) hact
      · rw [hp]
        rfl
      · rw [hp]
        rfl
  | reduceRead hp =>
      rw [hp] at hgo ⊢
      refine Or.inl (hgo ⟨rfl, rfl, rfl, rfl, rfl, rfl⟩ rfl rfl rfl rfl ?_)
      show s.expected - _ ≤ s.expected
      omega
  | addRead hp =>
      rw [hp] at hgo ⊢
      exact Or.inl (hgo ⟨rfl, rfl, rfl, rfl, rfl, rfl⟩ rfl rfl rfl rfl rfl)
  | begin hp | load hp | again hp | found _ hp | look _ hp | cutAll hp | walk _ hp | walkOut hp
  | cut _ hp | walkOn _ _ hp | noFunction _ hp | yield _ hp | callHere _ hp | countDrop _ hp
  | call hp | finish hp | resumed hp =>
      rw [hp] at hgo ⊢
      exact Or.inl (hgo ⟨rfl, rfl, rfl, rfl, rfl, rfl⟩ rfl rfl rfl rfl trivial)

/-- One step of an activation. -/
theorem Charge.activation {t : ThreadT} (hc : Charge P s h)
    (hone : P → keepsOne s (.activation k t)) (hok : noStaleTest s (.activation k t))
    (hs : s.advanceActivation cfg k t = some s') : ∃ h', Charge P s' h' := by
  rcases quiet_step hs with ⟨q, hsame, harr, hact, hearly, hsaved, hknows⟩ | ⟨start, v, hp⟩ |
    ⟨start, e, hp⟩ | ⟨saved, hp⟩
  · refine ⟨h, hc.moveActivation hsame harr hact ?_ hearly hsaved hknows⟩
    intro hidle
    simp [State.advanceActivation, hidle] at hs
  · simp only [State.advanceActivation, hp] at hs
    obtain rfl := Option.some.inj hs
    simp only [keepsOne, noStaleTest, hp, ActivationPc.writes, Option.mem_some_iff,
      forall_eq'] at hone hok
    exact ⟨h, hc.reduce hp hone hok⟩
  · simp only [State.advanceActivation, hp] at hs
    obtain rfl := Option.some.inj hs
    exact ⟨_, hc.add hp⟩
  · simp only [State.advanceActivation, hp] at hs
    split at hs <;> obtain rfl := Option.some.inj hs
    · rename_i hle
      obtain rfl : h = .starter (.test k) := (hc.pending (.test k)).mp (by
        simpa [Pending, hp, ActivationPc.saved] using hle)
      refine ⟨.active, hc.completePhase rfl rfl trivial ⟨rfl, rfl, rfl, rfl, rfl, rfl⟩ ?_
        (fun j => Or.inl rfl) ?_ (by simpa using hc.previous)⟩
      · simp [Pending, ActivationPc.saved]
      · intro j
        simp only [goto_activation]
        split <;> simp
    · rename_i hgt
      exact ⟨h, hc.endTest hp hgt⟩

theorem Charge.step {a : Action} (hc : Charge P s h) (hone : P → keepsOne s a)
    (hok : noStaleTest s a) (hs : step cfg s a = some s') : ∃ h', Charge P s' h' := by
  cases a with
  | arriveAndWait c w t =>
      obtain ⟨-, -, rfl⟩ := eq_of_arriveAndWait hs
      have := hc.arrive (.wait c t) w ⟨0, some c, t⟩
      exact ⟨_, { this with pending := this.pending }⟩
  | arriveAndDrop w =>
      obtain ⟨-, rfl⟩ := eq_of_arriveAndDrop hs
      exact ⟨_, hc.arrive _ _ _⟩
  | arrival i b => exact hc.arrival hs
  | activation k t => exact hc.activation hone hok hs

theorem Charge.eachPhaseOnce (hc : Charge True s h) : EachPhaseOnce s := by
  have hlen : s.starts.length = s.activations := by
    simpa using congrArg List.length hc.phases
  refine ⟨hlen ▸ hc.phases, hc.starter, ?_, ?_⟩
  · intro hpos
    obtain rfl : h = .nobody := by
      by_contra hne
      have := hc.full hne
      omega
    exact ⟨hlen.trans (by simpa using hc.number), fun st => by simp [hc.pending st]⟩
  · intro hle
    cases h with
    | nobody => exact absurd rfl (hc.free trivial hle)
    | active =>
        exact Or.inl ⟨hlen.trans (by simpa using hc.number), fun st => by simp [hc.pending st]⟩
    | starter st =>
        refine Or.inr ⟨hlen.trans (by simpa using hc.number), st, (hc.pending st).mpr rfl, ?_⟩
        intro st' hst'
        simpa using ((hc.pending st').mp hst').symm

/-- **Every phase is started exactly once** in runs without a stale test. -/
theorem barrier_eachPhaseOnce (hcfg : 1 ≤ cfg.expected)
    (hr : Reaches (step cfg) steady (· = init cfg) s) : EachPhaseOnce s := by
  obtain ⟨h, hc⟩ : ∃ h, Charge True s h := by
    refine hr.invariant (I := fun s => ∃ h, Charge True s h) ?_ ?_
    · rintro s rfl
      exact ⟨.nobody, charge_init fun _ => hcfg⟩
    · rintro s a s' - ⟨h, hc⟩ hok hs
      exact hc.step (fun _ => hok.1) hok.2 hs
  exact hc.eachPhaseOnce

instance : ∀ (s : State) (a : Action), Decidable (noStaleTest s a)
  | s, .activation k _ => inferInstanceAs (Decidable (∀ v ∈ (s.activation k).writes,
      ∀ j < s.activations, ∀ x ∈ (s.activation j).saved, x ≤ -v → x ≤ -s.expected))
  | _, .arriveAndWait _ _ _ | _, .arriveAndDrop _ | _, .arrival _ _ =>
      inferInstanceAs (Decidable True)

instance (s : State) (a : Action) : Decidable (steady s a) := inferInstanceAs (Decidable (_ ∧ _))

/-- The steps of an arrival that does not fail spuriously, up to its push. -/
def pushSteps (i : Nat) : List Action := [.arrival i false, .arrival i false]

/-- `n` steps of activation `k` on thread `t`. -/
def steps (k n : Nat) (t : ThreadT) : List Action := List.replicate n (.activation k t)

/-- Two coroutines fill the first phase; two more arrive while the completion function runs, so
that `resume_frames` starts the second phase. -/
def startedByTest : List Action :=
  .arriveAndWait 1 (.nth 0) ⟨0⟩ :: pushSteps 0 ++
  .arriveAndWait 2 (.nth 1) ⟨0⟩ :: pushSteps 1 ++ .arrival 1 false ::
  steps 0 8 ⟨0⟩ ++ steps 0 1 ⟨1⟩ ++
  .arriveAndWait 3 (.nth 2) ⟨0⟩ :: pushSteps 2 ++
  .arriveAndWait 4 (.nth 3) ⟨0⟩ :: pushSteps 3 ++
  steps 0 9 ⟨1⟩

theorem barrier_eachPhaseOnce_startedByTest :
    ∃ s, run (step ⟨2, .awaitable, ⟨1⟩⟩) steady (init ⟨2, .awaitable, ⟨1⟩⟩) startedByTest = some s ∧
      s.starts = [⟨0, .arrival 1⟩, ⟨1, .test 0⟩] ∧ EachPhaseOnce s := by
  have hend : (run (step ⟨2, .awaitable, ⟨1⟩⟩) steady (init ⟨2, .awaitable, ⟨1⟩⟩)
      startedByTest).map State.starts = some [⟨0, .arrival 1⟩, ⟨1, .test 0⟩] := by decide +kernel
  obtain ⟨s, hs, h1⟩ := Option.map_eq_some_iff.mp hend
  exact ⟨s, hs, h1, barrier_eachPhaseOnce (by decide) (Reaches.run (Reaches.start rfl) hs)⟩

/-- Two coroutines fill the first phase and a drop comes in before its `fetch_add`, which
returns `-1`. The next arrival fills the second phase, whose drop lowers `expected_` to `1`
before the first `resume_frames` does its test: `-1 <= -1` starts the third phase, into which
nobody has arrived. The next arrival starts it again. -/
def staleTest : List Action :=
  .arriveAndWait 1 (.nth 0) ⟨0⟩ :: pushSteps 0 ++
  .arriveAndWait 2 (.nth 1) ⟨1⟩ :: pushSteps 1 ++ .arrival 1 false ::
  .arriveAndDrop (.nth 2) :: pushSteps 2 ++
  steps 0 17 ⟨1⟩ ++
  .arriveAndWait 1 (.nth 0) ⟨0⟩ :: pushSteps 3 ++ .arrival 3 false ::
  steps 1 16 ⟨0⟩ ++
  steps 0 1 ⟨1⟩ ++
  .arriveAndWait 2 (.nth 1) ⟨1⟩ :: pushSteps 4 ++ [.arrival 4 false]

theorem barrier_staleTest :
    ∃ s, Reaches (step ⟨2, .noOp, ⟨1⟩⟩) keepsOne (· = init ⟨2, .noOp, ⟨1⟩⟩) s ∧
      s.starts = [⟨0, .arrival 1⟩, ⟨1, .arrival 3⟩, ⟨2, .test 0⟩, ⟨2, .arrival 4⟩] ∧
      ¬ EachPhaseOnce s := by
  have hend : (run (step ⟨2, .noOp, ⟨1⟩⟩) keepsOne (init ⟨2, .noOp, ⟨1⟩⟩) staleTest).map
      State.starts = some [⟨0, .arrival 1⟩, ⟨1, .arrival 3⟩, ⟨2, .test 0⟩, ⟨2, .arrival 4⟩] := by
    decide +kernel
  obtain ⟨s, hs, h1⟩ := Option.map_eq_some_iff.mp hend
  refine ⟨s, Reaches.run (Reaches.start rfl) hs, h1, fun h => ?_⟩
  have := h.once
  rw [h1] at this
  exact absurd this (by decide)

end

end Zab.Barrier
