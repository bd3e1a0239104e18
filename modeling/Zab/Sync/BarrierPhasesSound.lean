import Zab.Sync.BarrierPhases

set_option autoImplicit false

/-! # What the barrier guarantees on one thread -/

namespace Zab.Barrier

open Automaton

section

variable {cfg : Config} {s s' : State} {L W : List Entry} {closed : List (List Item)} {r : Nat}

/-- No operation is in progress and no activation is queued. -/
def Rest (s : State) : Prop :=
  (∀ i < s.arrivals, s.arrival i = .idle) ∧ ∀ k < s.activations, s.activation k = .idle

/-- Nobody arrives; the activations go on. -/
def onward (s : State) : Action → Prop
  | .activation k t => legal s (.activation k t)
  | _ => False

/-- An activation is about to lower `expected_` below one. -/
def Exhausted (s : State) : Prop := ∃ k < s.activations, ∃ v ∈ (s.activation k).writes, v < 1

/-- **The phases of the barrier**, compared with the abstract phases of its arrivals. -/
structure PhasesInOrder (cfg : Config) (s : State) : Prop where
  /-- Phases take the arrivals in the order of their pushes. -/
  order : (phases cfg s.pushed).closed.flatten ++ (phases cfg s.pushed).current = s.pushed
  /-- A phase has as many arrivals as are expected initially, less the drops of the phases
  before it. -/
  sizes : Phases.Sized Item.isDrop cfg.expected (phases cfg s.pushed)
  /-- One phase after the other, the completion function is called once and finishes, and then
  every arrival of the phase is released, once. -/
  log : s.log <+: (phases cfg s.pushed).closed.flatMap (phaseLog cfg)
  /-- Phases do not overlap. -/
  single : ∀ k l, s.activation k ≠ .idle → s.activation l ≠ .idle → k = l
  /-- Until the next phase is cut off, `expected_` is what that phase expects. -/
  between : (∀ k, (s.activation k).after = 0) → ∃ n,
    s.log = ((phases cfg s.pushed).closed.take n).flatMap (phaseLog cfg) ∧
    s.expected =
      cfg.expected - ((phases cfg s.pushed).closed.take n).flatten.countP Item.isDrop
  /-- At rest, every phase that can be closed is over, and the list holds the other arrivals. -/
  rest : Rest s → s.log = (phases cfg s.pushed).closed.flatMap (phaseLog cfg) ∧
    s.expected = (phases cfg s.pushed).expected ∧
    ∃ L, Listed s s.workingSet L ∧ L.reverse.map Entry.item = (phases cfg s.pushed).current ∧
      s.count = s.expected - L.length ∧ 0 < s.count
  /-- The activations come to an end, unless `expected_` would fall below one. -/
  progress : (∀ i < s.arrivals, s.arrival i = .idle) →
    ∃ s', Reaches (step cfg) onward (· = s) s' ∧ (Rest s' ∨ Exhausted s')

/-! ## Order -/

theorem Inv.log_eq (h : Inv cfg s L W closed r) (hafter : ∀ k, (s.activation k).after = 0) :
    s.log = closed.flatMap (phaseLog cfg) ∧
      phases cfg s.pushed =
        Phases.arriveAll Item.isDrop ⟨s.expected, [], closed⟩ (L.reverse.map Entry.item) := by
  have hd := h.data
  have ha := hafter (s.activations - 1)
  have hloc := hd.loc
  have hlog := hd.log
  have hphases := hd.phases
  generalize s.activation (s.activations - 1) = p at ha hloc hlog hphases
  have hW : W = [] := by
    cases p with
    | idle => exact hloc
    | queued | load | window _ _ _ _ | trim _ | trimWalk _ _ => exact hloc.1
    | _ => cases ha
  subst hW
  cases p with
  | idle | queued | load | window _ _ _ _ | trim _ | trimWalk _ _ =>
      exact ⟨by simpa [ActivationPc.todo] using hlog, hphases⟩
  | _ => cases ha

theorem sized_phases (cfg : Config) (l : List Item) :
    Phases.Sized Item.isDrop cfg.expected (phases cfg l) :=
  Phases.Sized.arriveAll ⟨fun k w hk => by simp at hk, by simp⟩

theorem Inv.closed_prefix (h : Inv cfg s L W closed r) :
    closed <+: (phases cfg s.pushed).closed := by
  rw [h.data.phases]
  exact Phases.closed_prefix (p := ⟨_, [], closed⟩)

theorem Inv.log_prefix (h : Inv cfg s L W closed r) :
    s.log <+: (phases cfg s.pushed).closed.flatMap (phaseLog cfg) := by
  obtain ⟨more, hmore⟩ := h.closed_prefix
  rw [← hmore, List.flatMap_append, ← h.data.log, List.append_assoc]
  exact List.prefix_append _ _

theorem Inv.between (h : Inv cfg s L W closed r) (hafter : ∀ k, (s.activation k).after = 0) :
    ∃ n, s.log = ((phases cfg s.pushed).closed.take n).flatMap (phaseLog cfg) ∧
      s.expected =
        cfg.expected - ((phases cfg s.pushed).closed.take n).flatten.countP Item.isDrop := by
  obtain ⟨hlog, hphases⟩ := h.log_eq hafter
  refine ⟨closed.length, ?_⟩
  rw [← List.prefix_iff_eq_take.mp h.closed_prefix]
  refine ⟨hlog, ?_⟩
  have hsized := sized_phases cfg s.pushed
  rw [hphases] at hsized
  exact Phases.expected_of_arriveAll hsized

/-! ## Rest -/

theorem Inv.activation_idle (h : Inv cfg s L W closed r) (hrest : Rest s) (k : Nat) :
    s.activation k = .idle := by
  by_cases hk : k < s.activations
  · exact hrest.2 k hk
  · exact h.others k (by omega)

theorem Inv.rest (h : Inv cfg s L W closed r) (hrest : Rest s) :
    s.log = (phases cfg s.pushed).closed.flatMap (phaseLog cfg) ∧
      s.expected = (phases cfg s.pushed).expected ∧
      ∃ L, Listed s s.workingSet L ∧ L.reverse.map Entry.item = (phases cfg s.pushed).current ∧
        s.count = s.expected - L.length ∧ 0 < s.count := by
  have hidle := h.activation_idle hrest
  have harr := h.arrival_idle hrest.1
  obtain ⟨hlog, hphases⟩ := h.log_eq fun k => by rw [hidle k]; rfl
  have hd := h.data
  rw [hidle, harr] at hd
  obtain ⟨hnonneg, hne⟩ := hd.rest rfl
  have hpos : s.count ≠ 0 := fun h0 => hne h0 rfl
  have hcount : s.count = s.expected - L.length := by
    simpa [ActivationPc.due, ArrivalPc.unpushed] using hd.count
  -- fewer entries than expected are left, so that they do not close a phase
  rw [Phases.arriveAll_short (by simp; omega)] at hphases
  rw [hphases]
  exact ⟨hlog, rfl, L, hd.chain, by simp, hcount, by omega⟩

/-! ## Progress -/

theorem advance_isSome (cfg : Config) {k : Nat} (hk : s.activation k ≠ .idle) (t : ThreadT) :
    ∃ s', s.advanceActivation cfg k t = some s' := by
  refine Option.isSome_iff_exists.mp ?_
  unfold State.advanceActivation
  split
  · exact absurd (by assumption) hk
  all_goals
    repeat' split
    all_goals rfl

/-- Running the activations leads to rest, by induction on what remains to be done. -/
theorem Inv.progress (h : Inv cfg s L W closed r)
    (hidle : ∀ i < s.arrivals, s.arrival i = .idle) :
    ∃ s', Reaches (Barrier.step cfg) onward (· = s) s' ∧ (Rest s' ∨ Exhausted s') := by
  have hm : ∃ m, remaining L (s.activation (s.activations - 1)) r = m := ⟨_, rfl⟩
  obtain ⟨m, hm⟩ := hm
  induction m using WellFoundedLT.induction generalizing s L W closed r with
  | ind m ih =>
      by_cases hk : s.activation (s.activations - 1) = .idle
      · refine ⟨s, Reaches.start rfl, Or.inl ⟨hidle, fun k hlt => ?_⟩⟩
        by_cases hlast : k + 1 = s.activations
        · rwa [show k = s.activations - 1 by omega]
        · exact h.others k hlast
      · have hlast := h.last_activation hk
        by_cases hw : Exhausted s
        · exact ⟨s, Reaches.start rfl, Or.inr hw⟩
        · obtain ⟨s', hs⟩ := advance_isSome cfg hk cfg.thread
          have hone : keepsOne s (.activation (s.activations - 1) cfg.thread) := by
            intro v hv
            by_contra hlt
            exact hw ⟨_, by omega, v, hv, by omega⟩
          have hsolo : solo s (.activation (s.activations - 1) cfg.thread) := by
            refine ⟨hidle, fun j hj hne => ?_⟩
            rw [h.others j (by omega)]
            rfl
          obtain ⟨L', W', closed', r', h', harr, harrs, hlt⟩ := h.activation hidle hone hs
          have hidle' : ∀ i < s'.arrivals, s'.arrival i = .idle := by
            rw [harr, harrs]
            exact hidle
          obtain ⟨s'', hr, hend⟩ := ih _ (hm ▸ hlt) h' hidle' rfl
          refine ⟨s'', Reaches.trans ?_ hr, hend⟩
          exact Reaches.next (Reaches.start rfl)
            (show onward s (.activation (s.activations - 1) cfg.thread) from ⟨hsolo, hone⟩) hs

/-- **The barrier on one thread**: whatever arrives, in whatever order, and also while
`complete_phase` is suspended. -/
theorem barrier_phasesInOrder (hcfg : 1 ≤ cfg.expected) (hr : Reachable cfg s) :
    PhasesInOrder cfg s := by
  obtain ⟨L, W, closed, r, h⟩ := hr.inv hcfg
  refine ⟨?_, sized_phases cfg _, h.log_prefix, ?_, h.between, h.rest, h.progress⟩
  · have hflat : (phases cfg s.pushed).closed.flatten ++ (phases cfg s.pushed).current =
        [].flatten ++ [] ++ s.pushed := Phases.flatten_arriveAll
    simpa using hflat
  · intro k l hk hl
    have h1 := h.last_activation hk
    have h2 := h.last_activation hl
    omega

instance (s : State) : Decidable (Rest s) := inferInstanceAs (Decidable (_ ∧ _))

instance : ∀ (s : State) (a : Action), Decidable (solo s a)
  | _, .arriveAndWait _ _ _ | _, .arriveAndDrop _ | _, .arrival _ _ | _, .activation _ _ =>
      inferInstanceAs (Decidable (_ ∧ _))

instance (s : State) (a : Action) : Decidable (legal s a) := inferInstanceAs (Decidable (_ ∧ _))

/-- Two coroutines fill the first phase; while its completion function is suspended, a third one
and a drop arrive and fill the second phase. -/
def twoPhases : List Action :=
  Action.arriveAndWait 1 (.nth 0) ⟨0⟩ :: List.replicate 2 (Action.arrival 0 false) ++
  Action.arriveAndWait 2 (.nth 1) ⟨0⟩ :: List.replicate 3 (Action.arrival 1 false) ++
  List.replicate 8 (Action.activation 0 ⟨0⟩) ++ [Action.activation 0 ⟨1⟩] ++
  Action.arriveAndWait 3 (.nth 2) ⟨0⟩ :: List.replicate 2 (Action.arrival 2 false) ++
  Action.arriveAndDrop (.nth 3) :: List.replicate 2 (Action.arrival 3 false) ++
  List.replicate 9 (Action.activation 0 ⟨1⟩) ++ List.replicate 18 (Action.activation 1 ⟨1⟩)

theorem barrier_phasesInOrder_twoPhases :
    ∃ s, run (step ⟨2, .awaitable, ⟨1⟩⟩) legal (init ⟨2, .awaitable, ⟨1⟩⟩) twoPhases = some s ∧
      Rest s ∧ s.expected = 1 ∧
      s.log = [.called, .finished, .released (.wait 2 ⟨0⟩), .released (.wait 1 ⟨0⟩),
        .called, .finished, .released .drop, .released (.wait 3 ⟨0⟩)] ∧
      PhasesInOrder ⟨2, .awaitable, ⟨1⟩⟩ s := by
  have hend : (run (step ⟨2, .awaitable, ⟨1⟩⟩) legal (init ⟨2, .awaitable, ⟨1⟩⟩) twoPhases).map
      (fun s => (decide (Rest s), s.expected, s.log)) =
        some (true, 1, [.called, .finished, .released (.wait 2 ⟨0⟩), .released (.wait 1 ⟨0⟩),
          .called, .finished, .released .drop, .released (.wait 3 ⟨0⟩)]) := by decide +kernel
  obtain ⟨s, hs, hs'⟩ := Option.map_eq_some_iff.mp hend
  simp only [Prod.mk.injEq] at hs'
  obtain ⟨h1, h2, h3⟩ := hs'
  exact ⟨s, hs, of_decide_eq_true h1, h2, h3,
    barrier_phasesInOrder (by decide) (Reaches.run (Reaches.start rfl) hs)⟩

end

end Zab.Barrier
