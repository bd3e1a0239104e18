import Zab.Basic.Lifetime
import Zab.Sync.ObservableInv

set_option autoImplicit false

/-! # The destructor of `internal_observer`, step by step

In a round of its loop the destructor counts a result down and then reads its `next_`. Here these
are two steps, and the second comes after the `unpause` that the `count_down` calls if it was the
last one. The `emit` that owns the result may go on in between.
-/

namespace Zab.Observable

open Automaton Access

/-- Where the destructor is in a round of its loop. -/
inductive Round where
  /-- Before the `count_down`. -/
  | start
  /-- Before it reads `next_`; `last` tells that the `count_down` was the last one. -/
  | counted (last : Bool)
  deriving DecidableEq

/-- The observable, with the steps of the destructor. -/
structure Fine where
  base : State
  round : Round

namespace Fine

def init : Fine := ⟨Observable.init, .start⟩

/-- The next step of the holder of the mutex. -/
def hold (s : Fine) : Option Fine :=
  match s.base.holder with
  | .erasing o (some n) =>
      match s.round with
      | .start => some {
          base := { s.base.countDown n with
            dropped := Function.update s.base.dropped o (s.base.dropped o ++ [n.emit]) }
          round := .counted (s.base.crosses n.emit) }
      | .counted last =>
          if last ∧ s.base.crossed n.emit then none
          else some ⟨{ s.base with holder := .erasing o (s.base.next n) }, .start⟩
  | _ => s.base.hold.map fun base => { s with base := base }

def step (s : Fine) : Action → Option Fine
  | .hold => s.hold
  | a => (Observable.step s.base a).map fun base => { s with base := base }

/-- What a step does to the results: what it appends to the lists, takes out of them or counts
down. (An `emit` also walks along the list that it appends to.) -/
def accesses (s : Fine) : Action → List (Access PendingResult)
  | .hold =>
      match s.base.holder with
      | .emitting e (o :: _) => [.create ⟨e, o⟩]
      | .erasing _ (some n) =>
          match s.round with
          | .start => [.read n, .release n]
          | .counted _ => [.read n]
      | _ => []
  | .awaitResume o =>
      match s.base.result o with
      | some n => [.read n]
      | none => []
  | .destroyGuard n => [.read n, .release n]
  | _ => []

/-- Observers are destroyed only when they have received all of their results. -/
def emptyErase (s : Fine) : Action → Prop
  | .erase o => s.base.result o = none
  | _ => True

instance : ∀ (s : Fine) (a : Action), Decidable (emptyErase s a)
  | s, .erase o => inferInstanceAs (Decidable (s.base.result o = none))
  | _, .connect | _, .emit | _, .hold | _, .emitStep _ | _, .unpause _ | _, .awaitSuspend _ _
  | _, .awaitResume _ | _, .destroyGuard _ | _, .disconnect _ => inferInstanceAs (Decidable True)

/-! ## The steps of the destructor make up a round -/

/-- The state in which a round that has begun is over. -/
def coarse (s : Fine) : State :=
  match s.base.holder, s.round with
  | .erasing o (some n), .counted _ => { s.base with holder := .erasing o (s.base.next n) }
  | _, _ => s.base

/-- In the middle of a round the destructor is at a result. -/
def Sane (s : Fine) : Prop :=
  ∀ last, s.round = .counted last → ∃ o n, s.base.holder = .erasing o (some n)

section

variable {s s' : Fine} {t t' : State}

theorem coarse_start (h : s.round = .start) : s.coarse = s.base := by
  unfold coarse
  rw [h]
  split
  · rename_i hr
    cases hr
  · rfl

theorem coarse_counted {o : Observer} {n : PendingResult} {last : Bool}
    (hh : s.base.holder = .erasing o (some n)) (hr : s.round = .counted last) :
    s.coarse = { s.base with holder := .erasing o (s.base.next n) } := by
  unfold coarse
  rw [hh, hr]

/-- While an observer is erased, the others do not care which result the destructor is at. -/
theorem step_holder {a : Action} {o : Observer} {tmp : Option PendingResult}
    (tmp' : Option PendingResult) (ha : a ≠ .hold) (ht : t.holder = .erasing o tmp)
    (hs : Observable.step t a = some t') :
    t'.holder = t.holder ∧ t'.next = t.next ∧
      Observable.step { t with holder := .erasing o tmp' } a =
        some { t' with holder := .erasing o tmp' } := by
  cases a with
  | hold => exact absurd rfl ha
  | connect | emit | erase p => simp [Observable.step, ht] at hs
  | emitStep e =>
      simp only [Observable.step, State.emitStep] at hs ⊢
      cases he : t.emitter e with
      | arrived =>
          simp only [he] at hs ⊢
          split at hs <;> rename_i hu <;> obtain rfl := Option.some.inj hs
          · exact ⟨rfl, rfl, if_pos hu⟩
          · exact ⟨rfl, rfl, if_neg hu⟩
      | arriving | unpausing =>
          simp only [he, Option.some.injEq] at hs ⊢
          subst hs
          exact ⟨rfl, rfl, rfl⟩
      | delivering | suspended | returned => simp [he] at hs
  | unpause e =>
      simp only [Observable.step] at hs ⊢
      split at hs
      · rename_i hc
        obtain rfl := Option.some.inj hs
        rw [if_pos hc]
        unfold State.unpause
        dsimp only
        split
        · exact ⟨rfl, rfl, rfl⟩
        · exact ⟨rfl, rfl, rfl⟩
      · cases hs
  | awaitSuspend p th =>
      simp only [Observable.step] at hs ⊢
      split at hs
      · rename_i hc
        obtain rfl := Option.some.inj hs
        rw [if_pos hc]
        unfold State.awaitSuspend
        dsimp only
        split
        · exact ⟨rfl, rfl, rfl⟩
        · exact ⟨rfl, rfl, rfl⟩
      · cases hs
  | awaitResume p =>
      simp only [Observable.step] at hs ⊢
      split at hs
      · obtain ⟨n, hn, rfl⟩ := Option.map_eq_some_iff.mp hs
        exact ⟨rfl, rfl, by simp [State.awaitResume, hn, State.take]⟩
      · cases hs
  | destroyGuard n =>
      simp only [Observable.step] at hs ⊢
      split at hs
      · rename_i hg
        obtain rfl := Option.some.inj hs
        exact ⟨rfl, rfl, if_pos hg⟩
      · cases hs
  | disconnect p =>
      simp only [Observable.step] at hs ⊢
      split at hs
      · rename_i hc
        obtain rfl := Option.some.inj hs
        exact ⟨rfl, rfl, if_pos hc⟩
      · cases hs

/-- Every other step is a step of the rounds. -/
theorem base_step {a : Action} (ha : a ≠ .hold) (hs : step s a = some s') :
    ∃ t, Observable.step s.base a = some t ∧ { s with base := t } = s' := by
  cases a with
  | hold => exact absurd rfl ha
  | connect | emit | erase | emitStep | unpause | awaitSuspend | awaitResume | destroyGuard
  | disconnect => exact Option.map_eq_some_iff.mp hs

/-- The second half of a round changes nothing. -/
theorem hold_counted {o : Observer} {n : PendingResult} {last : Bool}
    (hh : s.base.holder = .erasing o (some n)) (hr : s.round = .counted last)
    (hs : s.hold = some s') : s'.round = .start ∧ s'.coarse = s.coarse := by
  simp only [hold, hh, hr] at hs
  split at hs
  · cases hs
  · obtain rfl := Option.some.inj hs
    exact ⟨rfl, (coarse_start rfl).trans (coarse_counted hh hr).symm⟩

/-- The first half of a round does what the round does. -/
theorem hold_start {o : Observer} {n : PendingResult}
    (hh : s.base.holder = .erasing o (some n)) (hr : s.round = .start) (hs : s.hold = some s') :
    s'.Sane ∧ Observable.step s.coarse .hold = some s'.coarse := by
  rw [coarse_start hr]
  simp only [hold, hh, hr, Option.some.injEq] at hs
  subst hs
  refine ⟨fun _ _ => ⟨o, n, hh⟩, ?_⟩
  simp [Observable.step, State.hold, hh, State.drop, coarse, State.countDown, State.fetchSub]

/-- **The steps of the destructor refine its rounds.** -/
theorem refines (hsane : s.Sane) {a : Action} (hs : step s a = some s') :
    s'.Sane ∧ (s'.coarse = s.coarse ∨ Observable.step s.coarse a = some s'.coarse) := by
  cases hr : s.round with
  | start =>
      rw [coarse_start hr]
      have hgo : ∀ {t : State}, Observable.step s.base a = some t → s' = { s with base := t } →
          s'.Sane ∧ (s'.coarse = s.base ∨ Observable.step s.base a = some s'.coarse) := by
        rintro t ht rfl
        refine ⟨fun last hlast => ?_, Or.inr ?_⟩
        · rw [hr] at hlast
          cases hlast
        · rw [coarse_start (s := { s with base := t }) hr]
          exact ht
      by_cases ha : a = .hold
      · subst ha
        by_cases hh : ∃ o n, s.base.holder = .erasing o (some n)
        · obtain ⟨o, n, hh⟩ := hh
          obtain ⟨h1, h2⟩ := hold_start hh hr hs
          rw [coarse_start hr] at h2
          exact ⟨h1, Or.inr h2⟩
        · -- the holder is not in the loop
          have hs : s.hold = some s' := hs
          unfold hold at hs
          split at hs
          · rename_i o n hh'
            exact absurd ⟨o, n, hh'⟩ hh
          · obtain ⟨t, ht, rfl⟩ := Option.map_eq_some_iff.mp hs
            exact hgo ht rfl
      · obtain ⟨t, ht, rfl⟩ := base_step ha hs
        exact hgo ht rfl
  | counted last =>
      obtain ⟨o, n, hh⟩ := hsane last hr
      by_cases ha : a = .hold
      · subst ha
        obtain ⟨h1, h2⟩ := hold_counted hh hr hs
        refine ⟨fun last' hlast => ?_, Or.inl h2⟩
        rw [h1] at hlast
        cases hlast
      · obtain ⟨t, ht, rfl⟩ := base_step ha hs
        obtain ⟨h1, h2, h3⟩ := step_holder (s.base.next n) ha hh ht
        refine ⟨fun _ _ => ⟨o, n, h1.trans hh⟩, Or.inr ?_⟩
        have hnext : t.next n = s.base.next n := congrFun h2 n
        rw [coarse_counted hh hr, coarse_counted (s := ⟨t, s.round⟩) (h1.trans hh) hr, hnext]
        exact h3

/-- A run of the destructor's steps is a run of its rounds. -/
theorem coarse_reachable (hr : Reaches step anyStep (· = init) s) :
    s.Sane ∧ Observable.Reachable s.coarse := by
  refine hr.invariant (I := fun s => s.Sane ∧ Observable.Reachable s.coarse) ?_ ?_
  · rintro s rfl
    refine ⟨fun last hlast => ?_, Reaches.start rfl⟩
    cases hlast
  · rintro s a s' - ⟨hsane, hreach⟩ - hs
    obtain ⟨h1, h2 | h2⟩ := refines hsane hs
    · exact ⟨h1, h2 ▸ hreach⟩
    · exact ⟨h1, hreach.next trivial h2⟩

/-! ## When the destructor looks back -/

/-- A destructor that holds the mutex held it before, at the result it is at or at one before, or
has just been called. -/
theorem erasing_step {a : Action} (hs : Observable.step t a = some t') {o : Observer}
    {tmp : Option PendingResult} (hh : t'.holder = .erasing o tmp) :
    t.holder = .erasing o tmp ∨ (∃ n, t.holder = .erasing o (some n)) ∨
      a = .erase o ∧ tmp = t.result o := by
  cases a with
  | erase p =>
      simp only [Observable.step] at hs
      split_ifs at hs
      obtain rfl := Option.some.inj hs
      simp only [State.erase, Holder.erasing.injEq] at hh
      obtain ⟨rfl, rfl⟩ := hh
      exact Or.inr (Or.inr ⟨rfl, rfl⟩)
  | hold =>
      simp only [Observable.step, State.hold] at hs
      split at hs
      · cases hs
      · obtain rfl := Option.some.inj hs
        rw [deliver_eq] at hh
        cases hh
      · obtain rfl := Option.some.inj hs
        cases hh
      · -- a round of the loop
        rename_i p n hp
        obtain rfl := Option.some.inj hs
        obtain ⟨rfl, -⟩ := Holder.erasing.inj hh
        exact Or.inr (Or.inl ⟨n, hp⟩)
      · obtain rfl := Option.some.inj hs
        cases hh
  | emit =>
      simp only [Observable.step, State.emit] at hs
      split_ifs at hs with hfree
      · obtain rfl := Option.some.inj hs
        cases hh
      · obtain rfl := Option.some.inj hs
        exact Or.inl hh
  | emitStep e =>
      simp only [Observable.step, State.emitStep] at hs
      repeat' split at hs
      all_goals cases hs
      all_goals exact Or.inl hh
  | unpause e =>
      simp only [Observable.step, State.unpause] at hs
      split_ifs at hs <;> obtain rfl := Option.some.inj hs <;> exact Or.inl hh
  | awaitSuspend o th =>
      simp only [Observable.step, State.awaitSuspend] at hs
      split_ifs at hs <;> obtain rfl := Option.some.inj hs <;> exact Or.inl hh
  | awaitResume p =>
      simp only [Observable.step] at hs
      split at hs
      · obtain ⟨n, -, rfl⟩ := Option.map_eq_some_iff.mp hs
        exact Or.inl hh
      · cases hs
  | connect | disconnect p | destroyGuard n =>
      simp only [Observable.step] at hs
      split_ifs at hs
      obtain rfl := Option.some.inj hs
      exact Or.inl hh

/-- The destructor never finds a result when observers are destroyed with empty lists only. -/
def Empty (s : Fine) : Prop :=
  s.round = .start ∧ ∀ o tmp, s.base.holder = .erasing o tmp → tmp = none

/-- Then its loop has no round, and every step is one of the coarse ones. -/
theorem Empty.base_step {a : Action} (h : s.Empty) (hs : step s a = some s') :
    ∃ t, Observable.step s.base a = some t ∧ { s with base := t } = s' := by
  by_cases ha : a = .hold
  · subst ha
    have hs : s.hold = some s' := hs
    unfold hold at hs
    split at hs
    · rename_i o n hh
      cases h.2 o _ hh
    · exact Option.map_eq_some_iff.mp hs
  · exact Fine.base_step ha hs

theorem Empty.step {a : Action} (h : s.Empty) (hok : emptyErase s a) (hs : step s a = some s') :
    s'.Empty ∧ Observable.step s.base a = some s'.base := by
  obtain ⟨t, ht, rfl⟩ := h.base_step hs
  refine ⟨⟨h.1, fun o tmp hh => ?_⟩, ht⟩
  rcases erasing_step ht hh with hbefore | ⟨n, hround⟩ | ⟨rfl, rfl⟩
  · exact h.2 o tmp hbefore
  · cases h.2 o _ hround
  · exact hok

end

end Fine

end Zab.Observable
