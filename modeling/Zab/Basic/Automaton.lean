import Mathlib.Data.List.Induction
import Mathlib.Logic.Function.Basic
import Mathlib.Logic.Relation
import Mathlib.Tactic.Push

set_option autoImplicit false

/-! # Labelled step functions and the states their runs reach

A concurrent system is given by a partial step function `step : σ → α → Option σ`. A label
`a : α` names the actor that moves and resolves every choice the scheduler or the hardware
has (which thread runs next, whether a weak compare-and-swap fails spuriously), so that a
fixed list of labels can be executed. `step s a = none` means that the move is not enabled.

Runs may be restricted by a side condition `ok` on the label and the state it is taken in.
`Reaches step ok init s` says that `s` is reached from a state of `init` by steps that all
satisfy `ok`; the invariant rule `Reaches.invariant` is the only induction on runs that the
users of this file need.
-/

namespace Automaton

universe u v w

variable {σ : Type u} {α : Type v}

/-- One step by some label that `ok` allows in the state it is taken in. -/
def Next (step : σ → α → Option σ) (ok : σ → α → Prop) (s s' : σ) : Prop :=
  ∃ a, ok s a ∧ step s a = some s'

/-- `s` is reached from a state of `init` by steps that all satisfy `ok`. -/
def Reaches (step : σ → α → Option σ) (ok : σ → α → Prop) (init : σ → Prop) (s : σ) : Prop :=
  ∃ s₀, init s₀ ∧ Relation.ReflTransGen (Next step ok) s₀ s

/-- The side condition that allows every step. -/
def anyStep (_ : σ) (_ : α) : Prop := True

instance (s : σ) (a : α) : Decidable (anyStep s a) := inferInstanceAs (Decidable True)

section

variable {step : σ → α → Option σ} {ok : σ → α → Prop} {init : σ → Prop} {s s' : σ}

theorem Reaches.start (h : init s) : Reaches step ok init s :=
  ⟨s, h, Relation.ReflTransGen.refl⟩

theorem Reaches.next {a : α} (h : Reaches step ok init s) (hok : ok s a)
    (hs : step s a = some s') : Reaches step ok init s' := by
  obtain ⟨s₀, h₀, hr⟩ := h
  exact ⟨s₀, h₀, hr.tail ⟨a, hok, hs⟩⟩

theorem Reaches.trans (h : Reaches step ok init s) (h' : Reaches step ok (· = s) s') :
    Reaches step ok init s' := by
  obtain ⟨s₀, h₀, hr⟩ := h
  obtain ⟨_, rfl, hr'⟩ := h'
  exact ⟨s₀, h₀, hr.trans hr'⟩

/-- **The invariant rule.** A predicate that holds initially and is preserved by every
allowed step out of a reached state holds in every reached state. -/
theorem Reaches.invariant {I : σ → Prop} (h : Reaches step ok init s)
    (hinit : ∀ s, init s → I s)
    (hstep : ∀ s a s', Reaches step ok init s → I s → ok s a → step s a = some s' → I s') :
    I s := by
  obtain ⟨s₀, h₀, hr⟩ := h
  induction hr with
  | refl => exact hinit s₀ h₀
  | tail hab hbc ih =>
      obtain ⟨a, hok, hs⟩ := hbc
      exact hstep _ a _ ⟨s₀, h₀, hab⟩ ih hok hs

/-- A weaker side condition reaches more. -/
theorem Reaches.mono {ok' : σ → α → Prop} (h : Reaches step ok init s)
    (himp : ∀ s a, ok s a → ok' s a) : Reaches step ok' init s := by
  refine h.invariant (fun s hs => Reaches.start hs) ?_
  intro s a s' _ ih hok hs
  exact ih.next (himp s a hok) hs

/-! ## Executing a list of labels -/

/-- Execute labels from left to right; `none` as soon as one is not enabled or not allowed. -/
def run (step : σ → α → Option σ) (ok : σ → α → Prop) [∀ s a, Decidable (ok s a)] :
    σ → List α → Option σ
  | s, [] => some s
  | s, a :: l => if ok s a then (step s a).bind fun s' => run step ok s' l else none

theorem run_cons [∀ s a, Decidable (ok s a)] {a : α} {l : List α} (hok : ok s a)
    (hs : step s a = some s') : run step ok s (a :: l) = run step ok s' l := by
  simp [run, hok, hs]

theorem run_append [∀ s a, Decidable (ok s a)] (s : σ) (l l' : List α) :
    run step ok s (l ++ l') = (run step ok s l).bind fun t => run step ok t l' := by
  induction l generalizing s with
  | nil => rfl
  | cons a l ih =>
      by_cases hok : ok s a
      · simp only [List.cons_append, run, if_pos hok]
        cases step s a with
        | none => rfl
        | some t => exact ih t
      · simp only [List.cons_append, run, if_neg hok]
        rfl

/-- The last step of a run. -/
theorem run_concat [∀ s a, Decidable (ok s a)] {l : List α} {a : α}
    (h : run step ok s (l ++ [a]) = some s') :
    ∃ t, run step ok s l = some t ∧ ok t a ∧ step t a = some s' := by
  rw [run_append] at h
  obtain ⟨t, ht, h⟩ := Option.bind_eq_some_iff.mp h
  simp only [run] at h
  split at h
  · rename_i hok
    obtain ⟨t', ht', h⟩ := Option.bind_eq_some_iff.mp h
    exact ⟨t, ht, hok, ht'.trans h⟩
  · cases h

/-- **The invariant rule for runs.** The predicate may speak of the labels that have led to the
state. -/
theorem run_invariant [∀ s a, Decidable (ok s a)] {I : List α → σ → Prop} (hinit : I [] s)
    (hstep : ∀ l t a t', I l t → ok t a → step t a = some t' → I (l ++ [a]) t') {l : List α}
    (h : run step ok s l = some s') : I l s' := by
  induction l using List.reverseRecOn generalizing s' with
  | nil =>
      obtain rfl := Option.some.inj h
      exact hinit
  | append_singleton l a ih =>
      obtain ⟨t, ht, hok, hs⟩ := run_concat h
      exact hstep l t a s' (ih ht) hok hs

/-- **The rule for termination.** Every step takes a bound on the steps to come to a smaller one. -/
theorem run_bounded [∀ s a, Decidable (ok s a)] {I : Nat → σ → Prop}
    (hstep : ∀ m s a s', I m s → ok s a → step s a = some s' → ∃ m' < m, I m' s') {m : Nat}
    {l : List α} (h : I m s) (hr : run step ok s l = some s') :
    ∃ m', m' + l.length ≤ m ∧ I m' s' := by
  induction l using List.reverseRecOn generalizing s' with
  | nil =>
      obtain rfl := Option.some.inj hr
      exact ⟨m, Nat.le_refl m, h⟩
  | append_singleton l a ih =>
      obtain ⟨t, ht, hok, hs⟩ := run_concat hr
      obtain ⟨m₁, hle, hI⟩ := ih ht
      obtain ⟨m₂, hlt, hI⟩ := hstep m₁ t a s' hI hok hs
      refine ⟨m₂, ?_, hI⟩
      rw [List.length_append, List.length_singleton]
      omega

/-- If runs cannot go on for ever, one of them ends in a state without a step. -/
theorem exists_stuck [∀ s a, Decidable (ok s a)] {n : Nat}
    (h : ∀ l s', run step ok s l = some s' → l.length ≤ n) :
    ∃ l s', run step ok s l = some s' ∧ ∀ a, ok s' a → step s' a = none := by
  by_contra hnot
  push Not at hnot
  have hlong : ∀ m, ∃ l s', run step ok s l = some s' ∧ l.length = m := by
    intro m
    induction m with
    | zero => exact ⟨[], s, rfl, rfl⟩
    | succ m ih =>
        obtain ⟨l, t, ht, hlen⟩ := ih
        obtain ⟨a, hok, hne⟩ := hnot l t ht
        obtain ⟨t', ht'⟩ := Option.ne_none_iff_exists'.mp hne
        refine ⟨l ++ [a], t', ?_, by simp [hlen]⟩
        rw [run_append, ht]
        simp [run, hok, ht']
  obtain ⟨l, t, ht, hlen⟩ := hlong (n + 1)
  have := h l t ht
  omega

theorem Reaches.run [∀ s a, Decidable (ok s a)] {l : List α} (h : Reaches step ok init s)
    (hr : run step ok s l = some s') : Reaches step ok init s' := by
  induction l generalizing s with
  | nil =>
      have : s = s' := by simpa [Automaton.run] using hr
      exact this ▸ h
  | cons a l ih =>
      simp only [Automaton.run] at hr
      split at hr
      · rename_i hok
        obtain ⟨t, ht, hr⟩ := Option.bind_eq_some_iff.mp hr
        exact ih (h.next hok ht) hr
      · cases hr

end

/-! ## Program counters

Where the parties of a system are is a function `pc` from the parties to places, and a step of a
party moves it alone. What holds of all parties afterwards follows from
`Function.forall_update_iff`. -/

/-- What cannot tell the new place of the party that moved from its old one sees no change. -/
theorem update_unseen {κ : Type u} {π : Type v} {β : Type w} [DecidableEq κ] {pc : κ → π} {c : κ}
    {q : π} (view : π → β) (h : view q = view (pc c)) (d : κ) :
    view (Function.update pc c q d) = view (pc d) := by
  rw [Function.apply_update (fun _ => view), h, Function.update_eq_self c fun d => view (pc d)]

end Automaton
