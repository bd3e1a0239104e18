import Zab.Basic.Automaton

set_option autoImplicit false

/-! # Forward simulations between step functions

A system with the labels `α` is compared with one on a higher level with the labels `β`. What a
step means on the higher level is given as a list of labels, `obs s a`, which is empty for a step
that is not visible there. A relation `R` between the states is a simulation if every step of the
lower system can be followed by the labels it means; then every run can (`Simulates.run`).
-/

universe u v w x

namespace Automaton

variable {σ : Type u} {α : Type v} {τ : Type w} {β : Type x}

/-- The labels one after the other. -/
def follow (step : τ → β → Option τ) (t : τ) (l : List β) : Option τ :=
  l.foldlM step t

theorem follow_singleton (step : τ → β → Option τ) (t : τ) (b : β) :
    follow step t [b] = step t b := by
  simp [follow]

theorem follow_append (step : τ → β → Option τ) (t : τ) (l l' : List β) :
    follow step t (l ++ l') = (follow step t l).bind fun t' => follow step t' l' := by
  simp only [follow, List.foldlM_append]
  rfl

/-- Labels that are allowed wherever they are taken lead on. -/
theorem Reaches.follow {step : σ → α → Option σ} {ok : σ → α → Prop} {init : σ → Prop} {s s' : σ}
    {l : List α} (h : Reaches step ok init s) (hok : ∀ a ∈ l, ∀ s, ok s a)
    (hf : follow step s l = some s') : Reaches step ok init s' := by
  induction l generalizing s with
  | nil =>
      obtain rfl := Option.some.inj hf
      exact h
  | cons a l ih =>
      rw [Automaton.follow, List.foldlM_cons] at hf
      obtain ⟨t, ht, hf⟩ := Option.bind_eq_some_iff.mp hf
      exact ih (h.next (hok a List.mem_cons_self s) ht)
        (fun b hb => hok b (List.mem_cons_of_mem a hb)) hf

/-- The steps that are allowed. -/
def restrict (step : σ → α → Option σ) (ok : σ → α → Prop) [∀ s a, Decidable (ok s a)] (s : σ)
    (a : α) : Option σ :=
  if ok s a then step s a else none

/-- The system together with what its steps have meant on the higher level. -/
def observed (step : σ → α → Option σ) (obs : σ → α → List β) :
    σ × List β → α → Option (σ × List β)
  | (s, l), a => (step s a).map fun s' => (s', l ++ obs s a)

/-- The runs of a system, with their meaning on the higher level. -/
def ReachesBy (step : σ → α → Option σ) (ok : σ → α → Prop) (init : σ → Prop)
    (obs : σ → α → List β) (s : σ) (l : List β) : Prop :=
  Reaches (observed step obs) (fun p a => ok p.1 a) (fun p => init p.1 ∧ p.2 = []) (s, l)

structure Simulates (step : σ → α → Option σ) (ok : σ → α → Prop) (init : σ → Prop)
    (step' : τ → β → Option τ) (init' : τ → Prop) (obs : σ → α → List β)
    (R : σ → τ → Prop) : Prop where
  start : ∀ s, init s → ∃ t, init' t ∧ R s t
  next : ∀ s a s' t, Reaches step ok init s → R s t → ok s a → step s a = some s' →
    ∃ t', follow step' t (obs s a) = some t' ∧ R s' t'

variable {step : σ → α → Option σ} {ok : σ → α → Prop} {init : σ → Prop}
  {step' : τ → β → Option τ} {init' : τ → Prop} {obs : σ → α → List β} {R : σ → τ → Prop}

theorem ReachesBy.start {s : σ} (h : init s) : ReachesBy step ok init obs s [] :=
  Reaches.start ⟨h, rfl⟩

theorem ReachesBy.next {s s' : σ} {l : List β} {a : α} (h : ReachesBy step ok init obs s l)
    (hok : ok s a) (hs : step s a = some s') :
    ReachesBy step ok init obs s' (l ++ obs s a) := by
  refine Reaches.next (a := a) h hok ?_
  simp [observed, hs]

/-- **The simulation rule.** Every run of the lower system is one of the higher system. -/
theorem Simulates.run (S : Simulates step ok init step' init' obs R) {s : σ} {l : List β}
    (h : ReachesBy step ok init obs s l) :
    ∃ t₀ t, init' t₀ ∧ follow step' t₀ l = some t ∧ R s t := by
  have hinv : Reaches step ok init s ∧
      ∃ t₀ t, init' t₀ ∧ follow step' t₀ l = some t ∧ R s t := by
    refine Reaches.invariant (I := fun p : σ × List β => Reaches step ok init p.1 ∧
      ∃ t₀ t, init' t₀ ∧ follow step' t₀ p.2 = some t ∧ R p.1 t) h ?_ ?_
    · rintro ⟨s, l⟩ ⟨hs, rfl⟩
      obtain ⟨t, ht, hR⟩ := S.start s hs
      exact ⟨Reaches.start hs, t, t, ht, rfl, hR⟩
    · rintro ⟨s, l⟩ a ⟨s', l'⟩ - ⟨hr, t₀, t, h₀, ht, hR⟩ hok hs
      obtain ⟨s₁, hs₁, heq⟩ := Option.map_eq_some_iff.mp hs
      cases heq
      obtain ⟨t', ht', hR'⟩ := S.next s a s' t hr hR hok hs₁
      refine ⟨hr.next hok hs₁, t₀, t', h₀, ?_, hR'⟩
      show follow step' t₀ (l ++ obs s a) = some t'
      rw [follow_append, ht]
      exact ht'
  exact hinv.2

end Automaton
