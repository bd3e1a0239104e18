import Zab.Basic.Simulation
import Mathlib.Tactic.Common

set_option autoImplicit false

/-! # Sections under a spin lock are atomic

In a coarse system some steps are sections: `locked s a` gives the micro-steps of the section that
the label `a` stands for in the state `s`. In the fine system a thread takes the lock first, by
exchanges of a word and a loop of loads in between, then takes the micro-steps of its section one
by one, and stores the word at the end; the other threads go on in the meantime. `Movers` asks that
the micro-steps of a section can be moved behind whatever another thread does outside of its
sections. Then every run of the fine system is one of the coarse system, in which a section is one
step, at the moment of its unlock (`simulates_coarse`).
-/

universe u v w

namespace Automaton

variable {σ : Type u} {α : Type v} {τ : Type w}

/-- Functions one after the other. -/
def applyAll (l : List (σ → σ)) (s : σ) : σ := l.foldl (fun s m => m s) s

theorem applyAll_concat (l : List (σ → σ)) (m : σ → σ) (s : σ) :
    applyAll (l ++ [m]) s = m (applyAll l s) := by
  simp [applyAll]

/-- Where a thread is with its section. -/
inductive Stage (σ : Type u) (α : Type v) where
  | outside
  /-- Before the exchange of the word. -/
  | exchange (a : α) (todo : List (σ → σ))
  /-- Before the load in the inner loop of the lock. -/
  | spin (a : α) (todo : List (σ → σ))
  /-- The lock is taken. -/
  | inside (a : α) (done todo : List (σ → σ))

namespace Stage

def isOutside : Stage σ α → Bool
  | outside => true
  | exchange _ _ | spin _ _ | inside _ _ _ => false

def isInside : Stage σ α → Bool
  | inside _ _ _ => true
  | outside | exchange _ _ | spin _ _ => false

/-- The section that the thread is about to run or runs. -/
def section? : Stage σ α → Option (α × List (σ → σ))
  | outside => none
  | exchange a todo | spin a todo => some (a, todo)
  | inside a done todo => some (a, done ++ todo)

end Stage

/-- The fine system: the state of the coarse one, the word of the lock, and the threads. -/
structure Fine (σ : Type u) (α : Type v) (τ : Type w) where
  base : σ
  word : Bool
  stage : τ → Stage σ α

def Fine.start (s : σ) : Fine σ α τ := ⟨s, false, fun _ => .outside⟩

inductive Move (α : Type v) (τ : Type w) where
  /-- A step outside of a section. -/
  | plain (a : α)
  /-- A thread comes to the lock before its section. -/
  | begin (a : α)
  /-- A thread goes on with the lock or with its section. -/
  | next (t : τ)

section

variable [DecidableEq τ]

def Fine.goto (f : Fine σ α τ) (t : τ) (g : Stage σ α) : Fine σ α τ :=
  { f with stage := Function.update f.stage t g }

/-- `lock()`, the section, `unlock()`. -/
def Fine.next (f : Fine σ α τ) (t : τ) : Option (Fine σ α τ) :=
  match f.stage t with
  | .outside => none
  | .exchange a todo =>
      if f.word = true then some (f.goto t (.spin a todo))
      else some { f.goto t (.inside a [] todo) with word := true }
  | .spin a todo =>
      if f.word = true then some f else some (f.goto t (.exchange a todo))
  | .inside a done (m :: todo) =>
      some { f.goto t (.inside a (done ++ [m]) todo) with base := m f.base }
  | .inside _ _ [] => some { f.goto t .outside with word := false }

/-- A section is a step of the coarse system when its lock is released. -/
def coarseSteps (f : Fine σ α τ) : Move α τ → List α
  | .plain a => [a]
  | .begin _ => []
  | .next t =>
      match f.stage t with
      | .inside a _ [] => [a]
      | _ => []

end

/-- A micro-step of some section of `t`. -/
def IsMicro (actor : α → τ) (locked : σ → α → Option (List (σ → σ))) (t : τ) (m : σ → σ) : Prop :=
  ∃ s a todo, locked s a = some todo ∧ actor a = t ∧ m ∈ todo

/-- What a thread does outside of its sections does not depend on how far another thread is with
its section. -/
structure Movers (step : σ → α → Option σ) (actor : α → τ)
    (locked : σ → α → Option (List (σ → σ))) : Prop where
  /-- The micro-steps of a section make up a step of the coarse system. -/
  whole : ∀ s a todo, locked s a = some todo → step s a = some (applyAll todo s)
  /-- What another thread does keeps a thread that is before a section there. -/
  stable : ∀ s s' a b todo, actor b ≠ actor a → locked s a = some todo → step s b = some s' →
    locked s' a = some todo
  keeps : ∀ s t m a, IsMicro actor locked t m → actor a ≠ t → locked (m s) a = locked s a
  move : ∀ s x t m b, IsMicro actor locked t m → actor b ≠ t → locked s b = none →
    step (m s) b = some x → ∃ s', step s b = some s' ∧ x = m s'

section

variable {step : σ → α → Option σ} {actor : α → τ} {locked : σ → α → Option (List (σ → σ))}

theorem Movers.keeps_all (M : Movers step actor locked) {t : τ} {a : α} (ha : actor a ≠ t) {s : σ}
    {l : List (σ → σ)} (hl : ∀ m ∈ l, IsMicro actor locked t m) :
    locked (applyAll l s) a = locked s a := by
  induction l using List.reverseRecOn with
  | nil => rfl
  | append_singleton l m ih =>
      rw [applyAll_concat, M.keeps _ t m a (hl m (by simp)) ha]
      exact ih fun m hm => hl m (List.mem_append_left _ hm)

/-- All micro-steps so far are moved behind the step of another thread. -/
theorem Movers.move_all (M : Movers step actor locked) {t : τ} {b : α} (hb : actor b ≠ t) {s x : σ}
    {l : List (σ → σ)} (hl : ∀ m ∈ l, IsMicro actor locked t m) (hfree : locked s b = none)
    (hs : step (applyAll l s) b = some x) : ∃ s', step s b = some s' ∧ x = applyAll l s' := by
  induction l using List.reverseRecOn generalizing x with
  | nil => exact ⟨x, hs, rfl⟩
  | append_singleton l m ih =>
      have hl' : ∀ m ∈ l, IsMicro actor locked t m := fun m hm => hl m (List.mem_append_left _ hm)
      rw [applyAll_concat] at hs
      obtain ⟨y, hy, rfl⟩ := M.move _ x t m b (hl m (by simp)) hb
        ((M.keeps_all hb hl').trans hfree) hs
      obtain ⟨s', hs', rfl⟩ := ih hl' hy
      exact ⟨s', hs', (applyAll_concat l m s').symm⟩

/-- The coarse state is the fine one without what the section in progress has done. -/
structure Matches (actor : α → τ) (locked : σ → α → Option (List (σ → σ))) (f : Fine σ α τ)
    (s : σ) : Prop where
  word : f.word = true ↔ ∃ t, (f.stage t).isInside = true
  alone : ∀ t u, (f.stage t).isInside = true → (f.stage u).isInside = true → t = u
  outside : f.word = false → f.base = s
  inside : ∀ t a done todo, f.stage t = .inside a done todo → f.base = applyAll done s
  ready : ∀ t a todo, (f.stage t).section? = some (a, todo) →
    actor a = t ∧ locked s a = some todo

/-- The thread that has taken the lock. -/
theorem Matches.holder {f : Fine σ α τ} {s : σ} (h : Matches actor locked f s)
    (hw : f.word = true) : ∃ t a done todo, f.stage t = .inside a done todo := by
  obtain ⟨t, ht⟩ := h.word.mp hw
  cases hg : f.stage t with
  | inside a done todo => exact ⟨t, a, done, todo, hg⟩
  | outside | exchange a todo | spin a todo =>
      rw [hg] at ht
      cases ht

/-- What a thread has done of its section are micro-steps of it. -/
theorem Matches.micro {f : Fine σ α τ} {s : σ} (h : Matches actor locked f s) {t : τ} {a : α}
    {done todo : List (σ → σ)} (ht : f.stage t = .inside a done todo) :
    ∀ m ∈ done, IsMicro actor locked t m := by
  intro m hm
  obtain ⟨ha, hl⟩ := h.ready t a (done ++ todo) (by rw [ht]; rfl)
  exact ⟨s, a, done ++ todo, hl, ha, List.mem_append_left _ hm⟩

/-- A thread that is outside does not see the section in progress. -/
theorem Matches.locked_eq (M : Movers step actor locked) {f : Fine σ α τ} {s : σ}
    (h : Matches actor locked f s) {a : α} (ha : (f.stage (actor a)).isOutside = true) :
    locked f.base a = locked s a := by
  cases hw : f.word with
  | false => rw [h.outside hw]
  | true =>
      obtain ⟨t, b, done, todo, ht⟩ := h.holder hw
      have hne : actor a ≠ t := by
        rintro rfl
        rw [ht] at ha
        cases ha
      rw [h.inside t b done todo ht]
      exact M.keeps_all hne (h.micro ht)

/-- **A step outside of a section.** -/
theorem Matches.plain (M : Movers step actor locked) {f : Fine σ α τ} {s x : σ}
    (h : Matches actor locked f s) {a : α} (ha : (f.stage (actor a)).isOutside = true)
    (hfree : locked f.base a = none) (hs : step f.base a = some x) :
    ∃ s', step s a = some s' ∧ Matches actor locked { f with base := x } s' := by
  have hfree' : locked s a = none := (h.locked_eq M ha).symm.trans hfree
  have hne : ∀ t b todo, (f.stage t).section? = some (b, todo) → actor a ≠ t := by
    rintro t b todo hb rfl
    cases hg : f.stage (actor a) with
    | outside =>
        rw [hg] at hb
        cases hb
    | exchange c l | spin c l | inside c l l' =>
        rw [hg] at ha
        cases ha
  have hready : ∀ s', step s a = some s' → ∀ t b todo, (f.stage t).section? = some (b, todo) →
      actor b = t ∧ locked s' b = some todo := by
    intro s' hs' t b todo hb
    obtain ⟨rfl, hl⟩ := h.ready t b todo hb
    exact ⟨rfl, M.stable s s' b a todo (hne _ b todo hb) hl hs'⟩
  by_cases hw : f.word = true
  · obtain ⟨t, b, done, todo, ht⟩ := h.holder hw
    rw [h.inside t b done todo ht] at hs
    obtain ⟨s', hs', rfl⟩ := M.move_all (hne t b _ (by rw [ht]; rfl)) (h.micro ht) hfree' hs
    refine ⟨s', hs', h.word, h.alone, fun hf => ?_, fun u c done' todo' hu => ?_, hready s' hs'⟩
    · exact absurd (hw.symm.trans hf) (by simp)
    · have hu : f.stage u = .inside c done' todo' := hu
      obtain rfl : t = u := h.alone t u (by rw [ht]; rfl) (by rw [hu]; rfl)
      rw [ht] at hu
      cases hu
      rfl
  · rw [h.outside (Bool.eq_false_iff.mpr hw)] at hs
    refine ⟨x, hs, h.word, h.alone, fun _ => rfl, fun t b done todo ht => ?_, hready x hs⟩
    -- nobody is inside
    exact absurd (h.word.mpr ⟨t, by rw [show f.stage t = _ from ht]; rfl⟩) hw

section

variable [DecidableEq τ]

theorem Fine.goto_stage (f : Fine σ α τ) (t : τ) (g : Stage σ α) (u : τ) :
    (f.goto t g).stage u = if u = t then g else f.stage u := Function.update_apply ..

/-- A thread that has not taken the lock goes on without it. -/
theorem Matches.goto {f : Fine σ α τ} {s : σ} (h : Matches actor locked f s) {t : τ}
    {g : Stage σ α} (hin : (f.stage t).isInside = false) (hg : g.isInside = false)
    (hready : ∀ a todo, g.section? = some (a, todo) → actor a = t ∧ locked s a = some todo) :
    Matches actor locked (f.goto t g) s := by
  have hstage : ∀ u, ((f.goto t g).stage u).isInside = (f.stage u).isInside := by
    intro u
    rw [Fine.goto_stage]
    split
    · rename_i hu
      rw [hg, hu, hin]
    · rfl
  refine ⟨?_, fun u v hu hv => ?_, h.outside, fun u a done todo hu => ?_, fun u a todo hu => ?_⟩
  · exact h.word.trans (exists_congr fun u => by rw [hstage])
  · rw [hstage] at hu hv
    exact h.alone u v hu hv
  · rw [Fine.goto_stage] at hu
    split at hu
    · rw [hu] at hg
      cases hg
    · exact h.inside u a done todo hu
  · rw [Fine.goto_stage] at hu
    split at hu
    · rename_i hut
      rw [hut]
      exact hready a todo hu
    · exact h.ready u a todo hu

/-- **A thread takes the lock.** -/
theorem Matches.lock {f : Fine σ α τ} {s : σ} (h : Matches actor locked f s) {t : τ} {a : α}
    {todo : List (σ → σ)} (ht : f.stage t = .exchange a todo) (hw : f.word = false) :
    Matches actor locked { f.goto t (.inside a [] todo) with word := true } s := by
  have hnone : ∀ u, (f.stage u).isInside = false := by
    intro u
    refine Bool.eq_false_iff.mpr fun hu => ?_
    have := h.word.mpr ⟨u, hu⟩
    rw [hw] at this
    cases this
  have hself : ∀ u, ((f.goto t (.inside a [] todo)).stage u).isInside = true → u = t := by
    intro u hu
    rw [Fine.goto_stage] at hu
    split at hu
    · assumption
    · rw [hnone u] at hu
      cases hu
  refine ⟨?_, fun u v hu hv => ?_, fun hf => (nomatch hf), fun u b done todo' hu => ?_,
    fun u b todo' hu => ?_⟩
  · refine iff_of_true rfl ⟨t, ?_⟩
    show ((f.goto t (.inside a [] todo)).stage t).isInside = true
    rw [Fine.goto_stage, if_pos rfl]
    rfl
  · exact (hself u hu).trans (hself v hv).symm
  · have hu : (f.goto t (.inside a [] todo)).stage u = .inside b done todo' := hu
    have hut : u = t := hself u (by rw [hu]; rfl)
    rw [Fine.goto_stage, if_pos hut] at hu
    cases hu
    exact h.outside hw
  · have hu : ((f.goto t (.inside a [] todo)).stage u).section? = some (b, todo') := hu
    rw [Fine.goto_stage] at hu
    split at hu
    · rename_i hut
      cases hu
      rw [hut]
      exact h.ready t a todo (by rw [ht]; rfl)
    · exact h.ready u b todo' hu

/-- A micro-step. -/
theorem Matches.micro_step {f : Fine σ α τ} {s : σ} (h : Matches actor locked f s) {t : τ} {a : α}
    {m : σ → σ} {done todo : List (σ → σ)} (ht : f.stage t = .inside a done (m :: todo)) :
    Matches actor locked { f.goto t (.inside a (done ++ [m]) todo) with base := m f.base } s := by
  have hstage : ∀ u, ((f.goto t (.inside a (done ++ [m]) todo)).stage u).isInside =
      (f.stage u).isInside := by
    intro u
    rw [Fine.goto_stage]
    split
    · rename_i hu
      rw [hu, ht]
      rfl
    · rfl
  have hin : (f.stage t).isInside = true := by rw [ht]; rfl
  refine ⟨?_, fun u v hu hv => ?_, fun hf => ?_, fun u b done' todo' hu => ?_,
    fun u b todo' hu => ?_⟩
  · exact h.word.trans (exists_congr fun u => by rw [← hstage])
  · exact h.alone u v ((hstage u).symm.trans hu) ((hstage v).symm.trans hv)
  · have := h.word.mpr ⟨t, hin⟩
    exact absurd (this.symm.trans hf) (by simp)
  · have hu : (f.goto t (.inside a (done ++ [m]) todo)).stage u = .inside b done' todo' := hu
    obtain rfl : u = t := h.alone u t ((hstage u).symm.trans (by rw [hu]; rfl)) hin
    rw [Fine.goto_stage, if_pos rfl] at hu
    cases hu
    show m f.base = applyAll (done ++ [m]) s
    rw [applyAll_concat, h.inside u a done (m :: todo) ht]
  · have hu : ((f.goto t (.inside a (done ++ [m]) todo)).stage u).section? = some (b, todo') := hu
    rw [Fine.goto_stage] at hu
    split at hu
    · rename_i hut
      rw [hut]
      refine h.ready t b todo' ?_
      rw [ht, ← hu]
      simp [Stage.section?]
    · exact h.ready u b todo' hu

/-- **A thread releases the lock**, and has done its section. -/
theorem Matches.unlock (M : Movers step actor locked) {f : Fine σ α τ} {s : σ}
    (h : Matches actor locked f s) {t : τ} {a : α} {done : List (σ → σ)}
    (ht : f.stage t = .inside a done []) :
    step s a = some f.base ∧
      Matches actor locked { f.goto t .outside with word := false } f.base := by
  obtain ⟨ha, hl⟩ := h.ready t a (done ++ []) (by rw [ht]; rfl)
  rw [List.append_nil] at hl
  have hstep : step s a = some f.base := by
    rw [h.inside t a done [] ht]
    exact M.whole s a done hl
  have hnone : ∀ u, ((f.goto t .outside).stage u).isInside = false := by
    intro u
    refine Bool.eq_false_iff.mpr fun hu => ?_
    rw [Fine.goto_stage] at hu
    split at hu
    · cases hu
    · rename_i hut
      exact hut (h.alone u t hu (by rw [ht]; rfl))
  refine ⟨hstep, ?_, fun u v hu _ => ?_, fun _ => rfl, fun u b done' todo' hu => ?_,
    fun u b todo' hu => ?_⟩
  · refine iff_of_false (by simp) ?_
    rintro ⟨u, hu⟩
    exact absurd ((hnone u).symm.trans hu) (by simp)
  · exact absurd ((hnone u).symm.trans hu) (by simp)
  · have hu : (f.goto t .outside).stage u = .inside b done' todo' := hu
    have := hnone u
    rw [hu] at this
    cases this
  · have hu : ((f.goto t .outside).stage u).section? = some (b, todo') := hu
    rw [Fine.goto_stage] at hu
    split at hu
    · cases hu
    · rename_i hut
      obtain ⟨rfl, hlu⟩ := h.ready u b todo' hu
      exact ⟨rfl, M.stable s f.base b a todo' (fun e => hut (e.symm.trans ha)) hlu hstep⟩

theorem Matches.next (M : Movers step actor locked) {f f' : Fine σ α τ} {s : σ}
    (h : Matches actor locked f s) {t : τ} (hs : f.next t = some f') :
    ∃ s', follow step s (coarseSteps f (.next t)) = some s' ∧ Matches actor locked f' s' := by
  cases ht : f.stage t with
  | outside => simp [Fine.next, ht] at hs
  | exchange a todo =>
      have hready := h.ready t a todo (by rw [ht]; rfl)
      simp only [Fine.next, ht] at hs
      simp only [coarseSteps, ht]
      split at hs <;> rename_i hw <;> obtain rfl := Option.some.inj hs
      · refine ⟨s, rfl, h.goto (by rw [ht]; rfl) rfl fun b l hb => ?_⟩
        cases hb
        exact hready
      · exact ⟨s, rfl, h.lock ht (Bool.eq_false_iff.mpr hw)⟩
  | spin a todo =>
      have hready := h.ready t a todo (by rw [ht]; rfl)
      simp only [Fine.next, ht] at hs
      simp only [coarseSteps, ht]
      split at hs <;> obtain rfl := Option.some.inj hs
      · exact ⟨s, rfl, h⟩
      · refine ⟨s, rfl, h.goto (by rw [ht]; rfl) rfl fun b l hb => ?_⟩
        cases hb
        exact hready
  | inside a done todo =>
      cases todo with
      | cons m todo =>
          simp only [Fine.next, ht] at hs
          simp only [coarseSteps, ht]
          obtain rfl := Option.some.inj hs
          exact ⟨s, rfl, h.micro_step ht⟩
      | nil =>
          simp only [Fine.next, ht] at hs
          simp only [coarseSteps, ht]
          obtain rfl := Option.some.inj hs
          obtain ⟨hstep, h'⟩ := h.unlock M ht
          exact ⟨f.base, (follow_singleton ..).trans hstep, h'⟩

end

end

end Automaton
