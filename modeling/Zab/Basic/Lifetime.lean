import Zab.Basic.Automaton
import Mathlib.Logic.Function.Basic

set_option autoImplicit false

/-! # Objects that are read through pointers and cease to exist

A system creates objects, reads them through pointers, and releases them; from then on somebody
else may destroy them at any time. What its steps do to the objects is given as the list of their
accesses, in the order of the code, and the history of a run is the concatenation of these lists.

An object is named by its address, which may be used again. A pointer that outlives its object is
still caught: the address of a new object is a choice of the step that creates it, so that there
is a run in which the old address is not used again before the pointer is followed.
-/

universe u v w

/-- What a step does to an object. -/
inductive Access (ν : Type w) where
  | create (x : ν)
  | read (x : ν)
  | release (x : ν)
  deriving DecidableEq

namespace Access

variable {ν : Type w} {live live' : ν → Prop} {l l' : List (Access ν)} {x : ν}

/-- The objects that exist after the accesses of a list, if those of `live` exist before. -/
def after (live : ν → Prop) : List (Access ν) → ν → Prop
  | [] => live
  | create x :: l => after (fun y => y = x ∨ live y) l
  | read _ :: l => after live l
  | release x :: l => after (fun y => y ≠ x ∧ live y) l

/-- Every read finds its object. -/
def Safe (live : ν → Prop) : List (Access ν) → Prop
  | [] => True
  | create x :: l => Safe (fun y => y = x ∨ live y) l
  | read x :: l => live x ∧ Safe live l
  | release x :: l => Safe (fun y => y ≠ x ∧ live y) l

/-- More objects do no harm. -/
theorem Safe.mono (h : Safe live l) (himp : ∀ x, live x → live' x) : Safe live' l := by
  induction l generalizing live live' with
  | nil => trivial
  | cons a l ih =>
      cases a with
      | create x => exact ih h fun y hy => hy.imp_right (himp y)
      | read x => exact ⟨himp x h.1, ih h.2 himp⟩
      | release x => exact ih h fun y hy => ⟨hy.1, himp y hy.2⟩

theorem Safe.append (h : Safe live l) (h' : Safe (after live l) l') : Safe live (l ++ l') := by
  induction l generalizing live with
  | nil => exact h'
  | cons a l ih =>
      cases a with
      | create x => exact ih h h'
      | read x => exact ⟨h.1, ih h.2 h'⟩
      | release x => exact ih h h'

/-- An object is created at `x`. -/
theorem after_create [DecidableEq ν] {exist : ν → Bool} {y : ν}
    (h : Function.update exist x true y = true) : after (exist · = true) [create x] y := by
  by_cases hyx : y = x
  · exact Or.inl hyx
  · rw [Function.update_of_ne hyx] at h
    exact Or.inr h

/-- The object at `x` is read and released. -/
theorem after_release [DecidableEq ν] {exist : ν → Bool} {y : ν}
    (h : Function.update exist x false y = true) :
    after (exist · = true) [read x, release x] y := by
  by_cases hyx : y = x
  · rw [hyx, Function.update_self] at h
    cases h
  · rw [Function.update_of_ne hyx] at h
    exact ⟨hyx, h⟩

theorem exist_of_update [DecidableEq ν] {exist : ν → Bool} {y : ν}
    (h : Function.update exist x false y = true) : exist y = true :=
  (after_release h).2

end Access

namespace Automaton

open Access

variable {σ : Type u} {α : Type v} {ν : Type w}

variable {step : σ → α → Option σ} {ok : σ → α → Prop} {init : σ → Prop}
  {accesses : σ → α → List (Access ν)}

end Automaton
