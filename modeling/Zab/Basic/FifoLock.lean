import Zab.Basic.Simulation
import Mathlib.Data.List.Basic

set_option autoImplicit false

/-! # A lock that is handed on in the order of arrival

What a lock with a queue is for. The lock has an owner or is free; a party that comes while it is
free takes it, the others are refused or queue up, and a release hands the lock to the party that
has waited longest, or frees it. An implementation is compared with `FifoLock` by a simulation
whose labels are the calls below; `follow_order` says what that means for the order in which the
lock is handed on.
-/

universe u

/-- The owner of the lock, and who waits for it, the first one first. -/
structure FifoLock (κ : Type u) where
  owner : Option κ
  waiting : List κ

namespace FifoLock

open Automaton

variable {κ : Type u}

inductive Call (κ : Type u) where
  /-- The party finds the lock free. -/
  | take (c : κ)
  /-- The party finds the lock taken and does not wait for it. -/
  | refuse (c : κ)
  | queue (c : κ)
  /-- The owner hands the lock to `next`, or frees it. -/
  | release (c : κ) (next : Option κ)

def step [DecidableEq κ] (l : FifoLock κ) : Call κ → Option (FifoLock κ)
  | .take c => if l.owner = none then some { l with owner := some c } else none
  | .refuse _ => if l.owner = none then none else some l
  | .queue c => if l.owner = none then none else some { l with waiting := l.waiting ++ [c] }
  | .release c next =>
      if l.owner = some c ∧ next = l.waiting.head? then some ⟨next, l.waiting.tail⟩ else none

/-- Who has queued up, in this order. -/
def queued (l : List (Call κ)) : List κ :=
  l.filterMap fun
    | .queue c => some c
    | _ => none

/-- Who was handed the lock by a release, in this order. -/
def handed (l : List (Call κ)) : List κ :=
  l.filterMap fun
    | .release _ next => next
    | _ => none

/-- A call that queues somebody up or hands the lock on does so at the end and at the front. -/
theorem step_order [DecidableEq κ] {l l' : FifoLock κ} {a : Call κ} (h : l.step a = some l') :
    l.waiting ++ queued [a] = handed [a] ++ l'.waiting := by
  cases a with
  | take c =>
      simp only [step] at h
      split at h
      · obtain rfl := Option.some.inj h
        simp [queued, handed]
      · cases h
  | refuse c | queue c =>
      simp only [step] at h
      split at h
      · cases h
      · obtain rfl := Option.some.inj h
        simp [queued, handed]
  | release c next =>
      simp only [step] at h
      split at h
      · rename_i hc
        obtain rfl := Option.some.inj h
        rw [hc.2]
        cases hw : l.waiting with
        | nil => simp [queued, handed]
        | cons d rest => simp [queued, handed]
      · cases h

/-- **The lock is handed on in the order of arrival.** -/
theorem follow_order [DecidableEq κ] {calls : List (Call κ)} :
    ∀ {l l' : FifoLock κ}, follow step l calls = some l' →
      l.waiting ++ queued calls = handed calls ++ l'.waiting := by
  induction calls with
  | nil =>
      intro l l' h
      obtain rfl := Option.some.inj h
      simp [queued, handed]
  | cons a calls ih =>
      intro l l' h
      rw [follow, List.foldlM_cons] at h
      obtain ⟨l₁, h₁, h⟩ := Option.bind_eq_some_iff.mp h
      calc l.waiting ++ queued (a :: calls)
          = l.waiting ++ queued [a] ++ queued calls := by
            rw [List.append_assoc, queued, queued, queued, ← List.filterMap_append,
              List.singleton_append]
        _ = handed [a] ++ (l₁.waiting ++ queued calls) := by
            rw [step_order h₁, List.append_assoc]
        _ = handed [a] ++ (handed calls ++ l'.waiting) := by rw [ih h]
        _ = handed (a :: calls) ++ l'.waiting := by
            rw [← List.append_assoc, handed, handed, handed, ← List.filterMap_append,
              List.singleton_append]

end FifoLock
