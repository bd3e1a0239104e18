import Mathlib.Data.List.Perm.Subperm
import Mathlib.Data.List.Nodup
import Mathlib.Tactic.Common

set_option autoImplicit false

/-! # Counters that every party decrements once

A counter starts at the number of its parties, and every party takes one from it, at most once.
`Countdown parties counted count` relates its value to the parties that have done so, in their
order. The party that takes it to zero is the last one.
-/

universe u

variable {κ : Type u}

structure Countdown (parties counted : List κ) (count : Int) : Prop where
  distinct : parties.Nodup
  once : counted.Nodup
  sub : counted ⊆ parties
  sum : count + counted.length = parties.length

namespace Countdown

variable {parties counted : List κ} {count : Int} {x : κ}

theorem start (h : parties.Nodup) : Countdown parties [] parties.length :=
  ⟨h, List.nodup_nil, List.nil_subset _, by simp⟩

/-- A party counts down. -/
theorem arrive (h : Countdown parties counted count) (hx : x ∈ parties) (hnew : x ∉ counted) :
    Countdown parties (counted ++ [x]) (count - 1) := by
  refine ⟨h.distinct, ?_, ?_, ?_⟩
  · rw [← List.concat_eq_append]
    exact List.Nodup.concat hnew h.once
  · refine List.append_subset.mpr ⟨h.sub, ?_⟩
    intro y hy
    rw [List.mem_singleton.mp hy]
    exact hx
  · have := h.sum
    rw [List.length_append, List.length_singleton]
    push_cast
    omega

theorem nonneg (h : Countdown parties counted count) : 0 ≤ count := by
  have hlen := (h.once.subperm h.sub).length_le
  have := h.sum
  omega

theorem pos (h : Countdown parties counted count) (hx : x ∈ parties) (hnew : x ∉ counted) :
    0 < count := by
  have := (h.arrive hx hnew).nonneg
  omega

/-- The counter is zero when all parties have counted down. -/
theorem eq_zero_iff (h : Countdown parties counted count) :
    count = 0 ↔ ∀ x ∈ parties, x ∈ counted := by
  constructor
  · intro hzero x hx
    by_contra hnew
    have := h.pos hx hnew
    omega
  · intro hall
    have hlen := (h.distinct.subperm hall).length_le
    have := h.sum
    have := h.nonneg
    omega

end Countdown
