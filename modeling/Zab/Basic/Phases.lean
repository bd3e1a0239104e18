import Mathlib.Data.List.Infix
import Mathlib.Tactic.Common
import Mathlib.Tactic.Ring

set_option autoImplicit false

/-! # A sequence of arrivals, cut into phases

The purpose of a cyclic barrier, without any concurrency: arrivals fill the current phase; the
one that brings it to the expected number closes it, and the next phase expects fewer by the
number of arrivals in the closed one that leave for good. `arriveAll` runs through a whole
sequence of arrivals.

An implementation that takes whole phases at once from a backlog is compared with it through
`arriveAll_window` (a backlog that begins with a full phase) and `arriveAll_short` (one that
does not fill a phase).
-/

universe u

/-- The number that the current phase expects, its arrivals so far, and the phases before it.
The oldest arrivals and phases come first. -/
structure Phases (α : Type u) where
  expected : Int
  current : List α
  closed : List (List α)

namespace Phases

variable {α : Type u} (leaves : α → Bool)

def arrive (p : Phases α) (x : α) : Phases α :=
  let w := p.current ++ [x]
  if (w.length : Int) = p.expected then ⟨p.expected - w.countP leaves, [], p.closed ++ [w]⟩
  else { p with current := w }

def arriveAll (p : Phases α) (l : List α) : Phases α := l.foldl (arrive leaves) p

variable {leaves} {p : Phases α} {x : α} {l l' : List α}

theorem arriveAll_cons : arriveAll leaves p (x :: l) = arriveAll leaves (arrive leaves p x) l := rfl

theorem arriveAll_append :
    arriveAll leaves p (l ++ l') = arriveAll leaves (arriveAll leaves p l) l' :=
  List.foldl_append

/-- Arrivals that do not fill the phase. -/
theorem arriveAll_short (h : ((p.current ++ l).length : Int) < p.expected) :
    arriveAll leaves p l = { p with current := p.current ++ l } := by
  induction l generalizing p with
  | nil => simp [arriveAll]
  | cons x l ih =>
      simp only [List.length_append, List.length_cons] at h
      have hx : arrive leaves p x = { p with current := p.current ++ [x] } := by
        simp only [arrive, List.length_append, List.length_singleton]
        rw [if_neg (by omega)]
      rw [arriveAll_cons, hx, ih]
      · simp
      · simp only [List.append_assoc, List.length_append, List.length_cons, List.length_nil]
        omega

/-- Arrivals that fill exactly one phase. -/
theorem arriveAll_window (hcur : p.current = []) (hpos : l ≠ [])
    (h : (l.length : Int) = p.expected) :
    arriveAll leaves p l = ⟨p.expected - l.countP leaves, [], p.closed ++ [l]⟩ := by
  obtain ⟨l, x, rfl⟩ : ∃ l' x, l = l' ++ [x] := ⟨_, _, (List.dropLast_append_getLast hpos).symm⟩
  have hl : arriveAll leaves p l = { p with current := l } := by
    rw [arriveAll_short]
    · simp [hcur]
    · simp only [List.length_append, List.length_singleton] at h
      simp only [hcur, List.nil_append]
      omega
  rw [arriveAll_append, hl]
  simp only [arriveAll, List.foldl_cons, List.foldl_nil, arrive]
  rw [if_pos h]

/-! ## Closed phases stay, nothing is lost, and every phase has its size -/

theorem closed_prefix_arrive : p.closed <+: (arrive leaves p x).closed := by
  simp only [arrive]
  split
  · exact List.prefix_append _ _
  · exact List.prefix_refl _

theorem closed_prefix : p.closed <+: (arriveAll leaves p l).closed := by
  induction l generalizing p with
  | nil => exact List.prefix_refl _
  | cons x l ih => exact closed_prefix_arrive.trans ih

theorem flatten_arriveAll :
    (arriveAll leaves p l).closed.flatten ++ (arriveAll leaves p l).current =
      p.closed.flatten ++ p.current ++ l := by
  induction l generalizing p with
  | nil => simp [arriveAll]
  | cons x l ih =>
      rw [arriveAll_cons, ih]
      simp only [arrive]
      split <;> simp

/-- Every closed phase has the size `e` less the arrivals that left in the phases before it, and
so will the current one. -/
structure Sized (leaves : α → Bool) (e : Int) (p : Phases α) : Prop where
  closed : ∀ k w, p.closed[k]? = some w →
    (w.length : Int) = e - (p.closed.take k).flatten.countP leaves
  expected : p.expected = e - p.closed.flatten.countP leaves

theorem Sized.arrive {e : Int} (h : Sized leaves e p) : Sized leaves e (arrive leaves p x) := by
  simp only [Phases.arrive]
  split
  · rename_i hw
    refine ⟨fun k w hk => ?_, ?_⟩
    · rcases lt_trichotomy k p.closed.length with hlt | rfl | hgt
      · rw [List.getElem?_append_left hlt] at hk
        rw [List.take_append_of_le_length hlt.le]
        exact h.closed k w hk
      · simp only [List.getElem?_concat_length, Option.some.injEq] at hk
        subst hk
        rw [List.take_append_of_le_length le_rfl, List.take_length, ← h.expected]
        exact hw
      · rw [List.getElem?_eq_none (by simp; omega)] at hk
        cases hk
    · simp only [List.flatten_append, List.countP_append, List.flatten_cons, List.flatten_nil,
        List.append_nil, h.expected]
      push_cast
      ring
  · exact ⟨h.closed, h.expected⟩

theorem Sized.arriveAll {e : Int} (h : Sized leaves e p) :
    Sized leaves e (arriveAll leaves p l) := by
  induction l generalizing p with
  | nil => exact h
  | cons x l ih => exact ih h.arrive

/-- How many are expected can be read off the closed phases, whatever comes later. -/
theorem expected_of_arriveAll {e : Int} (h : Sized leaves e (Phases.arriveAll leaves p l)) :
    p.expected = e - p.closed.flatten.countP leaves := by
  induction l generalizing p with
  | nil => exact h.expected
  | cons x l ih =>
      have := ih h
      simp only [arrive] at this
      split at this
      · simp only [List.flatten_append, List.countP_append, List.flatten_cons, List.flatten_nil,
          List.append_nil] at this
        push_cast at this
        omega
      · exact this

end Phases
