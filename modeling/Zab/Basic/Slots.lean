import Zab.Basic.TaggedWord
import Mathlib.Tactic.Common

set_option autoImplicit false

/-! # Objects that live in their owners' frames

Every party `c` holds at most one object, at the address `slot c`; `live` marks the addresses
that hold an object at the moment. An address can be taken again once it has been given back,
but never while somebody holds it.
-/

universe u

/-- Held addresses are live, and no two parties hold the same one. -/
structure Slots {κ : Type u} (slot : κ → Option Addr) (live : Nat → Bool) : Prop where
  live : ∀ c p, slot c = some p → live p.val = true
  inj : ∀ c d p, slot c = some p → slot d = some p → c = d

namespace Slots

variable {κ : Type u} {slot slot' : κ → Option Addr} {live : Nat → Bool} {c : κ} {p : Addr}

theorem congr (h : Slots slot live) (heq : ∀ d, slot' d = slot d) : Slots slot' live := by
  have : slot' = slot := funext heq
  rw [this]
  exact h

theorem free (h : Slots slot live) (hp : live p.val = false) (d : κ) : slot d ≠ some p := by
  intro hd
  rw [h.live d p hd] at hp
  cases hp

/-- A party without an object takes a free address. -/
theorem take (h : Slots slot live) (hp : live p.val = false) (hc : slot' c = some p)
    (hd : ∀ d, d ≠ c → slot' d = slot d) : Slots slot' (Function.update live p.val true) where
  live := by
    intro d q hq
    by_cases hqp : q = p
    · subst hqp
      simp
    · have hne : q.val ≠ p.val := by simpa using hqp
      have hdc : d ≠ c := by
        rintro rfl
        exact hqp (Option.some.inj (hq.symm.trans hc))
      rw [Function.update_of_ne hne]
      exact h.live d q (by rw [← hd d hdc]; exact hq)
  inj := by
    have other : ∀ d q, d ≠ c → slot' d = some q → q ≠ p := by
      rintro d q hdc hq rfl
      rw [hd d hdc] at hq
      exact h.free hp d hq
    intro d e q hq he
    by_cases hdc : d = c
    · subst hdc
      obtain rfl := Option.some.inj (hq.symm.trans hc)
      by_contra hne
      exact other e q (Ne.symm hne) he rfl
    · by_cases hec : e = c
      · subst hec
        obtain rfl := Option.some.inj (he.symm.trans hc)
        exact absurd rfl (other d q hdc hq)
      · exact h.inj d e q (by rw [← hd d hdc]; exact hq) (by rw [← hd e hec]; exact he)

/-- A party gives its object back. -/
theorem drop (h : Slots slot live) (hp : slot c = some p) (hc : slot' c = none)
    (hd : ∀ d, d ≠ c → slot' d = slot d) : Slots slot' (Function.update live p.val false) := by
  have hne : ∀ d q, slot' d = some q → d ≠ c ∧ slot d = some q := by
    intro d q hq
    have hdc : d ≠ c := by
      rintro rfl
      rw [hc] at hq
      cases hq
    exact ⟨hdc, by rw [← hd d hdc]; exact hq⟩
  refine ⟨fun d q hq => ?_, fun d e q hq he => ?_⟩
  · obtain ⟨hdc, hq⟩ := hne d q hq
    have hqp : q.val ≠ p.val := by
      intro e
      obtain rfl := Addr.val_inj.mp e
      exact hdc (h.inj d c q hq hp)
    rw [Function.update_of_ne hqp]
    exact h.live d q hq
  · exact h.inj d e q (hne d q hq).2 (hne e q he).2

end Slots
