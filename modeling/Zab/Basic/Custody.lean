import Mathlib.Logic.Equiv.Basic
import Mathlib.Data.List.Nodup
import Mathlib.Tactic.Common

set_option autoImplicit false

/-! # Who has to give a resource back

Resources are named by handles that are used again once a resource has been given back, like
file descriptors. `table x` is the resource that the handle `x` names at the moment; resources
are numbered in the order in which they are handed out, so that a number is never used again.
A party `c` keeps at most one handle, `hold c`. Resources that were given back are in
`returned`; those that a party let go of without giving them back are in `lost`.

`Custody` says that every resource that is out is kept by exactly one party or is lost. It is
preserved by what a program does with handles: exchange them between parties
(`Custody.exchange`), take a new one (`Custody.take`), give one back (`Custody.giveBack`) and let
go of one (`Custody.lose`).
-/

universe u v

structure Custody {κ : Type u} {ρ : Type v} (table : ρ → Option Nat) (hold : κ → Option ρ)
    (handed : Nat) (returned lost : List Nat) : Prop where
  inj : ∀ c d x, hold c = some x → hold d = some x → c = d
  live : ∀ c x, hold c = some x → table x ≠ none
  kept : ∀ x i, table x = some i → (∃ c, hold c = some x) ∨ i ∈ lost
  fresh : ∀ x i, table x = some i → i < handed
  names : ∀ x y i, table x = some i → table y = some i → x = y
  out : ∀ x i, table x = some i → i ∉ returned
  past : ∀ i ∈ returned, i < handed
  all : ∀ i, i < handed → i ∈ returned ∨ ∃ x, table x = some i
  once : returned.Nodup

namespace Custody

variable {κ : Type u} {ρ : Type v} {table : ρ → Option Nat} {hold hold' : κ → Option ρ}
  {handed : Nat} {returned lost : List Nat} {c : κ} {x : ρ} {i : Nat}

theorem init (κ : Type u) (ρ : Type v) :
    Custody (fun _ : ρ => none) (fun _ : κ => none) 0 [] [] := by
  constructor <;> simp

/-- Parties exchange their handles. -/
theorem exchange (h : Custody table hold handed returned lost) (e : Equiv.Perm κ)
    (heq : ∀ c, hold' c = hold (e c)) : Custody table hold' handed returned lost := by
  refine { h with inj := ?_, live := ?_, kept := ?_ }
  · intro c d x hc hd
    rw [heq] at hc hd
    exact e.injective (h.inj _ _ x hc hd)
  · intro c x hc
    rw [heq] at hc
    exact h.live _ x hc
  · intro x i hx
    refine (h.kept x i hx).imp_left ?_
    rintro ⟨c, hc⟩
    refine ⟨e.symm c, ?_⟩
    rw [heq, e.apply_symm_apply]
    exact hc

/-- A party without a handle takes a new resource. -/
theorem take [DecidableEq ρ] (h : Custody table hold handed returned lost) (hx : table x = none)
    (hc : hold c = none) (hself : hold' c = some x) (hother : ∀ d, d ≠ c → hold' d = hold d) :
    Custody (Function.update table x (some handed)) hold' (handed + 1) returned lost := by
  have hne : ∀ d y, d ≠ c → hold' d = some y → y ≠ x := by
    rintro d y hd hy rfl
    rw [hother d hd] at hy
    exact h.live d y hy hx
  have htable : ∀ y i, Function.update table x (some handed) y = some i →
      (y = x ∧ i = handed) ∨ (y ≠ x ∧ table y = some i) := by
    intro y i hy
    by_cases hyx : y = x
    · subst hyx
      rw [Function.update_self] at hy
      exact Or.inl ⟨rfl, (Option.some.inj hy).symm⟩
    · rw [Function.update_of_ne hyx] at hy
      exact Or.inr ⟨hyx, hy⟩
  refine ⟨?_, ?_, ?_, ?_, ?_, ?_, ?_, ?_, h.once⟩
  · -- nobody else has the handle, as it named nothing
    intro d e y hd he
    by_cases hdc : d = c
    · by_cases hec : e = c
      · rw [hdc, hec]
      · rw [hdc, hself] at hd
        exact absurd (Option.some.inj hd).symm (hne e y hec he)
    · by_cases hec : e = c
      · rw [hec, hself] at he
        exact absurd (Option.some.inj he).symm (hne d y hdc hd)
      · rw [hother d hdc] at hd
        rw [hother e hec] at he
        exact h.inj d e y hd he
  · intro d y hd
    by_cases hdc : d = c
    · rw [hdc, hself] at hd
      obtain rfl := Option.some.inj hd
      simp
    · rw [Function.update_of_ne (hne d y hdc hd)]
      rw [hother d hdc] at hd
      exact h.live d y hd
  · -- the party keeps the new resource; the others keep what they had
    intro y i hy
    rcases htable y i hy with ⟨rfl, -⟩ | ⟨-, hy⟩
    · exact Or.inl ⟨c, hself⟩
    · refine (h.kept y i hy).imp_left ?_
      rintro ⟨d, hd⟩
      have hdc : d ≠ c := by
        rintro rfl
        rw [hc] at hd
        cases hd
      exact ⟨d, by rw [hother d hdc]; exact hd⟩
  · intro y i hy
    rcases htable y i hy with ⟨-, rfl⟩ | ⟨-, hy⟩
    · exact Nat.lt_succ_self _
    · exact Nat.lt_succ_of_lt (h.fresh y i hy)
  · -- the number `handed` is not in use
    intro y z i hy hz
    rcases htable y i hy with ⟨hyx, hi⟩ | ⟨-, hy⟩
    · rcases htable z i hz with ⟨hzx, -⟩ | ⟨-, hz⟩
      · rw [hyx, hzx]
      · have := h.fresh z i hz
        omega
    · rcases htable z i hz with ⟨-, hi⟩ | ⟨-, hz⟩
      · have := h.fresh y i hy
        omega
      · exact h.names y z i hy hz
  · -- nor has it been given back
    intro y i hy hret
    rcases htable y i hy with ⟨-, rfl⟩ | ⟨-, hy⟩
    · exact absurd (h.past _ hret) (Nat.lt_irrefl _)
    · exact h.out y i hy hret
  · intro i hi
    exact Nat.lt_succ_of_lt (h.past i hi)
  · -- every number below `handed + 1` is old or the new one
    intro i hi
    rcases Nat.lt_or_ge i handed with hlt | hge
    · refine (h.all i hlt).imp_right ?_
      rintro ⟨y, hy⟩
      have hyx : y ≠ x := by
        rintro rfl
        rw [hx] at hy
        cases hy
      exact ⟨y, by rw [Function.update_of_ne hyx]; exact hy⟩
    · refine Or.inr ⟨x, ?_⟩
      rw [Function.update_self, show i = handed by omega]

/-- A party gives its resource back. -/
theorem giveBack [DecidableEq ρ] (h : Custody table hold handed returned lost)
    (hc : hold c = some x) (hx : table x = some i) (hself : hold' c = none)
    (hother : ∀ d, d ≠ c → hold' d = hold d) :
    Custody (Function.update table x none) hold' handed (returned ++ [i]) lost := by
  have hback : ∀ d y, hold' d = some y → d ≠ c ∧ hold d = some y ∧ y ≠ x := by
    intro d y hd
    have hdc : d ≠ c := by
      rintro rfl
      rw [hself] at hd
      cases hd
    rw [hother d hdc] at hd
    refine ⟨hdc, hd, ?_⟩
    rintro rfl
    exact hdc (h.inj d c y hd hc)
  have htable : ∀ y j, Function.update table x none y = some j → y ≠ x ∧ table y = some j := by
    intro y j hy
    by_cases hyx : y = x
    · subst hyx
      simp at hy
    · rw [Function.update_of_ne hyx] at hy
      exact ⟨hyx, hy⟩
  refine ⟨?_, ?_, ?_, ?_, ?_, ?_, ?_, ?_, ?_⟩
  · intro d e y hd he
    exact h.inj d e y (hback d y hd).2.1 (hback e y he).2.1
  · intro d y hd
    obtain ⟨-, hd, hyx⟩ := hback d y hd
    rw [Function.update_of_ne hyx]
    exact h.live d y hd
  · -- the party had this handle only, so the other resources are still kept
    intro y j hy
    obtain ⟨hyx, hy⟩ := htable y j hy
    refine (h.kept y j hy).imp_left ?_
    rintro ⟨d, hd⟩
    have hdc : d ≠ c := by
      rintro rfl
      exact hyx (Option.some.inj (hd.symm.trans hc))
    exact ⟨d, by rw [hother d hdc]; exact hd⟩
  · intro y j hy
    exact h.fresh y j (htable y j hy).2
  · intro y z j hy hz
    exact h.names y z j (htable y j hy).2 (htable z j hz).2
  · -- no other handle names the resource
    intro y j hy hret
    obtain ⟨hyx, hy⟩ := htable y j hy
    rcases List.mem_append.mp hret with hret | hret
    · exact h.out y j hy hret
    · rw [List.mem_singleton.mp hret] at hy
      exact hyx (h.names y x i hy hx)
  · intro j hj
    rcases List.mem_append.mp hj with hj | hj
    · exact h.past j hj
    · rw [List.mem_singleton.mp hj]
      exact h.fresh x i hx
  · intro j hj
    by_cases hji : j = i
    · exact Or.inl (by simp [hji])
    · rcases h.all j hj with hret | ⟨y, hy⟩
      · exact Or.inl (by simp [hret])
      · have hyx : y ≠ x := by
          rintro rfl
          exact hji (Option.some.inj (hy.symm.trans hx))
        exact Or.inr ⟨y, by rw [Function.update_of_ne hyx]; exact hy⟩
  · -- the resource was out, so it had not been given back
    rw [← List.concat_eq_append]
    exact List.Nodup.concat (h.out x i hx) h.once

/-- A party lets go of its resource without giving it back. -/
theorem lose (h : Custody table hold handed returned lost) (hc : hold c = some x)
    (hx : table x = some i) (hself : hold' c = none) (hother : ∀ d, d ≠ c → hold' d = hold d) :
    Custody table hold' handed returned (lost ++ [i]) := by
  have hback : ∀ d y, hold' d = some y → hold d = some y := by
    intro d y hd
    have hdc : d ≠ c := by
      rintro rfl
      rw [hself] at hd
      cases hd
    rwa [hother d hdc] at hd
  refine { h with inj := ?_, live := ?_, kept := ?_ }
  · intro d e y hd he
    exact h.inj d e y (hback d y hd) (hback e y he)
  · intro d y hd
    exact h.live d y (hback d y hd)
  · intro y j hy
    rcases h.kept y j hy with ⟨d, hd⟩ | hlost
    · by_cases hdc : d = c
      · subst hdc
        obtain rfl := Option.some.inj (hd.symm.trans hc)
        rw [hx] at hy
        exact Or.inr (by simp [Option.some.inj hy])
      · exact Or.inl ⟨d, by rw [hother d hdc]; exact hd⟩
    · exact Or.inr (by simp [hlost])

/-- When nobody keeps a handle any more, everything has been given back or is lost. -/
theorem settled (h : Custody table hold handed returned lost) (hnone : ∀ c, hold c = none)
    (hi : i < handed) : i ∈ returned ∨ i ∈ lost := by
  rcases h.all i hi with hret | ⟨x, hx⟩
  · exact Or.inl hret
  · rcases h.kept x i hx with ⟨c, hc⟩ | hlost
    · rw [hnone c] at hc
      cases hc
    · exact Or.inr hlost

end Custody
