import Mathlib.Tactic.Common
import Mathlib.Logic.Function.Basic

set_option autoImplicit false

/-! # Machine words that hold an address or a flag

Lock-free state is often one atomic word that is read either as a pointer or as one of a few
small flag values. The two readings do not collide because objects are aligned: the low
three bits of an address are zero, so that an address is never `0` and never a flag. `Addr`
carries these two facts, and `Addr.val` is the word an address is stored as. Words are
natural numbers.
-/

universe u v

/-- The address of an object: not null and aligned to eight bytes. -/
structure Addr where
  val : Nat
  pos : 0 < val
  aligned : val % 8 = 0
  deriving DecidableEq

namespace Addr

/-- The addresses in their order: 8, 16, 24, … -/
def nth (i : Nat) : Addr := ⟨8 * (i + 1), by omega, by omega⟩

theorem val_injective : Function.Injective Addr.val := by
  intro a b h
  cases a; cases b
  simpa using h

@[simp] theorem val_inj {a b : Addr} : a.val = b.val ↔ a = b := val_injective.eq_iff

@[simp] theorem val_ne_zero (a : Addr) : a.val ≠ 0 := Nat.ne_of_gt a.pos

/-- An address is different from every flag value. -/
theorem val_ne_flag (a : Addr) {f : Nat} (hf : f < 8) : a.val ≠ f := by
  have h1 := a.pos
  have h2 := a.aligned
  omega

@[simp] theorem val_ne_one (a : Addr) : a.val ≠ 1 := a.val_ne_flag (by decide)

/-- The object at `w` is replaced by `x`: what this does to a field of the objects. -/
theorem update_field {α : Type u} {β : Type v} (mem : Nat → α) (field : α → β) (w : Addr) (x : α) :
    (fun a : Addr => field (Function.update mem w.val x a.val)) =
      Function.update (fun a : Addr => field (mem a.val)) w (field x) := by
  have hmem := Function.update_comp_eq_of_injective mem val_injective w x
  calc
    (fun a : Addr => field (Function.update mem w.val x a.val))
        = field ∘ (Function.update mem w.val x ∘ val) := rfl
    _ = field ∘ Function.update (mem ∘ val) w x := by rw [hmem]
    _ = Function.update (field ∘ (mem ∘ val)) w (field x) := Function.comp_update ..

end Addr
