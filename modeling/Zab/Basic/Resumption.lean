import Mathlib.Tactic.Common

set_option autoImplicit false

/-! # Programs that ask for values

A program returns a value, or asks for one and goes on with the answer. `bind` runs a program and
goes on with what it returns. `wrong` is the program of which nothing is said.
-/

universe u v w

inductive Resumption (V : Type u) (W : Type v) where
  | ret (w : W)
  | ask (k : V → Resumption V W)
  | wrong

namespace Resumption

variable {V : Type u} {W X : Type v}

def bind : Resumption V W → (W → Resumption V X) → Resumption V X
  | ret w, f => f w
  | ask k, f => ask fun v => (k v).bind f
  | wrong, _ => wrong

@[simp] theorem ret_bind (w : W) (f : W → Resumption V X) : (ret w).bind f = f w := rfl

@[simp] theorem ask_bind (k : V → Resumption V W) (f : W → Resumption V X) :
    (ask k).bind f = ask fun v => (k v).bind f := rfl

end Resumption
