import Mathlib.Tactic.Common

set_option autoImplicit false

/-! # Thread ids and coroutine handles

`thread_t` of `strong_types.hpp`, and the handles that the engine resumes.
-/

namespace Zab

/-- `thread_t`: the logical id of an engine worker. -/
structure ThreadT where
  thread : UInt16
  deriving DecidableEq

/-- `thread_t::kAnyThread`: the largest 16-bit value minus one. -/
def ThreadT.kAnyThread : UInt16 := 65534

/-- `thread_t::any_thread()`, which is also the default value of a `thread_t`. -/
def ThreadT.anyThread : ThreadT := ⟨kAnyThread⟩

instance : Inhabited ThreadT := ⟨ThreadT.anyThread⟩

/-- A coroutine, named by its handle. -/
abbrev Coro := Nat

end Zab
