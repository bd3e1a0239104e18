import Zab.Basic.Automaton
import Mathlib.Tactic

set_option autoImplicit false

/-! # The frames of `simple_future` coroutines

A coroutine that returns a `simple_future` does not run when it is called: the call makes its
frame and gives back a future that holds the handle. `co_await` of the future stores the handle of
the awaiter in the promise and transfers control to the frame, `final_suspension` transfers it
back. The frame is destroyed by the destructor of the future, if the coroutine is complete by
then; a promise that is destroyed while it still has an awaiter destroys the awaiter in turn, so
that an engine that destroys the handle somebody is suspended with unwinds the frames of all who
wait for it.

What a coroutine does is a `Body`. Its locals are the futures it holds; they are numbered in the
order of their declaration, and the locals of an inner scope are the last ones. Values are
of one type, and the arguments of a call are part of the body that is called.

Every coroutine that is not suspended may take the next step, on whichever thread it runs; frames
are numbered in the order in which they are made, and a number is not used again. What C++ leaves
undefined (the use of a frame that has been destroyed, the resumption of a coroutine that is not
suspended where its promise expects it, the destruction of a running coroutine) sets `fault`.
`destroyed`, `results` and `root` are read by no branch of the code.
-/

namespace Zab.SimpleFuture

open Automaton

/-- What a coroutine still does. -/
inductive Body (V : Type) where
  /-- `co_return v` -/
  | coReturn (v : V)
  /-- `auto future = f()`: the future becomes the last local. -/
  | call (f k : Body V)
  /-- `co_await` of the local `i`. -/
  | coAwait (i : Nat) (k : V → Body V)
  /-- The local `i` is move assigned from the local `j`. -/
  | moveAssign (i j : Nat) (k : Body V)
  /-- The scope of the last local ends. -/
  | scopeEnd (k : Body V)
  /-- Suspended until somebody outside resumes the handle with a value. -/
  | suspend (k : V → Body V)

/-- The tagged event of a promise, which may be a null handle. -/
inductive TaggedEvent where
  | null
  | coroutine (handle : Nat)
  | event (e : Nat)
  deriving DecidableEq

/-- The promise type: of a `simple_future`, or of an `async_function`. -/
inductive Promise where
  | simple
  | execution
  deriving DecidableEq

/-- Where a coroutine is. -/
inductive Point (V : Type) where
  /-- Suspended in `initial_suspend`. -/
  | initial (body : Body V)
  | running (body : Body V)
  /-- Suspended in the `simple_awaitable` of a handle. -/
  | awaiting (handle : Nat) (k : V → Body V)
  /-- Suspended in an awaitable that has given the handle away. -/
  | outside (k : V → Body V)
  /-- Suspended in `final_suspend`. -/
  | final

structure Frame (V : Type) where
  promise : Promise
  point : Point V
  /-- The `handle_` of each local. -/
  locals : List (Option Nat)
  underlying : TaggedEvent
  complete : Bool
  data : Option V
  /-- The coroutine at the end of the chain of awaiters. -/
  root : Nat

structure State (V : Type) where
  /-- The frames that have not been destroyed. -/
  frames : Nat → Option (Frame V)
  /-- The number of the next frame. -/
  next : Nat
  /-- The handles of the futures that are not locals of a coroutine. -/
  outer : List Nat
  /-- The events that `final_suspension` has executed. -/
  executed : List Nat
  destroyed : List Nat
  /-- What the roots have returned. -/
  results : List (Nat × V)
  fault : Bool

def init (V : Type) : State V where
  frames := fun _ => none
  next := 0
  outer := []
  executed := []
  destroyed := []
  results := []
  fault := false

inductive Action (V : Type) where
  /-- The next step of a coroutine. -/
  | run (handle : Nat)
  /-- A call of an `async_function`. -/
  | start (body : Body V)
  /-- A future is made and awaited with `inline_co_await`. -/
  | inlineCoAwait (body : Body V) (e : Nat)
  /-- Somebody resumes a handle that was given away. -/
  | resume (handle : Nat) (v : V)
  /-- Somebody destroys a handle that was given away. -/
  | destroy (handle : Nat)
  /-- A future that was awaited with `inline_co_await` and is complete is destroyed. -/
  | outerDrop (handle : Nat)

section

variable {V : Type}

def State.set (s : State V) (h : Nat) (fr : Frame V) : State V :=
  { s with frames := Function.update s.frames h (some fr) }

/-- The frame ceases to exist. -/
def State.free (s : State V) (h : Nat) : State V :=
  { s with frames := Function.update s.frames h none, destroyed := s.destroyed ++ [h] }

/-- A new frame. -/
def State.create (s : State V) (promise : Promise) (point : Point V) (underlying : TaggedEvent) :
    State V :=
  { s.set s.next ⟨promise, point, [], underlying, false, none, s.next⟩ with next := s.next + 1 }

def Point.suspended : Point V → Bool
  | .running _ => false
  | _ => true

/-- `~simple_future`, given the `destroy()` of a handle. -/
def dropFuture (destroy : State V → Nat → Option (State V)) (s : State V) :
    Option Nat → Option (State V)
  | none => some s
  | some h =>
      match s.frames h with
      | some fr => if fr.complete then destroy s h else some s
      | none => none

/-- The destructors of the locals, the last one first. -/
def dropLocals (destroy : State V → Nat → Option (State V)) :
    State V → List (Option Nat) → Option (State V)
  | s, [] => some s
  | s, l :: ls => (dropLocals destroy s ls).bind fun s => dropFuture destroy s l

/-- `destroy()` of the handle of a suspended coroutine: the destructors of the locals, then
`~simple_common`, which destroys the awaiter. -/
def destroy : Nat → State V → Nat → Option (State V)
  | 0, _, _ => none
  | fuel + 1, s, h =>
      match s.frames h with
      | none => none
      | some fr =>
          if fr.point.suspended = false then none
          else
            (dropLocals (destroy fuel) s fr.locals).bind fun s =>
              (match fr.underlying with
                | .coroutine u => destroy fuel s u
                | .null | .event _ => some s).bind fun s =>
                  some (s.free h)

/-- `destroy()` nests no deeper than there are frames. -/
def State.destroy (s : State V) (h : Nat) : Option (State V) :=
  SimpleFuture.destroy (s.next + 1) s h

/-- `simple_awaitable::await_resume`: the awaiter goes on with the data of the handle. -/
def State.awaitResume (s : State V) (u : Nat) : Option (State V) :=
  match s.frames u with
  | some fu =>
      match fu.point with
      | .awaiting c k =>
          match (s.frames c).bind Frame.data with
          | some v => some (s.set u { fu with point := .running (k v) })
          | none => none
      | _ => none
  | none => none

/-- `final_suspension::await_suspend`. -/
def State.finalSuspension (s : State V) (h : Nat) (fr : Frame V) (v : V) : Option (State V) :=
  let s' := s.set h
    { fr with
      point := .final, locals := [], underlying := .null, complete := true, data := some v }
  match fr.underlying with
  | .null => none
  | .coroutine u => s'.awaitResume u
  | .event e =>
      some { s' with executed := s'.executed ++ [e], results := s'.results ++ [(fr.root, v)] }

/-- `co_return`: the destructors of the locals, then the final suspension. The frame of an
`async_function` does not suspend there and destroys itself. -/
def State.coReturn (s : State V) (h : Nat) (fr : Frame V) (v : V) : Option (State V) :=
  (dropLocals State.destroy s fr.locals).bind fun s =>
    match fr.promise with
    | .simple => s.finalSuspension h fr v
    | .execution => some ({ s with results := s.results ++ [(fr.root, v)] }.free h)

/-- `simple_awaitable::await_suspend`: the awaiter is stored and control goes to the handle. -/
def State.coAwait (s : State V) (h : Nat) (fr : Frame V) (i : Nat) (k : V → Body V) :
    Option (State V) :=
  match fr.locals[i]? with
  | some (some c) =>
      match s.frames c with
      | some fc =>
          match fc.point with
          | .initial body =>
              some ((s.set c
                { fc with
                  point := .running body, underlying := .coroutine h, root := fr.root }).set h
                { fr with point := .awaiting c k })
          | _ => none
      | none => none
  | _ => none

/-- `simple_future::operator=`: what the future holds is destroyed, complete or not. -/
def State.moveAssign (s : State V) (h : Nat) (fr : Frame V) (i j : Nat) (k : Body V) :
    Option (State V) :=
  match fr.locals[i]?, fr.locals[j]? with
  | some future, some other =>
      (match future with
        | some c => s.destroy c
        | none => some s).map fun s : State V =>
          s.set h { fr with point := .running k, locals := (fr.locals.set i other).set j none }
  | _, _ => none

/-- The scope of the last local ends. -/
def State.scopeEnd (s : State V) (h : Nat) (fr : Frame V) (k : Body V) : Option (State V) :=
  match fr.locals.getLast? with
  | some future =>
      (dropFuture State.destroy s future).map fun s : State V =>
        s.set h { fr with point := .running k, locals := fr.locals.dropLast }
  | none => none

/-- The next step of a coroutine. -/
def State.run (s : State V) (h : Nat) (fr : Frame V) : Body V → Option (State V)
  | .coReturn v => s.coReturn h fr v
  | .call f k =>
      some ((s.create .simple (.initial f) .null).set h
        { fr with point := .running k, locals := fr.locals ++ [some s.next] })
  | .coAwait i k => s.coAwait h fr i k
  | .moveAssign i j k => s.moveAssign h fr i j k
  | .scopeEnd k => s.scopeEnd h fr k
  | .suspend k => some (s.set h { fr with point := .outside k })

/-- What is undefined is a fault. -/
def State.orFault (s : State V) (r : Option (State V)) : State V :=
  r.getD { s with fault := true }

def step (s : State V) : Action V → Option (State V)
  | .run h =>
      match s.frames h with
      | some fr =>
          match fr.point with
          | .running body => some (s.orFault (s.run h fr body))
          | _ => none
      | none => none
  | .start body => some (s.create .execution (.running body) .null)
  | .inlineCoAwait body e =>
      some { s.create .simple (.running body) (.event e) with outer := s.outer ++ [s.next] }
  | .resume h v =>
      match s.frames h with
      | some fr =>
          match fr.point with
          | .outside k => some (s.set h { fr with point := .running (k v) })
          | _ => none
      | none => none
  | .destroy h =>
      match s.frames h with
      | some fr =>
          match fr.point with
          | .outside _ => some (s.orFault (s.destroy h))
          | _ => none
      | none => none
  | .outerDrop h =>
      if h ∈ s.outer ∧ (s.frames h).any Frame.complete = true then
        some { s.orFault (dropFuture State.destroy s (some h)) with outer := s.outer.erase h }
      else none

/-! ## Which bodies use their futures as intended

`simple_future` asserts that a future that is awaited holds a handle, and a handle can be awaited
once: afterwards its coroutine is complete. -/

/-- What a local holds. -/
inductive Slot where
  /-- Nothing: it has been moved from. -/
  | empty
  /-- A coroutine that has not been started. -/
  | fresh
  /-- A coroutine that has been awaited. -/
  | done
  deriving DecidableEq

/-- Every `co_await` is of a future that holds a coroutine that has not been started. -/
def Body.Ok : Body V → List Slot → Prop
  | .coReturn _, _ => True
  | .call f k, Γ => f.Ok [] ∧ k.Ok (Γ ++ [.fresh])
  | .coAwait i k, Γ => Γ[i]? = some .fresh ∧ ∀ v, (k v).Ok (Γ.set i .done)
  | .moveAssign i j k, Γ => i < Γ.length ∧ ∃ x, Γ[j]? = some x ∧ k.Ok ((Γ.set i x).set j .empty)
  | .scopeEnd k, Γ => Γ ≠ [] ∧ k.Ok Γ.dropLast
  | .suspend k, Γ => ∀ v, (k v).Ok Γ

/-- The bodies that are started use their futures as intended, and nobody destroys a handle while
a future outside waits for the chain that it belongs to. -/
def intended (s : State V) : Action V → Prop
  | .start body | .inlineCoAwait body _ => body.Ok []
  | .destroy h => ∀ fr, s.frames h = some fr → fr.root ∉ s.outer
  | .run _ | .resume _ _ | .outerDrop _ => True

def Reachable : State V → Prop := Reaches step intended (· = init V)

end

end Zab.SimpleFuture
