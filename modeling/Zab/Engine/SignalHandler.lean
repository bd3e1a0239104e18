import Zab.Basic.Automaton
import Mathlib.Tactic.Common

set_option autoImplicit false

/-! # `signal_handler`

One `signal_handler` of the process is active: the one that `handler_` points to. Its `handle`
appends the function to the list of the signal, and for the first one it installs the trampoline
with `::signal`. The trampoline writes to the pipe of the active object, and its loop executes the
functions of the list.

`::signal` may fail; otherwise it returns the disposition that it has replaced, which the code
compares with 0, that is `SIG_DFL`. The constructor takes `handler_` and creates the pipe if there
is no active object, and returns early if there is one; then `fds_` holds whatever was in the memory.
The destructor closes both descriptors in any case, and aborts the process when one of the calls
fails.

Addresses of objects and functions are numbers. A pointer is lock-free. A descriptor that is open
can be closed. The fields `created` and `destroyed` record history and are read by no branch.
-/

namespace Zab.SignalHandler

open Automaton

/-- The address of a `signal_handler`. -/
abbrev Addr := Nat

/-- The disposition of a signal. -/
inductive Disposition where
  | sigDfl
  | sigIgn
  /-- The lambda in `handle`. -/
  | trampoline
  | other (handler : Nat)
  deriving DecidableEq

/-- A registered function, and its thread. -/
structure Entry where
  thread : Nat
  function : Nat
  deriving DecidableEq

structure Object where
  /-- `handlers_`; a signal without an entry has no functions. -/
  handlers : Int → List Entry
  fds : Int × Int
  /-- The pipe that its own constructor has created. -/
  created : Option (Int × Int)

/-- What an open descriptor belongs to. -/
inductive Owner where
  | pipe (a : Addr)
  | other
  deriving DecidableEq

/-- A destructor that has run: its calls of `::close`. -/
structure Destruction where
  calls : List Int
  created : Option (Int × Int)
  deriving DecidableEq

structure State where
  /-- `handler_`. -/
  handler : Option Addr
  object : Addr → Option Object
  disposition : Int → Disposition
  /-- The open descriptors. -/
  table : Int → Option Owner
  aborted : Bool
  destroyed : List Destruction

def State.set (s : State) (a : Addr) (x : Object) : State :=
  { s with object := Function.update s.object a (some x) }

/-- `is_active()`. -/
def State.isActive (s : State) (a : Addr) : Bool := s.handler = some a

/-! ## `handle` -/

/-- `::signal`: what it returns is `none` for `SIG_ERR`. -/
def State.signal (s : State) (sig : Int) (d : Disposition) (ok : Bool) :
    State × Option Disposition :=
  if ok then ({ s with disposition := Function.update s.disposition sig d },
    some (s.disposition sig))
  else (s, none)

/-- A call of `handle`; `ok` says whether `::signal` succeeds if it is called. -/
structure Call where
  sig : Int
  entry : Entry
  ok : Bool
  deriving DecidableEq

/-- `handle(_sig, _thread, _function)` of the object `x` at `a`. -/
def State.handle (s : State) (a : Addr) (x : Object) (c : Call) : State × Bool :=
  if s.isActive a then
    let handlers := Function.update x.handlers c.sig (x.handlers c.sig ++ [c.entry])
    let s := s.set a { x with handlers := handlers }
    -- its new
    if (handlers c.sig).length = 1 then
      match s.signal c.sig .trampoline c.ok with
      | (s, prev) => (s, prev = some .sigDfl)
    else (s, true)
  else (s, false)

/-- A call on the object at `a`. -/
def State.handleAt (s : State) (a : Addr) (c : Call) : State × Bool :=
  match s.object a with
  | some x => s.handle a x c
  | none => (s, false)

/-- The calls `cs` one after the other, and what they return. -/
def State.handleAll (s : State) (a : Addr) (cs : List Call) : State × List Bool :=
  cs.foldl (fun t c => ((t.1.handleAt a c).1, t.2 ++ [(t.1.handleAt a c).2])) (s, [])

/-! ## Construction and destruction -/

/-- Before there is any `signal_handler`. -/
def init (disposition : Int → Disposition) : State where
  handler := none
  object := fun _ => none
  disposition := disposition
  table := fun _ => none
  aborted := false
  destroyed := []

/-- `signal_handler(engine*)` at `a`, where `fds_` has the value `garbage` before; `pipe` is what
`::pipe2` creates if it is called. -/
def State.construct (s : State) (a : Addr) (garbage : Int × Int) (pipe : Option (Int × Int)) :
    Option State :=
  if s.object a = none then
    if s.handler = none then
      match pipe with
      | some (r, w) =>
          if 0 ≤ r ∧ 0 ≤ w ∧ r ≠ w ∧ s.table r = none ∧ s.table w = none then
            some { s.set a ⟨fun _ => [], (r, w), some (r, w)⟩ with
              handler := some a
              table := Function.update (Function.update s.table r (some (.pipe a))) w
                (some (.pipe a)) }
          else none
      | none => some { s with handler := some a, aborted := true }
    else some (s.set a ⟨fun _ => [], garbage, none⟩)
  else none

/-- `signal_handler(signal_handler&&)` at `a`: the functions move, the descriptors are copied. -/
def State.moveConstruct (s : State) (a b : Addr) : Option State :=
  if s.object a = none then
    (s.object b).map fun x =>
      (s.set b { x with handlers := fun _ => [] }).set a ⟨x.handlers, x.fds, none⟩
  else none

/-- `::close`, and whether it fails. -/
def State.close (s : State) (fd : Int) : State × Bool :=
  if s.table fd = none then (s, true)
  else ({ s with table := Function.update s.table fd none }, false)

/-- `~signal_handler()` of the object `x` at `a`. -/
def State.destroy (s : State) (a : Addr) (x : Object) : State :=
  let s := { s with
    handler := if s.handler = some a then none else s.handler
    object := Function.update s.object a none }
  match s.close x.fds.1 with
  | (s, true) => { s with aborted := true, destroyed := s.destroyed ++ [⟨[x.fds.1], x.created⟩] }
  | (s, false) =>
      match s.close x.fds.2 with
      | (s, fails) =>
          { s with
            aborted := fails
            destroyed := s.destroyed ++ [⟨[x.fds.1, x.fds.2], x.created⟩] }

inductive Action where
  | construct (a : Addr) (garbage : Int × Int) (pipe : Option (Int × Int))
  | moveConstruct (a b : Addr)
  | handle (a : Addr) (c : Call)
  | destroy (a : Addr)
  /-- The rest of the process opens a descriptor, or closes one of its own. -/
  | otherOpen (fd : Int)
  | otherClose (fd : Int)

/-- A step of the process, as long as it lives. -/
def step (s : State) (act : Action) : Option State :=
  if s.aborted then none
  else
    match act with
    | .construct a garbage pipe => s.construct a garbage pipe
    | .moveConstruct a b => s.moveConstruct a b
    | .handle a c => (s.object a).map fun x => (s.handle a x c).1
    | .destroy a => (s.object a).map fun x => s.destroy a x
    | .otherOpen fd =>
        if 0 ≤ fd ∧ s.table fd = none then
          some { s with table := Function.update s.table fd (some .other) }
        else none
    | .otherClose fd =>
        if s.table fd = some .other then
          some { s with table := Function.update s.table fd none }
        else none

def Reachable : State → Prop := Reaches step anyStep fun s => ∃ disposition, s = init disposition

/-- **Each `signal_handler` closes its own pipe**, if it has one. -/
structure ClosesOwn (s : State) : Prop where
  one : ∀ a b, s.isActive a = true → s.isActive b = true → a = b
  own : ∀ d ∈ s.destroyed, d.calls =
    match d.created with
    | some (r, w) => [r, w]
    | none => []

/-! ## What `handle` does -/

/-- `handlers_` of the object at `a`. -/
def State.handlersOf (s : State) (a : Addr) (sig : Int) : List Entry :=
  match s.object a with
  | some x => x.handlers sig
  | none => []

/-- The functions for `sig` of the calls that have returned `true`. -/
def registered (cs : List Call) (bs : List Bool) (sig : Int) : List Entry :=
  ((cs.zip bs).filter fun p => p.1.sig = sig && p.2).map fun p => p.1.entry

/-- The call `c` does everything or nothing. -/
structure CallRight (s : State) (a : Addr) (c : Call) : Prop where
  installed : (s.handleAt a c).2 = true ↔ (s.handleAt a c).1.disposition c.sig = .trampoline
  nothing : (s.handleAt a c).2 = false →
    (s.handleAt a c).1.handlersOf a = s.handlersOf a ∧
      (s.handleAt a c).1.disposition = s.disposition

/-- **All or nothing**, for each of the calls `cs`. -/
structure AllOrNothing (s : State) (a : Addr) (cs : List Call) : Prop where
  calls : ∀ cs₁ c cs₂, cs = cs₁ ++ c :: cs₂ → CallRight (s.handleAll a cs₁).1 a c
  /-- The list of a signal has the functions of the calls that returned `true`, in their order. -/
  lists : ∀ cs₁ cs₂ sig, cs = cs₁ ++ cs₂ →
    (s.handleAll a cs₁).1.handlersOf a sig = registered cs₁ (s.handleAll a cs₁).2 sig

/-- The first call for a signal finds the default disposition, and its `::signal` succeeds. -/
def FirstCallsInstall (s : State) (cs : List Call) : Prop :=
  ∀ cs₁ c cs₂, cs = cs₁ ++ c :: cs₂ → (∀ d ∈ cs₁, d.sig ≠ c.sig) →
    s.disposition c.sig = .sigDfl ∧ c.ok = true

section

variable {s : State} {a : Addr} {c : Call} {cs : List Call} {sig : Int}

/-- The object at `a` exists and is active. -/
structure Active (s : State) (a : Addr) : Prop where
  active : s.isActive a = true
  exists_object : ∃ x, s.object a = some x

/-- `::signal` leaves the objects alone. -/
theorem handle_object {x : Object} (h : s.isActive a = true) :
    (s.handle a x c).1.handler = s.handler ∧
      (s.handle a x c).1.object = Function.update s.object a (some { x with
        handlers := Function.update x.handlers c.sig (x.handlers c.sig ++ [c.entry]) }) := by
  unfold State.handle
  rw [if_pos h]
  dsimp only
  split
  · unfold State.signal
    split <;> exact ⟨rfl, rfl⟩
  · exact ⟨rfl, rfl⟩

theorem handlersOf_eq {x : Object} (hx : s.object a = some x) : s.handlersOf a = x.handlers := by
  funext sig
  simp only [State.handlersOf, hx]

/-- A call appends the function, whatever becomes of it. -/
theorem Active.handleAt (h : Active s a) (c : Call) :
    Active (s.handleAt a c).1 a ∧
      (s.handleAt a c).1.handlersOf a = Function.update (s.handlersOf a) c.sig
        (s.handlersOf a c.sig ++ [c.entry]) := by
  obtain ⟨x, hx⟩ := h.exists_object
  have hat : s.handleAt a c = s.handle a x c := by simp only [State.handleAt, hx]
  obtain ⟨hhandler, hobject⟩ := handle_object (c := c) (x := x) h.active
  rw [hat, handlersOf_eq hx]
  have hself := (congrFun hobject a).trans (Function.update_self ..)
  refine ⟨⟨?_, _, hself⟩, handlersOf_eq hself⟩
  rw [State.isActive, hhandler]
  exact h.active

/-- The first call for a signal installs the trampoline. -/
theorem Active.handleAt_first (h : Active s a) (hnone : s.handlersOf a c.sig = []) :
    (s.handleAt a c).2 = (c.ok && s.disposition c.sig = .sigDfl) ∧
      (s.handleAt a c).1.disposition = if c.ok then
        Function.update s.disposition c.sig .trampoline else s.disposition := by
  obtain ⟨x, hx⟩ := h.exists_object
  have hempty : x.handlers c.sig = [] := by
    simpa only [State.handlersOf, hx] using hnone
  simp only [State.handleAt, hx, State.handle, h.active, if_true, hempty, List.nil_append,
    Function.update_self, List.length_singleton, State.signal]
  cases c.ok with
  | true => simp [State.set]
  | false => simp [State.set]

/-- The other calls only append. -/
theorem Active.handleAt_later (h : Active s a) (hsome : s.handlersOf a c.sig ≠ []) :
    (s.handleAt a c).2 = true ∧ (s.handleAt a c).1.disposition = s.disposition := by
  obtain ⟨x, hx⟩ := h.exists_object
  have hne : x.handlers c.sig ≠ [] := by
    simpa only [State.handlersOf, hx] using hsome
  have hlen : (x.handlers c.sig ++ [c.entry]).length ≠ 1 := by
    have := List.length_pos_iff.mpr hne
    rw [List.length_append, List.length_singleton]
    omega
  simp only [State.handleAt, hx, State.handle, h.active, if_true, Function.update_self, if_neg hlen]
  exact ⟨trivial, rfl⟩

theorem handleAll_append (s : State) (a : Addr) (cs : List Call) (c : Call) :
    s.handleAll a (cs ++ [c]) = (((s.handleAll a cs).1.handleAt a c).1,
      (s.handleAll a cs).2 ++ [((s.handleAll a cs).1.handleAt a c).2]) := by
  simp only [State.handleAll, List.foldl_append, List.foldl_cons, List.foldl_nil]

theorem Active.handleAll (h : Active s a) (cs : List Call) : Active (s.handleAll a cs).1 a := by
  induction cs using List.reverseRecOn with
  | nil => exact h
  | append_singleton cs c ih =>
      rw [handleAll_append]
      exact (ih.handleAt c).1

/-- The functions of the calls for `sig`. -/
def functions (cs : List Call) (sig : Int) : List Entry :=
  (cs.filter fun c => c.sig = sig).map Call.entry

theorem functions_eq_nil : functions cs sig = [] ↔ ∀ d ∈ cs, d.sig ≠ sig := by
  rw [functions, List.map_eq_nil_iff, List.filter_eq_nil_iff]
  simp

/-- Every call leaves its function in the list. -/
theorem Active.handlersOf_handleAll (h : Active s a) (hempty : ∀ sig, s.handlersOf a sig = [])
    (cs : List Call) (sig : Int) :
    (s.handleAll a cs).1.handlersOf a sig = functions cs sig := by
  induction cs using List.reverseRecOn with
  | nil => exact hempty sig
  | append_singleton cs c ih =>
      rw [handleAll_append, (h.handleAll cs).handleAt c |>.2, functions, List.filter_append,
        List.map_append]
      by_cases hsig : sig = c.sig
      · subst hsig
        simp [ih, functions]
      · rw [Function.update_of_ne hsig, ih]
        simp [functions, Ne.symm hsig]

/-- A signal without calls keeps its disposition. -/
theorem Active.disposition_handleAll (h : Active s a)
    (hnone : ∀ d ∈ cs, d.sig ≠ sig) :
    (s.handleAll a cs).1.disposition sig = s.disposition sig := by
  induction cs using List.reverseRecOn with
  | nil => rfl
  | append_singleton cs c ih =>
      have hact := h.handleAll cs
      have hsig : sig ≠ c.sig := (hnone c (by simp)).symm
      rw [handleAll_append, ← ih fun d hd => hnone d (List.mem_append_left _ hd)]
      by_cases hfirst : (s.handleAll a cs).1.handlersOf a c.sig = []
      · rw [(hact.handleAt_first hfirst).2]
        split
        · exact Function.update_of_ne hsig ..
        · rfl
      · rw [(hact.handleAt_later hfirst).2]

/-- A failed first call leaves its function behind. -/
theorem AllOrNothing.first (h : AllOrNothing s a cs) (hact : Active s a)
    (hempty : ∀ sig, s.handlersOf a sig = []) : FirstCallsInstall s cs := by
  rintro cs₁ c cs₂ rfl hnone
  have hbefore := hact.handleAll cs₁
  have hfirst : (s.handleAll a cs₁).1.handlersOf a c.sig = [] := by
    rw [hact.handlersOf_handleAll hempty, functions_eq_nil]
    exact hnone
  obtain ⟨hresult, -⟩ := hbefore.handleAt_first hfirst
  rw [hact.disposition_handleAll hnone] at hresult
  by_contra hnot
  -- then the call returns `false`, and the list is not what it was
  have hfalse : ((s.handleAll a cs₁).1.handleAt a c).2 = false := by
    rw [hresult, Bool.and_eq_false_iff]
    by_cases hok : c.ok = true
    · right
      exact decide_eq_false fun hdfl => hnot ⟨hdfl, hok⟩
    · left
      exact Bool.eq_false_iff.mpr hok
  obtain ⟨hsame, -⟩ := (h.calls cs₁ c cs₂ rfl).nothing hfalse
  have hlist := congrFun hsame c.sig
  rw [(hbefore.handleAt c).2, Function.update_self, hfirst] at hlist
  cases hlist

/-- A call that is the first one with the trampoline to install, or that finds it installed. -/
theorem Active.handleAt_right (h : Active s a)
    (hfirst : s.handlersOf a c.sig = [] → s.disposition c.sig = .sigDfl ∧ c.ok = true)
    (hlater : s.handlersOf a c.sig ≠ [] → s.disposition c.sig = .trampoline) :
    (s.handleAt a c).2 = true ∧ (s.handleAt a c).1.disposition c.sig = .trampoline ∧
      ∀ sig, sig ≠ c.sig → (s.handleAt a c).1.disposition sig = s.disposition sig := by
  by_cases hnone : s.handlersOf a c.sig = []
  · obtain ⟨hresult, hdisp⟩ := h.handleAt_first hnone
    obtain ⟨hdfl, hok⟩ := hfirst hnone
    rw [hresult, hdisp, if_pos hok, hdfl, hok]
    exact ⟨by decide, Function.update_self .., fun sig hsig => Function.update_of_ne hsig ..⟩
  · obtain ⟨hresult, hdisp⟩ := h.handleAt_later hnone
    rw [hresult, hdisp]
    exact ⟨rfl, hlater hnone, fun _ _ => rfl⟩

theorem FirstCallsInstall.init {cs' : List Call} (h : FirstCallsInstall s (cs ++ cs')) :
    FirstCallsInstall s cs := by
  rintro cs₁ c cs₂ rfl hnone
  exact h cs₁ c (cs₂ ++ cs') (by simp) hnone

/-- The last one of these calls. -/
theorem FirstCallsInstall.handleAt_last (h : FirstCallsInstall s (cs ++ [c])) (hact : Active s a)
    (hempty : ∀ sig, s.handlersOf a sig = [])
    (hinstalled : ∀ sig, functions cs sig ≠ [] →
      (s.handleAll a cs).1.disposition sig = .trampoline) :
    ((s.handleAll a cs).1.handleAt a c).2 = true ∧
      ((s.handleAll a cs).1.handleAt a c).1.disposition c.sig = .trampoline ∧
      ∀ sig, sig ≠ c.sig → ((s.handleAll a cs).1.handleAt a c).1.disposition sig =
        (s.handleAll a cs).1.disposition sig := by
  have hlist := hact.handlersOf_handleAll hempty cs c.sig
  apply (hact.handleAll cs).handleAt_right
  · intro hnone
    have hnew := functions_eq_nil.mp (hlist.symm.trans hnone)
    rw [hact.disposition_handleAll hnew]
    exact h cs c [] rfl hnew
  · intro hsome
    exact hinstalled c.sig (by rw [← hlist]; exact hsome)

/-- When the first calls install the trampoline, all calls return `true` and find it installed. -/
theorem FirstCallsInstall.returns (h : FirstCallsInstall s cs) (hact : Active s a)
    (hempty : ∀ sig, s.handlersOf a sig = []) :
    (s.handleAll a cs).2 = List.replicate cs.length true ∧
      ∀ sig, functions cs sig ≠ [] → (s.handleAll a cs).1.disposition sig = .trampoline := by
  induction cs using List.reverseRecOn with
  | nil => exact ⟨rfl, fun sig hne => absurd rfl hne⟩
  | append_singleton cs c ih =>
      obtain ⟨hreturned, hinstalled⟩ := ih h.init
      obtain ⟨hresult, hown, hother⟩ := h.handleAt_last hact hempty hinstalled
      rw [handleAll_append]
      refine ⟨?_, fun sig hne => ?_⟩
      · rw [hreturned, hresult, List.length_append, List.length_singleton, List.replicate_succ']
      · by_cases hsig : sig = c.sig
        · rw [hsig]
          exact hown
        · rw [hother sig hsig]
          apply hinstalled
          simpa [functions, Ne.symm hsig] using hne

theorem registered_all_true (cs : List Call) (sig : Int) :
    registered cs (List.replicate cs.length true) sig = functions cs sig := by
  induction cs with
  | nil => rfl
  | cons c cs ih =>
      unfold registered functions at ih ⊢
      rw [List.length_cons, List.replicate_succ, List.zip_cons_cons]
      by_cases hsig : c.sig = sig
      · rw [List.filter_cons_of_pos (by simp [hsig]), List.filter_cons_of_pos (by simp [hsig]),
          List.map_cons, List.map_cons, ih]
      · rw [List.filter_cons_of_neg (by simp [hsig]), List.filter_cons_of_neg (by simp [hsig]), ih]

/-- **`handle` is all or nothing** for the sequences of calls in which every first call installs
the trampoline, and for no others. -/
theorem signalHandler_allOrNothing_iff (hact : Active s a)
    (hempty : ∀ sig, s.handlersOf a sig = []) :
    AllOrNothing s a cs ↔ FirstCallsInstall s cs := by
  constructor
  · intro h
    exact h.first hact hempty
  · intro h
    refine ⟨?_, ?_⟩
    · rintro cs₁ c cs₂ rfl
      have hlast : FirstCallsInstall s (cs₁ ++ [c]) := by
        rw [List.append_cons] at h
        exact h.init
      obtain ⟨-, hinstalled⟩ := hlast.init.returns hact hempty
      obtain ⟨hresult, hown, -⟩ := hlast.handleAt_last hact hempty hinstalled
      exact ⟨⟨fun _ => hown, fun _ => hresult⟩, fun hfalse => by
        rw [hresult] at hfalse
        cases hfalse⟩
    · rintro cs₁ cs₂ sig rfl
      rw [hact.handlersOf_handleAll hempty, (h.init.returns hact hempty).1, registered_all_true]

/-- The first `signal_handler` of a process in which the signal 13 is ignored. -/
def first : State where
  handler := some 1
  object := Function.update (fun _ => none) 1 (some ⟨fun _ => [], (3, 4), some (3, 4)⟩)
  disposition := Function.update (fun _ => .sigDfl) 13 .sigIgn
  table := Function.update (Function.update (fun _ => none) 3 (some (.pipe 1))) 4 (some (.pipe 1))
  aborted := false
  destroyed := []

theorem active_first : Active first 1 := ⟨rfl, _, rfl⟩

/-- Two functions for the signal 2 and one for the signal 15. -/
def threeCalls : List Call := [⟨2, ⟨0, 100⟩, true⟩, ⟨15, ⟨1, 101⟩, true⟩, ⟨2, ⟨1, 102⟩, true⟩]

theorem signalHandler_allOrNothing_iff_threeCalls :
    (first.handleAll 1 threeCalls).2 = [true, true, true] ∧ AllOrNothing first 1 threeCalls := by
  refine ⟨rfl, (signalHandler_allOrNothing_iff active_first fun sig => rfl).mpr ?_⟩
  have hall : ∀ c ∈ threeCalls, first.disposition c.sig = .sigDfl ∧ c.ok = true := by decide
  intro cs₁ c cs₂ hcs _
  exact hall c (by rw [hcs]; simp)

/-- The function for an ignored signal stays in the list although `handle` returns `false`. -/
theorem signalHandler_ignored :
    (first.handleAll 1 [⟨13, ⟨0, 100⟩, true⟩]).2 = [false] ∧
      (first.handleAll 1 [⟨13, ⟨0, 100⟩, true⟩]).1.handlersOf 1 13 = [⟨0, 100⟩] ∧
      ¬ AllOrNothing first 1 [⟨13, ⟨0, 100⟩, true⟩] := by
  refine ⟨rfl, rfl, fun h => ?_⟩
  exact absurd (h.first active_first (fun sig => rfl) [] _ [] rfl (by simp)).1 (by decide)

end

end Zab.SignalHandler
