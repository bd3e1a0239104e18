import Zab.Basic.Automaton
import Zab.Basic.Chain
import Zab.Basic.TaggedWord
import Zab.Engine.StrongTypes

set_option autoImplicit false

/-! # `async_barrier`

An arrival counts `count_` down and pushes itself on the list `working_set_`; the arrival that
finds the last free place starts the coroutine `complete_phase`. That looks for the oldest
`expected_` entries of the list (`aquire_window`), cuts them off, counts the drops among them,
calls the completion function, lowers `expected_` and calls `resume_frames`, which adds the
places of the next phase to `count_`, resumes the entries and, if the entries that were left
over fill the next phase already, sends another `complete_phase` to the engine.

Every access to the two atomics and every read or write of `expected_` is one step; the loops
take one step for each list entry. What else an operation does (reading and writing links,
`new` and `delete`) is taken together with the step it stands next to. An arrival starts with
its `fetch_sub`. The counters are integers: a wrap of `std::ptrdiff_t` takes `2 ^ 63` arrivals.

`arrive` does not compile (it applies `->` to an `arrival_token`), so that no entry carries
`kTokenFlag`.

`phase`, `starts`, `pushed` and `log` are read by no branch of the code. They count the phases
whose places have been given back to `count_`, and log the activations of `complete_phase`, the
entries in the order of their pushes, and the calls of the completion function and of
`thread_resume`.
-/

namespace Zab.Barrier

open Automaton

def kDropFlag : Nat := 0b01
def kTokenFlag : Nat := 0b10
def kFlagMask : Nat := 0b11

/-- The flag of an entry of the list, `_ptr & kFlagMask`. -/
def flagOf (ptr : Nat) : Nat := ptr &&& kFlagMask

/-- The address of an entry of the list, `_ptr & kAddressMask`. -/
def addressOf (ptr : Nat) : Nat := ptr - (ptr &&& kFlagMask)

/-- What a `CompletionFunction` can be. -/
inductive CompletionFunction where
  | noOp
  | callable
  | awaitable
  deriving DecidableEq

/-- The arguments of the constructor. -/
structure Config where
  expected : Int
  function : CompletionFunction
  thread : ThreadT
  deriving DecidableEq

/-- `waiter` and `drop_token`; a `drop_token` has the link only. -/
structure Node where
  next : Nat
  handle : Option Coro
  thread : ThreadT
  deriving DecidableEq

/-- Who arrives: a coroutine that suspends itself on a thread, or a drop. -/
inductive Item where
  | wait (handle : Coro) (thread : ThreadT)
  | drop
  deriving DecidableEq

/-- The flag that is stored with the address of an entry. -/
def Item.flag : Item → Nat
  | .wait _ _ => 0
  | .drop => kDropFlag

/-- Where an arrival is. -/
inductive ArrivalPc where
  /-- Not begun, or over. -/
  | idle
  /-- `add_to_working_set`, before its load. `amount` is what the `fetch_sub` returned. -/
  | load (x : Item) (w : Addr) (amount : Int)
  /-- `add_to_working_set`, in its loop. -/
  | push (x : Item) (w : Addr) (amount : Int) (previous : Nat)
  /-- Before the call of `complete_phase`. -/
  | call
  deriving DecidableEq

/-- Where an activation of `complete_phase` is. -/
inductive ActivationPc where
  /-- Not begun, or over. -/
  | idle
  /-- Sent to the engine by `resume_frames`. -/
  | queued
  /-- `aquire_window`, before its load. -/
  | load
  /-- `aquire_window`, in `iterate_linked_list`. -/
  | window (ptr : Nat) (count : Int) (head current : Nat)
  /-- Before the `compare_exchange_strong`. -/
  | trim (start : Nat)
  /-- In the `iterate_linked_list` that cuts the window off. -/
  | trimWalk (start ptr : Nat)
  /-- In the `iterate_linked_list` that counts the drops. -/
  | drops (start ptr n : Nat)
  /-- Suspended in the `yield` to the control thread. -/
  | yielding (start n : Nat)
  /-- In the completion function. -/
  | completing (start n : Nat)
  /-- Before the read of `expected_ -= amount_to_drop`. -/
  | reduceRead (start n : Nat)
  /-- Before the write of `expected_ -= amount_to_drop`. -/
  | reduceWrite (start : Nat) (v : Int)
  /-- `resume_frames`, before it reads `expected_`. -/
  | addRead (start : Nat)
  /-- `resume_frames`, before its `fetch_add`. -/
  | addCount (start : Nat) (e : Int)
  /-- `resume_frames`, in `iterate_linked_list`. `saved` is what the `fetch_add` returned. -/
  | resume (ptr : Nat) (saved : Int)
  /-- `resume_frames`, before the test `count <= -expected_`. -/
  | test (saved : Int)
  deriving DecidableEq

/-- Who starts an activation of `complete_phase`: an arrival, or the test at the end of the
`resume_frames` of another activation. -/
inductive Starter where
  | arrival (i : Nat)
  | test (k : Nat)
  deriving DecidableEq

/-- The start of an activation, with the number of the phase that was current then. -/
structure Start where
  phase : Nat
  starter : Starter
  deriving DecidableEq

inductive Event where
  /-- The completion function is called. -/
  | called
  /-- The completion function has finished. -/
  | finished
  /-- A coroutine is resumed, or a `drop_token` is deleted. -/
  | released (x : Item)
  deriving DecidableEq

structure State where
  expected : Int
  count : Int
  workingSet : Nat
  /-- The list entries, by address. -/
  mem : Nat → Node
  /-- Addresses of the list entries that exist. -/
  live : Nat → Bool
  /-- Coroutines that are suspended on the barrier. -/
  busy : Coro → Bool
  arrival : Nat → ArrivalPc
  /-- How many arrivals have begun. -/
  arrivals : Nat
  activation : Nat → ActivationPc
  /-- How many activations of `complete_phase` have been started. -/
  activations : Nat
  phase : Nat
  starts : List Start
  pushed : List Item
  log : List Event

/-- The barrier after its construction. -/
def init (cfg : Config) : State where
  expected := cfg.expected
  count := cfg.expected
  workingSet := 0
  mem := fun _ => ⟨0, none, ThreadT.anyThread⟩
  live := fun _ => false
  busy := fun _ => false
  arrival := fun _ => .idle
  arrivals := 0
  activation := fun _ => .idle
  activations := 0
  phase := 0
  starts := []
  pushed := []
  log := []

/-- Arrival `i` continues at `q`. -/
def State.gotoArrival (s : State) (i : Nat) (q : ArrivalPc) : State :=
  { s with arrival := Function.update s.arrival i q }

/-- Activation `k` continues at `q`. -/
def State.goto (s : State) (k : Nat) (q : ActivationPc) : State :=
  { s with activation := Function.update s.activation k q }

@[simp] theorem goto_activation (s : State) (k : Nat) (q : ActivationPc) (j : Nat) :
    (s.goto k q).activation j = if j = k then q else s.activation j := by
  simp [State.goto, Function.update_apply]

theorem goto_self (s : State) (k : Nat) (q : ActivationPc) : (s.goto k q).activation k = q := by
  rw [goto_activation, if_pos rfl]

@[simp] theorem gotoArrival_arrival (s : State) (i : Nat) (q : ArrivalPc) (j : Nat) :
    (s.gotoArrival i q).arrival j = if j = i then q else s.arrival j := by
  simp [State.gotoArrival, Function.update_apply]

/-- A call of `complete_phase`, which begins at `q`. -/
def State.completePhase (s : State) (q : ActivationPc) (starter : Starter) : State :=
  { s with
    activation := Function.update s.activation s.activations q
    activations := s.activations + 1
    starts := s.starts ++ [⟨s.phase, starter⟩] }

/-- `get_next`, and the first thing `iterate_linked_list` does with an entry: the three
branches read the same field. -/
def State.getNext (s : State) (ptr : Nat) : Nat := (s.mem (addressOf ptr)).next

def State.setNext (s : State) (ptr v : Nat) : State :=
  { s with mem := Function.update s.mem (addressOf ptr) { s.mem (addressOf ptr) with next := v } }

/-- The entry that `iterate_linked_list` hands on is a `drop_token`. -/
def isDrop (ptr : Nat) : Bool := flagOf ptr ≠ 0 && flagOf ptr ≠ kTokenFlag

/-- What `resume_frames` does with an entry. -/
def State.release (s : State) (ptr : Nat) : State :=
  let n := s.mem (addressOf ptr)
  let live := Function.update s.live (addressOf ptr) false
  if isDrop ptr then { s with live := live, log := s.log ++ [.released .drop] }
  else
    match n.handle with
    | some h =>
        { s with
          live := live
          busy := Function.update s.busy h false
          log := s.log ++ [.released (.wait h n.thread)] }
    | none => s

theorem release_eq (s : State) (ptr : Nat) :
    ∃ live busy log, s.release ptr = { s with live := live, busy := busy, log := log } := by
  unfold State.release
  dsimp only
  split
  · exact ⟨_, _, _, rfl⟩
  · split
    · exact ⟨_, _, _, rfl⟩
    · exact ⟨s.live, s.busy, s.log, rfl⟩

/-- The first step of an arrival: its `fetch_sub`. -/
def State.arrive (s : State) (x : Item) (w : Addr) (n : Node) : State :=
  { s with
    count := s.count - 1
    mem := Function.update s.mem w.val n
    live := Function.update s.live w.val true
    arrival := Function.update s.arrival s.arrivals (.load x w s.count)
    arrivals := s.arrivals + 1 }

/-- The next step of arrival `i`: the two branches of `add_to_working_set` differ in the flag
only. -/
def State.advanceArrival (s : State) (i : Nat) (spurious : Bool) : Option State :=
  match s.arrival i with
  | .idle => none
  | .load x w amount => some (s.gotoArrival i (.push x w amount s.workingSet))
  | .push x w amount previous =>
      let s := s.setNext w.val previous
      if s.workingSet = previous ∧ spurious = false then
        some { s.gotoArrival i (if amount = 1 then .call else .idle) with
          workingSet := w.val ||| x.flag
          pushed := s.pushed ++ [x] }
      else some (s.gotoArrival i (.push x w amount s.workingSet))
  | .call => some ((s.gotoArrival i .idle).completePhase .load (.arrival i))

/-- Activation `k` calls the completion function. -/
def State.callFunction (s : State) (k start n : Nat) : State :=
  { s.goto k (.completing start n) with log := s.log ++ [.called] }

/-- The next step of activation `k`, on thread `currentId`. -/
def State.advanceActivation (cfg : Config) (s : State) (k : Nat) (currentId : ThreadT) :
    Option State :=
  match s.activation k with
  | .idle => none
  | .queued => some (s.goto k .load)
  | .load => some (s.goto k (.window s.workingSet 0 0 s.workingSet))
  | .window ptr count head current =>
      if ptr = 0 then
        if head = 0 then some (s.goto k .load) else some (s.goto k (.trim head))
      else
        let count := count + 1
        let head :=
          if count ≥ s.expected then if head = 0 then current else s.getNext head else head
        some (s.goto k (.window (s.getNext ptr) count head current))
  | .trim start =>
      if s.workingSet = start then
        some { s.goto k (.drops start start 0) with workingSet := 0 }
      else some (s.goto k (.trimWalk start s.workingSet))
  | .trimWalk start ptr =>
      if ptr = 0 then some (s.goto k (.drops start start 0))
      else if s.getNext ptr = start then
        some ((s.setNext ptr 0).goto k (.drops start start 0))
      else some (s.goto k (.trimWalk start (s.getNext ptr)))
  | .drops start ptr n =>
      if ptr = 0 then
        if cfg.function = .noOp then some (s.goto k (.reduceRead start n))
        else if cfg.thread ≠ ThreadT.anyThread ∧ currentId ≠ cfg.thread then
          some (s.goto k (.yielding start n))
        else some (s.callFunction k start n)
      else some (s.goto k (.drops start (s.getNext ptr) (if isDrop ptr then n + 1 else n)))
  | .yielding start n => some (s.callFunction k start n)
  | .completing start n =>
      some { s.goto k (.reduceRead start n) with log := s.log ++ [.finished] }
  | .reduceRead start n => some (s.goto k (.reduceWrite start (s.expected - n)))
  | .reduceWrite start v => some { s.goto k (.addRead start) with expected := v }
  | .addRead start => some (s.goto k (.addCount start s.expected))
  | .addCount start e =>
      some { s.goto k (.resume start s.count) with
        count := s.count + e
        phase := s.phase + 1 }
  | .resume ptr saved =>
      if ptr = 0 then some (s.goto k (.test saved))
      else some ((s.release ptr).goto k (.resume (s.getNext ptr) saved))
  | .test saved =>
      if saved ≤ -s.expected then some ((s.goto k .idle).completePhase .queued (.test k))
      else some (s.goto k .idle)

inductive Action where
  /-- `co_await arrive_and_wait()` by `c` on thread `t`, with the `waiter` at address `w`. -/
  | arriveAndWait (c : Coro) (w : Addr) (t : ThreadT)
  /-- `arrive_and_drop()`, with the `drop_token` at address `w`. -/
  | arriveAndDrop (w : Addr)
  /-- Take the next step of arrival `i`. -/
  | arrival (i : Nat) (spurious : Bool)
  /-- Take the next step of activation `k`, on thread `currentId`. -/
  | activation (k : Nat) (currentId : ThreadT)
  deriving DecidableEq

def step (cfg : Config) (s : State) : Action → Option State
  | .arriveAndWait c w t =>
      if s.busy c = false ∧ s.live w.val = false then
        some { s.arrive (.wait c t) w ⟨0, some c, t⟩ with busy := Function.update s.busy c true }
      else none
  | .arriveAndDrop w =>
      if s.live w.val = false then some (s.arrive .drop w ⟨0, none, ThreadT.anyThread⟩)
      else none
  | .arrival i spurious => s.advanceArrival i spurious
  | .activation k currentId => s.advanceActivation cfg k currentId

/-- The write of `expected_` that an activation is about to do. -/
def ActivationPc.writes : ActivationPc → Option Int
  | .reduceWrite _ v => some v
  | _ => none

/-- `expected_` stays at least one. -/
def keepsOne (s : State) : Action → Prop
  | .activation k _ => ∀ v ∈ (s.activation k).writes, 1 ≤ v
  | _ => True

instance : ∀ (s : State) (a : Action), Decidable (keepsOne s a)
  | s, .activation k _ => inferInstanceAs (Decidable (∀ v ∈ (s.activation k).writes, 1 ≤ v))
  | _, .arriveAndWait _ _ _ | _, .arriveAndDrop _ | _, .arrival _ _ =>
      inferInstanceAs (Decidable True)

/-! ## What a step can do -/

/-- What the next step of arrival `i` can do. -/
inductive Arrives (s : State) (i : Nat) : State → Prop
  | load {x : Item} {w : Addr} {amount : Int} (hi : s.arrival i = .load x w amount) :
      Arrives s i (s.gotoArrival i (.push x w amount s.workingSet))
  | push {x : Item} {w : Addr} {amount : Int} (hi : s.arrival i = .push x w amount s.workingSet) :
      Arrives s i
        { (s.setNext w.val s.workingSet).gotoArrival i (if amount = 1 then .call else .idle) with
          workingSet := w.val ||| x.flag
          pushed := s.pushed ++ [x] }
  | again {x : Item} {w : Addr} {amount : Int} {previous : Nat}
      (hi : s.arrival i = .push x w amount previous) :
      Arrives s i ((s.setNext w.val previous).gotoArrival i (.push x w amount s.workingSet))
  | call (hi : s.arrival i = .call) :
      Arrives s i ((s.gotoArrival i .idle).completePhase .load (.arrival i))

/-- What the next step of activation `k` can do. -/
inductive Activates (cfg : Config) (s : State) (k : Nat) : State → Prop
  | begin (hp : s.activation k = .queued) : Activates cfg s k (s.goto k .load)
  | load (hp : s.activation k = .load) :
      Activates cfg s k (s.goto k (.window s.workingSet 0 0 s.workingSet))
  | again {count : Int} {current : Nat} (hp : s.activation k = .window 0 count 0 current) :
      Activates cfg s k (s.goto k .load)
  | found {count : Int} {head current : Nat} (hhead : head ≠ 0)
      (hp : s.activation k = .window 0 count head current) :
      Activates cfg s k (s.goto k (.trim head))
  | look {ptr head current : Nat} {count : Int} (hptr : ptr ≠ 0)
      (hp : s.activation k = .window ptr count head current) :
      Activates cfg s k (s.goto k (.window (s.getNext ptr) (count + 1)
        (if count + 1 ≥ s.expected then if head = 0 then current else s.getNext head else head)
        current))
  | cutAll (hp : s.activation k = .trim s.workingSet) :
      Activates cfg s k
        { s.goto k (.drops s.workingSet s.workingSet 0) with workingSet := 0 }
  | walk {start : Nat} (hroot : s.workingSet ≠ start) (hp : s.activation k = .trim start) :
      Activates cfg s k (s.goto k (.trimWalk start s.workingSet))
  | walkOut {start : Nat} (hp : s.activation k = .trimWalk start 0) :
      Activates cfg s k (s.goto k (.drops start start 0))
  | cut {ptr : Nat} (hptr : ptr ≠ 0) (hp : s.activation k = .trimWalk (s.getNext ptr) ptr) :
      Activates cfg s k
        ((s.setNext ptr 0).goto k (.drops (s.getNext ptr) (s.getNext ptr) 0))
  | walkOn {start ptr : Nat} (hptr : ptr ≠ 0) (hnext : s.getNext ptr ≠ start)
      (hp : s.activation k = .trimWalk start ptr) :
      Activates cfg s k (s.goto k (.trimWalk start (s.getNext ptr)))
  | noFunction {start n : Nat} (hf : cfg.function = .noOp)
      (hp : s.activation k = .drops start 0 n) :
      Activates cfg s k (s.goto k (.reduceRead start n))
  | yield {start n : Nat} (hf : cfg.function ≠ .noOp) (hp : s.activation k = .drops start 0 n) :
      Activates cfg s k (s.goto k (.yielding start n))
  | callHere {start n : Nat} (hf : cfg.function ≠ .noOp)
      (hp : s.activation k = .drops start 0 n) : Activates cfg s k (s.callFunction k start n)
  | countDrop {start ptr n : Nat} (hptr : ptr ≠ 0) (hp : s.activation k = .drops start ptr n) :
      Activates cfg s k (s.goto k (.drops start (s.getNext ptr) (if isDrop ptr then n + 1 else n)))
  | call {start n : Nat} (hp : s.activation k = .yielding start n) :
      Activates cfg s k (s.callFunction k start n)
  | finish {start n : Nat} (hp : s.activation k = .completing start n) :
      Activates cfg s k { s.goto k (.reduceRead start n) with log := s.log ++ [.finished] }
  | reduceRead {start n : Nat} (hp : s.activation k = .reduceRead start n) :
      Activates cfg s k (s.goto k (.reduceWrite start (s.expected - n)))
  | reduceWrite {start : Nat} {v : Int} (hp : s.activation k = .reduceWrite start v) :
      Activates cfg s k { s.goto k (.addRead start) with expected := v }
  | addRead {start : Nat} (hp : s.activation k = .addRead start) :
      Activates cfg s k (s.goto k (.addCount start s.expected))
  | addCount {start : Nat} {e : Int} (hp : s.activation k = .addCount start e) :
      Activates cfg s k
        { s.goto k (.resume start s.count) with
          count := s.count + e
          phase := s.phase + 1 }
  | resumed {saved : Int} (hp : s.activation k = .resume 0 saved) :
      Activates cfg s k (s.goto k (.test saved))
  | release {ptr : Nat} {saved : Int} (hptr : ptr ≠ 0) (hp : s.activation k = .resume ptr saved) :
      Activates cfg s k ((s.release ptr).goto k (.resume (s.getNext ptr) saved))
  | pass {saved : Int} (hle : saved ≤ -s.expected) (hp : s.activation k = .test saved) :
      Activates cfg s k ((s.goto k .idle).completePhase .queued (.test k))
  | ends {saved : Int} (hgt : ¬ saved ≤ -s.expected) (hp : s.activation k = .test saved) :
      Activates cfg s k (s.goto k .idle)

section

variable {cfg : Config} {s s' : State} {i k : Nat} {w : Addr}

theorem eq_of_arriveAndWait {c : Coro} {t : ThreadT}
    (hs : step cfg s (.arriveAndWait c w t) = some s') :
    s.busy c = false ∧ s.live w.val = false ∧ s' = { s.arrive (.wait c t) w ⟨0, some c, t⟩ with
      busy := Function.update s.busy c true } := by
  simp only [step] at hs
  split at hs
  · rename_i hfree
    exact ⟨hfree.1, hfree.2, (Option.some.inj hs).symm⟩
  · cases hs

theorem eq_of_arriveAndDrop (hs : step cfg s (.arriveAndDrop w) = some s') :
    s.live w.val = false ∧ s' = s.arrive .drop w ⟨0, none, ThreadT.anyThread⟩ := by
  simp only [step] at hs
  split at hs
  · rename_i hfree
    exact ⟨hfree, (Option.some.inj hs).symm⟩
  · cases hs

theorem arrives_of_advance {b : Bool} (hs : s.advanceArrival i b = some s') : Arrives s i s' := by
  cases hi : s.arrival i with
  | idle => simp [State.advanceArrival, hi] at hs
  | load x w amount =>
      simp only [State.advanceArrival, hi] at hs
      obtain rfl := Option.some.inj hs
      exact .load hi
  | push x w amount previous =>
      simp only [State.advanceArrival, hi] at hs
      split at hs <;> obtain rfl := Option.some.inj hs
      · rename_i hcas
        obtain rfl : s.workingSet = previous := hcas.1
        exact .push hi
      · exact .again hi
  | call =>
      simp only [State.advanceArrival, hi] at hs
      obtain rfl := Option.some.inj hs
      exact .call hi

theorem activates_of_advance {t : ThreadT} (hs : s.advanceActivation cfg k t = some s') :
    Activates cfg s k s' := by
  cases hp : s.activation k with
  | idle => simp [State.advanceActivation, hp] at hs
  | window ptr count head current =>
      simp only [State.advanceActivation, hp] at hs
      split at hs
      · rename_i h0
        subst h0
        split at hs <;> obtain rfl := Option.some.inj hs
        · rename_i hhead
          exact .again (hhead ▸ hp)
        · rename_i hhead
          exact .found hhead hp
      · rename_i hptr
        obtain rfl := Option.some.inj hs
        exact .look hptr hp
  | trim start =>
      simp only [State.advanceActivation, hp] at hs
      split at hs <;> obtain rfl := Option.some.inj hs
      · rename_i hroot
        subst hroot
        exact .cutAll hp
      · rename_i hroot
        exact .walk hroot hp
  | trimWalk start ptr =>
      simp only [State.advanceActivation, hp] at hs
      split at hs
      · rename_i h0
        subst h0
        obtain rfl := Option.some.inj hs
        exact .walkOut hp
      · rename_i hptr
        split at hs <;> obtain rfl := Option.some.inj hs
        · rename_i hnext
          subst hnext
          exact .cut hptr hp
        · rename_i hnext
          exact .walkOn hptr hnext hp
  | drops start ptr n =>
      simp only [State.advanceActivation, hp] at hs
      split at hs
      · rename_i h0
        subst h0
        split at hs
        · rename_i hf
          obtain rfl := Option.some.inj hs
          exact .noFunction hf hp
        · rename_i hf
          split at hs <;> obtain rfl := Option.some.inj hs
          · exact .yield hf hp
          · exact .callHere hf hp
      · rename_i hptr
        obtain rfl := Option.some.inj hs
        exact .countDrop hptr hp
  | resume ptr saved =>
      simp only [State.advanceActivation, hp] at hs
      split at hs <;> obtain rfl := Option.some.inj hs
      · rename_i h0
        subst h0
        exact .resumed hp
      · rename_i hptr
        exact .release hptr hp
  | test saved =>
      simp only [State.advanceActivation, hp] at hs
      split at hs <;> obtain rfl := Option.some.inj hs
      · rename_i hle
        exact .pass hle hp
      · rename_i hgt
        exact .ends hgt hp
  | _ =>
      simp only [State.advanceActivation, hp] at hs
      obtain rfl := Option.some.inj hs
      first
        | exact .begin hp
        | exact .load hp
        | exact .call hp
        | exact .finish hp
        | exact .reduceRead hp
        | exact .reduceWrite hp
        | exact .addRead hp
        | exact .addCount hp

end

end Zab.Barrier
