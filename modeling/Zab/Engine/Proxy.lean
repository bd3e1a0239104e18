import Zab.Engine.StrongTypes
import Mathlib.Data.List.Basic
import Mathlib.Tactic.Common

set_option autoImplicit false

/-! # `engine_enabled::proxy`

A proxy runs a member function on a required thread and returns to the thread it was awaited
from. The one for a `simple_future` looks up its own thread each time it is called. The one for a
`reusable_future` looks it up once, when its body is first run, and keeps it in `return_thread`.

Coroutines pass control to each other directly, so that at any time there is one thread on which
the consumer, the proxy or the wrapped function runs. A segment of the wrapped function is what
one `co_await` of its future runs: it goes on, with some awaits of its own that are resumed on
the required thread, to the next value.
-/

namespace Zab.Proxy

/-- The id of a worker: not `thread_t{}`. -/
abbrev Worker := { t : ThreadT // t ≠ ThreadT.anyThread }

/-! ## `reusable_future` -/

/-- How a segment ends: with `co_yield` or with `co_return`. -/
inductive Produced (V : Type) where
  | yield (value : Option V)
  | ret (value : Option V)

def Produced.value {V : Type} : Produced V → Option V
  | .yield v | .ret v => v

/-- The member `state_` of `reusable_promise`. -/
inductive PromiseState where
  | kEmpty
  | kItem
  | kComplete
  deriving DecidableEq

/-- `reusable_promise`. -/
structure Promise (V : Type) where
  state : PromiseState
  data : Option V

variable {V φ : Type}

def Promise.init : Promise V := ⟨.kEmpty, none⟩

def Promise.complete (p : Promise V) : Bool := p.state = .kComplete

def Promise.valueReady (p : Promise V) : Bool := p.state ≠ .kEmpty

def Promise.prepare (p : Promise V) : Promise V :=
  ⟨if p.state = .kItem then .kEmpty else p.state, none⟩

/-- `yield_value` and `return_value`. -/
def Promise.store : Produced V → Promise V
  | .yield v => ⟨.kItem, v⟩
  | .ret v => ⟨.kComplete, v⟩

/-- What a coroutine does from the point where it is resumed to the next value: the threads on
which the wrapped function runs, the value, and the thread it is produced on. -/
structure Ran (φ V : Type) where
  frame : φ
  pieces : List ThreadT
  produced : Produced V
  thread : ThreadT

/-- What a `co_await` does: the threads on which the wrapped function runs, the thread on which
the awaiter is resumed, and the value it gets. -/
structure Outcome (V : Type) where
  pieces : List ThreadT
  resumed : ThreadT
  value : Option V
  deriving DecidableEq

/-- `reusable_future`: the promise of a suspended coroutine, and the rest of its frame. -/
structure Reusable (φ V : Type) where
  promise : Promise V
  frame : φ

/-- `co_await` of a `reusable_future` on thread `t`. -/
def Reusable.coAwait (resume : φ → ThreadT → Ran φ V) (f : Reusable φ V) (t : ThreadT) :
    Reusable φ V × Outcome V :=
  let promise := f.promise.prepare
  if promise.valueReady then (⟨promise, f.frame⟩, ⟨[], t, promise.data⟩)
  else
    let ran := resume f.frame t
    (⟨Promise.store ran.produced, ran.frame⟩, ⟨ran.pieces, ran.thread, ran.produced.value⟩)

/-! ## The wrapped function -/

/-- A segment: how often it awaits something itself, and what it ends with. -/
structure Segment (V : Type) where
  awaits : Nat
  produced : Produced V

/-- The wrapped function runs segment number `position`, from thread `t` on. -/
def memberResume (body : Nat → Segment V) (requiredThread : ThreadT) (position : Nat)
    (t : ThreadT) : Ran Nat V where
  frame := position + 1
  pieces := t :: List.replicate (body position).awaits requiredThread
  produced := (body position).produced
  thread := if (body position).awaits = 0 then t else requiredThread

/-! ## The proxies -/

/-- The locals `return_thread` and `generator` of the proxy; there are none before it is run. -/
abbrev ProxyFrame (V : Type) := Option (ThreadT × Reusable Nat V)

/-- `proxy` of a `reusable_future`, from where it is resumed on thread `t` to its next value. -/
def proxyResume (body : Nat → Segment V) (requiredThread : ThreadT) (frame : ProxyFrame V)
    (t : ThreadT) : Ran (ProxyFrame V) V :=
  let locals := frame.getD (t, ⟨Promise.init, 0⟩)
  let returnThread := locals.1
  let hops := requiredThread ≠ ThreadT.anyThread ∧ requiredThread ≠ returnThread
  let awaited := locals.2.coAwait (memberResume body requiredThread)
    (if hops then requiredThread else t)
  let result := awaited.2.value
  { frame := some (returnThread, awaited.1)
    pieces := awaited.2.pieces
    produced := if awaited.1.promise.complete then .ret result else .yield result
    thread :=
      if returnThread ≠ ThreadT.anyThread ∧ requiredThread ≠ returnThread then returnThread
      else awaited.2.resumed }

/-- A consumer awaits the proxy from one thread after the other. -/
def awaits (body : Nat → Segment V) (requiredThread : ThreadT) :
    Reusable (ProxyFrame V) V → List Worker → List (Outcome V)
  | _, [] => []
  | f, t :: ts =>
      let awaited := f.coAwait (proxyResume body requiredThread) t.val
      awaited.2 :: awaits body requiredThread awaited.1 ts

/-- What becomes of every `co_await` of a new proxy. -/
def outcomes (body : Nat → Segment V) (requiredThread : Worker) (ts : List Worker) :
    List (Outcome V) :=
  awaits body requiredThread.val ⟨Promise.init, none⟩ ts

/-- `proxy` of a `simple_future` that is awaited on thread `t`. -/
def simpleProxy (func : Segment V) (requiredThread t : ThreadT) : Outcome V :=
  let hops := requiredThread ≠ ThreadT.anyThread ∧ requiredThread ≠ t
  let returnThread := if hops then t else ThreadT.anyThread
  let ran := memberResume (fun _ => func) requiredThread 0 (if hops then requiredThread else t)
  { pieces := ran.pieces
    resumed := if returnThread ≠ ThreadT.anyThread then returnThread else ran.thread
    value := ran.produced.value }

/-! ## Both sides on their threads -/

/-- The wrapped function's values from segment `i` on, for `n` awaits: after the last one there is
nothing. -/
def values (body : Nat → Segment V) : Nat → Nat → List (Option V)
  | _, 0 => []
  | i, n + 1 =>
      match (body i).produced with
      | .yield v => v :: values body (i + 1) n
      | .ret v => v :: List.replicate n none

/-- A `co_await` from `t`: the wrapped function runs on the required thread, and the awaiter is
resumed on its own. -/
def Outcome.Keeps (o : Outcome V) (requiredThread t : Worker) : Prop :=
  (∀ x ∈ o.pieces, x = requiredThread.val) ∧ o.resumed = t.val

/-- Both sides stay on their threads, in every `co_await` of the proxy, and the values are those of
the wrapped function, in order; also for the proxy of a `simple_future`. -/
structure KeepsThreads (body : Nat → Segment V) (requiredThread : Worker) (ts : List Worker) :
    Prop where
  threads : List.Forall₂ (fun o t => Outcome.Keeps o requiredThread t)
    (outcomes body requiredThread ts) ts
  values : (outcomes body requiredThread ts).map Outcome.value = values body 0 ts.length
  simple : ∀ (func : Segment V) (t : Worker),
    (simpleProxy func requiredThread.val t.val).Keeps requiredThread t ∧
      (simpleProxy func requiredThread.val t.val).value = func.produced.value

/-- Every `co_await` that is made before the wrapped function has returned is made from the thread
`first`; `i` segments have been run already. -/
def FromThread (body : Nat → Segment V) (first : Worker) : Nat → List Worker → Prop
  | _, [] => True
  | i, t :: ts => t = first ∧
      match (body i).produced with
      | .yield _ => FromThread body first (i + 1) ts
      | .ret _ => True

/-- Every `co_await` that is made before the wrapped function has returned is made from the thread
of the first one. -/
def FromOneThread (body : Nat → Segment V) : List Worker → Prop
  | [] => True
  | t :: ts => FromThread body t 0 (t :: ts)

/-! ## One `co_await` -/

/-- A future that is not complete runs its coroutine. -/
theorem coAwait_of_ne {f : Reusable φ V} (hf : f.promise.state ≠ .kComplete)
    (resume : φ → ThreadT → Ran φ V) (t : ThreadT) :
    f.coAwait resume t
      = (⟨Promise.store (resume f.frame t).produced, (resume f.frame t).frame⟩,
        ⟨(resume f.frame t).pieces, (resume f.frame t).thread,
          (resume f.frame t).produced.value⟩) := by
  have hempty : f.promise.prepare.valueReady = false := by
    unfold Promise.prepare Promise.valueReady
    cases hs : f.promise.state with
    | kComplete => exact absurd hs hf
    | _ => rfl
  simp only [Reusable.coAwait, hempty, Bool.false_eq_true, if_false]

/-- A complete future has nothing more to give. -/
theorem coAwait_of_eq {f : Reusable φ V} (hf : f.promise.state = .kComplete)
    (resume : φ → ThreadT → Ran φ V) (t : ThreadT) :
    f.coAwait resume t = (⟨⟨.kComplete, none⟩, f.frame⟩, ⟨[], t, none⟩) := by
  have hprepare : f.promise.prepare = ⟨.kComplete, none⟩ := by
    simp [Promise.prepare, hf]
  simp only [Reusable.coAwait, hprepare]
  rfl

/-- The proxy is about to run segment `i`; its `return_thread` is `r`, if it has been run. -/
structure Ready (f : Reusable (ProxyFrame V) V) (i : Nat) (r : Option ThreadT) : Prop where
  proxy : f.promise.state ≠ .kComplete
  fresh : r = none → i = 0 ∧ f.frame = none
  running : ∀ t, r = some t → ∃ g, f.frame = some (t, g) ∧ g.promise.state ≠ .kComplete ∧
    g.frame = i

section

variable {requiredThread t : ThreadT} {f : Reusable (ProxyFrame V) V} {i : Nat}
  {r : Option ThreadT}

/-- The locals of a proxy that is about to run segment `i` on thread `t`. -/
theorem Ready.locals (h : Ready f i r) (t : ThreadT) :
    ∃ g : Reusable Nat V, f.frame.getD (t, ⟨Promise.init, 0⟩) = (r.getD t, g) ∧
      g.promise.state ≠ .kComplete ∧ g.frame = i := by
  cases r with
  | none =>
      obtain ⟨hi, hframe⟩ := h.fresh rfl
      exact ⟨⟨Promise.init, 0⟩, by rw [hframe]; rfl, by simp [Promise.init], hi.symm⟩
  | some t₀ =>
      obtain ⟨g, hframe, hg, hi⟩ := h.running t₀ rfl
      exact ⟨g, by rw [hframe]; rfl, hg, hi⟩

/-- What a `co_await` of the proxy does, in terms of its `return_thread`. -/
theorem Ready.coAwait (h : Ready f i r) (body : Nat → Segment V)
    (hrt : r.getD t ≠ ThreadT.anyThread) (hR : requiredThread ≠ ThreadT.anyThread) :
    ∃ f', f.coAwait (proxyResume body requiredThread) t = (f',
        ⟨(if requiredThread ≠ r.getD t then requiredThread else t) ::
            List.replicate (body i).awaits requiredThread,
          if requiredThread ≠ r.getD t then r.getD t
          else if (body i).awaits = 0 then t else requiredThread,
          (body i).produced.value⟩) ∧
      match (body i).produced with
      | .yield _ => Ready f' (i + 1) (some (r.getD t))
      | .ret _ => f'.promise.state = .kComplete := by
  obtain ⟨g, hlocals, hg, rfl⟩ := h.locals t
  rw [coAwait_of_ne h.proxy]
  have hresume : proxyResume body requiredThread f.frame t = {
      frame := some (r.getD t, ⟨Promise.store (body g.frame).produced, g.frame + 1⟩)
      pieces := (if requiredThread ≠ r.getD t then requiredThread else t) ::
        List.replicate (body g.frame).awaits requiredThread
      produced := (body g.frame).produced
      thread := if requiredThread ≠ r.getD t then r.getD t
        else if (body g.frame).awaits = 0 then t else requiredThread } := by
    simp only [proxyResume, hlocals, coAwait_of_ne hg, memberResume, hR, hrt, ne_eq,
      not_false_eq_true, true_and]
    congr 1
    · cases (body g.frame).produced <;> rfl
    · by_cases hne : requiredThread = r.getD t
      · simp [hne]
      · simp [hne]
  rw [hresume]
  refine ⟨_, rfl, ?_⟩
  cases hp : (body g.frame).produced with
  | yield v =>
      refine ⟨by simp [Promise.store], by simp, fun t' ht' => ?_⟩
      obtain rfl := Option.some.inj ht'
      exact ⟨_, rfl, by simp [Promise.store], rfl⟩
  | ret v => rfl

end

section

variable {f : Reusable (ProxyFrame V) V} {i : Nat}

/-- A `co_await` from `t` keeps both sides on their threads if and only if the proxy returns to
`t`. -/
theorem keeps_iff (requiredThread first t : Worker) (n : Nat) (v : Option V) :
    (⟨(if requiredThread.val ≠ first.val then requiredThread.val else t.val) ::
        List.replicate n requiredThread.val,
      if requiredThread.val ≠ first.val then first.val
      else if n = 0 then t.val else requiredThread.val, v⟩ : Outcome V).Keeps requiredThread t
      ↔ t = first := by
  simp only [Outcome.Keeps, List.mem_cons, List.mem_replicate, forall_eq_or_imp]
  by_cases hR : requiredThread.val = first.val
  · -- the proxy does not hop at all
    rw [if_neg (not_not.mpr hR), if_neg (not_not.mpr hR)]
    constructor
    · intro h
      exact Subtype.ext (h.1.1.trans hR)
    · rintro rfl
      refine ⟨⟨hR.symm, fun x hx => hx.2⟩, ?_⟩
      split
      · rfl
      · exact hR
  · -- it goes to the required thread and back to the first
    rw [if_pos hR, if_pos hR]
    constructor
    · intro h
      exact (Subtype.ext h.2).symm
    · rintro rfl
      exact ⟨⟨rfl, fun x hx => hx.2⟩, rfl⟩

/-- When the wrapped function has returned, every `co_await` returns at once. -/
theorem awaits_of_complete (hf : f.promise.state = .kComplete) (body : Nat → Segment V)
    (requiredThread : Worker) (ts : List Worker) :
    List.Forall₂ (fun o t => Outcome.Keeps o requiredThread t)
        (awaits body requiredThread.val f ts) ts ∧
      (awaits body requiredThread.val f ts).map Outcome.value
        = List.replicate ts.length none := by
  induction ts generalizing f with
  | nil => exact ⟨.nil, rfl⟩
  | cons t ts ih =>
      simp only [awaits, coAwait_of_eq hf]
      obtain ⟨hkeeps, hvalues⟩ := ih (f := ⟨⟨.kComplete, none⟩, f.frame⟩) rfl
      refine ⟨.cons ⟨fun x hx => absurd hx List.not_mem_nil, rfl⟩ hkeeps, ?_⟩
      rw [List.map_cons, hvalues]
      rfl

/-- One `co_await` after the other: the next one runs segment `i` and returns to `first`. -/
theorem Ready.awaits_cons {r : Option ThreadT} {first t : Worker} {ts : List Worker}
    (h : Ready f i r) (hfirst : r.getD t.val = first.val) (body : Nat → Segment V)
    (requiredThread : Worker)
    (ih : ∀ f', Ready f' (i + 1) (some first.val) →
      (List.Forall₂ (fun o t => Outcome.Keeps o requiredThread t)
          (awaits body requiredThread.val f' ts) ts ↔ FromThread body first (i + 1) ts) ∧
        (awaits body requiredThread.val f' ts).map Outcome.value = values body (i + 1) ts.length) :
    (List.Forall₂ (fun o t => Outcome.Keeps o requiredThread t)
        (awaits body requiredThread.val f (t :: ts)) (t :: ts) ↔
          FromThread body first i (t :: ts)) ∧
      (awaits body requiredThread.val f (t :: ts)).map Outcome.value
        = values body i (ts.length + 1) := by
  obtain ⟨f', hf', hnext⟩ :=
    h.coAwait (t := t.val) body (by rw [hfirst]; exact first.2) requiredThread.2
  rw [hfirst] at hf' hnext
  simp only [awaits, hf', List.forall₂_cons, List.map_cons]
  rw [keeps_iff]
  cases hp : (body i).produced with
  | yield v =>
      rw [hp] at hnext
      obtain ⟨hkeeps, hvalues⟩ := ih f' hnext
      refine ⟨?_, ?_⟩
      · rw [hkeeps]
        simp only [FromThread, hp]
      · rw [hvalues]
        simp only [values, hp, Produced.value]
  | ret v =>
      -- nothing is run from here on, and nobody changes threads
      rw [hp] at hnext
      obtain ⟨hkeeps, hvalues⟩ := awaits_of_complete hnext body requiredThread ts
      refine ⟨?_, ?_⟩
      · simp only [FromThread, hp, hkeeps]
      · rw [hvalues]
        simp only [values, hp, Produced.value]

/-- All the `co_await`s from segment `i` on, when the proxy returns to `first`. -/
theorem Ready.awaits {first : Worker} (h : Ready f i (some first.val)) (body : Nat → Segment V)
    (requiredThread : Worker) (ts : List Worker) :
    (List.Forall₂ (fun o t => Outcome.Keeps o requiredThread t)
        (awaits body requiredThread.val f ts) ts ↔ FromThread body first i ts) ∧
      (Proxy.awaits body requiredThread.val f ts).map Outcome.value
        = values body i ts.length := by
  induction ts generalizing f i with
  | nil => exact ⟨iff_of_true .nil trivial, rfl⟩
  | cons t ts ih => exact h.awaits_cons rfl body requiredThread fun f' hf' => ih hf'

/-- All the `co_await`s of a new proxy: the first one decides where it returns to. -/
theorem outcomes_iff (body : Nat → Segment V) (requiredThread : Worker) (ts : List Worker) :
    (List.Forall₂ (fun o t => Outcome.Keeps o requiredThread t)
        (outcomes body requiredThread ts) ts ↔ FromOneThread body ts) ∧
      (outcomes body requiredThread ts).map Outcome.value = values body 0 ts.length := by
  cases ts with
  | nil => exact ⟨iff_of_true .nil trivial, rfl⟩
  | cons t ts =>
      have h : Ready (⟨Promise.init, none⟩ : Reusable (ProxyFrame V) V) 0 none :=
        ⟨by simp [Promise.init], fun _ => ⟨rfl, rfl⟩, fun _ ht => by cases ht⟩
      exact h.awaits_cons rfl body requiredThread fun f' hf' =>
        hf'.awaits body requiredThread ts

/-- The proxy of a `simple_future` returns to where it was awaited. -/
theorem simpleProxy_keeps (func : Segment V) (requiredThread t : Worker) :
    (simpleProxy func requiredThread.val t.val).Keeps requiredThread t ∧
      (simpleProxy func requiredThread.val t.val).value = func.produced.value := by
  refine ⟨?_, rfl⟩
  have h := (keeps_iff requiredThread t t func.awaits func.produced.value).mpr rfl
  have heq : simpleProxy func requiredThread.val t.val
      = ⟨(if requiredThread.val ≠ t.val then requiredThread.val else t.val) ::
          List.replicate func.awaits requiredThread.val,
        if requiredThread.val ≠ t.val then t.val
        else if func.awaits = 0 then t.val else requiredThread.val, func.produced.value⟩ := by
    have hR := requiredThread.2
    have ht := t.2
    simp only [simpleProxy, memberResume]
    by_cases hne : requiredThread.val = t.val
    · simp [hne]
    · simp [hne, hR, ht]
  rw [heq]
  exact h

/-- **When `proxy` keeps both sides on their threads.** -/
theorem proxy_keepsThreads_iff (body : Nat → Segment V) (requiredThread : Worker)
    (ts : List Worker) : KeepsThreads body requiredThread ts ↔ FromOneThread body ts := by
  obtain ⟨hthreads, hvalues⟩ := outcomes_iff body requiredThread ts
  constructor
  · intro h
    exact hthreads.mp h.threads
  · intro h
    exact ⟨hthreads.mpr h, hvalues, fun func t => simpleProxy_keeps func requiredThread t⟩

/-- A worker. -/
def worker (n : UInt16) (h : n ≠ ThreadT.kAnyThread) : Worker :=
  ⟨⟨n⟩, fun heq => h (congrArg ThreadT.thread heq)⟩

/-- The numbers from 0 on, with an await of its own in every segment. -/
def counting (i : Nat) : Segment Nat := ⟨1, .yield (some i)⟩

/-- A consumer that moves from thread 0 to thread 2 between its two awaits is taken back to
thread 0. -/
theorem proxy_movedConsumer :
    outcomes counting (worker 1 (by decide)) [worker 0 (by decide), worker 2 (by decide)]
        = [⟨[⟨1⟩, ⟨1⟩], ⟨0⟩, some 0⟩, ⟨[⟨1⟩, ⟨1⟩], ⟨0⟩, some 1⟩] ∧
      ¬ KeepsThreads counting (worker 1 (by decide))
        [worker 0 (by decide), worker 2 (by decide)] := by
  refine ⟨rfl, fun h => ?_⟩
  have hfrom := (outcomes_iff counting _ _).1.mp h.threads
  exact absurd (congrArg (fun t : Worker => t.val.thread) hfrom.2.1) (by decide)

end

end Zab.Proxy
