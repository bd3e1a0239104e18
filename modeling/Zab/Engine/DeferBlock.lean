import Zab.Basic.Automaton

set_option autoImplicit false

/-! # Deferred blocks

A coroutine registers a block with `co_yield defer_block(..)` and forgets all of them with
`co_yield purge_block{}`. Three promises keep the blocks, each in one `std::function`: a new block is
wrapped together with the function that there is. They differ in when it is called.
`defer_block_promise` calls it when the coroutine ends, and else in its destructor;
`visitor_promise<void>` calls it when the coroutine ends; `visitor_promise<T>` calls it on the value
of the promise every time that it is retrieved.

What a retrieval returns goes through `simple_promise<T>::data()`. For `bool` this is not a reference
to the value but a copy, and the reference that `visitor_promise` makes of it outlives it.
-/

namespace Zab.DeferBlock

open Automaton

/-! ## The function of blocks -/

/-- A `std::function` made of blocks. -/
inductive Closure (β : Type) where
  | block (b : β)
  /-- The lambda of `yield_value` that has captured a block and the function before. -/
  | wrap (b : β) (defer : Closure β)

section

variable {β ω : Type}

/-- A call; `effect` is what a block does. -/
def Closure.call (effect : β → ω → ω) : Closure β → ω → ω
  | .block b, w => effect b w
  | .wrap b defer, w => defer.call effect (effect b w)

/-- `yield_value(defer_block)`. -/
def yieldDefer (defer : Option (Closure β)) (b : β) : Option (Closure β) :=
  match defer with
  | some f => some (.wrap b f)
  | none => some (.block b)

/-- `if (defer_) { defer_(..); }` -/
def callDefer (effect : β → ω → ω) (defer : Option (Closure β)) (w : ω) : ω :=
  match defer with
  | some f => f.call effect w
  | none => w

/-! ## The coroutine -/

inductive Status where
  | running
  | suspended
  /-- At its final suspension point. -/
  | finalSuspend
  | destroyed
  deriving DecidableEq

/-- The frame of a coroutine, with `defer_` of its promise. -/
structure Frame (β : Type) where
  status : Status
  defer : Option (Closure β)

/-- What the body of the coroutine does, before it ends. -/
inductive BodyAction (β : Type) where
  | resume
  | suspend
  /-- `co_yield defer_block(b)`. -/
  | deferBlock (b : β)
  /-- `co_yield purge_block{}`. -/
  | purgeBlock

def Frame.step (f : Frame β) : BodyAction β → Option (Frame β)
  | .resume => if f.status = .suspended then some { f with status := .running } else none
  | .suspend => if f.status = .running then some { f with status := .suspended } else none
  | .deferBlock b =>
      if f.status = .running then some { f with defer := yieldDefer f.defer b } else none
  | .purgeBlock => if f.status = .running then some { f with defer := none } else none

/-- The blocks registered since the last purge. -/
def registered : List (BodyAction β) → List β → List β
  | [], blocks => blocks
  | .deferBlock b :: l, blocks => registered l (blocks ++ [b])
  | .purgeBlock :: l, _ => registered l []
  | .resume :: l, blocks | .suspend :: l, blocks => registered l blocks

end

/-! ## `defer_block_promise` and `visitor_promise<void>` -/

inductive Action (β : Type) where
  | body (a : BodyAction β)
  /-- The coroutine comes to its end. -/
  | finish
  /-- The frame is destroyed from outside. -/
  | destroy

/-- What the body of the coroutine has done. -/
def Action.body? {β : Type} : Action β → Option (BodyAction β)
  | .body a => some a
  | .finish | .destroy => none

structure State (β : Type) where
  frame : Frame β
  /-- The blocks that have been executed, in their order. -/
  executed : List β

section

variable {β : Type}

/-- A step of the body. -/
def State.body (s : State β) (a : BodyAction β) : Option (State β) :=
  (s.frame.step a).map fun f => { s with frame := f }

/-- `if (defer_) { defer_(); }` -/
def State.callDefer (s : State β) : State β :=
  { s with executed := DeferBlock.callDefer (fun b l => l ++ [b]) s.frame.defer s.executed }

namespace DeferBlockPromise

/-- `initial_suspend` does not suspend. -/
def init : State β := ⟨⟨.running, none⟩, []⟩

/-- `final_suspend`, before its awaitable is awaited. -/
def finalSuspend (s : State β) : State β :=
  if s.frame.defer.isSome then
    { s.callDefer with frame := { s.frame with defer := none } }
  else s

/-- `~defer_block_promise`. -/
def destructor (s : State β) : State β :=
  { s.callDefer with frame := { s.frame with status := .destroyed } }

def step (s : State β) : Action β → Option (State β)
  | .body a => s.body a
  | .finish =>
      -- it does not suspend at the end, so the frame goes
      if s.frame.status = .running then some (destructor (finalSuspend s)) else none
  | .destroy => if s.frame.status = .suspended then some (destructor s) else none

end DeferBlockPromise

namespace VisitorVoid

/-- `initial_suspend` suspends. -/
def init : State β := ⟨⟨.suspended, none⟩, []⟩

def step (s : State β) : Action β → Option (State β)
  | .body a => s.body a
  | .finish =>
      if s.frame.status = .running then
        some { s.callDefer with frame := { s.frame with status := .finalSuspend } }
      else none
  | .destroy =>
      if s.frame.status = .suspended ∨ s.frame.status = .finalSuspend then
        some { s with frame := { s.frame with status := .destroyed } }
      else none

end VisitorVoid

end

/-! ## `visitor_promise<T>` -/

/-- The `T` of a promise with a value. -/
inductive Value : Type 1 where
  /-- Any `T` without a specialisation of its own. -/
  | optional (T : Type)
  | alwaysResolves (T : Type)
  | bool

/-- `simple_promise<T>::returns`. -/
def Value.returns : Value → Type
  | .optional T => Option T
  | .alwaysResolves T => T
  | .bool => Bool

/-- `simple_promise<T>::data()` returns `returns&&` and not `returns`. -/
def Value.byReference : Value → Bool
  | .optional _ | .alwaysResolves _ => true
  | .bool => false

namespace Visitor

inductive Action (V : Value) (β ω : Type) where
  | body (a : BodyAction β)
  /-- `co_return`, which resumes the awaiter. -/
  | finish (v : V.returns)
  /-- The awaiter calls `data()` and reads the value. -/
  | retrieve
  /-- The awaiter leaves `v` in the object it has a reference to, after a move for example. -/
  | leave (v : V.returns)
  /-- Anything else happens. -/
  | world (w : ω)
  | destroy

def Action.body? {V : Value} {β ω : Type} : Action V β ω → Option (BodyAction β)
  | .body a => some a
  | _ => none

structure State (V : Value) (β ω : Type) where
  frame : Frame β
  /-- The value of the promise; none before it is returned. -/
  data : Option V.returns
  /-- What blocks may change besides the value. -/
  world : ω
  /-- What the awaiter has read; none if it read an object that does not exist any more. -/
  obtained : List (Option V.returns)

section

variable {V : Value} {β ω : Type}

def init (w : ω) : State V β ω := ⟨⟨.suspended, none⟩, none, w, []⟩

/-- `visitor_promise<T>::data()`, for the value `v` in the promise. -/
def State.retrieve (s : State V β ω) (effect : β → ω × V.returns → ω × V.returns)
    (v : V.returns) : State V β ω :=
  -- `forward` calls `defer_` on the object that it gets, and returns a reference to it
  let (w, v') := callDefer effect s.frame.defer (s.world, v)
  if V.byReference then
    { s with data := some v', world := w, obtained := s.obtained ++ [some v'] }
  else { s with world := w, obtained := s.obtained ++ [none] }

def step (effect : β → ω × V.returns → ω × V.returns) (s : State V β ω) :
    Action V β ω → Option (State V β ω)
  | .body a => (s.frame.step a).map fun f => { s with frame := f }
  | .finish v =>
      if s.frame.status = .running then
        some { s with frame := { s.frame with status := .finalSuspend }, data := some v }
      else none
  | .retrieve => if s.frame.status = .finalSuspend then s.data.map (s.retrieve effect) else none
  | .leave v =>
      if s.frame.status = .finalSuspend ∧ s.obtained ≠ [] ∧ V.byReference then
        some { s with data := some v }
      else none
  | .world w => some { s with world := w }
  | .destroy =>
      if s.frame.status = .suspended ∨ s.frame.status = .finalSuspend then
        some { s with frame := { s.frame with status := .destroyed } }
      else none

end

end Visitor

/-! ## What the blocks do -/

/-- **The blocks are executed once, in reverse.** -/
structure RunsBlocks {β : Type} (ended : Prop) (blocks executed : List β) : Prop where
  after : ended → executed = blocks.reverse
  before : ¬ ended → executed = []

/-- **A retrieval applies the blocks once, in reverse.** -/
structure AppliesBlocks {V : Value} {β ω : Type} (effect : β → ω × V.returns → ω × V.returns)
    (returned : V.returns) (blocks : List β) (s s' : Visitor.State V β ω) : Prop where
  /-- The first time, the value is the one that the coroutine has returned. -/
  first : s.obtained = [] → s.data = some returned
  obtains : ∃ v v', s.data = some v ∧
    (s'.world, v') = blocks.reverse.foldl (fun x b => effect b x) (s.world, v) ∧
    s'.data = some v' ∧ s'.obtained = s.obtained ++ [some v']

/-- **Every retrieval of a run applies the blocks once, in reverse.** -/
def VisitorRight {V : Value} {β ω : Type} (effect : β → ω × V.returns → ω × V.returns) (w : ω)
    (l : List (Visitor.Action V β ω)) : Prop :=
  ∀ l₁ l₂ s s', l = l₁ ++ .retrieve :: l₂ →
    run (Visitor.step effect) anyStep (Visitor.init w) l₁ = some s →
    Visitor.step effect s .retrieve = some s' →
    ∃ v, .finish v ∈ l₁ ∧
      AppliesBlocks effect v (registered (l₁.filterMap Visitor.Action.body?) []) s s'

/-! ## The blocks of a function -/

section

variable {β ω : Type}

/-- The blocks of a closure, in the order in which it calls them. -/
def Closure.blocks : Closure β → List β
  | .block b => [b]
  | .wrap b defer => b :: defer.blocks

def blocksOf : Option (Closure β) → List β
  | some f => f.blocks
  | none => []

theorem Closure.call_eq (effect : β → ω → ω) (f : Closure β) (w : ω) :
    f.call effect w = f.blocks.foldl (fun w b => effect b w) w := by
  induction f generalizing w with
  | block b => rfl
  | wrap b defer ih => exact ih (effect b w)

theorem callDefer_eq (effect : β → ω → ω) (defer : Option (Closure β)) (w : ω) :
    callDefer effect defer w = (blocksOf defer).foldl (fun w b => effect b w) w := by
  cases defer with
  | none => rfl
  | some f => exact f.call_eq effect w

@[simp] theorem blocksOf_yieldDefer (defer : Option (Closure β)) (b : β) :
    blocksOf (yieldDefer defer b) = b :: blocksOf defer := by
  cases defer <;> rfl

theorem registered_append (l l' : List (BodyAction β)) (blocks : List β) :
    registered (l ++ l') blocks = registered l' (registered l blocks) := by
  induction l generalizing blocks with
  | nil => rfl
  | cons a l ih => cases a <;> exact ih _

/-- Before the end, the function consists of the blocks that are registered. -/
structure Frame.Holds (f : Frame β) (l : List (BodyAction β)) : Prop where
  alive : f.status = .running ∨ f.status = .suspended
  blocks : blocksOf f.defer = (registered l []).reverse

theorem Frame.Holds.step {f f' : Frame β} {l : List (BodyAction β)} {a : BodyAction β}
    (h : f.Holds l) (hs : f.step a = some f') : f'.Holds (l ++ [a]) := by
  have hblocks := h.blocks
  cases a with
  | resume | suspend =>
      simp only [Frame.step] at hs
      split at hs
      · obtain rfl := Option.some.inj hs
        refine ⟨by simp, ?_⟩
        rw [registered_append]
        exact hblocks
      · cases hs
  | deferBlock b =>
      simp only [Frame.step] at hs
      split at hs
      · obtain rfl := Option.some.inj hs
        refine ⟨h.alive, ?_⟩
        rw [registered_append, blocksOf_yieldDefer, hblocks]
        simp [registered]
      · cases hs
  | purgeBlock =>
      simp only [Frame.step] at hs
      split at hs
      · obtain rfl := Option.some.inj hs
        refine ⟨h.alive, ?_⟩
        rw [registered_append]
        rfl
      · cases hs

/-- A coroutine that has ended does nothing. -/
theorem Frame.step_eq_none {f : Frame β} (hr : f.status ≠ .running) (hs : f.status ≠ .suspended)
    (a : BodyAction β) : f.step a = none := by
  cases a <;> simp [Frame.step, hr, hs]

end

/-! ## The promises without a value -/

section

variable {β : Type} {l : List (Action β)} {s s' : State β} {a : Action β}

/-- The blocks registered in a run. -/
def blocksIn (l : List (Action β)) : List β := registered (l.filterMap Action.body?) []

theorem blocksIn_append_end (h : a = .finish ∨ a = .destroy) :
    blocksIn (l ++ [a]) = blocksIn l := by
  rcases h with rfl | rfl <;> simp [blocksIn, List.filterMap_cons, Action.body?]

theorem callDefer_executed {blocks : List β} (h : blocksOf s.frame.defer = blocks)
    (hnone : s.executed = []) : s.callDefer.executed = blocks := by
  have happend : ∀ blocks l : List β, blocks.foldl (fun l b => l ++ [b]) l = l ++ blocks := by
    intro blocks
    induction blocks with
    | nil => simp
    | cons b blocks ih => simp [ih]
  show DeferBlock.callDefer _ s.frame.defer s.executed = blocks
  rw [callDefer_eq, happend, hnone, h]
  rfl

/-- The coroutine has not ended. -/
structure Runs (l : List (Action β)) (s : State β) : Prop where
  frame : s.frame.Holds (l.filterMap Action.body?)
  none : s.executed = []

theorem Runs.body {a : BodyAction β} (h : Runs l s) (hs : s.body a = some s') :
    Runs (l ++ [.body a]) s' := by
  obtain ⟨f, hf, rfl⟩ := Option.map_eq_some_iff.mp hs
  refine ⟨?_, h.none⟩
  rw [List.filterMap_append]
  exact h.frame.step hf

namespace DeferBlockPromise

/-- The coroutine has ended, in one way or the other. -/
def Ended (l : List (Action β)) : Prop := .finish ∈ l ∨ .destroy ∈ l

structure Inv (l : List (Action β)) (s : State β) : Prop where
  runs : ¬ Ended l → Runs l s
  ended : Ended l → s.frame.status = .destroyed ∧ s.executed = (blocksIn l).reverse

/-- The destructor finds nothing to call after the final suspension point. -/
theorem executed_finish (s : State β) :
    (destructor (finalSuspend s)).executed = s.callDefer.executed := by
  cases hd : s.frame.defer <;>
    simp [destructor, finalSuspend, State.callDefer, DeferBlock.callDefer, hd]

theorem Inv.step (h : Inv l s) (hs : DeferBlockPromise.step s a = some s') : Inv (l ++ [a]) s' := by
  by_cases hend : Ended l
  · -- the frame is gone
    obtain ⟨hgone, -⟩ := h.ended hend
    cases a with
    | body a => simp [DeferBlockPromise.step, State.body, Frame.step_eq_none, hgone] at hs
    | finish | destroy => simp [DeferBlockPromise.step, hgone] at hs
  · have hruns := h.runs hend
    cases a with
    | body a =>
        have hnot : ¬ Ended (l ++ [.body a]) := by simpa [Ended] using hend
        exact ⟨fun _ => hruns.body hs, fun hend' => absurd hend' hnot⟩
    | finish =>
        simp only [DeferBlockPromise.step] at hs
        split at hs
        · obtain rfl := Option.some.inj hs
          refine ⟨fun hnot => absurd (by simp [Ended]) hnot, fun _ => ⟨rfl, ?_⟩⟩
          rw [blocksIn_append_end (Or.inl rfl), executed_finish]
          exact callDefer_executed hruns.frame.blocks hruns.none
        · cases hs
    | destroy =>
        simp only [DeferBlockPromise.step] at hs
        split at hs
        · obtain rfl := Option.some.inj hs
          refine ⟨fun hnot => absurd (by simp [Ended]) hnot, fun _ => ⟨rfl, ?_⟩⟩
          rw [blocksIn_append_end (Or.inr rfl)]
          exact callDefer_executed hruns.frame.blocks hruns.none
        · cases hs

theorem runsBlocks (h : run DeferBlockPromise.step anyStep init l = some s) :
    RunsBlocks (Ended l) (blocksIn l) s.executed := by
  have hinv : Inv l s := by
    refine run_invariant (I := Inv) ⟨fun _ => ⟨⟨Or.inl rfl, rfl⟩, rfl⟩, fun hend => ?_⟩ ?_ h
    · simp [Ended] at hend
    · exact fun l t a t' ih _ hs => ih.step hs
  exact ⟨fun hend => (hinv.ended hend).2, fun hnot => (hinv.runs hnot).none⟩

end DeferBlockPromise

namespace VisitorVoid

structure Inv (l : List (Action β)) (s : State β) : Prop where
  runs : .finish ∉ l → s.frame.status = .destroyed ∧ s.executed = [] ∨ Runs l s
  ended : .finish ∈ l → (s.frame.status = .finalSuspend ∨ s.frame.status = .destroyed) ∧
    s.executed = (blocksIn l).reverse

theorem Inv.step (h : Inv l s) (hs : VisitorVoid.step s a = some s') : Inv (l ++ [a]) s' := by
  by_cases hend : .finish ∈ l
  · obtain ⟨hstatus, hexecuted⟩ := h.ended hend
    have hmem : .finish ∈ l ++ [a] := List.mem_append_left _ hend
    cases a with
    | body a =>
        have hnone : s.frame.step a = none := by
          rcases hstatus with hst | hst <;> exact Frame.step_eq_none (by simp [hst]) (by simp [hst]) a
        simp [VisitorVoid.step, State.body, hnone] at hs
    | finish => rcases hstatus with hst | hst <;> simp [VisitorVoid.step, hst] at hs
    | destroy =>
        simp only [VisitorVoid.step] at hs
        split at hs
        · obtain rfl := Option.some.inj hs
          refine ⟨fun hnot => absurd hmem hnot, fun _ => ⟨Or.inr rfl, ?_⟩⟩
          rw [blocksIn_append_end (Or.inr rfl)]
          exact hexecuted
        · cases hs
  · cases a with
    | body a =>
        have hnot : .finish ∉ l ++ [.body a] := by simpa using hend
        refine ⟨fun _ => ?_, fun hmem => absurd hmem hnot⟩
        rcases h.runs hend with ⟨hgone, -⟩ | hruns
        · simp [VisitorVoid.step, State.body, Frame.step_eq_none, hgone] at hs
        · exact Or.inr (hruns.body hs)
    | finish =>
        simp only [VisitorVoid.step] at hs
        split at hs
        · rename_i hrun
          obtain rfl := Option.some.inj hs
          refine ⟨fun hnot => absurd (by simp) hnot, fun _ => ⟨Or.inl rfl, ?_⟩⟩
          rw [blocksIn_append_end (Or.inl rfl)]
          rcases h.runs hend with ⟨hgone, -⟩ | hruns
          · rw [hrun] at hgone
            cases hgone
          · exact callDefer_executed hruns.frame.blocks hruns.none
        · cases hs
    | destroy =>
        have hnot : .finish ∉ l ++ [.destroy] := by simpa using hend
        have hnone : s.executed = [] := by
          rcases h.runs hend with ⟨-, hnone⟩ | hruns
          · exact hnone
          · exact hruns.none
        simp only [VisitorVoid.step] at hs
        split at hs
        · obtain rfl := Option.some.inj hs
          exact ⟨fun _ => Or.inl ⟨rfl, hnone⟩, fun hmem => absurd hmem hnot⟩
        · cases hs

theorem runsBlocks (h : run VisitorVoid.step anyStep init l = some s) :
    RunsBlocks (.finish ∈ l) (blocksIn l) s.executed := by
  have hinv : Inv l s := by
    refine run_invariant (I := Inv) ⟨fun _ => Or.inr ⟨⟨Or.inr rfl, rfl⟩, rfl⟩, fun hend => ?_⟩ ?_ h
    · cases hend
    · exact fun l t a t' ih _ hs => ih.step hs
  refine ⟨fun hend => (hinv.ended hend).2, fun hnot => ?_⟩
  rcases hinv.runs hnot with ⟨-, hnone⟩ | hruns
  · exact hnone
  · exact hruns.none

end VisitorVoid

end

/-! ## The promise with a value -/

namespace Visitor

section

variable {V : Value} {β ω : Type} {effect : β → ω × V.returns → ω × V.returns} {w : ω}
  {l : List (Action V β ω)} {s s' : State V β ω} {a : Action V β ω}

/-- The blocks registered in a run. -/
def blocksIn (l : List (Action V β ω)) : List β := registered (l.filterMap Action.body?) []

structure Inv (l : List (Action V β ω)) (s : State V β ω) : Prop where
  blocks : s.frame.status ≠ .destroyed → blocksOf s.frame.defer = (blocksIn l).reverse
  /-- Until the first retrieval, the value is the one that has been returned. -/
  value : s.frame.status = .finalSuspend → ∃ v, .finish v ∈ l ∧
    (s.obtained = [] → s.data = some v)

theorem blocksIn_append_other (h : a.body? = none) : blocksIn (l ++ [a]) = blocksIn l := by
  simp [blocksIn, h]

/-- A step that is none of the body. -/
theorem Inv.other (h : Inv l s) (ha : a.body? = none) (hframe : s'.frame = s.frame)
    (hvalue : s.frame.status = .finalSuspend → s'.obtained = [] →
      s.obtained = [] ∧ s'.data = s.data) : Inv (l ++ [a]) s' := by
  refine ⟨?_, fun hfinal => ?_⟩
  · rw [hframe, blocksIn_append_other ha]
    exact h.blocks
  · rw [hframe] at hfinal
    obtain ⟨v, hv, hfirst⟩ := h.value hfinal
    refine ⟨v, List.mem_append_left _ hv, fun hnone => ?_⟩
    obtain ⟨hnone', hdata⟩ := hvalue hfinal hnone
    rw [hdata]
    exact hfirst hnone'

theorem retrieve_frame (effect : β → ω × V.returns → ω × V.returns) (s : State V β ω)
    (v : V.returns) :
    (s.retrieve effect v).frame = s.frame ∧ (s.retrieve effect v).obtained ≠ [] := by
  unfold State.retrieve
  dsimp only
  split <;> exact ⟨rfl, by simp⟩

theorem Inv.step (h : Inv l s) (hs : Visitor.step effect s a = some s') : Inv (l ++ [a]) s' := by
  cases a with
  | body a =>
      obtain ⟨f, hf, rfl⟩ := Option.map_eq_some_iff.mp hs
      have halive : s.frame.status = .running ∨ s.frame.status = .suspended := by
        by_contra hnot
        rw [not_or] at hnot
        rw [Frame.step_eq_none hnot.1 hnot.2] at hf
        cases hf
      have hholds : s.frame.Holds (l.filterMap Action.body?) :=
        ⟨halive, h.blocks (by rcases halive with hst | hst <;> simp [hst])⟩
      have hnext := hholds.step hf
      refine ⟨fun _ => ?_, fun hfinal => ?_⟩
      · show _ = (registered ((l ++ [Action.body a]).filterMap Action.body?) []).reverse
        rw [List.filterMap_append]
        exact hnext.blocks
      · rcases hnext.alive with hst | hst <;> simp [hst] at hfinal
  | finish v =>
      simp only [Visitor.step] at hs
      split at hs
      · rename_i hrun
        obtain rfl := Option.some.inj hs
        refine ⟨fun _ => ?_, fun _ => ⟨v, by simp, fun _ => rfl⟩⟩
        rw [blocksIn_append_other rfl]
        exact h.blocks (by simp [hrun])
      · cases hs
  | retrieve =>
      simp only [Visitor.step] at hs
      split at hs
      · obtain ⟨v, -, rfl⟩ := Option.map_eq_some_iff.mp hs
        obtain ⟨hframe, hsome⟩ := retrieve_frame effect s v
        exact h.other rfl hframe fun _ hnone => absurd hnone hsome
      · cases hs
  | leave v =>
      simp only [Visitor.step] at hs
      split at hs
      · rename_i hc
        obtain rfl := Option.some.inj hs
        exact h.other rfl rfl fun _ hnone => absurd hnone hc.2.1
      · cases hs
  | world w =>
      obtain rfl := Option.some.inj hs
      exact h.other rfl rfl fun _ hnone => ⟨hnone, rfl⟩
  | destroy =>
      simp only [Visitor.step] at hs
      split at hs
      · obtain rfl := Option.some.inj hs
        exact ⟨fun hgone => absurd rfl hgone, fun hfinal => by cases hfinal⟩
      · cases hs

theorem inv_run (h : run (Visitor.step effect) anyStep (init w) l = some s) : Inv l s := by
  refine run_invariant (I := Inv) ⟨fun _ => rfl, fun hfinal => by cases hfinal⟩ ?_ h
  exact fun l t a t' ih _ hs => ih.step hs

theorem step_retrieve (hs : Visitor.step effect s .retrieve = some s') :
    s.frame.status = .finalSuspend ∧ ∃ v, s.data = some v ∧ s' = s.retrieve effect v := by
  simp only [Visitor.step] at hs
  split at hs
  · rename_i hfinal
    obtain ⟨v, hv, rfl⟩ := Option.map_eq_some_iff.mp hs
    exact ⟨hfinal, v, hv, rfl⟩
  · cases hs

/-- A reference to the value stays good. -/
theorem visitorRight_of_byReference (hV : V.byReference = true) : VisitorRight effect w l := by
  intro l₁ l₂ s s' _ hrun hs
  have h := inv_run hrun
  obtain ⟨hfinal, v, hv, rfl⟩ := step_retrieve hs
  obtain ⟨v₀, hmem, hfirst⟩ := h.value hfinal
  have hblocks := h.blocks (by simp [hfinal])
  have hcall := callDefer_eq effect s.frame.defer (s.world, v)
  rw [hblocks] at hcall
  refine ⟨v₀, hmem, hfirst, v, (callDefer effect s.frame.defer (s.world, v)).2, hv, ?_⟩
  simp only [State.retrieve, hV, if_true]
  exact ⟨hcall, trivial, trivial⟩

/-- A reference to a copy does not. -/
theorem not_visitorRight {effect : β → ω × Bool → ω × Bool} {l : List (Action .bool β ω)}
    {s : State .bool β ω} (hrun : run (Visitor.step effect) anyStep (init w) l = some s)
    (hmem : .retrieve ∈ l) : ¬ VisitorRight effect w l := by
  intro hright
  obtain ⟨l₁, l₂, rfl⟩ := List.append_of_mem hmem
  rw [run_append] at hrun
  obtain ⟨s₁, hs₁, hrun⟩ := Option.bind_eq_some_iff.mp hrun
  simp only [run, anyStep] at hrun
  obtain ⟨s₂, hs₂, -⟩ := Option.bind_eq_some_iff.mp hrun
  obtain ⟨v, -, happlies⟩ := hright l₁ l₂ s₁ s₂ rfl hs₁ hs₂
  obtain ⟨-, v', -, -, -, hobtained⟩ := happlies.obtains
  obtain ⟨-, u, -, rfl⟩ := step_retrieve hs₂
  have hlast : (s₁.retrieve effect u).obtained = s₁.obtained ++ [none] := rfl
  rw [hlast] at hobtained
  simp at hobtained

end

end Visitor

/-- **Deferred blocks run once, in reverse, since the last purge**, unless the value is a `bool`
that is retrieved. -/
theorem deferredBlocks_iff {V : Value} {β ω : Type} (effect : β → ω × V.returns → ω × V.returns)
    (w : ω) :
    (∀ (l : List (Action β)) (s : State β),
      run DeferBlockPromise.step anyStep DeferBlockPromise.init l = some s →
      RunsBlocks (DeferBlockPromise.Ended l) (blocksIn l) s.executed) ∧
    (∀ (l : List (Action β)) (s : State β),
      run VisitorVoid.step anyStep VisitorVoid.init l = some s →
      RunsBlocks (.finish ∈ l) (blocksIn l) s.executed) ∧
    ∀ (l : List (Visitor.Action V β ω)) (s : Visitor.State V β ω),
      run (Visitor.step effect) anyStep (Visitor.init w) l = some s →
      (VisitorRight effect w l ↔ (V = .bool → .retrieve ∉ l)) := by
  refine ⟨fun l s h => DeferBlockPromise.runsBlocks h, fun l s h => VisitorVoid.runsBlocks h, ?_⟩
  intro l s h
  cases V with
  | optional T | alwaysResolves T =>
      refine ⟨fun _ hV => ?_, fun _ => Visitor.visitorRight_of_byReference rfl⟩
      cases hV
  | bool =>
      refine ⟨fun hright _ hmem => Visitor.not_visitorRight h hmem hright, fun hnot => ?_⟩
      -- without a retrieval there is nothing to show
      intro l₁ l₂ s₁ s₂ hl
      exact absurd (by rw [hl]; simp) (hnot rfl)

/-- One block is purged; two others are registered before the frame is destroyed. -/
def purgedThenDestroyed : List (Action Nat) :=
  [.body (.deferBlock 1), .body .purgeBlock, .body (.deferBlock 2), .body .suspend, .body .resume,
    .body (.deferBlock 3), .body .suspend, .destroy]

/-- The same, up to the end of the coroutine. -/
def purgedThenFinished : List (Action Nat) :=
  [.body .resume, .body (.deferBlock 1), .body .purgeBlock, .body (.deferBlock 2),
    .body (.deferBlock 3), .finish]

/-- One block adds to the value, and the other one, registered later, doubles it. -/
def onValue (b : Nat → Nat) (x : Unit × Nat) : Unit × Nat := (x.1, b x.2)

/-- A block adds its number. -/
def adds (b : Nat) (x : Unit × Nat) : Unit × Nat := (x.1, x.2 + b)

def retrievedOnce : List (Visitor.Action (.alwaysResolves Nat) (Nat → Nat) Unit) :=
  [.body .resume, .body (.deferBlock (· + 1)), .body (.deferBlock (· * 2)), .finish (5 : Nat),
    .retrieve]

theorem deferredBlocks_iff_threeRuns :
    (∃ s, run DeferBlockPromise.step anyStep DeferBlockPromise.init purgedThenDestroyed = some s ∧
      s.executed = [3, 2] ∧
      RunsBlocks (DeferBlockPromise.Ended purgedThenDestroyed) [2, 3] s.executed) ∧
    (∃ s, run VisitorVoid.step anyStep VisitorVoid.init purgedThenFinished = some s ∧
      RunsBlocks (.finish ∈ purgedThenFinished) [2, 3] s.executed) ∧
    ∃ s, run (Visitor.step (V := .alwaysResolves Nat) onValue) anyStep (Visitor.init ())
        retrievedOnce = some s ∧ s.obtained = [some (11 : Nat)] ∧
      VisitorRight (V := .alwaysResolves Nat) onValue () retrievedOnce := by
  obtain ⟨hpromise, hvoid, -⟩ := deferredBlocks_iff (V := .alwaysResolves Nat) adds ()
  obtain ⟨-, -, hvalue⟩ := deferredBlocks_iff (V := .alwaysResolves Nat) onValue ()
  refine ⟨⟨_, rfl, rfl, hpromise purgedThenDestroyed _ rfl⟩,
    ⟨_, rfl, hvoid purgedThenFinished _ rfl⟩, _, rfl, rfl, ?_⟩
  refine (hvalue retrievedOnce _ rfl).mpr fun hV => ?_
  cases hV

/-- The awaiter of a `visitor_promise<bool>` reads through a reference to a copy that is gone, also
without any block. -/
theorem visitorBool_dangles : ∃ s,
    run (Visitor.step (V := .bool) fun (_ : Unit) (x : Unit × Bool) => x) anyStep (Visitor.init ())
      [.body .resume, .finish true, .retrieve] = some s ∧ s.obtained = [none] ∧
    ¬ VisitorRight (V := .bool) (fun (_ : Unit) (x : Unit × Bool) => x) ()
      [.body .resume, .finish true, .retrieve] :=
  ⟨_, rfl, rfl, Visitor.not_visitorRight (s := _) rfl (by simp)⟩

end Zab.DeferBlock
