import Zab.Basic.Automaton
import Zab.Engine.StrongTypes
import Mathlib.Data.List.Nodup
import Mathlib.Data.List.Perm.Subperm
import Mathlib.Tactic.Common

set_option autoImplicit false

/-! # `first_of`

`first_of` pauses and starts, in order, one wrapper for each future. A wrapper awaits its future and
then takes the pointer to the `pause_pack` out of a shared atomic. The one that gets it stores its
result in the frame of `first_of` and unpauses it: the coroutine is dispatched to the thread of the
pack, which is the worker that runs `first_of`. A worker executes one handle of its queue after the
other, and the wrappers are started inside such a handle.

A future that completes while it is being started runs the rest of its wrapper on the stack of the
starter; the others complete on any thread at any later time.

The fields from `value` on record history and are read by no branch.
-/

namespace Zab.FirstOf

open Automaton

/-- A `std::variant`: the number of the alternative and the value; a `promise_void` has none. -/
structure Variant (α : Type) where
  index : Nat
  value : Option α
  deriving DecidableEq

/-- Where a wrapper is. -/
inductive Wrapper (α : Type) where
  | idle
  /-- Suspended in the `co_await` of its future. -/
  | running
  /-- Before the `exchange`, with the result of the future. -/
  | completed (a : α)
  /-- It got the pack, and has not stored its result. -/
  | storing (a : α)
  /-- Before `unpause`. -/
  | unpausing
  | done
  deriving DecidableEq

/-- A handle in the queue of a worker. -/
inductive Event where
  | resume
  | other
  deriving DecidableEq

structure State (α : Type) where
  /-- `thread_` of the pack. -/
  packThread : ThreadT
  /-- The shared pointer to the pack is not null. -/
  handle : Bool
  /-- How many wrappers have been started. -/
  started : Nat
  /-- The wrapper that runs on the stack of the starter. -/
  onStack : Option Nat
  wrapper : Nat → Wrapper α
  /-- The variable `result` of `first_of`, once it was assigned. -/
  result : Option (Variant α)
  /-- A worker is executing a handle. -/
  busy : ThreadT → Bool
  queue : ThreadT → List Event
  /-- What the futures returned. -/
  value : Nat → Option α
  exchanges : List Nat
  /-- Who got the pack. -/
  winners : List Nat
  unpauses : List Nat
  /-- The continuations of `first_of`: the thread, and the `result` that is returned. -/
  resumed : List (ThreadT × Option (Variant α))

/-- `first_of` has called `pause` on `worker`: the pack has its thread, and the loop begins. -/
def init (α : Type) (worker : ThreadT) : State α where
  packThread := worker
  handle := true
  started := 0
  onStack := none
  wrapper := fun _ => .idle
  result := none
  busy := fun t => decide (t = worker)
  queue := fun _ => []
  value := fun _ => none
  exchanges := []
  winners := []
  unpauses := []
  resumed := []

inductive Action (α : Type) where
  /-- Start the next wrapper; its future completes with `sync` or suspends. -/
  | start (sync : Option α)
  /-- A future that was suspended completes. -/
  | complete (i : Nat) (a : α)
  /-- The next step of wrapper `i`; `anyThread` is the answer of `get_any_thread`. -/
  | wrapper (i : Nat) (anyThread : ThreadT)
  /-- The handle that a worker executes returns. -/
  | handlerReturn (t : ThreadT)
  /-- Another handle is dispatched. -/
  | dispatch (t : ThreadT)
  /-- A worker executes the next handle. -/
  | execute (t : ThreadT)
  deriving DecidableEq

section

variable {α τ : Type} [DecidableEq τ]

/-- Assign the result of future `i` to the variant, by its type; `none` is `promise_void`. -/
def assign (types : List (Option τ)) (i : Nat) (a : α) : Variant α :=
  match types[i]? with
  | some (some type) => ⟨types.idxOf (some type), some a⟩
  | _ => ⟨types.idxOf none, none⟩

/-- Wrapper `i` returns, to the starter if it runs on its stack. -/
def State.return (s : State α) (i : Nat) : State α :=
  { s with
    wrapper := Function.update s.wrapper i .done
    onStack := if s.onStack = some i then none else s.onStack }

/-- `thread_resume`. -/
def State.threadResume (s : State α) (thread anyThread : ThreadT) : State α :=
  let thread := if thread = ThreadT.anyThread then anyThread else thread
  { s with queue := Function.update s.queue thread (s.queue thread ++ [.resume]) }

/-- The next step of wrapper `i`. -/
def State.advance (s : State α) (types : List (Option τ)) (i : Nat) (anyThread : ThreadT) :
    Option (State α) :=
  match s.wrapper i with
  | .completed a =>
      let s := { s with exchanges := s.exchanges ++ [i] }
      if s.handle then
        some { s with
          handle := false
          wrapper := Function.update s.wrapper i (.storing a)
          winners := s.winners ++ [i] }
      else some (s.return i)
  | .storing a =>
      some { s with
        result := some (assign types i a)
        wrapper := Function.update s.wrapper i .unpausing }
  | .unpausing =>
      some { (s.threadResume s.packThread anyThread).return i with unpauses := s.unpauses ++ [i] }
  | _ => none

/-- `first_of` of futures with the given types, on `worker`. -/
def step (types : List (Option τ)) (worker : ThreadT) (s : State α) : Action α → Option (State α)
  | .start sync =>
      if s.started < types.length ∧ s.onStack = none then
        match sync with
        | none =>
            some { s with
              started := s.started + 1
              wrapper := Function.update s.wrapper s.started .running }
        | some a =>
            some { s with
              started := s.started + 1
              onStack := some s.started
              wrapper := Function.update s.wrapper s.started (.completed a)
              value := Function.update s.value s.started (some a) }
      else none
  | .complete i a =>
      match s.wrapper i with
      | .running =>
          some { s with
            wrapper := Function.update s.wrapper i (.completed a)
            value := Function.update s.value i (some a) }
      | _ => none
  | .wrapper i anyThread => s.advance types i anyThread
  | .handlerReturn t =>
      -- the starter is part of the handle that `worker` executes
      if s.busy t ∧ (t = worker → s.started = types.length ∧ s.onStack = none) then
        some { s with busy := Function.update s.busy t false }
      else none
  | .dispatch t => some { s with queue := Function.update s.queue t (s.queue t ++ [.other]) }
  | .execute t =>
      match s.queue t with
      | e :: rest =>
          if s.busy t then none
          else
            some { s with
              queue := Function.update s.queue t rest
              busy := Function.update s.busy t true
              resumed := if e = .resume then s.resumed ++ [(t, s.result)] else s.resumed }
      | [] => none

/-- The states of all interleavings. -/
def Reachable (types : List (Option τ)) (worker : ThreadT) : State α → Prop :=
  Reaches (step types worker) anyStep (· = init α worker)

/-- The value of alternative `i` when future `i` has returned `a`. -/
def variantOf (types : List (Option τ)) (i : Nat) (a : α) : Variant α :=
  ⟨i, if types[i]? = some none then none else some a⟩

/-- What is known of wrapper `i`. -/
def WrapperInv (types : List (Option τ)) (exchanges : List Nat) (started : Nat)
    (result : Option (Variant α)) (i : Nat) (value : Option α) : Wrapper α → Prop
  | .idle => i ∉ exchanges ∧ started ≤ i
  | .running => i ∉ exchanges ∧ i < started
  | .completed a => i ∉ exchanges ∧ i < started ∧ value = some a
  | .storing a => exchanges.head? = some i ∧ i < started ∧ value = some a
  | .unpausing => exchanges.head? = some i ∧ i < started ∧
      ∃ a, value = some a ∧ result = some (variantOf types i a)
  | .done => i ∈ exchanges ∧ i < started ∧
      (exchanges.head? = some i → ∃ a, value = some a ∧ result = some (variantOf types i a))

structure Inv (types : List (Option τ)) (worker : ThreadT) (s : State α) : Prop where
  packThread : s.packThread = worker
  handle : s.handle = true ↔ s.exchanges = []
  winners : s.winners = s.exchanges.take 1
  distinct : s.exchanges.Nodup
  wrapper : ∀ i, WrapperInv types s.exchanges s.started s.result i (s.value i) (s.wrapper i)
  unpauses : ∀ i, i ∈ s.unpauses ↔ s.exchanges.head? = some i ∧ s.wrapper i = .done
  single : s.unpauses.Nodup
  resumes : s.resumed.length + (s.queue worker).count .resume = s.unpauses.length
  elsewhere : ∀ t, t ≠ worker → .resume ∉ s.queue t
  resumed : ∀ x ∈ s.resumed, x.1 = worker ∧ x.2 = s.result
  started : s.started ≤ types.length
  /-- The handle in which the wrappers are started returns after the loop. -/
  busy : s.busy worker = false ∨ s.resumed ≠ [] → s.started = types.length

section

variable {types : List (Option τ)} {worker : ThreadT} {s s' : State α}

theorem inv_init (types : List (Option τ)) (worker : ThreadT) :
    Inv types worker (init α worker) := by
  refine ⟨rfl, by simp [init], rfl, List.nodup_nil, fun i => ⟨by simp [init], Nat.zero_le i⟩,
    fun i => by simp [init], List.nodup_nil, rfl, fun t _ => by simp [init], by simp [init],
    Nat.zero_le _, ?_⟩
  simp [init]

/-- The types of the results are distinct, so the alternative is that of the future. -/
theorem assign_eq (hdistinct : types.Nodup) {i : Nat} (hi : i < types.length) (a : α) :
    assign types i a = variantOf types i a := by
  have hget : types[i]? = some types[i] := List.getElem?_eq_getElem hi
  have hindex : types.idxOf types[i] = i := hdistinct.idxOf_getElem i hi
  unfold assign variantOf
  cases htype : types[i] with
  | none =>
      rw [htype] at hget hindex
      simp [hget, hindex]
  | some type =>
      rw [htype] at hget hindex
      simp [hget, hindex]

/-- A wrapper other than `i` is not concerned by a step of `i`. -/
theorem WrapperInv.congr {exchanges exchanges' : List Nat} {started started' : Nat}
    {result result' : Option (Variant α)} {j : Nat} {value : Option α} {w : Wrapper α}
    (h : WrapperInv types exchanges started result j value w)
    (hmem : j ∈ exchanges' ↔ j ∈ exchanges)
    (hhead : exchanges'.head? = some j ↔ exchanges.head? = some j)
    (hlt : j < started' ↔ j < started)
    (hresult : exchanges.head? = some j → result' = result) :
    WrapperInv types exchanges' started' result' j value w := by
  cases w with
  | idle => exact ⟨fun hm => h.1 (hmem.mp hm), by have := h.2; omega⟩
  | running => exact ⟨fun hm => h.1 (hmem.mp hm), hlt.mpr h.2⟩
  | completed a => exact ⟨fun hm => h.1 (hmem.mp hm), hlt.mpr h.2.1, h.2.2⟩
  | storing a => exact ⟨hhead.mpr h.1, hlt.mpr h.2.1, h.2.2⟩
  | unpausing =>
      refine ⟨hhead.mpr h.1, hlt.mpr h.2.1, ?_⟩
      rw [hresult h.1]
      exact h.2.2
  | done =>
      refine ⟨hmem.mpr h.1, hlt.mpr h.2.1, fun hj => ?_⟩
      rw [hresult (hhead.mp hj)]
      exact h.2.2 (hhead.mp hj)

/-- A wrapper that has not been started has made no exchange. -/
theorem Inv.notExchanged (h : Inv types worker s) {i : Nat} (hi : s.started ≤ i) :
    i ∉ s.exchanges := by
  have hself := h.wrapper i
  cases hw : s.wrapper i with
  | idle =>
      rw [hw] at hself
      exact hself.1
  | running =>
      rw [hw] at hself
      exact absurd hi (Nat.not_le.mpr hself.2)
  | completed a | storing a | unpausing | done =>
      rw [hw] at hself
      exact absurd hi (Nat.not_le.mpr hself.2.1)

theorem Inv.start (h : Inv types worker s) (hlt : s.started < types.length) (w : Wrapper α)
    (value : Option α)
    (hw : WrapperInv types s.exchanges (s.started + 1) s.result s.started value w)
    (hdone : w ≠ .done) (onStack : Option Nat) :
    Inv types worker { s with
      started := s.started + 1
      onStack := onStack
      wrapper := Function.update s.wrapper s.started w
      value := Function.update s.value s.started value } := by
  refine { h with
    wrapper := fun j => ?_
    unpauses := fun j => ?_
    started := hlt
    busy := fun hb => ?_ }
  · show WrapperInv types s.exchanges (s.started + 1) s.result j (Function.update s.value _ _ j)
      (Function.update s.wrapper _ _ j)
    by_cases hj : j = s.started
    · rw [hj, Function.update_self, Function.update_self]
      exact hw
    · rw [Function.update_of_ne hj, Function.update_of_ne hj]
      exact (h.wrapper j).congr Iff.rfl Iff.rfl (by omega) fun _ => rfl
  · show _ ↔ _ ∧ Function.update s.wrapper _ _ j = .done
    rw [h.unpauses]
    by_cases hj : j = s.started
    · -- it was idle before
      have hidle : s.wrapper s.started ≠ .done := by
        intro hd
        have := h.wrapper s.started
        rw [hd] at this
        exact absurd this.2.1 (Nat.lt_irrefl _)
      rw [hj, Function.update_self]
      simp [hidle, hdone]
    · rw [Function.update_of_ne hj]
  · exact absurd (h.busy hb) (Nat.ne_of_lt hlt)

/-- Nothing is resumed before the winner has unpaused. -/
theorem Inv.notResumed (h : Inv types worker s) {i : Nat} (hfirst : s.exchanges.head? = some i)
    (hi : s.wrapper i ≠ .done) : s.resumed = [] := by
  have hnil : s.unpauses = [] := by
    refine List.eq_nil_iff_forall_not_mem.mpr fun j hj => ?_
    obtain ⟨hhead, hdone⟩ := (h.unpauses j).mp hj
    obtain rfl := Option.some.inj (hhead.symm.trans hfirst)
    exact hi hdone
  have hresumes := h.resumes
  rw [hnil, List.length_nil] at hresumes
  exact List.eq_nil_of_length_eq_zero (by omega)

/-- A wrapper that is not done takes a step in which it makes no exchange. -/
theorem Inv.setWrapper (h : Inv types worker s) {i : Nat} (w : Wrapper α) (value : Option α)
    (result : Option (Variant α)) (hi : s.wrapper i ≠ .done) (hw : w ≠ .done)
    (hinv : WrapperInv types s.exchanges s.started result i value w)
    (hresult : result = s.result ∨ s.exchanges.head? = some i) :
    Inv types worker { s with
      wrapper := Function.update s.wrapper i w
      value := Function.update s.value i value
      result := result } := by
  refine { h with
    wrapper := fun j => ?_
    unpauses := fun j => ?_
    resumed := fun x hx => ?_ }
  · show WrapperInv types s.exchanges s.started result j (Function.update s.value _ _ j)
      (Function.update s.wrapper _ _ j)
    by_cases hj : j = i
    · rw [hj, Function.update_self, Function.update_self]
      exact hinv
    · rw [Function.update_of_ne hj, Function.update_of_ne hj]
      refine (h.wrapper j).congr Iff.rfl Iff.rfl Iff.rfl fun hhead => ?_
      rcases hresult with hresult | hfirst
      · exact hresult
      · exact absurd (Option.some.inj (hhead.symm.trans hfirst)) hj
  · show _ ↔ _ ∧ Function.update s.wrapper _ _ j = .done
    rw [h.unpauses]
    by_cases hj : j = i
    · rw [hj, Function.update_self]
      simp [hi, hw]
    · rw [Function.update_of_ne hj]
  · rcases hresult with hresult | hfirst
    · rw [hresult]
      exact h.resumed x hx
    · rw [h.notResumed hfirst hi] at hx
      cases hx

/-- A wrapper takes the pack. -/
theorem Inv.win (h : Inv types worker s) {i : Nat} {a : α} (hi : s.wrapper i = .completed a)
    (hhandle : s.handle = true) :
    Inv types worker { s with
      exchanges := s.exchanges ++ [i]
      handle := false
      wrapper := Function.update s.wrapper i (.storing a)
      winners := s.winners ++ [i] } := by
  have hnil := h.handle.mp hhandle
  have hself := h.wrapper i
  rw [hi] at hself
  have hunpauses : s.unpauses = [] := by
    refine List.eq_nil_iff_forall_not_mem.mpr fun j hj => ?_
    have hhead := ((h.unpauses j).mp hj).1
    rw [hnil] at hhead
    cases hhead
  refine { h with
    handle := ?_
    winners := ?_
    distinct := ?_
    wrapper := fun j => ?_
    unpauses := fun j => ?_ }
  · simp
  · show s.winners ++ [i] = _
    rw [h.winners, hnil]
    rfl
  · rw [hnil]
    exact List.nodup_cons.mpr ⟨by simp, List.nodup_nil⟩
  · show WrapperInv types (s.exchanges ++ [i]) s.started s.result j (s.value j)
      (Function.update s.wrapper _ _ j)
    by_cases hj : j = i
    · rw [hj, Function.update_self, hnil]
      exact ⟨rfl, hself.2.1, hself.2.2⟩
    · rw [Function.update_of_ne hj]
      have hij : i ≠ j := Ne.symm hj
      refine (h.wrapper j).congr (by simp [hj]) ?_ Iff.rfl fun _ => rfl
      rw [hnil]
      simp [hij]
  · show j ∈ s.unpauses ↔ _ ∧ Function.update s.wrapper _ _ j = .done
    rw [hunpauses, hnil]
    by_cases hj : j = i
    · simp [hj]
    · simp [Ne.symm hj]

/-- A wrapper returns; `added` are the handles that it has dispatched to `worker`. -/
theorem Inv.done (h : Inv types worker s) {i : Nat} (hi : s.wrapper i ≠ .done)
    {exchanges unpauses : List Nat} {queue : ThreadT → List Event}
    (hmem : ∀ j, j ≠ i → (j ∈ exchanges ↔ j ∈ s.exchanges))
    (hhead : exchanges.head? = s.exchanges.head?) (hnil : exchanges = [] ↔ s.exchanges = [])
    (hwinners : exchanges.take 1 = s.exchanges.take 1) (hdistinct : exchanges.Nodup)
    (hinv : WrapperInv types exchanges s.started s.result i (s.value i) .done)
    (hunpauses : ∀ j, j ∈ unpauses ↔ j ∈ s.unpauses ∨ (j = i ∧ s.exchanges.head? = some i))
    (hsingle : unpauses.Nodup)
    (hresumes : s.resumed.length + (queue worker).count .resume = unpauses.length)
    (helsewhere : ∀ t, t ≠ worker → .resume ∉ queue t) (onStack : Option Nat) :
    Inv types worker { s with
      exchanges := exchanges
      wrapper := Function.update s.wrapper i .done
      onStack := onStack
      unpauses := unpauses
      queue := queue } := by
  refine { h with
    handle := h.handle.trans hnil.symm
    winners := h.winners.trans hwinners.symm
    distinct := hdistinct
    wrapper := fun j => ?_
    unpauses := fun j => ?_
    single := hsingle
    resumes := hresumes
    elsewhere := helsewhere }
  · show WrapperInv types exchanges s.started s.result j (s.value j)
      (Function.update s.wrapper _ _ j)
    by_cases hj : j = i
    · rw [hj, Function.update_self]
      exact hinv
    · rw [Function.update_of_ne hj]
      refine (h.wrapper j).congr (hmem j hj) ?_ Iff.rfl fun _ => rfl
      rw [hhead]
  · show j ∈ unpauses ↔ exchanges.head? = some j ∧ Function.update s.wrapper _ _ j = .done
    rw [hunpauses, h.unpauses, hhead]
    by_cases hj : j = i
    · rw [hj, Function.update_self]
      simp [hi]
    · rw [Function.update_of_ne hj]
      simp [hj]

theorem Inv.advance (h : Inv types worker s) (hdistinct : types.Nodup)
    (hworker : worker ≠ ThreadT.anyThread) {i : Nat} {anyThread : ThreadT}
    (hs : s.advance types i anyThread = some s') : Inv types worker s' := by
  have hself := h.wrapper i
  cases hi : s.wrapper i with
  | completed a =>
      simp only [State.advance, hi] at hs
      rw [hi] at hself
      by_cases hhandle : s.handle = true
      · rw [if_pos hhandle] at hs
        obtain rfl := Option.some.inj hs
        exact h.win hi hhandle
      · -- somebody was faster, and nothing but the exchange happens
        rw [if_neg hhandle] at hs
        obtain rfl := Option.some.inj hs
        have hne : s.exchanges ≠ [] := fun hnil => hhandle (h.handle.mpr hnil)
        obtain ⟨k, l, hkl⟩ := List.exists_cons_of_ne_nil hne
        have hik : i ≠ k := by
          rintro rfl
          exact hself.1 (by rw [hkl]; exact List.mem_cons_self ..)
        have hnothead : s.exchanges.head? ≠ some i := by
          rw [hkl]
          simpa using Ne.symm hik
        refine h.done (by simp [hi]) (fun j hj => by simp [hj]) (by simp [hkl]) (by simp [hne])
          (by simp [hkl]) ?_ ?_ (fun j => by simp [hnothead]) h.single h.resumes h.elsewhere _
        · rw [← List.concat_eq_append]
          exact List.Nodup.concat hself.1 h.distinct
        · refine ⟨by simp, hself.2.1, fun hhead => ?_⟩
          rw [hkl] at hhead
          exact absurd (Option.some.inj hhead).symm hik
  | storing a =>
      -- the winner stores its result in the alternative of its type
      simp only [State.advance, hi] at hs
      rw [hi] at hself
      obtain rfl := Option.some.inj hs
      have hi' : i < types.length := Nat.lt_of_lt_of_le hself.2.1 h.started
      have := h.setWrapper .unpausing (s.value i) (some (assign types i a)) (by simp [hi])
        (by simp) ⟨hself.1, hself.2.1, a, hself.2.2, by rw [assign_eq hdistinct hi']⟩
        (Or.inr hself.1)
      rwa [Function.update_eq_self] at this
  | unpausing =>
      -- the winner unpauses
      simp only [State.advance, hi] at hs
      rw [hi] at hself
      obtain rfl := Option.some.inj hs
      have hnotin : i ∉ s.unpauses := by
        rw [h.unpauses, hi]
        simp
      -- the pack names the worker
      have hqueue : ∀ t, ((s.threadResume s.packThread anyThread).return i).queue t
          = if t = worker then s.queue worker ++ [.resume] else s.queue t := by
        intro t
        unfold State.return State.threadResume
        rw [h.packThread, if_neg hworker]
        show Function.update s.queue worker _ t = _
        split_ifs with ht
        · rw [ht, Function.update_self]
        · exact Function.update_of_ne ht ..
      refine h.done (by simp [hi]) (fun j hj => Iff.rfl) rfl Iff.rfl rfl h.distinct ?_
        (fun j => ?_) ?_ ?_ (fun t ht => ?_) _
      · refine ⟨List.mem_of_mem_head? hself.1, hself.2.1, fun _ => hself.2.2⟩
      · rw [List.mem_append, List.mem_singleton]
        simp [hself.1]
      · rw [← List.concat_eq_append]
        exact List.Nodup.concat hnotin h.single
      · have := h.resumes
        rw [hqueue, if_pos rfl, List.count_append, List.length_append, List.count_singleton_self,
          List.length_singleton]
        omega
      · rw [hqueue, if_neg ht]
        exact h.elsewhere t ht
  | _ => simp [State.advance, hi] at hs

/-! ## All runs -/

theorem Inv.execute (h : Inv types worker s) {t : ThreadT} {e : Event} {rest : List Event}
    (ht : s.queue t = e :: rest) (hidle : s.busy t = false) :
    Inv types worker { s with
      queue := Function.update s.queue t rest
      busy := Function.update s.busy t true
      resumed := if e = .resume then s.resumed ++ [(t, s.result)] else s.resumed } := by
  have hother : ∀ t', t' ≠ t → Function.update s.queue t rest t' = s.queue t' :=
    fun t' ht' => Function.update_of_ne ht' ..
  by_cases he : e = .resume
  · -- only `worker` has the continuation in its queue
    have hworker : t = worker := by
      by_contra hne
      exact h.elsewhere t hne (by rw [ht, he]; exact List.mem_cons_self ..)
    subst hworker
    rw [if_pos he]
    refine { h with
      resumes := ?_
      elsewhere := fun t' ht' => ?_
      resumed := fun x hx => ?_
      busy := fun _ => h.busy (Or.inl hidle) }
    · have := h.resumes
      rw [ht, he, List.count_cons_self] at this
      show (s.resumed ++ [_]).length + (Function.update s.queue t rest t).count .resume
        = s.unpauses.length
      rw [Function.update_self, List.length_append, List.length_singleton]
      omega
    · show _ ∉ Function.update s.queue t rest t'
      rw [hother t' ht']
      exact h.elsewhere t' ht'
    · rcases List.mem_append.mp hx with hx | hx
      · exact h.resumed x hx
      · rw [List.mem_singleton.mp hx]
        exact ⟨rfl, rfl⟩
  · -- the continuation keeps its place
    rw [if_neg he]
    refine { h with
      resumes := ?_
      elsewhere := fun t' ht' => ?_
      busy := fun hb => ?_ }
    · show _ + (Function.update s.queue t rest worker).count .resume = _
      by_cases hw : worker = t
      · have := h.resumes
        rw [hw, ht, List.count_cons_of_ne (by simpa using he)] at this
        rw [hw, Function.update_self]
        exact this
      · rw [hother worker hw]
        exact h.resumes
    · show _ ∉ Function.update s.queue t rest t'
      by_cases hw : t' = t
      · have := h.elsewhere t' ht'
        rw [hw, ht] at this
        rw [hw, Function.update_self]
        exact fun hmem => this (List.mem_cons_of_mem _ hmem)
      · rw [hother t' hw]
        exact h.elsewhere t' ht'
    · rcases hb with hb | hb
      · have hb' : Function.update s.busy t true worker = false := hb
        by_cases hw : worker = t
        · rw [hw, Function.update_self] at hb'
          cases hb'
        · rw [Function.update_of_ne hw] at hb'
          exact h.busy (Or.inl hb')
      · exact h.busy (Or.inr hb)

theorem Inv.step (h : Inv types worker s) (hdistinct : types.Nodup)
    (hworker : worker ≠ ThreadT.anyThread) {a : Action α}
    (hs : step types worker s a = some s') : Inv types worker s' := by
  cases a with
  | start sync =>
      simp only [FirstOf.step] at hs
      split_ifs at hs with hok
      have hfresh := h.notExchanged (Nat.le_refl s.started)
      cases sync with
      | none =>
          obtain rfl := Option.some.inj hs
          have := h.start hok.1 .running (s.value s.started) ⟨hfresh, Nat.lt_succ_self _⟩ (by simp)
            s.onStack
          rwa [Function.update_eq_self] at this
      | some a =>
          obtain rfl := Option.some.inj hs
          exact h.start hok.1 (.completed a) (some a) ⟨hfresh, Nat.lt_succ_self _, rfl⟩ (by simp) _
  | complete i a =>
      simp only [FirstOf.step] at hs
      split at hs
      case h_1 hi =>
        obtain rfl := Option.some.inj hs
        have hself := h.wrapper i
        rw [hi] at hself
        exact h.setWrapper (.completed a) (some a) s.result (by simp [hi]) (by simp)
          ⟨hself.1, hself.2, rfl⟩ (Or.inl rfl)
      case h_2 => cases hs
  | wrapper i anyThread => exact h.advance hdistinct hworker hs
  | handlerReturn t =>
      simp only [FirstOf.step] at hs
      split_ifs at hs with hok
      obtain rfl := Option.some.inj hs
      refine { h with
        busy := fun hb => ?_ }
      rcases hb with hb | hb
      · by_cases hw : worker = t
        · -- the loop that starts the wrappers is over
          exact (hok.2 hw.symm).1
        · have hb' : Function.update s.busy t false worker = false := hb
          rw [Function.update_of_ne hw] at hb'
          exact h.busy (Or.inl hb')
      · exact h.busy (Or.inr hb)
  | dispatch t =>
      obtain rfl := Option.some.inj hs
      have hqueue : ∀ t', Function.update s.queue t (s.queue t ++ [.other]) t'
          = if t' = t then s.queue t ++ [.other] else s.queue t' := by
        intro t'
        split_ifs with ht
        · rw [ht, Function.update_self]
        · exact Function.update_of_ne ht ..
      refine { h with
        resumes := ?_
        elsewhere := fun t' ht' => ?_ }
      · show _ + (Function.update s.queue t _ worker).count .resume = _
        rw [hqueue, ← h.resumes]
        split_ifs with ht
        · rw [ht]
          simp
        · rfl
      · show _ ∉ Function.update s.queue t _ t'
        rw [hqueue]
        split_ifs with ht
        · have := h.elsewhere t' ht'
          rw [ht] at this
          simpa using this
        · exact h.elsewhere t' ht'
  | execute t =>
      simp only [FirstOf.step] at hs
      split at hs
      case h_1 e rest ht =>
        by_cases hidle : s.busy t = true
        · rw [if_pos hidle] at hs
          cases hs
        · rw [if_neg hidle] at hs
          obtain rfl := Option.some.inj hs
          exact h.execute ht (by simpa using hidle)
      case h_2 => cases hs

theorem Reachable.inv (h : Reachable types worker s) (hdistinct : types.Nodup)
    (hworker : worker ≠ ThreadT.anyThread) : Inv types worker s := by
  refine Reaches.invariant h ?_ fun s a s' _ hi _ hs => hi.step hdistinct hworker hs
  rintro s rfl
  exact inv_init types worker

/-! ## One winner -/

end

end

end Zab.FirstOf
