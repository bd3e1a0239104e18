import Zab.Basic.Automaton
import Mathlib.Data.List.Perm.Basic
import Mathlib.Data.List.Nodup
import Mathlib.Tactic.Common

set_option autoImplicit false

/-! # `event_loop::run`

An operation prepares an entry of the submission queue that carries a pointer to the caller's
`io_event`, or, if the queue is full, stores `-ENOMEM` in the `io_event` and executes it at once.
The loop takes completions in batches: it stores the results of a whole batch, then executes the
`io_event`s of the batch, then submits what the handlers have prepared. It sleeps when there are
no completions.

Handlers are arbitrary: while one runs it starts operations, and one that is executed inside
another runs to its end first, so that `depth` of them are running. The kernel takes whatever is
submitted and posts one completion for each entry, at any time and in any order.

An `io_event` is an address that can be used again once it has been executed; the operations
themselves are numbered in the order in which they are started. The numbers, and the fields
`started`, `posted` and `executed` of the state, record history and are read by no branch.
-/

namespace Zab.EventLoop

open Automaton

/-- The address of an `io_event`. -/
abbrev IoEvent := Nat

def ENOMEM : Int := 12

/-- `kMaxBatch`. -/
def kMaxBatch : Nat := 16

/-- What an entry asks for: an io operation, or to cancel the one with the given `io_event`. -/
inductive Request where
  | io
  | cancel (key : IoEvent)
  deriving DecidableEq

/-- An entry of the submission queue, for operation number `id`. -/
structure Entry where
  id : Nat
  event : IoEvent
  request : Request
  deriving DecidableEq

/-- A completion: its entry, and `res`. -/
structure Completion where
  entry : Entry
  res : Int
  deriving DecidableEq

/-- An `io_event` was executed with the given `result_`: for a completion, or because the queue was
full. -/
structure Execution where
  id : Nat
  result : Int
  completed : Bool
  deriving DecidableEq

/-- Where the loop is, when no handler runs. -/
inductive Pc where
  /-- In `run_user_space`, before the first `io_uring_submit`. -/
  | userSpace
  /-- In `io_uring_wait_cqe`. -/
  | wait
  /-- Before `io_uring_peek_batch_cqe`. -/
  | peek
  /-- Executing a batch. -/
  | execute
  | stopped
  deriving DecidableEq

structure State where
  /-- Prepared entries. -/
  sq : List Entry
  /-- Submitted entries that are not complete. -/
  kernel : List Entry
  /-- The completion queue. -/
  cq : List Completion
  /-- The rest of `to_resume`; the loop itself keeps the `io_event`s only. -/
  toResume : List Completion
  /-- The field `result_` of every `io_event`. -/
  result : IoEvent → Int
  /-- Which `io_event`s belong to an operation that has not been executed. -/
  live : IoEvent → Bool
  /-- How many handlers are running. -/
  depth : Nat
  pc : Pc
  /-- How many operations were started. -/
  started : Nat
  /-- What the kernel has posted. -/
  posted : List (Nat × Int)
  executed : List Execution

/-- The call of `run`: `run_user_space` runs as the first handler. -/
def init : State where
  sq := []
  kernel := []
  cq := []
  toResume := []
  result := fun _ => 0
  live := fun _ => false
  depth := 1
  pc := .userSpace
  started := 0
  posted := []
  executed := []

/-- `do_op` and `cancel_event`, in a submission queue of `capacity` entries. -/
def State.doOp (s : State) (capacity : Nat) (event : IoEvent) (request : Request) : State :=
  if s.sq.length < capacity then
    { s with
      sq := s.sq ++ [⟨s.started, event, request⟩]
      live := Function.update s.live event true
      started := s.started + 1 }
  else
    let result := Function.update s.result event (-ENOMEM)
    { s with
      result := result
      depth := s.depth + 1
      started := s.started + 1
      executed := s.executed ++ [⟨s.started, result event, false⟩] }

/-- `io_uring_submit`. -/
def State.submit (s : State) : State := { s with sq := [], kernel := s.kernel ++ s.sq }

/-- Store the results of a batch. -/
def storeResults (result : IoEvent → Int) (batch : List Completion) : IoEvent → Int :=
  batch.foldl (fun r c => Function.update r c.entry.event c.res) result

inductive Action where
  /-- The running handler starts an operation. -/
  | start (event : IoEvent) (request : Request)
  /-- The running handler returns or suspends. -/
  | handlerReturn
  /-- The kernel completes the entry at position `i` of those it has. -/
  | post (i : Nat) (res : Int)
  /-- The next step of the loop; a peek takes `amount` completions. -/
  | loop (amount : Nat)
  /-- A stop is requested. -/
  | stop
  deriving DecidableEq

/-- The next step of the loop itself. -/
def State.loop (s : State) (amount : Nat) : Option State :=
  match s.pc with
  | .userSpace => some { s.submit with pc := .wait }
  | .wait => if s.cq = [] then none else some { s with pc := .peek }
  | .peek =>
      if s.cq = [] then some { s with pc := .wait }
      else if 1 ≤ amount ∧ amount ≤ kMaxBatch ∧ amount ≤ s.cq.length then
        some { s with
          result := storeResults s.result (s.cq.take amount)
          cq := s.cq.drop amount
          toResume := s.cq.take amount
          pc := .execute }
      else none
  | .execute =>
      match s.toResume with
      | c :: rest =>
          some { s with
            toResume := rest
            live := Function.update s.live c.entry.event false
            depth := 1
            executed := s.executed ++ [⟨c.entry.id, s.result c.entry.event, true⟩] }
      | [] => some { s.submit with pc := .peek }
  | .stopped => none

/-- Handlers use an `io_event` for one operation at a time. -/
def step (capacity : Nat) (s : State) : Action → Option State
  | .start event request =>
      if 0 < s.depth ∧ s.live event = false then some (s.doOp capacity event request) else none
  | .handlerReturn => if 0 < s.depth then some { s with depth := s.depth - 1 } else none
  | .post i res =>
      (s.kernel[i]?).map fun e =>
        { s with
          kernel := s.kernel.eraseIdx i
          cq := s.cq ++ [⟨e, res⟩]
          posted := s.posted ++ [(e.id, res)] }
  | .loop amount => if s.depth = 0 then s.loop amount else none
  | .stop => if s.depth = 0 ∧ s.pc = .wait then some { s with pc := .stopped } else none

/-- The states of all runs. -/
def Reachable (capacity : Nat) : State → Prop := Reaches (step capacity) anyStep (· = init)

/-- The entries of all operations that were not executed. -/
def State.outstanding (s : State) : List Entry :=
  s.sq ++ (s.kernel ++ (s.cq.map Completion.entry ++ s.toResume.map Completion.entry))

/-- **Every operation once.** -/
structure EachOnce (s : State) : Prop where
  /-- Every operation is outstanding, once, or was executed, once. -/
  once : (List.range s.started).Perm (s.outstanding.map Entry.id ++ s.executed.map Execution.id)
  /-- What the queue had no room for was executed with `-ENOMEM`. -/
  failed : ∀ x ∈ s.executed, x.completed = false → x.result = -ENOMEM
  /-- The others were executed in the order of the completion queue, each with the result of its
  own completion. -/
  order : ∃ rest, s.posted
    = (s.executed.filter Execution.completed).map (fun x => (x.id, x.result)) ++ rest
  /-- Nothing is prepared while the loop sleeps. -/
  sleeps : s.pc = .wait → s.sq = []

/-! ## The invariant -/

/-- The number and the result of a completion. -/
def Completion.pair (c : Completion) : Nat × Int := (c.entry.id, c.res)

/-- The completions that were executed. -/
def State.done (s : State) : List (Nat × Int) :=
  (s.executed.filter Execution.completed).map fun x => (x.id, x.result)

structure Inv (s : State) : Prop where
  once : (List.range s.started).Perm (s.outstanding.map Entry.id ++ s.executed.map Execution.id)
  /-- No two operations use one `io_event`. -/
  distinct : (s.outstanding.map Entry.event).Nodup
  live : ∀ e ∈ s.outstanding, s.live e.event = true
  /-- The results of the batch are stored until its `io_event`s are executed. -/
  stored : ∀ c ∈ s.toResume, s.result c.entry.event = c.res
  order : s.posted = s.done ++ (s.toResume.map Completion.pair ++ s.cq.map Completion.pair)
  failed : ∀ x ∈ s.executed, x.completed = false → x.result = -ENOMEM
  /-- Between a submission and the next handler nothing is prepared. -/
  submitted : s.pc = .wait ∨ s.pc = .peek ∨ s.pc = .stopped → s.sq = [] ∧ s.depth = 0
  batch : s.pc ≠ .execute → s.toResume = []

section

variable {s s' : State} {capacity : Nat}

/-- Entries that only change their place. -/
theorem Inv.moved (h : Inv s) (hperm : s'.outstanding.Perm s.outstanding)
    (hstarted : s'.started = s.started) (hexecuted : s'.executed = s.executed)
    (hlive : s'.live = s.live) :
    (List.range s'.started).Perm (s'.outstanding.map Entry.id ++ s'.executed.map Execution.id) ∧
      (s'.outstanding.map Entry.event).Nodup ∧ ∀ e ∈ s'.outstanding, s'.live e.event = true := by
  rw [hstarted, hexecuted, hlive]
  refine ⟨h.once.trans ((hperm.map _).symm.append_right _), ?_, fun e he => ?_⟩
  · exact (hperm.map _).nodup_iff.mpr h.distinct
  · exact h.live e (hperm.mem_iff.mp he)

theorem submit_outstanding (s : State) : s.submit.outstanding.Perm s.outstanding := by
  show ([] ++ ((s.kernel ++ s.sq) ++ _)).Perm (s.sq ++ (s.kernel ++ _))
  rw [List.nil_append, ← List.append_assoc s.sq]
  exact List.perm_append_comm.append_right _

theorem Inv.submit (h : Inv s) (hdepth : s.depth = 0) (hbatch : s.toResume = []) (q : Pc) :
    Inv { s.submit with pc := q } := by
  obtain ⟨honce, hdistinct, hlive⟩ := h.moved (submit_outstanding s) rfl rfl rfl
  exact ⟨honce, hdistinct, hlive, h.stored, h.order, h.failed, fun _ => ⟨rfl, hdepth⟩,
    fun _ => hbatch⟩

/-- A step of the loop that moves nothing. -/
theorem Inv.goto (h : Inv s) {q : Pc} (hsq : s.sq = []) (hdepth : s.depth = 0)
    (hbatch : s.toResume = []) : Inv { s with pc := q } :=
  ⟨h.once, h.distinct, h.live, h.stored, h.order, h.failed, fun _ => ⟨hsq, hdepth⟩,
    fun _ => hbatch⟩

theorem Inv.prepare (h : Inv s) (hdepth : 0 < s.depth) {event : IoEvent} (request : Request)
    (hevent : s.live event = false) :
    Inv { s with
      sq := s.sq ++ [⟨s.started, event, request⟩]
      live := Function.update s.live event true
      started := s.started + 1 } := by
  have hperm : ({ s with
      sq := s.sq ++ [⟨s.started, event, request⟩]
      live := Function.update s.live event true
      started := s.started + 1 } : State).outstanding.Perm
        (⟨s.started, event, request⟩ :: s.outstanding) := by
    show ((s.sq ++ [_]) ++ _).Perm _
    rw [List.append_assoc]
    exact List.perm_middle
  -- the `io_event` belongs to no other operation
  have hnew : event ∉ s.outstanding.map Entry.event := by
    intro hmem
    obtain ⟨e, he, rfl⟩ := List.mem_map.mp hmem
    rw [h.live e he] at hevent
    cases hevent
  refine ⟨?_, ?_, ?_, h.stored, h.order, h.failed, fun hpc => ?_, h.batch⟩
  · rw [List.range_succ]
    refine List.Perm.trans ?_ ((hperm.map Entry.id).symm.append_right _)
    refine (List.perm_append_singleton _ _).trans ?_
    exact h.once.cons _
  · refine (hperm.map _).nodup_iff.mpr ?_
    exact List.nodup_cons.mpr ⟨hnew, h.distinct⟩
  · intro e he
    rcases List.mem_cons.mp (hperm.mem_iff.mp he) with rfl | he
    · exact Function.update_self ..
    · have hne : e.event ≠ event := fun heq => hnew (heq ▸ List.mem_map_of_mem he)
      exact (Function.update_of_ne hne ..).trans (h.live e he)
  · have := (h.submitted hpc).2
    omega

/-- The queue is full. -/
theorem Inv.refuse (h : Inv s) (hdepth : 0 < s.depth) {event : IoEvent}
    (hevent : s.live event = false) :
    Inv { s with
      result := Function.update s.result event (-ENOMEM)
      depth := s.depth + 1
      started := s.started + 1
      executed := s.executed
        ++ [⟨s.started, Function.update s.result event (-ENOMEM) event, false⟩] } := by
  refine ⟨?_, h.distinct, h.live, ?_, ?_, ?_, fun hpc => ?_, h.batch⟩
  · rw [List.range_succ, List.map_append, ← List.append_assoc]
    exact h.once.append_right _
  · -- the batch keeps its results: the refused `io_event` is in use by nobody
    intro c hc
    have hmem : c.entry ∈ s.outstanding := by
      simp only [State.outstanding, List.mem_append, List.mem_map]
      exact Or.inr (Or.inr (Or.inr ⟨c, hc, rfl⟩))
    have hne : c.entry.event ≠ event := by
      intro heq
      rw [← heq, h.live _ hmem] at hevent
      cases hevent
    exact (Function.update_of_ne hne ..).trans (h.stored c hc)
  · rw [h.order]
    simp only [State.done, List.filter_append, List.map_append]
    simp
  · intro x hx hx'
    rcases List.mem_append.mp hx with hx | hx
    · exact h.failed x hx hx'
    · rw [List.mem_singleton.mp hx]
      exact Function.update_self ..
  · have := (h.submitted hpc).2
    omega

/-- The kernel completes an entry. -/
theorem Inv.post (h : Inv s) {i : Nat} {e : Entry} (he : s.kernel[i]? = some e) (res : Int) :
    Inv { s with
      kernel := s.kernel.eraseIdx i
      cq := s.cq ++ [⟨e, res⟩]
      posted := s.posted ++ [(e.id, res)] } := by
  obtain ⟨hi, hget⟩ := List.getElem?_eq_some_iff.mp he
  have hkernel : (e :: s.kernel.eraseIdx i).Perm s.kernel := by
    rw [← hget]
    exact List.getElem_cons_eraseIdx_perm hi
  have hperm : ({ s with
      kernel := s.kernel.eraseIdx i
      cq := s.cq ++ [⟨e, res⟩]
      posted := s.posted ++ [(e.id, res)] } : State).outstanding.Perm s.outstanding := by
    show (s.sq ++ (s.kernel.eraseIdx i
      ++ ((s.cq ++ [(⟨e, res⟩ : Completion)]).map Completion.entry ++ _))).Perm
        (s.sq ++ (s.kernel ++ (s.cq.map Completion.entry ++ _)))
    refine List.Perm.append_left _ ?_
    rw [List.map_append, List.map_singleton, List.append_assoc, ← List.append_assoc]
    refine List.perm_middle.trans ?_
    rw [List.append_assoc, ← List.cons_append]
    exact hkernel.append_right _
  obtain ⟨honce, hdistinct, hlive⟩ := h.moved hperm rfl rfl rfl
  refine ⟨honce, hdistinct, hlive, h.stored, ?_, h.failed, h.submitted, h.batch⟩
  show s.posted ++ [_] = s.done ++ (_ ++ (s.cq ++ [_]).map Completion.pair)
  rw [h.order, List.map_append, List.append_assoc, List.append_assoc]
  rfl

/-- A batch writes to its own `io_event`s only. -/
theorem storeResults_of_notMem {batch : List Completion} {event : IoEvent}
    (hevent : event ∉ batch.map fun c => c.entry.event) (result : IoEvent → Int) :
    storeResults result batch event = result event := by
  induction batch generalizing result with
  | nil => rfl
  | cons b batch ih =>
      rw [List.map_cons, List.mem_cons, not_or] at hevent
      calc
        storeResults result (b :: batch) event
            = storeResults (Function.update result b.entry.event b.res) batch event := rfl
        _ = Function.update result b.entry.event b.res event := ih hevent.2 _
        _ = result event := Function.update_of_ne hevent.1 ..

/-- The results of a batch are stored, each in its own `io_event`. -/
theorem storeResults_of_mem {batch : List Completion} {c : Completion} (hc : c ∈ batch)
    (hnodup : (batch.map fun c => c.entry.event).Nodup) (result : IoEvent → Int) :
    storeResults result batch c.entry.event = c.res := by
  induction batch generalizing result with
  | nil => cases hc
  | cons b batch ih =>
      obtain ⟨hb, hnodup⟩ := List.nodup_cons.mp hnodup
      show storeResults (Function.update result b.entry.event b.res) batch c.entry.event = c.res
      rcases List.mem_cons.mp hc with rfl | hc
      · -- nothing later in the batch writes to it
        rw [storeResults_of_notMem hb]
        exact Function.update_self ..
      · exact ih hc hnodup _

/-- The loop takes a batch. -/
theorem Inv.peek (h : Inv s) (hpc : s.pc = .peek) (amount : Nat) :
    Inv { s with
      result := storeResults s.result (s.cq.take amount)
      cq := s.cq.drop amount
      toResume := s.cq.take amount
      pc := .execute } := by
  have hempty : s.toResume = [] := h.batch (by rw [hpc]; decide)
  have hperm : ({ s with
      result := storeResults s.result (s.cq.take amount)
      cq := s.cq.drop amount
      toResume := s.cq.take amount
      pc := .execute } : State).outstanding.Perm s.outstanding := by
    show (s.sq ++ (s.kernel ++ ((s.cq.drop amount).map Completion.entry
      ++ (s.cq.take amount).map Completion.entry))).Perm _
    rw [State.outstanding, hempty, List.map_nil, List.append_nil]
    refine ((List.Perm.append_left _) ?_).append_left _
    refine List.perm_append_comm.trans ?_
    rw [← List.map_append, List.take_append_drop]
  obtain ⟨honce, hdistinct, hlive⟩ := h.moved hperm rfl rfl rfl
  refine ⟨honce, hdistinct, hlive, fun c hc => ?_, ?_, h.failed, ?_, fun hne => absurd rfl hne⟩
  · -- the entries of the queue, hence of the batch, have different `io_event`s
    refine storeResults_of_mem hc ?_ _
    have hcq : ((s.cq.map Completion.entry).map Entry.event).Nodup := by
      have hall := h.distinct
      simp only [State.outstanding, List.map_append] at hall
      exact (List.nodup_append.mp (List.nodup_append.mp (List.nodup_append.mp hall).2.1).2.1).1
    rw [List.map_map] at hcq
    exact hcq.sublist ((List.take_sublist amount s.cq).map _)
  · show s.posted = s.done ++ ((s.cq.take amount).map Completion.pair
      ++ (s.cq.drop amount).map Completion.pair)
    rw [← List.map_append, List.take_append_drop, h.order, hempty]
    rfl
  · rintro (hq | hq | hq) <;> cases hq

/-- The loop executes the next `io_event` of the batch. -/
theorem Inv.execute (h : Inv s) (hpc : s.pc = .execute) {c : Completion} {rest : List Completion}
    (hbatch : s.toResume = c :: rest) :
    Inv { s with
      toResume := rest
      live := Function.update s.live c.entry.event false
      depth := 1
      executed := s.executed ++ [⟨c.entry.id, s.result c.entry.event, true⟩] } := by
  have hperm : s.outstanding.Perm (c.entry :: ({ s with
      toResume := rest
      live := Function.update s.live c.entry.event false
      depth := 1
      executed := s.executed ++ [⟨c.entry.id, s.result c.entry.event, true⟩] } :
        State).outstanding) := by
    rw [State.outstanding, hbatch, List.map_cons]
    simp only [State.outstanding]
    rw [← List.append_assoc, ← List.append_assoc, ← List.append_assoc, ← List.append_assoc]
    exact List.perm_middle
  have hdistinct := (hperm.map Entry.event).nodup_iff.mp h.distinct
  obtain ⟨hgone, hdistinct⟩ := List.nodup_cons.mp hdistinct
  have hres : s.result c.entry.event = c.res := h.stored c (by rw [hbatch]; simp)
  refine ⟨?_, hdistinct, fun e he => ?_, fun d hd => ?_, ?_, ?_, ?_, fun hne => absurd hpc hne⟩
  · refine h.once.trans ?_
    refine ((hperm.map Entry.id).append_right _).trans ?_
    rw [List.map_append, List.map_singleton, ← List.append_assoc, List.map_cons]
    exact (List.perm_append_singleton _ _).symm
  · have hne : e.event ≠ c.entry.event := fun heq => hgone (heq ▸ List.mem_map_of_mem he)
    exact (Function.update_of_ne hne ..).trans
      (h.live e (hperm.mem_iff.mpr (List.mem_cons_of_mem _ he)))
  · exact h.stored d (by rw [hbatch]; exact List.mem_cons_of_mem _ hd)
  · rw [h.order, hbatch, hres]
    simp only [State.done, List.filter_append, List.map_append, List.map_cons, List.append_assoc,
      List.cons_append]
    simp [Completion.pair]
  · intro x hx hx'
    rcases List.mem_append.mp hx with hx | hx
    · exact h.failed x hx hx'
    · rw [List.mem_singleton.mp hx] at hx'
      cases hx'
  · intro hq
    rw [show s.pc = .execute from hpc] at hq
    simp at hq

theorem Inv.loop (h : Inv s) (hdepth : s.depth = 0) {amount : Nat}
    (hs : s.loop amount = some s') : Inv s' := by
  cases hpc : s.pc with
  | userSpace =>
      -- the first submission
      simp only [State.loop, hpc] at hs
      obtain rfl := Option.some.inj hs
      exact h.submit hdepth (h.batch (by rw [hpc]; decide)) _
  | wait =>
      -- asleep until there is a completion
      simp only [State.loop, hpc] at hs
      by_cases hcq : s.cq = []
      · rw [if_pos hcq] at hs
        cases hs
      · rw [if_neg hcq] at hs
        obtain rfl := Option.some.inj hs
        exact h.goto (h.submitted (Or.inl hpc)).1 hdepth (h.batch (by rw [hpc]; decide))
  | peek =>
      -- without completions the loop goes to sleep, and everything is submitted
      simp only [State.loop, hpc] at hs
      by_cases hcq : s.cq = []
      · rw [if_pos hcq] at hs
        obtain rfl := Option.some.inj hs
        exact h.goto (h.submitted (Or.inr (Or.inl hpc))).1 hdepth
          (h.batch (by rw [hpc]; decide))
      · rw [if_neg hcq] at hs
        split_ifs at hs with hamount
        obtain rfl := Option.some.inj hs
        exact h.peek hpc amount
  | execute =>
      cases hbatch : s.toResume with
      | cons c rest =>
          simp only [State.loop, hpc, hbatch] at hs
          obtain rfl := Option.some.inj hs
          rw [← hpc]
          exact h.execute hpc hbatch
      | nil =>
          -- the end of the batch: submit what its handlers have prepared
          simp only [State.loop, hpc, hbatch] at hs
          obtain rfl := Option.some.inj hs
          exact h.submit hdepth hbatch _
  | stopped => simp [State.loop, hpc] at hs

theorem Inv.step (h : Inv s) {a : Action} (hs : step capacity s a = some s') : Inv s' := by
  cases a with
  | start event request =>
      simp only [EventLoop.step] at hs
      split_ifs at hs with hok
      obtain rfl := Option.some.inj hs
      unfold State.doOp
      split_ifs
      · exact h.prepare hok.1 request hok.2
      · exact h.refuse hok.1 hok.2
  | handlerReturn =>
      simp only [EventLoop.step] at hs
      split_ifs at hs with hdepth
      obtain rfl := Option.some.inj hs
      refine ⟨h.once, h.distinct, h.live, h.stored, h.order, h.failed, fun hpc => ?_, h.batch⟩
      -- no handler runs while the loop waits
      have := (h.submitted hpc).2
      omega
  | post i res =>
      obtain ⟨e, he, rfl⟩ := Option.map_eq_some_iff.mp hs
      exact h.post he res
  | loop amount =>
      simp only [EventLoop.step] at hs
      split_ifs at hs with hdepth
      exact h.loop hdepth hs
  | stop =>
      simp only [EventLoop.step] at hs
      split_ifs at hs with hok
      obtain rfl := Option.some.inj hs
      exact h.goto (h.submitted (Or.inl hok.2)).1 hok.1 (h.batch (by rw [hok.2]; decide))

theorem inv_init : Inv init := by
  refine ⟨List.Perm.refl _, List.nodup_nil, ?_, ?_, rfl, ?_, ?_, fun _ => rfl⟩
  · intro e he
    cases he
  · intro c hc
    cases hc
  · intro x hx
    cases hx
  · rintro (h | h | h) <;> cases h

theorem Reachable.inv (h : Reachable capacity s) : Inv s := by
  refine Reaches.invariant h ?_ fun s a s' _ hi _ hs => hi.step hs
  rintro s rfl
  exact inv_init

/-! ## Every operation once -/

/-- **In every run, for a queue of any capacity, every operation that was started is outstanding
or was executed, and executed once**: with `-ENOMEM` if the queue was full, and otherwise with the
result of its own completion, in the order of the completion queue, however the completions are
split into batches. The loop never sleeps on prepared entries. -/
theorem eventLoop_eachOnce (h : Reachable capacity s) : EachOnce s := by
  have hi := h.inv
  exact ⟨hi.once, hi.failed, ⟨_, hi.order⟩, fun hpc => (hi.submitted (Or.inl hpc)).1⟩

end

/-- With room for two entries: a handler starts three operations, and the third one fails. The
other two complete in the other order and are one batch; the handler of the first of them starts
a new operation with its own `io_event`. -/
def threeOperations : List Action :=
  [.start 1 .io, .start 2 (.cancel 1), .start 3 .io, .handlerReturn, .handlerReturn, .loop 0,
    .post 1 0, .post 0 (-125), .loop 0, .loop 2, .loop 0, .start 2 .io, .handlerReturn, .loop 0,
    .handlerReturn, .loop 0, .loop 0]

theorem eventLoop_eachOnce_threeOperations :
    ∃ s, run (step 2) anyStep init threeOperations = some s ∧
      s.executed = [⟨2, -12, false⟩, ⟨1, 0, true⟩, ⟨0, -125, true⟩] ∧ s.pc = .wait ∧
      EachOnce s := by
  have hrun : (run (step 2) anyStep init threeOperations).isSome = true := by decide
  obtain ⟨s, hs⟩ := Option.isSome_iff_exists.mp hrun
  have hlast : (run (step 2) anyStep init threeOperations).map (fun s => (s.executed, s.pc))
      = some ([⟨2, -12, false⟩, ⟨1, 0, true⟩, ⟨0, -125, true⟩], Pc.wait) := by decide
  rw [hs, Option.map_some, Option.some.injEq, Prod.mk.injEq] at hlast
  have hreach : Reachable 2 s := (Reaches.start rfl : Reachable 2 init).run hs
  exact ⟨s, hs, hlast.1, hlast.2, eventLoop_eachOnce hreach⟩

end Zab.EventLoop
