import Zab.Basic.Automaton
import Mathlib.Data.List.Perm.Basic
import Mathlib.Data.List.Nodup
import Mathlib.Tactic.Common

set_option autoImplicit false

/-! # The user data of the completions

`event_loop::run` takes the user data of every completion for a pointer to an `io_event` and uses it
without a test, and so does `do_op` with the token it was given, when the queue is full. All public
operations hand the token of their caller on, except `wake(event_loop&)`, which has none.

There are any number of loops, and an operation can be called at any time: by a handler of this loop
or of another one, inside another operation or between two steps of `run`. A caller keeps its
`io_event` until it has been executed and uses it for one operation at a time; where an `io_event`
is in use is recorded in `home`. The awaitable forms of the operations call the others with the
`io_event` of their frame. A pointer is a number, and the null pointer is `none`. The fields `home`
and `derefs` are read by no branch of the code.
-/

namespace Zab.UserData

open Automaton

/-- The address of an `io_event`. -/
abbrev IoEvent := Nat

abbrev LoopId := Nat

def ENOMEM : Int := 12

/-- `kMaxBatch`. -/
def kMaxBatch : Nat := 16

/-- What `io_uring_prep_..` puts into an entry. -/
inductive Prep where
  | openat (dfd : Int) (path : Nat) (flags : Int) (mode : Nat)
  | close (fd : Int)
  | read (fd : Int) (buffer size : Nat) (offset : Int)
  | readv (fd : Int) (iovecs nrVecs : Nat) (offset : Int)
  | readFixed (fd : Int) (buffer size : Nat) (offset bufIndex : Int)
  | write (fd : Int) (buffer size : Nat) (offset : Int)
  | writev (fd : Int) (iovecs nrVecs : Nat) (offset : Int)
  | writeFixed (fd : Int) (buffer size : Nat) (offset bufIndex : Int)
  | recv (fd : Int) (buffer size : Nat) (flags : Int)
  | send (fd : Int) (buffer size : Nat) (flags : Int)
  | accept (fd : Int) (addr addrlen : Nat) (flags : Int)
  | connect (fd : Int) (addr addrlen : Nat)
  | cancel (key : Option IoEvent) (flags : Int)
  deriving DecidableEq

/-- An entry of a submission queue. -/
structure Entry where
  data : Option IoEvent
  prep : Prep
  deriving DecidableEq

/-- A completion. -/
structure Completion where
  data : Option IoEvent
  res : Int
  deriving DecidableEq

structure Ring where
  /-- Prepared entries. -/
  sq : List Entry
  /-- Submitted entries that are not complete. -/
  kernel : List Entry
  cq : List Completion
  /-- The rest of `to_resume`. -/
  toResume : List (Option IoEvent)

/-- A pointer was dereferenced; `valid` says whether it pointed to an `io_event` in use. -/
structure Deref where
  pointer : Option IoEvent
  valid : Bool
  deriving DecidableEq

structure State where
  ring : LoopId → Ring
  /-- The field `result_` of every `io_event`. -/
  result : IoEvent → Int
  /-- The counter of every `user_space_event_fd_`. -/
  eventFd : LoopId → Nat
  /-- The loop at which the operation of an `io_event` is outstanding. -/
  home : IoEvent → Option LoopId
  derefs : List Deref

def init : State where
  ring := fun _ => ⟨[], [], [], []⟩
  result := fun _ => 0
  eventFd := fun _ => 0
  home := fun _ => none
  derefs := []

def State.setRing (s : State) (l : LoopId) (r : Ring) : State :=
  { s with ring := Function.update s.ring l r }

/-- A pointer to an `io_event` is dereferenced. -/
def State.deref (s : State) (t : Option IoEvent) : State :=
  { s with derefs := s.derefs ++ [⟨t, (t.bind s.home).isSome⟩] }

/-- `token->result_ = r` -/
def State.store (s : State) (t : Option IoEvent) (r : Int) : State :=
  let s := s.deref t
  match t with
  | some e => { s with result := Function.update s.result e r }
  | none => s

/-- `execute_event(token->handle_)`: the operation is over. -/
def State.execute (s : State) (t : Option IoEvent) : State :=
  let s := s.deref t
  match t with
  | some e => { s with home := Function.update s.home e none }
  | none => s

/-! ## The operations -/

/-- `do_op` on the ring of `l`. -/
def State.doOp (s : State) (capacity : Nat) (token : Option IoEvent) (l : LoopId) (prep : Prep) :
    State :=
  if (s.ring l).sq.length < capacity then
    s.setRing l { s.ring l with sq := (s.ring l).sq ++ [⟨token, prep⟩] }
  else (s.store token (-ENOMEM)).execute token

section

variable (s : State) (capacity : Nat) (l : LoopId) (token : IoEvent)

def State.openAt (dfd : Int) (path : Nat) (flags : Int) (mode : Nat) : State :=
  s.doOp capacity (some token) l (.openat dfd path flags mode)

def State.close (fd : Int) : State :=
  s.doOp capacity (some token) l (.close fd)

def State.read (fd : Int) (buffer size : Nat) (offset : Int) : State :=
  s.doOp capacity (some token) l (.read fd buffer size offset)

def State.readV (fd : Int) (iovecs nrVecs : Nat) (offset : Int) : State :=
  s.doOp capacity (some token) l (.readv fd iovecs nrVecs offset)

def State.fixedRead (fd : Int) (buffer size : Nat) (offset bufIndex : Int) : State :=
  s.doOp capacity (some token) l (.readFixed fd buffer size offset bufIndex)

def State.write (fd : Int) (buffer size : Nat) (offset : Int) : State :=
  s.doOp capacity (some token) l (.write fd buffer size offset)

def State.writeV (fd : Int) (iovecs nrVecs : Nat) (offset : Int) : State :=
  s.doOp capacity (some token) l (.writev fd iovecs nrVecs offset)

def State.fixedWrite (fd : Int) (buffer size : Nat) (offset bufIndex : Int) : State :=
  s.doOp capacity (some token) l (.writeFixed fd buffer size offset bufIndex)

def State.recv (sockfd : Int) (buffer size : Nat) (flags : Int) : State :=
  s.doOp capacity (some token) l (.recv sockfd buffer size flags)

def State.send (sockfd : Int) (buffer size : Nat) (flags : Int) : State :=
  s.doOp capacity (some token) l (.send sockfd buffer size flags)

def State.accept (fd : Int) (addr addrlen : Nat) (flags : Int) : State :=
  s.doOp capacity (some token) l (.accept fd addr addrlen flags)

def State.connect (fd : Int) (addr addrlen : Nat) : State :=
  s.doOp capacity (some token) l (.connect fd addr addrlen)

/-- `cancel_event` has a body of its own. -/
def State.cancelEvent (key : Option IoEvent) : State :=
  if ¬ (s.ring l).sq.length < capacity then
    (s.store (some token) (-ENOMEM)).execute (some token)
  else
    s.setRing l { s.ring l with sq := (s.ring l).sq ++ [⟨some token, .cancel key 0⟩] }

end

/-- `wake(_from)` of the loop with the descriptor `userSpaceEventFd`: the entry goes into the ring
of `_from`, `item` is what is written. -/
def State.wakeFrom (s : State) (capacity : Nat) (userSpaceEventFd : Int) (item : Nat)
    (l : LoopId) : State :=
  s.doOp capacity none l (.write userSpaceEventFd item 8 0)

/-- `wake()`: the counter is written without the ring, if that succeeds. -/
def State.wake (s : State) (l : LoopId) (ok : Bool) : State :=
  if ok then { s with eventFd := Function.update s.eventFd l (s.eventFd l + 1) } else s

/-- A call of an operation that takes a token. -/
inductive Operation where
  | openAt (dfd : Int) (path : Nat) (flags : Int) (mode : Nat)
  | close (fd : Int)
  | read (fd : Int) (buffer size : Nat) (offset : Int)
  | readV (fd : Int) (iovecs nrVecs : Nat) (offset : Int)
  | fixedRead (fd : Int) (buffer size : Nat) (offset bufIndex : Int)
  | write (fd : Int) (buffer size : Nat) (offset : Int)
  | writeV (fd : Int) (iovecs nrVecs : Nat) (offset : Int)
  | fixedWrite (fd : Int) (buffer size : Nat) (offset bufIndex : Int)
  | recv (sockfd : Int) (buffer size : Nat) (flags : Int)
  | send (sockfd : Int) (buffer size : Nat) (flags : Int)
  | accept (fd : Int) (addr addrlen : Nat) (flags : Int)
  | connect (fd : Int) (addr addrlen : Nat)
  | cancelEvent (key : Option IoEvent)
  deriving DecidableEq

def State.call (s : State) (capacity : Nat) (l : LoopId) (token : IoEvent) : Operation → State
  | .openAt dfd path flags mode => s.openAt capacity l token dfd path flags mode
  | .close fd => s.close capacity l token fd
  | .read fd buffer size offset => s.read capacity l token fd buffer size offset
  | .readV fd iovecs nrVecs offset => s.readV capacity l token fd iovecs nrVecs offset
  | .fixedRead fd buffer size offset bufIndex =>
      s.fixedRead capacity l token fd buffer size offset bufIndex
  | .write fd buffer size offset => s.write capacity l token fd buffer size offset
  | .writeV fd iovecs nrVecs offset => s.writeV capacity l token fd iovecs nrVecs offset
  | .fixedWrite fd buffer size offset bufIndex =>
      s.fixedWrite capacity l token fd buffer size offset bufIndex
  | .recv sockfd buffer size flags => s.recv capacity l token sockfd buffer size flags
  | .send sockfd buffer size flags => s.send capacity l token sockfd buffer size flags
  | .accept fd addr addrlen flags => s.accept capacity l token fd addr addrlen flags
  | .connect fd addr addrlen => s.connect capacity l token fd addr addrlen
  | .cancelEvent key => s.cancelEvent capacity l token key

/-! ## The steps -/

/-- Store the results of a batch. -/
def State.storeResults (s : State) (batch : List Completion) : State :=
  batch.foldl (fun s c => s.store c.data c.res) s

inductive Action where
  /-- An operation of the loop `l` is called with an `io_event` that is not in use. -/
  | call (l : LoopId) (token : IoEvent) (op : Operation)
  | wake (l : LoopId) (ok : Bool)
  | wakeFrom (userSpaceEventFd : Int) (item : Nat) (l : LoopId)
  /-- `io_uring_submit`. -/
  | submit (l : LoopId)
  /-- The kernel completes the entry at position `i` of those it has. -/
  | post (l : LoopId) (i : Nat) (res : Int)
  /-- The results of a batch are stored. -/
  | peek (l : LoopId) (amount : Nat)
  /-- The next `io_event` of the batch is executed. -/
  | execute (l : LoopId)
  deriving DecidableEq

def step (capacity : Nat) (s : State) : Action → Option State
  | .call l token op =>
      if s.home token = none then
        some ({ s with home := Function.update s.home token (some l) }.call capacity l token op)
      else none
  | .wake l ok => some (s.wake l ok)
  | .wakeFrom userSpaceEventFd item l => some (s.wakeFrom capacity userSpaceEventFd item l)
  | .submit l =>
      let r := s.ring l
      some (s.setRing l { r with sq := [], kernel := r.kernel ++ r.sq })
  | .post l i res =>
      let r := s.ring l
      (r.kernel[i]?).map fun e =>
        s.setRing l { r with kernel := r.kernel.eraseIdx i, cq := r.cq ++ [⟨e.data, res⟩] }
  | .peek l amount =>
      let r := s.ring l
      if r.toResume = [] ∧ 1 ≤ amount ∧ amount ≤ kMaxBatch ∧ amount ≤ r.cq.length then
        some ((s.storeResults (r.cq.take amount)).setRing l
          { r with cq := r.cq.drop amount, toResume := (r.cq.take amount).map Completion.data })
      else none
  | .execute l =>
      match (s.ring l).toResume with
      | t :: rest => some ((s.setRing l { s.ring l with toResume := rest }).execute t)
      | [] => none

/-- The user data of everything that the loop has not executed yet. -/
def Ring.outstanding (r : Ring) : List (Option IoEvent) :=
  r.sq.map Entry.data ++ (r.kernel.map Entry.data ++ (r.cq.map Completion.data ++ r.toResume))

/-- **The user data is valid**: everything outstanding carries an `io_event` in use, and so does
every pointer that was dereferenced. -/
structure Valid (s : State) : Prop where
  outstanding : ∀ l, ∀ t ∈ (s.ring l).outstanding, ∃ e, t = some e ∧ s.home e = some l
  derefs : ∀ d ∈ s.derefs, d.pointer ≠ none ∧ d.valid = true

/-! ## The invariant -/

structure Inv (s : State) : Prop where
  valid : Valid s
  /-- No two entries of a ring carry the same `io_event`. -/
  distinct : ∀ l, (s.ring l).outstanding.Nodup

/-- What an operation prepares. -/
def Operation.prep : Operation → Prep
  | .openAt dfd path flags mode => .openat dfd path flags mode
  | .close fd => .close fd
  | .read fd buffer size offset => .read fd buffer size offset
  | .readV fd iovecs nrVecs offset => .readv fd iovecs nrVecs offset
  | .fixedRead fd buffer size offset bufIndex => .readFixed fd buffer size offset bufIndex
  | .write fd buffer size offset => .write fd buffer size offset
  | .writeV fd iovecs nrVecs offset => .writev fd iovecs nrVecs offset
  | .fixedWrite fd buffer size offset bufIndex => .writeFixed fd buffer size offset bufIndex
  | .recv sockfd buffer size flags => .recv sockfd buffer size flags
  | .send sockfd buffer size flags => .send sockfd buffer size flags
  | .accept fd addr addrlen flags => .accept fd addr addrlen flags
  | .connect fd addr addrlen => .connect fd addr addrlen
  | .cancelEvent key => .cancel key 0

section

variable {s s' : State} {capacity : Nat} {l : LoopId} {e : IoEvent} {t : Option IoEvent} {r : Ring}

/-- All operations with a token are `do_op` with that token. -/
theorem call_eq (s : State) (capacity : Nat) (l : LoopId) (token : IoEvent) (op : Operation) :
    s.call capacity l token op = s.doOp capacity (some token) l op.prep := by
  cases op with
  | cancelEvent key =>
      show s.cancelEvent capacity l token key = _
      unfold State.cancelEvent State.doOp
      rw [ite_not]
      rfl
  | _ => rfl

theorem ring_setRing_self (s : State) (l : LoopId) (r : Ring) : (s.setRing l r).ring l = r :=
  Function.update_self ..

theorem ring_setRing_of_ne {l' : LoopId} (hne : l' ≠ l) : (s.setRing l r).ring l' = s.ring l' :=
  Function.update_of_ne hne ..

/-- The ring of `l` changes: what is new carries an `io_event` in use. -/
theorem Inv.setRing (h : Inv s) (hnodup : r.outstanding.Nodup)
    (hmem : ∀ t ∈ r.outstanding, t ∈ (s.ring l).outstanding ∨ ∃ e, t = some e ∧ s.home e = some l) :
    Inv (s.setRing l r) := by
  refine ⟨⟨fun l' t ht => ?_, h.valid.derefs⟩, fun l' => ?_⟩
  · by_cases hl : l' = l
    · subst hl
      rw [ring_setRing_self] at ht
      rcases hmem t ht with hold | hnew
      · exact h.valid.outstanding l' t hold
      · exact hnew
    · rw [ring_setRing_of_ne hl] at ht
      exact h.valid.outstanding l' t ht
  · by_cases hl : l' = l
    · subst hl
      rw [ring_setRing_self]
      exact hnodup
    · rw [ring_setRing_of_ne hl]
      exact h.distinct l'

/-- Entries move within the ring of `l`. -/
theorem Inv.permute (h : Inv s) (hperm : r.outstanding.Perm (s.ring l).outstanding) :
    Inv (s.setRing l r) :=
  h.setRing (hperm.nodup_iff.mpr (h.distinct l)) fun _ ht => Or.inl (hperm.mem_iff.mp ht)

/-- A pointer to an `io_event` in use may be dereferenced. -/
theorem Inv.deref (h : Inv s) (he : s.home e ≠ none) : Inv (s.deref (some e)) := by
  refine ⟨⟨h.valid.outstanding, fun d hd => ?_⟩, h.distinct⟩
  rcases List.mem_append.mp hd with hd | hd
  · exact h.valid.derefs d hd
  · rw [List.mem_singleton.mp hd]
    exact ⟨by simp, Option.isSome_iff_ne_none.mpr he⟩

theorem Inv.store (h : Inv s) (he : s.home e ≠ none) (res : Int) : Inv (s.store (some e) res) := by
  have hderef := h.deref he
  exact ⟨⟨hderef.valid.outstanding, hderef.valid.derefs⟩, hderef.distinct⟩

/-- The `io_event` that is executed is not outstanding any more. -/
theorem Inv.execute (h : Inv s) (he : s.home e ≠ none)
    (hout : ∀ l, some e ∉ (s.ring l).outstanding) : Inv (s.execute (some e)) := by
  have hderef := h.deref he
  refine ⟨⟨fun l t ht => ?_, hderef.valid.derefs⟩, hderef.distinct⟩
  obtain ⟨e', rfl, hhome⟩ := h.valid.outstanding l t ht
  have hne : e' ≠ e := by
    rintro rfl
    exact hout l ht
  exact ⟨e', rfl, (Function.update_of_ne hne ..).trans hhome⟩

/-- A new entry with an `io_event` of the caller. -/
theorem Inv.doOp (h : Inv s) (he : s.home e = some l)
    (hout : ∀ l, some e ∉ (s.ring l).outstanding) (prep : Prep) :
    Inv (s.doOp capacity (some e) l prep) := by
  unfold State.doOp
  split
  · have hperm : Ring.outstanding { s.ring l with sq := (s.ring l).sq ++ [⟨some e, prep⟩] } |>.Perm
        (some e :: (s.ring l).outstanding) := by
      simp only [Ring.outstanding, List.map_append, List.map_cons, List.map_nil, List.append_assoc]
      exact List.perm_middle
    refine h.setRing (hperm.nodup_iff.mpr (List.nodup_cons.mpr ⟨hout l, h.distinct l⟩)) ?_
    intro t ht
    rcases List.mem_cons.mp (hperm.mem_iff.mp ht) with rfl | hold
    · exact Or.inr ⟨e, rfl, he⟩
    · exact Or.inl hold
  · -- the queue is full: the token of the caller is executed at once
    have hne : s.home e ≠ none := by
      rw [he]
      simp
    exact (h.store hne (-ENOMEM)).execute hne hout

/-- The caller brings an `io_event` that is not in use. -/
theorem Inv.call (h : Inv s) (hfree : s.home e = none) (op : Operation) :
    Inv ({ s with home := Function.update s.home e (some l) }.call capacity l e op) := by
  have hout : ∀ l, some e ∉ (s.ring l).outstanding := by
    intro l' hmem
    obtain ⟨e', he, hhome⟩ := h.valid.outstanding l' _ hmem
    obtain rfl := Option.some.inj he
    rw [hfree] at hhome
    cases hhome
  have hacquire : Inv { s with home := Function.update s.home e (some l) } := by
    refine ⟨⟨fun l' t ht => ?_, h.valid.derefs⟩, h.distinct⟩
    obtain ⟨e', rfl, hhome⟩ := h.valid.outstanding l' t ht
    have hne : e' ≠ e := by
      rintro rfl
      exact hout l' ht
    exact ⟨e', rfl, (Function.update_of_ne hne ..).trans hhome⟩
  rw [call_eq]
  exact hacquire.doOp (Function.update_self ..) hout op.prep

/-- The results of a batch are stored in the `io_event`s of its completions. -/
theorem Inv.storeResults (h : Inv s) {batch : List Completion}
    (hbatch : ∀ c ∈ batch, ∃ e, c.data = some e ∧ s.home e ≠ none) :
    Inv (s.storeResults batch) ∧ (s.storeResults batch).ring = s.ring ∧
      (s.storeResults batch).home = s.home := by
  induction batch generalizing s with
  | nil => exact ⟨h, rfl, rfl⟩
  | cons c batch ih =>
      obtain ⟨e, hdata, he⟩ := hbatch c List.mem_cons_self
      have hstore := h.store he c.res
      rw [← hdata] at hstore
      have hframe : (s.store c.data c.res).ring = s.ring ∧
          (s.store c.data c.res).home = s.home := by
        rw [hdata]
        exact ⟨rfl, rfl⟩
      obtain ⟨hinv, hring, hhome⟩ := ih hstore fun c' hc' => by
        rw [hframe.2]
        exact hbatch c' (List.mem_cons_of_mem c hc')
      exact ⟨hinv, hring.trans hframe.1, hhome.trans hframe.2⟩

theorem Inv.submit (h : Inv s) (l : LoopId) :
    Inv (s.setRing l
      { s.ring l with sq := [], kernel := (s.ring l).kernel ++ (s.ring l).sq }) := by
  apply h.permute
  simp only [Ring.outstanding, List.map_append, List.map_nil, List.nil_append, List.append_assoc]
  exact List.perm_append_comm_assoc ..

/-- The completion of an entry carries its user data. -/
theorem Inv.post (h : Inv s) {i : Nat} {x : Entry} (hx : (s.ring l).kernel[i]? = some x)
    (res : Int) :
    Inv (s.setRing l { s.ring l with
      kernel := (s.ring l).kernel.eraseIdx i, cq := (s.ring l).cq ++ [⟨x.data, res⟩] }) := by
  obtain ⟨hi, hget⟩ := List.getElem?_eq_some_iff.mp hx
  have hkernel : (x :: (s.ring l).kernel.eraseIdx i).Perm (s.ring l).kernel := by
    rw [← hget]
    exact List.getElem_cons_eraseIdx_perm hi
  apply h.permute
  simp only [Ring.outstanding, List.map_append, List.map_cons, List.map_nil, List.append_assoc,
    List.cons_append, List.nil_append]
  apply List.Perm.append_left
  calc ((s.ring l).kernel.eraseIdx i).map Entry.data ++
        ((s.ring l).cq.map Completion.data ++ x.data :: (s.ring l).toResume)
    _ = (((s.ring l).kernel.eraseIdx i).map Entry.data ++ (s.ring l).cq.map Completion.data) ++
          x.data :: (s.ring l).toResume := (List.append_assoc ..).symm
    _ |>.Perm (x.data :: ((((s.ring l).kernel.eraseIdx i).map Entry.data ++
          (s.ring l).cq.map Completion.data) ++ (s.ring l).toResume)) := List.perm_middle
    _ = (x :: (s.ring l).kernel.eraseIdx i).map Entry.data ++
          ((s.ring l).cq.map Completion.data ++ (s.ring l).toResume) := by
        simp only [List.map_cons, List.cons_append, List.append_assoc]
    _ |>.Perm _ := (hkernel.map Entry.data).append_right _

/-- A batch is taken out of the completion queue, and its results are stored. -/
theorem Inv.peek (h : Inv s) (hempty : (s.ring l).toResume = []) (amount : Nat) :
    Inv ((s.storeResults ((s.ring l).cq.take amount)).setRing l { s.ring l with
      cq := (s.ring l).cq.drop amount
      toResume := ((s.ring l).cq.take amount).map Completion.data }) := by
  have hbatch : ∀ c ∈ (s.ring l).cq.take amount, ∃ e, c.data = some e ∧ s.home e ≠ none := by
    intro c hc
    have hmem : c.data ∈ (s.ring l).outstanding := by
      have hcq := List.mem_map_of_mem (f := Completion.data) (List.mem_of_mem_take hc)
      simp only [Ring.outstanding, List.mem_append]
      exact Or.inr (Or.inr (Or.inl hcq))
    obtain ⟨e, he, hhome⟩ := h.valid.outstanding l _ hmem
    exact ⟨e, he, by rw [hhome]; simp⟩
  obtain ⟨hinv, hring, -⟩ := h.storeResults hbatch
  apply hinv.permute
  rw [hring]
  simp only [Ring.outstanding, hempty, List.append_nil]
  apply List.Perm.append_left
  apply List.Perm.append_left
  refine List.perm_append_comm.trans ?_
  rw [← List.map_append, List.take_append_drop]

/-- The next `io_event` of the batch is executed. -/
theorem Inv.executeNext (h : Inv s) {rest : List (Option IoEvent)}
    (hresume : (s.ring l).toResume = t :: rest) :
    Inv ((s.setRing l { s.ring l with toResume := rest }).execute t) := by
  have hperm : (s.ring l).outstanding.Perm
      (t :: Ring.outstanding { s.ring l with toResume := rest }) := by
    simp only [Ring.outstanding, hresume, ← List.append_assoc]
    exact List.perm_middle
  obtain ⟨hnot, hnodup⟩ := List.nodup_cons.mp (hperm.nodup_iff.mp (h.distinct l))
  obtain ⟨e, rfl, hhome⟩ := h.valid.outstanding l t (hperm.mem_iff.mpr List.mem_cons_self)
  have hrest : Inv (s.setRing l { s.ring l with toResume := rest }) :=
    h.setRing hnodup fun t ht => Or.inl (hperm.mem_iff.mpr (List.mem_cons_of_mem _ ht))
  have hne : s.home e ≠ none := by simp [hhome]
  refine hrest.execute hne fun l' => ?_
  by_cases hl : l' = l
  · subst hl
    rw [ring_setRing_self]
    exact hnot
  · -- another ring has `io_event`s of its own
    intro hmem
    rw [ring_setRing_of_ne hl] at hmem
    obtain ⟨e', he, hhome'⟩ := h.valid.outstanding l' _ hmem
    obtain rfl := Option.some.inj he
    exact hl (Option.some.inj (hhome'.symm.trans hhome))

theorem Inv.step {a : Action} (h : Inv s) (hs : step capacity s a = some s')
    (ha : ∀ fd item l, a ≠ .wakeFrom fd item l) : Inv s' := by
  cases a with
  | call l token op =>
      simp only [UserData.step] at hs
      split at hs
      · rename_i hfree
        obtain rfl := Option.some.inj hs
        exact h.call hfree op
      · cases hs
  | wake l ok =>
      obtain rfl := Option.some.inj hs
      unfold State.wake
      split
      · exact ⟨⟨h.valid.outstanding, h.valid.derefs⟩, h.distinct⟩
      · exact h
  | wakeFrom fd item l => exact absurd rfl (ha fd item l)
  | submit l =>
      obtain rfl := Option.some.inj hs
      exact h.submit l
  | post l i res =>
      obtain ⟨x, hx, rfl⟩ := Option.map_eq_some_iff.mp hs
      exact h.post hx res
  | peek l amount =>
      simp only [UserData.step] at hs
      split at hs
      · rename_i hc
        obtain rfl := Option.some.inj hs
        exact h.peek hc.1 amount
      · cases hs
  | execute l =>
      simp only [UserData.step] at hs
      split at hs
      · rename_i t rest hresume
        obtain rfl := Option.some.inj hs
        exact h.executeNext hresume
      · cases hs

theorem inv_init : Inv init := by
  refine ⟨⟨fun l t ht => ?_, fun d hd => ?_⟩, fun l => List.nodup_nil⟩
  · cases ht
  · cases hd

/-- A run without `wake(event_loop&)`. -/
theorem inv_run {as : List Action} (h : run (UserData.step capacity) anyStep init as = some s)
    (has : ∀ fd item l, .wakeFrom fd item l ∉ as) : Inv s := by
  have hrun : (∀ fd item l, Action.wakeFrom fd item l ∉ as) → Inv s := by
    refine run_invariant (I := fun as s => (∀ fd item l, Action.wakeFrom fd item l ∉ as) → Inv s)
      (fun _ => inv_init) ?_ h
    intro as t a t' ih _ hs hnot
    refine (ih fun fd item l hmem => hnot fd item l (List.mem_append_left _ hmem)).step hs ?_
    rintro fd item l rfl
    exact hnot fd item l (List.mem_append_right _ (List.mem_singleton_self _))
  exact hrun has

/-- `wake(event_loop&)` prepares an entry without user data, or dereferences the null pointer. -/
theorem not_valid_wakeFrom (s : State) (capacity : Nat) (fd : Int) (item : Nat) (l : LoopId) :
    ¬ Valid (s.wakeFrom capacity fd item l) := by
  intro h
  unfold State.wakeFrom State.doOp at h
  split at h
  · have hmem : none ∈ Ring.outstanding { s.ring l with
        sq := (s.ring l).sq ++ [⟨none, .write fd item 8 0⟩] } := by
      simp [Ring.outstanding]
    obtain ⟨e, he, -⟩ := h.outstanding l none (by rw [ring_setRing_self]; exact hmem)
    cases he
  · have hmem : (⟨none, false⟩ : Deref) ∈ ((s.store none (-ENOMEM)).execute none).derefs := by
      simp [State.store, State.execute, State.deref]
    exact (h.derefs _ hmem).1 rfl

/-- **Every completion carries a valid `io_event`** in the runs without `wake(event_loop&)`, and in
no others. -/
theorem userData_valid_iff {as : List Action}
    (h : run (UserData.step capacity) anyStep init as = some s) :
    (∀ as₁ as₂ t, as = as₁ ++ as₂ → run (UserData.step capacity) anyStep init as₁ = some t →
      Valid t) ↔ ∀ fd item l, .wakeFrom fd item l ∉ as := by
  constructor
  · intro hvalid fd item l hmem
    obtain ⟨as₁, as₂, rfl⟩ := List.append_of_mem hmem
    rw [run_append] at h
    obtain ⟨t, ht, -⟩ := Option.bind_eq_some_iff.mp h
    apply not_valid_wakeFrom t capacity fd item l
    refine hvalid (as₁ ++ [.wakeFrom fd item l]) as₂ _ (by simp) ?_
    rw [run_append, ht]
    rfl
  · rintro hnot as₁ as₂ t rfl ht
    exact (inv_run ht fun fd item l hmem => hnot fd item l (List.mem_append_left _ hmem)).valid

/-- Two loops: the second operation of the first one finds the queue full; the completion of the
other one is executed. -/
def fullQueue : List Action :=
  [.call 0 10 (.recv 4 100 8 0), .call 0 11 (.send 4 200 8 0), .call 1 11 (.close 5), .submit 1,
    .post 1 0 0, .peek 1 1, .execute 1, .wake 0 true]

theorem userData_valid_iff_fullQueue :
    ∃ s, run (step 1) anyStep init fullQueue = some s ∧ s.derefs.length = 4 ∧ s.result 11 = 0 ∧
      Valid s := by
  have hrun : ∃ s, run (step 1) anyStep init fullQueue = some s ∧ s.derefs.length = 4 ∧
      s.result 11 = 0 := ⟨_, rfl, rfl, rfl⟩
  obtain ⟨s, hs, hlen, hresult⟩ := hrun
  refine ⟨s, hs, hlen, hresult, ?_⟩
  exact (userData_valid_iff hs).mpr (by simp [fullQueue]) fullQueue [] s (by simp) hs

/-- One loop wakes another one: `run` dereferences the null pointer. -/
theorem wakeFrom_nullPointer :
    ∃ s, run (step 4096) anyStep init [.wakeFrom 7 300 0, .submit 0, .post 0 0 8, .peek 0 1] =
        some s ∧ s.derefs = [⟨none, false⟩] ∧ ¬ Valid s :=
  ⟨_, rfl, rfl, fun h => (h.derefs ⟨none, false⟩ (by decide)).1 rfl⟩

end

end Zab.UserData
