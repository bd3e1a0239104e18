import Zab.Basic.Automaton
import Zab.Basic.TaggedWord

set_option autoImplicit false

/-! # The cancelation tokens of a `tcp_stream`

A stream keeps a pointer to the `io_event` of its pending read in `network_operation::cancel_token_`
and one to that of its pending write in `write_cancel_`; an acceptor uses the first for its accept.
An operation sets the pointer when it suspends and clears it when it resumes. `cancel` hands the
pointer to the event loop and clears it when it resumes itself, unless the code of its result is
`kFailed`.

Both directions do the same, so that they are one definition with a parameter. An operation is
pending from its suspension to its resumption. The kernel completes operations and cancel requests
in any order and with any result, and the event loop resumes the coroutines of what is complete in
any order. A failed `io_uring_get_sqe` is a completion with `-ENOMEM`.

The field `requests` of the state records history and is read by no branch.
-/

namespace Zab.CancelToken

open Automaton

def ENOENT : Int := 2
def ENOMEM : Int := 12
def EALREADY : Int := 114

/-- `event_loop::CancelResult`. -/
inductive CancelResult where
  | kDone
  | kNotFound
  | kTried
  | kFailed
  | kUnknown
  deriving DecidableEq

/-- `event_loop::cancel_code`. -/
def cancelCode (result : Int) : CancelResult :=
  if result = 0 then .kDone
  else if result = -ENOENT then .kNotFound
  else if result = -EALREADY then .kTried
  else if result = -ENOMEM then .kFailed
  else .kUnknown

/-- `read` stands for `cancel_token_`, `write` for `write_cancel_`. -/
inductive Direction where
  | read
  | write
  deriving DecidableEq

def Direction.other : Direction → Direction
  | .read => .write
  | .write => .read

/-- Which operation it is. -/
inductive Kind where
  /-- `read_some` and `write_some`. -/
  | some
  /-- `accept`. -/
  | accept
  /-- `read` and `write` of `size` bytes, of which `soFar` are done. -/
  | all (size soFar : Nat)
  deriving DecidableEq

/-- How much of it is done. -/
def Kind.done : Kind → Nat
  | .all _ soFar => soFar
  | _ => 0

/-- A pending operation, its `io_event` and the result that is stored there on completion. -/
structure Op where
  event : Addr
  kind : Kind
  result : Option Int
  deriving DecidableEq

/-- A suspended `cancel`. -/
structure Cancel where
  direction : Direction
  result : Option Int
  deriving DecidableEq

/-- A cancel request: the pointer that is handed over, and the `io_event` that is pending. -/
structure Request where
  key : Addr
  pending : Option Addr
  deriving DecidableEq

structure State where
  /-- The stream exists. -/
  alive : Bool
  token : Direction → Option Addr
  lastError : Int
  op : Direction → Option Op
  cancel : Nat → Option Cancel
  requests : List Request

def init : State where
  alive := true
  token := fun _ => none
  lastError := 0
  op := fun _ => none
  cancel := fun _ => none
  requests := []

def State.setToken (s : State) (d : Direction) (t : Option Addr) : State :=
  { s with token := Function.update s.token d t }

def State.setOp (s : State) (d : Direction) (o : Option Op) : State :=
  { s with op := Function.update s.op d o }

/-- An operation suspends: it sets the token and goes to the event loop. -/
def State.suspend (s : State) (d : Direction) (event : Addr) (kind : Kind) : State :=
  (s.setToken d (some event)).setOp d (some ⟨event, kind, none⟩)

/-- An operation resumes: it clears the token. -/
def State.resume (s : State) (d : Direction) : State := (s.setToken d none).setOp d none

/-- What happens when the event loop executes the `io_event` of an operation with its result. -/
def State.execute (s : State) (d : Direction) (op : Op) (result : Int) : State :=
  match op.kind with
  | .some =>
      if result > 0 then s.resume d else { s.resume d with lastError := -result }
  | .accept =>
      if result ≥ 0 then s.resume d else { s.resume d with lastError := -result }
  | .all size soFar =>
      -- `notify`: more of it, or the end
      if result > 0 then
        if soFar + result.toNat = size then s.resume d
        else s.suspend d op.event (.all size (soFar + result.toNat))
      else { s.resume d with lastError := -result }

/-- The token goes to the event loop as the key of a cancel request. -/
def State.cancelEvent (s : State) (d : Direction) (key : Addr) : State :=
  { s with requests := s.requests ++ [⟨key, (s.op d).map Op.event⟩] }

/-- The destructor cancels what is pending. -/
def State.cancelPending (s : State) (d : Direction) : State :=
  match s.token d with
  | some key => s.cancelEvent d key
  | none => s

inductive Action where
  /-- Start an operation with its `io_event` at `event`. -/
  | start (d : Direction) (event : Addr) (kind : Kind)
  /-- Start an operation that has nothing to do: it resumes at once. -/
  | startEmpty (d : Direction) (kind : Kind)
  /-- An operation is complete. -/
  | complete (d : Direction) (result : Int)
  /-- The event loop executes the `io_event` of a complete operation. -/
  | execute (d : Direction)
  /-- `cancel_read()`, `cancel_write()` or the acceptor's `cancel()`, by coroutine `c`. -/
  | cancel (d : Direction) (c : Nat)
  /-- A cancel request is complete. -/
  | cancelComplete (c : Nat) (result : Int)
  /-- The event loop resumes the `cancel` of coroutine `c`. -/
  | cancelResume (c : Nat)
  /-- The destructor. -/
  | destroy
  deriving DecidableEq

/-- The coroutine whose `cancel` is resumed. -/
def Action.resumed : Action → Option Nat
  | .cancelResume c => some c
  | _ => none

/-- The step of a stream that exists. -/
def State.act (s : State) : Action → Option State
  | .start d event kind =>
      if s.op d = none ∧ (s.op d.other).map Op.event ≠ some event ∧ kind.done = 0 then
        some (s.suspend d event kind)
      else none
  | .startEmpty d kind =>
      if s.op d = none then
        match kind with
        | .some => some { s.resume d with lastError := 0 }
        | .accept => none
        | .all size soFar => if size = soFar then some (s.resume d) else none
      else none
  | .complete d result =>
      (s.op d).bind fun op =>
        if op.result = none then some (s.setOp d (some { op with result := some result }))
        else none
  | .execute d => (s.op d).bind fun op => op.result.map fun result => s.execute d op result
  | .cancel d c =>
      if s.cancel c = none then
        match s.token d with
        -- `is_ready`: nothing to cancel; `cancel_code(0)` clears the token
        | none => some (s.setToken d none)
        | some key =>
            some { s.cancelEvent d key with
              cancel := Function.update s.cancel c (some ⟨d, none⟩) }
      else none
  | .cancelComplete c result =>
      (s.cancel c).bind fun r =>
        if r.result = none then
          some { s with
            cancel := Function.update s.cancel c (some { r with result := some result }) }
        else none
  | .cancelResume c =>
      (s.cancel c).bind fun r => r.result.map fun result =>
        let s := { s with cancel := Function.update s.cancel c none }
        if cancelCode result ≠ .kFailed then s.setToken r.direction none else s
  | .destroy =>
      -- the body of the destructor of the stream, then that of its `network_operation`
      some { (s.cancelPending .write).cancelPending .read with alive := false }

def step (s : State) (a : Action) : Option State := if s.alive then s.act a else none

/-- The tokens of a stream that exists are the `io_event`s of the pending operations, and every
cancel request was made for the operation that was pending. -/
structure Tracks (s : State) : Prop where
  token : s.alive = true → ∀ d, s.token d = (s.op d).map Op.event
  requests : ∀ r ∈ s.requests, r.pending = some r.key

/-- A `cancel` is resumed with a result other than `-ENOMEM` only when nothing is pending on its
token. -/
def Allowed (s : State) (a : Action) : Prop :=
  ∀ c ∈ a.resumed, ∀ r ∈ s.cancel c, ∀ result ∈ r.result,
    result ≠ -ENOMEM → s.op r.direction = none

instance (s : State) (a : Action) : Decidable (Allowed s a) :=
  inferInstanceAs (Decidable (∀ c ∈ a.resumed, ∀ r ∈ s.cancel c, ∀ result ∈ r.result,
    result ≠ -ENOMEM → s.op r.direction = none))

/-! ## Keeping track -/

section

variable {s s' : State} {d : Direction}

theorem allowed_of_resumed {a : Action} (ha : a.resumed = none) : Allowed s a := by
  intro c hc
  rw [ha] at hc
  cases hc

/-- What the condition asks of the resumption of a `cancel` with its result. -/
theorem allowed_cancelResume {c : Nat} {r : Cancel} {result : Int} (hr : s.cancel c = some r)
    (hresult : r.result = some result) :
    Allowed s (.cancelResume c) ↔ (result ≠ -ENOMEM → s.op r.direction = none) := by
  constructor
  · intro ha
    exact ha c rfl r hr result hresult
  · intro ha c' hc' r' hr' result' hresult'
    obtain rfl := Option.some.inj hc'
    obtain rfl := Option.some.inj (hr.symm.trans hr')
    obtain rfl := Option.some.inj (hresult.symm.trans hresult')
    exact ha

theorem cancelCode_eq_kFailed {result : Int} :
    cancelCode result = .kFailed ↔ result = -ENOMEM := by
  unfold cancelCode ENOENT EALREADY ENOMEM
  constructor
  · intro h
    split at h
    · cases h
    split at h
    · cases h
    split at h
    · cases h
    split at h
    · assumption
    · cases h
  · rintro rfl
    rfl

/-- A token and its operation change together. -/
theorem Tracks.setBoth (h : Tracks s) (d : Direction) (o : Option Op) :
    Tracks ((s.setToken d (o.map Op.event)).setOp d o) := by
  refine ⟨fun halive e => ?_, h.requests⟩
  show Function.update s.token d (o.map Op.event) e = (Function.update s.op d o e).map Op.event
  by_cases hed : e = d
  · rw [hed, Function.update_self, Function.update_self]
  · rw [Function.update_of_ne hed, Function.update_of_ne hed]
    exact h.token halive e

theorem Tracks.suspend (h : Tracks s) (d : Direction) (event : Addr) (kind : Kind) :
    Tracks (s.suspend d event kind) := h.setBoth d (some ⟨event, kind, none⟩)

theorem Tracks.resume (h : Tracks s) (d : Direction) : Tracks (s.resume d) := h.setBoth d none

/-- The tokens and the requests are all that counts. -/
theorem Tracks.congr (h : Tracks s) (halive : s'.alive = s.alive) (htoken : s'.token = s.token)
    (hop : ∀ e, (s'.op e).map Op.event = (s.op e).map Op.event)
    (hreq : s'.requests = s.requests) : Tracks s' := by
  refine ⟨fun ha e => ?_, by rw [hreq]; exact h.requests⟩
  rw [htoken, hop]
  exact h.token (halive ▸ ha) e

theorem Tracks.execute (h : Tracks s) (d : Direction) (op : Op) (result : Int) :
    Tracks (s.execute d op result) := by
  unfold State.execute
  split
  · split
    · exact h.resume d
    · exact (h.resume d).congr rfl rfl (fun _ => rfl) rfl
  · split
    · exact h.resume d
    · exact (h.resume d).congr rfl rfl (fun _ => rfl) rfl
  · split
    · split
      · exact h.resume d
      · exact h.suspend d _ _
    · exact (h.resume d).congr rfl rfl (fun _ => rfl) rfl

/-- A cancel request is made for what is pending. -/
theorem Tracks.cancelEvent (h : Tracks s) (halive : s.alive = true) {key : Addr}
    (hkey : s.token d = some key) : Tracks (s.cancelEvent d key) := by
  refine ⟨h.token, fun r hr => ?_⟩
  rcases List.mem_append.mp hr with hr | hr
  · exact h.requests r hr
  · rw [List.mem_singleton.mp hr]
    exact (h.token halive d).symm.trans hkey

theorem Tracks.cancelPending (h : Tracks s) (halive : s.alive = true) (d : Direction) :
    Tracks (s.cancelPending d) ∧ (s.cancelPending d).alive = true := by
  unfold State.cancelPending
  split
  · rename_i key hkey
    exact ⟨h.cancelEvent halive hkey, halive⟩
  · exact ⟨h, halive⟩

/-- Dropping a token keeps track if and only if nothing is pending on it. -/
theorem Tracks.drop_iff (h : Tracks s) (halive : s.alive = true) (d : Direction) :
    Tracks (s.setToken d none) ↔ s.op d = none := by
  constructor
  · intro ht
    have heq := ht.token halive d
    simp only [State.setToken, Function.update_self] at heq
    exact Option.map_eq_none_iff.mp heq.symm
  · intro hop
    refine ⟨fun _ e => ?_, h.requests⟩
    show Function.update s.token d none e = (s.op e).map Op.event
    by_cases hed : e = d
    · subst hed
      rw [Function.update_self, hop]
      rfl
    · rw [Function.update_of_ne hed]
      exact h.token halive e

/-- **A step keeps track if and only if it is allowed.** -/
theorem Tracks.step_iff {a : Action} (h : Tracks s) (hs : step s a = some s') :
    Tracks s' ↔ Allowed s a := by
  unfold step at hs
  split at hs
  case isFalse => cases hs
  rename_i halive
  -- all but the resumption of a `cancel` are allowed
  cases a with
  | start d event kind =>
      simp only [State.act] at hs
      split at hs
      · obtain rfl := Option.some.inj hs
        exact iff_of_true (h.suspend d event kind) (allowed_of_resumed rfl)
      · cases hs
  | startEmpty d kind =>
      simp only [State.act] at hs
      split at hs
      · refine iff_of_true ?_ (allowed_of_resumed rfl)
        split at hs
        · obtain rfl := Option.some.inj hs
          exact (h.resume d).congr rfl rfl (fun _ => rfl) rfl
        · cases hs
        · split at hs
          · obtain rfl := Option.some.inj hs
            exact h.resume d
          · cases hs
      · cases hs
  | complete d result =>
      simp only [State.act] at hs
      obtain ⟨op, hop, hs⟩ := Option.bind_eq_some_iff.mp hs
      split at hs
      · obtain rfl := Option.some.inj hs
        refine iff_of_true (h.congr rfl rfl (fun e => ?_) rfl) (allowed_of_resumed rfl)
        -- a completion stores the result and keeps the `io_event`
        by_cases hed : e = d
        · subst hed
          simp [State.setOp, hop]
        · simp [State.setOp, hed]
      · cases hs
  | execute d =>
      simp only [State.act] at hs
      obtain ⟨op, -, hs⟩ := Option.bind_eq_some_iff.mp hs
      obtain ⟨result, -, rfl⟩ := Option.map_eq_some_iff.mp hs
      exact iff_of_true (h.execute d op result) (allowed_of_resumed rfl)
  | cancel d c =>
      simp only [State.act] at hs
      split at hs
      · refine iff_of_true ?_ (allowed_of_resumed rfl)
        split at hs
        · -- without a token there is nothing to drop
          rename_i hnone
          obtain rfl := Option.some.inj hs
          refine (h.drop_iff halive d).mpr ?_
          have heq := h.token halive d
          rw [hnone] at heq
          exact Option.map_eq_none_iff.mp heq.symm
        · rename_i key hkey
          obtain rfl := Option.some.inj hs
          exact (h.cancelEvent halive hkey).congr rfl rfl (fun _ => rfl) rfl
      · cases hs
  | cancelComplete c result =>
      simp only [State.act] at hs
      obtain ⟨r, -, hs⟩ := Option.bind_eq_some_iff.mp hs
      split at hs
      · obtain rfl := Option.some.inj hs
        exact iff_of_true (h.congr rfl rfl (fun _ => rfl) rfl) (allowed_of_resumed rfl)
      · cases hs
  | cancelResume c =>
      simp only [State.act] at hs
      obtain ⟨r, hr, hs⟩ := Option.bind_eq_some_iff.mp hs
      obtain ⟨result, hresult, rfl⟩ := Option.map_eq_some_iff.mp hs
      have hc : Tracks { s with cancel := Function.update s.cancel c none } :=
        h.congr rfl rfl (fun _ => rfl) rfl
      rw [allowed_cancelResume hr hresult]
      by_cases hcode : result = -ENOMEM
      · rw [if_neg (not_not.mpr (cancelCode_eq_kFailed.mpr hcode))]
        exact iff_of_true hc fun hne => absurd hcode hne
      · -- every other code drops the token, whatever is pending by now
        rw [if_pos fun hfailed => hcode (cancelCode_eq_kFailed.mp hfailed)]
        rw [hc.drop_iff halive r.direction]
        exact ⟨fun hop _ => hop, fun hop => hop hcode⟩
  | destroy =>
      simp only [State.act] at hs
      obtain rfl := Option.some.inj hs
      obtain ⟨hw, hwalive⟩ := h.cancelPending halive .write
      obtain ⟨hr, -⟩ := hw.cancelPending hwalive .read
      refine iff_of_true ⟨fun hdead => ?_, hr.requests⟩ (allowed_of_resumed rfl)
      cases hdead

/-- **When the tokens keep track of what is pending**: in every run in which a `cancel` is resumed
with a result other than `-ENOMEM` only when nothing is pending on its token, and in no other
run. -/
theorem cancelToken_tracks (h : Reaches step Allowed (· = init) s) :
    Tracks s ∧ ∀ a s', step s a = some s' → (Tracks s' ↔ Allowed s a) := by
  have ht : Tracks s := by
    refine Reaches.invariant h ?_ ?_
    · rintro s rfl
      exact ⟨fun _ _ => rfl, fun r hr => by cases hr⟩
    · rintro s a s' - ih hok hs
      exact (ih.step_iff hs).mpr hok
  exact ⟨ht, fun a s' hs => ht.step_iff hs⟩

/-- A read is cancelled, and its own coroutine is resumed before the one that cancelled it; then a
write is started and the stream goes away. -/
def cancelledRead : List Action :=
  [.start .read ⟨8, by decide, by decide⟩ .some, .cancel .read 1, .complete .read (-125),
    .cancelComplete 1 0, .execute .read, .cancelResume 1,
    .start .write ⟨16, by decide, by decide⟩ (.all 7 0), .complete .write 3, .execute .write,
    .destroy]

theorem cancelToken_tracks_cancelledRead :
    ∃ s, run step Allowed init cancelledRead = some s ∧
      s.requests = [⟨⟨8, by decide, by decide⟩, some ⟨8, by decide, by decide⟩⟩,
        ⟨⟨16, by decide, by decide⟩, some ⟨16, by decide, by decide⟩⟩] ∧ Tracks s := by
  obtain ⟨s, hs, hreq⟩ : ∃ s, run step Allowed init cancelledRead = some s ∧
      s.requests = [⟨⟨8, by decide, by decide⟩, some ⟨8, by decide, by decide⟩⟩,
        ⟨⟨16, by decide, by decide⟩, some ⟨16, by decide, by decide⟩⟩] := ⟨_, rfl, rfl⟩
  exact ⟨s, hs, hreq, (cancelToken_tracks (Reaches.run (Reaches.start rfl) hs)).1⟩

/-- The kernel could not cancel the read. -/
def notCancelled : List Action :=
  [.start .read ⟨8, by decide, by decide⟩ .some, .cancel .read 1, .cancelComplete 1 (-EALREADY),
    .cancelResume 1]

/-- The token of the read is dropped although the read is still with the kernel. -/
theorem cancelToken_notCancelled :
    ∃ s, Reaches step anyStep (· = init) s ∧ s.token .read = none ∧
      s.op .read = some ⟨⟨8, by decide, by decide⟩, .some, none⟩ ∧ ¬ Tracks s := by
  obtain ⟨s, hs, halive, htoken, hop⟩ : ∃ s, run step anyStep init notCancelled = some s ∧
      s.alive = true ∧ s.token .read = none ∧
      s.op .read = some ⟨⟨8, by decide, by decide⟩, .some, none⟩ := ⟨_, rfl, rfl, rfl, rfl⟩
  refine ⟨s, Reaches.run (Reaches.start rfl) hs, htoken, hop, fun h => ?_⟩
  have heq := h.token halive .read
  rw [htoken, hop] at heq
  cases heq

end

end Zab.CancelToken
