set_option autoImplicit false

/-! # A worker of the engine: `event_loop::run` and the end of it

The thread of a worker registers a callback with its stop token, waits for the other workers, and
calls `run`. There it starts the coroutine `run_user_space`, which executes the user events and
suspends in a read of the eventfd again and again, and takes completions in batches until a stop is
requested. A request of a stop sets the token and then calls the callback, which writes to the
eventfd, so that a worker that sleeps has the completion of the read to wake up for.

Of the ring, the read of `run_user_space` is kept apart from all other operations, whose completions
may come at any time; of the user events only what they do to the eventfd. What runs inside a
handler is up to the user. Before it is submitted the read may fail because the queue is full, and
afterwards because the kernel says so; `io_uring_wait_cqe` may fail as well.

`made`, `freed` and `owed` are read by no branch of the code: the first two count the frames of
`run_user_space`, the last says that somebody has requested the stop and has still to call the
callback.
-/

namespace Zab.Workers

/-- A completion. -/
inductive Item where
  /-- Of the read of the eventfd, by whether it has succeeded. -/
  | userRead (ok : Bool)
  | other
  deriving DecidableEq

/-- Where `run_user_space` is. -/
inductive UserSpace where
  /-- It has not been called. -/
  | unborn
  /-- Before the swap of the deques. -/
  | swap
  /-- In the `for` loop. -/
  | executing
  /-- Suspended, the read prepared. -/
  | prepared
  | submitted
  /-- Suspended, with a completion of the read that has not been executed. -/
  | completed (ok : Bool)
  /-- After the `co_await`. -/
  | resumed (ok : Bool)
  | ended (failed : Bool)
  deriving DecidableEq

/-- Where the thread of the worker is. -/
inductive Pc where
  /-- There is no thread. -/
  | unborn
  /-- Before the constructor of the `stop_callback`. -/
  | created
  /-- The constructor of the `stop_callback` calls the callback. -/
  | callback
  /-- Before it arrives at the latch. -/
  | arrive
  | latch
  /-- In the call of `run_user_space`. -/
  | userSpace
  /-- Before the first `io_uring_submit`. -/
  | submit
  /-- At `_st.stop_requested()`. -/
  | test
  /-- In `io_uring_wait_cqe`. -/
  | wait
  /-- Before `io_uring_peek_batch_cqe`. -/
  | peek
  /-- Executing a batch; `rest` is what is left of it. -/
  | execute (rest : List Item)
  /-- In a handler that is not `run_user_space`. -/
  | handler (rest : List Item)
  | exited
  deriving DecidableEq

structure Worker where
  pc : Pc
  userSpace : UserSpace
  /-- The state of the stop token. -/
  requested : Bool
  /-- A callback is registered with it. -/
  callback : Bool
  eventFd : Nat
  cq : List Item
  /-- `use_space_handle_` is set. -/
  handle : Bool
  made : Nat
  freed : Nat
  owed : Bool
  deriving DecidableEq

/-- The event loop after its construction. -/
def init : Worker where
  pc := .unborn
  userSpace := .unborn
  requested := false
  callback := false
  eventFd := 0
  cq := []
  handle := false
  made := 0
  freed := 0
  owed := false

/-- The coroutine runs. -/
def UserSpace.running : UserSpace → Bool
  | .swap | .executing | .resumed _ => true
  | .unborn | .prepared | .submitted | .completed _ | .ended _ => false

/-- The coroutine is suspended in its read. -/
def UserSpace.suspended : UserSpace → Bool
  | .prepared | .submitted | .completed _ => true
  | .unborn | .swap | .executing | .resumed _ | .ended _ => false

/-- Code of the user runs on the thread. -/
def Worker.inHandler (w : Worker) : Bool :=
  match w.pc with
  | .userSpace | .execute _ => w.userSpace == .executing
  | .handler _ => true
  | _ => false

/-- The coroutine returns, and its frame is destroyed. -/
def Worker.endUserSpace (w : Worker) (failed : Bool) : Worker :=
  { w with userSpace := .ended failed, freed := w.freed + 1 }

/-- The next step of `run_user_space`; `full` says that the submission queue has no room. -/
def Worker.runUserSpace (w : Worker) (full : Bool) : Option Worker :=
  match w.userSpace with
  | .swap => some { w with userSpace := .executing }
  | .executing =>
      if full then some (w.endUserSpace true)
      else some { w with userSpace := .prepared, handle := true }
  | .resumed ok =>
      -- the result is looked at before the token
      if ok = false then some (w.endUserSpace true)
      else if w.requested = false then some { w with userSpace := .swap }
      else some (w.endUserSpace false)
  | .unborn | .prepared | .submitted | .completed _ | .ended _ => none

/-- `io_uring_submit` -/
def Worker.submit (w : Worker) : Worker :=
  if w.userSpace = .prepared then { w with userSpace := .submitted } else w

/-- `wake()` -/
def Worker.wake (w : Worker) : Worker := { w with eventFd := w.eventFd + 1 }

/-- `kMaxBatch` -/
def kMaxBatch : Nat := 16

/-- The next step of the thread, but for the latch; a peek takes `amount` completions. -/
def Worker.advance (w : Worker) (full : Bool) (amount : Nat) : Option Worker :=
  match w.pc with
  | .unborn | .arrive | .latch | .exited => none
  | .created =>
      -- a stop that has been requested before is called back by the constructor
      if w.requested then some { w with pc := .callback }
      else some { w with pc := .arrive, callback := true }
  | .callback => some { w.wake with pc := .arrive }
  | .userSpace =>
      if w.userSpace.running then w.runUserSpace full else some { w with pc := .submit }
  | .submit => some { w.submit with pc := .test }
  | .test =>
      -- with `run` the `stop_callback` goes out of scope
      if w.requested then some { w with pc := .exited, callback := false }
      else some { w with pc := .wait }
  | .wait => if w.cq = [] then none else some { w with pc := .peek }
  | .peek =>
      if w.cq = [] then some { w with pc := .test }
      else if 1 ≤ amount ∧ amount ≤ kMaxBatch ∧ amount ≤ w.cq.length then
        some { w with pc := .execute (w.cq.take amount), cq := w.cq.drop amount }
      else none
  | .execute rest =>
      if w.userSpace.running then w.runUserSpace full
      else
        match rest with
        | [] => some { w.submit with pc := .peek }
        | .userRead ok :: rest =>
            some { w with userSpace := .resumed ok, handle := false, pc := .execute rest }
        | .other :: rest => some { w with pc := .handler rest }
  | .handler rest => some { w with pc := .execute rest }

/-- The latch is open: `run` calls `run_user_space`. -/
def Worker.enter (w : Worker) : Worker :=
  { w with pc := .userSpace, userSpace := .swap, made := w.made + 1 }

/-- What happens to a worker from outside. -/
inductive Outside where
  /-- An event is dispatched and wakes the worker. -/
  | wake
  /-- An operation other than the read of the eventfd completes. -/
  | other
  /-- The kernel reads the eventfd. -/
  | read
  /-- The read of the eventfd fails. -/
  | readFails
  /-- `io_uring_wait_cqe` fails. -/
  | waitFails
  deriving DecidableEq

def Worker.outside (w : Worker) : Outside → Option Worker
  | .wake => some w.wake
  | .other => some { w with cq := w.cq ++ [.other] }
  | .read =>
      if w.userSpace = .submitted ∧ 0 < w.eventFd then
        some { w with userSpace := .completed true, eventFd := 0, cq := w.cq ++ [.userRead true] }
      else none
  | .readFails =>
      if w.userSpace = .submitted then
        some { w with userSpace := .completed false, cq := w.cq ++ [.userRead false] }
      else none
  | .waitFails =>
      if w.pc = .wait then some { w with pc := .exited, callback := false } else none

/-- The token of the worker is set by somebody who then calls the callback, if there is one. -/
def Worker.request (w : Worker) : Worker := { w with requested := true, owed := w.callback }

/-- Whoever has requested the stop calls the callback, unless the worker has deregistered it. -/
def Worker.callBack (w : Worker) : Worker :=
  if w.callback then { w.wake with owed := false } else { w with owed := false }

/-- `~event_loop` -/
def Worker.destruct (w : Worker) : Worker :=
  if w.handle then { w with freed := w.freed + 1, handle := false } else w

end Zab.Workers
