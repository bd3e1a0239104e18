import Zab.Engine.GenericAwaitable
import Zab.File.AsyncFile

set_option autoImplicit false

/-! # `tcp_stream::read` and `tcp_stream::write`

Both transfer a buffer from `_offset` on: a request starts where the earlier ones ended, and a
positive result asks for the next one until nothing is left. They are `stateful_awaitable`s with
nearly the same functor. The test that ends a transfer compares the number of bytes so far with the
size of the whole buffer, whatever the offset, so that with an offset a request of length zero
follows the last byte.

The elements of the buffer are bytes. The kernel is a sequence of results, one for each request.
`last_error_` is where `set_error` stores the error; the cancelation tokens are not in this model.
-/

namespace Zab.TcpStream

open AsyncFile (toSizeT)

/-- `kMaxRead`. -/
def kMaxRead : Nat := 2 ^ 31 - 1 - 2

/-- `MSG_WAITALL`. -/
def msgWaitall : BitVec 32 := 0x100

/-- The arguments: a span of `size` bytes, the offset and the flags. An object has fewer than
`2 ^ 63` bytes. -/
structure Args where
  size : Nat
  size_lt : size < 2 ^ 63
  offset : Nat
  flags : BitVec 32

/-- A request to the event loop: `len` bytes from `_data.data() + start` on. -/
structure Request where
  start : Int
  len : Nat
  flags : BitVec 32
  deriving DecidableEq

/-- What the functor has captured, and what it does to the outside. -/
structure Transfer where
  soFar : Int
  lastError : Int
  requests : List Request
  deriving DecidableEq

/-- The functor of `read` and `write`; the order of the sum that gives the start of the span and
the flags are their own. -/
def functor (args : Args) (start : Int → Int) (flags : BitVec 32) :
    StatefulAwaitable Transfer Int Int where
  ready s := decide (s.soFar = args.size)
  suspend s :=
    let amount := min (toSizeT (args.size - s.soFar - args.offset)) kMaxRead
    { s with requests := s.requests ++ [⟨start s.soFar, amount, flags⟩] }
  notify result s :=
    if result > 0 then ({ s with soFar := s.soFar + result }, .kReady)
    else ({ s with lastError := -result }, .kResume)
  resume s := (s, if s.soFar > 0 then s.soFar else -1)

/-- `read(_data, _offset, _flags)`. -/
def read (args : Args) : StatefulAwaitable Transfer Int Int :=
  functor args (fun soFar => soFar + args.offset) (args.flags ||| msgWaitall)

/-- `write(_data, _offset, _flags)`. -/
def write (args : Args) : StatefulAwaitable Transfer Int Int :=
  functor args (fun soFar => args.offset + soFar) args.flags

inductive Direction where
  | read
  | write
  deriving DecidableEq

/-- The operation on the stream. -/
def operation (d : Direction) (args : Args) : StatefulAwaitable Transfer Int Int :=
  match d with
  | .read => read args
  | .write => write args

/-- The start of an operation on a stream with the error `e`. -/
def start (e : Int) : Transfer := ⟨0, e, []⟩

/-- The awaiter of an operation after `n` completions. -/
def after (d : Direction) (args : Args) (e : Int) (results : Nat → Int) (n : Nat) :
    Awaiter Transfer Int :=
  (operation d args).after (start e) results n

/-- A request gets at most as many bytes as it asks for. -/
def Kernel (d : Direction) (args : Args) (e : Int) (results : Nat → Int) : Prop :=
  ∀ n, (after d args e results n).suspended = true →
    ∀ req ∈ (after d args e results n).state.requests.getLast?, results n ≤ req.len

/-- The bytes that the first `n` results transfer. -/
abbrev transferred (results : Nat → Int) (n : Nat) : Nat := AsyncFile.offset results n

/-- **A contiguous range is transferred**: after `n` completions the awaiter is resumed, and it
never was before. -/
structure Transfers (d : Direction) (args : Args) (e : Int) (results : Nat → Int) (n : Nat) :
    Prop where
  /-- Until then it is suspended, and one request is made before every completion. -/
  suspended : ∀ m < n, (after d args e results m).suspended = true ∧
    (after d args e results m).returned = [] ∧
    (after d args e results m).state.requests.length = m + 1
  /-- Requests lie inside the buffer and start where the earlier ones ended. -/
  requests : ∀ m i (req : Request), (after d args e results m).state.requests[i]? = some req →
    i < n ∧ req.start = args.offset + transferred results i ∧ req.start + req.len ≤ args.size
  /-- From then on it has been resumed, once, with the number of bytes or `-1`. -/
  resumed : ∀ m, n ≤ m → (after d args e results m).suspended = false ∧
    (after d args e results m).returned =
      [if 0 < transferred results n then (transferred results n : Int) else -1]
  /-- It is resumed at the first result that is not positive, which sets the error, or when the
  buffer is full, which does not. -/
  ends : (∃ m, n = m + 1 ∧ (∀ j < m, 0 < results j) ∧ results m ≤ 0 ∧
      ∀ l, n ≤ l → (after d args e results l).state.lastError = -results m) ∨
    ((∀ j < n, 0 < results j) ∧ args.offset + transferred results n = args.size ∧
      ∀ l, (after d args e results l).state.lastError = e)
  /-- No more is transferred than the buffer has from the offset on. -/
  bounded : transferred results n ≤ args.size - args.offset

/-- A request is made only while there is something left, none has length zero, and the awaiter
is not suspended when there is nothing left. -/
structure StopsWhenDone (d : Direction) (args : Args) (e : Int) (results : Nat → Int) : Prop where
  requests : ∀ m i (req : Request), (after d args e results m).state.requests[i]? = some req →
    transferred results i < args.size - args.offset ∧ req.len ≠ 0
  resumed : ∀ m, transferred results m = args.size - args.offset →
    (after d args e results m).suspended = false

/-! ## How a transfer goes -/

section

variable {d : Direction} {args : Args} {e : Int} {results : Nat → Int} {n m i : Nat}

/-- Completion number `n` is waited for: all results before it were positive, and the buffer was
never as full as `await_ready` wants it. -/
def Waits (args : Args) (results : Nat → Int) (n : Nat) : Prop :=
  (∀ j < n, 0 < results j) ∧ ∀ j ≤ n, transferred results j ≠ args.size

/-- The flags of the requests. -/
def requestFlags (d : Direction) (args : Args) : BitVec 32 :=
  match d with
  | .read => args.flags ||| msgWaitall
  | .write => args.flags

/-- Request number `i`. -/
def request (d : Direction) (args : Args) (results : Nat → Int) (i : Nat) : Request where
  start := (args.offset + transferred results i : Nat)
  len := min (toSizeT (args.size - transferred results i - args.offset)) kMaxRead
  flags := requestFlags d args

/-- The transfer while completion number `n` is waited for. -/
def underway (d : Direction) (args : Args) (e : Int) (results : Nat → Int) (n : Nat) : Transfer :=
  ⟨transferred results n, e, (List.range (n + 1)).map (request d args results)⟩

theorem operation_ready (s : Transfer) :
    (operation d args).ready s = decide (s.soFar = args.size) := by
  cases d <;> rfl

theorem operation_notify (r : Int) (s : Transfer) :
    (operation d args).notify r s = if r > 0 then ({ s with soFar := s.soFar + r }, .kReady)
      else ({ s with lastError := -r }, .kResume) := by
  cases d <;> rfl

theorem operation_resume (s : Transfer) :
    (operation d args).resume s = (s, if s.soFar > 0 then s.soFar else -1) := by
  cases d <;> rfl

/-- Both operations make the same requests, up to the flags. -/
theorem operation_suspend {s : Transfer} (hs : s.soFar = transferred results n) :
    (operation d args).suspend s =
      { s with requests := s.requests ++ [request d args results n] } := by
  cases d with
  | read =>
      simp only [operation, read, functor, request, requestFlags, hs]
      rw [Int.add_comm, Nat.cast_add]
  | write =>
      simp only [operation, write, functor, request, requestFlags, hs]
      rw [Nat.cast_add]

/-- Unless the buffer is full, `await_suspend` makes the next request. -/
theorem proceed_ready {s : Transfer} (hs : s.soFar = transferred results n)
    (hne : transferred results n ≠ args.size) {b : Bool} {returned : List Int} :
    (operation d args).proceed ⟨s, b, returned⟩ .kReady =
      ⟨{ s with requests := s.requests ++ [request d args results n] }, true, returned⟩ := by
  have hready : (operation d args).ready s = false := by
    rw [operation_ready, hs]
    exact decide_eq_false (by exact_mod_cast hne)
  simp only [StatefulAwaitable.proceed, hready, StatefulAwaitable.awaitSuspend,
    operation_suspend hs, Bool.false_eq_true, if_false]

theorem Waits.of_le (h : Waits args results n) (hm : m ≤ n) : Waits args results m :=
  ⟨fun j hj => h.1 j (by omega), fun j hj => h.2 j (by omega)⟩

/-- The state while completion number `n` is waited for. -/
theorem Waits.after_eq (h : Waits args results n) :
    after d args e results n = ⟨underway d args e results n, true, []⟩ := by
  induction n with
  | zero =>
      have hne : transferred results 0 ≠ args.size := h.2 0 (Nat.le_refl 0)
      exact proceed_ready (s := start e) rfl hne
  | succ n ih =>
      have hpos : 0 < results n := h.1 n (Nat.lt_succ_self n)
      have hsum : (transferred results n : Int) + results n = transferred results (n + 1) := by
        simp only [transferred, AsyncFile.offset]
        omega
      have hprev := ih (h.of_le (Nat.le_succ n))
      have hstep : after d args e results (n + 1) =
          (operation d args).onNotify (results n) (after d args e results n) := by
        simp only [TcpStream.after] at hprev ⊢
        simp only [StatefulAwaitable.after, hprev, if_true]
      rw [hstep, hprev]
      simp only [StatefulAwaitable.onNotify, operation_notify, if_pos hpos]
      rw [proceed_ready (n := n + 1) hsum (h.2 (n + 1) (Nat.le_refl _))]
      simp only [underway, hsum, List.range_succ (n := n + 1), List.map_append, List.map_cons,
        List.map_nil]

/-- What is returned after `t` bytes. -/
def result (t : Nat) : Int := if 0 < t then t else -1

theorem operation_execute {s : Transfer} {t : Nat} (hs : s.soFar = t) {b : Bool} :
    (operation d args).execute ⟨s, b, []⟩ = ⟨s, false, [result t]⟩ := by
  simp only [StatefulAwaitable.execute, operation_resume, result, hs, List.nil_append, gt_iff_lt,
    Nat.cast_pos]

/-- The step after a completion that was waited for. -/
theorem Waits.after_succ (h : Waits args results n) :
    after d args e results (n + 1) =
      (operation d args).onNotify (results n) ⟨underway d args e results n, true, []⟩ := by
  have heq := h.after_eq (d := d) (e := e)
  simp only [after] at heq ⊢
  simp only [StatefulAwaitable.after, heq, if_true]

/-- An empty buffer is full at once. -/
theorem after_empty (h : args.size = 0) :
    after d args e results 0 = ⟨start e, false, [result 0]⟩ := by
  have hready : (operation d args).ready (start e) = true := by
    rw [operation_ready, h]
    rfl
  simp only [after, StatefulAwaitable.after, StatefulAwaitable.coAwait, StatefulAwaitable.proceed,
    hready, if_true]
  exact operation_execute rfl

/-- A result that is not positive ends the transfer with an error. -/
theorem Waits.after_failed (h : Waits args results n) (hr : results n ≤ 0) :
    after d args e results (n + 1) =
      ⟨{ underway d args e results n with lastError := -results n }, false,
        [result (transferred results n)]⟩ := by
  rw [h.after_succ]
  simp only [StatefulAwaitable.onNotify, operation_notify, gt_iff_lt, if_neg (not_lt.mpr hr),
    StatefulAwaitable.proceed]
  exact operation_execute rfl

/-- A result that fills the buffer ends the transfer. -/
theorem Waits.after_full (h : Waits args results n) (hpos : 0 < results n)
    (hfull : transferred results (n + 1) = args.size) :
    after d args e results (n + 1) =
      ⟨{ underway d args e results n with soFar := transferred results (n + 1) }, false,
        [result (transferred results (n + 1))]⟩ := by
  have hsum : (transferred results n : Int) + results n = transferred results (n + 1) := by
    simp only [transferred, AsyncFile.offset]
    omega
  rw [h.after_succ]
  simp only [StatefulAwaitable.onNotify, operation_notify, gt_iff_lt, if_pos hpos]
  simp only [underway, hsum, StatefulAwaitable.proceed, operation_ready, hfull, decide_true,
    if_true]
  rw [← hfull]
  exact operation_execute rfl

/-- When the awaiter has been resumed, nothing happens any more. -/
theorem after_stable (h : (after d args e results n).suspended = false) (hm : n ≤ m) :
    after d args e results m = after d args e results n := by
  induction hm with
  | refl => rfl
  | step _ ih =>
      simp only [after] at h ih ⊢
      rw [StatefulAwaitable.after, ih]
      simp only [h, Bool.false_eq_true, if_false]

/-! ## The kernel -/

theorem Kernel.le_len (hk : Kernel d args e results) (h : Waits args results n) :
    results n ≤ (request d args results n).len := by
  have heq := h.after_eq (d := d) (e := e)
  refine hk n (by rw [heq]) (request d args results n) ?_
  rw [heq]
  simp [underway, List.range_succ]

/-- A request lies inside the buffer. -/
theorem len_le (hle : transferred results n ≤ args.size - args.offset)
    (hoff : args.offset ≤ args.size) :
    args.offset + transferred results n + (request d args results n).len ≤ args.size := by
  have hsize := args.size_lt
  have hfit := AsyncFile.toSizeT_of_lt (z := args.size - transferred results n - args.offset)
    (by omega) (by omega)
  have hmin : (request d args results n).len ≤
      toSizeT (args.size - transferred results n - args.offset) := Nat.min_le_left ..
  omega

/-- A request that has something left to ask for does so. -/
theorem len_pos (hlt : transferred results n < args.size - args.offset) :
    (request d args results n).len ≠ 0 := by
  have hsize := args.size_lt
  have hfit := AsyncFile.toSizeT_of_lt (z := args.size - transferred results n - args.offset)
    (by omega) (by omega)
  have hlen : (request d args results n).len =
      min (toSizeT (args.size - transferred results n - args.offset)) kMaxRead := rfl
  have hmax : 0 < kMaxRead := by decide
  omega

theorem Kernel.transferred_le (hk : Kernel d args e results) (hoff : args.offset ≤ args.size)
    (h : ∀ m < n, Waits args results m) : transferred results n ≤ args.size - args.offset := by
  induction n with
  | zero => exact Nat.zero_le _
  | succ n ih =>
      have hle := ih fun m hm => h m (by omega)
      have hlen := len_le (d := d) hle hoff
      have hres := hk.le_len (h n (Nat.lt_succ_self n))
      have hsum : transferred results (n + 1) = transferred results n + (results n).toNat := rfl
      omega

/-- The transfer comes to an end: the completions below `n` are those that are waited for. -/
theorem Kernel.ends (hk : Kernel d args e results) (hoff : args.offset ≤ args.size) :
    ∃ n, (∀ m < n, Waits args results m) ∧ ¬ Waits args results n := by
  have hex : ∃ n, ¬ Waits args results n := by
    by_contra hall
    rw [not_exists] at hall
    have hwaits : ∀ m, Waits args results m := fun m => not_not.mp (hall m)
    have hle := hk.transferred_le hoff (n := args.size + 1) fun m _ => hwaits m
    have hge := AsyncFile.le_offset (hwaits (args.size + 1)).1
    simp only [transferred] at hle
    omega
  classical
  exact ⟨Nat.find hex, fun m hm => not_not.mp (Nat.find_min hex hm), Nat.find_spec hex⟩

/-! ## The end of a transfer -/

/-- What ends a transfer: an empty buffer, a result that is not positive, or one that fills the
buffer. -/
theorem ends_cases (h : ∀ m < n, Waits args results m) (hn : ¬ Waits args results n) :
    (n = 0 ∧ args.size = 0) ∨ (∃ m, n = m + 1 ∧ results m ≤ 0) ∨
      ∃ m, n = m + 1 ∧ 0 < results m ∧ transferred results n = args.size := by
  cases n with
  | zero =>
      refine Or.inl ⟨rfl, ?_⟩
      by_contra hne
      refine hn ⟨fun j hj => absurd hj (Nat.not_lt_zero j), fun j hj => ?_⟩
      rw [Nat.le_zero.mp hj]
      exact Ne.symm hne
  | succ m =>
      have hm := h m (Nat.lt_succ_self m)
      by_cases hpos : 0 < results m
      · refine Or.inr (Or.inr ⟨m, rfl, hpos, ?_⟩)
        by_contra hne
        refine hn ⟨fun j hj => ?_, fun j hj => ?_⟩
        · rcases Nat.lt_succ_iff_lt_or_eq.mp hj with hj | rfl
          · exact hm.1 j hj
          · exact hpos
        · rcases Nat.le_succ_iff.mp hj with hj | rfl
          · exact hm.2 j hj
          · exact hne
      · exact Or.inr (Or.inl ⟨m, rfl, by omega⟩)

theorem range_request (k : Nat) {req : Request}
    (h : ((List.range k).map (request d args results))[i]? = some req) :
    i < k ∧ req = request d args results i := by
  rw [List.getElem?_map, Option.map_eq_some_iff] at h
  obtain ⟨j, hj, rfl⟩ := h
  obtain ⟨hlt, rfl⟩ := List.getElem?_eq_some_iff.mp hj
  rw [List.length_range] at hlt
  rw [List.getElem_range]
  exact ⟨hlt, rfl⟩

/-- The state in which the awaiter has been resumed, after `n` completions. -/
theorem after_end (h : ∀ m < n, Waits args results m) (hn : ¬ Waits args results n) :
    (after d args e results n).suspended = false ∧
      (after d args e results n).returned = [result (transferred results n)] ∧
      (after d args e results n).state.requests = (List.range n).map (request d args results) := by
  rcases ends_cases h hn with ⟨rfl, hsize⟩ | ⟨m, rfl, hr⟩ | ⟨m, rfl, hpos, hfull⟩
  · rw [after_empty hsize]
    exact ⟨rfl, rfl, rfl⟩
  · have hm := h m (Nat.lt_succ_self m)
    have hsame : transferred results (m + 1) = transferred results m := by
      simp only [transferred, AsyncFile.offset]
      omega
    rw [hm.after_failed hr, hsame]
    exact ⟨rfl, rfl, rfl⟩
  · rw [(h m (Nat.lt_succ_self m)).after_full hpos hfull]
    exact ⟨rfl, rfl, rfl⟩

/-- The requests of every state are the first ones of those that are made. -/
theorem requests_eq (h : ∀ m < n, Waits args results m) (hn : ¬ Waits args results n) (m : Nat) :
    (after d args e results m).state.requests =
      (List.range (min (m + 1) n)).map (request d args results) := by
  obtain ⟨hsus, -, hreq⟩ := after_end (d := d) (e := e) h hn
  rcases Nat.lt_or_ge m n with hm | hm
  · rw [(h m hm).after_eq, Nat.min_eq_left hm]
    rfl
  · rw [after_stable hsus hm, hreq, Nat.min_eq_right (by omega)]

/-- **`read` and `write` transfer a contiguous range**, whatever the kernel returns. -/
theorem tcpStream_transfers (hoff : args.offset ≤ args.size) (hk : Kernel d args e results) :
    ∃ n, Transfers d args e results n := by
  obtain ⟨n, h, hn⟩ := hk.ends hoff
  have hle : ∀ m ≤ n, transferred results m ≤ args.size - args.offset :=
    fun m hm => hk.transferred_le hoff fun j hj => h j (by omega)
  obtain ⟨hsus, hret, -⟩ := after_end (d := d) (e := e) h hn
  refine ⟨n, ⟨fun m hm => ?_, fun m i req hreq => ?_, fun m hm => ?_, ?_, hle n (Nat.le_refl n)⟩⟩
  · rw [(h m hm).after_eq]
    exact ⟨rfl, rfl, by simp [underway]⟩
  · rw [requests_eq h hn] at hreq
    obtain ⟨hi, rfl⟩ := range_request _ hreq
    have hin : i < n := Nat.lt_of_lt_of_le hi (Nat.min_le_right ..)
    have hlen := len_le (d := d) (hle i hin.le) hoff
    have hstart : (request d args results i).start =
        (args.offset + transferred results i : Nat) := rfl
    exact ⟨hin, by rw [hstart, Nat.cast_add], by omega⟩
  · rw [after_stable hsus hm]
    exact ⟨hsus, hret⟩
  · rcases ends_cases h hn with ⟨rfl, hsize⟩ | ⟨m, rfl, hr⟩ | ⟨m, rfl, hpos, hfull⟩
    · refine Or.inr ⟨fun j hj => absurd hj (Nat.not_lt_zero j), ?_, fun l => ?_⟩
      · have : transferred results 0 = 0 := rfl
        omega
      · rw [after_stable hsus (Nat.zero_le l), after_empty hsize]
        rfl
    · have hm := h m (Nat.lt_succ_self m)
      refine Or.inl ⟨m, rfl, hm.1, hr, fun l hl => ?_⟩
      rw [after_stable hsus hl, hm.after_failed hr]
    · have hm := h m (Nat.lt_succ_self m)
      refine Or.inr ⟨fun j hj => ?_, ?_, fun l => ?_⟩
      · rcases Nat.lt_succ_iff_lt_or_eq.mp hj with hj | rfl
        · exact hm.1 j hj
        · exact hpos
      · -- the buffer can only be full if nothing of it was left out
        have := hle (m + 1) (Nat.le_refl _)
        omega
      · rcases Nat.lt_or_ge l (m + 1) with hl | hl
        · rw [(h l hl).after_eq]
          rfl
        · rw [after_stable hsus hl, hm.after_full hpos hfull]
          rfl

/-- **When `read` and `write` stop**: unless there is an offset and the kernel goes on to deliver
until nothing is left. -/
theorem tcpStream_stopsWhenDone_iff (hoff : args.offset ≤ args.size)
    (hk : Kernel d args e results) :
    StopsWhenDone d args e results ↔
      args.offset = 0 ∨ ∃ i, results i ≤ 0 ∧ transferred results i < args.size - args.offset := by
  obtain ⟨n, h, hn⟩ := hk.ends hoff
  have hle : ∀ m ≤ n, transferred results m ≤ args.size - args.offset :=
    fun m hm => hk.transferred_le hoff fun j hj => h j (by omega)
  obtain ⟨hsus, -, -⟩ := after_end (d := d) (e := e) h hn
  constructor
  · intro hstop
    by_cases h0 : args.offset = 0
    · exact Or.inl h0
    refine Or.inr ?_
    -- the last request is answered by a result that is not positive
    rcases ends_cases h hn with ⟨rfl, hsize⟩ | ⟨m, rfl, hr⟩ | ⟨m, rfl, hpos, hfull⟩
    · omega
    · refine ⟨m, hr, (hstop.requests m m (request d args results m) ?_).1⟩
      rw [requests_eq h hn, Nat.min_self, List.getElem?_map, List.getElem?_range (by omega)]
      rfl
    · have := hle (m + 1) (Nat.le_refl _)
      omega
  · intro hcond
    -- every request that is made comes before the end of the range
    have hlt : ∀ i < n, transferred results i < args.size - args.offset := by
      intro i hi
      have hi' := hle i hi.le
      rcases hcond with h0 | ⟨j, hj, hjlt⟩
      · have := (h i hi).2 i (Nat.le_refl i)
        omega
      · have hij : i ≤ j := by
          by_contra hji
          have := (h i hi).1 j (by omega)
          omega
        exact Nat.lt_of_le_of_lt (AsyncFile.offset_mono hij) hjlt
    constructor
    · intro m i req hreq
      rw [requests_eq h hn] at hreq
      obtain ⟨hi, rfl⟩ := range_request _ hreq
      have hin : i < n := Nat.lt_of_lt_of_le hi (Nat.min_le_right ..)
      exact ⟨hlt i hin, len_pos (hlt i hin)⟩
    · intro m hm
      rcases Nat.lt_or_ge m n with hmn | hmn
      · have := hlt m hmn
        omega
      · rw [after_stable hsus hmn]
        exact hsus

end

/-! ## Short transfers -/

theorem six_fits : 6 < 2 ^ 63 := by decide

/-- Six bytes, from the third on. -/
def sixFromTwo : Args := ⟨6, six_fits, 2, 0⟩

theorem five_fits : 5 < 2 ^ 63 := by decide

/-- Five bytes, from the third on. -/
def fiveFromTwo : Args := ⟨5, five_fits, 2, 0⟩

/-- Two bytes, then one, and then nothing. -/
def twoOneNone : Nat → Int
  | 0 => 2
  | 1 => 1
  | _ + 2 => 0

/-- What has to be checked of a kernel, if the awaiter has been resumed after `n` completions. -/
theorem kernel_of_end {d : Direction} {args : Args} {e : Int} {results : Nat → Int} {n : Nat}
    (hend : (after d args e results n).suspended = false)
    (h : ∀ m < n, ∀ req ∈ (after d args e results m).state.requests.getLast?,
      results m ≤ req.len) : Kernel d args e results := by
  intro m hm
  rcases Nat.lt_or_ge m n with hlt | hge
  · exact h m hlt
  · rw [after_stable hend hge, hend] at hm
    cases hm

theorem kernel_sixFromTwo : Kernel .read sixFromTwo 0 twoOneNone :=
  kernel_of_end (n := 3) (by decide) (by decide)

theorem kernel_fiveFromTwo : Kernel .read fiveFromTwo 0 twoOneNone :=
  kernel_of_end (n := 3) (by decide) (by decide)

theorem tcpStream_transfers_sixFromTwo :
    Kernel .read sixFromTwo 0 twoOneNone ∧
      ((after .read sixFromTwo 0 twoOneNone 3).state.requests.map fun req => (req.start, req.len)) =
        [(2, 4), (4, 2), (5, 1)] ∧
      (after .read sixFromTwo 0 twoOneNone 3).returned = [3] ∧
      ∃ n, Transfers .read sixFromTwo 0 twoOneNone n :=
  ⟨kernel_sixFromTwo, by decide, by decide, tcpStream_transfers (by decide) kernel_sixFromTwo⟩

/-- The connection ends before the range does. -/
theorem tcpStream_stopsWhenDone_iff_sixFromTwo :
    Kernel .read sixFromTwo 0 twoOneNone ∧ StopsWhenDone .read sixFromTwo 0 twoOneNone :=
  ⟨kernel_sixFromTwo, (tcpStream_stopsWhenDone_iff (by decide) kernel_sixFromTwo).mpr
    (Or.inr ⟨2, by decide, by decide⟩)⟩

/-- Three bytes have been transferred into a range of three, and the awaiter is suspended on a
request of length zero. -/
theorem tcpStream_emptyRequest :
    Kernel .read fiveFromTwo 0 twoOneNone ∧
      ((after .read fiveFromTwo 0 twoOneNone 2).state.requests.map
        fun req => (req.start, req.len)) = [(2, 3), (4, 1), (5, 0)] ∧
      transferred twoOneNone 2 = fiveFromTwo.size - fiveFromTwo.offset ∧
      (after .read fiveFromTwo 0 twoOneNone 2).suspended = true ∧
      ¬ StopsWhenDone .read fiveFromTwo 0 twoOneNone := by
  refine ⟨kernel_fiveFromTwo, by decide, by decide, by decide, fun h => ?_⟩
  have := h.resumed 2 (by decide)
  exact absurd this (by decide)

end Zab.TcpStream
