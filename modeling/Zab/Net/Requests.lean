import Zab.Net.TcpConnect
import Zab.Net.TcpStream

set_option autoImplicit false

/-! # What the network operations ask the event loop for

Six operations make requests: `accept`, `tcp_connect`, `read_some`, `read`, `write_some` and
`write`. Each copies its arguments into a lambda of its own, which builds the request. Three of them
lose something on the way: `accept` overwrites the pointer to the address, before the lambda is
made; the two writes take the flags as they are; and `write` shortens its requests to the maximum
of the reads.

`accept`, `read_some` and `write_some` make one request; `tcp_connect`, `read` and `write` have
models of their own. A pointer is a number, 0 is the null pointer. The descriptor is the one that
the object has when the request is made. The cancelation tokens are not in this model.
-/

namespace Zab.Requests

open NetworkOperation (Fd)
open AsyncFile (toSizeT)
open TcpStream (kMaxRead msgWaitall transferred)

/-- What the event loop is asked for. The buffer of `recv` and `send` starts `start` bytes after
`_data.data()`. -/
inductive Request where
  | accept (fd : Option Fd) (address length : Nat) (flags : BitVec 32)
  | connect (fd : Option Fd) (details size : Nat)
  | recv (fd : Option Fd) (start : Int) (len : Nat) (flags : BitVec 32)
  | send (fd : Option Fd) (start : Int) (len : Nat) (flags : BitVec 32)
  deriving DecidableEq

/-! ## The operations with one request -/

/-- What the functor of such an operation has captured, and what it does to the outside. -/
structure Call (ρ : Type) where
  /-- `ret.result_`. -/
  result : Int
  lastError : Int
  requests : List Request
  returned : Option ρ

section

variable {H ρ : Type}

/-- `co_await`: if it suspends, `result` is what the event loop stores before the awaiter goes
on. -/
def await (f : GenericAwaitable (Call ρ) H) (handle : H) (result : Int) (c : Call ρ) : Call ρ :=
  match f.coAwait handle c with
  | (c, .suspends) => (f .resume { c with result := result }).1
  | (c, .continues) => (f .resume c).1

/-- The functor when it is made, for an object with the error `e`. -/
def Call.start (ρ : Type) (e : Int) : Call ρ := ⟨0, e, [], none⟩

end

/-- The arguments of `accept`. -/
structure AcceptArgs where
  address : Nat
  length : Nat
  flags : BitVec 32

/-- The lambda of `accept`; what it returns is the descriptor of the stream. -/
def acceptFunctor (fd : Option Fd) (args : AcceptArgs) : GenericAwaitable (Call (Option Int)) Unit
  | .suspend _, c =>
      ({ c with requests := c.requests ++ [.accept fd args.address args.length args.flags] }, .void)
  | .ready, c => (c, .void)
  | .resume, c =>
      if c.result ≥ 0 then ({ c with returned := some (some c.result) }, .void)
      else ({ c with lastError := -c.result, returned := some none }, .void)

/-- `accept(_address, _length, _flags)`: `memset` clears the pointer, not what it points to. -/
def accept (fd : Option Fd) (args : AcceptArgs) : GenericAwaitable (Call (Option Int)) Unit :=
  acceptFunctor fd { args with address := 0 }

/-- `kMaxWrite`. -/
def kMaxWrite : Nat := 2 ^ 16 - 1

/-- `MSG_NOSIGNAL`. -/
def msgNosignal : BitVec 32 := 0x4000

/-- The functor of `read_some` and `write_some`, up to the request. -/
def someFunctor (args : TcpStream.Args) (max : Nat) (request : Int → Nat → BitVec 32 → Request) :
    GenericAwaitable (Call Int) Unit
  | .ready, c => (c, .bool (args.size = 0))
  | .suspend _, c =>
      let amount := min (toSizeT (args.size - args.offset)) max
      ({ c with requests := c.requests ++ [request args.offset amount args.flags] }, .void)
  | .resume, c =>
      if c.result > 0 then ({ c with returned := some c.result }, .void)
      else ({ c with lastError := -c.result, returned := some (-1) }, .void)

/-- `read_some(_data, _offset, _flags)`. -/
def readSome (fd : Option Fd) (args : TcpStream.Args) : GenericAwaitable (Call Int) Unit :=
  someFunctor args kMaxRead (.recv fd)

/-- `write_some(_data, _offset, _flags)`. -/
def writeSome (fd : Option Fd) (args : TcpStream.Args) : GenericAwaitable (Call Int) Unit :=
  someFunctor args kMaxWrite (.send fd)

/-! ## All operations -/

inductive Operation where
  | accept (args : AcceptArgs)
  | connect (args : TcpConnect.Args)
  | readSome (args : TcpStream.Args)
  | read (args : TcpStream.Args)
  | writeSome (args : TcpStream.Args)
  | write (args : TcpStream.Args)

/-- In some run the operation asks for `req` when its object has the descriptor `fd` and `soFar`
bytes have been transferred. -/
def Asks : Operation → Option Fd → Nat → Request → Prop
  | .accept args, fd, soFar, req => soFar = 0 ∧
      ∃ e result, req ∈ (await (accept fd args) () result (.start _ e)).requests
  | .connect args, fd, soFar, req => soFar = 0 ∧
      ∃ s x q, TcpConnect.Reachable args s ∧ s.pc = .suspended ∧
        s.base.object TcpConnect.functor = some x ∧ fd = x.sd ∧ s.request = some q ∧
        req = .connect q.fd q.details q.size
  | .readSome args, fd, soFar, req => soFar = 0 ∧
      ∃ e result, req ∈ (await (readSome fd args) () result (.start _ e)).requests
  | .writeSome args, fd, soFar, req => soFar = 0 ∧
      ∃ e result, req ∈ (await (writeSome fd args) () result (.start _ e)).requests
  | .read args, fd, soFar, req =>
      ∃ e results n i r, TcpStream.Kernel .read args e results ∧
        (TcpStream.after .read args e results n).state.requests[i]? = some r ∧
        soFar = transferred results i ∧ req = .recv fd r.start r.len r.flags
  | .write args, fd, soFar, req =>
      ∃ e results n i r, TcpStream.Kernel .write args e results ∧
        (TcpStream.after .write args e results n).state.requests[i]? = some r ∧
        soFar = transferred results i ∧ req = .send fd r.start r.len r.flags

/-- `soFar` bytes after the offset of the buffer, `len` bytes lie within it and within `max`. -/
def Within (args : TcpStream.Args) (soFar len max : Nat) : Prop :=
  args.offset + soFar + len ≤ args.size ∧ len ≤ max

/-- What is documented for the request: the descriptor of the object and the arguments of the
caller. -/
def AsDocumented : Operation → Option Fd → Nat → Request → Prop
  | .accept args, fd, _, req => req = .accept fd args.address args.length args.flags
  | .connect args, fd, _, req => req = .connect fd args.details args.size
  | .readSome args, fd, soFar, req => ∃ len, Within args soFar len kMaxRead ∧
      req = .recv fd (args.offset + soFar : Nat) len args.flags
  | .read args, fd, soFar, req => ∃ len, Within args soFar len kMaxRead ∧
      req = .recv fd (args.offset + soFar : Nat) len (args.flags ||| msgWaitall)
  | .writeSome args, fd, soFar, req | .write args, fd, soFar, req =>
      ∃ len, Within args soFar len kMaxWrite ∧
        req = .send fd (args.offset + soFar : Nat) len (args.flags ||| msgNosignal)

/-- The offset lies in the buffer. -/
def Operation.Admitted : Operation → Prop
  | .accept _ | .connect _ => True
  | .readSome args | .read args | .writeSome args | .write args => args.offset ≤ args.size

/-- When an operation passes on what it was given. -/
def Operation.PassesOn : Operation → Prop
  | .accept args => args.address = 0
  | .connect _ | .readSome _ | .read _ => True
  | .writeSome args => args.size = 0 ∨ args.flags ||| msgNosignal = args.flags
  | .write args => args.size = 0 ∨
      args.flags ||| msgNosignal = args.flags ∧ args.size - args.offset ≤ kMaxWrite

section

variable {fd : Option Fd} {args : TcpStream.Args} {soFar : Nat} {req : Request} {e result : Int}

/-- The only request of `accept`. -/
theorem accept_requests (args : AcceptArgs) :
    (await (accept fd args) () result (.start _ e)).requests =
      [.accept fd 0 args.length args.flags] := by
  simp only [await, GenericAwaitable.coAwait, GenericAwaitable.awaitReady,
    GenericAwaitable.awaitSuspend, accept, acceptFunctor, Call.start]
  split <;> rfl

/-- The only request of `read_some` and `write_some`, if there is a buffer. -/
theorem some_requests {max : Nat} {request : Int → Nat → BitVec 32 → Request} :
    (await (someFunctor args max request) () result (.start _ e)).requests =
      if args.size = 0 then []
      else [request args.offset (min (toSizeT (args.size - args.offset)) max) args.flags] := by
  by_cases hsize : args.size = 0
  · simp only [await, GenericAwaitable.coAwait, GenericAwaitable.awaitReady, someFunctor,
      Call.start, hsize, decide_true, if_true]
    split <;> rfl
  · simp only [await, GenericAwaitable.coAwait, GenericAwaitable.awaitReady,
      GenericAwaitable.awaitSuspend, someFunctor, Call.start, hsize, decide_false, if_false]
    split <;> rfl

/-- The length of that request. -/
theorem some_within (hadm : args.offset ≤ args.size) (max : Nat) :
    Within args 0 (min (toSizeT (args.size - args.offset)) max) max := by
  have hlt := args.size_lt
  have hfit := AsyncFile.toSizeT_of_lt (z := args.size - args.offset) (by omega) (by omega)
  have hmin := Nat.min_le_left (toSizeT (args.size - args.offset)) max
  exact ⟨by omega, Nat.min_le_right ..⟩

/-- The requests of `read` and `write` go on where the bytes so far end. -/
theorem transfer_request {d : TcpStream.Direction} {results : Nat → Int} {n i : Nat}
    {r : TcpStream.Request} (hadm : args.offset ≤ args.size)
    (hk : TcpStream.Kernel d args e results)
    (hr : (TcpStream.after d args e results n).state.requests[i]? = some r) :
    args.size ≠ 0 ∧ r = TcpStream.request d args results i ∧
      Within args (transferred results i) r.len kMaxRead := by
  obtain ⟨m, hwaits, hend⟩ := hk.ends hadm
  rw [TcpStream.requests_eq hwaits hend] at hr
  obtain ⟨hi, rfl⟩ := TcpStream.range_request _ hr
  have him : i < m := Nat.lt_of_lt_of_le hi (Nat.min_le_right ..)
  have hle := hk.transferred_le hadm fun j hj => hwaits j (Nat.lt_trans hj him)
  have hsize : 0 ≠ args.size := (hwaits 0 (by omega)).2 0 (Nat.le_refl 0)
  exact ⟨hsize.symm, rfl, TcpStream.len_le hle hadm, Nat.min_le_right ..⟩

/-- What is asked for once, with or without a buffer. -/
theorem asks_some {max : Nat} {request : Int → Nat → BitVec 32 → Request}
    (hreq : req ∈ (await (someFunctor args max request) () result (.start _ e)).requests) :
    args.size ≠ 0 ∧
      req = request args.offset (min (toSizeT (args.size - args.offset)) max) args.flags := by
  rw [some_requests] at hreq
  split at hreq
  · cases hreq
  · rename_i hsize
    exact ⟨hsize, List.mem_singleton.mp hreq⟩

/-- If there is a buffer, `write` makes a request for all of it. -/
theorem asks_write (fd : Option Fd) (hsize : args.size ≠ 0) :
    Asks (.write args) fd 0
      (.send fd args.offset (min (toSizeT (args.size - args.offset)) kMaxRead) args.flags) := by
  have hwaits : TcpStream.Waits args (fun _ => 0) 0 :=
    ⟨fun j hj => absurd hj (Nat.not_lt_zero j), fun j hj => by
      rw [Nat.le_zero.mp hj]
      exact hsize.symm⟩
  have hkernel : TcpStream.Kernel .write args 0 fun _ => 0 :=
    fun n _ req _ => Int.natCast_nonneg req.len
  refine ⟨0, fun _ => 0, 0, 0, TcpStream.request .write args (fun _ => 0) 0, hkernel, ?_, rfl, ?_⟩
  · rw [hwaits.after_eq]
    rfl
  · simp [TcpStream.request, TcpStream.requestFlags, transferred, AsyncFile.offset]

theorem asks_accept (fd : Option Fd) (args : AcceptArgs) :
    Asks (.accept args) fd 0 (.accept fd 0 args.length args.flags) := by
  refine ⟨rfl, 0, 0, ?_⟩
  rw [accept_requests]
  exact List.mem_singleton_self _

theorem asks_writeSome (fd : Option Fd) (hsize : args.size ≠ 0) :
    Asks (.writeSome args) fd 0
      (.send fd args.offset (min (toSizeT (args.size - args.offset)) kMaxWrite) args.flags) := by
  refine ⟨rfl, 0, 0, ?_⟩
  rw [writeSome, some_requests, if_neg hsize]
  exact List.mem_singleton_self _

theorem accept_iff (args : AcceptArgs) :
    (∀ fd soFar req, Asks (.accept args) fd soFar req → AsDocumented (.accept args) fd soFar req) ↔
      Operation.PassesOn (.accept args) := by
  constructor
  · intro h
    have hreq := h none 0 _ (asks_accept none args)
    simp only [AsDocumented, Request.accept.injEq] at hreq
    exact hreq.2.1.symm
  · rintro hnull fd soFar req ⟨-, e, result, hreq⟩
    rw [accept_requests, List.mem_singleton] at hreq
    show req = .accept fd args.address args.length args.flags
    rw [hreq, show args.address = 0 from hnull]

theorem writeSome_iff (hadm : args.offset ≤ args.size) :
    (∀ fd soFar req, Asks (.writeSome args) fd soFar req →
      AsDocumented (.writeSome args) fd soFar req) ↔ Operation.PassesOn (.writeSome args) := by
  constructor
  · intro h
    by_cases hsize : args.size = 0
    · exact Or.inl hsize
    right
    obtain ⟨len, -, hreq⟩ := h none 0 _ (asks_writeSome none hsize)
    simp only [Request.send.injEq] at hreq
    exact hreq.2.2.2.symm
  · rintro hpass fd soFar req ⟨rfl, e, result, hreq⟩
    obtain ⟨hsize, rfl⟩ := asks_some hreq
    refine ⟨_, some_within hadm kMaxWrite, ?_⟩
    rw [hpass.resolve_left hsize, Nat.add_zero]

theorem write_iff (hadm : args.offset ≤ args.size) :
    (∀ fd soFar req, Asks (.write args) fd soFar req →
      AsDocumented (.write args) fd soFar req) ↔ Operation.PassesOn (.write args) := by
  constructor
  · intro h
    by_cases hsize : args.size = 0
    · exact Or.inl hsize
    right
    -- the first request is as long as the buffer
    obtain ⟨len, hwithin, hreq⟩ := h none 0 _ (asks_write none hsize)
    simp only [Request.send.injEq] at hreq
    refine ⟨hreq.2.2.2.symm, ?_⟩
    have hlt := args.size_lt
    have hfit := AsyncFile.toSizeT_of_lt (z := args.size - args.offset) (by omega) (by omega)
    have hmax : kMaxWrite < kMaxRead := by decide
    have hle := hwithin.2
    rw [← hreq.2.2.1] at hle
    omega
  · rintro hpass fd soFar req ⟨e, results, n, i, r, hk, hr, rfl, rfl⟩
    obtain ⟨hsize, rfl, hwithin, -⟩ := transfer_request hadm hk hr
    obtain ⟨hflags, hle⟩ := hpass.resolve_left hsize
    refine ⟨_, ⟨hwithin, by omega⟩, ?_⟩
    rw [hflags]
    rfl

/-- **What the network operations ask the event loop for** is what the caller has given them, if
the address is null for `accept`, and for the writes the flags have `MSG_NOSIGNAL` already and no
maximum is reached by `write`. -/
theorem networkRequests_iff {op : Operation} (hadm : op.Admitted) :
    (∀ fd soFar req, Asks op fd soFar req → AsDocumented op fd soFar req) ↔ op.PassesOn := by
  cases op with
  | accept args => exact accept_iff args
  | connect args =>
      refine ⟨fun _ => trivial, ?_⟩
      rintro - fd soFar req ⟨-, s, x, q, hs, hpc, hx, rfl, hq, rfl⟩
      obtain ⟨y, hy, hreq⟩ := hs.asked hpc
      obtain rfl := Option.some.inj (hx.symm.trans hy)
      obtain rfl := Option.some.inj (hq.symm.trans hreq)
      rfl
  | readSome args =>
      refine ⟨fun _ => trivial, ?_⟩
      rintro - fd soFar req ⟨rfl, e, result, hreq⟩
      obtain ⟨-, rfl⟩ := asks_some hreq
      exact ⟨_, some_within hadm kMaxRead, rfl⟩
  | read args =>
      refine ⟨fun _ => trivial, ?_⟩
      rintro - fd soFar req ⟨e, results, n, i, r, hk, hr, rfl, rfl⟩
      obtain ⟨-, rfl, hwithin⟩ := transfer_request hadm hk hr
      exact ⟨_, hwithin, rfl⟩
  | writeSome args => exact writeSome_iff hadm
  | write args => exact write_iff hadm

theorem eight_fits : 8 < 2 ^ 63 := by decide

/-- Six bytes from the third one on. -/
def sixFromTwo (flags : BitVec 32) : TcpStream.Args := ⟨8, eight_fits, 2, flags⟩

theorem networkRequests_iff_sixFromTwo :
    ∃ req, Asks (.write (sixFromTwo msgNosignal)) (some 5) 0 req ∧
      AsDocumented (.write (sixFromTwo msgNosignal)) (some 5) 0 req := by
  have hadm : Operation.Admitted (.write (sixFromTwo msgNosignal)) := show 2 ≤ 8 by decide
  have hsize : (sixFromTwo msgNosignal).size ≠ 0 := by decide
  have hasks := asks_write (some 5) hsize
  exact ⟨_, hasks, (networkRequests_iff hadm).mpr (Or.inr (by decide)) (some 5) 0 _ hasks⟩

theorem sixtyFourKiB_fits : 2 ^ 16 < 2 ^ 63 := by decide

/-- One byte more than `kMaxWrite`. -/
def sixtyFourKiB : TcpStream.Args := ⟨2 ^ 16, sixtyFourKiB_fits, 0, msgNosignal⟩

/-- `accept` with an address asks for none, `write_some` without `MSG_NOSIGNAL` does not add it, and
`write` asks for more than the maximum. -/
theorem networkRequests_deviate :
    (∃ req, Asks (.accept ⟨16, 24, 0⟩) (some 5) 0 req ∧
      ¬ AsDocumented (.accept ⟨16, 24, 0⟩) (some 5) 0 req) ∧
    (∃ req, Asks (.writeSome (sixFromTwo 0)) (some 5) 0 req ∧
      ¬ AsDocumented (.writeSome (sixFromTwo 0)) (some 5) 0 req) ∧
    ∃ req, Asks (.write sixtyFourKiB) (some 5) 0 req ∧
      ¬ AsDocumented (.write sixtyFourKiB) (some 5) 0 req := by
  refine ⟨⟨_, asks_accept _ _, ?_⟩, ⟨_, asks_writeSome _ (by decide), ?_⟩,
    ⟨_, asks_write _ (by decide), ?_⟩⟩
  · simp [AsDocumented]
  · rintro ⟨len, -, hreq⟩
    exact absurd (Request.send.inj hreq).2.2.2 (by decide)
  · rintro ⟨len, ⟨-, hle⟩, hreq⟩
    rw [← (Request.send.inj hreq).2.2.1] at hle
    exact absurd hle (by decide)

end

end Zab.Requests
