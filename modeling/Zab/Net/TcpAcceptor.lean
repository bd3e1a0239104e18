import Zab.Net.TcpConnect

set_option autoImplicit false

/-! # `tcp_acceptor::listen`

`listen` calls `::socket` if the acceptor has no descriptor, and `set_descriptor` takes the new one.
Then it calls `::setsockopt`, `::bind` and `::listen`, and every failure sets the error and returns
`false`. None of these exits gives the descriptor back, so the next call goes on with the same
socket, whatever family it is called with.

The kernel chooses what each system call returns. The calls of `listen` are taken among the steps of
any other network operations of the process, which do not work on the acceptor.
-/

namespace Zab.TcpAcceptor

open Automaton
open NetworkOperation (Fd Object)
open TcpConnect (Errno SocketResult)

def afInet : Int := 2

def afInet6 : Int := 10

/-- `EINVAL`. -/
def eInval : Int := 22

/-- The host is little-endian: the two bytes are swapped. -/
def htons (port : BitVec 16) : BitVec 16 := port.rotateLeft 8

/-- `sockaddr_storage`, as a `sockaddr_in` with `INADDR_ANY` or a `sockaddr_in6` with
`in6addr_any`. -/
inductive SockAddr where
  | in4 (port : BitVec 16)
  | in6 (port : BitVec 16)
  deriving DecidableEq

/-- What the kernel knows of a socket. -/
structure Socket where
  family : Int
  reuseAddr : Bool
  bound : Option SockAddr
  /-- The backlog, if the socket listens. -/
  listening : Option Int
  deriving DecidableEq

/-- `::setsockopt` with `SO_REUSEADDR`. -/
def Socket.setReuseAddr (k : Socket) : Socket := { k with reuseAddr := true }

/-- `::bind`. -/
def Socket.bindTo (add : SockAddr) (k : Socket) : Socket := { k with bound := some add }

/-- `::listen`. -/
def Socket.listenWith (backlog : Int) (k : Socket) : Socket :=
  { k with listening := some backlog }

structure State where
  base : NetworkOperation.State
  /-- The sockets behind the descriptors, in the order in which they were handed in. -/
  socket : Nat → Socket

/-- A call of `listen`, and what the system calls return in it. -/
structure Call where
  family : Int
  port : BitVec 16
  backlog : Int
  socket : SocketResult
  setsockopt : Option Errno
  bind : Option Errno
  listen : Option Errno

/-- `descriptor()` of the acceptor `a`. -/
def State.descriptor (s : State) (a : Nat) : Option Fd := (s.base.object a).bind Object.sd

/-- The socket that the descriptor stands for. -/
def State.current (s : State) (a : Nat) : Option Nat := (s.descriptor a).bind s.base.table

/-- `set_error(e)`. -/
def State.setError (s : State) (a : Nat) (e : Int) : State :=
  match s.base.object a with
  | some x => { s with base := s.base.set a { x with lastError := e } }
  | none => s

/-- The kernel does `f` to the socket of the acceptor. -/
def State.onSocket (s : State) (a : Nat) (f : Socket → Socket) : State :=
  match s.current a with
  | some i => { s with socket := Function.update s.socket i (f (s.socket i)) }
  | none => s

/-- `::socket` creates a socket with the descriptor `fd`, and `set_descriptor` takes it. -/
def State.create (s : State) (a : Nat) (family : Int) (fd : Fd) : Option State :=
  (NetworkOperation.step s.base (.setDescriptor a fd 0 0)).map fun b =>
    ⟨b, Function.update s.socket s.base.handed ⟨family, false, none, none⟩⟩

/-- The address for `_family`, if it is one of the two. -/
def address (family : Int) (port : BitVec 16) : Option SockAddr :=
  if family = afInet then some (.in4 port)
  else if family = afInet6 then some (.in6 port)
  else none

/-- `listen`, when there is a descriptor. -/
def State.bindAndListen (s : State) (a : Nat) (c : Call) : State × Bool :=
  match c.setsockopt with
  | some errno => (s.setError a errno, false)
  | none =>
      let s := s.onSocket a Socket.setReuseAddr
      match address c.family (htons c.port) with
      | none => (s.setError a eInval, false)
      | some add =>
          match c.bind with
          | some errno => (s.setError a errno, false)
          | none =>
              let s := s.onSocket a (Socket.bindTo add)
              match c.listen with
              | some errno => (s.setError a errno, false)
              | none => (s.onSocket a (Socket.listenWith c.backlog), true)

/-- `listen(_family, _port, _backlog)` of the acceptor `a`. -/
def State.listen (s : State) (a : Nat) (c : Call) : Option (State × Bool) :=
  (s.base.idle a).bind fun x =>
    match x.sd with
    | some _ => some (s.bindAndListen a c)
    | none =>
        match c.socket with
        | .error errno => some (s.setError a errno, false)
        | .descriptor fd => (s.create a c.family fd).map fun s => s.bindAndListen a c

inductive Action where
  | listen (c : Call)
  /-- A step of other network operations. -/
  | other (act : NetworkOperation.Action)

def step (a : Nat) (s : State) : Action → Option State
  | .listen c => (s.listen a c).map Prod.fst
  | .other act =>
      if a ∉ act.objects then
        (NetworkOperation.step s.base act).map fun b => { s with base := b }
      else none

/-- The acceptor has no descriptor. -/
structure Starts (s : State) (a : Nat) : Prop where
  base : NetworkOperation.Reachable s.base
  object : ∃ x, s.base.idle a = some x ∧ x.sd = none

/-! ## What is expected of a call -/

/-- The call `c` in the state `s` has returned `ret`. -/
structure Right (s : State) (a : Nat) (c : Call) (s' : State) (ret : Bool) : Prop where
  /-- A failed call sets the error and leaves no descriptor behind, -/
  failed : ret = false → ∃ x, s'.base.object a = some x ∧ x.sd = none ∧ x.lastError ≠ 0
  closed : ret = false → ∀ fd i, s'.base.table fd = some i → s.base.table fd = some i
  /-- so that the next one works on a new socket of its own family. -/
  fresh : ret = false → ∀ d t b, s'.listen a d = some (t, b) → ∀ i, t.current a = some i →
    i = s'.base.handed ∧ (t.socket i).family = d.family
  /-- The socket of a successful call was created for its family; it is bound and listens. -/
  listens : ret = true → ∃ i, s'.current a = some i ∧ (s'.socket i).family = c.family ∧
    (s'.socket i).bound ≠ none ∧ (s'.socket i).listening ≠ none

/-- **A failed `listen` leaves the acceptor as it was**, in every call of a run. -/
def FailsClean (s₀ : State) (a : Nat) (l : List Action) : Prop :=
  ∀ l₁ c l₂ s s' ret, l = l₁ ++ .listen c :: l₂ → run (step a) anyStep s₀ l₁ = some s →
    s.listen a c = some (s', ret) → Right s a c s' ret

/-- Nothing fails when there is a socket. -/
structure Call.Succeeds (c : Call) : Prop where
  setsockopt : c.setsockopt = none
  family : c.family = afInet ∨ c.family = afInet6
  bind : c.bind = none
  listen : c.listen = none

/-- The call finds no descriptor, or one of its own family, and nothing fails after `::socket`. -/
inductive Works (s : State) (a : Nat) (c : Call) : Prop where
  | noSocket (errno : Errno) (hnone : s.descriptor a = none) (herr : c.socket = .error errno)
  | newSocket (hnone : s.descriptor a = none) (hok : c.Succeeds)
  | sameFamily (i : Nat) (hi : s.current a = some i) (hfamily : (s.socket i).family = c.family)
      (hok : c.Succeeds)

/-- Every call of a run works. -/
def CallsWork (s₀ : State) (a : Nat) (l : List Action) : Prop :=
  ∀ l₁ c l₂ s, l = l₁ ++ .listen c :: l₂ → run (step a) anyStep s₀ l₁ = some s → Works s a c

/-! ## The invariant -/

structure Inv (s : State) (a : Nat) : Prop where
  base : NetworkOperation.Inv s.base
  object : ∃ x, s.base.idle a = some x

section

variable {s s' t : State} {a i : Nat} {c : Call} {fd : Fd} {e : Int} {ret : Bool} {l : List Action}
  {x : Object} {f : Socket → Socket}

theorem descriptor_eq (hx : s.base.idle a = some x) : s.descriptor a = x.sd := by
  rw [State.descriptor, (NetworkOperation.idle_eq_some.mp hx).1, Option.bind_some]

/-- The descriptor of the acceptor is open. -/
theorem Inv.current (h : Inv s a) (hfd : s.descriptor a = some fd) : ∃ i, s.current a = some i := by
  obtain ⟨x, hx⟩ := h.object
  have hhold : s.base.hold (.object a) = some fd := by
    rw [NetworkOperation.hold_of_idle hx, ← descriptor_eq hx, hfd]
  rw [State.current, hfd, Option.bind_some]
  exact Option.ne_none_iff_exists'.mp (h.base.custody.live _ _ hhold)

/-- The acceptor and its socket stay: only the error changes, and what was done to the socket. -/
structure Keeps (s s' : State) (a : Nat) : Prop where
  inv : Inv s a → Inv s' a
  table : s'.base.table = s.base.table
  descriptor : s'.descriptor a = s.descriptor a
  family : ∀ i, (s'.socket i).family = (s.socket i).family

theorem Keeps.refl (s : State) (a : Nat) : Keeps s s a := ⟨id, rfl, rfl, fun _ => rfl⟩

theorem Keeps.trans (h : Keeps s t a) (h' : Keeps t s' a) : Keeps s s' a where
  inv := fun hi => h'.inv (h.inv hi)
  table := h'.table.trans h.table
  descriptor := h'.descriptor.trans h.descriptor
  family := fun i => (h'.family i).trans (h.family i)

theorem Keeps.current (h : Keeps s s' a) : s'.current a = s.current a := by
  rw [State.current, State.current, h.descriptor, h.table]

theorem keeps_onSocket (hf : ∀ k, (f k).family = k.family) : Keeps s (s.onSocket a f) a := by
  unfold State.onSocket
  cases s.current a with
  | none => exact Keeps.refl s a
  | some i =>
      refine ⟨fun h => ⟨h.base, h.object⟩, rfl, rfl, fun j => ?_⟩
      by_cases hj : j = i
      · rw [hj]
        exact (congrArg Socket.family (Function.update_self ..)).trans (hf _)
      · exact congrArg Socket.family (Function.update_of_ne hj ..)

theorem setError_eq (hx : s.base.idle a = some x) :
    s.setError a e = { s with base := s.base.set a { x with lastError := e } } := by
  simp only [State.setError, (NetworkOperation.idle_eq_some.mp hx).1]

theorem idle_setError (hx : s.base.idle a = some x) :
    (s.setError a e).base.idle a = some { x with lastError := e } := by
  have hidle := (NetworkOperation.idle_eq_some.mp hx).2
  rw [setError_eq hx]
  exact NetworkOperation.idle_eq_some.mpr ⟨NetworkOperation.object_set_self .., hidle⟩

theorem keeps_setError (hx : s.base.idle a = some x) : Keeps s (s.setError a e) a := by
  constructor
  · intro h
    have hhold := NetworkOperation.hold_object (NetworkOperation.idle_eq_some.mp hx).1
    refine ⟨?_, _, idle_setError hx⟩
    rw [setError_eq hx]
    -- the object answers for the same descriptor
    exact h.base.set (hhold.trans rfl)
  · rw [setError_eq hx]
    rfl
  · rw [descriptor_eq (idle_setError hx), descriptor_eq hx]
  · intro i
    rw [setError_eq hx]

theorem onSocket_eq (hi : s.current a = some i) :
    s.onSocket a f = { s with socket := Function.update s.socket i (f (s.socket i)) } := by
  simp only [State.onSocket, hi]

theorem exists_address {family : Int} (port : BitVec 16) :
    (∃ add, address family port = some add) ↔ family = afInet ∨ family = afInet6 := by
  unfold address
  split
  · simp [*]
  split
  · simp [*]
  · simp [*]

/-! ## One call -/

theorem bindAndListen_keeps (h : Inv s a) (c : Call) : Keeps s (s.bindAndListen a c).1 a := by
  have herror : ∀ {t}, Keeps s t a → ∀ e, Keeps s (t.setError a e) a := by
    intro t ht e
    obtain ⟨x, hx⟩ := (ht.inv h).object
    exact ht.trans (keeps_setError hx)
  have hreuse : Keeps s (s.onSocket a Socket.setReuseAddr) a := keeps_onSocket fun _ => rfl
  unfold State.bindAndListen
  cases c.setsockopt with
  | some errno => exact herror (Keeps.refl s a) errno
  | none =>
      dsimp only
      cases address c.family (htons c.port) with
      | none => exact herror hreuse eInval
      | some add =>
          have hbound := hreuse.trans (keeps_onSocket (f := Socket.bindTo add) fun _ => rfl)
          dsimp only
          cases c.bind with
          | some errno => exact herror hreuse errno
          | none =>
              dsimp only
              cases c.listen with
              | some errno => exact herror hbound errno
              | none => exact hbound.trans (keeps_onSocket fun _ => rfl)

/-- It succeeds if none of its steps fails. -/
theorem bindAndListen_iff : (s.bindAndListen a c).2 = true ↔ c.Succeeds := by
  constructor
  · intro h
    unfold State.bindAndListen at h
    split at h
    · cases h
    rename_i hsetsockopt
    split at h
    · cases h
    rename_i add hadd
    split at h
    · cases h
    rename_i hbind
    split at h
    · cases h
    rename_i hlisten
    exact ⟨hsetsockopt, (exists_address _).mp ⟨add, hadd⟩, hbind, hlisten⟩
  · rintro ⟨hsetsockopt, hfamily, hbind, hlisten⟩
    obtain ⟨add, hadd⟩ := (exists_address (htons c.port)).mpr hfamily
    simp only [State.bindAndListen, hsetsockopt, hadd, hbind, hlisten]

/-- Then its socket is bound and listens. -/
theorem bindAndListen_listens (hok : c.Succeeds) (hi : s.current a = some i) :
    (((s.bindAndListen a c).1.socket i).bound ≠ none) ∧
      (((s.bindAndListen a c).1.socket i).listening ≠ none) := by
  obtain ⟨hsetsockopt, hfamily, hbind, hlisten⟩ := hok
  obtain ⟨add, hadd⟩ := (exists_address (htons c.port)).mpr hfamily
  have hreuse : Keeps s (s.onSocket a Socket.setReuseAddr) a := keeps_onSocket fun _ => rfl
  have hbound := hreuse.trans (keeps_onSocket (f := Socket.bindTo add) fun _ => rfl)
  simp only [State.bindAndListen, hsetsockopt, hadd, hbind, hlisten]
  rw [onSocket_eq (hbound.current.trans hi), onSocket_eq (hreuse.current.trans hi)]
  simp [Socket.bindTo, Socket.listenWith]

/-- The new socket. -/
theorem create_spec {family : Int} (h : Inv s a) (hnone : s.descriptor a = none)
    (hs : s.create a family fd = some t) :
    Inv t a ∧ t.current a = some s.base.handed ∧ (t.socket s.base.handed).family = family := by
  obtain ⟨x, hx⟩ := h.object
  obtain ⟨b, hb, rfl⟩ := Option.map_eq_some_iff.mp hs
  have hbase := h.base.step hb
  obtain ⟨-, rfl⟩ := NetworkOperation.setDescriptor_eq hx ((descriptor_eq hx).symm.trans hnone) hb
  have hidle := (NetworkOperation.idle_eq_some.mp hx).2
  have hx' : ((s.base.handIn fd).set a { x with sd := some fd }).idle a =
      some { x with sd := some fd } :=
    NetworkOperation.idle_eq_some.mpr ⟨NetworkOperation.object_set_self .., hidle⟩
  have hfd : State.descriptor ⟨(s.base.handIn fd).set a { x with sd := some fd },
      Function.update s.socket s.base.handed ⟨family, false, none, none⟩⟩ a = some fd :=
    descriptor_eq (s := ⟨_, _⟩) hx'
  refine ⟨⟨hbase, _, hx'⟩, ?_, ?_⟩
  · rw [State.current, hfd, Option.bind_some]
    exact Function.update_self ..
  · dsimp only
    rw [Function.update_self]

/-- What a call does. -/
theorem listen_cases (h : Inv s a) (hs : s.listen a c = some (s', ret)) :
    (s.descriptor a = none ∧ ∃ errno, c.socket = .error errno ∧ s' = s.setError a errno ∧
        ret = false) ∨
      (s.descriptor a = none ∧ ∃ fd t, c.socket = .descriptor fd ∧
        s.create a c.family fd = some t ∧ t.bindAndListen a c = (s', ret)) ∨
      (s.descriptor a ≠ none ∧ s.bindAndListen a c = (s', ret)) := by
  obtain ⟨x, hx⟩ := h.object
  rw [descriptor_eq hx]
  rw [State.listen, hx, Option.bind_some] at hs
  cases hsd : x.sd with
  | some fd =>
      simp only [hsd] at hs
      exact Or.inr (Or.inr ⟨by simp, Option.some.inj hs⟩)
  | none =>
      simp only [hsd] at hs
      cases hsocket : c.socket with
      | error errno =>
          simp only [hsocket] at hs
          obtain ⟨rfl, rfl⟩ := Prod.mk.inj (Option.some.inj hs)
          exact Or.inl ⟨rfl, errno, rfl, rfl, rfl⟩
      | descriptor fd =>
          simp only [hsocket] at hs
          obtain ⟨t, ht, hs⟩ := Option.map_eq_some_iff.mp hs
          exact Or.inr (Or.inl ⟨rfl, fd, t, rfl, ht, hs⟩)

theorem Inv.listen (h : Inv s a) (hs : s.listen a c = some (s', ret)) : Inv s' a := by
  rcases listen_cases h hs with ⟨-, errno, -, rfl, -⟩ | ⟨hnone, fd, t, -, ht, hs⟩ | ⟨-, hs⟩
  · obtain ⟨x, hx⟩ := h.object
    exact (keeps_setError hx).inv h
  · obtain ⟨hinv, -⟩ := create_spec h hnone ht
    have hkeeps := bindAndListen_keeps hinv c
    rw [hs] at hkeeps
    exact hkeeps.inv hinv
  · have hkeeps := bindAndListen_keeps h c
    rw [hs] at hkeeps
    exact hkeeps.inv h

/-- Without a descriptor a call works on a new socket of its family, or on none. -/
theorem listen_fresh (h : Inv s a) (hnone : s.descriptor a = none)
    (hs : s.listen a c = some (s', ret)) (hi : s'.current a = some i) :
    i = s.base.handed ∧ (s'.socket i).family = c.family := by
  rcases listen_cases h hs with ⟨-, errno, -, rfl, -⟩ | ⟨-, fd, t, -, ht, hs⟩ | ⟨hsome, -⟩
  · obtain ⟨x, hx⟩ := h.object
    rw [(keeps_setError hx).current, State.current, hnone] at hi
    cases hi
  · obtain ⟨hinv, hcurrent, hfamily⟩ := create_spec h hnone ht
    have hkeeps := bindAndListen_keeps hinv c
    rw [hs] at hkeeps
    have hi' : i = s.base.handed := by
      apply Option.some.inj
      calc some i = s'.current a := hi.symm
        _ = t.current a := hkeeps.current
        _ = some s.base.handed := hcurrent
    refine ⟨hi', ?_⟩
    rw [hkeeps.family, hi', hfamily]
  · exact absurd hnone hsome

/-- With a descriptor, the call is right if and only if nothing fails and the socket has its
family. -/
theorem right_bindAndListen_iff (hinv : Inv t a) (hi : t.current a = some i)
    (hs : t.bindAndListen a c = (s', ret)) :
    Right s a c s' ret ↔ c.Succeeds ∧ (t.socket i).family = c.family := by
  have hkeeps := bindAndListen_keeps hinv c
  have hret : (t.bindAndListen a c).2 = true ↔ c.Succeeds := bindAndListen_iff
  rw [hs] at hkeeps hret
  dsimp only at hkeeps hret
  have hcurrent := hkeeps.current.trans hi
  constructor
  · intro h
    have htrue : ret = true := by
      by_contra hfalse
      -- the descriptor is still there
      obtain ⟨x, hx, hsd, -⟩ := h.failed (Bool.eq_false_iff.mpr hfalse)
      rw [State.current, State.descriptor, hx, Option.bind_some, hsd] at hcurrent
      cases hcurrent
    obtain ⟨j, hj, hfamily, -⟩ := h.listens htrue
    obtain rfl := Option.some.inj (hj.symm.trans hcurrent)
    rw [hkeeps.family] at hfamily
    exact ⟨hret.mp htrue, hfamily⟩
  · rintro ⟨hok, hfamily⟩
    have htrue := hret.mpr hok
    have hfalse : ret ≠ false := by
      rw [htrue]
      decide
    have hlistens := bindAndListen_listens hok hi
    rw [hs] at hlistens
    refine ⟨fun h => absurd h hfalse, fun h => absurd h hfalse, fun h => absurd h hfalse, ?_⟩
    exact fun _ => ⟨i, hcurrent, by rw [hkeeps.family, hfamily], hlistens⟩

/-- A call without a socket is right. -/
theorem right_noSocket (h : Inv s a) (hnone : s.descriptor a = none) (errno : Errno) :
    Right s a c (s.setError a errno) false := by
  obtain ⟨x, hx⟩ := h.object
  have hkeeps := keeps_setError (e := errno) hx
  have hnone' := hkeeps.descriptor.trans hnone
  have hidle := idle_setError (e := errno) hx
  constructor
  · rintro -
    refine ⟨_, (NetworkOperation.idle_eq_some.mp hidle).1, ?_, ?_⟩
    · rw [← descriptor_eq hidle, hnone']
    · exact Int.ne_of_gt errno.property
  · rintro - fd i hfd
    rw [hkeeps.table] at hfd
    exact hfd
  · rintro - d t b ht i hi
    exact listen_fresh (hkeeps.inv h) hnone' ht hi
  · rintro ⟨⟩

theorem right_iff_works (h : Inv s a) (hs : s.listen a c = some (s', ret)) :
    Right s a c s' ret ↔ Works s a c := by
  rcases listen_cases h hs with ⟨hnone, errno, herr, rfl, rfl⟩ | ⟨hnone, fd, t, hfd, ht, hs⟩ |
    ⟨hsome, hs⟩
  · exact ⟨fun _ => .noSocket errno hnone herr, fun _ => right_noSocket h hnone errno⟩
  · obtain ⟨hinv, hcurrent, hfamily⟩ := create_spec h hnone ht
    rw [right_bindAndListen_iff hinv hcurrent hs]
    constructor
    · rintro ⟨hok, -⟩
      exact .newSocket hnone hok
    · rintro (⟨errno, -, herr⟩ | ⟨-, hok⟩ | ⟨i, hi, -, -⟩)
      · cases hfd.symm.trans herr
      · exact ⟨hok, hfamily⟩
      · rw [State.current, hnone] at hi
        cases hi
  · obtain ⟨fd, hfd⟩ := Option.ne_none_iff_exists'.mp hsome
    obtain ⟨i, hi⟩ := h.current hfd
    rw [right_bindAndListen_iff h hi hs]
    constructor
    · rintro ⟨hok, hfamily⟩
      exact .sameFamily i hi hfamily hok
    · rintro (⟨errno, hnone, -⟩ | ⟨hnone, -⟩ | ⟨j, hj, hfamily, hok⟩)
      · exact absurd hnone hsome
      · exact absurd hnone hsome
      · obtain rfl := Option.some.inj (hi.symm.trans hj)
        exact ⟨hok, hfamily⟩

/-! ## Sequences of calls -/

theorem Inv.step {act : Action} (h : Inv s a) (hs : step a s act = some s') : Inv s' a := by
  cases act with
  | listen c =>
      obtain ⟨⟨t, ret⟩, ht, rfl⟩ := Option.map_eq_some_iff.mp hs
      exact h.listen ht
  | other act =>
      simp only [TcpAcceptor.step] at hs
      split at hs
      · rename_i hact
        obtain ⟨b, hb, rfl⟩ := Option.map_eq_some_iff.mp hs
        obtain ⟨x, hx⟩ := h.object
        obtain ⟨hobj, hidle⟩ := NetworkOperation.idle_eq_some.mp hx
        have hkept := (NetworkOperation.apart_of_step hb).object a hact
        exact ⟨h.base.step hb, x, NetworkOperation.idle_eq_some.mpr ⟨hkept.trans hobj, hidle⟩⟩
      · cases hs

theorem callsWork_nil (s : State) (a : Nat) : CallsWork s a [] := by
  intro l₁ c l₂ t hl
  exact absurd hl.symm (by simp)

/-- The first action of a run, and the others. -/
theorem CallsWork.cons {act : Action} (hfirst : ∀ c, act = .listen c → Works s a c)
    (hrest : ∀ t, step a s act = some t → CallsWork t a l) : CallsWork s a (act :: l) := by
  intro l₁ c l₂ t hl ht
  cases l₁ with
  | nil =>
      obtain rfl := Option.some.inj ht
      exact hfirst c (List.cons.inj hl).1
  | cons act' l₁ =>
      obtain ⟨rfl, htail⟩ := List.cons.inj hl
      rw [run, if_pos (show anyStep s act from trivial)] at ht
      obtain ⟨u, hu, ht⟩ := Option.bind_eq_some_iff.mp ht
      exact hrest u hu l₁ c l₂ t htail ht

theorem Starts.inv (h : Starts s a) : Inv s a := by
  obtain ⟨x, hx, -⟩ := h.object
  exact ⟨h.base.inv, x, hx⟩

theorem Starts.run_inv (h : Starts s a) (hr : run (step a) anyStep s l = some s') : Inv s' a :=
  run_invariant (I := fun _ t => Inv t a) h.inv (fun _ _ _ _ ih _ hs => ih.step hs) hr

/-- **`listen` leaves nothing behind** in the runs in which every call works, and in no others. -/
theorem tcpAcceptor_failsClean_iff (h : Starts s a)
    (hr : run (step a) anyStep s l = some s') : FailsClean s a l ↔ CallsWork s a l := by
  constructor
  · rintro hclean l₁ c l₂ t rfl ht
    -- the run goes on with this call
    rw [run_append, ht, Option.bind_some, run,
      if_pos (show anyStep t (Action.listen c) from trivial)] at hr
    obtain ⟨u, hu, -⟩ := Option.bind_eq_some_iff.mp hr
    obtain ⟨⟨u', ret⟩, hu', rfl⟩ := Option.map_eq_some_iff.mp hu
    exact (right_iff_works (h.run_inv ht) hu').mp (hclean l₁ c l₂ t u' ret rfl ht hu')
  · rintro hwork l₁ c l₂ t t' ret rfl ht hs
    exact (right_iff_works (h.run_inv ht) hs).mpr (hwork l₁ c l₂ t rfl ht)

/-- An acceptor without a descriptor. -/
def fresh : State :=
  ⟨NetworkOperation.init.set 0 { Object.empty with engine := true }, fun _ => ⟨0, false, none, none⟩⟩

theorem starts_fresh : Starts fresh 0 := by
  constructor
  · apply Reaches.next (s := NetworkOperation.init) (a := .construct 0 true)
    · exact Reaches.start rfl
    · trivial
    · rfl
  · exact ⟨_, rfl, rfl⟩

theorem eMFile_pos : (0 : Int) < 24 := by decide

/-- `EMFILE`. -/
def eMFile : Errno := ⟨24, eMFile_pos⟩

/-- There is no descriptor left; another operation gets one; then `listen` has a socket. -/
def secondTry : List Action :=
  [.listen ⟨afInet, 8080, 16, .error eMFile, none, none, none⟩,
    .other (.constructWith 1 true 3),
    .listen ⟨afInet6, 8080, 16, .descriptor 4, none, none, none⟩]

theorem tcpAcceptor_failsClean_iff_secondTry :
    ∃ s, run (step 0) anyStep fresh secondTry = some s ∧ s.descriptor 0 = some 4 ∧
      FailsClean fresh 0 secondTry := by
  refine ⟨_, rfl, rfl, (tcpAcceptor_failsClean_iff starts_fresh rfl).mpr ?_⟩
  apply CallsWork.cons
  · rintro c ⟨⟩
    exact .noSocket eMFile rfl rfl
  rintro s ⟨⟩
  apply CallsWork.cons
  · rintro c ⟨⟩
  rintro s ⟨⟩
  apply CallsWork.cons
  · rintro c ⟨⟩
    exact .newSocket rfl ⟨rfl, Or.inr rfl, rfl, rfl⟩
  rintro s ⟨⟩
  exact callsWork_nil _ _

theorem eAddrInUse_pos : (0 : Int) < 98 := by decide

/-- `EADDRINUSE`. -/
def eAddrInUse : Errno := ⟨98, eAddrInUse_pos⟩

theorem eAfNoSupport_pos : (0 : Int) < 97 := by decide

/-- `EAFNOSUPPORT`. -/
def eAfNoSupport : Errno := ⟨97, eAfNoSupport_pos⟩

/-- The port is in use. -/
def portInUse : Call := ⟨afInet, 80, 16, .descriptor 3, none, some eAddrInUse, none⟩

/-- The next call is for the other family, and the kernel refuses its address for the socket of
the first one. -/
def otherFamily : Call := ⟨afInet6, 8080, 16, .descriptor 4, none, some eAfNoSupport, none⟩

/-- A failed call keeps its socket, and the next one does not get one of its own family. -/
theorem tcpAcceptor_keepsSocket :
    ∃ s t, fresh.listen 0 portInUse = some (s, false) ∧ s.descriptor 0 = some 3 ∧
      ¬ FailsClean fresh 0 [.listen portInUse] ∧
      s.listen 0 otherFamily = some (t, false) ∧ t.current 0 = some 0 ∧
      (t.socket 0).family = afInet := by
  refine ⟨_, _, rfl, rfl, fun h => ?_, rfl, rfl, rfl⟩
  obtain ⟨x, hx, hsd, -⟩ := (h [] portInUse [] fresh _ false rfl rfl rfl).failed rfl
  obtain rfl := Option.some.inj hx
  cases hsd

end

end Zab.TcpAcceptor
