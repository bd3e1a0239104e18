import Zab.Net.NetworkOperation

set_option autoImplicit false

/-! # `tcp_connect`

`tcp_connect` calls `::socket` with a `network_operation` of its own, which takes the descriptor or
the error. A lambda captures this helper and goes into a `suspension_point`. The awaitable suspends
only if the helper has no error; then the ring is asked to connect. When the awaiter goes on, the
result of the ring alone decides what is returned: a stream with the descriptor, or one with the
error. The result is 0 also when the ring was not asked.

The steps of `tcp_connect` are taken among those of any other network operations of the process,
which do not work on its objects. `_cancel_token` and the arguments of `::socket` decide nothing
here. The fields `request`, `outcome` and `created` of the state record history and are read by no
branch.
-/

namespace Zab.TcpConnect

open Automaton
open NetworkOperation (Fd Object Holder)

/-- The value of `errno` after a call that has failed. -/
abbrev Errno := { e : Int // 0 < e }

/-- What `::socket` returns. -/
inductive SocketResult where
  | descriptor (fd : Fd)
  | error (errno : Errno)
  deriving DecidableEq

/-- `_details` and `_size`. -/
structure Args where
  details : Nat
  size : Nat

/-- What the event loop is asked for: a descriptor, an address and its length. -/
structure Request where
  fd : Option Fd
  details : Nat
  size : Nat
  deriving DecidableEq

inductive Pc where
  /-- `tcp_connect` is called. -/
  | start
  /-- `::socket` has been called. -/
  | opened
  /-- The lambda has captured the helper. -/
  | captured
  /-- The lambda is in the `suspension_point` that `tcp_connect` has returned. -/
  | awaitable
  | suspended
  | resuming
  /-- `co_await` has returned the stream. -/
  | returned
  /-- The `suspension_point` is gone. -/
  | done
  deriving DecidableEq

structure State where
  base : NetworkOperation.State
  pc : Pc
  /-- `ret.result_`. -/
  ret : Int
  request : Option Request
  outcome : Option SocketResult
  /-- The socket that `::socket` has created. -/
  created : Option Nat

/-- The helper, in `tcp_connect`. -/
def netOp : Nat := 0

/-- The helper, in the lambda. -/
def capture : Nat := 1

/-- The helper, in the `suspension_point`. -/
def functor : Nat := 2

/-- The `net_op_` of the stream. -/
def stream : Nat := 3

/-- The objects of `tcp_connect`. -/
def ours : List Nat := [netOp, capture, functor, stream]

def init : State := ⟨NetworkOperation.init, .start, 0, none, none, none⟩

/-- `network_operation net_op(_engine)`, and the call of `::socket`. -/
def State.socket (s : State) (r : SocketResult) : Option State :=
  (NetworkOperation.step s.base (.construct netOp true)).bind fun b =>
    match r with
    | .descriptor fd =>
        (NetworkOperation.step b (.setDescriptor netOp fd 0 0)).map fun b =>
          { s with base := b, pc := .opened, outcome := some r, created := some s.base.handed }
    | .error errno =>
        (b.idle netOp).map fun x =>
          { s with
            base := b.set netOp { x with lastError := errno }, pc := .opened, outcome := some r }

/-- The helper is moved from `o` to `p`, and what is left is destroyed. -/
def State.moveHelper (s : State) (o p : Nat) (pc : Pc) : Option State :=
  (NetworkOperation.step s.base (.moveConstruct p o)).bind fun b =>
    (NetworkOperation.step b (.destroy o 0 0)).map fun b => { s with base := b, pc := pc }

/-- `is_ready`, and `is_suspend` if it is not. -/
def State.coAwait (args : Args) (s : State) : Option State :=
  (s.base.idle functor).map fun x =>
    if x.lastError ≠ 0 then { s with pc := .resuming }
    else { s with pc := .suspended, request := some ⟨x.sd, args.details, args.size⟩ }

/-- `is_resume`. -/
def State.resume (s : State) : Option State :=
  (s.base.idle functor).map fun x =>
    if s.ret = 0 then
      { s with
        base := (s.base.set functor { x with sd := none }).set stream ⟨x.engine, x.sd, 0, none⟩
        pc := .returned }
    else
      { s with base := s.base.set stream ⟨x.engine, none, -s.ret, none⟩, pc := .returned }

inductive Action where
  | socket (r : SocketResult)
  | capture
  | ret
  | coAwait
  /-- The ring completes the request. -/
  | complete (r : Int)
  | resume
  /-- The `suspension_point` is destroyed. -/
  | destroy (k : Nat) (r : Int)
  /-- A step of other network operations. -/
  | other (a : NetworkOperation.Action)

def step (args : Args) (s : State) : Action → Option State
  | .socket r => if s.pc = .start then s.socket r else none
  | .capture => if s.pc = .opened then s.moveHelper netOp capture .captured else none
  | .ret => if s.pc = .captured then s.moveHelper capture functor .awaitable else none
  | .coAwait => if s.pc = .awaitable then s.coAwait args else none
  | .complete r => if s.pc = .suspended then some { s with pc := .resuming, ret := r } else none
  | .resume => if s.pc = .resuming then s.resume else none
  | .destroy k r =>
      if s.pc = .returned then
        (NetworkOperation.step s.base (.destroy functor k r)).map fun b =>
          { s with base := b, pc := .done }
      else none
  | .other a =>
      if ∀ o ∈ a.objects, o ∉ ours then
        (NetworkOperation.step s.base a).map fun b => { s with base := b }
      else none

def Reachable (args : Args) : State → Prop := Reaches (step args) anyStep (· = init)

/-! ## What the stream says -/

/-- `::socket` and the connect have succeeded. -/
def State.Succeeded (s : State) : Prop := (∃ fd, s.outcome = some (.descriptor fd)) ∧ s.ret = 0

/-- The socket `i` with the descriptor `fd` is closed by the helper, once. -/
structure ClosesOnce (s : State) (fd : Fd) (i : Nat) : Prop where
  /-- The helper has it as long as it exists. -/
  helper : s.pc = .returned → s.base.hold (.object functor) = some fd ∧ s.base.table fd = some i
  /-- Then a background close has it, until it is closed or both ways of closing it have failed. -/
  background : s.pc = .done → ∃ k, s.base.Closes k i
  once : s.base.closed.count i ≤ 1

/-- **Every failure is reported** by the stream `x`. -/
structure Reports (s : State) (x : Object) : Prop where
  error : x.lastError = 0 ↔ s.Succeeded
  /-- On success it owns the created descriptor, and nobody else does. -/
  owns : ∀ fd, s.outcome = some (.descriptor fd) → s.ret = 0 → x.sd = some fd ∧
    (∃ i, s.created = some i ∧ s.base.table fd = some i) ∧
    ∀ c, s.base.hold c = some fd ↔ c = .object stream
  socketFails : ∀ errno, s.outcome = some (.error errno) → x.lastError = errno ∧ x.sd = none
  connectFails : ∀ fd, s.outcome = some (.descriptor fd) → s.ret ≠ 0 → x.lastError = -s.ret ∧
    x.sd = none ∧ ∃ i, s.created = some i ∧ ClosesOnce s fd i

/-! ## The invariant -/

/-- Where the helper is. -/
def Pc.helper : Pc → Option Nat
  | .opened => some netOp
  | .captured => some TcpConnect.capture
  | .awaitable | .suspended | .resuming | .returned => some functor
  | .start | .done => none

/-- The helper after `::socket`. -/
def SocketResult.object : SocketResult → Object
  | .descriptor fd => ⟨true, some fd, 0, none⟩
  | .error errno => ⟨true, none, errno, none⟩

/-- The stream that is returned. -/
def SocketResult.stream (r : SocketResult) (ret : Int) : Object :=
  if ret = 0 then ⟨true, r.object.sd, 0, none⟩ else ⟨true, none, -ret, none⟩

/-- The objects of `tcp_connect` when `::socket` has returned `r`. -/
def State.objectOf (s : State) (r : SocketResult) (o : Nat) : Option Object :=
  if s.pc.helper = some o then
    some (if s.pc = .returned ∧ s.ret = 0 then { r.object with sd := none } else r.object)
  else if o = stream ∧ (s.pc = .returned ∨ s.pc = .done) then some (r.stream s.ret)
  else none

/-- Where the objects are, and what they have. -/
structure Placed (s : State) : Prop where
  base : NetworkOperation.Inv s.base
  start : s.pc = .start ↔ s.outcome = none
  objects : ∀ o ∈ ours, s.base.object o = s.outcome.bind fun r => s.objectOf r o
  -- the ring is not asked without a socket
  error : ∀ errno, s.outcome = some (.error errno) → s.ret = 0 ∧ s.pc ≠ .suspended
  early : s.ret ≠ 0 → s.pc = .resuming ∨ s.pc = .returned ∨ s.pc = .done

/-- The helper had the socket in the end. -/
def State.Dropped (s : State) : Prop := s.pc = .done ∧ s.ret ≠ 0

structure Inv (s : State) : Prop where
  placed : Placed s
  created : ∀ fd, s.outcome = some (.descriptor fd) → ∃ i, s.created = some i ∧
    (s.Dropped → ∃ k, s.base.Closes k i) ∧ (¬ s.Dropped → s.base.table fd = some i)

section

variable {args : Args} {s s' : State} {o p k : Nat} {pc : Pc} {fd : Fd} {r : SocketResult}

theorem object_eq (r : SocketResult) :
    ∃ sd e, r.object = ⟨true, sd, e, none⟩ ∧ (e = 0 ↔ sd ≠ none) := by
  cases r with
  | descriptor fd => exact ⟨some fd, 0, rfl, by simp⟩
  | error errno =>
      have := errno.property
      exact ⟨none, errno, rfl, by simp; omega⟩

/-- An object of `tcp_connect` answers for the descriptor. -/
theorem Placed.hold (h : Placed s) (hout : s.outcome = some (.descriptor fd))
    (hkept : ¬ s.Dropped) : ∃ c, s.base.hold c = some fd := by
  have hobj : ∀ o ∈ ours, s.base.object o = s.objectOf (.descriptor fd) o := by
    intro o ho
    rw [h.objects o ho, hout, Option.bind_some]
  have hne : s.pc ≠ .start := by
    intro hs
    rw [h.start.mp hs] at hout
    cases hout
  have hhelper : ∀ o ∈ ours, s.pc.helper = some o → ¬ (s.pc = .returned ∧ s.ret = 0) →
      s.base.hold (.object o) = some fd := by
    intro o ho hpc hnot
    rw [NetworkOperation.hold_object (x := SocketResult.object (.descriptor fd))]
    · rfl
    · rw [hobj o ho, State.objectOf, if_pos hpc, if_neg hnot]
  have hstream : s.pc = .returned ∨ s.pc = .done → s.ret = 0 →
      s.base.hold (.object stream) = some fd := by
    intro hpc hret
    have hno : s.pc.helper ≠ some stream := by
      rcases hpc with hpc | hpc <;> rw [hpc] <;> decide
    rw [NetworkOperation.hold_object (x := SocketResult.stream (.descriptor fd) 0)]
    · rfl
    · rw [hobj stream (by decide), State.objectOf, if_neg hno, if_pos ⟨rfl, hpc⟩, hret]
  cases hpc : s.pc with
  | start => exact absurd hpc hne
  | opened => exact ⟨_, hhelper netOp (by decide) (by rw [hpc]; rfl) (by simp [hpc])⟩
  | captured => exact ⟨_, hhelper capture (by decide) (by rw [hpc]; rfl) (by simp [hpc])⟩
  | awaitable | suspended | resuming =>
      exact ⟨_, hhelper functor (by decide) (by rw [hpc]; rfl) (by simp [hpc])⟩
  | returned =>
      by_cases hret : s.ret = 0
      · exact ⟨_, hstream (Or.inl hpc) hret⟩
      · exact ⟨_, hhelper functor (by decide) (by rw [hpc]; rfl) (by simp [hret])⟩
  | done => exact ⟨_, hstream (Or.inr hpc) (by_contra fun hret => hkept ⟨hpc, hret⟩)⟩

/-- A step that keeps the socket: the descriptor that is held before and after it stands for the
same one. -/
theorem Inv.keep (h : Inv s) (hp : Placed s') (hgrows : NetworkOperation.Grows s.base s'.base)
    (hout : s'.outcome = s.outcome) (hcreated : s'.created = s.created)
    (hkept : ¬ s.Dropped) (hkept' : ¬ s'.Dropped) : Inv s' := by
  refine ⟨hp, fun fd hfd => ?_⟩
  have hfd₀ : s.outcome = some (.descriptor fd) := by rw [← hout]; exact hfd
  obtain ⟨i, hi, -, htable⟩ := h.created fd hfd₀
  obtain ⟨c, hc⟩ := h.placed.hold hfd₀ hkept
  obtain ⟨c', hc'⟩ := hp.hold hfd hkept'
  refine ⟨i, hcreated.trans hi, fun hdrop => absurd hdrop hkept', fun _ => ?_⟩
  rw [hgrows.table_eq h.placed.base hp.base hc hc']
  exact htable hkept

/-- While `tcp_connect` is at work, the objects are where `s.pc` says. -/
theorem Placed.at_helper (h : Placed s) (hout : s.outcome = some r) (ho : o ∈ ours) :
    s.base.object o = s.objectOf r o := by
  rw [h.objects o ho, hout, Option.bind_some]

theorem Placed.outcome (h : Placed s) (hpc : s.pc ≠ .start) : ∃ r, s.outcome = some r :=
  Option.ne_none_iff_exists'.mp fun hnone => hpc (h.start.mpr hnone)

/-- The helper is moved: nothing else has happened. -/
theorem moveHelper_eq (hs : s.moveHelper o p pc = some s') (hne : p ≠ o) :
    ∃ b, s' = { s with base := b, pc := pc } ∧
      (NetworkOperation.Inv s.base → NetworkOperation.Inv b) ∧ NetworkOperation.Grows s.base b ∧
      b.object p = s.base.object o ∧ b.object o = none ∧
      ∀ q, q ≠ p → q ≠ o → b.object q = s.base.object q := by
  obtain ⟨b₁, hb₁, hs⟩ := Option.bind_eq_some_iff.mp hs
  obtain ⟨b, hb, rfl⟩ := Option.map_eq_some_iff.mp hs
  refine ⟨b, rfl, fun hinv => (hinv.step hb₁).step hb, ?_⟩
  cases NetworkOperation.effect_of_step hb₁ with
  | moveConstruct hp hx =>
      have hempty : ((s.base.set p Object.empty).swap p o).object o = some Object.empty := by
        show (s.base.set p Object.empty).object (Equiv.swap p o o) = _
        rw [Equiv.swap_apply_right]
        exact Function.update_self ..
      -- what is left is destroyed without closing anything
      obtain rfl := NetworkOperation.destroy_eq (NetworkOperation.idle_eq_some.mpr ⟨hempty, rfl⟩)
        rfl hb
      refine ⟨(NetworkOperation.Grows.refl s.base).congr rfl rfl rfl, ?_, ?_, fun q hqp hqo => ?_⟩
      · refine (Function.update_of_ne hne ..).trans ?_
        show Function.update s.base.object p _ (Equiv.swap p o p) = _
        rw [Equiv.swap_apply_left, Function.update_of_ne hne.symm]
      · exact Function.update_self ..
      · refine (Function.update_of_ne hqo ..).trans ?_
        show Function.update s.base.object p _ (Equiv.swap p o q) = _
        rw [Equiv.swap_apply_of_ne_of_ne hqp hqo, Function.update_of_ne hqp]

/-- Before `co_await` returns the helper is as `::socket` has left it. -/
theorem objectOf_helper (hpc : s.pc.helper = some o) (hnot : s.pc ≠ .returned) :
    s.objectOf r o = some r.object := by
  rw [State.objectOf, if_pos hpc, if_neg fun hret => hnot hret.1]

theorem objectOf_none (hpc : s.pc.helper ≠ some o)
    (hnot : o = stream → s.pc ≠ .returned ∧ s.pc ≠ .done) : s.objectOf r o = none := by
  rw [State.objectOf, if_neg hpc, if_neg]
  rintro ⟨ho, hover⟩
  rcases hover with hover | hover
  · exact (hnot ho).1 hover
  · exact (hnot ho).2 hover

theorem objectOf_stream (hover : s.pc = .returned ∨ s.pc = .done) :
    s.objectOf r stream = some (r.stream s.ret) := by
  have hno : s.pc.helper ≠ some stream := by
    rcases hover with hpc | hpc <;> rw [hpc] <;> decide
  rw [State.objectOf, if_neg hno, if_pos ⟨rfl, hover⟩]

/-- The helper goes on from `o` to `p`. -/
theorem Inv.moveHelper (h : Inv s) (hs : s.moveHelper o p pc = some s') (ho : o ∈ ours)
    (hne : p ≠ o) (hpc : s.pc.helper = some o) (hpc' : pc.helper = some p)
    (hbefore : s.pc = .opened ∨ s.pc = .captured) (hafter : pc = .captured ∨ pc = .awaitable) :
    Inv s' := by
  obtain ⟨b, rfl, hbase, hgrows, hmoved, hleft, hother⟩ := moveHelper_eq hs hne
  have hret : s.ret = 0 := by
    by_contra hret
    rcases h.placed.early hret with h' | h' | h' <;> rcases hbefore with hb | hb <;> rw [hb] at h' <;>
      cases h'
  have hstart : s.pc ≠ .start := by rcases hbefore with hb | hb <;> rw [hb] <;> decide
  have hreturned : s.pc ≠ .returned := by rcases hbefore with hb | hb <;> rw [hb] <;> decide
  have hdone : s.pc ≠ .done := by rcases hbefore with hb | hb <;> rw [hb] <;> decide
  have hreturned' : pc ≠ .returned := by rcases hafter with rfl | rfl <;> decide
  have hdone' : pc ≠ .done := by rcases hafter with rfl | rfl <;> decide
  obtain ⟨r, hr⟩ := h.placed.outcome hstart
  refine h.keep ⟨hbase h.placed.base, ?_, ?_, ?_, fun hne => absurd hret hne⟩ hgrows rfl rfl
    (fun hdrop => hdrop.2 hret) (fun hdrop => hdrop.2 hret)
  · show pc = .start ↔ s.outcome = none
    rw [hr]
    rcases hafter with rfl | rfl <;> simp
  · intro q hq
    show b.object q = s.outcome.bind _
    rw [hr, Option.bind_some]
    by_cases hqp : q = p
    · rw [hqp, hmoved, h.placed.at_helper hr ho, objectOf_helper hpc hreturned]
      exact (objectOf_helper (s := { s with base := b, pc := pc }) hpc' hreturned').symm
    · -- the other objects do not exist
      have hnone : (State.objectOf { s with base := b, pc := pc } r q) = none :=
        objectOf_none (fun heq => hqp (Option.some.inj (heq.symm.trans hpc')))
          fun _ => ⟨hreturned', hdone'⟩
      refine Eq.trans ?_ hnone.symm
      by_cases hqo : q = o
      · rw [hqo, hleft]
      · rw [hother q hqp hqo, h.placed.at_helper hr hq]
        exact objectOf_none (fun heq => hqo (Option.some.inj (heq.symm.trans hpc)))
          fun _ => ⟨hreturned, hdone⟩
  · intro errno herr
    refine ⟨hret, ?_⟩
    rcases hafter with rfl | rfl <;> simp

theorem Inv.socket (h : Inv s) (hpc : s.pc = .start) (hs : s.socket r = some s') : Inv s' := by
  have hout := h.placed.start.mp hpc
  have hret : s.ret = 0 := by
    by_contra hret
    rcases h.placed.early hret with h' | h' | h' <;> rw [hpc] at h' <;> cases h'
  have hnone : ∀ o ∈ ours, s.base.object o = none := by
    intro o ho
    rw [h.placed.objects o ho, hout, Option.bind_none]
  obtain ⟨b, hb, hs⟩ := Option.bind_eq_some_iff.mp hs
  have hbase := h.placed.base.step hb
  rw [NetworkOperation.step, if_pos (hnone netOp (by decide))] at hb
  obtain rfl := Option.some.inj hb
  have hidle : (s.base.set netOp { Object.empty with engine := true }).idle netOp =
      some { Object.empty with engine := true } :=
    NetworkOperation.idle_eq_some.mpr ⟨NetworkOperation.object_set_self .., rfl⟩
  -- the only object of `tcp_connect` is the helper
  have hobj : ∀ (t : State) (b : NetworkOperation.State) (x : Object), t.base = b.set netOp x →
      t.pc = .opened → t.outcome = some r → x = r.object →
      (∀ q, q ≠ netOp → b.object q = s.base.object q) →
      ∀ o ∈ ours, t.base.object o = t.outcome.bind fun r => t.objectOf r o := by
    intro t b x ht htpc htout hx hb o ho
    rw [htout, Option.bind_some, ht]
    by_cases hone : o = netOp
    · rw [hone, objectOf_helper (by rw [htpc]; rfl) (by simp [htpc])]
      rw [NetworkOperation.object_set_self, hx]
    · rw [objectOf_none (by rw [htpc]; exact fun heq => hone (Option.some.inj heq).symm)
        fun _ => ⟨by simp [htpc], by simp [htpc]⟩]
      rw [NetworkOperation.object_set_of_ne hone, hb o hone, hnone o ho]
  have hfirst : ∀ q, q ≠ netOp →
      (s.base.set netOp { Object.empty with engine := true }).object q = s.base.object q :=
    fun q hq => NetworkOperation.object_set_of_ne hq
  cases r with
  | descriptor fd =>
      obtain ⟨b, hb, rfl⟩ := Option.map_eq_some_iff.mp hs
      have hbase' := hbase.step hb
      obtain ⟨-, rfl⟩ := NetworkOperation.setDescriptor_eq hidle rfl hb
      refine ⟨⟨hbase', by simp, hobj _ _ _ rfl rfl rfl rfl hfirst, by simp,
        fun hne => absurd hret hne⟩, fun fd' hfd' => ?_⟩
      obtain rfl : fd = fd' := by simpa using hfd'
      refine ⟨s.base.handed, rfl, fun hdrop => absurd hret hdrop.2, fun _ => ?_⟩
      exact Function.update_self ..
  | error errno =>
      simp only [hidle, Option.map_some] at hs
      obtain rfl := Option.some.inj hs
      refine ⟨⟨hbase.set ?_, by simp, hobj _ _ _ rfl rfl rfl rfl hfirst, by simp [hret],
        fun hne => absurd hret hne⟩, by simp⟩
      exact (NetworkOperation.hold_of_idle hidle).trans rfl

/-- The helper stays where it is. -/
theorem Inv.goto (h : Inv s) (hbase : s'.base = s.base) (hout : s'.outcome = s.outcome)
    (hcreated : s'.created = s.created) (hhelper : s.pc.helper = some functor)
    (hhelper' : s'.pc.helper = some functor) (hpc : s.pc ≠ .returned) (hpc' : s'.pc ≠ .returned)
    (herror : ∀ errno, s.outcome = some (.error errno) → s'.ret = 0 ∧ s'.pc ≠ .suspended)
    (hearly : s'.ret ≠ 0 → s'.pc = .resuming) : Inv s' := by
  have hstart : s.pc ≠ .start := by rintro hs; rw [hs] at hhelper; cases hhelper
  have hstart' : s'.pc ≠ .start := by rintro hs; rw [hs] at hhelper'; cases hhelper'
  have hdone : s.pc ≠ .done := by rintro hs; rw [hs] at hhelper; cases hhelper
  have hdone' : s'.pc ≠ .done := by rintro hs; rw [hs] at hhelper'; cases hhelper'
  obtain ⟨r, hr⟩ := h.placed.outcome hstart
  refine h.keep ⟨by rw [hbase]; exact h.placed.base, ?_, ?_, ?_, fun hne => Or.inl (hearly hne)⟩
    (by rw [hbase]; exact NetworkOperation.Grows.refl _) hout hcreated
    (fun hdrop => hdone hdrop.1) fun hdrop => hdone' hdrop.1
  · rw [hout, hr]
    simp [hstart']
  · intro o ho
    rw [hbase, hout, hr, Option.bind_some, h.placed.at_helper hr ho]
    by_cases hof : o = functor
    · subst hof
      rw [objectOf_helper hhelper hpc, objectOf_helper hhelper' hpc']
    · have hne : some functor ≠ some o := fun heq => hof (Option.some.inj heq).symm
      rw [objectOf_none (by rw [hhelper]; exact hne) fun _ => ⟨hpc, hdone⟩,
        objectOf_none (by rw [hhelper']; exact hne) fun _ => ⟨hpc', hdone'⟩]
  · intro errno herr
    exact herror errno (by rw [← hout]; exact herr)

theorem Inv.coAwait (h : Inv s) (hpc : s.pc = .awaitable) (hs : s.coAwait args = some s') :
    Inv s' := by
  have hret : s.ret = 0 := by
    by_contra hret
    rcases h.placed.early hret with h' | h' | h' <;> rw [hpc] at h' <;> cases h'
  obtain ⟨x, hx, hs⟩ := Option.map_eq_some_iff.mp hs
  have hobj := (NetworkOperation.idle_eq_some.mp hx).1
  split at hs
  · subst hs
    exact h.goto rfl rfl rfl (by rw [hpc]; rfl) rfl (by simp [hpc]) (by simp)
      (fun _ _ => ⟨hret, by simp⟩) fun _ => rfl
  · rename_i hzero
    subst hs
    refine h.goto rfl rfl rfl (by rw [hpc]; rfl) rfl (by simp [hpc]) (by simp) ?_
      fun hne => absurd hret hne
    intro errno herr
    -- with the error of `::socket` the awaitable is ready
    rw [h.placed.at_helper herr (by decide), objectOf_helper (by rw [hpc]; rfl) (by simp [hpc])]
      at hobj
    obtain rfl := Option.some.inj hobj
    have hpos := errno.property
    exact absurd (show errno.val ≠ 0 by omega) hzero

theorem Inv.complete (h : Inv s) (hpc : s.pc = .suspended) (r : Int) :
    Inv { s with pc := .resuming, ret := r } := by
  refine h.goto rfl rfl rfl (by rw [hpc]; rfl) rfl (by simp [hpc]) (by simp) ?_ fun _ => rfl
  intro errno herr
  exact absurd hpc (h.placed.error errno herr).2

/-- A result other than 0 leaves the descriptor with the helper. -/
theorem Inv.resume (h : Inv s) (hpc : s.pc = .resuming) (hs : s.resume = some s') : Inv s' := by
  obtain ⟨r, hr⟩ := h.placed.outcome (by simp [hpc])
  have hfunctor : s.base.object functor = some r.object := by
    rw [h.placed.at_helper hr (by decide), objectOf_helper (by rw [hpc]; rfl) (by simp [hpc])]
  have hother : ∀ o ∈ ours, o ≠ functor → s.base.object o = none := by
    intro o ho hne
    have hhelper : s.pc.helper ≠ some o := by
      rw [hpc]
      exact fun heq => hne (Option.some.inj heq).symm
    rw [h.placed.at_helper hr ho, objectOf_none hhelper fun _ => ⟨by simp [hpc], by simp [hpc]⟩]
  obtain ⟨sd, e, hobj, -⟩ := object_eq r
  have hfree : s.base.hold (.object stream) = none := by
    simp only [NetworkOperation.State.hold, hother stream (by decide) (by decide), Option.bind_none]
  obtain ⟨x, hx, hs⟩ := Option.map_eq_some_iff.mp hs
  obtain ⟨hx, hclosing⟩ := NetworkOperation.idle_eq_some.mp hx
  obtain rfl := Option.some.inj (hx.symm.trans hfunctor)
  -- where the objects are afterwards
  have hobjects : ∀ (b : NetworkOperation.State) (t : State), t.pc = .returned →
      t.outcome = s.outcome → t.base = b.set stream (r.stream t.ret) →
      b.object functor = some (if t.ret = 0 then { r.object with sd := none } else r.object) →
      (∀ q, q ≠ functor → b.object q = s.base.object q) →
      ∀ o ∈ ours, t.base.object o = t.outcome.bind fun r => t.objectOf r o := by
    intro b t htpc htout ht hf hq o ho
    rw [htout, hr, Option.bind_some, ht]
    by_cases hos : o = stream
    · rw [hos, NetworkOperation.object_set_self, objectOf_stream (Or.inl htpc)]
    rw [NetworkOperation.object_set_of_ne hos]
    by_cases hof : o = functor
    · have hhelper : t.pc.helper = some functor := by
        rw [htpc]
        rfl
      rw [hof, hf, State.objectOf, if_pos hhelper]
      simp only [htpc, true_and]
    · have hhelper : t.pc.helper ≠ some o := by
        rw [htpc]
        exact fun heq => hof (Option.some.inj heq).symm
      rw [hq o hof, hother o ho hof, objectOf_none hhelper fun heq => absurd heq hos]
  have herror : ∀ errno, s.outcome = some (.error errno) → s.ret = 0 ∧ Pc.returned ≠ .suspended :=
    fun errno herr => ⟨(h.placed.error errno herr).1, by decide⟩
  have hnext : ∀ t : State, NetworkOperation.Inv t.base → NetworkOperation.Grows s.base t.base →
      t.pc = .returned → t.ret = s.ret → t.outcome = s.outcome → t.created = s.created →
      (∀ o ∈ ours, t.base.object o = t.outcome.bind fun r => t.objectOf r o) → Inv t := by
    intro t hbase hgrows htpc htret htout htcreated hobj
    refine h.keep ⟨hbase, ?_, hobj, ?_, fun _ => Or.inr (Or.inl htpc)⟩ hgrows htout htcreated
      (fun hdrop => by simp [State.Dropped, hpc] at hdrop)
      fun hdrop => by simp [State.Dropped, htpc] at hdrop
    · rw [htpc, htout, hr]
      simp
    · intro errno herr
      rw [htret, htpc]
      exact herror errno (by rw [← htout]; exact herr)
  split at hs
  · -- the descriptor changes hands
    rename_i hret
    subst hs
    refine hnext _ ?_ ?_ rfl rfl rfl rfl
      (hobjects (s.base.set functor { r.object with sd := none }) _ rfl rfl ?_ ?_ fun q hq => ?_)
    · exact h.placed.base.handOver (NetworkOperation.idle_eq_some.mpr ⟨hx, hclosing⟩) hfree
        (by decide) rfl
    · exact (NetworkOperation.Grows.refl s.base).congr rfl rfl rfl
    · rw [SocketResult.stream, if_pos hret, hobj]
    · rw [NetworkOperation.object_set_self, if_pos hret]
    · exact NetworkOperation.object_set_of_ne hq
  · rename_i hret
    subst hs
    refine hnext _ ?_ ?_ rfl rfl rfl rfl (hobjects s.base _ rfl rfl ?_ ?_ fun q _ => rfl)
    · exact h.placed.base.set (hfree.trans rfl)
    · exact (NetworkOperation.Grows.refl s.base).congr rfl rfl rfl
    · rw [SocketResult.stream, if_neg hret, hobj]
    · rw [hfunctor, if_neg hret]

theorem Inv.destroy (h : Inv s) {r : Int} {b : NetworkOperation.State} (hpc : s.pc = .returned)
    (hs : NetworkOperation.step s.base (.destroy functor k r) = some b) :
    Inv { s with base := b, pc := .done } := by
  have happart := NetworkOperation.apart_of_step hs
  obtain ⟨o, ho⟩ := h.placed.outcome (by simp [hpc])
  have hplaced : Placed { s with base := b, pc := .done } := by
    refine ⟨h.placed.base.step hs, by simp [ho], ?_, ?_, fun _ => Or.inr (Or.inr rfl)⟩
    · intro q hq
      show b.object q = s.outcome.bind _
      rw [ho, Option.bind_some]
      by_cases hqf : q = functor
      · rw [hqf]
        refine (NetworkOperation.destroy_object hs).trans (objectOf_none ?_ ?_).symm
        · simp [Pc.helper]
        · exact fun heq => absurd heq (by decide)
      · rw [happart.object q (by simpa [NetworkOperation.Action.objects] using hqf),
          h.placed.at_helper ho hq]
        by_cases hqs : q = stream
        · rw [hqs, objectOf_stream (Or.inl hpc)]
          exact (objectOf_stream (s := { s with base := b, pc := .done }) (Or.inr rfl)).symm
        have hhelper : s.pc.helper ≠ some q := by
          rw [hpc]
          exact fun heq => hqf (Option.some.inj heq).symm
        rw [objectOf_none hhelper fun heq => absurd heq hqs]
        exact (objectOf_none (by simp [Pc.helper]) fun heq => absurd heq hqs).symm
    · intro errno herr
      exact ⟨(h.placed.error errno herr).1, by simp⟩
  by_cases hret : s.ret = 0
  · exact h.keep hplaced happart.grows rfl rfl (by simp [State.Dropped, hret])
      (by simp [State.Dropped, hret])
  · -- the helper still has the socket
    refine ⟨hplaced, fun fd hfd => ?_⟩
    obtain ⟨i, hi, -, htable⟩ := h.created fd hfd
    refine ⟨i, hi, fun _ => ⟨k, ?_⟩, fun hnot => absurd ⟨rfl, hret⟩ hnot⟩
    have hobj : s.base.object functor = some (SocketResult.object (.descriptor fd)) := by
      rw [h.placed.at_helper hfd (by decide), State.objectOf, if_pos (by rw [hpc]; rfl),
        if_neg fun hzero => hret hzero.2]
    exact NetworkOperation.destroy_closes (NetworkOperation.idle_eq_some.mpr ⟨hobj, rfl⟩) rfl rfl
      (htable (by simp [State.Dropped, hpc])) hs

/-- Other network operations leave the objects of `tcp_connect` alone. -/
theorem Inv.other (h : Inv s) {a : NetworkOperation.Action} {b : NetworkOperation.State}
    (ha : ∀ o ∈ a.objects, o ∉ ours) (hs : NetworkOperation.step s.base a = some b) :
    Inv { s with base := b } := by
  have happart := NetworkOperation.apart_of_step hs
  have hplaced : Placed { s with base := b } := by
    refine ⟨h.placed.base.step hs, h.placed.start, ?_, h.placed.error, h.placed.early⟩
    intro o ho
    exact (happart.object o fun hmem => ha o hmem ho).trans (h.placed.objects o ho)
  by_cases hdrop : s.Dropped
  · refine ⟨hplaced, fun fd hfd => ?_⟩
    obtain ⟨i, hi, hcloses, -⟩ := h.created fd hfd
    obtain ⟨k, hk⟩ := hcloses hdrop
    exact ⟨i, hi, fun _ => ⟨k, hk.step h.placed.base hs⟩, fun hnot => absurd hdrop hnot⟩
  · exact h.keep hplaced happart.grows rfl rfl hdrop hdrop

theorem Inv.step {a : Action} (h : Inv s) (hs : step args s a = some s') : Inv s' := by
  cases a <;> simp only [TcpConnect.step] at hs <;> split at hs
  case socket.isTrue r hpc => exact h.socket hpc hs
  case capture.isTrue hpc =>
      exact h.moveHelper hs (by decide) (by decide) (by rw [hpc]; rfl) rfl (Or.inl hpc)
        (Or.inl rfl)
  case ret.isTrue hpc =>
      exact h.moveHelper hs (by decide) (by decide) (by rw [hpc]; rfl) rfl (Or.inr hpc)
        (Or.inr rfl)
  case coAwait.isTrue hpc => exact h.coAwait hpc hs
  case complete.isTrue r hpc =>
      obtain rfl := Option.some.inj hs
      exact h.complete hpc r
  case resume.isTrue hpc => exact h.resume hpc hs
  case destroy.isTrue k r hpc =>
      obtain ⟨b, hb, rfl⟩ := Option.map_eq_some_iff.mp hs
      exact h.destroy hpc hb
  case other.isTrue a ha =>
      obtain ⟨b, hb, rfl⟩ := Option.map_eq_some_iff.mp hs
      exact h.other ha hb
  all_goals cases hs

theorem inv_init : Inv init := by
  refine ⟨⟨NetworkOperation.inv_init, ⟨fun _ => rfl, fun _ => rfl⟩, fun o ho => rfl, ?_, ?_⟩, ?_⟩
  · intro errno herr
    cases herr
  · intro hret
    exact absurd rfl hret
  · intro fd hfd
    cases hfd

theorem Reachable.inv (h : Reachable args s) : Inv s := by
  refine Reaches.invariant h ?_ ?_
  · rintro s rfl
    exact inv_init
  · rintro s a s' - ih - hs
    exact ih.step hs

/-- While `tcp_connect` is suspended, the ring has been asked to connect the descriptor of the
helper to the address of the caller. -/
def Asked (args : Args) (s : State) : Prop :=
  s.pc = .suspended → ∃ x, s.base.object functor = some x ∧
    s.request = some ⟨x.sd, args.details, args.size⟩

theorem socket_pc (hs : s.socket r = some s') : s'.pc = .opened := by
  obtain ⟨b, -, hs⟩ := Option.bind_eq_some_iff.mp hs
  cases r with
  | descriptor fd =>
      obtain ⟨b', -, rfl⟩ := Option.map_eq_some_iff.mp hs
      rfl
  | error errno =>
      obtain ⟨x, -, rfl⟩ := Option.map_eq_some_iff.mp hs
      rfl

theorem moveHelper_pc (hs : s.moveHelper o p pc = some s') : s'.pc = pc := by
  obtain ⟨b, -, hs⟩ := Option.bind_eq_some_iff.mp hs
  obtain ⟨b', -, rfl⟩ := Option.map_eq_some_iff.mp hs
  rfl

theorem resume_pc (hs : s.resume = some s') : s'.pc = .returned := by
  obtain ⟨x, -, hs⟩ := Option.map_eq_some_iff.mp hs
  split at hs <;> subst hs <;> rfl

theorem Asked.step {a : Action} (h : Asked args s) (hs : step args s a = some s') :
    Asked args s' := by
  cases a <;> simp only [TcpConnect.step] at hs <;> split at hs
  case socket.isTrue r hpc => exact fun hp => absurd ((socket_pc hs).symm.trans hp) (by decide)
  case capture.isTrue hpc =>
      exact fun hp => absurd ((moveHelper_pc hs).symm.trans hp) (by decide)
  case ret.isTrue hpc =>
      exact fun hp => absurd ((moveHelper_pc hs).symm.trans hp) (by decide)
  case coAwait.isTrue hpc =>
      obtain ⟨x, hx, hs⟩ := Option.map_eq_some_iff.mp hs
      split at hs
      · subst hs
        exact fun hp => absurd hp (by simp)
      · subst hs
        exact fun _ => ⟨x, (NetworkOperation.idle_eq_some.mp hx).1, rfl⟩
  case complete.isTrue r hpc =>
      obtain rfl := Option.some.inj hs
      exact fun hp => absurd hp (by simp)
  case resume.isTrue hpc => exact fun hp => absurd ((resume_pc hs).symm.trans hp) (by decide)
  case destroy.isTrue k r hpc =>
      obtain ⟨b, -, rfl⟩ := Option.map_eq_some_iff.mp hs
      exact fun hp => absurd hp (by simp)
  case other.isTrue a ha =>
      obtain ⟨b, hb, rfl⟩ := Option.map_eq_some_iff.mp hs
      intro hp
      obtain ⟨x, hx, hreq⟩ := h hp
      have hfunctor := (NetworkOperation.apart_of_step hb).object functor
        fun hmem => ha functor hmem (by decide)
      exact ⟨x, hfunctor.trans hx, hreq⟩
  all_goals cases hs

theorem Reachable.asked (h : Reachable args s) : Asked args s := by
  refine Reaches.invariant h ?_ ?_
  · rintro s rfl hp
    cases hp
  · rintro s a s' - ih - hs
    exact ih.step hs

/-! ## The result -/

/-- The stream that `co_await` has returned. -/
theorem Inv.returned (h : Inv s) (hover : s.pc = .returned ∨ s.pc = .done) :
    ∃ r, s.outcome = some r ∧ s.base.object stream = some (r.stream s.ret) := by
  obtain ⟨r, hr⟩ := h.placed.outcome (by rcases hover with hpc | hpc <;> simp [hpc])
  exact ⟨r, hr, by rw [h.placed.at_helper hr (by decide), objectOf_stream hover]⟩

/-- On success the stream owns the socket. -/
theorem Inv.owns (h : Inv s) (hover : s.pc = .returned ∨ s.pc = .done)
    (hout : s.outcome = some (.descriptor fd)) (hret : s.ret = 0) :
    (∃ i, s.created = some i ∧ s.base.table fd = some i) ∧
      ∀ c, s.base.hold c = some fd ↔ c = .object stream := by
  obtain ⟨r, hr, hstream⟩ := h.returned hover
  obtain rfl := Option.some.inj (hr.symm.trans hout)
  have hhold : s.base.hold (.object stream) = some fd := by
    rw [NetworkOperation.hold_object hstream, hret]
    rfl
  obtain ⟨i, hi, -, htable⟩ := h.created fd hout
  refine ⟨⟨i, hi, htable fun hdrop => hdrop.2 hret⟩, fun c => ⟨fun hc => ?_, ?_⟩⟩
  · exact h.placed.base.custody.inj c _ fd hc hhold
  · rintro rfl
    exact hhold

/-- When the connect fails, the helper closes the socket. -/
theorem Inv.closesOnce (h : Inv s) (hout : s.outcome = some (.descriptor fd))
    (hret : s.ret ≠ 0) : ∃ i, s.created = some i ∧ ClosesOnce s fd i := by
  obtain ⟨i, hi, hcloses, htable⟩ := h.created fd hout
  refine ⟨i, hi, fun hpc => ?_, fun hpc => hcloses ⟨hpc, hret⟩, ?_⟩
  · have hobj : s.base.object functor = some (SocketResult.object (.descriptor fd)) := by
      rw [h.placed.at_helper hout (by decide), State.objectOf, if_pos (by rw [hpc]; rfl),
        if_neg fun hzero => hret hzero.2]
    exact ⟨NetworkOperation.hold_object hobj, htable (by simp [State.Dropped, hpc])⟩
  · exact List.nodup_iff_count_le_one.mp h.placed.base.custody.once i

/-- **`tcp_connect` reports every failure of the connect, and none of `::socket`.** -/
theorem tcpConnect_reports_iff (h : Reachable args s) (hover : s.pc = .returned ∨ s.pc = .done) :
    (∃ x, s.base.object stream = some x ∧ Reports s x) ↔
      ∃ fd, s.outcome = some (.descriptor fd) := by
  have hi := h.inv
  obtain ⟨r, hr, hstream⟩ := hi.returned hover
  constructor
  · rintro ⟨x, hx, hreports⟩
    cases r with
    | descriptor fd => exact ⟨fd, hr⟩
    | error errno =>
        -- the awaitable was ready, and its result is still 0
        have hret := (hi.placed.error errno hr).1
        obtain rfl := Option.some.inj (hx.symm.trans hstream)
        have hzero : (SocketResult.stream (.error errno) s.ret).lastError = 0 := by
          rw [SocketResult.stream, if_pos hret]
        exact (hreports.error.mp hzero).1
  · rintro ⟨fd, hfd⟩
    obtain rfl := Option.some.inj (hr.symm.trans hfd)
    refine ⟨_, hstream, ?_, ?_, ?_, ?_⟩
    · by_cases hret : s.ret = 0
      · rw [SocketResult.stream, if_pos hret]
        exact ⟨fun _ => ⟨⟨fd, hfd⟩, hret⟩, fun _ => rfl⟩
      · rw [SocketResult.stream, if_neg hret]
        exact ⟨fun hneg => absurd (Int.neg_eq_zero.mp hneg) hret, fun hok => absurd hok.2 hret⟩
    · intro fd' hfd' hret
      obtain rfl := SocketResult.descriptor.inj (Option.some.inj (hfd.symm.trans hfd'))
      rw [SocketResult.stream, if_pos hret]
      exact ⟨rfl, hi.owns hover hfd hret⟩
    · intro errno herr
      cases hfd.symm.trans herr
    · intro fd' hfd' hret
      rw [SocketResult.stream, if_neg hret]
      exact ⟨rfl, rfl, hi.closesOnce hfd' hret⟩

/-- The helper, where it is, can be worked with. -/
theorem Inv.idle (h : Inv s) (hpc : s.pc.helper = some o) (ho : o ∈ ours)
    (hnot : s.pc ≠ .returned) : ∃ r : SocketResult, s.base.idle o = some r.object := by
  obtain ⟨r, hr⟩ := h.placed.outcome (by rintro hs; rw [hs] at hpc; cases hpc)
  obtain ⟨sd, e, hobj, -⟩ := object_eq r
  refine ⟨r, NetworkOperation.idle_eq_some.mpr ⟨?_, by rw [hobj]⟩⟩
  rw [h.placed.at_helper hr ho, objectOf_helper hpc hnot]

theorem Inv.moves (h : Inv s) (hpc : s.pc.helper = some o) (ho : o ∈ ours) (hp : p ∈ ours)
    (hne : p ≠ o) (hpn : p ≠ stream) (hnot : s.pc ≠ .returned) (pc : Pc) :
    ∃ s', s.moveHelper o p pc = some s' := by
  obtain ⟨r, hr⟩ := h.placed.outcome (by rintro hs; rw [hs] at hpc; cases hpc)
  obtain ⟨r', hidle⟩ := h.idle hpc ho hnot
  have hfree : s.base.object p = none := by
    rw [h.placed.at_helper hr hp]
    apply objectOf_none
    · rw [hpc]
      exact fun heq => hne (Option.some.inj heq).symm
    · exact fun heq => absurd heq hpn
  have hempty : ((s.base.set p Object.empty).swap p o).idle o = some Object.empty := by
    refine NetworkOperation.idle_eq_some.mpr ⟨?_, rfl⟩
    show (s.base.set p Object.empty).object (Equiv.swap p o o) = _
    rw [Equiv.swap_apply_right, NetworkOperation.object_set_self]
  simp only [State.moveHelper, NetworkOperation.step, hfree, if_true, hidle, Option.map_some,
    Option.bind_some, hempty, NetworkOperation.backgroundClose_none (x := Object.empty) rfl]
  exact ⟨_, rfl⟩

/-- `tcp_connect` does not get stuck before it has returned the stream. -/
theorem tcpConnect_goesOn (h : Reachable args s) (hover : s.pc ≠ .returned) (hdone : s.pc ≠ .done) :
    ∃ a s', (∀ b, a ≠ .other b) ∧ step args s a = some s' := by
  have hi := h.inv
  cases hpc : s.pc with
  | start =>
      have hfree : s.base.object netOp = none := by
        rw [hi.placed.objects netOp (by decide), hi.placed.start.mp hpc, Option.bind_none]
      have hidle : (s.base.set netOp ⟨true, none, 0, none⟩).idle netOp =
          some ⟨true, none, 0, none⟩ :=
        NetworkOperation.idle_eq_some.mpr ⟨NetworkOperation.object_set_self .., rfl⟩
      have hsocket : ∃ s', s.socket (.error ⟨1, Int.one_pos⟩) = some s' := by
        simp only [State.socket, NetworkOperation.step, hfree, if_true, Option.bind_some]
        exact ⟨_, congrArg (Option.map _) hidle⟩
      obtain ⟨s', hs'⟩ := hsocket
      exact ⟨.socket (.error ⟨1, Int.one_pos⟩), s', by simp, by rw [step, if_pos hpc, hs']⟩
  | opened =>
      obtain ⟨s', hs'⟩ := hi.moves (by rw [hpc]; rfl) (o := netOp) (p := capture) (by decide)
        (by decide) (by decide) (by decide) hover .captured
      exact ⟨.capture, s', by simp, by rw [step, if_pos hpc, hs']⟩
  | captured =>
      obtain ⟨s', hs'⟩ := hi.moves (by rw [hpc]; rfl) (o := capture) (p := functor) (by decide)
        (by decide) (by decide) (by decide) hover .awaitable
      exact ⟨.ret, s', by simp, by rw [step, if_pos hpc, hs']⟩
  | awaitable =>
      obtain ⟨r, hidle⟩ := hi.idle (by rw [hpc]; rfl) (o := functor) (by decide) hover
      exact ⟨.coAwait, _, by simp, by rw [step, if_pos hpc, State.coAwait, hidle, Option.map_some]⟩
  | suspended => exact ⟨.complete 0, _, by simp, by rw [step, if_pos hpc]⟩
  | resuming =>
      obtain ⟨r, hidle⟩ := hi.idle (by rw [hpc]; rfl) (o := functor) (by decide) hover
      exact ⟨.resume, _, by simp, by rw [step, if_pos hpc, State.resume, hidle, Option.map_some]⟩
  | returned => exact absurd hpc hover
  | done => exact absurd hpc hdone

/-- Descriptor 5 is to be connected while another operation closes its own. -/
def connects (result : Int) : List Action :=
  [.other (.constructWith 7 true 4), .socket (.descriptor 5), .capture, .ret, .coAwait,
    .other (.destroy 7 2 0), .complete result, .other (.backgroundDone 2 0), .resume,
    .destroy 8 0]

theorem tcpConnect_reports_iff_refused :
    ∃ s, run (step ⟨16, 28⟩) anyStep init (connects (-111)) = some s ∧
      (∃ x, s.base.object stream = some x ∧ x.lastError = 111 ∧ x.sd = none) ∧
      ∃ x, s.base.object stream = some x ∧ Reports s x := by
  have hrun : ∃ s, run (step ⟨16, 28⟩) anyStep init (connects (-111)) = some s ∧ s.pc = .done ∧
      s.outcome = some (.descriptor 5) ∧
      ∃ x, s.base.object stream = some x ∧ x.lastError = 111 ∧ x.sd = none :=
    ⟨_, rfl, rfl, rfl, _, rfl, rfl, rfl⟩
  obtain ⟨s, hs, hpc, hout, hx⟩ := hrun
  refine ⟨s, hs, hx, ?_⟩
  exact (tcpConnect_reports_iff (Reaches.run (Reaches.start rfl) hs) (Or.inr hpc)).mpr ⟨5, hout⟩

/-- With no descriptor left the stream says that there is no error. -/
theorem tcpConnect_silent :
    ∃ s x, run (step ⟨16, 28⟩) anyStep init
        [.socket (.error ⟨24, by decide⟩), .capture, .ret, .coAwait, .resume] = some s ∧
      s.base.object stream = some x ∧ x.lastError = 0 ∧ x.sd = none ∧ ¬ Reports s x := by
  refine ⟨_, _, rfl, rfl, rfl, rfl, fun hreports => ?_⟩
  exact absurd (hreports.socketFails ⟨24, by decide⟩ rfl).1 (by decide)

end

end Zab.TcpConnect
