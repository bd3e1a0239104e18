import Zab.Basic.Automaton
import Zab.Basic.Custody

set_option autoImplicit false

/-! # The socket descriptors of `network_operation`

A `network_operation` owns a socket descriptor. Moves are swaps, and whatever drops a descriptor
hands it to `background_close`, a coroutine that runs at once up to its first suspension: it takes
the descriptor out of the object, asks the ring to close it if there is an engine, and falls back
to `::close` if that fails. `close()` leaves the descriptor in the object until the ring reports
success.

The kernel's side is the table of open descriptors. A descriptor number is used again after it was
closed, so the sockets behind the numbers are counted in the order in which they are handed in.
The kernel closes a descriptor at any time between the request and its completion; a close that
fails leaves it open. `getsockopt`, which clears the socket's error, has no effect here, and
`cancel_token_`, which no operation of this file sets, stays null.

The fields `handed`, `closed` and `lost` of the state record history and are read by no branch.
-/

namespace Zab.NetworkOperation

open Automaton

/-- A socket descriptor; `kNoDescriptor` is `none`. -/
abbrev Fd := Nat

/-- A `network_operation`. -/
structure Object where
  /-- Whether `engine_` is set. -/
  engine : Bool
  sd : Option Fd
  lastError : Int
  /-- The `close()` in progress: its request is with the kernel, or has the given result. -/
  closing : Option (Option Int)
  deriving DecidableEq

/-- `network_operation()`. -/
def Object.empty : Object := ⟨false, none, 0, none⟩

/-- A `background_close()` that waits for the ring, and the result when there is one. -/
structure BackgroundClose where
  sdTmp : Fd
  result : Option Int
  deriving DecidableEq

structure State where
  object : Nat → Option Object
  background : Nat → Option BackgroundClose
  /-- The kernel's table: the socket that a descriptor stands for. -/
  table : Fd → Option Nat
  /-- How many sockets have been handed in. -/
  handed : Nat
  /-- The sockets that were closed. -/
  closed : List Nat
  /-- The sockets given up, with the result of the ring and that of `::close`. -/
  lost : List (Nat × Int × Int)

def init : State where
  object := fun _ => none
  background := fun _ => none
  table := fun _ => none
  handed := 0
  closed := []
  lost := []

def State.set (s : State) (o : Nat) (x : Object) : State :=
  { s with object := Function.update s.object o (some x) }

/-- The object `o`, unless it is in a `close()`. -/
def State.idle (s : State) (o : Nat) : Option Object :=
  (s.object o).filter fun x => x.closing.isNone

/-- The kernel closes `fd`, with result `r`; it cannot report success for one that is not open. -/
def State.sysClose (s : State) (fd : Fd) (r : Int) : Option State :=
  if r = 0 then
    (s.table fd).map fun i =>
      { s with table := Function.update s.table fd none, closed := s.closed ++ [i] }
  else some s

/-- The end of `background_close`: `if (result && ::close(sd_tmp))`. -/
def State.fallbackClose (s : State) (sdTmp : Fd) (result r : Int) : Option State :=
  if result = 0 then some s
  else if r = 0 then s.sysClose sdTmp r
  else some { s with lost := s.lost ++ (s.table sdTmp).toList.map fun i => (i, result, r) }

/-- `background_close()` of the object `x` at `o`, up to its first suspension: `k` names the
coroutine if it suspends, otherwise `::close` gives the result `r`. -/
def State.backgroundClose (s : State) (o : Nat) (x : Object) (k : Nat) (r : Int) : Option State :=
  match x.sd with
  | none => some s
  | some fd =>
      let s := s.set o { x with sd := none }
      if x.engine then
        if s.background k = none then
          some { s with background := Function.update s.background k (some ⟨fd, none⟩) }
        else none
      else s.fallbackClose fd (-1) r

/-- A new socket gets the descriptor `fd`. -/
def State.handIn (s : State) (fd : Fd) : State :=
  { s with table := Function.update s.table fd (some s.handed), handed := s.handed + 1 }

/-- `swap(_first, _second)`. -/
def State.swap (s : State) (o p : Nat) : State :=
  { s with object := fun q => s.object (Equiv.swap o p q) }

inductive Action where
  /-- `network_operation()` or `network_operation(engine*)`. -/
  | construct (o : Nat) (engine : Bool)
  /-- `network_operation(engine*, int)` with a fresh descriptor. -/
  | constructWith (o : Nat) (engine : Bool) (fd : Fd)
  | moveConstruct (o p : Nat)
  | moveAssign (o p k : Nat) (r : Int)
  | swap (o p : Nat)
  | registerEngine (o : Nat)
  /-- `set_descriptor` with a fresh descriptor. -/
  | setDescriptor (o : Nat) (fd : Fd) (k : Nat) (r : Int)
  /-- `co_await close()`. -/
  | close (o : Nat)
  /-- The kernel completes the request of `close()`. -/
  | closeDone (o : Nat) (r : Int)
  /-- `close()` resumes. -/
  | closeResume (o : Nat)
  | destroy (o k : Nat) (r : Int)
  /-- The kernel completes the request of a `background_close`. -/
  | backgroundDone (k : Nat) (r : Int)
  /-- A `background_close` resumes; `::close` gives the result `r` if it is called. -/
  | backgroundResume (k : Nat) (r : Int)
  deriving DecidableEq

def step (s : State) : Action → Option State
  | .construct o engine =>
      if s.object o = none then some (s.set o { Object.empty with engine := engine }) else none
  | .constructWith o engine fd =>
      if s.object o = none ∧ s.table fd = none then
        some ((s.handIn fd).set o { Object.empty with engine := engine, sd := some fd })
      else none
  | .moveConstruct o p =>
      if s.object o = none then
        (s.idle p).map fun _ => (s.set o Object.empty).swap o p
      else none
  | .moveAssign o p k r =>
      (s.idle o).bind fun x => (s.idle p).bind fun _ =>
        if o ≠ p then (s.backgroundClose o x k r).map fun s => s.swap o p else some s
  | .swap o p => (s.idle o).bind fun _ => (s.idle p).map fun _ => s.swap o p
  | .registerEngine o => (s.idle o).map fun x => s.set o { x with engine := true }
  | .setDescriptor o fd k r =>
      if s.table fd = none then
        (s.idle o).bind fun x => (s.backgroundClose o x k r).map fun s =>
          (s.handIn fd).set o { x with sd := some fd }
      else none
  | .close o =>
      (s.idle o).bind fun x =>
        match x.sd with
        -- `is_ready`: nothing to close
        | none => some s
        | some _ => if x.engine then some (s.set o { x with closing := some none }) else none
  | .closeDone o r =>
      (s.object o).bind fun x =>
        match x.sd, x.closing with
        | some fd, some none =>
            (s.sysClose fd r).map fun s => s.set o { x with closing := some (some r) }
        | _, _ => none
  | .closeResume o =>
      (s.object o).bind fun x =>
        match x.closing with
        | some (some r) =>
            if r = 0 then some (s.set o { x with sd := none, closing := none })
            else some (s.set o { x with lastError := -r, closing := none })
        | _ => none
  | .destroy o k r =>
      (s.idle o).bind fun x => (s.backgroundClose o x k r).map fun s =>
        { s with object := Function.update s.object o none }
  | .backgroundDone k r =>
      (s.background k).bind fun b =>
        match b.result with
        | none => (s.sysClose b.sdTmp r).map fun s =>
            { s with
              background := Function.update s.background k (some { b with result := some r }) }
        | some _ => none
  | .backgroundResume k r =>
      (s.background k).bind fun b =>
        match b.result with
        | some result => (s.fallbackClose b.sdTmp result r).map fun s =>
            { s with background := Function.update s.background k none }
        | none => none

/-- The states of all sequences of operations and completions. -/
def Reachable : State → Prop := Reaches step anyStep (· = init)

/-! ## Who owns a descriptor -/

inductive Holder where
  | object (o : Nat)
  | background (k : Nat)
  deriving DecidableEq

/-- The descriptor an object answers for: not the one its `close()` has already closed. -/
def Object.held (x : Object) : Option Fd := if x.closing = some (some 0) then none else x.sd

/-- The descriptor a `background_close` answers for. -/
def BackgroundClose.held (b : BackgroundClose) : Option Fd :=
  if b.result = some 0 then none else some b.sdTmp

def State.hold (s : State) : Holder → Option Fd
  | .object o => (s.object o).bind Object.held
  | .background k => (s.background k).bind BackgroundClose.held

/-- **One owner, closed once.** -/
structure OneOwner (s : State) : Prop where
  /-- An open descriptor is held by at most one object or background close. -/
  one : ∀ h h' fd, s.hold h = some fd → s.hold h' = some fd → h = h'
  /-- What is held is open: nobody asks to close a descriptor that is not. -/
  isOpen : ∀ h fd, s.hold h = some fd → s.table fd ≠ none
  /-- No socket is closed twice. -/
  once : s.closed.Nodup
  /-- When nothing is left, every socket has been closed, unless both ways of closing it
  failed. -/
  settled : (∀ o, s.object o = none) → (∀ k, s.background k = none) → ∀ i, i < s.handed →
    i ∈ s.closed ∨ ∃ result r, (i, result, r) ∈ s.lost ∧ result ≠ 0 ∧ r ≠ 0

/-! ## The invariant -/

structure Inv (s : State) : Prop where
  custody : Custody s.table s.hold s.handed s.closed (s.lost.map Prod.fst)
  failed : ∀ x ∈ s.lost, x.2.1 ≠ 0 ∧ x.2.2 ≠ 0

section

variable {s s' : State} {o p k : Nat} {x y : Object} {fd : Fd} {r : Int}

theorem object_set_self (s : State) (o : Nat) (x : Object) : (s.set o x).object o = some x :=
  Function.update_self ..

theorem object_set_of_ne {q : Nat} (hq : q ≠ o) : (s.set o x).object q = s.object q :=
  Function.update_of_ne hq ..

theorem idle_eq_some : s.idle o = some x ↔ s.object o = some x ∧ x.closing = none := by
  simp only [State.idle, Option.filter_eq_some_iff, Option.isNone_iff_eq_none]

theorem held_of_idle (h : x.closing = none) : x.held = x.sd := by
  simp [Object.held, h]

theorem hold_of_idle (h : s.idle o = some x) : s.hold (.object o) = x.sd := by
  obtain ⟨hx, hc⟩ := idle_eq_some.mp h
  simp only [State.hold, hx, Option.bind_some, held_of_idle hc]

theorem hold_object (hx : s.object o = some x) : s.hold (.object o) = x.held := by
  simp only [State.hold, hx, Option.bind_some]

theorem hold_set_self (s : State) (o : Nat) (x : Object) : (s.set o x).hold (.object o) = x.held :=
  hold_object (Function.update_self ..)

theorem hold_set_of_ne {h : Holder} (hne : h ≠ .object o) : (s.set o x).hold h = s.hold h := by
  cases h with
  | object q =>
      have hq : q ≠ o := fun hq => hne (by rw [hq])
      simp only [State.hold, State.set, Function.update_of_ne hq]
  | background k => rfl

/-- Replacing an object by one that answers for the same descriptor changes nothing. -/
theorem hold_set_of_eq (hx : s.hold (.object o) = x.held) (h : Holder) :
    (s.set o x).hold h = s.hold h := by
  by_cases hne : h = .object o
  · rw [hne, hold_set_self, hx]
  · exact hold_set_of_ne hne

/-- The kernel's table and the history are the same. -/
structure SameLedger (s t : State) : Prop where
  table : t.table = s.table
  handed : t.handed = s.handed
  closed : t.closed = s.closed
  lost : t.lost = s.lost

theorem SameLedger.refl (s : State) : SameLedger s s := ⟨rfl, rfl, rfl, rfl⟩

/-- Handles are exchanged, and nothing else happens. -/
theorem Inv.exchange (h : Inv s) (hl : SameLedger s s') (e : Equiv.Perm Holder)
    (hhold : ∀ c, s'.hold c = s.hold (e c)) : Inv s' := by
  refine ⟨?_, by rw [hl.lost]; exact h.failed⟩
  rw [hl.table, hl.handed, hl.closed, hl.lost]
  exact h.custody.exchange e hhold

theorem Inv.congr (h : Inv s) (hl : SameLedger s s') (hhold : ∀ c, s'.hold c = s.hold c) : Inv s' :=
  h.exchange hl (Equiv.refl _) hhold

theorem Inv.swap (h : Inv s) (o p : Nat) : Inv (s.swap o p) := by
  refine h.exchange ⟨rfl, rfl, rfl, rfl⟩ (Equiv.swap (.object o) (.object p)) fun c => ?_
  cases c with
  | object q =>
      have hswap : Equiv.swap (Holder.object o) (.object p) (.object q)
          = .object (Equiv.swap o p q) := by
        have hinj : Function.Injective Holder.object := fun a b hab => Holder.object.inj hab
        exact (hinj.map_swap o p q).symm
      rw [hswap]
      rfl
  | background k =>
      rw [Equiv.swap_apply_of_ne_of_ne (by simp) (by simp)]
      rfl

/-- A new socket is handed in, to `c`. -/
theorem Inv.handIn (h : Inv s) {c : Holder} (hfd : s.table fd = none) (hc : s.hold c = none)
    (hl : SameLedger (s.handIn fd) s') (hself : s'.hold c = some fd)
    (hother : ∀ d, d ≠ c → s'.hold d = s.hold d) : Inv s' := by
  refine ⟨?_, by rw [hl.lost]; exact h.failed⟩
  rw [hl.table, hl.handed, hl.closed, hl.lost]
  exact h.custody.take hfd hc hself hother

theorem sysClose_frame (hs : s.sysClose fd r = some s') :
    s'.object = s.object ∧ s'.background = s.background ∧
      ∀ fd', s.table fd' = none → s'.table fd' = none := by
  unfold State.sysClose at hs
  split at hs
  · obtain ⟨i, -, rfl⟩ := Option.map_eq_some_iff.mp hs
    refine ⟨rfl, rfl, fun fd' hfd' => ?_⟩
    by_cases hne : fd' = fd
    · rw [hne]
      exact Function.update_self ..
    · exact (Function.update_of_ne hne ..).trans hfd'
  · obtain rfl := Option.some.inj hs
    exact ⟨rfl, rfl, fun fd' hfd' => hfd'⟩

/-- The kernel closes the descriptor that `c` holds. -/
theorem Inv.sysClose (h : Inv s) {c : Holder} {t u : State} (hu : SameLedger s u)
    (hc : s.hold c = some fd) (hs : u.sysClose fd 0 = some s') (hl : SameLedger s' t)
    (hself : t.hold c = none) (hother : ∀ d, d ≠ c → t.hold d = s.hold d) : Inv t := by
  simp only [State.sysClose, if_true] at hs
  obtain ⟨i, hi, rfl⟩ := Option.map_eq_some_iff.mp hs
  have hlost : t.lost = s.lost := hl.lost.trans hu.lost
  refine ⟨?_, by rw [hlost]; exact h.failed⟩
  rw [hl.table, hl.handed, hl.closed, hlost]
  show Custody (Function.update u.table fd none) t.hold u.handed (u.closed ++ [i]) _
  rw [hu.table] at hi ⊢
  rw [hu.handed, hu.closed]
  exact h.custody.giveBack hc hi hself hother

theorem fallbackClose_frame {result : Int} (hs : s.fallbackClose fd result r = some s') :
    s'.object = s.object ∧ s'.background = s.background ∧
      ∀ fd', s.table fd' = none → s'.table fd' = none := by
  unfold State.fallbackClose at hs
  split at hs
  · obtain rfl := Option.some.inj hs
    exact ⟨rfl, rfl, fun fd' hfd' => hfd'⟩
  split at hs
  · exact sysClose_frame hs
  · obtain rfl := Option.some.inj hs
    exact ⟨rfl, rfl, fun fd' hfd' => hfd'⟩

/-- The ring has failed: `::close` closes the descriptor that `c` holds, or it is lost. -/
theorem Inv.fallbackClose (h : Inv s) {c : Holder} {t u : State} {result : Int}
    (hu : SameLedger s u) (hc : s.hold c = some fd) (hresult : result ≠ 0)
    (hs : u.fallbackClose fd result r = some s') (hl : SameLedger s' t) (hself : t.hold c = none)
    (hother : ∀ d, d ≠ c → t.hold d = s.hold d) : Inv t := by
  simp only [State.fallbackClose, if_neg hresult] at hs
  by_cases hr : r = 0
  · subst hr
    rw [if_pos rfl] at hs
    exact h.sysClose hu hc hs hl hself hother
  · rw [if_neg hr] at hs
    obtain rfl := Option.some.inj hs
    obtain ⟨i, hi⟩ := Option.ne_none_iff_exists'.mp (h.custody.live c fd hc)
    have hlost : t.lost = s.lost ++ [(i, result, r)] := by
      rw [hl.lost, hu.lost, hu.table, hi]
      rfl
    refine ⟨?_, ?_⟩
    · rw [hl.table, hl.handed, hl.closed, hlost, List.map_append]
      show Custody u.table t.hold u.handed u.closed _
      rw [hu.table, hu.handed, hu.closed]
      exact h.custody.lose hc hi hself hother
    · rw [hlost]
      intro z hz
      rcases List.mem_append.mp hz with hz | hz
      · exact h.failed z hz
      · rw [List.mem_singleton.mp hz]
        exact ⟨hresult, hr⟩

theorem backgroundClose_none (hx : x.sd = none) : s.backgroundClose o x k r = some s := by
  simp only [State.backgroundClose, hx]

/-- What `background_close` leaves behind: the object is empty, and the descriptor is in other
hands. -/
theorem Inv.backgroundClose (h : Inv s) (hx : s.idle o = some x)
    (hs : s.backgroundClose o x k r = some s') :
    Inv s' ∧ s'.object = Function.update s.object o (some { x with sd := none }) ∧
      ∀ fd', s.table fd' = none → s'.table fd' = none := by
  obtain ⟨hobj, hidle⟩ := idle_eq_some.mp hx
  have hhold := hold_of_idle hx
  cases hsd : x.sd with
  | none =>
      simp only [State.backgroundClose, hsd] at hs
      obtain rfl := Option.some.inj hs
      have hsame : ({ x with sd := none } : Object) = x := by rw [← hsd]
      exact ⟨h, by rw [hsame, ← hobj, Function.update_eq_self], fun fd' hfd' => hfd'⟩
  | some fd =>
      rw [hsd] at hhold
      -- without its descriptor the object holds nothing
      have hself : (s.set o { x with sd := none }).hold (.object o) = none := by
        rw [hold_set_self]
        exact held_of_idle hidle
      have hother : ∀ d, d ≠ .object o → (s.set o { x with sd := none }).hold d = s.hold d :=
        fun d hd => hold_set_of_ne hd
      simp only [State.backgroundClose, hsd] at hs
      split at hs
      · -- the ring is asked: the coroutine takes the descriptor over from the object
        split at hs
        · rename_i hk
          obtain rfl := Option.some.inj hs
          refine ⟨?_, rfl, fun fd' hfd' => hfd'⟩
          have hfree : s.hold (.background k) = none := by
            simp only [State.hold, show s.background k = none from hk, Option.bind_none]
          refine h.exchange ⟨rfl, rfl, rfl, rfl⟩ (Equiv.swap (.object o) (.background k)) ?_
          intro c
          by_cases hco : c = .object o
          · rw [hco, Equiv.swap_apply_left, hfree]
            exact hself
          by_cases hck : c = .background k
          · rw [hck, Equiv.swap_apply_right, hhold]
            simp [State.hold, BackgroundClose.held]
          rw [Equiv.swap_apply_of_ne_of_ne hco hck, ← hother c hco]
          cases c with
          | object q => rfl
          | background j =>
              have hjk : j ≠ k := fun hjk => hck (by rw [hjk])
              simp only [State.hold, Function.update_of_ne hjk]
        · cases hs
      · -- no engine: `::close` is called at once
        obtain ⟨hframe, hback, htable⟩ := fallbackClose_frame hs
        refine ⟨?_, hframe, htable⟩
        have heq : ∀ c, s'.hold c = (s.set o { x with sd := none }).hold c := by
          intro c
          cases c with
          | object q => simp only [State.hold, hframe]
          | background j => simp only [State.hold, hback]
        have hset : SameLedger s (s.set o { x with sd := none }) := ⟨rfl, rfl, rfl, rfl⟩
        refine h.fallbackClose hset hhold (by decide) hs (SameLedger.refl s') ?_ ?_
        · rw [heq, hself]
        · intro d hd
          rw [heq, hother d hd]

/-- Replacing an object by one that answers for the same descriptor. -/
theorem Inv.set (h : Inv s) (hx : s.hold (.object o) = x.held) : Inv (s.set o x) :=
  h.congr ⟨rfl, rfl, rfl, rfl⟩ (hold_set_of_eq hx)

/-- The background closes do not look at the objects, and the other way round. -/
theorem hold_background_update {b : Option BackgroundClose} {c : Holder}
    (hc : c ≠ .background k) :
    ({ s with background := Function.update s.background k b } : State).hold c = s.hold c := by
  cases c with
  | object q => rfl
  | background j =>
      have hjk : j ≠ k := fun hjk => hc (by rw [hjk])
      simp only [State.hold, Function.update_of_ne hjk]

theorem hold_congr (hobj : s'.object = s.object) (hback : s'.background = s.background)
    (c : Holder) : s'.hold c = s.hold c := by
  cases c with
  | object q => simp only [State.hold, hobj]
  | background j => simp only [State.hold, hback]

/-- A failing close leaves everything as it is. -/
theorem sysClose_of_ne (hr : r ≠ 0) (hs : s.sysClose fd r = some s') : s' = s := by
  rw [State.sysClose, if_neg hr] at hs
  exact (Option.some.inj hs).symm

theorem Inv.closeDone (h : Inv s) (hx : s.object o = some x) (hsd : x.sd = some fd)
    (hclosing : x.closing = some none) (hs : s.sysClose fd r = some s') :
    Inv (s'.set o { x with closing := some (some r) }) := by
  have hhold : s.hold (.object o) = some fd := by
    rw [hold_object hx]
    simp [Object.held, hclosing, hsd]
  obtain ⟨hobj, hback, -⟩ := sysClose_frame hs
  by_cases hr : r = 0
  · -- closed, but `sd_` keeps the number until `close()` is resumed
    subst hr
    refine h.sysClose (SameLedger.refl s) hhold hs ⟨rfl, rfl, rfl, rfl⟩ ?_ fun d hd => ?_
    · rw [hold_set_self]
      simp [Object.held]
    · rw [hold_set_of_ne hd]
      exact hold_congr hobj hback d
  · obtain rfl := sysClose_of_ne hr hs
    refine h.set ?_
    rw [hhold]
    simp [Object.held, hr, hsd]

theorem Inv.closeResume (h : Inv s) (hx : s.object o = some x)
    (hclosing : x.closing = some (some r)) :
    (r = 0 → Inv (s.set o { x with sd := none, closing := none })) ∧
      (r ≠ 0 → Inv (s.set o { x with lastError := -r, closing := none })) := by
  refine ⟨fun hr => h.set ?_, fun hr => h.set ?_⟩
  · rw [hold_object hx]
    simp [Object.held, hclosing, hr]
  · rw [hold_object hx]
    simp [Object.held, hclosing, hr]

theorem Inv.backgroundDone (h : Inv s) {b : BackgroundClose} (hb : s.background k = some b)
    (hresult : b.result = none) (hs : s.sysClose b.sdTmp r = some s') :
    Inv { s' with
      background := Function.update s'.background k (some { b with result := some r }) } := by
  have hhold : s.hold (.background k) = some b.sdTmp := by
    simp [State.hold, hb, BackgroundClose.held, hresult]
  obtain ⟨hobj, hback, -⟩ := sysClose_frame hs
  by_cases hr : r = 0
  · subst hr
    refine h.sysClose (SameLedger.refl s) hhold hs ⟨rfl, rfl, rfl, rfl⟩ ?_ fun d hd => ?_
    · simp [State.hold, BackgroundClose.held]
    · rw [hold_background_update hd]
      exact hold_congr hobj hback d
  · obtain rfl := sysClose_of_ne hr hs
    refine h.congr ⟨rfl, rfl, rfl, rfl⟩ fun c => ?_
    by_cases hc : c = .background k
    · rw [hc, hhold]
      simp [State.hold, BackgroundClose.held, hr]
    · exact hold_background_update hc

theorem Inv.backgroundResume (h : Inv s) {b : BackgroundClose} {result : Int}
    (hb : s.background k = some b) (hresult : b.result = some result)
    (hs : s.fallbackClose b.sdTmp result r = some s') :
    Inv { s' with background := Function.update s'.background k none } := by
  obtain ⟨hobj, hback, -⟩ := fallbackClose_frame hs
  have hself : ({ s' with background := Function.update s'.background k none } : State).hold
      (.background k) = none := by
    simp [State.hold]
  have hother : ∀ d, d ≠ .background k →
      ({ s' with background := Function.update s'.background k none } : State).hold d
        = s.hold d := by
    intro d hd
    rw [hold_background_update hd]
    exact hold_congr hobj hback d
  by_cases hzero : result = 0
  · -- the ring has closed the descriptor, and the coroutine is done
    rw [State.fallbackClose, if_pos hzero] at hs
    obtain rfl := Option.some.inj hs
    refine h.congr ⟨rfl, rfl, rfl, rfl⟩ fun c => ?_
    by_cases hc : c = .background k
    · rw [hc, hself]
      simp [State.hold, hb, BackgroundClose.held, hresult, hzero]
    · exact hother c hc
  · have hhold : s.hold (.background k) = some b.sdTmp := by
      simp [State.hold, hb, BackgroundClose.held, hresult, hzero]
    exact h.fallbackClose (SameLedger.refl s) hhold hzero hs ⟨rfl, rfl, rfl, rfl⟩ hself hother

/-- A new object, without a descriptor. -/
theorem Inv.construct (h : Inv s) (ho : s.object o = none) (hx : x.held = none) :
    Inv (s.set o x) := by
  refine h.set ?_
  rw [hx]
  simp only [State.hold, ho, Option.bind_none]

/-- A fresh descriptor goes into an object that holds none. -/
theorem Inv.handInto (h : Inv s) (hfd : s.table fd = none) (hhold : s.hold (.object o) = none)
    (hx : x.held = some fd) : Inv ((s.handIn fd).set o x) := by
  refine h.handIn hfd hhold ⟨rfl, rfl, rfl, rfl⟩ ?_ fun d hd => ?_
  · rw [hold_set_self, hx]
  · rw [hold_set_of_ne hd]
    exact hold_congr rfl rfl d

/-- The object `o` gives its descriptor to the object `p`, which holds none. -/
theorem Inv.handOver (h : Inv s) (hx : s.idle o = some x) (hp : s.hold (.object p) = none)
    (hne : p ≠ o) (hy : y.held = x.sd) : Inv ((s.set o { x with sd := none }).set p y) := by
  have hidle := (idle_eq_some.mp hx).2
  have hop : (.object o : Holder) ≠ .object p := fun heq => hne (Holder.object.inj heq).symm
  refine h.exchange ⟨rfl, rfl, rfl, rfl⟩ (Equiv.swap (.object o) (.object p)) fun c => ?_
  by_cases hcp : c = .object p
  · rw [hcp, Equiv.swap_apply_right, hold_set_self, hold_of_idle hx, hy]
  rw [hold_set_of_ne hcp]
  by_cases hco : c = .object o
  · rw [hco, Equiv.swap_apply_left, hold_set_self, hp]
    exact held_of_idle (x := { x with sd := none }) hidle
  · rw [hold_set_of_ne hco, Equiv.swap_apply_of_ne_of_ne hco hcp]

/-- What an action can do, and when. -/
inductive Effect (s : State) : Action → State → Prop
  | construct {o : Nat} {engine : Bool} (ho : s.object o = none) :
      Effect s (.construct o engine) (s.set o { Object.empty with engine := engine })
  | constructWith {o : Nat} {engine : Bool} {fd : Fd} (ho : s.object o = none)
      (hfd : s.table fd = none) :
      Effect s (.constructWith o engine fd)
        ((s.handIn fd).set o { Object.empty with engine := engine, sd := some fd })
  | moveConstruct {o p : Nat} {y : Object} (ho : s.object o = none) (hy : s.idle p = some y) :
      Effect s (.moveConstruct o p) ((s.set o Object.empty).swap o p)
  | moveAssign {o p k : Nat} {r : Int} {x y : Object} {t : State} (hx : s.idle o = some x)
      (hy : s.idle p = some y) (hne : o ≠ p) (ht : s.backgroundClose o x k r = some t) :
      Effect s (.moveAssign o p k r) (t.swap o p)
  | selfAssign {o k : Nat} {r : Int} {x : Object} (hx : s.idle o = some x) :
      Effect s (.moveAssign o o k r) s
  | swap {o p : Nat} {x y : Object} (hx : s.idle o = some x) (hy : s.idle p = some y) :
      Effect s (.swap o p) (s.swap o p)
  | registerEngine {o : Nat} {x : Object} (hx : s.idle o = some x) :
      Effect s (.registerEngine o) (s.set o { x with engine := true })
  | setDescriptor {o k : Nat} {fd : Fd} {r : Int} {x : Object} {t : State}
      (hfd : s.table fd = none) (hx : s.idle o = some x)
      (ht : s.backgroundClose o x k r = some t) :
      Effect s (.setDescriptor o fd k r) ((t.handIn fd).set o { x with sd := some fd })
  | closeNothing {o : Nat} {x : Object} (hx : s.idle o = some x) (hsd : x.sd = none) :
      Effect s (.close o) s
  | close {o : Nat} {x : Object} {fd : Fd} (hx : s.idle o = some x) (hsd : x.sd = some fd)
      (hengine : x.engine = true) : Effect s (.close o) (s.set o { x with closing := some none })
  | closeDone {o : Nat} {r : Int} {x : Object} {fd : Fd} {t : State} (hx : s.object o = some x)
      (hsd : x.sd = some fd) (hclosing : x.closing = some none) (ht : s.sysClose fd r = some t) :
      Effect s (.closeDone o r) (t.set o { x with closing := some (some r) })
  | closeOk {o : Nat} {x : Object} (hx : s.object o = some x)
      (hclosing : x.closing = some (some 0)) :
      Effect s (.closeResume o) (s.set o { x with sd := none, closing := none })
  | closeFails {o : Nat} {r : Int} {x : Object} (hx : s.object o = some x)
      (hclosing : x.closing = some (some r)) (hr : r ≠ 0) :
      Effect s (.closeResume o) (s.set o { x with lastError := -r, closing := none })
  | destroy {o k : Nat} {r : Int} {x : Object} {t : State} (hx : s.idle o = some x)
      (ht : s.backgroundClose o x k r = some t) :
      Effect s (.destroy o k r) { t with object := Function.update t.object o none }
  | backgroundDone {k : Nat} {r : Int} {b : BackgroundClose} {t : State}
      (hb : s.background k = some b) (hresult : b.result = none)
      (ht : s.sysClose b.sdTmp r = some t) :
      Effect s (.backgroundDone k r)
        { t with background := Function.update t.background k (some { b with result := some r }) }
  | backgroundResume {k : Nat} {r result : Int} {b : BackgroundClose} {t : State}
      (hb : s.background k = some b) (hresult : b.result = some result)
      (ht : s.fallbackClose b.sdTmp result r = some t) :
      Effect s (.backgroundResume k r)
        { t with background := Function.update t.background k none }

theorem effect_of_step {a : Action} (hs : NetworkOperation.step s a = some s') :
    Effect s a s' := by
  cases a with
  | construct o engine =>
      obtain ⟨ho, hs⟩ := Option.ite_none_right_eq_some.mp hs
      obtain rfl := Option.some.inj hs
      exact .construct ho
  | constructWith o engine fd =>
      obtain ⟨⟨ho, hfd⟩, hs⟩ := Option.ite_none_right_eq_some.mp hs
      obtain rfl := Option.some.inj hs
      exact .constructWith ho hfd
  | moveConstruct o p =>
      obtain ⟨ho, hs⟩ := Option.ite_none_right_eq_some.mp hs
      obtain ⟨y, hy, rfl⟩ := Option.map_eq_some_iff.mp hs
      exact .moveConstruct ho hy
  | moveAssign o p k r =>
      obtain ⟨x, hx, hs⟩ := Option.bind_eq_some_iff.mp hs
      obtain ⟨y, hy, hs⟩ := Option.bind_eq_some_iff.mp hs
      split at hs
      · rename_i hne
        obtain ⟨t, ht, rfl⟩ := Option.map_eq_some_iff.mp hs
        exact .moveAssign hx hy hne ht
      · rename_i heq
        obtain rfl := Option.some.inj hs
        obtain rfl := not_not.mp heq
        exact .selfAssign hx
  | swap o p =>
      obtain ⟨x, hx, hs⟩ := Option.bind_eq_some_iff.mp hs
      obtain ⟨y, hy, rfl⟩ := Option.map_eq_some_iff.mp hs
      exact .swap hx hy
  | registerEngine o =>
      obtain ⟨x, hx, rfl⟩ := Option.map_eq_some_iff.mp hs
      exact .registerEngine hx
  | setDescriptor o fd k r =>
      obtain ⟨hfd, hs⟩ := Option.ite_none_right_eq_some.mp hs
      obtain ⟨x, hx, hs⟩ := Option.bind_eq_some_iff.mp hs
      obtain ⟨t, ht, rfl⟩ := Option.map_eq_some_iff.mp hs
      exact .setDescriptor hfd hx ht
  | close o =>
      obtain ⟨x, hx, hs⟩ := Option.bind_eq_some_iff.mp hs
      split at hs
      · rename_i hsd
        obtain rfl := Option.some.inj hs
        exact .closeNothing hx hsd
      · rename_i fd hsd
        obtain ⟨hengine, hs⟩ := Option.ite_none_right_eq_some.mp hs
        obtain rfl := Option.some.inj hs
        exact .close hx hsd hengine
  | closeDone o r =>
      obtain ⟨x, hx, hs⟩ := Option.bind_eq_some_iff.mp hs
      split at hs
      · rename_i fd hsd hclosing
        obtain ⟨t, ht, rfl⟩ := Option.map_eq_some_iff.mp hs
        exact .closeDone hx hsd hclosing ht
      · cases hs
  | closeResume o =>
      obtain ⟨x, hx, hs⟩ := Option.bind_eq_some_iff.mp hs
      split at hs
      · rename_i r hclosing
        split at hs
        · rename_i hr
          obtain rfl := Option.some.inj hs
          exact .closeOk hx (hr ▸ hclosing)
        · rename_i hr
          obtain rfl := Option.some.inj hs
          exact .closeFails hx hclosing hr
      · cases hs
  | destroy o k r =>
      obtain ⟨x, hx, hs⟩ := Option.bind_eq_some_iff.mp hs
      obtain ⟨t, ht, rfl⟩ := Option.map_eq_some_iff.mp hs
      exact .destroy hx ht
  | backgroundDone k r =>
      obtain ⟨b, hb, hs⟩ := Option.bind_eq_some_iff.mp hs
      split at hs
      · rename_i hresult
        obtain ⟨t, ht, rfl⟩ := Option.map_eq_some_iff.mp hs
        exact .backgroundDone hb hresult ht
      · cases hs
  | backgroundResume k r =>
      obtain ⟨b, hb, hs⟩ := Option.bind_eq_some_iff.mp hs
      split at hs
      · rename_i result hresult
        obtain ⟨t, ht, rfl⟩ := Option.map_eq_some_iff.mp hs
        exact .backgroundResume hb hresult ht
      · cases hs

theorem Inv.step {a : Action} (h : Inv s) (hs : step s a = some s') : Inv s' := by
  cases effect_of_step hs with
  | construct ho => exact h.construct ho rfl
  | constructWith ho hfd =>
      refine h.handInto hfd ?_ rfl
      simp only [State.hold, ho, Option.bind_none]
  | moveConstruct ho hy => exact (h.construct ho rfl).swap ..
  -- the own descriptor goes to a background close, the other one moves in
  | moveAssign hx hy hne ht => exact (h.backgroundClose hx ht).1.swap ..
  | selfAssign hx => exact h
  | swap hx hy => exact h.swap ..
  | registerEngine hx =>
      rename_i x
      refine h.set ?_
      rw [hold_of_idle hx]
      exact (held_of_idle (x := { x with engine := true }) (idle_eq_some.mp hx).2).symm
  | setDescriptor hfd hx ht =>
      rename_i fd r x t
      obtain ⟨hinv, hobj, htable⟩ := h.backgroundClose hx ht
      have hidle := (idle_eq_some.mp hx).2
      refine hinv.handInto (htable _ hfd) ?_ (held_of_idle (x := { x with sd := some _ }) hidle)
      rw [hold_object (by rw [hobj]; exact Function.update_self ..)]
      exact held_of_idle (x := { x with sd := none }) hidle
  | closeNothing hx hsd => exact h
  | close hx hsd hengine =>
      refine h.set ?_
      rw [hold_of_idle hx]
      rfl
  | closeDone hx hsd hclosing ht => exact h.closeDone hx hsd hclosing ht
  | closeOk hx hclosing => exact (h.closeResume hx hclosing).1 rfl
  | closeFails hx hclosing hr => exact (h.closeResume hx hclosing).2 hr
  | destroy hx ht =>
      rename_i o k r x t
      obtain ⟨hinv, hobj, -⟩ := h.backgroundClose hx ht
      -- the object that goes away holds nothing
      refine hinv.congr ⟨rfl, rfl, rfl, rfl⟩ fun c => ?_
      cases c with
      | object q =>
          by_cases hq : q = o
          · rw [hq, hold_object (show t.object o = some { x with sd := none } by
              rw [hobj]; exact Function.update_self ..)]
            rw [held_of_idle (x := { x with sd := none }) (idle_eq_some.mp hx).2]
            simp [State.hold]
          · simp only [State.hold, Function.update_of_ne hq]
      | background j => rfl
  | backgroundDone hb hresult ht => exact h.backgroundDone hb hresult ht
  | backgroundResume hb hresult ht => exact h.backgroundResume hb hresult ht

theorem inv_init : Inv init := by
  refine ⟨?_, fun x hx => by cases hx⟩
  have hhold : init.hold = fun _ => none := by
    funext c
    cases c <;> rfl
  rw [hhold]
  exact Custody.init Holder Fd

theorem Reachable.inv (h : Reachable s) : Inv s := by
  refine Reaches.invariant h ?_ ?_
  · rintro s rfl
    exact inv_init
  · rintro s a s' - ih - hs
    exact ih.step hs

/-! ### What a step leaves alone -/

/-- The objects that an action works on. -/
def Action.objects : Action → List Nat
  | .construct o _ | .constructWith o _ _ | .registerEngine o | .setDescriptor o _ _ _ | .close o
  | .closeDone o _ | .closeResume o | .destroy o _ _ => [o]
  | .moveConstruct o p | .moveAssign o p _ _ | .swap o p => [o, p]
  | .backgroundDone _ _ | .backgroundResume _ _ => []

/-- The `background_close` that goes on. -/
def Action.background? : Action → Option Nat
  | .backgroundDone k _ | .backgroundResume k _ => some k
  | _ => none

/-- Sockets are closed and lost, and no open descriptor comes to stand for another one. -/
structure Grows (s s' : State) : Prop where
  table : ∀ fd i, s.table fd = some i → s'.table fd = some i ∨ s'.table fd = none
  closed : s.closed ⊆ s'.closed
  lost : s.lost ⊆ s'.lost

theorem Grows.refl (s : State) : Grows s s :=
  ⟨fun _ _ hi => Or.inl hi, List.Subset.refl _, List.Subset.refl _⟩

theorem Grows.congr {t : State} (h : Grows s s') (ht : t.table = s'.table)
    (hclosed : t.closed = s'.closed) (hlost : t.lost = s'.lost) : Grows s t :=
  ⟨by rw [ht]; exact h.table, by rw [hclosed]; exact h.closed, by rw [hlost]; exact h.lost⟩

theorem Grows.handIn (h : Grows s s') (hfd : s.table fd = none) : Grows s (s'.handIn fd) := by
  refine ⟨fun fd' i hi => ?_, h.closed, h.lost⟩
  have hne : fd' ≠ fd := by
    rintro rfl
    rw [hfd] at hi
    cases hi
  rw [show (s'.handIn fd).table fd' = s'.table fd' from Function.update_of_ne hne ..]
  exact h.table fd' i hi

theorem sysClose_grows (hs : s.sysClose fd r = some s') : Grows s s' := by
  unfold State.sysClose at hs
  split at hs
  · obtain ⟨i, -, rfl⟩ := Option.map_eq_some_iff.mp hs
    refine ⟨fun fd' j hj => ?_, by simp, List.Subset.refl _⟩
    by_cases hne : fd' = fd
    · exact Or.inr (by rw [hne]; exact Function.update_self ..)
    · exact Or.inl ((Function.update_of_ne hne ..).trans hj)
  · obtain rfl := Option.some.inj hs
    exact Grows.refl s

theorem fallbackClose_grows {result : Int} (hs : s.fallbackClose fd result r = some s') :
    Grows s s' := by
  unfold State.fallbackClose at hs
  split at hs
  · obtain rfl := Option.some.inj hs
    exact Grows.refl s
  split at hs
  · exact sysClose_grows hs
  · obtain rfl := Option.some.inj hs
    exact ⟨fun _ _ hi => Or.inl hi, List.Subset.refl _, by simp⟩

/-- What a step leaves alone. -/
structure Apart (a : Action) (s s' : State) : Prop where
  grows : Grows s s'
  object : ∀ q, q ∉ a.objects → s'.object q = s.object q
  background : ∀ j b, a.background? ≠ some j → s.background j = some b → s'.background j = some b

theorem Apart.set {a : Action} (h : Apart a s s') (ho : o ∈ a.objects) : Apart a s (s'.set o x) := by
  refine ⟨h.grows.congr rfl rfl rfl, fun q hq => ?_, h.background⟩
  have hne : q ≠ o := fun heq => hq (heq ▸ ho)
  exact (Function.update_of_ne hne ..).trans (h.object q hq)

theorem Apart.swap {a : Action} (h : Apart a s s') (ho : o ∈ a.objects) (hp : p ∈ a.objects) :
    Apart a s (s'.swap o p) := by
  refine ⟨h.grows.congr rfl rfl rfl, fun q hq => ?_, h.background⟩
  have hqo : q ≠ o := fun heq => hq (heq ▸ ho)
  have hqp : q ≠ p := fun heq => hq (heq ▸ hp)
  show s'.object (Equiv.swap o p q) = s.object q
  rw [Equiv.swap_apply_of_ne_of_ne hqo hqp]
  exact h.object q hq

theorem Apart.refl (a : Action) (s : State) : Apart a s s :=
  ⟨Grows.refl s, fun _ _ => rfl, fun _ _ _ hb => hb⟩

theorem Apart.handIn {a : Action} (h : Apart a s s') (hfd : s.table fd = none) :
    Apart a s (s'.handIn fd) :=
  ⟨h.grows.handIn hfd, h.object, h.background⟩

theorem Apart.sysClose {a : Action} (hs : s.sysClose fd r = some s') : Apart a s s' := by
  obtain ⟨hobj, hback, -⟩ := sysClose_frame hs
  exact ⟨sysClose_grows hs, fun q _ => by rw [hobj], fun j b _ hb => by rw [hback]; exact hb⟩

theorem Apart.fallbackClose {a : Action} {result : Int}
    (hs : s.fallbackClose fd result r = some s') : Apart a s s' := by
  obtain ⟨hobj, hback, -⟩ := fallbackClose_frame hs
  exact ⟨fallbackClose_grows hs, fun q _ => by rw [hobj], fun j b _ hb => by rw [hback]; exact hb⟩

theorem Apart.backgroundClose {a : Action} (hs : s.backgroundClose o x k r = some s')
    (ho : o ∈ a.objects) : Apart a s s' := by
  unfold State.backgroundClose at hs
  split at hs
  · obtain rfl := Option.some.inj hs
    exact Apart.refl a s
  have hset := (Apart.refl a s).set (x := { x with sd := none }) ho
  dsimp only at hs
  split at hs
  · split at hs
    · rename_i hk
      obtain rfl := Option.some.inj hs
      refine ⟨hset.grows.congr rfl rfl rfl, hset.object, fun j b hj hb => ?_⟩
      have hne : j ≠ k := by
        rintro rfl
        rw [show s.background j = none from hk] at hb
        cases hb
      exact (Function.update_of_ne hne ..).trans hb
    · cases hs
  · obtain ⟨hgrows, hobject, hbackground⟩ := Apart.fallbackClose (a := a) hs
    exact ⟨⟨hgrows.table, hgrows.closed, hgrows.lost⟩,
      fun q hq => (hobject q hq).trans (hset.object q hq), hbackground⟩

/-- A background close is changed or ends. -/
theorem Apart.update {a : Action} (h : Apart a s s') (hk : a.background? = some k)
    (b : Option BackgroundClose) :
    Apart a s { s' with background := Function.update s'.background k b } := by
  refine ⟨h.grows.congr rfl rfl rfl, h.object, fun j b' hj hb => ?_⟩
  have hne : j ≠ k := fun heq => hj (heq ▸ hk)
  exact (Function.update_of_ne hne ..).trans (h.background j b' hj hb)

/-- **A network operation that an action does not work on stays as it is.** -/
theorem apart_of_step {a : Action} (hs : NetworkOperation.step s a = some s') : Apart a s s' := by
  have hrefl := Apart.refl a s
  cases effect_of_step hs with
  | construct ho => exact hrefl.set List.mem_cons_self
  | constructWith ho hfd => exact (hrefl.handIn hfd).set List.mem_cons_self
  | moveConstruct ho hy =>
      exact (hrefl.set List.mem_cons_self).swap List.mem_cons_self (by simp [Action.objects])
  | moveAssign hx hy hne ht =>
      exact (Apart.backgroundClose ht List.mem_cons_self).swap List.mem_cons_self
        (by simp [Action.objects])
  | selfAssign hx => exact hrefl
  | swap hx hy => exact hrefl.swap List.mem_cons_self (by simp [Action.objects])
  | registerEngine hx => exact hrefl.set List.mem_cons_self
  | setDescriptor hfd hx ht =>
      exact ((Apart.backgroundClose ht List.mem_cons_self).handIn hfd).set List.mem_cons_self
  | closeNothing hx hsd => exact hrefl
  | close hx hsd hengine => exact hrefl.set List.mem_cons_self
  | closeDone hx hsd hclosing ht => exact (Apart.sysClose ht).set List.mem_cons_self
  | closeOk hx hclosing => exact hrefl.set List.mem_cons_self
  | closeFails hx hclosing hr => exact hrefl.set List.mem_cons_self
  | destroy hx ht =>
      rename_i o k r x t
      have hclose := Apart.backgroundClose (a := .destroy o k r) ht List.mem_cons_self
      refine ⟨hclose.grows.congr rfl rfl rfl, fun q hq => ?_, hclose.background⟩
      have hne : q ≠ o := fun heq => hq (heq ▸ List.mem_cons_self)
      exact (Function.update_of_ne hne ..).trans (hclose.object q hq)
  | backgroundDone hb hresult ht => exact (Apart.sysClose ht).update rfl _
  | backgroundResume hb hresult ht => exact (Apart.fallbackClose ht).update rfl _

/-- A descriptor that is held before and after a step stands for the same socket. -/
theorem Grows.table_eq {c c' : Holder} (h : Grows s s') (hi : Inv s) (hi' : Inv s')
    (hc : s.hold c = some fd) (hc' : s'.hold c' = some fd) : s'.table fd = s.table fd := by
  obtain ⟨i, hfd⟩ := Option.ne_none_iff_exists'.mp (hi.custody.live c fd hc)
  rw [hfd]
  exact (h.table fd i hfd).resolve_right (hi'.custody.live c' fd hc')

/-- The socket `i` is closed, lost, or about to be closed by the background close `k`. -/
def State.Closes (s : State) (k i : Nat) : Prop :=
  i ∈ s.closed ∨ (∃ result r, (i, result, r) ∈ s.lost) ∨
    ∃ b fd, s.background k = some b ∧ b.held = some fd ∧ s.table fd = some i

theorem closes_done {b : BackgroundClose} {i : Nat} (hb : s.background k = some b)
    (hfd : s.table b.sdTmp = some i) (hs : step s (.backgroundDone k r) = some s') :
    s'.Closes k i := by
  cases effect_of_step hs with
  | backgroundDone hb' hresult ht =>
      obtain rfl := Option.some.inj (hb.symm.trans hb')
      by_cases hr : r = 0
      · simp only [State.sysClose, if_pos hr, hfd, Option.map_some] at ht
        obtain rfl := Option.some.inj ht
        exact Or.inl (by simp)
      · obtain rfl := sysClose_of_ne hr ht
        refine Or.inr (Or.inr ⟨_, b.sdTmp, Function.update_self .., ?_, hfd⟩)
        simp [BackgroundClose.held, hr]

theorem closes_resume {b : BackgroundClose} {i : Nat} (hb : s.background k = some b)
    (hheld : b.held = some fd) (hfd : s.table fd = some i)
    (hs : step s (.backgroundResume k r) = some s') : s'.Closes k i := by
  cases effect_of_step hs with
  | backgroundResume hb' hresult ht =>
      rename_i result b' t
      obtain rfl := Option.some.inj (hb.symm.trans hb')
      unfold BackgroundClose.held at hheld
      rw [hresult] at hheld
      split at hheld
      · cases hheld
      rename_i hne
      obtain rfl := Option.some.inj hheld
      have hfailed : result ≠ 0 := fun heq => hne (by rw [heq])
      simp only [State.fallbackClose, if_neg hfailed] at ht
      split at ht
      · rename_i hr
        simp only [State.sysClose, if_pos hr, hfd, Option.map_some] at ht
        obtain rfl := Option.some.inj ht
        exact Or.inl (by simp)
      · obtain rfl := Option.some.inj ht
        exact Or.inr (Or.inl ⟨result, r, by simp [hfd]⟩)

theorem destroy_object (hs : step s (.destroy o k r) = some s') : s'.object o = none := by
  cases effect_of_step hs with
  | destroy hx ht => exact Function.update_self ..

/-- `set_descriptor` of an object that has none closes nothing. -/
theorem setDescriptor_eq (hx : s.idle o = some x) (hsd : x.sd = none)
    (hs : step s (.setDescriptor o fd k r) = some s') :
    s.table fd = none ∧ s' = (s.handIn fd).set o { x with sd := some fd } := by
  cases effect_of_step hs with
  | setDescriptor hfd hx' ht =>
      obtain rfl := Option.some.inj (hx.symm.trans hx')
      rw [backgroundClose_none hsd] at ht
      obtain rfl := Option.some.inj ht
      exact ⟨hfd, rfl⟩

/-- The destructor of an object without a descriptor closes nothing. -/
theorem destroy_eq (hx : s.idle o = some x) (hsd : x.sd = none)
    (hs : step s (.destroy o k r) = some s') :
    s' = { s with object := Function.update s.object o none } := by
  cases effect_of_step hs with
  | destroy hx' ht =>
      obtain rfl := Option.some.inj (hx.symm.trans hx')
      rw [backgroundClose_none hsd] at ht
      obtain rfl := Option.some.inj ht
      rfl

/-- The destructor leaves the socket to a background close. -/
theorem destroy_closes {i : Nat} (hx : s.idle o = some x) (hengine : x.engine = true)
    (hsd : x.sd = some fd) (hfd : s.table fd = some i)
    (hs : step s (.destroy o k r) = some s') : s'.Closes k i := by
  cases effect_of_step hs with
  | destroy hx' ht =>
      obtain rfl := Option.some.inj (hx.symm.trans hx')
      simp only [State.backgroundClose, hsd, hengine, if_true] at ht
      split at ht
      · obtain rfl := Option.some.inj ht
        exact Or.inr (Or.inr ⟨⟨fd, none⟩, fd, Function.update_self .., rfl, hfd⟩)
      · cases ht

/-- **A background close does not let go of its socket** before it is closed or lost. -/
theorem State.Closes.step {a : Action} {i : Nat} (h : s.Closes k i) (hi : Inv s)
    (hs : step s a = some s') : s'.Closes k i := by
  have happart := apart_of_step hs
  rcases h with hclosed | ⟨result, r, hlost⟩ | ⟨b, fd, hb, hheld, hfd⟩
  · exact Or.inl (happart.grows.closed hclosed)
  · exact Or.inr (Or.inl ⟨result, r, happart.grows.lost hlost⟩)
  by_cases hk : a.background? = some k
  · have hsd : b.sdTmp = fd := by
      unfold BackgroundClose.held at hheld
      split at hheld
      · cases hheld
      · exact Option.some.inj hheld
    cases a with
    | backgroundDone j r =>
        obtain rfl := Option.some.inj hk
        exact closes_done hb (hsd ▸ hfd) hs
    | backgroundResume j r =>
        obtain rfl := Option.some.inj hk
        exact closes_resume hb hheld hfd hs
    | _ => cases hk
  · have hb' := happart.background k b hk hb
    refine Or.inr (Or.inr ⟨b, fd, hb', hheld, ?_⟩)
    rw [← hfd]
    have hhold : s.hold (.background k) = some fd := by
      simp only [State.hold, hb, Option.bind_some, hheld]
    have hhold' : s'.hold (.background k) = some fd := by
      simp only [State.hold, hb', Option.bind_some, hheld]
    exact happart.grows.table_eq hi (hi.step hs) hhold hhold'

/-- **A socket descriptor has one owner and is closed once.** -/
theorem networkOperation_oneOwner (h : Reachable s) : OneOwner s := by
  have hi := h.inv
  refine ⟨hi.custody.inj, hi.custody.live, hi.custody.once, fun hobj hback i hlt => ?_⟩
  have hnone : ∀ c, s.hold c = none := by
    intro c
    cases c with
    | object o => simp only [State.hold, hobj o, Option.bind_none]
    | background k => simp only [State.hold, hback k, Option.bind_none]
  refine (hi.custody.settled hnone hlt).imp_right fun hlost => ?_
  obtain ⟨⟨j, result, r⟩, hmem, rfl⟩ := List.mem_map.mp hlost
  exact ⟨result, r, hmem, hi.failed _ hmem⟩

/-- Two sockets change hands: descriptor 3 is closed by the ring and handed in again while the
coroutine that closed it has not been resumed; the second socket behind it is lost, because the
ring and `::close` both fail. -/
def closedAndReused : List Action :=
  [.constructWith 1 true 3, .construct 2 false, .moveAssign 2 1 0 0, .destroy 2 0 0,
    .backgroundDone 0 0, .setDescriptor 1 3 1 0, .backgroundResume 0 (-9), .registerEngine 1,
    .close 1, .closeDone 1 (-5), .closeResume 1, .destroy 1 1 0, .backgroundDone 1 (-5),
    .backgroundResume 1 (-5)]

theorem networkOperation_oneOwner_closedAndReused :
    ∃ s, run step anyStep init closedAndReused = some s ∧ s.handed = 2 ∧ s.closed = [0] ∧
      s.lost = [(1, -5, -5)] ∧ OneOwner s := by
  obtain ⟨s, hs, h1, h2, h3⟩ : ∃ s, run step anyStep init closedAndReused = some s ∧
      s.handed = 2 ∧ s.closed = [0] ∧ s.lost = [(1, -5, -5)] := ⟨_, rfl, rfl, rfl, rfl⟩
  exact ⟨s, hs, h1, h2, h3, networkOperation_oneOwner (Reaches.run (Reaches.start rfl) hs)⟩

end

end Zab.NetworkOperation
