import Zab.Basic.WaitQueue
import Zab.Sync.CountingSemaphore
import Mathlib.Tactic

set_option autoImplicit false

/-! # The counting semaphore's lists, counters and server

As in the binary semaphore, the waiting coroutines are spread over three lists whose
concatenation, in one fixed order, is the queue. What is new is the accounting. `cnt` lists the
coroutines that have counted themselves down and not been resumed; `active_count` is
`start + added - taken - resumed - cnt.length`, and the permits taken or handed over, plus the
one the server owes, never exceed `start + added`. `srv` says who has to serve the permits in
`release_count`: nobody, a `release` about to call `control`, or a running `control`.

The fields `bound` and `debt` need a semaphore that was constructed with `start ≥ 0`. The field
`balance` is stated under a proposition `P`: it is preserved only by steps in which the
`fetch_sub` of `await_suspend` finds no permit. Runs that promise this take `P := True`, and runs
that do not take `P := False`.
-/

namespace Zab.CountingSemaphore

open Automaton

/-! ## Views of the program counters -/

/-- What a coroutine at this place has to do with the queue. -/
def Pc.status : Pc → Waiting
  | .awaitLoad w | .awaitLoop w _ | .awaitSub w => .holding w
  | .suspendLoad w | .suspendLoop w _ => .named w
  | .suspended w => .asleep w
  | _ => .out

/-- The coroutine has counted itself down and has not been resumed. -/
def Pc.counted : Pc → Bool
  | .suspendLoad _ | .suspendLoop _ _ | .suspended _ => true
  | _ => false

/-- A `release` about to call `control`. -/
def Pc.starting : Pc → Bool
  | .startControl _ => true
  | _ => false

def ControlPc.active : ControlPc → Bool
  | .unborn | .done => false
  | _ => true

/-- The permit added last is meant for a waiter that has not been resumed yet. -/
def ControlPc.owes : ControlPc → Nat
  | .transfer inner | .exchange inner | .reverse inner _ _ | .take inner _ => inner.toNat
  | .yieldInner | .resume _ => 1
  | _ => 0

theorem Pc.eq_of_asleep {q : Pc} {w : Addr} (h : q.status = .asleep w) :
    q = .suspended w := by
  cases q <;> simp_all [Pc.status]

/-- The link stored in the `waiter` at `w`. -/
def State.next (s : State) (w : Addr) : Nat := (s.mem w.val).nextWaiting

def State.handle (s : State) (w : Addr) : Option Coro := (s.mem w.val).handle

/-! ## The invariant -/

/-- Who has to serve the permits in `release_count`. -/
inductive Server where
  | nobody
  /-- The `release` of `c`, which is about to call `control`. -/
  | starter (c : Coro)
  | running (k : Nat)
  deriving DecidableEq

/-- Where the serving `control` is. -/
def State.serving (s : State) : Server → ControlPc
  | .running k => (s.control k).pc
  | _ => .done

/-- What the place of the serving `control` says about its lists. -/
def Local (next : Addr → Nat) (lc tr : List Addr) : ControlPc → Prop
  | .exchange _ => lc = [] ∧ tr = []
  | .reverse _ head nxt => tr = [] ∧ Chain.Reversing Addr.val next 0 0 head nxt lc
  | .take _ head => tr = [] ∧ lc ≠ [] ∧ Chain Addr.val next 0 head lc
  | .addSome head | .resume head => ∃ w, head = Addr.val w ∧ lc = [w]
  | _ => lc = []

/-- The invariant, for the local list `lc` of the serving `control`, the list `tr` at
`transfer`, the chain `ch` at `resuming`, the coroutines `cnt` that have counted themselves
down and wait, and the server `srv`. -/
structure Inv (start : Int) (P : Prop) (s : State) (lc tr ch : List Addr) (cnt : List Coro)
    (srv : Server) : Prop where
  queue : WaitQueue (fun c => (s.pc c).status) s.live s.handle (lc ++ tr ++ ch.reverse)
    s.pushed (s.resumed.map Prod.fst)
  root : Chain Addr.val s.next 0 s.resuming ch
  trans : Chain Addr.val s.next 0 s.transfer tr
  loc : Local s.next lc tr (s.serving srv)
  counted : ∀ c, c ∈ cnt ↔ (s.pc c).counted = true
  nodup : cnt.Nodup
  active : s.activeCount = start + s.added - s.taken - s.resumed.length - cnt.length
  bound : 0 ≤ start →
    (s.taken + s.resumed.length + (s.serving srv).owes : Int) ≤ start + s.added
  debt : 0 ≤ start → (s.serving srv).owes ≤ cnt.length
  balance : P → (cnt.length : Int) = max 0 (-s.activeCount) + (s.serving srv).owes
  starter : ∀ c, (s.pc c).starting = true ↔ srv = .starter c
  running : ∀ k, (s.control k).pc.active = true ↔ srv = .running k
  fresh : ∀ k, s.controls ≤ k → (s.control k).pc = .unborn
  release : 0 ≤ s.releaseCount ∧ (0 < s.releaseCount ↔ srv ≠ .nobody)
  args : ∀ c n t, s.pc c = .release n t → 1 ≤ n

section

variable {start : Int} {P : Prop} {s : State} {lc tr ch : List Addr} {cnt : List Coro}
  {srv : Server}

@[simp] theorem goto_pc (s : State) (c d : Coro) (q : Pc) :
    (s.goto c q).pc d = if d = c then q else s.pc d := Function.update_apply ..

@[simp] theorem gotoControl_control (s : State) (k l : Nat) (q : ControlPc) :
    (s.gotoControl k q).control l = if l = k then { s.control k with pc := q } else s.control l :=
  Function.update_apply ..

theorem Local.congr {next next' : Addr → Nat} {q : ControlPc} (h : Local next lc tr q)
    (heq : ∀ w ∈ lc, next' w = next w) : Local next' lc tr q := by
  cases q with
  | reverse inner head nxt => exact ⟨h.1, h.2.congr heq⟩
  | take inner head => exact ⟨h.1, h.2.1, h.2.2.congr heq⟩
  | _ => exact h

/-- What a write does to the links, -/
theorem write_next (s : State) (w : Addr) (n : Waiter) :
    (s.write w.val n).next = Function.update s.next w n.nextWaiting := Addr.update_field ..

/-- and to the names. -/
theorem write_handle (s : State) (w : Addr) (n : Waiter) :
    (s.write w.val n).handle = Function.update s.handle w n.handle := Addr.update_field ..

theorem next_write {w v : Addr} {n : Waiter} (h : v ≠ w) : (s.write w.val n).next v = s.next v := by
  rw [write_next, Function.update_of_ne h]

theorem handle_write {w v : Addr} {n : Waiter} (h : v ≠ w) :
    (s.write w.val n).handle v = s.handle v := by
  rw [write_handle, Function.update_of_ne h]

theorem handle_write_self {w : Addr} {n : Waiter} : (s.write w.val n).handle w = n.handle := by
  rw [write_handle, Function.update_self]

theorem next_link (s : State) (w : Addr) (head : Nat) :
    (fun v : Addr =>
        ((s.write w.val { s.mem w.val with nextWaiting := head }).mem v.val).nextWaiting)
      = Function.update s.next w head := write_next ..

/-- A write to a link keeps the names. -/
theorem handle_link (s : State) (w : Addr) (head : Nat) :
    (s.write w.val { s.mem w.val with nextWaiting := head }).handle = s.handle := by
  rw [write_handle]
  exact Function.update_eq_self w s.handle

/-! ### Steps of the coroutines -/

/-- Calls of `release` ask for at least one permit. -/
theorem Inv.args_goto (h : Inv start P s lc tr ch cnt srv) {c : Coro} {q : Pc}
    (harg : ∀ n t, q = .release n t → 1 ≤ n) (d : Coro) (n : Int) (t : ThreadT) :
    (s.goto c q).pc d = .release n t → 1 ≤ n :=
  (Function.forall_update_iff s.pc fun _ q => ∀ n t, q = .release n t → 1 ≤ n).mpr
    ⟨harg, fun d _ => h.args d⟩ d n t

/-- A step of `c` that changes neither counters nor lists, given what it does to the queue. -/
theorem Inv.goto (h : Inv start P s lc tr ch cnt srv) {c : Coro} {q : Pc} {live : Nat → Bool}
    (hq : WaitQueue (fun d => ((s.goto c q).pc d).status) live s.handle (lc ++ tr ++ ch.reverse)
      s.pushed (s.resumed.map Prod.fst))
    (hcnt : q.counted = (s.pc c).counted) (hst : q.starting = (s.pc c).starting)
    (harg : ∀ n t, q = .release n t → 1 ≤ n) :
    Inv start P { s.goto c q with live := live } lc tr ch cnt srv := by
  have hcnt' : ∀ d, ((s.goto c q).pc d).counted = (s.pc d).counted := update_unseen _ hcnt
  have hst' : ∀ d, ((s.goto c q).pc d).starting = (s.pc d).starting := update_unseen _ hst
  refine { h with queue := hq, counted := ?_, starter := ?_, args := h.args_goto harg }
  · simp only [hcnt']
    exact h.counted
  · simp only [hst']
    exact h.starter

/-- A step of `c` that leaves the queue alone, too. -/
theorem Inv.goto_same (h : Inv start P s lc tr ch cnt srv) {c : Coro} {p q : Pc} (hc : s.pc c = p)
    (hq : q.status = p.status) (hcnt : q.counted = p.counted) (hst : q.starting = p.starting)
    (harg : ∀ n t, q = .release n t → 1 ≤ n) : Inv start P (s.goto c q) lc tr ch cnt srv := by
  subst hc
  exact h.goto (h.queue.congr (update_unseen Pc.status hq)) hcnt hst harg

/-- Writing to a `waiter` that nobody sleeps on, given what it does to the names. -/
theorem Inv.write (h : Inv start P s lc tr ch cnt srv) {w : Addr} {n : Waiter}
    (hw : ∀ c, s.pc c ≠ .suspended w)
    (hq : WaitQueue (fun c => (s.pc c).status) s.live (s.write w.val n).handle
      (lc ++ tr ++ ch.reverse) s.pushed (s.resumed.map Prod.fst)) :
    Inv start P (s.write w.val n) lc tr ch cnt srv := by
  have hne : ∀ v ∈ lc ++ tr ++ ch.reverse, v ≠ w := by
    rintro v hv rfl
    obtain ⟨c, hc⟩ := (h.queue.mem v).mp hv
    exact hw c (Pc.eq_of_asleep hc)
  refine { h with queue := hq, root := ?_, trans := ?_, loc := ?_ }
  · exact h.root.congr fun v hv => next_write (hne v (by simp [hv]))
  · exact h.trans.congr fun v hv => next_write (hne v (by simp [hv]))
  · exact h.loc.congr fun v hv => next_write (hne v (by simp [hv]))

/-- A `co_await` starts with a `waiter` at a free address. -/
theorem Inv.coAwait (h : Inv start P s lc tr ch cnt srv) {c : Coro} {w : Addr} (t : ThreadT)
    (hc : s.pc c = .idle) (hw : s.live w.val = false) :
    Inv start P { (s.write w.val ⟨t, 0, none⟩).goto c (.awaitLoad w) with
      live := Function.update s.live w.val true } lc tr ch cnt srv := by
  have hfree := h.queue.slots.free hw
  have h0 : Inv start P (s.write w.val ⟨t, 0, none⟩) lc tr ch cnt srv := by
    refine h.write (fun d hd => hfree d (by simp [hd, Pc.status])) (h.queue.write fun d v hv => ?_)
    refine handle_write ?_
    rintro rfl
    exact hfree d (Waiting.node_of_nameNode hv)
  have hc' : (s.write w.val ⟨t, 0, none⟩).pc c = .idle := hc
  refine h0.goto ?_ (by rw [hc']; rfl) (by rw [hc']; rfl) (by simp)
  refine h0.queue.take (c := c) hw ?_ ?_ ?_ (fun v _ => rfl)
  · simp [hc', Pc.status]
  · simp [Pc.status]
  · intro d hd
    simp [hd]

/-- A compare-and-swap takes a permit. -/
theorem Inv.takePermit (h : Inv start P s lc tr ch cnt srv) {result : Int} (hpos : result > 0)
    (hres : s.activeCount = result) :
    Inv start P { s with activeCount := result - 1, taken := s.taken + 1 } lc tr ch cnt srv := by
  have hactive := h.active
  refine { h with active := ?_, bound := fun hstart => ?_, balance := fun hP => ?_ }
  · show result - 1 = start + s.added - (s.taken + 1 : Nat) - s.resumed.length - cnt.length
    push_cast
    omega
  · have hdebt := h.debt hstart
    show ((s.taken + 1 : Nat) + s.resumed.length + (s.serving srv).owes : Int) ≤ start + s.added
    push_cast
    omega
  · have := h.balance hP
    show (cnt.length : Int) = max 0 (-(result - 1)) + (s.serving srv).owes
    omega

/-- `await_suspend` returns false. -/
theorem Inv.leave (h : Inv start P s lc tr ch cnt srv) {c : Coro} {w : Addr} {result : Int}
    (hc : s.pc c = .awaitLoop w result) : Inv start P (s.leave c w.val) lc tr ch cnt srv := by
  refine h.goto ?_ (by rw [hc]; rfl) (by rw [hc]; rfl) (by simp)
  exact h.queue.leave (c := c) (by simp [hc, Pc.status]) (by simp [hc, Pc.status])
    (by simp [Pc.status]) (fun d hd => by simp [hd])

/-- **The unconditional `fetch_sub`**, and the handle is stored. -/
theorem Inv.sub (h : Inv start P s lc tr ch cnt srv) {c : Coro} {w : Addr}
    (hc : s.pc c = .awaitSub w) (hP : P → s.activeCount ≤ 0) :
    Inv start P (({ s with activeCount := s.activeCount - 1 }.write w.val
      { s.mem w.val with handle := some c }).goto c (.suspendLoad w)) lc tr ch (c :: cnt) srv := by
  have hone : ∀ d, (s.pc d).status.node = some w → d = c :=
    fun d hd => h.queue.eq_of_node hd (by simp [hc, Pc.status])
  have hw : Inv start P (s.write w.val { s.mem w.val with handle := some c }) lc tr ch cnt srv := by
    refine h.write (fun d hd => ?_) (h.queue.write fun d v hv => handle_write ?_)
    · obtain rfl := hone d (by simp [hd, Pc.status])
      rw [hc] at hd; cases hd
    · rintro rfl
      obtain rfl := hone d (Waiting.node_of_nameNode hv)
      simp [hc, Pc.status] at hv
  have hnew : c ∉ cnt := by
    rw [h.counted, hc]
    simp [Pc.counted]
  have hst : ∀ d, ((s.goto c (.suspendLoad w)).pc d).starting = (s.pc d).starting :=
    update_unseen _ (by rw [hc]; rfl)
  refine { hw with queue := ?_, counted := ?_, nodup := ?_, active := ?_, debt := ?_,
                   balance := fun p => ?_, starter := ?_, args := h.args_goto (by simp) }
  · refine hw.queue.name (c := c) (w := w) ?_ ?_ ?_ handle_write_self (fun v _ => rfl)
    · show (s.pc c).status = _
      simp [hc, Pc.status]
    · simp [Pc.status]
    · intro d hd
      simp [hd, State.write]
  · -- counted: `c` has counted itself down
    intro d
    show d ∈ c :: cnt ↔ ((s.goto c (.suspendLoad w)).pc d).counted = true
    rw [List.mem_cons, h.counted, goto_pc]
    split
    · rename_i hdc
      simp [hdc, Pc.counted]
    · rename_i hdc
      simp [hdc]
  · exact List.nodup_cons.mpr ⟨hnew, h.nodup⟩
  · -- active: one permit less, one coroutine more
    have := h.active
    show s.activeCount - 1 = start + s.added - s.taken - s.resumed.length - (c :: cnt).length
    simp only [List.length_cons]
    push_cast
    omega
  · exact fun hstart => Nat.le_succ_of_le (h.debt hstart)
  · -- balance: the counter was not positive, so that nobody took a permit
    have h1 := h.balance p
    have h2 := hP p
    show ((c :: cnt).length : Int) = max 0 (-(s.activeCount - 1)) + (s.serving srv).owes
    simp only [List.length_cons]
    push_cast
    omega
  · intro d
    show ((s.goto c (.suspendLoad w)).pc d).starting = true ↔ _
    rw [hst]
    exact h.starter d

/-- The link of the own `waiter` is written before the push. -/
theorem Inv.link (h : Inv start P s lc tr ch cnt srv) {c : Coro} {w : Addr} (previous : Nat)
    (hc : (s.pc c).status = .named w) :
    Inv start P (s.write w.val { s.mem w.val with nextWaiting := previous }) lc tr ch cnt srv := by
  refine h.write (fun d hd => ?_) (h.queue.write fun d v _ => ?_)
  · obtain rfl : d = c := h.queue.eq_of_node (w := w) (by simp [hd, Pc.status]) (by simp [hc])
    rw [hd] at hc; cases hc
  · rw [handle_link]

/-- **The push.** The compare-and-swap succeeds, and `w` links to the root it replaces. -/
theorem Inv.push (h : Inv start P s lc tr ch cnt srv) {c : Coro} {w : Addr} {previous : Nat}
    (hc : s.pc c = .suspendLoop w previous) (hn : s.next w = s.resuming) :
    Inv start P { s.goto c (.suspended w) with resuming := w.val, pushed := s.pushed ++ [c] }
      lc tr (w :: ch) cnt srv := by
  have hcnt' : ∀ d, ((s.goto c (.suspended w)).pc d).counted = (s.pc d).counted :=
    update_unseen _ (by rw [hc]; rfl)
  have hst' : ∀ d, ((s.goto c (.suspended w)).pc d).starting = (s.pc d).starting :=
    update_unseen _ (by rw [hc]; rfl)
  refine { h with queue := ?_, root := h.root.push hn, counted := ?_, starter := ?_,
                  args := h.args_goto (by simp) }
  · have hq : WaitQueue (fun d => ((s.goto c (.suspended w)).pc d).status) _ _ _ _ _ :=
      h.queue.push (c := c) (w := w) (by simp [hc, Pc.status]) (by simp [Pc.status])
        (fun d hd => by simp [hd])
    rwa [List.append_assoc, ← List.reverse_cons] at hq
  · simp only [hcnt']
    exact h.counted
  · simp only [hst']
    exact h.starter

/-- **The election.** The `release` that lifts `release_count` from `0` will start `control`. -/
theorem Inv.releaseFirst (h : Inv start P s lc tr ch cnt srv) {c : Coro} {n : Int} {t : ThreadT}
    (hc : s.pc c = .release n t) (h0 : s.releaseCount = 0) :
    Inv start P ({ s with releaseCount := s.releaseCount + n }.goto c (.startControl t))
      lc tr ch cnt (.starter c) := by
  have hn := h.args c n t hc
  obtain rfl : srv = .nobody := by
    by_contra hne
    have := h.release.2.mpr hne
    omega
  have hcnt' : ∀ d, ((s.goto c (.startControl t)).pc d).counted = (s.pc d).counted :=
    update_unseen _ (by rw [hc]; rfl)
  refine { h with queue := ?_, counted := ?_, starter := ?_, running := ?_, release := ?_,
                  args := h.args_goto (by simp) }
  · exact h.queue.congr (update_unseen Pc.status (by rw [hc]; rfl))
  · intro d
    show d ∈ cnt ↔ ((s.goto c (.startControl t)).pc d).counted = true
    rw [hcnt']
    exact h.counted d
  · intro d
    show ((s.goto c (.startControl t)).pc d).starting = true ↔ _
    have := h.starter d
    by_cases hdc : d = c
    · simp [hdc, Pc.starting]
    · simp [hdc, this, Ne.symm hdc]
  · intro k
    exact (h.running k).trans (by simp)
  · refine ⟨?_, ?_⟩
    · show 0 ≤ s.releaseCount + n
      omega
    · refine ⟨fun _ => by simp, fun _ => ?_⟩
      show 0 < s.releaseCount + n
      omega

/-- Any other `release` leaves its permits to the server. -/
theorem Inv.releaseMore (h : Inv start P s lc tr ch cnt srv) {c : Coro} {n : Int} {t : ThreadT}
    (hc : s.pc c = .release n t) (h0 : s.releaseCount ≠ 0) :
    Inv start P ({ s with releaseCount := s.releaseCount + n }.goto c .idle) lc tr ch cnt srv := by
  have hn := h.args c n t hc
  have h1 := h.release
  have h2 : Inv start P { s with releaseCount := s.releaseCount + n } lc tr ch cnt srv := by
    refine { h with release := ⟨?_, ?_⟩ }
    · show 0 ≤ s.releaseCount + n
      omega
    · have : 0 < s.releaseCount := by omega
      refine ⟨fun _ => h1.2.mp this, fun _ => ?_⟩
      show 0 < s.releaseCount + n
      omega
  exact h2.goto_same hc rfl rfl rfl (by simp)

/-- `control` is called. -/
theorem Inv.startControl (h : Inv start P s lc tr ch cnt srv) {c : Coro} {t : ThreadT}
    (hc : s.pc c = .startControl t) :
    Inv start P { s.goto c (.inControl s.controls) with
        control := Function.update s.control s.controls ⟨.transfer false, t, 0⟩
        controls := s.controls + 1 }
      lc tr ch cnt (.running s.controls) := by
  obtain rfl : srv = .starter c := (h.starter c).mp (by rw [hc]; rfl)
  have hcnt' : ∀ d, ((s.goto c (.inControl s.controls)).pc d).counted = (s.pc d).counted :=
    update_unseen _ (by rw [hc]; rfl)
  have hloc : lc = [] := h.loc
  have hbound := h.bound
  have hbal := h.balance
  refine { h with queue := ?_, loc := ?_, counted := ?_, bound := ?_, debt := ?_, balance := ?_,
                  starter := ?_, running := ?_, fresh := ?_, release := ?_,
                  args := h.args_goto (by simp) }
  · exact h.queue.congr (update_unseen Pc.status (by rw [hc]; rfl))
  · simpa [State.serving, Local] using hloc
  · intro d
    show d ∈ cnt ↔ ((s.goto c (.inControl s.controls)).pc d).counted = true
    rw [hcnt']
    exact h.counted d
  · simpa [State.serving, State.goto, ControlPc.owes] using hbound
  · simp [State.serving, ControlPc.owes]
  · simpa [State.serving, State.goto, ControlPc.owes] using hbal
  · intro d
    show ((s.goto c (.inControl s.controls)).pc d).starting = true ↔ _
    have := h.starter d
    by_cases hdc : d = c
    · simp [hdc, Pc.starting]
    · simp [hdc, this, Ne.symm hdc]
  · intro k
    have := h.running k
    by_cases hk : k = s.controls
    · simp [hk, ControlPc.active]
    · simpa [hk, Ne.symm hk] using this
  · intro k hk
    have hk : s.controls + 1 ≤ k := hk
    show (Function.update s.control s.controls _ k).pc = .unborn
    rw [Function.update_of_ne (by omega)]
    exact h.fresh k (by omega)
  · have := h.release
    exact ⟨this.1, this.2.trans (by simp)⟩

/-! ### Steps of `control` -/

/-- A step of the serving `control` that does not end it. -/
theorem Inv.serves {k : Nat} (h : Inv start P s lc tr ch cnt (.running k)) (s' : State)
    (hk : (s'.control k).pc.active = true) (hl : ∀ l, l ≠ k → s'.control l = s.control l)
    (hn : s'.controls = s.controls) :
    (∀ l, (s'.control l).pc.active = true ↔ Server.running k = .running l) ∧
      ∀ l, s'.controls ≤ l → (s'.control l).pc = .unborn := by
  have hact : (s.control k).pc.active = true := (h.running k).mpr rfl
  refine ⟨fun l => ?_, fun l hle => ?_⟩
  · by_cases hlk : l = k
    · simp [hlk, hk]
    · rw [hl l hlk]
      exact h.running l
  · rw [hn] at hle
    have hlk : l ≠ k := by
      rintro rfl
      rw [h.fresh l hle] at hact
      cases hact
    rw [hl l hlk]
    exact h.fresh l hle

/-- A step of the serving `control` that moves waiters between its lists and keeps their
order, the counters and its debt. -/
theorem Inv.relist {k : Nat} (h : Inv start P s lc tr ch cnt (.running k)) {q : ControlPc}
    {lc' tr' ch' : List Addr} {r t : Nat} {m : Nat → Waiter} (hq : q.active = true)
    (howes : q.owes = (s.control k).pc.owes)
    (hqueue : lc' ++ tr' ++ ch'.reverse = lc ++ tr ++ ch.reverse)
    (hm : ∀ w : Addr, (m w.val).handle = s.handle w)
    (hroot : Chain Addr.val (fun w => (m w.val).nextWaiting) 0 r ch')
    (htrans : Chain Addr.val (fun w => (m w.val).nextWaiting) 0 t tr')
    (hloc : Local (fun w => (m w.val).nextWaiting) lc' tr' q) :
    Inv start P { s.gotoControl k q with resuming := r, transfer := t, mem := m }
      lc' tr' ch' cnt (.running k) := by
  obtain ⟨hrun, hfresh⟩ := h.serves (s.gotoControl k q) (by simp [hq])
    (fun l hl => by simp [hl]) rfl
  have hserve : ({ s.gotoControl k q with resuming := r, transfer := t, mem := m } : State).serving
      (.running k) = q := by
    simp [State.serving]
  refine ⟨?_, hroot, htrans, ?_, h.counted, h.nodup, h.active, ?_, ?_, ?_, h.starter, hrun, hfresh,
    h.release, h.args⟩
  · rw [hqueue]
    exact h.queue.write fun d w _ => hm w
  · rw [hserve]; exact hloc
  · rw [hserve, howes]; exact h.bound
  · rw [hserve, howes]; exact h.debt
  · rw [hserve, howes]; exact h.balance

/-- `transfer` returns the first waiter. -/
theorem Inv.found {k : Nat} (h : Inv start P s lc tr ch cnt (.running k)) {inner : Bool} {w : Addr}
    {tr' : List Addr} (howes : (s.control k).pc.owes = inner.toNat) (hlist : lc ++ tr = w :: tr')
    (htr : Chain Addr.val s.next 0 (s.next w) tr') :
    Inv start P ({ s with transfer := (s.mem w.val).nextWaiting }.found k inner w.val)
      [w] tr' ch cnt (.running k) := by
  have hqueue : [w] ++ tr' ++ ch.reverse = lc ++ tr ++ ch.reverse := by simp [hlist]
  cases inner with
  | false =>
      exact h.relist (q := .addSome w.val) rfl howes.symm hqueue (fun _ => rfl) h.root htr
        ⟨w, rfl, rfl⟩
  | true =>
      exact h.relist (q := .resume w.val) rfl howes.symm hqueue (fun _ => rfl) h.root htr
        ⟨w, rfl, rfl⟩

theorem Inv.transfer {k : Nat} (h : Inv start P s lc tr ch cnt (.running k)) {inner : Bool}
    (hc : (s.control k).pc = .transfer inner) {s' : State}
    (hs : s.advanceControl k = some s') :
    ∃ lc' tr', Inv start P s' lc' tr' ch cnt (.running k) := by
  have hlc : lc = [] := by simpa [State.serving, hc, Local] using h.loc
  subst hlc
  simp only [State.advanceControl, hc] at hs
  split at hs <;> obtain rfl := Option.some.inj hs <;> rename_i h0
  · have htr : tr = [] := (h.trans.root_eq_stop Addr.val_ne_zero).mp h0
    subst htr
    exact ⟨[], [], h.relist (q := .exchange inner) rfl (by rw [hc]; rfl) rfl (fun _ => rfl) h.root
      h.trans ⟨rfl, rfl⟩⟩
  · cases tr with
    | nil => exact absurd h.trans h0
    | cons w tr' =>
        obtain ⟨hw, htr⟩ := h.trans
        rw [hw]
        exact ⟨[w], tr', h.found (by rw [hc]; rfl) rfl htr⟩

/-- The exchange takes the whole chain. -/
theorem Inv.exchange {k : Nat} (h : Inv start P s lc tr ch cnt (.running k)) {inner : Bool}
    (hc : (s.control k).pc = .exchange inner) {s' : State}
    (hs : s.advanceControl k = some s') :
    ∃ lc' ch', Inv start P s' lc' tr ch' cnt (.running k) := by
  obtain ⟨rfl, rfl⟩ : lc = [] ∧ tr = [] := by simpa [State.serving, hc, Local] using h.loc
  simp only [State.advanceControl, hc] at hs
  split at hs <;> obtain rfl := Option.some.inj hs <;> rename_i h0
  · -- nobody has been pushed: the permit goes to the counter, or the waiter is on his way
    have hch : ch = [] := (h.root.root_eq_stop Addr.val_ne_zero).mp h0
    subst hch
    cases inner with
    | false =>
        exact ⟨[], [], h.relist (q := .addNone) rfl (by rw [hc]; rfl) rfl (fun _ => rfl) rfl
          h.trans rfl⟩
    | true =>
        exact ⟨[], [], h.relist (q := .yieldInner) rfl (by rw [hc]; rfl) rfl (fun _ => rfl) rfl
          h.trans rfl⟩
  · have hch : ch ≠ [] := fun hnil => h0 ((h.root.root_eq_stop Addr.val_ne_zero).mpr hnil)
    exact ⟨ch.reverse, [], h.relist (q := .reverse inner 0 s.resuming) rfl (by rw [hc]; rfl)
      (by simp) (fun _ => rfl) rfl h.trans ⟨rfl, Chain.Reversing.start hch h.root 0⟩⟩

/-- One round of the reversing loop. -/
theorem Inv.reverse {k : Nat} (h : Inv start P s lc tr ch cnt (.running k)) {inner : Bool}
    {head nxt : Nat} (hc : (s.control k).pc = .reverse inner head nxt) {s' : State}
    (hs : s.advanceControl k = some s') : Inv start P s' lc tr ch cnt (.running k) := by
  obtain ⟨rfl, hrev⟩ : tr = [] ∧ Chain.Reversing Addr.val s.next 0 0 head nxt lc := by
    simpa [State.serving, hc, Local] using h.loc
  have hnd := h.queue.nodup
  rw [List.append_nil, List.nodup_append] at hnd
  obtain ⟨w, hw, rfl, hround⟩ := hrev.round hnd.1
  have hch : w ∉ ch := fun hm => hnd.2.2 w hw w (List.mem_reverse.mpr hm) rfl
  have hmove : ∀ q : ControlPc, q.active = true → q.owes = inner.toNat →
      Local (Function.update s.next w head) lc [] q →
      Inv start P ((s.write w.val { s.mem w.val with nextWaiting := head }).gotoControl k q)
        lc [] ch cnt (.running k) := by
    intro q hq howes hloc
    refine h.relist (m := (s.write w.val { s.mem w.val with nextWaiting := head }).mem) hq
      (by rw [hc]; exact howes) rfl (congrFun (handle_link s w head)) ?_ ?_ ?_
    · rw [next_link]
      exact h.root.update_of_notMem hch head
    · exact h.trans
    · rw [next_link]
      exact hloc
  simp only [State.advanceControl, hc] at hs
  rcases hround with ⟨hstop, hdone⟩ | ⟨b, hb, hmore⟩
  · have hstop : (s.mem w.val).nextWaiting = 0 := hstop
    rw [if_neg (by simp [hstop])] at hs
    obtain rfl := Option.some.inj hs
    exact hmove (.take inner w.val) rfl rfl ⟨rfl, fun hnil => by simp [hnil] at hw, hdone⟩
  · have hb : (s.mem w.val).nextWaiting = b.val := hb
    rw [if_pos (hb ▸ b.val_ne_zero)] at hs
    obtain rfl := Option.some.inj hs
    exact hmove _ rfl rfl ⟨rfl, hmore⟩

theorem Inv.take {k : Nat} (h : Inv start P s lc tr ch cnt (.running k)) {inner : Bool}
    {head : Nat} (hc : (s.control k).pc = .take inner head) {s' : State}
    (hs : s.advanceControl k = some s') :
    ∃ lc' tr', Inv start P s' lc' tr' ch cnt (.running k) := by
  obtain ⟨rfl, hne, hchain⟩ : tr = [] ∧ lc ≠ [] ∧ Chain Addr.val s.next 0 head lc := by
    simpa [State.serving, hc, Local] using h.loc
  simp only [State.advanceControl, hc] at hs
  obtain rfl := Option.some.inj hs
  cases lc with
  | nil => exact absurd rfl hne
  | cons w l =>
      obtain ⟨rfl, hl⟩ := hchain
      exact ⟨[w], l, h.found (by rw [hc]; rfl) (by simp) hl⟩

/-- A permit is added to `active_count`. The server may owe it to a waiter if there is one. -/
theorem Inv.add {k : Nat} (h : Inv start P s lc tr ch cnt (.running k)) {q : ControlPc}
    (hq : q.active = true) (hno : (s.control k).pc.owes = 0) (hone : q.owes ≤ 1)
    (hdebt : 0 ≤ start → q.owes ≤ cnt.length) (hloc : Local s.next lc tr q)
    (hP : P → q.owes = if s.activeCount < 0 then 1 else 0) :
    Inv start P ({ s with activeCount := s.activeCount + 1, added := s.added + 1 }.gotoControl k q)
      lc tr ch cnt (.running k) := by
  set s₁ := { s with activeCount := s.activeCount + 1, added := s.added + 1 } with hs₁
  obtain ⟨hrun, hfresh⟩ := h.serves (s₁.gotoControl k q) (by simp [hq])
    (fun l hl => by simp [hl, hs₁]) rfl
  have hserve : (s₁.gotoControl k q).serving (.running k) = q := by simp [State.serving]
  have hbound : 0 ≤ start →
      (s.taken + s.resumed.length + (s.control k).pc.owes : Int) ≤ start + s.added := h.bound
  refine ⟨h.queue, h.root, h.trans, ?_, h.counted, h.nodup, ?_, ?_, ?_, ?_, h.starter, hrun, hfresh,
    h.release, h.args⟩
  · rw [hserve]; exact hloc
  · -- active
    have := h.active
    show s.activeCount + 1 = start + (s.added + 1 : Nat) - s.taken - s.resumed.length - cnt.length
    push_cast
    omega
  · -- bound: the new permit pays for what the server owes
    intro hstart
    have := hbound hstart
    rw [hserve]
    show (s.taken + s.resumed.length + q.owes : Int) ≤ start + (s.added + 1 : Nat)
    push_cast
    omega
  · rw [hserve]; exact hdebt
  · -- balance: a negative counter owes the permit to somebody who waits
    intro p
    have hbal : (cnt.length : Int) = max 0 (-s.activeCount) + (s.control k).pc.owes := h.balance p
    rw [hserve, hP p]
    show (cnt.length : Int) = max 0 (-(s.activeCount + 1)) + _
    split <;> omega

/-- If `active_count` is negative, somebody has counted down and waits. -/
theorem Inv.counted_pos (h : Inv start P s lc tr ch cnt srv) (hneg : s.activeCount < 0)
    (hstart : 0 ≤ start) : 1 ≤ cnt.length := by
  have h1 := h.active
  have h2 := h.bound hstart
  omega

theorem Inv.addNone {k : Nat} (h : Inv start P s lc tr ch cnt (.running k))
    (hc : (s.control k).pc = .addNone) {s' : State} (hs : s.advanceControl k = some s') :
    Inv start P s' lc tr ch cnt (.running k) := by
  have hlc : lc = [] := by simpa [State.serving, hc, Local] using h.loc
  simp only [State.advanceControl, hc] at hs
  split at hs <;> obtain rfl := Option.some.inj hs <;> rename_i hneg
  · exact h.add rfl (by rw [hc]; rfl) (by decide) (h.counted_pos hneg) hlc
      (fun _ => (if_pos hneg).symm)
  · exact h.add rfl (by rw [hc]; rfl) (by decide) (by simp [ControlPc.owes]) hlc
      (fun _ => (if_neg hneg).symm)

/-- The waiter in the hands of `control`. -/
theorem Inv.holds {k head : Nat} (h : Inv start P s lc tr ch cnt (.running k))
    (hloc : Local s.next lc tr (.resume head)) :
    ∃ w d, head = Addr.val w ∧ lc = [w] ∧ s.pc d = .suspended w ∧ s.handle w = some d ∧
      d ∈ cnt := by
  obtain ⟨w, hw, rfl⟩ := hloc
  obtain ⟨d, hd, hh⟩ := h.queue.head
  have hd := Pc.eq_of_asleep hd
  exact ⟨w, d, hw, rfl, hd, hh, (h.counted d).mpr (by rw [hd]; rfl)⟩

theorem Inv.addSome {k head : Nat} (h : Inv start P s lc tr ch cnt (.running k))
    (hc : (s.control k).pc = .addSome head) {s' : State} (hs : s.advanceControl k = some s') :
    Inv start P s' lc tr ch cnt (.running k) := by
  have hloc : Local s.next lc tr (.resume head) := by
    simpa [State.serving, hc, Local] using h.loc
  simp only [State.advanceControl, hc] at hs
  obtain rfl := Option.some.inj hs
  obtain ⟨w, d, -, -, -, -, hd⟩ := h.holds hloc
  have hlen := List.length_pos_of_mem hd
  refine h.add rfl (by rw [hc]; rfl) (by simp [ControlPc.owes]) (fun _ => hlen) hloc (fun p => ?_)
  have hbal : (cnt.length : Int) = max 0 (-s.activeCount) + (s.control k).pc.owes := h.balance p
  rw [hc] at hbal
  simp only [ControlPc.owes] at hbal
  exact (if_pos (by omega)).symm

/-- **The resumption.** The waiter that has slept longest is admitted. -/
theorem Inv.resume {k head : Nat} (h : Inv start P s lc tr ch cnt (.running k))
    (hc : (s.control k).pc = .resume head) {s' : State} (hs : s.advanceControl k = some s') :
    ∃ cnt', Inv start P s' [] tr ch cnt' (.running k) := by
  simp only [State.advanceControl, hc] at hs
  obtain rfl := Option.some.inj hs
  have hloc : Local s.next lc tr (.resume head) := by
    simpa [State.serving, hc, Local] using h.loc
  obtain ⟨w, d, rfl, rfl, hd, hh, hdcnt⟩ := h.holds hloc
  obtain ⟨s', hdef⟩ : ∃ s', s' = (s.threadResume w.val).gotoControl k .finish := ⟨_, rfl⟩
  have hform : s' = { s with
      pc := Function.update s.pc d .idle
      live := Function.update s.live w.val false
      control := Function.update s.control k { s.control k with pc := .finish }
      resumed := s.resumed ++ [(some d, (s.mem w.val).thread)] } := by
    have hh : (s.mem w.val).handle = some d := hh
    rw [hdef]
    simp [State.threadResume, State.leave, State.goto, State.gotoControl, hh]
  rw [← hdef]
  have hpc : ∀ e, s'.pc e = if e = d then .idle else s.pc e := by
    intro e
    rw [hform]
    exact Function.update_apply ..
  have hserve : s'.serving (.running k) = .finish := by simp [State.serving, hform]
  obtain ⟨hrun, hfresh⟩ := h.serves s' (show (s'.serving (.running k)).active = true by
    rw [hserve]; rfl) (fun l hl => by simp [hform, hl]) (by rw [hform])
  have hpop : WaitQueue (fun e => (s'.pc e).status) _ _ _ _ _ :=
    h.queue.pop (c := d) (w := w) (by simp [hd, Pc.status]) (by simp [hpc, Pc.status])
      (fun e he => by simp [hpc, he])
  have hlen : (cnt.erase d).length + 1 = cnt.length := by
    have := List.length_pos_of_mem hdcnt
    rw [List.length_erase_of_mem hdcnt]
    omega
  have hbound : 0 ≤ start →
      (s.taken + s.resumed.length + (s.control k).pc.owes : Int) ≤ start + s.added := h.bound
  rw [hc] at hbound
  refine ⟨cnt.erase d, ?_, ?_, ?_, ?_, ?_, h.nodup.erase d, ?_, ?_, ?_, ?_, ?_, hrun, hfresh, ?_,
    ?_⟩
  · -- queue: the first of the queue is resumed
    rw [hform] at hpop ⊢
    simp only [List.map_append, List.map_cons, List.map_nil]
    exact hpop
  · rw [hform]; exact h.root
  · rw [hform]; exact h.trans
  · rw [hserve]; rfl
  · -- counted: `d` waits no more
    intro e
    rw [h.nodup.mem_erase_iff, h.counted, hpc]
    split
    · rename_i he
      simp [he, Pc.counted]
    · rename_i he
      simp [he]
  · -- active: `d` has got the permit that was added for it
    have := h.active
    rw [hform]
    show s.activeCount =
      start + s.added - s.taken - (s.resumed ++ [_]).length - (cnt.erase d).length
    simp only [List.length_append, List.length_cons, List.length_nil]
    push_cast
    omega
  · -- bound
    intro hstart
    have hbound := hbound hstart
    rw [hserve, hform]
    show (s.taken + (s.resumed ++ [_]).length + ControlPc.finish.owes : Int) ≤ start + s.added
    simp only [List.length_append, List.length_cons, List.length_nil, ControlPc.owes] at hbound ⊢
    push_cast at hbound ⊢
    omega
  · intro _
    rw [hserve]
    exact Nat.zero_le _
  · -- balance: the server has paid
    intro p
    have hbal : (cnt.length : Int) = max 0 (-s.activeCount) + (s.control k).pc.owes := h.balance p
    rw [hc] at hbal
    rw [hserve, hform]
    simp only [ControlPc.owes] at hbal ⊢
    push_cast at hbal ⊢
    omega
  · -- starter
    intro e
    have := h.starter e
    rw [hpc]
    split
    · rename_i he
      simp [Pc.starting]
    · exact this
  · rw [hform]; exact h.release
  · intro e n t he
    rw [hpc] at he
    split at he
    · cases he
    · exact h.args e n t he

/-- **The end of a round.** The `control` that takes the last permit off `release_count` is done;
any other one goes on. -/
theorem Inv.finish {k : Nat} (h : Inv start P s lc tr ch cnt (.running k))
    (hc : (s.control k).pc = .finish) {s' : State} (hs : s.advanceControl k = some s') :
    ∃ srv', Inv start P s' lc tr ch cnt srv' := by
  have hlc : lc = [] := by simpa [State.serving, hc, Local] using h.loc
  have hpos : 0 < s.releaseCount := h.release.2.mpr (by simp)
  have hact : (s.control k).pc.active = true := (h.running k).mpr rfl
  have hbound : 0 ≤ start →
      (s.taken + s.resumed.length + (s.control k).pc.owes : Int) ≤ start + s.added := h.bound
  have hbal : P → (cnt.length : Int) = max 0 (-s.activeCount) + (s.control k).pc.owes := h.balance
  rw [hc] at hbound hbal
  simp only [State.advanceControl, hc] at hs
  split at hs <;> obtain rfl := Option.some.inj hs <;> rename_i hone
  · -- no permits are left, and the next `release` starts another `control`
    refine ⟨.nobody, { h with loc := hlc, bound := hbound, debt := fun _ => Nat.zero_le _,
                              balance := hbal, starter := ?_, running := ?_, fresh := ?_,
                              release := ?_ }⟩
    · intro c
      exact (h.starter c).trans (by simp)
    · intro l
      have := h.running l
      by_cases hl : l = k
      · simp [hl, ControlPc.active]
      · simpa [hl, Ne.symm hl] using this
    · intro l hle
      have hlk : l ≠ k := by
        rintro rfl
        rw [h.fresh l hle] at hact
        cases hact
      simpa [hlk] using h.fresh l hle
    · refine ⟨?_, ?_⟩
      · show 0 ≤ s.releaseCount - 1
        omega
      · refine ⟨fun hlt => ?_, fun hne => absurd rfl hne⟩
        have hlt : 0 < s.releaseCount - 1 := hlt
        omega
  · -- the next round, after a `yield` now and then
    set n := ((s.control k).count + 1) % 2 ^ 64
    set q : ControlPc := if n &&& 0b1000000 ≠ 0 then .yieldOuter else .transfer false with hq
    have hact' : q.active = true ∧ q.owes = 0 ∧ (Local s.next lc tr q ↔ lc = []) := by
      rw [hq]
      split <;> exact ⟨rfl, rfl, Iff.rfl⟩
    obtain ⟨hrun, hfresh⟩ := h.serves { s with
      control := Function.update s.control k ⟨q, (s.control k).thread, n⟩ } (by simp [hact'.1])
      (fun l hl => by simp [hl]) rfl
    refine ⟨.running k, { h with loc := ?_, bound := ?_, debt := ?_, balance := ?_,
                                 running := hrun, fresh := hfresh, release := ?_ }⟩
    · simp only [State.serving, Function.update_self]
      exact hact'.2.2.mpr hlc
    · simp only [State.serving, Function.update_self, hact'.2.1]
      exact hbound
    · simp [State.serving, hact'.2.1]
    · simp only [State.serving, Function.update_self, hact'.2.1]
      exact hbal
    · refine ⟨?_, ?_⟩
      · show 0 ≤ s.releaseCount - 1
        omega
      · refine ⟨fun _ => by simp, fun _ => ?_⟩
        show 0 < s.releaseCount - 1
        omega

/-! ### Every step -/

/-- What a step of `control` number `k` does, and when. -/
inductive Serves (s : State) (k : Nat) : State → Prop
  | listEmpty (inner : Bool) (hpc : (s.control k).pc = .transfer inner) (hzero : s.transfer = 0) :
      Serves s k (s.gotoControl k (.exchange inner))
  | listHead (inner : Bool) (hpc : (s.control k).pc = .transfer inner) (hne : s.transfer ≠ 0) :
      Serves s k
        (State.found { s with transfer := (s.mem s.transfer).nextWaiting } k inner s.transfer)
  | nobody (inner : Bool) (hpc : (s.control k).pc = .exchange inner) (hzero : s.resuming = 0) :
      Serves s k (State.notFound { s with resuming := 0 } k inner)
  | exchanges (inner : Bool) (hpc : (s.control k).pc = .exchange inner) (hne : s.resuming ≠ 0) :
      Serves s k (State.gotoControl { s with resuming := 0 } k (.reverse inner 0 s.resuming))
  | reverses (inner : Bool) (head next : Nat) (hpc : (s.control k).pc = .reverse inner head next)
      (hne : (s.mem next).nextWaiting ≠ 0) :
      Serves s k ((s.write next { s.mem next with nextWaiting := head }).gotoControl k
        (.reverse inner next (s.mem next).nextWaiting))
  | reversed (inner : Bool) (head next : Nat) (hpc : (s.control k).pc = .reverse inner head next)
      (hzero : (s.mem next).nextWaiting = 0) :
      Serves s k ((s.write next { s.mem next with nextWaiting := head }).gotoControl k
        (.take inner next))
  | takes (inner : Bool) (head : Nat) (hpc : (s.control k).pc = .take inner head) :
      Serves s k (State.found { s with transfer := (s.mem head).nextWaiting } k inner head)
  /-- The permit is owed to a coroutine that has counted itself down. -/
  | owes (hpc : (s.control k).pc = .addNone) (hneg : s.activeCount < 0) :
      Serves s k (State.gotoControl
        { s with activeCount := s.activeCount + 1, added := s.added + 1 } k .yieldInner)
  | addsNone (hpc : (s.control k).pc = .addNone) (hnot : ¬ s.activeCount < 0) :
      Serves s k (State.gotoControl
        { s with activeCount := s.activeCount + 1, added := s.added + 1 } k .finish)
  | addsSome (head : Nat) (hpc : (s.control k).pc = .addSome head) :
      Serves s k (State.gotoControl
        { s with activeCount := s.activeCount + 1, added := s.added + 1 } k (.resume head))
  | triesAgain (hpc : (s.control k).pc = .yieldInner) :
      Serves s k (s.gotoControl k (.transfer true))
  | resumes (head : Nat) (hpc : (s.control k).pc = .resume head) :
      Serves s k ((s.threadResume head).gotoControl k .finish)
  | ends (hpc : (s.control k).pc = .finish) (hone : s.releaseCount = 1) :
      Serves s k (State.gotoControl { s with releaseCount := s.releaseCount - 1 } k .done)
  | nextRound (q : ControlPc) (count : Nat) (hpc : (s.control k).pc = .finish)
      (hne : s.releaseCount ≠ 1) (hcount : count = ((s.control k).count + 1) % 2 ^ 64)
      (hq : q = if count &&& 0b1000000 ≠ 0 then .yieldOuter else .transfer false) :
      Serves s k { s with
        releaseCount := s.releaseCount - 1
        control := Function.update s.control k ⟨q, (s.control k).thread, count⟩ }
  | goesOn (hpc : (s.control k).pc = .yieldOuter) :
      Serves s k (s.gotoControl k (.transfer false))

theorem serves_of_advanceControl {k : Nat} {s' : State} (hs : s.advanceControl k = some s') :
    Serves s k s' := by
  cases hq : (s.control k).pc with
  | unborn | done => simp [State.advanceControl, hq] at hs
  | transfer inner =>
      simp only [State.advanceControl, hq] at hs
      split at hs <;> rename_i hzero <;> obtain rfl := Option.some.inj hs
      · exact .listEmpty inner hq hzero
      · exact .listHead inner hq hzero
  | exchange inner =>
      simp only [State.advanceControl, hq] at hs
      split at hs <;> rename_i hzero <;> obtain rfl := Option.some.inj hs
      · exact .nobody inner hq hzero
      · exact .exchanges inner hq hzero
  | reverse inner head next =>
      simp only [State.advanceControl, hq] at hs
      split at hs <;> rename_i hne <;> obtain rfl := Option.some.inj hs
      · exact .reverses inner head next hq hne
      · exact .reversed inner head next hq (not_not.mp hne)
  | take inner head =>
      simp only [State.advanceControl, hq] at hs
      obtain rfl := Option.some.inj hs
      exact .takes inner head hq
  | addNone =>
      simp only [State.advanceControl, hq] at hs
      split at hs <;> rename_i hneg <;> obtain rfl := Option.some.inj hs
      · exact .owes hq hneg
      · exact .addsNone hq hneg
  | addSome head =>
      simp only [State.advanceControl, hq] at hs
      obtain rfl := Option.some.inj hs
      exact .addsSome head hq
  | yieldInner =>
      simp only [State.advanceControl, hq] at hs
      obtain rfl := Option.some.inj hs
      exact .triesAgain hq
  | resume head =>
      simp only [State.advanceControl, hq] at hs
      obtain rfl := Option.some.inj hs
      exact .resumes head hq
  | finish =>
      simp only [State.advanceControl, hq] at hs
      split at hs <;> rename_i hone <;> obtain rfl := Option.some.inj hs
      · exact .ends hq hone
      · exact .nextRound _ _ hq hone rfl rfl
  | yieldOuter =>
      simp only [State.advanceControl, hq] at hs
      obtain rfl := Option.some.inj hs
      exact .goesOn hq

/-- What a step of `c` does, and when. -/
inductive Advances (s : State) (c : Coro) : State → Prop
  | tryLoads (hpc : s.pc c = .tryLoad) : Advances s c (s.goto c (.tryLoop s.activeCount))
  | tryTakes (result : Int) (hpc : s.pc c = .tryLoop result) (hpos : result > 0)
      (hword : s.activeCount = result) :
      Advances s c { s.goto c .idle with activeCount := result - 1, taken := s.taken + 1 }
  | tryRetries (result : Int) (hpc : s.pc c = .tryLoop result) (hpos : result > 0) :
      Advances s c (s.goto c (.tryLoop s.activeCount))
  | tryFails (result : Int) (hpc : s.pc c = .tryLoop result) (hnot : ¬ result > 0) :
      Advances s c (s.goto c .idle)
  | awaitLoads (w : Addr) (hpc : s.pc c = .awaitLoad w) :
      Advances s c (s.goto c (.awaitLoop w s.activeCount))
  | awaitTakes (w : Addr) (result : Int) (hpc : s.pc c = .awaitLoop w result) (hpos : result > 0)
      (hword : s.activeCount = result) :
      Advances s c { s.leave c w.val with activeCount := result - 1, taken := s.taken + 1 }
  | awaitRetries (w : Addr) (result : Int) (hpc : s.pc c = .awaitLoop w result)
      (hpos : result > 0) : Advances s c (s.goto c (.awaitLoop w s.activeCount))
  | awaitFails (w : Addr) (result : Int) (hpc : s.pc c = .awaitLoop w result)
      (hnot : ¬ result > 0) : Advances s c (s.goto c (.awaitSub w))
  | subtracts (w : Addr) (hpc : s.pc c = .awaitSub w) :
      Advances s c ((State.write { s with activeCount := s.activeCount - 1 } w.val
        { s.mem w.val with handle := some c }).goto c (.suspendLoad w))
  | suspendLoads (w : Addr) (hpc : s.pc c = .suspendLoad w) :
      Advances s c (s.goto c (.suspendLoop w s.resuming))
  | suspends (w : Addr) (previous : Nat) (hpc : s.pc c = .suspendLoop w previous)
      (hword : s.resuming = previous) :
      Advances s c
        { (s.write w.val { s.mem w.val with nextWaiting := previous }).goto c (.suspended w) with
          resuming := w.val
          pushed := s.pushed ++ [c] }
  | suspendRetries (w : Addr) (previous : Nat) (hpc : s.pc c = .suspendLoop w previous) :
      Advances s c ((s.write w.val { s.mem w.val with nextWaiting := previous }).goto c
        (.suspendLoop w s.resuming))
  | releasesFirst (n : Int) (t : ThreadT) (hpc : s.pc c = .release n t)
      (hzero : s.releaseCount = 0) :
      Advances s c (State.goto { s with releaseCount := s.releaseCount + n } c (.startControl t))
  | releasesMore (n : Int) (t : ThreadT) (hpc : s.pc c = .release n t)
      (hne : s.releaseCount ≠ 0) :
      Advances s c (State.goto { s with releaseCount := s.releaseCount + n } c .idle)
  | startsControl (t : ThreadT) (hpc : s.pc c = .startControl t) :
      Advances s c { s.goto c (.inControl s.controls) with
        control := Function.update s.control s.controls ⟨.transfer false, t, 0⟩
        controls := s.controls + 1 }
  /-- `control` is suspended or over. -/
  | returns (k : Nat) (hpc : s.pc c = .inControl k) : Advances s c (s.goto c .idle)

theorem advances_of_advance {c : Coro} {spurious : Bool} {s' : State}
    (hs : s.advance c spurious = some s') : Advances s c s' := by
  cases hc : s.pc c with
  | idle | suspended w => simp [State.advance, hc] at hs
  | tryLoad =>
      simp only [State.advance, hc] at hs
      obtain rfl := Option.some.inj hs
      exact .tryLoads hc
  | tryLoop result =>
      simp only [State.advance, hc] at hs
      split at hs <;> rename_i hpos
      · split at hs <;> obtain rfl := Option.some.inj hs
        · rename_i hcas
          exact .tryTakes result hc hpos hcas.1
        · exact .tryRetries result hc hpos
      · obtain rfl := Option.some.inj hs
        exact .tryFails result hc hpos
  | awaitLoad w =>
      simp only [State.advance, hc] at hs
      obtain rfl := Option.some.inj hs
      exact .awaitLoads w hc
  | awaitLoop w result =>
      simp only [State.advance, hc] at hs
      split at hs <;> rename_i hpos
      · split at hs <;> obtain rfl := Option.some.inj hs
        · rename_i hcas
          exact .awaitTakes w result hc hpos hcas.1
        · exact .awaitRetries w result hc hpos
      · obtain rfl := Option.some.inj hs
        exact .awaitFails w result hc hpos
  | awaitSub w =>
      simp only [State.advance, hc] at hs
      obtain rfl := Option.some.inj hs
      exact .subtracts w hc
  | suspendLoad w =>
      simp only [State.advance, hc] at hs
      obtain rfl := Option.some.inj hs
      exact .suspendLoads w hc
  | suspendLoop w previous =>
      simp only [State.advance, hc] at hs
      split at hs <;> obtain rfl := Option.some.inj hs
      · rename_i hcas
        exact .suspends w previous hc hcas.1
      · exact .suspendRetries w previous hc
  | release n t =>
      simp only [State.advance, hc] at hs
      split at hs <;> rename_i hzero <;> obtain rfl := Option.some.inj hs
      · exact .releasesFirst n t hc hzero
      · exact .releasesMore n t hc hzero
  | startControl t =>
      simp only [State.advance, hc] at hs
      obtain rfl := Option.some.inj hs
      exact .startsControl t hc
  | inControl k =>
      simp only [State.advance, hc] at hs
      split at hs
      case h_4 => cases hs
      all_goals
        obtain rfl := Option.some.inj hs
        exact .returns k hc

theorem Inv.advanceControl {k : Nat} (h : Inv start P s lc tr ch cnt srv) {s' : State}
    (hs : s.advanceControl k = some s') :
    ∃ lc' tr' ch' cnt' srv', Inv start P s' lc' tr' ch' cnt' srv' := by
  have hact : (s.control k).pc.active = true := by
    cases hq : (s.control k).pc with
    | unborn | done => simp [State.advanceControl, hq] at hs
    | _ => rfl
  obtain rfl : srv = .running k := (h.running k).mp hact
  cases hq : (s.control k).pc with
  | unborn | done => simp [State.advanceControl, hq] at hs
  | transfer inner =>
      obtain ⟨lc', tr', h'⟩ := h.transfer hq hs
      exact ⟨lc', tr', ch, cnt, _, h'⟩
  | exchange inner =>
      obtain ⟨lc', ch', h'⟩ := h.exchange hq hs
      exact ⟨lc', tr, ch', cnt, _, h'⟩
  | reverse inner head nxt => exact ⟨lc, tr, ch, cnt, _, h.reverse hq hs⟩
  | take inner head =>
      obtain ⟨lc', tr', h'⟩ := h.take hq hs
      exact ⟨lc', tr', ch, cnt, _, h'⟩
  | addNone => exact ⟨lc, tr, ch, cnt, _, h.addNone hq hs⟩
  | addSome head => exact ⟨lc, tr, ch, cnt, _, h.addSome hq hs⟩
  | resume head =>
      obtain ⟨cnt', h'⟩ := h.resume hq hs
      exact ⟨[], tr, ch, cnt', _, h'⟩
  | finish =>
      obtain ⟨srv', h'⟩ := h.finish hq hs
      exact ⟨lc, tr, ch, cnt, srv', h'⟩
  | yieldInner | yieldOuter =>
      simp only [State.advanceControl, hq] at hs
      obtain rfl := Option.some.inj hs
      have hlc : lc = [] := by simpa [State.serving, hq, Local] using h.loc
      exact ⟨lc, tr, ch, cnt, _,
        h.relist rfl (by rw [hq]; rfl) rfl (fun _ => rfl) h.root h.trans hlc⟩

theorem Inv.advance {c : Coro} {spurious : Bool} (h : Inv start P s lc tr ch cnt srv) {s' : State}
    (hP : ∀ w, s.pc c = .awaitSub w → P → s.activeCount ≤ 0) (hs : s.advance c spurious = some s') :
    ∃ lc' tr' ch' cnt' srv', Inv start P s' lc' tr' ch' cnt' srv' := by
  cases advances_of_advance hs with
  | tryLoads hc | tryRetries result hc | tryFails result hc | awaitLoads w hc
  | awaitRetries w result hc | awaitFails w result hc | suspendLoads w hc | returns k hc =>
      exact ⟨lc, tr, ch, cnt, srv, h.goto_same hc rfl rfl rfl (by simp)⟩
  | tryTakes result hc hpos hword =>
      exact ⟨lc, tr, ch, cnt, srv, (h.takePermit hpos hword).goto_same hc rfl rfl rfl (by simp)⟩
  | awaitTakes w result hc hpos hword =>
      exact ⟨lc, tr, ch, cnt, srv, (h.takePermit hpos hword).leave (c := c) hc⟩
  | subtracts w hc => exact ⟨lc, tr, ch, c :: cnt, srv, h.sub hc (hP w hc)⟩
  | suspends w previous hc hword =>
      have h0 := h.link (c := c) (w := w) previous (by rw [hc]; rfl)
      have hc' : (s.write w.val { s.mem w.val with nextWaiting := previous }).pc c
          = .suspendLoop w previous := hc
      refine ⟨lc, tr, w :: ch, cnt, srv, h0.push hc' ?_⟩
      simpa [State.next, State.write] using hword.symm
  | suspendRetries w previous hc =>
      have h0 := h.link (c := c) (w := w) previous (by rw [hc]; rfl)
      have hc' : (s.write w.val { s.mem w.val with nextWaiting := previous }).pc c
          = .suspendLoop w previous := hc
      exact ⟨lc, tr, ch, cnt, srv, h0.goto_same hc' rfl rfl rfl (by simp)⟩
  | releasesFirst n t hc hzero => exact ⟨lc, tr, ch, cnt, _, h.releaseFirst hc hzero⟩
  | releasesMore n t hc hne => exact ⟨lc, tr, ch, cnt, srv, h.releaseMore hc hne⟩
  | startsControl t hc => exact ⟨lc, tr, ch, cnt, _, h.startControl hc⟩

theorem Inv.step {a : Action} (h : Inv start P s lc tr ch cnt srv) {s' : State}
    (hpos : positive s a)
    (hP : ∀ c b w, a = .advance c b → s.pc c = .awaitSub w → P → s.activeCount ≤ 0)
    (hs : step s a = some s') :
    ∃ lc' tr' ch' cnt' srv', Inv start P s' lc' tr' ch' cnt' srv' := by
  cases a with
  | tryAquire c =>
      simp only [CountingSemaphore.step] at hs
      split at hs
      · rename_i hc
        obtain rfl := Option.some.inj hs
        exact ⟨lc, tr, ch, cnt, srv, h.goto_same hc rfl rfl rfl (by simp)⟩
      · cases hs
  | coAwait c w t =>
      simp only [CountingSemaphore.step] at hs
      split at hs
      · rename_i hc
        obtain rfl := Option.some.inj hs
        exact ⟨lc, tr, ch, cnt, srv, h.coAwait t hc.1 hc.2⟩
      · cases hs
  | release c n t =>
      simp only [CountingSemaphore.step] at hs
      split at hs
      · rename_i hc
        obtain rfl := Option.some.inj hs
        refine ⟨lc, tr, ch, cnt, srv, h.goto_same hc rfl rfl rfl ?_⟩
        intro m u hm
        cases hm
        exact hpos
      · cases hs
  | advance c spurious => exact h.advance (fun w hw => hP c spurious w rfl hw) hs
  | control k => exact h.advanceControl hs

theorem inv_init (P : Prop) (hP : P → 0 ≤ start) :
    Inv start P (init start) [] [] [] [] .nobody := by
  refine ⟨WaitQueue.init _ _ _ fun c => rfl, rfl, rfl, rfl, ?_, List.nodup_nil, ?_, ?_, ?_, ?_, ?_,
    ?_, fun _ _ => rfl, ?_, ?_⟩
  · simp [init, Pc.counted]
  · simp [init]
  · intro hstart
    simpa [init, State.serving, ControlPc.owes] using hstart
  · exact fun _ => Nat.zero_le _
  · intro p
    simpa [init, State.serving, ControlPc.owes] using hP p
  · simp [init, Pc.starting]
  · simp [init, ControlPc.active]
  · simp [init]
  · simp [init]

theorem Reachable.inv (h : Reachable start s) :
    ∃ lc tr ch cnt srv, Inv start False s lc tr ch cnt srv := by
  refine Reaches.invariant (I := fun s => ∃ lc tr ch cnt srv, Inv start False s lc tr ch cnt srv)
    h ?_ ?_
  · rintro s rfl
    exact ⟨[], [], [], [], .nobody, inv_init False False.elim⟩
  · rintro s a s' - ⟨lc, tr, ch, cnt, srv, h⟩ hpos hs
    exact h.step hpos (fun _ _ _ _ _ p => p.elim) hs

end

end Zab.CountingSemaphore
