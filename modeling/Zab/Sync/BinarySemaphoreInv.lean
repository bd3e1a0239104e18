import Zab.Basic.WaitQueue
import Zab.Sync.BinarySemaphore
import Mathlib.Tactic

set_option autoImplicit false

/-! # The binary semaphore keeps its owner and its queue

The waiting coroutines are spread over three lists: the chain at `resuming`, `transfer`, and
the list that a release is reversing. `Inv` names the three lists and says that together, in
one fixed order, they are the coroutines pushed and not yet resumed. A push appends to that
order, the exchange and every round of the reversing loop keep it, and a hand-off takes its
first element.
-/

namespace Zab.BinarySemaphore

open Automaton

/-! ## Views of the program counter -/

/-- What a coroutine at this place has to do with the queue. -/
def Pc.status : Pc → Waiting
  | .awaitReady w => .holding w
  | .suspendLoad w | .suspendLoop w _ => .named w
  | .suspended w => .asleep w
  | _ => .out

def Pc.releasing : Pc → Bool
  | .releaseStart | .releaseCas | .releaseExchange | .releaseReverse _ _
  | .releaseTransfer _ | .releaseResume _ => true
  | _ => false

theorem Pc.eq_of_asleep {q : Pc} {w : Addr} (h : q.status = .asleep w) :
    q = .suspended w := by
  cases q <;> simp_all [Pc.status]

theorem Pc.status_of_releasing {q : Pc} (h : q.releasing = true) : q.status = .out := by
  cases q <;> simp_all [Pc.status, Pc.releasing]

theorem Pc.releasing_of_node {q : Pc} {w : Addr} (h : q.status.node = some w) :
    q.releasing = false := by
  cases q <;> simp_all [Pc.status, Pc.releasing]

/-- The link stored in the `waiter` at `w`. -/
def State.next (s : State) (w : Addr) : Nat := (s.mem w.val).nextWaiting

def State.handle (s : State) (w : Addr) : Option Coro := (s.mem w.val).handle

/-! ## The invariant -/

/-- What the owner's program counter says about the three lists. -/
def Local (next : Addr → Nat) (lc tr ch : List Addr) : Pc → Prop
  | .releaseCas => lc = [] ∧ tr = []
  | .releaseExchange => lc = [] ∧ tr = [] ∧ ch ≠ []
  | .releaseReverse head nxt => tr = [] ∧ Chain.Reversing Addr.val next kLockFlag 0 head nxt lc
  | .releaseTransfer head => tr = [] ∧ lc ≠ [] ∧ Chain Addr.val next 0 head lc
  | .releaseResume head => ∃ w, head = Addr.val w ∧ lc = [w]
  | _ => lc = []

/-- The invariant, for the local list `lc` of the release in progress, the list `tr` at
`transfer` and the chain `ch` at `resuming`. -/
structure Inv (s : State) (lc tr ch : List Addr) : Prop where
  queue : WaitQueue (fun c => (s.pc c).status) s.live s.handle (lc ++ tr ++ ch.reverse)
    s.pushed (s.resumed.map Prod.fst)
  owner : ∀ c d, s.owns c = true → s.owns d = true → c = d
  free : s.resuming = 0 ↔ ∀ c, s.owns c = false
  root : s.resuming ≠ 0 → Chain Addr.val s.next kLockFlag s.resuming ch
  empty : s.resuming = 0 → lc = [] ∧ tr = [] ∧ ch = []
  trans : Chain Addr.val s.next 0 s.transfer tr
  releasing : ∀ c, (s.pc c).releasing = true → s.owns c = true
  loc : ∀ c, s.owns c = true → Local s.next lc tr ch (s.pc c)

section

variable {s : State} {lc tr ch : List Addr}

@[simp] theorem goto_pc (s : State) (c d : Coro) (q : Pc) :
    (s.goto c q).pc d = if d = c then q else s.pc d := Function.update_apply ..

theorem goto_self (s : State) (c : Coro) (q : Pc) : (s.goto c q).pc c = q := by simp

theorem Local.congr {next next' : Addr → Nat} {q : Pc} (h : Local next lc tr ch q)
    (heq : ∀ w ∈ lc, next' w = next w) : Local next' lc tr ch q := by
  cases q with
  | releaseReverse head nxt => exact ⟨h.1, h.2.congr heq⟩
  | releaseTransfer head => exact ⟨h.1, h.2.1, h.2.2.congr heq⟩
  | _ => exact h

/-- Outside `release` the local list is empty. -/
theorem Local.iff_nil {next : Addr → Nat} {q : Pc} (hq : q.releasing = false) :
    Local next lc tr ch q ↔ lc = [] := by
  cases q <;> simp_all [Local, Pc.releasing]

theorem Inv.owned (h : Inv s lc tr ch) {c : Coro} (how : s.owns c = true) : s.resuming ≠ 0 := by
  intro hz
  rw [h.free.mp hz c] at how; cases how

/-- A step of `c` that leaves the word, the lists and the owner alone, given what it does to
the queue. -/
theorem Inv.goto (h : Inv s lc tr ch) {c : Coro} {q : Pc} {live : Nat → Bool}
    (hq : WaitQueue (fun d => ((s.goto c q).pc d).status) live s.handle (lc ++ tr ++ ch.reverse)
      s.pushed (s.resumed.map Prod.fst))
    (hr : q.releasing = true → s.owns c = true)
    (hl : s.owns c = true → Local s.next lc tr ch q) :
    Inv { s.goto c q with live := live } lc tr ch := by
  refine { h with queue := hq, releasing := ?_, loc := ?_ }
  · exact (Function.forall_update_iff s.pc fun d q => q.releasing = true → s.owns d = true).mpr
      ⟨hr, fun d _ => h.releasing d⟩
  · exact (Function.forall_update_iff s.pc fun d q => s.owns d = true →
      Local s.next lc tr ch q).mpr ⟨hl, fun d _ => h.loc d⟩

/-- A step outside `release`. -/
theorem Inv.goto_outside (h : Inv s lc tr ch) {c : Coro} {q : Pc} {live : Nat → Bool}
    (hq : WaitQueue (fun d => ((s.goto c q).pc d).status) live s.handle (lc ++ tr ++ ch.reverse)
      s.pushed (s.resumed.map Prod.fst))
    (hc : (s.pc c).releasing = false) (hr : q.releasing = false) :
    Inv { s.goto c q with live := live } lc tr ch := by
  refine h.goto hq (fun hr' => ?_) (fun how => ?_)
  · rw [hr] at hr'; cases hr'
  · rw [Local.iff_nil hr]
    exact (Local.iff_nil hc).mp (h.loc c how)

/-- A step outside `release` that leaves the queue alone. -/
theorem Inv.goto_same (h : Inv s lc tr ch) {c : Coro} {p q : Pc} (hc : s.pc c = p)
    (hq : q.status = p.status) (hp : p.releasing = false) (hr : q.releasing = false) :
    Inv (s.goto c q) lc tr ch := by
  subst hc
  exact h.goto_outside (h.queue.congr (update_unseen Pc.status hq)) hp hr

/-- What a write does to the links, -/
theorem write_next (s : State) (w : Addr) (n : Waiter) :
    (s.write w.val n).next = Function.update s.next w n.nextWaiting := Addr.update_field ..

/-- and to the names. -/
theorem write_handle (s : State) (w : Addr) (n : Waiter) :
    (s.write w.val n).handle = Function.update s.handle w n.handle := Addr.update_field ..

theorem next_write {w v : Addr} {n : Waiter} (h : v ≠ w) : (s.write w.val n).next v = s.next v := by
  rw [write_next, Function.update_of_ne h]

theorem handle_write {w v : Addr} {n : Waiter} (h : v ≠ w) :
    (s.write w.val n).handle v = s.handle v := by
  rw [write_handle, Function.update_of_ne h]

theorem handle_write_self {w : Addr} {n : Waiter} : (s.write w.val n).handle w = n.handle := by
  rw [write_handle, Function.update_self]

theorem next_link (s : State) (w : Addr) (head : Nat) :
    (fun v : Addr =>
        ((s.write w.val { s.mem w.val with nextWaiting := head }).mem v.val).nextWaiting)
      = Function.update s.next w head := write_next ..

/-- A write to a link keeps the names. -/
theorem handle_link (s : State) (w : Addr) (head : Nat) :
    (s.write w.val { s.mem w.val with nextWaiting := head }).handle = s.handle := by
  rw [write_handle]
  exact Function.update_eq_self w s.handle

/-- Writing to a `waiter` that nobody sleeps on, given what it does to the names. -/
theorem Inv.write (h : Inv s lc tr ch) {w : Addr} {n : Waiter} (hw : ∀ c, s.pc c ≠ .suspended w)
    (hq : WaitQueue (fun c => (s.pc c).status) s.live (s.write w.val n).handle
      (lc ++ tr ++ ch.reverse) s.pushed (s.resumed.map Prod.fst)) :
    Inv (s.write w.val n) lc tr ch := by
  have hne : ∀ v ∈ lc ++ tr ++ ch.reverse, v ≠ w := by
    rintro v hv rfl
    obtain ⟨c, hc⟩ := (h.queue.mem v).mp hv
    exact hw c (Pc.eq_of_asleep hc)
  refine { h with queue := hq, root := ?_, trans := ?_, loc := ?_ }
  · intro hr
    exact (h.root hr).congr fun v hv => next_write (hne v (by simp [hv]))
  · exact h.trans.congr fun v hv => next_write (hne v (by simp [hv]))
  · intro c hc
    exact (h.loc c hc).congr fun v hv => next_write (hne v (by simp [hv]))

/-- The free semaphore is taken by `c`. -/
theorem Inv.lock (h : Inv s lc tr ch) {c : Coro} (h0 : s.resuming = 0)
    (hr : (s.pc c).releasing = false) :
    Inv { s.setOwner c true with resuming := kLockFlag } lc tr ch := by
  obtain ⟨rfl, rfl, rfl⟩ := h.empty h0
  have hno := h.free.mp h0
  have howns : ∀ d, (s.setOwner c true).owns d = true ↔ d = c := by
    intro d
    by_cases hd : d = c
    · simp [State.setOwner, hd]
    · simp [State.setOwner, hd, hno d]
  refine { h with owner := ?_, free := ?_, root := ?_, empty := ?_, releasing := ?_, loc := ?_ }
  · intro d e hd he
    rw [(howns d).mp hd, (howns e).mp he]
  · constructor
    · intro hk; cases hk
    · intro hall
      have := (howns c).mpr rfl
      rw [hall c] at this; cases this
  · intro _; rfl
  · intro hk; cases hk
  · intro d hd
    have := h.releasing d hd
    rw [hno d] at this; cases this
  · intro d hd
    obtain rfl := (howns d).mp hd
    exact (Local.iff_nil hr).mpr rfl

/-- A `co_await` that finds the semaphore free owns it. -/
theorem Inv.enter (h : Inv s lc tr ch) {c : Coro} {w : Addr} (h0 : s.resuming = 0)
    (hw : (s.pc c).status.node = some w) (ha : (s.pc c).status.sleeps = false) :
    Inv { s.enter c w.val with resuming := kLockFlag } lc tr ch := by
  have hr := Pc.releasing_of_node hw
  have hq : WaitQueue (fun d => ((s.goto c .idle).pc d).status) _ _ _ _ _ :=
    h.queue.leave hw ha (by simp [Pc.status]) (fun d hd => by simp [hd])
  exact (h.lock h0 hr).goto_outside hq hr rfl

/-- A `co_await` starts with a `waiter` at a free address. -/
theorem Inv.coAwait (h : Inv s lc tr ch) {c : Coro} {w : Addr} (t : ThreadT) (hc : s.pc c = .idle)
    (hw : s.live w.val = false) :
    Inv { (s.write w.val ⟨t, 0, none⟩).goto c (.awaitReady w) with
      live := Function.update s.live w.val true } lc tr ch := by
  have hfree := h.queue.slots.free hw
  have h0 : Inv (s.write w.val ⟨t, 0, none⟩) lc tr ch := by
    refine h.write (fun d hd => hfree d (by simp [hd, Pc.status])) (h.queue.write fun d v hv => ?_)
    refine handle_write ?_
    rintro rfl
    exact hfree d (Waiting.node_of_nameNode hv)
  refine h0.goto_outside ?_ (by show (s.pc c).releasing = false; rw [hc]; rfl) rfl
  refine h0.queue.take (c := c) hw ?_ ?_ ?_ (fun v _ => rfl)
  · simp [State.write, hc, Pc.status]
  · simp [Pc.status]
  · intro d hd
    simp [hd]

/-- `await_suspend` stores the handle. -/
theorem Inv.name (h : Inv s lc tr ch) {c : Coro} {w : Addr} (hc : s.pc c = .awaitReady w) :
    Inv ((s.write w.val { s.mem w.val with handle := some c }).goto c (.suspendLoad w))
      lc tr ch := by
  set s₁ := s.write w.val { s.mem w.val with handle := some c } with hs₁
  have hone : ∀ d, (s.pc d).status.node = some w → d = c :=
    fun d hd => h.queue.eq_of_node hd (by simp [hc, Pc.status])
  have h0 : Inv s₁ lc tr ch := by
    refine h.write (fun d hd => ?_) (h.queue.write fun d v hv => handle_write ?_)
    · obtain rfl := hone d (by simp [hd, Pc.status])
      rw [hc] at hd; cases hd
    · rintro rfl
      obtain rfl := hone d (Waiting.node_of_nameNode hv)
      simp [hc, Pc.status] at hv
  show Inv { s₁.goto c (.suspendLoad w) with live := s₁.live } lc tr ch
  refine h0.goto_outside ?_ (by show (s.pc c).releasing = false; rw [hc]; rfl) rfl
  refine h0.queue.name (c := c) (w := w) ?_ ?_ ?_ handle_write_self (fun v _ => rfl)
  · simp [hs₁, State.write, hc, Pc.status]
  · simp [Pc.status]
  · intro d hd
    simp [hd]

/-- The link of the own `waiter` is written before the push. -/
theorem Inv.link (h : Inv s lc tr ch) {c : Coro} {w : Addr} (previous : Nat)
    (hc : (s.pc c).status = .named w) :
    Inv (s.write w.val { s.mem w.val with nextWaiting := previous }) lc tr ch := by
  refine h.write (fun d hd => ?_) (h.queue.write fun d v _ => ?_)
  · obtain rfl : d = c := h.queue.eq_of_node (w := w) (by simp [hd, Pc.status]) (by simp [hc])
    rw [hd] at hc; cases hc
  · rw [handle_link]

/-- **The push.** The compare-and-swap succeeds, and `w` links to the root it replaces. -/
theorem Inv.push (h : Inv s lc tr ch) {c : Coro} {w : Addr} (hc : (s.pc c).status = .named w)
    (hn : s.next w = s.resuming) (h0 : s.resuming ≠ 0) :
    Inv { s.goto c (.suspended w) with resuming := w.val, pushed := s.pushed ++ [c] }
      lc tr (w :: ch) := by
  have hrel := Pc.releasing_of_node (q := s.pc c) (w := w) (by simp [hc])
  refine ⟨?_, h.owner, ?_, fun _ => (h.root h0).push hn, fun hz => absurd hz w.val_ne_zero,
    h.trans, ?_, ?_⟩
  · -- queue: the push comes last
    have hq : WaitQueue (fun d => ((s.goto c (.suspended w)).pc d).status) _ _ _ _ _ :=
      h.queue.push hc (by simp [Pc.status]) (fun d hd => by simp [hd])
    rwa [List.append_assoc, ← List.reverse_cons] at hq
  · have hne : ¬ ∀ d, s.owns d = false := fun hall => h0 (h.free.mpr hall)
    exact ⟨fun hz => absurd hz w.val_ne_zero, fun hall => absurd hall hne⟩
  · intro d hd
    refine h.releasing d ?_
    by_cases hdc : d = c
    · subst hdc; simp [Pc.releasing] at hd
    · simpa [hdc] using hd
  · -- loc: only the owner looks at the lists, and `ch` is not empty afterwards
    intro d hd
    show Local s.next lc tr (w :: ch) ((s.goto c (.suspended w)).pc d)
    have hloc := h.loc d hd
    by_cases hdc : d = c
    · subst hdc
      rw [goto_self]
      exact (Local.iff_nil hrel).mp hloc
    · rw [goto_pc, if_neg hdc]
      cases hq : s.pc d <;> simp_all [Local]

/-! ### Release -/

/-- A step of a release that moves waiters between the three lists and keeps their order. -/
theorem Inv.relist (h : Inv s lc tr ch) {c : Coro} {q : Pc} {lc' tr' ch' : List Addr} {r t : Nat}
    {m : Nat → Waiter} (hc : (s.pc c).releasing = true) (hq : q.releasing = true)
    (hqueue : lc' ++ tr' ++ ch'.reverse = lc ++ tr ++ ch.reverse)
    (hm : ∀ w : Addr, (m w.val).handle = s.handle w)
    (hroot : r ≠ 0 ∧ Chain Addr.val (fun w => (m w.val).nextWaiting) kLockFlag r ch')
    (htrans : Chain Addr.val (fun w => (m w.val).nextWaiting) 0 t tr')
    (hloc : Local (fun w => (m w.val).nextWaiting) lc' tr' ch' q) :
    Inv { s.goto c q with resuming := r, transfer := t, mem := m } lc' tr' ch' := by
  have how : s.owns c = true := h.releasing c hc
  have hst : ∀ d, ((s.goto c q).pc d).status = (s.pc d).status := by
    intro d
    by_cases hdc : d = c
    · rw [hdc, goto_self, Pc.status_of_releasing hc, Pc.status_of_releasing hq]
    · simp [hdc]
  refine ⟨?_, h.owner, ?_, fun _ => hroot.2, fun hz => absurd hz hroot.1, htrans, ?_, ?_⟩
  · -- queue: the same waiters in the same order
    rw [hqueue]
    exact (h.queue.congr hst).write fun d w _ => hm w
  · refine ⟨fun hz => absurd hz hroot.1, fun hall => ?_⟩
    have hall : s.owns c = false := hall c
    rw [hall] at how; cases how
  · intro d hd
    by_cases hdc : d = c
    · subst hdc; exact how
    · exact h.releasing d (by simpa [hdc] using hd)
  · intro d hd
    obtain rfl := h.owner c d how hd
    show Local _ lc' tr' ch' ((s.goto c q).pc c)
    rw [goto_self]
    exact hloc

/-- The release finds a waiter in `transfer`. -/
theorem Inv.takeTransfer (h : Inv s lc tr ch) {c : Coro} (hc : s.pc c = .releaseStart)
    (h0 : s.transfer ≠ 0) : ∃ w tr',
      Inv { s.goto c (.releaseResume s.transfer) with transfer := (s.mem s.transfer).nextWaiting }
        [w] tr' ch := by
  have how : s.owns c = true := h.releasing c (by rw [hc]; rfl)
  have hlc : lc = [] := by simpa [hc, Local] using h.loc c how
  subst hlc
  cases tr with
  | nil => exact absurd h.trans h0
  | cons w tr' =>
    obtain ⟨hw, htr⟩ := h.trans
    rw [hw]
    refine ⟨w, tr', h.relist (by rw [hc]; rfl) rfl (by simp) (fun _ => rfl)
      ⟨h.owned how, h.root (h.owned how)⟩ htr ⟨w, rfl, rfl⟩⟩

/-- Without waiters, the release stores `0`. -/
theorem Inv.unlock (h : Inv s lc tr ch) {c : Coro} (hc : s.pc c = .releaseCas)
    (hk : s.resuming = kLockFlag) :
    Inv { (s.goto c .idle).setOwner c false with resuming := 0 } lc tr ch := by
  have how : s.owns c = true := h.releasing c (by rw [hc]; rfl)
  obtain ⟨rfl, rfl⟩ : lc = [] ∧ tr = [] := by simpa [hc, Local] using h.loc c how
  have hch : ch = [] := by
    have hroot := h.root (by rw [hk]; decide)
    exact (hroot.root_eq_stop (fun a => a.val_ne_one)).mp hk
  subst hch
  have hno : ∀ d, ((s.goto c .idle).setOwner c false).owns d = false := by
    intro d
    show Function.update s.owns c false d = false
    by_cases hdc : d = c
    · rw [hdc, Function.update_self]
    · rw [Function.update_of_ne hdc]
      by_contra hd
      exact hdc (h.owner d c (by simpa using hd) how)
  have hst : ∀ d, ((s.goto c .idle).pc d).status = (s.pc d).status :=
    update_unseen _ (by rw [hc]; rfl)
  refine ⟨h.queue.congr hst, ?_, ⟨fun _ => hno, fun _ => rfl⟩, fun hz => absurd rfl hz,
    fun _ => ⟨rfl, rfl, rfl⟩, h.trans, ?_, ?_⟩
  · intro d e hd
    rw [show _ = false from hno d] at hd; cases hd
  · intro d hd
    have hd : ((s.goto c .idle).pc d).releasing = true := hd
    have hdc : d ≠ c := by
      rintro rfl
      simp [Pc.releasing] at hd
    rw [goto_pc, if_neg hdc] at hd
    exact absurd (h.owner d c (h.releasing d hd) how) hdc
  · intro d hd
    rw [show _ = false from hno d] at hd; cases hd

/-- **The exchange.** The whole list moves from `resuming` to the local list of the release. -/
theorem Inv.exchange (h : Inv s lc tr ch) {c : Coro} (hc : s.pc c = .releaseExchange) :
    Inv { s.goto c (.releaseReverse 0 s.resuming) with resuming := kLockFlag }
      ch.reverse [] [] := by
  have how : s.owns c = true := h.releasing c (by rw [hc]; rfl)
  obtain ⟨rfl, rfl, hne⟩ : lc = [] ∧ tr = [] ∧ ch ≠ [] := by simpa [hc, Local] using h.loc c how
  refine h.relist (by rw [hc]; rfl) rfl (by simp) (fun _ => rfl) ⟨by decide, rfl⟩ h.trans ?_
  exact ⟨rfl, Chain.Reversing.start hne (h.root (h.owned how)) 0⟩

/-- **One round of the reversing loop.** The first node of the part still to do becomes the
first node of the part done; the order of the waiters stays the same. -/
theorem Inv.reverse (h : Inv s lc tr ch) {c : Coro} {head nxt : Nat}
    (hc : s.pc c = .releaseReverse head nxt) :
    Inv ((s.write nxt { s.mem nxt with nextWaiting := head }).goto c
      (if (s.mem nxt).nextWaiting ≠ 0 ∧ (s.mem nxt).nextWaiting ≠ kLockFlag
        then .releaseReverse nxt (s.mem nxt).nextWaiting else .releaseTransfer nxt)) lc tr ch := by
  have how : s.owns c = true := h.releasing c (by rw [hc]; rfl)
  have hloc := h.loc c how
  rw [hc] at hloc
  obtain ⟨rfl, hrev⟩ := hloc
  have hnd := h.queue.nodup
  rw [List.append_nil, List.nodup_append] at hnd
  obtain ⟨w, hw, rfl, hround⟩ := hrev.round hnd.1
  have hch : w ∉ ch := fun hm => hnd.2.2 w hw w (List.mem_reverse.mpr hm) rfl
  refine h.relist (m := (s.write w.val { s.mem w.val with nextWaiting := head }).mem)
    (by rw [hc]; rfl) ?_ rfl (congrFun (handle_link s w head)) ?_ ?_ ?_
  · split <;> rfl
  · rw [next_link]
    exact ⟨h.owned how, (h.root (h.owned how)).update_of_notMem hch head⟩
  · exact h.trans
  · rw [next_link]
    rcases hround with ⟨hstop, hdone⟩ | ⟨b, hb, hmore⟩
    · rw [if_neg (fun hcond => hcond.2 hstop)]
      exact ⟨rfl, fun hnil => by simp [hnil] at hw, hdone⟩
    · have hb : (s.mem w.val).nextWaiting = b.val := hb
      rw [if_pos ⟨hb ▸ b.val_ne_zero, hb ▸ b.val_ne_one⟩]
      exact ⟨rfl, hmore⟩

/-- The reversed list becomes the new `transfer`, except for its first waiter. -/
theorem Inv.takeLocal (h : Inv s lc tr ch) {c : Coro} {head : Nat}
    (hc : s.pc c = .releaseTransfer head) : ∃ w tr',
      Inv { s.goto c (.releaseResume head) with transfer := (s.mem head).nextWaiting }
        [w] tr' ch := by
  have how : s.owns c = true := h.releasing c (by rw [hc]; rfl)
  have hloc := h.loc c how
  rw [hc] at hloc
  obtain ⟨rfl, hne, hchain⟩ := hloc
  cases lc with
  | nil => exact absurd rfl hne
  | cons w l =>
    obtain ⟨rfl, hl⟩ := hchain
    exact ⟨w, l, h.relist (by rw [hc]; rfl) rfl (by simp) (fun _ => rfl)
      ⟨h.owned how, h.root (h.owned how)⟩ hl ⟨w, rfl, rfl⟩⟩

/-- The waiter that a release is about to resume. -/
theorem Inv.resumes (h : Inv s lc tr ch) {c : Coro} {head : Nat}
    (hc : s.pc c = .releaseResume head) :
    ∃ w d, head = Addr.val w ∧ lc = [w] ∧ s.pc d = .suspended w ∧ s.handle w = some d ∧
      c ≠ d := by
  have hloc := h.loc c (h.releasing c (by rw [hc]; rfl))
  rw [hc] at hloc
  obtain ⟨w, hw, rfl⟩ := hloc
  obtain ⟨d, hd, hh⟩ := h.queue.head
  have hd := Pc.eq_of_asleep hd
  refine ⟨w, d, hw, rfl, hd, hh, ?_⟩
  rintro rfl
  rw [hc] at hd
  cases hd

/-- **The hand-off.** The waiter given to `thread_resume` is the next owner. -/
theorem Inv.resume (h : Inv s lc tr ch) {c : Coro} {head : Nat}
    (hc : s.pc c = .releaseResume head) :
    Inv (((s.setOwner c false).threadResume head).goto c .idle) [] tr ch := by
  have how : s.owns c = true := h.releasing c (by rw [hc]; rfl)
  obtain ⟨w, d, rfl, rfl, hd, hh, hdc⟩ := h.resumes hc
  obtain ⟨s', hdef⟩ : ∃ s', s' = ((s.setOwner c false).threadResume w.val).goto c .idle := ⟨_, rfl⟩
  have hform : s' = { s with
      pc := Function.update (Function.update s.pc d .idle) c .idle
      owns := Function.update (Function.update s.owns c false) d true
      live := Function.update s.live w.val false
      resumed := s.resumed ++ [(some d, (s.mem w.val).thread)] } := by
    have hh : (s.mem w.val).handle = some d := hh
    rw [hdef]
    simp [State.threadResume, State.setOwner, State.enter, State.goto, hh]
  rw [← hdef]
  have hpc : ∀ e, s'.pc e = if e = c then .idle else if e = d then .idle else s.pc e := by
    intro e
    rw [hform]
    simp only [Function.update_apply]
  have howns : ∀ e, s'.owns e = true ↔ e = d := by
    intro e
    rw [hform]
    simp only [Function.update_apply]
    split
    · rename_i hed
      simp [hed]
    · rename_i hed
      split
      · simp [hed]
      · rename_i hec
        exact ⟨fun he => absurd (h.owner e c he how) hec, fun he => absurd he hed⟩
  have hst : ∀ e, e ≠ d → (s'.pc e).status = (s.pc e).status := by
    intro e hed
    rw [hpc, if_neg hed]
    split
    · rename_i hec
      rw [hec, hc]
      rfl
    · rfl
  have hpop : WaitQueue (fun e => (s'.pc e).status) _ _ _ _ _ :=
    h.queue.pop (c := d) (w := w) (by simp [hd, Pc.status]) (by simp [hpc, Pc.status]) hst
  have hroot := h.root
  have hres : s.resuming ≠ 0 := h.owned how
  refine ⟨?_, ?_, ?_, ?_, ?_, ?_, ?_, ?_⟩
  · -- queue
    rw [hform] at hpop ⊢
    simp only [List.map_append, List.map_cons, List.map_nil]
    exact hpop
  · -- owner: `d`, and nobody else
    intro e f he hf
    rw [(howns e).mp he, (howns f).mp hf]
  · -- free
    refine ⟨fun hz => absurd (by rw [hform] at hz; exact hz) hres, fun hall => ?_⟩
    have := (howns d).mpr rfl
    rw [hall d] at this; cases this
  · rw [hform]; exact hroot
  · intro hz
    rw [hform] at hz
    exact absurd hz hres
  · rw [hform]; exact h.trans
  · -- releasing: whoever is in a release owns the semaphore, and `c` has left
    intro e he
    rw [hpc] at he
    split at he
    · cases he
    · rename_i hec
      split at he
      · cases he
      · exact absurd (h.owner e c (h.releasing e he) how) hec
  · -- loc: the new owner is not in a release
    intro e he
    rw [(howns e).mp he, hpc, if_pos rfl]
    split <;> rfl

/-! ### Every step -/

/-- A step of the owner that leaves the queue alone. -/
theorem Inv.goto_owner (h : Inv s lc tr ch) {c : Coro} {p q : Pc} (hc : s.pc c = p)
    (hq : q.status = p.status) (how : s.owns c = true) (hl : Local s.next lc tr ch q) :
    Inv (s.goto c q) lc tr ch := by
  subst hc
  exact h.goto (h.queue.congr (update_unseen Pc.status hq)) (fun _ => how) (fun _ => hl)

/-- What a step of `c` does, and when. -/
inductive Advances (s : State) (c : Coro) : State → Prop
  | tryTakes (hpc : s.pc c = .tryAquire) (hfree : s.resuming = 0) :
      Advances s c { (s.goto c .idle).setOwner c true with resuming := kLockFlag }
  | tryFails (hpc : s.pc c = .tryAquire) (hne : s.resuming ≠ 0) : Advances s c (s.goto c .idle)
  | isReady (w : Addr) (hpc : s.pc c = .awaitReady w) (hfree : s.resuming = 0) :
      Advances s c { s.enter c w.val with resuming := kLockFlag }
  | storesHandle (w : Addr) (hpc : s.pc c = .awaitReady w) (hne : s.resuming ≠ 0) :
      Advances s c
        ((s.write w.val { s.mem w.val with handle := some c }).goto c (.suspendLoad w))
  | loads (w : Addr) (hpc : s.pc c = .suspendLoad w) :
      Advances s c (s.goto c (.suspendLoop w s.resuming))
  | takes (w : Addr) (hpc : s.pc c = .suspendLoop w 0) (hfree : s.resuming = 0) :
      Advances s c { s.enter c w.val with resuming := kLockFlag }
  | retriesTake (w : Addr) (hpc : s.pc c = .suspendLoop w 0) :
      Advances s c (s.goto c (.suspendLoop w s.resuming))
  | suspends (w : Addr) (previous : Nat) (hpc : s.pc c = .suspendLoop w previous)
      (hne : previous ≠ 0) (hword : s.resuming = previous) :
      Advances s c
        { (s.write w.val { s.mem w.val with nextWaiting := previous }).goto c (.suspended w) with
          resuming := w.val
          pushed := s.pushed ++ [c] }
  | retries (w : Addr) (previous : Nat) (hpc : s.pc c = .suspendLoop w previous)
      (hne : previous ≠ 0) :
      Advances s c ((s.write w.val { s.mem w.val with nextWaiting := previous }).goto c
        (.suspendLoop w s.resuming))
  | listEmpty (hpc : s.pc c = .releaseStart) (hzero : s.transfer = 0) :
      Advances s c (s.goto c .releaseCas)
  | listHead (hpc : s.pc c = .releaseStart) (hne : s.transfer ≠ 0) :
      Advances s c { s.goto c (.releaseResume s.transfer) with
        transfer := (s.mem s.transfer).nextWaiting }
  | unlocks (hpc : s.pc c = .releaseCas) (hlock : s.resuming = kLockFlag) :
      Advances s c { (s.goto c .idle).setOwner c false with resuming := 0 }
  | hasWaiters (hpc : s.pc c = .releaseCas) (hne : s.resuming ≠ kLockFlag) :
      Advances s c (s.goto c .releaseExchange)
  | exchanges (hpc : s.pc c = .releaseExchange) :
      Advances s c { s.goto c (.releaseReverse 0 s.resuming) with resuming := kLockFlag }
  | reverses (head next : Nat) (hpc : s.pc c = .releaseReverse head next)
      (hnext : (s.mem next).nextWaiting ≠ 0 ∧ (s.mem next).nextWaiting ≠ kLockFlag) :
      Advances s c ((s.write next { s.mem next with nextWaiting := head }).goto c
        (.releaseReverse next (s.mem next).nextWaiting))
  | reversed (head next : Nat) (hpc : s.pc c = .releaseReverse head next)
      (hlast : ¬ ((s.mem next).nextWaiting ≠ 0 ∧ (s.mem next).nextWaiting ≠ kLockFlag)) :
      Advances s c ((s.write next { s.mem next with nextWaiting := head }).goto c
        (.releaseTransfer next))
  | transfers (head : Nat) (hpc : s.pc c = .releaseTransfer head) :
      Advances s c { s.goto c (.releaseResume head) with transfer := (s.mem head).nextWaiting }
  | resumes (head : Nat) (hpc : s.pc c = .releaseResume head) :
      Advances s c (((s.setOwner c false).threadResume head).goto c .idle)

theorem advances_of_advance {s' : State} {c : Coro} {spurious : Bool}
    (hs : s.advance c spurious = some s') : Advances s c s' := by
  cases hc : s.pc c with
  | idle | suspended w => simp [State.advance, hc] at hs
  | tryAquire =>
      simp only [State.advance, hc] at hs
      split at hs <;> rename_i hfree <;> obtain rfl := Option.some.inj hs
      · exact .tryTakes hc hfree
      · exact .tryFails hc hfree
  | awaitReady w =>
      simp only [State.advance, hc] at hs
      split at hs <;> rename_i hfree <;> obtain rfl := Option.some.inj hs
      · exact .isReady w hc hfree
      · exact .storesHandle w hc hfree
  | suspendLoad w =>
      simp only [State.advance, hc] at hs
      obtain rfl := Option.some.inj hs
      exact .loads w hc
  | suspendLoop w previous =>
      simp only [State.advance, hc] at hs
      split at hs <;> rename_i hzero
      · subst hzero
        split at hs <;> obtain rfl := Option.some.inj hs
        · rename_i hcas
          exact .takes w hc hcas.1
        · exact .retriesTake w hc
      · split at hs <;> obtain rfl := Option.some.inj hs
        · rename_i hcas
          exact .suspends w previous hc hzero hcas.1
        · exact .retries w previous hc hzero
  | releaseStart =>
      simp only [State.advance, hc] at hs
      split at hs <;> rename_i hzero <;> obtain rfl := Option.some.inj hs
      · exact .listEmpty hc hzero
      · exact .listHead hc hzero
  | releaseCas =>
      simp only [State.advance, hc] at hs
      split at hs <;> rename_i hlock <;> obtain rfl := Option.some.inj hs
      · exact .unlocks hc hlock
      · exact .hasWaiters hc hlock
  | releaseExchange =>
      simp only [State.advance, hc] at hs
      obtain rfl := Option.some.inj hs
      exact .exchanges hc
  | releaseReverse head next =>
      simp only [State.advance, hc] at hs
      split at hs <;> rename_i hnext <;> obtain rfl := Option.some.inj hs
      · exact .reverses head next hc hnext
      · exact .reversed head next hc hnext
  | releaseTransfer head =>
      simp only [State.advance, hc] at hs
      obtain rfl := Option.some.inj hs
      exact .transfers head hc
  | releaseResume head =>
      simp only [State.advance, hc] at hs
      obtain rfl := Option.some.inj hs
      exact .resumes head hc

theorem Inv.advance {s' : State} {c : Coro} {spurious : Bool} (h : Inv s lc tr ch)
    (hs : s.advance c spurious = some s') : ∃ lc' tr' ch', Inv s' lc' tr' ch' := by
  have how : (s.pc c).releasing = true → s.owns c = true := h.releasing c
  cases advances_of_advance hs with
  | tryTakes hc hfree =>
      have hgo : Inv (s.goto c .idle) lc tr ch := h.goto_same hc rfl rfl rfl
      exact ⟨lc, tr, ch, hgo.lock (c := c) hfree (by simp [Pc.releasing])⟩
  | tryFails hc => exact ⟨lc, tr, ch, h.goto_same hc rfl rfl rfl⟩
  | isReady w hc hfree => exact ⟨lc, tr, ch, h.enter hfree (by rw [hc]; rfl) (by rw [hc]; rfl)⟩
  | storesHandle w hc => exact ⟨lc, tr, ch, h.name hc⟩
  | loads w hc => exact ⟨lc, tr, ch, h.goto_same hc rfl rfl rfl⟩
  | takes w hc hfree => exact ⟨lc, tr, ch, h.enter hfree (by rw [hc]; rfl) (by rw [hc]; rfl)⟩
  | retriesTake w hc => exact ⟨lc, tr, ch, h.goto_same hc rfl rfl rfl⟩
  | suspends w previous hc hne hword =>
      have h0 := h.link (c := c) (w := w) previous (by rw [hc]; rfl)
      have hc' : (s.write w.val { s.mem w.val with nextWaiting := previous }).pc c
          = .suspendLoop w previous := hc
      refine ⟨lc, tr, w :: ch, h0.push (by rw [hc']; rfl) ?_ (hword ▸ hne)⟩
      simpa [State.next, State.write] using hword.symm
  | retries w previous hc =>
      have h0 := h.link (c := c) (w := w) previous (by rw [hc]; rfl)
      have hc' : (s.write w.val { s.mem w.val with nextWaiting := previous }).pc c
          = .suspendLoop w previous := hc
      exact ⟨lc, tr, ch, h0.goto_same hc' rfl rfl rfl⟩
  | listEmpty hc hzero =>
      have how := how (by rw [hc]; rfl)
      have htr : tr = [] := (h.trans.root_eq_stop Addr.val_ne_zero).mp hzero
      have hlc : lc = [] := by simpa [hc, Local] using h.loc c how
      exact ⟨lc, tr, ch, h.goto_owner hc rfl how ⟨hlc, htr⟩⟩
  | listHead hc hne =>
      obtain ⟨w, tr', h'⟩ := h.takeTransfer hc hne
      exact ⟨[w], tr', ch, h'⟩
  | unlocks hc hlock => exact ⟨lc, tr, ch, h.unlock hc hlock⟩
  | hasWaiters hc hne =>
      have how := how (by rw [hc]; rfl)
      have hloc : lc = [] ∧ tr = [] := by simpa [hc, Local] using h.loc c how
      refine ⟨lc, tr, ch, h.goto_owner hc rfl how ⟨hloc.1, hloc.2, ?_⟩⟩
      -- the word is neither `0` nor the flag, so there is a list
      rintro rfl
      exact hne (h.root (h.owned how))
  | exchanges hc => exact ⟨_, _, _, h.exchange hc⟩
  | reverses head next hc hnext =>
      have h' := h.reverse hc
      rw [if_pos hnext] at h'
      exact ⟨lc, tr, ch, h'⟩
  | reversed head next hc hlast =>
      have h' := h.reverse hc
      rw [if_neg hlast] at h'
      exact ⟨lc, tr, ch, h'⟩
  | transfers head hc =>
      obtain ⟨w, tr', h'⟩ := h.takeLocal hc
      exact ⟨[w], tr', ch, h'⟩
  | resumes head hc => exact ⟨[], tr, ch, h.resume hc⟩

theorem Inv.step {s' : State} {a : Coro × Action} (h : Inv s lc tr ch)
    (hs : step s a = some s') : ∃ lc' tr' ch', Inv s' lc' tr' ch' := by
  obtain ⟨c, a⟩ := a
  cases a with
  | tryAquire =>
      simp only [BinarySemaphore.step] at hs
      split at hs
      · rename_i hc
        obtain rfl := Option.some.inj hs
        exact ⟨lc, tr, ch, h.goto_same hc rfl rfl rfl⟩
      · cases hs
  | coAwait w t =>
      simp only [BinarySemaphore.step] at hs
      split at hs
      · rename_i hc
        obtain rfl := Option.some.inj hs
        exact ⟨lc, tr, ch, h.coAwait t hc.1 hc.2⟩
      · cases hs
  | release =>
      simp only [BinarySemaphore.step] at hs
      split at hs
      · rename_i hc
        obtain rfl := Option.some.inj hs
        have hlc : lc = [] := by simpa [hc.1, Local] using h.loc c hc.2
        exact ⟨lc, tr, ch, h.goto_owner hc.1 rfl hc.2 hlc⟩
      · cases hs
  | advance spurious => exact h.advance hs

theorem inv_init (unlocked : Bool) (creator : Coro) : Inv (init unlocked creator) [] [] [] := by
  refine ⟨WaitQueue.init _ _ _ fun c => rfl, ?_, ?_, ?_, ?_, rfl, ?_, ?_⟩
  · intro c d hc hd
    simp only [init, Bool.and_eq_true, beq_iff_eq] at hc hd
    exact hc.2.trans hd.2.symm
  · cases unlocked <;> simp [init, kLockFlag]
  · cases unlocked <;> simp [init]
  · simp
  · simp [init, Pc.releasing]
  · simp [init, Local]

theorem Reachable.inv {unlocked : Bool} {creator : Coro} (h : Reachable unlocked creator s) :
    ∃ lc tr ch, Inv s lc tr ch := by
  refine Reaches.invariant (I := fun s => ∃ lc tr ch, Inv s lc tr ch) h ?_ ?_
  · rintro s rfl
    exact ⟨[], [], [], inv_init unlocked creator⟩
  · rintro s a s' - ⟨lc, tr, ch, h⟩ - hs
    exact h.step hs

/-! ## A release that is left alone finishes -/

/-- The release of `c`, when only `c` moves, ends with `c` no longer the owner: the semaphore is
free, or one more waiter has been resumed and owns it. -/
def Finishes (s : State) (c : Coro) : Prop :=
  ∃ m s', run BinarySemaphore.step anyStep s (List.replicate m (c, .advance false)) = some s' ∧
    s'.pc c = .idle ∧ s'.owns c = false ∧
    ((s'.resuming = 0 ∧ s'.resumed = s.resumed) ∨
      ∃ d t, s'.resumed = s.resumed ++ [(some d, t)] ∧ s'.owns d = true)

theorem Finishes.of_advance {s₁ : State} {c : Coro} (h : Finishes s₁ c)
    (hs : s.advance c false = some s₁) (hr : s₁.resumed = s.resumed) : Finishes s c := by
  obtain ⟨m, s', hrun, hpc, how, hend⟩ := h
  refine ⟨m + 1, s', ?_, hpc, how, hr ▸ hend⟩
  have hs : BinarySemaphore.step s (c, .advance false) = some s₁ := hs
  rw [List.replicate_succ, run_cons trivial hs]
  exact hrun

/-- The last step of a release. -/
theorem Finishes.last {s' : State} {c : Coro} (hs : s.advance c false = some s')
    (hpc : s'.pc c = .idle) (how : s'.owns c = false)
    (hend : (s'.resuming = 0 ∧ s'.resumed = s.resumed) ∨
      ∃ d t, s'.resumed = s.resumed ++ [(some d, t)] ∧ s'.owns d = true) : Finishes s c := by
  have hs : BinarySemaphore.step s (c, .advance false) = some s' := hs
  exact ⟨1, s', run_cons trivial hs, hpc, how, hend⟩

theorem Inv.finishes_resume (h : Inv s lc tr ch) {c : Coro} {head : Nat}
    (hc : s.pc c = .releaseResume head) : Finishes s c := by
  obtain ⟨w, d, rfl, rfl, -, hh, hdc⟩ := h.resumes hc
  have hh : (s.mem w.val).handle = some d := hh
  refine Finishes.last (by simp only [State.advance, hc]; rfl) ?_ ?_
    (Or.inr ⟨d, (s.mem w.val).thread, ?_, ?_⟩)
  all_goals simp [State.threadResume, State.setOwner, State.enter, State.goto, hh, hdc]

theorem Inv.finishes_transfer (h : Inv s lc tr ch) {c : Coro} {head : Nat}
    (hc : s.pc c = .releaseTransfer head) : Finishes s c := by
  obtain ⟨w, tr', h'⟩ := h.takeLocal hc
  exact (h'.finishes_resume (goto_self ..)).of_advance (by simp only [State.advance, hc]) rfl

/-- The reversing loop: the part still to do gets shorter in every round. -/
theorem Inv.finishes_reverse {c : Coro} (rest : List Addr) : ∀ {s : State} {head nxt : Nat},
    Inv s lc tr ch → s.pc c = .releaseReverse head nxt →
    Chain Addr.val s.next kLockFlag nxt rest → rest.Nodup → Finishes s c := by
  induction rest with
  | nil =>
      intro s head nxt h hc hrest _
      -- the loop is entered with a node to do
      have hloc := h.loc c (h.releasing c (by rw [hc]; rfl))
      rw [hc] at hloc
      have hnd := h.queue.nodup
      rw [List.append_assoc, List.nodup_append] at hnd
      obtain ⟨a, -, ha, -⟩ := hloc.2.round hnd.1
      exact absurd (ha.symm.trans hrest) a.val_ne_one
  | cons w rest ih =>
      intro s head nxt h hc hrest hnd
      have h' := h.reverse hc
      obtain ⟨rfl, hrest⟩ := hrest
      obtain ⟨hw, hnd⟩ := List.nodup_cons.mp hnd
      split at h'
      · rename_i hcond
        refine (ih h' (goto_self ..) (hrest.congr fun v hv => next_write ?_) hnd).of_advance ?_ rfl
        · rintro rfl
          exact hw hv
        · simp only [State.advance, hc]
          exact if_pos hcond
      · rename_i hcond
        refine (h'.finishes_transfer (goto_self ..)).of_advance ?_ rfl
        simp only [State.advance, hc]
        exact if_neg hcond

theorem Inv.finishes_exchange (h : Inv s lc tr ch) {c : Coro} (hc : s.pc c = .releaseExchange) :
    Finishes s c := by
  have how : s.owns c = true := h.releasing c (by rw [hc]; rfl)
  have hnd : ch.Nodup := List.nodup_reverse.mp (List.nodup_append.mp h.queue.nodup).2.1
  refine ((h.exchange hc).finishes_reverse ch (goto_self ..) ?_ hnd).of_advance ?_ rfl
  · exact h.root (h.owned how)
  · simp only [State.advance, hc]

theorem Inv.finishes_cas (h : Inv s lc tr ch) {c : Coro} (hc : s.pc c = .releaseCas) :
    Finishes s c := by
  have how : s.owns c = true := h.releasing c (by rw [hc]; rfl)
  by_cases hk : s.resuming = kLockFlag
  · have hs : s.advance c false =
        some { (s.goto c .idle).setOwner c false with resuming := 0 } := by
      simp only [State.advance, hc]
      exact if_pos hk
    refine Finishes.last hs ?_ ?_ (Or.inl ⟨rfl, rfl⟩)
    · exact goto_self ..
    · simp [State.setOwner]
  · have hs : s.advance c false = some (s.goto c .releaseExchange) := by
      simp only [State.advance, hc]
      exact if_neg hk
    obtain ⟨lc', tr', ch', h'⟩ := h.advance hs
    exact (h'.finishes_exchange (goto_self ..)).of_advance hs rfl

theorem Inv.finishes_start (h : Inv s lc tr ch) {c : Coro} (hc : s.pc c = .releaseStart) :
    Finishes s c := by
  by_cases h0 : s.transfer = 0
  · have hs : s.advance c false = some (s.goto c .releaseCas) := by
      simp only [State.advance, hc]
      exact if_pos h0
    obtain ⟨lc', tr', ch', h'⟩ := h.advance hs
    exact (h'.finishes_cas (goto_self ..)).of_advance hs rfl
  · obtain ⟨w, tr', h'⟩ := h.takeTransfer hc h0
    refine (h'.finishes_resume (goto_self ..)).of_advance ?_ rfl
    simp only [State.advance, hc]
    exact if_neg h0

theorem Inv.finishes (h : Inv s lc tr ch) {c : Coro} (hc : (s.pc c).releasing = true) :
    Finishes s c := by
  cases hq : s.pc c with
  | releaseStart => exact h.finishes_start hq
  | releaseCas => exact h.finishes_cas hq
  | releaseExchange => exact h.finishes_exchange hq
  | releaseReverse head nxt =>
      have hloc := h.loc c (h.releasing c hc)
      rw [hq] at hloc
      obtain ⟨-, done, rest, -, rfl, -, hrest⟩ := hloc
      refine h.finishes_reverse rest hq hrest ?_
      have hnd := h.queue.nodup
      simp only [List.append_assoc] at hnd
      exact List.nodup_reverse.mp (List.nodup_append.mp hnd).1
  | releaseTransfer head => exact h.finishes_transfer hq
  | releaseResume head => exact h.finishes_resume hq
  | _ => simp [hq, Pc.releasing] at hc

/-! ## What holds in every reachable state -/

/-- Mutual exclusion, the hand-off, and the queue in push order. -/
structure Sound (s : State) : Prop where
  /-- There is at most one owner. -/
  owner : ∀ c d, s.owns c = true → s.owns d = true → c = d
  /-- An owner stops being one only by the compare-and-swap to `0` of its own release, or
  when its release passes the semaphore to the waiter it resumes. -/
  stays : ∀ c a s', s.owns c = true → step s a = some s' → s'.owns c = false →
    (∃ b, a = (c, .advance b)) ∧
      ((s.pc c = .releaseCas ∧ s.resuming = kLockFlag ∧ s'.resuming = 0) ∨
        ∃ head d t, s.pc c = .releaseResume head ∧ s'.resumed = s.resumed ++ [(some d, t)] ∧
          s'.owns d = true)
  free : s.resuming = 0 ↔ ∀ c, s.owns c = false
  /-- The three lists: the local one of the release in progress, `transfer`, and the chain at
  `resuming`. They hold every suspended coroutine once and nobody else, and what has been
  resumed, followed by what is in them, is what has been pushed, in the same order. -/
  queue : ∃ loc transfer chain : List Addr,
    (s.resuming ≠ 0 → Chain Addr.val s.next kLockFlag s.resuming chain) ∧
    (s.resuming = 0 → loc = [] ∧ transfer = [] ∧ chain = []) ∧
    Chain Addr.val s.next 0 s.transfer transfer ∧
    (∀ c, s.owns c = true → Local s.next loc transfer chain (s.pc c)) ∧
    (∀ c, ((loc ++ transfer ++ chain.reverse).map s.handle).count (some c)
      = if (s.pc c).status.sleeps then 1 else 0) ∧
    s.pushed.map some
      = s.resumed.map Prod.fst ++ (loc ++ transfer ++ chain.reverse).map s.handle
  finishes : ∀ c, (s.pc c).releasing = true → Finishes s c

/-- Only a step of `c` itself takes the semaphore from `c`. -/
theorem owns_of_advance {s' : State} {c d : Coro} {b : Bool} (hs : s.advance d b = some s')
    (hc : s.owns c = true) (hc' : s'.owns c = false) :
    c = d ∧ ((s.pc c = .releaseCas ∧ s.resuming = kLockFlag ∧ s'.resuming = 0) ∨
      ∃ head, s.pc c = .releaseResume head ∧
        s' = ((s.setOwner c false).threadResume head).goto c .idle) := by
  have hset : ∀ b, Function.update s.owns d b c = false → c = d := by
    intro b hb
    by_contra hcd
    rw [Function.update_of_ne hcd, hc] at hb
    cases hb
  have hkeep : s.owns c ≠ false := by simp [hc]
  have hset' : Function.update s.owns d true c ≠ false := by
    rw [Function.update_apply]
    split <;> simp [hc]
  cases advances_of_advance hs with
  | unlocks hq hk =>
      obtain rfl := hset false hc'
      exact ⟨rfl, Or.inl ⟨hq, hk, rfl⟩⟩
  | resumes head hq =>
      have hcd : c = d := by
        refine hset false ?_
        simp only [State.threadResume, State.goto] at hc'
        split at hc'
        · rename_i e _
          simp only [State.enter, State.setOwner, State.goto] at hc'
          rw [Function.update_apply] at hc'
          split at hc'
          · cases hc'
          · exact hc'
        · exact hc'
      subst hcd
      exact ⟨rfl, Or.inr ⟨head, hq, rfl⟩⟩
  -- some steps make `d` an owner, and the others change none
  | tryTakes | isReady w | takes w => exact absurd hc' hset'
  | _ => exact absurd hc' hkeep

theorem Inv.stays {s' : State} (h : Inv s lc tr ch) {c : Coro} {a : Coro × Action}
    (hc : s.owns c = true) (hs : BinarySemaphore.step s a = some s') (hc' : s'.owns c = false) :
    (∃ b, a = (c, .advance b)) ∧
      ((s.pc c = .releaseCas ∧ s.resuming = kLockFlag ∧ s'.resuming = 0) ∨
        ∃ head d t, s.pc c = .releaseResume head ∧ s'.resumed = s.resumed ++ [(some d, t)] ∧
          s'.owns d = true) := by
  obtain ⟨d, a⟩ := a
  cases a with
  | advance b =>
      obtain ⟨rfl, hend⟩ := owns_of_advance hs hc hc'
      refine ⟨⟨b, rfl⟩, hend.imp_right ?_⟩
      rintro ⟨head, hq, rfl⟩
      obtain ⟨w, e, rfl, -, -, hh, -⟩ := h.resumes hq
      have hh : (s.mem w.val).handle = some e := hh
      refine ⟨w.val, e, (s.mem w.val).thread, hq, ?_, ?_⟩
      all_goals simp [State.threadResume, State.setOwner, State.enter, State.goto, hh]
  | _ =>
      exfalso
      simp only [BinarySemaphore.step] at hs
      split at hs
      · obtain rfl := Option.some.inj hs
        exact absurd (hc.symm.trans hc') (by decide)
      · cases hs

/-- **The binary semaphore and `async_mutex`.** Mutual exclusion, hand-off without loss, and
resumption in push order, in every state of every interleaving. -/
theorem binarySemaphore_sound {unlocked : Bool} {creator : Coro}
    (h : Reachable unlocked creator s) : Sound s := by
  obtain ⟨lc, tr, ch, h⟩ := h.inv
  exact
    { owner := h.owner
      stays := fun c a s' => h.stays
      free := h.free
      queue := ⟨lc, tr, ch, h.root, h.empty, h.trans, h.loc, h.queue.count, h.queue.fifo⟩
      finishes := fun c => h.finishes }

/-- Coroutine 1 owns the semaphore, 2 and 3 queue up, and 1 is in the middle of reversing. -/
def twoQueued : List (Coro × Action) :=
  [(1, .tryAquire), (1, .advance false),
    (2, .coAwait (.nth 0) ⟨0⟩), (2, .advance false), (2, .advance false),
    (1, .release), (1, .advance false), (2, .advance true), (2, .advance false),
    (1, .advance false),
    (3, .coAwait (.nth 1) ⟨1⟩), (3, .advance false), (3, .advance false),
    (3, .advance false), (1, .advance false), (1, .advance false)]

theorem binarySemaphore_sound_twoQueued :
    ∃ s, run step anyStep (init true 0) twoQueued = some s ∧ s.pc 1 = .releaseReverse 16 8 ∧
      s.pushed = [2, 3] ∧ Sound s := by
  obtain ⟨s, hs, h1, h2⟩ : ∃ s, run step anyStep (init true 0) twoQueued = some s ∧
      s.pc 1 = .releaseReverse 16 8 ∧ s.pushed = [2, 3] := ⟨_, rfl, rfl, rfl⟩
  exact ⟨s, hs, h1, h2, binarySemaphore_sound (Reaches.run (Reaches.start rfl) hs)⟩

end
end Zab.BinarySemaphore
