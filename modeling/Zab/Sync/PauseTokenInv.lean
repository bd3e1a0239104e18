import Zab.Sync.PauseToken
import Mathlib.Tactic

set_option autoImplicit false

/-! # `pause_token` loses nobody

The invariant behind the token names two kinds of list. `ch` is the list rooted in
`resuming`; its members are exactly the coroutines pushed since the last exchange. `loc u` is
the list that the `unpause` of `u` still has to resume; its members are exactly the coroutines
that were taken by `u`'s own exchange. Since every suspended coroutine records the number of
exchanges before its push, "in `ch`" and "in `loc u`" are told apart by that number, and the
lists are disjoint without being assumed to be.

Addresses are reused. What makes the push immune to it is that the invariant speaks of the
link a `pauser` holds at the moment of its successful compare-and-swap: that link equals the
current root, whatever happened to the root in between.
-/

namespace Zab.PauseToken

open Automaton

/-! ## Views of the program counter -/

/-- The `pauser` of the `co_await` in progress. -/
def Pc.pauser : Pc → Option Addr
  | .awaitReady p | .suspendLoad p | .suspendLoop p _ | .suspended p _ => some p
  | _ => none

/-- The `pauser` in which `await_suspend` has stored the handle. -/
def Pc.suspending : Pc → Option Addr
  | .suspendLoad p | .suspendLoop p _ | .suspended p _ => some p
  | _ => none

/-- The `pauser` of a suspended coroutine and the number of exchanges before its push. -/
def Pc.paused : Pc → Option (Addr × Nat)
  | .suspended p n => some (p, n)
  | _ => none

/-- The exchange an `unpause` has made, and the root of the list it still has to resume. -/
def Pc.taking : Pc → Option (Nat × Nat)
  | .unpauseWalk k w | .unpauseResume k w _ => some (k, w)
  | _ => none

theorem Pc.eq_of_paused {q : Pc} {p : Addr} {n : Nat} (h : q.paused = some (p, n)) :
    q = .suspended p n := by
  cases q <;> simp_all [Pc.paused]

theorem Pc.pauser_of_suspending {q : Pc} {p : Addr} (h : q.suspending = some p) :
    q.pauser = some p := by
  cases q <;> simp_all [Pc.suspending, Pc.pauser]

theorem Pc.pauser_of_paused {q : Pc} {p : Addr} {n : Nat} (h : q.paused = some (p, n)) :
    q.pauser = some p := by
  rw [Pc.eq_of_paused h]
  rfl

/-- Nobody pauses and unpauses at the same time. -/
theorem Pc.taking_of_pauser {q : Pc} {p : Addr} (h : q.pauser = some p) : q.taking = none := by
  cases q <;> simp_all [Pc.pauser, Pc.taking]

/-- The link stored in the `pauser` at `p`. -/
def State.next (s : State) (p : Addr) : Nat := (s.mem p.val).nextWaiting

/-- How often exchange `n` has resumed `c`. -/
def State.resumptions (s : State) (c : Coro) (n : Nat) : Nat :=
  s.resumed.countP fun r => r.handle = some c ∧ r.exchange = n

/-! ## The invariant -/

/-- The invariant, for the list `ch` rooted in `resuming` and the list `loc u` of every
`unpause` in progress. -/
structure Inv (s : State) (ch : List Addr) (loc : Coro → List Addr) : Prop where
  -- the lists, and who walks which
  root : (s.resuming = kUnpausedFlag ∧ ch = []) ∨ Chain Addr.val s.next 0 s.resuming ch
  walk : ∀ u k w, (s.pc u).taking = some (k, w) →
    k < s.exchanges ∧ Chain Addr.val s.next 0 w (loc u)
  rest : ∀ u, (s.pc u).taking = none → loc u = []
  one : ∀ u v k w w', (s.pc u).taking = some (k, w) → (s.pc v).taking = some (k, w') → u = v
  tmp : ∀ u k w t, s.pc u = .unpauseResume k w t → w ≠ 0 ∧ t = (s.mem w).nextWaiting
  cas : ∀ c w, s.pc c = .pauseCas w → w = kUnpausedFlag
  -- every `co_await` has a `pauser` of its own
  live : ∀ c p, (s.pc c).pauser = some p → s.live p.val = true
  owner : ∀ c d p, (s.pc c).pauser = some p → (s.pc d).pauser = some p → c = d
  handle : ∀ c p, (s.pc c).suspending = some p → (s.mem p.val).handle = some c
  -- the lists hold the suspended coroutines, told apart by the exchange each waits for
  chSusp : ∀ p ∈ ch, ∃ c, (s.pc c).paused = some (p, s.exchanges)
  locSusp : ∀ u k w, (s.pc u).taking = some (k, w) → ∀ p ∈ loc u, ∃ c, (s.pc c).paused = some (p, k)
  held : ∀ c p n, (s.pc c).paused = some (p, n) →
    (n = s.exchanges ∧ p ∈ ch) ∨ ∃ u w, (s.pc u).taking = some (n, w) ∧ p ∈ loc u
  chNodup : ch.Nodup
  locNodup : ∀ u, (loc u).Nodup
  -- the history: a resumption answers a push, and every push is answered once
  before : ∀ r ∈ s.resumed, r.exchange < s.exchanges
  log : ∀ r ∈ s.resumed, ∃ c, r.handle = some c ∧ (c, r.exchange) ∈ s.pushed
  susPushed : ∀ c p n, (s.pc c).paused = some (p, n) → (c, n) ∈ s.pushed
  once : ∀ c n, (c, n) ∈ s.pushed →
    s.resumptions c n = if (s.pc c).paused.map Prod.snd = some n then 0 else 1

section

variable {s : State} {ch : List Addr} {loc : Coro → List Addr}

@[simp] theorem goto_pc (s : State) (c d : Coro) (q : Pc) :
    (s.goto c q).pc d = if d = c then q else s.pc d := Function.update_apply ..

theorem goto_self (s : State) (c : Coro) (q : Pc) : (s.goto c q).pc c = q :=
  Function.update_self ..

theorem goto_of_ne {c d : Coro} {q : Pc} (h : d ≠ c) : (s.goto c q).pc d = s.pc d :=
  Function.update_of_ne h ..

/-- A view of the program counters that the move of `c` does not change. -/
theorem goto_view {β : Type} (f : Pc → β) {c : Coro} {q : Pc} (hq : f q = f (s.pc c))
    (d : Coro) : f ((s.goto c q).pc d) = f (s.pc d) := by
  by_cases hd : d = c
  · rw [hd, goto_self, hq]
  · rw [goto_of_ne hd]

theorem threadResume_pushed (s : State) (k w : Nat) : (s.threadResume k w).pushed = s.pushed := by
  unfold State.threadResume
  dsimp only
  split <;> rfl

theorem chain_write {p : Addr} {n : Pauser} {w : Nat} {l : List Addr}
    (h : Chain Addr.val s.next 0 w l) (hp : p ∉ l) :
    Chain Addr.val (s.write p.val n).next 0 w l := by
  refine h.congr fun a ha => ?_
  have hne : a.val ≠ p.val := fun e => hp (Addr.val_inj.mp e ▸ ha)
  simp [State.next, State.write, Function.update_of_ne hne]

/-- A step inside an operation: the lists and the suspended coroutines stay as they are. The
operation may give its `pauser` up. -/
theorem Inv.goto (h : Inv s ch loc) {c : Coro} {q : Pc}
    (hp : ∀ p, q.pauser = some p → (s.pc c).pauser = some p)
    (hn : q.paused = (s.pc c).paused) (ht : q.taking = (s.pc c).taking)
    (hs : ∀ p, q.suspending = some p → (s.mem p.val).handle = some c)
    (hr : ∀ k w t, q = .unpauseResume k w t → w ≠ 0 ∧ t = (s.mem w).nextWaiting)
    (hc : ∀ w, q = .pauseCas w → w = kUnpausedFlag) : Inv (s.goto c q) ch loc := by
  have hn' := goto_view Pc.paused hn
  have ht' := goto_view Pc.taking ht
  have hp' : ∀ d p, ((s.goto c q).pc d).pauser = some p → (s.pc d).pauser = some p := by
    intro d p hd
    rw [goto_pc] at hd
    split at hd
    · rename_i hdc
      rw [hdc]
      exact hp p hd
    · exact hd
  constructor
  · exact h.root
  · simp only [ht']
    exact h.walk
  · simp only [ht']
    exact h.rest
  · simp only [ht']
    exact h.one
  · intro u k w t hu
    rw [goto_pc] at hu
    split at hu
    · exact hr k w t hu
    · exact h.tmp u k w t hu
  · intro d w hd
    rw [goto_pc] at hd
    split at hd
    · exact hc w hd
    · exact h.cas d w hd
  · intro d p hd
    exact h.live d p (hp' d p hd)
  · intro d e p hd he
    exact h.owner d e p (hp' d p hd) (hp' e p he)
  · intro d p hd
    rw [goto_pc] at hd
    split at hd
    · rename_i hdc
      rw [hdc]
      exact hs p hd
    · exact h.handle d p hd
  · simp only [hn']
    exact h.chSusp
  · simp only [hn', ht']
    exact h.locSusp
  · simp only [hn', ht']
    exact h.held
  · exact h.chNodup
  · exact h.locNodup
  · exact h.before
  · exact h.log
  · simp only [hn']
    exact h.susPushed
  · simp only [hn']
    exact h.once

/-- Only the `pauser` of a suspended coroutine is in a list. -/
theorem Inv.notMem (h : Inv s ch loc) {p : Addr} (hp : ∀ c n, (s.pc c).paused ≠ some (p, n)) :
    p ∉ ch ∧ ∀ u, p ∉ loc u := by
  refine ⟨fun hm => ?_, fun u hm => ?_⟩
  · obtain ⟨c, hc⟩ := h.chSusp p hm
    exact hp _ _ hc
  · cases ht : (s.pc u).taking with
    | none => rw [h.rest u ht] at hm; cases hm
    | some kw =>
        obtain ⟨c, hc⟩ := h.locSusp u kw.1 kw.2 ht p hm
        exact hp _ _ hc

/-- Writing to a `pauser` that is in no list and keeping its stored handle. -/
theorem Inv.write (h : Inv s ch loc) {p : Addr} {n : Pauser}
    (hp : ∀ c n, (s.pc c).paused ≠ some (p, n))
    (hn : ∀ c, (s.pc c).suspending = some p → n.handle = some c) :
    Inv (s.write p.val n) ch loc := by
  obtain ⟨hch, hloc⟩ := h.notMem hp
  refine { h with root := ?_, walk := ?_, tmp := ?_, handle := ?_ }
  · exact h.root.imp_right fun hc => chain_write hc hch
  · intro u k w ht
    exact ⟨(h.walk u k w ht).1, chain_write (h.walk u k w ht).2 (hloc u)⟩
  · intro u k w t hu
    have hu : s.pc u = .unpauseResume k w t := hu
    obtain ⟨hne, htmp⟩ := h.tmp u k w t hu
    have hw := (h.walk u k w (by rw [hu]; rfl)).2
    have hwp : w ≠ p.val := by
      intro e
      cases hl : loc u with
      | nil => rw [hl] at hw; exact hne hw
      | cons a l =>
          rw [hl] at hw
          have ha : a = p := Addr.val_inj.mp (hw.1.symm.trans e)
          exact hloc u (by rw [hl, ha]; simp)
    exact ⟨hne, by simpa [State.write, Function.update_of_ne hwp] using htmp⟩
  · intro c q hc
    have hc : (s.pc c).suspending = some q := hc
    by_cases e : q = p
    · subst e
      simpa [State.write] using hn c hc
    · have hqp : q.val ≠ p.val := by simpa using e
      simpa [State.write, Function.update_of_ne hqp] using h.handle c q hc

/-- A `co_await` that does not suspend gives its `pauser` up. -/
theorem Inv.leave (h : Inv s ch loc) {c : Coro} {p : Addr} (hp : (s.pc c).pauser = some p)
    (hn : (s.pc c).paused = none) : Inv (s.leave c p.val) ch loc := by
  have hgo : Inv (s.goto c .idle) ch loc := by
    refine h.goto ?_ hn.symm (Pc.taking_of_pauser hp).symm ?_ ?_ ?_ <;>
      simp [Pc.pauser, Pc.suspending]
  refine { hgo with live := fun d p' hd => ?_ }
  have hdc : d ≠ c := by
    rintro rfl
    rw [show (s.leave d p.val).pc d = .idle from Function.update_self ..] at hd
    cases hd
  have hd' : (s.pc d).pauser = some p' := by
    rwa [show (s.leave c p.val).pc d = s.pc d from Function.update_of_ne hdc ..] at hd
  -- the `pauser` of another operation is another one
  have hne : p'.val ≠ p.val := by
    intro e
    rw [Addr.val_inj.mp e] at hd'
    exact hdc (h.owner d c p hd' hp)
  show Function.update s.live p.val false p'.val = true
  rw [Function.update_of_ne hne]
  exact h.live d p' hd'

theorem Inv.root_eq_flag (h : Inv s ch loc) (hw : s.resuming = kUnpausedFlag) : ch = [] := by
  rcases h.root with hr | hr
  · exact hr.2
  · cases ch with
    | nil => rfl
    | cons a l => exact absurd (hr.1.symm.trans hw) a.val_ne_one

/-- **The push.** The compare-and-swap succeeds, and the `pauser` links to the root it
replaces. -/
theorem Inv.push (h : Inv s ch loc) {c : Coro} {p : Addr} {w : Nat} (hc : s.pc c = .suspendLoop p w)
    (hw : s.resuming = s.next p) (hf : s.resuming ≠ kUnpausedFlag) :
    Inv { s.goto c (.suspended p s.exchanges) with
        resuming := p.val, pushed := s.pushed ++ [(c, s.exchanges)] } (p :: ch) loc := by
  have hnone : (s.pc c).paused = none := by rw [hc]; rfl
  have hnot : p ∉ ch ∧ ∀ u, p ∉ loc u := by
    refine h.notMem fun d n hd => ?_
    have hdc : d = c := h.owner d c p (Pc.pauser_of_paused hd) (by rw [hc]; rfl)
    rw [hdc, hnone] at hd
    cases hd
  have hroot : Chain Addr.val s.next 0 s.resuming ch := h.root.resolve_left fun hr => hf hr.1
  -- the exchange that will take the push has not been made
  have hzero : s.resumptions c s.exchanges = 0 := by
    refine List.countP_eq_zero.mpr fun r hr => ?_
    have := h.before r hr
    simp; omega
  have ht' := goto_view (s := s) (c := c) (q := .suspended p s.exchanges) Pc.taking
    (by rw [hc]; rfl)
  have hp' := goto_view (s := s) (c := c) (q := .suspended p s.exchanges) Pc.pauser
    (by rw [hc]; rfl)
  have hs' := goto_view (s := s) (c := c) (q := .suspended p s.exchanges) Pc.suspending
    (by rw [hc]; rfl)
  have hold : ∀ d q n, (s.pc d).paused = some (q, n) →
      ((s.goto c (.suspended p s.exchanges)).pc d).paused = some (q, n) := by
    intro d q n hd
    rw [goto_of_ne]
    · exact hd
    · rintro rfl
      rw [hnone] at hd
      cases hd
  constructor
  · -- root: the old root is the link of the new one
    exact Or.inr (hroot.push hw.symm)
  · simp only [ht']
    exact h.walk
  · simp only [ht']
    exact h.rest
  · simp only [ht']
    exact h.one
  · intro u k w t hu
    rw [goto_pc] at hu
    split at hu
    · cases hu
    · exact h.tmp u k w t hu
  · intro d w hd
    rw [goto_pc] at hd
    split at hd
    · cases hd
    · exact h.cas d w hd
  · simp only [hp']
    exact h.live
  · simp only [hp']
    exact h.owner
  · simp only [hs']
    exact h.handle
  · -- chSusp: the new member of the list is `c`
    intro q hq
    rcases List.mem_cons.mp hq with rfl | hq
    · exact ⟨c, by rw [goto_self]; rfl⟩
    · obtain ⟨d, hd⟩ := h.chSusp q hq
      exact ⟨d, hold d q _ hd⟩
  · simp only [ht']
    intro u k w hu q hq
    obtain ⟨d, hd⟩ := h.locSusp u k w hu q hq
    exact ⟨d, hold d q k hd⟩
  · -- held: `c` is on the list, and the others are where they were
    intro d q n hd
    simp only [ht']
    by_cases hdc : d = c
    · rw [hdc, goto_self] at hd
      obtain ⟨rfl, rfl⟩ : p = q ∧ s.exchanges = n := by simpa [Pc.paused] using hd
      exact Or.inl ⟨rfl, by simp⟩
    · rw [goto_of_ne hdc] at hd
      exact (h.held d q n hd).imp_left fun ⟨hn, hm⟩ => ⟨hn, List.mem_cons_of_mem _ hm⟩
  · exact List.nodup_cons.mpr ⟨hnot.1, h.chNodup⟩
  · exact h.locNodup
  · exact h.before
  · -- log
    intro r hr
    obtain ⟨d, hd, hm⟩ := h.log r hr
    exact ⟨d, hd, List.mem_append_left _ hm⟩
  · intro d q n hd
    by_cases hdc : d = c
    · rw [hdc, goto_self] at hd
      obtain ⟨rfl, rfl⟩ : p = q ∧ s.exchanges = n := by simpa [Pc.paused] using hd
      rw [hdc]
      exact List.mem_append_right _ (by simp)
    · rw [goto_of_ne hdc] at hd
      exact List.mem_append_left _ (h.susPushed d q n hd)
  · -- once: `c` has not been resumed for this push
    intro d n hd
    show s.resumptions d n = _
    by_cases hdc : d = c
    · subst hdc
      rw [goto_self]
      rcases List.mem_append.mp hd with hd | hd
      · -- an older push of the same coroutine was resumed by an older exchange
        have hone := h.once d n hd
        rw [hnone] at hone
        have hne : s.exchanges ≠ n := by
          rintro rfl
          rw [hzero] at hone
          simp at hone
        simpa [Pc.paused, hne] using hone
      · obtain rfl : n = s.exchanges := by simpa using hd
        simpa [Pc.paused] using hzero
    · rw [goto_of_ne hdc]
      refine h.once d n ((List.mem_append.mp hd).resolve_right ?_)
      simp [hdc]

/-- The exchange of `unpause` on a list of paused coroutines. -/
theorem Inv.exchange (h : Inv s ch loc) {c : Coro} (hc : s.pc c = .unpauseExchange)
    (hf : s.resuming ≠ kUnpausedFlag) :
    Inv ({ s with resuming := kUnpausedFlag, exchanges := s.exchanges + 1 }.goto c
      (.unpauseWalk s.exchanges s.resuming)) [] (Function.update loc c ch) := by
  have hroot : Chain Addr.val s.next 0 s.resuming ch := h.root.resolve_left fun hr => hf hr.1
  have hnone : (s.pc c).taking = none := by rw [hc]; rfl
  set q : Pc := .unpauseWalk s.exchanges s.resuming with hq
  have hn' : ∀ d, ((s.goto c q).pc d).paused = (s.pc d).paused :=
    goto_view Pc.paused (by rw [hc]; rfl)
  have hp' : ∀ d, ((s.goto c q).pc d).pauser = (s.pc d).pauser :=
    goto_view Pc.pauser (by rw [hc]; rfl)
  have hs' : ∀ d, ((s.goto c q).pc d).suspending = (s.pc d).suspending :=
    goto_view Pc.suspending (by rw [hc]; rfl)
  -- an `unpause` in progress is `c` with the new exchange, or one with an older exchange
  have htaking : ∀ u k w, ((s.goto c q).pc u).taking = some (k, w) →
      (u = c ∧ k = s.exchanges ∧ w = s.resuming) ∨
        (u ≠ c ∧ k < s.exchanges ∧ (s.pc u).taking = some (k, w)) := by
    intro u k w hu
    by_cases huc : u = c
    · rw [huc, goto_self] at hu
      obtain ⟨rfl, rfl⟩ : s.exchanges = k ∧ s.resuming = w := by simpa [hq, Pc.taking] using hu
      exact Or.inl ⟨huc, rfl, rfl⟩
    · rw [goto_of_ne huc] at hu
      exact Or.inr ⟨huc, (h.walk u k w hu).1, hu⟩
  constructor
  · exact Or.inl ⟨rfl, rfl⟩
  · -- walk: `c` has taken the list
    intro u k w hu
    rcases htaking u k w hu with ⟨rfl, rfl, rfl⟩ | ⟨huc, hlt, hu⟩
    · rw [Function.update_self]
      exact ⟨Nat.lt_succ_self _, hroot⟩
    · rw [Function.update_of_ne huc]
      exact ⟨Nat.lt_succ_of_lt hlt, (h.walk u k w hu).2⟩
  · intro u hu
    change ((s.goto c q).pc u).taking = none at hu
    have huc : u ≠ c := by
      rintro rfl
      rw [goto_self] at hu
      cases hu
    rw [goto_of_ne huc] at hu
    rw [Function.update_of_ne huc]
    exact h.rest u hu
  · -- one: the new exchange has a number of its own
    intro u v k w w' hu hv
    rcases htaking u k w hu with ⟨rfl, hk, -⟩ | ⟨-, hlt, hu⟩ <;>
      rcases htaking v k w' hv with ⟨rfl, hk', -⟩ | ⟨-, hlt', hv⟩
    · rfl
    · omega
    · omega
    · exact h.one u v k w w' hu hv
  · intro u k w t hu
    change (s.goto c q).pc u = _ at hu
    rw [goto_pc] at hu
    split at hu
    · simp [hq] at hu
    · exact h.tmp u k w t hu
  · intro d w hd
    change (s.goto c q).pc d = _ at hd
    rw [goto_pc] at hd
    split at hd
    · simp [hq] at hd
    · exact h.cas d w hd
  · intro d p hd
    exact h.live d p ((hp' d).symm.trans hd)
  · intro d e p hd he
    exact h.owner d e p ((hp' d).symm.trans hd) ((hp' e).symm.trans he)
  · intro d p hd
    exact h.handle d p ((hs' d).symm.trans hd)
  · intro p hp
    cases hp
  · -- locSusp
    intro u k w hu p hm
    rcases htaking u k w hu with ⟨rfl, rfl, -⟩ | ⟨huc, -, hu⟩
    · rw [Function.update_self] at hm
      obtain ⟨d, hd⟩ := h.chSusp p hm
      exact ⟨d, (hn' d).trans hd⟩
    · rw [Function.update_of_ne huc] at hm
      obtain ⟨d, hd⟩ := h.locSusp u k w hu p hm
      exact ⟨d, (hn' d).trans hd⟩
  · -- held: who was on `ch` is on the list of `c` now
    intro d p n hd
    right
    rcases h.held d p n ((hn' d).symm.trans hd) with ⟨rfl, hm⟩ | ⟨u, w, hu, hm⟩
    · exact ⟨c, s.resuming, by rw [goto_self]; rfl, by rwa [Function.update_self]⟩
    · have huc : u ≠ c := by
        rintro rfl
        rw [hnone] at hu
        cases hu
      refine ⟨u, w, ?_, by rwa [Function.update_of_ne huc]⟩
      rwa [goto_of_ne huc]
  · exact List.nodup_nil
  · intro u
    rw [Function.update_apply]
    split
    · exact h.chNodup
    · exact h.locNodup u
  · intro r hr
    exact Nat.lt_succ_of_lt (h.before r hr)
  · exact h.log
  · intro d p n hd
    exact h.susPushed d p n ((hn' d).symm.trans hd)
  · intro d n hd
    have hpaused : (((s.goto c q).pc d).paused.map Prod.snd = some n) =
        ((s.pc d).paused.map Prod.snd = some n) := by rw [hn' d]
    show s.resumptions d n = if ((s.goto c q).pc d).paused.map Prod.snd = some n then 0 else 1
    simp only [hpaused]
    exact h.once d n hd

/-- The exchange of `unpause` on a token that is not paused. -/
theorem Inv.exchange_flag (h : Inv s ch loc) {c : Coro} (hc : s.pc c = .unpauseExchange)
    (hf : s.resuming = kUnpausedFlag) :
    Inv ({ s with resuming := kUnpausedFlag, exchanges := s.exchanges + 1 }.goto c .idle)
      ch loc := by
  have hnil := h.root_eq_flag hf
  have h0 : Inv { s with resuming := kUnpausedFlag, exchanges := s.exchanges + 1 } ch loc := by
    refine { h with
      root := Or.inl ⟨rfl, hnil⟩, walk := ?_, chSusp := ?_, held := ?_, before := ?_ }
    · intro u k w hu
      exact ⟨Nat.lt_succ_of_lt (h.walk u k w hu).1, (h.walk u k w hu).2⟩
    · rw [hnil]
      simp
    · intro d p n hd
      rcases h.held d p n hd with ⟨-, hm⟩ | hu
      · rw [hnil] at hm
        cases hm
      · exact Or.inr hu
    · intro r hr
      exact Nat.lt_succ_of_lt (h.before r hr)
  refine h0.goto ?_ ?_ ?_ ?_ ?_ ?_
  · simp [Pc.pauser]
  · simp [hc, Pc.paused]
  · simp [hc, Pc.taking]
  · simp [Pc.suspending]
  · simp
  · simp

/-- `unpause` returns once its list is empty. -/
theorem Inv.walk_nil (h : Inv s ch loc) {c : Coro} {k : Nat} (hc : s.pc c = .unpauseWalk k 0) :
    Inv (s.goto c .idle) ch loc := by
  have hnil : loc c = [] :=
    ((h.walk c k 0 (by rw [hc]; rfl)).2.root_eq_stop Addr.val_ne_zero).mp rfl
  have hn' : ∀ d, ((s.goto c .idle).pc d).paused = (s.pc d).paused :=
    goto_view Pc.paused (by rw [hc]; rfl)
  have hp' : ∀ d, ((s.goto c .idle).pc d).pauser = (s.pc d).pauser :=
    goto_view Pc.pauser (by rw [hc]; rfl)
  have hs' : ∀ d, ((s.goto c .idle).pc d).suspending = (s.pc d).suspending :=
    goto_view Pc.suspending (by rw [hc]; rfl)
  have htaking : ∀ u k' w, ((s.goto c .idle).pc u).taking = some (k', w) →
      (s.pc u).taking = some (k', w) := by
    intro u k' w hu
    rw [goto_pc] at hu
    split at hu
    · cases hu
    · exact hu
  constructor
  · exact h.root
  · intro u k' w hu
    exact h.walk u k' w (htaking u k' w hu)
  · intro u hu
    by_cases huc : u = c
    · rw [huc]
      exact hnil
    · rw [goto_of_ne huc] at hu
      exact h.rest u hu
  · intro u v k' w w' hu hv
    exact h.one u v k' w w' (htaking u k' w hu) (htaking v k' w' hv)
  · intro u k' w t hu
    rw [goto_pc] at hu
    split at hu
    · cases hu
    · exact h.tmp u k' w t hu
  · intro d w hd
    rw [goto_pc] at hd
    split at hd
    · cases hd
    · exact h.cas d w hd
  · simp only [hp']
    exact h.live
  · simp only [hp']
    exact h.owner
  · simp only [hs']
    exact h.handle
  · simp only [hn']
    exact h.chSusp
  · simp only [hn']
    intro u k' w hu
    exact h.locSusp u k' w (htaking u k' w hu)
  · -- held: nobody was on the list of `c`
    simp only [hn']
    intro d p n hd
    refine (h.held d p n hd).imp_right ?_
    rintro ⟨u, w, hu, hm⟩
    have huc : u ≠ c := by
      rintro rfl
      rw [hnil] at hm
      cases hm
    refine ⟨u, w, ?_, hm⟩
    rwa [goto_of_ne huc]
  · exact h.chNodup
  · exact h.locNodup
  · exact h.before
  · exact h.log
  · simp only [hn']
    exact h.susPushed
  · simp only [hn']
    exact h.once

/-- `s'` is `s` after the `unpause` of `c`, exchange number `k`, has resumed `d` with the `pauser`
at `p`. -/
structure Resumed (s s' : State) (c d : Coro) (p : Addr) (k t : Nat) : Prop where
  unpauser : s'.pc c = .unpauseWalk k t
  paused : s'.pc d = .idle
  others : ∀ e, e ≠ c → e ≠ d → s'.pc e = s.pc e
  word : s'.resuming = s.resuming
  mem : s'.mem = s.mem
  exchanges : s'.exchanges = s.exchanges
  pushed : s'.pushed = s.pushed
  live : ∀ q, q ≠ p → s'.live q.val = s.live q.val
  log : s'.resumed = s.resumed ++ [⟨some d, (s.mem p.val).thread, k⟩]

theorem resumed_threadResume {c d : Coro} {p : Addr} {k t : Nat}
    (hh : (s.mem p.val).handle = some d) (hdc : d ≠ c) :
    Resumed s ((s.threadResume k p.val).goto c (.unpauseWalk k t)) c d p k t := by
  have hs : s.threadResume k p.val =
      ({ s with
        resumed := s.resumed ++ [⟨some d, (s.mem p.val).thread, k⟩] } : State).leave d p.val := by
    simp [State.threadResume, hh]
  rw [hs]
  refine ⟨goto_self .., ?_, ?_, rfl, rfl, rfl, rfl, ?_, rfl⟩
  · rw [goto_of_ne hdc]
    exact Function.update_self ..
  · intro e hec hed
    rw [goto_of_ne hec]
    exact Function.update_of_ne hed ..
  · intro q hq
    exact Function.update_of_ne (by simpa using hq) ..

section Resumed

variable {s' : State} {c d : Coro} {p : Addr} {k t : Nat}

/-- `d` leaves, and `c` takes on the next of its list; no view of anybody else changes. -/
theorem Resumed.view (hr : Resumed s s' c d p k t) (hc : s.pc c = .unpauseResume k p.val t)
    {β : Type} (f : Pc → β) (hf : f (.unpauseWalk k t) = f (.unpauseResume k p.val t)) {e : Coro}
    (hed : e ≠ d) : f (s'.pc e) = f (s.pc e) := by
  by_cases hec : e = c
  · rw [hec, hr.unpauser, hc, hf]
  · rw [hr.others e hec hed]

theorem Resumed.taking (hr : Resumed s s' c d p k t) (hd : s.pc d = .suspended p k) {u : Coro}
    (huc : u ≠ c) : (s'.pc u).taking = (s.pc u).taking := by
  by_cases hud : u = d
  · rw [hud, hr.paused, hd]
    rfl
  · rw [hr.others u huc hud]

/-- Somebody whose view is not that of an idle coroutine is not `d`. -/
theorem Resumed.ne (hr : Resumed s s' c d p k t) {β : Type} {f : Pc → Option β} {x : β}
    (hf : f .idle = none) {e : Coro} (he : f (s'.pc e) = some x) : e ≠ d := by
  rintro rfl
  rw [hr.paused, hf] at he
  cases he

/-- An `unpause` in progress has the exchange it had, and `c` has moved on to `t`. -/
theorem Resumed.taking_cases (hr : Resumed s s' c d p k t) (hd : s.pc d = .suspended p k)
    {u : Coro} {k' w : Nat} (hu : (s'.pc u).taking = some (k', w)) :
    (u = c ∧ k' = k ∧ w = t) ∨ (u ≠ c ∧ (s.pc u).taking = some (k', w)) := by
  by_cases huc : u = c
  · subst huc
    rw [hr.unpauser] at hu
    obtain ⟨rfl, rfl⟩ : k = k' ∧ t = w := by simpa [Pc.taking] using hu
    exact Or.inl ⟨rfl, rfl, rfl⟩
  · exact Or.inr ⟨huc, (hr.taking hd huc).symm.trans hu⟩

/-- Somebody at another place has not moved. -/
theorem Resumed.unmoved (hr : Resumed s s' c d p k t) {e : Coro} {q : Pc} (he : s'.pc e = q)
    (hwalk : q ≠ .unpauseWalk k t) (hidle : q ≠ .idle) : s.pc e = q := by
  have hec : e ≠ c := by
    rintro rfl
    exact hwalk (he.symm.trans hr.unpauser)
  have hed : e ≠ d := by
    rintro rfl
    exact hidle (he.symm.trans hr.paused)
  exact (hr.others e hec hed).symm.trans he

theorem Resumed.resumptions (hr : Resumed s s' c d p k t) (e : Coro) (n : Nat) :
    s'.resumptions e n = s.resumptions e n + if d = e ∧ k = n then 1 else 0 := by
  unfold State.resumptions
  rw [hr.log, List.countP_append, List.countP_singleton]
  simp

theorem Inv.resumed (h : Inv s ch loc) {l : List Addr} (hr : Resumed s s' c d p k t)
    (hc : s.pc c = .unpauseResume k p.val t) (hd : s.pc d = .suspended p k)
    (hl : loc c = p :: l) : Inv s' ch (Function.update loc c l) := by
  have hk : (s.pc c).taking = some (k, p.val) := by rw [hc]; rfl
  have htc : (s'.pc c).taking = some (k, t) := by rw [hr.unpauser]; rfl
  obtain ⟨hlt, hchain⟩ := h.walk c k p.val hk
  rw [hl] at hchain
  have htmp : t = s.next p := (h.tmp c k p.val t hc).2
  have hnd : p ∉ l ∧ l.Nodup := List.nodup_cons.mp (hl ▸ h.locNodup c)
  have hnext : s'.next = s.next := by
    unfold State.next
    rw [hr.mem]
  have hp' : ∀ {e}, e ≠ d → (s'.pc e).pauser = (s.pc e).pauser := hr.view hc Pc.pauser rfl
  have hs' : ∀ {e}, e ≠ d → (s'.pc e).suspending = (s.pc e).suspending :=
    hr.view hc Pc.suspending rfl
  have hn' : ∀ {e}, e ≠ d → (s'.pc e).paused = (s.pc e).paused := hr.view hc Pc.paused rfl
  -- the `pauser` at `p` is that of `d`
  have hown : ∀ {e q}, e ≠ d → (s.pc e).pauser = some q → q ≠ p := by
    intro e q hed he hqp
    exact hed (h.owner e d p (hqp ▸ he) (by rw [hd]; rfl))
  constructor
  · rw [hr.word, hnext]
    exact h.root
  · -- walk: `c` goes on at the link that it read
    intro u k' w hu
    rw [hr.exchanges, hnext]
    rcases hr.taking_cases hd hu with ⟨rfl, rfl, rfl⟩ | ⟨huc, hu⟩
    · rw [Function.update_self, htmp]
      exact ⟨hlt, hchain.2⟩
    · rw [Function.update_of_ne huc]
      exact h.walk u k' w hu
  · intro u hu
    have huc : u ≠ c := by
      rintro rfl
      simp [htc] at hu
    rw [Function.update_of_ne huc]
    exact h.rest u ((hr.taking hd huc).symm.trans hu)
  · intro u v k' w w' hu hv
    rcases hr.taking_cases hd hu with ⟨huc, huk, -⟩ | ⟨-, hu⟩ <;>
      rcases hr.taking_cases hd hv with ⟨hvc, hvk, -⟩ | ⟨-, hv⟩
    · rw [huc, hvc]
    · rw [huc]
      exact h.one c v k p.val w' hk (huk ▸ hv)
    · rw [hvc]
      exact h.one u c k w p.val (hvk ▸ hu) hk
    · exact h.one u v k' w w' hu hv
  · intro u k' w t' hu
    rw [hr.mem]
    exact h.tmp u k' w t' (hr.unmoved hu Pc.noConfusion Pc.noConfusion)
  · intro e w he
    exact h.cas e w (hr.unmoved he Pc.noConfusion Pc.noConfusion)
  · -- live: only the `pauser` of `d` is gone
    intro e q he
    have hed := hr.ne rfl he
    rw [hp' hed] at he
    rw [hr.live q (hown hed he)]
    exact h.live e q he
  · intro e f q he hf
    have hed := hr.ne rfl he
    have hfd := hr.ne rfl hf
    exact h.owner e f q ((hp' hed).symm.trans he) ((hp' hfd).symm.trans hf)
  · intro e q he
    have hed := hr.ne rfl he
    rw [hr.mem]
    exact h.handle e q ((hs' hed).symm.trans he)
  · -- chSusp: `d` was not on `ch`, as its exchange has been made
    intro q hq
    obtain ⟨e, he⟩ := h.chSusp q hq
    have hed : e ≠ d := by
      rintro rfl
      have : k = s.exchanges := by simpa [hd, Pc.paused] using congrArg (Option.map Prod.snd) he
      omega
    refine ⟨e, ?_⟩
    rw [hn' hed, hr.exchanges]
    exact he
  · -- locSusp: nobody else had `p` on his list
    intro u k' w hu q hq
    rcases hr.taking_cases hd hu with ⟨rfl, rfl, -⟩ | ⟨huc, hu⟩
    · rw [Function.update_self] at hq
      obtain ⟨e, he⟩ := h.locSusp u k' p.val hk q (by rw [hl]; simp [hq])
      have hed : e ≠ d := by
        rintro rfl
        obtain ⟨rfl, -⟩ : p = q ∧ k' = k' := by simpa [hd, Pc.paused] using he
        exact hnd.1 hq
      exact ⟨e, (hn' hed).trans he⟩
    · rw [Function.update_of_ne huc] at hq
      obtain ⟨e, he⟩ := h.locSusp u k' w hu q hq
      have hed : e ≠ d := by
        rintro rfl
        obtain ⟨rfl, rfl⟩ : p = q ∧ k = k' := by simpa [hd, Pc.paused] using he
        exact huc (h.one u c k w p.val hu hk)
      exact ⟨e, (hn' hed).trans he⟩
  · -- held
    intro e q n he
    have hed := hr.ne rfl he
    rw [hn' hed] at he
    have hqp : q ≠ p := hown hed (Pc.pauser_of_paused he)
    rcases h.held e q n he with ⟨hx, hm⟩ | ⟨u, w, hu, hm⟩
    · exact Or.inl ⟨hx.trans hr.exchanges.symm, hm⟩
    · right
      by_cases huc : u = c
      · subst huc
        obtain ⟨rfl, -⟩ : k = n ∧ p.val = w := by simpa [hk] using hu
        refine ⟨u, t, htc, ?_⟩
        rw [Function.update_self]
        exact (List.mem_cons.mp (hl ▸ hm)).resolve_left hqp
      · refine ⟨u, w, (hr.taking hd huc).trans hu, ?_⟩
        rwa [Function.update_of_ne huc]
  · exact h.chNodup
  · intro u
    rw [Function.update_apply]
    split
    · exact hnd.2
    · exact h.locNodup u
  · intro x hx
    rw [hr.log] at hx
    rw [hr.exchanges]
    rcases List.mem_append.mp hx with hx | hx
    · exact h.before x hx
    · rw [List.mem_singleton.mp hx]
      exact hlt
  · intro x hx
    rw [hr.log] at hx
    rw [hr.pushed]
    rcases List.mem_append.mp hx with hx | hx
    · exact h.log x hx
    · rw [List.mem_singleton.mp hx]
      exact ⟨d, rfl, h.susPushed d p k (by rw [hd]; rfl)⟩
  · intro e q n he
    have hed := hr.ne rfl he
    rw [hr.pushed]
    exact h.susPushed e q n ((hn' hed).symm.trans he)
  · -- once: the resumption of `d` is its first for this push
    intro e n hen
    rw [hr.pushed] at hen
    rw [hr.resumptions, h.once e n hen]
    by_cases hed : e = d
    · subst hed
      rw [hr.paused, hd]
      by_cases hkn : k = n <;> simp [Pc.paused, hkn]
    · have hno : ¬ (d = e ∧ k = n) := fun hde => hed hde.1.symm
      rw [hn' hed, if_neg hno, Nat.add_zero]

end Resumed

/-- The coroutine that `unpause` is about to resume. -/
theorem Inv.resumption (h : Inv s ch loc) {c : Coro} {k w t : Nat}
    (hc : s.pc c = .unpauseResume k w t) :
    ∃ d p l, w = p.val ∧ loc c = p :: l ∧ s.pc d = .suspended p k ∧
      Resumed s ((s.threadResume k w).goto c (.unpauseWalk k t)) c d p k t := by
  have hk : (s.pc c).taking = some (k, w) := by rw [hc]; rfl
  obtain ⟨-, hchain⟩ := h.walk c k w hk
  obtain ⟨hw, -⟩ := h.tmp c k w t hc
  cases hl : loc c with
  | nil =>
      rw [hl] at hchain
      exact absurd hchain hw
  | cons p l =>
      rw [hl] at hchain
      obtain ⟨rfl, -⟩ := hchain
      obtain ⟨d, hd⟩ := h.locSusp c k p.val hk p (by rw [hl]; simp)
      have hd := Pc.eq_of_paused hd
      have hdc : d ≠ c := by
        rintro rfl
        rw [hd] at hc
        cases hc
      have hr := resumed_threadResume (k := k) (t := t) (h.handle d p (by rw [hd]; rfl)) hdc
      exact ⟨d, p, l, rfl, rfl, hd, hr⟩

/-- `unpause` resumes the first coroutine of its list. -/
theorem Inv.resume (h : Inv s ch loc) {c : Coro} {k w t : Nat}
    (hc : s.pc c = .unpauseResume k w t) :
    ∃ p l, loc c = p :: l ∧
      Inv ((s.threadResume k w).goto c (.unpauseWalk k t)) ch (Function.update loc c l) := by
  obtain ⟨d, p, l, rfl, hl, hd, hr⟩ := h.resumption hc
  exact ⟨p, l, hl, h.resumed hr hc hd hl⟩

/-- A `co_await` starts with a `pauser` at a free address. -/
theorem Inv.coAwait (h : Inv s ch loc) {c : Coro} {p : Addr} (t : ThreadT) (hc : s.pc c = .idle)
    (hp : s.live p.val = false) :
    Inv { (s.write p.val ⟨t, 0, none⟩).goto c (.awaitReady p) with
      live := Function.update s.live p.val true } ch loc := by
  have hfree : ∀ d, (s.pc d).pauser ≠ some p := by
    intro d hd
    rw [h.live d p hd] at hp
    cases hp
  have h0 : Inv (s.write p.val ⟨t, 0, none⟩) ch loc := by
    refine h.write (fun d n hd => hfree d ?_) (fun d hd => absurd ?_ (hfree d))
    · rw [Pc.eq_of_paused hd]; rfl
    · exact Pc.pauser_of_suspending hd
  set s₁ := s.write p.val ⟨t, 0, none⟩ with hs₁
  have hc : s₁.pc c = .idle := hc
  have hfree : ∀ d, (s₁.pc d).pauser ≠ some p := hfree
  have hn' : ∀ d, ((s₁.goto c (.awaitReady p)).pc d).paused = (s₁.pc d).paused :=
    goto_view Pc.paused (by rw [hc]; rfl)
  have hs' : ∀ d, ((s₁.goto c (.awaitReady p)).pc d).suspending = (s₁.pc d).suspending :=
    goto_view Pc.suspending (by rw [hc]; rfl)
  have ht' : ∀ d, ((s₁.goto c (.awaitReady p)).pc d).taking = (s₁.pc d).taking :=
    goto_view Pc.taking (by rw [hc]; rfl)
  -- the new `pauser` belongs to `c`, and all others are at other addresses
  have hpauser : ∀ d p', ((s₁.goto c (.awaitReady p)).pc d).pauser = some p' →
      (d = c ∧ p' = p) ∨ (p' ≠ p ∧ (s₁.pc d).pauser = some p') := by
    intro d p' hd
    rw [goto_pc] at hd
    split at hd
    · rename_i hdc
      obtain rfl : p = p' := by simpa [Pc.pauser] using hd
      exact Or.inl ⟨hdc, rfl⟩
    · refine Or.inr ⟨?_, hd⟩
      rintro rfl
      exact hfree d hd
  refine { h0 with
    walk := ?_, rest := ?_, one := ?_, tmp := ?_, cas := ?_, live := ?_, owner := ?_, handle := ?_,
    chSusp := ?_, locSusp := ?_, held := ?_, susPushed := ?_, once := ?_ }
  · simp only [ht']
    exact h0.walk
  · simp only [ht']
    exact h0.rest
  · simp only [ht']
    exact h0.one
  · intro u k w t hu
    rw [goto_pc] at hu
    split at hu
    · cases hu
    · exact h0.tmp u k w t hu
  · intro d w hd
    rw [goto_pc] at hd
    split at hd
    · cases hd
    · exact h0.cas d w hd
  · -- live
    intro d p' hd
    show Function.update s.live p.val true p'.val = true
    rcases hpauser d p' hd with ⟨-, rfl⟩ | ⟨hne, hd'⟩
    · exact Function.update_self ..
    · rw [Function.update_of_ne (by simpa using hne)]
      exact h.live d p' hd'
  · -- owner: nobody else has a `pauser` at the free address
    intro d e p' hd he
    rcases hpauser d p' hd with ⟨rfl, rfl⟩ | ⟨hne, hd'⟩ <;>
      rcases hpauser e _ he with ⟨rfl, he'⟩ | ⟨hne', he'⟩
    · rfl
    · exact absurd rfl hne'
    · exact absurd he' hne
    · exact h0.owner d e p' hd' he'
  · simp only [hs']
    exact h0.handle
  · simp only [hn']
    exact h0.chSusp
  · simp only [hn', ht']
    exact h0.locSusp
  · simp only [hn', ht']
    exact h0.held
  · simp only [hn']
    exact h0.susPushed
  · simp only [hn']
    exact h0.once

/-- `pause()` finds the token not paused and pauses it. -/
theorem Inv.pauseCas (h : Inv s ch loc) {c : Coro} {w : Nat} (hc : s.pc c = .pauseCas w)
    (hw : s.resuming = w) : Inv { s.goto c .idle with resuming := 0 } ch loc := by
  have hnil : ch = [] := h.root_eq_flag (hw.trans (h.cas c w hc))
  have h0 : Inv (s.goto c .idle) ch loc := by
    refine h.goto ?_ ?_ ?_ ?_ ?_ ?_ <;> simp [hc, Pc.pauser, Pc.paused, Pc.taking, Pc.suspending]
  exact { h0 with root := Or.inr (by rw [hnil]; rfl) }

/-- The awaiter of a `co_await` that is not suspended writes to its own `pauser`. -/
theorem Inv.writeOwn (h : Inv s ch loc) {c : Coro} {p : Addr} {n : Pauser}
    (hp : (s.pc c).pauser = some p) (hnone : (s.pc c).paused = none) (hh : n.handle = some c) :
    Inv (s.write p.val n) ch loc := by
  have hone : ∀ d, (s.pc d).pauser = some p → d = c := fun d hd => h.owner d c p hd hp
  apply h.write
  · intro d m hd
    rw [hone d (Pc.pauser_of_paused hd), hnone] at hd
    cases hd
  · intro d hd
    rw [hone d (Pc.pauser_of_suspending hd)]
    exact hh

/-- What a step of `c` does, and when. -/
inductive Advances (s : State) (c : Coro) (spurious : Bool) : State → Prop
  | storesHandle (p : Addr) (hpc : s.pc c = .awaitReady p) (hpaused : paused s.resuming = true) :
      Advances s c spurious
        ((s.write p.val { s.mem p.val with handle := some c }).goto c (.suspendLoad p))
  | isReady (p : Addr) (hpc : s.pc c = .awaitReady p) (hopen : paused s.resuming ≠ true) :
      Advances s c spurious (s.leave c p.val)
  | loads (p : Addr) (hpc : s.pc c = .suspendLoad p) :
      Advances s c spurious (s.goto c (.suspendLoop p s.resuming))
  /-- Unpaused in the meantime. -/
  | leaves (p : Addr) (hpc : s.pc c = .suspendLoop p kUnpausedFlag) :
      Advances s c spurious (s.leave c p.val)
  | suspends (p : Addr) (previous : Nat) (hpc : s.pc c = .suspendLoop p previous)
      (hne : previous ≠ kUnpausedFlag) (hword : s.resuming = previous) (hsp : spurious = false) :
      Advances s c spurious
        { (s.write p.val { s.mem p.val with nextWaiting := previous }).goto c
            (.suspended p s.exchanges) with
          resuming := p.val
          pushed := s.pushed ++ [(c, s.exchanges)] }
  | retries (p : Addr) (previous : Nat) (hpc : s.pc c = .suspendLoop p previous)
      (hne : previous ≠ kUnpausedFlag) (hcas : ¬ (s.resuming = previous ∧ spurious = false)) :
      Advances s c spurious
        ((s.write p.val { s.mem p.val with nextWaiting := previous }).goto c
          (.suspendLoop p s.resuming))
  | isPaused (hpc : s.pc c = .pauseLoad) (hne : s.resuming ≠ kUnpausedFlag) :
      Advances s c spurious (s.goto c .idle)
  | isUnpaused (hpc : s.pc c = .pauseLoad) (hflag : s.resuming = kUnpausedFlag) :
      Advances s c spurious (s.goto c (.pauseCas s.resuming))
  | pauses (w : Nat) (hpc : s.pc c = .pauseCas w) (hword : s.resuming = w) :
      Advances s c spurious { s.goto c .idle with resuming := 0 }
  /-- The exchange has failed, and the token is still not paused. -/
  | pauseRetries (w : Nat) (hpc : s.pc c = .pauseCas w) (hflag : s.resuming = kUnpausedFlag) :
      Advances s c spurious (s.goto c (.pauseCas s.resuming))
  | pauseReturns (w : Nat) (hpc : s.pc c = .pauseCas w) (hne : s.resuming ≠ kUnpausedFlag) :
      Advances s c spurious (s.goto c .idle)
  | exchangesFlag (hpc : s.pc c = .unpauseExchange) (hflag : s.resuming = kUnpausedFlag) :
      Advances s c spurious
        (State.goto { s with resuming := kUnpausedFlag, exchanges := s.exchanges + 1 } c .idle)
  | exchanges (hpc : s.pc c = .unpauseExchange) (hne : s.resuming ≠ kUnpausedFlag) :
      Advances s c spurious
        (State.goto { s with resuming := kUnpausedFlag, exchanges := s.exchanges + 1 } c
          (.unpauseWalk s.exchanges s.resuming))
  | walkEnds (k : Nat) (hpc : s.pc c = .unpauseWalk k 0) : Advances s c spurious (s.goto c .idle)
  | walks (k w : Nat) (hpc : s.pc c = .unpauseWalk k w) (hne : w ≠ 0) :
      Advances s c spurious (s.goto c (.unpauseResume k w (s.mem w).nextWaiting))
  | resumes (k w tmp : Nat) (hpc : s.pc c = .unpauseResume k w tmp) :
      Advances s c spurious ((s.threadResume k w).goto c (.unpauseWalk k tmp))

theorem advances_of_advance {s' : State} {c : Coro} {spurious : Bool}
    (hs : s.advance c spurious = some s') : Advances s c spurious s' := by
  cases hc : s.pc c with
  | idle | suspended p n => simp [State.advance, hc] at hs
  | awaitReady p =>
      simp only [State.advance, hc] at hs
      split at hs <;> rename_i hpaused <;> obtain rfl := Option.some.inj hs
      · exact .storesHandle p hc hpaused
      · exact .isReady p hc hpaused
  | suspendLoad p =>
      simp only [State.advance, hc] at hs
      obtain rfl := Option.some.inj hs
      exact .loads p hc
  | suspendLoop p previous =>
      simp only [State.advance, hc] at hs
      split at hs
      · rename_i hflag
        obtain rfl := Option.some.inj hs
        exact .leaves p (by rw [hc, hflag])
      · rename_i hne
        split at hs <;> rename_i hcas <;> obtain rfl := Option.some.inj hs
        · exact .suspends p previous hc hne hcas.1 hcas.2
        · exact .retries p previous hc hne hcas
  | pauseLoad =>
      simp only [State.advance, hc] at hs
      split at hs <;> rename_i hne <;> obtain rfl := Option.some.inj hs
      · exact .isPaused hc hne
      · exact .isUnpaused hc (not_not.mp hne)
  | pauseCas w =>
      simp only [State.advance, hc] at hs
      split at hs
      · rename_i hcas
        obtain rfl := Option.some.inj hs
        exact .pauses w hc hcas.1
      · split at hs <;> rename_i hflag <;> obtain rfl := Option.some.inj hs
        · exact .pauseRetries w hc hflag
        · exact .pauseReturns w hc hflag
  | unpauseExchange =>
      simp only [State.advance, hc] at hs
      split at hs <;> rename_i hflag <;> obtain rfl := Option.some.inj hs
      · exact .exchangesFlag hc hflag
      · exact .exchanges hc hflag
  | unpauseWalk k w =>
      simp only [State.advance, hc] at hs
      split at hs <;> rename_i hzero <;> obtain rfl := Option.some.inj hs
      · exact .walkEnds k (by rw [hc, hzero])
      · exact .walks k w hc hzero
  | unpauseResume k w tmp =>
      simp only [State.advance, hc] at hs
      obtain rfl := Option.some.inj hs
      exact .resumes k w tmp hc

theorem Inv.advance {s' : State} {c : Coro} {spurious : Bool} (h : Inv s ch loc)
    (hs : s.advance c spurious = some s') : ∃ ch' loc', Inv s' ch' loc' := by
  cases advances_of_advance hs with
  | storesHandle p hc =>
      have h0 : Inv (s.write p.val { s.mem p.val with handle := some c }) ch loc :=
        h.writeOwn (by rw [hc]; rfl) (by rw [hc]; rfl) rfl
      refine ⟨ch, loc, h0.goto ?_ ?_ ?_ ?_ ?_ ?_⟩
      all_goals simp [State.write, hc, Pc.pauser, Pc.paused, Pc.taking, Pc.suspending]
  | isReady p hc => exact ⟨ch, loc, h.leave (by rw [hc]; rfl) (by rw [hc]; rfl)⟩
  | loads p hc =>
      have hh := h.handle c p (by rw [hc]; rfl)
      refine ⟨ch, loc, h.goto ?_ ?_ ?_ ?_ ?_ ?_⟩
      all_goals simp [hc, hh, Pc.pauser, Pc.paused, Pc.taking, Pc.suspending]
  | leaves p hc => exact ⟨ch, loc, h.leave (by rw [hc]; rfl) (by rw [hc]; rfl)⟩
  | suspends p previous hc hne hword =>
      have hh := h.handle c p (by rw [hc]; rfl)
      have h0 : Inv (s.write p.val { s.mem p.val with nextWaiting := previous }) ch loc :=
        h.writeOwn (by rw [hc]; rfl) (by rw [hc]; rfl) hh
      refine ⟨p :: ch, loc, h0.push hc ?_ (hword ▸ hne)⟩
      simpa [State.next, State.write] using hword
  | retries p previous hc =>
      have hh := h.handle c p (by rw [hc]; rfl)
      have h0 : Inv (s.write p.val { s.mem p.val with nextWaiting := previous }) ch loc :=
        h.writeOwn (by rw [hc]; rfl) (by rw [hc]; rfl) hh
      refine ⟨ch, loc, h0.goto ?_ ?_ ?_ ?_ ?_ ?_⟩
      all_goals simp [State.write, hc, hh, Pc.pauser, Pc.paused, Pc.taking, Pc.suspending]
  | isPaused hc =>
      refine ⟨ch, loc, h.goto ?_ ?_ ?_ ?_ ?_ ?_⟩
      all_goals simp [hc, Pc.pauser, Pc.paused, Pc.taking, Pc.suspending]
  | isUnpaused hc hf | pauseRetries w hc hf =>
      refine ⟨ch, loc, h.goto ?_ ?_ ?_ ?_ ?_ ?_⟩
      all_goals simp [hc, hf, Pc.pauser, Pc.paused, Pc.taking, Pc.suspending]
  | pauses w hc hword => exact ⟨ch, loc, h.pauseCas hc hword⟩
  | pauseReturns w hc =>
      refine ⟨ch, loc, h.goto ?_ ?_ ?_ ?_ ?_ ?_⟩
      all_goals simp [hc, Pc.pauser, Pc.paused, Pc.taking, Pc.suspending]
  | exchangesFlag hc hf => exact ⟨ch, loc, h.exchange_flag hc hf⟩
  | exchanges hc hf => exact ⟨[], _, h.exchange hc hf⟩
  | walkEnds k hc => exact ⟨ch, loc, h.walk_nil hc⟩
  | walks k w hc hw =>
      refine ⟨ch, loc, h.goto ?_ ?_ ?_ ?_ ?_ ?_⟩
      all_goals simp [hc, Pc.pauser, Pc.paused, Pc.taking, Pc.suspending]
      exact hw
  | resumes k w tmp hc =>
      obtain ⟨p, l, -, h'⟩ := h.resume hc
      exact ⟨ch, _, h'⟩

theorem Inv.step {s' : State} {a : Coro × Action} (h : Inv s ch loc)
    (hs : step s a = some s') : ∃ ch' loc', Inv s' ch' loc' := by
  obtain ⟨c, a⟩ := a
  cases a with
  | coAwait p t =>
      simp only [PauseToken.step] at hs
      split at hs
      · rename_i hc
        obtain rfl := Option.some.inj hs
        exact ⟨ch, loc, h.coAwait t hc.1 hc.2⟩
      · cases hs
  | pause =>
      simp only [PauseToken.step] at hs
      split at hs
      · rename_i hc
        obtain rfl := Option.some.inj hs
        refine ⟨ch, loc, h.goto ?_ ?_ ?_ ?_ ?_ ?_⟩
        all_goals simp [hc, Pc.pauser, Pc.paused, Pc.taking, Pc.suspending]
      · cases hs
  | unpause =>
      simp only [PauseToken.step] at hs
      split at hs
      · rename_i hc
        obtain rfl := Option.some.inj hs
        refine ⟨ch, loc, h.goto ?_ ?_ ?_ ?_ ?_ ?_⟩
        all_goals simp [hc, Pc.pauser, Pc.paused, Pc.taking, Pc.suspending]
      · cases hs
  | advance spurious => exact h.advance hs

theorem inv_init : Inv init [] fun _ => [] := by
  constructor <;> simp [init, Pc.pauser, Pc.paused, Pc.taking, Pc.suspending]

theorem Reachable.inv (h : Reachable s) : ∃ ch loc, Inv s ch loc := by
  refine Reaches.invariant (I := fun s => ∃ ch loc, Inv s ch loc) h ?_ ?_
  · rintro s rfl
    exact ⟨_, _, inv_init⟩
  · rintro s a s' - ⟨ch, loc, h⟩ - hs
    exact h.step hs

/-! ## What the token promises -/

/-- `c` is suspended and no exchange has been made since its push. -/
def State.Waiting (s : State) (c : Coro) : Prop := ∃ p, s.pc c = .suspended p s.exchanges

/-- The handles stored in a list of `pauser`s. -/
def State.handles (s : State) (l : List Addr) : List (Option Coro) :=
  l.map fun p => (s.mem p.val).handle

/-- **Nobody is lost.** -/
structure Sound (s : State) : Prop where
  /-- The word is the flag, and nobody waits, or it is the root of a list that holds exactly the
  coroutines that wait, once each. -/
  list : (s.resuming = kUnpausedFlag ∧ ∀ c, ¬ s.Waiting c) ∨
    ∃ ch, Chain Addr.val s.next 0 s.resuming ch ∧ (s.handles ch).Nodup ∧
      ∀ c, some c ∈ s.handles ch ↔ s.Waiting c
  /-- While the token is not paused, whoever is suspended is on the list of an `unpause`. -/
  held : ∀ c p n, s.pc c = .suspended p n → s.resuming = kUnpausedFlag →
    ∃ u w l, (s.pc u).taking = some (n, w) ∧ Chain Addr.val s.next 0 w l ∧ some c ∈ s.handles l
  /-- A push is resumed by the first exchange after it, once. -/
  once : ∀ c n, (c, n) ∈ s.pushed →
    s.resumptions c n = if (s.pc c).paused.map Prod.snd = some n then 0 else 1
  /-- Nobody else is resumed. -/
  only : ∀ r ∈ s.resumed, ∃ c, r.handle = some c ∧ (c, r.exchange) ∈ s.pushed
  /-- An `unpause` comes to its end, and then everybody its exchange took has been resumed. -/
  finishes : ∀ u k w, (s.pc u).taking = some (k, w) → ∃ m s',
    run step anyStep s (List.replicate m (u, .advance false)) = some s' ∧ s'.pc u = .idle ∧
      ∀ c, (c, k) ∈ s.pushed → s'.resumptions c k = 1
  /-- `pause()` moves nobody and keeps the list. -/
  keeps : ∀ c b s', (s.pc c = .pauseLoad ∨ ∃ w, s.pc c = .pauseCas w) →
    s.advance c b = some s' →
      (∀ d, d ≠ c → s'.pc d = s.pc d) ∧
      ∀ ch, Chain Addr.val s.next 0 s.resuming ch → Chain Addr.val s'.next 0 s'.resuming ch

theorem Inv.handles_nodup (h : Inv s ch loc) {l : List Addr} (hl : l.Nodup)
    (hsus : ∀ p ∈ l, ∃ c n, (s.pc c).paused = some (p, n)) : (s.handles l).Nodup := by
  refine List.Nodup.map_on ?_ hl
  intro p hp q hq heq
  obtain ⟨c, n, hc⟩ := hsus p hp
  obtain ⟨d, m, hd⟩ := hsus q hq
  have hc := Pc.eq_of_paused hc
  have hd := Pc.eq_of_paused hd
  rw [h.handle c p (by rw [hc]; rfl), h.handle d q (by rw [hd]; rfl)] at heq
  obtain rfl := Option.some.inj heq
  have : Pc.suspended p n = .suspended q m := hc.symm.trans hd
  cases this
  rfl

theorem Inv.mem_handles (h : Inv s ch loc) {l : List Addr} {c : Coro} {n : Nat}
    (hsus : ∀ p ∈ l, ∃ d, (s.pc d).paused = some (p, n)) :
    some c ∈ s.handles l ↔ ∃ p ∈ l, s.pc c = .suspended p n := by
  rw [State.handles, List.mem_map]
  constructor
  · rintro ⟨p, hp, hh⟩
    obtain ⟨d, hd⟩ := hsus p hp
    have hd := Pc.eq_of_paused hd
    rw [h.handle d p (by rw [hd]; rfl)] at hh
    obtain rfl := Option.some.inj hh
    exact ⟨p, hp, hd⟩
  · rintro ⟨p, hp, hc⟩
    exact ⟨p, hp, h.handle c p (by rw [hc]; rfl)⟩

/-- Run alone, an `unpause` resumes every member of its list and returns. -/
theorem Inv.finishes (h : Inv s ch loc) {u : Coro} {k w : Nat} (hu : s.pc u = .unpauseWalk k w) :
    ∃ m s', run PauseToken.step anyStep s (List.replicate m (u, .advance false)) = some s' ∧
      s'.pc u = .idle ∧ s'.pushed = s.pushed ∧ ∃ ch' loc', Inv s' ch' loc' ∧
        ∀ c p n, s'.pc c = .suspended p n → n ≠ k := by
  induction hl : loc u generalizing s loc w with
  | nil =>
      have hk : (s.pc u).taking = some (k, w) := by rw [hu]; rfl
      have hw : w = 0 := by simpa [hl] using (h.walk u k w hk).2
      subst hw
      have hstep : PauseToken.step s (u, .advance false) = some (s.goto u .idle) := by
        simp [PauseToken.step, State.advance, hu]
      refine ⟨1, _, run_cons trivial hstep, by simp, rfl, ch, loc, h.walk_nil hu, ?_⟩
      intro c p n hc hn
      have hcu : c ≠ u := by rintro rfl; simp at hc
      have hc' : (s.pc c).paused = some (p, n) := by
        have : s.pc c = .suspended p n := by simpa [hcu] using hc
        rw [this]; rfl
      have hlt := (h.walk u k 0 hk).1
      rcases h.held c p n hc' with ⟨hx, -⟩ | ⟨v, w', hv, hm⟩
      · omega
      · obtain rfl := h.one u v k 0 w' hk (hn ▸ hv)
        rw [hl] at hm; cases hm
  | cons p l ih =>
      have hk : (s.pc u).taking = some (k, w) := by rw [hu]; rfl
      have hw := (h.walk u k w hk).2
      rw [hl] at hw
      have hw0 : w ≠ 0 := by rw [hw.1]; exact p.val_ne_zero
      have h1 : PauseToken.step s (u, .advance false)
          = some (s.goto u (.unpauseResume k w (s.mem w).nextWaiting)) := by
        simp [PauseToken.step, State.advance, hu, hw0]
      have hI : Inv (s.goto u (.unpauseResume k w (s.mem w).nextWaiting)) ch loc := by
        refine h.goto ?_ ?_ ?_ ?_ ?_ ?_
        all_goals simp [hu, Pc.pauser, Pc.paused, Pc.taking, Pc.suspending]
        exact hw0
      set s₁ := s.goto u (.unpauseResume k w (s.mem w).nextWaiting) with hs₁
      have hpc₁ : s₁.pc u = .unpauseResume k w (s.mem w).nextWaiting := by simp [hs₁]
      obtain ⟨p', l', hl', hI'⟩ := hI.resume hpc₁
      obtain ⟨rfl, rfl⟩ : p = p' ∧ l = l' := by simpa [hl] using hl'
      have h2 : PauseToken.step s₁ (u, .advance false)
          = some ((s₁.threadResume k w).goto u (.unpauseWalk k (s.mem w).nextWaiting)) := by
        simp [PauseToken.step, State.advance, hpc₁]
      obtain ⟨m, s', hrun, hidle, hpush, hrest⟩ := ih hI' (goto_self ..) (Function.update_self ..)
      refine ⟨m + 2, s', ?_, hidle, ?_, hrest⟩
      · rw [List.replicate_succ, List.replicate_succ, run_cons trivial h1, run_cons trivial h2]
        exact hrun
      · exact hpush.trans (threadResume_pushed s₁ k w)

/-- The word is the flag, and nobody waits, or it is the root of the list of those who wait. -/
theorem Inv.waiting (h : Inv s ch loc) : (s.resuming = kUnpausedFlag ∧ ∀ c, ¬ s.Waiting c) ∨
    ∃ ch, Chain Addr.val s.next 0 s.resuming ch ∧ (s.handles ch).Nodup ∧
      ∀ c, some c ∈ s.handles ch ↔ s.Waiting c := by
  -- the exchange that will resume `c` has not been made, so that `c` is on no `unpause`'s list
  have hin : ∀ c p, s.pc c = .suspended p s.exchanges → p ∈ ch := by
    intro c p hc
    rcases h.held c p _ (by rw [hc]; rfl) with ⟨-, hm⟩ | ⟨u, w, hu, -⟩
    · exact hm
    · exact absurd (h.walk u _ w hu).1 (Nat.lt_irrefl _)
  rcases h.root with ⟨hr, hnil⟩ | hr
  · refine Or.inl ⟨hr, ?_⟩
    rintro c ⟨p, hc⟩
    have hm := hin c p hc
    rw [hnil] at hm
    cases hm
  · refine Or.inr ⟨ch, hr, h.handles_nodup h.chNodup ?_, fun c => ?_⟩
    · intro p hp
      obtain ⟨c, hc⟩ := h.chSusp p hp
      exact ⟨c, _, hc⟩
    · rw [h.mem_handles h.chSusp]
      constructor
      · rintro ⟨p, -, hc⟩
        exact ⟨p, hc⟩
      · rintro ⟨p, hc⟩
        exact ⟨p, hin c p hc, hc⟩

/-- Run alone from its walk, an `unpause` resumes everybody its exchange took. -/
theorem Inv.finishes_walk (h : Inv s ch loc) {u : Coro} {k w : Nat}
    (hu : s.pc u = .unpauseWalk k w) : ∃ m s',
      run PauseToken.step anyStep s (List.replicate m (u, .advance false)) = some s' ∧
        s'.pc u = .idle ∧ ∀ c, (c, k) ∈ s.pushed → s'.resumptions c k = 1 := by
  obtain ⟨m, s', hrun, hidle, hpush, ch', loc', h', hno⟩ := h.finishes hu
  refine ⟨m, s', hrun, hidle, fun c hc => ?_⟩
  rw [h'.once c k (hpush ▸ hc), if_neg]
  intro hsus
  obtain ⟨⟨p, n⟩, hp, hn⟩ := Option.map_eq_some_iff.mp hsus
  exact hno c p n (Pc.eq_of_paused hp) hn

/-- The same from anywhere in its loop. -/
theorem Inv.finishes_taking (h : Inv s ch loc) {u : Coro} {k w : Nat}
    (hu : (s.pc u).taking = some (k, w)) : ∃ m s',
      run PauseToken.step anyStep s (List.replicate m (u, .advance false)) = some s' ∧
        s'.pc u = .idle ∧ ∀ c, (c, k) ∈ s.pushed → s'.resumptions c k = 1 := by
  cases hpc : s.pc u with
  | unpauseWalk k' w' =>
      obtain ⟨rfl, rfl⟩ : k' = k ∧ w' = w := by simpa [hpc, Pc.taking] using hu
      exact h.finishes_walk hpc
  | unpauseResume k' w' t =>
      obtain ⟨rfl, rfl⟩ : k' = k ∧ w' = w := by simpa [hpc, Pc.taking] using hu
      obtain ⟨p, l, -, h'⟩ := h.resume hpc
      have hstep : PauseToken.step s (u, .advance false)
          = some ((s.threadResume k' w').goto u (.unpauseWalk k' t)) := by
        simp [PauseToken.step, State.advance, hpc]
      obtain ⟨m, s', hrun, hidle, hall⟩ := h'.finishes_walk (goto_self ..)
      refine ⟨m + 1, s', ?_, hidle, fun c hc => hall c ?_⟩
      · rw [List.replicate_succ, run_cons trivial hstep]
        exact hrun
      · exact (threadResume_pushed s k' w').symm ▸ hc
  | _ => simp [hpc, Pc.taking] at hu

/-- `pause()` moves nobody and keeps the list. -/
theorem Inv.keeps (h : Inv s ch loc) {s' : State} {c : Coro} {b : Bool}
    (hc : s.pc c = .pauseLoad ∨ ∃ w, s.pc c = .pauseCas w) (hs : s.advance c b = some s') :
    (∀ d, d ≠ c → s'.pc d = s.pc d) ∧
      ∀ l, Chain Addr.val s.next 0 s.resuming l → Chain Addr.val s'.next 0 s'.resuming l := by
  rcases hc with hc | ⟨w, hc⟩
  · simp only [State.advance, hc] at hs
    split at hs
    all_goals
      obtain rfl := Option.some.inj hs
      exact ⟨fun d hd => by simp [hd], fun l hl => hl⟩
  · simp only [State.advance, hc] at hs
    split at hs
    · rename_i hcas
      obtain rfl := Option.some.inj hs
      refine ⟨fun d hd => by simp [hd], fun l hl => ?_⟩
      -- the swap succeeds on the flag only, which is the root of no list
      cases l with
      | nil => exact absurd (hl.symm.trans (hcas.1.trans (h.cas c w hc))) (by decide)
      | cons a l => exact absurd (hl.1.symm.trans (hcas.1.trans (h.cas c w hc))) a.val_ne_one
    · split at hs
      all_goals
        obtain rfl := Option.some.inj hs
        exact ⟨fun d hd => by simp [hd], fun l hl => hl⟩

theorem Inv.sound (h : Inv s ch loc) : Sound s where
  list := h.waiting
  held c p n hc hf := by
    rcases h.held c p n (by rw [hc]; rfl) with ⟨-, hm⟩ | ⟨u, w, hu, hm⟩
    · rw [h.root_eq_flag hf] at hm
      cases hm
    · exact ⟨u, w, loc u, hu, (h.walk u n w hu).2,
        (h.mem_handles (h.locSusp u n w hu)).mpr ⟨p, hm, hc⟩⟩
  once := h.once
  only := h.log
  finishes u k w hu := h.finishes_taking hu
  keeps c b s' hc hs := h.keeps hc hs

/-- **`pause_token` loses nobody.** -/
theorem pauseToken_sound (h : Reachable s) : Sound s := by
  obtain ⟨ch, loc, h⟩ := h.inv
  exact h.sound

/-- Two coroutines are paused, the second after a spurious failure, and a third one unpauses. -/
def twoPaused : List (Coro × Action) :=
  [(1, .coAwait (.nth 0) ⟨0⟩), (1, .advance false), (1, .advance false),
    (2, .coAwait (.nth 1) ⟨1⟩), (2, .advance false), (2, .advance false),
    (1, .advance true), (1, .advance false), (2, .advance false), (2, .advance false),
    (3, .unpause), (3, .advance false)]

theorem pauseToken_sound_twoPaused :
    ∃ s, run step anyStep init twoPaused = some s ∧ s.resuming = kUnpausedFlag ∧
      s.pushed = [(1, 0), (2, 0)] ∧ Sound s := by
  obtain ⟨s, hs, h1, h2⟩ : ∃ s, run step anyStep init twoPaused = some s ∧
      s.resuming = kUnpausedFlag ∧ s.pushed = [(1, 0), (2, 0)] := ⟨_, rfl, rfl, rfl⟩
  exact ⟨s, hs, h1, h2, pauseToken_sound (Reaches.run (Reaches.start rfl) hs)⟩

end

end Zab.PauseToken
