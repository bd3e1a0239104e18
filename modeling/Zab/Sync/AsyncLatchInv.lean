import Zab.Sync.AsyncLatch

set_option autoImplicit false

/-! # `async_latch` opens once

The decrement that completes the sum makes the only call of `unpause`, and this call is the only
exchange of the token, because nobody pauses it. So the token tells two times apart: before the
exchange every `co_await` that has started is still going on, and afterwards nobody can push.

The counter is `amount` minus what has been subtracted until it wraps around, so the invariant
holds up to that point. The last run of this file goes beyond it.
-/

/-! ## A token that is never paused

It is closed until the first exchange and open from then on. -/

namespace Zab.PauseToken

/-- The operation a coroutine is in. -/
inductive Role where
  | idle
  | await
  | exchange
  | walk
  | pause
  deriving DecidableEq

def Pc.role : Pc → Role
  | .idle => .idle
  | .awaitReady _ | .suspendLoad _ | .suspendLoop _ _ | .suspended _ _ => .await
  | .unpauseExchange => .exchange
  | .unpauseWalk _ _ | .unpauseResume _ _ _ => .walk
  | .pauseLoad | .pauseCas _ => .pause

structure NeverPaused (t : State) : Prop where
  noPause : ∀ c, (t.pc c).role ≠ .pause
  opened : t.resuming = kUnpausedFlag ↔ t.exchanges ≠ 0
  previous : ∀ c p, t.pc c = .suspendLoop p kUnpausedFlag → t.exchanges ≠ 0
  nodup : t.pushed.Nodup

/-- What a step of the operation that `c` is in does: only an exchange is counted, and nobody's
`co_await` ends before one. -/
structure Moved (t t' : State) (c : Coro) : Prop where
  others : ∀ d, d ≠ c → t'.pc d = t.pc d ∨
    ((t.pc d).role = .await ∧ t'.pc d = .idle ∧ t.exchanges ≠ 0)
  own : (t.pc c).role = .await ∧ t'.exchanges = t.exchanges ∧
      ((t'.pc c).role = .await ∨ (t'.pc c = .idle ∧ t.exchanges ≠ 0)) ∨
    (t.pc c).role = .exchange ∧ t'.exchanges = t.exchanges + 1 ∧
      ((t'.pc c).role = .walk ∨ t'.pc c = .idle) ∨
    (t.pc c).role = .walk ∧ t'.exchanges = t.exchanges ∧ t.exchanges ≠ 0 ∧
      ((t'.pc c).role = .walk ∨ t'.pc c = .idle)

section

variable {t t' : State} {ch : List Addr} {loc : Coro → List Addr} {c : Coro}

theorem step_coAwait {p : Addr} {thread : ThreadT}
    (hs : step t (c, .coAwait p thread) = some t') :
    t'.pc = Function.update t.pc c (.awaitReady p) ∧ t'.resuming = t.resuming ∧
      t'.exchanges = t.exchanges ∧ t'.pushed = t.pushed := by
  simp only [step] at hs
  split at hs
  · obtain rfl := Option.some.inj hs
    exact ⟨rfl, rfl, rfl, rfl⟩
  · cases hs

/-- What becomes of the operations: they go on or end, and an exchange is followed by a walk. -/
theorem Moved.role (h : Moved t t' c) (d : Coro) :
    (t'.pc d).role = (t.pc d).role ∧ (d = c → (t.pc d).role ≠ .exchange) ∨ t'.pc d = .idle ∨
      (t.pc d).role = .exchange ∧ (t'.pc d).role = .walk := by
  by_cases hdc : d = c
  · subst hdc
    rcases h.own with ⟨hrole, -, hnext | ⟨hnext, -⟩⟩ | ⟨hrole, -, hnext | hnext⟩ |
      ⟨hrole, -, -, hnext | hnext⟩
    · exact Or.inl ⟨hnext.trans hrole.symm, fun _ => by simp [hrole]⟩
    · exact Or.inr (Or.inl hnext)
    · exact Or.inr (Or.inr ⟨hrole, hnext⟩)
    · exact Or.inr (Or.inl hnext)
    · exact Or.inl ⟨hnext.trans hrole.symm, fun _ => by simp [hrole]⟩
    · exact Or.inr (Or.inl hnext)
  · rcases h.others d hdc with hsame | ⟨-, hidle, -⟩
    · exact Or.inl ⟨by rw [hsame], fun heq => absurd heq hdc⟩
    · exact Or.inr (Or.inl hidle)

/-- A `co_await` does not end before an exchange. -/
theorem Moved.await_ends (h : Moved t t' c) {d : Coro} (hd : (t.pc d).role = .await)
    (hidle : t'.pc d = .idle) : t.exchanges ≠ 0 := by
  by_cases hdc : d = c
  · subst hdc
    rcases h.own with ⟨-, -, hnext⟩ | ⟨hrole, -, -⟩ | ⟨hrole, -, -, -⟩
    · rcases hnext with hnext | ⟨-, hne⟩
      · rw [hidle] at hnext
        cases hnext
      · exact hne
    · rw [hd] at hrole
      cases hrole
    · rw [hd] at hrole
      cases hrole
  · rcases h.others d hdc with hsame | ⟨-, -, hne⟩
    · rw [← hsame, hidle] at hd
      cases hd
    · exact hne

/-- Only an exchange is counted. -/
theorem Moved.exchanges_eq (h : Moved t t' c) (hrole : (t.pc c).role ≠ .exchange) :
    t'.exchanges = t.exchanges := by
  rcases h.own with ⟨-, hex, -⟩ | ⟨hc, -, -⟩ | ⟨-, hex, -⟩
  · exact hex
  · exact absurd hc hrole
  · exact hex

theorem Moved.exchanges_le (h : Moved t t' c) : t.exchanges ≤ t'.exchanges := by
  rcases h.own with ⟨-, hex, -⟩ | ⟨-, hex, -⟩ | ⟨-, hex, -⟩ <;> omega

/-- The end of an `unpause` comes after its exchange. -/
theorem Moved.unpause_ends (h : Moved t t' c) {d : Coro}
    (hd : (t.pc d).role = .exchange ∨ (t.pc d).role = .walk) (hidle : t'.pc d = .idle) :
    t'.exchanges ≠ 0 := by
  by_cases hdc : d = c
  · subst hdc
    rcases h.own with ⟨hrole, -, -⟩ | ⟨-, hex, -⟩ | ⟨-, hex, hne, -⟩
    · rcases hd with hd | hd <;> simp [hd] at hrole
    · omega
    · omega
  · rcases h.others d hdc with hsame | ⟨hrole, -, -⟩
    · rw [← hsame, hidle] at hd
      rcases hd with hd | hd <;> cases hd
    · rcases hd with hd | hd <;> simp [hd] at hrole

/-- An `unpause` stays before its exchange until it makes it. -/
theorem Moved.exchange_made (h : Moved t t' c) {d : Coro} (hd : (t.pc d).role = .exchange) :
    (t'.pc d).role = .exchange ∨ t'.exchanges ≠ 0 := by
  by_cases hdc : d = c
  · subst hdc
    rcases h.own with ⟨hrole, -⟩ | ⟨-, hex, -⟩ | ⟨hrole, -⟩
    · simp [hd] at hrole
    · exact Or.inr (by omega)
    · simp [hd] at hrole
  · rcases h.others d hdc with hsame | ⟨hrole, -, -⟩
    · rw [hsame]
      exact Or.inl hd
    · simp [hd] at hrole

/-- A step that only moves `c`. -/
theorem moved_goto {q : Pc} (hpc : t'.pc = Function.update t.pc c q)
    (hown : (t.pc c).role = .await ∧ t'.exchanges = t.exchanges ∧
        (q.role = .await ∨ (q = .idle ∧ t.exchanges ≠ 0)) ∨
      (t.pc c).role = .exchange ∧ t'.exchanges = t.exchanges + 1 ∧ (q.role = .walk ∨ q = .idle) ∨
      (t.pc c).role = .walk ∧ t'.exchanges = t.exchanges ∧ t.exchanges ≠ 0 ∧
        (q.role = .walk ∨ q = .idle)) :
    Moved t t' c := by
  refine ⟨fun d hd => Or.inl ?_, ?_⟩
  · rw [hpc]
    exact Function.update_of_ne hd ..
  · rw [hpc, Function.update_self]
    exact hown

/-- A step that only moves `c`, to a place where it does not pause, keeps the token as it is. -/
theorem NeverPaused.goto (h : NeverPaused t) {q : Pc} (hpc : t'.pc = Function.update t.pc c q)
    (hword : t'.resuming = t.resuming) (hex : t'.exchanges = t.exchanges)
    (hpush : t'.pushed = t.pushed) (hq : q.role ≠ .pause)
    (hprev : ∀ p, q = .suspendLoop p kUnpausedFlag → t.exchanges ≠ 0) : NeverPaused t' := by
  refine ⟨fun d => ?_, by rw [hword, hex]; exact h.opened, fun d p hd => ?_,
    by rw [hpush]; exact h.nodup⟩
  · rw [hpc]
    by_cases hdc : d = c
    · rw [hdc, Function.update_self]
      exact hq
    · rw [Function.update_of_ne hdc]
      exact h.noPause d
  · rw [hex]
    rw [hpc] at hd
    by_cases hdc : d = c
    · rw [hdc, Function.update_self] at hd
      exact hprev p hd
    · rw [Function.update_of_ne hdc] at hd
      exact h.previous d p hd

/-- An unpaused token has been exchanged. -/
theorem NeverPaused.exchanged (h : NeverPaused t) (hi : Inv t ch loc)
    (hw : paused t.resuming = false) : t.exchanges ≠ 0 := by
  refine h.opened.mp ?_
  rcases hi.root with ⟨hflag, -⟩ | hroot
  · exact hflag
  · exfalso
    cases ch with
    | nil =>
        rw [show t.resuming = 0 from hroot] at hw
        exact absurd hw (by decide)
    | cons p l =>
        obtain ⟨hp, -⟩ := hroot
        have heven : t.resuming &&& kUnpausedFlag = 0 := by
          rw [hp, kUnpausedFlag, Nat.and_one_is_mod]
          have := p.aligned
          omega
        simp [paused, heven] at hw

/-- A push is not made twice between two exchanges. -/
theorem Inv.notMem_pushed (hi : Inv t ch loc) (hc : (t.pc c).paused = none) :
    (c, t.exchanges) ∉ t.pushed := by
  intro hmem
  have hone := hi.once c t.exchanges hmem
  rw [if_neg (by rw [hc]; simp)] at hone
  have hpos : 0 < t.resumptions c t.exchanges := by omega
  obtain ⟨r, hr, hrc⟩ := List.countP_pos_iff.mp hpos
  have hlt := hi.before r hr
  have : r.exchange = t.exchanges := by simpa using (of_decide_eq_true hrc).2
  omega

/-- A push, while the token is closed. -/
theorem NeverPaused.push (h : NeverPaused t) (hi : Inv t ch loc) {p : Addr}
    (hc : (t.pc c).paused = none) (hclosed : t.exchanges = 0)
    (hpc : t'.pc = Function.update t.pc c (.suspended p t.exchanges)) (hword : t'.resuming = p.val)
    (hex : t'.exchanges = t.exchanges) (hpush : t'.pushed = t.pushed ++ [(c, t.exchanges)]) :
    NeverPaused t' := by
  have hg : NeverPaused (t.goto c (.suspended p t.exchanges)) :=
    h.goto rfl rfl rfl rfl (by simp [Pc.role]) (by simp)
  constructor
  · rw [hpc]
    exact hg.noPause
  · rw [hword, hex]
    exact ⟨fun hp => absurd hp p.val_ne_one, fun hne => absurd hclosed hne⟩
  · rw [hpc, hex]
    exact hg.previous
  · rw [hpush, ← List.concat_eq_append]
    exact List.Nodup.concat (hi.notMem_pushed hc) h.nodup

/-- An exchange; whatever the word was, it is the flag then. -/
theorem NeverPaused.exchange (h : NeverPaused t) {q : Pc} (hq : q.role ≠ .pause)
    (hprev : ∀ p, q ≠ .suspendLoop p kUnpausedFlag) :
    NeverPaused (({ t with
      resuming := kUnpausedFlag
      exchanges := t.exchanges + 1 } : State).goto c q) := by
  have hg : NeverPaused (t.goto c q) := h.goto rfl rfl rfl rfl hq fun p hp => absurd hp (hprev p)
  exact ⟨hg.noPause, ⟨fun _ => Nat.succ_ne_zero _, fun _ => rfl⟩,
    fun d p _ => Nat.succ_ne_zero _, h.nodup⟩

/-- A resumption. -/
theorem NeverPaused.resumed (h : NeverPaused t) {d : Coro} {p : Addr} {k w : Nat}
    (hr : Resumed t t' c d p k w) : NeverPaused t' := by
  constructor
  · intro e
    by_cases hec : e = c
    · rw [hec, hr.unpauser]
      simp [Pc.role]
    · by_cases hed : e = d
      · rw [hed, hr.paused]
        simp [Pc.role]
      · rw [hr.others e hec hed]
        exact h.noPause e
  · rw [hr.word, hr.exchanges]
    exact h.opened
  · intro e q he
    rw [hr.exchanges]
    exact h.previous e q (hr.unmoved he Pc.noConfusion Pc.noConfusion)
  · rw [hr.pushed]
    exact h.nodup

/-- Only the resumed coroutine moves besides the one that resumes it. -/
theorem moved_resumed {d : Coro} {p : Addr} {k w : Nat} (hr : Resumed t t' c d p k w)
    (hc : t.pc c = .unpauseResume k p.val w) (hd : t.pc d = .suspended p k)
    (hex : t.exchanges ≠ 0) : Moved t t' c := by
  constructor
  · intro e he
    by_cases hed : e = d
    · exact Or.inr ⟨by rw [hed, hd]; rfl, by rw [hed, hr.paused], hex⟩
    · exact Or.inl (hr.others e he hed)
  · exact Or.inr (Or.inr ⟨by rw [hc]; rfl, hr.exchanges, hex, Or.inl (by rw [hr.unpauser]; rfl)⟩)

theorem NeverPaused.advance (h : NeverPaused t) (hi : Inv t ch loc) {spurious : Bool}
    (hs : t.advance c spurious = some t') : NeverPaused t' ∧ Moved t t' c := by
  cases advances_of_advance hs with
  | storesHandle p hc =>
      exact ⟨h.goto rfl rfl rfl rfl (by simp [Pc.role]) (by simp),
        moved_goto rfl (Or.inl ⟨by rw [hc]; rfl, rfl, Or.inl rfl⟩)⟩
  | isReady p hc hopen =>
      have hex := h.exchanged hi (by simpa using hopen)
      exact ⟨h.goto rfl rfl rfl rfl (by simp [Pc.role]) (by simp),
        moved_goto rfl (Or.inl ⟨by rw [hc]; rfl, rfl, Or.inr ⟨rfl, hex⟩⟩)⟩
  | loads p hc =>
      refine ⟨h.goto rfl rfl rfl rfl (by simp [Pc.role]) fun p hq => ?_,
        moved_goto rfl (Or.inl ⟨by rw [hc]; rfl, rfl, Or.inl rfl⟩)⟩
      exact h.opened.mp (by injection hq)
  | leaves p hc =>
      -- the word that was loaded was the flag, so that there has been an exchange
      have hex := h.previous c p hc
      exact ⟨h.goto rfl rfl rfl rfl (by simp [Pc.role]) (by simp),
        moved_goto rfl (Or.inl ⟨by rw [hc]; rfl, rfl, Or.inr ⟨rfl, hex⟩⟩)⟩
  | suspends p previous hc hne hword =>
      have hclosed : t.exchanges = 0 := by
        by_contra hex
        exact hne (hword.symm.trans (h.opened.mpr hex))
      exact ⟨h.push hi (by rw [hc]; rfl) hclosed rfl rfl rfl rfl,
        moved_goto rfl (Or.inl ⟨by rw [hc]; rfl, rfl, Or.inl rfl⟩)⟩
  | retries p previous hc =>
      refine ⟨h.goto rfl rfl rfl rfl (by simp [Pc.role]) fun p hq => ?_,
        moved_goto rfl (Or.inl ⟨by rw [hc]; rfl, rfl, Or.inl rfl⟩)⟩
      exact h.opened.mp (by injection hq)
  | isPaused hc | isUnpaused hc | pauses w hc | pauseRetries w hc | pauseReturns w hc =>
      exact absurd (by rw [hc]; rfl) (h.noPause c)
  | exchangesFlag hc =>
      exact ⟨h.exchange (by simp [Pc.role]) (by simp),
        moved_goto rfl (Or.inr (Or.inl ⟨by rw [hc]; rfl, rfl, Or.inr rfl⟩))⟩
  | exchanges hc =>
      exact ⟨h.exchange (by simp [Pc.role]) (by simp),
        moved_goto rfl (Or.inr (Or.inl ⟨by rw [hc]; rfl, rfl, Or.inl rfl⟩))⟩
  | walkEnds k hc =>
      have hex : t.exchanges ≠ 0 := Nat.ne_zero_of_lt (hi.walk c k 0 (by rw [hc]; rfl)).1
      exact ⟨h.goto rfl rfl rfl rfl (by simp [Pc.role]) (by simp),
        moved_goto rfl (Or.inr (Or.inr ⟨by rw [hc]; rfl, rfl, hex, Or.inr rfl⟩))⟩
  | walks k w hc =>
      have hex : t.exchanges ≠ 0 := Nat.ne_zero_of_lt (hi.walk c k w (by rw [hc]; rfl)).1
      exact ⟨h.goto rfl rfl rfl rfl (by simp [Pc.role]) (by simp),
        moved_goto rfl (Or.inr (Or.inr ⟨by rw [hc]; rfl, rfl, hex, Or.inl rfl⟩))⟩
  | resumes k w tmp hc =>
      obtain ⟨d, p, l, rfl, -, hd, hr⟩ := hi.resumption hc
      have hex : t.exchanges ≠ 0 := Nat.ne_zero_of_lt (hi.walk c k p.val (by rw [hc]; rfl)).1
      exact ⟨h.resumed hr, moved_resumed hr hc hd hex⟩

end

end Zab.PauseToken

/-! ## The invariant of the latch -/

namespace Zab.AsyncLatch

open Automaton
open PauseToken (Role NeverPaused Moved)

/-- What the coroutine does inside the token. -/
def Fits : Pc → Role → Prop
  | .awaiting, r => r = .idle ∨ r = .await
  | .unpausing _, r => r = .idle ∨ r = .exchange ∨ r = .walk
  | _, r => r = .idle

/-- The invariant, as long as the counter does not wrap around. -/
structure Inv (amount : Amount) (s : State) : Prop where
  token : PauseToken.Reachable s.complete
  never : NeverPaused s.complete
  count : s.count = amount.val - total s.decrements
  fits : ∀ c, Fits (s.pc c) (s.complete.pc c).role
  closed : total s.decrements < amount.val → s.unpauses = []
  crossing : amount.val ≤ total s.decrements → ∃ before c n after,
    s.decrements = before ++ (c, n) :: after ∧ total before < amount.val ∧
      amount.val ≤ total before + n ∧ s.unpauses = [(c, before.length)]
  /-- Who is in `unpause` is the only one to have called it. -/
  caller : ∀ c wait, s.pc c = .unpausing wait → (∃ i, s.unpauses = [(c, i)]) ∧ s.returned = 0
  exchange : ∀ c, (s.complete.pc c).role = .exchange → s.complete.exchanges = 0
  exchanged : ∀ c wait, s.pc c = .unpausing wait → s.complete.pc c = .idle →
    s.complete.exchanges ≠ 0
  called : s.unpauses = [] → s.complete.exchanges = 0
  returned : s.returned ≠ 0 → s.complete.exchanges ≠ 0
  early : s.complete.exchanges = 0 →
    s.continued = [] ∧ ∀ c, s.pc c = .awaiting → s.complete.pc c ≠ .idle

section

variable {amount : Amount} {s s' : State} {c : Coro}

theorem role_idle {q : PauseToken.Pc} (h : q.role = .idle) : q = .idle := by
  cases q <;> first | rfl | cases h

theorem total_append (l : List (Coro × Nat)) (c : Coro) (n : Nat) :
    total (l ++ [(c, n)]) = total l + n := by
  simp [total]

theorem toPtrdiff_of_le {z : Int} (h : -2 ^ 63 ≤ z) (h' : z < 2 ^ 63) : toPtrdiff z = z := by
  unfold toPtrdiff
  rw [Int.bmod_def]
  omega

/-- The operation inside the token may have ended or not begun. -/
theorem fits_idle (q : Pc) : Fits q .idle := by
  cases q with
  | awaiting | unpausing wait => exact Or.inl rfl
  | _ => rfl

/-- An `unpause` goes on after its exchange. -/
theorem Fits.walk {q : Pc} (h : Fits q .exchange) : Fits q .walk := by
  cases q with
  | unpausing wait => exact Or.inr (Or.inr rfl)
  | _ => simp [Fits] at h

/-- Who is in `unpause` has been sent there by `count_down`. -/
theorem Fits.unpausing {q : Pc} {r : Role} (h : Fits q r) (hr : r = .walk ∨ r = .exchange) :
    ∃ wait, q = .unpausing wait := by
  cases q with
  | unpausing wait => exact ⟨wait, rfl⟩
  | _ =>
      simp only [Fits] at h
      rcases hr with hr | hr <;> simp [hr] at h

/-- Whoever goes on inside the token goes on with the same call. -/
theorem Fits.moved {q : Pc} {t t' : PauseToken.State} {d : Coro} (h : Fits q (t.pc d).role)
    (hm : Moved t t' c) : Fits q (t'.pc d).role := by
  rcases hm.role d with ⟨hsame, -⟩ | hidle | ⟨hrole, hwalk⟩
  · rw [hsame]
    exact h
  · rw [hidle]
    exact fits_idle q
  · rw [hrole] at h
    rw [hwalk]
    exact h.walk

theorem Inv.fits_walk (h : Inv amount s) (hr : (s.complete.pc c).role = .walk ∨
    (s.complete.pc c).role = .exchange) : ∃ wait, s.pc c = .unpausing wait :=
  (h.fits c).unpausing hr

/-- There is only one caller of `unpause`. -/
theorem Inv.caller_unique (h : Inv amount s) {d : Coro} {wait wait' : Bool}
    (hc : s.pc c = .unpausing wait) (hd : s.pc d = .unpausing wait') : c = d := by
  obtain ⟨⟨i, hi⟩, -⟩ := h.caller c wait hc
  obtain ⟨⟨j, hj⟩, -⟩ := h.caller d wait' hd
  rw [hi] at hj
  simp only [List.cons.injEq, Prod.mk.injEq] at hj
  exact hj.1.1

/-- A step inside the token. -/
theorem Inv.inside (h : Inv amount s) {t : PauseToken.State} {spurious : Bool}
    (hs : s.complete.advance c spurious = some t) : Inv amount { s with complete := t } := by
  have hreach : PauseToken.Reachable t :=
    h.token.next trivial (show PauseToken.step s.complete (c, .advance spurious) = some t from hs)
  obtain ⟨ch, loc, hi⟩ := h.token.inv
  obtain ⟨hnever, hmoved⟩ := h.never.advance hi hs
  have hmono := hmoved.exchanges_le
  -- the exchange is made by whoever is in `unpause`
  have hcaller : (s.complete.pc c).role = .exchange → ∃ wait, s.pc c = .unpausing wait :=
    fun hrole => h.fits_walk (Or.inr hrole)
  refine { h with token := hreach, never := hnever, fits := ?_, exchange := ?_, exchanged := ?_,
                  called := ?_, returned := ?_, early := ?_ }
  · intro d
    exact (h.fits d).moved hmoved
  · intro d hd
    have hd : (t.pc d).role = .exchange := hd
    rcases hmoved.role d with ⟨hsame, hne⟩ | hidle | ⟨-, hwalk⟩
    · have hrole : (s.complete.pc d).role = .exchange := hsame.symm.trans hd
      refine (hmoved.exchanges_eq fun hc => ?_).trans (h.exchange d hrole)
      -- there is only one caller, and `c` has just moved
      obtain ⟨wait, hcw⟩ := hcaller hc
      obtain ⟨wait', hdw⟩ := h.fits_walk (Or.inr hrole)
      exact hne (h.caller_unique hdw hcw) hrole
    · rw [hidle] at hd
      cases hd
    · rw [hd] at hwalk
      cases hwalk
  · -- exchanged: an `unpause` that is over has made its exchange
    intro d wait hd hidle
    have hfit := h.fits d
    rw [show s.pc d = .unpausing wait from hd] at hfit
    rcases hfit with hfit | hfit
    · have hne := h.exchanged d wait hd (role_idle hfit)
      show t.exchanges ≠ 0
      omega
    · exact hmoved.unpause_ends hfit hidle
  · intro hnone
    refine (hmoved.exchanges_eq fun hrole => ?_).trans (h.called hnone)
    obtain ⟨wait, hcw⟩ := hcaller hrole
    obtain ⟨⟨i, hi⟩, -⟩ := h.caller c wait hcw
    rw [show s.unpauses = [] from hnone] at hi
    cases hi
  · intro hret
    have hne := h.returned hret
    show t.exchanges ≠ 0
    omega
  · -- early: while the token is closed, no `co_await` ends
    intro hzero
    have hzero : t.exchanges = 0 := hzero
    have hbefore : s.complete.exchanges = 0 := by omega
    obtain ⟨hnone, hwaits⟩ := h.early hbefore
    refine ⟨hnone, fun d hd hidle => ?_⟩
    have hfit := h.fits d
    rw [show s.pc d = .awaiting from hd] at hfit
    rcases hfit with hfit | hfit
    · exact hwaits d hd (role_idle hfit)
    · exact hmoved.await_ends hfit hidle hbefore

/-- A step that leaves the token alone and only moves `c`. -/
theorem Inv.goto (h : Inv amount s) {q : Pc} (hfit : Fits q (s.complete.pc c).role)
    (hun : ∀ wait, q ≠ .unpausing wait)
    (hidle : q = .awaiting → s.complete.pc c = .idle → s.complete.exchanges ≠ 0) :
    Inv amount (s.goto c q) := by
  refine { h with fits := ?_, caller := ?_, exchanged := ?_, early := ?_ }
  · exact (Function.forall_update_iff s.pc fun d q => Fits q (s.complete.pc d).role).mpr
      ⟨hfit, fun d _ => h.fits d⟩
  · exact (Function.forall_update_iff s.pc fun d q => ∀ wait, q = .unpausing wait →
        (∃ i, s.unpauses = [(d, i)]) ∧ s.returned = 0).mpr
      ⟨fun wait hq => absurd hq (hun wait), fun d _ => h.caller d⟩
  · exact (Function.forall_update_iff s.pc fun d q => ∀ wait, q = .unpausing wait →
        s.complete.pc d = .idle → s.complete.exchanges ≠ 0).mpr
      ⟨fun wait hq => absurd hq (hun wait), fun d _ => h.exchanged d⟩
  · intro hzero
    obtain ⟨hnone, hwaits⟩ := h.early hzero
    refine ⟨hnone, (Function.forall_update_iff s.pc fun d q => q = .awaiting →
      s.complete.pc d ≠ .idle).mpr ⟨fun hq hcomplete => ?_, fun d _ => hwaits d⟩⟩
    exact hidle hq hcomplete hzero

theorem afterCountDown_ne (wait : Bool) :
    (∀ w, afterCountDown wait ≠ .unpausing w) ∧ afterCountDown wait ≠ .awaiting := by
  cases wait <;> simp [afterCountDown]

/-- A decrement that does not complete the sum, or comes after the one that did. -/
theorem Inv.decrement (h : Inv amount s) {n : Nat}
    (hnot : ¬ (total s.decrements < amount.val ∧ amount.val ≤ total s.decrements + n)) :
    Inv amount { s with
      count := amount.val - total (s.decrements ++ [(c, n)])
      decrements := s.decrements ++ [(c, n)] } := by
  refine { h with count := rfl, closed := ?_, crossing := ?_ }
  · intro hlt
    rw [total_append] at hlt
    exact h.closed (by omega)
  · intro hle
    rw [total_append] at hle
    obtain ⟨before, d, m, after, hdec, hlt, hcross, hun⟩ := h.crossing (by omega)
    exact ⟨before, d, m, after ++ [(c, n)], by simp [hdec], hlt, hcross, hun⟩

/-- The decrement that completes the sum starts the call of `unpause`. -/
theorem Inv.cross (h : Inv amount s) {n : Nat} (wait : Bool)
    (hidle : s.complete.pc c = .idle) (hlt : total s.decrements < amount.val)
    (hle : amount.val ≤ total s.decrements + n) :
    Inv amount { s with
      count := amount.val - total (s.decrements ++ [(c, n)])
      decrements := s.decrements ++ [(c, n)]
      unpauses := s.unpauses ++ [(c, s.decrements.length)]
      pc := Function.update s.pc c (.unpausing wait)
      complete := s.complete.goto c .unpauseExchange } := by
  have hnone := h.closed hlt
  have hzero := h.called hnone
  have hret : s.returned = 0 := by
    by_contra hret
    exact h.returned hret hzero
  have hnobody : ∀ d w, s.pc d ≠ .unpausing w := by
    intro d w hd
    obtain ⟨⟨i, hi⟩, -⟩ := h.caller d w hd
    rw [hnone] at hi
    cases hi
  have hcall : PauseToken.step s.complete (c, .unpause)
      = some (s.complete.goto c .unpauseExchange) := by
    simp [PauseToken.step, hidle]
  refine ⟨h.token.next trivial hcall,
    h.never.goto rfl rfl rfl rfl (by simp [PauseToken.Pc.role]) (by simp), rfl, ?_, ?_, ?_, ?_,
    fun _ _ => hzero, ?_, ?_, fun hne => absurd hret hne, ?_⟩
  · intro d
    by_cases hdc : d = c
    · subst hdc
      simp [Fits, PauseToken.Pc.role]
    · simpa [hdc] using h.fits d
  · intro hlt'
    rw [total_append] at hlt'
    omega
  · -- crossing: this is the decrement that crosses
    intro _
    exact ⟨s.decrements, c, n, [], rfl, hlt, hle, by simp [hnone]⟩
  · -- caller: nobody has called before
    intro d w hd
    by_cases hdc : d = c
    · subst hdc
      exact ⟨⟨s.decrements.length, by simp [hnone]⟩, hret⟩
    · exact absurd (by simpa [hdc] using hd) (hnobody d w)
  · intro d w hd hd'
    by_cases hdc : d = c
    · subst hdc
      simp at hd'
    · exact absurd (by simpa [hdc] using hd) (hnobody d w)
  · intro hempty
    simp at hempty
  · intro _
    obtain ⟨hcont, hwaits⟩ := h.early hzero
    refine ⟨hcont, fun d hd => ?_⟩
    by_cases hdc : d = c
    · subst hdc
      simp at hd
    · simpa [hdc] using hwaits d (by simpa [hdc] using hd)

/-- `complete_.unpause()` returns. -/
theorem Inv.unpaused (h : Inv amount s) {wait : Bool} (hc : s.pc c = .unpausing wait)
    (hidle : s.complete.pc c = .idle) :
    Inv amount { s.goto c (afterCountDown wait) with returned := s.returned + 1 } := by
  have hex := h.exchanged c wait hc hidle
  have hg : Inv amount (s.goto c (afterCountDown wait)) := by
    refine h.goto ?_ (afterCountDown_ne wait).1 fun hq => absurd hq (afterCountDown_ne wait).2
    rw [hidle]
    exact fits_idle (afterCountDown wait)
  refine { hg with caller := ?_, returned := fun _ => hex }
  -- the caller was the only one
  intro d w hd
  exfalso
  by_cases hdc : d = c
  · subst hdc
    exact (afterCountDown_ne wait).1 w (by simpa [State.goto] using hd)
  · exact hdc (h.caller_unique (by simpa [State.goto, hdc] using hd) hc)

/-- A `co_await` of the token starts. -/
theorem Inv.wait (h : Inv amount s) {p : Addr} {thread : ThreadT} {t : PauseToken.State}
    (hs : PauseToken.step s.complete (c, .coAwait p thread) = some t) :
    Inv amount { s.goto c .awaiting with complete := t } := by
  have hreach := h.token.next trivial hs
  obtain ⟨hupdate, hword, hex, hpush⟩ := PauseToken.step_coAwait hs
  have hself : t.pc c = .awaitReady p := by rw [hupdate, Function.update_self]
  have hpc : ∀ d, d ≠ c → t.pc d = s.complete.pc d := by
    intro d hd
    rw [hupdate, Function.update_of_ne hd]
  refine { h with token := hreach, never := ?_, fits := ?_, caller := ?_, exchange := ?_,
                  exchanged := ?_, called := ?_, returned := ?_, early := ?_ }
  · exact h.never.goto hupdate hword hex hpush (by simp [PauseToken.Pc.role]) (by simp)
  · -- fits
    intro d
    show Fits ((s.goto c .awaiting).pc d) (t.pc d).role
    by_cases hdc : d = c
    · subst hdc
      rw [hself]
      simp [State.goto, Fits, PauseToken.Pc.role]
    · rw [hpc d hdc]
      simpa [State.goto, hdc] using h.fits d
  · intro d w hd
    by_cases hdc : d = c
    · subst hdc
      simp [State.goto] at hd
    · exact h.caller d w (by simpa [State.goto, hdc] using hd)
  · intro d hd
    show t.exchanges = 0
    rw [hex]
    by_cases hdc : d = c
    · subst hdc
      simp [hself, PauseToken.Pc.role] at hd
    · simp only [hpc d hdc] at hd
      exact h.exchange d hd
  · -- exchanged: `c` is in `co_await`, and the others have not moved
    intro d w hd hd'
    show t.exchanges ≠ 0
    rw [hex]
    by_cases hdc : d = c
    · subst hdc
      simp [State.goto] at hd
    · simp only [hpc d hdc] at hd'
      exact h.exchanged d w (by simpa [State.goto, hdc] using hd) hd'
  · intro hnone
    exact hex.trans (h.called hnone)
  · intro hret
    show t.exchanges ≠ 0
    rw [hex]
    exact h.returned hret
  · -- early: the new `co_await` has just begun
    intro hzero
    obtain ⟨hcont, hwaits⟩ := h.early (hex.symm.trans hzero)
    refine ⟨hcont, fun d hd => ?_⟩
    show t.pc d ≠ .idle
    by_cases hdc : d = c
    · subst hdc
      simp [hself]
    · rw [hpc d hdc]
      exact hwaits d (by simpa [State.goto, hdc] using hd)

/-- The branch of `count_down`, while the counter does not wrap around. -/
theorem Inv.crosses_iff (h : Inv amount s) (n : Nat) :
    (s.count > 0 ∧ s.count ≤ n) ↔ (total s.decrements < amount.val ∧
      amount.val ≤ total s.decrements + n) := by
  rw [h.count]
  omega

/-- What a step of `c` does, and when. -/
inductive Effect (s : State) (c : Coro) : Action → State → Prop
  | countDown (n : Amount) (hpc : s.pc c = .idle) :
      Effect s c (.countDown n) (s.goto c (.fetchSub n false))
  | arriveAndWait (n : Amount) (hpc : s.pc c = .idle) :
      Effect s c (.arriveAndWait n) (s.goto c (.fetchSub n true))
  | wait (p : Addr) (thread : ThreadT) (t : PauseToken.State)
      (hpc : s.pc c = .idle ∨ s.pc c = .arrived)
      (ht : PauseToken.step s.complete (c, .coAwait p thread) = some t) :
      Effect s c (.wait p thread) { s.goto c .awaiting with complete := t }
  /-- The decrement completes the sum, and `unpause` is called. -/
  | crosses (n : Amount) (wait spurious : Bool) (t : PauseToken.State)
      (hpc : s.pc c = .fetchSub n wait) (hcross : s.count > 0 ∧ s.count ≤ n.val)
      (ht : PauseToken.step s.complete (c, .unpause) = some t) :
      Effect s c (.advance spurious)
        { s.goto c (.unpausing wait) with
          count := toPtrdiff (s.count - n.val)
          decrements := s.decrements ++ [(c, n.val)]
          unpauses := s.unpauses ++ [(c, s.decrements.length)]
          complete := t }
  | decrements (n : Amount) (wait spurious : Bool) (hpc : s.pc c = .fetchSub n wait)
      (hcross : ¬ (s.count > 0 ∧ s.count ≤ n.val)) :
      Effect s c (.advance spurious)
        { s.goto c (afterCountDown wait) with
          count := toPtrdiff (s.count - n.val)
          decrements := s.decrements ++ [(c, n.val)] }
  | unpauses (wait spurious : Bool) (t : PauseToken.State) (hpc : s.pc c = .unpausing wait)
      (ht : s.complete.advance c spurious = some t) :
      Effect s c (.advance spurious) { s with complete := t }
  | returns (wait spurious : Bool) (hpc : s.pc c = .unpausing wait)
      (hidle : s.complete.pc c = .idle) :
      Effect s c (.advance spurious)
        { s.goto c (afterCountDown wait) with returned := s.returned + 1 }
  | awaits (spurious : Bool) (t : PauseToken.State) (hpc : s.pc c = .awaiting)
      (ht : s.complete.advance c spurious = some t) :
      Effect s c (.advance spurious) { s with complete := t }
  | continues (spurious : Bool) (hpc : s.pc c = .awaiting) (hidle : s.complete.pc c = .idle) :
      Effect s c (.advance spurious) { s.goto c .idle with continued := s.continued ++ [c] }

/-- A step inside the token, as a step of the latch. -/
theorem inside_eq_some {a : Coro × PauseToken.Action} (hs : s.inside a = some s') :
    ∃ t, PauseToken.step s.complete a = some t ∧ s' = { s with complete := t } := by
  obtain ⟨t, ht, rfl⟩ := Option.map_eq_some_iff.mp hs
  exact ⟨t, ht, rfl⟩

theorem effect_of_step {a : Action} (hs : step s (c, a) = some s') : Effect s c a s' := by
  cases a with
  | countDown n =>
      obtain ⟨hc, hs⟩ := Option.ite_none_right_eq_some.mp hs
      obtain rfl := Option.some.inj hs
      exact .countDown n hc
  | arriveAndWait n =>
      obtain ⟨hc, hs⟩ := Option.ite_none_right_eq_some.mp hs
      obtain rfl := Option.some.inj hs
      exact .arriveAndWait n hc
  | wait p thread =>
      obtain ⟨hc, hs⟩ := Option.ite_none_right_eq_some.mp hs
      obtain ⟨t, ht, rfl⟩ := inside_eq_some hs
      exact .wait p thread t hc ht
  | advance spurious =>
      cases hc : s.pc c with
      | idle | arrived => simp [step, State.advance, hc] at hs
      | fetchSub n wait =>
          simp only [step, State.advance, hc] at hs
          split at hs
          · rename_i hcross
            obtain ⟨t, ht, rfl⟩ := inside_eq_some hs
            exact .crosses n wait spurious t hc hcross ht
          · rename_i hcross
            obtain rfl := Option.some.inj hs
            exact .decrements n wait spurious hc hcross
      | unpausing wait =>
          simp only [step, State.advance, hc] at hs
          split at hs
          · rename_i hidle
            obtain rfl := Option.some.inj hs
            exact .returns wait spurious hc hidle
          · obtain ⟨t, ht, rfl⟩ := inside_eq_some hs
            exact .unpauses wait spurious t hc ht
      | awaiting =>
          simp only [step, State.advance, hc] at hs
          split at hs
          · rename_i hidle
            obtain rfl := Option.some.inj hs
            exact .continues spurious hc hidle
          · obtain ⟨t, ht, rfl⟩ := inside_eq_some hs
            exact .awaits spurious t hc ht

/-- Decrements are never taken back. -/
theorem total_mono {a : Coro × Action} (hs : step s a = some s') :
    total s.decrements ≤ total s'.decrements := by
  obtain ⟨c, a⟩ := a
  cases effect_of_step hs with
  | crosses | decrements => exact (Nat.le_add_right _ _).trans (total_append ..).ge
  | countDown | arriveAndWait | wait | unpauses | returns | awaits | continues =>
      exact Nat.le_refl _

/-- The counter after a decrement, while it does not wrap around. -/
theorem Inv.count_eq (h : Inv amount s) {n : Amount}
    (hfit : total (s.decrements ++ [(c, n.val)]) ≤ amount.val + 2 ^ 63) :
    toPtrdiff (s.count - n.val) = amount.val - (total (s.decrements ++ [(c, n.val)]) : Nat) := by
  have hA := amount.isLt
  rw [total_append] at hfit ⊢
  rw [h.count, toPtrdiff_of_le (by omega) (by omega)]
  omega

/-- Who counts down is not in the token. -/
theorem Inv.complete_idle (h : Inv amount s) {n : Amount} {wait : Bool}
    (hc : s.pc c = .fetchSub n wait) : s.complete.pc c = .idle := by
  have hfits := h.fits c
  rw [hc] at hfits
  exact role_idle hfits

theorem Inv.step {a : Coro × Action} (h : Inv amount s) (hs : step s a = some s')
    (hfit : total s'.decrements ≤ amount.val + 2 ^ 63) : Inv amount s' := by
  obtain ⟨c, a⟩ := a
  cases effect_of_step hs with
  | countDown n hc | arriveAndWait n hc =>
      have hfits := h.fits c
      rw [hc] at hfits
      exact h.goto hfits (by simp) (by simp)
  | wait p thread t hc ht => exact h.wait ht
  | crosses n wait spurious t hc hcross ht =>
      have hidle := h.complete_idle hc
      obtain ⟨hlt, hle⟩ := (h.crosses_iff n.val).mp hcross
      have hnext := h.cross wait hidle hlt hle
      rw [PauseToken.step, if_pos hidle] at ht
      obtain rfl := Option.some.inj ht
      rw [h.count_eq hfit]
      exact hnext
  | decrements n wait spurious hc hcross =>
      have hdec := h.decrement (c := c) (n := n.val) fun hx => hcross ((h.crosses_iff n.val).mpr hx)
      rw [h.count_eq hfit]
      refine hdec.goto ?_ (afterCountDown_ne wait).1 fun hq => absurd hq (afterCountDown_ne wait).2
      show Fits _ (s.complete.pc c).role
      rw [h.complete_idle hc]
      exact fits_idle (afterCountDown wait)
  | unpauses wait spurious t hc ht => exact h.inside ht
  | returns wait spurious hc hidle => exact h.unpaused hc hidle
  | awaits spurious t hc ht => exact h.inside ht
  | continues spurious hc hidle =>
      have hg : Inv amount (s.goto c .idle) := h.goto (by rw [hidle]; rfl) (by simp) (by simp)
      -- nobody continues while the token is closed
      have hex : s.complete.exchanges ≠ 0 := fun hzero => (h.early hzero).2 c hc hidle
      exact { hg with early := fun hzero => absurd hzero hex }

theorem neverPaused_init : NeverPaused PauseToken.init := by
  constructor <;> simp [PauseToken.init, PauseToken.Pc.role, PauseToken.kUnpausedFlag]

theorem inv_init (hA : 0 < amount.val) : Inv amount (init amount) := by
  refine ⟨Reaches.start rfl, neverPaused_init, ?_, fun _ => rfl, fun _ => rfl, fun hle => ?_,
    fun c wait hc => ?_, fun _ _ => rfl, fun c wait hc => ?_, fun _ => rfl, ?_, fun _ => ⟨rfl, ?_⟩⟩
  · simp [init, total]
  · exact absurd hle (Nat.not_le_of_lt hA)
  · cases hc
  · cases hc
  · simp [init]
  · intro c hc
    cases hc

/-- The invariant holds as long as the counter does not wrap around. -/
theorem Reachable.inv (hA : 0 < amount.val) (h : Reachable amount s)
    (hfit : total s.decrements ≤ amount.val + 2 ^ 63) : Inv amount s := by
  refine Reaches.invariant
    (I := fun s => total s.decrements ≤ amount.val + 2 ^ 63 → Inv amount s) h ?_ ?_ hfit
  · rintro s rfl -
    exact inv_init hA
  · rintro s a s' - ih - hs hfit
    exact (ih ((total_mono hs).trans hfit)).step hs hfit

/-- When `unpause` has returned, nobody is suspended. -/
theorem Inv.released (h : Inv amount s) (hret : s.returned ≠ 0) (c : Coro) (p : Addr) (n : Nat) :
    s.complete.pc c ≠ .suspended p n := by
  intro hc
  have hflag := h.never.opened.mpr (h.returned hret)
  -- whoever is suspended is on the list of an `unpause` in progress
  obtain ⟨ch, loc, hi⟩ := h.token.inv
  obtain ⟨u, w, -, hu, -, -⟩ := hi.sound.held c p n hc hflag
  have hwalk : (s.complete.pc u).role = .walk := by
    cases hq : s.complete.pc u with
    | unpauseWalk k w => rfl
    | unpauseResume k w t => rfl
    | _ => simp [hq, PauseToken.Pc.taking] at hu
  obtain ⟨wait, hu⟩ := h.fits_walk (Or.inl hwalk)
  exact hret (h.caller u wait hu).2

/-- **`async_latch` opens once**, as long as its counter does not wrap around. -/
theorem asyncLatch_opensOnce (hA : 0 < amount.val) (h : Reachable amount s)
    (hfit : total s.decrements ≤ amount.val + 2 ^ 63) : OpensOnce amount s := by
  have hi := h.inv hA hfit
  obtain ⟨ch, loc, htoken⟩ := hi.token.inv
  have hsound := htoken.sound
  refine ⟨hi.closed, hi.crossing, fun hlt => hi.early (hi.called (hi.closed hlt)), hi.released, ?_⟩
  intro hret
  refine ⟨hi.never.nodup, fun x hx => ?_, hsound.only⟩
  rw [hsound.once x.1 x.2 hx, if_neg]
  intro hsus
  obtain ⟨⟨p, n⟩, hp, -⟩ := Option.map_eq_some_iff.mp hsus
  exact hi.released hret x.1 p n (PauseToken.Pc.eq_of_paused hp)

/-- One coroutine waits, the next arrives and waits, and a third one opens the latch with an
amount that overshoots. -/
def waitThenOpen : List (Coro × Action) :=
  ([(1, .wait (.nth 0) ⟨0⟩), (1, .advance false), (1, .advance false),
    (1, .advance false), (2, .arriveAndWait ⟨1, by decide⟩), (2, .advance false),
    (2, .wait (.nth 1) ⟨1⟩), (2, .advance false), (2, .advance false),
    (2, .advance false), (3, .countDown ⟨5, by decide⟩)] : List (Coro × Action)) ++
    List.replicate 8 (3, .advance false) ++ [(2, .advance false)]

theorem asyncLatch_opensOnce_waitThenOpen :
    ∃ s, run step anyStep (init ⟨3, by decide⟩) waitThenOpen = some s ∧
      s.unpauses = [(3, 1)] ∧ s.returned = 1 ∧ s.continued = [2] ∧
      OpensOnce ⟨3, by decide⟩ s := by
  have hend : (run step anyStep (init ⟨3, by decide⟩) waitThenOpen).map
      (fun s => (s.unpauses, s.returned, s.continued, total s.decrements)) =
        some ([(3, 1)], 1, [2], 6) := by decide +kernel
  obtain ⟨s, hs, hs'⟩ := Option.map_eq_some_iff.mp hend
  simp only [Prod.mk.injEq] at hs'
  obtain ⟨h1, h2, h3, htotal⟩ := hs'
  have hfit : total s.decrements ≤ 3 + 2 ^ 63 := by
    rw [htotal]
    decide
  exact ⟨s, hs, h1, h2, h3,
    asyncLatch_opensOnce (by decide) (Reaches.run (Reaches.start rfl) hs) hfit⟩

/-- Two decrements of `2 ^ 63 - 1` take the counter around to `3`. -/
def wrapAround : List (Coro × Action) :=
  [(1, .countDown ⟨2 ^ 63 - 1, by decide⟩), (1, .advance false), (1, .advance false),
    (1, .advance false), (1, .advance false), (2, .countDown ⟨2 ^ 63 - 1, by decide⟩),
    (2, .advance false), (3, .countDown ⟨3, by decide⟩), (3, .advance false)]

/-- The decrement that takes the counter from `3` to `0` unpauses the token again. -/
theorem asyncLatch_wrapAround :
    ∃ s, Reachable ⟨1, by decide⟩ s ∧ s.unpauses = [(1, 0), (3, 2)] ∧
      ¬ OpensOnce ⟨1, by decide⟩ s := by
  obtain ⟨s, hs, hun, htotal⟩ : ∃ s,
      run step anyStep (init ⟨1, by decide⟩) wrapAround = some s ∧
        s.unpauses = [(1, 0), (3, 2)] ∧ 1 ≤ total s.decrements := ⟨_, rfl, rfl, by decide⟩
  refine ⟨s, Reaches.run (Reaches.start rfl) hs, hun, fun h => ?_⟩
  obtain ⟨before, c, n, after, -, -, -, hone⟩ := h.crossing htotal
  have hlen := congrArg List.length hone
  rw [hun] at hlen
  simp at hlen

end

end Zab.AsyncLatch
