import Zab.Sync.AsyncLatchInv

set_option autoImplicit false

/-! # `async_latch::try_wait`

`try_wait` reads the counter, and `wait` asks the token. The token opens when the counter is taken
from a positive value to one that is not, which can happen to a latch that was made with a positive
amount, or after the counter has wrapped around. `try_wait` returns `count_ > 0`: true before the
latch opens, and false afterwards.
-/

namespace Zab.AsyncLatch

open Automaton
open PauseToken (Role NeverPaused Moved)

/-- The value range of `std::ptrdiff_t`. -/
abbrev Ptrdiff := {z : Int // -2 ^ 63 ≤ z ∧ z < 2 ^ 63}

/-- The latch right after its construction with any amount. -/
def construct (amount : Ptrdiff) : State := { init 0 with count := amount.val }

/-- `try_wait()`. -/
def State.tryWait (s : State) : Bool := decide (s.count > 0)

/-- The states that `co_await wait()` of `c` comes to by itself. -/
def State.Waits (s : State) (c : Coro) (p : Addr) (t : ThreadT) : State → Prop :=
  Reaches step (fun _ a => ∃ spurious, a = (c, .advance spurious))
    (fun s₁ => step s (c, .wait p t) = some s₁)

/-- It suspends `c`. -/
def State.suspends (s : State) (c : Coro) (p : Addr) (t : ThreadT) : Prop :=
  ∃ s' n, s.Waits c p t s' ∧ s'.complete.pc c = .suspended p n

/-- It ends, so that `c` continues. -/
def State.passes (s : State) (c : Coro) (p : Addr) (t : ThreadT) : Prop :=
  ∃ s', s.Waits c p t s' ∧ s'.continued = s.continued ++ [c]

/-- No decrement is under way: every call of `count_down` has returned, and every
`arrive_and_wait` has come to its `co_await`. -/
def State.counted (s : State) : Prop :=
  ∀ c, (∀ n wait, s.pc c ≠ .fetchSub n wait) ∧ ∀ wait, s.pc c ≠ .unpausing wait

/-- How much has to be subtracted to take the counter from a positive value to zero: all of a
positive amount, and otherwise once around. -/
def opensAt (amount : Ptrdiff) : Int := if 0 < amount.val then amount.val else amount.val + 2 ^ 64

/-- The amount is not positive and the counter has not wrapped around, or the latch is open and the
counter has wrapped around to a positive value since. -/
def keepsConvention (amount : Ptrdiff) (total : Nat) : Prop :=
  amount.val ≤ 0 ∧ total ≤ amount.val + 2 ^ 63 ∨
    opensAt amount ≤ total ∧ 2 ^ 63 < (total - opensAt amount) % 2 ^ 64

instance (amount : Ptrdiff) (total : Nat) : Decidable (keepsConvention amount total) :=
  inferInstanceAs (Decidable (_ ∨ _))

/-! ## The counter and the token -/

/-- The token is open, or about to be, as soon as the counter has crossed zero. -/
structure Tracks (amount : Ptrdiff) (s : State) : Prop where
  token : PauseToken.Reachable s.complete
  never : NeverPaused s.complete
  fits : ∀ c, Fits (s.pc c) (s.complete.pc c).role
  count : s.count = toPtrdiff (amount.val - total s.decrements)
  crossed : s.unpauses ≠ [] ↔ opensAt amount ≤ total s.decrements
  /-- Only a decrement that crosses zero leads to an exchange, -/
  called : s.unpauses = [] → s.complete.exchanges = 0 ∧ ∀ c wait, s.pc c ≠ .unpausing wait
  /-- which is made before its call of `unpause` returns. -/
  pending : s.unpauses ≠ [] → s.complete.exchanges ≠ 0 ∨ ∃ c, (s.complete.pc c).role = .exchange

section

variable {amount : Ptrdiff} {s s' : State} {c : Coro}

theorem tracks_construct (amount : Ptrdiff) : Tracks amount (construct amount) := by
  have hz := amount.property
  refine ⟨Reaches.start rfl, neverPaused_init, fun _ => rfl, ?_, ?_, fun _ => ⟨rfl, ?_⟩, ?_⟩
  · show amount.val = toPtrdiff (amount.val - (0 : Nat))
    rw [toPtrdiff_of_le (by omega) (by omega)]
    omega
  · show ([] : List (Coro × Nat)) ≠ [] ↔ opensAt amount ≤ (0 : Nat)
    unfold opensAt
    split <;> simp <;> omega
  · intro c wait
    exact Pc.noConfusion
  · intro hne
    exact absurd rfl hne

/-- A decrement crosses zero when it completes the sum. -/
theorem crosses_iff_opens {total : Nat} (n : Amount) (hlt : total < opensAt amount) :
    (toPtrdiff (amount.val - total) > 0 ∧ toPtrdiff (amount.val - total) ≤ n.val) ↔
      opensAt amount ≤ (total + n.val : Nat) := by
  have hn := n.isLt
  have hz := amount.property
  unfold opensAt at hlt ⊢
  unfold toPtrdiff
  rw [Int.bmod_def]
  split at hlt <;> omega

/-- A step inside the token. -/
theorem Tracks.inside (h : Tracks amount s) {t : PauseToken.State} {spurious : Bool}
    (hs : s.complete.advance c spurious = some t) : Tracks amount { s with complete := t } := by
  have hreach : PauseToken.Reachable t :=
    h.token.next trivial (show PauseToken.step s.complete (c, .advance spurious) = some t from hs)
  obtain ⟨ch, loc, hi⟩ := h.token.inv
  obtain ⟨hnever, hmoved⟩ := h.never.advance hi hs
  refine { h with token := hreach, never := hnever, fits := ?_, called := ?_, pending := ?_ }
  · intro d
    exact (h.fits d).moved hmoved
  · intro hnone
    obtain ⟨hzero, hnobody⟩ := h.called hnone
    refine ⟨(hmoved.exchanges_eq fun hrole => ?_).trans hzero, hnobody⟩
    obtain ⟨wait, hc⟩ := (h.fits c).unpausing (Or.inr hrole)
    exact hnobody c wait hc
  · intro hcalled
    rcases h.pending hcalled with hne | ⟨d, hd⟩
    · have := hmoved.exchanges_le
      exact Or.inl (show t.exchanges ≠ 0 by omega)
    · rcases hmoved.exchange_made hd with hrole | hne
      · exact Or.inr ⟨d, hrole⟩
      · exact Or.inl hne

/-- A step that leaves the token alone and only moves `c`. -/
theorem Tracks.goto (h : Tracks amount s) {q : Pc} (hfit : Fits q (s.complete.pc c).role)
    (hun : ∀ wait, q ≠ .unpausing wait) : Tracks amount (s.goto c q) := by
  refine { h with fits := ?_, called := ?_ }
  · exact (Function.forall_update_iff s.pc fun d q => Fits q (s.complete.pc d).role).mpr
      ⟨hfit, fun d _ => h.fits d⟩
  · intro hnone
    obtain ⟨hzero, hnobody⟩ := h.called hnone
    exact ⟨hzero, (Function.forall_update_iff s.pc fun _ q => ∀ wait, q ≠ .unpausing wait).mpr
      ⟨hun, fun d _ => hnobody d⟩⟩

/-- A `co_await` of the token starts. -/
theorem Tracks.wait (h : Tracks amount s) {p : Addr} {thread : ThreadT} {t : PauseToken.State}
    (hidle : s.complete.pc c = .idle)
    (hs : PauseToken.step s.complete (c, .coAwait p thread) = some t) :
    Tracks amount { s.goto c .awaiting with complete := t } := by
  obtain ⟨hupdate, hword, hex, hpush⟩ := PauseToken.step_coAwait hs
  have hother : ∀ d, d ≠ c → t.pc d = s.complete.pc d := by
    intro d hd
    rw [hupdate, Function.update_of_ne hd]
  have hself : t.pc c = .awaitReady p := by rw [hupdate, Function.update_self]
  refine { h with token := h.token.next trivial hs, never := ?_, fits := ?_, called := ?_,
                  pending := ?_ }
  · exact h.never.goto hupdate hword hex hpush (by simp [PauseToken.Pc.role]) (by simp)
  · intro d
    show Fits ((s.goto c .awaiting).pc d) (t.pc d).role
    by_cases hdc : d = c
    · subst hdc
      rw [hself]
      simp [State.goto, Fits, PauseToken.Pc.role]
    · rw [hother d hdc]
      simpa [State.goto, hdc] using h.fits d
  · intro hnone
    obtain ⟨hzero, hnobody⟩ := h.called hnone
    refine ⟨hex.trans hzero, ?_⟩
    exact (Function.forall_update_iff s.pc fun _ q => ∀ wait, q ≠ .unpausing wait).mpr
      ⟨by simp, fun d _ => hnobody d⟩
  · intro hcalled
    rcases h.pending hcalled with hne | ⟨d, hd⟩
    · exact Or.inl (hex ▸ hne)
    · refine Or.inr ⟨d, ?_⟩
      have hdc : d ≠ c := by
        rintro rfl
        rw [hidle] at hd
        cases hd
      show (t.pc d).role = .exchange
      rw [hother d hdc]
      exact hd

/-- The counter after a decrement. -/
theorem toPtrdiff_sub (z n : Int) : toPtrdiff (toPtrdiff z - n) = toPtrdiff (z - n) := by
  unfold toPtrdiff
  exact Int.bmod_sub_bmod

theorem Tracks.count_sub (h : Tracks amount s) (n : Amount) :
    toPtrdiff (s.count - n.val)
      = toPtrdiff (amount.val - (total (s.decrements ++ [(c, n.val)]) : Nat)) := by
  rw [h.count, toPtrdiff_sub, total_append]
  congr 1
  push_cast
  omega

/-- Where the counter is before a decrement that crosses zero, or does not. -/
theorem Tracks.opens_iff (h : Tracks amount s) (n : Amount) :
    opensAt amount ≤ (total (s.decrements ++ [(c, n.val)]) : Nat) ↔
      s.unpauses ≠ [] ∨ s.count > 0 ∧ s.count ≤ n.val := by
  rw [h.crossed, total_append]
  by_cases hle : opensAt amount ≤ total s.decrements
  · have : opensAt amount ≤ (total s.decrements + n.val : Nat) := by omega
    simp only [hle, this, true_or]
  · rw [h.count, crosses_iff_opens n (by omega)]
    simp only [hle, false_or]

/-- Nobody who counts down is in the token. -/
theorem Tracks.complete_idle (h : Tracks amount s) {n : Amount} {wait : Bool}
    (hc : s.pc c = .fetchSub n wait) : s.complete.pc c = .idle := by
  have hfits := h.fits c
  rw [hc] at hfits
  exact role_idle hfits

/-- The decrement that crosses zero starts the call of `unpause`. -/
theorem Tracks.cross (h : Tracks amount s) {n : Amount} (wait : Bool)
    (hidle : s.complete.pc c = .idle) (hcross : s.count > 0 ∧ s.count ≤ n.val) :
    Tracks amount { s.goto c (.unpausing wait) with
      count := toPtrdiff (s.count - n.val)
      decrements := s.decrements ++ [(c, n.val)]
      unpauses := s.unpauses ++ [(c, s.decrements.length)]
      complete := s.complete.goto c .unpauseExchange } := by
  have hcall : PauseToken.step s.complete (c, .unpause)
      = some (s.complete.goto c .unpauseExchange) := by
    simp [PauseToken.step, hidle]
  have hne : s.unpauses ++ [(c, s.decrements.length)] ≠ [] := by simp
  refine ⟨h.token.next trivial hcall,
    h.never.goto rfl rfl rfl rfl (by simp [PauseToken.Pc.role]) (by simp), ?_, h.count_sub n, ?_,
    fun hnone => absurd hnone hne, fun _ => Or.inr ⟨c, ?_⟩⟩
  · intro d
    by_cases hdc : d = c
    · subst hdc
      simp [State.goto, Fits, PauseToken.Pc.role]
    · simpa [State.goto, hdc] using h.fits d
  · exact ⟨fun _ => (h.opens_iff n).mpr (Or.inr hcross), fun _ => hne⟩
  · simp [PauseToken.Pc.role]

/-- A decrement that does not. -/
theorem Tracks.decrement (h : Tracks amount s) {n : Amount}
    (hcross : ¬ (s.count > 0 ∧ s.count ≤ n.val)) :
    Tracks amount { s with
      count := toPtrdiff (s.count - n.val)
      decrements := s.decrements ++ [(c, n.val)] } := by
  refine { h with count := h.count_sub n, crossed := ?_ }
  rw [h.opens_iff n]
  exact ⟨Or.inl, fun hor => hor.resolve_right hcross⟩

theorem Tracks.step {a : Coro × Action} (h : Tracks amount s) (hs : step s a = some s') :
    Tracks amount s' := by
  obtain ⟨c, a⟩ := a
  cases effect_of_step hs with
  | countDown n hc | arriveAndWait n hc =>
      have hfits := h.fits c
      rw [hc] at hfits
      exact h.goto hfits (by simp)
  | wait p thread t hc ht =>
      have hidle : s.complete.pc c = .idle := by
        have hfits := h.fits c
        rcases hc with hc | hc
        · rw [hc] at hfits
          exact role_idle hfits
        · rw [hc] at hfits
          exact role_idle hfits
      exact h.wait hidle ht
  | crosses n wait spurious t hc hcross ht =>
      have hidle := h.complete_idle hc
      rw [PauseToken.step, if_pos hidle] at ht
      obtain rfl := Option.some.inj ht
      exact h.cross wait hidle hcross
  | decrements n wait spurious hc hcross =>
      have hdec := h.decrement (c := c) hcross
      refine hdec.goto ?_ (afterCountDown_ne wait).1
      show Fits _ (s.complete.pc c).role
      rw [h.complete_idle hc]
      exact fits_idle (afterCountDown wait)
  | unpauses wait spurious t hc ht => exact h.inside ht
  | returns wait spurious hc hidle =>
      have hg : Tracks amount (s.goto c (afterCountDown wait)) := by
        refine h.goto ?_ (afterCountDown_ne wait).1
        rw [hidle]
        exact fits_idle (afterCountDown wait)
      exact { hg with }
  | awaits spurious t hc ht => exact h.inside ht
  | continues spurious hc hidle =>
      have hg : Tracks amount (s.goto c .idle) := h.goto (by rw [hidle]; rfl) (by simp)
      exact { hg with }

/-- The token is open exactly when the counter has crossed zero, unless a decrement is under way. -/
theorem Tracks.open_iff (h : Tracks amount s) (hdone : s.counted) :
    s.complete.resuming = PauseToken.kUnpausedFlag ↔ opensAt amount ≤ total s.decrements := by
  rw [h.never.opened, ← h.crossed]
  constructor
  · intro hex hnone
    exact hex (h.called hnone).1
  · intro hcalled
    refine (h.pending hcalled).resolve_right ?_
    rintro ⟨c, hc⟩
    obtain ⟨wait, hun⟩ := (h.fits c).unpausing (Or.inr hc)
    exact (hdone c).2 wait hun

/-- What `try_wait` says. -/
theorem Tracks.tryWait_iff (h : Tracks amount s) :
    s.tryWait = true ↔ toPtrdiff (amount.val - total s.decrements) > 0 := by
  rw [State.tryWait, decide_eq_true_iff, h.count]

/-! ## A `co_await` by itself -/

variable {p : Addr} {t : ThreadT}

/-- The state in which the `co_await` has just begun. -/
theorem exists_wait (hc : s.pc c = .idle) (hidle : s.complete.pc c = .idle)
    (hp : s.complete.live p.val = false) (t : ThreadT) :
    ∃ s₁, step s (c, .wait p t) = some s₁ ∧ s₁.pc c = .awaiting ∧
      s₁.complete.pc c = .awaitReady p ∧ s₁.complete.resuming = s.complete.resuming ∧
      s₁.continued = s.continued := by
  simp only [step, hc, true_or, if_true, State.inside, PauseToken.step, State.goto, hidle, hp,
    and_self, Option.map_some]
  exact ⟨_, rfl, Function.update_self .., Function.update_self .., rfl, rfl⟩

/-- A step inside the token, by the one that awaits it. -/
theorem step_awaiting {spurious : Bool} {u : PauseToken.State} (hc : s.pc c = .awaiting)
    (hne : s.complete.pc c ≠ .idle) (hu : s.complete.advance c spurious = some u) :
    step s (c, .advance spurious) = some { s with complete := u } := by
  simp only [step, State.advance, hc, if_neg hne, State.inside, PauseToken.step, hu,
    Option.map_some]

/-- Nobody else interferes: a step of `c` while it awaits the token is one inside the token, or
the end. -/
theorem awaiting_step {spurious : Bool} (hc : s.pc c = .awaiting)
    (hs : step s (c, .advance spurious) = some s') :
    (∃ u, s.complete.advance c spurious = some u ∧ s' = { s with complete := u }) ∨
      s.complete.pc c = .idle := by
  cases effect_of_step hs with
  | awaits _ u _ hu => exact Or.inl ⟨u, hu, rfl⟩
  | continues _ _ hidle => exact Or.inr hidle
  | crosses _ _ _ _ hpc | decrements _ _ _ hpc | unpauses _ _ _ hpc | returns _ _ hpc =>
      rw [hc] at hpc
      cases hpc

/-- On an open token it ends. -/
theorem passes_of_open (hc : s.pc c = .idle) (hidle : s.complete.pc c = .idle)
    (hp : s.complete.live p.val = false)
    (hopen : s.complete.resuming = PauseToken.kUnpausedFlag) : s.passes c p t := by
  obtain ⟨s₁, hs₁, hpc, hready, hword, hcont⟩ := exists_wait hc hidle hp t
  have hstart : s.Waits c p t s₁ := Reaches.start hs₁
  have hflag : PauseToken.paused s₁.complete.resuming = false := by
    rw [hword, hopen]
    rfl
  -- `await_ready` returns true
  have hleave : s₁.complete.advance c false = some (s₁.complete.leave c p.val) := by
    simp only [PauseToken.State.advance, hready, hflag]
    rfl
  have hne : s₁.complete.pc c ≠ .idle := by
    rw [hready]
    exact PauseToken.Pc.noConfusion
  have hsecond := hstart.next ⟨false, rfl⟩ (step_awaiting hpc hne hleave)
  have hend : (s₁.complete.leave c p.val).pc c = .idle := Function.update_self ..
  refine ⟨{ s₁.goto c .idle with
    complete := s₁.complete.leave c p.val, continued := s₁.continued ++ [c] }, ?_, ?_⟩
  · refine hsecond.next ⟨false, rfl⟩ ?_
    simp only [step, State.advance, hpc, hend, if_true]
    rfl
  · show s₁.continued ++ [c] = s.continued ++ [c]
    rw [hcont]

/-- Where the `co_await` of `c` can be on a token that is closed with the word `w`. -/
def Suspending (c : Coro) (p : Addr) (w : Nat) (u : PauseToken.State) : Prop :=
  u.resuming = w ∧ (u.pc c = .awaitReady p ∨ u.pc c = .suspendLoad p ∨
    u.pc c = .suspendLoop p w) ∨ ∃ n, u.pc c = .suspended p n

theorem Suspending.step {w : Nat} {u u' : PauseToken.State} {spurious : Bool}
    (h : Suspending c p w u) (hclosed : PauseToken.paused w = true)
    (hs : u.advance c spurious = some u') : Suspending c p w u' := by
  have hself : ∀ q, Function.update u.pc c q c = q := fun q => Function.update_self ..
  rcases h with ⟨hword, hpc⟩ | ⟨n, hpc⟩
  · cases PauseToken.advances_of_advance hs with
    | storesHandle q hq =>
        obtain rfl : q = p := by simpa [hq] using hpc
        exact Or.inl ⟨hword, Or.inr (Or.inl (hself _))⟩
    | isReady q hq hopen =>
        rw [hword] at hopen
        exact absurd hclosed hopen
    | loads q hq =>
        obtain rfl : q = p := by simpa [hq] using hpc
        refine Or.inl ⟨hword, Or.inr (Or.inr ?_)⟩
        rw [← hword]
        exact hself _
    | leaves q hq =>
        -- the word that was loaded is not the flag
        obtain ⟨rfl, hflag⟩ : q = p ∧ PauseToken.kUnpausedFlag = w := by simpa [hq] using hpc
        rw [← hflag] at hclosed
        cases hclosed
    | suspends q previous hq =>
        obtain ⟨rfl, -⟩ : q = p ∧ previous = w := by simpa [hq] using hpc
        exact Or.inr ⟨u.exchanges, hself _⟩
    | retries q previous hq =>
        obtain ⟨rfl, -⟩ : q = p ∧ previous = w := by simpa [hq] using hpc
        refine Or.inl ⟨hword, Or.inr (Or.inr ?_)⟩
        rw [← hword]
        exact hself _
    | isPaused hq | isUnpaused hq | pauses _ hq | pauseRetries _ hq | pauseReturns _ hq
    | exchangesFlag hq | exchanges hq | walkEnds _ hq | walks _ _ hq | resumes _ _ _ hq =>
        simp [hq] at hpc
  · simp [PauseToken.State.advance, hpc] at hs

/-- On a closed token it does not end. -/
theorem not_passes_of_closed (hc : s.pc c = .idle) (hidle : s.complete.pc c = .idle)
    (hp : s.complete.live p.val = false) (hclosed : PauseToken.paused s.complete.resuming = true) :
    ¬ s.passes c p t := by
  rintro ⟨s', hw, hend⟩
  have hinv : s'.pc c = .awaiting ∧ Suspending c p s.complete.resuming s'.complete ∧
      s'.continued = s.continued := by
    refine hw.invariant (I := fun s' => s'.pc c = .awaiting ∧
      Suspending c p s.complete.resuming s'.complete ∧ s'.continued = s.continued) ?_ ?_
    · intro s₁ hs₁
      obtain ⟨s₂, hs₂, hpc, hready, hword, hcont⟩ := exists_wait hc hidle hp t
      obtain rfl : s₂ = s₁ := Option.some.inj (hs₂.symm.trans hs₁)
      exact ⟨hpc, Or.inl ⟨hword, Or.inl hready⟩, hcont⟩
    · rintro s₁ a s₂ - ⟨hpc, hsus, hcont⟩ ⟨spurious, rfl⟩ hs
      rcases awaiting_step hpc hs with ⟨u, hu, rfl⟩ | hidle
      · exact ⟨hpc, hsus.step hclosed hu, hcont⟩
      · rcases hsus with ⟨-, hpc⟩ | ⟨n, hpc⟩
        · simp [hidle] at hpc
        · simp [hidle] at hpc
  rw [hinv.2.2] at hend
  simp at hend

/-- It suspends `c`. -/
theorem suspends_of_closed (hc : s.pc c = .idle) (hidle : s.complete.pc c = .idle)
    (hp : s.complete.live p.val = false) (hclosed : PauseToken.paused s.complete.resuming = true) :
    s.suspends c p t := by
  obtain ⟨s₁, hs₁, hpc, hready, hword, -⟩ := exists_wait hc hidle hp t
  have hstart : s.Waits c p t s₁ := Reaches.start hs₁
  rw [← hword] at hclosed
  have hne : s₁.complete.resuming ≠ PauseToken.kUnpausedFlag := by
    intro hflag
    rw [hflag] at hclosed
    cases hclosed
  -- a step of `c` from a place that is not idle
  have hgo : ∀ {s₂ : State} {u : PauseToken.State}, s.Waits c p t s₂ → s₂.pc c = .awaiting →
      s₂.complete.pc c ≠ .idle → s₂.complete.advance c false = some u →
      s.Waits c p t { s₂ with complete := u } :=
    fun hw hpc hne hu => hw.next ⟨false, rfl⟩ (step_awaiting hpc hne hu)
  -- `await_ready` returns false
  obtain ⟨u₂, hu₂, hpc₂, hword₂⟩ : ∃ u, s₁.complete.advance c false = some u ∧
      u.pc c = .suspendLoad p ∧ u.resuming = s₁.complete.resuming := by
    simp only [PauseToken.State.advance, hready, hclosed, if_true]
    exact ⟨_, rfl, Function.update_self .., rfl⟩
  have h₂ := hgo hstart hpc (by rw [hready]; exact PauseToken.Pc.noConfusion) hu₂
  obtain ⟨u₃, hu₃, hpc₃, hword₃⟩ : ∃ u, u₂.advance c false = some u ∧
      u.pc c = .suspendLoop p u.resuming ∧ u.resuming = s₁.complete.resuming := by
    simp only [PauseToken.State.advance, hpc₂]
    exact ⟨_, rfl, Function.update_self .., hword₂⟩
  have h₃ := hgo h₂ hpc (by rw [hpc₂]; exact PauseToken.Pc.noConfusion) hu₃
  -- the push
  obtain ⟨u₄, hu₄, hpc₄⟩ : ∃ u, u₃.advance c false = some u ∧
      u.pc c = .suspended p u₃.exchanges := by
    rw [← hword₃] at hne
    simp only [PauseToken.State.advance, hpc₃, if_neg hne]
    exact ⟨_, if_pos ⟨rfl, trivial⟩, Function.update_self ..⟩
  have h₄ := hgo h₃ hpc (by rw [hpc₃]; exact PauseToken.Pc.noConfusion) hu₄
  exact ⟨_, _, h₄, hpc₄⟩

/-- `c` has left the token. -/
def State.Past (s : State) (c : Coro) : Prop :=
  s.complete.pc c = .idle ∧ (s.pc c = .awaiting ∨ s.pc c = .idle)

theorem State.Past.step {spurious : Bool} (h : s.Past c)
    (hs : Zab.AsyncLatch.step s (c, .advance spurious) = some s') :
    s'.complete = s.complete ∧ s'.Past c := by
  obtain ⟨hidle, hpc | hpc⟩ := h
  · simp only [Zab.AsyncLatch.step, State.advance, hpc, hidle, if_true] at hs
    obtain rfl := Option.some.inj hs
    exact ⟨rfl, hidle, Or.inr (Function.update_self ..)⟩
  · simp [Zab.AsyncLatch.step, State.advance, hpc] at hs

/-- `await_ready` returns true. -/
theorem advance_of_open {u u' : PauseToken.State} {spurious : Bool}
    (hflag : u.resuming = PauseToken.kUnpausedFlag) (hready : u.pc c = .awaitReady p)
    (hu : u.advance c spurious = some u') :
    u'.resuming = PauseToken.kUnpausedFlag ∧ u'.pc c = .idle := by
  have hopen : PauseToken.paused u.resuming = false := by
    rw [hflag]
    rfl
  simp only [PauseToken.State.advance, hready, hopen] at hu
  obtain rfl := Option.some.inj hu
  exact ⟨hflag, Function.update_self ..⟩

/-- On an open token it does not. -/
theorem not_suspends_of_open (hc : s.pc c = .idle) (hidle : s.complete.pc c = .idle)
    (hp : s.complete.live p.val = false)
    (hopen : s.complete.resuming = PauseToken.kUnpausedFlag) : ¬ s.suspends c p t := by
  rintro ⟨s', n, hw, hend⟩
  have hinv : s'.complete.resuming = PauseToken.kUnpausedFlag ∧
      (s'.pc c = .awaiting ∧ s'.complete.pc c = .awaitReady p ∨ s'.Past c) := by
    refine hw.invariant (I := fun s' => s'.complete.resuming = PauseToken.kUnpausedFlag ∧
      (s'.pc c = .awaiting ∧ s'.complete.pc c = .awaitReady p ∨ s'.Past c)) ?_ ?_
    · intro s₁ hs₁
      obtain ⟨s₂, hs₂, hpc, hready, hword, -⟩ := exists_wait hc hidle hp t
      obtain rfl : s₂ = s₁ := Option.some.inj (hs₂.symm.trans hs₁)
      exact ⟨hword.trans hopen, Or.inl ⟨hpc, hready⟩⟩
    · rintro s₁ a s₂ - ⟨hflag, hpc⟩ ⟨spurious, rfl⟩ hs
      rcases hpc with ⟨hpc, hready⟩ | hpast
      · rcases awaiting_step hpc hs with ⟨u, hu, rfl⟩ | hidle
        · obtain ⟨hword, hidle⟩ := advance_of_open hflag hready hu
          exact ⟨hword, Or.inr ⟨hidle, Or.inl hpc⟩⟩
        · rw [hready] at hidle
          cases hidle
      · obtain ⟨hsame, hpast⟩ := hpast.step hs
        exact ⟨hsame ▸ hflag, Or.inr hpast⟩
  rcases hinv.2 with ⟨-, hpc⟩ | ⟨hpc, -⟩
  · rw [hend] at hpc
    cases hpc
  · rw [hend] at hpc
    cases hpc

/-- Either it suspends `c` or it ends. -/
theorem passes_iff_not_suspends (hc : s.pc c = .idle) (hidle : s.complete.pc c = .idle)
    (hp : s.complete.live p.val = false)
    (hword : s.complete.resuming = PauseToken.kUnpausedFlag ∨
      PauseToken.paused s.complete.resuming = true) :
    s.passes c p t ↔ ¬ s.suspends c p t := by
  rcases hword with hopen | hclosed
  · exact ⟨fun _ => not_suspends_of_open hc hidle hp hopen,
      fun _ => passes_of_open hc hidle hp hopen⟩
  · exact ⟨fun hpass => absurd hpass (not_passes_of_closed hc hidle hp hclosed),
      fun hnot => absurd (suspends_of_closed hc hidle hp hclosed) hnot⟩

/-! ## When `try_wait` agrees with `wait` -/

theorem tracks_of_reaches (hr : Reaches step anyStep (· = construct amount) s) :
    Tracks amount s := by
  refine hr.invariant (I := Tracks amount) ?_ ?_
  · rintro s rfl
    exact tracks_construct amount
  · rintro s a s' - h - hs
    exact h.step hs

/-- A token that is not closed carries the flag. -/
theorem Tracks.word (h : Tracks amount s) :
    s.complete.resuming = PauseToken.kUnpausedFlag ∨
      PauseToken.paused s.complete.resuming = true := by
  by_cases hclosed : PauseToken.paused s.complete.resuming = true
  · exact Or.inr hclosed
  · obtain ⟨ch, loc, hi⟩ := h.token.inv
    exact Or.inl (h.never.opened.mpr (h.never.exchanged hi (by simpa using hclosed)))

/-- When no decrement is under way, `wait` does not suspend from the moment the amounts add up. -/
theorem Tracks.passes_iff (h : Tracks amount s) (hdone : s.counted) (hc : s.pc c = .idle)
    (hp : s.complete.live p.val = false) :
    s.passes c p t ↔ opensAt amount ≤ total s.decrements := by
  have hidle : s.complete.pc c = .idle := by
    have hfits := h.fits c
    rw [hc] at hfits
    exact role_idle hfits
  rw [passes_iff_not_suspends hc hidle hp h.word, ← h.open_iff hdone]
  constructor
  · intro hnot
    refine h.word.resolve_right fun hclosed => ?_
    exact hnot (suspends_of_closed hc hidle hp hclosed)
  · exact not_suspends_of_open hc hidle hp

/-- Where the counter is positive, by what has been subtracted. -/
theorem positive_iff_opens (amount : Ptrdiff) (total : Nat) :
    (toPtrdiff (amount.val - total) > 0 ↔ opensAt amount ≤ total) ↔
      keepsConvention amount total := by
  have hz := amount.property
  unfold keepsConvention opensAt toPtrdiff
  rw [Int.bmod_def]
  split <;> omega

/-- **`try_wait` agrees with `wait`** only where the latch was made with nothing to count down, or
where the counter has wrapped around after the latch has opened. -/
theorem asyncLatch_tryWait_iff (hr : Reaches step anyStep (· = construct amount) s)
    (hdone : s.counted) (hc : s.pc c = .idle) (hp : s.complete.live p.val = false) :
    (s.tryWait = true ↔ s.passes c p t) ↔ keepsConvention amount (total s.decrements) := by
  have h := tracks_of_reaches hr
  rw [h.tryWait_iff, h.passes_iff hdone hc hp]
  exact positive_iff_opens amount (total s.decrements)

/-- A latch that was made with 0 is counted down by 7. -/
def zeroCountDown : List (Coro × Action) :=
  [(1, .countDown ⟨7, by decide⟩), (1, .advance false)]

theorem asyncLatch_tryWait_iff_zero :
    ∃ s, run step anyStep (construct ⟨0, by decide⟩) zeroCountDown = some s ∧
      s.count = -7 ∧ (s.tryWait = true ↔ s.passes 2 (.nth 0) ⟨0⟩) := by
  obtain ⟨s, hs, hcount, htotal, hpc, hlive⟩ : ∃ s,
      run step anyStep (construct ⟨0, by decide⟩) zeroCountDown = some s ∧ s.count = -7 ∧
        total s.decrements = 7 ∧ (∀ c, s.pc c = .idle) ∧ ∀ a, s.complete.live a = false := by
    refine ⟨_, rfl, by decide, rfl, fun c => ?_, fun _ => rfl⟩
    show Function.update (Function.update (fun _ => Pc.idle) 1 _) 1 Pc.idle c = Pc.idle
    rw [Function.update_idem]
    exact congrFun (Function.update_eq_self 1 fun _ => Pc.idle) c
  refine ⟨s, hs, hcount, (asyncLatch_tryWait_iff (Reaches.run (Reaches.start rfl) hs) ?_ (hpc 2)
    (hlive _)).mpr ?_⟩
  · intro c
    simp [hpc c]
  · rw [htotal]
    decide

/-- A new latch with one to count down: `try_wait` says that it is open, and `wait` suspends. -/
theorem asyncLatch_tryWait_inverted :
    ¬ ((construct ⟨1, by decide⟩).tryWait = true ↔
      (construct ⟨1, by decide⟩).passes 1 (.nth 0) ⟨0⟩) := by
  intro h
  exact not_passes_of_closed rfl rfl rfl rfl (h.mp (by decide))

end

end Zab.AsyncLatch
