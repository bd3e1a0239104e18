import Zab.Basic.Countdown
import Zab.Sync.WaitForVector

set_option autoImplicit false

/-! # The latch of `wait_for`

Each of the `n + 1` parties takes one from the latch, once, and only `wait_for` awaits its token. So
there is at most one `pauser`: the word of the token is empty, the flag or this `pauser`, and a call
of `unpause` has at most one coroutine to resume. That bounds the steps of every operation.
-/

/-! ## A token with one coroutine that awaits it -/

namespace Zab.PauseToken

open Automaton

/-- Only `c` awaits the token, and what it has loaded is no `pauser`. -/
structure Solo (t : State) (c : Coro) : Prop where
  only : ∀ d, (t.pc d).role = .await → d = c
  loaded : ∀ p previous, t.pc c = .suspendLoop p previous →
    previous = 0 ∨ previous = kUnpausedFlag

section

variable {t t' : State} {ch : List Addr} {loc : Coro → List Addr} {c d : Coro} {spurious : Bool}

theorem Pc.role_of_paused {q : Pc} {p : Addr} {n : Nat} (h : q.paused = some (p, n)) :
    q.role = .await := by
  rw [Pc.eq_of_paused h]
  rfl

theorem Solo.paused_eq (h : Solo t c) {p : Addr} {n : Nat} (hd : (t.pc d).paused = some (p, n)) :
    t.pc c = .suspended p n := by
  have hdc := h.only d (Pc.role_of_paused hd)
  rw [← hdc]
  exact Pc.eq_of_paused hd

/-- As long as `c` is not suspended, the word is no `pauser`. -/
theorem Solo.word (h : Solo t c) (hi : Inv t ch loc) (hc : (t.pc c).paused = none) :
    t.resuming = 0 ∨ t.resuming = kUnpausedFlag := by
  rcases hi.root with ⟨hflag, -⟩ | hroot
  · exact Or.inr hflag
  · cases ch with
    | nil => exact Or.inl hroot
    | cons p l =>
        obtain ⟨d, hd⟩ := hi.chSusp p List.mem_cons_self
        rw [h.paused_eq hd] at hc
        cases hc

/-- `unpause` has nobody to resume after the next one. -/
theorem Solo.last (h : Solo t c) (hi : Inv t ch loc) {u : Coro} {k w tmp : Nat}
    (hu : t.pc u = .unpauseResume k w tmp) : tmp = 0 := by
  have htake : (t.pc u).taking = some (k, w) := by rw [hu]; rfl
  obtain ⟨hne, htmp⟩ := hi.tmp u k w tmp hu
  obtain ⟨-, hchain⟩ := hi.walk u k w htake
  have hnodup := hi.locNodup u
  have hsusp := hi.locSusp u k w htake
  cases hl : loc u with
  | nil =>
      rw [hl] at hchain
      exact absurd hchain hne
  | cons p l =>
      rw [hl] at hchain hnodup hsusp
      obtain ⟨rfl, hrest⟩ := hchain
      rw [htmp]
      cases l with
      | nil => exact hrest
      | cons q l =>
          -- both would be the `pauser` of `c`
          obtain ⟨d, hd⟩ := hsusp p (by simp)
          obtain ⟨e, he⟩ := hsusp q (by simp)
          have hpq := (h.paused_eq hd).symm.trans (h.paused_eq he)
          injection hpq with hpq
          simp [hpq] at hnodup

theorem Solo.goto (h : Solo t c) {q : Pc} (hpc : t'.pc = Function.update t.pc d q)
    (hq : q.role = .await → (t.pc d).role = .await)
    (hload : ∀ p previous, d = c → q = .suspendLoop p previous →
      previous = 0 ∨ previous = kUnpausedFlag) : Solo t' c := by
  constructor
  · intro e he
    rw [hpc] at he
    by_cases hed : e = d
    · subst hed
      rw [Function.update_self] at he
      exact h.only e (hq he)
    · rw [Function.update_of_ne hed] at he
      exact h.only e he
  · intro p previous hc
    rw [hpc] at hc
    by_cases hcd : c = d
    · subst hcd
      rw [Function.update_self] at hc
      exact hload p previous rfl hc
    · rw [Function.update_of_ne hcd] at hc
      exact h.loaded p previous hc

/-- The `co_await` of `c` starts. -/
theorem Solo.coAwait (h : Solo t c) {p : Addr} {thread : ThreadT}
    (hs : step t (c, .coAwait p thread) = some t') : Solo t' c := by
  obtain ⟨hpc, -⟩ := step_coAwait hs
  constructor
  · intro e he
    by_cases hec : e = c
    · exact hec
    · rw [hpc, Function.update_of_ne hec] at he
      exact h.only e he
  · intro q previous hc
    rw [hpc, Function.update_self] at hc
    cases hc

theorem Solo.advance (h : Solo t c) (hi : Inv t ch loc) (hs : t.advance d spurious = some t') :
    Solo t' c := by
  -- what a `co_await` of `c` has loaded is no `pauser`
  have hload : ∀ p, (t.pc d).paused = none → ∀ q previous, d = c →
      Pc.suspendLoop p t.resuming = .suspendLoop q previous →
        previous = 0 ∨ previous = kUnpausedFlag := by
    rintro p hpaused q previous rfl hq
    injection hq with _ hword
    rw [← hword]
    exact h.word hi hpaused
  cases advances_of_advance hs with
  | storesHandle p hd => exact h.goto (d := d) rfl (fun _ => by rw [hd]; rfl) (by simp)
  | loads p hd =>
      exact h.goto (d := d) rfl (fun _ => by rw [hd]; rfl) (hload p (by rw [hd]; rfl))
  | suspends p previous hd => exact h.goto (d := d) rfl (fun _ => by rw [hd]; rfl) (by simp)
  | retries p previous hd =>
      exact h.goto (d := d) rfl (fun _ => by rw [hd]; rfl) (hload p (by rw [hd]; rfl))
  | isReady p hd | leaves p hd | isPaused hd | isUnpaused hd | pauses w hd | pauseRetries w hd
  | pauseReturns w hd | exchangesFlag hd | exchanges hd | walkEnds k hd | walks k w hd =>
      exact h.goto (d := d) rfl (by simp [Pc.role]) (by simp)
  | resumes k w tmp hd =>
      obtain ⟨e, p, l, rfl, -, he, hr⟩ := hi.resumption hd
      constructor
      · intro f hf
        by_cases hfd : f = d
        · rw [hfd, hr.unpauser] at hf
          cases hf
        · by_cases hfe : f = e
          · rw [hfe, hr.paused] at hf
            cases hf
          · rw [hr.others f hfd hfe] at hf
            exact h.only f hf
      · intro q previous hc
        exact h.loaded q previous (hr.unmoved hc Pc.noConfusion Pc.noConfusion)

/-- Only the start of a `co_await` makes a `pauser`. -/
theorem advance_live (hs : t.advance d spurious = some t') (x : Nat) (hx : t'.live x = true) :
    t.live x = true := by
  have hleave : ∀ p, Function.update t.live p false x = true → t.live x = true := by
    intro p hx
    by_cases hxp : x = p
    · subst hxp
      simp at hx
    · rwa [Function.update_of_ne hxp] at hx
  cases advances_of_advance hs with
  | isReady p hd | leaves p hd => exact hleave _ hx
  | resumes k w tmp hd =>
      simp only [State.goto, State.threadResume] at hx
      split at hx
      · exact hleave _ hx
      · exact hx
  | storesHandle p hd | loads p hd | suspends p previous hd | retries p previous hd | isPaused hd
  | isUnpaused hd | pauses w hd | pauseRetries w hd | pauseReturns w hd | exchangesFlag hd
  | exchanges hd | walkEnds k hd | walks k w hd => exact hx

/-- Who is in an operation and not suspended has a next step. -/
theorem advance_enabled (hidle : t.pc d ≠ .idle) (hsusp : ∀ p n, t.pc d ≠ .suspended p n)
    (spurious : Bool) : ∃ t', t.advance d spurious = some t' := by
  cases hd : t.pc d with
  | idle => exact absurd hd hidle
  | suspended p n => exact absurd hd (hsusp p n)
  | suspendLoad p | unpauseResume k w tmp => simp [State.advance, hd]
  | awaitReady p | pauseLoad | unpauseExchange | unpauseWalk k w =>
      simp only [State.advance, hd]
      split <;> exact ⟨_, rfl⟩
  | suspendLoop p previous | pauseCas previous =>
      simp only [State.advance, hd]
      split
      · exact ⟨_, rfl⟩
      · split <;> exact ⟨_, rfl⟩

end

end Zab.PauseToken

/-! ## The steps of an operation on a latch -/

namespace Zab.AsyncLatch

open Automaton

section

variable {amount : Amount} {s s' : State} {c d : Coro} {a : Action} {spurious : Bool}

theorem goto_self (s : State) (c : Coro) (q : Pc) : (s.goto c q).pc c = q :=
  Function.update_self ..

theorem afterCountDown_ne_fetchSub (wait wait' : Bool) (n : Amount) :
    afterCountDown wait ≠ .fetchSub n wait' := by
  cases wait <;> simp [afterCountDown]

/-- What a step of `c` leaves to the others. -/
structure Frame (s s' : State) (c : Coro) : Prop where
  others : ∀ d, d ≠ c → s'.pc d = s.pc d
  continued : s.continued ⊆ s'.continued
  counted : s'.decrements = s.decrements ∨ ∃ n, s'.decrements = s.decrements ++ [(c, n)]

theorem Frame.mem_iff (h : Frame s s' c) (hd : d ≠ c) :
    d ∈ s'.decrements.map Prod.fst ↔ d ∈ s.decrements.map Prod.fst := by
  rcases h.counted with hsame | ⟨n, happ⟩
  · rw [hsame]
  · rw [happ, List.map_append, List.mem_append]
    simp [hd]

theorem Frame.subset (h : Frame s s' c) :
    s.decrements.map Prod.fst ⊆ s'.decrements.map Prod.fst := by
  rcases h.counted with hsame | ⟨n, happ⟩
  · rw [hsame]
    exact List.Subset.refl _
  · rw [happ, List.map_append]
    exact List.subset_append_left ..

theorem step_frame (hs : step s (c, a) = some s') : Frame s s' c := by
  have hgoto : ∀ q d, d ≠ c → (s.goto c q).pc d = s.pc d := fun q d hd =>
    Function.update_of_ne hd ..
  cases effect_of_step hs with
  | countDown | arriveAndWait | wait | returns =>
      exact ⟨hgoto _, List.Subset.refl _, Or.inl rfl⟩
  | crosses | decrements => exact ⟨hgoto _, List.Subset.refl _, Or.inr ⟨_, rfl⟩⟩
  | continues => exact ⟨hgoto _, List.subset_append_left .., Or.inl rfl⟩
  | unpauses | awaits => exact ⟨fun d _ => rfl, List.Subset.refl _, Or.inl rfl⟩

/-- What `c` does with a step of its operation. -/
inductive Advanced (s s' : State) (c : Coro) (spurious : Bool) : Prop where
  | crosses (n : Amount) (wait : Bool) (before : s.pc c = .fetchSub n wait)
      (after : s'.pc c = .unpausing wait)
      (sum : s'.decrements = s.decrements ++ [(c, n.val)])
      (token : PauseToken.step s.complete (c, .unpause) = some s'.complete)
  | decrements (n : Amount) (wait : Bool) (before : s.pc c = .fetchSub n wait)
      (after : s'.pc c = afterCountDown wait)
      (sum : s'.decrements = s.decrements ++ [(c, n.val)])
      (token : s'.complete = s.complete)
  | unpauses (wait : Bool) (before : s.pc c = .unpausing wait) (after : s'.pc c = .unpausing wait)
      (sum : s'.decrements = s.decrements)
      (token : s.complete.advance c spurious = some s'.complete)
  | returns (wait : Bool) (before : s.pc c = .unpausing wait)
      (after : s'.pc c = afterCountDown wait)
      (sum : s'.decrements = s.decrements) (token : s'.complete = s.complete)
  | awaits (before : s.pc c = .awaiting) (after : s'.pc c = .awaiting)
      (sum : s'.decrements = s.decrements)
      (token : s.complete.advance c spurious = some s'.complete)
  | continues (before : s.pc c = .awaiting) (after : s'.pc c = .idle)
      (sum : s'.decrements = s.decrements) (token : s'.complete = s.complete)
      (log : c ∈ s'.continued)

theorem advance_cases (hs : s.advance c spurious = some s') : Advanced s s' c spurious := by
  have hs : step s (c, .advance spurious) = some s' := hs
  cases effect_of_step hs with
  | crosses n wait _ t hc hcross ht => exact .crosses n wait hc (Function.update_self ..) rfl ht
  | decrements n wait _ hc => exact .decrements n wait hc (Function.update_self ..) rfl rfl
  | unpauses wait _ t hc ht => exact .unpauses wait hc hc rfl ht
  | returns wait _ hc => exact .returns wait hc (Function.update_self ..) rfl rfl
  | awaits _ t hc ht => exact .awaits hc hc rfl ht
  | continues _ hc => exact .continues hc (Function.update_self ..) rfl rfl (by simp)

/-- Only the start of a `co_await` makes a `pauser`. -/
theorem advance_live (hs : s.advance c spurious = some s') (x : Nat)
    (hx : s'.complete.live x = true) : s.complete.live x = true := by
  cases advance_cases hs with
  | crosses _ _ _ _ _ token =>
      simp only [PauseToken.step] at token
      split at token
      · obtain htoken := Option.some.inj token
        rwa [← htoken] at hx
      · cases token
  | decrements _ _ _ _ _ token | returns _ _ _ _ token | continues _ _ _ token _ =>
      rwa [token] at hx
  | unpauses _ _ _ _ token | awaits _ _ _ token => exact PauseToken.advance_live token x hx

/-- A call of `unpause` goes on until it has returned. -/
theorem Reachable.unpausing (h : Reachable amount s) (hun : s.unpauses ≠ []) :
    s.returned ≠ 0 ∨ ∃ c wait, s.pc c = .unpausing wait := by
  refine Reaches.invariant (I := fun s => s.unpauses ≠ [] →
    s.returned ≠ 0 ∨ ∃ c wait, s.pc c = .unpausing wait) h ?_ ?_ hun
  · rintro s rfl hun
    exact absurd rfl hun
  · rintro s ⟨c, a⟩ s' - ih - hs hun
    have hframe := step_frame hs
    -- whoever is in `unpause` is not the one that moves
    have hkeep : s'.unpauses = s.unpauses → s'.returned = s.returned →
        (∀ wait, s.pc c ≠ .unpausing wait) → s'.returned ≠ 0 ∨
          ∃ d wait, s'.pc d = .unpausing wait := by
      intro hsame hret hc
      rw [hsame] at hun
      rw [hret]
      rcases ih hun with hne | ⟨d, wait, hd⟩
      · exact Or.inl hne
      · have hdc : d ≠ c := by
          rintro rfl
          exact hc wait hd
        exact Or.inr ⟨d, wait, (hframe.others d hdc).trans hd⟩
    cases effect_of_step hs with
    | countDown n hc | arriveAndWait n hc => exact hkeep rfl rfl (by simp [hc])
    | wait p thread t hc => exact hkeep rfl rfl fun wait hw => by simp [hw] at hc
    | crosses n wait => exact Or.inr ⟨c, wait, Function.update_self ..⟩
    | decrements n wait _ hc => exact hkeep rfl rfl (by simp [hc])
    | unpauses wait _ t hc => exact Or.inr ⟨c, wait, hc⟩
    | returns wait => exact Or.inl (Nat.succ_ne_zero s.returned)
    | awaits _ t hc | continues _ hc => exact hkeep rfl rfl (by simp [hc])

end

end Zab.AsyncLatch

/-! ## The steps to come of an operation -/

namespace Zab.WaitForVector

open Automaton
open PauseToken (Solo)

section

variable {t t' : PauseToken.State} {ch : List Addr} {loc : Coro → List Addr} {c d : Coro}
  {spurious : Bool}

theorem tokenWork_loop_le (p : Addr) (w : Nat) : tokenWork (.suspendLoop p w) ≤ 6 := by
  simp only [tokenWork]
  split <;> omega

theorem tokenWork_walk_le (k w : Nat) : tokenWork (.unpauseWalk k w) ≤ 5 := by
  simp only [tokenWork]
  split <;> omega

/-- A step that only moves `d`. -/
theorem tokenWork_goto {q : PauseToken.Pc} (hpc : t'.pc = Function.update t.pc d q)
    (hle : tokenWork q ≤ tokenWork (t.pc d))
    (hlt : spurious = false → tokenWork q < tokenWork (t.pc d)) :
    (∀ e, tokenWork (t'.pc e) ≤ tokenWork (t.pc e)) ∧
      (spurious = false → tokenWork (t'.pc d) < tokenWork (t.pc d)) := by
  rw [hpc]
  refine ⟨?_, by rw [Function.update_self]; exact hlt⟩
  exact (Function.forall_update_iff t.pc fun e q => tokenWork q ≤ tokenWork (t.pc e)).mpr
    ⟨hle, fun e _ => Nat.le_refl _⟩

/-- A step inside the token raises nobody's work and, unless it fails spuriously, lowers that of
`d`. -/
theorem tokenWork_advance (h : Solo t c) (hi : PauseToken.Inv t ch loc)
    (hpause : (t.pc d).role ≠ .pause) (hs : t.advance d spurious = some t') :
    (∀ e, tokenWork (t'.pc e) ≤ tokenWork (t.pc e)) ∧
      (spurious = false → tokenWork (t'.pc d) < tokenWork (t.pc d)) := by
  have hsolo' := h.advance hi hs
  obtain ⟨ch', loc', hi'⟩ : ∃ ch' loc', PauseToken.Inv t' ch' loc' :=
    hi.step (show PauseToken.step t (d, .advance spurious) = some t' from hs)
  cases PauseToken.advances_of_advance hs with
  | isPaused hd | isUnpaused hd | pauses w hd | pauseRetries w hd | pauseReturns w hd =>
      exact absurd (by rw [hd]; rfl) hpause
  | storesHandle p hd | isReady p hd | walkEnds k hd =>
      exact tokenWork_goto rfl (by simp [hd, tokenWork]) (by simp [hd, tokenWork])
  | loads p hd =>
      have hlt : tokenWork (.suspendLoop p t.resuming) < tokenWork (t.pc d) := by
        rw [hd]
        exact Nat.lt_of_le_of_lt (tokenWork_loop_le p t.resuming) (by simp [tokenWork])
      exact tokenWork_goto rfl hlt.le fun _ => hlt
  | leaves p hd =>
      exact tokenWork_goto rfl (by simp [hd, tokenWork]) (by simp [hd, tokenWork])
  | suspends p previous hd hflag =>
      obtain rfl : d = c := h.only d (by rw [hd]; rfl)
      obtain rfl : previous = 0 := (h.loaded p previous hd).resolve_right hflag
      have hlt : tokenWork (.suspended p t.exchanges) < tokenWork (t.pc d) := by
        rw [hd]
        simp [tokenWork, PauseToken.kUnpausedFlag]
      exact tokenWork_goto rfl hlt.le fun _ => hlt
  | retries p previous hd hflag hcas =>
      obtain rfl : d = c := h.only d (by rw [hd]; rfl)
      obtain rfl : previous = 0 := (h.loaded p previous hd).resolve_right hflag
      have hwork : tokenWork (t.pc d) = 6 := by
        rw [hd]
        rfl
      refine tokenWork_goto (q := .suspendLoop p t.resuming) rfl ?_ ?_
      · rw [hwork]
        exact tokenWork_loop_le p t.resuming
      · -- the word has become the flag
        intro hsp
        have hword : t.resuming = PauseToken.kUnpausedFlag :=
          (h.word hi (by rw [hd]; rfl)).resolve_left fun hzero => hcas ⟨hzero, hsp⟩
        rw [hwork, hword]
        simp [tokenWork]
  | exchangesFlag hd =>
      exact tokenWork_goto rfl (by simp [hd, tokenWork]) (by simp [hd, tokenWork])
  | exchanges hd =>
      have hlt : tokenWork (.unpauseWalk t.exchanges t.resuming) < tokenWork (t.pc d) := by
        rw [hd]
        exact Nat.lt_of_le_of_lt (tokenWork_walk_le t.exchanges t.resuming) (by decide)
      exact tokenWork_goto rfl hlt.le fun _ => hlt
  | walks k w hd hne =>
      -- there is one coroutine to resume
      have hlast : (t.mem w).nextWaiting = 0 := hsolo'.last hi' (PauseToken.goto_self ..)
      have hlt : tokenWork (.unpauseResume k w (t.mem w).nextWaiting) < tokenWork (t.pc d) := by
        rw [hd, hlast]
        simp [tokenWork, hne]
      exact tokenWork_goto rfl hlt.le fun _ => hlt
  | resumes k w tmp hd =>
      obtain rfl : tmp = 0 := h.last hi hd
      obtain ⟨e, p, l, rfl, -, he, hr⟩ := hi.resumption hd
      have hlt : tokenWork (((t.threadResume k p.val).goto d (.unpauseWalk k 0)).pc d) <
          tokenWork (t.pc d) := by
        rw [hr.unpauser, hd]
        simp [tokenWork]
      refine ⟨fun f => ?_, fun _ => hlt⟩
      by_cases hfd : f = d
      · rw [hfd]
        exact hlt.le
      · by_cases hfe : f = e
        · rw [hfe, hr.paused]
          exact Nat.zero_le _
        · rw [hr.others f hfd hfe]

end

/-! ## The latch between its calls -/

/-- The latch, when every party takes one from it at most once and only `wait_for` awaits it. -/
structure LatchInv (n : Size) (l : AsyncLatch.State) : Prop where
  reachable : AsyncLatch.Reachable (amount n) l
  solo : Solo l.complete self
  once : ∀ c k wait, l.pc c = .fetchSub k wait →
    k = one ∧ c ∈ List.range (n.val + 1) ∧ c ∉ l.decrements.map Prod.fst
  count : Countdown (List.range (n.val + 1)) (l.decrements.map Prod.fst)
    ((amount n).val - AsyncLatch.total l.decrements)

section

variable {n : Size} {l l' : AsyncLatch.State} {c d : Coro} {a : AsyncLatch.Action} {spurious : Bool}

theorem amount_pos (n : Size) : 0 < (amount n).val := Nat.succ_pos n.val

theorem LatchInv.total_le (h : LatchInv n l) : AsyncLatch.total l.decrements ≤ (amount n).val := by
  have := h.count.nonneg
  omega

theorem latchInv_init (n : Size) : LatchInv n (AsyncLatch.init (amount n)) := by
  refine ⟨Reaches.start rfl, ⟨fun c hc => ?_, fun p previous hc => ?_⟩, fun c k wait hc => ?_, ?_⟩
  · cases hc
  · cases hc
  · cases hc
  · have hstart := Countdown.start (List.nodup_range (n := n.val + 1))
    simpa [AsyncLatch.init, AsyncLatch.total, amount] using hstart

/-- The counter does not wrap around. -/
theorem LatchInv.inv (h : LatchInv n l) : AsyncLatch.Inv (amount n) l :=
  h.reachable.inv (amount_pos n) (h.total_le.trans (Nat.le_add_right ..))

/-- The token opens when all parties have counted down. -/
theorem LatchInv.total_eq_iff (h : LatchInv n l) :
    AsyncLatch.total l.decrements = (amount n).val ↔
      ∀ c < n.val + 1, c ∈ l.decrements.map Prod.fst := by
  have hzero := h.count.eq_zero_iff
  simp only [List.mem_range] at hzero
  rw [← hzero]
  have := h.total_le
  omega

theorem LatchInv.complete_idle (h : LatchInv n l) (hne : l.pc c ≠ .awaiting)
    (hne' : ∀ wait, l.pc c ≠ .unpausing wait) : l.complete.pc c = .idle := by
  have hfits := h.inv.fits c
  cases hc : l.pc c with
  | awaiting => exact absurd hc hne
  | unpausing wait => exact absurd hc (hne' wait)
  | idle | fetchSub k wait | arrived =>
      rw [hc] at hfits
      exact AsyncLatch.role_idle hfits

theorem step_call {k : AsyncLatch.Amount} (wait : Bool)
    (hs : AsyncLatch.step l (c, if wait then .arriveAndWait k else .countDown k) = some l') :
    l.pc c = .idle ∧ l' = l.goto c (.fetchSub k wait) := by
  cases wait
  all_goals
    simp only [AsyncLatch.step, Bool.false_eq_true, if_false, if_true] at hs
    split at hs
    · rename_i hc
      exact ⟨hc, (Option.some.inj hs).symm⟩
    · cases hs

/-- A step that leaves the token and the counter alone and moves `c`. -/
theorem LatchInv.goto (h : LatchInv n l) (hreach : AsyncLatch.Reachable (amount n) l')
    (hsolo : Solo l'.complete self) (hothers : ∀ d, d ≠ c → l'.pc d = l.pc d)
    (hsum : l'.decrements = l.decrements)
    (hc : ∀ k wait, l'.pc c = .fetchSub k wait →
      k = one ∧ c < n.val + 1 ∧ c ∉ l.decrements.map Prod.fst) : LatchInv n l' := by
  refine ⟨hreach, hsolo, ?_, by rw [hsum]; exact h.count⟩
  intro d k wait hd
  rw [hsum]
  by_cases hdc : d = c
  · subst hdc
    rw [List.mem_range]
    exact hc k wait hd
  · rw [hothers d hdc] at hd
    exact h.once d k wait hd

/-- A party that has not counted down calls the latch. -/
theorem LatchInv.call (h : LatchInv n l) (wait : Bool) (hc : c < n.val + 1)
    (hnew : c ∉ l.decrements.map Prod.fst)
    (hs : AsyncLatch.step l (c, if wait then .arriveAndWait one else .countDown one) = some l') :
    LatchInv n l' := by
  have hreach := h.reachable.next trivial hs
  obtain ⟨hidle, rfl⟩ := step_call wait hs
  refine h.goto (c := c) hreach h.solo (fun d hd => Function.update_of_ne hd ..) rfl ?_
  intro k wait' hq
  rw [AsyncLatch.goto_self] at hq
  injection hq with hk
  exact ⟨hk.symm, hc, hnew⟩

/-- `wait_for` awaits the latch. -/
theorem LatchInv.wait (h : LatchInv n l) {p : Addr} {thread : ThreadT}
    (hs : AsyncLatch.step l (self, .wait p thread) = some l') :
    LatchInv n l' ∧ l'.pc self = .awaiting ∧ l'.decrements = l.decrements ∧
      l'.complete.pc = Function.update l.complete.pc self (.awaitReady p) := by
  have hreach := h.reachable.next trivial hs
  simp only [AsyncLatch.step] at hs
  split at hs
  · obtain ⟨t, ht, rfl⟩ := AsyncLatch.inside_eq_some hs
    have hself : (l.goto self .awaiting).pc self = .awaiting := AsyncLatch.goto_self ..
    refine ⟨?_, hself, rfl, (PauseToken.step_coAwait ht).1⟩
    refine h.goto (c := self) hreach (h.solo.coAwait ht)
      (fun d hd => Function.update_of_ne hd ..) rfl ?_
    intro k wait hq
    rw [show _ = AsyncLatch.Pc.awaiting from hself] at hq
    cases hq
  · cases hs

theorem LatchInv.advance (h : LatchInv n l) (hs : l.advance c spurious = some l') :
    LatchInv n l' := by
  have hs : AsyncLatch.step l (c, .advance spurious) = some l' := hs
  have hreach := h.reachable.next trivial hs
  have hothers := (AsyncLatch.step_frame hs).others
  obtain ⟨ch, loc, hi⟩ := h.inv.token.inv
  have hsolo : Solo l'.complete self := by
    cases AsyncLatch.advance_cases hs with
    | crosses k wait before after sum token =>
        simp only [PauseToken.step] at token
        split at token
        · obtain htoken := Option.some.inj token
          rw [← htoken]
          exact h.solo.goto (d := c) rfl (by simp [PauseToken.Pc.role]) (by simp)
        · cases token
    | decrements _ _ _ _ _ token | returns _ _ _ _ token | continues _ _ _ token _ =>
        rw [token]
        exact h.solo
    | unpauses _ _ _ _ token | awaits _ _ _ token => exact h.solo.advance hi token
  cases AsyncLatch.advance_cases hs with
  | crosses k wait before after sum | decrements k wait before after sum =>
      obtain ⟨rfl, hmem, hnew⟩ := h.once c k wait before
      refine ⟨hreach, hsolo, fun d k' wait' hd => ?_, ?_⟩
      · by_cases hdc : d = c
        · subst hdc
          rw [after] at hd
          first
          | exact absurd hd AsyncLatch.Pc.noConfusion
          | exact absurd hd (AsyncLatch.afterCountDown_ne_fetchSub _ _ _)
        · rw [hothers d hdc] at hd
          obtain ⟨hk', hd', hnew'⟩ := h.once d k' wait' hd
          exact ⟨hk', hd', by simpa [sum, hdc] using hnew'⟩
      · have hnext := h.count.arrive hmem hnew
        rw [sum, AsyncLatch.total_append, List.map_append]
        rw [show ((amount n).val : Int) - (AsyncLatch.total l.decrements + one.val :
          Nat) = (amount n).val - AsyncLatch.total l.decrements - 1 by
            simp only [one_val]; omega]
        exact hnext
  | unpauses _ _ after sum | returns _ _ after sum | awaits _ after sum | continues _ after sum =>
      refine h.goto hreach hsolo hothers sum fun k wait' hd => ?_
      rw [after] at hd
      first
      | exact absurd hd AsyncLatch.Pc.noConfusion
      | exact absurd hd (AsyncLatch.afterCountDown_ne_fetchSub _ _ _)

/-! ### The steps to come -/

/-- A step that does not touch the token. -/
theorem latchWork_goto (hothers : ∀ d, d ≠ c → l'.pc d = l.pc d)
    (htoken : l'.complete = l.complete) (hlt : latchWork l' c < latchWork l c) :
    (∀ d, latchWork l' d ≤ latchWork l d) ∧ (spurious = false → latchWork l' c < latchWork l c) := by
  refine ⟨fun d => ?_, fun _ => hlt⟩
  by_cases hdc : d = c
  · rw [hdc]
    exact hlt.le
  · unfold latchWork
    rw [htoken, hothers d hdc]

/-- A step inside the token. -/
theorem latchWork_inside (hothers : ∀ d, d ≠ c → l'.pc d = l.pc d) (hc : l'.pc c = l.pc c)
    (hle : ∀ d, tokenWork (l'.complete.pc d) ≤ tokenWork (l.complete.pc d))
    (hlt : spurious = false → tokenWork (l'.complete.pc c) < tokenWork (l.complete.pc c)) :
    (∀ d, latchWork l' d ≤ latchWork l d) ∧ (spurious = false → latchWork l' c < latchWork l c) := by
  have hpc : ∀ d, l'.pc d = l.pc d := by
    intro d
    by_cases hdc : d = c
    · rw [hdc, hc]
    · exact hothers d hdc
  unfold latchWork
  simp only [hpc]
  exact ⟨fun d => Nat.add_le_add_right (hle d) _, fun hsp => Nat.add_lt_add_right (hlt hsp) _⟩

/-- A step on the latch raises nobody's work and, unless it fails spuriously, lowers that of `c`. -/
theorem LatchInv.work (h : LatchInv n l) (hs : l.advance c spurious = some l') :
    (∀ d, latchWork l' d ≤ latchWork l d) ∧ (spurious = false → latchWork l' c < latchWork l c) := by
  have hs : AsyncLatch.step l (c, .advance spurious) = some l' := hs
  have hothers := (AsyncLatch.step_frame hs).others
  obtain ⟨ch, loc, hi⟩ := h.inv.token.inv
  have hpause := h.inv.never.noPause c
  cases AsyncLatch.advance_cases hs with
  | crosses k wait before after sum token =>
      have hidle : l.complete.pc c = .idle := h.complete_idle (by simp [before]) (by simp [before])
      simp only [PauseToken.step, hidle, if_true, Option.some.injEq] at token
      have hlt : latchWork l' c < latchWork l c := by
        simp [latchWork, ← token, before, after, hidle, tokenWork]
      refine ⟨fun d => ?_, fun _ => hlt⟩
      by_cases hdc : d = c
      · rw [hdc]
        exact hlt.le
      · unfold latchWork
        rw [← token, PauseToken.goto_of_ne hdc, hothers d hdc]
  | decrements k wait before after sum token =>
      refine latchWork_goto hothers token ?_
      cases wait <;> simp [latchWork, token, before, after, AsyncLatch.afterCountDown]
  | unpauses wait before after sum token =>
      have hwork := tokenWork_advance h.solo hi hpause token
      exact latchWork_inside hothers (after.trans before.symm) hwork.1 hwork.2
  | returns wait before after sum token =>
      refine latchWork_goto hothers token ?_
      cases wait <;> simp [latchWork, token, before, after, AsyncLatch.afterCountDown]
  | awaits before after sum token =>
      have hwork := tokenWork_advance h.solo hi hpause token
      exact latchWork_inside hothers (after.trans before.symm) hwork.1 hwork.2
  | continues before after sum token log =>
      refine latchWork_goto hothers token ?_
      simp [latchWork, token, before, after]

/-- Who is in an operation, and not suspended in it, has a next step. -/
theorem LatchInv.enabled (h : LatchInv n l) (hidle : l.pc c ≠ .idle) (harrived : l.pc c ≠ .arrived)
    (hawait : l.pc c = .awaiting → ∀ p k, l.complete.pc c ≠ .suspended p k) :
    ∃ l', l.advance c false = some l' := by
  have hsusp : ∀ p k, l.complete.pc c ≠ .suspended p k := by
    by_cases hc : l.pc c = .awaiting
    · exact hawait hc
    · -- only who awaits the token is suspended in it
      intro p k hsusp
      have hfits := h.inv.fits c
      rw [hsusp] at hfits
      cases hpc : l.pc c <;> simp [hpc, AsyncLatch.Fits, PauseToken.Pc.role] at hfits hc
  have hinside : ∀ s : AsyncLatch.State, s.complete = l.complete → l.complete.pc c ≠ .idle →
      ∃ l', s.inside (c, .advance false) = some l' := by
    intro s hs hne
    obtain ⟨t, ht⟩ := PauseToken.advance_enabled hne hsusp false
    refine ⟨{ s with complete := t }, ?_⟩
    simp [AsyncLatch.State.inside, PauseToken.step, hs, ht]
  cases hc : l.pc c with
  | idle => exact absurd hc hidle
  | arrived => exact absurd hc harrived
  | fetchSub k wait =>
      have hcomplete : l.complete.pc c = .idle := h.complete_idle (by simp [hc]) (by simp [hc])
      simp only [AsyncLatch.State.advance, hc]
      split
      · simp [AsyncLatch.State.inside, AsyncLatch.State.goto, PauseToken.step, hcomplete]
      · exact ⟨_, rfl⟩
  | unpausing wait | awaiting =>
      simp only [AsyncLatch.State.advance, hc]
      split
      · exact ⟨_, rfl⟩
      · rename_i hne
        exact hinside l rfl hne

/-- When all have counted down and nobody is in `unpause`, nobody is suspended. -/
theorem LatchInv.nobody (h : LatchInv n l) (hall : ∀ c < n.val + 1, c ∈ l.decrements.map Prod.fst)
    (hun : ∀ c wait, l.pc c ≠ .unpausing wait) (p : Addr) (k : Nat) :
    l.complete.pc c ≠ .suspended p k := by
  have hsum := h.total_eq_iff.mpr hall
  obtain ⟨before, d, m, after, -, -, -, hone⟩ := h.inv.crossing hsum.ge
  have hret : l.returned ≠ 0 := by
    rcases h.reachable.unpausing (by rw [hone]; simp) with hret | ⟨e, wait, he⟩
    · exact hret
    · exact absurd he (hun e wait)
  exact h.inv.released hret c p k

/-- `wait_for` does not continue before all have counted down. -/
theorem LatchInv.continued (h : LatchInv n l) (hc : c ∈ l.continued) :
    ∀ c < n.val + 1, c ∈ l.decrements.map Prod.fst := by
  refine h.total_eq_iff.mp (le_antisymm h.total_le ?_)
  by_contra hlt
  have hclosed := h.inv.closed (by omega)
  obtain ⟨hnone, -⟩ := h.inv.early (h.inv.called hclosed)
  rw [hnone] at hc
  cases hc

end

end Zab.WaitForVector
