import Zab.Sync.AsyncLatchInv
import Zab.Sync.CountingSemaphoreSound

set_option autoImplicit false

/-! # What one `release` adds

A `release(n)` on a semaphore at rest, without any other operation: the `control` that it starts
serves one permit per round, to the coroutine that has waited longest or to the counter, until the
round that takes the last permit off `release_count_`. This round is recognised by the value before
the subtraction, which is `1`. So a `release(0)`, which starts a `control` as well, has no last
round.

Here the counters are those of the code: every step of the semaphore is followed by the conversion
to `std::ptrdiff_t`.
-/

namespace Zab.CountingSemaphore

open Automaton
open AsyncLatch (Amount toPtrdiff toPtrdiff_of_le)

/-! ## The semaphore at rest -/

def State.wrap (s : State) : State :=
  { s with activeCount := toPtrdiff s.activeCount, releaseCount := toPtrdiff s.releaseCount }

/-- A step with counters of type `std::ptrdiff_t`. -/
def stepPtrdiff (s : State) (a : Action) : Option State := (step s a).map State.wrap

/-- Nothing is going on, and `waiters` are asleep, in the order of their arrival. -/
structure AtRest (s : State) (waiters : List Coro) : Prop where
  pc : ∀ c, s.pc c = .idle ∨ ∃ w, s.pc c = .suspended w
  control : ∀ k, (s.control k).pc.active = false
  fresh : ∀ k, s.controls ≤ k → (s.control k).pc = .unborn
  release : s.releaseCount = 0
  lists : ∃ tr ch, Chain Addr.val s.next 0 s.transfer tr ∧ Chain Addr.val s.next 0 s.resuming ch ∧
    WaitQueue (fun c => (s.pc c).status) s.live s.handle (tr ++ ch.reverse) s.pushed
      (s.resumed.map Prod.fst) ∧
    (tr ++ ch.reverse).map s.handle = waiters.map some
  count : (waiters.length : Int) = max 0 (-s.activeCount)
  range : -2 ^ 63 ≤ s.activeCount ∧ s.activeCount < 2 ^ 63

/-- The steps of a `release` of `c`, and of the `control` number `k` that it starts. -/
def alone (c : Coro) (k : Nat) (_ : State) : Action → Prop
  | .advance d _ => d = c
  | .control l => l = k
  | .tryAquire _ | .coAwait _ _ _ | .release _ _ _ => False

instance (c : Coro) (k : Nat) : ∀ (s : State) (a : Action), Decidable (alone c k s a)
  | _, .advance d _ => inferInstanceAs (Decidable (d = c))
  | _, .control l => inferInstanceAs (Decidable (l = k))
  | _, .tryAquire _ | _, .coAwait _ _ _ | _, .release _ _ _ => inferInstanceAs (Decidable False)

/-- **`release(n)` adds exactly `n` permits.** -/
structure Releases (c : Coro) (n : Nat) (t : ThreadT) (s : State) (waiters : List Coro) : Prop where
  /-- It comes to an end. -/
  ends : ∃ N, ∀ l s', run stepPtrdiff (alone c s.controls) (s.goto c (.release n t)) l = some s' →
    l.length ≤ N
  /-- Then there are `n` more permits, and those who have waited longest have been resumed. -/
  adds : ∀ l s', run stepPtrdiff (alone c s.controls) (s.goto c (.release n t)) l = some s' →
    (∀ a, alone c s.controls s' a → stepPtrdiff s' a = none) →
    s'.activeCount = s.activeCount + n ∧ s'.releaseCount = 0 ∧ s'.pc c = .idle ∧
      s'.resumed.map Prod.fst = s.resumed.map Prod.fst ++ (waiters.take n).map some ∧
      AtRest s' (waiters.drop n)

/-! ## The invariant of a lone `release` -/

/-- `control` is not in its loop `while (!resume)`. -/
def ControlPc.outer : ControlPc → Bool
  | .transfer inner | .exchange inner | .reverse inner _ _ | .take inner _ => !inner
  | .yieldInner => false
  | .unborn | .addNone | .addSome _ | .resume _ | .finish | .yieldOuter | .done => true

/-- The permit of this round is already in `active_count_`. -/
def ControlPc.added : ControlPc → Int
  | .resume _ | .finish => 1
  | _ => 0

/-- Where the `release` of `c` is, for a semaphore with `active` permits at the start. -/
inductive Place (c : Coro) (n : Nat) (k : Nat) (active : Int) (s : State) : Prop where
  | called (t : ThreadT) (own : s.pc c = .release n t) (control : (s.control k).pc = .unborn)
      (next : s.controls = k) (release : s.releaseCount = 0) (sum : s.activeCount = active)
  | elected (t : ThreadT) (own : s.pc c = .startControl t) (control : (s.control k).pc = .unborn)
      (next : s.controls = k) (release : s.releaseCount = n) (sum : s.activeCount = active)
  | serving (own : s.pc c = .inControl k ∨ s.pc c = .idle)
      (control : (s.control k).pc.active = true)
      (outer : (s.control k).pc.outer = true)
      (release : 1 ≤ s.releaseCount ∧ s.releaseCount ≤ n)
      (sum : s.activeCount + s.releaseCount = active + n + (s.control k).pc.added)
  | served (own : s.pc c = .inControl k ∨ s.pc c = .idle) (control : (s.control k).pc = .done)
      (release : s.releaseCount = 0) (sum : s.activeCount = active + n)

/-- What `control` has found out about the lists. -/
def Swept (s : State) : ControlPc → Prop
  | .exchange _ => s.transfer = 0
  | .addNone => s.transfer = 0 ∧ s.resuming = 0
  | .reverse _ _ _ | .take _ _ => s.resuming = 0
  | _ => True

structure Serving (c : Coro) (n k : Nat) (s₀ s : State) : Prop where
  inv : ∃ start lc tr ch cnt srv, Inv start True s lc tr ch cnt srv
  others : ∀ d, d ≠ c → s.pc d = .idle ∨ ∃ w, s.pc d = .suspended w
  pushed : s.pushed = s₀.pushed
  place : Place c n k s₀.activeCount s
  swept : Swept s (s.control k).pc

/-! ### The steps to come -/

/-- The steps to come in this round. -/
def ControlPc.phase : ControlPc → Nat
  | .unborn => 12
  | .yieldOuter => 10
  | .transfer _ => 9
  | .exchange _ => 8
  | .reverse _ _ _ | .addNone => 7
  | .take _ _ => 6
  | .addSome _ => 5
  | .resume _ => 4
  | .finish => 3
  | .yieldInner | .done => 0

def Pc.phase (n : Nat) : Pc → Nat
  | .release _ _ => 16 * n + 3
  | .startControl _ => 2
  | .inControl _ => 1
  | _ => 0

/-- The root of the list that is still to be reversed. -/
def State.todo (s : State) : ControlPc → Nat
  | .reverse _ _ next => next
  | _ => s.resuming

/-- `m` steps are left, at most. -/
def Left (c : Coro) (n k m : Nat) (s : State) : Prop :=
  ∃ l, Chain Addr.val s.next 0 (s.todo (s.control k).pc) l ∧
    m = (s.pc c).phase n + 16 * s.releaseCount.toNat + (s.control k).pc.phase + l.length

/-! ### Every step -/

section

variable {c : Coro} {n k m : Nat} {s₀ s s' : State}

theorem ControlPc.added_cases (q : ControlPc) : q.added = 0 ∨ q.added = 1 := by
  cases q <;> simp [ControlPc.added]

/-- A `control` that is at work is in a round. -/
theorem Serving.in_round (h : Serving c n k s₀ s) (hact : (s.control k).pc.active = true) :
    (s.pc c = .inControl k ∨ s.pc c = .idle) ∧ (s.control k).pc.outer = true ∧
      (1 ≤ s.releaseCount ∧ s.releaseCount ≤ n) ∧
      s.activeCount + s.releaseCount = s₀.activeCount + n + (s.control k).pc.added := by
  cases h.place with
  | called t own control | elected t own control | served own control =>
      rw [control] at hact
      cases hact
  | serving own control outer release sum => exact ⟨own, outer, release, sum⟩

/-- A step inside a round. -/
theorem Serving.moves (h : Serving c n k s₀ s) (hact : (s.control k).pc.active = true)
    (hinv : ∃ start lc tr ch cnt srv, Inv start True s' lc tr ch cnt srv)
    (hpc : ∀ d, s'.pc d = s.pc d ∨ s'.pc d = .idle) (hpushed : s'.pushed = s.pushed)
    {q : ControlPc} (hq : (s'.control k).pc = q) (hact' : q.active = true)
    (hout : q.outer = true) (hrel : s'.releaseCount = s.releaseCount)
    (hsum : s'.activeCount + (s.control k).pc.added = s.activeCount + q.added)
    (hswept : Swept s' q) {l l' : List Addr}
    (hm : m = (s.pc c).phase n + 16 * s.releaseCount.toNat + (s.control k).pc.phase + l.length)
    (hl : Chain Addr.val s'.next 0 (s'.todo q) l')
    (hlt : q.phase + l'.length < (s.control k).pc.phase + l.length) :
    Serving c n k s₀ s' ∧ ∃ m' < m, Left c n k m' s' := by
  subst hq
  obtain ⟨own, -, release, sum⟩ := h.in_round hact
  have hown : s'.pc c = .inControl k ∨ s'.pc c = .idle := by
    rcases hpc c with hsame | hidle
    · rw [hsame]
      exact own
    · exact Or.inr hidle
  refine ⟨⟨hinv, fun d hd => ?_, hpushed.trans h.pushed, ?_, hswept⟩, ?_⟩
  · rcases hpc d with hsame | hidle
    · rw [hsame]
      exact h.others d hd
    · exact Or.inl hidle
  · exact .serving hown hact' hout (by rw [hrel]; exact release) (by rw [hrel]; omega)
  · have hphase : (s'.pc c).phase n ≤ (s.pc c).phase n := by
      rcases hpc c with hsame | hidle
      · rw [hsame]
      · rw [hidle]
        exact Nat.zero_le _
    exact ⟨_, by rw [hm, hrel]; omega, l', hl, rfl⟩

/-- Nobody is asleep when both lists are empty. -/
theorem Serving.active_nonneg (h : Serving c n k s₀ s) (hact : (s.control k).pc.active = true)
    (hc : (s.control k).pc = .addNone) : 0 ≤ s.activeCount := by
  obtain ⟨start, lc, tr, ch, cnt, srv, hi⟩ := h.inv
  obtain rfl : srv = .running k := (hi.running k).mp hact
  have hswept := h.swept
  rw [hc] at hswept
  have hlc : lc = [] := by simpa [State.serving, hc, Local] using hi.loc
  have htr : tr = [] := (hi.trans.root_eq_stop Addr.val_ne_zero).mp hswept.1
  have hch : ch = [] := (hi.root.root_eq_stop Addr.val_ne_zero).mp hswept.2
  subst hlc htr hch
  have hnobody : cnt = [] := by
    refine List.eq_nil_iff_forall_not_mem.mpr fun d hd => ?_
    have hcounted := (hi.counted d).mp hd
    have hasleep : ∃ w, s.pc d = .suspended w := by
      by_cases hdc : d = c
      · subst hdc
        cases h.place with
        | called t own control | elected t own control | served own control =>
            rw [hc] at control
            cases control
        | serving own => rcases own with own | own <;> simp [own, Pc.counted] at hcounted
      · rcases h.others d hdc with hidle | hasleep
        · simp [hidle, Pc.counted] at hcounted
        · exact hasleep
    obtain ⟨w, hw⟩ := hasleep
    have := (hi.queue.mem w).mpr ⟨d, by simp [hw, Pc.status]⟩
    simp at this
  have hbal := hi.balance trivial
  rw [hnobody] at hbal
  simp [State.serving, hc, ControlPc.owes] at hbal
  exact hbal

/-- The end of the last round. -/
theorem Serving.ends (h : Serving c n k s₀ s) (hl : Left c n k m s)
    (hc : (s.control k).pc = .finish) (hone : s.releaseCount = 1)
    (hs : s' = State.gotoControl { s with releaseCount := s.releaseCount - 1 } k .done)
    (hinv : ∃ start lc tr ch cnt srv, Inv start True s' lc tr ch cnt srv) :
    Serving c n k s₀ s' ∧ ∃ m' < m, Left c n k m' s' := by
  subst hs
  obtain ⟨l, hchain, hm⟩ := hl
  obtain ⟨own, -, release, sum⟩ := h.in_round (by rw [hc]; rfl)
  rw [hc] at hchain hm sum
  have hchain : Chain Addr.val s.next 0 s.resuming l := hchain
  have hsum : s.activeCount + s.releaseCount = s₀.activeCount + n + 1 := sum
  refine ⟨⟨hinv, h.others, h.pushed, ?_, by simp [Swept]⟩, _, ?_, l, ?_, rfl⟩
  · refine .served own (by simp) ?_ ?_
    · show s.releaseCount - 1 = 0
      omega
    · show s.activeCount = _
      omega
  · simp only [gotoControl_control, if_true, hm, ControlPc.phase]
    show (s.pc c).phase n + 16 * (s.releaseCount - 1).toNat + 0 + l.length < _
    omega
  · simp only [gotoControl_control, if_true]
    exact hchain

/-- The end of another round. -/
theorem Serving.nextRound (h : Serving c n k s₀ s) (hl : Left c n k m s)
    (hc : (s.control k).pc = .finish) (hne : s.releaseCount ≠ 1) {q : ControlPc} {count : Nat}
    (hq : q = if count &&& 0b1000000 ≠ 0 then .yieldOuter else .transfer false)
    (hs : s' = { s with
      releaseCount := s.releaseCount - 1
      control := Function.update s.control k ⟨q, (s.control k).thread, count⟩ })
    (hinv : ∃ start lc tr ch cnt srv, Inv start True s' lc tr ch cnt srv) :
    Serving c n k s₀ s' ∧ ∃ m' < m, Left c n k m' s' := by
  subst hs
  obtain ⟨l, hchain, hm⟩ := hl
  obtain ⟨own, -, release, sum⟩ := h.in_round (by rw [hc]; rfl)
  rw [hc] at hchain hm sum
  have hchain : Chain Addr.val s.next 0 s.resuming l := hchain
  have hsum : s.activeCount + s.releaseCount = s₀.activeCount + n + 1 := sum
  have hq' : q.active = true ∧ q.outer = true ∧ q.added = 0 ∧ q.phase ≤ 10 ∧
      (∀ s, Swept s q) ∧ ∀ s : State, s.todo q = s.resuming := by
    rw [hq]
    split <;> simp [ControlPc.active, ControlPc.outer, ControlPc.added, ControlPc.phase, Swept,
      State.todo]
  obtain ⟨hactive, houter, hadded, hphase, hswept, htodo⟩ := hq'
  refine ⟨⟨hinv, h.others, h.pushed, ?_, ?_⟩, _, ?_, l, ?_, rfl⟩
  · refine .serving own ?_ ?_ ?_ ?_
    all_goals simp only [Function.update_self]
    · exact hactive
    · exact houter
    · omega
    · rw [hadded]
      omega
  · simpa using hswept _
  · have hfinish : ControlPc.finish.phase = 3 := rfl
    simp only [Function.update_self, hm]
    omega
  · simp only [Function.update_self, htodo]
    exact hchain

/-- A round of the reversing loop takes the head off what is still to be reversed. -/
theorem Serving.reversing (h : Serving c n k s₀ s) {inner : Bool} {head nxt : Nat} {l : List Addr}
    (hc : (s.control k).pc = .reverse inner head nxt)
    (hl : Chain Addr.val s.next 0 (s.todo (s.control k).pc) l) :
    ∃ w rest, nxt = Addr.val w ∧ l = w :: rest ∧
      Chain Addr.val (s.write w.val { s.mem w.val with nextWaiting := head }).next 0
        (s.mem w.val).nextWaiting rest := by
  obtain ⟨start, lc, tr, ch, cnt, srv, hi⟩ := h.inv
  rw [hc] at hl
  have hl : Chain Addr.val s.next 0 nxt l := hl
  have hrun : srv = .running k := (hi.running k).mp (by rw [hc]; rfl)
  have hne : nxt ≠ 0 := by
    have hloc := hi.loc
    rw [hrun, State.serving, hc] at hloc
    obtain ⟨w, -, hw⟩ := hloc.2.next_mem
    rw [hw]
    exact w.val_ne_zero
  cases l with
  | nil => exact absurd hl hne
  | cons w rest =>
      have hnd := List.nodup_cons.mp (hl.nodup (fun _ _ => Addr.val_inj.mp) Addr.val_ne_zero)
      obtain ⟨rfl, hrest⟩ := hl
      refine ⟨w, rest, rfl, rfl, ?_⟩
      have hrest' := hrest.update_of_notMem hnd.1 head
      rw [← next_link] at hrest'
      exact hrest'

theorem threadResume_same (s : State) (head : Nat) :
    (∀ d, (s.threadResume head).pc d = s.pc d ∨ (s.threadResume head).pc d = .idle) ∧
      (s.threadResume head).pushed = s.pushed ∧ (s.threadResume head).control = s.control ∧
      (s.threadResume head).releaseCount = s.releaseCount ∧
      (s.threadResume head).activeCount = s.activeCount ∧
      (s.threadResume head).resuming = s.resuming ∧ (s.threadResume head).next = s.next := by
  unfold State.threadResume
  dsimp only
  split
  · rename_i d hd
    refine ⟨fun e => ?_, rfl, rfl, rfl, rfl, rfl, rfl⟩
    by_cases hed : e = d
    · exact Or.inr (by simp [State.leave, hed])
    · exact Or.inl (by simp [State.leave, hed])
  · exact ⟨fun d => Or.inl rfl, rfl, rfl, rfl, rfl, rfl, rfl⟩

theorem Serving.control (h : Serving c n k s₀ s) (hl : Left c n k m s)
    (hs : s.advanceControl k = some s') : Serving c n k s₀ s' ∧ ∃ m' < m, Left c n k m' s' := by
  obtain ⟨start, lc, tr, ch, cnt, srv, hi⟩ := h.inv
  have hinv : ∃ start lc tr ch cnt srv, Inv start True s' lc tr ch cnt srv := by
    obtain ⟨lc', tr', ch', cnt', srv', hi'⟩ := hi.advanceControl hs
    exact ⟨start, lc', tr', ch', cnt', srv', hi'⟩
  have hleft := hl
  obtain ⟨l, hchain, hm⟩ := hl
  have hswept := h.swept
  have houter : ∀ q, (s.control k).pc = q → q.active = true → q.outer = true := by
    rintro q rfl hact
    exact (h.in_round hact).2.1
  cases serves_of_advanceControl hs with
  | listEmpty inner hc hzero =>
      obtain rfl : inner = false := by simpa [ControlPc.outer] using houter _ hc rfl
      rw [hc] at hchain
      exact h.moves (q := .exchange false) (by rw [hc]; rfl) hinv (fun d => Or.inl rfl) rfl
        (by simp) rfl rfl rfl (by rw [hc]; rfl) hzero hm hchain (by simp [hc, ControlPc.phase])
  | listHead inner hc =>
      obtain rfl : inner = false := by simpa [ControlPc.outer] using houter _ hc rfl
      rw [hc] at hchain
      exact h.moves (q := .addSome s.transfer) (by rw [hc]; rfl) hinv (fun d => Or.inl rfl) rfl
        (by simp [State.found]) rfl rfl rfl (by rw [hc]; rfl) trivial hm hchain
        (by simp [hc, ControlPc.phase])
  | nobody inner hc hzero =>
      obtain rfl : inner = false := by simpa [ControlPc.outer] using houter _ hc rfl
      rw [hc] at hchain hswept
      have hchain : Chain Addr.val s.next 0 s.resuming l := hchain
      obtain rfl : l = [] := (hchain.root_eq_stop Addr.val_ne_zero).mp hzero
      exact h.moves (q := .addNone) (by rw [hc]; rfl) hinv (fun d => Or.inl rfl) rfl
        (by simp [State.notFound]) rfl rfl rfl (by rw [hc]; rfl) ⟨hswept, rfl⟩ hm
        (show Chain Addr.val _ 0 0 [] from rfl) (by simp [hc, ControlPc.phase])
  | exchanges inner hc =>
      obtain rfl : inner = false := by simpa [ControlPc.outer] using houter _ hc rfl
      rw [hc] at hchain
      exact h.moves (q := .reverse false 0 s.resuming) (by rw [hc]; rfl) hinv
        (fun d => Or.inl rfl) rfl (by simp) rfl rfl rfl (by rw [hc]; rfl) rfl hm hchain
        (by simp [hc, ControlPc.phase])
  | reverses inner head nxt hc =>
      obtain rfl : inner = false := by simpa [ControlPc.outer] using houter _ hc rfl
      obtain ⟨w, rest, rfl, rfl, hrest⟩ := h.reversing hc hchain
      rw [hc] at hswept
      exact h.moves (q := .reverse false w.val (s.mem w.val).nextWaiting) (by rw [hc]; rfl)
        hinv (fun d => Or.inl rfl) rfl (by simp) rfl rfl rfl (by rw [hc]; rfl) hswept hm hrest
        (by simp [hc, ControlPc.phase])
  | reversed inner head nxt hc =>
      obtain rfl : inner = false := by simpa [ControlPc.outer] using houter _ hc rfl
      obtain ⟨w, rest, rfl, rfl, hrest⟩ := h.reversing hc hchain
      rw [hc] at hswept
      -- the list is reversed, and nobody has come since
      have hnone : Chain Addr.val s.next 0 s.resuming [] := hswept
      exact h.moves (q := .take false w.val) (by rw [hc]; rfl) hinv
        (fun d => Or.inl rfl) rfl (by simp) rfl rfl rfl (by rw [hc]; rfl) hswept hm
        (show Chain Addr.val _ 0 s.resuming [] from hnone) (by simp [hc, ControlPc.phase]; omega)
  | takes inner head hc =>
      obtain rfl : inner = false := by simpa [ControlPc.outer] using houter _ hc rfl
      rw [hc] at hchain
      exact h.moves (q := .addSome head) (by rw [hc]; rfl) hinv (fun d => Or.inl rfl) rfl
        (by simp [State.found]) rfl rfl rfl (by rw [hc]; rfl) trivial hm hchain
        (by simp [hc, ControlPc.phase])
  | owes hc hneg => exact absurd (h.active_nonneg (by rw [hc]; rfl) hc) (not_le.mpr hneg)
  | addsNone hc =>
      rw [hc] at hchain
      exact h.moves (q := .finish) (by rw [hc]; rfl) hinv (fun d => Or.inl rfl) rfl (by simp) rfl rfl
        rfl (by simp [hc, ControlPc.added, State.gotoControl]) trivial hm hchain
        (by simp [hc, ControlPc.phase])
  | addsSome head hc =>
      rw [hc] at hchain
      exact h.moves (q := .resume head) (by rw [hc]; rfl) hinv (fun d => Or.inl rfl) rfl (by simp) rfl
        rfl rfl (by simp [hc, ControlPc.added, State.gotoControl]) trivial hm hchain
        (by simp [hc, ControlPc.phase])
  | triesAgain hc => exact absurd (houter _ hc rfl) (by simp [ControlPc.outer])
  | resumes head hc =>
      rw [hc] at hchain
      obtain ⟨hpc, hpushed, hcontrol, hrel, hactive, hres, hnext⟩ := threadResume_same s head
      have hchain' : Chain Addr.val (s.threadResume head).next 0 (s.threadResume head).resuming l := by
        rw [hnext, hres]
        exact hchain
      refine h.moves (q := .finish) (by rw [hc]; rfl) hinv hpc hpushed (by simp) rfl rfl hrel
        ?_ trivial hm hchain' (by simp [hc, ControlPc.phase])
      rw [hc]
      exact congrArg (· + 1) hactive
  | ends hc hone => exact h.ends hleft hc hone rfl hinv
  | nextRound q count hc hne hcount hq => exact h.nextRound hleft hc hne hq rfl hinv
  | goesOn hc =>
      rw [hc] at hchain
      exact h.moves (q := .transfer false) (by rw [hc]; rfl) hinv (fun d => Or.inl rfl) rfl (by simp)
        rfl rfl rfl (by rw [hc]; rfl) trivial hm hchain (by simp [hc, ControlPc.phase])

/-- The call of `control` returns. -/
theorem returns_eq_some {spurious : Bool} (hc : s.pc c = .inControl k)
    (hs : s.advance c spurious = some s') : s' = s.goto c .idle := by
  simp only [State.advance, hc] at hs
  split at hs
  case h_4 => cases hs
  all_goals exact (Option.some.inj hs).symm

/-- A step of the `release` itself. -/
theorem Serving.advance (h : Serving c n k s₀ s) (hn : 1 ≤ n) (hl : Left c n k m s)
    {spurious : Bool} (hs : s.advance c spurious = some s') :
    Serving c n k s₀ s' ∧ ∃ m' < m, Left c n k m' s' := by
  obtain ⟨start, lc, tr, ch, cnt, srv, hi⟩ := h.inv
  have hinv : (∀ w, s.pc c ≠ .awaitSub w) →
      ∃ start lc tr ch cnt srv, Inv start True s' lc tr ch cnt srv := by
    intro hsub
    obtain ⟨lc', tr', ch', cnt', srv', hi'⟩ := hi.advance (fun w hw _ => absurd hw (hsub w)) hs
    exact ⟨start, lc', tr', ch', cnt', srv', hi'⟩
  obtain ⟨l, hchain, hm⟩ := hl
  have hothers : ∀ (q : Pc) (d : Coro), d ≠ c →
      Function.update s.pc c q d = .idle ∨ ∃ w, Function.update s.pc c q d = .suspended w := by
    intro q d hd
    rw [Function.update_of_ne hd]
    exact h.others d hd
  cases h.place with
  | called t own control next release sum =>
      have hinv := hinv (by simp [own])
      simp only [State.advance, own, release, if_true] at hs
      obtain rfl := Option.some.inj hs
      rw [control] at hchain
      refine ⟨⟨hinv, hothers _, h.pushed, ?_, by simp [State.goto, control, Swept]⟩, _, ?_, l, ?_, rfl⟩
      · exact .elected t (by simp) control next (by simp [State.goto]) sum
      · simp only [State.goto, hm, own, release, control, Function.update_self, Pc.phase,
          ControlPc.phase]
        omega
      · simp only [State.goto, control]
        exact hchain
  | elected t own control next release sum =>
      have hinv := hinv (by simp [own])
      simp only [State.advance, own] at hs
      obtain rfl := Option.some.inj hs
      subst next
      rw [control] at hchain
      refine ⟨⟨hinv, hothers _, h.pushed, ?_, by simp [Swept]⟩, _, ?_, l, ?_, rfl⟩
      · refine .serving (Or.inl (by simp)) ?_ ?_ ?_ ?_
        all_goals simp only [Function.update_self]
        · rfl
        · rfl
        · show 1 ≤ s.releaseCount ∧ s.releaseCount ≤ n
          omega
        · show s.activeCount + s.releaseCount = s₀.activeCount + n + 0
          omega
      · simp only [State.goto, hm, own, control, Function.update_self, Pc.phase, ControlPc.phase]
        omega
      · simp only [Function.update_self]
        exact hchain
  | serving own control outer release sum =>
      rcases own with own | own
      · obtain rfl := returns_eq_some own hs
        refine ⟨⟨hinv (by simp [own]), hothers _, h.pushed, ?_, h.swept⟩, _, ?_, l, hchain, rfl⟩
        · exact .serving (Or.inr (by simp)) control outer release sum
        · rw [hm, own]
          simp [State.goto, Pc.phase]
      · simp [State.advance, own] at hs
  | served own control release sum =>
      rcases own with own | own
      · obtain rfl := returns_eq_some own hs
        refine ⟨⟨hinv (by simp [own]), hothers _, h.pushed, ?_, h.swept⟩, _, ?_, l, hchain, rfl⟩
        · exact .served (Or.inr (by simp)) control release sum
        · rw [hm, own]
          simp [State.goto, Pc.phase]
      · simp [State.advance, own] at hs

/-! ### A run of the `release` -/

/-- As long as the counters are in their range, the conversion changes nothing. -/
theorem wrap_eq (hactive : -2 ^ 63 ≤ s.activeCount ∧ s.activeCount < 2 ^ 63)
    (hrelease : -2 ^ 63 ≤ s.releaseCount ∧ s.releaseCount < 2 ^ 63) : s.wrap = s := by
  unfold State.wrap
  rw [toPtrdiff_of_le hactive.1 hactive.2, toPtrdiff_of_le hrelease.1 hrelease.2]

theorem Serving.bounds (h : Serving c n k s₀ s) (hn : (n : Int) < 2 ^ 63) :
    s₀.activeCount ≤ s.activeCount ∧ s.activeCount ≤ s₀.activeCount + n ∧
      0 ≤ s.releaseCount ∧ s.releaseCount < 2 ^ 63 := by
  cases h.place with
  | called t own control next release sum | elected t own control next release sum =>
      rw [sum, release]
      omega
  | serving own control outer release sum =>
      rcases (s.control k).pc.added_cases with hadded | hadded <;> rw [hadded] at sum <;> omega
  | served own control release sum =>
      rw [sum, release]
      omega

/-- The steps of the `release` and of its `control` lead to its end. -/
theorem Serving.step (h : Serving c n k s₀ s) (hn : 1 ≤ n) (hl : Left c n k m s) {a : Action}
    (ha : alone c k s a) (hs : step s a = some s') :
    Serving c n k s₀ s' ∧ ∃ m' < m, Left c n k m' s' := by
  cases a with
  | advance d spurious =>
      obtain rfl : d = c := ha
      exact h.advance hn hl hs
  | control l =>
      obtain rfl : l = k := ha
      exact h.control hl hs
  | tryAquire d | coAwait d w t | release d i t => exact ha.elim

theorem advanceControl_enabled (h : (s.control k).pc.active = true) :
    ∃ s', s.advanceControl k = some s' := by
  cases hc : (s.control k).pc with
  | unborn | done => simp [hc, ControlPc.active] at h
  | transfer inner | exchange inner | reverse inner head next | addNone | finish =>
      simp only [State.advanceControl, hc]
      split <;> exact ⟨_, rfl⟩
  | take inner head | addSome head | resume head | yieldInner | yieldOuter =>
      exact ⟨_, by simp only [State.advanceControl, hc]; rfl⟩

/-- It has a next step until it is over. -/
theorem Serving.atEnd (h : Serving c n k s₀ s)
    (hstuck : ∀ a, alone c k s a → CountingSemaphore.step s a = none) :
    s.pc c = .idle ∧ (s.control k).pc = .done ∧ s.releaseCount = 0 ∧
      s.activeCount = s₀.activeCount + n := by
  have hown := hstuck (.advance c false) rfl
  have hcontrol := hstuck (.control k) rfl
  cases h.place with
  | called t own control next release sum =>
      simp [CountingSemaphore.step, State.advance, own, release] at hown
  | elected t own control next release sum =>
      simp [CountingSemaphore.step, State.advance, own] at hown
  | serving own control outer release sum =>
      obtain ⟨s', hs'⟩ := advanceControl_enabled control
      exact absurd (hcontrol.symm.trans hs') (by simp)
  | served own control release sum =>
      rcases own with own | own
      · simp [CountingSemaphore.step, State.advance, own, control] at hown
      · exact ⟨own, control, release, sum⟩

end

/-! ## From rest to rest -/

section

variable {c : Coro} {n : Nat} {t : ThreadT} {s s' : State} {waiters : List Coro}

theorem AtRest.counted_iff (h : AtRest s waiters) (d : Coro) :
    (s.pc d).counted = true ↔ (s.pc d).status.sleeps = true := by
  rcases h.pc d with hd | ⟨w, hd⟩ <;> simp [hd, Pc.counted, Pc.status]

theorem AtRest.mem_iff (h : AtRest s waiters) :
    waiters.Nodup ∧ ∀ d, d ∈ waiters ↔ (s.pc d).status.sleeps = true := by
  obtain ⟨tr, ch, -, -, hqueue, hmap⟩ := h.lists
  obtain ⟨l, hnd, hmem, hl⟩ := hqueue.parties
  obtain rfl : l = waiters := List.map_injective_iff.mpr (Option.some_injective Coro) (hl.symm.trans hmap)
  exact ⟨hnd, hmem⟩

theorem AtRest.inv (h : AtRest s waiters) :
    ∃ start tr ch, Inv start True s [] tr ch waiters .nobody := by
  obtain ⟨hnd, hmem⟩ := h.mem_iff
  obtain ⟨tr, ch, htr, hch, hqueue, -⟩ := h.lists
  have hcount := h.count
  refine ⟨s.activeCount - s.added + s.taken + s.resumed.length + waiters.length, tr, ch, hqueue, hch,
    htr, rfl, fun d => ?_, hnd, by omega, fun _ => ?_, fun _ => Nat.zero_le _, fun _ => ?_, fun d => ?_,
    fun k => ?_, h.fresh, by simp [h.release], fun d i u hd => ?_⟩
  · rw [hmem, h.counted_iff]
  · simp only [State.serving, ControlPc.owes]
    omega
  · simpa [State.serving, ControlPc.owes] using hcount
  · rcases h.pc d with hd | ⟨w, hd⟩ <;> simp [hd, Pc.starting]
  · simp [h.control k]
  · rcases h.pc d with hd' | ⟨w, hd'⟩ <;> simp [hd'] at hd

/-- The call. -/
theorem AtRest.serving (h : AtRest s waiters) (hc : s.pc c = .idle) (hn : 1 ≤ n) (t : ThreadT) :
    Serving c n s.controls s (s.goto c (.release n t)) ∧
      ∃ m, Left c n s.controls m (s.goto c (.release n t)) := by
  obtain ⟨start, tr, ch, hi⟩ := h.inv
  have hunborn := h.fresh s.controls (Nat.le_refl _)
  have hs : CountingSemaphore.step s (.release c n t) = some (s.goto c (.release n t)) := by
    simp [CountingSemaphore.step, hc]
  obtain ⟨lc', tr', ch', cnt', srv', hi'⟩ := hi.step (show positive s (.release c n t) by
    simpa [positive] using hn) (fun d b w hd _ _ => by cases hd) hs
  refine ⟨⟨⟨start, lc', tr', ch', cnt', srv', hi'⟩, fun d hd => ?_, rfl, ?_, ?_⟩, _, ch, ?_, rfl⟩
  · rw [goto_pc, if_neg hd]
    exact h.pc d
  · exact .called t (by simp) hunborn rfl h.release rfl
  · simp [State.goto, hunborn, Swept]
  · simp only [State.goto, hunborn]
    exact hi.root

theorem length_eq_of_mem_iff {l l' : List Coro} (hl : l.Nodup) (hl' : l'.Nodup)
    (h : ∀ d, d ∈ l ↔ d ∈ l') : l.length = l'.length :=
  ((List.perm_ext_iff_of_nodup hl hl').mpr h).length_eq

/-- The end. -/
theorem Serving.atRest {k : Nat} (h : Serving c n k s s') (hs : AtRest s waiters)
    (hn : s.activeCount + n < 2 ^ 63) (hover : s'.pc c = .idle ∧ (s'.control k).pc = .done ∧
      s'.releaseCount = 0 ∧ s'.activeCount = s.activeCount + n) :
    s'.resumed.map Prod.fst = s.resumed.map Prod.fst ++ (waiters.take n).map some ∧
      AtRest s' (waiters.drop n) := by
  obtain ⟨hidle, -, hrelease, hactive⟩ := hover
  obtain ⟨start, lc, tr, ch, cnt, srv, hi⟩ := h.inv
  obtain rfl : srv = .nobody := by
    by_contra hne
    have := hi.release.2.mpr hne
    omega
  obtain rfl : lc = [] := hi.loc
  have hpc : ∀ d, s'.pc d = .idle ∨ ∃ w, s'.pc d = .suspended w := by
    intro d
    by_cases hd : d = c
    · rw [hd]
      exact Or.inl hidle
    · exact h.others d hd
  -- those who are still asleep are as many as the counter says
  obtain ⟨l, hnd, hmem, hl⟩ := hi.queue.parties
  have hlen : (l.length : Int) = max 0 (-s'.activeCount) := by
    rw [length_eq_of_mem_iff hnd hi.nodup fun d => ?_]
    · simpa [State.serving, ControlPc.owes] using hi.balance trivial
    · rw [hmem, hi.counted]
      rcases hpc d with hd | ⟨w, hd⟩ <;> simp [hd, Pc.counted, Pc.status]
  have hcount := hs.count
  have hdrop : ((waiters.drop n).length : Int) = max 0 (-s'.activeCount) := by
    rw [List.length_drop, hactive]
    omega
  obtain ⟨tr₀, ch₀, -, -, hqueue, hmap⟩ := hs.lists
  have hfifo : s.resumed.map Prod.fst ++ (waiters.take n).map some ++ (waiters.drop n).map some =
      s'.resumed.map Prod.fst ++ l.map some := by
    have hbefore := hqueue.fifo
    have hafter := hi.queue.fifo
    rw [hmap] at hbefore
    rw [hl, h.pushed, hbefore] at hafter
    rw [List.append_assoc, ← List.map_append, List.take_append_drop]
    exact hafter
  obtain ⟨hresumed, hwaiters⟩ := List.append_inj' hfifo (by simp only [List.length_map]; omega)
  refine ⟨hresumed.symm, hpc, fun j => ?_, hi.fresh, hrelease, ⟨tr, ch, hi.trans, hi.root, hi.queue,
    ?_⟩, hdrop, ?_⟩
  · have := hi.running j
    simpa using this
  · rw [hwaiters]
    exact hl
  · have := hs.range
    rw [hactive]
    omega

/-- The steps of a lone `release` of `n` permits. -/
theorem stepPtrdiff_serving {k m : Nat} {s₀ : State} {a : Action} (hn : 1 ≤ n)
    (hrange : -2 ^ 63 ≤ s₀.activeCount) (hsum : s₀.activeCount + n < 2 ^ 63)
    (hn' : (n : Int) < 2 ^ 63) (h : Serving c n k s₀ s ∧ Left c n k m s) (ha : alone c k s a)
    (hs : stepPtrdiff s a = some s') :
    ∃ m' < m, Serving c n k s₀ s' ∧ Left c n k m' s' := by
  obtain ⟨u, hu, rfl⟩ := Option.map_eq_some_iff.mp hs
  obtain ⟨hserving, m', hlt, hleft⟩ := h.1.step hn h.2 ha hu
  obtain ⟨hlo, hhi, hrelease⟩ := hserving.bounds hn'
  rw [wrap_eq ⟨by omega, by omega⟩ ⟨by omega, hrelease.2⟩]
  exact ⟨m', hlt, hserving, hleft⟩

theorem AtRest.releases (h : AtRest s waiters) (hc : s.pc c = .idle) (hn : 1 ≤ n)
    (hn' : (n : Int) < 2 ^ 63) (hsum : s.activeCount + n < 2 ^ 63) (t : ThreadT) :
    Releases c n t s waiters := by
  obtain ⟨hserving, m, hleft⟩ := h.serving hc hn t
  have hrun : ∀ l s', run stepPtrdiff (alone c s.controls) (s.goto c (.release n t)) l = some s' →
      ∃ m', m' + l.length ≤ m ∧ Serving c n s.controls s s' ∧ Left c n s.controls m' s' :=
    fun l s' hr => run_bounded (I := fun m s' => Serving c n s.controls s s' ∧ Left c n s.controls m s')
      (fun m u a u' hu ha hs => stepPtrdiff_serving hn h.range.1 hsum hn' hu ha hs) ⟨hserving, hleft⟩ hr
  constructor
  · refine ⟨m, fun l s' hr => ?_⟩
    obtain ⟨m', hle, -⟩ := hrun l s' hr
    omega
  · intro l s' hr hstuck
    obtain ⟨m', -, hend, -⟩ := hrun l s' hr
    have hover := hend.atEnd fun a ha => Option.map_eq_none_iff.mp (hstuck a ha)
    obtain ⟨hresumed, hrest⟩ := hend.atRest h hsum hover
    exact ⟨hover.2.2.2, hover.2.2.1, hover.1, hresumed, hrest⟩

end

/-! ## A `release(0)` without waiters

Its `control` goes on adding permits. After `2 ^ 63` of them at most the counter is negative, and
`control` waits for a coroutine that has counted itself down. -/

/-- Where the `release(0)` of `c` is, for a semaphore with `active` permits at the start. -/
inductive Spins (c : Coro) (k : Nat) (active : Int) (s : State) : Prop where
  | called (t : ThreadT) (own : s.pc c = .release 0 t) (control : (s.control k).pc = .unborn)
      (next : s.controls = k) (release : s.releaseCount = 0) (sum : s.activeCount = active)
  | elected (t : ThreadT) (own : s.pc c = .startControl t) (control : (s.control k).pc = .unborn)
      (next : s.controls = k) (release : s.releaseCount = 0) (sum : s.activeCount = active)
  | round (own : s.pc c = .inControl k ∨ s.pc c = .idle)
      (control : (s.control k).pc = .transfer false ∨ (s.control k).pc = .exchange false ∨
        (s.control k).pc = .addNone ∨ (s.control k).pc = .yieldOuter)
      (release : -2 ^ 63 ≤ s.releaseCount ∧ s.releaseCount ≤ 0)
      (sum : s.activeCount < 0 ∨ s.activeCount + s.releaseCount = active)
  | finish (own : s.pc c = .inControl k ∨ s.pc c = .idle) (control : (s.control k).pc = .finish)
      (release : -2 ^ 63 < s.releaseCount ∧ s.releaseCount ≤ 0)
      (sum : s.activeCount < 0 ∨ s.activeCount + s.releaseCount = active + 1)
  | waits (own : s.pc c = .inControl k ∨ s.pc c = .idle)
      (control : (s.control k).pc = .transfer true ∨ (s.control k).pc = .exchange true ∨
        (s.control k).pc = .yieldInner)

/-- Nobody waits, and the counters are in their range. -/
structure Alone (s : State) : Prop where
  transfer : s.transfer = 0
  resuming : s.resuming = 0
  active : -2 ^ 63 ≤ s.activeCount ∧ s.activeCount < 2 ^ 63

section

variable {c : Coro} {k : Nat} {active : Int} {s s' : State} {a : Action}

theorem toPtrdiff_range (z : Int) : -2 ^ 63 ≤ toPtrdiff z ∧ toPtrdiff z < 2 ^ 63 := by
  unfold toPtrdiff
  have hlo := Int.le_bmod (x := z) (m := 2 ^ 64) (by decide)
  have hhi := Int.bmod_lt (x := z) (m := 2 ^ 64) (by decide)
  omega

theorem toPtrdiff_succ {z : Int} (h : -2 ^ 63 ≤ z ∧ z < 2 ^ 63) :
    toPtrdiff (z + 1) = z + 1 ∨ toPtrdiff (z + 1) < 0 := by
  by_cases hlt : z + 1 < 2 ^ 63
  · exact Or.inl (toPtrdiff_of_le (by omega) hlt)
  · right
    obtain rfl : z = 2 ^ 63 - 1 := by omega
    decide

theorem Spins.enabled (h : Spins c k active s) : ∃ a, alone c k s a ∧ stepPtrdiff s a ≠ none := by
  have hcontrol : (s.control k).pc.active = true → ∃ a, alone c k s a ∧ stepPtrdiff s a ≠ none := by
    intro hactive
    obtain ⟨s', hs'⟩ := advanceControl_enabled hactive
    exact ⟨.control k, rfl, by simp [stepPtrdiff, step, hs']⟩
  cases h with
  | called t own control next release sum =>
      exact ⟨.advance c false, rfl, by simp [stepPtrdiff, step, State.advance, own, release]⟩
  | elected t own => exact ⟨.advance c false, rfl, by simp [stepPtrdiff, step, State.advance, own]⟩
  | round own control => exact hcontrol (by rcases control with hc | hc | hc | hc <;> rw [hc] <;> rfl)
  | finish own control => exact hcontrol (by rw [control]; rfl)
  | waits own control => exact hcontrol (by rcases control with hc | hc | hc <;> rw [hc] <;> rfl)

/-- The places where the counters stay as they are. -/
theorem Spins.wrap (h : Spins c k active s) (hs : Alone s) :
    Spins c k active s.wrap := by
  have hsame : -2 ^ 63 ≤ s.releaseCount ∧ s.releaseCount < 2 ^ 63 → s.wrap = s :=
    fun hrelease => wrap_eq hs.active hrelease
  cases h with
  | called t own control next release sum =>
      rw [hsame (by omega)]
      exact .called t own control next release sum
  | elected t own control next release sum =>
      rw [hsame (by omega)]
      exact .elected t own control next release sum
  | round own control release sum =>
      rw [hsame (by omega)]
      exact .round own control release sum
  | finish own control release sum =>
      rw [hsame (by omega)]
      exact .finish own control release sum
  | waits own control => exact .waits own control

/-- A step of the `release` itself. -/
theorem Spins.advance (h : Spins c k active s) {spurious : Bool}
    (hs : s.advance c spurious = some s') : Spins c k active s' ∧ s'.transfer = s.transfer ∧
      s'.resuming = s.resuming ∧ s'.activeCount = s.activeCount := by
  have hreturn : s.pc c = .inControl k ∨ s.pc c = .idle → s' = s.goto c .idle := by
    rintro (own | own)
    · exact returns_eq_some own hs
    · simp [State.advance, own] at hs
  cases h with
  | called t own control next release sum =>
      simp only [State.advance, own, release, if_true] at hs
      obtain rfl := Option.some.inj hs
      exact ⟨.elected t (by simp) control next rfl sum, rfl, rfl, rfl⟩
  | elected t own control next release sum =>
      simp only [State.advance, own] at hs
      obtain rfl := Option.some.inj hs
      subst next
      refine ⟨.round (Or.inl (by simp)) (Or.inl (by simp)) ?_ (Or.inr ?_), rfl, rfl, rfl⟩
      · show -2 ^ 63 ≤ s.releaseCount ∧ s.releaseCount ≤ 0
        omega
      · show s.activeCount + s.releaseCount = active
        omega
  | round own control release sum =>
      obtain rfl := hreturn own
      exact ⟨.round (Or.inr (by simp)) control release sum, rfl, rfl, rfl⟩
  | finish own control release sum =>
      obtain rfl := hreturn own
      exact ⟨.finish (Or.inr (by simp)) control release sum, rfl, rfl, rfl⟩
  | waits own control =>
      obtain rfl := hreturn own
      exact ⟨.waits (Or.inr (by simp)) control, rfl, rfl, rfl⟩

/-- A step of `control`. -/
theorem Spins.control (h : Spins c k active s) (hs₀ : Alone s) (hactive : 0 ≤ active)
    (hs : s.advanceControl k = some s') : Spins c k active s'.wrap ∧ s'.transfer = 0 ∧
      s'.resuming = 0 := by
  obtain ⟨htransfer, hresuming, hrange⟩ := hs₀
  have hempty : { s with resuming := 0 } = s := by rw [← hresuming]
  cases h with
  | called t own control | elected t own control => simp [State.advanceControl, control] at hs
  | round own control release sum =>
      have hround : ∀ q, q = .transfer false ∨ q = .exchange false ∨ q = .addNone →
          Spins c k active (s.gotoControl k q).wrap := by
        intro q hq
        refine Spins.wrap (.round own ?_ release sum) ⟨htransfer, hresuming, hrange⟩
        simp only [gotoControl_control, if_true]
        rcases hq with hq | hq | hq <;> simp [hq]
      rcases control with hc | hc | hc | hc
      · simp only [State.advanceControl, hc, htransfer, if_true] at hs
        obtain rfl := Option.some.inj hs
        exact ⟨hround _ (by simp), htransfer, hresuming⟩
      · simp only [State.advanceControl, hc, hresuming, if_true, hempty] at hs
        obtain rfl := Option.some.inj hs
        exact ⟨hround .addNone (by simp), htransfer, hresuming⟩
      · have hsucc := toPtrdiff_succ hrange
        simp only [State.advanceControl, hc] at hs
        split at hs <;> obtain rfl := Option.some.inj hs <;> rename_i hneg
        · -- the counter has been taken around
          exact ⟨.waits own (by simp [State.wrap]), htransfer, hresuming⟩
        · have hsum := sum.resolve_left hneg
          have hrelease : toPtrdiff s.releaseCount = s.releaseCount :=
            toPtrdiff_of_le release.1 (by omega)
          refine ⟨.finish own (by simp [State.wrap]) ?_ ?_, htransfer, hresuming⟩
          · show -2 ^ 63 < toPtrdiff s.releaseCount ∧ toPtrdiff s.releaseCount ≤ 0
            omega
          · show toPtrdiff (s.activeCount + 1) < 0 ∨
              toPtrdiff (s.activeCount + 1) + toPtrdiff s.releaseCount = active + 1
            omega
      · simp only [State.advanceControl, hc] at hs
        obtain rfl := Option.some.inj hs
        exact ⟨hround _ (by simp), htransfer, hresuming⟩
  | finish own control release sum =>
      have hrelease : toPtrdiff (s.releaseCount - 1) = s.releaseCount - 1 :=
        toPtrdiff_of_le (by omega) (by omega)
      have hkeep : toPtrdiff s.activeCount = s.activeCount := toPtrdiff_of_le hrange.1 hrange.2
      simp only [State.advanceControl, control] at hs
      -- the value is never `1`
      rw [if_neg (by omega)] at hs
      obtain rfl := Option.some.inj hs
      refine ⟨.round own ?_ ?_ ?_, htransfer, hresuming⟩
      · simp only [State.wrap, Function.update_self]
        split <;> simp
      · show -2 ^ 63 ≤ toPtrdiff (s.releaseCount - 1) ∧ toPtrdiff (s.releaseCount - 1) ≤ 0
        omega
      · show toPtrdiff s.activeCount < 0 ∨
          toPtrdiff s.activeCount + toPtrdiff (s.releaseCount - 1) = active
        omega
  | waits own control =>
      have hwaits : ∀ q, q = .transfer true ∨ q = .exchange true ∨ q = .yieldInner →
          Spins c k active (s.gotoControl k q).wrap := by
        intro q hq
        refine .waits own ?_
        simp only [State.wrap, gotoControl_control, if_true]
        exact hq
      rcases control with hc | hc | hc
      · simp only [State.advanceControl, hc, htransfer, if_true] at hs
        obtain rfl := Option.some.inj hs
        exact ⟨hwaits _ (by simp), htransfer, hresuming⟩
      · simp only [State.advanceControl, hc, hresuming, if_true, hempty] at hs
        obtain rfl := Option.some.inj hs
        exact ⟨hwaits .yieldInner (by simp), htransfer, hresuming⟩
      · simp only [State.advanceControl, hc] at hs
        obtain rfl := Option.some.inj hs
        exact ⟨hwaits _ (by simp), htransfer, hresuming⟩

theorem Spins.step (h : Spins c k active s) (hs₀ : Alone s) (hactive : 0 ≤ active)
    (ha : alone c k s a) (hs : stepPtrdiff s a = some s') : Spins c k active s' ∧ Alone s' := by
  obtain ⟨u, hu, rfl⟩ := Option.map_eq_some_iff.mp hs
  cases a with
  | advance d spurious =>
      obtain rfl : d = c := ha
      obtain ⟨hspins, htransfer, hresuming, hcount⟩ := h.advance hu
      have hu₀ : Alone u :=
        ⟨htransfer.trans hs₀.transfer, hresuming.trans hs₀.resuming, by rw [hcount]; exact hs₀.active⟩
      exact ⟨hspins.wrap hu₀, hu₀.transfer, hu₀.resuming, toPtrdiff_range u.activeCount⟩
  | control l =>
      obtain rfl : l = k := ha
      obtain ⟨hspins, htransfer, hresuming⟩ := h.control hs₀ hactive hu
      exact ⟨hspins, htransfer, hresuming, toPtrdiff_range u.activeCount⟩
  | tryAquire d | coAwait d w t | release d i t => exact ha.elim

end

/-! ## A `release(0)` with waiters

In its first round it does what a `release(1)` does, which is to resume somebody. -/

def State.withRelease (s : State) (r : Int) : State := { s with releaseCount := r }

section

variable {c : Coro} {k : Nat} {t : ThreadT} {s s' s₀ : State} {a : Action} {waiters : List Coro}

theorem found_withRelease (inner : Bool) (head : Nat) (r : Int) :
    (s.withRelease r).found k inner head = (s.found k inner head).withRelease r := by
  cases inner <;> rfl

theorem notFound_withRelease (inner : Bool) (r : Int) :
    (s.withRelease r).notFound k inner = (s.notFound k inner).withRelease r := by
  cases inner <;> rfl

theorem threadResume_withRelease (head : Nat) (r : Int) :
    (s.withRelease r).threadResume head = (s.threadResume head).withRelease r := by
  cases hh : (s.mem head).handle <;>
    simp [State.threadResume, State.withRelease, State.leave, State.goto, hh]

/-- Only the end of a round looks at `release_count_`. -/
theorem advanceControl_withRelease (hc : (s.control k).pc ≠ .finish) (r : Int) :
    (s.withRelease r).advanceControl k = (s.advanceControl k).map (·.withRelease r) := by
  have hsame : (s.withRelease r).control = s.control := rfl
  have htransfer : (s.withRelease r).transfer = s.transfer := rfl
  have hresuming : (s.withRelease r).resuming = s.resuming := rfl
  have hmem : (s.withRelease r).mem = s.mem := rfl
  have hactive : (s.withRelease r).activeCount = s.activeCount := rfl
  cases hq : (s.control k).pc with
  | finish => exact absurd hq hc
  | unborn | done | yieldInner | yieldOuter | addSome head =>
      simp only [State.advanceControl, hsame, hq]
      rfl
  | transfer inner =>
      simp only [State.advanceControl, hsame, hq, htransfer, hmem]
      split
      · rfl
      · exact congrArg some (found_withRelease (s := { s with transfer := _ }) inner s.transfer r)
  | exchange inner =>
      simp only [State.advanceControl, hsame, hq, hresuming]
      split
      · exact congrArg some (notFound_withRelease (s := { s with resuming := 0 }) inner r)
      · rfl
  | addNone =>
      simp only [State.advanceControl, hsame, hq, hactive]
      split <;> rfl
  | reverse inner head nxt =>
      simp only [State.advanceControl, hsame, hq, hmem]
      split <;> rfl
  | take inner head =>
      simp only [State.advanceControl, hsame, hq, hmem]
      exact congrArg some (found_withRelease (s := { s with transfer := _ }) inner head r)
  | resume head =>
      simp only [State.advanceControl, hsame, hq, threadResume_withRelease]
      rfl

/-- Where the last places of a round come from. -/
theorem advanceControl_ends (hs : s.advanceControl k = some s')
    (hend : (s'.control k).pc = .finish ∨ (s'.control k).pc = .done) :
    (s.control k).pc = .addNone ∨ (∃ head, (s.control k).pc = .resume head) ∨
      (s.control k).pc = .finish := by
  cases serves_of_advanceControl hs with
  | addsNone hq => exact Or.inl hq
  | resumes head hq => exact Or.inr (Or.inl ⟨head, hq⟩)
  | ends hq | nextRound q count hq => exact Or.inr (Or.inr hq)
  | listHead inner | takes inner head => cases inner <;> simp [State.found] at hend
  | nobody inner => cases inner <;> simp [State.notFound] at hend
  | listEmpty | exchanges | reverses | reversed | owes | addsSome | triesAgain | goesOn =>
      simp at hend

/-- What the `release` does after its `fetch_add` does not look at `release_count_` either. -/
theorem advance_withRelease {spurious : Bool}
    (hc : (∃ t, s.pc c = .startControl t) ∨ s.pc c = .inControl k ∨ s.pc c = .idle) (r : Int) :
    (s.withRelease r).advance c spurious = (s.advance c spurious).map (·.withRelease r) := by
  have hpc : (s.withRelease r).pc = s.pc := rfl
  have hcontrol : (s.withRelease r).control = s.control := rfl
  rcases hc with ⟨t, hc⟩ | hc | hc
  · simp only [State.advance, hpc, hc]
    rfl
  · simp only [State.advance, hpc, hc, hcontrol]
    split <;> rfl
  · simp only [State.advance, hpc, hc]
    rfl

theorem resumed_threadResume_le (s : State) (head : Nat) :
    s.resumed.length ≤ (s.threadResume head).resumed.length := by
  unfold State.threadResume
  dsimp only
  split
  · simp [State.leave, State.goto]
  · exact Nat.le_refl _

/-- A resumption is not taken back. -/
theorem resumed_mono (hs : step s a = some s') (ha : alone c k s a) :
    s.resumed.length ≤ s'.resumed.length := by
  cases a with
  | advance d spurious => cases advances_of_advance hs <;> exact Nat.le_refl _
  | control l =>
      cases serves_of_advanceControl hs with
      | resumes head => exact resumed_threadResume_le s head
      | listHead inner | takes inner head | nobody inner => cases inner <;> exact Nat.le_refl _
      | _ => exact Nat.le_refl _
  | tryAquire d | coAwait d w t | release d i t => exact ha.elim

/-- Who is in the hands of `control` is resumed. -/
theorem Serving.resumes {n : Nat} (h : Serving c n k s₀ s) {head : Nat}
    (hc : (s.control k).pc = .resume head) :
    (s.threadResume head).resumed.length = s.resumed.length + 1 := by
  obtain ⟨start, lc, tr, ch, cnt, srv, hi⟩ := h.inv
  obtain rfl : srv = .running k := (hi.running k).mp (by rw [hc]; rfl)
  have hloc := hi.loc
  rw [State.serving, hc] at hloc
  obtain ⟨w, d, rfl, -, -, hd, -⟩ := hi.holds hloc
  have hd : (s.mem w.val).handle = some d := hd
  simp [State.threadResume, hd, State.leave, State.goto]

/-- The `release(0)` of `c` has resumed somebody, or is in its first round. -/
inductive FirstRound (c : Coro) (k : Nat) (t : ThreadT) (s₀ s : State) : Prop where
  | called (start : s = s₀.goto c (.release 0 t))
  | round (serving : Serving c 1 k s₀ (s.withRelease 1)) (left : ∃ m, Left c 1 k m (s.withRelease 1))
      (release : s.releaseCount = 0)
      (control : (s.control k).pc ≠ .finish ∧ (s.control k).pc ≠ .done)
      (same : s₀.resumed.length ≤ s.resumed.length)
  | resumed (more : s₀.resumed.length < s.resumed.length)

/-- After its `fetch_add`, the `release` is in or before the call of `control`. -/
theorem Serving.own (h : Serving c 1 k s₀ (s.withRelease 1)) :
    (∃ t, s.pc c = .startControl t) ∨ s.pc c = .inControl k ∨ s.pc c = .idle := by
  cases h.place with
  | called t own control next release => exact absurd release (by simp [State.withRelease])
  | elected t own => exact Or.inl ⟨t, own⟩
  | serving own | served own => exact Or.inr own

/-- A step of the first round is one of a `release(1)`. -/
theorem step_withRelease (h : Serving c 1 k s₀ (s.withRelease 1)) (hc : (s.control k).pc ≠ .finish)
    (ha : alone c k s a) (r : Int) :
    step (s.withRelease r) a = (step s a).map (·.withRelease r) := by
  cases a with
  | advance d spurious =>
      obtain rfl : d = c := ha
      exact advance_withRelease h.own r
  | control l =>
      obtain rfl : l = k := ha
      exact advanceControl_withRelease hc r
  | tryAquire d | coAwait d w t | release d i t => exact ha.elim

/-- The first round ends with a resumption, if there are waiters. -/
theorem Serving.firstRound (h : Serving c 1 k s₀ (s.withRelease 1)) (hneg : s₀.activeCount < 0)
    (hc : (s.control k).pc ≠ .finish ∧ (s.control k).pc ≠ .done) (ha : alone c k s a)
    (hs : CountingSemaphore.step s a = some s') :
    (s'.control k).pc ≠ .finish ∧ (s'.control k).pc ≠ .done ∨
      s.resumed.length < s'.resumed.length := by
  cases a with
  | advance d spurious =>
      obtain rfl : d = c := ha
      left
      rcases h.own with ⟨t, own⟩ | own | own
      · simp only [CountingSemaphore.step, State.advance, own] at hs
        obtain rfl := Option.some.inj hs
        by_cases hk : k = s.controls
        · simp [hk]
        · simpa [hk] using hc
      · obtain rfl := returns_eq_some own hs
        exact hc
      · simp [CountingSemaphore.step, State.advance, own] at hs
  | control l =>
      obtain rfl : l = k := ha
      by_cases hend : (s'.control l).pc = .finish ∨ (s'.control l).pc = .done
      · right
        rcases advanceControl_ends hs hend with hq | ⟨head, hq⟩ | hq
        · -- there is somebody to resume
          exfalso
          have hq : ((s.withRelease 1).control l).pc = .addNone := hq
          have hpos : 0 ≤ s.activeCount := h.active_nonneg (by rw [hq]; rfl) hq
          cases h.place with
          | called t own control | elected t own control | served own control =>
              rw [control] at hq
              cases hq
          | serving own control outer release sum =>
              rw [hq] at sum
              have hsum : s.activeCount + 1 = s₀.activeCount + 1 + 0 := sum
              omega
        · have hq' : ((s.withRelease 1).control l).pc = .resume head := hq
          have hmore := h.resumes hq'
          rw [threadResume_withRelease] at hmore
          have hmore : (s.threadResume head).resumed.length = s.resumed.length + 1 := hmore
          simp only [CountingSemaphore.step, State.advanceControl, hq] at hs
          obtain rfl := Option.some.inj hs
          show s.resumed.length < (s.threadResume head).resumed.length
          omega
        · exact absurd hq hc.1
      · exact Or.inl (not_or.mp hend)
  | tryAquire d | coAwait d w t | release d i t => exact ha.elim

theorem FirstRound.step (h : FirstRound c s₀.controls t s₀ s) (hs₀ : AtRest s₀ waiters)
    (hc : s₀.pc c = .idle) (hneg : s₀.activeCount < 0) (ha : alone c s₀.controls s a)
    (hs : CountingSemaphore.step s a = some s') : FirstRound c s₀.controls t s₀ s' := by
  cases h with
  | resumed more => exact .resumed (more.trans_le (resumed_mono hs ha))
  | called start =>
      subst start
      have hunborn := hs₀.fresh s₀.controls (Nat.le_refl _)
      obtain ⟨hserving, m, hleft⟩ := hs₀.serving hc (Nat.le_refl 1) t
      cases a with
      | advance d spurious =>
          obtain rfl : d = c := ha
          have hnext : CountingSemaphore.step (s₀.goto d (.release (1 : Nat) t)) (.advance d spurious) =
              some (s'.withRelease 1) := by
            simp only [CountingSemaphore.step, State.advance, State.goto, Function.update_self,
              hs₀.release, if_true, Function.update_idem] at hs ⊢
            obtain rfl := Option.some.inj hs
            rfl
          obtain ⟨hserving', m', -, hleft'⟩ := hserving.step (Nat.le_refl 1) hleft
            (show alone d s₀.controls _ (.advance d spurious) from rfl) hnext
          simp only [CountingSemaphore.step, State.advance, goto_pc, if_true] at hs
          split at hs
          · obtain rfl := Option.some.inj hs
            refine .round hserving' ⟨m', hleft'⟩ ?_ ?_ (Nat.le_refl _)
            · show s₀.releaseCount + 0 = 0
              rw [hs₀.release]
              rfl
            · show (s₀.control s₀.controls).pc ≠ _ ∧ _
              rw [hunborn]
              simp [State.goto, hunborn]
          · rename_i hne
            exact absurd hs₀.release hne
      | control l =>
          obtain rfl : l = s₀.controls := ha
          simp [CountingSemaphore.step, State.advanceControl, State.goto, hunborn] at hs
      | tryAquire d | coAwait d w t | release d i t => exact ha.elim
  | round serving left release control same =>
      obtain ⟨m, left⟩ := left
      have hcommute := step_withRelease serving control.1 ha
      have hnext : CountingSemaphore.step (s.withRelease 1) a = some (s'.withRelease 1) := by
        rw [hcommute, hs]
        rfl
      have hrelease : s'.releaseCount = 0 := by
        have hkeep := hcommute s.releaseCount
        rw [show s.withRelease s.releaseCount = s from rfl, hs] at hkeep
        have heq : s' = s'.withRelease s.releaseCount := Option.some.inj hkeep
        rw [heq]
        exact release
      obtain ⟨hserving, m', -, hleft⟩ := serving.step (Nat.le_refl 1) left
        (show alone c s₀.controls (s.withRelease 1) a by cases a <;> exact ha) hnext
      rcases serving.firstRound hneg control ha hs with hcontrol | hmore
      · exact .round hserving ⟨m', hleft⟩ hrelease hcontrol (same.trans (resumed_mono hs ha))
      · exact .resumed (Nat.lt_of_le_of_lt same hmore)

theorem FirstRound.wrap (h : FirstRound c s₀.controls t s₀ s) (hs₀ : AtRest s₀ waiters)
    (hneg : s₀.activeCount < 0) : FirstRound c s₀.controls t s₀ s.wrap := by
  have hrange := hs₀.range
  cases h with
  | called start =>
      have hsame : s.wrap = s := by
        rw [start]
        exact wrap_eq hrange (by rw [show (s₀.goto c _).releaseCount = 0 from hs₀.release]; omega)
      rw [hsame]
      exact .called start
  | round serving left release control same =>
      obtain ⟨hlo, hhi, -⟩ := serving.bounds (by decide)
      have hhi : s.activeCount ≤ s₀.activeCount + 1 := hhi
      have hsame : s.wrap = s :=
        wrap_eq ⟨hrange.1.trans hlo, by omega⟩ (by rw [release]; omega)
      rw [hsame]
      exact .round serving left release control same
  | resumed more => exact .resumed more

end

/-! ## When `release(n)` adds `n` permits -/

section

variable {c : Coro} {t : ThreadT} {s : State} {waiters : List Coro}

/-- Without waiters, a `release(0)` does not come to an end. -/
theorem AtRest.not_releases_alone (h : AtRest s []) :
    ¬ Releases c 0 t s [] := by
  intro hreleases
  obtain ⟨tr, ch, htr, hch, hqueue, hmap⟩ := h.lists
  have hnil : tr = [] ∧ ch = [] := by simpa using hmap
  have htransfer : s.transfer = 0 := by
    rw [hnil.1] at htr
    exact htr
  have hresuming : s.resuming = 0 := by
    rw [hnil.2] at hch
    exact hch
  have hactive : 0 ≤ s.activeCount := by
    have := h.count
    simp at this
    exact this
  obtain ⟨N, hN⟩ := hreleases.ends
  obtain ⟨l, s', hrun, hstuck⟩ := exists_stuck hN
  have hcalled : Spins c s.controls s.activeCount (s.goto c (.release 0 t)) :=
    .called t (by simp) (h.fresh s.controls (Nat.le_refl _)) rfl h.release rfl
  have halone : Alone (s.goto c (.release 0 t)) := ⟨htransfer, hresuming, h.range⟩
  have hspins : Spins c s.controls s.activeCount s' ∧ Alone s' :=
    run_invariant (I := fun _ s' => Spins c s.controls s.activeCount s' ∧ Alone s')
      ⟨hcalled, halone⟩ (fun l u a u' hu ha hs => hu.1.step hu.2 hactive ha hs) hrun
  obtain ⟨a, ha, hne⟩ := hspins.1.enabled
  exact hne (hstuck a ha)

/-- With waiters, a `release(0)` resumes one of them. -/
theorem AtRest.not_releases_zero (h : AtRest s waiters) (hc : s.pc c = .idle)
    (hneg : s.activeCount < 0) : ¬ Releases c 0 t s waiters := by
  intro hreleases
  obtain ⟨N, hN⟩ := hreleases.ends
  obtain ⟨l, s', hrun, hstuck⟩ := exists_stuck hN
  obtain ⟨-, -, -, hresumed, -⟩ := hreleases.adds l s' hrun hstuck
  have hfirst : FirstRound c s.controls t s s' := by
    refine run_invariant (I := fun _ s' => FirstRound c s.controls t s s') (.called rfl) ?_ hrun
    intro l u a u' hu ha hs
    obtain ⟨v, hv, rfl⟩ := Option.map_eq_some_iff.mp hs
    exact (hu.step h hc hneg ha hv).wrap h hneg
  cases hfirst with
  | called start =>
      have hown := Option.map_eq_none_iff.mp (hstuck (.advance c false) rfl)
      simp only [start, CountingSemaphore.step, State.advance, goto_pc, if_true] at hown
      split at hown <;> cases hown
  | round serving left release control same =>
      have hover := serving.atEnd fun a ha => by
        rw [step_withRelease serving control.1 (show alone c s.controls s' a by cases a <;> exact ha)]
        simpa [stepPtrdiff] using hstuck a (by cases a <;> exact ha)
      exact control.2 hover.2.1
  | resumed more =>
      have hlen := congrArg List.length hresumed
      simp at hlen
      omega

/-- Beyond the range of the counter it cannot have `n` more. -/
theorem not_releases_of_overflow {n : Nat} (hsum : 2 ^ 63 ≤ s.activeCount + n)
    (hrange : s.activeCount < 2 ^ 63) : ¬ Releases c n t s waiters := by
  intro hreleases
  obtain ⟨N, hN⟩ := hreleases.ends
  obtain ⟨l, s', hrun, hstuck⟩ := exists_stuck hN
  obtain ⟨hactive, -⟩ := hreleases.adds l s' hrun hstuck
  have hlt : s'.activeCount < 2 ^ 63 := by
    refine run_invariant (I := fun _ s' => s'.activeCount < 2 ^ 63) hrange ?_ hrun
    intro l u a u' _ _ hs
    obtain ⟨v, -, rfl⟩ := Option.map_eq_some_iff.mp hs
    exact (toPtrdiff_range v.activeCount).2
  omega

/-- **`release(n)` adds exactly `n` permits** when `n` is not `0` and the counter can hold the
sum. -/
theorem countingSemaphore_releases_iff (h : AtRest s waiters) (hc : s.pc c = .idle) (n : Amount)
    (t : ThreadT) :
    Releases c n.val t s waiters ↔ 1 ≤ n.val ∧ s.activeCount + n.val < 2 ^ 63 := by
  constructor
  · intro hreleases
    constructor
    · by_contra hzero
      obtain hzero : n.val = 0 := by omega
      rw [hzero] at hreleases
      cases waiters with
      | nil => exact h.not_releases_alone hreleases
      | cons d waiters =>
          have hneg : s.activeCount < 0 := by
            have := h.count
            simp only [List.length_cons] at this
            omega
          exact h.not_releases_zero hc hneg hreleases
    · by_contra hsum
      exact not_releases_of_overflow (by omega) h.range.2 hreleases
  · rintro ⟨hn, hsum⟩
    have hn' := n.isLt
    exact h.releases hc hn (by omega) hsum t

/-! ### Semaphores at rest -/

/-- A semaphore that has just been constructed. -/
theorem atRest_init {start : Int} (hstart : 0 ≤ start ∧ start < 2 ^ 63) : AtRest (init start) [] := by
  refine ⟨fun c => Or.inl rfl, fun k => rfl, fun k _ => rfl, rfl, ⟨[], [], rfl, rfl, ?_, rfl⟩, ?_,
    by show -2 ^ 63 ≤ start ∧ start < 2 ^ 63; omega⟩
  · exact WaitQueue.init _ _ _ fun c => rfl
  · show ((0 : Nat) : Int) = max 0 (-start)
    omega

/-- A timely run that has come to a pause. -/
theorem atRest_of_timely {start : Int} (hstart : 0 ≤ start)
    (h : Reaches step timely (· = init start) s) (hq : Quiescent s)
    (hpc : ∀ c, s.pc c = .idle ∨ ∃ w, s.pc c = .suspended w)
    (hrange : -2 ^ 63 ≤ s.activeCount ∧ s.activeCount < 2 ^ 63) : ∃ waiters, AtRest s waiters := by
  obtain ⟨lc, tr, ch, cnt, srv, hi⟩ := Reachable.balanced h hstart
  obtain ⟨-, hcontrol, hrelease⟩ := hq
  obtain rfl : srv = .nobody := by
    by_contra hne
    have := hi.release.2.mpr hne
    omega
  obtain rfl : lc = [] := hi.loc
  obtain ⟨l, hnd, hmem, hl⟩ := hi.queue.parties
  refine ⟨l, hpc, hcontrol, hi.fresh, hrelease, ⟨tr, ch, hi.trans, hi.root, hi.queue, hl⟩, ?_, hrange⟩
  rw [length_eq_of_mem_iff hnd hi.nodup fun d => ?_]
  · simpa [State.serving, ControlPc.owes] using hi.balance trivial
  · rw [hmem, hi.counted]
    rcases hpc d with hd | ⟨w, hd⟩ <;> simp [hd, Pc.counted, Pc.status]

/-- 1 is asleep, and 2 releases three permits. -/
theorem countingSemaphore_releases_iff_three :
    ∃ s waiters, run step timely (init 0) oneAsleep = some s ∧ AtRest s waiters ∧
      waiters.length = 1 ∧ Releases 2 3 ⟨1⟩ s waiters := by
  obtain ⟨s, hs, h1, h2, h3⟩ : ∃ s, run step timely (init 0) oneAsleep = some s ∧
      s.activeCount = -1 ∧ s.releaseCount = 0 ∧ s.pc 1 = .suspended (.nth 0) :=
    ⟨_, rfl, rfl, rfl, rfl⟩
  have hidle : ∀ c, c ≠ 1 → s.pc c = .idle := by
    intro c hc
    refine idle_of_run hs rfl fun a ha hac => hc ?_
    simp only [oneAsleep, List.mem_cons, List.not_mem_nil, or_false] at ha
    rcases ha with rfl | rfl | rfl | rfl | rfl | rfl <;> simpa [Action.coro] using hac.symm
  have hq : Quiescent s := by
    refine quiescent_of_run (fun s a h => h.1) hs h2 ?_
    simp [oneAsleep, Action.coro, h3, Pc.acquiring]
  have hpc : ∀ c, s.pc c = .idle ∨ ∃ w, s.pc c = .suspended w := by
    intro c
    by_cases hc : c = 1
    · exact Or.inr ⟨_, hc ▸ h3⟩
    · exact Or.inl (hidle c hc)
  obtain ⟨waiters, hrest⟩ := atRest_of_timely (by decide) (Reaches.run (Reaches.start rfl) hs) hq
    hpc (by omega)
  have hcount := hrest.count
  refine ⟨s, waiters, hs, hrest, by omega, ?_⟩
  exact (countingSemaphore_releases_iff hrest (hidle 2 (by decide)) ⟨3, by decide⟩ ⟨1⟩).mpr
    ⟨by decide, by rw [h1]; decide⟩

/-- On a semaphore with two permits, `release(0)` does not come to an end. -/
theorem countingSemaphore_releaseZero :
    AtRest (init 2) [] ∧ ¬ Releases 1 0 ⟨0⟩ (init 2) [] :=
  ⟨atRest_init (by decide), (atRest_init (by decide)).not_releases_alone⟩

end

end Zab.CountingSemaphore
