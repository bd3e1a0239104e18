import Zab.Sync.WaitFor
import Mathlib.Algebra.Order.BigOperators.Group.List
import Mathlib.Algebra.Order.Group.Nat

set_option autoImplicit false

/-! # The invariant of `wait_for`

The calls on all stacks together are a list of frames. The counts of the frames say where every
awaitable is: the one call of its `await_suspend`, and, after it has finished, the one call of its
event, which ends in the counter of the `wait_for` above it or in the continuation.
-/

namespace Zab.WaitFor

open Automaton

/-! ## Trees -/

theorem sub_cons {t : Tree} {i : Nat} {p : Path} {u : Tree} (h : t.sub (i :: p) = some u) :
    ∃ waiters, t.sub p = some (.waitFor waiters) ∧ waiters[i]? = some u := by
  obtain ⟨v, hv, hi⟩ := Option.bind_eq_some_iff.mp h
  cases v with
  | future isVoid => cases hi
  | waitFor waiters => exact ⟨waiters, hv, hi⟩

theorem sub_cons_lt {t : Tree} {i : Nat} {p : Path} {waiters : List Tree}
    (h : t.sub p = some (.waitFor waiters)) : t.sub (i :: p) ≠ none ↔ i < waiters.length := by
  show (t.sub p).bind _ ≠ none ↔ _
  rw [h, Option.bind_some]
  simp [Tree.waiters]

/-! ## Stacks -/

/-- A thread changes its own stack only. -/
theorem flatten_set {threads : List (List Frame)} {k : Nat} {l : List Frame}
    (h : threads[k]? = some l) : ∃ rest, threads.flatten.Perm (l ++ rest) ∧
      ∀ l', (threads.set k l').flatten.Perm (l' ++ rest) := by
  obtain ⟨hk, hget⟩ := List.getElem?_eq_some_iff.mp h
  have hset : ∀ l', (threads.set k l').flatten.Perm
      (l' ++ ((threads.take k).flatten ++ (threads.drop (k + 1)).flatten)) := by
    intro l'
    rw [List.set_eq_take_append_cons_drop, if_pos hk, List.flatten_append, List.flatten_cons]
    exact List.perm_append_comm_assoc ..
  refine ⟨(threads.take k).flatten ++ (threads.drop (k + 1)).flatten, ?_, hset⟩
  have := hset l
  rwa [← hget, List.set_getElem_self, hget] at this

/-! ## The invariant -/

section

variable {α : Type}

/-- A waiter has been started. -/
def State.started (s : State α) : Path → Bool
  | [] => true
  | i :: p => decide (i < s.index p)

/-- The event of an awaitable has been executed, or is being executed. -/
def State.finished (s : State α) (t : Tree) (p : Path) : Bool :=
  match t.sub p with
  | some (.future _) => (s.future p).isComplete
  | some (.waitFor _) => decide (s.counter p = 0)
  | none => false

theorem finished_waitFor {t : Tree} {s : State α} {p : Path} {waiters : List Tree}
    (hp : t.sub p = some (.waitFor waiters)) : s.finished t p = decide (s.counter p = 0) := by
  simp only [State.finished, hp]

theorem finished_future {t : Tree} {s : State α} {p : Path}
    {isVoid : Bool} (hp : t.sub p = some (.future isVoid)) :
    s.finished t p = (s.future p).isComplete := by
  simp only [State.finished, hp]

theorem finished_congr {t : Tree} {s s' : State α} {p : Path} (hfuture : s'.future p = s.future p)
    (hcounter : s'.counter p = s.counter p) : s'.finished t p = s.finished t p := by
  unfold State.finished
  rw [hfuture, hcounter]

/-- How often the event of an awaitable has been executed. -/
def State.delivered (s : State α) : Path → Nat
  | [] => s.executed.length
  | i :: p => (s.counted p).count (some i)

/-- Who counts down a `wait_for` with `n` waiters. -/
def parties (n : Nat) : List Party := none :: (List.range n).map some

theorem parties_nodup (n : Nat) : (parties n).Nodup := by
  refine List.nodup_cons.mpr ⟨by simp, ?_⟩
  exact List.nodup_range.map fun _ _ h => Option.some.inj h

theorem mem_parties {n i : Nat} : some i ∈ parties n ↔ i < n := by
  simp [parties]

/-- What a call on a stack refers to. -/
def Frame.Valid (t : Tree) : Frame → Prop
  | .starting p => ∃ waiters, t.sub p = some (.waitFor waiters)
  | .executeEvent p => t.sub p ≠ none

/-- The invariant, with `frames` on the stacks. -/
structure Inv [Inhabited α] (t : Tree) (s : State α) (frames : List Frame) : Prop where
  valid : ∀ f ∈ frames, f.Valid t
  countdown : ∀ p waiters, t.sub p = some (.waitFor waiters) →
    Countdown (parties waiters.length) (s.counted p) (s.counter p)
  /-- A `wait_for` is being started until it has counted down itself. -/
  starting : ∀ p waiters, t.sub p = some (.waitFor waiters) →
    (.starting p ∈ frames ↔ s.started p = true ∧ none ∉ s.counted p)
  single : ∀ p, frames.count (.starting p) ≤ 1
  later : ∀ p waiters, t.sub p = some (.waitFor waiters) → s.started p = false →
    s.index p = 0 ∧ s.counted p = []
  index : ∀ p waiters, t.sub p = some (.waitFor waiters) →
    s.index p ≤ waiters.length ∧ (none ∈ s.counted p → s.index p = waiters.length)
  idle : ∀ p isVoid, t.sub p = some (.future isVoid) →
    (s.future p = .idle ↔ s.started p = false)
  future : ∀ p, s.future p ≠ .idle → ∃ isVoid, t.sub p = some (.future isVoid)
  /-- The event of an awaitable is executed once. -/
  event : ∀ p, t.sub p ≠ none →
    frames.count (.executeEvent p) + s.delivered p = (s.finished t p).toNat
  executed : ∀ r ∈ s.executed, r = t.result (fun p => (s.future p).data) []

variable [Inhabited α] {t : Tree} {s s' : State α} {frames frames' : List Frame}

theorem Inv.perm (h : Inv t s frames) (hperm : frames.Perm frames') : Inv t s frames' := by
  refine { h with
    valid := fun f hf => h.valid f (hperm.mem_iff.mpr hf)
    starting := fun p waiters hp => ?_
    single := fun p => ?_
    event := fun p hp => ?_ }
  · rw [← hperm.mem_iff]
    exact h.starting p waiters hp
  · rw [← hperm.count_eq]
    exact h.single p
  · rw [← hperm.count_eq]
    exact h.event p hp

/-- The invariant does not look at the stacks themselves. -/
theorem Inv.setThreads (h : Inv t s frames) (threads : List (List Frame)) :
    Inv t { s with threads := threads } frames :=
  { h with }

/-- The waiters of a `wait_for` that has finished have finished. -/
theorem Inv.finished_waiter (h : Inv t s frames) {p : Path} {i : Nat}
    (hi : t.sub (i :: p) ≠ none) (hp : s.finished t p = true) : s.finished t (i :: p) = true := by
  obtain ⟨u, hu⟩ := Option.ne_none_iff_exists'.mp hi
  obtain ⟨waiters, hsub, hget⟩ := sub_cons hu
  rw [finished_waitFor hsub, decide_eq_true_eq] at hp
  have hlt := (sub_cons_lt hsub).mp hi
  have hmem := (h.countdown p waiters hsub).eq_zero_iff.mp hp (some i) (mem_parties.mpr hlt)
  have hcount : 0 < s.delivered (i :: p) := List.count_pos_iff.mpr hmem
  have hevent := h.event (i :: p) hi
  by_contra hnot
  rw [Bool.not_eq_true] at hnot
  rw [hnot, Bool.toNat_false] at hevent
  omega

/-- When the root has finished, everything has. -/
theorem Inv.finished_all (h : Inv t s frames) (hroot : s.finished t [] = true) (p : Path)
    (hp : t.sub p ≠ none) : s.finished t p = true := by
  induction p with
  | nil => exact hroot
  | cons i p ih =>
      refine h.finished_waiter hp (ih ?_)
      intro hnone
      exact hp (by simp [Tree.sub, hnone])

theorem Inv.once (h : Inv t s frames) : s.executed.length ≤ 1 := by
  have hevent := h.event [] (by simp [Tree.sub])
  have hle := Bool.toNat_le (s.finished t [])
  simp only [State.delivered] at hevent
  omega

theorem Inv.executed_finished (h : Inv t s frames) (hne : s.executed ≠ []) :
    s.finished t [] = true := by
  have hevent := h.event [] (by simp [Tree.sub])
  have hpos : 0 < s.delivered [] := List.length_pos_iff.mpr hne
  by_contra hnot
  rw [Bool.not_eq_true] at hnot
  rw [hnot, Bool.toNat_false] at hevent
  omega

/-! ## Starting -/

/-- What is known when a `wait_for` is being started. -/
theorem Inv.of_starting (h : Inv t s frames) {p : Path} (hp : .starting p ∈ frames) :
    ∃ waiters, t.sub p = some (.waitFor waiters) ∧ s.started p = true ∧ none ∉ s.counted p := by
  obtain ⟨waiters, hsub⟩ := h.valid _ hp
  exact ⟨waiters, hsub, (h.starting p waiters hsub).mp hp⟩

/-- The next waiter of `p` is started, which leaves the coroutines at `future`. -/
def State.next (s : State α) (p : Path) (future : Path → Future α) : State α :=
  { s with index := Function.update s.index p (s.index p + 1), future := future }

omit [Inhabited α] in
theorem started_next (s : State α) (p : Path) (future : Path → Future α) (q : Path) :
    (s.next p future).started q = (s.started q || decide (q = s.index p :: p)) := by
  cases q with
  | nil => simp [State.started]
  | cons j q =>
      by_cases hq : q = p
      · subst hq
        simp only [State.started, State.next, Function.update_self, List.cons.injEq, and_true]
        rw [← Bool.decide_or]
        exact decide_eq_decide.mpr Nat.lt_succ_iff_lt_or_eq
      · simp [State.started, State.next, hq]

theorem Inv.started_of_finished (h : Inv t s frames) {p : Path}
    (hp : s.finished t p = true) : s.started p = true := by
  by_contra hnot
  rw [Bool.not_eq_true] at hnot
  cases hsub : t.sub p with
  | none => simp [State.finished, hsub] at hp
  | some u =>
      cases u with
      | future isVoid =>
          rw [finished_future hsub, (h.idle p isVoid hsub).mpr hnot] at hp
          cases hp
      | waitFor waiters =>
          rw [finished_waitFor hsub, decide_eq_true_eq] at hp
          have hall := (h.countdown p waiters hsub).eq_zero_iff.mp hp none (List.mem_cons_self ..)
          rw [(h.later p waiters hsub hnot).2] at hall
          cases hall

/-- What all ways to start a waiter have in common: `l` are the calls on top of the starter. -/
theorem Inv.next (h : Inv t s frames) {p : Path} (hp : .starting p ∈ frames)
    (hsub : t.sub (s.index p :: p) ≠ none) (future : Path → Future α) (l : List Frame)
    (hvalid : ∀ f ∈ l, f.Valid t)
    (hstarting : ∀ q waiters, t.sub q = some (.waitFor waiters) →
      (.starting q ∈ l ↔ q = s.index p :: p))
    (hsingle : ∀ q, l.count (.starting q) ≤ 1)
    (hnew : ∀ q, .starting q ∈ l → q = s.index p :: p)
    (hother : ∀ q, q ≠ s.index p :: p → future q = s.future q)
    (hself : future (s.index p :: p) ≠ .idle ↔
      ∃ isVoid, t.sub (s.index p :: p) = some (.future isVoid))
    (hevent : ∀ q, l.count (.executeEvent q)
      = (decide (q = s.index p :: p) && (future q).isComplete).toNat) :
    Inv t (s.next p future) (l ++ frames) := by
  obtain ⟨waiters, hwaiters, hstarted, hnone⟩ := h.of_starting hp
  have hlt := (sub_cons_lt hwaiters).mp hsub
  have hfirst : s.started (s.index p :: p) = false := by simp [State.started]
  have hunfinished : s.finished t (s.index p :: p) = false := by
    by_contra hnot
    rw [Bool.not_eq_false] at hnot
    rw [h.started_of_finished hnot] at hfirst
    cases hfirst
  have hexecuted : s.executed = [] := by
    by_contra hne
    rw [h.finished_all (h.executed_finished hne) _ hsub] at hunfinished
    cases hunfinished
  have hstart := started_next s p future
  refine ⟨fun f hf => ?_, h.countdown, fun q ws hq => ?_, fun q => ?_, fun q ws hq hs => ?_,
    fun q ws hq => ?_, fun q v hq => ?_, fun q hq => ?_, fun q hq => ?_, fun r hr => ?_⟩
  · rcases List.mem_append.mp hf with hf | hf
    · exact hvalid f hf
    · exact h.valid f hf
  · -- the new waiter is being started if it is a `wait_for`
    rw [List.mem_append, h.starting q ws hq, hstarting q ws hq, hstart]
    show _ ↔ _ ∧ none ∉ s.counted q
    by_cases hqc : q = s.index p :: p
    · rw [hqc] at hq ⊢
      rw [(h.later _ ws hq hfirst).2, hfirst]
      simp
    · simp [hqc]
  · -- it was not being started before
    rw [List.count_append]
    by_cases hqc : q = s.index p :: p
    · have hzero : frames.count (.starting q) = 0 := by
        refine List.count_eq_zero.mpr fun hmem => ?_
        obtain ⟨-, -, hs, -⟩ := h.of_starting hmem
        rw [hqc, hfirst] at hs
        cases hs
      have := hsingle q
      omega
    · have hzero : l.count (.starting q) = 0 :=
        List.count_eq_zero.mpr fun hmem => hqc (hnew q hmem)
      have := h.single q
      omega
  · rw [hstart, Bool.or_eq_false_iff] at hs
    have hqp : q ≠ p := by
      rintro rfl
      rw [hs.1] at hstarted
      cases hstarted
    show Function.update s.index p _ q = 0 ∧ s.counted q = []
    rw [Function.update_of_ne hqp]
    exact h.later q ws hq hs.1
  · show Function.update s.index p _ q ≤ _ ∧
      (none ∈ s.counted q → Function.update s.index p _ q = _)
    by_cases hqp : q = p
    · subst hqp
      rw [Function.update_self]
      obtain rfl : ws = waiters := by simpa [hwaiters] using hq.symm
      exact ⟨hlt, fun hn => absurd hn hnone⟩
    · rw [Function.update_of_ne hqp]
      exact h.index q ws hq
  · rw [hstart]
    show future q = .idle ↔ _
    by_cases hqc : q = s.index p :: p
    · have hne := hself.mpr ⟨v, hqc ▸ hq⟩
      rw [hqc]
      simp [hne]
    · rw [hother q hqc, h.idle q v hq]
      simp [hqc]
  · show ∃ isVoid, t.sub q = some (.future isVoid)
    by_cases hqc : q = s.index p :: p
    · rw [hqc]
      exact hself.mp (hqc ▸ hq)
    · have hq' : future q ≠ .idle := hq
      rw [hother q hqc] at hq'
      exact h.future q hq'
  · -- its event is executed at once if it completes while it is started
    have hdelivered : (s.next p future).delivered q = s.delivered q := by
      cases q <;> rfl
    rw [List.count_append, hevent, hdelivered, add_assoc, h.event q hq]
    by_cases hqc : q = s.index p :: p
    · -- it has not finished before it is started
      rw [hqc, hunfinished]
      obtain ⟨u, hu⟩ := Option.ne_none_iff_exists'.mp hsub
      cases u with
      | future v =>
          rw [finished_future hu]
          simp [State.next]
      | waitFor ws =>
          have hidle : future (s.index p :: p) = .idle := by
            by_contra hne
            obtain ⟨v, hv⟩ := hself.mp hne
            rw [hu] at hv
            cases hv
          have hsame : (s.next p future).finished t (s.index p :: p) = false := by
            rw [finished_waitFor hu] at hunfinished ⊢
            exact hunfinished
          simp [hidle, hsame, Future.isComplete]
    · have hsame : (s.next p future).finished t q = s.finished t q :=
        finished_congr (hother q hqc) rfl
      simp [hqc, hsame]
  · -- nothing is executed while a waiter is not started
    have hr' : r ∈ s.executed := hr
    rw [hexecuted] at hr'
    cases hr'

/-! ## Counting down -/

/-- The call in which a party counts down the `wait_for` at `p`. -/
def Party.frame (p : Path) : Party → Frame
  | none => .starting p
  | some i => .executeEvent (i :: p)

/-- `x` has counted down the `wait_for` at `p`. -/
def State.count (s : State α) (p : Path) (x : Party) : State α :=
  { s with
    counter := Function.update s.counter p (s.counter p - 1)
    counted := Function.update s.counted p (s.counted p ++ [x]) }

omit [Inhabited α] in
theorem delivered_count (s : State α) (p : Path) (x : Party) (q : Path) :
    (s.count p x).delivered q = s.delivered q + [x.frame p].count (.executeEvent q) := by
  cases q with
  | nil => cases x <;> simp [State.delivered, State.count, Party.frame]
  | cons j q =>
      show (Function.update s.counted p (s.counted p ++ [x]) q).count (some j) = _
      by_cases hq : q = p
      · subst hq
        rw [Function.update_self, List.count_append]
        cases x with
        | none => simp [State.delivered, Party.frame]
        | some i => simp [State.delivered, Party.frame, List.count_singleton]
      · rw [Function.update_of_ne hq]
        cases x with
        | none => simp [State.delivered, Party.frame]
        | some i => simp [State.delivered, Party.frame, Ne.symm hq]

/-- A party counts down, and executes the event of the `wait_for` if it was the last one. -/
theorem Inv.count {p : Path} {x : Party} (h : Inv t s (x.frame p :: frames))
    {waiters : List Tree} (hsub : t.sub p = some (.waitFor waiters))
    (hx : x ∈ parties waiters.length) (hnew : x ∉ s.counted p) (hstarted : s.started p = true)
    (hindex : x = none → s.index p = waiters.length) :
    Inv t (s.count p x) ((if s.counter p = 1 then [.executeEvent p] else []) ++ frames) := by
  have hcountdown := h.countdown p waiters hsub
  have hpos := hcountdown.pos hx hnew
  have hself : (s.count p x).counted p = s.counted p ++ [x] := Function.update_self ..
  have hother : ∀ q, q ≠ p → (s.count p x).counted q = s.counted q :=
    fun q hq => Function.update_of_ne hq ..
  have hcounter : ∀ q, q ≠ p → (s.count p x).counter q = s.counter q :=
    fun q hq => Function.update_of_ne hq ..
  obtain ⟨l, hl⟩ : ∃ l, l = if s.counter p = 1 then [Frame.executeEvent p] else [] := ⟨_, rfl⟩
  have hlist : ∀ f ∈ l, f = .executeEvent p := by
    intro f hf
    rw [hl] at hf
    split_ifs at hf
    · exact List.mem_singleton.mp hf
    · cases hf
  have hstart : ∀ q, .starting q ∉ l := by
    intro q hq
    have := hlist _ hq
    cases this
  rw [← hl]
  refine ⟨fun f hf => ?_, fun q ws hq => ?_, fun q ws hq => ?_, fun q => ?_, fun q ws hq hs => ?_,
    fun q ws hq => ?_, h.idle, h.future, fun q hq => ?_, h.executed⟩
  · rcases List.mem_append.mp hf with hf | hf
    · rw [hlist f hf]
      show t.sub p ≠ none
      rw [hsub]
      simp
    · exact h.valid f (List.mem_cons_of_mem _ hf)
  · by_cases hqp : q = p
    · subst hqp
      obtain rfl : ws = waiters := by simpa [hsub] using hq.symm
      rw [hself]
      show Countdown _ _ (Function.update s.counter q _ q)
      rw [Function.update_self]
      exact hcountdown.arrive hx hnew
    · rw [hother q hqp, hcounter q hqp]
      exact h.countdown q ws hq
  · have hold := h.starting q ws hq
    rw [List.mem_append, or_iff_right (hstart q)]
    show _ ↔ s.started q = true ∧ _
    by_cases hqp : q = p
    · subst hqp
      rw [hself]
      cases x with
      | none =>
          -- the call of the starter was the only one
          have hgone : .starting q ∉ frames := by
            intro hmem
            have hcount := h.single q
            rw [show Party.frame q none = .starting q from rfl, List.count_cons_self] at hcount
            have := List.count_pos_iff.mpr hmem
            omega
          simp [hgone]
      | some i =>
          rw [List.mem_cons, or_iff_right (by simp [Party.frame])] at hold
          rw [hold]
          simp
    · have hne : Frame.starting q ≠ x.frame p := by
        cases x with
        | none => simpa [Party.frame] using hqp
        | some i => simp [Party.frame]
      rw [List.mem_cons, or_iff_right hne] at hold
      rw [hold, hother q hqp]
  · rw [List.count_append, List.count_eq_zero.mpr (hstart q), Nat.zero_add]
    exact (List.count_le_count_cons ..).trans (h.single q)
  · have hqp : q ≠ p := by
      rintro rfl
      have hs' : s.started q = false := hs
      rw [hstarted] at hs'
      cases hs'
    rw [hother q hqp]
    exact h.later q ws hq hs
  · by_cases hqp : q = p
    · subst hqp
      obtain rfl : ws = waiters := by simpa [hsub] using hq.symm
      rw [hself]
      refine ⟨(h.index q ws hq).1, fun hn => ?_⟩
      rcases List.mem_append.mp hn with hn | hn
      · exact (h.index q ws hq).2 hn
      · exact hindex (List.mem_singleton.mp hn).symm
    · rw [hother q hqp]
      exact h.index q ws hq
  · -- a call of an event moves from the stacks to the log, and the last one starts the next
    have hevent := h.event q hq
    rw [List.count_cons] at hevent
    rw [List.count_append, delivered_count, List.count_singleton]
    by_cases hqp : q = p
    · subst hqp
      have hbefore : s.finished t q = false := by
        rw [finished_waitFor hsub, decide_eq_false_iff_not]
        omega
      have hafter : (s.count q x).finished t q = decide (s.counter q = 1) := by
        rw [finished_waitFor hsub]
        show decide (Function.update s.counter q (s.counter q - 1) q = 0) = _
        rw [Function.update_self, decide_eq_decide]
        omega
      have hlcount : l.count (.executeEvent q) = (decide (s.counter q = 1)).toNat := by
        rw [hl]
        split_ifs with hone <;> simp [hone]
      rw [hbefore, Bool.toNat_false] at hevent
      rw [hafter, hlcount]
      omega
    · have hsame : (s.count p x).finished t q = s.finished t q :=
        finished_congr rfl (hcounter q hqp)
      have hlcount : l.count (.executeEvent q) = 0 := by
        refine List.count_eq_zero.mpr fun hmem => ?_
        have := hlist _ hmem
        exact hqp (by simpa using this)
      rw [hsame, hlcount]
      omega

/-- A waiter calls back. -/
theorem Inv.callback {p : Path} {i : Nat}
    (h : Inv t s (.executeEvent (i :: p) :: frames)) :
    Inv t (s.count p (some i))
      ((if s.counter p = 1 then [.executeEvent p] else []) ++ frames) := by
  have hvalid : t.sub (i :: p) ≠ none := h.valid _ (List.mem_cons_self ..)
  obtain ⟨u, hu⟩ := Option.ne_none_iff_exists'.mp hvalid
  obtain ⟨waiters, hsub, hget⟩ := sub_cons hu
  have hevent := h.event (i :: p) hvalid
  rw [List.count_cons_self] at hevent
  -- the event is being executed, so it was not executed before
  have hfinished : s.finished t (i :: p) = true := by
    by_contra hnot
    rw [Bool.not_eq_true] at hnot
    rw [hnot, Bool.toNat_false] at hevent
    omega
  rw [hfinished, Bool.toNat_true] at hevent
  have hnew : some i ∉ s.counted p := by
    refine List.count_eq_zero.mp ?_
    show s.delivered (i :: p) = 0
    omega
  have hstarted : s.started p = true := by
    by_contra hnot
    rw [Bool.not_eq_true] at hnot
    have hi := h.started_of_finished hfinished
    simp [State.started, (h.later p waiters hsub hnot).1] at hi
  have hparty := mem_parties.mpr ((sub_cons_lt hsub).mp hvalid)
  refine h.count (x := some i) hsub hparty hnew hstarted fun hx => ?_
  cases hx

/-- The starter is done with its loop. -/
theorem Inv.arrive {p : Path} (h : Inv t s (.starting p :: frames))
    (hlast : t.sub (s.index p :: p) = none) :
    Inv t (s.count p none)
      ((if s.counter p = 1 then [.executeEvent p] else []) ++ frames) := by
  obtain ⟨waiters, hsub, hstarted, hnone⟩ := h.of_starting (List.mem_cons_self ..)
  refine h.count (x := none) hsub (List.mem_cons_self ..) hnone hstarted fun _ => ?_
  have hle := (h.index p waiters hsub).1
  have hge : ¬ s.index p < waiters.length := fun hlt => (sub_cons_lt hsub).mpr hlt hlast
  omega

/-- The continuation is executed. -/
theorem Inv.resume (h : Inv t s (.executeEvent [] :: frames)) :
    Inv t { s with executed := s.executed ++ [t.result (fun p => (s.future p).data) []] }
      frames := by
  refine ⟨fun f hf => h.valid f (List.mem_cons_of_mem _ hf), h.countdown, fun q ws hq => ?_,
    fun q => ?_, h.later, h.index, h.idle, h.future, fun q hq => ?_, fun r hr => ?_⟩
  · have := h.starting q ws hq
    rwa [List.mem_cons, or_iff_right (by simp)] at this
  · exact (List.count_le_count_cons ..).trans (h.single q)
  · have hevent := h.event q hq
    cases q with
    | nil =>
        rw [List.count_cons_self] at hevent
        show _ + (s.executed ++ [_]).length = (s.finished t []).toNat
        rw [← hevent, List.length_append]
        simp only [State.delivered, List.length_singleton]
        omega
    | cons j q =>
        rw [List.count_cons_of_ne (by simp)] at hevent
        exact hevent
  · rcases List.mem_append.mp hr with hr | hr
    · exact h.executed r hr
    · exact List.mem_singleton.mp hr

/-- A coroutine that was suspended completes. -/
theorem Inv.complete (h : Inv t s frames) {p : Path} (hp : s.future p = .running) (a : α) :
    Inv t { s with future := Function.update s.future p (.complete a) }
      (.executeEvent p :: frames) := by
  obtain ⟨v, hsub⟩ := h.future p (by simp [hp])
  have hunfinished : s.finished t p = false := by
    rw [finished_future hsub, hp]
    rfl
  have hexecuted : s.executed = [] := by
    by_contra hne
    rw [h.finished_all (h.executed_finished hne) p (by simp [hsub])] at hunfinished
    cases hunfinished
  refine ⟨fun f hf => ?_, h.countdown, fun q ws hq => ?_, fun q => ?_, h.later, h.index,
    fun q w hq => ?_, fun q hq => ?_, fun q hq => ?_, fun r hr => ?_⟩
  · rcases List.mem_cons.mp hf with rfl | hf
    · show t.sub p ≠ none
      simp [hsub]
    · exact h.valid f hf
  · rw [List.mem_cons, or_iff_right (by simp)]
    exact h.starting q ws hq
  · rw [List.count_cons_of_ne (by simp)]
    exact h.single q
  · show Function.update s.future p _ q = .idle ↔ s.started q = false
    rw [← h.idle q w hq]
    by_cases hqp : q = p
    · rw [hqp, Function.update_self, hp]
      simp
    · rw [Function.update_of_ne hqp]
  · by_cases hqp : q = p
    · rw [hqp]
      exact ⟨v, hsub⟩
    · have hq' : Function.update s.future p _ q ≠ .idle := hq
      rw [Function.update_of_ne hqp] at hq'
      exact h.future q hq'
  · -- its event was not executed before, and is now
    have hevent := h.event q hq
    show _ + s.delivered q = _
    by_cases hqp : q = p
    · subst hqp
      rw [hunfinished, Bool.toNat_false] at hevent
      rw [List.count_cons_self, finished_future hsub]
      simp only [Function.update_self, Future.isComplete, Bool.toNat_true]
      omega
    · have hsame : ({ s with future := Function.update s.future p (.complete a) } :
          State α).finished t q = s.finished t q :=
        finished_congr (Function.update_of_ne hqp ..) rfl
      rw [List.count_cons_of_ne (by simpa using Ne.symm hqp), hsame]
      exact hevent
  · have hr' : r ∈ s.executed := hr
    rw [hexecuted] at hr'
    cases hr'

/-! ## All runs -/

/-- A thread replaces the calls on top of its stack. -/
theorem Inv.onThread {l below rest : List Frame} {k : Nat} (h : Inv t s (l ++ (below ++ rest)))
    {threads : List (List Frame)}
    (hperm : ∀ l, (threads.set k l).flatten.Perm (l ++ rest)) :
    Inv t { s with threads := threads.set k (l ++ below) }
      (threads.set k (l ++ below)).flatten := by
  refine (h.setThreads _).perm ?_
  rw [← List.append_assoc]
  exact (hperm _).symm

theorem Inv.inlineCoAwait {p : Path} {u : Tree} {below rest : List Frame} {k : Nat}
    (h : Inv t s (.starting p :: below ++ rest)) (hu : t.sub (s.index p :: p) = some u)
    (sync : Option α) (hperm : ∀ l, (s.threads.set k l).flatten.Perm (l ++ rest)) :
    Inv t (s.inlineCoAwait k p (s.index p) u sync below)
      (s.inlineCoAwait k p (s.index p) u sync below).threads.flatten := by
  have hmem : Frame.starting p ∈ .starting p :: below ++ rest := by simp
  have hsub : t.sub (s.index p :: p) ≠ none := by simp [hu]
  cases u with
  | waitFor ws =>
      -- the waiter is a `wait_for` itself: its loop runs first, then this one goes on
      have hself : s.future (s.index p :: p) ≠ .idle ↔
          ∃ isVoid, t.sub (s.index p :: p) = some (.future isVoid) := by
        constructor
        · exact h.future _
        · rintro ⟨v, hv⟩
          rw [hu] at hv
          cases hv
      have hidle : s.future (s.index p :: p) = .idle := by
        by_contra hne
        obtain ⟨v, hv⟩ := h.future _ hne
        rw [hu] at hv
        cases hv
      have hnext := h.next hmem hsub s.future [.starting (s.index p :: p)]
        (by simpa [Frame.Valid] using ⟨ws, hu⟩) (by simp) (fun q => List.count_le_length ..)
        (by simp) (fun _ _ => rfl) hself (fun q => ?_)
      · exact hnext.onThread (l := [_, _]) hperm
      · by_cases hq : q = s.index p :: p
        · rw [hq, hidle]
          simp [Future.isComplete]
        · simp [hq]
  | future v =>
      have hstarting : ∀ q waiters, t.sub q = some (.waitFor waiters) → q ≠ s.index p :: p := by
        rintro q waiters hq rfl
        rw [hu] at hq
        cases hq
      have hother : ∀ (f : Future α) (q : Path), q ≠ s.index p :: p →
          Function.update s.future (s.index p :: p) f q = s.future q :=
        fun f q hq => Function.update_of_ne hq ..
      cases sync with
      | none =>
          -- the future is left running, and the loop goes on
          have hnext := h.next hmem hsub (Function.update s.future (s.index p :: p) .running) []
            (by simp) (fun q ws hq => by simpa using hstarting q ws hq) (by simp) (by simp)
            (hother _) (by simp [hu]) (fun q => ?_)
          · exact hnext.onThread (l := [_]) hperm
          · by_cases hq : q = s.index p :: p
            · rw [hq, Function.update_self]
              simp [Future.isComplete]
            · simp [hq]
      | some a =>
          -- the future is complete at once: its event runs first
          have hnext := h.next hmem hsub
            (Function.update s.future (s.index p :: p) (.complete a))
            [.executeEvent (s.index p :: p)] (by simpa [Frame.Valid] using hsub)
            (fun q ws hq => by simpa using hstarting q ws hq) (by simp) (by simp) (hother _)
            (by simp [hu]) (fun q => ?_)
          · exact hnext.onThread (l := [_, _]) hperm
          · by_cases hq : q = s.index p :: p
            · rw [hq, Function.update_self]
              simp [Future.isComplete]
            · simp [hq, Ne.symm hq]

theorem Inv.fetchSub {p : Path} {x : Party} {below rest : List Frame} {k : Nat}
    (h : Inv t (s.count p x)
      ((if s.counter p = 1 then [.executeEvent p] else []) ++ (below ++ rest)))
    (hperm : ∀ l, (s.threads.set k l).flatten.Perm (l ++ rest)) :
    Inv t (s.fetchSub k p x below) (s.fetchSub k p x below).threads.flatten := by
  have := h.onThread hperm
  have hif : (if s.counter p = 1 then Frame.executeEvent p :: below else below)
      = (if s.counter p = 1 then [.executeEvent p] else []) ++ below := by
    split_ifs <;> rfl
  unfold State.fetchSub State.goto
  simp only [hif]
  exact this

theorem Inv.step (h : Inv t s s.threads.flatten) {a : Action α} (hs : step t s a = some s') :
    Inv t s' s'.threads.flatten := by
  cases a with
  | run k sync =>
      simp only [WaitFor.step] at hs
      split at hs
      case h_1 p below hk =>
        obtain ⟨rest, hall, hperm⟩ := flatten_set hk
        have h := h.perm hall
        split at hs
        · rename_i u hu
          obtain rfl := Option.some.inj hs
          exact h.inlineCoAwait hu sync hperm
        · rename_i hnone
          obtain rfl := Option.some.inj hs
          exact (h.arrive hnone).fetchSub hperm
      case h_2 i p below hk =>
        obtain ⟨rest, hall, hperm⟩ := flatten_set hk
        obtain rfl := Option.some.inj hs
        exact (h.perm hall).callback.fetchSub hperm
      case h_3 below hk =>
        obtain ⟨rest, hall, hperm⟩ := flatten_set hk
        obtain rfl := Option.some.inj hs
        exact (h.perm hall).resume.onThread (l := []) hperm
      case h_4 => cases hs
  | complete p a =>
      simp only [WaitFor.step] at hs
      split at hs
      case h_1 hp =>
        obtain rfl := Option.some.inj hs
        refine ((h.complete hp a).setThreads _).perm ?_
        rw [List.flatten_append]
        exact (List.perm_append_singleton _ _).symm
      case h_2 => cases hs

omit [Inhabited α] in
theorem size_eq {p : Path} {u : Tree} (hp : t.sub p = some u) : t.size p = u.waiters.length := by
  simp [Tree.size, hp]

theorem inv_init (waiters : List Tree) :
    Inv (.waitFor waiters) (init (.waitFor waiters) : State α) [.starting []] := by
  have hstarted : ∀ p, (init (.waitFor waiters) : State α).started p = decide (p = []) := by
    intro p
    cases p with
    | nil => rfl
    | cons i p => simp [State.started, init]
  refine ⟨fun f hf => ?_, fun p ws hp => ?_, fun p ws hp => ?_, fun p => List.count_le_length ..,
    fun p ws hp hs => ⟨rfl, rfl⟩, fun p ws hp => ⟨Nat.zero_le _, by simp [init]⟩,
    fun p v hp => ?_, fun p hp => absurd rfl hp, fun p hp => ?_, by simp [init]⟩
  · rw [List.mem_singleton.mp hf]
    exact ⟨waiters, rfl⟩
  · have hcount : (init (.waitFor waiters) : State α).counter p = (parties ws.length).length := by
      simp [init, size_eq hp, Tree.waiters, parties]
    rw [hcount]
    exact Countdown.start (parties_nodup _)
  · rw [hstarted]
    simp [init]
  · rw [hstarted]
    simp only [init, true_iff, decide_eq_false_iff_not]
    rintro rfl
    cases hp
  · have hunfinished :
        (init (.waitFor waiters) : State α).finished (.waitFor waiters) p = false := by
      obtain ⟨u, hu⟩ := Option.ne_none_iff_exists'.mp hp
      cases u with
      | future v => rw [finished_future hu]; rfl
      | waitFor ws =>
          rw [finished_waitFor hu, decide_eq_false_iff_not]
          simp only [init]
          omega
    rw [hunfinished]
    cases p <;> simp [State.delivered, init]

theorem Reachable.inv {waiters : List Tree} (h : Reachable (.waitFor waiters) s) :
    Inv (.waitFor waiters) s s.threads.flatten := by
  refine Reaches.invariant (I := fun s => Inv (.waitFor waiters) s s.threads.flatten) h ?_
    fun s a s' _ hi _ hs => hi.step hs
  rintro s rfl
  exact inv_init waiters

/-! ## Progress -/

theorem Inv.started_all (h : Inv t s []) (p : Path) (hp : t.sub p ≠ none) :
    s.started p = true := by
  induction p with
  | nil => rfl
  | cons i p ih =>
      obtain ⟨u, hu⟩ := Option.ne_none_iff_exists'.mp hp
      obtain ⟨waiters, hsub, -⟩ := sub_cons hu
      have hstarted := ih (by simp [hsub])
      -- the starter is done, so it has started all waiters
      have hnone : none ∈ s.counted p := by
        by_contra hnot
        have := (h.starting p waiters hsub).mpr ⟨hstarted, hnot⟩
        cases this
      have hindex := (h.index p waiters hsub).2 hnone
      have hlt := (sub_cons_lt hsub).mp hp
      simp only [State.started, decide_eq_true_eq]
      omega

/-- A starter that is done has counted down. -/
theorem Inv.arrived (h : Inv t s []) {p : Path} {waiters : List Tree}
    (hp : t.sub p = some (.waitFor waiters)) : none ∈ s.counted p := by
  by_contra hnot
  have := (h.starting p waiters hp).mpr ⟨h.started_all p (by simp [hp]), hnot⟩
  cases this

end

end Zab.WaitFor
