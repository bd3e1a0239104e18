import Zab.Basic.Automaton

set_option autoImplicit false

/-! # `recursive_spin_lock`

The lock is an atomic word `thread_`, `0` or the id of its owner, and a plain counter `count_`
that only the owner may touch. `lock` and `try_lock` read `thread_` first: a thread that finds its
own id counts up and is done, every other one has to exchange `0` for its id. `unlock` counts down
and stores `0` when it reaches zero.

Threads are named by the ids that `get_id` gives them, which start at 1. Every load,
compare-and-swap and store of `thread_` is one step, and so is every access to `count_`; `unlock`
reads it once more after it has counted down. The counter is a natural number: a wrap of
`std::size_t` takes `2 ^ 64` nested acquisitions.

`held` counts the acquisitions of a thread that have returned and have not been matched by an
`unlock` that has returned. It is the guard of `unlock`, which a thread calls for what it has
locked only, and is read by no other branch; `returned` is read by none.
-/

namespace Zab.RecursiveSpinLock

open Automaton

structure ThreadId where
  val : Nat
  ne_zero : val ≠ 0
  deriving DecidableEq

/-- `get_id()` of the thread that has called it after `n` others: their counter starts at 1. -/
def getId (n : Nat) : ThreadId := ⟨n + 1, Nat.succ_ne_zero n⟩

@[simp] theorem ThreadId.val_inj {t u : ThreadId} : t.val = u.val ↔ t = u := by
  cases t
  cases u
  simp

/-- Where a thread is in its call. -/
inductive Pc where
  | idle
  /-- `lock`, before its load. -/
  | lockLoad
  /-- `lock`, before its compare-and-swap. -/
  | lockCas
  /-- `lock`, before the load of its inner loop. -/
  | lockSpin
  /-- `try_lock`, before its load. -/
  | tryLoad
  /-- `try_lock`, before its compare-and-swap. -/
  | tryCas
  /-- Before `++count_`, in `try_lock` if `tried` and in `lock` otherwise. -/
  | add (tried : Bool)
  /-- `unlock`, before `--count_`. -/
  | sub
  /-- `unlock`, before it reads `count_`. -/
  | test
  /-- `unlock`, before its store. -/
  | store
  deriving DecidableEq

/-- A call that has returned. -/
inductive Return where
  | lock (t : ThreadId)
  | tryLock (t : ThreadId) (result : Bool)
  | unlock (t : ThreadId)
  deriving DecidableEq

structure State where
  thread : Nat
  count : Nat
  pc : ThreadId → Pc
  held : ThreadId → Nat
  returned : List Return

def init : State where
  thread := 0
  count := 0
  pc := fun _ => .idle
  held := fun _ => 0
  returned := []

/-- `t` continues at `q`. -/
def State.goto (s : State) (t : ThreadId) (q : Pc) : State :=
  { s with pc := Function.update s.pc t q }

/-- The call of `t` is over. -/
def State.finish (s : State) (t : ThreadId) (r : Return) : State :=
  { s.goto t .idle with returned := s.returned ++ [r] }

/-- The `unlock` of `t` is over. -/
def State.unlocked (s : State) (t : ThreadId) : State :=
  { s.finish t (.unlock t) with held := Function.update s.held t (s.held t - 1) }

/-- The next step of the call that `t` is in. -/
def State.advance (s : State) (t : ThreadId) : Option State :=
  match s.pc t with
  | .idle => none
  | .lockLoad => if s.thread = t.val then some (s.goto t (.add false)) else some (s.goto t .lockCas)
  | .lockCas =>
      if s.thread = 0 then some { s.goto t (.add false) with thread := t.val }
      else some (s.goto t .lockSpin)
  | .lockSpin => if s.thread ≠ 0 then some (s.goto t .lockSpin) else some (s.goto t .lockCas)
  | .tryLoad =>
      if s.thread = 0 then some (s.goto t .tryCas)
      else if s.thread = t.val then some (s.goto t (.add true))
      else some (s.finish t (.tryLock t false))
  | .tryCas =>
      if s.thread = 0 then some { s.goto t (.add true) with thread := t.val }
      else some (s.finish t (.tryLock t false))
  | .add tried =>
      some { s.finish t (if tried then .tryLock t true else .lock t) with
        count := s.count + 1
        held := Function.update s.held t (s.held t + 1) }
  | .sub => some { s.goto t .test with count := s.count - 1 }
  | .test => if s.count = 0 then some (s.goto t .store) else some (s.unlocked t)
  | .store => some { s.unlocked t with thread := 0 }

inductive Action where
  | lock
  | tryLock
  | unlock
  /-- Take the next step of the call in progress. -/
  | advance
  deriving DecidableEq

def step (s : State) : ThreadId × Action → Option State
  | (t, .lock) => if s.pc t = .idle then some (s.goto t .lockLoad) else none
  | (t, .tryLock) => if s.pc t = .idle then some (s.goto t .tryLoad) else none
  | (t, .unlock) => if s.pc t = .idle ∧ 0 < s.held t then some (s.goto t .sub) else none
  | (t, .advance) => s.advance t

/-- The states of all interleavings in which a thread only unlocks what it has locked. -/
def Reachable : State → Prop := Reaches step anyStep (· = init)

/-- `t` has locked and not unlocked, or its `lock` or `try_lock` has only the count left to do. -/
def State.inside (s : State) (t : ThreadId) : Prop :=
  0 < s.held t ∨ ∃ tried, s.pc t = .add tried

/-- **The lock excludes other threads until it is fully unlocked.** -/
structure Excludes (s : State) : Prop where
  /-- At most one thread is inside. -/
  one : ∀ t u, s.inside t → s.inside u → t = u
  /-- While a thread has acquisitions left to unlock, `thread_` is its id. -/
  owner : ∀ t, 0 < s.held t → s.thread = t.val
  /-- And `count_` is their number, outside its own calls. -/
  count : ∀ t, 0 < s.held t → s.pc t = .idle → s.count = s.held t
  /-- Meanwhile no call of another thread returns, unless it is a `try_lock` that fails. -/
  others : ∀ t u a s', 0 < s.held t → u ≠ t → step s (u, a) = some s' →
    s'.returned = s.returned ∨ s'.returned = s.returned ++ [.tryLock u false]
  /-- And that one returns in its next step. -/
  tries : ∀ t u, 0 < s.held t → u ≠ t → s.pc u = .tryLoad ∨ s.pc u = .tryCas →
    ∃ s', step s (u, .advance) = some s' ∧ s'.returned = s.returned ++ [.tryLock u false]
  /-- `thread_` becomes `0` exactly in the step that ends the owner's last `unlock`. -/
  freed : ∀ a s', step s a = some s' →
    (s.thread ≠ 0 ∧ s'.thread = 0 ↔ ∃ t, s.thread = t.val ∧ s.held t = 1 ∧ s'.held t = 0)

/-! ## What a step can do -/

/-- What a step of `t` can do. -/
inductive Moves (s : State) (t : ThreadId) : State → Prop
  | lock (hpc : s.pc t = .idle) : Moves s t (s.goto t .lockLoad)
  | tryLock (hpc : s.pc t = .idle) : Moves s t (s.goto t .tryLoad)
  | unlock (hheld : 0 < s.held t) (hpc : s.pc t = .idle) : Moves s t (s.goto t .sub)
  | again (tried : Bool) (hown : s.thread = t.val)
      (hpc : s.pc t = if tried then .tryLoad else .lockLoad) : Moves s t (s.goto t (.add tried))
  | turnAway (hne : s.thread ≠ t.val) (hpc : s.pc t = .lockLoad) : Moves s t (s.goto t .lockCas)
  | spin (hne : s.thread ≠ 0) (hpc : s.pc t = .lockCas ∨ s.pc t = .lockSpin) :
      Moves s t (s.goto t .lockSpin)
  | retry (hfree : s.thread = 0) (hpc : s.pc t = .lockSpin) : Moves s t (s.goto t .lockCas)
  | tryFree (hfree : s.thread = 0) (hpc : s.pc t = .tryLoad) : Moves s t (s.goto t .tryCas)
  | acquire (tried : Bool) (hfree : s.thread = 0)
      (hpc : s.pc t = if tried then .tryCas else .lockCas) :
      Moves s t { s.goto t (.add tried) with thread := t.val }
  | fail (hne : s.thread ≠ 0) (hpc : s.pc t = .tryLoad ∧ s.thread ≠ t.val ∨ s.pc t = .tryCas) :
      Moves s t (s.finish t (.tryLock t false))
  | add (tried : Bool) (hpc : s.pc t = .add tried) :
      Moves s t
        { s.finish t (if tried then .tryLock t true else .lock t) with
          count := s.count + 1
          held := Function.update s.held t (s.held t + 1) }
  | sub (hpc : s.pc t = .sub) : Moves s t { s.goto t .test with count := s.count - 1 }
  | last (hzero : s.count = 0) (hpc : s.pc t = .test) : Moves s t (s.goto t .store)
  | keep (hpos : s.count ≠ 0) (hpc : s.pc t = .test) : Moves s t (s.unlocked t)
  | store (hpc : s.pc t = .store) : Moves s t { s.unlocked t with thread := 0 }

section

variable {s s' : State} {t u : ThreadId} {a : ThreadId × Action}

theorem moves_of_advance (hs : s.advance t = some s') : Moves s t s' := by
  cases hpc : s.pc t with
  | idle => simp [State.advance, hpc] at hs
  | lockLoad =>
      simp only [State.advance, hpc] at hs
      split at hs <;> obtain rfl := Option.some.inj hs
      · rename_i hown
        exact .again false hown hpc
      · rename_i hne
        exact .turnAway hne hpc
  | lockCas =>
      simp only [State.advance, hpc] at hs
      split at hs <;> obtain rfl := Option.some.inj hs
      · rename_i hfree
        exact .acquire false hfree hpc
      · rename_i hne
        exact .spin hne (Or.inl hpc)
  | lockSpin =>
      simp only [State.advance, hpc] at hs
      split at hs <;> obtain rfl := Option.some.inj hs
      · rename_i hne
        exact .spin hne (Or.inr hpc)
      · rename_i hfree
        exact .retry (not_not.mp hfree) hpc
  | tryLoad =>
      simp only [State.advance, hpc] at hs
      split at hs
      · rename_i hfree
        obtain rfl := Option.some.inj hs
        exact .tryFree hfree hpc
      · rename_i hne
        split at hs <;> obtain rfl := Option.some.inj hs
        · rename_i hown
          exact .again true hown hpc
        · rename_i hother
          exact .fail hne (Or.inl ⟨hpc, hother⟩)
  | tryCas =>
      simp only [State.advance, hpc] at hs
      split at hs <;> obtain rfl := Option.some.inj hs
      · rename_i hfree
        exact .acquire true hfree hpc
      · rename_i hne
        exact .fail hne (Or.inr hpc)
  | test =>
      simp only [State.advance, hpc] at hs
      split at hs <;> obtain rfl := Option.some.inj hs
      · rename_i hzero
        exact .last hzero hpc
      · rename_i hpos
        exact .keep hpos hpc
  | add tried =>
      simp only [State.advance, hpc] at hs
      obtain rfl := Option.some.inj hs
      exact .add tried hpc
  | sub =>
      simp only [State.advance, hpc] at hs
      obtain rfl := Option.some.inj hs
      exact .sub hpc
  | store =>
      simp only [State.advance, hpc] at hs
      obtain rfl := Option.some.inj hs
      exact .store hpc

theorem moves_of_step (hs : step s a = some s') : Moves s a.1 s' := by
  obtain ⟨t, a⟩ := a
  cases a with
  | lock =>
      simp only [step] at hs
      split at hs
      · rename_i hpc
        obtain rfl := Option.some.inj hs
        exact .lock hpc
      · cases hs
  | tryLock =>
      simp only [step] at hs
      split at hs
      · rename_i hpc
        obtain rfl := Option.some.inj hs
        exact .tryLock hpc
      · cases hs
  | unlock =>
      simp only [step] at hs
      split at hs
      · rename_i hguard
        obtain rfl := Option.some.inj hs
        exact .unlock hguard.2 hguard.1
      · cases hs
  | advance => exact moves_of_advance hs

/-! ## The invariant -/

/-- What the owner knows, by its place: between `--count_` and its return from `unlock`, the
counter is one behind. -/
def Owner (count held : Nat) : Pc → Prop
  | .idle | .lockLoad | .tryLoad | .sub => count = held ∧ 0 < held
  | .add _ => count = held
  | .test => count + 1 = held
  | .store => count = 0 ∧ held = 1
  | .lockCas | .lockSpin | .tryCas => False

/-- What every other thread knows. -/
def Outsider (held : Nat) : Pc → Prop
  | .idle | .lockLoad | .lockCas | .lockSpin | .tryLoad | .tryCas => held = 0
  | .add _ | .sub | .test | .store => False

structure Inv (s : State) : Prop where
  free : s.thread = 0 → s.count = 0
  owner : ∀ t, s.thread = t.val → Owner s.count (s.held t) (s.pc t)
  outsider : ∀ t, s.thread ≠ t.val → Outsider (s.held t) (s.pc t)

theorem inv_init : Inv init where
  free _ := rfl
  owner t ht := absurd ht.symm t.ne_zero
  outsider _ _ := rfl

/-- The step of `t` leaves the other threads alone. -/
structure Alone (s s' : State) (t : ThreadId) : Prop where
  pc : ∀ u, u ≠ t → s'.pc u = s.pc u
  held : ∀ u, u ≠ t → s'.held u = s.held u

theorem Moves.alone (hm : Moves s t s') : Alone s s' t := by
  have hpc : ∀ q u, u ≠ t → Function.update s.pc t q u = s.pc u :=
    fun q u hu => Function.update_of_ne hu q s.pc
  have hheld : ∀ n u, u ≠ t → Function.update s.held t n u = s.held u :=
    fun n u hu => Function.update_of_ne hu n s.held
  cases hm with
  | add _ _ | keep _ _ | store _ => exact ⟨hpc _, hheld _⟩
  | _ => exact ⟨hpc _, fun _ _ => rfl⟩

/-- The owner has moved, or a thread has become the owner. -/
theorem Inv.own (h : Inv s) (hs : s.thread = 0 ∨ s.thread = t.val) (halone : Alone s s' t)
    (ht : s'.thread = t.val) (hown : Owner s'.count (s'.held t) (s'.pc t)) : Inv s' where
  free h0 := absurd (ht.symm.trans h0) t.ne_zero
  owner u hu := by
    obtain rfl : t = u := ThreadId.val_inj.mp (ht.symm.trans hu)
    exact hown
  outsider u hu := by
    have hne : u ≠ t := by
      rintro rfl
      exact hu ht
    rw [halone.pc u hne, halone.held u hne]
    refine h.outsider u ?_
    rcases hs with h0 | hown
    · rw [h0]
      exact u.ne_zero.symm
    · rw [hown]
      exact fun heq => hne (ThreadId.val_inj.mp heq).symm

/-- Another thread has moved. -/
theorem Inv.aside (h : Inv s) (halone : Alone s s' t) (hthread : s'.thread = s.thread)
    (hcount : s'.count = s.count) (hne : s.thread ≠ t.val)
    (hout : Outsider (s'.held t) (s'.pc t)) : Inv s' where
  free h0 := by
    rw [hcount]
    exact h.free (hthread ▸ h0)
  owner u hu := by
    rw [hthread] at hu
    have hne : u ≠ t := by
      rintro rfl
      exact hne hu
    rw [halone.pc u hne, halone.held u hne, hcount]
    exact h.owner u hu
  outsider u hu := by
    rw [hthread] at hu
    by_cases hut : u = t
    · rw [hut]
      exact hout
    · rw [halone.pc u hut, halone.held u hut]
      exact h.outsider u hu

/-- The owner has stored `0`. -/
theorem Inv.release (h : Inv s) (halone : Alone s s' t) (hown : s.thread = t.val)
    (hthread : s'.thread = 0) (hcount : s'.count = 0)
    (hout : Outsider (s'.held t) (s'.pc t)) : Inv s' where
  free _ := hcount
  owner u hu := absurd (hthread.symm.trans hu).symm u.ne_zero
  outsider u _ := by
    by_cases hut : u = t
    · rw [hut]
      exact hout
    · rw [halone.pc u hut, halone.held u hut]
      exact h.outsider u fun hu => hut (ThreadId.val_inj.mp (hu.symm.trans hown))

/-- Who is past its compare-and-swap, or unlocks, is the owner. -/
theorem Inv.owned (h : Inv s) (hpc : ¬ Outsider (s.held t) (s.pc t)) : s.thread = t.val := by
  by_contra hne
  exact hpc (h.outsider t hne)

/-- A step that only changes where `t` is. -/
theorem Inv.goto {q : Pc} (h : Inv s) (hown : s.thread = t.val → Owner s.count (s.held t) q)
    (hout : s.thread ≠ t.val → Outsider (s.held t) q) : Inv (s.goto t q) := by
  have halone : Alone s (s.goto t q) t :=
    ⟨fun _ hu => Function.update_of_ne hu _ _, fun _ _ => rfl⟩
  have hself : (s.goto t q).pc t = q := Function.update_self ..
  by_cases ht : s.thread = t.val
  · refine h.own (Or.inr ht) halone ht ?_
    rw [hself]
    exact hown ht
  · refine h.aside halone rfl rfl ht ?_
    rw [hself]
    exact hout ht

/-- **One step.** -/
theorem Inv.move (h : Inv s) (hm : Moves s t s') : Inv s' := by
  have halone := hm.alone
  have hown := h.owner t
  have hout := h.outsider t
  cases hm with
  | lock hpc | tryLock hpc =>
      rw [hpc] at hown hout
      exact h.goto hown hout
  | unlock hheld hpc =>
      rw [hpc] at hown hout
      refine h.goto hown fun hne => ?_
      have h0 : s.held t = 0 := hout hne
      omega
  | again tried ht hpc =>
      refine h.goto (fun _ => ?_) fun hne => absurd ht hne
      have hown := hown ht
      rw [hpc] at hown
      split at hown
      · exact hown.1
      · exact hown.1
  | turnAway hne hpc =>
      rw [hpc] at hout
      exact h.goto (fun ht => absurd ht hne) hout
  | spin hne hpc =>
      rcases hpc with hpc | hpc
      · rw [hpc] at hown hout
        exact h.goto hown hout
      · rw [hpc] at hown hout
        exact h.goto hown hout
  | retry hfree hpc =>
      rw [hpc] at hown hout
      exact h.goto hown hout
  | tryFree hfree hpc =>
      rw [hpc] at hout
      exact h.goto (fun ht => absurd (ht.symm.trans hfree) t.ne_zero) hout
  | acquire tried hfree hpc =>
      refine h.own (Or.inl hfree) halone rfl ?_
      have hheld : s.held t = 0 := by
        have hout := hout fun ht => t.ne_zero (ht.symm.trans hfree)
        rw [hpc] at hout
        split at hout
        · exact hout
        · exact hout
      show Owner s.count (s.held t) (Function.update s.pc t _ t)
      rw [Function.update_self, h.free hfree, hheld]
      rfl
  | fail hne hpc =>
      have hother : s.thread ≠ t.val := by
        rcases hpc with ⟨-, hother⟩ | hpc
        · exact hother
        · intro ht
          have hown := hown ht
          rw [hpc] at hown
          exact hown
      have hheld : s.held t = 0 := by
        have hout := hout hother
        rcases hpc with ⟨hpc, -⟩ | hpc
        · rwa [hpc] at hout
        · rwa [hpc] at hout
      refine h.aside halone rfl rfl hother ?_
      show Outsider (s.held t) (Function.update s.pc t .idle t)
      rw [Function.update_self]
      exact hheld
  | add tried hpc =>
      have ht : s.thread = t.val := h.owned (by rw [hpc]; exact not_false)
      have heq : s.count = s.held t := by
        have hown := hown ht
        rwa [hpc] at hown
      refine h.own (Or.inr ht) halone ht ?_
      show Owner (s.count + 1) (Function.update s.held t _ t) (Function.update s.pc t .idle t)
      rw [Function.update_self, Function.update_self, heq]
      exact ⟨rfl, Nat.succ_pos _⟩
  | sub hpc =>
      have ht : s.thread = t.val := h.owned (by rw [hpc]; exact not_false)
      obtain ⟨heq, hpos⟩ : s.count = s.held t ∧ 0 < s.held t := by
        have hown := hown ht
        rwa [hpc] at hown
      refine h.own (Or.inr ht) halone ht ?_
      show Owner (s.count - 1) (s.held t) (Function.update s.pc t .test t)
      rw [Function.update_self]
      show s.count - 1 + 1 = s.held t
      omega
  | last hzero hpc =>
      rw [hpc] at hown hout
      refine h.goto (fun ht => ?_) hout
      have heq : s.count + 1 = s.held t := hown ht
      exact ⟨hzero, by omega⟩
  | keep hpos hpc =>
      have ht : s.thread = t.val := h.owned (by rw [hpc]; exact not_false)
      have heq : s.count + 1 = s.held t := by
        have hown := hown ht
        rwa [hpc] at hown
      refine h.own (Or.inr ht) halone ht ?_
      show Owner s.count (Function.update s.held t _ t) (Function.update s.pc t .idle t)
      rw [Function.update_self, Function.update_self]
      exact ⟨by omega, by omega⟩
  | store hpc =>
      have ht : s.thread = t.val := h.owned (by rw [hpc]; exact not_false)
      obtain ⟨hzero, hone⟩ : s.count = 0 ∧ s.held t = 1 := by
        have hown := hown ht
        rwa [hpc] at hown
      refine h.release halone ht rfl hzero ?_
      show Outsider (Function.update s.held t _ t) (Function.update s.pc t .idle t)
      rw [Function.update_self, Function.update_self, hone]
      rfl

theorem Reachable.inv (hr : Reachable s) : Inv s := by
  refine Reaches.invariant (I := Inv) hr ?_ ?_
  · rintro s rfl
    exact inv_init
  · rintro s a s' - h - hs
    exact h.move (moves_of_step hs)

/-! ## What the lock promises -/

theorem Inv.thread_of_held (h : Inv s) (ht : 0 < s.held t) : s.thread = t.val := by
  refine h.owned fun hout => ?_
  cases hpc : s.pc t with
  | add tried | sub | test | store =>
      rw [hpc] at hout
      exact hout
  | _ =>
      rw [hpc] at hout
      have h0 : s.held t = 0 := hout
      omega

theorem Inv.thread_of_inside (h : Inv s) (ht : s.inside t) : s.thread = t.val := by
  rcases ht with hheld | ⟨tried, hpc⟩
  · exact h.thread_of_held hheld
  · exact h.owned (by rw [hpc]; exact not_false)

/-- A thread that is not the owner returns from nothing but a `try_lock` that fails. -/
theorem Inv.returned_of_outsider (h : Inv s) (hu : s.thread ≠ u.val) (hm : Moves s u s') :
    s'.returned = s.returned ∨ s'.returned = s.returned ++ [.tryLock u false] := by
  have hout := h.outsider u hu
  cases hm with
  | fail hne hpc => exact Or.inr rfl
  | add _ hpc | keep _ hpc | store hpc =>
      rw [hpc] at hout
      exact hout.elim
  | _ => exact Or.inl rfl

/-- A `try_lock` that has come to its last access fails while another thread is the owner. -/
theorem tryLock_fails (h0 : s.thread ≠ 0) (hu : s.thread ≠ u.val)
    (hpc : s.pc u = .tryLoad ∨ s.pc u = .tryCas) :
    ∃ s', step s (u, .advance) = some s' ∧ s'.returned = s.returned ++ [.tryLock u false] := by
  refine ⟨s.finish u (.tryLock u false), ?_, rfl⟩
  rcases hpc with hpc | hpc
  · simp only [step, State.advance, hpc, if_neg h0, if_neg hu]
  · simp only [step, State.advance, hpc, if_neg h0]

/-- The only step that gives the lock up is the store, and the only step that takes the last
acquisition of a thread away. -/
theorem Inv.freed (h : Inv s) (hm : Moves s t s') :
    s.thread ≠ 0 ∧ s'.thread = 0 ↔ ∃ u, s.thread = u.val ∧ s.held u = 1 ∧ s'.held u = 0 := by
  -- the owner stays, and so does what it holds
  have hsame : s'.thread = s.thread → (∀ u, s.held u = 1 → s'.held u ≠ 0) →
      (s.thread ≠ 0 ∧ s'.thread = 0 ↔ ∃ u, s.thread = u.val ∧ s.held u = 1 ∧ s'.held u = 0) := by
    intro hthread hheld
    constructor
    · rintro ⟨hne, h0⟩
      exact absurd (hthread.symm.trans h0) hne
    · rintro ⟨u, -, h1, h0⟩
      exact absurd h0 (hheld u h1)
  have hheld : ∀ u, s.held u = 1 → s.held u ≠ 0 := fun u h1 => by omega
  have hown := h.owner t
  cases hm with
  | acquire tried hfree hpc =>
      constructor
      · rintro ⟨hne, -⟩
        exact absurd hfree hne
      · rintro ⟨u, hu, -⟩
        exact absurd (hu.symm.trans hfree) u.ne_zero
  | add tried hpc =>
      refine hsame rfl fun u h1 => ?_
      show Function.update s.held t (s.held t + 1) u ≠ 0
      rw [Function.update_apply]
      split <;> omega
  | keep hpos hpc =>
      have heq : s.count + 1 = s.held t := by
        have hown := hown (h.owned (by rw [hpc]; exact not_false))
        rwa [hpc] at hown
      refine hsame rfl fun u h1 => ?_
      show Function.update s.held t (s.held t - 1) u ≠ 0
      rw [Function.update_apply]
      split
      · omega
      · omega
  | store hpc =>
      have ht : s.thread = t.val := h.owned (by rw [hpc]; exact not_false)
      have hone : s.held t = 1 := by
        have hown := hown ht
        rw [hpc] at hown
        exact hown.2
      have hzero : Function.update s.held t (s.held t - 1) t = 0 := by
        rw [Function.update_self, hone]
      constructor
      · intro _
        exact ⟨t, ht, hone, hzero⟩
      · intro _
        exact ⟨ht ▸ t.ne_zero, rfl⟩
  | _ => exact hsame rfl hheld

theorem Inv.excludes (h : Inv s) : Excludes s where
  one t u ht hu :=
    ThreadId.val_inj.mp ((h.thread_of_inside ht).symm.trans (h.thread_of_inside hu))
  owner t ht := h.thread_of_held ht
  count t ht hpc := by
    have hown := h.owner t (h.thread_of_held ht)
    rw [hpc] at hown
    exact hown.1
  others t u a s' ht hu hs := by
    have hother : s.thread ≠ u.val := by
      rw [h.thread_of_held ht]
      exact fun heq => hu (ThreadId.val_inj.mp heq).symm
    exact h.returned_of_outsider hother (moves_of_step hs)
  tries t u ht hu hpc := by
    have hown := h.thread_of_held ht
    have h0 : s.thread ≠ 0 := by
      rw [hown]
      exact t.ne_zero
    have hother : s.thread ≠ u.val := by
      rw [hown]
      exact fun heq => hu (ThreadId.val_inj.mp heq).symm
    exact tryLock_fails h0 hother hpc
  freed a s' hs := h.freed (moves_of_step hs)

/-- **`recursive_spin_lock` excludes** other threads until the owner has unlocked as often as it
has locked. -/
theorem recursiveSpinLock_excludes (hr : Reachable s) : Excludes s := hr.inv.excludes

/-- A thread locks twice, once with `try_lock`, and unlocks once; another thread waits. -/
def nestedCalls : List (ThreadId × Action) :=
  let t := getId 0
  let u := getId 1
  [(t, .lock), (t, .advance), (t, .advance), (t, .advance), (u, .lock), (u, .advance),
    (t, .tryLock), (t, .advance), (t, .advance), (u, .advance), (t, .unlock), (t, .advance),
    (t, .advance), (u, .advance)]

theorem recursiveSpinLock_excludes_nested :
    ∃ s, run step anyStep init nestedCalls = some s ∧ s.thread = 1 ∧ s.count = 1 ∧
      s.pc (getId 1) = .lockSpin ∧ Excludes s := by
  obtain ⟨s, hs, hthread, hcount, hpc⟩ : ∃ s, run step anyStep init nestedCalls = some s ∧
      s.thread = 1 ∧ s.count = 1 ∧ s.pc (getId 1) = .lockSpin := ⟨_, rfl, rfl, rfl, rfl⟩
  exact ⟨s, hs, hthread, hcount, hpc,
    recursiveSpinLock_excludes (Reaches.run (Reaches.start rfl) hs)⟩

end

end Zab.RecursiveSpinLock
