import Zab.Sync.WaitForLatch

set_option autoImplicit false

/-! # `wait_for` over a vector of futures completes once

Where `wait_for` and its waiters are decides where they are on the latch, and whether they have
counted down. `wait_for` continues after its `co_await` only when all have, and then every value is
in its place.
-/

namespace Zab.WaitForVector

open Automaton

/-! ## Where the parties are on the latch -/

/-- Who has counted down. -/
def counted (l : AsyncLatch.State) : List Coro := l.decrements.map Prod.fst

def MainPc.On (l : AsyncLatch.State) : MainPc → Prop
  | .start _ | .inside _ => l.pc self = .idle ∧ self ∉ counted l
  | .arriving => l.pc self = .fetchSub one true ∧ self ∉ counted l ∨
      (l.pc self = .unpausing true ∨ l.pc self = .arrived) ∧ self ∈ counted l
  | .waiting => (l.pc self = .awaiting ∨ l.pc self = .idle ∧ self ∈ l.continued) ∧
      self ∈ counted l
  | .ret | .done => l.pc self = .idle

def WaiterPc.On (l : AsyncLatch.State) (i : Nat) : WaiterPc → Prop
  | .unborn | .inside | .suspended => l.pc (waiterOf i) = .idle ∧ waiterOf i ∉ counted l
  | .counting _ => l.pc (waiterOf i) = .fetchSub one false ∧ waiterOf i ∉ counted l ∨
      (l.pc (waiterOf i) = .unpausing false ∨ l.pc (waiterOf i) = .idle) ∧
        waiterOf i ∈ counted l
  | .done => l.pc (waiterOf i) = .idle ∧ waiterOf i ∈ counted l

/-- The number of waiters that `wait_for` has started. -/
def MainPc.count (n : Size) : MainPc → Nat
  | .start count => count
  | .inside count => count + 1
  | .arriving | .waiting | .ret | .done => n.val

/-- `wait_for` has not come to its `co_await`. -/
def MainPc.before : MainPc → Bool
  | .start _ | .inside _ | .arriving => true
  | .waiting | .ret | .done => false

/-- The future has completed. -/
def WaiterPc.completed : WaiterPc → Bool
  | .counting _ | .done => true
  | .unborn | .inside | .suspended => false

structure Inv {α : Type} [Inhabited α] (n : Size) (s : State α) : Prop where
  latch : LatchInv n s.latch
  main : s.main.On s.latch
  waiter : ∀ i, (s.waiter i).On s.latch i
  fresh : s.main.before = true → ∀ x, s.latch.complete.live x = false
  -- the waiters are started in order
  born : ∀ i, s.waiter i ≠ .unborn ↔ i < s.main.count n
  le : s.main.count n ≤ n.val
  empty : n.val = 0 → s.main = .ret ∨ s.main = .done
  after : s.main = .ret ∨ s.main = .done → ∀ i < n.val, waiterOf i ∈ counted s.latch
  -- the values
  value : ∀ i, (s.value i).isSome = (s.waiter i).completed
  length : s.result.length = n.val
  result : ∀ i < n.val, s.result[i]? = some ((s.value i).getD default)
  completed : s.completed = if s.main = .done then [s.result] else []

section

variable {n : Size} {l l' : AsyncLatch.State} {c : Coro} {i : Nat} {spurious : Bool}

theorem waiterOf_ne_self (i : Nat) : waiterOf i ≠ self := Nat.succ_ne_zero i

theorem waiterOf_inj {i j : Nat} : waiterOf i = waiterOf j ↔ i = j := Nat.succ_inj

theorem mem_counted_append {k : Nat} (hsum : l'.decrements = l.decrements ++ [(c, k)]) :
    c ∈ counted l' := by
  simp [counted, hsum]

theorem counted_congr (hsum : l'.decrements = l.decrements) : counted l' = counted l := by
  unfold counted
  rw [hsum]

theorem MainPc.On.frame {q : MainPc} (h : q.On l) (hf : AsyncLatch.Frame l l' c)
    (hc : c ≠ self) : q.On l' := by
  have hpc := hf.others self hc.symm
  have hmem : self ∈ counted l' ↔ self ∈ counted l := hf.mem_iff hc.symm
  cases q with
  | start _ | inside _ | arriving | ret | done =>
      unfold MainPc.On at h ⊢
      simpa only [hpc, hmem] using h
  | waiting =>
      unfold MainPc.On at h ⊢
      simp only [hpc, hmem]
      exact ⟨h.1.imp_right fun hidle => ⟨hidle.1, hf.continued hidle.2⟩, h.2⟩

theorem WaiterPc.On.frame {q : WaiterPc} (h : q.On l i) (hf : AsyncLatch.Frame l l' c)
    (hc : c ≠ waiterOf i) : q.On l' i := by
  have hpc := hf.others (waiterOf i) hc.symm
  have hmem : waiterOf i ∈ counted l' ↔ waiterOf i ∈ counted l := hf.mem_iff hc.symm
  unfold WaiterPc.On at h ⊢
  cases q <;> simpa only [hpc, hmem] using h

theorem MainPc.On.advance {q : MainPc} (h : q.On l) (hs : l.advance self spurious = some l') :
    q.On l' := by
  cases q with
  | start _ | inside _ => simp [AsyncLatch.State.advance, h.1] at hs
  | ret | done => simp [AsyncLatch.State.advance, show l.pc self = .idle from h] at hs
  | arriving =>
      unfold MainPc.On at h ⊢
      cases AsyncLatch.advance_cases hs with
      | crosses k wait before after sum token =>
          obtain ⟨⟨-, rfl⟩, -⟩ : (k = one ∧ wait = true) ∧ self ∉ counted l := by
            simpa [before] using h
          exact Or.inr ⟨Or.inl after, mem_counted_append sum⟩
      | decrements k wait before after sum token =>
          obtain ⟨⟨-, rfl⟩, -⟩ : (k = one ∧ wait = true) ∧ self ∉ counted l := by
            simpa [before] using h
          exact Or.inr ⟨Or.inr after, mem_counted_append sum⟩
      | unpauses wait before after sum token =>
          obtain ⟨rfl, hmem⟩ : wait = true ∧ self ∈ counted l := by simpa [before] using h
          rw [counted_congr sum]
          exact Or.inr ⟨Or.inl after, hmem⟩
      | returns wait before after sum token =>
          obtain ⟨rfl, hmem⟩ : wait = true ∧ self ∈ counted l := by simpa [before] using h
          rw [counted_congr sum]
          exact Or.inr ⟨Or.inr after, hmem⟩
      | awaits before | continues before => simp [before] at h
  | waiting =>
      unfold MainPc.On at h ⊢
      cases AsyncLatch.advance_cases hs with
      | crosses k wait before | decrements k wait before => simp [before] at h
      | unpauses wait before | returns wait before => simp [before] at h
      | awaits before after sum token =>
          rw [counted_congr sum]
          exact ⟨Or.inl after, h.2⟩
      | continues before after sum token log =>
          rw [counted_congr sum]
          exact ⟨Or.inr ⟨after, log⟩, h.2⟩

theorem WaiterPc.On.advance {q : WaiterPc} (h : q.On l i)
    (hs : l.advance (waiterOf i) spurious = some l') : q.On l' i := by
  cases q with
  | unborn | inside | suspended | done => simp [AsyncLatch.State.advance, h.1] at hs
  | counting inside =>
      unfold WaiterPc.On at h ⊢
      cases AsyncLatch.advance_cases hs with
      | crosses k wait before after sum token =>
          obtain ⟨⟨-, rfl⟩, -⟩ : (k = one ∧ wait = false) ∧ waiterOf i ∉ counted l := by
            simpa [before] using h
          exact Or.inr ⟨Or.inl after, mem_counted_append sum⟩
      | decrements k wait before after sum token =>
          obtain ⟨⟨-, rfl⟩, -⟩ : (k = one ∧ wait = false) ∧ waiterOf i ∉ counted l := by
            simpa [before] using h
          exact Or.inr ⟨Or.inr after, mem_counted_append sum⟩
      | unpauses wait before after sum token =>
          obtain ⟨rfl, hmem⟩ : wait = false ∧ waiterOf i ∈ counted l := by
            simpa [before] using h
          rw [counted_congr sum]
          exact Or.inr ⟨Or.inl after, hmem⟩
      | returns wait before after sum token =>
          obtain ⟨rfl, hmem⟩ : wait = false ∧ waiterOf i ∈ counted l := by
            simpa [before] using h
          rw [counted_congr sum]
          exact Or.inr ⟨Or.inr after, hmem⟩
      | awaits before | continues before => simp [before] at h

/-- A step on the latch, as a step of `wait_for`. -/
theorem onLatch_eq_some {α : Type} {s s' : State α}
    {a : Coro × AsyncLatch.Action} (hs : s.onLatch a = some s') :
    ∃ l', AsyncLatch.step s.latch a = some l' ∧ s' = { s with latch := l' } := by
  obtain ⟨l', hl', rfl⟩ := Option.map_eq_some_iff.mp hs
  exact ⟨l', hl', rfl⟩

/-- What the next step of `wait_for` can do. -/
inductive Advances {α : Type} (s : State α) (n : Size) (spurious : Bool) : State α → Prop
  | start {count : Nat} (hm : s.main = .start count) (hlt : count < n.val) :
      Advances s n spurious { s.setWaiter count .inside with main := .inside count }
  | arrive {count : Nat} {l' : AsyncLatch.State} (hm : s.main = .start count)
      (hge : ¬ count < n.val)
      (hl' : AsyncLatch.step s.latch (self, .arriveAndWait one) = some l') :
      Advances s n spurious { s with main := .arriving, latch := l' }
  | goOn {count : Nat} (hm : s.main = .inside count) :
      Advances s n spurious { s with main := .start (count + 1) }
  | latch {l' : AsyncLatch.State}
      (hl' : AsyncLatch.step s.latch (self, .advance spurious) = some l') :
      Advances s n spurious { s with latch := l' }
  | ret (hm : s.main = .waiting) (hidle : s.latch.pc self = .idle) :
      Advances s n spurious { s with main := .ret }
  | done (hm : s.main = .ret) :
      Advances s n spurious { s with main := .done, completed := s.completed ++ [s.result] }

theorem advances_of_advance {α : Type} {s s' : State α} {n : Size} {spurious : Bool}
    (hs : s.advance n spurious = some s') : Advances s n spurious s' := by
  unfold State.advance at hs
  cases hm : s.main with
  | start count =>
      simp only [hm] at hs
      split at hs
      · rename_i hlt
        obtain rfl := Option.some.inj hs
        exact .start hm hlt
      · rename_i hge
        obtain ⟨l', hl', rfl⟩ := onLatch_eq_some hs
        exact .arrive hm hge hl'
  | inside count =>
      simp only [hm] at hs
      split at hs
      · cases hs
      · cases hs
      · obtain rfl := Option.some.inj hs
        exact .goOn hm
  | arriving =>
      simp only [hm] at hs
      obtain ⟨l', hl', rfl⟩ := onLatch_eq_some hs
      exact .latch hl'
  | waiting =>
      simp only [hm] at hs
      split at hs
      · rename_i hidle
        obtain rfl := Option.some.inj hs
        exact .ret hm hidle
      · obtain ⟨l', hl', rfl⟩ := onLatch_eq_some hs
        exact .latch hl'
  | ret =>
      simp only [hm] at hs
      obtain rfl := Option.some.inj hs
      exact .done hm
  | done => simp [hm] at hs

/-- A future completes, and its waiter calls the latch. -/
theorem complete_eq_some {α : Type} {s s' : State α} {a : α} {inside : Bool}
    (hs : s.complete i a inside = some s') : s.latch.pc (waiterOf i) = .idle ∧
      AsyncLatch.step s.latch (waiterOf i, .countDown one) =
        some (s.latch.goto (waiterOf i) (.fetchSub one false)) ∧
      s' = { s with
        latch := s.latch.goto (waiterOf i) (.fetchSub one false)
        waiter := Function.update s.waiter i (.counting inside)
        result := s.result.set i a
        value := Function.update s.value i (some a) } := by
  obtain ⟨l', hl', rfl⟩ := onLatch_eq_some hs
  obtain ⟨hidle, rfl⟩ := step_call false hl'
  exact ⟨hidle, hl', rfl⟩

end

section

variable {α : Type} [Inhabited α] {n : Size} {s s' : State α} {l' : AsyncLatch.State} {c : Coro}
  {i : Nat} {spurious : Bool}

theorem Inv.lt_of_born (h : Inv n s) (hi : s.waiter i ≠ .unborn) : i < n.val :=
  Nat.lt_of_lt_of_le ((h.born i).mp hi) h.le

theorem Inv.nonempty (h : Inv n s) (hr : s.main ≠ .ret) (hd : s.main ≠ .done) : 0 < n.val := by
  refine Nat.pos_of_ne_zero fun hzero => ?_
  rcases h.empty hzero with hm | hm
  · exact hr hm
  · exact hd hm

/-- Who has counted down has a value. -/
theorem Inv.completed_of_counted (h : Inv n s) (hi : waiterOf i ∈ counted s.latch) :
    (s.value i).isSome = true := by
  rw [h.value i]
  have hon := h.waiter i
  cases hw : s.waiter i with
  | unborn | inside | suspended =>
      rw [hw] at hon
      exact absurd hi hon.2
  | counting _ | done => rfl

/-- `wait_for` goes on, with or without a step on the latch. -/
theorem Inv.goMain (h : Inv n s) {q : MainPc} (hr : s.main ≠ .ret) (hd : s.main ≠ .done)
    (hq : q ≠ .done) (hl : LatchInv n l') (hf : AsyncLatch.Frame s.latch l' self) (hon : q.On l')
    (hcount : q.count n = s.main.count n)
    (hfresh : q.before = true → ∀ x, l'.complete.live x = false)
    (hafter : q = .ret → ∀ i < n.val, waiterOf i ∈ counted l') :
    Inv n { s with main := q, latch := l' } := by
  have hpos := h.nonempty hr hd
  refine { h with latch := hl, main := hon, waiter := fun i => ?_, fresh := hfresh, born := ?_,
                  le := ?_, empty := fun hzero => by omega, after := ?_, completed := ?_ }
  · exact (h.waiter i).frame hf (waiterOf_ne_self i).symm
  · show ∀ i, s.waiter i ≠ .unborn ↔ i < q.count n
    rw [hcount]
    exact h.born
  · show q.count n ≤ n.val
    rw [hcount]
    exact h.le
  · exact fun hret => hafter (hret.resolve_right hq)
  · show s.completed = if q = .done then [s.result] else []
    rw [if_neg hq, h.completed, if_neg hd]

theorem frame_refl (l : AsyncLatch.State) (c : Coro) : AsyncLatch.Frame l l c :=
  ⟨fun _ _ => rfl, List.Subset.refl _, Or.inl rfl⟩

/-- A step on the latch. -/
theorem Inv.onLatch (h : Inv n s) (hl : LatchInv n l') (hf : AsyncLatch.Frame s.latch l' c)
    (hmain : c = self → s.main.On l') (hwaiter : ∀ i, c = waiterOf i → (s.waiter i).On l' i)
    (hfresh : ∀ x, l'.complete.live x = true → s.latch.complete.live x = true) :
    Inv n { s with latch := l' } := by
  refine { h with latch := hl, main := ?_, waiter := fun i => ?_, fresh := fun hq x => ?_,
                  after := fun hq i hi => hf.subset (h.after hq i hi) }
  · by_cases hc : c = self
    · exact hmain hc
    · exact h.main.frame hf hc
  · by_cases hc : c = waiterOf i
    · exact hwaiter i hc
    · exact (h.waiter i).frame hf hc
  · have hdead := h.fresh hq x
    by_contra hx
    have hx : l'.complete.live x = true := by simpa using hx
    rw [hfresh x hx] at hdead
    cases hdead

theorem Inv.advanceMain (h : Inv n s) (hs : s.latch.advance self spurious = some l') :
    Inv n { s with latch := l' } := by
  have hs : AsyncLatch.step s.latch (self, .advance spurious) = some l' := hs
  refine h.onLatch (h.latch.advance hs) (AsyncLatch.step_frame hs) (fun _ => h.main.advance hs)
    (fun i hi => absurd hi.symm (waiterOf_ne_self i)) (AsyncLatch.advance_live hs)

theorem Inv.advanceWaiter (h : Inv n s) (hs : s.latch.advance (waiterOf i) spurious = some l') :
    Inv n { s with latch := l' } := by
  have hs : AsyncLatch.step s.latch (waiterOf i, .advance spurious) = some l' := hs
  refine h.onLatch (h.latch.advance hs) (AsyncLatch.step_frame hs)
    (fun hi => absurd hi (waiterOf_ne_self i)) (fun j hj => ?_) (AsyncLatch.advance_live hs)
  obtain rfl := waiterOf_inj.mp hj
  exact (h.waiter i).advance hs

/-- A step of a waiter that leaves the latch alone. -/
theorem Inv.setWaiter (h : Inv n s) {q : WaiterPc} (hon : q.On s.latch i) (hi : s.waiter i ≠ .unborn)
    (hq : q ≠ .unborn) (hcompleted : q.completed = (s.waiter i).completed) :
    Inv n (s.setWaiter i q) := by
  refine { h with waiter := ?_, born := fun j => ?_, value := fun j => ?_ }
  · exact (Function.forall_update_iff s.waiter fun j q => q.On s.latch j).mpr
      ⟨hon, fun j _ => h.waiter j⟩
  · refine Iff.trans ?_ (h.born j)
    show Function.update s.waiter i q j ≠ .unborn ↔ _
    by_cases hji : j = i
    · subst hji
      rw [Function.update_self]
      exact ⟨fun _ => hi, fun _ => hq⟩
    · rw [Function.update_of_ne hji]
  · refine (h.value j).trans ?_
    show _ = (Function.update s.waiter i q j).completed
    by_cases hji : j = i
    · rw [hji, Function.update_self, hcompleted]
    · rw [Function.update_of_ne hji]

/-- The next waiter starts. -/
theorem Inv.start (h : Inv n s) {count : Nat} (hm : s.main = .start count) (hlt : count < n.val) :
    Inv n { s.setWaiter count .inside with main := .inside count } := by
  have hcount : s.main.count n = count := by rw [hm]; rfl
  have hborn : ∀ i, s.waiter i ≠ .unborn ↔ i < count := by
    intro i
    rw [h.born i, hcount]
  have hunborn : s.waiter count = .unborn := by
    by_contra hne
    exact absurd ((hborn count).mp hne) (Nat.lt_irrefl count)
  have hmain := h.main
  rw [hm] at hmain
  refine { h with main := hmain, waiter := ?_, fresh := fun _ => h.fresh (by rw [hm]; rfl),
                  born := fun i => ?_, le := hlt, empty := fun hzero => by omega, after := by simp,
                  value := fun i => ?_, completed := ?_ }
  · refine (Function.forall_update_iff s.waiter fun j q => q.On s.latch j).mpr
      ⟨?_, fun j _ => h.waiter j⟩
    have hon := h.waiter count
    rw [hunborn] at hon
    exact hon
  · show Function.update s.waiter count .inside i ≠ .unborn ↔ i < count + 1
    by_cases hi : i = count
    · subst hi
      simp
    · rw [Function.update_of_ne hi, hborn i]
      omega
  · refine (h.value i).trans ?_
    show _ = (Function.update s.waiter count .inside i).completed
    by_cases hi : i = count
    · rw [hi, Function.update_self, hunborn]
      rfl
    · rw [Function.update_of_ne hi]
  · have hnone := h.completed
    rw [hm] at hnone
    exact hnone

/-- `wait_for` calls `arrive_and_wait`. -/
theorem Inv.arrive (h : Inv n s) {count : Nat} (hm : s.main = .start count) (hge : ¬ count < n.val)
    (hs : AsyncLatch.step s.latch (self, .arriveAndWait one) = some l') :
    Inv n { s with main := .arriving, latch := l' } := by
  have hon := h.main
  rw [hm] at hon
  have hcount : s.main.count n = n.val := by
    have hle := h.le
    rw [hm] at hle ⊢
    exact Nat.le_antisymm hle (Nat.le_of_not_lt hge)
  refine h.goMain (by simp [hm]) (by simp [hm]) (by simp)
    (h.latch.call true (Nat.succ_pos n.val) hon.2 hs) (AsyncLatch.step_frame hs) ?_
    hcount.symm ?_ (by simp)
  all_goals obtain ⟨-, rfl⟩ := step_call true hs
  · exact Or.inl ⟨AsyncLatch.goto_self .., hon.2⟩
  · exact fun _ => h.fresh (by rw [hm]; rfl)

/-- `wait_for` starts its `co_await`. -/
theorem Inv.wait (h : Inv n s) (hm : s.main = .arriving) (harrived : s.latch.pc self = .arrived)
    {p : Addr} {t : ThreadT} (hs : AsyncLatch.step s.latch (self, .wait p t) = some l') :
    Inv n { s with main := .waiting, latch := l' } := by
  have hon := h.main
  rw [hm] at hon
  have hmem : self ∈ counted s.latch := by
    rcases hon with ⟨hfetch, -⟩ | ⟨-, hmem⟩
    · rw [harrived] at hfetch
      cases hfetch
    · exact hmem
  obtain ⟨hl, hawait, hsum, -⟩ := h.latch.wait hs
  refine h.goMain (by simp [hm]) (by simp [hm]) (by simp) hl (AsyncLatch.step_frame hs) ?_
    (by rw [hm]; rfl) (by simp [MainPc.before]) (by simp)
  refine ⟨Or.inl hawait, ?_⟩
  rw [counted_congr hsum]
  exact hmem

/-- The `co_await` of `wait_for` is over. -/
theorem Inv.ret (h : Inv n s) (hm : s.main = .waiting) (hidle : s.latch.pc self = .idle) :
    Inv n { s with main := .ret } := by
  have hon := h.main
  rw [hm] at hon
  have hcontinued : self ∈ s.latch.continued := by
    rcases hon.1 with hawait | ⟨-, hcontinued⟩
    · rw [hidle] at hawait
      cases hawait
    · exact hcontinued
  have hall := h.latch.continued hcontinued
  exact h.goMain (by simp [hm]) (by simp [hm]) (by simp) h.latch (frame_refl s.latch self) hidle
    (by rw [hm]; rfl) (by simp [MainPc.before]) fun _ i hi => hall (waiterOf i) (Nat.succ_lt_succ hi)

/-- `co_return`. -/
theorem Inv.done (h : Inv n s) (hm : s.main = .ret) :
    Inv n { s with main := .done, completed := s.completed ++ [s.result] } := by
  have hon := h.main
  have hborn := h.born
  have hle := h.le
  have hafter := h.after (Or.inl hm)
  rw [hm] at hon hborn hle
  refine { h with main := hon, fresh := by simp [MainPc.before], born := hborn, le := hle,
                  empty := fun _ => Or.inr rfl, after := fun _ => hafter, completed := ?_ }
  show s.completed ++ [s.result] = _
  rw [h.completed, if_neg (by simp [hm])]
  rfl

/-- Until its future has completed, a waiter has not counted down. -/
theorem Inv.complete (h : Inv n s) {a : α} {inside : Bool}
    (hi : s.waiter i = .inside ∨ s.waiter i = .suspended) (hs : s.complete i a inside = some s') :
    Inv n s' := by
  have hborn : s.waiter i ≠ .unborn := by rcases hi with hi | hi <;> simp [hi]
  have hin := h.lt_of_born hborn
  have hnew : waiterOf i ∉ counted s.latch := by
    have hon := h.waiter i
    rcases hi with hi | hi <;> rw [hi] at hon <;> exact hon.2
  obtain ⟨-, hl', rfl⟩ := complete_eq_some hs
  have hl := h.latch.call false (Nat.succ_lt_succ hin) hnew hl'
  have hf := AsyncLatch.step_frame hl'
  -- `wait_for` has not come to its end
  have hmain : ¬ (s.main = .ret ∨ s.main = .done) := fun hm => hnew (h.after hm i hin)
  have hdone : s.main ≠ .done := fun hm => hmain (Or.inr hm)
  refine ⟨hl, h.main.frame hf (waiterOf_ne_self i), ?_, h.fresh, fun j => ?_, h.le, h.empty,
    fun hm => absurd hm hmain, fun j => ?_, ?_, ?_, ?_⟩
  · intro j
    show (Function.update s.waiter i (.counting inside) j).On _ j
    by_cases hji : j = i
    · subst hji
      rw [Function.update_self]
      exact Or.inl ⟨AsyncLatch.goto_self .., hnew⟩
    · rw [Function.update_of_ne hji]
      exact (h.waiter j).frame hf fun heq => hji (waiterOf_inj.mp heq).symm
  · refine Iff.trans ?_ (h.born j)
    show Function.update s.waiter i (.counting inside) j ≠ .unborn ↔ _
    by_cases hji : j = i
    · subst hji
      simp [hborn]
    · rw [Function.update_of_ne hji]
  · show (Function.update s.value i (some a) j).isSome =
      (Function.update s.waiter i (.counting inside) j).completed
    by_cases hji : j = i
    · subst hji
      rw [Function.update_self, Function.update_self]
      rfl
    · rw [Function.update_of_ne hji, Function.update_of_ne hji]
      exact h.value j
  · exact List.length_set.trans h.length
  · intro j hj
    show (s.result.set i a)[j]? = some ((Function.update s.value i (some a) j).getD default)
    by_cases hji : j = i
    · subst hji
      rw [Function.update_self, List.getElem?_set_self (by rw [h.length]; exact hj)]
      rfl
    · rw [Function.update_of_ne hji, List.getElem?_set_ne (Ne.symm hji)]
      exact h.result j hj
  · show s.completed = if s.main = .done then _ else []
    rw [h.completed, if_neg hdone, if_neg hdone]

theorem Inv.advance (h : Inv n s) (hs : s.advance n spurious = some s') : Inv n s' := by
  cases advances_of_advance hs with
  | start hm hlt => exact h.start hm hlt
  | arrive hm hge hl' => exact h.arrive hm hge hl'
  | goOn hm =>
      have hon := h.main
      rw [hm] at hon
      exact h.goMain (by simp [hm]) (by simp [hm]) (by simp) h.latch (frame_refl s.latch self)
        hon (by rw [hm]; rfl) (fun _ => h.fresh (by rw [hm]; rfl)) (by simp)
  | latch hl' => exact h.advanceMain hl'
  | ret hm hidle => exact h.ret hm hidle
  | done hm => exact h.done hm

theorem Inv.step {a : Action α} (h : Inv n s) (hs : step n s a = some s') : Inv n s' := by
  cases a with
  | main spurious => exact h.advance hs
  | wait p t =>
      simp only [WaitForVector.step] at hs
      split at hs
      · rename_i hc
        obtain ⟨l', hl', rfl⟩ := onLatch_eq_some hs
        exact h.wait hc.1 hc.2 hl'
      · cases hs
  | suspend i =>
      simp only [WaitForVector.step] at hs
      split at hs
      · rename_i hi
        obtain rfl := Option.some.inj hs
        have hon := h.waiter i
        rw [hi] at hon
        exact h.setWaiter hon (by simp [hi]) (by simp) (by rw [hi]; rfl)
      · cases hs
  | complete i a =>
      simp only [WaitForVector.step] at hs
      split at hs
      · rename_i hi
        exact h.complete (Or.inl hi) hs
      · rename_i hi
        exact h.complete (Or.inr hi) hs
      · cases hs
  | waiter i spurious =>
      simp only [WaitForVector.step] at hs
      split at hs
      · rename_i inside hi
        have hon := h.waiter i
        rw [hi] at hon
        split at hs
        · rename_i hidle
          obtain rfl := Option.some.inj hs
          have hmem : waiterOf i ∈ counted s.latch := by
            rcases hon with ⟨hfetch, -⟩ | ⟨-, hmem⟩
            · rw [hidle] at hfetch
              cases hfetch
            · exact hmem
          exact h.setWaiter ⟨hidle, hmem⟩ (by simp [hi]) (by simp) (by rw [hi]; rfl)
        · obtain ⟨l', hl', rfl⟩ := onLatch_eq_some hs
          exact h.advanceWaiter hl'
      · cases hs

theorem inv_init (n : Size) : Inv n (init n : State α) := by
  have hidle : ∀ c, (AsyncLatch.init (amount n)).pc c = .idle ∧
      c ∉ counted (AsyncLatch.init (amount n)) := fun c => ⟨rfl, by simp [counted, AsyncLatch.init]⟩
  refine ⟨latchInv_init n, ?_, fun i => hidle (waiterOf i), fun _ _ => rfl, fun i => ?_, ?_,
    fun hzero => ?_, ?_, fun i => rfl, List.length_replicate, fun i hi => ?_, ?_⟩
  all_goals by_cases hpos : 0 < n.val <;> simp only [init, hpos, if_true, if_false]
  · exact hidle self
  · exact (hidle self).1
  · simp [MainPc.count]
  · simp [MainPc.count, Nat.eq_zero_of_not_pos hpos]
  · exact hpos.le
  · exact Nat.le_refl n.val
  · omega
  · exact Or.inl trivial
  · simp
  · exact fun _ i hi => by omega
  · simp [hi]
  · omega
  · simp
  · simp

/-- The invariant holds in every run. -/
theorem Reachable.inv (h : Reachable n s) : Inv n s := by
  refine Reaches.invariant h ?_ ?_
  · rintro s rfl
    exact inv_init n
  · rintro s a s' - ih - hs
    exact ih.step hs

end

/-! ## Every run ends -/

section

variable {α : Type} {n : Size} {s s' : State α} {l' : AsyncLatch.State} {c : Coro} {i : Nat}
  {spurious : Bool}

/-- `c` makes a step. -/
theorem work_lt_of_workOf (hle : ∀ c, s'.workOf n c ≤ s.workOf n c) (hc : c < n.val + 1)
    (hlt : s'.workOf n c < s.workOf n c) : s'.work n < s.work n :=
  Finset.sum_lt_sum (fun d _ => hle d) ⟨c, Finset.mem_range.mpr hc, hlt⟩

/-- A step of `wait_for`. -/
theorem work_main
    (hothers : ∀ i, (s'.waiter i).work + latchWork s'.latch (waiterOf i) ≤
      (s.waiter i).work + latchWork s.latch (waiterOf i))
    (hlt : s'.main.work n + latchWork s'.latch self < s.main.work n + latchWork s.latch self) :
    s'.work n < s.work n := by
  have hle : ∀ c, s'.workOf n c ≤ s.workOf n c := by
    intro c
    cases c with
    | zero => exact hlt.le
    | succ i => exact hothers i
  exact work_lt_of_workOf (c := 0) hle (Nat.succ_pos n.val) hlt

/-- A step of a waiter. -/
theorem work_waiter (hi : i < n.val)
    (hmain : s'.main.work n + latchWork s'.latch self ≤ s.main.work n + latchWork s.latch self)
    (hothers : ∀ j, j ≠ i → (s'.waiter j).work + latchWork s'.latch (waiterOf j) ≤
      (s.waiter j).work + latchWork s.latch (waiterOf j))
    (hlt : (s'.waiter i).work + latchWork s'.latch (waiterOf i) <
      (s.waiter i).work + latchWork s.latch (waiterOf i)) : s'.work n < s.work n := by
  have hle : ∀ c, s'.workOf n c ≤ s.workOf n c := by
    intro c
    cases c with
    | zero => exact hmain
    | succ j =>
        by_cases hji : j = i
        · rw [hji]
          exact hlt.le
        · exact hothers j hji
  exact work_lt_of_workOf (c := i + 1) hle (Nat.succ_lt_succ hi) hlt

/-- A step inside an operation on the latch. -/
theorem LatchInv.work_advance (h : LatchInv n s.latch) (hc : c < n.val + 1)
    (hs : s.latch.advance c spurious = some l') :
    ({ s with latch := l' } : State α).work n ≤ s.work n ∧
      (spurious = false → ({ s with latch := l' } : State α).work n < s.work n) := by
  obtain ⟨hle, hlt⟩ := h.work hs
  have hle : ∀ d, ({ s with latch := l' } : State α).workOf n d ≤ s.workOf n d := by
    intro d
    cases d with
    | zero => exact Nat.add_le_add_left (hle self) _
    | succ i => exact Nat.add_le_add_left (hle (waiterOf i)) _
  refine ⟨Finset.sum_le_sum fun d _ => hle d, fun hsp => work_lt_of_workOf hle hc ?_⟩
  · cases c with
    | zero => exact Nat.add_lt_add_left (hlt hsp) _
    | succ i => exact Nat.add_lt_add_left (hlt hsp) _

/-- A call of the latch costs its caller 14 steps. -/
theorem latchWork_call {l : AsyncLatch.State} (hidle : l.pc c = .idle) (k : AsyncLatch.Amount)
    (wait : Bool) : latchWork (l.goto c (.fetchSub k wait)) c = latchWork l c + 14 ∧
      ∀ d, d ≠ c → latchWork (l.goto c (.fetchSub k wait)) d = latchWork l d := by
  refine ⟨?_, fun d hd => ?_⟩
  · simp [latchWork, AsyncLatch.State.goto, hidle]
  · simp [latchWork, AsyncLatch.State.goto, hd]

end

section

variable {α : Type} [Inhabited α] {n : Size} {s s' : State α} {l' : AsyncLatch.State} {c : Coro}
  {i : Nat} {spurious : Bool}

theorem Inv.work_main (h : Inv n s) (hs : s.advance n spurious = some s') :
    s'.work n ≤ s.work n ∧ (spurious = false → s'.work n < s.work n) := by
  have hlt : s'.work n < s.work n →
      s'.work n ≤ s.work n ∧ (spurious = false → s'.work n < s.work n) :=
    fun hlt => ⟨hlt.le, fun _ => hlt⟩
  cases advances_of_advance hs with
  | @start count hm hcount =>
      have hunborn : s.waiter count = .unborn := by
        by_contra hne
        have hlt := (h.born count).mp hne
        simp [hm, MainPc.count] at hlt
      refine hlt (WaitForVector.work_main (fun i => Nat.add_le_add_right ?_ _) ?_)
      · show (Function.update s.waiter count .inside i).work ≤ (s.waiter i).work
        by_cases hi : i = count
        · rw [hi, Function.update_self, hunborn]
          decide
        · rw [Function.update_of_ne hi]
      · show MainPc.work n (.inside count) + _ < s.main.work n + _
        rw [hm]
        exact Nat.add_lt_add_right (Nat.lt_succ_self _) _
  | arrive hm hge hl' =>
      obtain ⟨hidle, rfl⟩ := step_call true hl'
      obtain ⟨hself, hothers⟩ := latchWork_call hidle one true
      refine hlt (WaitForVector.work_main (fun i => Nat.add_le_add_left ?_ _) ?_)
      · exact (hothers (waiterOf i) (waiterOf_ne_self i)).le
      · show MainPc.work n .arriving + latchWork (s.latch.goto self (.fetchSub one true)) self < _
        rw [hself, hm]
        simp only [MainPc.work]
        omega
  | @goOn count hm =>
      have hcount : count < n.val := by
        have hle := h.le
        rwa [hm] at hle
      refine hlt (WaitForVector.work_main (fun i => Nat.le_refl _) (Nat.add_lt_add_right ?_ _))
      rw [hm]
      simp only [MainPc.work]
      omega
  | latch hl' => exact h.latch.work_advance (Nat.succ_pos n.val) hl'
  | ret hm hidle | done hm =>
      refine hlt (WaitForVector.work_main (fun i => Nat.le_refl _) (Nat.add_lt_add_right ?_ _))
      simp [hm, MainPc.work]

theorem Inv.work_wait (h : Inv n s) (hm : s.main = .arriving) {p : Addr} {t : ThreadT}
    (hs : AsyncLatch.step s.latch (self, .wait p t) = some l') :
    ({ s with main := .waiting, latch := l' } : State α).work n < s.work n := by
  obtain ⟨-, hawait, -, htoken⟩ := h.latch.wait hs
  have hothers := (AsyncLatch.step_frame hs).others
  refine WaitForVector.work_main (fun i => ?_) ?_
  · refine Nat.add_le_add_left ?_ _
    unfold latchWork
    rw [hothers _ (waiterOf_ne_self i), htoken, Function.update_of_ne (waiterOf_ne_self i)]
  · show MainPc.work n .waiting + latchWork l' self < s.main.work n + latchWork s.latch self
    have hlatch : latchWork l' self = 10 := by
      unfold latchWork
      rw [hawait, htoken, Function.update_self]
      rfl
    rw [hlatch, hm]
    simp only [MainPc.work]
    omega

/-- A step of a waiter that leaves the latch alone. -/
theorem Inv.work_setWaiter (h : Inv n s) {q : WaiterPc} (hi : s.waiter i ≠ .unborn)
    (hlt : q.work < (s.waiter i).work) : (s.setWaiter i q).work n < s.work n := by
  have hsame : (s.setWaiter i q).main.work n + latchWork (s.setWaiter i q).latch self ≤
      s.main.work n + latchWork s.latch self := Nat.le_refl _
  refine work_waiter (h.lt_of_born hi) hsame (fun j hj => ?_) ?_
  · show (Function.update s.waiter i q j).work + _ ≤ _
    rw [Function.update_of_ne hj]
    exact Nat.le_refl _
  · show (Function.update s.waiter i q i).work + _ < _
    rw [Function.update_self]
    exact Nat.add_lt_add_right hlt _

theorem Inv.work_complete (h : Inv n s) {a : α} {inside : Bool}
    (hi : s.waiter i = .inside ∨ s.waiter i = .suspended) (hs : s.complete i a inside = some s') :
    s'.work n < s.work n := by
  have hborn : s.waiter i ≠ .unborn := by rcases hi with hi | hi <;> simp [hi]
  have hwork : 22 ≤ (s.waiter i).work := by rcases hi with hi | hi <;> rw [hi] <;> decide
  obtain ⟨hidle, -, rfl⟩ := complete_eq_some hs
  obtain ⟨hself, hothers⟩ := latchWork_call hidle one false
  refine work_waiter (h.lt_of_born hborn) ?_ (fun j hj => ?_) ?_
  · exact Nat.add_le_add_left (hothers self (waiterOf_ne_self i).symm).le _
  · show (Function.update s.waiter i (.counting inside) j).work + latchWork _ (waiterOf j) ≤ _
    rw [Function.update_of_ne hj]
    exact Nat.add_le_add_left (hothers (waiterOf j) fun heq => hj (waiterOf_inj.mp heq)).le _
  · show (Function.update s.waiter i (.counting inside) i).work + latchWork _ (waiterOf i) < _
    rw [Function.update_self, hself]
    have hcounting : (WaiterPc.counting inside).work = 5 := rfl
    omega

/-- **Every step that does not fail spuriously brings the end nearer.** -/
theorem Inv.work (h : Inv n s) {a : Action α} (hs : WaitForVector.step n s a = some s') :
    s'.work n ≤ s.work n ∧ (a.spurious = false → s'.work n < s.work n) := by
  have hlt : s'.work n < s.work n →
      s'.work n ≤ s.work n ∧ (a.spurious = false → s'.work n < s.work n) :=
    fun hlt => ⟨hlt.le, fun _ => hlt⟩
  cases a with
  | main spurious => exact h.work_main hs
  | wait p t =>
      simp only [WaitForVector.step] at hs
      split at hs
      · rename_i hc
        obtain ⟨l', hl', rfl⟩ := onLatch_eq_some hs
        exact hlt (h.work_wait hc.1 hl')
      · cases hs
  | suspend i =>
      simp only [WaitForVector.step] at hs
      split at hs
      · rename_i hi
        obtain rfl := Option.some.inj hs
        exact hlt (h.work_setWaiter (by simp [hi]) (by rw [hi]; decide))
      · cases hs
  | complete i a =>
      simp only [WaitForVector.step] at hs
      split at hs
      · rename_i hi
        exact hlt (h.work_complete (Or.inl hi) hs)
      · rename_i hi
        exact hlt (h.work_complete (Or.inr hi) hs)
      · cases hs
  | waiter i spurious =>
      simp only [WaitForVector.step] at hs
      split at hs
      · rename_i inside hi
        have hborn : s.waiter i ≠ .unborn := by simp [hi]
        split at hs
        · obtain rfl := Option.some.inj hs
          exact hlt (h.work_setWaiter hborn (by simp [hi, WaiterPc.work]))
        · obtain ⟨l', hl', rfl⟩ := onLatch_eq_some hs
          exact h.latch.work_advance (Nat.succ_lt_succ (h.lt_of_born hborn)) hl'
      · cases hs

/-! ## No run ends early -/

/-- As long as a waiter is not over, it has a next step. -/
theorem Inv.waiter_enabled (h : Inv n s) (hborn : s.waiter i ≠ .unborn) (hdone : s.waiter i ≠ .done) :
    ∃ a s', WaitForVector.step n s a = some s' := by
  have hon := h.waiter i
  cases hi : s.waiter i with
  | unborn => exact absurd hi hborn
  | done => exact absurd hi hdone
  | inside => exact ⟨.suspend i, s.setWaiter i .suspended, by simp [WaitForVector.step, hi]⟩
  | suspended =>
      rw [hi] at hon
      have hidle : s.latch.pc (waiterOf i) = .idle := hon.1
      refine ⟨.complete i default, ?_⟩
      simp only [WaitForVector.step, hi, State.complete, State.onLatch, State.setWaiter,
        AsyncLatch.step, hidle, if_true]
      exact ⟨_, rfl⟩
  | counting inside =>
      rw [hi] at hon
      refine ⟨.waiter i false, ?_⟩
      simp only [WaitForVector.step, hi]
      split
      · exact ⟨_, rfl⟩
      · rename_i hne
        have hpc : s.latch.pc (waiterOf i) = .fetchSub one false ∨
            s.latch.pc (waiterOf i) = .unpausing false := by
          rcases hon with ⟨hpc, -⟩ | ⟨hpc | hpc, -⟩
          · exact Or.inl hpc
          · exact Or.inr hpc
          · exact absurd hpc hne
        obtain ⟨l', hl'⟩ := h.latch.enabled hne (by rcases hpc with hpc | hpc <;> simp [hpc])
          (by rcases hpc with hpc | hpc <;> simp [hpc])
        exact ⟨{ s with latch := l' }, by simp [State.onLatch, AsyncLatch.step, hl']⟩

/-- `wait_for` has a next step as long as it is not over, once its waiters are. -/
theorem Inv.main_enabled (h : Inv n s) (hall : ∀ i, s.waiter i = .unborn ∨ s.waiter i = .done)
    (hdone : s.main ≠ .done) : ∃ a s', WaitForVector.step n s a = some s' := by
  have hon := h.main
  cases hm : s.main with
  | done => exact absurd hm hdone
  | ret => exact ⟨.main false, _, by simp only [WaitForVector.step, State.advance, hm]; rfl⟩
  | inside count =>
      refine ⟨.main false, ?_⟩
      simp only [WaitForVector.step, State.advance, hm]
      rcases hall count with hw | hw <;> rw [hw] <;> exact ⟨_, rfl⟩
  | start count =>
      rw [hm] at hon
      refine ⟨.main false, ?_⟩
      simp only [WaitForVector.step, State.advance, hm]
      split
      · exact ⟨_, rfl⟩
      · simp only [State.onLatch, AsyncLatch.step, hon.1, if_true]
        exact ⟨_, rfl⟩
  | arriving =>
      rw [hm] at hon
      by_cases harrived : s.latch.pc self = .arrived
      · -- any address is free
        have hfree := h.fresh (by rw [hm]; rfl) (Addr.nth 0).val
        have hidle : s.latch.complete.pc self = .idle :=
          h.latch.complete_idle (by simp [harrived]) (by simp [harrived])
        refine ⟨.wait (.nth 0) ⟨0⟩, ?_⟩
        simp [WaitForVector.step, hm, harrived, State.onLatch, AsyncLatch.step,
          AsyncLatch.State.inside, AsyncLatch.State.goto, PauseToken.step, hidle, hfree]
      · have hpc : s.latch.pc self = .fetchSub one true ∨ s.latch.pc self = .unpausing true := by
          rcases hon with ⟨hpc, -⟩ | ⟨hpc | hpc, -⟩
          · exact Or.inl hpc
          · exact Or.inr hpc
          · exact absurd hpc harrived
        obtain ⟨l', hl'⟩ := h.latch.enabled (c := self)
          (by rcases hpc with hpc | hpc <;> simp [hpc]) harrived
          (by rcases hpc with hpc | hpc <;> simp [hpc])
        refine ⟨.main false, { s with latch := l' }, ?_⟩
        simp [WaitForVector.step, State.advance, hm, State.onLatch, AsyncLatch.step, hl']
  | waiting =>
      rw [hm] at hon
      refine ⟨.main false, ?_⟩
      simp only [WaitForVector.step, State.advance, hm]
      split
      · exact ⟨_, rfl⟩
      · rename_i hne
        have hawait : s.latch.pc self = .awaiting :=
          hon.1.resolve_right fun hidle => hne hidle.1
        -- all have counted down and nobody is in `unpause`
        have hcounted : ∀ c < n.val + 1, c ∈ counted s.latch := by
          intro c hc
          cases c with
          | zero => exact hon.2
          | succ i =>
              have hw := h.waiter i
              have hborn : s.waiter i ≠ .unborn := by
                rw [h.born i, hm]
                exact Nat.lt_of_succ_lt_succ hc
              rw [(hall i).resolve_left hborn] at hw
              exact hw.2
        have hnobody : ∀ c wait, s.latch.pc c ≠ .unpausing wait := by
          intro c wait
          cases c with
          | zero => rw [show s.latch.pc 0 = .awaiting from hawait]; simp
          | succ i =>
              have hw := h.waiter i
              have hidle : s.latch.pc (waiterOf i) = .idle := by
                rcases hall i with hi | hi <;> rw [hi] at hw <;> exact hw.1
              rw [show s.latch.pc (i + 1) = .idle from hidle]
              simp
        obtain ⟨l', hl'⟩ := h.latch.enabled hne (by simp [hawait])
          fun _ => h.latch.nobody hcounted hnobody
        exact ⟨{ s with latch := l' }, by simp [State.onLatch, AsyncLatch.step, hl']⟩

theorem Inv.runs (h : Inv n s) (hstuck : ∀ a, WaitForVector.step n s a = none) :
    s.completed.length = 1 := by
  have hall : ∀ i, s.waiter i = .unborn ∨ s.waiter i = .done := by
    intro i
    by_contra hne
    rw [not_or] at hne
    obtain ⟨a, s', hs'⟩ := h.waiter_enabled hne.1 hne.2
    rw [hstuck a] at hs'
    cases hs'
  have hdone : s.main = .done := by
    by_contra hdone
    obtain ⟨a, s', hs'⟩ := h.main_enabled hall hdone
    rw [hstuck a] at hs'
    cases hs'
  rw [h.completed, if_pos hdone]
  rfl

/-- **`wait_for` over a vector of futures completes once, after all of them, with their values.** -/
theorem waitFor_waitsForAll (hr : Reachable n s) : WaitsForAll n s := by
  have h := hr.inv
  refine ⟨?_, fun r hmem => ?_, h.empty, fun a s' hs => h.work hs, h.runs⟩
  · rw [h.completed]
    split <;> simp
  · rw [h.completed] at hmem
    split at hmem
    · rename_i hdone
      obtain rfl := List.mem_singleton.mp hmem
      refine ⟨h.length, fun i hi => ?_⟩
      obtain ⟨a, ha⟩ := Option.isSome_iff_exists.mp
        (h.completed_of_counted (h.after (Or.inr hdone) i hi))
      refine ⟨a, ha, ?_⟩
      rw [h.result i hi, ha]
      rfl
    · cases hmem

/-- The first future completes at once. The second one suspends, and `wait_for` is suspended when it
completes. -/
def oneSuspends : List (Action Nat) :=
  [.main false, .complete 0 7, .waiter 0 false, .waiter 0 false, .main false, .main false,
    .suspend 1, .main false, .main false, .main false, .wait (.nth 0) ⟨0⟩, .main false,
    .main false, .main false, .complete 1 8, .waiter 1 false, .waiter 1 false, .waiter 1 false,
    .waiter 1 false, .waiter 1 false, .main false, .main false, .main false]

theorem waitFor_waitsForAll_oneSuspends : ∃ s, run (WaitForVector.step 2) anyStep (init 2) oneSuspends =
    some s ∧ s.completed = [[7, 8]] ∧ WaitsForAll 2 s := by
  have hend : (run (WaitForVector.step 2) anyStep (init 2) oneSuspends).map State.completed =
      some [[7, 8]] := by decide +kernel
  obtain ⟨s, hs, hcompleted⟩ := Option.map_eq_some_iff.mp hend
  exact ⟨s, hs, hcompleted, waitFor_waitsForAll (Reaches.run (Reaches.start rfl) hs)⟩

end

end Zab.WaitForVector
