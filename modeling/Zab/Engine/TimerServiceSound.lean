import Zab.Engine.TimerService
import Mathlib.Data.List.TakeWhile

set_option autoImplicit false

/-! # When the timers are right

The counter `current_` is the timer's idea of the present, and it is right only at a settime.
Two things follow. A mark computed from `current_` some time after the last settime is too low
by the time that has passed, and its handle is resumed early, unless the `wait` restarts the
timer. A restart, on the other hand, forgets the time that has passed for all other marks and
pushes them back. Outside these two situations the service keeps its promises; the invariants
`Safe` and `Prompt` bound the time at which a mark is reached from below and from above.
-/

namespace Zab.TimerService

open Automaton

section

variable {η : Type} {s s' : State η} {w : Waiting η}

/-! ## The map -/

/-- The marks, in order. -/
def keys (w : Waiting η) : List Nat := w.map Prod.fst

theorem mem_keys {k : Nat} : k ∈ keys w ↔ ∃ es, (k, es) ∈ w := by simp [keys]

theorem mem_emplace {k : Nat} {es : List (Entry η)} {m : Nat × List (Entry η)} :
    m ∈ emplace k es w ↔ m = (k, es) ∨ m ∈ w := by
  induction w with
  | nil => simp [emplace]
  | cons a w ih =>
      simp only [emplace]
      split
      · simp
      · simp only [List.mem_cons, ih]
        exact or_left_comm

theorem mem_keys_emplace {k j : Nat} {es : List (Entry η)} :
    j ∈ keys (emplace k es w) ↔ j = k ∨ j ∈ keys w := by
  simp only [mem_keys, mem_emplace, Prod.mk.injEq]
  constructor
  · rintro ⟨bs, ⟨hj, -⟩ | hb⟩
    · exact Or.inl hj
    · exact Or.inr ⟨bs, hb⟩
  · rintro (hj | ⟨bs, hb⟩)
    · exact ⟨es, Or.inl ⟨hj, rfl⟩⟩
    · exact ⟨bs, Or.inr hb⟩

theorem emplace_ne_nil (k : Nat) (es : List (Entry η)) : emplace k es w ≠ [] :=
  List.ne_nil_of_mem (mem_emplace.mpr (Or.inl rfl))

theorem sorted_emplace {k : Nat} {es : List (Entry η)} (hs : (keys w).Pairwise (· < ·))
    (hk : k ∉ keys w) : (keys (emplace k es w)).Pairwise (· < ·) := by
  induction w with
  | nil => simp [emplace, keys]
  | cons a w ih =>
      simp only [keys, List.map_cons, List.pairwise_cons, List.mem_cons, not_or] at hs hk
      simp only [emplace]
      split
      · rename_i hlt
        simp only [keys, List.map_cons, List.pairwise_cons, List.mem_cons]
        refine ⟨?_, hs⟩
        rintro b (rfl | hb)
        · exact hlt
        · exact Nat.lt_trans hlt (hs.1 b hb)
      · rename_i hge
        simp only [keys, List.map_cons, List.pairwise_cons]
        refine ⟨fun b hb => ?_, ih hs.2 hk.2⟩
        rcases mem_keys_emplace.mp hb with rfl | hb
        · omega
        · exact hs.1 b hb

/-- The mark at the front of the map is the smallest. -/
theorem head_le {k : Nat} (hs : (keys w).Pairwise (· < ·)) (hk : (keys w).head? = some k) :
    ∀ j ∈ keys w, k ≤ j := by
  cases hw : keys w with
  | nil => simp
  | cons a l =>
      rw [hw] at hs hk
      obtain rfl : a = k := by simpa using hk
      intro j hj
      rcases List.mem_cons.mp hj with rfl | hj
      · exact Nat.le_refl _
      · exact (List.pairwise_cons.mp hs).1 j hj |>.le

/-- A new mark is at the front exactly when it is below all others. -/
theorem head_emplace {k : Nat} (es : List (Entry η)) (hs : (keys w).Pairwise (· < ·))
    (hk : k ∉ keys w) :
    (keys (emplace k es w)).head? = if ∀ j ∈ keys w, k < j then some k else (keys w).head? := by
  cases w with
  | nil => simp [emplace, keys]
  | cons a w =>
      have hfront := head_le hs (k := a.1) rfl
      have ha : a.1 ∈ keys (a :: w) := by simp [keys]
      have hne : a.1 ≠ k := fun h => hk (h ▸ ha)
      simp only [emplace]
      split
      · rename_i hlt
        rw [if_pos fun j hj => Nat.lt_of_lt_of_le hlt (hfront j hj)]
        rfl
      · rename_i hge
        rw [if_neg fun hall => hge (hall a.1 ha)]
        rfl

theorem keys_emplaceBack (k : Nat) (e : Entry η) : keys (emplaceBack k e w) = keys w := by
  simp only [keys, emplaceBack, List.map_map]
  refine List.map_congr_left fun m _ => ?_
  simp only [Function.comp]
  split <;> rfl

/-- What an entry of the map after `emplace_back` was before. -/
theorem mem_emplaceBack {k : Nat} {e e' : Entry η} {m : Nat × List (Entry η)}
    (hm : m ∈ emplaceBack k e w) (he : e' ∈ m.2) :
    (m.1 = k ∧ e' = e) ∨ ∃ es, (m.1, es) ∈ w ∧ e' ∈ es := by
  obtain ⟨a, ha, rfl⟩ := List.mem_map.mp hm
  split at he
  · rename_i hk
    rw [if_pos hk]
    rcases List.mem_append.mp he with he | he
    · exact Or.inr ⟨a.2, ha, he⟩
    · exact Or.inl ⟨hk, by simpa using he⟩
  · rename_i hk
    rw [if_neg hk]
    exact Or.inr ⟨a.2, ha, he⟩

/-! ## Arithmetic of the marks -/

theorem sub64_add64 {c n : Nat} (hc : c < 2 ^ 64) (hn : n < 2 ^ 64) : sub64 (add64 c n) c = n := by
  unfold sub64 add64
  omega

/-- Moving the counter by `x` brings every mark nearer by at most `x`. -/
theorem sub64_le_add {c k x : Nat} (hc : c < 2 ^ 64) :
    sub64 k c ≤ x + sub64 k (add64 c x) := by
  unfold sub64 add64
  omega

/-- A mark that the counter has reached was at most as far away as the counter was moved, if
the counter was moved at least to the first mark `f`. -/
theorem sub64_le_of_reached {c f k x : Nat} (hc : c < 2 ^ 64) (hk : k < 2 ^ 64)
    (hf : f ≤ k) (hx : sub64 f c ≤ x) (hr : k ≤ add64 c x) : sub64 k c ≤ x := by
  unfold sub64 add64 at *
  omega

@[simp] theorem nanos_split (n : Nat) :
    Timespec.nanos ⟨n / kNanoInSeconds, n % kNanoInSeconds⟩ = n :=
  Nat.div_add_mod n kNanoInSeconds

/-! ## What `wait` does -/

/-- The mark of a wait of `n` nanoseconds would be the first of the map. -/
def State.becomesFront (s : State η) (n : Nat) : Prop :=
  ∀ m ∈ s.waiting, add64 s.current n < m.1

instance (s : State η) (n : Nat) : Decidable (s.becomesFront n) :=
  inferInstanceAs (Decidable (∀ m ∈ s.waiting, _))

theorem becomesFront_iff {n : Nat} :
    s.becomesFront n ↔ ∀ j ∈ keys s.waiting, add64 s.current n < j := by
  simp [State.becomesFront, keys]

theorem all_ne_iff {k : Nat} : s.waiting.all (·.1 ≠ k) = true ↔ k ∉ keys s.waiting := by
  rw [keys, List.mem_map, not_exists, List.all_eq_true]
  exact forall_congr' fun m => by simp

/-- A call of `wait` whose mark is new: it restarts the timer if the mark comes first. -/
theorem wait_new (hs : (keys s.waiting).Pairwise (· < ·)) {n : Nat}
    (hk : add64 s.current n ∉ keys s.waiting) (handle : η) (thread currentId : ThreadT) :
    s.wait handle n thread currentId = { s with
      waiting := emplace (add64 s.current n) [⟨handle, currentId, s.now, n⟩] s.waiting
      timer := if s.becomesFront n then ⟨⟨n / kNanoInSeconds, n % kNanoInSeconds⟩, s.now, 0⟩
        else s.timer } := by
  have hhead := head_emplace [⟨handle, currentId, s.now, n⟩] hs hk
  have hmap : ((emplace (add64 s.current n) [⟨handle, currentId, s.now, n⟩] s.waiting).head?.map
      Prod.fst) = (keys (emplace (add64 s.current n) [⟨handle, currentId, s.now, n⟩]
        s.waiting)).head? := by
    simp [keys]
  simp only [State.wait, if_pos (all_ne_iff.mpr hk), hmap, hhead]
  by_cases hfront : s.becomesFront n
  · rw [if_pos (becomesFront_iff.mp hfront), if_pos rfl, if_pos hfront]
    rfl
  · rw [if_neg (fun h => hfront (becomesFront_iff.mpr h)), if_neg hfront, if_neg]
    intro heq
    exact hk (List.mem_of_mem_head? (by rw [heq]; rfl))

/-- A call of `wait` that joins a mark. -/
theorem wait_joins {n : Nat} (hk : add64 s.current n ∈ keys s.waiting) (handle : η)
    (thread currentId : ThreadT) :
    s.wait handle n thread currentId = { s with
      waiting := emplaceBack (add64 s.current n) ⟨handle, thread, s.now, n⟩ s.waiting } := by
  simp only [State.wait]
  rw [if_neg (fun hall => all_ne_iff.mp hall hk)]

/-- A call of `wait` restarts the timer, or leaves it alone; in any case the new entry is the
only thing added to the map. -/
theorem wait_cases (hs : (keys s.waiting).Pairwise (· < ·)) (handle : η) (n : Nat)
    (thread currentId : ThreadT) :
    ∃ e : Entry η, e.due = s.now + n ∧
      ((s.becomesFront n ∧ s.wait handle n thread currentId = { s with
          waiting := emplace (add64 s.current n) [e] s.waiting
          timer := ⟨⟨n / kNanoInSeconds, n % kNanoInSeconds⟩, s.now, 0⟩ }) ∨
        (¬ s.becomesFront n ∧ ∃ w, s.wait handle n thread currentId = { s with waiting := w } ∧
          (keys w).Pairwise (· < ·) ∧ (keys w).head? = (keys s.waiting).head? ∧
          (∀ k ∈ keys w, k = add64 s.current n ∨ k ∈ keys s.waiting) ∧
          ∀ m ∈ w, ∀ e' ∈ m.2, (m.1 = add64 s.current n ∧ e' = e) ∨
            ∃ es, (m.1, es) ∈ s.waiting ∧ e' ∈ es)) := by
  by_cases hk : add64 s.current n ∈ keys s.waiting
  · refine ⟨⟨handle, thread, s.now, n⟩, rfl, Or.inr ⟨fun hfront => ?_,
      emplaceBack (add64 s.current n) ⟨handle, thread, s.now, n⟩ s.waiting, wait_joins hk ..,
      ?_, ?_, ?_, ?_⟩⟩
    · exact Nat.lt_irrefl _ (becomesFront_iff.mp hfront _ hk)
    · rw [keys_emplaceBack]; exact hs
    · rw [keys_emplaceBack]
    · rw [keys_emplaceBack]
      exact fun k hk => Or.inr hk
    · exact fun m hm e' he' => mem_emplaceBack hm he'
  · refine ⟨⟨handle, currentId, s.now, n⟩, rfl, ?_⟩
    have hwait := wait_new hs hk handle thread currentId
    by_cases hfront : s.becomesFront n
    · rw [if_pos hfront] at hwait
      exact Or.inl ⟨hfront, hwait⟩
    · rw [if_neg hfront] at hwait
      refine Or.inr ⟨hfront, _, hwait, sorted_emplace hs hk, ?_, ?_, ?_⟩
      · rw [head_emplace _ hs hk, if_neg (fun h => hfront (becomesFront_iff.mpr h))]
      · exact fun k hk => mem_keys_emplace.mp hk
      · intro m hm e' he'
        rcases mem_emplace.mp hm with rfl | hm
        · exact Or.inl ⟨rfl, by simpa using he'⟩
        · exact Or.inr ⟨m.2, hm, he'⟩

/-! ## What `run()` does -/

/-- The handles that `run()` resumes when it has moved the counter to `c`. -/
def State.expired (s : State η) (c : Nat) : List (Entry η) :=
  (s.waiting.takeWhile (·.1 ≤ c)).flatMap Prod.snd

/-- The marks above `c` stay. -/
def State.pending (s : State η) (c : Nat) : Waiting η := s.waiting.dropWhile (·.1 ≤ c)

theorem runLoop_cases {n c : Nat} (hn : n ≠ 0)
    (hc : c = add64 s.current (s.timer.interval.nanos * n)) :
    (s.pending c = [] ∧ s.runLoop n = { s with
        run := .reading, current := 0, waiting := [], timer := ⟨⟨0, 0⟩, s.now, 0⟩
        dispatched := s.dispatched ++ (s.expired c).map fun e => (e, s.now) }) ∨
      ∃ m l, s.pending c = m :: l ∧ s.runLoop n = { s with
        run := .reading, current := c, waiting := m :: l
        timer := ⟨⟨sub64 m.1 c / kNanoInSeconds, sub64 m.1 c % kNanoInSeconds⟩, s.now, 0⟩
        dispatched := s.dispatched ++ (s.expired c).map fun e => (e, s.now) } := by
  subst hc
  simp only [State.runLoop, ne_eq, hn, not_false_eq_true, if_true]
  split
  · rename_i hw
    refine Or.inl ⟨hw, ?_⟩
    simp only [State.settime]
    rw [show s.waiting.dropWhile _ = [] from hw]
    rfl
  · rename_i m l hw
    refine Or.inr ⟨m, l, hw, ?_⟩
    simp only [State.changeTimer, State.settime]
    rw [show s.waiting.dropWhile _ = m :: l from hw]
    rfl

/-! ## When no timer fires early

The counter `current_` stands for the time of the last settime: a mark `k` is reached no
earlier than `k - current_` after it. So an entry whose mark was computed from `current_` at
that very time, or that restarted the timer itself, is never early. -/

/-- No entry can be resumed before it is due. -/
structure Safe (s : State η) : Prop where
  current : s.current < 2 ^ 64
  marks : ∀ k ∈ keys s.waiting, k < 2 ^ 64
  sorted : (keys s.waiting).Pairwise (· < ·)
  timer : ∀ k, (keys s.waiting).head? = some k → s.timer.interval.nanos = sub64 k s.current
  clock : s.timer.setAt ≤ s.now
  read : ∀ n, s.run = .readDone n → s.timer.setAt + s.timer.interval.nanos * n ≤ s.now
  bound : ∀ m ∈ s.waiting, ∀ e ∈ m.2, e.due ≤ s.timer.setAt + sub64 m.1 s.current
  noneEarly : NoneEarly s

theorem add64_lt (a b : Nat) : add64 a b < 2 ^ 64 := Nat.mod_lt _ (by decide)

/-- A `wait` before an expiration is read, that restarts the timer or comes at the time it was
last set. -/
theorem Safe.wait (h : Safe s) {handle : η} {n : Nat} {thread currentId : ThreadT}
    (hn : n < 2 ^ 64) (hrun : s.run = .reading) (hok : s.now = s.timer.setAt ∨ s.becomesFront n) :
    Safe (s.wait handle n thread currentId) := by
  have hdist := sub64_add64 h.current hn
  obtain ⟨e, hdue, ⟨hfront, heq⟩ | ⟨hfront, w, heq, hsorted, hhead, hkeys, hmem⟩⟩ :=
    wait_cases h.sorted handle n thread currentId
  · -- the timer is set for the new mark, from this time on
    rw [heq]
    have hk : add64 s.current n ∉ keys s.waiting :=
      fun hk => Nat.lt_irrefl _ (becomesFront_iff.mp hfront _ hk)
    refine ⟨h.current, ?_, sorted_emplace h.sorted hk, ?_, Nat.le_refl _, ?_, ?_, h.noneEarly⟩
    · intro k hk
      rcases mem_keys_emplace.mp hk with rfl | hk
      · exact add64_lt ..
      · exact h.marks k hk
    · intro k hhead
      rw [head_emplace _ h.sorted hk, if_pos (becomesFront_iff.mp hfront)] at hhead
      obtain rfl := Option.some.inj hhead
      rw [hdist]
      exact nanos_split n
    · intro m hm
      rw [hrun] at hm; cases hm
    · intro m hm e' he'
      rcases mem_emplace.mp hm with rfl | hm
      · obtain rfl : e' = e := by simpa using he'
        rw [hdue, hdist]
      · exact Nat.le_trans (h.bound m hm e' he') (Nat.add_le_add_right h.clock _)
  · -- the timer goes on, and this is the time at which it was set
    rw [heq]
    have hnow : s.now = s.timer.setAt := hok.resolve_right hfront
    refine ⟨h.current, ?_, hsorted, ?_, h.clock, h.read, ?_, h.noneEarly⟩
    · intro k hk
      rcases hkeys k hk with rfl | hk
      · exact add64_lt ..
      · exact h.marks k hk
    · intro k hk
      rw [hhead] at hk
      exact h.timer k hk
    · intro m hm e' he'
      rcases hmem m hm e' he' with ⟨hm1, rfl⟩ | ⟨es, hes, he'⟩
      · rw [hm1, hdue, hdist, hnow]
      · exact h.bound (m.1, es) hes e' he'

theorem mem_keys_of_mem {m : Nat × List (Entry η)} (hm : m ∈ w) : m.1 ∈ keys w :=
  List.mem_map_of_mem hm

theorem mem_of_mem_pending {c : Nat} {m : Nat × List (Entry η)} (hm : m ∈ s.pending c) :
    m ∈ s.waiting := (List.dropWhile_sublist _).subset hm

theorem sorted_pending {c : Nat} (hs : (keys s.waiting).Pairwise (· < ·)) :
    (keys (s.pending c)).Pairwise (· < ·) :=
  hs.sublist ((List.dropWhile_sublist _).map Prod.fst)

/-- What `run()` resumes was under a mark that the counter has reached. -/
theorem mem_expired {c : Nat} {e : Entry η} (he : e ∈ s.expired c) :
    ∃ m ∈ s.waiting, e ∈ m.2 ∧ m.1 ≤ c := by
  obtain ⟨m, hm, he⟩ := List.mem_flatMap.mp he
  exact ⟨m, (List.takeWhile_sublist _).subset hm, he, by simpa using List.mem_takeWhile_imp hm⟩

/-- **An expiration is processed**: what is resumed is due, and the counter has moved no
further than the clock. -/
theorem Safe.resume (h : Safe s) {n : Nat} (hrun : s.run = .readDone n) : Safe (s.runLoop n) := by
  by_cases hn : n = 0
  · -- a read of no expirations changes nothing
    subst hn
    exact { h with read := fun _ hr => by cases hr }
  obtain ⟨x, hx⟩ : ∃ x, x = s.timer.interval.nanos * n := ⟨_, rfl⟩
  obtain ⟨c, hc⟩ : ∃ c, c = add64 s.current x := ⟨_, rfl⟩
  have helapsed : s.timer.setAt + x ≤ s.now := hx ▸ h.read n hrun
  have hexpired : ∀ e ∈ s.expired c, e.due ≤ s.now := by
    intro e he
    obtain ⟨m, hm, he, hreached⟩ := mem_expired he
    have hmk := mem_keys_of_mem hm
    obtain ⟨f, hf⟩ : ∃ f, (keys s.waiting).head? = some f :=
      Option.isSome_iff_exists.mp (List.isSome_head?.mpr (List.ne_nil_of_mem hmk))
    have hfirst : sub64 f s.current ≤ x := by
      rw [← h.timer f hf, hx]
      exact Nat.le_mul_of_pos_right _ (Nat.pos_of_ne_zero hn)
    have hdist := sub64_le_of_reached h.current (h.marks m.1 hmk) (head_le h.sorted hf m.1 hmk)
      hfirst (hc ▸ hreached)
    have := h.bound m hm e he
    omega
  have hnone : ∀ d ∈ s.dispatched ++ (s.expired c).map (fun e => (e, s.now)), d.1.due ≤ d.2 := by
    intro d hd
    rcases List.mem_append.mp hd with hd | hd
    · exact h.noneEarly d hd
    · obtain ⟨e, he, rfl⟩ := List.mem_map.mp hd
      exact hexpired e he
  rcases runLoop_cases hn (hx ▸ hc) with ⟨hw, heq⟩ | ⟨m, l, hw, heq⟩
  · -- nothing is left, and `current_` starts at 0 again
    rw [heq]
    refine ⟨by simp, ?_, ?_, ?_, Nat.le_refl _, ?_, ?_, hnone⟩
    · simp [keys]
    · simp [keys]
    · simp [keys]
    · intro k hk; cases hk
    · simp
  · -- the timer is set for the first mark that is left
    rw [heq, ← hw]
    refine ⟨hc ▸ add64_lt .., ?_, sorted_pending h.sorted, ?_, Nat.le_refl _, ?_, ?_, hnone⟩
    · intro k hk
      obtain ⟨es, hm⟩ := mem_keys.mp hk
      exact h.marks k (mem_keys.mpr ⟨es, mem_of_mem_pending hm⟩)
    · intro k hk
      rw [hw] at hk
      obtain rfl : m.1 = k := by simpa [keys] using hk
      exact nanos_split _
    · intro k hk; cases hk
    · intro a ha e he
      have h1 := h.bound a (mem_of_mem_pending ha) e he
      have h2 := sub64_le_add (k := a.1) (x := x) h.current
      rw [← hc] at h2
      show e.due ≤ s.now + sub64 a.1 c
      omega

/-- As many intervals have passed as there are expirations. -/
theorem elapsed_of_expirations (h : s.timer.setAt ≤ s.now) :
    s.timer.setAt + s.timer.interval.nanos * s.expirations ≤ s.now := by
  unfold State.expirations
  generalize s.timer.interval.nanos = v
  have hdiv := Nat.mul_div_le (s.now - s.timer.setAt) v
  have hle : v * ((s.now - s.timer.setAt) / v - s.timer.consumed)
      ≤ v * ((s.now - s.timer.setAt) / v) := Nat.mul_le_mul_left _ (Nat.sub_le _ _)
  omega

theorem Safe.read_step (h : Safe s) : Safe { s with
    run := .readDone s.expirations
    timer := { s.timer with consumed := s.timer.consumed + s.expirations } } := by
  refine { h with read := ?_ }
  intro n hn
  cases hn
  exact elapsed_of_expirations h.clock

/-- Every `wait` is issued before the next expiration is read, and it becomes the front of the
map or is issued at the very time of the last settime. -/
def onTime (s : State η) : Action η → Prop
  | .wait _ ns _ _ =>
      1 ≤ ns.val ∧ s.run = .reading ∧ (s.now = s.timer.setAt ∨ s.becomesFront ns.val)
  | _ => True

instance : ∀ (s : State η) (a : Action η), Decidable (onTime s a)
  | _, .wait _ _ _ _ => inferInstanceAs (Decidable (_ ∧ _ ∧ (_ ∨ _)))
  | _, .tick _ | _, .read | _, .resume => inferInstanceAs (Decidable True)

theorem Safe.step {a : Action η} (h : Safe s) (hok : onTime s a) (hs : step s a = some s') :
    Safe s' := by
  cases a with
  | tick d =>
      obtain rfl := Option.some.inj hs
      exact { h with
        clock := Nat.le_add_right_of_le h.clock
        read := fun n hn => Nat.le_add_right_of_le (h.read n hn) }
  | wait handle ns thread currentId =>
      obtain rfl := Option.some.inj hs
      exact h.wait ns.isLt hok.2.1 hok.2.2
  | read =>
      simp only [TimerService.step] at hs
      split at hs
      · obtain rfl := Option.some.inj hs
        exact h.read_step
      · cases hs
  | resume =>
      simp only [TimerService.step] at hs
      split at hs
      · cases hs
      · rename_i n hrun
        obtain rfl := Option.some.inj hs
        exact h.resume hrun

theorem safe_init : Safe (init η) := by
  refine ⟨by simp [init], ?_, ?_, ?_, Nat.le_refl _, ?_, ?_, ?_⟩
  all_goals simp [init, keys, NoneEarly]

/-- **No timer fires early** in a run whose waits are all on time. -/
theorem timerService_noneEarly (h : Reaches step onTime (· = init η) s) : NoneEarly s := by
  have hsafe : Safe s := by
    refine Reaches.invariant (I := Safe) h ?_ ?_
    · rintro s rfl
      exact safe_init
    · intro s a s' _ ih hok hs
      exact ih.step hok hs
  exact hsafe.noneEarly

/-! ## When no timer is pushed back

The distance of a mark from the counter, counted from the last settime, is then also an upper
bound: a restart of the timer must not forget time that has already passed. -/

/-- No entry has to wait longer than until it is due. -/
structure Prompt (s : State η) : Prop where
  current : s.current < 2 ^ 64
  marks : ∀ k ∈ keys s.waiting, s.current < k ∧ k < 2 ^ 64
  sorted : (keys s.waiting).Pairwise (· < ·)
  timer : ∀ k, (keys s.waiting).head? = some k → s.timer.interval.nanos = k - s.current
  empty : s.waiting = [] → s.timer.interval.nanos = 0 ∧ s.current = 0
  clock : s.timer.setAt ≤ s.now
  next : s.timer.interval.nanos ≠ 0 → s.now ≤ s.timer.setAt + s.timer.interval.nanos
  reading : s.run = .reading → s.timer.consumed = 0
  read : ∀ n, s.run = .readDone n →
    n = 1 ∧ s.timer.consumed = 1 ∧ s.now = s.timer.setAt + s.timer.interval.nanos ∧ s.waiting ≠ []
  bound : ∀ m ∈ s.waiting, ∀ e ∈ m.2, s.timer.setAt + (m.1 - s.current) ≤ e.due

theorem Prompt.nonePushedBack (h : Prompt s) : NonePushedBack s := by
  intro m hm e he
  have hmk := mem_keys_of_mem hm
  obtain ⟨f, hf⟩ : ∃ f, (keys s.waiting).head? = some f :=
    Option.isSome_iff_exists.mp (List.isSome_head?.mpr (List.ne_nil_of_mem hmk))
  have h1 := h.timer f hf
  have h2 := (h.marks f (List.mem_of_mem_head? hf)).1
  have h3 := head_le h.sorted hf m.1 hmk
  have h4 := h.bound m hm e he
  have hnext : s.nextExpiration = s.timer.setAt + s.timer.interval.nanos := by
    unfold State.nextExpiration
    cases hrun : s.run with
    | reading => simp [h.reading hrun]
    | readDone n =>
        obtain ⟨rfl, hcons, -⟩ := h.read n hrun
        simp [hcons]
  rw [hnext]
  exact ⟨by omega, by omega⟩

/-- A `wait` that does not restart a running timer late. -/
theorem Prompt.wait (h : Prompt s) {handle : η} {n : Nat} {thread currentId : ThreadT}
    (hn : 1 ≤ n) (hsum : s.current + n < 2 ^ 64) (hrun : s.run = .reading)
    (hok : s.becomesFront n → s.waiting ≠ [] → s.now = s.timer.setAt) :
    Prompt (s.wait handle n thread currentId) := by
  have hadd : add64 s.current n = s.current + n := Nat.mod_eq_of_lt hsum
  obtain ⟨e, hdue, ⟨hfront, heq⟩ | ⟨hfront, w, heq, hsorted, hhead, hkeys, hmem⟩⟩ :=
    wait_cases h.sorted handle n thread currentId
  · -- the timer is set for the new mark
    rw [heq]
    have hk : add64 s.current n ∉ keys s.waiting :=
      fun hk => Nat.lt_irrefl _ (becomesFront_iff.mp hfront _ hk)
    have hnanos := nanos_split n
    refine ⟨h.current, ?_, sorted_emplace h.sorted hk, ?_, ?_, Nat.le_refl _, ?_, fun _ => rfl,
      ?_, ?_⟩
    · intro k hk
      rcases mem_keys_emplace.mp hk with hk | hk
      · show s.current < k ∧ k < 2 ^ 64
        omega
      · exact h.marks k hk
    · intro k hhead
      rw [head_emplace _ h.sorted hk, if_pos (becomesFront_iff.mp hfront)] at hhead
      obtain rfl := Option.some.inj hhead
      rw [hadd, Nat.add_sub_cancel_left]
      exact hnanos
    · intro hnil
      exact (emplace_ne_nil _ _ hnil).elim
    · intro _
      exact Nat.le_add_right ..
    · intro k hk
      rw [hrun] at hk; cases hk
    · intro m hm e' he'
      show s.now + (m.1 - s.current) ≤ e'.due
      rcases mem_emplace.mp hm with rfl | hm
      · obtain rfl : e' = e := by simpa using he'
        rw [hdue, hadd, Nat.add_sub_cancel_left]
      · have := h.bound m hm e' he'
        rw [hok hfront (List.ne_nil_of_mem hm)]
        exact this
  · -- the timer goes on; it was set no later than now
    rw [heq]
    have hne : s.waiting ≠ [] := by
      intro hnil
      exact hfront (by simp [State.becomesFront, hnil])
    refine ⟨h.current, ?_, hsorted, ?_, ?_, h.clock, h.next, h.reading, ?_, ?_⟩
    · intro k hk
      rcases hkeys k hk with rfl | hk
      · show s.current < add64 s.current n ∧ add64 s.current n < 2 ^ 64
        omega
      · exact h.marks k hk
    · intro k hk
      rw [hhead] at hk
      exact h.timer k hk
    · intro hnil
      rw [show w = [] from hnil] at hhead
      have : keys s.waiting = [] := List.head?_eq_none_iff.mp hhead.symm
      exact absurd (List.map_eq_nil_iff.mp this) hne
    · intro k hk
      rw [hrun] at hk; cases hk
    · intro m hm e' he'
      have hclock := h.clock
      rcases hmem m hm e' he' with ⟨hm1, rfl⟩ | ⟨es, hes, he'⟩
      · show s.timer.setAt + (m.1 - s.current) ≤ e'.due
        rw [hm1, hdue, hadd]
        omega
      · exact h.bound (m.1, es) hes e' he'

/-- The marks that stay are above the counter. -/
theorem lt_of_mem_pending {c : Nat} (hs : (keys s.waiting).Pairwise (· < ·)) :
    ∀ k ∈ keys (s.pending c), c < k := by
  cases hp : s.pending c with
  | nil => simp [keys]
  | cons m l =>
      have hm : c < m.1 := by
        have := List.head?_dropWhile_not
          (fun m : Nat × List (Entry η) => decide (m.1 ≤ c)) s.waiting
        rw [show s.waiting.dropWhile _ = m :: l from hp] at this
        simpa using this
      have hsorted := sorted_pending (c := c) hs
      rw [hp] at hsorted
      intro k hk
      exact Nat.lt_of_lt_of_le hm (head_le hsorted rfl k hk)

/-- **An expiration is processed at once**: the counter moves exactly as far as the clock. -/
theorem Prompt.resume (h : Prompt s) {n : Nat} (hrun : s.run = .readDone n) :
    Prompt (s.runLoop n) := by
  obtain ⟨rfl, hcons, hnow, hne⟩ := h.read n hrun
  obtain ⟨f, hf⟩ : ∃ f, (keys s.waiting).head? = some f := by
    refine Option.isSome_iff_exists.mp (List.isSome_head?.mpr ?_)
    simpa [keys] using hne
  have htimer := h.timer f hf
  have hfm := h.marks f (List.mem_of_mem_head? hf)
  have hc : f = add64 s.current (s.timer.interval.nanos * 1) := by
    rw [Nat.mul_one, htimer, add64, Nat.mod_eq_of_lt (by omega)]
    omega
  rcases runLoop_cases (by decide) hc with ⟨hw, heq⟩ | ⟨m, l, hw, heq⟩
  · -- nothing is left
    rw [heq]
    refine ⟨by simp, ?_, ?_, ?_, fun _ => ⟨rfl, rfl⟩, Nat.le_refl _,
      fun _ => Nat.le_add_right .., fun _ => rfl, ?_, ?_⟩
    · simp [keys]
    · simp [keys]
    · simp [keys]
    · intro k hk; cases hk
    · simp
  · -- counter and clock have both come to the mark `f`
    rw [heq, ← hw]
    have hlt := lt_of_mem_pending (c := f) h.sorted
    have hmarks : ∀ k ∈ keys (s.pending f), f < k ∧ k < 2 ^ 64 := by
      intro k hk
      obtain ⟨es, hm⟩ := mem_keys.mp hk
      exact ⟨hlt k hk, (h.marks k (mem_keys.mpr ⟨es, mem_of_mem_pending hm⟩)).2⟩
    refine ⟨hfm.2, hmarks, sorted_pending h.sorted, ?_, ?_, Nat.le_refl _,
      fun _ => Nat.le_add_right .., fun _ => rfl, ?_, ?_⟩
    · intro k hk
      have hkm := hmarks k (List.mem_of_mem_head? hk)
      rw [hw] at hk
      obtain rfl : m.1 = k := by simpa [keys] using hk
      refine (nanos_split _).trans ?_
      show sub64 m.1 f = m.1 - f
      unfold sub64
      omega
    · intro hnil
      rw [show s.pending f = [] from hnil] at hw
      cases hw
    · intro k hk; cases hk
    · intro a ha e he
      have h1 := h.bound a (mem_of_mem_pending ha) e he
      have h2 := hlt a.1 (mem_keys_of_mem ha)
      show s.now + (a.1 - f) ≤ e.due
      omega

/-- `prompt` processing, and every `wait` that becomes the front of a map with other marks is
issued at the very time of the last settime; marks do not wrap. -/
def promptOnTime (s : State η) (a : Action η) : Prop :=
  prompt s a ∧ match a with
    | .wait _ ns _ _ => s.current + ns.val < 2 ^ 64 ∧
        (s.becomesFront ns.val → s.waiting ≠ [] → s.now = s.timer.setAt)
    | _ => True

theorem Prompt.step {a : Action η} (h : Prompt s) (hok : promptOnTime s a)
    (hs : step s a = some s') : Prompt s' := by
  cases a with
  | tick d =>
      obtain ⟨⟨hrun, hle⟩, -⟩ := hok
      obtain rfl := Option.some.inj hs
      refine { h with clock := Nat.le_add_right_of_le h.clock, next := fun hne => ?_, read := ?_ }
      · have := hle.resolve_left hne
        rw [h.reading hrun, Nat.zero_add, Nat.one_mul] at this
        exact this
      · intro n hn
        rw [hrun] at hn; cases hn
  | wait handle ns thread currentId =>
      obtain rfl := Option.some.inj hs
      exact h.wait hok.1.2 hok.2.1 hok.1.1 hok.2.2
  | read =>
      simp only [TimerService.step] at hs
      split at hs
      · rename_i hen
        obtain rfl := Option.some.inj hs
        have hcons := h.reading hen.1
        have helapsed := elapsed_of_expirations h.clock
        have hpos : s.timer.interval.nanos ≠ 0 := by
          intro hz
          simp [State.expirations, hz] at hen
        have hnext := h.next hpos
        -- the clock has not gone past the expiration, so there is only one
        have hone : s.expirations = 1 := by
          have hle : (s.now - s.timer.setAt) / s.timer.interval.nanos ≤ 1 :=
            Nat.div_le_of_le_mul (by omega)
          have : s.expirations ≤ (s.now - s.timer.setAt) / s.timer.interval.nanos := Nat.sub_le _ _
          omega
        refine { h with reading := ?_, read := ?_ }
        · intro hr; cases hr
        intro n hn
        cases hn
        rw [hone] at helapsed ⊢
        refine ⟨rfl, by rw [hcons], ?_, ?_⟩
        · show s.now = s.timer.setAt + s.timer.interval.nanos
          omega
        · intro hnil
          exact hpos (h.empty hnil).1
      · cases hs
  | resume =>
      simp only [TimerService.step] at hs
      split at hs
      · cases hs
      · rename_i n hrun
        obtain rfl := Option.some.inj hs
        exact h.resume hrun

theorem prompt_init : Prompt (init η) := by
  refine ⟨by simp [init], ?_, ?_, ?_, fun _ => ⟨rfl, rfl⟩, Nat.le_refl _, ?_, fun _ => rfl, ?_, ?_⟩
  all_goals simp [init, keys, Timespec.nanos]

/-- **No pending timer is pushed back** in a prompt run whose restarts are on time. -/
theorem timerService_nonePushedBack (h : Reaches step promptOnTime (· = init η) s) :
    NonePushedBack s := by
  have hprompt : Prompt s := by
    refine Reaches.invariant (I := Prompt) h ?_ ?_
    · rintro s rfl
      exact prompt_init
    · intro s a s' _ ih hok hs
      exact ih.step hok hs
  exact hprompt.nonePushedBack

/-! ## Waits that are not on time -/

instance : ∀ (s : State η) (a : Action η), Decidable (prompt s a)
  | _, .tick _ => inferInstanceAs (Decidable (_ ∧ (_ ∨ _)))
  | _, .wait _ _ _ _ => inferInstanceAs (Decidable (_ ∧ _))
  | _, .read | _, .resume => inferInstanceAs (Decidable True)

instance : ∀ (s : State η) (a : Action η), Decidable (promptOnTime s a)
  | _, .wait _ _ _ _ => inferInstanceAs (Decidable (_ ∧ _ ∧ (_ → _ → _)))
  | _, .tick _ | _, .read | _, .resume => inferInstanceAs (Decidable (_ ∧ True))

end

/-- Waits of 10 and 25 at time 0 and one of 3 at time 4; all are resumed. -/
def threeWaits : List (Action Nat) :=
  [.wait 1 10 ⟨0⟩ ⟨0⟩, .wait 2 25 ⟨0⟩ ⟨0⟩, .tick 4, .wait 3 3 ⟨1⟩ ⟨0⟩, .tick 3, .read, .resume,
    .tick 7, .read, .resume, .tick 15, .read, .resume]

theorem timerService_noneEarly_threeWaits :
    ∃ s, run step onTime (init Nat) threeWaits = some s ∧
      s.dispatched.map (fun d => (d.1.handle, d.1.due, d.2)) =
        [(3, 7, 7), (1, 10, 14), (2, 25, 29)] ∧
      NoneEarly s := by
  obtain ⟨s, hs, h1⟩ : ∃ s, run step onTime (init Nat) threeWaits = some s ∧
      s.dispatched.map (fun d => (d.1.handle, d.1.due, d.2))
        = [(3, 7, 7), (1, 10, 14), (2, 25, 29)] := ⟨_, rfl, rfl⟩
  exact ⟨s, hs, h1, timerService_noneEarly (Reaches.run (Reaches.start rfl) hs)⟩

/-- A wait of 10 at time 9 joins the mark of a wait of 10 at time 0, and is resumed with it. -/
theorem timerService_early : ∃ s : State Nat, Reachable s ∧
    s.dispatched.map (fun d => (d.1.handle, d.1.due, d.2)) = [(1, 10, 10), (2, 19, 10)] ∧
    ¬ NoneEarly s := by
  obtain ⟨s, hs, h1⟩ : ∃ s, run step positive (init Nat)
      [.wait 1 10 ⟨0⟩ ⟨0⟩, .tick 9, .wait 2 10 ⟨0⟩ ⟨0⟩, .tick 1, .read, .resume] = some s ∧
        s.dispatched = [(⟨1, ⟨0⟩, 0, 10⟩, 10), (⟨2, ⟨0⟩, 9, 10⟩, 10)] := ⟨_, rfl, rfl⟩
  refine ⟨s, Reaches.run (Reaches.start rfl) hs, by rw [h1]; rfl, fun h => ?_⟩
  have := h (⟨2, ⟨0⟩, 9, 10⟩, 10) (by rw [h1]; simp)
  exact absurd this (by decide)

/-- Waits of 10 and 25 at time 0, one of 5 at the same time; the first is resumed, and a wait of
30 comes in. -/
def fourWaits : List (Action Nat) :=
  [.wait 1 10 ⟨0⟩ ⟨0⟩, .wait 2 25 ⟨0⟩ ⟨0⟩, .wait 3 5 ⟨1⟩ ⟨0⟩, .tick 5, .read, .resume, .tick 2,
    .wait 4 30 ⟨0⟩ ⟨0⟩]

theorem timerService_nonePushedBack_fourWaits :
    ∃ s, run step promptOnTime (init Nat) fourWaits = some s ∧ s.nextExpiration = 10 ∧
      (s.waiting.map fun m => m.2.map fun e => (e.handle, e.due)) =
        [[(1, 10)], [(2, 25)], [(4, 37)]] ∧
      NonePushedBack s := by
  obtain ⟨s, hs, h1, h2⟩ : ∃ s, run step promptOnTime (init Nat) fourWaits = some s ∧
      s.nextExpiration = 10 ∧ (s.waiting.map fun m => m.2.map fun e => (e.handle, e.due))
        = [[(1, 10)], [(2, 25)], [(4, 37)]] := ⟨_, rfl, rfl, rfl⟩
  exact ⟨s, hs, h1, h2, timerService_nonePushedBack (Reaches.run (Reaches.start rfl) hs)⟩

/-- A wait of 9 at time 5 restarts the timer, and the wait of 10 from time 0 must wait until 14. -/
theorem timerService_pushedBack : ∃ s : State Nat, Reaches step prompt (· = init Nat) s ∧
    s.waiting.map (fun m => m.2.map fun e => (e.handle, e.due)) = [[(2, 14)], [(1, 10)]] ∧
    s.nextExpiration = 14 ∧ ¬ NonePushedBack s := by
  obtain ⟨s, hs, h1, h2⟩ : ∃ s, run step prompt (init Nat)
      [.wait 1 10 ⟨0⟩ ⟨0⟩, .tick 5, .wait 2 9 ⟨0⟩ ⟨0⟩] = some s ∧
        s.waiting = [(9, [⟨2, ⟨0⟩, 5, 9⟩]), (10, [⟨1, ⟨0⟩, 0, 10⟩])] ∧ s.nextExpiration = 14 :=
    ⟨_, rfl, rfl, rfl⟩
  refine ⟨s, Reaches.run (Reaches.start rfl) hs, by rw [h1]; rfl, h2, fun h => ?_⟩
  have := h (10, [⟨1, ⟨0⟩, 0, 10⟩]) (by rw [h1]; simp) ⟨1, ⟨0⟩, 0, 10⟩ (by simp)
  rw [h2] at this
  exact absurd this.2 (by decide)

end Zab.TimerService
