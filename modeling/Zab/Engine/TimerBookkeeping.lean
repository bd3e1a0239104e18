import Zab.Engine.TimerServiceSound

set_option autoImplicit false

/-! # The books of `timer_service`

Whatever the clock does, the service keeps its books: the marks in `waiting_` are ahead of
`current_`, the timer is set to the distance of the first of them, and every handle is either in
the map or has been dispatched. Here the clock is left out. An expiration is processed by `run()`
with any count that a read may have returned, and with the interval that `gettime` reports.

The handle that is passed to `wait` carries what the call was: which mark it asked for, and when.
When the map becomes empty `current_` starts again from `0`, and the marks with it; the time
between two such resets is an epoch, and marks are only compared within one.
-/

namespace Zab.TimerService

open Automaton

/-- A call of `wait`. -/
structure Call (H : Type) where
  handle : H
  /-- The thread to resume the handle in. -/
  thread : ThreadT
  /-- The thread the call is made on. -/
  caller : ThreadT
  mark : Nat
  /-- Whether the mark was in the map already. -/
  joins : Bool
  /-- How often `current_` had been reset. -/
  epoch : Nat
  /-- How many calls were made before. -/
  number : Nat
  deriving DecidableEq

/-- In the order of the marks, and for the same mark in the order of the calls. -/
def Call.Before {H : Type} (c d : Call H) : Prop :=
  c.epoch < d.epoch ∨
    c.epoch = d.epoch ∧ (c.mark < d.mark ∨ c.mark = d.mark ∧ c.number < d.number)

/-- The service, and the calls that were made. -/
structure Logged (H : Type) where
  service : State (Call H)
  epoch : Nat
  calls : List (Call H)

namespace Logged

variable {H : Type}

def init (H : Type) : Logged H := ⟨TimerService.init (Call H), 0, []⟩

/-- The next call. -/
def call (s : Logged H) (handle : H) (nanoSeconds : Nat) (thread currentId : ThreadT) : Call H where
  handle := handle
  thread := thread
  caller := currentId
  mark := add64 s.service.current nanoSeconds
  joins := decide (add64 s.service.current nanoSeconds ∈ keys s.service.waiting)
  epoch := s.epoch
  number := s.calls.length

def wait (s : Logged H) (handle : H) (nanoSeconds : Nat) (thread currentId : ThreadT) : Logged H :=
  let call := s.call handle nanoSeconds thread currentId
  { s with
    service := s.service.wait call nanoSeconds thread currentId
    calls := s.calls ++ [call] }

/-- `run()` processes `readBuffer` expirations. -/
def expire (s : Logged H) (readBuffer : Nat) : Logged H :=
  let service := s.service.runLoop readBuffer
  { s with
    service := service
    epoch := if service.waiting.isEmpty then s.epoch + 1 else s.epoch }

inductive Action (H : Type) where
  | wait (handle : H) (nanoSeconds : Fin (2 ^ 64)) (thread currentId : ThreadT)
  | expire (readBuffer : Nat)
  deriving DecidableEq

/-- An armed timer expires. -/
def step (s : Logged H) : Action H → Option (Logged H)
  | .wait handle ns thread currentId => some (s.wait handle ns.val thread currentId)
  | .expire readBuffer =>
      if 1 ≤ readBuffer ∧ s.service.timer.interval.nanos ≠ 0 then some (s.expire readBuffer)
      else none

/-- Delays are positive, and no sum reaches `2 ^ 64`. -/
def bounded (s : Logged H) : Action H → Prop
  | .wait _ ns _ _ => 1 ≤ ns.val ∧ s.service.current + ns.val < 2 ^ 64
  | .expire readBuffer =>
      s.service.current + s.service.timer.interval.nanos * readBuffer < 2 ^ 64

instance : ∀ (s : Logged H) (a : Action H), Decidable (bounded s a)
  | _, .wait _ _ _ _ => inferInstanceAs (Decidable (_ ∧ _))
  | _, .expire _ => inferInstanceAs (Decidable (_ < _))

end Logged

/-- The handles in the map, in its order. -/
def handles {η : Type} (w : Waiting η) : List η := w.flatMap fun m => m.2.map Entry.handle

/-- The handles that `run()` has dispatched, in the order of the dispatches. -/
def State.resumed {η : Type} (s : State η) : List η := s.dispatched.map fun d => d.1.handle

/-- **The books are in order.** -/
structure Bookkeeping {H : Type} (s : Logged H) : Prop where
  /-- Every mark is ahead of `current_`. -/
  ahead : ∀ k ∈ keys s.service.waiting, s.service.current < k
  /-- A handle is under the mark that its call asked for. -/
  filed : ∀ m ∈ s.service.waiting, ∀ e ∈ m.2, e.handle.mark = m.1
  /-- The timer is armed if and only if somebody waits. -/
  armed : s.service.timer.interval.nanos ≠ 0 ↔ s.service.waiting ≠ []
  /-- Then its interval is the distance of the least mark. -/
  interval : ∀ k, IsLeast { k | k ∈ keys s.service.waiting } k →
    s.service.timer.interval.nanos = k - s.service.current
  /-- To process an expiration removes at least one mark. -/
  removes : ∀ n s', Logged.bounded s (.expire n) → Logged.step s (.expire n) = some s' →
    ∃ k ∈ keys s.service.waiting, k ∉ keys s'.service.waiting
  /-- Handles are dispatched in the order of their marks, and under one mark in the order of the
  calls. -/
  order : s.service.resumed.Pairwise Call.Before
  /-- Every call has its handle in the map or dispatched, and once only. -/
  conserved : s.calls.Perm (s.service.resumed ++ handles s.service.waiting)

/-! ## The handles in the map -/

section

variable {η : Type} {s : State η} {w : Waiting η} {k n : Nat} {e : Entry η}

theorem handles_append (w w' : Waiting η) : handles (w ++ w') = handles w ++ handles w' :=
  List.flatMap_append

theorem handles_emplace (k : Nat) (e : Entry η) (w : Waiting η) :
    (handles (emplace k [e] w)).Perm (e.handle :: handles w) := by
  induction w with
  | nil => simp [handles, emplace]
  | cons m w ih =>
      simp only [emplace]
      split
      · simp [handles]
      · refine (List.Perm.append_left (m.2.map Entry.handle) ih).trans ?_
        exact List.perm_middle

theorem handles_emplaceBack (hs : (keys w).Pairwise (· < ·)) (hk : k ∈ keys w) :
    (handles (emplaceBack k e w)).Perm (e.handle :: handles w) := by
  induction w with
  | nil => cases hk
  | cons m w ih =>
      simp only [keys, List.map_cons, List.pairwise_cons] at hs
      by_cases hm : m.1 = k
      · -- no other mark is equal to the first one
        have hrest : emplaceBack k e w = w := by
          refine (List.map_congr_left fun m' hm' => ?_).trans (List.map_id w)
          have := hs.1 m'.1 (List.mem_map_of_mem hm')
          exact if_neg (by omega)
        have hcons : emplaceBack k e (m :: w) = (m.1, m.2 ++ [e]) :: emplaceBack k e w := by
          simp [emplaceBack, hm]
        rw [hcons, hrest]
        simp only [handles, List.flatMap_cons, List.map_append, List.map_cons, List.map_nil,
          List.append_assoc, List.singleton_append]
        exact List.perm_middle
      · have hcons : emplaceBack k e (m :: w) = m :: emplaceBack k e w := by
          simp [emplaceBack, hm]
        have hk' : k ∈ keys w := (List.mem_cons.mp hk).resolve_left (Ne.symm hm)
        rw [hcons]
        refine (List.Perm.append_left (m.2.map Entry.handle) (ih hs.2 hk')).trans ?_
        exact List.perm_middle

/-- The handles that are resumed and those that stay. -/
theorem handles_split (s : State η) (c : Nat) :
    handles s.waiting = (s.expired c).map Entry.handle ++ handles (s.pending c) := by
  have hexp : (s.expired c).map Entry.handle = handles (s.waiting.takeWhile (·.1 ≤ c)) := by
    simp [State.expired, handles, List.map_flatMap]
  rw [hexp, State.pending, ← handles_append, List.takeWhile_append_dropWhile]

/-- The front of the map is its least mark. -/
theorem head_of_isLeast (hs : (keys w).Pairwise (· < ·)) (hk : IsLeast { k | k ∈ keys w } k) :
    (keys w).head? = some k := by
  cases hw : keys w with
  | nil =>
      rw [hw] at hk
      cases hk.1
  | cons a l =>
      have hle := head_le hs (k := a) (by rw [hw]; rfl) k hk.1
      have hge := hk.2 (show a ∈ keys w by rw [hw]; exact List.mem_cons_self ..)
      rw [List.head?_cons, Nat.le_antisymm hle hge]

end

/-! ## The invariant -/

/-- What holds of the map, and of what has been dispatched. -/
structure Filed {H : Type} (s : Logged H) : Prop where
  current_lt : s.service.current < 2 ^ 64
  sorted : (keys s.service.waiting).Pairwise (· < ·)
  marks : ∀ k ∈ keys s.service.waiting, s.service.current < k ∧ k < 2 ^ 64
  timer : ∀ k, (keys s.service.waiting).head? = some k →
    s.service.timer.interval.nanos = k - s.service.current
  disarmed : s.service.waiting = [] → s.service.timer.interval.nanos = 0
  filed : ∀ m ∈ s.service.waiting, ∀ e ∈ m.2,
    e.handle.mark = m.1 ∧ e.handle.epoch = s.epoch ∧ e.handle.number < s.calls.length
  inOrder : ∀ m ∈ s.service.waiting, m.2.Pairwise fun d e => d.handle.number < e.handle.number
  -- what has been dispatched is of an earlier epoch, or its mark has been reached
  past : ∀ c ∈ s.service.resumed,
    c.epoch < s.epoch ∨ c.epoch = s.epoch ∧ c.mark ≤ s.service.current
  order : s.service.resumed.Pairwise Call.Before
  conserved : s.calls.Perm (s.service.resumed ++ handles s.service.waiting)

theorem filed_init (H : Type) : Filed (Logged.init H) where
  current_lt := by
    show 0 < 2 ^ 64
    decide
  sorted := List.Pairwise.nil
  marks k hk := by cases hk
  timer k hk := by cases hk
  disarmed _ := rfl
  filed m hm := by cases hm
  inOrder m hm := by cases hm
  past c hc := by cases hc
  order := List.Pairwise.nil
  conserved := List.Perm.refl _

section

variable {H : Type} {s s' : Logged H}

/-- The call `c` of a new mark or of one that is there, with the map `w` that results. -/
theorem Filed.call (h : Filed s) {c : Call H} {w : Waiting (Call H)} {timer : TimerFd}
    (hmark : s.service.current < c.mark ∧ c.mark < 2 ^ 64) (hepoch : c.epoch = s.epoch)
    (hnumber : c.number = s.calls.length) (hsorted : (keys w).Pairwise (· < ·))
    (hkeys : ∀ k ∈ keys w, k = c.mark ∨ k ∈ keys s.service.waiting)
    (htimer : ∀ k, (keys w).head? = some k → timer.interval.nanos = k - s.service.current)
    (hne : w ≠ [])
    (hmem : ∀ m ∈ w, ∀ e ∈ m.2, (m.1 = c.mark ∧ e.handle = c) ∨
      ∃ es, (m.1, es) ∈ s.service.waiting ∧ e ∈ es)
    (horder : ∀ m ∈ w, m.2.Pairwise fun d e => d.handle.number < e.handle.number)
    (hperm : (handles w).Perm (c :: handles s.service.waiting)) :
    Filed { s with
      service := { s.service with waiting := w, timer := timer }, calls := s.calls ++ [c] } := by
  have hlen : (s.calls ++ [c]).length = s.calls.length + 1 := List.length_append
  refine { h with
    sorted := hsorted, marks := ?_, timer := htimer, disarmed := ?_, filed := ?_,
    inOrder := horder, conserved := ?_ }
  · intro k hk
    rcases hkeys k hk with rfl | hk
    · exact hmark
    · exact h.marks k hk
  · exact fun hnil => absurd hnil hne
  · intro m hm e he
    show _ ∧ _ ∧ _ < (s.calls ++ [c]).length
    rcases hmem m hm e he with ⟨hm1, hec⟩ | ⟨es, hes, he⟩
    · rw [hec, hlen, hnumber]
      exact ⟨hm1.symm, hepoch, Nat.lt_succ_self _⟩
    · obtain ⟨h1, h2, h3⟩ := h.filed (m.1, es) hes e he
      exact ⟨h1, h2, by omega⟩
  · calc
      (s.calls ++ [c]).Perm (c :: s.calls) := List.perm_append_singleton c s.calls
      List.Perm _ (c :: (s.service.resumed ++ handles s.service.waiting)) :=
        List.Perm.cons c h.conserved
      List.Perm _ (s.service.resumed ++ c :: handles s.service.waiting) := List.perm_middle.symm
      List.Perm _ (s.service.resumed ++ handles w) := List.Perm.append_left _ hperm.symm

/-- The mark of the call is in the map. -/
theorem Filed.joins (h : Filed s) {c : Call H} {entry : Entry (Call H)} (hc : entry.handle = c)
    (hmark : s.service.current < c.mark ∧ c.mark < 2 ^ 64) (hepoch : c.epoch = s.epoch)
    (hnumber : c.number = s.calls.length) (hk : c.mark ∈ keys s.service.waiting) :
    Filed { s with
      service := { s.service with waiting := emplaceBack c.mark entry s.service.waiting }
      calls := s.calls ++ [c] } := by
  have hkeys := keys_emplaceBack (w := s.service.waiting) c.mark entry
  apply h.call hmark hepoch hnumber
  · rw [hkeys]
    exact h.sorted
  · rw [hkeys]
    exact fun k hk => Or.inr hk
  · -- the front of the map and the timer stay
    rw [hkeys]
    exact h.timer
  · intro hnil
    rw [hnil] at hkeys
    rw [← hkeys] at hk
    cases hk
  · intro m hm e he
    rcases mem_emplaceBack hm he with ⟨hm1, rfl⟩ | hold
    · exact Or.inl ⟨hm1, hc⟩
    · exact Or.inr hold
  · intro m hm
    obtain ⟨a, ha, rfl⟩ := List.mem_map.mp hm
    split
    · -- the new call is the last one of its mark
      refine List.pairwise_append.mpr ⟨h.inOrder a ha, List.pairwise_singleton .., ?_⟩
      intro d hd e he
      obtain rfl := List.mem_singleton.mp he
      have := (h.filed a ha d hd).2.2
      rw [hc]
      omega
    · exact h.inOrder a ha
  · rw [← hc]
    exact handles_emplaceBack h.sorted (hc ▸ hk)

/-- The mark of the call is new. -/
theorem Filed.emplaces (h : Filed s) {c : Call H} {entry : Entry (Call H)} {timer : TimerFd}
    (hc : entry.handle = c) (hmark : s.service.current < c.mark ∧ c.mark < 2 ^ 64)
    (hepoch : c.epoch = s.epoch) (hnumber : c.number = s.calls.length)
    (hk : c.mark ∉ keys s.service.waiting)
    (hfront : (∀ j ∈ keys s.service.waiting, c.mark < j) →
      timer.interval.nanos = c.mark - s.service.current)
    (hbehind : ¬ (∀ j ∈ keys s.service.waiting, c.mark < j) → timer = s.service.timer) :
    Filed { s with
      service := { s.service with
        waiting := emplace c.mark [entry] s.service.waiting, timer := timer }
      calls := s.calls ++ [c] } := by
  apply h.call hmark hepoch hnumber (sorted_emplace h.sorted hk)
  · exact fun k hk => mem_keys_emplace.mp hk
  · intro k hhead
    rw [head_emplace _ h.sorted hk] at hhead
    split at hhead
    · -- the new mark comes first, and the timer has been set for it
      rename_i hf
      rw [← Option.some.inj hhead]
      exact hfront hf
    · rename_i hf
      rw [hbehind hf]
      exact h.timer k hhead
  · exact emplace_ne_nil _ _
  · intro m hm e he
    rcases mem_emplace.mp hm with rfl | hm
    · rw [List.mem_singleton.mp he]
      exact Or.inl ⟨rfl, hc⟩
    · exact Or.inr ⟨m.2, hm, he⟩
  · intro m hm
    rcases mem_emplace.mp hm with rfl | hm
    · exact List.pairwise_singleton ..
    · exact h.inOrder m hm
  · rw [← hc]
    exact handles_emplace ..

theorem Filed.wait (h : Filed s) {handle : H} {n : Nat} {thread currentId : ThreadT} (hn : 1 ≤ n)
    (hlt : s.service.current + n < 2 ^ 64) : Filed (s.wait handle n thread currentId) := by
  obtain ⟨c, hc⟩ : ∃ c, s.call handle n thread currentId = c := ⟨_, rfl⟩
  have hadd : add64 s.service.current n = s.service.current + n := Nat.mod_eq_of_lt hlt
  have hmark : add64 s.service.current n = c.mark := by rw [← hc]; rfl
  have hepoch : c.epoch = s.epoch := by rw [← hc]; rfl
  have hnumber : c.number = s.calls.length := by rw [← hc]; rfl
  have hbounds : s.service.current < c.mark ∧ c.mark < 2 ^ 64 := by omega
  simp only [Logged.wait, hc]
  by_cases hk : c.mark ∈ keys s.service.waiting
  · rw [wait_joins (by rw [hmark]; exact hk), hmark]
    exact h.joins rfl hbounds hepoch hnumber hk
  · rw [wait_new h.sorted (by rw [hmark]; exact hk), hmark]
    have hfront := becomesFront_iff (s := s.service) (n := n)
    rw [hmark] at hfront
    refine h.emplaces ?_ hbounds hepoch hnumber hk ?_ ?_
    · rfl
    · intro hf
      rw [if_pos (hfront.mpr hf), nanos_split]
      omega
    · intro hf
      rw [if_neg fun hf' => hf (hfront.mp hf')]

/-! ## Expirations -/

/-- The calls whose handles are resumed when the counter is moved to `c`. -/
theorem Filed.of_mem_expired (h : Filed s) {c : Nat} {d : Call H}
    (hd : d ∈ (s.service.expired c).map Entry.handle) :
    d.epoch = s.epoch ∧ s.service.current < d.mark ∧ d.mark ≤ c := by
  obtain ⟨e, he, rfl⟩ := List.mem_map.mp hd
  obtain ⟨m, hm, hem, hle⟩ := mem_expired he
  obtain ⟨h1, h2, -⟩ := h.filed m hm e hem
  have hlt := (h.marks m.1 (mem_keys_of_mem hm)).1
  rw [h1]
  exact ⟨h2, hlt, hle⟩

/-- The marks are visited in their order, and the handles of a mark in the order of the calls. -/
theorem Filed.batch (h : Filed s) (c : Nat) :
    ((s.service.expired c).map Entry.handle).Pairwise Call.Before := by
  have hsub : List.Sublist (s.service.waiting.takeWhile (·.1 ≤ c)) s.service.waiting :=
    List.takeWhile_sublist _
  have hsorted : (s.service.waiting.takeWhile (·.1 ≤ c)).Pairwise fun a b => a.1 < b.1 :=
    (List.pairwise_map.mp h.sorted).sublist hsub
  rw [State.expired, List.pairwise_map, List.pairwise_flatMap]
  constructor
  · intro m hm
    have hm := hsub.subset hm
    refine (h.inOrder m hm).imp_of_mem fun {d e} hd he hlt => ?_
    obtain ⟨h1, h2, -⟩ := h.filed m hm d hd
    obtain ⟨h3, h4, -⟩ := h.filed m hm e he
    exact Or.inr ⟨h2.trans h4.symm, Or.inr ⟨h1.trans h3.symm, hlt⟩⟩
  · refine hsorted.imp_of_mem fun {a b} ha hb hlt d hd e he => ?_
    obtain ⟨h1, h2, -⟩ := h.filed a (hsub.subset ha) d hd
    obtain ⟨h3, h4, -⟩ := h.filed b (hsub.subset hb) e he
    exact Or.inr ⟨h2.trans h4.symm, Or.inl (by rw [h1, h3]; exact hlt)⟩

theorem Filed.order_append (h : Filed s) (c : Nat) :
    (s.service.resumed ++ (s.service.expired c).map Entry.handle).Pairwise Call.Before := by
  refine List.pairwise_append.mpr ⟨h.order, h.batch c, fun d hd e he => ?_⟩
  -- `d` was dispatched when its mark was reached, and the mark of `e` is still ahead
  obtain ⟨hepoch, hlt, -⟩ := h.of_mem_expired he
  rcases h.past d hd with hd | ⟨hd, hle⟩
  · exact Or.inl (by omega)
  · exact Or.inr ⟨hd.trans hepoch.symm, Or.inl (by omega)⟩

theorem Filed.conserved_split (h : Filed s) (c : Nat) :
    s.calls.Perm (s.service.resumed ++ (s.service.expired c).map Entry.handle ++
      handles (s.service.pending c)) := by
  rw [List.append_assoc, ← handles_split]
  exact h.conserved

/-- The least mark is reached by a single expiration. -/
theorem Filed.front_le (h : Filed s) {n : Nat} (hn : 1 ≤ n)
    (harmed : s.service.timer.interval.nanos ≠ 0) : ∃ k, (keys s.service.waiting).head? = some k ∧
      k ≤ s.service.current + s.service.timer.interval.nanos * n := by
  cases hw : s.service.waiting with
  | nil => exact absurd (h.disarmed hw) harmed
  | cons m l =>
      have hk : (keys s.service.waiting).head? = some m.1 := by rw [hw]; rfl
      have htimer := h.timer m.1 hk
      have hmark := (h.marks m.1 (List.mem_of_mem_head? hk)).1
      have hone : s.service.timer.interval.nanos * 1 ≤ s.service.timer.interval.nanos * n :=
        Nat.mul_le_mul_left _ hn
      exact ⟨m.1, rfl, by omega⟩

/-- What is dispatched when the counter is moved to `c`. -/
theorem resumed_append {t : State (Call H)} {c : Nat} (ht : t.dispatched =
      s.service.dispatched ++ (s.service.expired c).map fun e => (e, s.service.now)) :
    t.resumed = s.service.resumed ++ (s.service.expired c).map Entry.handle := by
  simp [State.resumed, ht]

/-- The map is empty, and a new epoch begins. -/
theorem Filed.reset (h : Filed s) {t : State (Call H)} {c : Nat} (hp : s.service.pending c = [])
    (hr : t.resumed = s.service.resumed ++ (s.service.expired c).map Entry.handle)
    (hcurrent : t.current = 0) (hwaiting : t.waiting = []) (htimer : t.timer.interval = ⟨0, 0⟩) :
    Filed { s with service := t, epoch := s.epoch + 1 } where
  current_lt := by
    show t.current < 2 ^ 64
    omega
  sorted := by
    rw [hwaiting]
    exact List.Pairwise.nil
  marks k hk := by
    rw [hwaiting] at hk
    cases hk
  timer k hk := by
    rw [hwaiting] at hk
    cases hk
  disarmed _ := by
    rw [htimer]
    rfl
  filed m hm := by
    rw [hwaiting] at hm
    cases hm
  inOrder m hm := by
    rw [hwaiting] at hm
    cases hm
  past d hd := by
    -- everything so far is of an epoch that is over
    refine Or.inl ?_
    show d.epoch < s.epoch + 1
    rw [hr] at hd
    rcases List.mem_append.mp hd with hd | hd
    · have := h.past d hd
      omega
    · have := (h.of_mem_expired hd).1
      omega
  order := by
    rw [hr]
    exact h.order_append c
  conserved := by
    have hconserved := h.conserved_split c
    rw [hp] at hconserved
    rw [hr, hwaiting]
    exact hconserved

/-- The counter is moved on to `c`, and the timer is set to the distance of the next mark. -/
theorem Filed.moveOn (h : Filed s) {t : State (Call H)} {c : Nat} {m : Nat × List (Entry (Call H))}
    {l : Waiting (Call H)} (hp : s.service.pending c = m :: l) (hc : s.service.current ≤ c)
    (hc' : c < 2 ^ 64)
    (hr : t.resumed = s.service.resumed ++ (s.service.expired c).map Entry.handle)
    (hcurrent : t.current = c) (hwaiting : t.waiting = s.service.pending c)
    (htimer : t.timer.interval.nanos = sub64 m.1 c) : Filed { s with service := t } := by
  have hsub : ∀ m ∈ s.service.pending c, m ∈ s.service.waiting := fun m hm =>
    mem_of_mem_pending hm
  have hmarks : ∀ k ∈ keys (s.service.pending c), c < k ∧ k < 2 ^ 64 := by
    intro k hk
    obtain ⟨es, hm⟩ := mem_keys.mp hk
    exact ⟨lt_of_mem_pending h.sorted k hk, (h.marks k (mem_keys.mpr ⟨es, hsub _ hm⟩)).2⟩
  constructor
  · show t.current < 2 ^ 64
    omega
  · rw [hwaiting]
    exact sorted_pending h.sorted
  · rw [hwaiting, hcurrent]
    exact hmarks
  · intro k hk
    rw [hwaiting] at hk
    have hfront : m.1 = k := by
      rw [hp] at hk
      exact Option.some.inj hk
    have hk := hmarks k (List.mem_of_mem_head? hk)
    show t.timer.interval.nanos = k - t.current
    rw [htimer, hcurrent, hfront, sub64]
    omega
  · -- the map is not empty, so that the timer may run on
    intro hnil
    rw [hwaiting, hp] at hnil
    cases hnil
  · rw [hwaiting]
    exact fun m hm => h.filed m (hsub m hm)
  · rw [hwaiting]
    exact fun m hm => h.inOrder m (hsub m hm)
  · intro d hd
    rw [hr] at hd
    show _ ∨ _ ∧ d.mark ≤ t.current
    rw [hcurrent]
    rcases List.mem_append.mp hd with hd | hd
    · exact (h.past d hd).imp_right fun hd => ⟨hd.1, hd.2.trans hc⟩
    · have hd := h.of_mem_expired hd
      exact Or.inr ⟨hd.1, hd.2.2⟩
  · rw [hr]
    exact h.order_append c
  · rw [hr, hwaiting]
    exact h.conserved_split c

theorem Filed.expire (h : Filed s) {n : Nat} (hn : 1 ≤ n)
    (hlt : s.service.current + s.service.timer.interval.nanos * n < 2 ^ 64) :
    Filed (s.expire n) := by
  obtain ⟨c, hc⟩ : ∃ c, c = s.service.current + s.service.timer.interval.nanos * n := ⟨_, rfl⟩
  have hc64 : c = add64 s.service.current (s.service.timer.interval.nanos * n) := by
    rw [hc]
    exact (Nat.mod_eq_of_lt hlt).symm
  simp only [Logged.expire]
  rcases runLoop_cases (by omega) hc64 with ⟨hp, heq⟩ | ⟨m, l, hp, heq⟩
  · have hr := resumed_append (congrArg State.dispatched heq)
    rw [heq] at hr ⊢
    exact h.reset hp hr rfl rfl rfl
  · have hr := resumed_append (congrArg State.dispatched heq)
    rw [heq] at hr ⊢
    exact h.moveOn hp (by omega) (by omega) hr rfl hp.symm (nanos_split _)

/-- The marks after an expiration are those ahead of the counter. -/
theorem Filed.removes (h : Filed s) {n : Nat} (hn : 1 ≤ n)
    (harmed : s.service.timer.interval.nanos ≠ 0)
    (hlt : s.service.current + s.service.timer.interval.nanos * n < 2 ^ 64) :
    ∃ k ∈ keys s.service.waiting, k ∉ keys (s.expire n).service.waiting := by
  obtain ⟨k, hk, hle⟩ := h.front_le hn harmed
  refine ⟨k, List.mem_of_mem_head? hk, ?_⟩
  obtain ⟨c, hc⟩ : ∃ c, c = s.service.current + s.service.timer.interval.nanos * n := ⟨_, rfl⟩
  have hc64 : c = add64 s.service.current (s.service.timer.interval.nanos * n) := by
    rw [hc]
    exact (Nat.mod_eq_of_lt hlt).symm
  have hwaiting : (s.expire n).service.waiting = s.service.pending c := by
    simp only [Logged.expire]
    rcases runLoop_cases (by omega) hc64 with ⟨hp, heq⟩ | ⟨m, l, hp, heq⟩
    · rw [heq, hp]
    · rw [heq, hp]
  rw [hwaiting]
  intro hmem
  have := lt_of_mem_pending h.sorted k hmem
  omega

theorem Filed.step {a : Logged.Action H} (h : Filed s) (hok : Logged.bounded s a)
    (hs : Logged.step s a = some s') : Filed s' := by
  cases a with
  | wait handle ns thread currentId =>
      obtain rfl := Option.some.inj hs
      exact h.wait hok.1 hok.2
  | expire n =>
      simp only [Logged.step] at hs
      split at hs
      · rename_i hn
        obtain rfl := Option.some.inj hs
        exact h.expire hn.1 hok
      · cases hs

theorem Filed.bookkeeping (h : Filed s) : Bookkeeping s where
  ahead k hk := (h.marks k hk).1
  filed m hm e he := (h.filed m hm e he).1
  armed := by
    constructor
    · exact fun harmed hnil => harmed (h.disarmed hnil)
    · intro hne
      obtain ⟨m, l, hw⟩ := List.exists_cons_of_ne_nil hne
      have hk : (keys s.service.waiting).head? = some m.1 := by rw [hw]; rfl
      have htimer := h.timer m.1 hk
      have hmark := (h.marks m.1 (List.mem_of_mem_head? hk)).1
      omega
  interval k hk := h.timer k (head_of_isLeast h.sorted hk)
  removes n s' hok hs := by
    simp only [Logged.step] at hs
    split at hs
    · rename_i hn
      obtain rfl := Option.some.inj hs
      exact h.removes hn.1 hn.2 hok
    · cases hs
  order := h.order
  conserved := h.conserved

/-- **The books of the timer service**, for every interleaving of waits and expirations. -/
theorem timerService_bookkeeping (h : Reaches Logged.step Logged.bounded (· = Logged.init H) s) :
    Bookkeeping s := by
  have hfiled : Filed s := by
    refine h.invariant (I := Filed) ?_ ?_
    · rintro s rfl
      exact filed_init H
    · intro s a s' _ hs hok hstep
      exact hs.step hok hstep
  exact hfiled.bookkeeping

end

/-- A handle joins the mark of another, a third one comes before them, and two expirations of
three nanoseconds are processed at once. -/
theorem timerService_bookkeeping_twoMarks :
    ∃ s, Reaches Logged.step Logged.bounded (· = Logged.init Nat) s ∧
      s.service.resumed.map Call.handle = [3, 1, 2] ∧ s.epoch = 1 ∧
      s.service.timer.interval.nanos = 7 ∧ Bookkeeping s := by
  obtain ⟨s, hs, h1, h2, h3⟩ : ∃ s, run Logged.step Logged.bounded (Logged.init Nat)
      [.wait 1 5 ⟨0⟩ ⟨0⟩, .wait 2 5 ⟨1⟩ ⟨0⟩, .wait 3 3 ⟨0⟩ ⟨0⟩, .expire 2, .wait 4 7 ⟨0⟩ ⟨0⟩] =
        some s ∧
      s.service.resumed.map Call.handle = [3, 1, 2] ∧ s.epoch = 1 ∧
      s.service.timer.interval.nanos = 7 := ⟨_, rfl, rfl, rfl, rfl⟩
  have hr : Reaches Logged.step Logged.bounded (· = Logged.init Nat) s :=
    Reaches.run (Reaches.start rfl) hs
  exact ⟨s, hr, h1, h2, h3, timerService_bookkeeping hr⟩

/-- A handle with mark 10 is dispatched, the map is empty, `current_` starts again from `0`, and a
handle with mark 5 is dispatched after it. -/
theorem timerService_marksStartAgain :
    ∃ s, Reaches Logged.step Logged.bounded (· = Logged.init Nat) s ∧
      s.service.resumed.map Call.mark = [10, 5] ∧
      ¬ (s.service.resumed.map Call.mark).Pairwise (· ≤ ·) := by
  obtain ⟨s, hs, h1⟩ : ∃ s, run Logged.step Logged.bounded (Logged.init Nat)
      [.wait 1 10 ⟨0⟩ ⟨0⟩, .expire 1, .wait 2 5 ⟨0⟩ ⟨0⟩, .expire 1] = some s ∧
      s.service.resumed.map Call.mark = [10, 5] := ⟨_, rfl, rfl⟩
  refine ⟨s, Reaches.run (Reaches.start rfl) hs, h1, ?_⟩
  rw [h1]
  decide

end Zab.TimerService
