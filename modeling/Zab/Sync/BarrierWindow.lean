import Mathlib.Algebra.BigOperators.Group.Finset.Basic
import Zab.Sync.BarrierMemory

set_option autoImplicit false

/-! # The loop of `aquire_window`

`aquire_window` reads `working_set_` again and again until it finds `expected_` entries in it; it
does not yield. `complete_phase` is started when `count_` has gone down far enough, and `count_`
keeps the balance: it is what the phase expects less the arrivals that are in `working_set_` or on
their way there. So there are enough of them, and the round that begins when they have been pushed
is the last.

A phase that leaves nobody is different: `expected_` is 0 then, no counter is above `-expected_`,
and `resume_frames` starts a phase for which nobody will arrive.
-/

namespace Zab.Barrier

open Automaton

/-- The arrivals that have counted `count_` down and not pushed their entry. -/
def State.unpushed (s : State) : Nat :=
  Finset.sum (Finset.range s.arrivals) fun i => (s.arrival i).entry.length

/-- `complete_phase` has been started and has not found its window. -/
def ActivationPc.looking : ActivationPc → Bool
  | .queued | .load | .window _ _ _ _ => true
  | _ => false

/-- **`aquire_window` does not wait in vain.** -/
structure NeverInVain (cfg : Config) (s : State) : Prop where
  /-- While it looks for its window, at least `expected_` arrivals, and at least one, are in
  `working_set_` or on their way there. -/
  enough : ∀ k, (s.activation k).looking = true →
    1 ≤ s.expected ∧ ∃ L, Listed s s.workingSet L ∧ s.expected ≤ L.length + s.unpushed
  /-- If they are in `working_set_` when a round begins, that round is the last, whatever happens
  besides. -/
  last : ∀ k t s₁ L, s.activation k = .load → Listed s s.workingSet L → s.expected ≤ L.length →
    step cfg s (.activation k t) = some s₁ →
    ∀ s₂, Reaches (step cfg) steady (· = s₁) s₂ → s₂.activation k ≠ .load
  /-- And it needs a number of its own steps only. -/
  ends : ∀ k t L, s.activation k = .load → Listed s s.workingSet L → s.expected ≤ L.length →
    ∃ n s₂ start, run (step cfg) steady s (steps k n t) = some s₂ ∧ s₂.activation k = .trim start

/-! ## Lists by their length -/

/-- The word `w` is the root of `n` entries. -/
def Long (s : State) (w : Nat) (n : Int) : Prop := ∃ l, Listed s w l ∧ (l.length : Int) = n

section

variable {cfg : Config} {s s' : State} {L L' W₀ : List Entry} {W : Nat → List Entry} {h : Holder}
  {k i w : Nat} {n : Int} {t : ThreadT}

theorem Listed.length_unique {l l' : List Entry} (h : Listed s w l) (h' : Listed s w l') :
    l.length = l'.length := by
  induction l generalizing w l' with
  | nil => rw [(h'.root_eq_zero).mp h]
  | cons e l ih =>
      have hw : w ≠ 0 := fun h0 => List.cons_ne_nil e l (h.root_eq_zero.mp h0)
      obtain ⟨e', m', rfl, -, hm'⟩ := h'.cons_of_ne hw
      obtain ⟨e₁, m, heq, -, hm⟩ := h.cons_of_ne hw
      obtain ⟨-, rfl⟩ := List.cons.inj heq
      rw [List.length_cons, List.length_cons, ih hm hm']

theorem Listed.long_iff {l : List Entry} (h : Listed s w l) :
    Long s w n ↔ (l.length : Int) = n := by
  constructor
  · rintro ⟨l', hl', rfl⟩
    rw [h.length_unique hl']
  · intro hn
    exact ⟨l, h, hn⟩

theorem Long.nonneg (h : Long s w n) : 0 ≤ n := by
  obtain ⟨l, -, rfl⟩ := h
  exact Int.natCast_nonneg _

theorem Long.zero (h : Long s 0 n) : n = 0 := by
  obtain ⟨l, hl, rfl⟩ := h
  rw [hl.root_eq_zero.mp rfl]
  rfl

/-- One entry further there is one entry less. -/
theorem Long.next (h : Long s w n) (hw : w ≠ 0) : Long s (s.getNext w) (n - 1) := by
  obtain ⟨l, hl, rfl⟩ := h
  obtain ⟨e, l', rfl, -, hl'⟩ := hl.cons_of_ne hw
  refine ⟨l', hl', ?_⟩
  rw [List.length_cons]
  omega

theorem Long.ne_zero (h : Long s w n) (hn : 0 < n) : w ≠ 0 := by
  rintro rfl
  exact absurd h.zero (by omega)

/-- What an activation knows about lengths. In `window` the first `count` entries of the list
that begins at `current` have been seen, and `head` has as many more entries than `ptr` as the
phase expects. -/
def Measured (s : State) : ActivationPc → Prop
  | .window ptr count head current =>
      ∃ r, Long s ptr r ∧ Long s current (count + r) ∧
        if head = 0 then count < s.expected
        else s.expected ≤ count ∧ Long s head (r + s.expected)
  | .trim start | .trimWalk start _ => Long s start s.expected
  | _ => True

theorem measured_of_late {q : ActivationPc} (hq : q.early = false) : Measured s q := by
  cases q with
  | idle | resume ptr saved | test saved => trivial
  | _ => cases hq

/-- What is known about lengths survives as long as the entries of `working_set_` do. -/
theorem Measured.mono {q : ActivationPc} (hq : Measured s q) (hl : q.Lists s L W₀)
    (he : s'.expected = s.expected) (hmem : ∀ e ∈ L, s'.mem e.addr.val = s.mem e.addr.val) :
    Measured s' q := by
  have hlong : ∀ {w : Nat} {l : List Entry} {n : Int}, l <:+ L → Listed s w l → Long s w n →
      Long s' w n := by
    intro w l n hsuf hlist hn
    exact (hlist.congr fun e he => hmem e (hsuf.subset he)).long_iff.mpr (hlist.long_iff.mp hn)
  cases q with
  | window ptr count head current =>
      obtain ⟨-, C, hC, hcur, l, hlC, hptr, hhead⟩ := hl
      obtain ⟨r, hr, hcount, hrest⟩ := hq
      refine ⟨r, hlong (hlC.trans hC) hptr hr, hlong hC hcur hcount, ?_⟩
      rw [he]
      by_cases h0 : head = 0
      · rw [if_pos h0] at hrest ⊢
        exact hrest
      · obtain ⟨m, hmC, -, hm⟩ := hhead.resolve_left h0
        rw [if_neg h0] at hrest ⊢
        exact ⟨hrest.1, hlong (hmC.trans hC) hm hrest.2⟩
  | trim start =>
      obtain ⟨-, m, -, hm, hstart⟩ := hl
      have hq : Long s start s.expected := hq
      rw [← he] at hq
      exact hlong hm hstart hq
  | trimWalk start ptr =>
      obtain ⟨-, m, l, -, hm, -, hl, hstart, -⟩ := hl
      have hq : Long s start s.expected := hq
      rw [← he] at hq
      exact hlong (hm.trans hl) hstart hq
  | _ => trivial

/-! ## The balance of `count_` -/

/-- The balance of `count_`, and what the activations know about lengths. -/
structure Balanced (s : State) (L : List Entry) : Prop where
  count : s.count = (s.activation s.phase).due s.expected - (L.length + s.unpushed : Nat)
  measured : ∀ k, Measured s (s.activation k)

theorem balanced_init (cfg : Config) : Balanced (init cfg) [] where
  count := by
    show cfg.expected = cfg.expected - (0 + 0 : Nat)
    omega
  measured _ := trivial

/-- Steps that leave the counters of the phases and the entries of `working_set_` alone. -/
theorem Balanced.arriving (hb : Balanced s L) (hm : Memory s L W)
    (hmem : ∀ e ∈ L, s'.mem e.addr.val = s.mem e.addr.val) (he : s'.expected = s.expected)
    (hphase : s'.phase = s.phase)
    (hact : ∀ k, s'.activation k = s.activation k ∨
      (s.activation k = .idle ∧ s'.activation k = .load))
    (hcount : s'.count + (L'.length + s'.unpushed : Nat) =
      s.count + (L.length + s.unpushed : Nat)) : Balanced s' L' := by
  constructor
  · have hdue : (s'.activation s.phase).due s.expected = (s.activation s.phase).due s.expected := by
      rcases hact s.phase with hsame | ⟨hidle, hload⟩
      · rw [hsame]
      · rw [hidle, hload]
        rfl
    have := hb.count
    rw [hphase, he, hdue]
    omega
  · intro k
    rcases hact k with hsame | ⟨-, hload⟩
    · rw [hsame]
      exact (hb.measured k).mono (hm.lists k) he hmem
    · rw [hload]
      trivial

/-- The arrivals before number `n` all stay where they are, up to number `i`. -/
theorem sum_entries {f g : Nat → ArrivalPc} {n : Nat} (hi : i < n)
    (hother : ∀ j, j ≠ i → g j = f j) :
    (Finset.sum (Finset.range n) fun j => (g j).entry.length) + (f i).entry.length
      = (Finset.sum (Finset.range n) fun j => (f j).entry.length) + (g i).entry.length := by
  have hmem : i ∈ Finset.range n := Finset.mem_range.mpr hi
  have hrest : Finset.sum ((Finset.range n).erase i) (fun j => (g j).entry.length)
      = Finset.sum ((Finset.range n).erase i) fun j => (f j).entry.length := by
    apply Finset.sum_congr rfl
    intro j hj
    rw [hother j (Finset.ne_of_mem_erase hj)]
  rw [← Finset.sum_erase_add _ _ hmem, ← Finset.sum_erase_add _ _ hmem, hrest]
  omega

/-- A new arrival counts down and is on its way. -/
theorem unpushed_arrive (x : Item) (a : Addr) (m : Node) :
    (s.arrive x a m).unpushed = s.unpushed + 1 := by
  show Finset.sum (Finset.range (s.arrivals + 1)) _ = _
  rw [Finset.sum_range_succ]
  congr 1
  · apply Finset.sum_congr rfl
    intro j hj
    have hne : j ≠ s.arrivals := Nat.ne_of_lt (Finset.mem_range.mp hj)
    show (Function.update s.arrival s.arrivals _ j).entry.length = _
    rw [Function.update_of_ne hne]
  · show (Function.update s.arrival s.arrivals _ s.arrivals).entry.length = 1
    rw [Function.update_self]
    rfl

/-- What an arrival leaves alone. -/
structure Aside (s s' : State) (i : Nat) : Prop where
  count : s'.count = s.count
  expected : s'.expected = s.expected
  phase : s'.phase = s.phase
  arrivals : s'.arrivals = s.arrivals
  activations : s.activations ≤ s'.activations
  arrival : ∀ j, j ≠ i → s'.arrival j = s.arrival j
  activation : ∀ k, s'.activation k = s.activation k ∨
    (k = s.activations ∧ s'.activation k = .load)

theorem aside_arrival {b : Bool} (hs : s.advanceArrival i b = some s') : Aside s s' i := by
  have hmove : ∀ q j, j ≠ i → Function.update s.arrival i q j = s.arrival j :=
    fun q j hj => Function.update_of_ne hj q s.arrival
  cases arrives_of_advance hs with
  | load hi | push hi | again hi =>
      exact ⟨rfl, rfl, rfl, rfl, Nat.le_refl _, hmove _, fun _ => Or.inl rfl⟩
  | call hi =>
      refine ⟨rfl, rfl, rfl, rfl, Nat.le_succ _, hmove _, fun k => ?_⟩
      by_cases hk : k = s.activations
      · right
        rw [hk]
        exact ⟨rfl, Function.update_self ..⟩
      · left
        exact Function.update_of_ne hk _ _

/-- An arrival writes its own entry only. -/
theorem Memory.mem_arrival {b : Bool} {p : Place} (hm : Memory s L W) (hp : p ≠ .arrival i)
    (hs : s.advanceArrival i b = some s') :
    ∀ e ∈ s.held L W p, s'.mem e.addr.val = s.mem e.addr.val := by
  intro e he
  have hne : ∀ {x : Item} {w : Addr}, (s.arrival i).entry = [⟨w, x⟩] → e.addr ≠ w := by
    intro x w hi
    have hw : (⟨w, x⟩ : Entry) ∈ s.held L W (.arrival i) := by simp [State.held, hi]
    exact hm.spread.disjoint p (.arrival i) hp e he _ hw
  cases arrives_of_advance hs with
  | load hi | call hi => rfl
  | push hi | again hi => exact setNext_mem (hne (by rw [hi]; rfl))

/-- One step of an arrival. -/
theorem Balanced.arrival {P : Prop} {b : Bool} (hb : Balanced s L) (hm : Memory s L W)
    (hc : Charge P s h) (hs : s.advanceArrival i b = some s') :
    ∃ L', Memory s' L' W ∧ Balanced s' L' := by
  obtain ⟨M, hm', -, hlen⟩ := hm.arrival (hc.fresh _ (Nat.le_refl _)) hs
  have ha := aside_arrival hs
  have hact : ∀ k, s'.activation k = s.activation k ∨
      (s.activation k = .idle ∧ s'.activation k = .load) := by
    intro k
    refine (ha.activation k).imp_right ?_
    rintro ⟨rfl, hload⟩
    exact ⟨hc.fresh _ (Nat.le_refl _), hload⟩
  refine ⟨M ++ L, hm', hb.arriving hm (hm.mem_arrival (p := .set) (by simp) hs) ha.expected
    ha.phase hact ?_⟩
  have hlt : i < s.arrivals := by
    by_contra hge
    have hidle := hc.freshArrival i (by omega)
    simp [State.advanceArrival, hidle] at hs
  have hsum := sum_entries hlt ha.arrival
  have hcount := ha.count
  unfold State.unpushed
  rw [ha.arrivals, List.length_append]
  omega

/-- A new entry is nowhere else. -/
theorem Memory.mem_arrive {a : Addr} {m : Node} {p : Place} (hm : Memory s L W)
    (hlive : s.live a.val = false) :
    ∀ e ∈ s.held L W p, Function.update s.mem a.val m e.addr.val = s.mem e.addr.val := by
  intro e he
  have hne : e.addr ≠ a := hm.spread.free hlive he
  exact Function.update_of_ne (by simpa using hne) _ _

/-- A new arrival. -/
theorem Balanced.arrive {x : Item} {a : Addr} {m : Node} (busy : Coro → Bool)
    (hb : Balanced s L) (hm : Memory s L W) (hlive : s.live a.val = false) :
    Balanced { s.arrive x a m with busy := busy } L := by
  refine hb.arriving hm (hm.mem_arrive (p := .set) hlive) rfl rfl (fun _ => Or.inl rfl) ?_
  have hsum : State.unpushed { s.arrive x a m with busy := busy } = s.unpushed + 1 :=
    unpushed_arrive x a m
  rw [hsum]
  show s.count - 1 + _ = _
  omega

/-! ## Steps of an activation -/

/-- Only the cut and the `fetch_add` change what `count_` is due. -/
theorem due_step {P : Prop} (hc : Charge P s h) (hs : s.advanceActivation cfg k t = some s')
    (hcut : (s.activation k).cutAt = none ∨ (s'.activation k).cutAt = (s.activation k).cutAt)
    (hadd : ∀ start e, s.activation k ≠ .addCount start e) (j : Nat) (e : Int) :
    (s'.activation j).due e = (s.activation j).due e := by
  have hgo : ∀ {q : ActivationPc} {s' : State},
      s'.activation = Function.update s.activation k q → q.due e = (s.activation k).due e →
      (s'.activation j).due e = (s.activation j).due e := by
    intro q s' hact hq
    rw [hact]
    exact update_unseen (fun p : ActivationPc => p.due e) hq j
  cases activates_of_advance hs with
  | cutAll hp | walkOut hp | cut hptr hp =>
      rw [hp] at hcut
      simp [State.goto, ActivationPc.cutAt] at hcut
  | addCount hp => exact absurd hp (hadd _ _)
  | @release ptr saved hptr hp =>
      rw [hp] at hgo
      obtain ⟨-, -, hact⟩ := sameCounters_release s ptr
      exact hgo (q := .resume (s.getNext ptr) saved) (congrArg (Function.update · k _) hact) rfl
  | pass hle hp =>
      -- the new activation is due what nobody was due before
      rw [hp] at hgo
      have hidle : ((s.goto k .idle).activation j).due e = (s.activation j).due e := hgo rfl rfl
      refine Eq.trans ?_ hidle
      refine update_unseen (fun p : ActivationPc => p.due e) ?_ j
      have hfresh : (s.goto k .idle).activation s.activations = .idle := by
        rw [goto_activation, hc.fresh _ (Nat.le_refl _), ite_self]
      show e = ((s.goto k .idle).activation s.activations).due e
      rw [hfresh]
      rfl
  | begin hp | load hp | again hp | found hhead hp | look hptr hp | walk hroot hp
  | walkOn hptr hnext hp | noFunction hf hp | yield hf hp | callHere hf hp | countDrop hptr hp
  | call hp | finish hp | reduceRead hp | reduceWrite hp | addRead hp | resumed hp | ends hgt hp =>
      rw [hp] at hgo
      exact hgo rfl rfl

/-- An activation leaves the arrivals alone. -/
theorem arrivals_activation (hs : s.advanceActivation cfg k t = some s') :
    s'.arrival = s.arrival ∧ s'.arrivals = s.arrivals := by
  cases activates_of_advance hs with
  | @release ptr saved hptr hp =>
      obtain ⟨hsame, harr, -⟩ := sameCounters_release s ptr
      exact ⟨harr, hsame.arrivals⟩
  | _ => exact ⟨rfl, rfl⟩

theorem unpushed_activation (hs : s.advanceActivation cfg k t = some s') :
    s'.unpushed = s.unpushed := by
  obtain ⟨harr, harrs⟩ := arrivals_activation hs
  unfold State.unpushed
  rw [harr, harrs]

theorem cutAt_eq_some {q : ActivationPc} {start : Nat} (hq : q.cutAt = some start) :
    q = .trim start ∨ ∃ ptr, q = .trimWalk start ptr := by
  cases q with
  | trim start' =>
      obtain rfl := Option.some.inj hq
      exact Or.inl rfl
  | trimWalk start' ptr =>
      obtain rfl := Option.some.inj hq
      exact Or.inr ⟨ptr, rfl⟩
  | _ => cases hq

/-- `resume_frames` gives the places of the next phase to `count_`. -/
theorem Balanced.count_add {P : Prop} {start : Nat} {e : Int} (hb : Balanced s L)
    (hc : Charge P s h) (hp : s.activation k = .addCount start e)
    (hs : s.advanceActivation cfg k t = some s') :
    s'.count = (s'.activation s'.phase).due s'.expected - (L.length + s.unpushed : Nat) := by
  have hcount := hb.count
  obtain ⟨hactive, hk⟩ := hc.of_early (k := k) (by rw [hp]; rfl)
  have he : e = s.expected := by
    have := hc.knows k
    rw [hp] at this
    exact this
  have hnum := hc.number
  rw [if_pos hactive] at hnum
  rw [← hk, hp] at hcount
  simp only [State.advanceActivation, hp] at hs
  obtain rfl := Option.some.inj hs
  have hnext : (Function.update s.activation k (.resume start s.count) (s.phase + 1)).due
      s.expected = s.expected := by
    rw [Function.update_of_ne (by omega), hc.fresh _ (by omega)]
    rfl
  show s.count + e = (Function.update s.activation k _ (s.phase + 1)).due s.expected - _
  rw [hnext, hcount, he]
  simp only [ActivationPc.due]
  omega

/-- The window that is cut off has as many entries as the phase expects. -/
theorem Balanced.count_cut {P : Prop} {start : Nat} {m : List Entry} (hb : Balanced s (L' ++ m))
    (hc : Charge P s h) (hs : s.advanceActivation cfg k t = some s')
    (hcut : (s.activation k).cutAt = some start) (hq : s'.activation k = .drops start start 0)
    (hm : Listed s start m) :
    s'.count = (s'.activation s'.phase).due s'.expected - (L'.length + s.unpushed : Nat) := by
  have hp := cutAt_eq_some hcut
  have hk : k = s.phase := by
    refine (hc.of_early ?_).2
    rcases hp with hp | ⟨ptr, hp⟩ <;> rw [hp] <;> rfl
  have hlen : (m.length : Int) = s.expected := by
    have hmeasured := hb.measured k
    rcases hp with hp | ⟨ptr, hp⟩
    · rw [hp] at hmeasured
      exact hm.long_iff.mp hmeasured
    · rw [hp] at hmeasured
      exact hm.long_iff.mp hmeasured
  have hdue : (s.activation s.phase).due s.expected = s.expected := by
    rw [← hk]
    rcases hp with hp | ⟨ptr, hp⟩ <;> rw [hp] <;> rfl
  have hsame : SameCounters s s' := by
    rcases quiet_step hs with ⟨q, hsame, -⟩ | ⟨start, v, hp⟩ | ⟨start, e, hp⟩ | ⟨saved, hp⟩
    · exact hsame
    all_goals
      rw [hp] at hcut
      cases hcut
  have hdue' : (s'.activation s.phase).due s.expected = 0 := by
    rw [← hk, hq]
    rfl
  rw [hsame.count, hsame.phase, hsame.expected, hdue', hb.count, hdue, List.length_append]
  omega

/-- The balance after a step of an activation. -/
theorem Balanced.count_activation {P : Prop} (hb : Balanced s L) (hc : Charge P s h)
    (hs : s.advanceActivation cfg k t = some s')
    (htakes : Takes s L L' (s.activation k) (s'.activation k)) :
    s'.count = (s'.activation s'.phase).due s'.expected - (L'.length + s'.unpushed : Nat) := by
  have hcount := hb.count
  have hup := unpushed_activation hs
  rw [hup]
  rcases htakes with ⟨rfl, hcut⟩ | ⟨start, m, hcut, hq, rfl, hm⟩
  · -- nothing is cut off
    by_cases hadd : ∃ start e, s.activation k = .addCount start e
    · obtain ⟨start, e, hp⟩ := hadd
      exact hb.count_add hc hp hs
    · have hdue : ∀ e, (s'.activation s.phase).due e = (s.activation s.phase).due e :=
        due_step hc hs hcut (fun start e hp => hadd ⟨start, e, hp⟩) s.phase
      rcases quiet_step hs with ⟨q, hsame, -⟩ | ⟨start, v, hp⟩ | ⟨start, e, hp⟩ | ⟨saved, hp⟩
      · rw [hsame.count, hsame.phase, hsame.expected, hdue]
        exact hcount
      · -- `count_` holds no places when `expected_` is written
        have hk := (hc.of_early (k := k) (by rw [hp]; rfl)).2
        have hzero : ∀ e, (s.activation s.phase).due e = 0 := by
          intro e
          rw [← hk, hp]
          rfl
        simp only [State.advanceActivation, hp] at hs
        obtain rfl := Option.some.inj hs
        have hdue := hdue v
        rw [hzero] at hdue
        rw [hzero] at hcount
        show s.count = _
        rw [hcount, ← hdue]
        rfl
      · exact absurd ⟨start, e, hp⟩ hadd
      · simp only [State.advanceActivation, hp] at hs
        split at hs
        · obtain rfl := Option.some.inj hs
          show s.count = _
          rw [hcount, ← hdue s.expected]
          rfl
        · obtain rfl := Option.some.inj hs
          show s.count = _
          rw [hcount, ← hdue s.expected]
          rfl
  · exact hb.count_cut hc hs hcut hq hm

/-- One more entry has been seen: the head of the window is set for the first time, it moves on, or
there are still too few. -/
theorem Measured.window_next {ptr head current : Nat} {count : Int} (hpos : 1 ≤ s.expected)
    (h : Measured s (.window ptr count head current)) (hne : ptr ≠ 0) :
    Measured s (.window (s.getNext ptr) (count + 1)
      (if count + 1 ≥ s.expected then if head = 0 then current else s.getNext head else head)
      current) := by
  obtain ⟨r, hptr, hcurrent, hhead⟩ := h
  have hr := (hptr.next hne).nonneg
  refine ⟨r - 1, hptr.next hne, ?_, ?_⟩
  · rw [show count + 1 + (r - 1) = count + r by omega]
    exact hcurrent
  by_cases hfull : count + 1 ≥ s.expected
  · have hlong : Long s (if head = 0 then current else s.getNext head) (r - 1 + s.expected) := by
      by_cases h0 : head = 0
      · rw [if_pos h0] at hhead ⊢
        rw [show r - 1 + s.expected = count + r by omega]
        exact hcurrent
      · rw [if_neg h0] at hhead ⊢
        rw [show r - 1 + s.expected = r + s.expected - 1 by omega]
        exact hhead.2.next h0
    rw [if_pos hfull, if_neg (hlong.ne_zero (by omega))]
    exact ⟨hfull, hlong⟩
  · rw [if_neg hfull]
    by_cases h0 : head = 0
    · rw [if_pos h0]
      omega
    · rw [if_neg h0] at hhead
      omega

/-- At the end of the list the window has as many entries as the phase expects. -/
theorem Measured.window_end {head current : Nat} {count : Int}
    (h : Measured s (.window 0 count head current)) (hne : head ≠ 0) :
    Long s head s.expected := by
  obtain ⟨r, hptr, -, hhead⟩ := h
  rw [if_neg hne, hptr.zero, Int.zero_add] at hhead
  exact hhead.2

/-- The test is the last step of an activation, also when it starts another one. -/
theorem idle_of_pass (hfresh : s.activation s.activations = .idle)
    (hidle : s.activation k ≠ .idle) :
    ((s.goto k .idle).completePhase .queued (.test k)).activation k = .idle := by
  have hk : k ≠ s.activations := by
    rintro rfl
    exact hidle hfresh
  exact (Function.update_of_ne hk _ _).trans (goto_self s k .idle)

/-- What activation `k` itself knows after its step. -/
theorem Measured.own (hq : Measured s (s.activation k)) (hlist : Listed s s.workingSet L)
    (hpos : 1 ≤ s.expected) (hfresh : s.activation s.activations = .idle)
    (hs : s.advanceActivation cfg k t = some s') : Measured s' (s'.activation k) := by
  cases activates_of_advance hs with
  | load hp =>
      -- a round begins: nothing has been seen, and all of the list is ahead
      have hlong : Long s s.workingSet L.length := ⟨L, hlist, rfl⟩
      rw [goto_self]
      refine ⟨L.length, hlong, ?_, ?_⟩
      · rw [Int.zero_add]
        exact hlong
      · rw [if_pos rfl]
        exact hpos
  | found hhead hp =>
      rw [hp] at hq
      rw [goto_self]
      exact hq.window_end hhead
  | look hptr hp =>
      rw [hp] at hq
      rw [goto_self]
      exact hq.window_next hpos hptr
  | walk hroot hp | walkOn hptr hnext hp =>
      rw [hp] at hq
      rw [goto_self]
      exact hq
  | pass hle hp =>
      rw [idle_of_pass hfresh (by rw [hp]; exact ActivationPc.noConfusion)]
      trivial
  | begin hp | again hp | cutAll hp | walkOut hp | cut hptr hp | noFunction hf hp | yield hf hp
  | callHere hf hp | countDrop hptr hp | call hp | finish hp | reduceRead hp | reduceWrite hp
  | addRead hp | addCount hp | resumed hp | release hptr hp | ends hgt hp =>
      show Measured _ ((State.goto _ k _).activation k)
      rw [goto_self]
      trivial

/-- The other activations stay where they are, and a new one waits in the queue. -/
theorem others_activation (hs : s.advanceActivation cfg k t = some s') {j : Nat} (hj : j ≠ k) :
    s'.activation j = s.activation j ∨ (j = s.activations ∧ s'.activation j = .queued) := by
  have hgo : ∀ q, Function.update s.activation k q j = s.activation j :=
    fun q => Function.update_of_ne hj q s.activation
  cases activates_of_advance hs with
  | @release ptr saved hptr hp =>
      obtain ⟨-, -, hact⟩ := sameCounters_release s ptr
      exact Or.inl ((congrFun (congrArg (Function.update · k _) hact) j).trans (hgo _))
  | pass hle hp =>
      by_cases hnew : j = s.activations
      · right
        rw [hnew]
        exact ⟨rfl, Function.update_self ..⟩
      · left
        exact (Function.update_of_ne hnew _ _).trans (hgo _)
  | _ => exact Or.inl (hgo _)

/-- After its `fetch_add` an activation changes neither the links nor `expected_`. -/
theorem quiet_late (hs : s.advanceActivation cfg k t = some s')
    (hk : (s.activation k).early = false) : s'.mem = s.mem ∧ s'.expected = s.expected := by
  cases activates_of_advance hs with
  | resumed hp | pass hle hp | ends hgt hp => exact ⟨rfl, rfl⟩
  | @release ptr saved hptr hp =>
      obtain ⟨live, busy, log, hrel⟩ := release_eq s ptr
      rw [hrel]
      exact ⟨rfl, rfl⟩
  | begin hp | load hp | again hp | found hhead hp | look hptr hp | cutAll hp | walk hroot hp
  | walkOut hp | cut hptr hp | walkOn hptr hnext hp | noFunction hf hp | yield hf hp
  | callHere hf hp | countDrop hptr hp | call hp | finish hp | reduceRead hp | reduceWrite hp
  | addRead hp | addCount hp =>
      rw [hp] at hk
      cases hk

/-- One step of an activation. -/
theorem Balanced.activation (hb : Balanced s L) (hm : Memory s L W) (hc : Charge True s h)
    (hs : s.advanceActivation cfg k t = some s') :
    ∃ L' W', Memory s' L' W' ∧ Balanced s' L' := by
  have hfresh := hc.fresh s.activations (Nat.le_refl _)
  obtain ⟨L', W', hm', htakes, -⟩ := hm.activation hfresh (fun hk _ hj => hc.late hk hj) hs
  refine ⟨L', W', hm', hb.count_activation hc hs htakes, fun j => ?_⟩
  by_cases hj : j = k
  · rw [hj]
    exact (hb.measured k).own hm.chain (hc.expected_pos trivial) hfresh hs
  rcases others_activation hs hj with hsame | ⟨-, hqueued⟩
  · rw [hsame]
    cases hk : (s.activation k).early with
    | true => exact measured_of_late (hc.late hk hj)
    | false =>
        -- `k` is behind its `fetch_add`, and `j` may be looking for its window meanwhile
        obtain ⟨hmem, he⟩ := quiet_late hs hk
        exact (hb.measured j).mono (hm.lists j) he fun e _ => by rw [hmem]
  · rw [hqueued]
    trivial

/-! ## Runs -/

/-- The invariant. -/
structure WindowInv (s : State) (h : Holder) (L : List Entry) (W : Nat → List Entry) : Prop where
  charge : Charge True s h
  memory : Memory s L W
  balanced : Balanced s L

theorem WindowInv.step {a : Action} (hi : WindowInv s h L W) (hok : steady s a)
    (hs : step cfg s a = some s') : ∃ h' L' W', WindowInv s' h' L' W' := by
  obtain ⟨h', hc⟩ := hi.charge.step (fun _ => hok.1) hok.2 hs
  have hnext : ∃ L' W', Memory s' L' W' ∧ Balanced s' L' := by
    cases a with
    | arriveAndWait c w t =>
        obtain ⟨-, hlive, rfl⟩ := eq_of_arriveAndWait hs
        exact ⟨L, W, hi.memory.arrive _ hlive ⟨rfl, rfl⟩, hi.balanced.arrive _ hi.memory hlive⟩
    | arriveAndDrop w =>
        obtain ⟨hlive, rfl⟩ := eq_of_arriveAndDrop hs
        exact ⟨L, W, hi.memory.arrive s.busy hlive trivial,
          hi.balanced.arrive s.busy hi.memory hlive⟩
    | arrival i b =>
        obtain ⟨L', hm, hb⟩ := hi.balanced.arrival hi.memory hi.charge hs
        exact ⟨L', W, hm, hb⟩
    | activation k t => exact hi.balanced.activation hi.memory hi.charge hs
  obtain ⟨L', W', hm, hb⟩ := hnext
  exact ⟨h', L', W', hc, hm, hb⟩

theorem windowInv_reaches (hcfg : 1 ≤ cfg.expected)
    (hr : Reaches (step cfg) steady (· = init cfg) s) : ∃ h L W, WindowInv s h L W := by
  refine hr.invariant (I := fun s => ∃ h L W, WindowInv s h L W) ?_ ?_
  · rintro s rfl
    exact ⟨.nobody, [], fun _ => [], charge_init fun _ => hcfg, memory_init cfg,
      balanced_init cfg⟩
  · rintro s a s' - ⟨h, L, W, hi⟩ hok hs
    exact hi.step hok hs

theorem early_of_looking (hk : (s.activation k).looking = true) :
    (s.activation k).early = true := by
  cases hp : s.activation k with
  | queued | load | window ptr count head current => rfl
  | _ =>
      rw [hp] at hk
      cases hk

/-- A phase is started when enough have arrived. -/
theorem WindowInv.enough (hi : WindowInv s h L W) (hk : (s.activation k).looking = true) :
    s.expected ≤ L.length + s.unpushed := by
  have hearly := early_of_looking hk
  obtain ⟨hactive, hphase⟩ := hi.charge.of_early hearly
  have hfull := hi.charge.full (by rw [hactive]; exact Holder.noConfusion)
  have hcount := hi.balanced.count
  have hdue : (s.activation s.phase).due s.expected = s.expected := by
    rw [← hphase]
    cases hp : s.activation k with
    | queued | load | window ptr count head current => rfl
    | _ =>
        rw [hp] at hk
        cases hk
  -- no places are left, and the phase has given them all to its arrivals
  rw [hdue] at hcount
  omega

/-- The round of an activation will find its window: the list that it walks is long enough. An
activation that is not in a round has its load behind it. -/
def Finds (s : State) : ActivationPc → Prop
  | .queued | .load => False
  | .window _ _ _ current => ∃ n, Long s current n ∧ s.expected ≤ n
  | _ => True

theorem finds_of_late {q : ActivationPc} (hq : q.early = false) : Finds s q := by
  cases q with
  | idle | resume ptr saved | test saved => trivial
  | _ => cases hq

theorem Finds.mono {q : ActivationPc} (hq : Finds s q) (hl : q.Lists s L W₀)
    (he : s'.expected = s.expected) (hmem : ∀ e ∈ L, s'.mem e.addr.val = s.mem e.addr.val) :
    Finds s' q := by
  cases q with
  | queued | load => exact hq.elim
  | window ptr count head current =>
      obtain ⟨-, C, hC, hcur, -⟩ := hl
      obtain ⟨n, hn, hle⟩ := hq
      refine ⟨n, ?_, he ▸ hle⟩
      exact (hcur.congr fun e he => hmem e (hC.subset he)).long_iff.mpr (hcur.long_iff.mp hn)
  | _ => trivial

theorem Long.unique {m : Int} (h : Long s w n) (h' : Long s w m) : n = m := by
  obtain ⟨l, hl, rfl⟩ := h
  exact hl.long_iff.mp h'

/-- All of the list has been seen, and it is not shorter than the phase expects. -/
theorem Finds.not_again {count : Int} {current : Nat} (hk : Finds s (.window 0 count 0 current))
    (hmeasured : Measured s (.window 0 count 0 current)) : False := by
  obtain ⟨r, hptr, hcurrent, hhead⟩ := hmeasured
  obtain ⟨n, hn, hle⟩ := hk
  rw [if_pos rfl] at hhead
  have h1 := hn.unique hcurrent
  have h2 := hptr.zero
  omega

/-- In its own step the activation either goes on with the same list or has found its window. -/
theorem Finds.own (hk : Finds s (s.activation k)) (hmeasured : Measured s (s.activation k))
    (hfresh : s.activation s.activations = .idle)
    (hs : s.advanceActivation cfg k t = some s') : Finds s' (s'.activation k) := by
  cases activates_of_advance hs with
  | begin hp | load hp =>
      rw [hp] at hk
      exact hk.elim
  | again hp =>
      rw [hp] at hmeasured hk
      exact (hk.not_again hmeasured).elim
  | look hptr hp =>
      rw [hp] at hk
      rw [goto_self]
      exact hk
  | pass hle hp =>
      rw [idle_of_pass hfresh (by rw [hp]; exact ActivationPc.noConfusion)]
      trivial
  | found hhead hp | cutAll hp | walk hroot hp | walkOut hp | cut hptr hp | walkOn hptr hnext hp
  | noFunction hf hp | yield hf hp | callHere hf hp | countDrop hptr hp | call hp | finish hp
  | reduceRead hp | reduceWrite hp | addRead hp | addCount hp | resumed hp | release hptr hp
  | ends hgt hp =>
      show Finds _ ((State.goto _ k _).activation k)
      rw [goto_self]
      trivial

theorem WindowInv.finds_own (hi : WindowInv s h L W) (hk : Finds s (s.activation k))
    (hs : s.advanceActivation cfg k t = some s') : Finds s' (s'.activation k) :=
  hk.own (hi.balanced.measured k) (hi.charge.fresh _ (Nat.le_refl _)) hs

/-- A round that will find its window is the last. -/
theorem WindowInv.finds_step {a : Action} (hi : WindowInv s h L W)
    (hk : Finds s (s.activation k)) (hlt : k < s.activations)
    (hs : Barrier.step cfg s a = some s') : Finds s' (s'.activation k) := by
  cases a with
  | arriveAndWait c w t =>
      obtain ⟨-, hlive, rfl⟩ := eq_of_arriveAndWait hs
      exact hk.mono (hi.memory.lists k) rfl (hi.memory.mem_arrive (p := .set) hlive)
  | arriveAndDrop w =>
      obtain ⟨hlive, rfl⟩ := eq_of_arriveAndDrop hs
      exact hk.mono (hi.memory.lists k) rfl (hi.memory.mem_arrive (p := .set) hlive)
  | arrival i b =>
      have ha := aside_arrival hs
      rcases ha.activation k with hsame | ⟨hnew, -⟩
      · rw [hsame]
        exact hk.mono (hi.memory.lists k) ha.expected
          (hi.memory.mem_arrival (p := .set) (by simp) hs)
      · omega
  | activation j t =>
      -- another activation that is still early would have `k` late, so that it knows nothing
      by_cases hj : k = j
      · subst hj
        exact hi.finds_own hk hs
      rcases others_activation hs hj with hsame | ⟨hnew, -⟩
      · rw [hsame]
        cases hearly : (s.activation j).early with
        | true => exact finds_of_late (hi.charge.late hearly hj)
        | false =>
            obtain ⟨hmem, he⟩ := quiet_late hs hearly
            exact hk.mono (hi.memory.lists k) he fun e _ => by rw [hmem]
      · omega

theorem activations_le {a : Action} (hs : Barrier.step cfg s a = some s') :
    s.activations ≤ s'.activations := by
  cases a with
  | arriveAndWait c w t =>
      obtain ⟨-, -, rfl⟩ := eq_of_arriveAndWait hs
      exact Nat.le_refl _
  | arriveAndDrop w =>
      obtain ⟨-, rfl⟩ := eq_of_arriveAndDrop hs
      exact Nat.le_refl _
  | arrival i b => exact (aside_arrival hs).activations
  | activation k t =>
      cases activates_of_advance hs with
      | @release ptr saved hptr hp =>
          exact Nat.le_of_eq (sameCounters_release s ptr).1.activations.symm
      | pass hle hp => exact Nat.le_succ _
      | _ => exact Nat.le_refl _

/-- What is known when a round has begun with enough entries in `working_set_`. -/
theorem WindowInv.begins (hi : WindowInv s h L W) (he : s.expected ≤ L.length) :
    Finds (s.goto k (.window s.workingSet 0 0 s.workingSet))
      ((s.goto k (.window s.workingSet 0 0 s.workingSet)).activation k) := by
  rw [goto_self]
  exact ⟨L.length, ⟨L, hi.memory.chain, rfl⟩, he⟩

theorem WindowInv.lt_activations (hi : WindowInv s h L W) (hk : s.activation k ≠ .idle) :
    k < s.activations := by
  by_contra hge
  exact hk (hi.charge.fresh k (by omega))

/-- From then on the activation never comes back to the load. -/
theorem WindowInv.last {s₂ : State} (hi : WindowInv s h L W) (hk : Finds s (s.activation k))
    (hlt : k < s.activations) (hr : Reaches (Barrier.step cfg) steady (· = s) s₂) :
    s₂.activation k ≠ .load := by
  have hfinds : (∃ h L W, WindowInv s₂ h L W) ∧ k < s₂.activations ∧
      Finds s₂ (s₂.activation k) := by
    refine hr.invariant (I := fun s => (∃ h L W, WindowInv s h L W) ∧ k < s.activations ∧
      Finds s (s.activation k)) ?_ ?_
    · rintro _ rfl
      exact ⟨⟨h, L, W, hi⟩, hlt, hk⟩
    · rintro s a s' - ⟨⟨h, L, W, hi⟩, hlt, hk⟩ hok hs
      have hle := activations_le hs
      exact ⟨hi.step hok hs, by omega, hi.finds_step hk hlt hs⟩
  intro hload
  rw [hload] at hfinds
  exact hfinds.2.2

theorem steady_of_looking (hk : (s.activation k).looking = true) (t : ThreadT) :
    steady s (.activation k t) := by
  have hw : (s.activation k).writes = none := by
    cases hp : s.activation k with
    | reduceWrite start v =>
        rw [hp] at hk
        cases hk
    | _ => rfl
  constructor
  · intro v hv
    rw [hw] at hv
    cases hv
  · intro v hv
    rw [hw] at hv
    cases hv

/-- A round takes as many steps as the list has entries, and one more. -/
theorem WindowInv.ends (t : ThreadT) (r : Nat) {ptr head current : Nat} {count : Int}
    (hi : WindowInv s h L W) (hk : s.activation k = .window ptr count head current)
    (hptr : Long s ptr r) (hfinds : Finds s (s.activation k)) :
    ∃ s₂ start, run (Barrier.step cfg) steady s (steps k (r + 1) t) = some s₂ ∧
      s₂.activation k = .trim start := by
  -- `r` entries are still ahead of `ptr`
  induction r generalizing s h L W ptr count head with
  | zero =>
      have hok : steady s (.activation k t) := steady_of_looking (by rw [hk]; rfl) t
      obtain ⟨l, hl, hlen⟩ := hptr
      have hnil : l = [] := List.eq_nil_of_length_eq_zero (by exact_mod_cast hlen)
      have h0 : ptr = 0 := hl.root_eq_zero.mpr hnil
      by_cases hhead : head = 0
      · -- the round would begin again
        have hs : s.advanceActivation cfg k t = some (s.goto k .load) := by
          simp only [State.advanceActivation, hk, if_pos h0, if_pos hhead]
        have hfound := hi.finds_own hfinds hs
        rw [goto_self] at hfound
        exact hfound.elim
      · have hs : Barrier.step cfg s (.activation k t) = some (s.goto k (.trim head)) := by
          simp only [Barrier.step, State.advanceActivation, hk, if_pos h0, if_neg hhead]
        refine ⟨s.goto k (.trim head), head, run_cons hok hs, ?_⟩
        rw [goto_self]
  | succ r ih =>
      have hok : steady s (.activation k t) := steady_of_looking (by rw [hk]; rfl) t
      have hne : ptr ≠ 0 := hptr.ne_zero (by omega)
      have hs : ∃ q, q = s.getNext ptr ∧ ∃ count' head', s.advanceActivation cfg k t =
          some (s.goto k (.window q count' head' current)) := by
        refine ⟨_, rfl, ?_⟩
        simp only [State.advanceActivation, hk, if_neg hne]
        exact ⟨_, _, rfl⟩
      obtain ⟨q, hq, count', head', hs⟩ := hs
      obtain ⟨h', L', W', hi'⟩ := hi.step hok hs
      have hfound := hi.finds_own hfinds hs
      have hnext : Long s q r := by
        rw [hq, show (r : Int) = (r + 1 : Nat) - 1 by omega]
        exact hptr.next hne
      obtain ⟨s₂, start, hrun, hend⟩ := ih hi' (goto_self ..) hnext hfound
      exact ⟨s₂, start, (run_cons hok hs).trans hrun, hend⟩

/-- **`aquire_window` does not wait in vain** in runs in which `expected_` stays at least one and
that are without a stale test. -/
theorem barrier_neverInVain (hcfg : 1 ≤ cfg.expected)
    (hr : Reaches (step cfg) steady (· = init cfg) s) : NeverInVain cfg s := by
  obtain ⟨h, L, W, hi⟩ := windowInv_reaches hcfg hr
  have hsize : ∀ {l : List Entry}, Listed s s.workingSet l → l.length = L.length :=
    fun hl => hl.length_unique hi.memory.chain
  constructor
  · -- enough arrivals, and `expected_` is at least one
    intro k hk
    exact ⟨hi.charge.expected_pos trivial, L, hi.memory.chain, hi.enough hk⟩
  · -- once they have been pushed, no second round of the loop begins
    intro k t s₁ l hk hl he hs s₂ hr₂
    have hlook : (s.activation k).looking = true := by
      rw [hk]
      rfl
    have hlt : k < s.activations := hi.lt_activations (by rw [hk]; exact ActivationPc.noConfusion)
    obtain ⟨h', L', W', hi'⟩ := hi.step (steady_of_looking hlook t) hs
    have hle := activations_le hs
    simp only [Barrier.step, State.advanceActivation, hk] at hs
    obtain rfl := Option.some.inj hs
    rw [hsize hl] at he
    exact hi'.last (hi.begins he) (by omega) hr₂
  · -- and the round ends
    intro k t l hk hl he
    have hlook : (s.activation k).looking = true := by
      rw [hk]
      rfl
    have hok := steady_of_looking hlook t
    have hs : step cfg s (.activation k t) =
        some (s.goto k (.window s.workingSet 0 0 s.workingSet)) := by
      simp only [Barrier.step, State.advanceActivation, hk]
    obtain ⟨h', L', W', hi'⟩ := hi.step hok hs
    rw [hsize hl] at he
    have hself : (s.goto k (.window s.workingSet 0 0 s.workingSet)).activation k
        = .window s.workingSet 0 0 s.workingSet := goto_self ..
    obtain ⟨s₂, start, hrun, hend⟩ :=
      hi'.ends t L.length hself ⟨L, hi.memory.chain, rfl⟩ (hi.begins he)
    exact ⟨L.length + 2, s₂, start, (run_cons hok hs).trans hrun, hend⟩

/-- Two coroutines arrive, and the second starts `complete_phase`. -/
def secondStarts : List Action :=
  .arriveAndWait 1 (.nth 0) ⟨0⟩ :: pushSteps 0 ++
  .arriveAndWait 2 (.nth 1) ⟨0⟩ :: pushSteps 1 ++ [.arrival 1 false]

theorem barrier_neverInVain_secondStarts :
    ∃ s, run (step ⟨2, .noOp, ⟨1⟩⟩) steady (init ⟨2, .noOp, ⟨1⟩⟩) secondStarts = some s ∧
      s.activation 0 = .load ∧ NeverInVain ⟨2, .noOp, ⟨1⟩⟩ s := by
  have hend : (run (step ⟨2, .noOp, ⟨1⟩⟩) steady (init ⟨2, .noOp, ⟨1⟩⟩)
      secondStarts).map (State.activation · 0) = some .load := by decide +kernel
  obtain ⟨s, hs, h1⟩ := Option.map_eq_some_iff.mp hend
  exact ⟨s, hs, h1, barrier_neverInVain (by decide) (Reaches.run (Reaches.start rfl) hs)⟩

/-- A round on an empty list ends where it began. -/
theorem run_emptyRounds (hk : s.activation k = .load) (hset : s.workingSet = 0) (t : ThreadT)
    (n : Nat) : run (step cfg) anyStep s (steps k (2 * n) t) = some s := by
  induction n with
  | zero => rfl
  | succ n ih =>
      have h1 : step cfg s (.activation k t) = some (s.goto k (.window 0 0 0 0)) := by
        simp only [Barrier.step, State.advanceActivation, hk, hset]
      have hself : (s.goto k (.window 0 0 0 0)).activation k = .window 0 0 0 0 := goto_self ..
      have hback : (s.goto k (.window 0 0 0 0)).goto k .load = s := by
        unfold State.goto
        rw [Function.update_idem, ← hk, Function.update_eq_self]
      have h2 : step cfg (s.goto k (.window 0 0 0 0)) (.activation k t) = some s := by
        simp only [Barrier.step, State.advanceActivation, hself, if_true, hback]
      have hsteps : steps k (2 * (n + 1)) t
          = .activation k t :: .activation k t :: steps k (2 * n) t := rfl
      rw [hsteps, run_cons trivial h1, run_cons trivial h2]
      exact ih

/-- The only participant drops: `expected_` becomes 0, and the test of `resume_frames` starts
another phase. -/
def lastDrops : List Action :=
  .arriveAndDrop (.nth 0) :: pushSteps 0 ++ .arrival 0 false :: steps 0 13 ⟨1⟩ ++ steps 1 1 ⟨1⟩

/-- Nobody will arrive for that phase, and `aquire_window` looks for its window for ever. -/
theorem barrier_lastDrops :
    ∃ s, Reaches (step ⟨1, .noOp, ⟨1⟩⟩) anyStep (· = init ⟨1, .noOp, ⟨1⟩⟩) s ∧
      s.activation 1 = .load ∧ s.expected = 0 ∧ s.workingSet = 0 ∧
      (∀ n, run (step ⟨1, .noOp, ⟨1⟩⟩) anyStep s (steps 1 (2 * n) ⟨1⟩) = some s) ∧
      ¬ NeverInVain ⟨1, .noOp, ⟨1⟩⟩ s := by
  have hend : (run (step ⟨1, .noOp, ⟨1⟩⟩) anyStep (init ⟨1, .noOp, ⟨1⟩⟩) lastDrops).map
      (fun s => (s.activation 1, s.expected, s.workingSet)) = some (.load, 0, 0) := by
    decide +kernel
  obtain ⟨s, hs, h1⟩ := Option.map_eq_some_iff.mp hend
  simp only [Prod.mk.injEq] at h1
  obtain ⟨hk, he, hset⟩ := h1
  refine ⟨s, Reaches.run (Reaches.start rfl) hs, hk, he, hset, run_emptyRounds hk hset _,
    fun h => ?_⟩
  have henough := (h.enough 1 (by rw [hk]; rfl)).1
  omega

end

end Zab.Barrier
