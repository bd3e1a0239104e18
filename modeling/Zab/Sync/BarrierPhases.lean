import Mathlib.Data.Prod.Lex
import Zab.Sync.BarrierList

set_option autoImplicit false

/-! # The phases of the barrier on one thread

On one thread an operation on the barrier is not interrupted, except where `complete_phase`
suspends itself: in the queue of the engine, in the `yield` to the control thread and in the
completion function. Any number of arrivals may come in there. Still the barrier does what the
abstract `Phases` do with the sequence of its arrivals: the phases are the same, the completion
function is called once for each of them, in order, and the arrivals of a phase are released
after it, once each.
-/

namespace Zab.Barrier

open Automaton

/-! ## One operation at a time -/

/-- The activation runs: it is neither over nor suspended. -/
def ActivationPc.running : ActivationPc → Bool
  | .idle | .queued | .yielding _ _ | .completing _ _ => false
  | _ => true

/-- No other operation runs. A callable completion function counts as suspended, so that it may
arrive at its own barrier. -/
def solo (s : State) : Action → Prop
  | .arriveAndWait _ _ _ | .arriveAndDrop _ =>
      (∀ i < s.arrivals, s.arrival i = .idle) ∧
        ∀ k < s.activations, (s.activation k).running = false
  | .arrival i _ =>
      (∀ j < s.arrivals, j ≠ i → s.arrival j = .idle) ∧
        ∀ k < s.activations, (s.activation k).running = false
  | .activation k _ =>
      (∀ i < s.arrivals, s.arrival i = .idle) ∧
        ∀ j < s.activations, j ≠ k → (s.activation j).running = false

/-- One operation at a time, and `expected_` stays at least one. -/
def legal (s : State) (a : Action) : Prop := solo s a ∧ keepsOne s a

/-- The states of the barrier on one thread. -/
def Reachable (cfg : Config) : State → Prop := Reaches (step cfg) legal (· = init cfg)

/-! ## The abstract barrier -/

/-- The phases that the arrivals `l` make. -/
def phases (cfg : Config) (l : List Item) : Phases Item :=
  Phases.arriveAll Item.isDrop ⟨cfg.expected, [], []⟩ l

/-- What the completion function does in a phase. -/
def completionLog (cfg : Config) : List Event :=
  if cfg.function = .noOp then [] else [.called, .finished]

/-- What happens in the phase with the arrivals `w`: the completion function is called and
finishes, and then every arrival is released, the last one first. -/
def phaseLog (cfg : Config) (w : List Item) : List Event :=
  completionLog cfg ++ w.reverse.map .released

/-! ## The invariant -/

/-- The places that `count_` holds for the phase that is being filled. Between the cut and the
`fetch_add` there are none. -/
def ActivationPc.due (e : Int) : ActivationPc → Int
  | .drops _ _ _ | .yielding _ _ | .completing _ _ | .reduceRead _ _ | .reduceWrite _ _
  | .addRead _ | .addCount _ _ => 0
  | _ => e

/-- How many the next phase expects, given the window `W` that has been cut off. -/
def ActivationPc.next (e : Int) (W : List Entry) : ActivationPc → Int
  | .drops _ _ _ | .yielding _ _ | .completing _ _ | .reduceRead _ _ | .reduceWrite _ _ =>
      e - dropped W
  | _ => e

/-- What is still to happen in the phase of the window `W`. -/
def ActivationPc.todo (cfg : Config) (W : List Entry) : ActivationPc → List Event
  | .drops _ _ _ | .yielding _ _ => completionLog cfg ++ (W.map Entry.item).map .released
  | .completing _ _ => .finished :: (W.map Entry.item).map .released
  | _ => (W.map Entry.item).map .released

/-- What an activation knows about the lists `L` of `working_set_` and `W` of the window; `r` is
how far its walk still has to go. -/
def Local (cfg : Config) (s : State) (L W : List Entry) (r : Nat) : ActivationPc → Prop
  | .idle => W = []
  | .queued | .load => W = [] ∧ s.expected ≤ L.length
  | .window ptr count head current =>
      W = [] ∧ s.expected ≤ L.length ∧ current = s.workingSet ∧ count + r = L.length ∧
        (∃ l, l <:+ L ∧ l.length = r ∧ Listed s ptr l) ∧
        if count < s.expected then head = 0
        else ∃ l, l <:+ L ∧ l.length + count = L.length + s.expected ∧ Listed s head l
  | .trim start =>
      W = [] ∧ ∃ L₁ L₂, L = L₁ ++ L₂ ∧ L₂.length = s.expected ∧ Listed s start L₂
  | .trimWalk start ptr =>
      W = [] ∧ ∃ L₀ L₁ L₂, L = L₀ ++ L₁ ++ L₂ ∧ L₂.length = s.expected ∧ Listed s start L₂ ∧
        L₁ ≠ [] ∧ L₁.length = r ∧ Listed s ptr (L₁ ++ L₂)
  | .drops start ptr n =>
      Listed s start W ∧ ∃ l, l <:+ W ∧ l.length = r ∧ Listed s ptr l ∧
        n + dropped l = dropped W
  | .yielding start n => Listed s start W ∧ n = dropped W ∧ cfg.function ≠ .noOp
  | .completing start n | .reduceRead start n => Listed s start W ∧ n = dropped W
  | .reduceWrite start v => Listed s start W ∧ v = s.expected - dropped W
  | .addRead start => Listed s start W
  | .addCount start e => Listed s start W ∧ e = s.expected
  | .resume ptr saved => Listed s ptr W ∧ W.length = r ∧ saved = -L.length
  | .test saved => W = [] ∧ saved = -L.length

/-- The entry `w` of the arrival `x` is ready to be pushed. -/
def Ready (s : State) (l : List Entry) (x : Item) (w : Addr) (amount : Int) : Prop :=
  s.live w.val = true ∧ w ∉ l.map Entry.addr ∧ Stored (s.mem w.val) x ∧ amount = s.count + 1

/-- What an arrival knows, while the current activation is at `p`. -/
def ArrivalPc.Knows (s : State) (p : ActivationPc) (l : List Entry) : ArrivalPc → Prop
  | .idle => True
  | .load x w amount => Ready s l x w amount
  | .push x w amount previous => Ready s l x w amount ∧ previous = s.workingSet
  | .call => p = .idle ∧ s.count = 0

/-- The arrivals that are counted but not pushed. -/
def ArrivalPc.unpushed : ArrivalPc → Nat
  | .load _ _ _ | .push _ _ _ _ => 1
  | .idle | .call => 0

/-- The invariant: the current activation is at `p` and the current arrival at `a`; `L` is the
list of `working_set_`, `W` what is left of the window, and `closed` are the phases that have
been cut off. -/
structure Data (cfg : Config) (s : State) (p : ActivationPc) (a : ArrivalPc) (L W : List Entry)
    (closed : List (List Item)) (r : Nat) : Prop where
  expected_pos : 1 ≤ s.expected
  chain : Listed s s.workingSet L
  nodup : ((L ++ W).map Entry.addr).Nodup
  stored : ∀ e ∈ L ++ W, s.live e.addr.val = true ∧ Stored (s.mem e.addr.val) e.item
  arriving : a.Knows s p (L ++ W)
  count : s.count = p.due s.expected - L.length - a.unpushed
  rest : p = .idle → 0 ≤ s.count ∧ (s.count = 0 → a ≠ .idle)
  loc : Local cfg s L W r p
  log : s.log ++ p.todo cfg W = closed.flatMap (phaseLog cfg)
  /-- The entries of `working_set_` will make the phases that are still to come. -/
  phases : phases cfg s.pushed =
    Phases.arriveAll Item.isDrop ⟨p.next s.expected W, [], closed⟩ (L.reverse.map Entry.item)

section

variable {cfg : Config} {s s' : State} {p q : ActivationPc} {a : ArrivalPc}
  {L W : List Entry} {closed : List (List Item)} {r r' k : Nat}

theorem data_init (hcfg : 1 ≤ cfg.expected) : Data cfg (init cfg) .idle .idle [] [] [] 0 where
  expected_pos := hcfg
  chain := rfl
  nodup := List.nodup_nil
  stored e he := by cases he
  arriving := trivial
  count := by simp [init, ActivationPc.due, ArrivalPc.unpushed]
  rest _ := by
    have : (init cfg).count = cfg.expected := rfl
    omega
  loc := rfl
  log := rfl
  phases := rfl

/-! ## Steps of an activation -/

/-- The activation moves on and the rest of the state stays. -/
theorem Data.walk (h : Data cfg s p .idle L W closed r) (hq : q ≠ .idle)
    (hdue : q.due s.expected = p.due s.expected)
    (htodo : q.todo cfg W = p.todo cfg W) (hnext : q.next s.expected W = p.next s.expected W)
    (hloc : Local cfg s L W r' q) : Data cfg s q .idle L W closed r' :=
  { h with
    arriving := trivial
    count := by rw [hdue]; exact h.count
    rest := fun hidle => absurd hidle hq
    loc := hloc
    log := by rw [htodo]; exact h.log
    phases := by rw [hnext]; exact h.phases }

/-- The window `L₂` is cut off the working set. -/
theorem Data.cut {L₁ L₂ : List Entry} {start : Nat} (h : Data cfg s p .idle (L₁ ++ L₂) [] closed r)
    (hdue : p.due s.expected = s.expected) (htodo : p.todo cfg [] = [])
    (hnext : p.next s.expected [] = s.expected)
    (hlen : (L₂.length : Int) = s.expected) (he : s'.expected = s.expected)
    (hcount : s'.count = s.count) (hlive : s'.live = s.live) (hlog : s'.log = s.log)
    (hpushed : s'.pushed = s.pushed)
    (hmem : ∀ a x, Stored (s.mem a) x → Stored (s'.mem a) x)
    (hL₁ : Listed s' s'.workingSet L₁) (hL₂ : Listed s' start L₂) :
    Data cfg s' (.drops start start 0) .idle L₁ L₂
      (closed ++ [(L₂.map Entry.item).reverse]) L₂.length := by
  have hnil : L₂ ≠ [] := by
    rintro rfl
    have := h.expected_pos
    simp at hlen
    omega
  constructor
  · exact he ▸ h.expected_pos
  · exact hL₁
  · simpa using h.nodup
  · intro e hmem'
    obtain ⟨h1, h2⟩ := h.stored e (by simpa using hmem')
    exact ⟨hlive ▸ h1, hmem _ _ h2⟩
  · trivial
  · rw [hcount, h.count, hdue]
    simp only [ActivationPc.due, List.length_append, ArrivalPc.unpushed]
    push_cast
    omega
  · intro hidle
    cases hidle
  · exact ⟨hL₂, L₂, List.suffix_refl _, rfl, hL₂, by simp⟩
  · rw [hlog, List.flatMap_append, ← h.log, htodo]
    simp [ActivationPc.todo, phaseLog]
  · have hwin : Phases.arriveAll Item.isDrop ⟨s.expected, [], closed⟩
        (L₂.reverse.map Entry.item) = _ :=
      Phases.arriveAll_window rfl (by simpa using hnil) (by simpa using hlen)
    rw [hpushed, h.phases, hnext, List.reverse_append, List.map_append, Phases.arriveAll_append,
      hwin]
    simp [ActivationPc.next, dropped, he, List.map_reverse]

/-- `aquire_window` passes an entry. -/
theorem Data.window_next {ptr head current : Nat} {count : Int}
    (h : Data cfg s (.window ptr count head current) .idle L W closed r) (hptr : ptr ≠ 0) :
    0 < r ∧ Data cfg s (.window (s.getNext ptr) (count + 1)
      (if count + 1 ≥ s.expected then if head = 0 then current else s.getNext head else head)
      current) .idle L W closed (r - 1) := by
  obtain ⟨hW, hle, hcur, hlen, ⟨l, hl, hr, hptr'⟩, hhead⟩ := h.loc
  obtain ⟨e, l', rfl, rfl, hnext⟩ := hptr'.cons_of_ne hptr
  have hpos := h.expected_pos
  simp only [List.length_cons] at hr
  refine ⟨by omega, h.walk (by simp) rfl rfl rfl
    ⟨hW, hle, hcur, by omega, ⟨l', (List.suffix_cons e l').trans hl, by omega, hnext⟩, ?_⟩⟩
  by_cases h1 : count + 1 < s.expected
  · rw [if_pos h1, if_neg (by omega)]
    simpa [show count < s.expected by omega] using hhead
  · rw [if_neg h1, if_pos (by omega)]
    by_cases h2 : count < s.expected
    · -- the window begins at the root
      rw [if_pos h2] at hhead
      rw [if_pos hhead, hcur]
      exact ⟨L, List.suffix_refl _, by omega, h.chain⟩
    · -- the window moves on by one entry
      rw [if_neg h2] at hhead
      obtain ⟨m, hm, hmlen, hmhead⟩ := hhead
      have hne : head ≠ 0 := by
        intro h0
        have := hmhead.root_eq_zero.mp h0
        simp only [this, List.length_nil] at hmlen
        omega
      obtain ⟨e', m', rfl, rfl, hm'⟩ := hmhead.cons_of_ne hne
      rw [if_neg hne]
      refine ⟨m', (List.suffix_cons e' m').trans hm, ?_, hm'⟩
      simp only [List.length_cons] at hmlen
      push_cast at hmlen
      omega

/-- `aquire_window` returns the oldest `expected_` entries. -/
theorem Data.window_end {head current : Nat} {count : Int}
    (h : Data cfg s (.window 0 count head current) .idle L W closed r) :
    head ≠ 0 ∧ Data cfg s (.trim head) .idle L W closed 0 := by
  obtain ⟨hW, hle, hcur, hlen, ⟨l, hl, hr, hptr⟩, hhead⟩ := h.loc
  obtain rfl := hptr.root_eq_zero.mp rfl
  have hpos := h.expected_pos
  simp only [List.length_nil] at hr
  rw [if_neg (by omega)] at hhead
  obtain ⟨m, ⟨L₁, hm⟩, hmlen, hmhead⟩ := hhead
  refine ⟨fun h0 => ?_, h.walk (by simp) rfl rfl rfl ⟨hW, L₁, m, hm.symm, by omega, hmhead⟩⟩
  have := hmhead.root_eq_zero.mp h0
  simp only [this, List.length_nil] at hmlen
  omega

/-- A list that is not empty has one root. -/
theorem Listed.root_unique {w w' : Nat} {l : List Entry} (h : Listed s w l) (h' : Listed s w' l)
    (hl : l ≠ []) : w = w' := by
  cases l with
  | nil => exact absurd rfl hl
  | cons e l => exact h.1.trans h'.1.symm

/-- The root of a list is not a root further down. -/
theorem Listed.root_ne {w w' : Nat} {l₁ l₂ : List Entry} (h : Listed s w (l₁ ++ l₂))
    (h' : Listed s w' l₂) (hnd : ((l₁ ++ l₂).map Entry.addr).Nodup) (h₁ : l₁ ≠ []) (h₂ : l₂ ≠ []) :
    w ≠ w' := by
  cases l₁ with
  | nil => exact absurd rfl h₁
  | cons e l₁ =>
      cases l₂ with
      | nil => exact absurd rfl h₂
      | cons e' l₂ =>
          rw [h.1, h'.1]
          exact word_ne_of_nodup hnd (by simp)

theorem ne_nil_of_length {l : List Entry} (h : (l.length : Int) = s.expected)
    (hpos : 1 ≤ s.expected) : l ≠ [] := by
  rintro rfl
  simp at h
  omega

/-- The window is the whole working set: the `compare_exchange_strong` cuts it off. -/
theorem Data.trim_root {start : Nat} (h : Data cfg s (.trim start) .idle L W closed r)
    (hroot : s.workingSet = start) :
    ∃ W' closed' r', W'.length ≠ 0 ∧ L = W' ∧
      Data cfg { s with workingSet := 0 } (.drops start start 0) .idle [] W' closed' r' := by
  obtain ⟨rfl, L₁, L₂, rfl, hlen, hstart⟩ := h.loc
  have hne := ne_nil_of_length hlen h.expected_pos
  have hnd := h.nodup
  rw [List.append_nil] at hnd
  obtain rfl : L₁ = [] := by
    by_contra hne₁
    exact h.chain.root_ne hstart hnd hne₁ hne hroot
  exact ⟨L₂, _, _, by simpa using hne, rfl,
    h.cut rfl rfl rfl hlen rfl rfl rfl rfl rfl (fun _ _ hx => hx) rfl hstart⟩

/-- The window is further down. -/
theorem Data.trim_walk {start : Nat} (h : Data cfg s (.trim start) .idle L W closed r)
    (hroot : s.workingSet ≠ start) :
    ∃ r', Data cfg s (.trimWalk start s.workingSet) .idle L W closed r' := by
  obtain ⟨rfl, L₁, L₂, rfl, hlen, hstart⟩ := h.loc
  have hne := ne_nil_of_length hlen h.expected_pos
  refine ⟨L₁.length, h.walk (by simp) rfl rfl rfl
    ⟨rfl, [], L₁, L₂, rfl, hlen, hstart, ?_, rfl, h.chain⟩⟩
  rintro rfl
  exact hroot (h.chain.root_unique hstart hne)

theorem stored_setNext {ptr v a : Nat} {x : Item} (hx : Stored (s.mem a) x) :
    Stored ((s.setNext ptr v).mem a) x := by
  simp only [State.setNext, Function.update_apply]
  split
  · subst a
    cases x <;> exact hx
  · exact hx

/-- The walk that cuts the window off: either the window comes next, or the walk goes on. -/
theorem Data.trimWalk_next {start ptr : Nat}
    (h : Data cfg s (.trimWalk start ptr) .idle L W closed r) :
    ptr ≠ 0 ∧
      (s.getNext ptr = start → ∃ L' W' closed' r', W'.length ≠ 0 ∧ L = L' ++ W' ∧
        Data cfg (s.setNext ptr 0) (.drops start start 0) .idle L' W' closed' r') ∧
      (s.getNext ptr ≠ start → 0 < r ∧
        Data cfg s (.trimWalk start (s.getNext ptr)) .idle L W closed (r - 1)) := by
  obtain ⟨rfl, L₀, L₁, L₂, rfl, hlen, hstart, hL₁, hr, hptr⟩ := h.loc
  have hne := ne_nil_of_length hlen h.expected_pos
  have hnd : ((L₀ ++ L₁ ++ L₂).map Entry.addr).Nodup := by simpa using h.nodup
  cases L₁ with
  | nil => exact absurd rfl hL₁
  | cons e L₁ =>
      obtain ⟨rfl, hnext⟩ := hptr
      simp only [getNext_word]
      refine ⟨word_ne_zero e, fun hcut => ?_, fun hgo => ?_⟩
      · -- `e` leads to the window, so that nothing is left of the walk
        obtain rfl : L₁ = [] := by
          by_contra hne₁
          have hnext : Listed s (s.link e) (L₁ ++ L₂) := hnext
          refine hnext.root_ne hstart ?_ hne₁ hne hcut
          simp only [List.append_assoc, List.cons_append, List.map_append, List.map_cons,
            List.nodup_append, List.nodup_cons] at hnd ⊢
          exact hnd.2.1.2
        have happ : L₀ ++ [e] ++ L₂ = L₀ ++ e :: L₂ := by simp
        have hchain : Listed s s.workingSet (L₀ ++ e :: L₂) := happ ▸ h.chain
        have hL : Listed (s.setNext e.word 0) s.workingSet (L₀ ++ [e]) ∧
            Listed (s.setNext e.word 0) (s.link e) L₂ :=
          hchain.cut (happ ▸ hnd) (by simp [State.link, State.setNext])
            (fun a ha => by simp [State.setNext, ha])
        exact ⟨L₀ ++ [e], L₂, _, _, by simpa using hne, rfl,
          h.cut rfl rfl rfl hlen rfl rfl rfl rfl rfl (fun _ _ => stored_setNext) hL.1
            (hcut ▸ hL.2)⟩
      · simp only [List.length_cons] at hr
        refine ⟨by omega, h.walk (by simp) rfl rfl rfl
          ⟨rfl, L₀ ++ [e], L₁, L₂, by simp, hlen, hstart, ?_, by omega, hnext⟩⟩
        rintro rfl
        exact hgo (Listed.root_unique (l := L₂) hnext hstart hne)

@[simp] theorem dropped_cons (e : Entry) (l : List Entry) :
    dropped (e :: l) = dropped l + if e.item.isDrop then 1 else 0 := by
  simp [dropped, List.countP_cons]

/-- The count of the drops passes an entry. -/
theorem Data.drops_next {start ptr n : Nat}
    (h : Data cfg s (.drops start ptr n) .idle L W closed r) (hptr : ptr ≠ 0) :
    0 < r ∧ Data cfg s (.drops start (s.getNext ptr) (if isDrop ptr then n + 1 else n)) .idle
      L W closed (r - 1) := by
  obtain ⟨hstart, l, hl, hr, hptr', hn⟩ := h.loc
  obtain ⟨e, l', rfl, rfl, hnext⟩ := hptr'.cons_of_ne hptr
  simp only [List.length_cons] at hr
  refine ⟨by omega, h.walk (by simp) rfl rfl rfl
    ⟨hstart, l', (List.suffix_cons e l').trans hl, by omega, hnext, ?_⟩⟩
  rw [dropped_cons] at hn
  rw [isDrop_word]
  split at hn <;> rename_i hd
  · rw [if_pos hd]
    omega
  · rw [if_neg hd]
    omega

/-- All drops of the window are counted. -/
theorem Data.drops_end {start n : Nat} (h : Data cfg s (.drops start 0 n) .idle L W closed r) :
    Listed s start W ∧ n = dropped W := by
  obtain ⟨hstart, l, hl, hr, hptr, hn⟩ := h.loc
  obtain rfl := hptr.root_eq_zero.mp rfl
  exact ⟨hstart, by simpa [dropped] using hn⟩

/-- The completion function is called, directly or after the `yield`. -/
theorem Data.call {start n : Nat} (h : Data cfg s p .idle L W closed r) (hf : cfg.function ≠ .noOp)
    (hp : p = .drops start 0 n ∨ p = .yielding start n) :
    Data cfg { s with log := s.log ++ [.called] } (.completing start n) .idle L W closed r := by
  have hloc : Listed s start W ∧ n = dropped W := by
    rcases hp with rfl | rfl
    · exact h.drops_end
    · exact ⟨h.loc.1, h.loc.2.1⟩
  have hdue : p.due s.expected = 0 ∧ p.next s.expected W = s.expected - dropped W ∧
      p.todo cfg W = completionLog cfg ++ (W.map Entry.item).map .released := by
    rcases hp with rfl | rfl <;> exact ⟨rfl, rfl, rfl⟩
  refine { h with
    arriving := trivial, count := ?_, rest := ?_, loc := hloc, log := ?_, phases := ?_ }
  · have := h.count
    rw [hdue.1] at this
    exact this
  · intro hidle
    cases hidle
  · have := h.log
    rw [hdue.2.2, completionLog, if_neg hf] at this
    simpa [ActivationPc.todo] using this
  · have := h.phases
    rw [hdue.2.1] at this
    exact this

theorem Data.finish {start n : Nat} (h : Data cfg s (.completing start n) .idle L W closed r) :
    Data cfg { s with log := s.log ++ [.finished] } (.reduceRead start n) .idle L W closed r := by
  refine { h with rest := ?_, log := ?_ }
  · intro hidle
    cases hidle
  · have := h.log
    simpa [ActivationPc.todo] using this

/-- `expected_` is lowered. -/
theorem Data.reduce {start : Nat} {v : Int}
    (h : Data cfg s (.reduceWrite start v) .idle L W closed r) (hv : 1 ≤ v) :
    Data cfg { s with expected := v } (.addRead start) .idle L W closed r := by
  obtain ⟨hstart, rfl⟩ := h.loc
  refine { h with expected_pos := hv, rest := ?_, loc := hstart }
  intro hidle
  cases hidle

/-- The places of the next phase are given to `count_`. -/
theorem Data.add {start : Nat} {e : Int} (h : Data cfg s (.addCount start e) .idle L W closed r) :
    Data cfg { s with count := s.count + e, phase := s.phase + 1 } (.resume start s.count) .idle
      L W closed W.length := by
  obtain ⟨hstart, rfl⟩ := h.loc
  have hcount : s.count = -L.length := by simpa [ActivationPc.due, ArrivalPc.unpushed] using h.count
  refine { h with arriving := trivial, count := ?_, rest := ?_, loc := ⟨hstart, rfl, hcount⟩ }
  · show s.count + s.expected = s.expected - _ - _
    rw [hcount]
    simp only [ArrivalPc.unpushed]
    push_cast
    omega
  · intro hidle
    cases hidle

/-- `resume_frames` finds in an entry what the arrival stored there. -/
theorem release_word {e : Entry} (h : Stored (s.mem e.addr.val) e.item) :
    ∃ busy, s.release e.word = { s with
      live := Function.update s.live e.addr.val false
      busy := busy
      log := s.log ++ [.released e.item] } := by
  simp only [State.release, addressOf_word, isDrop_word]
  cases he : e.item with
  | drop => exact ⟨s.busy, rfl⟩
  | wait c t =>
      rw [he] at h
      obtain ⟨hc, ht⟩ := h
      refine ⟨Function.update s.busy c false, ?_⟩
      simp [Item.isDrop, hc, ht]

/-- An entry is released. -/
theorem Data.resume_next {ptr : Nat} {saved : Int}
    (h : Data cfg s (.resume ptr saved) .idle L W closed r) (hptr : ptr ≠ 0) :
    0 < r ∧
      ∃ W', Data cfg (s.release ptr) (.resume (s.getNext ptr) saved) .idle L W' closed (r - 1) := by
  obtain ⟨hptr', hr, hsaved⟩ := h.loc
  obtain ⟨e, W', rfl, rfl, hnext⟩ := hptr'.cons_of_ne hptr
  obtain ⟨busy, hrel⟩ := release_word (h.stored e (by simp)).2
  have hnd := h.nodup
  simp only [List.map_append, List.map_cons, List.nodup_append, List.nodup_cons] at hnd
  simp only [List.length_cons] at hr
  refine ⟨by omega, W', ?_⟩
  rw [hrel]
  refine { h with nodup := ?_, stored := ?_, arriving := trivial, rest := ?_, loc := ?_, log := ?_ }
  · simp only [List.map_append, List.nodup_append]
    exact ⟨hnd.1, hnd.2.1.2, fun a ha b hb => hnd.2.2 a ha b (List.mem_cons_of_mem _ hb)⟩
  · intro e' he'
    have hne : e'.addr ≠ e.addr := by
      rcases List.mem_append.mp he' with hL | hW
      · exact hnd.2.2 _ (List.mem_map_of_mem hL) _ (by simp)
      · intro heq
        exact hnd.2.1.1 (heq ▸ List.mem_map_of_mem hW)
    obtain ⟨h1, h2⟩ := h.stored e' (by simp at he' ⊢; tauto)
    refine ⟨?_, h2⟩
    simpa [Function.update_apply, hne] using h1
  · intro hidle
    cases hidle
  · exact ⟨hnext, by omega, hsaved⟩
  · have := h.log
    simpa [ActivationPc.todo] using this

/-- The phase is over and the next one is not full. -/
theorem Data.test_idle {saved : Int} (h : Data cfg s (.test saved) .idle L W closed r)
    (hgt : ¬ saved ≤ -s.expected) : Data cfg s .idle .idle L W closed 0 := by
  obtain ⟨rfl, rfl⟩ := h.loc
  have hcount : s.count = s.expected - L.length := by
    simpa [ActivationPc.due, ArrivalPc.unpushed] using h.count
  refine { h with arriving := trivial, rest := fun _ => ?_, loc := rfl }
  omega

/-- The phase is over and the next one is full already. -/
theorem Data.test_queued {saved : Int} (h : Data cfg s (.test saved) .idle L W closed r)
    (hle : saved ≤ -s.expected) : Data cfg s .queued .idle L W closed 0 := by
  obtain ⟨rfl, rfl⟩ := h.loc
  exact h.walk (by simp) rfl rfl rfl ⟨rfl, by omega⟩

/-! ### Every step of an activation brings its end nearer -/

/-- The window has been cut off. -/
def ActivationPc.after : ActivationPc → Nat
  | .idle | .queued | .load | .window _ _ _ _ | .trim _ | .trimWalk _ _ => 0
  | _ => 1

/-- How many kinds of steps are still to come before the cut, or after it. -/
def ActivationPc.rank : ActivationPc → Nat
  | .idle => 0
  | .queued => 4
  | .load => 3
  | .window _ _ _ _ => 2
  | .trim _ => 1
  | .trimWalk _ _ => 0
  | .drops _ _ _ => 8
  | .yielding _ _ => 7
  | .completing _ _ => 6
  | .reduceRead _ _ => 5
  | .reduceWrite _ _ => 4
  | .addRead _ => 3
  | .addCount _ _ => 2
  | .resume _ _ => 1
  | .test _ => 0

/-- How much an activation at `p` and those that follow it still have to do: they use the working
set up, run through the places of `complete_phase`, and walk along the lists. -/
def remaining (L : List Entry) (p : ActivationPc) (r : Nat) : ℕ ×ₗ ℕ ×ₗ ℕ :=
  toLex (2 * L.length + p.after, toLex (p.rank, r))

theorem remaining_rank (hafter : q.after = p.after) (hrank : q.rank < p.rank) :
    remaining L q r' < remaining L p r := by
  simp only [remaining, Prod.Lex.toLex_lt_toLex, hafter]
  exact Or.inr ⟨trivial, Or.inl hrank⟩

theorem remaining_walk (hafter : q.after = p.after) (hrank : q.rank = p.rank) (hr : 0 < r) :
    remaining L q (r - 1) < remaining L p r := by
  simp only [remaining, Prod.Lex.toLex_lt_toLex, hafter, hrank]
  exact Or.inr ⟨trivial, Or.inr ⟨trivial, by omega⟩⟩

theorem remaining_cut {L' W' : List Entry} (hq : q.after = 1) (hW : W'.length ≠ 0) :
    remaining L' q r' < remaining (L' ++ W') p r := by
  refine Prod.Lex.toLex_lt_toLex.mpr (Or.inl ?_)
  rw [List.length_append, hq]
  omega

theorem remaining_over (hafter : q.after < p.after) : remaining L q r' < remaining L p r :=
  Prod.Lex.toLex_lt_toLex.mpr (Or.inl (Nat.add_lt_add_left hafter _))

/-- From `s` to `s'`, activation `k` has come nearer to its end, or has sent another activation
to the engine. -/
def Advanced (cfg : Config) (s s' : State) (k : Nat) (L : List Entry) (r : Nat) : Prop :=
  ∃ q L' W' closed' r', Data cfg s' q .idle L' W' closed' r' ∧
    remaining L' q r' < remaining L (s.activation k) r ∧
    s'.arrival = s.arrival ∧ s'.arrivals = s.arrivals ∧
    (s'.activation = Function.update s.activation k q ∧ s'.activations = s.activations ∨
      s'.activation = Function.update (Function.update s.activation k .idle) s.activations q ∧
        s'.activations = s.activations + 1)

theorem Data.goto (h : Data cfg s p a L W closed r) : Data cfg (s.goto k q) p a L W closed r :=
  ⟨h.1, h.2, h.3, h.4, by cases a <;> exact h.5, h.6, h.7, by cases p <;> exact h.8, h.9, h.10⟩

theorem Data.completePhase {st : Starter} (h : Data cfg s p a L W closed r) :
    Data cfg (s.completePhase q st) p a L W closed r :=
  ⟨h.1, h.2, h.3, h.4, by cases a <;> exact h.5, h.6, h.7, by cases p <;> exact h.8, h.9, h.10⟩

/-- `s'` has the pcs of `s`. -/
structure SamePcs (s s' : State) : Prop where
  arrival : s'.arrival = s.arrival
  arrivals : s'.arrivals = s.arrivals
  activation : s'.activation = s.activation
  activations : s'.activations = s.activations

theorem SamePcs.refl (s : State) : SamePcs s s := ⟨rfl, rfl, rfl, rfl⟩

/-- The activation goes on at `q`, in a state `s'` that has the pcs of `s`. -/
theorem Data.advanced {L' W' : List Entry} {closed' : List (List Item)}
    (h : Data cfg s' q .idle L' W' closed' r') (hp : s.activation k = p)
    (hlt : remaining L' q r' < remaining L p r) (hpcs : SamePcs s s') :
    Advanced cfg s (s'.goto k q) k L r :=
  ⟨q, L', W', closed', r', h.goto, hp ▸ hlt, hpcs.arrival, hpcs.arrivals,
    Or.inl ⟨by simp only [State.goto, hpcs.activation], hpcs.activations⟩⟩

/-- The activation goes on to its next kind of step. -/
theorem Data.onward {W' : List Entry} (h : Data cfg s' q .idle L W' closed r')
    (hp : s.activation k = p) (hpcs : SamePcs s s') (hafter : q.after = p.after)
    (hrank : q.rank < p.rank) : Advanced cfg s (s'.goto k q) k L r :=
  h.advanced hp (remaining_rank hafter hrank) hpcs

/-- The activation goes on along a list. -/
theorem Data.along {W' : List Entry} (h : Data cfg s' q .idle L W' closed (r - 1))
    (hp : s.activation k = p) (hpcs : SamePcs s s') (hafter : q.after = p.after)
    (hrank : q.rank = p.rank) (hr : 0 < r) : Advanced cfg s (s'.goto k q) k L r :=
  h.advanced hp (remaining_walk hafter hrank hr) hpcs

/-- **One step of an activation.** -/
theorem Data.step {t : ThreadT} (h : Data cfg s (s.activation k) .idle L W closed r)
    (hok : keepsOne s (.activation k t)) (hs : s.advanceActivation cfg k t = some s') :
    Advanced cfg s s' k L r := by
  cases activates_of_advance hs with
  | begin hp =>
      rw [hp] at h
      have h' : Data cfg s .load .idle L W closed r := h.walk (by simp) rfl rfl rfl h.loc
      exact h'.onward hp (.refl s) rfl (by simp [ActivationPc.rank])
  | load hp =>
      rw [hp] at h
      obtain ⟨hW, hle⟩ := h.loc
      have hpos := h.expected_pos
      have h' : Data cfg s (.window s.workingSet 0 0 s.workingSet) .idle L W closed L.length := by
        refine h.walk (by simp) rfl rfl rfl ⟨hW, hle, rfl, by simp, ?_, ?_⟩
        · exact ⟨L, List.suffix_refl _, rfl, h.chain⟩
        · rw [if_pos (by omega)]
      exact h'.onward hp (.refl s) rfl (by simp [ActivationPc.rank])
  | again hp =>
      -- there are enough entries, so that the loop `while (!head)` is not taken again
      rw [hp] at h
      exact absurd rfl h.window_end.1
  | found hhead hp =>
      rw [hp] at h
      exact h.window_end.2.onward hp (.refl s) rfl (by simp [ActivationPc.rank])
  | look hptr hp =>
      rw [hp] at h
      obtain ⟨hr, h'⟩ := h.window_next hptr
      exact h'.along hp (.refl s) rfl rfl hr
  | cutAll hp =>
      rw [hp] at h
      obtain ⟨W', closed', r', hne, rfl, h'⟩ := h.trim_root rfl
      have hlt : remaining [] (.drops s.workingSet s.workingSet 0) r' <
          remaining ([] ++ L) (.trim s.workingSet) r := remaining_cut rfl hne
      exact h'.advanced hp hlt ⟨rfl, rfl, rfl, rfl⟩
  | walk hroot hp =>
      rw [hp] at h
      obtain ⟨r', h'⟩ := h.trim_walk hroot
      exact h'.onward hp (.refl s) rfl (by simp [ActivationPc.rank])
  | walkOut hp =>
      -- the walk finds the window before the list ends
      rw [hp] at h
      exact absurd rfl h.trimWalk_next.1
  | cut hptr hp =>
      rw [hp] at h
      obtain ⟨L', W', closed', r', hne, rfl, h'⟩ := h.trimWalk_next.2.1 rfl
      exact h'.advanced hp (remaining_cut rfl hne) ⟨rfl, rfl, rfl, rfl⟩
  | walkOn hptr hnext hp =>
      rw [hp] at h
      obtain ⟨hr, h'⟩ := h.trimWalk_next.2.2 hnext
      exact h'.along hp (.refl s) rfl rfl hr
  | @noFunction start n hf hp =>
      -- without a completion function there is nothing to log
      rw [hp] at h
      have htodo : (ActivationPc.reduceRead start n).todo cfg W =
          (ActivationPc.drops start 0 n).todo cfg W := by
        simp [ActivationPc.todo, completionLog, hf]
      have h' : Data cfg s (.reduceRead start n) .idle L W closed 0 :=
        h.walk (by simp) rfl htodo rfl h.drops_end
      exact h'.onward hp (.refl s) rfl (by simp [ActivationPc.rank])
  | @yield start n hf hp =>
      rw [hp] at h
      obtain ⟨hstart, hn⟩ := h.drops_end
      have h' : Data cfg s (.yielding start n) .idle L W closed 0 :=
        h.walk (by simp) rfl rfl rfl ⟨hstart, hn, hf⟩
      exact h'.onward hp (.refl s) rfl (by simp [ActivationPc.rank])
  | callHere hf hp =>
      rw [hp] at h
      exact (h.call hf (Or.inl rfl)).onward hp ⟨rfl, rfl, rfl, rfl⟩ rfl
        (by simp [ActivationPc.rank])
  | countDrop hptr hp =>
      rw [hp] at h
      obtain ⟨hr, h'⟩ := h.drops_next hptr
      exact h'.along hp (.refl s) rfl rfl hr
  | call hp =>
      rw [hp] at h
      exact (h.call h.loc.2.2 (Or.inr rfl)).onward hp ⟨rfl, rfl, rfl, rfl⟩ rfl
        (by simp [ActivationPc.rank])
  | finish hp =>
      rw [hp] at h
      exact h.finish.onward hp ⟨rfl, rfl, rfl, rfl⟩ rfl (by simp [ActivationPc.rank])
  | @reduceRead start n hp =>
      rw [hp] at h
      obtain ⟨hstart, rfl⟩ := h.loc
      have h' : Data cfg s (.reduceWrite start (s.expected - dropped W)) .idle L W closed r :=
        h.walk (by simp) rfl rfl rfl ⟨hstart, rfl⟩
      exact h'.onward hp (.refl s) rfl (by simp [ActivationPc.rank])
  | reduceWrite hp =>
      rw [hp] at h
      exact (h.reduce (hok _ (by rw [hp]; rfl))).onward hp ⟨rfl, rfl, rfl, rfl⟩ rfl
        (by simp [ActivationPc.rank])
  | @addRead start hp =>
      rw [hp] at h
      have h' : Data cfg s (.addCount start s.expected) .idle L W closed r :=
        h.walk (by simp) rfl rfl rfl ⟨h.loc, rfl⟩
      exact h'.onward hp (.refl s) rfl (by simp [ActivationPc.rank])
  | addCount hp =>
      rw [hp] at h
      exact h.add.onward hp ⟨rfl, rfl, rfl, rfl⟩ rfl (by simp [ActivationPc.rank])
  | @resumed saved hp =>
      rw [hp] at h
      obtain ⟨hptr, -, hsaved⟩ := h.loc
      have h' : Data cfg s (.test saved) .idle L W closed 0 :=
        h.walk (by simp) rfl rfl rfl ⟨hptr.root_eq_zero.mp rfl, hsaved⟩
      exact h'.onward hp (.refl s) rfl (by simp [ActivationPc.rank])
  | @release ptr saved hptr hp =>
      rw [hp] at h
      obtain ⟨hr, W', h'⟩ := h.resume_next hptr
      obtain ⟨live, busy, log, hrel⟩ := release_eq s ptr
      rw [hrel] at h' ⊢
      exact h'.along hp ⟨rfl, rfl, rfl, rfl⟩ rfl rfl hr
  | pass hle hp =>
      -- the entries left over fill the next phase: its activation takes over
      rw [hp] at h
      refine ⟨.queued, L, W, closed, 0, (h.test_queued hle).goto.completePhase, ?_, rfl, rfl,
        Or.inr ⟨rfl, rfl⟩⟩
      rw [hp]
      exact remaining_over Nat.one_pos
  | ends hgt hp =>
      rw [hp] at h
      exact (h.test_idle hgt).advanced hp (remaining_over Nat.one_pos) (.refl s)

/-! ## Steps of an arrival -/

/-- A suspended activation does not look at the working set. -/
theorem Local.mono {L' : List Entry} (h : Local cfg s L W r p) (hp : p.running = false)
    (he : s'.expected = s.expected)
    (hmem : ∀ e ∈ W, s'.mem e.addr.val = s.mem e.addr.val) (hlen : L.length ≤ L'.length) :
    Local cfg s' L' W r p := by
  cases p with
  | idle => exact h
  | queued =>
      obtain ⟨hW, hle⟩ := h
      exact ⟨hW, by rw [he]; omega⟩
  | yielding start n => exact ⟨h.1.congr hmem, h.2⟩
  | completing start n => exact ⟨h.1.congr hmem, h.2⟩
  | _ => cases hp

/-- While an activation is suspended, `count_` has no place left. -/
theorem Data.count_le (h : Data cfg s p a L W closed r) (hp : p.running = false)
    (hidle : p ≠ .idle) : s.count ≤ -a.unpushed := by
  have hcount := h.count
  have hloc := h.loc
  cases p with
  | queued =>
      have hle : s.expected ≤ L.length := hloc.2
      simp only [ActivationPc.due] at hcount
      omega
  | idle => exact absurd rfl hidle
  | yielding start n =>
      simp only [ActivationPc.due] at hcount
      omega
  | completing start n =>
      simp only [ActivationPc.due] at hcount
      omega
  | _ => cases hp

theorem Data.gotoArrival {i : Nat} {b : ArrivalPc} (h : Data cfg s p a L W closed r) :
    Data cfg (s.gotoArrival i b) p a L W closed r :=
  ⟨h.1, h.2, h.3, h.4, by cases a <;> exact h.5, h.6, h.7, by cases p <;> exact h.8, h.9, h.10⟩

/-- A new arrival is counted. -/
theorem Data.arrive {x : Item} {w : Addr} {n : Node}
    (h : Data cfg s p .idle L W closed r) (busy : Coro → Bool) (hp : p.running = false)
    (hlive : s.live w.val = false) (hn : Stored n x) :
    Data cfg { s.arrive x w n with busy := busy } p (.load x w s.count) L W closed r := by
  have hw : ∀ e ∈ L ++ W, e.addr ≠ w := by
    rintro e he rfl
    rw [(h.stored e he).1] at hlive
    cases hlive
  have hmem : ∀ e ∈ L ++ W,
      (s.arrive x w n).mem e.addr.val = s.mem e.addr.val := by
    intro e he
    simp [State.arrive, hw e he]
  refine ⟨h.expected_pos, ?_, h.nodup, ?_, ?_, ?_, ?_, ?_, h.log, h.phases⟩
  · exact h.chain.congr fun e he => hmem e (by simp [he])
  · intro e he
    obtain ⟨h1, h2⟩ := h.stored e he
    refine ⟨by simp [State.arrive, hw e he, h1], ?_⟩
    show Stored ((s.arrive x w n).mem e.addr.val) e.item
    rwa [hmem e he]
  · refine ⟨by simp [State.arrive], ?_, by simpa [State.arrive] using hn, ?_⟩
    · intro hmem'
      obtain ⟨e, he, rfl⟩ := List.mem_map.mp hmem'
      exact hw e he rfl
    · show s.count = s.count - 1 + 1
      omega
  · have := h.count
    simp only [State.arrive, ArrivalPc.unpushed] at this ⊢
    push_cast at this ⊢
    omega
  · intro hidle
    obtain ⟨h1, h2⟩ := h.rest hidle
    have : s.count ≠ 0 := fun h0 => h2 h0 rfl
    refine ⟨?_, fun _ => by simp⟩
    show 0 ≤ s.count - 1
    omega
  · exact h.loc.mono hp rfl (fun e he => hmem e (by simp [he])) (Nat.le_refl _)

theorem Data.load {x : Item} {w : Addr} {amount : Int}
    (h : Data cfg s p (.load x w amount) L W closed r) :
    Data cfg s p (.push x w amount s.workingSet) L W closed r :=
  { h with
    arriving := ⟨h.arriving, rfl⟩
    rest := fun hidle => ⟨(h.rest hidle).1, fun _ => by simp⟩ }

@[simp] theorem addressOf_val (w : Addr) : addressOf w.val = w.val := by
  have := w.aligned
  rw [addressOf, show kFlagMask = 2 ^ 2 - 1 from rfl, Nat.and_two_pow_sub_one_eq_mod]
  omega

theorem setNext_mem {w : Addr} {v : Nat} {e : Entry} (h : e.addr ≠ w) :
    (s.setNext w.val v).mem e.addr.val = s.mem e.addr.val := by
  simp [State.setNext, h]

/-- The link of the new entry is written. -/
theorem Data.link {x : Item} {w : Addr} {amount : Int} {previous : Nat}
    (h : Data cfg s p (.push x w amount previous) L W closed r) (hp : p.running = false) :
    Data cfg (s.setNext w.val previous) p (.push x w amount previous) L W closed r := by
  obtain ⟨⟨hlive, hw, hx, hamount⟩, hprev⟩ := h.arriving
  have hne : ∀ e ∈ L ++ W, e.addr ≠ w := fun e he heq => hw (heq ▸ List.mem_map_of_mem he)
  refine ⟨h.expected_pos, ?_, h.nodup, ?_, ?_, h.count, h.rest, ?_, h.log, h.phases⟩
  · exact h.chain.congr fun e he => setNext_mem (hne e (by simp [he]))
  · intro e he
    exact ⟨(h.stored e he).1, stored_setNext (h.stored e he).2⟩
  · exact ⟨⟨hlive, hw, stored_setNext hx, hamount⟩, hprev⟩
  · exact h.loc.mono hp rfl (fun e he => setNext_mem (hne e (by simp [he]))) (Nat.le_refl _)

/-- The new entry is pushed. -/
theorem Data.push {x : Item} {w : Addr} {amount : Int} {previous : Nat}
    (h : Data cfg s p (.push x w amount previous) L W closed r) (hp : p.running = false)
    (hlink : (s.mem w.val).next = previous) :
    Data cfg { s with workingSet := w.val ||| x.flag, pushed := s.pushed ++ [x] } p
      (if amount = 1 then .call else .idle) (⟨w, x⟩ :: L) W closed r := by
  obtain ⟨⟨hlive, hw, hx, hamount⟩, hprev⟩ := h.arriving
  refine ⟨h.expected_pos, ?_, ?_, ?_, ?_, ?_, ?_, ?_, h.log, ?_⟩
  · refine ⟨rfl, ?_⟩
    rw [State.link, hlink, hprev]
    exact h.chain
  · exact List.nodup_cons.mpr ⟨hw, h.nodup⟩
  · intro e he
    rcases List.mem_cons.mp he with rfl | he
    · exact ⟨hlive, hx⟩
    · exact h.stored e he
  · split
    · rename_i h1
      refine ⟨?_, by show s.count = 0; omega⟩
      by_contra hidle
      have := h.count_le hp hidle
      simp only [ArrivalPc.unpushed] at this
      omega
    · trivial
  · have hcount := h.count
    have hun : (if amount = 1 then ArrivalPc.call else .idle).unpushed = 0 := by split <;> rfl
    rw [hun]
    simp only [ArrivalPc.unpushed] at hcount
    simp only [List.length_cons]
    push_cast at hcount ⊢
    omega
  · intro hidle
    refine ⟨(h.rest hidle).1, fun h0 => ?_⟩
    rw [if_pos (by change s.count = 0 at h0; omega)]
    simp
  · exact h.loc.mono hp rfl (fun _ _ => rfl) (by simp)
  · show Barrier.phases cfg (s.pushed ++ [x]) = _
    have := h.phases
    simp only [Barrier.phases] at this ⊢
    rw [Phases.arriveAll_append, this, List.reverse_cons, List.map_append,
      Phases.arriveAll_append]
    rfl

/-- The last arrival of a phase calls `complete_phase`. -/
theorem Data.start (h : Data cfg s p .call L W closed r) :
    p = .idle ∧ Data cfg s .load .idle L W closed 0 := by
  obtain ⟨rfl, hcount⟩ := h.arriving
  have hc := h.count
  simp only [ActivationPc.due, ArrivalPc.unpushed] at hc
  refine ⟨rfl, { h with arriving := trivial, rest := ?_, loc := ⟨h.loc, by omega⟩ }⟩
  intro hidle
  cases hidle

/-! ## Whole runs -/

/-- At most one activation and one arrival are not over, the ones that were begun last; the
invariant holds of them. -/
structure Inv (cfg : Config) (s : State) (L W : List Entry) (closed : List (List Item))
    (r : Nat) : Prop where
  others : ∀ k, k + 1 ≠ s.activations → s.activation k = .idle
  othersArrival : ∀ i, i + 1 ≠ s.arrivals → s.arrival i = .idle
  data : Data cfg s (s.activation (s.activations - 1)) (s.arrival (s.arrivals - 1)) L W closed r

theorem inv_init (hcfg : 1 ≤ cfg.expected) : Inv cfg (init cfg) [] [] [] 0 :=
  ⟨fun _ _ => rfl, fun _ _ => rfl, data_init hcfg⟩

theorem Inv.last_activation (h : Inv cfg s L W closed r) (hk : s.activation k ≠ .idle) :
    s.activations = k + 1 := by
  by_contra hne
  exact hk (h.others k (fun e => hne e.symm))

theorem Inv.last_arrival {i : Nat} (h : Inv cfg s L W closed r) (hi : s.arrival i ≠ .idle) :
    s.arrivals = i + 1 := by
  by_contra hne
  exact hi (h.othersArrival i (fun e => hne e.symm))

theorem Inv.arrival_idle (h : Inv cfg s L W closed r)
    (hidle : ∀ i < s.arrivals, s.arrival i = .idle) : s.arrival (s.arrivals - 1) = .idle := by
  by_contra hne
  have := h.last_arrival hne
  exact hne (hidle _ (by omega))

theorem Inv.suspended (h : Inv cfg s L W closed r)
    (hrun : ∀ k < s.activations, (s.activation k).running = false) :
    (s.activation (s.activations - 1)).running = false := by
  by_cases hidle : s.activation (s.activations - 1) = .idle
  · rw [hidle]
    rfl
  · have := h.last_activation hidle
    exact hrun _ (by omega)

/-- The invariant after a step of an activation. -/
theorem Inv.activation {t : ThreadT} (h : Inv cfg s L W closed r)
    (hidle : ∀ i < s.arrivals, s.arrival i = .idle) (hok : keepsOne s (.activation k t))
    (hs : s.advanceActivation cfg k t = some s') :
    ∃ L' W' closed' r', Inv cfg s' L' W' closed' r' ∧ s'.arrival = s.arrival ∧
      s'.arrivals = s.arrivals ∧
      remaining L' (s'.activation (s'.activations - 1)) r' <
        remaining L (s.activation (s.activations - 1)) r := by
  have hk : s.activation k ≠ .idle := by
    intro hk
    simp [State.advanceActivation, hk] at hs
  have hlast := h.last_activation hk
  have hcur : s.activations - 1 = k := by omega
  have harr := h.arrival_idle hidle
  have hd := h.data
  rw [hcur, harr] at hd
  obtain ⟨q, L', W', closed', r', h', hlt, harr', harrs', ⟨hact, hacts⟩ | ⟨hact, hacts⟩⟩ :=
    hd.step hok hs
  · have hq : s'.activation (s'.activations - 1) = q := by
      rw [hacts, hcur, hact, Function.update_self]
    refine ⟨L', W', closed', r', ⟨?_, ?_, ?_⟩, harr', harrs', by rw [hq, hcur]; exact hlt⟩
    · intro j hj
      rw [hact, Function.update_of_ne (by omega)]
      exact h.others j (by omega)
    · rw [harr', harrs']
      exact h.othersArrival
    · rw [hq, harr', harrs', harr]
      exact h'
  · have hq : s'.activation (s'.activations - 1) = q := by
      rw [hacts, hact, Nat.add_sub_cancel, Function.update_self]
    refine ⟨L', W', closed', r', ⟨?_, ?_, ?_⟩, harr', harrs', by rw [hq, hcur]; exact hlt⟩
    · intro j hj
      rw [hact, Function.update_of_ne (by omega), Function.update_apply]
      split
      · rfl
      · exact h.others j (by omega)
    · rw [harr', harrs']
      exact h.othersArrival
    · rw [hq, harr', harrs', harr]
      exact h'

/-- The invariant after the first step of an arrival. -/
theorem Inv.arrive {x : Item} {w : Addr} {n : Node}
    (h : Inv cfg s L W closed r) (busy : Coro → Bool)
    (hidle : ∀ i < s.arrivals, s.arrival i = .idle)
    (hrun : ∀ k < s.activations, (s.activation k).running = false)
    (hlive : s.live w.val = false) (hn : Stored n x) :
    Inv cfg { s.arrive x w n with busy := busy } L W closed r := by
  have hd := h.data
  rw [h.arrival_idle hidle] at hd
  refine ⟨h.others, ?_, ?_⟩
  · intro i hi
    simp only [State.arrive] at hi ⊢
    rw [Function.update_of_ne (by omega)]
    by_cases hlt : i < s.arrivals
    · exact hidle i hlt
    · exact h.othersArrival i (by omega)
  · have hcur : (s.arrive x w n).arrival ((s.arrive x w n).arrivals - 1) = .load x w s.count := by
      simp [State.arrive]
    show Data cfg _ _ ((s.arrive x w n).arrival ((s.arrive x w n).arrivals - 1)) L W closed r
    rw [hcur]
    exact hd.arrive busy (h.suspended hrun) hlive hn

/-- The current arrival goes on at `b`, in a state `s'` that has the pcs of `s`. -/
theorem Inv.gotoArrival {i : Nat} {b : ArrivalPc} {L' : List Entry} (h : Inv cfg s L W closed r)
    (hlast : s.arrivals = i + 1)
    (hd : Data cfg s' (s.activation (s.activations - 1)) b L' W closed r) (hpcs : SamePcs s s') :
    Inv cfg (s'.gotoArrival i b) L' W closed r := by
  constructor
  · intro k hk
    show s'.activation k = .idle
    rw [hpcs.activation]
    exact h.others k (hpcs.activations ▸ hk)
  · intro j hj
    have hne : j ≠ i := by
      change j + 1 ≠ s'.arrivals at hj
      rw [hpcs.arrivals] at hj
      omega
    rw [gotoArrival_arrival, if_neg hne, hpcs.arrival]
    exact h.othersArrival j (by omega)
  · have harr : (s'.gotoArrival i b).arrival ((s'.gotoArrival i b).arrivals - 1) = b := by
      show (s'.gotoArrival i b).arrival (s'.arrivals - 1) = b
      rw [hpcs.arrivals, hlast, Nat.add_sub_cancel, gotoArrival_arrival, if_pos rfl]
    have hact : (s'.gotoArrival i b).activation ((s'.gotoArrival i b).activations - 1) =
        s.activation (s.activations - 1) := by
      show s'.activation (s'.activations - 1) = _
      rw [hpcs.activation, hpcs.activations]
    rw [harr, hact]
    exact hd.gotoArrival

/-- The current arrival calls `complete_phase`: the new activation is the current one. -/
theorem Inv.callCompletePhase {i : Nat} {r' : Nat} (h : Inv cfg s L W closed r)
    (hlast : s.arrivals = i + 1) (hidle : s.activation (s.activations - 1) = .idle)
    (hd : Data cfg s .load .idle L W closed r') :
    Inv cfg ((s.gotoArrival i .idle).completePhase .load (.arrival i)) L W closed r' := by
  constructor
  · intro k hk
    simp only [State.completePhase, State.gotoArrival] at hk ⊢
    rw [Function.update_of_ne (by omega)]
    by_cases hlt : k + 1 = s.activations
    · rwa [show k = s.activations - 1 by omega]
    · exact h.others k hlt
  · intro j hj
    have hne : j ≠ i := by
      change j + 1 ≠ s.arrivals at hj
      omega
    show (s.gotoArrival i .idle).arrival j = .idle
    rw [gotoArrival_arrival, if_neg hne]
    exact h.othersArrival j hj
  · have harr : ((s.gotoArrival i .idle).completePhase .load (.arrival i)).arrival
        (((s.gotoArrival i .idle).completePhase .load (.arrival i)).arrivals - 1) = .idle := by
      show (s.gotoArrival i .idle).arrival (s.arrivals - 1) = _
      rw [hlast, Nat.add_sub_cancel, gotoArrival_arrival, if_pos rfl]
    have hact : ((s.gotoArrival i .idle).completePhase .load (.arrival i)).activation
        (((s.gotoArrival i .idle).completePhase .load (.arrival i)).activations - 1) = .load := by
      simp [State.completePhase]
    rw [harr, hact]
    exact hd.gotoArrival.completePhase

/-- The invariant after any other step of an arrival. -/
theorem Inv.arrival {i : Nat} {b : Bool} (h : Inv cfg s L W closed r)
    (hrun : ∀ k < s.activations, (s.activation k).running = false)
    (hs : s.advanceArrival i b = some s') : ∃ L' r', Inv cfg s' L' W closed r' := by
  have hi : s.arrival i ≠ .idle := by
    intro hi
    simp [State.advanceArrival, hi] at hs
  have hlast := h.last_arrival hi
  have hcur : s.arrivals - 1 = i := by omega
  have hp := h.suspended hrun
  have hd := h.data
  rw [hcur] at hd
  cases arrives_of_advance hs with
  | load ha =>
      rw [ha] at hd
      exact ⟨L, r, h.gotoArrival hlast hd.load (.refl s)⟩
  | push ha =>
      rw [ha] at hd
      have hpush := (hd.link hp).push hp (by simp [State.setNext])
      exact ⟨_, r, h.gotoArrival hlast hpush ⟨rfl, rfl, rfl, rfl⟩⟩
  | again ha =>
      -- the exchange has failed: `previous` is read again, and nobody has changed it
      rw [ha] at hd
      have hlink := hd.link hp
      obtain ⟨-, rfl⟩ := hd.arriving
      exact ⟨L, r, h.gotoArrival hlast hlink ⟨rfl, rfl, rfl, rfl⟩⟩
  | call ha =>
      rw [ha] at hd
      obtain ⟨hidle, h'⟩ := hd.start
      exact ⟨L, 0, h.callCompletePhase hlast hidle h'⟩

theorem Inv.step {c : Action} (h : Inv cfg s L W closed r) (hok : legal s c)
    (hs : step cfg s c = some s') : ∃ L' W' closed' r', Inv cfg s' L' W' closed' r' := by
  obtain ⟨hsolo, hone⟩ := hok
  cases c with
  | arriveAndWait c w t =>
      obtain ⟨-, hlive, rfl⟩ := eq_of_arriveAndWait hs
      exact ⟨L, W, closed, r, h.arrive _ hsolo.1 hsolo.2 hlive ⟨rfl, rfl⟩⟩
  | arriveAndDrop w =>
      obtain ⟨hlive, rfl⟩ := eq_of_arriveAndDrop hs
      exact ⟨L, W, closed, r, h.arrive s.busy hsolo.1 hsolo.2 hlive trivial⟩
  | arrival i b =>
      obtain ⟨L', r', h'⟩ := h.arrival hsolo.2 hs
      exact ⟨L', W, closed, r', h'⟩
  | activation k t =>
      obtain ⟨L', W', closed', r', h', -⟩ := h.activation hsolo.1 hone hs
      exact ⟨L', W', closed', r', h'⟩

theorem Reachable.inv (hr : Reachable cfg s) (hcfg : 1 ≤ cfg.expected) :
    ∃ L W closed r, Inv cfg s L W closed r := by
  refine Reaches.invariant (I := fun s => ∃ L W closed r, Inv cfg s L W closed r) hr ?_ ?_
  · rintro s rfl
    exact ⟨[], [], [], 0, inv_init hcfg⟩
  · rintro s c s' - ⟨L, W, closed, r, h⟩ hok hs
    exact h.step hok hs

end

end Zab.Barrier
