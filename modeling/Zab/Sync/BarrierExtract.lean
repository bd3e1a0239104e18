import Zab.Sync.BarrierPhasesSound
import Zab.Sync.BarrierWindow

set_option autoImplicit false

/-! # The window of the barrier

`complete_phase` takes the `expected_` oldest entries out of `working_set_`. `aquire_window` finds
where they begin, with a second pointer that follows the walk at a distance, and either the
`compare_exchange_strong` takes the whole list or a second walk cuts the list off in front of them.
Arrivals push their entries meanwhile, and the activations of earlier phases release theirs.

Whatever the list is, the window is its end of that length. The other entries stay in
`working_set_` in their order, behind what has been pushed meanwhile, and `amount_to_drop` is the
number of drops in the window.
-/

namespace Zab.Barrier

open Automaton

/-- The other activations have given the places of the next phase to `count_`, and have nothing to
do with `working_set_` any more. -/
def alone (k : Nat) (s : State) (_ : Action) : Prop :=
  ∀ j < s.activations, j ≠ k → (s.activation j).early = false

instance (k : Nat) (s : State) (a : Action) : Decidable (alone k s a) :=
  inferInstanceAs (Decidable (∀ j < s.activations, j ≠ k → (s.activation j).early = false))

/-- `complete_phase` has not yet counted the drops of its window. -/
def ActivationPc.extracting : ActivationPc → Bool
  | .load | .window _ _ _ _ | .trim _ | .trimWalk _ _ | .drops _ _ _ => true
  | _ => false

/-- A step of activation `k`. -/
def Action.ofActivation (k : Nat) : Action → Bool
  | .activation j _ => j = k
  | _ => false

/-- What has become of the list `A ++ B` of `working_set_`, whose end `B` is the window, while the
entries `M` have been pushed on it. `trim` is where `aquire_window` returns. -/
def Extracted (s : State) (M A B : List Entry) : ActivationPc → Prop
  | .queued | .load | .window _ _ _ _ => Listed s s.workingSet (M ++ (A ++ B))
  | .trim start | .trimWalk start _ =>
      Listed s s.workingSet (M ++ (A ++ B)) ∧ Listed s start B
  | .drops start _ _ => Listed s s.workingSet (M ++ A) ∧ Listed s start B
  | .yielding start n | .completing start n | .reduceRead start n =>
      Listed s s.workingSet (M ++ A) ∧ Listed s start B ∧ n = dropped B
  | .reduceWrite start _ | .addRead start | .addCount start _ =>
      Listed s s.workingSet (M ++ A) ∧ Listed s start B
  | .idle | .resume _ _ | .test _ => Listed s s.workingSet (M ++ A)

/-! ## The invariant -/

/-- What is left in `working_set_` of the list `A ++ B`. -/
def ActivationPc.rest (A B : List Entry) : ActivationPc → List Entry
  | .queued | .load | .window _ _ _ _ | .trim _ | .trimWalk _ _ => A ++ B
  | _ => A

/-- What the activation knows about the window `B`, if it has cut off `W₀`. -/
def ActivationPc.Knowing (s : State) (B W₀ : List Entry) : ActivationPc → Prop
  | .queued => False
  | .load => (B.length : Int) = s.expected
  | .window ptr count head current =>
      (B.length : Int) = s.expected ∧ Measured s (.window ptr count head current) ∧
        Finds s (.window ptr count head current)
  | .trim start | .trimWalk start _ => Listed s start B
  | .drops _ ptr n => W₀ = B ∧ ∃ l, l <:+ B ∧ Listed s ptr l ∧ n + dropped l = dropped B
  | .yielding _ n | .completing _ n | .reduceRead _ n => W₀ = B ∧ n = dropped B
  | .reduceWrite _ _ | .addRead _ | .addCount _ _ => W₀ = B
  | .idle | .resume _ _ | .test _ => True

/-- Activation `k` takes the window `B` out of `A ++ B`, and `M` has been pushed meanwhile. -/
structure Extracts (s : State) (k : Nat) (M A B : List Entry) (W : Nat → List Entry) : Prop where
  fresh : ∀ j, s.activations ≤ j → s.activation j = .idle
  started : k < s.activations
  memory : Memory s (M ++ (s.activation k).rest A B) W
  knowing : (s.activation k).Knowing s B (W k)

/-- `r` steps are enough to count the drops of the window, if `working_set_` has `n` entries
before the cut. -/
def ActivationPc.Within (s : State) (n r : Nat) : ActivationPc → Prop
  | .load => 2 * n + 4 ≤ r
  | .window ptr _ _ _ => ∃ l : List Entry, Listed s ptr l ∧ l.length + n + 3 ≤ r
  | .trim _ => n + 2 ≤ r
  | .trimWalk _ ptr | .drops _ ptr _ => ∃ l : List Entry, Listed s ptr l ∧ l.length + 1 ≤ r
  | _ => True

section

variable {cfg : Config} {s s' : State} {M M' A B L L' W₀ : List Entry} {W W' : Nat → List Entry}
  {q : ActivationPc} {k i n r : Nat} {t : ThreadT}

theorem Extracts.extracted (h : Extracts s k M A B W) :
    Extracted s M A B (s.activation k) := by
  have hchain := h.memory.chain
  have hlists := h.memory.lists k
  have hknowing := h.knowing
  cases hp : s.activation k with
  | queued | load | window ptr count head current | idle | resume ptr saved | test saved =>
      rw [hp] at hchain
      exact hchain
  | trim start | trimWalk start ptr =>
      rw [hp] at hchain hknowing
      exact ⟨hchain, hknowing⟩
  | drops start ptr m =>
      rw [hp] at hchain hknowing hlists
      exact ⟨hchain, hknowing.1 ▸ hlists.1⟩
  | yielding start m | completing start m | reduceRead start m =>
      rw [hp] at hchain hknowing hlists
      exact ⟨hchain, hknowing.1 ▸ hlists, hknowing.2⟩
  | reduceWrite start v | addRead start | addCount start e =>
      rw [hp] at hchain hknowing hlists
      exact ⟨hchain, hknowing ▸ hlists⟩

/-- The ends of one list that have a root in common are the same. -/
theorem Listed.suffix_unique {w : Nat} {l m : List Entry} (hl : Listed s w l) (hm : Listed s w m)
    (hlL : l <:+ L) (hmL : m <:+ L) : l = m := by
  have hlen := hl.length_unique hm
  exact (List.suffix_of_suffix_length_le hlL hmL (Nat.le_of_eq hlen)).eq_of_length hlen

/-! ## Steps of the others -/

/-- What the activation knows survives as long as the entries do. -/
theorem ActivationPc.Knowing.mono (hq : q.Knowing s B W₀) (hl : q.Lists s (M ++ q.rest A B) W₀)
    (he : s'.expected = s.expected)
    (hmem : ∀ e ∈ M ++ q.rest A B, s'.mem e.addr.val = s.mem e.addr.val)
    (hwin : ∀ e ∈ W₀, s'.mem e.addr.val = s.mem e.addr.val) : q.Knowing s' B W₀ := by
  cases q with
  | queued => exact hq
  | load =>
      have hlen : (B.length : Int) = s.expected := hq
      exact hlen.trans he.symm
  | window ptr count head current =>
      obtain ⟨hlen, hmeasured, hfinds⟩ := hq
      exact ⟨hlen.trans he.symm, hmeasured.mono hl he hmem, hfinds.mono hl he hmem⟩
  | trim start | trimWalk start ptr =>
      refine Listed.congr hq fun e he => hmem e ?_
      exact List.mem_append_right _ (List.mem_append_right _ he)
  | drops start ptr m =>
      obtain ⟨rfl, l, hlB, hptr, hn⟩ := hq
      exact ⟨rfl, l, hlB, hptr.congr fun e he => hwin e (hlB.subset he), hn⟩
  | yielding start m | completing start m | reduceRead start m | reduceWrite start v
  | addRead start | addCount start e | idle | resume ptr saved | test saved => exact hq

/-- The bound survives, with two more steps for each entry that is pushed. -/
theorem ActivationPc.Within.mono (hq : q.Within s n r) (hl : q.Lists s L W₀) (m : Nat)
    (hmem : ∀ e ∈ L, s'.mem e.addr.val = s.mem e.addr.val)
    (hwin : ∀ e ∈ W₀, s'.mem e.addr.val = s.mem e.addr.val) :
    q.Within s' (n + m) (r + 2 * m) := by
  have hlong : ∀ {w : Nat} {l l' : List Entry}, Listed s w l → Listed s w l' →
      (∀ e ∈ l', s'.mem e.addr.val = s.mem e.addr.val) →
      ∃ l', Listed s' w l' ∧ l'.length = l.length :=
    fun hl hl' hsame => ⟨_, hl'.congr hsame, hl'.length_unique hl⟩
  cases q with
  | load =>
      have hr : 2 * n + 4 ≤ r := hq
      show 2 * (n + m) + 4 ≤ r + 2 * m
      omega
  | trim start =>
      have hr : n + 2 ≤ r := hq
      show n + m + 2 ≤ r + 2 * m
      omega
  | window ptr count head current =>
      obtain ⟨l, hptr, hr⟩ := hq
      obtain ⟨-, C, hC, -, l', hl', hptr', -⟩ := hl
      obtain ⟨l'', hptr'', hlen⟩ := hlong hptr hptr' fun e he => hmem e ((hl'.trans hC).subset he)
      exact ⟨l'', hptr'', by omega⟩
  | trimWalk start ptr =>
      obtain ⟨l, hptr, hr⟩ := hq
      obtain ⟨-, -, l', -, -, -, hl', -, hptr'⟩ := hl
      obtain ⟨l'', hptr'', hlen⟩ := hlong hptr hptr' fun e he => hmem e (hl'.subset he)
      exact ⟨l'', hptr'', by omega⟩
  | drops start ptr c =>
      obtain ⟨l, hptr, hr⟩ := hq
      obtain ⟨-, l', hl', hptr'⟩ := hl
      obtain ⟨l'', hptr'', hlen⟩ := hlong hptr hptr' fun e he => hwin e (hl'.subset he)
      exact ⟨l'', hptr'', by omega⟩
  | _ => trivial

/-- Every activation that has been started is counted. -/
theorem fresh_step {a : Action} (hfresh : ∀ j, s.activations ≤ j → s.activation j = .idle)
    (hs : step cfg s a = some s') : ∀ j, s'.activations ≤ j → s'.activation j = .idle := by
  -- a party that moves has been counted
  have hmove : ∀ {k j : Nat} {q : ActivationPc}, s.activation k ≠ .idle → s.activations ≤ j →
      Function.update s.activation k q j = .idle := by
    intro k j q hk hj
    have hne : j ≠ k := by
      rintro rfl
      exact hk (hfresh j hj)
    rw [Function.update_of_ne hne]
    exact hfresh j hj
  have hnew : ∀ {f : Nat → ActivationPc} {q : ActivationPc} {j : Nat},
      (∀ j, s.activations ≤ j → f j = .idle) → s.activations + 1 ≤ j →
      Function.update f s.activations q j = .idle := by
    intro f q j hf hj
    rw [Function.update_of_ne (by omega)]
    exact hf j (by omega)
  intro j hj
  cases a with
  | arriveAndWait c w t =>
      obtain ⟨-, -, rfl⟩ := eq_of_arriveAndWait hs
      exact hfresh j hj
  | arriveAndDrop w =>
      obtain ⟨-, rfl⟩ := eq_of_arriveAndDrop hs
      exact hfresh j hj
  | arrival i b =>
      cases arrives_of_advance hs with
      | load hi | push hi | again hi => exact hfresh j hj
      | call hi => exact hnew hfresh hj
  | activation k t =>
      have hk : s.activation k ≠ .idle := by
        intro hidle
        simp [Barrier.step, State.advanceActivation, hidle] at hs
      cases activates_of_advance hs with
      | @release ptr saved hptr hp =>
          obtain ⟨hsame, -, hact⟩ := sameCounters_release s ptr
          refine (congrFun (congrArg (Function.update · k _) hact) j).trans (hmove hk ?_)
          rw [← hsame.activations]
          exact hj
      | pass hle hp => exact hnew (fun j hj => hmove hk hj) hj
      | _ => exact hmove hk hj

/-! ## Steps of the activation -/

/-- Nothing is cut off. -/
theorem Hands.stays (h : Hands s s' k L L' W W')
    (hcut : (s.activation k).cutAt = none ∨ (s'.activation k).cutAt = (s.activation k).cutAt) :
    L' = L ∧ ((s.activation k).early = true → W' k = W k) := by
  obtain rfl : L' = L := by
    rcases h.takes with ⟨hL, -⟩ | ⟨start, m, hp, hq, -⟩
    · exact hL
    · rw [hp, hq] at hcut
      rcases hcut with hcut | hcut <;> cases hcut
  exact ⟨rfl, fun hearly => List.append_cancel_left (h.kept hearly)⟩

/-- The window is cut off, and it is `B`. -/
theorem Hands.cutsOff {start : Nat} (h : Hands s s' k (M ++ (A ++ B)) L W W')
    (hcut : (s.activation k).cutAt = some start) (hq : s'.activation k = .drops start start 0)
    (hB : Listed s start B) (hW : W k = []) : L = M ++ A ∧ W' k = B := by
  have hearly : (s.activation k).early = true := by
    rcases cutAt_eq_some hcut with hp | ⟨ptr, hp⟩ <;> rw [hp] <;> rfl
  have hkept := h.kept hearly
  -- what is cut off has the root of `B` and is an end of the same list
  rcases h.takes with ⟨-, hnone | hsame⟩ | ⟨start', m, hcut', -, happ, hm⟩
  · rw [hnone] at hcut
    cases hcut
  · rw [hq, hcut] at hsame
    cases hsame
  · obtain rfl : start = start' := Option.some.inj (hcut.symm.trans hcut')
    have hmB : B = m := hB.suffix_unique hm ((List.suffix_append A B).trans
      (List.suffix_append M (A ++ B))) ⟨L, happ.symm⟩
    subst hmB
    rw [← List.append_assoc] at happ hkept
    obtain rfl := List.append_cancel_right happ
    rw [hW, List.append_nil] at hkept
    exact ⟨rfl, List.append_cancel_left hkept⟩

/-- Where `aquire_window` returns, the window is `B`. -/
theorem window_found {head current : Nat} {count : Int}
    (hl : (ActivationPc.window 0 count head current).Lists s (M ++ (A ++ B)) W₀)
    (hm : Measured s (.window 0 count head current)) (hlen : (B.length : Int) = s.expected)
    (hhead : head ≠ 0) : Listed s head B := by
  obtain ⟨-, m, -, hmL, hlist⟩ := window_end hl hhead
  have hmlen : (m.length : Int) = s.expected := hlist.long_iff.mp (hm.window_end hhead)
  have hB : B <:+ M ++ (A ++ B) := (List.suffix_append A B).trans (List.suffix_append M (A ++ B))
  have hsame : m.length = B.length := by omega
  rw [← (List.suffix_of_suffix_length_le hmL hB (Nat.le_of_eq hsame)).eq_of_length hsame]
  exact hlist

/-- **One step of the activation.** -/
theorem Extracts.own (h : Extracts s k M A B W) (hpos : 1 ≤ B.length)
    (halone : ∀ j, j ≠ k → (s.activation j).early = false)
    (hs : s.advanceActivation cfg k t = some s') : ∃ W', Extracts s' k M A B W' := by
  have hfresh := h.fresh s.activations (Nat.le_refl _)
  have hfresh' := fresh_step (a := .activation k t) h.fresh hs
  have hstarted : k < s'.activations :=
    h.started.trans_le (activations_le (a := .activation k t) hs)
  have hlists := h.memory.lists k
  have hknowing := h.knowing
  obtain ⟨L', W', hh⟩ := h.memory.activation hfresh (fun _ j hj => halone j hj) hs
  -- the activation leaves `working_set_` alone
  have hstay : ∀ q, s'.activation k = q →
      ((s.activation k).cutAt = none ∨ q.cutAt = (s.activation k).cutAt) →
      q.rest A B = (s.activation k).rest A B →
      (((s.activation k).early = true → W' k = W k) → q.Knowing s' B (W' k)) →
      ∃ W', Extracts s' k M A B W' := by
    rintro q hq hcut hrest hknow
    rw [← hq] at hcut hrest
    obtain ⟨rfl, hW⟩ := hh.stays hcut
    refine ⟨W', hfresh', hstarted, ?_, ?_⟩
    · rw [hrest]
      exact hh.memory
    · rw [hq]
      exact hknow hW
  -- it cuts the window off
  have hcut : ∀ start, (s.activation k).rest A B = A ++ B → (s.activation k).cutAt = some start →
      s'.activation k = .drops start start 0 → Listed s start B → W k = [] →
      ∃ W', Extracts s' k M A B W' := by
    intro start hrest hcut hq hB hW
    rw [hrest] at hh
    obtain ⟨rfl, hWB⟩ := hh.cutsOff hcut hq hB hW
    have hstart := hh.memory.lists k
    rw [hq] at hstart
    refine ⟨W', hfresh', hstarted, ?_, ?_⟩
    · rw [hq]
      exact hh.memory
    · rw [hq]
      exact ⟨hWB, B, List.suffix_refl B, hWB ▸ hstart.1, Nat.zero_add _⟩
  cases activates_of_advance hs with
  | begin hp =>
      rw [hp] at hknowing
      exact hknowing.elim
  | load hp =>
      have hchain := h.memory.chain
      rw [hp] at hknowing hstay hchain
      have hlen : (B.length : Int) = s.expected := hknowing
      -- the list that is loaded is longer than the window by `M` and `A`
      have hmeasured : Measured s (s.activation k) := by
        rw [hp]
        trivial
      have hown := hmeasured.own hchain (by omega) hfresh hs
      rw [goto_self] at hown
      refine hstay _ (goto_self ..) (Or.inl rfl) rfl fun _ => ⟨hlen, hown, _, ⟨_, hchain, rfl⟩, ?_⟩
      show s.expected ≤ ((M ++ (A ++ B)).length : Int)
      rw [← hlen, List.length_append, List.length_append]
      omega
  | again hp =>
      -- the list that was loaded is long enough
      rw [hp] at hknowing
      exact (hknowing.2.2.not_again hknowing.2.1).elim
  | found hhead hp =>
      rw [hp] at hknowing hstay hlists
      exact hstay _ (goto_self ..) (Or.inl rfl) rfl fun _ =>
        window_found hlists hknowing.2.1 hknowing.1 hhead
  | look hptr hp =>
      rw [hp] at hknowing hstay
      obtain ⟨hlen, hmeasured, hfinds⟩ := hknowing
      have hnext := hmeasured.window_next (by omega) hptr
      exact hstay _ (goto_self ..) (Or.inl rfl) rfl fun _ => ⟨hlen, hnext, hfinds⟩
  | cutAll hp =>
      -- the root is where the window begins: nothing else is in the list
      rw [hp] at hknowing hcut hlists
      exact hcut _ rfl rfl (goto_self s k _) hknowing hlists.1
  | walk hroot hp =>
      rw [hp] at hknowing hstay
      exact hstay _ (goto_self ..) (Or.inr rfl) rfl fun _ => hknowing
  | walkOut hp =>
      -- the walk comes to the window before the list ends
      exact absurd rfl (h.memory.trimWalk_next hp halone).1
  | cut hptr hp =>
      rw [hp] at hknowing hcut hlists
      exact hcut _ rfl rfl (goto_self ..) hknowing hlists.1
  | walkOn hptr hnext hp =>
      rw [hp] at hknowing hstay
      exact hstay _ (goto_self ..) (Or.inr rfl) rfl fun _ => hknowing
  | noFunction hf hp | yield hf hp | callHere hf hp =>
      -- no entry is left to count
      rw [hp] at hknowing hstay
      obtain ⟨hWB, l, -, hptr, hn⟩ := hknowing
      obtain rfl : l = [] := hptr.root_eq_zero.mp rfl
      exact hstay _ (goto_self _ k _) (Or.inl rfl) rfl fun hW => ⟨(hW rfl).trans hWB, hn⟩
  | countDrop hptr hp =>
      rw [hp] at hknowing hstay
      obtain ⟨hWB, l, hlB, hlist, hn⟩ := hknowing
      obtain ⟨e, l, rfl, rfl, hnext⟩ := hlist.cons_of_ne hptr
      refine hstay _ (goto_self ..) (Or.inl rfl) rfl fun hW => ⟨(hW rfl).trans hWB, l,
        (List.suffix_cons e l).trans hlB, hnext, ?_⟩
      rw [← hn, dropped_cons, isDrop_word]
      split
      · omega
      · omega
  | call hp | finish hp =>
      rw [hp] at hknowing hstay
      exact hstay _ (goto_self s k _) (Or.inl rfl) rfl fun hW =>
        ⟨(hW rfl).trans hknowing.1, hknowing.2⟩
  | reduceRead hp =>
      rw [hp] at hknowing hstay
      exact hstay _ (goto_self ..) (Or.inl rfl) rfl fun hW => (hW rfl).trans hknowing.1
  | reduceWrite hp | addRead hp =>
      rw [hp] at hknowing hstay
      exact hstay _ (goto_self s k _) (Or.inl rfl) rfl fun hW => (hW rfl).trans hknowing
  | addCount hp | resumed hp | ends hgt hp =>
      rw [hp] at hstay
      exact hstay _ (goto_self s k _) (Or.inl rfl) rfl fun _ => trivial
  | release hptr hp =>
      rw [hp] at hstay
      exact hstay _ (goto_self ..) (Or.inl rfl) rfl fun _ => trivial
  | pass hle hp =>
      have hidle := idle_of_pass hfresh (by rw [hp]; exact ActivationPc.noConfusion)
      rw [hp] at hstay
      exact hstay _ hidle (Or.inl rfl) rfl fun _ => trivial

/-- Before the drops have been counted, every step of the activation comes nearer to that. -/
theorem Extracts.nearer (h : Extracts s k M A B W) (h' : Extracts s' k M A B W')
    (halone : ∀ j, j ≠ k → (s.activation j).early = false)
    (hs : s.advanceActivation cfg k t = some s') (hq : (s'.activation k).extracting = true) :
    (s.activation k).extracting = true ∧
      ∀ r, (s.activation k).Within s (M.length + (A ++ B).length) r →
        ∃ r' < r, (s'.activation k).Within s' (M.length + (A ++ B).length) r' := by
  have hknowing := h.knowing
  have hchain := h.memory.chain
  have hwhole : (M ++ (A ++ B)).length = M.length + (A ++ B).length := List.length_append
  cases activates_of_advance hs with
  | begin hp =>
      rw [hp] at hknowing
      exact hknowing.elim
  | load hp =>
      rw [hp] at hchain ⊢
      rw [goto_self]
      refine ⟨rfl, fun r (hr : 2 * (M.length + (A ++ B).length) + 4 ≤ r) => ?_⟩
      refine ⟨r - 1, by omega, _, hchain, ?_⟩
      show (M ++ (A ++ B)).length + _ + 3 ≤ r - 1
      omega
  | again hp =>
      rw [hp] at hknowing
      exact (hknowing.2.2.not_again hknowing.2.1).elim
  | found hhead hp =>
      rw [hp, goto_self]
      refine ⟨rfl, ?_⟩
      rintro r ⟨l, -, hr⟩
      refine ⟨r - 1, by omega, ?_⟩
      show _ + 2 ≤ r - 1
      omega
  | look hptr hp | walkOn hptr _ hp | countDrop hptr hp =>
      rw [hp, goto_self]
      refine ⟨rfl, ?_⟩
      rintro r ⟨l, hlist, hr⟩
      obtain ⟨e, l, rfl, -, hnext⟩ := hlist.cons_of_ne hptr
      rw [List.length_cons] at hr
      exact ⟨r - 1, by omega, l, hnext, by omega⟩
  | cutAll hp =>
      have hdrops := h'.extracted
      have hself := goto_self s k (.drops s.workingSet s.workingSet 0)
      rw [show State.activation _ k = _ from hself] at hdrops ⊢
      rw [hp]
      refine ⟨rfl, fun r (hr : M.length + (A ++ B).length + 2 ≤ r) => ?_⟩
      -- the window is not longer than the list
      rw [List.length_append] at hr
      exact ⟨r - 1, by omega, B, hdrops.2, by omega⟩
  | walk hroot hp =>
      rw [hp] at hchain ⊢
      rw [goto_self]
      refine ⟨rfl, fun r (hr : M.length + (A ++ B).length + 2 ≤ r) => ?_⟩
      refine ⟨r - 1, by omega, _, hchain, ?_⟩
      show (M ++ (A ++ B)).length + 1 ≤ r - 1
      omega
  | walkOut hp => exact absurd rfl (h.memory.trimWalk_next hp halone).1
  | cut hptr hp =>
      have hdrops := h'.extracted
      rw [goto_self] at hdrops ⊢
      rw [hp] at hknowing ⊢
      refine ⟨rfl, ?_⟩
      rintro r ⟨l, hlist, hr⟩
      obtain ⟨e, l, rfl, -, hnext⟩ := hlist.cons_of_ne hptr
      -- the walk stands on the last entry before the window
      have hlen := hnext.length_unique hknowing
      rw [List.length_cons] at hr
      exact ⟨r - 1, by omega, B, hdrops.2, by omega⟩
  | noFunction hf hp | yield hf hp | callHere hf hp | call hp | finish hp | reduceRead hp
  | reduceWrite hp | addRead hp | addCount hp | resumed hp | release hptr hp | ends hgt hp =>
      have hq : ((State.goto _ k _).activation k).extracting = true := hq
      rw [goto_self] at hq
      cases hq
  | pass hle hp =>
      have hidle := idle_of_pass (h.fresh _ (Nat.le_refl _)) (k := k)
        (by rw [hp]; exact ActivationPc.noConfusion)
      rw [hidle] at hq
      cases hq

/-! ## Runs -/

/-- What a step makes of the extraction: `M'` is what it pushes. -/
structure Extraction (s s' : State) (a : Action) (k : Nat) (M M' A B : List Entry)
    (W' : Nat → List Entry) : Prop where
  extracts : Extracts s' k (M' ++ M) A B W'
  pushed : s'.pushed = s.pushed ++ (M'.map Entry.item).reverse
  nearer : (s'.activation k).extracting = true → (s.activation k).extracting = true ∧
    ∀ r, (s.activation k).Within s (M.length + (A ++ B).length) r →
      ∃ r', (s'.activation k).Within s' ((M' ++ M).length + (A ++ B).length) r' ∧
        r' + [a].countP (Action.ofActivation k) ≤ r + 2 * M'.length

/-- A step of somebody else. -/
theorem Extracts.other {a : Action} (h : Extracts s k M A B W) (hs : step cfg s a = some s')
    (ha : a.ofActivation k = false) (hle : s.activations ≤ s'.activations)
    (hm : Memory s' (M' ++ (M ++ (s.activation k).rest A B)) W') (hW : W' k = W k)
    (hact : s'.activation k = s.activation k) (he : s'.expected = s.expected)
    (hpushed : s'.pushed = s.pushed ++ (M'.map Entry.item).reverse)
    (hmem : ∀ p, p = .set ∨ p = .window k →
      ∀ e ∈ s.held (M ++ (s.activation k).rest A B) W p, s'.mem e.addr.val = s.mem e.addr.val) :
    Extraction s s' a k M M' A B W' := by
  have hset := hmem .set (Or.inl rfl)
  have hwin := hmem (.window k) (Or.inr rfl)
  have hlists := h.memory.lists k
  refine ⟨⟨fresh_step h.fresh hs, h.started.trans_le hle, ?_, ?_⟩, hpushed, ?_⟩
  · rw [hact, List.append_assoc]
    exact hm
  · rw [hact, hW]
    exact h.knowing.mono hlists he hset hwin
  · rw [hact]
    refine fun hq => ⟨hq, fun r hr => ⟨r + 2 * M'.length, ?_, ?_⟩⟩
    · rw [List.length_append, Nat.add_comm M'.length, Nat.add_right_comm]
      exact hr.mono hlists M'.length hset hwin
    · rw [List.countP_singleton, ha]
      simp

/-- An activation pushes nothing. -/
theorem pushed_activation (hs : s.advanceActivation cfg k t = some s') : s'.pushed = s.pushed := by
  cases activates_of_advance hs with
  | @release ptr saved hptr hp =>
      obtain ⟨live, busy, log, hrel⟩ := release_eq s ptr
      rw [hrel]
      rfl
  | _ => rfl

/-- **One step.** -/
theorem Extracts.step {a : Action} (h : Extracts s k M A B W) (hpos : 1 ≤ B.length)
    (hok : alone k s a) (hs : step cfg s a = some s') :
    ∃ M' W', Extraction s s' a k M M' A B W' := by
  have hfresh := h.fresh s.activations (Nat.le_refl _)
  have halone : ∀ j, j ≠ k → (s.activation j).early = false := by
    intro j hj
    by_cases hlt : j < s.activations
    · exact hok j hlt hj
    · rw [h.fresh j (by omega)]
      rfl
  have hle := activations_le hs
  cases a with
  | arriveAndWait c w t =>
      obtain ⟨-, hlive, rfl⟩ := eq_of_arriveAndWait hs
      exact ⟨[], W, h.other hs rfl hle (h.memory.arrive _ hlive ⟨rfl, rfl⟩) rfl rfl rfl
        (List.append_nil _).symm fun p _ => h.memory.mem_arrive hlive⟩
  | arriveAndDrop w =>
      obtain ⟨hlive, rfl⟩ := eq_of_arriveAndDrop hs
      exact ⟨[], W, h.other hs rfl hle (h.memory.arrive s.busy hlive trivial) rfl rfl rfl
        (List.append_nil _).symm fun p _ => h.memory.mem_arrive hlive⟩
  | arrival i b =>
      have ha := aside_arrival hs
      obtain ⟨M', hm, hpushed, -⟩ := h.memory.arrival hfresh hs
      have hact : s'.activation k = s.activation k :=
        (ha.activation k).resolve_right fun hnew => Nat.ne_of_lt h.started hnew.1
      refine ⟨M', W, h.other hs rfl hle hm rfl hact ha.expected hpushed fun p hp => ?_⟩
      refine h.memory.mem_arrival ?_ hs
      rcases hp with rfl | rfl
      · exact Place.noConfusion
      · exact Place.noConfusion
  | activation j t =>
      have hpushed := pushed_activation hs
      rw [← List.append_nil s.pushed] at hpushed
      by_cases hj : j = k
      · subst hj
        obtain ⟨W', h'⟩ := h.own hpos halone hs
        refine ⟨[], W', h', hpushed, fun hq => ?_⟩
        obtain ⟨hp, hnear⟩ := h.nearer h' halone hs hq
        refine ⟨hp, fun r hr => ?_⟩
        obtain ⟨r', hlt, hr'⟩ := hnear r hr
        have hone : [Action.activation j t].countP (Action.ofActivation j) = 1 := by
          simp [Action.ofActivation]
        exact ⟨r', hr', by omega⟩
      · -- an activation that is behind its `fetch_add`
        obtain ⟨hmem, he⟩ := quiet_late hs (halone j hj)
        obtain ⟨L', W', hh⟩ := h.memory.activation hfresh
          (fun hearly => absurd hearly (by simp [halone j hj])) hs
        have hcut : (s.activation j).cutAt = none := by
          cases hp : (s.activation j).cutAt with
          | none => rfl
          | some start =>
              have hlate := halone j hj
              rcases cutAt_eq_some hp with hp | ⟨ptr, hp⟩ <;> rw [hp] at hlate <;> cases hlate
        obtain ⟨rfl, -⟩ := hh.stays (Or.inl hcut)
        have hact : s'.activation k = s.activation k :=
          (others_activation hs (Ne.symm hj)).resolve_right
            fun hnew => Nat.ne_of_lt h.started hnew.1
        exact ⟨[], W', h.other hs (by simp [Action.ofActivation, hj]) hle hh.memory
          (hh.others k (Ne.symm hj)) hact he hpushed fun p _ e _ => by rw [hmem]⟩

/-- What holds in every run that begins before the load of `aquire_window`. -/
theorem Extracts.run {as : List Action} (h : Extracts s k [] A B W) (hpos : 1 ≤ B.length)
    (hk : s.activation k = .load) (hr : run (Barrier.step cfg) (alone k) s as = some s') :
    ∃ M W', Extracts s' k M A B W' ∧ s'.pushed = s.pushed ++ (M.map Entry.item).reverse ∧
      ((s'.activation k).extracting = true →
        ∃ r, (s'.activation k).Within s' (M.length + (A ++ B).length) r ∧
          as.countP (Action.ofActivation k) + r ≤ 2 * (M.length + (A ++ B).length) + 4) := by
  refine run_invariant (I := fun as s' => ∃ M W', Extracts s' k M A B W' ∧
    s'.pushed = s.pushed ++ (M.map Entry.item).reverse ∧
      ((s'.activation k).extracting = true →
        ∃ r, (s'.activation k).Within s' (M.length + (A ++ B).length) r ∧
          as.countP (Action.ofActivation k) + r ≤ 2 * (M.length + (A ++ B).length) + 4)) ?_ ?_ hr
  · refine ⟨[], W, h, (List.append_nil _).symm, fun _ => ?_⟩
    rw [hk]
    exact ⟨_, Nat.le_refl _, Nat.le_of_eq (Nat.zero_add _)⟩
  · rintro as u a u' ⟨M, W₁, hu, hpushed, hbound⟩ hok hs
    obtain ⟨M', W₂, hx⟩ := hu.step hpos hok hs
    refine ⟨M' ++ M, W₂, hx.extracts, ?_, fun hq => ?_⟩
    · rw [hx.pushed, hpushed, List.map_append, List.reverse_append, List.append_assoc]
    · obtain ⟨hp, hnear⟩ := hx.nearer hq
      obtain ⟨r, hr, hle⟩ := hbound hp
      obtain ⟨r', hr', hle'⟩ := hnear r hr
      refine ⟨r', hr', ?_⟩
      rw [List.countP_append, List.length_append]
      omega

/-- The start of an extraction: a list of at least `expected_` entries is split in front of its
window. -/
theorem exists_extracts (hm : Memory s L W)
    (hfresh : ∀ j, s.activations ≤ j → s.activation j = .idle) (hk : s.activation k = .load)
    (hpos : 1 ≤ s.expected) (hle : s.expected ≤ L.length) :
    ∃ A B, L = A ++ B ∧ (B.length : Int) = s.expected ∧ Extracts s k [] A B W := by
  have hB : ((L.drop (L.length - s.expected.toNat)).length : Int) = s.expected := by
    rw [List.length_drop]
    omega
  have happ := (List.take_append_drop (L.length - s.expected.toNat) L).symm
  refine ⟨_, _, happ, hB, hfresh, ?_, ?_, ?_⟩
  · by_contra hge
    rw [hfresh k (by omega)] at hk
    cases hk
  · rw [hk]
    exact happ ▸ hm
  · rw [hk]
    exact hB

/-- **The window has the oldest `expected_` entries**, whatever `working_set_` holds and whatever is
pushed meanwhile, and the activation comes to it in a bounded number of its steps. -/
theorem barrier_extractsOldest (hm : Memory s L W)
    (hfresh : ∀ j, s.activations ≤ j → s.activation j = .idle) (hk : s.activation k = .load)
    (hpos : 1 ≤ s.expected) (hle : s.expected ≤ L.length) :
    ∃ A B, L = A ++ B ∧ (B.length : Int) = s.expected ∧
      ∀ as s', run (step cfg) (alone k) s as = some s' →
        ∃ M : List Entry, s'.pushed = s.pushed ++ (M.map Entry.item).reverse ∧
          Extracted s' M A B (s'.activation k) ∧
          ((s'.activation k).extracting = true →
            as.countP (Action.ofActivation k) < 2 * (M.length + L.length) + 4 ∧
              ∀ t, ∃ s'', step cfg s' (.activation k t) = some s'') := by
  obtain ⟨A, B, rfl, hB, hstart⟩ := exists_extracts hm hfresh hk hpos hle
  refine ⟨A, B, rfl, hB, fun as s' hrun => ?_⟩
  obtain ⟨M, W', h, hpushed, hbound⟩ := hstart.run (by omega) hk hrun
  refine ⟨M, hpushed, h.extracted, fun hq => ⟨?_, fun t => ?_⟩⟩
  · obtain ⟨r, hr, hle⟩ := hbound hq
    have hrpos : 0 < r := by
      cases hp : s'.activation k with
      | load | trim start =>
          rw [hp] at hr
          exact Nat.lt_of_lt_of_le (by omega) hr
      | window ptr count head current | trimWalk start ptr | drops start ptr n =>
          rw [hp] at hr
          obtain ⟨l, -, hr⟩ := hr
          omega
      | _ =>
          rw [hp] at hq
          cases hq
    omega
  · refine advance_isSome cfg (fun hidle => ?_) t
    rw [hidle] at hq
    cases hq

/-- A coroutine and a drop fill the phase; a third arrival pushes its entry before
`complete_phase` is called. -/
def threeArrive : List Action :=
  .arriveAndWait 1 (.nth 0) ⟨0⟩ :: pushSteps 0 ++
  .arriveAndDrop (.nth 1) :: pushSteps 1 ++
  .arriveAndWait 3 (.nth 2) ⟨0⟩ :: pushSteps 2 ++ [.arrival 1 false]

/-- A fourth one pushes its entry between `aquire_window` and the trim. -/
def latePush : List Action :=
  steps 0 5 ⟨0⟩ ++ .arriveAndWait 4 (.nth 3) ⟨0⟩ :: pushSteps 3 ++ steps 0 6 ⟨0⟩

theorem barrier_extractsOldest_latePush :
    ∃ s s', run (step ⟨2, .noOp, ⟨1⟩⟩) noStaleTest (init ⟨2, .noOp, ⟨1⟩⟩) threeArrive = some s ∧
      run (step ⟨2, .noOp, ⟨1⟩⟩) (alone 0) s latePush = some s' ∧
      ∃ M A B, (B.length : Int) = 2 ∧ Extracted s' M A B (.reduceRead 17 1) := by
  have hend : ((run (step ⟨2, .noOp, ⟨1⟩⟩) noStaleTest (init ⟨2, .noOp, ⟨1⟩⟩) threeArrive).bind
      fun s => (run (step ⟨2, .noOp, ⟨1⟩⟩) (alone 0) s latePush).map fun s' =>
        (s.activation 0, s.expected, s.workingSet, [24, 16, 8].map fun w => (s.mem w).next,
          s'.activation 0)) = some (.load, 2, 24, [17, 8, 0], .reduceRead 17 1) := by
    decide +kernel
  obtain ⟨s, hs, hend⟩ := Option.bind_eq_some_iff.mp hend
  obtain ⟨s', hs', hend⟩ := Option.map_eq_some_iff.mp hend
  simp only [Prod.mk.injEq, List.map_cons, List.map_nil, List.cons.injEq, and_true] at hend
  obtain ⟨hk, he, hset, ⟨h24, h16, h8⟩, hk'⟩ := hend
  obtain ⟨⟨h, hc⟩, L, W, hm⟩ := memory_of_reaches (Reaches.run (Reaches.start rfl) hs)
  have hlist : Listed s s.workingSet
      [⟨.nth 2, .wait 3 ⟨0⟩⟩, ⟨.nth 1, .drop⟩, ⟨.nth 0, .wait 1 ⟨0⟩⟩] :=
    ⟨hset, h24, h16, h8⟩
  have hlen : L.length = 3 := hm.chain.length_unique hlist
  obtain ⟨A, B, -, hB, hrun⟩ := barrier_extractsOldest hm hc.fresh hk (by omega) (by omega)
  obtain ⟨M, -, hx, -⟩ := hrun _ _ hs'
  rw [hk'] at hx
  exact ⟨s, s', hs, hs', M, A, B, by omega, hx⟩

/-! ## In the runs of the barrier -/

/-- In runs without a stale test, the activation that takes its window is alone. -/
theorem alone_of_reaches (hr : Reaches (Barrier.step cfg) noStaleTest (· = init cfg) s)
    (hk : (s.activation k).early = true) (a : Action) : alone k s a := by
  obtain ⟨⟨h, hc⟩, -⟩ := memory_of_reaches hr
  exact fun j _ hj => hc.late hk hj

/-- An activation that has given the places of the next phase to `count_` does not come back. -/
theorem late_of_late {a : Action} (hlt : k < s.activations) (hk : (s.activation k).early = false)
    (hfresh : s.activation s.activations = .idle) (hs : step cfg s a = some s') :
    (s'.activation k).early = false := by
  cases a with
  | arriveAndWait c w t =>
      obtain ⟨-, -, rfl⟩ := eq_of_arriveAndWait hs
      exact hk
  | arriveAndDrop w =>
      obtain ⟨-, rfl⟩ := eq_of_arriveAndDrop hs
      exact hk
  | arrival i b =>
      rw [((aside_arrival hs).activation k).resolve_right fun hnew => Nat.ne_of_lt hlt hnew.1]
      exact hk
  | activation j t =>
      by_cases hj : k = j
      · subst hj
        cases activates_of_advance hs with
        | resumed hp | release hptr hp | ends hgt hp =>
            rw [goto_self]
            rfl
        | pass hle hp =>
            rw [idle_of_pass hfresh (by rw [hp]; exact ActivationPc.noConfusion)]
            rfl
        | begin hp | load hp | again hp | found _ hp | look _ hp | cutAll hp | walk _ hp
        | walkOut hp | cut _ hp | walkOn _ _ hp | noFunction _ hp | yield _ hp | callHere _ hp
        | countDrop _ hp | call hp | finish hp | reduceRead hp | reduceWrite hp | addRead hp
        | addCount hp =>
            rw [hp] at hk
            cases hk
      · rw [(others_activation hs hj).resolve_right fun hnew => Nat.ne_of_lt hlt hnew.1]
        exact hk

/-- **Windows in runs without a stale test.** If `working_set_` holds enough entries when
`aquire_window` loads it, its window is what it should be as long as the activation has not given
the places of the next phase to `count_`, whatever the other parties do. -/
theorem extracted_of_reaches (hr : Reaches (step cfg) noStaleTest (· = init cfg) s)
    (hk : s.activation k = .load) (hpos : 1 ≤ s.expected) (hlist : Listed s s.workingSet L)
    (hle : s.expected ≤ L.length) :
    ∃ A B, Listed s s.workingSet (A ++ B) ∧ (B.length : Int) = s.expected ∧
      ∀ s', Reaches (step cfg) noStaleTest (· = s) s' → (s'.activation k).early = true →
        ∃ M : List Entry, s'.pushed = s.pushed ++ (M.map Entry.item).reverse ∧
          Extracted s' M A B (s'.activation k) := by
  obtain ⟨⟨h, hc⟩, L', W, hm⟩ := memory_of_reaches hr
  have hlen := hm.chain.length_unique hlist
  obtain ⟨A, B, rfl, hB, hstart⟩ := exists_extracts hm hc.fresh hk hpos (by omega)
  refine ⟨A, B, hm.chain, hB, fun s' hr' hearly => ?_⟩
  have hinv : Reaches (step cfg) noStaleTest (· = init cfg) s' ∧ k < s'.activations ∧
      ((s'.activation k).early = true → ∃ M W, Extracts s' k M A B W ∧
        s'.pushed = s.pushed ++ (M.map Entry.item).reverse) := by
    refine hr'.invariant (I := fun s' => Reaches (step cfg) noStaleTest (· = init cfg) s' ∧
      k < s'.activations ∧ ((s'.activation k).early = true → ∃ M W, Extracts s' k M A B W ∧
        s'.pushed = s.pushed ++ (M.map Entry.item).reverse)) ?_ ?_
    · rintro _ rfl
      exact ⟨hr, hstart.started, fun _ => ⟨[], W, hstart, (List.append_nil _).symm⟩⟩
    · rintro u a u' - ⟨hu, hlt, hx⟩ hok hs
      refine ⟨hu.next hok hs, hlt.trans_le (activations_le hs), fun hearly' => ?_⟩
      obtain ⟨⟨h', hc'⟩, -⟩ := memory_of_reaches hu
      -- it has been early all the time, and so it has been alone
      have hearly : (u.activation k).early = true := by
        by_contra hlate
        rw [Bool.not_eq_true] at hlate
        rw [late_of_late hlt hlate (hc'.fresh _ (Nat.le_refl _)) hs] at hearly'
        cases hearly'
      obtain ⟨M, W₁, hx, hpushed⟩ := hx hearly
      obtain ⟨M', W₂, hnext⟩ := hx.step (by omega) (alone_of_reaches hu hearly a) hs
      refine ⟨M' ++ M, W₂, hnext.extracts, ?_⟩
      rw [hnext.pushed, hpushed, List.map_append, List.reverse_append, List.append_assoc]
  obtain ⟨M, W', hx, hpushed⟩ := hinv.2.2 hearly
  exact ⟨M, hpushed, hx.extracted⟩

end

end Zab.Barrier
