import Zab.Basic.Lifetime
import Zab.Basic.Spread
import Zab.Sync.BarrierPhases
import Zab.Sync.BarrierStart

set_option autoImplicit false

/-! # The list entries of the barrier with many threads

Between its arrival and its release an entry belongs to the arrival that is going to push it, to
`working_set_`, or to the window that an activation has cut off. The activation that looks for its
window walks along `working_set_` while arrivals push onto it; they change nothing that it has
seen. After the cut the window is private to its activation, and several activations may be in
`resume_frames` at the same time. All this needs that one activation at most is before its cut,
which holds in runs without a stale test (`Charge`).
-/

namespace Zab.Barrier

open Automaton Access

/-- What a step does to the list entries. Every entry that `iterate_linked_list` comes to and
every argument of `get_next` is read; `resume_frames` first reads an entry, its link included, and
then resumes its coroutine or deletes it. -/
def State.accesses (s : State) : Action → List (Access Nat)
  | .arriveAndWait _ w _ | .arriveAndDrop w => [.create w.val]
  | .arrival _ _ => []
  | .activation k _ =>
      match s.activation k with
      | .window ptr count head _ =>
          if ptr = 0 then []
          else if count + 1 ≥ s.expected ∧ head ≠ 0 then
            [.read (addressOf ptr), .read (addressOf head)]
          else [.read (addressOf ptr)]
      | .trimWalk _ ptr | .drops _ ptr _ => if ptr = 0 then [] else [.read (addressOf ptr)]
      | .resume ptr _ => if ptr = 0 then [] else [.read (addressOf ptr), .release (addressOf ptr)]
      | _ => []

/-! ## The invariant -/

/-- Who owns an entry. -/
inductive Place where
  | set
  | window (k : Nat)
  | arrival (i : Nat)
  deriving DecidableEq

/-- The entry that an arrival is going to push. -/
def ArrivalPc.entry : ArrivalPc → List Entry
  | .load x w _ | .push x w _ _ => [⟨w, x⟩]
  | .idle | .call => []

/-- The entries of every owner, if `L` is the list of `working_set_` and `W k` what is left of the
window of activation `k`. -/
def State.held (s : State) (L : List Entry) (W : Nat → List Entry) : Place → List Entry
  | .set => L
  | .window k => W k
  | .arrival i => (s.arrival i).entry

/-- What an activation knows about the list `L` of `working_set_` and its own window `W`. -/
def ActivationPc.Lists (s : State) (L W : List Entry) : ActivationPc → Prop
  | .idle | .queued | .load | .test _ => W = []
  | .window ptr _ head current =>
      -- `C` is the list that was loaded; the head of the window stays behind `ptr`
      W = [] ∧ ∃ C, C <:+ L ∧ Listed s current C ∧ ∃ l, l <:+ C ∧ Listed s ptr l ∧
        (head = 0 ∨ ∃ m, m <:+ C ∧ l.length < m.length ∧ Listed s head m)
  | .trim start => W = [] ∧ ∃ m, m ≠ [] ∧ m <:+ L ∧ Listed s start m
  | .trimWalk start ptr =>
      W = [] ∧ ∃ m l, m ≠ [] ∧ m <:+ l ∧ m ≠ l ∧ l <:+ L ∧ Listed s start m ∧ Listed s ptr l
  | .drops start ptr _ => Listed s start W ∧ ∃ l, l <:+ W ∧ Listed s ptr l
  | .yielding start _ | .completing start _ | .reduceRead start _ | .reduceWrite start _
  | .addRead start | .addCount start _ | .resume start _ => Listed s start W

structure Memory (s : State) (L : List Entry) (W : Nat → List Entry) : Prop where
  spread : Spread Entry.addr s.live (s.held L W)
  stored : ∀ p, ∀ e ∈ s.held L W p, Stored (s.mem e.addr.val) e.item
  chain : Listed s s.workingSet L
  lists : ∀ k, (s.activation k).Lists s L (W k)

theorem memory_init (cfg : Config) : Memory (init cfg) [] fun _ => [] where
  spread := (Spread.init _ _).congr fun p => by cases p <;> rfl
  stored p e he := by cases p <;> cases he
  chain := rfl
  lists _ := rfl

section

variable {cfg : Config} {s s' : State} {L L' W₀ : List Entry} {W : Nat → List Entry}
  {q : ActivationPc} {k i : Nat}

/-- Entries that are pushed on `working_set_` do not matter to an activation. -/
theorem ActivationPc.Lists.mono (h : q.Lists s L W₀) (hL : L <:+ L')
    (hmem : ∀ e ∈ L ++ W₀, s'.mem e.addr.val = s.mem e.addr.val) : q.Lists s' L' W₀ := by
  have hsub : ∀ {w : Nat} {l : List Entry}, l <:+ L → Listed s w l → Listed s' w l :=
    fun hl hc => hc.congr fun e he => hmem e (List.mem_append_left _ (hl.subset he))
  have hwin : ∀ {w : Nat} {l : List Entry}, l <:+ W₀ → Listed s w l → Listed s' w l :=
    fun hl hc => hc.congr fun e he => hmem e (List.mem_append_right _ (hl.subset he))
  have hself := List.suffix_refl W₀
  cases q with
  | idle | queued | load | test saved => exact h
  | window ptr count head current =>
      obtain ⟨hW, C, hC, hcur, l, hl, hptr, hhead⟩ := h
      refine ⟨hW, C, hC.trans hL, hsub hC hcur, l, hl, hsub (hl.trans hC) hptr, ?_⟩
      refine hhead.imp_right ?_
      rintro ⟨m, hm, hlen, hmhead⟩
      exact ⟨m, hm, hlen, hsub (hm.trans hC) hmhead⟩
  | trim start =>
      obtain ⟨hW, m, hne, hm, hstart⟩ := h
      exact ⟨hW, m, hne, hm.trans hL, hsub hm hstart⟩
  | trimWalk start ptr =>
      obtain ⟨hW, m, l, hne, hm, hml, hl, hstart, hptr⟩ := h
      exact ⟨hW, m, l, hne, hm, hml, hl.trans hL, hsub (hm.trans hl) hstart, hsub hl hptr⟩
  | drops start ptr n =>
      obtain ⟨hstart, l, hl, hptr⟩ := h
      exact ⟨hwin hself hstart, l, hl, hwin hl hptr⟩
  | yielding start n | completing start n | reduceRead start n | reduceWrite start v
  | addRead start | addCount start e | resume start saved => exact hwin hself h

/-- An activation that has given the places of the next phase to `count_` has nothing to do with
`working_set_`. -/
theorem ActivationPc.Lists.late (h : q.Lists s L W₀) (hq : q.early = false)
    (hmem : ∀ e ∈ W₀, s'.mem e.addr.val = s.mem e.addr.val) : q.Lists s' L' W₀ := by
  cases q with
  | idle | test saved => exact h
  | resume start saved => exact Listed.congr h hmem
  | _ => cases hq

/-! ## Steps of an activation -/

/-- The two states have the same list entries, in the hands of the same arrivals. -/
structure SameEntries (s s' : State) : Prop where
  live : s'.live = s.live
  mem : s'.mem = s.mem
  workingSet : s'.workingSet = s.workingSet
  arrival : s'.arrival = s.arrival

theorem SameEntries.held (h : SameEntries s s') (p : Place) : s'.held L W p = s.held L W p := by
  cases p with
  | arrival i => simp only [State.held, h.arrival]
  | _ => rfl

/-- Steps that only change where the activations are. -/
theorem Memory.goOn (h : Memory s L W) (hsame : SameEntries s s')
    (hlists : ∀ k, (s'.activation k).Lists s L (W k)) : Memory s' L W where
  spread := by
    rw [hsame.live]
    exact h.spread.congr hsame.held
  stored p e he := by
    rw [hsame.held] at he
    rw [hsame.mem]
    exact h.stored p e he
  chain := by
    rw [hsame.workingSet]
    exact h.chain.congr fun e _ => by rw [hsame.mem]
  lists k := (hlists k).mono (List.suffix_refl L) fun e _ => by rw [hsame.mem]

/-- Activation `k` moves on to `q`. -/
theorem Memory.walk (h : Memory s L W) (hsame : SameEntries s s')
    (hact : s'.activation = Function.update s.activation k q) (hq : q.Lists s L (W k)) :
    Memory s' L W := by
  refine h.goOn hsame fun j => ?_
  rw [hact, Function.update_apply]
  split
  · rename_i hjk
    rw [hjk]
    exact hq
  · exact h.lists j

/-- A new activation is started; `s'` is the state in which the party in charge has left its
place. -/
theorem Memory.completePhase {st : Starter} (h : Memory s' L W)
    (hfresh : s'.activation s'.activations = .idle) (hq : q = .load ∨ q = .queued) :
    Memory (s'.completePhase q st) L W := by
  have hnone : W s'.activations = [] := by
    have := h.lists s'.activations
    rw [hfresh] at this
    exact this
  refine h.walk (k := s'.activations) (q := q) ⟨rfl, rfl, rfl, rfl⟩ rfl ?_
  rcases hq with rfl | rfl
  · exact hnone
  · exact hnone

/-- `aquire_window` passes an entry. -/
theorem window_next {ptr head current : Nat} {count count' : Int} (b : Prop) [Decidable b]
    (h : (ActivationPc.window ptr count head current).Lists s L W₀) (hptr : ptr ≠ 0) :
    (ActivationPc.window (s.getNext ptr) count'
      (if b then if head = 0 then current else s.getNext head else head) current).Lists s L W₀ := by
  obtain ⟨hW, C, hC, hcur, l, hl, hlist, hhead⟩ := h
  obtain ⟨e, l', rfl, rfl, hnext⟩ := hlist.cons_of_ne hptr
  have hlen := hl.length_le
  simp only [List.length_cons] at hlen hhead
  refine ⟨hW, C, hC, hcur, l', (List.suffix_cons e l').trans hl, hnext, ?_⟩
  by_cases hb : b
  · rw [if_pos hb]
    by_cases h0 : head = 0
    · -- the window begins at the root
      rw [if_pos h0]
      exact Or.inr ⟨C, List.suffix_refl C, by omega, hcur⟩
    · -- the window moves on by one entry
      obtain ⟨m, hm, hlt, hmhead⟩ := hhead.resolve_left h0
      obtain ⟨e', m', rfl, rfl, hm'⟩ := hmhead.cons_of_ne h0
      rw [if_neg h0]
      simp only [List.length_cons] at hlt
      exact Or.inr ⟨m', (List.suffix_cons e' m').trans hm, by omega, hm'⟩
  · rw [if_neg hb]
    refine hhead.imp_right ?_
    rintro ⟨m, hm, hlt, hmhead⟩
    exact ⟨m, hm, by omega, hmhead⟩

/-- `aquire_window` has found a window. -/
theorem window_end {ptr head current : Nat} {count : Int}
    (h : (ActivationPc.window ptr count head current).Lists s L W₀) (hhead : head ≠ 0) :
    (ActivationPc.trim head).Lists s L W₀ := by
  obtain ⟨hW, C, hC, -, l, -, -, hor⟩ := h
  obtain ⟨m, hm, hlt, hmhead⟩ := hor.resolve_left hhead
  refine ⟨hW, m, ?_, hm.trans hC, hmhead⟩
  rintro rfl
  simp at hlt

/-- The window `L₂` is cut off by activation `k`; `L₁` is what stays in `working_set_`. -/
theorem Memory.cut {L₁ L₂ : List Entry} {start : Nat} (h : Memory s (L₁ ++ L₂) W) (hk : W k = [])
    (hlate : ∀ j, j ≠ k → (s.activation j).early = false)
    (hlive : s'.live = s.live) (harr : s'.arrival = s.arrival)
    (hact : s'.activation = Function.update s.activation k (.drops start start 0))
    (hmem : ∀ a, (∀ e ∈ L₁, e.addr.val ≠ a) → s'.mem a = s.mem a)
    (hstored : ∀ a x, Stored (s.mem a) x → Stored (s'.mem a) x)
    (hL₁ : Listed s' s'.workingSet L₁) (hL₂ : Listed s' start L₂) :
    Memory s' L₁ (Function.update W k L₂) := by
  have hset : s'.held L₁ (Function.update W k L₂) .set = L₁ := rfl
  have hwin : s'.held L₁ (Function.update W k L₂) (.window k) = L₂ := Function.update_self ..
  have hother : ∀ p, p ≠ .set → p ≠ .window k →
      s'.held L₁ (Function.update W k L₂) p = s.held (L₁ ++ L₂) W p := by
    intro p hp₁ hp₂
    cases p with
    | set => exact absurd rfl hp₁
    | window j => exact Function.update_of_ne (fun hjk => hp₂ (by rw [hjk])) _ _
    | arrival i => simp only [State.held, harr]
  have hspread : Spread Entry.addr s'.live (s'.held L₁ (Function.update W k L₂)) := by
    rw [hlive]
    refine h.spread.move (i := .set) (j := .window k) (by simp) ?_ hother
    rw [hset, hwin]
    simp [State.held, hk]
  refine ⟨hspread, fun p e he => hstored _ _ ?_, hL₁, fun j => ?_⟩
  · by_cases hp₁ : p = .set
    · subst hp₁
      exact h.stored .set e (List.mem_append_left _ he)
    · by_cases hp₂ : p = .window k
      · subst hp₂
        rw [hwin] at he
        exact h.stored .set e (List.mem_append_right _ he)
      · rw [hother p hp₁ hp₂] at he
        exact h.stored p e he
  · rw [hact, Function.update_apply, Function.update_apply]
    split
    · exact ⟨hL₂, L₂, List.suffix_refl L₂, hL₂⟩
    · -- nobody else looks at `working_set_`
      rename_i hjk
      refine (h.lists j).late (hlate j hjk) fun e he => hmem _ fun e' he' => ?_
      have := h.spread.disjoint .set (.window j) (by simp) e' (List.mem_append_left _ he') e he
      simpa using this

/-- The window is the whole working set. -/
theorem Memory.trim_root {start : Nat} (h : Memory s L W) (hk : s.activation k = .trim start)
    (hlate : ∀ j, j ≠ k → (s.activation j).early = false) (hroot : s.workingSet = start) :
    Memory { s.goto k (.drops start start 0) with workingSet := 0 } [] (Function.update W k L) := by
  have hlists := h.lists k
  rw [hk] at hlists
  obtain ⟨hW, m, hne, ⟨l, rfl⟩, hstart⟩ := hlists
  obtain rfl : l = [] := by
    by_contra hl
    exact h.chain.root_ne hstart (h.spread.nodup .set) hl hne hroot
  exact h.cut hW hlate rfl rfl rfl (fun _ _ => rfl) (fun _ _ hx => hx) rfl hstart

/-- The window is further down. -/
theorem Memory.trim_walk {start : Nat} (h : Memory s L W) (hk : s.activation k = .trim start)
    (hroot : s.workingSet ≠ start) :
    (ActivationPc.trimWalk start s.workingSet).Lists s L (W k) := by
  have hlists := h.lists k
  rw [hk] at hlists
  obtain ⟨hW, m, hne, hm, hstart⟩ := hlists
  refine ⟨hW, m, L, hne, hm, ?_, List.suffix_refl L, hstart, h.chain⟩
  rintro rfl
  exact hroot (h.chain.root_unique hstart hne)

/-- The walk that cuts the window off: either the window comes next, or the walk goes on. -/
theorem Memory.trimWalk_next {start ptr : Nat} (h : Memory s L W)
    (hk : s.activation k = .trimWalk start ptr)
    (hlate : ∀ j, j ≠ k → (s.activation j).early = false) :
    ptr ≠ 0 ∧
      (s.getNext ptr = start → ∃ L₁ L₂, L = L₁ ++ L₂ ∧ Listed s start L₂ ∧
        Memory ((s.setNext ptr 0).goto k (.drops start start 0)) L₁ (Function.update W k L₂)) ∧
      (s.getNext ptr ≠ start →
        (ActivationPc.trimWalk start (s.getNext ptr)).Lists s L (W k)) := by
  have hlists := h.lists k
  rw [hk] at hlists
  obtain ⟨hW, m, l, hne, hm, hml, ⟨L₀, rfl⟩, hstart, hptr⟩ := hlists
  have hnd : ((L₀ ++ l).map Entry.addr).Nodup := h.spread.nodup .set
  cases l with
  | nil => exact absurd (List.suffix_nil.mp hm) hne
  | cons e l =>
      obtain ⟨rfl, hnext⟩ := hptr
      -- the window is a proper part of what the walk has before it
      obtain ⟨x, rfl⟩ : m <:+ l := (List.suffix_cons_iff.mp hm).resolve_left hml
      simp only [getNext_word]
      refine ⟨word_ne_zero e, fun hcut => ?_, fun hgo => ?_⟩
      · obtain rfl : x = [] := by
          by_contra hx
          have hnext : Listed s (s.link e) (x ++ m) := hnext
          refine hnext.root_ne hstart ?_ hx hne hcut
          simp only [List.map_append, List.map_cons, List.nodup_append, List.nodup_cons] at hnd ⊢
          exact hnd.2.1.2
        have hL : Listed (s.setNext e.word 0) s.workingSet (L₀ ++ [e]) ∧
            Listed (s.setNext e.word 0) (s.link e) m :=
          h.chain.cut hnd (by simp [State.link, State.setNext])
            (fun a ha => by simp [State.setNext, ha])
        have happ : L₀ ++ e :: m = (L₀ ++ [e]) ++ m := by simp
        refine ⟨L₀ ++ [e], m, happ, hstart, Memory.cut (by rw [← happ]; exact h) hW hlate rfl rfl
          rfl ?_ (fun _ _ => stored_setNext) hL.1 (hcut ▸ hL.2)⟩
        intro a ha
        have hea : a ≠ e.addr.val := Ne.symm (ha e (by simp))
        simp [State.goto, State.setNext, hea]
      · refine ⟨hW, m, x ++ m, hne, List.suffix_append x m, ?_, ?_, hstart, hnext⟩
        · intro heq
          obtain rfl : x = [] := by simpa using heq.symm
          exact hgo (Listed.root_unique (l := m) hnext hstart hne)
        · exact (List.suffix_cons e _).trans (List.suffix_append L₀ _)

/-- An entry is released. -/
theorem Memory.resume_next {ptr : Nat} {saved : Int} (h : Memory s L W)
    (hk : s.activation k = .resume ptr saved) (hptr : ptr ≠ 0) :
    ∃ e l, ptr = e.word ∧ W k = e :: l ∧
      (s.release ptr).live = Function.update s.live e.addr.val false ∧
      Memory ((s.release ptr).goto k (.resume (s.getNext ptr) saved)) L
        (Function.update W k l) := by
  have hlists := h.lists k
  rw [hk] at hlists
  obtain ⟨e, l, hWk, rfl, hnext⟩ := Listed.cons_of_ne hlists hptr
  have hwin : s.held L W (.window k) = e :: l := hWk
  have he : e ∈ s.held L W (.window k) := by
    rw [hwin]
    exact List.mem_cons_self ..
  obtain ⟨busy, hrel⟩ := release_word (h.stored _ e he)
  rw [hrel]
  refine ⟨e, l, rfl, hWk, rfl, ?_⟩
  obtain ⟨s', hs'⟩ : ∃ s', s' = ({ s with
      live := Function.update s.live e.addr.val false
      busy := busy
      log := s.log ++ [.released e.item] } : State).goto k (.resume (s.getNext e.word) saved) :=
    ⟨_, rfl⟩
  rw [← hs']
  have hother : ∀ p, p ≠ .window k → s'.held L (Function.update W k l) p = s.held L W p := by
    intro p hp
    cases p with
    | window j => exact Function.update_of_ne (fun hjk => hp (by rw [hjk])) _ _
    | set => rfl
    | arrival i => rw [hs']; rfl
  have hself : s'.held L (Function.update W k l) (.window k) = l := Function.update_self ..
  have hmem : s'.mem = s.mem := by rw [hs']; rfl
  have hsame : ∀ {w : Nat} {l : List Entry}, Listed s w l → Listed s' w l :=
    fun hl => hl.congr fun _ _ => by rw [hmem]
  refine ⟨?_, fun p e' he' => ?_, ?_, fun j => ?_⟩
  · -- its node is the only one that is destroyed
    have hlive : s'.live = Function.update s.live e.addr.val false := by rw [hs']; rfl
    rw [hlive]
    exact h.spread.drop hwin hself hother
  · -- no link changes
    rw [hmem]
    by_cases hp : p = .window k
    · subst hp
      rw [hself] at he'
      exact h.stored (.window k) e' (by rw [hwin]; exact List.mem_cons_of_mem _ he')
    · rw [hother p hp] at he'
      exact h.stored p e' he'
  · have hset : s'.workingSet = s.workingSet := by rw [hs']; rfl
    rw [hset]
    exact hsame h.chain
  · -- what is left of its window begins at the entry after it
    have hact : s'.activation =
        Function.update s.activation k (.resume (s.getNext e.word) saved) := by
      rw [hs']
      rfl
    rw [hact, Function.update_apply, Function.update_apply]
    split
    · exact hsame hnext
    · exact (h.lists j).mono (List.suffix_refl L) fun _ _ => by rw [hmem]

/-- The window that an activation is going to cut off. -/
def ActivationPc.cutAt : ActivationPc → Option Nat
  | .trim start | .trimWalk start _ => some start
  | _ => none

/-- The step from `p` to `q` leaves the list `L` of `working_set_` alone, or it cuts the window
off. -/
def Takes (s : State) (L L' : List Entry) (p q : ActivationPc) : Prop :=
  (L' = L ∧ (p.cutAt = none ∨ q.cutAt = p.cutAt)) ∨
    ∃ start m, p.cutAt = some start ∧ q = .drops start start 0 ∧ L = L' ++ m ∧ Listed s start m

/-- What a step of activation `k` does to the lists: entries go from the end of `working_set_` to
its window, or leave its window when they are released. -/
structure Hands (s s' : State) (k : Nat) (L L' : List Entry) (W W' : Nat → List Entry) : Prop where
  memory : Memory s' L' W'
  takes : Takes s L L' (s.activation k) (s'.activation k)
  others : ∀ j, j ≠ k → W' j = W j
  kept : (s.activation k).early = true → L' ++ W' k = L ++ W k

/-- The activation moves on, and the list entries stay as they are. -/
theorem Memory.hands (h : Memory s L W) (hsame : SameEntries s s')
    (hact : s'.activation = Function.update s.activation k q) (hq : q.Lists s L (W k))
    (hcut : (s.activation k).cutAt = none ∨ q.cutAt = (s.activation k).cutAt) :
    Hands s s' k L L W W := by
  refine ⟨h.walk hsame hact hq, Or.inl ⟨rfl, ?_⟩, fun _ _ => rfl, fun _ => rfl⟩
  rw [hact, Function.update_self]
  exact hcut

/-- The window `m` goes over to activation `k`. -/
theorem Hands.ofCut {start : Nat} {m : List Entry} (h : Memory s' L' (Function.update W k m))
    (hW : W k = []) (hcut : (s.activation k).cutAt = some start)
    (hact : s'.activation k = .drops start start 0) (happ : L = L' ++ m) (hm : Listed s start m) :
    Hands s s' k L L' W (Function.update W k m) := by
  refine ⟨h, Or.inr ⟨start, m, hcut, hact, happ, hm⟩, fun j hj => Function.update_of_ne hj _ _,
    fun _ => ?_⟩
  rw [Function.update_self, hW, happ, List.append_nil]

/-- **One step of an activation.** -/
theorem Memory.activation {t : ThreadT} (hm : Memory s L W)
    (hfresh : s.activation s.activations = .idle)
    (hlate : (s.activation k).early = true → ∀ j, j ≠ k → (s.activation j).early = false)
    (hs : s.advanceActivation cfg k t = some s') : ∃ L' W', Hands s s' k L L' W W' := by
  have hlists := hm.lists k
  have hgo : ∀ {q : ActivationPc} {u : State}, SameEntries s u →
      u.activation = Function.update s.activation k q → q.Lists s L (W k) →
      (s.activation k).cutAt = none ∨ q.cutAt = (s.activation k).cutAt →
      ∃ L' W', Hands s u k L L' W W' :=
    fun hsame hact hq hcut => ⟨L, W, hm.hands hsame hact hq hcut⟩
  cases activates_of_advance hs with
  | begin hp | finish hp | reduceRead hp | reduceWrite hp | addRead hp | addCount hp | call hp =>
      rw [hp] at hlists hgo
      exact hgo ⟨rfl, rfl, rfl, rfl⟩ rfl hlists (Or.inl rfl)
  | load hp =>
      rw [hp] at hlists hgo
      have hself := List.suffix_refl L
      exact hgo ⟨rfl, rfl, rfl, rfl⟩ rfl
        ⟨hlists, L, hself, hm.chain, L, hself, hm.chain, Or.inl rfl⟩ (Or.inl rfl)
  | again hp =>
      rw [hp] at hlists hgo
      exact hgo ⟨rfl, rfl, rfl, rfl⟩ rfl hlists.1 (Or.inl rfl)
  | found hhead hp =>
      rw [hp] at hlists hgo
      exact hgo ⟨rfl, rfl, rfl, rfl⟩ rfl (window_end hlists hhead) (Or.inl rfl)
  | look hptr hp =>
      rw [hp] at hlists hgo
      exact hgo ⟨rfl, rfl, rfl, rfl⟩ rfl (window_next _ hlists hptr) (Or.inl rfl)
  | cutAll hp =>
      have hW : W k = [] := by
        rw [hp] at hlists
        exact hlists.1
      refine ⟨[], _, Hands.ofCut (hm.trim_root hp (hlate (by rw [hp]; rfl)) rfl) hW
        (by rw [hp]; rfl) ?_ rfl hm.chain⟩
      exact Function.update_self ..
  | walk hroot hp =>
      have hwalk := hm.trim_walk hp hroot
      rw [hp] at hgo
      exact hgo ⟨rfl, rfl, rfl, rfl⟩ rfl hwalk (Or.inr rfl)
  | walkOut hp => exact absurd rfl (hm.trimWalk_next hp (hlate (by rw [hp]; rfl))).1
  | cut hptr hp =>
      obtain ⟨-, hcut, -⟩ := hm.trimWalk_next hp (hlate (by rw [hp]; rfl))
      obtain ⟨L₁, L₂, happ, hlisted, h'⟩ := hcut rfl
      have hW : W k = [] := by
        rw [hp] at hlists
        exact hlists.1
      exact ⟨L₁, _, Hands.ofCut h' hW (by rw [hp]; rfl) (goto_self ..) happ hlisted⟩
  | walkOn hptr hnext hp =>
      obtain ⟨-, -, hwalk⟩ := hm.trimWalk_next hp (hlate (by rw [hp]; rfl))
      rw [hp] at hgo
      exact hgo ⟨rfl, rfl, rfl, rfl⟩ rfl (hwalk hnext) (Or.inr rfl)
  | noFunction hf hp | yield hf hp | callHere hf hp =>
      rw [hp] at hlists hgo
      exact hgo ⟨rfl, rfl, rfl, rfl⟩ rfl hlists.1 (Or.inl rfl)
  | countDrop hptr hp =>
      rw [hp] at hlists hgo
      obtain ⟨hstart, l, hl, hlist⟩ := hlists
      obtain ⟨e, l', rfl, rfl, hnext⟩ := hlist.cons_of_ne hptr
      exact hgo ⟨rfl, rfl, rfl, rfl⟩ rfl ⟨hstart, l', (List.suffix_cons e l').trans hl, hnext⟩
        (Or.inl rfl)
  | resumed hp =>
      rw [hp] at hlists hgo
      exact hgo ⟨rfl, rfl, rfl, rfl⟩ rfl (Listed.root_eq_zero hlists |>.mp rfl) (Or.inl rfl)
  | release hptr hp =>
      obtain ⟨e, l, -, -, -, h'⟩ := hm.resume_next hp hptr
      refine ⟨L, _, h', Or.inl ⟨rfl, Or.inl (by rw [hp]; rfl)⟩,
        fun j hj => Function.update_of_ne hj _ _, fun hearly => ?_⟩
      rw [hp] at hearly
      cases hearly
  | pass hle hp =>
      rw [hp] at hlists
      have hidle : Memory (s.goto k .idle) L W := hm.walk ⟨rfl, rfl, rfl, rfl⟩ rfl hlists
      refine ⟨L, W, hidle.completePhase ?_ (Or.inr rfl), Or.inl ⟨rfl, Or.inl (by rw [hp]; rfl)⟩,
        fun _ _ => rfl, fun _ => rfl⟩
      rw [goto_activation, show (s.goto k .idle).activations = s.activations from rfl, hfresh,
        ite_self]
  | ends hgt hp =>
      rw [hp] at hlists hgo
      exact hgo ⟨rfl, rfl, rfl, rfl⟩ rfl hlists (Or.inl rfl)

/-! ## Steps of an arrival -/

/-- A new arrival owns its entry. -/
theorem Memory.arrive {x : Item} {w : Addr} {n : Node} (h : Memory s L W) (busy : Coro → Bool)
    (hlive : s.live w.val = false) (hn : Stored n x) :
    Memory { s.arrive x w n with busy := busy } L W := by
  have hne : ∀ p, ∀ e ∈ s.held L W p, e.addr ≠ w := fun p e he => h.spread.free hlive he
  have hmem : ∀ p, ∀ e ∈ s.held L W p,
      Function.update s.mem w.val n e.addr.val = s.mem e.addr.val := by
    intro p e he
    exact Function.update_of_ne (by simpa using hne p e he) _ _
  have hother : ∀ p, p ≠ .arrival s.arrivals →
      State.held { s.arrive x w n with busy := busy } L W p = s.held L W p := by
    intro p hp
    cases p with
    | arrival j =>
        have hj : j ≠ s.arrivals := fun hj => hp (by rw [hj])
        simp [State.held, State.arrive, hj]
    | _ => rfl
  have hself : State.held { s.arrive x w n with busy := busy } L W (.arrival s.arrivals) =
      [⟨w, x⟩] := by
    simp [State.held, State.arrive, ArrivalPc.entry]
  refine ⟨?_, fun p e he => ?_, ?_, fun k => ?_⟩
  · exact h.spread.take (a := (⟨w, x⟩ : Entry)) hlive hself hother
  · by_cases hp : p = .arrival s.arrivals
    · subst hp
      rw [hself, List.mem_singleton] at he
      subst he
      simpa [State.arrive] using hn
    · rw [hother p hp] at he
      show Stored (Function.update s.mem w.val n e.addr.val) e.item
      rw [hmem p e he]
      exact h.stored p e he
  · exact h.chain.congr fun e he => hmem .set e he
  · refine (h.lists k).mono (List.suffix_refl L) fun e he => ?_
    rcases List.mem_append.mp he with he | he
    · exact hmem .set e he
    · exact hmem (.window k) e he

/-- An arrival that keeps its entry. -/
theorem Memory.gotoArrival {b : ArrivalPc} (h : Memory s L W)
    (hb : b.entry = (s.arrival i).entry) : Memory (s.gotoArrival i b) L W := by
  have hheld : ∀ p, (s.gotoArrival i b).held L W p = s.held L W p := by
    intro p
    cases p with
    | arrival j =>
        simp only [State.held, gotoArrival_arrival]
        split
        · rename_i hji
          rw [hji, hb]
        · rfl
    | _ => rfl
  refine ⟨h.spread.congr hheld, fun p e he => ?_, h.chain, fun k => ?_⟩
  · rw [hheld] at he
    exact h.stored p e he
  · exact (h.lists k).mono (List.suffix_refl L) fun _ _ => rfl

/-- The link of the own entry is written before the push. -/
theorem Memory.link {x : Item} {w : Addr} (h : Memory s L W) (v : Nat)
    (hi : (s.arrival i).entry = [⟨w, x⟩]) : Memory (s.setNext w.val v) L W := by
  have hw : (⟨w, x⟩ : Entry) ∈ s.held L W (.arrival i) := by simp [State.held, hi]
  have hne : ∀ p, p ≠ .arrival i → ∀ e ∈ s.held L W p, e.addr ≠ w := fun p hp e he =>
    h.spread.disjoint p (.arrival i) hp e he _ hw
  refine ⟨h.spread.congr fun p => by cases p <;> rfl, fun p e he => ?_, ?_, fun k => ?_⟩
  · exact stored_setNext (h.stored p e (by cases p <;> exact he))
  · exact h.chain.congr fun e he => setNext_mem (hne .set (by simp) e he)
  · refine (h.lists k).mono (List.suffix_refl L) fun e he => ?_
    rcases List.mem_append.mp he with he | he
    · exact setNext_mem (hne .set (by simp) e he)
    · exact setNext_mem (hne (.window k) (by simp) e he)

/-- The entry goes over to `working_set_`. -/
theorem Memory.push {x : Item} {w : Addr} {b : ArrivalPc} (h : Memory s L W)
    (hi : (s.arrival i).entry = [⟨w, x⟩]) (hb : b.entry = [])
    (hlink : (s.mem w.val).next = s.workingSet) :
    Memory { s.gotoArrival i b with
      workingSet := w.val ||| x.flag, pushed := s.pushed ++ [x] } (⟨w, x⟩ :: L) W := by
  obtain ⟨s', hs'⟩ : ∃ s', s' = { s.gotoArrival i b with
      workingSet := w.val ||| x.flag, pushed := s.pushed ++ [x] } := ⟨_, rfl⟩
  rw [← hs']
  have hset : s'.held (⟨w, x⟩ :: L) W .set = ⟨w, x⟩ :: L := rfl
  have hself : s'.held (⟨w, x⟩ :: L) W (.arrival i) = [] := by
    rw [hs']
    simp [State.held, State.gotoArrival, hb]
  have hold : s.held L W (.arrival i) = [⟨w, x⟩] := hi
  have hother : ∀ p, p ≠ .set → p ≠ .arrival i →
      s'.held (⟨w, x⟩ :: L) W p = s.held L W p := by
    intro p hp₁ hp₂
    cases p with
    | set => exact absurd rfl hp₁
    | window k => rfl
    | arrival j =>
        have hji : j ≠ i := fun hji => hp₂ (by rw [hji])
        rw [hs']
        simp [State.held, State.gotoArrival, hji]
  have hmem : s'.mem = s.mem := by rw [hs']; rfl
  refine ⟨?_, fun p e he => ?_, ?_, fun k => ?_⟩
  · have hlive : s'.live = s.live := by rw [hs']; rfl
    rw [hlive]
    refine h.spread.move (i := .set) (j := .arrival i) (by simp) ?_ hother
    rw [hset, hself, hold, List.append_nil]
    exact (List.perm_append_singleton (⟨w, x⟩ : Entry) L).symm
  · rw [hmem]
    by_cases hp₁ : p = .set
    · subst hp₁
      rcases List.mem_cons.mp he with rfl | he
      · exact h.stored (.arrival i) _ (by rw [hold]; exact List.mem_singleton_self _)
      · exact h.stored .set e he
    · by_cases hp₂ : p = .arrival i
      · subst hp₂
        rw [hself] at he
        cases he
      · rw [hother p hp₁ hp₂] at he
        exact h.stored p e he
  · have hroot : s'.workingSet = w.val ||| x.flag := by rw [hs']
    rw [hroot]
    refine ⟨rfl, ?_⟩
    rw [State.link, hmem, hlink]
    exact h.chain.congr fun e _ => by rw [hmem]
  · have hact : s'.activation = s.activation := by rw [hs']; rfl
    rw [hact]
    exact (h.lists k).mono (List.suffix_cons _ L) fun e _ => by rw [hmem]

/-- **One step of an arrival.** `M` is what it pushes. -/
theorem Memory.arrival {b : Bool} (hm : Memory s L W) (hfresh : s.activation s.activations = .idle)
    (hs : s.advanceArrival i b = some s') :
    ∃ M, Memory s' (M ++ L) W ∧ s'.pushed = s.pushed ++ (M.map Entry.item).reverse ∧
      M.length + (s'.arrival i).entry.length = (s.arrival i).entry.length := by
  cases arrives_of_advance hs with
  | load hi =>
      refine ⟨[], hm.gotoArrival (by rw [hi]; rfl), (List.append_nil _).symm, ?_⟩
      rw [gotoArrival_arrival, if_pos rfl, hi]
      rfl
  | @push x w amount hi =>
      have hentry : (s.arrival i).entry = [⟨w, x⟩] := by rw [hi]; rfl
      have hb : (if amount = 1 then ArrivalPc.call else .idle).entry = [] := by
        split <;> rfl
      refine ⟨[⟨w, x⟩], (hm.link s.workingSet hentry).push hentry hb ?_, rfl, ?_⟩
      · simp [State.setNext]
      · show 1 + (Function.update s.arrival i (if amount = 1 then .call else .idle)
          i).entry.length = _
        rw [Function.update_self, hb, hentry]
        rfl
  | again hi =>
      refine ⟨[], (hm.link _ (by rw [hi]; rfl)).gotoArrival ?_, (List.append_nil _).symm, ?_⟩
      · show _ = (s.arrival i).entry
        rw [hi]
        rfl
      · rw [gotoArrival_arrival, if_pos rfl, hi]
        rfl
  | call hi =>
      have hidle : Memory (s.gotoArrival i .idle) L W := hm.gotoArrival (by rw [hi]; rfl)
      refine ⟨[], hidle.completePhase hfresh (Or.inl rfl), (List.append_nil _).symm, ?_⟩
      show 0 + ((s.gotoArrival i .idle).arrival i).entry.length = _
      rw [gotoArrival_arrival, if_pos rfl, hi]
      rfl

/-- One step of a run in which one activation at most is before its cut. -/
theorem Memory.step {P : Prop} {h : Holder} {a : Action} (hm : Memory s L W) (hc : Charge P s h)
    (hs : step cfg s a = some s') : ∃ L' W', Memory s' L' W' := by
  have hfresh := hc.fresh s.activations (Nat.le_refl _)
  cases a with
  | arriveAndWait c w t =>
      obtain ⟨-, hlive, rfl⟩ := eq_of_arriveAndWait hs
      exact ⟨L, W, hm.arrive _ hlive ⟨rfl, rfl⟩⟩
  | arriveAndDrop w =>
      obtain ⟨hlive, rfl⟩ := eq_of_arriveAndDrop hs
      exact ⟨L, W, hm.arrive s.busy hlive trivial⟩
  | arrival i b =>
      obtain ⟨M, h', -⟩ := hm.arrival hfresh hs
      exact ⟨M ++ L, W, h'⟩
  | activation k t =>
      obtain ⟨L', W', h'⟩ := hm.activation hfresh (fun hk _ hj => hc.late hk hj) hs
      exact ⟨L', W', h'.memory⟩

/-! ## No look back -/

/-- The entry that an activation releases is gone, and it creates none. -/
theorem Memory.after {t : ThreadT} (hm : Memory s L W)
    (hs : s.advanceActivation cfg k t = some s') {x : Nat} (hx : s'.live x = true) :
    after (s.live · = true) (s.accesses (.activation k t)) x := by
  cases activates_of_advance hs with
  | release hptr hp =>
      simp only [State.accesses, hp, if_neg hptr]
      obtain ⟨e, l, rfl, -, hlive, -⟩ := hm.resume_next hp hptr
      rw [addressOf_word]
      refine after_release ?_
      rw [← hlive]
      exact hx
  | look hptr hp =>
      simp only [State.accesses, hp, if_neg hptr]
      split
      · exact hx
      · exact hx
  | cut hptr hp | walkOn hptr hnext hp | countDrop hptr hp =>
      simp only [State.accesses, hp, if_neg hptr]
      exact hx
  | begin hp | load hp | again hp | found hhead hp | cutAll hp | walk hroot hp | walkOut hp
  | noFunction hf hp | yield hf hp | callHere hf hp | call hp | finish hp | reduceRead hp
  | reduceWrite hp | addRead hp | addCount hp | resumed hp | pass hle hp | ends hgt hp =>
      simp only [State.accesses, hp]
      exact hx

/-- Without a stale test, the entries are where they should be. -/
theorem memory_of_reaches (hr : Reaches (step cfg) noStaleTest (· = init cfg) s) :
    (∃ h, Charge False s h) ∧ ∃ L W, Memory s L W := by
  refine hr.invariant (I := fun s => (∃ h, Charge False s h) ∧ ∃ L W, Memory s L W) ?_ ?_
  · rintro s rfl
    exact ⟨⟨.nobody, charge_init False.elim⟩, [], fun _ => [], memory_init cfg⟩
  · rintro s a s' - ⟨⟨h, hc⟩, L, W, hm⟩ hok hs
    exact ⟨hc.step False.elim hok hs, hm.step hc hs⟩

end

end Zab.Barrier
