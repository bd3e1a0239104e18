import Zab.Basic.Automaton
import Zab.Basic.Custody

set_option autoImplicit false

/-! # The descriptors of `async_file`

An `async_file` keeps its descriptor in `file_`, with 0 for none. The constructor leaves `file_`
without a value, so that a new object holds whatever was in memory. `open` stores a positive result
over what is there and takes 0, which is a descriptor, for a failure; `close()` closes whatever is
there. Move assignment and the destructor start `close_in_background`, which runs at once up to
its request and calls `::close` on the same descriptor if that request fails. Move assignment has
no return statement; what it does before its end is in the model.

An `open` waits for the kernel, and other operations may come before it ends; an object is not
destroyed under its own `open`. The kernel returns a descriptor only if it is not open. The opens
are counted, and a close is recorded with the open that it undoes; the fields `table`, `opened` and
`closes` are history and the kernel's side, and no branch of the code reads them.
-/

namespace Zab.Descriptors

open Automaton

/-! ## Opening and closing -/

/-- `file::Option`. -/
inductive FileOption where
  | kRead
  | kTrunc
  | kAppend
  | kReadWrite
  | kRWTruncate
  | kRWAppend
  deriving DecidableEq

def oRdonly : BitVec 32 := 0x0
def oWronly : BitVec 32 := 0x1
def oRdwr : BitVec 32 := 0x2
def oCreat : BitVec 32 := 0x40
def oTrunc : BitVec 32 := 0x200
def oAppend : BitVec 32 := 0x400
def oTmpfile : BitVec 32 := 0x410000

/-- `file::open_options`. -/
def openOptions : FileOption → BitVec 32
  | .kRead => oRdonly
  | .kTrunc => oWronly ||| oCreat ||| oTrunc
  | .kAppend => oWronly ||| oCreat ||| oAppend
  | .kReadWrite => oRdwr
  | .kRWTruncate => oRdwr ||| oCreat ||| oTrunc
  | .kRWAppend => oRdwr ||| oCreat ||| oAppend

/-- `open`, when it is asked whether it is ready: it then ends without a request. -/
def openReady (flags mode : BitVec 32) : Bool :=
  mode == 0 && (flags &&& oCreat != 0 || flags &&& oTmpfile != 0)

/-- `open`, when it resumes: what is in `file_` then, and what it returns. -/
def openResume (file result : Int) : Int × Bool :=
  if result > 0 then (result, true) else (file, false)

structure State where
  /-- The objects, and what is in `file_`. -/
  file : Nat → Option Int
  /-- Calls of `open` that wait for the kernel, with the object; the static one has none. -/
  opening : List (Option Nat)
  /-- The descriptors whose `close_in_background` waits for the kernel. -/
  background : List Int
  /-- The descriptors that are open and for which no close was issued, with the open that
  returned them. -/
  table : Int → Option Nat
  /-- What the successful opens returned. -/
  opened : List Int
  /-- Every close that was issued, with the open it undoes. -/
  closes : List (Int × Option Nat)

def init : State where
  file := fun _ => none
  opening := []
  background := []
  table := fun _ => none
  opened := []
  closes := []

def State.set (s : State) (o : Nat) (x : Option Int) : State :=
  { s with file := Function.update s.file o x }

/-- A close of `fd` is issued. -/
def State.issueClose (s : State) (fd : Int) : State :=
  { s with
    table := Function.update s.table fd none
    closes := s.closes ++ [(fd, s.table fd)] }

/-- The descriptor `fd` is opened. -/
def State.grant (s : State) (fd : Int) : State :=
  { s with
    table := Function.update s.table fd (some s.opened.length)
    opened := s.opened ++ [fd] }

/-- The kernel returns `result` from an `open`, which is an error or a descriptor not in use. -/
def State.kernelOpen (s : State) (result : Int) : Option State :=
  if 0 ≤ result then
    if s.table result = none then some (s.grant result) else none
  else some s

/-- `close_in_background(engine_, fd)`, up to its first suspension. -/
def State.closeInBackground (s : State) (fd : Int) : State :=
  { s.issueClose fd with background := s.background ++ [fd] }

/-- `if (file_) { close_in_background(engine_, file_); }`. -/
def State.drop (s : State) (fd : Int) : State :=
  if fd ≠ 0 then s.closeInBackground fd else s

inductive Action where
  /-- `async_file(engine*)`; `file_` is what was in memory. -/
  | construct (o : Nat) (memory : Int)
  /-- `co_await open(...)` on an object. -/
  | openMember (o : Nat) (flags mode : BitVec 32)
  /-- `co_await` of the static `open(...)`. -/
  | openStatic
  /-- An `open` ends with the given result; the static one makes the object `p` if it succeeds. -/
  | opened (target : Option Nat) (result : Int) (p : Nat)
  /-- `co_await close()`. -/
  | close (o : Nat)
  | moveConstruct (o p : Nat)
  | moveAssign (o p : Nat)
  | destroy (o : Nat)
  /-- The request of a `close_in_background` ends with the given result. -/
  | backgroundClosed (fd result : Int)
  deriving DecidableEq

def step (s : State) : Action → Option State
  | .construct o memory => if s.file o = none then some (s.set o (some memory)) else none
  | .openMember o flags mode =>
      (s.file o).map fun _ =>
        if openReady flags mode then s else { s with opening := some o :: s.opening }
  | .openStatic => some { s with opening := none :: s.opening }
  | .opened target result p =>
      if target ∈ s.opening then
        (s.kernelOpen result).bind fun t =>
          let t := { t with opening := t.opening.erase target }
          match target with
          | some o => (s.file o).map fun f => t.set o (some (openResume f result).1)
          | none =>
              if result > 0 then
                if s.file p = none then some (t.set p (some result)) else none
              else some t
      else none
  | .close o => (s.file o).map fun f => (s.set o (some 0)).issueClose f
  | .moveConstruct o p =>
      if s.file o = none then (s.file p).map fun f => (s.set o (some f)).set p (some 0) else none
  | .moveAssign o p =>
      (s.file o).bind fun f => (s.file p).map fun g => ((s.drop f).set o (some g)).set p (some 0)
  | .destroy o =>
      if some o ∈ s.opening then none else (s.file o).map fun f => (s.set o none).drop f
  | .backgroundClosed fd result =>
      if fd ∈ s.background then
        let t := { s with background := s.background.erase fd }
        -- `if (!s) { ::close(_fd) }`
        some (if result = 0 then t else t.issueClose fd)
      else none

/-- **One owner, closed once.** -/
structure OneOwner (s : State) : Prop where
  /-- A descriptor that is open is in `file_` of at most one object. -/
  one : ∀ o p fd, s.table fd ≠ none → s.file o = some fd → s.file p = some fd → o = p
  /-- Every close is of a descriptor that an open returned and that is still open. -/
  named : ∀ fd of, (fd, of) ∈ s.closes → ∃ i, of = some i ∧ s.opened[i]? = some fd
  /-- No open is undone twice. -/
  once : (s.closes.filterMap Prod.snd).Nodup
  /-- When there are no objects, every open has been undone. -/
  settled : (∀ o, s.file o = none) → ∀ i < s.opened.length, i ∈ s.closes.filterMap Prod.snd

/-- What a step must keep to: what is in memory where an object is made is not the number of an
open descriptor; the kernel does not return 0, nor a number that some other object has in `file_`,
and what is opened does not have an open descriptor in `file_`; what is closed has one; an object
is destroyed or assigned to with 0 or an open descriptor in `file_`; the ring does not fail to
close. -/
def careful (s : State) : Action → Prop
  | .construct _ memory => s.table memory = none
  | .opened target result _ =>
      0 ≤ result → result ≠ 0 ∧ (∀ q, s.file q = some result → target = some q) ∧
        ∀ o ∈ target, ∀ f ∈ s.file o, s.table f = none
  | .close o => ∀ f ∈ s.file o, s.table f ≠ none
  | .moveAssign o _ => ∀ f ∈ s.file o, f = 0 ∨ s.table f ≠ none
  | .destroy o => ∀ f ∈ s.file o, f = 0 ∨ s.table f ≠ none
  | .backgroundClosed _ result => result = 0
  | _ => True

/-! ## The invariant -/

/-- The open descriptor that an object has. -/
def State.hold (s : State) (o : Nat) : Option Int := (s.file o).filter fun fd => (s.table fd).isSome

structure Inv (s : State) : Prop where
  custody : Custody s.table s.hold s.opened.length (s.closes.filterMap Prod.snd) []
  value : ∀ fd i, s.table fd = some i → s.opened[i]? = some fd
  named : ∀ fd of, (fd, of) ∈ s.closes → ∃ i, of = some i ∧ s.opened[i]? = some fd
  zero : s.table 0 = none

section

variable {s s' t : State} {o p : Nat} {fd : Int}

theorem inv_init : Inv init where
  custody := Custody.init Nat Int
  value := fun _ _ h => nomatch h
  named := fun _ _ h => nomatch h
  zero := rfl

theorem hold_eq_some : s.hold o = some fd ↔ s.file o = some fd ∧ s.table fd ≠ none := by
  rw [State.hold, Option.filter_eq_some_iff, Option.isSome_iff_ne_none]

theorem hold_eq_none (h : ∀ f ∈ s.file o, s.table f = none) : s.hold o = none := by
  rw [State.hold, Option.filter_eq_none_iff]
  intro f hf
  rw [h f hf]
  exact Bool.false_ne_true

/-- Who does not exist has nothing. -/
theorem hold_of_file_none (h : s.file o = none) : s.hold o = none := by
  apply hold_eq_none
  intro f hf
  rw [h] at hf
  cases hf

theorem set_file_self {x : Option Int} : (s.set o x).file o = x := Function.update_self ..

theorem set_file_of_ne {q : Nat} {x : Option Int} (hne : q ≠ o) :
    (s.set o x).file q = s.file q := Function.update_of_ne hne ..

theorem hold_set_of_ne {q : Nat} {x : Option Int} (hne : q ≠ o) :
    (s.set o x).hold q = s.hold q := by
  unfold State.hold
  rw [set_file_of_ne hne]
  rfl

theorem hold_set_self {x : Option Int} :
    (s.set o x).hold o = x.filter fun fd => (s.table fd).isSome := by
  unfold State.hold
  rw [set_file_self]
  rfl

/-- The kernel's side and the history are the same. -/
structure SameLedger (s t : State) : Prop where
  table : t.table = s.table
  opened : t.opened = s.opened
  closes : t.closes = s.closes

/-- Objects exchange what they have, and nothing else happens. -/
theorem Inv.exchange (h : Inv s) (hl : SameLedger s t) (e : Equiv.Perm Nat)
    (hhold : ∀ c, t.hold c = s.hold (e c)) : Inv t := by
  constructor
  · rw [hl.table, hl.opened, hl.closes]
    exact h.custody.exchange e hhold
  · rw [hl.table, hl.opened]
    exact h.value
  · rw [hl.closes, hl.opened]
    exact h.named
  · rw [hl.table]
    exact h.zero

theorem Inv.congr (h : Inv s) (hl : SameLedger s t) (hfile : t.file = s.file) : Inv t := by
  refine h.exchange hl (Equiv.refl _) fun c => ?_
  unfold State.hold
  rw [hfile, hl.table]
  rfl

/-- An object without an open descriptor is made, destroyed, or has `file_` overwritten. -/
theorem Inv.set {x : Option Int} (h : Inv s) (ho : s.hold o = none)
    (hx : ∀ f ∈ x, s.table f = none) : Inv (s.set o x) := by
  refine h.exchange ⟨rfl, rfl, rfl⟩ (Equiv.refl _) fun c => ?_
  by_cases hc : c = o
  · have hnew : (s.set o x).hold o = none := by
      apply hold_eq_none
      intro f hf
      rw [set_file_self] at hf
      exact hx f hf
    rw [hc, hnew]
    exact ho.symm
  · exact hold_set_of_ne hc

/-- The object `o` takes what `p` has. -/
theorem Inv.move {f : Int} (h : Inv s) (ho : s.hold o = none) (hp : s.file p = some f)
    (hne : o ≠ p) : Inv ((s.set o (some f)).set p (some 0)) := by
  have hto : ((s.set o (some f)).set p (some 0)).hold o = s.hold p := by
    rw [hold_set_of_ne hne, hold_set_self, ← hp]
    rfl
  have hfrom : ((s.set o (some f)).set p (some 0)).hold p = none := by
    rw [hold_set_self]
    show (some (0 : Int)).filter (fun fd => (s.table fd).isSome) = none
    rw [Option.filter_some, h.zero]
    rfl
  -- for the holders the move is an exchange, as `o` had nothing
  refine h.exchange ⟨rfl, rfl, rfl⟩ (Equiv.swap o p) fun c => ?_
  by_cases hco : c = o
  · rw [hco, Equiv.swap_apply_left, hto]
  by_cases hcp : c = p
  · rw [hcp, Equiv.swap_apply_right, hfrom, ho]
  rw [Equiv.swap_apply_of_ne_of_ne hco hcp, hold_set_of_ne hcp, hold_set_of_ne hco]

/-- A close is issued for what an object has; until its `file_` is overwritten the object still
has the number, but not an open descriptor. -/
theorem Inv.issueClose (h : Inv s) (ho : s.file o = some fd) (hfd : s.table fd ≠ none) :
    Inv (s.issueClose fd) ∧ (s.issueClose fd).hold o = none := by
  obtain ⟨i, hi⟩ := Option.ne_none_iff_exists'.mp hfd
  have hhold : s.hold o = some fd := hold_eq_some.mpr ⟨ho, hfd⟩
  have hself : (s.issueClose fd).hold o = none := by
    apply hold_eq_none
    intro f hf
    obtain rfl : fd = f := Option.some.inj (ho.symm.trans hf)
    exact Function.update_self ..
  -- no other object has this descriptor
  have hother : ∀ d, d ≠ o → (s.issueClose fd).hold d = s.hold d := by
    intro d hd
    show (s.file d).filter (fun fd' => (Function.update s.table fd none fd').isSome) = _
    unfold State.hold
    cases hfile : s.file d with
    | none => rfl
    | some f =>
        have hne : f ≠ fd := by
          rintro rfl
          exact hd (h.custody.inj d o f (hold_eq_some.mpr ⟨hfile, hfd⟩) hhold)
        rw [Option.filter_some, Option.filter_some, Function.update_of_ne hne]
  have hreturned : (s.issueClose fd).closes.filterMap Prod.snd
      = s.closes.filterMap Prod.snd ++ [i] := by
    show (s.closes ++ [(fd, s.table fd)]).filterMap Prod.snd = _
    rw [List.filterMap_append, hi]
    rfl
  refine ⟨⟨?_, ?_, ?_, ?_⟩, hself⟩
  · rw [hreturned]
    exact h.custody.giveBack hhold hi hself hother
  · intro fd' j hj
    apply h.value
    by_cases hne : fd' = fd
    · rw [hne] at hj
      have hnone : (s.issueClose fd).table fd = none := Function.update_self ..
      exact nomatch hnone.symm.trans hj
    · have hsame : (s.issueClose fd).table fd' = s.table fd' := Function.update_of_ne hne ..
      exact hsame.symm.trans hj
  · intro fd' of hmem
    rcases List.mem_append.mp hmem with hmem | hmem
    · exact h.named fd' of hmem
    · obtain ⟨rfl, rfl⟩ := Prod.mk.inj (List.mem_singleton.mp hmem)
      exact ⟨i, hi, h.value fd' i hi⟩
  · show Function.update s.table fd none 0 = none
    by_cases hne : (0 : Int) = fd
    · rw [← hne, Function.update_self]
    · rw [Function.update_of_ne hne, h.zero]

/-- What is left of an object whose descriptor is dropped. -/
theorem Inv.drop (h : Inv s) (ho : s.file o = some fd) (hfd : fd = 0 ∨ s.table fd ≠ none) :
    Inv (s.drop fd) ∧ (s.drop fd).hold o = none := by
  unfold State.drop
  split
  · rename_i hne
    obtain ⟨hinv, hhold⟩ := h.issueClose ho (hfd.resolve_left hne)
    exact ⟨hinv.congr ⟨rfl, rfl, rfl⟩ rfl, hhold⟩
  · rename_i hzero
    refine ⟨h, hold_eq_none fun f hf => ?_⟩
    obtain rfl : fd = f := Option.some.inj (ho.symm.trans hf)
    rw [not_not.mp hzero]
    exact h.zero

theorem drop_file (s : State) (fd : Int) : (s.drop fd).file = s.file := by
  unfold State.drop
  split <;> rfl

theorem drop_set (s : State) (o : Nat) (x : Option Int) (fd : Int) :
    (s.set o x).drop fd = (s.drop fd).set o x := by
  unfold State.drop
  split <;> rfl

/-- An `open` succeeds, and the object `o` gets the descriptor. -/
theorem Inv.take (h : Inv s) (hpos : fd ≠ 0) (hs : s.table fd = none) (ho : s.hold o = none)
    (hother : ∀ q, s.file q = some fd → q = o) : Inv ((s.grant fd).set o (some fd)) := by
  have hnew : (s.grant fd).table fd = some s.opened.length := Function.update_self ..
  have hold : ∀ f, f ≠ fd → (s.grant fd).table f = s.table f :=
    fun f hf => Function.update_of_ne hf ..
  have hself : ((s.grant fd).set o (some fd)).hold o = some fd := by
    rw [hold_set_self, Option.filter_some, hnew]
    rfl
  have hrest : ∀ d, d ≠ o → ((s.grant fd).set o (some fd)).hold d = s.hold d := by
    intro d hd
    rw [hold_set_of_ne hd]
    show (s.file d).filter (fun f => ((s.grant fd).table f).isSome) = _
    unfold State.hold
    cases hfile : s.file d with
    | none => rfl
    | some f =>
        have hne : f ≠ fd := by
          rintro rfl
          exact hd (hother d hfile)
        rw [Option.filter_some, Option.filter_some, hold f hne]
  have hgrow : ∀ (i : Nat) f, s.opened[i]? = some f → (s.opened ++ [fd])[i]? = some f := by
    intro i f hi
    rw [List.getElem?_append_left (List.getElem?_eq_some_iff.mp hi).1]
    exact hi
  have hlen : (s.opened ++ [fd]).length = s.opened.length + 1 := List.length_append
  constructor
  · show Custody _ _ (s.opened ++ [fd]).length _ _
    rw [hlen]
    exact h.custody.take hs ho hself hrest
  · -- the new number is the last one, and names `fd`
    intro f i hi
    show (s.opened ++ [fd])[i]? = some f
    by_cases hf : f = fd
    · rw [hf] at hi ⊢
      rw [← Option.some.inj (hnew.symm.trans hi)]
      exact List.getElem?_concat_length
    · exact hgrow i f (h.value f i ((hold f hf).symm.trans hi))
  · intro f of hmem
    obtain ⟨i, hi, hval⟩ := h.named f of hmem
    exact ⟨i, hi, hgrow i f hval⟩
  · -- the descriptor 0 is not handed out
    exact (hold 0 (Ne.symm hpos)).trans h.zero

/-! ## One step, and a run -/

theorem Inv.step_opened {target : Option Nat} {result : Int} (h : Inv s)
    (hok : careful s (.opened target result p)) (hs : step s (.opened target result p) = some s') :
    Inv s' := by
  simp only [Descriptors.step] at hs
  split at hs
  · obtain ⟨t, ht, hs⟩ := Option.bind_eq_some_iff.mp hs
    unfold State.kernelOpen at ht
    by_cases hres : 0 ≤ result
    · rw [if_pos hres] at ht
      obtain ⟨hne, hother, hself⟩ := hok hres
      have hpos : result > 0 := by omega
      split at ht
      · rename_i hfree
        obtain rfl := Option.some.inj ht
        cases target with
        | some o =>
            -- what `file_` held was no open descriptor, so that nothing is lost
            obtain ⟨f, hf, rfl⟩ := Option.map_eq_some_iff.mp hs
            have hhold : s.hold o = none := hold_eq_none (hself o rfl)
            have htake := h.take hne hfree hhold fun q hq => (Option.some.inj (hother q hq)).symm
            have hfile : (openResume f result).1 = result := by rw [openResume, if_pos hpos]
            rw [hfile]
            exact htake.congr ⟨rfl, rfl, rfl⟩ rfl
        | none =>
            simp only [if_pos hpos] at hs
            split at hs
            · rename_i hp
              obtain rfl := Option.some.inj hs
              have htake := h.take hne hfree (hold_of_file_none hp) fun q hq => nomatch hother q hq
              exact htake.congr ⟨rfl, rfl, rfl⟩ rfl
            · cases hs
      · cases ht
    · -- an error: `file_` is left as it is
      rw [if_neg hres] at ht
      obtain rfl := Option.some.inj ht
      have hneg : ¬ result > 0 := by omega
      cases target with
      | some o =>
          obtain ⟨f, hf, rfl⟩ := Option.map_eq_some_iff.mp hs
          have hfile : (openResume f result).1 = f := by rw [openResume, if_neg hneg]
          rw [hfile, ← hf]
          exact h.congr ⟨rfl, rfl, rfl⟩ (Function.update_eq_self o s.file)
      | none =>
          simp only [if_neg hneg] at hs
          obtain rfl := Option.some.inj hs
          exact h.congr ⟨rfl, rfl, rfl⟩ rfl
  · cases hs

theorem Inv.step {a : Action} (h : Inv s) (hok : careful s a) (hs : step s a = some s') :
    Inv s' := by
  cases a with
  | construct o memory =>
      simp only [Descriptors.step] at hs
      split at hs
      · rename_i ho
        obtain rfl := Option.some.inj hs
        apply h.set (hold_of_file_none ho)
        rintro f ⟨⟩
        exact hok
      · cases hs
  | openMember o flags mode =>
      obtain ⟨f, -, rfl⟩ := Option.map_eq_some_iff.mp hs
      split
      · exact h
      · exact h.congr ⟨rfl, rfl, rfl⟩ rfl
  | openStatic =>
      obtain rfl := Option.some.inj hs
      exact h.congr ⟨rfl, rfl, rfl⟩ rfl
  | opened target result p => exact h.step_opened hok hs
  | close o =>
      -- the order of the two updates does not matter: the close, and then `file_ = 0`
      obtain ⟨f, hf, rfl⟩ := Option.map_eq_some_iff.mp hs
      obtain ⟨hinv, hhold⟩ := h.issueClose hf (hok f hf)
      have hzero := hinv.zero
      apply hinv.set hhold
      rintro f ⟨⟩
      exact hzero
  | moveConstruct o p =>
      simp only [Descriptors.step] at hs
      split at hs
      · rename_i ho
        obtain ⟨f, hf, rfl⟩ := Option.map_eq_some_iff.mp hs
        have hne : o ≠ p := by
          rintro rfl
          rw [ho] at hf
          cases hf
        exact h.move (hold_of_file_none ho) hf hne
      · cases hs
  | moveAssign o p =>
      obtain ⟨f, hf, hs⟩ := Option.bind_eq_some_iff.mp hs
      obtain ⟨g, hg, rfl⟩ := Option.map_eq_some_iff.mp hs
      obtain ⟨hinv, hhold⟩ := h.drop hf (hok f hf)
      by_cases hop : o = p
      · -- an object assigned to itself ends without a descriptor
        have hset : ((s.drop f).set o (some g)).set p (some 0) = (s.drop f).set o (some 0) := by
          rw [hop]
          unfold State.set
          rw [Function.update_idem]
        have hzero := hinv.zero
        rw [hset]
        apply hinv.set hhold
        rintro f ⟨⟩
        exact hzero
      · apply hinv.move hhold _ hop
        rw [drop_file]
        exact hg
  | destroy o =>
      simp only [Descriptors.step] at hs
      split at hs
      · cases hs
      · obtain ⟨f, hf, rfl⟩ := Option.map_eq_some_iff.mp hs
        obtain ⟨hinv, hhold⟩ := h.drop hf (hok f hf)
        rw [drop_set]
        exact hinv.set hhold fun f hf => nomatch hf
  | backgroundClosed fd result =>
      simp only [Descriptors.step] at hs
      split at hs
      · obtain rfl := Option.some.inj hs
        have hzero : result = 0 := hok
        rw [if_pos hzero]
        exact h.congr ⟨rfl, rfl, rfl⟩ rfl
      · cases hs

end

/-! ## Opened once, and opened again -/

end Zab.Descriptors
